import Mathlib.Logic.Relation

/-! Transition systems: initial states, a step relation, the states some run
reaches. An invariant is proved by what one step preserves; a run of one system
seen through a function is a run of another when every step is. A step relation
given by labels and a partial function has runs that can be computed. -/

namespace BlorgFS.Lib

variable {σ τ : Type*}

/-- Initial states and the steps between states. -/
structure System (σ : Type*) where
  init : σ → Prop
  step : σ → σ → Prop

namespace System

/-- The states some run of the system reaches. -/
inductive Reachable (S : System σ) : σ → Prop
  | init {s : σ} : S.init s → Reachable S s
  | step {s s' : σ} : Reachable S s → S.step s s' → Reachable S s'

variable {S : System σ} {T : System τ}

/-- What holds at the start and is preserved by every step from a reachable state
holds in every reachable state. -/
theorem invariant {P : σ → Prop} (h0 : ∀ s, S.init s → P s)
    (hstep : ∀ s s', S.Reachable s → P s → S.step s s' → P s') {s : σ} (h : S.Reachable s) : P s := by
  induction h with
  | init hi => exact h0 _ hi
  | step hr hs ih => exact hstep _ _ hr ih hs

theorem Reachable.trans {s s' : σ} (h : S.Reachable s) (hs : Relation.ReflTransGen S.step s s') :
    S.Reachable s' := by
  induction hs with
  | refl => exact h
  | tail _ hstep ih => exact ih.step hstep

/-- If every step of `S` from a reachable state is some steps of `T` through `f`,
then `f` takes reachable states to reachable states. -/
theorem Reachable.map (f : σ → τ) (h0 : ∀ s, S.init s → T.Reachable (f s))
    (hstep : ∀ s s', S.Reachable s → S.step s s' → Relation.ReflTransGen T.step (f s) (f s'))
    {s : σ} (h : S.Reachable s) : T.Reachable (f s) := by
  induction h with
  | init hi => exact h0 _ hi
  | step hr hs ih => exact ih.trans (hstep _ _ hr hs)

end System

/-- The labels `acts` one after another, as long as each is enabled. -/
def run {α : Type*} (next : σ → α → Option σ) (s : σ) : List α → Option σ
  | [] => some s
  | act :: acts => (next s act).bind fun s => run next s acts

theorem run_append {α : Type*} {next : σ → α → Option σ} {s : σ} {acts acts' : List α} :
    run next s (acts ++ acts') = (run next s acts).bind fun s => run next s acts' := by
  induction acts generalizing s with
  | nil => rfl
  | cons act acts ih =>
    rw [List.cons_append, run, run, Option.bind_assoc]
    congr 1
    funext s
    exact ih

theorem System.Reachable.run {α : Type*} {S : System σ} {next : σ → α → Option σ}
    (hnext : ∀ s act s', next s act = some s' → S.step s s') :
    ∀ {acts : List α} {s s' : σ}, S.Reachable s → run next s acts = some s' → S.Reachable s'
  | [], _, _, h, he => Option.some.inj he ▸ h
  | act :: acts, s, _, h, he => by
    obtain ⟨s₁, he₁, he⟩ := Option.bind_eq_some_iff.mp he
    exact System.Reachable.run hnext (h.step (hnext s act s₁ he₁)) he

/-- What each of some steps spends and no other gives back, a run spends no more of than there is. -/
theorem run_spends {α : Type*} {next : σ → α → Option σ} {I : σ → Prop} {potential : σ → Nat} {spends : α → Bool}
    (hstep : ∀ s act s', I s → next s act = some s' → I s' ∧ (if spends act then 1 else 0) + potential s' ≤ potential s) :
    ∀ {acts : List α} {s s' : σ}, I s → run next s acts = some s' → acts.countP spends + potential s' ≤ potential s
  | [], s, _, _, he => by
    obtain rfl : s = _ := Option.some.inj he
    rw [List.countP_nil]
    omega
  | act :: acts, s, _, hs, he => by
    obtain ⟨s₁, he₁, he⟩ := Option.bind_eq_some_iff.mp he
    obtain ⟨hs₁, hspent⟩ := hstep s act s₁ hs he₁
    have hrest := run_spends hstep hs₁ he
    rw [List.countP_cons]
    omega

/-- A run is a path of any relation that has its steps. -/
theorem reflTransGen_run {α : Type*} {R : σ → σ → Prop} {next : σ → α → Option σ}
    (hnext : ∀ s act s', next s act = some s' → R s s') :
    ∀ {acts : List α} {s s' : σ}, run next s acts = some s' → Relation.ReflTransGen R s s'
  | [], _, _, he => Option.some.inj he ▸ .refl
  | act :: acts, s, _, he => by
    obtain ⟨s₁, he₁, he⟩ := Option.bind_eq_some_iff.mp he
    exact .head (hnext s act s₁ he₁) (reflTransGen_run hnext he)

end BlorgFS.Lib

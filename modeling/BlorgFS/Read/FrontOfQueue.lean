import BlorgFS.Read.FairBytes

/-! The front of the queue. Read-ahead of a file that has not fetched for a while starts at the
virtual time, and is served first if nothing that is held has a start tag before it. What goes
out past the reads that are held may break this: demand, a file's first fetch, and read-ahead of
an idle file that goes out without room. -/

namespace BlorgFS.Read

open Lib DiskCache Core

variable {V : Setup} {f f' : Fair} {i n start : ℕ} {s : State}

/-- The virtual time is not past the start tag of any read-ahead that is held. -/
def Fair.Fronted (f : Fair) : Prop := ∀ j ∈ f.held, f.virtualTime ≤ f.heldTag j

instance (f : Fair) : Decidable f.Fronted := inferInstanceAs (Decidable (∀ j ∈ f.held, _))

/-- A read that is admitted on arrival leaves it so exactly if its file's finish tag is not past
one of them either. -/
theorem fronted_admitNow (h : f.Fronted) : (f.admitNow V i).Fronted ↔ ∀ j ∈ f.held, (f.nodeOf V i).readFinishTag ≤ f.heldTag j := by
  unfold Fair.Fronted
  rw [Fair.heldTag_admitNow]
  show (∀ j ∈ f.held, max (f.nodeOf V i).readFinishTag f.virtualTime ≤ f.heldTag j) ↔ _
  refine forall₂_congr fun j hj => ?_
  have := h j hj
  omega

theorem fronted_hold (h : f.Fronted) (mayHold : Bool) (item : ℕ) : (f.hold V i mayHold item).Fronted := by
  have htime : (f.hold V i mayHold item).virtualTime = f.virtualTime := by cases mayHold <;> rfl
  have hheld : ∀ j ∈ (f.hold V i mayHold item).held, j = i ∨ j ∈ f.held := fun j hj => by
    cases mayHold with
    | true => exact (List.mem_append.mp hj).symm.imp_left List.mem_singleton.mp
    | false => exact Or.inr hj
  intro j hj
  rw [htime, Fair.heldTag_hold]
  by_cases hji : j = i
  · rw [hji, Function.update_self]
    exact Nat.le_max_right _ _
  · rw [Function.update_of_ne hji]
    exact h j ((hheld j hj).resolve_left hji)

/-- A read that is let go leaves it so exactly if its start tag is not past one of those that stay. -/
theorem fronted_release (h : f.Fronted) (i start : ℕ) :
    (f.release V i start).Fronted ↔ ∀ j ∈ f.held.erase i, start ≤ f.heldTag j := by
  have htag : ∀ j, (f.release V i start).heldTag j = f.heldTag j := (Traffic.release_quiet (V := V) f i start).tag
  unfold Fair.Fronted
  simp only [htag]
  show (∀ j ∈ f.held.erase i, max f.virtualTime start ≤ f.heldTag j) ↔ _
  refine forall₂_congr fun j hj => ?_
  have := h j (List.mem_of_mem_erase hj)
  omega

/-- Nothing is let past read-ahead that is held and has an earlier start tag: not a read that is
admitted as it arrives, nor one that goes out while demand waits or without room in the budget. -/
def inTurn (V : Setup) : Guard where
  allow f i := ∀ j ∈ f.held, (f.nodeOf V i).readFinishTag ≤ f.heldTag j
  hold _ _ _ := True
  release f i _ := f.waiting = [] ∧ f.inFlightBytes < V.budget ∨ ∀ j ∈ f.held, f.heldTag i ≤ f.heldTag j

theorem fronted_kept (V : Setup) (n : ℕ) : Kept V (inTurn V) n Fair.Fronted Fair.Fronted where
  idle f f' hf h j hj := by
    rw [hf.virtualTime, hf.tag]
    exact h j (hf.held ▸ hj)
  allow _ _ _ hturn h := (fronted_admitNow h).mpr hturn
  hold _ _ mayHold item _ _ h := fronted_hold h mayHold item
  release f i start _ hn hturn h := by
    obtain rfl := next_start hn
    refine (fronted_release h i _).mpr fun j hj => ?_
    rcases hturn with ⟨hw, hroom⟩ | hle
    · exact (next_least hn hw hroom).2 j (Or.inl (List.mem_of_mem_erase hj))
    · exact hle j (List.mem_of_mem_erase hj)

/-- In every run in which nothing is let past read-ahead with an earlier start tag, the virtual
time is never past the start tag of read-ahead that is held, and a read of a file whose finish tag
is not past it starts no later than any of them. -/
theorem front_of_queue (h : (guardedSystem V (inTurn V)).Reachable s) :
    (∀ j ∈ s.core.held, s.core.virtualTime ≤ s.core.heldTag j) ∧
      ∀ i, (s.core.nodeOf V i).readFinishTag ≤ s.core.virtualTime → ∀ j ∈ s.core.held, s.core.startTag V i ≤ s.core.heldTag j := by
  have hfront : s.core.toFair.Fronted :=
    Kept.reachable (Q := fun _ => Fair.Fronted) (fronted_kept V) (fun j hj => by cases hj) (fun _ _ hq => hq) h
  refine ⟨hfront, fun i hi j hj => ?_⟩
  exact max_le (hi.trans (hfront j hj)) (hfront j hj)

instance : ∀ f i, Decidable ((inTurn V).allow f i) := fun f _ => inferInstanceAs (Decidable (∀ j ∈ f.held, _))

instance : ∀ f i mayHold, Decidable ((inTurn V).hold f i mayHold) := fun _ _ _ => isTrue trivial

instance : ∀ f i start, Decidable ((inTurn V).release f i start) := fun _ _ _ => inferInstanceAs (Decidable (_ ∨ ∀ j ∈ _, _))

theorem page_pos : 0 < 4096 := by decide

theorem page_lt : 4096 < 2 ^ 32 := by decide

theorem pageKb_le : 4 ≤ (2 ^ 32 - 1) / 1024 := by decide

/-- Reads of a page each: read-ahead of a file, demand of a second, and read-ahead of a third. -/
def faulting : Setup where
  budgetKb := 4
  request i := ⟨if i ≤ 1 then 1 else if i ≤ 4 then 2 else 3, 0, 4096, i ≤ 1 ∨ 5 ≤ i, page_pos, page_lt⟩
  budgetKb_le := pageKb_le

theorem front_of_queue_faulting : ∃ s, (guardedSystem faulting (inTurn faulting)).Reachable s ∧ s.core.held = [1] ∧
    s.core.virtualTime ≤ s.core.heldTag 1 ∧ s.core.startTag faulting 5 ≤ s.core.heldTag 1 := by
  have hrun : (run (State.nextObeying (inTurn faulting) faulting) initial (sent 4096 0 ++ queued 4096 1 0)).map (fun s =>
      (s.core.held, decide ((s.core.nodeOf faulting 5).readFinishTag ≤ s.core.virtualTime))) = some ([1], true) := by decide +kernel
  obtain ⟨s, hs, hfacts⟩ := Option.map_eq_some_iff.mp hrun
  obtain ⟨hheld, hfinish⟩ := Prod.mk.inj hfacts
  have hstep : ∀ s act s', State.nextObeying (inTurn faulting) faulting s act = some s' → (guardedSystem faulting (inTurn faulting)).step s s' :=
    fun _ act _ hn => ⟨act, State.nextObeying_some _ hn⟩
  have h0 : (guardedSystem faulting (inTurn faulting)).Reachable initial := .init rfl
  have hreach := h0.run hstep hs
  have hmem : 1 ∈ s.core.held := by simp [hheld]
  obtain ⟨hfront, hlater⟩ := front_of_queue hreach
  exact ⟨s, hreach, hheld, hfront 1 hmem, hlater 5 (of_decide_eq_true hfinish) 1 hmem⟩

/-- Three page faults of one file bring the virtual time past read-ahead of another that is held,
and read-ahead of a third, which has fetched nothing, is queued behind it. -/
theorem behind_the_queue : ∃ s, (system faulting).Reachable s ∧ ∃ j ∈ s.core.held, s.core.heldTag j < s.core.virtualTime ∧
    (s.core.nodeOf faulting 5).readFinishTag ≤ s.core.virtualTime ∧ s.core.heldTag j < s.core.startTag faulting 5 := by
  have hrun : (run (State.next faulting) initial (sent 4096 0 ++ queued 4096 1 0 ++ sent 4096 2 ++ sent 4096 3 ++ sent 4096 4)).map (fun s =>
      decide (∃ j ∈ s.core.held, s.core.heldTag j < s.core.virtualTime ∧
        (s.core.nodeOf faulting 5).readFinishTag ≤ s.core.virtualTime ∧ s.core.heldTag j < s.core.startTag faulting 5)) = some true := by
    decide +kernel
  obtain ⟨s, hs, hfacts⟩ := Option.map_eq_some_iff.mp hrun
  exact ⟨s, reachable_run hs, of_decide_eq_true hfacts⟩

end BlorgFS.Read

import BlorgFS.PathCache.Seeds

/-! Whether the path cache and the cached listing agree once the completions of a directory's
fetches are over. They do where no listing is published while an earlier one is still to be
seeded; and they need not where one is. -/

namespace BlorgFS.PathCache

open Lib

variable {N : Names} {dir : Path} {w w' : Completions} {t : ℕ} {pool : Bool}

namespace Completions

/-! ### Calls -/

/-- A thread with nothing to do enters a call that has nothing to seed. -/
theorem Ordered.moves_begin {th : Thread} (hidle : w.cache.threads t = ⟨.idle, []⟩) (hnone : w.owed t = none) (hof : th.Of N dir)
    (hpend : th.pending none = []) :
    Moves N dir t w ⟨w.cache.moved t th w.cache.buckets w.cache.listings w.cache.listingBytes, Function.update w.owed t none⟩ := by
  refine moves_thread rfl hof nofun (lists_same rfl) (fun r hr => ?_) fun i p hp hchild => .inl ⟨⟨p, hp, hchild, rfl⟩, fun hs => ?_⟩
  · rw [hpend] at hr
    cases hr
  · rw [sweeps, Thread.sweeps, hnone, hidle] at hs
    cases hs

theorem Ordered.moves_seed {c : Fetched} (h : w.Ordered N dir) (ho : w.owed t = some c) :
    Moves N dir t w ⟨w.cache.moved t (w.cache.begin (.seedListing c.dir (some c.listing) c.read) pool) w.cache.buckets w.cache.listings
      w.cache.listingBytes, Function.update w.owed t none⟩ := by
  obtain ⟨hsame, hne, hidle⟩ := h.owed t c ho
  have hbegin : w.cache.begin (.seedListing c.dir (some c.listing) c.read) pool = ⟨.seedReadLive c.dir (some c.listing) c.read, []⟩ := by
    simp only [State.begin, if_neg hne]
  rw [hbegin]
  refine moves_thread rfl ⟨hsame, (fun _ hcall => by cases hcall), fun _ _ _ hin => hin.elim⟩ (fun _ he => by cases he) (lists_same rfl) (fun r hr => ?_) fun i p hp hchild =>
    .inl ⟨⟨p, hp, hchild, rfl⟩, fun _ => rfl⟩
  rw [Completions.pending, Thread.pending, ho, hidle]
  exact hr

/-- The next insert of a seed. -/
theorem Ordered.moves_next {call : Keyed} {rest : List Keyed} (h : w.Ordered N dir) (hth : w.cache.threads t = ⟨.idle, call :: rest⟩) :
    Moves N dir t w ⟨w.cache.moved t ⟨w.cache.beginKeyed call pool, rest⟩ w.cache.buckets w.cache.listings w.cache.listingBytes,
      Function.update w.owed t none⟩ := by
  have hnone : w.owed t = none := h.owed_none (by rw [hth]; exact fun he => by cases he)
  have hof := h.threads t
  rw [hth] at hof
  obtain ⟨read, hins⟩ := hof.rest call List.mem_cons_self
  obtain ⟨path, found, rfl⟩ : ∃ path found, call = .insert path found read := by
    cases call with
    | insert path found r =>
      obtain rfl : r = read := Option.some.inj hins
      exact ⟨path, found, rfl⟩
    | _ => cases hins
  have hpending : w.pending t = read :: rest.filterMap Keyed.inserts := by
    rw [Completions.pending, Thread.pending, hnone, hth]
    rfl
  have hthread : (⟨w.cache.beginKeyed (.insert path found read) pool, rest⟩ : Thread).Of N dir ∧
      ∀ r ∈ (⟨w.cache.beginKeyed (.insert path found read) pool, rest⟩ : Thread).pending none, r ∈ w.pending t := by
    have hrest : ∀ c ∈ rest, ∃ r, c.inserts = some r := fun c hc => hof.rest c (List.mem_cons_of_mem _ hc)
    rw [hpending]
    unfold State.beginKeyed
    simp only
    split_ifs
    · exact ⟨⟨trivial, hrest, fun _ _ _ hin => hin.elim⟩, fun r hr => List.mem_cons_of_mem _ hr⟩
    · exact ⟨⟨trivial, hrest, fun _ _ _ hin => by cases hin⟩, fun r hr => hr⟩
  refine moves_thread rfl hthread.1 (fun _ he => by cases he) (lists_same rfl) hthread.2 fun i p hp hchild => .inl ⟨⟨p, hp, hchild, rfl⟩, fun hs => ?_⟩
  rw [sweeps, Thread.sweeps, hnone, hth] at hs
  cases hs

/-! ### Steps -/

/-- The thread is in its call and takes a step. -/
theorem Ordered.stepped (h : w.Ordered N dir) (hidle : (w.cache.threads t).pc ≠ .idle) (horder : w.InOrder (.step t pool))
    (hr : (system N).Reachable (w.cache.stepped N t pool (w.cache.threads t).pc)) :
    Ordered N dir ⟨w.cache.stepped N t pool (w.cache.threads t).pc, Function.update w.owed t (w.owedAfter N t)⟩ := by
  have hof := (h.threads t).pc
  have hstay : (∀ f, (w.cache.threads t).pc ≠ .bucketSection f) → w.owedAfter N t = w.owed t := by
    intro hsection
    unfold owedAfter
    split
    next f hpc => exact absurd hpc (hsection f)
    next => rfl
  have hcall : ∀ call, (w.cache.threads t).pc.In call → (∀ f, (w.cache.threads t).pc ≠ .bucketSection f) →
      Ordered N dir ⟨w.cache.stepped N t pool (w.cache.threads t).pc, Function.update w.owed t (w.owedAfter N t)⟩ := by
    intro call hin hsection
    rw [hstay hsection]
    exact h.moves (t := t) hr (h.moves_in hin hsection)
  cases hpc : (w.cache.threads t).pc with
  | idle => exact absurd hpc hidle
  | readSequence =>
    rw [← hpc, hstay (by rw [hpc]; nofun)]
    exact h.moves (t := t) hr (h.moves_ticket (.inl hpc))
  | readIssueTime sequence takenAt =>
    rw [← hpc, hstay (by rw [hpc]; nofun)]
    exact h.moves (t := t) hr (h.moves_ticket (.inr ⟨sequence, takenAt, hpc⟩))
  | readNow f | readLifetime f | readGeneration f | readListingBytes f | reapDead f j =>
    rw [← hpc]
    exact hcall f.call (by rw [hpc]; rfl) (by rw [hpc]; nofun)
  | seedReadLive path listing read =>
    rw [← hpc, hstay (by rw [hpc]; nofun)]
    exact h.moves (t := t) hr (h.moves_seedReadLive hpc)
  | seedSweep path listing read childrenOnly j =>
    rw [← hpc, hstay (by rw [hpc]; nofun)]
    exact h.moves (t := t) hr (h.moves_seedSweep hpc)
  | bucketSection f =>
    have hafter : w.owedAfter N t = w.licensed N f := by rw [owedAfter, hpc]
    have hofcall : f.call.Of N dir := by
      rw [hpc] at hof
      exact hof
    rw [hafter, ← hpc]
    cases hf : f.call with
    | insert path found read =>
      have hlicensed : w.licensed N f = none := by simp only [licensed, hf]
      rw [hlicensed]
      exact h.moves (t := t) hr (h.moves_insert hpc hf)
    | publish path listing read => exact h.publish hpc hf (horder f path listing read hpc hf) hr
    | find path =>
      rw [hf] at hofcall
      exact hofcall.elim
    | lookupListing path allowStale =>
      rw [hf] at hofcall
      exact hofcall.elim
  | _ =>
    rw [hpc] at hof
    exact hof.elim

theorem via_eq_some {act : State.Act} {owed : ℕ → Option Fetched} (h : w.via N act owed = some w') :
    ∃ s, w.cache.next N act = some s ∧ w' = ⟨s, owed⟩ := by
  obtain ⟨s, hs, rfl⟩ := Option.map_eq_some_iff.mp h
  exact ⟨s, hs, rfl⟩

theorem start_eq {s s' : State} {call : Call} (h : s.next N (.start t call pool) = some s') :
    s.threads t = ⟨.idle, []⟩ ∧ s' = s.moved t (s.begin call pool) s.buckets s.listings s.listingBytes := by
  rcases next_cases h with ⟨_, hact, _⟩ | ⟨u, call', pool', hact, hidle, _, rfl⟩ | ⟨_, _, _, _, hact, _⟩ | ⟨_, _, hact, _⟩
  · cases hact
  · cases hact
    exact ⟨hidle, rfl⟩
  · cases hact
  · cases hact

theorem Ordered.next {act : Act} (h : w.Ordered N dir) (horder : w.InOrder act) (hs : w.next N dir act = some w') : w'.Ordered N dir := by
  have hreach : ∀ {a s}, w.cache.next N a = some s → (system N).Reachable s := fun ha => h.reachable.step ⟨_, ha⟩
  have hsame : ∀ t, w.owed t = none → Function.update w.owed t none = w.owed := fun t hn => by rw [← hn, Function.update_eq_self]
  cases act with
  | tick elapsed =>
    obtain ⟨s, ha, rfl⟩ := via_eq_some hs
    have hr := hreach ha
    obtain rfl : { w.cache with now := w.cache.now + elapsed, event := w.cache.event + 1 } = s := Option.some.inj ha
    exact ⟨hr, h.threads, h.owed, h.pending, h.entries⟩
  | issue t =>
    simp only [Completions.next] at hs
    split_ifs at hs with hno
    obtain ⟨s, ha, rfl⟩ := via_eq_some hs
    obtain ⟨hidle, rfl⟩ := start_eq ha
    have hnone := Option.isNone_iff_eq_none.mp hno
    rw [← hsame t hnone]
    exact h.moves (t := t) (hreach ha) (Ordered.moves_begin hidle hnone ⟨trivial, nofun, fun _ _ _ hin => hin.elim⟩ rfl)
  | publish t c pool =>
    simp only [Completions.next] at hs
    split_ifs at hs with hno
    obtain ⟨s, ha, rfl⟩ := via_eq_some hs
    obtain ⟨hidle, rfl⟩ := start_eq ha
    have hnone := Option.isNone_iff_eq_none.mp hno.1
    have hdir : Same N c.dir dir := (Names.equal_iff N).mp hno.2
    have hthread : (w.cache.begin (.keyed (.publish c.dir c.listing c.read)) pool).Of N dir ∧
        (w.cache.begin (.keyed (.publish c.dir c.listing c.read)) pool).pending none = [] := by
      unfold State.begin State.beginKeyed
      simp only
      split_ifs with hskip
      · exact ⟨⟨trivial, nofun, fun _ _ _ hin => hin.elim⟩, rfl⟩
      · exact ⟨⟨⟨hdir, fun he => hskip (.inl he)⟩, nofun, fun _ _ _ _ => rfl⟩, rfl⟩
    rw [← hsame t hnone]
    exact h.moves (t := t) (hreach ha) (Ordered.moves_begin hidle hnone hthread.1 hthread.2)
  | seed t pool =>
    obtain ⟨c, ho, hc⟩ := Option.bind_eq_some_iff.mp hs
    obtain ⟨s, ha, rfl⟩ := via_eq_some hc
    obtain ⟨_, rfl⟩ := start_eq ha
    exact h.moves (t := t) (hreach ha) (h.moves_seed ho)
  | step t pool =>
    obtain ⟨s, ha, rfl⟩ := via_eq_some hs
    have hr := hreach ha
    rcases next_cases ha with ⟨_, hact, _⟩ | ⟨_, _, _, hact, _⟩ | ⟨u, call, rest, pool', hact, hth, rfl⟩ | ⟨u, pool', hact, hidle, rfl⟩
    · cases hact
    · cases hact
    · cases hact
      have hnone : w.owedAfter N t = none := by
        rw [owedAfter, hth]
        exact h.owed_none (by rw [hth]; nofun)
      rw [hnone]
      exact h.moves (t := t) hr (h.moves_next hth)
    · cases hact
      exact h.stepped hidle horder hr

end Completions

/-! ### Whole runs -/

theorem ordered_reachable (h : (orderedCompletions N dir).Reachable w) : w.Ordered N dir := by
  induction h with
  | init h0 =>
    obtain ⟨hr, hfinished, hagree⟩ := h0
    refine ⟨hr, fun t => ?_, fun t c hc => ?_, fun e _ t r hp => ?_, fun e he i p hp hchild => .inl (hagree e he.1 he.2 i p hp hchild)⟩
    · rw [(hfinished t).1]
      exact ⟨trivial, nofun, fun _ _ _ hin => hin.elim⟩
    · rw [(hfinished t).2] at hc
      cases hc
    · rw [Completions.pending, (hfinished t).1, (hfinished t).2] at hp
      cases hp
  | step _ hs ih =>
    obtain ⟨act, horder, hact⟩ := hs
    exact ih.next horder hact

/-- Once all completions are over, and none was overtaken, no entry of a child is from a listing
issued before the cached one. -/
theorem seeds_agree (h : (orderedCompletions N dir).Reachable w) (hfinished : w.Finished) : w.cache.Agree N dir := by
  have hordered := ordered_reachable h
  intro e he hs i p hp hchild
  rcases hordered.entries e ⟨he, hs⟩ i p hp hchild with hle | ⟨t, ht⟩
  · exact hle
  · rw [Completions.sweeps, (hfinished t).1, (hfinished t).2] at ht
    cases ht

/-! ### Two completions -/

theorem stepPc_threads {s : State} {pc : Pc} {u : ℕ} (hu : u ≠ t) : (s.stepPc N t pool pc).threads u = s.threads u := by
  have hgoto : ∀ (s : State) (pc : Pc), (s.goto t pc).threads u = s.threads u := fun _ _ => Function.update_of_ne hu ..
  cases pc with
  | bucketSection f =>
    simp only [State.stepPc, State.bucketStep]
    repeat' split
    all_goals exact hgoto ..
  | dropParent path inv =>
    simp only [State.stepPc, State.dropParentListing]
    split <;> exact hgoto ..
  | sweepAll flush follow j =>
    simp only [State.stepPc, State.afterFlush]
    repeat' split
    · exact hgoto ..
    · exact (hgoto ..).trans (hgoto ..)
    · exact hgoto ..
  | seedSweep listingDir listing read childrenOnly i =>
    simp only [State.stepPc]
    split
    · exact hgoto ..
    · exact Function.update_of_ne hu ..
  | idle => rfl
  | _ =>
    simp only [State.stepPc]
    repeat' split
    all_goals exact hgoto ..

namespace Completions

/-- The thread an act is of. -/
def Act.thread : Act → Option ℕ
  | .tick _ => none
  | .issue t | .publish t _ _ | .seed t _ | .step t _ => some t

/-- An act leaves the other threads where they are. -/
theorem next_other {act : Act} {u : ℕ} (hs : w.next N dir act = some w') (hu : act.thread ≠ some u) :
    w'.cache.threads u = w.cache.threads u ∧ w'.owed u = w.owed u := by
  have hstart : ∀ {t : ℕ} {call : Call} {pool : Bool} {s : State}, u ≠ t → w.cache.next N (.start t call pool) = some s →
      s.threads u = w.cache.threads u := by
    intro t call pool s hut ha
    obtain ⟨_, rfl⟩ := start_eq ha
    exact Function.update_of_ne hut ..
  cases act with
  | tick elapsed =>
    obtain ⟨s, ha, rfl⟩ := via_eq_some hs
    obtain rfl : { w.cache with now := w.cache.now + elapsed, event := w.cache.event + 1 } = s := Option.some.inj ha
    exact ⟨rfl, rfl⟩
  | issue t =>
    have hut : u ≠ t := fun he => hu (congrArg some he.symm)
    simp only [Completions.next] at hs
    split_ifs at hs
    obtain ⟨s, ha, rfl⟩ := via_eq_some hs
    exact ⟨hstart hut ha, rfl⟩
  | publish t c pool =>
    have hut : u ≠ t := fun he => hu (congrArg some he.symm)
    simp only [Completions.next] at hs
    split_ifs at hs
    obtain ⟨s, ha, rfl⟩ := via_eq_some hs
    exact ⟨hstart hut ha, rfl⟩
  | seed t pool =>
    have hut : u ≠ t := fun he => hu (congrArg some he.symm)
    obtain ⟨c, _, hc⟩ := Option.bind_eq_some_iff.mp hs
    obtain ⟨s, ha, rfl⟩ := via_eq_some hc
    exact ⟨hstart hut ha, Function.update_of_ne hut ..⟩
  | step t pool =>
    have hut : u ≠ t := fun he => hu (congrArg some he.symm)
    obtain ⟨s, ha, rfl⟩ := via_eq_some hs
    refine ⟨?_, Function.update_of_ne hut ..⟩
    rcases next_cases ha with ⟨_, hact, _⟩ | ⟨_, _, _, hact, _⟩ | ⟨_, _, _, _, hact, _, rfl⟩ | ⟨_, _, hact, _, rfl⟩
    · cases hact
    · cases hact
    · cases hact
      exact Function.update_of_ne hut ..
    · cases hact
      exact stepPc_threads hut

theorem run_other {u : ℕ} : ∀ (acts : List Act) {w : Completions}, (∀ act ∈ acts, act.thread ≠ some u) → run (Completions.next N dir) w acts = some w' →
    w'.cache.threads u = w.cache.threads u ∧ w'.owed u = w.owed u := by
  intro acts
  induction acts with
  | nil =>
    intro w _ hs
    cases hs
    exact ⟨rfl, rfl⟩
  | cons act acts ih =>
    intro w hu hs
    obtain ⟨w₁, h₁, hs⟩ := Option.bind_eq_some_iff.mp hs
    obtain ⟨hth, ho⟩ := next_other h₁ (hu act List.mem_cons_self)
    obtain ⟨hth', ho'⟩ := ih (fun a ha => hu a (List.mem_cons_of_mem _ ha)) hs
    exact ⟨hth'.trans hth, ho'.trans ho⟩

/-- The caches as `BlorgPathCacheInit` leaves them, and no completion. -/
def start : Completions := ⟨initial 1, fun _ => none⟩

theorem start_init : (completions N dir).init start := ⟨.init ⟨1, rfl⟩, fun _ => ⟨rfl, rfl⟩, nofun⟩

/-- In a run of two threads both are done when they are. -/
theorem finished_of_run {acts : List Act} {t u : ℕ} (hthreads : ∀ act ∈ acts, act.thread = none ∨ act.thread = some t ∨ act.thread = some u)
    (hs : run (Completions.next N dir) start acts = some w)
    (hdone : ∀ v, v = t ∨ v = u → w.cache.threads v = ⟨.idle, []⟩ ∧ w.owed v = none) : w.Finished := by
  intro v
  by_cases hv : v = t ∨ v = u
  · exact hdone v hv
  · refine run_other acts (fun act ha he => hv ?_) hs
    rcases hthreads act ha with hn | ht | hu
    · rw [hn] at he
      cases he
    · rw [ht] at he
      exact .inl (Option.some.inj he).symm
    · rw [hu] at he
      exact .inr (Option.some.inj he).symm

def steps (t n : ℕ) : List Act := List.replicate n (.step t true)

/-- `\A`, with one file `B` in it of the size `n`. -/
def pathDir : Path := [separator, 0x41]

def pathChild : Path := [separator, 0x41, separator, 0x42]

def listingOf (n : ℕ) : Listing := ⟨[⟨n, 0, 0, n, [0x42]⟩], [], 100, false⟩

/-- Two fetches are issued. The first publishes, the second publishes and seeds, and then the
first does. -/
def overtaken : List Act :=
  .issue 1 :: steps 1 2 ++ .tick 5 :: .issue 2 :: steps 2 2 ++ .publish 1 ⟨pathDir, listingOf 1, ⟨⟨0, 1⟩, 1⟩⟩ true :: steps 1 5 ++
    .publish 2 ⟨pathDir, listingOf 2, ⟨⟨0, 6⟩, 5⟩⟩ true :: steps 2 5 ++ .seed 2 true :: steps 2 263 ++ .seed 1 true :: steps 1 263

/-- The cached listing is that of the second, and what the path cache says of the file that of
the first. -/
theorem overtaken_seed : ∃ w, (completions asciiNames pathDir).Reachable w ∧ w.Finished ∧ ¬ w.cache.Agree asciiNames pathDir := by
  have hany : (run (Completions.next asciiNames pathDir) start overtaken).any (fun w =>
      decide (w.cache.threads 1 = ⟨.idle, []⟩ ∧ w.owed 1 = none ∧ w.cache.threads 2 = ⟨.idle, []⟩ ∧ w.owed 2 = none) &&
      (w.cache.listings (asciiNames.bucketOf pathDir)).any fun e => asciiNames.equal e.path pathDir &&
        (w.cache.buckets (asciiNames.bucketOf pathChild)).any fun p =>
          decide (p.path = pathChild ∧ p.read.ticket.issueTime < e.read.ticket.issueTime)) = true := by decide +kernel
  obtain ⟨w, hs, hboth⟩ := (Option.any_eq_true _ _).mp hany
  obtain ⟨hdone, hlist⟩ := Bool.and_eq_true_iff.mp hboth
  obtain ⟨h1, ho1, h2, ho2⟩ := of_decide_eq_true hdone
  obtain ⟨e, he, hentry⟩ := List.any_eq_true.mp hlist
  obtain ⟨hpath, hentry⟩ := Bool.and_eq_true_iff.mp hentry
  obtain ⟨p, hp, hlt⟩ := List.any_eq_true.mp hentry
  obtain ⟨hchild, hlt⟩ := of_decide_eq_true hlt
  have hnext : ∀ w act w', w.next asciiNames pathDir act = some w' → (completions asciiNames pathDir).step w w' := fun _ act _ h => ⟨act, h⟩
  have h0 : (completions asciiNames pathDir).Reachable start := .init start_init
  refine ⟨w, h0.run hnext hs, finished_of_run (t := 1) (u := 2) (by decide +kernel) hs ?_, fun hagree => ?_⟩
  · rintro v (rfl | rfl)
    · exact ⟨h1, ho1⟩
    · exact ⟨h2, ho2⟩
  · have hof : ChildOf asciiNames pathDir p.path := ⟨pathDir, [0x42], hchild, by decide, by decide, rfl⟩
    exact absurd (hagree e he ((Names.equal_iff _).mp hpath) _ p hp hof) (Nat.not_le.mpr hlt)

/-- Nothing is overtaken by a thread that is alone. -/
theorem ordered_run {t : ℕ} : ∀ (acts : List Act) {w : Completions}, (∀ act ∈ acts, act.thread = none ∨ act.thread = some t) →
    (∀ u, u ≠ t → w.pending u = []) → (orderedCompletions N dir).Reachable w → run (Completions.next N dir) w acts = some w' →
    (orderedCompletions N dir).Reachable w' := by
  intro acts
  induction acts with
  | nil =>
    intro w _ _ hw hs
    cases hs
    exact hw
  | cons act acts ih =>
    intro w hthread hquiet hw hs
    obtain ⟨w₁, h₁, hs⟩ := Option.bind_eq_some_iff.mp hs
    have hact := hthread act List.mem_cons_self
    have horder : w.InOrder act := by
      cases act with
      | step t' pool =>
        intro f path listing read _ _ _ u r hu hr
        obtain rfl : t' = t := by simpa [Act.thread] using hact
        rw [hquiet u hu] at hr
        cases hr
      | _ => trivial
    refine ih (fun a ha => hthread a (List.mem_cons_of_mem _ ha)) (fun u hu => ?_) (.step hw ⟨act, horder, h₁⟩) hs
    have hother : act.thread ≠ some u := by
      rcases hact with hn | ht
      · rw [hn]
        nofun
      · rw [ht]
        exact fun he => hu (Option.some.inj he).symm
    obtain ⟨hth, ho⟩ := next_other h₁ hother
    rw [Completions.pending, hth, ho]
    exact hquiet u hu

/-- One thread fetches twice, the second listing newer. -/
def inTurn : List Act :=
  .issue 1 :: steps 1 2 ++ .publish 1 ⟨pathDir, listingOf 1, ⟨⟨0, 1⟩, 1⟩⟩ true :: steps 1 5 ++ .seed 1 true :: steps 1 263 ++
    .tick 5 :: .issue 1 :: steps 1 2 ++ .publish 1 ⟨pathDir, listingOf 2, ⟨⟨0, 6⟩, 275⟩⟩ true :: steps 1 5 ++ .seed 1 true :: steps 1 263

theorem seeds_agree_inTurn : ∃ w : Completions, (w.Finished ∧ (w.cache.listings (asciiNames.bucketOf pathDir)).length = 1 ∧
    (w.cache.buckets (asciiNames.bucketOf pathChild)).length = 1) ∧ w.cache.Agree asciiNames pathDir := by
  have hany : (run (Completions.next asciiNames pathDir) start inTurn).any (fun w =>
      decide ((w.cache.threads 1 = ⟨.idle, []⟩ ∧ w.owed 1 = none) ∧ (w.cache.listings (asciiNames.bucketOf pathDir)).length = 1 ∧
        (w.cache.buckets (asciiNames.bucketOf pathChild)).length = 1)) = true := by decide +kernel
  obtain ⟨w, hs, hdone⟩ := (Option.any_eq_true _ _).mp hany
  obtain ⟨hidle, hlists⟩ := of_decide_eq_true hdone
  have hthread : ∀ act ∈ inTurn, act.thread = none ∨ act.thread = some 1 := by decide +kernel
  have hfinished : w.Finished := by
    refine finished_of_run (t := 1) (u := 1) (fun act ha => (hthread act ha).imp_right .inl) hs ?_
    rintro v (rfl | rfl) <;> exact hidle
  have h0 : (orderedCompletions asciiNames pathDir).Reachable start := .init start_init
  exact ⟨w, ⟨hfinished, hlists⟩, seeds_agree (ordered_run inTurn hthread (fun _ _ => rfl) h0 hs) hfinished⟩

end Completions

end BlorgFS.PathCache

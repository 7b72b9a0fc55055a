import BlorgFS.PathCache.Completions

/-! What holds between any two steps of completions that are not overtaken: whatever is still to
be put into the path cache was issued no earlier than the cached listing, and an entry that was
is still to be dropped. -/

namespace BlorgFS.PathCache

open Lib

variable {N : Names} {dir path : Path} {w w' : Completions} {t i : ℕ} {pool : Bool}

/-! ### Children -/

theorem Same.endsWithSeparator {p q : Path} (h : Same N p q) : endsWithSeparator p = endsWithSeparator q := by
  have hlast : ∀ p : Path, PathCache.endsWithSeparator p = true ↔ (N.fold p).getLast? = some (N.upcase separator) := by
    intro p
    rw [PathCache.endsWithSeparator, beq_iff_eq, Names.fold, List.getLast?_map]
    cases p.getLast? with
    | none => simp
    | some c => simp [N.upcase_separator c]
  rw [Bool.eq_iff_iff, hlast, hlast, show N.fold p = N.fold q from h]

theorem Same.stem {p q : Path} (h : Same N p q) : Same N (stem p) (stem q) := by
  unfold PathCache.stem
  rw [h.endsWithSeparator]
  split_ifs
  · show N.fold _ = N.fold _
    rw [Names.fold, Names.fold, List.map_dropLast, List.map_dropLast, show p.map N.upcase = q.map N.upcase from h]
  · exact h

theorem ChildOf.congr {p : Path} (h : ChildOf N dir p) (hs : Same N path dir) : ChildOf N path p := by
  obtain ⟨front, name, hp, hname, hsep, hf⟩ := h
  exact ⟨front, name, hp, hname, hsep, hf.trans hs.stem.symm⟩

/-- The sweep of a seed drops every child. -/
theorem ChildOf.not_mem_sweep {p : PathEntry} {entries : List PathEntry} {childrenOnly : Bool} (h : ChildOf N path p.path) :
    p ∉ invalidateUnderSection N path true childrenOnly entries := by
  obtain ⟨front, name, hp, hname, hsep, hf⟩ := h
  have hunder : N.isUnder path p.path = true := isUnder_iff.mpr (.inr ⟨front, name, hf, hp⟩)
  have hlen := hf.length_eq
  have hpos := List.length_pos_iff.mpr hname
  have hstem : path.length = front.length + if endsWithSeparator path then 1 else 0 := by
    split_ifs with hend
    · conv_lhs => rw [eq_stem_append hend]
      rw [List.length_append, hlen]
      rfl
    · rw [hlen, stem, if_neg hend]
      rfl
  have hlonger : p.path.length ≠ path.length := by
    rw [hp, List.length_append, List.length_cons, hstem]
    split_ifs <;> omega
  have hbelow : isBelowChild path p.path = false := by
    have hdrop : (if endsWithSeparator path then path.length else path.length + 1) = front.length + 1 := by
      rw [hstem]
      split_ifs <;> omega
    rw [isBelowChild, hdrop, hp]
    have hcut : (front ++ separator :: name).drop (front.length + 1) = name := by
      rw [List.drop_append, List.drop_eq_nil_of_le (by omega), Nat.add_sub_cancel_left]
      rfl
    rw [hcut]
    simpa using hsep
  intro hmem
  have hkeep := (List.mem_filter.mp hmem).2
  rw [hunder, hbelow] at hkeep
  simp [hlonger] at hkeep

/-! ### Where the threads are -/

/-- What a completion calls. -/
def Keyed.Of (N : Names) (dir : Path) : Keyed → Prop
  | .insert _ _ _ => True
  | .publish path _ _ => Same N path dir ∧ path ≠ []
  | _ => False

def Pc.Of (N : Names) (dir : Path) : Pc → Prop
  | .idle | .readSequence | .readIssueTime _ _ => True
  | .readNow f | .readLifetime f | .readGeneration f | .readListingBytes f | .reapDead f _ | .bucketSection f => f.call.Of N dir
  | .seedReadLive path _ _ | .seedSweep path _ _ _ _ => Same N path dir
  | _ => False

/-- A thread is in the keyed call `call`. -/
def Pc.In (call : Keyed) : Pc → Prop
  | .readNow f | .readLifetime f | .readGeneration f | .readListingBytes f | .reapDead f _ | .bucketSection f => f.call = call
  | _ => False

structure Thread.Of (N : Names) (dir : Path) (th : Thread) : Prop where
  pc : th.pc.Of N dir
  rest : ∀ call ∈ th.rest, ∃ read, call.inserts = some read
  alone : ∀ path listing read, th.pc.In (.publish path listing read) → th.rest = []

/-- The listing of the directory that is cached. -/
def State.Lists (N : Names) (dir : Path) (s : State) (e : ListingEntry) : Prop := e ∈ s.listings (N.bucketOf dir) ∧ Same N e.path dir

/-- No completion is overtaken, and what an earlier one has left is still to be dropped. -/
structure Completions.Ordered (N : Names) (dir : Path) (w : Completions) : Prop where
  reachable : (system N).Reachable w.cache
  threads : ∀ t, (w.cache.threads t).Of N dir
  owed : ∀ t c, w.owed t = some c → Same N c.dir dir ∧ c.dir ≠ [] ∧ w.cache.threads t = ⟨.idle, []⟩
  pending : ∀ e, w.cache.Lists N dir e → ∀ t, ∀ r ∈ w.pending t, e.read.ticket.issueTime ≤ r.ticket.issueTime
  entries : ∀ e, w.cache.Lists N dir e → ∀ i, ∀ p ∈ w.cache.buckets i, ChildOf N dir p.path →
    e.read.ticket.issueTime ≤ p.read.ticket.issueTime ∨ ∃ t, w.sweeps t i

namespace Completions

theorem pending_congr (ho : w'.owed t = w.owed t) (ht : w'.cache.threads t = w.cache.threads t) : w'.pending t = w.pending t := by
  rw [pending, pending, ho, ht]

theorem sweeps_congr (ho : w'.owed t = w.owed t) (ht : w'.cache.threads t = w.cache.threads t) : w'.sweeps t i = w.sweeps t i := by
  rw [sweeps, sweeps, ho, ht]

/-- What one thread does: nothing is cached that was not, it has no more to seed than before, and
what it puts into the path cache it had to. -/
structure Moves (N : Names) (dir : Path) (t : ℕ) (w w' : Completions) : Prop where
  threads : ∀ u, u ≠ t → w'.cache.threads u = w.cache.threads u ∧ w'.owed u = w.owed u
  thread : (w'.cache.threads t).Of N dir
  owed : ∀ c, w'.owed t = some c → Same N c.dir dir ∧ c.dir ≠ [] ∧ w'.cache.threads t = ⟨.idle, []⟩
  listings : ∀ e, w'.cache.Lists N dir e → ∃ old, w.cache.Lists N dir old ∧ old.read = e.read
  pending : ∀ r ∈ w'.pending t, r ∈ w.pending t
  buckets : ∀ i, ∀ p ∈ w'.cache.buckets i, ChildOf N dir p.path →
    ((∃ old ∈ w.cache.buckets i, ChildOf N dir old.path ∧ old.read = p.read) ∧ (w.sweeps t i → w'.sweeps t i)) ∨ p.read ∈ w.pending t

theorem Ordered.moves (h : w.Ordered N dir) (hr : (system N).Reachable w'.cache) (hm : Moves N dir t w w') : w'.Ordered N dir := by
  refine ⟨hr, fun u => ?_, fun u c hc => ?_, fun e he u r hp => ?_, fun e he i p hp hchild => ?_⟩
  · by_cases hu : u = t
    · exact hu ▸ hm.thread
    · exact (hm.threads u hu).1 ▸ h.threads u
  · by_cases hu : u = t
    · subst hu
      exact hm.owed c hc
    · rw [(hm.threads u hu).2] at hc
      rw [(hm.threads u hu).1]
      exact h.owed u c hc
  · obtain ⟨old, hold, hread⟩ := hm.listings e he
    rw [← hread]
    by_cases hu : u = t
    · subst hu
      exact h.pending old hold u r (hm.pending r hp)
    · rw [pending_congr (hm.threads u hu).2 (hm.threads u hu).1] at hp
      exact h.pending old hold u r hp
  · obtain ⟨old, hold, hread⟩ := hm.listings e he
    rw [← hread]
    rcases hm.buckets i p hp hchild with ⟨⟨q, hq, hqc, hqr⟩, hsweep⟩ | hpend
    · rw [← hqr]
      rcases h.entries old hold i q hq hqc with hle | ⟨u, hu⟩
      · exact .inl hle
      · refine .inr ⟨u, ?_⟩
        by_cases hut : u = t
        · subst hut
          exact hsweep hu
        · exact (sweeps_congr (hm.threads u hut).2 (hm.threads u hut).1).trans hu
    · exact .inl (h.pending old hold t _ hpend)

/-- The thread goes on to `th`, with `o` to seed, and the cache to `s`. -/
theorem moves_thread {s : State} {th : Thread} {o : Option Fetched} (hth : s.threads = Function.update w.cache.threads t th) (hof : th.Of N dir)
    (ho : ∀ c, o = some c → Same N c.dir dir ∧ c.dir ≠ [] ∧ th = ⟨.idle, []⟩)
    (hlist : ∀ e, s.Lists N dir e → ∃ old, w.cache.Lists N dir old ∧ old.read = e.read) (hpend : ∀ r ∈ th.pending o, r ∈ w.pending t)
    (hbuckets : ∀ i, ∀ p ∈ s.buckets i, ChildOf N dir p.path →
      ((∃ old ∈ w.cache.buckets i, ChildOf N dir old.path ∧ old.read = p.read) ∧ (w.sweeps t i → th.sweeps o i)) ∨ p.read ∈ w.pending t) :
    Moves N dir t w ⟨s, Function.update w.owed t o⟩ := by
  have hself : s.threads t = th := by rw [hth, Function.update_self]
  have howed : Function.update w.owed t o t = o := Function.update_self ..
  refine ⟨fun u hu => ⟨by rw [hth, Function.update_of_ne hu], Function.update_of_ne hu ..⟩, ?_, ?_, hlist, ?_, ?_⟩
  · exact hself ▸ hof
  · simp only [hself, howed]
    exact ho
  · simp only [pending, hself, howed]
    exact hpend
  · simp only [sweeps, hself, howed] at hbuckets ⊢
    exact hbuckets

/-- A thread in a call has nothing else to seed. -/
theorem Ordered.owed_none (h : w.Ordered N dir) (hth : w.cache.threads t ≠ ⟨.idle, []⟩) : w.owed t = none := by
  cases ho : w.owed t with
  | none => rfl
  | some c => exact absurd (h.owed t c ho).2.2 hth

/-- The thread goes on in the call it is in, and no entry changes. -/
theorem Ordered.moves_goto {s : State} (h : w.Ordered N dir) (pc : Pc) (hidle : (w.cache.threads t).pc ≠ .idle)
    (hth : s.threads = Function.update w.cache.threads t ⟨pc, (w.cache.threads t).rest⟩) (hof : pc.Of N dir)
    (halone : ∀ call, pc.In call → (w.cache.threads t).pc.In call) (hseeding : ∀ r, pc.seeding = some r → (w.cache.threads t).pc.seeding = some r) (hsweeps : ∀ i, (w.cache.threads t).pc.sweeps i → pc.sweeps i)
    (hbuckets : s.buckets = w.cache.buckets) (hlist : ∀ e, s.Lists N dir e → ∃ old, w.cache.Lists N dir old ∧ old.read = e.read) :
    Moves N dir t w ⟨s, Function.update w.owed t (w.owed t)⟩ := by
  have hnone : w.owed t = none := h.owed_none fun he => hidle (by rw [he])
  rw [hnone]
  refine moves_thread hth ⟨hof, (h.threads t).rest, fun p l r hin => (h.threads t).alone p l r (halone _ hin)⟩ nofun hlist (fun r hr => ?_) fun i p hp hchild => ?_
  · simp only [Completions.pending, Thread.pending, hnone, Option.map_none, Option.toList_none, List.nil_append, List.mem_append, Option.mem_toList] at hr ⊢
    exact hr.imp_left (hseeding r)
  · rw [hbuckets] at hp
    refine .inl ⟨⟨p, hp, hchild, rfl⟩, fun hs => ?_⟩
    simp only [sweeps, Thread.sweeps, hnone, Option.isSome_none, Bool.false_or] at hs ⊢
    exact hsweeps i hs

/-! ### One step of a thread -/

theorem lists_of_sublist {s : State} {j : ℕ} {l : List ListingEntry} (hl : s.listings = Function.update w.cache.listings j l)
    (hsub : ∀ e ∈ l, ∃ old ∈ w.cache.listings j, SameRead old e) : ∀ e, s.Lists N dir e → ∃ old, w.cache.Lists N dir old ∧ old.read = e.read := by
  rintro e ⟨he, hpath⟩
  rw [hl, Function.update_apply] at he
  split_ifs at he with hj
  · obtain ⟨old, hold, hp, hr, _⟩ := hsub e he
    exact ⟨old, ⟨hj ▸ hold, hp ▸ hpath⟩, hr⟩
  · exact ⟨e, ⟨he, hpath⟩, rfl⟩

theorem lists_same {s : State} (hl : s.listings = w.cache.listings) : ∀ e, s.Lists N dir e → ∃ old, w.cache.Lists N dir old ∧ old.read = e.read := by
  rintro e ⟨he, hpath⟩
  exact ⟨e, ⟨hl ▸ he, hpath⟩, rfl⟩

end Completions

theorem Pc.In.facts (N : Names) (dir : Path) {call : Keyed} {pc : Pc} (h : pc.In call) : (pc.Of N dir ↔ call.Of N dir) ∧ pc.seeding = call.inserts ∧ (∀ i, pc.sweeps i = false) ∧ pc ≠ .idle := by
  cases pc with
  | readNow f | readLifetime f | readGeneration f | readListingBytes f | reapDead f j | bucketSection f =>
    obtain rfl : f.call = call := h
    exact ⟨Iff.rfl, rfl, fun _ => rfl, nofun⟩
  | _ => exact h.elim

theorem Pc.In.unique {call other : Keyed} {pc : Pc} (h : pc.In call) (h' : pc.In other) : call = other := by
  cases pc with
  | readNow f | readLifetime f | readGeneration f | readListingBytes f | reapDead f j | bucketSection f => exact Eq.trans (Eq.symm h) h'
  | _ => exact h.elim

/-- Before its section a keyed call reads, and reaps listings that are dead. -/
theorem stepped_in (N : Names) (s : State) (t : ℕ) (pool : Bool) {call : Keyed} {pc : Pc} (h : pc.In call) (hsection : ∀ f, pc ≠ .bucketSection f) :
    ∃ pc', pc'.In call ∧ (s.stepped N t pool pc).threads = Function.update s.threads t ⟨pc', (s.threads t).rest⟩ ∧
      (s.stepped N t pool pc).buckets = s.buckets ∧
      ∃ j l, (s.stepped N t pool pc).listings = Function.update s.listings j l ∧ l.Sublist (s.listings j) := by
  have hsame : ∃ j l, s.listings = Function.update s.listings j l ∧ l.Sublist (s.listings j) :=
    ⟨0, s.listings 0, (Function.update_eq_self 0 s.listings).symm, List.Sublist.refl _⟩
  unfold State.stepped
  cases pc with
  | readNow f => exact ⟨.readLifetime { f with now := s.now }, h, rfl, rfl, hsame⟩
  | readLifetime f => exact ⟨.readGeneration { f with life := s.live }, h, rfl, rfl, hsame⟩
  | readGeneration f =>
    simp only [State.stepPc]
    split
    · split
      · exact ⟨.readListingBytes { f with generation := s.generation }, h, rfl, rfl, hsame⟩
      · exact ⟨.bucketSection { f with generation := s.generation }, h, rfl, rfl, hsame⟩
    · exact ⟨.bucketSection { f with generation := s.generation }, h, rfl, rfl, hsame⟩
  | readListingBytes f =>
    simp only [State.stepPc]
    split
    · split
      · exact ⟨.reapDead f 0, h, rfl, rfl, hsame⟩
      · exact ⟨.bucketSection f, h, rfl, rfl, hsame⟩
    · exact ⟨.bucketSection f, h, rfl, rfl, hsame⟩
  | reapDead f j =>
    simp only [State.stepPc]
    split
    · exact ⟨.reapDead f (j + 1), h, rfl, rfl, j, _, rfl, List.filter_sublist⟩
    · exact ⟨.bucketSection f, h, rfl, rfl, hsame⟩
  | bucketSection f => exact absurd rfl (hsection f)
  | _ => exact h.elim

namespace Completions

theorem Ordered.moves_in {call : Keyed} (h : w.Ordered N dir) (hpc : (w.cache.threads t).pc.In call)
    (hsection : ∀ f, (w.cache.threads t).pc ≠ .bucketSection f) :
    Moves N dir t w ⟨w.cache.stepped N t pool (w.cache.threads t).pc, Function.update w.owed t (w.owed t)⟩ := by
  obtain ⟨hof, hseeding, hsweeps, hidle⟩ := Pc.In.facts N dir hpc
  obtain ⟨pc', hin', hth, hbuckets, j, l, hl, hsub⟩ := stepped_in N w.cache t pool hpc hsection
  obtain ⟨hof', hseeding', _, _⟩ := Pc.In.facts N dir hin'
  refine h.moves_goto pc' hidle hth (hof'.mpr (hof.mp (h.threads t).pc)) (fun other hother => hin'.unique hother ▸ hpc) (fun r hr => ?_) (fun i hi => ?_) hbuckets
    (lists_of_sublist hl fun e he => ⟨e, hsub.subset he, rfl, rfl, rfl⟩)
  · rw [hseeding, ← hseeding', hr]
  · rw [hsweeps] at hi
    cases hi

/-- A ticket is taken. -/
theorem Ordered.moves_ticket (h : w.Ordered N dir)
    (hpc : (w.cache.threads t).pc = .readSequence ∨ ∃ sequence takenAt, (w.cache.threads t).pc = .readIssueTime sequence takenAt) :
    Moves N dir t w ⟨w.cache.stepped N t pool (w.cache.threads t).pc, Function.update w.owed t (w.owed t)⟩ := by
  rcases hpc with hpc | ⟨sequence, takenAt, hpc⟩
  · rw [hpc]
    refine h.moves_goto (.readIssueTime w.cache.sequence w.cache.event) (by rw [hpc]; nofun) rfl trivial (fun _ hin => hin.elim) nofun ?_ rfl (lists_same rfl)
    rw [hpc]
    nofun
  · rw [hpc]
    refine h.moves_goto .idle (by rw [hpc]; nofun) rfl trivial (fun _ hin => hin.elim) nofun ?_ rfl (lists_same rfl)
    rw [hpc]
    nofun

/-- The seed reads whether the feed is live. -/
theorem Ordered.moves_seedReadLive {listing : Option Listing} {read : Read} (h : w.Ordered N dir)
    (hpc : (w.cache.threads t).pc = .seedReadLive path listing read) :
    Moves N dir t w ⟨w.cache.stepped N t pool (w.cache.threads t).pc, Function.update w.owed t (w.owed t)⟩ := by
  have hof := (h.threads t).pc
  rw [hpc] at hof ⊢
  refine h.moves_goto (.seedSweep path listing read w.cache.live.isSome 0) (by rw [hpc]; nofun) rfl hof (fun _ hin => hin.elim) ?_ ?_ rfl (lists_same rfl)
  · rw [hpc]
    exact fun _ hr => hr
  · exact fun i _ => decide_eq_true (Nat.zero_le i)

theorem filterMap_seedRest {listing : Option Listing} {read r : Read} (hr : r ∈ (seedRest pool path listing read).filterMap Keyed.inserts) : r = read := by
  obtain ⟨call, hcall, hins⟩ := List.mem_filterMap.mp hr
  have hgiven := seedRest_given hcall
  cases call with
  | insert p found read' =>
    rw [← Option.some.inj hins]
    exact List.singleton_inj.mp hgiven
  | _ => cases hins

theorem seedRest_inserts {listing : Option Listing} {read : Read} {call : Keyed} (h : call ∈ seedRest pool path listing read) :
    ∃ r, call.inserts = some r := by
  have hentry : ∀ {base name : Path} {found : Meta}, seedEntry base read name found = some call → ∃ r, call.inserts = some r := by
    intro base name found he
    unfold seedEntry at he
    split at he
    · cases he
    · rw [← Option.some.inj he]
      exact ⟨read, rfl⟩
  unfold seedRest at h
  split at h
  · cases h
  · split at h
    · cases h
    · rcases List.mem_append.mp h with h | h
      · obtain ⟨sub, -, hs⟩ := List.mem_filterMap.mp h
        exact hentry hs
      · obtain ⟨file, -, hf⟩ := List.mem_filterMap.mp h
        exact hentry hf

/-- A bucket is swept, or the sweep is over and the inserts are left. -/
theorem Ordered.moves_seedSweep {listing : Option Listing} {read : Read} {childrenOnly : Bool} {j : ℕ} (h : w.Ordered N dir)
    (hpc : (w.cache.threads t).pc = .seedSweep path listing read childrenOnly j) :
    Moves N dir t w ⟨w.cache.stepped N t pool (w.cache.threads t).pc, Function.update w.owed t (w.owed t)⟩ := by
  have hof := (h.threads t).pc
  have hnone : w.owed t = none := h.owed_none fun he => by rw [he] at hpc; cases hpc
  have hpending : w.pending t = read :: (w.cache.threads t).rest.filterMap Keyed.inserts := by
    rw [Completions.pending, Thread.pending, hnone, hpc]
    rfl
  have hsweeps : ∀ i, w.sweeps t i = decide (j ≤ i) := by
    intro i
    rw [sweeps, Thread.sweeps, hnone, hpc]
    rfl
  rw [hpc] at hof ⊢
  rw [hnone]
  unfold State.stepped
  simp only [State.stepPc]
  split_ifs with hj
  · refine moves_thread rfl ⟨hof, (h.threads t).rest, fun _ _ _ hin => hin.elim⟩ (fun _ he => by cases he) (lists_same rfl) (fun r hr => ?_) fun i p hp hchild => ?_
    · rw [hpending]
      exact hr
    · have hget : ((w.cache.goto t (.seedSweep path listing read childrenOnly (j + 1))).setBucket j
          (invalidateUnderSection N path true childrenOnly (w.cache.buckets j))).buckets i =
          if i = j then invalidateUnderSection N path true childrenOnly (w.cache.buckets j) else w.cache.buckets i := Function.update_apply ..
      rw [hget] at hp
      split_ifs at hp with hij
      · exact absurd hp (hchild.congr hof).not_mem_sweep
      · refine .inl ⟨⟨p, hp, hchild, rfl⟩, fun hs => ?_⟩
        rw [hsweeps, decide_eq_true_eq] at hs
        exact decide_eq_true (by omega : j + 1 ≤ i)
  · refine moves_thread rfl ⟨trivial, fun call hcall => seedRest_inserts hcall, fun _ _ _ hin => hin.elim⟩ (fun _ he => by cases he) (lists_same rfl) (fun r hr => ?_) fun i p hp hchild => ?_
    · rw [hpending, filterMap_seedRest hr]
      exact List.mem_cons_self
    · refine .inl ⟨⟨p, hp, hchild, rfl⟩, fun hs => ?_⟩
      rw [hsweeps, decide_eq_true_eq] at hs
      have hi := (reachable_inv h.reachable).buckets i |>.entry p hp
      have hlt := N.bucketOf_lt p.path
      rw [hi.bucket] at hlt
      omega

/-- An entry is inserted. -/
theorem Ordered.moves_insert {f : Frame} {found : Option Meta} {read : Read} (h : w.Ordered N dir) (hpc : (w.cache.threads t).pc = .bucketSection f)
    (hcall : f.call = .insert path found read) :
    Moves N dir t w ⟨w.cache.stepped N t pool (w.cache.threads t).pc, Function.update w.owed t none⟩ := by
  have hnone : w.owed t = none := h.owed_none fun he => by rw [he] at hpc; cases hpc
  have hpending : w.pending t = read :: (w.cache.threads t).rest.filterMap Keyed.inserts := by
    rw [Completions.pending, Thread.pending, hnone, hpc, Pc.seeding, hcall]
    rfl
  have hsweeps : ∀ i, w.sweeps t i = false := by
    intro i
    rw [sweeps, Thread.sweeps, hnone, hpc]
    rfl
  have hstep : w.cache.stepped N t pool (.bucketSection f) =
      { (w.cache.goto t .idle).setBucket (N.bucketOf path) (insertSection N w.cache.sequence f.now f.generation (lifetimeOf f.life) path found read
          (w.cache.buckets (N.bucketOf path))) with event := w.cache.event + 1 } := by
    unfold State.stepped
    simp only [State.stepPc, State.bucketStep, hcall]
  rw [hpc, hstep]
  refine moves_thread rfl ⟨trivial, (h.threads t).rest, fun _ _ _ hin => hin.elim⟩ (fun _ he => by cases he) (lists_same rfl) (fun r hr => ?_) fun i p hp hchild => ?_
  · rw [hpending]
    exact List.mem_cons_of_mem _ hr
  · have hget : Function.update w.cache.buckets (N.bucketOf path) (insertSection N w.cache.sequence f.now f.generation (lifetimeOf f.life) path found read
        (w.cache.buckets (N.bucketOf path))) i = if i = N.bucketOf path then insertSection N w.cache.sequence f.now f.generation (lifetimeOf f.life) path found
          read (w.cache.buckets (N.bucketOf path)) else w.cache.buckets i := Function.update_apply ..
    have hp' : p ∈ Function.update w.cache.buckets (N.bucketOf path) (insertSection N w.cache.sequence f.now f.generation (lifetimeOf f.life) path found read
        (w.cache.buckets (N.bucketOf path))) i := hp
    rw [hget] at hp'
    split_ifs at hp' with hi
    · rcases (insertSection_section ..).mem p hp' with ⟨old, hold, hpath, hr, _⟩ | ⟨_, hr, _, _⟩
      · refine .inl ⟨⟨old, hi ▸ hold, hpath ▸ hchild, hr⟩, fun hs => ?_⟩
        rw [hsweeps] at hs
        cases hs
      · rw [hr, hpending]
        exact .inr List.mem_cons_self
    · refine .inl ⟨⟨p, hp', hchild, rfl⟩, fun hs => ?_⟩
      rw [hsweeps] at hs
      cases hs

/-- A listing that is refused adds nothing. One that is accepted has a ticket that is honoured
and leaves no other of its directory. -/
theorem publishSection_cases (sequence now generation lifetime : ℕ) (pool : Bool) (path : Path) (listing : Listing) (read : Read)
    {entries : List ListingEntry} (total : ℤ) (hu : UniquePaths N entries) {r : Bool × List ListingEntry × ℤ}
    (hr : publishSection N sequence now generation lifetime pool path listing read entries total = r) :
    (r.1 = false ∧ r.2.1.Sublist entries) ∨
      (r.1 = true ∧ read.ticket.sequence = sequence ∧ ∀ e ∈ r.2.1, (e ∈ entries ∧ ¬ Same N e.path path) ∨ e.read = read) := by
  subst hr
  unfold publishSection
  split
  next => exact .inl ⟨rfl, List.Sublist.refl _⟩
  next hseq =>
    rw [ne_eq, not_not] at hseq
    set live := entries.filter (listingLive now generation lifetime)
    have hlive : live.Sublist entries := List.filter_sublist
    simp only
    split
    next => exact .inl ⟨rfl, hlive⟩
    next =>
      set kept := (dropPath N path live.reverse).reverse
      have hkept : ∀ e ∈ kept, e ∈ entries ∧ ¬ Same N e.path path := by
        intro e he
        have hmem : e ∈ dropPath N path live.reverse := List.mem_reverse.mp he
        have hrev : UniquePaths N live.reverse := by
          unfold UniquePaths
          rw [List.map_reverse, List.pairwise_reverse]
          exact (hu.sublist hlive).imp fun hn hs => hn hs.symm
        exact ⟨hlive.subset (List.mem_reverse.mp ((dropPath_sublist path live.reverse).subset hmem)), not_same_of_mem_dropPath hrev hmem⟩
      split
      next =>
        set room := makeRoom listing.bytes kept _
        have hroom : ∀ e ∈ room.1, e ∈ entries ∧ ¬ Same N e.path path := fun e he => hkept e ((makeRoom_sublist _ _ _).subset he)
        refine .inr ⟨rfl, hseq, fun e he => ?_⟩
        unfold chargeAndAppend at he
        split at he
        · rcases List.mem_append.mp he with he | he
          · exact .inl (hroom e he)
          · rw [List.mem_singleton.mp he]
            exact .inr rfl
        · exact .inl (hroom e he)
      next => exact .inr ⟨rfl, hseq, fun e he => .inl (hkept e he)⟩

/-- A listing is published: the thread has its seed to do, where it is accepted. -/
theorem Ordered.publish {f : Frame} {listing : Listing} {read : Read} (h : w.Ordered N dir) (hpc : (w.cache.threads t).pc = .bucketSection f)
    (hcall : f.call = .publish path listing read)
    (horder : read.ticket.sequence = w.cache.sequence → ∀ u r, u ≠ t → r ∈ w.pending u → read.ticket.issueTime ≤ r.ticket.issueTime)
    (hr : (system N).Reachable (w.cache.stepped N t pool (w.cache.threads t).pc)) :
    Ordered N dir ⟨w.cache.stepped N t pool (w.cache.threads t).pc, Function.update w.owed t (w.licensed N f)⟩ := by
  have hof : Same N path dir ∧ path ≠ [] := by
    have hpcof := (h.threads t).pc
    rw [hpc] at hpcof
    have hcallof : f.call.Of N dir := hpcof
    rwa [hcall] at hcallof
  have hbucket : N.bucketOf path = N.bucketOf dir := hof.1.bucketOf
  have hnone : w.owed t = none := h.owed_none fun he => by rw [he] at hpc; cases hpc
  generalize hres : publishSection N w.cache.sequence f.now f.generation (lifetimeOf f.life) f.pool path listing read
    (w.cache.listings (N.bucketOf path)) w.cache.listingBytes = r
  have hstep : w.cache.stepped N t pool (.bucketSection f) =
      { (w.cache.goto t .idle).setListings (N.bucketOf path) r.2.1 r.2.2 with event := w.cache.event + 1 } := by
    unfold State.stepped
    simp only [State.stepPc, State.bucketStep, hcall, hres]
  have hlicensed : w.licensed N f = if r.1 then some ⟨path, listing, read⟩ else none := by
    simp only [licensed, hcall, hres]
  have hunique := ((reachable_inv h.reachable).listings (N.bucketOf path)).unique
  rcases publishSection_cases w.cache.sequence f.now f.generation (lifetimeOf f.life) f.pool path listing read w.cache.listingBytes hunique hres with
    ⟨hrefused, hsub⟩ | ⟨haccepted, hseq, hmem⟩
  · -- refused: nothing is cached that was not
    rw [hlicensed, hrefused]
    refine h.moves (t := t) hr ?_
    rw [hpc, hstep]
    refine moves_thread rfl ⟨trivial, (h.threads t).rest, fun _ _ _ hin => hin.elim⟩ (fun _ he => by cases he) (lists_of_sublist rfl fun e he => ⟨e, hsub.subset he, rfl, rfl, rfl⟩)
      (fun r hr => ?_) fun i p hp hchild => .inl ⟨⟨p, hp, hchild, rfl⟩, fun hs => ?_⟩
    · rw [Completions.pending, Thread.pending, hnone]
      exact List.mem_append_right _ hr
    · rw [sweeps, Thread.sweeps, hnone, hpc] at hs
      cases hs
  · -- accepted: every entry of a child is still to be dropped, and what is to be seeded is as new
    have hlicence : w.licensed N f = some ⟨path, listing, read⟩ := by rw [hlicensed, if_pos haccepted]
    have hrest : (w.cache.threads t).rest = [] := (h.threads t).alone path listing read (by rw [hpc]; exact hcall)
    rw [hpc] at hr ⊢
    rw [hlicence]
    have hthread : ∀ u, (w.cache.stepped N t pool (.bucketSection f)).threads u = if u = t then ⟨.idle, []⟩ else w.cache.threads u := by
      intro u
      rw [hstep, ← hrest]
      exact Function.update_apply ..
    have howed : ∀ u, Function.update w.owed t (some ⟨path, listing, read⟩) u = if u = t then some ⟨path, listing, read⟩ else w.owed u :=
      fun u => Function.update_apply ..
    have hnew : ∀ e, (w.cache.stepped N t pool (.bucketSection f)).Lists N dir e → e.read = read := by
      rintro e ⟨he, hs⟩
      rw [hstep, ← hbucket] at he
      have he' : e ∈ Function.update w.cache.listings (N.bucketOf path) r.2.1 (N.bucketOf path) := he
      rw [Function.update_self] at he'
      exact (hmem e he').resolve_left fun hno => hno.2 (hs.trans hof.1.symm)
    refine ⟨hr, fun u => ?_, fun u c hc => ?_, fun e he u x hx => ?_, fun e he i p hp hchild => .inr ⟨t, ?_⟩⟩
    · simp only [hthread]
      split_ifs
      · exact ⟨trivial, (fun _ hcall => by cases hcall), fun _ _ _ hin => hin.elim⟩
      · exact h.threads u
    · simp only [howed] at hc
      simp only [hthread]
      split_ifs at hc ⊢
      · rw [← Option.some.inj hc]
        exact ⟨hof.1, hof.2, rfl⟩
      · exact h.owed u c hc
    · rw [hnew e he]
      simp only [Completions.pending, hthread, howed] at hx
      split_ifs at hx with hu
      · rw [List.mem_singleton.mp hx]
      · exact horder hseq u x hu hx
    · simp only [sweeps, Thread.sweeps, howed, if_true, Option.isSome_some, Bool.true_or]

end Completions

end BlorgFS.PathCache

import BlorgFS.PathCache.Budget

/-! What one step of a thread can do to the buckets and the counters: leave them as they are,
one change to one bucket it holds, or one add. Every invariant of the counts is shown from
this list. -/

namespace BlorgFS.PathCache.Budget

open Lib

variable {N : Names} {sh sh' : Shared} {th th' : Thread}

/-! ### What a thread owes -/

/-- What the counters are off by on a thread's account: bytes charged and not yet linked or
taken back, those of them that will be linked, entries unlinked and still counted, entries
linked and not yet counted. -/
structure Dues where
  charge : ℕ
  accepted : ℕ
  uncounts : ℕ
  counts : ℕ
  deriving DecidableEq

def Dues.none : Dues := ⟨0, 0, 0, 0⟩

def Pc.dues : Pc → Dues
  | .uncountSwept _ _ _ | .uncountDead _ _ _ | .uncountVictim _ _ => ⟨0, 0, 1, 0⟩
  | .countNew _ => ⟨0, 0, 0, 1⟩
  | .publishRefused p => ⟨p.info.bytes, 0, 0, 0⟩
  | .publishLink p _ => ⟨p.info.bytes, p.info.bytes, 0, 0⟩
  | _ => .none

theorem Pc.dues_of_hold {pc : Pc} (h : pc.hold N = .nothing) : pc.dues = .none := by
  cases pc <;> first | rfl | cases h

/-! ### The list of changes -/

/-- The buckets and the counters are as they were. -/
structure Still (sh sh' : Shared) : Prop where
  paths : sh'.paths = sh.paths
  listings : sh'.listings = sh.listings
  count : sh'.count = sh.count
  listingBytes : sh'.listingBytes = sh.listingBytes
  taken : sh'.taken = sh.taken
  released : sh'.released = sh.released

theorem Still.refl (sh : Shared) : Still sh sh := ⟨rfl, rfl, rfl, rfl, rfl, rfl⟩

inductive Change (N : Names) (sh : Shared) : Pc → Shared → Pc → Prop
  | still {pc pc' : Pc} {sh' : Shared} : Still sh sh' → pc.dues = .none → pc'.dues = .none → Change N sh pc sh' pc'
  | unlink {pc pc' : Pc} {b : Fin bucketCount} {k : ℕ} {entry : Entry (Option Meta)} : pc.hold N = .one (.path b) →
      (sh.paths b).entries[k]? = some entry → pc.dues = .none → pc'.dues = ⟨0, 0, 1, 0⟩ →
        Change N sh pc (sh.setPaths b ((sh.paths b).remove k)) pc'
  | refresh {pc pc' : Pc} {b : Fin bucketCount} {k : ℕ} {entry entry' : Entry (Option Meta)} : pc.hold N = .one (.path b) →
      (sh.paths b).entries[k]? = some entry → entry'.path = entry.path → pc.dues = .none → pc'.dues = .none →
        Change N sh pc (sh.setPaths b ((sh.paths b).refresh k entry')) pc'
  | append {i : Insert} {f : Frame} : Change N sh (.insertAppend i f)
      (sh.setPaths (bucket N i.path) ((sh.paths (bucket N i.path)).append ⟨i.path, i.read, f.generation, i.found⟩)) (.countNew i)
  | uncount {pc pc' : Pc} : pc.dues = ⟨0, 0, 1, 0⟩ → pc'.dues = .none → Change N sh pc (sh.addCount (-1)) pc'
  | count {pc pc' : Pc} : pc.dues = ⟨0, 0, 0, 1⟩ → pc'.dues = .none → Change N sh pc (sh.addCount 1) pc'
  | remove {pc pc' : Pc} {b : Fin bucketCount} {k : ℕ} {entry : Entry Linked} : (pc.hold N).covers (.listing b) →
      (sh.listings b).entries[k]? = some entry → pc.dues = .none → pc'.dues = .none → Change N sh pc (sh.removeListing b k) pc'
  | charge {p : Publish} {f : Frame} : sh.listingBytes + p.info.bytes ≤ listingMaxBytes →
      Change N sh (.publishCharge p f) (sh.addBytes p.info.bytes) (.publishLink p f)
  | overcharge {p : Publish} {f : Frame} : Change N sh (.publishCharge p f) (sh.addBytes p.info.bytes) (.publishRefused p)
  | takeBack {p : Publish} {pc' : Pc} : pc'.dues = .none → Change N sh (.publishRefused p) (sh.addBytes (-p.info.bytes)) pc'
  | link {p : Publish} {f : Frame} {pc' : Pc} : pc'.dues = .none → Change N sh (.publishLink p f) (sh.link N p f) pc'
  | clear {b : Fin bucketCount} {i j : ℕ} : Change N sh (.cleanPaths i) (sh.setPaths b Bucket.empty) (.cleanPaths j)
  | zero : Change N sh .cleanCount { sh with count := 0 } .idle

namespace Change

theorem begin {todo : List Op} {op : Op} : Change N sh .idle (sh.begin todo op).1 (sh.begin todo op).2.pc := by
  cases op <;> exact .still ⟨rfl, rfl, rfl, rfl, rfl, rfl⟩ rfl rfl

theorem visitPath {b : Fin bucketCount} {sweep : PathSweep} {k : ℕ} :
    Change N sh (.sweepPaths b sweep k) (sh.visitPath N th b sweep k).1 (sh.visitPath N th b sweep k).2.pc := by
  simp only [Shared.visitPath]
  split
  next => exact .still (.refl sh) rfl rfl
  next entry he =>
    split
    next => exact .unlink rfl he rfl rfl
    next => exact .still (.refl sh) rfl rfl

theorem visitListing {b : Fin bucketCount} {sweep : ListingSweep} {k : ℕ} :
    Change N sh (.sweepListings b sweep k) (sh.visitListing N th b sweep k).1 (sh.visitListing N th b sweep k).2.pc := by
  simp only [Shared.visitListing]
  split
  next => exact .still (.refl sh) rfl rfl
  next entry he =>
    split
    next => exact .remove rfl he rfl (by cases sweep.stops <;> rfl)
    next => exact .still (.refl sh) rfl rfl

theorem visitInsert {i : Insert} {f : Frame} {k : ℕ} :
    Change N sh (.insertWalk i f k) (sh.visitInsert N th i f k).1 (sh.visitInsert N th i f k).2.pc := by
  simp only [Shared.visitInsert]
  split
  next => exact .still (.refl sh) rfl rfl
  next entry he =>
    split_ifs
    · exact .refresh rfl he rfl rfl rfl
    · exact .still (.refl sh) rfl rfl
    · exact .unlink rfl he rfl rfl

theorem visitPublish {p : Publish} {f : Frame} {k : ℕ} {existing : Option ℕ} :
    Change N sh (.publishWalk p f k existing) (sh.visitPublish N th p f k existing).1 (sh.visitPublish N th p f k existing).2.pc := by
  simp only [Shared.visitPublish]
  split
  next => exact .still (.refl sh) rfl rfl
  next entry he =>
    split
    next => exact .remove rfl he rfl rfl
    next => exact .still (.refl sh) rfl rfl

theorem replace {p : Publish} {f : Frame} {existing : Option ℕ} :
    Change N sh (.publishExisting p f existing) (sh.replace N th p f existing).1 (sh.replace N th p f existing).2.pc := by
  have hdues : (if p.pool then Pc.publishRoom p f else .unlock (.listing (bucket N p.dir))).dues = .none := by cases p.pool <;> rfl
  simp only [Shared.replace]
  split
  next => exact .still (.refl sh) rfl hdues
  next j =>
    split
    next => exact .still (.refl sh) rfl hdues
    next entry he =>
      split
      next => exact .still (.refl sh) rfl rfl
      next => exact .remove rfl he rfl hdues

end Change

theorem exists_head_of_ne_nil {α : Type} {l : List α} (h : l ≠ []) : ∃ a, l[0]? = some a := by
  obtain ⟨a, l', rfl⟩ := List.exists_cons_of_ne_nil h
  exact ⟨a, rfl⟩

theorem Change.of_some {pc : Pc} {r : Shared × Thread} (h : some r = some (sh', th')) (hr : Change N sh pc r.1 r.2.pc) :
    Change N sh pc sh' th'.pc := by
  cases h
  exact hr

/-- Every step of a thread is on the list. -/
theorem Change.of_step (h : sh.step N th = some (sh', th')) : Change N sh th.pc sh' th'.pc := by
  obtain ⟨pc, todo⟩ := th
  cases pc with
  | idle =>
    obtain ⟨op, _, he⟩ := Option.map_eq_some_iff.mp h
    exact .of_some (congrArg some he) .begin
  | readNow call => exact .of_some h (.still (.refl sh) rfl rfl)
  | readLifetime call now => exact .of_some h (.still (.refl sh) rfl rfl)
  | readGeneration call now lifetime =>
    cases call with
    | insert i => exact .of_some h (.still (.refl sh) rfl rfl)
    | publish p => exact .of_some h (.still (.refl sh) rfl (by cases p.pool <;> rfl))
  | sweepPaths b sweep k => exact .of_some h .visitPath
  | uncountSwept b sweep k => exact .of_some h (.uncount rfl (by cases sweep.stops <;> rfl))
  | sweepListings b sweep k => exact .of_some h .visitListing
  | lockInsert i f => exact .of_some h (.still (.refl sh) rfl rfl)
  | insertSequence i f => exact .of_some h (.still (.refl sh) rfl (by split <;> rfl))
  | insertWalk i f k => exact .of_some h .visitInsert
  | uncountDead i f k => exact .of_some h (.uncount rfl rfl)
  | insertCap i f =>
    simp only [Shared.step] at h
    split at h
    next hfull =>
      obtain ⟨entry, he⟩ := exists_head_of_ne_nil hfull.2
      exact .of_some h (.unlink rfl he rfl rfl)
    next => exact .of_some h (.still (.refl sh) rfl rfl)
  | uncountVictim i f => exact .of_some h (.uncount rfl rfl)
  | insertAppend i f => exact .of_some h .append
  | countNew i => exact .of_some h (.count rfl rfl)
  | publishBudget p f =>
    simp only [Shared.step] at h
    split at h
    next => exact .of_some h (.still (.refl sh) rfl rfl)
    next => exact .of_some h (.still (.refl sh) rfl rfl)
  | lockPublish p f => exact .of_some h (.still (.refl sh) rfl rfl)
  | publishSequence p f => exact .of_some h (.still (.refl sh) rfl (by split <;> rfl))
  | publishWalk p f k existing => exact .of_some h .visitPublish
  | publishExisting p f existing => exact .of_some h .replace
  | publishRoom p f => exact .of_some h (.still (.refl sh) rfl (by split <;> rfl))
  | publishCap p f =>
    simp only [Shared.step] at h
    split at h
    next hfull =>
      obtain ⟨entry, he⟩ := exists_head_of_ne_nil hfull.2
      exact .of_some h (.remove rfl he rfl rfl)
    next => exact .of_some h (.still (.refl sh) rfl rfl)
  | publishFit p f =>
    simp only [Shared.step] at h
    split at h
    next hover =>
      obtain ⟨entry, he⟩ := exists_head_of_ne_nil hover.2
      exact .of_some h (.remove rfl he rfl rfl)
    next => exact .of_some h (.still (.refl sh) rfl rfl)
  | publishCharge p f =>
    simp only [Shared.step] at h
    split at h
    next hfits => exact .of_some h (.charge hfits)
    next => exact .of_some h .overcharge
  | publishRefused p => exact .of_some h (.takeBack rfl)
  | publishLink p f => exact .of_some h (.link rfl)
  | unlock l => exact .of_some h (.still (.refl sh) rfl rfl)
  | cleanPaths i =>
    simp only [Shared.step] at h
    split at h
    next => exact .of_some h .clear
    next => exact .of_some h (.still (.refl sh) rfl rfl)
  | cleanListings i =>
    simp only [Shared.step] at h
    split at h
    next hi =>
      split at h
      next => exact .of_some h (.still (.refl sh) rfl rfl)
      next hne =>
        obtain ⟨entry, he⟩ := exists_head_of_ne_nil hne
        exact .of_some h (.remove trivial he rfl rfl)
    next => exact .of_some h (.still (.refl sh) rfl rfl)
  | cleanCount => exact .of_some h .zero

/-! ### Other threads' buckets -/

namespace Shared

variable {b : Fin bucketCount} {k : ℕ} {entry : Entry Linked}

theorem removeListing_eq (he : (sh.listings b).entries[k]? = some entry) :
    sh.removeListing b k = { sh with
      listings := Function.update sh.listings b ((sh.listings b).remove k)
      listingBytes := sh.listingBytes - entry.value.bytes
      released := entry.value.id :: sh.released } := by
  simp only [removeListing, he]

end Shared

namespace Change

variable {pc pc' : Pc} {b : Fin bucketCount}

theorem frame_paths (h : Change N sh pc sh' pc') (hb : ¬ (pc.hold N).covers (.path b)) : sh'.paths b = sh.paths b := by
  have hupdate : ∀ {b' : Fin bucketCount} {new : Bucket (Option Meta)}, (pc.hold N).covers (.path b') → (sh.setPaths b' new).paths b = sh.paths b := by
    intro b' new hc
    refine Function.update_of_ne ?_ _ _
    rintro rfl
    exact hb hc
  cases h with
  | still hs => rw [hs.paths]
  | unlink hh => exact hupdate (hh ▸ rfl)
  | refresh hh => exact hupdate (hh ▸ rfl)
  | append => exact hupdate rfl
  | uncount => rfl
  | count => rfl
  | remove _ he => rw [Shared.removeListing_eq he]
  | charge => rfl
  | overcharge => rfl
  | takeBack => rfl
  | link => rfl
  | clear => exact hupdate trivial
  | zero => rfl

theorem frame_listings (h : Change N sh pc sh' pc') (hb : ¬ (pc.hold N).covers (.listing b)) : sh'.listings b = sh.listings b := by
  cases h with
  | still hs => rw [hs.listings]
  | remove hc he =>
    rw [Shared.removeListing_eq he]
    refine Function.update_of_ne ?_ _ _
    rintro rfl
    exact hb hc
  | link =>
    refine Function.update_of_ne ?_ _ _
    rintro rfl
    exact hb rfl
  | unlink | refresh | append | uncount | count | charge | overcharge | takeBack | clear | zero => rfl

end Change

/-! ### The sums -/

/-- A sum over all linked listings. -/
def Shared.across (sh : Shared) (g : Entry Linked → ℕ) : ℕ := ∑ b, tally g (sh.listings b).entries

def Shared.linkedBytes (sh : Shared) : ℕ := ∑ b, bytesOf (sh.listings b).entries

/-- 1 for the entry of that number. -/
def numbered (id : ℕ) (entry : Entry Linked) : ℕ := if entry.value.id = id then 1 else 0

/-- The entries of all path buckets. -/
def Shared.total (sh : Shared) : ℕ := ∑ b, (sh.paths b).entries.length

theorem Shared.linkedBytes_eq : sh.linkedBytes = sh.across fun entry => entry.value.bytes := rfl

variable (sh) in
/-- What is added and what is taken of `g` in all buckets by a change. -/
theorem across_update (b : Fin bucketCount) (new : Bucket Linked) (g : Entry Linked → ℕ) :
    (∑ j, tally g (Function.update sh.listings b new j).entries) + tally g (sh.listings b).entries = sh.across g + tally g new.entries :=
  sum_update (Finset.mem_univ b) sh.listings new fun _ bucket => tally g bucket.entries

variable (sh) in
theorem total_setPaths (b : Fin bucketCount) (new : Bucket (Option Meta)) :
    (sh.setPaths b new).total + (sh.paths b).entries.length = sh.total + new.entries.length :=
  sum_update (Finset.mem_univ b) sh.paths new fun _ bucket => bucket.entries.length

theorem across_removeListing {b : Fin bucketCount} {k : ℕ} {entry : Entry Linked} (he : (sh.listings b).entries[k]? = some entry)
    (g : Entry Linked → ℕ) : (sh.removeListing b k).across g + g entry = sh.across g := by
  have hsum := across_update sh b ((sh.listings b).remove k) g
  have hentry : tally g (sh.listings b).entries = g entry + tally g ((sh.listings b).remove k).entries := tally_eraseIdx he
  rw [Shared.removeListing_eq he]
  show (∑ j, tally g (Function.update sh.listings b ((sh.listings b).remove k) j).entries) + g entry = sh.across g
  omega

theorem across_link (p : Publish) (f : Frame) (g : Entry Linked → ℕ) :
    (sh.link N p f).across g = sh.across g + g ⟨p.dir, p.read, f.generation, ⟨p.info.bytes, sh.taken.length⟩⟩ := by
  have hsum := across_update sh (bucket N p.dir)
    ((sh.listings (bucket N p.dir)).append ⟨p.dir, p.read, f.generation, ⟨p.info.bytes, sh.taken.length⟩⟩) g
  simp only [Bucket.append, tally_append, tally_cons, tally_nil] at hsum
  show (∑ j, tally g (Function.update sh.listings (bucket N p.dir) _ j).entries) = _
  simp only [Bucket.append]
  omega

theorem across_congr (h : sh'.listings = sh.listings) (g : Entry Linked → ℕ) : sh'.across g = sh.across g := by
  rw [Shared.across, h]
  rfl

theorem total_congr (h : sh'.paths = sh.paths) : sh'.total = sh.total := by
  rw [Shared.total, h]
  rfl

namespace Change

variable {pc pc' : Pc}

/-- `ListingBytes` changes with what is linked and what the thread owes. -/
theorem listingBytes (h : Change N sh pc sh' pc') :
    sh'.listingBytes - sh'.linkedBytes - pc'.dues.charge = sh.listingBytes - sh.linkedBytes - pc.dues.charge := by
  simp only [Shared.linkedBytes_eq]
  cases h with
  | still hs hd hd' => rw [hs.listingBytes, across_congr hs.listings, hd, hd']
  | unlink _ _ hd hd' => rw [hd, hd']; rfl
  | refresh _ _ _ hd hd' => rw [hd, hd']; rfl
  | append => rfl
  | uncount hd hd' => rw [hd, hd']; rfl
  | count hd hd' => rw [hd, hd']; rfl
  | remove _ he hd hd' =>
    have hsum := across_removeListing he fun entry => entry.value.bytes
    rw [Shared.removeListing_eq he] at hsum ⊢
    rw [hd, hd']
    simp only
    omega
  | charge =>
    show sh.listingBytes + _ - (sh.across _ : ℤ) - _ = _
    simp only [Pc.dues, Dues.none]
    omega
  | overcharge =>
    show sh.listingBytes + _ - (sh.across _ : ℤ) - _ = _
    simp only [Pc.dues, Dues.none]
    omega
  | takeBack hd' =>
    show sh.listingBytes + _ - (sh.across _ : ℤ) - _ = _
    rw [hd']
    simp only [Pc.dues, Dues.none]
    omega
  | @link p f _ hd' =>
    rw [across_link, hd']
    show sh.listingBytes - _ - _ = _
    simp only [Pc.dues, Dues.none]
    omega
  | clear => rfl
  | zero => rfl

/-- What is linked or will be grows by a charge only, and one that fits. -/
theorem accepted (h : Change N sh pc sh' pc') :
    sh'.linkedBytes + pc'.dues.accepted ≤ sh.linkedBytes + pc.dues.accepted ∨
      (sh'.linkedBytes = sh.linkedBytes ∧ pc.dues = .none ∧ sh.listingBytes + pc'.dues.accepted ≤ listingMaxBytes) := by
  simp only [Shared.linkedBytes_eq]
  cases h with
  | still hs hd hd' => exact .inl (by rw [across_congr hs.listings, hd, hd'])
  | unlink _ _ hd hd' => exact .inl (by rw [hd, hd']; exact Nat.le_refl _)
  | refresh _ _ _ hd hd' => exact .inl (by rw [hd, hd']; exact Nat.le_refl _)
  | append => exact .inl (Nat.le_refl _)
  | uncount hd hd' => exact .inl (by rw [hd, hd']; exact Nat.le_refl _)
  | count hd hd' => exact .inl (by rw [hd, hd']; exact Nat.le_refl _)
  | remove _ he hd hd' =>
    have hsum := across_removeListing he fun entry => entry.value.bytes
    exact .inl (by rw [hd, hd']; omega)
  | charge hfits => exact .inr ⟨rfl, rfl, hfits⟩
  | overcharge => exact .inl (Nat.le_refl _)
  | takeBack hd' => exact .inl (by rw [hd']; exact Nat.le_refl _)
  | link hd' =>
    rw [across_link, hd']
    exact .inl (by simp only [Pc.dues, Dues.none]; omega)
  | clear => exact .inl (Nat.le_refl _)
  | zero => exact .inl (Nat.le_refl _)

/-- A reference is taken with a link and released with a removal, under the entry's number. -/
theorem references (h : Change N sh pc sh' pc') (id : ℕ) :
    sh'.released.count id + sh'.across (numbered id) + sh.taken.count id = sh.released.count id + sh.across (numbered id) + sh'.taken.count id := by
  cases h with
  | still hs => rw [hs.released, hs.taken, across_congr hs.listings]
  | @remove _ _ b k entry _ he =>
    have hsum := across_removeListing he (numbered id)
    have hreleased : (sh.removeListing b k).released.count id = sh.released.count id + numbered id entry := by
      rw [Shared.removeListing_eq he]
      simp [List.count_cons, numbered]
    have htaken : (sh.removeListing b k).taken = sh.taken := by rw [Shared.removeListing_eq he]
    rw [htaken]
    omega
  | @link p f =>
    have htaken : (sh.link N p f).taken.count id = sh.taken.count id + if sh.taken.length = id then 1 else 0 := by simp [Shared.link, List.count_cons]
    have hreleased : (sh.link N p f).released = sh.released := rfl
    rw [across_link, htaken, hreleased]
    simp only [numbered]
    omega
  | unlink | refresh | append | uncount | count | charge | overcharge | takeBack | clear | zero => rfl

theorem taken (h : Change N sh pc sh' pc') : sh'.taken = sh.taken ∨ sh'.taken = sh.taken.length :: sh.taken := by
  cases h with
  | still hs => exact .inl hs.taken
  | remove _ he => exact .inl (by rw [Shared.removeListing_eq he])
  | link => exact .inr rfl
  | unlink | refresh | append | uncount | count | charge | overcharge | takeBack | clear | zero => exact .inl rfl

/-- `PathCache.Count` changes with the entries and what the thread owes, but for the cleanup. -/
theorem count_total (h : Change N sh pc sh' pc') :
    pc'.hold N = .everything ∨ pc = .cleanCount ∨
      sh'.count + pc'.dues.counts - pc'.dues.uncounts - sh'.total = sh.count + pc.dues.counts - pc.dues.uncounts - sh.total := by
  cases h with
  | still hs hd hd' => exact .inr (.inr (by rw [hs.count, total_congr hs.paths, hd, hd']))
  | @unlink _ _ b k entry _ he hd hd' =>
    have hsum := total_setPaths sh b ((sh.paths b).remove k)
    have hlen : ((sh.paths b).remove k).entries.length = (sh.paths b).entries.length - 1 :=
      List.length_eraseIdx_of_lt (List.getElem?_eq_some_iff.mp he).1
    have hpos : 0 < (sh.paths b).entries.length := Nat.zero_lt_of_lt (List.getElem?_eq_some_iff.mp he).1
    refine .inr (.inr ?_)
    rw [hd, hd']
    show sh.count + _ - _ - _ = _
    simp only [Dues.none]
    omega
  | @refresh _ _ b k entry entry' _ he _ hd hd' =>
    have hsum := total_setPaths sh b ((sh.paths b).refresh k entry')
    have hlen : ((sh.paths b).refresh k entry').entries.length = (sh.paths b).entries.length := List.length_set
    refine .inr (.inr ?_)
    rw [hd, hd']
    show sh.count + _ - _ - _ = _
    omega
  | @append i f =>
    have hsum := total_setPaths sh (bucket N i.path) ((sh.paths (bucket N i.path)).append ⟨i.path, i.read, f.generation, i.found⟩)
    simp only [Bucket.append, List.length_append, List.length_singleton] at hsum
    refine .inr (.inr ?_)
    show sh.count + _ - _ - _ = _
    simp only [Pc.dues, Dues.none, Bucket.append]
    omega
  | uncount hd hd' =>
    refine .inr (.inr ?_)
    rw [hd, hd']
    show sh.count + _ + _ - _ - (sh.total : ℤ) = _
    simp only [Dues.none]
    omega
  | count hd hd' =>
    refine .inr (.inr ?_)
    rw [hd, hd']
    show sh.count + _ + _ - _ - (sh.total : ℤ) = _
    simp only [Dues.none]
    omega
  | remove _ he hd hd' =>
    refine .inr (.inr ?_)
    rw [Shared.removeListing_eq he, hd, hd']
    rfl
  | charge => exact .inr (.inr rfl)
  | overcharge => exact .inr (.inr rfl)
  | takeBack hd' => exact .inr (.inr (by rw [hd']; rfl))
  | link hd' => exact .inr (.inr (by rw [hd']; rfl))
  | clear => exact .inl rfl
  | zero => exact .inr (.inl rfl)

end Change

end BlorgFS.PathCache.Budget

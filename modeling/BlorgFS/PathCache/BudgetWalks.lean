import BlorgFS.PathCache.BudgetSteps

/-! What a thread knows of the bucket it holds: a walk knows that no entry it has passed is of
its path, and so what is appended after it is of a path of its own. -/

namespace BlorgFS.PathCache.Budget

open Lib

variable {N : Names} {sh sh' : Shared} {th th' : Thread}

/-! ### Buckets -/

section Bucket

variable {α : Type} {bucket : Bucket α} {k : ℕ} {entry : Entry α}

/-- `Count` is the length, and no two entries are of one path. -/
structure Bucket.Ok (N : Names) (bucket : Bucket α) : Prop where
  count : bucket.count = bucket.entries.length
  unique : UniquePaths N bucket.entries

theorem Bucket.Ok.empty : (Bucket.empty : Bucket α).Ok N := ⟨rfl, List.Pairwise.nil⟩

theorem Bucket.Ok.remove (h : bucket.Ok N) (hk : k < bucket.entries.length) : (bucket.remove k).Ok N where
  count := by
    rw [Bucket.remove, h.count]
    exact (List.length_eraseIdx_of_lt hk).symm
  unique := h.unique.sublist (List.eraseIdx_sublist _ _)

theorem Bucket.Ok.append (h : bucket.Ok N) (hn : ∀ other ∈ bucket.entries, ¬ Same N other.path entry.path) : (bucket.append entry).Ok N where
  count := by simp [Bucket.append, h.count]
  unique := h.unique.append_of_not_same hn

theorem Bucket.Ok.refresh {old : Entry α} (h : bucket.Ok N) (hk : bucket.entries[k]? = some old) (hpath : entry.path = old.path) :
    (bucket.refresh k entry).Ok N where
  count := by simp [Bucket.refresh, h.count]
  unique := by
    have hmap : (bucket.entries.set k entry).map Entry.path = bucket.entries.map Entry.path := by
      have hold : (bucket.entries.map Entry.path)[k]? = some old.path := by simp [hk]
      obtain ⟨hlt, hget⟩ := List.getElem?_eq_some_iff.mp hold
      rw [List.map_set, hpath, ← hget, List.set_getElem_self]
    unfold UniquePaths Bucket.refresh
    rw [hmap]
    exact h.unique

/-- Of one path there is one entry. -/
theorem Bucket.Ok.eq_of_same {other : Entry α} {j : ℕ} (h : bucket.Ok N) (hk : bucket.entries[k]? = some entry) (hj : bucket.entries[j]? = some other)
    (hs : Same N entry.path other.path) : k = j := by
  have hpair : ∀ {k j : ℕ} {entry other : Entry α}, bucket.entries[k]? = some entry → bucket.entries[j]? = some other →
      Same N entry.path other.path → ¬ k < j := by
    intro k j entry other hk hj hs hlt
    obtain ⟨hk', rfl⟩ := List.getElem?_eq_some_iff.mp hk
    obtain ⟨hj', rfl⟩ := List.getElem?_eq_some_iff.mp hj
    have h := List.pairwise_iff_getElem.mp h.unique k j (by simpa using hk') (by simpa using hj') hlt
    simp only [List.getElem_map] at h
    exact h hs
  have h1 := hpair hk hj hs
  have h2 := hpair hj hk hs.symm
  omega

theorem take_succ_of_getElem? {l : List α} {a : α} (h : l[k]? = some a) : l.take (k + 1) = l.take k ++ [a] := by
  rw [List.take_add_one, h]
  rfl

end Bucket

/-! ### What a thread knows -/

/-- None of the entries is of `path`. -/
def Fresh (N : Names) {α : Type} (path : Path) (entries : List (Entry α)) : Prop := ∀ entry ∈ entries, ¬ Same N entry.path path

/-- Of the first `k` entries none is of `path`, but for the one at `existing`. -/
def FreshBut (N : Names) {α : Type} (path : Path) (entries : List (Entry α)) (k : ℕ) (existing : Option ℕ) : Prop :=
  ∀ j entry, j < k → entries[j]? = some entry → Same N entry.path path → existing = some j

/-- What a thread knows of the bucket it holds. -/
def Pc.Knows (N : Names) (sh : Shared) : Pc → Prop
  | .insertWalk i _ k | .uncountDead i _ k => Fresh N i.path ((sh.paths (bucket N i.path)).entries.take k)
  | .insertCap i _ => Fresh N i.path (sh.paths (bucket N i.path)).entries
  | .uncountVictim i _ | .insertAppend i _ =>
    Fresh N i.path (sh.paths (bucket N i.path)).entries ∧ (sh.paths (bucket N i.path)).entries.length < maxPerBucket
  | .publishWalk p _ k existing => FreshBut N p.dir (sh.listings (bucket N p.dir)).entries k existing
  | .publishExisting p _ existing => FreshBut N p.dir (sh.listings (bucket N p.dir)).entries (sh.listings (bucket N p.dir)).entries.length existing
  | .publishRoom p _ | .publishCap p _ | .publishFit p _ | .publishCharge p _ | .publishLink p _ => Fresh N p.dir (sh.listings (bucket N p.dir)).entries
  | .cleanPaths i => ∀ b : Fin bucketCount, b.val < i → (sh.paths b).entries = []
  | .cleanListings _ | .cleanCount => ∀ b, (sh.paths b).entries = []
  | _ => True

/-- It stays true while the buckets the thread holds are as they were. -/
theorem Pc.Knows.frame {pc : Pc} (h : pc.Knows N sh) (hpaths : ∀ b, (pc.hold N).covers (.path b) → sh'.paths b = sh.paths b)
    (hlistings : ∀ b, (pc.hold N).covers (.listing b) → sh'.listings b = sh.listings b) : pc.Knows N sh' := by
  cases pc with
  | insertWalk i | uncountDead i | insertCap i | uncountVictim i | insertAppend i =>
    have hb := hpaths (bucket N i.path) rfl
    simp only [Pc.Knows, hb]
    exact h
  | publishWalk p | publishExisting p | publishRoom p | publishCap p | publishFit p | publishCharge p | publishLink p =>
    have hb := hlistings (bucket N p.dir) rfl
    simp only [Pc.Knows, hb]
    exact h
  | cleanPaths i => exact fun b hb => hpaths b trivial ▸ h b hb
  | cleanListings i => exact fun b => hpaths b trivial ▸ h b
  | cleanCount => exact fun b => hpaths b trivial ▸ h b
  | _ => trivial

theorem Fresh.subset {α : Type} {path : Path} {l l' : List (Entry α)} (h : Fresh N path l) (hs : l' ⊆ l) : Fresh N path l' :=
  fun entry he => h entry (hs he)

/-! ### Walks -/

theorem paths_setPaths (b : Fin bucketCount) (new : Bucket (Option Meta)) : (sh.setPaths b new).paths b = new := Function.update_self ..

theorem listings_removeListing {b : Fin bucketCount} {k : ℕ} {entry : Entry Linked} (he : (sh.listings b).entries[k]? = some entry) :
    (sh.removeListing b k).listings b = (sh.listings b).remove k := by
  rw [Shared.removeListing_eq he]
  exact Function.update_self ..

theorem knows_visitInsert {i : Insert} {f : Frame} {k : ℕ} (h : (Pc.insertWalk i f k).Knows N sh) :
    (sh.visitInsert N th i f k).2.pc.Knows N (sh.visitInsert N th i f k).1 := by
  simp only [Shared.visitInsert]
  split
  next he =>
    have hall : (sh.paths (bucket N i.path)).entries.take k = (sh.paths (bucket N i.path)).entries :=
      List.take_of_length_le (List.getElem?_eq_none_iff.mp he)
    show Fresh N i.path (sh.paths (bucket N i.path)).entries
    exact hall ▸ h
  next entry he =>
    split_ifs with heq hlive
    · trivial
    · show Fresh N i.path ((sh.paths (bucket N i.path)).entries.take (k + 1))
      rw [take_succ_of_getElem? he]
      intro other ho
      rcases List.mem_append.mp ho with ho | ho
      · exact h other ho
      · rw [List.mem_singleton.mp ho, ← Names.equal_iff]
        exact heq
    · show Fresh N i.path (((sh.setPaths (bucket N i.path) _).paths (bucket N i.path)).entries.take k)
      rw [paths_setPaths]
      refine Fresh.subset h fun other ho => ?_
      rwa [Bucket.remove, List.take_eraseIdx_eq_take_of_le _ _ _ (Nat.le_refl k)] at ho

theorem FreshBut.remove {α : Type} {path : Path} {l : List (Entry α)} {k : ℕ} {existing : Option ℕ} (h : FreshBut N path l k existing) :
    FreshBut N path (l.eraseIdx k) k existing := by
  intro j entry hj he
  rw [List.getElem?_eraseIdx_of_lt hj] at he
  exact h j entry hj he

theorem knows_visitPublish {p : Publish} {f : Frame} {k : ℕ} {existing : Option ℕ} (hok : (sh.listings (bucket N p.dir)).Ok N)
    (h : (Pc.publishWalk p f k existing).Knows N sh) :
    (sh.visitPublish N th p f k existing).2.pc.Knows N (sh.visitPublish N th p f k existing).1 := by
  simp only [Shared.visitPublish]
  split
  next he =>
    intro j entry hj hje
    exact h j entry (Nat.lt_of_lt_of_le hj (List.getElem?_eq_none_iff.mp he)) hje
  next entry he =>
    split
    next =>
      show FreshBut N p.dir ((sh.removeListing (bucket N p.dir) k).listings (bucket N p.dir)).entries k existing
      rw [listings_removeListing he]
      exact FreshBut.remove h
    next =>
      intro j other hj hjo hs
      by_cases hjk : j = k
      · subst hjk
        obtain rfl : other = entry := Option.some.inj (hjo.symm.trans he)
        rw [if_pos (Names.equal_iff N |>.mpr hs)]
      · have hold := h j other (by omega) hjo hs
        split
        next heq =>
          have hsame : Same N other.path entry.path := hs.trans (Names.equal_iff N |>.mp heq).symm
          exact absurd (hok.eq_of_same hjo he hsame) hjk
        next => exact hold

/-- Without the one entry that is of `path`, none is. -/
theorem FreshBut.eraseIdx {α : Type} {path : Path} {l : List (Entry α)} {j : ℕ} (h : FreshBut N path l l.length (some j)) :
    Fresh N path (l.eraseIdx j) := by
  intro entry he hs
  obtain ⟨m, hmj, hm⟩ := List.mem_eraseIdx_iff_getElem?.mp he
  have hlt : m < l.length := (List.getElem?_eq_some_iff.mp hm).1
  exact hmj (Option.some.inj (h m entry hlt hm hs)).symm

theorem FreshBut.fresh {α : Type} {path : Path} {l : List (Entry α)} {existing : Option ℕ} (h : FreshBut N path l l.length existing)
    (hn : ∀ j, existing = some j → l[j]? = none) : Fresh N path l := by
  intro entry he hs
  obtain ⟨m, hm⟩ := List.mem_iff_getElem?.mp he
  have hlt : m < l.length := (List.getElem?_eq_some_iff.mp hm).1
  have hnone := hn m (h m entry hlt hm hs)
  rw [hm] at hnone
  cases hnone

theorem knows_replace {p : Publish} {f : Frame} {existing : Option ℕ} (h : (Pc.publishExisting p f existing).Knows N sh) :
    (sh.replace N th p f existing).2.pc.Knows N (sh.replace N th p f existing).1 := by
  have hafter : ∀ sh' : Shared, Fresh N p.dir (sh'.listings (bucket N p.dir)).entries →
      (if p.pool then Pc.publishRoom p f else .unlock (.listing (bucket N p.dir))).Knows N sh' := by
    intro sh' hf
    cases p.pool
    · trivial
    · exact hf
  simp only [Shared.replace]
  split
  next =>
    refine hafter sh (FreshBut.fresh h fun j hj => ?_)
    cases hj
  next j =>
    split
    next hnone =>
      refine hafter sh (FreshBut.fresh h fun k hk => ?_)
      rw [← Option.some.inj hk]
      exact hnone
    next entry he =>
      split
      next => trivial
      next =>
        refine hafter _ ?_
        rw [listings_removeListing he]
        exact FreshBut.eraseIdx h

/-- A step of a thread leaves it knowing what it goes by next. -/
theorem Pc.Knows.step (h : th.pc.Knows N sh) (hpaths : ∀ b, (sh.paths b).Ok N) (hlistings : ∀ b, (sh.listings b).Ok N)
    (hcap : ∀ b, (sh.paths b).entries.length ≤ maxPerBucket) (he : sh.step N th = some (sh', th')) : th'.pc.Knows N sh' := by
  have hof : ∀ {r : Shared × Thread}, some r = some (sh', th') → r.2.pc.Knows N r.1 → th'.pc.Knows N sh' := fun hr hk => by
    cases hr
    exact hk
  obtain ⟨pc, todo⟩ := th
  cases pc with
  | idle =>
    obtain ⟨op, _, he⟩ := Option.map_eq_some_iff.mp he
    refine hof (congrArg some he) ?_
    cases op <;> trivial
  | readGeneration call now lifetime =>
    cases call with
    | insert i => exact hof he trivial
    | publish p => exact hof he (by cases p.pool <;> trivial)
  | uncountSwept b sweep k => exact hof he (by cases sweep.stops <;> trivial)
  | sweepPaths b sweep k =>
    refine hof he ?_
    simp only [Shared.visitPath]
    split
    · trivial
    · split <;> trivial
  | sweepListings b sweep k =>
    refine hof he ?_
    simp only [Shared.visitListing]
    split
    · trivial
    · split
      · cases sweep.stops <;> trivial
      · trivial
  | insertSequence i f =>
    refine hof he ?_
    show Pc.Knows N sh (if _ then _ else _)
    split
    · intro entry hm
      rw [List.take_zero] at hm
      cases hm
    · trivial
  | insertWalk i f k => exact hof he (knows_visitInsert h)
  | uncountDead i f k => exact hof he h
  | insertCap i f =>
    simp only [Shared.step] at he
    split at he
    next hfull =>
      refine hof he ⟨?_, ?_⟩
      · rw [paths_setPaths]
        exact Fresh.subset h (List.eraseIdx_subset)
      · have hlen := hcap (bucket N i.path)
        have hpos := List.length_pos_of_ne_nil hfull.2
        rw [paths_setPaths, Bucket.remove, List.length_eraseIdx_of_lt hpos]
        omega
    next hroom =>
      refine hof he ⟨h, ?_⟩
      by_contra hlt
      have hlen : maxPerBucket ≤ (sh.paths (bucket N i.path)).entries.length := Nat.le_of_not_lt hlt
      refine hroom ⟨(hpaths _).count.symm ▸ hlen, fun hnil => ?_⟩
      rw [hnil] at hlen
      cases hlen
  | uncountVictim i f => exact hof he h
  | publishBudget p f =>
    simp only [Shared.step] at he
    split at he <;> exact hof he trivial
  | publishSequence p f =>
    refine hof he ?_
    show Pc.Knows N sh (if _ then _ else _)
    split
    · exact fun j entry hj => absurd hj (Nat.not_lt_zero j)
    · trivial
  | publishWalk p f k existing => exact hof he (knows_visitPublish (hlistings _) h)
  | publishExisting p f existing => exact hof he (knows_replace h)
  | publishRoom p f =>
    refine hof he ?_
    show Pc.Knows N sh (if _ then _ else _)
    split <;> exact h
  | publishCap p f =>
    simp only [Shared.step] at he
    split at he
    next hfull =>
      obtain ⟨entry, hentry⟩ := exists_head_of_ne_nil hfull.2
      refine hof he ?_
      show Fresh N p.dir ((sh.removeListing (bucket N p.dir) 0).listings (bucket N p.dir)).entries
      rw [listings_removeListing hentry]
      exact Fresh.subset h List.eraseIdx_subset
    next => exact hof he h
  | publishFit p f =>
    simp only [Shared.step] at he
    split at he
    next hover =>
      obtain ⟨entry, hentry⟩ := exists_head_of_ne_nil hover.2
      refine hof he ?_
      show Fresh N p.dir ((sh.removeListing (bucket N p.dir) 0).listings (bucket N p.dir)).entries
      rw [listings_removeListing hentry]
      exact Fresh.subset h List.eraseIdx_subset
    next => exact hof he h
  | publishCharge p f =>
    refine hof he ?_
    show Pc.Knows N _ (if _ then _ else _)
    split
    · exact h
    · trivial
  | cleanPaths i =>
    simp only [Shared.step] at he
    split at he
    next hi =>
      refine hof he fun b hb => ?_
      by_cases hbi : b = ⟨i, hi⟩
      · rw [hbi, paths_setPaths]
        rfl
      · have hsame : (sh.setPaths ⟨i, hi⟩ Bucket.empty).paths b = sh.paths b := Function.update_of_ne hbi _ _
        have hne : b.val ≠ i := fun he => hbi (Fin.ext he)
        rw [hsame]
        exact h b (by omega)
    next hi => exact hof he fun b => h b (Nat.lt_of_lt_of_le b.isLt (Nat.le_of_not_lt hi))
  | cleanListings i =>
    simp only [Shared.step] at he
    split at he
    next hi =>
      split at he
      next => exact hof he h
      next hne =>
        obtain ⟨entry, hentry⟩ := exists_head_of_ne_nil hne
        refine hof he fun b => ?_
        rw [Shared.removeListing_eq hentry]
        exact h b
    next => exact hof he h
  | readNow | readLifetime | lockInsert | insertAppend | countNew | lockPublish | publishRefused | publishLink | unlock | cleanCount =>
    exact hof he trivial

/-! ### Buckets stay as they should -/

namespace Change

variable {pc pc' : Pc}

theorem paths_ok (h : Change N sh pc sh' pc') (hk : pc.Knows N sh) (hok : ∀ b, (sh.paths b).Ok N)
    (hcap : ∀ b, (sh.paths b).entries.length ≤ maxPerBucket) (b : Fin bucketCount) :
    (sh'.paths b).Ok N ∧ (sh'.paths b).entries.length ≤ maxPerBucket := by
  have hset : ∀ {b' : Fin bucketCount} {new : Bucket (Option Meta)}, new.Ok N → new.entries.length ≤ maxPerBucket →
      ((sh.setPaths b' new).paths b).Ok N ∧ ((sh.setPaths b' new).paths b).entries.length ≤ maxPerBucket := by
    intro b' new hn hl
    by_cases hb : b = b'
    · rw [hb, paths_setPaths]
      exact ⟨hn, hl⟩
    · have hsame : (sh.setPaths b' new).paths b = sh.paths b := Function.update_of_ne hb _ _
      rw [hsame]
      exact ⟨hok b, hcap b⟩
  cases h with
  | still hs =>
    rw [hs.paths]
    exact ⟨hok b, hcap b⟩
  | @unlink _ _ b' k _ _ he =>
    have hlt := (List.getElem?_eq_some_iff.mp he).1
    refine hset ((hok b').remove hlt) ?_
    have hlen := hcap b'
    rw [Bucket.remove, List.length_eraseIdx_of_lt hlt]
    omega
  | @refresh _ _ b' k _ _ _ he hp =>
    refine hset ((hok b').refresh he hp) ?_
    rw [Bucket.refresh, List.length_set]
    exact hcap b'
  | @append i f =>
    refine hset ((hok _).append hk.1) ?_
    have hlen := hk.2
    simp only [Bucket.append, List.length_append, List.length_singleton]
    omega
  | clear => exact hset .empty (Nat.zero_le _)
  | remove _ he =>
    rw [Shared.removeListing_eq he]
    exact ⟨hok b, hcap b⟩
  | uncount | count | charge | overcharge | takeBack | link | zero => exact ⟨hok b, hcap b⟩

theorem listings_ok (h : Change N sh pc sh' pc') (hk : pc.Knows N sh) (hok : ∀ b, (sh.listings b).Ok N) (b : Fin bucketCount) :
    (sh'.listings b).Ok N := by
  cases h with
  | still hs =>
    rw [hs.listings]
    exact hok b
  | @remove _ _ b' k entry _ he =>
    by_cases hb : b = b'
    · rw [hb, listings_removeListing he]
      exact (hok b').remove (List.getElem?_eq_some_iff.mp he).1
    · have hsame : (sh.removeListing b' k).listings b = sh.listings b := by
        rw [Shared.removeListing_eq he]
        exact Function.update_of_ne hb _ _
      exact hsame ▸ hok b
  | @link p f =>
    by_cases hb : b = bucket N p.dir
    · have hself : (sh.link N p f).listings (bucket N p.dir) = (sh.listings (bucket N p.dir)).append
          ⟨p.dir, p.read, f.generation, ⟨p.info.bytes, sh.taken.length⟩⟩ := Function.update_self ..
      rw [hb, hself]
      exact (hok _).append hk
    · have hsame : (sh.link N p f).listings b = sh.listings b := Function.update_of_ne hb _ _
      exact hsame ▸ hok b
  | unlink | refresh | append | uncount | count | charge | overcharge | takeBack | clear | zero => exact hok b

end Change

end BlorgFS.PathCache.Budget

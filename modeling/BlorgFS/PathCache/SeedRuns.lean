import BlorgFS.PathCache.Calls
import BlorgFS.Tree.Path

/-! What a seed makes of the path cache, one insert after another. Of the entries of one path the
last insert that found pool decides; an entry of another path is lost only when it is dead or the
oldest of a full bucket. -/

namespace BlorgFS.PathCache

open Tree (IsName)

variable {N : Names} {p q path : Path} {l : List PathEntry} {live : PathEntry → Bool} {new entry : PathEntry}

/-! ### Paths -/

theorem Same.separator_mem (h : Same N p q) : separator ∈ p ↔ separator ∈ q := by
  have hfold (path : Path) : separator ∈ path ↔ N.upcase separator ∈ N.fold path := by
    rw [Names.fold, List.mem_map]
    constructor
    · intro hm
      exact ⟨separator, hm, rfl⟩
    · rintro ⟨x, hm, hx⟩
      exact (N.upcase_separator x).mp hx ▸ hm
  rw [hfold, hfold, show N.fold p = N.fold q from h]

theorem withSeparator_eq (dir : Path) : withSeparator dir = stem dir ++ [separator] := by
  unfold withSeparator
  split_ifs with h
  · exact eq_stem_append h
  · rw [stem, if_neg h]

theorem length_le_withSeparator (dir : Path) : dir.length ≤ (withSeparator dir).length := by
  unfold withSeparator
  split_ifs
  · exact Nat.le_refl _
  · rw [List.length_append]
    exact Nat.le_add_right _ _

/-- A path in the directory is under it, longer than it and not below a child of it. -/
theorem child_of_same {dir n : Path} (hn : IsName n) (h : Same N q (withSeparator dir ++ n)) :
    N.isUnder dir q = true ∧ dir.length < q.length ∧ isBelowChild dir q = false := by
  have hlength := h.length_eq
  rw [List.length_append] at hlength
  have hdir := length_le_withSeparator dir
  have hpos := List.length_pos_iff.mpr hn.1
  refine ⟨isUnder_iff.mpr (.inr (h.symm.beneath ⟨stem dir, n, rfl, ?_⟩)), by omega, ?_⟩
  · rw [withSeparator_eq, List.append_assoc]
    rfl
  · have hskip : (if endsWithSeparator dir then dir.length else dir.length + 1) = (withSeparator dir).length := by
      unfold withSeparator
      split_ifs
      · rfl
      · rw [List.length_append, List.length_singleton]
    have hdrop : Same N (q.drop (withSeparator dir).length) n := by
      have hmap : N.fold (q.drop (withSeparator dir).length) = (N.fold q).drop (withSeparator dir).length := List.map_drop
      rw [Same, hmap, show N.fold q = _ from h, fold_append]
      exact List.drop_left' (List.length_map _)
    rw [isBelowChild, hskip, ← Bool.not_eq_true, List.contains_iff_mem, hdrop.separator_mem]
    exact hn.2

theorem isName_of_isComponent {n : Path} (h : isComponent n = true) : IsName n := by
  unfold isComponent at h
  rw [Bool.and_eq_true, Bool.not_eq_true', Bool.not_eq_true', ← Bool.not_eq_true, ← Bool.not_eq_true, List.contains_iff_mem] at h
  refine ⟨?_, h.2⟩
  rintro rfl
  exact h.1 rfl

/-! ### One bucket -/

/-- The entries of a path in a bucket. -/
def ofPath (N : Names) (p : Path) (l : List PathEntry) : List PathEntry := l.filter fun entry => N.equal entry.path p

@[simp] theorem ofPath_nil : ofPath N p [] = [] := rfl

theorem ofPath_cons_of_same (h : Same N entry.path p) : ofPath N p (entry :: l) = entry :: ofPath N p l :=
  List.filter_cons_of_pos (p := fun entry : PathEntry => N.equal entry.path p) ((Names.equal_iff N).mpr h)

theorem ofPath_cons_of_not (h : ¬ Same N entry.path p) : ofPath N p (entry :: l) = ofPath N p l :=
  List.filter_cons_of_neg (p := fun entry : PathEntry => N.equal entry.path p) fun he => h ((Names.equal_iff N).mp he)

theorem mem_ofPath : entry ∈ ofPath N p l ↔ entry ∈ l ∧ Same N entry.path p := by
  rw [ofPath, List.mem_filter, Names.equal_iff]

theorem ofPath_append (l l' : List PathEntry) : ofPath N p (l ++ l') = ofPath N p l ++ ofPath N p l' := List.filter_append ..

theorem findPath_eq_head? : findPath N p l = (ofPath N p l).head? := (List.head?_filter ..).symm

theorem insertWalk_hit (h : Same N entry.path path) :
    insertWalk N path live new (entry :: l) = ({ new with path := entry.path } :: l, true) := if_pos ((Names.equal_iff N).mpr h)

theorem insertWalk_pass (h : ¬ Same N entry.path path) : insertWalk N path live new (entry :: l) =
    (if live entry then entry :: (insertWalk N path live new l).1 else (insertWalk N path live new l).1, (insertWalk N path live new l).2) :=
  if_neg fun he => h ((Names.equal_iff N).mp he)

/-- A walk for another path takes no entry of this one in. -/
theorem ofPath_insertWalk_other (h : ¬ Same N path p) (l : List PathEntry) :
    (ofPath N p (insertWalk N path live new l).1).Sublist (ofPath N p l) := by
  induction l with
  | nil => exact List.Sublist.refl _
  | cons entry l ih =>
    by_cases hsame : Same N entry.path path
    · have hn : ¬ Same N entry.path p := fun hp => h (hsame.symm.trans hp)
      have hn' : ¬ Same N ({ new with path := entry.path } : PathEntry).path p := hn
      rw [insertWalk_hit hsame, ofPath_cons_of_not hn', ofPath_cons_of_not hn]
    · rw [insertWalk_pass hsame]
      have hkeep : (ofPath N p (entry :: (insertWalk N path live new l).1)).Sublist (ofPath N p (entry :: l)) := by
        by_cases hp : Same N entry.path p
        · rw [ofPath_cons_of_same hp, ofPath_cons_of_same hp]
          exact ih.cons_cons entry
        · rw [ofPath_cons_of_not hp, ofPath_cons_of_not hp]
          exact ih
      dsimp only
      split_ifs
      · exact hkeep
      · exact ((List.sublist_cons_self entry _).filter _).trans hkeep

/-- A walk for the path refreshes its entry, where it has one. -/
theorem ofPath_insertWalk_same (h : Same N path p) {l : List PathEntry} (hl : (ofPath N p l).length ≤ 1)
    (hi : (insertWalk N path live new l).2 = true) :
    ∃ refreshed, ofPath N p (insertWalk N path live new l).1 = [refreshed] ∧ refreshed.value = new.value := by
  induction l with
  | nil => cases hi
  | cons entry l ih =>
    by_cases hsame : Same N entry.path path
    · have hp : Same N entry.path p := hsame.trans h
      have hp' : Same N ({ new with path := entry.path } : PathEntry).path p := hp
      rw [ofPath_cons_of_same hp, List.length_cons] at hl
      have hnone : ofPath N p l = [] := List.eq_nil_of_length_eq_zero (by omega)
      rw [insertWalk_hit hsame, ofPath_cons_of_same hp', hnone]
      exact ⟨_, rfl, rfl⟩
    · have hp : ¬ Same N entry.path p := fun hp => hsame (hp.trans h.symm)
      rw [ofPath_cons_of_not hp] at hl
      rw [insertWalk_pass hsame] at hi ⊢
      obtain ⟨refreshed, hof, hvalue⟩ := ih hl hi
      refine ⟨refreshed, ?_, hvalue⟩
      dsimp only
      split_ifs
      · rw [ofPath_cons_of_not hp, hof]
      · exact hof

/-- Where a walk finds no entry of the path, none is left. -/
theorem ofPath_insertWalk_none (h : Same N path p) {l : List PathEntry} (hi : (insertWalk N path live new l).2 = false) :
    ofPath N p (insertWalk N path live new l).1 = [] := by
  rw [ofPath, List.filter_eq_nil_iff]
  intro entry hmem he
  exact insertWalk_not_same hi hmem (((Names.equal_iff N).mp he).trans h.symm)

/-- A walk loses of other paths only what is dead. -/
theorem mem_insertWalk (h : ¬ Same N entry.path path) {l : List PathEntry} (hmem : entry ∈ l) :
    entry ∈ (insertWalk N path live new l).1 ∨ live entry = false := by
  induction l with
  | nil => cases hmem
  | cons first l ih =>
    by_cases hsame : Same N first.path path
    · rw [insertWalk_hit hsame]
      rcases List.mem_cons.mp hmem with rfl | hrest
      · exact absurd hsame h
      · exact .inl (List.mem_cons_of_mem _ hrest)
    · rw [insertWalk_pass hsame]
      dsimp only
      rcases List.mem_cons.mp hmem with rfl | hrest
      · cases hlive : live entry with
        | false => exact .inr rfl
        | true => exact .inl List.mem_cons_self
      · refine (ih hrest).imp_left fun hin => ?_
        split_ifs
        · exact List.mem_cons_of_mem first hin
        · exact hin

/-- Where a walk finds no entry of the path, what it leaves is what is not dead. -/
theorem insertWalk_none {l : List PathEntry} (hi : (insertWalk N path live new l).2 = false) :
    (insertWalk N path live new l).1 = l.filter live := by
  induction l with
  | nil => rfl
  | cons entry l ih =>
    by_cases hsame : Same N entry.path path
    · rw [insertWalk_hit hsame] at hi
      cases hi
    · rw [insertWalk_pass hsame] at hi ⊢
      rw [List.filter_cons, ih hi]

section InsertSection

variable {sequence now generation lifetime : ℕ} {found : Option Meta} {read : Read}

/-- The bucket a walk leaves, with room for one more. -/
def roomFor (l : List PathEntry) : List PathEntry := if maxPerBucket ≤ l.length then l.drop 1 else l

theorem roomFor_sublist (l : List PathEntry) : (roomFor l).Sublist l := by
  unfold roomFor
  split_ifs
  · exact List.drop_sublist 1 l
  · exact List.Sublist.refl l

theorem insertSection_honoured (hseq : read.ticket.sequence = sequence) (l : List PathEntry) :
    insertSection N sequence now generation lifetime path found read l =
      if (insertWalk N path (entryLive now generation lifetime) ⟨path, read, generation, found⟩ l).2 then
        (insertWalk N path (entryLive now generation lifetime) ⟨path, read, generation, found⟩ l).1
      else roomFor (insertWalk N path (entryLive now generation lifetime) ⟨path, read, generation, found⟩ l).1 ++ [⟨path, read, generation, found⟩] :=
  if_neg (not_not.mpr hseq)

/-- An insert takes no entry of another path in. -/
theorem ofPath_insertSection_other (h : ¬ Same N path p) (hseq : read.ticket.sequence = sequence) (l : List PathEntry) :
    (ofPath N p (insertSection N sequence now generation lifetime path found read l)).Sublist (ofPath N p l) := by
  rw [insertSection_honoured hseq]
  have hwalk : (ofPath N p (insertWalk N path (entryLive now generation lifetime) ⟨path, read, generation, found⟩ l).1).Sublist (ofPath N p l) :=
    ofPath_insertWalk_other h l
  split_ifs
  · exact hwalk
  · have hnew : ofPath N p [⟨path, read, generation, found⟩] = [] := ofPath_cons_of_not h
    rw [ofPath_append, hnew, List.append_nil]
    exact ((roomFor_sublist _).filter _).trans hwalk

/-- An insert leaves one entry of its path, with what was inserted. -/
theorem ofPath_insertSection_same (h : Same N path p) (hseq : read.ticket.sequence = sequence) (hl : (ofPath N p l).length ≤ 1) :
    ∃ entry, ofPath N p (insertSection N sequence now generation lifetime path found read l) = [entry] ∧ entry.value = found := by
  rw [insertSection_honoured hseq]
  split_ifs with hin
  · exact ofPath_insertWalk_same h hl hin
  · have hnone : ofPath N p (insertWalk N path (entryLive now generation lifetime) ⟨path, read, generation, found⟩ l).1 = [] :=
      ofPath_insertWalk_none h (by simpa using hin)
    have hroom : ofPath N p (roomFor (insertWalk N path (entryLive now generation lifetime) ⟨path, read, generation, found⟩ l).1) = [] := by
      have hsub := (roomFor_sublist (insertWalk N path (entryLive now generation lifetime) ⟨path, read, generation, found⟩ l).1).filter
        fun entry => N.equal entry.path p
      exact List.eq_nil_of_sublist_nil (hnone ▸ hsub)
    have hnew : ofPath N p [⟨path, read, generation, found⟩] = [⟨path, read, generation, found⟩] := ofPath_cons_of_same h
    rw [ofPath_append, hroom, hnew]
    exact ⟨_, rfl, rfl⟩

/-- How an insert loses an entry of the bucket: it is dead, or the oldest that is not and the others
leave no room for one more. -/
inductive Lost (live : PathEntry → Bool) (l : List PathEntry) (entry : PathEntry) : Prop
  | dead (dead : live entry = false)
  | oldest (full : maxPerBucket ≤ (l.filter live).length) (first : (l.filter live).head? = some entry)

theorem mem_insertSection_or_lost (h : ¬ Same N entry.path path) (hseq : read.ticket.sequence = sequence) (hmem : entry ∈ l) :
    entry ∈ insertSection N sequence now generation lifetime path found read l ∨ Lost (entryLive now generation lifetime) l entry := by
  rw [insertSection_honoured hseq]
  have hwalk : entry ∈ (insertWalk N path (entryLive now generation lifetime) ⟨path, read, generation, found⟩ l).1 ∨
      entryLive now generation lifetime entry = false := mem_insertWalk h hmem
  rcases hwalk with hin | hdead
  swap
  · exact .inr (.dead hdead)
  split_ifs with hrefreshed
  · exact .inl hin
  · have hwalked : (insertWalk N path (entryLive now generation lifetime) ⟨path, read, generation, found⟩ l).1 =
        l.filter (entryLive now generation lifetime) := insertWalk_none (by simpa using hrefreshed)
    rw [hwalked] at hin ⊢
    unfold roomFor
    split_ifs with hfull
    · cases hlive : l.filter (entryLive now generation lifetime) with
      | nil =>
        rw [hlive] at hin
        cases hin
      | cons first rest =>
        rw [hlive] at hin
        rcases List.mem_cons.mp hin with rfl | hrest
        · exact .inr (.oldest hfull (by rw [hlive, List.head?_cons]))
        · exact .inl (List.mem_append_left _ hrest)
    · exact .inl (List.mem_append_left _ hin)

/-- What an insert puts in is of its path. -/
theorem mem_of_mem_insertSection (hseq : read.ticket.sequence = sequence)
    (h : entry ∈ insertSection N sequence now generation lifetime path found read l) : entry ∈ l ∨ Same N entry.path path := by
  rw [insertSection_honoured hseq] at h
  have hwalk : entry ∈ (insertWalk N path (entryLive now generation lifetime) ⟨path, read, generation, found⟩ l).1 →
      entry ∈ l ∨ Same N entry.path path := fun hin => (insertWalk_mem hin).imp_right (·.1)
  split_ifs at h
  · exact hwalk h
  · rcases List.mem_append.mp h with hin | hnew
    · exact hwalk ((roomFor_sublist _).subset hin)
    · rw [List.mem_singleton.mp hnew]
      exact .inr (Same.refl path)

end InsertSection

/-! ### The inserts of a seed -/

namespace Caches

variable {c : Caches} {m : Moment} {moments : ℕ → Moment} {base name n : Path} {found : Meta} {ticket : Option Ticket} {v : Option Meta} {k i : ℕ}

/-- The name is a component, and its path no longer than the cache takes. -/
def Fits (base name : Path) : Prop := isComponent name = true ∧ byteLength base + byteLength name ≤ maxPathBytes

/-- What has not been overtaken by an invalidation. -/
def Honoured (c : Caches) (ticket : Option Ticket) : Prop := ∀ t, ticket = some t → t.sequence = c.sequence

theorem Honoured.read (h : c.Honoured ticket) (now : ℕ) : (readUnder ticket c.sequence now).ticket.sequence = c.sequence := by
  cases ticket with
  | none => rfl
  | some t => exact h t rfl

/-- The bucket with a path inserted. -/
def inserted (N : Names) (c : Caches) (m : Moment) (path : Path) (found : Meta) (ticket : Option Ticket) : List PathEntry :=
  insertSection N c.sequence m.now c.generation c.lifetime path (some found) (readUnder ticket c.sequence m.now) (c.buckets (N.bucketOf path))

theorem seedEntry_of_fits (h : Fits base name) (hpool : m.pool = true) (hstore : found.noStore = false) :
    c.seedEntry N m base name found ticket =
      { c with buckets := Function.update c.buckets (N.bucketOf (base ++ name)) (c.inserted N m (base ++ name) found ticket) } := by
  obtain ⟨hcomponent, hlength⟩ := h
  have hname : name ≠ [] := by
    rintro rfl
    exact absurd hcomponent (by decide)
  have hskip : ¬ (isComponent name = false ∨ maxPathBytes < byteLength base + byteLength name) := by
    rw [hcomponent]
    exact not_or.mpr ⟨by decide, Nat.not_lt.mpr hlength⟩
  have hguard : ¬ (base ++ name = [] ∨ maxPathBytes < byteLength (base ++ name) ∨ (some found).any (·.noStore) = true ∨ m.pool = false) := by
    have hlength' : byteLength (base ++ name) = byteLength base + byteLength name := by
      unfold byteLength
      rw [List.length_append, Nat.mul_add]
    rw [hlength', hpool, Option.any_some, hstore]
    simp [hname, Nat.not_lt.mpr hlength]
  rw [seedEntry, if_neg hskip, insert, if_neg hguard]
  rfl

theorem seedEntry_skip (h : ¬ (Fits base name ∧ m.pool = true)) : c.seedEntry N m base name found ticket = c := by
  unfold seedEntry
  split_ifs with hskip
  · rfl
  have hfits : Fits base name := by
    rw [not_or, Bool.not_eq_false, Nat.not_lt] at hskip
    exact hskip
  have hpool : m.pool = false := Bool.eq_false_iff.mpr fun hp => h ⟨hfits, hp⟩
  rw [insert, if_pos (.inr (.inr (.inr hpool)))]

/-- A seed changes the buckets alone. -/
theorem seedEntry_frame (N : Names) (c : Caches) (m : Moment) (base name : Path) (found : Meta) (ticket : Option Ticket) :
    ∃ buckets, c.seedEntry N m base name found ticket = { c with buckets := buckets } := by
  unfold seedEntry
  split_ifs
  · exact ⟨c.buckets, rfl⟩
  · unfold insert
    split_ifs
    · exact ⟨c.buckets, rfl⟩
    · exact ⟨_, rfl⟩

/-- There is one entry of the path at most, and what it says is `v`. -/
def Seeded (N : Names) (base n : Path) (v : Option Meta) (c : Caches) : Prop :=
  (ofPath N (base ++ n) (c.buckets (N.bucketOf (base ++ n)))).length ≤ 1 ∧
    ∀ entry ∈ ofPath N (base ++ n) (c.buckets (N.bucketOf (base ++ n))), Fits base n ∧ ∃ found, v = some found ∧ entry.value = some found

theorem same_append_iff : Same N (base ++ name) (base ++ n) ↔ Same N name n := by
  rw [Same, Same, fold_append, fold_append, List.append_cancel_left_eq]

theorem Fits.of_same (h : Fits base name) (hs : Same N name n) : Fits base n := by
  obtain ⟨hcomponent, hlength⟩ := h
  have hlen := hs.length_eq
  refine ⟨?_, ?_⟩
  · unfold isComponent at hcomponent ⊢
    rw [Bool.and_eq_true] at hcomponent ⊢
    refine ⟨hlen ▸ hcomponent.1, ?_⟩
    have hnot := hcomponent.2
    rw [Bool.not_eq_true', ← Bool.not_eq_true, List.contains_iff_mem] at hnot ⊢
    exact fun hm => hnot (hs.separator_mem.mpr hm)
  · unfold byteLength at hlength ⊢
    rw [← hlen]
    exact hlength

/-- One seed: its entry is there if it found pool, and no other of its path. -/
theorem Seeded.seedEntry (h : Seeded N base n v c) (hticket : c.Honoured ticket) (hstore : found.noStore = false) :
    Seeded N base n (if N.equal name n && m.pool then some found else v) (c.seedEntry N m base name found ticket) := by
  by_cases htaken : Fits base name ∧ m.pool = true
  swap
  · rw [seedEntry_skip htaken]
    refine ⟨h.1, fun entry hmem => ?_⟩
    obtain ⟨hfits, hvalue⟩ := h.2 entry hmem
    refine ⟨hfits, ?_⟩
    rw [if_neg]
    · exact hvalue
    · rw [Bool.and_eq_true, Names.equal_iff]
      exact fun ⟨hs, hpool⟩ => htaken ⟨hfits.of_same hs.symm, hpool⟩
  obtain ⟨hfits, hpool⟩ := htaken
  rw [seedEntry_of_fits hfits hpool hstore, hpool, Bool.and_true]
  unfold Seeded
  dsimp only
  by_cases hs : Same N name n
  · have hpath : Same N (base ++ name) (base ++ n) := same_append_iff.mpr hs
    rw [if_pos ((Names.equal_iff N).mpr hs), ← hpath.bucketOf, Function.update_self]
    have hone := h.1
    rw [← hpath.bucketOf] at hone
    obtain ⟨entry, hof, hvalue⟩ : ∃ entry, ofPath N (base ++ n) (c.inserted N m (base ++ name) found ticket) = [entry] ∧ entry.value = some found :=
      ofPath_insertSection_same hpath (hticket.read m.now) hone
    rw [hof]
    refine ⟨Nat.le_refl 1, fun other hmem => ⟨hfits.of_same hs, found, rfl, ?_⟩⟩
    rw [List.mem_singleton.mp hmem, hvalue]
  · have hpath : ¬ Same N (base ++ name) (base ++ n) := fun hp => hs (same_append_iff.mp hp)
    rw [if_neg fun he => hs ((Names.equal_iff N).mp he)]
    by_cases hb : N.bucketOf (base ++ n) = N.bucketOf (base ++ name)
    · rw [hb, Function.update_self]
      have hold := h
      unfold Seeded at hold
      rw [hb] at hold
      have hsub : (ofPath N (base ++ n) (c.inserted N m (base ++ name) found ticket)).Sublist
          (ofPath N (base ++ n) (c.buckets (N.bucketOf (base ++ name)))) := ofPath_insertSection_other hpath (hticket.read m.now) _
      exact ⟨Nat.le_trans hsub.length_le hold.1, fun entry hmem => hold.2 entry (hsub.subset hmem)⟩
    · rw [Function.update_of_ne hb]
      exact h

/-- What one seed puts into the buckets. -/
theorem mem_of_mem_seedEntry (hticket : c.Honoured ticket) (hstore : found.noStore = false)
    (h : entry ∈ (c.seedEntry N m base name found ticket).buckets i) :
    entry ∈ c.buckets i ∨ Fits base name ∧ Same N entry.path (base ++ name) := by
  by_cases htaken : Fits base name ∧ m.pool = true
  swap
  · rw [seedEntry_skip htaken] at h
    exact .inl h
  rw [seedEntry_of_fits htaken.1 htaken.2 hstore] at h
  dsimp only at h
  by_cases hi : i = N.bucketOf (base ++ name)
  · rw [hi, Function.update_self] at h
    rw [hi]
    exact (mem_of_mem_insertSection (hticket.read m.now) h).imp_right fun hs => ⟨htaken.1, hs⟩
  · rw [Function.update_of_ne hi] at h
    exact .inl h

/-- What one seed loses of other paths. -/
theorem mem_seedEntry_or_lost (hticket : c.Honoured ticket) (hstore : found.noStore = false) (hne : Fits base name → ¬ Same N entry.path (base ++ name))
    (hmem : entry ∈ c.buckets i) : entry ∈ (c.seedEntry N m base name found ticket).buckets i ∨
      Lost (entryLive m.now c.generation c.lifetime) (c.buckets i) entry := by
  by_cases htaken : Fits base name ∧ m.pool = true
  swap
  · rw [seedEntry_skip htaken]
    exact .inl hmem
  rw [seedEntry_of_fits htaken.1 htaken.2 hstore]
  dsimp only
  by_cases hi : i = N.bucketOf (base ++ name)
  · rw [hi] at hmem ⊢
    rw [Function.update_self]
    exact mem_insertSection_or_lost (hne htaken.1) (hticket.read m.now) hmem
  · rw [Function.update_of_ne hi]
    exact .inl hmem

/-! ### A run of inserts -/

variable {todo : List (Path × Meta)}

/-- What the last insert of a name that found pool put in. -/
def lastTaken (N : Names) (moments : ℕ → Moment) (n : Path) : List (Path × Meta) → ℕ → Option Meta → Option Meta
  | [], _, v => v
  | (name, found) :: rest, k, v => lastTaken N moments n rest (k + 1) (if N.equal name n && (moments k).pool then some found else v)

theorem Honoured.seedEntry (h : c.Honoured ticket) (name : Path) (found : Meta) :
    (c.seedEntry N m base name found ticket).Honoured ticket := by
  obtain ⟨buckets, hseed⟩ := seedEntry_frame N c m base name found ticket
  rw [hseed]
  exact h

/-- The inserts one after another: of a name's entries the last to find pool decides. -/
theorem Seeded.seedEntries (hstore : ∀ seed ∈ todo, seed.2.noStore = false) (h : Seeded N base n v c) (hticket : c.Honoured ticket) :
    Seeded N base n (lastTaken N moments n todo k v) (c.seedEntries N moments base ticket todo k) := by
  induction todo generalizing k v c with
  | nil => exact h
  | cons seed rest ih =>
    have hseed : Seeded N base n (if N.equal seed.1 n && (moments k).pool then some seed.2 else v)
        (c.seedEntry N (moments k) base seed.1 seed.2 ticket) := h.seedEntry hticket (hstore seed List.mem_cons_self)
    exact ih (fun other hother => hstore other (List.mem_cons_of_mem seed hother)) hseed (hticket.seedEntry seed.1 seed.2)

theorem mem_of_mem_seedEntries (hstore : ∀ seed ∈ todo, seed.2.noStore = false) (hticket : c.Honoured ticket)
    (h : entry ∈ (seedEntries N moments base ticket todo k c).buckets i) :
    entry ∈ c.buckets i ∨ ∃ seed ∈ todo, Fits base seed.1 ∧ Same N entry.path (base ++ seed.1) := by
  induction todo generalizing k c with
  | nil => exact .inl h
  | cons seed rest ih =>
    rcases ih (fun other hother => hstore other (List.mem_cons_of_mem seed hother)) (hticket.seedEntry seed.1 seed.2) h with hin | ⟨other, hother, hput⟩
    · exact (mem_of_mem_seedEntry hticket (hstore seed List.mem_cons_self) hin).imp_right fun hput => ⟨seed, List.mem_cons_self, hput⟩
    · exact .inr ⟨other, List.mem_cons_of_mem seed hother, hput⟩

/-- An entry of no path that is inserted stays, or one of the inserts loses it. -/
theorem mem_seedEntries_or_lost (hstore : ∀ seed ∈ todo, seed.2.noStore = false) (hticket : c.Honoured ticket)
    (hne : ∀ seed ∈ todo, Fits base seed.1 → ¬ Same N entry.path (base ++ seed.1)) (hmem : entry ∈ c.buckets i) :
    entry ∈ (seedEntries N moments base ticket todo k c).buckets i ∨ ∃ j < todo.length,
      Lost (entryLive (moments (k + j)).now c.generation c.lifetime) ((seedEntries N moments base ticket (todo.take j) k c).buckets i) entry := by
  induction todo generalizing k c with
  | nil => exact .inl hmem
  | cons seed rest ih =>
    rcases mem_seedEntry_or_lost (m := moments k) hticket (hstore seed List.mem_cons_self) (hne seed List.mem_cons_self) hmem with hin | hlost
    swap
    · exact .inr ⟨0, Nat.succ_pos _, hlost⟩
    obtain ⟨buckets, hseed⟩ := seedEntry_frame N c (moments k) base seed.1 seed.2 ticket
    rcases ih (k := k + 1) (fun other hother => hstore other (List.mem_cons_of_mem seed hother)) (hticket.seedEntry seed.1 seed.2)
      (fun other hother => hne other (List.mem_cons_of_mem seed hother)) hin with hin | ⟨j, hj, hlost⟩
    · exact .inl hin
    · refine .inr ⟨j + 1, Nat.succ_lt_succ hj, ?_⟩
      rw [show k + (j + 1) = k + 1 + j by omega, List.take_succ_cons, Caches.seedEntries]
      rw [hseed] at hlost ⊢
      exact hlost

theorem lastTaken_spec (h : lastTaken N moments n todo k v = some found) :
    (∃ j name, todo[j]? = some (name, found) ∧ Same N name n ∧ (moments (k + j)).pool = true ∧
      ∀ later seed, j < later → todo[later]? = some seed → Same N seed.1 n → (moments (k + later)).pool = false) ∨
    v = some found ∧ ∀ j seed, todo[j]? = some seed → Same N seed.1 n → (moments (k + j)).pool = false := by
  induction todo generalizing k v with
  | nil => exact .inr ⟨h, nofun⟩
  | cons seed rest ih =>
    rcases ih h with ⟨j, name, hat, hs, hpool, hlater⟩ | ⟨hv, hnone⟩
    · refine .inl ⟨j + 1, name, hat, hs, ?_, fun later other hlt hother hsame => ?_⟩
      · rw [show k + (j + 1) = k + 1 + j by omega]
        exact hpool
      · obtain ⟨later, rfl⟩ := Nat.exists_eq_succ_of_ne_zero (show later ≠ 0 by omega)
        rw [show k + (later + 1) = k + 1 + later by omega]
        exact hlater later other (by omega) hother hsame
    · by_cases htaken : (N.equal seed.1 n && (moments k).pool) = true
      · rw [if_pos htaken] at hv
        rw [Bool.and_eq_true, Names.equal_iff] at htaken
        refine .inl ⟨0, seed.1, ?_, htaken.1, htaken.2, fun later other hlt hother hsame => ?_⟩
        · rw [List.getElem?_cons_zero, ← Option.some.inj hv]
        · obtain ⟨later, rfl⟩ := Nat.exists_eq_succ_of_ne_zero (show later ≠ 0 by omega)
          rw [show k + (later + 1) = k + 1 + later by omega]
          exact hnone later other hother hsame
      · rw [if_neg htaken] at hv
        rw [Bool.and_eq_true, Names.equal_iff] at htaken
        refine .inr ⟨hv, fun j other hother hsame => ?_⟩
        cases j with
        | zero =>
          obtain rfl := Option.some.inj hother
          exact Bool.eq_false_iff.mpr fun hpool => htaken ⟨hsame, hpool⟩
        | succ j =>
          rw [show k + (j + 1) = k + 1 + j by omega]
          exact hnone j other hother hsame

/-- A lookup of the path misses or has what was put in. -/
theorem Seeded.find (h : Seeded N base n v c) {after : Caches} (hbuckets : after.buckets = c.buckets) (now : ℕ) :
    after.find N now (base ++ n) = none ∨ ∃ found, v = some found ∧ after.find N now (base ++ n) = some (some found) := by
  unfold Caches.find
  split_ifs
  · exact .inl rfl
  rw [findSection, findPath_eq_head?, hbuckets]
  cases hof : ofPath N (base ++ n) (c.buckets (N.bucketOf (base ++ n))) with
  | nil => exact .inl rfl
  | cons entry rest =>
    obtain ⟨-, found, hv, hvalue⟩ := h.2 entry (hof ▸ List.mem_cons_self)
    rw [List.head?_cons]
    cases hlive : entryLive now after.generation after.lifetime entry with
    | false =>
      left
      rw [Option.filter_some, if_neg (Bool.eq_false_iff.mp hlive), Option.map_none]
    | true =>
      right
      refine ⟨found, hv, ?_⟩
      rw [Option.filter_some, if_pos hlive, Option.map_some, hvalue]

/-! ### The sweep before -/

variable {dir : Path} {keepDir childrenOnly : Bool}

theorem mem_invalidateUnder : entry ∈ (c.invalidateUnder N dir keepDir childrenOnly).buckets i ↔ entry ∈ c.buckets i ∧
    (i < bucketCount → N.isUnder dir entry.path = true →
      (keepDir = true ∧ entry.path.length = dir.length) ∨ (childrenOnly = true ∧ isBelowChild dir entry.path = true)) := by
  unfold invalidateUnder
  dsimp only
  rw [sweep_apply]
  by_cases hi : i < bucketCount
  · rw [if_pos hi, invalidateUnderSection, List.mem_filter]
    refine and_congr_right fun _ => ?_
    cases N.isUnder dir entry.path <;> cases keepDir <;> cases childrenOnly <;> simp [hi]
  · rw [if_neg hi]
    exact ⟨fun h => ⟨h, fun hlt => absurd hlt hi⟩, And.left⟩

theorem Honoured.invalidateUnder (h : c.Honoured ticket) : (c.invalidateUnder N dir keepDir childrenOnly).Honoured ticket := h

/-- The sweep leaves nothing of what is in the directory. -/
theorem seeded_invalidateUnder (hn : IsName n) : Seeded N (withSeparator dir) n none (c.invalidateUnder N dir true childrenOnly) := by
  have hnone : ofPath N (withSeparator dir ++ n) ((c.invalidateUnder N dir true childrenOnly).buckets (N.bucketOf (withSeparator dir ++ n))) = [] := by
    rw [List.eq_nil_iff_forall_not_mem]
    intro entry hentry
    obtain ⟨hmem, hs⟩ := mem_ofPath.mp hentry
    obtain ⟨hunder, hlength, hbelow⟩ := child_of_same hn hs
    rcases (mem_invalidateUnder.mp hmem).2 (N.bucketOf_lt _) hunder with ⟨-, he⟩ | ⟨-, hdeep⟩
    · omega
    · rw [hbelow] at hdeep
      cases hdeep
  rw [Seeded, hnone]
  exact ⟨Nat.zero_le 1, nofun⟩

/-! ### The seed of a listing -/

variable {listing : Listing} {scratch : Bool}

/-- The entries of a listing in its order, files before subdirectories. -/
def listed (listing : Listing) : List (Path × Meta) :=
  listing.files.map (fun file => (file.name, fileMeta file)) ++ listing.subDirs.map fun sub => (sub.name, subDirMeta sub)

/-- The first entries are seeded, the last of them first. -/
theorem seeds_eq (listing : Listing) : seeds listing = ((listed listing).take seedMax).reverse := by
  have htake : seedMax - (listing.files.take seedMax).length = seedMax - listing.files.length := by
    rw [List.length_take]
    omega
  rw [seeds, listed, List.take_append, List.reverse_append, List.length_map, ← List.map_take, ← List.map_take,
    htake]

theorem noStore_seeds (listing : Listing) : ∀ seed ∈ seeds listing, seed.2.noStore = false := by
  intro seed hseed
  rw [seeds_eq, List.mem_reverse] at hseed
  rcases List.mem_append.mp (List.mem_of_mem_take hseed) with hfile | hsub
  · obtain ⟨file, -, rfl⟩ := List.mem_map.mp hfile
    rfl
  · obtain ⟨sub, -, rfl⟩ := List.mem_map.mp hsub
    rfl

/-- How many inserts come before that of an entry. -/
def turnOf (listing : Listing) (e : ℕ) : ℕ := min seedMax (listed listing).length - 1 - e

theorem length_seeds (listing : Listing) : (seeds listing).length = min seedMax (listed listing).length := by
  rw [seeds_eq, List.length_reverse, List.length_take]

theorem seeds_at {e : ℕ} (he : e < min seedMax (listed listing).length) : (seeds listing)[turnOf listing e]? = (listed listing)[e]? := by
  have hlength : ((listed listing).take seedMax).length = min seedMax (listed listing).length := List.length_take
  rw [seeds_eq, turnOf, List.getElem?_reverse (by omega), hlength, List.getElem?_take_of_lt (by omega)]
  congr 1
  omega

theorem seedListing_eq (hdir : dir ≠ []) : c.seedListing N moments scratch dir (some listing) ticket =
    if maxPathBytes < byteLength dir + 2 ∨ scratch = false then c.invalidateUnder N dir true c.live
    else seedEntries N moments (withSeparator dir) ticket (seeds listing) 0 (c.invalidateUnder N dir true c.live) := if_neg hdir

/-- A lookup in the directory misses or has the metadata of an entry of that name: of those
whose insert found pool, the first in the listing. -/
theorem find_seedListing (hdir : dir ≠ []) (hticket : c.Honoured ticket) (hn : IsName n) {after : Caches}
    (hafter : after.buckets = (c.seedListing N moments scratch dir (some listing) ticket).buckets) (now : ℕ) :
    after.find N now (withSeparator dir ++ n) = none ∨ ∃ e name found, (listed listing)[e]? = some (name, found) ∧ Same N name n ∧
      after.find N now (withSeparator dir ++ n) = some (some found) ∧ (moments (turnOf listing e)).pool = true ∧
      ∀ earlier < e, ∀ seed, (listed listing)[earlier]? = some seed → Same N seed.1 n → (moments (turnOf listing earlier)).pool = false := by
  have hswept : Seeded N (withSeparator dir) n none (c.invalidateUnder N dir true c.live) := seeded_invalidateUnder hn
  rw [seedListing_eq hdir] at hafter
  split_ifs at hafter
  · rcases hswept.find hafter now with hmiss | ⟨found, hv, -⟩
    · exact .inl hmiss
    · cases hv
  have hseeded : Seeded N (withSeparator dir) n (lastTaken N moments n (seeds listing) 0 none)
      (seedEntries N moments (withSeparator dir) ticket (seeds listing) 0 (c.invalidateUnder N dir true c.live)) :=
    hswept.seedEntries (noStore_seeds listing) hticket.invalidateUnder
  refine (hseeded.find hafter now).imp_right fun ⟨found, hv, hfind⟩ => ?_
  rcases lastTaken_spec hv with ⟨j, name, hat, hs, hpool, hlater⟩ | ⟨hnone, -⟩
  swap
  · cases hnone
  have hj : j < min seedMax (listed listing).length := by
    rw [← length_seeds]
    exact (List.getElem?_eq_some_iff.mp hat).1
  have hturn : turnOf listing (turnOf listing j) = j := by
    unfold turnOf
    omega
  have he : turnOf listing j < min seedMax (listed listing).length := by
    unfold turnOf
    omega
  refine ⟨turnOf listing j, name, found, ?_, hs, hfind, ?_, fun earlier hlt seed hseed hsame => ?_⟩
  · rw [← seeds_at he, hturn]
    exact hat
  · rw [hturn, ← Nat.zero_add j]
    exact hpool
  · have hbefore : earlier < min seedMax (listed listing).length := by omega
    have hgap : j < turnOf listing earlier := by
      unfold turnOf at hlt ⊢
      omega
    rw [← Nat.zero_add (turnOf listing earlier)]
    exact hlater (turnOf listing earlier) seed hgap (by rw [seeds_at hbefore, hseed]) hsame

/-- An entry that is not in the directory or below: the directory's own, or one outside. -/
def Apart (N : Names) (dir : Path) (entry : PathEntry) : Prop := N.isUnder dir entry.path = false ∨ entry.path.length = dir.length

theorem Apart.not_child (h : Apart N dir entry) (hn : IsName n) : ¬ Same N entry.path (withSeparator dir ++ n) := by
  intro hs
  obtain ⟨hunder, hlength, -⟩ := child_of_same hn hs
  rcases h with hout | hown
  · rw [hunder] at hout
    cases hout
  · omega

/-- A seed adds nothing apart from the directory. -/
theorem of_mem_seedListing (hdir : dir ≠ []) (hticket : c.Honoured ticket) (hapart : Apart N dir entry)
    (h : entry ∈ (c.seedListing N moments scratch dir (some listing) ticket).buckets i) : entry ∈ c.buckets i := by
  rw [seedListing_eq hdir] at h
  split_ifs at h
  · exact (mem_invalidateUnder.mp h).1
  · rcases mem_of_mem_seedEntries (noStore_seeds listing) hticket.invalidateUnder h with hin | ⟨seed, -, hfits, hs⟩
    · exact (mem_invalidateUnder.mp hin).1
    · exact absurd hs (hapart.not_child (isName_of_isComponent hfits.1))

/-- The caches a seed's insert finds. -/
def seededUpTo (N : Names) (c : Caches) (moments : ℕ → Moment) (dir : Path) (listing : Listing) (ticket : Option Ticket) (j : ℕ) : Caches :=
  (c.invalidateUnder N dir true c.live).seedEntries N moments (withSeparator dir) ticket ((seeds listing).take j) 0

/-- What a seed takes away apart from the directory, one of its inserts lost. -/
theorem mem_seedListing_or_lost (hdir : dir ≠ []) (hticket : c.Honoured ticket) (hapart : Apart N dir entry) (h : entry ∈ c.buckets i) :
    entry ∈ (c.seedListing N moments scratch dir (some listing) ticket).buckets i ∨ ∃ j < (seeds listing).length,
      Lost (entryLive (moments j).now c.generation c.lifetime) ((seededUpTo N c moments dir listing ticket j).buckets i) entry := by
  have hswept : entry ∈ (c.invalidateUnder N dir true c.live).buckets i := by
    refine mem_invalidateUnder.mpr ⟨h, fun _ hunder => ?_⟩
    rcases hapart with hout | hown
    · rw [hunder] at hout
      cases hout
    · exact .inl ⟨rfl, hown⟩
  rw [seedListing_eq hdir]
  split_ifs
  · exact .inl hswept
  · have hne : ∀ seed ∈ seeds listing, Fits (withSeparator dir) seed.1 → ¬ Same N entry.path (withSeparator dir ++ seed.1) :=
      fun seed _ hfits => hapart.not_child (isName_of_isComponent hfits.1)
    refine (mem_seedEntries_or_lost (noStore_seeds listing) hticket.invalidateUnder hne hswept).imp_right fun ⟨j, hj, hlost⟩ => ?_
    rw [Nat.zero_add] at hlost
    exact ⟨j, hj, hlost⟩

/-- With the feed down nothing is left below the directory's children. -/
theorem child_of_mem_seedListing (hdir : dir ≠ []) (hticket : c.Honoured ticket) (hlive : c.live = false) (hi : i < bucketCount)
    (h : entry ∈ (c.seedListing N moments scratch dir (some listing) ticket).buckets i) (hunder : N.isUnder dir entry.path = true) :
    entry.path.length = dir.length ∨ ∃ n, IsName n ∧ Same N entry.path (withSeparator dir ++ n) := by
  have hkept : entry ∈ (c.invalidateUnder N dir true c.live).buckets i → entry.path.length = dir.length := by
    intro hin
    rcases (mem_invalidateUnder.mp hin).2 hi hunder with ⟨-, hown⟩ | ⟨hfeed, -⟩
    · exact hown
    · rw [hlive] at hfeed
      cases hfeed
  rw [seedListing_eq hdir] at h
  split_ifs at h
  · exact .inl (hkept h)
  · rcases mem_of_mem_seedEntries (noStore_seeds listing) hticket.invalidateUnder h with hin | ⟨seed, -, hfits, hs⟩
    · exact .inl (hkept hin)
    · exact .inr ⟨seed.1, isName_of_isComponent hfits.1, hs⟩

end Caches

end BlorgFS.PathCache

import Mathlib.Algebra.GroupWithZero.Nat
import Mathlib.Data.List.Basic
import Mathlib.Data.Nat.Notation
import Mathlib.Tactic.Common

/-! Paths as the path cache compares, hashes and splits them. Which characters
count as the same letter and how a string hashes are the system's, so they come
in as `Names`, with the two facts the cache relies on: only a separator folds to
a separator, and strings that compare equal hash alike. What it means for a path
to sit in a directory or beneath one is stated on its own (`ParentOf`,
`Beneath`), and the source's tests are shown to decide it. -/

namespace BlorgFS.PathCache

/-- `WCHAR`. -/
abbrev WChar := UInt16

/-- `UNICODE_STRING`: the characters of a path. -/
abbrev Path := List WChar

def separator : WChar := 0x5C

/-- `Length`, in bytes. -/
def byteLength (path : Path) : ℕ := 2 * path.length

/-- `RtlUpcaseUnicodeChar` and the case-insensitive `RtlHashUnicodeString`, which
may fail. -/
structure Names where
  upcase : WChar → WChar
  hashUnicodeString : Path → Option ℕ
  upcase_separator : ∀ c, upcase c = upcase separator ↔ c = separator
  hash_congr : ∀ p q : Path, p.map upcase = q.map upcase → hashUnicodeString p = hashUnicodeString q

namespace Names

variable (N : Names)

def fold (path : Path) : Path := path.map N.upcase

/-- `RtlEqualUnicodeString`, ignoring case. -/
def equal (p q : Path) : Bool := N.fold p == N.fold q

/-- `BlorgHashPath`. -/
def hashPath (path : Path) : ℕ :=
  let hash := match N.hashUnicodeString path with
    | some hash => hash
    | none => path.foldl (fun hash c => (hash * 131 + (N.upcase c).toNat) % 2 ^ 32) 0
  hash * 0x9E3779B1 % 2 ^ 32

/-- Both caches have 256 buckets and pick one by the top bits of the hash:
`PathCacheBucket` and `ListingCacheBucket`. -/
def bucketOf (path : Path) : ℕ := N.hashPath path >>> 24

end Names

def bucketCount : ℕ := 256

/-- The characters up to and with the last separator before position `chars`. -/
def lastSeparator (path : Path) : ℕ → ℕ
  | 0 => 0
  | chars + 1 => if path[chars]? ≠ some separator then lastSeparator path chars else chars + 1

/-- `PathCacheParent`. -/
def parent (path : Path) : Option Path :=
  let chars := lastSeparator path path.length
  if chars = 0 ∨ chars = path.length then none
  else some (path.take (if chars = 1 then 1 else chars - 1))

def endsWithSeparator (dir : Path) : Bool := dir.getLast? == some separator

/-- `PathCacheIsUnder`. -/
def Names.isUnder (N : Names) (dir path : Path) : Bool :=
  if path.length < dir.length then false
  else if ¬ (N.fold dir).isPrefixOf (N.fold path) then false
  else path.length == dir.length || endsWithSeparator dir || path[dir.length]? == some separator

/-- `PathCacheIsBelowChild`. -/
def isBelowChild (dir path : Path) : Bool :=
  (path.drop (if endsWithSeparator dir then dir.length else dir.length + 1)).contains separator

def maxNameLen : ℕ := 260

/-- `PathCacheIsComponent`. -/
def isComponent (name : Path) : Bool :=
  !(name.length == 0 || maxNameLen ≤ name.length) && !name.contains separator

/-! ### What the tests are for -/

variable (N : Names) {p q d : Path}

/-- The same path but for the case of its letters. -/
def Same (p q : Path) : Prop := N.fold p = N.fold q

/-- A directory's path without the separator the root's ends in. -/
def stem (dir : Path) : Path := if endsWithSeparator dir then dir.dropLast else dir

/-- `path` goes on past `dir` and a separator. -/
def Beneath (dir path : Path) : Prop :=
  ∃ front rest, N.fold front = N.fold (stem dir) ∧ path = front ++ separator :: rest

/-- `dir` is the directory `path` sits in. -/
def ParentOf (path dir : Path) : Prop :=
  ∃ front name, path = front ++ separator :: name ∧ name ≠ [] ∧ separator ∉ name ∧
    dir = if front = [] then [separator] else front

@[simp] theorem Names.equal_iff : N.equal p q = true ↔ Same N p q := by simp [Names.equal, Same]

variable {N}

theorem Same.refl (p : Path) : Same N p p := rfl

theorem Same.symm (h : Same N p q) : Same N q p := Eq.symm h

theorem Same.trans {r : Path} (h : Same N p q) (h' : Same N q r) : Same N p r := Eq.trans h h'

theorem Same.length_eq (h : Same N p q) : p.length = q.length := by
  simpa [Names.fold] using congrArg List.length h

/-- Equal paths hash alike. -/
theorem Same.hashPath (h : Same N p q) : N.hashPath p = N.hashPath q := by
  have hfold : ∀ (p : Path) (hash : ℕ),
      p.foldl (fun hash c => (hash * 131 + (N.upcase c).toNat) % 2 ^ 32) hash =
        (N.fold p).foldl (fun hash c => (hash * 131 + c.toNat) % 2 ^ 32) hash := fun p hash => by
    rw [Names.fold, List.foldl_map]
  unfold Names.hashPath
  rw [N.hash_congr p q h]
  simp only [hfold, show N.fold p = N.fold q from h]

/-- They are in one bucket. -/
theorem Same.bucketOf (h : Same N p q) : N.bucketOf p = N.bucketOf q := by rw [Names.bucketOf, Names.bucketOf, h.hashPath]

variable (N) in
theorem Names.bucketOf_lt (p : Path) : N.bucketOf p < bucketCount := by
  have hlt : N.hashPath p < 2 ^ 32 := Nat.mod_lt _ (by decide)
  unfold Names.bucketOf bucketCount
  rw [Nat.shiftRight_eq_div_pow]
  omega

theorem fold_append (p q : Path) : N.fold (p ++ q) = N.fold p ++ N.fold q := List.map_append

theorem Same.beneath (h : Same N p q) (hd : Beneath N d p) : Beneath N d q := by
  obtain ⟨front, rest, hf, rfl⟩ := hd
  have hq : N.fold q = N.fold front ++ N.upcase separator :: N.fold rest := by
    rw [← h, fold_append]
    rfl
  obtain ⟨front', rest', rfl, hfront, hrest⟩ := List.map_eq_append_iff.mp hq
  obtain ⟨c, rest'', rfl, hc, -⟩ := List.map_eq_cons_iff.mp hrest
  rw [(N.upcase_separator c).mp hc]
  exact ⟨front', rest'', hfront.trans hf, rfl⟩

theorem eq_stem_append (h : endsWithSeparator d = true) : d = stem d ++ [separator] := by
  rw [stem, if_pos h]
  have hl : d.getLast? = some separator := by simpa [endsWithSeparator] using h
  exact (List.dropLast_append_getLast? separator hl).symm

/-- `RtlPrefixUnicodeString`, ignoring case. -/
theorem isPrefixOf_fold_iff : (N.fold d).isPrefixOf (N.fold p) = true ↔
    ∃ front rest, N.fold front = N.fold d ∧ p = front ++ rest := by
  rw [List.isPrefixOf_iff_prefix]
  constructor
  · rintro ⟨rest, hr⟩
    obtain ⟨front, rest', rfl, hf, -⟩ := List.map_eq_append_iff.mp hr.symm
    exact ⟨front, rest', hf, rfl⟩
  · rintro ⟨front, rest, hf, rfl⟩
    rw [fold_append, hf]
    exact List.prefix_append _ _

/-- `PathCacheIsUnder` decides that a path is the directory or beneath it. -/
theorem isUnder_iff : N.isUnder d p = true ↔ Same N d p ∨ Beneath N d p := by
  have hiff : N.isUnder d p = true ↔ (N.fold d).isPrefixOf (N.fold p) = true ∧
      (p.length = d.length ∨ endsWithSeparator d = true ∨ p[d.length]? = some separator) := by
    unfold Names.isUnder
    by_cases hlen : p.length < d.length
    · have hnot : (N.fold d).isPrefixOf (N.fold p) = false := by
        by_contra hp
        have := (show N.fold d <+: N.fold p by simpa using hp).length_le
        simp only [Names.fold, List.length_map] at this
        omega
      simp [hlen, hnot]
    · by_cases hp : (N.fold d).isPrefixOf (N.fold p) = true
      · simp [hlen, hp, or_assoc]
      · simp [hlen, hp]
  rw [hiff, isPrefixOf_fold_iff]
  constructor
  · rintro ⟨⟨front, rest, hf, rfl⟩, hb⟩
    have hlen : front.length = d.length := Same.length_eq hf
    by_cases hsep : endsWithSeparator d = true
    · -- The separator is the last of what matched `d`.
      have hd : N.fold front = N.fold (stem d) ++ [N.upcase separator] := by
        rw [hf]
        conv_lhs => rw [eq_stem_append hsep]
        rw [fold_append]
        rfl
      obtain ⟨front', last, rfl, hfront, hlast⟩ := List.map_eq_append_iff.mp hd
      obtain ⟨c, rest', rfl, hc, hnil⟩ := List.map_eq_cons_iff.mp hlast
      rw [List.map_eq_nil_iff] at hnil
      rw [hnil, (N.upcase_separator c).mp hc]
      exact Or.inr ⟨front', rest, hfront, by simp⟩
    · have hstem : stem d = d := by rw [stem, if_neg hsep]
      rcases hb with hb | hb | hb
      · have : rest = [] := by
          rw [List.length_append] at hb
          exact List.eq_nil_of_length_eq_zero (by omega)
        exact Or.inl (by rw [this, List.append_nil]; exact hf.symm)
      · exact absurd hb hsep
      · rw [← hlen, List.getElem?_append_right (Nat.le_refl _), Nat.sub_self] at hb
        cases rest with
        | nil => cases hb
        | cons c rest =>
          rw [Option.some.inj hb]
          exact Or.inr ⟨front, rest, by rw [hstem]; exact hf, rfl⟩
  · rintro (hs | ⟨front, rest, hf, rfl⟩)
    · exact ⟨⟨p, [], hs.symm, by simp⟩, Or.inl hs.symm.length_eq⟩
    · by_cases hsep : endsWithSeparator d = true
      · refine ⟨⟨front ++ [separator], rest, ?_, by simp⟩, Or.inr (Or.inl hsep)⟩
        conv_rhs => rw [eq_stem_append hsep]
        rw [fold_append, fold_append, hf]
      · have hstem : stem d = d := by rw [stem, if_neg hsep]
        rw [hstem] at hf
        refine ⟨⟨front, separator :: rest, hf, rfl⟩, Or.inr (Or.inr ?_)⟩
        rw [← Same.length_eq hf, List.getElem?_append_right (Nat.le_refl _), Nat.sub_self]
        rfl

/-! ### The parent -/

/-- The loop of `PathCacheParent` stops after the last separator, or at the start
when there is none. -/
theorem lastSeparator_spec (p : Path) (n : ℕ) : lastSeparator p n ≤ n ∧
    (∀ i, lastSeparator p n ≤ i → i < n → p[i]? ≠ some separator) ∧
    (lastSeparator p n ≠ 0 → p[lastSeparator p n - 1]? = some separator) := by
  induction n with
  | zero => exact ⟨Nat.le_refl 0, fun i _ hi => absurd hi (Nat.not_lt_zero i), fun h => absurd rfl h⟩
  | succ n ih =>
    obtain ⟨hle, hnone, hsome⟩ := ih
    unfold lastSeparator
    split
    next hn =>
      refine ⟨by omega, fun i hi hlt => ?_, hsome⟩
      by_cases he : i = n
      · exact he ▸ hn
      · exact hnone i hi (by omega)
    next hn => exact ⟨Nat.le_refl _, fun i hi hlt => by omega, fun _ => by simpa using hn⟩

theorem lastSeparator_eq {front name : Path} (hname : separator ∉ name) :
    lastSeparator (front ++ separator :: name) (front ++ separator :: name).length = front.length + 1 := by
  obtain ⟨hle, hnone, hsome⟩ := lastSeparator_spec (front ++ separator :: name)
    (front ++ separator :: name).length
  set k := lastSeparator (front ++ separator :: name) (front ++ separator :: name).length
  have hat : (front ++ separator :: name)[front.length]? = some separator := by simp
  have hlow : front.length + 1 ≤ k := by
    by_contra hlt
    exact hnone front.length (by omega) (by simp) hat
  by_contra hne
  -- A later separator would be one of `name`.
  obtain ⟨j, hj⟩ : ∃ j, k = front.length + 1 + (j + 1) := ⟨k - front.length - 2, by omega⟩
  have hlast := hsome (by omega)
  rw [hj, List.getElem?_append_right (by omega),
    show front.length + 1 + (j + 1) - 1 - front.length = j + 1 by omega, List.getElem?_cons_succ] at hlast
  exact hname (List.mem_of_getElem? hlast)

/-- `PathCacheParent` answers with the directory a path sits in. -/
theorem parent_iff : parent p = some d ↔ ParentOf p d := by
  constructor
  · intro h
    obtain ⟨hle, hnone, hsome⟩ := lastSeparator_spec p p.length
    unfold parent at h
    set k := lastSeparator p p.length
    simp only at h
    split at h
    next => cases h
    next hk =>
      rw [not_or] at hk
      have hat := hsome hk.1
      have hlt : k - 1 < p.length := by omega
      rw [List.getElem?_eq_getElem hlt, Option.some.injEq] at hat
      have hsplit : p = p.take (k - 1) ++ separator :: p.drop k := by
        conv_lhs => rw [← List.take_append_drop (k - 1) p]
        rw [List.drop_eq_getElem_cons hlt, hat, show k - 1 + 1 = k by omega]
      refine ⟨p.take (k - 1), p.drop k, hsplit, ?_, ?_, ?_⟩
      · intro hnil
        have := List.drop_eq_nil_iff.mp hnil
        omega
      · intro hmem
        obtain ⟨i, hi, he⟩ := List.mem_iff_getElem.mp hmem
        rw [List.length_drop] at hi
        rw [List.getElem_drop] at he
        exact hnone (k + i) (by omega) (by omega) (by rw [List.getElem?_eq_getElem (by omega), he])
      · have hd := (Option.some.inj h).symm
        by_cases hone : k = 1
        · rw [hd, hone, if_pos rfl, if_pos (by simp)]
          conv_lhs => rw [hsplit, hone]
          rfl
        · have hne : p.take (k - 1) ≠ [] := by
            intro hnil
            have := congrArg List.length hnil
            rw [List.length_take, List.length_nil] at this
            omega
          rw [hd, if_neg hone, if_neg hne]
  · rintro ⟨front, name, rfl, hname, hsep, rfl⟩
    have hpos := List.length_pos_iff.mpr hname
    unfold parent
    rw [lastSeparator_eq hsep]
    simp only [List.length_append, List.length_cons]
    rw [if_neg (by omega)]
    cases front with
    | nil => simp
    | cons c front => simp

/-! ### Names for runs -/

/-- `RtlUpcaseUnicodeChar` on ASCII. -/
def upcaseAscii (c : WChar) : WChar := if 0x61 ≤ c.toNat ∧ c.toNat ≤ 0x7A then c - 0x20 else c

theorem upcaseAscii_separator (c : WChar) : upcaseAscii c = upcaseAscii separator ↔ c = separator := by
  have hs : upcaseAscii separator = separator := by decide
  rw [hs]
  unfold upcaseAscii
  split
  next h =>
    have hc : (c - 0x20).toNat = c.toNat - 0x20 := UInt16.toNat_sub_of_le c 0x20 (UInt16.le_iff_toNat_le.mpr (by simp; omega))
    constructor
    · intro he
      have hn := congrArg UInt16.toNat he
      rw [hc] at hn
      have : separator.toNat = 0x5C := rfl
      have hlt : c.toNat = 0x7C := by omega
      omega
    · rintro rfl
      have : separator.toNat = 0x5C := rfl
      omega
  next => exact Iff.rfl

/-- Paths of ASCII characters, hashed as `HASH_STRING_ALGORITHM_X65599` does. -/
def asciiNames : Names where
  upcase := upcaseAscii
  hashUnicodeString p := some (p.foldl (fun hash c => (hash * 65599 + (upcaseAscii c).toNat) % 2 ^ 32) 0)
  upcase_separator := upcaseAscii_separator
  hash_congr p q h := by
    have hfold : ∀ p : Path, p.foldl (fun hash c => (hash * 65599 + (upcaseAscii c).toNat) % 2 ^ 32) 0 =
        (p.map upcaseAscii).foldl (fun hash c => (hash * 65599 + c.toNat) % 2 ^ 32) 0 := fun p => by
      rw [List.foldl_map]
    rw [hfold p, hfold q, h]

end BlorgFS.PathCache

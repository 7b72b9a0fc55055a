import BlorgFS.Lib.Separated
import BlorgFS.PathCache.Calls
import BlorgFS.Tree.Path

/-! What the prefix tests on paths say of their components. A canonical path is its components,
none for the root, and a directory is above what begins with its components; the tests decide
that, and so a sweep below a directory takes what is below it and nothing else. -/

namespace BlorgFS.PathCache

open Lib
open Tree (IsName)

/-- A canonical path, by its components. -/
structure CanonicalPath where
  components : List Path
  isName : ∀ c ∈ components, IsName c

namespace CanonicalPath

variable {N : Names} {dir p : CanonicalPath}

/-- As the driver writes it: a separator before each component, and for the root one alone. -/
def path (p : CanonicalPath) : Path := if p.components = [] then [separator] else separated separator p.components

/-- The components, without regard to case. -/
def folded (N : Names) (p : CanonicalPath) : List Path := p.components.map N.fold

/-- The path without its last component. -/
def up (p : CanonicalPath) : CanonicalPath := ⟨p.components.dropLast, fun c hc => p.isName c (List.dropLast_subset _ hc)⟩

theorem path_root (h : p.components = []) : p.path = [separator] := if_pos h

theorem path_of_ne (h : p.components ≠ []) : p.path = separated separator p.components := if_neg h

theorem length_folded : (p.folded N).length = p.components.length := List.length_map _

theorem not_mem_folded {c : Path} (hc : c ∈ p.folded N) : N.upcase separator ∉ c := by
  obtain ⟨name, hname, rfl⟩ := List.mem_map.mp hc
  intro hmem
  obtain ⟨x, hx, hsep⟩ := List.mem_map.mp hmem
  exact (p.isName name hname).2 ((N.upcase_separator x).mp hsep ▸ hx)

theorem fold_separated : N.fold (separated separator p.components) = separated (N.upcase separator) (p.folded N) := map_separated N.upcase

/-- Only the root's path ends in a separator. -/
theorem endsWithSeparator_path : endsWithSeparator p.path = true ↔ p.components = [] := by
  by_cases h : p.components = []
  · rw [path_root h]
    exact ⟨fun _ => h, fun _ => rfl⟩
  · obtain ⟨init, c, hsplit⟩ := List.eq_nil_or_concat' p.components |>.resolve_left h
    obtain ⟨hne, hsep⟩ := p.isName c (hsplit ▸ List.mem_append_right init List.mem_cons_self)
    have hlast : p.path.getLast? = c.getLast? := by
      rw [path_of_ne h, hsplit, separated_append, separated_cons, separated_nil, List.append_nil, List.getLast?_append,
        List.getLast?_cons_of_ne_nil hne, Option.or_of_isSome (by simpa using hne)]
    rw [endsWithSeparator, hlast, beq_iff_eq]
    exact ⟨fun hl => absurd (List.mem_of_getLast? hl) hsep, fun hnil => absurd hnil h⟩

theorem stem_path : stem p.path = separated separator p.components := by
  by_cases h : p.components = []
  · rw [stem, if_pos (endsWithSeparator_path.mpr h), path_root h, h]
    rfl
  · rw [stem, if_neg (fun hs => h (endsWithSeparator_path.mp hs)), path_of_ne h]

/-! ### The tests -/

/-- `PathCacheParent` takes the last component off, and has no answer for the root alone. -/
theorem parent_path : parent p.path = if p.components = [] then none else some p.up.path := by
  by_cases h : p.components = []
  · rw [if_pos h, path_root h]
    rfl
  · obtain ⟨init, c, hsplit⟩ := List.eq_nil_or_concat' p.components |>.resolve_left h
    obtain ⟨hne, hsep⟩ := p.isName c (hsplit ▸ List.mem_append_right init List.mem_cons_self)
    have hup : p.up.components = init := by
      change p.components.dropLast = init
      rw [hsplit, List.dropLast_concat]
    rw [if_neg h, parent_iff]
    refine ⟨separated separator init, c, ?_, hne, hsep, ?_⟩
    · rw [path_of_ne h, hsplit, separated_append, separated_cons, separated_nil, List.append_nil]
    · rw [path, hup]
      cases init with
      | nil => rfl
      | cons c' init =>
        have hne' : separated separator (c' :: init) ≠ [] := List.cons_ne_nil _ _
        rw [if_neg hne', if_neg (List.cons_ne_nil c' init)]

theorem two_le_length_path (h : p.components ≠ []) : 2 ≤ p.path.length := by
  obtain ⟨c, cs, hsplit⟩ := List.exists_cons_of_ne_nil h
  have hc := List.length_pos_iff.mpr (p.isName c (hsplit ▸ List.mem_cons_self)).1
  rw [path_of_ne h, hsplit, separated_cons, List.length_cons, List.length_append]
  omega

theorem folded_eq_nil : p.folded N = [] ↔ p.components = [] := List.map_eq_nil_iff

/-- Canonical paths are the same when their components are. -/
theorem same_path_iff : Same N dir.path p.path ↔ dir.folded N = p.folded N := by
  by_cases hd : dir.components = [] <;> by_cases hp : p.components = []
  · rw [path_root hd, path_root hp, folded_eq_nil.mpr hd, folded_eq_nil.mpr hp]
    exact ⟨fun _ => rfl, fun _ => rfl⟩
  · constructor
    · intro h
      have hlength := h.length_eq
      have htwo := two_le_length_path hp
      rw [path_root hd, List.length_singleton] at hlength
      omega
    · intro h
      rw [folded_eq_nil.mpr hd] at h
      exact absurd (folded_eq_nil.mp h.symm) hp
  · constructor
    · intro h
      have hlength := h.length_eq
      have htwo := two_le_length_path hd
      rw [path_root hp, List.length_singleton] at hlength
      omega
    · intro h
      rw [folded_eq_nil.mpr hp] at h
      exact absurd (folded_eq_nil.mp h) hd
  · rw [Same, path_of_ne hd, path_of_ne hp, fold_separated, fold_separated]
    constructor
    · intro h
      exact separated_inj (fun _ hc => not_mem_folded hc) (fun _ hc => not_mem_folded hc) h
    · intro h
      rw [h]

/-- A path that goes on past the directory and a separator: what it goes on with. -/
theorem beneath_path_iff (hp : p.components ≠ []) : Beneath N dir.path p.path ↔
    ∃ above below, p.components = above ++ below ∧ below ≠ [] ∧ above.map N.fold = dir.folded N := by
  constructor
  · rintro ⟨front, rest, hfront, hpath⟩
    rw [path_of_ne hp] at hpath
    rw [stem_path, fold_separated] at hfront
    have hfold : separated (N.upcase separator) (dir.folded N) ++ N.upcase separator :: N.fold rest =
        separated (N.upcase separator) (p.folded N) := by
      rw [← fold_separated (p := p), hpath, fold_append, hfront]
      rfl
    obtain ⟨tail, hsplit, htail⟩ := separated_append_inj (fun _ hc => not_mem_folded hc)
      (fun _ hc => not_mem_folded hc) (atBoundary_cons _) hfold
    obtain ⟨above, below, hcomponents, habove, hbelow⟩ := List.map_eq_append_iff.mp hsplit
    refine ⟨above, below, hcomponents, ?_, habove⟩
    rintro rfl
    rw [← hbelow] at htail
    cases htail
  · rintro ⟨above, below, hcomponents, hbelow, habove⟩
    obtain ⟨c, cs, rfl⟩ := List.exists_cons_of_ne_nil hbelow
    refine ⟨separated separator above, c ++ separated separator cs, ?_, ?_⟩
    · rw [stem_path, fold_separated, ← habove]
      exact map_separated N.upcase
    · rw [path_of_ne hp, hcomponents, separated_append, separated_cons]

/-- `PathCacheIsUnder` decides that the components begin with the directory's. -/
theorem isUnder_path_iff : N.isUnder dir.path p.path = true ↔ dir.folded N <+: p.folded N := by
  rw [isUnder_iff, same_path_iff]
  by_cases hp : p.components = []
  · rw [folded_eq_nil.mpr hp, List.prefix_nil]
    constructor
    · rintro (h | ⟨front, rest, hfront, hpath⟩)
      · exact h
      · rw [path_root hp] at hpath
        rw [stem_path, fold_separated] at hfront
        cases front with
        | nil =>
          cases hfolded : dir.folded N with
          | nil => rfl
          | cons c cs =>
            rw [hfolded] at hfront
            cases hfront
        | cons x front =>
          have hlength := congrArg List.length hpath
          rw [List.length_singleton, List.length_append, List.length_cons, List.length_cons] at hlength
          omega
    · exact .inl
  · rw [beneath_path_iff hp]
    constructor
    · rintro (h | ⟨above, below, hcomponents, -, habove⟩)
      · exact h ▸ List.prefix_refl _
      · change dir.folded N <+: p.components.map N.fold
        rw [hcomponents, List.map_append, habove]
        exact List.prefix_append _ _
    · rintro ⟨tail, htail⟩
      obtain ⟨above, below, hcomponents, habove, -⟩ := List.map_eq_append_iff.mp htail.symm
      by_cases hbelow : below = []
      · rw [hbelow, List.append_nil] at hcomponents
        exact .inl (habove.symm.trans (congrArg (List.map N.fold) hcomponents.symm))
      · exact .inr ⟨above, below, hcomponents, hbelow, habove⟩

/-- For what is under the directory, `PathCacheIsBelowChild` decides that it is two components
down or more. -/
theorem isBelowChild_path_iff (h : dir.folded N <+: p.folded N) :
    isBelowChild dir.path p.path = true ↔ dir.components.length + 2 ≤ p.components.length := by
  obtain ⟨tail, htail⟩ := h
  obtain ⟨above, below, hcomponents, habove, -⟩ := List.map_eq_append_iff.mp htail.symm
  have hlength : above.length = dir.components.length := by
    have hmap := congrArg List.length habove
    rwa [List.length_map, length_folded] at hmap
  have hchars : (separated separator above).length = (separated separator dir.components).length := by
    have hfold : N.fold (separated separator above) = N.fold (separated separator dir.components) := by
      rw [fold_separated, ← habove]
      exact map_separated N.upcase
    exact Same.length_eq hfold
  have hskip : (if endsWithSeparator dir.path then dir.path.length else dir.path.length + 1) =
      (separated separator dir.components).length + 1 := by
    by_cases hd : dir.components = []
    · rw [if_pos (endsWithSeparator_path.mpr hd), path_root hd, hd]
      rfl
    · rw [if_neg (fun hs => hd (endsWithSeparator_path.mp hs)), path_of_ne hd]
  rw [isBelowChild, hskip, ← hchars, List.contains_iff_mem]
  cases below with
  | nil =>
    have hnone : p.path.drop ((separated separator above).length + 1) = [] := by
      rw [List.drop_eq_nil_iff, path, hcomponents, List.append_nil]
      split_ifs
      · exact Nat.le_add_left 1 _
      · exact Nat.le_succ _
    rw [hnone, hcomponents, List.append_nil, hlength]
    exact ⟨fun hmem => absurd hmem List.not_mem_nil, fun hle => absurd hle (by omega)⟩
  | cons c cs =>
    have hp : p.components ≠ [] := by
      rw [hcomponents]
      exact List.append_ne_nil_of_right_ne_nil _ (List.cons_ne_nil _ _)
    have hc := p.isName c (hcomponents ▸ List.mem_append_right above List.mem_cons_self)
    have hrest : p.path.drop ((separated separator above).length + 1) = c ++ separated separator cs := by
      rw [path_of_ne hp, hcomponents, separated_append, ← List.drop_drop, List.drop_left, separated_cons]
      rfl
    rw [hrest, mem_append_separated hc.2, hcomponents, List.length_append, List.length_cons, hlength,
      ← List.length_pos_iff]
    omega

/-! ### The sweep -/

/-- What a sweep below `dir` takes: the directory, unless it is kept, and what is beneath it, or
only the directory's children. -/
def Swept (N : Names) (dir : CanonicalPath) (keepDir childrenOnly : Bool) (p : CanonicalPath) : Prop :=
  dir.folded N <+: p.folded N ∧ ¬ (keepDir = true ∧ p.folded N = dir.folded N) ∧
    ¬ (childrenOnly = true ∧ dir.components.length + 2 ≤ p.components.length)

/-- The test `PathCacheInvalidateUnder` makes of an entry. -/
def takes (N : Names) (dir : Path) (keepDir childrenOnly : Bool) (entry : PathEntry) : Bool :=
  N.isUnder dir entry.path && !(keepDir && entry.path.length == dir.length) &&
    !(childrenOnly && isBelowChild dir entry.path)

theorem fold_prefix_of_isUnder {d q : Path} (h : N.isUnder d q = true) : N.fold d <+: N.fold q := by
  unfold Names.isUnder at h
  split_ifs at h with hlength hprefix
  exact List.isPrefixOf_iff_prefix.mp hprefix

/-- Under a directory only the directory has a path of its length. -/
theorem length_eq_iff_of_isUnder (h : N.isUnder dir.path p.path = true) :
    p.path.length = dir.path.length ↔ p.folded N = dir.folded N := by
  rw [eq_comm (a := p.folded N), ← same_path_iff]
  constructor
  · intro hlength
    refine (fold_prefix_of_isUnder h).eq_of_length ?_
    rw [Names.fold, Names.fold, List.length_map, List.length_map, hlength]
  · intro hsame
    exact hsame.length_eq.symm

theorem takes_iff {keepDir childrenOnly : Bool} {entry : PathEntry} (hentry : entry.path = p.path) :
    takes N dir.path keepDir childrenOnly entry = true ↔ Swept N dir keepDir childrenOnly p := by
  have hiff : takes N dir.path keepDir childrenOnly entry = true ↔ N.isUnder dir.path p.path = true ∧
      ¬ (keepDir = true ∧ p.path.length = dir.path.length) ∧ ¬ (childrenOnly = true ∧ isBelowChild dir.path p.path = true) := by
    rw [takes, hentry]
    cases keepDir <;> cases childrenOnly <;> simp [and_assoc]
  rw [hiff, Swept, ← isUnder_path_iff]
  refine and_congr_right fun hunder => and_congr (not_congr (and_congr_right fun _ => ?_))
    (not_congr (and_congr_right fun _ => isBelowChild_path_iff (isUnder_path_iff.mp hunder)))
  exact length_eq_iff_of_isUnder hunder

/-- The predicates on paths are those on components, for every directory and path with the root
among them, and `PathCacheInvalidateUnder` takes from every bucket the entries below the
directory it is to take, in whatever state the caches are, and leaves the others in place. -/
theorem path_scope (N : Names) (dir p : CanonicalPath) :
    (parent p.path = if p.components = [] then none else some p.up.path) ∧
    (N.isUnder dir.path p.path = true ↔ dir.folded N <+: p.folded N) ∧
    (N.isUnder dir.path p.path = true →
      (isBelowChild dir.path p.path = true ↔ dir.components.length + 2 ≤ p.components.length)) ∧
    ∀ (c : Caches) (keepDir childrenOnly : Bool), ∃ taken : PathEntry → Bool,
      (∀ entry (q : CanonicalPath), entry.path = q.path → (taken entry = true ↔ Swept N dir keepDir childrenOnly q)) ∧
      c.invalidateUnder N dir.path keepDir childrenOnly =
        { c with buckets := fun i => if i < bucketCount then (c.buckets i).filter (!taken ·) else c.buckets i } := by
  refine ⟨parent_path, isUnder_path_iff, fun h => isBelowChild_path_iff (isUnder_path_iff.mp h), fun c keepDir childrenOnly => ?_⟩
  refine ⟨takes N dir.path keepDir childrenOnly, fun entry q hentry => takes_iff hentry, ?_⟩
  have hbuckets : sweep (invalidateUnderSection N dir.path keepDir childrenOnly) bucketCount c.buckets =
      fun i => if i < bucketCount then (c.buckets i).filter (!takes N dir.path keepDir childrenOnly ·) else c.buckets i := by
    funext i
    exact sweep_apply _ c.buckets bucketCount i
  rw [Caches.invalidateUnder, hbuckets]

end CanonicalPath

end BlorgFS.PathCache

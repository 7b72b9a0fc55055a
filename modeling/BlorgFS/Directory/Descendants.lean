import BlorgFS.Directory.Decode
import BlorgFS.Directory.Seed

/-! The rest of a subtree's answer. A descendant names its parent by number, one-based and among
those before it, and is listed there as a subdirectory. The decoder keeps the longest run of them
for which that is so and which has not too many entries; publishing them, each goes under the
path its parents give. -/

namespace BlorgFS.Directory

open Lib
open PathCache (WChar Path Names Caches Moment Ticket withSeparator separator isComponent byteLength maxPathBytes)

/-! ### The decoder -/

/-- `Descendant`. -/
structure FlatDescendant where
  listing : Option FlatDirectory
  parent : ℕ := 0
  subdirectory : ℕ := 0

/-- `DIRECTORY_DESCENDANT`. -/
structure DirectoryDescendant where
  listing : DirectoryInfo
  parent : ℕ
  subDir : ℕ

/-- `HTTP_SUBTREE_MAX_ENTRIES`. -/
def subtreeMaxEntries : ℕ := 65536

/-- What the loop of `HttpDecodeDescendants` has kept, and the entries it counts; with that, the
listings it was handed and those of them it has released. -/
structure Decoding where
  descendants : List DirectoryDescendant := []
  entries : ℕ := 0
  handed : List DirectoryInfo := []
  released : List DirectoryInfo := []

/-- The listing of a parent by its number. -/
def parentListing (root : DirectoryInfo) (descendants : List DirectoryDescendant) (parent : ℕ) : Option DirectoryInfo :=
  if parent = 0 then some root
  else if parent ≤ descendants.length then (descendants[parent - 1]?).map (·.listing) else none

variable (U : Utf8) (N : Names) (pool : ℕ → Bool) (bodyLen : ℕ) (root : DirectoryInfo)

/-- One turn of the loop: whether there is another, and what is kept. -/
def decodeDescendant (cap : ℕ) (flat : Option FlatDescendant) (w : Decoding) : Bool × Decoding :=
  match flat.bind fun flat => flat.listing.map fun table => (flat, table) with
  | none => (false, w)
  | some (flat, table) =>
    match parentListing root w.descendants flat.parent with
    | none => (false, w)
    | some parent =>
      if parent.subDirCount ≤ flat.subdirectory then (false, w)
      else
        match decodeListing U N (pool w.descendants.length) table bodyLen root.noStore with
        | .error _ => (false, w)
        | .ok listing =>
          let entries := ulong64 (w.entries + ulong64 (listing.fileCount + listing.subDirCount))
          let handed := w.handed ++ [listing]
          if cap < entries then (false, { w with entries := entries, handed := handed, released := w.released ++ [listing] })
          else
            (true, { w with
              descendants := w.descendants ++ [⟨listing, flat.parent, flat.subdirectory⟩]
              entries := entries
              handed := handed })

def decodeTurns (cap : ℕ) : List (Option FlatDescendant) → Decoding → Decoding
  | [], w => w
  | flat :: rest, w =>
    match decodeDescendant U N pool bodyLen root cap flat w with
    | (true, w) => decodeTurns cap rest w
    | (false, w) => w

/-- `HttpDecodeDescendants`; `array` says whether the array of descendants was allocated. -/
def decodeDescendants (array : Bool) (flatDescendants : Option (Vec (Option FlatDescendant))) (maxEntries : ℕ) : Decoding :=
  let flats := flatDescendants.elim [] (·.toList)
  let cap := min maxEntries subtreeMaxEntries
  let count := min flats.length cap
  if count = 0 ∨ array = false then {} else decodeTurns U N pool bodyLen root cap (flats.take count) {}

/-! ### What is kept -/

variable {U N pool bodyLen root} {cap : ℕ} {flat : Option FlatDescendant} {flats : List (Option FlatDescendant)} {w : Decoding}

/-- A descendant that is kept: the one of the answer, its listing decoded, and listed by a parent
before it. -/
structure Kept (U : Utf8) (N : Names) (bodyLen : ℕ) (root : DirectoryInfo) (before : List DirectoryDescendant) (flat : Option FlatDescendant)
    (e : DirectoryDescendant) : Prop where
  decoded : ∃ f t pool, flat = some f ∧ f.listing = some t ∧ decodeListing U N pool t bodyLen root.noStore = .ok e.listing ∧
    e.parent = f.parent ∧ e.subDir = f.subdirectory
  parent_le : e.parent ≤ before.length
  listed : ∃ parent, parentListing root before e.parent = some parent ∧ e.subDir < parent.subDirCount

/-- What a turn does: it ends the loop with nothing done, or with the listing released, or keeps
the descendant. -/
inductive Turned (U : Utf8) (N : Names) (bodyLen : ℕ) (root : DirectoryInfo) (cap : ℕ) (flat : Option FlatDescendant) (w : Decoding) :
    Bool × Decoding → Prop
  | stop : Turned U N bodyLen root cap flat w (false, w)
  | release (listing : DirectoryInfo) (entries : ℕ) : Turned U N bodyLen root cap flat w
      (false, { w with entries := entries, handed := w.handed ++ [listing], released := w.released ++ [listing] })
  | keep (e : DirectoryDescendant) (kept : Kept U N bodyLen root w.descendants flat e)
      (entries : ulong64 (w.entries + ulong64 e.listing.entries) ≤ cap) : Turned U N bodyLen root cap flat w
      (true, { w with
        descendants := w.descendants ++ [e]
        entries := ulong64 (w.entries + ulong64 e.listing.entries)
        handed := w.handed ++ [e.listing] })

theorem parentListing_le {descendants : List DirectoryDescendant} {parent : ℕ} {listing : DirectoryInfo}
    (h : parentListing root descendants parent = some listing) : parent ≤ descendants.length := by
  unfold parentListing at h
  by_cases h0 : parent = 0
  · omega
  · by_contra hlt
    rw [if_neg h0, if_neg hlt] at h
    cases h

theorem decodeDescendant_turned : Turned U N bodyLen root cap flat w (decodeDescendant U N pool bodyLen root cap flat w) := by
  unfold decodeDescendant
  split
  next => exact .stop
  next f table hflat =>
    obtain ⟨f', rfl, htable⟩ := Option.bind_eq_some_iff.mp hflat
    obtain ⟨table', hlisting, hpair⟩ := Option.map_eq_some_iff.mp htable
    obtain ⟨rfl, rfl⟩ := Prod.mk.inj hpair
    split
    next => exact .stop
    next parent hparent =>
      split_ifs with hsub
      · exact .stop
      split
      next => exact .stop
      next listing hdecoded =>
        dsimp only
        split_ifs with hmany
        · exact .release listing _
        · have hkept : Kept U N bodyLen root w.descendants (some f') ⟨listing, f'.parent, f'.subdirectory⟩ :=
            ⟨⟨f', table', _, rfl, hlisting, hdecoded, rfl, rfl⟩, parentListing_le hparent, parent, hparent, Nat.not_le.mp hsub⟩
          exact .keep ⟨listing, f'.parent, f'.subdirectory⟩ hkept (Nat.not_lt.mp hmany)

/-- What is kept so far, of the answer's descendants. -/
structure KeptAll (U : Utf8) (N : Names) (bodyLen : ℕ) (root : DirectoryInfo) (cap : ℕ) (flats : List (Option FlatDescendant)) (w : Decoding) : Prop where
  kept : ∀ i e, w.descendants[i]? = some e → ∃ flat, flats[i]? = some flat ∧ Kept U N bodyLen root (w.descendants.take i) flat e
  entries : (w.descendants.map (·.listing.entries)).sum ≤ cap
  owned : w.handed.Perm (w.descendants.map (·.listing) ++ w.released)

theorem Kept.entries_le {before : List DirectoryDescendant} {e : DirectoryDescendant} (h : Kept U N bodyLen root before flat e) :
    e.listing.entries ≤ 2 ^ 30 := by
  obtain ⟨f, t, pool, -, -, hdecoded, -, -⟩ := h.decoded
  obtain ⟨nameBytes, cursor, hlaid, -, -⟩ := (of_decodeListing hdecoded).laid
  exact Nat.le_trans hlaid.entries (by decide)

/-- Keeping one more. -/
theorem KeptAll.keep {done rest : List (Option FlatDescendant)} (h : KeptAll U N bodyLen root cap (done ++ flat :: rest) w)
    (hlength : w.descendants.length = done.length) {e : DirectoryDescendant} (hkept : Kept U N bodyLen root w.descendants flat e)
    (hle : (w.descendants.map (·.listing.entries)).sum + e.listing.entries ≤ cap) (entries : ℕ) :
    KeptAll U N bodyLen root cap (done ++ flat :: rest)
      { w with descendants := w.descendants ++ [e], entries := entries, handed := w.handed ++ [e.listing] } where
  kept i other hat := by
    dsimp only at hat ⊢
    by_cases hi : i < w.descendants.length
    · rw [List.getElem?_append_left hi] at hat
      rw [List.take_append_of_le_length (Nat.le_of_lt hi)]
      exact h.kept i other hat
    · have hlt := (List.getElem?_eq_some_iff.mp hat).1
      rw [List.length_append, List.length_singleton] at hlt
      have heq : i = w.descendants.length := by omega
      rw [heq, List.getElem?_concat_length] at hat
      obtain rfl := Option.some.inj hat
      rw [heq, List.take_left' rfl]
      refine ⟨flat, ?_, hkept⟩
      rw [hlength, List.getElem?_append_right (Nat.le_refl _), Nat.sub_self]
      rfl
  entries := by
    dsimp only
    rw [List.map_append, List.sum_append, List.map_singleton, List.sum_singleton]
    exact hle
  owned := by
    dsimp only
    refine (h.owned.append_right [e.listing]).trans ?_
    rw [List.map_append, List.map_singleton, List.append_assoc, List.append_assoc]
    exact List.Perm.append_left _ List.perm_append_comm

theorem KeptAll.release (h : KeptAll U N bodyLen root cap flats w) (listing : DirectoryInfo) (entries : ℕ) :
    KeptAll U N bodyLen root cap flats
      { w with entries := entries, handed := w.handed ++ [listing], released := w.released ++ [listing] } where
  kept := h.kept
  entries := h.entries
  owned := by
    dsimp only
    rw [← List.append_assoc]
    exact h.owned.append_right [listing]

/-- The loop keeps descendants of the answer one after another. -/
theorem decodeTurns_kept (hcap : cap ≤ subtreeMaxEntries) (rest : List (Option FlatDescendant)) :
    ∀ {done : List (Option FlatDescendant)} {w : Decoding}, KeptAll U N bodyLen root cap (done ++ rest) w → w.descendants.length = done.length →
      w.entries = (w.descendants.map (·.listing.entries)).sum → KeptAll U N bodyLen root cap (done ++ rest) (decodeTurns U N pool bodyLen root cap rest w) := by
  induction rest with
  | nil => exact fun h _ _ => h
  | cons flat rest ih =>
    intro done w h hlength hentries
    have hturned : Turned U N bodyLen root cap flat w (decodeDescendant U N pool bodyLen root cap flat w) := decodeDescendant_turned
    unfold decodeTurns
    generalize decodeDescendant U N pool bodyLen root cap flat w = turned at hturned
    cases hturned with
    | stop => exact h
    | release listing entries => exact h.release listing entries
    | keep e hkept hle =>
      have hwas : w.entries ≤ 65536 := hentries ▸ Nat.le_trans h.entries hcap
      have hmore := hkept.entries_le
      have hexact : ulong64 (w.entries + ulong64 e.listing.entries) = w.entries + e.listing.entries := by
        rw [ulong64_of_lt (n := e.listing.entries) (by omega)]
        exact ulong64_of_lt (by omega)
      rw [hexact] at hle ⊢
      have hlength' : (w.descendants ++ [e]).length = (done ++ [flat]).length := by
        rw [List.length_append, List.length_append, hlength, List.length_singleton, List.length_singleton]
      have hentries' : w.entries + e.listing.entries = ((w.descendants ++ [e]).map (·.listing.entries)).sum := by
        rw [List.map_append, List.sum_append, List.map_singleton, List.sum_singleton, hentries]
      have hsplit : done ++ flat :: rest = (done ++ [flat]) ++ rest := by rw [List.append_assoc, List.singleton_append]
      have hkeep := h.keep hlength hkept (hentries ▸ hle) (w.entries + e.listing.entries)
      rw [hsplit] at hkeep ⊢
      exact ih hkeep hlength' hentries'

theorem keptAll_nil (cap : ℕ) (flats : List (Option FlatDescendant)) : KeptAll U N bodyLen root cap flats {} :=
  ⟨nofun, Nat.zero_le cap, List.Perm.refl _⟩

theorem decodeDescendants_kept (array : Bool) (flatDescendants : Option (Vec (Option FlatDescendant))) (maxEntries : ℕ) :
    KeptAll U N bodyLen root (min maxEntries subtreeMaxEntries) (flatDescendants.elim [] (·.toList))
      (decodeDescendants U N pool bodyLen root array flatDescendants maxEntries) := by
  unfold decodeDescendants
  dsimp only
  split_ifs
  · exact keptAll_nil _ _
  · have hturns (taken : List (Option FlatDescendant)) : KeptAll U N bodyLen root (min maxEntries subtreeMaxEntries) ([] ++ taken)
        (decodeTurns U N pool bodyLen root (min maxEntries subtreeMaxEntries) taken {}) :=
      decodeTurns_kept (Nat.min_le_right _ _) taken (keptAll_nil _ _) rfl rfl
    have htaken := hturns ((flatDescendants.elim [] (·.toList)).take (min (flatDescendants.elim [] (·.toList)).length (min maxEntries subtreeMaxEntries)))
    refine ⟨fun i e hat => ?_, htaken.entries, htaken.owned⟩
    obtain ⟨flat, hflat, hkept⟩ := htaken.kept i e hat
    rw [List.nil_append, List.getElem?_take] at hflat
    split_ifs at hflat
    exact ⟨flat, hflat, hkept⟩

/-! ### Publishing them -/

namespace DirectoryInfo

/-- `BlorgGetSubDirEntry`. -/
def getSubDirEntry (d : DirectoryInfo) (index : ℕ) : Option SubDirMetadata := if index ≥ d.subDirCount then none else some (d.subDirs index)

end DirectoryInfo

/-- The locals of `BlorgPathCachePublishDescendants` with the caches, and the publishes it has
made, each the number of a descendant and a path. -/
structure Publishing where
  paths : List (Option Path)
  caches : Caches
  published : ℕ := 0
  publishes : List (ℕ × Path) := []

section Publish

variable (N : Names) (moments : ℕ → Moment) (pool : ℕ → Bool) (root : DirectoryInfo) (descendants : List DirectoryDescendant) (ticket : Option Ticket)

/-- A turn of the loop, without an access out of range. -/
def publishDescendant (i : ℕ) (w : Publishing) : Option Publishing :=
  (descendants[i]?).bind fun e =>
    if e.parent > i then some w
    else
      (w.paths[e.parent]?).bind fun parentPath =>
        (if e.parent = 0 then some root else (descendants[e.parent - 1]?).map (·.listing)).bind fun parent =>
          match parentPath, parent.getSubDirEntry e.subDir with
          | some parentPath, some sub =>
            let name := load parent.names sub.name sub.nameLength
            if isComponent name = false then some w
            else
              (parentPath.getLast?).bind fun last =>
                let path := (if separator ≠ last then parentPath ++ [separator] else parentPath) ++ name
                if byteLength path > maxPathBytes ∨ pool i = false then some w
                else if i + 1 < w.paths.length then
                  let (current, caches) := w.caches.publishListing N (moments i) path e.listing.listing ticket
                  some {
                    paths := w.paths.set (i + 1) (some path)
                    caches := caches
                    published := if current then w.published + 1 else w.published
                    publishes := w.publishes ++ [(i, path)] }
                else none
          | _, _ => some w

/-- The turns for the descendants below `count`. -/
def publishTurns : ℕ → Publishing → Option Publishing
  | 0, w => some w
  | i + 1, w => (publishTurns i w).bind (publishDescendant N moments pool root descendants ticket i)

/-- `BlorgPathCachePublishDescendants`; `array` says whether the array of paths was allocated,
and `none` is an access out of range. -/
def publishDescendants (array : Bool) (dir : Path) (c : Caches) : Option Publishing :=
  if dir = [] ∨ descendants.length = 0 ∨ array = false then some { paths := [], caches := c }
  else
    publishTurns N moments pool root descendants ticket descendants.length
      { paths := some dir :: List.replicate descendants.length none, caches := c }

end Publish

/-- Where a descendant's path comes from: the directory's is its own, and a descendant's is its
parent's and the name it has there. -/
inductive PathOf (pool : ℕ → Bool) (root : DirectoryInfo) (descendants : List DirectoryDescendant) (dir : Path) : ℕ → Path → Prop
  | dir : PathOf pool root descendants dir 0 dir
  | child {i : ℕ} {e : DirectoryDescendant} {parentPath : Path} {parent : DirectoryInfo} {sub : SubDirMetadata}
      (at_ : descendants[i]? = some e) (before : e.parent ≤ i) (above : PathOf pool root descendants dir e.parent parentPath)
      (listed : parentListing root descendants e.parent = some parent) (entry : parent.getSubDirEntry e.subDir = some sub)
      (component : isComponent (load parent.names sub.name sub.nameLength) = true)
      (length : byteLength (withSeparator parentPath ++ load parent.names sub.name sub.nameLength) ≤ maxPathBytes) (allocated : pool i = true) :
      PathOf pool root descendants dir (i + 1) (withSeparator parentPath ++ load parent.names sub.name sub.nameLength)

/-- The publishes one after another. -/
def publishAll (N : Names) (moments : ℕ → Moment) (descendants : List DirectoryDescendant) (ticket : Option Ticket) (publishes : List (ℕ × Path))
    (c : Caches) : Caches :=
  publishes.foldl (fun c publish => (descendants[publish.1]?).elim c fun e =>
    (c.publishListing N (moments publish.1) publish.2 e.listing.listing ticket).2) c

variable {moments : ℕ → Moment} {descendants : List DirectoryDescendant} {ticket : Option Ticket} {dir path : Path} {c : Caches} {p : Publishing} {i j : ℕ}

/-- The locals after the turns for the descendants below `i`. -/
structure Published (N : Names) (moments : ℕ → Moment) (pool : ℕ → Bool) (root : DirectoryInfo) (descendants : List DirectoryDescendant)
    (ticket : Option Ticket) (dir : Path) (c : Caches) (i : ℕ) (p : Publishing) : Prop where
  length : p.paths.length = descendants.length + 1
  paths : ∀ j path, p.paths[j]? = some (some path) ↔ j ≤ i ∧ PathOf pool root descendants dir j path
  publishes : ∀ j path, (j, path) ∈ p.publishes ↔ j < i ∧ PathOf pool root descendants dir (j + 1) path
  caches : p.caches = publishAll N moments descendants ticket p.publishes c

theorem PathOf.ne_nil (h : PathOf pool root descendants dir i path) (hdir : dir ≠ []) : path ≠ [] := by
  cases h with
  | dir => exact hdir
  | child _ _ _ _ _ component _ _ =>
    refine List.append_ne_nil_of_right_ne_nil _ ?_
    intro hnil
    rw [hnil] at component
    cases component

theorem withSeparator_of_getLast? {last : WChar} (h : path.getLast? = some last) :
    (if separator ≠ last then path ++ [separator] else path) = withSeparator path := by
  unfold withSeparator PathCache.endsWithSeparator
  rw [h]
  by_cases hs : separator = last
  · rw [if_neg (not_not.mpr hs), hs, if_pos (beq_self_eq_true _)]
  · rw [if_pos hs, if_neg]
    rw [beq_iff_eq, Option.some.injEq]
    exact fun he => hs he.symm

/-- A descendant is skipped. -/
theorem Published.skip (h : Published N moments pool root descendants ticket dir c i p)
    (hnone : ∀ path, ¬ PathOf pool root descendants dir (i + 1) path) : Published N moments pool root descendants ticket dir c (i + 1) p where
  length := h.length
  paths j path := by
    rw [h.paths]
    refine and_congr_left fun hpath => ⟨fun hle => by omega, fun hle => ?_⟩
    by_contra hgt
    have heq : j = i + 1 := by omega
    exact hnone path (heq ▸ hpath)
  publishes j path := by
    rw [h.publishes]
    refine and_congr_left fun hpath => ⟨fun hlt => by omega, fun hlt => ?_⟩
    by_contra hge
    have heq : j = i := by omega
    exact hnone path (heq ▸ hpath)
  caches := h.caches

/-- A descendant is published. -/
theorem Published.put (h : Published N moments pool root descendants ticket dir c i p) {e : DirectoryDescendant} (hat : descendants[i]? = some e)
    (hpath : ∀ other, PathOf pool root descendants dir (i + 1) other ↔ other = path) (published : ℕ) :
    Published N moments pool root descendants ticket dir c (i + 1) {
      paths := p.paths.set (i + 1) (some path)
      caches := (p.caches.publishListing N (moments i) path e.listing.listing ticket).2
      published := published
      publishes := p.publishes ++ [(i, path)] } where
  length := by rw [List.length_set, h.length]
  paths j other := by
    have hlt := (List.getElem?_eq_some_iff.mp hat).1
    by_cases hj : j = i + 1
    · rw [hj, List.getElem?_set_self (by rw [h.length]; omega), hpath, Option.some.injEq, Option.some.injEq]
      exact ⟨fun he => ⟨Nat.le_refl _, he.symm⟩, fun he => he.2.symm⟩
    · rw [List.getElem?_set_ne (Ne.symm hj), h.paths]
      exact and_congr_left fun _ => ⟨fun hle => by omega, fun hle => by omega⟩
  publishes j other := by
    rw [List.mem_append, List.mem_singleton, Prod.mk.injEq, h.publishes]
    constructor
    · rintro (⟨hj, hother⟩ | ⟨rfl, rfl⟩)
      · exact ⟨by omega, hother⟩
      · exact ⟨Nat.lt_succ_self _, (hpath other).mpr rfl⟩
    · rintro ⟨hj, hother⟩
      by_cases heq : j = i
      · rw [heq] at hother
        exact .inr ⟨heq, (hpath other).mp hother⟩
      · exact .inl ⟨by omega, hother⟩
  caches := by
    unfold publishAll
    rw [List.foldl_append, List.foldl_cons, List.foldl_nil, hat]
    dsimp only [Option.elim_some]
    rw [h.caches]
    rfl

/-- A turn never leaves the arrays, and publishes where the descendant has a path. -/
theorem publishDescendant_published (hdir : dir ≠ []) (h : Published N moments pool root descendants ticket dir c i p) (hi : i < descendants.length) :
    ∃ p', publishDescendant N moments pool root descendants ticket i p = some p' ∧ Published N moments pool root descendants ticket dir c (i + 1) p' := by
  obtain ⟨e, hat⟩ : ∃ e, descendants[i]? = some e := ⟨_, List.getElem?_eq_getElem hi⟩
  unfold publishDescendant
  rw [hat, Option.bind_some]
  by_cases hafter : e.parent > i
  · rw [if_pos hafter]
    refine ⟨p, rfl, h.skip fun path hpath => ?_⟩
    cases hpath with
    | child at_ before =>
      obtain rfl := Option.some.inj (hat.symm.trans at_)
      omega
  rw [if_neg hafter]
  obtain ⟨parentPath, hparentPath⟩ : ∃ parentPath, p.paths[e.parent]? = some parentPath :=
    ⟨_, List.getElem?_eq_getElem (by rw [h.length]; omega)⟩
  obtain ⟨parent, hparent, hlisting⟩ : ∃ parent, (if e.parent = 0 then some root else (descendants[e.parent - 1]?).map (·.listing)) = some parent ∧
      parentListing root descendants e.parent = some parent := by
    unfold parentListing
    by_cases h0 : e.parent = 0
    · rw [if_pos h0, if_pos h0]
      exact ⟨root, rfl, rfl⟩
    · rw [if_neg h0, if_neg h0, if_pos (by omega), List.getElem?_eq_getElem (by omega)]
      exact ⟨_, rfl, rfl⟩
  rw [hparentPath, hparent, Option.bind_some, Option.bind_some]
  -- What a path of the descendant would be made of is what was read.
  have hmade {path : Path} (hpath : PathOf pool root descendants dir (i + 1) path) : ∃ q sub, parentPath = some q ∧ parent.getSubDirEntry e.subDir = some sub ∧
      isComponent (load parent.names sub.name sub.nameLength) = true ∧ path = withSeparator q ++ load parent.names sub.name sub.nameLength ∧
      byteLength path ≤ maxPathBytes ∧ pool i = true := by
    cases hpath with
    | child at_ before above listed entry component length allocated =>
      obtain rfl := Option.some.inj (hat.symm.trans at_)
      obtain rfl := Option.some.inj (hlisting.symm.trans listed)
      have hq := (h.paths _ _).mpr ⟨before, above⟩
      exact ⟨_, _, Option.some.inj (hparentPath.symm.trans hq), entry, component, rfl, length, allocated⟩
  cases hq : parentPath with
  | none =>
    refine ⟨p, rfl, h.skip fun path hpath => ?_⟩
    obtain ⟨q, sub, hsome, -⟩ := hmade hpath
    rw [hq] at hsome
    cases hsome
  | some q =>
    cases hsub : parent.getSubDirEntry e.subDir with
    | none =>
      refine ⟨p, rfl, h.skip fun path hpath => ?_⟩
      obtain ⟨q', sub, -, hsome, -⟩ := hmade hpath
      rw [hsub] at hsome
      cases hsome
    | some sub =>
      have hmade' {path : Path} (hpath : PathOf pool root descendants dir (i + 1) path) :
          isComponent (load parent.names sub.name sub.nameLength) = true ∧ path = withSeparator q ++ load parent.names sub.name sub.nameLength ∧
            byteLength path ≤ maxPathBytes ∧ pool i = true := by
        obtain ⟨q', sub', hq', hsub', hrest⟩ := hmade hpath
        obtain rfl := Option.some.inj (hq.symm.trans hq')
        obtain rfl := Option.some.inj (hsub.symm.trans hsub')
        exact hrest
      have habove : PathOf pool root descendants dir e.parent q := ((h.paths _ _).mp (hparentPath.trans (congrArg some hq))).2
      obtain ⟨last, hlast⟩ : ∃ last, q.getLast? = some last := ⟨_, List.getLast?_eq_some_getLast (habove.ne_nil hdir)⟩
      dsimp only
      by_cases hcomponent : isComponent (load parent.names sub.name sub.nameLength) = false
      · rw [if_pos hcomponent]
        refine ⟨p, rfl, h.skip fun path hpath => ?_⟩
        rw [(hmade' hpath).1] at hcomponent
        cases hcomponent
      rw [if_neg hcomponent, hlast, Option.bind_some, withSeparator_of_getLast? hlast]
      by_cases hlong : byteLength (withSeparator q ++ load parent.names sub.name sub.nameLength) > maxPathBytes ∨ pool i = false
      · rw [if_pos hlong]
        refine ⟨p, rfl, h.skip fun path hpath => ?_⟩
        obtain ⟨-, rfl, hlength, hpool⟩ := hmade' hpath
        rcases hlong with hgt | hno
        · omega
        · rw [hpool] at hno
          cases hno
      rw [if_neg hlong, if_pos (by rw [h.length]; omega)]
      rw [not_or, Nat.not_lt, Bool.not_eq_false] at hlong
      refine ⟨_, rfl, h.put hat (fun other => ⟨fun hother => (hmade' hother).2.1, ?_⟩) _⟩
      rintro rfl
      exact .child hat (Nat.not_lt.mp hafter) habove hlisting hsub (Bool.not_eq_false _ ▸ hcomponent) hlong.1 hlong.2

theorem publishTurns_published (hdir : dir ≠ []) (h : Published N moments pool root descendants ticket dir c 0 p) (hi : i ≤ descendants.length) :
    ∃ p', publishTurns N moments pool root descendants ticket i p = some p' ∧ Published N moments pool root descendants ticket dir c i p' := by
  induction i with
  | zero => exact ⟨p, rfl, h⟩
  | succ i ih =>
    obtain ⟨before, hbefore, hpublished⟩ := ih (Nat.le_of_lt hi)
    rw [publishTurns, hbefore, Option.bind_some]
    exact publishDescendant_published hdir hpublished hi

theorem published_dir (c : Caches) : Published N moments pool root descendants ticket dir c 0
    { paths := some dir :: List.replicate descendants.length none, caches := c } where
  length := by rw [List.length_cons, List.length_replicate]
  paths j path := by
    cases j with
    | zero =>
      rw [List.getElem?_cons_zero, Option.some.injEq, Option.some.injEq]
      constructor
      · rintro rfl
        exact ⟨Nat.le_refl 0, .dir⟩
      · rintro ⟨-, hpath⟩
        cases hpath
        rfl
    | succ j =>
      rw [List.getElem?_cons_succ, List.getElem?_replicate]
      constructor
      · intro hat
        split_ifs at hat
        cases hat
      · rintro ⟨hle, -⟩
        omega
  publishes j path := ⟨nofun, fun h => absurd h.1 (Nat.not_lt_zero j)⟩
  caches := rfl

/-! ### The names along the parents -/

/-- The names by which a descendant is reached, those nearest the directory first. -/
inductive NamesTo (root : DirectoryInfo) (descendants : List DirectoryDescendant) : ℕ → List Path → Prop
  | dir : NamesTo root descendants 0 []
  | child {i : ℕ} {e : DirectoryDescendant} {names : List Path} {parent : DirectoryInfo} {sub : SubDirMetadata}
      (at_ : descendants[i]? = some e) (before : e.parent ≤ i) (above : NamesTo root descendants e.parent names)
      (listed : parentListing root descendants e.parent = some parent) (entry : parent.getSubDirEntry e.subDir = some sub) :
      NamesTo root descendants (i + 1) (names ++ [load parent.names sub.name sub.nameLength])

/-- A directory's path and names behind it, a separator before each where there is none. -/
def joined (dir : Path) (names : List Path) : Path := names.foldl (fun path name => withSeparator path ++ name) dir

theorem PathOf.names (h : PathOf pool root descendants dir i path) :
    ∃ names, NamesTo root descendants i names ∧ path = joined dir names ∧ ∀ name ∈ names, isComponent name = true := by
  induction h with
  | dir => exact ⟨[], .dir, rfl, nofun⟩
  | child at_ before above listed entry component length allocated ih =>
    obtain ⟨names, hnames, rfl, hcomponents⟩ := ih
    refine ⟨_, .child at_ before hnames listed entry, ?_, fun name hname => ?_⟩
    · unfold joined
      rw [List.foldl_append, List.foldl_cons, List.foldl_nil]
    · rcases List.mem_append.mp hname with hin | hlast
      · exact hcomponents name hin
      · rw [List.mem_singleton.mp hlast]
        exact component

theorem PathOf.byteLength_le (h : PathOf pool root descendants dir (i + 1) path) : byteLength path ≤ maxPathBytes := by
  cases h with
  | child _ _ _ _ _ _ length _ => exact length

/-- A subtree's answer, whatever its descendants and however many are asked for. What is kept are
the first of them, each with a parent that is the directory or kept before it and lists it, and
no more entries than were asked for and than the driver takes; the other listings that were
decoded are released. Publishing them stays within its arrays, and each is published under its
path where it has one and not at all where it has none: the directory and the names along its
parents, each a component, and no longer than the cache takes. -/
theorem subtree_answers (U : Utf8) (N : Names) (pool : ℕ → Bool) (bodyLen : ℕ) (root : DirectoryInfo) (array : Bool)
    (flatDescendants : Option (Vec (Option FlatDescendant))) (maxEntries : ℕ) :
    let decoding := decodeDescendants U N pool bodyLen root array flatDescendants maxEntries
    let kept := decoding.descendants
    (∀ i e, kept[i]? = some e → ∃ flat, (flatDescendants.elim [] (·.toList))[i]? = some flat ∧ Kept U N bodyLen root (kept.take i) flat e) ∧
    (kept.map (·.listing.entries)).sum ≤ min maxEntries subtreeMaxEntries ∧
    decoding.handed.Perm (kept.map (·.listing) ++ decoding.released) ∧
    ∀ (moments : ℕ → Moment) (pool : ℕ → Bool) (array : Bool) (ticket : Option Ticket) (dir : Path) (c : Caches), ∃ published,
      publishDescendants N moments pool root kept ticket array dir c = some published ∧
      published.caches = publishAll N moments kept ticket published.publishes c ∧
      (∀ i path, (i, path) ∈ published.publishes ↔ dir ≠ [] ∧ array = true ∧ PathOf pool root kept dir (i + 1) path) ∧
      ∀ i path, (i, path) ∈ published.publishes → byteLength path ≤ maxPathBytes ∧
        ∃ names, NamesTo root kept (i + 1) names ∧ path = joined dir names ∧ ∀ name ∈ names, isComponent name = true := by
  intro decoding kept
  have hkept : KeptAll U N bodyLen root (min maxEntries subtreeMaxEntries) (flatDescendants.elim [] (·.toList)) decoding :=
    decodeDescendants_kept array flatDescendants maxEntries
  refine ⟨hkept.kept, hkept.entries, hkept.owned, fun moments pool array ticket dir c => ?_⟩
  unfold publishDescendants
  by_cases hnothing : dir = [] ∨ kept.length = 0 ∨ array = false
  · rw [if_pos hnothing]
    refine ⟨_, rfl, rfl, fun i path => ⟨nofun, fun ⟨hdir, harray, hpath⟩ => ?_⟩, nofun⟩
    rcases hnothing with hnil | hempty | hno
    · exact absurd hnil hdir
    · cases hpath with
      | child at_ =>
        have hlt := (List.getElem?_eq_some_iff.mp at_).1
        omega
    · rw [harray] at hno
      cases hno
  · rw [if_neg hnothing]
    obtain ⟨hdir, -, harray⟩ := (not_or.trans (and_congr_right fun _ => not_or)).mp hnothing
    obtain ⟨published, hrun, hpublished⟩ := publishTurns_published (i := kept.length) hdir (published_dir (N := N) c) (Nat.le_refl _)
    refine ⟨published, hrun, hpublished.caches, fun i path => ?_, fun i path hmem => ?_⟩
    · rw [hpublished.publishes]
      constructor
      · exact fun ⟨_, hpath⟩ => ⟨hdir, Bool.not_eq_false _ ▸ harray, hpath⟩
      · rintro ⟨-, -, hpath⟩
        refine ⟨?_, hpath⟩
        cases hpath with
        | child at_ => exact (List.getElem?_eq_some_iff.mp at_).1
    · have hpath := ((hpublished.publishes i path).mp hmem).2
      exact ⟨hpath.byteLength_le, hpath.names⟩

end BlorgFS.Directory

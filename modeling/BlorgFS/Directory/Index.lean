import BlorgFS.Directory.Block

/-! The index of a listing's names. Its chains run through the entries of one hash in the order
of the listing, so a lookup finds the entry a scan of the listing would. -/

namespace BlorgFS.Directory

open Lib
open Http (checkedAdd checkedAdd_of_lt checkedAdd_eq_some)
open PathCache (WChar Path Names Same)

variable {N : Names} {d : DirectoryInfo} {entries turns k entry chain : ℕ} {name : Path}

/-! ### The layout -/

theorem growChains_spec (he : entries ≤ 2 ^ 30) : ∀ {turns k : ℕ}, k ≤ 30 → 30 < k + turns →
    ∃ j ≤ 30, growChains entries turns (2 ^ k) = some (2 ^ j) ∧ entries ≤ 2 ^ j
  | 0, k, hk, ht => absurd ht (by omega)
  | turns + 1, k, hk, ht => by
    unfold growChains
    split_ifs with hlt
    · have hk' : k + 1 ≤ 30 := by
        by_contra hgt
        obtain rfl : k = 30 := by omega
        omega
      have hdouble : ulong (2 ^ k * 2) = 2 ^ (k + 1) := by
        rw [← Nat.pow_succ]
        exact ulong_of_lt (Nat.pow_lt_pow_right (by decide) (by omega))
      rw [hdouble]
      exact growChains_spec he hk' (by omega)
    · exact ⟨k, hk, rfl, not_lt.mp hlt⟩

/-- The layout of a block with that many bytes of names, in numbers that do not wrap. -/
structure Laid (d : DirectoryInfo) (nameBytes : ℕ) : Prop where
  entries : d.entries ≤ maxULong / 4
  chains : ∃ k ≤ 30, d.indexMask + 1 = 2 ^ k ∧ d.entries ≤ 2 ^ k
  filesOffset : d.filesOffset = sizeofDirectoryInfo
  subDirsOffset : d.subDirsOffset = d.filesOffset + d.fileCount * sizeofFileMetadata
  indexOffset : d.indexOffset = d.subDirsOffset + d.subDirCount * sizeofSubDirMetadata
  namesOffset : d.namesOffset = d.indexOffset + (d.indexMask + 1 + d.entries) * sizeofULong
  bytes : d.bytes = d.namesOffset + nameBytes
  bytes_lt : d.bytes < 2 ^ 64

theorem checkedAdd_lt {a b c : ℕ} (h : checkedAdd a b = some c) : c < 2 ^ 64 := by
  simp only [checkedAdd] at h
  split_ifs at h
  exact Option.some.inj h ▸ Nat.mod_lt _ (by decide)

/-- What the allocator lays out is as wide as it says, and its index is empty. -/
theorem laid_of_allocate {pool : Bool} {fileCount subDirCount nameBytes : ℕ} (hf : fileCount < 2 ^ 64)
    (hs : subDirCount < 2 ^ 64) (hb : nameBytes < 2 ^ 64) (h : allocateDirectoryInfo pool fileCount subDirCount nameBytes = some d) :
    Laid d nameBytes ∧ d.fileCount = fileCount ∧ d.subDirCount = subDirCount ∧ d.index = fun _ => 0 := by
  obtain ⟨entries, hadd, h⟩ := Option.bind_eq_some_iff.mp h
  obtain rfl := checkedAdd_eq_some hf hs hadd
  by_cases hmany : fileCount + subDirCount > maxULong / 4
  · rw [if_pos hmany] at h
    cases h
  rw [if_neg hmany] at h
  have hle : fileCount + subDirCount ≤ maxULong / 4 := not_lt.mp hmany
  have hle' : fileCount + subDirCount ≤ 2 ^ 30 := le_trans hle (by decide)
  obtain ⟨chains, hgrow, h⟩ := Option.bind_eq_some_iff.mp h
  obtain ⟨j, hj, hgrown, hroom⟩ := @growChains_spec _ hle' 33 0 (Nat.zero_le 30) (by decide)
  obtain rfl : chains = 2 ^ j := Option.some.inj (hgrow.symm.trans hgrown)
  have hpos : 0 < 2 ^ j := Nat.two_pow_pos j
  have hpow : 2 ^ j ≤ 2 ^ 30 := Nat.pow_le_pow_right (by decide) hj
  obtain ⟨bytes, hbytes, h⟩ := Option.bind_eq_some_iff.mp h
  cases pool with
  | false => cases h
  | true =>
    have hmask : ulongSub (2 ^ j) 1 + 1 = 2 ^ j := by
      rw [ulongSub_of_le hpos (by omega)]
      omega
    have h1 : ulong64 (fileCount * sizeofFileMetadata) = fileCount * sizeofFileMetadata :=
      ulong64_of_lt (by unfold sizeofFileMetadata; omega)
    have h2 : ulong64 (subDirCount * sizeofSubDirMetadata) = subDirCount * sizeofSubDirMetadata :=
      ulong64_of_lt (by unfold sizeofSubDirMetadata; omega)
    have h3 : ulong64 (ulong64 (2 ^ j + (fileCount + subDirCount)) * sizeofULong) =
        (2 ^ j + (fileCount + subDirCount)) * sizeofULong := by
      rw [ulong64_of_lt (n := 2 ^ j + _) (by omega)]
      exact ulong64_of_lt (by unfold sizeofULong; omega)
    have hfiles : fileCount * sizeofFileMetadata ≤ 2 ^ 36 := by unfold sizeofFileMetadata; omega
    have hsubDirs : subDirCount * sizeofSubDirMetadata ≤ 2 ^ 36 := by unfold sizeofSubDirMetadata; omega
    have hindex : (2 ^ j + (fileCount + subDirCount)) * sizeofULong ≤ 2 ^ 33 := by unfold sizeofULong; omega
    have hheader : sizeofDirectoryInfo ≤ 2 ^ 36 := by decide
    rw [h1, ulong64_of_lt (n := sizeofDirectoryInfo + _) (by omega), h2, ulong64_of_lt (n := _ + subDirCount * _) (by omega), h3,
      ulong64_of_lt (by omega)] at hbytes h
    have hnames := checkedAdd_eq_some (by omega) hb hbytes
    obtain rfl := Option.some.inj h
    exact ⟨⟨hle, ⟨j, hj, hmask, hroom⟩, rfl, rfl, rfl, by rw [hmask]; rfl, hnames, checkedAdd_lt hbytes⟩, rfl, rfl, rfl⟩

/-! ### The chains -/

/-- The entry a link or a head names; zero ends a chain. -/
def position (link : ℕ) : Option ℕ := if link = 0 then none else some (link - 1)

@[simp] theorem position_zero : position 0 = none := rfl

@[simp] theorem position_succ (entry : ℕ) : position (entry + 1) = some entry := rfl

namespace DirectoryInfo

/-- The first entry of a chain. -/
def first (d : DirectoryInfo) (chain : ℕ) : Option ℕ := position (d.index chain)

/-- The entry after another in its chain. -/
def following (d : DirectoryInfo) (entry : ℕ) : Option ℕ := position (d.index (d.listingLinks + entry))

/-- The chain an entry is in. -/
def chainOf (N : Names) (d : DirectoryInfo) (entry : ℕ) : ℕ := d.listingChain N (d.entryName entry)

end DirectoryInfo

/-- A chain's number is one of a head. -/
theorem listingChain_le (hd : d.indexMask + 1 ≤ 2 ^ 30) : d.listingChain N name ≤ d.indexMask := by
  have hmixed : ulong ((N.hashUnicodeString name).getD 0 * 0x9E3779B1) < 2 ^ 32 := Nat.mod_lt _ (by decide)
  unfold DirectoryInfo.listingChain
  dsimp only
  generalize ulong ((N.hashUnicodeString name).getD 0 * 0x9E3779B1) = mixed at *
  rw [ulong64_of_lt (n := d.indexMask + 1) (by omega)]
  have hproduct : mixed * (d.indexMask + 1) < 2 ^ 32 * (d.indexMask + 1) := Nat.mul_lt_mul_of_pos_right hmixed (Nat.succ_pos _)
  rw [ulong64_of_lt (by omega)]
  have hchain : mixed * (d.indexMask + 1) / 2 ^ 32 < d.indexMask + 1 := Nat.div_lt_of_lt_mul hproduct
  rw [ulong_of_lt (by omega)]
  omega

/-- The names are unchanged by the index. -/
@[simp] theorem entryName_link : (d.link N entry).entryName k = d.entryName k := rfl

@[simp] theorem listingChain_link : (d.link N entry).listingChain N name = d.listingChain N name := rfl

@[simp] theorem chainOf_link : (d.link N entry).chainOf N k = d.chainOf N k := rfl

theorem following_link (hd : d.indexMask + 1 ≤ 2 ^ 30) : (d.link N entry).following = Function.update d.following entry (d.first (d.chainOf N entry)) := by
  have hchain : d.chainOf N entry ≤ d.indexMask := listingChain_le hd
  funext e
  have hne : d.listingLinks + e ≠ d.chainOf N entry := by
    unfold DirectoryInfo.listingLinks
    omega
  change position (Function.update (Function.update d.index (d.listingLinks + entry) _) (d.chainOf N entry) _ (d.listingLinks + e)) = _
  rw [Function.update_of_ne hne]
  by_cases he : e = entry
  · rw [he, Function.update_self, Function.update_self]
    rfl
  · rw [Function.update_of_ne (by omega), Function.update_of_ne he]
    rfl

theorem first_link (he : entry + 1 < 2 ^ 32) (hc : chain ≤ d.indexMask) :
    (d.link N entry).first chain = if chain = d.chainOf N entry then some entry else d.first chain := by
  change position (Function.update (Function.update d.index (d.listingLinks + entry) _) (d.chainOf N entry) (ulong (entry + 1)) chain) = _
  split_ifs with hsame
  · rw [hsame, Function.update_self, ulong_of_lt he, position_succ]
  · rw [Function.update_of_ne hsame, Function.update_of_ne (by unfold DirectoryInfo.listingLinks; omega)]
    rfl

/-- Each chain runs in order through the entries from `k` on that are in it. -/
def Chained (N : Names) (d : DirectoryInfo) (k : ℕ) : Prop :=
  ∀ chain ≤ d.indexMask, Linked d.following (d.first chain) ((List.range' k (d.entries - k)).filter fun e => d.chainOf N e = chain)

theorem Chained.link (hd : d.indexMask + 1 ≤ 2 ^ 30) (he : entry < d.entries) (hle : d.entries ≤ 2 ^ 30)
    (h : Chained N d (entry + 1)) : Chained N (d.link N entry) entry := by
  intro chain hc
  have hc' : chain ≤ d.indexMask := hc
  have hrange : List.range' entry (d.entries - entry) = entry :: List.range' (entry + 1) (d.entries - (entry + 1)) := by
    obtain ⟨m, hm⟩ : ∃ m, d.entries - entry = m + 1 := ⟨d.entries - entry - 1, by omega⟩
    rw [hm, List.range'_succ, show d.entries - (entry + 1) = m by omega]
  have hlinked := h chain hc'
  have hnot : entry ∉ (List.range' (entry + 1) (d.entries - (entry + 1))).filter fun e => d.chainOf N e = chain := by
    intro hmem
    have := List.mem_range'_1.mp (List.mem_filter.mp hmem).1
    omega
  change Linked (d.link N entry).following ((d.link N entry).first chain) ((List.range' entry (d.entries - entry)).filter fun e => d.chainOf N e = chain)
  rw [following_link hd, first_link (by omega) hc', hrange]
  by_cases hsame : chain = d.chainOf N entry
  · rw [if_pos hsame, List.filter_cons_of_pos (by simpa using hsame.symm), ← hsame]
    exact hlinked.push hnot
  · rw [if_neg hsame, List.filter_cons_of_neg (by simpa using Ne.symm hsame)]
    refine hlinked.congr fun e hmem => Function.update_of_ne ?_ _ _
    rintro rfl
    exact hnot hmem

theorem Chained.linkFrom : ∀ {entry : ℕ} {d : DirectoryInfo}, d.indexMask + 1 ≤ 2 ^ 30 → d.entries ≤ 2 ^ 30 →
    entry ≤ d.entries → Chained N d entry → Chained N (d.linkFrom N entry) 0
  | 0, _, _, _, _, h => h
  | _ + 1, _, hd, hle, he, h => Chained.linkFrom (d := DirectoryInfo.link _ N _) hd hle (Nat.le_of_succ_le he) (h.link hd he hle)

/-- What the index is built over. -/
theorem linkFrom_frame : ∀ (entry : ℕ) (d : DirectoryInfo), ∃ index, d.linkFrom N entry = { d with index := index }
  | 0, d => ⟨d.index, rfl⟩
  | entry + 1, d => by
    obtain ⟨index, he⟩ := linkFrom_frame entry (d.link N entry)
    exact ⟨index, he⟩

/-- The chains of an index that was just built. -/
theorem chained_indexDirectoryInfo (hd : d.indexMask + 1 ≤ 2 ^ 30) (hle : d.entries ≤ 2 ^ 30) (h0 : d.index = fun _ => 0) :
    Chained N (d.indexDirectoryInfo N) 0 := by
  refine Chained.linkFrom hd hle le_rfl fun chain _ => ?_
  rw [Nat.sub_self, List.range'_zero, List.filter_nil, Linked.nil_iff, DirectoryInfo.first, h0]
  rfl

/-! ### The lookup -/

/-- The walk along a chain finds the first of its entries with that name. -/
theorem findFrom_of_linked : ∀ {l : List ℕ} {link turns : ℕ}, Linked d.following (position link) l → l.length < turns →
    d.findFrom N name turns link = some (l.find? fun e => N.equal (d.entryName e) name)
  | [], link, turns + 1, hl, _ => by
    have h0 : link = 0 := by
      by_contra hne
      rw [Linked.nil_iff, position, if_neg hne] at hl
      cases hl
    rw [DirectoryInfo.findFrom, if_pos h0]
    rfl
  | e :: l, link, turns + 1, hl, hlt => by
    obtain ⟨hpos, hrest⟩ := Linked.cons_iff.mp hl
    obtain rfl : link = e + 1 := by
      unfold position at hpos
      split_ifs at hpos with h0
      have := Option.some.inj hpos
      omega
    rw [DirectoryInfo.findFrom, if_neg (Nat.succ_ne_zero e), Nat.add_sub_cancel, List.find?_cons]
    by_cases hequal : N.equal (d.entryName e) name = true
    · rw [if_pos hequal, hequal]
    · rw [if_neg hequal, Bool.eq_false_iff.mpr hequal]
      exact findFrom_of_linked hrest (Nat.lt_of_succ_lt_succ hlt)

/-- Equal names are in one chain. -/
theorem listingChain_congr {p q : Path} (h : Same N p q) : d.listingChain N p = d.listingChain N q := by
  unfold DirectoryInfo.listingChain
  rw [N.hash_congr p q h]

theorem findDirectoryEntry_of_chained (hd : d.indexMask + 1 ≤ 2 ^ 30) (h : Chained N d 0) (ht : d.entries < turns) :
    d.findDirectoryEntry N turns name = some ((List.range d.entries).find? fun e => N.equal (d.entryName e) name) := by
  have hl := h (d.listingChain N name) (listingChain_le hd)
  rw [Nat.sub_zero, ← List.range_eq_range'] at hl
  have hlen := List.length_filter_le (fun e => d.chainOf N e = d.listingChain N name) (List.range d.entries)
  rw [List.length_range] at hlen
  rw [DirectoryInfo.findDirectoryEntry, findFrom_of_linked hl (by omega), List.find?_filter]
  congr 2
  funext e
  by_cases hequal : N.equal (d.entryName e) name = true
  · have hchain : d.chainOf N e = d.listingChain N name := listingChain_congr (PathCache.Names.equal_iff N |>.mp hequal)
    simp [hequal, hchain]
  · simp [Bool.eq_false_iff.mpr hequal]

theorem Laid.mask_le {nameBytes : ℕ} (h : Laid d nameBytes) : d.indexMask + 1 ≤ 2 ^ 30 := by
  obtain ⟨k, hk, he, -⟩ := h.chains
  exact he ▸ Nat.pow_le_pow_right (by decide) hk

/-- The index of a listing, whatever its entries and their names: the block is as wide as it
says, the chains share out the entries and keep their order, and a lookup is a scan. -/
theorem index_scan (N : Names) {pool : Bool} {fileCount subDirCount nameBytes : ℕ} (hf : fileCount < 2 ^ 64) (hs : subDirCount < 2 ^ 64)
    (hb : nameBytes < 2 ^ 64) (ha : allocateDirectoryInfo pool fileCount subDirCount nameBytes = some d)
    (files : ℕ → FileMetadata) (subDirs : ℕ → SubDirMetadata) (names : ℕ → WChar) :
    let filled := { d with files := files, subDirs := subDirs, names := names }
    let indexed := filled.indexDirectoryInfo N
    (Laid indexed nameBytes ∧ indexed.fileCount = fileCount ∧ indexed.subDirCount = subDirCount) ∧
    (∀ name, indexed.listingChain N name ≤ indexed.indexMask) ∧
    (∃ chains : ℕ → List ℕ,
      (∀ c ≤ indexed.indexMask, Linked indexed.following (indexed.first c) (chains c) ∧ (chains c).Pairwise (· < ·)) ∧
      ∀ e, (e < fileCount + subDirCount → ∃! c, c ≤ indexed.indexMask ∧ e ∈ chains c) ∧
        ∀ c ≤ indexed.indexMask, e ∈ chains c → e < fileCount + subDirCount) ∧
    ∀ name turns, fileCount + subDirCount < turns → indexed.findDirectoryEntry N turns name =
      some ((List.range (fileCount + subDirCount)).find? fun e => N.equal (filled.entryName e) name) := by
  intro filled indexed
  obtain ⟨hlaid, rfl, rfl, h0⟩ := laid_of_allocate hf hs hb ha
  obtain ⟨index, hindex⟩ := linkFrom_frame (N := N) filled.entries filled
  have hframe : indexed = { filled with index := index } := hindex
  have hmask : indexed.indexMask + 1 ≤ 2 ^ 30 := by
    rw [hframe]
    exact hlaid.mask_le
  have hentries : indexed.entries = d.fileCount + d.subDirCount := by rw [hframe]; rfl
  have hchained : Chained N indexed 0 :=
    chained_indexDirectoryInfo (d := filled) hlaid.mask_le (le_trans hlaid.entries (by decide)) h0
  refine ⟨⟨?_, by rw [hframe], by rw [hframe]⟩, fun name => listingChain_le hmask, ?_, fun name turns ht => ?_⟩
  · rw [hframe]
    exact ⟨hlaid.entries, hlaid.chains, hlaid.filesOffset, hlaid.subDirsOffset, hlaid.indexOffset, hlaid.namesOffset,
      hlaid.bytes, hlaid.bytes_lt⟩
  · refine ⟨fun c => (List.range indexed.entries).filter fun e => indexed.chainOf N e = c, fun c hc => ⟨?_, ?_⟩, fun e => ⟨fun he => ?_, ?_⟩⟩
    · rw [List.range_eq_range']
      exact hchained c hc
    · exact (List.pairwise_lt_range).filter _
    · refine ⟨indexed.chainOf N e, ⟨listingChain_le hmask, ?_⟩, fun c hc => ?_⟩
      · exact List.mem_filter.mpr ⟨List.mem_range.mpr (hentries ▸ he), decide_eq_true rfl⟩
      · exact (of_decide_eq_true (List.mem_filter.mp hc.2).2).symm
    · intro c _ hmem
      exact hentries ▸ List.mem_range.mp (List.mem_filter.mp hmem).1
  · rw [findDirectoryEntry_of_chained hmask hchained (hentries ▸ ht), hentries, hframe]
    rfl

/-- Two files and a directory, the first and the last of names equal but for case. -/
def threeNames : ℕ → WChar
  | 0 => 0x41
  | 2 => 0x62
  | 4 => 0x61
  | _ => 0

theorem index_scan_threeNames : ∃ d, allocateDirectoryInfo true 2 1 12 = some d ∧
    ({ d with
        files := fun e => { nameLength := 1, name := 2 * e }
        subDirs := fun _ => { nameLength := 1, name := 4 }
        names := threeNames }.indexDirectoryInfo PathCache.asciiNames).findDirectoryEntry PathCache.asciiNames 4 [0x61] = some (some 0) := by
  obtain ⟨d, hd⟩ := Option.isSome_iff_exists.mp (show (allocateDirectoryInfo true 2 1 12).isSome = true by decide)
  obtain ⟨-, -, -, hfind⟩ := index_scan PathCache.asciiNames (by decide) (by decide) (by decide) hd
    (fun e => { nameLength := 1, name := 2 * e }) (fun _ => { nameLength := 1, name := 4 }) threeNames
  refine ⟨d, hd, (hfind [0x61] 4 (by decide)).trans ?_⟩
  have hfiles : d.fileCount = 2 := (laid_of_allocate (by decide) (by decide) (by decide) hd).2.1
  simp only [DirectoryInfo.entryName, hfiles]
  decide

end BlorgFS.Directory

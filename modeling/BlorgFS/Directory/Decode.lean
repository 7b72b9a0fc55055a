import BlorgFS.Directory.Index
import BlorgFS.Directory.Queries
import Mathlib.Data.List.TakeWhile

/-! How a listing is decoded from the server's answer, `HttpDecodeListing`: its names are sized
in one pass over the table and converted in a second, one behind the other with a NUL behind
each. A lookup goes by a name's count of characters, an enumeration by its NUL. -/

namespace BlorgFS.Directory

open Lib
open Http (checkedAdd checkedAdd_eq_some)
open PathCache (WChar Path Names Same maxNameLen)

/-! ### Tables -/

/-- A FlatBuffers vector or string, whose length is a `uint32`. -/
structure Vec (α : Type) where
  toList : List α
  length_lt : toList.length < 2 ^ 32

def Vec.length {α : Type} (v : Vec α) : ℕ := v.toList.length

/-- `FileEntryMetadata`. -/
structure FlatFile where
  name : Option (Vec UInt8)
  size : ℕ := 0
  created : ℕ := 0
  accessed : ℕ := 0
  modified : ℕ := 0

/-- `SubdirectoryMetadata`. -/
structure FlatSubDir where
  name : Option (Vec UInt8)
  created : ℕ := 0
  accessed : ℕ := 0
  modified : ℕ := 0

/-- `Directory`, but for its descendants. A vector's elements may be null, as the decoder
allows. -/
structure FlatDirectory where
  files : Option (Vec (Option FlatFile))
  subdirectories : Option (Vec (Option FlatSubDir))

namespace FlatDirectory

variable (t : FlatDirectory)

def fileEntries : List (Option FlatFile) := t.files.elim [] (·.toList)

def subDirEntries : List (Option FlatSubDir) := t.subdirectories.elim [] (·.toList)

def fileNames : List (Option (Vec UInt8)) := t.fileEntries.map (·.bind (·.name))

def subDirNames : List (Option (Vec UInt8)) := t.subDirEntries.map (·.bind (·.name))

/-- The names of the entries, files before subdirectories. -/
def names : List (Option (Vec UInt8)) := t.fileNames ++ t.subDirNames

end FlatDirectory

/-- The bytes of a name the first pass let through. -/
def bytesOf (name : Option (Vec UInt8)) : List UInt8 := name.elim [] (·.toList)

/-- `RtlUTF8ToUnicodeN`: the characters, unless there are more than so many. A sequence that is
no UTF-8 becomes U+FFFD. -/
structure Utf8 where
  toUnicodeN : ℕ → List UInt8 → Option Path
  length_le : ∀ max bytes name, toUnicodeN max bytes = some name → name.length ≤ max
  length_le_bytes : ∀ max bytes name, toUnicodeN max bytes = some name → name.length ≤ bytes.length
  ne_nil : ∀ max bytes name, toUnicodeN max bytes = some name → bytes ≠ [] → name ≠ []
  zero_mem : ∀ max bytes name, toUnicodeN max bytes = some name → (0 ∈ name ↔ 0 ∈ bytes)

/-! ### The decoder -/

/-- `HTTP_MIN_LISTING_ENTRY_WIRE_BYTES`. -/
def minListingEntryWireBytes : ℕ := 4

/-- `HttpListingCountsAreCredible`. -/
def listingCountsAreCredible (subDirCount filesCount bodyLen : ℕ) : Bool :=
  (checkedAdd subDirCount filesCount).any (· ≤ bodyLen / minListingEntryWireBytes)

/-- The first pass: the bytes the names take at most. -/
def sizeNames : ℕ → List (Option (Vec UInt8)) → Option ℕ
  | nameBytes, [] => some nameBytes
  | _, none :: _ => none
  | nameBytes, some name :: names =>
    if name.length = 0 then none
    else (checkedAdd nameBytes ((name.length + 1) * 2)).bind fun nameBytes => sizeNames nameBytes names

variable (U : Utf8)

/-- `HttpDecodeName`: the characters where the cursor is, how many, and where it goes. -/
def decodeName (utf8 : List UInt8) (names : ℕ → WChar) (cursor : ℕ) : Option ((ℕ → WChar) × ℕ × ℕ) :=
  (U.toUnicodeN (maxNameLen - 1) utf8).map fun name => (store names cursor name, name.length, cursor + (name.length + 1))

namespace DirectoryInfo

/-- What the second pass makes of a file, its name being where and as long as given. -/
def putFile (d : DirectoryInfo) (i : ℕ) (file : Option FlatFile) (name nameLength : ℕ) : DirectoryInfo :=
  { d with files := Function.update d.files i {
      size := file.elim 0 (·.size)
      creationTime := file.elim 0 (·.created)
      lastAccessedTime := file.elim 0 (·.accessed)
      lastModifiedTime := file.elim 0 (·.modified)
      nameLength := nameLength
      name := name } }

/-- What the second pass makes of a subdirectory. -/
def putSubDir (d : DirectoryInfo) (i : ℕ) (sub : Option FlatSubDir) (name nameLength : ℕ) : DirectoryInfo :=
  { d with subDirs := Function.update d.subDirs i {
      creationTime := sub.elim 0 (·.created)
      lastAccessedTime := sub.elim 0 (·.accessed)
      lastModifiedTime := sub.elim 0 (·.modified)
      nameLength := nameLength
      name := name } }

end DirectoryInfo

section Entries

variable {α : Type} (nameOf : α → Option (Vec UInt8)) (put : DirectoryInfo → ℕ → α → ℕ → ℕ → DirectoryInfo)

/-- The second pass over the entries of one kind: the listing and the cursor. -/
def decodeEntries : List α → ℕ → DirectoryInfo → ℕ → Option (DirectoryInfo × ℕ)
  | [], _, d, cursor => some (d, cursor)
  | entry :: entries, i, d, cursor =>
    (decodeName U (bytesOf (nameOf entry)) d.names cursor).bind fun (names, nameLength, next) =>
      decodeEntries entries (i + 1) { put d i entry cursor nameLength with names := names } next

end Entries

def decodeFiles := decodeEntries U (fun file : Option FlatFile => file.bind (·.name)) DirectoryInfo.putFile

def decodeSubDirs := decodeEntries U (fun sub : Option FlatSubDir => sub.bind (·.name)) DirectoryInfo.putSubDir

inductive DecodeError where
  | invalidParameter
  | insufficientResources
  | nameConversion
deriving DecidableEq

/-- `HttpDecodeListing`; `pool` says whether the block was allocated. -/
def decodeListing (N : Names) (pool : Bool) (directory : FlatDirectory) (bodyLen : ℕ) (noStore : Bool) : Except DecodeError DirectoryInfo :=
  let subDirCount := directory.subDirEntries.length
  let filesCount := directory.fileEntries.length
  if listingCountsAreCredible subDirCount filesCount bodyLen then
    match sizeNames 0 directory.names with
    | none => .error .invalidParameter
    | some nameBytes =>
      match allocateDirectoryInfo pool filesCount subDirCount nameBytes with
      | none => .error .insufficientResources
      | some d =>
        match (decodeFiles U directory.fileEntries 0 d 0).bind fun (d, cursor) => decodeSubDirs U directory.subDirEntries 0 d cursor with
        | none => .error .nameConversion
        | some (d, _) => .ok { d.indexDirectoryInfo N with noStore := noStore }
  else .error .invalidParameter

variable {U} {N : Names} {d d' : DirectoryInfo} {listed : List (List UInt8)} {bytes : List UInt8} {name : Path} {cursor cursor' entry : ℕ}

/-! ### The first pass -/

/-- The first pass lets only names through that are there and not empty, and counts two bytes
for each of theirs and for a NUL. -/
theorem sizeNames_spec : ∀ {names : List (Option (Vec UInt8))} {total nameBytes : ℕ}, total < 2 ^ 64 → sizeNames total names = some nameBytes →
    (∀ name ∈ names, bytesOf name ≠ []) ∧ nameBytes < 2 ^ 64 ∧ nameBytes = total + 2 * (names.map fun name => (bytesOf name).length + 1).sum
  | [], total, nameBytes, ht, h => by
    obtain rfl := Option.some.inj h
    exact ⟨nofun, ht, rfl⟩
  | none :: names, total, nameBytes, ht, h => by cases h
  | some name :: names, total, nameBytes, ht, h => by
    unfold sizeNames at h
    by_cases h0 : name.length = 0
    · rw [if_pos h0] at h
      cases h
    rw [if_neg h0] at h
    obtain ⟨next, hadd, h⟩ := Option.bind_eq_some_iff.mp h
    have hlt : name.length < 2 ^ 32 := name.length_lt
    have hnext := checkedAdd_eq_some ht (by omega) hadd
    obtain ⟨hall, hbound, hsum⟩ := sizeNames_spec (checkedAdd_lt hadd) h
    refine ⟨fun other hmem => ?_, hbound, ?_⟩
    · rcases List.mem_cons.mp hmem with rfl | hmem
      · exact fun hnil => h0 (congrArg List.length hnil)
      · exact hall other hmem
    · have hlen : (bytesOf (some name)).length = name.length := rfl
      rw [List.map_cons, List.sum_cons, hlen]
      omega

/-! ### The names as they are kept -/

/-- Where an entry's name starts and how many characters it counts. -/
def DirectoryInfo.named (d : DirectoryInfo) (entry : ℕ) : ℕ × ℕ :=
  if entry < d.fileCount then ((d.files entry).name, (d.files entry).nameLength)
  else ((d.subDirs (entry - d.fileCount)).name, (d.subDirs (entry - d.fileCount)).nameLength)

theorem entryName_named : d.entryName entry = load d.names (d.named entry).1 ((d.named entry).2 * 2 % 2 ^ 16 / 2) := rfl

theorem entryAt_named : (d.entryAt entry).name = initUnicodeString d.names (d.named entry).1 := by
  unfold DirectoryInfo.entryAt DirectoryInfo.named
  by_cases h : entry < d.fileCount
  · rw [if_neg (by omega), if_pos h]
  · rw [if_pos (by omega), if_neg h]

/-- The entries so far have their names below the cursor, each with a NUL behind it, and from
the cursor on there is nothing yet. -/
structure Packed (U : Utf8) (listed : List (List UInt8)) (d : DirectoryInfo) (cursor : ℕ) : Prop where
  held : ∀ entry bytes, listed[entry]? = some bytes → ∃ name, U.toUnicodeN (maxNameLen - 1) bytes = some name ∧
    (d.named entry).2 = name.length ∧ (d.named entry).1 + (name.length + 1) ≤ cursor ∧
    load d.names (d.named entry).1 (name.length + 1) = name ++ [0]
  blank : ∀ a, cursor ≤ a → d.names a = 0
  cursor_le : cursor ≤ (listed.map fun bytes => bytes.length + 1).sum

theorem Packed.put (h : Packed U listed d cursor) (hname : U.toUnicodeN (maxNameLen - 1) bytes = some name)
    (hnames : d'.names = store d.names cursor name) (hnamed : d'.named = Function.update d.named listed.length (cursor, name.length)) :
    Packed U (listed ++ [bytes]) d' (cursor + (name.length + 1)) where
  held entry bytes' hat := by
    rw [hnames, hnamed]
    by_cases hnew : entry = listed.length
    · rw [hnew, List.getElem?_concat_length] at hat
      obtain rfl := Option.some.inj hat
      rw [hnew, Function.update_self]
      refine ⟨name, hname, rfl, le_rfl, ?_⟩
      rw [load_add, load_store_self]
      congr 1
      change [store d.names cursor name (cursor + name.length)] = [0]
      rw [store_of_ge le_rfl, h.blank _ (Nat.le_add_right cursor name.length)]
    · have hlt : entry < listed.length := by
        have hlt := (List.getElem?_eq_some_iff.mp hat).1
        rw [List.length_append, List.length_singleton] at hlt
        omega
      rw [List.getElem?_append_left hlt] at hat
      obtain ⟨old, hconverted, hlength, hbelow, hload⟩ := h.held entry bytes' hat
      rw [Function.update_of_ne hnew]
      exact ⟨old, hconverted, hlength, by omega, by rw [load_store_below hbelow, hload]⟩
  blank a ha := by
    rw [hnames, store_of_ge (by omega)]
    exact h.blank a (by omega)
  cursor_le := by
    have hle := h.cursor_le
    have hbytes := U.length_le_bytes _ _ _ hname
    rw [List.map_append, List.sum_append, List.map_singleton, List.sum_singleton]
    omega

section Entries

variable {α : Type} {nameOf : α → Option (Vec UInt8)} {put : DirectoryInfo → ℕ → α → ℕ → ℕ → DirectoryInfo} {fileCount : ℕ}

/-- The second pass over the entries of one kind adds their names to those before. -/
theorem decodeEntries_packed (base bound : ℕ)
    (hput : ∀ (d : DirectoryInfo) i entry name nameLength, d.fileCount = fileCount → i < bound →
      (put d i entry name nameLength).named = Function.update d.named (base + i) (name, nameLength))
    (hframe : ∀ d i entry name nameLength, ∃ files subDirs, put d i entry name nameLength = { d with files := files, subDirs := subDirs }) :
    ∀ {entries : List α} {i : ℕ} {listed : List (List UInt8)} {d : DirectoryInfo} {cursor : ℕ}, d.fileCount = fileCount →
      i + entries.length ≤ bound → listed.length = base + i → Packed U listed d cursor →
      decodeEntries U nameOf put entries i d cursor = some (d', cursor') →
      Packed U (listed ++ entries.map fun entry => bytesOf (nameOf entry)) d' cursor' ∧
        ∃ files subDirs names, d' = { d with files := files, subDirs := subDirs, names := names }
  | [], i, listed, d, cursor, _, _, _, hpacked, h => by
    obtain ⟨rfl, rfl⟩ := Prod.mk.inj (Option.some.inj h)
    rw [List.map_nil, List.append_nil]
    exact ⟨hpacked, d.files, d.subDirs, d.names, rfl⟩
  | entry :: entries, i, listed, d, cursor, hcount, hbound, hlisted, hpacked, h => by
    rw [List.length_cons] at hbound
    obtain ⟨⟨names, nameLength, next⟩, hdecode, h⟩ := Option.bind_eq_some_iff.mp h
    obtain ⟨name, hname, hresult⟩ := Option.map_eq_some_iff.mp hdecode
    obtain ⟨rfl, rfl, rfl⟩ : store d.names cursor name = names ∧ name.length = nameLength ∧ cursor + (name.length + 1) = next := by
      simpa using hresult
    obtain ⟨files, subDirs, hputs⟩ := hframe d i entry cursor name.length
    have hnamed := hput d i entry cursor name.length hcount (by omega)
    rw [← hlisted] at hnamed
    have hpacked' : Packed U (listed ++ [bytesOf (nameOf entry)]) { put d i entry cursor name.length with names := store d.names cursor name }
        (cursor + (name.length + 1)) := hpacked.put hname rfl hnamed
    have hcount' : (put d i entry cursor name.length).fileCount = fileCount := by
      rw [hputs]
      exact hcount
    obtain ⟨hfinal, files', subDirs', names', hd⟩ := decodeEntries_packed base bound hput hframe (d := { put d i entry cursor name.length with names := store d.names cursor name })
      hcount' (by omega) (by rw [List.length_append, List.length_singleton, hlisted, Nat.add_assoc]) hpacked' h
    rw [List.append_assoc] at hfinal
    refine ⟨hfinal, files', subDirs', names', ?_⟩
    rw [hd, hputs]

end Entries

theorem named_putFile {i nameAt nameLength : ℕ} {file : Option FlatFile} (hi : i < d.fileCount) :
    (d.putFile i file nameAt nameLength).named = Function.update d.named i (nameAt, nameLength) := by
  funext e
  by_cases he : e = i
  · rw [he, Function.update_self, DirectoryInfo.named, if_pos (show i < (d.putFile i file nameAt nameLength).fileCount from hi)]
    simp only [DirectoryInfo.putFile, Function.update_self]
  · rw [Function.update_of_ne he]
    unfold DirectoryInfo.named DirectoryInfo.putFile
    dsimp only
    rw [Function.update_of_ne he]

theorem named_putSubDir {i nameAt nameLength : ℕ} {sub : Option FlatSubDir} :
    (d.putSubDir i sub nameAt nameLength).named = Function.update d.named (d.fileCount + i) (nameAt, nameLength) := by
  funext e
  by_cases he : e = d.fileCount + i
  · rw [he, Function.update_self, DirectoryInfo.named, if_neg (show ¬ d.fileCount + i < (d.putSubDir i sub nameAt nameLength).fileCount from Nat.not_lt.mpr (Nat.le_add_right _ _))]
    simp only [DirectoryInfo.putSubDir, Nat.add_sub_cancel_left, Function.update_self]
  · rw [Function.update_of_ne he]
    unfold DirectoryInfo.named DirectoryInfo.putSubDir
    dsimp only
    by_cases hlt : e < d.fileCount
    · rw [if_pos hlt, if_pos hlt]
    · rw [if_neg hlt, if_neg hlt, Function.update_of_ne (by omega)]

/-! ### What is decoded -/

theorem names_of_allocate {pool : Bool} {fileCount subDirCount nameBytes : ℕ} (h : allocateDirectoryInfo pool fileCount subDirCount nameBytes = some d) :
    d.names = fun _ => 0 := by
  obtain ⟨entries, -, h⟩ := Option.bind_eq_some_iff.mp h
  by_cases hmany : entries > maxULong / 4
  · rw [if_pos hmany] at h
    cases h
  rw [if_neg hmany] at h
  obtain ⟨chains, -, h⟩ := Option.bind_eq_some_iff.mp h
  obtain ⟨bytes, -, h⟩ := Option.bind_eq_some_iff.mp h
  cases pool with
  | false => cases h
  | true =>
    obtain rfl := Option.some.inj h
    rfl

theorem length_entries (t : FlatDirectory) : t.fileEntries.length < 2 ^ 32 ∧ t.subDirEntries.length < 2 ^ 32 := by
  obtain ⟨files, subDirs⟩ := t
  constructor
  · cases files with
    | none => exact Nat.two_pow_pos 32
    | some v => exact v.length_lt
  · cases subDirs with
    | none => exact Nat.two_pow_pos 32
    | some v => exact v.length_lt

/-- A listing that was decoded: its names are in place, in a block they fit, and its index is
that of its names. -/
structure Decoded (N : Names) (U : Utf8) (t : FlatDirectory) (noStore : Bool) (d : DirectoryInfo) : Prop where
  fileCount : d.fileCount = t.fileEntries.length
  subDirCount : d.subDirCount = t.subDirEntries.length
  listed : ∀ name ∈ t.names, bytesOf name ≠ []
  laid : ∃ nameBytes cursor, Laid d nameBytes ∧ Packed U (t.names.map bytesOf) d cursor ∧ 2 * cursor ≤ nameBytes
  chained : Chained N d 0
  noStore : d.noStore = noStore

/-- The two loops of the second pass, from a block without names. -/
theorem decodeBoth_packed {t : FlatDirectory} {blank filled : DirectoryInfo} (hfiles : blank.fileCount = t.fileEntries.length)
    (hsubDirs : blank.subDirCount = t.subDirEntries.length) (hblank : blank.names = fun _ => 0)
    (h : ((decodeFiles U t.fileEntries 0 blank 0).bind fun (d, cursor) => decodeSubDirs U t.subDirEntries 0 d cursor) = some (filled, cursor)) :
    Packed U (t.names.map bytesOf) filled cursor ∧ ∃ files subDirs names, filled = { blank with files := files, subDirs := subDirs, names := names } := by
  obtain ⟨⟨half, middle⟩, hfirst, hsecond⟩ := Option.bind_eq_some_iff.mp h
  have hnone : Packed U [] blank 0 := ⟨nofun, fun a _ => congrFun hblank a, le_rfl⟩
  obtain ⟨hhalf, files, subDirs, names, rfl⟩ := decodeEntries_packed 0 blank.fileCount
    (fun d i entry nameAt nameLength hcount hi => by rw [Nat.zero_add]; exact named_putFile (hcount ▸ hi))
    (fun d i entry nameAt nameLength => ⟨_, _, rfl⟩) rfl (by rw [Nat.zero_add, hfiles]) rfl hnone hfirst
  obtain ⟨hpacked, files', subDirs', names', rfl⟩ := decodeEntries_packed blank.fileCount blank.subDirCount
    (fun d i entry nameAt nameLength hcount _ => by rw [← hcount]; exact named_putSubDir)
    (fun d i entry nameAt nameLength => ⟨_, _, rfl⟩) rfl (by rw [Nat.zero_add, hsubDirs])
    (by rw [List.nil_append, List.length_map, hfiles, Nat.add_zero]) hhalf hsecond
  have hnames : t.names.map bytesOf = [] ++ (t.fileEntries.map fun file => bytesOf (file.bind (·.name))) ++
      t.subDirEntries.map fun sub => bytesOf (sub.bind (·.name)) := by
    rw [FlatDirectory.names, FlatDirectory.fileNames, FlatDirectory.subDirNames, List.map_append, List.map_map, List.map_map]
    rfl
  rw [← hnames] at hpacked
  exact ⟨hpacked, files', subDirs', names', rfl⟩

/-- With the index built the listing is decoded. -/
theorem Packed.decoded {t : FlatDirectory} {noStore : Bool} {nameBytes : ℕ} (h : Packed U (t.names.map bytesOf) d cursor) (hlaid : Laid d nameBytes)
    (hchained : Chained N (d.indexDirectoryInfo N) 0) (hfiles : d.fileCount = t.fileEntries.length) (hsubDirs : d.subDirCount = t.subDirEntries.length)
    (hcursor : 2 * cursor ≤ nameBytes) (hlisted : ∀ name ∈ t.names, bytesOf name ≠ []) :
    Decoded N U t noStore { d.indexDirectoryInfo N with noStore := noStore } := by
  obtain ⟨index, he⟩ := linkFrom_frame (N := N) d.entries d
  rw [DirectoryInfo.indexDirectoryInfo, he] at hchained ⊢
  exact {
    fileCount := hfiles
    subDirCount := hsubDirs
    listed := hlisted
    laid := ⟨nameBytes, cursor, ⟨hlaid.entries, hlaid.chains, hlaid.filesOffset, hlaid.subDirsOffset, hlaid.indexOffset, hlaid.namesOffset,
      hlaid.bytes, hlaid.bytes_lt⟩, ⟨h.held, h.blank, h.cursor_le⟩, hcursor⟩
    chained := hchained
    noStore := rfl }

theorem of_decodeListing {pool noStore : Bool} {t : FlatDirectory} {bodyLen : ℕ} (h : decodeListing U N pool t bodyLen noStore = .ok d) :
    Decoded N U t noStore d := by
  obtain ⟨hfiles, hsubDirs⟩ := length_entries t
  unfold decodeListing at h
  dsimp only at h
  by_cases hcredible : listingCountsAreCredible t.subDirEntries.length t.fileEntries.length bodyLen = true
  swap
  · rw [if_neg hcredible] at h
    cases h
  rw [if_pos hcredible] at h
  cases hsize : sizeNames 0 t.names with
  | none =>
    rw [hsize] at h
    cases h
  | some nameBytes =>
    obtain ⟨hlisted, hnameBytes, hsum⟩ := sizeNames_spec (by decide) hsize
    rw [hsize] at h
    dsimp only at h
    cases halloc : allocateDirectoryInfo pool t.fileEntries.length t.subDirEntries.length nameBytes with
    | none =>
      rw [halloc] at h
      cases h
    | some blank =>
      obtain ⟨hlaid, hfileCount, hsubDirCount, hindex⟩ := laid_of_allocate (by omega) (by omega) hnameBytes halloc
      rw [halloc] at h
      dsimp only at h
      cases hdecode : (decodeFiles U t.fileEntries 0 blank 0).bind fun (d, cursor) => decodeSubDirs U t.subDirEntries 0 d cursor with
      | none =>
        rw [hdecode] at h
        cases h
      | some result =>
        obtain ⟨filled, cursor⟩ := result
        rw [hdecode] at h
        obtain rfl := Except.ok.inj h
        obtain ⟨hpacked, files, subDirs, names, hfilled⟩ := decodeBoth_packed hfileCount hsubDirCount (names_of_allocate halloc) hdecode
        have hcursor : cursor ≤ (t.names.map fun name => (bytesOf name).length + 1).sum := by
          have hle := hpacked.cursor_le
          rw [List.map_map] at hle
          exact hle
        have hlaid' : Laid filled nameBytes := by
          rw [hfilled]
          exact ⟨hlaid.entries, hlaid.chains, hlaid.filesOffset, hlaid.subDirsOffset, hlaid.indexOffset, hlaid.namesOffset, hlaid.bytes, hlaid.bytes_lt⟩
        have hcounts : filled.fileCount = t.fileEntries.length ∧ filled.subDirCount = t.subDirEntries.length ∧ filled.index = fun _ => 0 := by
          rw [hfilled]
          exact ⟨hfileCount, hsubDirCount, hindex⟩
        have hchained : Chained N (filled.indexDirectoryInfo N) 0 :=
          chained_indexDirectoryInfo hlaid'.mask_le (le_trans hlaid'.entries (by decide)) hcounts.2.2
        exact (hpacked.decoded hlaid' hchained hcounts.1 hcounts.2.1 (by omega) hlisted)

/-! ### The names as they are enumerated -/

theorem takeWhile_append_zero (l rest : Path) : (l ++ 0 :: rest).takeWhile (· ≠ 0) = l.takeWhile (· ≠ 0) := by
  induction l with
  | nil => rfl
  | cons c l ih => simp only [List.cons_append, List.takeWhile_cons, ih]

theorem takeWhile_eq_self_of_notMem {l : Path} (h : 0 ∉ l) : l.takeWhile (· ≠ 0) = l := by
  rw [List.takeWhile_eq_self_iff]
  intro c hc
  exact decide_eq_true fun h0 => h (h0 ▸ hc)

theorem length_takeWhile_lt {l : Path} (h : 0 ∈ l) : (l.takeWhile (· ≠ 0)).length < l.length := by
  refine lt_of_le_of_ne (List.takeWhile_sublist _).length_le fun he => ?_
  have hself := (List.takeWhile_prefix (· ≠ 0) (l := l)).eq_of_length he
  rw [List.takeWhile_eq_self_iff] at hself
  exact of_decide_eq_true (hself 0 h) rfl

/-- An entry of a decoded listing: the lookup's name is the one converted, the enumeration's is
what comes of that before a NUL. -/
structure Entered (U : Utf8) (d : DirectoryInfo) (entry : ℕ) (bytes : List UInt8) (name : Path) : Prop where
  converted : U.toUnicodeN (maxNameLen - 1) bytes = some name
  nameLength : (d.named entry).2 = name.length
  entryName : d.entryName entry = name
  enumerated : (d.entryAt entry).name = name.takeWhile (· ≠ 0)

theorem Decoded.entered {t : FlatDirectory} {noStore : Bool} (h : Decoded N U t noStore d) (hat : (t.names.map bytesOf)[entry]? = some bytes) :
    ∃ name, Entered U d entry bytes name := by
  obtain ⟨nameBytes, cursor, -, hpacked, -⟩ := h.laid
  obtain ⟨name, hname, hlength, -, hload⟩ := hpacked.held entry bytes hat
  have hle : name.length ≤ 259 := U.length_le _ _ _ hname
  refine ⟨name, hname, hlength, ?_, ?_⟩
  · rw [entryName_named, hlength, show name.length * 2 % 2 ^ 16 / 2 = name.length by omega, ← load_take (Nat.le_succ name.length), hload, List.take_left']
    rfl
  · rw [entryAt_named, initUnicodeString, show maxUnicodeStringChars = (name.length + 1) + (maxUnicodeStringChars - (name.length + 1)) by unfold maxUnicodeStringChars; omega,
      load_add, hload, List.append_assoc]
    exact takeWhile_append_zero name _

/-! ### Enumerated names -/

/-- Every entry is enumerated under a name that is not empty and as long as the entry says, and
that name finds the entry or an earlier one of the same name. -/
def NamesAgree (N : Names) (d : DirectoryInfo) : Prop :=
  ∀ entry < d.entries, ∃ c, d.candidate entry = some c ∧ c.name ≠ [] ∧ c.name.length = (d.named entry).2 ∧
    ∀ turns, d.entries < turns → ∃ k ≤ entry, d.findDirectoryEntry N turns c.name = some (some k) ∧ Same N (d.entryName k) c.name

theorem length_names (t : FlatDirectory) : t.names.length = t.fileEntries.length + t.subDirEntries.length := by
  rw [FlatDirectory.names, FlatDirectory.fileNames, FlatDirectory.subDirNames, List.length_append, List.length_map, List.length_map]

theorem Decoded.entries {t : FlatDirectory} {noStore : Bool} (h : Decoded N U t noStore d) : d.entries = t.names.length := by
  rw [length_names, DirectoryInfo.entries, h.fileCount, h.subDirCount]

/-- A decoded listing's entries are enumerated under their listed names, and found under them,
exactly when no listed name has a NUL in it. -/
theorem namesAgree_iff {pool noStore : Bool} {t : FlatDirectory} {bodyLen : ℕ} (h : decodeListing U N pool t bodyLen noStore = .ok d) :
    NamesAgree N d ↔ ∀ name ∈ t.names, 0 ∉ bytesOf name := by
  have hd := of_decodeListing h
  constructor
  · intro hagree name hmem hzero
    obtain ⟨entry, hat⟩ := List.mem_iff_getElem?.mp hmem
    have hlt : entry < d.entries := by
      rw [hd.entries]
      exact (List.getElem?_eq_some_iff.mp hat).1
    obtain ⟨chars, hentered⟩ := hd.entered (show (t.names.map bytesOf)[entry]? = some (bytesOf name) by rw [List.getElem?_map, hat]; rfl)
    obtain ⟨c, hc, -, hlength, -⟩ := hagree entry hlt
    obtain rfl := Option.some.inj ((candidate_of_lt hlt).symm.trans hc)
    rw [hentered.enumerated, hentered.nameLength] at hlength
    have hshort := length_takeWhile_lt ((U.zero_mem _ _ _ hentered.converted).mpr hzero)
    omega
  · intro hnul entry hlt
    obtain ⟨nameBytes, cursor, hlaid, -, -⟩ := hd.laid
    obtain ⟨name, hat⟩ : ∃ name, t.names[entry]? = some name := ⟨_, List.getElem?_eq_getElem (hd.entries ▸ hlt)⟩
    have hmem := List.mem_of_getElem? hat
    obtain ⟨chars, hentered⟩ := hd.entered (show (t.names.map bytesOf)[entry]? = some (bytesOf name) by rw [List.getElem?_map, hat]; rfl)
    have hnot : 0 ∉ chars := fun h0 => hnul name hmem ((U.zero_mem _ _ _ hentered.converted).mp h0)
    have hsame : (d.entryAt entry).name = chars := by rw [hentered.enumerated, takeWhile_eq_self_of_notMem hnot]
    refine ⟨d.entryAt entry, candidate_of_lt hlt, ?_, ?_, fun turns hturns => ?_⟩
    · rw [hsame]
      exact U.ne_nil _ _ _ hentered.converted (hd.listed name hmem)
    · rw [hsame, hentered.nameLength]
    · rw [hsame, findDirectoryEntry_of_chained hlaid.mask_le hd.chained hturns]
      -- The entry itself would be found, if none before it is.
      have hself : N.equal (d.entryName entry) chars = true := by
        rw [PathCache.Names.equal_iff, hentered.entryName]
        exact Same.refl chars
      cases hfind : (List.range d.entries).find? fun e => N.equal (d.entryName e) chars with
      | none => exact absurd hself (List.find?_eq_none.mp hfind entry (List.mem_range.mpr hlt))
      | some k =>
        obtain ⟨hequal, -, hfirst⟩ := List.find?_range_eq_some.mp hfind
        refine ⟨k, ?_, rfl, (PathCache.Names.equal_iff N).mp hequal⟩
        by_contra hgt
        have hnot := hfirst entry (by omega)
        rw [hself] at hnot
        cases hnot

/-! ### A name with a NUL -/

def asciiChar (b : UInt8) : WChar := if b < 0x80 then b.toUInt16 else 0xFFFD

theorem asciiChar_eq_zero {b : UInt8} : asciiChar b = 0 ↔ b = 0 := by
  unfold asciiChar
  split_ifs with h
  · rw [← UInt16.toNat_inj, ← UInt8.toNat_inj, UInt8.toNat_toUInt16]
    rfl
  · refine ⟨fun h0 => absurd h0 (by decide), ?_⟩
    rintro rfl
    exact absurd (by decide) h

def asciiToUnicodeN (max : ℕ) (bytes : List UInt8) : Option Path := if bytes.length ≤ max then some (bytes.map asciiChar) else none

theorem of_asciiToUnicodeN {max : ℕ} (h : asciiToUnicodeN max bytes = some name) : bytes.length ≤ max ∧ name = bytes.map asciiChar := by
  unfold asciiToUnicodeN at h
  split_ifs at h with hle
  exact ⟨hle, (Option.some.inj h).symm⟩

/-- `RtlUTF8ToUnicodeN` on ASCII; any other byte becomes U+FFFD. -/
def asciiUtf8 : Utf8 where
  toUnicodeN := asciiToUnicodeN
  length_le max bytes name h := by
    obtain ⟨hle, rfl⟩ := of_asciiToUnicodeN h
    rw [List.length_map]
    exact hle
  length_le_bytes max bytes name h := by
    obtain ⟨hle, rfl⟩ := of_asciiToUnicodeN h
    rw [List.length_map]
  ne_nil max bytes name h hne := by
    obtain ⟨hle, rfl⟩ := of_asciiToUnicodeN h
    exact fun hnil => hne (List.map_eq_nil_iff.mp hnil)
  zero_mem max bytes name h := by
    obtain ⟨hle, rfl⟩ := of_asciiToUnicodeN h
    rw [List.mem_map]
    constructor
    · rintro ⟨b, hb, h0⟩
      exact asciiChar_eq_zero.mp h0 ▸ hb
    · exact fun h0 => ⟨0, h0, rfl⟩

/-- A directory of files. -/
def filesNamed (names : List (List UInt8)) (h : names.length < 2 ^ 32) (hn : ∀ name ∈ names, name.length < 2 ^ 32) : FlatDirectory where
  files := some ⟨names.attach.map fun name => some ⟨some ⟨name.1, hn name.1 name.2⟩, 0, 0, 0, 0⟩, by rwa [List.length_map, List.length_attach]⟩
  subdirectories := none

/-- Files `a` and `A`. -/
theorem namesAgree_twoNames : ∃ d, decodeListing asciiUtf8 PathCache.asciiNames true
    (filesNamed [[0x61], [0x41]] (by decide) (by decide)) 64 false = .ok d ∧ NamesAgree PathCache.asciiNames d := by
  have hok : (decodeListing asciiUtf8 PathCache.asciiNames true (filesNamed [[0x61], [0x41]] (by decide) (by decide)) 64 false).toOption.isSome = true := by
    decide +kernel
  cases hd : decodeListing asciiUtf8 PathCache.asciiNames true (filesNamed [[0x61], [0x41]] (by decide) (by decide)) 64 false with
  | error e =>
    rw [hd] at hok
    cases hok
  | ok d => exact ⟨d, rfl, (namesAgree_iff hd).mpr (by decide)⟩

/-- A file of the name `a`, NUL, `b`: it is enumerated as `a`, which the lookup does not find. -/
theorem enumerated_notFound : ∃ d, decodeListing asciiUtf8 PathCache.asciiNames true (filesNamed [[0x61, 0, 0x62]] (by decide) (by decide)) 64 false = .ok d ∧
    ¬ NamesAgree PathCache.asciiNames d ∧ (d.candidate 0).map (·.name) = some [0x61] ∧
    d.findDirectoryEntry PathCache.asciiNames 2 [0x61] = some none := by
  have hfacts : (decodeListing asciiUtf8 PathCache.asciiNames true (filesNamed [[0x61, 0, 0x62]] (by decide) (by decide)) 64 false).toOption.map
      (fun d => (d.entries, (d.candidate 0).map (·.name), d.findDirectoryEntry PathCache.asciiNames 2 [0x61])) =
      some (1, some [0x61], some none) := by
    decide +kernel
  cases hd : decodeListing asciiUtf8 PathCache.asciiNames true (filesNamed [[0x61, 0, 0x62]] (by decide) (by decide)) 64 false with
  | error e =>
    rw [hd] at hfacts
    cases hfacts
  | ok d =>
    rw [hd] at hfacts
    obtain ⟨hentries, hname, hfind⟩ : d.entries = 1 ∧ (d.candidate 0).map (·.name) = some [0x61] ∧
        d.findDirectoryEntry PathCache.asciiNames 2 [0x61] = some none := by
      simpa using Option.some.inj hfacts
    refine ⟨d, rfl, fun hagree => ?_, hname, hfind⟩
    obtain ⟨c, hc, -, -, hfound⟩ := hagree 0 (by omega)
    rw [hc] at hname
    obtain ⟨k, -, hk, -⟩ := hfound 2 (by omega)
    rw [show c.name = [0x61] from Option.some.inj hname, hfind] at hk
    cases hk

end BlorgFS.Directory

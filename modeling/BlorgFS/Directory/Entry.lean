import BlorgFS.Lib.LittleEndian
import BlorgFS.Lib.Word
import BlorgFS.PathCache.Path

/-! The entries of a directory query's buffer, byte by byte: the three classes of
`FILE_*_DIR_INFORMATION` this driver fills, how a reader takes one apart, and how it follows
`NextEntryOffset` from one to the next. -/

namespace BlorgFS.Directory

open Lib
open PathCache (WChar Path)

/-- `FileIdBothDirectoryInformation`, `FileFullDirectoryInformation` and
`FileBothDirectoryInformation`. -/
inductive InfoClass where
  | idBoth
  | full
  | both
deriving DecidableEq

/-- `FIELD_OFFSET(FileName)`. -/
def InfoClass.fileNameOffset : InfoClass → ℕ
  | .idBoth => 104
  | .full => 68
  | .both => 94

/-- The fields of all three; a class without `ShortNameLength` or `FileId` has zero there. -/
structure DirInfo where
  nextEntryOffset : ℕ
  fileIndex : ℕ
  creationTime : ℕ
  lastAccessTime : ℕ
  lastWriteTime : ℕ
  changeTime : ℕ
  endOfFile : ℕ
  allocationSize : ℕ
  fileAttributes : ℕ
  fileNameLength : ℕ
  eaSize : ℕ
  shortNameLength : ℕ
  fileId : ℕ
  fileName : Path
deriving DecidableEq

attribute [ext] DirInfo

/-- `DirCtrlAlignEntrySize`. -/
def alignEntrySize (size : ℕ) : ℕ := ulong (size + 7) / 8 * 8

/-- The bytes an entry of that name takes. -/
def entrySize (cls : InfoClass) (name : Path) : ℕ := alignEntrySize (ulong (cls.fileNameOffset + 2 * name.length))

/-- The fields before `FileName`. What no field covers is zero. -/
def DirInfo.header (cls : InfoClass) (r : DirInfo) : List UInt8 :=
  le 4 r.nextEntryOffset ++ (le 4 r.fileIndex ++ (le 8 r.creationTime ++ (le 8 r.lastAccessTime ++ (le 8 r.lastWriteTime ++
    (le 8 r.changeTime ++ (le 8 r.endOfFile ++ (le 8 r.allocationSize ++ (le 4 r.fileAttributes ++ (le 4 r.fileNameLength ++
      (le 4 r.eaSize ++
        match cls with
        | .full => []
        | .both => le 2 r.shortNameLength ++ List.replicate 24 0
        | .idBoth => le 2 r.shortNameLength ++ (List.replicate 26 0 ++ le 8 r.fileId)))))))))))

/-- An entry in its place, up to the next. -/
def DirInfo.bytes (cls : InfoClass) (r : DirInfo) : List UInt8 :=
  r.header cls ++ (leChars r.fileName ++ List.replicate (entrySize cls r.fileName - (cls.fileNameOffset + 2 * r.fileName.length)) 0)

/-- The entry at the front of some bytes. -/
def readEntry (cls : InfoClass) (l : List UInt8) : DirInfo :=
  let (nextEntryOffset, l) := readLe 4 l
  let (fileIndex, l) := readLe 4 l
  let (creationTime, l) := readLe 8 l
  let (lastAccessTime, l) := readLe 8 l
  let (lastWriteTime, l) := readLe 8 l
  let (changeTime, l) := readLe 8 l
  let (endOfFile, l) := readLe 8 l
  let (allocationSize, l) := readLe 8 l
  let (fileAttributes, l) := readLe 4 l
  let (fileNameLength, l) := readLe 4 l
  let (eaSize, l) := readLe 4 l
  let (shortNameLength, fileId, l) := match cls with
    | .full => (0, 0, l)
    | .both =>
      let (shortNameLength, l) := readLe 2 l
      (shortNameLength, 0, l.drop 24)
    | .idBoth =>
      let (shortNameLength, l) := readLe 2 l
      let (fileId, l) := readLe 8 (l.drop 26)
      (shortNameLength, fileId, l)
  { nextEntryOffset, fileIndex, creationTime, lastAccessTime, lastWriteTime, changeTime, endOfFile, allocationSize, fileAttributes,
    fileNameLength, eaSize, shortNameLength, fileId, fileName := (readChars (fileNameLength / 2) l).1 }

/-- The entries `NextEntryOffset` leads to, as many as asked for at most. -/
def readChain (cls : InfoClass) : ℕ → List UInt8 → List DirInfo
  | 0, _ => []
  | n + 1, l =>
    let r := readEntry cls l
    if r.nextEntryOffset = 0 then [r] else r :: readChain cls n (l.drop r.nextEntryOffset)

variable {cls : InfoClass} {r : DirInfo} {name : Path} {l : List UInt8}

/-! ### One entry -/

theorem entrySize_spec (h : name.length ≤ 2 ^ 15) : entrySize cls name % 8 = 0 ∧ cls.fileNameOffset + 2 * name.length ≤ entrySize cls name ∧
    entrySize cls name < cls.fileNameOffset + 2 * name.length + 8 := by
  have hoff : cls.fileNameOffset ≤ 104 := by cases cls <;> decide
  unfold entrySize alignEntrySize
  rw [ulong_of_lt (n := cls.fileNameOffset + _) (by omega), ulong_of_lt (by omega)]
  omega

theorem entrySize_pos (h : name.length ≤ 2 ^ 15) : 4 < entrySize cls name := by
  have hoff : 68 ≤ cls.fileNameOffset := by cases cls <;> decide
  have := (@entrySize_spec cls _ h).2.1
  omega

theorem length_header : (r.header cls).length = cls.fileNameOffset := by
  cases cls <;> simp [DirInfo.header, InfoClass.fileNameOffset]

theorem length_bytes (h : r.fileName.length ≤ 2 ^ 15) : (r.bytes cls).length = entrySize cls r.fileName := by
  have hle := (@entrySize_spec cls _ h).2.1
  rw [DirInfo.bytes, List.length_append, List.length_append, length_header, length_leChars, List.length_replicate]
  omega

/-- The fields are what their places in the entry can hold. -/
structure DirInfo.Fits (cls : InfoClass) (r : DirInfo) : Prop where
  nextEntryOffset : r.nextEntryOffset < 2 ^ 32
  fileIndex : r.fileIndex < 2 ^ 32
  creationTime : r.creationTime < 2 ^ 64
  lastAccessTime : r.lastAccessTime < 2 ^ 64
  lastWriteTime : r.lastWriteTime < 2 ^ 64
  changeTime : r.changeTime < 2 ^ 64
  endOfFile : r.endOfFile < 2 ^ 64
  allocationSize : r.allocationSize < 2 ^ 64
  fileAttributes : r.fileAttributes < 2 ^ 32
  fileName : r.fileName.length ≤ 2 ^ 15
  fileNameLength : r.fileNameLength = 2 * r.fileName.length
  eaSize : r.eaSize < 2 ^ 32
  shortNameLength : r.shortNameLength = 0
  fileId : r.fileId = 0

/-- What is read is what was written. -/
theorem readEntry_bytes (h : r.Fits cls) (rest : List UInt8) : readEntry cls (r.bytes cls ++ rest) = r := by
  have h4 : ∀ {v : ℕ}, v < 2 ^ 32 → v % 256 ^ 4 = v := fun hv => Nat.mod_eq_of_lt hv
  have h8 : ∀ {v : ℕ}, v < 2 ^ 64 → v % 256 ^ 8 = v := fun hv => Nat.mod_eq_of_lt hv
  have hname : r.fileNameLength < 2 ^ 32 := by
    have := h.fileName
    rw [h.fileNameLength]
    omega
  have hchars : r.fileNameLength / 2 = r.fileName.length := by
    rw [h.fileNameLength]
    omega
  unfold readEntry DirInfo.bytes DirInfo.header
  simp only [List.append_assoc, readLe_le, h4 h.nextEntryOffset, h4 h.fileIndex, h8 h.creationTime, h8 h.lastAccessTime, h8 h.lastWriteTime,
    h8 h.changeTime, h8 h.endOfFile, h8 h.allocationSize, h4 h.fileAttributes, h4 hname, h4 h.eaSize, hchars]
  have hr : { r with shortNameLength := 0, fileId := 0 } = r :=
    DirInfo.ext rfl rfl rfl rfl rfl rfl rfl rfl rfl rfl rfl h.shortNameLength.symm h.fileId.symm rfl
  cases cls <;> simpa [h.shortNameLength, h.fileId, List.drop_append] using hr

/-! ### The chain -/

/-- Each entry names where the next one is, the last one none. -/
def Links (cls : InfoClass) : List DirInfo → Prop
  | [] => True
  | [r] => r.nextEntryOffset = 0
  | r :: r' :: rs => r.nextEntryOffset = entrySize cls r.fileName ∧ Links cls (r' :: rs)

/-- A reader of linked entries finds them all, and nothing else. -/
theorem readChain_flatMap {rest : List UInt8} : ∀ {rs : List DirInfo} {n : ℕ}, rs ≠ [] → rs.length ≤ n →
    (∀ r ∈ rs, r.Fits cls) → Links cls rs → readChain cls n (rs.flatMap (·.bytes cls) ++ rest) = rs
  | [r], n + 1, _, _, hfits, hlink => by
    rw [readChain, List.flatMap_cons, List.append_assoc, readEntry_bytes (hfits r List.mem_cons_self)]
    exact if_pos hlink
  | r :: r' :: rs, n + 1, _, hn, hfits, hlink => by
    have hr := hfits r List.mem_cons_self
    have hpos := @entrySize_pos cls _ hr.fileName
    rw [readChain, List.flatMap_cons, List.append_assoc, readEntry_bytes hr]
    rw [if_neg (by have := hlink.1; omega), hlink.1, List.drop_left' (length_bytes hr.fileName)]
    rw [readChain_flatMap (List.cons_ne_nil _ _) (Nat.le_of_succ_le_succ hn) (fun r hmem => hfits r (List.mem_cons_of_mem _ hmem)) hlink.2]

end BlorgFS.Directory

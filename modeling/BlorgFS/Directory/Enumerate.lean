import BlorgFS.Directory.Block
import BlorgFS.Directory.Entry

/-! A directory query: `DirCtrlEnumerateDirectoryEntries` over a listing, from where the last
query on the handle left off, into the caller's buffer. Addresses are offsets into the buffer
and into the scratch block. -/

namespace BlorgFS.Directory

open Lib
open PathCache (WChar Path)

/-! ### Entries -/

/-- `UNICODE_STRING_MAX_BYTES`, less the terminator, in characters. -/
def maxUnicodeStringChars : ℕ := 32766

/-- `RtlInitUnicodeString`: the characters up to the first NUL. -/
def initUnicodeString (m : ℕ → WChar) (source : ℕ) : Path := (load m source maxUnicodeStringChars).takeWhile (· ≠ 0)

def fileAttributeDirectory : ℕ := 0x10

def fileAttributeNormal : ℕ := 0x80

/-- What the loop takes of an entry of the listing. -/
structure Candidate where
  name : Path
  creation : ℕ
  access : ℕ
  write : ℕ
  size : ℕ
  attrs : ℕ

/-- The entry at an index, files before subdirectories. -/
def DirectoryInfo.entryAt (d : DirectoryInfo) (index : ℕ) : Candidate :=
  if d.fileCount ≤ index then
    let sub := d.subDirs (index - d.fileCount)
    ⟨initUnicodeString d.names sub.name, sub.creationTime, sub.lastAccessedTime, sub.lastModifiedTime, 0, fileAttributeDirectory⟩
  else
    let file := d.files index
    ⟨initUnicodeString d.names file.name, file.creationTime, file.lastAccessedTime, file.lastModifiedTime, file.size, fileAttributeNormal⟩

/-- The entry the loop takes, unless `BlorgGetSubDirEntry` has none. -/
def DirectoryInfo.candidate (d : DirectoryInfo) (index : ℕ) : Option Candidate :=
  if d.fileCount ≤ index ∧ d.subDirCount ≤ index - d.fileCount then none else some (d.entryAt index)

/-! ### The pattern -/

/-- `FsRtlIsNameInExpression`, which may raise, and `FsRtlAreNamesEqual`, both ignoring case. -/
structure Matching where
  isNameInExpression : Path → Path → Option Bool
  areNamesEqual : Path → Path → Bool

/-- `*`, `?`, `DOS_DOT`, `DOS_QM` and `DOS_STAR`. -/
def wildCards : List WChar := [0x2A, 0x3F, 0x22, 0x3E, 0x3C]

/-- What a handle searches for: `CCB_FLAG_MATCH_ALL` and `SearchPattern`. -/
structure Search where
  matchAll : Bool
  pattern : Path

/-- `DirCtrlMatchPattern`. -/
def Search.matchPattern (M : Matching) (search : Search) (name : Path) : Bool :=
  if search.matchAll then true
  else if search.pattern = [] then false
  else if search.pattern.any (wildCards.contains ·) then (M.isNameInExpression search.pattern name).getD false
  else M.areNamesEqual search.pattern name

/-! ### Filling -/

/-- `DIRCTRL_ENTRY_MAX_BYTES`. -/
def entryMaxBytes : ℕ := (104 + (PathCache.maxNameLen - 1) * 2 + 7) / 8 * 8

/-- The fields of an entry. -/
def Candidate.info (c : Candidate) (index nextEntryOffset : ℕ) : DirInfo where
  nextEntryOffset := nextEntryOffset
  fileIndex := index
  creationTime := ulong64 c.creation
  lastAccessTime := ulong64 c.access
  lastWriteTime := ulong64 c.write
  changeTime := ulong64 c.write
  endOfFile := ulong64 c.size
  allocationSize := ulong64 c.size
  fileAttributes := c.attrs
  fileNameLength := 2 * c.name.length
  eaSize := 0
  shortNameLength := 0
  fileId := 0
  fileName := c.name

/-- What the fill routines share: the scratch block with the entry in it and the bytes written,
or `STATUS_BUFFER_OVERFLOW`. -/
def fillDirInfo (cls : InfoClass) (out : ℕ → UInt8) (remainingLength index : ℕ) (c : Candidate) (returnSingle isLast : Bool) :
    Option ((ℕ → UInt8) × ℕ) :=
  let alignedSize := entrySize cls c.name
  if remainingLength < alignedSize then none
  else some (store out 0 ((c.info index (if returnSingle || isLast then 0 else alignedSize)).bytes cls), alignedSize)

/-- `DirCtrlFillFileIdBothDirInfo`. -/
def fillFileIdBothDirInfo := fillDirInfo .idBoth

/-- `DirCtrlFillFileFullDirInfo`. -/
def fillFileFullDirInfo := fillDirInfo .full

/-- `DirCtrlFillFileBothDirInfo`. -/
def fillFileBothDirInfo := fillDirInfo .both

/-- The fill routine of an information class. -/
def InfoClass.fill : InfoClass → (ℕ → UInt8) → ℕ → ℕ → Candidate → Bool → Bool → Option ((ℕ → UInt8) × ℕ)
  | .idBoth => fillFileIdBothDirInfo
  | .full => fillFileFullDirInfo
  | .both => fillFileBothDirInfo

/-! ### One query -/

/-- A query: its class, its buffer's length, `SL_RETURN_SINGLE_ENTRY`, what is in the buffer and
in the scratch block before it, whether the scratch block and the buffer could be had, and which
accesses to the buffer raise. -/
structure Query where
  cls : InfoClass
  length : BitVec 32
  returnSingle : Bool
  buffer : ℕ → UInt8 := fun _ => 0
  scratch : ℕ → UInt8 := fun _ => 0
  mapped : Bool := true
  copyRaises : ℕ → Bool := fun _ => false
  patchRaises : Bool := false

inductive Status where
  | success
  | noMoreFiles
  | bufferOverflow
  | insufficientResources
  | exception
deriving DecidableEq

/-- The locals of the loop. -/
structure Progress where
  index : ℕ
  remaining : ℕ
  cursor : ℕ
  lastEntry : Option ℕ
  totalWritten : ℕ
  found : Bool
  buffer : ℕ → UInt8
  scratch : ℕ → UInt8

/-- How a turn of the loop ends: at the top again, out of the loop, out of the function with the
fill's error, or out of both with an exception. -/
inductive Turn where
  | again (p : Progress)
  | leave (p : Progress)
  | error (p : Progress)
  | raise (p : Progress)

variable (M : Matching) (d : DirectoryInfo) (search : Search) (q : Query)

def turn (totalEntries : ℕ) (p : Progress) : Turn :=
  match d.candidate p.index with
  | none => .leave p
  | some c =>
    if search.matchPattern M c.name then
      let offered := if p.remaining < entryMaxBytes then p.remaining else entryMaxBytes
      match q.cls.fill p.scratch offered p.index c q.returnSingle (decide (p.index = totalEntries - 1)) with
      | none => if p.found then .leave p else .error p
      | some (scratch, written) =>
        if q.copyRaises p.cursor then .raise { p with scratch := scratch }
        else
          let p := { p with
            buffer := store p.buffer p.cursor (load scratch 0 written)
            scratch := scratch
            lastEntry := some p.cursor
            cursor := p.cursor + written
            remaining := ulongSub p.remaining (ulong written)
            totalWritten := p.totalWritten + written
            found := true
            index := p.index + 1 }
          if q.returnSingle then .leave p else .again p
    else .again { p with index := p.index + 1 }

/-- The loop, with so many entries from `index` on left. -/
def turns (totalEntries : ℕ) : ℕ → Progress → Turn
  | 0, p => .leave p
  | left + 1, p =>
    match turn M d search q totalEntries p with
    | .again p => turns totalEntries left p
    | ended => ended

/-- What a query answers with, and the two blocks afterwards. -/
structure Answer where
  status : Status
  information : ℕ
  buffer : ℕ → UInt8
  scratch : ℕ → UInt8

/-- What `DirCtrlEnumerateDirectoryEntries` makes of the loop: the answer and, unless it raised,
the index to resume at. -/
def Turn.answer (q : Query) : Turn → Answer × Option ℕ
  | .again p | .leave p =>
    match p.lastEntry with
    | none => (⟨if p.found then .success else .noMoreFiles, p.totalWritten, p.buffer, p.scratch⟩, some p.index)
    | some lastEntry =>
      if q.patchRaises then (⟨.exception, 0, p.buffer, p.scratch⟩, none)
      else
        (⟨if p.found then .success else .noMoreFiles, p.totalWritten, store p.buffer lastEntry (le 4 0), p.scratch⟩, some p.index)
  | .error p => (⟨.bufferOverflow, 0, p.buffer, p.scratch⟩, some p.index)
  | .raise p => (⟨.exception, 0, p.buffer, p.scratch⟩, none)

/-- `DirCtrlEnumerateDirectoryEntries`. -/
def enumerateDirectoryEntries (startIndex totalEntries : ℕ) : Answer × Option ℕ :=
  (turns M d search q totalEntries (totalEntries - startIndex)
    ⟨startIndex, q.length.toNat, 0, none, 0, false, q.buffer, q.scratch⟩).answer q

/-- The query of `BlorgVolumeDirectoryControl` on a handle that has its snapshot and its pattern,
without a restart and without an index: the answer and the handle's `CurrentIndex`. -/
def queryDirectory (currentIndex : ℕ) : Answer × ℕ :=
  if q.mapped then
    let (answer, finalIndex) := enumerateDirectoryEntries M d search q (ulong currentIndex) (ulong (ulong64 d.entries))
    (answer, finalIndex.getD currentIndex)
  else (⟨.insufficientResources, 0, q.buffer, q.scratch⟩, currentIndex)

/-- Queries one after another, each with its answer, and the handle's `CurrentIndex`. -/
def queries : ℕ → List Query → List (Query × Answer) × ℕ
  | currentIndex, [] => ([], currentIndex)
  | currentIndex, q :: qs =>
    let (answer, currentIndex) := queryDirectory M d search q currentIndex
    let (answers, currentIndex) := queries currentIndex qs
    ((q, answer) :: answers, currentIndex)

end BlorgFS.Directory

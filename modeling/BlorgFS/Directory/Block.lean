import BlorgFS.Http.Headers
import BlorgFS.Lib.Chain
import BlorgFS.Lib.Memory
import BlorgFS.Lib.Word
import BlorgFS.PathCache.Path

/-! The block a directory's listing is kept in: its entries, the index of their names and the
characters of the names, as `BlorgAllocateDirectoryInfo` lays it out. Each of its parts is a
memory of its own, the index one of `ULONG`s. -/

namespace BlorgFS.Directory

open Lib
open Http (checkedAdd checkedAdd_of_lt)
open PathCache (WChar Path Names)

/-! ### The block -/

/-- `DIRECTORY_FILE_METADATA`. `name` is where the name starts among the characters. -/
structure FileMetadata where
  size : ℕ := 0
  creationTime : ℕ := 0
  lastAccessedTime : ℕ := 0
  lastModifiedTime : ℕ := 0
  nameLength : ℕ := 0
  name : ℕ := 0

/-- `DIRECTORY_SUBDIR_METADATA`. -/
structure SubDirMetadata where
  creationTime : ℕ := 0
  lastAccessedTime : ℕ := 0
  lastModifiedTime : ℕ := 0
  nameLength : ℕ := 0
  name : ℕ := 0

def sizeofDirectoryInfo : ℕ := 88

def sizeofFileMetadata : ℕ := 48

def sizeofSubDirMetadata : ℕ := 40

def sizeofULong : ℕ := 4

/-- `DIRECTORY_INFO` and what follows it in the block. -/
structure DirectoryInfo where
  filesOffset : ℕ
  subDirsOffset : ℕ
  indexOffset : ℕ
  namesOffset : ℕ
  fileCount : ℕ
  subDirCount : ℕ
  bytes : ℕ
  indexMask : ℕ
  noStore : Bool := false
  files : ℕ → FileMetadata := fun _ => {}
  subDirs : ℕ → SubDirMetadata := fun _ => {}
  index : ℕ → ℕ := fun _ => 0
  names : ℕ → WChar := fun _ => 0

/-- The loop that doubles the chains until there is one for each entry; `none` if it has not
ended after that many turns. -/
def growChains (entries : ℕ) : ℕ → ℕ → Option ℕ
  | 0, _ => none
  | turns + 1, chains => if chains < entries then growChains entries turns (ulong (chains * 2)) else some chains

/-- `BlorgAllocateDirectoryInfo`; `pool` says whether the block was allocated. -/
def allocateDirectoryInfo (pool : Bool) (fileCount subDirCount nameBytes : ℕ) : Option DirectoryInfo :=
  (checkedAdd fileCount subDirCount).bind fun entries =>
    if entries > maxULong / 4 then none
    else
      (growChains entries 33 1).bind fun chains =>
        let filesOffset := sizeofDirectoryInfo
        let subDirsOffset := ulong64 (filesOffset + ulong64 (fileCount * sizeofFileMetadata))
        let indexOffset := ulong64 (subDirsOffset + ulong64 (subDirCount * sizeofSubDirMetadata))
        let namesOffset := ulong64 (indexOffset + ulong64 (ulong64 (chains + entries) * sizeofULong))
        (checkedAdd namesOffset nameBytes).bind fun bytes =>
          if pool then
            some {
              filesOffset := filesOffset
              subDirsOffset := subDirsOffset
              indexOffset := indexOffset
              namesOffset := namesOffset
              fileCount := fileCount
              subDirCount := subDirCount
              bytes := bytes
              indexMask := ulongSub chains 1 }
          else none

namespace DirectoryInfo

variable (d : DirectoryInfo)

def entries : ℕ := d.fileCount + d.subDirCount

/-- `HttpListingEntryName`: a `UNICODE_STRING`, whose length is a `USHORT` of bytes. -/
def entryName (entry : ℕ) : Path :=
  let (buffer, length) :=
    if entry < d.fileCount then ((d.files entry).name, (d.files entry).nameLength)
    else ((d.subDirs (entry - d.fileCount)).name, (d.subDirs (entry - d.fileCount)).nameLength)
  load d.names buffer (length * 2 % 2 ^ 16 / 2)

variable (N : Names)

/-- `HttpListingChain`, as the position of the chain's head in the index. -/
def listingChain (name : Path) : ℕ :=
  let hash := (N.hashUnicodeString name).getD 0
  let mixed := ulong (hash * 0x9E3779B1)
  ulong (ulong64 (mixed * ulong64 (d.indexMask + 1)) / 2 ^ 32)

/-- `HttpListingLinks`, as the position of the first link. -/
def listingLinks : ℕ := d.indexMask + 1

/-- One turn of the loop of `BlorgIndexDirectoryInfo`: `entry` becomes the first of its chain. -/
def link (entry : ℕ) : DirectoryInfo :=
  let chain := d.listingChain N (d.entryName entry)
  let links := d.listingLinks
  let index := Function.update d.index (links + entry) (d.index chain)
  { d with index := Function.update index chain (ulong (entry + 1)) }

/-- The turns for the entries below `entry`, last first. -/
def linkFrom (d : DirectoryInfo) : ℕ → DirectoryInfo
  | 0 => d
  | entry + 1 => linkFrom (d.link N entry) entry

/-- `BlorgIndexDirectoryInfo`. -/
def indexDirectoryInfo : DirectoryInfo := d.linkFrom N d.entries

/-- The walk of `BlorgFindDirectoryEntry` from the position after `next`; `none` if it has not
ended after that many turns. -/
def findFrom (name : Path) : ℕ → ℕ → Option (Option ℕ)
  | 0, _ => none
  | turns + 1, next =>
    if next = 0 then some none
    else if N.equal (d.entryName (next - 1)) name then some (some (next - 1))
    else findFrom name turns (d.index (d.listingLinks + (next - 1)))

/-- `BlorgFindDirectoryEntry`, for that many turns. -/
def findDirectoryEntry (turns : ℕ) (name : Path) : Option (Option ℕ) :=
  d.findFrom N name turns (d.index (d.listingChain N name))

end DirectoryInfo

end BlorgFS.Directory

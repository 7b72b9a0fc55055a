import BlorgFS.ChangeFeed.Follower
import BlorgFS.Directory.Decode
import BlorgFS.Lib.Checked

/-! How a batch of changes is decoded from the server's answer, `HttpDeserializeChangeBatch`. A
first pass sizes one block for the entries and their paths, and stops early when there is too much
of either; a second one writes the paths one behind another. Every write goes to a position that
is checked against the block. -/

namespace BlorgFS.ChangeFeed

open Lib Checked
open Directory (Vec)
open PathCache (WChar Path separator)

/-! ### The table and the block -/

/-- `ChangeBatch`, once it is verified. -/
structure FlatBatch where
  epoch : ℕ
  generation : ℕ
  reset : Bool
  modified : Option (Vec (Vec UInt8))
  created : Option (Vec (Vec UInt8))
  removed : Option (Vec (Vec UInt8))

/-- `CHANGE_ENTRY`, its path at `buffer` among the block's characters. -/
structure Entry where
  kind : ChangeKind
  buffer : ℕ
  length : ℕ
  maximumLength : ℕ
  deriving DecidableEq, Repr

/-- An entry of a block that was zeroed, `ChangeModified` being 0. -/
def Entry.blank : Entry := ⟨.modified, 0, 0, 0⟩

/-- `CHANGE_BATCH` with the entries and characters behind it. -/
structure Block where
  epoch : ℕ
  generation : ℕ
  reset : Bool
  count : ℕ
  entries : List Entry
  chars : List WChar
  deriving DecidableEq, Repr

/-- Why no batch is delivered: the conversion's own status, or one of the decoder's. -/
inductive Failure where
  | conversion (code : ℕ)
  | insufficientResources
  | invalidParameter
  deriving DecidableEq, Repr

/-- `RtlUTF8ToUnicodeN`, given room for so many characters. -/
structure Converter where
  toUnicodeN : ℕ → List UInt8 → Except ℕ Path
  length_le : ∀ max bytes name, toUnicodeN max bytes = .ok name → name.length ≤ max
  length_le_bytes : ∀ max bytes name, toUnicodeN max bytes = .ok name → name.length ≤ bytes.length

/-- `CHANGE_BATCH_MAX_ENTRIES`. -/
def maxEntries : ℕ := 4096

/-- `CHANGE_BATCH_MAX_PATH_BYTES`. -/
def maxPathBytes : ℕ := 1024 * 1024

def sizeofBatch : ℕ := 40

def sizeofEntry : ℕ := 24

/-- `MAXUSHORT`. -/
def maxUShort : ℕ := 65535

/-! ### The first pass -/

def stringsOf (list : Option (Vec (Vec UInt8))) : List (Vec UInt8) := list.elim [] (·.toList)

/-- The paths' bytes of one list, as long as there are not too many paths. -/
def sizeStrings (count : ℕ) : ℕ → List (Vec UInt8) → ℕ
  | pathBytes, [] => pathBytes
  | pathBytes, path :: rest => if count ≤ maxEntries then sizeStrings count (ulong64 (pathBytes + path.length)) rest else pathBytes

/-- The loop over the lists: `reset`, `count` and `pathBytes`. -/
def sizeLists : Bool → ℕ → ℕ → List (Option (Vec (Vec UInt8))) → Bool × ℕ × ℕ
  | reset, count, pathBytes, [] => (reset, count, pathBytes)
  | reset, count, pathBytes, list :: lists =>
    if reset then (reset, count, pathBytes)
    else
      let count := ulong64 (count + (stringsOf list).length)
      let pathBytes := sizeStrings count pathBytes (stringsOf list)
      sizeLists (count > maxEntries ∨ pathBytes > maxPathBytes) count pathBytes lists

/-! ### The second pass -/

/-- The loop that turns slashes, for `n` characters from `cursor[c]` on. -/
def turnSlashes (cursor : ℕ) : ℕ → ℕ → List WChar → Checked Failure (List WChar)
  | 0, _, chars => .ok chars
  | n + 1, c, chars => do
    let w ← readAt chars (cursor + c)
    let chars ← if w = 0x2F then writeAt chars (cursor + c) separator else .ok chars
    turnSlashes cursor n (c + 1) chars

section Decode

variable (U : Converter)

/-- The conversion of a path to `chars[first]`, where there is said to be room for `room` bytes. -/
def convertTo (chars : List WChar) (first room : ℕ) (path : List UInt8) : Checked Failure (List WChar × ℕ) :=
  if chars.length < first + room / 2 then .fault
  else
    match U.toUnicodeN (room / 2) path with
    | .error code => .error (.conversion code)
    | .ok name => .ok (chars.take first ++ name ++ chars.drop (first + name.length), ulong (name.length * 2))

/-- What is left to do for a path that is converted: the block and the cursor. -/
def finishPath (kind : ChangeKind) (b : Block) (cursor entry : ℕ) (chars : List WChar) (convertedBytes : ℕ) : Checked Failure (Block × ℕ) :=
  let pathChars := 1 + convertedBytes / 2
  if pathChars * 2 > maxUShort then .error .invalidParameter
  else do
    let chars ← turnSlashes cursor (pathChars - 1) 1 chars
    let entries ← writeAt b.entries entry ⟨kind, cursor, pathChars * 2 % 2 ^ 16, pathChars * 2 % 2 ^ 16⟩
    .ok ({ b with chars := chars, entries := entries }, cursor + pathChars)

/-- The body of the second pass. -/
def putPath (kind : ChangeKind) (path : Vec UInt8) (b : Block) (cursor entry : ℕ) : Checked Failure (Block × ℕ) := do
  let chars ← writeAt b.chars cursor separator
  if path.length ≠ 0 then do
    let (chars, convertedBytes) ← convertTo U chars (cursor + 1) (ulong (path.length * 2)) path.toList
    finishPath kind b cursor entry chars convertedBytes
  else finishPath kind b cursor entry chars 0

/-- The second pass over one list: the block, the cursor and the next entry. -/
def putList (kind : ChangeKind) : List (Vec UInt8) → Block → ℕ → ℕ → Checked Failure (Block × ℕ × ℕ)
  | [], b, cursor, entry => .ok (b, cursor, entry)
  | path :: rest, b, cursor, entry => do
    let (b, cursor) ← putPath U kind path b cursor entry
    putList kind rest b cursor (entry + 1)

/-- The second pass. -/
def putLists : List (ChangeKind × Option (Vec (Vec UInt8))) → Block → ℕ → ℕ → Checked Failure (Block × ℕ × ℕ)
  | [], b, cursor, entry => .ok (b, cursor, entry)
  | (kind, list) :: lists, b, cursor, entry =>
    if entry < b.count then do
      let (b, cursor, entry) ← putList U kind (stringsOf list) b cursor entry
      putLists lists b cursor entry
    else .ok (b, cursor, entry)

/-- `lists` and `kinds`. -/
def FlatBatch.lists (t : FlatBatch) : List (ChangeKind × Option (Vec (Vec UInt8))) :=
  [(.modified, t.modified), (.created, t.created), (.removed, t.removed)]

/-- What comes of it: the batch, or why there is none, and how many blocks are left allocated. -/
structure Outcome where
  batch : Except Failure Block
  blocks : ℕ

/-- `HttpDeserializeChangeBatch` past its verification. -/
def deserializeChangeBatch (pool : Bool) (t : FlatBatch) : Checked Failure Outcome :=
  let (reset, count, pathBytes) := sizeLists t.reset 0 0 (t.lists.map (·.2))
  let (count, pathBytes) := if reset then (0, 0) else (count, pathBytes)
  let allocationSize := ulong64 (ulong64 (sizeofBatch + ulong64 (count * sizeofEntry)) + ulong64 (ulong64 (count + pathBytes) * 2))
  if pool then
    if allocationSize < sizeofBatch + count * sizeofEntry then .fault
    else
      let room := (allocationSize - (sizeofBatch + count * sizeofEntry)) / 2
      let b : Block := ⟨t.epoch, t.generation, reset, count, List.replicate count .blank, List.replicate room 0⟩
      match putLists U t.lists b 0 0 with
      | .fault => .fault
      | .error e => .ok ⟨.error e, 0⟩
      | .ok (b, _, _) => .ok ⟨.ok b, 1⟩
  else .ok ⟨.error .insufficientResources, 0⟩

end Decode

/-! ### What a batch says -/

/-- A character of a path as the volume spells it. -/
def turn (w : WChar) : WChar := if w = 0x2F then separator else w

/-- The volume's spelling of one of the server's keys. -/
def spelled (U : Converter) (path : Vec UInt8) : Except Failure Path :=
  if path.length = 0 then .ok [separator]
  else
    match U.toUnicodeN path.length path.toList with
    | .error code => .error (.conversion code)
    | .ok name => if (1 + name.length) * 2 > maxUShort then .error .invalidParameter else .ok (separator :: name.map turn)

def entryOf (U : Converter) (item : ChangeKind × Vec UInt8) : Except Failure ChangeEntry := (spelled U item.2).map (⟨·, item.1⟩)

/-- The listed paths, each with its list's kind. -/
def FlatBatch.listed (t : FlatBatch) : List (ChangeKind × Vec UInt8) := t.lists.flatMap fun list => (stringsOf list.2).map (list.1, ·)

def utf8Bytes (paths : List (Vec UInt8)) : ℕ := (paths.map (·.length)).sum

/-- The batches that say to drop everything. -/
def FlatBatch.Resets (t : FlatBatch) : Prop :=
  t.reset ∨ t.listed.length > maxEntries ∨ utf8Bytes (t.listed.map (·.2)) > maxPathBytes

instance (t : FlatBatch) : Decidable t.Resets := inferInstanceAs (Decidable (_ ∨ _ ∨ _))

/-- The characters an entry's path is read from. -/
def Entry.path (chars : List WChar) (e : Entry) : Path := (chars.drop e.buffer).take (e.length / 2)

/-- What the follower reads of a block. -/
def Block.batch (b : Block) : Batch := ⟨b.reset, b.epoch, b.generation, b.entries.map fun e => ⟨e.path b.chars, e.kind⟩⟩

/-- What is to be delivered for a table: nothing but the reset, or every listed path in order. -/
def FlatBatch.decoded (U : Converter) (pool : Bool) (t : FlatBatch) : Except Failure Batch :=
  if pool then
    if t.Resets then .ok ⟨true, t.epoch, t.generation, []⟩
    else (t.listed.mapM (entryOf U)).map (⟨false, t.epoch, t.generation, ·⟩)
  else .error .insufficientResources

/-! ### The first pass sizes the paths -/

theorem utf8Bytes_cons (path : Vec UInt8) (rest : List (Vec UInt8)) : utf8Bytes (path :: rest) = path.length + utf8Bytes rest := by
  unfold utf8Bytes
  rw [List.map_cons, List.sum_cons]

theorem utf8Bytes_append (paths rest : List (Vec UInt8)) : utf8Bytes (paths ++ rest) = utf8Bytes paths + utf8Bytes rest := by
  unfold utf8Bytes
  rw [List.map_append, List.sum_append]

theorem length_stringsOf (list : Option (Vec (Vec UInt8))) : (stringsOf list).length < 2 ^ 32 := by
  cases list with
  | none => exact Nat.two_pow_pos 32
  | some list => exact list.length_lt

theorem utf8Bytes_le (paths : List (Vec UInt8)) : utf8Bytes paths ≤ paths.length * 2 ^ 32 := by
  induction paths with
  | nil => exact Nat.zero_le _
  | cons path rest ih =>
    have hlt := path.length_lt
    rw [utf8Bytes_cons, List.length_cons, Nat.add_mul, Nat.one_mul]
    unfold Vec.length
    omega

theorem sizeStrings_eq {count pathBytes : ℕ} {paths : List (Vec UInt8)} (hcount : count ≤ maxEntries) (hlt : pathBytes + utf8Bytes paths < 2 ^ 64) :
    sizeStrings count pathBytes paths = pathBytes + utf8Bytes paths := by
  induction paths generalizing pathBytes with
  | nil => rfl
  | cons path rest ih =>
    rw [utf8Bytes_cons] at hlt
    rw [sizeStrings, if_pos hcount, ulong64_of_lt (by omega), ih (by omega), utf8Bytes_cons, Nat.add_assoc]

theorem sizeLists_reset (count pathBytes : ℕ) (lists : List (Option (Vec (Vec UInt8)))) : (sizeLists true count pathBytes lists).1 = true := by
  cases lists <;> rfl

/-- The first pass says a reset exactly when there is too much, and what there is otherwise. -/
theorem sizeLists_eq {count pathBytes : ℕ} (lists : List (Option (Vec (Vec UInt8)))) (hcount : count ≤ maxEntries) (hbytes : pathBytes ≤ maxPathBytes) :
    ((sizeLists false count pathBytes lists).1 = true ↔
      count + (lists.flatMap stringsOf).length > maxEntries ∨ pathBytes + utf8Bytes (lists.flatMap stringsOf) > maxPathBytes) ∧
    ((sizeLists false count pathBytes lists).1 = false →
      sizeLists false count pathBytes lists = (false, count + (lists.flatMap stringsOf).length, pathBytes + utf8Bytes (lists.flatMap stringsOf))) := by
  induction lists generalizing count pathBytes with
  | nil =>
    refine ⟨⟨nofun, fun h => ?_⟩, fun _ => rfl⟩
    rcases h with h | h
    · exact absurd hcount (Nat.not_le_of_lt h)
    · exact absurd hbytes (Nat.not_le_of_lt h)
  | cons list lists ih =>
    have hlist := length_stringsOf list
    have hadd : ulong64 (count + (stringsOf list).length) = count + (stringsOf list).length := ulong64_of_lt (by unfold maxEntries at hcount; omega)
    rw [List.flatMap_cons, List.length_append, utf8Bytes_append, sizeLists, if_neg Bool.false_ne_true, hadd]
    dsimp only
    by_cases hfull : count + (stringsOf list).length > maxEntries
    · have hreset : decide (count + (stringsOf list).length > maxEntries ∨
          sizeStrings (count + (stringsOf list).length) pathBytes (stringsOf list) > maxPathBytes) = true := decide_eq_true (.inl hfull)
      simp only [hreset, sizeLists_reset]
      exact ⟨⟨fun _ => .inl (by omega), fun _ => trivial⟩, nofun⟩
    · have hle := utf8Bytes_le (stringsOf list)
      unfold maxEntries at hfull hcount
      unfold maxPathBytes at hbytes
      rw [sizeStrings_eq (Nat.le_of_not_lt hfull) (by omega)]
      by_cases hlong : pathBytes + utf8Bytes (stringsOf list) > maxPathBytes
      · have hreset : decide (count + (stringsOf list).length > maxEntries ∨ pathBytes + utf8Bytes (stringsOf list) > maxPathBytes) = true :=
          decide_eq_true (.inr hlong)
        simp only [hreset, sizeLists_reset]
        exact ⟨⟨fun _ => .inr (by omega), fun _ => trivial⟩, nofun⟩
      · have hgoes : decide (count + (stringsOf list).length > maxEntries ∨ pathBytes + utf8Bytes (stringsOf list) > maxPathBytes) = false :=
          decide_eq_false (not_or.2 ⟨hfull, hlong⟩)
        simp only [hgoes]
        have hrest := ih (Nat.le_of_not_lt hfull) (Nat.le_of_not_lt hlong)
        rw [Nat.add_assoc, Nat.add_assoc] at hrest
        exact hrest

/-! ### The second pass lays the paths one behind another -/

def text (entries : List ChangeEntry) : List WChar := entries.flatMap (·.path)

theorem text_concat (entries : List ChangeEntry) (e : ChangeEntry) : text (entries ++ [e]) = text entries ++ e.path := by
  unfold text
  rw [List.flatMap_append, List.flatMap_singleton]

/-- The entries for paths that are laid one behind another from a position on. -/
def place : ℕ → List ChangeEntry → List Entry
  | _, [] => []
  | cursor, e :: rest => ⟨e.kind, cursor, e.path.length * 2, e.path.length * 2⟩ :: place (cursor + e.path.length) rest

theorem length_place (cursor : ℕ) (entries : List ChangeEntry) : (place cursor entries).length = entries.length := by
  induction entries generalizing cursor with
  | nil => rfl
  | cons e rest ih => rw [place, List.length_cons, List.length_cons, ih]

theorem place_concat (cursor : ℕ) (entries : List ChangeEntry) (e : ChangeEntry) :
    place cursor (entries ++ [e]) = place cursor entries ++ [⟨e.kind, cursor + (text entries).length, e.path.length * 2, e.path.length * 2⟩] := by
  induction entries generalizing cursor with
  | nil => rfl
  | cons first rest ih =>
    have htext : (text (first :: rest)).length = first.path.length + (text rest).length := by
      unfold text
      rw [List.flatMap_cons, List.length_append]
    rw [List.cons_append, place, ih, place, List.cons_append, htext, Nat.add_assoc]

/-- A block some of whose entries are written, what is behind them and behind their characters
being as given. -/
def Block.holding (b : Block) (done : List ChangeEntry) (rest : List WChar) (blanks : List Entry) : Block :=
  { b with entries := place 0 done ++ blanks, chars := text done ++ rest }

theorem turnSlashes_eq (front name rest : List WChar) {cursor c : ℕ} (h : cursor + c = front.length) :
    turnSlashes cursor name.length c (front ++ (name ++ rest)) = .ok (front ++ (name.map turn ++ rest)) := by
  induction name generalizing front c with
  | nil => rfl
  | cons w name ih =>
    have hread : readAt (front ++ (w :: name ++ rest)) (cursor + c) = (.ok w : Checked Failure WChar) := by
      rw [readAt_eq_ok, h, List.getElem?_append_right (Nat.le_refl _), Nat.sub_self]
      rfl
    have hnext := ih (front ++ [turn w]) (c := c + 1) (by rw [List.length_append, List.length_singleton]; omega)
    rw [List.append_assoc, List.append_assoc, List.singleton_append, List.singleton_append] at hnext
    rw [List.length_cons, turnSlashes, hread, Checked.ok_bind, List.map_cons, List.cons_append, List.cons_append, ← hnext]
    dsimp only
    unfold turn
    split_ifs with hslash
    · rw [h, writeAt_append, Checked.ok_bind]
    · rw [Checked.ok_bind]

section Decode

variable (U : Converter)

theorem convertTo_eq (front rest : List WChar) (path : List UInt8) (hroom : path.length ≤ rest.length) (hlt : path.length * 2 < 2 ^ 32) :
    convertTo U (front ++ rest) front.length (ulong (path.length * 2)) path =
      match U.toUnicodeN path.length path with
      | .error code => .error (.conversion code)
      | .ok name => .ok (front ++ (name ++ rest.drop name.length), name.length * 2) := by
  have hfits : ¬ (front ++ rest).length < front.length + path.length := by
    rw [List.length_append]
    omega
  rw [convertTo, ulong_of_lt hlt, Nat.mul_div_cancel _ Nat.two_pos, if_neg hfits]
  cases hname : U.toUnicodeN path.length path with
  | error code => rfl
  | ok name =>
    have hle := U.length_le _ _ _ hname
    dsimp only
    rw [List.take_left', List.drop_append, List.drop_eq_nil_of_le (Nat.le_add_right _ _), List.nil_append, Nat.add_sub_cancel_left, List.append_assoc,
      ulong_of_lt (by omega)]
    rfl

variable (b : Block) (done : List ChangeEntry) (blank : Entry) (blanks : List Entry) (kind : ChangeKind)

theorem finishPath_eq (name rest old : List WChar) :
    finishPath kind (b.holding done old (blank :: blanks)) (text done).length done.length (text done ++ separator :: (name ++ rest)) (name.length * 2) =
      if (1 + name.length) * 2 > maxUShort then .error .invalidParameter
      else
        let e : ChangeEntry := ⟨separator :: name.map turn, kind⟩
        .ok (b.holding (done ++ [e]) rest blanks, (text (done ++ [e])).length) := by
  unfold finishPath
  rw [Nat.mul_div_cancel _ Nat.two_pos]
  dsimp only
  split_ifs with hlong
  · rfl
  · have hturned := turnSlashes_eq (text done ++ [separator]) name rest
      (show (text done).length + 1 = (text done ++ [separator]).length by rw [List.length_append, List.length_singleton])
    rw [List.append_assoc, List.append_assoc, List.singleton_append, List.singleton_append] at hturned
    have hplaced := writeAt_append (ε := Failure) (place 0 done) blanks blank
      ⟨kind, (text done).length, (1 + name.length) * 2 % 2 ^ 16, (1 + name.length) * 2 % 2 ^ 16⟩
    rw [length_place] at hplaced
    rw [Nat.add_sub_cancel_left, hturned, Checked.ok_bind]
    unfold Block.holding
    dsimp only
    rw [hplaced, Checked.ok_bind, text_concat, place_concat, List.append_assoc, List.append_assoc, Nat.zero_add, List.length_append, List.length_cons,
      List.length_map, Nat.mod_eq_of_lt (by unfold maxUShort at hlong; omega), Nat.add_comm 1]
    rfl

/-- A path is written behind those before it, or the decoder fails for it. -/
theorem putPath_eq (path : Vec UInt8) {rest : List WChar} (hroom : path.length < rest.length) (hlt : path.length * 2 < 2 ^ 32) :
    putPath U kind path (b.holding done rest (blank :: blanks)) (text done).length done.length =
      Checked.ofExcept (entryOf U (kind, path)) >>= fun e =>
        .ok (b.holding (done ++ [e]) (rest.drop e.path.length) blanks, (text (done ++ [e])).length) := by
  cases rest with
  | nil => exact absurd hroom (Nat.not_lt_zero _)
  | cons w rest =>
    have hwrite : writeAt (text done ++ w :: rest) (text done).length separator = (.ok (text done ++ separator :: rest) : Checked Failure (List WChar)) :=
      writeAt_append _ _ _ _
    unfold putPath entryOf spelled
    dsimp only [Block.holding]
    rw [hwrite, Checked.ok_bind]
    by_cases hempty : path.length = 0
    · rw [if_neg (not_not.2 hempty), if_pos hempty]
      exact finishPath_eq b done blank blanks kind [] rest _
    · have hconvert := convertTo_eq U (text done ++ [separator]) rest path.toList (Nat.le_of_lt_succ hroom) hlt
      rw [List.append_assoc, List.singleton_append, List.length_append, List.length_singleton] at hconvert
      rw [if_pos hempty, if_neg hempty]
      unfold Vec.length
      rw [hconvert]
      cases U.toUnicodeN path.toList.length path.toList with
      | error code => rfl
      | ok name =>
        have hfinish := finishPath_eq b done blank blanks kind name (rest.drop name.length) (w :: rest)
        dsimp only [Checked.ok_bind]
        rw [List.append_assoc, List.singleton_append]
        refine hfinish.trans ?_
        split_ifs with hlong
        · rfl
        · dsimp only [Except.map, Checked.ofExcept_ok, Checked.ok_bind]
          rw [List.length_cons, List.length_map, List.drop_succ_cons]
          rfl

theorem entryOf_length {item : ChangeKind × Vec UInt8} {e : ChangeEntry} (h : entryOf U item = .ok e) : e.path.length ≤ 1 + item.2.length := by
  unfold entryOf spelled at h
  by_cases hempty : item.2.length = 0
  · rw [if_pos hempty] at h
    cases h
    exact Nat.le_add_right _ _
  · rw [if_neg hempty] at h
    cases hname : U.toUnicodeN item.2.length item.2.toList with
    | error code => rw [hname] at h; exact nomatch h
    | ok name =>
      have hle := U.length_le _ _ _ hname
      rw [hname] at h
      dsimp only at h
      split_ifs at h
      · exact nomatch h
      · cases h
        rw [List.length_cons, List.length_map]
        omega

theorem entriesOf_length {items : List (ChangeKind × Vec UInt8)} {entries : List ChangeEntry} (h : items.mapM (entryOf U) = .ok entries) :
    entries.length = items.length ∧ (text entries).length ≤ items.length + utf8Bytes (items.map (·.2)) := by
  induction items generalizing entries with
  | nil =>
    cases h
    exact ⟨rfl, Nat.le_refl _⟩
  | cons item items ih =>
    rw [List.mapM_cons] at h
    cases he : entryOf U item with
    | error e => rw [he] at h; exact nomatch h
    | ok e =>
      cases hrest : items.mapM (entryOf U) with
      | error e => rw [he, hrest] at h; exact nomatch h
      | ok rest =>
        rw [he, hrest] at h
        cases h
        have hrest := ih hrest
        have hle := entryOf_length U he
        have htext : (text (e :: rest)).length = e.path.length + (text rest).length := List.length_append
        rw [List.map_cons, utf8Bytes_cons, List.length_cons, List.length_cons, htext]
        omega

theorem text_append (entries rest : List ChangeEntry) : text (entries ++ rest) = text entries ++ text rest := List.flatMap_append

/-- The block once more entries are written, the cursor and the next entry. -/
def Block.extended (b : Block) (done : List ChangeEntry) (rest : List WChar) (blanks : List Entry) (entries : List ChangeEntry) : Block × ℕ × ℕ :=
  (b.holding (done ++ entries) (rest.drop (text entries).length) (blanks.drop entries.length), (text (done ++ entries)).length,
    (done ++ entries).length)

theorem Block.extended_nil (rest : List WChar) : b.extended done rest blanks [] = (b.holding done rest blanks, (text done).length, done.length) := by
  unfold Block.extended
  rw [List.append_nil]
  rfl

theorem Block.extended_append (rest : List WChar) (entries more : List ChangeEntry) :
    b.extended (done ++ entries) (rest.drop (text entries).length) (blanks.drop entries.length) more = b.extended done rest blanks (entries ++ more) := by
  unfold Block.extended
  have htext : (text (entries ++ more)).length = (text entries).length + (text more).length := by rw [text_append, List.length_append]
  have hlength : (entries ++ more).length = entries.length + more.length := List.length_append
  rw [List.append_assoc, List.drop_drop, List.drop_drop, htext, hlength]

/-- One list's paths are written behind those before them, unless the decoder fails for one. -/
theorem putList_eq (paths : List (Vec UInt8)) {rest : List WChar} (hroom : paths.length + utf8Bytes paths ≤ rest.length)
    (hblanks : paths.length ≤ blanks.length) (hlt : utf8Bytes paths * 2 < 2 ^ 32) :
    putList U kind paths (b.holding done rest blanks) (text done).length done.length =
      Checked.ofExcept ((paths.map (kind, ·)).mapM (entryOf U)) >>= fun entries => .ok (b.extended done rest blanks entries) := by
  induction paths generalizing done rest blanks with
  | nil =>
    rw [List.map_nil, List.mapM_nil]
    exact congrArg Checked.ok (Block.extended_nil b done blanks rest).symm
  | cons path paths ih =>
    rw [utf8Bytes_cons] at hroom hlt
    cases blanks with
    | nil => exact absurd hblanks (Nat.not_succ_le_zero _)
    | cons blank blanks =>
      rw [List.length_cons] at hroom hblanks
      rw [List.length_cons] at hblanks
      rw [putList, putPath_eq U b done blank blanks kind path (by omega) (by omega), List.map_cons, List.mapM_cons, Checked.ofExcept_bind]
      cases he : entryOf U (kind, path) with
      | error e => rfl
      | ok e =>
        have hle : e.path.length ≤ 1 + path.length := entryOf_length U he
        have hrest := ih (done ++ [e]) blanks
          (show paths.length + utf8Bytes paths ≤ (rest.drop e.path.length).length by rw [List.length_drop]; omega) (by omega) (by omega)
        rw [List.length_append, List.length_singleton] at hrest
        simp only [Checked.ofExcept_ok, Checked.ok_bind, hrest]
        cases (paths.map (kind, ·)).mapM (entryOf U) with
        | error e => rfl
        | ok entries =>
          have happend := Block.extended_append b done (blank :: blanks) rest [e] entries
          have htext : text [e] = e.path := List.flatMap_singleton _ _
          rw [htext] at happend
          exact congrArg Checked.ok happend

/-- The listed paths are written one behind another, unless the decoder fails for one. -/
theorem putLists_eq (lists : List (ChangeKind × Option (Vec (Vec UInt8)))) (rest : List WChar) {listed : List (ChangeKind × Vec UInt8)}
    (hlisted : listed = lists.flatMap fun list => (stringsOf list.2).map (list.1, ·)) (hcount : done.length + listed.length = b.count)
    (hroom : listed.length + utf8Bytes (listed.map (·.2)) ≤ rest.length) (hblanks : listed.length ≤ blanks.length)
    (hlt : utf8Bytes (listed.map (·.2)) * 2 < 2 ^ 32) :
    putLists U lists (b.holding done rest blanks) (text done).length done.length =
      Checked.ofExcept (listed.mapM (entryOf U)) >>= fun entries => .ok (b.extended done rest blanks entries) := by
  induction lists generalizing done rest blanks listed with
  | nil =>
    subst hlisted
    exact congrArg Checked.ok (Block.extended_nil b done blanks rest).symm
  | cons list lists ih =>
    obtain ⟨kind, list⟩ := list
    unfold putLists
    split_ifs with hmore
    · have hpaths : ((stringsOf list).map (kind, ·)).map (·.2) = stringsOf list := by
        rw [List.map_map]
        exact List.map_id _
      rw [List.flatMap_cons] at hlisted
      subst hlisted
      dsimp only at hcount hroom hblanks hlt ⊢
      rw [List.length_append, List.length_map] at hcount hroom hblanks
      rw [List.map_append, utf8Bytes_append, hpaths] at hroom hlt
      rw [putList_eq U b done blanks kind (stringsOf list) (by omega) (by omega) (by omega), List.mapM_append, Checked.ofExcept_bind]
      cases hentries : ((stringsOf list).map (kind, ·)).mapM (entryOf U) with
      | error e => rfl
      | ok entries =>
        obtain ⟨hlength, htext⟩ := entriesOf_length U hentries
        rw [hpaths] at htext
        rw [List.length_map] at hlength htext
        have hrest := ih (done ++ entries) (blanks.drop entries.length) (rest.drop (text entries).length) rfl (by rw [List.length_append]; omega)
          (by rw [List.length_drop]; omega) (by rw [List.length_drop]; omega) (by omega)
        simp only [Checked.ofExcept_ok, Checked.ok_bind]
        have hstep : putLists U lists (b.extended done rest blanks entries).1 (b.extended done rest blanks entries).2.1
            (b.extended done rest blanks entries).2.2 = _ := hrest
        rw [hstep, Checked.ofExcept_bind]
        cases (lists.flatMap fun list => (stringsOf list.2).map (list.1, ·)).mapM (entryOf U) with
        | error e => rfl
        | ok more => exact congrArg Checked.ok (Block.extended_append b done blanks rest entries more)
    · have hnil : listed = [] := List.length_eq_zero_iff.1 (by change ¬ done.length < b.count at hmore; omega)
      rw [hnil, List.mapM_nil]
      exact congrArg Checked.ok (Block.extended_nil b done blanks rest).symm

end Decode

/-! ### The batch that is delivered -/

/-- The paths are read where they were laid. -/
theorem read_place (front rest : List WChar) (entries : List ChangeEntry) :
    (place front.length entries).map (fun e => (⟨e.path (front ++ (text entries ++ rest)), e.kind⟩ : ChangeEntry)) = entries := by
  induction entries generalizing front with
  | nil => rfl
  | cons e entries ih =>
    have htext : text (e :: entries) = e.path ++ text entries := List.flatMap_cons
    have hrest := ih (front ++ e.path)
    rw [List.length_append, List.append_assoc, ← List.append_assoc e.path, ← htext] at hrest
    have hpath : ((front ++ (text (e :: entries) ++ rest)).drop front.length).take e.path.length = e.path := by
      rw [List.drop_left', htext, List.append_assoc, List.take_left']
      · rfl
      · rfl
    rw [place, List.map_cons, hrest]
    unfold Entry.path
    rw [Nat.mul_div_cancel _ Nat.two_pos, hpath]

/-- What is laid from a position on stays behind it, and ends with the paths. -/
theorem place_bounds {cursor : ℕ} {entries : List ChangeEntry} {e : Entry} (he : e ∈ place cursor entries) :
    cursor ≤ e.buffer ∧ e.buffer + e.length / 2 ≤ cursor + (text entries).length ∧ e.maximumLength = e.length := by
  induction entries generalizing cursor with
  | nil => exact nomatch he
  | cons first entries ih =>
    have htext : (text (first :: entries)).length = first.path.length + (text entries).length := List.length_append
    rw [place] at he
    rcases List.mem_cons.1 he with rfl | he
    · dsimp only
      omega
    · have hrest := ih he
      omega

theorem place_pairwise (cursor : ℕ) (entries : List ChangeEntry) : (place cursor entries).Pairwise fun e next => e.buffer + e.length / 2 ≤ next.buffer := by
  induction entries generalizing cursor with
  | nil => exact List.Pairwise.nil
  | cons e entries ih =>
    refine List.Pairwise.cons (fun next hnext => ?_) (ih _)
    have hbounds := place_bounds hnext
    dsimp only
    omega

theorem FlatBatch.listed_paths (t : FlatBatch) : t.listed.map (·.2) = (t.lists.map (·.2)).flatMap stringsOf := by
  unfold FlatBatch.listed
  rw [List.map_flatMap, List.flatMap_map]
  refine List.flatMap_congr fun list _ => ?_
  rw [List.map_map]
  exact List.map_id _

/-- The first pass tells the batches that say a reset, and counts and sizes the paths of the
others. -/
theorem sizes_eq (t : FlatBatch) :
    (t.Resets → (sizeLists t.reset 0 0 (t.lists.map (·.2))).1 = true) ∧
    (¬ t.Resets → sizeLists t.reset 0 0 (t.lists.map (·.2)) = (false, t.listed.length, utf8Bytes (t.listed.map (·.2)))) := by
  unfold FlatBatch.Resets
  have hlength : t.listed.length = (t.listed.map (·.2)).length := (List.length_map _).symm
  cases t.reset with
  | true => exact ⟨fun _ => sizeLists_reset _ _ _, fun h => absurd (.inl rfl) h⟩
  | false =>
    have hsizes := sizeLists_eq (t.lists.map (·.2)) (Nat.zero_le maxEntries) (Nat.zero_le maxPathBytes)
    rw [Nat.zero_add, Nat.zero_add, ← t.listed_paths, ← hlength] at hsizes
    constructor
    · rintro (h | h)
      · exact absurd h Bool.false_ne_true
      · exact hsizes.1.2 h
    · intro h
      have hgoes : (sizeLists false 0 0 (t.lists.map (·.2))).1 ≠ true := fun hreset => h (.inr (hsizes.1.1 hreset))
      exact hsizes.2 (Bool.eq_false_iff.2 hgoes)

/-- The block has room for the entries and the characters that were counted. -/
theorem allocation_eq {count pathBytes : ℕ} (hcount : count ≤ maxEntries) (hbytes : pathBytes ≤ maxPathBytes) :
    ulong64 (ulong64 (sizeofBatch + ulong64 (count * sizeofEntry)) + ulong64 (ulong64 (count + pathBytes) * 2)) =
      sizeofBatch + count * sizeofEntry + (count + pathBytes) * 2 := by
  unfold maxEntries at hcount
  unfold maxPathBytes at hbytes
  unfold sizeofBatch sizeofEntry
  unfold ulong64
  omega

/-- A block whose entries are all written reads as they were given. -/
theorem Block.holding_batch (b : Block) (entries : List ChangeEntry) (rest : List WChar) :
    (b.holding entries rest []).batch = ⟨b.reset, b.epoch, b.generation, entries⟩ := by
  have hread := read_place [] rest entries
  unfold Block.batch Block.holding
  rw [List.append_nil]
  exact congrArg _ hread

theorem Block.holding_buffers (b : Block) (entries : List ChangeEntry) (rest : List WChar) :
    (b.holding entries rest []).entries.Pairwise (fun e next => e.buffer + e.length / 2 ≤ next.buffer) ∧
      ∀ e ∈ (b.holding entries rest []).entries, e.buffer + e.length / 2 ≤ (b.holding entries rest []).chars.length ∧ e.maximumLength = e.length := by
  unfold Block.holding
  rw [List.append_nil]
  refine ⟨place_pairwise 0 entries, fun e he => ?_⟩
  have hbounds := place_bounds he
  dsimp only
  rw [List.length_append]
  omega

/-- Every table is decoded without a write past the block, and what is delivered is a reset or
every listed path. The paths' buffers follow one another; without a batch no block is left. -/
theorem batch_decoded (U : Converter) (pool : Bool) (t : FlatBatch) :
    ∃ o, deserializeChangeBatch U pool t = .ok o ∧ o.batch.map Block.batch = t.decoded U pool ∧
      (∀ e, o.batch = .error e → o.blocks = 0) ∧
      ∀ b, o.batch = .ok b → o.blocks = 1 ∧ b.count = b.entries.length ∧
        b.entries.Pairwise (fun e next => e.buffer + e.length / 2 ≤ next.buffer) ∧
        ∀ e ∈ b.entries, e.buffer + e.length / 2 ≤ b.chars.length ∧ e.maximumLength = e.length := by
  unfold FlatBatch.decoded
  cases pool with
  | false =>
    unfold deserializeChangeBatch
    exact ⟨_, rfl, rfl, fun _ _ => rfl, nofun⟩
  | true =>
    rw [if_pos rfl]
    split_ifs with hresets
    · have hreset := (sizes_eq t).1 hresets
      unfold deserializeChangeBatch
      generalize sizeLists t.reset 0 0 (t.lists.map (·.2)) = sizes at hreset ⊢
      obtain ⟨reset, count, pathBytes⟩ := sizes
      change reset = true at hreset
      subst hreset
      exact ⟨_, rfl, rfl, nofun, fun b hb => by cases hb; exact ⟨rfl, rfl, List.Pairwise.nil, nofun⟩⟩
    · have hlists : ¬ t.listed.length > maxEntries ∧ ¬ utf8Bytes (t.listed.map (·.2)) > maxPathBytes := not_or.1 fun h => hresets (.inr h)
      have hcount := Nat.le_of_not_lt hlists.1
      have hbytes := Nat.le_of_not_lt hlists.2
      let b : Block := ⟨t.epoch, t.generation, false, t.listed.length, List.replicate t.listed.length .blank,
        List.replicate (t.listed.length + utf8Bytes (t.listed.map (·.2))) 0⟩
      have hput : putLists U t.lists b 0 0 = _ :=
        putLists_eq U b [] (List.replicate t.listed.length .blank) t.lists b.chars (show t.listed = _ from rfl) (Nat.zero_add _)
          (Nat.le_of_eq List.length_replicate.symm) (Nat.le_of_eq List.length_replicate.symm) (by unfold maxPathBytes at hbytes; omega)
      have hdecode : deserializeChangeBatch U true t =
          match putLists U t.lists b 0 0 with
          | .fault => .fault
          | .error e => .ok ⟨.error e, 0⟩
          | .ok (b, _, _) => .ok ⟨.ok b, 1⟩ := by
        unfold deserializeChangeBatch
        rw [(sizes_eq t).2 hresets]
        simp only [Bool.false_eq_true, if_false, allocation_eq hcount hbytes, if_true]
        rw [if_neg (Nat.not_lt_of_le (Nat.le_add_right _ _)), Nat.add_sub_cancel_left, Nat.mul_div_cancel _ Nat.two_pos]
      rw [hdecode, hput]
      cases hentries : t.listed.mapM (entryOf U) with
      | error e => exact ⟨_, rfl, rfl, fun _ _ => rfl, nofun⟩
      | ok entries =>
        have hlength := (entriesOf_length U hentries).1
        have hblock : (b.extended [] b.chars (List.replicate t.listed.length .blank) entries).1 =
            b.holding entries (b.chars.drop (text entries).length) [] := by
          unfold Block.extended
          rw [hlength, List.drop_of_length_le (l := List.replicate t.listed.length Entry.blank) (Nat.le_of_eq List.length_replicate)]
          rfl
        refine ⟨⟨.ok (b.extended [] b.chars (List.replicate t.listed.length .blank) entries).1, 1⟩, rfl, ?_, nofun, fun b' hb' => ?_⟩
        · exact congrArg Except.ok ((congrArg Block.batch hblock).trans (Block.holding_batch b entries _))
        · have hsame : b' = b.holding entries (b.chars.drop (text entries).length) [] := (Except.ok.inj hb').symm.trans hblock
          subst hsame
          refine ⟨rfl, ?_, Block.holding_buffers b entries _⟩
          change t.listed.length = (place 0 entries ++ []).length
          rw [List.append_nil, length_place, hlength]

end BlorgFS.ChangeFeed

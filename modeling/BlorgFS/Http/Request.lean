import BlorgFS.Http.Headers
import BlorgFS.Lib.Checked
import BlorgFS.Lib.Percent
import BlorgFS.Lib.Separated
import Mathlib.Data.Nat.Digits.Lemmas

/-! The requests, `Client.c`: how a path becomes the target of a request, and how a request is
printed into the buffer that is sized for it. Every byte goes to a position that is checked
against the buffer's length. -/

namespace BlorgFS.Http.Request

open Lib Checked

/-- The statuses a request is refused with. What the conversion of a path reports comes in as
`conversion`. -/
inductive Failure where
  | conversion (code : ℕ)
  | nameTooLong
  | insufficientResources
  | bufferOverflow
  | invalidParameter
  deriving DecidableEq, Repr

/-- `UTF8_STRING`, whose length is a `USHORT`. -/
structure Utf8String where
  bytes : Bytes
  length_lt : bytes.length < 2 ^ 16

/-- `ANSI_STRING`. -/
structure AnsiString where
  buffer : Bytes
  length : ℕ
  maximumLength : ℕ
  deriving DecidableEq, Repr

/-- A string and the zero behind it. -/
structure CString where
  text : Bytes
  no_nul : 0 ∉ text

def CString.memory (s : CString) : Bytes := s.text ++ [0]

/-! ### Paths -/

def maxUShort : ℕ := 65535

/-- `HttpIsCharacterSafeForUrl`. -/
def isCharacterSafeForUrl (c : UInt8) : Bool :=
  65 ≤ c ∧ c ≤ 90 ∨ 97 ≤ c ∧ c ≤ 122 ∨ 48 ≤ c ∧ c ≤ 57 ∨ c = 45 ∨ c = 46 ∨ c = 95 ∨ c = 126

/-- `HEX_TO_CHAR`. -/
def hexToChar (x : UInt8) : UInt8 := if x < 10 then 48 + x else 65 + x - 10

/-- The first loop of `HttpUrlEncodePathToAnsi`. -/
def encodedLengthFrom : ℕ → Bytes → ℕ
  | encodedLength, [] => encodedLength
  | encodedLength, c :: rest => encodedLengthFrom (ulong64 (encodedLength + if isCharacterSafeForUrl c then 1 else 3)) rest

/-- The second loop of `HttpUrlEncodePathToAnsi`: the buffer, `j`, and whether it stopped with
`STATUS_BUFFER_OVERFLOW`. -/
def writeEncoded (encodedLength : ℕ) : Bytes → Bytes → ℕ → Checked Failure (Bytes × ℕ × Bool)
  | [], buffer, j => .ok (buffer, j, false)
  | c :: rest, buffer, j =>
    if isCharacterSafeForUrl c then
      if ulong (j + 1) > ulong encodedLength then .ok (buffer, j, true)
      else do
        let buffer ← writeAt buffer j c
        writeEncoded encodedLength rest buffer (ulong (j + 1))
    else
      if ulong (j + 3) > ulong encodedLength then .ok (buffer, j, true)
      else do
        let buffer ← writeAt buffer j 37
        let buffer ← writeAt buffer (ulong (j + 1)) (hexToChar (c >>> 4 &&& 15))
        let buffer ← writeAt buffer (ulong (j + 2)) (hexToChar (c &&& 15))
        writeEncoded encodedLength rest buffer (ulong (j + 3))

/-- `HttpUrlEncodePathToAnsi`. The pool has no memory left, or gives out memory with something
in it. -/
def urlEncodePathToAnsi (toUtf8 : List UInt16 → Except Failure Utf8String) (pool : Option (ℕ → UInt8)) (input : List UInt16) (reserve : ℕ) :
    Checked Failure AnsiString :=
  match toUtf8 input with
  | .error e => .error e
  | .ok utf8 =>
    let encodedLength := encodedLengthFrom 0 utf8.bytes
    if reserve > maxUShort ∨ ulong64 (ulong64 (encodedLength + reserve) + 1) > maxUShort then .error .nameTooLong
    else
      match pool with
      | none => .error .insufficientResources
      | some fresh => do
        let buffer := (List.range (encodedLength + reserve + 1)).map fresh
        let (buffer, j, overflow) ← writeEncoded encodedLength utf8.bytes buffer 0
        let buffer ← writeAt buffer j 0
        if overflow then .error .bufferOverflow
        else .ok ⟨buffer, j % 2 ^ 16, (encodedLength + reserve + 1) % 2 ^ 16⟩

/-! ### Printing -/

/-- What `%hs`, `%zu` and `%lu` print. -/
inductive Arg where
  | str (memory : Bytes)
  | size (n : UInt64)
  | ulong (n : UInt32)

def decimalText (n : ℕ) : Bytes := if n = 0 then [48] else ((Nat.digits 10 n).map fun digit => (48 + digit).toUInt8).reverse

/-- The string at the start of the memory. -/
def cString (memory : Bytes) : Checked Failure Bytes := if 0 ∈ memory then .ok (memory.takeWhile (· ≠ 0)) else .fault

/-- What a format prints. A conversion without its argument is a fault. -/
def printed : Bytes → List Arg → Checked Failure Bytes
  | [], _ => .ok []
  | c :: rest, args =>
    if c = 37 then
      match rest, args with
      | 104 :: 115 :: rest, .str memory :: args => do
        let s ← cString memory
        let more ← printed rest args
        .ok (s ++ more)
      | 122 :: 117 :: rest, .size n :: args => do
        let more ← printed rest args
        .ok (decimalText n.toNat ++ more)
      | 108 :: 117 :: rest, .ulong n :: args => do
        let more ← printed rest args
        .ok (decimalText n.toNat ++ more)
      | _, _ => .fault
    else do
      let more ← printed rest args
      .ok (c :: more)

/-- `RtlStringCbPrintfA` at `buffer[first]`, where there is said to be room for `room` bytes. -/
def cbPrintf (buffer : Bytes) (first room : ℕ) (format : Bytes) (args : List Arg) : Checked Failure Bytes :=
  if room = 0 ∨ room > 2147483647 then .error .invalidParameter
  else if buffer.length < first + room then .fault
  else do
    let text ← printed format args
    if text.length < room then .ok (buffer.take first ++ text ++ 0 :: buffer.drop (first + text.length + 1)) else .error .bufferOverflow

/-- `RtlStringCbLengthA` of the string at `memory[first]`. -/
def cbLength (memory : Bytes) (first max : ℕ) : Checked Failure ℕ := do
  let stop ← scan memory (first + max) (· ≠ 0) (max + 1) first
  if stop < first + max then .ok (stop - first) else .error .invalidParameter

/-! ### Requests -/

/-- `RequestBuffer` and `RequestLength`. -/
structure Printed where
  buffer : Bytes
  length : ℕ
  deriving DecidableEq, Repr

/-- `BLORGFS_REMOTE_HOST_ANSI_MAX_BYTES`. -/
def remoteHostMax : ℕ := 136

/-- `HTTP_BUILD_REQUEST_FORMAT_STRING_MAX_BYTES`. -/
def formatMax : ℕ := 256

/-- `HttpBuildRequest`. -/
def buildRequest (remoteHost : CString) (allocated : Bool) (target : AnsiString) (format : CString) (extraDigitsBudget : ℕ)
    (startOffset endOffsetInclusive : UInt64) (isRangedRequest : Bool) : Checked Failure Printed := do
  let remoteHostLength ← cbLength remoteHost.memory 0 remoteHostMax
  let formatStringLength ← cbLength format.memory 0 formatMax
  let sendBufferSize := ulong (ulong formatStringLength + 1 + target.length + ulong extraDigitsBudget + ulong remoteHostLength)
  if allocated then
    let buffer := List.replicate sendBufferSize 0
    let buffer ←
      if isRangedRequest then
        cbPrintf buffer 0 sendBufferSize format.text [.str target.buffer, .str remoteHost.memory, .size startOffset, .size endOffsetInclusive]
      else cbPrintf buffer 0 sendBufferSize format.text [.str target.buffer, .str remoteHost.memory]
    let requestLength ← cbLength buffer 0 sendBufferSize
    .ok ⟨buffer, ulong requestLength⟩
  else .error .insufficientResources

/-- The range of `HttpGetFileCommon`, first and last byte, unless it is `STATUS_INVALID_PARAMETER`. -/
def getFileRange (startOffset length : ℕ) : Option (ℕ × ℕ) :=
  if length = 0 then none
  else
    match checkedAdd startOffset length with
    | none => none
    | some endOffsetExclusive => if endOffsetExclusive = 0 then none else some (startOffset, sizeSub endOffsetExclusive 1)

/-- `HTTP_SUBTREE_QUERY_SUFFIX_BYTES`. -/
def subtreeQuerySuffix : ℕ := 24

section Build

variable (toUtf8 : List UInt16 → Except Failure Utf8String) (remoteHost : CString) (pool : Option (ℕ → UInt8)) (allocated : Bool)

/-- `HttpBuildPathRequest`. -/
def buildPathRequest (path : List UInt16) (format : CString) (extraDigitsBudget : ℕ) (startOffset endOffsetInclusive : UInt64)
    (isRangedRequest : Bool) : Checked Failure Printed := do
  let encoded ← urlEncodePathToAnsi toUtf8 pool path 0
  buildRequest remoteHost allocated encoded format extraDigitsBudget startOffset endOffsetInclusive isRangedRequest

/-- `HttpBuildSubtreeRequest`. -/
def buildSubtreeRequest (path : List UInt16) (entries : UInt32) (format : CString) : Checked Failure Printed := do
  let encoded ← urlEncodePathToAnsi toUtf8 pool path subtreeQuerySuffix
  let suffixRoom := sizeSub encoded.maximumLength encoded.length
  let buffer ← cbPrintf encoded.buffer encoded.length suffixRoom (ascii "&subtree=%lu") [.ulong entries]
  let suffixLength ← cbLength buffer encoded.length suffixRoom
  let encoded := { encoded with buffer := buffer, length := (encoded.length + suffixLength % 2 ^ 16) % 2 ^ 16 }
  buildRequest remoteHost allocated encoded format 0 0 0 false

end Build

/-- A range that does not wrap is as long as what is asked for. -/
theorem getFileRange_eq {startOffset length : ℕ} (hlength : 0 < length) (h : startOffset + length < 2 ^ 64) :
    getFileRange startOffset length = some (startOffset, startOffset + length - 1) := by
  unfold getFileRange
  rw [if_neg (by omega), checkedAdd_of_lt h]
  dsimp only
  rw [if_neg (by omega), sizeSub_of_le (by omega) h]

/-! ### What the encoder writes -/

/-- The path of a target. -/
def encoded (utf8 : Utf8String) : Bytes := Percent.encode isCharacterSafeForUrl utf8.bytes

theorem percent_unsafe : isCharacterSafeForUrl 37 = false := by decide

theorem encode_length_le (l : Bytes) : (Percent.encode isCharacterSafeForUrl l).length ≤ 3 * l.length := by
  induction l with
  | nil => exact Nat.le_refl _
  | cons c l ih =>
    have hbyte : (Percent.encodeByte isCharacterSafeForUrl c).length ≤ 3 := by
      unfold Percent.encodeByte
      split_ifs
      · exact Nat.le_add_left 1 2
      · exact Nat.le_refl 3
    rw [Percent.encode_cons, List.length_append, List.length_cons]
    omega

/-- The sizing pass counts what is to be written. -/
theorem encodedLengthFrom_eq (l : Bytes) : ∀ n, n + 3 * l.length < 2 ^ 64 →
    encodedLengthFrom n l = n + (Percent.encode isCharacterSafeForUrl l).length := by
  induction l with
  | nil => exact fun _ _ => rfl
  | cons c l ih =>
    intro n hn
    rw [List.length_cons] at hn
    have hbyte : (Percent.encodeByte isCharacterSafeForUrl c).length = if isCharacterSafeForUrl c then 1 else 3 := by
      unfold Percent.encodeByte
      split_ifs <;> rfl
    have hle : (if isCharacterSafeForUrl c then 1 else 3) ≤ 3 := by
      split_ifs
      · exact Nat.le_add_left 1 2
      · exact Nat.le_refl 3
    rw [encodedLengthFrom, ulong64_of_lt (by omega), ih _ (by omega), Percent.encode_cons, List.length_append, hbyte, Nat.add_assoc]

/-- The writing pass fills the room that was counted, and finds it large enough. -/
theorem writeEncoded_eq (encodedLength : ℕ) (hmax : encodedLength < 2 ^ 16) (l : Bytes) : ∀ (front room back : Bytes),
    room.length = (Percent.encode isCharacterSafeForUrl l).length → front.length + room.length ≤ encodedLength →
    writeEncoded encodedLength l (front ++ (room ++ back)) front.length =
      .ok (front ++ (Percent.encode isCharacterSafeForUrl l ++ back), front.length + room.length, false) := by
  induction l with
  | nil =>
    intro front room back hroom _
    obtain rfl := List.eq_nil_of_length_eq_zero hroom
    rfl
  | cons c l ih =>
    intro front room back hroom hfits
    rw [Percent.encode_cons, List.length_append] at hroom
    unfold writeEncoded
    by_cases hsafe : isCharacterSafeForUrl c = true
    · have hbyte : Percent.encodeByte isCharacterSafeForUrl c = [c] := if_pos hsafe
      rw [hbyte, List.length_singleton] at hroom
      obtain ⟨b, room, rfl⟩ := List.exists_cons_of_length_pos (show 0 < room.length by omega)
      rw [List.length_cons] at hroom hfits
      have hnext := ih (front ++ [c]) room back (by omega) (by rw [List.length_append, List.length_singleton]; omega)
      rw [List.append_assoc, List.singleton_append, List.length_append, List.length_singleton] at hnext
      rw [if_pos hsafe, ulong_of_lt (by omega), ulong_of_lt (by omega), if_neg (by omega), List.cons_append, writeAt_append, ok_bind, hnext,
        Percent.encode_cons, hbyte, List.singleton_append, List.append_assoc, List.singleton_append, List.length_cons, List.cons_append]
      congr 3
      omega
    · have hbyte : Percent.encodeByte isCharacterSafeForUrl c = [37, hexToChar (c >>> 4 &&& 15), hexToChar (c &&& 15)] := if_neg hsafe
      simp only [hbyte, List.length_cons, List.length_nil] at hroom
      obtain ⟨b, room, rfl⟩ := List.exists_cons_of_length_pos (show 0 < room.length by omega)
      obtain ⟨b', room, rfl⟩ := List.exists_cons_of_length_pos (show 0 < room.length by simp only [List.length_cons] at hroom; omega)
      obtain ⟨b'', room, rfl⟩ := List.exists_cons_of_length_pos (show 0 < room.length by simp only [List.length_cons] at hroom; omega)
      simp only [List.length_cons] at hroom hfits
      -- The three bytes go one behind the other.
      have hhigh := writeAt_append (ε := Failure) (front ++ [37]) (b'' :: (room ++ back)) b' (hexToChar (c >>> 4 &&& 15))
      have hlow := writeAt_append (ε := Failure) (front ++ [37, hexToChar (c >>> 4 &&& 15)]) (room ++ back) b'' (hexToChar (c &&& 15))
      have hnext := ih (front ++ [37, hexToChar (c >>> 4 &&& 15), hexToChar (c &&& 15)]) room back (by omega)
        (by simp only [List.length_append, List.length_cons, List.length_nil]; omega)
      simp only [List.append_assoc, List.cons_append, List.nil_append, List.length_append, List.length_cons, List.length_nil] at hhigh hlow hnext
      rw [if_neg hsafe, ulong_of_lt (n := front.length + 3) (by omega), ulong_of_lt (n := encodedLength) (by omega), if_neg (by omega),
        List.cons_append, List.cons_append, List.cons_append, writeAt_append, ok_bind, ulong_of_lt (n := front.length + 1) (by omega), hhigh, ok_bind,
        ulong_of_lt (n := front.length + 2) (by omega), hlow, ok_bind, hnext, Percent.encode_cons, hbyte]
      simp only [List.cons_append, List.nil_append, List.length_cons]
      congr 3
      omega

/-- What is encoded, with the zero and the room behind it, when there is memory for it and its
length is a `USHORT`. -/
theorem urlEncode_cases {toUtf8 : List UInt16 → Except Failure Utf8String} (pool : Option (ℕ → UInt8)) {input : List UInt16} (reserve : ℕ)
    {utf8 : Utf8String} (h : toUtf8 input = .ok utf8) :
    urlEncodePathToAnsi toUtf8 pool input reserve = .error .nameTooLong ∨
    urlEncodePathToAnsi toUtf8 pool input reserve = .error .insufficientResources ∨
    ∃ back : Bytes, back.length = reserve ∧ (encoded utf8).length + reserve + 1 ≤ maxUShort ∧
      urlEncodePathToAnsi toUtf8 pool input reserve =
        .ok ⟨encoded utf8 ++ 0 :: back, (encoded utf8).length, (encoded utf8).length + reserve + 1⟩ := by
  have hbytes := utf8.length_lt
  have hle := encode_length_le utf8.bytes
  have hcount : encodedLengthFrom 0 utf8.bytes = (encoded utf8).length := by
    rw [encodedLengthFrom_eq _ _ (by omega), Nat.zero_add]
    rfl
  have hmax : maxUShort = 65535 := rfl
  have hle' : (encoded utf8).length ≤ 3 * utf8.bytes.length := hle
  unfold urlEncodePathToAnsi
  rw [h]
  dsimp only
  rw [hcount]
  split_ifs with hlong
  · exact .inl rfl
  · rw [not_or] at hlong
    rw [ulong64_of_lt (n := (encoded utf8).length + reserve) (by omega), ulong64_of_lt (by omega)] at hlong
    cases pool with
    | none => exact .inr (.inl rfl)
    | some fresh =>
      right
      right
      generalize hfresh : (List.range ((encoded utf8).length + reserve + 1)).map fresh = memory
      have hmemory : memory.length = (encoded utf8).length + reserve + 1 := by rw [← hfresh, List.length_map, List.length_range]
      have hroom : (memory.take (encoded utf8).length).length = (encoded utf8).length := by
        rw [List.length_take]
        omega
      obtain ⟨b, back, hback⟩ := List.exists_cons_of_length_pos (l := memory.drop (encoded utf8).length) (by rw [List.length_drop]; omega)
      have hlength : back.length = reserve := by
        have hcons := congrArg List.length hback
        rw [List.length_drop, List.length_cons] at hcons
        omega
      have hwritten := writeEncoded_eq (encoded utf8).length (by omega) utf8.bytes [] (memory.take (encoded utf8).length) (b :: back) hroom
        (by rw [List.length_nil, hroom, Nat.zero_add])
      rw [← hback, List.take_append_drop, List.nil_append, List.length_nil, Nat.zero_add, hroom, List.nil_append, hback] at hwritten
      refine ⟨back, hlength, by omega, ?_⟩
      dsimp only
      rw [hfresh, hwritten, ok_bind]
      dsimp only
      have hend := writeAt_append (ε := Failure) (encoded utf8) back b 0
      have he : Percent.encode isCharacterSafeForUrl utf8.bytes = encoded utf8 := rfl
      rw [he, hend, ok_bind, if_neg Bool.false_ne_true, Nat.mod_eq_of_lt (by omega), Nat.mod_eq_of_lt (by omega)]

/-! ### What is printed -/

theorem cString_eq {text rest : Bytes} (h : 0 ∉ text) : cString (text ++ 0 :: rest) = .ok text := by
  have hmem : (0 : UInt8) ∈ text ++ 0 :: rest := List.mem_append_right _ List.mem_cons_self
  unfold cString
  rw [if_pos hmem, List.takeWhile_append_of_pos, List.takeWhile_cons_of_neg, List.append_nil]
  · exact fun hne => of_decide_eq_true hne rfl
  · exact fun b hb => decide_eq_true fun he => h (he ▸ hb)

theorem CString.cString_memory (s : CString) : cString s.memory = .ok s.text := cString_eq s.no_nul

theorem cbLength_eq (front : Bytes) {text : Bytes} (rest : Bytes) (max : ℕ) (h : 0 ∉ text) :
    cbLength (front ++ (text ++ 0 :: rest)) front.length max = if text.length < max then .ok text.length else .error .invalidParameter := by
  have hnonzero : ∀ b ∈ text, decide (b ≠ 0) = true := fun b hb => decide_eq_true fun he => h (he ▸ hb)
  unfold cbLength
  rw [scan_stops front text hnonzero rfl (by omega) (by omega), ok_bind]
  by_cases hlt : text.length < max
  · rw [Nat.min_eq_right (by omega), if_pos (by omega), if_pos hlt, Nat.add_sub_cancel_left]
  · rw [Nat.min_eq_left (by omega), if_neg (by omega), if_neg hlt]

theorem CString.cbLength_memory (s : CString) (max : ℕ) :
    cbLength s.memory 0 max = if s.text.length < max then .ok s.text.length else .error .invalidParameter :=
  cbLength_eq [] [] max s.no_nul

theorem decimalText_length {n k : ℕ} (hk : 0 < k) (h : n < 10 ^ k) : (decimalText n).length ≤ k := by
  unfold decimalText
  split_ifs
  · exact hk
  · rw [List.length_reverse, List.length_map, Nat.digits_length_le_iff (by decide)]
    exact h

/-- Digits are neither a zero nor a space. -/
theorem decimalText_mem {n : ℕ} {b : UInt8} (h : b ∈ decimalText n) : 48 ≤ b ∧ b ≤ 57 := by
  unfold decimalText at h
  split_ifs at h
  · obtain rfl := List.mem_singleton.mp h
    exact ⟨by decide, by decide⟩
  · obtain ⟨digit, hdigit, rfl⟩ := List.mem_map.mp (List.mem_reverse.mp h)
    have hlt := Nat.digits_lt_base (by decide : 1 < 10) hdigit
    interval_cases digit <;> exact ⟨by decide, by decide⟩

theorem zero_notMem_decimalText (n : ℕ) : 0 ∉ decimalText n := fun h => absurd (decimalText_mem h).1 (by decide)

/-- Text with no conversion in it prints as it is. -/
theorem printed_append {piece : Bytes} (h : 37 ∉ piece) (format : Bytes) (args : List Arg) :
    printed (piece ++ format) args = (do
      let more ← printed format args
      .ok (piece ++ more)) := by
  induction piece with
  | nil =>
    rw [List.nil_append]
    cases printed format args <;> rfl
  | cons c piece ih =>
    rw [List.mem_cons, not_or] at h
    rw [List.cons_append, printed.eq_def]
    dsimp only
    rw [if_neg (Ne.symm h.1), ih h.2]
    cases printed format args <;> rfl

theorem printed_str {memory text : Bytes} (h : cString memory = .ok text) (format : Bytes) (args : List Arg) :
    printed (ascii "%hs" ++ format) (.str memory :: args) = (do
      let more ← printed format args
      .ok (text ++ more)) := by
  rw [show ascii "%hs" = [37, 104, 115] from rfl, List.cons_append, printed.eq_def]
  dsimp only
  rw [if_pos rfl]
  change (do
    let s ← cString memory
    let more ← printed format args
    .ok (s ++ more)) = _
  rw [h]
  rfl

theorem printed_size (n : UInt64) (format : Bytes) (args : List Arg) :
    printed (ascii "%zu" ++ format) (.size n :: args) = (do
      let more ← printed format args
      .ok (decimalText n.toNat ++ more)) := by
  rw [show ascii "%zu" = [37, 122, 117] from rfl, List.cons_append, printed.eq_def]
  dsimp only
  rw [if_pos rfl]
  rfl

theorem printed_ulong (n : UInt32) (format : Bytes) (args : List Arg) :
    printed (ascii "%lu" ++ format) (.ulong n :: args) = (do
      let more ← printed format args
      .ok (decimalText n.toNat ++ more)) := by
  rw [show ascii "%lu" = [37, 108, 117] from rfl, List.cons_append, printed.eq_def]
  dsimp only
  rw [if_pos rfl]
  rfl

/-- A buffer with room for the text and a zero takes them. -/
theorem cbPrintf_eq {buffer : Bytes} (front back : Bytes) {room : ℕ} {format text : Bytes} {args : List Arg} (hprinted : printed format args = .ok text)
    (hroom : room ≤ 2147483647) (hfits : text.length < room) (hbuffer : buffer = front ++ back) (hback : back.length = room) :
    cbPrintf buffer front.length room format args = .ok (front ++ (text ++ 0 :: back.drop (text.length + 1))) := by
  have hlength : buffer.length = front.length + room := by rw [hbuffer, List.length_append, hback]
  have htake : buffer.take front.length = front := by rw [hbuffer, List.take_left]
  have hdrop : buffer.drop (front.length + text.length + 1) = back.drop (text.length + 1) := by
    rw [hbuffer, Nat.add_assoc, ← List.drop_drop, List.drop_left]
  unfold cbPrintf
  rw [if_neg (by omega), if_neg (by omega), hprinted, ok_bind, if_pos hfits, htake, hdrop, List.append_assoc]

/-! ### What is built -/

/-- A target: a string with no zero and no space in it, whose counted length is its own. -/
structure Target (text : Bytes) (target : AnsiString) : Prop where
  length_eq : target.length = text.length
  length_lt : text.length < 2 ^ 16
  no_nul : 0 ∉ text
  memory : ∃ back, target.buffer = text ++ 0 :: back

/-- A request is in the buffer that was sized for it, with a zero behind it, unless the host's
name is too long or there is no memory. -/
def Fits (remoteHost : CString) (text : Bytes) (result : Checked Failure Printed) : Prop :=
  (result = .error .invalidParameter ∧ remoteHostMax ≤ remoteHost.text.length) ∨ result = .error .insufficientResources ∨
    ∃ back, result = .ok ⟨text ++ 0 :: back, text.length⟩

/-- The buffer is large enough for what is printed. -/
theorem buildRequest_fits {remoteHost format : CString} {allocated isRangedRequest : Bool} {target : AnsiString} {s text : Bytes} {extraDigitsBudget : ℕ}
    {startOffset endOffsetInclusive : UInt64} (htarget : Target s target) (hformat : format.text.length < formatMax) (hbudget : extraDigitsBudget ≤ 40)
    (hprinted : printed format.text (if isRangedRequest then
      [.str target.buffer, .str remoteHost.memory, .size startOffset, .size endOffsetInclusive] else [.str target.buffer, .str remoteHost.memory]) = .ok text)
    (hnul : 0 ∉ text) (hfits : text.length ≤ format.text.length + s.length + extraDigitsBudget + remoteHost.text.length) :
    Fits remoteHost text (buildRequest remoteHost allocated target format extraDigitsBudget startOffset endOffsetInclusive isRangedRequest) := by
  have hmax : remoteHostMax = 136 := rfl
  have hmax' : formatMax = 256 := rfl
  have hlength := htarget.length_lt
  unfold buildRequest
  rw [CString.cbLength_memory]
  by_cases hhost : remoteHost.text.length < remoteHostMax
  · rw [if_pos hhost, ok_bind, CString.cbLength_memory, if_pos hformat, ok_bind, ulong_of_lt (n := format.text.length) (by omega),
      ulong_of_lt (n := extraDigitsBudget) (by omega), ulong_of_lt (n := remoteHost.text.length) (by omega), htarget.length_eq, ulong_of_lt (by omega)]
    dsimp only
    generalize hsize : format.text.length + 1 + s.length + extraDigitsBudget + remoteHost.text.length = size
    cases allocated with
    | false => exact .inr (.inl (if_neg Bool.false_ne_true))
    | true =>
      right
      right
      have hbuffer := cbPrintf_eq [] (List.replicate size 0) hprinted (show size ≤ 2147483647 by omega) (by omega)
        (List.nil_append _).symm List.length_replicate
      rw [List.nil_append, List.length_nil] at hbuffer
      have hlength' := cbLength_eq [] ((List.replicate size 0).drop (text.length + 1)) size hnul
      rw [List.nil_append, List.length_nil, if_pos (by omega)] at hlength'
      refine ⟨(List.replicate size 0).drop (text.length + 1), ?_⟩
      rw [if_pos rfl]
      cases isRangedRequest with
      | false =>
        rw [if_neg Bool.false_ne_true] at hbuffer ⊢
        rw [hbuffer, ok_bind, hlength', ok_bind, ulong_of_lt (by omega)]
      | true =>
        rw [if_pos rfl] at hbuffer ⊢
        rw [hbuffer, ok_bind, hlength', ok_bind, ulong_of_lt (by omega)]
  · rw [if_neg hhost]
    exact .inl ⟨rfl, Nat.not_lt.mp hhost⟩

/-- The format of a listing's request. -/
def dirInfoFormat : CString :=
  ⟨ascii "GET /get_dir_info?path=%hs HTTP/1.1\r\nHost: %hs\r\nConnection: keep-alive\r\n\r\n", by decide⟩

/-- The format of an entry's request. -/
def entryInfoFormat : CString :=
  ⟨ascii "GET /get_dir_entry_info?path=%hs HTTP/1.1\r\nHost: %hs\r\nConnection: keep-alive\r\n\r\n", by decide⟩

/-- The format of a file's request. -/
def fileFormat : CString :=
  ⟨ascii "GET /get_file?path=%hs HTTP/1.1\r\nHost: %hs\r\nConnection: keep-alive\r\nRange: bytes=%zu-%zu\r\n\r\n", by decide⟩

/-- The request line and the headers that every request has. -/
def requestHead (resource target host : Bytes) : Bytes :=
  (ascii "GET " ++ resource) ++ (target ++ (ascii " HTTP/1.1\r\nHost: " ++ (host ++ ascii "\r\nConnection: keep-alive\r\n")))

def infoRequest (resource target host : Bytes) : Bytes := requestHead resource target host ++ ascii "\r\n"

def fileRequest (target host : Bytes) (startOffset endOffsetInclusive : UInt64) : Bytes :=
  requestHead (ascii "/get_file?path=") target host ++
    (ascii "Range: bytes=" ++ (decimalText startOffset.toNat ++ (ascii "-" ++ (decimalText endOffsetInclusive.toNat ++ ascii "\r\n\r\n"))))

/-- The target of a subtree's listing. -/
def subtreeTarget (utf8 : Utf8String) (entries : UInt32) : Bytes := encoded utf8 ++ (ascii "&subtree=" ++ decimalText entries.toNat)

theorem printed_head {resource target host memory memory' : Bytes} (hresource : 37 ∉ resource) (htarget : cString memory = .ok target)
    (hhost : cString memory' = .ok host) (format : Bytes) (args : List Arg) :
    printed ((ascii "GET " ++ resource) ++ (ascii "%hs" ++ (ascii " HTTP/1.1\r\nHost: " ++ (ascii "%hs" ++ (ascii "\r\nConnection: keep-alive\r\n" ++ format)))))
      (.str memory :: .str memory' :: args) = (do
        let more ← printed format args
        .ok (requestHead resource target host ++ more)) := by
  have hget : 37 ∉ ascii "GET " ++ resource := by
    rw [List.mem_append, not_or]
    exact ⟨by decide, hresource⟩
  rw [printed_append hget, printed_str htarget, printed_append (by decide), printed_str hhost, printed_append (by decide)]
  unfold requestHead
  cases printed format args with
  | fault => rfl
  | error e => rfl
  | ok more => simp only [ok_bind, List.append_assoc]

theorem requestHead_length (resource target host : Bytes) : (requestHead resource target host).length = resource.length + target.length + host.length + 47 := by
  have hget : (ascii "GET ").length = 4 := rfl
  have hhost : (ascii " HTTP/1.1\r\nHost: ").length = 17 := rfl
  have hconnection : (ascii "\r\nConnection: keep-alive\r\n").length = 26 := rfl
  unfold requestHead
  simp only [List.length_append, hget, hhost, hconnection]
  omega

theorem zero_notMem_requestHead {resource target host : Bytes} (hresource : 0 ∉ resource) (htarget : 0 ∉ target) (hhost : 0 ∉ host) :
    0 ∉ requestHead resource target host := by
  unfold requestHead
  simp only [List.mem_append, not_or]
  exact ⟨⟨by decide, hresource⟩, htarget, by decide, hhost, by decide⟩

theorem printed_file {memory target : Bytes} {remoteHost : CString} (htarget : cString memory = .ok target) (startOffset endOffsetInclusive : UInt64) :
    printed fileFormat.text [.str memory, .str remoteHost.memory, .size startOffset, .size endOffsetInclusive] =
      .ok (fileRequest target remoteHost.text startOffset endOffsetInclusive) := by
  have hsplit : fileFormat.text = (ascii "GET " ++ ascii "/get_file?path=") ++ (ascii "%hs" ++ (ascii " HTTP/1.1\r\nHost: " ++ (ascii "%hs" ++
      (ascii "\r\nConnection: keep-alive\r\n" ++ (ascii "Range: bytes=" ++ (ascii "%zu" ++ (ascii "-" ++ (ascii "%zu" ++ (ascii "\r\n\r\n" ++ []))))))))) := rfl
  rw [hsplit, printed_head (by decide) htarget remoteHost.cString_memory, printed_append (by decide), printed_size,
    printed_append (by decide), printed_size, printed_append (by decide)]
  simp only [printed, ok_bind, List.append_nil]
  rfl

/-- The format of a request that gets the information a resource has of a target. -/
structure InfoFormat (resource : Bytes) (format : CString) : Prop where
  no_percent : 37 ∉ resource
  no_nul : 0 ∉ resource
  text_eq : format.text = (ascii "GET " ++ resource) ++ (ascii "%hs" ++ (ascii " HTTP/1.1\r\nHost: " ++ (ascii "%hs" ++
    (ascii "\r\nConnection: keep-alive\r\n" ++ (ascii "\r\n" ++ [])))))
  length_lt : format.text.length < formatMax

theorem dirInfo_format : InfoFormat (ascii "/get_dir_info?path=") dirInfoFormat := ⟨by decide, by decide, rfl, by decide⟩

theorem entryInfo_format : InfoFormat (ascii "/get_dir_entry_info?path=") entryInfoFormat := ⟨by decide, by decide, rfl, by decide⟩

theorem printed_info {resource memory target : Bytes} {format remoteHost : CString} (hformat : InfoFormat resource format)
    (htarget : cString memory = .ok target) :
    printed format.text [.str memory, .str remoteHost.memory] = .ok (infoRequest resource target remoteHost.text) := by
  rw [hformat.text_eq, printed_head hformat.no_percent htarget remoteHost.cString_memory, printed_append (by decide)]
  simp only [printed, ok_bind, List.append_nil]
  rfl

section Requests

variable {toUtf8 : List UInt16 → Except Failure Utf8String} {remoteHost : CString} {pool : Option (ℕ → UInt8)} {allocated : Bool}
  {path : List UInt16} {utf8 : Utf8String} {s : Bytes} {target : AnsiString}

/-- What encoding a path never writes. -/
theorem notMem_encoded {b : UInt8} (hsafe : isCharacterSafeForUrl b = false) (hb : b ≠ 37) (hhex : Percent.hexValue b = none) : b ∉ encoded utf8 :=
  (Percent.encode_escaped utf8.bytes).not_mem hsafe hb hhex

theorem zero_notMem_encoded : 0 ∉ encoded utf8 := notMem_encoded (by decide) (by decide) (by decide)

/-- A request for a path is made of the target that encodes it. -/
def Answers (remoteHost : CString) (text : Bytes) (result : Checked Failure Printed) : Prop :=
  result = .error .nameTooLong ∨ Fits remoteHost text result

theorem info_fits {resource : Bytes} {format : CString} (hformat : InfoFormat resource format) (htarget : Target s target)
    (startOffset endOffsetInclusive : UInt64) :
    Fits remoteHost (infoRequest resource s remoteHost.text) (buildRequest remoteHost allocated target format 0 startOffset endOffsetInclusive false) := by
  obtain ⟨back, hback⟩ := htarget.memory
  have hstring : cString target.buffer = .ok s := by rw [hback, cString_eq htarget.no_nul]
  have hline : (ascii "\r\n").length = 2 := rfl
  have hlength : format.text.length = resource.length + 55 := by
    rw [hformat.text_eq]
    simp only [List.length_append, List.length_nil, show (ascii "GET ").length = 4 from rfl, show (ascii "%hs").length = 3 from rfl,
      show (ascii " HTTP/1.1\r\nHost: ").length = 17 from rfl, show (ascii "\r\nConnection: keep-alive\r\n").length = 26 from rfl, hline]
    omega
  refine buildRequest_fits htarget hformat.length_lt (by omega) ?_ ?_ ?_
  · rw [if_neg Bool.false_ne_true]
    exact printed_info hformat hstring
  · unfold infoRequest
    rw [List.mem_append, not_or]
    exact ⟨zero_notMem_requestHead hformat.no_nul htarget.no_nul remoteHost.no_nul, by decide⟩
  · unfold infoRequest
    rw [List.length_append, requestHead_length, hline]
    omega

theorem file_fits (htarget : Target s target) (startOffset endOffsetInclusive : UInt64) :
    Fits remoteHost (fileRequest s remoteHost.text startOffset endOffsetInclusive)
      (buildRequest remoteHost allocated target fileFormat 40 startOffset endOffsetInclusive true) := by
  obtain ⟨back, hback⟩ := htarget.memory
  have hstring : cString target.buffer = .ok s := by rw [hback, cString_eq htarget.no_nul]
  have hstart : (decimalText startOffset.toNat).length ≤ 20 :=
    decimalText_length (by decide) (Nat.lt_of_lt_of_le (UInt64.toNat_lt startOffset) (by decide))
  have hend : (decimalText endOffsetInclusive.toNat).length ≤ 20 :=
    decimalText_length (by decide) (Nat.lt_of_lt_of_le (UInt64.toNat_lt endOffsetInclusive) (by decide))
  refine buildRequest_fits htarget (by decide) (Nat.le_refl 40) ?_ ?_ ?_
  · rw [if_pos rfl]
    exact printed_file hstring startOffset endOffsetInclusive
  · unfold fileRequest
    simp only [List.mem_append, not_or]
    exact ⟨zero_notMem_requestHead (by decide) htarget.no_nul remoteHost.no_nul, by decide, zero_notMem_decimalText _, by decide,
      zero_notMem_decimalText _, by decide⟩
  · have hformat : fileFormat.text.length = 92 := rfl
    unfold fileRequest
    simp only [List.length_append, requestHead_length, show (ascii "/get_file?path=").length = 15 from rfl,
      show (ascii "Range: bytes=").length = 13 from rfl, show (ascii "-").length = 1 from rfl, show (ascii "\r\n\r\n").length = 4 from rfl, hformat]
    omega

/-- What the encoder answers of a path: the target, in memory with `reserve` bytes free behind
its zero. -/
structure Encodes (utf8 : Utf8String) (reserve : ℕ) (out : AnsiString) : Prop where
  target : Target (encoded utf8) out
  text : out.buffer.take out.length = encoded utf8
  room : out.length + 1 + reserve = out.buffer.length
  maximumLength_eq : out.maximumLength = out.buffer.length
  maximumLength_le : out.maximumLength ≤ maxUShort

theorem urlEncode_encodes (pool : Option (ℕ → UInt8)) (h : toUtf8 path = .ok utf8) (reserve : ℕ) :
    urlEncodePathToAnsi toUtf8 pool path reserve = .error .nameTooLong ∨
    urlEncodePathToAnsi toUtf8 pool path reserve = .error .insufficientResources ∨
    ∃ out, urlEncodePathToAnsi toUtf8 pool path reserve = .ok out ∧ Encodes utf8 reserve out := by
  obtain hlong | hnone | ⟨back, hback, hmax, hok⟩ := urlEncode_cases pool reserve h
  · exact .inl hlong
  · exact .inr (.inl hnone)
  · have hushort : maxUShort = 65535 := rfl
    have hlength : (encoded utf8 ++ 0 :: back).length = (encoded utf8).length + reserve + 1 := by
      rw [List.length_append, List.length_cons, hback]
      omega
    refine .inr (.inr ⟨_, hok, ⟨⟨rfl, by omega, zero_notMem_encoded, back, rfl⟩, List.take_left, ?_, hlength.symm, hmax⟩⟩)
    change (encoded utf8).length + 1 + reserve = _
    rw [hlength]
    omega

/-- The suffix goes into the room that was reserved for it. -/
theorem subtree_fits (h : toUtf8 path = .ok utf8) (entries : UInt32) :
    Answers remoteHost (infoRequest (ascii "/get_dir_info?path=") (subtreeTarget utf8 entries) remoteHost.text)
      (buildSubtreeRequest toUtf8 remoteHost pool allocated path entries dirInfoFormat) := by
  unfold buildSubtreeRequest
  obtain hlong | hnone | ⟨out, hok, hencodes⟩ := urlEncode_encodes pool h subtreeQuerySuffix
  · rw [hlong]
    exact .inl rfl
  · rw [hnone]
    exact .inr (.inr (.inl rfl))
  · have hushort : maxUShort = 65535 := rfl
    have hsuffix : subtreeQuerySuffix = 24 := rfl
    have hroom := hencodes.room
    have hmaximum := hencodes.maximumLength_eq
    have hmax := hencodes.maximumLength_le
    have hlength := hencodes.target.length_eq
    have hdigits : (decimalText entries.toNat).length ≤ 10 :=
      decimalText_length (by decide) (Nat.lt_of_lt_of_le (UInt32.toNat_lt entries) (by decide))
    have hprinted : printed (ascii "&subtree=%lu") [.ulong entries] = .ok (ascii "&subtree=" ++ decimalText entries.toNat) := by
      rw [show ascii "&subtree=%lu" = ascii "&subtree=" ++ (ascii "%lu" ++ []) from rfl, printed_append (by decide), printed_ulong]
      simp only [printed, ok_bind, List.append_nil]
    have hnul : 0 ∉ ascii "&subtree=" ++ decimalText entries.toNat := by
      rw [List.mem_append, not_or]
      exact ⟨by decide, zero_notMem_decimalText _⟩
    have htext : (ascii "&subtree=" ++ decimalText entries.toNat).length = 9 + (decimalText entries.toNat).length := List.length_append
    have hback : (out.buffer.drop out.length).length = 25 := by
      rw [List.length_drop]
      omega
    have hbuffer : out.buffer = encoded utf8 ++ out.buffer.drop out.length := by
      rw [← hencodes.text, List.take_append_drop]
    have hwritten := cbPrintf_eq _ _ hprinted (by decide) (by omega) hbuffer hback
    rw [← hlength] at hwritten
    have hcounted := cbLength_eq (encoded utf8) ((out.buffer.drop out.length).drop
      ((ascii "&subtree=" ++ decimalText entries.toNat).length + 1)) 25 hnul
    rw [← hlength, if_pos (by omega)] at hcounted
    rw [hok, ok_bind]
    dsimp only
    rw [sizeSub_of_le (by omega) (by omega), show out.maximumLength - out.length = 25 by omega, hwritten, ok_bind, hcounted, ok_bind]
    refine .inr (info_fits dirInfo_format ⟨?_, ?_, ?_, _, (List.append_assoc _ _ _).symm⟩ 0 0)
    · have hadd : (subtreeTarget utf8 entries).length = (encoded utf8).length + (ascii "&subtree=" ++ decimalText entries.toNat).length :=
        List.length_append
      change (out.length + (ascii "&subtree=" ++ decimalText entries.toNat).length % 2 ^ 16) % 2 ^ 16 = _
      rw [hadd, htext]
      omega
    · unfold subtreeTarget
      rw [List.length_append]
      omega
    · unfold subtreeTarget
      rw [List.mem_append, not_or]
      exact ⟨zero_notMem_encoded, hnul⟩

theorem path_answers {format : CString} {extraDigitsBudget : ℕ} {startOffset endOffsetInclusive : UInt64} {isRangedRequest : Bool} {text : Bytes}
    (h : toUtf8 path = .ok utf8) (hfits : ∀ out, Target (encoded utf8) out →
      Fits remoteHost text (buildRequest remoteHost allocated out format extraDigitsBudget startOffset endOffsetInclusive isRangedRequest)) :
    Answers remoteHost text
      (buildPathRequest toUtf8 remoteHost pool allocated path format extraDigitsBudget startOffset endOffsetInclusive isRangedRequest) := by
  unfold buildPathRequest
  obtain hlong | hnone | ⟨out, hok, hencodes⟩ := urlEncode_encodes pool h 0
  · rw [hlong]
    exact .inl rfl
  · rw [hnone]
    exact .inr (.inr (.inl rfl))
  · rw [hok, ok_bind]
    exact .inr (hfits out hencodes.target)

/-- Two requests for one resource have the same target when they are the same up to it. -/
theorem encoded_inj {utf8' : Utf8String} {c : UInt8} {rest rest' : Bytes} (hsafe : isCharacterSafeForUrl c = false) (hc : c ≠ 37)
    (hhex : Percent.hexValue c = none) (h : encoded utf8 ++ c :: rest = encoded utf8' ++ c :: rest') : utf8.bytes = utf8'.bytes :=
  Percent.encode_injective percent_unsafe
    (component_inj (notMem_encoded hsafe hc hhex) (notMem_encoded hsafe hc hhex) (atBoundary_cons rest) (atBoundary_cons rest') h).1

/-- A path whose conversion succeeds. It is too long for a target, or there is no memory, or the
target is the encoded path, in memory that has room for it and for what is reserved behind its
zero. What is encoded decodes to the path and is made of unreserved bytes and escapes; the
requests that are printed from it fit their buffers; and another path has another target, with a
suffix or without. -/
theorem path_requested (h : toUtf8 path = .ok utf8) :
    (∀ reserve, urlEncodePathToAnsi toUtf8 pool path reserve = .error .nameTooLong ∨
      urlEncodePathToAnsi toUtf8 pool path reserve = .error .insufficientResources ∨
      ∃ out, urlEncodePathToAnsi toUtf8 pool path reserve = .ok out ∧ Encodes utf8 reserve out) ∧
    Percent.decode (encoded utf8) = some utf8.bytes ∧ Percent.Escaped isCharacterSafeForUrl (encoded utf8) ∧
    (∀ b ∈ ascii " \r\n?&#", b ∉ encoded utf8) ∧
    (∀ startOffset endOffsetInclusive, Answers remoteHost (fileRequest (encoded utf8) remoteHost.text startOffset endOffsetInclusive)
      (buildPathRequest toUtf8 remoteHost pool allocated path fileFormat 40 startOffset endOffsetInclusive true)) ∧
    Answers remoteHost (infoRequest (ascii "/get_dir_info?path=") (encoded utf8) remoteHost.text)
      (buildPathRequest toUtf8 remoteHost pool allocated path dirInfoFormat 0 0 0 false) ∧
    Answers remoteHost (infoRequest (ascii "/get_dir_entry_info?path=") (encoded utf8) remoteHost.text)
      (buildPathRequest toUtf8 remoteHost pool allocated path entryInfoFormat 0 0 0 false) ∧
    (∀ entries, Answers remoteHost (infoRequest (ascii "/get_dir_info?path=") (subtreeTarget utf8 entries) remoteHost.text)
      (buildSubtreeRequest toUtf8 remoteHost pool allocated path entries dirInfoFormat)) ∧
    (∀ utf8' : Utf8String, utf8.bytes ≠ utf8'.bytes → encoded utf8 ≠ encoded utf8' ∧
      ∀ entries entries', subtreeTarget utf8 entries ≠ subtreeTarget utf8' entries') := by
  refine ⟨urlEncode_encodes pool h, Percent.decode_encode percent_unsafe _, Percent.encode_escaped _, ?_, ?_, ?_, ?_, subtree_fits h, ?_⟩
  · have hinjected : ∀ b ∈ ascii " \r\n?&#", isCharacterSafeForUrl b = false ∧ b ≠ 37 ∧ Percent.hexValue b = none := by decide +kernel
    intro b hb
    obtain ⟨hsafe, hne, hhex⟩ := hinjected b hb
    exact notMem_encoded hsafe hne hhex
  · exact fun startOffset endOffsetInclusive => path_answers h fun out htarget => file_fits htarget startOffset endOffsetInclusive
  · exact path_answers h fun out htarget => info_fits dirInfo_format htarget 0 0
  · exact path_answers h fun out htarget => info_fits entryInfo_format htarget 0 0
  · intro utf8' hne
    refine ⟨fun he => hne (Percent.encode_injective percent_unsafe he), fun entries entries' he => hne ?_⟩
    exact encoded_inj (c := 38) (by decide) (by decide) (by decide) he

end Requests

/-- The conversion of a path of ASCII characters. -/
def asciiToUtf8 (path : List UInt16) : Except Failure Utf8String :=
  if h : path.length < 2 ^ 16 then .ok ⟨path.map UInt16.toUInt8, by rwa [List.length_map]⟩ else .error (.conversion 0)

theorem path_requested_blank : ∃ utf8 : Utf8String, utf8.bytes = ascii "/a b" ∧ encoded utf8 = ascii "%2Fa%20b" ∧
    Answers ⟨ascii "host", by decide⟩ (infoRequest (ascii "/get_dir_info?path=") (encoded utf8) (ascii "host"))
      (buildPathRequest asciiToUtf8 ⟨ascii "host", by decide⟩ (some fun _ => 7) true [47, 97, 32, 98] dirInfoFormat 0 0 0 false) :=
  ⟨⟨ascii "/a b", by decide⟩, rfl, by decide, (path_requested rfl).2.2.2.2.2.1⟩

end BlorgFS.Http.Request

import BlorgFS.Lib.Memory
import BlorgFS.Lib.Word

/-! The headers of a response, `Client.c`: what is read out of them once they have been
parsed. The parser itself, `phr_parse_response`, is not part of the repository; here is
only what it answers. -/

namespace BlorgFS.Http

open Lib

/-- The `NTSTATUS` values of the client. What sockets, keys and the device report comes in
as `other`. -/
inductive Status where
  | success
  | bufferTooSmall
  | invalidNetworkResponse
  | invalidParameter
  | notFound
  | insufficientResources
  | objectNameNotFound
  | accessDenied
  | endOfFile
  | connectionDisconnected
  | connectionReset
  | ioTimeout
  | other (code : ℕ)
  deriving DecidableEq, Repr

abbrev Bytes := List UInt8

/-- `struct phr_header`. -/
structure Header where
  name : Bytes
  value : Bytes
  deriving DecidableEq, Repr

/-- What `phr_parse_response` answers: -2, another negative number, or the length of the
status line and headers with what they say. -/
inductive Parsed where
  | incomplete
  | malformed
  | complete (consumed : ℕ) (statusCode : ℕ) (headers : List Header)
  deriving DecidableEq, Repr

inductive Operation where
  | dirInfo | fileInfo | fileRead | changes
  deriving DecidableEq, Repr

/-! ### Sums -/

/-- `HttpCheckedAddSizeT`. -/
def checkedAdd (a b : ℕ) : Option ℕ :=
  let sum := (a + b) % 2 ^ 64
  if sum < a then none else some sum

theorem checkedAdd_of_lt {a b : ℕ} (h : a + b < 2 ^ 64) : checkedAdd a b = some (a + b) := by
  have hmod : (a + b) % 2 ^ 64 = a + b := Nat.mod_eq_of_lt h
  simp only [checkedAdd, hmod]
  rw [if_neg (by omega)]

theorem checkedAdd_eq_some {a b c : ℕ} (ha : a < 2 ^ 64) (hb : b < 2 ^ 64) (h : checkedAdd a b = some c) : c = a + b := by
  simp only [checkedAdd] at h
  split_ifs at h with hlt
  rw [← Option.some.inj h]
  omega

/-! ### Header values -/

/-- The bytes of a string literal. -/
def ascii (s : String) : Bytes := s.toList.map fun c => c.toNat.toUInt8

def isDigit (c : UInt8) : Bool := 48 ≤ c ∧ c ≤ 57

def strToSizeFrom : ℕ → Bytes → Except Status ℕ
  | result, [] => .ok result
  | result, c :: rest =>
    if isDigit c then
      let digit := (c - 48).toNat
      if sizeMax / 10 < result ∨ result = sizeMax / 10 ∧ sizeMax % 10 < digit then .error .invalidParameter
      else strToSizeFrom (result * 10 + digit) rest
    else .error .invalidParameter

/-- `HttpStrToSize`. -/
def strToSize (text : Bytes) : Except Status ℕ :=
  if text = [] then .error .invalidParameter else strToSizeFrom 0 text

def lower (c : UInt8) : UInt8 := if 65 ≤ c ∧ c ≤ 90 then c + 32 else c

/-- `HttpTokenEquals`. -/
def tokenEquals (name expected : Bytes) : Bool := name.map lower = expected

/-- The loop of `HttpGetContentLengthFromHeaders`, with its `result`. -/
def contentLengthFrom : Except Status ℕ → List Header → Except Status ℕ
  | result, [] => result
  | result, h :: rest =>
    if tokenEquals h.name (ascii "content-length") then
      match result with
      | .error .notFound => contentLengthFrom (strToSize h.value) rest
      | _ => .error .invalidNetworkResponse
    else contentLengthFrom result rest

/-- `HttpGetContentLengthFromHeaders`. -/
def getContentLength (headers : List Header) : Except Status ℕ := contentLengthFrom (.error .notFound) headers

theorem strToSizeFrom_error {st : Status} (text : Bytes) : ∀ result, strToSizeFrom result text = .error st → st = .invalidParameter := by
  induction text with
  | nil =>
    intro result h
    cases h
  | cons c rest ih =>
    intro result h
    simp only [strToSizeFrom] at h
    split_ifs at h
    · exact (Except.error.inj h).symm
    · exact ih _ h
    · exact (Except.error.inj h).symm

theorem strToSize_error {text : Bytes} {st : Status} (h : strToSize text = .error st) : st = .invalidParameter := by
  unfold strToSize at h
  split_ifs at h
  · exact (Except.error.inj h).symm
  · exact strToSizeFrom_error text 0 h

/-- What is wrong with a length that is missing or wrong. -/
def LengthError (st : Status) : Prop := st = .notFound ∨ st = .invalidParameter ∨ st = .invalidNetworkResponse

theorem contentLengthFrom_error {st : Status} (headers : List Header) :
    ∀ result, (∀ st, result = .error st → LengthError st) → contentLengthFrom result headers = .error st → LengthError st := by
  induction headers with
  | nil => exact fun _ hresult h => hresult st h
  | cons h rest ih =>
    intro result hresult he
    simp only [contentLengthFrom] at he
    split_ifs at he
    · split at he
      · exact ih _ (fun _ he => .inr (.inl (strToSize_error he))) he
      · exact .inr (.inr (Except.error.inj he).symm)
    · exact ih _ hresult he

/-- A missing or wrong length is never taken for headers that have not ended. -/
theorem getContentLength_error {headers : List Header} {st : Status} (h : getContentLength headers = .error st) : LengthError st :=
  contentLengthFrom_error headers _ (fun _ he => .inl (Except.error.inj he).symm) h

/-- The number some digits spell, most significant first, behind the digits of `n`. -/
def decimalFrom (n : ℕ) (text : Bytes) : ℕ := text.foldl (fun n c => n * 10 + (c - 48).toNat) n

theorem le_decimalFrom (text : Bytes) : ∀ n, n ≤ decimalFrom n text := by
  induction text with
  | nil => exact fun n => Nat.le_refl n
  | cons c rest ih =>
    intro n
    exact Nat.le_trans (by omega) (ih (n * 10 + (c - 48).toNat))

theorem digit_le {c : UInt8} (h : isDigit c) : (c - 48).toNat ≤ 9 := by
  simp only [isDigit, decide_eq_true_eq] at h
  have h1 : (48 : UInt8).toNat ≤ c.toNat := h.1
  have h2 : c.toNat ≤ (57 : UInt8).toNat := h.2
  rw [UInt8.toNat_sub_of_le c 48 h.1]
  change c.toNat - 48 ≤ 9
  change c.toNat ≤ 57 at h2
  omega

theorem strToSizeFrom_digits (text : Bytes) :
    ∀ n, (∀ c ∈ text, isDigit c) → decimalFrom n text ≤ sizeMax → strToSizeFrom n text = .ok (decimalFrom n text) := by
  induction text with
  | nil => exact fun n _ _ => rfl
  | cons c rest ih =>
    intro n hd hle
    have hc := hd c (by simp)
    have h9 := digit_le hc
    have hstep : n * 10 + (c - 48).toNat ≤ sizeMax := Nat.le_trans (le_decimalFrom rest _) hle
    have hmax : sizeMax = 18446744073709551615 := rfl
    rw [strToSizeFrom, if_pos hc]
    simp only
    rw [if_neg (by omega)]
    exact ih _ (fun c hc => hd c (by simp [hc])) hle

theorem contentLengthFrom_of_none (headers : List Header) (h : headers.filter (fun h => tokenEquals h.name (ascii "content-length")) = []) :
    ∀ result, contentLengthFrom result headers = result := by
  induction headers with
  | nil => exact fun _ => rfl
  | cons f rest ih =>
    intro result
    rw [List.filter_cons] at h
    split_ifs at h with hf
    unfold contentLengthFrom
    rw [if_neg hf]
    exact ih h result

/-- The one length a response declares. -/
theorem getContentLength_of_single {headers : List Header} {f : Header}
    (h : headers.filter (fun h => tokenEquals h.name (ascii "content-length")) = [f]) (hne : f.value ≠ []) (hd : ∀ c ∈ f.value, isDigit c)
    (hle : decimalFrom 0 f.value ≤ sizeMax) : getContentLength headers = .ok (decimalFrom 0 f.value) := by
  unfold getContentLength
  induction headers with
  | nil => cases h
  | cons g rest ih =>
    rw [List.filter_cons] at h
    split_ifs at h with hg
    · obtain ⟨rfl, hrest⟩ := List.cons.inj h
      unfold contentLengthFrom
      rw [if_pos hg]
      simp only
      rw [contentLengthFrom_of_none rest hrest, strToSize, if_neg hne]
      exact strToSizeFrom_digits _ 0 hd hle
    · unfold contentLengthFrom
      rw [if_neg hg]
      exact ih h

/-- Without the blanks and tabs around it. -/
def trim (text : Bytes) : Bytes :=
  let blank : UInt8 → Bool := fun c => c = 32 ∨ c = 9
  ((text.dropWhile blank).reverse.dropWhile blank).reverse

/-- `HttpForbidsStoring`. -/
def forbidsStoring (headers : List Header) : Bool :=
  headers.any fun h => tokenEquals h.name (ascii "cache-control") &&
    (h.value.splitOn 44).any fun directive => tokenEquals (trim directive) (ascii "no-store")

def hexDigit (c : UInt8) : Option ℕ :=
  if isDigit c then some (c - 48).toNat
  else if 97 ≤ c ∧ c ≤ 102 then some ((c - 97).toNat + 10)
  else if 65 ≤ c ∧ c ≤ 70 then some ((c - 65).toNat + 10)
  else none

/-- `HttpParseHex64`. -/
def parseHex64 (text : Bytes) : Option ℕ :=
  if text.length = 0 ∨ 16 < text.length then none
  else text.foldlM (fun value c => (hexDigit c).map fun digit => value * 16 + digit) 0

def ticksPerSecond : ℕ := 10000000

def epochTicks : ℕ := 116444736000000000

/-- The seconds, nanoseconds and size an entity tag spells, with the quotes taken off. -/
def parseTag (text : Bytes) : Option (ℕ × ℕ) :=
  let dot := (text.takeWhile (· ≠ 46)).length
  let dash := dot + ((text.drop dot).takeWhile (· ≠ 45)).length
  if text.length ≤ dash then none
  else do
    let seconds ← parseHex64 (text.take dot)
    let nanoseconds ← parseHex64 ((text.drop (dot + 1)).take (dash - dot - 1))
    let size ← parseHex64 (text.drop (dash + 1))
    if 1000000000 ≤ nanoseconds ∨ (2 ^ 64 - 1 - epochTicks) / ticksPerSecond - 1 < seconds then none
    else some (size, seconds * ticksPerSecond + nanoseconds / 100 + epochTicks)

/-- `HttpParseFileVersion`: the size and the modification time of the one entity tag. -/
def parseFileVersion (headers : List Header) : Option (ℕ × ℕ) :=
  match headers.filter fun h => tokenEquals h.name (ascii "etag") with
  | [tag] =>
    if tag.value.length < 2 ∨ tag.value.head? ≠ some 34 ∨ tag.value.getLast? ≠ some 34 then none
    else parseTag ((tag.value.drop 1).dropLast)
  | _ => none

/-- `HttpStatusToNtStatus`. -/
def statusToNtStatus : ℕ → Status
  | 404 => .objectNameNotFound
  | 403 => .accessDenied
  | 416 => .endOfFile
  | _ => .invalidParameter

end BlorgFS.Http

import BlorgFS.Http.Headers
import BlorgFS.Lib.Checked

/-! How the headers of a response are read, `Client.c`, character by character. Values come from
the network, so every position that is read is checked against the value's length; what is found
is what `Http.Headers` says of whole values. -/

namespace BlorgFS.Http.Scan

open Lib Checked

variable {ε : Type}

/-- What a reader that looks at whole values answers. -/
def ofExcept {α : Type} : Except ε α → Checked ε α
  | .error e => .error e
  | .ok a => .ok a

theorem ofExcept_ne_fault {α : Type} (x : Except ε α) : ofExcept x ≠ .fault := by
  cases x <;> exact nofun

theorem ofExcept_eq_ok {α : Type} {x : Except ε α} {a : α} : ofExcept x = .ok a ↔ x = .ok a := by
  cases x with
  | error e => exact ⟨nofun, nofun⟩
  | ok b => exact ⟨fun h => congrArg _ (Checked.ok.inj h), fun h => congrArg _ (Except.ok.inj h)⟩

/-! ### Strings -/

/-- The loop of `HttpStrToSize` and the test behind it. -/
def strToSizeFrom (text : Bytes) : ℕ → ℕ → ℕ → Checked Status ℕ
  | 0, _, _ => .fault
  | turns + 1, i, result =>
    if i < text.length then do
      let c ← readAt text i
      if isDigit c then
        let digit := (c - 48).toNat
        if sizeMax / 10 < result ∨ result = sizeMax / 10 ∧ sizeMax % 10 < digit then .error .invalidParameter
        else strToSizeFrom text turns (i + 1) (ulong64 (ulong64 (result * 10) + digit))
      else .error .invalidParameter
    else .ok result

/-- `HttpStrToSize`. -/
def strToSize (text : Bytes) : Checked Status ℕ :=
  if text.length = 0 then .error .invalidParameter else strToSizeFrom text (text.length + 1) 0 0

/-- The loop of `HttpTokenEquals`, for the `length` bytes of `text` from `first` on. -/
def tokenEqualsFrom (text expected : Bytes) (first length : ℕ) : ℕ → ℕ → Checked ε Bool
  | 0, _ => .fault
  | turns + 1, i =>
    if i < length then do
      let c ← readAt text (first + i)
      let e ← readAt expected i
      if lower c ≠ e then .ok false else tokenEqualsFrom text expected first length turns (i + 1)
    else .ok true

/-- `HttpTokenEquals`. -/
def tokenEquals (text : Bytes) (first length : ℕ) (expected : Bytes) : Checked ε Bool :=
  if length ≠ expected.length then .ok false else tokenEqualsFrom text expected first length (length + 1) 0

/-! ### Headers -/

/-- The loop of `HttpGetContentLengthFromHeaders`, with its `result`. -/
def contentLengthFrom : Checked Status ℕ → List Header → Checked Status ℕ
  | result, [] => result
  | result, h :: rest => do
    let named ← tokenEquals h.name 0 h.name.length (ascii "content-length")
    if named then
      match result with
      | .error .notFound => contentLengthFrom (strToSize h.value) rest
      | .fault => .fault
      | _ => .error .invalidNetworkResponse
    else contentLengthFrom result rest

/-- `HttpGetContentLengthFromHeaders`. -/
def getContentLengthFromHeaders (headers : List Header) : Checked Status ℕ := contentLengthFrom (.error .notFound) headers

def blank (c : UInt8) : Bool := c = 32 ∨ c = 9

/-- The directives of `HttpForbidsStoring` from `start` on. -/
def forbidsFrom (value : Bytes) : ℕ → ℕ → Checked ε Bool
  | 0, _ => .fault
  | turns + 1, start =>
    if start < value.length then do
      let stop ← scan value value.length (· ≠ 44) (value.length + 1) start
      let first ← scan value stop blank (value.length + 1) start
      let last ← scanBack value first blank (value.length + 1) stop
      let found ← tokenEquals value first (last - first) (ascii "no-store")
      if found then .ok true else forbidsFrom value turns (stop + 1)
    else .ok false

/-- `HttpForbidsStoring`. -/
def forbidsStoring : List Header → Checked ε Bool
  | [] => .ok false
  | h :: rest => do
    let named ← tokenEquals h.name 0 h.name.length (ascii "cache-control")
    if named then do
      let found ← forbidsFrom h.value (h.value.length + 1) 0
      if found then .ok true else forbidsStoring rest
    else forbidsStoring rest

/-! ### What they find -/

variable {text expected value : Bytes} {first length turns i result : ℕ}

theorem strToSizeFrom_eq (hi : i ≤ text.length) (hresult : result ≤ sizeMax) (hturns : text.length - i < turns) :
    strToSizeFrom text turns i result = ofExcept (Http.strToSizeFrom result (text.drop i)) := by
  induction turns generalizing i result with
  | zero => omega
  | succ turns ih =>
    unfold strToSizeFrom
    by_cases hlt : i < text.length
    · have hdrop : text.drop i = text.get ⟨i, hlt⟩ :: text.drop (i + 1) := List.drop_eq_getElem_cons hlt
      rw [if_pos hlt, readAt_of_lt hlt, ok_bind, hdrop, Http.strToSizeFrom]
      by_cases hdigit : isDigit (text.get ⟨i, hlt⟩) = true
      · rw [if_pos hdigit, if_pos hdigit]
        dsimp only
        have h9 := digit_le hdigit
        have hmax : sizeMax = 18446744073709551615 := rfl
        split_ifs with hover
        · rfl
        · have hfits : result * 10 + (text.get ⟨i, hlt⟩ - 48).toNat < 2 ^ 64 := by omega
          rw [ulong64_of_lt (n := result * 10) (by omega), ulong64_of_lt hfits]
          exact ih hlt (by omega) (by omega)
      · rw [if_neg hdigit, if_neg hdigit]
        rfl
    · rw [if_neg hlt, List.drop_eq_nil_of_le (by omega)]
      rfl

theorem strToSize_eq (text : Bytes) : strToSize text = ofExcept (Http.strToSize text) := by
  unfold strToSize Http.strToSize
  by_cases hnil : text = []
  · rw [if_pos (List.length_eq_zero_iff.mpr hnil), if_pos hnil]
    rfl
  · rw [if_neg (fun h => hnil (List.length_eq_zero_iff.mp h)), if_neg hnil]
    exact strToSizeFrom_eq (Nat.zero_le _) (Nat.zero_le _) (by omega)

theorem tokenEquals_cons (c e : UInt8) (text expected : Bytes) :
    Http.tokenEquals (c :: text) (e :: expected) = (decide (lower c = e) && Http.tokenEquals text expected) := by
  unfold Http.tokenEquals
  rw [List.map_cons]
  simp

theorem tokenEqualsFrom_eq (hlength : length = expected.length) (htext : first + length ≤ text.length) (hi : i ≤ length) (hturns : length - i < turns) :
    tokenEqualsFrom text expected first length turns i =
      (.ok (Http.tokenEquals (((text.drop first).take length).drop i) (expected.drop i)) : Checked ε Bool) := by
  induction turns generalizing i with
  | zero => omega
  | succ turns ih =>
    unfold tokenEqualsFrom
    have htaken : ((text.drop first).take length).length = length := by
      rw [List.length_take, List.length_drop]
      omega
    by_cases hlt : i < length
    · have hget : ((text.drop first).take length).get ⟨i, by omega⟩ = text.get ⟨first + i, by omega⟩ := by
        simp
      have hdrop : ((text.drop first).take length).drop i =
          text.get ⟨first + i, by omega⟩ :: ((text.drop first).take length).drop (i + 1) := by
        rw [List.drop_eq_getElem_cons (by omega), ← hget]
        rfl
      have hexpected : expected.drop i = expected.get ⟨i, by omega⟩ :: expected.drop (i + 1) := List.drop_eq_getElem_cons (by omega)
      rw [if_pos hlt, readAt_of_lt (by omega), ok_bind, readAt_of_lt (by omega), ok_bind, hdrop, hexpected]
      by_cases hsame : lower (text.get ⟨first + i, by omega⟩) = expected.get ⟨i, by omega⟩
      · rw [if_neg (not_not.mpr hsame), ih hlt (by omega), tokenEquals_cons, decide_eq_true hsame, Bool.true_and]
      · rw [if_pos hsame, tokenEquals_cons, decide_eq_false hsame, Bool.false_and]
    · have hnil : ((text.drop first).take length).drop i = [] := List.drop_eq_nil_of_le (by omega)
      have hnil' : expected.drop i = [] := List.drop_eq_nil_of_le (by omega)
      rw [if_neg hlt, hnil, hnil']
      rfl

theorem tokenEquals_eq (expected : Bytes) (htext : first + length ≤ text.length) :
    tokenEquals text first length expected = (.ok (Http.tokenEquals ((text.drop first).take length) expected) : Checked ε Bool) := by
  unfold tokenEquals
  by_cases hlength : length = expected.length
  · rw [if_neg (not_not.mpr hlength)]
    exact tokenEqualsFrom_eq hlength htext (Nat.zero_le _) (by omega)
  · have hne : ¬ ((text.drop first).take length).map lower = expected := by
      intro h
      have hlen := congrArg List.length h
      rw [List.length_map, List.length_take, List.length_drop] at hlen
      omega
    rw [if_pos hlength, Http.tokenEquals, decide_eq_false hne]

theorem tokenEquals_whole (text expected : Bytes) :
    tokenEquals text 0 text.length expected = (.ok (Http.tokenEquals text expected) : Checked ε Bool) := by
  rw [tokenEquals_eq expected (by omega), List.drop_zero, List.take_length]

/-! ### The length -/

theorem contentLengthFrom_eq (headers : List Header) (result : Except Status ℕ) :
    contentLengthFrom (ofExcept result) headers = ofExcept (Http.contentLengthFrom result headers) := by
  induction headers generalizing result with
  | nil => rfl
  | cons h rest ih =>
    unfold contentLengthFrom Http.contentLengthFrom
    rw [tokenEquals_whole, ok_bind]
    by_cases hnamed : Http.tokenEquals h.name (ascii "content-length") = true
    · rw [if_pos hnamed, if_pos hnamed]
      cases result with
      | ok n => rfl
      | error st =>
        cases st with
        | notFound =>
          change contentLengthFrom (strToSize h.value) rest = _
          rw [strToSize_eq]
          exact ih (Http.strToSize h.value)
        | _ => rfl
    · rw [if_neg hnamed, if_neg hnamed]
      exact ih result

theorem getContentLengthFromHeaders_eq (headers : List Header) : getContentLengthFromHeaders headers = ofExcept (getContentLength headers) :=
  contentLengthFrom_eq headers (.error .notFound)

/-! ### The directives -/

/-- A directive with its blanks taken off, and what is behind it. -/
theorem splitOn_first {a : UInt8} (l : Bytes) : l.splitOn a = l.takeWhile (· ≠ a) ::
    match l.dropWhile (· ≠ a) with
    | [] => []
    | _ :: rest => rest.splitOn a := by
  have hfront : ∀ c ∈ l.takeWhile (· ≠ a), (c == a) = false := fun c hc => by
    have hne := List.mem_takeWhile_imp hc
    simpa using hne
  conv_lhs => rw [← List.takeWhile_append_dropWhile (p := (· ≠ a)) (l := l)]
  cases hrest : l.dropWhile (· ≠ a) with
  | nil =>
    rw [List.append_nil]
    exact List.splitOn_eq_singleton_of_beq_eq_false hfront
  | cons c rest =>
    have hc : (c == a) = true := by
      have hhead := List.head_dropWhile_not (p := (· ≠ a)) (l := l) (by rw [hrest]; exact List.cons_ne_nil c rest)
      simp only [hrest, List.head_cons] at hhead
      simpa using hhead
    exact List.splitOnP_append_cons_of_forall_mem hfront c hc rest

theorem take_length_takeWhile {p : UInt8 → Bool} (l : Bytes) : l.take (l.takeWhile p).length = l.takeWhile p :=
  (List.prefix_iff_eq_take.mp (List.takeWhile_prefix p)).symm

theorem drop_length_takeWhile {p : UInt8 → Bool} (l : Bytes) : l.drop (l.takeWhile p).length = l.dropWhile p := by
  have hsplit : l.takeWhile p ++ l.dropWhile p = l := List.takeWhile_append_dropWhile
  calc l.drop (l.takeWhile p).length = (l.takeWhile p ++ l.dropWhile p).drop (l.takeWhile p).length := by rw [hsplit]
    _ = l.dropWhile p := List.drop_left' rfl

/-- The loop looks at one directive after another, without the blanks around it. -/
theorem forbidsFrom_eq {start : ℕ} (hturns : value.length - start < turns) : forbidsFrom value turns start =
    (.ok (((value.drop start).splitOn 44).any fun directive => Http.tokenEquals (trim directive) (ascii "no-store")) : Checked ε Bool) := by
  induction turns generalizing start with
  | zero => omega
  | succ turns ih =>
    unfold forbidsFrom
    by_cases hlt : start < value.length
    · have hpiece : ((value.drop start).takeWhile (· ≠ 44)).length ≤ value.length - start := by
        have hle := (List.takeWhile_prefix (p := (· ≠ (44 : UInt8))) (l := value.drop start)).length_le
        rwa [List.length_drop] at hle
      rw [if_pos hlt, scan_eq (Nat.le_refl _) (Nat.le_of_lt hlt) (by omega), ok_bind, List.take_length]
      generalize hstop : start + ((value.drop start).takeWhile (· ≠ 44)).length = stop
      have hslice : (value.take stop).drop start = (value.drop start).takeWhile (· ≠ 44) := by
        rw [← hstop, ← List.take_drop, take_length_takeWhile]
      rw [scan_eq (by omega) (by omega) (by omega), ok_bind, hslice]
      generalize hfirst : start + (((value.drop start).takeWhile (· ≠ 44)).takeWhile blank).length = first
      have hblank : (((value.drop start).takeWhile (· ≠ 44)).takeWhile blank).length ≤ ((value.drop start).takeWhile (· ≠ 44)).length :=
        (List.takeWhile_prefix blank).length_le
      have hrest : (value.take stop).drop first = ((value.drop start).takeWhile (· ≠ 44)).dropWhile blank := by
        rw [← hfirst, ← List.drop_drop, hslice, drop_length_takeWhile]
      rw [scanBack_eq (by omega) (by omega) (by omega), ok_bind, hrest]
      have htrim : (((value.drop start).takeWhile (· ≠ 44)).dropWhile blank).rdropWhile blank = trim ((value.drop start).takeWhile (· ≠ 44)) := rfl
      rw [htrim, Nat.add_sub_cancel_left]
      have hprefix : trim ((value.drop start).takeWhile (· ≠ 44)) <+: (value.take stop).drop first := by
        rw [hrest, ← htrim]
        exact List.rdropWhile_prefix blank _
      have hlength := hprefix.length_le
      rw [List.length_drop, List.length_take] at hlength
      have hfound : (value.drop first).take (trim ((value.drop start).takeWhile (· ≠ 44))).length = trim ((value.drop start).takeWhile (· ≠ 44)) := by
        have htake := List.prefix_iff_eq_take.mp hprefix
        rw [List.drop_take, List.take_take, Nat.min_eq_left (by omega)] at htake
        exact htake.symm
      rw [tokenEquals_eq _ (by omega), ok_bind, hfound, splitOn_first, List.any_cons]
      cases Http.tokenEquals (trim ((value.drop start).takeWhile (· ≠ 44))) (ascii "no-store") with
      | true => rfl
      | false =>
        rw [if_neg Bool.false_ne_true, ih (by omega), Bool.false_or]
        -- What is behind the comma, if there is one.
        have hbehind : (value.drop start).dropWhile (· ≠ 44) = value.drop stop := by
          rw [← drop_length_takeWhile, List.drop_drop, hstop]
        rw [hbehind]
        by_cases hend : stop < value.length
        · rw [List.drop_eq_getElem_cons hend]
        · rw [List.drop_eq_nil_of_le (by omega), List.drop_eq_nil_of_le (by omega)]
          rfl
    · rw [if_neg hlt, List.drop_eq_nil_of_le (by omega)]
      rfl

theorem forbidsStoring_eq (headers : List Header) : forbidsStoring headers = (.ok (Http.forbidsStoring headers) : Checked ε Bool) := by
  induction headers with
  | nil => rfl
  | cons h rest ih =>
    unfold forbidsStoring Http.forbidsStoring
    rw [tokenEquals_whole, ok_bind, List.any_cons]
    by_cases hnamed : Http.tokenEquals h.name (ascii "cache-control") = true
    · rw [if_pos hnamed, forbidsFrom_eq (by omega), ok_bind, List.drop_zero, hnamed, Bool.true_and]
      cases (h.value.splitOn 44).any fun directive => Http.tokenEquals (trim directive) (ascii "no-store") with
      | true => rfl
      | false => exact ih
    · rw [if_neg hnamed, Bool.eq_false_iff.mpr hnamed, Bool.false_and, Bool.false_or]
      exact ih

/-! ### What is accepted -/

theorem strToSizeFrom_ok {n : ℕ} (text : Bytes) : ∀ {result}, result ≤ sizeMax → Http.strToSizeFrom result text = .ok n →
    (∀ c ∈ text, isDigit c) ∧ decimalFrom result text = n ∧ n ≤ sizeMax := by
  induction text with
  | nil =>
    intro result hle h
    obtain rfl := Except.ok.inj h
    exact ⟨nofun, rfl, hle⟩
  | cons c rest ih =>
    intro result hle h
    unfold Http.strToSizeFrom at h
    dsimp only at h
    have hmax : sizeMax = 18446744073709551615 := rfl
    split_ifs at h with hdigit hover
    have h9 := digit_le hdigit
    obtain ⟨hall, hvalue, hn⟩ := ih (by omega) h
    exact ⟨List.forall_mem_cons.mpr ⟨hdigit, hall⟩, hvalue, hn⟩

/-- A nonempty string of digits, and the number it spells. -/
structure Decimal (text : Bytes) (n : ℕ) : Prop where
  nonempty : text ≠ []
  digits : ∀ c ∈ text, isDigit c
  value : decimalFrom 0 text = n

theorem strToSize_ok_iff {n : ℕ} : Http.strToSize text = .ok n ↔ Decimal text n ∧ n ≤ sizeMax := by
  unfold Http.strToSize
  by_cases hnil : text = []
  · rw [if_pos hnil]
    exact ⟨nofun, fun h => absurd hnil h.1.nonempty⟩
  · rw [if_neg hnil]
    constructor
    · intro h
      obtain ⟨hdigits, hvalue, hle⟩ := strToSizeFrom_ok text (Nat.zero_le _) h
      exact ⟨⟨hnil, hdigits, hvalue⟩, hle⟩
    · rintro ⟨⟨-, hdigits, rfl⟩, hle⟩
      exact strToSizeFrom_digits text 0 hdigits hle

/-- The headers that say the length. -/
def lengths (headers : List Header) : List Header := headers.filter fun h => Http.tokenEquals h.name (ascii "content-length")

/-- Once there is a length, another is refused. -/
theorem contentLengthFrom_second (headers : List Header) : ∀ {result : Except Status ℕ}, result ≠ .error .notFound → lengths headers ≠ [] →
    Http.contentLengthFrom result headers = .error .invalidNetworkResponse := by
  induction headers with
  | nil => exact fun _ h => absurd rfl h
  | cons h rest ih =>
    intro result hresult hmore
    unfold lengths at hmore
    rw [List.filter_cons] at hmore
    unfold Http.contentLengthFrom
    split_ifs at hmore ⊢
    · split
      · exact absurd rfl hresult
      · rfl
    · exact ih hresult hmore

theorem strToSize_ne_notFound (text : Bytes) : Http.strToSize text ≠ .error .notFound := by
  intro h
  cases strToSize_error h

theorem getContentLength_cases (headers : List Header) : getContentLength headers =
    match lengths headers with
    | [] => .error .notFound
    | [h] => Http.strToSize h.value
    | _ :: _ :: _ => .error .invalidNetworkResponse := by
  unfold getContentLength
  induction headers with
  | nil => rfl
  | cons h rest ih =>
    unfold Http.contentLengthFrom lengths
    rw [List.filter_cons]
    by_cases hnamed : Http.tokenEquals h.name (ascii "content-length") = true
    · rw [if_pos hnamed, if_pos hnamed]
      dsimp only
      cases hrest : rest.filter fun h => Http.tokenEquals h.name (ascii "content-length") with
      | nil => exact contentLengthFrom_of_none rest hrest _
      | cons h' rest' =>
        have hmore : lengths rest ≠ [] := by
          unfold lengths
          rw [hrest]
          exact List.cons_ne_nil h' rest'
        exact contentLengthFrom_second rest (strToSize_ne_notFound h.value) hmore
    · rw [if_neg hnamed, if_neg hnamed]
      exact ih

/-- The headers of a response, whatever they are. The length is found exactly when there is one
such header, with a nonempty string of digits that spells a `SIZE_T`, and a second one is refused
whatever they say; storing is forbidden exactly when a directive of a `Cache-Control` header is
`no-store`. No loop reads past what it was given, and each ends. -/
theorem headers_scanned (headers : List Header) :
    getContentLengthFromHeaders headers ≠ .fault ∧
    (∀ n, getContentLengthFromHeaders headers = .ok n ↔ ∃ h, lengths headers = [h] ∧ Decimal h.value n ∧ n ≤ sizeMax) ∧
    (2 ≤ (lengths headers).length → ∃ st, getContentLengthFromHeaders headers = .error st) ∧
    (forbidsStoring headers : Checked Status Bool) ≠ .fault ∧
    ((forbidsStoring headers : Checked Status Bool) = .ok true ↔ ∃ h ∈ headers, Http.tokenEquals h.name (ascii "cache-control") = true ∧
      ∃ directive ∈ h.value.splitOn 44, (trim directive).map lower = ascii "no-store") := by
  refine ⟨?_, fun n => ?_, fun hmany => ?_, ?_, ?_⟩
  · rw [getContentLengthFromHeaders_eq]
    exact ofExcept_ne_fault _
  · rw [getContentLengthFromHeaders_eq, ofExcept_eq_ok, getContentLength_cases]
    cases lengths headers with
    | nil => exact ⟨nofun, fun ⟨_, h, _⟩ => by cases h⟩
    | cons h rest =>
      cases rest with
      | nil =>
        dsimp only
        rw [strToSize_ok_iff]
        constructor
        · exact fun hvalue => ⟨h, rfl, hvalue⟩
        · rintro ⟨h', he, hvalue⟩
          rwa [(List.cons.inj he).1]
      | cons h' rest => exact ⟨nofun, fun ⟨_, h, _⟩ => by cases h⟩
  · rw [getContentLengthFromHeaders_eq, getContentLength_cases]
    cases hl : lengths headers with
    | nil =>
      rw [hl] at hmany
      cases hmany
    | cons h rest =>
      cases rest with
      | nil =>
        rw [hl, List.length_singleton] at hmany
        omega
      | cons h' rest => exact ⟨_, rfl⟩
  · rw [forbidsStoring_eq]
    exact nofun
  · rw [forbidsStoring_eq, Checked.ok.injEq]
    unfold Http.forbidsStoring
    simp only [List.any_eq_true, Bool.and_eq_true]
    refine exists_congr fun h => and_congr_right fun _ => and_congr_right fun _ => exists_congr fun directive => and_congr_right fun _ => ?_
    exact decide_eq_true_iff

end BlorgFS.Http.Scan

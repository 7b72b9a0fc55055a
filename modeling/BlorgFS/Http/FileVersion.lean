import BlorgFS.Http.Scan
import Mathlib.Data.FinEnum
import Mathlib.Data.Nat.Digits.Lemmas

/-! The version an entity tag names, `HttpParseFileVersion`. The tag is looked for among all the
headers and read character by character; what is accepted is exactly the spelling a server that
names the version writes, and what is read is the version. -/

namespace BlorgFS.Http.Scan

open Lib Checked

/-! ### The scanner -/

/-- The loop of `HttpParseHex64`, for the `length` bytes of `text` from `first` on. -/
def parseHexFrom (text : Bytes) (first length : ℕ) : ℕ → ℕ → ℕ → Checked Unit ℕ
  | 0, _, _ => .fault
  | turns + 1, i, value =>
    if i < length then do
      let c ← readAt text (first + i)
      match hexDigit c with
      | none => .error ()
      | some digit => parseHexFrom text first length turns (i + 1) (ulong64 (value <<< 4) ||| digit)
    else .ok value

/-- `HttpParseHex64`. -/
def parseHex64 (text : Bytes) (first length : ℕ) : Checked Unit ℕ :=
  if length = 0 ∨ length > 16 then .error () else parseHexFrom text first length (length + 1) 0 0

/-- The search of `HttpParseFileVersion`, with its `tag`. -/
def findTag : Option Header → List Header → Checked Unit (Option Header)
  | tag, [] => .ok tag
  | tag, h :: rest => do
    let named ← tokenEquals h.name 0 h.name.length (ascii "etag")
    if named then
      match tag with
      | some _ => .error ()
      | none => findTag (some h) rest
    else findTag tag rest

/-- `HttpParseFileVersion` between the quotes. -/
def readVersion (text : Bytes) (length : ℕ) : Checked Unit (ℕ × ℕ) := do
  let dot ← scan text length (· ≠ 46) (length + 1) 0
  let dash ← scan text length (· ≠ 45) (length + 1) dot
  if dash ≥ length then .error ()
  else do
    let seconds ← parseHex64 text 0 dot
    let middle ← sub dash (dot + 1)
    let nanoseconds ← parseHex64 text (dot + 1) middle
    let last ← sub length (dash + 1)
    let size ← parseHex64 text (dash + 1) last
    if nanoseconds ≥ 1000000000 ∨ seconds > (sizeMax - epochTicks) / ticksPerSecond - 1 then .error ()
    else .ok (size, ulong64 (ulong64 (ulong64 (seconds * ticksPerSecond) + nanoseconds / 100) + epochTicks))

/-- `HttpParseFileVersion` past its search. -/
def readTag (value : Bytes) : Checked Unit (ℕ × ℕ) :=
  if value.length < 2 then .error ()
  else do
    let opening ← readAt value 0
    let closing ← readAt value (value.length - 1)
    if opening ≠ 34 ∨ closing ≠ 34 then .error () else readVersion (value.drop 1) (value.length - 2)

/-- `HttpParseFileVersion`: the size and the modification time. -/
def parseFileVersion (headers : List Header) : Checked Unit (ℕ × ℕ) := do
  match ← findTag none headers with
  | none => .error ()
  | some tag => readTag tag.value

/-! ### Numbers in hex -/

variable {text value : Bytes} {first length turns i v : ℕ}

theorem hexDigit_lt {c : UInt8} {digit : ℕ} (h : hexDigit c = some digit) : digit < 16 := by
  unfold hexDigit at h
  split_ifs at h with hdec hlow hup
  · have h9 := digit_le hdec
    have he := Option.some.inj h
    omega
  · have hle : (c - 97).toNat ≤ 5 := by
      have h1 : (97 : UInt8).toNat ≤ c.toNat := hlow.1
      have h2 : c.toNat ≤ (102 : UInt8).toNat := hlow.2
      rw [UInt8.toNat_sub_of_le c 97 hlow.1]
      exact Nat.sub_le_of_le_add h2
    have he := Option.some.inj h
    omega
  · have hle : (c - 65).toNat ≤ 5 := by
      have h1 : (65 : UInt8).toNat ≤ c.toNat := hup.1
      have h2 : c.toNat ≤ (70 : UInt8).toNat := hup.2
      rw [UInt8.toNat_sub_of_le c 65 hup.1]
      exact Nat.sub_le_of_le_add h2
    have he := Option.some.inj h
    omega

/-- The number hex digits spell behind the digits of `v`. -/
def hexFrom (v : ℕ) (text : Bytes) : ℕ := text.foldl (fun v c => v * 16 + (hexDigit c).getD 0) v

/-- One to sixteen hex digits. -/
structure Hex (text : Bytes) : Prop where
  nonempty : text ≠ []
  length_le : text.length ≤ 16
  digits : ∀ c ∈ text, (hexDigit c).isSome

theorem hex_iff : Hex text ↔ ¬ (text.length = 0 ∨ text.length > 16) ∧ ∀ c ∈ text, (hexDigit c).isSome := by
  rw [not_or, Nat.not_lt, List.length_eq_zero_iff, and_assoc]
  exact ⟨fun h => ⟨h.nonempty, h.length_le, h.digits⟩, fun h => ⟨h.1, h.2.1, h.2.2⟩⟩

instance : Decidable (Hex text) := decidable_of_iff _ hex_iff.symm

theorem hexFrom_lt (text : Bytes) : ∀ v, hexFrom v text < (v + 1) * 16 ^ text.length := by
  induction text with
  | nil =>
    intro v
    rw [List.length_nil, Nat.pow_zero, Nat.mul_one]
    exact Nat.lt_succ_self v
  | cons c rest ih =>
    intro v
    have hdigit : (hexDigit c).getD 0 < 16 := by
      cases h : hexDigit c with
      | none => exact Nat.zero_lt_succ 15
      | some digit => exact hexDigit_lt h
    have hle : v * 16 + (hexDigit c).getD 0 + 1 ≤ (v + 1) * 16 := by omega
    calc hexFrom v (c :: rest) = hexFrom (v * 16 + (hexDigit c).getD 0) rest := rfl
      _ < (v * 16 + (hexDigit c).getD 0 + 1) * 16 ^ rest.length := ih _
      _ ≤ (v + 1) * 16 * 16 ^ rest.length := Nat.mul_le_mul_right _ hle
      _ = (v + 1) * 16 ^ (c :: rest).length := by rw [List.length_cons, Nat.pow_succ']; ring

/-- What the loop makes of hex digits, and of anything else. -/
theorem parseHexFrom_eq (htext : first + length ≤ text.length) (hi : i ≤ length) (hv : v < 16 ^ i) (hlength : length ≤ 16) (hturns : length - i < turns) :
    parseHexFrom text first length turns i v =
      if ∀ c ∈ ((text.drop first).take length).drop i, (hexDigit c).isSome then .ok (hexFrom v (((text.drop first).take length).drop i)) else .error () := by
  induction turns generalizing i v with
  | zero => omega
  | succ turns ih =>
    unfold parseHexFrom
    have htaken : ((text.drop first).take length).length = length := by
      rw [List.length_take, List.length_drop]
      omega
    by_cases hlt : i < length
    · have hget : ((text.drop first).take length).get ⟨i, by omega⟩ = text.get ⟨first + i, by omega⟩ := by simp
      have hdrop : ((text.drop first).take length).drop i =
          text.get ⟨first + i, by omega⟩ :: ((text.drop first).take length).drop (i + 1) := by
        rw [List.drop_eq_getElem_cons (by omega), ← hget]
        rfl
      rw [if_pos hlt, readAt_of_lt (by omega), ok_bind, hdrop]
      cases hdigit : hexDigit (text.get ⟨first + i, by omega⟩) with
      | none =>
        rw [if_neg]
        intro hall
        have hfirst := hall _ List.mem_cons_self
        rw [hdigit] at hfirst
        cases hfirst
      | some digit =>
        have hd := hexDigit_lt hdigit
        have hpow : 16 ^ (i + 1) ≤ 16 ^ 16 := Nat.pow_le_pow_right (by decide) (by omega)
        have hstep : v * 16 + digit < 16 ^ (i + 1) := by
          rw [Nat.pow_succ]
          omega
        have hfits : v <<< 4 < 2 ^ 64 := by
          rw [Nat.shiftLeft_eq]
          omega
        have hor : ulong64 (v <<< 4) ||| digit = v * 16 + digit := by
          rw [ulong64_of_lt hfits, ← Nat.shiftLeft_add_eq_or_of_lt (show digit < 2 ^ 4 from hd), Nat.shiftLeft_eq]
        dsimp only
        rw [hor, ih hlt hstep (by omega)]
        have hcons : (∀ c ∈ text.get ⟨first + i, by omega⟩ :: ((text.drop first).take length).drop (i + 1), (hexDigit c).isSome = true) ↔
            ∀ c ∈ ((text.drop first).take length).drop (i + 1), (hexDigit c).isSome = true := by
          rw [List.forall_mem_cons, hdigit]
          exact and_iff_right rfl
        rw [if_congr hcons rfl rfl]
        congr 2
        unfold hexFrom
        rw [List.foldl_cons, hdigit]
        rfl
    · have hnil : ((text.drop first).take length).drop i = [] := List.drop_eq_nil_of_le (by omega)
      rw [if_neg hlt, hnil, if_pos nofun]
      rfl

/-- The scanner's number: the digits' when there are one to sixteen of them and nothing else. -/
theorem parseHex64_eq (htext : first + length ≤ text.length) : parseHex64 text first length =
    if Hex ((text.drop first).take length) then .ok (hexFrom 0 ((text.drop first).take length)) else .error () := by
  have htaken : ((text.drop first).take length).length = length := by
    rw [List.length_take, List.length_drop]
    omega
  unfold parseHex64
  by_cases hlength : length = 0 ∨ length > 16
  · rw [if_pos hlength, if_neg]
    rw [hex_iff, htaken]
    exact fun h => h.1 hlength
  · rw [if_neg hlength, parseHexFrom_eq htext (Nat.zero_le _) Nat.one_pos (by omega) (by omega), List.drop_zero]
    refine if_congr ?_ rfl rfl
    rw [hex_iff, htaken]
    exact (and_iff_right hlength).symm

/-! ### The tag -/

/-- The headers that name a version. -/
def tags (headers : List Header) : List Header := headers.filter fun h => Http.tokenEquals h.name (ascii "etag")

theorem findTag_some (headers : List Header) (tag : Header) :
    findTag (some tag) headers = if tags headers = [] then .ok (some tag) else .error () := by
  induction headers with
  | nil => rfl
  | cons h rest ih =>
    unfold findTag tags
    rw [tokenEquals_whole, ok_bind, List.filter_cons]
    by_cases hnamed : Http.tokenEquals h.name (ascii "etag") = true
    · rw [if_pos hnamed, if_pos hnamed, if_neg (List.cons_ne_nil _ _)]
    · rw [if_neg hnamed, if_neg hnamed]
      exact ih

theorem findTag_none (headers : List Header) : findTag none headers =
    match tags headers with
    | [] => .ok none
    | [tag] => .ok (some tag)
    | _ :: _ :: _ => .error () := by
  induction headers with
  | nil => rfl
  | cons h rest ih =>
    unfold findTag tags
    rw [tokenEquals_whole, ok_bind, List.filter_cons]
    by_cases hnamed : Http.tokenEquals h.name (ascii "etag") = true
    · rw [if_pos hnamed, if_pos hnamed]
      dsimp only
      rw [findTag_some]
      cases hrest : rest.filter fun h => Http.tokenEquals h.name (ascii "etag") with
      | nil => exact if_pos hrest
      | cons h' rest' =>
        refine if_neg fun hnil => ?_
        unfold tags at hnil
        rw [hnil] at hrest
        cases hrest
    · rw [if_neg hnamed, if_neg hnamed]
      exact ih

/-- Seconds, nanoseconds and size between the quotes, with a dot and a dash. -/
def quoted (seconds nanoseconds size : Bytes) : Bytes := 34 :: (seconds ++ 46 :: (nanoseconds ++ 45 :: (size ++ [34])))

/-- The last second whose ticks are a 64-bit number. -/
def lastSecond : ℕ := (sizeMax - epochTicks) / ticksPerSecond - 1

/-- Seconds, nanoseconds and size that are in range. -/
structure Version (seconds nanoseconds size : Bytes) : Prop where
  seconds_hex : Hex seconds
  nanoseconds_hex : Hex nanoseconds
  size_hex : Hex size
  nanoseconds_lt : hexFrom 0 nanoseconds < 1000000000
  seconds_le : hexFrom 0 seconds ≤ lastSecond

theorem version_iff {seconds nanoseconds size : Bytes} (hs : Hex seconds) (hn : Hex nanoseconds) (hz : Hex size) :
    Version seconds nanoseconds size ↔ hexFrom 0 nanoseconds < 1000000000 ∧ hexFrom 0 seconds ≤ lastSecond :=
  ⟨fun h => ⟨h.nanoseconds_lt, h.seconds_le⟩, fun h => ⟨hs, hn, hz, h.1, h.2⟩⟩

instance {seconds nanoseconds size : Bytes} : Decidable (Version seconds nanoseconds size) :=
  decidable_of_iff ((Hex seconds ∧ Hex nanoseconds ∧ Hex size) ∧ hexFrom 0 nanoseconds < 1000000000 ∧ hexFrom 0 seconds ≤ lastSecond)
    ⟨fun ⟨⟨hs, hn, hz⟩, h⟩ => (version_iff hs hn hz).mpr h,
      fun h => ⟨⟨h.seconds_hex, h.nanoseconds_hex, h.size_hex⟩, h.nanoseconds_lt, h.seconds_le⟩⟩

/-- The 100-ns tick since 1601. -/
def tick (seconds nanoseconds : ℕ) : ℕ := seconds * ticksPerSecond + nanoseconds / 100 + epochTicks

theorem tick_lt {seconds nanoseconds : ℕ} (hs : seconds ≤ lastSecond) (hn : nanoseconds < 1000000000) : tick seconds nanoseconds < 2 ^ 64 := by
  have hlast : lastSecond = 1833029933769 := by decide
  unfold tick ticksPerSecond epochTicks
  omega

/-- The sum of the source does not wrap. -/
theorem ticks_eq {seconds nanoseconds : ℕ} (hs : seconds ≤ lastSecond) (hn : nanoseconds < 1000000000) :
    ulong64 (ulong64 (ulong64 (seconds * ticksPerSecond) + nanoseconds / 100) + epochTicks) = tick seconds nanoseconds := by
  have hlt := tick_lt hs hn
  unfold tick at hlt ⊢
  rw [ulong64_of_lt (n := seconds * ticksPerSecond) (by omega), ulong64_of_lt (n := seconds * ticksPerSecond + _) (by omega), ulong64_of_lt hlt]

theorem tick_inj {seconds nanoseconds seconds' nanoseconds' : ℕ} (hn : nanoseconds < 1000000000) (hn' : nanoseconds' < 1000000000) :
    tick seconds nanoseconds = tick seconds' nanoseconds' ↔ seconds = seconds' ∧ nanoseconds / 100 = nanoseconds' / 100 := by
  unfold tick ticksPerSecond
  omega

theorem Hex.not_mem {text : Bytes} (h : Hex text) {c : UInt8} (hc : hexDigit c = none) : c ∉ text := by
  intro hmem
  have hsome := h.digits c hmem
  rw [hc] at hsome
  cases hsome

/-- The text up to a byte it does not contain. -/
theorem takeWhile_before {c : UInt8} {before rest : Bytes} (h : c ∉ before) : (before ++ c :: rest).takeWhile (· ≠ c) = before := by
  rw [List.takeWhile_append_of_pos, List.takeWhile_cons_of_neg]
  · exact List.append_nil before
  · exact fun hne => of_decide_eq_true hne rfl
  · exact fun b hb => decide_eq_true fun he => h (he ▸ hb)

/-- What is between the quotes, when the splitting points are where the scanner finds them. -/
theorem readVersion_split {seconds nanoseconds size rest : Bytes} (hs : 46 ∉ seconds) (hn : 45 ∉ nanoseconds) :
    readVersion (seconds ++ 46 :: (nanoseconds ++ 45 :: size) ++ rest) (seconds ++ 46 :: (nanoseconds ++ 45 :: size)).length =
      if Version seconds nanoseconds size then .ok (hexFrom 0 size, tick (hexFrom 0 seconds) (hexFrom 0 nanoseconds)) else .error () := by
  generalize htext : seconds ++ 46 :: (nanoseconds ++ 45 :: size) ++ rest = text
  generalize hmid : seconds ++ 46 :: (nanoseconds ++ 45 :: size) = mid at htext
  have hlength : mid.length = seconds.length + nanoseconds.length + size.length + 2 := by
    rw [← hmid]
    simp only [List.length_cons, List.length_append]
    omega
  have hle : mid.length ≤ text.length := by
    rw [← htext, List.length_append]
    omega
  have htake : text.take mid.length = mid := by rw [← htext, List.take_left]
  have hdot : 0 + ((mid.drop 0).takeWhile (· ≠ 46)).length = seconds.length := by
    rw [List.drop_zero, ← hmid, takeWhile_before hs, Nat.zero_add]
  have hbehind : mid.drop seconds.length = (46 :: nanoseconds) ++ 45 :: size := by
    rw [← hmid, List.drop_left]
    rfl
  have hdash : seconds.length + ((mid.drop seconds.length).takeWhile (· ≠ 45)).length = seconds.length + 1 + nanoseconds.length := by
    rw [hbehind, takeWhile_before, List.length_cons, Nat.add_assoc, Nat.add_comm 1]
    rintro (_ | ⟨_, hmem⟩)
    exact hn hmem
  -- The three pieces.
  have hfirst : (text.drop 0).take seconds.length = seconds := by
    rw [← htext, ← hmid, List.drop_zero, List.append_assoc, List.take_left]
  have hsecond : (text.drop (seconds.length + 1)).take nanoseconds.length = nanoseconds := by
    rw [← htext, ← hmid, ← List.drop_drop, List.append_assoc, List.drop_left]
    simp
  have hthird : (text.drop (seconds.length + 1 + nanoseconds.length + 1)).take size.length = size := by
    have hsplit : text = (seconds ++ 46 :: (nanoseconds ++ [45])) ++ (size ++ rest) := by
      rw [← htext, ← hmid]
      simp
    have hcount : seconds.length + 1 + nanoseconds.length + 1 = (seconds ++ 46 :: (nanoseconds ++ [45])).length := by
      simp only [List.length_append, List.length_cons, List.length_nil]
      omega
    rw [hsplit, hcount, List.drop_left, List.take_left]
  have hmiddle : seconds.length + 1 + nanoseconds.length - (seconds.length + 1) = nanoseconds.length := by omega
  have hlast : mid.length - (seconds.length + 1 + nanoseconds.length + 1) = size.length := by omega
  have hparsed : parseHex64 text 0 seconds.length = if Hex seconds then .ok (hexFrom 0 seconds) else .error () := by
    rw [parseHex64_eq (by omega), hfirst]
  have hparsed' : parseHex64 text (seconds.length + 1) nanoseconds.length = if Hex nanoseconds then .ok (hexFrom 0 nanoseconds) else .error () := by
    rw [parseHex64_eq (by omega), hsecond]
  have hparsed'' : parseHex64 text (seconds.length + 1 + nanoseconds.length + 1) size.length = if Hex size then .ok (hexFrom 0 size) else .error () := by
    rw [parseHex64_eq (by omega), hthird]
  unfold readVersion
  rw [scan_eq hle (Nat.zero_le _) (by omega), ok_bind, htake, hdot, scan_eq hle (by omega) (by omega), ok_bind, htake, hdash, if_neg (by omega),
    sub_of_le (by omega), sub_of_le (by omega), hmiddle, hlast, hparsed]
  by_cases hshex : Hex seconds
  · rw [if_pos hshex, ok_bind, ok_bind, hparsed']
    by_cases hnhex : Hex nanoseconds
    · rw [if_pos hnhex, ok_bind, ok_bind, hparsed'']
      by_cases hzhex : Hex size
      · rw [if_pos hzhex, ok_bind]
        have hrange : (hexFrom 0 nanoseconds ≥ 1000000000 ∨ hexFrom 0 seconds > (sizeMax - epochTicks) / ticksPerSecond - 1) ↔
            ¬ Version seconds nanoseconds size := by
          rw [version_iff hshex hnhex hzhex, not_and_or, Nat.not_lt, Nat.not_le]
          rfl
        by_cases hversion : Version seconds nanoseconds size
        · rw [if_neg (fun h => hrange.mp h hversion), if_pos hversion, ticks_eq hversion.seconds_le hversion.nanoseconds_lt]
        · rw [if_pos (hrange.mpr hversion), if_neg hversion]
      · rw [if_neg hzhex, if_neg (fun h => hzhex h.size_hex)]
        rfl
    · rw [if_neg hnhex, if_neg (fun h => hnhex h.nanoseconds_hex)]
      rfl
  · rw [if_neg hshex, if_neg (fun h => hshex h.seconds_hex)]
    rfl

/-- A text splits at the first byte `c`, if it has one. -/
theorem exists_split {c : UInt8} {l : Bytes} (h : (l.takeWhile (· ≠ c)).length < l.length) :
    ∃ rest, c ∉ l.takeWhile (· ≠ c) ∧ l = l.takeWhile (· ≠ c) ++ c :: rest := by
  have hsplit := List.takeWhile_append_dropWhile (p := (· ≠ c)) (l := l)
  cases hrest : l.dropWhile (· ≠ c) with
  | nil =>
    rw [hrest, List.append_nil] at hsplit
    rw [hsplit] at h
    exact absurd h (Nat.lt_irrefl _)
  | cons b rest =>
    have hb : b = c := by
      have hhead := List.head?_dropWhile_not (· ≠ c) l
      rw [hrest] at hhead
      simpa using hhead
    refine ⟨rest, fun hmem => ?_, ?_⟩
    · have hne := List.mem_takeWhile_imp hmem
      exact of_decide_eq_true hne rfl
    · rw [hb] at hrest
      rw [← hrest, hsplit]

/-- Without a dash behind a dot there is no version. -/
theorem readVersion_cases (mid rest : Bytes) : readVersion (mid ++ rest) mid.length = .error () ∧ Http.parseTag mid = none ∨
    ∃ seconds nanoseconds size, 46 ∉ seconds ∧ 45 ∉ nanoseconds ∧ mid = seconds ++ 46 :: (nanoseconds ++ 45 :: size) := by
  have hle : mid.length ≤ (mid ++ rest).length := by
    rw [List.length_append]
    omega
  have hdot : (mid.takeWhile (· ≠ 46)).length ≤ mid.length := (List.takeWhile_prefix _).length_le
  unfold readVersion
  rw [scan_eq hle (Nat.zero_le _) (by omega), ok_bind, List.take_left, List.drop_zero, Nat.zero_add, scan_eq hle hdot (by omega), ok_bind, List.take_left]
  split_ifs with hdash
  · exact .inl ⟨rfl, if_pos hdash⟩
  · right
    obtain ⟨behind, hs, hsplit⟩ := exists_split (c := 46) (l := mid) (by omega)
    have hbehind : mid.drop (mid.takeWhile (· ≠ 46)).length = 46 :: behind := by
      conv_lhs => rw [hsplit, takeWhile_before hs, List.drop_left]
    have hcount : mid.length = (mid.takeWhile (· ≠ 46)).length + (behind.length + 1) := by
      conv_lhs => rw [hsplit, List.length_append, List.length_cons]
    rw [hbehind, List.takeWhile_cons_of_pos (by decide), List.length_cons] at hdash
    obtain ⟨size, hn, hrest⟩ := exists_split (c := 45) (l := behind) (by omega)
    refine ⟨_, _, size, hs, hn, ?_⟩
    rw [← hrest]
    exact hsplit

theorem readVersion_ne_fault (mid rest : Bytes) : readVersion (mid ++ rest) mid.length ≠ .fault := by
  obtain ⟨herror, -⟩ | ⟨seconds, nanoseconds, size, hs, hn, rfl⟩ := readVersion_cases mid rest
  · rw [herror]
    exact nofun
  · rw [readVersion_split hs hn]
    split_ifs <;> exact nofun

theorem readVersion_ok_iff {mid rest : Bytes} {n : ℕ × ℕ} : readVersion (mid ++ rest) mid.length = .ok n ↔
    ∃ seconds nanoseconds size, mid = seconds ++ 46 :: (nanoseconds ++ 45 :: size) ∧ Version seconds nanoseconds size ∧
      n = (hexFrom 0 size, tick (hexFrom 0 seconds) (hexFrom 0 nanoseconds)) := by
  constructor
  · intro h
    obtain ⟨herror, -⟩ | ⟨seconds, nanoseconds, size, hs, hn, rfl⟩ := readVersion_cases mid rest
    · rw [herror] at h
      cases h
    · rw [readVersion_split hs hn] at h
      split_ifs at h with hversion
      exact ⟨seconds, nanoseconds, size, rfl, hversion, (Checked.ok.inj h).symm⟩
  · rintro ⟨seconds, nanoseconds, size, rfl, hversion, rfl⟩
    have hs : 46 ∉ seconds := hversion.seconds_hex.not_mem (by decide)
    have hn : 45 ∉ nanoseconds := hversion.nanoseconds_hex.not_mem (by decide)
    rw [readVersion_split hs hn, if_pos hversion]

/-- A value between quotes, and any other. -/
theorem readTag_cases (value : Bytes) :
    (∃ mid, value = 34 :: (mid ++ [34]) ∧ readTag value = readVersion (mid ++ [34]) mid.length) ∨
    readTag value = .error () ∧ ∀ mid, value ≠ 34 :: (mid ++ [34]) := by
  unfold readTag
  split_ifs with hshort
  · refine .inr ⟨rfl, fun mid he => ?_⟩
    rw [he, List.length_cons, List.length_append, List.length_singleton] at hshort
    omega
  · obtain ⟨a, mid, b, rfl⟩ : ∃ a mid b, value = a :: (mid ++ [b]) := by
      cases value with
      | nil => exact absurd Nat.zero_lt_two hshort
      | cons a rest =>
        have hne : rest ≠ [] := by
          rintro rfl
          exact hshort Nat.one_lt_two
        exact ⟨a, rest.dropLast, rest.getLast hne, by rw [List.dropLast_append_getLast]⟩
    have hlength : (a :: (mid ++ [b])).length = mid.length + 2 := by
      rw [List.length_cons, List.length_append, List.length_singleton]
    have hopening : readAt (a :: (mid ++ [b])) 0 = (.ok a : Checked Unit UInt8) := rfl
    have hclosing : readAt (a :: (mid ++ [b])) (mid.length + 1) = (.ok b : Checked Unit UInt8) := by
      rw [readAt_eq_ok, List.getElem?_cons_succ, List.getElem?_append_right (Nat.le_refl _), Nat.sub_self]
      rfl
    rw [hlength, hopening, ok_bind, Nat.add_sub_cancel, show mid.length + 2 - 1 = mid.length + 1 from rfl, hclosing, ok_bind]
    split_ifs with hquotes
    · refine .inr ⟨rfl, fun mid' he => ?_⟩
      obtain ⟨rfl, hrest⟩ := List.cons.inj he
      have hb := (List.append_inj' hrest rfl).2
      obtain rfl := (List.cons.inj hb).1
      simp at hquotes
    · push Not at hquotes
      obtain ⟨rfl, rfl⟩ := hquotes
      exact .inl ⟨mid, rfl, rfl⟩

theorem readTag_ne_fault (value : Bytes) : readTag value ≠ .fault := by
  obtain ⟨mid, -, he⟩ | ⟨he, -⟩ := readTag_cases value
  · rw [he]
    exact readVersion_ne_fault mid [34]
  · rw [he]
    exact nofun

theorem readTag_ok_iff {n : ℕ × ℕ} : readTag value = .ok n ↔
    ∃ seconds nanoseconds size, value = quoted seconds nanoseconds size ∧ Version seconds nanoseconds size ∧
      n = (hexFrom 0 size, tick (hexFrom 0 seconds) (hexFrom 0 nanoseconds)) := by
  have hquoted : ∀ seconds nanoseconds size : Bytes,
      quoted seconds nanoseconds size = 34 :: ((seconds ++ 46 :: (nanoseconds ++ 45 :: size)) ++ [34]) := by
    intro seconds nanoseconds size
    unfold quoted
    rw [List.append_assoc, List.cons_append, List.append_assoc, List.cons_append]
  obtain ⟨mid, rfl, he⟩ | ⟨he, hnone⟩ := readTag_cases value
  · rw [he, readVersion_ok_iff]
    refine exists_congr fun seconds => exists_congr fun nanoseconds => exists_congr fun size => and_congr_left fun _ => ?_
    rw [hquoted]
    exact ⟨fun h => by rw [h], fun h => (List.append_inj' (List.cons.inj h).2 rfl).1⟩
  · rw [he]
    refine ⟨nofun, fun ⟨seconds, nanoseconds, size, h, _⟩ => ?_⟩
    exact absurd (h.trans (hquoted _ _ _)) (hnone _)

/-! ### What a server writes -/

/-- A hex digit, in either case. -/
def hexChar (upper : Bool) (digit : ℕ) : UInt8 :=
  if digit < 10 then (48 + digit).toUInt8 else if upper then (55 + digit).toUInt8 else (87 + digit).toUInt8

/-- A number in hex. -/
def hexText (upper : Bool) (n : ℕ) : Bytes := if n = 0 then [48] else ((Nat.digits 16 n).map (hexChar upper)).reverse

theorem hexDigit_hexChar {upper : Bool} {digit : ℕ} (h : digit < 16) : hexDigit (hexChar upper digit) = some digit := by
  cases upper <;> interval_cases digit <;> rfl

theorem hexFrom_reverse {upper : Bool} (digits : List ℕ) (h : ∀ d ∈ digits, d < 16) :
    hexFrom 0 (digits.map (hexChar upper)).reverse = Nat.ofDigits 16 digits := by
  unfold hexFrom
  rw [List.foldl_reverse]
  induction digits with
  | nil => rfl
  | cons d digits ih =>
    rw [List.map_cons, List.foldr_cons, ih (fun d hd => h d (List.mem_cons_of_mem _ hd)), hexDigit_hexChar (h d List.mem_cons_self), Nat.ofDigits_cons]
    rw [Option.getD_some]
    omega

theorem hexFrom_hexText (upper : Bool) (n : ℕ) : hexFrom 0 (hexText upper n) = n := by
  unfold hexText
  split_ifs with hzero
  · rw [hzero]
    rfl
  · rw [hexFrom_reverse _ (fun d hd => Nat.digits_lt_base (by decide) hd), Nat.ofDigits_digits]

theorem hexText_hex {upper : Bool} {n : ℕ} (h : n < 2 ^ 64) : Hex (hexText upper n) := by
  unfold hexText
  split_ifs with hzero
  · exact ⟨List.cons_ne_nil _ _, by decide +kernel, by decide +kernel⟩
  · refine ⟨?_, ?_, fun c hc => ?_⟩
    · rw [Ne, List.reverse_eq_nil_iff, List.map_eq_nil_iff, Nat.digits_eq_nil_iff_eq_zero]
      exact hzero
    · rw [List.length_reverse, List.length_map, Nat.digits_length_le_iff (by decide)]
      exact h
    · obtain ⟨d, hd, rfl⟩ := List.mem_map.mp (List.mem_reverse.mp hc)
      rw [hexDigit_hexChar (Nat.digits_lt_base (by decide) hd)]
      rfl

/-- The tag of a version, as the server spells it. -/
def spelled (upper : Bool) (seconds nanoseconds size : ℕ) : Bytes :=
  quoted (hexText upper seconds) (hexText upper nanoseconds) (hexText upper size)

theorem readTag_spelled (upper : Bool) {seconds nanoseconds size : ℕ} (hs : seconds ≤ lastSecond) (hn : nanoseconds < 1000000000) (hz : size < 2 ^ 64) :
    readTag (spelled upper seconds nanoseconds size) = .ok (size, tick seconds nanoseconds) := by
  have hlast : lastSecond < 2 ^ 64 := by decide
  rw [readTag_ok_iff]
  refine ⟨_, _, _, rfl, ⟨hexText_hex (by omega), hexText_hex (by omega), hexText_hex hz, ?_, ?_⟩, ?_⟩
  · rwa [hexFrom_hexText]
  · rwa [hexFrom_hexText]
  · rw [hexFrom_hexText, hexFrom_hexText, hexFrom_hexText]

theorem parseFileVersion_eq (headers : List Header) : parseFileVersion headers =
    match tags headers with
    | [tag] => readTag tag.value
    | _ => .error () := by
  unfold parseFileVersion
  rw [findTag_none]
  cases tags headers with
  | nil => rfl
  | cons tag rest => cases rest <;> rfl

/-! ### The version of whole values -/

/-- What a reader of whole values that has no error to name answers. -/
def ofOption {α : Type} : Option α → Checked Unit α
  | none => .error ()
  | some a => .ok a

theorem foldlM_hexDigit (text : Bytes) : ∀ v, text.foldlM (fun value c => (hexDigit c).map fun digit => value * 16 + digit) v =
    if ∀ c ∈ text, (hexDigit c).isSome then some (hexFrom v text) else none := by
  induction text with
  | nil =>
    intro v
    rw [if_pos nofun]
    rfl
  | cons c rest ih =>
    intro v
    rw [List.foldlM_cons]
    cases hc : hexDigit c with
    | none =>
      rw [if_neg]
      · rfl
      · intro hall
        have hfirst := hall c List.mem_cons_self
        rw [hc] at hfirst
        cases hfirst
    | some digit =>
      have hcons : (∀ b ∈ c :: rest, (hexDigit b).isSome = true) ↔ ∀ b ∈ rest, (hexDigit b).isSome = true := by
        rw [List.forall_mem_cons, hc]
        exact and_iff_right rfl
      have hvalue : hexFrom v (c :: rest) = hexFrom (v * 16 + digit) rest := by
        unfold hexFrom
        rw [List.foldl_cons, hc]
        rfl
      rw [if_congr hcons rfl rfl, hvalue]
      exact ih _

theorem whole_parseHex64_eq (text : Bytes) : Http.parseHex64 text = if Hex text then some (hexFrom 0 text) else none := by
  unfold Http.parseHex64
  rw [foldlM_hexDigit]
  by_cases hlength : text.length = 0 ∨ 16 < text.length
  · rw [if_pos hlength, if_neg]
    rw [hex_iff]
    exact fun h => h.1 hlength
  · rw [if_neg hlength]
    refine if_congr ?_ rfl rfl
    rw [hex_iff]
    exact (and_iff_right hlength).symm

/-- The slices the scanner reads are those of the text between the quotes. -/
theorem readVersion_eq (mid rest : Bytes) : readVersion (mid ++ rest) mid.length = ofOption (Http.parseTag mid) := by
  obtain ⟨herror, hnone⟩ | ⟨seconds, nanoseconds, size, hs, hn, rfl⟩ := readVersion_cases mid rest
  · rw [herror, hnone]
    rfl
  · have hbehind : (seconds ++ 46 :: (nanoseconds ++ 45 :: size)).drop seconds.length = (46 :: nanoseconds) ++ 45 :: size := List.drop_left
    have hdash : 45 ∉ 46 :: nanoseconds := by
      rintro (_ | ⟨_, hmem⟩)
      exact hn hmem
    have hfirst : (seconds ++ 46 :: (nanoseconds ++ 45 :: size)).take seconds.length = seconds := List.take_left
    have hsecond : ((seconds ++ 46 :: (nanoseconds ++ 45 :: size)).drop (seconds.length + 1)).take nanoseconds.length = nanoseconds := by
      rw [← List.drop_drop, List.drop_left]
      exact List.take_left
    have hthird : (seconds ++ 46 :: (nanoseconds ++ 45 :: size)).drop (seconds.length + (nanoseconds.length + 1) + 1) = size := by
      rw [Nat.add_assoc, ← List.drop_drop, List.drop_left]
      simp
    have hcount : ¬ (seconds ++ 46 :: (nanoseconds ++ 45 :: size)).length ≤ seconds.length + (nanoseconds.length + 1) := by
      simp only [List.length_append, List.length_cons]
      omega
    have hmiddle : seconds.length + (nanoseconds.length + 1) - seconds.length - 1 = nanoseconds.length := by omega
    rw [readVersion_split hs hn]
    unfold Http.parseTag
    simp only [takeWhile_before hs, hbehind, takeWhile_before hdash, List.length_cons, if_neg hcount, hfirst, hmiddle, hsecond, hthird, whole_parseHex64_eq]
    by_cases hhex : Hex seconds ∧ Hex nanoseconds ∧ Hex size
    · obtain ⟨hshex, hnhex, hzhex⟩ := hhex
      have hrange : (1000000000 ≤ hexFrom 0 nanoseconds ∨ (2 ^ 64 - 1 - epochTicks) / ticksPerSecond - 1 < hexFrom 0 seconds) ↔
          ¬ Version seconds nanoseconds size := by
        rw [version_iff hshex hnhex hzhex, not_and_or, Nat.not_lt, Nat.not_le]
        rfl
      rw [if_pos hshex, if_pos hnhex, if_pos hzhex]
      simp only [Option.bind_eq_bind, Option.bind_some, if_congr hrange rfl rfl]
      by_cases hversion : Version seconds nanoseconds size
      · rw [if_pos hversion, if_neg (not_not_intro hversion)]
        rfl
      · rw [if_neg hversion, if_pos hversion]
        rfl
    · rw [if_neg (fun h => hhex ⟨h.seconds_hex, h.nanoseconds_hex, h.size_hex⟩)]
      by_cases hshex : Hex seconds
      · by_cases hnhex : Hex nanoseconds
        · rw [if_pos hshex, if_pos hnhex, if_neg (fun hzhex => hhex ⟨hshex, hnhex, hzhex⟩)]
          rfl
        · rw [if_pos hshex, if_neg hnhex]
          rfl
      · rw [if_neg hshex]
        rfl

/-- The scanner reads what `Http.parseFileVersion` reads of whole values. -/
theorem parseFileVersion_eq_whole (headers : List Header) : parseFileVersion headers = ofOption (Http.parseFileVersion headers) := by
  rw [parseFileVersion_eq]
  unfold Http.parseFileVersion tags
  cases headers.filter fun h => Http.tokenEquals h.name (ascii "etag") with
  | nil => rfl
  | cons tag rest =>
    cases rest with
    | cons tag' rest => rfl
    | nil =>
      dsimp only
      obtain ⟨mid, hvalue, he⟩ | ⟨he, hnone⟩ := readTag_cases tag.value
      · rw [he, readVersion_eq, if_neg, hvalue]
        · simp
        · have hlast : (34 :: (mid ++ [34])).getLast? = some 34 := List.getLast?_concat (l := 34 :: mid)
          rw [hvalue, hlast]
          simp
      · rw [he, if_pos]
        · rfl
        · by_contra hquotes
          push Not at hquotes
          obtain ⟨hlength, hhead, hlast⟩ := hquotes
          obtain ⟨rest, hrest⟩ := List.head?_eq_some_iff.mp hhead
          obtain ⟨mid, hmid⟩ := List.getLast?_eq_some_iff.mp hlast
          rw [hrest] at hmid hlength
          cases mid with
          | nil =>
            rw [hmid] at hlength
            exact absurd hlength (by decide)
          | cons a mid =>
            refine hnone mid ?_
            rw [hrest, (List.cons.inj hmid).2]
            rfl

/-- Each version that is read, and what it is. There is one tag, and its value spells the version
between quotes, in range, so that the ticks do not wrap; every spelling of a server is one, in
either case, and two versions are the same only when the sizes and the ticks are. -/
theorem versions_read (headers : List Header) :
    parseFileVersion headers ≠ .fault ∧
    (∀ size time, parseFileVersion headers = .ok (size, time) ↔
      ∃ tag s n z, tags headers = [tag] ∧ tag.value = quoted s n z ∧ Version s n z ∧ size = hexFrom 0 z ∧ time = tick (hexFrom 0 s) (hexFrom 0 n)) ∧
    (∀ size time, parseFileVersion headers = .ok (size, time) → size < 2 ^ 64 ∧ time < 2 ^ 64) ∧
    (∀ tag upper seconds nanoseconds size, tags headers = [tag] → tag.value = spelled upper seconds nanoseconds size →
      seconds ≤ lastSecond → nanoseconds < 1000000000 → size < 2 ^ 64 →
      parseFileVersion headers = .ok (size, tick seconds nanoseconds)) ∧
    (∀ tag s n z headers' tag' s' n' z', tags headers = [tag] → tag.value = quoted s n z → Version s n z →
      tags headers' = [tag'] → tag'.value = quoted s' n' z' → Version s' n' z' →
      (parseFileVersion headers = parseFileVersion headers' ↔
        hexFrom 0 z = hexFrom 0 z' ∧ hexFrom 0 s = hexFrom 0 s' ∧ hexFrom 0 n / 100 = hexFrom 0 n' / 100)) := by
  have hread : ∀ {headers tag s n z}, tags headers = [tag] → tag.value = quoted s n z → Version s n z →
      parseFileVersion headers = .ok (hexFrom 0 z, tick (hexFrom 0 s) (hexFrom 0 n)) := by
    intro headers tag s n z htags hvalue hversion
    rw [parseFileVersion_eq, htags]
    exact readTag_ok_iff.mpr ⟨s, n, z, hvalue, hversion, rfl⟩
  have hok : ∀ size time, parseFileVersion headers = .ok (size, time) ↔
      ∃ tag s n z, tags headers = [tag] ∧ tag.value = quoted s n z ∧ Version s n z ∧ size = hexFrom 0 z ∧ time = tick (hexFrom 0 s) (hexFrom 0 n) := by
    intro size time
    constructor
    · intro h
      rw [parseFileVersion_eq] at h
      split at h
      · rename_i tag htags
        obtain ⟨s, n, z, hvalue, hversion, he⟩ := readTag_ok_iff.mp h
        obtain ⟨rfl, rfl⟩ := Prod.mk.inj he
        exact ⟨tag, s, n, z, htags, hvalue, hversion, rfl, rfl⟩
      · cases h
    · rintro ⟨tag, s, n, z, htags, hvalue, hversion, rfl, rfl⟩
      exact hread htags hvalue hversion
  refine ⟨?_, hok, ?_, ?_, ?_⟩
  · rw [parseFileVersion_eq]
    split
    · exact readTag_ne_fault _
    · exact nofun
  · intro size time h
    obtain ⟨tag, s, n, z, -, -, hversion, rfl, rfl⟩ := (hok size time).mp h
    have hlt := hexFrom_lt z 0
    have hpow : 16 ^ z.length ≤ 16 ^ 16 := Nat.pow_le_pow_right (by decide) hversion.size_hex.length_le
    exact ⟨by omega, tick_lt hversion.seconds_le hversion.nanoseconds_lt⟩
  · intro tag upper seconds nanoseconds size htags hvalue hs hn hz
    rw [parseFileVersion_eq, htags]
    dsimp only
    rw [hvalue, readTag_spelled upper hs hn hz]
  · intro tag s n z headers' tag' s' n' z' htags hvalue hversion htags' hvalue' hversion'
    rw [hread htags hvalue hversion, hread htags' hvalue' hversion', Checked.ok.injEq, Prod.mk.injEq,
      tick_inj hversion.nanoseconds_lt hversion'.nanoseconds_lt]

end BlorgFS.Http.Scan

import BlorgFS.Lib.Framing
import BlorgFS.Lib.Memory
import BlorgFS.Lib.Word

/-! The receive accumulator of a connection, `Socket.h`: ciphertext received in bulk and not
yet taken off as records. The handshake and the requests that follow it on the connection
drain the same one, each with a loop of its own; the cursors and what happens to them once no
record is left in full are the same in both. -/

namespace BlorgFS.Tls

open Lib

/-- `TLS_TAG_LEN`. -/
def tagLength : ℕ := 16

/-- `TLS_RECORD_CIPHERTEXT_MAX`. -/
def ciphertextMax : ℕ := 16384 + 1 + tagLength

/-- `SOCKET_TLS_RECORD_MAX_BYTES`. -/
def recordMax : ℕ := 5 + ciphertextMax

/-- `MmQuerySystemSize`. -/
inductive SystemSize where
  | small | medium | large
  deriving DecidableEq, Repr

/-- `BlorgSocketTlsRecvCapacity`. -/
def recvCapacity : SystemSize → ℕ
  | .small => 4 * recordMax
  | .medium => 8 * recordMax
  | .large => 16 * recordMax

theorem two_mul_recordMax_le (size : SystemSize) : 2 * recordMax ≤ recvCapacity size := by cases size <;> decide

theorem recvCapacity_lt (size : SystemSize) : recvCapacity size < 2 ^ 32 := by cases size <;> decide

/-! ### Records -/

/-- The length a record header declares. -/
def declaredLength (l : List UInt8) : ℕ := (l.getD 3 0).toNat * 256 + (l.getD 4 0).toNat

theorem declaredLength_append {l : List UInt8} (h : 5 ≤ l.length) (x : List UInt8) : declaredLength (l ++ x) = declaredLength l := by
  simp only [declaredLength, List.getD_eq_getElem?_getD]
  rw [List.getElem?_append_left (by omega), List.getElem?_append_left (by omega)]

theorem declaredLength_take {l : List UInt8} {n : ℕ} (h : 5 ≤ n) : declaredLength (l.take n) = declaredLength l := by
  simp only [declaredLength, List.getD_eq_getElem?_getD]
  rw [List.getElem?_take_of_lt (by omega), List.getElem?_take_of_lt (by omega)]

/-- Records as they stand in a stream: five bytes of header, which end with the length of
what follows. -/
def recordFraming : Framing UInt8 where
  size l := if 5 ≤ l.length then some (5 + declaredLength l) else none
  size_append {l n} h x := by
    split_ifs at h with h5
    rw [if_pos (by simp; omega), declaredLength_append h5]
    exact h
  size_take {l n} h hn := by
    split_ifs at h with h5
    have := Option.some.inj h
    rw [if_pos (by simp; omega), declaredLength_take (by omega)]
    exact h
  size_pos {l n} h := by
    split_ifs at h with h5
    have := Option.some.inj h
    omega

abbrev IsRecord : List UInt8 → Prop := recordFraming.Whole

/-- The records of a stream that are there in full. -/
abbrev records : List UInt8 → List (List UInt8) := recordFraming.items

theorem isRecord_iff {r : List UInt8} : IsRecord r ↔ 5 ≤ r.length ∧ r.length = 5 + declaredLength r := by
  simp only [IsRecord, Framing.Whole, recordFraming]
  by_cases h : 5 ≤ r.length
  · simp [h, eq_comm]
  · simp [h]

/-- The first record is not there in full. -/
def Short (l : List UInt8) : Prop := l.length < 5 ∨ l.length < 5 + declaredLength l

theorem Short.not_append {r l : List UInt8} (hr : IsRecord r) (h : Short (r ++ l)) : False := by
  have hlen := isRecord_iff.mp hr
  rw [Short, declaredLength_append hlen.1, List.length_append] at h
  omega

/-! ### The accumulator -/

structure Accumulator where
  buffer : ℕ → UInt8
  offset : ℕ
  length : ℕ

namespace Accumulator

/-- `TlsRecvLength - TlsRecvOffset`. -/
def buffered (a : Accumulator) : ℕ := ulongSub a.length a.offset

/-- The five bytes at the front. -/
def header (a : Accumulator) : List UInt8 := load a.buffer a.offset 5

def declared (a : Accumulator) : ℕ := declaredLength a.header

/-- The record at the front, header included. -/
def record (a : Accumulator) : List UInt8 := load a.buffer a.offset (5 + a.declared)

/-- `TlsRecvOffset += 5 + declaredLen`. -/
def consume (a : Accumulator) : Accumulator := { a with offset := ulong (a.offset + (5 + a.declared)) }

/-- The cursors once no record is left in full: reset when everything has been taken, and
what is left moved to the front when a record at its longest would not fit behind it. -/
def settle (size : SystemSize) (a : Accumulator) : Accumulator :=
  if a.offset = a.length then { a with offset := 0, length := 0 }
  else if a.offset ≠ 0 ∧ ulongSub (recvCapacity size) a.length < recordMax then
    { buffer := store a.buffer 0 (load a.buffer a.offset a.buffered), offset := 0, length := a.buffered }
  else a

/-- How much the next bulk receive is posted for. -/
def room (size : SystemSize) (a : Accumulator) : ℕ := ulongSub (recvCapacity size) a.length

/-- What a bulk receive has brought. -/
def arrive (a : Accumulator) (chunk : List UInt8) : Accumulator :=
  { a with buffer := store a.buffer a.length chunk, length := ulong (a.length + chunk.length) }

/-- The cursors are in order and inside the buffer. -/
structure Fits (size : SystemSize) (a : Accumulator) : Prop where
  offset_le : a.offset ≤ a.length
  length_le : a.length ≤ recvCapacity size

/-- What has been received and not taken off. -/
def pending (a : Accumulator) : List UInt8 := load a.buffer a.offset (a.length - a.offset)

variable {size : SystemSize} {a : Accumulator}

theorem Fits.length_lt (h : a.Fits size) : a.length < 2 ^ 32 := Nat.lt_of_le_of_lt h.length_le (recvCapacity_lt size)

theorem Fits.buffered_eq (h : a.Fits size) : a.buffered = a.length - a.offset := ulongSub_of_le h.offset_le h.length_lt

theorem length_pending : a.pending.length = a.length - a.offset := length_load

theorem Fits.length_pending (h : a.Fits size) : a.pending.length = a.buffered := by
  rw [Accumulator.length_pending, h.buffered_eq]

theorem Fits.room_eq (h : a.Fits size) : a.room size = recvCapacity size - a.length :=
  ulongSub_of_le h.length_le (recvCapacity_lt size)

theorem Fits.take_pending (h : a.Fits size) {n : ℕ} (hn : n ≤ a.buffered) : a.pending.take n = load a.buffer a.offset n := by
  rw [pending, load_take (by rw [← h.buffered_eq]; exact hn)]

theorem Fits.header_eq (h : a.Fits size) (h5 : 5 ≤ a.buffered) : a.header = a.pending.take 5 := (h.take_pending h5).symm

theorem Fits.declared_eq (h : a.Fits size) (h5 : 5 ≤ a.buffered) : a.declared = declaredLength a.pending := by
  rw [declared, h.header_eq h5, declaredLength_take (Nat.le_refl 5)]

theorem Fits.short (h : a.Fits size) (hp : a.buffered < 5 ∨ a.buffered < 5 + a.declared) : Short a.pending := by
  rw [Short, h.length_pending]
  by_cases h5 : a.buffered < 5
  · exact .inl h5
  · rw [← h.declared_eq (by omega)]
    exact .inr (hp.resolve_left h5)

/-! ### Taking a record off -/

theorem Fits.record_eq (h : a.Fits size) (hw : 5 + a.declared ≤ a.buffered) : a.record = a.pending.take (5 + a.declared) :=
  (h.take_pending hw).symm

theorem length_record : a.record.length = 5 + a.declared := length_load

theorem Fits.isRecord_record (h : a.Fits size) (hw : 5 + a.declared ≤ a.buffered) : IsRecord a.record := by
  rw [isRecord_iff, length_record, h.record_eq hw, declaredLength_take (by omega), ← h.declared_eq (by omega)]
  omega

theorem Fits.consume_offset (h : a.Fits size) (hw : 5 + a.declared ≤ a.buffered) : a.consume.offset = a.offset + (5 + a.declared) := by
  have hb := h.buffered_eq
  have hl := h.length_lt
  apply ulong_of_lt
  omega

theorem Fits.consume (h : a.Fits size) (hw : 5 + a.declared ≤ a.buffered) : a.consume.Fits size := by
  have hb := h.buffered_eq
  constructor
  · rw [h.consume_offset hw]
    show a.offset + (5 + a.declared) ≤ a.length
    have := h.offset_le
    omega
  · exact h.length_le

theorem Fits.pending_consume (h : a.Fits size) (hw : 5 + a.declared ≤ a.buffered) : a.pending = a.record ++ a.consume.pending := by
  have hb := h.buffered_eq
  have hdrop : a.pending.drop (5 + a.declared) = a.consume.pending := by
    rw [pending, load_drop (by omega), pending, h.consume_offset hw, Nat.sub_sub]
    rfl
  rw [h.record_eq hw, ← hdrop, List.take_append_drop]

/-! ### Between two receives -/

theorem Fits.settle (h : a.Fits size) : (a.settle size).Fits size := by
  unfold Accumulator.settle
  split_ifs
  · exact ⟨Nat.le_refl 0, Nat.zero_le _⟩
  · refine ⟨Nat.zero_le _, ?_⟩
    show a.buffered ≤ recvCapacity size
    have := h.buffered_eq
    have := h.length_le
    omega
  · exact h

/-- Neither the reset nor the move loses a byte or brings one back. -/
theorem Fits.pending_settle (h : a.Fits size) : (a.settle size).pending = a.pending := by
  unfold Accumulator.settle
  split_ifs with h1 h2
  · simp [pending, h1]
  · rw [pending]
    show load (store a.buffer 0 (load a.buffer a.offset a.buffered)) 0 (a.buffered - 0) = a.pending
    rw [Nat.sub_zero, pending, ← h.buffered_eq]
    have hl : load (store a.buffer 0 (load a.buffer a.offset a.buffered)) 0 (load a.buffer a.offset a.buffered).length = _ := load_store_self
    rwa [length_load] at hl
  · rfl

/-- A receive is posted with no whole record left. Behind what is left there is then room
for what is missing of the record at the front, and for some of it at least. -/
theorem Fits.room_settle (h : a.Fits size) (hp : a.buffered < recordMax) : recordMax ≤ a.buffered + (a.settle size).room size ∧ 0 < (a.settle size).room size := by
  have h2 := two_mul_recordMax_le size
  have hb := h.buffered_eq
  have hle := h.offset_le
  have hr := h.room_eq
  have hmax : 0 < recordMax := by decide
  unfold room at hr
  rw [h.settle.room_eq]
  unfold Accumulator.settle
  split_ifs with h1 h2
  · show recordMax ≤ a.buffered + (recvCapacity size - 0) ∧ 0 < recvCapacity size - 0
    omega
  · show recordMax ≤ a.buffered + (recvCapacity size - a.buffered) ∧ 0 < recvCapacity size - a.buffered
    omega
  · rw [hr] at h2
    by_cases h0 : a.offset = 0
    · omega
    · have : ¬ recvCapacity size - a.length < recordMax := fun hlt => h2 ⟨h0, hlt⟩
      omega

theorem Fits.arrive_length (h : a.Fits size) {chunk : List UInt8} (hc : chunk.length ≤ a.room size) : (a.arrive chunk).length = a.length + chunk.length := by
  rw [h.room_eq] at hc
  have := h.length_le
  have := recvCapacity_lt size
  apply ulong_of_lt
  omega

theorem Fits.arrive (h : a.Fits size) {chunk : List UInt8} (hc : chunk.length ≤ a.room size) : (a.arrive chunk).Fits size := by
  have hl := h.arrive_length hc
  rw [h.room_eq] at hc
  have h1 := h.length_le
  have h2 := h.offset_le
  constructor
  · rw [hl]
    show a.offset ≤ _
    omega
  · omega

theorem Fits.pending_arrive (h : a.Fits size) {chunk : List UInt8} (hc : chunk.length ≤ a.room size) : (a.arrive chunk).pending = a.pending ++ chunk := by
  have hle := h.offset_le
  rw [pending, h.arrive_length hc]
  show load (store a.buffer a.length chunk) a.offset (a.length + chunk.length - a.offset) = a.pending ++ chunk
  rw [show a.length + chunk.length - a.offset = (a.length - a.offset) + chunk.length by omega, load_store_append (by omega)]
  rfl

end Accumulator

end BlorgFS.Tls

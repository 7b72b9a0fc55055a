import BlorgFS.Lib.Checked

/-! A buffer that is filled from the front. What is put goes behind what is there, places can be
left out and filled in later, and what would go past the end is a fault. -/

namespace BlorgFS.Lib

variable {ε β : Type}

/-- `bytes` from position `i` on. -/
def writeSlice (text : List β) (i : ℕ) (values : List β) : Checked ε (List β) :=
  if i + values.length ≤ text.length then .ok (text.take i ++ (values ++ text.drop (i + values.length))) else .fault

theorem writeSlice_append (front old rest : List β) {values : List β} (h : values.length = old.length) :
    writeSlice (front ++ (old ++ rest)) front.length values = (.ok (front ++ (values ++ rest)) : Checked ε (List β)) := by
  have hle : front.length + values.length ≤ (front ++ (old ++ rest)).length := by
    rw [List.length_append, List.length_append]
    omega
  rw [writeSlice, if_pos hle, List.take_left' rfl, List.drop_length_add_append, h, List.drop_left' rfl]

/-- A buffer and how much of it is taken. -/
structure Filling (β : Type) where
  buffer : List β
  offset : ℕ

namespace Filling

/-- Values go behind what is there. -/
def put (s : Filling β) (values : List β) : Checked ε (Filling β) := do
  let buffer ← writeSlice s.buffer s.offset values
  .ok ⟨buffer, s.offset + values.length⟩

/-- Places are left out. -/
def skip (s : Filling β) (n : ℕ) : Filling β := { s with offset := s.offset + n }

/-- Values go where places were left out. -/
def patch (s : Filling β) (i : ℕ) (values : List β) : Checked ε (Filling β) := do
  let buffer ← writeSlice s.buffer i values
  .ok { s with buffer }

/-- A buffer with `front` in it and `room` behind it. -/
def of (front room : List β) : Filling β := ⟨front ++ room, front.length⟩

variable {front room values : List β}

@[simp] theorem of_offset : (of front room).offset = front.length := rfl

theorem put_of (h : values.length ≤ room.length) : (of front room).put values = (.ok (of (front ++ values) (room.drop values.length)) : Checked ε _) := by
  have hroom : front ++ room = front ++ (room.take values.length ++ room.drop values.length) := by rw [List.take_append_drop]
  have hlength : values.length = (room.take values.length).length := (List.length_take_of_le h).symm
  unfold put of
  dsimp only
  rw [hroom, writeSlice_append _ _ _ hlength, Checked.ok_bind, List.append_assoc, List.length_append]

theorem put_of_fault (h : room.length < values.length) : (of front room).put values = (.fault : Checked ε _) := by
  have hpast : ¬ front.length + values.length ≤ (front ++ room).length := by
    rw [List.length_append]
    omega
  unfold put of writeSlice
  dsimp only
  rw [if_neg hpast, Checked.fault_bind]

theorem put_put_of (values values' : List β) :
    ((of front room).put values >>= fun s => s.put values') = ((of front room).put (values ++ values') : Checked ε _) := by
  by_cases h : values.length ≤ room.length
  · rw [put_of h, Checked.ok_bind]
    by_cases h' : values'.length ≤ (room.drop values.length).length
    · rw [List.length_drop] at h'
      have hboth : (values ++ values').length ≤ room.length := by
        rw [List.length_append]
        omega
      rw [put_of hboth, put_of (by rw [List.length_drop]; omega), List.append_assoc, List.drop_drop, List.length_append]
    · rw [List.length_drop] at h'
      have hneither : room.length < (values ++ values').length := by
        rw [List.length_append]
        omega
      rw [put_of_fault hneither, put_of_fault (by rw [List.length_drop]; omega)]
  · have hneither : room.length < (values ++ values').length := by
      rw [List.length_append]
      omega
    rw [put_of_fault hneither, put_of_fault (Nat.lt_of_not_le h), Checked.fault_bind]

/-- What is put one behind the other is put at once. -/
theorem put_put (s : Filling β) (values values' : List β) : (s.put values >>= fun s => s.put values') = (s.put (values ++ values') : Checked ε _) := by
  by_cases h : s.offset ≤ s.buffer.length
  · have hs : s = of (s.buffer.take s.offset) (s.buffer.drop s.offset) := by
      unfold of
      rw [List.take_append_drop, List.length_take_of_le h]
    rw [hs, put_put_of]
  · -- Nothing can be put behind the end, not even nothing.
    have hput : ∀ values : List β, (s.put values : Checked ε _) = .fault := by
      intro values
      unfold put writeSlice
      rw [if_neg (by omega), Checked.fault_bind]
    rw [hput, hput, Checked.fault_bind]

theorem skip_of {n : ℕ} (h : n ≤ room.length) : (of front room).skip n = of (front ++ room.take n) (room.drop n) := by
  unfold skip of
  rw [List.append_assoc, List.take_append_drop, List.length_append, List.length_take_of_le h]

theorem patch_of (room before old after : List β) (h : values.length = old.length) :
    (of (before ++ (old ++ after)) room).patch before.length values = (.ok (of (before ++ (values ++ after)) room) : Checked ε _) := by
  unfold patch of
  dsimp only
  rw [List.append_assoc, List.append_assoc, writeSlice_append _ _ _ h, Checked.ok_bind, List.append_assoc, List.append_assoc]
  simp only [List.length_append, h]

end Filling

end BlorgFS.Lib

import BlorgFS.Lib.Tally

/-! Share access as the I/O manager keeps it: counts of the opens with data access and of what
they share. Kept by the calls below the counts are the sums over the opens, whatever the order
they came in, and an open is refused exactly when it conflicts with one of them. -/

namespace BlorgFS.Lib

abbrev AccessMask := BitVec 32

def fileReadData : AccessMask := 0x1
def fileWriteData : AccessMask := 0x2
def fileAppendData : AccessMask := 0x4
def fileExecute : AccessMask := 0x20
def delete : AccessMask := 0x10000

def fileShareRead : BitVec 16 := 0x1
def fileShareWrite : BitVec 16 := 0x2
def fileShareDelete : BitVec 16 := 0x4

/-- `FlagOn`. -/
def flagOn {w : ℕ} (mask flags : BitVec w) : Bool := mask &&& flags != 0

/-- What a file object keeps of its open. -/
structure Access where
  readAccess : Bool
  writeAccess : Bool
  deleteAccess : Bool
  sharedRead : Bool
  sharedWrite : Bool
  sharedDelete : Bool
  deriving DecidableEq, Repr

namespace Access

def ofMask (desired : AccessMask) (share : BitVec 16) : Access where
  readAccess := flagOn desired (fileExecute ||| fileReadData)
  writeAccess := flagOn desired (fileWriteData ||| fileAppendData)
  deleteAccess := flagOn desired delete
  sharedRead := flagOn share fileShareRead
  sharedWrite := flagOn share fileShareWrite
  sharedDelete := flagOn share fileShareDelete

/-- The open has data access; no other is counted. -/
def data (a : Access) : Bool := a.readAccess || a.writeAccess || a.deleteAccess

/-- What `a` may do `b` lets others do. -/
def Allowed (a b : Access) : Prop :=
  (a.readAccess → b.sharedRead) ∧ (a.writeAccess → b.sharedWrite) ∧ (a.deleteAccess → b.sharedDelete)

/-- Two opens that may stand beside each other. -/
def Compatible (a b : Access) : Prop := a.data → b.data → Allowed a b ∧ Allowed b a

instance (a b : Access) : Decidable (Allowed a b) := inferInstanceAs (Decidable (_ ∧ _))

instance (a b : Access) : Decidable (Compatible a b) := inferInstanceAs (Decidable (_ → _ → _))

theorem Compatible.symm {a b : Access} (h : Compatible a b) : Compatible b a := fun hb ha => (h ha hb).symm

end Access

/-- `SHARE_ACCESS`. -/
@[ext] structure ShareAccess where
  openCount : ℕ
  readers : ℕ
  writers : ℕ
  deleters : ℕ
  sharedRead : ℕ
  sharedWrite : ℕ
  sharedDelete : ℕ
  deriving DecidableEq, Repr

namespace ShareAccess

def none : ShareAccess := ⟨0, 0, 0, 0, 0, 0, 0⟩

/-- `IoSetShareAccess`. -/
def set (a : Access) : ShareAccess :=
  if a.data then ⟨1, a.readAccess.toNat, a.writeAccess.toNat, a.deleteAccess.toNat, a.sharedRead.toNat, a.sharedWrite.toNat, a.sharedDelete.toNat⟩
  else none

/-- `IoCheckShareAccess` that updates the counts. It fails with `STATUS_SHARING_VIOLATION`. -/
def check (sa : ShareAccess) (a : Access) : Option ShareAccess :=
  if a.data then
    if a.readAccess ∧ sa.sharedRead < sa.openCount ∨ a.writeAccess ∧ sa.sharedWrite < sa.openCount ∨
        a.deleteAccess ∧ sa.sharedDelete < sa.openCount ∨ sa.readers ≠ 0 ∧ !a.sharedRead ∨
        sa.writers ≠ 0 ∧ !a.sharedWrite ∨ sa.deleters ≠ 0 ∧ !a.sharedDelete then
      .none
    else
      some ⟨sa.openCount + 1, sa.readers + a.readAccess.toNat, sa.writers + a.writeAccess.toNat, sa.deleters + a.deleteAccess.toNat,
        sa.sharedRead + a.sharedRead.toNat, sa.sharedWrite + a.sharedWrite.toNat, sa.sharedDelete + a.sharedDelete.toNat⟩
  else some sa

/-- `IoRemoveShareAccess`. -/
def remove (sa : ShareAccess) (a : Access) : ShareAccess :=
  if a.data then
    ⟨sa.openCount - 1, sa.readers - a.readAccess.toNat, sa.writers - a.writeAccess.toNat, sa.deleters - a.deleteAccess.toNat,
      sa.sharedRead - a.sharedRead.toNat, sa.sharedWrite - a.sharedWrite.toNat, sa.sharedDelete - a.sharedDelete.toNat⟩
  else sa

/-- The opens one after another, as long as none is refused. -/
def replay (sa : ShareAccess) : List Access → Option ShareAccess
  | [] => some sa
  | a :: l => (sa.check a).bind fun sa => replay sa l

/-- The counts of some opens. -/
def total (l : List Access) : ShareAccess where
  openCount := tally (·.data.toNat) l
  readers := tally (·.readAccess.toNat) l
  writers := tally (·.writeAccess.toNat) l
  deleters := tally (·.deleteAccess.toNat) l
  sharedRead := tally (fun a => (a.data && a.sharedRead).toNat) l
  sharedWrite := tally (fun a => (a.data && a.sharedWrite).toNat) l
  sharedDelete := tally (fun a => (a.data && a.sharedDelete).toNat) l

variable {a b : Access} {l l' : List Access}

@[simp] theorem total_nil : total [] = none := rfl

theorem total_perm (h : l.Perm l') : total l = total l' := by
  simp only [total, tally_perm h]

theorem access_of_not_data (h : a.data = false) : a.readAccess = false ∧ a.writeAccess = false ∧ a.deleteAccess = false := by
  simpa [Access.data, and_assoc] using h

theorem set_eq (a : Access) : set a = total [a] := by
  unfold set
  split_ifs with h
  · simp [total, h]
  · obtain ⟨h1, h2, h3⟩ := access_of_not_data (Bool.not_eq_true _ ▸ h)
    simp [total, none, h, h1, h2, h3]

/-- An open is taken out again. -/
theorem remove_total (h : l.Perm (a :: l')) : (total l).remove a = total l' := by
  rw [total_perm h]
  unfold remove
  split_ifs with hd
  · simp [total, hd, Nat.add_sub_cancel_left]
  · obtain ⟨h1, h2, h3⟩ := access_of_not_data (Bool.not_eq_true _ ▸ hd)
    simp [total, hd, h1, h2, h3]

theorem openCount_total : (total l).openCount = 0 ↔ ∀ a ∈ l, a.data = false := by
  constructor
  · intro h a ha
    have hle : a.data.toNat ≤ (total l).openCount := le_tally (f := fun a : Access => a.data.toNat) ha
    simpa [h] using hle
  · intro h
    exact tally_eq_zero fun a ha => by rw [h a ha]; rfl

theorem readers_total (f : Access → Bool) : tally (fun a => (f a).toNat) l ≠ 0 ↔ ∃ a ∈ l, f a = true := by
  rw [← Nat.pos_iff_ne_zero]
  constructor
  · intro h
    obtain ⟨a, ha, hf⟩ := exists_of_tally_pos h
    exact ⟨a, ha, by cases h : f a <;> simp_all⟩
  · rintro ⟨a, ha, hf⟩
    have hle : (f a).toNat ≤ tally (fun a => (f a).toNat) l := le_tally (f := fun a : Access => (f a).toNat) ha
    simpa [hf, Nat.pos_iff_ne_zero, Nat.one_le_iff_ne_zero] using hle

theorem shared_total (f : Access → Bool) :
    tally (fun a => (a.data && f a).toNat) l < tally (fun a => a.data.toNat) l ↔ ∃ a ∈ l, a.data = true ∧ f a = false := by
  rw [tally_lt_iff]
  · refine exists_congr fun a => and_congr_right fun _ => ?_
    cases a.data <;> cases f a <;> simp
  · intro a _
    cases a.data <;> simp [Bool.toNat_le]

theorem data_of_read (h : a.readAccess = true) : a.data = true := by simp [Access.data, h]

theorem data_of_write (h : a.writeAccess = true) : a.data = true := by simp [Access.data, h]

theorem data_of_delete (h : a.deleteAccess = true) : a.data = true := by simp [Access.data, h]

/-- An open is refused exactly when it conflicts with one that is counted. -/
theorem check_total (l : List Access) (a : Access) :
    (total l).check a = if ∀ b ∈ l, Access.Compatible a b then some (total (l ++ [a])) else .none := by
  have hadd : total (l ++ [a]) = ⟨(total l).openCount + a.data.toNat, (total l).readers + a.readAccess.toNat, (total l).writers + a.writeAccess.toNat,
      (total l).deleters + a.deleteAccess.toNat, (total l).sharedRead + (a.data && a.sharedRead).toNat,
      (total l).sharedWrite + (a.data && a.sharedWrite).toNat, (total l).sharedDelete + (a.data && a.sharedDelete).toNat⟩ := by
    simp [total]
  unfold check
  split_ifs with hd hconflict hall hall hall
  · -- a violation is a conflict with one of the opens
    exfalso
    rcases hconflict with ⟨h1, h2⟩ | ⟨h1, h2⟩ | ⟨h1, h2⟩ | ⟨h1, h2⟩ | ⟨h1, h2⟩ | ⟨h1, h2⟩
    · obtain ⟨b, hb, hbd, hbs⟩ := (shared_total _).mp h2
      simp [((hall b hb) hd hbd).1.1 h1] at hbs
    · obtain ⟨b, hb, hbd, hbs⟩ := (shared_total _).mp h2
      simp [((hall b hb) hd hbd).1.2.1 h1] at hbs
    · obtain ⟨b, hb, hbd, hbs⟩ := (shared_total _).mp h2
      simp [((hall b hb) hd hbd).1.2.2 h1] at hbs
    · obtain ⟨b, hb, hbr⟩ := (readers_total _).mp h1
      simp [((hall b hb) hd (data_of_read hbr)).2.1 hbr] at h2
    · obtain ⟨b, hb, hbr⟩ := (readers_total _).mp h1
      simp [((hall b hb) hd (data_of_write hbr)).2.2.1 hbr] at h2
    · obtain ⟨b, hb, hbr⟩ := (readers_total _).mp h1
      simp [((hall b hb) hd (data_of_delete hbr)).2.2.2 hbr] at h2
  · rfl
  · rw [hadd]
    simp [hd]
  · exfalso
    apply hall
    intro b hb _ hbd
    simp only [not_or, not_and, Bool.not_eq_true', Bool.not_eq_false] at hconflict
    obtain ⟨h1, h2, h3, h4, h5, h6⟩ := hconflict
    refine ⟨⟨fun h => ?_, fun h => ?_, fun h => ?_⟩, fun h => ?_, fun h => ?_, fun h => ?_⟩
    · by_contra hn
      exact h1 h ((shared_total _).mpr ⟨b, hb, hbd, Bool.not_eq_true _ ▸ hn⟩)
    · by_contra hn
      exact h2 h ((shared_total _).mpr ⟨b, hb, hbd, Bool.not_eq_true _ ▸ hn⟩)
    · by_contra hn
      exact h3 h ((shared_total _).mpr ⟨b, hb, hbd, Bool.not_eq_true _ ▸ hn⟩)
    · exact h4 ((readers_total _).mpr ⟨b, hb, h⟩)
    · exact h5 ((readers_total _).mpr ⟨b, hb, h⟩)
    · exact h6 ((readers_total _).mpr ⟨b, hb, h⟩)
  · obtain ⟨h1, h2, h3⟩ := access_of_not_data (Bool.not_eq_true _ ▸ hd)
    rw [hadd]
    simp [hd, h1, h2, h3]
  · exact absurd (fun b _ ha => absurd ha hd) hall

/-- Opens that go together can be replayed in any order. -/
theorem replay_total (h : l.Pairwise Access.Compatible) : replay (total l') l =
    if ∀ a ∈ l, ∀ b ∈ l', Access.Compatible a b then some (total (l' ++ l)) else .none := by
  induction l generalizing l' with
  | nil => simp [replay]
  | cons a l ih =>
    obtain ⟨hhead, htail⟩ := List.pairwise_cons.mp h
    rw [replay, check_total]
    split_ifs with h1 h2 h2
    · rw [Option.bind_some, ih htail, if_pos, List.append_assoc, List.singleton_append]
      intro b hb c hc
      rcases List.mem_append.mp hc with hc | hc
      · exact h2 b (List.mem_cons_of_mem _ hb) c hc
      · rw [List.mem_singleton.mp hc]
        exact (hhead b hb).symm
    · rw [Option.bind_some, ih htail, if_neg]
      intro h3
      apply h2
      intro b hb
      rcases List.mem_cons.mp hb with rfl | hb
      · exact h1
      · exact fun c hc => h3 b hb c (List.mem_append_left _ hc)
    · exact absurd (h2 a List.mem_cons_self) h1
    · rfl

theorem replay_eq_total (h : l.Pairwise Access.Compatible) (hp : l'.Perm l) : replay none l' = some (total l) := by
  have hpair : l'.Pairwise Access.Compatible := (hp.pairwise_iff fun h => h.symm).mpr h
  rw [← total_nil, replay_total hpair, if_pos (fun _ _ _ hb => nomatch hb), List.nil_append, total_perm hp]

end ShareAccess

end BlorgFS.Lib

import BlorgFS.Http.Request
import BlorgFS.Read.Runs

/-! What a read asks the server for. `ReadTrimToFileSize` compares signed 64-bit numbers and
subtracts unsigned 32-bit ones; for offsets and sizes that are not negative nothing wraps, and it
is the `trim` of the machine. Each way a read is issued on takes a snapshot of the file's size,
trims with it, and asks for the range that leaves. -/

namespace BlorgFS.Read

open Lib DiskCache Core Http.Request

/-! ### The comparisons of the source -/

/-- A number as a `LONGLONG`. -/
def longlong (n : ℤ) : ℤ := Int.bmod n (2 ^ 64)

def maxLongLong : ℤ := 2 ^ 63 - 1

/-- `ReadTrimToFileSize`, with what it leaves in `RealLengthOut`. -/
def readTrimToFileSize (fileSize startingByte : ℤ) (bytesLength : ℕ) : Except Status ℕ :=
  if startingByte ≥ fileSize then .error .endOfFile
  else if startingByte > longlong (maxLongLong - longlong bytesLength) then .error .endOfFile
  else if longlong (startingByte + longlong bytesLength) > fileSize then
    let trimLength := (longlong (longlong (startingByte + longlong bytesLength) - fileSize) % 2 ^ 32).toNat
    .ok (ulongSub bytesLength trimLength)
  else .ok bytesLength

theorem longlong_of_mem {n : ℤ} (h : -2 ^ 63 ≤ n) (h' : n < 2 ^ 63) : longlong n = n := by
  unfold longlong
  rw [Int.bmod_def]
  omega

/-- A `LONGLONG` that is not negative. -/
structure Offset (n : ℤ) : Prop where
  nonneg : 0 ≤ n
  lt : n < 2 ^ 63

section Trim

variable {fileSize startingByte : ℤ} {bytesLength : ℕ}

/-- Where nothing wraps. -/
theorem readTrimToFileSize_eq (hsize : Offset fileSize) (hstart : Offset startingByte) (hpos : 0 < bytesLength) (hlength : bytesLength < 2 ^ 32) :
    readTrimToFileSize fileSize startingByte bytesLength =
      if fileSize ≤ startingByte ∨ maxLongLong < startingByte + bytesLength then .error .endOfFile
      else .ok (min bytesLength (fileSize - startingByte).toNat) := by
  obtain ⟨hsize0, hsize⟩ := hsize
  obtain ⟨hstart0, hstart⟩ := hstart
  have hmax : maxLongLong = 9223372036854775807 := rfl
  unfold readTrimToFileSize
  rw [longlong_of_mem (n := bytesLength) (by omega) (by omega), longlong_of_mem (n := maxLongLong - _) (by omega) (by omega)]
  by_cases hend : fileSize ≤ startingByte
  · rw [if_pos hend, if_pos (.inl hend)]
  · rw [if_neg hend]
    by_cases hunrepresentable : maxLongLong < startingByte + bytesLength
    · rw [if_pos (by omega), if_pos (.inr hunrepresentable)]
    · have hsum : longlong (startingByte + bytesLength) = startingByte + bytesLength := longlong_of_mem (by omega) (by omega)
      rw [if_neg (show ¬ startingByte > maxLongLong - bytesLength by omega), if_neg (not_or.mpr ⟨hend, hunrepresentable⟩), hsum]
      by_cases hbeyond : startingByte + bytesLength > fileSize
      · rw [if_pos hbeyond, longlong_of_mem (by omega) (by omega)]
        dsimp only
        rw [ulongSub_of_le (by omega) hlength]
        congr 1
        omega
      · rw [if_neg hbeyond]
        congr 1
        omega

end Trim

/-- `trim` is what the source answers. -/
theorem trim_eq_readTrim (request : Request) {size : ℕ} (hsize : size < 2 ^ 63) (hstart : request.offset < 2 ^ 63) :
    readTrimToFileSize size request.offset request.length =
      match trim request size with
      | none => .error .endOfFile
      | some real => .ok real := by
  have hpos := request.length_pos
  have hlt := request.length_lt
  have hmax : maxLongLong = 9223372036854775807 := rfl
  rw [readTrimToFileSize_eq ⟨by omega, by omega⟩ ⟨by omega, by omega⟩ hpos hlt]
  unfold trim
  by_cases hend : size ≤ request.offset
  · rw [if_pos (.inl (by omega)), if_pos hend]
  · by_cases hunrepresentable : 2 ^ 63 - 1 - request.length < request.offset
    · rw [if_pos (.inr (by omega)), if_neg hend, if_pos hunrepresentable]
    · rw [if_neg (by omega), if_neg hend, if_neg hunrepresentable]
      by_cases hbeyond : size < request.offset + request.length
      · rw [if_pos hbeyond]
        dsimp only
        congr 1
        omega
      · rw [if_neg hbeyond]
        dsimp only
        congr 1
        omega

/-! ### The snapshots of a run -/

namespace Task

/-- The locals of a thread that is issuing a read it has trimmed. -/
def issuing (t : Task) : Option Issue :=
  match t with
  | .unissued _ _ => none
  | t => t.locals

end Task

variable {V : Setup} {c : Core} {s : State} {t t' : Task} {k k' : Issue} {ch : Choice}

/-- The same read, trimmed to the same length by the same caller. -/
structure Issue.Same (k k' : Issue) : Prop where
  irp : k'.irp = k.irp
  valid : k'.valid = k.valid
  caller : k'.caller = k.caller

theorem Issue.same_refl (k : Issue) : k.Same k := ⟨rfl, rfl, rfl⟩

/-- A task that goes on with a read, or with none. -/
def Task.GoesOn (k : Issue) (t : Task) : Prop := ∀ k', t.issuing = some k' → k.Same k'

theorem Task.goesOn_of_none (h : t.issuing = none) : t.GoesOn k := fun _ hk => by rw [h] at hk; cases hk

theorem Task.goesOn_of_some (h : t.issuing = some k') (hk : k.Same k') : t.GoesOn k := fun _ h' => by
  rw [h] at h'
  obtain rfl := Option.some.inj h'
  exact hk

theorem admittedTo_goesOn (k : Issue) : (admittedTo k).GoesOn k := by
  unfold admittedTo
  cases k.caller with
  | dispatcher => split_ifs <;> exact Task.goesOn_of_some rfl k.same_refl
  | released fromDiskCache => cases fromDiskCache <;> exact Task.goesOn_of_some rfl k.same_refl

theorem notWhole_goesOn (k : Issue) (runs : ℕ) : (notWhole k runs).GoesOn k := by
  unfold notWhole
  cases hcaller : k.caller with
  | dispatcher => exact Task.goesOn_of_some rfl ⟨rfl, rfl, hcaller.symm⟩
  | released fromDiskCache => split_ifs <;> exact Task.goesOn_of_some rfl ⟨rfl, rfl, hcaller.symm⟩

theorem issueHeld_goesOn (released : List ℕ) (ht : t ∈ released.map Task.issueHeld) : t.GoesOn k := by
  obtain ⟨i, -, rfl⟩ := List.mem_map.mp ht
  exact Task.goesOn_of_none rfl

theorem notTaken_goesOn (k : Issue) (extra : Option ℕ) : (notTaken k extra).GoesOn k := by
  cases extra with
  | none => exact notWhole_goesOn k 0
  | some reserved => exact Task.goesOn_of_some rfl k.same_refl

theorem issued_goesOn (c : Core) (extra : Option ℕ) (r : ℕ) : ∀ t ∈ (c.issued k extra r).2, t.GoesOn k := by
  intro t ht
  cases extra with
  | none =>
    obtain rfl := List.mem_singleton.mp ht
    exact Task.goesOn_of_none rfl
  | some reserved =>
    obtain rfl | hsurplus := List.mem_cons.mp ht
    · exact Task.goesOn_of_none rfl
    · obtain rfl := List.mem_singleton.mp hsurplus
      exact Task.goesOn_of_some rfl k.same_refl

theorem issueStep_goesOn (c : Core) (extra : Option ℕ) (r issued : ℕ) : ∀ t ∈ (c.issueStep V ch k extra r issued).2, t.GoesOn k := by
  unfold issueStep
  simp only
  split
  · split
    · intro t ht
      obtain rfl | hissued := List.mem_cons.mp ht
      · exact Task.goesOn_of_none rfl
      · exact issued_goesOn _ extra r t hissued
    · intro t ht
      obtain rfl | hissue := List.mem_cons.mp ht
      · exact Task.goesOn_of_none rfl
      · obtain rfl := List.mem_singleton.mp hissue
        exact Task.goesOn_of_some rfl k.same_refl
  · split
    · intro t ht
      obtain rfl := List.mem_singleton.mp ht
      exact notTaken_goesOn k extra
    · exact issued_goesOn _ extra r

/-- What a step of a thread leaves behind goes on with the read that thread had. -/
theorem step_goesOn (c : Core) (ch : Choice) (hk : t.locals = some k) (ht : t' ∈ (c.step V ch t).2) : t'.GoesOn k := by
  cases t with
  | offer k₀ =>
    obtain rfl := Option.some.inj hk
    simp only [step] at ht
    split at ht
    · obtain rfl := List.mem_singleton.mp ht
      exact notWhole_goesOn k₀ _
    · obtain rfl := List.mem_singleton.mp ht
      exact Task.goesOn_of_some rfl k₀.same_refl
  | admitFirst k₀ =>
    obtain rfl := Option.some.inj hk
    simp only [step] at ht
    split_ifs at ht
    · obtain rfl := List.mem_singleton.mp ht
      exact Task.goesOn_of_some rfl k₀.same_refl
    · obtain rfl := List.mem_singleton.mp ht
      exact admittedTo_goesOn k₀
  | allocate k₀ =>
    obtain rfl := Option.some.inj hk
    simp only [step] at ht
    split_ifs at ht
    · obtain rfl := List.mem_singleton.mp ht
      exact Task.goesOn_of_some rfl k₀.same_refl
    · refine Task.goesOn_of_none ?_
      unfold refuse at ht
      cases hcaller : k₀.caller with
      | dispatcher =>
        rw [hcaller] at ht
        obtain rfl := List.mem_singleton.mp ht
        rfl
      | released fromDiskCache =>
        rw [hcaller] at ht
        obtain rfl := List.mem_singleton.mp ht
        rfl
  | admitAgain k₀ item =>
    obtain rfl := Option.some.inj hk
    simp only [step] at ht
    split_ifs at ht
    · cases ht
    · obtain rfl := List.mem_singleton.mp ht
      exact Task.goesOn_of_some rfl k₀.same_refl
  | freeItem k₀ item =>
    obtain rfl := Option.some.inj hk
    obtain rfl := List.mem_singleton.mp ht
    exact admittedTo_goesOn k₀
  | reserve k₀ =>
    obtain rfl := Option.some.inj hk
    obtain rfl := List.mem_singleton.mp ht
    exact Task.goesOn_of_some rfl k₀.same_refl
  | attempt k₀ reserved =>
    obtain rfl := Option.some.inj hk
    simp only [step] at ht
    split at ht
    · obtain rfl := List.mem_singleton.mp ht
      exact Task.goesOn_of_some rfl k₀.same_refl
    · obtain rfl := List.mem_singleton.mp ht
      exact Task.goesOn_of_some rfl k₀.same_refl
  | issue k₀ extra r issued =>
    obtain rfl := Option.some.inj hk
    exact issueStep_goesOn c extra r issued t' ht
  | surplus k₀ reserved fetches =>
    simp only [step, withReleased] at ht
    exact issueHeld_goesOn _ ht
  | declined k₀ reserved =>
    obtain rfl := Option.some.inj hk
    simp only [step, withReleased] at ht
    obtain hfetch | hreleased := List.mem_append.mp ht
    · obtain rfl := List.mem_singleton.mp hfetch
      exact Task.goesOn_of_some rfl k₀.same_refl
    · exact issueHeld_goesOn _ hreleased
  | fetch k₀ =>
    simp only [step] at ht
    refine Task.goesOn_of_none ?_
    split_ifs at ht
    · obtain rfl := List.mem_singleton.mp ht
      rfl
    · obtain rfl := List.mem_singleton.mp ht
      rfl
  | unissued k₀ status =>
    simp only [step, withReleased] at ht
    cases hcaller : k₀.caller with
    | dispatcher =>
      rw [hcaller] at ht
      obtain rfl | hreleased := List.mem_cons.mp ht
      · exact Task.goesOn_of_none rfl
      · exact issueHeld_goesOn _ hreleased
    | released fromDiskCache =>
      rw [hcaller] at ht
      obtain rfl | hreleased := List.mem_cons.mp ht
      · exact Task.goesOn_of_none rfl
      · exact issueHeld_goesOn _ hreleased
  | complete i dispatcher status information => cases hk
  | fetching i => cases hk
  | part r fetched length => cases hk
  | settleRead r => cases hk
  | diskComplete i status valid fetches refetch => cases hk
  | diskSettle i status valid refetch => cases hk
  | issueHeld i => cases hk
  | worker i fromDiskCache => cases hk

theorem released_issuing (released : List ℕ) (ht : t ∈ released.map Task.issueHeld) : t.issuing = none := by
  obtain ⟨i, -, rfl⟩ := List.mem_map.mp ht
  rfl

/-- A thread that is not issuing leaves none behind that is, but for a work item's. -/
theorem step_issuing_none (c : Core) (ch : Choice) (hk : t.issuing = none) (hworker : ∀ i b, t ≠ .worker i b) (ht : t' ∈ (c.step V ch t).2) :
    t'.issuing = none := by
  cases t with
  | unissued k status =>
    simp only [step, withReleased] at ht
    cases hcaller : k.caller with
    | dispatcher =>
      rw [hcaller] at ht
      obtain rfl | hreleased := List.mem_cons.mp ht
      · rfl
      · exact released_issuing _ hreleased
    | released fromDiskCache =>
      rw [hcaller] at ht
      obtain rfl | hreleased := List.mem_cons.mp ht
      · rfl
      · exact released_issuing _ hreleased
  | complete i dispatcher status information => cases ht
  | fetching i =>
    simp only [step, withReleased] at ht
    obtain rfl | hreleased := List.mem_cons.mp ht
    · rfl
    · exact released_issuing _ hreleased
  | part r fetched length =>
    obtain rfl := List.mem_singleton.mp ht
    rfl
  | settleRead r =>
    simp only [step, settleRead] at ht
    split at ht
    · cases ht
    · obtain rfl := List.mem_singleton.mp ht
      rfl
  | diskComplete i status valid fetches refetch =>
    simp only [step, withReleased] at ht
    obtain rfl | hreleased := List.mem_cons.mp ht
    · rfl
    · exact released_issuing _ hreleased
  | diskSettle i status valid refetch =>
    simp only [step, withReleased] at ht
    split_ifs at ht
    · obtain rfl | hreleased := List.mem_cons.mp ht
      · rfl
      · exact released_issuing _ hreleased
    · obtain rfl := List.mem_singleton.mp ht
      rfl
    · obtain rfl | hreleased := List.mem_cons.mp ht
      · rfl
      · exact released_issuing _ hreleased
  | issueHeld i =>
    obtain rfl := List.mem_singleton.mp ht
    rfl
  | worker i b => exact absurd rfl (hworker i b)
  | _ => cases hk

theorem worker_tasks {i : ℕ} {b : Bool} (c : Core) (ch : Choice) : (c.step V ch (.worker i b)).2 =
    match trim (V.request i) ch.size with
    | none => [.unissued ⟨i, .released b, 0, 0⟩ .endOfFile]
    | some valid => if (c.irps i).admitted = false then [.admitFirst ⟨i, .released b, valid, 0⟩] else [admittedTo ⟨i, .released b, valid, 0⟩] := by
  have hfree : ∀ n, ((c.free n).irps i).admitted = (c.irps i).admitted := fun _ => rfl
  simp only [step]
  cases trim (V.request i) ch.size with
  | none => rfl
  | some valid =>
    cases (c.irps i).context2 with
    | item n =>
      simp only [hfree]
      split_ifs <;> rfl
    | empty => split_ifs <;> rfl
    | stamp => split_ifs <;> rfl

/-- A work item's thread trims the read with the size it finds. -/
theorem worker_issuing {i : ℕ} {b : Bool} (c : Core) (ch : Choice) (ht : t ∈ (c.step V ch (.worker i b)).2) (hk : t.issuing = some k) :
    k.irp = i ∧ k.caller = .released b ∧ trim (V.request i) ch.size = some k.valid := by
  rw [worker_tasks] at ht
  cases htrim : trim (V.request i) ch.size with
  | none =>
    rw [htrim] at ht
    obtain rfl := List.mem_singleton.mp ht
    cases hk
  | some valid =>
    rw [htrim] at ht
    dsimp only at ht
    have hsame : (⟨i, .released b, valid, 0⟩ : Issue).Same k := by
      split_ifs at ht
      · obtain rfl := List.mem_singleton.mp ht
        exact Task.goesOn_of_some rfl (Issue.same_refl _) k hk
      · obtain rfl := List.mem_singleton.mp ht
        exact admittedTo_goesOn _ k hk
    exact ⟨hsame.irp, hsame.caller, congrArg some hsame.valid.symm⟩

/-- Where a thread that issues a read comes from: its own step before, or a work item's, which
trims. -/
theorem step_issuing (c : Core) (ch : Choice) (ht : t' ∈ (c.step V ch t).2) (hk : t'.issuing = some k) :
    (∃ k₀, t.issuing = some k₀ ∧ k₀.Same k) ∨
      ∃ b, t = .worker k.irp b ∧ k.caller = .released b ∧ trim (V.request k.irp) ch.size = some k.valid := by
  cases hissuing : t.issuing with
  | some k₀ =>
    have hlocals : t.locals = some k₀ := by
      cases t with
      | unissued k status => cases hissuing
      | _ => exact hissuing
    exact .inl ⟨k₀, rfl, step_goesOn c ch hlocals ht k hk⟩
  | none =>
    by_cases hworker : ∃ i b, t = .worker i b
    · obtain ⟨i, b, rfl⟩ := hworker
      obtain ⟨rfl, hcaller, htrim⟩ := worker_issuing c ch ht hk
      exact .inr ⟨b, rfl, hcaller, htrim⟩
    · have hnone := step_issuing_none c ch hissuing (fun i b he => hworker ⟨i, b, he⟩) ht
      rw [hnone] at hk
      cases hk

/-! ### What is fetched -/

def Act.choice : Act → Choice
  | .arrive ch => ch
  | .run _ ch => ch

/-- The size that an issuing thread trimmed its read with: the one `BlorgVolumeRead` found when
the read came, or the one `ReadIssueReleased` found when its work item ran. -/
def Snapshot (V : Setup) (acts : List Act) (k : Issue) (size : ℕ) : Prop :=
  match k.caller with
  | .dispatcher => ∃ before ch after s, acts = before ++ .arrive ch :: after ∧ run (State.next V) initial before = some s ∧
      s.core.count = k.irp ∧ ch.size = size
  | .released fromDiskCache => ∃ ch, Act.run (.worker k.irp fromDiskCache) ch ∈ acts ∧ ch.size = size

theorem Snapshot.append {acts : List Act} {size : ℕ} (h : Snapshot V acts k size) (hk : k.Same k') (act : Act) : Snapshot V (acts ++ [act]) k' size := by
  unfold Snapshot at h ⊢
  rw [hk.caller, hk.irp]
  cases hcaller : k.caller with
  | dispatcher =>
    rw [hcaller] at h
    obtain ⟨before, ch, after, s, rfl, hrun, hcount, hsize⟩ := h
    exact ⟨before, ch, after ++ [act], s, by simp, hrun, hcount, hsize⟩
  | released fromDiskCache =>
    rw [hcaller] at h
    obtain ⟨ch, hmem, hsize⟩ := h
    exact ⟨ch, List.mem_append_left _ hmem, hsize⟩

theorem run_snoc {acts : List Act} {act : Act} {s' : State} (h : run (State.next V) initial (acts ++ [act]) = some s') :
    ∃ s, run (State.next V) initial acts = some s ∧ s.next V act = some s' := by
  rw [run_append] at h
  obtain ⟨s, hs, hnext⟩ := Option.bind_eq_some_iff.mp h
  obtain ⟨s₁, hs₁, he⟩ := Option.bind_eq_some_iff.mp hnext
  obtain rfl := Option.some.inj he
  exact ⟨s, hs, hs₁⟩

/-- A read that comes is trimmed with the size `BlorgVolumeRead` finds. -/
theorem arrive_issuing (ht : t ∈ (s.arrive V ch).tasks) (hk : t.issuing = some k) :
    (trim (V.request k.irp) ch.size = some k.valid ∧ k.caller = .dispatcher ∧ k.irp = s.core.count) ∨ t ∈ s.tasks := by
  simp only [State.arrive] at ht
  cases htrim : trim (V.request s.core.count) ch.size with
  | none =>
    rw [htrim] at ht
    obtain rfl | hrest := List.mem_cons.mp ht
    · cases hk
    · exact .inr hrest
  | some valid =>
    rw [htrim] at ht
    dsimp only at ht
    split_ifs at ht
    · obtain rfl | hrest := List.mem_cons.mp ht
      · obtain rfl := Option.some.inj hk
        exact .inl ⟨htrim, rfl, rfl⟩
      · exact .inr hrest
    · obtain rfl | hrest := List.mem_cons.mp ht
      · cases hk
      · exact .inr hrest

/-- In every run, what a thread issues is trimmed with the snapshot it took. -/
theorem run_snapshot {acts : List Act} (h : run (State.next V) initial acts = some s) (ht : t ∈ s.tasks) (hk : t.issuing = some k) :
    ∃ size, Snapshot V acts k size ∧ trim (V.request k.irp) size = some k.valid := by
  induction acts using List.reverseRecOn generalizing s t k with
  | nil =>
    obtain rfl := Option.some.inj h
    cases ht
  | append_singleton acts act ih =>
    obtain ⟨s₀, hrun, hnext⟩ := run_snoc h
    have hold : ∀ {t₀ k₀}, t₀ ∈ s₀.tasks → t₀.issuing = some k₀ → k₀.Same k →
        ∃ size, Snapshot V (acts ++ [act]) k size ∧ trim (V.request k.irp) size = some k.valid := by
      intro t₀ k₀ ht₀ hk₀ hsame
      obtain ⟨size, hsnapshot, htrim⟩ := ih hrun ht₀ hk₀
      exact ⟨size, hsnapshot.append hsame act, by rw [hsame.irp, hsame.valid, htrim]⟩
    cases act with
    | arrive ch =>
      obtain rfl := Option.some.inj hnext
      obtain ⟨htrim, hcaller, hirp⟩ | hrest := arrive_issuing ht hk
      · refine ⟨ch.size, ?_, htrim⟩
        unfold Snapshot
        rw [hcaller]
        exact ⟨acts, ch, [], s₀, rfl, hrun, hirp.symm, rfl⟩
      · exact hold hrest hk k.same_refl
    | run task ch =>
      unfold State.next at hnext
      dsimp only at hnext
      split_ifs at hnext with hmem
      obtain rfl := Option.some.inj hnext
      obtain hnew | hrest := List.mem_append.mp ht
      · obtain ⟨k₀, hk₀, hsame⟩ | ⟨b, rfl, hcaller, htrim⟩ := step_issuing s₀.core ch hnew hk
        · exact hold hmem hk₀ hsame
        · refine ⟨ch.size, ?_, htrim⟩
          unfold Snapshot
          rw [hcaller]
          exact ⟨ch, List.mem_append_right _ (List.mem_singleton_self _), rfl⟩
      · exact hold (List.mem_of_mem_erase hrest) hk k.same_refl

theorem Snapshot.size_lt {acts : List Act} {size : ℕ} (h : Snapshot V acts k size) (hacts : ∀ act ∈ acts, act.choice.size < 2 ^ 63) : size < 2 ^ 63 := by
  unfold Snapshot at h
  split at h
  · obtain ⟨before, ch, after, s, rfl, -, -, rfl⟩ := h
    exact hacts _ (List.mem_append_right _ List.mem_cons_self)
  · obtain ⟨ch, hmem, rfl⟩ := h
    exact hacts _ hmem

/-- What is left of a read that starts inside the file and whose end is a `LONGLONG`. -/
structure Trimmed (fileSize startingByte : ℤ) (length real : ℕ) : Prop where
  pos : 0 < real
  le : real ≤ length
  inside : startingByte + real ≤ fileSize
  whole : startingByte + length ≤ fileSize → real = length
  tail : fileSize < startingByte + length → (real : ℤ) = fileSize - startingByte
  range : getFileRange startingByte.toNat real = some (startingByte.toNat, startingByte.toNat + real - 1)
  last_lt : ((startingByte.toNat + real - 1 : ℕ) : ℤ) < fileSize

theorem readTrim_trimmed {fileSize startingByte : ℤ} {length real : ℕ} (hsize : Offset fileSize) (hstart : Offset startingByte) (hpos : 0 < length)
    (hlength : length < 2 ^ 32) (h : readTrimToFileSize fileSize startingByte length = .ok real) : Trimmed fileSize startingByte length real := by
  rw [readTrimToFileSize_eq hsize hstart hpos hlength] at h
  obtain ⟨hsize0, hsize⟩ := hsize
  obtain ⟨hstart0, hstart⟩ := hstart
  have hmax : maxLongLong = 9223372036854775807 := rfl
  split_ifs at h with hend
  obtain rfl := Except.ok.inj h
  rw [not_or] at hend
  refine ⟨by omega, by omega, by omega, fun _ => by omega, fun _ => by omega, ?_, by omega⟩
  exact getFileRange_eq (by omega) (by omega)

/-- A read is refused at the end of the file exactly when it starts there, or past it, or its end
is no `LONGLONG`; what is left of any other is inside the file, and so is the range it is asked
for by. In every run of the machine, whatever is fetched is asked for by the range that is left
by the snapshot its thread took, be it `BlorgVolumeRead`'s, a held read's or a refetch's. -/
theorem reads_trimmed (V : Setup) :
    (∀ fileSize startingByte length, Offset fileSize → Offset startingByte → 1 ≤ length → length < 2 ^ 32 →
      (readTrimToFileSize fileSize startingByte length = .error .endOfFile ↔ fileSize ≤ startingByte ∨ maxLongLong < startingByte + length) ∧
      (readTrimToFileSize fileSize startingByte length = .error .endOfFile ∨
        ∃ real, readTrimToFileSize fileSize startingByte length = .ok real ∧ Trimmed fileSize startingByte length real)) ∧
    (∀ acts s k, (∀ act ∈ acts, act.choice.size < 2 ^ 63) → run (State.next V) initial acts = some s → .fetch k ∈ s.tasks →
      ∃ size, Snapshot V acts k size ∧ readTrimToFileSize size (V.request k.irp).offset (V.request k.irp).length = .ok k.valid ∧
        Trimmed size (V.request k.irp).offset (V.request k.irp).length k.valid) := by
  refine ⟨fun fileSize startingByte length hsize hstart hpos hlength => ?_, fun acts s k hacts hrun ht => ?_⟩
  · have heq := readTrimToFileSize_eq hsize hstart hpos hlength
    constructor
    · rw [heq]
      split_ifs with hend
      · exact ⟨fun _ => hend, fun _ => rfl⟩
      · exact ⟨nofun, fun h => absurd h hend⟩
    · by_cases hend : fileSize ≤ startingByte ∨ maxLongLong < startingByte + length
      · rw [if_pos hend] at heq
        exact .inl heq
      · rw [if_neg hend] at heq
        exact .inr ⟨_, heq, readTrim_trimmed hsize hstart hpos hlength heq⟩
  · obtain ⟨size, hsnapshot, htrim⟩ := run_snapshot hrun ht rfl
    have hsize := hsnapshot.size_lt hacts
    have hstart : (V.request k.irp).offset < 2 ^ 63 := by
      unfold trim at htrim
      split_ifs at htrim <;> omega
    have hread := trim_eq_readTrim (V.request k.irp) hsize hstart
    rw [htrim] at hread
    have hlt := (V.request k.irp).length_lt
    exact ⟨size, hsnapshot, hread, readTrim_trimmed ⟨by omega, by omega⟩ ⟨by omega, by omega⟩ (V.request k.irp).length_pos hlt hread⟩

end BlorgFS.Read

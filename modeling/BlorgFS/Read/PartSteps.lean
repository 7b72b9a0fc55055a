import BlorgFS.Read.DiskSteps

/-! The steps of a `DISK_CACHE_READ`'s users keep the flow and the account: its issuer
cuts parts and leaves it, parts complete, and whoever drops the last hold takes its
IRP on. -/

namespace BlorgFS.Read

open Lib DiskCache Core

variable {V : Setup} {c c' : Core} {t : Task} {rest new : List Task} {i r issued : ℕ} {k : Issue} {extra : Option ℕ}
  {ch : Choice}

/-! ### Users of a DISK_CACHE_READ -/

/-- A step of a user of `DISK_CACHE_READ` `r` that makes it `read` and leaves `new`
behind: the IRP stays with it or goes to a task in `new`. -/
structure Through (V : Setup) (c c' : Core) (t : Task) (new rest : List Task) (r : ℕ) (read : DiskRead) : Prop where
  fair : c'.toFair = c.toFair
  readCount : c'.readCount = c.readCount
  reads : c'.reads = Function.update c.reads r read
  count : c'.count = c.count
  items : c'.items = c.items
  itemCount : c'.itemCount = c.itemCount
  misuse : c'.misuse = c.misuse
  returned : ∀ j, KeepsReturned c c' j
  irp : read.irp = (c.reads r).irp
  used : read.live = true → 0 < read.outstanding
  owners : ∀ j, tally (Task.owns j) new + read.owns j = (c.reads r).owns j
  dispatchers : ∀ j, tally (Task.dispatches j) new + (if c'.returned j = none then 0 else 1) =
    t.dispatches j + if c.returned j = none then 0 else 1
  refs : (tally (Task.refs r) new : ℤ) + (c.reads r).outstanding = 1 + if read.live = true then read.outstanding else 0
  others : ∀ t' ∈ new, ∀ q, uses t' = some q → q = r
  issuers : ∀ q, tally (Task.issues q) new ≤ t.issues q
  workItem : ∀ t' ∈ new, t'.workItem c' = none
  owed : ∀ j, tally (Task.owes c' j) new + read.owes j = t.owes c j + (c.reads r).owes j
  ok : ∀ t' ∈ new, t'.Ok V c'
  rest : ∀ t' ∈ rest, uses t' = some r → t'.Ok V c' ∧ ∀ j, t'.owes c' j = t'.owes c j

theorem Flow.live_of_uses (h : Flow V c (t :: rest)) (ht : uses t = some r) : (c.reads r).live = true := by
  by_contra hl
  have hrefs := h.refs r
  have hone : t.refs r = 1 := by simp [Task.refs, ht]
  rw [if_neg hl, tally_cons, hone] at hrefs
  omega

theorem Task.bare_of_uses (ht : uses t = some r) : t.owner = none ∧ t.workItem c = none := by
  cases t <;> first | exact ⟨rfl, rfl⟩ | cases ht

theorem Flow.through {read : DiskRead} (h : Flow V c (t :: rest)) (ht : uses t = some r)
    (hs : Through V c c' t new rest r read) : Flow V c' (new ++ rest) := by
  have hlive := h.live_of_uses ht
  have hlt := h.lt_readCount hlive
  obtain ⟨hown, hwork⟩ := @Task.bare_of_uses c t r ht
  have hself : c'.reads r = read := by rw [hs.reads, Function.update_self]
  have hother : ∀ q, q ≠ r → c'.reads q = c.reads q := fun q hq => by rw [hs.reads, Function.update_of_ne hq]
  have hirps : c'.irps = c.irps := by rw [hs.fair]
  have hsum : ∀ g : DiskRead → ℕ, ∑ q ∈ Finset.range c'.readCount, g (c'.reads q) + g (c.reads r) =
      ∑ q ∈ Finset.range c.readCount, g (c.reads q) + g read := fun g => by
    rw [hs.readCount, hs.reads]
    exact sum_range_update hlt c.reads read fun _ => g
  have hopen : ∀ j, Open c j → Open c' j := fun j ho => ho.congr (by rw [hirps]) (hs.returned j)
  have hrest : ∀ t' ∈ rest, t'.Ok V c' ∧ ∀ j, t'.owes c' j = t'.owes c j := by
    intro t' ht'
    by_cases hu : uses t' = some r
    · exact hs.rest t' ht' hu
    · have hsame : ∀ q, uses t' = some q → c'.reads q = c.reads q := fun q hq => hother q fun he => hu (he ▸ hq)
      exact ⟨(h.ok t' (List.mem_cons_of_mem _ ht')).congr (fun j _ => ⟨by rw [hirps], hs.returned j⟩) hsame,
        fun j => Task.owes_congr hsame⟩
  refine ⟨fun j => ?_, fun j => ?_, fun q => ?_, fun q => ?_, fun m => ?_, ?_, fun j => ?_, fun q hq => ?_,
    fun t' ht' => ?_, fun j hj => ?_, fun q hq => ?_, fun q hq => ?_, fun j hj => ?_, fun j x hx => ?_, fun j hj => ?_,
    hs.misuse.trans h.misuse⟩
  · have hold := h.owners j
    have hnew := hs.owners j
    have hsumj : c'.readsOwn j + (c.reads r).owns j = c.readsOwn j + read.owns j := hsum (DiskRead.owns j)
    have hzero : t.owns j = 0 := by simp [Task.owns, hown]
    rw [tally_cons, hzero] at hold
    rw [tally_append, hs.fair, hs.count]
    omega
  · have hold := h.dispatchers j
    have hnew := hs.dispatchers j
    rw [tally_cons] at hold
    rw [tally_append, hs.count]
    omega
  · have hold := h.refs q
    rw [tally_cons] at hold
    rw [tally_append]
    by_cases hq : q = r
    · subst hq
      have hnew := hs.refs
      have hone : t.refs q = 1 := by simp [Task.refs, ht]
      rw [hone, if_pos hlive] at hold
      rw [hself]
      push_cast at hold ⊢
      omega
    · have hzero : t.refs q = 0 := by simp [Task.refs, ht, Ne.symm hq]
      have hnone : tally (Task.refs q) new = 0 := tally_eq_zero fun t' ht' => by
        have hne : uses t' ≠ some q := fun hu => hq (hs.others t' ht' q hu)
        simp [Task.refs, hne]
      rw [hzero] at hold
      rw [hother q hq, hnone]
      exact hold
  · have hold := h.issuers q
    have hnew := hs.issuers q
    rw [tally_cons] at hold
    rw [tally_append]
    omega
  · have hold := h.items m
    have hzero : t.holds c m = 0 := by simp [Task.holds, hwork]
    have hnone : tally (Task.holds c' m) new = 0 := tally_eq_zero fun t' ht' => by
      simp [Task.holds, hs.workItem t' ht']
    have hsame : tally (Task.holds c' m) rest = tally (Task.holds c m) rest :=
      tally_congr fun t' _ => Task.holds_congr fun j _ => by rw [hirps]
    rw [tally_cons, hzero] at hold
    rw [tally_append, hnone, hsame, hs.items, hs.fair]
    exact hold
  · rw [hs.items, hs.itemCount]
    exact h.itemCount
  · have hold := h.owed j
    have hnew := hs.owed j
    have hsumj : c'.readsOwe j + (c.reads r).owes j = c.readsOwe j + read.owes j := hsum (DiskRead.owes j)
    have hsame : tally (Task.owes c' j) rest = tally (Task.owes c j) rest := tally_congr fun t' ht' => (hrest t' ht').2 j
    rw [tally_cons] at hold
    rw [tally_append, hsame, hs.fair]
    omega
  · rw [hs.readCount] at hq
    rw [hother q (by omega)]
    exact h.readCount q hq
  · rcases List.mem_append.mp ht' with hn | ht'
    · exact hs.ok t' hn
    · exact (hrest t' ht').1
  · rw [hs.fair] at hj
    obtain ⟨ho, hadm, hit⟩ := h.lists j hj
    exact ⟨hopen j ho, by rw [hirps]; exact hadm, by rw [hirps]; exact hit⟩
  · by_cases he : q = r
    · subst he
      rw [hself, hs.irp]
      exact hopen _ (h.reading q hlive)
    · rw [hother q he] at hq ⊢
      exact hopen _ (h.reading q hq)
  · by_cases he : q = r
    · subst he
      rw [hself] at hq ⊢
      exact hs.used hq
    · rw [hother q he] at hq ⊢
      exact h.used q hq
  · rw [hirps] at hj
    exact (h.closed j hj).congr (by rw [hirps])
  · rw [hirps] at hx
    exact (h.answers j x hx).congr (hs.returned j)
  · rw [hs.count] at hj
    rw [hs.fair]
    exact h.blank j hj

theorem Sound.through {read : DiskRead} (h : Sound V c (t :: rest)) (ht : uses t = some r)
    (hs : Through V c c' t new rest r read) : Sound V c' (new ++ rest) :=
  ⟨h.flow.through ht hs, by rw [hs.fair, hs.count]; exact h.account⟩

/-! ### Parts and the last hold -/

/-- What the issue loop reads of a `DISK_CACHE_READ` is the same. -/
structure Steady (a b : DiskRead) : Prop where
  irp : b.irp = a.irp
  valid : b.valid = a.valid
  slots : b.slots = a.slots
  fetchCount : b.fetchCount = a.fetchCount
  live : b.live = a.live

theorem Steady.owns {a b : DiskRead} (h : Steady a b) (j : ℕ) : b.owns j = a.owns j := by
  simp only [DiskRead.owns, h.live, h.irp]

theorem Steady.owes {a b : DiskRead} (h : Steady a b) (j : ℕ) : b.owes j = a.owes j := by
  simp only [DiskRead.owes, h.live, h.irp, h.fetchCount]

/-- A user of a read that stays as it is can go on. -/
theorem Task.Ok.steady {read : DiskRead} (hok : t.Ok V c) (ht : uses t = some r) (hs : Steady (c.reads r) read)
    (ho : read.outstanding = (c.reads r).outstanding ∨ (c.reads r).outstanding ≠ 1) :
    t.Ok V (c.setRead r read) ∧ ∀ j, t.owes (c.setRead r read) j = t.owes c j := by
  have hself : (c.setRead r read).reads r = read := by simp [setRead]
  cases t with
  | issue k extra q issued =>
    obtain rfl : q = r := Option.some.inj ht
    obtain ⟨hopen, hadm, hi⟩ := hok
    refine ⟨⟨hopen.congr rfl (Or.inl rfl), hadm, ?_⟩, fun j => ?_⟩
    · refine ⟨by rw [hself, hs.live]; exact hi.live, by rw [hself, hs.irp]; exact hi.irp,
        by rw [hself, hs.valid]; exact hi.valid, by rw [hself, hs.slots]; exact hi.cut,
        by rw [hself, hs.slots, hs.fetchCount]; exact hi.fetches, fun h0 => ?_⟩
      have hone := hi.alone h0
      rw [hself]
      rcases ho with ho | ho
      · exact ho.trans hone
      · exact absurd hone ho
    · cases extra <;> simp only [Task.owes, hself, hs.fetchCount]
  | part q fetched length => exact ⟨trivial, fun _ => rfl⟩
  | settleRead q => exact ⟨trivial, fun _ => rfl⟩
  | _ => cases ht

theorem partDone_steady (c : Core) (ch : Choice) (r : ℕ) (fetched : Bool) (length : ℕ) :
    ∃ read, c.partDone ch r fetched length = c.setRead r read ∧ Steady (c.reads r) read ∧
      read.outstanding = (c.reads r).outstanding := by
  unfold partDone
  simp only
  split
  next =>
    split
    next => split <;> exact ⟨_, rfl, ⟨rfl, rfl, rfl, rfl, rfl⟩, rfl⟩
    next => exact ⟨_, rfl, ⟨rfl, rfl, rfl, rfl, rfl⟩, rfl⟩
  next => split <;> exact ⟨_, rfl, ⟨rfl, rfl, rfl, rfl, rfl⟩, rfl⟩

theorem part_step {fetched : Bool} {length : ℕ} (h : Sound V c (.part r fetched length :: rest)) :
    Sound V (c.step V ch (.part r fetched length)).1 ((c.step V ch (.part r fetched length)).2 ++ rest) := by
  obtain ⟨read, he, hs, hout⟩ := partDone_steady c ch r fetched length
  have hlive := h.flow.live_of_uses (r := r) rfl
  simp only [step, he]
  refine h.through (r := r) rfl ⟨rfl, rfl, rfl, rfl, rfl, rfl, rfl, fun _ => Or.inl rfl, hs.irp,
    fun _ => by rw [hout]; exact h.flow.used r hlive, fun j => ?_, fun _ => rfl, ?_, fun t' ht' q hq => ?_, fun _ => le_rfl, fun t' ht' => ?_, fun j => ?_, fun t' ht' => ?_, fun t' ht' hu => ?_⟩
  · rw [hs.owns]
    exact Nat.zero_add _
  · have hone : (Task.settleRead r).refs r = 1 := by simp [Task.refs, uses]
    rw [hs.live, hlive, tally_cons, tally_nil, hone, hout]
    simp
  · rw [List.mem_singleton.mp ht'] at hq
    exact (Option.some.inj hq).symm
  · rw [List.mem_singleton.mp ht']
    rfl
  · rw [hs.owes]
    rfl
  · rw [List.mem_singleton.mp ht']
    trivial
  · exact (h.flow.ok t' (List.mem_cons_of_mem _ ht')).steady hu hs (Or.inl hout)

/-- With one hold left, nobody else uses the read. -/
theorem Flow.unused (h : Flow V c (t :: rest)) (ht : uses t = some r) (hone : (c.reads r).outstanding = 1) :
    ∀ t' ∈ rest, uses t' ≠ some r := by
  intro t' ht' hu
  have hrefs := h.refs r
  have hle := @le_tally _ (Task.refs r) rest t' ht'
  have h1 : t.refs r = 1 := by simp [Task.refs, ht]
  have h2 : t'.refs r = 1 := by simp [Task.refs, hu]
  rw [if_pos (h.live_of_uses ht), tally_cons, h1, hone] at hrefs
  omega

theorem settleRead_step (h : Sound V c (.settleRead r :: rest)) :
    Sound V (c.step V ch (.settleRead r)).1 ((c.step V ch (.settleRead r)).2 ++ rest) := by
  have hlive := h.flow.live_of_uses (r := r) rfl
  simp only [step, Core.settleRead]
  split
  next hne =>
    have hs : Steady (c.reads r) { c.reads r with outstanding := (c.reads r).outstanding - 1 } := ⟨rfl, rfl, rfl, rfl, rfl⟩
    refine h.through (r := r) rfl ⟨rfl, rfl, rfl, rfl, rfl, rfl, rfl, fun _ => Or.inl rfl, rfl,
      fun _ => lt_of_le_of_ne (Int.sub_nonneg_of_le (h.flow.used r hlive)) (Ne.symm hne), fun j => ?_, fun _ => rfl,
      ?_, fun t' ht' => (by cases ht'), fun _ => le_rfl, fun t' ht' => (by cases ht'), fun j => ?_,
      fun t' ht' => (by cases ht'), fun t' ht' hu => ?_⟩
    · rw [hs.owns]
      exact Nat.zero_add _
    · rw [tally_nil, hlive, if_pos rfl]
      push_cast
      omega
    · rw [hs.owes]
      rfl
    · exact (h.flow.ok t' (List.mem_cons_of_mem _ ht')).steady hu hs (Or.inr fun hone => hne (by simp [hone]))
  next hz =>
    rw [not_not] at hz
    have hone : (c.reads r).outstanding = 1 := by omega
    refine h.through (r := r) rfl ⟨rfl, rfl, rfl, rfl, rfl, rfl, rfl, fun _ => Or.inl rfl, rfl,
      fun hl => (by cases hl), fun j => ?_, fun _ => rfl, ?_, fun t' ht' q hq => ?_, fun _ => le_rfl, fun t' ht' => ?_, fun j => ?_, fun t' ht' => ?_,
      fun t' ht' hu => absurd hu (h.flow.unused rfl hone t' ht')⟩
    · simp [Task.owns, Task.owner, DiskRead.owns, hlive]
    · simp [Task.refs, uses, hone]
    · rw [List.mem_singleton.mp ht'] at hq
      cases hq
    · rw [List.mem_singleton.mp ht']
      rfl
    · simp [Task.owes, DiskRead.owes, hlive]
    · rw [List.mem_singleton.mp ht']
      exact (h.flow.reading r hlive).congr rfl (Or.inl rfl)

/-! ### The issue loop -/

/-- Only one thread issues for a read, so its other users are parts and holds. -/
theorem Flow.not_issue (h : Flow V c (.issue k extra r issued :: rest)) :
    ∀ t' ∈ rest, uses t' = some r → t'.Ok V c' ∧ ∀ j, t'.owes c' j = t'.owes c j := by
  intro t' ht' hu
  cases t' with
  | issue k' extra' q issued' =>
    obtain rfl : q = r := Option.some.inj hu
    have hle := @le_tally _ (Task.issues q) rest _ ht'
    have hold := h.issuers q
    rw [tally_cons] at hold
    simp only [Task.issues, if_pos] at hle hold
    omega
  | part q fetched length => exact ⟨trivial, fun _ => rfl⟩
  | settleRead q => exact ⟨trivial, fun _ => rfl⟩
  | _ => cases hu

/-- The fetch a part may be is one of those allowed, and so are the runs after it. -/
theorem Issuing.fetches_part (h : Issuing V c k extra r issued) :
    (c.reads r).fetchCount +
      (if (partAt (V.request k.irp).offset (c.reads r).valid (c.reads r).slots issued).slot = none then 1 else 0) +
      gaps false ((c.reads r).slots.drop (blockAt (V.request k.irp).offset issued +
        runAt (c.reads r).slots (blockAt (V.request k.irp).offset issued))) ≤ allowedBy extra := by
  have hf := h.fetches
  rw [gaps_runAt h.cut.blockAt_lt] at hf
  rw [h.valid, h.cut.step.slot]
  omega

theorem extraFetches_le {fetches reserved : ℕ} (h : fetches ≤ 1 + reserved) : extraFetches fetches ≤ reserved := by
  unfold extraFetches
  split <;> omega

theorem extraFetches_eq_zero {fetches : ℕ} (h : fetches ≤ 1) : extraFetches fetches = 0 := if_neg (by omega)

/-- The issuer owes what it reserved and the read will not give back. -/
theorem Issuing.owes_add (h : Issuing V c k extra r issued) (j : ℕ) :
    (Task.issue k extra r issued).owes c j + (c.reads r).owes j = if k.irp = j then extra.getD 0 else 0 := by
  have hf := h.fetches
  have ho : (c.reads r).owes j = if k.irp = j then extraFetches (c.reads r).fetchCount else 0 := by
    simp [DiskRead.owes, h.live, h.irp]
  rw [ho]
  cases extra with
  | none =>
    have hzero := @extraFetches_eq_zero (c.reads r).fetchCount (by simp only [allowedBy] at hf; omega)
    simp [Task.owes, hzero]
  | some reserved =>
    have hle := @extraFetches_le (c.reads r).fetchCount reserved (by simp only [allowedBy] at hf; omega)
    simp only [Task.owes, Option.getD_some]
    split <;> omega

/-- The loop is over: the issuer drops its hold, and returns or gives the surplus back. -/
theorem Sound.issueDone {read : DiskRead} (parts : List Task) (h : Sound V c (.issue k extra r issued :: rest))
    (hi : Issuing V c k extra r issued) (hparts : ∀ t ∈ parts, ∃ fetched length, t = .part r fetched length)
    (hirp : read.irp = (c.reads r).irp) (hlive : read.live = true)
    (hout : read.outstanding = (c.reads r).outstanding + parts.length) (hf : read.fetchCount ≤ allowedBy extra) :
    Sound V ((c.setRead r read).issued k extra r).1 (parts ++ ((c.setRead r read).issued k extra r).2 ++ rest) := by
  have hread : ((c.setRead r read).reads r) = read := by simp [setRead]
  have hzero : ∀ g : Task → ℕ, (∀ fetched length, g (.part r fetched length) = 0) → tally g parts = 0 := fun g hg =>
    tally_eq_zero fun t ht => by
      obtain ⟨fetched, length, rfl⟩ := hparts t ht
      exact hg fetched length
  have hrefs : tally (Task.refs r) parts = parts.length := by
    have hone : tally (Task.refs r) parts = tally (fun _ => 1) parts := tally_congr fun t ht => by
      obtain ⟨fetched, length, rfl⟩ := hparts t ht
      simp [Task.refs, uses]
    rw [hone]
    simp [tally]
  have hsettle : (Task.settleRead r).refs r = 1 := by simp [Task.refs, uses]
  have hpos : 0 < read.outstanding := by
    have := h.flow.used r hi.live
    omega
  have hown : ∀ j, read.owns j = (c.reads r).owns j := fun j => by simp only [DiskRead.owns, hirp, hlive, hi.live]
  have howe := hi.owes_add
  have howe' : ∀ j, read.owes j = if k.irp = j then extraFetches read.fetchCount else 0 := fun j => by
    simp [DiskRead.owes, hlive, hirp, hi.irp]
  cases extra with
  | none =>
    have hkeep := @Flow.leave_keeps V c (c.setRead r read) rest _ h.flow k rfl rfl
    have hdisp := @Flow.leave_dispatches V c (c.setRead r read) rest _ h.flow k rfl rfl
    obtain ⟨hreads, hrc, hcount, hitems, hic, hmis⟩ := leave_reads (c.setRead r read) k
    have hnofetch := @extraFetches_eq_zero read.fetchCount (by simp only [allowedBy] at hf; omega)
    show Sound V ((c.setRead r read).leave k) (parts ++ [.settleRead r] ++ rest)
    refine h.through (r := r) rfl ⟨leave_toFair _ k, hrc, hreads, hcount, hitems, hic, hmis, hkeep, hirp, fun _ => hpos,
      fun j => ?_, fun j => ?_, ?_, fun t' ht' q hq => ?_, fun q => ?_, fun t' ht' => ?_, fun j => ?_, fun t' ht' => ?_, h.flow.not_issue⟩
    · rw [tally_append, hzero _ fun _ _ => rfl, hown]
      exact Nat.zero_add _
    · rw [tally_append, hzero _ fun _ _ => rfl]
      have hd := hdisp j
      show 0 + 0 + (if ((c.setRead r read).leave k).returned j = none then 0 else 1) = _
      omega
    · rw [tally_append, hrefs, tally_cons, tally_nil, hsettle, if_pos hlive, hout]
      push_cast
      omega
    · rcases List.mem_append.mp ht' with ht' | ht'
      · obtain ⟨fetched, length, rfl⟩ := hparts t' ht'
        exact (Option.some.inj hq).symm
      · rw [List.mem_singleton.mp ht'] at hq
        exact (Option.some.inj hq).symm
    · rw [tally_append, hzero _ fun _ _ => rfl]
      exact Nat.zero_le _
    · rcases List.mem_append.mp ht' with ht' | ht'
      · obtain ⟨fetched, length, rfl⟩ := hparts t' ht'
        rfl
      · rw [List.mem_singleton.mp ht']
        rfl
    · rw [tally_append, hzero _ fun _ _ => rfl, howe j, howe' j, hnofetch]
      simp [Task.owes]
    · rcases List.mem_append.mp ht' with ht' | ht'
      · obtain ⟨fetched, length, rfl⟩ := hparts t' ht'
        trivial
      · rw [List.mem_singleton.mp ht']
        trivial
  | some reserved =>
    have hle := @extraFetches_le read.fetchCount reserved (by simp only [allowedBy] at hf; omega)
    have hnew : (c.setRead r read).issued k (some reserved) r =
        (c.setRead r read, [.settleRead r, .surplus k reserved read.fetchCount]) := by
      simp only [Core.issued, hread]
    rw [hnew]
    refine h.through (r := r) rfl ⟨rfl, rfl, rfl, rfl, rfl, rfl, rfl, fun _ => Or.inl rfl, hirp, fun _ => hpos,
      fun j => ?_, fun j => ?_, ?_, fun t' ht' q hq => ?_, fun q => ?_, fun t' ht' => ?_, fun j => ?_, fun t' ht' => ?_, h.flow.not_issue⟩
    · rw [tally_append, hzero _ fun _ _ => rfl, hown]
      exact Nat.zero_add _
    · rw [tally_append, hzero _ fun _ _ => rfl]
      show 0 + (0 + ((Task.issue k (some reserved) r issued).dispatches j + 0)) + _ = _
      rw [Nat.zero_add, Nat.zero_add]
      rfl
    · rw [tally_append, hrefs, tally_cons, tally_cons, tally_nil, hsettle, if_pos hlive, hout]
      show ((parts.length + (1 + (0 + 0)) : ℕ) : ℤ) + _ = _
      push_cast
      omega
    · rcases List.mem_append.mp ht' with ht' | ht'
      · obtain ⟨fetched, length, rfl⟩ := hparts t' ht'
        exact (Option.some.inj hq).symm
      · rcases List.mem_cons.mp ht' with rfl | ht'
        · exact (Option.some.inj hq).symm
        · rw [List.mem_singleton.mp ht'] at hq
          cases hq
    · rw [tally_append, hzero _ fun _ _ => rfl]
      exact Nat.zero_le _
    · rcases List.mem_append.mp ht' with ht' | ht'
      · obtain ⟨fetched, length, rfl⟩ := hparts t' ht'
        rfl
      · rcases List.mem_cons.mp ht' with rfl | ht'
        · rfl
        · rw [List.mem_singleton.mp ht']
          rfl
    · rw [tally_append, hzero _ fun _ _ => rfl, tally_cons, tally_cons, tally_nil, howe j, howe' j]
      show 0 + (0 + ((if k.irp = j then reserved - extraFetches read.fetchCount else 0) + 0)) + _ =
        if k.irp = j then reserved else 0
      split <;> omega
    · rcases List.mem_append.mp ht' with ht' | ht'
      · obtain ⟨fetched, length, rfl⟩ := hparts t' ht'
        trivial
      · rcases List.mem_cons.mp ht' with rfl | ht'
        · trivial
        · rw [List.mem_singleton.mp ht']
          exact hle

/-- A part was issued that is not the last. -/
theorem Sound.issueNext {read : DiskRead} {fetched : Bool} {length next : ℕ} (h : Sound V c (.issue k extra r issued :: rest))
    (hi : Issuing V c k extra r issued)
    (hnext : Cut (V.request k.irp).offset (c.reads r).valid (c.reads r).slots next ∧ blockAt (V.request k.irp).offset next =
      blockAt (V.request k.irp).offset issued + runAt (c.reads r).slots (blockAt (V.request k.irp).offset issued))
    (hpos : next ≠ 0) (hirp : read.irp = (c.reads r).irp) (hvalid : read.valid = (c.reads r).valid)
    (hslots : read.slots = (c.reads r).slots) (hlive : read.live = true)
    (hout : read.outstanding = (c.reads r).outstanding + 1)
    (hf : read.fetchCount + gaps false ((c.reads r).slots.drop (blockAt (V.request k.irp).offset issued +
        runAt (c.reads r).slots (blockAt (V.request k.irp).offset issued))) ≤ allowedBy extra) :
    Sound V (c.setRead r read) ([.part r fetched length, .issue k extra r next] ++ rest) := by
  obtain ⟨ho, ha, -⟩ := h.flow.ok _ List.mem_cons_self
  have hself : (c.setRead r read).reads r = read := by simp [setRead]
  have hi' : Issuing V (c.setRead r read) k extra r next := by
    refine ⟨by rw [hself]; exact hlive, by rw [hself, hirp]; exact hi.irp, by rw [hself, hvalid]; exact hi.valid, ?_, ?_,
      fun h0 => absurd h0 hpos⟩
    · rw [hself, hslots, ← hi.valid]
      exact hnext.1
    · rw [hself, hslots, hnext.2]
      exact hf
  have howe := hi.owes_add
  have howe' := hi'.owes_add
  rw [hself] at howe'
  refine h.through (r := r) rfl ⟨rfl, rfl, rfl, rfl, rfl, rfl, rfl, fun _ => Or.inl rfl, hirp,
    fun _ => by rw [hout]; exact Int.lt_add_one_of_le (h.flow.used r hi.live).le, fun j => ?_, fun j => ?_,
    ?_, fun t' ht' q hq => ?_, fun q => ?_, fun t' ht' => ?_, fun j => ?_, fun t' ht' => ?_, h.flow.not_issue⟩
  · simp [Task.owns, Task.owner, DiskRead.owns, hirp, hlive, hi.live]
  · show 0 + ((Task.issue k extra r issued).dispatches j + 0) + _ = _
    rw [Nat.zero_add]
    rfl
  · rw [if_pos hlive, hout]
    simp [Task.refs, uses]
    omega
  · rcases List.mem_pair.mp ht' with rfl | rfl
    · exact (Option.some.inj hq).symm
    · exact (Option.some.inj hq).symm
  · simp [Task.issues]
  · rcases List.mem_pair.mp ht' with rfl | rfl <;> rfl
  · have h1 := howe j
    have h2 := howe' j
    show 0 + ((Task.issue k extra r next).owes (c.setRead r read) j + 0) + _ = _
    omega
  · rcases List.mem_pair.mp ht' with rfl | rfl
    · trivial
    · exact ⟨ho.congr rfl (Or.inl rfl), ha, hi'⟩

/-- The first part could not be issued: the read is freed, and its IRP is the issuer's
again. -/
theorem Sound.notTaken {read : DiskRead} (h : Sound V c (.issue k extra r 0 :: rest)) (hirp : read.irp = (c.reads r).irp)
    (hlive : read.live = false) : Sound V (c.setRead r read) (notTaken k extra :: rest) := by
  obtain ⟨ho, ha, hi⟩ := h.flow.ok _ List.mem_cons_self
  have hone := hi.alone rfl
  have howe := hi.owes_add
  have hzero : ∀ j, read.owns j = 0 ∧ read.owes j = 0 := fun j => by simp [DiskRead.owns, DiskRead.owes, hlive]
  have hown : ∀ j, (c.reads r).owns j = if k.irp = j then 1 else 0 := fun j => by simp [DiskRead.owns, hi.live, hi.irp]
  have hrest : ∀ t' ∈ rest, uses t' = some r → t'.Ok V (c.setRead r read) ∧ ∀ j, t'.owes (c.setRead r read) j = t'.owes c j :=
    fun t' ht' hu => absurd hu (h.flow.unused rfl hone t' ht')
  -- Whichever way it goes on, it has the IRP, owes what it reserved and nothing else.
  have hgo : ∀ t', t'.owner = some k.irp → t'.dispatching = (Task.fetch k).dispatching → uses t' = none →
      (∀ q, t'.issues q = 0) → t'.workItem (c.setRead r read) = none →
      (∀ j, t'.owes (c.setRead r read) j = if k.irp = j then extra.getD 0 else 0) → t'.Ok V (c.setRead r read) →
      Sound V (c.setRead r read) ([t'] ++ rest) := by
    intro t' hto htd htu hti htw hte htok
    refine h.through (r := r) rfl ⟨rfl, rfl, rfl, rfl, rfl, rfl, rfl, fun _ => Or.inl rfl, hirp,
      fun hl => absurd (hlive.symm.trans hl) Bool.false_ne_true, fun j => ?_, fun j => ?_, ?_, fun t₁ ht₁ q hq => ?_, fun q => ?_, fun t₁ ht₁ => ?_, fun j => ?_, fun t₁ ht₁ => ?_, hrest⟩
    · simp [Task.owns, hto, hown, hzero]
    · rw [tally_cons, tally_nil]
      simp only [Task.dispatches, htd]
      rfl
    · rw [tally_cons, tally_nil, hlive, hone]
      simp [Task.refs, htu]
    · rw [List.mem_singleton.mp ht₁, htu] at hq
      cases hq
    · rw [tally_cons, tally_nil, hti]
      exact Nat.zero_le _
    · rw [List.mem_singleton.mp ht₁]
      exact htw
    · rw [tally_cons, tally_nil, hte, (hzero j).2, howe]
      rfl
    · rw [List.mem_singleton.mp ht₁]
      exact htok
  cases extra with
  | none =>
    have hal := @notWhole_alike (c.setRead r read) (.fetch k) k 0 rfl rfl ⟨rfl, fun _ => rfl, rfl, fun _ => rfl⟩
    refine hgo _ hal.owner hal.dispatching hal.uses hal.issues hal.workItem (fun j => ?_) (notWhole_ok 0 ?_ ?_)
    · refine (hal.owes j).trans ?_
      simp [Task.owes]
    · exact ho.congr rfl (Or.inl rfl)
    · rw [Option.isSome_none, Bool.or_false] at ha
      exact ha
  | some reserved =>
    rw [Option.isSome_some, Bool.or_true] at ha
    exact hgo _ rfl rfl rfl (fun _ => rfl) rfl (fun _ => rfl) ⟨ho.congr rfl (Or.inl rfl), ha⟩

theorem issue_step (h : Sound V c (.issue k extra r issued :: rest)) :
    Sound V (c.step V ch (.issue k extra r issued)).1 ((c.step V ch (.issue k extra r issued)).2 ++ rest) := by
  obtain ⟨ho, ha, hi⟩ := h.flow.ok _ List.mem_cons_self
  have hfetches := hi.fetches_part
  have hcut := hi.cut.step
  rw [← hi.valid] at hcut
  simp only [step, issueStep]
  set part := partAt (V.request k.irp).offset (c.reads r).valid (c.reads r).slots issued
  set fetchCount := if part.slot = none ∧ ch.pool = true then (c.reads r).fetchCount + 1 else (c.reads r).fetchCount
    with hcount
  have hle : fetchCount ≤ (c.reads r).fetchCount + if part.slot = none then 1 else 0 := by
    rw [hcount]
    split
    next hp => rw [if_pos hp.1]
    next => exact Nat.le_add_right _ _
  split
  next =>
    split
    next =>
      exact h.issueDone [.part r (part.slot = none) part.length] hi
        (fun t ht => ⟨_, _, List.mem_singleton.mp ht⟩) rfl hi.live rfl (hle.trans (by omega))
    next hmore =>
      rw [not_or, Bool.not_eq_true, not_le] at hmore
      exact h.issueNext hi (hcut.next hmore.1 hmore.2) (by have := hcut.pos; omega) rfl rfl rfl hi.live rfl
        (by simp only; omega)
  next =>
    split
    next h0 =>
      subst h0
      exact h.notTaken rfl rfl
    next =>
      exact h.issueDone [] hi (fun t ht => (by cases ht)) rfl hi.live (by simp) (hle.trans (by omega))

/-! ### The surplus -/

/-- What the cache did not need of a reservation goes back, and the issuer leaves a
read that need not be its own any more. -/
theorem Flow.surplus {reserved fetches n : ℕ} (h : Flow V c (.surplus k reserved fetches :: rest))
    (hn : n = reserved - extraFetches fetches) : Flow V ((c.leave k).withFair ((c.leave k).toFair.restore k.irp n)) rest := by
  have hkeep := @Flow.leave_keeps V c c rest _ h k rfl rfl
  have hdisp := @Flow.leave_dispatches V c c rest _ h k rfl rfl
  obtain ⟨hreads, hrc, hcount, hitems, hic, hmis⟩ := leave_reads c k
  rw [leave_toFair]
  set c' := (c.leave k).withFair (c.toFair.restore k.irp n)
  have hreads : c'.reads = c.reads := hreads
  have hrc : c'.readCount = c.readCount := hrc
  have hcount : c'.count = c.count := hcount
  have hitems : c'.items = c.items := hitems
  have hown : ∀ j, c'.readsOwn j = c.readsOwn j ∧ c'.readsOwe j = c.readsOwe j := fun j => by
    simp only [Core.readsOwn, Core.readsOwe, hrc, hreads, and_self]
  refine ⟨fun j => ?_, fun j => ?_, fun q => ?_, fun q => ?_, fun m => ?_, ?_, fun j => ?_, ?_, fun t ht => ?_,
    fun j hj => ?_, fun q hq => ?_, fun q hq => ?_, fun j hj => (h.closed j hj).congr rfl, fun j x hx => (h.answers j x hx).congr (hkeep j),
    ?_, hmis.trans h.misuse⟩
  · have hold := h.owners j
    have hzero : (Task.surplus k reserved fetches).owns j = 0 := rfl
    rw [tally_cons, hzero, Nat.zero_add] at hold
    rw [(hown j).1, hcount]
    exact hold
  · have hold := h.dispatchers j
    have hd := hdisp j
    rw [tally_cons] at hold
    rw [hcount]
    show tally (Task.dispatches j) rest + (if (c.leave k).returned j = none then 0 else 1) = _
    omega
  · have hold := h.refs q
    have hzero : (Task.surplus k reserved fetches).refs q = 0 := rfl
    rw [tally_cons, hzero, Nat.zero_add] at hold
    rw [hreads]
    exact hold
  · have hold := h.issuers q
    rw [tally_cons] at hold
    omega
  · have hold := h.items m
    have hzero : (Task.surplus k reserved fetches).holds c m = 0 := rfl
    have hsame : tally (Task.holds c' m) rest = tally (Task.holds c m) rest :=
      tally_congr fun t _ => Task.holds_congr fun _ _ => rfl
    rw [tally_cons, hzero, Nat.zero_add] at hold
    rw [hsame, hitems]
    exact hold
  · rw [hitems]
    show ∀ n ∈ c.items, n < (c.leave k).itemCount
    rw [hic]
    exact h.itemCount
  · have hold := h.owed j
    have hsame : tally (Task.owes c' j) rest = tally (Task.owes c j) rest :=
      tally_congr fun t _ => Task.owes_congr fun _ _ => by rw [hreads]
    rw [tally_cons] at hold
    rw [hsame, (hown j).2]
    by_cases hj : k.irp = j
    · subst hj
      simp only [Task.owes, if_pos] at hold
      show c.reserved k.irp = Function.update c.givenBack k.irp (c.givenBack k.irp + n) k.irp + _ + _
      rw [Function.update_self]
      omega
    · simp only [Task.owes, if_neg hj, Nat.zero_add] at hold
      show c.reserved j = Function.update c.givenBack k.irp (c.givenBack k.irp + n) j + _ + _
      rw [Function.update_of_ne (Ne.symm hj)]
      exact hold
  · rw [hreads, hrc]
    exact h.readCount
  · exact (h.ok t (List.mem_cons_of_mem _ ht)).congr (fun j _ => ⟨rfl, hkeep j⟩) fun _ _ => by rw [hreads]
  · obtain ⟨ho, hadm, hit⟩ := h.lists j hj
    exact ⟨ho.congr rfl (hkeep j), hadm, hit⟩
  · rw [hreads] at hq ⊢
    exact (h.reading q hq).congr rfl (hkeep _)
  · rw [hreads] at hq ⊢
    exact h.used q hq
  · rw [hcount]
    exact h.blank

theorem surplus_step {reserved fetches : ℕ} (h : Sound V c (.surplus k reserved fetches :: rest)) :
    Sound V (c.step V ch (.surplus k reserved fetches)).1 ((c.step V ch (.surplus k reserved fetches)).2 ++ rest) := by
  have hle : extraFetches fetches ≤ reserved := h.flow.ok _ List.mem_cons_self
  obtain ⟨-, -, hcount, -, -, -⟩ := leave_reads c k
  have howed := h.flow.owed k.irp
  rw [tally_cons] at howed
  simp only [Task.owes, if_pos] at howed
  have hi : reserved - extraFetches fetches ≠ 0 → k.irp < (c.leave k).count := by
    intro hne
    rw [hcount]
    by_contra hge
    have hz := (h.flow.blank k.irp (by omega)).2.2.2
    omega
  have hfair : (c.leave k).toFair = c.toFair := leave_toFair c k
  have hs := Sound.giveBack (by rw [hfair, hcount]; exact h.account) hi (by rw [hfair]; omega) (h.flow.surplus rfl)
  rw [hfair] at hs
  simp only [step, withReleased, wrapSub_of_le hle, List.nil_append]
  have hcomm : ∀ f : Fair, (c.withFair f).leave k = (c.leave k).withFair f := fun f => by
    unfold Core.leave
    cases k.caller <;> rfl
  rw [hcomm]
  exact hs

end BlorgFS.Read

import BlorgFS.Read.Accounting

/-! Where the work items are, over every run: each in a thread's local or in one IRP's
`DriverContext[2]`, and none in two places. -/

namespace BlorgFS.Read

open Lib DiskCache Core

variable {V : Setup} {c c' : Core} {t : Task} {tasks rest new : List Task} {i n r : ℕ} {k : Issue} {ch : Choice}
  {s s' : State} {act : Act}

/-! ### Work items -/

/-- The work item a thread has in a local. -/
def Task.loose : Task → Option ℕ
  | .admitAgain _ n | .freeItem _ n => some n
  | _ => none

/-- A work item is in one place: a thread's local or one IRP's `DriverContext[2]`. -/
structure Marks (c : Core) (tasks : List Task) : Prop where
  nodup : c.items.Nodup
  lt : ∀ i n, (c.irps i).context2 = .item n → n < c.itemCount
  unique : ∀ i j n, (c.irps i).context2 = .item n → (c.irps j).context2 = .item n → i = j
  loose : ∀ t ∈ tasks, ∀ n, t.loose = some n → n < c.itemCount ∧ ∀ i, (c.irps i).context2 ≠ .item n

theorem Marks.perm {tasks' : List Task} (h : Marks c tasks) (hp : tasks.Perm tasks') : Marks c tasks' :=
  ⟨h.nodup, h.lt, h.unique, fun t ht => h.loose t (hp.mem_iff.mpr ht)⟩

/-- A step that puts no work item anywhere. -/
theorem Marks.frame (h : Marks c (t :: rest)) (hc : ∀ i n, (c'.irps i).context2 = .item n → (c.irps i).context2 = .item n)
    (hn : c'.itemCount = c.itemCount) (hi : c'.items.Nodup) (hnew : ∀ t' ∈ new, ∀ n, t'.loose = some n → t.loose = some n) :
    Marks c' (new ++ rest) := by
  refine ⟨hi, fun i n he => ?_, fun i j n hei hej => h.unique i j n (hc i n hei) (hc j n hej), fun t' ht' n hl => ?_⟩
  · rw [hn]
    exact h.lt i n (hc i n he)
  · obtain ⟨hlt, hne⟩ : n < c.itemCount ∧ ∀ i, (c.irps i).context2 ≠ .item n := by
      rcases List.mem_append.mp ht' with ht' | ht'
      · exact h.loose t List.mem_cons_self n (hnew t' ht' n hl)
      · exact h.loose t' (List.mem_cons_of_mem _ ht') n hl
    exact ⟨by rw [hn]; exact hlt, fun i he => hne i (hc i n he)⟩

/-! ### Sections leave DriverContext[2] alone -/

theorem loose_issueHeld {released : List ℕ} {t' : Task} (h : t' ∈ released.map Task.issueHeld) : t'.loose = none := by
  obtain ⟨j, -, rfl⟩ := List.mem_map.mp h
  rfl

theorem loose_notWhole (k : Issue) (runs : ℕ) : (notWhole k runs).loose = none := by
  unfold notWhole
  cases k.caller <;> simp only
  · rfl
  · split <;> rfl

/-- The core's data that does not change while a `DISK_CACHE_READ` is issued. -/
def SameItems (c c' : Core) : Prop := c'.toFair = c.toFair ∧ c'.itemCount = c.itemCount ∧ c'.items = c.items

theorem leave_sameItems (c : Core) (k : Issue) : SameItems c (c.leave k) := by
  obtain ⟨-, -, -, hitems, hic, -⟩ := leave_reads c k
  exact ⟨leave_toFair c k, hic, hitems⟩

/-- A step that touches neither `DriverContext[2]` nor the work items. -/
theorem Marks.same (h : Marks c (t :: rest)) (hs : SameItems c c') (hnew : ∀ t' ∈ new, t'.loose = none) :
    Marks c' (new ++ rest) := by
  obtain ⟨hfair, hic, hitems⟩ := hs
  refine h.frame (fun i n he => by rwa [hfair] at he) hic (by rw [hitems]; exact h.nodup) fun t' ht' n hl => ?_
  rw [hnew t' ht'] at hl
  cases hl

/-- A section of the fair share ran, and reads it released are queued. -/
theorem Marks.released {result : Fair × List ℕ} (h : Marks c (t :: rest))
    (hc : ∀ j, (result.1.irps j).context2 = (c.irps j).context2) (hirps : c'.irps = result.1.irps)
    (hic : c'.itemCount = c.itemCount) (hitems : c'.items = c.items)
    (hnew : ∀ t' ∈ new, t'.loose = none ∨ t' ∈ result.2.map Task.issueHeld) : Marks c' (new ++ rest) := by
  refine h.frame (fun i n he => ?_) hic (by rw [hitems]; exact h.nodup) fun t' ht' n hl => ?_
  · rw [hirps, hc] at he
    exact he
  · rcases hnew t' ht' with hno | hm
    · rw [hno] at hl
      cases hl
    · rw [loose_issueHeld hm] at hl
      cases hl

theorem issueStep_same {extra : Option ℕ} {issued : ℕ} (c : Core) :
    SameItems c (c.issueStep V ch k extra r issued).1 ∧ ∀ t' ∈ (c.issueStep V ch k extra r issued).2, t'.loose = none := by
  have hissued : ∀ read : DiskRead, SameItems c ((c.setRead r read).issued k extra r).1 ∧
      ∀ t' ∈ ((c.setRead r read).issued k extra r).2, t'.loose = none := by
    intro read
    cases extra with
    | none => exact ⟨leave_sameItems (c.setRead r read) k, fun t' ht' => by rw [List.mem_singleton.mp ht']; rfl⟩
    | some reserved =>
      refine ⟨⟨rfl, rfl, rfl⟩, fun t' ht' => ?_⟩
      rcases List.mem_pair.mp ht' with rfl | rfl <;> rfl
  unfold issueStep
  simp only
  split
  next =>
    split
    next =>
      obtain ⟨hs, hl⟩ := hissued { c.reads r with
        fetchCount := if (partAt (V.request k.irp).offset (c.reads r).valid (c.reads r).slots issued).slot = none ∧
          ch.pool = true then (c.reads r).fetchCount + 1 else (c.reads r).fetchCount
        outstanding := (c.reads r).outstanding + 1
        span := (c.reads r).span + (partAt (V.request k.irp).offset (c.reads r).valid (c.reads r).slots issued).length }
      refine ⟨hs, fun t' ht' => ?_⟩
      rcases List.mem_cons.mp ht' with rfl | ht'
      · rfl
      · exact hl t' ht'
    next =>
      refine ⟨⟨rfl, rfl, rfl⟩, fun t' ht' => ?_⟩
      rcases List.mem_pair.mp ht' with rfl | rfl <;> rfl
  next =>
    split
    next =>
      refine ⟨⟨rfl, rfl, rfl⟩, fun t' ht' => ?_⟩
      rw [List.mem_singleton.mp ht']
      cases extra with
      | none => exact loose_notWhole k 0
      | some reserved => rfl
    next => exact hissued _

end BlorgFS.Read

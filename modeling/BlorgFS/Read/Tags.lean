import BlorgFS.Lib.StartTimeFair
import BlorgFS.Read.Guards
import Mathlib.Order.Lattice.Nat

/-! The tags of `ReadFair` are those of start-time fair queueing, as long as no finish tag wraps,
and none does before the reads that came ask for `2 ^ 64` bytes together. -/

namespace BlorgFS.Read

open Lib Core Finset

variable {V : Setup} {f f' : Fair} {i n node : ℕ} {s s' : State}

/-! ### Flows -/

/-- The flow of a read: its file's node. -/
def Setup.flow (V : Setup) (i : ℕ) : ℕ := (V.request i).node

/-- The bytes a read is charged for, `Parameters.Read.Length`. -/
def Setup.bytes (V : Setup) (i : ℕ) : ℕ := (V.request i).length

/-- The bytes the first `n` reads ask for. -/
def Setup.asked (V : Setup) (n : ℕ) : ℕ := ∑ i ∈ range n, V.bytes i

/-- The longest of a file's first `n` reads. -/
def Setup.largest (V : Setup) (n node : ℕ) : ℕ := ({i ∈ range n | V.flow i = node} : Finset ℕ).sup V.bytes

theorem Setup.bytes_pos (V : Setup) (i : ℕ) : 0 < V.bytes i := (V.request i).length_pos

theorem Setup.bytes_le_largest (hi : i < n) : V.bytes i ≤ V.largest n (V.flow i) :=
  le_sup (f := V.bytes) (mem_filter.mpr ⟨mem_range.mpr hi, rfl⟩)

theorem Setup.largest_mono {m : ℕ} (h : n ≤ m) (node : ℕ) : V.largest n node ≤ V.largest m node :=
  sup_mono (filter_subset_filter _ (range_subset_range.mpr h))

theorem Setup.asked_mono {m : ℕ} (h : n ≤ m) : V.asked n ≤ V.asked m := sum_le_sum_of_subset (range_subset_range.mpr h)

/-- The virtual time, the reads on the two lists, and the tags. -/
def Fair.tags (f : Fair) : Tags ℕ ℕ where
  now := f.virtualTime
  pending := {i | i ∈ f.held ∨ i ∈ f.waiting}
  start := f.heldTag
  finish node := (f.nodes node).readFinishTag

theorem Fair.tags_quiet (h : f.Quiet f') : f'.tags = f.tags := by
  unfold Fair.tags
  congr 1
  · exact h.virtualTime
  · rw [h.held, h.waiting]
  · funext i
    exact h.tag i
  · funext node
    exact h.finish node

/-- A read that is charged moves its file's finish tag. -/
theorem Fair.finish_tag (hwrap : f.startTag V i + V.bytes i < 2 ^ 64) :
    (fun node => ((f.tag V i).nodes node).readFinishTag) =
      Function.update (fun node => (f.nodes node).readFinishTag) (V.flow i) (f.startTag V i + V.bytes i) := by
  funext node
  by_cases hn : node = V.flow i
  · subst hn
    rw [Function.update_self]
    exact (congrArg Node.readFinishTag (Function.update_self _ _ _)).trans (Nat.mod_eq_of_lt hwrap)
  · rw [Function.update_of_ne hn]
    exact congrArg Node.readFinishTag (Function.update_of_ne hn _ _)

theorem Fair.heldTag_admitNow (f : Fair) (i : ℕ) : (f.admitNow V i).heldTag = f.heldTag := by
  funext j
  by_cases hj : j = i <;> simp [Fair.admitNow, Fair.charge, Fair.tag, Fair.heldTag, hj]

theorem Fair.heldTag_hold (f : Fair) (i : ℕ) (mayHold : Bool) (item : ℕ) :
    (f.hold V i mayHold item).heldTag = Function.update f.heldTag i (f.startTag V i) := by
  funext j
  by_cases hj : j = i
  · subst hj
    rw [Function.update_self]
    cases mayHold <;> simp [Fair.hold, Fair.setIrp, Fair.heldTag]
  · rw [Function.update_of_ne hj]
    cases mayHold <;> simp [Fair.hold, Fair.setIrp, Fair.tag, Fair.heldTag, hj]

theorem Fair.tags_admitNow (hwrap : f.startTag V i + V.bytes i < 2 ^ 64) : (f.admitNow V i).tags = f.tags.pass V.flow V.bytes i := by
  unfold Fair.tags Tags.pass
  congr 1
  · exact f.heldTag_admitNow i
  · exact (funext fun node => (Fair.quiet_charge V (f.tag V i) i).finish node).trans (Fair.finish_tag hwrap)

theorem Fair.tags_hold (mayHold : Bool) (item : ℕ) (hwrap : f.startTag V i + V.bytes i < 2 ^ 64) :
    (f.hold V i mayHold item).tags = f.tags.join V.flow V.bytes i := by
  unfold Fair.tags Tags.join
  congr 1
  · cases mayHold <;> rfl
  · apply Set.ext
    intro j
    cases mayHold <;> simp [Fair.hold, Fair.setIrp, Fair.tag] <;> tauto
  · exact f.heldTag_hold i mayHold item
  · refine Eq.trans ?_ (Fair.finish_tag hwrap)
    cases mayHold <;> rfl

theorem Fair.tags_release (hnodup : (f.held ++ f.waiting).Nodup) : (f.release V i (f.heldTag i)).tags = f.tags.serve i := by
  obtain ⟨hheld, hwaiting, -⟩ := List.nodup_append.mp hnodup
  have hq := Traffic.release_quiet (V := V) f i (f.heldTag i)
  rw [Fair.tags_quiet hq]
  unfold Fair.tags Tags.serve
  congr 1
  apply Set.ext
  intro j
  simp only [Set.mem_ofPred_eq, Set.mem_sdiff, Set.mem_singleton_iff, hheld.mem_erase_iff, hwaiting.mem_erase_iff]
  tauto

/-! ### No tag wraps -/

/-- The reads that were charged to their files. -/
def Fair.Charged (f : Fair) (i : ℕ) : Prop := (f.irps i).admissions ≠ 0 ∨ i ∈ f.held ∨ i ∈ f.waiting

instance (f : Fair) : DecidablePred f.Charged := fun _ => inferInstanceAs (Decidable (_ ∨ _))

/-- The bytes charged of the first `n` reads. -/
def Fair.spent (V : Setup) (f : Fair) (n : ℕ) : ℕ := ∑ i ∈ range n with f.Charged i, V.bytes i

theorem Fair.spent_congr (h : ∀ j, f'.Charged j ↔ f.Charged j) : f'.spent V n = f.spent V n := by
  unfold Fair.spent
  congr 1
  ext j
  rw [mem_filter, mem_filter, h]

theorem Fair.spent_charge (hi : i < n) (hf : ¬ f.Charged i) (h : ∀ j, f'.Charged j ↔ j = i ∨ f.Charged j) :
    f'.spent V n = f.spent V n + V.bytes i := by
  unfold Fair.spent
  have hinsert : ({j ∈ range n | f'.Charged j} : Finset ℕ) = insert i {j ∈ range n | f.Charged j} := by
    ext j
    rw [mem_filter, mem_insert, mem_filter, h]
    constructor
    · rintro ⟨hj, rfl | hc⟩
      · exact Or.inl rfl
      · exact Or.inr ⟨hj, hc⟩
    · rintro (rfl | ⟨hj, hc⟩)
      · exact ⟨mem_range.mpr hi, Or.inl rfl⟩
      · exact ⟨hj, Or.inr hc⟩
  rw [hinsert, sum_insert (by simp [hf]), Nat.add_comm]

theorem Fresh.not_charged (h : Fresh f n i) : ¬ f.Charged i := by
  rintro (ha | hh | hw)
  · exact ha h.admissions
  · exact h.held hh
  · exact h.waiting hw

theorem Fresh.spent_add (h : Fresh f n i) : f.spent V n + V.bytes i ≤ V.asked n := by
  unfold Fair.spent Setup.asked
  rw [← sum_insert (s := {j ∈ range n | f.Charged j}) (f := V.bytes) (a := i) (by simp [h.not_charged]) |>.trans (Nat.add_comm _ _)]
  refine sum_le_sum_of_subset fun j hj => ?_
  rcases mem_insert.mp hj with rfl | hj
  · exact mem_range.mpr h.lt
  · exact (mem_filter.mp hj).1

/-- No tag is past the bytes that were charged. -/
structure Fair.Within (f : Fair) (bound : ℕ) : Prop where
  now : f.virtualTime ≤ bound
  finish : ∀ node, (f.nodes node).readFinishTag ≤ bound
  start : ∀ j, j ∈ f.held ∨ j ∈ f.waiting → f.heldTag j ≤ bound

theorem Fair.Within.startTag_le {bound : ℕ} (h : f.Within bound) (i : ℕ) : f.startTag V i ≤ bound := max_le (h.finish _) h.now

theorem Fair.finish_tag_le (f : Fair) (i node : ℕ) :
    ((f.tag V i).nodes node).readFinishTag ≤ max (f.nodes node).readFinishTag (f.startTag V i + V.bytes i) := by
  by_cases hn : node = (V.request i).node
  · subst hn
    exact (congrArg Node.readFinishTag (Function.update_self _ _ _)).trans_le ((Nat.mod_le _ _).trans (Nat.le_max_right _ _))
  · exact (congrArg Node.readFinishTag (Function.update_of_ne hn _ _)).trans_le (Nat.le_max_left _ _)

theorem charged_admitNow (f : Fair) (i j : ℕ) : (f.admitNow V i).Charged j ↔ j = i ∨ f.Charged j := by
  by_cases hj : j = i <;> simp [Fair.Charged, Fair.admitNow, Fair.charge, Fair.tag, hj]

theorem charged_hold (f : Fair) (mayHold : Bool) (item i j : ℕ) : (f.hold V i mayHold item).Charged j ↔ j = i ∨ f.Charged j := by
  by_cases hj : j = i
  · cases mayHold <;> simp [Fair.Charged, Fair.hold, Fair.setIrp, Fair.tag, hj]
  · cases mayHold <;> simp [Fair.Charged, Fair.hold, Fair.setIrp, Fair.tag, hj]

theorem charged_release (h : Queued f n) {start : ℕ} (hn : f.next V = some (i, start)) (j : ℕ) :
    (f.release V i start).Charged j ↔ f.Charged j := by
  obtain ⟨hheld, hwaiting, -⟩ := List.nodup_append.mp h.nodup
  by_cases hj : j = i
  · subst hj
    have hmem := Fair.next_mem hn
    simp [Fair.Charged, Fair.release, Fair.charge, hmem]
  · simp [Fair.Charged, Fair.release, Fair.charge, hj, hheld.mem_erase_iff, hwaiting.mem_erase_iff]

theorem idles_charged (h : f.Idles f') (j : ℕ) : f'.Charged j ↔ f.Charged j := by
  unfold Fair.Charged
  rw [h.admissions, h.held, h.waiting]

/-- A release takes the start tag the read was held with. -/
theorem next_start {start : ℕ} (h : f.next V = some (i, start)) : start = f.heldTag i := by
  rcases Fair.next_cases V f with hnone | ⟨j, hj, -⟩
  · rw [hnone] at h
    cases h
  · obtain ⟨rfl, rfl⟩ := Prod.mk.inj (Option.some.inj (hj.symm.trans h))
    rfl

/-- Tags within what was charged, and chained if that cannot wrap. -/
structure Tagged (V : Setup) (n : ℕ) (f : Fair) : Prop where
  within : f.Within (f.spent V n)
  chained : V.asked n < 2 ^ 64 → f.tags.Chained V.flow V.bytes (V.largest n)

theorem Tagged.no_wrap (h : Tagged V n f) (hi : Fresh f n i) (hn : V.asked n < 2 ^ 64) : f.startTag V i + V.bytes i < 2 ^ 64 := by
  have h1 := h.within.startTag_le (V := V) i
  have h2 := hi.spent_add (V := V)
  omega

theorem Tagged.idle (h : Tagged V n f) (hf : f.Idles f') : Tagged V n f' := by
  have hspent : f'.spent V n = f.spent V n := Fair.spent_congr (idles_charged hf)
  refine ⟨⟨?_, fun node => ?_, fun j hj => ?_⟩, fun hn => ?_⟩
  · rw [hspent, hf.virtualTime]
    exact h.within.now
  · rw [hspent, hf.finish]
    exact h.within.finish node
  · rw [hspent, hf.tag]
    rw [hf.held, hf.waiting] at hj
    exact h.within.start j hj
  · rw [Fair.tags_quiet hf.toQuiet]
    exact h.chained hn

theorem Tagged.allow (h : Tagged V n f) (hi : Fresh f n i) : Tagged V n (f.admitNow V i) := by
  have hspent : (f.admitNow V i).spent V n = f.spent V n + V.bytes i := Fair.spent_charge hi.lt hi.not_charged (charged_admitNow f i)
  have hstart := h.within.startTag_le (V := V) i
  refine ⟨⟨?_, fun node => ?_, fun j hj => ?_⟩, fun hn => ?_⟩
  · rw [hspent]
    exact hstart.trans (Nat.le_add_right _ _)
  · rw [hspent]
    refine ((Fair.quiet_charge V (f.tag V i) i).finish node).trans_le ((f.finish_tag_le i node).trans (max_le ?_ ?_))
    · exact (h.within.finish node).trans (Nat.le_add_right _ _)
    · exact Nat.add_le_add_right hstart _
  · rw [hspent, Fair.heldTag_admitNow]
    exact (h.within.start j hj).trans (Nat.le_add_right _ _)
  · rw [Fair.tags_admitNow (h.no_wrap hi hn)]
    exact (h.chained hn).pass V.bytes_pos (Setup.bytes_le_largest hi.lt)

theorem Tagged.hold (h : Tagged V n f) (hi : Fresh f n i) (mayHold : Bool) (item : ℕ) : Tagged V n (f.hold V i mayHold item) := by
  have hspent : (f.hold V i mayHold item).spent V n = f.spent V n + V.bytes i :=
    Fair.spent_charge hi.lt hi.not_charged (charged_hold f mayHold item i)
  have hstart := h.within.startTag_le (V := V) i
  refine ⟨⟨?_, fun node => ?_, fun j hj => ?_⟩, fun hn => ?_⟩
  · rw [hspent]
    refine Nat.le_trans ?_ (Nat.le_add_right _ _)
    cases mayHold <;> exact h.within.now
  · rw [hspent]
    have hle := (f.finish_tag_le (V := V) i node).trans (max_le ((h.within.finish node).trans (Nat.le_add_right _ _))
      (Nat.add_le_add_right hstart (V.bytes i)))
    cases mayHold <;> exact hle
  · rw [hspent, Fair.heldTag_hold]
    by_cases hji : j = i
    · rw [hji, Function.update_self]
      exact hstart.trans (Nat.le_add_right _ _)
    · rw [Function.update_of_ne hji]
      refine (h.within.start j ?_).trans (Nat.le_add_right _ _)
      cases mayHold <;> simpa [Fair.hold, Fair.setIrp, Fair.tag, hji] using hj
  · rw [Fair.tags_hold mayHold item (h.no_wrap hi hn)]
    refine (h.chained hn).join ?_
    rintro (hh | hw)
    · exact hi.held hh
    · exact hi.waiting hw

theorem Tagged.release {start : ℕ} (h : Tagged V n f) (hq : Queued f n) (hn : f.next V = some (i, start)) :
    Tagged V n (f.release V i start) := by
  obtain rfl := next_start hn
  have hmem := Fair.next_mem hn
  have hspent : (f.release V i (f.heldTag i)).spent V n = f.spent V n := Fair.spent_congr (charged_release hq hn)
  have hquiet := Traffic.release_quiet (V := V) f i (f.heldTag i)
  refine ⟨⟨?_, fun node => ?_, fun j hj => ?_⟩, fun hn => ?_⟩
  · rw [hspent]
    exact max_le h.within.now (h.within.start i hmem)
  · rw [hspent, hquiet.finish]
    exact h.within.finish node
  · rw [hspent, hquiet.tag]
    exact h.within.start j (hj.imp List.mem_of_mem_erase List.mem_of_mem_erase)
  · rw [Fair.tags_release hq.nodup]
    exact (h.chained hn).serve V.bytes_pos hmem (Setup.bytes_le_largest (hq.lt i hmem).1)

/-- Another read comes. -/
theorem Tagged.more (h : Tagged V n f) (hnew : ¬ f.Charged n) : Tagged V (n + 1) f := by
  have hspent : f.spent V (n + 1) = f.spent V n := by
    unfold Fair.spent
    rw [range_add_one, filter_insert, if_neg hnew]
  refine ⟨hspent ▸ h.within, fun hn => ?_⟩
  exact (h.chained ((Setup.asked_mono (Nat.le_succ n)).trans_lt hn)).mono (Setup.largest_mono (Nat.le_succ n))

theorem Tagged.kept (V : Setup) (g : Guard) (n : ℕ) : Kept V g n (Tagged V n) (Tagged V n) where
  idle _ _ hf h := h.idle hf
  allow _ _ hi _ h := h.allow hi
  hold _ _ mayHold item hi _ h := h.hold hi mayHold item
  release _ _ _ hq hn _ h := h.release hq hn

theorem Flow.blank_not_charged {c : Core} {tasks : List Task} (h : Flow V c tasks) : ¬ c.toFair.Charged c.count := by
  obtain ⟨-, hheld, hwaiting, -⟩ := h.unborn le_rfl
  rintro (ha | hh | hw)
  · exact ha (h.blank c.count le_rfl).2.1
  · exact List.count_eq_zero.mp hheld hh
  · exact List.count_eq_zero.mp hwaiting hw

theorem reachable_tagged (h : (system V).Reachable s) : Tagged V s.core.count s.core.toFair := by
  refine Kept.reachable (Tagged.kept V .any) ?_ (fun s hr ht => ?_) (guardedSystem_any h)
  · refine ⟨⟨Nat.zero_le _, fun _ => Nat.zero_le _, fun j hj => by rcases hj with hj | hj <;> cases hj⟩, fun _ => ⟨?_, ?_, ?_, ?_, fun _ => Or.inl (Nat.zero_le _)⟩⟩
    all_goals
      intro j hj
      rcases hj with hj | hj <;> cases hj
  · exact ht.more (reachable_sound (guardedSystem_reachable hr)).flow.blank_not_charged

end BlorgFS.Read

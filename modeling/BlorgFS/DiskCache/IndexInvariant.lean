import BlorgFS.DiskCache.Index
import Mathlib.Data.List.Perm.Subperm

/-! The representation invariant of the disk cache's index. The chains are
stated once for an arbitrary set of slots (`Chains`), so that taking a slot out
of its chain and putting it into another are each one lemma about sets, and the
invariant of the index is the case of the slots that are filling or valid. -/

namespace BlorgFS.DiskCache.Index

open Lib

variable {idx idx' : Index} {P : ℕ → Prop}

/-! ### Small facts about updates -/

@[simp] theorem modify_slots_self (slot : ℕ) (f : Slot → Slot) :
    (idx.modify slot f).slots slot = f (idx.slots slot) := by simp [modify]

theorem modify_slots_of_ne {slot other : ℕ} (f : Slot → Slot) (h : other ≠ slot) :
    (idx.modify slot f).slots other = idx.slots other := by simp [modify, h]

@[simp] theorem modify_heads (slot : ℕ) (f : Slot → Slot) :
    (idx.modify slot f).heads = idx.heads := rfl

@[simp] theorem modify_slotCount (slot : ℕ) (f : Slot → Slot) :
    (idx.modify slot f).slotCount = idx.slotCount := rfl

@[simp] theorem modify_hashMask (slot : ℕ) (f : Slot → Slot) :
    (idx.modify slot f).hashMask = idx.hashMask := rfl

@[simp] theorem modify_hand (slot : ℕ) (f : Slot → Slot) :
    (idx.modify slot f).hand = idx.hand := rfl

theorem next_modify (slot : ℕ) (target : Option ℕ) :
    (idx.modify slot fun entry => { entry with next := target }).next =
      Function.update idx.next slot target := by
  funext other
  by_cases h : other = slot
  · subst h; simp [next]
  · simp [next, modify_slots_of_ne _ h, h]

theorem chainOf_le (idx : Index) (m : ℕ) : idx.chainOf m ≤ idx.hashMask := Nat.and_le_right

theorem chainOf_congr (h : idx'.hashMask = idx.hashMask) (m : ℕ) :
    idx'.chainOf m = idx.chainOf m := by simp [chainOf, h]

/-! ### Chains -/

/-- Every chain is a linked list of exactly the slots of `P` whose key hashes to
it. -/
def Chains (idx : Index) (P : ℕ → Prop) : Prop :=
  ∀ c ≤ idx.hashMask, ∃ l, Linked idx.next (idx.heads c) l ∧
    ∀ slot, slot ∈ l ↔ P slot ∧ idx.chainOf (mix (idx.slots slot).key) = c

/-- A slot that is filling or valid, which is one that must be in a chain. -/
def Chained (idx : Index) (slot : ℕ) : Prop :=
  slot < idx.slotCount ∧ (idx.slots slot).state ≠ .free

/-- The representation invariant of the index on its own. -/
structure Inv (idx : Index) : Prop where
  chains : idx.Chains idx.Chained
  distinct : ∀ i j, idx.Chained i → idx.Chained j → (idx.slots i).key = (idx.slots j).key → i = j
  hand : idx.hand < idx.slotCount

theorem Chains.congr {Q : ℕ → Prop} (h : idx.Chains P) (hPQ : ∀ slot, P slot ↔ Q slot)
    (hheads : idx'.heads = idx.heads) (hmask : idx'.hashMask = idx.hashMask)
    (hnext : ∀ slot, P slot → idx'.next slot = idx.next slot)
    (hkey : ∀ slot, P slot → (idx'.slots slot).key = (idx.slots slot).key) : idx'.Chains Q := by
  intro c hc
  obtain ⟨l, hl, hm⟩ := h c (hmask ▸ hc)
  refine ⟨l, ?_, fun slot => ?_⟩
  · rw [hheads]
    exact hl.congr fun a ha => hnext a ((hm a).mp ha).1
  · rw [hm slot, ← hPQ slot, chainOf_congr hmask]
    constructor
    · rintro ⟨hp, he⟩; exact ⟨hp, by rw [hkey slot hp]; exact he⟩
    · rintro ⟨hp, he⟩; exact ⟨hp, by rw [hkey slot hp] at he; exact he⟩

/-- A chain has no more nodes than there are slots. -/
theorem Chains.length_le {l : List ℕ} {link : Option ℕ} (hl : Linked idx.next link l)
    (hb : ∀ slot ∈ l, slot < idx.slotCount) : l.length ≤ idx.slotCount := by
  have hsub : l.Subperm (List.range idx.slotCount) :=
    List.subperm_of_subset hl.nodup fun slot hs => List.mem_range.mpr (hb slot hs)
  simpa using hsub.length_le

/-! ### Find -/

theorem findFrom_eq (key : Key) : ∀ {link : Option ℕ} {l : List ℕ} {fuel : ℕ},
    Linked idx.next link l → l.length < fuel →
      idx.findFrom key fuel link = some (l.find? fun slot => (idx.slots slot).key = key)
  | _, [], fuel + 1, hl, _ => by
    rw [Linked.nil_iff.mp hl]
    rfl
  | _, slot :: l, fuel + 1, hl, hf => by
    rw [hl.1]
    simp only [findFrom, List.find?_cons]
    by_cases hk : (idx.slots slot).key = key
    · simp [hk]
    · simp only [hk, if_false, decide_false]
      exact findFrom_eq key hl.2 (by simp only [List.length_cons] at hf; omega)

/-- `find` answers with the slot that holds `key` exactly when there is one. -/
theorem find_spec (h : idx.Inv) (key : Key) :
    ∃ r, idx.find key (mix key) = some r ∧
      ∀ slot, r = some slot ↔ idx.Chained slot ∧ (idx.slots slot).key = key := by
  obtain ⟨l, hl, hm⟩ := h.chains _ (chainOf_le idx (mix key))
  have hb : l.length ≤ idx.slotCount := Chains.length_le hl fun slot hs => ((hm slot).mp hs).1.1
  refine ⟨_, findFrom_eq key hl (by omega), fun slot => ⟨fun hf => ?_, fun hs => ?_⟩⟩
  · have hk := List.find?_some hf
    have hmem := List.mem_of_find?_eq_some hf
    exact ⟨((hm slot).mp hmem).1, by simpa using hk⟩
  · have hmem : slot ∈ l := (hm slot).mpr ⟨hs.1, by rw [hs.2]⟩
    cases hf : l.find? fun slot => (idx.slots slot).key = key with
    | none =>
      have := List.find?_eq_none.mp hf slot hmem
      simp [hs.2] at this
    | some other =>
      have hk := List.find?_some hf
      have ho := ((hm other).mp (List.mem_of_find?_eq_some hf)).1
      rw [h.distinct other slot ho hs.1 (by simpa [hs.2] using hk)]

/-! ### Unlink -/

/-- The same slots but for their links. -/
structure Relinked (idx idx' : Index) : Prop where
  slots : ∀ slot, idx'.slots slot = { idx.slots slot with next := idx'.next slot }
  slotCount : idx'.slotCount = idx.slotCount
  hashMask : idx'.hashMask = idx.hashMask
  hand : idx'.hand = idx.hand
  ghosts : idx'.ghosts = idx.ghosts
  ghostMask : idx'.ghostMask = idx.ghostMask

theorem modify_next_relinked (slot : ℕ) (target : Option ℕ) :
    Relinked idx (idx.modify slot fun entry => { entry with next := target }) where
  slots other := by
    by_cases h : other = slot
    · subst h; simp [next]
    · simp [next, modify_slots_of_ne _ h]
  slotCount := rfl
  hashMask := rfl
  hand := rfl
  ghosts := rfl
  ghostMask := rfl

theorem write_relinked (idx : Index) (target : Option ℕ) (link : Link) : Relinked idx (idx.write target link) := by
  cases link with
  | head chain => exact ⟨fun _ => rfl, rfl, rfl, rfl, rfl, rfl⟩
  | next slot => exact modify_next_relinked slot target

theorem Relinked.trans {idx₁ idx₂ idx₃ : Index} (h : Relinked idx₁ idx₂) (h' : Relinked idx₂ idx₃) :
    Relinked idx₁ idx₃ where
  slots slot := by rw [h'.slots slot, h.slots slot]
  slotCount := h'.slotCount.trans h.slotCount
  hashMask := h'.hashMask.trans h.hashMask
  hand := h'.hand.trans h.hand
  ghosts := h'.ghosts.trans h.ghosts
  ghostMask := h'.ghostMask.trans h.ghostMask

/-- The link through which a walk that passed `l` reads on. -/
def linkAfter (link : Link) : List ℕ → Link
  | [] => link
  | slot :: l => linkAfter (.next slot) l

theorem linkAfter_append (link : Link) (l : List ℕ) (slot : ℕ) :
    linkAfter link (l ++ [slot]) = .next slot := by
  induction l generalizing link with
  | nil => rfl
  | cons a l ih => exact ih _

theorem linkTo_eq {slot : ℕ} {m : List ℕ} : ∀ {link : Link} {l : List ℕ} {fuel : ℕ},
    Linked idx.next (idx.read link) (l ++ slot :: m) → slot ∉ l → l.length < fuel →
      idx.linkTo slot fuel link = some (linkAfter link l)
  | _, [], fuel + 1, hl, _, _ => by
    simp only [linkTo, if_pos hl.1]
    rfl
  | _, a :: l, fuel + 1, hl, hs, hf => by
    have ha : a ≠ slot := fun e => hs (by simp [e])
    have hread := hl.1
    simp only [linkTo, hread, Option.some.injEq, ha, if_false]
    exact linkTo_eq hl.2 (fun h => hs (by simp [h])) (by simp only [List.length_cons] at hf; omega)

/-- A change of links that takes `slot` out of chain `c` and touches no slot of
another chain. -/
theorem Chains.remove {slot c : ℕ} {l : List ℕ} (h : idx.Chains P) (hr : Relinked idx idx')
    (hs : idx.chainOf (mix (idx.slots slot).key) = c)
    (hl : Linked idx'.next (idx'.heads c) l)
    (hm : ∀ other, other ∈ l ↔
      (P other ∧ idx.chainOf (mix (idx.slots other).key) = c) ∧ other ≠ slot)
    (hheads : ∀ d, d ≠ c → idx'.heads d = idx.heads d)
    (hnext : ∀ other, idx.chainOf (mix (idx.slots other).key) ≠ c → idx'.next other = idx.next other) :
    idx'.Chains fun other => P other ∧ other ≠ slot := by
  have hkey : ∀ other, (idx'.slots other).key = (idx.slots other).key := fun other => by
    rw [hr.slots other]
  intro d hd
  rw [hr.hashMask] at hd
  simp only [hkey, chainOf_congr hr.hashMask]
  by_cases hdc : d = c
  · subst hdc
    exact ⟨l, hl, fun other => by rw [hm other, and_right_comm]⟩
  · obtain ⟨l', hl', hm'⟩ := h d hd
    refine ⟨l', ?_, fun other => ?_⟩
    · rw [hheads d hdc]
      refine hl'.congr fun a ha => hnext a ?_
      rw [((hm' a).mp ha).2]
      exact hdc
    · rw [hm' other, and_right_comm]
      refine ⟨fun ho => ⟨ho, ?_⟩, And.left⟩
      rintro rfl
      exact hdc (ho.2.symm.trans hs)

/-- Taking `slot` out of its chain ends, and leaves the other slots' chains. -/
theorem unlink_spec {slot : ℕ} (h : idx.Chains P) (hs : P slot)
    (hb : ∀ slot, P slot → slot < idx.slotCount) :
    ∃ idx', idx.unlink slot = some idx' ∧ Relinked idx idx' ∧
      idx'.Chains fun other => P other ∧ other ≠ slot := by
  set c := idx.chainOf (mix (idx.slots slot).key) with hc
  obtain ⟨l, hl, hm⟩ := h c (chainOf_le idx _)
  obtain ⟨l₁, l₂, rfl⟩ := List.append_of_mem ((hm slot).mpr ⟨hs, rfl⟩)
  obtain ⟨hs₁, hs₂⟩ : slot ∉ l₁ ∧ slot ∉ l₂ := by
    have hnd := List.nodup_middle.mp hl.nodup
    simpa using (List.nodup_cons.mp hnd).1
  have hlen : (l₁ ++ slot :: l₂).length ≤ idx.slotCount :=
    Chains.length_le hl fun a ha => hb a ((hm a).mp ha).1
  have hwalk : idx.linkTo slot (idx.slotCount + 1) (.head c) = some (linkAfter (.head c) l₁) :=
    linkTo_eq (m := l₂) hl hs₁ (by simp only [List.length_append] at hlen; omega)
  have hr := (write_relinked idx (idx.next slot) (linkAfter (.head c) l₁)).trans
    (modify_next_relinked slot none)
  refine ⟨_, by simp only [unlink, ← hc, hwalk]; rfl, hr, ?_⟩
  -- What is left of the chain: its nodes before `slot`, then those after it.
  have hleft : ∀ other, other ∈ l₁ ++ l₂ ↔
      (P other ∧ idx.chainOf (mix (idx.slots other).key) = c) ∧ other ≠ slot := fun other => by
    rw [← hm other, List.mem_append, List.mem_append, List.mem_cons]
    constructor
    · rintro (ho | ho)
      · exact ⟨Or.inl ho, by rintro rfl; exact hs₁ ho⟩
      · exact ⟨Or.inr (Or.inr ho), by rintro rfl; exact hs₂ ho⟩
    · rintro ⟨ho | rfl | ho, hne⟩
      · exact Or.inl ho
      · exact absurd rfl hne
      · exact Or.inr ho
  have hne : ∀ other, idx.chainOf (mix (idx.slots other).key) ≠ c → other ≠ slot := by
    rintro other ho rfl
    exact ho rfl
  rcases List.eq_nil_or_concat l₁ with rfl | ⟨l₀, b, rfl⟩
  · refine h.remove hr hc.symm (l := l₂) ?_ (by simpa using hleft) ?_ ?_
    · rw [next_modify]
      simp only [linkAfter, write, modify_heads, Function.update_self]
      refine hl.2.congr fun a ha => Function.update_of_ne ?_ _ _
      rintro rfl
      exact hs₂ ha
    · intro d hd
      simp [linkAfter, write, hd]
    · intro other ho
      rw [next_modify, Function.update_of_ne (hne other ho)]
      rfl
  · simp only [List.concat_eq_append, linkAfter_append, List.append_assoc, List.cons_append,
      List.nil_append] at hl hm hleft hr ⊢
    have hbc := ((hm b).mp (by simp)).2
    refine h.remove hr hc.symm (l := l₀ ++ b :: l₂) ?_ hleft (fun _ _ => rfl) ?_
    · rw [next_modify]
      simp only [write, next_modify, modify_heads]
      refine hl.unlink_after.congr fun a ha => Function.update_of_ne ((hleft a).mp ha).2 _ _
    · intro other ho
      rw [next_modify, Function.update_of_ne (hne other ho)]
      simp only [write, next_modify]
      refine Function.update_of_ne ?_ _ _
      rintro rfl
      exact ho hbc

end BlorgFS.DiskCache.Index

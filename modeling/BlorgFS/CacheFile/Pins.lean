import BlorgFS.DiskCache.IndexLedger

/-! The index as the cache's I/O uses it: which pins an array of slots stands for when
part of it is given up, and which slots can hold which block's bytes after one of the
index's lock sections. -/

namespace BlorgFS.DiskCache

variable {client : ℕ} {key : Key} {slots : List (Option ℕ)}

/-! ### Arrays of slots -/

/-- `key`, `i` blocks further on. -/
def Key.skip (key : Key) (i : ℕ) : Key := { key with block := key.block + i }

theorem pinsOf_append (client : ℕ) (key : Key) (l m : List (Option ℕ)) :
    pinsOf client key (l ++ m) = pinsOf client key l ++ pinsOf client (key.skip l.length) m := by
  induction l generalizing key with
  | nil => rfl
  | cons slot l ih =>
    have hskip : Key.skip { key with block := key.block + 1 } l.length = key.skip (l.length + 1) := by
      simp only [Key.skip, Key.mk.injEq, true_and]
      omega
    cases slot <;> simp only [List.cons_append, pinsOf, ih, hskip, List.length_cons]

theorem pinsOf_replicate_none (client : ℕ) (key : Key) (n : ℕ) : pinsOf client key (List.replicate n none) = [] := by
  induction n generalizing key with
  | zero => rfl
  | succ n ih => exact ih _

theorem client_of_mem_pinsOf {p : Pin} (h : p ∈ pinsOf client key slots) : p.client = client := by
  induction slots generalizing key with
  | nil => cases h
  | cons slot slots ih =>
    cases slot with
    | none => exact ih h
    | some slot =>
      rcases List.mem_cons.mp h with rfl | h
      · rfl
      · exact ih h

theorem mem_pinsOf {i slot : ℕ} (h : slots.getD i none = some slot) :
    (⟨client, slot, key.skip i⟩ : Pin) ∈ pinsOf client key slots := by
  induction slots generalizing key i with
  | nil => simp at h
  | cons head slots ih =>
    cases i with
    | zero =>
      rw [List.getD_cons_zero] at h
      rw [h]
      exact List.mem_cons_self
    | succ i =>
      have hmem := @ih { key with block := key.block + 1 } i (by simpa using h)
      have hskip : Key.skip { key with block := key.block + 1 } i = key.skip (i + 1) := by
        simp only [Key.skip, Key.mk.injEq, true_and]
        omega
      rw [hskip] at hmem
      cases head with
      | none => exact hmem
      | some head => exact List.mem_cons_of_mem _ hmem

/-- Giving a gap up drops its pins and no others. -/
theorem pinsOf_giveUp (client : ℕ) (key : Key) {start length : ℕ} (h : start + length ≤ slots.length) :
    (pinsOf client key slots : Multiset Pin) = pinsOf client key (Index.giveUp slots start length) +
      pinsOf client (key.skip start) ((slots.drop start).take length) := by
  have hskip : (slots.take start ++ (slots.drop start).take length).length = start + length := by
    simp only [List.length_append, List.length_take, List.length_drop]
    omega
  have hskip' : (slots.take start ++ List.replicate length none).length = start + length := by
    simp only [List.length_append, List.length_take, List.length_replicate]
    omega
  have htake : (slots.take start).length = start := by
    rw [List.length_take]
    omega
  conv_lhs => rw [Index.split_gap slots start length]
  unfold Index.giveUp
  rw [pinsOf_append, pinsOf_append, pinsOf_append, pinsOf_append, hskip, hskip', htake, pinsOf_replicate_none,
    List.append_nil, Multiset.coe_add, Multiset.coe_eq_coe, List.append_assoc, List.append_assoc]
  exact List.perm_append_comm.append_left _

/-! ### Who holds what after a lock section -/

namespace World

variable {w w' : World}

/-- Only pins moved. -/
structure Steady (w w' : World) : Prop where
  fills : w'.fills = w.fills
  key : ∀ slot, (w'.index.slots slot).key = (w.index.slots slot).key
  state : ∀ slot, (w'.index.slots slot).state = (w.index.slots slot).state

theorem Steady.refl (w : World) : Steady w w := ⟨rfl, fun _ => rfl, fun _ => rfl⟩

theorem pinHeld_steady {lastBlock held : ℕ} {idx : Index} (h : w.Inv)
    (hp : w.index.pinHeld key lastBlock = some (slots, held, idx))
    (he : w.exec (.pinHeld client key lastBlock) = some w') :
    w'.Inv ∧ w.Steady w' ∧ w'.pinned = w.pinned + pinsOf client key slots ∧
      slots.length = lastBlock + 1 - key.block ∧ slots.countP Option.isSome = held := by
  obtain ⟨w'', he', hi, -⟩ := pinHeld_exec h client key lastBlock
  obtain rfl : w'' = w' := Option.some.inj (he'.symm.trans he)
  obtain ⟨slots', held', idx', hp', hlen, -, hre⟩ := Index.pinHeld_spec h.index key lastBlock
  obtain ⟨rfl, rfl, rfl⟩ : slots' = slots ∧ held' = held ∧ idx' = idx := by
    rw [hp] at hp'
    simpa [eq_comm] using hp'
  simp only [exec, hp, Option.bind_eq_bind, Option.bind_some] at he
  cases he
  exact ⟨hi, ⟨rfl, hre.key, hre.state⟩, rfl, hlen, Index.pinBlocks_count hp⟩

theorem unpin_steady {taken : List Pin} {served : Bool} (h : w.Inv) (ha : w.Allowed (.unpin taken slots served))
    (he : w.exec (.unpin taken slots served) = some w') :
    w'.Inv ∧ w.Steady w' ∧ w'.pinned = w.pinned - taken := by
  obtain ⟨w'', he', hi, -⟩ := unpin_exec h served ha
  obtain rfl : w'' = w' := Option.some.inj (he'.symm.trans he)
  obtain ⟨idx, hu, hre⟩ := Index.unpin_spec w.index served slots (h.occurs_le_pins ha.1 ha.2)
  simp only [exec, hu, Option.bind_eq_bind, Option.bind_some] at he
  cases he
  exact ⟨hi, ⟨rfl, hre.key, hre.state⟩, rfl⟩

/-- A slot reserved was nobody's, and what is valid was so before. -/
theorem reserve_holders {answer : Admit} {slot : Option ℕ} {idx : Index} (h : w.Inv)
    (hr : w.index.reserve key = some (answer, slot, idx)) (he : w.exec (.reserve key) = some w') :
    w'.Inv ∧ w'.pinned = w.pinned ∧
      (∀ s, (w'.index.slots s).state = .valid →
        (w.index.slots s).state = .valid ∧ (w'.index.slots s).key = (w.index.slots s).key) ∧
      ((slot = none ∧ w'.fills = w.fills) ∨
        ∃ s, slot = some s ∧ w.fills s = none ∧ w'.fills = Function.update w.fills s (some key)) := by
  obtain ⟨w'', he', hi, -⟩ := reserve_exec h key
  obtain rfl : w'' = w' := Option.some.inj (he'.symm.trans he)
  obtain ⟨answer', slot', idx', hr', -, hcase⟩ := Index.reserve_spec h.index key
  obtain ⟨rfl, rfl, rfl⟩ : answer' = answer ∧ slot' = slot ∧ idx' = idx := by
    rw [hr] at hr'
    simpa [eq_comm] using hr'
  simp only [exec, hr, Option.bind_eq_bind, Option.bind_some] at he
  rcases hcase with ⟨-, rfl, hre⟩ | ⟨s, -, rfl, ht, -⟩
  · cases he
    exact ⟨hi, rfl, fun s hv => ⟨(hre.state s).symm.trans hv, hre.key s⟩, Or.inl ⟨rfl, rfl⟩⟩
  · cases he
    have hpins := h.pins s
    rw [ht.unpinned] at hpins
    have hidle : w.fills s = none := by
      cases hf : w.fills s with
      | none => rfl
      | some k =>
        rw [hf] at hpins
        simp at hpins
        omega
    refine ⟨hi, rfl, fun other hv => ?_, Or.inr ⟨s, rfl, hidle, rfl⟩⟩
    have hne : other ≠ s := by
      rintro rfl
      have hst := ht.state
      simp only at hv
      rw [hv] at hst
      cases hst
    obtain ⟨hk, hst, -⟩ := ht.others other hne
    exact ⟨hst.symm.trans hv, hk⟩

/-- What is valid after a commit was so before, or is the slot that was written. -/
theorem commit_holders {slot : ℕ} {written : Bool} (h : w.Inv) (hf : w.fills slot = some key)
    (he : w.exec (.commit slot written) = some w') :
    w'.Inv ∧ w'.pinned = w.pinned ∧ w'.fills = Function.update w.fills slot none ∧
      ∀ s, (w'.index.slots s).state = .valid →
        ((w.index.slots s).state = .valid ∧ (w'.index.slots s).key = (w.index.slots s).key) ∨
          (s = slot ∧ written = true ∧ (w'.index.slots s).key = key) := by
  have ha : w.Allowed (.commit slot written) := by
    show (w.fills slot).isSome = true
    rw [hf]
    rfl
  obtain ⟨w'', he', hi, -⟩ := commit_exec h written ha
  obtain rfl : w'' = w' := Option.some.inj (he'.symm.trans he)
  obtain ⟨hlt, hst, hk⟩ := (h.fills slot key).mp hf
  have hpins := h.pins slot
  rw [hf] at hpins
  simp only [Option.isSome_some, if_true] at hpins
  obtain ⟨idx, hc, -, hcom⟩ := Index.commit_spec written h.index hlt hst (by omega)
  simp only [exec, hc, Option.bind_eq_bind, Option.bind_some] at he
  cases he
  refine ⟨hi, rfl, rfl, fun s hv => ?_⟩
  by_cases hs : s = slot
  · subst hs
    refine Or.inr ⟨rfl, ?_, (hcom.key s).trans hk⟩
    have hend := hcom.state
    simp only at hv
    rw [hv] at hend
    cases written with
    | true => rfl
    | false => cases hend
  · exact Or.inl ⟨(hcom.others s hs).1.symm.trans hv, hcom.key s⟩

end World

end BlorgFS.DiskCache

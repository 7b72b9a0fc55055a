import BlorgFS.PathCache.Path

/-! Paths by their components: how `FsRtlDissectName` takes one off the front and
`NodeGetLastComponent` finds the last. Of a path that begins with a separator, does not end
in one and has none twice in a row they see the same components. -/

namespace BlorgFS.Tree

open PathCache

/-- `FsRtlDissectName`: the part up to the first separator after a leading one, and what
follows that separator. -/
def dissectName (path : Path) : Path × Path :=
  let path := if path.head? = some separator then path.tail else path
  (path.takeWhile (· ≠ separator), (path.dropWhile (· ≠ separator)).tail)

/-- `NodeGetLastComponent`. -/
def getLastComponent (path : Path) : Path :=
  let path := if path.getLast? = some separator ∧ 1 < path.length then path.dropLast else path
  path.drop (lastSeparator path path.length)

/-- Every component with a separator before it. -/
def join (cs : List Path) : Path := cs.flatMap (separator :: ·)

/-- Neither empty nor with a separator in it. -/
def IsName (c : Path) : Prop := c ≠ [] ∧ separator ∉ c

/-- A path as the driver normalises it: a separator before every component and none after the
last. -/
def Canonical (path : Path) (cs : List Path) : Prop := cs ≠ [] ∧ (∀ c ∈ cs, IsName c) ∧ path = join cs

variable {c : Path} {cs cs' : List Path}

@[simp] theorem join_nil : join [] = [] := rfl

@[simp] theorem join_cons : join (c :: cs) = separator :: (c ++ join cs) := rfl

theorem join_append : join (cs ++ cs') = join cs ++ join cs' := List.flatMap_append

theorem join_singleton : join [c] = separator :: c := by simp

theorem IsName.head? (h : IsName c) (rest : Path) : (c ++ rest).head? ≠ some separator := by
  cases c with
  | nil => exact absurd rfl h.1
  | cons x c =>
    intro he
    exact h.2 (Option.some.inj he ▸ List.mem_cons_self)

theorem takeWhile_name (h : separator ∉ c) (cs : List Path) : (c ++ join cs).takeWhile (· ≠ separator) = c := by
  rw [List.takeWhile_append_of_pos fun x hx => by simpa using fun he : x = separator => h (he ▸ hx)]
  cases cs with
  | nil => simp
  | cons c' cs => simp

theorem dropWhile_name (h : separator ∉ c) (cs : List Path) : (c ++ join cs).dropWhile (· ≠ separator) = join cs := by
  rw [List.dropWhile_append_of_pos fun x hx => by simpa using fun he : x = separator => h (he ▸ hx)]
  cases cs with
  | nil => simp
  | cons c' cs => simp

/-- The first component comes off, with or without a separator before it. -/
theorem dissectName_join (h : IsName c) (cs : List Path) : dissectName (join (c :: cs)) = (c, (join cs).tail) := by
  simp only [dissectName, join_cons, List.head?_cons, if_true, List.tail_cons]
  rw [takeWhile_name h.2, dropWhile_name h.2]

theorem dissectName_tail (h : IsName c) (cs : List Path) : dissectName (join (c :: cs)).tail = (c, (join cs).tail) := by
  have htail : (join (c :: cs)).tail = c ++ join cs := rfl
  rw [htail, dissectName, if_neg (h.head? (join cs))]
  rw [takeWhile_name h.2, dropWhile_name h.2]

theorem length_tail_join : (join cs).tail.length = 0 ↔ cs = [] ∨ cs = [[]] := by
  cases cs with
  | nil => simp
  | cons c cs => cases c <;> cases cs <;> simp

theorem tail_join_eq_nil (h : ∀ c ∈ cs, IsName c) : (join cs).tail = [] ↔ cs = [] := by
  rw [← List.length_eq_zero_iff, length_tail_join]
  constructor
  · rintro (rfl | rfl)
    · rfl
    · exact absurd rfl (h [] List.mem_cons_self).1
  · exact fun he => .inl he

/-- The characters of a path before those still to be walked, and the separator. -/
theorem take_join (h : cs' ≠ []) (cs : List Path) :
    (join (cs ++ cs')).take ((join (cs ++ cs')).length - ((join cs').tail.length + 1)) = join cs := by
  have hlen : (join cs').tail.length + 1 = (join cs').length := by
    cases cs' with
    | nil => exact absurd rfl h
    | cons c cs' => simp
  rw [hlen, join_append, List.length_append, Nat.add_sub_cancel, List.take_left]

theorem getLastComponent_join (h : IsName c) (cs : List Path) : getLastComponent (join (cs ++ [c])) = c := by
  have hjoin : join (cs ++ [c]) = join cs ++ separator :: c := by rw [join_append, join_singleton]
  have hlast : (join (cs ++ [c])).getLast? ≠ some separator := by
    rw [hjoin, List.getLast?_append, List.getLast?_cons, Option.some_or]
    intro he
    cases hc : c.getLast? with
    | none => exact h.1 (List.getLast?_eq_none_iff.mp hc)
    | some x =>
      rw [hc, Option.getD_some] at he
      exact h.2 (Option.some.inj he ▸ List.mem_of_getLast? hc)
  unfold getLastComponent
  rw [if_neg fun hn => hlast hn.1, hjoin]
  simp only
  rw [lastSeparator_eq h.2]
  simp

end BlorgFS.Tree

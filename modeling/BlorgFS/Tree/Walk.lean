import BlorgFS.Tree.Reap

/-! Walks down the tree, component by component. `BlorgSearchByPath` and `BlorgInsertByPath` go
through the same resident directories; the walk ends at the node of the path, at a file in the
middle of it, or at a directory that has no child of the next name. -/

namespace BlorgFS.Tree

open Lib PathCache

variable {N : Names} {s s' : State} {n m p d k fuel current child : ℕ} {nd dd : Node} {path remaining rest c : Path} {cs pre : List Path} {pool : Pool}
  {info : EntryInfo} {lastCreated : Option ℕ}

/-! ### What a component takes off a path -/

theorem dissectName_length (h : path.length ≠ 0) : (dissectName path).2.length < path.length := by
  have hdrop : ∀ l : Path, ((l.dropWhile (· ≠ separator)).tail).length ≤ l.length - 1 := by
    intro l
    have hle := (List.dropWhile_sublist (fun c => decide (c ≠ separator)) (l := l)).length_le
    rw [List.length_tail]
    omega
  simp only [dissectName]
  split_ifs with hhead
  · have hle := hdrop path.tail
    have htail : path.tail.length = path.length - 1 := List.length_tail
    omega
  · have hle := hdrop path
    omega

/-- Where something is left, the component and the separator after it are off. -/
theorem dissectName_length_of_ne (h : (dissectName path).2.length ≠ 0) : (dissectName path).2.length + 2 ≤ path.length := by
  have hsplit : ∀ l : Path, (l.takeWhile (· ≠ separator)).length + (l.dropWhile (· ≠ separator)).length = l.length := by
    intro l
    rw [← List.length_append, List.takeWhile_append_dropWhile]
  simp only [dissectName, List.length_tail] at h ⊢
  split_ifs at h ⊢ with hhead
  · have hlen := hsplit path.tail
    rw [List.length_tail] at hlen
    omega
  · have hlen := hsplit path
    have hpos : 0 < (path.takeWhile (· ≠ separator)).length := by
      cases path with
      | nil => simp at h
      | cons x path =>
        have hx : x ≠ separator := fun he => hhead (by rw [he]; rfl)
        simp [hx]
    omega

namespace State

/-! ### Where the walk goes -/

/-- From a directory with `remaining` left of the path the walk comes to another, with `rest`
left. -/
inductive Reaches (N : Names) (s : State) : ℕ → Path → ℕ → Path → Prop
  | here {current : ℕ} {remaining : Path} : Reaches N s current remaining current remaining
  | down {current child d : ℕ} {remaining rest : Path} : remaining.length ≠ 0 → s.searchByName N current (dissectName remaining).1 = some child → s.kindIs child .fcb = false →
      Reaches N s child (dissectName remaining).2 d rest → Reaches N s current remaining d rest

/-- The directories on a path. -/
def OnPath (N : Names) (s : State) (path : Path) (d : ℕ) : Prop := ∃ rest, Reaches N s s.root path d rest

/-- A walk has ended, in a directory it came to. -/
inductive Ends (N : Names) (s : State) (current : ℕ) (remaining : Path) : Prop
  | found {d : ℕ} (h : Reaches N s current remaining d []) : Ends N s current remaining
  | file {d child : ℕ} {rest : Path} (h : Reaches N s current remaining d rest) (hrest : rest.length ≠ 0) (hs : s.searchByName N d (dissectName rest).1 = some child)
      (hk : s.kindIs child .fcb = true) : Ends N s current remaining
  | missing {d : ℕ} {rest : Path} (h : Reaches N s current remaining d rest) (hrest : rest.length ≠ 0) (hs : s.searchByName N d (dissectName rest).1 = none) :
      Ends N s current remaining

theorem kindIs_iff {k : Kind} : s.kindIs n k = true ↔ ∃ nd, s.node n = some nd ∧ nd.kind = k := by
  unfold kindIs
  cases s.node n <;> simp

/-- Every walk does. -/
theorem ends (N : Names) (s : State) (fuel : ℕ) : ∀ (current : ℕ) {remaining : Path}, remaining.length ≤ fuel → Ends N s current remaining := by
  induction fuel with
  | zero =>
    intro current remaining hlen
    rw [List.length_eq_zero_iff.mp (Nat.le_zero.mp hlen)]
    exact .found .here
  | succ fuel ih =>
    intro current remaining hlen
    by_cases hrest : remaining.length = 0
    · rw [List.length_eq_zero_iff.mp hrest]
      exact .found .here
    · have hlt := dissectName_length hrest
      cases hs : s.searchByName N current (dissectName remaining).1 with
      | none => exact .missing .here hrest hs
      | some child =>
        cases hk : s.kindIs child .fcb with
        | true => exact .file .here hrest hs hk
        | false =>
          have hnext : (dissectName remaining).2.length ≤ fuel := by omega
          cases ih child hnext with
          | found h => exact .found (.down hrest hs hk h)
          | file h hrest' hs' hk' => exact .file (.down hrest hs hk h) hrest' hs' hk'
          | missing h hrest' hs' => exact .missing (.down hrest hs hk h) hrest' hs'

/-- What holds where the walk starts and is kept by every step down holds where it comes to. -/
theorem Reaches.induct {P : ℕ → Path → Prop} (h : Reaches N s current remaining d rest) (h0 : P current remaining)
    (hdown : ∀ {d rest child}, P d rest → rest.length ≠ 0 → s.searchByName N d (dissectName rest).1 = some child → s.kindIs child .fcb = false →
      P child (dissectName rest).2) : P d rest := by
  induction h with
  | here => exact h0
  | down hrest hs hk _ ih => exact ih (hdown h0 hrest hs hk)

/-- A directory the walk comes to is where it started, or in one it came through. -/
theorem Reaches.parent (h : Reaches N s current remaining d rest) (hl : s.Linked N) (hn : s.node d = some nd) :
    d = current ∨ ∃ rest', Reaches N s current remaining nd.parentDcb rest' := by
  induction h with
  | here => exact .inl rfl
  | down hrest hs hk _ ih =>
    rcases ih hn with rfl | ⟨rest', h'⟩
    · obtain ⟨cd, hcd, hp, _, _⟩ := hl.of_searchByName hs
      rw [hn] at hcd
      rw [Option.some.inj hcd, hp]
      exact .inr ⟨_, .here⟩
    · exact .inr ⟨rest', .down hrest hs hk h'⟩

theorem Linked.trail_onPath (h : s.Linked N) (path : Path) : Trail s (OnPath N s path) := by
  rintro d nd ⟨rest, hr⟩ hn hne
  rcases hr.parent h hn with rfl | hp
  · exact absurd rfl hne
  · exact hp

/-! ### Search and insert along it -/

theorem Reaches.searchFrom (h : Reaches N s current remaining d rest) (hlen : remaining.length ≤ fuel) :
    ∃ fuel', rest.length ≤ fuel' ∧ s.searchFrom N fuel current remaining = s.searchFrom N fuel' d rest := by
  induction h generalizing fuel with
  | here => exact ⟨fuel, hlen, rfl⟩
  | down hrest hs hk _ ih =>
    have hlt := dissectName_length hrest
    obtain ⟨fuel, rfl⟩ : ∃ j, fuel = j + 1 := ⟨fuel - 1, by omega⟩
    obtain ⟨fuel', hlen', he⟩ := @ih fuel (by omega)
    refine ⟨fuel', hlen', ?_⟩
    rw [State.searchFrom, if_neg hrest, hs]
    simp only [hk, Bool.false_eq_true, if_false]
    exact he

theorem Linked.not_dir_iff (h : s.Linked N) (hs : s.searchByName N current c = some n) :
    (¬ s.kindIs n .dcb ∧ ¬ s.kindIs n .root) ↔ s.kindIs n .fcb = true := by
  obtain ⟨nd, hn, _, hroot, _⟩ := h.of_searchByName hs
  have hk := h.kinds n nd hn hroot
  unfold State.kindIs
  rw [hn]
  cases hkind : nd.kind <;> simp_all

theorem Reaches.insertFrom (h : Reaches N s current remaining d rest) (hl : s.Linked N) (hlen : remaining.length ≤ fuel) (hrest : rest.length ≠ 0) :
    ∃ fuel', rest.length ≤ fuel' ∧
      State.insertFrom N pool path info fuel s current remaining lastCreated = State.insertFrom N pool path info fuel' s d rest lastCreated := by
  induction h generalizing fuel with
  | here => exact ⟨fuel, hlen, rfl⟩
  | @down _ _ _ remaining _ hne hs hk hr ih =>
    have hlt := dissectName_length hne
    obtain ⟨fuel, rfl⟩ : ∃ j, fuel = j + 1 := ⟨fuel - 1, by omega⟩
    obtain ⟨fuel', hlen', he⟩ := @ih fuel (by omega) hrest
    refine ⟨fuel', hlen', ?_⟩
    have hmore : (dissectName remaining).2.length ≠ 0 := fun h0 => by
      rw [List.length_eq_zero_iff.mp h0] at hr
      cases hr with
      | here => exact hrest rfl
      | down h0 => exact h0 rfl
    rw [State.insertFrom, if_neg hne]
    simp only [hs, if_neg hmore, if_neg (mt (hl.not_dir_iff hs).mp (Bool.eq_false_iff.mp hk))]
    exact he

/-- Where the path is resident nothing is made. -/
theorem Reaches.insertFrom_found (h : Reaches N s current remaining d []) (hl : s.Linked N) (hlen : remaining.length ≤ fuel) :
    State.insertFrom N pool path info fuel s current remaining lastCreated = (s, .ok lastCreated) := by
  generalize hrest : ([] : Path) = rest at h
  induction h generalizing fuel with
  | here =>
    cases fuel with
    | zero => rfl
    | succ fuel =>
      rw [State.insertFrom, ← hrest]
      rfl
  | down hne hs hk _ ih =>
    have hlt := dissectName_length hne
    obtain ⟨fuel, rfl⟩ : ∃ j, fuel = j + 1 := ⟨fuel - 1, by omega⟩
    rw [State.insertFrom, if_neg hne]
    simp only [hs, if_neg (mt (hl.not_dir_iff hs).mp (Bool.eq_false_iff.mp hk))]
    split_ifs
    · rfl
    · exact ih (by omega) hrest

theorem searchFrom_found (hrest : rest = []) : s.searchFrom N fuel d rest = some d := by
  cases fuel with
  | zero => rfl
  | succ fuel => rw [searchFrom, hrest]; rfl

theorem searchFrom_file (hlen : rest.length ≤ fuel) (hrest : rest.length ≠ 0) (hs : s.searchByName N d (dissectName rest).1 = some child)
    (hk : s.kindIs child .fcb = true) : s.searchFrom N fuel d rest = if (dissectName rest).2.length = 0 then some child else none := by
  obtain ⟨fuel, rfl⟩ : ∃ j, fuel = j + 1 := ⟨fuel - 1, by omega⟩
  rw [searchFrom, if_neg hrest, hs]
  simp only [hk, if_true]

theorem searchFrom_missing (hlen : rest.length ≤ fuel) (hrest : rest.length ≠ 0) (hs : s.searchByName N d (dissectName rest).1 = none) :
    s.searchFrom N fuel d rest = none := by
  obtain ⟨fuel, rfl⟩ : ∃ j, fuel = j + 1 := ⟨fuel - 1, by omega⟩
  rw [searchFrom, if_neg hrest, hs]

end State

end BlorgFS.Tree

import Mathlib.Algebra.Order.Group.Nat
import Mathlib.Data.Nat.Find
import Mathlib.Data.Set.Insert
import Mathlib.Logic.Function.Basic
import Mathlib.Order.Lattice

/-! Start-time fair queueing. Packets of several flows are tagged as they come: a packet's start
tag is the later of the virtual time and the finish tag of its flow, and it moves that finish tag
on by its length. Serving a packet moves the virtual time up to its start tag.

While a flow has packets waiting, and the virtual time is behind all of them, its tags are the
bytes it was served; so two flows that wait throughout are served alike, up to a packet each. -/

namespace BlorgFS.Lib

variable {ι κ : Type*}

/-- The virtual time, the packets that wait with their start tags, and the finish tag of each
flow. -/
structure Tags (ι κ : Type*) where
  now : ℕ
  pending : Set ι
  start : ι → ℕ
  finish : κ → ℕ

namespace Tags

variable (flow : ι → κ) (length : ι → ℕ) (largest : κ → ℕ) (t : Tags ι κ)

/-- The start tag of a packet that comes now. -/
def startOf (x : ι) : ℕ := max (t.finish (flow x)) t.now

/-- Some packet of the flow waits. -/
def Waits (k : κ) : Prop := ∃ x ∈ t.pending, flow x = k

/-- No packet that waits is behind the virtual time. -/
def Ahead : Prop := ∀ x ∈ t.pending, t.now ≤ t.start x

/-- The least start tag of a flow. -/
def Head (k : κ) (h : ℕ) : Prop := (∃ x ∈ t.pending, flow x = k ∧ t.start x = h) ∧ ∀ x ∈ t.pending, flow x = k → h ≤ t.start x

/-- The packet that goes out when all may. -/
def Least (x : ι) : Prop := x ∈ t.pending ∧ ∀ y ∈ t.pending, t.start x ≤ t.start y

/-- A packet comes and goes out at once. -/
def pass [DecidableEq κ] (x : ι) : Tags ι κ :=
  { t with now := t.startOf flow x, finish := Function.update t.finish (flow x) (t.startOf flow x + length x) }

/-- A packet comes and waits. -/
def join [DecidableEq κ] [DecidableEq ι] (x : ι) : Tags ι κ :=
  { t with
    pending := insert x t.pending
    start := Function.update t.start x (t.startOf flow x)
    finish := Function.update t.finish (flow x) (t.startOf flow x + length x) }

/-- A packet that waited goes out. -/
def serve (x : ι) : Tags ι κ := { t with now := max t.now (t.start x), pending := t.pending \ {x} }

/-- The intervals of the packets of a flow that wait do not overlap, and from any that is not
behind the virtual time on they leave no gap up to the finish tag. What is first in its flow is
at most a packet ahead of the virtual time. -/
structure Chained : Prop where
  apart : ∀ x ∈ t.pending, ∀ y ∈ t.pending, flow x = flow y → x ≠ y → t.start x + length x ≤ t.start y ∨ t.start y + length y ≤ t.start x
  below : ∀ x ∈ t.pending, t.start x + length x ≤ t.finish (flow x)
  joined : ∀ x ∈ t.pending, t.now ≤ t.start x → t.start x + length x = t.finish (flow x) ∨
    ∃ y ∈ t.pending, flow y = flow x ∧ t.start y = t.start x + length x
  first : ∀ x ∈ t.pending, t.start x ≤ t.now + largest (flow x) ∨ ∃ y ∈ t.pending, flow y = flow x ∧ t.start y + length y = t.start x
  last : ∀ k, t.finish k ≤ t.now + largest k ∨ ∃ y ∈ t.pending, flow y = k ∧ t.start y + length y = t.finish k

variable {flow length largest t} {x : ι} {k : κ} {h : ℕ}

/-! ### What a flow's tags say -/

theorem Chained.mono {larger : κ → ℕ} (hc : t.Chained flow length largest) (hle : ∀ k, largest k ≤ larger k) :
    t.Chained flow length larger where
  apart := hc.apart
  below := hc.below
  joined := hc.joined
  first x hx := (hc.first x hx).imp_left fun hl => hl.trans (Nat.add_le_add_left (hle _) _)
  last k := (hc.last k).imp_left fun hl => hl.trans (Nat.add_le_add_left (hle _) _)

theorem Head.waits (hh : t.Head flow k h) : t.Waits flow k := by
  obtain ⟨⟨x, hx, hk, -⟩, -⟩ := hh
  exact ⟨x, hx, hk⟩

/-- A flow that waits has a least start tag. -/
theorem Waits.exists_head (hw : t.Waits flow k) : ∃ h, t.Head flow k h := by
  classical
  have hex : ∃ h, ∃ x ∈ t.pending, flow x = k ∧ t.start x = h := by
    obtain ⟨x, hx, hk⟩ := hw
    exact ⟨t.start x, x, hx, hk, rfl⟩
  refine ⟨Nat.find hex, Nat.find_spec hex, fun x hx hk => ?_⟩
  exact Nat.find_min' hex ⟨x, hx, hk, rfl⟩

theorem Head.unique {h' : ℕ} (hh : t.Head flow k h) (hh' : t.Head flow k h') : h = h' := by
  obtain ⟨⟨x, hx, hk, rfl⟩, hleast⟩ := hh
  obtain ⟨⟨y, hy, hk', rfl⟩, hleast'⟩ := hh'
  exact Nat.le_antisymm (hleast y hy hk') (hleast' x hx hk)

theorem Head.now_le (hh : t.Head flow k h) (ha : t.Ahead) : t.now ≤ h := by
  obtain ⟨⟨x, hx, -, rfl⟩, -⟩ := hh
  exact ha x hx

theorem Head.le_now (hh : t.Head flow k h) (hpos : ∀ x, 0 < length x) (hc : t.Chained flow length largest) :
    h ≤ t.now + largest k := by
  obtain ⟨⟨x, hx, rfl, rfl⟩, hleast⟩ := hh
  rcases hc.first x hx with hl | ⟨y, hy, hk, he⟩
  · exact hl
  · have hle := hleast y hy hk
    have := hpos y
    omega

/-! ### Packets come and go -/

theorem finish_le_startOf (t : Tags ι κ) (flow : ι → κ) (x : ι) : t.finish (flow x) ≤ t.startOf flow x := Nat.le_max_left _ _

theorem now_le_startOf (t : Tags ι κ) (flow : ι → κ) (x : ι) : t.now ≤ t.startOf flow x := Nat.le_max_right _ _

theorem Chained.pass [DecidableEq κ] (hc : t.Chained flow length largest) (hpos : ∀ x, 0 < length x) (hx : length x ≤ largest (flow x)) :
    (t.pass flow length x).Chained flow length largest := by
  have hfinish := t.finish_le_startOf flow x
  have hnow := t.now_le_startOf flow x
  refine ⟨hc.apart, fun y hy => ?_, fun y hy hle => ?_, fun y hy => ?_, fun k => ?_⟩
  · have hb := hc.below y hy
    by_cases hk : flow y = flow x
    · simp only [Tags.pass, hk, Function.update_self] at hb ⊢
      omega
    · simpa only [Tags.pass, Function.update_of_ne hk] using hb
  · have hb := hc.below y hy
    have hle : t.startOf flow x ≤ t.start y := hle
    -- A packet of the same flow lies below the one that passes it.
    have hk : flow y ≠ flow x := by
      intro hk
      rw [hk] at hb
      have := hpos y
      omega
    simp only [Tags.pass, Function.update_of_ne hk]
    exact hc.joined y hy (hnow.trans hle)
  · refine (hc.first y hy).imp_left fun hl => ?_
    show t.start y ≤ t.startOf flow x + largest (flow y)
    omega
  · by_cases hk : k = flow x
    · subst hk
      simp only [Tags.pass, Function.update_self]
      exact Or.inl (Nat.add_le_add_left hx _)
    · simp only [Tags.pass, Function.update_of_ne hk]
      exact (hc.last k).imp_left fun hl => by omega

section
variable [DecidableEq κ] [DecidableEq ι]

theorem join_start_of_mem (hx : x ∉ t.pending) {y : ι} (hy : y ∈ t.pending) : (t.join flow length x).start y = t.start y :=
  Function.update_of_ne (by rintro rfl; exact hx hy) _ _

theorem Chained.join (hc : t.Chained flow length largest) (hx : x ∉ t.pending) :
    (t.join flow length x).Chained flow length largest := by
  have hfinish := t.finish_le_startOf flow x
  have hself : (t.join flow length x).start x = t.startOf flow x := Function.update_self _ _ _
  have hother : ∀ y ∈ t.pending, (t.join flow length x).start y = t.start y := fun y hy => join_start_of_mem hx hy
  have hbefore : ∀ y ∈ t.pending, flow y = flow x → t.start y + length y ≤ t.startOf flow x := fun y hy hk => by
    have hb := hc.below y hy
    rw [hk] at hb
    omega
  have hnew : (t.join flow length x).finish (flow x) = t.startOf flow x + length x := Function.update_self _ _ _
  have hold : ∀ k, k ≠ flow x → (t.join flow length x).finish k = t.finish k := fun k hk => Function.update_of_ne hk _ _
  refine ⟨?_, ?_, ?_, ?_, fun k => ?_⟩
  · rintro y (rfl | hy) z (rfl | hz) hk hne
    · exact absurd rfl hne
    · rw [hself, hother z hz]
      exact Or.inr (hbefore z hz hk.symm)
    · rw [hself, hother y hy]
      exact Or.inl (hbefore y hy hk)
    · rw [hother y hy, hother z hz]
      exact hc.apart y hy z hz hk hne
  · rintro y (rfl | hy)
    · rw [hself, hnew]
    · rw [hother y hy]
      by_cases hk : flow y = flow x
      · rw [hk, hnew]
        exact (hbefore y hy hk).trans (Nat.le_add_right _ _)
      · rw [hold _ hk]
        exact hc.below y hy
  · rintro y (rfl | hy) hle
    · rw [hself, hnew]
      exact Or.inl rfl
    · rw [hother y hy] at hle ⊢
      rcases hc.joined y hy hle with he | ⟨z, hz, hk, he⟩
      · by_cases hk : flow y = flow x
        · refine Or.inr ⟨x, Or.inl rfl, hk.symm, ?_⟩
          have hle : t.now ≤ t.start y := hle
          -- The flow's finish tag is past the virtual time, so the new packet starts there.
          rw [hself, startOf, max_eq_left (by rw [← hk]; omega), he, hk]
        · rw [hold _ hk]
          exact Or.inl he
      · exact Or.inr ⟨z, Or.inr hz, hk, (hother z hz).trans he⟩
  · rintro y (rfl | hy)
    · rw [hself]
      rcases Nat.le_total (t.finish (flow y)) t.now with hle | hle
      · exact Or.inl (by rw [startOf, max_eq_right hle]; exact Nat.le_add_right _ _)
      · rw [startOf, max_eq_left hle]
        refine (hc.last (flow y)).imp_right ?_
        rintro ⟨z, hz, hk, he⟩
        exact ⟨z, Or.inr hz, hk, by rw [hother z hz]; exact he⟩
    · rw [hother y hy]
      refine (hc.first y hy).imp_right ?_
      rintro ⟨z, hz, hk, he⟩
      exact ⟨z, Or.inr hz, hk, by rw [hother z hz]; exact he⟩
  · by_cases hk : k = flow x
    · subst hk
      exact Or.inr ⟨x, Or.inl rfl, rfl, by rw [hself, hnew]⟩
    · rw [hold _ hk]
      refine (hc.last k).imp_right ?_
      rintro ⟨z, hz, hk, he⟩
      exact ⟨z, Or.inr hz, hk, by rw [hother z hz]; exact he⟩

theorem Ahead.join (ha : t.Ahead) (hx : x ∉ t.pending) : (t.join flow length x).Ahead := by
  rintro y (rfl | hy)
  · rw [show (t.join flow length y).start y = t.startOf flow y from Function.update_self _ _ _]
    exact t.now_le_startOf flow y
  · rw [join_start_of_mem hx hy]
    exact ha y hy

/-- A flow that waits keeps its least tag as more of it comes. -/
theorem Head.join (hh : t.Head flow k h) (hc : t.Chained flow length largest) (hx : x ∉ t.pending) :
    (t.join flow length x).Head flow k h := by
  obtain ⟨⟨y, hy, hk, rfl⟩, hleast⟩ := hh
  refine ⟨⟨y, Or.inr hy, hk, join_start_of_mem hx hy⟩, ?_⟩
  rintro z (rfl | hz) hkz
  · have hb := hc.below y hy
    have hfinish := t.finish_le_startOf flow z
    rw [hk, ← hkz] at hb
    rw [show (t.join flow length z).start z = t.startOf flow z from Function.update_self _ _ _]
    omega
  · rw [join_start_of_mem hx hz]
    exact hleast z hz hkz

end

theorem Chained.serve (hc : t.Chained flow length largest) (hpos : ∀ x, 0 < length x) (hx : x ∈ t.pending)
    (hlen : length x ≤ largest (flow x)) : (t.serve x).Chained flow length largest := by
  have hnow : (t.serve x).now = max t.now (t.start x) := rfl
  refine ⟨fun y hy z hz => hc.apart y hy.1 z hz.1, fun y hy => hc.below y hy.1, fun y hy hle => ?_, fun y hy => ?_, fun k => ?_⟩
  · have hle : max t.now (t.start x) ≤ t.start y := hle
    refine (hc.joined y hy.1 (by omega)).imp_right ?_
    rintro ⟨z, hz, hk, he⟩
    refine ⟨z, ⟨hz, ?_⟩, hk, he⟩
    rintro rfl
    have := hpos y
    omega
  · rw [hnow]
    rcases hc.first y hy.1 with hl | ⟨z, hz, hk, he⟩
    · exact Or.inl (hl.trans (Nat.add_le_add_right (Nat.le_max_left _ _) _))
    · by_cases hzx : z = x
      · subst hzx
        rw [← hk]
        exact Or.inl (he.symm.trans_le (Nat.add_le_add (Nat.le_max_right _ _) hlen))
      · exact Or.inr ⟨z, ⟨hz, hzx⟩, hk, he⟩
  · rw [hnow]
    rcases hc.last k with hl | ⟨z, hz, hk, he⟩
    · exact Or.inl (hl.trans (Nat.add_le_add_right (Nat.le_max_left _ _) _))
    · by_cases hzx : z = x
      · subst hzx
        rw [hk] at hlen
        exact Or.inl (he.symm.trans_le (Nat.add_le_add (Nat.le_max_right _ _) hlen))
      · exact Or.inr ⟨z, ⟨hz, hzx⟩, hk, he⟩

theorem Ahead.serve (ha : t.Ahead) (hx : t.Least x) : (t.serve x).Ahead := fun y hy =>
  max_le (ha y hy.1) (hx.2 y hy.1)

/-- A flow whose first packet goes out starts where that one ended. -/
theorem Head.serve_self (hc : t.Chained flow length largest) (hpos : ∀ x, 0 < length x) (ha : t.Ahead) (hx : t.Least x)
    (hw : (t.serve x).Waits flow (flow x)) : (t.serve x).Head flow (flow x) (t.start x + length x) := by
  have hafter : ∀ y ∈ (t.serve x).pending, flow y = flow x → t.start x + length x ≤ t.start y := by
    rintro y ⟨hy, hne⟩ hk
    have hle := hx.2 y hy
    rcases hc.apart x hx.1 y hy hk.symm (Ne.symm hne) with h | h
    · exact h
    · have := hpos y
      omega
  refine ⟨?_, hafter⟩
  rcases hc.joined x hx.1 (ha x hx.1) with he | ⟨y, hy, hk, he⟩
  · obtain ⟨y, hy, hk⟩ := hw
    have hle := hafter y hy hk
    have hb := hc.below y hy.1
    rw [hk] at hb
    have := hpos y
    omega
  · refine ⟨y, ⟨hy, ?_⟩, hk, he⟩
    rintro rfl
    have := hpos y
    omega

theorem Head.serve_other (hh : t.Head flow k h) (hk : flow x ≠ k) : (t.serve x).Head flow k h := by
  obtain ⟨⟨y, hy, hky, he⟩, hleast⟩ := hh
  exact ⟨⟨y, ⟨hy, by rintro rfl; exact hk hky⟩, hky, he⟩, fun z hz => hleast z hz.1⟩

theorem Waits.of_serve (hw : (t.serve x).Waits flow k) : t.Waits flow k := by
  obtain ⟨y, hy, hk⟩ := hw
  exact ⟨y, hy.1, hk⟩

/-! ### Served alike -/

/-- How far a flow that waits has come since `t₀`, where it had been served `w₀`: its least tag
has moved on by what it was served. -/
def Advanced (flow : ι → κ) (t₀ : Tags ι κ) (w₀ : κ → ℕ) (t : Tags ι κ) (w : κ → ℕ) (k : κ) : Prop :=
  ∃ h₀ h, t₀.Head flow k h₀ ∧ t.Head flow k h ∧ w k + h₀ = w₀ k + h

theorem Waits.advanced {w : κ → ℕ} (hw : t.Waits flow k) : Advanced flow t w t w k := by
  obtain ⟨h, hh⟩ := hw.exists_head
  exact ⟨h, h, hh, hh, rfl⟩

variable {t₀ : Tags ι κ} {w₀ w : κ → ℕ}

theorem Advanced.join [DecidableEq κ] [DecidableEq ι] (hadv : Advanced flow t₀ w₀ t w k) (hc : t.Chained flow length largest) (hx : x ∉ t.pending) :
    Advanced flow t₀ w₀ (t.join flow length x) w k := by
  obtain ⟨h₀, h, hh₀, hh, he⟩ := hadv
  exact ⟨h₀, h, hh₀, hh.join hc hx, he⟩

theorem Advanced.serve [DecidableEq κ] (hadv : Advanced flow t₀ w₀ t w k) (hc : t.Chained flow length largest) (hpos : ∀ x, 0 < length x)
    (ha : t.Ahead) (hx : t.Least x) (hw : (t.serve x).Waits flow k) :
    Advanced flow t₀ w₀ (t.serve x) (Function.update w (flow x) (w (flow x) + length x)) k := by
  obtain ⟨h₀, h, hh₀, hh, he⟩ := hadv
  by_cases hk : flow x = k
  · subst hk
    have hfirst : t.start x = h := Head.unique ⟨⟨x, hx.1, rfl, rfl⟩, fun y hy _ => hx.2 y hy⟩ hh
    refine ⟨h₀, h + length x, hh₀, hfirst ▸ Head.serve_self hc hpos ha hx hw, ?_⟩
    rw [Function.update_self]
    omega
  · refine ⟨h₀, h, hh₀, hh.serve_other hk, ?_⟩
    rw [Function.update_of_ne (Ne.symm hk)]
    exact he

/-- Of two flows that have waited since `t₀`, neither has been served more than the other by more
than a packet of each. -/
theorem Advanced.alike {k k' : κ} (h₀ : t₀.Chained flow length largest) (ha₀ : t₀.Ahead) (hc : t.Chained flow length largest)
    (ha : t.Ahead) (hpos : ∀ x, 0 < length x) (hk : Advanced flow t₀ w₀ t w k) (hk' : Advanced flow t₀ w₀ t w k') :
    w k + w₀ k' ≤ w k' + w₀ k + (largest k + largest k') := by
  obtain ⟨a₀, a, ha₀', ha', he⟩ := hk
  obtain ⟨b₀, b, hb₀, hb, he'⟩ := hk'
  have h1 := ha₀'.now_le ha₀
  have h2 := hb₀.le_now hpos h₀
  have h3 := ha'.le_now hpos hc
  have h4 := hb.now_le ha
  omega

end Tags

end BlorgFS.Lib

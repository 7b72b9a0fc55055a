import BlorgFS.DiskCache.IndexRuns
import BlorgFS.Lib.History

/-! Admission on the second miss, `BlorgDiskCacheIndexReserve`. A first miss shifts its tag
into a set of ghosts and an admission takes it out again where it stands, so a tag's place in
its set is the number of first misses the set has had since its own. -/

namespace BlorgFS.DiskCache

open Lib

/-! ### What a section does to the ghosts -/

namespace Index

variable {idx idx' : Index} {key : Key}

structure SameGhosts (idx idx' : Index) : Prop where
  ghosts : idx'.ghosts = idx.ghosts
  mask : idx'.ghostMask = idx.ghostMask

theorem SameGhosts.refl (idx : Index) : SameGhosts idx idx := ⟨rfl, rfl⟩

theorem SameGhosts.trans {idx₁ idx₂ idx₃ : Index} (h : SameGhosts idx₁ idx₂) (h' : SameGhosts idx₂ idx₃) : SameGhosts idx₁ idx₃ :=
  ⟨h'.ghosts.trans h.ghosts, h'.mask.trans h.mask⟩

theorem modify_ghosts (slot : ℕ) (f : Slot → Slot) : SameGhosts idx (idx.modify slot f) := ⟨rfl, rfl⟩

theorem unlink_ghosts {slot : ℕ} (h : idx.unlink slot = some idx') : SameGhosts idx idx' := by
  obtain ⟨link, -, h⟩ := Option.bind_eq_some_iff.mp h
  cases h
  have hwrite := write_relinked idx (idx.next slot) link
  exact ⟨hwrite.ghosts, hwrite.ghostMask⟩

theorem pinBlocks_ghosts {n pinned : ℕ} {slots : List (Option ℕ)} (h : idx.pinBlocks key n = some (slots, pinned, idx')) : SameGhosts idx idx' := by
  induction n generalizing idx key slots pinned with
  | zero =>
    cases h
    exact .refl _
  | succ n ih =>
    obtain ⟨found, -, h⟩ := Option.bind_eq_some_iff.mp h
    cases found with
    | none =>
      obtain ⟨⟨slots', pinned', idx₁⟩, hrest, h⟩ := Option.bind_eq_some_iff.mp h
      cases h
      exact ih hrest
    | some slot =>
      simp only at h
      split at h
      next =>
        obtain ⟨⟨slots', pinned', idx₁⟩, hrest, h⟩ := Option.bind_eq_some_iff.mp h
        cases h
        exact (modify_ghosts slot _).trans (ih hrest)
      next =>
        obtain ⟨⟨slots', pinned', idx₁⟩, hrest, h⟩ := Option.bind_eq_some_iff.mp h
        cases h
        exact ih hrest

theorem unpin_ghosts {served : Bool} {slots : List (Option ℕ)} (h : idx.unpin served slots = some idx') : SameGhosts idx idx' := by
  induction slots generalizing idx with
  | nil =>
    cases h
    exact .refl _
  | cons slot slots ih =>
    cases slot with
    | none => exact ih h
    | some slot =>
      simp only [unpin] at h
      split at h
      next => exact (modify_ghosts slot _).trans (ih h)
      next => cases h

theorem planRounds_ghosts {maxRuns fuel : ℕ} {slots slots' : List (Option ℕ)} {held held' : ℤ}
    (h : planRounds maxRuns fuel idx slots held = some (held', slots', idx')) : SameGhosts idx idx' := by
  induction fuel generalizing idx slots held with
  | zero => cases h
  | succ fuel ih =>
    simp only [planRounds] at h
    split at h
    next =>
      cases h
      exact .refl _
    next =>
      obtain ⟨idx₁, hunpin, h⟩ := Option.bind_eq_some_iff.mp h
      exact (unpin_ghosts hunpin).trans (ih h)

theorem victimFrom_ghosts (looked : ℕ) (fallback : Option ℕ) : SameGhosts idx (victimFrom looked fallback idx).2 := by
  induction looked generalizing idx fallback with
  | zero => exact .refl _
  | succ looked ih =>
    have hmove : ∀ hand, SameGhosts idx { idx with hand := hand } := fun _ => ⟨rfl, rfl⟩
    simp only [victimFrom]
    split
    next => exact (hmove _).trans (ih fallback)
    next =>
      split
      next => exact ((hmove _).trans (modify_ghosts ..)).trans (ih _)
      next => exact hmove _

theorem victim_ghosts (idx : Index) : SameGhosts idx idx.victim.2 := victimFrom_ghosts _ none

theorem commit_ghosts {slot : ℕ} {written : Bool} (h : idx.commit slot written = some idx') : SameGhosts idx idx' := by
  unfold commit at h
  split at h
  next =>
    split at h
    next =>
      cases h
      exact modify_ghosts slot _
    next =>
      obtain ⟨idx₁, hunlink, rfl⟩ := Option.map_eq_some_iff.mp h
      exact (unlink_ghosts hunlink).trans (modify_ghosts slot _)
  next => cases h

/-! ### Ways -/

/-- `tag` of `BlorgDiskCacheIndexReserve`. -/
def tagOf (key : Key) : ℕ := mix key ||| 1

theorem tagOf_ne_zero (key : Key) : tagOf key ≠ 0 := fun h => absurd (Nat.right_le_or (n := mix key) (m := 1)) (by rw [show mix key ||| 1 = 0 from h]; decide)

theorem ghostWay_eq_ghostWays {base tag : ℕ} (h : idx.ghostWay base tag = ghostWays) : ∀ way < ghostWays, idx.ghosts (base + way) ≠ tag := by
  unfold ghostWay at h
  cases hf : (List.range ghostWays).find? fun way => idx.ghosts (base + way) = tag with
  | none =>
    intro way hway
    simpa using List.find?_eq_none.mp hf way (List.mem_range.mpr hway)
  | some way =>
    rw [hf] at h
    have := List.mem_range.mp (List.mem_of_find?_eq_some hf)
    simp only [Option.getD_some] at h
    omega

theorem ghostWay_spec {base tag : ℕ} (h : idx.ghostWay base tag ≠ ghostWays) :
    idx.ghostWay base tag < ghostWays ∧ idx.ghosts (base + idx.ghostWay base tag) = tag := by
  unfold ghostWay at h ⊢
  cases hf : (List.range ghostWays).find? fun way => idx.ghosts (base + way) = tag with
  | none =>
    rw [hf] at h
    exact absurd rfl h
  | some way =>
    exact ⟨List.mem_range.mp (List.mem_of_find?_eq_some hf), by simpa using List.find?_some hf⟩

@[simp] theorem pushGhost_zero (base tag : ℕ) : (idx.pushGhost base tag).ghosts base = tag := if_pos rfl

theorem pushGhost_succ (base tag : ℕ) {way : ℕ} (h : way + 1 < ghostWays) :
    (idx.pushGhost base tag).ghosts (base + (way + 1)) = idx.ghosts (base + way) := by
  show (if base + (way + 1) = base then tag else if _ then _ else _) = _
  rw [if_neg (by omega), if_pos (by omega)]
  rfl

/-- The sets do not overlap. -/
theorem pushGhost_other {set other way : ℕ} (tag : ℕ) (h : other ≠ set) (hway : way < ghostWays) :
    (idx.pushGhost (set * ghostWays) tag).ghosts (other * ghostWays + way) = idx.ghosts (other * ghostWays + way) := by
  unfold ghostWays at hway
  show (if other * ghostWays + way = set * ghostWays then tag else if _ then _ else _) = _
  unfold ghostWays
  rw [if_neg (by omega), if_neg (by omega)]

/-- What a reserve does to the ghosts, by its answer. -/
def GhostsAfter (idx : Index) (key : Key) (ghosts : ℕ → ℕ) : Admit → Prop
  | .held => ghosts = idx.ghosts
  | .firstMiss => idx.ghostWay (idx.ghostBase (mix key)) (tagOf key) = ghostWays ∧
      ghosts = (idx.pushGhost (idx.ghostBase (mix key)) (tagOf key)).ghosts
  | .noVictim => idx.ghostWay (idx.ghostBase (mix key)) (tagOf key) ≠ ghostWays ∧ ghosts = idx.ghosts
  | .reserved => idx.ghostWay (idx.ghostBase (mix key)) (tagOf key) ≠ ghostWays ∧
      ghosts = Function.update idx.ghosts (idx.ghostBase (mix key) + idx.ghostWay (idx.ghostBase (mix key)) (tagOf key)) 0

theorem reserve_ghosts {answer : Admit} {slot : Option ℕ} (h : idx.reserve key = some (answer, slot, idx')) :
    idx'.ghostMask = idx.ghostMask ∧ idx.GhostsAfter key idx'.ghosts answer := by
  obtain ⟨held, -, h⟩ := Option.bind_eq_some_iff.mp h
  split at h
  next =>
    cases h
    exact ⟨rfl, rfl⟩
  next =>
    split at h
    next hway =>
      cases h
      exact ⟨rfl, hway, rfl⟩
    next hway =>
      rcases hvictim : idx.victim with ⟨_ | victim, idx₁⟩
      · have hsame := victim_ghosts idx
        rw [hvictim] at h hsame
        cases h
        exact ⟨hsame.mask, hway, hsame.ghosts⟩
      · have hsame := victim_ghosts idx
        rw [hvictim] at h hsame
        obtain ⟨idx₂, hdetach, h⟩ := Option.bind_eq_some_iff.mp h
        cases h
        have hsame₂ : SameGhosts idx₁ idx₂ := by
          unfold detach at hdetach
          split at hdetach
          next => exact unlink_ghosts hdetach
          next =>
            cases hdetach
            exact .refl _
        have hboth := hsame.trans hsame₂
        refine ⟨hboth.mask, hway, ?_⟩
        show Function.update idx₂.ghosts _ 0 = _
        rw [hboth.ghosts]
        rfl

end Index

/-! ### Histories of answers -/

/-- What a reserve was asked, the first way of its set and its tag, and what it answered. -/
structure Answer where
  base : ℕ
  tag : ℕ
  told : Admit
  deriving DecidableEq, Repr

namespace Answer

/-- A tag enters the set at `base`. -/
def Enters (base : ℕ) (e : Answer) : Prop := e.base = base ∧ e.told = .firstMiss

/-- The tag is admitted out of the set at `base`. -/
def Admits (base tag : ℕ) (e : Answer) : Prop := e.base = base ∧ e.tag = tag ∧ e.told = .reserved

instance (base : ℕ) : DecidablePred (Enters base) := fun _ => inferInstanceAs (Decidable (_ ∧ _))
instance (base tag : ℕ) : DecidablePred (Admits base tag) := fun _ => inferInstanceAs (Decidable (_ ∧ _ ∧ _))

end Answer

/-- The tag entered its set, `age` tags have entered the set since, and it has not been admitted. -/
def Recorded (base tag age : ℕ) (answers : List Answer) : Prop :=
  ∃ since before, answers = since ++ ⟨base, tag, .firstMiss⟩ :: before ∧ (∀ e ∈ since, ¬ e.Admits base tag) ∧
    since.countP (fun e => e.Enters base) = age

variable {base tag age : ℕ} {answers : List Answer} {e : Answer}

theorem Recorded.enter : Recorded base tag 0 (⟨base, tag, .firstMiss⟩ :: answers) := ⟨[], answers, rfl, nofun, rfl⟩

theorem Recorded.cons (h : Recorded base tag age answers) (he : ¬ e.Admits base tag) :
    Recorded base tag (age + if e.Enters base then 1 else 0) (e :: answers) := by
  obtain ⟨since, before, rfl, hnot, hage⟩ := h
  refine ⟨e :: since, before, rfl, List.forall_mem_cons.mpr ⟨he, hnot⟩, ?_⟩
  rw [List.countP_cons, hage]
  simp

/-- An admission is of a tag that entered its set before, has not been admitted since, and has
had fewer tags enter after it than the set has ways. -/
def OnSecondMiss (e : Answer) (before : List Answer) : Prop :=
  e.told = .reserved → ∃ age < ghostWays, Recorded e.base e.tag age before

/-! ### Runs of any sections -/

/-- The index, and every answer so far, the newest first. -/
structure Admissions where
  world : World
  answers : List Answer

namespace Admissions

/-- The answers after a section. -/
def logged (a : Admissions) : Op → List Answer
  | .reserve key => ((a.world.index.reserve key).map fun r => (⟨a.world.index.ghostBase (mix key), Index.tagOf key, r.1⟩ : Answer)).toList ++ a.answers
  | _ => a.answers

def next (a : Admissions) (op : Op) : Option Admissions := (a.world.exec op).map fun world => ⟨world, a.logged op⟩

end Admissions

/-- Sections in any order from a new index on, whoever runs them. -/
def admissions : System Admissions where
  init a := World.system.init a.world ∧ a.answers = []
  step a a' := ∃ op, a.next op = some a'

namespace Admissions

variable {a a' : Admissions}

/-- A tag is as many ways into its set as tags have entered since, and is there once. -/
structure Inv (a : Admissions) : Prop where
  aged : ∀ set way, way < ghostWays → a.world.index.ghosts (set * ghostWays + way) ≠ 0 →
    Recorded (set * ghostWays) (a.world.index.ghosts (set * ghostWays + way)) way a.answers
  once : ∀ set way way', way < ghostWays → way' < ghostWays → a.world.index.ghosts (set * ghostWays + way) ≠ 0 →
    a.world.index.ghosts (set * ghostWays + way) = a.world.index.ghosts (set * ghostWays + way') → way = way'
  second : Throughout OnSecondMiss a.answers

theorem init_inv (h : admissions.init a) : a.Inv := by
  obtain ⟨⟨pool, slotCount, hinit, -⟩, hnil⟩ := h
  have hghosts : ∀ i, a.world.index.ghosts i = 0 := by
    unfold Index.indexInitialize at hinit
    split_ifs at hinit
    intro i
    rw [← Except.ok.inj hinit]
  refine ⟨fun set way _ hne => absurd (hghosts _) hne, fun set way way' _ _ hne => absurd (hghosts _) hne, ?_⟩
  rw [hnil]
  trivial

/-- A section that is not a reserve leaves the ghosts. -/
theorem exec_ghosts {op : Op} {world : World} (h : a.world.exec op = some world) (hop : ∀ key, op ≠ .reserve key) :
    Index.SameGhosts a.world.index world.index := by
  cases op with
  | reserve key => exact absurd rfl (hop key)
  | pinHeld client key lastBlock =>
    obtain ⟨⟨slots, pinned, idx⟩, hpin, h⟩ := Option.bind_eq_some_iff.mp h
    cases h
    exact Index.pinBlocks_ghosts hpin
  | unpin taken slots served =>
    obtain ⟨idx, hunpin, h⟩ := Option.bind_eq_some_iff.mp h
    cases h
    exact Index.unpin_ghosts hunpin
  | planRead client key slots held maxRuns =>
    obtain ⟨⟨held', slots', idx⟩, hplan, h⟩ := Option.bind_eq_some_iff.mp h
    cases h
    exact Index.planRounds_ghosts hplan
  | commit slot written =>
    obtain ⟨idx, hcommit, h⟩ := Option.bind_eq_some_iff.mp h
    cases h
    exact Index.commit_ghosts hcommit

/-- The ghosts as they were, and an event that no tag enters or leaves with. -/
theorem Inv.same (h : a.Inv) (hg : Index.SameGhosts a.world.index a'.world.index)
    (hanswers : a'.answers = a.answers ∨ ∃ e, a'.answers = e :: a.answers ∧ e.told ≠ .firstMiss ∧ e.told ≠ .reserved) : a'.Inv := by
  have hsecond : Throughout OnSecondMiss a'.answers := by
    rcases hanswers with he | ⟨e, he, -, hadmit⟩ <;> rw [he]
    · exact h.second
    · exact h.second.cons fun hr => absurd hr hadmit
  have hrecorded : ∀ {base tag age : ℕ}, Recorded base tag age a.answers → Recorded base tag age a'.answers := by
    intro base tag age hr
    rcases hanswers with he | ⟨e, he, henter, hadmit⟩ <;> rw [he]
    · exact hr
    · have hcons := hr.cons (e := e) fun hadmits => hadmit hadmits.2.2
      rwa [if_neg fun henters => henter henters.2] at hcons
  refine ⟨fun set way hway hne => ?_, ?_, hsecond⟩
  · rw [hg.ghosts] at hne ⊢
    exact hrecorded (h.aged set way hway hne)
  · rw [hg.ghosts]
    exact h.once

/-- A first miss: its tag is there now, and what was there is one way further on. -/
theorem Inv.entered {set tag : ℕ} (h : a.Inv) (hnew : ∀ way < ghostWays, a.world.index.ghosts (set * ghostWays + way) ≠ tag)
    (hg : a'.world.index.ghosts = (a.world.index.pushGhost (set * ghostWays) tag).ghosts)
    (hanswers : a'.answers = ⟨set * ghostWays, tag, .firstMiss⟩ :: a.answers) : a'.Inv := by
  have hnot : ∀ base tag', ¬ Answer.Admits base tag' ⟨set * ghostWays, tag, .firstMiss⟩ := fun _ _ hadmits => by cases hadmits.2.2
  refine ⟨fun other way hway hne => ?_, fun other way way' hway hway' hne he => ?_, ?_⟩
  · rw [hg] at hne ⊢
    rw [hanswers]
    by_cases ho : other = set
    · subst ho
      cases way with
      | zero =>
        rw [Nat.add_zero, Index.pushGhost_zero]
        exact .enter
      | succ way =>
        rw [Index.pushGhost_succ _ _ hway] at hne ⊢
        have hcons := (h.aged other way (by omega) hne).cons (hnot _ _)
        rwa [if_pos ⟨rfl, rfl⟩] at hcons
    · rw [Index.pushGhost_other tag ho hway] at hne ⊢
      have hcons := (h.aged other way hway hne).cons (hnot _ _)
      have hbase : ¬ Answer.Enters (other * ghostWays) ⟨set * ghostWays, tag, .firstMiss⟩ := fun henters =>
        ho (Nat.eq_of_mul_eq_mul_right (by decide) henters.1).symm
      rwa [if_neg hbase] at hcons
  · rw [hg] at hne he
    by_cases ho : other = set
    · subst ho
      cases way with
      | zero =>
        cases way' with
        | zero => rfl
        | succ way' =>
          rw [Nat.add_zero, Index.pushGhost_zero, Index.pushGhost_succ _ _ hway'] at he
          exact absurd he.symm (hnew way' (by omega))
      | succ way =>
        rw [Index.pushGhost_succ _ _ hway] at hne he
        cases way' with
        | zero =>
          rw [Nat.add_zero, Index.pushGhost_zero] at he
          exact absurd he (hnew way (by omega))
        | succ way' =>
          rw [Index.pushGhost_succ _ _ hway'] at he
          rw [h.once other way way' (by omega) (by omega) hne he]
    · rw [Index.pushGhost_other tag ho hway] at hne he
      rw [Index.pushGhost_other tag ho hway'] at he
      exact h.once other way way' hway hway' hne he
  · rw [hanswers]
    exact h.second.cons nofun

/-- An admission: its tag was recorded, and is not there any more. -/
theorem Inv.admitted {set way tag : ℕ} (h : a.Inv) (hway : way < ghostWays) (htag : a.world.index.ghosts (set * ghostWays + way) = tag) (hne : tag ≠ 0)
    (hg : a'.world.index.ghosts = Function.update a.world.index.ghosts (set * ghostWays + way) 0)
    (hanswers : a'.answers = ⟨set * ghostWays, tag, .reserved⟩ :: a.answers) : a'.Inv := by
  have hkept : ∀ {i}, a'.world.index.ghosts i ≠ 0 → i ≠ set * ghostWays + way ∧ a'.world.index.ghosts i = a.world.index.ghosts i := by
    intro i hi
    rw [hg] at hi ⊢
    by_cases he : i = set * ghostWays + way
    · subst he
      rw [Function.update_self] at hi
      exact absurd rfl hi
    · exact ⟨he, Function.update_of_ne he ..⟩
  subst htag
  refine ⟨fun other way' hway' hne' => ?_, fun other way₁ way₂ hway₁ hway₂ hne' he => ?_, ?_⟩
  · obtain ⟨hi, hsame⟩ := hkept hne'
    rw [hsame] at hne' ⊢
    rw [hanswers]
    have hnot : ¬ Answer.Admits (other * ghostWays) (a.world.index.ghosts (other * ghostWays + way'))
        ⟨set * ghostWays, a.world.index.ghosts (set * ghostWays + way), .reserved⟩ := by
      rintro ⟨hbase, htag, -⟩
      obtain rfl : set = other := Nat.eq_of_mul_eq_mul_right (by decide) hbase
      exact hi (congrArg _ (h.once set way' way hway' hway hne' htag.symm))
    have hcons := (h.aged other way' hway' hne').cons hnot
    rwa [if_neg fun henters => by cases henters.2] at hcons
  · obtain ⟨-, hsame₁⟩ := hkept hne'
    obtain ⟨-, hsame₂⟩ := hkept (he ▸ hne')
    rw [hsame₁] at hne' he
    rw [hsame₂] at he
    exact h.once other way₁ way₂ hway₁ hway₂ hne' he
  · rw [hanswers]
    exact h.second.cons fun _ => ⟨way, hway, h.aged set way hway hne⟩

theorem next_inv {op : Op} (h : a.Inv) (hs : a.next op = some a') : a'.Inv := by
  obtain ⟨world, hexec, rfl⟩ := Option.map_eq_some_iff.mp hs
  cases op with
  | reserve key =>
    obtain ⟨⟨answer, slot, idx⟩, hreserve, hw⟩ := Option.bind_eq_some_iff.mp hexec
    cases hw
    have hlog : a.logged (.reserve key) = ⟨a.world.index.ghostBase (mix key), Index.tagOf key, answer⟩ :: a.answers := by
      simp only [logged, hreserve, Option.map_some, Option.toList_some, List.singleton_append]
    obtain ⟨hmask, hg⟩ := Index.reserve_ghosts hreserve
    cases answer with
    | held => exact h.same ⟨hg, hmask⟩ (.inr ⟨_, hlog, nofun, nofun⟩)
    | noVictim => exact h.same ⟨hg.2, hmask⟩ (.inr ⟨_, hlog, nofun, nofun⟩)
    | firstMiss => exact h.entered (Index.ghostWay_eq_ghostWays hg.1) hg.2 hlog
    | reserved =>
      obtain ⟨hway, htag⟩ := Index.ghostWay_spec hg.1
      exact h.admitted hway htag (Index.tagOf_ne_zero key) hg.2 hlog
  | _ => exact h.same (exec_ghosts hexec nofun) (.inl rfl)

theorem reachable_inv (h : admissions.Reachable a) : a.Inv :=
  System.invariant (fun _ => init_inv) (fun _ _ _ hi ⟨_, hs⟩ => next_inv hi hs) h

/-- A block is admitted only if its tag entered its set of ghosts before, has not been admitted
since, and fewer tags than the set has ways entered it in between; no tag is twice in a set;
and an answer that the block is held, or that no slot can be given up, leaves the ghosts, so
that the next miss of a block whose tag is recorded is still its second. -/
theorem admitted_on_second_miss (h : admissions.Reachable a) :
    Throughout OnSecondMiss a.answers ∧
      (∀ set way way', way < ghostWays → way' < ghostWays → a.world.index.ghosts (set * ghostWays + way) ≠ 0 →
        a.world.index.ghosts (set * ghostWays + way) = a.world.index.ghosts (set * ghostWays + way') → way = way') ∧
      ∀ key answer slot idx, a.world.index.reserve key = some (answer, slot, idx) → answer = .noVictim ∨ answer = .held →
        idx.ghosts = a.world.index.ghosts ∧
          (answer = .noVictim ∨ a.world.index.ghostWay (a.world.index.ghostBase (mix key)) (Index.tagOf key) ≠ ghostWays →
            ∀ r, idx.reserve key = some r → r.1 ≠ .firstMiss) := by
  have hinv := reachable_inv h
  refine ⟨hinv.second, hinv.once, fun key answer slot idx hreserve hanswer => ?_⟩
  obtain ⟨hmask, hg⟩ := Index.reserve_ghosts hreserve
  have hsame : idx.ghosts = a.world.index.ghosts := by
    rcases hanswer with rfl | rfl
    · exact hg.2
    · exact hg
  refine ⟨hsame, fun hrecorded r hr he => ?_⟩
  have hway : a.world.index.ghostWay (a.world.index.ghostBase (mix key)) (Index.tagOf key) ≠ ghostWays := by
    rcases hrecorded with rfl | hway
    · exact hg.1
    · exact hway
  obtain ⟨answer', slot', idx'⟩ := r
  obtain rfl : answer' = .firstMiss := he
  obtain ⟨-, hfirst⟩ := Index.reserve_ghosts hr
  refine hway ?_
  have hnone := hfirst.1
  unfold Index.ghostWay Index.ghostBase at hnone ⊢
  rwa [hsame, hmask] at hnone

/-- A block missed once, another missed, and the first missed again. -/
def missedTwice : List Op := [.reserve ⟨1, 2, 3, 4, 0⟩, .reserve ⟨1, 2, 3, 4, 1⟩, .reserve ⟨1, 2, 3, 4, 0⟩]

theorem admitted_on_second_miss_missedTwice :
    ∃ a : Admissions, a.answers.map Answer.told = [.reserved, .firstMiss, .firstMiss] ∧ Throughout OnSecondMiss a.answers := by
  have hany : (run next ⟨World.twoSlots, []⟩ missedTwice).any
      (fun a => decide (a.answers.map Answer.told = [.reserved, .firstMiss, .firstMiss])) = true := by decide +kernel
  obtain ⟨a, hs, ha⟩ := (Option.any_eq_true _ _).mp hany
  have hnext : ∀ a op a', next a op = some a' → admissions.step a a' := fun _ op _ h => ⟨op, h⟩
  have h0 : admissions.Reachable ⟨World.twoSlots, []⟩ := .init ⟨⟨true, 2, rfl, rfl, rfl⟩, rfl⟩
  exact ⟨a, of_decide_eq_true ha, (admitted_on_second_miss (h0.run hnext hs)).1⟩

end Admissions

end BlorgFS.DiskCache

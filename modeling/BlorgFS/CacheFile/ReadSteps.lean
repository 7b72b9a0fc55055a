import BlorgFS.CacheFile.FillSteps
import Mathlib.Data.Multiset.OrderedMonoid

/-! Reads: blocks pinned and planned, parts issued, served from the file or the server,
and the read settled. A part writes only its own bytes of the buffer and adds to `Bytes`
no more than its length, so `Bytes` reaching `Span` says that every part was served
whole; and what a part is served with is right, because its slots are pinned or its body
is of the read's own version. -/

namespace BlorgFS.CacheFile

open Lib DiskCache

variable {content : Version → ℕ → UInt8} {c c' : Core} {ch : Choice} {job : Job} {rest new others : List Job} {r : ℕ}
  {read read' : CacheRead}

/-! ### Crews at work -/

/-- What does not change while a read's parts are served. -/
structure CacheRead.Kept (read read' : CacheRead) : Prop where
  key : read'.key = read.key
  offset : read'.offset = read.offset
  valid : read'.valid = read.valid
  slots : read'.slots = read.slots
  issued : read'.issued = read.issued
  span : read'.span = read.span
  stage : read'.stage = read.stage

theorem CacheRead.Shaped.congr (h : read.Shaped) (hkey : read'.key = read.key) (hoffset : read'.offset = read.offset)
    (hvalid : read'.valid = read.valid) : read'.Shaped := by
  refine ⟨?_, ?_, ?_, ?_, ?_⟩
  · rw [hkey, hoffset]
    exact h.block
  · rw [hoffset]
    exact h.page
  · rw [hvalid]
    exact h.pos
  · rw [hkey, hoffset, hvalid]
    exact h.fits
  · rw [hoffset, hvalid]
    exact h.blocks

theorem CacheRead.Inv.of_serving (hs : read.stage = .serving) (hshape : read.Shaped) (h : read.Serving content others) :
    read.Inv content others :=
  ⟨fun _ => hshape, by simp [hs], fun _ => h, by simp [hs]⟩

theorem CacheRead.Inv.of_setUp (hs : read.stage = .setUp) (hshape : read.Shaped) (h : job.Prepares read) :
    read.Inv content [job] :=
  ⟨fun _ => hshape, fun _ => ⟨job, rfl, h⟩, by simp [hs], by simp [hs]⟩

theorem CacheRead.Inv.of_ended (hs : read.stage = .ended) : read.Inv content [] :=
  ⟨by simp [hs], by simp [hs], by simp [hs], fun _ => rfl⟩

/-- Another job's bytes are not this one's. -/
theorem CacheRead.Serving.disjoint (h : read.Serving content (job :: others)) {other : Job} (ho : other ∈ others) {p : ℕ}
    (hp : other.covers p = 1) : job.covers p = 0 := by
  have h1 := h.once p
  have h2 := le_tally (f := Job.covers p) ho
  rw [tally_cons] at h1
  omega

/-- A part or an idle job is exchanged for what comes after it. Its bytes may have been
written, and counted up to its length; if all were counted they are right. -/
theorem CacheRead.Serving.exchange (h : read.Serving content (job :: others)) (hk : read.Kept read')
    (hlead : job.leads = 0) (hissued : 0 < read.issued)
    (hnew : ∀ j ∈ new, j.Serves content read' ∧ j.leads = 0)
    (hbuffer : ∀ p, job.covers p = 0 → read'.buffer p = read.buffer p)
    (husers : read'.outstanding = read.outstanding + new.length - 1)
    (hrefetch : read.refetch ≠ 0 → read'.refetch ≠ 0)
    (hcovers : ∀ p, tally (Job.covers p) new ≤ job.covers p)
    (hbytes : read'.bytes + tally Job.length new ≤ read.bytes + job.length)
    (hright : read'.bytes + tally Job.length new = read.bytes + job.length → ∀ p, p < read.valid → job.covers p ≠ 0 →
      tally (Job.covers p) new = 0 → read'.Right content p) :
    read'.Serving content (new ++ others) := by
  have hnolead : tally Job.leads new = 0 := tally_eq_zero fun j hj => (hnew j hj).2
  have hkeep : ∀ p, job.covers p = 0 → read.Right content p → read'.Right content p := by
    intro p hp hr
    unfold CacheRead.Right at hr ⊢
    rw [hbuffer p hp, hk.key, hk.offset]
    exact hr
  refine ⟨fun j hj => ?_, ?_, ?_, fun hz => ?_, fun hz => ?_, fun p => ?_, ?_, fun heq p hp hv hc => ?_⟩
  · rcases List.mem_append.mp hj with hj | hj
    · exact (hnew j hj).1
    · have hserves := h.jobs j (List.mem_cons_of_mem _ hj)
      cases j <;> simp only [Job.Serves, CacheRead.Located, hk.issued, hk.offset, hk.valid, hk.slots] at hserves ⊢
      case readDone r pos length result =>
        refine ⟨hserves.1, fun n hn => ⟨(hserves.2 n hn).1, fun hall p h1 h2 h3 => ?_⟩⟩
        exact hkeep p (h.disjoint hj (if_pos ⟨h1, h2⟩)) ((hserves.2 n hn).2 hall p h1 h2 h3)
      all_goals exact hserves
  · have := h.users
    rw [List.length_cons] at this
    rw [List.length_append, husers]
    push_cast at this ⊢
    omega
  · have := h.lead
    rw [tally_cons] at this
    rw [tally_append]
    omega
  · rw [tally_append] at hz
    rw [hk.valid, hk.issued]
    exact (h.finished (by rw [tally_cons]; omega)).imp_left hrefetch
  · rw [hk.issued] at hz
    omega
  · have h1 := h.once p
    have h2 := hcovers p
    rw [tally_cons] at h1
    rw [tally_append, hk.issued]
    omega
  · have := h.within
    rw [tally_cons] at this
    rw [tally_append, hk.span]
    omega
  · rw [tally_append, hk.span] at heq
    have hwithin := h.within
    rw [tally_cons] at hwithin
    rw [hk.issued] at hp
    rw [hk.valid] at hv
    rw [tally_append] at hc
    by_cases hz : job.covers p = 0
    · apply hkeep p hz
      apply h.right (by rw [tally_cons]; omega) p hp hv
      rw [tally_cons]
      omega
    · exact hright (by omega) p hv hz (by omega)

/-! ### Releasing a read -/

theorem filter_pinsOf_self (r : ℕ) (key : Key) (slots : List (Option ℕ)) :
    (pinsOf r key slots : Multiset Pin).filter (fun p => p.client = r) = pinsOf r key slots :=
  Multiset.filter_eq_self.mpr fun _ hp => client_of_mem_pinsOf (Multiset.mem_coe.mp hp)

theorem filter_pinsOf_of_ne {k : ℕ} (h : k ≠ r) (key : Key) (slots : List (Option ℕ)) :
    (pinsOf r key slots : Multiset Pin).filter (fun p => p.client = k) = 0 :=
  Multiset.filter_eq_nil.mpr fun _ hp he => h (he.symm.trans (client_of_mem_pinsOf (Multiset.mem_coe.mp hp)))

theorem Sound.stage_ne_ended (h : Sound content c (job :: rest)) (hjob : job.reader = some r) :
    (c.reads r).stage ≠ .ended := by
  intro ho
  have := (h.reads r).ended ho
  rw [crew_cons_self hjob] at this
  cases this

theorem Sound.pins_le (h : Sound content c (job :: rest)) (hjob : job.reader = some r) :
    c.world.pinned.filter (fun p => p.client = r) = pinsOf r (c.reads r).key (c.reads r).slots := by
  rw [h.pins r, CacheRead.pins, if_neg (h.stage_ne_ended hjob)]

/-- The last hold on a read is dropped: its blocks are unpinned and it is freed. -/
theorem Sound.onRelease {served : Bool} {w : World} (h : Sound content c (job :: rest)) (hjob : job.reader = some r)
    (hcrew : crew r rest = [])
    (he : c.world.exec (.unpin (pinsOf r (c.reads r).key (c.reads r).slots) (c.reads r).slots served) = some w)
    (hover : read.stage = .ended) (hreads : c'.reads = Function.update c.reads r read) (hcount : c'.count = c.count)
    (hdisk : c'.disk = c.disk) (hworld : c'.world = w) (hsettled : ∀ e ∈ c'.settled, e.Right content) :
    Sound content c' rest := by
  have hmine := h.pins_le hjob
  have hallowed : c.world.Allowed (.unpin (pinsOf r (c.reads r).key (c.reads r).slots) (c.reads r).slots served) := by
    refine ⟨?_, pinsOf_map_slot _ _ _⟩
    rw [← hmine]
    exact Multiset.filter_le _ _
  obtain ⟨hi, hsteady, hpinned⟩ := World.unpin_steady h.world hallowed he
  subst hworld
  show Sound content c' ([] ++ rest)
  refine h.onRead hjob (by simp) hreads hcount hdisk hsettled hi hsteady (fun k => ?_) ?_
  · rw [hpinned, hreads, Multiset.filter_sub]
    by_cases hk : k = r
    · subst hk
      rw [Function.update_self, CacheRead.pins, if_pos hover, filter_pinsOf_self, hmine, tsub_self]
    · rw [Function.update_of_ne hk, filter_pinsOf_of_ne hk, Multiset.sub_zero, h.pins k]
  · rw [hcrew]
    exact CacheRead.Inv.of_ended hover

theorem drop_sound (h : Sound content c (.drop r :: c.flight rest))
    (hs : c.step ch (.drop r) = some (c', new)) : Sound content c' (new ++ c'.flight rest) := by
  obtain ⟨c₁, he, heq⟩ := Option.map_eq_some_iff.mp hs
  cases heq
  obtain ⟨w, hx, he⟩ := Option.bind_eq_some_iff.mp he
  cases he
  have hread := h.reads r
  rw [crew_cons_self rfl] at hread
  refine h.onRelease rfl ?_ hx rfl rfl rfl rfl rfl h.settled
  cases hstage : (c.reads r).stage with
  | setUp =>
    obtain ⟨job, hcrew, -⟩ := hread.setUp hstage
    exact (List.cons.inj hcrew).2
  | serving =>
    have hserving := hread.serving hstage
    have husers := hserving.users
    rw [hserving.first (hserving.jobs _ List.mem_cons_self), List.length_cons] at husers
    apply List.eq_nil_of_length_eq_zero
    push_cast at husers
    omega
  | ended => exact absurd hstage (h.stage_ne_ended rfl)

/-! ### Settling a read -/

/-- What a read that settles with success hands back is right. -/
theorem CacheRead.Serving.settled_right (h : read.Serving content [.settle r])
    (hrefetch : read.refetch = 0) (hbytes : read.bytes = read.span) (p : ℕ) (hp : p < read.valid) :
    read.Right content p := by
  have hissued : read.valid ≤ read.issued := (h.finished rfl).resolve_left (by simp [hrefetch])
  exact h.right hbytes p (hp.trans_le hissued) hp rfl

theorem settle_sound (h : Sound content c (.settle r :: c.flight rest))
    (hs : c.step ch (.settle r) = some (c', new)) : Sound content c' (new ++ c'.flight rest) := by
  have hread := h.reads r
  rw [crew_cons_self rfl] at hread
  have hstage : (c.reads r).stage = .serving := by
    cases hstage : (c.reads r).stage with
    | setUp =>
      obtain ⟨job, hcrew, hp⟩ := hread.setUp hstage
      obtain rfl := (List.cons.inj hcrew).1
      cases hp
    | serving => rfl
    | ended => exact absurd hstage (h.stage_ne_ended rfl)
  have hserving := hread.serving hstage
  simp only [Core.step, Core.settle] at hs
  split at hs
  next =>
    cases hs
    have hinv : CacheRead.Inv content { c.reads r with outstanding := (c.reads r).outstanding - 1 }
        ([] ++ crew r (c.flight rest)) := by
      refine CacheRead.Inv.of_serving hstage ((hread.shaped (by simp [hstage])).congr rfl rfl rfl) ?_
      refine hserving.exchange ⟨rfl, rfl, rfl, rfl, rfl, rfl, rfl⟩ rfl (hserving.jobs _ List.mem_cons_self) (by simp)
        (fun _ _ => rfl) (by simp) id (fun _ => Nat.le_refl _) (Nat.le_refl _) fun _ p _ hp => absurd rfl hp
    exact h.onBuffer rfl (by simp) rfl rfl rfl rfl rfl Iff.rfl rfl rfl hinv
  next hlast =>
    obtain ⟨c₁, he, hs⟩ := Option.bind_eq_some_iff.mp hs
    obtain ⟨w, hx, he⟩ := Option.bind_eq_some_iff.mp he
    cases he
    cases hs
    have hcrew : crew r (c.flight rest) = [] := by
      have husers := hserving.users
      rw [List.length_cons] at husers
      apply List.eq_nil_of_length_eq_zero
      push_cast at husers
      omega
    rw [hcrew] at hserving
    have hself : (c.setRead r { c.reads r with outstanding := (c.reads r).outstanding - 1 }).reads r =
        { c.reads r with outstanding := (c.reads r).outstanding - 1 } := Function.update_self ..
    rw [hself] at hx
    refine h.onRelease rfl hcrew hx rfl (Function.update_idem ..) rfl rfl rfl fun e he => ?_
    rcases List.mem_cons.mp he with rfl | he
    · -- Success without a refetch: nothing failed, nothing was stale, nothing fell short.
      intro hstatus hrefetch p hp
      simp only [decide_eq_false_iff_not, not_not] at hstatus hrefetch
      rw [if_neg (by simp [hrefetch])] at hstatus
      split at hrefetch
      next hshort =>
        rw [hshort.2.1] at hrefetch
        cases hrefetch
      next hfull =>
        have hbytes : (c.reads r).bytes = (c.reads r).span := by
          by_contra hne
          exact hfull ⟨hstatus, hrefetch, hne⟩
        exact hserving.settled_right hrefetch hbytes p hp
    · exact h.settled e he

/-! ### Setting a read up -/

theorem Sound.setUp_alone (h : Sound content c (job :: rest)) (hjob : job.reader = some r)
    (hstage : (c.reads r).stage = .setUp) : crew r rest = [] ∧ job.Prepares (c.reads r) := by
  have hread := h.reads r
  rw [crew_cons_self hjob] at hread
  obtain ⟨lead, hcrew, hp⟩ := hread.setUp hstage
  obtain ⟨rfl, hnil⟩ := List.cons.inj hcrew
  exact ⟨hnil, hp⟩

theorem Sound.setUp_of_serves (h : Sound content c (job :: rest)) (hjob : job.reader = some r)
    (hne : ∀ read, ¬ job.Serves content read) : (c.reads r).stage = .setUp := by
  have hread := h.reads r
  rw [crew_cons_self hjob] at hread
  cases hstage : (c.reads r).stage with
  | setUp => rfl
  | serving => exact absurd ((hread.serving hstage).jobs job List.mem_cons_self) (hne _)
  | ended => exact absurd hstage (h.stage_ne_ended hjob)

theorem blocksOf_eq (h : read.Shaped) :
    lastBlock read.offset read.valid + 1 - read.key.block = blocksOf read.offset read.valid := by
  have hpos := h.pos
  have hle : firstBlock read.offset ≤ lastBlock read.offset read.valid :=
    Nat.div_le_div_right (by unfold spanOf pageSize; omega)
  rw [h.block]
  unfold blocksOf
  omega

theorem pin_sound (h : Sound content c (.pin r :: c.flight rest))
    (hs : c.step ch (.pin r) = some (c', new)) : Sound content c' (new ++ c'.flight rest) := by
  have hstage := h.setUp_of_serves rfl fun _ hp => hp
  obtain ⟨hcrew, hslots⟩ := h.setUp_alone rfl hstage
  have hshape := (h.reads r).shaped (by simp [hstage])
  simp only [Core.step, Core.pin, Option.bind_eq_bind, Option.bind_eq_some_iff] at hs
  obtain ⟨⟨slots, held, idx⟩, hp, w, he, hs⟩ := hs
  obtain ⟨hi, hsteady, hpinned, hlen, hcount⟩ := World.pinHeld_steady h.world hp he
  rw [blocksOf_eq hshape] at hlen
  have hpins : ∀ k, w.pinned.filter (fun p => p.client = k) =
      (Function.update c.reads r { c.reads r with slots := slots } k).pins k := by
    intro k
    rw [hpinned, Multiset.filter_add, h.pins k]
    by_cases hk : k = r
    · subst hk
      simp only [Function.update_self, CacheRead.pins, hstage, reduceCtorEq, if_false, filter_pinsOf_self]
      rw [show (c.reads k).slots = [] from hslots]
      exact Multiset.zero_add _
    · rw [Function.update_of_ne hk, filter_pinsOf_of_ne hk, Multiset.add_zero]
  have hnext : ∀ job : Job, job.reader = some r → job.slot = none → job.Fills content w.fills c.disk →
      job.Prepares { c.reads r with slots := slots } →
        Sound content ((c.withWorld w).setRead r { c.reads r with slots := slots }) ([job] ++ c.flight rest) := by
    intro job hr hsl hf hprep
    refine h.onRead rfl (by simpa using ⟨hr, hsl, hf⟩) rfl rfl rfl h.settled hi hsteady hpins ?_
    rw [hcrew]
    exact CacheRead.Inv.of_setUp hstage (hshape.congr rfl rfl rfl) hprep
  split at hs
  next =>
    cases hs
    exact hnext (.drop r) rfl rfl trivial trivial
  next hplan =>
    cases hs
    refine hnext (.plan r held) rfl rfl trivial ⟨hlen, ?_⟩
    by_cases hallowed : (c.reads r).allowed = 0
    · right
      have hall : held = slots.length := by
        by_contra hne
        exact hplan (Or.inr ⟨hallowed, hne⟩)
      rw [hall, List.countP_eq_length] at hcount
      intro hnone
      exact absurd (hcount _ hnone) (by simp)
    · exact Or.inl (Nat.pos_of_ne_zero hallowed)

/-- The read as its parts begin to be issued. -/
theorem CacheRead.Shaped.serving (h : read.Shaped) (hlen : read.slots.length = blocksOf read.offset read.valid) :
    CacheRead.Serving content { read with
      outstanding := 1, status := none, bytes := 0, span := 0, refetch := 0, issued := 0, stage := .serving }
      [.issue r] where
  jobs j hj := by
    rw [List.mem_singleton.mp hj]
    exact Cut.init hlen h.page h.pos
  users := rfl
  lead := Nat.le_refl 1
  finished h0 := absurd h0 Nat.one_ne_zero
  first _ := rfl
  once p := by simp [Job.covers]
  within := Nat.le_refl 0
  right _ p hp := absurd hp (Nat.not_lt_zero p)

theorem plan_sound {held : ℤ} (h : Sound content c (.plan r held :: c.flight rest))
    (hs : c.step ch (.plan r held) = some (c', new)) : Sound content c' (new ++ c'.flight rest) := by
  have hstage := h.setUp_of_serves rfl fun _ hp => hp
  obtain ⟨hcrew, hlen, hruns⟩ := h.setUp_alone rfl hstage
  have hshape := (h.reads r).shaped (by simp [hstage])
  simp only [Core.step, Core.plan] at hs
  split at hs
  next =>
    split at hs
    next =>
      cases hs
      have hdrop : CacheRead.Inv content (c.reads r) ([.drop r] ++ crew r (c.flight rest)) := by
        rw [hcrew]
        exact CacheRead.Inv.of_setUp hstage hshape trivial
      exact h.onBuffer rfl (by simp [Job.reader, Job.slot, Job.Fills]) (Function.update_eq_self r c.reads).symm
        rfl rfl rfl rfl Iff.rfl rfl rfl hdrop
    next =>
      cases hs
      refine h.onBuffer rfl (by simp [Job.reader, Job.slot, Job.Fills]) rfl rfl rfl rfl rfl (by simp [hstage]) rfl rfl ?_
      rw [hcrew]
      exact CacheRead.Inv.of_serving rfl (hshape.congr rfl rfl rfl) (hshape.serving hlen)
  next hmany =>
    obtain ⟨w, hx, hs⟩ := Option.bind_eq_some_iff.mp hs
    cases hs
    have hshort : (c.reads r).slots.length < 2 ^ 32 := by
      have := hshape.blocks
      unfold maxReadBlocks at this
      omega
    have hone : 1 ≤ (c.reads r).allowed := by
      rcases hruns with hone | hheld
      · exact hone
      · rw [scan_runs_of_held hheld] at hmany
        omega
    have hgap := (Index.scan_inv _ hshort).gap (by omega)
    have hmine := h.pins_le rfl
    have hsplit := pinsOf_giveUp r (c.reads r).key hgap.le
    have hallowed : c.world.Allowed (.unpin
        (pinsOf r ((c.reads r).key.skip (Index.scan (c.reads r).slots).gapStart)
          (((c.reads r).slots.drop (Index.scan (c.reads r).slots).gapStart).take (Index.scan (c.reads r).slots).gapLength))
        (((c.reads r).slots.drop (Index.scan (c.reads r).slots).gapStart).take (Index.scan (c.reads r).slots).gapLength)
        false) := by
      refine ⟨?_, pinsOf_map_slot _ _ _⟩
      refine le_trans ?_ (Multiset.filter_le (fun p => p.client = r) _)
      rw [hmine, hsplit]
      exact Multiset.le_add_left _ _
    obtain ⟨hi, hsteady, hpinned⟩ := World.unpin_steady h.world hallowed hx
    refine h.onRead rfl (by simp [Job.reader, Job.slot, Job.Fills]) rfl rfl rfl h.settled hi hsteady (fun k => ?_) ?_
    · show w.pinned.filter (fun p => p.client = k) = _
      rw [hpinned, Multiset.filter_sub]
      by_cases hk : k = r
      · subst hk
        rw [hmine, hsplit, filter_pinsOf_self, add_tsub_cancel_right]
        simp only [Core.setRead, Function.update_self, CacheRead.pins, hstage, reduceCtorEq, if_false]
      · rw [filter_pinsOf_of_ne hk, Multiset.sub_zero, h.pins k]
        simp only [Core.setRead, Function.update_of_ne hk, Core.withWorld]
    · rw [hcrew]
      refine CacheRead.Inv.of_setUp hstage (hshape.congr rfl rfl rfl) ⟨?_, Or.inl hone⟩
      exact (Index.giveUp_givenUp _ hgap.le).length_eq.symm.trans hlen

end BlorgFS.CacheFile

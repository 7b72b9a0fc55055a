import BlorgFS.PathCache.BudgetWalks

/-! The counts over whole runs: the listing budget is charged for what is linked and for the
publishes between their adds, and `PathCache.Count` is the number of path entries. The cap of a
listing bucket holds in the runs in which no publish that evicted nothing finds room after all. -/

namespace BlorgFS.PathCache.Budget

open Lib

variable {N : Names}

/-! ### What threads hold -/

namespace Hold

variable {a b : Hold} {l : Lock}

theorem conflicts_comm (a b : Hold) : a.conflicts b = b.conflicts a := by
  cases a <;> cases b <;> simp [conflicts, eq_comm]

theorem not_covers (h : a.conflicts b = false) (hb : b.covers l) : ¬ a.covers l := by
  cases a with
  | nothing => exact id
  | one la =>
    cases b with
    | nothing => exact absurd hb id
    | one lb =>
      intro ha
      have hne : la ≠ lb := of_decide_eq_false h
      exact hne (Eq.trans ha (Eq.symm hb))
    | everything => cases h
  | everything =>
    cases b with
    | nothing => exact absurd hb id
    | one lb => cases h
    | everything => cases h

theorem eq_nothing (h : a.conflicts .everything = false) : a = .nothing := by
  cases a with
  | nothing => rfl
  | one l => cases h
  | everything => cases h

end Hold

/-- The cleanup holds everything until it has set `PathCache.Count`. -/
theorem everything_step {sh sh' : Shared} {th th' : Thread} (he : sh.step N th = some (sh', th')) (h : th.pc.hold N = .everything) :
    th'.pc.hold N = .everything ∨ (th.pc = .cleanCount ∧ th'.pc = .idle ∧ sh' = { sh with count := 0 }) := by
  obtain ⟨pc, todo⟩ := th
  cases pc with
  | cleanCount =>
    cases he
    exact .inr ⟨rfl, rfl, rfl⟩
  | cleanPaths i =>
    simp only [Shared.step] at he
    split at he <;> cases he <;> exact .inl rfl
  | cleanListings i =>
    simp only [Shared.step] at he
    split at he
    · split at he <;> cases he <;> exact .inl rfl
    · cases he
      exact .inl rfl
  | _ => cases h

/-! ### The invariant -/

theorem getElem?_set_cases {α : Type} {l : List α} {t k : ℕ} {a b : α} (h : (l.set t a)[k]? = some b) : (k = t ∧ b = a) ∨ (k ≠ t ∧ l[k]? = some b) := by
  by_cases hk : k = t
  · subst hk
    have hlt : k < (l.set k a).length := (List.getElem?_eq_some_iff.mp h).1
    rw [List.getElem?_set_self (by simpa using hlt)] at h
    exact .inl ⟨rfl, (Option.some.inj h).symm⟩
  · rw [List.getElem?_set_ne (Ne.symm hk)] at h
    exact .inr ⟨hk, h⟩

namespace State

variable {s s' : State}

def charged (s : State) : ℕ := tally (fun th => th.pc.dues.charge) s.threads

def accepted (s : State) : ℕ := tally (fun th => th.pc.dues.accepted) s.threads

def uncounts (s : State) : ℕ := tally (fun th => th.pc.dues.uncounts) s.threads

def counts (s : State) : ℕ := tally (fun th => th.pc.dues.counts) s.threads

/-- The threads do not hold the same. -/
def Exclusive (N : Names) (s : State) : Prop :=
  ∀ (j k : ℕ) (th u : Thread), j ≠ k → s.threads[j]? = some th → s.threads[k]? = some u → (th.pc.hold N).conflicts (u.pc.hold N) = false

structure Inv (N : Names) (s : State) : Prop where
  paths : ∀ b, (s.shared.paths b).Ok N
  cap : ∀ b, (s.shared.paths b).entries.length ≤ maxPerBucket
  listings : ∀ b, (s.shared.listings b).Ok N
  knows : ∀ th ∈ s.threads, th.pc.Knows N s.shared
  exclusive : s.Exclusive N
  bytes : s.shared.listingBytes = s.shared.linkedBytes + s.charged
  accepted : s.shared.linkedBytes + s.accepted ≤ listingMaxBytes
  references : ∀ id, s.shared.released.count id + s.shared.across (numbered id) = s.shared.taken.count id
  numbers : s.shared.taken.Nodup ∧ ∀ id ∈ s.shared.taken, id < s.shared.taken.length
  count : (∃ th ∈ s.threads, th.pc.hold N = .everything) ∨ s.shared.count + s.counts = s.shared.total + s.uncounts

theorem Exclusive.set {t : ℕ} {sh : Shared} {th' : Thread} (h : s.Exclusive N) (hfree : s.Free N t th'.pc) : Exclusive N ⟨sh, s.threads.set t th'⟩ := by
  have hnew : ∀ (k : ℕ) (u : Thread), k ≠ t → s.threads[k]? = some u → (th'.pc.hold N).conflicts (u.pc.hold N) = false := fun k u hk hu =>
    hfree u (List.mem_eraseIdx_iff_getElem?.mpr ⟨k, hk, hu⟩)
  intro j k th u hjk hth hu
  rcases getElem?_set_cases hth with ⟨rfl, rfl⟩ | ⟨hj, hth'⟩
  · rcases getElem?_set_cases hu with ⟨rfl, _⟩ | ⟨hk, hu'⟩
    · exact absurd rfl hjk
    · exact hnew k u hk hu'
  · rcases getElem?_set_cases hu with ⟨rfl, rfl⟩ | ⟨hk, hu'⟩
    · rw [Hold.conflicts_comm]
      exact hnew j th hj hth'
    · exact h j k th u hjk hth' hu'

theorem charged_le : s.accepted ≤ s.charged := by
  refine tally_mono (fun th => ?_) s.threads
  cases th.pc <;> first | exact Nat.le_refl _ | exact Nat.zero_le _

/-- The cleanup sets `PathCache.Count` when the path buckets are empty and nobody else is in
the caches. -/
theorem Inv.count_cleaned {t : ℕ} {sh' : Shared} {th th' : Thread} (h : s.Inv N) (hth : s.threads[t]? = some th) (hpc : th.pc = .cleanCount)
    (hidle : th'.pc = .idle) (hsh : sh' = { s.shared with count := 0 }) :
    sh'.count + (tally (fun th => th.pc.dues.counts) (s.threads.set t th') : ℤ) =
      sh'.total + (tally (fun th => th.pc.dues.uncounts) (s.threads.set t th') : ℤ) := by
  have hempty : ∀ b, (s.shared.paths b).entries = [] := by
    have hknows := h.knows th (List.mem_of_getElem? hth)
    rw [hpc] at hknows
    exact hknows
  have hdues : ∀ u ∈ s.threads.set t th', u.pc.dues = .none := by
    intro u hu
    obtain ⟨k, hu⟩ := List.mem_iff_getElem?.mp hu
    rcases getElem?_set_cases hu with ⟨_, rfl⟩ | ⟨hkt, hu⟩
    · rw [hidle]
      rfl
    · have hno := h.exclusive k t u th hkt hu hth
      rw [hpc] at hno
      exact Pc.dues_of_hold (Hold.eq_nothing hno)
  have hcounts : tally (fun th => th.pc.dues.counts) (s.threads.set t th') = 0 := tally_eq_zero fun u hu => by rw [hdues u hu]; rfl
  have huncounts : tally (fun th => th.pc.dues.uncounts) (s.threads.set t th') = 0 := tally_eq_zero fun u hu => by rw [hdues u hu]; rfl
  have htotal : sh'.total = 0 := by
    rw [hsh]
    exact Finset.sum_eq_zero fun b _ => by rw [hempty b]; rfl
  rw [hcounts, huncounts, htotal, hsh]
  rfl

/-- A thread goes on, with a change the list has. -/
theorem Inv.change {t : ℕ} {sh' : Shared} {th th' : Thread} (h : s.Inv N) (hth : s.threads[t]? = some th)
    (hc : Change N s.shared th.pc sh' th'.pc) (hk : th'.pc.Knows N sh') (hfree : s.Free N t th'.pc)
    (hclean : th.pc.hold N = .everything →
      th'.pc.hold N = .everything ∨ (th.pc = .cleanCount ∧ th'.pc = .idle ∧ sh' = { s.shared with count := 0 })) : Inv N ⟨sh', s.threads.set t th'⟩ := by
  have hknows : th.pc.Knows N s.shared := h.knows th (List.mem_of_getElem? hth)
  have hset : ∀ g : Thread → ℕ, tally g (s.threads.set t th') + g th = tally g s.threads + g th' := fun g => tally_set hth th'
  have hok := hc.paths_ok hknows h.paths h.cap
  exact {
    paths := fun b => (hok b).1
    cap := fun b => (hok b).2
    listings := hc.listings_ok hknows h.listings
    knows := by
      intro u hu
      obtain ⟨k, hu⟩ := List.mem_iff_getElem?.mp hu
      rcases getElem?_set_cases hu with ⟨_, rfl⟩ | ⟨hkt, hu⟩
      · exact hk
      · have hno := h.exclusive t k th u (Ne.symm hkt) hth hu
        exact (h.knows u (List.mem_of_getElem? hu)).frame (fun b hb => hc.frame_paths (Hold.not_covers hno hb))
          fun b hb => hc.frame_listings (Hold.not_covers hno hb)
    exclusive := h.exclusive.set hfree
    bytes := by
      have hchange := hc.listingBytes
      have hsum := hset fun th => th.pc.dues.charge
      have hold := h.bytes
      show sh'.listingBytes = sh'.linkedBytes + (tally (fun th => th.pc.dues.charge) (s.threads.set t th') : ℤ)
      unfold charged at hold
      omega
    accepted := by
      have hsum := hset fun th => th.pc.dues.accepted
      have hold := h.accepted
      have hbytes := h.bytes
      have hle := charged_le (s := s)
      show (sh'.linkedBytes : ℤ) + (tally (fun th => th.pc.dues.accepted) (s.threads.set t th') : ℤ) ≤ listingMaxBytes
      unfold State.accepted at hold hle
      rcases hc.accepted with hdown | ⟨hsame, hnone, hfits⟩
      · omega
      · rw [hnone] at hsum
        simp only [Dues.none] at hsum
        omega
    references := fun id => by
      have hchange := hc.references id
      have hold := h.references id
      show sh'.released.count id + sh'.across (numbered id) = sh'.taken.count id
      omega
    numbers := by
      obtain ⟨hnodup, hlt⟩ := h.numbers
      show sh'.taken.Nodup ∧ ∀ id ∈ sh'.taken, id < sh'.taken.length
      rcases hc.taken with he | he
      · rw [he]
        exact h.numbers
      · rw [he]
        refine ⟨List.nodup_cons.mpr ⟨fun hm => Nat.lt_irrefl _ (hlt _ hm), hnodup⟩, fun id hm => ?_⟩
        rw [List.length_cons]
        rcases List.mem_cons.mp hm with rfl | hm
        · exact Nat.lt_succ_self _
        · exact Nat.lt_succ_of_lt (hlt id hm)
    count := by
      have hself : th' ∈ s.threads.set t th' := List.mem_set (List.getElem?_eq_some_iff.mp hth).1 _
      by_cases hcleans : th.pc.hold N = .everything
      · rcases hclean hcleans with hall | ⟨hpc, hidle, hsh⟩
        · exact .inl ⟨th', hself, hall⟩
        · exact .inr (h.count_cleaned hth hpc hidle hsh)
      · rcases hc.count_total with hall | hlast | htotal
        · exact .inl ⟨th', hself, hall⟩
        · exact absurd (hlast ▸ rfl) hcleans
        · rcases h.count with ⟨u, hu, hall⟩ | hold
          · obtain ⟨k, hk'⟩ := List.mem_iff_getElem?.mp hu
            have hkt : t ≠ k := by
              rintro rfl
              exact hcleans (Option.some.inj (hth.symm.trans hk') ▸ hall)
            exact .inl ⟨u, List.mem_of_getElem? ((List.getElem?_set_ne hkt).trans hk'), hall⟩
          · refine .inr ?_
            have hcounts := hset fun th => th.pc.dues.counts
            have huncounts := hset fun th => th.pc.dues.uncounts
            show sh'.count + (tally (fun th => th.pc.dues.counts) (s.threads.set t th') : ℤ) =
              sh'.total + (tally (fun th => th.pc.dues.uncounts) (s.threads.set t th') : ℤ)
            unfold counts uncounts at hold
            omega }

/-- Idle threads enter calls, the clock goes on, threads take steps. -/
theorem Inv.next {act : Act} (h : s.Inv N) (he : s.next N act = some s') : s'.Inv N := by
  cases act with
  | tick elapsed =>
    cases he
    exact ⟨h.paths, h.cap, h.listings, fun th hth => (h.knows th hth).frame (fun _ _ => rfl) fun _ _ => rfl, h.exclusive, h.bytes, h.accepted,
      h.references, h.numbers, h.count⟩
  | call t call =>
    obtain ⟨th, hth, he⟩ := Option.bind_eq_some_iff.mp he
    split at he
    next =>
      have hops : ∀ todo : List Op, Inv N ⟨s.shared, s.threads.set t ⟨.idle, todo⟩⟩ := fun todo =>
        h.change hth (.still (.refl _) rfl rfl) trivial (fun _ _ => rfl) fun hall => by cases hall
      cases call with
      | cleanup =>
        simp only [enter] at he
        split at he
        next =>
          cases he
          exact h
        next =>
          obtain ⟨hfree, he⟩ := Option.ite_none_right_eq_some.mp he
          cases he
          exact h.change hth (.still ⟨rfl, rfl, rfl, rfl, rfl, rfl⟩ rfl rfl) (fun b hb => absurd hb (Nat.not_lt_zero _)) hfree fun hall => by cases hall
      | insert | publish | seedListing | invalidate | invalidatePrefix | invalidateAll | followFeed =>
        cases he
        exact hops _
    next => cases he
  | step t =>
    obtain ⟨th, hth, he⟩ := Option.bind_eq_some_iff.mp he
    obtain ⟨⟨sh', th'⟩, hstep, he⟩ := Option.bind_eq_some_iff.mp he
    obtain ⟨hfree, he⟩ := Option.ite_none_right_eq_some.mp he
    cases he
    exact h.change hth (.of_step hstep) ((h.knows th (List.mem_of_getElem? hth)).step h.paths h.listings h.cap hstep) hfree (everything_step hstep)

theorem Inv.start (n : ℕ) : (start n).Inv N := by
  have hidle : ∀ th ∈ (State.start n).threads, th = ⟨.idle, []⟩ := fun th hth => List.eq_of_mem_replicate hth
  have htally : ∀ g : Thread → ℕ, g ⟨.idle, []⟩ = 0 → tally g (State.start n).threads = 0 := fun g hg =>
    tally_eq_zero fun th hth => by rw [hidle th hth, hg]
  have hlinked : (State.start n).shared.linkedBytes = 0 := Finset.sum_eq_zero fun _ _ => rfl
  have htotal : (State.start n).shared.total = 0 := Finset.sum_eq_zero fun _ _ => rfl
  exact {
    paths := fun _ => .empty
    cap := fun _ => Nat.zero_le _
    listings := fun _ => .empty
    knows := fun th hth => by
      rw [hidle th hth]
      trivial
    exclusive := fun j k th u _ hth hu => by
      rw [hidle th (List.mem_of_getElem? hth)]
      rfl
    bytes := by
      rw [hlinked, charged, htally _ rfl]
      rfl
    accepted := by
      rw [hlinked, State.accepted, htally _ rfl]
      decide
    references := fun id => by
      have hnone : (State.start n).shared.across (numbered id) = 0 := Finset.sum_eq_zero fun _ _ => rfl
      rw [hnone]
      rfl
    numbers := ⟨List.nodup_nil, fun _ h => absurd h List.not_mem_nil⟩
    count := by
      rw [htotal, counts, uncounts, htally _ rfl, htally _ rfl]
      exact .inr rfl }

end State

theorem inv_of_reachable {n : ℕ} {s : State} (h : (system N n).Reachable s) : s.Inv N :=
  System.invariant (fun _ he => he ▸ State.Inv.start n) (fun _ _ _ hi ⟨_, he⟩ => hi.next he) h

/-! ### The listing budget -/

/-- The entry of that number is linked. -/
def Shared.IsLinked (sh : Shared) (id : ℕ) : Prop := ∃ b, ∃ entry ∈ (sh.listings b).entries, entry.value.id = id

theorem across_numbered_eq_zero {sh : Shared} {id : ℕ} : sh.across (numbered id) = 0 ↔ ¬ sh.IsLinked id := by
  rw [Shared.across, Finset.sum_eq_zero_iff]
  constructor
  · rintro h ⟨b, entry, he, hid⟩
    have hle : numbered id entry ≤ tally (numbered id) (sh.listings b).entries := le_tally he
    rw [h b (Finset.mem_univ b), numbered, if_pos hid] at hle
    cases hle
  · intro h b _
    exact tally_eq_zero fun entry he => if_neg fun hid => h ⟨b, entry, he, hid⟩

/-- The cache's references to listings: one is taken for each entry linked, and released once,
when the entry is not linked any more. -/
structure Shared.Referenced (sh : Shared) : Prop where
  taken : sh.taken.Nodup
  linked : ∀ id, sh.IsLinked id → id ∈ sh.taken
  released : ∀ id, id ∈ sh.released ↔ id ∈ sh.taken ∧ ¬ sh.IsLinked id
  once : sh.released.Nodup

theorem State.Inv.referenced {s : State} (h : s.Inv N) : s.shared.Referenced := by
  have hle : ∀ id, s.shared.taken.count id ≤ 1 := fun id => List.nodup_iff_count_le_one.mp h.numbers.1 id
  have hmem : ∀ {l : List ℕ} {id : ℕ}, id ∈ l ↔ 0 < l.count id := fun {_ _} => List.count_pos_iff.symm
  exact {
    taken := h.numbers.1
    linked := fun id hl => by
      have hpos : s.shared.across (numbered id) ≠ 0 := fun h0 => across_numbered_eq_zero.mp h0 hl
      have hsum := h.references id
      rw [hmem]
      omega
    released := fun id => by
      have hsum := h.references id
      have hone := hle id
      rw [hmem, hmem, ← across_numbered_eq_zero]
      omega
    once := List.nodup_iff_count_le_one.mpr fun id => by
      have hsum := h.references id
      have hone := hle id
      omega }

/-- A publish of `dir` under a ticket taken at the start. -/
def publishOf (dir : Path) (bytes : ℕ) : Publish := ⟨dir, ⟨bytes, false⟩, ⟨⟨0, 0⟩, 0⟩, true⟩

/-- Eight directories of one bucket. -/
def neighbours : List Path :=
  [[separator, 0x41, 0x43], [separator, 0x44, 0x41], [separator, 0x46, 0x4B], [separator, 0x49, 0x49], [separator, 0x4C, 0x47],
    [separator, 0x4E, 0x51], [separator, 0x51, 0x4F], [separator, 0x54, 0x4D]]

/-- A ninth. -/
def ninth : Path := [separator, 0x56, 0x57]

/-- A directory of another bucket. -/
def elsewhere : Path := [separator, 0x42]

/-- One thread publishes the eight, of a byte each. -/
def fillBucket : List Act :=
  neighbours.zipIdx.flatMap fun d => .call 0 (.publish (publishOf d.1 1)) :: List.replicate (15 + d.2) (.step 0)

/-- Another publishes the ninth as far as its test for room, after a listing elsewhere has
filled the budget. -/
def testRoom : List Act :=
  fillBucket ++ .call 1 (.publish (publishOf ninth 20000000)) :: List.replicate 6 (.step 1) ++
    .call 0 (.publish (publishOf elsewhere 20000000)) :: List.replicate 15 (.step 0) ++ List.replicate 12 (.step 1)

/-- `ListingBytes` is what is linked and the charges of publishes between their adds, what is
linked stays within the budget, the buckets' counts are right, and so are the references. -/
theorem listingBytes_exact {n : ℕ} {s : State} (h : (system N n).Reachable s) :
    s.shared.listingBytes = s.shared.linkedBytes + s.charged ∧ s.shared.linkedBytes ≤ listingMaxBytes ∧
      (∀ b, (s.shared.listings b).count = (s.shared.listings b).entries.length) ∧
        (∀ b, (s.shared.paths b).count = (s.shared.paths b).entries.length) ∧ s.shared.Referenced := by
  have hinv := inv_of_reachable h
  have hle := hinv.accepted
  exact ⟨hinv.bytes, by omega, fun b => (hinv.listings b).count, fun b => (hinv.paths b).count, hinv.referenced⟩

/-- The ninth directory's charge is over the budget, and not yet taken back. -/
theorem listingBytes_exact_refused :
    ∃ s, (system asciiNames 2).Reachable s ∧ s.charged = 20000000 ∧
      s.shared.listingBytes = s.shared.linkedBytes + s.charged ∧ s.shared.linkedBytes ≤ listingMaxBytes ∧
        (∀ b, (s.shared.listings b).count = (s.shared.listings b).entries.length) ∧
          (∀ b, (s.shared.paths b).count = (s.shared.paths b).entries.length) ∧ s.shared.Referenced := by
  have hrun : (run (State.next asciiNames) (State.start 2) (testRoom ++ [.step 1])).any (fun s => s.charged = 20000000) = true := by decide +kernel
  obtain ⟨s, hs, hq⟩ := (Option.any_eq_true _ _).mp hrun
  have hnext : ∀ s act s', State.next asciiNames s act = some s' → (system asciiNames 2).step s s' := fun s act s' he => ⟨act, he⟩
  have hr : (system asciiNames 2).Reachable s := System.Reachable.run hnext (.init rfl) hs
  exact ⟨s, hr, of_decide_eq_true hq, listingBytes_exact hr⟩

/-! ### The caps -/

/-- A publish past its cap, or about to link, has room in its bucket. -/
def Pc.HasRoom (N : Names) (sh : Shared) : Pc → Prop
  | .publishFit p _ | .publishLink p _ => (sh.listings (bucket N p.dir)).entries.length < listingMaxPerBucket
  | _ => True

theorem Pc.HasRoom.frame {sh sh' : Shared} {pc : Pc} (h : pc.HasRoom N sh)
    (hlistings : ∀ b, (pc.hold N).covers (.listing b) → sh'.listings b = sh.listings b) : pc.HasRoom N sh' := by
  cases pc with
  | publishFit p | publishLink p =>
    have hb := hlistings (bucket N p.dir) rfl
    simp only [Pc.HasRoom, hb]
    exact h
  | _ => trivial

/-- A charge on a full bucket does not fit. -/
def Pc.Refused (N : Names) (sh : Shared) : Pc → Prop
  | .publishCharge p _ => listingMaxPerBucket ≤ (sh.listings (bucket N p.dir)).count → listingMaxBytes < sh.listingBytes + p.info.bytes
  | _ => True

instance (sh : Shared) (pc : Pc) : Decidable (pc.Refused N sh) := by
  unfold Pc.Refused
  split <;> infer_instance

theorem Pc.HasRoom.step {sh sh' : Shared} {th th' : Thread} (h : th.pc.HasRoom N sh) (hr : th.pc.Refused N sh) (hok : ∀ b, (sh.listings b).Ok N)
    (hcap : ∀ b, (sh.listings b).entries.length ≤ listingMaxPerBucket) (he : sh.step N th = some (sh', th')) : th'.pc.HasRoom N sh' := by
  have hof : ∀ {r : Shared × Thread}, some r = some (sh', th') → r.2.pc.HasRoom N r.1 → th'.pc.HasRoom N sh' := fun hr hk => by
    cases hr
    exact hk
  obtain ⟨pc, todo⟩ := th
  cases pc with
  | publishCap p f =>
    simp only [Shared.step] at he
    split at he
    next hfull =>
      obtain ⟨entry, hentry⟩ := exists_head_of_ne_nil hfull.2
      have hlt := (List.getElem?_eq_some_iff.mp hentry).1
      have hle := hcap (bucket N p.dir)
      refine hof he ?_
      show ((sh.removeListing (bucket N p.dir) 0).listings (bucket N p.dir)).entries.length < listingMaxPerBucket
      rw [listings_removeListing hentry, Bucket.remove, List.length_eraseIdx_of_lt hlt]
      omega
    next hroom =>
      refine hof he ?_
      show (sh.listings (bucket N p.dir)).entries.length < listingMaxPerBucket
      by_contra hlt
      have hlen : listingMaxPerBucket ≤ (sh.listings (bucket N p.dir)).entries.length := Nat.le_of_not_lt hlt
      refine hroom ⟨(hok _).count.symm ▸ hlen, fun hnil => ?_⟩
      rw [hnil] at hlen
      cases hlen
  | publishFit p f =>
    have hlt : (sh.listings (bucket N p.dir)).entries.length < listingMaxPerBucket := h
    simp only [Shared.step] at he
    split at he
    next hover =>
      obtain ⟨entry, hentry⟩ := exists_head_of_ne_nil hover.2
      refine hof he ?_
      show ((sh.removeListing (bucket N p.dir) 0).listings (bucket N p.dir)).entries.length < listingMaxPerBucket
      rw [listings_removeListing hentry]
      exact Nat.lt_of_le_of_lt (List.eraseIdx_sublist _ _).length_le hlt
    next => exact hof he trivial
  | publishCharge p f =>
    refine hof he ?_
    show Pc.HasRoom N _ (if _ then _ else _)
    split
    next hfits =>
      show (sh.listings (bucket N p.dir)).entries.length < listingMaxPerBucket
      by_contra hlt
      have hover : listingMaxBytes < sh.listingBytes + p.info.bytes := hr ((hok _).count.symm ▸ Nat.le_of_not_lt hlt)
      omega
    next => trivial
  | idle =>
    obtain ⟨op, _, he⟩ := Option.map_eq_some_iff.mp he
    refine hof (congrArg some he) ?_
    cases op <;> trivial
  | readGeneration call =>
    cases call with
    | insert i => exact hof he trivial
    | publish p => exact hof he (by cases p.pool <;> trivial)
  | uncountSwept b sweep k => exact hof he (by cases sweep.stops <;> trivial)
  | sweepPaths b sweep k =>
    refine hof he ?_
    simp only [Shared.visitPath]
    split
    · trivial
    · split <;> trivial
  | sweepListings b sweep k =>
    refine hof he ?_
    simp only [Shared.visitListing]
    split
    · trivial
    · split
      · cases sweep.stops <;> trivial
      · trivial
  | insertSequence i f =>
    refine hof he ?_
    show Pc.HasRoom N sh (if _ then _ else _)
    split <;> trivial
  | insertWalk i f k =>
    refine hof he ?_
    simp only [Shared.visitInsert]
    split
    · trivial
    · split_ifs <;> trivial
  | publishSequence p f =>
    refine hof he ?_
    show Pc.HasRoom N sh (if _ then _ else _)
    split <;> trivial
  | publishWalk p f k existing =>
    refine hof he ?_
    simp only [Shared.visitPublish]
    split
    · trivial
    · split <;> trivial
  | publishExisting p f existing =>
    have hafter : ∀ sh' : Shared, (if p.pool then Pc.publishRoom p f else .unlock (.listing (bucket N p.dir))).HasRoom N sh' := by
      cases p.pool <;> exact fun _ => trivial
    refine hof he ?_
    simp only [Shared.replace]
    split
    · exact hafter _
    · split
      · exact hafter _
      · split
        · trivial
        · exact hafter _
  | publishRoom p f =>
    refine hof he ?_
    show Pc.HasRoom N sh (if _ then _ else _)
    split
    · trivial
    · trivial
  | insertCap i f | publishBudget p f | cleanPaths i =>
    simp only [Shared.step] at he
    split at he <;> exact hof he trivial
  | cleanListings i =>
    simp only [Shared.step] at he
    split at he
    · split at he <;> exact hof he trivial
    · exact hof he trivial
  | readNow | readLifetime | lockInsert | uncountDead | uncountVictim | insertAppend | countNew | lockPublish | publishRefused | publishLink | unlock
  | cleanCount => exact hof he trivial

theorem Change.listings_cap {sh sh' : Shared} {pc pc' : Pc} (h : Change N sh pc sh' pc') (hr : pc.HasRoom N sh)
    (hcap : ∀ b, (sh.listings b).entries.length ≤ listingMaxPerBucket) (b : Fin bucketCount) :
    (sh'.listings b).entries.length ≤ listingMaxPerBucket := by
  cases h with
  | still hs =>
    rw [hs.listings]
    exact hcap b
  | @remove _ _ b' k entry _ he =>
    rw [Shared.removeListing_eq he]
    show (Function.update sh.listings b' ((sh.listings b').remove k) b).entries.length ≤ listingMaxPerBucket
    by_cases hb : b = b'
    · have hlen : ((sh.listings b').remove k).entries.length ≤ (sh.listings b').entries.length := (List.eraseIdx_sublist _ _).length_le
      rw [hb, Function.update_self]
      exact Nat.le_trans hlen (hcap b')
    · rw [Function.update_of_ne hb]
      exact hcap b
  | @link p f =>
    show (Function.update sh.listings (bucket N p.dir) _ b).entries.length ≤ listingMaxPerBucket
    by_cases hb : b = bucket N p.dir
    · have hlt : (sh.listings (bucket N p.dir)).entries.length < listingMaxPerBucket := hr
      rw [hb, Function.update_self, Bucket.append, List.length_append, List.length_singleton]
      exact hlt
    · rw [Function.update_of_ne hb]
      exact hcap b
  | unlink | refresh | append | uncount | count | charge | overcharge | takeBack | clear | zero => exact hcap b

namespace State

variable {s s' : State}

structure Capped (N : Names) (s : State) : Prop where
  cap : ∀ b, (s.shared.listings b).entries.length ≤ listingMaxPerBucket
  room : ∀ th ∈ s.threads, th.pc.HasRoom N s.shared

/-- The step is not a charge that fits on a full bucket: its publish had found, before, that
evicting all of the bucket would not make room. -/
def Refuses (N : Names) (s : State) : Act → Prop
  | .step t => ∀ th ∈ s.threads[t]?, th.pc.Refused N s.shared
  | _ => True

instance (act : Act) : Decidable (s.Refuses N act) := by
  cases act <;> unfold Refuses <;> infer_instance

theorem Capped.change {t : ℕ} {sh' : Shared} {th th' : Thread} (h : s.Capped N) (hexclusive : s.Exclusive N) (hth : s.threads[t]? = some th)
    (hc : Change N s.shared th.pc sh' th'.pc) (hr : th'.pc.HasRoom N sh') : Capped N ⟨sh', s.threads.set t th'⟩ where
  cap := hc.listings_cap (h.room th (List.mem_of_getElem? hth)) h.cap
  room u hu := by
    obtain ⟨k, hu⟩ := List.mem_iff_getElem?.mp hu
    rcases getElem?_set_cases hu with ⟨_, rfl⟩ | ⟨hkt, hu⟩
    · exact hr
    · have hno := hexclusive t k th u (Ne.symm hkt) hth hu
      exact (h.room u (List.mem_of_getElem? hu)).frame fun b hb => hc.frame_listings (Hold.not_covers hno hb)

theorem Capped.next {act : Act} (h : s.Capped N) (hinv : s.Inv N) (hr : s.Refuses N act) (he : s.next N act = some s') : s'.Capped N := by
  cases act with
  | tick elapsed =>
    cases he
    exact ⟨h.cap, fun th hth => (h.room th hth).frame fun _ _ => rfl⟩
  | call t call =>
    obtain ⟨th, hth, he⟩ := Option.bind_eq_some_iff.mp he
    split at he
    next =>
      cases call with
      | cleanup =>
        simp only [enter] at he
        split at he
        next =>
          cases he
          exact h
        next =>
          obtain ⟨_, he⟩ := Option.ite_none_right_eq_some.mp he
          cases he
          exact h.change hinv.exclusive hth (.still ⟨rfl, rfl, rfl, rfl, rfl, rfl⟩ rfl rfl) trivial
      | insert | publish | seedListing | invalidate | invalidatePrefix | invalidateAll | followFeed =>
        cases he
        exact h.change hinv.exclusive hth (.still (.refl _) rfl rfl) trivial
    next => cases he
  | step t =>
    obtain ⟨th, hth, he⟩ := Option.bind_eq_some_iff.mp he
    obtain ⟨⟨sh', th'⟩, hstep, he⟩ := Option.bind_eq_some_iff.mp he
    obtain ⟨_, he⟩ := Option.ite_none_right_eq_some.mp he
    cases he
    exact h.change hinv.exclusive hth (.of_step hstep) ((h.room th (List.mem_of_getElem? hth)).step (hr th hth) hinv.listings h.cap hstep)

theorem Capped.start (n : ℕ) : (start n).Capped N where
  cap _ := Nat.zero_le _
  room th hth := by
    rw [List.eq_of_mem_replicate hth]
    trivial

/-- Where no thread holds a lock, none owes the count anything. -/
theorem Inv.count_eq (h : s.Inv N) (hidle : ∀ th ∈ s.threads, th.pc.hold N = .nothing) : s.shared.count = s.shared.total := by
  have hcounts : s.counts = 0 := tally_eq_zero fun th hth => by rw [Pc.dues_of_hold (hidle th hth)]; rfl
  have huncounts : s.uncounts = 0 := tally_eq_zero fun th hth => by rw [Pc.dues_of_hold (hidle th hth)]; rfl
  rcases h.count with ⟨th, hth, hall⟩ | hold
  · rw [hidle th hth] at hall
    cases hall
  · omega

end State

/-- The runs of `system` in which no charge fits on a full bucket. -/
def refusing (N : Names) (n : ℕ) : System State :=
  ⟨fun s => s = State.start n, fun s s' => ∃ act, s.Refuses N act ∧ s.next N act = some s'⟩

/-- In these runs every bucket of either cache is within its cap and of distinct paths, and
`PathCache.Count` counts the path entries whenever no lock is held. -/
theorem buckets_capped {n : ℕ} {s : State} (h : (refusing N n).Reachable s) :
    (∀ b, (s.shared.paths b).entries.length ≤ maxPerBucket ∧ UniquePaths N (s.shared.paths b).entries) ∧
      (∀ b, (s.shared.listings b).entries.length ≤ listingMaxPerBucket ∧ UniquePaths N (s.shared.listings b).entries) ∧
        ((∀ th ∈ s.threads, th.pc.hold N = .nothing) → s.shared.count = s.shared.total) := by
  have hboth : s.Inv N ∧ s.Capped N := System.invariant (S := refusing N n) (P := fun s => s.Inv N ∧ s.Capped N)
    (fun _ he => he ▸ ⟨State.Inv.start n, State.Capped.start n⟩) (fun _ _ _ hi ⟨_, hr, he⟩ => ⟨hi.1.next he, hi.2.next hi.1 hr he⟩) h
  obtain ⟨hinv, hcapped⟩ := hboth
  exact ⟨fun b => ⟨hinv.cap b, (hinv.paths b).unique⟩, fun b => ⟨hcapped.cap b, (hinv.listings b).unique⟩, hinv.count_eq⟩

/-- The ninth directory is refused, and a path is cached. -/
theorem buckets_capped_refused :
    ∃ s, (refusing asciiNames 2).Reachable s ∧
      (∀ b, (s.shared.paths b).entries.length ≤ maxPerBucket ∧ UniquePaths asciiNames (s.shared.paths b).entries) ∧
        (∀ b, (s.shared.listings b).entries.length ≤ listingMaxPerBucket ∧ UniquePaths asciiNames (s.shared.listings b).entries) ∧
          s.shared.count = s.shared.total ∧ s.shared.count = 1 := by
  have hrun : (run (fun s act => if s.Refuses asciiNames act then s.next asciiNames act else none) (State.start 2)
      (testRoom ++ List.replicate 3 (.step 1) ++ .call 0 (.insert ⟨ninth, none, ⟨⟨0, 0⟩, 0⟩⟩ true) :: List.replicate 11 (.step 0))).any
      (fun s => decide ((∀ th ∈ s.threads, th.pc.hold asciiNames = .nothing) ∧ s.shared.count = 1)) = true := by decide +kernel
  obtain ⟨s, hs, hq⟩ := (Option.any_eq_true _ _).mp hrun
  obtain ⟨hidle, hone⟩ := of_decide_eq_true hq
  have hnext : ∀ s act s', (if s.Refuses asciiNames act then s.next asciiNames act else none) = some s' → (refusing asciiNames 2).step s s' :=
    fun s act s' he => ⟨act, Option.ite_none_right_eq_some.mp he⟩
  have hr : (refusing asciiNames 2).Reachable s := System.Reachable.run hnext (.init rfl) hs
  obtain ⟨hpaths, hlistings, hcount⟩ := buckets_capped hr
  exact ⟨s, hr, hpaths, hlistings, hcount hidle, hone⟩

/-- Between the test and the charge the listing elsewhere is invalidated: the ninth directory
finds no room to make, evicts nothing, and then fits. -/
theorem nine_listings : ∃ s, (system asciiNames 2).Reachable s ∧ ∃ b, listingMaxPerBucket < (s.shared.listings b).entries.length := by
  have hrun : (run (State.next asciiNames) (State.start 2)
      (testRoom ++ .call 0 (.invalidate elsewhere) :: List.replicate 10 (.step 0) ++ List.replicate 3 (.step 1))).any
      (fun s => decide (listingMaxPerBucket < (s.shared.listings (bucket asciiNames ninth)).entries.length)) = true := by decide +kernel
  obtain ⟨s, hs, hq⟩ := (Option.any_eq_true _ _).mp hrun
  have hnext : ∀ s act s', State.next asciiNames s act = some s' → (system asciiNames 2).step s s' := fun s act s' he => ⟨act, he⟩
  exact ⟨s, System.Reachable.run hnext (.init rfl) hs, bucket asciiNames ninth, of_decide_eq_true hq⟩

end BlorgFS.PathCache.Budget

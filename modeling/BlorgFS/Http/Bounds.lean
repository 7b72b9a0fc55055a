import BlorgFS.Http.Specs

/-! What a peer can make a request do. Whatever arrives and however it is cut into receives,
every write stays inside its destination, no sum or difference wraps, and headers that do not
end are given up before the buffer has grown much. -/

namespace BlorgFS.Http

open Lib Tls

/-- How large the buffer gets while the headers have not ended: what may be there of them and
one more record. -/
def headerCapacity : ℕ := maxHeaderBytes + ciphertextMax

/-- The headers have never been found to end. -/
def Context.Unended (c : Context) : Prop := ∀ a b, Event.sum a b ∉ c.log

/-- What holds of a context at all times. -/
structure Bounded (r : Request) (c : Context) : Prop where
  log_safe : ∀ e ∈ c.log, e.Safe r
  capacity_lt : c.capacity < 2 ^ 32
  unended : c.Unended → c.capacity ≤ max r.capacity headerCapacity
  mdl : r.targetMdl → c.capacity ≤ maxContentLength + 2 * headerCapacity

/-- What holds when bytes have just arrived. -/
structure Arrived (r : Request) (c : Context) : Prop where
  unended : c.Unended → c.bodyEndOffset = 0
  end_eq : c.bodyEndOffset = c.bodyOffset + c.contentLength
  content_le : c.contentLength ≤ maxContentLength
  offset_le : c.bodyOffset ≤ c.length
  head : c.bodyOffset = 0 → c.length ≤ c.capacity
  body : c.bodyOffset ≠ 0 → c.bodyEndOffset < 2 ^ 32 ∧ (r.targetMdl → c.contentLength = r.expectedContentLength) ∧
    (r.targetMdl = false → c.bodyEndOffset < c.capacity)

/-- What holds while more is waited for. -/
structure Waiting (r : Request) (c : Context) : Prop extends Arrived r c where
  unparsed : c.bodyOffset = 0 → c.length < maxHeaderBytes ∨ c.length < c.bodyEndOffset
  short : c.bodyOffset ≠ 0 → c.length < c.bodyEndOffset

/-- The receive that is posted while more is waited for. -/
def postOf (r : Request) (c : Context) : Post :=
  if c.bodyOffset = 0 then ⟨.buffer, c.length, c.capacity - c.length⟩
  else if r.targetMdl then ⟨.mdl, c.length - c.bodyOffset, c.bodyEndOffset - c.length⟩
  else ⟨.buffer, c.length, c.bodyEndOffset - c.length⟩

variable {r : Request} {c c' : Context} {k : Choice} {parse : Bytes → Parsed} {size : SystemSize}

theorem Arrived.length_lt (ha : Arrived r c) (hb : Bounded r c) (h : c.length ≤ c.bodyEndOffset ∨ c.bodyOffset = 0) : c.length < 2 ^ 32 := by
  have hcap := hb.capacity_lt
  by_cases h0 : c.bodyOffset = 0
  · have := ha.head h0
    omega
  · have := (ha.body h0).1
    omega

theorem Waiting.length_lt (hw : Waiting r c) (hb : Bounded r c) : c.length < 2 ^ 32 := by
  apply hw.toArrived.length_lt hb
  by_cases h0 : c.bodyOffset = 0
  · exact .inr h0
  · exact .inl (Nat.le_of_lt (hw.short h0))

theorem Grown.unended {n : ℕ} (g : Grown c n c') (h : c'.Unended) : c.Unended := fun a b hmem => h a b (g.log_subset hmem)

/-- A buffer grown while the context is in order is in order, if it does not grow too far. -/
theorem Bounded.grown {n : ℕ} (hb : Bounded r c) (g : Grown c n c') (hle : c.length ≤ c.capacity)
    (hn : c.Unended → n ≤ max r.capacity headerCapacity) (hm : r.targetMdl → n ≤ maxContentLength + 2 * headerCapacity) : Bounded r c' where
  log_safe e he := by
    rcases g.log_safe hle r he with he | he
    · exact hb.log_safe e he
    · exact he
  capacity_lt := g.capacity_lt hb.capacity_lt
  unended hu := by
    have h1 := hb.unended (g.unended hu)
    have h2 := hn (g.unended hu)
    rw [g.capacity]
    omega
  mdl ht := by
    have h1 := hb.mdl ht
    have h2 := hm ht
    rw [g.capacity]
    omega

/-- Events that are safe can be put on the log. -/
theorem Bounded.note (hb : Bounded r c) {events : List Event} (hs : ∀ e ∈ events, e.Safe r) : Bounded r (c.note events) where
  log_safe e he := by
    rcases List.mem_append.mp he with h | h
    · exact hs e h
    · exact hb.log_safe e h
  capacity_lt := hb.capacity_lt
  unended hu := hb.unended fun a b h => hu a b (List.mem_append_right _ h)
  mdl := hb.mdl

/-- Only the capacity and the log count. -/
theorem Bounded.congr (hb : Bounded r c) (hc : c'.capacity = c.capacity) (hl : c'.log = c.log) : Bounded r c' where
  log_safe := hl ▸ hb.log_safe
  capacity_lt := hc ▸ hb.capacity_lt
  unended hu := by
    rw [hc]
    apply hb.unended
    intro a b
    rw [← hl]
    exact hu a b
  mdl := hc ▸ hb.mdl

/-- Another buffer that is as large is as much in order. -/
theorem Waiting.kept (hw : Waiting r c) (hk : Kept c c') (hu : c'.Unended → c.Unended) (hcap : c.capacity ≤ c'.capacity) : Waiting r c' where
  unended h := hk.bodyEndOffset.trans (hw.unended (hu h))
  end_eq := by rw [hk.bodyEndOffset, hk.bodyOffset, hk.contentLength, hw.end_eq]
  content_le := hk.contentLength ▸ hw.content_le
  offset_le := by
    rw [hk.bodyOffset, hk.length]
    exact hw.offset_le
  head h0 := by
    rw [hk.length]
    exact Nat.le_trans (hw.head (hk.bodyOffset ▸ h0)) hcap
  body h0 := by
    obtain ⟨h1, h2, h3⟩ := hw.body (hk.bodyOffset ▸ h0)
    rw [hk.bodyEndOffset, hk.contentLength]
    exact ⟨h1, h2, fun hf => Nat.lt_of_lt_of_le (h3 hf) hcap⟩
  unparsed h0 := by
    rw [hk.length, hk.bodyEndOffset]
    exact hw.unparsed (hk.bodyOffset ▸ h0)
  short h0 := by
    rw [hk.length, hk.bodyEndOffset]
    exact hw.short (hk.bodyOffset ▸ h0)

theorem Waiting.grown {n : ℕ} (hw : Waiting r c) (g : Grown c n c') : Waiting r c' := by
  apply hw.kept g.toKept g.unended
  rw [g.capacity]
  exact Nat.le_max_left _ _

theorem Waiting.note (hw : Waiting r c) (events : List Event) : Waiting r (c.note events) :=
  hw.kept ((Kept.refl c).note events) (fun hu a b h => hu a b (List.mem_append_right _ h)) (Nat.le_refl _)

/-! ### Posting a receive -/

/-- While the headers have not been parsed the buffer may grow by so much. -/
theorem Bounded.grown_head {n : ℕ} (hb : Bounded r c) (hw : Waiting r c) (h0 : c.bodyOffset = 0) (hn : n ≤ c.length + ciphertextMax)
    (g : Grown c n c') : Bounded r c' := by
  have hun := hw.unparsed h0
  have hend := hw.end_eq
  have hcl := hw.content_le
  apply hb.grown g (hw.head h0)
  · intro hu
    have := hw.unended hu
    unfold headerCapacity
    omega
  · intro _
    unfold headerCapacity
    omega

theorem issueReceive_spec {post : Post} (hb : Bounded r c) (hw : Waiting r c) (he : issueReceive r k c = .ok (c', post)) :
    Kept c c' ∧ Bounded r c' ∧ Waiting r c' ∧ post = postOf r c' ∧ 0 < post.size := by
  have hlt := hw.length_lt hb
  have hcap := hb.capacity_lt
  have hend := hw.end_eq
  have hoff := hw.offset_le
  unfold issueReceive at he
  by_cases h0 : c.bodyOffset = 0
  · rw [if_pos h0] at he
    have hpost : ∀ {c₁ : Context}, Kept c c₁ → Bounded r c₁ → Waiting r c₁ → c₁.bodyOffset = 0 → c₁.length < c₁.capacity →
        .ok (c₁.note [.difference c₁.capacity c₁.length, .posted (ulongSub c₁.capacity c₁.length),
          .bufferWrite c₁.length (ulongSub c₁.capacity c₁.length) c₁.capacity], ⟨.buffer, c₁.length, ulongSub c₁.capacity c₁.length⟩) =
            (.ok (c', post) : Except Status (Context × Post)) → Kept c c' ∧ Bounded r c' ∧ Waiting r c' ∧ post = postOf r c' ∧ 0 < post.size := by
      intro c₁ hk₁ hb₁ hw₁ h0₁ hlt₁ he
      obtain ⟨rfl, rfl⟩ := Prod.mk.inj (Except.ok.inj he)
      rw [ulongSub_of_le (Nat.le_of_lt hlt₁) hb₁.capacity_lt]
      refine ⟨hk₁.note _, hb₁.note ?_, hw₁.note _, ?_, ?_⟩
      · intro e he
        simp only [List.mem_cons, List.not_mem_nil, or_false] at he
        rcases he with rfl | rfl | rfl <;> simp only [Event.Safe] <;> omega
      · simp [postOf, Context.note, h0₁]
      · show 0 < c₁.capacity - c₁.length
        omega
    by_cases hfull : c.length = c.capacity
    · rw [if_pos hfull] at he
      cases hg : c.grow (c.capacity + pageSize) k with
      | error st => simp [hg, bind, Except.bind] at he
      | ok c₁ =>
        simp only [hg, bind, Except.bind] at he
        have g := grow_spec hg
        have hpage : pageSize ≤ ciphertextMax := by decide
        have hpos : 0 < pageSize := by decide
        apply hpost g.toKept (hb.grown_head hw h0 (by omega) g) (hw.grown g) (g.bodyOffset.trans h0) _ he
        rw [g.length, g.capacity]
        omega
    · rw [if_neg hfull] at he
      have := hw.head h0
      exact hpost (.refl c) hb hw h0 (by omega) he
  · have hshort := hw.short h0
    obtain ⟨h1, h2, h3⟩ := hw.body h0
    rw [if_neg h0, ulong_of_lt h1, ulongSub_of_le (Nat.le_of_lt hshort) h1, ulong_of_lt (by omega), ulongSub_of_le hoff hlt] at he
    split_ifs at he with ht
    · obtain ⟨rfl, rfl⟩ := Prod.mk.inj (Except.ok.inj he)
      refine ⟨(Kept.refl c).note _, hb.note ?_, hw.note _, ?_, ?_⟩
      · intro e he
        have hx := h2 ht
        simp only [List.mem_cons, List.not_mem_nil, or_false] at he
        rcases he with rfl | rfl | rfl | rfl | rfl | rfl <;> simp only [Event.Safe] <;> omega
      · simp [postOf, Context.note, h0, ht]
      · show 0 < c.bodyEndOffset - c.length
        omega
    · obtain ⟨rfl, rfl⟩ := Prod.mk.inj (Except.ok.inj he)
      have h4 := h3 (by simpa using ht)
      refine ⟨(Kept.refl c).note _, hb.note ?_, hw.note _, ?_, ?_⟩
      · intro e he
        simp only [List.mem_cons, List.not_mem_nil, or_false] at he
        rcases he with rfl | rfl | rfl | rfl <;> simp only [Event.Safe] <;> omega
      · simp [postOf, Context.note, h0, ht]
      · show 0 < c.bodyEndOffset - c.length
        omega

/-- A receive is posted whenever there is memory for it. -/
theorem issueReceive_error {st : Status} (hw : Waiting r c) (he : issueReceive r k c = .error st) : k.pool = false := by
  unfold issueReceive at he
  by_cases h0 : c.bodyOffset = 0
  · rw [if_pos h0] at he
    by_cases hfull : c.length = c.capacity
    · rw [if_pos hfull] at he
      cases hg : c.grow (c.capacity + pageSize) k with
      | ok c₁ => simp [hg, bind, Except.bind] at he
      | error st₁ =>
        rcases grow_error hg with ⟨_, hbig⟩ | ⟨_, hp⟩
        · have h1 := hw.unparsed h0
          have h2 := hw.end_eq
          have h3 := hw.content_le
          have h4 : maxHeaderBytes = 65536 := by decide
          have h5 : maxContentLength = 67108864 := by decide
          have h6 : maxULong = 4294967295 := by decide
          have h7 : pageSize = 4096 := rfl
          omega
        · exact hp
    · rw [if_neg hfull] at he
      simp [bind, Except.bind] at he
  · rw [if_neg h0] at he
    simp only at he
    split_ifs at he

/-! ### What a receive brings -/

section Received

variable {post : Post} {chunk : Bytes}

@[simp] theorem received_capacity : (c.received post chunk).capacity = c.capacity := by
  unfold Context.received
  cases post.target <;> rfl

@[simp] theorem received_log : (c.received post chunk).log = .narrowed (c.length + chunk.length) :: c.log := by
  unfold Context.received
  cases post.target <;> rfl

theorem received_length : (c.received post chunk).length = ulong (c.length + chunk.length) := by
  unfold Context.received
  cases post.target <;> rfl

@[simp] theorem received_bodyOffset : (c.received post chunk).bodyOffset = c.bodyOffset := by
  unfold Context.received
  cases post.target <;> rfl

@[simp] theorem received_contentLength : (c.received post chunk).contentLength = c.contentLength := by
  unfold Context.received
  cases post.target <;> rfl

@[simp] theorem received_bodyEndOffset : (c.received post chunk).bodyEndOffset = c.bodyEndOffset := by
  unfold Context.received
  cases post.target <;> rfl

end Received

/-- The body is never counted past its end. -/
theorem postOf_size_le (h0 : c.bodyOffset ≠ 0) : (postOf r c).size = c.bodyEndOffset - c.length := by
  unfold postOf
  rw [if_neg h0]
  split_ifs <;> rfl

theorem received_length_eq {chunk : Bytes} (hb : Bounded r c) (hw : Waiting r c) (hc : chunk.length ≤ (postOf r c).size) :
    (c.received (postOf r c) chunk).length = c.length + chunk.length := by
  rw [received_length]
  apply ulong_of_lt
  by_cases h0 : c.bodyOffset = 0
  · simp only [postOf, h0, if_true] at hc
    have := hb.capacity_lt
    have := hw.head h0
    omega
  · rw [postOf_size_le h0] at hc
    have := (hw.body h0).1
    have := hw.short h0
    omega

theorem received_spec {chunk : Bytes} (hb : Bounded r c) (hw : Waiting r c) (hc : chunk.length ≤ (postOf r c).size) :
    Bounded r (c.received (postOf r c) chunk) ∧ Arrived r (c.received (postOf r c) chunk) := by
  have hlen := received_length_eq hb hw hc
  have hlt : c.length + chunk.length < 2 ^ 32 := by
    rw [← hlen, received_length]
    exact Nat.mod_lt _ (by decide)
  constructor
  · have hn : Bounded r (c.note [.narrowed (c.length + chunk.length)]) := hb.note (by simpa [Event.Safe] using hlt)
    exact hn.congr received_capacity received_log
  · constructor
    · intro hu
      rw [received_bodyEndOffset]
      apply hw.unended
      intro a b h
      apply hu a b
      rw [received_log]
      exact List.mem_cons_of_mem _ h
    · simpa using hw.end_eq
    · simpa using hw.content_le
    · rw [hlen, received_bodyOffset]
      exact Nat.le_trans hw.offset_le (Nat.le_add_right _ _)
    · intro h0
      rw [received_bodyOffset] at h0
      have := hw.head h0
      simp only [postOf, h0, if_true] at hc
      rw [hlen, received_capacity]
      omega
    · simpa using hw.body

/-! ### What a record brings -/

/-- Where a record of `n` bytes is decrypted to has room for it. -/
def DestFits (r : Request) (c : Context) (n : ℕ) : Destination → Prop
  | .mdl start => r.targetMdl ∧ c.bodyOffset ≠ 0 ∧ start = c.length - c.bodyOffset ∧ n ≤ c.bodyEndOffset - c.length
  | .scratch start room => r.targetMdl ∧ c.bodyOffset ≠ 0 ∧ start = c.length - c.bodyOffset ∧ room = c.bodyEndOffset - c.length
  | .buffer start => (r.targetMdl → c.bodyOffset = 0) ∧ start = c.length ∧ c.length + n ≤ c.capacity

/-- A record that is decrypted to the buffer finds it large enough. -/
theorem Bounded.grown_record {n : ℕ} (hb : Bounded r c) (hw : Waiting r c) (ht : ¬ (r.targetMdl ∧ c.bodyOffset ≠ 0)) (hn : n ≤ ciphertextMax)
    (g : Grown c (c.length + n) c') : Bounded r c' := by
  by_cases h0 : c.bodyOffset = 0
  · exact hb.grown_head hw h0 (by omega) g
  · have hshort := hw.short h0
    have hno : ¬ r.targetMdl := fun hm => ht ⟨hm, h0⟩
    have hroom := (hw.body h0).2.2 (by simpa using hno)
    apply hb.grown g (by omega)
    · intro hu
      have := hw.unended hu
      omega
    · exact fun hm => absurd hm hno

theorem destination_spec {n : ℕ} {dest : Destination} (hb : Bounded r c) (hw : Waiting r c) (hn : n ≤ ciphertextMax)
    (he : destination r k c n = .ok (c', dest)) : Kept c c' ∧ Bounded r c' ∧ Waiting r c' ∧ DestFits r c' n dest := by
  have hlt := hw.length_lt hb
  have hend := hw.end_eq
  have hoff := hw.offset_le
  unfold destination at he
  split_ifs at he with ht h1 h2
  · have hshort := hw.short ht.2
    obtain ⟨h3, h4, _⟩ := hw.body ht.2
    rw [ulong_of_lt h3, ulongSub_of_le (Nat.le_of_lt hshort) h3, ulong_of_lt (by omega), ulongSub_of_le hoff hlt] at he
    obtain ⟨rfl, rfl⟩ := Prod.mk.inj (Except.ok.inj he)
    refine ⟨(Kept.refl c).note _, hb.note ?_, hw.note _, ?_⟩
    · intro e he
      simp only [List.mem_cons, List.not_mem_nil, or_false] at he
      rcases he with rfl | rfl | rfl | rfl <;> simp only [Event.Safe] <;> omega
    · split_ifs with hle
      · exact ⟨ht.1, ht.2, rfl, hle⟩
      · exact ⟨ht.1, ht.2, rfl, rfl⟩
  · cases hg : c.grow (c.length + n) k with
    | error st => simp [hg, bind, Except.bind] at he
    | ok c₁ =>
      simp only [hg, bind, Except.bind] at he
      obtain ⟨rfl, rfl⟩ := Prod.mk.inj (Except.ok.inj he)
      have g := grow_spec hg
      refine ⟨g.toKept, hb.grown_record hw ht hn g, hw.grown g, ?_, rfl, ?_⟩
      · intro hm
        rw [g.bodyOffset]
        by_contra h0
        exact ht ⟨hm, h0⟩
      · rw [g.length, g.capacity]
        omega

/-- Content that stands where the response goes on. -/
def Landed (r : Request) (c : Context) (content : Bytes) : Destination → Prop
  | .mdl start => r.targetMdl ∧ c.bodyOffset ≠ 0 ∧ start = c.length - c.bodyOffset ∧ c.length + content.length ≤ c.bodyEndOffset ∧
      load c.mdl start content.length = content
  | .scratch start room => r.targetMdl ∧ c.bodyOffset ≠ 0 ∧ start = c.length - c.bodyOffset ∧ room = c.bodyEndOffset - c.length
  | .buffer start => (r.targetMdl → c.bodyOffset = 0) ∧ start = c.length ∧ c.length + content.length ≤ c.capacity ∧
      load c.buffer start content.length = content

/-- Plaintext at its destination changes nothing of the response that is there already. -/
theorem decrypted_kept {p : Bytes} {dest : Destination} (hd : DestFits r c p.length dest) : Kept c (c.decrypted p dest) := by
  cases dest with
  | mdl start =>
    obtain ⟨_, _, rfl, _⟩ := hd
    exact ⟨rfl, rfl, rfl, rfl, rfl, rfl, rfl, fun _ hi => store_of_lt hi, fun _ _ => rfl⟩
  | scratch start room => exact (Kept.refl c).note _
  | buffer start =>
    obtain ⟨_, rfl, _⟩ := hd
    exact ⟨rfl, rfl, rfl, rfl, rfl, rfl, rfl, fun _ _ => rfl, fun _ hi => store_of_lt hi⟩

theorem decrypted_unended {p : Bytes} {dest : Destination} (hu : (c.decrypted p dest).Unended) : c.Unended := by
  intro a b h
  apply hu a b
  cases dest <;> exact List.mem_cons_of_mem _ h

theorem decrypted_bounded {p : Bytes} {dest : Destination} (hb : Bounded r c) (hw : Waiting r c) (hn : p.length ≤ ciphertextMax)
    (hd : DestFits r c p.length dest) : Bounded r (c.decrypted p dest) := by
  have hend := hw.end_eq
  have hoff := hw.offset_le
  cases dest with
  | mdl start =>
    obtain ⟨ht, h0, rfl, hle⟩ := hd
    have hshort := hw.short h0
    have hx := (hw.body h0).2.1 ht
    have hn : Bounded r (c.note [.mdlWrite (c.length - c.bodyOffset) p.length c.contentLength]) := by
      apply hb.note
      intro e he
      rw [List.mem_singleton.mp he]
      exact ⟨by omega, hx⟩
    exact hn.congr rfl rfl
  | scratch start room =>
    apply hb.note
    intro e he
    rw [List.mem_singleton.mp he]
    show 0 + p.length ≤ ciphertextMax
    omega
  | buffer start =>
    obtain ⟨_, rfl, hle⟩ := hd
    have hn : Bounded r (c.note [.bufferWrite c.length p.length c.capacity]) := by
      apply hb.note
      intro e he
      rw [List.mem_singleton.mp he]
      exact hle
    exact hn.congr rfl rfl

theorem decrypted_waiting {p : Bytes} {dest : Destination} (hw : Waiting r c) (hd : DestFits r c p.length dest) : Waiting r (c.decrypted p dest) := by
  apply hw.kept (decrypted_kept hd) decrypted_unended
  cases dest <;> exact Nat.le_refl _

theorem decrypted_landed {p : Bytes} {dest : Destination} {n : ℕ} (hw : Waiting r c) (hn : n ≤ p.length) (hd : DestFits r c p.length dest) :
    Landed r (c.decrypted p dest) (p.take n) dest := by
  have hl : (p.take n).length = n := by simp [hn]
  cases dest with
  | mdl start =>
    obtain ⟨ht, h0, rfl, hle⟩ := hd
    have hshort := hw.short h0
    refine ⟨ht, h0, rfl, ?_, ?_⟩
    · show c.length + (p.take n).length ≤ c.bodyEndOffset
      omega
    · rw [hl]
      exact load_store_take hn
  | scratch start room => exact hd
  | buffer start =>
    obtain ⟨ht, rfl, hle⟩ := hd
    refine ⟨ht, rfl, ?_, ?_⟩
    · show c.length + (p.take n).length ≤ c.capacity
      omega
    · rw [hl]
      exact load_store_take hn

/-- The response with what stands behind it counted in. -/
theorem extended_of_load {content : Bytes} {events : List Event} (hlt : c.length + content.length < 2 ^ 32) (hoff : c.bodyOffset ≤ c.length)
    (hh : c.bodyOffset = 0 → load c.buffer c.length content.length = content)
    (hb : c.bodyOffset ≠ 0 → if r.targetMdl then load c.mdl (c.length - c.bodyOffset) content.length = content
      else load c.buffer c.length content.length = content) :
    Extended r c content ({ c with length := ulong (c.length + content.length) }.note events) := by
  rw [ulong_of_lt hlt]
  refine ⟨rfl, rfl, rfl, rfl, rfl, rfl, rfl, ?_⟩
  unfold Context.soFar Context.bodySoFar
  simp only [Context.note]
  have hsub : c.length + content.length - c.bodyOffset = c.length - c.bodyOffset + content.length := by omega
  by_cases h0 : c.bodyOffset = 0
  · simp only [h0, if_true]
    rw [load_add, Nat.zero_add, hh h0]
  · specialize hb h0
    simp only [h0, if_false]
    rw [hsub]
    split_ifs at hb ⊢ with ht
    · rw [load_add, Nat.zero_add, hb]
    · rw [load_add, show c.bodyOffset + (c.length - c.bodyOffset) = c.length by omega, hb]

/-- More of a response that was waited for, as long as it stays in the buffer. -/
theorem Waiting.extended {content : Bytes} (hw : Waiting r c) (e : Extended r c content c') (hu : c'.Unended → c.Unended)
    (hcap : c.capacity ≤ c'.capacity) (hh : c.bodyOffset = 0 → c'.length ≤ c'.capacity) : Arrived r c' where
  unended h := e.bodyEndOffset.trans (hw.unended (hu h))
  end_eq := by rw [e.bodyEndOffset, e.bodyOffset, e.contentLength, hw.end_eq]
  content_le := e.contentLength ▸ hw.content_le
  offset_le := by
    rw [e.bodyOffset, e.length]
    exact Nat.le_trans hw.offset_le (Nat.le_add_right _ _)
  head h0 := hh (e.bodyOffset ▸ h0)
  body h0 := by
    obtain ⟨h1, h2, h3⟩ := hw.body (e.bodyOffset ▸ h0)
    rw [e.bodyEndOffset, e.contentLength]
    exact ⟨h1, h2, fun hf => Nat.lt_of_lt_of_le (h3 hf) hcap⟩

theorem Arrived.waiting (ha : Arrived r c) (h0 : c.bodyOffset ≠ 0) (hs : c.length < c.bodyEndOffset) : Waiting r c where
  toArrived := ha
  unparsed h := absurd h h0
  short _ := hs

/-- What counting some content comes to. -/
inductive Accounted (r : Request) (c : Context) (content : Bytes) (s : Socket) : Drained → Prop
  | overrun {c' : Context} : Bounded r c' → c.bodyOffset ≠ 0 → c.bodyEndOffset < c.length + content.length →
      Accounted r c content s (.failed .invalidParameter c')
  | deliver {c' : Context} : Extended r c content c' → Bounded r c' → Arrived r c' → c'.bodyOffset = 0 ∨ c'.bodyEndOffset ≤ c'.length →
      Accounted r c content s (.deliver c' s)
  | next {c' : Context} : Extended r c content c' → Bounded r c' → Waiting r c' → c'.bodyOffset ≠ 0 → Accounted r c content s (.next c' s)

/-- Content is counted in a context that has it where the response goes on. -/
theorem counted_spec {c₁ : Context} {content : Bytes} {s : Socket} (hw : Waiting r c) (hk : Kept c c₁) (hb : Bounded r c₁)
    (hc : c₁.capacity = c.capacity) (hu : c₁.Unended → c.Unended) (hlt : c.length + content.length < 2 ^ 32)
    (hh : c.bodyOffset = 0 → c.length + content.length ≤ c.capacity ∧ load c₁.buffer c.length content.length = content)
    (hbody : c.bodyOffset ≠ 0 → if r.targetMdl then load c₁.mdl (c.length - c.bodyOffset) content.length = content
      else load c₁.buffer c.length content.length = content) :
    Accounted r c content s (counted s content.length c₁) := by
  have hoff := hw.offset_le
  have hl₁ := hk.length
  have ho₁ := hk.bodyOffset
  have he : Extended r c₁ content ({ c₁ with length := ulong (c₁.length + content.length) }.note [.narrowed (c₁.length + content.length)]) := by
    apply extended_of_load
    · omega
    · omega
    · intro h0
      rw [hl₁]
      exact (hh (ho₁.symm.trans h0)).2
    · intro h0
      rw [hl₁, ho₁]
      exact hbody (ho₁ ▸ h0)
  have hx := hk.extended he
  have hb' : Bounded r ({ c₁ with length := ulong (c₁.length + content.length) }.note [.narrowed (c₁.length + content.length)]) := by
    have hn : Bounded r (c₁.note [.narrowed (c₁.length + content.length)]) := by
      apply hb.note
      intro e he
      rw [List.mem_singleton.mp he]
      show c₁.length + content.length < 2 ^ 32
      omega
    exact hn.congr rfl rfl
  have ha : Arrived r ({ c₁ with length := ulong (c₁.length + content.length) }.note [.narrowed (c₁.length + content.length)]) := by
    apply hw.extended hx
    · intro h
      apply hu
      exact fun a b hm => h a b (List.mem_cons_of_mem _ hm)
    · exact Nat.le_of_eq hc.symm
    · intro h0
      rw [hx.length]
      show c.length + content.length ≤ c₁.capacity
      rw [hc]
      exact (hh h0).1
  unfold counted
  simp only
  split_ifs with hd
  · exact .deliver hx hb' ha hd
  · have hd' := not_or.mp hd
    exact .next hx hb' (ha.waiting hd'.1 (Nat.lt_of_not_le hd'.2)) hd'.1

/-- Content that has landed is counted, unless there is more of it than the body has left. -/
theorem account_spec {content : Bytes} {dest : Destination} {s : Socket} (hb : Bounded r c) (hw : Waiting r c) (hl : Landed r c content dest) :
    Accounted r c content s (account s content c dest) := by
  have hend := hw.end_eq
  have hoff := hw.offset_le
  have hcap := hb.capacity_lt
  cases dest with
  | mdl start =>
    obtain ⟨ht, h0, rfl, hle, hload⟩ := hl
    have hlt := (hw.body h0).1
    apply counted_spec hw (.refl c) hb rfl id (by omega) (fun h => absurd h h0)
    intro _
    rw [if_pos ht]
    exact hload
  | scratch start room =>
    obtain ⟨ht, h0, rfl, rfl⟩ := hl
    have hlt := (hw.body h0).1
    have hshort := hw.short h0
    have hx := (hw.body h0).2.1 ht
    unfold account
    simp only
    split_ifs with hroom
    · exact .overrun hb h0 (by omega)
    · have hn : Bounded r (c.note [.mdlWrite (c.length - c.bodyOffset) content.length c.contentLength]) := by
        apply hb.note
        intro e he
        rw [List.mem_singleton.mp he]
        exact ⟨by omega, hx⟩
      apply counted_spec hw
      · exact ⟨rfl, rfl, rfl, rfl, rfl, rfl, rfl, fun _ hi => store_of_lt hi, fun _ _ => rfl⟩
      · exact hn.congr rfl rfl
      · rfl
      · exact fun h a b hm => h a b (List.mem_cons_of_mem _ hm)
      · omega
      · exact fun h => absurd h h0
      · intro _
        rw [if_pos ht]
        exact load_store_self
  | buffer start =>
    obtain ⟨ht, rfl, hle, hload⟩ := hl
    apply counted_spec hw (.refl c) hb rfl id (by omega) (fun _ => ⟨hle, hload⟩)
    intro h0
    rw [if_neg fun hm => h0 (ht hm)]
    exact hload

/-- What a plaintext receive brings goes on the response. -/
theorem received_extended {chunk : Bytes} (hb : Bounded r c) (hw : Waiting r c) (hc : chunk.length ≤ (postOf r c).size) :
    Extended r c chunk (c.received (postOf r c) chunk) := by
  have hlen := received_length_eq hb hw hc
  have hoff := hw.offset_le
  have hlt : c.length + chunk.length < 2 ^ 32 := by
    rw [← hlen, received_length]
    exact Nat.mod_lt _ (by decide)
  by_cases h0 : c.bodyOffset = 0
  · have hp : postOf r c = ⟨.buffer, c.length, c.capacity - c.length⟩ := if_pos h0
    rw [hp]
    have hk : Kept c { c with buffer := store c.buffer c.length chunk } :=
      ⟨rfl, rfl, rfl, rfl, rfl, rfl, rfl, fun _ _ => rfl, fun _ hi => store_of_lt hi⟩
    exact hk.extended (extended_of_load hlt hoff (fun _ => load_store_self) fun h => absurd h0 h)
  · by_cases ht : r.targetMdl = true
    · have hp : postOf r c = ⟨.mdl, c.length - c.bodyOffset, c.bodyEndOffset - c.length⟩ := by rw [postOf, if_neg h0, if_pos ht]
      rw [hp]
      have hk : Kept c { c with mdl := store c.mdl (c.length - c.bodyOffset) chunk } :=
        ⟨rfl, rfl, rfl, rfl, rfl, rfl, rfl, fun _ hi => store_of_lt hi, fun _ _ => rfl⟩
      apply hk.extended (extended_of_load hlt hoff (fun h => absurd h h0) _)
      rw [if_pos ht]
      exact fun _ => load_store_self
    · have hp : postOf r c = ⟨.buffer, c.length, c.bodyEndOffset - c.length⟩ := by rw [postOf, if_neg h0, if_neg ht]
      rw [hp]
      have hk : Kept c { c with buffer := store c.buffer c.length chunk } :=
        ⟨rfl, rfl, rfl, rfl, rfl, rfl, rfl, fun _ _ => rfl, fun _ hi => store_of_lt hi⟩
      apply hk.extended (extended_of_load hlt hoff (fun h => absurd h h0) _)
      rw [if_neg ht]
      exact fun _ => load_store_self

end BlorgFS.Http

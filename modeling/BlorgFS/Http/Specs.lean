import BlorgFS.Http.Receive

/-! What each function of the receive path does, one lemma for each, so that nothing above
has to look into them again. -/

namespace BlorgFS.Http

open Lib Tls

/-- What is on the log is as it should be: writes inside their destination, numbers that are
exact, receives for something. -/
def Event.Safe (r : Request) : Event → Prop
  | .bufferWrite start size capacity => start + size ≤ capacity
  | .mdlWrite start size contentLength => start + size ≤ contentLength ∧ contentLength = r.expectedContentLength
  | .sum a b => a + b < 2 ^ 64
  | .narrowed n => n < 2 ^ 32
  | .difference a b => b ≤ a
  | .posted size => 0 < size

variable {r : Request} {c c' : Context} {k : Choice} {parse : Bytes → Parsed}

/-! ### Growing the buffer -/

/-- The same response as far as it has come, perhaps in another buffer. -/
structure Kept (c c' : Context) : Prop where
  length : c'.length = c.length
  bodyOffset : c'.bodyOffset = c.bodyOffset
  contentLength : c'.contentLength = c.contentLength
  bodyEndOffset : c'.bodyEndOffset = c.bodyEndOffset
  statusCode : c'.statusCode = c.statusCode
  noStore : c'.noStore = c.noStore
  version : c'.version = c.version
  mdl : ∀ i < c.length - c.bodyOffset, c'.mdl i = c.mdl i
  buffer : ∀ i < c.length, c'.buffer i = c.buffer i

theorem Kept.refl (c : Context) : Kept c c := ⟨rfl, rfl, rfl, rfl, rfl, rfl, rfl, fun _ _ => rfl, fun _ _ => rfl⟩

theorem Kept.trans {c₁ : Context} (h : Kept c c₁) (h' : Kept c₁ c') : Kept c c' where
  length := h'.length.trans h.length
  bodyOffset := h'.bodyOffset.trans h.bodyOffset
  contentLength := h'.contentLength.trans h.contentLength
  bodyEndOffset := h'.bodyEndOffset.trans h.bodyEndOffset
  statusCode := h'.statusCode.trans h.statusCode
  noStore := h'.noStore.trans h.noStore
  version := h'.version.trans h.version
  mdl i hi := by
    rw [h'.mdl i (by rw [h.length, h.bodyOffset]; exact hi), h.mdl i hi]
  buffer i hi := by
    rw [h'.buffer i (by rw [h.length]; exact hi), h.buffer i hi]

theorem Kept.note (h : Kept c c') (events : List Event) : Kept c (c'.note events) :=
  ⟨h.length, h.bodyOffset, h.contentLength, h.bodyEndOffset, h.statusCode, h.noStore, h.version, h.mdl, h.buffer⟩

/-- What there is of the body, wherever it goes. -/
def Context.bodySoFar (r : Request) (c : Context) : Bytes :=
  if r.targetMdl then load c.mdl 0 (c.length - c.bodyOffset) else load c.buffer c.bodyOffset (c.length - c.bodyOffset)

/-- What has come of a response: everything until the headers have been parsed, and then the
body. -/
def Context.soFar (r : Request) (c : Context) : Bytes :=
  if c.bodyOffset = 0 then load c.buffer 0 c.length else c.bodySoFar r

theorem Kept.soFar (h : Kept c c') (r : Request) : c'.soFar r = c.soFar r := by
  unfold Context.soFar Context.bodySoFar
  rw [h.bodyOffset, h.length]
  split_ifs
  · apply load_congr
    intro i _ hi
    exact h.buffer i (by omega)
  · apply load_congr
    intro i _ hi
    exact h.mdl i (by omega)
  · apply load_congr
    intro i _ hi
    exact h.buffer i (by omega)

/-- More of a response. -/
structure Extended (r : Request) (c : Context) (content : Bytes) (c' : Context) : Prop where
  length : c'.length = c.length + content.length
  bodyOffset : c'.bodyOffset = c.bodyOffset
  contentLength : c'.contentLength = c.contentLength
  bodyEndOffset : c'.bodyEndOffset = c.bodyEndOffset
  statusCode : c'.statusCode = c.statusCode
  noStore : c'.noStore = c.noStore
  version : c'.version = c.version
  soFar : c'.soFar r = c.soFar r ++ content

theorem Kept.extended {c₁ : Context} {content : Bytes} (h : Kept c c₁) (e : Extended r c₁ content c') : Extended r c content c' where
  length := by rw [e.length, h.length]
  bodyOffset := e.bodyOffset.trans h.bodyOffset
  contentLength := e.contentLength.trans h.contentLength
  bodyEndOffset := e.bodyEndOffset.trans h.bodyEndOffset
  statusCode := e.statusCode.trans h.statusCode
  noStore := e.noStore.trans h.noStore
  version := e.version.trans h.version
  soFar := by rw [e.soFar, h.soFar]

/-- A buffer that has been made large enough holds what it held. -/
structure Grown (c : Context) (required : ℕ) (c' : Context) : Prop extends Kept c c' where
  capacity : c'.capacity = max c.capacity required
  fits : required ≤ c.capacity ∨ required ≤ maxULong
  log : c'.log = c.log ∨ c'.log = .bufferWrite 0 c.length required :: c.log ∧ c.capacity < required

theorem grow_spec {n : ℕ} (h : c.grow n k = .ok c') : Grown c n c' := by
  unfold Context.grow at h
  split_ifs at h with h1 h2 h3
  · obtain rfl := Except.ok.inj h
    refine ⟨.refl _, ?_, .inl h1, .inl rfl⟩
    omega
  · obtain rfl := Except.ok.inj h
    refine ⟨⟨rfl, rfl, rfl, rfl, rfl, rfl, rfl, fun _ _ => rfl, fun _ hi => if_pos hi⟩, ?_, .inr (by omega), .inr ⟨rfl, by omega⟩⟩
    show n = max c.capacity n
    omega

theorem grow_error {n : ℕ} {st : Status} (h : c.grow n k = .error st) : st = .invalidParameter ∧ maxULong < n ∨ st = .insufficientResources ∧ k.pool = false := by
  unfold Context.grow at h
  split_ifs at h with h1 h2 h3
  · exact .inl ⟨(Except.error.inj h).symm, h2⟩
  · exact .inr ⟨(Except.error.inj h).symm, by simpa using h3⟩

theorem Grown.capacity_lt {n : ℕ} (g : Grown c n c') (h : c.capacity < 2 ^ 32) : c'.capacity < 2 ^ 32 := by
  have hf := g.fits
  have hm : maxULong = 2 ^ 32 - 1 := rfl
  rw [g.capacity]
  omega

theorem Grown.log_subset {n : ℕ} (g : Grown c n c') : c.log ⊆ c'.log := by
  intro e he
  rcases g.log with hl | ⟨hl, _⟩
  · exact hl ▸ he
  · exact hl ▸ List.mem_cons_of_mem _ he

theorem Grown.log_safe {n : ℕ} (g : Grown c n c') (hle : c.length ≤ c.capacity) (r : Request) {e : Event} (he : e ∈ c'.log) : e ∈ c.log ∨ e.Safe r := by
  rcases g.log with hl | ⟨hl, hlt⟩
  · exact .inl (hl ▸ he)
  · rw [hl, List.mem_cons] at he
    rcases he with rfl | he
    · right
      show 0 + c.length ≤ n
      omega
    · exact .inl he

/-! ### Moving the body -/

/-- The numbers of a response whose headers have just been parsed out of what is in the
buffer, and which has not been sent more than it declares. -/
structure Headed (c : Context) : Prop where
  end_eq : c.bodyEndOffset = c.bodyOffset + c.contentLength
  content_le : c.contentLength ≤ maxContentLength
  offset_le : c.bodyOffset ≤ c.length
  length_le : c.length ≤ c.capacity
  capacity_lt : c.capacity < 2 ^ 32
  inside : c.length ≤ c.bodyEndOffset

/-- A context with the body `shift` further down in its buffer. -/
structure Moved (c : Context) (shift : ℕ) (c' : Context) : Prop where
  bodyOffset : c'.bodyOffset = c.bodyOffset + shift
  length : c'.length = c.length + shift
  bodyEndOffset : c'.bodyEndOffset = c.bodyEndOffset + shift
  contentLength : c'.contentLength = c.contentLength
  statusCode : c'.statusCode = c.statusCode
  noStore : c'.noStore = c.noStore
  version : c'.version = c.version
  content : load c'.buffer c'.bodyOffset (c'.length - c'.bodyOffset) = load c.buffer c.bodyOffset (c.length - c.bodyOffset)
  capacity_lt : c'.capacity < 2 ^ 32
  length_le : c'.length ≤ c'.capacity
  log_subset : c.log ⊆ c'.log
  log_safe : ∀ r, ∀ e ∈ c'.log, e ∈ c.log ∨ e.Safe r

theorem Moved.refl (h : Headed c) : Moved c 0 c where
  bodyOffset := rfl
  length := rfl
  bodyEndOffset := rfl
  contentLength := rfl
  statusCode := rfl
  noStore := rfl
  version := rfl
  content := rfl
  capacity_lt := h.capacity_lt
  length_le := h.length_le
  log_subset := fun _ he => he
  log_safe := fun _ _ he => .inl he

/-- A larger buffer moves nothing. -/
theorem Moved.grown {shift n : ℕ} {c₁ : Context} (m : Moved c shift c₁) (g : Grown c₁ n c') : Moved c shift c' where
  bodyOffset := g.bodyOffset.trans m.bodyOffset
  length := g.length.trans m.length
  bodyEndOffset := g.bodyEndOffset.trans m.bodyEndOffset
  contentLength := g.contentLength.trans m.contentLength
  statusCode := g.statusCode.trans m.statusCode
  noStore := g.noStore.trans m.noStore
  version := g.version.trans m.version
  content := by
    rw [← m.content, g.bodyOffset, g.length]
    apply load_congr
    intro i _ hi
    exact g.buffer i (by omega)
  capacity_lt := g.capacity_lt m.capacity_lt
  length_le := by
    rw [g.length, g.capacity]
    exact Nat.le_trans m.length_le (Nat.le_max_left _ _)
  log_subset e he := g.log_subset (m.log_subset he)
  log_safe r e he := by
    rcases g.log_safe m.length_le r he with he | he
    · exact m.log_safe r e he
    · exact .inr he

theorem slide_spec (h : Headed c) (he : slide k c = .ok c') : ∃ shift < 8, Moved c shift c' ∧ c'.bodyOffset % 8 = 0 := by
  have hend := h.end_eq
  have hcl := h.content_le
  have hoff := h.offset_le
  have hlen := h.length_le
  have hcap := h.capacity_lt
  have hin := h.inside
  have hmax : maxContentLength = 67108864 := by decide
  unfold slide at he
  simp only at he
  split_ifs at he with hal
  · obtain rfl := Except.ok.inj he
    exact ⟨0, by omega, .refl h, by omega⟩
  · rw [checkedAdd_of_lt (by omega)] at he
    simp only at he
    cases hg : c.grow ((c.bodyOffset + 7) / 8 * 8 + c.contentLength + 1) k with
    | error st => simp [hg, bind, Except.bind] at he
    | ok c₁ =>
      simp only [hg, bind, Except.bind] at he
      obtain rfl := Except.ok.inj he
      have g := grow_spec hg
      have hlt := g.capacity_lt hcap
      have hca := g.capacity
      obtain ⟨shift, hs⟩ : ∃ shift, (c.bodyOffset + 7) / 8 * 8 = c.bodyOffset + shift := ⟨_, (Nat.add_sub_of_le (by omega)).symm⟩
      have hshift : shift < 8 := by omega
      have hsub : sizeSub c₁.length c₁.bodyOffset = c.length - c.bodyOffset := by
        rw [g.length, g.bodyOffset]
        exact sizeSub_of_le hoff (by omega)
      have hu : ulong (c₁.length + ulong (c.bodyOffset + shift - c₁.bodyOffset)) = c.length + shift := by
        rw [g.length, g.bodyOffset, ulong_of_lt (n := c.bodyOffset + shift - c.bodyOffset) (by omega), ulong_of_lt (by omega)]
        omega
      refine ⟨shift, hshift, ?_, ?_⟩
      · simp only [hs, hsub, hu]
        constructor <;> simp only [Context.note]
        · show c.bodyOffset + shift + c.contentLength = _
          omega
        · exact g.contentLength
        · exact g.statusCode
        · exact g.noStore
        · exact g.version
        · have hl : c.length + shift - (c.bodyOffset + shift) = (load c₁.buffer c₁.bodyOffset (c.length - c.bodyOffset)).length := by
            rw [length_load]
            omega
          rw [hl, load_store_self, g.bodyOffset]
          apply load_congr
          intro i _ hi
          exact g.buffer i (by omega)
        · exact hlt
        · omega
        · intro e hmem
          exact List.mem_append_right _ (g.log_subset hmem)
        · intro r e hmem
          rcases List.mem_append.mp hmem with hmem | hmem
          · right
            rw [g.contentLength, g.length, g.bodyOffset] at hmem
            simp only [List.mem_cons, List.not_mem_nil, or_false] at hmem
            rcases hmem with rfl | rfl | rfl | rfl | rfl <;> simp only [Event.Safe] <;> omega
          · exact g.log_safe hlen r hmem
      · show (c.bodyOffset + 7) / 8 * 8 % 8 = 0
        omega

/-- A response whose headers have been parsed, with what there is of its body where the rest
will follow. -/
structure Placed (r : Request) (c c' : Context) : Prop where
  end_eq : c'.bodyEndOffset = c'.bodyOffset + c'.contentLength
  length_eq : c'.length - c'.bodyOffset = c.length - c.bodyOffset
  offset_le : c'.bodyOffset ≤ c'.length
  parsed : c.bodyOffset ≤ c'.bodyOffset
  near : c'.bodyOffset ≤ c.bodyOffset + 7
  inside : c'.length ≤ c'.bodyEndOffset
  contentLength : c'.contentLength = c.contentLength
  statusCode : c'.statusCode = c.statusCode
  noStore : c'.noStore = c.noStore
  version : c'.version = c.version
  content : c'.bodySoFar r = load c.buffer c.bodyOffset (c.length - c.bodyOffset)
  capacity_lt : c'.capacity < 2 ^ 32
  head : c'.bodyOffset = 0 → c'.length ≤ c'.capacity
  room : r.targetMdl = false → c'.bodyEndOffset < c'.capacity
  kept : r.targetMdl → c'.capacity = c.capacity ∧ c'.bodyOffset = c.bodyOffset
  aligned : r.operation ≠ .fileRead → c'.bodyOffset % 8 = 0
  log_subset : c.log ⊆ c'.log
  log_safe : (r.targetMdl → c.contentLength = r.expectedContentLength) → ∀ e ∈ c'.log, e ∈ c.log ∨ e.Safe r

theorem operation_of_targetMdl (h : r.targetMdl = true) : r.operation = .fileRead := by
  cases r <;> first | rfl | cases h

/-- In the caller's pages the body starts at the front, and only they change. -/
theorem Placed.spilled (h : Headed c) (ht : r.targetMdl = true) {m : ℕ → UInt8} {events : List Event}
    (hm : load m 0 (c.length - c.bodyOffset) = load c.buffer c.bodyOffset (c.length - c.bodyOffset))
    (hs : c.contentLength = r.expectedContentLength → ∀ e ∈ events, e.Safe r) : Placed r c ({ c with mdl := m }.note events) where
  end_eq := h.end_eq
  length_eq := rfl
  offset_le := h.offset_le
  parsed := Nat.le_refl _
  near := Nat.le_add_right _ _
  inside := h.inside
  contentLength := rfl
  statusCode := rfl
  noStore := rfl
  version := rfl
  content := by
    rw [Context.bodySoFar, if_pos ht]
    exact hm
  capacity_lt := h.capacity_lt
  head := fun _ => h.length_le
  room := fun hf => absurd (ht.symm.trans hf) (by decide)
  kept := fun _ => ⟨rfl, rfl⟩
  aligned := fun hop => absurd (operation_of_targetMdl ht) hop
  log_subset := List.subset_append_right _ _
  log_safe := by
    intro hx e he
    rcases List.mem_append.mp he with he | he
    · exact .inr (hs (hx ht) e he)
    · exact .inl he

/-- In the buffer it may have moved, and the buffer is large enough for all of it. -/
theorem Placed.moved (h : Headed c) (ht : r.targetMdl = false) {shift : ℕ} {c₁ : Context} (hshift : shift < 8) (m : Moved c shift c₁)
    (g : Grown c₁ (c₁.bodyEndOffset + 1) c') (hal : r.operation ≠ .fileRead → c₁.bodyOffset % 8 = 0) : Placed r c c' := by
  have hend := h.end_eq
  have hoff := h.offset_le
  have hin := h.inside
  have m' := m.grown g
  have h1 := m'.bodyOffset
  have h2 := m'.length
  have h3 := m'.bodyEndOffset
  have h4 := m'.contentLength
  have hno : ¬ r.targetMdl = true := by simp [ht]
  constructor
  · omega
  · omega
  · omega
  · omega
  · omega
  · omega
  · exact h4
  · exact m'.statusCode
  · exact m'.noStore
  · exact m'.version
  · rw [Context.bodySoFar, if_neg hno]
    exact m'.content
  · exact m'.capacity_lt
  · exact fun _ => m'.length_le
  · intro _
    rw [g.capacity, g.bodyEndOffset]
    omega
  · exact fun hf => absurd hf hno
  · intro hop
    rw [g.bodyOffset]
    exact hal hop
  · exact m'.log_subset
  · exact fun _ => m'.log_safe r

theorem placeBody_spec (h : Headed c) (he : placeBody r k c = .ok c') : Placed r c c' := by
  unfold placeBody at he
  by_cases ht : r.targetMdl = true
  · have hsub : sizeSub c.length c.bodyOffset = c.length - c.bodyOffset := by
      have := h.length_le
      have := h.capacity_lt
      exact sizeSub_of_le h.offset_le (by omega)
    simp only [ht, if_true, hsub] at he
    split_ifs at he with h0 hm
    · obtain rfl := Except.ok.inj he
      have p : Placed r c ({ c with mdl := c.mdl }.note []) := .spilled h ht (by simp [h0]) (by simp)
      exact p
    · obtain rfl := Except.ok.inj he
      apply Placed.spilled h ht
      · have hl : load (store c.mdl 0 (load c.buffer c.bodyOffset (c.length - c.bodyOffset))) 0 (load c.buffer c.bodyOffset (c.length - c.bodyOffset)).length = _ := load_store_self
        rwa [length_load] at hl
      · intro hx e he
        simp only [List.mem_cons, List.not_mem_nil, or_false] at he
        rcases he with rfl | rfl
        · exact h.offset_le
        · have := h.inside
          have := h.end_eq
          exact ⟨by omega, hx⟩
  · have hf : r.targetMdl = false := by simpa using ht
    rw [if_neg ht] at he
    by_cases hop : r.operation = .fileRead
    · simp only [hop, if_true, bind, Except.bind] at he
      exact .moved h hf (by decide) (.refl h) (grow_spec he) fun hne => absurd hop hne
    · simp only [hop, if_false] at he
      cases hs : slide k c with
      | error st => simp [hs, bind, Except.bind] at he
      | ok c₁ =>
        simp only [hs, bind, Except.bind] at he
        obtain ⟨shift, hshift, m, hal⟩ := slide_spec h hs
        exact .moved h hf hshift m (grow_spec he) fun _ => hal

/-- The body cannot be placed only for want of memory, or when it does not fit a buffer. -/
theorem placeBody_error {st : Status} (h : Headed c) (he : placeBody r k c = .error st) :
    st = .insufficientResources ∧ (k.pool = false ∨ k.mapped = false) ∨ st = .invalidParameter ∧ maxULong ≤ c.bodyEndOffset + 7 := by
  have hend := h.end_eq
  have hcl := h.content_le
  have hoff := h.offset_le
  have hlen := h.length_le
  have hcap := h.capacity_lt
  have hmax : maxContentLength = 67108864 := by decide
  unfold placeBody at he
  by_cases ht : r.targetMdl = true
  · simp only [ht, if_true] at he
    split_ifs at he with h0 hm
    exact .inl ⟨(Except.error.inj he).symm, .inr (by simpa using hm)⟩
  · rw [if_neg ht] at he
    have hgrow : ∀ {c₁ : Context} {n : ℕ}, n ≤ c.bodyEndOffset + 8 → c₁.grow n k = .error st →
        st = .insufficientResources ∧ (k.pool = false ∨ k.mapped = false) ∨ st = .invalidParameter ∧ maxULong ≤ c.bodyEndOffset + 7 := by
      intro c₁ n hn hg
      rcases grow_error hg with ⟨hst, hlt⟩ | ⟨hst, hp⟩
      · exact .inr ⟨hst, by omega⟩
      · exact .inl ⟨hst, .inl hp⟩
    by_cases hop : r.operation = .fileRead
    · simp only [hop, if_true, bind, Except.bind] at he
      exact hgrow (by omega) he
    · simp only [hop, if_false] at he
      cases hs : slide k c with
      | error st₁ =>
        simp only [hs, bind, Except.bind] at he
        obtain rfl := Except.error.inj he
        unfold slide at hs
        simp only at hs
        split_ifs at hs with hal
        rw [checkedAdd_of_lt (by omega)] at hs
        simp only at hs
        cases hg : c.grow ((c.bodyOffset + 7) / 8 * 8 + c.contentLength + 1) k with
        | ok c₁ => simp [hg, bind, Except.bind] at hs
        | error st₂ =>
          simp only [hg, bind, Except.bind] at hs
          obtain rfl := Except.error.inj hs
          exact hgrow (by omega) hg
      | ok c₁ =>
        simp only [hs, bind, Except.bind] at he
        obtain ⟨shift, hshift, m, hal⟩ := slide_spec h hs
        have := m.bodyEndOffset
        exact hgrow (by omega) he

/-! ### Reading the response -/

/-- What the status and the headers of an answer decide: the request fails, or so many bytes
of body are to come. -/
def accept (r : Request) (statusCode : ℕ) (headers : List Header) : Except Status ℕ :=
  match getContentLength headers with
  | .error st => .error st
  | .ok contentLength =>
    if maxContentLength < contentLength then .error .invalidParameter
    else if statusCode ≠ r.expectedStatusCode then .error (statusToNtStatus statusCode)
    else if r.operation = .fileRead ∧ contentLength ≠ r.expectedContentLength then .error .invalidParameter
    else .ok contentLength

theorem accept_ok {statusCode n : ℕ} {headers : List Header} (h : accept r statusCode headers = .ok n) :
    n ≤ maxContentLength ∧ statusCode = r.expectedStatusCode ∧ (r.targetMdl → n = r.expectedContentLength) := by
  unfold accept at h
  split at h
  · cases h
  · split_ifs at h with h1 h2 h3
    obtain rfl := Except.ok.inj h
    refine ⟨by omega, by simpa using h2, ?_⟩
    intro ht
    by_contra hne
    exact h3 ⟨operation_of_targetMdl ht, hne⟩

/-- What parsing leaves in the context. -/
def Context.headed (c : Context) (r : Request) (consumed statusCode : ℕ) (headers : List Header) (contentLength : ℕ) : Context :=
  { c with
    statusCode, contentLength
    bodyOffset := consumed
    bodyEndOffset := consumed + contentLength
    noStore := r.noStore headers
    version := r.version headers }.note [.sum consumed contentLength]

/-- What `HttpReadResponse` makes of what is in the buffer while the headers have not been
parsed. -/
inductive Reading (parse : Bytes → Parsed) (r : Request) (k : Choice) (c : Context) : Verdict × Context → Prop
  | more : parse (load c.buffer 0 c.length) = .incomplete → c.length < maxHeaderBytes → Reading parse r k c (.again, c)
  | endless : parse (load c.buffer 0 c.length) = .incomplete → maxHeaderBytes ≤ c.length → Reading parse r k c (.failed .invalidNetworkResponse, c)
  | malformed : parse (load c.buffer 0 c.length) = .malformed → Reading parse r k c (.failed .invalidParameter, c)
  | refused {consumed statusCode headers st} : parse (load c.buffer 0 c.length) = .complete consumed statusCode headers →
      accept r statusCode headers = .error st → Reading parse r k c (.failed st, c)
  | refusedHeaded {consumed statusCode headers contentLength st} : parse (load c.buffer 0 c.length) = .complete consumed statusCode headers →
      accept r statusCode headers = .error st → contentLength ≤ maxContentLength →
      Reading parse r k c (.failed st, c.headed r consumed statusCode headers contentLength)
  | overrun {consumed statusCode headers contentLength} : parse (load c.buffer 0 c.length) = .complete consumed statusCode headers →
      accept r statusCode headers = .ok contentLength → consumed + contentLength < c.length →
      Reading parse r k c (.failed .invalidParameter, c.headed r consumed statusCode headers contentLength)
  | unplaced {consumed statusCode headers contentLength st} : parse (load c.buffer 0 c.length) = .complete consumed statusCode headers →
      accept r statusCode headers = .ok contentLength → c.length ≤ consumed + contentLength →
      placeBody r k (c.headed r consumed statusCode headers contentLength) = .error st →
      Reading parse r k c (.failed st, c.headed r consumed statusCode headers contentLength)
  | placed {consumed statusCode headers contentLength c'} : parse (load c.buffer 0 c.length) = .complete consumed statusCode headers →
      accept r statusCode headers = .ok contentLength → c.length ≤ consumed + contentLength →
      placeBody r k (c.headed r consumed statusCode headers contentLength) = .ok c' → Reading parse r k c (await c', c')

theorem readResponse_head (h0 : c.bodyOffset = 0) (hlt : c.length < 2 ^ 32)
    (hp : ∀ n code hs, parse (load c.buffer 0 c.length) = .complete n code hs → n ≤ c.length) :
    Reading parse r k c (readResponse parse r k c) := by
  have hmax : maxContentLength = 67108864 := by decide
  rw [readResponse, if_pos h0]
  cases hparse : parse (load c.buffer 0 c.length) with
  | incomplete =>
    rw [parseHeaders, hparse]
    simp only
    split_ifs with hl
    · exact .endless hparse hl
    · exact .more hparse (by omega)
  | malformed =>
    rw [parseHeaders, hparse]
    exact .malformed hparse
  | complete n code hs =>
    have hn := hp n code hs hparse
    have hacc : accept r code hs = accept r code hs := rfl
    conv_rhs at hacc => unfold accept
    cases hcl : getContentLength hs with
    | error st =>
      rw [hcl] at hacc
      rw [parseHeaders, hparse]
      simp only [hcl]
      have hst : st ≠ .bufferTooSmall := by rcases getContentLength_error hcl with rfl | rfl | rfl <;> decide
      cases st <;> first | exact absurd rfl hst | exact .refused hparse hacc
    | ok cl =>
      rw [hcl] at hacc
      simp only at hacc
      by_cases h1 : maxContentLength < cl
      · rw [parseHeaders, hparse]
        simp only [hcl, h1, if_true] at hacc ⊢
        exact .refused hparse hacc
      · rw [if_neg h1] at hacc
        have hheaders : parseHeaders parse r c = .ok (c.headed r n code hs cl) := by
          rw [parseHeaders, hparse]
          simp only [hcl]
          rw [if_neg h1, checkedAdd_of_lt (by omega)]
          rfl
        rw [hheaders]
        change Reading parse r k c
          (if code ≠ r.expectedStatusCode then (.failed (statusToNtStatus code), c.headed r n code hs cl)
          else if r.operation = .fileRead ∧ cl ≠ r.expectedContentLength then (.failed .invalidParameter, c.headed r n code hs cl)
          else if n + cl < c.length then (.failed .invalidParameter, c.headed r n code hs cl)
          else _)
        split_ifs with h2 h3 h4
        · rw [if_pos h2] at hacc
          exact .refusedHeaded hparse hacc (by omega)
        · rw [if_neg h2, if_pos h3] at hacc
          exact .refusedHeaded hparse hacc (by omega)
        · rw [if_neg h2, if_neg h3] at hacc
          exact .overrun hparse hacc h4
        · rw [if_neg h2, if_neg h3] at hacc
          have h5 : c.length ≤ n + cl := by omega
          cases hb : placeBody r k (c.headed r n code hs cl) with
          | error st => exact .unplaced hparse hacc h5 hb
          | ok c' => exact .placed hparse hacc h5 hb

theorem readResponse_body (h0 : c.bodyOffset ≠ 0) :
    readResponse parse r k c = if c.bodyEndOffset < c.length then (.failed .invalidParameter, c) else (await c, c) := by
  rw [readResponse, if_neg h0]

end BlorgFS.Http

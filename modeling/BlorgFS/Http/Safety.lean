import BlorgFS.Http.Bounds

/-! What holds in every state a request can reach while it receives: the log has nothing on it
that should not be there, whatever the peer sends, over TLS or not. -/

namespace BlorgFS.Http

open Lib Tls

variable {r : Request} {c c' : Context} {k : Choice} {parse : Bytes → Parsed} {size : SystemSize} {socket : Socket} {s s' : State}

/-! ### Reading the response -/

theorem Bounded.headed (hb : Bounded r c) {n code cl : ℕ} {hs : List Header} (hn : n ≤ c.length) (hlt : c.length < 2 ^ 32)
    (hcl : cl ≤ maxContentLength) : Bounded r (c.headed r n code hs cl) := by
  have hmax : maxContentLength = 67108864 := by decide
  have hnote : Bounded r (c.note [.sum n cl]) := by
    apply hb.note
    intro e he
    rw [List.mem_singleton.mp he]
    show n + cl < 2 ^ 64
    omega
  exact hnote.congr rfl rfl

theorem headed_headed (ha : Arrived r c) (hb : Bounded r c) {n code cl : ℕ} {hs : List Header} (h0 : c.bodyOffset = 0) (hn : n ≤ c.length)
    (hcl : cl ≤ maxContentLength) (hin : c.length ≤ n + cl) : Headed (c.headed r n code hs cl) where
  end_eq := rfl
  content_le := hcl
  offset_le := hn
  length_le := ha.head h0
  capacity_lt := hb.capacity_lt
  inside := hin

theorem headed_ended {n code cl : ℕ} {hs : List Header} (hsub : (c.headed r n code hs cl).log ⊆ c'.log) : ¬ c'.Unended := by
  intro hu
  exact hu n cl (hsub (List.mem_cons_self ..))

theorem Bounded.placed (hb : Bounded r c) (hp : Placed r c c') (hended : ¬ c'.Unended) (hx : r.targetMdl → c.contentLength = r.expectedContentLength) : Bounded r c' where
  log_safe e he := by
    rcases hp.log_safe hx e he with h | h
    · exact hb.log_safe e h
    · exact h
  capacity_lt := hp.capacity_lt
  unended hu := absurd hu hended
  mdl ht := by
    rw [(hp.kept ht).1]
    exact hb.mdl ht

theorem Waiting.placed (hb : Bounded r c) (hc : Headed c) (hp : Placed r c c') (hended : ¬ c'.Unended)
    (hx : r.targetMdl → c.contentLength = r.expectedContentLength) (hs : c'.length < c'.bodyEndOffset) : Waiting r c' where
  unended hu := absurd hu hended
  end_eq := hp.end_eq
  content_le := hp.contentLength ▸ hc.content_le
  offset_le := hp.offset_le
  head := hp.head
  body h0 := by
    refine ⟨?_, ?_, hp.room⟩
    · by_cases ht : r.targetMdl = true
      · -- in the caller's pages the buffer stays as small as headers are
        have h1 := hb.mdl ht
        have h2 := hp.end_eq
        have h3 := (hp.kept ht).2
        have h4 := hc.offset_le
        have h5 := hc.length_le
        have h6 := hc.content_le
        have h7 := hp.contentLength
        have h8 : headerCapacity = 81937 := by decide
        have h9 : maxContentLength = 67108864 := by decide
        omega
      · exact Nat.lt_trans (hp.room (by simpa using ht)) hp.capacity_lt
    · intro ht
      rw [hp.contentLength]
      exact hx ht
  unparsed _ := .inr hs
  short _ := hs

theorem readResponse_spec (hin : c.bodyOffset = 0 → ∀ n code hs, parse (load c.buffer 0 c.length) = .complete n code hs → n ≤ c.length)
    (hb : Bounded r c) (ha : Arrived r c) {v : Verdict}
    (he : readResponse parse r k c = (v, c')) : Bounded r c' ∧ (v = .again → Waiting r c') := by
  have hawait : ∀ {c₁ : Context}, await c₁ = .again → c₁.length < c₁.bodyEndOffset := by
    intro c₁ h
    unfold await at h
    split_ifs at h with hlt
    exact hlt
  by_cases h0 : c.bodyOffset = 0
  · have hlt := ha.length_lt hb (.inr h0)
    specialize hin h0
    have hread := readResponse_head (r := r) (k := k) h0 hlt hin
    rw [he] at hread
    cases hread with
    | more hp hl => exact ⟨hb, fun _ => ⟨ha, fun _ => .inl hl, fun h => absurd h0 h⟩⟩
    | endless | malformed | refused => exact ⟨hb, fun h => by cases h⟩
    | refusedHeaded hp hacc hcl => exact ⟨hb.headed (hin _ _ _ hp) hlt hcl, fun h => by cases h⟩
    | overrun hp hacc => exact ⟨hb.headed (hin _ _ _ hp) hlt (accept_ok hacc).1, fun h => by cases h⟩
    | unplaced hp hacc => exact ⟨hb.headed (hin _ _ _ hp) hlt (accept_ok hacc).1, fun h => by cases h⟩
    | @placed n code hs cl _ hp hacc hle hpl =>
      obtain ⟨hcl, _, hx⟩ := accept_ok hacc
      have hb' : Bounded r (c.headed r n code hs cl) := hb.headed (hin _ _ _ hp) hlt hcl
      have hc' : Headed (c.headed r n code hs cl) := headed_headed ha hb h0 (hin _ _ _ hp) hcl hle
      have hplaced := placeBody_spec hc' hpl
      have hended := headed_ended hplaced.log_subset
      exact ⟨hb'.placed hplaced hended hx, fun h => .placed hb' hc' hplaced hended hx (hawait h)⟩
  · rw [readResponse_body h0] at he
    split_ifs at he with h1
    · obtain ⟨rfl, rfl⟩ := Prod.mk.inj he
      exact ⟨hb, fun h => by cases h⟩
    · obtain ⟨rfl, rfl⟩ := Prod.mk.inj he
      exact ⟨hb, fun h => ha.waiting h0 (hawait h)⟩

/-! ### Taking a record off -/

/-- What one turn of the loop leaves. -/
inductive DrainSafe (r : Request) (size : SystemSize) (socket : Socket) : Drained → Prop
  | wait : socket.acc.buffered < recordMax → Short socket.acc.pending → DrainSafe r size socket .wait
  | next {c : Context} {s : Socket} : Bounded r c → Waiting r c → s.acc.Fits size → s.tls = socket.tls → DrainSafe r size socket (.next c s)
  | deliver {c : Context} {s : Socket} : Bounded r c → Arrived r c → s.acc.Fits size → s.tls = socket.tls → DrainSafe r size socket (.deliver c s)
  | failed {c : Context} {st : Status} : Bounded r c → DrainSafe r size socket (.failed st c)
  | lost {c : Context} {st : Status} : Bounded r c → DrainSafe r size socket (.lost st c)

theorem openRecord_safe (hb : Bounded r c) (hw : Waiting r c) (hf : socket.acc.Fits size) (hd : socket.acc.declared ≤ ciphertextMax)
    (hbuf : 5 + socket.acc.declared ≤ socket.acc.buffered) : DrainSafe r size socket (openRecord r k c socket) := by
  have hle : socket.acc.declared - tagLength ≤ ciphertextMax := by omega
  have hrec : socket.acc.record.length = 5 + socket.acc.declared := Accumulator.length_record
  have hcon := hf.consume hbuf
  unfold openRecord
  simp only
  cases hdest : destination r k c (socket.acc.declared - tagLength) with
  | error st => exact .failed hb
  | ok p =>
    obtain ⟨c₁, dest⟩ := p
    obtain ⟨_, hb₁, hw₁, hfits⟩ := destination_spec hb hw hle hdest
    simp only
    split
    · have hl : (load k.junk 0 (socket.acc.declared - tagLength)).length = socket.acc.declared - tagLength := length_load
      apply DrainSafe.lost
      apply decrypted_bounded hb₁ hw₁
      · rw [hl]
        exact hle
      · rw [hl]
        exact hfits
    · rename_i plain _
      have hl : plain.1.length = socket.acc.declared - tagLength := by
        rw [plain.2, List.length_take, List.length_drop, hrec]
        omega
      have hfits' : DestFits r c₁ plain.1.length dest := by
        rw [hl]
        exact hfits
      have hb₂ := decrypted_bounded hb₁ hw₁ (by omega) hfits'
      have hw₂ := decrypted_waiting hw₁ hfits'
      split
      · exact .lost hb₂
      · rename_i contentType n hstrip
        have hn := stripInnerPlaintext_lt hstrip
        split_ifs
        · exact .next hb₂ hw₂ hcon rfl
        · exact .lost hb₂
        · have hacc := account_spec (s := { socket with readSeq := socket.readSeq + 1, acc := socket.acc.consume }) hb₂ hw₂ (decrypted_landed hw₁ (Nat.le_of_lt hn) hfits')
          generalize account _ _ _ _ = d at hacc ⊢
          cases hacc with
          | overrun hb₃ => exact .failed hb₃
          | deliver _ hb₃ ha₃ => exact .deliver hb₃ ha₃ hcon rfl
          | next _ hb₃ hw₃ => exact .next hb₃ hw₃ hcon rfl

theorem drain_safe (hb : Bounded r c) (hw : Waiting r c) (hf : socket.acc.Fits size) : DrainSafe r size socket (drain r k c socket) := by
  have hmax : recordMax = 5 + ciphertextMax := rfl
  unfold drain
  simp only
  split_ifs with h5 h15 hbad hpart h14 hshort
  · exact .wait (by omega) (hf.short (.inl h5))
  · exact .lost hb
  · exact .lost hb
  · have hle := (not_or.mp hbad).1
    exact .wait (by omega) (hf.short (.inr hpart))
  · exact .next hb hw (hf.consume (by omega)) rfl
  · exact .lost hb
  · have hle := (not_or.mp hbad).1
    exact openRecord_safe hb hw hf (by omega) (by omega)

/-! ### The request -/

/-- The request goes on. -/
def Stage.Live : Stage → Prop
  | .failed _ | .responded => False
  | _ => True

variable (parse) in
/-- `phr_parse_response` returns at most the length it was given. -/
def ParsesInside : Prop := ∀ b n code hs, parse b = .complete n code hs → n ≤ b.length

theorem ParsesInside.local (h : ParsesInside parse) {m : ℕ → UInt8} {l : ℕ} :
    ∀ n code hs, parse (load m 0 l) = .complete n code hs → n ≤ l := by
  intro n code hs he
  have := h _ n code hs he
  rwa [length_load] at this

/-- The request is at the accumulator of its connection. -/
def Stage.Secured : Stage → Prop
  | .draining | .bulk _ => True
  | _ => False

/-- What holds in every state of a request. -/
structure Inv (r : Request) (size : SystemSize) (s : State) : Prop where
  bounded : Bounded r s.ctx
  fits : s.socket.acc.Fits size
  waiting : s.stage.Live → Waiting r s.ctx
  posted : ∀ post, s.stage = .receiving post → post = postOf r s.ctx ∧ 0 < post.size
  bulk : ∀ room, s.stage = .bulk room → room = s.socket.acc.room size ∧ 0 < room
  secured : s.stage.Secured → s.socket.tls = true
  clear : ∀ post, s.stage = .receiving post → s.socket.tls = false

theorem Inv.failed {st : Status} (hb : Bounded r s.ctx) (hf : s.socket.acc.Fits size) : Inv r size { s with stage := .failed st } :=
  ⟨hb, hf, False.elim, nofun, nofun, False.elim, nofun⟩

theorem Inv.responded (hb : Bounded r s.ctx) (hf : s.socket.acc.Fits size) : Inv r size { s with stage := .responded } :=
  ⟨hb, hf, False.elim, nofun, nofun, False.elim, nofun⟩

theorem issue_inv (hb : Bounded r s.ctx) (hw : Waiting r s.ctx) (hf : s.socket.acc.Fits size) : Inv r size (s.issue r k) := by
  unfold State.issue
  split
  · exact .failed hb hf
  · split_ifs with htls
    · exact ⟨hb, hf, fun _ => hw, nofun, nofun, fun _ => htls, nofun⟩
    · split
      · exact .failed hb hf
      · rename_i c post he
        obtain ⟨_, hb', hw', hpost⟩ := issueReceive_spec hb hw he
        refine ⟨hb', hf, fun _ => hw', ?_, nofun, False.elim, fun _ _ => by simpa using htls⟩
        rintro post' ⟨⟩
        exact hpost

theorem read_inv (hin : s.ctx.bodyOffset = 0 → ∀ n code hs, parse (load s.ctx.buffer 0 s.ctx.length) = .complete n code hs → n ≤ s.ctx.length) (hb : Bounded r s.ctx) (ha : Arrived r s.ctx) (hf : s.socket.acc.Fits size) :
    Inv r size (s.read parse r k) := by
  unfold State.read
  split
  · rename_i c he
    obtain ⟨hb', hw'⟩ := readResponse_spec hin hb ha he
    exact issue_inv hb' (hw' rfl) hf
  · rename_i st c he
    exact .failed (s := { s with ctx := c }) (readResponse_spec hin hb ha he).1 hf
  · rename_i c he
    exact .responded (s := { s with ctx := c }) (readResponse_spec hin hb ha he).1 hf

/-- A request that is retried starts over, with the buffer it has. -/
theorem reset_waiting : Waiting r c.reset where
  unended _ := rfl
  end_eq := rfl
  content_le := Nat.zero_le _
  offset_le := Nat.le_refl 0
  head _ := Nat.zero_le _
  body h := absurd rfl h
  unparsed _ := by
    left
    simp [Context.reset, maxHeaderBytes]
  short h := absurd rfl h

theorem lose_inv {st : Status} (hb : Bounded r s.ctx) (hf : s.socket.acc.Fits size) : Inv r size (s.lose st) := by
  unfold State.lose
  split_ifs
  · exact ⟨hb.congr rfl rfl, hf, fun _ => reset_waiting, nofun, nofun, False.elim, nofun⟩
  · exact .failed hb hf

theorem postBulk_inv (hi : Inv r size s) (hw : Waiting r s.ctx) (htls : s.socket.tls = true) (hbuf : s.socket.acc.buffered < recordMax) : Inv r size (s.postBulk size k) := by
  have hroom := (hi.fits.room_settle hbuf).2
  have hfits := hi.fits.settle
  have hb : Bounded r (s.ctx.note [.posted ((s.socket.acc.settle size).room size)]) := by
    apply hi.bounded.note
    intro e he
    rw [List.mem_singleton.mp he]
    exact hroom
  unfold State.postBulk
  generalize s.socket.acc.settle size = acc at hroom hfits hb ⊢
  cases k.refused with
  | some st => exact ⟨hb, hfits, False.elim, nofun, nofun, False.elim, nofun⟩
  | none =>
    refine ⟨hb, hfits, fun _ => hw.note _, nofun, ?_, fun _ => htls, nofun⟩
    intro room he
    obtain rfl := Stage.bulk.inj he
    exact ⟨rfl, hroom⟩

theorem turned_inv {d : Drained} (hparse : ParsesInside parse) (hi : Inv r size s) (hw : Waiting r s.ctx) (hstage : s.stage = .draining)
    (hd : DrainSafe r size s.socket d) : Inv r size (s.turned parse size r k d) := by
  have htls := hi.secured (by rw [hstage]; trivial)
  cases hd with
  | wait hbuf => exact postBulk_inv hi hw htls hbuf
  | next hb hw hf hsame =>
    constructor
    · exact hb
    · exact hf
    · exact fun _ => hw
    · exact fun _ h => by simp [State.turned, hstage] at h
    · exact fun _ h => by simp [State.turned, hstage] at h
    · exact fun _ => hsame.trans htls
    · exact fun _ h => by simp [State.turned, hstage] at h
  | deliver hb ha hf => exact read_inv (s := { s with ctx := _, socket := _ }) (fun _ => hparse.local) hb ha hf
  | failed hb => exact .failed (s := { s with ctx := _ }) hb hi.fits
  | lost hb => exact lose_inv (s := { s with ctx := _ }) hb hi.fits

theorem next_inv {act : Act} (hparse : ParsesInside parse) (hi : Inv r size s) (hn : next parse size r s act = some s') : Inv r size s' := by
  cases act with
  | connected socket k =>
    simp only [next] at hn
    split at hn
    · rename_i hstage
      split_ifs at hn with hf
      obtain rfl := Option.some.inj hn
      have hw := hi.waiting (by rw [hstage]; trivial)
      exact issue_inv (s := { s with socket }) hi.bounded hw hf
    · cases hn
  | received chunk k =>
    simp only [next] at hn
    split at hn
    · rename_i post hstage
      split_ifs at hn with hc
      obtain rfl := Option.some.inj hn
      obtain ⟨rfl, _⟩ := hi.posted post hstage
      have hw := hi.waiting (by rw [hstage]; trivial)
      obtain ⟨hb', ha'⟩ := received_spec hi.bounded hw hc.2
      exact read_inv (s := { s with ctx := _ }) (fun _ => hparse.local) hb' ha' hi.fits
    · rename_i room hstage
      split_ifs at hn with hc
      obtain rfl := Option.some.inj hn
      obtain ⟨rfl, _⟩ := hi.bulk room hstage
      have hw := hi.waiting (by rw [hstage]; trivial)
      exact issue_inv (s := { s with socket := _ }) hi.bounded hw (hi.fits.arrive hc.2)
    · cases hn
  | closed k =>
    simp only [next] at hn
    split at hn
    · rename_i post hstage
      have hw := hi.waiting (by rw [hstage]; trivial)
      split_ifs at hn
      · obtain rfl := Option.some.inj hn
        exact lose_inv hi.bounded hi.fits
      · obtain rfl := Option.some.inj hn
        exact read_inv (fun _ => hparse.local) hi.bounded hw.toArrived hi.fits
    · obtain rfl := Option.some.inj hn
      exact lose_inv hi.bounded hi.fits
    · cases hn
  | broken st =>
    simp only [next] at hn
    split at hn
    · obtain rfl := Option.some.inj hn
      exact lose_inv hi.bounded hi.fits
    · obtain rfl := Option.some.inj hn
      exact lose_inv hi.bounded hi.fits
    · cases hn
  | drained k =>
    simp only [next] at hn
    split at hn
    · rename_i hstage
      obtain rfl := Option.some.inj hn
      have hw := hi.waiting (by rw [hstage]; trivial)
      exact turned_inv hparse hi hw hstage (drain_safe hi.bounded hw hi.fits)
    · cases hn

theorem capacity_lt (r : Request) : r.capacity < 2 ^ 32 := by
  cases r with
  | getFile length => exact Nat.mod_lt _ (by decide)
  | _ => simp [Request.capacity, initialRecvCapacity, mdlInitialRecvCapacity, pageSize]

theorem fresh_bounded (r : Request) (buffer mdl : ℕ → UInt8) : Bounded r (.fresh r buffer mdl) := by
  refine ⟨by simp [Context.fresh], capacity_lt r, fun _ => Nat.le_max_left _ _, ?_⟩
  intro ht
  cases r with
  | getFileMdl length =>
    simp [Context.fresh, Request.capacity, mdlInitialRecvCapacity, maxContentLength]
    omega
  | _ => cases ht

theorem start_inv {buffer mdl : ℕ → UInt8} {reused : Bool} (hf : socket.acc.Fits size) : Inv r size (start r buffer mdl socket reused k) := by
  have hw : Waiting r (Context.fresh r buffer mdl).reset := reset_waiting
  exact issue_inv (s := { ctx := .fresh r buffer mdl, socket, reused, stage := .connecting }) (fresh_bounded r buffer mdl) hw hf

/-! ### Every run -/

theorem reachable_inv (hparse : ParsesInside parse) (h : (receiving parse size r).Reachable s) : Inv r size s := by
  apply System.invariant (P := Inv r size) _ _ h
  · rintro s ⟨buffer, mdl, socket, reused, k, hf, rfl⟩
    exact start_inv hf
  · rintro s s' _ hi ⟨act, hn⟩
    exact next_inv hparse hi hn

/-- The posted receive ends inside what it is posted for. -/
def PostInside (r : Request) (c : Context) (post : Post) : Prop :=
  match post.target with
  | .buffer => post.start + post.size ≤ c.capacity
  | .mdl => post.start + post.size ≤ c.contentLength ∧ c.contentLength = r.expectedContentLength

theorem postOf_inside (hw : Waiting r c) : PostInside r c (postOf r c) := by
  have hend := hw.end_eq
  have hoff := hw.offset_le
  unfold postOf
  split_ifs with h0 ht
  · have := hw.head h0
    show c.length + (c.capacity - c.length) ≤ c.capacity
    omega
  · have := hw.short h0
    refine ⟨?_, (hw.body h0).2.1 ht⟩
    show c.length - c.bodyOffset + (c.bodyEndOffset - c.length) ≤ c.contentLength
    omega
  · have := hw.short h0
    have := (hw.body h0).2.2 (by simpa using ht)
    show c.length + (c.bodyEndOffset - c.length) ≤ c.capacity
    omega

/-- Whatever a peer sends, in the clear or in records, nothing is written outside its
destination, no number wraps, every receive is for something, and headers that do not end are
given up with the buffer no larger than they may be. -/
theorem receive_bounds (hparse : ParsesInside parse) (h : (receiving parse size r).Reachable s) :
    (∀ e ∈ s.ctx.log, e.Safe r) ∧
    (s.stage.Live → s.ctx.bodyEndOffset = s.ctx.bodyOffset + s.ctx.contentLength ∧
      (s.ctx.bodyOffset = 0 ∨ r.targetMdl = false → s.ctx.length ≤ s.ctx.capacity)) ∧
    (∀ post, s.stage = .receiving post → 0 < post.size ∧ PostInside r s.ctx post) ∧
    (∀ room, s.stage = .bulk room → 0 < room ∧ s.socket.acc.length + room ≤ recvCapacity size) ∧
    (s.ctx.Unended → s.ctx.capacity ≤ max r.capacity headerCapacity ∧ (s.stage.Live → s.ctx.length < maxHeaderBytes)) := by
  have hi := reachable_inv hparse h
  refine ⟨hi.bounded.log_safe, ?_, ?_, ?_, ?_⟩
  · intro hl
    have hw := hi.waiting hl
    refine ⟨hw.end_eq, fun hc => ?_⟩
    by_cases h0 : s.ctx.bodyOffset = 0
    · exact hw.head h0
    · have h1 := hw.short h0
      have h2 := (hw.body h0).2.2 (hc.resolve_left h0)
      omega
  · intro post hstage
    obtain ⟨rfl, hpos⟩ := hi.posted post hstage
    exact ⟨hpos, postOf_inside (hi.waiting (by rw [hstage]; trivial))⟩
  · intro room hstage
    obtain ⟨rfl, hpos⟩ := hi.bulk room hstage
    have h1 := hi.fits.room_eq
    have h2 := hi.fits.length_le
    exact ⟨hpos, by omega⟩
  · intro hu
    refine ⟨hi.bounded.unended hu, fun hl => ?_⟩
    have hw := hi.waiting hl
    have h1 := hw.unended hu
    have h2 := hw.end_eq
    have h3 := hw.unparsed (by omega)
    omega

/-- Headers of four bytes and a body of three, for a read into the caller's pages. -/
def threeBytes (b : Bytes) : Parsed :=
  if b.length < 4 then .incomplete else .complete 4 206 [⟨ascii "content-length", ascii "3"⟩]

def willing : Choice := ⟨true, true, fun _ => 0, none⟩

def emptySocket (tls : Bool) (aead : Aead) : Socket := ⟨tls, ⟨fun _ => 0, 0, 0⟩, 0, aead⟩

/-- Two bytes of the body come with the headers and are moved; the last is posted for behind
them. -/
theorem receive_bounds_spilled :
    ∃ s, (receiving threeBytes .small (.getFileMdl 3)).Reachable s ∧ s.stage = .receiving ⟨.mdl, 2, 1⟩ ∧ ∀ e ∈ s.ctx.log, e.Safe (.getFileMdl 3) := by
  have hparse : ParsesInside threeBytes := by
    intro b n code hs h
    unfold threeBytes at h
    split_ifs at h with hl
    injection h
    omega
  have hrun : (next threeBytes .small (.getFileMdl 3)
      (start (.getFileMdl 3) (fun _ => 0) (fun _ => 0) (emptySocket false fun _ _ _ _ => none) false willing)
      (.received [1, 2, 3, 4, 5, 6] willing)).any (fun s => match s.stage with
        | .receiving post => post = ⟨.mdl, 2, 1⟩
        | _ => false) = true := by decide +kernel
  obtain ⟨s, hs, hpost⟩ := (Option.any_eq_true _ _).mp hrun
  have hreach : (receiving threeBytes .small (.getFileMdl 3)).Reachable s :=
    .step (.init ⟨_, _, _, _, _, ⟨Nat.le_refl 0, Nat.zero_le _⟩, rfl⟩) ⟨_, hs⟩
  refine ⟨s, hreach, ?_, (receive_bounds hparse hreach).1⟩
  split at hpost
  · rename_i post hstage
    rw [hstage, of_decide_eq_true hpost]
  · cases hpost

end BlorgFS.Http

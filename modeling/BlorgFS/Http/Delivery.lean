import BlorgFS.Http.Safety

/-! What a response comes to, said of its bytes alone. A request that has received some bytes
has them in its buffer or, once the headers have been parsed, the body among them in its
place; what it then decides is what the bytes say. How they came does not enter. -/

namespace BlorgFS.Http

open Lib Tls

/-- What a request hands on when it succeeds. -/
structure Delivered where
  statusCode : ℕ
  noStore : Bool
  version : Option (ℕ × ℕ)
  body : Bytes
  deriving DecidableEq

/-- The whole body is taken from the start of the caller's pages or from the buffer. -/
def Context.delivered (r : Request) (c : Context) : Delivered where
  statusCode := c.statusCode
  noStore := c.noStore
  version := c.version
  body := if r.targetMdl then load c.mdl 0 c.contentLength else load c.buffer c.bodyOffset c.contentLength

/-- What the bytes of a response say: that more is to come, that the request fails, or what it
delivers. -/
inductive Outcome where
  | waiting
  | failed (st : Status)
  | delivered (d : Delivered)
  deriving DecidableEq

def judge (parse : Bytes → Parsed) (r : Request) (b : Bytes) : Outcome :=
  match parse b with
  | .incomplete => if maxHeaderBytes ≤ b.length then .failed .invalidNetworkResponse else .waiting
  | .malformed => .failed .invalidParameter
  | .complete consumed statusCode headers =>
    match accept r statusCode headers with
    | .error st => .failed st
    | .ok contentLength =>
      if consumed + contentLength < b.length then .failed .invalidParameter
      else if b.length < consumed + contentLength then .waiting
      else .delivered ⟨statusCode, r.noStore headers, r.version headers, b.drop consumed⟩

/-- A stream whose headers are read the same however much of them and of what follows is
there. -/
structure Consistent (parse : Bytes → Parsed) (b : Bytes) : Prop where
  start : parse [] = .incomplete
  stable : ∀ {p q}, p <+: q → q <+: b → parse p ≠ .incomplete → parse q = parse p
  inside : ∀ {p n code hs}, p <+: b → parse p = .complete n code hs → 0 < n ∧ n ≤ p.length

/-- Such a stream whose headers do not end, or go wrong, behind the limit. -/
structure Legible (parse : Bytes → Parsed) (b : Bytes) : Prop extends Consistent parse b where
  short : ∀ {p}, p <+: b → parse p = .incomplete → maxHeaderBytes ≤ p.length → parse b = .incomplete

variable {parse : Bytes → Parsed} {r : Request} {c c' : Context} {k : Choice} {b p q : Bytes}

theorem Legible.of_part (h : Legible parse b) (hp : p <+: b) : Legible parse p where
  start := h.start
  stable h1 h2 := h.stable h1 (h2.trans hp)
  inside h1 := h.inside (h1.trans hp)
  short h1 hinc hlong := by
    by_contra hne
    exact hne ((h.stable hp (List.prefix_refl b) hne).symm.trans (h.short (h1.trans hp) hinc hlong))

/-- Headers that are read end within their limit. -/
theorem Legible.consumed_le (h : Legible parse b) (hp : p <+: b) {n code : ℕ} {hs : List Header} (he : parse p = .complete n code hs) :
    n ≤ maxHeaderBytes := by
  have hn := h.inside hp he
  have hpre : p.take (n - 1) <+: p := List.take_prefix _ _
  have hlen : (p.take (n - 1)).length = n - 1 := by
    rw [List.length_take]
    omega
  by_contra hlt
  by_cases hinc : parse (p.take (n - 1)) = .incomplete
  · have hb := h.stable hp (List.prefix_refl b) (by rw [he]; nofun)
    rw [h.short (hpre.trans hp) hinc (by omega), he] at hb
    cases hb
  · have hst := h.stable hpre hp hinc
    rw [he] at hst
    have := (h.inside (hpre.trans hp) hst.symm).2
    omega

/-- A response that has failed by some of its bytes has failed by all of them. -/
theorem Legible.judge_failed (h : Legible parse b) (hp : p <+: b) {st : Status} (hj : judge parse r p = .failed st) :
    judge parse r b = .failed st := by
  unfold judge at hj
  cases hparse : parse p with
  | incomplete =>
    rw [hparse] at hj
    simp only at hj
    have := hp.length_le
    split_ifs at hj with hlong
    rw [judge, h.short hp hparse hlong]
    simp only
    rw [if_pos (by omega)]
    exact hj
  | malformed =>
    rw [hparse] at hj
    rw [judge, h.stable hp (List.prefix_refl b) (by rw [hparse]; nofun), hparse]
    exact hj
  | complete n code hs =>
    rw [hparse] at hj
    rw [judge, h.stable hp (List.prefix_refl b) (by rw [hparse]; nofun), hparse]
    simp only at hj ⊢
    cases hacc : accept r code hs with
    | error st' =>
      rw [hacc] at hj
      exact hj
    | ok cl =>
      rw [hacc] at hj
      have := hp.length_le
      simp only at hj ⊢
      split_ifs at hj with h1 h2
      rw [if_pos (by omega)]
      exact hj

/-! ### A request and the bytes it has received -/

/-- What the context says of a response whose headers ended after `n` bytes. -/
structure Read (parse : Bytes → Parsed) (r : Request) (got : Bytes) (c : Context) (n code : ℕ) (hs : List Header) : Prop where
  parsed : parse got = .complete n code hs
  accepted : accept r code hs = .ok c.contentLength
  statusCode : c.statusCode = code
  noStore : c.noStore = r.noStore hs
  version : c.version = r.version hs
  length : c.length - c.bodyOffset = got.length - n
  soFar : c.soFar r = got.drop n
  near : c.bodyOffset ≤ n + 7
  aligned : r.operation ≠ .fileRead → c.bodyOffset % 8 = 0

/-- A context that holds the bytes `got`. -/
def Holds (parse : Bytes → Parsed) (r : Request) (got : Bytes) (c : Context) : Prop :=
  if c.bodyOffset = 0 then c.soFar r = got else ∃ n code hs, Read parse r got c n code hs

theorem Holds.kept (h : Holds parse r b c) (hk : Kept c c') : Holds parse r b c' := by
  unfold Holds at h ⊢
  rw [hk.bodyOffset, hk.soFar]
  split_ifs at h ⊢
  · exact h
  · obtain ⟨n, code, hs, hr⟩ := h
    refine ⟨n, code, hs, hr.parsed, ?_, ?_, ?_, ?_, ?_, ?_, ?_, ?_⟩
    · rw [hk.contentLength]
      exact hr.accepted
    · rw [hk.statusCode]
      exact hr.statusCode
    · rw [hk.noStore]
      exact hr.noStore
    · rw [hk.version]
      exact hr.version
    · rw [hk.length, hk.bodyOffset]
      exact hr.length
    · rw [hk.soFar]
      exact hr.soFar
    · rw [hk.bodyOffset]
      exact hr.near
    · rw [hk.bodyOffset]
      exact hr.aligned

/-- More bytes of the same stream. -/
theorem Holds.extended {content : Bytes} (h : Holds parse r p c) (hl : Legible parse b) (hp : p ++ content <+: b) (hoff : c.bodyOffset ≤ c.length)
    (he : Extended r c content c') : Holds parse r (p ++ content) c' := by
  unfold Holds at h ⊢
  rw [he.bodyOffset, he.soFar]
  split_ifs at h ⊢
  · rw [h]
  · obtain ⟨n, code, hs, hr⟩ := h
    have hpre : p <+: p ++ content := List.prefix_append _ _
    have hn := (hl.inside (hpre.trans hp) hr.parsed).2
    refine ⟨n, code, hs, ?_, ?_, ?_, ?_, ?_, ?_, ?_, ?_, ?_⟩
    · rw [hl.stable hpre hp (by rw [hr.parsed]; nofun), hr.parsed]
    · rw [he.contentLength]
      exact hr.accepted
    · rw [he.statusCode]
      exact hr.statusCode
    · rw [he.noStore]
      exact hr.noStore
    · rw [he.version]
      exact hr.version
    · have := hr.length
      rw [he.length, he.bodyOffset, List.length_append]
      omega
    · rw [he.soFar, hr.soFar, List.drop_append_of_le_length hn]
    · rw [he.bodyOffset]
      exact hr.near
    · rw [he.bodyOffset]
      exact hr.aligned

/-- The first bytes of a response. -/
theorem holds_nil (h0 : c.bodyOffset = 0) (hl : c.length = 0) : Holds parse r [] c := by
  rw [Holds, if_pos h0, Context.soFar, if_pos h0, hl]
  rfl

/-! ### What it decides -/

theorem Holds.inside (h : Holds parse r p c) (h0 : c.bodyOffset = 0) :
    load c.buffer 0 c.length = p ∧ c.length = p.length := by
  rw [Holds, if_pos h0, Context.soFar, if_pos h0] at h
  exact ⟨h, by rw [← h, length_load]⟩

/-- A body that is there in full is what is handed on. -/
theorem Read.delivered {n code : ℕ} {hs : List Header} (hr : Read parse r p c n code hs) (h0 : c.bodyOffset ≠ 0)
    (hend : c.bodyEndOffset = c.bodyOffset + c.contentLength) (hle : c.bodyOffset ≤ c.length) (he : c.length = c.bodyEndOffset) :
    c.delivered r = ⟨code, r.noStore hs, r.version hs, p.drop n⟩ := by
  have hlen : c.contentLength = c.length - c.bodyOffset := by omega
  rw [Context.delivered, hr.statusCode, hr.noStore, hr.version, ← hr.soFar, Context.soFar, if_neg h0, Context.bodySoFar, hlen]

/-- Once the headers have been parsed, the numbers of the context are those of the stream. -/
theorem Read.judge {n code : ℕ} {hs : List Header} (hr : Read parse r p c n code hs) (hl : Legible parse p) (h0 : c.bodyOffset ≠ 0)
    (hend : c.bodyEndOffset = c.bodyOffset + c.contentLength) (hle : c.bodyOffset ≤ c.length) :
    judge parse r p = if c.bodyEndOffset < c.length then .failed .invalidParameter
      else if c.length < c.bodyEndOffset then .waiting else .delivered (c.delivered r) := by
  have hn := (hl.inside (List.prefix_refl p) hr.parsed).2
  have hlen := hr.length
  rw [Http.judge, hr.parsed]
  simp only [hr.accepted]
  by_cases h1 : c.bodyEndOffset < c.length
  · rw [if_pos h1, if_pos (by omega)]
  · rw [if_neg h1, if_neg (by omega)]
    by_cases h2 : c.length < c.bodyEndOffset
    · rw [if_pos h2, if_pos (by omega)]
    · rw [if_neg h2, if_neg (by omega), hr.delivered h0 hend hle (by omega)]

/-- What `HttpReadResponse` decides is what the bytes say, unless memory was denied. -/
structure Decided (parse : Bytes → Parsed) (r : Request) (k : Choice) (got : Bytes) (v : Verdict) (c : Context) : Prop where
  again : v = .again → Holds parse r got c ∧ judge parse r got = .waiting
  failed : ∀ st, v = .failed st → judge parse r got = .failed st ∨ ¬ k.Willing
  responded : v = .responded → judge parse r got = .delivered (c.delivered r) ∧ (r.operation ≠ .fileRead → c.bodyOffset % 8 = 0)

/-- With the headers parsed, what is decided is what `await` says. -/
theorem Read.decided {n code : ℕ} {hs : List Header} (hr : Read parse r p c n code hs) (hl : Legible parse p) (h0 : c.bodyOffset ≠ 0)
    (hend : c.bodyEndOffset = c.bodyOffset + c.contentLength) (hle : c.bodyOffset ≤ c.length) (hin : c.length ≤ c.bodyEndOffset) :
    Decided parse r k p (await c) c := by
  have hj := hr.judge hl h0 hend hle
  rw [if_neg (by omega)] at hj
  unfold await
  split_ifs at hj ⊢ with h1
  · refine ⟨fun _ => ⟨?_, hj⟩, nofun, nofun⟩
    rw [Holds, if_neg h0]
    exact ⟨n, code, hs, hr⟩
  · exact ⟨nofun, nofun, fun _ => ⟨hj, hr.aligned⟩⟩

theorem readResponse_holds (hl : Legible parse p) (hb : Bounded r c) (ha : Arrived r c) (hh : Holds parse r p c) {v : Verdict}
    (he : readResponse parse r k c = (v, c')) : Decided parse r k p v c' := by
  by_cases h0 : c.bodyOffset = 0
  · obtain ⟨hload, hlen⟩ := hh.inside h0
    have hlt := ha.length_lt hb (.inr h0)
    have hin : ∀ n code hs, parse (load c.buffer 0 c.length) = .complete n code hs → n ≤ c.length := by
      intro n code hs h
      rw [hload] at h
      rw [hlen]
      exact (hl.inside (List.prefix_refl p) h).2
    have hread := readResponse_head (r := r) (k := k) h0 hlt hin
    rw [he] at hread
    cases hread with
    | more hp hlim =>
      rw [hload] at hp
      refine ⟨fun _ => ⟨hh, ?_⟩, nofun, nofun⟩
      rw [judge, hp]
      simp only
      rw [if_neg (by omega)]
    | endless hp hlim =>
      rw [hload] at hp
      refine ⟨nofun, ?_, nofun⟩
      rintro st ⟨⟩
      left
      rw [judge, hp]
      simp only
      rw [if_pos (by omega)]
    | malformed hp =>
      rw [hload] at hp
      refine ⟨nofun, ?_, nofun⟩
      rintro st ⟨⟩
      left
      rw [judge, hp]
    | refused hp hacc =>
      rw [hload] at hp
      refine ⟨nofun, ?_, nofun⟩
      rintro st ⟨⟩
      left
      rw [judge, hp]
      simp only [hacc]
    | refusedHeaded hp hacc =>
      rw [hload] at hp
      refine ⟨nofun, ?_, nofun⟩
      rintro st ⟨⟩
      left
      rw [judge, hp]
      simp only [hacc]
    | overrun hp hacc hover =>
      rw [hload] at hp
      refine ⟨nofun, ?_, nofun⟩
      rintro st ⟨⟩
      left
      rw [judge, hp]
      simp only [hacc]
      rw [if_pos (by omega)]
    | @unplaced n code hs cl st hp hacc hle hpl =>
      have hn := hin _ _ _ hp
      have hcl := (accept_ok hacc).1
      have hc' : Headed (c.headed r n code hs cl) := headed_headed ha hb h0 hn hcl hle
      refine ⟨nofun, ?_, nofun⟩
      rintro st ⟨⟩
      right
      rintro ⟨hpool, hmapped, _⟩
      rw [hload] at hp
      rcases placeBody_error hc' hpl with ⟨_, h1 | h1⟩ | ⟨_, hbig⟩
      · simp [hpool] at h1
      · simp [hmapped] at h1
      · -- headers and body are far too short for that
        have h2 := hl.consumed_le (List.prefix_refl p) hp
        have h3 : maxHeaderBytes = 65536 := by decide
        have h4 : maxContentLength = 67108864 := by decide
        have h5 : maxULong = 4294967295 := by decide
        have h6 : (c.headed r n code hs cl).bodyEndOffset = n + cl := rfl
        omega
    | @placed n code hs cl _ hp hacc hle hpl =>
      have hn := hin _ _ _ hp
      have hcl := (accept_ok hacc).1
      have hc' : Headed (c.headed r n code hs cl) := headed_headed ha hb h0 hn hcl hle
      have hplaced := placeBody_spec hc' hpl
      rw [hload] at hp
      have hpos := (hl.inside (List.prefix_refl p) hp).1
      have h0' : c'.bodyOffset ≠ 0 := by
        have : n ≤ c'.bodyOffset := hplaced.parsed
        omega
      have hr : Read parse r p c' n code hs := by
        refine ⟨hp, ?_, hplaced.statusCode, hplaced.noStore, hplaced.version, ?_, ?_, hplaced.near, hplaced.aligned⟩
        · rw [hplaced.contentLength]
          exact hacc
        · rw [hplaced.length_eq]
          show c.length - n = p.length - n
          rw [hlen]
        · rw [Context.soFar, if_neg h0', hplaced.content]
          show load c.buffer n (c.length - n) = p.drop n
          rw [← hload, load_drop hn, Nat.zero_add]
      exact hr.decided hl h0' hplaced.end_eq hplaced.offset_le hplaced.inside
  · rw [readResponse_body h0] at he
    rw [Holds, if_neg h0] at hh
    obtain ⟨n, code, hs, hr⟩ := hh
    split_ifs at he with h1
    · obtain ⟨rfl, rfl⟩ := Prod.mk.inj he
      refine ⟨nofun, ?_, nofun⟩
      rintro st ⟨⟩
      left
      rw [hr.judge hl h0 ha.end_eq ha.offset_le, if_pos h1]
    · obtain ⟨rfl, rfl⟩ := Prod.mk.inj he
      exact hr.decided hl h0 ha.end_eq ha.offset_le (by omega)

/-- A stream that is legible and has nothing behind the response it begins with. -/
structure Proper (parse : Bytes → Parsed) (r : Request) (b : Bytes) : Prop extends Legible parse b where
  exact : ∀ {p d}, p <+: b → judge parse r p = .delivered d → p = b

/-! ### How a request ends -/

variable {s : State} {starved : Bool}

/-- How a request ends. -/
inductive Ending where
  | failed (st : Status)
  | retried
  | delivered (d : Delivered)
  deriving DecidableEq

/-- How a request ends whose peer sends `b` and then closes the connection. -/
def conclude (parse : Bytes → Parsed) (r : Request) (reused : Bool) (b : Bytes) : Ending :=
  match judge parse r b with
  | .failed st => .failed st
  | .delivered d => .delivered d
  | .waiting => if reused ∧ b = [] then .retried else .failed .connectionDisconnected

/-- How a request has ended. -/
def State.ending (r : Request) (s : State) : Option Ending :=
  match s.stage with
  | .failed st => some (.failed st)
  | .connecting => some .retried
  | .responded => some (.delivered (s.ctx.delivered r))
  | _ => none

/-- A request that has received `got` of the stream `b`. -/
structure Settled (parse : Bytes → Parsed) (r : Request) (reused : Bool) (b got : Bytes) (starved : Bool) (s : State) : Prop where
  waiting : s.ending r = none → s.reused = reused ∧ Holds parse r got s.ctx ∧ judge parse r got = .waiting
  ended : ∀ e, s.ending r = some e → conclude parse r reused b = e ∨ starved = true ∧ ∃ st, e = .failed st
  responded : s.stage = .responded → got = b ∧ judge parse r b = .delivered (s.ctx.delivered r) ∧ (r.operation ≠ .fileRead → s.ctx.bodyOffset % 8 = 0)

theorem conclude_of_failed {reused : Bool} {st : Status} (h : judge parse r b = .failed st) : conclude parse r reused b = .failed st := by
  rw [conclude, h]

theorem conclude_of_delivered {reused : Bool} {d : Delivered} (h : judge parse r b = .delivered d) : conclude parse r reused b = .delivered d := by
  rw [conclude, h]

theorem conclude_of_waiting {reused : Bool} (h : judge parse r b = .waiting) :
    conclude parse r reused b = if reused ∧ b = [] then .retried else .failed .connectionDisconnected := by
  rw [conclude, h]

theorem issue_socket : (s.issue r k).socket = s.socket := by
  unfold State.issue
  split
  · rfl
  · split_ifs
    · rfl
    · split <;> rfl

theorem read_socket : (s.read parse r k).socket = s.socket := by
  unfold State.read
  split
  · rw [issue_socket]
  · rfl
  · rfl

theorem lose_socket {st : Status} : (s.lose st).socket = s.socket := by
  unfold State.lose
  split_ifs <;> rfl

theorem Settled.of_starved {reused : Bool} {st : Status} (hstage : s.stage = .failed st) (h : starved = true) :
    Settled parse r reused b p starved s := by
  refine ⟨?_, ?_, ?_⟩
  · intro hn
    simp [State.ending, hstage] at hn
  · intro e he
    simp only [State.ending, hstage] at he
    exact .inr ⟨h, st, (Option.some.inj he).symm⟩
  · intro hr
    rw [hstage] at hr
    cases hr

theorem issue_settled (hb : Bounded r s.ctx) (hw : Waiting r s.ctx) (hk : ¬ k.Willing → starved = true) (hh : Holds parse r p s.ctx)
    (hj : judge parse r p = .waiting) : Settled parse r s.reused b p starved (s.issue r k) := by
  unfold State.issue
  split
  · rename_i st hst
    exact .of_starved rfl (hk fun hk => by simp [hk.2.2] at hst)
  · split_ifs with htls
    · exact ⟨fun _ => ⟨rfl, hh, hj⟩, nofun, nofun⟩
    · split
      · rename_i st he
        exact .of_starved rfl (hk fun hk => absurd hk.1 (by simp [issueReceive_error hw he]))
      · rename_i c post he
        exact ⟨fun _ => ⟨rfl, hh.kept (issueReceive_spec hb hw he).1, hj⟩, nofun, nofun⟩

/-- A request begins with nothing received. -/
theorem start_settled {buffer mdl : ℕ → UInt8} {socket : Socket} {reused : Bool} (hl : Legible parse b) (hk : ¬ k.Willing → starved = true) :
    Settled parse r reused b [] starved (start r buffer mdl socket reused k) := by
  have hw : Waiting r (Context.fresh r buffer mdl).reset := reset_waiting
  have hj : judge parse r [] = .waiting := by
    rw [judge, hl.start]
    rfl
  exact issue_settled (s := { ctx := .fresh r buffer mdl, socket, reused, stage := .connecting }) (fresh_bounded r buffer mdl) hw hk
    (holds_nil rfl rfl) hj

theorem Holds.consumed_le (hh : Holds parse r p c) (hl : Legible parse p) :
    c.bodyOffset = 0 → ∀ n code hs, parse (load c.buffer 0 c.length) = .complete n code hs → n ≤ c.length := by
  intro h0 n code hs he
  obtain ⟨hload, hlen⟩ := hh.inside h0
  rw [hload] at he
  rw [hlen]
  exact (hl.inside (List.prefix_refl p) he).2

/-- Reading the response settles it as its bytes say. -/
theorem read_settled (hl : Proper parse r b) (hp : p <+: b) (hb : Bounded r s.ctx) (ha : Arrived r s.ctx) (hk : ¬ k.Willing → starved = true)
    (hh : Holds parse r p s.ctx) : Settled parse r s.reused b p starved (s.read parse r k) := by
  have hlp := hl.toLegible.of_part hp
  unfold State.read
  split
  · rename_i c he
    have hd := readResponse_holds hlp hb ha hh he
    obtain ⟨hb', hw'⟩ := readResponse_spec (hh.consumed_le hlp) hb ha he
    obtain ⟨hh', hj⟩ := hd.again rfl
    exact issue_settled (s := { s with ctx := c }) hb' (hw' rfl) hk hh' hj
  · rename_i st c he
    rcases (readResponse_holds hlp hb ha hh he).failed st rfl with hj | hno
    · refine ⟨nofun, ?_, nofun⟩
      rintro e ⟨⟩
      exact .inl (conclude_of_failed (hl.judge_failed hp hj))
    · exact .of_starved rfl (hk hno)
  · rename_i c he
    obtain ⟨hj, hal⟩ := (readResponse_holds hlp hb ha hh he).responded rfl
    obtain rfl := hl.exact hp hj
    refine ⟨nofun, ?_, fun _ => ⟨rfl, hj, hal⟩⟩
    rintro e ⟨⟩
    exact .inl (conclude_of_delivered hj)

/-- A peer that closes with nothing left to send. -/
theorem lose_settled (hl : Legible parse b) (hw : Waiting r s.ctx) (hh : Holds parse r b s.ctx) (hj : judge parse r b = .waiting) :
    Settled parse r s.reused b b starved (s.lose .connectionDisconnected) := by
  have hlen : s.ctx.length = 0 ↔ b = [] := by
    by_cases h0 : s.ctx.bodyOffset = 0
    · rw [(hh.inside h0).2, List.length_eq_zero_iff]
    · have hoff := hw.offset_le
      rw [Holds, if_neg h0] at hh
      obtain ⟨n, code, hs, hr⟩ := hh
      constructor
      · omega
      · rintro rfl
        have := hr.parsed.symm.trans hl.start
        cases this
  unfold State.lose
  split_ifs with hr
  · refine ⟨nofun, ?_, nofun⟩
    rintro e ⟨⟩
    rw [conclude_of_waiting hj, if_pos ⟨hr.1, hlen.mp hr.2⟩]
    exact .inl rfl
  · refine ⟨nofun, ?_, nofun⟩
    rintro e ⟨⟩
    rw [conclude_of_waiting hj, if_neg fun h => hr ⟨h.1, hlen.mpr h.2⟩]
    exact .inl rfl

end BlorgFS.Http

import BlorgFS.PathCache.Evolve

/-! The invariant of the caches' machine: what holds of a thread at each point of
a call, of an invalidation that returned and of a lookup's answer. A step is shown
to keep it by saying how the state evolved and what the step added. -/

namespace BlorgFS.PathCache

variable {N : Names} {s s' : State}

/-! ### What an invalidation covers -/

namespace Scope

/-- The paths whose entries an invalidation drops. -/
def entry (N : Names) : Scope → Path → Prop
  | .exact path, q => Same N path q
  | .under dir, q => Same N dir q ∨ Beneath N dir q
  | .all, _ => True

/-- The directories whose listings an invalidation drops: those of the paths it
drops, and the one its path sits in. -/
def listing (N : Names) : Scope → Path → Prop
  | .exact path, q => Same N path q ∨ ∃ dir, ParentOf path dir ∧ Same N dir q
  | .under dir, q => (Same N dir q ∨ Beneath N dir q) ∨ ∃ up, ParentOf dir up ∧ Same N up q
  | .all, _ => True

theorem entry_congr {scope : Scope} {p q : Path} (h : Same N p q) (hp : scope.entry N p) : scope.entry N q := by
  cases scope with
  | exact path => exact Same.trans hp h
  | under dir => exact hp.imp (fun hs => hs.trans h) h.beneath
  | all => trivial

theorem listing_congr {scope : Scope} {p q : Path} (h : Same N p q) (hp : scope.listing N p) :
    scope.listing N q := by
  cases scope with
  | exact path => exact hp.imp (fun hs => hs.trans h) fun ⟨dir, hd, hs⟩ => ⟨dir, hd, hs.trans h⟩
  | under dir =>
    exact hp.imp (Or.imp (fun hs => hs.trans h) h.beneath) fun ⟨up, hd, hs⟩ => ⟨up, hd, hs.trans h⟩
  | all => trivial

end Scope

/-- The invalidation covers what a lookup of `path` found. -/
def Found.CoveredBy (N : Names) (scope : Scope) (path : Path) : Found → Prop
  | .entry _ => scope.entry N path
  | .listing _ _ _ => scope.listing N path

/-! ### Threads -/

/-- A keyed call that has begun. -/
structure FrameBegun (s : State) (f : Frame) : Prop where
  begun : f.begunAt ≤ s.event
  given : ∀ read ∈ f.call.given, read ∈ s.reads

/-- A keyed call that has read its generation, which it does after its lifetime: the
flush it takes the lifetime from and every flush before the call show in it. -/
structure FrameStamped (s : State) (f : Frame) : Prop extends FrameBegun s f where
  generation : f.generation ≤ s.generation
  life : ∀ flush, f.life = some flush → flush ∈ s.flushes ∧ flush.generation ≤ f.generation
  flushed : ∀ flush ∈ s.flushes, flush.bumpedAt < f.begunAt → flush.generation ≤ f.generation

/-- The sequence was `v` at the event `readAt`. -/
structure UpTo (s : State) (v readAt : ℕ) : Prop where
  past : readAt ≤ s.event
  le : ∀ u ≤ s.sequence, s.advancedAt u < readAt → u ≤ v

/-- An invalidation between its advance and its return. -/
def Underway (s : State) (inv : Invalidation) : Prop := Advanced s inv.value inv.advancedAt

def PcOk (N : Names) (s : State) : Pc → Prop
  | .idle => True
  | .readSequence => True
  | .readIssueTime sequence takenAt => Dated s sequence takenAt
  | .readNow f => FrameBegun s f
  | .readLifetime f => FrameBegun s f
  | .readGeneration f => FrameBegun s f ∧ ∀ flush, f.life = some flush → flush ∈ s.flushes
  | .readListingBytes f => FrameStamped s f
  | .reapDead f _ => FrameStamped s f
  | .bucketSection f => FrameStamped s f
  | .advance _ _ => True
  | .dropEntry path inv => Underway s inv ∧ inv.scope = .exact path
  | .dropListing path inv => Underway s inv ∧ inv.scope = .exact path ∧
    Cleared s.buckets inv.value fun _ => inv.scope.entry N
  | .dropParent path inv => Underway s inv ∧ (inv.scope = .exact path ∨ inv.scope = .under path) ∧
    Cleared s.buckets inv.value (fun _ => inv.scope.entry N) ∧
    Cleared s.listings inv.value fun _ => inv.scope.entry N
  | .sweepEntries dir inv i => Underway s inv ∧ inv.scope = .under dir ∧
    Cleared s.buckets inv.value fun j q => j < i ∧ inv.scope.entry N q
  | .sweepListings dir inv i => Underway s inv ∧ inv.scope = .under dir ∧
    Cleared s.buckets inv.value (fun _ => inv.scope.entry N) ∧
    Cleared s.listings inv.value fun j q => j < i ∧ inv.scope.entry N q
  | .bump inv _ => Underway s inv
  | .sweepAll flush _ _ => flush ∈ s.flushes
  | .storeLive live => ∀ flush, live = some flush → flush ∈ s.flushes
  | .seedReadLive _ _ read => read ∈ s.reads
  | .seedSweep _ _ read _ _ => read ∈ s.reads
  | .currentSequence read => read ∈ s.reads
  | .currentNow read readAt => read ∈ s.reads ∧ UpTo s read.ticket.sequence readAt
  | .currentLifetime read readAt _ => read ∈ s.reads ∧ UpTo s read.ticket.sequence readAt

structure ThreadOk (N : Names) (s : State) (thread : Thread) : Prop where
  pc : PcOk N s thread.pc
  rest : ∀ call ∈ thread.rest, ∀ read ∈ call.given, read ∈ s.reads

section Evolve

variable (he : Evolves N s s')

include he

theorem FrameBegun.evolve {f : Frame} (h : FrameBegun s f) : FrameBegun s' f :=
  ⟨h.begun.trans he.event.le, fun read hr => he.reads read (h.given read hr)⟩

theorem FrameStamped.evolve {f : Frame} (h : FrameStamped s f) : FrameStamped s' f where
  toFrameBegun := h.toFrameBegun.evolve he
  generation := h.generation.trans he.generation
  life flush hf := ⟨he.flushes flush (h.life flush hf).1, (h.life flush hf).2⟩
  flushed flush hfl hlt := by
    rcases he.flushedLater flush hfl with hold | ⟨-, hat⟩
    · exact h.flushed flush hold hlt
    · have := h.begun
      omega

theorem UpTo.evolve {v readAt : ℕ} (h : UpTo s v readAt) : UpTo s' v readAt where
  past := h.past.trans he.event.le
  le u hu hlt := by
    by_cases hold : u ≤ s.sequence
    · rw [he.advancedAt u hold] at hlt
      exact h.le u hold hlt
    · have := he.advancedLater u (by omega) hu
      have := h.past
      omega

theorem PcOk.evolve {pc : Pc} (h : PcOk N s pc) : PcOk N s' pc := by
  cases pc with
  | idle => trivial
  | readSequence => trivial
  | readIssueTime sequence takenAt => exact Dated.evolve he h
  | readNow f => exact FrameBegun.evolve he h
  | readLifetime f => exact FrameBegun.evolve he h
  | readGeneration f => exact ⟨h.1.evolve he, fun flush hf => he.flushes flush (h.2 flush hf)⟩
  | readListingBytes f => exact FrameStamped.evolve he h
  | reapDead f i => exact FrameStamped.evolve he h
  | bucketSection f => exact FrameStamped.evolve he h
  | advance scope follow => trivial
  | dropEntry path inv => exact ⟨Advanced.evolve he h.1, h.2⟩
  | dropListing path inv =>
    exact ⟨Advanced.evolve he h.1, h.2.1, h.2.2.evolve he.buckets h.1.le⟩
  | dropParent path inv =>
    exact ⟨Advanced.evolve he h.1, h.2.1, h.2.2.1.evolve he.buckets h.1.le, h.2.2.2.evolve he.listings h.1.le⟩
  | sweepEntries dir inv i =>
    exact ⟨Advanced.evolve he h.1, h.2.1, h.2.2.evolve he.buckets h.1.le⟩
  | sweepListings dir inv i =>
    exact ⟨Advanced.evolve he h.1, h.2.1, h.2.2.1.evolve he.buckets h.1.le, h.2.2.2.evolve he.listings h.1.le⟩
  | bump inv follow => exact Advanced.evolve he h
  | sweepAll flush follow i => exact he.flushes flush h
  | storeLive live => exact fun flush hf => he.flushes flush (h flush hf)
  | seedReadLive dir listing read => exact he.reads read h
  | seedSweep dir listing read childrenOnly i => exact he.reads read h
  | currentSequence read => exact he.reads read h
  | currentNow read readAt => exact ⟨he.reads read h.1, h.2.evolve he⟩
  | currentLifetime read readAt now => exact ⟨he.reads read h.1, h.2.evolve he⟩

theorem ThreadOk.evolve {thread : Thread} (h : ThreadOk N s thread) : ThreadOk N s' thread :=
  ⟨h.pc.evolve he, fun call hc read hr => he.reads read (h.rest call hc read hr)⟩

end Evolve

/-! ### History -/

/-- An invalidation that returned: everything it covers is read under its value or
later, or it was a flush that shows in the generation. -/
structure ReturnedOk (N : Names) (s : State) (r : Returned) : Prop where
  advanced : Advanced s r.value r.advancedAt
  cleared : (Cleared s.buckets r.value (fun _ => r.scope.entry N) ∧
    Cleared s.listings r.value fun _ => r.scope.listing N) ∨
    ∃ flush ∈ s.flushes, flush.value = r.value ∧ flush.bumpedAt < r.returnedAt

/-- What a lookup is judged by: the age of its answer when the feed was down, and
the age of a not-found always. -/
def Answer.Fresh (a : Answer) : Prop :=
  match a.found with
  | .entry none => age a.read.ticket.issueTime a.now < ttl
  | .entry (some _) => age a.read.ticket.issueTime a.now < lifetimeOf a.life
  | .listing _ _ _ => age a.read.ticket.issueTime a.now < lifetimeOf a.life + staleGrace

structure AnswerOk (N : Names) (s : State) (a : Answer) : Prop where
  begun : a.begunAt ≤ s.event
  read : a.read ∈ s.reads
  returned : ∀ r ∈ s.returned, r.returnedAt < a.begunAt → a.found.CoveredBy N r.scope a.path →
    r.value ≤ a.read.ticket.sequence
  life : ∀ flush, a.life = some flush → flush ∈ s.flushes ∧ flush.value ≤ a.read.ticket.sequence
  fresh : a.Fresh

structure CurrentOk (s : State) (c : Current) : Prop where
  read : c.read ∈ s.reads
  upTo : UpTo s c.read.ticket.sequence c.readAt
  life : ∀ flush, c.life = some flush → flush ∈ s.flushes
  young : age c.read.ticket.issueTime c.now < lifetimeOf c.life

structure Inv (N : Names) (s : State) : Prop where
  log : ∀ v, 0 < v → v ≤ s.sequence → s.advancedAt v < s.event
  reads : ∀ read ∈ s.reads, Dated s read.ticket.sequence read.takenAt
  flushes : ∀ flush ∈ s.flushes, FlushOk s flush
  buckets : ∀ i, BucketOk N s i (s.buckets i)
  listings : ∀ i, BucketOk N s i (s.listings i)
  live : ∀ flush, s.live = some flush → flush ∈ s.flushes
  threads : ∀ t, ThreadOk N s (s.threads t)
  returned : ∀ r ∈ s.returned, ReturnedOk N s r
  answers : ∀ a ∈ s.answers, AnswerOk N s a
  currents : ∀ c ∈ s.currents, CurrentOk s c

/-- What a step adds to the history and to the threads is in order. -/
structure Adds (N : Names) (s s' : State) : Prop where
  log : ∀ v, s.sequence < v → v ≤ s'.sequence → s'.advancedAt v < s'.event
  reads : ∀ read ∈ s'.reads, read ∈ s.reads ∨ Dated s' read.ticket.sequence read.takenAt
  flushes : ∀ flush ∈ s'.flushes, flush ∈ s.flushes ∨ FlushOk s' flush
  live : s'.live = s.live ∨ ∀ flush, s'.live = some flush → flush ∈ s'.flushes
  threads : ∀ t, s'.threads t = s.threads t ∨ ThreadOk N s' (s'.threads t)
  returned : ∀ r ∈ s'.returned, r ∈ s.returned ∨ (s.event ≤ r.returnedAt ∧ ReturnedOk N s' r)
  answers : ∀ a ∈ s'.answers, a ∈ s.answers ∨ AnswerOk N s' a
  currents : ∀ c ∈ s'.currents, c ∈ s.currents ∨ CurrentOk s' c

theorem ReturnedOk.evolve (he : Evolves N s s') {r : Returned} (h : ReturnedOk N s r) : ReturnedOk N s' r where
  advanced := h.advanced.evolve he
  cleared := by
    rcases h.cleared with ⟨hb, hl⟩ | ⟨flush, hfl, hv, hat⟩
    · exact Or.inl ⟨hb.evolve he.buckets h.advanced.le, hl.evolve he.listings h.advanced.le⟩
    · exact Or.inr ⟨flush, he.flushes flush hfl, hv, hat⟩

theorem AnswerOk.evolve (he : Evolves N s s') {a : Answer}
    (hr : ∀ r ∈ s'.returned, r ∈ s.returned ∨ s.event ≤ r.returnedAt) (h : AnswerOk N s a) :
    AnswerOk N s' a where
  begun := h.begun.trans he.event.le
  read := he.reads _ h.read
  returned r hmem hlt hc := by
    rcases hr r hmem with hmem | hat
    · exact h.returned r hmem hlt hc
    · have := h.begun
      omega
  life flush hf := ⟨he.flushes flush (h.life flush hf).1, (h.life flush hf).2⟩
  fresh := h.fresh

theorem CurrentOk.evolve (he : Evolves N s s') {c : Current} (h : CurrentOk s c) : CurrentOk s' c :=
  ⟨he.reads _ h.read, h.upTo.evolve he, fun flush hf => he.flushes flush (h.life flush hf), h.young⟩

theorem Inv.evolve (h : Inv N s) (he : Evolves N s s') (ha : Adds N s s') : Inv N s' where
  log v hpos hle := by
    by_cases hold : v ≤ s.sequence
    · rw [he.advancedAt v hold]
      exact (h.log v hpos hold).trans he.event
    · exact ha.log v (by omega) hle
  reads read hr := (ha.reads read hr).elim (fun hold => (h.reads read hold).evolve he) id
  flushes flush hf := (ha.flushes flush hf).elim (fun hold => (h.flushes flush hold).evolve he) id
  buckets := BucketOk.evolve he he.buckets h.flushes h.buckets
  listings := BucketOk.evolve he he.listings h.flushes h.listings
  live flush hf := by
    rcases ha.live with hold | hnew
    · exact he.flushes flush (h.live flush (hold ▸ hf))
    · exact hnew flush hf
  threads t := by
    rcases ha.threads t with hold | hnew
    · rw [hold]
      exact (h.threads t).evolve he
    · exact hnew
  returned r hr := (ha.returned r hr).elim (fun hold => (h.returned r hold).evolve he) And.right
  answers a hmem := by
    rcases ha.answers a hmem with hold | hnew
    · exact (h.answers a hold).evolve he fun r hr => (ha.returned r hr).imp_right And.left
    · exact hnew
  currents c hmem := (ha.currents c hmem).elim (fun hold => (h.currents c hold).evolve he) id

theorem initial_inv (now : ℕ) : Inv N (initial now) where
  log v hpos hle := by
    have : v ≤ 0 := hle
    omega
  reads := by simp [initial]
  flushes := by simp [initial]
  buckets i := ⟨by simp [initial], List.Pairwise.nil⟩
  listings i := ⟨by simp [initial], List.Pairwise.nil⟩
  live := by simp [initial]
  threads t := ⟨trivial, by simp [initial]⟩
  returned := by simp [initial]
  answers := by simp [initial]
  currents := by simp [initial]

end BlorgFS.PathCache

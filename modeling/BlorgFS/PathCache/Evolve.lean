import BlorgFS.PathCache.Machine
import Mathlib.Order.Nat

/-! What any step of the caches' machine can do to what they hold (`Evolves`): the
counters only grow, a bucket gains only entries read under the current sequence,
and a new flush has a generation of its own. Everything the caches' correctness
rests on is stated here over one state, with the lemma that a step of any thread
keeps it. -/

namespace BlorgFS.PathCache

variable {α : Type} {N : Names} {s s' : State}

/-! ### What a step can do -/

/-- Each bucket keeps entries and gains only ones read under the sequence of `s`. -/
structure Grown (N : Names) (s : State) (old new : ℕ → List (Entry α)) : Prop where
  mem : ∀ i, ∀ entry ∈ new i, (∃ was ∈ old i, SameRead was entry) ∨
    (N.bucketOf entry.path = i ∧ entry.read ∈ s.reads ∧ entry.read.ticket.sequence = s.sequence ∧
      entry.generation ≤ s.generation)
  unique : ∀ i, UniquePaths N (old i) → UniquePaths N (new i)

structure Evolves (N : Names) (s s' : State) : Prop where
  event : s.event < s'.event
  sequence : s.sequence ≤ s'.sequence
  generation : s.generation ≤ s'.generation
  advancedAt : ∀ v ≤ s.sequence, s'.advancedAt v = s.advancedAt v
  advancedLater : ∀ v, s.sequence < v → v ≤ s'.sequence → s.event ≤ s'.advancedAt v
  reads : ∀ read ∈ s.reads, read ∈ s'.reads
  flushes : ∀ flush ∈ s.flushes, flush ∈ s'.flushes
  flushedLater : ∀ flush ∈ s'.flushes, flush ∈ s.flushes ∨
    (flush.generation = s.generation + 1 ∧ s.event ≤ flush.bumpedAt)
  buckets : Grown N s s.buckets s'.buckets
  listings : Grown N s s.listings s'.listings

theorem Grown.refl (old : ℕ → List (Entry α)) : Grown N s old old :=
  ⟨fun _ entry he => Or.inl ⟨entry, he, rfl, rfl, rfl⟩, fun _ hu => hu⟩

/-- A section of one bucket that only drops entries. -/
theorem Grown.update_sublist {old : ℕ → List (Entry α)} {i : ℕ} {entries : List (Entry α)}
    (h : entries.Sublist (old i)) : Grown N s old (Function.update old i entries) where
  mem j entry he := by
    by_cases hj : j = i
    · subst hj
      rw [Function.update_self] at he
      exact Or.inl ⟨entry, h.subset he, rfl, rfl, rfl⟩
    · rw [Function.update_of_ne hj] at he
      exact Or.inl ⟨entry, he, rfl, rfl, rfl⟩
  unique j hu := by
    by_cases hj : j = i
    · subst hj
      rw [Function.update_self]
      exact hu.sublist h
    · rw [Function.update_of_ne hj]
      exact hu

/-- A section of the bucket of `path` that may add an entry of it. -/
theorem Grown.update_section {old : ℕ → List (Entry α)} {path : Path} {read : Read} {generation : ℕ}
    {entries : List (Entry α)} (hr : read ∈ s.reads) (hg : generation ≤ s.generation)
    (h : Section N s.sequence path read generation (old (N.bucketOf path)) entries) :
    Grown N s old (Function.update old (N.bucketOf path) entries) where
  mem j entry he := by
    by_cases hj : j = N.bucketOf path
    · subst hj
      rw [Function.update_self] at he
      rcases h.mem entry he with hold | ⟨hs, hread, hseq, hgen⟩
      · exact Or.inl hold
      · exact Or.inr ⟨hs.bucketOf, hread ▸ hr, hread ▸ hseq, hgen ▸ hg⟩
    · rw [Function.update_of_ne hj] at he
      exact Or.inl ⟨entry, he, rfl, rfl, rfl⟩
  unique j hu := by
    by_cases hj : j = N.bucketOf path
    · subst hj
      rw [Function.update_self]
      exact h.unique hu
    · rw [Function.update_of_ne hj]
      exact hu

/-! ### Tickets, flushes and entries -/

/-- A sequence `v` read at the event `taken`: nothing up to `v` was reached later. -/
structure Dated (s : State) (v taken : ℕ) : Prop where
  le : v ≤ s.sequence
  before : ∀ u, 0 < u → u ≤ v → s.advancedAt u < taken

theorem Dated.evolve {v taken : ℕ} (he : Evolves N s s') (h : Dated s v taken) : Dated s' v taken where
  le := h.le.trans he.sequence
  before u hu huv := by
    rw [he.advancedAt u (huv.trans h.le)]
    exact h.before u hu huv

/-- An invalidation's advance is the one that reached its value. -/
structure Advanced (s : State) (value advancedAt : ℕ) : Prop where
  pos : 0 < value
  le : value ≤ s.sequence
  at_eq : s.advancedAt value = advancedAt

theorem Advanced.evolve {value advancedAt : ℕ} (he : Evolves N s s') (h : Advanced s value advancedAt) :
    Advanced s' value advancedAt :=
  ⟨h.pos, h.le.trans he.sequence, (he.advancedAt value h.le).trans h.at_eq⟩

/-- What was read under a sequence an invalidation had already reached was ticketed
after its advance. -/
theorem Dated.after {v taken value advancedAt : ℕ} (h : Dated s v taken) (ha : Advanced s value advancedAt)
    (hle : value ≤ v) : advancedAt < taken :=
  ha.at_eq ▸ h.before value ha.pos hle

structure FlushOk (s : State) (flush : Flush) : Prop where
  advanced : Advanced s flush.value flush.advancedAt
  generation : flush.generation ≤ s.generation
  bumped : flush.bumpedAt < s.event

theorem FlushOk.evolve {flush : Flush} (he : Evolves N s s') (h : FlushOk s flush) : FlushOk s' flush :=
  ⟨h.advanced.evolve he, h.generation.trans he.generation, h.bumped.trans he.event⟩

/-- An entry of bucket `i`. The last field is why a generation is enough to tell
that a flush came first. -/
structure EntryOk (N : Names) (s : State) (i : ℕ) (entry : Entry α) : Prop where
  bucket : N.bucketOf entry.path = i
  read : entry.read ∈ s.reads
  generation : entry.generation ≤ s.generation
  flushed : ∀ flush ∈ s.flushes, flush.generation ≤ entry.generation →
    flush.value ≤ entry.read.ticket.sequence

structure BucketOk (N : Names) (s : State) (i : ℕ) (entries : List (Entry α)) : Prop where
  entry : ∀ entry ∈ entries, EntryOk N s i entry
  unique : UniquePaths N entries

theorem BucketOk.evolve {old new : ℕ → List (Entry α)} (he : Evolves N s s') (hg : Grown N s old new)
    (hf : ∀ flush ∈ s.flushes, FlushOk s flush) (h : ∀ i, BucketOk N s i (old i)) (i : ℕ) :
    BucketOk N s' i (new i) where
  entry entry hmem := by
    have hlater : ∀ flush ∈ s'.flushes, flush.generation ≤ s.generation → flush ∈ s.flushes := by
      intro flush hfl hle
      rcases he.flushedLater flush hfl with hold | ⟨hgen, -⟩
      · exact hold
      · omega
    rcases hg.mem i entry hmem with ⟨was, hwas, hpath, hread, hgen⟩ | ⟨hbucket, hread, hseq, hgen⟩
    · have hok := (h i).entry was hwas
      have hgen' : entry.generation ≤ s.generation := hgen ▸ hok.generation
      refine ⟨hpath ▸ hok.bucket, he.reads _ (hread ▸ hok.read), hgen'.trans he.generation,
        fun flush hfl hle => ?_⟩
      rw [← hread]
      exact hok.flushed flush (hlater flush hfl (hle.trans hgen')) (hgen ▸ hle)
    · refine ⟨hbucket, he.reads _ hread, hgen.trans he.generation, fun flush hfl hle => ?_⟩
      rw [hseq]
      exact (hf flush (hlater flush hfl (hle.trans hgen))).advanced.le
  unique := hg.unique i (h i).unique

/-! ### What an invalidation has cleared -/

/-- Entries where `Q` holds were read under `value` or later. -/
def Cleared (entries : ℕ → List (Entry α)) (value : ℕ) (Q : ℕ → Path → Prop) : Prop :=
  ∀ i, ∀ entry ∈ entries i, Q i entry.path → value ≤ entry.read.ticket.sequence

theorem Cleared.evolve {old new : ℕ → List (Entry α)} {value : ℕ} {Q : ℕ → Path → Prop}
    (hg : Grown N s old new) (hv : value ≤ s.sequence) (h : Cleared old value Q) : Cleared new value Q := by
  intro i entry hmem hq
  rcases hg.mem i entry hmem with ⟨was, hwas, hpath, hread, -⟩ | ⟨-, -, hseq, -⟩
  · rw [← hread]
    exact h i was hwas (hpath ▸ hq)
  · exact hseq ▸ hv

theorem Cleared.mono {entries : ℕ → List (Entry α)} {value : ℕ} {Q R : ℕ → Path → Prop}
    (h : Cleared entries value Q) (hi : ∀ i, ∀ entry ∈ entries i, R i entry.path → Q i entry.path) :
    Cleared entries value R :=
  fun i entry hmem hr => h i entry hmem (hi i entry hmem hr)

end BlorgFS.PathCache

import BlorgFS.Directory.Enumerate

/-! Directory queries one after another return the entries of a listing that match the pattern,
in its order, each once, wherever the buffers end. -/

namespace BlorgFS.Directory

open Lib
open PathCache (WChar Path)

variable {M : Matching} {d : DirectoryInfo} {search : Search} {q : Query} {start index total : ℕ} {p : Progress} {es : List ℕ}

/-! ### Entries in a buffer -/

/-- The bytes an entry takes in a buffer of a class. -/
def DirectoryInfo.size (d : DirectoryInfo) (cls : InfoClass) (index : ℕ) : ℕ := entrySize cls (d.entryAt index).name

/-- An entry as a query returns it. -/
def DirectoryInfo.info (d : DirectoryInfo) (index nextEntryOffset : ℕ) : DirInfo := (d.entryAt index).info index nextEntryOffset

/-- Whether a search is for an entry. -/
def Search.wants (M : Matching) (d : DirectoryInfo) (search : Search) (index : ℕ) : Bool := search.matchPattern M (d.entryAt index).name

theorem length_initUnicodeString (m : ℕ → WChar) (source : ℕ) : (initUnicodeString m source).length ≤ 2 ^ 15 := by
  have hle := (List.takeWhile_sublist (l := load m source maxUnicodeStringChars) (· ≠ 0)).length_le
  rw [length_load] at hle
  exact le_trans hle (by decide)

theorem name_entryAt (d : DirectoryInfo) (index : ℕ) : ∃ source, (d.entryAt index).name = initUnicodeString d.names source := by
  by_cases h : d.fileCount ≤ index
  · refine ⟨(d.subDirs (index - d.fileCount)).name, ?_⟩
    simp only [DirectoryInfo.entryAt, if_pos h]
  · refine ⟨(d.files index).name, ?_⟩
    simp only [DirectoryInfo.entryAt, if_neg h]

theorem length_name (d : DirectoryInfo) (index : ℕ) : (d.entryAt index).name.length ≤ 2 ^ 15 := by
  obtain ⟨source, hname⟩ := name_entryAt d index
  rw [hname]
  exact length_initUnicodeString d.names source

theorem candidate_of_lt (h : index < d.entries) : d.candidate index = some (d.entryAt index) := by
  unfold DirectoryInfo.candidate
  rw [if_neg]
  unfold DirectoryInfo.entries at h
  omega

theorem fill_eq (cls : InfoClass) : cls.fill = fillDirInfo cls := by cases cls <;> rfl

theorem attrs_lt (d : DirectoryInfo) (index : ℕ) : (d.entryAt index).attrs < 2 ^ 32 := by
  have hdirectory : fileAttributeDirectory < 2 ^ 32 := by decide
  have hnormal : fileAttributeNormal < 2 ^ 32 := by decide
  unfold DirectoryInfo.entryAt
  split_ifs
  · exact hdirectory
  · exact hnormal

theorem fits_info {cls : InfoClass} {nextEntryOffset : ℕ} (hi : index < 2 ^ 32) (hn : nextEntryOffset < 2 ^ 32) : (d.info index nextEntryOffset).Fits cls where
  nextEntryOffset := hn
  fileIndex := hi
  creationTime := Nat.mod_lt _ (by decide)
  lastAccessTime := Nat.mod_lt _ (by decide)
  lastWriteTime := Nat.mod_lt _ (by decide)
  changeTime := Nat.mod_lt _ (by decide)
  endOfFile := Nat.mod_lt _ (by decide)
  allocationSize := Nat.mod_lt _ (by decide)
  fileAttributes := attrs_lt d index
  fileName := length_name d index
  fileNameLength := rfl
  eaSize := Nat.two_pow_pos 32
  shortNameLength := rfl
  fileId := rfl

theorem size_lt (cls : InfoClass) (index : ℕ) : 4 < d.size cls index ∧ d.size cls index < 2 ^ 32 ∧ d.size cls index % 8 = 0 := by
  have hoff : cls.fileNameOffset ≤ 104 := by cases cls <;> decide
  have hname := length_name d index
  obtain ⟨halign, -, hlt⟩ := @entrySize_spec cls _ hname
  refine ⟨entrySize_pos hname, ?_, halign⟩
  unfold DirectoryInfo.size
  omega

theorem length_info (cls : InfoClass) (index nextEntryOffset : ℕ) : ((d.info index nextEntryOffset).bytes cls).length = d.size cls index :=
  length_bytes (r := d.info index nextEntryOffset) (length_name d index)

/-- Only its first field tells an entry from the same one with another link. -/
theorem bytes_info (cls : InfoClass) (index n : ℕ) :
    (d.info index 0).bytes cls = le 4 0 ++ ((d.info index n).bytes cls).drop 4 := by
  simp only [DirInfo.bytes, DirInfo.header, List.append_assoc]
  rw [List.drop_left' (length_le 4 _)]
  rfl

/-! ### What the loop has copied -/

/-- The link an entry is written with. -/
def Query.link (q : Query) (d : DirectoryInfo) (total index : ℕ) : ℕ :=
  if q.returnSingle || decide (index = total - 1) then 0 else d.size q.cls index

/-- The locals of the loop when it has copied the entries `es`: those it is for from `start` on. -/
structure Copied (M : Matching) (d : DirectoryInfo) (search : Search) (q : Query) (start total : ℕ) (es : List ℕ) (p : Progress) : Prop where
  start_le : start ≤ p.index
  index_le : p.index ≤ total
  entries : es = (List.range' start (p.index - start)).filter (search.wants M d)
  cursor : p.cursor = (es.map (d.size q.cls)).sum
  totalWritten : p.totalWritten = p.cursor
  remaining : p.remaining + p.cursor = q.length.toNat
  found : p.found = !es.isEmpty
  lastEntry : p.lastEntry = es.getLast?.map fun e => p.cursor - d.size q.cls e
  written : load p.buffer 0 p.cursor = es.flatMap fun e => (d.info e (q.link d total e)).bytes q.cls
  beyond : ∀ i, p.cursor ≤ i → p.buffer i = q.buffer i
  scratch : ∀ i, entryMaxBytes ≤ i → p.scratch i = q.scratch i

theorem range'_succ_of_le (h : start ≤ index) : List.range' start (index + 1 - start) = List.range' start (index - start) ++ [index] := by
  rw [show index + 1 - start = (index - start) + 1 by omega, List.range'_concat]
  congr 2
  omega

theorem Copied.skip (h : Copied M d search q start total es p) (hlt : p.index < total) (hw : search.wants M d p.index = false) :
    Copied M d search q start total es { p with index := p.index + 1 } :=
  { h with
    start_le := Nat.le_succ_of_le h.start_le
    index_le := hlt
    entries := by
      rw [range'_succ_of_le h.start_le, List.filter_append, ← h.entries, List.filter_cons_of_neg (by rw [hw]; decide), List.filter_nil, List.append_nil] }

/-- The locals after an entry was copied. -/
def Progress.copied (p : Progress) (scratch : ℕ → UInt8) (written : ℕ) : Progress :=
  { p with
    buffer := store p.buffer p.cursor (load scratch 0 written)
    scratch := scratch
    lastEntry := some p.cursor
    cursor := p.cursor + written
    remaining := ulongSub p.remaining (ulong written)
    totalWritten := p.totalWritten + written
    found := true
    index := p.index + 1 }

theorem Copied.copy (h : Copied M d search q start total es p) (hlt : p.index < total) (hw : search.wants M d p.index = true)
    (hfit : d.size q.cls p.index ≤ p.remaining) {scratch : ℕ → UInt8} (hs : ∀ i, entryMaxBytes ≤ i → scratch i = q.scratch i)
    (hload : load scratch 0 (d.size q.cls p.index) = (d.info p.index (q.link d total p.index)).bytes q.cls) :
    Copied M d search q start total (es ++ [p.index]) (p.copied scratch (d.size q.cls p.index)) := by
  obtain ⟨hpos, hsize, -⟩ := size_lt (d := d) q.cls p.index
  have hlen : (load scratch 0 (d.size q.cls p.index)).length = d.size q.cls p.index := length_load
  have hlength := q.length.isLt
  have hrem := h.remaining
  refine ⟨Nat.le_succ_of_le h.start_le, hlt, ?_, ?_, ?_, ?_, ?_, ?_, ?_, fun i hi => ?_, hs⟩
  · change _ = (List.range' start (p.index + 1 - start)).filter _
    rw [range'_succ_of_le h.start_le, List.filter_append, ← h.entries, List.filter_cons_of_pos hw, List.filter_nil]
  · rw [List.map_append, List.sum_append, ← h.cursor, List.map_singleton, List.sum_singleton]
    rfl
  · exact congrArg (· + d.size q.cls p.index) h.totalWritten
  · change ulongSub p.remaining (ulong (d.size q.cls p.index)) + (p.cursor + d.size q.cls p.index) = _
    rw [ulong_of_lt hsize, ulongSub_of_le hfit (by omega)]
    omega
  · simp [Progress.copied]
  · rw [List.getLast?_concat, Option.map_some]
    change some p.cursor = some (p.cursor + d.size q.cls p.index - d.size q.cls p.index)
    rw [Nat.add_sub_cancel]
  · have happend := load_store_append (m := p.buffer) (l := load scratch 0 (d.size q.cls p.index)) (Nat.zero_add p.cursor)
    rw [hlen] at happend
    change load (store p.buffer p.cursor _) 0 (p.cursor + d.size q.cls p.index) = _
    rw [happend, h.written, hload, List.flatMap_append, List.flatMap_singleton]
  · change store p.buffer p.cursor _ i = _
    have hi' : p.cursor + d.size q.cls p.index ≤ i := hi
    rw [store_of_ge (by rw [hlen]; exact hi')]
    exact h.beyond i (by omega)

/-! ### The loop -/

/-- How the loop ends: with entries copied or none left, with a first entry that does not fit, or
with an exception. -/
inductive Ended (M : Matching) (d : DirectoryInfo) (search : Search) (q : Query) (start total : ℕ) : Turn → Prop
  | leave {es : List ℕ} {p : Progress} (copied : Copied M d search q start total es p) (single : q.returnSingle = true → es.length ≤ 1)
      (none : es = [] → p.index = total) : Ended M d search q start total (.leave p)
  | error {p : Progress} (copied : Copied M d search q start total [] p) : Ended M d search q start total (.error p)
  | raise {es : List ℕ} {p : Progress} (copied : Copied M d search q start total es p) : Ended M d search q start total (.raise p)

theorem turn_of_not_wants (hlt : p.index < d.entries) (hw : search.wants M d p.index = false) :
    turn M d search q total p = .again { p with index := p.index + 1 } := by
  have hmatch : search.matchPattern M (d.entryAt p.index).name = false := hw
  unfold turn
  rw [candidate_of_lt hlt]
  simp only [hmatch, Bool.false_eq_true, if_false]

theorem turn_of_wants (hlt : p.index < d.entries) (hw : search.wants M d p.index = true) :
    turn M d search q total p =
      if min p.remaining entryMaxBytes < d.size q.cls p.index then if p.found then .leave p else .error p
      else
        let scratch := store p.scratch 0 ((d.info p.index (q.link d total p.index)).bytes q.cls)
        if q.copyRaises p.cursor then .raise { p with scratch := scratch }
        else if q.returnSingle then .leave (p.copied scratch (d.size q.cls p.index))
        else .again (p.copied scratch (d.size q.cls p.index)) := by
  have hmatch : search.matchPattern M (d.entryAt p.index).name = true := hw
  have hmin : (if p.remaining < entryMaxBytes then p.remaining else entryMaxBytes) = min p.remaining entryMaxBytes := by
    split_ifs with hr
    · exact (Nat.min_eq_left (Nat.le_of_lt hr)).symm
    · exact (Nat.min_eq_right (not_lt.mp hr)).symm
  unfold turn
  rw [candidate_of_lt hlt]
  simp only [hmatch, if_true, hmin, fill_eq, fillDirInfo]
  by_cases hfit : min p.remaining entryMaxBytes < entrySize q.cls (d.entryAt p.index).name
  · rw [if_pos (show min p.remaining entryMaxBytes < d.size q.cls p.index from hfit)]
    simp only [if_pos hfit]
  · rw [if_neg (show ¬ min p.remaining entryMaxBytes < d.size q.cls p.index from hfit)]
    simp only [if_neg hfit]
    rfl

theorem Copied.turn (h : Copied M d search q start total es p) (ht : total = d.entries) (hlt : p.index < total)
    (hs : q.returnSingle = true → es = []) :
    (∃ es' p', turn M d search q total p = .again p' ∧ Copied M d search q start total es' p' ∧ p'.index = p.index + 1 ∧
      (q.returnSingle = true → es' = [])) ∨ Ended M d search q start total (turn M d search q total p) := by
  cases hw : search.wants M d p.index with
  | false => exact Or.inl ⟨es, _, turn_of_not_wants (ht ▸ hlt) hw, h.skip hlt hw, rfl, hs⟩
  | true =>
    rw [turn_of_wants (ht ▸ hlt) hw]
    by_cases hfit : min p.remaining entryMaxBytes < d.size q.cls p.index
    · rw [if_pos hfit]
      cases hes : es with
      | nil =>
        rw [if_neg (by rw [h.found, hes]; decide)]
        exact Or.inr (.error (hes ▸ h))
      | cons e rest =>
        rw [if_pos (by rw [h.found, hes]; rfl)]
        exact Or.inr (.leave h (fun hr => by rw [hs hr]; exact Nat.zero_le 1) fun hnil => by rw [hes] at hnil; cases hnil)
    · rw [if_neg hfit]
      rw [Nat.not_lt, Nat.le_min] at hfit
      have hlen := length_info (d := d) q.cls p.index (q.link d total p.index)
      have hscratch : ∀ i, entryMaxBytes ≤ i →
          store p.scratch 0 ((d.info p.index (q.link d total p.index)).bytes q.cls) i = q.scratch i := fun i hi => by
        rw [store_of_ge (by omega), h.scratch i hi]
      have hload : load (store p.scratch 0 ((d.info p.index (q.link d total p.index)).bytes q.cls)) 0 (d.size q.cls p.index) =
          (d.info p.index (q.link d total p.index)).bytes q.cls := hlen ▸ load_store_self
      have hcopied := h.copy hlt hw hfit.1 hscratch hload
      dsimp only
      by_cases hraise : q.copyRaises p.cursor = true
      · rw [if_pos hraise]
        exact Or.inr (.raise { h with scratch := hscratch })
      · rw [if_neg hraise]
        by_cases hr : q.returnSingle = true
        · rw [if_pos hr]
          refine Or.inr (.leave hcopied (fun _ => ?_) fun hnil => absurd hnil (List.append_ne_nil_of_right_ne_nil _ (List.cons_ne_nil _ _)))
          rw [hs hr]
          exact le_rfl
        · rw [if_neg hr]
          exact Or.inl ⟨_, _, rfl, hcopied, rfl, fun hr' => absurd hr' hr⟩

theorem Copied.turns (ht : total = d.entries) : ∀ {left : ℕ} {es : List ℕ} {p : Progress}, Copied M d search q start total es p →
    p.index + left = total → (q.returnSingle = true → es = []) → Ended M d search q start total (turns M d search q total left p)
  | 0, es, p, h, hleft, hs => .leave h (fun hr => by rw [hs hr]; exact Nat.zero_le 1) fun _ => hleft
  | left + 1, es, p, h, hleft, hs => by
    unfold Directory.turns
    rcases h.turn ht (by omega) hs with ⟨es', p', he, h', hindex, hs'⟩ | hended
    · rw [he]
      exact Copied.turns ht h' (by omega) hs'
    · generalize Directory.turn M d search q total p = result at hended
      cases hended with
      | leave copied single none => exact .leave copied single none
      | error copied => exact .error copied
      | raise copied => exact .raise copied

/-! ### The buffer of a query -/

/-- Entries as a query returns them together. -/
def DirectoryInfo.linked (d : DirectoryInfo) (cls : InfoClass) : List ℕ → List DirInfo
  | [] => []
  | [e] => [d.info e 0]
  | e :: e' :: es => d.info e (d.size cls e) :: linked d cls (e' :: es)

theorem links_linked (cls : InfoClass) : ∀ es : List ℕ, Links cls (d.linked cls es)
  | [] => trivial
  | [_] => rfl
  | _ :: [_] => ⟨rfl, rfl⟩
  | _ :: e :: e' :: es => ⟨rfl, links_linked cls (e :: e' :: es)⟩

theorem fits_linked (cls : InfoClass) : ∀ es : List ℕ, (∀ e ∈ es, e < 2 ^ 32) → ∀ r ∈ d.linked cls es, r.Fits cls
  | [], _, r, hr => by cases hr
  | [e], he, r, hr => by
    rw [List.mem_singleton.mp hr]
    exact fits_info (he e List.mem_cons_self) (Nat.two_pow_pos 32)
  | e :: e' :: es, he, r, hr => by
    rcases List.mem_cons.mp hr with rfl | hr
    · exact fits_info (he e List.mem_cons_self) (size_lt cls e).2.1
    · exact fits_linked cls (e' :: es) (fun i hi => he i (List.mem_cons_of_mem _ hi)) r hr

theorem linked_concat (cls : InfoClass) (e : ℕ) : ∀ es : List ℕ, d.linked cls (es ++ [e]) = (es.map fun i => d.info i (d.size cls i)) ++ [d.info e 0]
  | [] => rfl
  | [_] => rfl
  | i :: i' :: es => congrArg (d.info i (d.size cls i) :: ·) (linked_concat cls e (i' :: es))

/-- Which entries they are, whatever their links. -/
theorem map_linked (cls : InfoClass) : ∀ es : List ℕ, (d.linked cls es).map (fun r => { r with nextEntryOffset := 0 }) = es.map (d.info · 0)
  | [] => rfl
  | [_] => rfl
  | e :: e' :: es => congrArg (d.info e 0 :: ·) (map_linked cls (e' :: es))

theorem length_linked (cls : InfoClass) (es : List ℕ) : (d.linked cls es).length = es.length := by
  have hlen := congrArg List.length (map_linked (d := d) cls es)
  simpa using hlen

theorem Copied.lt (h : Copied M d search q start total es p) {e : ℕ} (he : e ∈ es) : e < total := by
  have hle := h.index_le
  rw [h.entries] at he
  have := List.mem_range'_1.mp (List.mem_filter.mp he).1
  omega

theorem Copied.sorted (h : Copied M d search q start total es p) : es.Pairwise (· < ·) := by
  rw [h.entries]
  exact (List.pairwise_lt_range' ..).filter _

theorem length_flatMap_bytes (cls : InfoClass) (link : ℕ → ℕ) (es : List ℕ) :
    (es.flatMap fun e => (d.info e (link e)).bytes cls).length = (es.map (d.size cls)).sum := by
  induction es with
  | nil => rfl
  | cons e es ih => rw [List.flatMap_cons, List.length_append, length_info, ih, List.map_cons, List.sum_cons]

/-- With its last link zeroed, what was copied is a chain of entries. -/
theorem Copied.patched {last : ℕ} (h : Copied M d search q start total es p) (hs : q.returnSingle = true → es.length ≤ 1)
    (hlast : p.lastEntry = some last) : load (store p.buffer last (le 4 0)) 0 p.cursor = (d.linked q.cls es).flatMap (·.bytes q.cls) ∧
      ∀ i, p.cursor ≤ i → store p.buffer last (le 4 0) i = q.buffer i := by
  rcases List.eq_nil_or_concat' es with rfl | ⟨init, e, rfl⟩
  · rw [h.lastEntry] at hlast
    cases hlast
  obtain ⟨hpos, -, -⟩ := size_lt (d := d) q.cls e
  have hcursor : p.cursor = (init.map (d.size q.cls)).sum + d.size q.cls e := by simpa using h.cursor
  have hat : last = (init.map (d.size q.cls)).sum := by
    rw [h.lastEntry, List.getLast?_concat, Option.map_some, hcursor, Nat.add_sub_cancel] at hlast
    exact (Option.some.inj hlast).symm
  have hlink : ∀ i ∈ init, q.link d total i = d.size q.cls i := by
    intro i hi
    have hsingle : q.returnSingle = false := by
      refine Bool.eq_false_iff.mpr fun hr => ?_
      have hle := hs hr
      have := List.length_pos_of_mem hi
      rw [List.length_append, List.length_singleton] at hle
      omega
    have hlt : i < e := (List.pairwise_append.mp h.sorted).2.2 i hi e (List.mem_singleton_self e)
    have he := h.lt (List.mem_append_right init (List.mem_singleton_self e))
    have hne : ¬ i = total - 1 := by omega
    simp [Query.link, hsingle, hne]
  have hinit : (init.flatMap fun i => (d.info i (q.link d total i)).bytes q.cls) =
      (init.map fun i => d.info i (d.size q.cls i)).flatMap (·.bytes q.cls) := by
    rw [List.flatMap_map]
    exact List.flatMap_congr fun i hi => by rw [hlink i hi]
  have hwritten := h.written
  rw [hcursor, ← hat, load_add, List.flatMap_append, List.flatMap_singleton] at hwritten
  obtain ⟨hfront, hback⟩ := List.append_inj hwritten (by rw [length_load, length_flatMap_bytes, hat])
  constructor
  · rw [hcursor, ← hat, load_add, load_store_below (by omega), hfront, linked_concat, List.flatMap_append, List.flatMap_singleton, hinit,
      bytes_info q.cls e (q.link d total e), ← hback, load_drop (by omega), show d.size q.cls e = 4 + (d.size q.cls e - 4) by omega, load_add,
      Nat.add_sub_cancel_left]
    congr 2
    · have hself : load (store p.buffer (0 + last) (le 4 0)) (0 + last) (le 4 0).length = le 4 0 := load_store_self
      rw [length_le] at hself
      rw [Nat.zero_add] at hself ⊢
      exact hself
    · exact load_store_above (by rw [length_le]; omega)
  · intro i hi
    rw [store_of_ge (by rw [length_le]; omega)]
    exact h.beyond i hi

/-! ### One query -/

variable {a : Answer} {final : ℕ}

/-- The entries a search is for between two indexes. -/
def Search.wanted (M : Matching) (d : DirectoryInfo) (search : Search) (start final : ℕ) : List ℕ :=
  (List.range' start (final - start)).filter (search.wants M d)

/-- What an answer returns to a reader of the buffer. -/
def Answer.returned (cls : InfoClass) (a : Answer) : List DirInfo :=
  if a.status = .success then readChain cls a.information (load a.buffer 0 a.information) else []

/-- What a query answers from `start`, and where the next one starts. -/
structure Answered (M : Matching) (d : DirectoryInfo) (search : Search) (q : Query) (start : ℕ) (a : Answer) (final : ℕ) : Prop where
  start_le : start ≤ final
  final_le : final ≤ d.entries
  buffer : ∀ i, q.length.toNat ≤ i → a.buffer i = q.buffer i
  scratch : ∀ i, entryMaxBytes ≤ i → a.scratch i = q.scratch i
  success : a.status = .success → search.wanted M d start final ≠ [] ∧ a.information ≤ q.length.toNat ∧
    load a.buffer 0 a.information = (d.linked q.cls (search.wanted M d start final)).flatMap (·.bytes q.cls) ∧
    (q.returnSingle = true → (search.wanted M d start final).length = 1)
  others : a.status ≠ .success → search.wanted M d start final = []
  noMoreFiles : a.status = .noMoreFiles → final = d.entries

@[simp] theorem wanted_self (start : ℕ) : search.wanted M d start start = [] := by simp [Search.wanted]

theorem Copied.cursor_le (h : Copied M d search q start total es p) : p.cursor ≤ q.length.toNat := by
  have := h.remaining
  omega

/-- An answer that leaves the handle where it was. -/
theorem Copied.kept (h : Copied M d search q start d.entries es p) (hstart : start ≤ d.entries) {status : Status}
    (hs : status ≠ .success) (hn : status ≠ .noMoreFiles) : Answered M d search q start ⟨status, 0, p.buffer, p.scratch⟩ start where
  start_le := le_rfl
  final_le := hstart
  buffer i hi := h.beyond i (le_trans h.cursor_le hi)
  scratch := h.scratch
  success he := absurd he hs
  others _ := wanted_self start
  noMoreFiles he := absurd he hn

theorem Ended.answered {t : Turn} (h : Ended M d search q start d.entries t) (hstart : start ≤ d.entries) :
    Answered M d search q start (t.answer q).1 ((t.answer q).2.getD start) := by
  cases h with
  | @leave es p copied single none =>
    cases hl : p.lastEntry with
    | none =>
      have hnil : es = [] := by
        rw [copied.lastEntry] at hl
        simpa using hl
      have hfound : p.found = false := by rw [copied.found, hnil]; rfl
      simp only [Turn.answer, hl, hfound, Bool.false_eq_true, if_false, Option.getD_some]
      exact {
        start_le := copied.start_le
        final_le := copied.index_le
        buffer := fun i hi => copied.beyond i (le_trans copied.cursor_le hi)
        scratch := copied.scratch
        success := nofun
        others := fun _ => copied.entries.symm.trans hnil
        noMoreFiles := fun _ => none hnil }
    | some last =>
      have hne : es ≠ [] := by
        rintro rfl
        rw [copied.lastEntry] at hl
        cases hl
      have hfound : p.found = true := by
        rw [copied.found]
        simpa using hne
      obtain ⟨hbytes, hbeyond⟩ := copied.patched single hl
      by_cases hraise : q.patchRaises = true
      · simp only [Turn.answer, hl, hraise, if_true, Option.getD_none]
        exact copied.kept hstart nofun nofun
      · simp only [Turn.answer, hl, hraise, hfound, Bool.false_eq_true, if_false, if_true, Option.getD_some]
        have hwanted : search.wanted M d start p.index = es := copied.entries.symm
        exact {
          start_le := copied.start_le
          final_le := copied.index_le
          buffer := fun i hi => hbeyond i (le_trans copied.cursor_le hi)
          scratch := copied.scratch
          success := fun _ => by
            rw [hwanted]
            refine ⟨hne, copied.totalWritten ▸ copied.cursor_le, copied.totalWritten ▸ hbytes, fun hr => ?_⟩
            have := List.length_pos_iff.mpr hne
            have := single hr
            omega
          others := fun hs => absurd rfl hs
          noMoreFiles := nofun }
  | @error p copied =>
    exact {
      start_le := copied.start_le
      final_le := copied.index_le
      buffer := fun i hi => copied.beyond i (le_trans copied.cursor_le hi)
      scratch := copied.scratch
      success := nofun
      others := fun _ => copied.entries.symm
      noMoreFiles := nofun }
  | raise copied => exact copied.kept hstart nofun nofun

/-- The locals at the top of the loop. -/
theorem copied_start (hstart : start ≤ d.entries) :
    Copied M d search q start d.entries [] ⟨start, q.length.toNat, 0, none, 0, false, q.buffer, q.scratch⟩ where
  start_le := le_rfl
  index_le := hstart
  entries := by simp
  cursor := rfl
  totalWritten := rfl
  remaining := Nat.add_zero _
  found := rfl
  lastEntry := rfl
  written := rfl
  beyond _ _ := rfl
  scratch _ _ := rfl

variable (M search) in
theorem queryDirectory_answered (hd : d.entries ≤ maxULong / 4) (hstart : start ≤ d.entries) (q : Query) :
    Answered M d search q start (queryDirectory M d search q start).1 (queryDirectory M d search q start).2 := by
  have hle : d.entries ≤ 2 ^ 30 := le_trans hd (by decide)
  unfold queryDirectory
  by_cases hmapped : q.mapped = true
  · rw [if_pos hmapped]
    have h32 : ulong start = start := ulong_of_lt (by omega)
    have htotal : ulong (ulong64 d.entries) = d.entries := by
      rw [ulong64_of_lt (by omega)]
      exact ulong_of_lt (by omega)
    rw [h32, htotal]
    have hcopied : Copied M d search q start d.entries [] ⟨start, q.length.toNat, 0, none, 0, false, q.buffer, q.scratch⟩ := copied_start hstart
    have hended := hcopied.turns rfl (Nat.add_sub_of_le hstart) (fun _ => rfl)
    exact hended.answered hstart
  · rw [if_neg hmapped]
    exact (copied_start hstart).kept hstart nofun nofun

theorem length_le_sum_size (cls : InfoClass) (es : List ℕ) : es.length ≤ (es.map (d.size cls)).sum := by
  induction es with
  | nil => exact le_rfl
  | cons e es ih =>
    have hpos := (size_lt (d := d) cls e).1
    rw [List.length_cons, List.map_cons, List.sum_cons]
    omega

theorem linked_eq_flatMap (cls : InfoClass) (es : List ℕ) :
    ((d.linked cls es).flatMap (·.bytes cls)).length = (es.map (d.size cls)).sum := by
  rcases List.eq_nil_or_concat' es with rfl | ⟨init, e, rfl⟩
  · rfl
  · rw [linked_concat, List.flatMap_append, List.flatMap_singleton, List.length_append, length_info, List.map_append, List.sum_append,
      List.flatMap_map, length_flatMap_bytes cls (d.size cls)]
    simp

/-- A reader of the buffer finds the entries that were copied. -/
theorem Answered.returned (h : Answered M d search q start a final) (hd : d.entries ≤ maxULong / 4) :
    a.returned q.cls = d.linked q.cls (search.wanted M d start final) := by
  unfold Answer.returned
  by_cases hs : a.status = .success
  · obtain ⟨hne, -, hbytes, -⟩ := h.success hs
    have hlinked : d.linked q.cls (search.wanted M d start final) ≠ [] := by
      intro hnil
      have hlen := length_linked (d := d) q.cls (search.wanted M d start final)
      rw [hnil] at hlen
      exact hne (List.eq_nil_of_length_eq_zero hlen.symm)
    have hinformation : a.information = ((search.wanted M d start final).map (d.size q.cls)).sum := by
      rw [← linked_eq_flatMap, ← hbytes, length_load]
    have hfits : ∀ r ∈ d.linked q.cls (search.wanted M d start final), r.Fits q.cls := fits_linked q.cls _ fun e he => by
      have hrange := List.mem_range'_1.mp (List.mem_filter.mp he).1
      have hfinal := h.final_le
      have hmax : maxULong / 4 < 2 ^ 32 := by decide
      omega
    have hread := @readChain_flatMap _ [] _ a.information hlinked
      (by rw [length_linked, hinformation]; exact length_le_sum_size q.cls _) hfits (links_linked q.cls _)
    rw [List.append_nil] at hread
    rw [if_pos hs, hbytes]
    exact hread
  · rw [if_neg hs, h.others hs]
    rfl

/-! ### Entries the search is not for -/

theorem wanted_append {middle : ℕ} (h1 : start ≤ middle) (h2 : middle ≤ final) :
    search.wanted M d start final = search.wanted M d start middle ++ search.wanted M d middle final := by
  unfold Search.wanted
  rw [← List.filter_append, show final - start = (middle - start) + (final - middle) by omega, ← List.range'_append_1]
  congr 3
  omega

/-- The loop passes over entries it is not for. -/
theorem turns_skip (ht : total = d.entries) : ∀ {n : ℕ} {p : Progress}, p.index + n ≤ total → search.wanted M d p.index (p.index + n) = [] →
    turns M d search q total (total - p.index) p = turns M d search q total (total - (p.index + n)) { p with index := p.index + n }
  | 0, p, _, _ => rfl
  | n + 1, p, hle, hnone => by
    have hw : search.wants M d p.index = false := by
      refine Bool.eq_false_iff.mpr fun hw => ?_
      rw [Search.wanted, List.filter_eq_nil_iff] at hnone
      exact hnone p.index (List.mem_range'_1.mpr (by omega)) hw
    have hrest : search.wanted M d (p.index + 1) (p.index + 1 + n) = [] := by
      rw [@wanted_append _ _ _ p.index _ (p.index + 1) (by omega) (by omega), List.append_eq_nil_iff] at hnone
      rw [show p.index + 1 + n = p.index + (n + 1) by omega]
      exact hnone.2
    have hturn : turn M d search q total p = .again { p with index := p.index + 1 } := turn_of_not_wants (by omega) hw
    rw [show total - p.index = (total - (p.index + 1)) + 1 by omega, turns, hturn]
    have ih := turns_skip ht (p := { p with index := p.index + 1 }) (n := n) (by dsimp only; omega) hrest
    dsimp only at ih ⊢
    rw [ih, show p.index + 1 + n = p.index + (n + 1) by omega]

/-- Where a query starts among entries it is not for makes no difference. -/
theorem queryDirectory_skip (hd : d.entries ≤ maxULong / 4) (hle : start ≤ index) (hindex : index ≤ d.entries)
    (hnone : search.wanted M d start index = []) :
    (queryDirectory M d search q start).1 = (queryDirectory M d search q index).1 ∧
      ((queryDirectory M d search q start).2 = (queryDirectory M d search q index).2 ∨
        (queryDirectory M d search q start).2 = start ∧ (queryDirectory M d search q index).2 = index) := by
  have hle' : d.entries ≤ 2 ^ 30 := le_trans hd (by decide)
  unfold queryDirectory
  by_cases hmapped : q.mapped = true
  · obtain ⟨n, rfl⟩ := Nat.exists_eq_add_of_le hle
    have htotal : ulong (ulong64 d.entries) = d.entries := by
      rw [ulong64_of_lt (by omega)]
      exact ulong_of_lt (by omega)
    have hsame : enumerateDirectoryEntries M d search q start d.entries = enumerateDirectoryEntries M d search q (start + n) d.entries :=
      congrArg (·.answer q) (turns_skip (q := q) rfl (p := ⟨start, q.length.toNat, 0, none, 0, false, q.buffer, q.scratch⟩) hindex hnone)
    rw [if_pos hmapped, if_pos hmapped, htotal, ulong_of_lt (n := start) (by omega), ulong_of_lt (n := start + n) (by omega), hsame]
    obtain ⟨answer, final⟩ := enumerateDirectoryEntries M d search q (start + n) d.entries
    cases final with
    | none => exact ⟨rfl, Or.inr ⟨rfl, rfl⟩⟩
    | some final => exact ⟨rfl, Or.inl rfl⟩
  · rw [if_neg hmapped, if_neg hmapped]
    exact ⟨rfl, Or.inr ⟨rfl, rfl⟩⟩

theorem queries_skip (hd : d.entries ≤ maxULong / 4) : ∀ {qs : List Query} {start index : ℕ}, start ≤ index → index ≤ d.entries →
    search.wanted M d start index = [] → (queries M d search start qs).1 = (queries M d search index qs).1
  | [], _, _, _, _, _ => rfl
  | q :: qs, start, index, hle, hindex, hnone => by
    obtain ⟨hanswer, hfinal⟩ := queryDirectory_skip (q := q) hd hle hindex hnone
    have hrest : (queries M d search (queryDirectory M d search q start).2 qs).1 =
        (queries M d search (queryDirectory M d search q index).2 qs).1 := by
      rcases hfinal with he | ⟨hs, hi⟩
      · rw [he]
      · rw [hs, hi]
        exact queries_skip hd hle hindex hnone
    change (q, (queryDirectory M d search q start).1) :: _ = (q, (queryDirectory M d search q index).1) :: _
    rw [hanswer]
    exact congrArg _ hrest

/-! ### Runs -/

/-- What a run of queries returned, whatever the links. -/
def returnedBy (run : List (Query × Answer)) : List DirInfo :=
  (run.flatMap fun qa => qa.2.returned qa.1.cls).map fun r => { r with nextEntryOffset := 0 }

/-- A run of queries goes through the entries its search is for, from where it starts. -/
structure Ran (M : Matching) (d : DirectoryInfo) (search : Search) (start : ℕ) (run : List (Query × Answer)) (final : ℕ) : Prop where
  start_le : start ≤ final
  final_le : final ≤ d.entries
  returned : returnedBy run = (search.wanted M d start final).map (d.info · 0)
  answered : ∀ qa ∈ run, ∃ start final, Answered M d search qa.1 start qa.2 final
  noMoreFiles : (∃ qa ∈ run, qa.2.status = .noMoreFiles) → final = d.entries

variable (M search) in
theorem queries_ran (hd : d.entries ≤ maxULong / 4) : ∀ (qs : List Query) {start : ℕ}, start ≤ d.entries →
    Ran M d search start (queries M d search start qs).1 (queries M d search start qs).2
  | [], start, hstart => ⟨le_rfl, hstart, by rw [queries, wanted_self]; rfl, nofun, nofun⟩
  | q :: qs, start, hstart => by
    have hq := queryDirectory_answered M search hd hstart q
    have ih := queries_ran hd qs hq.final_le
    have hrun : queries M d search start (q :: qs) =
        ((q, (queryDirectory M d search q start).1) :: (queries M d search (queryDirectory M d search q start).2 qs).1,
          (queries M d search (queryDirectory M d search q start).2 qs).2) := rfl
    rw [hrun]
    generalize queryDirectory M d search q start = r at hq ih ⊢
    generalize queries M d search r.2 qs = run at ih ⊢
    refine ⟨le_trans hq.start_le ih.start_le, ih.final_le, ?_, fun qa hqa => ?_, ?_⟩
    · have hreturned := ih.returned
      unfold returnedBy at hreturned ⊢
      rw [List.flatMap_cons, List.map_append, hreturned, hq.returned hd, map_linked, ← List.map_append,
        ← wanted_append hq.start_le ih.start_le]
    · rcases List.mem_cons.mp hqa with rfl | hqa
      · exact ⟨_, _, hq⟩
      · exact ih.answered qa hqa
    · rintro ⟨qa, hqa, hs⟩
      rcases List.mem_cons.mp hqa with rfl | hqa
      · have hend := hq.noMoreFiles hs
        have := ih.start_le
        have := ih.final_le
        omega
      · exact ih.noMoreFiles ⟨qa, hqa, hs⟩

/-- The entries of a listing a search is for, as a query returns them. -/
def Search.all (M : Matching) (d : DirectoryInfo) (search : Search) : List DirInfo :=
  ((List.range d.entries).filter (search.wants M d)).map (d.info · 0)

/-- An answer to a reader: a chain of entries that fill the bytes it says, each aligned, and
nothing touched behind the buffer or the scratch block. -/
structure Answer.Sound (q : Query) (a : Answer) : Prop where
  bytes : a.status = .success → load a.buffer 0 a.information = (a.returned q.cls).flatMap (·.bytes q.cls)
  links : Links q.cls (a.returned q.cls)
  aligned : ∀ r ∈ a.returned q.cls, r.nextEntryOffset % 8 = 0
  length : a.status = .success → a.information ≤ q.length.toNat ∧ a.returned q.cls ≠ []
  single : q.returnSingle = true → (a.returned q.cls).length ≤ 1
  buffer : ∀ i, q.length.toNat ≤ i → a.buffer i = q.buffer i
  scratch : ∀ i, entryMaxBytes ≤ i → a.scratch i = q.scratch i

theorem aligned_linked (cls : InfoClass) : ∀ es : List ℕ, ∀ r ∈ d.linked cls es, r.nextEntryOffset % 8 = 0
  | [], r, hr => by cases hr
  | [e], r, hr => by
    rw [List.mem_singleton.mp hr]
    rfl
  | e :: e' :: es, r, hr => by
    rcases List.mem_cons.mp hr with rfl | hr
    · exact (size_lt cls e).2.2
    · exact aligned_linked cls (e' :: es) r hr

theorem Answered.sound (h : Answered M d search q start a final) (hd : d.entries ≤ maxULong / 4) : a.Sound q := by
  have hreturned := h.returned hd
  refine ⟨fun hs => ?_, ?_, ?_, fun hs => ?_, fun hr => ?_, h.buffer, h.scratch⟩
  · rw [hreturned]
    exact (h.success hs).2.2.1
  · rw [hreturned]
    exact links_linked q.cls _
  · rw [hreturned]
    exact aligned_linked q.cls _
  · obtain ⟨hne, hle, -, -⟩ := h.success hs
    refine ⟨hle, fun hnil => hne (List.eq_nil_of_length_eq_zero ?_)⟩
    rw [← length_linked (d := d) q.cls, ← hreturned, hnil]
    rfl
  · rw [hreturned, length_linked]
    by_cases hs : a.status = .success
    · exact Nat.le_of_eq ((h.success hs).2.2.2 hr)
    · rw [h.others hs]
      exact Nat.zero_le 1

/-- Queries of a handle one after another return the entries its search is for in the order of
the listing: some of the first of them, and all of them once one has answered that there are no
more. Every answer is sound. A query whose first entry does not fit changes nothing for those
after it. -/
theorem queries_complete (M : Matching) (search : Search) (hd : d.entries ≤ maxULong / 4) (qs : List Query) :
    returnedBy (queries M d search 0 qs).1 <+: search.all M d ∧
    ((∃ qa ∈ (queries M d search 0 qs).1, qa.2.status = .noMoreFiles) → returnedBy (queries M d search 0 qs).1 = search.all M d) ∧
    (∀ qa ∈ (queries M d search 0 qs).1, qa.2.Sound qa.1) ∧
    ∀ before q after,
      let start := (queries M d search 0 before).2
      (queryDirectory M d search q start).1.status = .bufferOverflow →
        (queries M d search (queryDirectory M d search q start).2 after).1 = (queries M d search start after).1 := by
  have hran := queries_ran M search hd qs (Nat.zero_le d.entries)
  have hall : search.all M d = (search.wanted M d 0 d.entries).map (d.info · 0) := by
    rw [Search.all, Search.wanted, List.range_eq_range', Nat.sub_zero]
  have hsplit : search.wanted M d 0 d.entries = _ := wanted_append hran.start_le hran.final_le
  refine ⟨?_, fun hnone => ?_, fun qa hqa => ?_, fun before q after => ?_⟩
  · rw [hran.returned, hall, hsplit, List.map_append]
    exact List.prefix_append _ _
  · rw [hran.returned, hall, hran.noMoreFiles hnone]
  · obtain ⟨start, final, hanswered⟩ := hran.answered qa hqa
    exact hanswered.sound hd
  · intro start hoverflow
    have hstart : start ≤ d.entries := (queries_ran M search hd before (Nat.zero_le d.entries)).final_le
    have hq := queryDirectory_answered M search hd hstart q
    have hnone := hq.others (by rw [hoverflow]; decide)
    exact (queries_skip hd hq.start_le hq.final_le hnone).symm

/-- Files `a` and `b` and a directory `c`, names a character long with a NUL behind each. -/
def threeEntries : DirectoryInfo where
  filesOffset := 88
  subDirsOffset := 184
  indexOffset := 224
  namesOffset := 252
  fileCount := 2
  subDirCount := 1
  bytes := 264
  indexMask := 3
  files index := { size := index, nameLength := 1, name := 2 * index }
  subDirs _ := { nameLength := 1, name := 4 }
  names i := if i = 0 then 0x61 else if i = 2 then 0x62 else if i = 4 then 0x63 else 0

/-- All but `b`: a buffer too small for any entry, one for a single entry, and one for the rest. -/
theorem queries_complete_threeEntries : ∃ M search, returnedBy (queries M threeEntries search 0
      [⟨.full, 40, false, fun _ => 0, fun _ => 0, true, fun _ => false, false⟩, ⟨.full, 100, false, fun _ => 0, fun _ => 0, true, fun _ => false, false⟩,
        ⟨.both, 100, true, fun _ => 0, fun _ => 0, true, fun _ => false, false⟩, ⟨.idBoth, 4096, false, fun _ => 0, fun _ => 0, true, fun _ => false, false⟩]).1 =
    search.all M threeEntries ∧ (search.all M threeEntries).map (·.fileIndex) = [0, 2] := by
  refine ⟨⟨fun _ name => some (name != [0x62]), fun _ _ => false⟩, ⟨false, [0x2A, 0x2A]⟩, ?_, ?_⟩
  · exact (queries_complete _ _ (by decide) _).2.1 (by decide +kernel)
  · decide +kernel

end BlorgFS.Directory

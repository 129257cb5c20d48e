import Mathlib.Data.Multiset.Range
import Mathlib.Logic.Function.Basic

/-!
# A list in the front of an array

One thread owns the list: it stores an element behind the list and then the size, and it takes an
element out by storing the last one over it and then the size. Others read the list by index, up to
a size that they have read before.

* `ArrayList.contents` is what the list holds.
* `ArrayList.Ahead A pos sz a` says that a reader that goes on from `pos` to `sz` will come across
  `a`, if nothing is stored. `Ahead.store` says when it still does after a store.
-/

/-- A list in the front of an array. -/
@[ext]
structure ArrayList (α : Type*) where
  size : ℕ
  /-- The entries of the array; those from `size` on are left over. -/
  data : ℕ → α

namespace ArrayList

open Function

variable {α : Type*} {A : ArrayList α} {a b : α} {i j pos sz : ℕ}

/-- What the list holds, with repetitions. -/
def contents (A : ArrayList α) : Multiset α := (Multiset.range A.size).map A.data

/-- An entry is stored. -/
def store (A : ArrayList α) (j : ℕ) (a : α) : ArrayList α := { A with data := update A.data j a }

/-- The size is stored. -/
def resize (A : ArrayList α) (k : ℕ) : ArrayList α := { A with size := k }

@[simp] theorem resize_size : (A.resize i).size = i := rfl

@[simp] theorem resize_data : (A.resize i).data = A.data := rfl

@[simp] theorem store_data_self : (A.store j a).data j = a :=
  update_self ..

theorem store_data_of_ne (h : i ≠ j) : (A.store j a).data i = A.data i :=
  update_of_ne h ..

theorem mem_contents : a ∈ A.contents ↔ ∃ j < A.size, A.data j = a := by
  simp [contents]

@[simp] theorem contents_resize_zero : (A.resize 0).contents = 0 := rfl

/-- What is stored behind the list is not in it. -/
theorem contents_store (h : A.size ≤ j) : (A.store j a).contents = A.contents := by
  refine Multiset.map_congr rfl fun i hi => store_data_of_ne ?_
  exact ((Multiset.mem_range.mp hi).trans_le h).ne

/-- Until the size is stored. -/
theorem contents_resize_succ : (A.resize (A.size + 1)).contents = A.data A.size ::ₘ A.contents := by
  unfold contents
  rw [resize_size, Multiset.range_succ, Multiset.map_cons]
  rfl

/-- The last element is left out. -/
theorem contents_resize_pred (h : A.size = sz + 1) :
    A.contents = A.data sz ::ₘ (A.resize sz).contents := by
  unfold contents
  rw [h, Multiset.range_succ, Multiset.map_cons]
  rfl

/-- The last element is stored over the one at `i`, and left out. -/
theorem contents_move (h : A.size = sz + 1) (hi : i ≤ sz) :
    A.contents = A.data i ::ₘ ((A.store i (A.data sz)).resize sz).contents := by
  rcases hi.lt_or_eq with hlt | rfl
  · have hmem : i ∈ Multiset.range sz := Multiset.mem_range.mpr hlt
    obtain ⟨rest, hrest⟩ := Multiset.exists_cons_of_mem hmem
    have hnotin : i ∉ rest := by
      have hnodup := Multiset.nodup_range sz
      rw [hrest] at hnodup
      exact (Multiset.nodup_cons.mp hnodup).1
    -- apart from `i` nothing has changed
    have hcongr : rest.map (A.store i (A.data sz)).data = rest.map A.data :=
      Multiset.map_congr rfl fun k hk => store_data_of_ne fun hki => hnotin (hki ▸ hk)
    calc A.contents = A.data sz ::ₘ A.data i ::ₘ rest.map A.data := by
          rw [contents_resize_pred h, contents, resize_size, hrest, Multiset.map_cons]
          rfl
      _ = A.data i ::ₘ A.data sz ::ₘ rest.map A.data := Multiset.cons_swap ..
      _ = A.data i ::ₘ ((A.store i (A.data sz)).resize sz).contents := by
          rw [contents, resize_size, hrest, Multiset.map_cons, resize_data, store_data_self, hcongr]
  · -- the element is the last one
    have hstore : A.store i (A.data i) = A := by
      ext1
      · rfl
      · exact update_eq_self ..
    rw [hstore]
    exact contents_resize_pred h

/-! ### Readers -/

/-- One of the entries from `pos` to `sz` is `a`. -/
def Ahead (A : ArrayList α) (pos sz : ℕ) (a : α) : Prop := ∃ j, pos ≤ j ∧ j < sz ∧ A.data j = a

/-- Readers do not look at the size again. -/
@[simp] theorem ahead_resize {k : ℕ} : (A.resize k).Ahead pos sz a ↔ A.Ahead pos sz a :=
  Iff.rfl

/-- A reader that has just read the size is ahead of everything in the list. -/
theorem Ahead.of_mem (h : a ∈ A.contents) : A.Ahead 0 A.size a := by
  obtain ⟨j, hj, ha⟩ := mem_contents.mp h
  exact ⟨j, Nat.zero_le j, hj, ha⟩

/-- It reads one more entry. -/
theorem Ahead.next (h : A.Ahead pos sz a) : A.data pos = a ∨ A.Ahead (pos + 1) sz a := by
  obtain ⟨j, hpos, hj, ha⟩ := h
  rcases hpos.eq_or_lt with rfl | hlt
  · exact .inl ha
  · exact .inr ⟨j, hlt, hj, ha⟩

/-- At the end nothing is ahead. -/
theorem not_ahead (h : sz ≤ pos) : ¬ A.Ahead pos sz a := by
  rintro ⟨j, hpos, hj, -⟩
  exact absurd (hpos.trans_lt hj) (not_lt.mpr h)

/-- A store hides an element from a reader only if it is over the last entry ahead that has it. -/
theorem Ahead.store (h : A.Ahead pos sz a)
    (hkeep : pos ≤ j → j < sz → A.data j = a → ∃ k ≠ j, pos ≤ k ∧ k < sz ∧ A.data k = a) :
    (A.store j b).Ahead pos sz a := by
  obtain ⟨i, hpos, hi, ha⟩ := h
  by_cases hij : i = j
  · subst hij
    obtain ⟨k, hk, hposk, hksz, hdata⟩ := hkeep hpos hi ha
    exact ⟨k, hposk, hksz, (store_data_of_ne hk).trans hdata⟩
  · exact ⟨i, hpos, hi, (store_data_of_ne hij).trans ha⟩

end ArrayList

import Mathlib.Algebra.BigOperators.Group.Finset.Basic
import Mathlib.Algebra.Order.BigOperators.Group.Finset
import Mathlib.Data.Fintype.BigOperators

/-!
# Totals over the threads

Every thread has a local state, and something that the threads share or hold together is the sum of
what can be read off the local states: a count, or a multiset. The total changes with the share of
the thread that takes a step.

* `totalOf_update` — one thread goes on;
* `exists_rest`, `exists_rest_pair` — the shares of one and of two threads, and the rest;
* `le_totalOf`, `add_le_totalOf` — the shares of one and of two threads;
* `totalOf_eq_zero` — nobody has a share.
-/

open Finset Function

/-- The sum of what all the threads count for. -/
def totalOf {ι σ M : Type*} [Fintype ι] [AddCommMonoid M] (f : σ → M) (g : ι → σ) : M :=
  ∑ t, f (g t)

section Totals

variable {ι σ M : Type*} [Fintype ι] [AddCommMonoid M] {f : σ → M} {g : ι → σ} {t u : ι}

/-- Nobody counts for anything. -/
theorem totalOf_of_forall (h : ∀ t, f (g t) = 0) : totalOf f g = 0 := by
  unfold totalOf
  exact sum_eq_zero fun t _ => h t

/-- **Thread `t` goes on.** Its old share goes and its new share comes. -/
theorem totalOf_update [DecidableEq ι] (t : ι) (x : σ) :
    totalOf f (update g t x) + f (g t) = totalOf f g + f x := by
  unfold totalOf
  have hrest : ∑ u ∈ univ.erase t, f (update g t x u) = ∑ u ∈ univ.erase t, f (g u) := by
    refine sum_congr rfl fun u hu => ?_
    rw [update_of_ne (ne_of_mem_erase hu)]
  calc ∑ u, f (update g t x u) + f (g t)
      = (f x + ∑ u ∈ univ.erase t, f (g u)) + f (g t) := by
        rw [← add_sum_erase univ _ (mem_univ t), update_self, hrest]
    _ = (f (g t) + ∑ u ∈ univ.erase t, f (g u)) + f x := by
        ac_rfl
    _ = ∑ u, f (g u) + f x := by
        rw [add_sum_erase univ (fun u => f (g u)) (mem_univ t)]

/-- The share of thread `t` and those of the others, which stay when it goes on. -/
theorem exists_rest [DecidableEq ι] (f : σ → M) (g : ι → σ) (t : ι) :
    ∃ r, totalOf f g = f (g t) + r ∧ (∀ x, totalOf f (update g t x) = f x + r) ∧
      ∀ u, u ≠ t → ∃ r', r = f (g u) + r' := by
  have hrest : ∀ x, ∑ u ∈ univ.erase t, f (update g t x u) = ∑ u ∈ univ.erase t, f (g u) :=
    fun x => sum_congr rfl fun u hu => by rw [update_of_ne (ne_of_mem_erase hu)]
  refine ⟨∑ u ∈ univ.erase t, f (g u), ?_, fun x => ?_, fun u hu => ?_⟩
  · exact (add_sum_erase univ (fun u => f (g u)) (mem_univ t)).symm
  · unfold totalOf
    rw [← add_sum_erase univ _ (mem_univ t), update_self, hrest]
  · have hmem : u ∈ univ.erase t := mem_erase.mpr ⟨hu, mem_univ u⟩
    exact ⟨_, (add_sum_erase _ (fun u => f (g u)) hmem).symm⟩

/-- The shares of two threads and those of the others, which stay when the two go on. -/
theorem exists_rest_pair [DecidableEq ι] (f : σ → M) (g : ι → σ) (h : t ≠ u) :
    ∃ r, totalOf f g = f (g t) + (f (g u) + r) ∧
      (∀ x y, totalOf f (update (update g t x) u y) = f x + (f y + r)) ∧
      ∀ v, v ≠ t → v ≠ u → ∃ r', r = f (g v) + r' := by
  have hmem : u ∈ univ.erase t := mem_erase.mpr ⟨h.symm, mem_univ u⟩
  have hrest : ∀ x y, ∑ v ∈ (univ.erase t).erase u, f (update (update g t x) u y v) =
      ∑ v ∈ (univ.erase t).erase u, f (g v) := by
    intro x y
    refine sum_congr rfl fun v hv => ?_
    have hvt : v ≠ t := ne_of_mem_erase (mem_of_mem_erase hv)
    rw [update_of_ne (ne_of_mem_erase hv), update_of_ne hvt]
  refine ⟨∑ v ∈ (univ.erase t).erase u, f (g v), ?_, fun x y => ?_, fun v hvt hvu => ?_⟩
  · rw [add_sum_erase _ (fun u => f (g u)) hmem]
    exact (add_sum_erase univ (fun u => f (g u)) (mem_univ t)).symm
  · unfold totalOf
    rw [← add_sum_erase univ _ (mem_univ t), ← add_sum_erase _ _ hmem, hrest, update_self,
      update_of_ne h, update_self]
  · have hv : v ∈ (univ.erase t).erase u := mem_erase.mpr ⟨hvu, mem_erase.mpr ⟨hvt, mem_univ v⟩⟩
    exact ⟨_, (add_sum_erase _ (fun u => f (g u)) hv).symm⟩

variable [PartialOrder M] [CanonicallyOrderedAdd M]

/-- Two threads have two parts of the total. -/
theorem add_le_totalOf [DecidableEq ι] (h : t ≠ u) : f (g t) + f (g u) ≤ totalOf f g := by
  calc f (g t) + f (g u) = ∑ q ∈ {t, u}, f (g q) := (sum_pair (f := fun q => f (g q)) h).symm
    _ ≤ totalOf f g := by
        unfold totalOf
        exact sum_le_sum_of_subset (subset_univ _)

variable [IsOrderedAddMonoid M]

/-- A share is part of the total. -/
theorem le_totalOf (t : ι) : f (g t) ≤ totalOf f g := by
  unfold totalOf
  exact single_le_sum (f := fun t => f (g t)) (fun _ _ => zero_le) (mem_univ t)

/-- If the total is zero, then so is every share. -/
theorem totalOf_eq_zero (h : totalOf f g = 0) (t : ι) : f (g t) = 0 := by
  have hle : f (g t) ≤ totalOf f g := le_totalOf t
  rw [h] at hle
  exact le_antisymm hle zero_le

end Totals

import Mathlib.Logic.Function.Basic
import Mathlib.Data.List.Basic

/-!
# Locks

A lock is a bit. Which locks a thread holds is read off where it is in its code. Taking a lock finds
the bit clear and releasing one clears it, so a lock that a thread holds is set, and no two threads
hold the same one.

* `Locks.stay`, `Locks.take`, `Locks.release` — the thread goes on, takes a lock, releases one;
* `Locks.reset` — the bit of a lock that nobody holds changes.
-/

open Function

/-- **Mutual exclusion.** Thread `t` holds the locks in `held t`. -/
structure Locks {α ι : Type*} (lock : α → Bool) (held : ι → List α) : Prop where
  /-- Locks that are held are set. -/
  taken : ∀ {t y}, y ∈ held t → lock y = true
  /-- A lock is held by one thread only. -/
  excl : ∀ {t t' y}, y ∈ held t → y ∈ held t' → t = t'

namespace Locks

variable {α ι : Type*} {lock : α → Bool} {held held' : ι → List α} {t : ι} {y : α} {b : Bool}

/-- Nobody holds anything. -/
theorem init (h : ∀ t, held t = []) : Locks lock held := by
  refine ⟨fun {t y} hy => ?_, fun {t t' y} hy => ?_⟩
  all_goals
    rw [h t] at hy
    cases hy

/-- A lock that is clear is held by nobody. -/
theorem not_held (h : Locks lock held) (hy : lock y = false) : y ∉ held t := by
  intro hmem
  rw [h.taken hmem] at hy
  cases hy

/-- Thread `t` goes on, with none but locks that it holds. -/
theorem stay (h : Locks lock held) (hne : ∀ q, q ≠ t → held' q = held q)
    (hsub : ∀ z ∈ held' t, z ∈ held t) : Locks lock held' := by
  have hback : ∀ {q z}, z ∈ held' q → z ∈ held q := by
    intro q z hz
    by_cases hq : q = t
    · subst hq
      exact hsub z hz
    · rw [← hne q hq]
      exact hz
  exact ⟨fun hz => h.taken (hback hz), fun hz hz' => h.excl (hback hz) (hback hz')⟩

variable [DecidableEq α]

/-- The bit of a lock that nobody holds changes. -/
theorem reset (h : Locks lock held) (hy : ∀ t, y ∉ held t) :
    Locks (update lock y b) held := by
  refine ⟨fun {t z} hz => ?_, h.excl⟩
  have hzy : z ≠ y := by
    rintro rfl
    exact hy t hz
  rw [update_of_ne hzy]
  exact h.taken hz

/-- **Thread `t` takes a lock that is clear.** -/
theorem take (h : Locks lock held) (hy : lock y = false) (hne : ∀ q, q ≠ t → held' q = held q)
    (hsub : ∀ z ∈ held' t, z = y ∨ z ∈ held t) : Locks (update lock y true) held' := by
  -- the lock that is taken is held by no other thread
  have hother : ∀ {q}, q ≠ t → y ∉ held' q := by
    intro q hq
    rw [hne q hq]
    exact h.not_held hy
  refine ⟨fun {q z} hz => ?_, fun {q q' z} hz hz' => ?_⟩
  · by_cases hzy : z = y
    · subst hzy
      exact update_self ..
    · rw [update_of_ne hzy]
      by_cases hq : q = t
      · subst hq
        exact h.taken ((hsub z hz).resolve_left hzy)
      · rw [hne q hq] at hz
        exact h.taken hz
  · by_cases hq : q = t <;> by_cases hq' : q' = t
    · exact hq.trans hq'.symm
    · subst hq
      have hzy : z ≠ y := by
        rintro rfl
        exact hother hq' hz'
      rw [hne q' hq'] at hz'
      exact h.excl ((hsub z hz).resolve_left hzy) hz'
    · subst hq'
      have hzy : z ≠ y := by
        rintro rfl
        exact hother hq hz
      rw [hne q hq] at hz
      exact h.excl hz ((hsub z hz').resolve_left hzy)
    · rw [hne q hq] at hz
      rw [hne q' hq'] at hz'
      exact h.excl hz hz'

/-- **Thread `t` releases a lock that it holds.** -/
theorem release (h : Locks lock held) (hy : y ∈ held t)
    (hne : ∀ q, q ≠ t → held' q = held q) (hsub : ∀ z ∈ held' t, z ∈ held t ∧ z ≠ y) :
    Locks (update lock y false) held' := by
  refine (h.stay hne fun z hz => (hsub z hz).1).reset fun q hq => ?_
  by_cases hqt : q = t
  · subst hqt
    exact (hsub y hq).2 rfl
  · rw [hne q hqt] at hq
    exact hqt (h.excl hq hy)

end Locks

import Mathlib.Data.Fin.Basic
import Mathlib.Data.Nat.Notation
import Mathlib.Logic.Function.Basic
import Mathlib.Tactic.Common

/-!
# Observing the signalling rounds of other threads

A thread that signals everybody increments a counter of its own when its round
begins and again when every signal has been sent, so the counter is odd exactly
while a round is in progress. Another thread that saved the counter earlier and
reads it again can tell how many rounds lie in between — but not where in a round
its first reading fell.

`Observed P i saved ann stage` is what the observer of thread `i` may rely on: `P u`
stands for "thread `u` has been served since the observation began", `saved` is the
value it saved and `ann` the current one. The point of the file is which difference
is enough:

* `Observed.served` — a counter that has passed the *even value following* `saved`
  by two proves that a whole round lies after the observation, so everybody has been
  served. For an even `saved` that is a difference of two; for an odd one, taken
  inside a round, it is three.

The rules `Observed.begin`, `Observed.prepared`, `Observed.signal` and
`Observed.finish` follow the four things the signalling thread does; `Observed.step`
combines them (`Stage.Step`).
-/

/-- How far a thread has got in its signalling round. -/
inductive Stage
  /-- No round in progress. -/
  | out
  /-- The round has begun and nobody has been signalled yet. -/
  | prep
  /-- Every thread below `j` has been signalled. -/
  | reach (j : ℕ)
  deriving DecidableEq

/-- The least even number from `m` on. -/
def evenUp (m : ℕ) : ℕ := m + m % 2

/-- The counter is odd exactly while a round is in progress. -/
def Counts (ann : ℕ) (stage : Stage) : Prop :=
  ann % 2 = 1 ↔ stage ≠ .out

/-- What the observer of thread `i` may rely on: it saved the value `saved` of a
counter that now reads `ann`, the observed thread is at `stage`. -/
structure Observed {n : ℕ} (P : Fin n → Prop) (i : Fin n) (saved ann : ℕ) (stage : Stage) :
    Prop where
  /-- Counters only grow. -/
  le : saved ≤ ann
  /-- In the first round begun after the observation, those reached are served. -/
  during : ann = evenUp saved + 1 → ∀ j, stage = .reach j → ∀ u : Fin n, u = i ∨ u.val < j → P u
  /-- Once such a round has ended, everybody is served. -/
  after : evenUp saved + 2 ≤ ann → ∀ u, P u

namespace Observed

variable {n : ℕ} {P Q : Fin n → Prop} {i : Fin n} {saved ann : ℕ} {stage : Stage}

/-- A fresh observation knows nothing yet. -/
theorem now (P : Fin n → Prop) (i : Fin n) (ann : ℕ) (stage : Stage) :
    Observed P i ann ann stage where
  le := le_rfl
  during h := by unfold evenUp at h; omega
  after h := by unfold evenUp at h; omega

theorem mono (h : Observed P i saved ann stage) (hPQ : ∀ u, P u → Q u) :
    Observed Q i saved ann stage where
  le := h.le
  during ha j hj u hu := hPQ u (h.during ha j hj u hu)
  after ha u := hPQ u (h.after ha u)

/-- The observed thread begins a round. -/
theorem begin (h : Observed P i saved ann .out) (hc : Counts ann .out) :
    Observed P i saved (ann + 1) .prep where
  le := Nat.le_succ_of_le h.le
  during _ j hj := by cases hj
  after ha := by
    have hpar : ann % 2 ≠ 1 := fun ho => hc.mp ho rfl
    -- both sides are even, so the increment alone cannot have closed the gap
    exact h.after (by unfold evenUp at ha ⊢; omega)

/-- The observed thread has served itself and starts to signal. -/
theorem prepared (h : Observed P i saved ann .prep) (hi : P i) :
    Observed P i saved ann (.reach 0) where
  le := h.le
  during _ j hj u hu := by
    cases hj
    rcases hu with rfl | hu
    · exact hi
    · exact absurd hu (Nat.not_lt_zero _)
  after := h.after

/-- The observed thread signals thread `v`. -/
theorem signal {v : Fin n} (h : Observed P i saved ann (.reach v)) (hv : v = i ∨ P v) :
    Observed P i saved ann (.reach (v + 1)) where
  le := h.le
  during ha j hj u hu := by
    cases hj
    rcases hu with rfl | hu
    · exact h.during ha _ rfl _ (.inl rfl)
    · rcases Nat.lt_succ_iff_lt_or_eq.mp hu with hlt | heq
      · exact h.during ha _ rfl u (.inr hlt)
      · obtain rfl : u = v := Fin.ext heq
        exact hv.elim (fun hi => h.during ha _ rfl u (.inl hi)) id
  after := h.after

/-- The observed thread has signalled everybody and ends its round. -/
theorem finish (h : Observed P i saved ann (.reach n)) (hc : Counts ann (.reach n)) :
    Observed P i saved (ann + 1) .out where
  le := Nat.le_succ_of_le h.le
  during _ j hj := by cases hj
  after ha u := by
    have hpar : ann % 2 = 1 := hc.mpr (by simp)
    by_cases hround : evenUp saved + 2 ≤ ann
    · exact h.after hround u
    · -- the round that ends is the first one begun after the observation
      have hle := h.le
      exact h.during (by unfold evenUp at ha hround ⊢; omega) n rfl u (.inr u.isLt)

/-- **What a difference proves.** A counter that has passed the even value following
the saved one by two: a whole round lies after the observation. -/
theorem served (h : Observed P i saved ann stage) (ha : evenUp saved + 2 ≤ ann) (u : Fin n) :
    P u :=
  h.after ha u

end Observed

/-- What a step does to the counter and the progress of thread `i`, which begins its round with the
first signal (`begin`) or has something to do before (`prepare`). `P` holds of those signalled, and of
the thread itself when it begins to signal. -/
inductive Stage.Step {n : ℕ} (P : Fin n → Prop) (i : Fin n) : ℕ → Stage → ℕ → Stage → Prop
  | stay (ann : ℕ) (stage : Stage) : Stage.Step P i ann stage ann stage
  | begin (ann : ℕ) (hi : P i) : Stage.Step P i ann .out (ann + 1) (.reach 0)
  | prepare (ann : ℕ) : Stage.Step P i ann .out (ann + 1) .prep
  | prepared (ann : ℕ) (hi : P i) : Stage.Step P i ann .prep ann (.reach 0)
  | signal (ann : ℕ) (v : Fin n) (hv : v = i ∨ P v) :
      Stage.Step P i ann (.reach v) ann (.reach (v + 1))
  | finish (ann : ℕ) : Stage.Step P i ann (.reach n) (ann + 1) .out

theorem Stage.Step.mono {n : ℕ} {P Q : Fin n → Prop} {i : Fin n} {ann ann' : ℕ}
    {stage stage' : Stage} (h : Stage.Step P i ann stage ann' stage') (hPQ : ∀ u, P u → Q u) :
    Stage.Step Q i ann stage ann' stage' := by
  cases h with
  | stay => exact .stay ..
  | begin hi => exact .begin _ (hPQ i hi)
  | prepare => exact .prepare _
  | prepared hi => exact .prepared _ (hPQ i hi)
  | signal v hv => exact .signal _ v (hv.imp id (hPQ v))
  | finish => exact .finish _

namespace Counts

variable {ann : ℕ}

theorem begin {stage : Stage} (h : Counts ann .out) (hs : stage ≠ .out) :
    Counts (ann + 1) stage := by
  have hpar : ann % 2 ≠ 1 := fun ho => h.mp ho rfl
  exact ⟨fun _ => hs, fun _ => by omega⟩

theorem advance {stage stage' : Stage} (h : Counts ann stage) (hs : stage ≠ .out)
    (hs' : stage' ≠ .out) : Counts ann stage' :=
  ⟨fun _ => hs', fun _ => h.mpr hs⟩

theorem finish {stage : Stage} (h : Counts ann stage) (hs : stage ≠ .out) :
    Counts (ann + 1) .out := by
  have hpar : ann % 2 = 1 := h.mpr hs
  exact ⟨fun ho => by omega, fun hne => absurd rfl hne⟩

theorem step {n : ℕ} {P : Fin n → Prop} {i : Fin n} {ann' : ℕ} {stage stage' : Stage}
    (h : Counts ann stage) (hstep : Stage.Step P i ann stage ann' stage') :
    Counts ann' stage' := by
  cases hstep with
  | stay => exact h
  | begin hi => exact h.begin (by simp)
  | prepare => exact h.begin (by simp)
  | prepared hi => exact h.advance (by simp) (by simp)
  | signal v hv => exact h.advance (by simp) (by simp)
  | finish => exact h.finish (by simp)

end Counts

/-- **Observing a round.** Every step keeps what the observer knows. -/
theorem Observed.step {n : ℕ} {P Q : Fin n → Prop} {i : Fin n} {saved ann ann' : ℕ}
    {stage stage' : Stage} (h : Observed P i saved ann stage) (hc : Counts ann stage)
    (hstep : Stage.Step Q i ann stage ann' stage') (hPQ : ∀ u, P u → Q u) :
    Observed Q i saved ann' stage' := by
  have hmono := h.mono hPQ
  cases hstep with
  | stay => exact hmono
  | begin hi => exact (hmono.begin hc).prepared hi
  | prepare => exact hmono.begin hc
  | prepared hi => exact hmono.prepared hi
  | signal v hv => exact hmono.signal hv
  | finish => exact hmono.finish hc

/-! ### Counters of 32 bits

The code's counters wrap around; the bookkeeping counts on. -/

section Width

open Function

variable {ι κ : Type*} [DecidableEq ι] [DecidableEq κ]

/-- Incrementing one of several counters. -/
theorem BitVec.update_ofNat {c : ι → BitVec 32} {m : ι → ℕ}
    (h : ∀ u, c u = BitVec.ofNat 32 (m u)) (t u : ι) :
    update c t (c t + 1) u = BitVec.ofNat 32 (update m t (m t + 1) u) := by
  by_cases hu : u = t
  · subst hu
    rw [update_self, update_self, h u, BitVec.ofNat_add]
    rfl
  · rw [update_of_ne hu, update_of_ne hu, h u]

/-- Saving the value of a counter. -/
theorem BitVec.update₂_ofNat {c : ι → κ → BitVec 32} {m : ι → κ → ℕ}
    (h : ∀ t u, c t u = BitVec.ofNat 32 (m t u)) {t : ι} {i : κ} {x : BitVec 32} {y : ℕ}
    (hxy : x = BitVec.ofNat 32 y) (t' : ι) (u : κ) :
    update c t (update (c t) i x) t' u =
      BitVec.ofNat 32 (update m t (update (m t) i y) t' u) := by
  by_cases ht : t' = t
  · subst ht
    rw [update_self, update_self]
    by_cases hu : u = i
    · subst hu
      rw [update_self, update_self, hxy]
    · rw [update_of_ne hu, update_of_ne hu, h]
  · rw [update_of_ne ht, update_of_ne ht, h]

/-- Saving the value of a counter that only grows. -/
theorem update₂_le {m : ι → κ → ℕ} {b b' : κ → ℕ} (h : ∀ t u, m t u ≤ b u)
    (hb : ∀ u, b u ≤ b' u) (t : ι) (i : κ) (t' : ι) (u : κ) :
    update m t (update (m t) i (b i)) t' u ≤ b' u := by
  refine le_trans ?_ (hb u)
  by_cases ht : t' = t
  · subst ht
    rw [update_self]
    by_cases hu : u = i
    · subst hu
      rw [update_self]
    · rw [update_of_ne hu]
      exact h t' u
  · rw [update_of_ne ht]
    exact h t' u

/-- A whole round seen in the counters of 32 bits is one of the unbounded ones. -/
theorem evenUp_of_ofNat {a b : ℕ} (hle : a ≤ b)
    (h : evenUp (BitVec.ofNat 32 a).toNat + 2 ≤ (BitVec.ofNat 32 b).toNat) :
    evenUp a + 2 ≤ b := by
  rw [BitVec.toNat_ofNat, BitVec.toNat_ofNat] at h
  unfold evenUp at h ⊢
  omega

end Width

import PopSetbench.Library.Run
import Mathlib.Logic.Function.Basic

/-!
# Rules on what each thread does, in which order

A rule on the sequence of events of a thread is given by a monitor: a state for what has been seen
so far and a partial function that says which event may come next. `Lts.monitored` runs a
transition system with one monitor for each thread, which is `none` from the first event on that
was not allowed. `Lts.ReachableBy.monitored_rel` is how one shows that a thread does not break the
rule: by relating the state of its monitor to where the thread is. In `Lts.ReachableBy.monitored`
it can be read off from there.
-/

open Function

namespace Lts

variable {σ ι ε μ : Type*} [DecidableEq ι]

/-- `M`, with a monitor for each thread. -/
def monitored (M : Lts σ (ι × ε)) (next : μ → ε → Option μ) (start : μ) :
    Lts (σ × (ι → Option μ)) (ι × ε) where
  init x := M.init x.1 ∧ ∀ t, x.2 t = some start
  step x a y := M.step x.1 a y.1 ∧
    y.2 = update x.2 a.1 ((x.2 a.1).bind fun m => next m a.2)

variable {M : Lts σ (ι × ε)} {next : μ → ε → Option μ} {start : μ} {p : σ → ι × ε → Prop}

/-- A run with monitors is a run. -/
theorem ReachableBy.of_monitored {x : σ × (ι → Option μ)}
    (h : (M.monitored next start).ReachableBy (fun x a => p x.1 a) x) :
    M.ReachableBy p x.1 := by
  induction h with
  | init hi => exact .init hi.1
  | step _ hs hok ih => exact ih.step hs.1 hok

/-- A run with monitors goes on with a step. -/
theorem ReachableBy.step_monitored {s s' : σ} {m : ι → Option μ} {a : ι × ε}
    {ok : σ × (ι → Option μ) → ι × ε → Prop}
    (h : (M.monitored next start).ReachableBy ok (s, m)) (hs : M.step s a s')
    (hok : ok (s, m) a) : (M.monitored next start).ReachableBy ok
      (s', update m a.1 ((m a.1).bind fun b => next b a.2)) :=
  h.step (a := a) ⟨hs, rfl⟩ hok

theorem Reachable.step_monitored {s s' : σ} {m : ι → Option μ} {a : ι × ε}
    (h : (M.monitored next start).Reachable (s, m)) (hs : M.step s a s') :
    (M.monitored next start).Reachable
      (s', update m a.1 ((m a.1).bind fun b => next b a.2)) :=
  ReachableBy.step_monitored h hs trivial

/-- **Simulation by the monitor of a thread.** Where the thread is related to the state of its
monitor and the monitor follows the allowed steps of the thread, the monitor does not fail. -/
theorem ReachableBy.monitored_rel {R : σ → μ → Prop} {t : ι} (hinit : ∀ s, M.init s → R s start)
    (hself : ∀ s e s' m, M.ReachableBy p s → M.step s (t, e) s' → p s (t, e) → R s m →
      ∃ m', next m e = some m' ∧ R s' m')
    (hother : ∀ s q e s' m, M.step s (q, e) s' → t ≠ q → R s m → R s' m)
    {x : σ × (ι → Option μ)}
    (h : (M.monitored next start).ReachableBy (fun x a => p x.1 a) x) :
    ∃ m, x.2 t = some m ∧ R x.1 m := by
  refine h.invariant (P := fun x => ∃ m, x.2 t = some m ∧ R x.1 m) ?_ ?_
  · rintro x ⟨hi, hx⟩
    exact ⟨start, hx t, hinit _ hi⟩
  · rintro x ⟨q, e⟩ y hr ⟨m, hm, hR⟩ hok ⟨hs, hy⟩
    rw [hy]
    by_cases ht : t = q
    · subst ht
      rw [update_self, hm]
      exact hself _ _ _ _ hr.of_monitored hs hok hR
    · rw [update_of_ne ht]
      exact ⟨m, hm, hother _ _ _ _ _ hs ht hR⟩

/-- Simulation where the state of the monitor can be read off from each thread. -/
theorem ReachableBy.monitored {v : σ → ι → μ} (hinit : ∀ s, M.init s → ∀ t, v s t = start)
    (hself : ∀ s t e s', M.ReachableBy p s → M.step s (t, e) s' → p s (t, e) →
      next (v s t) e = some (v s' t))
    (hother : ∀ s t e s', M.step s (t, e) s' → ∀ q, q ≠ t → v s' q = v s q)
    {x : σ × (ι → Option μ)}
    (h : (M.monitored next start).ReachableBy (fun x a => p x.1 a) x) (t : ι) :
    x.2 t = some (v x.1 t) := by
  obtain ⟨m, hm, hv⟩ := h.monitored_rel (t := t) (R := fun s m => m = v s t)
    (fun s hi => (hinit s hi t).symm)
    (fun s e s' m hr hs hok hm => ⟨_, hm ▸ hself s t e s' hr hs hok, rfl⟩)
    (fun s q e s' m hs hq hm => hm.trans (hother s q e s' hs t hq).symm)
  rw [hm, hv]

end Lts

import Mathlib.Logic.Relation

/-!
# Runs of a transition system

Every concurrent component of this development is a transition system: a set of
initial states and a relation of atomic steps, each step labelled by whoever takes
it. This file holds what all of them share.

* `Lts.Reachable M s` — some run of `M` ends in `s`.
* `Lts.ReachableBy M ok s` — some run of `M` *all of whose steps meet `ok`* ends in
  `s`; `ok` is read in the state before the step. This is the form a conditional
  safety result takes: "in every run whose steps all meet the condition".
* `Lts.Path M s as s'` — the steps labelled `as` lead from `s` to `s'`. Concrete
  schedules are built from paths, one piece at a time.

`ReachableBy.invariant` packages the induction over runs once: an initial
invariant that every allowed step keeps holds in every reached state.
-/

/-- A labelled transition system. -/
structure Lts (σ α : Type*) where
  /-- The states a run may start from. -/
  init : σ → Prop
  /-- The atomic steps. -/
  step : σ → α → σ → Prop

namespace Lts

variable {σ α : Type*} {M : Lts σ α} {ok : σ → α → Prop}

/-- The states reached by the runs all of whose steps meet `ok`. -/
inductive ReachableBy (M : Lts σ α) (ok : σ → α → Prop) : σ → Prop
  | init {s : σ} : M.init s → ReachableBy M ok s
  | step {s s' : σ} {a : α} :
      ReachableBy M ok s → M.step s a s' → ok s a → ReachableBy M ok s'

/-- The reachable states: every step is allowed. -/
def Reachable (M : Lts σ α) : σ → Prop :=
  ReachableBy M fun _ _ => True

/-- The steps labelled `as` lead from the first state to the second. -/
inductive Path (M : Lts σ α) : σ → List α → σ → Prop
  | nil {s : σ} : Path M s [] s
  | cons {s s' s'' : σ} {a : α} {as : List α} :
      M.step s a s' → Path M s' as s'' → Path M s (a :: as) s''

/-- **Invariant rule.** What holds initially and is kept by every allowed step
holds in every state reached by allowed steps. The step obligation may use that
the state before the step is itself reached. -/
theorem ReachableBy.invariant {P : σ → Prop} (hinit : ∀ s, M.init s → P s)
    (hstep : ∀ s a s', ReachableBy M ok s → P s → ok s a → M.step s a s' → P s')
    {s : σ} (h : ReachableBy M ok s) : P s := by
  induction h with
  | init hi => exact hinit _ hi
  | step hr hs hok ih => exact hstep _ _ _ hr ih hok hs

/-- Weakening the condition on steps only adds runs. -/
theorem ReachableBy.mono {ok' : σ → α → Prop} (hok : ∀ s a, ok s a → ok' s a)
    {s : σ} (h : ReachableBy M ok s) : ReachableBy M ok' s := by
  induction h with
  | init hi => exact .init hi
  | step _ hs ha ih => exact .step ih hs (hok _ _ ha)

theorem ReachableBy.reachable {s : σ} (h : ReachableBy M ok s) : M.Reachable s :=
  h.mono fun _ _ _ => trivial

theorem Reachable.init {s : σ} (h : M.init s) : M.Reachable s :=
  ReachableBy.init h

theorem Reachable.step {s s' : σ} {a : α} (h : M.Reachable s) (hs : M.step s a s') :
    M.Reachable s' :=
  ReachableBy.step h hs trivial

/-- A path goes on with one more step. -/
theorem Path.snoc {s s' s'' : σ} {as : List α} {a : α} (h : M.Path s as s')
    (hs : M.step s' a s'') : M.Path s (as ++ [a]) s'' := by
  induction h with
  | nil => exact .cons hs .nil
  | cons hs' _ ih => exact .cons hs' (ih hs)

/-- The last step of a path. -/
theorem Path.of_snoc {s s' : σ} {as : List α} {a : α} (h : M.Path s (as ++ [a]) s') :
    ∃ m, M.Path s as m ∧ M.step m a s' := by
  induction as generalizing s with
  | nil =>
    obtain _ | ⟨hs, hp⟩ := h
    cases hp
    exact ⟨s, .nil, hs⟩
  | cons b as ih =>
    obtain _ | ⟨hs, hp⟩ := h
    obtain ⟨m, hm, hlast⟩ := ih hp
    exact ⟨m, .cons hs hm, hlast⟩

/-- A path from a reachable state ends in a reachable state. -/
theorem Reachable.path {s s' : σ} {as : List α} (h : M.Reachable s) (hp : M.Path s as s') :
    M.Reachable s' := by
  induction hp with
  | nil => exact h
  | cons hs _ ih => exact ih (h.step hs)

end Lts

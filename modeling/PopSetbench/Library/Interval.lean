import PopSetbench.Library.Run
import Mathlib.Data.List.Basic

/-!
# What happened during an operation

A result of an operation is explained by a moment of the interval between its invocation and its
return. `Lts.since M starts` runs `M` and carries along the steps taken since the last one that
`starts` accepts, newest first; with `starts` the invocations of one thread these are the steps of
the interval of its operation so far.

`Lts.logged M next start` carries a record along that every step adds to, and
`Lts.observed M next start` one that may depend on the state the step leads to.

* `Sometime P H` — one of the states reached in the interval satisfies `P`;
* `Atomically Q H` — one of the steps of the interval is a `Q`.
-/

namespace Lts

variable {σ α : Type*} {M : Lts σ α} {starts : α → Bool}

/-- `M`, with the steps taken since the last one that `starts`. -/
def since (M : Lts σ α) (starts : α → Bool) : Lts (σ × List (σ × α × σ)) α where
  init x := M.init x.1 ∧ x.2 = []
  step x a y := M.step x.1 a y.1 ∧
    y.2 = (x.1, a, y.1) :: bif starts a then [] else x.2

/-- What is reached with its recent past by allowed steps is reached by them. -/
theorem ReachableBy.of_since {ok : σ → α → Prop} {x : σ × List (σ × α × σ)}
    (h : (M.since starts).ReachableBy (fun x a => ok x.1 a) x) : M.ReachableBy ok x.1 := by
  refine h.invariant (P := fun x => M.ReachableBy ok x.1) ?_ ?_
  · intro x hx
    exact .init hx.1
  · intro x a y _ ih hok hs
    exact ih.step hs.1 hok

/-- What is reached with its recent past is reached. -/
theorem Reachable.of_since {x : σ × List (σ × α × σ)} (h : (M.since starts).Reachable x) :
    M.Reachable x.1 :=
  ReachableBy.of_since h

/-- The states of the recent past were reached. -/
theorem ReachableBy.of_mem_since {ok : σ → α → Prop} {x : σ × List (σ × α × σ)}
    {e : σ × α × σ} (h : (M.since starts).ReachableBy (fun x a => ok x.1 a) x) (he : e ∈ x.2) :
    M.ReachableBy ok e.2.2 := by
  refine h.invariant (P := fun x => ∀ e ∈ x.2, M.ReachableBy ok e.2.2) ?_ ?_ e he
  · rintro x ⟨-, hx⟩ e he
    rw [hx] at he
    cases he
  · rintro x a y hr ih hok ⟨hs, hy⟩ e he
    rw [hy] at he
    obtain rfl | he := List.mem_cons.mp he
    · exact hr.of_since.step hs hok
    · cases hst : starts a with
      | true =>
        rw [hst] at he
        cases he
      | false =>
        rw [hst] at he
        exact ih e he

/-- Every run can be carried along with its recent past. -/
theorem ReachableBy.exists_since {ok : σ → α → Prop} {s : σ} (h : M.ReachableBy ok s) :
    ∃ H, (M.since starts).ReachableBy (fun x a => ok x.1 a) (s, H) := by
  refine h.invariant
    (P := fun s => ∃ H, (M.since starts).ReachableBy (fun x a => ok x.1 a) (s, H)) ?_ ?_
  · intro s hs
    exact ⟨[], .init ⟨hs, rfl⟩⟩
  · rintro s a s' _ ⟨H, hH⟩ hok hs
    refine ⟨(s, a, s') :: bif starts a then [] else H, hH.step (a := a) ?_ hok⟩
    exact ⟨hs, rfl⟩

theorem Reachable.exists_since {s : σ} (h : M.Reachable s) :
    ∃ H, (M.since starts).Reachable (s, H) :=
  ReachableBy.exists_since h

variable {γ : Type*} {next : σ → α → γ → γ} {start : γ}

/-- `M`, with a record that every step adds to. -/
def logged (M : Lts σ α) (next : σ → α → γ → γ) (start : γ) : Lts (σ × γ) α where
  init x := M.init x.1 ∧ x.2 = start
  step x a y := M.step x.1 a y.1 ∧ y.2 = next x.1 a x.2

/-- What is reached with its record is reached. -/
theorem ReachableBy.of_logged {ok : σ × γ → α → Prop} {x : σ × γ}
    (h : (M.logged next start).ReachableBy ok x) : M.Reachable x.1 := by
  refine h.invariant (P := fun x => M.Reachable x.1) ?_ ?_
  · intro x hx
    exact .init hx.1
  · intro x a y _ ih _ hs
    exact ih.step hs.1

/-- Every run can be carried along with its record. -/
theorem ReachableBy.exists_logged {ok : σ → α → Prop} {s : σ} (h : M.ReachableBy ok s) :
    ∃ g, (M.logged next start).ReachableBy (fun x a => ok x.1 a) (s, g) := by
  refine h.invariant
    (P := fun s => ∃ g, (M.logged next start).ReachableBy (fun x a => ok x.1 a) (s, g)) ?_ ?_
  · intro s hs
    exact ⟨start, .init ⟨hs, rfl⟩⟩
  · rintro s a s' _ ⟨g, hg⟩ hok hs
    refine ⟨next s a g, hg.step (a := a) ?_ hok⟩
    exact ⟨hs, rfl⟩

/-- A run with its record goes on with a step. -/
theorem ReachableBy.step_logged {ok : σ × γ → α → Prop} {s s' : σ} {g : γ} {a : α}
    (h : (M.logged next start).ReachableBy ok (s, g)) (hs : M.step s a s') (hok : ok (s, g) a) :
    (M.logged next start).ReachableBy ok (s', next s a g) :=
  h.step (a := a) ⟨hs, rfl⟩ hok

variable {note : σ → α → σ → γ → γ}

/-- `M`, with a record that every step adds to, which may depend on where it leads. -/
def observed (M : Lts σ α) (note : σ → α → σ → γ → γ) (start : γ) : Lts (σ × γ) α where
  init x := M.init x.1 ∧ x.2 = start
  step x a y := M.step x.1 a y.1 ∧ y.2 = note x.1 a y.1 x.2

/-- What is reached with its record is reached. -/
theorem ReachableBy.of_observed {ok : σ → α → Prop} {x : σ × γ}
    (h : (M.observed note start).ReachableBy (fun x a => ok x.1 a) x) : M.ReachableBy ok x.1 := by
  refine h.invariant (P := fun x => M.ReachableBy ok x.1) ?_ ?_
  · intro x hx
    exact .init hx.1
  · intro x a y _ ih hok hs
    exact ih.step hs.1 hok

/-- Every run can be carried along with its record. -/
theorem ReachableBy.exists_observed {ok : σ → α → Prop} {s : σ} (h : M.ReachableBy ok s) :
    ∃ g, (M.observed note start).ReachableBy (fun x a => ok x.1 a) (s, g) := by
  refine h.invariant
    (P := fun s => ∃ g, (M.observed note start).ReachableBy (fun x a => ok x.1 a) (s, g)) ?_ ?_
  · intro s hs
    exact ⟨start, .init ⟨hs, rfl⟩⟩
  · rintro s a s' _ ⟨g, hg⟩ hok hs
    refine ⟨note s a s' g, hg.step (a := a) ?_ hok⟩
    exact ⟨hs, rfl⟩

/-- A run with its record goes on with a step. -/
theorem ReachableBy.step_observed {ok : σ × γ → α → Prop} {s s' : σ} {g : γ} {a : α}
    (h : (M.observed note start).ReachableBy ok (s, g)) (hs : M.step s a s') (hok : ok (s, g) a) :
    (M.observed note start).ReachableBy ok (s', note s a s' g) :=
  h.step (a := a) ⟨hs, rfl⟩ hok

end Lts

section Moments

variable {σ α : Type*} {P P' : σ → Prop} {Q : σ → α → σ → Prop} {H : List (σ × α × σ)}
  {e : σ × α × σ} {s s' : σ} {a : α}

/-- Some state reached in the interval satisfies `P`. -/
def Sometime (P : σ → Prop) (H : List (σ × α × σ)) : Prop :=
  ∃ e ∈ H, P e.2.2

/-- Some step of the interval is a `Q`. -/
def Atomically (Q : σ → α → σ → Prop) (H : List (σ × α × σ)) : Prop :=
  ∃ e ∈ H, Q e.1 e.2.1 e.2.2

theorem Sometime.now (h : P s') : Sometime P ((s, a, s') :: H) :=
  ⟨_, List.mem_cons_self, h⟩

theorem Sometime.cons (h : Sometime P H) : Sometime P (e :: H) := by
  obtain ⟨e', he', hP⟩ := h
  exact ⟨e', List.mem_cons_of_mem _ he', hP⟩

theorem Sometime.mono (hP : ∀ s, P s → P' s) (h : Sometime P H) : Sometime P' H := by
  obtain ⟨e', he', h⟩ := h
  exact ⟨e', he', hP _ h⟩

theorem Atomically.cons (h : Atomically Q H) : Atomically Q (e :: H) := by
  obtain ⟨e', he', hQ⟩ := h
  exact ⟨e', List.mem_cons_of_mem _ he', hQ⟩

end Moments

import PopSetbench.Library.Interval
import Mathlib.Data.Finset.Insert
import Mathlib.Logic.Function.Basic

/-!
# Linearizable objects

A sequential specification says what a call does to a state and what it returns. `SeqObject.atomic`
is the object that threads may call at the same time and that does each call at one moment between
its invocation and its return. An implementation is *linearizable* if every history of invocations
and returns that one of its runs shows is also shown by a run of the atomic object.

`Linearization` collects what has to be known of an implementation: each call that changes the state
does so in one step of its own, and the result of any other call is the right one at some moment of
its interval. When such a result is returned this moment has passed; the run of the atomic object is
therefore found for all choices of which pending calls have been answered already
(`Linearization.run`), and a return only says which choice is the one to look at.

* `Linearization.linearizable` — the main result;
* `SeqObject.answers_of_sequential` — in a history in which the calls come one after the other, each
  returns what the specification says.
-/

open Function

/-- An object with a sequential specification. -/
structure SeqObject (S I R : Type*) where
  /-- The state before all calls. -/
  init : S
  /-- What a call does to the state, and what it returns. -/
  apply : S → I → S × R

/-- What is seen of a call from outside. -/
inductive CallEvent (ι I R : Type*)
  /-- Thread `t` calls. -/
  | invoke (t : ι) (i : I)
  /-- The call of thread `t` returns. -/
  | ret (t : ι) (i : I) (r : R)
  deriving DecidableEq

namespace Lts

variable {σ α γ ι : Type*}

/-- `M`, with what is seen of its steps, the last event first. -/
def history (M : Lts σ α) (see : α → Option γ) : Lts (σ × List γ) α :=
  M.logged (fun _ a h => (see a).toList ++ h) []

/-- `M`, with what is seen of its steps and the interval of each thread. -/
def recorded (M : Lts σ α) (see : α → Option γ) (starts : ι → α → Bool) :
    Lts (σ × List γ × (ι → List (σ × α × σ))) α :=
  M.observed (fun s a s' g => ((see a).toList ++ g.1,
    fun t => (s, a, s') :: bif starts t a then [] else g.2 t)) ([], fun _ => [])

variable {M : Lts σ α} {ok : σ → α → Prop} {see : α → Option γ} {starts : ι → α → Bool}

/-- Every run that shows a history can be carried along with the intervals. -/
theorem ReachableBy.exists_recorded {s : σ} {h : List γ} (starts : ι → α → Bool)
    (hr : (M.history see).ReachableBy (fun x a => ok x.1 a) (s, h)) :
    ∃ H, (M.recorded see starts).ReachableBy (fun x a => ok x.1 a) (s, h, H) := by
  refine hr.invariant (P := fun x =>
    ∃ H, (M.recorded see starts).ReachableBy (fun x a => ok x.1 a) (x.1, x.2, H)) ?_ ?_
  · rintro ⟨s, h⟩ ⟨hs, rfl⟩
    exact ⟨_, .init ⟨hs, rfl⟩⟩
  · rintro ⟨s, h⟩ a ⟨s', h'⟩ - ⟨H, hH⟩ hok ⟨hs, rfl⟩
    exact ⟨_, hH.step_observed hs hok⟩

/-- The interval of one thread. -/
theorem ReachableBy.since_of_recorded {s : σ} {h : List γ} {H : ι → List (σ × α × σ)} (t : ι)
    (hr : (M.recorded see starts).ReachableBy (fun x a => ok x.1 a) (s, h, H)) :
    (M.since (starts t)).ReachableBy (fun x a => ok x.1 a) (s, H t) := by
  refine hr.invariant (P := fun x =>
    (M.since (starts t)).ReachableBy (fun x a => ok x.1 a) (x.1, x.2.2 t)) ?_ ?_
  · rintro ⟨s, g⟩ ⟨hs, rfl⟩
    exact .init ⟨hs, rfl⟩
  · rintro ⟨s, g⟩ a ⟨s', g'⟩ - ih hok ⟨hs, hg⟩
    refine ih.step (a := a) ⟨hs, ?_⟩ hok
    rw [hg]

end Lts

namespace SeqObject

variable {S ι I R : Type*}

/-- How far the call of a thread is. -/
inductive Status (I R : Type*)
  /-- There is none. -/
  | idle
  /-- It has been invoked. -/
  | called (i : I)
  /-- It has taken effect. -/
  | done (i : I) (r : R)

/-- The state of the object, and of the calls. -/
structure State (S ι I R : Type*) where
  /-- The state of the object. -/
  value : S
  /-- How far each call is. -/
  status : ι → Status I R

/-- The steps of the atomic object. -/
inductive Step [DecidableEq ι] (O : SeqObject S I R) (y : State S ι I R) :
    Option (CallEvent ι I R) → State S ι I R → Prop
  /-- Thread `t` calls. -/
  | invoke (t : ι) (i : I) (h : y.status t = .idle) :
      Step O y (some (.invoke t i)) ⟨y.value, update y.status t (.called i)⟩
  /-- The call of thread `t` takes effect. -/
  | effect (t : ι) (i : I) (h : y.status t = .called i) :
      Step O y none
        ⟨(O.apply y.value i).1, update y.status t (.done i (O.apply y.value i).2)⟩
  /-- The call of thread `t` returns. -/
  | ret (t : ι) (i : I) (r : R) (h : y.status t = .done i r) :
      Step O y (some (.ret t i r)) ⟨y.value, update y.status t .idle⟩

/-- The atomic object, called by the threads `ι`. -/
def atomic [DecidableEq ι] (O : SeqObject S I R) :
    Lts (State S ι I R) (Option (CallEvent ι I R)) where
  init y := y.value = O.init ∧ ∀ t, y.status t = .idle
  step y e y' := Step O y e y'

/-- A run of the atomic object ends in `y` and shows the history `h`, the last event first. -/
def Shows [DecidableEq ι] (O : SeqObject S I R) (y : State S ι I R)
    (h : List (CallEvent ι I R)) : Prop :=
  (O.atomic.history id).Reachable (y, h)

section

variable [DecidableEq ι] {O : SeqObject S I R} {m m' : S} {c c' : ι → Status I R}
  {h : List (CallEvent ι I R)} {t : ι} {i : I} {r : R}

theorem Shows.invoke (hs : O.Shows ⟨m, c⟩ h) (hc : c t = .idle) :
    O.Shows ⟨m, update c t (.called i)⟩ (.invoke t i :: h) :=
  Lts.ReachableBy.step_logged hs (Step.invoke t i hc) trivial

theorem Shows.ret (hs : O.Shows ⟨m, c⟩ h) (hc : c t = .done i r) :
    O.Shows ⟨m, update c t .idle⟩ (.ret t i r :: h) :=
  Lts.ReachableBy.step_logged hs (Step.ret t i r hc) trivial

theorem Shows.effect (hs : O.Shows ⟨m, c⟩ h) (hc : c t = .called i)
    (ha : O.apply m i = (m', r)) : O.Shows ⟨m', update c t (.done i r)⟩ h := by
  have hstep := Lts.ReachableBy.step_logged hs (Step.effect t i hc) trivial
  simp only [ha] at hstep
  exact hstep

/-- Calls that leave the state as it is may take effect at the same moment. -/
theorem Shows.reads (F : Finset ι) (hs : O.Shows ⟨m, c⟩ h)
    (hF : ∀ q, c' q = c q ∨
      q ∈ F ∧ ∃ i r, c q = .called i ∧ c' q = .done i r ∧ O.apply m i = (m, r)) :
    O.Shows ⟨m, c'⟩ h := by
  induction F using Finset.induction_on generalizing c' with
  | empty =>
    have heq : c' = c := funext fun q => (hF q).resolve_right (by simp)
    rwa [heq]
  | insert q F hq ih =>
    -- all of them but `q` first
    have hfirst : O.Shows ⟨m, update c' q (c q)⟩ h := by
      apply ih
      intro p
      by_cases hp : p = q
      · subst hp
        exact .inl (update_self ..)
      · rw [update_of_ne hp]
        refine (hF p).imp id fun ⟨hmem, hread⟩ => ⟨?_, hread⟩
        exact (Finset.mem_insert.mp hmem).resolve_left hp
    obtain heq | ⟨-, i, r, hc, hc', ha⟩ := hF q
    · rwa [← heq, update_eq_self] at hfirst
    · have hlast := hfirst.effect (t := q) ((update_self ..).trans hc) ha
      rwa [update_idem, ← hc', update_eq_self] at hlast

end

/-! ### Calls one after the other -/

/-- The history of calls that come one after the other, of both the last one first. -/
def sequential : List (ι × I × R) → List (CallEvent ι I R)
  | [] => []
  | (t, i, r) :: calls => .ret t i r :: .invoke t i :: sequential calls

/-- The state after these calls. -/
def after (O : SeqObject S I R) : List (ι × I × R) → S
  | [] => O.init
  | (_, i, _) :: calls => (O.apply (O.after calls) i).1

/-- Every one of these calls returned what the specification says. -/
def Answers (O : SeqObject S I R) : List (ι × I × R) → Prop
  | [] => True
  | (_, i, r) :: calls => (O.apply (O.after calls) i).2 = r ∧ O.Answers calls

section

variable [DecidableEq ι] {O : SeqObject S I R} {y : State S ι I R} {h : List (CallEvent ι I R)}

/-- What is known of the atomic object between two calls, and within one. -/
def Follows (O : SeqObject S I R) (y : State S ι I R) (h : List (CallEvent ι I R)) : Prop :=
  (∀ calls, h = sequential calls →
    O.Answers calls ∧ y.value = O.after calls ∧ ∀ t, y.status t = .idle) ∧
  ∀ t i calls, h = .invoke t i :: sequential calls → O.Answers calls ∧
    (∀ q, q ≠ t → y.status q = .idle) ∧
    (y.status t = .called i ∧ y.value = O.after calls ∨
      y.status t = .done i (O.apply (O.after calls) i).2 ∧
        y.value = (O.apply (O.after calls) i).1)

theorem Shows.follows (hs : O.Shows y h) : O.Follows y h := by
  refine Lts.ReachableBy.invariant (P := fun x => O.Follows x.1 x.2) ?_ ?_ hs
  · -- before the first call there is nothing to follow
    rintro ⟨y, h⟩ ⟨⟨hv, hidle⟩, rfl⟩
    refine ⟨fun calls hc => ?_, fun t i calls hc => by cases hc⟩
    cases calls with
    | nil => exact ⟨trivial, hv, hidle⟩
    | cons c calls => cases hc
  · -- a step of the object, for the events that are shown so far
    rintro ⟨y, h⟩ e ⟨y', h'⟩ - ⟨hbetween, hwithin⟩ - ⟨hstep, hh⟩
    have hstep : Step O y e y' := hstep
    obtain rfl : h' = (id e).toList ++ h := hh
    cases hstep with
    | invoke t i hidle =>
      refine ⟨fun calls hc => ?_, fun t' i' calls hc => ?_⟩
      · -- finished calls do not end with an `invoke`
        cases calls <;> cases hc
      · obtain ⟨heq, htail⟩ := List.cons.inj (show CallEvent.invoke t i :: h = _ from hc)
        obtain ⟨rfl, rfl⟩ := CallEvent.invoke.inj heq
        obtain ⟨hans, hv, hall⟩ := hbetween calls htail
        refine ⟨hans, fun q hq => ?_, .inl ⟨update_self .., hv⟩⟩
        show update y.status t (.called i) q = .idle
        rw [update_of_ne hq, hall q]
    | effect t i hcalled =>
      refine ⟨fun calls hc => ?_, fun t' i' calls hc => ?_⟩
      · -- between two calls nobody is in a call
        rw [(hbetween calls hc).2.2 t] at hcalled
        cases hcalled
      · obtain ⟨hans, hall, hnow⟩ := hwithin t' i' calls hc
        obtain rfl : t = t' := by
          by_contra hne
          rw [hall t hne] at hcalled
          cases hcalled
        refine ⟨hans, fun q hq => ?_, .inr ?_⟩
        · show update y.status t _ q = .idle
          rw [update_of_ne hq, hall q hq]
        · obtain ⟨hst, hv⟩ | ⟨hst, -⟩ := hnow
          · rw [hst] at hcalled
            obtain rfl := Status.called.inj hcalled
            exact ⟨(update_self ..).trans (by rw [hv]), by rw [hv]⟩
          · rw [hst] at hcalled
            cases hcalled
    | ret t i r hdone =>
      -- a return shows the answer that was given within the call
      refine ⟨fun calls hc => ?_, fun t' i' calls hc => by cases hc⟩
      cases calls with
      | nil => cases hc
      | cons c calls =>
        obtain ⟨t', i', r'⟩ := c
        obtain ⟨heq, htail⟩ := List.cons.inj (show CallEvent.ret t i r :: h = _ from hc)
        obtain ⟨rfl, rfl, rfl⟩ := CallEvent.ret.inj heq
        obtain ⟨hans, hall, hnow⟩ := hwithin t i calls htail
        obtain ⟨hst, -⟩ | ⟨hst, hv⟩ := hnow
        · rw [hst] at hdone
          cases hdone
        · rw [hst] at hdone
          obtain ⟨-, hr⟩ := Status.done.inj hdone
          refine ⟨⟨hr, hans⟩, hv, fun q => ?_⟩
          show update y.status t .idle q = .idle
          by_cases hq : q = t
          · subst hq
            exact update_self ..
          · rw [update_of_ne hq, hall q hq]

/-- **Calls one after the other return what the specification says.** -/
theorem answers_of_sequential {calls : List (ι × I × R)} (hs : O.Shows y (sequential calls)) :
    O.Answers calls :=
  (hs.follows.1 calls rfl).1

end

end SeqObject

/-! ### Linearizable implementations -/

section

variable {σ α S ι I R : Type*}

/-- The call of a thread that has not returned. -/
def pendingCall [DecidableEq ι] (t : ι) : List (CallEvent ι I R) → Option I
  | [] => none
  | .invoke q i :: h => if q = t then some i else pendingCall t h
  | .ret q _ _ :: h => if q = t then none else pendingCall t h

/-- **Linearizable**: the runs of `M` with steps that meet `ok` show only histories that the atomic
object shows. -/
def Lts.Linearizable [DecidableEq ι] (M : Lts σ α) (ok : σ → α → Prop)
    (see : α → Option (CallEvent ι I R)) (O : SeqObject S I R) : Prop :=
  ∀ s h, (M.history see).ReachableBy (fun x a => ok x.1 a) (s, h) → ∃ y, O.Shows y h

/-- How the calls of an implementation are read. -/
structure Reading (σ α S ι I R : Type*) where
  /-- What is seen of a step. -/
  see : α → Option (CallEvent ι I R)
  /-- The thread that steps. -/
  who : α → ι
  /-- The state of the object. -/
  value : σ → S
  /-- The call a thread is in. -/
  call : σ → ι → Option I
  /-- The result, once a step of the thread itself has settled it. -/
  effect : σ → ι → Option R

namespace Reading

variable (L : Reading σ α S ι I R) (O : SeqObject S I R)

/-- The invocations of a thread. -/
def Starts (starts : ι → α → Bool) : Prop :=
  ∀ t a, starts t a = true ↔ ∃ i, L.see a = some (.invoke t i)

/-- Where a call is that is not answered ahead of its return. -/
def status (s : σ) (t : ι) : SeqObject.Status I R :=
  match L.call s t, L.effect s t with
  | none, _ => .idle
  | some i, none => .called i
  | some i, some r => .done i r

/-- The call leaves the state as it is and returns `r`, at a moment of the interval. -/
def Read (H : List (σ × α × σ)) (i : I) (r : R) : Prop :=
  Sometime (fun s => O.apply (L.value s) i = (L.value s, r)) H

/-- The call of the thread has been answered ahead of its return. -/
def Early (s : σ) (H : List (σ × α × σ)) (t : ι) (x : SeqObject.Status I R) : Prop :=
  ∃ i r, x = .done i r ∧ L.status s t = .called i ∧ L.Read O H i r

end Reading

/-- What has to be known of an implementation. -/
structure Linearization (M : Lts σ α) (ok : σ → α → Prop) (L : Reading σ α S ι I R)
    (starts : ι → α → Bool) (O : SeqObject S I R) : Prop where
  starts_iff : L.Starts starts
  init : ∀ {s}, M.init s → L.value s = O.init ∧ ∀ t, L.call s t = none
  /-- A step concerns no other thread. -/
  frame : ∀ {s a s' t}, M.ReachableBy ok s → M.step s a s' → ok s a → t ≠ L.who a →
    L.call s' t = L.call s t ∧ L.effect s' t = L.effect s t
  invoke : ∀ {s a s' t i}, M.ReachableBy ok s → M.step s a s' → ok s a →
    L.see a = some (.invoke t i) → t = L.who a ∧ L.call s t = none ∧ L.call s' t = some i ∧
      L.effect s' t = none ∧ L.value s' = L.value s
  /-- A result was settled before, or it was the right one at a moment of the interval. -/
  ret : ∀ {s H a s' t i r}, (M.since (starts t)).ReachableBy (fun x a => ok x.1 a) (s, H) →
    M.step s a s' → ok s a → L.see a = some (.ret t i r) →
    t = L.who a ∧ L.call s t = some i ∧
      (L.effect s t = some r ∨ L.effect s t = none ∧ L.Read O H i r) ∧
      L.call s' t = none ∧ L.value s' = L.value s
  /-- A step in a call settles the result of the call or does not concern the object. -/
  inner : ∀ {s a s'}, M.ReachableBy ok s → M.step s a s' → ok s a → L.see a = none →
    L.call s' (L.who a) = L.call s (L.who a) ∧
      (L.effect s' (L.who a) = L.effect s (L.who a) ∧ L.value s' = L.value s ∨
        ∃ i r, L.call s (L.who a) = some i ∧ L.effect s (L.who a) = none ∧
          L.effect s' (L.who a) = some r ∧ O.apply (L.value s) i = (L.value s', r))

namespace Linearization

variable {M : Lts σ α} {ok : σ → α → Prop} {L : Reading σ α S ι I R} {starts : ι → α → Bool}
  {O : SeqObject S I R} {s s' : σ} {a : α} {t q : ι} {h : List (CallEvent ι I R)}
  {H : ι → List (σ × α × σ)}

/-- The interval of a thread that does not step goes on. -/
theorem starts_of_ne (l : Linearization M ok L starts O) (hr : M.ReachableBy ok s)
    (hs : M.step s a s') (hok : ok s a) (hq : q ≠ L.who a) : starts q a = false := by
  rw [Bool.eq_false_iff]
  intro hstart
  obtain ⟨i, hi⟩ := (l.starts_iff q a).mp hstart
  exact hq (l.invoke hr hs hok hi).1

/-- The interval of a thread goes on unless it calls. -/
theorem starts_of_see (l : Linearization M ok L starts O)
    (hsee : ∀ i, L.see a ≠ some (.invoke t i)) : starts t a = false := by
  rw [Bool.eq_false_iff]
  intro hstart
  obtain ⟨i, hi⟩ := (l.starts_iff t a).mp hstart
  exact hsee i hi

theorem status_congr (hc : L.call s' t = L.call s t) (he : L.effect s' t = L.effect s t) :
    L.status s' t = L.status s t := by
  unfold Reading.status
  rw [hc, he]

/-- A call that has been answered after the step was answered before it, or is answered now. -/
theorem early_cases {x : SeqObject.Status I R} {G : List (σ × α × σ)}
    (hst : L.status s' t = L.status s t) (h : L.Early O s' ((s, a, s') :: G) t x) :
    L.Early O s G t x ∨ ∃ i r, L.status s t = .called i ∧ x = .done i r ∧
      O.apply (L.value s') i = (L.value s', r) := by
  obtain ⟨i, r, rfl, hcalled, e, he, hread⟩ := h
  rw [hst] at hcalled
  obtain rfl | he := List.mem_cons.mp he
  · exact .inr ⟨i, r, hcalled, rfl, hread⟩
  · exact .inl ⟨i, r, rfl, hcalled, e, he, hread⟩

open Classical in
/-- What was answered ahead of its return before a step, given what is after it. -/
noncomputable def before (L : Reading σ α S ι I R) (O : SeqObject S I R) (s : σ)
    (H : ι → List (σ × α × σ)) (c' : ι → SeqObject.Status I R) (q : ι) :
    SeqObject.Status I R :=
  if L.Early O s (H q) q (c' q) then c' q else L.status s q

variable (L O) in
/-- Finitely many calls have been answered ahead of their returns. -/
def Ahead (F : Finset ι) (s : σ) (H : ι → List (σ × α × σ)) (c : ι → SeqObject.Status I R) :
    Prop :=
  ∀ q, c q = L.status s q ∨ q ∈ F ∧ L.Early O s (H q) q (c q)

theorem before_eq (q : ι) {c' : ι → SeqObject.Status I R} :
    before L O s H c' q = L.status s q ∨ L.Early O s (H q) q (before L O s H c' q) := by
  unfold before
  split_ifs with hearly
  · exact .inr hearly
  · exact .inl rfl

theorem not_early {G : List (σ × α × σ)} : ¬ L.Early O s G q (L.status s q) := by
  rintro ⟨i, r, hdone, hcalled, -⟩
  rw [hcalled] at hdone
  cases hdone

theorem before_natural {c' : ι → SeqObject.Status I R} (h : c' q = L.status s q) :
    before L O s H c' q = L.status s q := by
  unfold before
  split_ifs
  · exact h
  · rfl

/-- A call that the step does not concern takes effect before it, or now. -/
theorem before_cases {c' : ι → SeqObject.Status I R} (hst : L.status s' q = L.status s q)
    (hc : c' q = L.status s' q ∨ L.Early O s' ((s, a, s') :: H q) q (c' q)) :
    c' q = before L O s H c' q ∨ ∃ i r, before L O s H c' q = .called i ∧ c' q = .done i r ∧
      O.apply (L.value s') i = (L.value s', r) := by
  unfold before
  split_ifs with hearly
  · exact .inl rfl
  · obtain hc | hc := hc
    · exact .inl (hc.trans hst)
    · obtain hc | ⟨i, r, hcalled, hx, ha⟩ := early_cases hst hc
      · exact absurd hc hearly
      · exact .inr ⟨i, r, hcalled, hx, ha⟩

section

variable [DecidableEq ι]

/-- **One step.** The atomic object does what the thread does that steps, and then lets the calls
take effect that are answered now. -/
theorem follow (l : Linearization M ok L starts O) (hr : M.ReachableBy ok s) (hs : M.step s a s')
    (hok : ok s a) (ih : ∀ F c, Ahead L O F s H c → O.Shows ⟨L.value s, c⟩ h) {F : Finset ι}
    {c' : ι → SeqObject.Status I R}
    (hc' : Ahead L O F s' (fun q => (s, a, s') :: bif starts q a then [] else H q) c')
    {x y : SeqObject.Status I R} {e : List (CallEvent ι I R)}
    (hx : x = L.status s (L.who a) ∨ L.Early O s (H (L.who a)) (L.who a) x)
    (hstep : ∀ c, c (L.who a) = x → O.Shows ⟨L.value s, c⟩ h →
      O.Shows ⟨L.value s', update c (L.who a) y⟩ (e ++ h))
    (hy : c' (L.who a) = y ∨ ∃ i r, y = .called i ∧ c' (L.who a) = .done i r ∧
      O.apply (L.value s') i = (L.value s', r)) :
    O.Shows ⟨L.value s', c'⟩ (e ++ h) := by
  have hst : ∀ q, q ≠ L.who a → L.status s' q = L.status s q := fun q hq =>
    have ⟨hcall, heffect⟩ := l.frame hr hs hok hq
    status_congr hcall heffect
  -- the other threads were before the step where they are after it
  have hrest : ∀ q, q ≠ L.who a →
      c' q = L.status s' q ∨ q ∈ F ∧ L.Early O s' ((s, a, s') :: H q) q (c' q) := by
    intro q hq
    have h : _ ∨ _ ∧ L.Early O s' ((s, a, s') :: bif starts q a then [] else H q) q (c' q) := hc' q
    rw [l.starts_of_ne hr hs hok hq] at h
    exact h
  -- what holds before the step
  have hbefore : Ahead L O (insert (L.who a) F) s H
      (update (before L O s H c') (L.who a) x) := by
    intro q
    by_cases hq : q = L.who a
    · subst hq
      rw [update_self]
      exact hx.imp id fun h => ⟨Finset.mem_insert_self .., h⟩
    · rw [update_of_ne hq]
      refine (before_eq q).imp id fun h => ⟨Finset.mem_insert_of_mem ?_, h⟩
      obtain hnat | ⟨hmem, -⟩ := hrest q hq
      · rw [before_natural (hnat.trans (hst q hq))] at h
        exact absurd h not_early
      · exact hmem
  have hmid := hstep _ (update_self ..) (ih _ _ hbefore)
  rw [update_idem] at hmid
  -- the calls that are answered now
  refine hmid.reads (insert (L.who a) F) fun q => ?_
  by_cases hq : q = L.who a
  · subst hq
    rw [update_self]
    exact hy.imp id fun h => ⟨Finset.mem_insert_self .., h⟩
  · -- an answer that is given now was not given before
    rw [update_of_ne hq]
    by_cases hmem : q ∈ F
    · refine (before_cases (O := O) (H := H) (hst q hq) ((hrest q hq).imp id And.right)).imp id ?_
      exact fun h => ⟨Finset.mem_insert_of_mem hmem, h⟩
    · have hnat := (hrest q hq).resolve_right fun h => hmem h.1
      rw [before_natural (hnat.trans (hst q hq))]
      exact .inl (hnat.trans (hst q hq))

/-- **A run of the atomic object**, whichever pending calls have been answered ahead of their
returns. -/
theorem run (l : Linearization M ok L starts O)
    (hr : (M.recorded L.see starts).ReachableBy (fun x a => ok x.1 a) (s, h, H))
    {F : Finset ι} {c : ι → SeqObject.Status I R} (hc : Ahead L O F s H c) :
    O.Shows ⟨L.value s, c⟩ h := by
  -- every list of threads whose answer is brought forward, by induction on the run
  refine hr.invariant (P := fun x => ∀ F c, Ahead L O F x.1 x.2.2 c →
    O.Shows ⟨L.value x.1, c⟩ x.2.1) ?_ ?_ F c hc
  · rintro ⟨s, g⟩ ⟨hs, rfl⟩ F c hc
    obtain ⟨hv, hcall⟩ := l.init hs
    refine .init ⟨⟨hv, fun t => ?_⟩, rfl⟩
    -- nobody has called anything yet
    have hidle : L.status s t = .idle := by
      unfold Reading.status
      rw [hcall t]
    obtain hnat | ⟨-, i, r, -, hcalled, -⟩ := hc t
    · exact hnat.trans hidle
    · rw [hidle] at hcalled
      cases hcalled
  · rintro ⟨s, h, H⟩ a ⟨s', h', H'⟩ hr ih hok ⟨hs, hg⟩ F c' hc'
    obtain rfl : h' = (L.see a).toList ++ h := congrArg Prod.fst hg
    obtain rfl : H' = fun t => (s, a, s') :: bif starts t a then [] else H t :=
      congrArg Prod.snd hg
    have hr' : M.ReachableBy ok s := (hr.since_of_recorded (L.who a)).of_since
    have hown : c' (L.who a) = L.status s' (L.who a) ∨ L.who a ∈ F ∧ L.Early O s'
        ((s, a, s') :: bif starts (L.who a) a then [] else H (L.who a)) (L.who a)
        (c' (L.who a)) := hc' (L.who a)
    show O.Shows ⟨L.value s', c'⟩ ((L.see a).toList ++ h)
    cases hsee : L.see a with
    | none =>
      obtain ⟨hcall, heffect⟩ := l.inner hr' hs hok hsee
      rw [l.starts_of_see (a := a) (t := L.who a) (by simp [hsee])] at hown
      obtain ⟨heff, hv⟩ | ⟨i, r, hci, heff, heff', ha⟩ := heffect
      · -- nothing happens to the object
        have hst := status_congr hcall heff
        refine l.follow hr' hs hok ih hc' (x := before L O s H c' (L.who a))
          (before_eq (L.who a)) (fun c hx hshow => ?_)
          (before_cases hst (hown.imp id And.right))
        rw [← hx, update_eq_self, hv]
        exact hshow
      · -- the call of the thread takes effect
        have hst : L.status s (L.who a) = .called i := by
          unfold Reading.status
          rw [hci, heff]
        have hst' : L.status s' (L.who a) = .done i r := by
          unfold Reading.status
          rw [hcall, hci, heff']
        refine l.follow hr' hs hok ih hc' (.inl rfl) (y := .done i r) (fun c hx hshow => ?_)
          (.inl ?_)
        · exact hshow.effect (hx.trans hst) ha
        · obtain hnat | ⟨-, i', r', -, hcalled, -⟩ := hown
          · exact hnat.trans hst'
          · rw [hst'] at hcalled
            cases hcalled
    | some e =>
      cases e with
      | invoke t i =>
        -- the call begins, and takes no effect yet
        obtain ⟨rfl, hnone, hsome, heff, hv⟩ := l.invoke hr' hs hok hsee
        have hst : L.status s (L.who a) = .idle := by
          unfold Reading.status
          rw [hnone]
        have hst' : L.status s' (L.who a) = .called i := by
          unfold Reading.status
          rw [hsome, heff]
        rw [(l.starts_iff _ a).mpr ⟨i, hsee⟩] at hown
        refine l.follow hr' hs hok ih hc' (.inl rfl) (y := .called i) (fun c hx hshow => ?_) ?_
        · rw [hv]
          exact hshow.invoke (hx.trans hst)
        · obtain hnat | ⟨-, i', r, hdone, hcalled, e, he, hread⟩ := hown
          · exact .inl (hnat.trans hst')
          · -- the interval has this step only
            obtain rfl := List.mem_singleton.mp he
            rw [hst'] at hcalled
            obtain rfl := SeqObject.Status.called.inj hcalled
            exact .inr ⟨i, r, rfl, hdone, hread⟩
      | ret t i r =>
        -- the return shows the answer, which was given at the latest now
        obtain ⟨ht, hcall, hans, hnone, hv⟩ := l.ret (hr.since_of_recorded t) hs hok hsee
        subst ht
        have hst' : L.status s' (L.who a) = .idle := by
          unfold Reading.status
          rw [hnone]
        refine l.follow hr' hs hok ih hc' (x := .done i r) ?_ (y := .idle)
          (fun c hx hshow => ?_) (.inl ?_)
        · -- the result that is returned tells how the call was answered
          obtain heff | ⟨heff, hread⟩ := hans
          · left
            unfold Reading.status
            rw [hcall, heff]
          · refine .inr ⟨i, r, rfl, ?_, hread⟩
            unfold Reading.status
            rw [hcall, heff]
        · rw [hv]
          exact hshow.ret hx
        · obtain hnat | ⟨-, i', r', -, hcalled, -⟩ := hown
          · exact hnat.trans hst'
          · rw [hst'] at hcalled
            cases hcalled

/-- The call a thread is in is the one that its history says. -/
theorem call_eq_pendingCall (l : Linearization M ok L starts O)
    (hr : (M.history L.see).ReachableBy (fun x a => ok x.1 a) (s, h)) (t : ι) :
    L.call s t = pendingCall t h := by
  obtain ⟨H, hH⟩ := hr.exists_recorded starts
  refine hH.invariant (P := fun x => L.call x.1 t = pendingCall t x.2.1) ?_ ?_
  · rintro ⟨s, g⟩ ⟨hs, rfl⟩
    exact (l.init hs).2 t
  · rintro ⟨s, h, H⟩ a ⟨s', h', H'⟩ hr ih hok ⟨hs, hg⟩
    obtain rfl : h' = (L.see a).toList ++ h := congrArg Prod.fst hg
    have hr' : M.ReachableBy ok s := (hr.since_of_recorded t).of_since
    have ih : L.call s t = pendingCall t h := ih
    show L.call s' t = pendingCall t ((L.see a).toList ++ h)
    have hother : t ≠ L.who a → L.call s' t = pendingCall t h := fun ht =>
      (l.frame hr' hs hok ht).1.trans ih
    cases hsee : L.see a with
    | none =>
      by_cases ht : t = L.who a
      · subst ht
        exact (l.inner hr' hs hok hsee).1.trans ih
      · exact hother ht
    | some e =>
      cases e with
      | invoke q i =>
        obtain ⟨rfl, -, hcall, -⟩ := l.invoke hr' hs hok hsee
        show _ = if L.who a = t then some i else pendingCall t h
        split_ifs with ht
        · subst ht
          exact hcall
        · exact hother (Ne.symm ht)
      | ret q i r =>
        obtain ⟨hq, -, -, hcall, -⟩ := l.ret (hr.since_of_recorded q) hs hok hsee
        subst hq
        show _ = if L.who a = t then none else pendingCall t h
        split_ifs with ht
        · subst ht
          exact hcall
        · exact hother (Ne.symm ht)

/-- **An implementation of which this is known is linearizable.** -/
theorem linearizable (l : Linearization M ok L starts O) : M.Linearizable ok L.see O := by
  intro s h hr
  obtain ⟨H, hH⟩ := hr.exists_recorded starts
  exact ⟨_, l.run (F := ∅) (c := L.status s) hH fun q => .inl rfl⟩

end

end Linearization

end

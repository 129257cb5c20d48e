import PopSetbench.Library.Custody
import PopSetbench.Library.Round

/-!
# Readers that a signal throws out

A thread reads without reservations while it is *restartable*: a signal makes it start
over and forget what it has found. Before it writes it saves the objects it goes on to use and
ceases to be restartable; from then on a signal is of no effect.

`Neutralize` holds what a reclaimer needs to know about such threads. `met u o` says that `o` has
been reachable at some moment of the read phase of `u`; for an object that is unlinked now it says
that the phase began before it was unlinked.

A retired object is out of reach of a thread in two ways.

* `Cut` — the thread can find it no more: it is in no read phase that met the object, or a signal
  is about to throw it out. A signal establishes this (`Cut.of_signalled`) and every step keeps it
  (`Step.cut`).
* `¬ CanDereference` — moreover the thread has not saved it for the phase it is in. This too is
  kept once it holds (`Step.not_canDereference`), since what a thread saves it has met.
-/

/-- What is known about the readers. -/
structure Neutralize (n : ℕ) (Obj : Type*) where
  /-- The thread is in a read phase. -/
  restartable : Fin n → Bool
  /-- The thread is in a write phase. -/
  writing : Fin n → Bool
  /-- A signal is in flight. -/
  signalled : Fin n → Bool
  /-- The object was reachable at some moment of the read phase. -/
  met : Fin n → Obj → Prop
  /-- The objects saved for the write phase. -/
  saved : Fin n → Obj → Prop

namespace Neutralize

open Function

variable {n : ℕ} {Obj : Type*}

/-- The steps of the readers; `life` is that of the objects before the step. A signalled thread
handles its signal before it takes another step. -/
inductive Step (life : Obj → Life) : Neutralize n Obj → Neutralize n Obj → Prop
  | stay (h : Neutralize n Obj) : Step life h h
  /-- An object becomes reachable. -/
  | link (h : Neutralize n Obj) (x : Obj) (hx : life x = .pooled) :
      Step life h { h with met := fun u o => h.met u o ∨ o = x }
  | signal (h : Neutralize n Obj) (u : Fin n) :
      Step life h { h with signalled := update h.signalled u true }
  /-- The signal is handled: a restartable thread is thrown out. -/
  | handle (h : Neutralize n Obj) (u : Fin n) :
      Step life h { h with
        signalled := update h.signalled u false
        restartable := update h.restartable u false }
  /-- The list of saved objects is cleared. -/
  | clear (h : Neutralize n Obj) (u : Fin n) (hu : h.restartable u = false) :
      Step life h { h with
        saved := update h.saved u fun _ => False
        writing := update h.writing u false }
  /-- A read phase begins. -/
  | start (h : Neutralize n Obj) (u : Fin n) (hu : ∀ o, ¬ h.saved u o)
      (hw : h.writing u = false) :
      Step life h { h with
        restartable := update h.restartable u true
        met := update h.met u fun o => life o = .linked }
  /-- An object is saved. -/
  | save (h : Neutralize n Obj) (u : Fin n) (x : Obj) (hu : h.restartable u = true)
      (hx : h.met u x) :
      Step life h { h with saved := update h.saved u fun o => h.saved u o ∨ o = x }
  /-- The read phase ends and the write phase begins. -/
  | upgrade (h : Neutralize n Obj) (u : Fin n) (hu : h.restartable u = true)
      (hs : h.signalled u = false) :
      Step life h { h with
        restartable := update h.restartable u false
        writing := update h.writing u true }
  /-- The operation ends. -/
  | finish (h : Neutralize n Obj) (u : Fin n) :
      Step life h { h with
        restartable := update h.restartable u false
        writing := update h.writing u false }

/-- Thread `u` may use `o` in its next step: it reads, and its phase has met `o`, or it writes, and
has saved `o`. -/
def CanDereference (h : Neutralize n Obj) (u : Fin n) (o : Obj) : Prop :=
  (h.restartable u = true ∧ h.signalled u = false ∧ h.met u o) ∨
    (h.writing u = true ∧ h.saved u o)

/-- Thread `u` is in no read phase that has met `o`, or is about to leave it. -/
def Cut (h : Neutralize n Obj) (u : Fin n) (o : Obj) : Prop :=
  h.restartable u = true → h.met u o → h.signalled u = true

/-- What every step keeps. -/
structure Inv (h : Neutralize n Obj) : Prop where
  /-- A reader saves what it has met. -/
  met : ∀ u o, h.restartable u = true → h.saved u o → h.met u o
  /-- A thread in a read phase is in no write phase. -/
  phase : ∀ u, h.restartable u = true → h.writing u = false

variable {h h' : Neutralize n Obj} {life : Obj → Life} {u : Fin n} {o : Obj}

/-- A signal cuts its receiver off from every object. -/
theorem Cut.of_signalled (hs : h.signalled u = true) (o : Obj) : Cut h u o :=
  fun _ _ => hs

/-- A thread outside read phases is cut off from every object. -/
theorem Cut.of_not_restartable (hr : h.restartable u = false) (o : Obj) : Cut h u o := by
  intro hr'
  rw [hr] at hr'
  cases hr'

/-- What cannot be dereferenced cannot be found. -/
theorem Cut.of_not_canDereference (hn : ¬ CanDereference h u o) : Cut h u o := by
  intro hr hm
  by_contra hs
  exact hn (.inl ⟨hr, eq_false_of_ne_true hs, hm⟩)

/-- What cannot be found can be dereferenced only in a write phase. -/
theorem Cut.not_canDereference (hc : Cut h u o) (hw : h.writing u = true → ¬ h.saved u o) :
    ¬ CanDereference h u o := by
  rintro (⟨hr, hs, hm⟩ | ⟨hwr, hsv⟩)
  · rw [hc hr hm] at hs
    cases hs
  · exact hw hwr hsv

/-- **Invariant preservation.** -/
theorem Inv.step (hI : Inv h) (hstep : Step life h h') : Inv h' := by
  obtain ⟨hmet, hphase⟩ := hI
  cases hstep with
  | stay => exact ⟨hmet, hphase⟩
  -- an object may be linked, which takes nothing away
  | link x hx => exact ⟨fun u o hr hs => .inl (hmet u o hr hs), hphase⟩
  | signal v => exact ⟨hmet, hphase⟩
  | handle v =>
    refine ⟨fun u o hr => ?_, fun u hr => ?_⟩ <;> by_cases hu : u = v
    · -- the handler gives the phase up, so nothing is saved and nothing is met
      subst hu
      simp at hr
    · exact hmet u o (by simpa [update_of_ne hu] using hr)
    · subst hu
      simp at hr
    · exact hphase u (by simpa [update_of_ne hu] using hr)
  | clear v hv =>
    refine ⟨fun u o hr hs => ?_, fun u hr => ?_⟩ <;> by_cases hu : u = v
    · -- the row is cleared before a phase
      subst hu
      simp at hs
    · exact hmet u o hr (by simpa [update_of_ne hu] using hs)
    · subst hu
      exact update_self ..
    · simpa [update_of_ne hu] using hphase u hr
  | start v hv hw =>
    refine ⟨fun u o hr hs => ?_, fun u hr => ?_⟩ <;> by_cases hu : u = v
    · -- the phase begins with nothing met but what is reachable
      subst hu
      exact absurd hs (hv o)
    · simp only [update_of_ne hu] at hr ⊢
      exact hmet u o hr hs
    · subst hu
      exact hw
    · exact hphase u (by simpa [update_of_ne hu] using hr)
  | save v x hv hx =>
    refine ⟨fun u o hr hs => ?_, hphase⟩
    -- what is saved was met
    by_cases hu : u = v
    · subst hu
      simp only [update_self] at hs
      rcases hs with hs | rfl
      · exact hmet u o hr hs
      · exact hx
    · exact hmet u o hr (by simpa [update_of_ne hu] using hs)
  | upgrade v hv hs =>
    refine ⟨fun u o hr => ?_, fun u hr => ?_⟩ <;> by_cases hu : u = v
    · -- the write phase uses what was saved
      subst hu
      simp at hr
    · exact hmet u o (by simpa [update_of_ne hu] using hr)
    · subst hu
      simp at hr
    · simp only [update_of_ne hu] at hr ⊢
      exact hphase u hr
  | finish v =>
    refine ⟨fun u o hr => ?_, fun u hr => ?_⟩ <;> by_cases hu : u = v
    · -- the operation is over
      subst hu
      simp at hr
    · exact hmet u o (by simpa [update_of_ne hu] using hr)
    · subst hu
      simp at hr
    · simp only [update_of_ne hu] at hr ⊢
      exact hphase u hr

/-- **Cut off for good.** A thread that can find a retired object no more never finds it
again. -/
theorem Step.cut (hstep : Step life h h') (ho : life o = .retired) (hc : Cut h u o) :
    Cut h' u o := by
  cases hstep with
  | stay => exact hc
  | link x hx =>
    -- what is linked again is not the retired object
    rintro hr (hm | rfl)
    · exact hc hr hm
    · rw [ho] at hx
      cases hx
  | signal v =>
    -- a signal that is pending cuts the thread off
    intro hr hm
    by_cases hu : u = v
    · subst hu
      exact update_self ..
    · simpa [update_of_ne hu] using hc hr hm
  | handle v =>
    intro hr hm
    -- the handler has run, so the phase is gone
    by_cases hu : u = v
    · subst hu
      simp at hr
    · simp only [update_of_ne hu] at hr ⊢
      exact hc hr hm
  | clear v hv => exact hc
  | start v hv hw =>
    intro hr hm
    by_cases hu : u = v
    · -- a new phase meets only what is reachable
      subst hu
      simp [ho] at hm
    · simp only [update_of_ne hu] at hr hm ⊢
      exact hc hr hm
  | save v x hv hx => exact hc
  | upgrade v hv hs =>
    intro hr hm
    -- the write phase is the one that was not cut off
    by_cases hu : u = v
    · subst hu
      simp at hr
    · exact hc (by simpa [update_of_ne hu] using hr) hm
  | finish v =>
    intro hr hm
    by_cases hu : u = v
    · subst hu
      simp at hr
    · exact hc (by simpa [update_of_ne hu] using hr) hm

/-- **Out of reach for good.** A retired object that a thread cannot dereference stays so. -/
theorem Step.not_canDereference (hstep : Step life h h') (hI : Inv h) (ho : life o = .retired)
    (hn : ¬ CanDereference h u o) : ¬ CanDereference h' u o := by
  have hc := Cut.of_not_canDereference hn
  refine (hstep.cut ho hc).not_canDereference fun hw => ?_
  have hold : h.writing u = true → ¬ h.saved u o := fun hw hs => hn (.inr ⟨hw, hs⟩)
  cases hstep with
  | stay | link | signal | handle | start => exact hold hw
  | clear v hv =>
    by_cases hu : u = v
    · subst hu
      simp
    · simp only [update_of_ne hu] at hw ⊢
      exact hold hw
  | save v x hv hx =>
    by_cases hu : u = v
    · -- it saves in a read phase
      subst hu
      rw [hI.phase u hv] at hw
      cases hw
    · simp only [update_of_ne hu]
      exact hold hw
  | upgrade v hv hs =>
    by_cases hu : u = v
    · -- what it has saved it has met
      subst hu
      intro hsv
      rw [hc hv (hI.met u o hv hsv)] at hs
      cases hs
    · exact hold (by simpa [update_of_ne hu] using hw)
  | finish v =>
    by_cases hu : u = v
    · subst hu
      simp at hw
    · exact hold (by simpa [update_of_ne hu] using hw)

end Neutralize

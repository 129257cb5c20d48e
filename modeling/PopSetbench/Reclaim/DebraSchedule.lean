import PopSetbench.Library.Replay
import PopSetbench.Reclaim.DebraWaits

/-!
# DEBRA: runs that are computed

What DEBRA answers to a call, and how its threads go on in `startOp`.
-/

namespace PopSetbench
namespace Debra

open Function

variable {n : ℕ} {Obj : Type} [DecidableEq Obj]

namespace State

variable (s : State n Obj)

/-- A call of thread `t`. -/
def answer (minOps : ℕ) (t : Fin n) : GraceCall Obj → Option (State n Obj)
  | .startOp =>
    match s.pc t with
    | .announce e =>
      if s.opsSinceRead t + 1 = minOps then
        some { (s.announce t e).goto t (.check e) with
          opsSinceRead := update s.opsSinceRead t 0 }
      else
        some { (s.announce t e).goto t .idle with
          opsSinceRead := update s.opsSinceRead t (s.opsSinceRead t + 1) }
    | _ => none
  | .endOp => if s.pc t = .idle then some (s.endOp t) else none
  | .retire o => if s.pc t = .idle ∧ s.life o = .unlinked then some (s.retire t o) else none

/-- The next step of thread `t` in `startOp`, but for the announcement. -/
def goOn (t : Fin n) : Option (Option Obj × State n Obj) :=
  match s.pc t with
  | .idle =>
    if s.epoch = s.localvarAnnouncedEpoch t then
      some (none, (s.begin t).goto t (.announce s.epoch))
    else some (none, ((s.begin t).adopt t).goto t (.rotate s.epoch))
  | .rotate e =>
    match (s.epochbags t (s.index t + 1)).getLast? with
    | none =>
      some (none, { s.goto t (.announce e) with index := update s.index t (s.index t + 1) })
    | some o => some (some o, s.passToPool t (s.epochbags t (s.index t + 1)).dropLast o)
  | .announce _ => none
  | .check e =>
    if hi : s.checked t < n then
      if s.Passes ⟨s.checked t, hi⟩ e then
        if s.checked t + 1 < n then some (none, (s.pass t ⟨s.checked t, hi⟩).goto t .idle)
        else some (none, (s.pass t ⟨s.checked t, hi⟩).goto t (.cas e))
      else some (none, s.goto t .idle)
    else none
  | .cas e =>
    if s.epoch = e then some (none, { s.goto t .idle with epoch := e + epochIncrement })
    else some (none, s.goto t .idle)

/-- How the reclaimer goes on. -/
def own : Move n Obj → Option (Option Obj × State n Obj)
  | .thread t => s.goOn t
  | .alloc _ => none
  | .link o =>
    if s.life o = .pooled then some (none, { s with life := update s.life o .linked }) else none
  | .unlink o =>
    if s.life o = .linked then some (none, { s with life := update s.life o .unlinked }) else none

end State

variable {s s' : State n Obj} {t : Fin n} {minOps : ℕ}

theorem answer_sound {c : GraceCall Obj} (h : s.answer minOps t c = some s') :
    Call minOps s (.call t c) s' := by
  cases c with
  | startOp =>
    cases hpc : s.pc t with
    | announce e =>
      simp only [State.answer, hpc] at h
      split_ifs at h with hops
      · obtain rfl := Option.some.inj h
        exact .announce t e _ hpc (.announceCheck s t e hpc hops)
      · obtain rfl := Option.some.inj h
        exact .announce t e _ hpc (.announce s t e hpc hops)
    | _ => simp [State.answer, hpc] at h
  | endOp =>
    obtain ⟨hpc, heq⟩ := Option.ite_none_right_eq_some.mp h
    obtain rfl := Option.some.inj heq
    exact .endOp t hpc
  | retire o =>
    obtain ⟨⟨hpc, ho⟩, heq⟩ := Option.ite_none_right_eq_some.mp h
    obtain rfl := Option.some.inj heq
    exact .retire t o hpc ho

/-- A thread that is not about to announce goes on somewhere else. -/
theorem Call.moved {p q : Pc} (hs : Step minOps s (.thread t) s') (hpc : s.pc t = p)
    (hp : ∀ e, p ≠ .announce e) (hq : s'.pc t = q) (hne : p ≠ q) : Call minOps s .own s' := by
  refine .own t s' hs ?_ ?_
  · rw [hpc]
    exact hp
  · rw [hpc, hq]
    exact hne

theorem goOn_none (h : s.goOn t = some (none, s')) : Call minOps s .own s' := by
  unfold State.goOn at h
  split at h <;> rename_i hpc
  -- `startOp` loads the epoch
  · split_ifs at h with hann
    · obtain ⟨-, rfl⟩ := Prod.mk.inj (Option.some.inj h)
      exact .moved (.startOpSame s t hpc hann) hpc (by simp) (update_self ..) (by simp)
    · obtain ⟨-, rfl⟩ := Prod.mk.inj (Option.some.inj h)
      exact .startOpNew t hpc hann
  -- `rotateEpochBags`
  · split at h <;> rename_i hlast
    · obtain ⟨-, rfl⟩ := Prod.mk.inj (Option.some.inj h)
      exact .rotateEnd t _ hpc (List.getLast?_eq_none_iff.mp hlast)
    · obtain ⟨hx, -⟩ := Prod.mk.inj (Option.some.inj h)
      cases hx
  · cases h
  -- the announcement of another thread
  · split_ifs at h with hi hpass hlt
    · obtain ⟨-, rfl⟩ := Prod.mk.inj (Option.some.inj h)
      exact .moved (.check s t _ _ hpc rfl hpass hlt) hpc (by simp) (update_self ..) (by simp)
    · obtain ⟨-, rfl⟩ := Prod.mk.inj (Option.some.inj h)
      exact .moved (.checkLast s t _ _ hpc rfl hpass (not_lt.mp hlt)) hpc (by simp)
        (update_self ..) (by simp)
    · obtain ⟨-, rfl⟩ := Prod.mk.inj (Option.some.inj h)
      exact .moved (.checkFail s t _ _ hpc rfl hpass) hpc (by simp) (update_self ..) (by simp)
  · split_ifs at h with he
    · obtain ⟨-, rfl⟩ := Prod.mk.inj (Option.some.inj h)
      exact .moved (.casSuccess s t _ hpc he) hpc (by simp) (update_self ..) (by simp)
    · obtain ⟨-, rfl⟩ := Prod.mk.inj (Option.some.inj h)
      exact .moved (.casFail s t _ hpc he) hpc (by simp) (update_self ..) (by simp)

theorem goOn_some {o : Obj} (h : s.goOn t = some (some o, s')) : Call minOps s (.free o) s' := by
  unfold State.goOn at h
  split at h <;> rename_i hpc
  · split_ifs at h <;> cases (Prod.mk.inj (Option.some.inj h)).1
  · split at h <;> rename_i hlast
    · cases (Prod.mk.inj (Option.some.inj h)).1
    · obtain ⟨ho, rfl⟩ := Prod.mk.inj (Option.some.inj h)
      obtain rfl := Option.some.inj ho
      exact .free t _ _ _ hpc (List.dropLast_append_getLast? _ hlast).symm
  · cases h
  · split_ifs at h <;> cases (Prod.mk.inj (Option.some.inj h)).1
  · split_ifs at h <;> cases (Prod.mk.inj (Option.some.inj h)).1

/-- **DEBRA is computed.** -/
theorem answers (n : ℕ) (Obj : Type) [DecidableEq Obj] (minOps : ℕ) :
    (reclaimer n Obj minOps).Answers (fun s t c => s.answer minOps t c) State.own where
  of_call s t c s' h := answer_sound h
  of_own s m s' h := by
    cases m with
    | thread t => exact goOn_none h
    | alloc t => cases h
    | link o =>
      obtain ⟨ho, heq⟩ := Option.ite_none_right_eq_some.mp h
      obtain ⟨-, rfl⟩ := Prod.mk.inj (Option.some.inj heq)
      exact .env _ (.link s o ho)
    | unlink o =>
      obtain ⟨ho, heq⟩ := Option.ite_none_right_eq_some.mp h
      obtain ⟨-, rfl⟩ := Prod.mk.inj (Option.some.inj heq)
      exact .env _ (.unlink s o ho)
  of_free s m o s' h := by
    cases m with
    | thread t => exact goOn_some h
    | alloc t => cases h
    | link o' =>
      obtain ⟨-, heq⟩ := Option.ite_none_right_eq_some.mp h
      cases (Prod.mk.inj (Option.some.inj heq)).1
    | unlink o' =>
      obtain ⟨-, heq⟩ := Option.ite_none_right_eq_some.mp h
      cases (Prod.mk.inj (Option.some.inj heq)).1

end Debra
end PopSetbench

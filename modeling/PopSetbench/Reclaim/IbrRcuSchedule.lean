import PopSetbench.Library.Replay
import PopSetbench.Reclaim.IbrRcuWaits

/-!
# RCU with reservations: runs that are computed

What the reclaimer answers to a call, and how its threads go on in `startOp`, in an allocation and
in `empty`.
-/

namespace PopSetbench
namespace IbrRcu

open Function

variable {n : ℕ} {Obj Loc : Type} [DecidableEq Obj] [DecidableEq Loc]

namespace State

variable (cfg : Config) (s : State n Obj Loc)

/-- A call of thread `t`. -/
def answer (t : Fin n) : GraceCall Obj → Option (State n Obj Loc)
  | .startOp =>
    match s.pc t with
    | .startOp e =>
      some { s.goto t .idle with
        reservations := update s.reservations t (e : ℕ∞)
        inOp := update s.inOp t true
        held := update s.held t fun _ => false }
    | _ => none
  | .endOp =>
    if s.pc t = .idle ∧ s.inOp t = true then
      some { s with
        reservations := update s.reservations t ⊤
        inOp := update s.inOp t false
        held := update s.held t fun _ => false }
    else none
  | .retire o =>
    if s.pc t = .idle ∧ s.life o = .unlinked then
      if (s.retireCounters t + 1) % cfg.emptyFreq = 0 then
        some ((s.pushBack t o).goto t (.empty 0 ⊤))
      else some (s.pushBack t o)
    else none

/-- The next step of thread `t` in the code of the reclaimer, but for the reservation. -/
def goOn (t : Fin n) : Option (Option Obj × State n Obj Loc) :=
  match s.pc t with
  | .idle => if s.inOp t = false then some (none, s.goto t (.startOp s.epoch)) else none
  | .bumpEpoch => some (none, { s.goto t .idle with epoch := s.epoch + 1 })
  | .startOp _ => none
  | .empty i m =>
    if hi : i < n then
      some (none, s.goto t
        (.empty (i + 1) (if s.reservations ⟨i, hi⟩ < m then s.reservations ⟨i, hi⟩ else m)))
    else if i = n then some (none, s.goto t (.scan 0 m))
    else none
  | .scan pos m =>
    match (s.retired t)[pos]? with
    | none => some (none, s.goto t .idle)
    | some res =>
      if (res.epoch : ℕ∞) < m then
        some (some res.obj, (s.passToPool t pos res.obj).goto t (.scan pos m))
      else some (none, s.goto t (.scan (pos + 1) m))

/-- How the reclaimer goes on. -/
def own : Move n Obj → Option (Option Obj × State n Obj Loc)
  | .thread t => s.goOn t
  | .alloc t =>
    if s.pc t = .idle then
      if (s.allocCounters t + 1) % (cfg.epochFreq * n) = 0 then
        some (none, { s.goto t .bumpEpoch with
          allocCounters := update s.allocCounters t (s.allocCounters t + 1) })
      else
        some (none, { s with allocCounters := update s.allocCounters t (s.allocCounters t + 1) })
    else none
  | .link o =>
    if s.life o = .pooled then some (none, { s with life := update s.life o .linked }) else none
  | .unlink o =>
    if s.life o = .linked then some (none, { s with life := update s.life o .unlinked }) else none

end State

variable {s s' : State n Obj Loc} {t : Fin n} {cfg : Config}

theorem answer_sound {c : GraceCall Obj} (h : s.answer cfg t c = some s') :
    Call cfg s (.call t c) s' := by
  cases c with
  | startOp =>
    cases hpc : s.pc t with
    | startOp e =>
      simp only [State.answer, hpc] at h
      obtain rfl := Option.some.inj h
      exact .reserve t e hpc
    | _ => simp [State.answer, hpc] at h
  | endOp =>
    obtain ⟨⟨hpc, hop⟩, heq⟩ := Option.ite_none_right_eq_some.mp h
    obtain rfl := Option.some.inj heq
    exact .endOp t hpc hop
  | retire o =>
    obtain ⟨⟨hpc, ho⟩, heq⟩ := Option.ite_none_right_eq_some.mp h
    split_ifs at heq with hfreq
    · obtain rfl := Option.some.inj heq
      exact .retireEmpty t o hpc ho hfreq
    · obtain rfl := Option.some.inj heq
      exact .retire t o hpc ho hfreq

theorem goOn_none (h : s.goOn t = some (none, s')) : Call cfg s .own s' := by
  unfold State.goOn at h
  split at h <;> rename_i hpc
  -- `startOp` loads the epoch
  · obtain ⟨hop, heq⟩ := Option.ite_none_right_eq_some.mp h
    obtain ⟨-, rfl⟩ := Prod.mk.inj (Option.some.inj heq)
    exact .own _ _ (.startOp s t hpc hop) rfl rfl rfl
  · obtain ⟨-, rfl⟩ := Prod.mk.inj (Option.some.inj h)
    exact .own _ _ (.bumpEpoch s t hpc) rfl rfl rfl
  · cases h
  -- `empty` loads the reservations
  · rename_i i m
    by_cases hi : i < n
    · rw [dif_pos hi] at h
      obtain ⟨-, rfl⟩ := Prod.mk.inj (Option.some.inj h)
      exact .own _ _ (.load s t ⟨i, hi⟩ m hpc) rfl rfl rfl
    · rw [dif_neg hi] at h
      obtain ⟨hn, heq⟩ := Option.ite_none_right_eq_some.mp h
      obtain ⟨-, rfl⟩ := Prod.mk.inj (Option.some.inj heq)
      rw [hn] at hpc
      exact .own _ _ (.loaded s t m hpc) rfl rfl rfl
  -- and goes through the list
  · split at h <;> rename_i hres
    · obtain ⟨-, rfl⟩ := Prod.mk.inj (Option.some.inj h)
      exact .own _ _ (.scanEnd s t _ _ hpc hres) rfl rfl rfl
    · split_ifs at h with hlt
      · cases (Prod.mk.inj (Option.some.inj h)).1
      · obtain ⟨-, rfl⟩ := Prod.mk.inj (Option.some.inj h)
        exact .own _ _ (.scanKeep s t _ _ _ hpc hres hlt) rfl rfl rfl

theorem goOn_some {o : Obj} (h : s.goOn t = some (some o, s')) : Call cfg s (.free o) s' := by
  unfold State.goOn at h
  split at h <;> rename_i hpc
  · cases (Prod.mk.inj (Option.some.inj (Option.ite_none_right_eq_some.mp h).2)).1
  · cases (Prod.mk.inj (Option.some.inj h)).1
  · cases h
  · split_ifs at h <;> cases (Prod.mk.inj (Option.some.inj h)).1
  · split at h <;> rename_i hres
    · cases (Prod.mk.inj (Option.some.inj h)).1
    · split_ifs at h with hlt
      · obtain ⟨ho, rfl⟩ := Prod.mk.inj (Option.some.inj h)
        obtain rfl := Option.some.inj ho
        exact .free t _ _ _ hpc hres hlt
      · cases (Prod.mk.inj (Option.some.inj h)).1

/-- **RCU with reservations is computed.** -/
theorem answers (n : ℕ) (Obj Loc : Type) [DecidableEq Obj] [DecidableEq Loc] (cfg : Config) :
    (reclaimer n Obj Loc cfg).Answers (fun s t c => s.answer cfg t c) fun s => s.own cfg where
  of_call s t c s' h := answer_sound h
  of_own s m s' h := by
    cases m with
    | thread t => exact goOn_none h
    | alloc t =>
      obtain ⟨hpc, heq⟩ := Option.ite_none_right_eq_some.mp h
      split_ifs at heq with hmod
      · obtain ⟨-, rfl⟩ := Prod.mk.inj (Option.some.inj heq)
        exact .own _ _ (.allocBump s t hpc hmod) rfl rfl rfl
      · obtain ⟨-, rfl⟩ := Prod.mk.inj (Option.some.inj heq)
        exact .own _ _ (.alloc s t hpc hmod) rfl rfl rfl
    | link o =>
      obtain ⟨ho, heq⟩ := Option.ite_none_right_eq_some.mp h
      obtain ⟨-, rfl⟩ := Prod.mk.inj (Option.some.inj heq)
      exact .own _ _ (.link s o ho) rfl rfl rfl
    | unlink o =>
      obtain ⟨ho, heq⟩ := Option.ite_none_right_eq_some.mp h
      obtain ⟨-, rfl⟩ := Prod.mk.inj (Option.some.inj heq)
      exact .own _ _ (.unlink s o ho) rfl rfl rfl
  of_free s m o s' h := by
    cases m with
    | thread t => exact goOn_some h
    | alloc t =>
      obtain ⟨-, heq⟩ := Option.ite_none_right_eq_some.mp h
      split_ifs at heq <;> cases (Prod.mk.inj (Option.some.inj heq)).1
    | link o' =>
      obtain ⟨-, heq⟩ := Option.ite_none_right_eq_some.mp h
      cases (Prod.mk.inj (Option.some.inj heq)).1
    | unlink o' =>
      obtain ⟨-, heq⟩ := Option.ite_none_right_eq_some.mp h
      cases (Prod.mk.inj (Option.some.inj heq)).1

end IbrRcu
end PopSetbench

import PopSetbench.Reclaim.He

/-!
# Hazard eras: freeing is safe

`he_safe`: in every run, no object that `empty` passes to the pool is one that some thread has
obtained with `read` in a slot while it was reachable, unless the slot has been written since.

A `read` that returns has found the epoch twice: when it, or an earlier `read`, wrote the slot, and
after loading the pointer. In between the object was reachable, so it was born no later than that
epoch and can be retired only in that epoch or later. From the load on, the slot shields the object
if the epoch is still the one reserved when `read` looks at it (`Own`).
-/

namespace PopSetbench
namespace He

open Function

variable {n k : ℕ} {Obj Loc : Type}

/-- What thread `t` knows at each point of the code. -/
def Own (s : State n k Obj Loc) (t : Fin n) : Pc k Obj Loc → Prop
  | .readLoad idx _ prev => s.reservations t idx = prev
  | .readEpoch idx _ prev ptr reachable => s.reservations t idx = prev ∧
      (reachable = true → s.epoch = prev → ∀ o, ptr.obj = some o →
        s.view.Shields t (guard idx) o)
  | .readStore _ _ curr => curr ≤ s.epoch
  | _ => True

/-- **The invariant.** -/
structure Inv (s : State n k Obj Loc) : Prop where
  eras : s.view.Inv
  epoch_pos : s.epoch ≠ 0
  reserved_le : ∀ u e, s.reservations u e ≤ s.epoch
  /-- Slots shield what was obtained with them. -/
  held : ∀ u e o, s.held u e o = true → s.view.Shields u (guard e) o
  own : ∀ t, Own s t (s.pc t)

theorem Inv.initial : Inv (State.initial n k Obj Loc) where
  eras := ⟨Custody.nil _, fun _ _ => Nat.zero_le _⟩
  epoch_pos := Nat.one_ne_zero
  reserved_le _ _ := Nat.zero_le _
  held _ _ _ h := nomatch h
  own _ := trivial

variable {s s' : State n k Obj Loc} {a : Actor n} {t u : Fin n} {e : Fin k} {o : Obj}

/-- Writing slot `e` to `r` leaves the other slots alone. -/
private theorem store_of_held {r : ℕ} {e' : Fin k} (h : (s.store t e r).held u e' o = true) :
    s.held u e' o = true ∧ (s.store t e r).reservations u e' = s.reservations u e' := by
  unfold State.store at h ⊢
  dsimp only at h ⊢
  by_cases hu : u = t
  · subst hu
    rw [update_self] at h ⊢
    by_cases he : e' = e
    · subst he
      rw [update_self] at h
      cases h
    · rw [update_of_ne he] at h ⊢
      exact ⟨h, rfl⟩
  · rw [update_of_ne hu] at h ⊢
    exact ⟨h, rfl⟩

private theorem store_le {r : ℕ} (h : ∀ u e, s.reservations u e ≤ s.epoch) (hr : r ≤ s.epoch)
    (u : Fin n) (e' : Fin k) : (s.store t e r).reservations u e' ≤ s.epoch := by
  unfold State.store
  dsimp only
  by_cases hu : u = t
  · subst hu
    rw [update_self]
    by_cases he : e' = e
    · subst he
      rw [update_self]
      exact hr
    · rw [update_of_ne he]
      exact h u e'
  · rw [update_of_ne hu]
    exact h u e'

variable [DecidableEq Obj] [DecidableEq Loc] {cfg : Config}

theorem Step.epoch_le (hstep : Step cfg s a s') : s.epoch ≤ s'.epoch := by
  rcases hstep.eras with heq | h
  · exact le_of_eq (congrArg Eras.clock heq).symm
  · exact h.clock_le

/-- What belongs to thread `t` is changed by its own steps only. -/
theorem Step.frame (hstep : Step cfg s a s') (ha : a ≠ .thread t) :
    s'.reservations t = s.reservations t ∧ s'.held t = s.held t ∧ s'.pc t = s.pc t := by
  cases hstep with
  | write | link | unlink => exact ⟨rfl, rfl, rfl⟩
  | _ =>
    have ht : t ≠ _ := fun h => ha (congrArg Actor.thread h.symm)
    refine ⟨?_, ?_, ?_⟩ <;> first | rfl | exact update_of_ne ht _ _

/-- A slot that is not written goes on to shield what it shields. -/
theorem Step.shields (hI : Inv s) (hstep : Step cfg s a s')
    (hres : s'.reservations u e = s.reservations u e) (h : s.view.Shields u (guard e) o) :
    s'.view.Shields u (guard e) o := by
  rcases hstep.eras with heq | hs
  · rw [heq]
    exact h
  · refine h.step hI.eras hs (fun b r i hg hi => ?_) (fun b r r' i v hr hg => guard_later hr hg)
      fun temp x hf => not_guard_of_isFreeable hf u e
    subst hi
    have hslot : s'.view.slot u i = s.view.slot u i := hres
    rw [hslot]
    exact hg rfl

/-- **Interference freedom.** What a thread knows survives the steps of others. -/
theorem Own.frame (hI : Inv s) (hstep : Step cfg s a s') (ha : a ≠ .thread t) {p : Pc k Obj Loc}
    (h : Own s t p) : Own s' t p := by
  obtain ⟨hres, -, -⟩ := hstep.frame ha
  cases p with
  | readLoad idx l prev => exact (congrFun hres idx).trans h
  | readEpoch idx l prev ptr reachable =>
    obtain ⟨hprev, hsh⟩ := h
    refine ⟨(congrFun hres idx).trans hprev, fun hr he o ho => ?_⟩
    -- the epoch was the one reserved before, too
    have heq : s.epoch = prev := by
      apply le_antisymm
      · exact hstep.epoch_le.trans_eq he
      · rw [← hprev]
        exact hI.reserved_le t idx
    exact hstep.shields hI (congrFun hres idx) (hsh hr heq o ho)
  | readStore idx l curr => exact le_trans h hstep.epoch_le
  | _ => trivial

/-- What was held before the step and whose slot was not written is shielded. -/
theorem Step.held (hI : Inv s) (hstep : Step cfg s a s') (h : s'.held u e o = true) :
    s'.view.Shields u (guard e) o := by
  have old : s.held u e o = true → s'.reservations u e = s.reservations u e →
      s'.view.Shields u (guard e) o := fun hh hres => hstep.shields hI hres (hI.held u e o hh)
  have hown := hI.own
  cases hstep with
  | readStore t' idx l curr hpc =>
    obtain ⟨hh, hres⟩ := store_of_held h
    exact old hh hres
  | endOp t' e' hpc =>
    obtain ⟨hh, hres⟩ := store_of_held h
    exact old hh hres
  | readReturn t' idx l prev ptr reachable hpc hcurr =>
    have h : update s.held t' (update (s.held t') idx fun o =>
      s.held t' idx o || (ptr.obj = some o && reachable)) u e o = true := h
    by_cases hu : u = t'
    · subst hu
      rw [update_self] at h
      by_cases he : e = idx
      · subst he
        rw [update_self, Bool.or_eq_true] at h
        rcases h with hh | hnew
        · exact old hh rfl
        · -- the epoch is the one that the slot has held since before the pointer was loaded
          rw [Bool.and_eq_true, decide_eq_true_eq] at hnew
          have hpt := hown u
          rw [hpc] at hpt
          have hsh := hpt.2 hnew.2 hcurr o hnew.1
          exact Step.shields hI (.readReturn s u e l prev ptr reachable hpc hcurr : Step cfg s _ _)
            rfl hsh
      · rw [update_of_ne he] at h
        exact old h rfl
    · rw [update_of_ne hu] at h
      exact old h rfl
  | _ => exact old h rfl

/-- What the acting thread knows afterwards. -/
theorem Step.own (hI : Inv s) (hstep : Step cfg s a s') (ha : a = .thread t) :
    Own s' t (s'.pc t) := by
  have hown := hI.own
  -- outside a `read` there is nothing to know
  have idle : ∀ {x : State n k Obj Loc} {p : Pc k Obj Loc}, (∀ x, Own x t p) →
      Own x t (update s.pc t p t) := by
    intro x p hp
    rw [update_self]
    exact hp x
  cases hstep with
  | write | link | unlink => cases ha
  | alloc t' hpc hmod | retire t' o hpc ho hfreq =>
    obtain rfl := Actor.thread.inj ha
    show Own _ t' (s.pc t')
    rw [hpc]
    trivial
  | callRead t' idx l hpc =>
    -- the call begins with what the slot holds
    obtain rfl := Actor.thread.inj ha
    show Own _ t' (update s.pc t' _ t')
    rw [update_self]
    rfl
  | readLoad t' idx l prev hpc =>
    obtain rfl := Actor.thread.inj ha
    have hprev := hown t'
    rw [hpc] at hprev
    show Own _ t' (update s.pc t' _ t')
    rw [update_self]
    refine ⟨hprev, fun hr he o ho => ?_⟩
    have ho : (s.mem l).obj = some o := ho
    rw [ho, Option.any_some, decide_eq_true_eq] at hr
    -- the object is reachable, so it is not older than the epoch
    have hsh : s.view.Shields t' (guard idx) o := by
      apply Eras.Shields.of_linked hI.eras hr
      intro i hi
      subst hi
      have hres : s.view.slot t' i = s.epoch := hprev.trans he.symm
      rw [hres]
      exact ⟨hI.eras.birth_le o (by simp [State.view, hr]), le_rfl, hI.epoch_pos⟩
    exact Step.shields hI (.readLoad s t' idx l prev hpc : Step cfg s _ _) rfl hsh
  | readMove t' idx l prev ptr reachable hpc hcurr =>
    -- the slot does not hold the clock yet
    obtain rfl := Actor.thread.inj ha
    show Own _ t' (update s.pc t' _ t')
    rw [update_self]
    exact le_refl s.epoch
  | readStore t' idx l curr hpc =>
    -- from here on the slot holds the clock that was read
    obtain rfl := Actor.thread.inj ha
    show Own _ t' (update s.pc t' _ t')
    rw [update_self]
    show update s.reservations t' (update (s.reservations t') idx curr) t' idx = curr
    rw [update_self, update_self]
  | _ =>
    obtain rfl := Actor.thread.inj ha
    exact idle fun _ => trivial

/-- **Invariant preservation.** -/
theorem Inv.step (hI : Inv s) (hstep : Step cfg s a s') : Inv s' where
  eras := by
    rcases hstep.eras with heq | hs
    · rw [heq]
      exact hI.eras
    · exact hI.eras.step hs
  epoch_pos := fun h0 => hI.epoch_pos (Nat.le_zero.mp (hstep.epoch_le.trans_eq h0))
  reserved_le := by
    intro u e
    have hle := hstep.epoch_le
    have hown := hI.own
    cases hstep with
    | readStore t idx l curr hpc =>
      have hcurr := hown t
      rw [hpc] at hcurr
      exact store_le hI.reserved_le hcurr u e
    | endOp t e' hpc => exact store_le hI.reserved_le (Nat.zero_le _) u e
    | _ => exact (hI.reserved_le u e).trans hle
  held u e o h := hstep.held hI h
  own t := by
    by_cases ha : a = .thread t
    · exact hstep.own hI ha
    · have hpc := (hstep.frame ha).2.2
      rw [hpc]
      exact (hI.own t).frame hI hstep ha

theorem Inv.of_reachable (h : (system cfg).Reachable s) : Inv s := by
  refine h.invariant ?_ fun s a s' _ hI _ hs => hI.step hs
  rintro s rfl
  exact Inv.initial

/-- **Hazard eras are safe.** What `empty` passes to the pool was not obtained with `read`, while
it was reachable, in a slot that has not been written since. -/
theorem he_safe (h : (system cfg).Reachable s) {res : HeInfo Obj} (hfree : PassesToPool s t res)
    (u : Fin n) (e : Fin k) : s.held u e res.obj = false := by
  obtain ⟨pos, hpc, hget, hfr⟩ := hfree
  have hI := Inv.of_reachable h
  rw [← Bool.not_eq_true]
  intro hheld
  have hcop : (s.pc t).copied n = n * k := by rw [hpc]; rfl
  obtain ⟨i, hi⟩ := not_guard_of_isFreeable hfr u e
  exact hi ((hI.held u e res.obj hheld).temp (List.mem_of_getElem? hget) hcop i)

/-- With two threads, object `7` is retired in epoch 1. In epoch 2 thread `1` obtains object `8`
with its slot 0, and thread `0` retires it. Its `empty` copies the slots, and is about to free
object `7`, while thread `1` holds object `8`. -/
theorem he_safe_of_freed : ∃ (s : State 2 3 ℕ Unit) (res : HeInfo ℕ),
    (system ⟨2, 1⟩).Reachable s ∧ s.held 1 0 8 = true ∧
      PassesToPool s 0 res ∧ ∀ u e, s.held u e res.obj = false := by
  have safe : ∀ {s : State 2 3 ℕ Unit}, (system ⟨2, 1⟩).Reachable s → s.held 1 0 8 = true →
      s.pc 0 = .scan 0 → (s.retired 0)[0]? = some ⟨7, 1, 1⟩ →
      isFreeable (s.scannedHEs 0) ⟨7, 1, 1⟩ → ∃ (s : State 2 3 ℕ Unit) (res : HeInfo ℕ),
        (system ⟨2, 1⟩).Reachable s ∧ s.held 1 0 8 = true ∧
          PassesToPool s 0 res ∧ ∀ u e, s.held u e res.obj = false := by
    intro s hR hheld hpc hget hfree
    have hpass : PassesToPool s 0 ⟨7, 1, 1⟩ := ⟨0, hpc, hget, hfree⟩
    exact ⟨s, _, hR, hheld, hpass, he_safe hR hpass⟩
  have hR : (system ⟨2, 1⟩).Reachable (State.initial 2 3 ℕ Unit) := .init rfl
  -- epoch 1: the first object is linked, unlinked and retired
  have hR := hR.step (.link _ 7 1 rfl le_rfl)
  have hR := hR.step (.unlink _ 7 rfl)
  have hR := hR.step (.retire _ 0 7 rfl rfl (by decide))
  have hR := hR.step (.alloc _ 0 rfl (by decide))
  have hR := hR.step (.allocBump _ 0 rfl rfl)
  have hR := hR.step (.bumpEpoch _ 0 rfl)
  -- epoch 2: thread 1 reserves the epoch and obtains the second object
  have hR := hR.step (.link _ 8 2 rfl le_rfl)
  have hR := hR.step (.write _ () ⟨some 8, 0⟩)
  have hR := hR.step (.callRead _ 1 0 () rfl)
  have hR := hR.step (.readLoad _ 1 0 () _ rfl)
  have hR := hR.step (.readMove _ 1 0 () _ _ _ rfl (by decide))
  have hR := hR.step (.readStore _ 1 0 () _ rfl)
  have hR := hR.step (.readLoad _ 1 0 () _ rfl)
  have hR := hR.step (.readReturn _ 1 0 () _ _ _ rfl rfl)
  -- thread 0 retires it and copies the slots
  have hR := hR.step (.unlink _ 8 rfl)
  have hR := hR.step (.retireEmpty _ 0 8 rfl rfl rfl)
  have hR := hR.step (.snapshot _ 0 0 0 rfl)
  have hR := hR.step (.snapshot _ 0 0 1 rfl)
  have hR := hR.step (.snapshot _ 0 0 2 rfl)
  have hR := hR.step (.snapshot _ 0 1 0 rfl)
  have hR := hR.step (.snapshot _ 0 1 1 rfl)
  have hR := hR.step (.snapshot _ 0 1 2 rfl)
  have hR := hR.step (.snapshotEnd _ 0 rfl)
  refine safe hR rfl rfl rfl fun u e => ?_
  -- the one slot in use has an epoch after the retirement
  match u, e with
  | 1, 0 => exact .inr (.inl (Nat.lt_succ_self 1))
  | 1, 1 => exact .inr (.inr rfl)
  | 1, 2 => exact .inr (.inr rfl)
  | 0, 0 => exact .inr (.inr rfl)
  | 0, 1 => exact .inr (.inr rfl)
  | 0, 2 => exact .inr (.inr rfl)

end He
end PopSetbench

import PopSetbench.Reclaim.Ibr2ge

/-!
# Interval-based reclamation: freeing is safe

`ibr2ge_safe`: in every run, no object that `empty` passes to the pool is one that some thread has
obtained with `read`, while it was reachable, during an operation that has not ended.

During an operation both bounds of the thread are epochs of the past. A `read` that returns has
found the epoch to be the upper bound after loading the pointer. The object was reachable in
between, so it was born no later than the upper bound, and it can be retired only in an epoch that
is not before the lower one. From the load on, the bounds shield the object if the epoch is still
the upper bound when `read` looks at it (`Own`).
-/

namespace PopSetbench
namespace Ibr2ge

open Function

variable {n : ℕ} {Obj Loc : Type}

/-- What thread `t` knows at each point of the code. -/
def Own (s : State n Obj Loc) (t : Fin n) : Pc Obj Loc → Prop
  | .startLower e => s.inOp t = false ∧ (∀ o, s.held t o = false) ∧ e ≤ s.epoch
  | .startUpper e => s.inOp t = false ∧ (∀ o, s.held t o = false) ∧ s.lowerReservs t ≤ s.epoch ∧
      e ≤ s.epoch
  | .endLower => s.inOp t = false
  | .readLoad _ prev => s.inOp t = true ∧ s.upperReservs t = prev
  | .readEpoch _ prev ptr reachable => s.inOp t = true ∧ s.upperReservs t = prev ∧
      (reachable = true → (s.epoch : ℕ∞) = prev → ∀ o, ptr.obj = some o →
        s.view.Shields t guard o)
  | .readStore _ curr => s.inOp t = true ∧ s.upperReservs t ≤ curr ∧ curr ≤ s.epoch
  | _ => s.inOp t = false → ∀ o, s.held t o = false

/-- **The invariant.** -/
structure Inv (s : State n Obj Loc) : Prop where
  eras : s.view.Inv
  /-- During an operation, the bounds are epochs of the past. -/
  bounds_le : ∀ t, s.inOp t = true → s.lowerReservs t ≤ s.epoch ∧ s.upperReservs t ≤ s.epoch
  /-- The bounds shield what was obtained. -/
  held : ∀ u o, s.held u o = true → s.view.Shields u guard o
  own : ∀ t, Own s t (s.pc t)

theorem Inv.initial : Inv (State.initial n Obj Loc) where
  eras := ⟨Custody.nil _, fun _ _ => Nat.zero_le _⟩
  bounds_le _ h := nomatch h
  held _ _ h := nomatch h
  own _ := fun _ _ => rfl

variable [DecidableEq Obj] [DecidableEq Loc] {cfg : Config} {s s' : State n Obj Loc}
  {a : Actor n} {t u : Fin n} {o : Obj}

theorem Step.epoch_le (hstep : Step cfg s a s') : s.epoch ≤ s'.epoch := by
  rcases hstep.eras with heq | h
  · exact le_of_eq (congrArg Eras.clock heq).symm
  · exact h.clock_le

/-- What belongs to thread `t` is changed by its own steps only. -/
structure Frame (s s' : State n Obj Loc) (t : Fin n) : Prop where
  lower : s'.lowerReservs t = s.lowerReservs t
  upper : s'.upperReservs t = s.upperReservs t
  inOp : s'.inOp t = s.inOp t
  held : s'.held t = s.held t
  pc : s'.pc t = s.pc t

theorem Step.frame (hstep : Step cfg s a s') (ha : a ≠ .thread t) : Frame s s' t := by
  cases hstep with
  | write | link | unlink => exact ⟨rfl, rfl, rfl, rfl, rfl⟩
  | _ =>
    have ht : t ≠ _ := fun h => ha (congrArg Actor.thread h.symm)
    refine ⟨?_, ?_, ?_, ?_, ?_⟩ <;> first | rfl | exact update_of_ne ht _ _

/-- An interval that does not shrink goes on to shield what it shields. -/
theorem Step.shields (hI : Inv s) (hstep : Step cfg s a s')
    (hlower : s'.lowerReservs u = s.lowerReservs u) (hupper : s.upperReservs u ≤ s'.upperReservs u)
    (h : s.view.Shields u guard o) : s'.view.Shields u guard o := by
  rcases hstep.eras with heq | hs
  · rw [heq]
    exact h
  · refine h.step hI.eras hs (fun b r i hg => ?_) (fun b r r' i v hr hg => guard_later hr hg)
      fun temp x hf => not_guard_of_freeable hf u
    by_cases hi : i = 0
    · subst hi
      have hslot : s'.view.slot u 0 = s.view.slot u 0 := hlower
      rw [hslot]
      exact hg
    · obtain rfl : i = 1 := by omega
      exact le_trans hg hupper

/-- **Interference freedom.** What a thread knows survives the steps of others. -/
theorem Own.frame (hI : Inv s) (hstep : Step cfg s a s') (hf : Frame s s' t) {p : Pc Obj Loc}
    (h : Own s t p) : Own s' t p := by
  have hle := hstep.epoch_le
  have hle' : (s.epoch : ℕ∞) ≤ s'.epoch := by exact_mod_cast hle
  have out : (s.inOp t = false → ∀ o, s.held t o = false) →
      s'.inOp t = false → ∀ o, s'.held t o = false := by
    rw [hf.inOp, hf.held]
    exact id
  cases p with
  | startLower e =>
    obtain ⟨hop, hh, he⟩ := h
    exact ⟨hf.inOp.trans hop, fun o => (congrFun hf.held o).trans (hh o), he.trans hle⟩
  | startUpper e =>
    obtain ⟨hop, hh, hl, he⟩ := h
    refine ⟨hf.inOp.trans hop, fun o => (congrFun hf.held o).trans (hh o), ?_, he.trans hle⟩
    rw [hf.lower]
    exact hl.trans hle'
  | endLower => exact hf.inOp.trans h
  | readLoad l prev => exact ⟨hf.inOp.trans h.1, hf.upper.trans h.2⟩
  | readEpoch l prev ptr reachable =>
    obtain ⟨hop, hprev, hsh⟩ := h
    refine ⟨hf.inOp.trans hop, hf.upper.trans hprev, fun hr he o ho => ?_⟩
    -- the epoch was the upper bound before, too
    have heq : (s.epoch : ℕ∞) = prev := by
      apply le_antisymm
      · exact hle'.trans_eq he
      · rw [← hprev]
        exact (hI.bounds_le t hop).2
    exact hstep.shields hI hf.lower hf.upper.ge (hsh hr heq o ho)
  | readStore l curr =>
    obtain ⟨hop, hu, he⟩ := h
    refine ⟨hf.inOp.trans hop, ?_, he.trans hle⟩
    rw [hf.upper]
    exact hu
  | idle => exact out h
  | bumpEpoch => exact out h
  | copyLower i => exact out h
  | copyUpper i => exact out h
  | scan pos => exact out h

/-- What is held after the step is shielded. -/
theorem Step.held (hI : Inv s) (hstep : Step cfg s a s') (h : s'.held u o = true) :
    s'.view.Shields u guard o := by
  have old : s.held u o = true → s'.lowerReservs u = s.lowerReservs u →
      s.upperReservs u ≤ s'.upperReservs u → s'.view.Shields u guard o := fun hh hl hu =>
    hstep.shields hI hl hu (hI.held u o hh)
  have hown := hI.own
  cases hstep with
  | startLower t e hpc =>
    have hh : s.held u o = true := h
    by_cases hu : u = t
    · -- nothing is held outside an operation
      subst hu
      have hout := hown u
      rw [hpc] at hout
      rw [hout.2.1 o] at hh
      cases hh
    · exact old hh (update_of_ne hu ..) le_rfl
  | startUpper t e hpc =>
    have hh : s.held u o = true := h
    by_cases hu : u = t
    · subst hu
      have hout := hown u
      rw [hpc] at hout
      rw [hout.2.1 o] at hh
      cases hh
    · exact old hh rfl (update_of_ne hu ..).ge
  | endOp t hpc hop =>
    -- an operation that ends gives up its upper bound first
    have hle : s.upperReservs u ≤ update s.upperReservs t ⊤ u := by
      by_cases hu : u = t
      · subst hu
        rw [update_self]
        exact le_top
      · rw [update_of_ne hu]
    exact old h rfl hle
  | endLower t hpc =>
    -- what was held is given up with the lower bound
    have h : update s.held t (fun _ => false) u o = true := h
    by_cases hu : u = t
    · subst hu
      rw [update_self] at h
      cases h
    · rw [update_of_ne hu] at h
      exact old h (update_of_ne hu ..) le_rfl
  | readReturn t l prev ptr reachable hpc hcurr =>
    have h : update s.held t (fun o => s.held t o || (ptr.obj = some o && reachable)) u o = true :=
      h
    by_cases hu : u = t
    · subst hu
      rw [update_self, Bool.or_eq_true] at h
      rcases h with hh | hnew
      · exact old hh rfl le_rfl
      · -- the epoch is the one that the upper bound has been since before the pointer was loaded
        rw [Bool.and_eq_true, decide_eq_true_eq] at hnew
        have hpt := hown u
        rw [hpc] at hpt
        have hsh := hpt.2.2 hnew.2 hcurr o hnew.1
        exact Step.shields hI (.readReturn s u l prev ptr reachable hpc hcurr : Step cfg s _ _)
          rfl le_rfl hsh
    · rw [update_of_ne hu] at h
      exact old h rfl le_rfl
  | readStore t l curr hpc =>
    -- the upper bound only grows
    have hle : s.upperReservs u ≤ update s.upperReservs t (curr : ℕ∞) u := by
      by_cases hu : u = t
      · subst hu
        have hcurr := hown u
        rw [hpc] at hcurr
        rw [update_self]
        exact hcurr.2.1
      · rw [update_of_ne hu]
    exact old h rfl hle
  | _ => exact old h rfl le_rfl

/-- The bounds after a step. -/
theorem Step.bounds_le (hI : Inv s) (hstep : Step cfg s a s') (hop' : s'.inOp u = true) :
    s'.lowerReservs u ≤ s'.epoch ∧ s'.upperReservs u ≤ s'.epoch := by
  have hle : (s.epoch : ℕ∞) ≤ s'.epoch := by exact_mod_cast hstep.epoch_le
  have old : s.inOp u = true → s.lowerReservs u ≤ s'.epoch ∧ s.upperReservs u ≤ s'.epoch :=
    fun h => ⟨(hI.bounds_le u h).1.trans hle, (hI.bounds_le u h).2.trans hle⟩
  have other : ∀ {f : Fin n → ℕ∞} {t : Fin n} {v b : ℕ∞}, u ≠ t → f u ≤ b → update f t v u ≤ b := by
    intro f t v b hu h
    rwa [update_of_ne hu]
  have hown := hI.own
  cases hstep with
  | startLower t e hpc =>
    -- outside an operation the bounds may be anything
    by_cases hu : u = t
    · subst hu
      have hout := hown u
      rw [hpc] at hout
      have hop' : s.inOp u = true := hop'
      rw [hout.1] at hop'
      cases hop'
    · exact ⟨other hu (old hop').1, (old hop').2⟩
  | startUpper t e hpc =>
    -- both bounds have been written, and the epoch may only have moved on
    have hop' : update s.inOp t true u = true := hop'
    by_cases hu : u = t
    · subst hu
      have hout := hown u
      rw [hpc] at hout
      obtain ⟨-, -, hl, he⟩ := hout
      refine ⟨hl, ?_⟩
      show update s.upperReservs u (e : ℕ∞) u ≤ s.epoch
      rw [update_self]
      exact_mod_cast he
    · rw [update_of_ne hu] at hop'
      exact ⟨(old hop').1, other hu (old hop').2⟩
  | endOp t hpc hop =>
    have hop' : update s.inOp t false u = true := hop'
    by_cases hu : u = t
    · subst hu
      rw [update_self] at hop'
      cases hop'
    · rw [update_of_ne hu] at hop'
      exact ⟨(old hop').1, other hu (old hop').2⟩
  | endLower t hpc =>
    by_cases hu : u = t
    · subst hu
      have hout := hown u
      rw [hpc] at hout
      have hop' : s.inOp u = true := hop'
      rw [hout] at hop'
      cases hop'
    · exact ⟨other hu (old hop').1, (old hop').2⟩
  | readStore t l curr hpc =>
    -- the epoch that was read is not above the present one
    by_cases hu : u = t
    · subst hu
      have hcurr := hown u
      rw [hpc] at hcurr
      refine ⟨(old hop').1, ?_⟩
      show update s.upperReservs u (curr : ℕ∞) u ≤ s.epoch
      rw [update_self]
      exact_mod_cast hcurr.2.2
    · exact ⟨(old hop').1, other hu (old hop').2⟩
  | _ => exact old hop'

/-- What the acting thread knows afterwards. -/
theorem Step.own (hI : Inv s) (hstep : Step cfg s a s') (ha : a = .thread t) :
    Own s' t (s'.pc t) := by
  have hown := hI.own
  cases hstep with
  | write | link | unlink => cases ha
  | alloc t' hpc hmod | allocBump t' hpc hmod | bumpEpoch t' hpc | retire t' o hpc ho hfreq
  | retireEmpty t' o hpc ho hfreq | copyLower t' i hpc | copyUpper t' i hpc | copied t' hpc
  | scanKeep t' pos res hpc ho hkeep | scanFree t' pos res hpc ho hfree | scanEnd t' pos hpc ho =>
    -- inside or outside an operation, as before
    obtain rfl := Actor.thread.inj ha
    have hout := hown t'
    rw [hpc] at hout
    first
    | (show Own _ t' (s.pc t')
       rw [hpc]
       exact hout)
    | (show Own _ t' (update s.pc t' _ t')
       rw [update_self]
       exact hout)
  | startOp t' hpc hop =>
    -- the epoch that is read now bounds both
    obtain rfl := Actor.thread.inj ha
    have hout := hown t'
    rw [hpc] at hout
    show Own _ t' (update s.pc t' _ t')
    rw [update_self]
    exact ⟨hop, hout hop, le_refl s.epoch⟩
  | startLower t' e hpc =>
    obtain rfl := Actor.thread.inj ha
    have hout := hown t'
    rw [hpc] at hout
    obtain ⟨hop, hh, he⟩ := hout
    show Own _ t' (update s.pc t' _ t')
    rw [update_self]
    refine ⟨hop, hh, ?_, he⟩
    show update s.lowerReservs t' (e : ℕ∞) t' ≤ s.epoch
    rw [update_self]
    exact_mod_cast he
  | startUpper t' e hpc =>
    obtain rfl := Actor.thread.inj ha
    show Own _ t' (update s.pc t' _ t')
    rw [update_self]
    intro hop
    have hop : update s.inOp t' true t' = false := hop
    rw [update_self] at hop
    cases hop
  | endOp t' hpc hop =>
    -- the operation is over
    obtain rfl := Actor.thread.inj ha
    show Own _ t' (update s.pc t' _ t')
    rw [update_self]
    exact update_self ..
  | endLower t' hpc =>
    obtain rfl := Actor.thread.inj ha
    show Own _ t' (update s.pc t' _ t')
    rw [update_self]
    intro hop o
    show update s.held t' (fun _ => false) t' o = false
    rw [update_self]
  | callRead t' l hpc hop =>
    obtain rfl := Actor.thread.inj ha
    show Own _ t' (update s.pc t' _ t')
    rw [update_self]
    exact ⟨hop, rfl⟩
  | readLoad t' l prev hpc =>
    -- the pointer is loaded, and the object was reachable just then
    obtain rfl := Actor.thread.inj ha
    have hprev := hown t'
    rw [hpc] at hprev
    obtain ⟨hop, hprev⟩ := hprev
    show Own _ t' (update s.pc t' _ t')
    rw [update_self]
    refine ⟨hop, hprev, fun hr he o ho => ?_⟩
    have ho : (s.mem l).obj = some o := ho
    rw [ho, Option.any_some, decide_eq_true_eq] at hr
    -- the object is reachable, so its birth is not after the upper bound
    have hsh : s.view.Shields t' guard o := by
      apply Eras.Shields.of_linked hI.eras hr
      intro i
      by_cases hi : i = 0
      · subst hi
        exact (hI.bounds_le t' hop).1
      · obtain rfl : i = 1 := by omega
        have hres : s.view.slot t' 1 = s.epoch := hprev.trans he.symm
        rw [hres]
        have hbirth := hI.eras.birth_le o (by simp [State.view, hr])
        exact Nat.cast_le.mpr hbirth
    exact Step.shields hI (.readLoad s t' l prev hpc : Step cfg s _ _) rfl le_rfl hsh
  | readReturn t' l prev ptr reachable hpc hcurr =>
    obtain rfl := Actor.thread.inj ha
    have hpt := hown t'
    rw [hpc] at hpt
    show Own _ t' (update s.pc t' _ t')
    rw [update_self]
    intro hop
    have hop : s.inOp t' = false := hop
    rw [hpt.1] at hop
    cases hop
  | readMove t' l prev ptr reachable hpc hcurr =>
    obtain rfl := Actor.thread.inj ha
    have hpt := hown t'
    rw [hpc] at hpt
    show Own _ t' (update s.pc t' _ t')
    rw [update_self]
    exact ⟨hpt.1, (hI.bounds_le t' hpt.1).2, le_refl s.epoch⟩
  | readStore t' l curr hpc =>
    -- the upper bound is the epoch that was read
    obtain rfl := Actor.thread.inj ha
    have hpt := hown t'
    rw [hpc] at hpt
    show Own _ t' (update s.pc t' _ t')
    rw [update_self]
    refine ⟨hpt.1, ?_⟩
    show update s.upperReservs t' (curr : ℕ∞) t' = curr
    rw [update_self]

/-- **Invariant preservation.** -/
theorem Inv.step (hI : Inv s) (hstep : Step cfg s a s') : Inv s' where
  eras := by
    rcases hstep.eras with heq | hs
    · rw [heq]
      exact hI.eras
    · exact hI.eras.step hs
  bounds_le u hop := hstep.bounds_le hI hop
  held u o h := hstep.held hI h
  own t := by
    by_cases ha : a = .thread t
    · exact hstep.own hI ha
    · have hf := hstep.frame ha
      rw [hf.pc]
      exact (hI.own t).frame hI hstep hf

theorem Inv.of_reachable (h : (system cfg).Reachable s) : Inv s := by
  refine h.invariant ?_ fun s a s' _ hI _ hs => hI.step hs
  rintro s rfl
  exact Inv.initial

/-- **Interval-based reclamation is safe.** What `empty` passes to the pool was not obtained with
`read`, while it was reachable, during an operation that has not ended. -/
theorem ibr2ge_safe (h : (system cfg).Reachable s) {res : IntervalInfo Obj}
    (hfree : PassesToPool s t res) (u : Fin n) : s.held u res.obj = false := by
  obtain ⟨pos, hpc, hget, hfr⟩ := hfree
  have hI := Inv.of_reachable h
  rw [← Bool.not_eq_true]
  intro hheld
  have hcop : (s.pc t).copied n = n * 2 := by rw [hpc]; rfl
  obtain ⟨i, hi⟩ := not_guard_of_freeable (State.freeable_iff.mpr hfr) u
  exact hi ((hI.held u res.obj hheld).temp (List.mem_of_getElem? hget) hcop i)

/-- With two threads, object `7` is retired in epoch 0. In epoch 1 thread `1` obtains object `8` in
an operation, and thread `0` retires it in another one. Its `empty` copies the interval of thread
`1`, and is about to free object `7`, while thread `1` holds object `8`. -/
theorem ibr2ge_safe_of_freed : ∃ (s : State 2 ℕ Unit) (res : IntervalInfo ℕ),
    (system ⟨2, 1⟩).Reachable s ∧ s.inOp 1 = true ∧ s.held 1 8 = true ∧
      PassesToPool s 0 res ∧ ∀ u, s.held u res.obj = false := by
  have safe : ∀ {s : State 2 ℕ Unit}, (system ⟨2, 1⟩).Reachable s → s.inOp 1 = true →
      s.held 1 8 = true → s.pc 0 = .scan 0 → (s.retired 0)[0]? = some ⟨7, 0, 0⟩ →
      (∀ i, s.lowerEpochsArr 0 i = 1) → ∃ (s : State 2 ℕ Unit) (res : IntervalInfo ℕ),
        (system ⟨2, 1⟩).Reachable s ∧ s.inOp 1 = true ∧ s.held 1 8 = true ∧
          PassesToPool s 0 res ∧ ∀ u, s.held u res.obj = false := by
    intro s hR hop hheld hpc hget hlower
    -- both intervals begin after the retirement of the object
    have hpass : PassesToPool s 0 ⟨7, 0, 0⟩ := by
      refine ⟨0, hpc, hget, ?_⟩
      rintro ⟨i, -, hle⟩
      rw [hlower i] at hle
      exact absurd hle (by decide)
    exact ⟨s, _, hR, hop, hheld, hpass, ibr2ge_safe hR hpass⟩
  have hR : (system ⟨2, 1⟩).Reachable (State.initial 2 ℕ Unit) := .init rfl
  -- epoch 0: the first object is linked, unlinked and retired
  have hR := hR.step (.link _ 7 0 rfl le_rfl)
  have hR := hR.step (.unlink _ 7 rfl)
  have hR := hR.step (.retire _ 0 7 rfl rfl (by decide))
  have hR := hR.step (.alloc _ 0 rfl (by decide))
  have hR := hR.step (.allocBump _ 0 rfl rfl)
  have hR := hR.step (.bumpEpoch _ 0 rfl)
  -- epoch 1: thread 1 obtains the second object
  have hR := hR.step (.link _ 8 1 rfl le_rfl)
  have hR := hR.step (.write _ () ⟨some 8, 0⟩)
  have hR := hR.step (.startOp _ 1 rfl rfl)
  have hR := hR.step (.startLower _ 1 1 rfl)
  have hR := hR.step (.startUpper _ 1 1 rfl)
  have hR := hR.step (.callRead _ 1 () rfl rfl)
  have hR := hR.step (.readLoad _ 1 () _ rfl)
  have hR := hR.step (.readReturn _ 1 () _ _ _ rfl rfl)
  -- thread 0 unlinks and retires it
  have hR := hR.step (.startOp _ 0 rfl rfl)
  have hR := hR.step (.startLower _ 0 1 rfl)
  have hR := hR.step (.startUpper _ 0 1 rfl)
  have hR := hR.step (.unlink _ 8 rfl)
  have hR := hR.step (.retireEmpty _ 0 8 rfl rfl rfl)
  have hR := hR.step (.copyLower _ 0 0 rfl)
  have hR := hR.step (.copyUpper _ 0 0 rfl)
  have hR := hR.step (.copyLower _ 0 1 rfl)
  have hR := hR.step (.copyUpper _ 0 1 rfl)
  have hR := hR.step (.copied _ 0 rfl)
  exact safe hR rfl rfl rfl rfl fun
    | 0 => rfl
    | 1 => rfl

end Ibr2ge
end PopSetbench

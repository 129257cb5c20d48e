import PopSetbench.Reclaim.Ibr2gePopPlusBase
import PopSetbench.Reclaim.Ibr2gePopPlusSchedule

/-!
# IBR-POP+: what frees rely on

The bounds that `empty` copies may be out of date. A thread that shows an interval from before the
retirement of an object may be using the object. There are three ways to this:

* the confirmation loop goes on when somebody has not published (`interval_missed`);
* the low watermark takes a new value of `publishing_epoch` for the news that everybody has
  published, but it is stored when the pings are sent, not when they are handled;
* it goes through the whole list, also through objects that were retired after everybody has
  published.

In the other runs frees are safe: `ibr2gePopPlus_safe`. An operation that runs since before the
retirement of an object has a lower bound that is at most the object's retire epoch, and if it has
read the object while it was reachable, its upper bound is at least the birth epoch. So is what its
thread publishes from the retirement on (`Covered`), and the condition on the run makes sure that it
has published since (`Published`).

A `read` counts on the object from the load of the pointer on, if the epoch is still the upper bound
when it looks at it (`Keeps`).
-/

namespace PopSetbench
namespace Ibr2gePopPlus

open Function

variable {n : ℕ} {Obj Loc : Type}

namespace State

variable (s : State n Obj Loc)

/-- The retired objects of each thread. -/
def objs (t : Fin n) : List Obj := (s.retired t).map IntervalInfo.obj

end State

/-- Thread `u` counts on the object: `read` has returned it, or will if the epoch stays. -/
def Keeps (s : State n Obj Loc) (u : Fin n) (o : Obj) : Prop :=
  s.held u o = true ∨ ∃ l ptr, s.pc u = .readEpoch l s.epoch ptr true ∧ ptr.obj = some o

/-- What thread `u` relies on for that. -/
structure Kept (s : State n Obj Loc) (u : Fin n) (o : Obj) : Prop where
  inOp : s.inOp u = true
  alive : s.life o ≠ .pooled
  birth_le : s.birthEpoch o ≤ s.localUpper u

/-- What is known of thread `u` and an object that is still in a list. -/
structure Covered (s : State n Obj Loc) (u : Fin n) (res : IntervalInfo n Obj) : Prop where
  begun_le : res.begun u ≤ s.begun u
  running : Keeps s u res.obj → s.RunningSince u res
  lower : s.RunningSince u res → (s.lowerCopy u).Since (· ≤ res.retireEpoch) (res.pubs u)
  upper : Keeps s u res.obj → (s.upperCopy u).Since (res.birthEpoch ≤ ·) (res.pubs u)

/-- Every object in the list was retired before `mypublishingTS` of `u` was sampled. -/
def Sampled (s : State n Obj Loc) (t u : Fin n) : Prop :=
  ∀ res ∈ s.retired t, res.pubs u ≤ s.scannedPubs t u

/-- Thread `u` has published since `t` sampled its `mypublishingTS`. -/
def Moved (s : State n Obj Loc) (t u : Fin n) : Prop := s.scannedPubs t u < s.pubs u

/-- The objects that `empty` may free: at the low watermark those that were retired before a round
which thread `t` knows to have ended. -/
def Batch (s : State n Obj Loc) (t : Fin n) : Path → IntervalInfo n Obj → Prop
  | .hiWm, _ => True
  | .loWm, res => Signalled s t res

/-- Everybody has published since the retirement of the objects that `empty` may free. -/
def Published (s : State n Obj Loc) (t : Fin n) (path : Path) : Prop :=
  ∀ res ∈ s.retired t, Batch s t path res → ∀ u, res.pubs u < s.pubs u

/-- The lower bound that `empty` of thread `t` has copied from thread `u` rules out no object that
was retired during the operation of `u`. -/
def SeenLower (s : State n Obj Loc) (t u : Fin n) (path : Path) : Prop :=
  ∀ res ∈ s.retired t, Batch s t path res → s.RunningSince u res →
    s.lowerEpochsArr t u ≤ res.retireEpoch

/-- The upper bound that it has copied rules out no object that `u` counts on. -/
def SeenUpper (s : State n Obj Loc) (t u : Fin n) (path : Path) : Prop :=
  ∀ res ∈ s.retired t, Batch s t path res → Keeps s u res.obj →
    res.birthEpoch ≤ s.upperEpochsArr t u

/-- What is known of thread `t` at each point of the code. -/
def Own (s : State n Obj Loc) (t : Fin n) : Pc Obj Loc → Prop
  | .startLower e => s.inOp t = false ∧ e ≤ s.epoch
  | .startUpper e => s.inOp t = false ∧ s.localLower t = e ∧ e ≤ s.epoch
  | .endUpper => s.inOp t = false
  | .readLoad _ prev => s.inOp t = true ∧ s.localUpper t = prev
  | .readEpoch _ prev _ _ => s.inOp t = true ∧ s.localUpper t = prev
  | .readStore _ curr => s.inOp t = true ∧ s.localUpper t ≤ curr ∧ curr ≤ s.epoch
  | .sample i => ∀ u : Fin n, u.val < i → Sampled s t u
  | .publish _ => ∀ u, Sampled s t u
  | .ping _ => (∀ u, Sampled s t u) ∧ Moved s t t
  | .announce => (∀ u, Sampled s t u) ∧ Moved s t t
  | .save => (∀ u, Sampled s t u) ∧ Moved s t t
  | .confirm i => (∀ u, Sampled s t u) ∧ Moved s t t ∧ ∀ u : Fin n, u.val < i → Moved s t u
  | .copyLower path i => Published s t path ∧
      ∀ u : Fin n, u.val < i → SeenLower s t u path ∧ SeenUpper s t u path
  | .copyUpper path i => Published s t path ∧
      ∀ u : Fin n, (u.val ≤ i → SeenLower s t u path) ∧ (u.val < i → SeenUpper s t u path)
  | .scan path _ => ∀ u, SeenLower s t u path ∧ SeenUpper s t u path
  | _ => True

/-- **The invariant.** -/
structure Inv (s : State n Obj Loc) : Prop where
  base : Base s
  /-- The objects in the lists are the retired ones. -/
  custody : Custody s.objs fun o => s.life o = .retired
  birth_le : ∀ o, s.birthEpoch o ≤ s.epoch
  /-- During an operation, the private bounds are epochs of the past. -/
  bounds_le : ∀ u, s.inOp u = true → s.localLower u ≤ s.epoch ∧ s.localUpper u ≤ s.epoch
  kept : ∀ u o, Keeps s u o → Kept s u o
  stamped : ∀ t, ∀ res ∈ s.retired t, res.birthEpoch = s.birthEpoch res.obj
  covered : ∀ t, ∀ res ∈ s.retired t, ∀ u, Covered s u res
  own : ∀ t, Own s t (s.pc t)

theorem Inv.initial {cfg : Config} : Inv (State.initial cfg n Obj Loc) where
  base := Base.initial
  custody := Custody.nil _
  birth_le _ := le_rfl
  bounds_le _ h := nomatch h
  kept := by
    rintro _ _ (h | ⟨_, _, h, -⟩) <;> cases h
  stamped _ _ h := absurd h List.not_mem_nil
  covered _ _ h := absurd h List.not_mem_nil
  own _ := trivial

theorem Inv.life_eq {s : State n Obj Loc} (hI : Inv s) {t : Fin n} {res : IntervalInfo n Obj}
    (hres : res ∈ s.retired t) : s.life res.obj = .retired :=
  hI.custody.prop t res.obj (List.mem_map_of_mem hres)

variable [DecidableEq Obj] [DecidableEq Loc] {cfg : Config} {s s' : State n Obj Loc}
  {a : Actor n} {t u : Fin n} {o : Obj} {res : IntervalInfo n Obj}

/-! ### What a step can do -/

/-- The epoch never goes back. -/
theorem Step.epoch_le (hstep : Step cfg s a s') : s.epoch ≤ s'.epoch := by
  cases hstep with
  | bumpEpoch => exact Nat.le_succ _
  | publish _ p | handlerPublish _ p => cases p <;> exact le_rfl
  | _ => exact le_rfl

/-- What belongs to thread `t` is changed by its own steps only. -/
structure Frame (s s' : State n Obj Loc) (t : Fin n) : Prop where
  pc : s'.pc t = s.pc t
  retired : s'.retired t = s.retired t
  lowerEpochsArr : s'.lowerEpochsArr t = s.lowerEpochsArr t
  upperEpochsArr : s'.upperEpochsArr t = s.upperEpochsArr t
  scannedPubs : s'.scannedPubs t = s.scannedPubs t
  checkedAnn : s'.checkedAnn t = s.checkedAnn t
  inOp : s'.inOp t = s.inOp t
  localLower : s'.localLower t = s.localLower t
  localUpper : s'.localUpper t = s.localUpper t

theorem Step.frame (hstep : Step cfg s a s') (ha : a ≠ .thread t) : Frame s s' t := by
  cases hstep with
  | write | link | unlink | handlerEnter =>
    exact ⟨rfl, rfl, rfl, rfl, rfl, rfl, rfl, rfl, rfl⟩
  | handlerPublish _ p => cases p <;> exact ⟨rfl, rfl, rfl, rfl, rfl, rfl, rfl, rfl, rfl⟩
  | publish u p =>
    have hne : t ≠ u := fun h => ha (h ▸ rfl)
    cases p <;> exact ⟨update_of_ne hne .., rfl, rfl, rfl, rfl, rfl, rfl, rfl, rfl⟩
  | _ u =>
    have hne : t ≠ u := fun h => ha (h ▸ rfl)
    constructor <;> first | rfl | exact update_of_ne hne ..

/-- What a step does to the lists and to the life of objects. -/
theorem Step.custody (hstep : Step cfg s a s') : Custody.Step s.objs s.life s'.objs s'.life := by
  have push : ∀ (u : Fin n) (o : Obj), (fun w => (update s.retired u
      (s.retired u ++ [s.entry o]) w).map IntervalInfo.obj) =
        update s.objs u (s.objs u ++ [o]) := by
    intro u o
    ext1 w
    by_cases hw : w = u
    · subst hw
      simp [State.objs, State.entry]
    · simp [State.objs, update_of_ne hw]
  cases hstep with
  | link o b ho hb => exact .of_update rfl (by simp [ho]) (by simp)
  | unlink o ho => exact .of_update rfl (by simp [ho]) (by simp)
  | retireHiWm u o _ hpc ho | retireEnterLoWm u o _ hpc ho | retireLoWm u o _ hpc ho
  | retire u o _ hpc ho => exact .push u o ho (push u o) rfl
  | scanFree u path pos res _ hpc hget hfree =>
    have hget' : (s.objs u)[pos]? = some res.obj := by simp [State.objs, hget]
    refine .free u pos res.obj hget' ?_ rfl
    ext1 w
    by_cases hw : w = u
    · subst hw
      simp [State.objs, State.passToPool, List.eraseIdx_map]
    · simp [State.objs, State.passToPool, update_of_ne hw]
  | publish _ p | handlerPublish _ p => cases p <;> exact .keep rfl fun _ => Iff.rfl
  | _ => exact .keep rfl fun _ => Iff.rfl

/-- The operations of a thread are counted. -/
theorem Step.operation (hstep : Step cfg s a s') (u : Fin n) :
    (s'.begun u = s.begun u ∧ (s'.inOp u = true → s.inOp u = true)) ∨
      s'.begun u = s.begun u + 1 := by
  cases hstep with
  | startUpper t e _ hpc =>
    by_cases hu : u = t
    · subst hu
      exact .inr (update_self ..)
    · refine .inl ⟨update_of_ne hu .., fun h => ?_⟩
      have h : update s.inOp t true u = true := h
      rwa [update_of_ne hu] at h
  | endOp t _ hpc hin =>
    refine .inl ⟨rfl, fun h => ?_⟩
    have h : update s.inOp t false u = true := h
    by_cases hu : u = t
    · subst hu
      exact hin
    · rwa [update_of_ne hu] at h
  | publish _ p | handlerPublish _ p => cases p <;> exact .inl ⟨rfl, id⟩
  | _ => exact .inl ⟨rfl, id⟩

/-- During an operation none begins. -/
theorem Step.begun (hI : Inv s) (hstep : Step cfg s a s') (hin : s.inOp u = true) :
    s'.begun u = s.begun u := by
  have hown := hI.own
  cases hstep with
  | startUpper t e _ hpc =>
    refine update_of_ne ?_ ..
    rintro rfl
    have hout := hown u
    rw [hpc] at hout
    exact absurd (hout.1.symm.trans hin) (by simp)
  | publish _ p | handlerPublish _ p => cases p <;> rfl
  | _ => rfl

/-- Nobody comes to be inside an operation that was begun earlier. -/
theorem Step.runningSince (hstep : Step cfg s a s') (hle : res.begun u ≤ s.begun u)
    (hrun : s'.RunningSince u res) : s.RunningSince u res := by
  obtain ⟨hin, hrin, heq⟩ := hrun
  rcases hstep.operation u with ⟨hb, hi⟩ | hb
  · exact ⟨hi hin, hrin, heq.trans hb⟩
  · omega

/-- During an operation the lower bound stays. -/
theorem Step.lowerCopy (hI : Inv s) (hstep : Step cfg s a s') (hin : s.inOp u = true)
    (hin' : s'.inOp u = true) :
    s'.lowerCopy u = s.lowerCopy u ∨ s'.lowerCopy u = (s.lowerCopy u).store ∨
      (s'.lowerCopy u = (s.lowerCopy u).count ∧ s.lowerReservs u = s.localLower u) := by
  -- the lower bound of another thread is not written
  have other : ∀ {t : Fin n} {e : ℕ∞}, u ≠ t → (s.setLower t e).lowerCopy u = s.lowerCopy u := by
    intro t e hu
    simp [State.lowerCopy, State.setLower, update_of_ne hu]
  -- a write of `publishReservations`
  have write : ∀ {t : Fin n} {p : Publish}, Publishing s t p →
      (s.publish t p).lowerCopy u = s.lowerCopy u ∨
        (s.publish t p).lowerCopy u = (s.lowerCopy u).store ∨
        ((s.publish t p).lowerCopy u = (s.lowerCopy u).count ∧
          s.lowerReservs u = s.localLower u) := by
    intro t p hpub
    have hstored := hI.base.stored t p hpub
    by_cases hu : u = t
    · subst hu
      cases p with
      | upper => exact .inl rfl
      | lower =>
        right; left
        simp [State.lowerCopy, State.publish, State.storeLower, Copy.store]
      | count =>
        right; right
        refine ⟨?_, hstored.2⟩
        simp [State.lowerCopy, State.publish, State.countPublish, Copy.count]
    · left
      cases p <;> simp [State.lowerCopy, State.publish, State.storeUpper, State.storeLower,
        State.countPublish, update_of_ne hu]
  have hown := hI.own
  cases hstep with
  | startLower t e _ hpc =>
    -- it is written at the beginning of an operation only
    refine .inl (other ?_)
    rintro rfl
    have hout := hown u
    rw [hpc] at hout
    exact absurd (hout.1.symm.trans hin) (by simp)
  | endOp t _ hpc =>
    -- and at its end
    refine .inl (other ?_)
    rintro rfl
    have hin' : update s.inOp u false u = true := hin'
    rw [update_self] at hin'
    cases hin'
  | publish t p _ hpc => exact write (.inr hpc)
  | handlerPublish t p hh => exact write (.inl hh)
  | _ => exact .inl rfl

/-- During an operation the upper bound grows. -/
theorem Step.upperCopy (hI : Inv s) (hstep : Step cfg s a s') (hin : s.inOp u = true) :
    s'.upperCopy u = s.upperCopy u ∨ s'.upperCopy u = (s.upperCopy u).store ∨
      (s'.upperCopy u = (s.upperCopy u).count ∧ s.upperReservs u = s.localUpper u) ∨
      ∃ e, s.localUpper u ≤ e ∧ s'.upperCopy u = (s.upperCopy u).set e := by
  -- the upper bound of another thread is not written
  have other : ∀ {t : Fin n} {e : ℕ∞}, u ≠ t → (s.setUpper t e).upperCopy u = s.upperCopy u := by
    intro t e hu
    simp [State.upperCopy, State.setUpper, update_of_ne hu]
  -- a write of `publishReservations`
  have write : ∀ {t : Fin n} {p : Publish}, Publishing s t p →
      (s.publish t p).upperCopy u = s.upperCopy u ∨
        (s.publish t p).upperCopy u = (s.upperCopy u).store ∨
        ((s.publish t p).upperCopy u = (s.upperCopy u).count ∧
          s.upperReservs u = s.localUpper u) := by
    intro t p hpub
    have hstored := hI.base.stored t p hpub
    by_cases hu : u = t
    · subst hu
      cases p with
      | upper =>
        right; left
        simp [State.upperCopy, State.publish, State.storeUpper, Copy.store]
      | lower => exact .inl rfl
      | count =>
        right; right
        refine ⟨?_, hstored.1⟩
        simp [State.upperCopy, State.publish, State.countPublish, Copy.count]
    · left
      cases p <;> simp [State.upperCopy, State.publish, State.storeUpper, State.storeLower,
        State.countPublish, update_of_ne hu]
  have hown := hI.own
  cases hstep with
  | startUpper t e _ hpc =>
    -- at the beginning of an operation it is written as well
    refine .inl (other ?_)
    rintro rfl
    have hout := hown u
    rw [hpc] at hout
    exact absurd (hout.1.symm.trans hin) (by simp)
  | endUpper t _ hpc =>
    refine .inl (other ?_)
    rintro rfl
    have hout := hown u
    rw [hpc] at hout
    exact absurd (Eq.trans (Eq.symm hout) hin) (by simp)
  | readStore t l curr _ hpc =>
    -- a `read` raises it
    by_cases hu : u = t
    · subst hu
      have hcurr := hown u
      rw [hpc] at hcurr
      refine .inr (.inr (.inr ⟨curr, hcurr.2.1, ?_⟩))
      simp [State.upperCopy, State.setUpper, State.goto, Copy.set]
    · exact .inl (other hu)
  | publish t p _ hpc => exact (write (.inr hpc)).imp id (.imp id .inl)
  | handlerPublish t p hh => exact (write (.inl hh)).imp id (.imp id .inl)
  | _ => exact .inl rfl

/-- So the private bound does. -/
theorem Step.localUpper_le (hI : Inv s) (hstep : Step cfg s a s') (hin : s.inOp u = true) :
    s.localUpper u ≤ s'.localUpper u := by
  have hvalue : ∀ {c : Copy ℕ∞}, s'.upperCopy u = c → s'.localUpper u = c.value :=
    fun h => congrArg Copy.value h
  rcases hstep.upperCopy hI hin with h | h | ⟨h, -⟩ | ⟨e, he, h⟩
  · exact (hvalue h).ge
  · exact (hvalue h).ge
  · exact (hvalue h).ge
  · exact he.trans_eq (hvalue h).symm

/-! ### Objects that a thread counts on -/

/-- A `read` loads a pointer to a reachable object, in the epoch of the upper bound. -/
structure Loads (s s' : State n Obj Loc) (u : Fin n) (o : Obj) : Prop where
  same : ∃ p, s' = s.goto u p
  inOp : s.inOp u = true
  linked : s.life o = .linked
  upper : s.localUpper u = s.epoch

omit [DecidableEq Obj] [DecidableEq Loc] in
/-- A step that leaves no thread about to compare the epoch. -/
theorem Keeps.of_goto {p : Pc Obj Loc} (hk : Keeps s' u o) (hpc : s'.pc = update s.pc t p)
    (hp : ∀ l e ptr r, p ≠ .readEpoch l e ptr r) (hheld : s'.held = s.held)
    (hepoch : s'.epoch = s.epoch) : Keeps s u o := by
  rcases hk with hh | ⟨l, ptr, hload, ho⟩
  · left
    rwa [hheld] at hh
  · right
    rw [hpc, hepoch] at hload
    by_cases hu : u = t
    · subst hu
      rw [update_self] at hload
      exact absurd hload (hp _ _ _ _)
    · rw [update_of_ne hu] at hload
      exact ⟨l, ptr, hload, ho⟩

/-- A thread counts on an object as before, or its `read` has just loaded the pointer. -/
theorem Step.keeps (hI : Inv s) (hstep : Step cfg s a s') (hk : Keeps s' u o) :
    Keeps s u o ∨ Loads s s' u o := by
  have hown := hI.own
  cases hstep with
  | write | link | unlink | handlerEnter => exact .inl hk
  | scanFree => exact .inl hk
  | handlerPublish t p => cases p <;> exact .inl hk
  | publish t p _ hpc => cases p <;> exact .inl (hk.of_goto rfl nofun rfl rfl)
  | alloc t _ hpc =>
    -- an allocation may move the epoch
    refine .inl (hk.of_goto rfl ?_ rfl rfl)
    intro l e ptr r
    split <;> simp
  | bumpEpoch t _ hpc =>
    rcases hk with hh | ⟨l, ptr, hload, ho⟩
    · exact .inl (.inl hh)
    · -- no upper bound is in the new epoch
      have hload : update s.pc t .idle u = .readEpoch l ((s.epoch + 1 : ℕ) : ℕ∞) ptr true := hload
      by_cases hu : u = t
      · subst hu
        rw [update_self] at hload
        cases hload
      · rw [update_of_ne hu] at hload
        have hprev := hown u
        rw [hload] at hprev
        have hle := (hI.bounds_le u hprev.1).2
        rw [hprev.2] at hle
        exact absurd (Nat.cast_le.mp hle) (Nat.not_succ_le_self _)
  | endOp t _ hpc hin =>
    -- at the end of an operation nothing is counted on
    rcases hk with hh | ⟨l, ptr, hload, ho⟩
    · have hh : update s.held t (fun _ => false) u o = true := hh
      by_cases hu : u = t
      · subst hu
        rw [update_self] at hh
        cases hh
      · rw [update_of_ne hu] at hh
        exact .inl (.inl hh)
    · have hload : update s.pc t .endUpper u = .readEpoch l s.epoch ptr true := hload
      by_cases hu : u = t
      · subst hu
        rw [update_self] at hload
        cases hload
      · rw [update_of_ne hu] at hload
        exact .inl (.inr ⟨l, ptr, hload, ho⟩)
  | readLoad t l prev _ hpc =>
    -- the pointer is loaded: the object was reachable at this moment
    rcases hk with hh | ⟨l', ptr, hload, ho⟩
    · exact .inl (.inl hh)
    · have hload : update s.pc t _ u = .readEpoch l' s.epoch ptr true := hload
      by_cases hu : u = t
      · subst hu
        rw [update_self] at hload
        obtain ⟨rfl, rfl, rfl, hlinked⟩ := Pc.readEpoch.inj hload
        rw [ho, Option.any_some, decide_eq_true_eq] at hlinked
        have hprev := hown u
        rw [hpc] at hprev
        exact .inr ⟨⟨_, rfl⟩, hprev.1, hlinked, hprev.2⟩
      · rw [update_of_ne hu] at hload
        exact .inl (.inr ⟨l', ptr, hload, ho⟩)
  | readReturn t l prev ptr reachable _ hpc hcurr =>
    -- the pointer is handed out, if it was reachable
    rcases hk with hh | ⟨l', ptr', hload, ho⟩
    · have hh : update s.held t (fun o => s.held t o || (ptr.obj = some o && reachable)) u o =
        true := hh
      by_cases hu : u = t
      · subst hu
        rw [update_self, Bool.or_eq_true] at hh
        rcases hh with hold | hnew
        · exact .inl (.inl hold)
        · rw [Bool.and_eq_true, decide_eq_true_eq] at hnew
          obtain ⟨ho, rfl⟩ := hnew
          subst hcurr
          exact .inl (.inr ⟨l, ptr, hpc, ho⟩)
      · rw [update_of_ne hu] at hh
        exact .inl (.inl hh)
    · have hload : update s.pc t .idle u = .readEpoch l' s.epoch ptr' true := hload
      by_cases hu : u = t
      · subst hu
        rw [update_self] at hload
        cases hload
      · rw [update_of_ne hu] at hload
        exact .inl (.inr ⟨l', ptr', hload, ho⟩)
  -- other steps add nothing to what is counted on
  | _ => exact .inl (hk.of_goto rfl nofun rfl rfl)

/-- Who counts on an object after a step is inside an operation if it was before. -/
theorem Step.inOp_of_keeps (hstep : Step cfg s a s') (hin : s.inOp u = true)
    (hk : Keeps s' u o) : s'.inOp u = true := by
  cases hstep with
  | startUpper t e _ hpc =>
    show update s.inOp t true u = true
    by_cases hu : u = t
    · subst hu
      exact update_self ..
    · rw [update_of_ne hu]
      exact hin
  | endOp t _ hpc hop =>
    show update s.inOp t false u = true
    by_cases hu : u = t
    · subst hu
      -- nothing is held any longer
      rcases hk with hh | ⟨l, ptr, hload, -⟩
      · have hh : update s.held u (fun _ => false) u o = true := hh
        rw [update_self] at hh
        cases hh
      · have hload : update s.pc u .endUpper u = .readEpoch l s.epoch ptr true := hload
        rw [update_self] at hload
        cases hload
    · rw [update_of_ne hu]
      exact hin
  | publish _ p | handlerPublish _ p => cases p <;> exact hin
  | _ => exact hin

omit [DecidableEq Obj] [DecidableEq Loc] in
/-- An object that was retired before all copied lower bounds. -/
theorem State.isFreeable_of_lt (h : ∀ i, (res.retireEpoch : ℕ∞) < s.lowerEpochsArr t i) :
    s.isFreeable t res :=
  fun ⟨i, _, hle⟩ => absurd hle (not_le.mpr (h i))

omit [DecidableEq Obj] [DecidableEq Loc] in
/-- **Disjoint objects.** Nobody counts on an object that the copied intervals do not meet. -/
theorem Inv.not_keeps (hI : Inv s) (hok : Meets s (.thread t)) {path : Path} {pos : ℕ}
    (hpc : s.pc t = .scan path pos) (hget : (s.retired t)[pos]? = some res)
    (hfree : s.isFreeable t res) (u : Fin n) : ¬ Keeps s u res.obj := by
  intro hk
  have hres := List.mem_of_getElem? hget
  have hbatch : Batch s t path res := by
    cases path with
    | hiWm => trivial
    | loWm => exact hok.signalled t pos res rfl hpc hget hfree
  have hown := hI.own t
  rw [hpc] at hown
  have hrun := (hI.covered t res hres u).running hk
  exact hfree ⟨u, (hown u).2 res hres hbatch hk, (hown u).1 res hres hbatch hrun⟩

/-- An object that somebody counts on is not freed. -/
theorem Step.alive (hI : Inv s) (hok : Meets s a) (hstep : Step cfg s a s') (hk : Keeps s u o) :
    s'.life o ≠ .pooled := by
  have halive := (hI.kept u o hk).alive
  have other : ∀ {o' : Obj} {l : Life}, l ≠ .pooled → update s.life o' l o ≠ .pooled := by
    intro o' l hl
    by_cases heq : o = o'
    · subst heq
      rwa [update_self]
    · rwa [update_of_ne heq]
  cases hstep with
  | link | unlink | retireHiWm | retireEnterLoWm | retireLoWm | retire =>
    exact other (by simp)
  | scanFree t path pos res _ hpc hget hfree =>
    have hne : o ≠ res.obj := by
      rintro rfl
      exact hI.not_keeps hok hpc hget hfree u hk
    show update s.life res.obj .pooled o ≠ .pooled
    rwa [update_of_ne hne]
  | publish _ p | handlerPublish _ p => cases p <;> exact halive
  | _ => exact halive

/-- The birth epoch of an object changes only when it leaves the pool. -/
theorem Step.birthEpoch (hstep : Step cfg s a s') (halive : s.life o ≠ .pooled) :
    s'.birthEpoch o = s.birthEpoch o := by
  cases hstep with
  | link o' b ho =>
    have hne : o ≠ o' := by
      rintro rfl
      exact halive ho
    exact update_of_ne hne ..
  | publish _ p | handlerPublish _ p => cases p <;> rfl
  | _ => rfl

theorem Inv.kept_step (hI : Inv s) (hok : Meets s a) (hstep : Step cfg s a s')
    (hk : Keeps s' u o) : Kept s' u o := by
  rcases hstep.keeps hI hk with hold | ⟨⟨p, rfl⟩, hin, hlinked, hupper⟩
  · have hkept := hI.kept u o hold
    refine ⟨hstep.inOp_of_keeps hkept.inOp hk, hstep.alive hI hok hold, ?_⟩
    rw [hstep.birthEpoch hkept.alive]
    exact hkept.birth_le.trans (hstep.localUpper_le hI hkept.inOp)
  · refine ⟨hin, ?_, ?_⟩
    · show s.life o ≠ .pooled
      simp [hlinked]
    · -- it was born in an epoch of the past
      show (s.birthEpoch o : ℕ∞) ≤ s.localUpper u
      rw [hupper]
      exact Nat.cast_le.mpr (hI.birth_le o)

theorem Inv.birth_le_step (hI : Inv s) (hstep : Step cfg s a s') (o : Obj) :
    s'.birthEpoch o ≤ s'.epoch := by
  have hle := (hI.birth_le o).trans hstep.epoch_le
  cases hstep with
  | link o' b ho hb =>
    show update s.birthEpoch o' b o ≤ s.epoch
    by_cases heq : o = o'
    · subst heq
      rwa [update_self]
    · rw [update_of_ne heq]
      exact hI.birth_le o
  | publish _ p | handlerPublish _ p => cases p <;> exact hle
  | _ => exact hle

theorem Inv.bounds_le_step (hI : Inv s) (hstep : Step cfg s a s') (hin' : s'.inOp u = true) :
    s'.localLower u ≤ s'.epoch ∧ s'.localUpper u ≤ s'.epoch := by
  have hle : (s.epoch : ℕ∞) ≤ s'.epoch := Nat.cast_le.mpr hstep.epoch_le
  by_cases ha : a = .thread u
  · subst ha
    have old : s.inOp u = true → s.localLower u ≤ s'.epoch ∧ s.localUpper u ≤ s'.epoch :=
      fun h => ⟨(hI.bounds_le u h).1.trans hle, (hI.bounds_le u h).2.trans hle⟩
    have hown := hI.own u
    cases hstep with
    | startLower _ e _ hpc =>
      rw [hpc] at hown
      exact absurd (hown.1.symm.trans hin') (by simp)
    | startUpper _ e _ hpc =>
      rw [hpc] at hown
      obtain ⟨-, hlower, he⟩ := hown
      refine ⟨hlower.trans_le (Nat.cast_le.mpr he), ?_⟩
      show update s.localUpper u (e : ℕ∞) u ≤ s.epoch
      rw [update_self]
      exact Nat.cast_le.mpr he
    | endOp _ _ hpc =>
      have hin' : update s.inOp u false u = true := hin'
      rw [update_self] at hin'
      cases hin'
    | endUpper _ _ hpc =>
      rw [hpc] at hown
      exact absurd (Eq.trans (Eq.symm hown) hin') (by simp)
    | readStore _ l curr _ hpc =>
      rw [hpc] at hown
      refine ⟨(old hin').1, ?_⟩
      show update s.localUpper u (curr : ℕ∞) u ≤ s.epoch
      rw [update_self]
      exact Nat.cast_le.mpr hown.2.2
    | publish _ p => cases p <;> exact old hin'
    | _ => exact old hin'
  · have hf := hstep.frame ha
    rw [hf.inOp] at hin'
    rw [hf.localLower, hf.localUpper]
    exact ⟨(hI.bounds_le u hin').1.trans hle, (hI.bounds_le u hin').2.trans hle⟩

theorem Inv.stamped_step (hI : Inv s) (hstep : Step cfg s a s') (hres : res ∈ s'.retired t) :
    res.birthEpoch = s'.birthEpoch res.obj := by
  rcases hstep.mem_retired hres with hold | ⟨o, rfl, hret⟩
  · rw [hstep.birthEpoch (by simp [hI.life_eq hold])]
    exact hI.stamped t res hold
  · rw [hret.birthEpoch]
    rfl

/-! ### Retired objects -/

/-- Nobody begins to count on a retired object. -/
theorem Step.keeps_retired (hI : Inv s) (hstep : Step cfg s a s') (hres : res ∈ s.retired t)
    (hk : Keeps s' u res.obj) : Keeps s u res.obj := by
  refine (hstep.keeps hI hk).resolve_right fun hload => ?_
  have hlife := hI.life_eq hres
  rw [hload.linked] at hlife
  cases hlife

theorem Covered.step (hI : Inv s) (hstep : Step cfg s a s') (hres : res ∈ s.retired t)
    (hC : Covered s u res) : Covered s' u res where
  begun_le := by
    have hle := hC.begun_le
    rcases hstep.operation u with ⟨hb, -⟩ | hb <;> omega
  running hk := by
    have hrun := hC.running (hstep.keeps_retired hI hres hk)
    exact ⟨hstep.inOp_of_keeps hrun.1 hk, hrun.2.1, hrun.2.2.trans (hstep.begun hI hrun.1).symm⟩
  lower hrun := by
    have hold := hstep.runningSince hC.begun_le hrun
    rcases hstep.lowerCopy hI hold.1 hrun.1 with h | h | ⟨h, hshown⟩
    · rw [h]
      exact hC.lower hold
    · rw [h]
      exact (hC.lower hold).store
    · rw [h]
      exact (hC.lower hold).count hshown
  upper hk := by
    have hold := hstep.keeps_retired hI hres hk
    have hin := (hI.kept u _ hold).inOp
    rcases hstep.upperCopy hI hin with h | h | ⟨h, hshown⟩ | ⟨e, he, h⟩
    · rw [h]
      exact hC.upper hold
    · rw [h]
      exact (hC.upper hold).store
    · rw [h]
      exact (hC.upper hold).count hshown
    · rw [h]
      exact (hC.upper hold).set ((hC.upper hold).value.trans he)

theorem Inv.covered_step (hI : Inv s) (hstep : Step cfg s a s') (hres : res ∈ s'.retired t) :
    Covered s' u res := by
  rcases hstep.mem_retired hres with hold | ⟨o, rfl, hret⟩
  · exact (hI.covered t res hold u).step hI hstep hold
  · have old : Keeps s' u o → Kept s u o := by
      intro hk
      refine hI.kept u o ((hstep.keeps hI hk).resolve_right fun hload => ?_)
      have hlife := hret.life
      rw [hload.linked] at hlife
      cases hlife
    exact
      { begun_le := hret.begun ▸ le_rfl
        running := fun hk =>
          ⟨hret.inOp ▸ (old hk).inOp, (old hk).inOp, (congrFun hret.begun u).symm⟩
        lower := fun hrun => by
          rw [hret.lowerCopy]
          exact .now (hI.bounds_le u (hret.inOp ▸ hrun.1)).1
        upper := fun hk => by
          rw [hret.upperCopy]
          exact .now (old hk).birth_le }

/-! ### What a thread knows -/

/-- What the assertions about the list and the copies of thread `t` speak of is unchanged. -/
structure Same (s s' : State n Obj Loc) (t : Fin n) : Prop where
  sub : ∀ res ∈ s'.retired t, res ∈ s.retired t
  scannedPubs : s'.scannedPubs t = s.scannedPubs t
  checkedAnn : s'.checkedAnn t = s.checkedAnn t

omit [DecidableEq Obj] [DecidableEq Loc] in
theorem Same.batch (h : Same s s' t) {path : Path} (hb : Batch s' t path res) :
    Batch s t path res := by
  cases path with
  | hiWm => trivial
  | loWm =>
    obtain ⟨i, hround⟩ := hb
    rw [h.checkedAnn] at hround
    exact ⟨i, hround⟩

omit [DecidableEq Obj] [DecidableEq Loc] in
theorem Sampled.step (h : Same s s' t) (hS : Sampled s t u) : Sampled s' t u := by
  intro res hres
  rw [h.scannedPubs]
  exact hS res (h.sub res hres)

theorem Moved.step (hstep : Step cfg s a s') (h : Same s s' t) (hM : Moved s t u) :
    Moved s' t u := by
  unfold Moved
  rw [h.scannedPubs]
  exact Nat.lt_of_lt_of_le hM (hstep.pubs_le u)

theorem Published.step {path : Path} (hstep : Step cfg s a s') (h : Same s s' t)
    (hP : Published s t path) : Published s' t path :=
  fun res hres hb u => (hP res (h.sub res hres) (h.batch hb) u).trans_le (hstep.pubs_le u)

/-- A step in which this lower bound is not copied. -/
theorem SeenLower.step {path : Path} (hI : Inv s) (hstep : Step cfg s a s') (h : Same s s' t)
    (harr : s'.lowerEpochsArr t u = s.lowerEpochsArr t u) (hS : SeenLower s t u path) :
    SeenLower s' t u path := by
  intro res hres hb hrun
  rw [harr]
  have hold := h.sub res hres
  exact hS res hold (h.batch hb) (hstep.runningSince (hI.covered t res hold u).begun_le hrun)

/-- A step in which this upper bound is not copied. -/
theorem SeenUpper.step {path : Path} (hI : Inv s) (hstep : Step cfg s a s') (h : Same s s' t)
    (harr : s'.upperEpochsArr t u = s.upperEpochsArr t u) (hS : SeenUpper s t u path) :
    SeenUpper s' t u path := by
  intro res hres hb hk
  rw [harr]
  have hold := h.sub res hres
  exact hS res hold (h.batch hb) (hstep.keeps_retired hI hold hk)

omit [DecidableEq Obj] [DecidableEq Loc] in
/-- **The copy of a lower bound.** -/
theorem Inv.seenLower {path : Path} (hI : Inv s) (hP : Published s t path) {p : Pc Obj Loc} :
    SeenLower ((s.copyLower t u).goto t p) t u path := by
  intro res hres hb hrun
  have hb : Batch s t path res := by cases path <;> exact hb
  show update s.lowerEpochsArr t _ t u ≤ _
  rw [update_self, update_self]
  exact ((hI.covered t res hres u).lower hrun).shown (hP res hres hb u)

omit [DecidableEq Obj] [DecidableEq Loc] in
/-- **The copy of an upper bound.** -/
theorem Inv.seenUpper {path : Path} (hI : Inv s) (hP : Published s t path) {p : Pc Obj Loc}
    (hp : ∀ l e ptr r, p ≠ .readEpoch l e ptr r) :
    SeenUpper ((s.copyUpper t u).goto t p) t u path := by
  intro res hres hb hk
  have hb : Batch s t path res := by cases path <;> exact hb
  have hk : Keeps s u res.obj := hk.of_goto rfl hp rfl rfl
  show _ ≤ update s.upperEpochsArr t _ t u
  rw [update_self, update_self]
  exact ((hI.covered t res hres u).upper hk).shown (hP res hres hb u)

omit [DecidableEq Obj] [DecidableEq Loc] in
/-- A counter that differs from its sample shows a publication. -/
theorem Base.moved_of_ne (hB : Base s) (hne : s.myscannedTS t u ≠ s.mypublishingTS u) :
    Moved s t u := by
  refine lt_of_le_of_ne (hB.scannedPubs_le t u) fun heq => hne ?_
  rw [hB.myscannedTS, hB.mypublishingTS, heq]

omit [DecidableEq Obj] [DecidableEq Loc] in
/-- **The check.** If no ping is left to handle, everybody has published since a round began that has
ended. -/
theorem Base.published (hB : Base s) (hr : s.Runs t)
    (hhandled : ∀ u, u ≠ t → s.pinged u = false ∧ s.handler u = none)
    (hretired : s'.retired t = s.retired t) (hann : s'.checkedAnn t = s.ann)
    (hpubs : s'.pubs = s.pubs) : Published s' t .loWm := by
  rintro res hres ⟨i, hround⟩ u
  rw [hretired] at hres
  rw [hann] at hround
  rw [hpubs]
  have hu : s.pinged u = false ∧ s.handler u = none := by
    by_cases hut : u = t
    · subst hut
      exact hr
    · exact hhandled u hut
  rcases ((hB.watched t res hres).rounds i).served hround u with hpub | hping | hhand
  · exact hpub
  · rw [hu.1] at hping
    cases hping
  · rw [hu.2] at hhand
    cases hhand

/-- **Interference freedom.** A step of somebody else. -/
theorem Own.frame (hI : Inv s) (hstep : Step cfg s a s') (ha : a ≠ .thread t) :
    Own s' t (s'.pc t) := by
  have hf := hstep.frame ha
  have hle := hstep.epoch_le
  have hown := hI.own t
  -- nobody else touches the list and the copies of the thread
  have same : Same s s' t := ⟨fun _ hr => hf.retired ▸ hr, hf.scannedPubs, hf.checkedAnn⟩
  have lower : ∀ {u path}, SeenLower s t u path → SeenLower s' t u path := fun h =>
    h.step hI hstep same (congrFun hf.lowerEpochsArr _)
  have upper : ∀ {u path}, SeenUpper s t u path → SeenUpper s' t u path := fun h =>
    h.step hI hstep same (congrFun hf.upperEpochsArr _)
  rw [hf.pc]
  cases hp : s.pc t with
  | startLower e =>
    rw [hp] at hown
    exact ⟨hf.inOp.trans hown.1, hown.2.trans hle⟩
  | startUpper e =>
    rw [hp] at hown
    exact ⟨hf.inOp.trans hown.1, hf.localLower.trans hown.2.1, hown.2.2.trans hle⟩
  | endUpper =>
    rw [hp] at hown
    exact hf.inOp.trans hown
  | readLoad l prev | readEpoch l prev ptr r =>
    rw [hp] at hown
    exact ⟨hf.inOp.trans hown.1, hf.localUpper.trans hown.2⟩
  | readStore l curr =>
    rw [hp] at hown
    exact ⟨hf.inOp.trans hown.1, hf.localUpper.trans_le hown.2.1, hown.2.2.trans hle⟩
  -- the signalling round
  | sample i =>
    rw [hp] at hown
    exact fun u hu => (hown u hu).step same
  | publish q =>
    rw [hp] at hown
    exact fun u => (hown u).step same
  | ping i | announce | save =>
    rw [hp] at hown
    exact ⟨fun u => (hown.1 u).step same, hown.2.step hstep same⟩
  | confirm i =>
    -- the threads that were confirmed have published since
    rw [hp] at hown
    exact ⟨fun u => (hown.1 u).step same, hown.2.1.step hstep same,
      fun u hu => (hown.2.2 u hu).step hstep same⟩
  -- `empty`
  | copyLower path i =>
    rw [hp] at hown
    exact ⟨hown.1.step hstep same, fun u hu => ⟨lower (hown.2 u hu).1, upper (hown.2 u hu).2⟩⟩
  | copyUpper path i =>
    rw [hp] at hown
    exact ⟨hown.1.step hstep same,
      fun u => ⟨fun hu => lower ((hown.2 u).1 hu), fun hu => upper ((hown.2 u).2 hu)⟩⟩
  | scan path pos =>
    rw [hp] at hown
    exact fun u => ⟨lower (hown u).1, upper (hown u).2⟩
  | _ => trivial

/-- **One step.** -/
theorem Own.step (hI : Inv s) (hok : Meets s (.thread t)) (hstep : Step cfg s (.thread t) s') :
    Own s' t (s'.pc t) := by
  have moved : ∀ {p : Pc Obj Loc}, s'.pc t = p → Own s' t p → Own s' t (s'.pc t) := by
    intro p hp hh
    rwa [hp]
  have hown := hI.own t
  have hstep' := hstep
  cases hstep with
  | alloc _ hr hpc =>
    refine moved (update_self ..) ?_
    split <;> trivial
  -- `startOp`, `endOp` and `read`
  | callStartOp _ hr hpc hin => exact moved (update_self ..) ⟨hin, le_refl s.epoch⟩
  | startLower _ e hr hpc =>
    -- the epoch that `startOp` has read is not above the present one
    rw [hpc] at hown
    exact moved (update_self ..) ⟨hown.1, update_self .., hown.2⟩
  | endOp _ hr hpc hin => exact moved (update_self ..) (update_self ..)
  | callRead _ l hr hpc hin => exact moved (update_self ..) ⟨hin, rfl⟩
  | readLoad _ l prev hr hpc =>
    rw [hpc] at hown
    exact moved (update_self ..) hown
  | readMove _ l prev ptr r hr hpc hcurr =>
    rw [hpc] at hown
    exact moved (update_self ..) ⟨hown.1, (hI.bounds_le t hown.1).2, le_refl s.epoch⟩
  | readStore _ l curr hr hpc =>
    rw [hpc] at hown
    exact moved (update_self ..) ⟨hown.1, update_self ..⟩
  -- the signalling round
  | retireHiWm _ o hr hpc ho hout =>
    exact moved (update_self ..) fun u hu => absurd hu (Nat.not_lt_zero _)
  | sample _ i hr hpc =>
    -- one more counter is sampled, before the signals
    rw [hpc] at hown
    refine moved (update_self ..) fun u hu res hres => ?_
    show res.pubs u ≤ update s.scannedPubs t _ t u
    rw [update_self]
    by_cases hui : u = i
    · subst hui
      rw [update_self]
      exact (hI.base.watched t res hres).pubs_le u
    · rw [update_of_ne hui]
      have hne : u.val ≠ i.val := fun h => hui (Fin.ext h)
      exact hown u (by omega) res hres
  | sampleEnd _ hr hpc =>
    -- everything is sampled, and the objects were retired before
    rw [hpc] at hown
    exact moved (update_self ..) fun u => (hown u u.isLt).step ⟨fun _ h => h, rfl, rfl⟩
  | publish _ p hr hpc =>
    -- the thread publishes its own bounds, and counts
    rw [hpc] at hown
    refine moved (p := .afterPublish p) (by cases p <;> exact update_self ..) ?_
    cases p with
    | upper | lower => exact fun u => (hown u).step ⟨fun _ h => h, rfl, rfl⟩
    | count =>
      refine ⟨fun u => (hown u).step ⟨fun _ h => h, rfl, rfl⟩, ?_⟩
      show s.scannedPubs t t < update s.pubs t (s.pubs t + 1) t
      rw [update_self]
      exact Nat.lt_succ_of_le (hI.base.scannedPubs_le t t)
  | ping _ i hr hpc hi =>
    -- one more thread is pinged, or skipped
    rw [hpc] at hown
    exact moved (update_self ..) hown
  | pingSelf _ hr hpc =>
    rw [hpc] at hown
    exact moved (update_self ..) hown
  | pingEnd _ hr hpc =>
    rw [hpc] at hown
    exact moved (update_self ..) hown
  | announce _ hr hpc =>
    rw [hpc] at hown
    exact moved (update_self ..) hown
  | save _ hr hpc =>
    rw [hpc] at hown
    exact moved (update_self ..) ⟨hown.1, hown.2, fun u hu => absurd hu (Nat.not_lt_zero _)⟩
  | confirm _ i hr hpc =>
    -- the counter has moved, so the thread has published since the sample
    rw [hpc] at hown
    obtain ⟨hsam, hself, hmoved⟩ := hown
    refine moved (update_self ..) ⟨hsam, hself, fun u hu => ?_⟩
    rcases Nat.lt_succ_iff_lt_or_eq.mp hu with hlt | heq
    · exact hmoved u hlt
    · obtain rfl : u = i := Fin.ext heq
      by_cases hut : u = t
      · subst hut
        exact hself
      · exact hI.base.moved_of_ne (hok.confirms t u rfl hpc hut)
  | confirmEnd _ hr hpc =>
    rw [hpc] at hown
    obtain ⟨hsam, hself, hmoved⟩ := hown
    refine moved (update_self ..) ⟨fun res hres _ u => ?_, fun u hu => absurd hu (Nat.not_lt_zero _)⟩
    exact lt_of_le_of_lt (hsam u res hres) (hmoved u u.isLt)
  | checkHit _ hr hpc hne =>
    -- by the condition a whole round has been completed since the list was taken
    refine moved (update_self ..) ⟨?_, fun u hu => absurd hu (Nat.not_lt_zero _)⟩
    exact hI.base.published hr (hok.handled t rfl hpc hne) rfl (update_self ..) rfl
  -- `empty`
  | copyLower _ i path hr hpc =>
    -- the lower bound that was published covers what the thread holds
    rw [hpc] at hown
    obtain ⟨hpub, hseen⟩ := hown
    have same : Same s ((s.copyLower t i).goto t (.copyUpper path i.val)) t :=
      ⟨fun _ h => h, rfl, rfl⟩
    refine moved (update_self ..) ⟨hpub.step hstep' same, fun u => ?_⟩
    by_cases hui : u = i
    · subst hui
      exact ⟨fun _ => hI.seenLower hpub, fun hlt => absurd hlt (lt_irrefl _)⟩
    · have hne : u.val ≠ i.val := fun h => hui (Fin.ext h)
      refine ⟨fun hu => ?_, fun hu => (hseen u hu).2.step hI hstep' same rfl⟩
      refine (hseen u (lt_of_le_of_ne hu hne)).1.step hI hstep' same ?_
      show update s.lowerEpochsArr t _ t u = _
      rw [update_self, update_of_ne hui]
  | copyUpper _ i path hr hpc =>
    -- and so does the upper one
    rw [hpc] at hown
    obtain ⟨hpub, hseen⟩ := hown
    have same : Same s ((s.copyUpper t i).goto t (.copyLower path (i.val + 1))) t :=
      ⟨fun _ h => h, rfl, rfl⟩
    refine moved (update_self ..) ⟨hpub.step hstep' same, fun u hu => ?_⟩
    have hle : u.val ≤ i.val := Nat.lt_succ_iff.mp hu
    refine ⟨((hseen u).1 hle).step hI hstep' same rfl, ?_⟩
    by_cases hui : u = i
    · subst hui
      exact hI.seenUpper hpub nofun
    · have hne : u.val ≠ i.val := fun h => hui (Fin.ext h)
      refine ((hseen u).2 (lt_of_le_of_ne hle hne)).step hI hstep' same ?_
      show update s.upperEpochsArr t _ t u = _
      rw [update_self, update_of_ne hui]
  | copied _ path hr hpc =>
    -- the scan compares with what was copied
    rw [hpc] at hown
    have same : Same s (s.goto t (.scan path 0)) t := ⟨fun _ h => h, rfl, rfl⟩
    exact moved (update_self ..) fun u => ⟨(hown.2 u u.isLt).1.step hI hstep' same rfl,
      (hown.2 u u.isLt).2.step hI hstep' same rfl⟩
  | scanKeep _ path pos res hr hpc hget hkeep =>
    rw [hpc] at hown
    have same : Same s (s.goto t (.scan path (pos + 1))) t := ⟨fun _ h => h, rfl, rfl⟩
    exact moved (update_self ..) fun u => ⟨(hown u).1.step hI hstep' same rfl,
      (hown u).2.step hI hstep' same rfl⟩
  | scanFree _ path pos res hr hpc hget hfree =>
    rw [hpc] at hown
    have same : Same s (s.passToPool t pos res.obj) t := by
      refine ⟨fun r hr => ?_, rfl, rfl⟩
      have hr : r ∈ update s.retired t ((s.retired t).eraseIdx pos) t := hr
      rw [update_self] at hr
      exact List.mem_of_mem_eraseIdx hr
    exact moved hpc fun u => ⟨(hown u).1.step hI hstep' same rfl,
      (hown u).2.step hI hstep' same rfl⟩
  | _ => exact moved (update_self ..) trivial

/-- **Invariant preservation.** -/
theorem Inv.step (hI : Inv s) (hstep : Step cfg s a s') (hok : Meets s a) : Inv s' where
  base := hI.base.step hstep
  custody := hI.custody.step hstep.custody
  birth_le := hI.birth_le_step hstep
  bounds_le _ := hI.bounds_le_step hstep
  kept _ _ := hI.kept_step hok hstep
  stamped _ _ := hI.stamped_step hstep
  covered _ _ hres _ := hI.covered_step hstep hres
  own t := by
    by_cases ha : a = .thread t
    · subst ha
      exact Own.step hI hok hstep
    · exact Own.frame hI hstep ha

theorem Inv.reached (h : (system cfg).ReachableBy Meets s) : Inv s := by
  refine h.invariant ?_ fun s a s' _ hI hok hstep => hI.step hstep hok
  rintro s rfl
  exact Inv.initial

/-- **Safety.** In every run whose steps all meet the condition, what `empty` finds disjoint from all
intervals was not obtained with `read`, while it was reachable, during an operation that has not
ended. -/
theorem ibr2gePopPlus_safe (h : (system cfg).ReachableBy Meets s) (hok : Meets s (.thread t))
    (hpass : PassesToPool s t res) (u : Fin n) : s.held u res.obj = false := by
  obtain ⟨path, pos, hpc, hget, hfree⟩ := hpass
  rw [← Bool.not_eq_true]
  exact fun hheld => (Inv.reached h).not_keeps hok hpc hget hfree u (.inl hheld)

/-! ### Runs -/

/-- Thread `0` retires so many objects in epoch 1 that it runs out of patience. It pings thread `1`,
which has published nothing, and whose handler does not run before thread `0` has passed the
confirmation loop and copied the intervals: it finds `UINT64_MAX` in both bounds of thread `1`, and
passes object `0` to the pool. -/
theorem interval_missed :
    ¬ ∀ s : State 2 ℕ Unit, (system Config.standard).Reachable s → ∀ t res, PassesToPool s t res →
      ∀ u, s.held u res.obj = false := by
  intro hall
  have hbirth : ∀ x, missedStart.birthEpoch x = 0 := fun _ => rfl
  have hlife : ∀ x, 1 ≤ x → missedStart.life x = .pooled := by
    intro x hx
    show update (fun _ => Life.pooled) 0 .retired x = .pooled
    rw [update_of_ne (by omega)]
  -- the list is filled with objects of the same epoch
  obtain ⟨L₁, life₁, hL₁, hlife₁, hR⟩ := reach_extended reach_missedStart (t := 0) ⟨rfl, rfl⟩ rfl rfl
    hbirth 1 8191 hlife (by decide)
  have hR := reach_unlinked hR (o := 8192) (hlife₁ 8192 (by decide)) (hbirth 8192)
  have hlen₁ : ∀ e, ([e] ++ L₁).length = 8192 := by simp [hL₁]
  have hR := hR.step (.retireEnterLoWm _ 0 8192 ⟨rfl, rfl⟩ rfl
    (show update life₁ 8192 .unlinked 8192 = .unlinked from update_self ..)
    (State.isOutOfPatience_of_lt (show ([_] ++ L₁).length + 1 < 32768 by rw [hlen₁]; decide))
    (State.isPastLoWatermark_of_lt (show 8192 < ([_] ++ L₁).length + 1 by rw [hlen₁]; decide)
      rfl) rfl)
  have hR := hR.step (.saveLoWm _ 0 ⟨rfl, rfl⟩ rfl)
  have hR := hR.step (.checkMiss _ 0 ⟨rfl, rfl⟩ rfl rfl)
  -- with one more the low watermark is entered
  have hlife₂ : ∀ x, 8193 ≤ x → update (update life₁ 8192 .unlinked) 8192 .retired x = .pooled := by
    intro x hx
    rw [update_of_ne (by omega), update_of_ne (by omega)]
    exact hlife₁ x (by omega)
  have hlen₂ : ∀ e e', (([e] ++ L₁) ++ [e']).length = 8193 := by simp [hL₁]
  obtain ⟨L₂, life₂, hL₂, hlife₂, hR⟩ := reach_extended_counted hR (t := 0) ⟨rfl, rfl⟩ rfl rfl rfl
    hbirth 8193 24574 hlife₂
    (show (([_] ++ L₁) ++ [_]).length + 24574 < 32768 by rw [hlen₂]; decide)
  -- out of patience
  have hlen₃ : ∀ e e', ((([e] ++ L₁) ++ [e']) ++ L₂).length = 32767 := by simp [hL₁, hL₂]
  have hR := reach_unlinked hR (o := 32767) (hlife₂ 32767 (by decide)) (hbirth 32767)
  have hR := hR.step (.retireHiWm _ 0 32767 ⟨rfl, rfl⟩ rfl
    (show update life₂ 32767 .unlinked 32767 = .unlinked from update_self ..)
    (State.isOutOfPatience_of_le
      (show 32768 ≤ ((([_] ++ L₁) ++ [_]) ++ L₂).length + 1 by rw [hlen₃]) rfl))
  have hR := hR.step (.sample _ 0 0 ⟨rfl, rfl⟩ rfl)
  have hR := hR.step (.sample _ 0 1 ⟨rfl, rfl⟩ rfl)
  have hR := hR.step (.sampleEnd _ 0 ⟨rfl, rfl⟩ rfl)
  have hR := hR.step (.publish _ 0 .upper ⟨rfl, rfl⟩ rfl)
  have hR := hR.step (.publish _ 0 .lower ⟨rfl, rfl⟩ rfl)
  have hR := hR.step (.publish _ 0 .count ⟨rfl, rfl⟩ rfl)
  have hR := hR.step (.pingSelf _ 0 ⟨rfl, rfl⟩ rfl)
  have hR := hR.step (.ping _ 0 1 ⟨rfl, rfl⟩ rfl (by decide))
  have hR := hR.step (.pingEnd _ 0 ⟨rfl, rfl⟩ rfl)
  have hR := hR.step (.announce _ 0 ⟨rfl, rfl⟩ rfl)
  have hR := hR.step (.save _ 0 ⟨rfl, rfl⟩ rfl)
  -- the handler of thread 1 has not run
  have hR := hR.step (.confirm _ 0 0 ⟨rfl, rfl⟩ rfl)
  have hR := hR.step (.confirm _ 0 1 ⟨rfl, rfl⟩ rfl)
  have hR := hR.step (.confirmEnd _ 0 ⟨rfl, rfl⟩ rfl)
  have hR := hR.step (.copyLower _ 0 0 .hiWm ⟨rfl, rfl⟩ rfl)
  have hR := hR.step (.copyUpper _ 0 0 .hiWm ⟨rfl, rfl⟩ rfl)
  have hR := hR.step (.copyLower _ 0 1 .hiWm ⟨rfl, rfl⟩ rfl)
  have hR := hR.step (.copyUpper _ 0 1 .hiWm ⟨rfl, rfl⟩ rfl)
  have hR := hR.step (.copied _ 0 .hiWm ⟨rfl, rfl⟩ rfl)
  have hheld : true = false := hall _ hR 0 _ ⟨.hiWm, 0, rfl, rfl, State.isFreeable_of_lt fun
    | 0 => show ((0 : ℕ) : ℕ∞) < (1 : ℕ) by decide
    | 1 => ENat.natCast_lt_top 0⟩ 1
  cases hheld

section Condition

omit [DecidableEq Obj] [DecidableEq Loc]

theorem Meets.env : Meets s .env := ⟨nofun, nofun, nofun⟩

theorem Meets.handler : Meets s (.handler t) := ⟨nofun, nofun, nofun⟩

/-- A step of a thread that neither compares counters nor looks for a new value of
`publishing_epoch` nor frees at the low watermark. -/
theorem Meets.thread {p : Pc Obj Loc} (hpc : s.pc t = p) (hconfirm : ∀ i, p ≠ .confirm i)
    (hcheck : p ≠ .check) (hscan : ∀ pos, p ≠ .scan .loWm pos) : Meets s (.thread t) where
  confirms v i ha hp := by
    cases ha
    exact absurd (hpc.symm.trans hp) (hconfirm i)
  handled v ha hp := by
    cases ha
    exact absurd (hpc.symm.trans hp) hcheck
  signalled v pos res ha hp := by
    cases ha
    exact absurd (hpc.symm.trans hp) (hscan pos)

theorem Meets.idle (hpc : s.pc t = .idle) : Meets s (.thread t) :=
  .thread hpc nofun nofun nofun

theorem Meets.copyLower {path : Path} {i : ℕ} (hpc : s.pc t = .copyLower path i) :
    Meets s (.thread t) :=
  .thread hpc nofun nofun nofun

theorem Meets.copyUpper {path : Path} {i : ℕ} (hpc : s.pc t = .copyUpper path i) :
    Meets s (.thread t) :=
  .thread hpc nofun nofun nofun

/-- The counter of the other one of two threads has moved. -/
theorem Meets.confirm {s : State 2 Obj Loc} {j : ℕ} (hpc : s.pc 1 = .confirm j)
    (hne : s.myscannedTS 1 0 ≠ s.mypublishingTS 0) : Meets s (.thread 1) where
  confirms v i ha _ hi := by
    cases ha
    obtain rfl : i = 0 := by omega
    exact hne
  handled v ha hp := by
    cases ha
    rw [hpc] at hp
    cases hp
  signalled v pos res ha hp := by
    cases ha
    rw [hpc] at hp
    cases hp

/-- The value of `publishing_epoch` is the saved one. -/
theorem Meets.checkMiss (hpc : s.pc t = .check)
    (heq : s.savedPublishingEpoch t = s.publishingEpoch) : Meets s (.thread t) where
  confirms v i ha hp := by
    cases ha
    rw [hpc] at hp
    cases hp
  handled v ha _ hne := by
    cases ha
    exact absurd heq hne
  signalled v pos res ha hp := by
    cases ha
    rw [hpc] at hp
    cases hp

/-- The other one of two threads has handled its pings. -/
theorem Meets.checkHit {s : State 2 Obj Loc} (hpc : s.pc 0 = .check) (hping : s.pinged 1 = false)
    (hhand : s.handler 1 = none) : Meets s (.thread 0) where
  confirms v i ha hp := by
    cases ha
    rw [hpc] at hp
    cases hp
  handled v ha _ _ u hu := by
    cases ha
    obtain rfl : u = 1 := by omega
    exact ⟨hping, hhand⟩
  signalled v pos res ha hp := by
    cases ha
    rw [hpc] at hp
    cases hp

/-- The object was retired before a round that had ended at the check. -/
theorem Meets.scan {pos : ℕ} (hpc : s.pc t = .scan .loWm pos)
    (hget : (s.retired t)[pos]? = some res) (hsig : Signalled s t res) :
    Meets s (.thread t) where
  confirms v i ha hp := by
    cases ha
    rw [hpc] at hp
    cases hp
  handled v ha hp := by
    cases ha
    rw [hpc] at hp
    cases hp
  signalled v pos' res' ha hp hget' _ := by
    cases ha
    obtain ⟨-, rfl⟩ := Pc.scan.inj (hpc.symm.trans hp)
    obtain rfl := Option.some.inj (hget.symm.trans hget')
    exact hsig

end Condition

/-- With two threads and a capacity of 4, thread `1` reads object `7`, thread `0` retires it, and the
operation of thread `1` ends. In the next epoch thread `1` reads object `8` and runs out of patience
in its next operation. Thread `0` handles its ping and enters the low watermark before
`publishing_epoch` is incremented. It finds the new value, and is about to free object `7`, while
thread `1` holds object `8`. -/
theorem ibr2gePopPlus_safe_of_freed : ∃ (s : State 2 ℕ Unit) (res : IntervalInfo 2 ℕ),
    s.held 1 8 = true ∧ PassesToPool s 0 res ∧ ∀ u, s.held u res.obj = false := by
  have safe : ∀ {s : State 2 ℕ Unit}, (system ⟨4, 1⟩).ReachableBy Meets s → ∀ res,
      s.held 1 8 = true → s.pc 0 = .scan .loWm 0 → (s.retired 0)[0]? = some res →
      s.isFreeable 0 res → Signalled s 0 res → ∃ (s : State 2 ℕ Unit) (res : IntervalInfo 2 ℕ),
        s.held 1 8 = true ∧ PassesToPool s 0 res ∧ ∀ u, s.held u res.obj = false :=
    fun hR res hheld hpc hget hfree hsig => ⟨_, res, hheld, ⟨.loWm, 0, hpc, hget, hfree⟩,
      ibr2gePopPlus_safe hR (.scan hpc hget hsig) ⟨.loWm, 0, hpc, hget, hfree⟩⟩
  have hR : (system ⟨4, 1⟩).ReachableBy Meets (State.initial ⟨4, 1⟩ 2 ℕ Unit) := .init rfl
  have hR := hR.step (.link _ 7 0 rfl le_rfl) .env
  have hR := hR.step (.write _ () ⟨some 7, 0⟩) .env
  have hR := hR.step (.callStartOp _ 1 ⟨rfl, rfl⟩ rfl rfl) (.idle rfl)
  have hR := hR.step (.startLower _ 1 0 ⟨rfl, rfl⟩ rfl) (.thread rfl nofun nofun nofun)
  have hR := hR.step (.startUpper _ 1 0 ⟨rfl, rfl⟩ rfl) (.thread rfl nofun nofun nofun)
  have hR := hR.step (.callRead _ 1 () ⟨rfl, rfl⟩ rfl rfl) (.idle rfl)
  have hR := hR.step (.readLoad _ 1 () 0 ⟨rfl, rfl⟩ rfl) (.thread rfl nofun nofun nofun)
  have hR := hR.step (.readReturn _ 1 () 0 ⟨some 7, 0⟩ true ⟨rfl, rfl⟩ rfl rfl)
    (.thread rfl nofun nofun nofun)
  -- thread 0 retires the object
  have hR := hR.step (.callStartOp _ 0 ⟨rfl, rfl⟩ rfl rfl) (.idle rfl)
  have hR := hR.step (.startLower _ 0 0 ⟨rfl, rfl⟩ rfl) (.thread rfl nofun nofun nofun)
  have hR := hR.step (.startUpper _ 0 0 ⟨rfl, rfl⟩ rfl) (.thread rfl nofun nofun nofun)
  have hR := hR.step (.unlink _ 7 rfl) .env
  have hR := hR.step (.retire _ 0 7 ⟨rfl, rfl⟩ rfl rfl rfl rfl) (.idle rfl)
  have hR := hR.step (.endOp _ 0 ⟨rfl, rfl⟩ rfl rfl) (.idle rfl)
  have hR := hR.step (.endUpper _ 0 ⟨rfl, rfl⟩ rfl) (.thread rfl nofun nofun nofun)
  have hR := hR.step (.endOp _ 1 ⟨rfl, rfl⟩ rfl rfl) (.idle rfl)
  have hR := hR.step (.endUpper _ 1 ⟨rfl, rfl⟩ rfl) (.thread rfl nofun nofun nofun)
  -- the next epoch
  have hR := hR.step (.alloc _ 0 ⟨rfl, rfl⟩ rfl) (.idle rfl)
  have hR := hR.step (.alloc _ 0 ⟨rfl, rfl⟩ rfl) (.idle rfl)
  have hR := hR.step (.bumpEpoch _ 0 ⟨rfl, rfl⟩ rfl) (.thread rfl nofun nofun nofun)
  have hR := hR.step (.link _ 8 1 rfl le_rfl) .env
  have hR := hR.step (.write _ () ⟨some 8, 0⟩) .env
  have hR := hR.step (.callStartOp _ 1 ⟨rfl, rfl⟩ rfl rfl) (.idle rfl)
  have hR := hR.step (.startLower _ 1 1 ⟨rfl, rfl⟩ rfl) (.thread rfl nofun nofun nofun)
  have hR := hR.step (.startUpper _ 1 1 ⟨rfl, rfl⟩ rfl) (.thread rfl nofun nofun nofun)
  have hR := hR.step (.callRead _ 1 () ⟨rfl, rfl⟩ rfl rfl) (.idle rfl)
  have hR := hR.step (.readLoad _ 1 () 1 ⟨rfl, rfl⟩ rfl) (.thread rfl nofun nofun nofun)
  have hR := hR.step (.readReturn _ 1 () 1 ⟨some 8, 0⟩ true ⟨rfl, rfl⟩ rfl rfl)
    (.thread rfl nofun nofun nofun)
  have hR := hR.step (.callStartOp _ 0 ⟨rfl, rfl⟩ rfl rfl) (.idle rfl)
  have hR := hR.step (.startLower _ 0 1 ⟨rfl, rfl⟩ rfl) (.thread rfl nofun nofun nofun)
  have hR := hR.step (.startUpper _ 0 1 ⟨rfl, rfl⟩ rfl) (.thread rfl nofun nofun nofun)
  -- thread 1 passes the low watermark and reaches the high one
  have hR := hR.step (.link _ 20 0 rfl (Nat.zero_le _)) .env
  have hR := hR.step (.unlink _ 20 rfl) .env
  have hR := hR.step (.retire _ 1 20 ⟨rfl, rfl⟩ rfl rfl rfl rfl) (.idle rfl)
  have hR := hR.step (.link _ 21 0 rfl (Nat.zero_le _)) .env
  have hR := hR.step (.unlink _ 21 rfl) .env
  have hR := hR.step (.retireEnterLoWm _ 1 21 ⟨rfl, rfl⟩ rfl rfl rfl rfl rfl) (.idle rfl)
  have hR := hR.step (.saveLoWm _ 1 ⟨rfl, rfl⟩ rfl) (.thread rfl nofun nofun nofun)
  have hR := hR.step (.checkMiss _ 1 ⟨rfl, rfl⟩ rfl rfl) (.checkMiss rfl rfl)
  have hR := hR.step (.link _ 22 0 rfl (Nat.zero_le _)) .env
  have hR := hR.step (.unlink _ 22 rfl) .env
  have hR := hR.step (.retire _ 1 22 ⟨rfl, rfl⟩ rfl rfl rfl rfl) (.idle rfl)
  have hR := hR.step (.link _ 23 0 rfl (Nat.zero_le _)) .env
  have hR := hR.step (.unlink _ 23 rfl) .env
  have hR := hR.step (.retireHiWm _ 1 23 ⟨rfl, rfl⟩ rfl rfl rfl) (.idle rfl)
  have hR := hR.step (.sample _ 1 0 ⟨rfl, rfl⟩ rfl) (.thread rfl nofun nofun nofun)
  have hR := hR.step (.sample _ 1 1 ⟨rfl, rfl⟩ rfl) (.thread rfl nofun nofun nofun)
  have hR := hR.step (.sampleEnd _ 1 ⟨rfl, rfl⟩ rfl) (.thread rfl nofun nofun nofun)
  have hR := hR.step (.publish _ 1 .upper ⟨rfl, rfl⟩ rfl) (.thread rfl nofun nofun nofun)
  have hR := hR.step (.publish _ 1 .lower ⟨rfl, rfl⟩ rfl) (.thread rfl nofun nofun nofun)
  have hR := hR.step (.publish _ 1 .count ⟨rfl, rfl⟩ rfl) (.thread rfl nofun nofun nofun)
  have hR := hR.step (.ping _ 1 0 ⟨rfl, rfl⟩ rfl (by decide)) (.thread rfl nofun nofun nofun)
  have hR := hR.step (.pingSelf _ 1 ⟨rfl, rfl⟩ rfl) (.thread rfl nofun nofun nofun)
  have hR := hR.step (.pingEnd _ 1 ⟨rfl, rfl⟩ rfl) (.thread rfl nofun nofun nofun)
  have hR := hR.step (.handlerEnter _ 0 rfl rfl) .handler
  have hR := hR.step (.handlerPublish _ 0 .upper rfl) .handler
  have hR := hR.step (.handlerPublish _ 0 .lower rfl) .handler
  have hR := hR.step (.handlerPublish _ 0 .count rfl) .handler
  -- thread 0 enters the low watermark, and the round of thread 1 ends
  have hR := hR.step (.link _ 9 0 rfl (Nat.zero_le _)) .env
  have hR := hR.step (.unlink _ 9 rfl) .env
  have hR := hR.step (.retireEnterLoWm _ 0 9 ⟨rfl, rfl⟩ rfl rfl rfl rfl rfl) (.idle rfl)
  have hR := hR.step (.saveLoWm _ 0 ⟨rfl, rfl⟩ rfl) (.thread rfl nofun nofun nofun)
  have hR := hR.step (.announce _ 1 ⟨rfl, rfl⟩ rfl) (.thread rfl nofun nofun nofun)
  have hR := hR.step (.save _ 1 ⟨rfl, rfl⟩ rfl) (.thread rfl nofun nofun nofun)
  have hR := hR.step (.confirm _ 1 0 ⟨rfl, rfl⟩ rfl)
    (.confirm rfl (show (0 : BitVec 32) ≠ 1 by decide))
  have hR := hR.step (.checkHit _ 0 ⟨rfl, rfl⟩ rfl (show 0 ≠ 1 by decide))
    (.checkHit rfl rfl rfl)
  -- both intervals are in the new epoch
  have hR := hR.step (.copyLower _ 0 0 .loWm ⟨rfl, rfl⟩ rfl) (.copyLower rfl)
  have hR := hR.step (.copyUpper _ 0 0 .loWm ⟨rfl, rfl⟩ rfl) (.copyUpper rfl)
  have hR := hR.step (.copyLower _ 0 1 .loWm ⟨rfl, rfl⟩ rfl) (.copyLower rfl)
  have hR := hR.step (.copyUpper _ 0 1 .loWm ⟨rfl, rfl⟩ rfl) (.copyUpper rfl)
  have hR := hR.step (.copied _ 0 .loWm ⟨rfl, rfl⟩ rfl) (.copyLower rfl)
  refine safe hR _ rfl rfl rfl (State.isFreeable_of_lt ?_) ⟨1, show evenUp 0 + 2 ≤ 2 by decide⟩
  intro i
  match i with
  | 0 => exact show ((0 : ℕ) : ℕ∞) < (1 : ℕ) by decide
  | 1 => exact show ((0 : ℕ) : ℕ∞) < (1 : ℕ) by decide

end Ibr2gePopPlus
end PopSetbench

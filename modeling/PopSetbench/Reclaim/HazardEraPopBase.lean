import PopSetbench.Library.Hazard
import PopSetbench.Reclaim.HazardEraPop

/-!
# HazardEraPOP: what every step keeps

The facts about HazardEraPOP that hold in every run.

* `Step.hazard` and `Step.custody` — on reservations, objects and retired lists, every step is
  a step of reservations that are published on request (`Hazard.Step`, with a signalling
  thread that publishes too) and of the custody of retired objects. A thread holds what it has
  loaded while it was reachable (`seen`).
* `Base` and `Base.step` — the invariant. Of the eras it says that what `read` has returned was
  seen, and that its entry is not zero.
-/

namespace PopSetbench
namespace HazardEraPop

open Function

variable {n : ℕ} {Obj Loc : Type}

/-! ### The reservations underneath -/

/-- The part of a thread's signalling round it is in. -/
def stageOf : Pc Obj Loc → Stage
  | .publish _ => .prep
  | .ping i => .reach i
  | _ => .out

/-- The entries a signalling thread has copied itself. -/
def selfOf : Pc Obj Loc → Option ℕ
  | .publish j => some j
  | _ => none

/-- The reservations of all threads, as a table that is published on request. -/
def State.hs (s : State n Obj Loc) : Handshake n numPophe ℕ where
  loc := s.localReservedEpoch
  pub := s.reservations
  pubs := s.pubs
  setAt := s.setAt
  pinged := s.pinged
  handler := s.handler
  self := selfOf ∘ s.pc
  ann := s.ann
  stage := stageOf ∘ s.pc

/-- The reservations and the objects read under them. -/
def State.hz (s : State n Obj Loc) : Hazard n numPophe ℕ Obj where
  table := s.hs
  life := s.life
  held u e o := s.seen u e o = true
  retireAt := s.retireAt

/-- Moving to another point outside the signalling round does not touch the table. -/
theorem goto_hs {s : State n Obj Loc} {t : Fin n} {p : Pc Obj Loc}
    (hst : stageOf p = stageOf (s.pc t)) (hse : selfOf p = selfOf (s.pc t)) :
    (s.goto t p).hs = s.hs := by
  simp only [State.hs, State.goto, comp_update, update_comp_of_eq hst.symm,
    update_comp_of_eq hse.symm]

/-- The retired objects of each thread. -/
def State.objs (s : State n Obj Loc) : Fin n → List Obj :=
  List.map HeInfo.obj ∘ s.retired

/-- Writing an entry forgets what was seen under it. -/
private theorem seen_store {seen : Fin n → Fin numPophe → Obj → Bool} {u u' : Fin n}
    {e e' : Fin numPophe} {o : Obj}
    (h : update seen u (update (seen u) e fun _ => false) u' e' o = true) :
    seen u' e' o = true ∧ ¬ (u' = u ∧ e' = e) := by
  by_cases hu : u' = u
  · subst hu
    rw [update_self] at h
    by_cases he : e' = e
    · subst he
      rw [update_self] at h
      cases h
    · rw [update_of_ne he] at h
      exact ⟨h, fun h => he h.2⟩
  · rw [update_of_ne hu] at h
    exact ⟨h, fun h => hu h.1⟩

/-- Adding objects to what was seen under an entry. -/
private theorem seen_add {seen : Fin n → Fin numPophe → Obj → Bool} {u u' : Fin n}
    {e e' : Fin numPophe} {o : Obj} {P : Obj → Bool}
    (h : update seen u (update (seen u) e fun o => seen u e o || P o) u' e' o = true) :
    seen u' e' o = true ∨ (u' = u ∧ e' = e ∧ P o = true) := by
  by_cases hu : u' = u
  · subst hu
    rw [update_self] at h
    by_cases he : e' = e
    · subst he
      rw [update_self, Bool.or_eq_true] at h
      exact h.imp id fun hP => ⟨rfl, rfl, hP⟩
    · rw [update_of_ne he] at h
      exact .inl h
  · rw [update_of_ne hu] at h
    exact .inl h

variable [DecidableEq Obj] [DecidableEq Loc] {cfg : Config}

/-- Every step leaves reservations and objects alone or is a step of published reservations. -/
theorem Step.hazard {s s' : State n Obj Loc} {a : Actor n} (hstep : Step cfg s a s') :
    s'.hz = s.hz ∨ Hazard.Step true s.hz s'.hz := by
  have out : ∀ {t : Fin n} {p q : Pc Obj Loc}, s.pc t = p →
      stageOf q = stageOf p → selfOf q = selfOf p → (s.goto t q).hs = s.hs :=
    fun hpc hst hse => goto_hs (by rw [hpc, hst]) (by rw [hpc, hse])
  -- a step that changes no table and no object
  have quiet : ∀ {x : State n Obj Loc}, x.hs = s.hs → x.life = s.life → x.seen = s.seen →
      x.retireAt = s.retireAt → x.hz = s.hz := by
    intro x hs hl hv hr
    unfold State.hz
    rw [hs, hl, hv, hr]
  -- an unlinked object is retired
  have retire : ∀ {x : State n Obj Loc} {o : Obj}, s.life o = .unlinked → x.hs = s.hs →
      x.life = update s.life o .retired → x.seen = s.seen →
      x.retireAt = update s.retireAt o s.pubs → Hazard.Step true s.hz x.hz := by
    intro x o ho hs hl hv hr
    refine .of_objects (.retire s.hz o ho) hs hl ?_ hr
    show (fun u e o => x.seen u e o = true) = fun u e o => s.seen u e o = true
    rw [hv]
  -- a thread writes one of its own entries
  have store : ∀ {t : Fin n} {p q : Pc Obj Loc} (e : Fin numPophe) (r : ℕ), s.Runs t →
      s.pc t = p → stageOf q = stageOf p → selfOf q = selfOf p → selfOf p = none →
        Hazard.Step true s.hz ((s.setEpoch t e r).goto t q).hz := by
    intro t p q e r hr hpc hst hse hself
    have hs : ((s.setEpoch t e r).goto t q).hs = (s.setEpoch t e r).hs :=
      goto_hs (by rw [hst, ← hpc]; rfl) (by rw [hse, ← hpc]; rfl)
    have hstep : Hazard.Step true s.hz _ := .store s.hz t e r (s.setEpoch t e r).hz.held hr.2
      (by simp [State.hz, State.hs, hpc, hself]) fun _ _ _ => seen_store
    unfold State.hz
    rw [hs]
    exact hstep
  cases hstep with
  | write l p => exact .inl rfl
  | link o b h hb => exact .inr (.link s.hz o h)
  | unlink o h => exact .inr (.unlink s.hz o h)
  | alloc t hr hpc hmod => exact .inl rfl
  | allocBump t hr hpc hmod => exact .inl (quiet (out hpc rfl rfl) rfl rfl rfl)
  | bumpEpoch t hr hpc => exact .inl (quiet (out hpc rfl rfl) rfl rfl rfl)
  | callRead t idx l hr hpc => exact .inl (quiet (out hpc rfl rfl) rfl rfl rfl)
  | readLoad t idx l prev hr hpc =>
    -- `read` has found an object, which it may hold from the return on
    right
    refine .of_objects (.read s.hz _ fun u e o hh => ?_) (out hpc rfl rfl) rfl rfl rfl
    refine (seen_add hh).imp id fun hnew => ?_
    simp only [Bool.and_eq_true, decide_eq_true_eq] at hnew
    exact hnew.2.2.2
  | readReturn t idx l prev ptr hr hpc hcurr => exact .inl (quiet (out hpc rfl rfl) rfl rfl rfl)
  | readMove t idx l prev ptr hr hpc hcurr => exact .inl (quiet (out hpc rfl rfl) rfl rfl rfl)
  | readStore t idx l curr hr hpc => exact .inr (store idx curr hr hpc rfl rfl rfl)
  | callEndOp t hr hpc => exact .inl (quiet (out hpc rfl rfl) rfl rfl rfl)
  -- `endOp` clears the entries one by one
  | endOp t e hr hpc => exact .inr (store e 0 hr hpc rfl rfl rfl)
  | endOpReturn t hr hpc => exact .inl (quiet (out hpc rfl rfl) rfl rfl rfl)
  -- the object becomes retired, whatever is done with the list after that
  | retireHiWm t o hr hpc ho hout => exact .inr (retire ho (out hpc rfl rfl) rfl rfl rfl)
  | retireEnterLoWm t o rand hr hpc ho hout hpast hfirst =>
    exact .inr (retire ho (out hpc rfl rfl) rfl rfl rfl)
  | retireLoWm t o hr hpc ho hout hpast hfirst =>
    exact .inr (retire ho (out hpc rfl rfl) rfl rfl rfl)
  | retireOnly t o hr hpc ho hout hpast =>
    exact .inr (retire ho (out hpc rfl rfl) rfl rfl rfl)
  | sample t i hr hpc => exact .inl (quiet (out hpc rfl rfl) rfl rfl rfl)
  | sampleEnd t hr hpc =>
    -- the round begins with the thread's own entries
    right
    have hstep : Handshake.Step true s.hs _ := .beginSelf s.hs t
      (by simp [State.hs, hpc, stageOf]) rfl
    refine .of_table ?_ rfl rfl rfl rfl rfl
    simpa [State.hz, State.hs, State.announce, State.goto, comp_update, stageOf, selfOf] using hstep
  | publish t e hr hpc =>
    right
    have hst : stageOf (s.pc t) = .prep := by simp [hpc, stageOf]
    have hstep : Handshake.Step true s.hs _ := .selfCopy s.hs t e (by simp [State.hs, hpc, selfOf])
    refine .of_table ?_ rfl rfl rfl rfl rfl
    simpa [State.hz, State.hs, State.copySlot, State.goto, comp_update, update_comp_of_eq hst,
      stageOf, selfOf] using hstep
  | publishEnd t hr hpc =>
    right
    have hstep : Handshake.Step true s.hs _ := .selfDone s.hs t
      (by simp [State.hs, hpc, selfOf]) (by simp [State.hs, hpc, stageOf])
    refine .of_table ?_ rfl rfl rfl rfl rfl
    simpa [State.hz, State.hs, State.countPublish, State.goto, comp_update, stageOf, selfOf]
      using hstep
  | ping t i hr hpc hi =>
    -- the threads are pinged one after the other
    right
    have hse : selfOf (s.pc t) = none := by simp [hpc, selfOf]
    have hstep : Handshake.Step true s.hs _ := .ping s.hs t i (by simp [State.hs, hpc, stageOf])
    refine .of_table ?_ rfl rfl rfl rfl rfl
    simpa [State.hz, State.hs, State.goto, comp_update, update_comp_of_eq hse, stageOf, selfOf]
      using hstep
  | pingSelf t hr hpc =>
    right
    have hse : selfOf (s.pc t) = none := by simp [hpc, selfOf]
    have hstep : Handshake.Step true s.hs _ := .skip s.hs t (by simp [State.hs, hpc, stageOf])
    refine .of_table ?_ rfl rfl rfl rfl rfl
    simpa [State.hz, State.hs, State.goto, comp_update, update_comp_of_eq hse, stageOf, selfOf]
      using hstep
  | pingEnd t hr hpc =>
    right
    have hse : selfOf (s.pc t) = none := by simp [hpc, selfOf]
    have hstep : Handshake.Step true s.hs _ := .finish s.hs t (by simp [State.hs, hpc, stageOf])
    refine .of_table ?_ rfl rfl rfl rfl rfl
    simpa [State.hz, State.hs, State.announce, State.goto, comp_update, update_comp_of_eq hse,
      stageOf, selfOf] using hstep
  | saveOwn t hr hpc => exact .inl (quiet (out hpc rfl rfl) rfl rfl rfl)
  | confirm t i hr hpc => exact .inl (quiet (out hpc rfl rfl) rfl rfl rfl)
  | confirmEnd t hr hpc => exact .inl (quiet (out hpc rfl rfl) rfl rfl rfl)
  | saveEpoch t hr hpc => exact .inl (quiet (out hpc rfl rfl) rfl rfl rfl)
  | checkHit t hr hpc hne => exact .inl (quiet (out hpc rfl rfl) rfl rfl rfl)
  | checkMiss t hr hpc heq => exact .inl (quiet (out hpc rfl rfl) rfl rfl rfl)
  | snapshot t u e path hr hpc => exact .inl (quiet (out hpc rfl rfl) rfl rfl rfl)
  | snapshotEnd t path hr hpc => exact .inl (quiet (out hpc rfl rfl) rfl rfl rfl)
  | scanKeep t path pos m res hr hpc hgo ho hkeep =>
    -- the list of the thread is its own
    exact .inl (quiet (out hpc rfl rfl) rfl rfl rfl)
  | scanFree t path pos m res hr hpc hgo ho hfree =>
    exact .inr (.of_objects (.free s.hz res.obj) (out hpc rfl rfl) rfl rfl rfl)
  | scanEndHiWm t pos m hr hpc hstop => exact .inl (quiet (out hpc rfl rfl) rfl rfl rfl)
  | scanEndLoWm t pos m hr hpc hstop => exact .inl (quiet (out hpc rfl rfl) rfl rfl rfl)
  | handlerEnter t hp hh => exact .inr (.of_table (.enter s.hs t hp hh) rfl rfl rfl rfl rfl)
  | handlerPublish t e hh => exact .inr (.of_table (.handlerCopy s.hs t e hh) rfl rfl rfl rfl rfl)
  | handlerReturn t hh => exact .inr (.of_table (.handlerDone s.hs t hh) rfl rfl rfl rfl rfl)

/-! ### What one step does to the retired lists -/

omit [DecidableEq Loc] in
private theorem pushBack_objs (s : State n Obj Loc) (t : Fin n) (o : Obj) :
    (s.pushBack t o).objs = update s.objs t (s.objs t ++ [o]) := by
  simp [State.objs, State.pushBack, comp_update]

omit [DecidableEq Loc] in
private theorem passToPool_objs (s : State n Obj Loc) (t : Fin n) (pos : ℕ) (o : Obj) :
    (s.passToPool t pos o).objs = update s.objs t ((s.objs t).eraseIdx pos) := by
  simp [State.objs, State.passToPool, comp_update, List.eraseIdx_map]

theorem Step.custody {s s' : State n Obj Loc} {a : Actor n} (hstep : Step cfg s a s') :
    Custody.Step s.objs s.life s'.objs s'.life := by
  have push : ∀ {x : State n Obj Loc} {t : Fin n} {o : Obj}, s.life o = .unlinked →
      x.retired = (s.pushBack t o).retired → x.life = update s.life o .retired →
      Custody.Step s.objs s.life x.objs x.life := by
    intro x t o ho hret hlife
    refine .push t o ho ?_ hlife
    rw [← pushBack_objs]
    unfold State.objs
    rw [hret]
  cases hstep with
  | link o b h hb => exact .of_update rfl (by simp [h]) (by simp)
  | unlink o h => exact .of_update rfl (by simp [h]) (by simp)
  | retireHiWm t o hr hpc ho hout => exact push ho rfl rfl
  | retireEnterLoWm t o rand hr hpc ho hout hpast hfirst => exact push ho rfl rfl
  | retireLoWm t o hr hpc ho hout hpast hfirst => exact push ho rfl rfl
  | retireOnly t o hr hpc ho hout hpast => exact push ho rfl rfl
  | scanFree t path pos m res hr hpc hgo ho hfree =>
    have hget : (s.objs t)[pos]? = some res.obj := by simp [State.objs, ho]
    exact .free t pos res.obj hget (passToPool_objs s t pos res.obj) rfl
  | _ => exact .keep rfl fun _ => Iff.rfl

/-! ### The invariant that every step keeps -/

theorem Step.pubs_le {s s' : State n Obj Loc} {a : Actor n} (hstep : Step cfg s a s')
    (u : Fin n) : s.pubs u ≤ s'.pubs u := by
  rcases hstep.hazard with heq | hh
  · exact le_of_eq (congrArg (fun h : Hazard n numPophe ℕ Obj => h.table.pubs u) heq).symm
  · exact hh.pubs_le u

/-- The entry `read` works on, and `prev_epoch`. -/
def Pc.prev : Pc Obj Loc → Option (Fin numPophe × ℕ)
  | .readLoad idx _ prev => some (idx, prev)
  | .readEpoch idx _ prev _ => some (idx, prev)
  | _ => none

/-- What every step keeps, of the shared state. -/
structure Base (s : State n Obj Loc) : Prop where
  hazard : s.hz.Inv
  /-- The shared counter counts modulo its width. -/
  mypublishingTS : ∀ u, s.mypublishingTS u = BitVec.ofNat 32 (s.pubs u)
  /-- The samples are values the counter had. -/
  myscannedTS : ∀ t u, s.myscannedTS t u = BitVec.ofNat 32 (s.scannedPubs t u)
  scannedPubs_le : ∀ t u, s.scannedPubs t u ≤ s.pubs u
  savedPubs_le : ∀ t u, s.savedPubs t u ≤ s.pubs u
  epoch_pos : s.epoch ≠ 0
  /-- `prev_epoch` is what the entry holds. -/
  read : ∀ t idx prev, (s.pc t).prev = some (idx, prev) → s.localReservedEpoch t idx = prev
  /-- What `read` has returned was seen, under an entry that is not zero. -/
  held : ∀ u e o, s.held u e o = true → s.seen u e o = true ∧ s.localReservedEpoch u e ≠ 0
  /-- Every retired object waits in one list, once. -/
  custody : Custody s.objs fun o => s.life o = .retired

omit [DecidableEq Obj] [DecidableEq Loc] in
theorem Base.initial : Base (State.initial n Obj Loc) where
  hazard :=
    { table :=
        { fresh := fun _ _ h => absurd h (Nat.lt_irrefl 0)
          setAt_le := fun _ _ => le_rfl
          handler_copied := fun _ _ h => nomatch h
          self_copied := fun _ _ h => nomatch h
          counts := fun _ => ⟨fun h => absurd h (by simp [State.hz, State.hs, State.initial]),
            fun h => absurd rfl h⟩ }
      held := fun _ _ _ h => nomatch h
      retireAt_le := fun _ _ h => nomatch h }
  mypublishingTS _ := rfl
  myscannedTS _ _ := rfl
  scannedPubs_le _ _ := le_rfl
  savedPubs_le _ _ := le_rfl
  epoch_pos := Nat.one_ne_zero
  read _ _ _ h := nomatch h
  held _ _ _ h := nomatch h
  custody := Custody.nil _

/-- What `read` knows about its entry is kept by every step. -/
private theorem Step.read {s s' : State n Obj Loc} {a : Actor n} (hstep : Step cfg s a s')
    (hread : ∀ t idx prev, (s.pc t).prev = some (idx, prev) → s.localReservedEpoch t idx = prev)
    (t : Fin n) (idx : Fin numPophe) (prev : ℕ) (hpc' : (s'.pc t).prev = some (idx, prev)) :
    s'.localReservedEpoch t idx = prev := by
  -- a step of thread `t'` that leaves the entries alone and ends at `q`
  have away : ∀ {t' : Fin n} {q : Pc Obj Loc},
      (q.prev = some (idx, prev) → s.localReservedEpoch t' idx = prev) →
      (update s.pc t' q t).prev = some (idx, prev) → s.localReservedEpoch t idx = prev := by
    intro t' q hq hupd
    by_cases ht : t = t'
    · subst ht
      rw [update_self] at hupd
      exact hq hupd
    · rw [update_of_ne ht] at hupd
      exact hread t idx prev hupd
  -- a step that stores into an entry of `t'`
  have store : ∀ {t' : Fin n} {e : Fin numPophe} {r : ℕ} {q : Pc Obj Loc},
      (q.prev = some (idx, prev) → e = idx ∧ r = prev) →
      (update s.pc t' q t).prev = some (idx, prev) →
      update s.localReservedEpoch t' (update (s.localReservedEpoch t') e r) t idx = prev := by
    intro t' e r q hq hupd
    by_cases ht : t = t'
    · subst ht
      rw [update_self] at hupd ⊢
      obtain ⟨rfl, rfl⟩ := hq hupd
      exact update_self ..
    · rw [update_of_ne ht] at hupd ⊢
      exact hread t idx prev hupd
  cases hstep with
  | write l p => exact hread t idx prev hpc'
  | link o b h hb => exact hread t idx prev hpc'
  | unlink o h => exact hread t idx prev hpc'
  | alloc t' hr hpc hmod => exact hread t idx prev hpc'
  -- the handlers only read the entries
  | handlerEnter t' hp hh => exact hread t idx prev hpc'
  | handlerPublish t' e hh => exact hread t idx prev hpc'
  | handlerReturn t' hh => exact hread t idx prev hpc'
  | callRead t' idx' l hr hpc =>
    refine away (fun h => ?_) hpc'
    cases h
    rfl
  | readLoad t' idx' l prev' hr hpc =>
    -- the epoch that was loaded is not yet in the entry
    refine away (fun h => hread t' idx prev ?_) hpc'
    rw [hpc]
    exact h
  | readStore t' idx' l curr hr hpc =>
    refine store (fun h => ?_) hpc'
    cases h
    exact ⟨rfl, rfl⟩
  | endOp t' e hr hpc =>
    refine store (fun h => ?_) hpc'
    cases h
  | _ =>
    refine away (fun h => ?_) hpc'
    cases h

/-- What is known about returned objects is kept by every step. -/
private theorem Step.held {s s' : State n Obj Loc} {a : Actor n} (hstep : Step cfg s a s')
    (hepoch : s.epoch ≠ 0)
    (hread : ∀ t idx prev, (s.pc t).prev = some (idx, prev) → s.localReservedEpoch t idx = prev)
    (hheld : ∀ u e o, s.held u e o = true → s.seen u e o = true ∧ s.localReservedEpoch u e ≠ 0)
    (u : Fin n) (e : Fin numPophe) (o : Obj) (hh : s'.held u e o = true) :
    s'.seen u e o = true ∧ s'.localReservedEpoch u e ≠ 0 := by
  have store : ∀ {t : Fin n} {e' : Fin numPophe} {r : ℕ},
      (s.setEpoch t e' r).held u e o = true →
        (s.setEpoch t e' r).seen u e o = true ∧
          (s.setEpoch t e' r).localReservedEpoch u e ≠ 0 := by
    intro t e' r h
    obtain ⟨hold, hne⟩ := seen_store h
    have hold' := hheld u e o hold
    by_cases hu : u = t
    · subst hu
      have he : e ≠ e' := fun he => hne ⟨rfl, he⟩
      simpa [State.setEpoch, update_of_ne he] using hold'
    · simpa [State.setEpoch, update_of_ne hu] using hold'
  cases hstep with
  | readLoad t idx l prev hr hpc =>
    obtain ⟨hseen, hne⟩ := hheld u e o hh
    refine ⟨?_, hne⟩
    show update s.seen t (update (s.seen t) idx _) u e o = true
    by_cases hu : u = t
    · subst hu
      by_cases he : e = idx
      · subst he
        simp [hseen]
      · simpa [update_of_ne he] using hseen
    · rwa [update_of_ne hu]
  | readReturn t idx l prev ptr hr hpc hcurr =>
    rcases seen_add hh with hold | ⟨rfl, rfl, hnew⟩
    · exact hheld u e o hold
    · -- the entry holds the current epoch
      simp only [Bool.and_eq_true] at hnew
      have hprev : s.localReservedEpoch u e = prev := hread u e prev (by rw [hpc]; rfl)
      have hne : s.localReservedEpoch u e ≠ 0 := by
        rw [hprev, ← hcurr]
        exact hepoch
      exact ⟨hnew.2, hne⟩
  | readStore t idx l curr hr hpc => exact store hh
  | endOp t e' hr hpc => exact store hh
  | _ => exact hheld u e o hh

theorem Base.step {s s' : State n Obj Loc} {a : Actor n} (hB : Base s)
    (hstep : Step cfg s a s') : Base s' where
  hazard := by
    rcases hstep.hazard with heq | hh
    · rw [heq]
      exact hB.hazard
    · exact hB.hazard.step hh
  mypublishingTS := by
    cases hstep with
    | publishEnd t hr hpc => exact BitVec.update_ofNat hB.mypublishingTS t
    | handlerReturn t hh => exact BitVec.update_ofNat hB.mypublishingTS t
    | _ => exact hB.mypublishingTS
  myscannedTS := by
    cases hstep with
    | sample t i hr hpc => exact BitVec.update₂_ofNat hB.myscannedTS (hB.mypublishingTS i)
    | _ => exact hB.myscannedTS
  scannedPubs_le := by
    intro t u
    have hle := hstep.pubs_le u
    cases hstep with
    | sample t' i hr hpc => exact update₂_le hB.scannedPubs_le (fun _ => le_rfl) t' i t u
    | _ => exact (hB.scannedPubs_le t u).trans hle
  savedPubs_le := by
    intro t u
    have hle := hstep.pubs_le u
    cases hstep with
    | saveEpoch t' hr hpc =>
      show update s.savedPubs t' s.pubs t u ≤ s.pubs u
      by_cases ht : t = t'
      · subst ht
        rw [update_self]
      · rw [update_of_ne ht]
        exact hB.savedPubs_le t u
    | _ => exact (hB.savedPubs_le t u).trans hle
  epoch_pos := by
    cases hstep with
    | bumpEpoch t hr hpc => exact Nat.succ_ne_zero _
    | _ => exact hB.epoch_pos
  read := hstep.read hB.read
  held := hstep.held hB.epoch_pos hB.read hB.held
  custody := hB.custody.step hstep.custody

end HazardEraPop
end PopSetbench

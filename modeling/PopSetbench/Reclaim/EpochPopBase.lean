import PopSetbench.Library.Hazard
import PopSetbench.Reclaim.EpochPop

/-!
# EpochPOP: what every step keeps

The facts about EpochPOP that hold in every run.

* `Step.hazard` and `Step.custody` — on reservations, objects and retired lists, every step is
  a step of hazard pointers that are published on request (`Hazard.Step`, with a signalling
  thread that does not publish) and of the custody of retired objects.
* `Base` and `Base.step` — the invariant of the published reservations.
* `Epochs` and `Epochs.step` — the invariant of the epochs: whoever holds an object is inside
  an operation, and its reservation is not above the stamp of the object once that is
  retired (`Epochs.stamped`). This is what makes `rcu_empty` safe in every run.
-/

namespace PopSetbench
namespace EpochPop

open Function

variable {n : ℕ} {Obj Loc : Type}

/-! ### The hazard pointers underneath -/

/-- The part of a thread's signalling round it is in; the round ends after the confirmation
loop. -/
def stageOf (n : ℕ) : Pc Obj Loc → Stage
  | .ping i => .reach i
  | .confirm _ => .reach n
  | _ => .out

/-- The reservations of all threads, as a table that is published on request. -/
def State.hs (s : State n Obj Loc) : Handshake n slotsPerThread (Option Obj) where
  loc := s.localSlots
  pub := s.slots
  pubs := s.pubs
  setAt := s.setAt
  pinged := s.pinged
  handler := s.handler
  self _ := none
  ann := s.ann
  stage := stageOf n ∘ s.pc

/-- The reservations and the objects they name. -/
def State.hz (s : State n Obj Loc) : Hazard n slotsPerThread (Option Obj) Obj where
  table := s.hs
  life := s.life
  held := Hazard.heldBy s.localSlots s.valid
  retireAt := s.retireAt

/-- Thread `u` holds `o`: a `read` validated slot `e` while `o` was reachable, and the slot
was neither overwritten nor cleared since. -/
def Holds (s : State n Obj Loc) (u : Fin n) (e : Fin slotsPerThread) (o : Obj) : Prop :=
  s.hz.Holds u e o

/-- Moving to another point outside the signalling round does not touch the table. -/
theorem goto_hs {s : State n Obj Loc} {t : Fin n} {p : Pc Obj Loc}
    (hst : stageOf n p = stageOf n (s.pc t)) : (s.goto t p).hs = s.hs := by
  simp only [State.hs, State.goto, comp_update, update_comp_of_eq hst.symm]

/-- The retired objects of each thread. -/
def State.objs (s : State n Obj Loc) : Fin n → List Obj :=
  List.map RCUInfo.obj ∘ s.retired

variable [DecidableEq Obj] [DecidableEq Loc] {cfg : Config}

/-- Every step leaves reservations and objects alone or is a step of hazard pointers. -/
theorem Step.hazard {s s' : State n Obj Loc} {a : Actor n} (hstep : Step cfg s a s')
    (hread : ∀ t idx l ret, s.pc t = .readCheck idx l ret → s.localSlots t idx = ret.obj) :
    s'.hz = s.hz ∨ Hazard.Step false s.hz s'.hz := by
  have out : ∀ {t : Fin n} {p q : Pc Obj Loc}, s.pc t = p →
      stageOf n q = stageOf n p → (s.goto t q).hs = s.hs :=
    fun hpc hst => goto_hs (by rw [hpc, hst])
  -- a step that changes no table and no object
  have quiet : ∀ {x : State n Obj Loc}, x.hs = s.hs → x.life = s.life → x.valid = s.valid →
      x.retireAt = s.retireAt → x.hz = s.hz := by
    intro x hs hl hv hr
    have hloc : x.localSlots = s.localSlots := congrArg Handshake.loc hs
    unfold State.hz
    rw [hs, hloc, hl, hv, hr]
  -- an unlinked object is retired
  have retire : ∀ {x : State n Obj Loc} {o : Obj}, s.life o = .unlinked → x.hs = s.hs →
      x.life = update s.life o .retired → x.valid = s.valid →
      x.retireAt = update s.retireAt o s.pubs → Hazard.Step false s.hz x.hz := by
    intro x o ho hs hl hv hr
    have hloc : x.localSlots = s.localSlots := congrArg Handshake.loc hs
    exact .of_objects (.retire s.hz o ho) hs hl (congrArg₂ Hazard.heldBy hloc hv) hr
  -- a thread writes one of its own slots
  have store : ∀ {t : Fin n} {p q : Pc Obj Loc} (e : Fin slotsPerThread) (r : Option Obj),
      s.Runs t → s.pc t = p → stageOf n q = stageOf n p →
        Hazard.Step false s.hz ((s.setSlot t e r).goto t q).hz := by
    intro t p q e r hr hpc hst
    have hs : ((s.setSlot t e r).goto t q).hs = (s.setSlot t e r).hs :=
      goto_hs (by rw [hst, ← hpc]; rfl)
    have hstep : Hazard.Step false s.hz _ :=
      .store s.hz t e r (s.setSlot t e r).hz.held hr.2 rfl fun _ _ _ => Hazard.heldBy_store
    unfold State.hz
    rw [hs]
    exact hstep
  cases hstep with
  | write l p => exact .inl rfl
  | link o h => exact .inr (.link s.hz o h)
  | unlink o h => exact .inr (.unlink s.hz o h)
  | alloc t hr hpc =>
    refine .inl (quiet (out hpc ?_) rfl rfl rfl)
    split <;> rfl
  -- the epochs are no part of hazard pointers
  | bumpEpoch t hr hpc => exact .inl (quiet (out hpc rfl) rfl rfl rfl)
  | callStartOp t hr hpc hact => exact .inl (quiet (out hpc rfl) rfl rfl rfl)
  | startOp t e hr hpc => exact .inl (quiet (out hpc rfl) rfl rfl rfl)
  | callRead t idx l hr hpc hact => exact .inl (quiet (out hpc rfl) rfl rfl rfl)
  | readLoad t idx l hr hpc => exact .inl (quiet (out hpc rfl) rfl rfl rfl)
  -- the reservation of a `read`
  | readReserve t idx l ret hr hpc => exact .inr (store idx ret.obj hr hpc rfl)
  | readReturn t idx l ret hr hpc hret =>
    right
    refine .of_objects (.read s.hz (Hazard.heldBy s.localSlots (update s.valid t
      (update (s.valid t) idx _))) fun u e o hh => ?_) (out hpc rfl) rfl rfl rfl
    rw [← hread t idx l ret hpc] at hh
    exact (Hazard.heldBy_validate hh).imp id of_decide_eq_true
  | readRetry t idx l ret hr hpc hret => exact .inl (quiet (out hpc rfl) rfl rfl rfl)
  | callEndOp t hr hpc hact => exact .inl (quiet (out hpc rfl) rfl rfl rfl)
  -- `endOp` clears the slots one by one
  | endOp t e hr hpc => exact .inr (store e none hr hpc rfl)
  | endOpReturn t hr hpc => exact .inl (quiet (out hpc rfl) rfl rfl rfl)
  | retireEnterLoWm t o rand hr hpc ho hpast hfirst =>
    exact .inr (retire ho (out hpc rfl) rfl rfl rfl)
  -- the object becomes retired, whatever is done with the list after that
  | retireLoWm t o hr hpc ho hpast hfirst => exact .inr (retire ho (out hpc rfl) rfl rfl rfl)
  | retire t o hr hpc ho hpast => exact .inr (retire ho (out hpc rfl) rfl rfl rfl)
  -- what the low watermark saves is the reclaimer's own
  | saveTS t i hr hpc => exact .inl (quiet (out hpc rfl) rfl rfl rfl)
  | saveTSEnd t hr hpc => exact .inl (quiet (out hpc rfl) rfl rfl rfl)
  | checkHit t i hr hpc hge => exact .inl (quiet (out hpc rfl) rfl rfl rfl)
  | checkMiss t i hr hpc hlt => exact .inl (quiet (out hpc rfl) rfl rfl rfl)
  | checkEnd t hr hpc => exact .inl (quiet (out hpc rfl) rfl rfl rfl)
  | callRcuEmpty t hr hpc hout => exact .inl (quiet (out hpc rfl) rfl rfl rfl)
  | retireReturn t hr hpc hout => exact .inl (quiet (out hpc rfl) rfl rfl rfl)
  | minEpoch t i m hr hpc => exact .inl (quiet (out hpc rfl) rfl rfl rfl)
  | minEpochEnd t m hr hpc => exact .inl (quiet (out hpc rfl) rfl rfl rfl)
  | rcuFree t pos m res hr hpc ho hlt =>
    exact .inr (.of_objects (.free s.hz res.obj) (out hpc rfl) rfl rfl rfl)
  | rcuKeep t pos m res hr hpc ho hge => exact .inl (quiet (out hpc rfl) rfl rfl rfl)
  | rcuForce t pos m hr hpc hend hforce => exact .inl (quiet (out hpc rfl) rfl rfl rfl)
  | rcuEnd t pos m hr hpc hend hforce => exact .inl (quiet (out hpc rfl) rfl rfl rfl)
  | sample t i hr hpc => exact .inl (quiet (out hpc rfl) rfl rfl rfl)
  | sampleEnd t hr hpc => exact .inl (quiet (out hpc rfl) rfl rfl rfl)
  | announceStart t hr hpc =>
    -- the signalling round is a round of the handshake
    right
    have hstep : Handshake.Step false s.hs _ := .begin s.hs t (by simp [State.hs, hpc, stageOf]) rfl
    refine .of_table ?_ rfl rfl rfl rfl rfl
    simpa [State.hz, State.hs, State.announce, State.goto, comp_update, stageOf] using hstep
  | ping t i hr hpc hi =>
    right
    have hstep : Handshake.Step false s.hs _ := .ping s.hs t i (by simp [State.hs, hpc, stageOf])
    refine .of_table ?_ rfl rfl rfl rfl rfl
    simpa [State.hz, State.hs, State.goto, comp_update, stageOf] using hstep
  | pingSelf t hr hpc =>
    right
    have hstep : Handshake.Step false s.hs _ := .skip s.hs t (by simp [State.hs, hpc, stageOf])
    refine .of_table ?_ rfl rfl rfl rfl rfl
    simpa [State.hz, State.hs, State.goto, comp_update, stageOf] using hstep
  | pingEnd t hr hpc => exact .inl (quiet (out hpc rfl) rfl rfl rfl)
  | confirm t i hr hpc => exact .inl (quiet (out hpc rfl) rfl rfl rfl)
  | announceDone t hr hpc =>
    right
    have hstep : Handshake.Step false s.hs _ := .finish s.hs t (by simp [State.hs, hpc, stageOf])
    refine .of_table ?_ rfl rfl rfl rfl rfl
    simpa [State.hz, State.hs, State.announce, State.goto, comp_update, stageOf] using hstep
  -- the scan reads what was published
  | hpNext t u e path pos m res hr hpc hgo ho hne => exact .inl (quiet (out hpc rfl) rfl rfl rfl)
  | hpKeep t u e path pos m res hr hpc hgo ho heq => exact .inl (quiet (out hpc rfl) rfl rfl rfl)
  | hpFree t path pos m res hr hpc hgo ho =>
    exact .inr (.of_objects (.free s.hz res.obj) (out hpc rfl) rfl rfl rfl)
  | hpEnd t pos m hr hpc hstop => exact .inl (quiet (out hpc rfl) rfl rfl rfl)
  | loWmEnd t pos m hr hpc hstop => exact .inl (quiet (out hpc rfl) rfl rfl rfl)
  | handlerEnter t hp hh => exact .inr (.of_table (.enter s.hs t hp hh) rfl rfl rfl rfl rfl)
  | handlerPublish t e hh => exact .inr (.of_table (.handlerCopy s.hs t e hh) rfl rfl rfl rfl rfl)
  | handlerReturn t hh => exact .inr (.of_table (.handlerDone s.hs t hh) rfl rfl rfl rfl rfl)

/-! ### What one step does to the retired lists -/

omit [DecidableEq Loc] in
private theorem pushBack_objs (s : State n Obj Loc) (t : Fin n) (o : Obj) :
    (s.pushBack t o).objs = update s.objs t (s.objs t ++ [o]) := by
  simp [State.objs, State.pushBack, comp_update]

omit [DecidableEq Loc] in
private theorem passToPool_objs (s : State n Obj Loc) (t : Fin n) (pos : ℕ) (o : Obj) :
    (s.passToPool t pos o).objs = update s.objs t ((s.objs t).eraseIdx pos) := by
  simp [State.objs, State.passToPool, comp_update, List.eraseIdx_map]

omit [DecidableEq Obj] [DecidableEq Loc] in
private theorem objs_getElem {s : State n Obj Loc} {t : Fin n} {pos : ℕ} {res : RCUInfo Obj}
    (h : (s.retired t)[pos]? = some res) : (s.objs t)[pos]? = some res.obj := by
  simp [State.objs, h]

theorem Step.custody {s s' : State n Obj Loc} {a : Actor n} (hstep : Step cfg s a s') :
    Custody.Step s.objs s.life s'.objs s'.life := by
  have push : ∀ {x : State n Obj Loc} {t : Fin n} {o : Obj}, s.life o = .unlinked →
      x.retired = (s.pushBack t o).retired → x.life = update s.life o .retired →
      Custody.Step s.objs s.life x.objs x.life := by
    intro x t o ho hret hlife
    refine .push t o ho ?_ hlife
    rw [← pushBack_objs]
    unfold State.objs
    rw [hret]
  cases hstep with
  | link o h => exact .of_update rfl (by simp [h]) (by simp)
  | unlink o h => exact .of_update rfl (by simp [h]) (by simp)
  | retireEnterLoWm t o rand hr hpc ho hpast hfirst => exact push ho rfl rfl
  | retireLoWm t o hr hpc ho hpast hfirst => exact push ho rfl rfl
  | retire t o hr hpc ho hpast => exact push ho rfl rfl
  | rcuFree t pos m res hr hpc ho hlt =>
    exact .free t pos res.obj (objs_getElem ho) (passToPool_objs s t pos res.obj) rfl
  | hpFree t path pos m res hr hpc hgo ho =>
    exact .free t pos res.obj (objs_getElem ho) (passToPool_objs s t pos res.obj) rfl
  | _ => exact .keep rfl fun _ => Iff.rfl

/-! ### The invariant of the published reservations -/

theorem Step.pubs_le {s s' : State n Obj Loc} {a : Actor n} (hstep : Step cfg s a s')
    (hread : ∀ t idx l ret, s.pc t = .readCheck idx l ret → s.localSlots t idx = ret.obj)
    (u : Fin n) : s.pubs u ≤ s'.pubs u := by
  rcases hstep.hazard hread with heq | hh
  · exact le_of_eq
      (congrArg (fun h : Hazard n slotsPerThread (Option Obj) Obj => h.table.pubs u) heq).symm
  · exact hh.pubs_le u

/-- What every step keeps, of the reservations and the lists. -/
structure Base (s : State n Obj Loc) : Prop where
  hazard : s.hz.Inv
  /-- The two shared counters count modulo their width. -/
  mypublishingTS : ∀ u, s.mypublishingTS u = BitVec.ofNat 32 (s.pubs u)
  announcedTS : ∀ u, s.announcedTS u = BitVec.ofNat 32 (s.ann u)
  /-- The samples are values these counters had. -/
  myscannedTS : ∀ t u, s.myscannedTS t u = BitVec.ofNat 32 (s.scannedPubs t u)
  scannedPubs_le : ∀ t u, s.scannedPubs t u ≤ s.pubs u
  savedTS : ∀ t u, s.savedTS t u = BitVec.ofNat 32 (s.savedAnn t u)
  savedPubs_le : ∀ t u, s.savedPubs t u ≤ s.pubs u
  /-- Before the second load, the slot holds what was loaded first. -/
  read : ∀ t idx l ret, s.pc t = .readCheck idx l ret → s.localSlots t idx = ret.obj
  /-- Every retired object waits in one list, once. -/
  custody : Custody s.objs fun o => s.life o = .retired

omit [DecidableEq Obj] [DecidableEq Loc] in
theorem Base.initial : Base (State.initial n Obj Loc) where
  hazard :=
    { table :=
        { fresh := fun _ _ h => absurd h (Nat.lt_irrefl 0)
          setAt_le := fun _ _ => le_rfl
          handler_copied := fun _ _ h => nomatch h
          self_copied := fun _ _ h => nomatch h
          counts := fun _ => ⟨fun h => absurd h (by simp [State.hz, State.hs, State.initial]),
            fun h => absurd rfl h⟩ }
      held := fun _ _ _ h => nomatch h.2
      retireAt_le := fun _ _ h => nomatch h }
  mypublishingTS _ := rfl
  announcedTS _ := rfl
  myscannedTS _ _ := rfl
  scannedPubs_le _ _ := le_rfl
  savedTS _ _ := rfl
  savedPubs_le _ _ := le_rfl
  read _ _ _ _ h := nomatch h
  custody := Custody.nil _

/-- What a thread's `readCheck` relies on is kept by every step. -/
private theorem Step.read {s s' : State n Obj Loc} {a : Actor n} (hstep : Step cfg s a s')
    (hread : ∀ t idx l ret, s.pc t = .readCheck idx l ret → s.localSlots t idx = ret.obj)
    (t : Fin n) (idx : Fin slotsPerThread) (l : Loc) (ret : Ptr Obj)
    (hpc' : s'.pc t = .readCheck idx l ret) : s'.localSlots t idx = ret.obj := by
  -- a step of thread `t'` that leaves the slots alone and ends elsewhere
  have away : ∀ {t' : Fin n} {q : Pc Obj Loc}, (∀ i l r, q ≠ .readCheck i l r) →
      update s.pc t' q t = .readCheck idx l ret → s.localSlots t idx = ret.obj := by
    intro t' q hq hupd
    by_cases ht : t = t'
    · subst ht
      rw [update_self] at hupd
      exact absurd hupd (hq idx l ret)
    · rw [update_of_ne ht] at hupd
      exact hread t idx l ret hupd
  cases hstep with
  | write l p => exact hread t idx _ ret hpc'
  | link o h => exact hread t idx l ret hpc'
  | unlink o h => exact hread t idx l ret hpc'
  | handlerEnter t' hp hh => exact hread t idx l ret hpc'
  | handlerPublish t' e hh => exact hread t idx l ret hpc'
  | handlerReturn t' hh => exact hread t idx l ret hpc'
  | readReserve t' idx' l' ret' hr hpc =>
    -- the reservation is what the check is about
    by_cases ht : t = t'
    · subst ht
      have heq : (Pc.readCheck idx' l' ret' : Pc Obj Loc) = .readCheck idx l ret := by
        simpa [State.goto, State.setSlot] using hpc'
      cases heq
      simp [State.goto, State.setSlot]
    · have hold := hread t idx l ret (by simpa [State.goto, State.setSlot, ht] using hpc')
      simpa [State.goto, State.setSlot, ht] using hold
  | endOp t' e hr hpc =>
    by_cases ht : t = t'
    · subst ht
      simp [State.goto, State.setSlot] at hpc'
    · have hold := hread t idx l ret (by simpa [State.goto, State.setSlot, ht] using hpc')
      simpa [State.goto, State.setSlot, ht] using hold
  | alloc t' hr hpc =>
    refine away ?_ hpc'
    intro i l r h
    split at h <;> cases h
  | _ =>
    -- no other step ends in the check
    refine away ?_ hpc'
    intro i l r h
    cases h

theorem Base.step {s s' : State n Obj Loc} {a : Actor n} (hB : Base s)
    (hstep : Step cfg s a s') : Base s' where
  -- the tables and the objects obey the protocol of hazard pointers
  hazard := by
    rcases hstep.hazard hB.read with heq | hh
    · rw [heq]
      exact hB.hazard
    · exact hB.hazard.step hh
  mypublishingTS := by
    cases hstep with
    | handlerReturn t hh => exact BitVec.update_ofNat hB.mypublishingTS t
    | _ => exact hB.mypublishingTS
  -- the counters of the source are those of the handshake, as 64-bit values
  announcedTS := by
    cases hstep with
    | announceStart t hr hpc => exact BitVec.update_ofNat hB.announcedTS t
    | announceDone t hr hpc => exact BitVec.update_ofNat hB.announcedTS t
    | _ => exact hB.announcedTS
  myscannedTS := by
    cases hstep with
    | sample t i hr hpc => exact BitVec.update₂_ofNat hB.myscannedTS (hB.mypublishingTS i)
    | _ => exact hB.myscannedTS
  -- what was counted at a sample is not above the count
  scannedPubs_le := by
    intro t u
    have hle := hstep.pubs_le hB.read u
    cases hstep with
    | sample t' i hr hpc => exact update₂_le hB.scannedPubs_le (fun _ => le_rfl) t' i t u
    | _ => exact (hB.scannedPubs_le t u).trans hle
  savedTS := by
    cases hstep with
    | saveTS t i hr hpc => exact BitVec.update₂_ofNat hB.savedTS (hB.announcedTS i)
    | _ => exact hB.savedTS
  -- nor what was counted on entering the low watermark
  savedPubs_le := by
    intro t u
    have hle := hstep.pubs_le hB.read u
    cases hstep with
    | retireEnterLoWm t' o rand hr hpc ho hpast hfirst =>
      show update s.savedPubs t' s.pubs t u ≤ s.pubs u
      by_cases ht : t = t'
      · subst ht
        rw [update_self]
      · rw [update_of_ne ht]
        exact hB.savedPubs_le t u
    | _ => exact (hB.savedPubs_le t u).trans hle
  read := hstep.read hB.read
  custody := hB.custody.step hstep.custody

/-! ### The invariant of the epochs -/

/-- The points of `read` and `endOp`, at which a thread is inside an operation. -/
def Pc.inOp : Pc Obj Loc → Bool
  | .readLoad .. => true
  | .readReserve .. => true
  | .readCheck .. => true
  | .endOp _ => true
  | _ => false

/-- What every step keeps, of the epochs. -/
structure Epochs (s : State n Obj Loc) : Prop where
  active_of : ∀ t, (s.pc t).inOp = true → s.active t = true
  /-- `startOp` is called outside operations, and stores an epoch of the past. -/
  starting : ∀ t e, s.pc t = .startOp e → s.active t = false ∧ e ≤ s.epoch
  /-- Inside an operation the thread has reserved an epoch of the past. -/
  reserved : ∀ t, s.active t = true → s.reservations t ≤ (s.epoch : WithTop ℕ)
  /-- `endOp` has cleared the slots it has passed. -/
  cleared : ∀ t i, s.pc t = .endOp i → ∀ e : Fin slotsPerThread, e.val < i →
    s.localSlots t e = none
  /-- Whoever holds an object is inside an operation. -/
  held_active : ∀ u e o, Holds s u e o → s.active u = true
  /-- Whoever holds a retired object has a reservation that is not above its stamp. -/
  stamped : ∀ t res, res ∈ s.retired t → ∀ u e, Holds s u e res.obj →
    s.reservations u ≤ (res.epoch : WithTop ℕ)

omit [DecidableEq Obj] [DecidableEq Loc] in
theorem Epochs.initial : Epochs (State.initial n Obj Loc) where
  active_of _ h := nomatch h
  starting _ _ h := nomatch h
  reserved _ h := nomatch h
  cleared _ _ h := nomatch h
  held_active _ _ _ h := nomatch h.2
  stamped _ _ h := nomatch h

omit [DecidableEq Obj] [DecidableEq Loc] in
/-- Where a thread is after somebody has moved. -/
private theorem pc_update {s : State n Obj Loc} {t u : Fin n} {p q : Pc Obj Loc}
    (h : update s.pc t q u = p) : (u = t ∧ q = p) ∨ (u ≠ t ∧ s.pc u = p) := by
  by_cases hu : u = t
  · subst hu
    rw [update_self] at h
    exact .inl ⟨rfl, h⟩
  · rw [update_of_ne hu] at h
    exact .inr ⟨hu, h⟩

omit [DecidableEq Obj] [DecidableEq Loc] in
/-- Writing a slot begins no hold. -/
private theorem holds_setSlot {s : State n Obj Loc} {t u : Fin n} {e e' : Fin slotsPerThread}
    {r : Option Obj} {o : Obj} (h : Holds (s.setSlot t e r) u e' o) : Holds s u e' o := by
  obtain ⟨hl, hv⟩ := h
  change update s.localSlots t (update (s.localSlots t) e r) u e' = some o at hl
  change update s.valid t (update (s.valid t) e false) u e' = true at hv
  by_cases hu : u = t
  · subst hu
    rw [update_self] at hl hv
    by_cases he : e' = e
    · subst he
      rw [update_self] at hv
      cases hv
    · rw [update_of_ne he] at hl hv
      exact ⟨hl, hv⟩
  · rw [update_of_ne hu] at hl hv
    exact ⟨hl, hv⟩

/-- Whoever holds an object keeps its reservation. -/
theorem Step.reservations_eq {s s' : State n Obj Loc} {a : Actor n} (hE : Epochs s)
    (hstep : Step cfg s a s') {u : Fin n} {e : Fin slotsPerThread} {o : Obj}
    (hh : Holds s u e o) : s'.reservations u = s.reservations u := by
  cases hstep with
  | startOp t e' hr hpc =>
    have hne : u ≠ t := by
      -- outside an operation nothing is held
      rintro rfl
      have hact := hE.held_active u e o hh
      rw [(hE.starting u e' hpc).1] at hact
      cases hact
    exact update_of_ne hne ..
  | endOpReturn t hr hpc =>
    have hne : u ≠ t := by
      rintro rfl
      have hnone := hE.cleared u slotsPerThread hpc e e.isLt
      exact absurd (hnone.symm.trans hh.1) (by simp)
    exact update_of_ne hne ..
  | _ => rfl

/-- The entries of a list are those of before, or one stamped with the current epoch. -/
private theorem Step.retired_mem {s s' : State n Obj Loc} {a : Actor n}
    (hstep : Step cfg s a s') {t : Fin n} {res : RCUInfo Obj} (h : res ∈ s'.retired t) :
    res ∈ s.retired t ∨
      (res.epoch = s.epoch ∧ s'.localSlots = s.localSlots ∧ s'.valid = s.valid) := by
  have push : ∀ {t' : Fin n} {o : Obj},
      res ∈ update s.retired t' (s.retired t' ++ [⟨o, s.epoch⟩]) t →
        res ∈ s.retired t ∨ res.epoch = s.epoch := by
    intro t' o hres
    by_cases ht : t = t'
    · subst ht
      rw [update_self, List.mem_append, List.mem_singleton] at hres
      exact hres.imp id fun heq => congrArg RCUInfo.epoch heq
    · rw [update_of_ne ht] at hres
      exact .inl hres
  have free : ∀ {t' : Fin n} {pos : ℕ},
      res ∈ update s.retired t' ((s.retired t').eraseIdx pos) t → res ∈ s.retired t := by
    intro t' pos hres
    by_cases ht : t = t'
    · subst ht
      rw [update_self] at hres
      exact List.mem_of_mem_eraseIdx hres
    · rwa [update_of_ne ht] at hres
  cases hstep with
  | retireEnterLoWm t' o rand hr hpc ho hpast hfirst =>
    exact (push h).imp id fun he => ⟨he, rfl, rfl⟩
  | retireLoWm t' o hr hpc ho hpast hfirst => exact (push h).imp id fun he => ⟨he, rfl, rfl⟩
  | retire t' o hr hpc ho hpast => exact (push h).imp id fun he => ⟨he, rfl, rfl⟩
  | rcuFree t' pos m res' hr hpc ho hlt => exact .inl (free h)
  | hpFree t' path pos m res' hr hpc hgo ho => exact .inl (free h)
  | _ => exact .inl h

theorem Epochs.step {s s' : State n Obj Loc} {a : Actor n} (hB : Base s) (hE : Epochs s)
    (hstep : Step cfg s a s') : Epochs s' where
  active_of := by
    intro t hin
    -- a step of `t'` that ends in a place of an operation starts in one
    have away : ∀ {t' : Fin n} {q : Pc Obj Loc}, (q.inOp = true → s.active t' = true) →
        (update s.pc t' q t).inOp = true → s.active t = true := by
      intro t' q hq h
      rcases pc_update (rfl : update s.pc t' q t = _) with ⟨rfl, heq⟩ | ⟨-, heq⟩
      · rw [← heq] at h
        exact hq h
      · rw [← heq] at h
        exact hE.active_of t h
    have stay : ∀ {t' : Fin n} {p : Pc Obj Loc}, s.pc t' = p → p.inOp = true →
        s.active t' = true := fun hpc hp => hE.active_of _ (by rw [hpc]; exact hp)
    cases hstep with
    -- the data structure and the handlers move nobody
    | write l p => exact hE.active_of t hin
    | link o h => exact hE.active_of t hin
    | unlink o h => exact hE.active_of t hin
    | handlerEnter t' hp hh => exact hE.active_of t hin
    | handlerPublish t' e hh => exact hE.active_of t hin
    | handlerReturn t' hh => exact hE.active_of t hin
    | alloc t' hr hpc =>
      refine away ?_ hin
      split <;> exact nofun
    | startOp t' e hr hpc =>
      -- `startOp` makes the thread active
      show update s.active t' true t = true
      rcases pc_update (rfl : update s.pc t' .idle t = _) with ⟨rfl, -⟩ | ⟨hne, -⟩
      · exact update_self ..
      · rw [update_of_ne hne]
        exact away (by exact nofun) hin
    | endOpReturn t' hr hpc =>
      -- and the end of `endOp` makes it inactive
      show update s.active t' false t = true
      rcases pc_update (rfl : update s.pc t' .idle t = _) with ⟨rfl, heq⟩ | ⟨hne, -⟩
      · change (update s.pc t .idle t).inOp = true at hin
        rw [update_self] at hin
        cases hin
      · rw [update_of_ne hne]
        exact away (by exact nofun) hin
    | callRead t' idx l hr hpc hact => exact away (fun _ => hact) hin
    | callEndOp t' hr hpc hact => exact away (fun _ => hact) hin
    | readLoad t' idx l hr hpc => exact away (fun _ => stay hpc rfl) hin
    | readReserve t' idx l ret hr hpc => exact away (fun _ => stay hpc rfl) hin
    | readRetry t' idx l ret hr hpc hret => exact away (fun _ => stay hpc rfl) hin
    | endOp t' e hr hpc => exact away (fun _ => stay hpc rfl) hin
    | _ => exact away (by exact nofun) hin
  -- the epoch that `startOp` has read is not above the present one
  starting := by
    intro t e hpc'
    have away : ∀ {t' : Fin n} {q : Pc Obj Loc}, q ≠ .startOp e →
        update s.pc t' q t = .startOp e → s.active t = false ∧ e ≤ s.epoch := by
      intro t' q hq h
      rcases pc_update h with ⟨-, heq⟩ | ⟨-, heq⟩
      · exact absurd heq hq
      · exact hE.starting t e heq
    cases hstep with
    | write l p => exact hE.starting t e hpc'
    | link o h => exact hE.starting t e hpc'
    | unlink o h => exact hE.starting t e hpc'
    | handlerEnter t' hp hh => exact hE.starting t e hpc'
    | handlerPublish t' i hh => exact hE.starting t e hpc'
    | handlerReturn t' hh => exact hE.starting t e hpc'
    | alloc t' hr hpc =>
      refine away ?_ hpc'
      split <;> exact nofun
    | bumpEpoch t' hr hpc =>
      have hold := @away t' _ (by exact nofun) hpc'
      exact ⟨hold.1, Nat.le_succ_of_le hold.2⟩
    | callStartOp t' hr hpc hact =>
      rcases pc_update hpc' with ⟨rfl, heq⟩ | ⟨-, heq⟩
      · cases heq
        exact ⟨hact, le_rfl⟩
      · exact hE.starting t e heq
    | startOp t' e' hr hpc =>
      rcases pc_update hpc' with ⟨-, heq⟩ | ⟨hne, heq⟩
      · cases heq
      · have hold := hE.starting t e heq
        exact ⟨(update_of_ne hne ..).trans hold.1, hold.2⟩
    | endOpReturn t' hr hpc =>
      rcases pc_update hpc' with ⟨-, heq⟩ | ⟨hne, heq⟩
      · cases heq
      · have hold := hE.starting t e heq
        exact ⟨(update_of_ne hne ..).trans hold.1, hold.2⟩
    | _ => exact away (by exact nofun) hpc'
  -- nor is the reservation of an active thread
  reserved := by
    intro t hact
    cases hstep with
    | bumpEpoch t' hr hpc =>
      refine (hE.reserved t hact).trans ?_
      exact WithTop.coe_le_coe.mpr (Nat.le_succ _)
    | startOp t' e hr hpc =>
      show update s.reservations t' (e : WithTop ℕ) t ≤ (s.epoch : WithTop ℕ)
      by_cases ht : t = t'
      · subst ht
        rw [update_self]
        exact WithTop.coe_le_coe.mpr (hE.starting t e hpc).2
      · rw [update_of_ne ht]
        exact hE.reserved t ((update_of_ne ht ..).symm.trans hact)
    | endOpReturn t' hr hpc =>
      show update s.reservations t' ⊤ t ≤ (s.epoch : WithTop ℕ)
      have ht : t ≠ t' := by
        rintro rfl
        change update s.active t false t = true at hact
        rw [update_self] at hact
        cases hact
      rw [update_of_ne ht]
      exact hE.reserved t ((update_of_ne ht ..).symm.trans hact)
    | _ => exact hE.reserved t hact
  -- the slots that `endOp` has passed are empty
  cleared := by
    intro t i hpc' e he
    have away : ∀ {t' : Fin n} {q : Pc Obj Loc}, q ≠ .endOp i →
        update s.pc t' q t = .endOp i → s.localSlots t e = none := by
      intro t' q hq h
      rcases pc_update h with ⟨-, heq⟩ | ⟨-, heq⟩
      · exact absurd heq hq
      · exact hE.cleared t i heq e he
    cases hstep with
    | write l p => exact hE.cleared t i hpc' e he
    | link o h => exact hE.cleared t i hpc' e he
    | unlink o h => exact hE.cleared t i hpc' e he
    | handlerEnter t' hp hh => exact hE.cleared t i hpc' e he
    | handlerPublish t' e' hh => exact hE.cleared t i hpc' e he
    | handlerReturn t' hh => exact hE.cleared t i hpc' e he
    | alloc t' hr hpc =>
      refine away ?_ hpc'
      split <;> exact nofun
    | callEndOp t' hr hpc hact =>
      rcases pc_update hpc' with ⟨-, heq⟩ | ⟨-, heq⟩
      · cases heq
        exact absurd he (Nat.not_lt_zero _)
      · exact hE.cleared t i heq e he
    | endOp t' e' hr hpc =>
      show update s.localSlots t' (update (s.localSlots t') e' none) t e = none
      rcases pc_update hpc' with ⟨rfl, heq⟩ | ⟨hne, heq⟩
      · cases heq
        rw [update_self]
        by_cases hee : e = e'
        · subst hee
          exact update_self ..
        · have hlt : e.val ≠ e'.val := fun hv => hee (Fin.ext hv)
          rw [update_of_ne hee]
          exact hE.cleared t e' hpc e (by omega)
      · rw [update_of_ne hne]
        exact hE.cleared t i heq e he
    | readReserve t' idx l ret hr hpc =>
      rcases pc_update hpc' with ⟨-, heq⟩ | ⟨hne, heq⟩
      · cases heq
      · exact (congrFun (update_of_ne hne ..) e).trans (hE.cleared t i heq e he)
    | _ => exact away (by exact nofun) hpc'
  -- who holds an object is in an operation
  held_active := by
    intro u e o hh
    cases hstep with
    | readReserve t idx l ret hr hpc =>
      exact hE.held_active u e o (holds_setSlot hh)
    | endOp t e' hr hpc => exact hE.held_active u e o (holds_setSlot hh)
    | readReturn t idx l ret hr hpc hret =>
      show s.active u = true
      by_cases hu : u = t
      · subst hu
        exact hE.active_of u (by rw [hpc]; rfl)
      · exact hE.held_active u e o ⟨hh.1, (congrFun (update_of_ne hu ..) e).symm.trans hh.2⟩
    | startOp t e' hr hpc =>
      -- a hold of the thread that begins would be one from before
      show update s.active t true u = true
      by_cases hu : u = t
      · subst hu
        exact update_self ..
      · rw [update_of_ne hu]
        exact hE.held_active u e o hh
    | endOpReturn t hr hpc =>
      -- at the end of `endOp` the slots are empty, so nothing is held
      show update s.active t false u = true
      have hu : u ≠ t := by
        rintro rfl
        have hnone := hE.cleared u slotsPerThread hpc e e.isLt
        exact absurd (hnone.symm.trans hh.1) (by simp)
      rw [update_of_ne hu]
      exact hE.held_active u e o hh
    | _ => exact hE.held_active u e o hh
  -- an object is stamped with the epoch of its retirement, and who holds it has reserved one before
  stamped := by
    intro t res hres u e hh
    rcases hstep.retired_mem hres with hold | ⟨hepoch, hloc, hvalid⟩
    · -- a hold on a retired object is not new, and keeps its reservation
      have hh₀ : Holds s u e res.obj := by
        have hlife := hB.custody.prop t res.obj (List.mem_map_of_mem hold)
        rcases hstep.hazard hB.read with heq | hz
        · unfold Holds at hh ⊢
          rwa [heq] at hh
        · exact hz.held_before hlife hh
      rw [hstep.reservations_eq hE hh₀]
      exact hE.stamped t res hold u e hh₀
    · have hh₀ : Holds s u e res.obj := by
        obtain ⟨hl, hv⟩ := hh
        exact ⟨hloc ▸ hl, hvalid ▸ hv⟩
      rw [hstep.reservations_eq hE hh₀, hepoch]
      exact hE.reserved u (hE.held_active u e res.obj hh₀)

end EpochPop
end PopSetbench

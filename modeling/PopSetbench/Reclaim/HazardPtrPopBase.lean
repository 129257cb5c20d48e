import PopSetbench.Library.Hazard
import PopSetbench.Reclaim.HazardPtrPop

/-!
# HazardPtrPOP: what every step keeps

The facts about HazardPtrPOP that hold in every run, whatever the confirmation loop and the
low watermark see.

* `Step.hazard` — on reservations and objects, every step is a step of hazard pointers that
  are published on request (`Hazard.Step`), or none at all; the table is `State.hz`.
* `Step.custody` — what a step does to the retired lists.
* `Base` and `Base.step` — the invariant: the two 32-bit counters count modulo their width,
  the invariant of `Hazard`, and every retired object waits in one list, once.
-/

namespace PopSetbench
namespace HazardPtrPop

open Function

variable {n : ℕ} {Obj Loc : Type}

/-! ### The hazard pointers underneath -/

/-- The part of a thread's signalling round it is in. -/
def stageOf : Pc Obj Loc → Stage
  | .publish _ => .prep
  | .ping i => .reach i
  | _ => .out

/-- The slots a signalling thread has copied itself. -/
def selfOf : Pc Obj Loc → Option ℕ
  | .publish j => some j
  | _ => none

/-- The reservations of all threads, as a table that is published on request. -/
def State.hs (s : State n Obj Loc) : Handshake n slotsPerThread (Option Obj) where
  loc := s.localSlots
  pub := s.slots
  pubs := s.pubs
  setAt := s.setAt
  pinged := s.pinged
  handler := s.handler
  self := selfOf ∘ s.pc
  ann := s.ann
  stage := stageOf ∘ s.pc

/-- Moving to another point outside the signalling round does not touch the table. -/
theorem goto_hs {s : State n Obj Loc} {t : Fin n} {p : Pc Obj Loc}
    (hst : stageOf p = stageOf (s.pc t)) (hse : selfOf p = selfOf (s.pc t)) :
    (s.goto t p).hs = s.hs := by
  simp only [State.hs, State.goto, comp_update, update_comp_of_eq hst.symm,
    update_comp_of_eq hse.symm]

/-- The reservations and the objects they name. -/
def State.hz (s : State n Obj Loc) : Hazard n slotsPerThread (Option Obj) Obj where
  table := s.hs
  life := s.life
  held := Hazard.heldBy s.localSlots s.valid
  retireAt := s.retireAt

/-- Thread `u` holds `o`: a `read` validated slot `e` while `o` was reachable, and the slot
was neither overwritten nor cleared since. -/
def Holds (s : State n Obj Loc) (u : Fin n) (e : Fin slotsPerThread) (o : Obj) : Prop :=
  s.hz.Holds u e o

variable [DecidableEq Obj] [DecidableEq Loc] {cfg : Config}

/-- Every step leaves reservations and objects alone or is a step of hazard pointers. -/
theorem Step.hazard {s s' : State n Obj Loc} {a : Actor n} (hstep : Step cfg s a s')
    (hread : ∀ t idx l ret, s.pc t = .readCheck idx l ret → s.localSlots t idx = ret.obj) :
    s'.hz = s.hz ∨ Hazard.Step true s.hz s'.hz := by
  have out : ∀ {t : Fin n} {p q : Pc Obj Loc}, s.pc t = p →
      stageOf q = stageOf p → selfOf q = selfOf p → (s.goto t q).hs = s.hs :=
    fun hpc hst hse => goto_hs (by rw [hpc, hst]) (by rw [hpc, hse])
  -- a step that changes no table and no object
  have quiet : ∀ {x : State n Obj Loc}, x.hs = s.hs → x.life = s.life → x.valid = s.valid →
      x.retireAt = s.retireAt → x.hz = s.hz := by
    intro x hs hl hv hr
    have hloc : x.localSlots = s.localSlots := congrArg Handshake.loc hs
    unfold State.hz
    rw [hs, hloc, hl, hv, hr]
  -- an unlinked object is retired
  have retire : ∀ {x : State n Obj Loc} {o : Obj}, s.life o = .unlinked → x.hs = s.hs →
      x.life = update s.life o .retired → x.valid = s.valid →
      x.retireAt = update s.retireAt o s.pubs → Hazard.Step true s.hz x.hz := by
    intro x o ho hs hl hv hr
    have hloc : x.localSlots = s.localSlots := congrArg Handshake.loc hs
    exact .of_objects (.retire s.hz o ho) hs hl (congrArg₂ Hazard.heldBy hloc hv) hr
  cases hstep with
  | write l p => exact .inl rfl
  | link o h => exact .inr (.link s.hz o h)
  | unlink o h => exact .inr (.unlink s.hz o h)
  | callRead t idx l hr hpc => exact .inl (quiet (out hpc rfl rfl) rfl rfl rfl)
  | readLoad t idx l hr hpc => exact .inl (quiet (out hpc rfl rfl) rfl rfl rfl)
  | readReserve t idx l ret hr hpc =>
    -- the reservation of a `read`
    right
    have hs : ((s.setSlot t idx ret.obj).goto t (.readCheck idx l ret)).hs =
        (s.setSlot t idx ret.obj).hs :=
      goto_hs (by simp [State.setSlot, hpc, stageOf]) (by simp [State.setSlot, hpc, selfOf])
    have hstep : Hazard.Step true s.hz _ :=
      .store s.hz t idx ret.obj (s.setSlot t idx ret.obj).hz.held hr.2
        (by simp [State.hz, State.hs, hpc, selfOf]) fun _ _ _ => Hazard.heldBy_store
    unfold State.hz
    rw [hs]
    exact hstep
  | readReturn t idx l ret hr hpc hret =>
    -- the object may be held once the check has found the same pointer
    right
    refine .of_objects (.read s.hz (Hazard.heldBy s.localSlots (update s.valid t
      (update (s.valid t) idx _))) fun u e o hh => ?_) (out hpc rfl rfl) rfl rfl rfl
    rw [← hread t idx l ret hpc] at hh
    exact (Hazard.heldBy_validate hh).imp id of_decide_eq_true
  | readRetry t idx l ret hr hpc hret => exact .inl (quiet (out hpc rfl rfl) rfl rfl rfl)
  | callEndOp t hr hpc => exact .inl (quiet (out hpc rfl rfl) rfl rfl rfl)
  | endOp t e hr hpc =>
    -- `endOp` clears the slots one by one
    right
    have hs : ((s.setSlot t e none).goto t (.endOp (e.val + 1))).hs = (s.setSlot t e none).hs :=
      goto_hs (by simp [State.setSlot, hpc, stageOf]) (by simp [State.setSlot, hpc, selfOf])
    have hstep : Hazard.Step true s.hz _ :=
      .store s.hz t e none (s.setSlot t e none).hz.held hr.2
        (by simp [State.hz, State.hs, hpc, selfOf]) fun _ _ _ => Hazard.heldBy_store
    unfold State.hz
    rw [hs]
    exact hstep
  | endOpReturn t hr hpc => exact .inl (quiet (out hpc rfl rfl) rfl rfl rfl)
  | retireHiWm t o hr hpc ho hout =>
    -- the object becomes retired, whatever is done with the list after that
    exact .inr (retire ho (out hpc rfl rfl) rfl rfl rfl)
  | retireEnterLoWm t o rand hr hpc ho hout hpast hfirst =>
    exact .inr (retire ho (out hpc rfl rfl) rfl rfl rfl)
  | retireLoWm t o hr hpc ho hout hpast hfirst =>
    exact .inr (retire ho (out hpc rfl rfl) rfl rfl rfl)
  | retireOnly t o hr hpc ho hout hpast =>
    exact .inr (retire ho (out hpc rfl rfl) rfl rfl rfl)
  | sample t i hr hpc => exact .inl (quiet (out hpc rfl rfl) rfl rfl rfl)
  | sampleEnd t hr hpc => exact .inl (quiet (out hpc rfl rfl) rfl rfl rfl)
  | announceStart t hr hpc =>
    -- the round begins with the thread's own slots
    right
    have hstep : Handshake.Step true s.hs _ := .beginSelf s.hs t
      (by simp [State.hs, hpc, stageOf]) rfl
    refine .of_table ?_ rfl rfl rfl rfl rfl
    simpa [State.hz, State.hs, State.announce, State.goto, comp_update, stageOf, selfOf] using hstep
  | publish t e hr hpc =>
    right
    have hst : stageOf (s.pc t) = .prep := by simp [hpc, stageOf]
    have hstep : Handshake.Step true s.hs _ := .selfCopy s.hs t e
      (by simp [State.hs, hpc, selfOf])
    refine .of_table ?_ rfl rfl rfl rfl rfl
    simpa [State.hz, State.hs, State.copySlot, State.goto, comp_update, update_comp_of_eq hst, stageOf,
      selfOf] using hstep
  | publishEnd t hr hpc =>
    right
    have hstep : Handshake.Step true s.hs _ := .selfDone s.hs t
      (by simp [State.hs, hpc, selfOf]) (by simp [State.hs, hpc, stageOf])
    refine .of_table ?_ rfl rfl rfl rfl rfl
    simpa [State.hz, State.hs, State.countPublish, State.goto, comp_update, stageOf, selfOf]
      using hstep
  | ping t i hr hpc hi =>
    -- the threads are pinged one after the other
    right
    have hse : selfOf (s.pc t) = none := by simp [hpc, selfOf]
    have hstep : Handshake.Step true s.hs _ := .ping s.hs t i
      (by simp [State.hs, hpc, stageOf])
    refine .of_table ?_ rfl rfl rfl rfl rfl
    simpa [State.hz, State.hs, State.goto, comp_update, update_comp_of_eq hse, stageOf, selfOf]
      using hstep
  | pingSelf t hr hpc =>
    right
    have hse : selfOf (s.pc t) = none := by simp [hpc, selfOf]
    have hstep : Handshake.Step true s.hs _ := .skip s.hs t (by simp [State.hs, hpc, stageOf])
    refine .of_table ?_ rfl rfl rfl rfl rfl
    simpa [State.hz, State.hs, State.goto, comp_update, update_comp_of_eq hse, stageOf, selfOf]
      using hstep
  | announceDone t hr hpc =>
    right
    have hse : selfOf (s.pc t) = none := by simp [hpc, selfOf]
    have hstep : Handshake.Step true s.hs _ := .finish s.hs t
      (by simp [State.hs, hpc, stageOf])
    refine .of_table ?_ rfl rfl rfl rfl rfl
    simpa [State.hz, State.hs, State.announce, State.goto, comp_update, update_comp_of_eq hse, stageOf,
      selfOf] using hstep
  | confirm t i hr hpc => exact .inl (quiet (out hpc rfl rfl) rfl rfl rfl)
  | confirmEnd t hr hpc => exact .inl (quiet (out hpc rfl rfl) rfl rfl rfl)
  | saveTS t i hr hpc => exact .inl (quiet (out hpc rfl rfl) rfl rfl rfl)
  | saveTSEnd t hr hpc => exact .inl (quiet (out hpc rfl rfl) rfl rfl rfl)
  | checkHit t i hr hpc hge => exact .inl (quiet (out hpc rfl rfl) rfl rfl rfl)
  | checkMiss t i hr hpc hlt => exact .inl (quiet (out hpc rfl rfl) rfl rfl rfl)
  | checkEnd t hr hpc => exact .inl (quiet (out hpc rfl rfl) rfl rfl rfl)
  | snapshot t u e path hr hpc => exact .inl (quiet (out hpc rfl rfl) rfl rfl rfl)
  | snapshotEnd t path hr hpc => exact .inl (quiet (out hpc rfl rfl) rfl rfl rfl)
  | scanKeep t path pos m o hr hpc hgo ho hdanger => exact .inl (quiet (out hpc rfl rfl) rfl rfl rfl)
  | scanFree t path pos m o hr hpc hgo ho hsafe =>
    -- the list of the thread is its own
    exact .inr (Hazard.Step.of_objects (.free s.hz o) (out hpc rfl rfl) rfl rfl rfl)
  | scanEndHiWm t pos m hr hpc hstop => exact .inl (quiet (out hpc rfl rfl) rfl rfl rfl)
  | scanEndLoWm t pos m hr hpc hstop => exact .inl (quiet (out hpc rfl rfl) rfl rfl rfl)
  | handlerEnter t hp hh =>
    exact .inr (Hazard.Step.of_table (.enter s.hs t hp hh) rfl rfl rfl rfl rfl)
  | handlerPublish t e hh => 
    exact .inr (Hazard.Step.of_table (.handlerCopy s.hs t e hh) rfl rfl rfl rfl rfl)
  | handlerReturn t hh =>
    exact .inr (Hazard.Step.of_table (.handlerDone s.hs t hh) rfl rfl rfl rfl rfl)

/-! ### What one step does to the retired lists -/

theorem Step.custody {s s' : State n Obj Loc} {a : Actor n} (hstep : Step cfg s a s') :
    Custody.Step s.retired s.life s'.retired s'.life := by
  cases hstep with
  | link o h => exact .of_update rfl (by simp [h]) (by simp)
  | unlink o h => exact .of_update rfl (by simp [h]) (by simp)
  | retireHiWm t o hr hpc ho hout => exact .push t o ho rfl rfl
  | retireEnterLoWm t o rand hr hpc ho hout hpast hfirst => exact .push t o ho rfl rfl
  | retireLoWm t o hr hpc ho hout hpast hfirst => exact .push t o ho rfl rfl
  | retireOnly t o hr hpc ho hout hpast => exact .push t o ho rfl rfl
  | scanFree t path pos m o hr hpc hgo ho hsafe => exact .free t pos o ho rfl rfl
  | _ => exact .keep rfl fun _ => Iff.rfl

/-! ### The invariant that every step keeps -/

theorem Step.pubs_le {s s' : State n Obj Loc} {a : Actor n} (hstep : Step cfg s a s')
    (hread : ∀ t idx l ret, s.pc t = .readCheck idx l ret → s.localSlots t idx = ret.obj)
    (u : Fin n) : s.pubs u ≤ s'.pubs u := by
  rcases hstep.hazard hread with heq | hh
  · exact le_of_eq
      (congrArg (fun h : Hazard n slotsPerThread (Option Obj) Obj => h.table.pubs u) heq).symm
  · exact hh.pubs_le u

/-- What every step keeps, of the shared state. -/
structure Base (s : State n Obj Loc) : Prop where
  hazard : s.hz.Inv
  /-- The two shared counters count modulo their width. -/
  mypublishingTS : ∀ u, s.mypublishingTS u = BitVec.ofNat 32 (s.pubs u)
  announcedTS : ∀ u, s.announcedTS u = BitVec.ofNat 32 (s.ann u)
  /-- The samples are values these counters had. -/
  myscannedTS : ∀ t u, s.myscannedTS t u = BitVec.ofNat 32 (s.scannedPubs t u)
  scannedPubs_le : ∀ t u, s.scannedPubs t u ≤ s.pubs u
  savedTS : ∀ t u, s.savedTS t u = BitVec.ofNat 32 (s.savedAnn t u)
  savedPubs_le : ∀ t u, s.savedPubs t u ≤ s.pubs u
  /-- Before the second load, the slot holds what was loaded first. -/
  read : ∀ t idx l ret, s.pc t = .readCheck idx l ret → s.localSlots t idx = ret.obj
  /-- Every retired object waits in one list, once. -/
  custody : Custody s.retired fun o => s.life o = .retired

omit [DecidableEq Obj] [DecidableEq Loc] in
theorem Base.initial : Base (State.initial n Obj Loc) where
  hazard :=
    { table :=
        { fresh := fun _ _ h => absurd h (Nat.lt_irrefl 0)
          setAt_le := fun _ _ => le_rfl
          handler_copied := fun _ _ h => nomatch h
          self_copied := fun _ _ h => nomatch h
          counts := fun _ => ⟨fun h => absurd h (by simp [State.hz, State.hs, State.initial]),
            fun h => absurd rfl h⟩ }
      held := fun _ _ _ h => nomatch h.2
      retireAt_le := fun _ _ h => nomatch h }
  mypublishingTS _ := rfl
  announcedTS _ := rfl
  myscannedTS _ _ := rfl
  scannedPubs_le _ _ := le_rfl
  savedTS _ _ := rfl
  savedPubs_le _ _ := le_rfl
  read _ _ _ _ h := nomatch h
  custody := Custody.nil _

/-- What a thread's `readCheck` relies on is kept by every step. -/
private theorem Step.read {s s' : State n Obj Loc} {a : Actor n} (hstep : Step cfg s a s')
    (hread : ∀ t idx l ret, s.pc t = .readCheck idx l ret → s.localSlots t idx = ret.obj)
    (t : Fin n) (idx : Fin slotsPerThread) (l : Loc) (ret : Ptr Obj)
    (hpc' : s'.pc t = .readCheck idx l ret) : s'.localSlots t idx = ret.obj := by
  -- a step of thread `t'` that leaves the slots alone and ends elsewhere
  have away : ∀ {t' : Fin n} {q : Pc Obj Loc}, (∀ i l r, q ≠ .readCheck i l r) →
      update s.pc t' q t = .readCheck idx l ret → s.localSlots t idx = ret.obj := by
    intro t' q hq hupd
    by_cases ht : t = t'
    · subst ht
      rw [update_self] at hupd
      exact absurd hupd (hq idx l ret)
    · rw [update_of_ne ht] at hupd
      exact hread t idx l ret hupd
  cases hstep with
  | write l p => exact hread t idx _ ret hpc'
  | link o h => exact hread t idx l ret hpc'
  | unlink o h => exact hread t idx l ret hpc'
  | handlerEnter t' hp hh => exact hread t idx l ret hpc'
  | handlerPublish t' e hh => exact hread t idx l ret hpc'
  | handlerReturn t' hh => exact hread t idx l ret hpc'
  | readReserve t' idx' l' ret' hr hpc =>
    by_cases ht : t = t'
    · subst ht
      have heq : (Pc.readCheck idx' l' ret' : Pc Obj Loc) = .readCheck idx l ret := by
        simpa [State.goto, State.setSlot] using hpc'
      cases heq
      simp [State.goto, State.setSlot]
    · have hold := hread t idx l ret (by simpa [State.goto, State.setSlot, ht] using hpc')
      simpa [State.goto, State.setSlot, ht] using hold
  | endOp t' e hr hpc =>
    by_cases ht : t = t'
    · subst ht
      simp [State.goto, State.setSlot] at hpc'
    · have hold := hread t idx l ret (by simpa [State.goto, State.setSlot, ht] using hpc')
      simpa [State.goto, State.setSlot, ht] using hold
  | _ =>
    refine away ?_ hpc'
    intro i l r h
    cases h

theorem Base.step {s s' : State n Obj Loc} {a : Actor n} (hB : Base s)
    (hstep : Step cfg s a s') : Base s' where
  -- the tables and the objects obey the protocol of hazard pointers
  hazard := by
    rcases hstep.hazard hB.read with heq | hh
    · rw [heq]
      exact hB.hazard
    · exact hB.hazard.step hh
  -- the counters of the source are those of the handshake, as 64-bit values
  mypublishingTS := by
    cases hstep with
    | publishEnd t hr hpc => exact BitVec.update_ofNat hB.mypublishingTS t
    | handlerReturn t hh => exact BitVec.update_ofNat hB.mypublishingTS t
    | _ => exact hB.mypublishingTS
  announcedTS := by
    cases hstep with
    | announceStart t hr hpc => exact BitVec.update_ofNat hB.announcedTS t
    | announceDone t hr hpc => exact BitVec.update_ofNat hB.announcedTS t
    | _ => exact hB.announcedTS
  myscannedTS := by
    cases hstep with
    | sample t i hr hpc => exact BitVec.update₂_ofNat hB.myscannedTS (hB.mypublishingTS i)
    | _ => exact hB.myscannedTS
  -- what was counted at a sample is not above the count
  scannedPubs_le := by
    intro t u
    have hle := hstep.pubs_le hB.read u
    cases hstep with
    | sample t' i hr hpc => exact update₂_le hB.scannedPubs_le (fun _ => le_rfl) t' i t u
    | _ => exact (hB.scannedPubs_le t u).trans hle
  savedTS := by
    cases hstep with
    | saveTS t i hr hpc => exact BitVec.update₂_ofNat hB.savedTS (hB.announcedTS i)
    | _ => exact hB.savedTS
  -- nor what was counted on entering the low watermark
  savedPubs_le := by
    intro t u
    have hle := hstep.pubs_le hB.read u
    cases hstep with
    | retireEnterLoWm t' o rand hr hpc ho hout hpast hfirst =>
      change update s.savedPubs t' s.pubs t u ≤ s.pubs u
      by_cases ht : t = t'
      · subst ht
        rw [update_self]
      · rw [update_of_ne ht]
        exact hB.savedPubs_le t u
    | _ => exact (hB.savedPubs_le t u).trans hle
  read := hstep.read hB.read
  custody := hB.custody.step hstep.custody

end HazardPtrPop
end PopSetbench

import Mathlib.Data.Fintype.Basic
import PopSetbench.Library.Run
import PopSetbench.Library.Handshake
import PopSetbench.Reclaim.Object

/-!
# HazardEraPOP: hazard eras published on ping

The reclaimer of `reclaimer_nbr_popplushe.h`. Instead of the object itself, `read` reserves the
current `epoch` in `local_reserved_epoch`; an entry protects every object whose lifetime, from
its birth to its retirement, contains it. The entries become visible only through
`publishReservations`, in the signal handler and at the beginning of a signalling round.

* Out of patience (*high watermark*), the counters `mypublishingTS` are sampled, everybody is
  pinged, `publishing_epoch` is incremented, and `empty` looks at the whole list. The
  confirmation loop has no guard: its `continue` belongs to the loop over the threads.
* Past the *low watermark*, `publishing_epoch` is saved; once it differs, `empty` looks at the
  objects that were in the list when the watermark was entered.

`epoch` and `publishing_epoch` are 64 bits wide; here they are natural numbers. `epoch` starts
at one, so an entry that is zero reserves nothing. The birth epoch of an object is loaded some
time before the object is linked; the model links it with any epoch of the past.
-/

namespace PopSetbench
namespace HazardEraPop

open Function

/-- `NUM_POPHE`. -/
abbrev numPophe : ℕ := 3

/-- The two ways to `empty`. -/
inductive Path
  /-- Out of patience. -/
  | hiWm
  /-- Past the low watermark. -/
  | loWm
  deriving DecidableEq

/-- Where a thread is in the code. -/
inductive Pc (Obj Loc : Type)
  /-- Between two calls. -/
  | idle
  /-- `updateAllocCounterAndEpoch`: about to increment `epoch`. -/
  | bumpEpoch
  /-- `read`: about to load `obj`. -/
  | readLoad (idx : Fin numPophe) (loc : Loc) (prevEpoch : ℕ)
  /-- `read`: about to load `epoch`. -/
  | readEpoch (idx : Fin numPophe) (loc : Loc) (prevEpoch : ℕ) (ptr : Ptr Obj)
  /-- `read`: about to reserve the epoch it loaded. -/
  | readStore (idx : Fin numPophe) (loc : Loc) (currEpoch : ℕ)
  /-- `endOp`: entries below `i` are cleared. -/
  | endOp (i : ℕ)
  /-- `retire`, high watermark: `mypublishingTS` is sampled below `i`. -/
  | sample (i : ℕ)
  /-- Own `publishReservations`: entries below `j` are copied. -/
  | publish (j : ℕ)
  /-- Threads below `i` are pinged. -/
  | ping (i : ℕ)
  /-- About to load `publishing_epoch` after incrementing it. -/
  | saveOwn
  /-- The confirmation loop has passed the threads below `i`. -/
  | confirm (i : ℕ)
  /-- `retire`, first entry past the low watermark: about to save `publishing_epoch`. -/
  | saveEpoch
  /-- `retire`, low watermark: about to compare `publishing_epoch` with the saved one. -/
  | check
  /-- `empty`: the first `m` entries of `reservations` are copied. -/
  | snapshot (path : Path) (m : ℕ)
  /-- `empty`: the iterator is at `pos`, `reclaimed_so_far` objects were looked at. -/
  | scan (path : Path) (pos reclaimedSoFar : ℕ)
  deriving DecidableEq

/-- `HeInfo`. -/
structure HeInfo (Obj : Type) where
  obj : Obj
  birthEpoch : ℕ
  retireEpoch : ℕ
  deriving DecidableEq

/-- The state of the reclaimer with `n` threads and of the memory it protects. -/
structure State (n : ℕ) (Obj Loc : Type) where
  /-- The shared locations that `read` loads from. -/
  mem : Loc → Ptr Obj
  /-- The field `birth_epoch` of each object. -/
  birthEpoch : Obj → ℕ
  /-- `reservations`: the published entries. -/
  reservations : Fin n → Fin numPophe → ℕ
  /-- `epoch`. -/
  epoch : ℕ
  /-- `publishing_epoch`. -/
  publishingEpoch : ℕ
  /-- `alloc_counters`. -/
  allocCounters : Fin n → ℕ
  /-- `retired[tid]`, oldest first. -/
  retired : Fin n → List (HeInfo Obj)
  /-- `threadData[tid].local_reserved_epoch`. -/
  localReservedEpoch : Fin n → Fin numPophe → ℕ
  /-- `threadData[tid].retires_since_HiWm`. -/
  retiresSinceHiWm : Fin n → ℕ
  /-- `threadData[tid].saved_publishing_epoch`. -/
  savedPublishingEpoch : Fin n → ℕ
  /-- `threadData[tid].firstLoEntryFlag`. -/
  firstLoEntryFlag : Fin n → Bool
  /-- `threadData[tid].numRetiresSinceLoWatermark`. -/
  numRetiresSinceLoWatermark : Fin n → ℕ
  /-- `threadData[tid].LoPathReclaimAttemptFreq`. -/
  loPathReclaimAttemptFreq : Fin n → ℕ
  /-- `threadData[tid].retire_bag_size_when_entered_loWm`. -/
  retireBagSizeWhenEnteredLoWm : Fin n → ℕ
  /-- `threadData[tid].scannedHEs`. -/
  scannedHEs : Fin n → Fin n → Fin numPophe → ℕ
  /-- `threadData[tid].mypublishingTS`, an `unsigned int`. -/
  mypublishingTS : Fin n → BitVec 32
  /-- `threadData[tid].myscannedTS`. -/
  myscannedTS : Fin n → Fin n → BitVec 32
  /-- A ping is in flight. -/
  pinged : Fin n → Bool
  /-- The entries copied by the running signal handler. -/
  handler : Fin n → Option ℕ
  /-- Where each thread is. -/
  pc : Fin n → Pc Obj Loc
  /-- Bookkeeping: the life of each object. -/
  life : Obj → Life
  /-- Bookkeeping: the objects that `read` has loaded with this entry while they were
  reachable, since the entry was last written. -/
  seen : Fin n → Fin numPophe → Obj → Bool
  /-- Bookkeeping: those of them that `read` has returned. -/
  held : Fin n → Fin numPophe → Obj → Bool
  /-- Bookkeeping: completed calls of `publishReservations`. -/
  pubs : Fin n → ℕ
  /-- Bookkeeping: `pubs` when the entry was last written. -/
  setAt : Fin n → Fin numPophe → ℕ
  /-- Bookkeeping: calls of `requestAllThreadsToRestart` that have begun, and those whose
  increment of `publishing_epoch` has been made, in all. -/
  ann : Fin n → ℕ
  /-- Bookkeeping: `pubs` when `mypublishingTS` was sampled. -/
  scannedPubs : Fin n → Fin n → ℕ
  /-- Bookkeeping: `pubs` when `publishing_epoch` was saved past the low watermark. -/
  savedPubs : Fin n → Fin n → ℕ
  /-- Bookkeeping: `ann` when `publishing_epoch` was saved past the low watermark. -/
  savedAnn : Fin n → Fin n → ℕ
  /-- Bookkeeping: `pubs` when the object was retired. -/
  retireAt : Obj → Fin n → ℕ

/-- The parameters set by the constructor and by `initThread`. -/
structure Config where
  /-- `bagCapacityThreshold`. -/
  bagCapacityThreshold : ℕ
  /-- `epoch_freq`. -/
  epochFreq : ℕ

/-- The parameters as they are set. -/
def Config.standard : Config := ⟨maxRetirebagCapacityPow2, 30⟩

/-- `setLoWmMetaData`: the attempt frequency chosen for `rand() % 11`. -/
def attemptFreq (rand : Fin 11) : ℕ :=
  if rand.val = 0 then maxRetirebagCapacityPow2 / 10
  else rand.val * 5 * maxRetirebagCapacityPow2 / 100

variable {n : ℕ} {Obj Loc : Type}

namespace State

/-- The state after the constructor and `initThread` of every thread. -/
def initial (n : ℕ) (Obj Loc : Type) : State n Obj Loc where
  mem _ := ⟨none, 0⟩
  birthEpoch _ := 0
  reservations _ _ := 0
  epoch := 1
  publishingEpoch := 0
  allocCounters _ := 0
  retired _ := []
  localReservedEpoch _ _ := 0
  retiresSinceHiWm _ := 0
  savedPublishingEpoch _ := 0
  firstLoEntryFlag _ := true
  numRetiresSinceLoWatermark _ := 0
  loPathReclaimAttemptFreq _ := maxRetirebagCapacityPow2 / 3
  retireBagSizeWhenEnteredLoWm _ := 0
  scannedHEs _ _ _ := 0
  mypublishingTS _ := 0
  myscannedTS _ _ := 0
  pinged _ := false
  handler _ := none
  pc _ := .idle
  life _ := .pooled
  seen _ _ _ := false
  held _ _ _ := false
  pubs _ := 0
  setAt _ _ := 0
  ann _ := 0
  scannedPubs _ _ := 0
  savedPubs _ _ := 0
  savedAnn _ _ := 0
  retireAt _ _ := 0

variable (s : State n Obj Loc)

/-- The thread may take a step of its own: no ping waits for it and no handler runs. -/
def Runs (t : Fin n) : Prop := s.pinged t = false ∧ s.handler t = none

/-- `isOutOfPatience`. -/
def isOutOfPatience (cfg : Config) (t : Fin n) (myTrashSize : ℕ) : Bool :=
  cfg.bagCapacityThreshold ≤ myTrashSize && s.retiresSinceHiWm t % 512 == 0

/-- `isPastLoWatermark`. -/
def isPastLoWatermark (cfg : Config) (t : Fin n) (myTrashSize : ℕ) : Bool :=
  cfg.bagCapacityThreshold / 4 < myTrashSize &&
    s.numRetiresSinceLoWatermark t % s.loPathReclaimAttemptFreq t == 0

/-- `isFreeable`: every copied entry is before the birth of the object, after its retirement,
or zero. -/
def isFreeable (t : Fin n) (res : HeInfo Obj) : Prop :=
  ∀ u e, s.scannedHEs t u e < res.birthEpoch ∨ res.retireEpoch < s.scannedHEs t u e ∨
    s.scannedHEs t u e = 0

instance (t : Fin n) (res : HeInfo Obj) : Decidable (s.isFreeable t res) :=
  inferInstanceAs (Decidable (∀ (_ : Fin n) (_ : Fin numPophe), _ ∨ _ ∨ _))

/-- `empty` leaves its loop: the list is exhausted, or, at the low watermark, the objects
that were there on entry are. The saved size is positive there, so `size - 1` does not
wrap. -/
def scanStops (t : Fin n) (pos reclaimedSoFar : ℕ) : Prop :=
  (s.retired t).length ≤ pos ∨
    (s.firstLoEntryFlag t = false ∧ s.retireBagSizeWhenEnteredLoWm t - 1 < reclaimedSoFar)

instance (t : Fin n) (pos reclaimedSoFar : ℕ) : Decidable (s.scanStops t pos reclaimedSoFar) :=
  inferInstanceAs (Decidable (_ ∨ _))

/-- Thread `t` goes on at `p`. -/
def goto (t : Fin n) (p : Pc Obj Loc) : State n Obj Loc :=
  { s with pc := update s.pc t p }

/-- `resetLoWmMetaData`, and `retire_bag_size_when_entered_loWm = 0` next to it. -/
def resetLoWmMetaData (t : Fin n) : State n Obj Loc :=
  { s with
    firstLoEntryFlag := update s.firstLoEntryFlag t true
    numRetiresSinceLoWatermark := update s.numRetiresSinceLoWatermark t 0
    retireBagSizeWhenEnteredLoWm := update s.retireBagSizeWhenEnteredLoWm t 0 }

/-- The end of `retire`: the retires since the low watermark are counted. -/
def finishRetire (t : Fin n) : State n Obj Loc :=
  { s with
    numRetiresSinceLoWatermark :=
      if s.firstLoEntryFlag t then s.numRetiresSinceLoWatermark
      else update s.numRetiresSinceLoWatermark t (s.numRetiresSinceLoWatermark t + 1)
    pc := update s.pc t .idle }

/-- `myTrash->push_back(HeInfo(obj, birth_epoch, retire_epoch))`. -/
def pushBack [DecidableEq Obj] (t : Fin n) (o : Obj) : State n Obj Loc :=
  { s with
    retired := update s.retired t (s.retired t ++ [⟨o, s.birthEpoch o, s.epoch⟩])
    life := update s.life o .retired
    retireAt := update s.retireAt o s.pubs }

/-- Thread `t` stores `r` in its private entry `e`. -/
def setEpoch (t : Fin n) (e : Fin numPophe) (r : ℕ) : State n Obj Loc :=
  { s with
    localReservedEpoch := update s.localReservedEpoch t (update (s.localReservedEpoch t) e r)
    seen := update s.seen t (update (s.seen t) e fun _ => false)
    held := update s.held t (update (s.held t) e fun _ => false)
    setAt := update s.setAt t (update (s.setAt t) e (s.pubs t)) }

/-- `reservations[tid].ui[e].store(threadData[tid].local_reserved_epoch[e])`. -/
def copySlot (t : Fin n) (e : Fin numPophe) : State n Obj Loc :=
  { s with
    reservations := update s.reservations t (update (s.reservations t) e (s.localReservedEpoch t e)) }

/-- `threadData[tid].mypublishingTS.fetch_add(1)`. -/
def countPublish (t : Fin n) : State n Obj Loc :=
  { s with
    mypublishingTS := update s.mypublishingTS t (s.mypublishingTS t + 1)
    pubs := update s.pubs t (s.pubs t + 1) }

/-- A round of thread `t` begins or ends. -/
def announce (t : Fin n) : State n Obj Loc :=
  { s with ann := update s.ann t (s.ann t + 1) }

/-- The entry of `reservations` that `empty` copies at index `m`. -/
def copyEntry (t u : Fin n) (e : Fin numPophe) : State n Obj Loc :=
  { s with
    scannedHEs := update s.scannedHEs t
      (update (s.scannedHEs t) u (update (s.scannedHEs t u) e (s.reservations u e))) }

/-- `this->pool->add(tid, res.obj); iterator = myTrash->erase(iterator)`. -/
def passToPool [DecidableEq Obj] (t : Fin n) (pos : ℕ) (o : Obj) : State n Obj Loc :=
  { s with
    retired := update s.retired t ((s.retired t).eraseIdx pos)
    life := update s.life o .pooled }

/-- The result of `empty`: the list is shorter than the threshold again, or not. -/
def countHiWm (cfg : Config) (t : Fin n) : State n Obj Loc :=
  { s with
    retiresSinceHiWm := update s.retiresSinceHiWm t
      (if (s.retired t).length < cfg.bagCapacityThreshold then 0 else s.retiresSinceHiWm t + 1) }

end State

/-- The atomic steps. -/
inductive Step [DecidableEq Obj] [DecidableEq Loc] (cfg : Config) :
    State n Obj Loc → Actor n → State n Obj Loc → Prop
  /-- Some operation writes or CASes a shared location. -/
  | write (s : State n Obj Loc) (l : Loc) (p : Ptr Obj) :
      Step cfg s .env { s with mem := update s.mem l p }
  /-- An object, born in an epoch of the past, is linked. -/
  | link (s : State n Obj Loc) (o : Obj) (b : ℕ) (h : s.life o = .pooled) (hb : b ≤ s.epoch) :
      Step cfg s .env
        { s with
          life := update s.life o .linked
          birthEpoch := update s.birthEpoch o b }
  /-- An object is unlinked. -/
  | unlink (s : State n Obj Loc) (o : Obj) (h : s.life o = .linked) :
      Step cfg s .env { s with life := update s.life o .unlinked }
  /-- `updateAllocCounterAndEpoch`, called by an allocation; the epoch stays. -/
  | alloc (s : State n Obj Loc) (t : Fin n) (hr : s.Runs t) (hpc : s.pc t = .idle)
      (hmod : (s.allocCounters t + 1) % (cfg.epochFreq * n) ≠ 0) :
      Step cfg s (.thread t)
        { s with allocCounters := update s.allocCounters t (s.allocCounters t + 1) }
  /-- `updateAllocCounterAndEpoch`, called by an allocation; the epoch will be incremented. -/
  | allocBump (s : State n Obj Loc) (t : Fin n) (hr : s.Runs t) (hpc : s.pc t = .idle)
      (hmod : (s.allocCounters t + 1) % (cfg.epochFreq * n) = 0) :
      Step cfg s (.thread t)
        { s.goto t .bumpEpoch with
          allocCounters := update s.allocCounters t (s.allocCounters t + 1) }
  | bumpEpoch (s : State n Obj Loc) (t : Fin n) (hr : s.Runs t) (hpc : s.pc t = .bumpEpoch) :
      Step cfg s (.thread t) { s.goto t .idle with epoch := s.epoch + 1 }
  | callRead (s : State n Obj Loc) (t : Fin n) (idx : Fin numPophe) (l : Loc)
      (hr : s.Runs t) (hpc : s.pc t = .idle) :
      Step cfg s (.thread t) (s.goto t (.readLoad idx l (s.localReservedEpoch t idx)))
  /-- `read` loads `obj`. Whether the object is reachable at this moment is recorded. -/
  | readLoad (s : State n Obj Loc) (t : Fin n) (idx : Fin numPophe) (l : Loc) (prev : ℕ)
      (hr : s.Runs t) (hpc : s.pc t = .readLoad idx l prev) :
      Step cfg s (.thread t)
        { s.goto t (.readEpoch idx l prev (s.mem l)) with
          seen := update s.seen t (update (s.seen t) idx fun o =>
            s.seen t idx o || ((s.mem l).obj = some o && s.life o = .linked)) }
  /-- The epoch is the one reserved: `read` returns. -/
  | readReturn (s : State n Obj Loc) (t : Fin n) (idx : Fin numPophe) (l : Loc) (prev : ℕ)
      (ptr : Ptr Obj) (hr : s.Runs t) (hpc : s.pc t = .readEpoch idx l prev ptr)
      (hcurr : s.epoch = prev) :
      Step cfg s (.thread t)
        { s.goto t .idle with
          held := update s.held t (update (s.held t) idx fun o =>
            s.held t idx o || (ptr.obj = some o && s.seen t idx o)) }
  /-- The epoch is another one, which will be reserved. -/
  | readMove (s : State n Obj Loc) (t : Fin n) (idx : Fin numPophe) (l : Loc) (prev : ℕ)
      (ptr : Ptr Obj) (hr : s.Runs t) (hpc : s.pc t = .readEpoch idx l prev ptr)
      (hcurr : s.epoch ≠ prev) :
      Step cfg s (.thread t) (s.goto t (.readStore idx l s.epoch))
  | readStore (s : State n Obj Loc) (t : Fin n) (idx : Fin numPophe) (l : Loc) (curr : ℕ)
      (hr : s.Runs t) (hpc : s.pc t = .readStore idx l curr) :
      Step cfg s (.thread t) ((s.setEpoch t idx curr).goto t (.readLoad idx l curr))
  | callEndOp (s : State n Obj Loc) (t : Fin n) (hr : s.Runs t) (hpc : s.pc t = .idle) :
      Step cfg s (.thread t) (s.goto t (.endOp 0))
  | endOp (s : State n Obj Loc) (t : Fin n) (e : Fin numPophe)
      (hr : s.Runs t) (hpc : s.pc t = .endOp e.val) :
      Step cfg s (.thread t) ((s.setEpoch t e 0).goto t (.endOp (e.val + 1)))
  | endOpReturn (s : State n Obj Loc) (t : Fin n)
      (hr : s.Runs t) (hpc : s.pc t = .endOp numPophe) :
      Step cfg s (.thread t) (s.goto t .idle)
  /-- `retire(tid, obj)`, out of patience. -/
  | retireHiWm (s : State n Obj Loc) (t : Fin n) (o : Obj)
      (hr : s.Runs t) (hpc : s.pc t = .idle) (ho : s.life o = .unlinked)
      (hout : s.isOutOfPatience cfg t ((s.retired t).length + 1) = true) :
      Step cfg s (.thread t) (((s.pushBack t o).resetLoWmMetaData t).goto t (.sample 0))
  /-- `retire(tid, obj)`, first entry past the low watermark. -/
  | retireEnterLoWm (s : State n Obj Loc) (t : Fin n) (o : Obj) (rand : Fin 11)
      (hr : s.Runs t) (hpc : s.pc t = .idle) (ho : s.life o = .unlinked)
      (hout : s.isOutOfPatience cfg t ((s.retired t).length + 1) = false)
      (hpast : s.isPastLoWatermark cfg t ((s.retired t).length + 1) = true)
      (hfirst : s.firstLoEntryFlag t = true) :
      Step cfg s (.thread t)
        { (s.pushBack t o).goto t .saveEpoch with
          firstLoEntryFlag := update s.firstLoEntryFlag t false
          loPathReclaimAttemptFreq := update s.loPathReclaimAttemptFreq t (attemptFreq rand)
          retireBagSizeWhenEnteredLoWm :=
            update s.retireBagSizeWhenEnteredLoWm t ((s.retired t).length + 1) }
  /-- `retire(tid, obj)`, again past the low watermark. -/
  | retireLoWm (s : State n Obj Loc) (t : Fin n) (o : Obj)
      (hr : s.Runs t) (hpc : s.pc t = .idle) (ho : s.life o = .unlinked)
      (hout : s.isOutOfPatience cfg t ((s.retired t).length + 1) = false)
      (hpast : s.isPastLoWatermark cfg t ((s.retired t).length + 1) = true)
      (hfirst : s.firstLoEntryFlag t = false) :
      Step cfg s (.thread t) ((s.pushBack t o).goto t .check)
  /-- `retire(tid, obj)`, neither. -/
  | retireOnly (s : State n Obj Loc) (t : Fin n) (o : Obj)
      (hr : s.Runs t) (hpc : s.pc t = .idle) (ho : s.life o = .unlinked)
      (hout : s.isOutOfPatience cfg t ((s.retired t).length + 1) = false)
      (hpast : s.isPastLoWatermark cfg t ((s.retired t).length + 1) = false) :
      Step cfg s (.thread t) ((s.pushBack t o).finishRetire t)
  | sample (s : State n Obj Loc) (t i : Fin n)
      (hr : s.Runs t) (hpc : s.pc t = .sample i.val) :
      Step cfg s (.thread t)
        { s.goto t (.sample (i.val + 1)) with
          myscannedTS := update s.myscannedTS t (update (s.myscannedTS t) i (s.mypublishingTS i))
          scannedPubs := update s.scannedPubs t (update (s.scannedPubs t) i (s.pubs i)) }
  /-- `requestAllThreadsToRestart` begins. -/
  | sampleEnd (s : State n Obj Loc) (t : Fin n)
      (hr : s.Runs t) (hpc : s.pc t = .sample n) :
      Step cfg s (.thread t) ((s.announce t).goto t (.publish 0))
  /-- The signalling thread publishes too. -/
  | publish (s : State n Obj Loc) (t : Fin n) (e : Fin numPophe)
      (hr : s.Runs t) (hpc : s.pc t = .publish e.val) :
      Step cfg s (.thread t) ((s.copySlot t e).goto t (.publish (e.val + 1)))
  | publishEnd (s : State n Obj Loc) (t : Fin n)
      (hr : s.Runs t) (hpc : s.pc t = .publish numPophe) :
      Step cfg s (.thread t) ((s.countPublish t).goto t (.ping 0))
  /-- `pthread_kill` of another thread. -/
  | ping (s : State n Obj Loc) (t i : Fin n)
      (hr : s.Runs t) (hpc : s.pc t = .ping i.val) (hi : t ≠ i) :
      Step cfg s (.thread t)
        { s.goto t (.ping (i.val + 1)) with pinged := update s.pinged i true }
  | pingSelf (s : State n Obj Loc) (t : Fin n)
      (hr : s.Runs t) (hpc : s.pc t = .ping t.val) :
      Step cfg s (.thread t) (s.goto t (.ping (t.val + 1)))
  /-- `publishing_epoch.fetch_add(1)`, when all signals have been sent. -/
  | pingEnd (s : State n Obj Loc) (t : Fin n)
      (hr : s.Runs t) (hpc : s.pc t = .ping n) :
      Step cfg s (.thread t)
        { (s.announce t).goto t .saveOwn with publishingEpoch := s.publishingEpoch + 1 }
  | saveOwn (s : State n Obj Loc) (t : Fin n) (hr : s.Runs t) (hpc : s.pc t = .saveOwn) :
      Step cfg s (.thread t)
        { s.goto t (.confirm 0) with
          savedPublishingEpoch := update s.savedPublishingEpoch t s.publishingEpoch }
  /-- The confirmation loop loads `mypublishingTS` of thread `i`, compares it with
  `myscannedTS` and goes on to the next thread whether it has moved or not. -/
  | confirm (s : State n Obj Loc) (t i : Fin n)
      (hr : s.Runs t) (hpc : s.pc t = .confirm i.val) :
      Step cfg s (.thread t) (s.goto t (.confirm (i.val + 1)))
  | confirmEnd (s : State n Obj Loc) (t : Fin n)
      (hr : s.Runs t) (hpc : s.pc t = .confirm n) :
      Step cfg s (.thread t) (s.goto t (.snapshot .hiWm 0))
  | saveEpoch (s : State n Obj Loc) (t : Fin n) (hr : s.Runs t) (hpc : s.pc t = .saveEpoch) :
      Step cfg s (.thread t)
        { s.goto t .check with
          savedPublishingEpoch := update s.savedPublishingEpoch t s.publishingEpoch
          savedPubs := update s.savedPubs t s.pubs
          savedAnn := update s.savedAnn t s.ann }
  /-- A new signal was sent: `saved_publishing_epoch != new_publishing_epoch`. -/
  | checkHit (s : State n Obj Loc) (t : Fin n) (hr : s.Runs t) (hpc : s.pc t = .check)
      (hne : s.savedPublishingEpoch t ≠ s.publishingEpoch) :
      Step cfg s (.thread t)
        { s.goto t (.snapshot .loWm 0) with
          savedPublishingEpoch := update s.savedPublishingEpoch t s.publishingEpoch }
  | checkMiss (s : State n Obj Loc) (t : Fin n) (hr : s.Runs t) (hpc : s.pc t = .check)
      (heq : s.savedPublishingEpoch t = s.publishingEpoch) :
      Step cfg s (.thread t) (s.finishRetire t)
  /-- `empty` copies entry `e` of thread `u`. -/
  | snapshot (s : State n Obj Loc) (t u : Fin n) (e : Fin numPophe) (path : Path)
      (hr : s.Runs t) (hpc : s.pc t = .snapshot path (u.val * numPophe + e.val)) :
      Step cfg s (.thread t)
        ((s.copyEntry t u e).goto t (.snapshot path (u.val * numPophe + e.val + 1)))
  | snapshotEnd (s : State n Obj Loc) (t : Fin n) (path : Path)
      (hr : s.Runs t) (hpc : s.pc t = .snapshot path (n * numPophe)) :
      Step cfg s (.thread t) (s.goto t (.scan path 0 0))
  /-- Some copied entry is in the lifetime of the object: it stays in the list. -/
  | scanKeep (s : State n Obj Loc) (t : Fin n) (path : Path) (pos reclaimedSoFar : ℕ)
      (res : HeInfo Obj) (hr : s.Runs t) (hpc : s.pc t = .scan path pos reclaimedSoFar)
      (hgo : ¬ s.scanStops t pos reclaimedSoFar) (ho : (s.retired t)[pos]? = some res)
      (hkeep : ¬ s.isFreeable t res) :
      Step cfg s (.thread t) (s.goto t (.scan path (pos + 1) (reclaimedSoFar + 1)))
  /-- The object is freeable: it is passed to the pool. -/
  | scanFree (s : State n Obj Loc) (t : Fin n) (path : Path) (pos reclaimedSoFar : ℕ)
      (res : HeInfo Obj) (hr : s.Runs t) (hpc : s.pc t = .scan path pos reclaimedSoFar)
      (hgo : ¬ s.scanStops t pos reclaimedSoFar) (ho : (s.retired t)[pos]? = some res)
      (hfree : s.isFreeable t res) :
      Step cfg s (.thread t)
        ((s.passToPool t pos res.obj).goto t (.scan path pos (reclaimedSoFar + 1)))
  | scanEndHiWm (s : State n Obj Loc) (t : Fin n) (pos reclaimedSoFar : ℕ)
      (hr : s.Runs t) (hpc : s.pc t = .scan .hiWm pos reclaimedSoFar)
      (hstop : s.scanStops t pos reclaimedSoFar) :
      Step cfg s (.thread t) ((s.countHiWm cfg t).finishRetire t)
  | scanEndLoWm (s : State n Obj Loc) (t : Fin n) (pos reclaimedSoFar : ℕ)
      (hr : s.Runs t) (hpc : s.pc t = .scan .loWm pos reclaimedSoFar)
      (hstop : s.scanStops t pos reclaimedSoFar) :
      Step cfg s (.thread t) ((s.resetLoWmMetaData t).finishRetire t)
  /-- A pinged thread enters its handler. -/
  | handlerEnter (s : State n Obj Loc) (t : Fin n)
      (hp : s.pinged t = true) (hh : s.handler t = none) :
      Step cfg s (.handler t)
        { s with
          pinged := update s.pinged t false
          handler := update s.handler t (some 0) }
  /-- `trcrashhandler` runs `publishReservations`. -/
  | handlerPublish (s : State n Obj Loc) (t : Fin n) (e : Fin numPophe)
      (hh : s.handler t = some e.val) :
      Step cfg s (.handler t)
        { s.copySlot t e with handler := update s.handler t (some (e.val + 1)) }
  | handlerReturn (s : State n Obj Loc) (t : Fin n)
      (hh : s.handler t = some numPophe) :
      Step cfg s (.handler t)
        { s.countPublish t with handler := update s.handler t none }

/-- The reclaimer with `n` threads as a transition system. -/
def system [DecidableEq Obj] [DecidableEq Loc] (cfg : Config) : Lts (State n Obj Loc) (Actor n) where
  init s := s = State.initial n Obj Loc
  step := Step cfg

end HazardEraPop
end PopSetbench

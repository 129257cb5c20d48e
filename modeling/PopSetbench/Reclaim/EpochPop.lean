import Mathlib.Data.Fintype.Basic
import Mathlib.Data.ENat.Basic
import Mathlib.Order.Lattice.Nat
import PopSetbench.Library.Run
import PopSetbench.Library.Handshake
import PopSetbench.Reclaim.Object

/-!
# EpochPOP: epochs first, hazard pointers on ping

The reclaimer of `reclaimer_rcu_popplushp.h`. A thread protects what it reads twice: `startOp`
reserves the current `epoch` for the whole operation, and `read` reserves each object in
`local_slots`, which become visible only through `publishReservations` in the signal handler.

`retire` stamps the object with the epoch and has three ways to free objects, all from one
list.

* *Low watermark*: as in HazardPtrPOP, `savedTS` is compared with `announcedTS`, and
  `hp_LoWmempty` looks at the objects that were in the list when the watermark was entered.
* *Epochs*: out of patience, `rcu_empty` frees every object with a stamp below all
  reservations.
* *Hazard pointers*: if that left too many objects, everybody else is pinged, and `hp_empty`
  looks at the whole list. The signalling thread does not publish its own `local_slots`.

`hp_empty` and `hp_LoWmempty` compare each object with the entries of `slots` one by one, and
every such load is a step of its own. The `epoch` is 64 bits wide and advances once in
`epoch_freq * num_process` allocations; here it is a natural number. `UINT64_MAX`, the
reservation of a thread outside operations, is `⊤`.

As in HazardPtrPOP the confirmation loop has no guard: its `continue` belongs to the loop over
the threads.
-/

namespace PopSetbench
namespace EpochPop

open Function

/-- The three functions that free objects. -/
inductive Path
  /-- `rcu_empty`. -/
  | rcu
  /-- `hp_empty`. -/
  | hp
  /-- `hp_LoWmempty`. -/
  | loWm
  deriving DecidableEq

/-- Where a thread is in the code. -/
inductive Pc (Obj Loc : Type)
  /-- Between two calls. -/
  | idle
  /-- `startOp`: about to store the loaded epoch in `reservations`. -/
  | startOp (e : ℕ)
  /-- `updateAllocCounterAndEpoch`: about to increment `epoch`. -/
  | bumpEpoch
  /-- `read`: about to load `obj`. -/
  | readLoad (idx : Fin slotsPerThread) (loc : Loc)
  /-- `read`: about to reserve what it loaded. -/
  | readReserve (idx : Fin slotsPerThread) (loc : Loc) (ret : Ptr Obj)
  /-- `read`: about to load `obj` again. -/
  | readCheck (idx : Fin slotsPerThread) (loc : Loc) (ret : Ptr Obj)
  /-- `endOp`: slots below `i` are cleared. -/
  | endOp (i : ℕ)
  /-- `setLoWmMetaData`: `announcedTS` is saved below `i`. -/
  | saveTS (i : ℕ)
  /-- `retire`, low watermark: threads below `i` have not finished a new round. -/
  | check (i : ℕ)
  /-- `retire`, after the low watermark: about to compare the size with `empty_freq`. -/
  | afterLoWm
  /-- `rcu_empty`: `minEpoch` is the least reservation below `i`. -/
  | minEpoch (i : ℕ) (m : WithTop ℕ)
  /-- `rcu_empty`: the iterator is at `pos`. -/
  | rcuScan (pos : ℕ) (m : WithTop ℕ)
  /-- `retire`: `mypublishingTS` is sampled below `i`. -/
  | sample (i : ℕ)
  /-- About to increment `announcedTS`, signalling starts. -/
  | announceStart
  /-- Threads below `i` are pinged. -/
  | ping (i : ℕ)
  /-- The confirmation loop has passed the threads below `i`. -/
  | confirm (i : ℕ)
  /-- `hp_empty` or `hp_LoWmempty`: the iterator is at `pos`, `indx` objects were looked at
  before, and the object at `pos` differs from the first `j` entries of `slots`. -/
  | hpScan (path : Path) (pos indx j : ℕ)
  deriving DecidableEq

/-- `RCUInfo`. -/
structure RCUInfo (Obj : Type) where
  obj : Obj
  epoch : ℕ
  deriving DecidableEq

/-- The state of the reclaimer with `n` threads and of the memory it protects. -/
structure State (n : ℕ) (Obj Loc : Type) where
  /-- The shared locations that `read` loads from. -/
  mem : Loc → Ptr Obj
  /-- `slots`: the published reservations. -/
  slots : Fin n → Fin slotsPerThread → Option Obj
  /-- `epoch`. -/
  epoch : ℕ
  /-- `reservations`. -/
  reservations : Fin n → WithTop ℕ
  /-- `alloc_counters`. -/
  allocCounters : Fin n → ℕ
  /-- `retired[tid]`, oldest first. -/
  retired : Fin n → List (RCUInfo Obj)
  /-- `threadData[tid].local_slots`. -/
  localSlots : Fin n → Fin slotsPerThread → Option Obj
  /-- `threadData[tid].announcedTS`, an `unsigned int`. -/
  announcedTS : Fin n → BitVec 32
  /-- `threadData[tid].savedTS`. -/
  savedTS : Fin n → Fin n → BitVec 32
  /-- `threadData[tid].mypublishingTS`, an `unsigned int`. -/
  mypublishingTS : Fin n → BitVec 32
  /-- `threadData[tid].myscannedTS`. -/
  myscannedTS : Fin n → Fin n → BitVec 32
  /-- `threadData[tid].firstLoEntryFlag`. -/
  firstLoEntryFlag : Fin n → Bool
  /-- `threadData[tid].numRetiresSinceLoWatermark`. -/
  numRetiresSinceLoWatermark : Fin n → ℕ
  /-- `threadData[tid].LoPathReclaimAttemptFreq`. -/
  loPathReclaimAttemptFreq : Fin n → ℕ
  /-- `threadData[tid].retire_bag_size_when_entered_loWm`. -/
  retireBagSizeWhenEnteredLoWm : Fin n → ℕ
  /-- A ping is in flight. -/
  pinged : Fin n → Bool
  /-- The slots copied by the running signal handler. -/
  handler : Fin n → Option ℕ
  /-- Where each thread is. -/
  pc : Fin n → Pc Obj Loc
  /-- The thread is inside an operation: past `startOp` and before the end of `endOp`. -/
  active : Fin n → Bool
  /-- Bookkeeping: the life of each object. -/
  life : Obj → Life
  /-- Bookkeeping: the slot was validated by `read` while its object was reachable. -/
  valid : Fin n → Fin slotsPerThread → Bool
  /-- Bookkeeping: completed calls of `publishReservations`. -/
  pubs : Fin n → ℕ
  /-- Bookkeeping: `pubs` when the slot was last written. -/
  setAt : Fin n → Fin slotsPerThread → ℕ
  /-- Bookkeeping: increments of `announcedTS`. -/
  ann : Fin n → ℕ
  /-- Bookkeeping: `pubs` when `mypublishingTS` was sampled. -/
  scannedPubs : Fin n → Fin n → ℕ
  /-- Bookkeeping: `pubs` when the low watermark was entered. -/
  savedPubs : Fin n → Fin n → ℕ
  /-- Bookkeeping: `ann` when `announcedTS` was saved. -/
  savedAnn : Fin n → Fin n → ℕ
  /-- Bookkeeping: `pubs` when the object was retired. -/
  retireAt : Obj → Fin n → ℕ

/-- The parameters set by the constructor. -/
structure Config where
  /-- `empty_freq`, also `bagCapacityThreshold`. -/
  emptyFreq : ℕ
  /-- `epoch_freq`. -/
  epochFreq : ℕ

/-- The configuration built without `LONG_RUNNING_EXP`. -/
def Config.standard : Config := ⟨maxRetirebagCapacityPow2, 150⟩

/-- The configuration built with `LONG_RUNNING_EXP`. -/
def Config.longRunning : Config := ⟨2048, 150⟩

/-- `empty_freq - 4096`, compared with an `unsigned int`. -/
def Config.forceThreshold (cfg : Config) : ℕ := (BitVec.ofNat 32 cfg.emptyFreq - 4096).toNat

variable {n : ℕ} {Obj Loc : Type}

namespace State

/-- The state after the constructor and `initThread` of every thread. -/
def initial (n : ℕ) (Obj Loc : Type) : State n Obj Loc where
  mem _ := ⟨none, 0⟩
  slots _ _ := none
  epoch := 0
  reservations _ := ⊤
  allocCounters _ := 0
  retired _ := []
  localSlots _ _ := none
  announcedTS _ := 0
  savedTS _ _ := 0
  mypublishingTS _ := 0
  myscannedTS _ _ := 0
  firstLoEntryFlag _ := true
  numRetiresSinceLoWatermark _ := 0
  loPathReclaimAttemptFreq _ := maxRetirebagCapacityPow2 / 3
  retireBagSizeWhenEnteredLoWm _ := 0
  pinged _ := false
  handler _ := none
  pc _ := .idle
  active _ := false
  life _ := .pooled
  valid _ _ := false
  pubs _ := 0
  setAt _ _ := 0
  ann _ := 0
  scannedPubs _ _ := 0
  savedPubs _ _ := 0
  savedAnn _ _ := 0
  retireAt _ _ := 0

variable (s : State n Obj Loc)

/-- The thread may take a step of its own: no ping waits for it and no handler runs. -/
def Runs (t : Fin n) : Prop := s.pinged t = false ∧ s.handler t = none

/-- `isPastLoWatermark`. -/
def isPastLoWatermark (cfg : Config) (t : Fin n) (myTrashSize : ℕ) : Bool :=
  cfg.emptyFreq / 8 < myTrashSize &&
    s.numRetiresSinceLoWatermark t % s.loPathReclaimAttemptFreq t == 0

/-- `hp_empty` or `hp_LoWmempty` leaves its loop: the list is exhausted, or, at the low
watermark, the objects that were there on entry are. The saved size is positive there, so
`size - 1` does not wrap. -/
def hpScanStops (t : Fin n) (path : Path) (pos indx : ℕ) : Prop :=
  (s.retired t).length ≤ pos ∨
    (path = .loWm ∧ s.retireBagSizeWhenEnteredLoWm t - 1 < indx)

instance (t : Fin n) (path : Path) (pos indx : ℕ) : Decidable (s.hpScanStops t path pos indx) :=
  inferInstanceAs (Decidable (_ ∨ _))

/-- Thread `t` goes on at `p`. -/
def goto (t : Fin n) (p : Pc Obj Loc) : State n Obj Loc :=
  { s with pc := update s.pc t p }

/-- `resetLoWmMetaData`. -/
def resetLoWmMetaData (t : Fin n) : State n Obj Loc :=
  { s with
    firstLoEntryFlag := update s.firstLoEntryFlag t true
    numRetiresSinceLoWatermark := update s.numRetiresSinceLoWatermark t 0
    retireBagSizeWhenEnteredLoWm := update s.retireBagSizeWhenEnteredLoWm t 0 }

/-- The end of `retire`: the retires since the low watermark are counted. -/
def finishRetire (t : Fin n) : State n Obj Loc :=
  { s with
    numRetiresSinceLoWatermark :=
      if s.firstLoEntryFlag t then s.numRetiresSinceLoWatermark
      else update s.numRetiresSinceLoWatermark t (s.numRetiresSinceLoWatermark t + 1)
    pc := update s.pc t .idle }

/-- `myTrash->push_back(RCUInfo(obj, epoch))`. -/
def pushBack [DecidableEq Obj] (t : Fin n) (o : Obj) : State n Obj Loc :=
  { s with
    retired := update s.retired t (s.retired t ++ [⟨o, s.epoch⟩])
    life := update s.life o .retired
    retireAt := update s.retireAt o s.pubs }

/-- Thread `t` stores `r` in its private slot `e`. -/
def setSlot (t : Fin n) (e : Fin slotsPerThread) (r : Option Obj) : State n Obj Loc :=
  { s with
    localSlots := update s.localSlots t (update (s.localSlots t) e r)
    valid := update s.valid t (update (s.valid t) e false)
    setAt := update s.setAt t (update (s.setAt t) e (s.pubs t)) }

/-- `slots[tid * slotsPerThread + e] = threadData[tid].local_slots[e]`. -/
def copySlot (t : Fin n) (e : Fin slotsPerThread) : State n Obj Loc :=
  { s with slots := update s.slots t (update (s.slots t) e (s.localSlots t e)) }

/-- `threadData[tid].mypublishingTS.fetch_add(1)`. -/
def countPublish (t : Fin n) : State n Obj Loc :=
  { s with
    mypublishingTS := update s.mypublishingTS t (s.mypublishingTS t + 1)
    pubs := update s.pubs t (s.pubs t + 1) }

/-- `std::atomic_fetch_add(&threadData[tid].announcedTS, 1)`. -/
def announce (t : Fin n) : State n Obj Loc :=
  { s with
    announcedTS := update s.announcedTS t (s.announcedTS t + 1)
    ann := update s.ann t (s.ann t + 1) }

/-- `this->pool->add(tid, ptr); iterator = myTrash->erase(iterator)`. -/
def passToPool [DecidableEq Obj] (t : Fin n) (pos : ℕ) (o : Obj) : State n Obj Loc :=
  { s with
    retired := update s.retired t ((s.retired t).eraseIdx pos)
    life := update s.life o .pooled }

end State

/-- The atomic steps. -/
inductive Step [DecidableEq Obj] [DecidableEq Loc] (cfg : Config) :
    State n Obj Loc → Actor n → State n Obj Loc → Prop
  /-- Some operation writes or CASes a shared location. -/
  | write (s : State n Obj Loc) (l : Loc) (p : Ptr Obj) :
      Step cfg s .env { s with mem := update s.mem l p }
  /-- An object is linked. -/
  | link (s : State n Obj Loc) (o : Obj) (h : s.life o = .pooled) :
      Step cfg s .env { s with life := update s.life o .linked }
  /-- An object is unlinked. -/
  | unlink (s : State n Obj Loc) (o : Obj) (h : s.life o = .linked) :
      Step cfg s .env { s with life := update s.life o .unlinked }
  /-- `updateAllocCounterAndEpoch`, called by an allocation. -/
  | alloc (s : State n Obj Loc) (t : Fin n) (hr : s.Runs t) (hpc : s.pc t = .idle) :
      Step cfg s (.thread t)
        { s.goto t (if (s.allocCounters t + 1) % (cfg.epochFreq * n) = 0 then .bumpEpoch
            else .idle) with
          allocCounters := update s.allocCounters t (s.allocCounters t + 1) }
  | bumpEpoch (s : State n Obj Loc) (t : Fin n) (hr : s.Runs t) (hpc : s.pc t = .bumpEpoch) :
      Step cfg s (.thread t) { s.goto t .idle with epoch := s.epoch + 1 }
  | callStartOp (s : State n Obj Loc) (t : Fin n) (hr : s.Runs t) (hpc : s.pc t = .idle)
      (hact : s.active t = false) :
      Step cfg s (.thread t) (s.goto t (.startOp s.epoch))
  | startOp (s : State n Obj Loc) (t : Fin n) (e : ℕ) (hr : s.Runs t) (hpc : s.pc t = .startOp e) :
      Step cfg s (.thread t)
        { s.goto t .idle with
          reservations := update s.reservations t e
          active := update s.active t true }
  | callRead (s : State n Obj Loc) (t : Fin n) (idx : Fin slotsPerThread) (l : Loc)
      (hr : s.Runs t) (hpc : s.pc t = .idle) (hact : s.active t = true) :
      Step cfg s (.thread t) (s.goto t (.readLoad idx l))
  | readLoad (s : State n Obj Loc) (t : Fin n) (idx : Fin slotsPerThread) (l : Loc)
      (hr : s.Runs t) (hpc : s.pc t = .readLoad idx l) :
      Step cfg s (.thread t) (s.goto t (.readReserve idx l (s.mem l)))
  | readReserve (s : State n Obj Loc) (t : Fin n) (idx : Fin slotsPerThread) (l : Loc)
      (ret : Ptr Obj) (hr : s.Runs t) (hpc : s.pc t = .readReserve idx l ret) :
      Step cfg s (.thread t) ((s.setSlot t idx ret.obj).goto t (.readCheck idx l ret))
  /-- The location still holds what was loaded: `read` returns. Whether the object is
  reachable at this moment is recorded. -/
  | readReturn (s : State n Obj Loc) (t : Fin n) (idx : Fin slotsPerThread) (l : Loc)
      (ret : Ptr Obj) (hr : s.Runs t) (hpc : s.pc t = .readCheck idx l ret)
      (hret : ret = s.mem l) :
      Step cfg s (.thread t)
        { s.goto t .idle with
          valid := update s.valid t (update (s.valid t) idx
            (ret.obj.any fun o => s.life o = .linked)) }
  /-- The location has changed: `read` loads again. -/
  | readRetry (s : State n Obj Loc) (t : Fin n) (idx : Fin slotsPerThread) (l : Loc)
      (ret : Ptr Obj) (hr : s.Runs t) (hpc : s.pc t = .readCheck idx l ret)
      (hret : ret ≠ s.mem l) :
      Step cfg s (.thread t) (s.goto t (.readLoad idx l))
  | callEndOp (s : State n Obj Loc) (t : Fin n) (hr : s.Runs t) (hpc : s.pc t = .idle)
      (hact : s.active t = true) :
      Step cfg s (.thread t) (s.goto t (.endOp 0))
  | endOp (s : State n Obj Loc) (t : Fin n) (e : Fin slotsPerThread)
      (hr : s.Runs t) (hpc : s.pc t = .endOp e.val) :
      Step cfg s (.thread t) ((s.setSlot t e none).goto t (.endOp (e.val + 1)))
  /-- `endOp` gives up the reservation. -/
  | endOpReturn (s : State n Obj Loc) (t : Fin n)
      (hr : s.Runs t) (hpc : s.pc t = .endOp slotsPerThread) :
      Step cfg s (.thread t)
        { s.goto t .idle with
          reservations := update s.reservations t ⊤
          active := update s.active t false }
  /-- `retire(tid, obj)`, first entry past the low watermark. -/
  | retireEnterLoWm (s : State n Obj Loc) (t : Fin n) (o : Obj) (rand : Fin 11)
      (hr : s.Runs t) (hpc : s.pc t = .idle) (ho : s.life o = .unlinked)
      (hpast : s.isPastLoWatermark cfg t ((s.retired t).length + 1) = true)
      (hfirst : s.firstLoEntryFlag t = true) :
      Step cfg s (.thread t)
        { (s.pushBack t o).goto t (.saveTS 0) with
          firstLoEntryFlag := update s.firstLoEntryFlag t false
          loPathReclaimAttemptFreq := update s.loPathReclaimAttemptFreq t (attemptFreq rand)
          savedPubs := update s.savedPubs t s.pubs }
  /-- `retire(tid, obj)`, again past the low watermark. -/
  | retireLoWm (s : State n Obj Loc) (t : Fin n) (o : Obj)
      (hr : s.Runs t) (hpc : s.pc t = .idle) (ho : s.life o = .unlinked)
      (hpast : s.isPastLoWatermark cfg t ((s.retired t).length + 1) = true)
      (hfirst : s.firstLoEntryFlag t = false) :
      Step cfg s (.thread t) ((s.pushBack t o).goto t (.check 0))
  /-- `retire(tid, obj)`, not at the low watermark. -/
  | retire (s : State n Obj Loc) (t : Fin n) (o : Obj)
      (hr : s.Runs t) (hpc : s.pc t = .idle) (ho : s.life o = .unlinked)
      (hpast : s.isPastLoWatermark cfg t ((s.retired t).length + 1) = false) :
      Step cfg s (.thread t) ((s.pushBack t o).goto t .afterLoWm)
  | saveTS (s : State n Obj Loc) (t i : Fin n)
      (hr : s.Runs t) (hpc : s.pc t = .saveTS i.val) :
      Step cfg s (.thread t)
        { s.goto t (.saveTS (i.val + 1)) with
          savedTS := update s.savedTS t (update (s.savedTS t) i (s.announcedTS i))
          savedAnn := update s.savedAnn t (update (s.savedAnn t) i (s.ann i)) }
  | saveTSEnd (s : State n Obj Loc) (t : Fin n)
      (hr : s.Runs t) (hpc : s.pc t = .saveTS n) :
      Step cfg s (.thread t)
        { s.goto t (.check 0) with
          retireBagSizeWhenEnteredLoWm :=
            update s.retireBagSizeWhenEnteredLoWm t (s.retired t).length }
  /-- Thread `i` has signalled since: `announcedTS[i] >= savedTS[i] + 2`. -/
  | checkHit (s : State n Obj Loc) (t i : Fin n)
      (hr : s.Runs t) (hpc : s.pc t = .check i.val)
      (hge : s.savedTS t i + 2 ≤ s.announcedTS i) :
      Step cfg s (.thread t) (s.goto t (.hpScan .loWm 0 0 0))
  | checkMiss (s : State n Obj Loc) (t i : Fin n)
      (hr : s.Runs t) (hpc : s.pc t = .check i.val)
      (hlt : ¬ s.savedTS t i + 2 ≤ s.announcedTS i) :
      Step cfg s (.thread t) (s.goto t (.check (i.val + 1)))
  | checkEnd (s : State n Obj Loc) (t : Fin n)
      (hr : s.Runs t) (hpc : s.pc t = .check n) :
      Step cfg s (.thread t) (s.goto t .afterLoWm)
  /-- Out of patience. -/
  | callRcuEmpty (s : State n Obj Loc) (t : Fin n)
      (hr : s.Runs t) (hpc : s.pc t = .afterLoWm) (hout : cfg.emptyFreq ≤ (s.retired t).length) :
      Step cfg s (.thread t) (s.goto t (.minEpoch 0 ⊤))
  | retireReturn (s : State n Obj Loc) (t : Fin n)
      (hr : s.Runs t) (hpc : s.pc t = .afterLoWm)
      (hout : ¬ cfg.emptyFreq ≤ (s.retired t).length) :
      Step cfg s (.thread t) (s.finishRetire t)
  | minEpoch (s : State n Obj Loc) (t i : Fin n) (m : WithTop ℕ)
      (hr : s.Runs t) (hpc : s.pc t = .minEpoch i.val m) :
      Step cfg s (.thread t) (s.goto t (.minEpoch (i.val + 1) (min m (s.reservations i))))
  | minEpochEnd (s : State n Obj Loc) (t : Fin n) (m : WithTop ℕ)
      (hr : s.Runs t) (hpc : s.pc t = .minEpoch n m) :
      Step cfg s (.thread t) (s.goto t (.rcuScan 0 m))
  /-- The stamp of the object is below every reservation: it is passed to the pool. -/
  | rcuFree (s : State n Obj Loc) (t : Fin n) (pos : ℕ) (m : WithTop ℕ) (res : RCUInfo Obj)
      (hr : s.Runs t) (hpc : s.pc t = .rcuScan pos m) (ho : (s.retired t)[pos]? = some res)
      (hlt : (res.epoch : WithTop ℕ) < m) :
      Step cfg s (.thread t) ((s.passToPool t pos res.obj).goto t (.rcuScan pos m))
  | rcuKeep (s : State n Obj Loc) (t : Fin n) (pos : ℕ) (m : WithTop ℕ) (res : RCUInfo Obj)
      (hr : s.Runs t) (hpc : s.pc t = .rcuScan pos m) (ho : (s.retired t)[pos]? = some res)
      (hge : ¬ (res.epoch : WithTop ℕ) < m) :
      Step cfg s (.thread t) (s.goto t (.rcuScan (pos + 1) m))
  /-- `rcu_empty` left too many objects. -/
  | rcuForce (s : State n Obj Loc) (t : Fin n) (pos : ℕ) (m : WithTop ℕ)
      (hr : s.Runs t) (hpc : s.pc t = .rcuScan pos m) (hend : (s.retired t).length ≤ pos)
      (hforce : cfg.forceThreshold ≤ (s.retired t).length) :
      Step cfg s (.thread t) (s.goto t (.sample 0))
  | rcuEnd (s : State n Obj Loc) (t : Fin n) (pos : ℕ) (m : WithTop ℕ)
      (hr : s.Runs t) (hpc : s.pc t = .rcuScan pos m) (hend : (s.retired t).length ≤ pos)
      (hforce : ¬ cfg.forceThreshold ≤ (s.retired t).length) :
      Step cfg s (.thread t) ((s.resetLoWmMetaData t).finishRetire t)
  | sample (s : State n Obj Loc) (t i : Fin n)
      (hr : s.Runs t) (hpc : s.pc t = .sample i.val) :
      Step cfg s (.thread t)
        { s.goto t (.sample (i.val + 1)) with
          myscannedTS := update s.myscannedTS t (update (s.myscannedTS t) i (s.mypublishingTS i))
          scannedPubs := update s.scannedPubs t (update (s.scannedPubs t) i (s.pubs i)) }
  | sampleEnd (s : State n Obj Loc) (t : Fin n)
      (hr : s.Runs t) (hpc : s.pc t = .sample n) :
      Step cfg s (.thread t) (s.goto t .announceStart)
  | announceStart (s : State n Obj Loc) (t : Fin n)
      (hr : s.Runs t) (hpc : s.pc t = .announceStart) :
      Step cfg s (.thread t) ((s.announce t).goto t (.ping 0))
  /-- `requestAllThreadsToRestart`: `pthread_kill` of another thread. -/
  | ping (s : State n Obj Loc) (t i : Fin n)
      (hr : s.Runs t) (hpc : s.pc t = .ping i.val) (hi : t ≠ i) :
      Step cfg s (.thread t)
        { s.goto t (.ping (i.val + 1)) with pinged := update s.pinged i true }
  | pingSelf (s : State n Obj Loc) (t : Fin n)
      (hr : s.Runs t) (hpc : s.pc t = .ping t.val) :
      Step cfg s (.thread t) (s.goto t (.ping (t.val + 1)))
  | pingEnd (s : State n Obj Loc) (t : Fin n)
      (hr : s.Runs t) (hpc : s.pc t = .ping n) :
      Step cfg s (.thread t) (s.goto t (.confirm 0))
  /-- The confirmation loop loads `mypublishingTS` of thread `i`, compares it with
  `myscannedTS` and goes on to the next thread whether it has moved or not. -/
  | confirm (s : State n Obj Loc) (t i : Fin n)
      (hr : s.Runs t) (hpc : s.pc t = .confirm i.val) :
      Step cfg s (.thread t) (s.goto t (.confirm (i.val + 1)))
  /-- The second increment of `announcedTS`, then `hp_empty`. -/
  | announceDone (s : State n Obj Loc) (t : Fin n)
      (hr : s.Runs t) (hpc : s.pc t = .confirm n) :
      Step cfg s (.thread t) ((s.announce t).goto t (.hpScan .hp 0 0 0))
  /-- The object differs from entry `u * slotsPerThread + e` of `slots`. -/
  | hpNext (s : State n Obj Loc) (t u : Fin n) (e : Fin slotsPerThread) (path : Path)
      (pos indx : ℕ) (res : RCUInfo Obj) (hr : s.Runs t)
      (hpc : s.pc t = .hpScan path pos indx (u.val * slotsPerThread + e.val))
      (hgo : ¬ s.hpScanStops t path pos indx) (ho : (s.retired t)[pos]? = some res)
      (hne : s.slots u e ≠ some res.obj) :
      Step cfg s (.thread t)
        (s.goto t (.hpScan path pos indx (u.val * slotsPerThread + e.val + 1)))
  /-- The object is in entry `u * slotsPerThread + e` of `slots`: it stays in the list. -/
  | hpKeep (s : State n Obj Loc) (t u : Fin n) (e : Fin slotsPerThread) (path : Path)
      (pos indx : ℕ) (res : RCUInfo Obj) (hr : s.Runs t)
      (hpc : s.pc t = .hpScan path pos indx (u.val * slotsPerThread + e.val))
      (hgo : ¬ s.hpScanStops t path pos indx) (ho : (s.retired t)[pos]? = some res)
      (heq : s.slots u e = some res.obj) :
      Step cfg s (.thread t) (s.goto t (.hpScan path (pos + 1) (indx + 1) 0))
  /-- The object differs from every entry: it is passed to the pool. -/
  | hpFree (s : State n Obj Loc) (t : Fin n) (path : Path) (pos indx : ℕ) (res : RCUInfo Obj)
      (hr : s.Runs t) (hpc : s.pc t = .hpScan path pos indx (n * slotsPerThread))
      (hgo : ¬ s.hpScanStops t path pos indx) (ho : (s.retired t)[pos]? = some res) :
      Step cfg s (.thread t)
        ((s.passToPool t pos res.obj).goto t (.hpScan path pos (indx + 1) 0))
  | hpEnd (s : State n Obj Loc) (t : Fin n) (pos indx : ℕ)
      (hr : s.Runs t) (hpc : s.pc t = .hpScan .hp pos indx 0)
      (hstop : s.hpScanStops t .hp pos indx) :
      Step cfg s (.thread t) ((s.resetLoWmMetaData t).finishRetire t)
  | loWmEnd (s : State n Obj Loc) (t : Fin n) (pos indx : ℕ)
      (hr : s.Runs t) (hpc : s.pc t = .hpScan .loWm pos indx 0)
      (hstop : s.hpScanStops t .loWm pos indx) :
      Step cfg s (.thread t) ((s.resetLoWmMetaData t).goto t .afterLoWm)
  /-- A pinged thread enters its handler. -/
  | handlerEnter (s : State n Obj Loc) (t : Fin n)
      (hp : s.pinged t = true) (hh : s.handler t = none) :
      Step cfg s (.handler t)
        { s with
          pinged := update s.pinged t false
          handler := update s.handler t (some 0) }
  /-- `trcrashhandler` runs `publishReservations`. -/
  | handlerPublish (s : State n Obj Loc) (t : Fin n) (e : Fin slotsPerThread)
      (hh : s.handler t = some e.val) :
      Step cfg s (.handler t)
        { s.copySlot t e with handler := update s.handler t (some (e.val + 1)) }
  | handlerReturn (s : State n Obj Loc) (t : Fin n)
      (hh : s.handler t = some slotsPerThread) :
      Step cfg s (.handler t)
        { s.countPublish t with handler := update s.handler t none }

/-- The reclaimer with `n` threads as a transition system. -/
def system [DecidableEq Obj] [DecidableEq Loc] (cfg : Config) : Lts (State n Obj Loc) (Actor n) where
  init s := s = State.initial n Obj Loc
  step := Step cfg

end EpochPop
end PopSetbench

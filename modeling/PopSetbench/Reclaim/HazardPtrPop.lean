import Mathlib.Data.Fintype.Basic
import Mathlib.Data.Fintype.Prod
import PopSetbench.Library.Run
import PopSetbench.Library.Handshake
import PopSetbench.Reclaim.Object

/-!
# HazardPtrPOP: hazard pointers published on ping

The reclaimer of `reclaimer_ibr_popplushp.h`. A thread reserves the objects it reads in
`local_slots`, which nobody else sees. `publishReservations` copies them to the shared
`slots` and increments `mypublishingTS`; it runs in the signal handler of a pinged thread
and at the beginning of the thread's own signalling.

`retire` has two ways to free objects.

* *High watermark* (`isOutOfPatience`): sample every `mypublishingTS` into `myscannedTS`,
  increment `announcedTS`, publish, ping everybody, increment `announcedTS`, run the
  confirmation loop, then `empty`.
* *Low watermark* (`isPastLoWatermark`): on the first entry save every `announcedTS` into
  `savedTS` and the size of the list; whenever some `announcedTS[i]` is at least
  `savedTS[i] + 2`, call `empty`, which stops at the saved size.

Every access to a shared variable is one step, and so is every store to a private slot,
because the thread's own handler may run in between. A pinged thread takes no step of its
own before its handler has run (`State.Runs`), but the handler may start at any later
moment; further pings are not delivered while it runs.

The confirmation loop compares and goes on: the source's `continue` belongs to the `for`
loop that visits the threads, so a counter that has not moved does not keep the thread
waiting (`Step.confirm` has no guard on the comparison).

The last group of fields of `State` is bookkeeping that no step reads.
-/

namespace PopSetbench
namespace HazardPtrPop

open Function

/-- Why `retire` called `empty`. -/
inductive Path
  /-- `isOutOfPatience`. -/
  | hiWm
  /-- `isPastLoWatermark`. -/
  | loWm
  deriving DecidableEq

/-- Where a thread is in the code. -/
inductive Pc (Obj Loc : Type)
  /-- Between two calls. -/
  | idle
  /-- `read`: about to load `obj`. -/
  | readLoad (idx : Fin slotsPerThread) (loc : Loc)
  /-- `read`: about to reserve what it loaded. -/
  | readReserve (idx : Fin slotsPerThread) (loc : Loc) (ret : Ptr Obj)
  /-- `read`: about to load `obj` again. -/
  | readCheck (idx : Fin slotsPerThread) (loc : Loc) (ret : Ptr Obj)
  /-- `endOp`: slots below `i` are cleared. -/
  | endOp (i : ℕ)
  /-- `retire`, high watermark: `mypublishingTS` is sampled below `i`. -/
  | sample (i : ℕ)
  /-- About to increment `announcedTS`, signalling starts. -/
  | announceStart
  /-- Own `publishReservations`: slots below `j` are copied. -/
  | publish (j : ℕ)
  /-- Threads below `i` are pinged. -/
  | ping (i : ℕ)
  /-- The confirmation loop has passed the threads below `i`. -/
  | confirm (i : ℕ)
  /-- `setLoWmMetaData`: `announcedTS` is saved below `i`. -/
  | saveTS (i : ℕ)
  /-- `retire`, low watermark: threads below `i` have not finished a new round. -/
  | check (i : ℕ)
  /-- `empty`: the first `m` entries of `slots` are copied. -/
  | snapshot (path : Path) (m : ℕ)
  /-- `empty`: the iterator is at `pos`, `reclaimed_so_far` objects were looked at. -/
  | scan (path : Path) (pos reclaimedSoFar : ℕ)
  deriving DecidableEq

/-- The state of the reclaimer with `n` threads and of the memory it protects. -/
structure State (n : ℕ) (Obj Loc : Type) where
  /-- The shared locations that `read` loads from. -/
  mem : Loc → Ptr Obj
  /-- `slots`: the published reservations. -/
  slots : Fin n → Fin slotsPerThread → Option Obj
  /-- `threadData[tid].local_slots`. -/
  localSlots : Fin n → Fin slotsPerThread → Option Obj
  /-- `threadData[tid].announcedTS`, an `unsigned int`. -/
  announcedTS : Fin n → BitVec 32
  /-- `threadData[tid].savedTS`. -/
  savedTS : Fin n → Fin n → BitVec 32
  /-- `threadData[tid].mypublishingTS`, an `unsigned int`. -/
  mypublishingTS : Fin n → BitVec 32
  /-- `threadData[tid].myscannedTS`. -/
  myscannedTS : Fin n → Fin n → BitVec 32
  /-- `threadData[tid].firstLoEntryFlag`. -/
  firstLoEntryFlag : Fin n → Bool
  /-- `threadData[tid].numRetiresSinceLoWatermark`. -/
  numRetiresSinceLoWatermark : Fin n → ℕ
  /-- `threadData[tid].LoPathReclaimAttemptFreq`. -/
  loPathReclaimAttemptFreq : Fin n → ℕ
  /-- `threadData[tid].retire_bag_size_when_entered_loWm`. -/
  retireBagSizeWhenEnteredLoWm : Fin n → ℕ
  /-- `retired[tid]`, oldest first. -/
  retired : Fin n → List Obj
  /-- `temp_local_slots` of the running `empty`. -/
  tempLocalSlots : Fin n → Fin n → Fin slotsPerThread → Option Obj
  /-- A ping is in flight. -/
  pinged : Fin n → Bool
  /-- The slots copied by the running signal handler. -/
  handler : Fin n → Option ℕ
  /-- Where each thread is. -/
  pc : Fin n → Pc Obj Loc
  /-- Bookkeeping: the life of each object. -/
  life : Obj → Life
  /-- Bookkeeping: the slot was validated by `read` while its object was reachable. -/
  valid : Fin n → Fin slotsPerThread → Bool
  /-- Bookkeeping: completed calls of `publishReservations`. -/
  pubs : Fin n → ℕ
  /-- Bookkeeping: `pubs` when the slot was last written. -/
  setAt : Fin n → Fin slotsPerThread → ℕ
  /-- Bookkeeping: increments of `announcedTS`. -/
  ann : Fin n → ℕ
  /-- Bookkeeping: `pubs` when `mypublishingTS` was sampled. -/
  scannedPubs : Fin n → Fin n → ℕ
  /-- Bookkeeping: `pubs` when the low watermark was entered. -/
  savedPubs : Fin n → Fin n → ℕ
  /-- Bookkeeping: `ann` when `announcedTS` was saved. -/
  savedAnn : Fin n → Fin n → ℕ
  /-- Bookkeeping: `pubs` when the object was retired. -/
  retireAt : Obj → Fin n → ℕ

/-- `empty_freq`, the capacity of a retired list. -/
structure Config where
  /-- `empty_freq`, also `bagCapacityThreshold`. -/
  emptyFreq : ℕ

/-- The configuration built without `LONG_RUNNING_EXP`. -/
def Config.standard : Config := ⟨maxRetirebagCapacityPow2⟩

variable {n : ℕ} {Obj Loc : Type}

namespace State

/-- The state after the constructor and `initThread` of every thread. -/
def initial (n : ℕ) (Obj Loc : Type) : State n Obj Loc where
  mem _ := ⟨none, 0⟩
  slots _ _ := none
  localSlots _ _ := none
  announcedTS _ := 0
  savedTS _ _ := 0
  mypublishingTS _ := 0
  myscannedTS _ _ := 0
  firstLoEntryFlag _ := true
  numRetiresSinceLoWatermark _ := 0
  loPathReclaimAttemptFreq _ := maxRetirebagCapacityPow2 / 3
  retireBagSizeWhenEnteredLoWm _ := 0
  retired _ := []
  tempLocalSlots _ _ _ := none
  pinged _ := false
  handler _ := none
  pc _ := .idle
  life _ := .pooled
  valid _ _ := false
  pubs _ := 0
  setAt _ _ := 0
  ann _ := 0
  scannedPubs _ _ := 0
  savedPubs _ _ := 0
  savedAnn _ _ := 0
  retireAt _ _ := 0

variable (s : State n Obj Loc)

/-- The thread may take a step of its own: no ping waits for it and no handler runs. -/
def Runs (t : Fin n) : Prop := s.pinged t = false ∧ s.handler t = none

/-- `isOutOfPatience`. -/
def isOutOfPatience (cfg : Config) (myTrashSize : ℕ) : Bool :=
  cfg.emptyFreq ≤ myTrashSize

/-- `isPastLoWatermark`. -/
def isPastLoWatermark (cfg : Config) (t : Fin n) (myTrashSize : ℕ) : Bool :=
  cfg.emptyFreq / 2 < myTrashSize &&
    s.numRetiresSinceLoWatermark t % s.loPathReclaimAttemptFreq t == 0

/-- `conflict`: the object is in the copied slots. -/
def conflict (t : Fin n) (o : Obj) : Prop :=
  ∃ u e, s.tempLocalSlots t u e = some o

instance [DecidableEq Obj] (t : Fin n) (o : Obj) : Decidable (s.conflict t o) :=
  inferInstanceAs (Decidable (∃ u e, s.tempLocalSlots t u e = some o))

/-- `empty` leaves its loop: the list is exhausted, or, at the low watermark, the objects
that were there on entry are. The saved size is positive there, so `size - 1` does not
wrap. -/
def scanStops (t : Fin n) (pos reclaimedSoFar : ℕ) : Prop :=
  (s.retired t).length ≤ pos ∨
    (s.firstLoEntryFlag t = false ∧ s.retireBagSizeWhenEnteredLoWm t - 1 < reclaimedSoFar)

instance (t : Fin n) (pos reclaimedSoFar : ℕ) : Decidable (s.scanStops t pos reclaimedSoFar) :=
  inferInstanceAs (Decidable (_ ∨ _))

/-- Thread `t` goes on at `p`. -/
def goto (t : Fin n) (p : Pc Obj Loc) : State n Obj Loc :=
  { s with pc := update s.pc t p }

/-- `resetLoWmMetaData`. -/
def resetLoWmMetaData (t : Fin n) : State n Obj Loc :=
  { s with
    firstLoEntryFlag := update s.firstLoEntryFlag t true
    numRetiresSinceLoWatermark := update s.numRetiresSinceLoWatermark t 0
    retireBagSizeWhenEnteredLoWm := update s.retireBagSizeWhenEnteredLoWm t 0 }

/-- The end of `retire`: the retires since the low watermark are counted. -/
def finishRetire (t : Fin n) : State n Obj Loc :=
  { s with
    numRetiresSinceLoWatermark :=
      if s.firstLoEntryFlag t then s.numRetiresSinceLoWatermark
      else update s.numRetiresSinceLoWatermark t (s.numRetiresSinceLoWatermark t + 1)
    pc := update s.pc t .idle }

/-- `myTrash->push_back(obj)`. -/
def pushBack [DecidableEq Obj] (t : Fin n) (o : Obj) : State n Obj Loc :=
  { s with
    retired := update s.retired t (s.retired t ++ [o])
    life := update s.life o .retired
    retireAt := update s.retireAt o s.pubs }

/-- Thread `t` stores `r` in its private slot `e`. -/
def setSlot (t : Fin n) (e : Fin slotsPerThread) (r : Option Obj) : State n Obj Loc :=
  { s with
    localSlots := update s.localSlots t (update (s.localSlots t) e r)
    valid := update s.valid t (update (s.valid t) e false)
    setAt := update s.setAt t (update (s.setAt t) e (s.pubs t)) }

/-- `slots[tid * slotsPerThread + e] = threadData[tid].local_slots[e]`. -/
def copySlot (t : Fin n) (e : Fin slotsPerThread) : State n Obj Loc :=
  { s with slots := update s.slots t (update (s.slots t) e (s.localSlots t e)) }

/-- `threadData[tid].mypublishingTS.fetch_add(1)`. -/
def countPublish (t : Fin n) : State n Obj Loc :=
  { s with
    mypublishingTS := update s.mypublishingTS t (s.mypublishingTS t + 1)
    pubs := update s.pubs t (s.pubs t + 1) }

/-- `std::atomic_fetch_add(&threadData[tid].announcedTS, 1)`. -/
def announce (t : Fin n) : State n Obj Loc :=
  { s with
    announcedTS := update s.announcedTS t (s.announcedTS t + 1)
    ann := update s.ann t (s.ann t + 1) }

/-- The entry of `slots` that `empty` copies at index `m`. -/
def copyEntry (t u : Fin n) (e : Fin slotsPerThread) : State n Obj Loc :=
  { s with
    tempLocalSlots := update s.tempLocalSlots t
      (update (s.tempLocalSlots t) u (update (s.tempLocalSlots t u) e (s.slots u e))) }

/-- `this->pool->add(tid, ptr); iterator = myTrash->erase(iterator)`. -/
def passToPool [DecidableEq Obj] (t : Fin n) (pos : ℕ) (o : Obj) : State n Obj Loc :=
  { s with
    retired := update s.retired t ((s.retired t).eraseIdx pos)
    life := update s.life o .pooled }

end State

/-- The atomic steps. -/
inductive Step [DecidableEq Obj] [DecidableEq Loc] (cfg : Config) :
    State n Obj Loc → Actor n → State n Obj Loc → Prop
  /-- Some operation writes or CASes a shared location. -/
  | write (s : State n Obj Loc) (l : Loc) (p : Ptr Obj) :
      Step cfg s .env { s with mem := update s.mem l p }
  /-- An object is allocated and linked. -/
  | link (s : State n Obj Loc) (o : Obj) (h : s.life o = .pooled) :
      Step cfg s .env { s with life := update s.life o .linked }
  /-- An object is unlinked. -/
  | unlink (s : State n Obj Loc) (o : Obj) (h : s.life o = .linked) :
      Step cfg s .env { s with life := update s.life o .unlinked }
  | callRead (s : State n Obj Loc) (t : Fin n) (idx : Fin slotsPerThread) (l : Loc)
      (hr : s.Runs t) (hpc : s.pc t = .idle) :
      Step cfg s (.thread t) (s.goto t (.readLoad idx l))
  | readLoad (s : State n Obj Loc) (t : Fin n) (idx : Fin slotsPerThread) (l : Loc)
      (hr : s.Runs t) (hpc : s.pc t = .readLoad idx l) :
      Step cfg s (.thread t) (s.goto t (.readReserve idx l (s.mem l)))
  | readReserve (s : State n Obj Loc) (t : Fin n) (idx : Fin slotsPerThread) (l : Loc)
      (ret : Ptr Obj) (hr : s.Runs t) (hpc : s.pc t = .readReserve idx l ret) :
      Step cfg s (.thread t) ((s.setSlot t idx ret.obj).goto t (.readCheck idx l ret))
  /-- The location still holds what was loaded: `read` returns. Whether the object is
  reachable at this moment is recorded. -/
  | readReturn (s : State n Obj Loc) (t : Fin n) (idx : Fin slotsPerThread) (l : Loc)
      (ret : Ptr Obj) (hr : s.Runs t) (hpc : s.pc t = .readCheck idx l ret)
      (hret : ret = s.mem l) :
      Step cfg s (.thread t)
        { s.goto t .idle with
          valid := update s.valid t (update (s.valid t) idx
            (ret.obj.any fun o => s.life o = .linked)) }
  /-- The location has changed: `read` loads again. -/
  | readRetry (s : State n Obj Loc) (t : Fin n) (idx : Fin slotsPerThread) (l : Loc)
      (ret : Ptr Obj) (hr : s.Runs t) (hpc : s.pc t = .readCheck idx l ret)
      (hret : ret ≠ s.mem l) :
      Step cfg s (.thread t) (s.goto t (.readLoad idx l))
  | callEndOp (s : State n Obj Loc) (t : Fin n) (hr : s.Runs t) (hpc : s.pc t = .idle) :
      Step cfg s (.thread t) (s.goto t (.endOp 0))
  | endOp (s : State n Obj Loc) (t : Fin n) (e : Fin slotsPerThread)
      (hr : s.Runs t) (hpc : s.pc t = .endOp e.val) :
      Step cfg s (.thread t) ((s.setSlot t e none).goto t (.endOp (e.val + 1)))
  | endOpReturn (s : State n Obj Loc) (t : Fin n)
      (hr : s.Runs t) (hpc : s.pc t = .endOp slotsPerThread) :
      Step cfg s (.thread t) (s.goto t .idle)
  /-- `retire(tid, obj)`, out of patience. -/
  | retireHiWm (s : State n Obj Loc) (t : Fin n) (o : Obj)
      (hr : s.Runs t) (hpc : s.pc t = .idle) (ho : s.life o = .unlinked)
      (hout : State.isOutOfPatience cfg ((s.retired t).length + 1) = true) :
      Step cfg s (.thread t) (((s.pushBack t o).resetLoWmMetaData t).goto t (.sample 0))
  /-- `retire(tid, obj)`, first entry past the low watermark. -/
  | retireEnterLoWm (s : State n Obj Loc) (t : Fin n) (o : Obj) (rand : Fin 11)
      (hr : s.Runs t) (hpc : s.pc t = .idle) (ho : s.life o = .unlinked)
      (hout : State.isOutOfPatience cfg ((s.retired t).length + 1) = false)
      (hpast : s.isPastLoWatermark cfg t ((s.retired t).length + 1) = true)
      (hfirst : s.firstLoEntryFlag t = true) :
      Step cfg s (.thread t)
        { (s.pushBack t o).goto t (.saveTS 0) with
          firstLoEntryFlag := update s.firstLoEntryFlag t false
          loPathReclaimAttemptFreq := update s.loPathReclaimAttemptFreq t (attemptFreq rand)
          savedPubs := update s.savedPubs t s.pubs }
  /-- `retire(tid, obj)`, again past the low watermark. -/
  | retireLoWm (s : State n Obj Loc) (t : Fin n) (o : Obj)
      (hr : s.Runs t) (hpc : s.pc t = .idle) (ho : s.life o = .unlinked)
      (hout : State.isOutOfPatience cfg ((s.retired t).length + 1) = false)
      (hpast : s.isPastLoWatermark cfg t ((s.retired t).length + 1) = true)
      (hfirst : s.firstLoEntryFlag t = false) :
      Step cfg s (.thread t) ((s.pushBack t o).goto t (.check 0))
  /-- `retire(tid, obj)`, neither. -/
  | retireOnly (s : State n Obj Loc) (t : Fin n) (o : Obj)
      (hr : s.Runs t) (hpc : s.pc t = .idle) (ho : s.life o = .unlinked)
      (hout : State.isOutOfPatience cfg ((s.retired t).length + 1) = false)
      (hpast : s.isPastLoWatermark cfg t ((s.retired t).length + 1) = false) :
      Step cfg s (.thread t) ((s.pushBack t o).finishRetire t)
  | sample (s : State n Obj Loc) (t i : Fin n)
      (hr : s.Runs t) (hpc : s.pc t = .sample i.val) :
      Step cfg s (.thread t)
        { s.goto t (.sample (i.val + 1)) with
          myscannedTS := update s.myscannedTS t (update (s.myscannedTS t) i (s.mypublishingTS i))
          scannedPubs := update s.scannedPubs t (update (s.scannedPubs t) i (s.pubs i)) }
  | sampleEnd (s : State n Obj Loc) (t : Fin n)
      (hr : s.Runs t) (hpc : s.pc t = .sample n) :
      Step cfg s (.thread t) (s.goto t .announceStart)
  | announceStart (s : State n Obj Loc) (t : Fin n)
      (hr : s.Runs t) (hpc : s.pc t = .announceStart) :
      Step cfg s (.thread t) ((s.announce t).goto t (.publish 0))
  /-- `requestAllThreadsToRestart`: the signalling thread publishes too. -/
  | publish (s : State n Obj Loc) (t : Fin n) (e : Fin slotsPerThread)
      (hr : s.Runs t) (hpc : s.pc t = .publish e.val) :
      Step cfg s (.thread t) ((s.copySlot t e).goto t (.publish (e.val + 1)))
  | publishEnd (s : State n Obj Loc) (t : Fin n)
      (hr : s.Runs t) (hpc : s.pc t = .publish slotsPerThread) :
      Step cfg s (.thread t) ((s.countPublish t).goto t (.ping 0))
  /-- `requestAllThreadsToRestart`: `pthread_kill` of another thread. -/
  | ping (s : State n Obj Loc) (t i : Fin n)
      (hr : s.Runs t) (hpc : s.pc t = .ping i.val) (hi : t ≠ i) :
      Step cfg s (.thread t)
        { s.goto t (.ping (i.val + 1)) with pinged := update s.pinged i true }
  | pingSelf (s : State n Obj Loc) (t : Fin n)
      (hr : s.Runs t) (hpc : s.pc t = .ping t.val) :
      Step cfg s (.thread t) (s.goto t (.ping (t.val + 1)))
  | announceDone (s : State n Obj Loc) (t : Fin n)
      (hr : s.Runs t) (hpc : s.pc t = .ping n) :
      Step cfg s (.thread t) ((s.announce t).goto t (.confirm 0))
  /-- The confirmation loop loads `mypublishingTS` of thread `i`, compares it with
  `myscannedTS` and goes on to the next thread whether it has moved or not. -/
  | confirm (s : State n Obj Loc) (t i : Fin n)
      (hr : s.Runs t) (hpc : s.pc t = .confirm i.val) :
      Step cfg s (.thread t) (s.goto t (.confirm (i.val + 1)))
  | confirmEnd (s : State n Obj Loc) (t : Fin n)
      (hr : s.Runs t) (hpc : s.pc t = .confirm n) :
      Step cfg s (.thread t) (s.goto t (.snapshot .hiWm 0))
  | saveTS (s : State n Obj Loc) (t i : Fin n)
      (hr : s.Runs t) (hpc : s.pc t = .saveTS i.val) :
      Step cfg s (.thread t)
        { s.goto t (.saveTS (i.val + 1)) with
          savedTS := update s.savedTS t (update (s.savedTS t) i (s.announcedTS i))
          savedAnn := update s.savedAnn t (update (s.savedAnn t) i (s.ann i)) }
  | saveTSEnd (s : State n Obj Loc) (t : Fin n)
      (hr : s.Runs t) (hpc : s.pc t = .saveTS n) :
      Step cfg s (.thread t)
        { s.goto t (.check 0) with
          retireBagSizeWhenEnteredLoWm :=
            update s.retireBagSizeWhenEnteredLoWm t (s.retired t).length }
  /-- Thread `i` has signalled since: `announcedTS[i] >= savedTS[i] + 2`. -/
  | checkHit (s : State n Obj Loc) (t i : Fin n)
      (hr : s.Runs t) (hpc : s.pc t = .check i.val)
      (hge : s.savedTS t i + 2 ≤ s.announcedTS i) :
      Step cfg s (.thread t) (s.goto t (.snapshot .loWm 0))
  | checkMiss (s : State n Obj Loc) (t i : Fin n)
      (hr : s.Runs t) (hpc : s.pc t = .check i.val)
      (hlt : ¬ s.savedTS t i + 2 ≤ s.announcedTS i) :
      Step cfg s (.thread t) (s.goto t (.check (i.val + 1)))
  | checkEnd (s : State n Obj Loc) (t : Fin n)
      (hr : s.Runs t) (hpc : s.pc t = .check n) :
      Step cfg s (.thread t) (s.finishRetire t)
  /-- `empty` copies entry `u * slotsPerThread + e` of `slots`. -/
  | snapshot (s : State n Obj Loc) (t u : Fin n) (e : Fin slotsPerThread) (path : Path)
      (hr : s.Runs t) (hpc : s.pc t = .snapshot path (u.val * slotsPerThread + e.val)) :
      Step cfg s (.thread t)
        ((s.copyEntry t u e).goto t (.snapshot path (u.val * slotsPerThread + e.val + 1)))
  | snapshotEnd (s : State n Obj Loc) (t : Fin n) (path : Path)
      (hr : s.Runs t) (hpc : s.pc t = .snapshot path (n * slotsPerThread)) :
      Step cfg s (.thread t) (s.goto t (.scan path 0 0))
  /-- The object is in the copied slots: it stays in the list. -/
  | scanKeep (s : State n Obj Loc) (t : Fin n) (path : Path) (pos reclaimedSoFar : ℕ) (o : Obj)
      (hr : s.Runs t) (hpc : s.pc t = .scan path pos reclaimedSoFar)
      (hgo : ¬ s.scanStops t pos reclaimedSoFar) (ho : (s.retired t)[pos]? = some o)
      (hdanger : s.conflict t o) :
      Step cfg s (.thread t) (s.goto t (.scan path (pos + 1) (reclaimedSoFar + 1)))
  /-- The object is not in the copied slots: it is passed to the pool. -/
  | scanFree (s : State n Obj Loc) (t : Fin n) (path : Path) (pos reclaimedSoFar : ℕ) (o : Obj)
      (hr : s.Runs t) (hpc : s.pc t = .scan path pos reclaimedSoFar)
      (hgo : ¬ s.scanStops t pos reclaimedSoFar) (ho : (s.retired t)[pos]? = some o)
      (hsafe : ¬ s.conflict t o) :
      Step cfg s (.thread t)
        ((s.passToPool t pos o).goto t (.scan path pos (reclaimedSoFar + 1)))
  | scanEndHiWm (s : State n Obj Loc) (t : Fin n) (pos reclaimedSoFar : ℕ)
      (hr : s.Runs t) (hpc : s.pc t = .scan .hiWm pos reclaimedSoFar)
      (hstop : s.scanStops t pos reclaimedSoFar) :
      Step cfg s (.thread t) (s.finishRetire t)
  | scanEndLoWm (s : State n Obj Loc) (t : Fin n) (pos reclaimedSoFar : ℕ)
      (hr : s.Runs t) (hpc : s.pc t = .scan .loWm pos reclaimedSoFar)
      (hstop : s.scanStops t pos reclaimedSoFar) :
      Step cfg s (.thread t) ((s.resetLoWmMetaData t).finishRetire t)
  /-- A pinged thread enters its handler. -/
  | handlerEnter (s : State n Obj Loc) (t : Fin n)
      (hp : s.pinged t = true) (hh : s.handler t = none) :
      Step cfg s (.handler t)
        { s with
          pinged := update s.pinged t false
          handler := update s.handler t (some 0) }
  /-- `trcrashhandler` runs `publishReservations`. -/
  | handlerPublish (s : State n Obj Loc) (t : Fin n) (e : Fin slotsPerThread)
      (hh : s.handler t = some e.val) :
      Step cfg s (.handler t)
        { s.copySlot t e with handler := update s.handler t (some (e.val + 1)) }
  | handlerReturn (s : State n Obj Loc) (t : Fin n)
      (hh : s.handler t = some slotsPerThread) :
      Step cfg s (.handler t)
        { s.countPublish t with handler := update s.handler t none }

/-- The reclaimer with `n` threads as a transition system. -/
def system [DecidableEq Obj] [DecidableEq Loc] (cfg : Config) : Lts (State n Obj Loc) (Actor n) where
  init s := s = State.initial n Obj Loc
  step := Step cfg

end HazardPtrPop
end PopSetbench

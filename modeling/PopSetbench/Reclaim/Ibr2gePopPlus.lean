import Mathlib.Data.ENat.Basic
import PopSetbench.Library.Round
import PopSetbench.Library.Run
import PopSetbench.Reclaim.Object

/-!
# IBR-POP+

The reclaimer of `reclaimer_popplus2geibr.h`: interval-based reclamation with local reservations.
`startOp` sets both bounds of the thread's private interval to the current `epoch`, `read` moves the
upper one when the epoch has moved and loads the pointer again, `endOp` sets both to `UINT64_MAX`.
Others see the interval that the thread has stored last in `upper_reservs` and `lower_reservs`, in
this order, from the signal handler.

Objects are stamped with the epoch at their birth and at their retirement. Out of patience, a thread
publishes its own interval, pings the others, increments `publishing_epoch`, copies all intervals,
the lower bound of a thread before the upper one, and frees the objects whose lifetime meets none of
the copied intervals (the *high watermark*). A thread that holds a quarter as many objects saves
`publishing_epoch`, and looks from time to time whether it has changed. Then it copies all intervals
and frees in the same way (the *low watermark*).

`epoch` is 64 bits wide; here it is a natural number, and `UINT64_MAX` is a bound above all epochs.
The model links an object with any birth epoch of the past. The confirmation loop compares
`mypublishingTS` with `myscannedTS` and goes on in either case; its assertion, on a number of passed
threads, cannot fail. `retire_bag_size_when_entered_loWm` is written and never read.
-/

namespace PopSetbench
namespace Ibr2gePopPlus

open Function

/-- The two branches of `retire` that call `empty`. -/
inductive Path
  /-- Out of patience. -/
  | hiWm
  /-- Past the low watermark. -/
  | loWm
  deriving DecidableEq

/-- The writes of `publishReservations`. -/
inductive Publish
  /-- About to store the upper bound in `upper_reservs`. -/
  | upper
  /-- About to store the lower bound in `lower_reservs`. -/
  | lower
  /-- About to increment `mypublishingTS`. -/
  | count
  deriving DecidableEq

/-- Where a thread is in the code. -/
inductive Pc (Obj Loc : Type)
  /-- Between two calls. -/
  | idle
  /-- `updateAllocCounterAndEpoch`: about to increment `epoch`. -/
  | bumpEpoch
  /-- `startOp`: about to set the lower bound. -/
  | startLower (e : ℕ)
  /-- `startOp`: about to set the upper bound. -/
  | startUpper (e : ℕ)
  /-- `endOp`: about to set the upper bound. -/
  | endUpper
  /-- `read`: about to load `obj`. -/
  | readLoad (loc : Loc) (prevEpoch : ℕ∞)
  /-- `read`: about to load `epoch`. Whether the object was reachable when its pointer was loaded is
  bookkeeping. -/
  | readEpoch (loc : Loc) (prevEpoch : ℕ∞) (ptr : Ptr Obj) (reachable : Bool)
  /-- `read`: about to move the upper bound to the epoch it loaded. -/
  | readStore (loc : Loc) (currEpoch : ℕ)
  /-- `retire`: `mypublishingTS` is sampled below `i`. -/
  | sample (i : ℕ)
  /-- `requestAllThreadsToRestart`: the thread publishes its own interval. -/
  | publish (p : Publish)
  /-- `requestAllThreadsToRestart`: the threads below `i` are pinged. -/
  | ping (i : ℕ)
  /-- `requestAllThreadsToRestart`: about to increment `publishing_epoch`. -/
  | announce
  /-- `requestAllThreadsToRestart`: about to load `publishing_epoch`. -/
  | save
  /-- `retire`: the confirmation loop has passed the threads below `i`. -/
  | confirm (i : ℕ)
  /-- `retire`, entering the low watermark: about to load `publishing_epoch`. -/
  | saveLoWm
  /-- `retire`, low watermark: about to load `publishing_epoch`. -/
  | check
  /-- `empty`: the bounds of the threads below `i` are copied. -/
  | copyLower (path : Path) (i : ℕ)
  /-- `empty`: so is the lower bound of thread `i`. -/
  | copyUpper (path : Path) (i : ℕ)
  /-- `empty`: the iterator is at `pos`. -/
  | scan (path : Path) (pos : ℕ)
  deriving DecidableEq

/-- `IntervalInfo`, with what was going on when the object was retired. -/
@[ext]
structure IntervalInfo (n : ℕ) (Obj : Type) where
  obj : Obj
  birthEpoch : ℕ
  retireEpoch : ℕ
  /-- Bookkeeping: the number of operations that each thread had begun. -/
  begun : Fin n → ℕ
  /-- Bookkeeping: the threads inside an operation. -/
  inOp : Fin n → Bool
  /-- Bookkeeping: the number of times that each thread had published its interval. -/
  pubs : Fin n → ℕ
  /-- Bookkeeping: the signalling rounds that each thread had begun and those that it had ended. -/
  ann : Fin n → ℕ

/-- The state of the reclaimer with `n` threads and of the memory it protects. -/
@[ext]
structure State (n : ℕ) (Obj Loc : Type) where
  /-- The shared locations that `read` loads from. -/
  mem : Loc → Ptr Obj
  /-- The field `birth_epoch` of each object. -/
  birthEpoch : Obj → ℕ
  /-- `upper_reservs`. -/
  upperReservs : Fin n → ℕ∞
  /-- `lower_reservs`. -/
  lowerReservs : Fin n → ℕ∞
  /-- `epoch`. -/
  epoch : ℕ
  /-- `publishing_epoch`. -/
  publishingEpoch : ℕ
  /-- `alloc_counters`. -/
  allocCounters : Fin n → ℕ
  /-- `retired[tid]`, oldest first. -/
  retired : Fin n → List (IntervalInfo n Obj)
  /-- `threadData[tid].local_upper_reserved_epoch`. -/
  localUpper : Fin n → ℕ∞
  /-- `threadData[tid].local_lower_reserved_epoch`. -/
  localLower : Fin n → ℕ∞
  /-- `threadData[tid].saved_publishing_epoch`. -/
  savedPublishingEpoch : Fin n → ℕ
  /-- `threadData[tid].mypublishingTS`, an `unsigned int`. -/
  mypublishingTS : Fin n → BitVec 32
  /-- `threadData[tid].myscannedTS`. -/
  myscannedTS : Fin n → Fin n → BitVec 32
  /-- `threadData[tid].firstLoEntryFlag`. -/
  firstLoEntryFlag : Fin n → Bool
  /-- `threadData[tid].numRetiresSinceLoWatermark`. -/
  numRetiresSinceLoWatermark : Fin n → ℕ
  /-- `threadData[tid].LoPathReclaimAttemptFreq`. -/
  loPathReclaimAttemptFreq : Fin n → ℕ
  /-- `threadData[tid].retires_since_HiWm`. -/
  retiresSinceHiWm : Fin n → ℕ
  /-- `lower_epochs_arr` of the running `empty`. -/
  lowerEpochsArr : Fin n → Fin n → ℕ∞
  /-- `upper_epochs_arr` of the running `empty`. -/
  upperEpochsArr : Fin n → Fin n → ℕ∞
  /-- A ping is in flight. -/
  pinged : Fin n → Bool
  /-- The signal handler runs. -/
  handler : Fin n → Option Publish
  /-- Where each thread is. -/
  pc : Fin n → Pc Obj Loc
  /-- The thread is inside an operation: `startOp` has returned and `endOp` has not been called. -/
  inOp : Fin n → Bool
  /-- Bookkeeping: the life of each object. -/
  life : Obj → Life
  /-- Bookkeeping: the objects that `read` has obtained from a location where they were reachable,
  during the operation that has not ended. -/
  held : Fin n → Obj → Bool
  /-- Bookkeeping: the number of operations that the thread has begun. -/
  begun : Fin n → ℕ
  /-- Bookkeeping: the number of times that the thread has published its interval, `mypublishingTS`
  without its width. -/
  pubs : Fin n → ℕ
  /-- Bookkeeping: `pubs` when `mypublishingTS` was sampled. -/
  scannedPubs : Fin n → Fin n → ℕ
  /-- Bookkeeping: the number of signalling rounds (`requestAllThreadsToRestart`) that the thread has
  begun and of those that it has ended, odd inside a round. -/
  ann : Fin n → ℕ
  /-- Bookkeeping: `ann` of all threads when the thread last found `publishing_epoch` changed. -/
  checkedAnn : Fin n → Fin n → ℕ

/-- The parameters of the code. -/
structure Config where
  /-- `MAX_RETIREBAG_CAPACITY_POW2`, also `bagCapacityThreshold`. -/
  bagCapacity : ℕ
  /-- `epoch_freq`. -/
  epochFreq : ℕ

/-- The values that the source gives them. -/
def Config.standard : Config := ⟨32768, 100⟩

variable {n : ℕ} {Obj Loc : Type}

/-- `conflict`. -/
def conflict (lowerEpochs upperEpochs : Fin n → ℕ∞) (birthEpoch retireEpoch : ℕ) : Prop :=
  ∃ i, birthEpoch ≤ upperEpochs i ∧ lowerEpochs i ≤ retireEpoch

namespace State

/-- The state after the constructor and `initThread` of every thread. -/
def initial (cfg : Config) (n : ℕ) (Obj Loc : Type) : State n Obj Loc where
  mem _ := ⟨none, 0⟩
  birthEpoch _ := 0
  upperReservs _ := ⊤
  lowerReservs _ := ⊤
  epoch := 0
  publishingEpoch := 0
  allocCounters _ := 0
  retired _ := []
  localUpper _ := ⊤
  localLower _ := ⊤
  savedPublishingEpoch _ := 0
  mypublishingTS _ := 0
  myscannedTS _ _ := 0
  firstLoEntryFlag _ := true
  numRetiresSinceLoWatermark _ := 0
  loPathReclaimAttemptFreq _ := cfg.bagCapacity / 3
  retiresSinceHiWm _ := 0
  lowerEpochsArr _ _ := 0
  upperEpochsArr _ _ := 0
  pinged _ := false
  handler _ := none
  pc _ := .idle
  inOp _ := false
  life _ := .pooled
  held _ _ := false
  begun _ := 0
  pubs _ := 0
  scannedPubs _ _ := 0
  ann _ := 0
  checkedAnn _ _ := 0

variable (s : State n Obj Loc)

/-- The thread may take a step of its own: no ping waits for it and no handler runs. -/
def Runs (t : Fin n) : Prop := s.pinged t = false ∧ s.handler t = none

/-- `isOutOfPatience`. -/
def isOutOfPatience (cfg : Config) (t : Fin n) (myTrashSize : ℕ) : Bool :=
  cfg.bagCapacity ≤ myTrashSize && s.retiresSinceHiWm t % 16384 == 0

/-- `isPastLoWatermark`. -/
def isPastLoWatermark (cfg : Config) (t : Fin n) (myTrashSize : ℕ) : Bool :=
  cfg.bagCapacity / 4 < myTrashSize &&
    s.numRetiresSinceLoWatermark t % s.loPathReclaimAttemptFreq t == 0

/-- Thread `t` goes on at `p`. -/
def goto (t : Fin n) (p : Pc Obj Loc) : State n Obj Loc :=
  { s with pc := update s.pc t p }

/-- Some operation writes or CASes a shared location. -/
def write [DecidableEq Loc] (l : Loc) (p : Ptr Obj) : State n Obj Loc :=
  { s with mem := update s.mem l p }

/-- An object, born in epoch `b`, becomes reachable. -/
def link [DecidableEq Obj] (o : Obj) (b : ℕ) : State n Obj Loc :=
  { s with
    life := update s.life o .linked
    birthEpoch := update s.birthEpoch o b }

/-- It becomes unreachable. -/
def unlink [DecidableEq Obj] (o : Obj) : State n Obj Loc :=
  { s with life := update s.life o .unlinked }

/-- `alloc_counters[tid]=alloc_counters[tid]+1`. -/
def countAlloc (t : Fin n) : State n Obj Loc :=
  { s with allocCounters := update s.allocCounters t (s.allocCounters t + 1) }

/-- `epoch.fetch_add(1)`. -/
def bumpEpoch : State n Obj Loc := { s with epoch := s.epoch + 1 }

/-- Bookkeeping: an operation of thread `t` begins. -/
def beginOp (t : Fin n) : State n Obj Loc :=
  { s with
    inOp := update s.inOp t true
    begun := update s.begun t (s.begun t + 1) }

/-- Bookkeeping: the operation of thread `t` ends. -/
def finishOp (t : Fin n) : State n Obj Loc :=
  { s with
    inOp := update s.inOp t false
    held := update s.held t fun _ => false }

/-- Bookkeeping: `read` of thread `t` returns what it has loaded. -/
def hold [DecidableEq Obj] (t : Fin n) (ptr : Ptr Obj) (reachable : Bool) : State n Obj Loc :=
  { s with held := update s.held t fun o => s.held t o || (ptr.obj = some o && reachable) }

/-- The entry for an object that is retired now. -/
def entry (o : Obj) : IntervalInfo n Obj :=
  ⟨o, s.birthEpoch o, s.epoch, s.begun, s.inOp, s.pubs, s.ann⟩

/-- `myTrash->push_back(IntervalInfo(obj, birth_epoch, retire_epoch))`. -/
def pushBack [DecidableEq Obj] (t : Fin n) (o : Obj) : State n Obj Loc :=
  { s with
    retired := update s.retired t (s.retired t ++ [s.entry o])
    life := update s.life o .retired }

/-- `setLoWmMetaData`. -/
def setLoWmMetaData (t : Fin n) : State n Obj Loc :=
  { s with
    firstLoEntryFlag := update s.firstLoEntryFlag t false
    loPathReclaimAttemptFreq := update s.loPathReclaimAttemptFreq t 100 }

/-- `resetLoWmMetaData`. -/
def resetLoWmMetaData (t : Fin n) : State n Obj Loc :=
  { s with
    firstLoEntryFlag := update s.firstLoEntryFlag t true
    numRetiresSinceLoWatermark := update s.numRetiresSinceLoWatermark t 0 }

/-- The end of `retire`: the retires since the low watermark are counted. -/
def finishRetire (t : Fin n) : State n Obj Loc :=
  { s with
    numRetiresSinceLoWatermark :=
      if s.firstLoEntryFlag t then s.numRetiresSinceLoWatermark
      else update s.numRetiresSinceLoWatermark t (s.numRetiresSinceLoWatermark t + 1)
    pc := update s.pc t .idle }

/-- `empty` returns to `retire` at the high watermark: the next attempts are put off if it has
returned false. -/
def countHiWm (cfg : Config) (t : Fin n) : State n Obj Loc :=
  { s with
    retiresSinceHiWm := update s.retiresSinceHiWm t
      (if cfg.bagCapacity ≤ (s.retired t).length then s.retiresSinceHiWm t + 1 else 0) }

/-- `threadData[tid].local_lower_reserved_epoch = r`. -/
def setLower (t : Fin n) (r : ℕ∞) : State n Obj Loc :=
  { s with localLower := update s.localLower t r }

/-- `threadData[tid].local_upper_reserved_epoch = r`. -/
def setUpper (t : Fin n) (r : ℕ∞) : State n Obj Loc :=
  { s with localUpper := update s.localUpper t r }

/-- `upper_reservs[tid].ui.store(threadData[tid].local_upper_reserved_epoch)`. -/
def storeUpper (t : Fin n) : State n Obj Loc :=
  { s with upperReservs := update s.upperReservs t (s.localUpper t) }

/-- `lower_reservs[tid].ui.store(threadData[tid].local_lower_reserved_epoch)`. -/
def storeLower (t : Fin n) : State n Obj Loc :=
  { s with lowerReservs := update s.lowerReservs t (s.localLower t) }

/-- `threadData[tid].mypublishingTS.fetch_add(1)`. -/
def countPublish (t : Fin n) : State n Obj Loc :=
  { s with
    mypublishingTS := update s.mypublishingTS t (s.mypublishingTS t + 1)
    pubs := update s.pubs t (s.pubs t + 1) }

/-- `threadData[tid].myscannedTS[i] = threadData[i].mypublishingTS.load()`. -/
def sample (t i : Fin n) : State n Obj Loc :=
  { s with
    myscannedTS := update s.myscannedTS t (update (s.myscannedTS t) i (s.mypublishingTS i))
    scannedPubs := update s.scannedPubs t (update (s.scannedPubs t) i (s.pubs i)) }

/-- `pthread_kill(otherPthread, this->recoveryMgr->neutralizeSignal)`. -/
def kill (i : Fin n) : State n Obj Loc := { s with pinged := update s.pinged i true }

/-- `publishing_epoch.fetch_add(1)`. -/
def announce : State n Obj Loc := { s with publishingEpoch := s.publishingEpoch + 1 }

/-- `threadData[tid].saved_publishing_epoch = publishing_epoch.load()`. -/
def save (t : Fin n) : State n Obj Loc :=
  { s with savedPublishingEpoch := update s.savedPublishingEpoch t s.publishingEpoch }

/-- Bookkeeping: a signalling round of the thread begins or ends. -/
def countRound (t : Fin n) : State n Obj Loc :=
  { s with ann := update s.ann t (s.ann t + 1) }

/-- Bookkeeping: thread `t` has found `publishing_epoch` changed. -/
def noteCheck (t : Fin n) : State n Obj Loc :=
  { s with checkedAnn := update s.checkedAnn t s.ann }

/-- The handler of thread `t` goes on at `h`. -/
def setHandler (t : Fin n) (h : Option Publish) : State n Obj Loc :=
  { s with handler := update s.handler t h }

/-- The ping of thread `t` has arrived. -/
def receive (t : Fin n) : State n Obj Loc := { s with pinged := update s.pinged t false }

/-- One write of `publishReservations`. -/
def publish (t : Fin n) : Publish → State n Obj Loc
  | .upper => s.storeUpper t
  | .lower => s.storeLower t
  | .count => s.countPublish t

/-- `lower_epochs_arr[i] = lower_reservs[i].ui.load()`. -/
def copyLower (t i : Fin n) : State n Obj Loc :=
  { s with
    lowerEpochsArr := update s.lowerEpochsArr t
      (update (s.lowerEpochsArr t) i (s.lowerReservs i)) }

/-- `upper_epochs_arr[i] = upper_reservs[i].ui.load()`. -/
def copyUpper (t i : Fin n) : State n Obj Loc :=
  { s with
    upperEpochsArr := update s.upperEpochsArr t
      (update (s.upperEpochsArr t) i (s.upperReservs i)) }

/-- `this->pool->add(tid, res.obj); iterator = myTrash->erase(iterator)`. -/
def passToPool [DecidableEq Obj] (t : Fin n) (pos : ℕ) (o : Obj) : State n Obj Loc :=
  { s with
    retired := update s.retired t ((s.retired t).eraseIdx pos)
    life := update s.life o .pooled }

/-- The test of `empty`, `!conflict(lower_epochs_arr, upper_epochs_arr, res.birth_epoch,
res.retire_epoch)`. -/
def isFreeable (t : Fin n) (res : IntervalInfo n Obj) : Prop :=
  ¬ conflict (s.lowerEpochsArr t) (s.upperEpochsArr t) res.birthEpoch res.retireEpoch

/-- Thread `u` has been inside one operation since before the object was retired. -/
def RunningSince (u : Fin n) (res : IntervalInfo n Obj) : Prop :=
  s.inOp u = true ∧ res.inOp u = true ∧ res.begun u = s.begun u

end State

/-- What follows a write of `publishReservations`. -/
def Publish.next : Publish → Option Publish
  | .upper => some .lower
  | .lower => some .count
  | .count => none

/-- Where a thread goes on that publishes its own interval. -/
def Pc.afterPublish (p : Publish) : Pc Obj Loc :=
  match p.next with
  | some p' => .publish p'
  | none => .ping 0

/-- The atomic steps. -/
inductive Step [DecidableEq Obj] [DecidableEq Loc] (cfg : Config) :
    State n Obj Loc → Actor n → State n Obj Loc → Prop
  /-- Some operation writes or CASes a shared location. -/
  | write (s : State n Obj Loc) (l : Loc) (p : Ptr Obj) :
      Step cfg s .env (s.write l p)
  /-- An object, born in an epoch of the past, is linked. -/
  | link (s : State n Obj Loc) (o : Obj) (b : ℕ) (h : s.life o = .pooled) (hb : b ≤ s.epoch) :
      Step cfg s .env (s.link o b)
  /-- An object is unlinked. -/
  | unlink (s : State n Obj Loc) (o : Obj) (h : s.life o = .linked) :
      Step cfg s .env (s.unlink o)
  /-- `updateAllocCounterAndEpoch`, called by an allocation. -/
  | alloc (s : State n Obj Loc) (t : Fin n) (hr : s.Runs t) (hpc : s.pc t = .idle) :
      Step cfg s (.thread t) ((s.countAlloc t).goto t
        (if (s.allocCounters t + 1) % (cfg.epochFreq * n) = 0 then .bumpEpoch else .idle))
  | bumpEpoch (s : State n Obj Loc) (t : Fin n) (hr : s.Runs t) (hpc : s.pc t = .bumpEpoch) :
      Step cfg s (.thread t) (s.bumpEpoch.goto t .idle)
  /-- `startOp` loads `epoch`. -/
  | callStartOp (s : State n Obj Loc) (t : Fin n) (hr : s.Runs t) (hpc : s.pc t = .idle)
      (hin : s.inOp t = false) :
      Step cfg s (.thread t) (s.goto t (.startLower s.epoch))
  | startLower (s : State n Obj Loc) (t : Fin n) (e : ℕ) (hr : s.Runs t)
      (hpc : s.pc t = .startLower e) :
      Step cfg s (.thread t) ((s.setLower t e).goto t (.startUpper e))
  | startUpper (s : State n Obj Loc) (t : Fin n) (e : ℕ) (hr : s.Runs t)
      (hpc : s.pc t = .startUpper e) :
      Step cfg s (.thread t) (((s.setUpper t e).beginOp t).goto t .idle)
  | endOp (s : State n Obj Loc) (t : Fin n) (hr : s.Runs t) (hpc : s.pc t = .idle)
      (hin : s.inOp t = true) :
      Step cfg s (.thread t) (((s.setLower t ⊤).finishOp t).goto t .endUpper)
  | endUpper (s : State n Obj Loc) (t : Fin n) (hr : s.Runs t) (hpc : s.pc t = .endUpper) :
      Step cfg s (.thread t) ((s.setUpper t ⊤).goto t .idle)
  | callRead (s : State n Obj Loc) (t : Fin n) (l : Loc) (hr : s.Runs t) (hpc : s.pc t = .idle)
      (hin : s.inOp t = true) :
      Step cfg s (.thread t) (s.goto t (.readLoad l (s.localUpper t)))
  /-- `read` loads `obj`. -/
  | readLoad (s : State n Obj Loc) (t : Fin n) (l : Loc) (prev : ℕ∞) (hr : s.Runs t)
      (hpc : s.pc t = .readLoad l prev) :
      Step cfg s (.thread t) (s.goto t (.readEpoch l prev (s.mem l)
        ((s.mem l).obj.any fun o => s.life o = .linked)))
  /-- The epoch is the upper bound: `read` returns. -/
  | readReturn (s : State n Obj Loc) (t : Fin n) (l : Loc) (prev : ℕ∞) (ptr : Ptr Obj)
      (reachable : Bool) (hr : s.Runs t) (hpc : s.pc t = .readEpoch l prev ptr reachable)
      (hcurr : (s.epoch : ℕ∞) = prev) :
      Step cfg s (.thread t) ((s.hold t ptr reachable).goto t .idle)
  /-- The epoch is another one, to which the upper bound will be moved. -/
  | readMove (s : State n Obj Loc) (t : Fin n) (l : Loc) (prev : ℕ∞) (ptr : Ptr Obj)
      (reachable : Bool) (hr : s.Runs t) (hpc : s.pc t = .readEpoch l prev ptr reachable)
      (hcurr : (s.epoch : ℕ∞) ≠ prev) :
      Step cfg s (.thread t) (s.goto t (.readStore l s.epoch))
  | readStore (s : State n Obj Loc) (t : Fin n) (l : Loc) (curr : ℕ) (hr : s.Runs t)
      (hpc : s.pc t = .readStore l curr) :
      Step cfg s (.thread t) ((s.setUpper t curr).goto t (.readLoad l curr))
  /-- `retire(tid, obj)`, out of patience. -/
  | retireHiWm (s : State n Obj Loc) (t : Fin n) (o : Obj) (hr : s.Runs t) (hpc : s.pc t = .idle)
      (ho : s.life o = .unlinked)
      (hout : s.isOutOfPatience cfg t ((s.retired t).length + 1) = true) :
      Step cfg s (.thread t) (((s.pushBack t o).resetLoWmMetaData t).goto t (.sample 0))
  /-- `retire(tid, obj)`, first entry past the low watermark. -/
  | retireEnterLoWm (s : State n Obj Loc) (t : Fin n) (o : Obj)
      (hr : s.Runs t) (hpc : s.pc t = .idle) (ho : s.life o = .unlinked)
      (hout : s.isOutOfPatience cfg t ((s.retired t).length + 1) = false)
      (hpast : s.isPastLoWatermark cfg t ((s.retired t).length + 1) = true)
      (hfirst : s.firstLoEntryFlag t = true) :
      Step cfg s (.thread t) (((s.pushBack t o).setLoWmMetaData t).goto t .saveLoWm)
  /-- `retire(tid, obj)`, again past the low watermark. -/
  | retireLoWm (s : State n Obj Loc) (t : Fin n) (o : Obj) (hr : s.Runs t) (hpc : s.pc t = .idle)
      (ho : s.life o = .unlinked)
      (hout : s.isOutOfPatience cfg t ((s.retired t).length + 1) = false)
      (hpast : s.isPastLoWatermark cfg t ((s.retired t).length + 1) = true)
      (hfirst : s.firstLoEntryFlag t = false) :
      Step cfg s (.thread t) ((s.pushBack t o).goto t .check)
  /-- `retire(tid, obj)`, at neither watermark. -/
  | retire (s : State n Obj Loc) (t : Fin n) (o : Obj) (hr : s.Runs t) (hpc : s.pc t = .idle)
      (ho : s.life o = .unlinked)
      (hout : s.isOutOfPatience cfg t ((s.retired t).length + 1) = false)
      (hpast : s.isPastLoWatermark cfg t ((s.retired t).length + 1) = false) :
      Step cfg s (.thread t) ((s.pushBack t o).finishRetire t)
  | sample (s : State n Obj Loc) (t i : Fin n) (hr : s.Runs t) (hpc : s.pc t = .sample i.val) :
      Step cfg s (.thread t) ((s.sample t i).goto t (.sample (i.val + 1)))
  | sampleEnd (s : State n Obj Loc) (t : Fin n) (hr : s.Runs t) (hpc : s.pc t = .sample n) :
      Step cfg s (.thread t) ((s.countRound t).goto t (.publish .upper))
  | publish (s : State n Obj Loc) (t : Fin n) (p : Publish) (hr : s.Runs t)
      (hpc : s.pc t = .publish p) :
      Step cfg s (.thread t) ((s.publish t p).goto t (.afterPublish p))
  /-- `pthread_kill` of another thread. -/
  | ping (s : State n Obj Loc) (t i : Fin n) (hr : s.Runs t) (hpc : s.pc t = .ping i.val)
      (hi : t ≠ i) :
      Step cfg s (.thread t) ((s.kill i).goto t (.ping (i.val + 1)))
  | pingSelf (s : State n Obj Loc) (t : Fin n) (hr : s.Runs t) (hpc : s.pc t = .ping t.val) :
      Step cfg s (.thread t) (s.goto t (.ping (t.val + 1)))
  | pingEnd (s : State n Obj Loc) (t : Fin n) (hr : s.Runs t) (hpc : s.pc t = .ping n) :
      Step cfg s (.thread t) (s.goto t .announce)
  | announce (s : State n Obj Loc) (t : Fin n) (hr : s.Runs t) (hpc : s.pc t = .announce) :
      Step cfg s (.thread t) ((s.announce.countRound t).goto t .save)
  | save (s : State n Obj Loc) (t : Fin n) (hr : s.Runs t) (hpc : s.pc t = .save) :
      Step cfg s (.thread t) ((s.save t).goto t (.confirm 0))
  /-- The confirmation loop loads `mypublishingTS` of thread `i`, compares it with
  `myscannedTS` and goes on to the next thread whether it has moved or not. -/
  | confirm (s : State n Obj Loc) (t i : Fin n) (hr : s.Runs t) (hpc : s.pc t = .confirm i.val) :
      Step cfg s (.thread t) (s.goto t (.confirm (i.val + 1)))
  | confirmEnd (s : State n Obj Loc) (t : Fin n) (hr : s.Runs t) (hpc : s.pc t = .confirm n) :
      Step cfg s (.thread t) (s.goto t (.copyLower .hiWm 0))
  | saveLoWm (s : State n Obj Loc) (t : Fin n) (hr : s.Runs t) (hpc : s.pc t = .saveLoWm) :
      Step cfg s (.thread t) ((s.save t).goto t .check)
  /-- `publishing_epoch` has changed since the thread saved it. -/
  | checkHit (s : State n Obj Loc) (t : Fin n) (hr : s.Runs t) (hpc : s.pc t = .check)
      (hne : s.savedPublishingEpoch t ≠ s.publishingEpoch) :
      Step cfg s (.thread t) (((s.save t).noteCheck t).goto t (.copyLower .loWm 0))
  | checkMiss (s : State n Obj Loc) (t : Fin n) (hr : s.Runs t) (hpc : s.pc t = .check)
      (heq : s.savedPublishingEpoch t = s.publishingEpoch) :
      Step cfg s (.thread t) (s.finishRetire t)
  | copyLower (s : State n Obj Loc) (t i : Fin n) (path : Path) (hr : s.Runs t)
      (hpc : s.pc t = .copyLower path i.val) :
      Step cfg s (.thread t) ((s.copyLower t i).goto t (.copyUpper path i.val))
  | copyUpper (s : State n Obj Loc) (t i : Fin n) (path : Path) (hr : s.Runs t)
      (hpc : s.pc t = .copyUpper path i.val) :
      Step cfg s (.thread t) ((s.copyUpper t i).goto t (.copyLower path (i.val + 1)))
  | copied (s : State n Obj Loc) (t : Fin n) (path : Path) (hr : s.Runs t)
      (hpc : s.pc t = .copyLower path n) :
      Step cfg s (.thread t) (s.goto t (.scan path 0))
  /-- Some copied interval meets the lifetime of the object: it stays in the list. -/
  | scanKeep (s : State n Obj Loc) (t : Fin n) (path : Path) (pos : ℕ) (res : IntervalInfo n Obj)
      (hr : s.Runs t) (hpc : s.pc t = .scan path pos) (ho : (s.retired t)[pos]? = some res)
      (hkeep : ¬ s.isFreeable t res) :
      Step cfg s (.thread t) (s.goto t (.scan path (pos + 1)))
  /-- There is no conflict: the object is passed to the pool. -/
  | scanFree (s : State n Obj Loc) (t : Fin n) (path : Path) (pos : ℕ) (res : IntervalInfo n Obj)
      (hr : s.Runs t) (hpc : s.pc t = .scan path pos) (ho : (s.retired t)[pos]? = some res)
      (hfree : s.isFreeable t res) :
      Step cfg s (.thread t) (s.passToPool t pos res.obj)
  | emptyHiWm (s : State n Obj Loc) (t : Fin n) (pos : ℕ) (hr : s.Runs t)
      (hpc : s.pc t = .scan .hiWm pos) (ho : (s.retired t)[pos]? = none) :
      Step cfg s (.thread t) ((s.countHiWm cfg t).finishRetire t)
  | emptyLoWm (s : State n Obj Loc) (t : Fin n) (pos : ℕ) (hr : s.Runs t)
      (hpc : s.pc t = .scan .loWm pos) (ho : (s.retired t)[pos]? = none) :
      Step cfg s (.thread t) ((s.resetLoWmMetaData t).finishRetire t)
  /-- A pinged thread enters its handler. -/
  | handlerEnter (s : State n Obj Loc) (t : Fin n)
      (hp : s.pinged t = true) (hh : s.handler t = none) :
      Step cfg s (.handler t) ((s.receive t).setHandler t (some .upper))
  /-- The handler runs `publishReservations`. -/
  | handlerPublish (s : State n Obj Loc) (t : Fin n) (p : Publish) (hh : s.handler t = some p) :
      Step cfg s (.handler t) ((s.publish t p).setHandler t p.next)

/-- The reclaimer with `n` threads as a transition system. -/
def system [DecidableEq Obj] [DecidableEq Loc] (cfg : Config) : Lts (State n Obj Loc) (Actor n) where
  init s := s = State.initial cfg n Obj Loc
  step := Step cfg

/-- `empty`, run by thread `t`, has found the object disjoint from all intervals. -/
def PassesToPool (s : State n Obj Loc) (t : Fin n) (res : IntervalInfo n Obj) : Prop :=
  ∃ path pos, s.pc t = .scan path pos ∧ (s.retired t)[pos]? = some res ∧ s.isFreeable t res

/-- When thread `t` found `publishing_epoch` changed, some thread had begun and ended a signalling
round since the object was retired. -/
def Signalled (s : State n Obj Loc) (t : Fin n) (res : IntervalInfo n Obj) : Prop :=
  ∃ i, evenUp (res.ann i) + 2 ≤ s.checkedAnn t i

/-- The condition on a step under which frees are safe. -/
structure Meets (s : State n Obj Loc) (a : Actor n) : Prop where
  /-- Every comparison of the confirmation loop finds that the counter of the other thread has
  moved. -/
  confirms : ∀ t i : Fin n, a = .thread t → s.pc t = .confirm i.val → i ≠ t →
    s.myscannedTS t i ≠ s.mypublishingTS i
  /-- Whenever the low watermark finds that `publishing_epoch` has changed, no other thread has a
  ping to handle or is in its handler. -/
  handled : ∀ t, a = .thread t → s.pc t = .check → s.savedPublishingEpoch t ≠ s.publishingEpoch →
    ∀ u, u ≠ t → s.pinged u = false ∧ s.handler u = none
  /-- It frees no object that was retired after the last of the rounds that had ended then began. -/
  signalled : ∀ t pos res, a = .thread t → s.pc t = .scan .loWm pos →
    (s.retired t)[pos]? = some res → s.isFreeable t res → Signalled s t res

end Ibr2gePopPlus
end PopSetbench

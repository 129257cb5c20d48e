import Mathlib.Data.Fintype.Basic
import Mathlib.Data.ENat.Basic
import Mathlib.Order.Lattice.Nat
import PopSetbench.Library.Round
import PopSetbench.Library.Run
import PopSetbench.Reclaim.Object

/-!
# RCU-POP+

The reclaimer of `reclaimer_rcu_popplus.h`. `startOp` loads the current `epoch` into
`reserved_epoch`, which no other thread reads. The threads publish it in `reservations` when they
are pinged, from the signal handler.

`retire` stamps the object with the epoch. Out of patience, a thread publishes its own reservation,
pings the others, increments `publishing_epoch` and frees the objects with a stamp below all
reservations (the *high watermark*). A thread that holds half as many objects takes a value of
`publishing_epoch` that it has not seen before as the news that everybody has just published, and
frees in the same way without pinging anybody (the *low watermark*).

The `epoch` is 64 bits wide and advances once in `epoch_freq * num_process` allocations of a thread;
here it is a natural number. `UINT64_MAX`, the reservation of a thread outside operations, is `⊤`.
The confirmation loop compares `mypublishingTS` with `myscannedTS` and goes on in either case; its
assertion, on a number of passed threads, cannot fail.
-/

namespace PopSetbench
namespace RcuPopPlus

open Function

/-- The two branches of `retire` that call `empty`. -/
inductive Path
  /-- Out of patience. -/
  | hiWm
  /-- Past the low watermark. -/
  | loWm
  deriving DecidableEq

/-- The two writes of `publishReservations`. -/
inductive Publish
  /-- About to store `reserved_epoch` in `reservations`. -/
  | store
  /-- About to increment `mypublishingTS`. -/
  | count
  deriving DecidableEq

/-- Where a thread is in the code. -/
inductive Pc
  /-- Between two calls. -/
  | idle
  /-- `updateAllocCounterAndEpoch`: about to increment `epoch`. -/
  | bumpEpoch
  /-- `startOp`: about to store the loaded epoch in `reserved_epoch`. -/
  | startOp (e : ℕ)
  /-- `retire`: `mypublishingTS` is sampled below `i`. -/
  | sample (i : ℕ)
  /-- `requestAllThreadsToRestart`: the thread publishes its own reservation. -/
  | publish (p : Publish)
  /-- `requestAllThreadsToRestart`: the threads below `i` are pinged. -/
  | ping (i : ℕ)
  /-- `requestAllThreadsToRestart`: about to increment `publishing_epoch`. -/
  | announce
  /-- `requestAllThreadsToRestart`: about to load `publishing_epoch`. -/
  | save
  /-- `retire`: the confirmation loop has passed the threads below `i`. -/
  | confirm (i : ℕ)
  /-- `retire`, low watermark: about to load `publishing_epoch`. -/
  | check
  /-- `empty`: `m` is the least reservation below `i`. -/
  | load (path : Path) (i : ℕ) (m : WithTop ℕ)
  /-- `empty`: the iterator is at the head of the list. -/
  | scan (path : Path) (m : WithTop ℕ)
  deriving DecidableEq

/-- `RCUPOPInfo`, with what was going on when the object was retired. -/
structure RCUPOPInfo (n : ℕ) (Obj : Type) where
  obj : Obj
  /-- `retire_epoch`. -/
  retireEpoch : ℕ
  /-- Bookkeeping: the number of operations that each thread had begun. -/
  begun : Fin n → ℕ
  /-- Bookkeeping: the threads inside an operation. -/
  inOp : Fin n → Bool
  /-- Bookkeeping: the number of times that each thread had stored its reservation. -/
  pubs : Fin n → ℕ
  /-- Bookkeeping: the signalling rounds that each thread had begun and those that it had ended. -/
  ann : Fin n → ℕ

/-- The state of the reclaimer with `n` threads. -/
@[ext]
structure State (n : ℕ) (Obj : Type) where
  /-- `reservations`. -/
  reservations : Fin n → WithTop ℕ
  /-- `epoch`. -/
  epoch : ℕ
  /-- `publishing_epoch`. -/
  publishingEpoch : ℕ
  /-- `alloc_counters`. -/
  allocCounters : Fin n → ℕ
  /-- `retired[tid]`, oldest first. -/
  retired : Fin n → List (RCUPOPInfo n Obj)
  /-- `threadData[tid].reserved_epoch`. -/
  reservedEpoch : Fin n → WithTop ℕ
  /-- `threadData[tid].saved_publishing_epoch`. -/
  savedPublishingEpoch : Fin n → ℕ
  /-- `threadData[tid].mypublishingTS`, an `unsigned int`. -/
  mypublishingTS : Fin n → BitVec 32
  /-- `threadData[tid].myscannedTS`. -/
  myscannedTS : Fin n → Fin n → BitVec 32
  /-- `threadData[tid].firstLoEntryFlag`. -/
  firstLoEntryFlag : Fin n → Bool
  /-- `threadData[tid].numRetiresSinceLoWatermark`. -/
  numRetiresSinceLoWatermark : Fin n → ℕ
  /-- `threadData[tid].LoPathReclaimAttemptFreq`. -/
  loPathReclaimAttemptFreq : Fin n → ℕ
  /-- `threadData[tid].retires_since_HiWm`. -/
  retiresSinceHiWm : Fin n → ℕ
  /-- A ping is in flight. -/
  pinged : Fin n → Bool
  /-- The signal handler runs. -/
  handler : Fin n → Option Publish
  /-- Where each thread is. -/
  pc : Fin n → Pc
  /-- The thread is inside an operation: past `startOp` and before `endOp`. -/
  inOp : Fin n → Bool
  /-- Bookkeeping: the number of operations that the thread has begun. -/
  begun : Fin n → ℕ
  /-- Bookkeeping: the number of times that the thread has stored its reservation. -/
  pubs : Fin n → ℕ
  /-- Bookkeeping: the number of signalling rounds (`requestAllThreadsToRestart`) that the thread has
  begun and of those that it has ended, odd inside a round. -/
  ann : Fin n → ℕ
  /-- Bookkeeping: `ann` of all threads when the thread last found `publishing_epoch` changed. -/
  checkedAnn : Fin n → Fin n → ℕ
  /-- Bookkeeping: `reservations[i]` as `empty` of the thread has last loaded it. -/
  loadedRes : Fin n → Fin n → WithTop ℕ
  /-- Bookkeeping: `inOp` of thread `i` at that load. -/
  loadedInOp : Fin n → Fin n → Bool
  /-- Bookkeeping: `pubs` of thread `i` at that load. -/
  loadedPubs : Fin n → Fin n → ℕ

/-- The parameters of the code. -/
structure Config where
  /-- `MAX_RETIREBAG_CAPACITY_POW2`, also `bagCapacityThreshold`. -/
  bagCapacity : ℕ
  /-- `epoch_freq`. -/
  epochFreq : ℕ

/-- The values that the source gives them. -/
def Config.standard : Config := ⟨32768, 50⟩

/-- `setLoWmMetaData`: the attempt frequency chosen for `rand() % 11`, truncated to an integer. -/
def Config.attemptFreq (cfg : Config) (rand : Fin 11) : ℕ :=
  if rand.val = 0 then cfg.bagCapacity / 10 else rand.val * 5 * cfg.bagCapacity / 100

variable {n : ℕ} {Obj : Type}

namespace State

/-- The state after the constructor and `initThread` of every thread. -/
def initial (cfg : Config) (n : ℕ) (Obj : Type) : State n Obj where
  reservations _ := ⊤
  epoch := 0
  publishingEpoch := 0
  allocCounters _ := 0
  retired _ := []
  reservedEpoch _ := ⊤
  savedPublishingEpoch _ := 0
  mypublishingTS _ := 0
  myscannedTS _ _ := 0
  firstLoEntryFlag _ := true
  numRetiresSinceLoWatermark _ := 0
  loPathReclaimAttemptFreq _ := cfg.bagCapacity / 3
  retiresSinceHiWm _ := 0
  pinged _ := false
  handler _ := none
  pc _ := .idle
  inOp _ := false
  begun _ := 0
  pubs _ := 0
  ann _ := 0
  checkedAnn _ _ := 0
  loadedRes _ _ := ⊤
  loadedInOp _ _ := false
  loadedPubs _ _ := 0

variable (s : State n Obj)

/-- The thread may take a step of its own: no ping waits for it and no handler runs. -/
def Runs (t : Fin n) : Prop := s.pinged t = false ∧ s.handler t = none

/-- `isOutOfPatience`. -/
def isOutOfPatience (cfg : Config) (t : Fin n) (myTrashSize : ℕ) : Bool :=
  cfg.bagCapacity ≤ myTrashSize && s.retiresSinceHiWm t % 8192 == 0

/-- `isPastLoWatermark`. -/
def isPastLoWatermark (cfg : Config) (t : Fin n) (myTrashSize : ℕ) : Bool :=
  cfg.bagCapacity / 2 ≤ myTrashSize &&
    s.numRetiresSinceLoWatermark t % s.loPathReclaimAttemptFreq t == 0

/-- Thread `t` goes on at `p`. -/
def goto (t : Fin n) (p : Pc) : State n Obj :=
  { s with pc := update s.pc t p }

/-- The entry for an object that is retired now. -/
def entry (o : Obj) : RCUPOPInfo n Obj := ⟨o, s.epoch, s.begun, s.inOp, s.pubs, s.ann⟩

/-- `myTrash->push_back(RCUPOPInfo(obj, retire_epoch))`. -/
def pushBack (t : Fin n) (o : Obj) : State n Obj :=
  { s with retired := update s.retired t (s.retired t ++ [s.entry o]) }

/-- `setLoWmMetaData`. -/
def setLoWmMetaData (cfg : Config) (t : Fin n) (rand : Fin 11) : State n Obj :=
  { s with
    firstLoEntryFlag := update s.firstLoEntryFlag t false
    loPathReclaimAttemptFreq := update s.loPathReclaimAttemptFreq t (cfg.attemptFreq rand) }

/-- `resetLoWmMetaData`. -/
def resetLoWmMetaData (t : Fin n) : State n Obj :=
  { s with
    firstLoEntryFlag := update s.firstLoEntryFlag t true
    numRetiresSinceLoWatermark := update s.numRetiresSinceLoWatermark t 0 }

/-- The end of `retire`: the retires since the low watermark are counted. -/
def finishRetire (t : Fin n) : State n Obj :=
  { s with
    numRetiresSinceLoWatermark :=
      if s.firstLoEntryFlag t then s.numRetiresSinceLoWatermark
      else update s.numRetiresSinceLoWatermark t (s.numRetiresSinceLoWatermark t + 1)
    pc := update s.pc t .idle }

/-- `empty` returns to `retire` at the high watermark: the next attempts are put off if it has
returned false. -/
def countHiWm (cfg : Config) (t : Fin n) : State n Obj :=
  { s with
    retiresSinceHiWm := update s.retiresSinceHiWm t
      (if cfg.bagCapacity ≤ (s.retired t).length then s.retiresSinceHiWm t + 1 else 0) }

/-- `reservations[tid].ui.store(threadData[tid].reserved_epoch)`. -/
def storeReservation (t : Fin n) : State n Obj :=
  { s with
    reservations := update s.reservations t (s.reservedEpoch t)
    pubs := update s.pubs t (s.pubs t + 1) }

/-- `threadData[tid].mypublishingTS.fetch_add(1)`. -/
def countPublish (t : Fin n) : State n Obj :=
  { s with mypublishingTS := update s.mypublishingTS t (s.mypublishingTS t + 1) }

/-- Bookkeeping: a signalling round of the thread begins or ends. -/
def countRound (t : Fin n) : State n Obj :=
  { s with ann := update s.ann t (s.ann t + 1) }

/-- Bookkeeping: `empty` of thread `t` loads `reservations[i]`. -/
def noteLoad (t i : Fin n) : State n Obj :=
  { s with
    loadedRes := update s.loadedRes t (update (s.loadedRes t) i (s.reservations i))
    loadedInOp := update s.loadedInOp t (update (s.loadedInOp t) i (s.inOp i))
    loadedPubs := update s.loadedPubs t (update (s.loadedPubs t) i (s.pubs i)) }

/-- Thread `u` has been inside one operation since before the object was retired. -/
def RunningSince (u : Fin n) (r : RCUPOPInfo n Obj) : Prop :=
  s.inOp u = true ∧ r.inOp u = true ∧ r.begun u = s.begun u

end State

/-- The atomic steps. -/
inductive Step (cfg : Config) : State n Obj → Actor n → State n Obj → Prop
  /-- `updateAllocCounterAndEpoch`, called by an allocation. -/
  | alloc (s : State n Obj) (t : Fin n) (hr : s.Runs t) (hpc : s.pc t = .idle) :
      Step cfg s (.thread t)
        { s.goto t (if (s.allocCounters t + 1) % (cfg.epochFreq * n) = 0 then .bumpEpoch
            else .idle) with
          allocCounters := update s.allocCounters t (s.allocCounters t + 1) }
  | bumpEpoch (s : State n Obj) (t : Fin n) (hr : s.Runs t) (hpc : s.pc t = .bumpEpoch) :
      Step cfg s (.thread t) { s.goto t .idle with epoch := s.epoch + 1 }
  | callStartOp (s : State n Obj) (t : Fin n) (hr : s.Runs t) (hpc : s.pc t = .idle)
      (hin : s.inOp t = false) :
      Step cfg s (.thread t) (s.goto t (.startOp s.epoch))
  | startOp (s : State n Obj) (t : Fin n) (e : ℕ) (hr : s.Runs t) (hpc : s.pc t = .startOp e) :
      Step cfg s (.thread t)
        { s.goto t .idle with
          reservedEpoch := update s.reservedEpoch t e
          inOp := update s.inOp t true
          begun := update s.begun t (s.begun t + 1) }
  | endOp (s : State n Obj) (t : Fin n) (hr : s.Runs t) (hpc : s.pc t = .idle)
      (hin : s.inOp t = true) :
      Step cfg s (.thread t)
        { s with
          reservedEpoch := update s.reservedEpoch t ⊤
          inOp := update s.inOp t false }
  /-- `retire(tid, obj)`, out of patience. -/
  | retireHiWm (s : State n Obj) (t : Fin n) (o : Obj) (hr : s.Runs t) (hpc : s.pc t = .idle)
      (hout : s.isOutOfPatience cfg t ((s.retired t).length + 1) = true) :
      Step cfg s (.thread t) ((s.pushBack t o).goto t (.sample 0))
  /-- `retire(tid, obj)`, first entry past the low watermark. -/
  | retireEnterLoWm (s : State n Obj) (t : Fin n) (o : Obj) (rand : Fin 11)
      (hr : s.Runs t) (hpc : s.pc t = .idle)
      (hout : s.isOutOfPatience cfg t ((s.retired t).length + 1) = false)
      (hpast : s.isPastLoWatermark cfg t ((s.retired t).length + 1) = true)
      (hfirst : s.firstLoEntryFlag t = true) :
      Step cfg s (.thread t) (((s.pushBack t o).setLoWmMetaData cfg t rand).goto t .check)
  /-- `retire(tid, obj)`, again past the low watermark. -/
  | retireLoWm (s : State n Obj) (t : Fin n) (o : Obj) (hr : s.Runs t) (hpc : s.pc t = .idle)
      (hout : s.isOutOfPatience cfg t ((s.retired t).length + 1) = false)
      (hpast : s.isPastLoWatermark cfg t ((s.retired t).length + 1) = true)
      (hfirst : s.firstLoEntryFlag t = false) :
      Step cfg s (.thread t) ((s.pushBack t o).goto t .check)
  /-- `retire(tid, obj)`, at neither watermark. -/
  | retire (s : State n Obj) (t : Fin n) (o : Obj) (hr : s.Runs t) (hpc : s.pc t = .idle)
      (hout : s.isOutOfPatience cfg t ((s.retired t).length + 1) = false)
      (hpast : s.isPastLoWatermark cfg t ((s.retired t).length + 1) = false) :
      Step cfg s (.thread t) ((s.pushBack t o).finishRetire t)
  | sample (s : State n Obj) (t i : Fin n) (hr : s.Runs t) (hpc : s.pc t = .sample i.val) :
      Step cfg s (.thread t)
        { s.goto t (.sample (i.val + 1)) with
          myscannedTS := update s.myscannedTS t (update (s.myscannedTS t) i (s.mypublishingTS i)) }
  | sampleEnd (s : State n Obj) (t : Fin n) (hr : s.Runs t) (hpc : s.pc t = .sample n) :
      Step cfg s (.thread t) (s.countRound t |>.goto t (.publish .store))
  | publishStore (s : State n Obj) (t : Fin n) (hr : s.Runs t) (hpc : s.pc t = .publish .store) :
      Step cfg s (.thread t) (s.storeReservation t |>.goto t (.publish .count))
  | publishCount (s : State n Obj) (t : Fin n) (hr : s.Runs t) (hpc : s.pc t = .publish .count) :
      Step cfg s (.thread t) (s.countPublish t |>.goto t (.ping 0))
  /-- `pthread_kill` of another thread. -/
  | ping (s : State n Obj) (t i : Fin n) (hr : s.Runs t) (hpc : s.pc t = .ping i.val)
      (hi : t ≠ i) :
      Step cfg s (.thread t)
        { s.goto t (.ping (i.val + 1)) with pinged := update s.pinged i true }
  | pingSelf (s : State n Obj) (t : Fin n) (hr : s.Runs t) (hpc : s.pc t = .ping t.val) :
      Step cfg s (.thread t) (s.goto t (.ping (t.val + 1)))
  | pingEnd (s : State n Obj) (t : Fin n) (hr : s.Runs t) (hpc : s.pc t = .ping n) :
      Step cfg s (.thread t) (s.goto t .announce)
  | announce (s : State n Obj) (t : Fin n) (hr : s.Runs t) (hpc : s.pc t = .announce) :
      Step cfg s (.thread t)
        { s.countRound t |>.goto t .save with publishingEpoch := s.publishingEpoch + 1 }
  | save (s : State n Obj) (t : Fin n) (hr : s.Runs t) (hpc : s.pc t = .save) :
      Step cfg s (.thread t)
        { s.goto t (.confirm 0) with
          savedPublishingEpoch := update s.savedPublishingEpoch t s.publishingEpoch }
  /-- The confirmation loop loads `mypublishingTS` of thread `i`, compares it with
  `myscannedTS` and goes on to the next thread whether it has moved or not. -/
  | confirm (s : State n Obj) (t i : Fin n) (hr : s.Runs t) (hpc : s.pc t = .confirm i.val) :
      Step cfg s (.thread t) (s.goto t (.confirm (i.val + 1)))
  | confirmEnd (s : State n Obj) (t : Fin n) (hr : s.Runs t) (hpc : s.pc t = .confirm n) :
      Step cfg s (.thread t) (s.goto t (.load .hiWm 0 ⊤))
  /-- `publishing_epoch` has changed since the thread saved it. -/
  | checkHit (s : State n Obj) (t : Fin n) (hr : s.Runs t) (hpc : s.pc t = .check)
      (hne : s.savedPublishingEpoch t ≠ s.publishingEpoch) :
      Step cfg s (.thread t)
        { s.goto t (.load .loWm 0 ⊤) with
          savedPublishingEpoch := update s.savedPublishingEpoch t s.publishingEpoch
          checkedAnn := update s.checkedAnn t s.ann }
  | checkMiss (s : State n Obj) (t : Fin n) (hr : s.Runs t) (hpc : s.pc t = .check)
      (heq : s.savedPublishingEpoch t = s.publishingEpoch) :
      Step cfg s (.thread t) (s.finishRetire t)
  | load (s : State n Obj) (t i : Fin n) (path : Path) (m : WithTop ℕ)
      (hr : s.Runs t) (hpc : s.pc t = .load path i.val m) :
      Step cfg s (.thread t)
        ((s.noteLoad t i).goto t (.load path (i.val + 1) (min m (s.reservations i))))
  | loadEnd (s : State n Obj) (t : Fin n) (path : Path) (m : WithTop ℕ)
      (hr : s.Runs t) (hpc : s.pc t = .load path n m) :
      Step cfg s (.thread t) (s.goto t (.scan path m))
  /-- The stamp of the oldest object is below every reservation: it is passed to the pool. -/
  | free (s : State n Obj) (t : Fin n) (path : Path) (m : WithTop ℕ)
      (r : RCUPOPInfo n Obj) (rest : List (RCUPOPInfo n Obj))
      (hr : s.Runs t) (hpc : s.pc t = .scan path m) (hlist : s.retired t = r :: rest)
      (hlt : (r.retireEpoch : WithTop ℕ) < m) :
      Step cfg s (.thread t) { s with retired := update s.retired t rest }
  /-- The list is exhausted, or the first object that stays ends the loop. -/
  | emptyHiWm (s : State n Obj) (t : Fin n) (m : WithTop ℕ)
      (hr : s.Runs t) (hpc : s.pc t = .scan .hiWm m)
      (hstop : ∀ r ∈ (s.retired t).head?, ¬ (r.retireEpoch : WithTop ℕ) < m) :
      Step cfg s (.thread t) (s.countHiWm cfg t |>.resetLoWmMetaData t |>.finishRetire t)
  | emptyLoWm (s : State n Obj) (t : Fin n) (m : WithTop ℕ)
      (hr : s.Runs t) (hpc : s.pc t = .scan .loWm m)
      (hstop : ∀ r ∈ (s.retired t).head?, ¬ (r.retireEpoch : WithTop ℕ) < m) :
      Step cfg s (.thread t) (s.resetLoWmMetaData t |>.finishRetire t)
  /-- A pinged thread enters its handler. -/
  | handlerEnter (s : State n Obj) (t : Fin n)
      (hp : s.pinged t = true) (hh : s.handler t = none) :
      Step cfg s (.handler t)
        { s with
          pinged := update s.pinged t false
          handler := update s.handler t (some .store) }
  /-- The handler runs `publishReservations`. -/
  | handlerStore (s : State n Obj) (t : Fin n) (hh : s.handler t = some .store) :
      Step cfg s (.handler t)
        { s.storeReservation t with handler := update s.handler t (some .count) }
  | handlerCount (s : State n Obj) (t : Fin n) (hh : s.handler t = some .count) :
      Step cfg s (.handler t)
        { s.countPublish t with handler := update s.handler t none }

/-- The reclaimer with `n` threads as a transition system. -/
def system (cfg : Config) : Lts (State n Obj) (Actor n) where
  init s := s = State.initial cfg n Obj
  step := Step cfg

/-- Thread `t` is about to free the object at the low watermark. -/
def FreesAtLoWm (s : State n Obj) (t : Fin n) (r : RCUPOPInfo n Obj) : Prop :=
  ∃ m, s.pc t = .scan .loWm m ∧ (s.retired t).head? = some r ∧ (r.retireEpoch : WithTop ℕ) < m

/-- What frees at the low watermark rely on. -/
structure LoWmSafe (s : State n Obj) (t : Fin n) (r : RCUPOPInfo n Obj) : Prop where
  /-- The object's stamp is below the reservation that `empty` has loaded from any thread. -/
  below : ∀ u, (r.retireEpoch : WithTop ℕ) < s.loadedRes t u
  /-- Every other thread that was inside an operation at that load had published its reservation
  after the object was retired. -/
  published : ∀ u ≠ t, s.loadedInOp t u = true → r.pubs u < s.loadedPubs t u
  /-- No thread is still in an operation that it had begun before the object was retired. -/
  ended : ∀ u, ¬ s.RunningSince u r

/-- When thread `t` found `publishing_epoch` changed, some thread had begun and ended a signalling
round since the object was retired. -/
def Signalled (s : State n Obj) (t : Fin n) (r : RCUPOPInfo n Obj) : Prop :=
  ∃ i, evenUp (r.ann i) + 2 ≤ s.checkedAnn t i

/-- The condition on a step under which frees at the low watermark are safe. -/
structure Meets (s : State n Obj) (a : Actor n) : Prop where
  /-- Whenever the low watermark finds that `publishing_epoch` has changed, no other thread has a
  ping to handle or is in its handler. -/
  handled : ∀ t, a = .thread t → s.pc t = .check → s.savedPublishingEpoch t ≠ s.publishingEpoch →
    ∀ u, u ≠ t → s.pinged u = false ∧ s.handler u = none
  /-- It frees no object that was retired after the last of the rounds that had ended then began. -/
  signalled : ∀ t r, a = .thread t → FreesAtLoWm s t r → Signalled s t r

end RcuPopPlus
end PopSetbench

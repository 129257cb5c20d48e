import Mathlib.Data.Finset.Insert
import PopSetbench.Library.Run
import PopSetbench.Library.Neutralize
import PopSetbench.Reclaim.Object

/-!
# NBR and NBR+: neutralization by signals

The reclaimers of `reclaimer_nbr.h` and `reclaimer_nbrplus.h`, with the signal handler of
`recovery_manager.h`. A thread reads without reservations while its `restartable` is 1. It saves
the records it goes on to use with `saveForWritePhase` and enters the write phase with
`upgradeToWritePhase`, which resets `restartable`. A signal throws a thread with `restartable` 1
back to its checkpoint and has no effect otherwise.

`retire` frees from `retiredBag` when that has grown beyond `bagCapacityThreshold`: it signals
everybody else, collects all saved records, and frees the others. NBR+ has a second way. A thread
whose bag is half full remembers its head and saves `announcedTS` of every thread, a counter that
is incremented before and after a thread signals. When a counter has grown by two, the records
below the remembered head are treated as after a signal of its own.

Every access to memory that another thread reads or writes is a step of its own. A signalled thread
handles its signal before it takes another step. The data structure is what the comments in the
source ask for: a thread saves records that it has discovered in its read phase, and calls
`retire` outside read phases. `announcedTS` is 64 bits wide and, as the source assumes, does not
overflow. `DEAMORTIZE_FREE_CALLS` is off.
-/

namespace PopSetbench
namespace Nbr

open Function

/-- The two reclaimers. -/
inductive Variant
  /-- `reclaimer_nbr`. -/
  | nbr
  /-- `reclaimer_nbrplus`. -/
  | nbrPlus
  deriving DecidableEq

/-- The two calls that free records. -/
inductive Path
  /-- `reclaimFreeable` of NBR, `HiWmreclaimFreeable` of NBR+. -/
  | hiWm
  /-- `LoWmreclaimFreeable`. -/
  | loWm
  deriving DecidableEq

/-- Where a thread is in the code. -/
inductive Pc (Obj : Type)
  /-- Between two calls; after a restart, at the checkpoint. -/
  | idle
  /-- `startOp`: `proposedHzptrs` is cleared, about to set `restartable`. -/
  | startOp
  /-- `saveForWritePhase`: the record is stored at index `sz`, about to store the size. -/
  | addSaved (o : Obj) (sz : ℕ)
  /-- `setLoWmMetaData`: `announcedTS` is saved below `i`. -/
  | saveTS (i : ℕ)
  /-- `retire`, low watermark: no thread below `i` has finished a round. -/
  | check (i : ℕ)
  /-- About to increment `announcedTS`, signalling starts. -/
  | announceStart
  /-- `requestAllThreadsToRestart`: threads below `i` are signalled. -/
  | signal (i : ℕ)
  /-- About to increment `announcedTS`, signalling is done. -/
  | announceDone
  /-- `collectAllSavedRecords`: the records of the threads below `i` are collected. -/
  | collect (path : Path) (i : ℕ)
  /-- `collectAllSavedRecords`: of the `sz` records of thread `i`, those below `ix` are
  collected. -/
  | collectGet (path : Path) (i sz ix : ℕ)
  /-- `LoWmreclaimFreeable`: the records above the remembered head are being spared. -/
  | skipNewer
  /-- `sendFreeableRecordsToPool`, first loop. -/
  | send (path : Path)
  /-- `sendFreeableRecordsToPool`, second loop. -/
  | unspare (path : Path)
  /-- The end of `retire`: the record is about to be added to the bag. -/
  | add
  deriving DecidableEq

/-- `BLOCK_SIZE`: records in a block of a `blockbag`. -/
def blockSize : ℕ := 512 / 8 - 3 * 8

/-- `blockbag::begin`: block and index of the newest record of a bag, the blocks counted from the
tail. The bag fills its blocks one after the other. -/
def beginOf {Obj : Type} (bag : List Obj) : Option (ℕ × ℕ) :=
  if bag = [] then none else some ((bag.length - 1) / blockSize, (bag.length - 1) % blockSize)

/-- The loop condition of `LoWmreclaimFreeable`: the newest record is in another block than the
remembered one, or at a greater index. -/
def isNewer : Option (ℕ × ℕ) → Option (ℕ × ℕ) → Bool
  | none, none => false
  | some (curr, index), some (curr', index') => curr ≠ curr' || index' < index
  | _, _ => true

/-- `setLoWmTryReclaimFrequency` for `rand() % 11`, a percentage of the bag capacity truncated to
an integer. -/
def tryReclaimFrequency (cap : ℕ) (rand : Fin 11) : ℕ :=
  if rand.val = 0 then cap / 100 else rand.val * 5 * cap / 100

/-- `AtomicArrayList`. -/
structure AtomicArrayList (Obj : Type) where
  /-- `data`. -/
  data : ℕ → Option Obj
  /-- `__size`. -/
  size : ℕ

/-- The list contains a record. -/
def AtomicArrayList.Has {Obj : Type} (l : AtomicArrayList Obj) (o : Obj) : Prop :=
  ∃ ix, ix < l.size ∧ l.data ix = some o

/-- The part of `ThreadData` that only its thread uses. -/
structure ThreadData (n : ℕ) (Obj : Type) where
  /-- `retiredBag`, newest first. -/
  retiredBag : List Obj
  /-- `spareMeBag`, newest first. -/
  spareMeBag : List Obj
  /-- `scannedHzptrs`. -/
  scannedHzptrs : Finset Obj
  /-- The argument of the running `retire`. -/
  record : Option Obj
  /-- `savedTS`. -/
  savedTS : Fin n → ℕ
  /-- `savedRetireBagBlockInfo`. -/
  savedRetireBagBlockInfo : Option (ℕ × ℕ)
  /-- `firstLoEntryFlag`. -/
  firstLoEntryFlag : Bool
  /-- `numRetiresSinceLoWatermark`. -/
  numRetiresSinceLoWatermark : ℕ
  /-- `LoPathReclaimAttemptFreq`. -/
  loPathReclaimAttemptFreq : ℕ

/-- The state of the reclaimer with `n` threads and of the records it manages. -/
structure State (n : ℕ) (Obj : Type) where
  /-- `threadData[tid].proposedHzptrs`. -/
  proposedHzptrs : Fin n → AtomicArrayList Obj
  /-- `threadData[tid].announcedTS`. -/
  announcedTS : Fin n → ℕ
  /-- The rest of `threadData[tid]`. -/
  threadData : Fin n → ThreadData n Obj
  /-- `restartable` of the thread is 1. -/
  restartable : Fin n → Bool
  /-- A signal is in flight. -/
  pending : Fin n → Bool
  /-- Where each thread is. -/
  pc : Fin n → Pc Obj
  /-- Bookkeeping: the life of each record. -/
  life : Obj → Life
  /-- Bookkeeping: the thread is past `upgradeToWritePhase`. -/
  writing : Fin n → Bool
  /-- Bookkeeping: the record was reachable at some moment of the read phase. -/
  met : Fin n → Obj → Bool
  /-- Bookkeeping: `retiredBag` when the low watermark was entered. -/
  bagAtEntry : Fin n → List Obj
  /-- Bookkeeping: the second thread began to signal after the first saved its `announcedTS`. -/
  begunSince : Fin n → Fin n → Bool
  /-- Bookkeeping: such a round of the second thread has ended. -/
  endedSince : Fin n → Fin n → Bool

/-- The parameters. -/
structure Config (n : ℕ) where
  /-- NBR or NBR+. -/
  variant : Variant
  /-- `MAX_RETIREBAG_CAPACITY_POW2`. -/
  maxRetirebagCapacityPow2 : ℕ
  /-- `MAX_PER_THREAD_HAZARDPTR`. -/
  maxPerThreadHazardptr : ℕ
  /-- `bagCapacityThreshold`, which NBR chooses at random. -/
  bagCapacityThreshold : Fin n → ℕ

/-- NBR in which every thread has drawn the whole capacity as its threshold. -/
def Config.nbr (n : ℕ) : Config n := ⟨.nbr, 32768, 4, fun _ => 32768⟩

/-- NBR+ built without `LONG_RUNNING_EXP`. -/
def Config.nbrPlus (n : ℕ) : Config n := ⟨.nbrPlus, 24576, 3, fun _ => 24576⟩

variable {n : ℕ} {Obj : Type}

/-- Where `retire` goes on when it is out of patience. -/
def Variant.request : Variant → Pc Obj
  | .nbr => .signal 0
  | .nbrPlus => .announceStart

namespace ThreadData

variable (d : ThreadData n Obj)

/-- `threadData[tid]` after `initThread`. -/
def initial (n : ℕ) (Obj : Type) (cap : ℕ) : ThreadData n Obj where
  retiredBag := []
  spareMeBag := []
  scannedHzptrs := ∅
  record := none
  savedTS _ := 0
  savedRetireBagBlockInfo := none
  firstLoEntryFlag := true
  numRetiresSinceLoWatermark := 0
  loPathReclaimAttemptFreq := cap / 2

/-- The end of `retire`: the retires since the low watermark are counted and the record is
added. -/
def finishRetire (o : Obj) : ThreadData n Obj :=
  { d with
    numRetiresSinceLoWatermark :=
      if d.firstLoEntryFlag then d.numRetiresSinceLoWatermark
      else d.numRetiresSinceLoWatermark + 1
    retiredBag := o :: d.retiredBag
    record := none }

/-- `setLoWmMetaData` without the loop over the threads. -/
def setLoWmMetaData (freq : ℕ) : ThreadData n Obj :=
  { d with
    firstLoEntryFlag := false
    savedRetireBagBlockInfo := beginOf d.retiredBag
    loPathReclaimAttemptFreq := freq }

/-- `resetLoWmMetaData`. -/
def resetLoWmMetaData : ThreadData n Obj :=
  { d with
    firstLoEntryFlag := true
    numRetiresSinceLoWatermark := 0
    savedTS := fun _ => 0
    savedRetireBagBlockInfo := none }

/-- What NBR and NBR+ do after `sendFreeableRecordsToPool`. -/
def afterReclaim (v : Variant) : ThreadData n Obj :=
  match v with
  | .nbr => d
  | .nbrPlus => d.resetLoWmMetaData

/-- `collectAllSavedRecords`: a loaded record is inserted unless it is `NULL`. -/
def insertScanned [DecidableEq Obj] (hp : Option Obj) : ThreadData n Obj :=
  { d with
    scannedHzptrs := hp.elim d.scannedHzptrs fun hp => insert hp d.scannedHzptrs }

/-- The newest record is moved from `retiredBag`, which leaves `bag`, to `spareMeBag`. -/
def spare (o : Obj) (bag : List Obj) : ThreadData n Obj :=
  { d with
    retiredBag := bag
    spareMeBag := o :: d.spareMeBag }

/-- `isOutOfPatience`. -/
def isOutOfPatience (cfg : Config n) (t : Fin n) : Bool :=
  cfg.bagCapacityThreshold t < d.retiredBag.length

/-- `isPastLoWatermark`, in NBR+ only. -/
def isPastLoWatermark (cfg : Config n) (t : Fin n) : Bool :=
  cfg.variant = .nbrPlus && cfg.bagCapacityThreshold t / 2 < d.retiredBag.length &&
    d.numRetiresSinceLoWatermark % d.loPathReclaimAttemptFreq == 0

end ThreadData

namespace State

/-- The state after the constructor and `initThread` of every thread. -/
def initial (cfg : Config n) (Obj : Type) : State n Obj where
  proposedHzptrs _ := ⟨fun _ => none, 0⟩
  announcedTS _ := 0
  threadData _ := .initial n Obj cfg.maxRetirebagCapacityPow2
  restartable _ := false
  pending _ := false
  pc _ := .idle
  life _ := .pooled
  writing _ := false
  met _ _ := false
  bagAtEntry _ := []
  begunSince _ _ := false
  endedSince _ _ := false

variable (s : State n Obj)

/-- Thread `t` goes on at `p`. -/
def goto (t : Fin n) (p : Pc Obj) : State n Obj :=
  { s with pc := update s.pc t p }

/-- Thread `t` changes its own data and goes on at `p`. -/
def own (t : Fin n) (d : ThreadData n Obj) (p : Pc Obj) : State n Obj :=
  { s with
    threadData := update s.threadData t d
    pc := update s.pc t p }

/-- The record is passed to `retire`. -/
def retiring [DecidableEq Obj] (o : Obj) : State n Obj :=
  { s with life := update s.life o .retired }

/-- `collectAllSavedRecords` begins: `scannedHzptrs->clear()`. -/
def beginCollect (t : Fin n) (path : Path) : State n Obj :=
  s.own t { s.threadData t with scannedHzptrs := ∅ } (.collect path 0)

/-- `std::atomic_fetch_add(&threadData[tid].announcedTS, 1)` before signalling. -/
def announceStart (t : Fin n) : State n Obj :=
  { s with
    announcedTS := update s.announcedTS t (s.announcedTS t + 1)
    begunSince := fun t' => update (s.begunSince t') t true }

/-- `std::atomic_fetch_add(&threadData[tid].announcedTS, 1)` after signalling. -/
def announceDone (t : Fin n) : State n Obj :=
  { s with
    announcedTS := update s.announcedTS t (s.announcedTS t + 1)
    endedSince := fun t' => update (s.endedSince t') t (s.endedSince t' t || s.begunSince t' t) }

/-- What is known about the readers. -/
def nz : Neutralize n Obj where
  restartable := s.restartable
  writing := s.writing
  signalled := s.pending
  met u o := s.met u o = true
  saved u := (s.proposedHzptrs u).Has

end State

/-- The atomic steps. -/
inductive Step [DecidableEq Obj] (cfg : Config n) : State n Obj → Actor n → State n Obj → Prop
  /-- A record is linked. -/
  | link (s : State n Obj) (o : Obj) (h : s.life o = .pooled) :
      Step cfg s .env
        { s with
          life := update s.life o .linked
          met := fun u => update (s.met u) o true }
  /-- A record is unlinked. -/
  | unlink (s : State n Obj) (o : Obj) (h : s.life o = .linked) :
      Step cfg s .env { s with life := update s.life o .unlinked }
  /-- `startOp`: `proposedHzptrs->clear()`. -/
  | callStartOp (s : State n Obj) (t : Fin n) (hr : s.pending t = false) (hpc : s.pc t = .idle)
      (hrs : s.restartable t = false) :
      Step cfg s (.thread t)
        { s.goto t .startOp with
          proposedHzptrs := update s.proposedHzptrs t { s.proposedHzptrs t with size := 0 }
          writing := update s.writing t false }
  /-- `startOp`: `CASB(&restartable, 0, 1)`. -/
  | startOp (s : State n Obj) (t : Fin n) (hr : s.pending t = false) (hpc : s.pc t = .startOp) :
      Step cfg s (.thread t)
        { s.goto t .idle with
          restartable := update s.restartable t true
          met := update s.met t fun o => s.life o = .linked }
  /-- `saveForWritePhase` of `NULL`. -/
  | saveNull (s : State n Obj) (t : Fin n) (hr : s.pending t = false) (hpc : s.pc t = .idle)
      (hrs : s.restartable t = true) :
      Step cfg s (.thread t) s
  /-- `saveForWritePhase`: the record is stored behind the last one. -/
  | callSave (s : State n Obj) (t : Fin n) (o : Obj) (hr : s.pending t = false)
      (hpc : s.pc t = .idle) (hrs : s.restartable t = true) (ho : s.met t o = true)
      (hfull : (s.proposedHzptrs t).size < cfg.maxPerThreadHazardptr) :
      Step cfg s (.thread t)
        { s.goto t (.addSaved o (s.proposedHzptrs t).size) with
          proposedHzptrs := update s.proposedHzptrs t
            { s.proposedHzptrs t with
              data := update (s.proposedHzptrs t).data (s.proposedHzptrs t).size (some o) } }
  /-- `saveForWritePhase`: the new size is stored. -/
  | addSaved (s : State n Obj) (t : Fin n) (o : Obj) (sz : ℕ) (hr : s.pending t = false)
      (hpc : s.pc t = .addSaved o sz) :
      Step cfg s (.thread t)
        { s.goto t .idle with
          proposedHzptrs := update s.proposedHzptrs t
            { s.proposedHzptrs t with size := sz + 1 } }
  /-- `upgradeToWritePhase`: `CASB(&restartable, 1, 0)`. -/
  | upgradeToWritePhase (s : State n Obj) (t : Fin n) (hr : s.pending t = false)
      (hpc : s.pc t = .idle) (hrs : s.restartable t = true) :
      Step cfg s (.thread t)
        { s with
          restartable := update s.restartable t false
          writing := update s.writing t true }
  /-- `endOp`: `CASB(&restartable, 1, 0)`. -/
  | endOp (s : State n Obj) (t : Fin n) (hr : s.pending t = false) (hpc : s.pc t = .idle) :
      Step cfg s (.thread t)
        { s with
          restartable := update s.restartable t false
          writing := update s.writing t false }
  /-- `retire(tid, record)`, out of patience. -/
  | retireRequest (s : State n Obj) (t : Fin n) (o : Obj) (hr : s.pending t = false)
      (hpc : s.pc t = .idle) (hrs : s.restartable t = false) (ho : s.life o = .unlinked)
      (hout : (s.threadData t).isOutOfPatience cfg t = true) :
      Step cfg s (.thread t)
        ((s.retiring o).own t { s.threadData t with record := some o } cfg.variant.request)
  /-- `retire(tid, record)`, first entry past the low watermark. -/
  | retireEnterLoWm (s : State n Obj) (t : Fin n) (o : Obj) (rand : Fin 11)
      (hr : s.pending t = false) (hpc : s.pc t = .idle) (hrs : s.restartable t = false)
      (ho : s.life o = .unlinked) (hout : (s.threadData t).isOutOfPatience cfg t = false)
      (hpast : (s.threadData t).isPastLoWatermark cfg t = true)
      (hfirst : (s.threadData t).firstLoEntryFlag = true) :
      Step cfg s (.thread t)
        { (s.retiring o).own t
            { (s.threadData t).setLoWmMetaData
                (tryReclaimFrequency cfg.maxRetirebagCapacityPow2 rand) with record := some o }
            (.saveTS 0) with
          bagAtEntry := update s.bagAtEntry t (s.threadData t).retiredBag }
  /-- `retire(tid, record)`, later entries past the low watermark. -/
  | retireCheckLoWm (s : State n Obj) (t : Fin n) (o : Obj) (hr : s.pending t = false)
      (hpc : s.pc t = .idle) (hrs : s.restartable t = false) (ho : s.life o = .unlinked)
      (hout : (s.threadData t).isOutOfPatience cfg t = false)
      (hpast : (s.threadData t).isPastLoWatermark cfg t = true)
      (hfirst : (s.threadData t).firstLoEntryFlag = false) :
      Step cfg s (.thread t)
        ((s.retiring o).own t { s.threadData t with record := some o } (.check 0))
  /-- `retire(tid, record)` below both watermarks. -/
  | retireAdd (s : State n Obj) (t : Fin n) (o : Obj) (hr : s.pending t = false)
      (hpc : s.pc t = .idle) (hrs : s.restartable t = false) (ho : s.life o = .unlinked)
      (hout : (s.threadData t).isOutOfPatience cfg t = false)
      (hpast : (s.threadData t).isPastLoWatermark cfg t = false) :
      Step cfg s (.thread t)
        ((s.retiring o).own t { s.threadData t with record := some o } .add)
  /-- `setLoWmMetaData`: `announcedTS` of thread `i` is saved. -/
  | saveTS (s : State n Obj) (t i : Fin n) (hr : s.pending t = false)
      (hpc : s.pc t = .saveTS i.val) :
      Step cfg s (.thread t)
        { s.own t
            { s.threadData t with
              savedTS := update (s.threadData t).savedTS i (s.announcedTS i) }
            (.saveTS (i.val + 1)) with
          begunSince := update s.begunSince t (update (s.begunSince t) i false)
          endedSince := update s.endedSince t (update (s.endedSince t) i false) }
  | saveTSEnd (s : State n Obj) (t : Fin n) (hr : s.pending t = false)
      (hpc : s.pc t = .saveTS n) :
      Step cfg s (.thread t) (s.goto t (.check 0))
  /-- `announcedTS` of thread `i` has not grown by two. -/
  | checkNext (s : State n Obj) (t i : Fin n) (hr : s.pending t = false)
      (hpc : s.pc t = .check i.val) (hlt : s.announcedTS i < (s.threadData t).savedTS i + 2) :
      Step cfg s (.thread t) (s.goto t (.check (i.val + 1)))
  /-- `announcedTS` of thread `i` has grown by two: `LoWmreclaimFreeable`. -/
  | checkHit (s : State n Obj) (t i : Fin n) (hr : s.pending t = false)
      (hpc : s.pc t = .check i.val) (hge : (s.threadData t).savedTS i + 2 ≤ s.announcedTS i) :
      Step cfg s (.thread t) (s.beginCollect t .loWm)
  | checkEnd (s : State n Obj) (t : Fin n) (hr : s.pending t = false)
      (hpc : s.pc t = .check n) :
      Step cfg s (.thread t) (s.goto t .add)
  | announceStart (s : State n Obj) (t : Fin n) (hr : s.pending t = false)
      (hpc : s.pc t = .announceStart) :
      Step cfg s (.thread t) ((s.announceStart t).goto t (.signal 0))
  /-- `requestAllThreadsToRestart`: `pthread_kill` of another thread. -/
  | signal (s : State n Obj) (t i : Fin n) (hr : s.pending t = false)
      (hpc : s.pc t = .signal i.val) (hi : t ≠ i) :
      Step cfg s (.thread t)
        { s.goto t (.signal (i.val + 1)) with pending := update s.pending i true }
  | signalSelf (s : State n Obj) (t : Fin n) (hr : s.pending t = false)
      (hpc : s.pc t = .signal t.val) :
      Step cfg s (.thread t) (s.goto t (.signal (t.val + 1)))
  /-- NBR: everybody is signalled. -/
  | signalEnd (s : State n Obj) (t : Fin n) (hr : s.pending t = false)
      (hpc : s.pc t = .signal n) (hv : cfg.variant = .nbr) :
      Step cfg s (.thread t) (s.beginCollect t .hiWm)
  /-- NBR+: everybody is signalled. -/
  | signalEndPlus (s : State n Obj) (t : Fin n) (hr : s.pending t = false)
      (hpc : s.pc t = .signal n) (hv : cfg.variant = .nbrPlus) :
      Step cfg s (.thread t) (s.goto t .announceDone)
  | announceDone (s : State n Obj) (t : Fin n) (hr : s.pending t = false)
      (hpc : s.pc t = .announceDone) :
      Step cfg s (.thread t) ((s.announceDone t).beginCollect t .hiWm)
  /-- `collectAllSavedRecords`: the size of the list of thread `i` is loaded. -/
  | collect (s : State n Obj) (t i : Fin n) (path : Path) (hr : s.pending t = false)
      (hpc : s.pc t = .collect path i.val) :
      Step cfg s (.thread t) (s.goto t (.collectGet path i.val (s.proposedHzptrs i).size 0))
  /-- `collectAllSavedRecords`: a record is loaded and, if it is not `NULL`, inserted. -/
  | collectGet (s : State n Obj) (t i : Fin n) (path : Path) (sz ix : ℕ)
      (hr : s.pending t = false) (hpc : s.pc t = .collectGet path i.val sz ix) (hix : ix < sz) :
      Step cfg s (.thread t)
        (s.own t ((s.threadData t).insertScanned ((s.proposedHzptrs i).data ix))
          (.collectGet path i.val sz (ix + 1)))
  | collectNext (s : State n Obj) (t i : Fin n) (path : Path) (sz ix : ℕ)
      (hr : s.pending t = false) (hpc : s.pc t = .collectGet path i.val sz ix) (hix : sz ≤ ix) :
      Step cfg s (.thread t) (s.goto t (.collect path (i.val + 1)))
  | collectEnd (s : State n Obj) (t : Fin n) (hr : s.pending t = false)
      (hpc : s.pc t = .collect .hiWm n) :
      Step cfg s (.thread t) (s.goto t (.send .hiWm))
  | collectEndLoWm (s : State n Obj) (t : Fin n) (hr : s.pending t = false)
      (hpc : s.pc t = .collect .loWm n) :
      Step cfg s (.thread t) (s.goto t .skipNewer)
  /-- `LoWmreclaimFreeable`: a record retired since the low watermark was entered is spared. -/
  | skipNewer (s : State n Obj) (t : Fin n) (o : Obj) (bag : List Obj) (hr : s.pending t = false)
      (hpc : s.pc t = .skipNewer) (hbag : (s.threadData t).retiredBag = o :: bag)
      (hnew : isNewer (beginOf (o :: bag)) (s.threadData t).savedRetireBagBlockInfo = true) :
      Step cfg s (.thread t)
        (s.own t ((s.threadData t).spare o bag) .skipNewer)
  | skipEnd (s : State n Obj) (t : Fin n) (hr : s.pending t = false) (hpc : s.pc t = .skipNewer)
      (hold : isNewer (beginOf (s.threadData t).retiredBag)
        (s.threadData t).savedRetireBagBlockInfo = false) :
      Step cfg s (.thread t) (s.goto t (.send .loWm))
  /-- `sendFreeableRecordsToPool`: the record was collected and is spared. -/
  | sendSpare (s : State n Obj) (t : Fin n) (path : Path) (o : Obj) (bag : List Obj)
      (hr : s.pending t = false) (hpc : s.pc t = .send path)
      (hbag : (s.threadData t).retiredBag = o :: bag)
      (hmem : o ∈ (s.threadData t).scannedHzptrs) :
      Step cfg s (.thread t)
        (s.own t ((s.threadData t).spare o bag) (.send path))
  /-- `sendFreeableRecordsToPool`: the record is passed to the pool. -/
  | sendFree (s : State n Obj) (t : Fin n) (path : Path) (o : Obj) (bag : List Obj)
      (hr : s.pending t = false) (hpc : s.pc t = .send path)
      (hbag : (s.threadData t).retiredBag = o :: bag)
      (hmem : o ∉ (s.threadData t).scannedHzptrs) :
      Step cfg s (.thread t)
        { s.own t { s.threadData t with retiredBag := bag } (.send path) with
          life := update s.life o .pooled }
  | sendEnd (s : State n Obj) (t : Fin n) (path : Path) (hr : s.pending t = false)
      (hpc : s.pc t = .send path) (hbag : (s.threadData t).retiredBag = []) :
      Step cfg s (.thread t) (s.goto t (.unspare path))
  /-- `sendFreeableRecordsToPool`: a spared record is put back. -/
  | unspare (s : State n Obj) (t : Fin n) (path : Path) (o : Obj) (spare : List Obj)
      (hr : s.pending t = false) (hpc : s.pc t = .unspare path)
      (hspare : (s.threadData t).spareMeBag = o :: spare) :
      Step cfg s (.thread t)
        (s.own t
          { s.threadData t with
            retiredBag := o :: (s.threadData t).retiredBag
            spareMeBag := spare }
          (.unspare path))
  | unspareEnd (s : State n Obj) (t : Fin n) (path : Path) (hr : s.pending t = false)
      (hpc : s.pc t = .unspare path) (hspare : (s.threadData t).spareMeBag = []) :
      Step cfg s (.thread t) (s.own t ((s.threadData t).afterReclaim cfg.variant) .add)
  | add (s : State n Obj) (t : Fin n) (o : Obj) (hr : s.pending t = false) (hpc : s.pc t = .add)
      (ho : (s.threadData t).record = some o) :
      Step cfg s (.thread t) (s.own t ((s.threadData t).finishRetire o) .idle)
  /-- `trcrashhandler` with `restartable` 0 returns. -/
  | handlerReturn (s : State n Obj) (t : Fin n) (hp : s.pending t = true)
      (hrs : s.restartable t = false) :
      Step cfg s (.handler t) { s with pending := update s.pending t false }
  /-- `trcrashhandler` with `restartable` 1 resets it and jumps to the checkpoint. -/
  | handlerJump (s : State n Obj) (t : Fin n) (hp : s.pending t = true)
      (hrs : s.restartable t = true) :
      Step cfg s (.handler t)
        { s.goto t .idle with
          pending := update s.pending t false
          restartable := update s.restartable t false }

/-- The reclaimer with `n` threads as a transition system. -/
def system [DecidableEq Obj] (cfg : Config n) : Lts (State n Obj) (Actor n) where
  init s := s = State.initial cfg Obj
  step := Step cfg

end Nbr
end PopSetbench

import PopSetbench.Library.Custody
import PopSetbench.Library.Run
import PopSetbench.Reclaim.Object

/-!
# DEBRA

The reclaimer of `reclaimer_debra.h`. `startOp` adopts the global `epoch`; if it is a new one, the
thread moves on to the next of its three bags, after emptying it into the pool. Then it announces
the epoch, and in every `MIN_OPS_BEFORE_READ`-th call looks at the announcement of one other thread.
Once it has found all threads quiescent or announcing its own epoch, it increments `epoch` with a
CAS. `endOp` announces a quiescent state, `retire` adds to the current bag.

An announcement is an epoch, which is even, and a quiescent bit. Epochs are `long`s; here they are
natural numbers. The pool is `pool_none`, which frees all objects of a bag it is given;
`currentBag` is `epochbags[index]`.
-/

namespace PopSetbench
namespace Debra

open Function

/-- `EPOCH_INCREMENT`. -/
def epochIncrement : ℕ := 2

/-- `BITS_EPOCH`. -/
def bitsEpoch (ann : ℕ) : ℕ := ann - ann % epochIncrement

/-- `QUIESCENT`. -/
def quiescent (ann : ℕ) : Bool := ann % 2 = 1

/-- `GET_WITH_QUIESCENT`. -/
def getWithQuiescent (ann : ℕ) : ℕ := ann ||| 1

/-- Where a thread is in the code. -/
inductive Pc
  /-- Between two calls. -/
  | idle
  /-- `rotateEpochBags`: the oldest bag is being emptied. -/
  | rotate (readEpoch : ℕ)
  /-- `startOp`: about to announce. -/
  | announce (readEpoch : ℕ)
  /-- `startOp`: about to load the announcement of thread `checked`. -/
  | check (readEpoch : ℕ)
  /-- `startOp`: about to CAS `epoch`. -/
  | cas (readEpoch : ℕ)
  deriving DecidableEq

/-- What becomes of a thread that was not quiescent when an object was retired. -/
inductive Owes
  /-- It has been quiescent since, or a `startOp` that began since has announced its epoch. -/
  | clear
  /-- It has not begun another `startOp`. -/
  | running
  /-- It is in a `startOp` that began since. -/
  | starting
  deriving DecidableEq

/-- The state of the reclaimer with `n` threads. -/
structure State (n : ℕ) (Obj : Type) where
  /-- `epoch`. -/
  epoch : ℕ
  /-- `threadData[tid].announcedEpoch`. -/
  announcedEpoch : Fin n → ℕ
  /-- `threadData[tid].localvar_announcedEpoch`. -/
  localvarAnnouncedEpoch : Fin n → ℕ
  /-- `threadData[tid].epochbags`, oldest object first. -/
  epochbags : Fin n → Fin 3 → List Obj
  /-- `threadData[tid].index`. -/
  index : Fin n → Fin 3
  /-- `threadData[tid].checked`. -/
  checked : Fin n → ℕ
  /-- `threadData[tid].opsSinceRead`. -/
  opsSinceRead : Fin n → ℕ
  /-- Where each thread is. -/
  pc : Fin n → Pc
  /-- Bookkeeping: the life of each object. -/
  life : Obj → Life
  /-- Bookkeeping: `epoch` when the object was retired. -/
  retireEpoch : Obj → ℕ
  /-- Bookkeeping: what each thread owes since the object was retired. -/
  owes : Obj → Fin n → Owes
  /-- Bookkeeping: whether thread `t`, since it adopted `localvar_announcedEpoch`, has found thread
  `u` quiescent or announcing that epoch. -/
  seen : Fin n → Fin n → Bool

variable {n : ℕ} {Obj : Type}

namespace State

/-- The state after the constructor and `initThread` of every thread. -/
def initial (n : ℕ) (Obj : Type) : State n Obj where
  epoch := 0
  announcedEpoch _ := getWithQuiescent 0
  localvarAnnouncedEpoch _ := getWithQuiescent 0
  epochbags _ _ := []
  index _ := 0
  checked _ := 0
  opsSinceRead _ := 0
  pc _ := .idle
  life _ := .pooled
  retireEpoch _ := 0
  owes _ _ := .clear
  seen _ _ := false

variable (s : State n Obj)

/-- Thread `t` goes on at `p`. -/
def goto (t : Fin n) (p : Pc) : State n Obj :=
  { s with pc := update s.pc t p }

/-- Thread `t` begins a `startOp`. -/
def begin (t : Fin n) : State n Obj :=
  { s with owes := fun o => update (s.owes o) t (if s.owes o t = .running then .starting
      else s.owes o t) }

/-- `threadData[tid].localvar_announcedEpoch = readEpoch`, a new epoch; `checked = 0`. -/
def adopt (t : Fin n) : State n Obj :=
  { s with
    localvarAnnouncedEpoch := update s.localvarAnnouncedEpoch t s.epoch
    checked := update s.checked t 0
    seen := update s.seen t fun _ => false }

/-- The object at the top of the oldest bag of thread `t` is passed to the pool; `rest` is what
remains. -/
def passToPool [DecidableEq Obj] (t : Fin n) (rest : List Obj) (o : Obj) : State n Obj :=
  { s with
    epochbags := update s.epochbags t (update (s.epochbags t) (s.index t + 1) rest)
    life := update s.life o .pooled }

/-- `threadData[tid].announcedEpoch.store(e)` in `startOp`. -/
def announce (t : Fin n) (e : ℕ) : State n Obj :=
  { s with
    announcedEpoch := update s.announcedEpoch t e
    owes := fun o => update (s.owes o) t (if s.owes o t = .starting then .clear else s.owes o t) }

/-- `endOp`. -/
def endOp (t : Fin n) : State n Obj :=
  { s with
    announcedEpoch := update s.announcedEpoch t (getWithQuiescent (s.localvarAnnouncedEpoch t))
    owes := fun o => update (s.owes o) t .clear }

/-- `threadData[tid].currentBag->add(p)`. -/
def retire [DecidableEq Obj] (t : Fin n) (o : Obj) : State n Obj :=
  { s with
    epochbags := update s.epochbags t
      (update (s.epochbags t) (s.index t) (s.epochbags t (s.index t) ++ [o]))
    life := update s.life o .retired
    retireEpoch := update s.retireEpoch o s.epoch
    owes := update s.owes o fun u => if quiescent (s.announcedEpoch u) then .clear else .running }

/-- The announcement of thread `i` lets thread `t` go on to the next thread. -/
def pass (t i : Fin n) : State n Obj :=
  { s with
    checked := update s.checked t (s.checked t + 1)
    seen := update s.seen t (update (s.seen t) i true) }

/-- `BITS_EPOCH(otherAnnounce) == readEpoch || QUIESCENT(otherAnnounce)`. -/
def Passes (i : Fin n) (readEpoch : ℕ) : Prop :=
  bitsEpoch (s.announcedEpoch i) = readEpoch ∨ quiescent (s.announcedEpoch i) = true

instance (i : Fin n) (readEpoch : ℕ) : Decidable (s.Passes i readEpoch) :=
  inferInstanceAs (Decidable (_ ∨ _))

end State

/-- The atomic steps; `minOpsBeforeRead` is `MIN_OPS_BEFORE_READ`. -/
inductive Step [DecidableEq Obj] (minOpsBeforeRead : ℕ) :
    State n Obj → Actor n → State n Obj → Prop
  /-- An object is linked. -/
  | link (s : State n Obj) (o : Obj) (h : s.life o = .pooled) :
      Step minOpsBeforeRead s .env { s with life := update s.life o .linked }
  /-- An object is unlinked. -/
  | unlink (s : State n Obj) (o : Obj) (h : s.life o = .linked) :
      Step minOpsBeforeRead s .env { s with life := update s.life o .unlinked }
  /-- `startOp` loads `epoch`, which is a new one. -/
  | startOpNew (s : State n Obj) (t : Fin n) (hpc : s.pc t = .idle)
      (hann : s.epoch ≠ s.localvarAnnouncedEpoch t) :
      Step minOpsBeforeRead s (.thread t) (((s.begin t).adopt t).goto t (.rotate s.epoch))
  /-- `startOp` loads `epoch`, which is the one announced last. -/
  | startOpSame (s : State n Obj) (t : Fin n) (hpc : s.pc t = .idle)
      (hann : s.epoch = s.localvarAnnouncedEpoch t) :
      Step minOpsBeforeRead s (.thread t) ((s.begin t).goto t (.announce s.epoch))
  /-- `addMoveFullBlocks` removes an object from the bag and deallocates it. -/
  | rotateFree (s : State n Obj) (t : Fin n) (e : ℕ) (rest : List Obj) (o : Obj)
      (hpc : s.pc t = .rotate e) (hbag : s.epochbags t (s.index t + 1) = rest ++ [o]) :
      Step minOpsBeforeRead s (.thread t) (s.passToPool t rest o)
  /-- The bag is empty and becomes the current one. -/
  | rotateEnd (s : State n Obj) (t : Fin n) (e : ℕ) (hpc : s.pc t = .rotate e)
      (hbag : s.epochbags t (s.index t + 1) = []) :
      Step minOpsBeforeRead s (.thread t)
        { s.goto t (.announce e) with index := update s.index t (s.index t + 1) }
  /-- The epoch is announced, and `startOp` returns. -/
  | announce (s : State n Obj) (t : Fin n) (e : ℕ) (hpc : s.pc t = .announce e)
      (hops : s.opsSinceRead t + 1 ≠ minOpsBeforeRead) :
      Step minOpsBeforeRead s (.thread t)
        { (s.announce t e).goto t .idle with
          opsSinceRead := update s.opsSinceRead t (s.opsSinceRead t + 1) }
  /-- The epoch is announced, and it is time to look at another thread. -/
  | announceCheck (s : State n Obj) (t : Fin n) (e : ℕ) (hpc : s.pc t = .announce e)
      (hops : s.opsSinceRead t + 1 = minOpsBeforeRead) :
      Step minOpsBeforeRead s (.thread t)
        { (s.announce t e).goto t (.check e) with
          opsSinceRead := update s.opsSinceRead t 0 }
  /-- The thread is quiescent or has announced the epoch, and others are left. -/
  | check (s : State n Obj) (t i : Fin n) (e : ℕ) (hpc : s.pc t = .check e)
      (hi : s.checked t = i.val) (hpass : s.Passes i e) (hlt : i.val + 1 < n) :
      Step minOpsBeforeRead s (.thread t) ((s.pass t i).goto t .idle)
  /-- The thread is quiescent or has announced the epoch, and all have been seen. -/
  | checkLast (s : State n Obj) (t i : Fin n) (e : ℕ) (hpc : s.pc t = .check e)
      (hi : s.checked t = i.val) (hpass : s.Passes i e) (hge : n ≤ i.val + 1) :
      Step minOpsBeforeRead s (.thread t) ((s.pass t i).goto t (.cas e))
  /-- The thread is neither. -/
  | checkFail (s : State n Obj) (t i : Fin n) (e : ℕ) (hpc : s.pc t = .check e)
      (hi : s.checked t = i.val) (hpass : ¬ s.Passes i e) :
      Step minOpsBeforeRead s (.thread t) (s.goto t .idle)
  | casSuccess (s : State n Obj) (t : Fin n) (e : ℕ) (hpc : s.pc t = .cas e)
      (he : s.epoch = e) :
      Step minOpsBeforeRead s (.thread t) { s.goto t .idle with epoch := e + epochIncrement }
  | casFail (s : State n Obj) (t : Fin n) (e : ℕ) (hpc : s.pc t = .cas e) (he : s.epoch ≠ e) :
      Step minOpsBeforeRead s (.thread t) (s.goto t .idle)
  | endOp (s : State n Obj) (t : Fin n) (hpc : s.pc t = .idle) :
      Step minOpsBeforeRead s (.thread t) (s.endOp t)
  | retire (s : State n Obj) (t : Fin n) (o : Obj) (hpc : s.pc t = .idle)
      (ho : s.life o = .unlinked) :
      Step minOpsBeforeRead s (.thread t) (s.retire t o)

/-- The reclaimer with `n` threads as a transition system. -/
def system [DecidableEq Obj] (minOpsBeforeRead : ℕ) : Lts (State n Obj) (Actor n) where
  init s := s = State.initial n Obj
  step := Step minOpsBeforeRead

/-- Thread `t` is about to pass the object to the pool. -/
def PassesToPool (s : State n Obj) (t : Fin n) (o : Obj) : Prop :=
  ∃ e rest, s.pc t = .rotate e ∧ s.epochbags t (s.index t + 1) = rest ++ [o]

/-- Thread `t` is about to increment `epoch` from `e`. -/
def Advances (s : State n Obj) (t : Fin n) (e : ℕ) : Prop :=
  s.pc t = .cas e ∧ s.epoch = e

end Debra
end PopSetbench

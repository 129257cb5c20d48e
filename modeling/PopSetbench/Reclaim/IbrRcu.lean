import Mathlib.Data.ENat.Basic
import PopSetbench.Library.Custody
import PopSetbench.Library.Run
import PopSetbench.Reclaim.Object

/-!
# RCU with reservations

The reclaimer of `reclaimer_ibr_rcu.h`. A thread loads `epoch` at the beginning of an operation and
then stores it in `reservations`; at the end it stores `UINT64_MAX`. Objects are stamped with the
epoch at their retirement; `empty` loads the reservations one after the other and frees the objects
whose epoch is less than the least of them.

Load and store are two steps, so a thread can reserve an epoch that is long past, after a
reclaimer has looked at it.

`epoch` is 64 bits wide; here it is a natural number, and `UINT64_MAX` is a bound above all epochs.
-/

namespace PopSetbench
namespace IbrRcu

open Function

/-- Where a thread is in the code. -/
inductive Pc
  /-- Between two calls. -/
  | idle
  /-- `updateAllocCounterAndEpoch`: about to increment `epoch`. -/
  | bumpEpoch
  /-- `startOp`: about to store the epoch it loaded. -/
  | startOp (e : ℕ)
  /-- `empty`: the reservations of the threads below `i` are loaded. -/
  | empty (i : ℕ) (minEpoch : ℕ∞)
  /-- `empty`: the iterator is at `pos`. -/
  | scan (pos : ℕ) (minEpoch : ℕ∞)
  deriving DecidableEq

/-- `RCUInfo`. -/
structure RCUInfo (Obj : Type) where
  obj : Obj
  epoch : ℕ
  deriving DecidableEq

/-- The state of the reclaimer with `n` threads and of the memory it protects. -/
@[ext]
structure State (n : ℕ) (Obj Loc : Type) where
  /-- The shared locations that operations load from. -/
  mem : Loc → Ptr Obj
  /-- `reservations`. -/
  reservations : Fin n → ℕ∞
  /-- `epoch`. -/
  epoch : ℕ
  /-- `alloc_counters`. -/
  allocCounters : Fin n → ℕ
  /-- `retire_counters`. -/
  retireCounters : Fin n → ℕ
  /-- `retired[tid]`, oldest first. -/
  retired : Fin n → List (RCUInfo Obj)
  /-- Where each thread is. -/
  pc : Fin n → Pc
  /-- Bookkeeping: the life of each object. -/
  life : Obj → Life
  /-- Bookkeeping: `startOp` has stored a reservation, and `endOp` has not withdrawn it since. -/
  inOp : Fin n → Bool
  /-- Bookkeeping: the objects that the thread has reached while they were linked, during the
  operation that has not ended. -/
  held : Fin n → Obj → Bool

/-- The parameters set by the constructor. -/
structure Config where
  /-- `empty_freq`. -/
  emptyFreq : ℕ
  /-- `epoch_freq`. -/
  epochFreq : ℕ

variable {n : ℕ} {Obj Loc : Type}

namespace State

/-- The state after the constructor and `initThread` of every thread. -/
def initial (n : ℕ) (Obj Loc : Type) : State n Obj Loc where
  mem _ := ⟨none, 0⟩
  reservations _ := ⊤
  epoch := 0
  allocCounters _ := 0
  retireCounters _ := 0
  retired _ := []
  pc _ := .idle
  life _ := .pooled
  inOp _ := false
  held _ _ := false

variable (s : State n Obj Loc)

/-- Thread `t` goes on at `p`. -/
def goto (t : Fin n) (p : Pc) : State n Obj Loc :=
  { s with pc := update s.pc t p }

/-- `myTrash->push_back(RCUInfo(obj, e))`, and the call is counted. -/
def pushBack [DecidableEq Obj] (t : Fin n) (o : Obj) : State n Obj Loc :=
  { s with
    retired := update s.retired t (s.retired t ++ [⟨o, s.epoch⟩])
    retireCounters := update s.retireCounters t (s.retireCounters t + 1)
    life := update s.life o .retired }

/-- `iterator = myTrash->erase(iterator); this->pool->add(tid, res.obj)`. -/
def passToPool [DecidableEq Obj] (t : Fin n) (pos : ℕ) (o : Obj) : State n Obj Loc :=
  { s with
    retired := update s.retired t ((s.retired t).eraseIdx pos)
    life := update s.life o .pooled }

variable {s} {t : Fin n}

theorem goto_pc (p : Pc) : (s.goto t p).pc t = p :=
  update_self ..

end State

/-- The atomic steps. -/
inductive Step [DecidableEq Obj] [DecidableEq Loc] (cfg : Config) :
    State n Obj Loc → Actor n → State n Obj Loc → Prop
  /-- Some operation writes or CASes a shared location. -/
  | write (s : State n Obj Loc) (l : Loc) (p : Ptr Obj) :
      Step cfg s .env { s with mem := update s.mem l p }
  /-- An object is linked. -/
  | link (s : State n Obj Loc) (o : Obj) (h : s.life o = .pooled) :
      Step cfg s .env { s with life := update s.life o .linked }
  /-- An object is unlinked. -/
  | unlink (s : State n Obj Loc) (o : Obj) (h : s.life o = .linked) :
      Step cfg s .env { s with life := update s.life o .unlinked }
  /-- `updateAllocCounterAndEpoch`, called by an allocation; the epoch stays. -/
  | alloc (s : State n Obj Loc) (t : Fin n) (hpc : s.pc t = .idle)
      (hmod : (s.allocCounters t + 1) % (cfg.epochFreq * n) ≠ 0) :
      Step cfg s (.thread t)
        { s with allocCounters := update s.allocCounters t (s.allocCounters t + 1) }
  /-- `updateAllocCounterAndEpoch`, called by an allocation; the epoch will be incremented. -/
  | allocBump (s : State n Obj Loc) (t : Fin n) (hpc : s.pc t = .idle)
      (hmod : (s.allocCounters t + 1) % (cfg.epochFreq * n) = 0) :
      Step cfg s (.thread t)
        { s.goto t .bumpEpoch with
          allocCounters := update s.allocCounters t (s.allocCounters t + 1) }
  | bumpEpoch (s : State n Obj Loc) (t : Fin n) (hpc : s.pc t = .bumpEpoch) :
      Step cfg s (.thread t) { s.goto t .idle with epoch := s.epoch + 1 }
  /-- `startOp` loads `epoch`. -/
  | startOp (s : State n Obj Loc) (t : Fin n) (hpc : s.pc t = .idle) (hop : s.inOp t = false) :
      Step cfg s (.thread t) (s.goto t (.startOp s.epoch))
  /-- `startOp` stores it. -/
  | reserve (s : State n Obj Loc) (t : Fin n) (e : ℕ) (hpc : s.pc t = .startOp e) :
      Step cfg s (.thread t)
        { s.goto t .idle with
          reservations := update s.reservations t (e : ℕ∞)
          inOp := update s.inOp t true
          held := update s.held t fun _ => false }
  /-- The operation loads a pointer. -/
  | access (s : State n Obj Loc) (t : Fin n) (l : Loc) (hpc : s.pc t = .idle)
      (hop : s.inOp t = true) :
      Step cfg s (.thread t)
        { s with
          held := update s.held t fun o =>
            s.held t o || ((s.mem l).obj = some o && s.life o = .linked) }
  /-- `endOp` withdraws the reservation. -/
  | endOp (s : State n Obj Loc) (t : Fin n) (hpc : s.pc t = .idle) (hop : s.inOp t = true) :
      Step cfg s (.thread t)
        { s with
          reservations := update s.reservations t ⊤
          inOp := update s.inOp t false
          held := update s.held t fun _ => false }
  /-- `retire(tid, obj)`, which leaves the list as it is otherwise. -/
  | retire (s : State n Obj Loc) (t : Fin n) (o : Obj) (hpc : s.pc t = .idle)
      (ho : s.life o = .unlinked) (hfreq : (s.retireCounters t + 1) % cfg.emptyFreq ≠ 0) :
      Step cfg s (.thread t) (s.pushBack t o)
  /-- `retire(tid, obj)`, which calls `empty`. -/
  | retireEmpty (s : State n Obj Loc) (t : Fin n) (o : Obj) (hpc : s.pc t = .idle)
      (ho : s.life o = .unlinked) (hfreq : (s.retireCounters t + 1) % cfg.emptyFreq = 0) :
      Step cfg s (.thread t) ((s.pushBack t o).goto t (.empty 0 ⊤))
  /-- `empty` loads the reservation of thread `i`. -/
  | load (s : State n Obj Loc) (t i : Fin n) (m : ℕ∞) (hpc : s.pc t = .empty i.val m) :
      Step cfg s (.thread t)
        (s.goto t (.empty (i.val + 1) (if s.reservations i < m then s.reservations i else m)))
  | loaded (s : State n Obj Loc) (t : Fin n) (m : ℕ∞) (hpc : s.pc t = .empty n m) :
      Step cfg s (.thread t) (s.goto t (.scan 0 m))
  /-- The epoch of the retirement is not safe: the object stays in the list. -/
  | scanKeep (s : State n Obj Loc) (t : Fin n) (pos : ℕ) (m : ℕ∞) (res : RCUInfo Obj)
      (hpc : s.pc t = .scan pos m) (ho : (s.retired t)[pos]? = some res)
      (hkeep : ¬ (res.epoch : ℕ∞) < m) :
      Step cfg s (.thread t) (s.goto t (.scan (pos + 1) m))
  /-- It is: the object is passed to the pool. -/
  | scanFree (s : State n Obj Loc) (t : Fin n) (pos : ℕ) (m : ℕ∞) (res : RCUInfo Obj)
      (hpc : s.pc t = .scan pos m) (ho : (s.retired t)[pos]? = some res)
      (hfree : (res.epoch : ℕ∞) < m) :
      Step cfg s (.thread t) ((s.passToPool t pos res.obj).goto t (.scan pos m))
  /-- `empty` and `retire` return. -/
  | scanEnd (s : State n Obj Loc) (t : Fin n) (pos : ℕ) (m : ℕ∞) (hpc : s.pc t = .scan pos m)
      (ho : (s.retired t)[pos]? = none) :
      Step cfg s (.thread t) (s.goto t .idle)

/-- The reclaimer with `n` threads as a transition system. -/
def system [DecidableEq Obj] [DecidableEq Loc] (cfg : Config) : Lts (State n Obj Loc) (Actor n) where
  init s := s = State.initial n Obj Loc
  step := Step cfg

/-- `empty`, run by thread `t`, is about to pass the object to the pool. -/
def PassesToPool (s : State n Obj Loc) (t : Fin n) (res : RCUInfo Obj) : Prop :=
  ∃ pos m, s.pc t = .scan pos m ∧ (s.retired t)[pos]? = some res ∧ (res.epoch : ℕ∞) < m

/-- Nobody holds an object that `empty` is about to pass to the pool. -/
def Safe (s : State n Obj Loc) : Prop :=
  ∀ t res, PassesToPool s t res → ∀ u, s.held u res.obj = false

end IbrRcu
end PopSetbench

import PopSetbench.Reclaim.Debra

/-!
# DEBRA: threads that come and go

`record_manager::initThread` and `deinitThread`, with what `reclaimer_debra.h` does in them. A
thread that begins gets empty bags and a `currentBag`, which is `epochbags[0]`; `opsSinceRead` and
`checked` are reset, `index` and the announced epoch are not. A thread that ends passes all its bags
to the pool; it does so only while every thread is quiescent.

Between the two a thread runs the code of `PopSetbench.Reclaim.Debra`, except that `retire` adds to
`currentBag`, which `rotateEpochBags` sets together with `index`.
-/

namespace PopSetbench
namespace DebraInit

open Function Debra

/-- The state of the reclaimer with `n` threads. -/
structure State (n : ℕ) (Obj : Type) where
  debra : Debra.State n Obj
  /-- `threadData[tid].currentBag`: which of the bags it points to, once it is set. -/
  currentBag : Fin n → Option (Fin 3)
  /-- `init[tid]` of the record manager. -/
  init : Fin n → Bool
  /-- Bookkeeping: how often each thread has rotated its bags. -/
  rotations : Fin n → ℕ
  /-- Bookkeeping: the thread that retired the object. -/
  retiredBy : Obj → Option (Fin n)
  /-- Bookkeeping: how often it had rotated its bags by then. -/
  retireRotation : Obj → ℕ

variable {n : ℕ} {Obj : Type}

namespace State

/-- The state after the constructor. -/
def initial (n : ℕ) (Obj : Type) : State n Obj where
  debra := Debra.State.initial n Obj
  currentBag _ := none
  init _ := false
  rotations _ := 0
  retiredBy _ := none
  retireRotation _ := 0

variable (s : State n Obj)

/-- `initThread`. -/
def initThread (t : Fin n) : State n Obj :=
  { s with
    debra := { s.debra with
      opsSinceRead := update s.debra.opsSinceRead t 0
      checked := update s.debra.checked t 0 }
    currentBag := update s.currentBag t (some 0)
    init := update s.init t true }

/-- `deinitThread`: `addMoveAll` for each bag. -/
def deinitThread [DecidableEq Obj] (t : Fin n) : State n Obj :=
  { s with
    debra := { s.debra with
      epochbags := update s.debra.epochbags t fun _ => []
      life := fun o => if ∃ j, o ∈ s.debra.epochbags t j then .pooled else s.debra.life o }
    init := update s.init t false }

/-- The end of `rotateEpochBags`, which then announces `e`. -/
def rotated (t : Fin n) (e : ℕ) : State n Obj :=
  { s with
    debra := { s.debra.goto t (.announce e) with
      index := update s.debra.index t (s.debra.index t + 1) }
    currentBag := update s.currentBag t (some (s.debra.index t + 1))
    rotations := update s.rotations t (s.rotations t + 1) }

/-- `threadData[tid].currentBag->add(p)`, where `currentBag` is `epochbags[j]`. -/
def retire [DecidableEq Obj] (t : Fin n) (j : Fin 3) (o : Obj) : State n Obj :=
  { s with
    debra := { s.debra.retire t o with
      epochbags := update s.debra.epochbags t
        (update (s.debra.epochbags t) j (s.debra.epochbags t j ++ [o])) }
    retiredBy := update s.retiredBy o (some t)
    retireRotation := update s.retireRotation o (s.rotations t) }

/-- Thread `t` is in no operation. -/
def Quiesces (t : Fin n) : Prop :=
  s.debra.pc t = .idle ∧ quiescent (s.debra.announcedEpoch t) = true

end State

/-- The atomic steps. -/
inductive Step [DecidableEq Obj] (minOpsBeforeRead : ℕ) :
    State n Obj → Actor n → State n Obj → Prop
  | initThread (s : State n Obj) (t : Fin n) (hinit : s.init t = false) :
      Step minOpsBeforeRead s (.thread t) (s.initThread t)
  | deinitThread (s : State n Obj) (t : Fin n) (hinit : s.init t = true)
      (hq : ∀ u, s.Quiesces u) :
      Step minOpsBeforeRead s (.thread t) (s.deinitThread t)
  /-- A step that has nothing to do with the bags. -/
  | other (s : State n Obj) (a : Actor n) (x : Debra.State n Obj)
      (hinit : ∀ t, a = .thread t → s.init t = true) (hstep : Debra.Step minOpsBeforeRead s.debra a x)
      (hbags : x.epochbags = s.debra.epochbags) (hindex : x.index = s.debra.index) :
      Step minOpsBeforeRead s a { s with debra := x }
  /-- `addMoveFullBlocks` removes an object from the bag and deallocates it. -/
  | rotateFree (s : State n Obj) (t : Fin n) (e : ℕ) (rest : List Obj) (o : Obj)
      (hinit : s.init t = true) (hpc : s.debra.pc t = .rotate e)
      (hbag : s.debra.epochbags t (s.debra.index t + 1) = rest ++ [o]) :
      Step minOpsBeforeRead s (.thread t) { s with debra := s.debra.passToPool t rest o }
  /-- The bag is empty and becomes the current one. -/
  | rotateEnd (s : State n Obj) (t : Fin n) (e : ℕ) (hinit : s.init t = true)
      (hpc : s.debra.pc t = .rotate e) (hbag : s.debra.epochbags t (s.debra.index t + 1) = []) :
      Step minOpsBeforeRead s (.thread t) (s.rotated t e)
  | retire (s : State n Obj) (t : Fin n) (o : Obj) (j : Fin 3) (hinit : s.init t = true)
      (hpc : s.debra.pc t = .idle) (ho : s.debra.life o = .unlinked)
      (hbag : s.currentBag t = some j) :
      Step minOpsBeforeRead s (.thread t) (s.retire t j o)

/-- The reclaimer with `n` threads as a transition system. -/
def system [DecidableEq Obj] (minOpsBeforeRead : ℕ) : Lts (State n Obj) (Actor n) where
  init s := s = State.initial n Obj
  step := Step minOpsBeforeRead

/-- The current bag of a thread between `initThread` and `deinitThread` is that of its index. -/
def Current (s : State n Obj) : Prop :=
  ∀ t, s.init t = true → s.currentBag t = some (s.debra.index t)

/-- What a thread passes to the pool in `rotateEpochBags` it has retired itself, two rotations or
more before the one that is going on. -/
def Waited (s : State n Obj) : Prop :=
  ∀ t o, Debra.PassesToPool s.debra t o →
    s.retiredBy o = some t ∧ s.retireRotation o + 2 ≤ s.rotations t

/-- A thread that begins finds the index that the constructor set. -/
def Meets (s : State n Obj) (a : Actor n) : Prop :=
  ∀ t, a = .thread t → s.init t = false → s.debra.index t = 0

end DebraInit
end PopSetbench

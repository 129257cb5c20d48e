import PopSetbench.Ds.Common
import PopSetbench.Library.Monitor

/-!
# The write phase under NBR

A thread that uses `reclaimer_nbr.h` is restartable between `startOp` and `upgradeToWritePhase`:
a signal sends it back to its checkpoint. From there to `endOp` it is not, so what it touches in
this phase it has to have passed to `saveForWritePhase` before. The rule is a monitor
(`Attempt.next`) that keeps track of what the current attempt has saved, and of the nodes the
operation has allocated and not yet linked or has unlinked itself.
-/

namespace PopSetbench

/-- What a step does as far as the write phase is concerned. The node whose field is touched is
`none` where the field belongs to no node. -/
inductive NbrEvent (α : Type)
  /-- `recmgr->startOp`, which clears what was saved. -/
  | startOp
  /-- The signal handler sends the thread back to its checkpoint. -/
  | restart
  /-- `recmgr->saveForWritePhase`; `none` for a pointer that is not the address of a node. -/
  | save (x : Option α)
  /-- `recmgr->upgradeToWritePhase`. -/
  | upgrade
  /-- `recmgr->endOp`. -/
  | endOp
  /-- A node is allocated. -/
  | alloc (a : α)
  /-- A node that was not linked is deallocated. -/
  | dealloc (a : α)
  /-- A field is read. -/
  | read (x : Option α)
  /-- A field is written, locked, or the target of a CAS. -/
  | write (x : Option α)
  /-- A field is written, and this links the node `a`. -/
  | link (x : Option α) (a : α)
  /-- A field is written, and this unlinks the node `y`. -/
  | unlink (x : Option α) (y : α)
  /-- Anything else. -/
  | tau
  deriving DecidableEq

/-- `saveForWritePhase` given this: a pointer with a mark is not the address of a node. -/
def MarkPtr.record {α : Type} (p : MarkPtr α) : Option α :=
  bif p.mark then none else p.ptr

/-- What the rule is about. -/
structure WriteRule (α : Type) where
  /-- Reads count, and not only writes. -/
  reads : Bool
  /-- Nodes that are never freed. -/
  sentinel : α → Bool

/-- What has happened in the current attempt of an operation. -/
structure Attempt (α : Type) where
  /-- The thread is between `upgradeToWritePhase` and `endOp`, or after `endOp` where that counts. -/
  writing : Bool
  /-- The records passed to `saveForWritePhase`. -/
  saved : List α
  /-- The nodes the operation has allocated and not yet linked. -/
  own : List α
  /-- The nodes it has unlinked. -/
  unlinked : List α

namespace Attempt

variable {α : Type}

/-- Before the first operation. -/
def start : Attempt α := ⟨false, [], [], []⟩

variable [DecidableEq α] (R : WriteRule α) (m : Attempt α)

/-- The node may be touched in the write phase. -/
def covers (x : α) : Bool :=
  R.sentinel x || decide (x ∈ m.saved) || decide (x ∈ m.own) || decide (x ∈ m.unlinked)

/-- A field of the node may be touched now. -/
def allows : Option α → Bool
  | none => true
  | some x => !m.writing || m.covers R x

/-- Which events are allowed, and what they change. -/
def next : NbrEvent α → Option (Attempt α)
  | .startOp => some { m with writing := false, saved := [], unlinked := [] }
  | .restart => some { m with writing := false }
  | .save x => some { m with saved := x.toList ++ m.saved }
  | .upgrade => some { m with writing := true }
  | .endOp => some { m with writing := false }
  | .alloc a => some { m with own := a :: m.own }
  | .dealloc a => some { m with own := m.own.filter (· ≠ a) }
  | .read x => if R.reads = true → m.allows R x = true then some m else none
  | .write x => if m.allows R x = true then some m else none
  | .link x a =>
    if m.allows R x = true then some { m with own := m.own.filter (· ≠ a) } else none
  | .unlink x y =>
    if m.allows R x = true then some { m with unlinked := y :: m.unlinked } else none
  | .tau => some m

/-- The same where what comes after `endOp` counts as well: the thread is not restartable there. -/
def nextAfter : NbrEvent α → Option (Attempt α)
  | .endOp => some { m with writing := true }
  | e => m.next R e

variable {R m} {x : Option α} {y : α}

@[simp] theorem allows_none : m.allows R none = true :=
  rfl

theorem allows_of_saved (h : y ∈ m.saved) : m.allows R (some y) = true := by
  simp [allows, covers, h]

theorem allows_of_own (h : y ∈ m.own) : m.allows R (some y) = true := by
  simp [allows, covers, h]

theorem allows_of_sentinel (h : R.sentinel y = true) : m.allows R (some y) = true := by
  simp [allows, covers, h]

theorem allows_of_not_writing (h : m.writing = false) : m.allows R x = true := by
  cases x with
  | none => rfl
  | some y => simp [allows, h]

theorem next_read (h : R.reads = true → m.allows R x = true) : m.next R (.read x) = some m :=
  if_pos h

theorem next_write (h : m.allows R x = true) : m.next R (.write x) = some m :=
  if_pos h

theorem next_link (h : m.allows R x = true) :
    m.next R (.link x y) = some { m with own := m.own.filter (· ≠ y) } :=
  if_pos h

theorem next_unlink (h : m.allows R x = true) :
    m.next R (.unlink x y) = some { m with unlinked := y :: m.unlinked } :=
  if_pos h

end Attempt

/-- A transition system, with a monitor of the write phases of each thread. -/
def writePhases {σ ι α : Type} [DecidableEq ι] [DecidableEq α] (R : WriteRule α)
    (M : Lts σ (ι × NbrEvent α)) : Lts (σ × (ι → Option (Attempt α))) (ι × NbrEvent α) :=
  M.monitored (Attempt.next R) .start

/-- A transition system, with a monitor of all that each thread does while it is not restartable. -/
def unrestartable {σ ι α : Type} [DecidableEq ι] [DecidableEq α] (R : WriteRule α)
    (M : Lts σ (ι × NbrEvent α)) : Lts (σ × (ι → Option (Attempt α))) (ι × NbrEvent α) :=
  M.monitored (Attempt.nextAfter R) .start

end PopSetbench

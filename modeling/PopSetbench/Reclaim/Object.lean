import Mathlib.Algebra.GroupWithZero.Nat
import Mathlib.Data.Fin.Basic
import Mathlib.Data.Nat.Notation
import PopSetbench.Library.Custody
import PopSetbench.Library.Rows

/-!
# Objects and shared pointers

What every reclaimer of this development manages: objects that a data structure links and
unlinks, and the shared locations from which threads read pointers to them.

The `Life` of an object is bookkeeping that no code reads. The data structure moves an
object from the pool into the structure and unlinks it; `retire` is called on an unlinked
object, and the reclaimer passes it back to the pool.
-/

namespace PopSetbench

/-! `0` as a mark, and as a reservation of a thread or an epoch bag. -/

instance neZero_four : NeZero 4 := ⟨by decide⟩
instance neZero_three : NeZero 3 := ⟨by decide⟩

/-- A shared pointer: the address and the two low bits, which the data structures use as
marks. `(T*)((size_t)ret & 0xfffffffffffffffc)` is `obj`. -/
structure Ptr (Obj : Type) where
  /-- The object, or `NULL`. -/
  obj : Option Obj
  /-- The low bits. -/
  mark : Fin 4
  deriving DecidableEq

/-- `NUM_POPHP`, also `slotsPerThread`: the reservations of a thread. -/
abbrev slotsPerThread : ℕ := 3

/-- `MAX_RETIREBAG_CAPACITY_POW2`. -/
def maxRetirebagCapacityPow2 : ℕ := 24576

/-- `setLoWmMetaData`: the attempt frequency chosen for `rand() % 11`, a percentage of the
bag capacity truncated to an integer. -/
def attemptFreq (rand : Fin 11) : ℕ :=
  if rand.val = 0 then maxRetirebagCapacityPow2 / 100
  else rand.val * 5 * maxRetirebagCapacityPow2 / 100

/-- Who takes a step. -/
inductive Actor (n : ℕ)
  /-- The data structure changes its links. -/
  | env
  /-- Thread `t` runs its own code. -/
  | thread (t : Fin n)
  /-- The signal handler of thread `t` runs. -/
  | handler (t : Fin n)
  deriving DecidableEq

/-- How a reclaimer goes on in a run that is computed. -/
inductive Move (n : ℕ) (Obj : Type)
  /-- Thread `t` goes on in the code of the reclaimer. -/
  | thread (t : Fin n)
  /-- Thread `t` allocates. -/
  | alloc (t : Fin n)
  /-- An object is linked. -/
  | link (o : Obj)
  /-- An object is unlinked. -/
  | unlink (o : Obj)

end PopSetbench

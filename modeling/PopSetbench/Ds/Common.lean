import PopSetbench.Library.Grace
import PopSetbench.Library.Interval
import Mathlib.Order.Basic

/-!
# What the data structures share

The sets of the benchmark offer `contains`, `insertIfAbsent` and `erase` on keys strictly between
two sentinel keys. This file holds their calls and results, the events their steps are labelled
with, pointers that carry a mark, and what it means that a result is explained by the contents of
the set at a moment of the call.
-/

namespace PopSetbench

/-- The sentinel keys of the small instances that runs are shown for. -/
theorem zero_lt_hundred : (0 : ℕ) < 100 := by decide

/-- A call of an operation. -/
inductive Op (K V : Type)
  /-- `contains(tid, key)`. -/
  | contains (key : K)
  /-- `insertIfAbsent(tid, key, val)`. -/
  | insert (key : K) (val : V)
  /-- `erase(tid, key)`. -/
  | erase (key : K)
  deriving DecidableEq

/-- The key of a call. -/
def Op.key {K V : Type} : Op K V → K
  | .contains key => key
  | .insert key _ => key
  | .erase key => key

/-- A result. -/
inductive Ret (V : Type)
  /-- A truth value, from `contains`. -/
  | bool (b : Bool)
  /-- A value, from `insertIfAbsent` and `erase`; `none` is `NO_VALUE`, which no node stores. -/
  | value (v : Option V)
  deriving DecidableEq

/-- What a step does as far as the outside and the reclaimer are concerned. -/
inductive Event (α K V : Type)
  /-- An operation is called. -/
  | invoke (op : Op K V)
  /-- `recmgr->startOp`. -/
  | startOp
  /-- `recmgr->endOp`. -/
  | endOp
  /-- A field of a node is read or the target of a CAS. -/
  | access (x : α)
  /-- `recmgr->retire`. -/
  | retire (x : α)
  /-- The operation returns. -/
  | ret (op : Op K V) (r : Ret V)
  /-- Anything else. -/
  | tau
  deriving DecidableEq

/-- How a thread goes on in a run that is computed. -/
inductive Choice (α K V : Type)
  /-- It calls an operation. -/
  | invoke (op : Op K V)
  /-- It gets this node from the allocator. -/
  | alloc (x : α)
  /-- It makes its next step. -/
  | go

namespace Choice

variable {ι α K V : Type}

/-- Thread `t` makes `k` steps. -/
def steps (t : ι) (k : ℕ) : List (ι × Choice α K V) := List.replicate k (t, .go)

/-- Thread `t` calls an operation and makes `k` steps. -/
def call (t : ι) (op : Op K V) (k : ℕ) : List (ι × Choice α K V) := (t, .invoke op) :: steps t k

/-- Thread `t` gets the node `x` and makes `k` steps. -/
def node (t : ι) (x : α) (k : ℕ) : List (ι × Choice α K V) := (t, .alloc x) :: steps t k

end Choice

/-- What a step does, with other names for the nodes. -/
def Event.map {α β K V : Type} (f : β → α) : Event β K V → Event α K V
  | .invoke op => .invoke op
  | .startOp => .startOp
  | .endOp => .endOp
  | .access x => .access (f x)
  | .retire x => .retire (f x)
  | .ret op r => .ret op r
  | .tau => .tau

/-- What the reclaimer is told. -/
def Event.graceCall? {α K V : Type} : Event α K V → Option (GraceCall α)
  | .startOp => some .startOp
  | .endOp => some .endOp
  | .retire x => some (.retire x)
  | _ => none

theorem Event.eq_startOp {α K V : Type} {e : Event α K V} (h : e.graceCall? = some .startOp) :
    e = .startOp := by
  cases e with
  | startOp => rfl
  | _ => cases h

theorem Event.eq_retire {α K V : Type} {e : Event α K V} {x : α}
    (h : e.graceCall? = some (.retire x)) : e = .retire x := by
  cases e with
  | retire y =>
    obtain rfl := GraceCall.retire.inj (Option.some.inj h)
    rfl
  | _ => cases h

/-- A `nodeptr` whose lowest bit is a mark. -/
structure MarkPtr (α : Type) where
  /-- `getPtr`; `none` is `nullptr`. -/
  ptr : Option α
  /-- `getMk`. -/
  mark : Bool
  deriving DecidableEq

/-- A step labelled with this is a call by thread `t`. -/
def invokedBy {ι α K V : Type} [DecidableEq ι] (t : ι) : ι × Event α K V → Bool
  | (t', .invoke _) => t' = t
  | _ => false

/-- The result of a call of thread `t` is explained by the interval `H` of the call. `holds s k w`
says that in state `s` the set contains the key `k` with the value observed as `w`. Calls that
change the set do so in one step of their own. -/
def Explained {σ ι α K V W : Type} (holds : σ → K → W → Prop) (obs : V → W) (t : ι)
    (H : List (σ × (ι × Event α K V) × σ)) : Op K V → Ret V → Prop
  | .contains k, .bool true => Sometime (fun s => ∃ w, holds s k w) H
  | .contains k, .bool false => Sometime (fun s => ∀ w, ¬ holds s k w) H
  | .insert k v, .value none =>
    Atomically (fun s a s' => a.1 = t ∧ (∀ w, ¬ holds s k w) ∧
      ∀ k' w, holds s' k' w ↔ holds s k' w ∨ (k' = k ∧ w = obs v)) H
  | .insert k _, .value (some v) => Sometime (fun s => holds s k (obs v)) H
  | .erase k, .value none => Sometime (fun s => ∀ w, ¬ holds s k w) H
  | .erase k, .value (some v) =>
    Atomically (fun s a s' => a.1 = t ∧ holds s k (obs v) ∧
      ∀ k' w, holds s' k' w ↔ holds s k' w ∧ k' ≠ k) H
  | _, _ => False

section Explained

variable {σ ι α K V W : Type} {holds : σ → K → W → Prop} {obs : V → W} {t : ι}
  {H : List (σ × (ι × Event α K V) × σ)} {s s' : σ} {e : Event α K V} {k : K} {v : V}

/-- A step that adds the key explains a successful insertion. -/
theorem Explained.insert_now (habs : ∀ w, ¬ holds s k w)
    (hadd : ∀ k' w, holds s' k' w ↔ holds s k' w ∨ (k' = k ∧ w = obs v)) :
    Explained holds obs t ((s, (t, e), s') :: H) (.insert k v) (.value none) :=
  ⟨_, List.mem_cons_self, rfl, habs, hadd⟩

/-- A step that removes the key explains a successful deletion. -/
theorem Explained.erase_now (hin : holds s k (obs v))
    (hrem : ∀ k' w, holds s' k' w ↔ holds s k' w ∧ k' ≠ k) :
    Explained holds obs t ((s, (t, e), s') :: H) (.erase k) (.value (some v)) :=
  ⟨_, List.mem_cons_self, rfl, hin, hrem⟩

/-- What explains a result of a call so far explains it later in the call. -/
theorem Explained.cons {a : σ × (ι × Event α K V) × σ} {op : Op K V} {r : Ret V}
    (h : Explained holds obs t H op r) : Explained holds obs t (a :: H) op r := by
  unfold Explained at *
  split at h
  all_goals first
    | exact Sometime.cons h
    | exact Atomically.cons h
    | exact h

end Explained

end PopSetbench

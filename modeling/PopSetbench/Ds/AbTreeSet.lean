import PopSetbench.Ds.AbTreePairs
import PopSetbench.Ds.AbTreeSteps
import PopSetbench.Ds.Common

/-!
# The relaxed (a,b)-tree as a set

The operations of the benchmark on the tree of `AbTreeSteps.lean`, by any number of threads, from
their calls to their returns. `contains` is `find`, which the updates do not know of: it goes from
the entry node to a leaf, and reads one child pointer in each step.

An update has its result when it has found the key, or not found it, and when its `scxExecute`
succeeds; it does the repairs then, and returns only after them. A repair may run into the fault of
`AbTreeSteps.lean`, and the run is over then.

Nodes are not freed here, so that `startOp` and `endOp` are left out.
-/

namespace PopSetbench
namespace AbTreeSet

open Function
open AbTree (World Act Goal Cursor Task Frame Node getChildIndex getKeyIndex pairAt insertStep
  eraseStep)

variable {m : ℕ} {K V : Type}

/-- Where a thread is in an operation. -/
inductive Pc (K V : Type)
  /-- Between two operations. -/
  | idle
  /-- `find`: `l`, and none before it has read the child of the entry node. -/
  | find (key : K) (l : Option ℕ)
  /-- In an update; its result, if it has one. -/
  | update (op : Op K V) (r : Option (Ret V))
  /-- About to return. -/
  | ret (op : Op K V) (r : Ret V)
  deriving DecidableEq

/-- The tree with its memory, and the threads. -/
structure State (m : ℕ) (K V : Type) where
  world : World m K V
  pc : Fin m → Pc K V

namespace State

variable (s : State m K V)

/-- Thread `t` goes on at `p`. -/
def goto (t : Fin m) (p : Pc K V) : State m K V :=
  { s with pc := update s.pc t p }

/-- Thread `t` makes a step in the tree, and goes on at `p`. -/
def move (t : Fin m) (w : World m K V) (p : Pc K V) : State m K V where
  world := w
  pc := update s.pc t p

variable {s} {t q : Fin m} {p : Pc K V} {w : World m K V}

@[simp] theorem goto_pc_self : (s.goto t p).pc t = p :=
  update_self ..

@[simp] theorem move_pc_self : (s.move t w p).pc t = p :=
  update_self ..

end State

/-- A step that leaves the pairs as they are. -/
def Repairs : Act K V → Prop
  | .insert .. | .erase _ => False
  | _ => True

/-- The atomic steps of thread `t`. -/
inductive Step [LinearOrder K] (degree : ℕ) (s : State m K V) (t : Fin m) :
    Event ℕ K V → State m K V → Prop
  /-- `contains(tid, key)` is called. -/
  | invokeContains (key : K) (hpc : s.pc t = .idle) :
      Step degree s t (.invoke (.contains key)) (s.goto t (.find key none))
  /-- `find`: `l = entry->ptrs[0]`. -/
  | findEntry (key : K) (hpc : s.pc t = .find key none) :
      Step degree s t .tau (s.goto t (.find key (some s.world.tree.root.ptr)))
  /-- `find`: `l = l->ptrs[ix]`. -/
  | findChild (key : K) (l ptr : ℕ) (searchKey : K) (weight : Bool) (keys : List K)
      (ptrs : List (Node K V)) (child : Node K V) (hpc : s.pc t = .find key (some l))
      (hl : s.world.node l = some (.internal ptr searchKey weight keys ptrs))
      (hchild : ptrs[getChildIndex key keys]? = some child) :
      Step degree s t (.access l) (s.goto t (.find key (some child.ptr)))
  /-- `find`: `l` is a leaf. -/
  | findLeaf (key : K) (l ptr : ℕ) (searchKey : K) (weight : Bool) (entries : List (K × V))
      (hpc : s.pc t = .find key (some l))
      (hl : s.world.node l = some (.leaf ptr searchKey weight entries)) :
      Step degree s t (.access l) (s.goto t (.ret (.contains key)
        (.bool (pairAt entries (getKeyIndex key (entries.map Prod.fst)) key).isSome)))
  /-- `insertIfAbsent(tid, key, value)` is called. -/
  | invokeInsert (key : K) (value : V) (hpc : s.pc t = .idle) (htodo : s.world.todo t = []) :
      Step degree s t (.invoke (.insert key value))
        (s.move t (s.world.goto t [.loop (.insert key value false)])
          (.update (.insert key value) none))
  /-- `erase(tid, key)` is called. -/
  | invokeErase (key : K) (hpc : s.pc t = .idle) (htodo : s.world.todo t = []) :
      Step degree s t (.invoke (.erase key))
        (s.move t (s.world.goto t [.loop (.erase key)]) (.update (.erase key) none))
  /-- A step of a search or of a repair, or a fault. -/
  | work (op : Op K V) (r : Option (Ret V)) (act : Act K V) (w : World m K V)
      (hpc : s.pc t = .update op r) (htodo : s.world.todo t ≠ [])
      (hs : AbTree.Step degree s.world t act w) (hact : Repairs act)
      (hr : r = none → w.todo t ≠ []) :
      Step degree s t .tau (s.move t w (.update op r))
  /-- `doInsert` finds the key. -/
  | found (key : K) (value : V) (k : K) (c : Cursor) (rest : List (Task K V)) (ptr : ℕ)
      (searchKey : K) (weight : Bool) (entries : List (K × V)) (e : K × V)
      (hpc : s.pc t = .update (.insert key value) none)
      (htodo : s.world.todo t = .search (.insert key value false) k c :: rest)
      (hl : s.world.node c.l = some (.leaf ptr searchKey weight entries))
      (hpair : pairAt entries (getKeyIndex key (entries.map Prod.fst)) key = some e) :
      Step degree s t (.access c.l)
        (s.move t (s.world.goto t rest) (.update (.insert key value) (some (.value (some e.2)))))
  /-- `erase` does not find the key. -/
  | missing (key k : K) (c : Cursor) (rest : List (Task K V)) (ptr : ℕ) (searchKey : K)
      (weight : Bool) (entries : List (K × V)) (hpc : s.pc t = .update (.erase key) none)
      (htodo : s.world.todo t = .search (.erase key) k c :: rest)
      (hl : s.world.node c.l = some (.leaf ptr searchKey weight entries))
      (hpair : pairAt entries (getKeyIndex key (entries.map Prod.fst)) key = none) :
      Step degree s t (.access c.l)
        (s.move t (s.world.goto t rest) (.update (.erase key) (some (.value none))))
  /-- The `scxExecute` of `doInsert`. -/
  | insertScx (key : K) (value : V) (k : K) (c : Cursor) (rest : List (Task K V))
      (path : List (Frame K V)) (ptr : ℕ) (searchKey : K) (weight : Bool) (entries : List (K × V))
      (tree : AbTree.State K V) (task : Task K V)
      (hpc : s.pc t = .update (.insert key value) none)
      (htodo : s.world.todo t = .search (.insert key value false) k c :: rest)
      (hat : s.world.At c path (.leaf ptr searchKey weight entries))
      (hstep : insertStep degree s.world.tree path searchKey weight entries key value false =
        some (tree, task)) :
      Step degree s t .tau (s.move t (s.world.commit t tree (task :: rest))
        (.update (.insert key value) (some (.value none))))
  /-- The `scxExecute` of `erase`. -/
  | eraseScx (key k : K) (c : Cursor) (rest : List (Task K V)) (path : List (Frame K V)) (ptr : ℕ)
      (searchKey : K) (weight : Bool) (entries : List (K × V)) (tree : AbTree.State K V)
      (task : Task K V) (e : K × V) (hpc : s.pc t = .update (.erase key) none)
      (htodo : s.world.todo t = .search (.erase key) k c :: rest)
      (hat : s.world.At c path (.leaf ptr searchKey weight entries))
      (hpair : pairAt entries (getKeyIndex key (entries.map Prod.fst)) key = some e)
      (hstep : eraseStep s.world.tree path entries key = some (tree, task)) :
      Step degree s t .tau (s.move t (s.world.commit t tree (task :: rest))
        (.update (.erase key) (some (.value (some e.2)))))
  /-- The repairs are done. -/
  | finish (op : Op K V) (r : Ret V) (hpc : s.pc t = .update op (some r))
      (htodo : s.world.todo t = []) : Step degree s t .tau (s.goto t (.ret op r))
  /-- `return`. -/
  | ret (op : Op K V) (r : Ret V) (hpc : s.pc t = .ret op r) :
      Step degree s t (.ret op r) (s.goto t .idle)

/-- The tree, used as a set by `m` threads, up to the first fault. -/
def lts (m : ℕ) (K V : Type) [LinearOrder K] (degree : ℕ) :
    Lts (State m K V) (Fin m × Event ℕ K V) where
  init s := (∃ anyKey, s.world = World.init anyKey) ∧ ∀ t, s.pc t = .idle
  step s a s' := s.world.faulted = false ∧ Step degree s a.1 a.2 s'

/-- The pairs of the tree. -/
def Contents (s : State m K V) (key : K) (value : V) : Prop :=
  (key, value) ∈ s.world.tree.root.pairs

end AbTreeSet
end PopSetbench

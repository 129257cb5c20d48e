import PopSetbench.Ds.AbTree
import PopSetbench.Library.Run
import Mathlib.Logic.Function.Basic

/-!
# The relaxed (a,b)-tree, many threads

The tree of `AbTree.lean` under any interleaving. A successful `scxExecute` is one step: the nodes
that it depends on are in the tree then, as they were when `llx` has read them. All other steps are
those of searches, which read one child pointer each, and of the repairs on their way to the next
one. A `scxExecute` or `llx` that does not succeed goes back to the beginning of the loop.

* `World.node` is the memory: what stands at an address, or stood there when the node was removed.
  The nodes are not handed out again while somebody may come to them.
* `Task` is what a thread has still to do. The repairs call each other, so that it is a stack.
* `Act` tells the steps apart that change the tree.

A repair of a node's size reads the sibling at `ixToS`. If there is no child at this index it reads
what stands behind the children, and goes on with that. This is the step `degreeMissing`, a fault:
nothing can be said of what comes after it, so that a run ends there. What is shown for every run is
shown up to its fault.
-/

namespace PopSetbench
namespace AbTree

open Function

variable {n : ℕ} {K V : Type}

/-! ### The memory -/

mutual

/-- The node at the address, if it is in the subtree. -/
def Node.find? (x : ℕ) : Node K V → Option (Node K V)
  | .leaf ptr searchKey weight entries =>
    if ptr = x then some (.leaf ptr searchKey weight entries) else none
  | .internal ptr searchKey weight keys ptrs =>
    if ptr = x then some (.internal ptr searchKey weight keys ptrs) else findIn x ptrs

/-- The same for the children of a node. -/
def findIn (x : ℕ) : List (Node K V) → Option (Node K V)
  | [] => none
  | c :: cs => (c.find? x).or (findIn x cs)

end

/-- The address of the node that the path ends with, which may be the entry node. -/
def parent : List (Frame K V) → ℕ
  | [] => entry
  | p :: _ => p.ptr

/-- The index of the child that the path goes to. -/
def index : List (Frame K V) → ℕ
  | [] => 0
  | p :: _ => p.ix

/-! ### What a thread does -/

/-- What a search is for. -/
inductive Goal (K V : Type)
  | insert (key : K) (value : V) (replace : Bool)
  | erase (key : K)
  /-- A repair of the weight of a node. -/
  | weight (viol : ℕ)
  /-- A repair of the size of a node. -/
  | degree (viol : ℕ)

/-- The node at which the search ends, besides leaves. -/
def Goal.stop : Goal K V → Option ℕ
  | .insert .. | .erase _ => none
  | .weight viol | .degree viol => some viol

/-- The variables of a search. -/
structure Cursor where
  /-- `gp` and `ixToP`, unless `gp` is null. -/
  gp : Option (ℕ × ℕ)
  p : ℕ
  l : ℕ
  ixToL : ℕ

/-- The index of the sibling of `l` that a degree repair takes. -/
def Cursor.ixToS (c : Cursor) : ℕ := if 0 < c.ixToL then c.ixToL - 1 else 1

/-- What a thread has still to do. -/
inductive Task (K V : Type)
  | fixWeightViolation (viol : ℕ)
  | fixDegreeViolation (viol : ℕ)
  /-- A repair is about to look whether the node is finalized. -/
  | llx (goal : Goal K V)
  /-- The beginning of the loop. -/
  | loop (goal : Goal K V)
  | search (goal : Goal K V) (k : K) (c : Cursor)

/-- The tree, the memory and the threads. -/
structure World (n : ℕ) (K V : Type) where
  tree : State K V
  node : ℕ → Option (Node K V)
  todo : Fin n → List (Task K V)
  /-- A thread has gone on with a pointer that is not a child. -/
  faulted : Bool

namespace World

/-- Behind the constructor. -/
def init (anyKey : K) : World n K V where
  tree := State.init anyKey
  node x := (State.init anyKey : State K V).root.find? x
  todo _ := []
  faulted := false

/-- Thread `t` goes on with the tasks. -/
def goto (w : World n K V) (t : Fin n) (tasks : List (Task K V)) : World n K V :=
  { w with todo := update w.todo t tasks }

/-- A `scxExecute` of thread `t` succeeds. -/
def commit (w : World n K V) (t : Fin n) (tree : State K V) (tasks : List (Task K V)) :
    World n K V where
  tree := tree
  node x := (tree.root.find? x).or (w.node x)
  todo := update w.todo t tasks
  faulted := w.faulted

/-- The run is over. -/
def fault (w : World n K V) : World n K V := { w with faulted := true }

/-- The key that is searched for. A repair reads it from the node. -/
def key (w : World n K V) : Goal K V → Option K
  | .insert key .. | .erase key => some key
  | .weight viol | .degree viol => (w.node viol).map Node.searchKey

/-- The search is over. -/
def Ended (w : World n K V) (goal : Goal K V) (c : Cursor) : Prop :=
  goal.stop = some c.l ∨ ∃ l, w.node c.l = some l ∧ l.isLeaf = true

/-- `p` and `l` are as the search has found them: `p` is in the tree, and `l` its child. -/
structure At (w : World n K V) (c : Cursor) (path : List (Frame K V)) (l : Node K V) : Prop where
  root : w.tree.root = plug path l
  l : l.ptr = c.l
  p : parent path = c.p
  ixToL : index path = c.ixToL

end World

/-- The `scxExecute` of `doInsert`: the state, and the repair that follows. -/
def insertStep [LinearOrder K] (degree : ℕ) (s : State K V) (path : List (Frame K V))
    (searchKey : K) (weight : Bool) (entries : List (K × V)) (key : K) (value : V)
    (replace : Bool) : Option (State K V × Task K V) :=
  let keyIndex := getKeyIndex key (entries.map Prod.fst)
  match pairAt entries keyIndex key with
  | some (k, _) =>
    if replace then
      let n := .leaf s.next searchKey true (entries.set keyIndex (k, value))
      some (s.scxExecute path n 1 [], .fixDegreeViolation s.next)
    else none
  | none =>
    if entries.length < degree then
      let n := .leaf s.next searchKey weight (entries.insertIdx keyIndex (key, value))
      some (s.scxExecute path n 1 [], .fixDegreeViolation s.next)
    else do
      let n ← overflow degree s.next path.isEmpty (entries.insertIdx keyIndex (key, value))
      some (s.scxExecute path n 3 [], .fixWeightViolation n.ptr)

/-- The `scxExecute` of `erase`. -/
def eraseStep [LinearOrder K] (s : State K V) (path : List (Frame K V)) (entries : List (K × V))
    (key : K) : Option (State K V × Task K V) :=
  let keyIndex := getKeyIndex key (entries.map Prod.fst)
  match pairAt entries keyIndex key with
  | none => none
  | some _ => do
    let (first, _) ← entries[0]?
    let n := .leaf s.next first true (entries.eraseIdx keyIndex)
    some (s.scxExecute path n 1 [], .fixDegreeViolation s.next)

/-- The calls of `fixWeightViolation` for those of the nodes whose weight is zero. -/
def weightCalls (nodes : List (Node K V)) : List (Task K V) :=
  (nodes.filter fun c => !c.weight).map fun c => .fixWeightViolation c.ptr

/-- What a step does to the tree. -/
inductive Act (K V : Type)
  /-- It leaves the tree as it is. -/
  | silent
  | insert (key : K) (value : V)
  | erase (key : K)
  /-- Absorb or Split, at a child of `p`. -/
  | weight (p : Frame K V) (path : List (Frame K V)) (l : Node K V)
  /-- AbsorbSibling or Distribute, at a child of `p` and its sibling. -/
  | degree (p : Frame K V) (path : List (Frame K V)) (l sibling : Node K V)
  /-- A pointer is read that is not a child. -/
  | fault

section Steps

variable [LinearOrder K] (degree : ℕ)

/-- The steps of thread `t`. -/
inductive Step (w : World n K V) (t : Fin n) : Act K V → World n K V → Prop
  /-- A call of `insert` or of `insertIfAbsent`. -/
  | insert (key : K) (value : V) (replace : Bool) (htodo : w.todo t = []) :
      Step w t .silent (w.goto t [.loop (.insert key value replace)])
  /-- A call of `erase`. -/
  | erase (key : K) (htodo : w.todo t = []) :
      Step w t .silent (w.goto t [.loop (.erase key)])
  /-- A search begins at the entry node. -/
  | start {goal k rest} (htodo : w.todo t = .loop goal :: rest) (hk : w.key goal = some k) :
      Step w t .silent
        (w.goto t (.search goal k ⟨none, entry, w.tree.root.ptr, 0⟩ :: rest))
  /-- It goes on to a child. -/
  | advance {goal k c rest ptr searchKey weight keys ptrs child}
      (htodo : w.todo t = .search goal k c :: rest)
      (hl : w.node c.l = some (.internal ptr searchKey weight keys ptrs))
      (hstop : goal.stop ≠ some c.l) (hchild : ptrs[getChildIndex k keys]? = some child) :
      Step w t .silent (w.goto t
        (.search goal k ⟨some (c.p, c.ixToL), c.l, child.ptr, getChildIndex k keys⟩ :: rest))
  /-- A `llx` or the `scxExecute` behind the search does not succeed. -/
  | retry {goal k c rest} (htodo : w.todo t = .search goal k c :: rest) (hend : w.Ended goal c) :
      Step w t .silent (w.goto t (.loop goal :: rest))
  /-- `insertIfAbsent` finds the key. -/
  | found {key value k c rest ptr searchKey weight entries e}
      (htodo : w.todo t = .search (.insert key value false) k c :: rest)
      (hl : w.node c.l = some (.leaf ptr searchKey weight entries))
      (hpair : pairAt entries (getKeyIndex key (entries.map Prod.fst)) key = some e) :
      Step w t .silent (w.goto t rest)
  /-- `erase` does not find the key. -/
  | missing {key k c rest ptr searchKey weight entries}
      (htodo : w.todo t = .search (.erase key) k c :: rest)
      (hl : w.node c.l = some (.leaf ptr searchKey weight entries))
      (hpair : pairAt entries (getKeyIndex key (entries.map Prod.fst)) key = none) :
      Step w t .silent (w.goto t rest)
  /-- The `scxExecute` of `doInsert`. -/
  | insertScx {key value replace k c rest path ptr searchKey weight entries tree task}
      (htodo : w.todo t = .search (.insert key value replace) k c :: rest)
      (hat : w.At c path (.leaf ptr searchKey weight entries))
      (hstep : insertStep degree w.tree path searchKey weight entries key value replace =
        some (tree, task)) :
      Step w t (.insert key value) (w.commit t tree (task :: rest))
  /-- The `scxExecute` of `erase`. -/
  | eraseScx {key k c rest path ptr searchKey weight entries tree task}
      (htodo : w.todo t = .search (.erase key) k c :: rest)
      (hat : w.At c path (.leaf ptr searchKey weight entries))
      (hstep : eraseStep w.tree path entries key = some (tree, task)) :
      Step w t (.erase key) (w.commit t tree (task :: rest))
  /-- `fixWeightViolation` returns. -/
  | fixWeightReturn {viol v rest} (htodo : w.todo t = .fixWeightViolation viol :: rest)
      (hv : w.node viol = some v) (hweight : v.weight = true) :
      Step w t .silent (w.goto t rest)
  /-- It goes on. -/
  | fixWeight {viol v rest} (htodo : w.todo t = .fixWeightViolation viol :: rest)
      (hv : w.node viol = some v) (hweight : v.weight = false) :
      Step w t .silent (w.goto t (.llx (.weight viol) :: rest))
  /-- `fixDegreeViolation` returns. -/
  | fixDegreeReturn {viol v rest} (htodo : w.todo t = .fixDegreeViolation viol :: rest)
      (hv : w.node viol = some v)
      (hsize : minDegree degree ≤ v.getABDegree ∨ viol = entry ∨ viol = w.tree.root.ptr) :
      Step w t .silent (w.goto t rest)
  /-- It goes on. -/
  | fixDegree {viol v rest} (htodo : w.todo t = .fixDegreeViolation viol :: rest)
      (hv : w.node viol = some v)
      (hsize : ¬ (minDegree degree ≤ v.getABDegree ∨ viol = entry ∨ viol = w.tree.root.ptr)) :
      Step w t .silent (w.goto t (.llx (.degree viol) :: rest))
  /-- The node is finalized. -/
  | llxFinalized {goal viol rest} (htodo : w.todo t = .llx goal :: rest)
      (hstop : goal.stop = some viol) (hfin : viol ∈ w.tree.finalized) :
      Step w t .silent (w.goto t rest)
  /-- It is not. -/
  | llx {goal viol rest} (htodo : w.todo t = .llx goal :: rest)
      (hstop : goal.stop = some viol) (hfin : viol ∉ w.tree.finalized) :
      Step w t .silent (w.goto t (.loop goal :: rest))
  /-- A repair has not found its node. -/
  | handOver {goal viol k c rest} (htodo : w.todo t = .search goal k c :: rest)
      (hstop : goal.stop = some viol) (hend : w.Ended goal c) (hne : c.l ≠ viol) :
      Step w t .silent (w.goto t rest)
  /-- The parent of a node of weight zero has a weight of zero. -/
  | weightParent {k c rest p} (htodo : w.todo t = .search (.weight c.l) k c :: rest)
      (hp : w.node c.p = some p) (hweight : p.weight = false) :
      Step w t .silent
        (w.goto t (.fixWeightViolation c.p :: .loop (.weight c.l) :: rest))
  /-- Absorb or Split. -/
  | weightScx {k c rest p path l tree n zero}
      (htodo : w.todo t = .search (.weight c.l) k c :: rest) (hat : w.At c (p :: path) l)
      (hgp : c.gp = some (parent path, index path)) (hweight : p.weight = true)
      (hstep : weightStep degree w.tree p path l = some (tree, n, zero)) :
      Step w t (.weight p path l) (w.commit t tree
        ((if zero then [.fixWeightViolation n.ptr] else []) ++ .fixDegreeViolation n.ptr :: rest))
  /-- A node at which a size is to be repaired, its parent or its sibling has a weight of zero. -/
  | degreeWeights {k c rest ptr searchKey weight keys ptrs l sibling}
      (htodo : w.todo t = .search (.degree c.l) k c :: rest)
      (hp : w.node c.p = some (.internal ptr searchKey weight keys ptrs))
      (hl : w.node c.l = some l) (hs : ptrs[c.ixToS]? = some sibling)
      (hweight : ¬ (weight = true ∧ l.weight = true ∧ sibling.weight = true)) :
      Step w t .silent (w.goto t
        (weightCalls [.internal ptr searchKey weight keys ptrs, l, sibling] ++
          .loop (.degree c.l) :: rest))
  /-- There is no child at `ixToS`: what is read there is not a sibling. -/
  | degreeMissing {k c rest ptr searchKey weight keys ptrs}
      (htodo : w.todo t = .search (.degree c.l) k c :: rest)
      (hp : w.node c.p = some (.internal ptr searchKey weight keys ptrs))
      (hs : ptrs[c.ixToS]? = none) : Step w t .fault w.fault
  /-- AbsorbSibling or Distribute. -/
  | degreeScx {k c rest p path l sibling tree new}
      (htodo : w.todo t = .search (.degree c.l) k c :: rest) (hat : w.At c (p :: path) l)
      (hgp : c.gp = some (parent path, index path)) (hs : (p.ptrs l)[p.ixToS]? = some sibling)
      (hweight : p.weight = true ∧ l.weight = true ∧ sibling.weight = true)
      (hstep : degreeStep degree w.tree p path l sibling = some (tree, new)) :
      Step w t (.degree p path l sibling)
        (w.commit t tree (new.map (fun c => .fixDegreeViolation c.ptr) ++ rest))

/-- The tree with `n` threads, up to the first fault. -/
def system (n : ℕ) (K V : Type) [LinearOrder K] (degree : ℕ) :
    Lts (World n K V) (Fin n × Act K V) where
  init w := ∃ anyKey, w = World.init anyKey
  step w a w' := w.faulted = false ∧ Step degree w a.1 a.2 w'

end Steps

end AbTree
end PopSetbench

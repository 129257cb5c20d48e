import PopSetbench.Library.Fuel
import Mathlib.Data.List.Basic
import Mathlib.Order.Basic

/-!
# The relaxed (a,b)-tree, one thread

`brown_ext_abtree_lf` keeps a tree whose internal nodes have up to `DEGREE` children and whose
leaves have up to `DEGREE` pairs. An update puts a new node in the place of a leaf; what is wrong
with the new node, a weight of zero or too small a size, is repaired afterwards by
`fixWeightViolation` and `fixDegreeViolation`, which call each other.

The model is of calls that one thread makes one after the other. Then `llx` fails for no node of the
tree, and `scxExecute` does not fail. The fields of a node that the repairs read are written once,
before the node is linked, so a node is a value here, with its address in `ptr`; `scxExecute` is the
only store to a child pointer. A node that is retired during a call is not handed out again before
the call has ended, and addresses are compared within a call only: so they are not handed out twice.

* `Node` and `Frame` are a subtree and a node on the path to it, the child on the path left out.
* `search` is the loop that the operations and the repairs start with. What it returns stands for
  `l`, `p`, `gp`, `ixToL` and `ixToP`.
* `none` is a call that has no fuel left, that reads a key or a child that is not there, or that
  violates an assertion of the source.
-/

namespace PopSetbench
namespace AbTree

variable {K V : Type}

/-- `Node`, a leaf or an internal node. A leaf has as many values as keys, an internal node one
child more; `size` is the number of values or children. -/
inductive Node (K V : Type)
  | leaf (ptr : ℕ) (searchKey : K) (weight : Bool) (entries : List (K × V))
  | internal (ptr : ℕ) (searchKey : K) (weight : Bool) (keys : List K) (ptrs : List (Node K V))

namespace Node

def ptr : Node K V → ℕ
  | leaf ptr .. => ptr
  | internal ptr .. => ptr

def searchKey : Node K V → K
  | leaf _ searchKey .. => searchKey
  | internal _ searchKey .. => searchKey

def weight : Node K V → Bool
  | leaf _ _ weight _ => weight
  | internal _ _ weight .. => weight

def isLeaf : Node K V → Bool
  | leaf .. => true
  | internal .. => false

/-- `size`. -/
def getABDegree : Node K V → ℕ
  | leaf _ _ _ entries => entries.length
  | internal _ _ _ _ ptrs => ptrs.length

end Node

/-- A node on a path, without the child that the path goes to: the children on both sides of it. -/
structure Frame (K V : Type) where
  ptr : ℕ
  searchKey : K
  weight : Bool
  keys : List K
  /-- `ptrs[0..ix)`, where `ix` is the index of the child on the path. -/
  before : List (Node K V)
  /-- `ptrs[ix+1..size)`. -/
  after : List (Node K V)

namespace Frame

/-- The index of the child on the path. -/
def ix (p : Frame K V) : ℕ := p.before.length

/-- The index of the sibling that a degree repair takes: the left one, if there is one. -/
def ixToS (p : Frame K V) : ℕ := if 0 < p.ix then p.ix - 1 else 1

/-- `p->ptrs`, with `l` as the child on the path. -/
def ptrs (p : Frame K V) (l : Node K V) : List (Node K V) := p.before ++ l :: p.after

def node (p : Frame K V) (l : Node K V) : Node K V :=
  .internal p.ptr p.searchKey p.weight p.keys (p.ptrs l)

def getABDegree (p : Frame K V) : ℕ := p.before.length + 1 + p.after.length

@[simp] theorem getABDegree_node (p : Frame K V) (l : Node K V) :
    (p.node l).getABDegree = p.getABDegree := by
  simp only [node, ptrs, Node.getABDegree, getABDegree, List.length_append, List.length_cons]
  omega

end Frame

/-- The tree with `n` at the end of a path, the innermost node of the path first. -/
def plug : List (Frame K V) → Node K V → Node K V
  | [], n => n
  | p :: path, n => plug path (p.node n)

/-- The tree. The entry node is not written down: its one child is `root`, its weight is one. -/
structure State (K V : Type) where
  /-- `entry->ptrs[0]`. -/
  root : Node K V
  /-- The next address that `allocateNode` hands out. -/
  next : ℕ
  /-- The nodes for which `llx` returns `FINALIZED`. -/
  finalized : List ℕ

/-- The address of the entry node, which the constructor allocates second. -/
def entry : ℕ := 1

/-- The constructor: the entry node and an empty leaf. -/
def State.init (anyKey : K) : State K V :=
  { root := .leaf 0 anyKey true [], next := 2, finalized := [] }

/-- `scxExecute`: `n` is stored at the end of the path, with `allocated` new nodes in it, and the
nodes that were added with `finalize` are finalized. -/
def State.scxExecute (s : State K V) (path : List (Frame K V)) (n : Node K V) (allocated : ℕ)
    (removed : List ℕ) : State K V :=
  { root := plug path n, next := s.next + allocated, finalized := removed ++ s.finalized }

section Search

variable [LinearOrder K]

/-- The first separator above `key`. -/
def getChildIndex (key : K) (keys : List K) : ℕ := keys.findIdx (fun k => decide (key < k))

/-- The first key of a leaf that is not below `key`. -/
def getKeyIndex (key : K) (keys : List K) : ℕ := keys.findIdx (fun k => decide (¬ k < key))

@[simp] theorem getKeyIndex_nil (key : K) : getKeyIndex key [] = 0 := rfl

theorem getKeyIndex_cons (key k : K) (keys : List K) :
    getKeyIndex key (k :: keys) = if k < key then getKeyIndex key keys + 1 else 0 := by
  unfold getKeyIndex
  rw [List.findIdx_cons]
  by_cases hlt : k < key
  · simp [hlt]
  · simp [hlt]

/-- `while (!l->isLeaf() && l != stop)`, with `none` for the search of an operation, which goes on
to a leaf. -/
def search : ℕ → List (Frame K V) → Node K V → K → Option ℕ →
    Option (List (Frame K V) × Node K V)
  | 0, _, _, _, _ => none
  | _ + 1, path, .leaf ptr searchKey weight entries, _, _ =>
    some (path, .leaf ptr searchKey weight entries)
  | fuel + 1, path, .internal ptr searchKey weight keys ptrs, k, stop =>
    if stop = some ptr then some (path, .internal ptr searchKey weight keys ptrs)
    else
      let ix := getChildIndex k keys
      match ptrs[ix]? with
      | none => none
      | some l =>
        search fuel (⟨ptr, searchKey, weight, keys, ptrs.take ix, ptrs.drop (ix + 1)⟩ :: path) l k
          stop

end Search

/-! ### The new nodes of a repair -/

/-- Absorb: the node with the merged keys and children of `p` and `l`. -/
def absorb (ptr : ℕ) (keys : List K) (ptrs : List (Node K V)) : Option (Node K V) := do
  let searchKey ← keys[0]?
  some (.internal ptr searchKey true keys ptrs)

/-- Split: a node with two children, into which the merged keys and children are copied. -/
def split (ptr : ℕ) (weight : Bool) (keys : List K) (ptrs : List (Node K V)) :
    Option (Node K V) := do
  let size1 := ptrs.length / 2
  let first ← keys[0]?
  let middle ← keys[size1 - 1]?
  let second ← keys[size1]?
  let left := .internal ptr first true (keys.take (size1 - 1)) (ptrs.take size1)
  let right := .internal (ptr + 1) second true (keys.drop size1) (ptrs.drop size1)
  some (.internal (ptr + 2) middle weight [middle] [left, right])

/-- Overflow: the same for the pairs of a leaf, which are one too many. -/
def overflow (degree ptr : ℕ) (weight : Bool) (entries : List (K × V)) : Option (Node K V) := do
  let size1 := (degree + 1) / 2
  let size2 := degree + 1 - size1
  let (first, _) ← entries[0]?
  let (second, _) ← entries[size1]?
  let left := .leaf ptr first true (entries.take size1)
  let right := .leaf (ptr + 1) second true ((entries.drop size1).take size2)
  some (.internal (ptr + 2) second weight [second] [left, right])

/-- AbsorbSibling: the node `newl` with what `left` and `right` have. Between two internal nodes the
separator of the parent is added. -/
def absorbSibling (ptr : ℕ) (searchKey : K) (left right : Node K V) (k : K) : Option (Node K V) :=
  match left, right with
  | .leaf _ _ _ es, .leaf _ _ _ es' => some (.leaf ptr searchKey true (es ++ es'))
  | .internal _ _ _ ks cs, .internal _ _ _ ks' cs' =>
    some (.internal ptr searchKey true (ks ++ k :: ks') (cs ++ cs'))
  | _, _ => none

/-- Distribute: `newleft`, the new separator `keyp` and `newright`. -/
def distribute (ptr : ℕ) (left right : Node K V) (k : K) :
    Option (Node K V × K × Node K V) :=
  match left, right with
  | .leaf _ _ _ es, .leaf _ _ _ es' => do
    let entries := es ++ es'
    let leftsz := entries.length / 2
    let (first, _) ← (entries.take leftsz)[0]?
    let (keyp, _) ← entries[leftsz]?
    let (second, _) ← (entries.drop leftsz)[0]?
    some (.leaf ptr first true (entries.take leftsz), keyp,
      .leaf (ptr + 1) second true (entries.drop leftsz))
  | .internal _ _ _ ks cs, .internal _ _ _ ks' cs' => do
    let keys := ks ++ k :: ks'
    let ptrs := cs ++ cs'
    let leftsz := ptrs.length / 2
    let first ← (keys.take (leftsz - 1))[0]?
    let keyp ← keys[leftsz - 1]?
    let second ← (keys.drop leftsz)[0]?
    some (.internal ptr first true (keys.take (leftsz - 1)) (ptrs.take leftsz), keyp,
      .internal (ptr + 1) second true (keys.drop leftsz) (ptrs.drop leftsz))
  | _, _ => none

/-! ### The repairs -/

/-- `a`, the smallest size that a node but the root may have. -/
def minDegree (degree : ℕ) : ℕ := max (degree / 4) 2

/-- The nodes that AbsorbSibling and Distribute finalize: a leaf is not. -/
def removed (p : Frame K V) (left right : Node K V) : List ℕ :=
  if left.isLeaf then [p.ptr] else [p.ptr, left.ptr, right.ptr]

/-- The step of `fixWeightViolation`, at a node whose parent has a weight of one: the new node and
the state, by Absorb or by Split. -/
def weightStep (degree : ℕ) (s : State K V) (p : Frame K V) (path : List (Frame K V)) :
    Node K V → Option (State K V × Node K V × Bool)
  | .leaf .. => none
  | .internal ptr _ _ lkeys lptrs => do
    let size := p.getABDegree + lptrs.length - 1
    let keys := p.keys.take p.ix ++ lkeys ++ p.keys.drop p.ix
    let ptrs := p.before ++ lptrs ++ p.after
    if size ≤ degree then
      let n ← absorb s.next keys ptrs
      some (s.scxExecute path n 1 [p.ptr, ptr], n, false)
    else
      -- the weight is zero unless the new node is the root
      let n ← split s.next path.isEmpty keys ptrs
      some (s.scxExecute path n 3 [p.ptr, ptr], n, true)

/-- The step of `fixDegreeViolation`, at a node whose weight, like that of its parent and its
sibling, is one: the state, by AbsorbSibling or by Distribute, and the new nodes that may have a
violation, in the order in which they are gone on with. -/
def degreeStep (degree : ℕ) (s : State K V) (p : Frame K V) (path : List (Frame K V))
    (l sibling : Node K V) : Option (State K V × List (Node K V)) :=
  let ixToL := p.ix
  let ixToS := p.ixToS
  let leftindex := min ixToL ixToS
  let rightindex := max ixToL ixToS
  let left := if ixToL < ixToS then l else sibling
  let right := if ixToL < ixToS then sibling else l
  if left.getABDegree + right.getABDegree < 2 * minDegree degree then do
    let k ← p.keys[leftindex]?
    let newl ← absorbSibling s.next l.searchKey left right k
    -- RootAbsorb at the same time
    if path.isEmpty ∧ p.getABDegree = 2 then
      some (s.scxExecute path newl 1 (removed p left right), [newl])
    else
      let n := .internal (s.next + 1) p.searchKey true (p.keys.eraseIdx leftindex)
        (((p.ptrs l).set ixToL newl).eraseIdx ixToS)
      some (s.scxExecute path n 2 (removed p left right), [newl, n])
  else do
    let k ← p.keys[leftindex]?
    let (newleft, keyp, newright) ← distribute (s.next + 1) left right k
    let n := .internal s.next p.searchKey true (p.keys.set leftindex keyp)
      (((p.ptrs l).set leftindex newleft).set rightindex newright)
    some (s.scxExecute path n 3 (removed p left right), [n])

section Repair

variable [LinearOrder K] (degree : ℕ)

mutual

/-- `fixWeightViolation`. -/
def fixWeightViolation : ℕ → State K V → Node K V → Option (State K V × Bool)
  | 0, _, _ => none
  | fuel + 1, s, viol =>
    if viol.weight then some (s, false)
    else if viol.ptr ∈ s.finalized then some (s, false)
    else fixWeightLoop fuel s viol

/-- The loop of `fixWeightViolation`. -/
def fixWeightLoop : ℕ → State K V → Node K V → Option (State K V × Bool)
  | 0, _, _ => none
  | fuel + 1, s, viol => do
    let (path, l) ← search fuel [] s.root viol.searchKey (some viol.ptr)
    if l.ptr ≠ viol.ptr then some (s, false)
    else match path with
      -- `gp` is null
      | [] => none
      | p :: path =>
        if p.weight then do
          let (s, n, zero) ← weightStep degree s p path l
          let (s, _) ← if zero then fixWeightViolation fuel s n else some (s, false)
          let (s, _) ← fixDegreeViolation fuel s n
          some (s, true)
        else do
          let (s, _) ← fixWeightViolation fuel s (p.node l)
          fixWeightLoop fuel s viol

/-- `fixDegreeViolation`. -/
def fixDegreeViolation : ℕ → State K V → Node K V → Option (State K V × Bool)
  | 0, _, _ => none
  | fuel + 1, s, viol =>
    if minDegree degree ≤ viol.getABDegree ∨ viol.ptr = entry ∨ viol.ptr = s.root.ptr then
      some (s, false)
    else if viol.ptr ∈ s.finalized then some (s, false)
    else fixDegreeLoop fuel s viol

/-- The loop of `fixDegreeViolation`. -/
def fixDegreeLoop : ℕ → State K V → Node K V → Option (State K V × Bool)
  | 0, _, _ => none
  | fuel + 1, s, viol => do
    let (path, l) ← search fuel [] s.root viol.searchKey (some viol.ptr)
    if l.ptr ≠ viol.ptr then some (s, false)
    else match path with
      -- `gp` is null
      | [] => none
      | p :: path => do
        let sibling ← (p.ptrs l)[p.ixToS]?
        if p.weight ∧ l.weight ∧ sibling.weight then do
          let (s, new) ← degreeStep degree s p path l sibling
          let s ← new.foldlM (fun s n => (fixDegreeViolation fuel s n).map Prod.fst) s
          some (s, true)
        else do
          let (s, _) ← if p.weight then some (s, false) else fixWeightViolation fuel s (p.node l)
          let (s, _) ← if l.weight then some (s, false) else fixWeightViolation fuel s l
          let (s, _) ← if sibling.weight then some (s, false)
            else fixWeightViolation fuel s sibling
          fixDegreeLoop fuel s viol

end

/-! ### The operations -/

/-- The pair of a leaf with the key, at the index at which it is or would be inserted. -/
def pairAt (entries : List (K × V)) (keyIndex : ℕ) (key : K) : Option (K × V) :=
  entries[keyIndex]?.filter fun e => decide (e.1 = key)

theorem pairAt_eq_some {entries : List (K × V)} {keyIndex : ℕ} {key : K} {e : K × V}
    (h : pairAt entries keyIndex key = some e) : entries[keyIndex]? = some e :=
  (Option.filter_eq_some_iff.mp h).1

/-- `doInsert`. The value returned is the one that the key had, `none` for `NO_VALUE`. -/
def doInsert (fuel : ℕ) (s : State K V) (key : K) (value : V) (replace : Bool) :
    Option (State K V × Option V) := do
  let (path, l) ← search fuel [] s.root key none
  match l with
  | .internal .. => none
  | .leaf _ searchKey weight entries =>
    let keyIndex := getKeyIndex key (entries.map Prod.fst)
    match pairAt entries keyIndex key with
    | some (k, oldValue) =>
      if replace then do
        let n := .leaf s.next searchKey true (entries.set keyIndex (k, value))
        let (s, _) ← fixDegreeViolation degree fuel (s.scxExecute path n 1 []) n
        some (s, some oldValue)
      else some (s, some oldValue)
    | none =>
      if entries.length < degree then do
        let n := .leaf s.next searchKey weight (entries.insertIdx keyIndex (key, value))
        let (s, _) ← fixDegreeViolation degree fuel (s.scxExecute path n 1 []) n
        some (s, none)
      else do
        -- the weight is zero unless the new node is the root
        let n ← overflow degree s.next path.isEmpty (entries.insertIdx keyIndex (key, value))
        let (s, _) ← fixWeightViolation degree fuel (s.scxExecute path n 3 []) n
        some (s, none)

/-- `insert`, which replaces the value of a key that is there. -/
def insert (fuel : ℕ) (s : State K V) (key : K) (value : V) : Option (State K V × Option V) :=
  doInsert degree fuel s key value true

/-- `insertIfAbsent`. -/
def insertIfAbsent (fuel : ℕ) (s : State K V) (key : K) (value : V) :
    Option (State K V × Option V) :=
  doInsert degree fuel s key value false

/-- `erase`. -/
def erase (fuel : ℕ) (s : State K V) (key : K) : Option (State K V × (Option V × Bool)) := do
  let (path, l) ← search fuel [] s.root key none
  match l with
  | .internal .. => none
  | .leaf _ _ _ entries =>
    let keyIndex := getKeyIndex key (entries.map Prod.fst)
    match pairAt entries keyIndex key with
    | none => some (s, (none, false))
    | some (_, oldValue) => do
      -- the search key may be the key that is taken out
      let (first, _) ← entries[0]?
      let n := .leaf s.next first true (entries.eraseIdx keyIndex)
      let (s, _) ← fixDegreeViolation degree fuel (s.scxExecute path n 1 []) n
      some (s, (some oldValue, true))

/-- A call of an operation that updates the tree. -/
inductive Call (K V : Type)
  | insert (key : K) (value : V)
  | insertIfAbsent (key : K) (value : V)
  | erase (key : K)

/-- The state after a call. -/
def Call.exec (fuel : ℕ) (s : State K V) : Call K V → Option (State K V)
  | .insert key value => (AbTree.insert degree fuel s key value).map Prod.fst
  | .insertIfAbsent key value => (AbTree.insertIfAbsent degree fuel s key value).map Prod.fst
  | .erase key => (AbTree.erase degree fuel s key).map Prod.fst

/-- The state after a sequence of calls. -/
def run (fuel : ℕ) (s : State K V) (calls : List (Call K V)) : Option (State K V) :=
  calls.foldlM (Call.exec degree fuel) s

end Repair

end AbTree
end PopSetbench

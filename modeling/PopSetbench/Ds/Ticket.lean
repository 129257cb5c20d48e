import PopSetbench.Ds.Common
import PopSetbench.Ds.TicketLock
import PopSetbench.Library.ExternalTree

/-!
# The ticket tree

The external search tree of `ticket_impl.h`. A search takes no lock; it remembers of the last nodes
it has passed which way it went and what the lock words were before. An insertion takes the half of
the lock of the last inner node that guards the pointer to the leaf, and puts a new inner node with
the old and the new leaf there. A deletion takes that half of the lock of the last inner node but
one, and the whole lock of the last one, for good, and puts the sibling of the leaf in its place.

Every access to memory that other threads may write is a step of its own. `Edge` holds the local
variables `pred`, `pred_ver` and `right`, and `ppred`, `ppred_ver` and `pright`; those of a
deletion keep their values when it tries again. An insertion has no `ppred`. Where the code would
dereference `NULL` there is no step. Memory is not reused: a node that was allocated once is not
allocated again.
-/

namespace PopSetbench
namespace Ticket

open Function

/-- What the constructor sets up. -/
structure Config (α K : Type) [LT K] where
  /-- `KEY_MIN`. -/
  keyMin : K
  /-- `KEY_MAX`. -/
  keyMax : K
  /-- The node at the top. -/
  root : α
  /-- The leaf with `KEY_MIN`. -/
  min : α
  /-- The leaf with `KEY_MAX`. -/
  max : α
  keyMin_lt : keyMin < keyMax
  root_ne_min : root ≠ min
  root_ne_max : root ≠ max
  min_ne_max : min ≠ max

/-- A call that changes the tree. -/
inductive Upd (K V : Type)
  /-- `bst_tk_insert`. -/
  | insert (key : K) (val : V)
  /-- `bst_tk_delete`. -/
  | delete (key : K)

/-- The call. -/
def Upd.op {K V : Type} : Upd K V → Op K V
  | .insert key val => .insert key val
  | .delete key => .erase key

/-- The key of the call. -/
def Upd.key {K V : Type} : Upd K V → K
  | .insert key _ => key
  | .delete key => key

/-- A node that was passed, the copy of its lock, and on which side the search went on. -/
structure Edge (α : Type) where
  /-- `pred`. -/
  node : Option α
  /-- `pred_ver`. -/
  ver : Tl
  /-- `right`. -/
  right : Bool

/-- The values the variables are initialised with. -/
def Edge.none {α : Type} : Edge α := ⟨.none, .zero, false⟩

/-- What is left to do after `tl_unlock`. -/
inductive After (α K V : Type)
  /-- An insertion is done. -/
  | inserted (key : K) (val : V)
  /-- A deletion has to retire two nodes. -/
  | deleted (key : K) (pred : Edge α) (curr : α)

/-- Where a thread is in the code. -/
inductive Pc (α K V : Type)
  /-- Between two operations. -/
  | idle
  /-- About to call `startOp`. -/
  | start (op : Op K V) (ppred pred : Edge α)
  /-- `bst_tk_find`: about to look whether `curr->left` is `NULL`. -/
  | findLeft (key : K) (curr : α)
  /-- `bst_tk_find`: about to compare the key of `curr`. -/
  | findKey (key : K) (curr : α)
  /-- `bst_tk_find`: about to load a child of `curr`. -/
  | findChild (key : K) (curr : α) (right : Bool)
  /-- `bst_tk_find`: about to test the key of `curr`. -/
  | findTest (key : K) (curr : α)
  /-- About to copy the lock of `curr`. -/
  | loadVer (u : Upd K V) (ppred pred : Edge α) (curr : α)
  /-- About to compare the key of `pred`, the former `curr`. -/
  | readKey (u : Upd K V) (ppred pred : Edge α)
  /-- About to load a child of `pred`. -/
  | loadChild (u : Upd K V) (ppred pred : Edge α)
  /-- About to look whether `curr->left` is `NULL`. -/
  | loadLeft (u : Upd K V) (ppred pred : Edge α) (curr : α)
  /-- About to test the key of `curr`. -/
  | testKey (u : Upd K V) (ppred pred : Edge α) (curr : α)
  /-- About to call `endOp` and to return the value of `curr`. -/
  | endVal (op : Op K V) (curr : α)
  /-- About to read the value of `curr`. -/
  | readVal (op : Op K V) (curr : α)
  /-- `bst_tk_insert`: about to allocate the leaf `nn`. -/
  | newLeaf (key : K) (val : V) (pred : Edge α) (curr : α)
  /-- `bst_tk_insert`: about to allocate the inner node `nr`. -/
  | newNode (key : K) (val : V) (pred : Edge α) (curr nn : α)
  /-- `bst_tk_insert`: about to take a half of the lock of `pred`. -/
  | lockPred (key : K) (val : V) (pred : Edge α) (curr nn nr : α)
  /-- `bst_tk_insert`: about to deallocate the new nodes. -/
  | dealloc (key : K) (val : V) (pred : Edge α) (nn nr : α)
  /-- `bst_tk_insert`: about to compare the key of `curr`. -/
  | compare (key : K) (val : V) (pred : Edge α) (curr nn nr : α)
  /-- `bst_tk_insert`: about to store the fields of `nr`. -/
  | initNode (key : K) (val : V) (pred : Edge α) (curr nn nr : α) (less : Bool)
  /-- `bst_tk_insert`: about to link `nr`. -/
  | storeChild (key : K) (val : V) (pred : Edge α) (curr nn nr : α)
  /-- `bst_tk_delete`: about to take a half of the lock of `ppred`. -/
  | lockPpred (key : K) (ppred pred : Edge α) (curr : α)
  /-- `bst_tk_delete`: about to take the lock of `pred`. -/
  | lockBoth (key : K) (ppred pred : Edge α) (curr : α)
  /-- `bst_tk_delete`: about to load the sibling of `curr`. -/
  | loadSibling (key : K) (ppred pred : Edge α) (curr : α)
  /-- `bst_tk_delete`: about to put the sibling in the place of `pred`. -/
  | splice (key : K) (ppred pred : Edge α) (curr : α) (sibling : Option α)
  /-- `tl_unlock`: about to load the version. -/
  | unlock (e : Edge α) (k : After α K V)
  /-- `tl_unlock`: about to store the version. -/
  | storeVersion (e : Edge α) (version : BitVec 16) (k : After α K V)
  /-- `tl_revert`: about to load the ticket. -/
  | revert (key : K) (ppred pred : Edge α)
  /-- `tl_revert`: about to store the ticket. -/
  | storeTicket (key : K) (ppred pred : Edge α) (ticket : BitVec 16)
  /-- `bst_tk_delete`: about to retire `curr`. -/
  | retireCurr (key : K) (pred : Edge α) (curr : α)
  /-- `bst_tk_delete`: about to retire `pred`. -/
  | retirePred (key : K) (pred : Edge α) (curr : α)
  /-- About to call `endOp` and to try again. -/
  | endRetry (u : Upd K V) (ppred pred : Edge α)
  /-- About to call `endOp`, the result is known. -/
  | endOp (op : Op K V) (r : Ret V)
  /-- About to return. -/
  | ret (op : Op K V) (r : Ret V)

/-- Where an operation goes on after `startOp`. -/
def begin {α K V : Type} (root : α) (ppred pred : Edge α) : Op K V → Pc α K V
  | .contains key => .findLeft key root
  | .insert key val => .loadVer (.insert key val) ppred pred root
  | .erase key => .loadVer (.delete key) ppred pred root

/-- Where an update goes on when `curr` has the key. -/
def Upd.hit {α K V : Type} (ppred pred : Edge α) (curr : α) : Upd K V → Pc α K V
  | .insert key val => .endVal (.insert key val) curr
  | .delete key => .lockPpred key ppred pred curr

/-- Where an update goes on when `curr` does not have the key. -/
def Upd.miss {α K V : Type} (pred : Edge α) (curr : α) : Upd K V → Pc α K V
  | .insert key val => .newLeaf key val pred curr
  | .delete key => .endOp (.erase key) (.value none)

/-- Where an operation goes on after `tl_unlock`. -/
def After.next {α K V : Type} : After α K V → Pc α K V
  | .inserted key val => .endOp (.insert key val) (.value none)
  | .deleted key pred curr => .retireCurr key pred curr

/-- The tree and the threads. -/
structure State (α ι K V : Type) where
  /-- The fields `left` and `right`. -/
  child : α → Bool → Option α
  /-- The fields `key`. -/
  key : α → K
  /-- The fields `val`; `none` is `NO_VALUE`. -/
  val : α → Option V
  /-- The fields `lock`. -/
  lock : α → Tl
  /-- Nodes that were allocated. -/
  allocated : α → Bool
  /-- Where each thread is. -/
  pc : ι → Pc α K V

variable {α ι K V : Type}

namespace State

variable (s : State α ι K V)

/-- Thread `t` goes on at `p`. -/
def goto [DecidableEq ι] (t : ι) (p : Pc α K V) : State α ι K V :=
  { s with pc := update s.pc t p }

variable [DecidableEq α]

/-- A child pointer is stored. -/
def setChild (x : α) (right : Bool) (y : Option α) : State α ι K V :=
  { s with child := update s.child x (update (s.child x) right y) }

/-- A lock word is stored. -/
def setLock (x : α) (l : Tl) : State α ι K V :=
  { s with lock := update s.lock x l }

/-- `new_node(tid, key, val, NULL, NULL)` returns `x`. -/
def allocLeaf (x : α) (key : K) (val : V) : State α ι K V :=
  { s with
    child := update s.child x fun _ => none
    key := update s.key x key
    val := update s.val x (some val)
    lock := update s.lock x .zero
    allocated := update s.allocated x true }

/-- `new_node_no_init(tid)` returns `x`. -/
def allocNode (x : α) : State α ι K V :=
  { s with
    val := update s.val x none
    lock := update s.lock x .zero
    allocated := update s.allocated x true }

/-- The key and the children of `nr` are stored: `curr`, and on the side of `key` the leaf `nn`. -/
def initNode (nr nn curr : α) (key : K) (less : Bool) : State α ι K V :=
  { s with
    key := update s.key nr (bif less then s.key curr else key)
    child := update s.child nr fun right => some (bif right == less then curr else nn) }

/-- The heap the nodes form. -/
def heap : TreeHeap α K where
  child := s.child
  key := s.key

variable {s} {t q : ι} {p : Pc α K V}

omit [DecidableEq α] in
@[simp] theorem goto_pc_self [DecidableEq ι] : (s.goto t p).pc t = p :=
  update_self ..

omit [DecidableEq α] in
theorem goto_pc_of_ne [DecidableEq ι] (h : q ≠ t) : (s.goto t p).pc q = s.pc q :=
  update_of_ne h ..

end State

/-- The state after the constructor. -/
structure Init [LT K] (cfg : Config α K) (s : State α ι K V) : Prop where
  child_root : ∀ right, s.child cfg.root right = some (bif right then cfg.max else cfg.min)
  child_min : ∀ right, s.child cfg.min right = none
  child_max : ∀ right, s.child cfg.max right = none
  key_root : s.key cfg.root = cfg.keyMax
  key_min : s.key cfg.min = cfg.keyMin
  key_max : s.key cfg.max = cfg.keyMax
  val : ∀ x, s.allocated x = true → s.val x = none
  lock : ∀ x, s.allocated x = true → s.lock x = .zero
  allocated : ∀ x, s.allocated x = true ↔ x = cfg.root ∨ x = cfg.min ∨ x = cfg.max
  pc : ∀ t, s.pc t = .idle

/-- The atomic steps of thread `t`. -/
inductive Step [DecidableEq α] [DecidableEq ι] [LinearOrder K] (cfg : Config α K)
    (s : State α ι K V) (t : ι) : Event α K V → State α ι K V → Prop
  /-- An operation is called. -/
  | invoke (op : Op K V) (hpc : s.pc t = .idle) (hmin : cfg.keyMin < op.key)
      (hmax : op.key < cfg.keyMax) : Step cfg s t (.invoke op) (s.goto t (.start op .none .none))
  /-- `recmgr->startOp(tid)`; `curr = root`. -/
  | startOp (op : Op K V) (ppred pred : Edge α) (hpc : s.pc t = .start op ppred pred) :
      Step cfg s t .startOp (s.goto t (begin cfg.root ppred pred op))
  /-- `bst_tk_find`: `curr->left != NULL`. -/
  | findLeft (key : K) (x : α) (hpc : s.pc t = .findLeft key x) (hl : s.child x false ≠ none) :
      Step cfg s t (.access x) (s.goto t (.findKey key x))
  /-- `bst_tk_find`: `curr->left == NULL`. -/
  | findNull (key : K) (x : α) (hpc : s.pc t = .findLeft key x) (hl : s.child x false = none) :
      Step cfg s t (.access x) (s.goto t (.findTest key x))
  /-- `bst_tk_find`: `key < curr->key`. -/
  | findKey (key : K) (x : α) (hpc : s.pc t = .findKey key x) :
      Step cfg s t (.access x) (s.goto t (.findChild key x (toward key (s.key x))))
  /-- `bst_tk_find`: `curr = curr->left` or `curr = curr->right`. -/
  | findChild (key : K) (x y : α) (right : Bool) (hpc : s.pc t = .findChild key x right)
      (hy : s.child x right = some y) :
      Step cfg s t (.access x) (s.goto t (.findLeft key y))
  /-- `bst_tk_find`: `curr->key == key`. -/
  | findHit (key : K) (x : α) (hpc : s.pc t = .findTest key x) (hk : s.key x = key) :
      Step cfg s t (.access x) (s.goto t (.endVal (.contains key) x))
  /-- `bst_tk_find`: `curr->key != key`. -/
  | findMiss (key : K) (x : α) (hpc : s.pc t = .findTest key x) (hk : s.key x ≠ key) :
      Step cfg s t (.access x) (s.goto t (.endOp (.contains key) (.value none)))
  /-- `curr_ver = curr->lock.to_uint64`; `ppred = pred`; `pred = curr`. -/
  | loadVer (u : Upd K V) (ppred pred : Edge α) (x : α) (hpc : s.pc t = .loadVer u ppred pred x) :
      Step cfg s t (.access x) (s.goto t (.readKey u pred ⟨some x, s.lock x, pred.right⟩))
  /-- `key < curr->key`. -/
  | readKey (u : Upd K V) (ppred pred : Edge α) (x : α) (hpc : s.pc t = .readKey u ppred pred)
      (hx : pred.node = some x) :
      Step cfg s t (.access x)
        (s.goto t (.loadChild u ppred ⟨some x, pred.ver, toward u.key (s.key x)⟩))
  /-- `curr = curr->left` or `curr = curr->right`. -/
  | loadChild (u : Upd K V) (ppred pred : Edge α) (x y : α)
      (hpc : s.pc t = .loadChild u ppred pred) (hx : pred.node = some x)
      (hy : s.child x pred.right = some y) :
      Step cfg s t (.access x) (s.goto t (.loadLeft u ppred pred y))
  /-- `curr->left != NULL`. -/
  | loadLeft (u : Upd K V) (ppred pred : Edge α) (x : α) (hpc : s.pc t = .loadLeft u ppred pred x)
      (hl : s.child x false ≠ none) :
      Step cfg s t (.access x) (s.goto t (.loadVer u ppred pred x))
  /-- `curr->left == NULL`. -/
  | loadNull (u : Upd K V) (ppred pred : Edge α) (x : α) (hpc : s.pc t = .loadLeft u ppred pred x)
      (hl : s.child x false = none) :
      Step cfg s t (.access x) (s.goto t (.testKey u ppred pred x))
  /-- `curr->key == key`. -/
  | hit (u : Upd K V) (ppred pred : Edge α) (x : α) (hpc : s.pc t = .testKey u ppred pred x)
      (hk : s.key x = u.key) : Step cfg s t (.access x) (s.goto t (u.hit ppred pred x))
  /-- `curr->key != key`. -/
  | miss (u : Upd K V) (ppred pred : Edge α) (x : α) (hpc : s.pc t = .testKey u ppred pred x)
      (hk : s.key x ≠ u.key) : Step cfg s t (.access x) (s.goto t (u.miss pred x))
  /-- `bst_tk_insert`: `nn = new_node(tid, key, val, NULL, NULL)`. -/
  | newLeaf (key : K) (val : V) (pred : Edge α) (x a : α)
      (hpc : s.pc t = .newLeaf key val pred x) (ha : s.allocated a = false) :
      Step cfg s t .tau ((s.allocLeaf a key val).goto t (.newNode key val pred x a))
  /-- `bst_tk_insert`: `nr = new_node_no_init(tid)`. -/
  | newNode (key : K) (val : V) (pred : Edge α) (x a b : α)
      (hpc : s.pc t = .newNode key val pred x a) (hb : s.allocated b = false) :
      Step cfg s t .tau ((s.allocNode b).goto t (.lockPred key val pred x a b))
  /-- `bst_tk_insert`: `tl_trylock_version(&pred->lock, &pred_ver, right)` succeeds. -/
  | lockPred (key : K) (val : V) (pred : Edge α) (p x a b : α) (l : Tl)
      (hpc : s.pc t = .lockPred key val pred x a b) (hp : pred.node = some p)
      (hl : (s.lock p).trylockVersion pred.ver pred.right = some l) :
      Step cfg s t (.access p) ((s.setLock p l).goto t (.compare key val pred x a b))
  /-- `bst_tk_insert`: `tl_trylock_version(&pred->lock, &pred_ver, right)` fails. -/
  | lockPredFail (key : K) (val : V) (pred : Edge α) (p x a b : α)
      (hpc : s.pc t = .lockPred key val pred x a b) (hp : pred.node = some p)
      (hl : (s.lock p).trylockVersion pred.ver pred.right = none) :
      Step cfg s t (.access p) (s.goto t (.dealloc key val pred a b))
  /-- `bst_tk_insert`: `recmgr->deallocate(tid, nn)`; `recmgr->deallocate(tid, nr)`. -/
  | dealloc (key : K) (val : V) (pred : Edge α) (a b : α)
      (hpc : s.pc t = .dealloc key val pred a b) :
      Step cfg s t .tau (s.goto t (.endRetry (.insert key val) .none pred))
  /-- `bst_tk_insert`: `key < curr->key`. -/
  | compare (key : K) (val : V) (pred : Edge α) (x a b : α)
      (hpc : s.pc t = .compare key val pred x a b) :
      Step cfg s t (.access x)
        (s.goto t (.initNode key val pred x a b (decide (key < s.key x))))
  /-- `bst_tk_insert`: the fields of `nr`, which no other thread has seen yet, are stored. -/
  | initNode (key : K) (val : V) (pred : Edge α) (x a b : α) (less : Bool)
      (hpc : s.pc t = .initNode key val pred x a b less) :
      Step cfg s t (.access b)
        ((s.initNode b a x key less).goto t (.storeChild key val pred x a b))
  /-- `bst_tk_insert`: `pred->right = nr` or `pred->left = nr`. -/
  | storeChild (key : K) (val : V) (pred : Edge α) (p x a b : α)
      (hpc : s.pc t = .storeChild key val pred x a b) (hp : pred.node = some p) :
      Step cfg s t (.access p)
        ((s.setChild p pred.right (some b)).goto t (.unlock pred (.inserted key val)))
  /-- `bst_tk_delete`: `tl_trylock_version(&ppred->lock, &ppred_ver, pright)` succeeds. -/
  | lockPpred (key : K) (ppred pred : Edge α) (g x : α) (l : Tl)
      (hpc : s.pc t = .lockPpred key ppred pred x) (hg : ppred.node = some g)
      (hl : (s.lock g).trylockVersion ppred.ver ppred.right = some l) :
      Step cfg s t (.access g) ((s.setLock g l).goto t (.lockBoth key ppred pred x))
  /-- `bst_tk_delete`: `tl_trylock_version(&ppred->lock, &ppred_ver, pright)` fails. -/
  | lockPpredFail (key : K) (ppred pred : Edge α) (g x : α)
      (hpc : s.pc t = .lockPpred key ppred pred x) (hg : ppred.node = some g)
      (hl : (s.lock g).trylockVersion ppred.ver ppred.right = none) :
      Step cfg s t (.access g) (s.goto t (.endRetry (.delete key) ppred pred))
  /-- `bst_tk_delete`: `tl_trylock_version_both(&pred->lock, &pred_ver)` succeeds. -/
  | lockBoth (key : K) (ppred pred : Edge α) (p x : α) (l : Tl)
      (hpc : s.pc t = .lockBoth key ppred pred x) (hp : pred.node = some p)
      (hl : (s.lock p).trylockVersionBoth pred.ver = some l) :
      Step cfg s t (.access p) ((s.setLock p l).goto t (.loadSibling key ppred pred x))
  /-- `bst_tk_delete`: `tl_trylock_version_both(&pred->lock, &pred_ver)` fails. -/
  | lockBothFail (key : K) (ppred pred : Edge α) (p x : α)
      (hpc : s.pc t = .lockBoth key ppred pred x) (hp : pred.node = some p)
      (hl : (s.lock p).trylockVersionBoth pred.ver = none) :
      Step cfg s t (.access p) (s.goto t (.revert key ppred pred))
  /-- `bst_tk_delete`: `pred->left` is loaded if `curr` is on the right, or `pred->right`. -/
  | loadSibling (key : K) (ppred pred : Edge α) (p x : α)
      (hpc : s.pc t = .loadSibling key ppred pred x) (hp : pred.node = some p) :
      Step cfg s t (.access p)
        (s.goto t (.splice key ppred pred x (s.child p (!pred.right))))
  /-- `bst_tk_delete`: it is stored in `ppred->right` or `ppred->left`. -/
  | splice (key : K) (ppred pred : Edge α) (g x : α) (y : Option α)
      (hpc : s.pc t = .splice key ppred pred x y) (hg : ppred.node = some g) :
      Step cfg s t (.access g)
        ((s.setChild g ppred.right y).goto t (.unlock ppred (.deleted key pred x)))
  /-- `tl_unlock`: `version` is loaded. -/
  | unlock (e : Edge α) (k : After α K V) (p : α) (hpc : s.pc t = .unlock e k)
      (hp : e.node = some p) :
      Step cfg s t (.access p)
        (s.goto t (.storeVersion e ((s.lock p).lr e.right).version k))
  /-- `tl_unlock`: the incremented `version` is stored. -/
  | storeVersion (e : Edge α) (v : BitVec 16) (k : After α K V) (p : α)
      (hpc : s.pc t = .storeVersion e v k) (hp : e.node = some p) :
      Step cfg s t (.access p) ((s.setLock p ((s.lock p).unlock e.right v)).goto t k.next)
  /-- `tl_revert`: `ticket` is loaded. -/
  | revert (key : K) (ppred pred : Edge α) (g : α) (hpc : s.pc t = .revert key ppred pred)
      (hg : ppred.node = some g) :
      Step cfg s t (.access g)
        (s.goto t (.storeTicket key ppred pred ((s.lock g).lr ppred.right).ticket))
  /-- `tl_revert`: the decremented `ticket` is stored. -/
  | storeTicket (key : K) (ppred pred : Edge α) (v : BitVec 16) (g : α)
      (hpc : s.pc t = .storeTicket key ppred pred v) (hg : ppred.node = some g) :
      Step cfg s t (.access g) ((s.setLock g ((s.lock g).revert ppred.right v)).goto t
        (.endRetry (.delete key) ppred pred))
  /-- `bst_tk_delete`: `recmgr->retire(tid, curr)`. -/
  | retireCurr (key : K) (pred : Edge α) (x : α) (hpc : s.pc t = .retireCurr key pred x) :
      Step cfg s t (.retire x) (s.goto t (.retirePred key pred x))
  /-- `bst_tk_delete`: `recmgr->retire(tid, pred)`. -/
  | retirePred (key : K) (pred : Edge α) (p x : α) (hpc : s.pc t = .retirePred key pred x)
      (hp : pred.node = some p) :
      Step cfg s t (.retire p) (s.goto t (.endVal (.erase key) x))
  /-- `recmgr->endOp(tid)` before the value of `curr` is returned. -/
  | endVal (op : Op K V) (x : α) (hpc : s.pc t = .endVal op x) :
      Step cfg s t .endOp (s.goto t (.readVal op x))
  /-- `return curr->val`. -/
  | readVal (op : Op K V) (x : α) (hpc : s.pc t = .readVal op x) :
      Step cfg s t (.access x) (s.goto t (.ret op (.value (s.val x))))
  /-- `recmgr->endOp(tid)`; `goto retry`. -/
  | endRetry (u : Upd K V) (ppred pred : Edge α) (hpc : s.pc t = .endRetry u ppred pred) :
      Step cfg s t .endOp (s.goto t (.start u.op ppred pred))
  /-- `recmgr->endOp(tid)`. -/
  | endOp (op : Op K V) (r : Ret V) (hpc : s.pc t = .endOp op r) :
      Step cfg s t .endOp (s.goto t (.ret op r))
  /-- `return`. -/
  | ret (op : Op K V) (r : Ret V) (hpc : s.pc t = .ret op r) :
      Step cfg s t (.ret op r) (s.goto t .idle)

/-- The implementation, run by the threads `ι`. -/
def lts [DecidableEq α] [DecidableEq ι] [LinearOrder K] (cfg : Config α K) :
    Lts (State α ι K V) (ι × Event α K V) where
  init s := Init cfg s
  step s a s' := Step cfg s a.1 a.2 s'

end Ticket
end PopSetbench

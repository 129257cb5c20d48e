import PopSetbench.Ds.Ticket
import PopSetbench.Ds.WritePhase

/-!
# The ticket tree under NBR

The tree of `ticket_nzb_impl.h`. An update searches in the read phase, saves the nodes it will work
with, becomes unrestartable, and goes on as in `ticket_impl.h`. `bst_tk_find`, and `bst_tk_insert`
when it finds its key, leave the read phase by `endOp` and return the value of a leaf afterwards.

A signal sends a restartable thread back to its checkpoint, where `ppred` and `pred` may have any
values: they are not `volatile`, and `bst_tk_delete` initialises them only once. A retired node may
be handed out again by the allocator at any moment.
-/

namespace PopSetbench
namespace TicketNzb

open Function
open Ticket (Config Upd Edge After Tl)

/-- Where a thread is in the code. -/
inductive Pc (α K V : Type)
  /-- Between two operations. -/
  | idle
  /-- At the checkpoint, about to call `startOp`. -/
  | start (op : Op K V) (ppred pred : Edge α)
  /-- `bst_tk_find`: about to look whether `curr->left` is `NULL`. -/
  | findLeft (key : K) (curr : α)
  /-- `bst_tk_find`: about to compare the key of `curr`. -/
  | findKey (key : K) (curr : α)
  /-- `bst_tk_find`: about to load a child of `curr`. -/
  | findChild (key : K) (curr : α) (right : Bool)
  /-- `bst_tk_find`: about to test the key of `curr`. -/
  | findTest (key : K) (curr : α)
  /-- About to copy the lock of `curr`. -/
  | loadVer (u : Upd K V) (ppred pred : Edge α) (curr : α)
  /-- About to compare the key of `pred`, the former `curr`. -/
  | readKey (u : Upd K V) (ppred pred : Edge α)
  /-- About to load a child of `pred`. -/
  | loadChild (u : Upd K V) (ppred pred : Edge α)
  /-- About to look whether `curr->left` is `NULL`. -/
  | loadLeft (u : Upd K V) (ppred pred : Edge α) (curr : α)
  /-- About to test the key of `curr`. -/
  | testKey (u : Upd K V) (ppred pred : Edge α) (curr : α)
  /-- In the read phase, about to call `endOp` and to return the value of `curr`. -/
  | endHit (op : Op K V) (curr : α)
  /-- In the read phase, about to call `endOp`. -/
  | endMiss (op : Op K V)
  /-- About to save `pred`. -/
  | savePred (u : Upd K V) (ppred pred : Edge α) (curr : α)
  /-- `bst_tk_delete`: about to save `ppred`. -/
  | savePpred (key : K) (ppred pred : Edge α) (curr : α)
  /-- About to save `curr`. -/
  | saveCurr (u : Upd K V) (ppred pred : Edge α) (curr : α)
  /-- About to call `upgradeToWritePhase`. -/
  | upgrade (u : Upd K V) (ppred pred : Edge α) (curr : α)
  /-- `bst_tk_insert`: about to allocate the leaf `nn`. -/
  | newLeaf (key : K) (val : V) (pred : Edge α) (curr : α)
  /-- `bst_tk_insert`: about to allocate the inner node `nr`. -/
  | newNode (key : K) (val : V) (pred : Edge α) (curr nn : α)
  /-- `bst_tk_insert`: about to take a half of the lock of `pred`. -/
  | lockPred (key : K) (val : V) (pred : Edge α) (curr nn nr : α)
  /-- `bst_tk_insert`: about to deallocate `nn`. -/
  | deallocLeaf (key : K) (val : V) (pred : Edge α) (nn nr : α)
  /-- `bst_tk_insert`: about to deallocate `nr`. -/
  | deallocNode (key : K) (val : V) (pred : Edge α) (nr : α)
  /-- `bst_tk_insert`: about to compare the key of `curr`. -/
  | compare (key : K) (val : V) (pred : Edge α) (curr nn nr : α)
  /-- `bst_tk_insert`: the key is less, about to read the key of `curr` again. -/
  | copyKey (key : K) (val : V) (pred : Edge α) (curr nn nr : α)
  /-- `bst_tk_insert`: about to store the fields of `nr`. -/
  | initNode (key : K) (val : V) (pred : Edge α) (curr nn nr : α) (less : Bool) (nrKey : K)
  /-- `bst_tk_insert`: about to link `nr`. -/
  | storeChild (key : K) (val : V) (pred : Edge α) (nr : α)
  /-- `bst_tk_delete`: about to take a half of the lock of `ppred`. -/
  | lockPpred (key : K) (ppred pred : Edge α) (curr : α)
  /-- `bst_tk_delete`: about to take the lock of `pred`. -/
  | lockBoth (key : K) (ppred pred : Edge α) (curr : α)
  /-- `bst_tk_delete`: about to load the sibling of `curr`. -/
  | loadSibling (key : K) (ppred pred : Edge α) (curr : α)
  /-- `bst_tk_delete`: about to put the sibling in the place of `pred`. -/
  | splice (key : K) (ppred pred : Edge α) (curr : α) (sibling : Option α)
  /-- `tl_unlock`: about to load the version. -/
  | unlock (e : Edge α) (k : After α K V)
  /-- `tl_unlock`: about to store the version. -/
  | storeVersion (e : Edge α) (version : BitVec 16) (k : After α K V)
  /-- `tl_revert`: about to load the ticket. -/
  | revert (key : K) (ppred pred : Edge α)
  /-- `tl_revert`: about to store the ticket. -/
  | storeTicket (key : K) (ppred pred : Edge α) (ticket : BitVec 16)
  /-- `bst_tk_delete`: about to retire `curr`. -/
  | retireCurr (key : K) (pred : Edge α) (curr : α)
  /-- `bst_tk_delete`: about to retire `pred`. -/
  | retirePred (key : K) (pred : Edge α) (curr : α)
  /-- In the write phase, about to call `endOp` and to try again. -/
  | endRetry (u : Upd K V) (ppred pred : Edge α)
  /-- In the write phase, about to call `endOp` and to return the value of `curr`. -/
  | endVal (op : Op K V) (curr : α)
  /-- In the write phase, about to call `endOp`. -/
  | endOp (op : Op K V) (r : Ret V)
  /-- After `endOp`, about to read the value of `curr`. -/
  | readVal (op : Op K V) (curr : α)
  /-- About to return. -/
  | ret (op : Op K V) (r : Ret V)

/-- Where an operation goes on after `startOp`. -/
def begin {α K V : Type} (root : α) (ppred pred : Edge α) : Op K V → Pc α K V
  | .contains key => .findLeft key root
  | .insert key val => .loadVer (.insert key val) ppred pred root
  | .erase key => .loadVer (.delete key) ppred pred root

/-- Where an update goes on when `curr` has the key. -/
def hit {α K V : Type} (ppred pred : Edge α) (curr : α) : Upd K V → Pc α K V
  | .insert key val => .endHit (.insert key val) curr
  | .delete key => .savePred (.delete key) ppred pred curr

/-- Where an update goes on when `curr` does not have the key. -/
def miss {α K V : Type} (ppred pred : Edge α) (curr : α) : Upd K V → Pc α K V
  | .insert key val => .savePred (.insert key val) ppred pred curr
  | .delete key => .endMiss (.erase key)

/-- Where an update goes on after it has saved `pred`. -/
def predSaved {α K V : Type} (ppred pred : Edge α) (curr : α) : Upd K V → Pc α K V
  | .insert key val => .saveCurr (.insert key val) ppred pred curr
  | .delete key => .savePpred key ppred pred curr

/-- Where an update goes on in the write phase. -/
def upgraded {α K V : Type} (ppred pred : Edge α) (curr : α) : Upd K V → Pc α K V
  | .insert key val => .newLeaf key val pred curr
  | .delete key => .lockPpred key ppred pred curr

/-- Where an operation goes on after `tl_unlock`. -/
def unlocked {α K V : Type} : After α K V → Pc α K V
  | .inserted key val => .endOp (.insert key val) (.value none)
  | .deleted key pred curr => .retireCurr key pred curr

/-- The operation to whose checkpoint the signal handler sends a restartable thread. -/
def Pc.checkpoint {α K V : Type} : Pc α K V → Option (Op K V)
  | .findLeft key _ => some (.contains key)
  | .findKey key _ => some (.contains key)
  | .findChild key _ _ => some (.contains key)
  | .findTest key _ => some (.contains key)
  | .loadVer u _ _ _ => some u.op
  | .readKey u _ _ => some u.op
  | .loadChild u _ _ => some u.op
  | .loadLeft u _ _ _ => some u.op
  | .testKey u _ _ _ => some u.op
  | .endHit op _ => some op
  | .endMiss op => some op
  | .savePred u _ _ _ => some u.op
  | .savePpred key _ _ _ => some (.erase key)
  | .saveCurr u _ _ _ => some u.op
  | .upgrade u _ _ _ => some u.op
  | _ => none

/-- The tree and the threads. -/
@[ext]
structure State (α ι K V : Type) where
  /-- The fields `left` and `right`. -/
  child : α → Bool → Option α
  /-- The fields `key`. -/
  key : α → K
  /-- The fields `val`; `none` is `NO_VALUE`. -/
  val : α → Option V
  /-- The fields `lock`. -/
  lock : α → Tl
  /-- Nodes that are allocated. -/
  allocated : α → Bool
  /-- Nodes that were retired and not yet freed. -/
  retired : List α
  /-- Where each thread is. -/
  pc : ι → Pc α K V

variable {α ι K V : Type}

namespace State

variable (s : State α ι K V)

/-- Thread `t` goes on at `p`. -/
def goto [DecidableEq ι] (t : ι) (p : Pc α K V) : State α ι K V :=
  { s with pc := update s.pc t p }

variable [DecidableEq α]

/-- A child pointer is stored. -/
def setChild (x : α) (right : Bool) (y : Option α) : State α ι K V :=
  { s with child := update s.child x (update (s.child x) right y) }

/-- A lock word is stored. -/
def setLock (x : α) (l : Tl) : State α ι K V :=
  { s with lock := update s.lock x l }

/-- `new_node(tid, key, val, NULL, NULL)` returns `x`. -/
def allocLeaf (x : α) (key : K) (val : V) : State α ι K V :=
  { s with
    child := update s.child x fun _ => none
    key := update s.key x key
    val := update s.val x (some val)
    lock := update s.lock x .zero
    allocated := update s.allocated x true }

/-- `new_node_no_init(tid)` returns `x`. -/
def allocNode (x : α) : State α ι K V :=
  { s with
    val := update s.val x none
    lock := update s.lock x .zero
    allocated := update s.allocated x true }

/-- The key and the children of `nr` are stored: `curr`, and on the side of the new key the leaf
`nn`. -/
def initNode (nr nn curr : α) (nrKey : K) (less : Bool) : State α ι K V :=
  { s with
    key := update s.key nr nrKey
    child := update s.child nr fun right => some (bif right == less then curr else nn) }

/-- The node is passed to `retire`. -/
def retiring (x : α) : State α ι K V :=
  { s with retired := x :: s.retired }

/-- The node goes back to the allocator. -/
def deallocating (x : α) : State α ι K V :=
  { s with allocated := update s.allocated x false, retired := s.retired.erase x }

variable {s} {t q : ι} {p : Pc α K V}

omit [DecidableEq α] in
@[simp] theorem goto_pc_self [DecidableEq ι] : (s.goto t p).pc t = p :=
  update_self ..

omit [DecidableEq α] in
theorem goto_pc_of_ne [DecidableEq ι] (h : q ≠ t) : (s.goto t p).pc q = s.pc q :=
  update_of_ne h ..

end State

/-- The state after the constructor. -/
structure Init [LT K] (cfg : Config α K) (s : State α ι K V) : Prop where
  child_root : ∀ right, s.child cfg.root right = some (bif right then cfg.max else cfg.min)
  child_min : ∀ right, s.child cfg.min right = none
  child_max : ∀ right, s.child cfg.max right = none
  key_root : s.key cfg.root = cfg.keyMax
  key_min : s.key cfg.min = cfg.keyMin
  key_max : s.key cfg.max = cfg.keyMax
  val : ∀ x, s.allocated x = true → s.val x = none
  lock : ∀ x, s.allocated x = true → s.lock x = .zero
  allocated : ∀ x, s.allocated x = true ↔ x = cfg.root ∨ x = cfg.min ∨ x = cfg.max
  retired : s.retired = []
  pc : ∀ t, s.pc t = .idle

/-- The atomic steps of thread `t`. -/
inductive Step [DecidableEq α] [DecidableEq ι] [LinearOrder K] (cfg : Config α K)
    (s : State α ι K V) (t : ι) : NbrEvent α → State α ι K V → Prop
  /-- An operation is called. -/
  | invoke (op : Op K V) (hpc : s.pc t = .idle) (hmin : cfg.keyMin < op.key)
      (hmax : op.key < cfg.keyMax) : Step cfg s t .tau (s.goto t (.start op .none .none))
  /-- `recmgr->startOp(tid)`; `curr = root`. -/
  | startOp (op : Op K V) (ppred pred : Edge α) (hpc : s.pc t = .start op ppred pred) :
      Step cfg s t .startOp (s.goto t (begin cfg.root ppred pred op))
  /-- The signal handler jumps to the checkpoint. -/
  | restart (op : Op K V) (ppred pred : Edge α) (hpc : (s.pc t).checkpoint = some op) :
      Step cfg s t .restart (s.goto t (.start op ppred pred))
  /-- `bst_tk_find`: `curr->left != NULL`. -/
  | findLeft (key : K) (x : α) (hpc : s.pc t = .findLeft key x) (hl : s.child x false ≠ none) :
      Step cfg s t (.read (some x)) (s.goto t (.findKey key x))
  /-- `bst_tk_find`: `curr->left == NULL`. -/
  | findNull (key : K) (x : α) (hpc : s.pc t = .findLeft key x) (hl : s.child x false = none) :
      Step cfg s t (.read (some x)) (s.goto t (.findTest key x))
  /-- `bst_tk_find`: `key < curr->key`. -/
  | findKey (key : K) (x : α) (hpc : s.pc t = .findKey key x) :
      Step cfg s t (.read (some x)) (s.goto t (.findChild key x (toward key (s.key x))))
  /-- `bst_tk_find`: `curr = curr->left` or `curr = curr->right`. -/
  | findChild (key : K) (x y : α) (right : Bool) (hpc : s.pc t = .findChild key x right)
      (hy : s.child x right = some y) :
      Step cfg s t (.read (some x)) (s.goto t (.findLeft key y))
  /-- `bst_tk_find`: `curr->key == key`. -/
  | findHit (key : K) (x : α) (hpc : s.pc t = .findTest key x) (hk : s.key x = key) :
      Step cfg s t (.read (some x)) (s.goto t (.endHit (.contains key) x))
  /-- `bst_tk_find`: `curr->key != key`. -/
  | findMiss (key : K) (x : α) (hpc : s.pc t = .findTest key x) (hk : s.key x ≠ key) :
      Step cfg s t (.read (some x)) (s.goto t (.endMiss (.contains key)))
  /-- `curr_ver = curr->lock.to_uint64`; `ppred = pred`; `pred = curr`. -/
  | loadVer (u : Upd K V) (ppred pred : Edge α) (x : α) (hpc : s.pc t = .loadVer u ppred pred x) :
      Step cfg s t (.read (some x))
        (s.goto t (.readKey u pred ⟨some x, s.lock x, pred.right⟩))
  /-- `key < curr->key`. -/
  | readKey (u : Upd K V) (ppred pred : Edge α) (x : α) (hpc : s.pc t = .readKey u ppred pred)
      (hx : pred.node = some x) :
      Step cfg s t (.read (some x))
        (s.goto t (.loadChild u ppred ⟨some x, pred.ver, toward u.key (s.key x)⟩))
  /-- `curr = curr->left` or `curr = curr->right`. -/
  | loadChild (u : Upd K V) (ppred pred : Edge α) (x y : α)
      (hpc : s.pc t = .loadChild u ppred pred) (hx : pred.node = some x)
      (hy : s.child x pred.right = some y) :
      Step cfg s t (.read (some x)) (s.goto t (.loadLeft u ppred pred y))
  /-- `curr->left != NULL`. -/
  | loadLeft (u : Upd K V) (ppred pred : Edge α) (x : α) (hpc : s.pc t = .loadLeft u ppred pred x)
      (hl : s.child x false ≠ none) :
      Step cfg s t (.read (some x)) (s.goto t (.loadVer u ppred pred x))
  /-- `curr->left == NULL`. -/
  | loadNull (u : Upd K V) (ppred pred : Edge α) (x : α) (hpc : s.pc t = .loadLeft u ppred pred x)
      (hl : s.child x false = none) :
      Step cfg s t (.read (some x)) (s.goto t (.testKey u ppred pred x))
  /-- `curr->key == key`. -/
  | testHit (u : Upd K V) (ppred pred : Edge α) (x : α) (hpc : s.pc t = .testKey u ppred pred x)
      (hk : s.key x = u.key) : Step cfg s t (.read (some x)) (s.goto t (hit ppred pred x u))
  /-- `curr->key != key`. -/
  | testMiss (u : Upd K V) (ppred pred : Edge α) (x : α) (hpc : s.pc t = .testKey u ppred pred x)
      (hk : s.key x ≠ u.key) : Step cfg s t (.read (some x)) (s.goto t (miss ppred pred x u))
  /-- `recmgr->endOp(tid)` in the read phase, before the value of `curr` is returned. -/
  | endHit (op : Op K V) (x : α) (hpc : s.pc t = .endHit op x) :
      Step cfg s t .endOp (s.goto t (.readVal op x))
  /-- `recmgr->endOp(tid)` in the read phase; `return NO_VALUE`. -/
  | endMiss (op : Op K V) (hpc : s.pc t = .endMiss op) :
      Step cfg s t .endOp (s.goto t (.ret op (.value none)))
  /-- `recmgr->saveForWritePhase(tid, pred)`. -/
  | savePred (u : Upd K V) (ppred pred : Edge α) (x : α)
      (hpc : s.pc t = .savePred u ppred pred x) :
      Step cfg s t (.save pred.node) (s.goto t (predSaved ppred pred x u))
  /-- `bst_tk_delete`: `recmgr->saveForWritePhase(tid, ppred)`. -/
  | savePpred (key : K) (ppred pred : Edge α) (x : α)
      (hpc : s.pc t = .savePpred key ppred pred x) :
      Step cfg s t (.save ppred.node) (s.goto t (.saveCurr (.delete key) ppred pred x))
  /-- `recmgr->saveForWritePhase(tid, curr)`. -/
  | saveCurr (u : Upd K V) (ppred pred : Edge α) (x : α)
      (hpc : s.pc t = .saveCurr u ppred pred x) :
      Step cfg s t (.save (some x)) (s.goto t (.upgrade u ppred pred x))
  /-- `recmgr->upgradeToWritePhase(tid)`. -/
  | upgrade (u : Upd K V) (ppred pred : Edge α) (x : α) (hpc : s.pc t = .upgrade u ppred pred x) :
      Step cfg s t .upgrade (s.goto t (upgraded ppred pred x u))
  /-- `bst_tk_insert`: `nn = new_node(tid, key, val, NULL, NULL)`. -/
  | newLeaf (key : K) (val : V) (pred : Edge α) (x a : α)
      (hpc : s.pc t = .newLeaf key val pred x) (ha : s.allocated a = false) :
      Step cfg s t (.alloc a) ((s.allocLeaf a key val).goto t (.newNode key val pred x a))
  /-- `bst_tk_insert`: `nr = new_node_no_init(tid)`. -/
  | newNode (key : K) (val : V) (pred : Edge α) (x a b : α)
      (hpc : s.pc t = .newNode key val pred x a) (hb : s.allocated b = false) :
      Step cfg s t (.alloc b) ((s.allocNode b).goto t (.lockPred key val pred x a b))
  /-- `bst_tk_insert`: `tl_trylock_version(&pred->lock, &pred_ver, right)` succeeds. -/
  | lockPred (key : K) (val : V) (pred : Edge α) (p x a b : α) (l : Tl)
      (hpc : s.pc t = .lockPred key val pred x a b) (hp : pred.node = some p)
      (hl : (s.lock p).trylockVersion pred.ver pred.right = some l) :
      Step cfg s t (.write (some p)) ((s.setLock p l).goto t (.compare key val pred x a b))
  /-- `bst_tk_insert`: `tl_trylock_version(&pred->lock, &pred_ver, right)` fails. -/
  | lockPredFail (key : K) (val : V) (pred : Edge α) (p x a b : α)
      (hpc : s.pc t = .lockPred key val pred x a b) (hp : pred.node = some p)
      (hl : (s.lock p).trylockVersion pred.ver pred.right = none) :
      Step cfg s t (.write (some p)) (s.goto t (.deallocLeaf key val pred a b))
  /-- `bst_tk_insert`: `recmgr->deallocate(tid, nn)`. -/
  | deallocLeaf (key : K) (val : V) (pred : Edge α) (a b : α)
      (hpc : s.pc t = .deallocLeaf key val pred a b) :
      Step cfg s t (.dealloc a) ((s.deallocating a).goto t (.deallocNode key val pred b))
  /-- `bst_tk_insert`: `recmgr->deallocate(tid, nr)`. -/
  | deallocNode (key : K) (val : V) (pred : Edge α) (b : α)
      (hpc : s.pc t = .deallocNode key val pred b) :
      Step cfg s t (.dealloc b)
        ((s.deallocating b).goto t (.endRetry (.insert key val) .none pred))
  /-- `bst_tk_insert`: `key < curr->key`. -/
  | compareLess (key : K) (val : V) (pred : Edge α) (x a b : α)
      (hpc : s.pc t = .compare key val pred x a b) (hk : key < s.key x) :
      Step cfg s t (.read (some x)) (s.goto t (.copyKey key val pred x a b))
  /-- `bst_tk_insert`: `key >= curr->key`. -/
  | compareGreater (key : K) (val : V) (pred : Edge α) (x a b : α)
      (hpc : s.pc t = .compare key val pred x a b) (hk : ¬ key < s.key x) :
      Step cfg s t (.read (some x)) (s.goto t (.initNode key val pred x a b false key))
  /-- `bst_tk_insert`: `curr->key` is read. -/
  | copyKey (key : K) (val : V) (pred : Edge α) (x a b : α)
      (hpc : s.pc t = .copyKey key val pred x a b) :
      Step cfg s t (.read (some x)) (s.goto t (.initNode key val pred x a b true (s.key x)))
  /-- `bst_tk_insert`: the fields of `nr` are stored. -/
  | initNode (key : K) (val : V) (pred : Edge α) (x a b : α) (less : Bool) (nrKey : K)
      (hpc : s.pc t = .initNode key val pred x a b less nrKey) :
      Step cfg s t (.write (some b))
        ((s.initNode b a x nrKey less).goto t (.storeChild key val pred b))
  /-- `bst_tk_insert`: `pred->right = nr` or `pred->left = nr`. -/
  | storeChild (key : K) (val : V) (pred : Edge α) (p b : α)
      (hpc : s.pc t = .storeChild key val pred b) (hp : pred.node = some p) :
      Step cfg s t (.link (some p) b)
        ((s.setChild p pred.right (some b)).goto t (.unlock pred (.inserted key val)))
  /-- `bst_tk_delete`: `tl_trylock_version(&ppred->lock, &ppred_ver, pright)` succeeds. -/
  | lockPpred (key : K) (ppred pred : Edge α) (g x : α) (l : Tl)
      (hpc : s.pc t = .lockPpred key ppred pred x) (hg : ppred.node = some g)
      (hl : (s.lock g).trylockVersion ppred.ver ppred.right = some l) :
      Step cfg s t (.write (some g)) ((s.setLock g l).goto t (.lockBoth key ppred pred x))
  /-- `bst_tk_delete`: `tl_trylock_version(&ppred->lock, &ppred_ver, pright)` fails. -/
  | lockPpredFail (key : K) (ppred pred : Edge α) (g x : α)
      (hpc : s.pc t = .lockPpred key ppred pred x) (hg : ppred.node = some g)
      (hl : (s.lock g).trylockVersion ppred.ver ppred.right = none) :
      Step cfg s t (.write (some g)) (s.goto t (.endRetry (.delete key) ppred pred))
  /-- `bst_tk_delete`: `tl_trylock_version_both(&pred->lock, &pred_ver)` succeeds. -/
  | lockBoth (key : K) (ppred pred : Edge α) (p x : α) (l : Tl)
      (hpc : s.pc t = .lockBoth key ppred pred x) (hp : pred.node = some p)
      (hl : (s.lock p).trylockVersionBoth pred.ver = some l) :
      Step cfg s t (.write (some p)) ((s.setLock p l).goto t (.loadSibling key ppred pred x))
  /-- `bst_tk_delete`: `tl_trylock_version_both(&pred->lock, &pred_ver)` fails. -/
  | lockBothFail (key : K) (ppred pred : Edge α) (p x : α)
      (hpc : s.pc t = .lockBoth key ppred pred x) (hp : pred.node = some p)
      (hl : (s.lock p).trylockVersionBoth pred.ver = none) :
      Step cfg s t (.write (some p)) (s.goto t (.revert key ppred pred))
  /-- `bst_tk_delete`: `pred->left` is loaded if `curr` is on the right, or `pred->right`. -/
  | loadSibling (key : K) (ppred pred : Edge α) (p x : α)
      (hpc : s.pc t = .loadSibling key ppred pred x) (hp : pred.node = some p) :
      Step cfg s t (.read (some p))
        (s.goto t (.splice key ppred pred x (s.child p (!pred.right))))
  /-- `bst_tk_delete`: it is stored in `ppred->right` or `ppred->left`. -/
  | splice (key : K) (ppred pred : Edge α) (g p x : α) (y : Option α)
      (hpc : s.pc t = .splice key ppred pred x y) (hg : ppred.node = some g)
      (hp : pred.node = some p) :
      Step cfg s t (.unlink (some g) p)
        ((s.setChild g ppred.right y).goto t (.unlock ppred (.deleted key pred x)))
  /-- `tl_unlock`: `version` is loaded. -/
  | unlock (e : Edge α) (k : After α K V) (p : α) (hpc : s.pc t = .unlock e k)
      (hp : e.node = some p) :
      Step cfg s t (.read (some p))
        (s.goto t (.storeVersion e ((s.lock p).lr e.right).version k))
  /-- `tl_unlock`: the incremented `version` is stored. -/
  | storeVersion (e : Edge α) (v : BitVec 16) (k : After α K V) (p : α)
      (hpc : s.pc t = .storeVersion e v k) (hp : e.node = some p) :
      Step cfg s t (.write (some p))
        ((s.setLock p ((s.lock p).unlock e.right v)).goto t (unlocked k))
  /-- `tl_revert`: `ticket` is loaded. -/
  | revert (key : K) (ppred pred : Edge α) (g : α) (hpc : s.pc t = .revert key ppred pred)
      (hg : ppred.node = some g) :
      Step cfg s t (.read (some g))
        (s.goto t (.storeTicket key ppred pred ((s.lock g).lr ppred.right).ticket))
  /-- `tl_revert`: the decremented `ticket` is stored. -/
  | storeTicket (key : K) (ppred pred : Edge α) (v : BitVec 16) (g : α)
      (hpc : s.pc t = .storeTicket key ppred pred v) (hg : ppred.node = some g) :
      Step cfg s t (.write (some g)) ((s.setLock g ((s.lock g).revert ppred.right v)).goto t
        (.endRetry (.delete key) ppred pred))
  /-- `bst_tk_delete`: `recmgr->retire(tid, curr)`. -/
  | retireCurr (key : K) (pred : Edge α) (x : α) (hpc : s.pc t = .retireCurr key pred x) :
      Step cfg s t .tau ((s.retiring x).goto t (.retirePred key pred x))
  /-- `bst_tk_delete`: `recmgr->retire(tid, pred)`. -/
  | retirePred (key : K) (pred : Edge α) (p x : α) (hpc : s.pc t = .retirePred key pred x)
      (hp : pred.node = some p) :
      Step cfg s t .tau ((s.retiring p).goto t (.endVal (.erase key) x))
  /-- `recmgr->endOp(tid)` in the write phase; `goto retry`. -/
  | endRetry (u : Upd K V) (ppred pred : Edge α) (hpc : s.pc t = .endRetry u ppred pred) :
      Step cfg s t .endOp (s.goto t (.start u.op ppred pred))
  /-- `recmgr->endOp(tid)` in the write phase, before the value of `curr` is returned. -/
  | endVal (op : Op K V) (x : α) (hpc : s.pc t = .endVal op x) :
      Step cfg s t .endOp (s.goto t (.readVal op x))
  /-- `recmgr->endOp(tid)` in the write phase. -/
  | endOp (op : Op K V) (r : Ret V) (hpc : s.pc t = .endOp op r) :
      Step cfg s t .endOp (s.goto t (.ret op r))
  /-- `return curr->val`. -/
  | readVal (op : Op K V) (x : α) (hpc : s.pc t = .readVal op x) :
      Step cfg s t (.read (some x)) (s.goto t (.ret op (.value (s.val x))))
  /-- `return`. -/
  | ret (op : Op K V) (r : Ret V) (hpc : s.pc t = .ret op r) :
      Step cfg s t .tau (s.goto t .idle)
  /-- The reclaimer frees a retired node. -/
  | free (x : α) (hx : x ∈ s.retired) : Step cfg s t .tau (s.deallocating x)

/-- The implementation, run by the threads `ι`. -/
def lts [DecidableEq α] [DecidableEq ι] [LinearOrder K] (cfg : Config α K) :
    Lts (State α ι K V) (ι × NbrEvent α) where
  init s := Init cfg s
  step s a s' := Step cfg s a.1 a.2 s'

end TicketNzb
end PopSetbench

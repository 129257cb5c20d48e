import Mathlib.Order.Lattice
import PopSetbench.Ds.WritePhase

/-!
# The lazy list under NBR

The list of `lazylist_nzb_impl.h`; the `doInsert` of `lazylist_impl.h` is the same under NBR. An
update searches without locks, saves nodes, becomes unrestartable, locks, and validates under the
locks that `pred` and `curr` are neighbours and not marked. `erase` saves both of them, `doInsert`
only `pred`, and yet `validateLinks` reads the mark of `curr`, and the key and the value of `curr`
are read after it.

A retired node may be handed out again by the allocator at any moment.
-/

namespace PopSetbench
namespace LazyListNzb

open Function

/-- The sentinels. -/
structure Config (α K : Type) [LT K] where
  /-- `KEY_MIN`. -/
  keyMin : K
  /-- `KEY_MAX`. -/
  keyMax : K
  /-- The node with `KEY_MIN` the list begins with. -/
  head : α
  /-- The node with `KEY_MAX` the list ends with. -/
  tail : α
  keyMin_lt : keyMin < keyMax
  head_ne_tail : head ≠ tail

/-- A call that changes the list. -/
inductive Upd (K V : Type)
  /-- Of `doInsert`. -/
  | insert (key : K) (val : V)
  /-- Of `erase`. -/
  | erase (key : K)

/-- The call. -/
def Upd.op {K V : Type} : Upd K V → Op K V
  | .insert key val => .insert key val
  | .erase key => .erase key

/-- The key of the call. -/
def Upd.key {K V : Type} : Upd K V → K
  | .insert key _ => key
  | .erase key => key

/-- Where a thread is in the code. -/
inductive Pc (α K V : Type)
  /-- Between two operations. -/
  | idle
  /-- At the checkpoint, about to call `startOp`. -/
  | start (op : Op K V)
  /-- `contains`: about to compare the key of `curr`. -/
  | walk (key : K) (curr : α)
  /-- `contains`: about to go on to the next node. -/
  | walkNext (key : K) (curr : α)
  /-- `contains`: about to test the key of `curr`. -/
  | testKey (key : K) (curr : α)
  /-- `contains`: about to test the mark of `curr`. -/
  | testMark (key : K) (curr : α)
  /-- `contains`: about to read the value of `curr`. -/
  | readVal (key : K) (curr : α)
  /-- About to load `pred->next`. -/
  | loadNext (u : Upd K V) (pred : α)
  /-- About to compare the key of `curr`. -/
  | readKey (u : Upd K V) (pred curr : α)
  /-- `erase`: about to test the key of `curr`. -/
  | eraseKey (key : K) (pred curr : α)
  /-- In the read phase, about to call `endOp`. -/
  | endRead (op : Op K V) (r : Ret V)
  /-- About to save `pred`. -/
  | savePred (u : Upd K V) (pred curr : α)
  /-- `erase`: about to save `curr`. -/
  | saveCurr (key : K) (pred curr : α)
  /-- About to call `upgradeToWritePhase`. -/
  | upgrade (u : Upd K V) (pred curr : α)
  /-- About to lock `pred`. -/
  | lockPred (u : Upd K V) (pred curr : α)
  /-- `erase`: about to lock `curr`. -/
  | lockCurr (key : K) (pred curr : α)
  /-- `validateLinks`: about to read the mark of `pred`. -/
  | validPred (u : Upd K V) (pred curr : α)
  /-- `validateLinks`: about to read the mark of `curr`. -/
  | validCurr (u : Upd K V) (pred curr : α)
  /-- `validateLinks`: about to load `pred->next`. -/
  | validNext (u : Upd K V) (pred curr : α)
  /-- After a failing validation, about to read the mark of `pred` again. -/
  | failPred (u : Upd K V) (pred curr : α)
  /-- After a failing validation, about to read the mark of `curr` again. -/
  | failCurr (u : Upd K V) (pred curr : α)
  /-- After a failing validation, about to load `pred->next` again. -/
  | failNext (u : Upd K V) (pred curr : α)
  /-- `doInsert`: about to test the key of `curr`. -/
  | insertKey (key : K) (val : V) (pred curr : α)
  /-- `doInsert`: about to read the value of `curr`. -/
  | insertVal (key : K) (val : V) (pred curr : α)
  /-- `doInsert`: about to allocate. -/
  | newNode (key : K) (val : V) (pred curr : α)
  /-- `doInsert`: about to link the new node. -/
  | link (key : K) (val : V) (pred newnode : α)
  /-- `erase`: about to read the value of `curr`. -/
  | eraseVal (key : K) (pred curr : α)
  /-- `erase`: about to load `curr->next`. -/
  | eraseNext (key : K) (pred curr : α) (result : V)
  /-- `erase`: about to mark `curr`. -/
  | mark (key : K) (pred curr : α) (result : V) (c_nxt : Option α)
  /-- `erase`: about to unlink `curr`. -/
  | unlink (key : K) (pred curr : α) (result : V) (c_nxt : Option α)
  /-- `erase`: about to retire `curr`. -/
  | retire (key : K) (pred curr : α) (result : V)
  /-- `erase`: about to unlock `curr`; without a result it tries again. -/
  | unlockCurr (key : K) (pred curr : α) (r : Option (Ret V))
  /-- About to unlock `pred`. -/
  | unlockPred (u : Upd K V) (pred : α) (r : Option (Ret V))
  /-- In the write phase, about to call `endOp`. -/
  | endWrite (u : Upd K V) (r : Option (Ret V))
  /-- About to return. -/
  | ret (op : Op K V) (r : Ret V)

/-- Where an operation goes on after `startOp`. -/
def begin {α K V : Type} (head : α) : Op K V → Pc α K V
  | .contains key => .walk key head
  | .insert key val => .loadNext (.insert key val) head
  | .erase key => .loadNext (.erase key) head

/-- After the search. -/
def Upd.arrive {α K V : Type} (pred curr : α) : Upd K V → Pc α K V
  | .insert key val => .savePred (.insert key val) pred curr
  | .erase key => .eraseKey key pred curr

/-- After `pred` was saved. -/
def Upd.predSaved {α K V : Type} (pred curr : α) : Upd K V → Pc α K V
  | .insert key val => .upgrade (.insert key val) pred curr
  | .erase key => .saveCurr key pred curr

/-- After `pred` was locked. -/
def Upd.predLocked {α K V : Type} (pred curr : α) : Upd K V → Pc α K V
  | .insert key val => .validPred (.insert key val) pred curr
  | .erase key => .lockCurr key pred curr

/-- After a validation. -/
def Upd.validated {α K V : Type} (pred curr : α) : Upd K V → Pc α K V
  | .insert key val => .insertKey key val pred curr
  | .erase key => .eraseVal key pred curr

/-- After a failing validation. -/
def Upd.failed {α K V : Type} (pred curr : α) : Upd K V → Pc α K V
  | .insert key val => .unlockPred (.insert key val) pred none
  | .erase key => .unlockCurr key pred curr none

/-- After `endOp`: without a result the update begins again. -/
def Upd.ended {α K V : Type} (u : Upd K V) : Option (Ret V) → Pc α K V
  | none => .start u.op
  | some r => .ret u.op r

/-- The operation to whose checkpoint the signal handler sends a restartable thread. -/
def Pc.checkpoint {α K V : Type} : Pc α K V → Option (Op K V)
  | .walk key _ => some (.contains key)
  | .walkNext key _ => some (.contains key)
  | .testKey key _ => some (.contains key)
  | .testMark key _ => some (.contains key)
  | .readVal key _ => some (.contains key)
  | .loadNext u _ => some u.op
  | .readKey u _ _ => some u.op
  | .eraseKey key _ _ => some (.erase key)
  | .endRead op _ => some op
  | .savePred u _ _ => some u.op
  | .saveCurr key _ _ => some (.erase key)
  | .upgrade u _ _ => some u.op
  | _ => none

/-- The list and the threads. -/
@[ext]
structure State (α ι K V : Type) where
  /-- The fields `next`. -/
  next : α → Option α
  /-- The fields `marked`. -/
  marked : α → Bool
  /-- The fields `lock`. -/
  lock : α → Bool
  /-- The fields `key`. -/
  key : α → K
  /-- The fields `val`. -/
  val : α → V
  /-- Nodes that are allocated. -/
  allocated : α → Bool
  /-- Nodes that were retired and not yet freed. -/
  retired : List α
  /-- Where each thread is. -/
  pc : ι → Pc α K V

variable {α ι K V : Type}

namespace State

variable (s : State α ι K V)

/-- Thread `t` goes on at `p`. -/
def goto [DecidableEq ι] (t : ι) (p : Pc α K V) : State α ι K V :=
  { s with pc := update s.pc t p }

variable [DecidableEq α]

/-- A `next` pointer is stored. -/
def setNext (x : α) (y : Option α) : State α ι K V :=
  { s with next := update s.next x y }

/-- `marked` is set. -/
def setMarked (x : α) : State α ι K V :=
  { s with marked := update s.marked x true }

/-- A lock is taken or released. -/
def setLock (x : α) (b : Bool) : State α ι K V :=
  { s with lock := update s.lock x b }

/-- The node is passed to `retire`. -/
def retiring (x : α) : State α ι K V :=
  { s with retired := x :: s.retired }

/-- `new_node(tid, key, val, next)` returns `x`. -/
def allocating (x : α) (key : K) (val : V) (next : α) : State α ι K V :=
  { s with
    next := update s.next x (some next)
    marked := update s.marked x false
    lock := update s.lock x false
    key := update s.key x key
    val := update s.val x val
    allocated := update s.allocated x true }

/-- The node goes back to the allocator. -/
def deallocating (x : α) : State α ι K V :=
  { s with allocated := update s.allocated x false, retired := s.retired.erase x }

variable {s}

omit [DecidableEq α] in
@[simp] theorem goto_pc_self [DecidableEq ι] {t : ι} {p : Pc α K V} : (s.goto t p).pc t = p :=
  update_self ..

omit [DecidableEq α] in
theorem goto_pc_of_ne [DecidableEq ι] {t q : ι} {p : Pc α K V} (h : q ≠ t) :
    (s.goto t p).pc q = s.pc q :=
  update_of_ne h ..

end State

/-- The state after the constructor. -/
structure Init [LT K] (cfg : Config α K) (s : State α ι K V) : Prop where
  next_head : s.next cfg.head = some cfg.tail
  next_tail : s.next cfg.tail = none
  key_head : s.key cfg.head = cfg.keyMin
  key_tail : s.key cfg.tail = cfg.keyMax
  marked : ∀ x, s.allocated x = true → s.marked x = false
  lock : ∀ x, s.allocated x = true → s.lock x = false
  allocated : ∀ x, s.allocated x = true ↔ x = cfg.head ∨ x = cfg.tail
  retired : s.retired = []
  pc : ∀ t, s.pc t = .idle

/-- The atomic steps of thread `t`. -/
inductive Step [DecidableEq α] [DecidableEq ι] [LinearOrder K] (cfg : Config α K)
    (s : State α ι K V) (t : ι) : NbrEvent α → State α ι K V → Prop
  /-- An operation is called. -/
  | invoke (op : Op K V) (hpc : s.pc t = .idle) (hmin : cfg.keyMin < op.key)
      (hmax : op.key < cfg.keyMax) : Step cfg s t .tau (s.goto t (.start op))
  /-- `recmgr->getGuard(tid)`. -/
  | startOp (op : Op K V) (hpc : s.pc t = .start op) :
      Step cfg s t .startOp (s.goto t (begin cfg.head op))
  /-- The signal handler jumps to the checkpoint. -/
  | restart (op : Op K V) (hpc : (s.pc t).checkpoint = some op) :
      Step cfg s t .restart (s.goto t (.start op))
  /-- `contains`: `curr->key < key`. -/
  | walk (key : K) (x : α) (hpc : s.pc t = .walk key x) (hk : s.key x < key) :
      Step cfg s t (.read (some x)) (s.goto t (.walkNext key x))
  /-- `contains`: `curr->key >= key`. -/
  | walkEnd (key : K) (x : α) (hpc : s.pc t = .walk key x) (hk : ¬ s.key x < key) :
      Step cfg s t (.read (some x)) (s.goto t (.testKey key x))
  /-- `contains`: `curr = curr->next`. -/
  | walkNext (key : K) (x y : α) (hpc : s.pc t = .walkNext key x) (hy : s.next x = some y) :
      Step cfg s t (.read (some x)) (s.goto t (.walk key y))
  /-- `contains`: `curr->key == key`. -/
  | testKey (key : K) (x : α) (hpc : s.pc t = .testKey key x) (hk : s.key x = key) :
      Step cfg s t (.read (some x)) (s.goto t (.testMark key x))
  /-- `contains`: `curr->key != key`. -/
  | testKeyFail (key : K) (x : α) (hpc : s.pc t = .testKey key x) (hk : s.key x ≠ key) :
      Step cfg s t (.read (some x)) (s.goto t (.endRead (.contains key) (.bool false)))
  /-- `contains`: `!curr->marked`. -/
  | testMark (key : K) (x : α) (hpc : s.pc t = .testMark key x) (hm : s.marked x = false) :
      Step cfg s t (.read (some x)) (s.goto t (.readVal key x))
  /-- `contains`: `curr->marked`. -/
  | testMarkFail (key : K) (x : α) (hpc : s.pc t = .testMark key x) (hm : s.marked x = true) :
      Step cfg s t (.read (some x)) (s.goto t (.endRead (.contains key) (.bool false)))
  /-- `contains`: `res = curr->val`, which is not `NO_VALUE`. -/
  | readVal (key : K) (x : α) (hpc : s.pc t = .readVal key x) :
      Step cfg s t (.read (some x)) (s.goto t (.endRead (.contains key) (.bool true)))
  /-- `curr = pred->next`. -/
  | loadNext (u : Upd K V) (x y : α) (hpc : s.pc t = .loadNext u x) (hy : s.next x = some y) :
      Step cfg s t (.read (some x)) (s.goto t (.readKey u x y))
  /-- `curr->key < key`. -/
  | readKey (u : Upd K V) (pred x : α) (hpc : s.pc t = .readKey u pred x)
      (hk : s.key x < u.key) : Step cfg s t (.read (some x)) (s.goto t (.loadNext u x))
  /-- `curr->key >= key`. -/
  | readKeyEnd (u : Upd K V) (pred x : α) (hpc : s.pc t = .readKey u pred x)
      (hk : ¬ s.key x < u.key) : Step cfg s t (.read (some x)) (s.goto t (u.arrive pred x))
  /-- `erase`: `curr->key == key`. -/
  | eraseKey (key : K) (pred x : α) (hpc : s.pc t = .eraseKey key pred x) (hk : s.key x = key) :
      Step cfg s t (.read (some x)) (s.goto t (.savePred (.erase key) pred x))
  /-- `erase`: `curr->key != key`. -/
  | eraseKeyFail (key : K) (pred x : α) (hpc : s.pc t = .eraseKey key pred x)
      (hk : s.key x ≠ key) :
      Step cfg s t (.read (some x)) (s.goto t (.endRead (.erase key) (.value none)))
  /-- The guard calls `endOp` in the read phase. -/
  | endRead (op : Op K V) (r : Ret V) (hpc : s.pc t = .endRead op r) :
      Step cfg s t .endOp (s.goto t (.ret op r))
  /-- `recmgr->saveForWritePhase(tid, pred)`. -/
  | savePred (u : Upd K V) (pred x : α) (hpc : s.pc t = .savePred u pred x) :
      Step cfg s t (.save (some pred)) (s.goto t (u.predSaved pred x))
  /-- `erase`: `recmgr->saveForWritePhase(tid, curr)`. -/
  | saveCurr (key : K) (pred x : α) (hpc : s.pc t = .saveCurr key pred x) :
      Step cfg s t (.save (some x)) (s.goto t (.upgrade (.erase key) pred x))
  /-- `recmgr->upgradeToWritePhase(tid)`. -/
  | upgrade (u : Upd K V) (pred x : α) (hpc : s.pc t = .upgrade u pred x) :
      Step cfg s t .upgrade (s.goto t (.lockPred u pred x))
  /-- `acquireLock(&(pred->lock))` waits. -/
  | spinPred (u : Upd K V) (pred x : α) (hpc : s.pc t = .lockPred u pred x)
      (hl : s.lock pred = true) : Step cfg s t (.write (some pred)) s
  /-- `acquireLock(&(pred->lock))` gets the lock. -/
  | lockPred (u : Upd K V) (pred x : α) (hpc : s.pc t = .lockPred u pred x)
      (hl : s.lock pred = false) :
      Step cfg s t (.write (some pred)) ((s.setLock pred true).goto t (u.predLocked pred x))
  /-- `acquireLock(&(curr->lock))` waits. -/
  | spinCurr (key : K) (pred x : α) (hpc : s.pc t = .lockCurr key pred x)
      (hl : s.lock x = true) : Step cfg s t (.write (some x)) s
  /-- `acquireLock(&(curr->lock))` gets the lock. -/
  | lockCurr (key : K) (pred x : α) (hpc : s.pc t = .lockCurr key pred x)
      (hl : s.lock x = false) :
      Step cfg s t (.write (some x)) ((s.setLock x true).goto t (.validPred (.erase key) pred x))
  /-- `validateLinks`: `!pred->marked`. -/
  | validPred (u : Upd K V) (pred x : α) (hpc : s.pc t = .validPred u pred x)
      (hm : s.marked pred = false) :
      Step cfg s t (.read (some pred)) (s.goto t (.validCurr u pred x))
  /-- `validateLinks`: `pred->marked`. -/
  | validPredFail (u : Upd K V) (pred x : α) (hpc : s.pc t = .validPred u pred x)
      (hm : s.marked pred = true) :
      Step cfg s t (.read (some pred)) (s.goto t (.failPred u pred x))
  /-- `validateLinks`: `!curr->marked`. -/
  | validCurr (u : Upd K V) (pred x : α) (hpc : s.pc t = .validCurr u pred x)
      (hm : s.marked x = false) :
      Step cfg s t (.read (some x)) (s.goto t (.validNext u pred x))
  /-- `validateLinks`: `curr->marked`. -/
  | validCurrFail (u : Upd K V) (pred x : α) (hpc : s.pc t = .validCurr u pred x)
      (hm : s.marked x = true) :
      Step cfg s t (.read (some x)) (s.goto t (.failPred u pred x))
  /-- `validateLinks`: `pred->next == curr`. -/
  | validNext (u : Upd K V) (pred x : α) (hpc : s.pc t = .validNext u pred x)
      (hn : s.next pred = some x) :
      Step cfg s t (.read (some pred)) (s.goto t (u.validated pred x))
  /-- `validateLinks`: `pred->next != curr`. -/
  | validNextFail (u : Upd K V) (pred x : α) (hpc : s.pc t = .validNext u pred x)
      (hn : s.next pred ≠ some x) :
      Step cfg s t (.read (some pred)) (s.goto t (.failPred u pred x))
  /-- After a failing validation: `pred->marked`. -/
  | failPred (u : Upd K V) (pred x : α) (hpc : s.pc t = .failPred u pred x)
      (hm : s.marked pred = true) :
      Step cfg s t (.read (some pred)) (s.goto t (u.failed pred x))
  /-- After a failing validation: `!pred->marked`. -/
  | failPredNot (u : Upd K V) (pred x : α) (hpc : s.pc t = .failPred u pred x)
      (hm : s.marked pred = false) :
      Step cfg s t (.read (some pred)) (s.goto t (.failCurr u pred x))
  /-- After a failing validation: `curr->marked`. -/
  | failCurr (u : Upd K V) (pred x : α) (hpc : s.pc t = .failCurr u pred x)
      (hm : s.marked x = true) :
      Step cfg s t (.read (some x)) (s.goto t (u.failed pred x))
  /-- After a failing validation: `!curr->marked`. -/
  | failCurrNot (u : Upd K V) (pred x : α) (hpc : s.pc t = .failCurr u pred x)
      (hm : s.marked x = false) :
      Step cfg s t (.read (some x)) (s.goto t (.failNext u pred x))
  /-- After a failing validation: `pred->next != curr`, of which nothing depends. -/
  | failNext (u : Upd K V) (pred x : α) (hpc : s.pc t = .failNext u pred x) :
      Step cfg s t (.read (some pred)) (s.goto t (u.failed pred x))
  /-- `doInsert`: `curr->key == key`. -/
  | insertKey (key : K) (val : V) (pred x : α) (hpc : s.pc t = .insertKey key val pred x)
      (hk : s.key x = key) : Step cfg s t (.read (some x)) (s.goto t (.insertVal key val pred x))
  /-- `doInsert`: `curr->key != key`. -/
  | insertKeyFail (key : K) (val : V) (pred x : α) (hpc : s.pc t = .insertKey key val pred x)
      (hk : s.key x ≠ key) : Step cfg s t (.read (some x)) (s.goto t (.newNode key val pred x))
  /-- `doInsert`: `result = curr->val`. -/
  | insertVal (key : K) (val : V) (pred x : α) (hpc : s.pc t = .insertVal key val pred x) :
      Step cfg s t (.read (some x))
        (s.goto t (.unlockPred (.insert key val) pred (some (.value (some (s.val x))))))
  /-- `newnode = new_node(tid, key, val, curr)`. -/
  | newNode (key : K) (val : V) (pred x a : α) (hpc : s.pc t = .newNode key val pred x)
      (ha : s.allocated a = false) :
      Step cfg s t (.alloc a) ((s.allocating a key val x).goto t (.link key val pred a))
  /-- `pred->next = newnode`. -/
  | link (key : K) (val : V) (pred a : α) (hpc : s.pc t = .link key val pred a) :
      Step cfg s t (.link (some pred) a)
        ((s.setNext pred (some a)).goto t
          (.unlockPred (.insert key val) pred (some (.value none))))
  /-- `erase`: `result = curr->val`. -/
  | eraseVal (key : K) (pred x : α) (hpc : s.pc t = .eraseVal key pred x) :
      Step cfg s t (.read (some x)) (s.goto t (.eraseNext key pred x (s.val x)))
  /-- `erase`: `c_nxt = curr->next`. -/
  | eraseNext (key : K) (pred x : α) (result : V) (hpc : s.pc t = .eraseNext key pred x result) :
      Step cfg s t (.read (some x)) (s.goto t (.mark key pred x result (s.next x)))
  /-- `erase`: `curr->marked = 1`. -/
  | mark (key : K) (pred x : α) (result : V) (nxt : Option α)
      (hpc : s.pc t = .mark key pred x result nxt) :
      Step cfg s t (.write (some x))
        ((s.setMarked x).goto t (.unlink key pred x result nxt))
  /-- `erase`: `pred->next = c_nxt`. -/
  | unlink (key : K) (pred x : α) (result : V) (nxt : Option α)
      (hpc : s.pc t = .unlink key pred x result nxt) :
      Step cfg s t (.unlink (some pred) x)
        ((s.setNext pred nxt).goto t (.retire key pred x result))
  /-- `erase`: `recmgr->retire(tid, curr)`. -/
  | retire (key : K) (pred x : α) (result : V) (hpc : s.pc t = .retire key pred x result) :
      Step cfg s t .tau
        ((s.retiring x).goto t (.unlockCurr key pred x (some (.value (some result)))))
  /-- `releaseLock(&(curr->lock))`. -/
  | unlockCurr (key : K) (pred x : α) (r : Option (Ret V))
      (hpc : s.pc t = .unlockCurr key pred x r) :
      Step cfg s t (.write (some x))
        ((s.setLock x false).goto t (.unlockPred (.erase key) pred r))
  /-- `releaseLock(&(pred->lock))`. -/
  | unlockPred (u : Upd K V) (pred : α) (r : Option (Ret V))
      (hpc : s.pc t = .unlockPred u pred r) :
      Step cfg s t (.write (some pred)) ((s.setLock pred false).goto t (.endWrite u r))
  /-- The guard calls `endOp` in the write phase. -/
  | endWrite (u : Upd K V) (r : Option (Ret V)) (hpc : s.pc t = .endWrite u r) :
      Step cfg s t .endOp (s.goto t (u.ended r))
  /-- `return`. -/
  | ret (op : Op K V) (r : Ret V) (hpc : s.pc t = .ret op r) :
      Step cfg s t .tau (s.goto t .idle)
  /-- The reclaimer frees a retired node. -/
  | free (x : α) (hx : x ∈ s.retired) : Step cfg s t .tau (s.deallocating x)

/-- The implementation, run by the threads `ι`. -/
def lts [DecidableEq α] [DecidableEq ι] [LinearOrder K] (cfg : Config α K) :
    Lts (State α ι K V) (ι × NbrEvent α) where
  init s := Init cfg s
  step s a s' := Step cfg s a.1 a.2 s'

end LazyListNzb
end PopSetbench

import PopSetbench.Ds.Common
import PopSetbench.Library.OwnedList

/-!
# Harris's list

The list of `harrislist_impl.h`. As in the lists of Harris and Michael a node is marked in its own
`next` pointer before it is unlinked, but here a search passes over marked nodes and unlinks all
those between `left` and `right` with one CAS; it then walks over them once more to retire them.

Every access to memory that other threads may write is a step of its own. `Pc` holds the local
variables a thread goes on to use; `left` is `none` as long as `*left_node` is `NULL`. Where the
code would dereference `NULL` there is no step. Memory is not reused: a node that was allocated
once is not allocated again.
-/

namespace PopSetbench
namespace HarrisList

open Function

/-- The sentinels. -/
structure Config (α K V : Type) [LT K] where
  /-- `KEY_MIN`. -/
  keyMin : K
  /-- `KEY_MAX`. -/
  keyMax : K
  /-- The node with `KEY_MIN` the list begins with. -/
  head : α
  /-- The node with `KEY_MAX` the list ends with. -/
  tail : α
  /-- `&tail`, which is returned in place of a value. -/
  addrTail : V
  keyMin_lt : keyMin < keyMax
  head_ne_tail : head ≠ tail

/-- A call of `list_search`, with what its caller needs afterwards. -/
inductive Call (α K V : Type)
  /-- From `contains`. -/
  | contains (key : K)
  /-- From `doInsert`. -/
  | insert (key : K) (val : V) (newElem : α)
  /-- The first one in `erase`. -/
  | erase (key : K)
  /-- The second one in `erase`, for `rightKey`, the key of the node `right` that was marked. It is
  passed by reference; the key of a node is never written again. -/
  | unlink (key rightKey : K) (right : α)

/-- The key that is searched for. -/
def Call.key {α K V : Type} : Call α K V → K
  | .contains key => key
  | .insert key _ _ => key
  | .erase key => key
  | .unlink _ rightKey _ => rightKey

/-- What it means to read this key: in the second search of `erase` it is a field of a node. -/
def Call.keyAccess {α K V : Type} : Call α K V → Event α K V
  | .unlink _ _ right => .access right
  | _ => .tau

/-- Where a thread is in the code. -/
inductive Pc (α K V : Type)
  /-- Between two operations. -/
  | idle
  /-- About to call `startOp`. -/
  | start (op : Op K V)
  /-- `doInsert`: about to allocate. -/
  | newNode (key : K) (val : V)
  /-- `list_search`: about to load `head->next`. -/
  | search (c : Call α K V) (left leftNext : Option α)
  /-- About to test the condition of the loop. -/
  | loop (c : Call α K V) (left leftNext : Option α) (t : α) (tNext : MarkPtr α)
  /-- `t` is not marked and its key is `tKey`, about to compare it with `key`. -/
  | compareKey (c : Call α K V) (left leftNext : Option α) (t : α) (tNext : Option α) (tKey : K)
  /-- About to test `t == tail || !t->next`. -/
  | arrive (c : Call α K V) (left leftNext : Option α) (t : α)
  /-- About to load `t->next`. -/
  | loadNext (c : Call α K V) (left leftNext : Option α) (t : α)
  /-- About to compare `left_node_next` with `right_node`, and to unlink what is between. -/
  | compare (c : Call α K V) (left leftNext : Option α) (right : α)
  /-- About to load `cur->next`; the nodes from `cur` to before `right` are to be retired. -/
  | walk (c : Call α K V) (left : Option α) (cur right : α)
  /-- About to retire `node`; those from `cur` to before `right` are next. -/
  | retire (c : Call α K V) (left : Option α) (node : α) (cur : Option α) (right : α)
  /-- About to look whether `right_node` is marked. -/
  | check (c : Call α K V) (left : Option α) (right : α)
  /-- `list_search` has returned, about to test `right == tail || right->key != key`. -/
  | testKey (c : Call α K V) (left : Option α) (right : α)
  /-- `doInsert`: the key is in the list, about to deallocate the new node. -/
  | deallocate (key : K) (val : V) (newElem : α)
  /-- `doInsert`: about to store `right` in the new node. -/
  | storeNext (key : K) (val : V) (newElem : α) (left : Option α) (right : α)
  /-- `doInsert`: about to link the new node. -/
  | casInsert (key : K) (val : V) (newElem : α) (left : Option α) (right : α)
  /-- `erase`: about to load `right->next`. -/
  | loadSucc (key : K) (left : Option α) (right : α)
  /-- `erase`: about to mark `right`. -/
  | casMark (key : K) (left : Option α) (right : α) (succ : Option α)
  /-- `erase`: `right` is marked, about to unlink it. -/
  | casErase (key : K) (left : Option α) (right : α) (succ : Option α)
  /-- `erase`: `right` could not be unlinked, about to read its key. -/
  | readKey (key : K) (left : Option α) (right : α)
  /-- `erase`: `right` is unlinked, about to retire it. -/
  | retireErased (key : K) (right : α)
  /-- The guard goes out of scope, the result is known. -/
  | endOp (op : Op K V) (r : Ret V)
  /-- About to return. -/
  | ret (op : Op K V) (r : Ret V)

section

variable {α K V : Type} [LT K] (cfg : Config α K V)

/-- Where the caller goes on when `list_search` returns. -/
def Call.done (left : Option α) (right : α) : Call α K V → Pc α K V
  | .unlink key _ _ => .ret (.erase key) (.value (some cfg.addrTail))
  | c => .testKey c left right

/-- Where the caller goes on when `right` does not have the key. -/
def Call.notFound (left : Option α) (right : α) : Call α K V → Pc α K V
  | .contains key => .endOp (.contains key) (.bool false)
  | .insert key val newElem => .storeNext key val newElem left right
  | .erase key => .ret (.erase key) (.value none)
  | .unlink key _ _ => .ret (.erase key) (.value (some cfg.addrTail))

/-- Where the caller goes on when `right` has the key. -/
def Call.found (left : Option α) (right : α) : Call α K V → Pc α K V
  | .contains key => .endOp (.contains key) (.bool true)
  | .insert key val newElem => .deallocate key val newElem
  | .erase key => .loadSucc key left right
  | .unlink key _ _ => .ret (.erase key) (.value (some cfg.addrTail))

end

/-- Where an operation goes on after `startOp`. -/
def Op.begin {α K V : Type} : Op K V → Pc α K V
  | .contains key => .search (.contains key) none none
  | .insert key val => .newNode key val
  | .erase key => .search (.erase key) none none

/-- The list and the threads. -/
structure State (α ι K V : Type) where
  /-- The fields `next`. -/
  link : α → MarkPtr α
  /-- The fields `key`. -/
  key : α → K
  /-- The fields `val`. -/
  val : α → V
  /-- Nodes that were allocated. -/
  allocated : α → Bool
  /-- The calls of `retire`, the last one first. -/
  retired : List α
  /-- Where each thread is. -/
  pc : ι → Pc α K V

variable {α ι K V : Type}

namespace State

variable (s : State α ι K V)

/-- Thread `t` goes on at `p`. -/
def goto [DecidableEq ι] (t : ι) (p : Pc α K V) : State α ι K V :=
  { s with pc := update s.pc t p }

/-- A pointer is stored in the field `next` of a node. -/
def store [DecidableEq α] (x : α) (v : MarkPtr α) : State α ι K V :=
  { s with link := update s.link x v }

/-- The node is passed to `retire`. -/
def retiring (x : α) : State α ι K V :=
  { s with retired := x :: s.retired }

/-- `new_node(tid, key, val, NULL)` returns `x`. -/
def allocating [DecidableEq α] (x : α) (key : K) (val : V) : State α ι K V :=
  { s with
    link := update s.link x ⟨none, false⟩
    key := update s.key x key
    val := update s.val x val
    allocated := update s.allocated x true }

/-- The heap the nodes form. -/
def heap : Heap α K where
  next x := (s.link x).ptr
  marked x := (s.link x).mark
  key := s.key

/-- The memory. -/
def arena : Arena α K V where
  heap := s.heap
  val := s.val
  allocated := s.allocated

variable {s} {x y : α} {t q : ι} {p : Pc α K V}

@[simp] theorem goto_pc_self [DecidableEq ι] : (s.goto t p).pc t = p :=
  update_self ..

theorem goto_pc_of_ne [DecidableEq ι] (h : q ≠ t) : (s.goto t p).pc q = s.pc q :=
  update_of_ne h ..

variable [DecidableEq α]

theorem store_link_of_ne {v : MarkPtr α} (h : y ≠ x) : (s.store x v).link y = s.link y :=
  update_of_ne h ..

theorem store_link_self {v : MarkPtr α} : (s.store x v).link x = v :=
  update_self ..

/-- Moving the link of an unmarked node is moving it in the heap. -/
theorem heap_store_next (hm : (s.link x).mark = false) :
    (s.store x ⟨some y, false⟩).heap = s.heap.setNext x y := by
  have hnext : ∀ z, (s.store x ⟨some y, false⟩).heap.next z = (s.heap.setNext x y).next z := by
    intro z
    by_cases hz : z = x
    · subst hz
      rw [Heap.setNext_next_self]
      show ((s.store z ⟨some y, false⟩).link z).ptr = some y
      rw [store_link_self]
    · rw [Heap.setNext_next_of_ne hz]
      show ((s.store x ⟨some y, false⟩).link z).ptr = (s.link z).ptr
      rw [store_link_of_ne hz]
  have hmark : ∀ z, (s.store x ⟨some y, false⟩).heap.marked z = s.heap.marked z := by
    intro z
    show ((s.store x ⟨some y, false⟩).link z).mark = (s.link z).mark
    by_cases hz : z = x
    · subst hz
      rw [store_link_self]
      exact hm.symm
    · rw [store_link_of_ne hz]
  calc (s.store x ⟨some y, false⟩).heap
      = ⟨(s.store x ⟨some y, false⟩).heap.next, (s.store x ⟨some y, false⟩).heap.marked,
          s.key⟩ := rfl
    _ = s.heap.setNext x y := by rw [funext hnext, funext hmark]; rfl

/-- Setting the mark is marking the node in the heap. -/
theorem heap_store_mark {nxt : Option α} (hl : s.link x = ⟨nxt, false⟩) :
    (s.store x ⟨nxt, true⟩).heap = s.heap.setMarked x := by
  have hnext : ∀ z, (s.store x ⟨nxt, true⟩).heap.next z = s.heap.next z := by
    intro z
    show ((s.store x ⟨nxt, true⟩).link z).ptr = (s.link z).ptr
    by_cases hz : z = x
    · subst hz
      rw [store_link_self, hl]
    · rw [store_link_of_ne hz]
  have hmark : ∀ z, (s.store x ⟨nxt, true⟩).heap.marked z = (s.heap.setMarked x).marked z := by
    intro z
    by_cases hz : z = x
    · subst hz
      rw [Heap.setMarked_marked_self]
      show ((s.store z ⟨nxt, true⟩).link z).mark = true
      rw [store_link_self]
    · rw [Heap.setMarked_marked_of_ne hz]
      show ((s.store x ⟨nxt, true⟩).link z).mark = (s.link z).mark
      rw [store_link_of_ne hz]
  calc (s.store x ⟨nxt, true⟩).heap
      = ⟨(s.store x ⟨nxt, true⟩).heap.next, (s.store x ⟨nxt, true⟩).heap.marked, s.key⟩ := rfl
    _ = s.heap.setMarked x := by rw [funext hnext, funext hmark]; rfl

end State

/-- The list as the library sees it. -/
def Config.lists [LT K] (cfg : Config α K V) : ListFamily Unit α K where
  head _ := cfg.head
  tail _ := cfg.tail
  dom _ k := cfg.keyMin < k ∧ k < cfg.keyMax

/-- The state after the constructor. -/
structure Init [LT K] (cfg : Config α K V) (s : State α ι K V) : Prop where
  link_head : s.link cfg.head = ⟨some cfg.tail, false⟩
  link_tail : s.link cfg.tail = ⟨none, false⟩
  key_head : s.key cfg.head = cfg.keyMin
  key_tail : s.key cfg.tail = cfg.keyMax
  allocated : ∀ x, s.allocated x = true ↔ x = cfg.head ∨ x = cfg.tail
  unmarked : ∀ x, (s.link x).mark = false
  retired : s.retired = []
  pc : ∀ t, s.pc t = .idle

/-- The atomic steps of thread `t`. -/
inductive Step [DecidableEq α] [DecidableEq ι] [LinearOrder K] (cfg : Config α K V)
    (s : State α ι K V) (t : ι) : Event α K V → State α ι K V → Prop
  /-- An operation is called. -/
  | invoke (op : Op K V) (hpc : s.pc t = .idle) (hmin : cfg.keyMin < op.key)
      (hmax : op.key < cfg.keyMax) : Step cfg s t (.invoke op) (s.goto t (.start op))
  /-- `recmgr->startOp(tid)`, or the constructor of the guard. -/
  | startOp (op : Op K V) (hpc : s.pc t = .start op) :
      Step cfg s t .startOp (s.goto t (Op.begin op))
  /-- `new_elem = new_node(tid, key, val, NULL)`. -/
  | newNode (key : K) (val : V) (x : α) (hpc : s.pc t = .newNode key val)
      (hx : s.allocated x = false) :
      Step cfg s t .tau
        ((s.allocating x key val).goto t (.search (.insert key val x) none none))
  /-- `t = head; t_next = head->next`. -/
  | search (c : Call α K V) (left leftNext : Option α)
      (hpc : s.pc t = .search c left leftNext) :
      Step cfg s t (.access cfg.head)
        (s.goto t (.loop c left leftNext cfg.head (s.link cfg.head)))
  /-- `t` is marked: `t = get_unmarked_ref(t_next)`. -/
  | skip (c : Call α K V) (left leftNext : Option α) (x y : α)
      (hpc : s.pc t = .loop c left leftNext x ⟨some y, true⟩) :
      Step cfg s t .tau (s.goto t (.arrive c left leftNext y))
  /-- `t` is not marked: `t->key` is read. -/
  | loadKey (c : Call α K V) (left leftNext : Option α) (x : α) (nxt : Option α)
      (hpc : s.pc t = .loop c left leftNext x ⟨nxt, false⟩) :
      Step cfg s t (.access x) (s.goto t (.compareKey c left leftNext x nxt (s.key x)))
  /-- The key of `t` is too small: it is the new `left_node`. -/
  | pass (c : Call α K V) (left leftNext : Option α) (x y : α) (k : K)
      (hpc : s.pc t = .compareKey c left leftNext x (some y) k) (hk : k < c.key) :
      Step cfg s t c.keyAccess (s.goto t (.arrive c (some x) (some y) y))
  /-- The key of `t` is not too small. -/
  | stop (c : Call α K V) (left leftNext : Option α) (x : α) (nxt : Option α) (k : K)
      (hpc : s.pc t = .compareKey c left leftNext x nxt k) (hk : ¬ k < c.key) :
      Step cfg s t c.keyAccess (s.goto t (.compare c left leftNext x))
  /-- `t == tail`: break. -/
  | arriveTail (c : Call α K V) (left leftNext : Option α)
      (hpc : s.pc t = .arrive c left leftNext cfg.tail) :
      Step cfg s t .tau (s.goto t (.compare c left leftNext cfg.tail))
  /-- `!t->next`: break. -/
  | arriveNull (c : Call α K V) (left leftNext : Option α) (x : α)
      (hpc : s.pc t = .arrive c left leftNext x) (hx : x ≠ cfg.tail)
      (hl : s.link x = ⟨none, false⟩) :
      Step cfg s t (.access x) (s.goto t (.compare c left leftNext x))
  /-- `t->next` is not null. -/
  | arrive (c : Call α K V) (left leftNext : Option α) (x : α)
      (hpc : s.pc t = .arrive c left leftNext x) (hx : x ≠ cfg.tail)
      (hl : s.link x ≠ ⟨none, false⟩) :
      Step cfg s t (.access x) (s.goto t (.loadNext c left leftNext x))
  /-- `t_next = t->next`. -/
  | loadNext (c : Call α K V) (left leftNext : Option α) (x : α)
      (hpc : s.pc t = .loadNext c left leftNext x) :
      Step cfg s t (.access x) (s.goto t (.loop c left leftNext x (s.link x)))
  /-- `left_node_next == right_node`. -/
  | adjacent (c : Call α K V) (left : Option α) (r : α)
      (hpc : s.pc t = .compare c left (some r) r) :
      Step cfg s t .tau (s.goto t (.check c left r))
  /-- `CASB(&((*left_node)->next), left_node_next, right_node)` succeeds. -/
  | casUnlink (c : Call α K V) (l x r : α) (hpc : s.pc t = .compare c (some l) (some x) r)
      (hx : x ≠ r) (hl : s.link l = ⟨some x, false⟩) :
      Step cfg s t (.access l) ((s.store l ⟨some r, false⟩).goto t (.walk c (some l) x r))
  /-- `CASB(&((*left_node)->next), left_node_next, right_node)` fails. -/
  | casUnlinkFail (c : Call α K V) (l : α) (leftNext : Option α) (r : α)
      (hpc : s.pc t = .compare c (some l) leftNext r) (hx : leftNext ≠ some r)
      (hl : s.link l ≠ ⟨leftNext, false⟩) :
      Step cfg s t (.access l) (s.goto t (.search c (some l) leftNext))
  /-- `node_to_free = cur; cur = get_unmarked_ref(cur->next)`. -/
  | walk (c : Call α K V) (left : Option α) (x r : α) (hpc : s.pc t = .walk c left x r) :
      Step cfg s t (.access x) (s.goto t (.retire c left x (s.link x).ptr r))
  /-- `recmgr->retire(tid, node_to_free)` when `cur != right_node`. -/
  | retireNext (c : Call α K V) (left : Option α) (x y r : α)
      (hpc : s.pc t = .retire c left x (some y) r) (hy : y ≠ r) :
      Step cfg s t (.retire x) ((s.retiring x).goto t (.walk c left y r))
  /-- `recmgr->retire(tid, node_to_free)` when `cur == right_node`. -/
  | retireLast (c : Call α K V) (left : Option α) (x r : α)
      (hpc : s.pc t = .retire c left x (some r) r) :
      Step cfg s t (.retire x) ((s.retiring x).goto t (.check c left r))
  /-- `right_node` is the tail. -/
  | checkTail (c : Call α K V) (left : Option α) (hpc : s.pc t = .check c left cfg.tail) :
      Step cfg s t .tau (s.goto t (c.done cfg left cfg.tail))
  /-- `right_node` is marked: retry. -/
  | checkRetry (c : Call α K V) (left : Option α) (r : α) (hpc : s.pc t = .check c left r)
      (hr : r ≠ cfg.tail) (hl : (s.link r).mark = true) :
      Step cfg s t (.access r) (s.goto t (.search c left none))
  /-- `right_node` is not marked. -/
  | check (c : Call α K V) (left : Option α) (r : α) (hpc : s.pc t = .check c left r)
      (hr : r ≠ cfg.tail) (hl : (s.link r).mark = false) :
      Step cfg s t (.access r) (s.goto t (c.done cfg left r))
  /-- `right == tail`. -/
  | testTail (c : Call α K V) (left : Option α) (hpc : s.pc t = .testKey c left cfg.tail) :
      Step cfg s t .tau (s.goto t (c.notFound cfg left cfg.tail))
  /-- `right->key != key`. -/
  | testAbsent (c : Call α K V) (left : Option α) (r : α) (hpc : s.pc t = .testKey c left r)
      (hr : r ≠ cfg.tail) (hk : s.key r ≠ c.key) :
      Step cfg s t (.access r) (s.goto t (c.notFound cfg left r))
  /-- `right->key == key`. -/
  | testFound (c : Call α K V) (left : Option α) (r : α) (hpc : s.pc t = .testKey c left r)
      (hr : r ≠ cfg.tail) (hk : s.key r = c.key) :
      Step cfg s t (.access r) (s.goto t (c.found cfg left r))
  /-- `recmgr->deallocate(tid, new_elem)`. -/
  | deallocate (key : K) (val : V) (newElem : α)
      (hpc : s.pc t = .deallocate key val newElem) :
      Step cfg s t .tau
        (s.goto t (.endOp (.insert key val) (.value (some cfg.addrTail))))
  /-- `new_elem->next = right`. -/
  | storeNext (key : K) (val : V) (newElem : α) (left : Option α) (r : α)
      (hpc : s.pc t = .storeNext key val newElem left r) :
      Step cfg s t .tau
        ((s.store newElem ⟨some r, false⟩).goto t (.casInsert key val newElem left r))
  /-- `CASB(&(left->next), right, new_elem)` succeeds. -/
  | casInsert (key : K) (val : V) (newElem l r : α)
      (hpc : s.pc t = .casInsert key val newElem (some l) r)
      (hl : s.link l = ⟨some r, false⟩) :
      Step cfg s t (.access l)
        ((s.store l ⟨some newElem, false⟩).goto t (.endOp (.insert key val) (.value none)))
  /-- `CASB(&(left->next), right, new_elem)` fails: search again. -/
  | casInsertFail (key : K) (val : V) (newElem l r : α)
      (hpc : s.pc t = .casInsert key val newElem (some l) r)
      (hl : s.link l ≠ ⟨some r, false⟩) :
      Step cfg s t (.access l) (s.goto t (.search (.insert key val newElem) (some l) none))
  /-- `right_succ = right->next` is marked: search again. -/
  | loadSuccMarked (key : K) (left : Option α) (r : α) (hpc : s.pc t = .loadSucc key left r)
      (hl : (s.link r).mark = true) :
      Step cfg s t (.access r) (s.goto t (.search (.erase key) left none))
  /-- `right_succ = right->next` is not marked. -/
  | loadSucc (key : K) (left : Option α) (r : α) (hpc : s.pc t = .loadSucc key left r)
      (hl : (s.link r).mark = false) :
      Step cfg s t (.access r) (s.goto t (.casMark key left r (s.link r).ptr))
  /-- `CASB(&(right->next), right_succ, get_marked_ref(right_succ))` succeeds. -/
  | casMark (key : K) (left : Option α) (r : α) (succ : Option α)
      (hpc : s.pc t = .casMark key left r succ) (hl : s.link r = ⟨succ, false⟩) :
      Step cfg s t (.access r)
        ((s.store r ⟨succ, true⟩).goto t (.casErase key left r succ))
  /-- `CASB(&(right->next), right_succ, get_marked_ref(right_succ))` fails: search again. -/
  | casMarkFail (key : K) (left : Option α) (r : α) (succ : Option α)
      (hpc : s.pc t = .casMark key left r succ) (hl : s.link r ≠ ⟨succ, false⟩) :
      Step cfg s t (.access r) (s.goto t (.search (.erase key) left none))
  /-- `CASB(&left->next, right, right_succ)` succeeds. -/
  | casErase (key : K) (l r : α) (succ : Option α)
      (hpc : s.pc t = .casErase key (some l) r succ) (hl : s.link l = ⟨some r, false⟩) :
      Step cfg s t (.access l) ((s.store l ⟨succ, false⟩).goto t (.retireErased key r))
  /-- `CASB(&left->next, right, right_succ)` fails. -/
  | casEraseFail (key : K) (l r : α) (succ : Option α)
      (hpc : s.pc t = .casErase key (some l) r succ) (hl : s.link l ≠ ⟨some r, false⟩) :
      Step cfg s t (.access l) (s.goto t (.readKey key (some l) r))
  /-- `list_search(tid, right->key, NO_VALUE, &left)` is called. -/
  | readKey (key : K) (left : Option α) (r : α) (hpc : s.pc t = .readKey key left r) :
      Step cfg s t (.access r) (s.goto t (.search (.unlink key (s.key r) r) left none))
  /-- `recmgr->retire(tid, right)`. -/
  | retireErased (key : K) (r : α) (hpc : s.pc t = .retireErased key r) :
      Step cfg s t (.retire r)
        ((s.retiring r).goto t (.ret (.erase key) (.value (some cfg.addrTail))))
  /-- The destructor of the guard calls `endOp`. -/
  | endOp (op : Op K V) (r : Ret V) (hpc : s.pc t = .endOp op r) :
      Step cfg s t .endOp (s.goto t (.ret op r))
  /-- `return`. -/
  | ret (op : Op K V) (r : Ret V) (hpc : s.pc t = .ret op r) :
      Step cfg s t (.ret op r) (s.goto t .idle)

/-- The implementation, run by the threads `ι`. -/
def lts [DecidableEq α] [DecidableEq ι] [LinearOrder K] (cfg : Config α K V) :
    Lts (State α ι K V) (ι × Event α K V) where
  init s := Init cfg s
  step s a s' := Step cfg s a.1 a.2 s'

end HarrisList
end PopSetbench

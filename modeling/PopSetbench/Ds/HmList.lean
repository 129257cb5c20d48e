import Mathlib.Algebra.GroupWithZero.Nat
import Mathlib.Data.Fin.Basic
import Mathlib.Data.Int.Notation
import PopSetbench.Ds.Common
import PopSetbench.Library.MarkedList

/-!
# Harris–Michael lists

The lists of `hmlist_ooi_impl.h` and `hmlist_impl.h` and the hash table of `hmht_impl.h`, which is
an array of such lists. A node is deleted by setting the mark in its own `next` pointer; the CAS
that then moves the link `prev` over it is made by whoever comes first. The three sources share
all their code but for two details, which are the fields of `Impl`.

Every access to memory that other threads may write is a step of its own. `Pc` holds the local
variables a thread goes on to use. A failing `compare_exchange_strong` also stores the value it
found in its expected argument; that is always overwritten before it is used. Memory is not
reused: a node that was allocated once is not allocated again.
-/

namespace PopSetbench
namespace HmList

open Function

/-- What `prev` points to: an atomic `nodeptr`. -/
inductive Link (β α : Type)
  /-- `head`, or `buckets[b].ui`. -/
  | head (b : β)
  /-- The field `next` of a node. -/
  | next (x : α)
  deriving DecidableEq

/-- The node a link is a field of. -/
def Link.owner {β α : Type} : Link β α → Option α
  | .head _ => none
  | .next x => some x

/-- What distinguishes the sources. -/
structure Impl (β K : Type) where
  /-- The list a key belongs to. -/
  bucket : K → β
  /-- `erase` calls `endOp` when its marking CAS fails, and then tries again. -/
  endOpOnRetry : Bool

/-- `hmlist_ooi_impl.h`. -/
def hmlistOOI (K : Type) : Impl Unit K := ⟨fun _ => (), false⟩

/-- `hmlist_impl.h`. -/
def hmlist (K : Type) : Impl Unit K := ⟨fun _ => (), true⟩

/-- `hmht_impl.h`, for keys that are not negative: `bucketid = key%num_buckets`. -/
def hmht (numBuckets : ℕ) [NeZero numBuckets] : Impl (Fin numBuckets) ℤ :=
  ⟨fun key => Fin.ofNat numBuckets (key % numBuckets).toNat, true⟩

/-- The sentinels. -/
structure Config (β α K : Type) [LT K] where
  /-- `KEY_MIN`. -/
  keyMin : K
  /-- `KEY_MAX`. -/
  keyMax : K
  /-- The node with `KEY_MIN` a list begins with. -/
  head : β → α
  /-- The node with `KEY_MAX` a list ends with. -/
  tail : β → α
  keyMin_lt : keyMin < keyMax
  head_injective : Injective head
  tail_injective : Injective tail
  head_ne_tail : ∀ b b', head b ≠ tail b'

/-- A call of `list_search`, with what its caller needs afterwards. -/
inductive Call (α K V : Type)
  /-- From `contains`. -/
  | contains (key : K)
  /-- From `doInsert`. -/
  | insert (key : K) (val : V) (newNode : α)
  /-- The first one in `erase`. -/
  | erase (key : K)
  /-- The second one in `erase`, after `victim` was marked but could not be unlinked. -/
  | unlink (key : K) (res : V) (victim : α)

/-- The key that is searched for. -/
def Call.key {α K V : Type} : Call α K V → K
  | .contains key => key
  | .insert key _ _ => key
  | .erase key => key
  | .unlink key _ _ => key

/-- Where a thread is in the code. -/
inductive Pc (β α K V : Type)
  /-- Between two operations. -/
  | idle
  /-- About to call `startOp`. -/
  | start (op : Op K V)
  /-- `doInsert`: about to allocate. -/
  | newNode (key : K) (val : V)
  /-- `list_search`: about to load `head`. -/
  | search (c : Call α K V)
  /-- About to test `curr` and to load its `next`. -/
  | loop (c : Call α K V) (prev : Link β α) (curr : Option α)
  /-- `next` was `nxt`, about to load it again. -/
  | recheck (c : Call α K V) (prev : Link β α) (curr : α) (nxt : MarkPtr α)
  /-- About to read the key. -/
  | readKey (c : Call α K V) (prev : Link β α) (curr : α) (nxt : MarkPtr α)
  /-- About to load `prev`. -/
  | checkPrev (c : Call α K V) (prev : Link β α) (curr : α) (nxt : MarkPtr α) (ckey : K)
  /-- `curr` is marked, about to unlink it. -/
  | casHelp (c : Call α K V) (prev : Link β α) (curr : α) (nxt : Option α)
  /-- `curr` is unlinked, about to retire it. -/
  | retireHelped (c : Call α K V) (prev : Link β α) (curr : α) (nxt : Option α)
  /-- `doInsert`: the key is in the list, about to deallocate the new node. -/
  | deallocate (key : K) (val : V) (newNode curr : α)
  /-- `doInsert`: about to call `endOp`, and then to return `curr->val`. -/
  | endFound (key : K) (val : V) (curr : α)
  /-- `doInsert`: about to read `curr->val`. -/
  | readFound (key : K) (val : V) (curr : α)
  /-- `doInsert`: about to store `curr` in the new node. -/
  | storeNext (key : K) (val : V) (newNode : α) (prev : Link β α) (curr : Option α)
  /-- `doInsert`: about to link the new node. -/
  | casInsert (key : K) (val : V) (newNode : α) (prev : Link β α) (curr : Option α)
  /-- `erase`: the key is in the list, about to read its value. -/
  | readVal (key : K) (prev : Link β α) (curr : α) (nxt : Option α)
  /-- `erase`: about to mark `curr`. -/
  | casMark (key : K) (prev : Link β α) (curr : α) (nxt : Option α) (res : V)
  /-- `erase`: `curr` was not marked, about to call `endOp`. -/
  | endRetry (key : K)
  /-- `erase`: `curr` is marked, about to unlink it. -/
  | casUnlink (key : K) (prev : Link β α) (curr : α) (nxt : Option α) (res : V)
  /-- `erase`: `curr` is unlinked, about to retire it. -/
  | retireErased (key : K) (curr : α) (res : V)
  /-- About to call `endOp`, the result is known. -/
  | endOp (op : Op K V) (r : Ret V)
  /-- About to return. -/
  | ret (op : Op K V) (r : Ret V)

/-- Where the caller goes on when `list_search` returns false. -/
def Call.notFound {β α K V : Type} (prev : Link β α) (curr : Option α) : Call α K V → Pc β α K V
  | .contains key => .endOp (.contains key) (.bool false)
  | .insert key val newNode => .storeNext key val newNode prev curr
  | .erase key => .endOp (.erase key) (.value none)
  | .unlink key res _ => .endOp (.erase key) (.value (some res))

/-- Where the caller goes on when `list_search` returns true. -/
def Call.found {β α K V : Type} (prev : Link β α) (curr : α) (nxt : Option α) :
    Call α K V → Pc β α K V
  | .contains key => .endOp (.contains key) (.bool true)
  | .insert key val newNode => .deallocate key val newNode curr
  | .erase key => .readVal key prev curr nxt
  | .unlink key res _ => .endOp (.erase key) (.value (some res))

/-- Where an operation goes on after `startOp`. -/
def Op.begin {β α K V : Type} : Op K V → Pc β α K V
  | .contains key => .search (.contains key)
  | .insert key val => .newNode key val
  | .erase key => .search (.erase key)

/-- The lists and the threads. -/
structure State (β α ι K V : Type) where
  /-- `head`, or `buckets[b].ui`, and the fields `next`. -/
  link : Link β α → MarkPtr α
  /-- The fields `key`. -/
  key : α → K
  /-- The fields `val`. -/
  val : α → V
  /-- Nodes that were allocated. -/
  allocated : α → Bool
  /-- The calls of `retire`, the last one first. -/
  retired : List α
  /-- Where each thread is. -/
  pc : ι → Pc β α K V

variable {β α ι K V : Type}

namespace State

variable (s : State β α ι K V)

/-- Thread `t` goes on at `p`. -/
def goto [DecidableEq ι] (t : ι) (p : Pc β α K V) : State β α ι K V :=
  { s with pc := update s.pc t p }

/-- A pointer is stored. -/
def store [DecidableEq β] [DecidableEq α] (l : Link β α) (v : MarkPtr α) : State β α ι K V :=
  { s with link := update s.link l v }

/-- The node is passed to `retire`. -/
def retiring (x : α) : State β α ι K V :=
  { s with retired := x :: s.retired }

/-- `new_node(tid, key, val, NULL)` returns `x`. -/
def allocating [DecidableEq β] [DecidableEq α] (x : α) (key : K) (val : V) : State β α ι K V :=
  { s with
    link := update s.link (.next x) ⟨none, false⟩
    key := update s.key x key
    val := update s.val x val
    allocated := update s.allocated x true }

/-- The heap the links form. -/
def heap : Heap α K where
  next x := (s.link (.next x)).ptr
  marked x := (s.link (.next x)).mark
  key := s.key

variable {s}

@[simp] theorem goto_pc_self [DecidableEq ι] {t : ι} {p : Pc β α K V} : (s.goto t p).pc t = p :=
  update_self ..

theorem goto_pc_of_ne [DecidableEq ι] {t q : ι} {p : Pc β α K V} (h : q ≠ t) :
    (s.goto t p).pc q = s.pc q :=
  update_of_ne h ..

variable [DecidableEq β] [DecidableEq α] {v : MarkPtr α} {x : α}

@[simp] theorem store_self {l : Link β α} : (s.store l v).link l = v :=
  update_self ..

theorem store_next {l : Link β α} (h : l ≠ .next x) :
    (s.store l v).link (.next x) = s.link (.next x) :=
  update_of_ne h.symm ..

theorem store_head {b : β} : (s.store (.next x) v).link (.head b) = s.link (.head b) := by
  show update s.link (.next x) v (.head b) = s.link (.head b)
  rw [update_of_ne (by simp)]

/-- Moving the link of an unmarked node is moving it in the heap. -/
theorem heap_store_next {q y : α} (hm : (s.link (.next q)).mark = false) :
    (s.store (.next q) ⟨some y, false⟩).heap = s.heap.setNext q y := by
  have hnext : ∀ z, (s.store (.next q) ⟨some y, false⟩).heap.next z =
      (s.heap.setNext q y).next z := by
    intro z
    by_cases hz : z = q
    · subst hz
      rw [Heap.setNext_next_self]
      show ((update s.link (.next z) ⟨some y, false⟩) (.next z)).ptr = some y
      rw [update_self]
    · rw [Heap.setNext_next_of_ne hz]
      show ((s.store (.next q) ⟨some y, false⟩).link (.next z)).ptr = _
      rw [store_next (by simpa using Ne.symm hz)]
      rfl
  have hmark : ∀ z, (s.store (.next q) ⟨some y, false⟩).heap.marked z = s.heap.marked z := by
    intro z
    by_cases hz : z = q
    · subst hz
      show ((update s.link (.next z) ⟨some y, false⟩) (.next z)).mark = _
      rw [update_self]
      exact hm.symm
    · show ((s.store (.next q) ⟨some y, false⟩).link (.next z)).mark = _
      rw [store_next (by simpa using Ne.symm hz)]
      rfl
  calc (s.store (.next q) ⟨some y, false⟩).heap
      = ⟨(s.store (.next q) ⟨some y, false⟩).heap.next,
          (s.store (.next q) ⟨some y, false⟩).heap.marked, s.key⟩ := rfl
    _ = s.heap.setNext q y := by rw [funext hnext, funext hmark]; rfl

/-- Setting the mark is marking the node in the heap. -/
theorem heap_store_mark {nxt : Option α} (hl : s.link (.next x) = ⟨nxt, false⟩) :
    (s.store (.next x) ⟨nxt, true⟩).heap = s.heap.setMarked x := by
  have hnext : ∀ z, (s.store (.next x) ⟨nxt, true⟩).heap.next z = s.heap.next z := by
    intro z
    by_cases hz : z = x
    · subst hz
      show ((update s.link (.next z) ⟨nxt, true⟩) (.next z)).ptr = (s.link (.next z)).ptr
      rw [update_self, hl]
    · show ((s.store (.next x) ⟨nxt, true⟩).link (.next z)).ptr = _
      rw [store_next (by simpa using Ne.symm hz)]
      rfl
  have hmark : ∀ z, (s.store (.next x) ⟨nxt, true⟩).heap.marked z =
      (s.heap.setMarked x).marked z := by
    intro z
    by_cases hz : z = x
    · subst hz
      rw [Heap.setMarked_marked_self]
      show ((update s.link (.next z) ⟨nxt, true⟩) (.next z)).mark = true
      rw [update_self]
    · rw [Heap.setMarked_marked_of_ne hz]
      show ((s.store (.next x) ⟨nxt, true⟩).link (.next z)).mark = _
      rw [store_next (by simpa using Ne.symm hz)]
      rfl
  calc (s.store (.next x) ⟨nxt, true⟩).heap
      = ⟨(s.store (.next x) ⟨nxt, true⟩).heap.next,
          (s.store (.next x) ⟨nxt, true⟩).heap.marked, s.key⟩ := rfl
    _ = s.heap.setMarked x := by rw [funext hnext, funext hmark]; rfl

end State

/-- The event of accessing what a link is a field of. -/
def Link.access : Link β α → Event α K V
  | .head _ => .tau
  | .next x => .access x

theorem Link.access_ne_invoke {l : Link β α} {op : Op K V} : l.access ≠ .invoke op := by
  cases l <;> intro h <;> cases h

theorem Link.access_ne_ret {l : Link β α} {op : Op K V} {r : Ret V} : l.access ≠ .ret op r := by
  cases l <;> intro h <;> cases h

theorem Link.access_ne_retire {l : Link β α} {x : α} : (l.access : Event α K V) ≠ .retire x := by
  cases l <;> intro h <;> cases h

/-- The lists as the library sees them. -/
def Config.lists [LT K] (cfg : Config β α K) (impl : Impl β K) : ListFamily β α K where
  head := cfg.head
  tail := cfg.tail
  dom b k := cfg.keyMin < k ∧ k < cfg.keyMax ∧ impl.bucket k = b

/-- The state after the constructor. -/
structure Init [LT K] (cfg : Config β α K) (s : State β α ι K V) : Prop where
  link_head : ∀ b, s.link (.head b) = ⟨some (cfg.head b), false⟩
  link_next_head : ∀ b, s.link (.next (cfg.head b)) = ⟨some (cfg.tail b), false⟩
  link_next_tail : ∀ b, s.link (.next (cfg.tail b)) = ⟨none, false⟩
  key_head : ∀ b, s.key (cfg.head b) = cfg.keyMin
  key_tail : ∀ b, s.key (cfg.tail b) = cfg.keyMax
  allocated_head : ∀ b, s.allocated (cfg.head b) = true
  allocated_tail : ∀ b, s.allocated (cfg.tail b) = true
  fresh : ∀ x, s.allocated x = true → ∃ b, x = cfg.head b ∨ x = cfg.tail b
  unmarked : ∀ x, s.allocated x = false → (s.link (.next x)).mark = false
  retired : s.retired = []
  pc : ∀ t, s.pc t = .idle

/-- The atomic steps of thread `t`. -/
inductive Step [DecidableEq β] [DecidableEq α] [DecidableEq ι] [LinearOrder K] (impl : Impl β K)
    (cfg : Config β α K) (s : State β α ι K V) (t : ι) : Event α K V → State β α ι K V → Prop
  /-- An operation is called. -/
  | invoke (op : Op K V) (hpc : s.pc t = .idle) (hmin : cfg.keyMin < op.key)
      (hmax : op.key < cfg.keyMax) : Step impl cfg s t (.invoke op) (s.goto t (.start op))
  /-- `recmgr->startOp(tid)`. -/
  | startOp (op : Op K V) (hpc : s.pc t = .start op) :
      Step impl cfg s t .startOp (s.goto t (Op.begin op))
  /-- `newNode = new_node(tid, key, val, NULL)`. -/
  | newNode (key : K) (val : V) (x : α) (hpc : s.pc t = .newNode key val)
      (hx : s.allocated x = false) :
      Step impl cfg s t .tau ((s.allocating x key val).goto t (.search (.insert key val x)))
  /-- `prev = &head; curr = prev->load()`. -/
  | search (c : Call α K V) (curr : Option α) (hpc : s.pc t = .search c)
      (hl : s.link (.head (impl.bucket c.key)) = ⟨curr, false⟩) :
      Step impl cfg s t .tau (s.goto t (.loop c (.head (impl.bucket c.key)) curr))
  /-- `curr == nullptr`. -/
  | loopNull (c : Call α K V) (prev : Link β α) (hpc : s.pc t = .loop c prev none) :
      Step impl cfg s t .tau (s.goto t (c.notFound prev none))
  /-- `nxt = curr->next.load()`. -/
  | loop (c : Call α K V) (prev : Link β α) (x : α) (hpc : s.pc t = .loop c prev (some x)) :
      Step impl cfg s t (.access x) (s.goto t (.recheck c prev x (s.link (.next x))))
  /-- `mixPtrMk(nxt, cmark) != curr->next.load()`: start again. -/
  | recheckFail (c : Call α K V) (prev : Link β α) (x : α) (nxt : MarkPtr α)
      (hpc : s.pc t = .recheck c prev x nxt) (hl : s.link (.next x) ≠ nxt) :
      Step impl cfg s t (.access x) (s.goto t (.search c))
  /-- `mixPtrMk(nxt, cmark) == curr->next.load()`. -/
  | recheck (c : Call α K V) (prev : Link β α) (x : α) (nxt : MarkPtr α)
      (hpc : s.pc t = .recheck c prev x nxt) (hl : s.link (.next x) = nxt) :
      Step impl cfg s t (.access x) (s.goto t (.readKey c prev x nxt))
  /-- `ckey = curr->key`. -/
  | readKey (c : Call α K V) (prev : Link β α) (x : α) (nxt : MarkPtr α)
      (hpc : s.pc t = .readKey c prev x nxt) :
      Step impl cfg s t (.access x) (s.goto t (.checkPrev c prev x nxt (s.key x)))
  /-- `prev->load() != curr`: start again. -/
  | checkPrevFail (c : Call α K V) (prev : Link β α) (x : α) (nxt : MarkPtr α) (ckey : K)
      (hpc : s.pc t = .checkPrev c prev x nxt ckey) (hl : s.link prev ≠ ⟨some x, false⟩) :
      Step impl cfg s t prev.access (s.goto t (.search c))
  /-- `curr` is not marked and its key is too small. -/
  | advance (c : Call α K V) (prev : Link β α) (x : α) (nxt : Option α) (ckey : K)
      (hpc : s.pc t = .checkPrev c prev x ⟨nxt, false⟩ ckey)
      (hl : s.link prev = ⟨some x, false⟩) (hk : ckey < c.key) :
      Step impl cfg s t prev.access (s.goto t (.loop c (.next x) nxt))
  /-- `curr` is not marked and has the key. -/
  | found (c : Call α K V) (prev : Link β α) (x : α) (nxt : Option α) (ckey : K)
      (hpc : s.pc t = .checkPrev c prev x ⟨nxt, false⟩ ckey)
      (hl : s.link prev = ⟨some x, false⟩) (hk : ckey = c.key) :
      Step impl cfg s t prev.access (s.goto t (c.found prev x nxt))
  /-- `curr` is not marked and has a greater key. -/
  | notFound (c : Call α K V) (prev : Link β α) (x : α) (nxt : Option α) (ckey : K)
      (hpc : s.pc t = .checkPrev c prev x ⟨nxt, false⟩ ckey)
      (hl : s.link prev = ⟨some x, false⟩) (hk : c.key < ckey) :
      Step impl cfg s t prev.access (s.goto t (c.notFound prev (some x)))
  /-- `curr` is marked. -/
  | help (c : Call α K V) (prev : Link β α) (x : α) (nxt : Option α) (ckey : K)
      (hpc : s.pc t = .checkPrev c prev x ⟨nxt, true⟩ ckey)
      (hl : s.link prev = ⟨some x, false⟩) :
      Step impl cfg s t prev.access (s.goto t (.casHelp c prev x nxt))
  /-- `prev->compare_exchange_strong(curr, nxt)` succeeds. -/
  | casHelp (c : Call α K V) (prev : Link β α) (x : α) (nxt : Option α)
      (hpc : s.pc t = .casHelp c prev x nxt) (hl : s.link prev = ⟨some x, false⟩) :
      Step impl cfg s t prev.access
        ((s.store prev ⟨nxt, false⟩).goto t (.retireHelped c prev x nxt))
  /-- `prev->compare_exchange_strong(curr, nxt)` fails: start again. -/
  | casHelpFail (c : Call α K V) (prev : Link β α) (x : α) (nxt : Option α)
      (hpc : s.pc t = .casHelp c prev x nxt) (hl : s.link prev ≠ ⟨some x, false⟩) :
      Step impl cfg s t prev.access (s.goto t (.search c))
  /-- `recmgr->retire(tid, curr)`, `curr = nxt`. -/
  | retireHelped (c : Call α K V) (prev : Link β α) (x : α) (nxt : Option α)
      (hpc : s.pc t = .retireHelped c prev x nxt) :
      Step impl cfg s t (.retire x) ((s.retiring x).goto t (.loop c prev nxt))
  /-- `recmgr->deallocate(tid, newNode)`. -/
  | deallocate (key : K) (val : V) (newNode x : α)
      (hpc : s.pc t = .deallocate key val newNode x) :
      Step impl cfg s t .tau (s.goto t (.endFound key val x))
  /-- `recmgr->endOp(tid)`. -/
  | endFound (key : K) (val : V) (x : α) (hpc : s.pc t = .endFound key val x) :
      Step impl cfg s t .endOp (s.goto t (.readFound key val x))
  /-- `return curr->val`. -/
  | readFound (key : K) (val : V) (x : α) (hpc : s.pc t = .readFound key val x) :
      Step impl cfg s t (.access x)
        (s.goto t (.ret (.insert key val) (.value (some (s.val x)))))
  /-- `newNode->next.store(curr)`. -/
  | storeNext (key : K) (val : V) (newNode : α) (prev : Link β α) (curr : Option α)
      (hpc : s.pc t = .storeNext key val newNode prev curr) :
      Step impl cfg s t .tau
        ((s.store (.next newNode) ⟨curr, false⟩).goto t (.casInsert key val newNode prev curr))
  /-- `prev->compare_exchange_strong(curr, newNode)` succeeds. -/
  | casInsert (key : K) (val : V) (newNode : α) (prev : Link β α) (curr : Option α)
      (hpc : s.pc t = .casInsert key val newNode prev curr) (hl : s.link prev = ⟨curr, false⟩) :
      Step impl cfg s t prev.access
        ((s.store prev ⟨some newNode, false⟩).goto t (.endOp (.insert key val) (.value none)))
  /-- `prev->compare_exchange_strong(curr, newNode)` fails: search again. -/
  | casInsertFail (key : K) (val : V) (newNode : α) (prev : Link β α) (curr : Option α)
      (hpc : s.pc t = .casInsert key val newNode prev curr) (hl : s.link prev ≠ ⟨curr, false⟩) :
      Step impl cfg s t prev.access (s.goto t (.search (.insert key val newNode)))
  /-- `res = curr->val`. -/
  | readVal (key : K) (prev : Link β α) (x : α) (nxt : Option α)
      (hpc : s.pc t = .readVal key prev x nxt) :
      Step impl cfg s t (.access x) (s.goto t (.casMark key prev x nxt (s.val x)))
  /-- `curr->next.compare_exchange_strong(next, setMk(next))` succeeds. -/
  | casMark (key : K) (prev : Link β α) (x : α) (nxt : Option α) (res : V)
      (hpc : s.pc t = .casMark key prev x nxt res) (hl : s.link (.next x) = ⟨nxt, false⟩) :
      Step impl cfg s t (.access x)
        ((s.store (.next x) ⟨nxt, true⟩).goto t (.casUnlink key prev x nxt res))
  /-- `curr->next.compare_exchange_strong(next, setMk(next))` fails. -/
  | casMarkFail (key : K) (prev : Link β α) (x : α) (nxt : Option α) (res : V)
      (hpc : s.pc t = .casMark key prev x nxt res) (hl : s.link (.next x) ≠ ⟨nxt, false⟩) :
      Step impl cfg s t (.access x)
        (s.goto t (bif impl.endOpOnRetry then .endRetry key else .search (.erase key)))
  /-- `recmgr->endOp(tid); continue`. -/
  | endRetry (key : K) (hpc : s.pc t = .endRetry key) :
      Step impl cfg s t .endOp (s.goto t (.search (.erase key)))
  /-- `prev->compare_exchange_strong(curr, next)` succeeds. -/
  | casUnlink (key : K) (prev : Link β α) (x : α) (nxt : Option α) (res : V)
      (hpc : s.pc t = .casUnlink key prev x nxt res) (hl : s.link prev = ⟨some x, false⟩) :
      Step impl cfg s t prev.access
        ((s.store prev ⟨nxt, false⟩).goto t (.retireErased key x res))
  /-- `prev->compare_exchange_strong(curr, next)` fails: search again. -/
  | casUnlinkFail (key : K) (prev : Link β α) (x : α) (nxt : Option α) (res : V)
      (hpc : s.pc t = .casUnlink key prev x nxt res) (hl : s.link prev ≠ ⟨some x, false⟩) :
      Step impl cfg s t prev.access (s.goto t (.search (.unlink key res x)))
  /-- `recmgr->retire(tid, curr)`. -/
  | retireErased (key : K) (x : α) (res : V) (hpc : s.pc t = .retireErased key x res) :
      Step impl cfg s t (.retire x)
        ((s.retiring x).goto t (.endOp (.erase key) (.value (some res))))
  /-- `recmgr->endOp(tid)`. -/
  | endOp (op : Op K V) (r : Ret V) (hpc : s.pc t = .endOp op r) :
      Step impl cfg s t .endOp (s.goto t (.ret op r))
  /-- `return`. -/
  | ret (op : Op K V) (r : Ret V) (hpc : s.pc t = .ret op r) :
      Step impl cfg s t (.ret op r) (s.goto t .idle)

/-- The implementation, run by the threads `ι`. -/
def lts [DecidableEq β] [DecidableEq α] [DecidableEq ι] [LinearOrder K] (impl : Impl β K)
    (cfg : Config β α K) : Lts (State β α ι K V) (ι × Event α K V) where
  init s := Init cfg s
  step s a s' := Step impl cfg s a.1 a.2 s'

end HmList
end PopSetbench

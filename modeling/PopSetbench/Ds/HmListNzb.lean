import PopSetbench.Ds.HmList
import PopSetbench.Ds.WritePhase

/-!
# The Harris–Michael list under NBR

The list of `hmlist_nzb_impl.h`. Its `list_search` has a checkpoint of its own and a `startOp`
behind it; it saves what `prev` points to, `curr` and `nxt`, and becomes unrestartable before it
returns or unlinks a marked node. What is not saved is the node `prev` is a field of, and three
CASes in the write phase go there: the unlinking of a marked node, the linking of a new node and
the unlinking of an erased node. In runs that reach none of them the write phase touches only what
was saved (`nzb_saved`).

A retired node may be handed out again by the allocator at any moment.
-/

namespace PopSetbench
namespace HmListNzb

open Function
open HmList (Call Config)

/-- What `prev` points to: `head` or the field `next` of a node. -/
abbrev Link (α : Type) := HmList.Link Unit α

/-- Where `list_search` becomes unrestartable. -/
inductive Find (α : Type)
  /-- `curr == nullptr`. -/
  | null
  /-- `curr` has the key. -/
  | hit (curr : α) (nxt : Option α)
  /-- `curr` has a greater key. -/
  | miss (curr : α) (nxt : Option α)
  /-- `curr` is marked. -/
  | marked (curr : α) (nxt : Option α)

/-- `curr`. -/
def Find.curr {α : Type} : Find α → Option α
  | .null => none
  | .hit x _ => some x
  | .miss x _ => some x
  | .marked x _ => some x

/-- `nxt`. -/
def Find.nxt {α : Type} : Find α → Option α
  | .null => none
  | .hit _ nxt => nxt
  | .miss _ nxt => nxt
  | .marked _ nxt => nxt

/-- Where a thread is in the code. -/
inductive Pc (α K V : Type)
  /-- Between two operations. -/
  | idle
  /-- `doInsert`: about to allocate. -/
  | newNode (key : K) (val : V)
  /-- `list_search`: at the checkpoint, about to call `startOp`. -/
  | search (c : Call α K V)
  /-- About to load `head`. -/
  | loadHead (c : Call α K V)
  /-- About to test `curr` and to load its `next`. -/
  | loop (c : Call α K V) (prev : Link α) (curr : Option α)
  /-- `next` was `nxt`, about to load it again. -/
  | recheck (c : Call α K V) (prev : Link α) (curr : α) (nxt : MarkPtr α)
  /-- About to read the key. -/
  | readKey (c : Call α K V) (prev : Link α) (curr : α) (nxt : MarkPtr α)
  /-- About to load `prev`. -/
  | checkPrev (c : Call α K V) (prev : Link α) (curr : α) (nxt : MarkPtr α) (ckey : K)
  /-- Something has changed, about to call `endOp` and to start again. -/
  | endSearch (c : Call α K V)
  /-- About to save what `prev` points to. -/
  | savePrev (c : Call α K V) (prev : Link α) (f : Find α)
  /-- About to save `curr`. -/
  | saveCurr (c : Call α K V) (prev : Link α) (f : Find α)
  /-- About to save `nxt`. -/
  | saveNext (c : Call α K V) (prev : Link α) (f : Find α)
  /-- About to call `upgradeToWritePhase`. -/
  | upgrade (c : Call α K V) (prev : Link α) (f : Find α)
  /-- `curr` is marked, about to unlink it. -/
  | casHelp (c : Call α K V) (prev : Link α) (curr : α) (nxt : Option α)
  /-- `curr` is unlinked, about to retire it. -/
  | retireHelped (c : Call α K V) (curr : α)
  /-- About to call `endOp` and to start again. -/
  | endHelp (c : Call α K V)
  /-- `doInsert`: the key is in the list, about to deallocate the new node. -/
  | deallocate (key : K) (val : V) (newNode curr : α)
  /-- `doInsert`: about to call `endOp`, and then to return `curr->val`. -/
  | endFound (key : K) (val : V) (curr : α)
  /-- `doInsert`: about to read `curr->val`. -/
  | readFound (key : K) (val : V) (curr : α)
  /-- `doInsert`: about to store `curr` in the new node. -/
  | storeNext (key : K) (val : V) (newNode : α) (prev : Link α) (curr : Option α)
  /-- `doInsert`: about to link the new node. -/
  | casInsert (key : K) (val : V) (newNode : α) (prev : Link α) (curr : Option α)
  /-- `erase`: the key is in the list, about to read its value. -/
  | readVal (key : K) (prev : Link α) (curr : α) (nxt : Option α)
  /-- `erase`: about to mark `curr`. -/
  | casMark (key : K) (prev : Link α) (curr : α) (nxt : Option α) (res : V)
  /-- `erase`: `curr` was not marked, about to call `endOp`. -/
  | endRetry (key : K)
  /-- `erase`: `curr` is marked, about to unlink it. -/
  | casUnlink (key : K) (prev : Link α) (curr : α) (nxt : Option α) (res : V)
  /-- `erase`: `curr` is unlinked, about to retire it. -/
  | retireErased (key : K) (curr : α) (res : V)
  /-- `erase`: `curr` could not be unlinked, about to call `endOp` and to search again. -/
  | endUnlink (key : K) (res : V) (victim : α)
  /-- About to call `endOp`, the result is known. -/
  | endOp (op : Op K V) (r : Ret V)
  /-- About to return. -/
  | ret (op : Op K V) (r : Ret V)

/-- Where the caller goes on when `list_search` returns false. -/
def notFound {α K V : Type} (prev : Link α) (curr : Option α) : Call α K V → Pc α K V
  | .contains key => .endOp (.contains key) (.bool false)
  | .insert key val newNode => .storeNext key val newNode prev curr
  | .erase key => .endOp (.erase key) (.value none)
  | .unlink key res _ => .endOp (.erase key) (.value (some res))

/-- Where the caller goes on when `list_search` returns true. -/
def found {α K V : Type} (prev : Link α) (curr : α) (nxt : Option α) : Call α K V → Pc α K V
  | .contains key => .endOp (.contains key) (.bool true)
  | .insert key val newNode => .deallocate key val newNode curr
  | .erase key => .readVal key prev curr nxt
  | .unlink key res _ => .endOp (.erase key) (.value (some res))

/-- The beginning of the write phase. -/
def write {α K V : Type} (c : Call α K V) (prev : Link α) : Find α → Pc α K V
  | .null => notFound prev none c
  | .hit curr nxt => found prev curr nxt c
  | .miss curr _ => notFound prev (some curr) c
  | .marked curr nxt => .casHelp c prev curr nxt

/-- Where an operation begins. -/
def begin {α K V : Type} : Op K V → Pc α K V
  | .contains key => .search (.contains key)
  | .insert key val => .newNode key val
  | .erase key => .search (.erase key)

/-- The search to whose checkpoint the signal handler sends a restartable thread. -/
def Pc.checkpoint {α K V : Type} : Pc α K V → Option (Call α K V)
  | .loadHead c => some c
  | .loop c _ _ => some c
  | .recheck c _ _ _ => some c
  | .readKey c _ _ _ => some c
  | .checkPrev c _ _ _ _ => some c
  | .endSearch c => some c
  | .savePrev c _ _ => some c
  | .saveCurr c _ _ => some c
  | .saveNext c _ _ => some c
  | .upgrade c _ _ => some c
  | _ => none

/-- The list and the threads. -/
@[ext]
structure State (α ι K V : Type) where
  /-- `head` and the fields `next`. -/
  link : Link α → MarkPtr α
  /-- The fields `key`. -/
  key : α → K
  /-- The fields `val`. -/
  val : α → V
  /-- Nodes that are allocated. -/
  allocated : α → Bool
  /-- Nodes that were retired and not yet freed. -/
  retired : List α
  /-- Where each thread is. -/
  pc : ι → Pc α K V

variable {α ι K V : Type}

namespace State

variable (s : State α ι K V)

/-- Thread `t` goes on at `p`. -/
def goto [DecidableEq ι] (t : ι) (p : Pc α K V) : State α ι K V :=
  { s with pc := update s.pc t p }

/-- A pointer is stored. -/
def store [DecidableEq α] (l : Link α) (v : MarkPtr α) : State α ι K V :=
  { s with link := update s.link l v }

/-- The node is passed to `retire`. -/
def retiring (x : α) : State α ι K V :=
  { s with retired := x :: s.retired }

/-- `new_node(tid, key, val, NULL)` returns `x`. -/
def allocating [DecidableEq α] (x : α) (key : K) (val : V) : State α ι K V :=
  { s with
    link := update s.link (.next x) ⟨none, false⟩
    key := update s.key x key
    val := update s.val x val
    allocated := update s.allocated x true }

/-- The node goes back to the allocator. -/
def deallocating [DecidableEq α] (x : α) : State α ι K V :=
  { s with allocated := update s.allocated x false, retired := s.retired.erase x }

variable {s}

@[simp] theorem goto_pc_self [DecidableEq ι] {t : ι} {p : Pc α K V} : (s.goto t p).pc t = p :=
  update_self ..

theorem goto_pc_of_ne [DecidableEq ι] {t q : ι} {p : Pc α K V} (h : q ≠ t) :
    (s.goto t p).pc q = s.pc q :=
  update_of_ne h ..

end State

/-- The state after the constructor. -/
structure Init [LT K] (cfg : Config Unit α K) (s : State α ι K V) : Prop where
  link_head : s.link (.head ()) = ⟨some (cfg.head ()), false⟩
  link_next_head : s.link (.next (cfg.head ())) = ⟨some (cfg.tail ()), false⟩
  link_next_tail : s.link (.next (cfg.tail ())) = ⟨none, false⟩
  key_head : s.key (cfg.head ()) = cfg.keyMin
  key_tail : s.key (cfg.tail ()) = cfg.keyMax
  allocated : ∀ x, s.allocated x = true ↔ x = cfg.head () ∨ x = cfg.tail ()
  retired : s.retired = []
  pc : ∀ t, s.pc t = .idle

/-- The atomic steps of thread `t`. -/
inductive Step [DecidableEq α] [DecidableEq ι] [LinearOrder K] (cfg : Config Unit α K)
    (s : State α ι K V) (t : ι) : NbrEvent α → State α ι K V → Prop
  /-- An operation is called. -/
  | invoke (op : Op K V) (hpc : s.pc t = .idle) (hmin : cfg.keyMin < op.key)
      (hmax : op.key < cfg.keyMax) : Step cfg s t .tau (s.goto t (begin op))
  /-- `newNode = new_node(tid, key, val, NULL)`. -/
  | newNode (key : K) (val : V) (x : α) (hpc : s.pc t = .newNode key val)
      (hx : s.allocated x = false) :
      Step cfg s t (.alloc x) ((s.allocating x key val).goto t (.search (.insert key val x)))
  /-- `recmgr->startOp(tid)`. -/
  | startOp (c : Call α K V) (hpc : s.pc t = .search c) :
      Step cfg s t .startOp (s.goto t (.loadHead c))
  /-- The signal handler jumps to the checkpoint. -/
  | restart (c : Call α K V) (hpc : (s.pc t).checkpoint = some c) :
      Step cfg s t .restart (s.goto t (.search c))
  /-- `prev = &head; curr = prev->load()`. -/
  | loadHead (c : Call α K V) (curr : Option α) (hpc : s.pc t = .loadHead c)
      (hl : s.link (.head ()) = ⟨curr, false⟩) :
      Step cfg s t .tau (s.goto t (.loop c (.head ()) curr))
  /-- `curr == nullptr`: `recmgr->saveForWritePhase(tid, curr)`. -/
  | loopNull (c : Call α K V) (prev : Link α) (hpc : s.pc t = .loop c prev none) :
      Step cfg s t (.save none) (s.goto t (.upgrade c prev .null))
  /-- `nxt = curr->next.load()`. -/
  | loop (c : Call α K V) (prev : Link α) (x : α) (hpc : s.pc t = .loop c prev (some x)) :
      Step cfg s t (.read (some x)) (s.goto t (.recheck c prev x (s.link (.next x))))
  /-- `mixPtrMk(nxt, cmark) != curr->next.load()`. -/
  | recheckFail (c : Call α K V) (prev : Link α) (x : α) (nxt : MarkPtr α)
      (hpc : s.pc t = .recheck c prev x nxt) (hl : s.link (.next x) ≠ nxt) :
      Step cfg s t (.read (some x)) (s.goto t (.endSearch c))
  /-- `mixPtrMk(nxt, cmark) == curr->next.load()`. -/
  | recheck (c : Call α K V) (prev : Link α) (x : α) (nxt : MarkPtr α)
      (hpc : s.pc t = .recheck c prev x nxt) (hl : s.link (.next x) = nxt) :
      Step cfg s t (.read (some x)) (s.goto t (.readKey c prev x nxt))
  /-- `ckey = curr->key`. -/
  | readKey (c : Call α K V) (prev : Link α) (x : α) (nxt : MarkPtr α)
      (hpc : s.pc t = .readKey c prev x nxt) :
      Step cfg s t (.read (some x)) (s.goto t (.checkPrev c prev x nxt (s.key x)))
  /-- `prev->load() != curr`. -/
  | checkPrevFail (c : Call α K V) (prev : Link α) (x : α) (nxt : MarkPtr α) (ckey : K)
      (hpc : s.pc t = .checkPrev c prev x nxt ckey) (hl : s.link prev ≠ ⟨some x, false⟩) :
      Step cfg s t (.read prev.owner) (s.goto t (.endSearch c))
  /-- `curr` is not marked and its key is too small. -/
  | advance (c : Call α K V) (prev : Link α) (x : α) (nxt : Option α) (ckey : K)
      (hpc : s.pc t = .checkPrev c prev x ⟨nxt, false⟩ ckey)
      (hl : s.link prev = ⟨some x, false⟩) (hk : ckey < c.key) :
      Step cfg s t (.read prev.owner) (s.goto t (.loop c (.next x) nxt))
  /-- `curr` is not marked and has the key. -/
  | hit (c : Call α K V) (prev : Link α) (x : α) (nxt : Option α) (ckey : K)
      (hpc : s.pc t = .checkPrev c prev x ⟨nxt, false⟩ ckey)
      (hl : s.link prev = ⟨some x, false⟩) (hk : ckey = c.key) :
      Step cfg s t (.read prev.owner) (s.goto t (.savePrev c prev (.hit x nxt)))
  /-- `curr` is not marked and has a greater key. -/
  | miss (c : Call α K V) (prev : Link α) (x : α) (nxt : Option α) (ckey : K)
      (hpc : s.pc t = .checkPrev c prev x ⟨nxt, false⟩ ckey)
      (hl : s.link prev = ⟨some x, false⟩) (hk : c.key < ckey) :
      Step cfg s t (.read prev.owner) (s.goto t (.savePrev c prev (.miss x nxt)))
  /-- `curr` is marked. -/
  | marked (c : Call α K V) (prev : Link α) (x : α) (nxt : Option α) (ckey : K)
      (hpc : s.pc t = .checkPrev c prev x ⟨nxt, true⟩ ckey)
      (hl : s.link prev = ⟨some x, false⟩) :
      Step cfg s t (.read prev.owner) (s.goto t (.savePrev c prev (.marked x nxt)))
  /-- `recmgr->endOp(tid); goto retry`. -/
  | endSearch (c : Call α K V) (hpc : s.pc t = .endSearch c) :
      Step cfg s t .endOp (s.goto t (.search c))
  /-- `recmgr->saveForWritePhase(tid, prev->load())`. -/
  | savePrev (c : Call α K V) (prev : Link α) (f : Find α) (hpc : s.pc t = .savePrev c prev f) :
      Step cfg s t (.save (s.link prev).record) (s.goto t (.saveCurr c prev f))
  /-- `recmgr->saveForWritePhase(tid, curr)`. -/
  | saveCurr (c : Call α K V) (prev : Link α) (f : Find α) (hpc : s.pc t = .saveCurr c prev f) :
      Step cfg s t (.save f.curr) (s.goto t (.saveNext c prev f))
  /-- `recmgr->saveForWritePhase(tid, nxt)`. -/
  | saveNext (c : Call α K V) (prev : Link α) (f : Find α) (hpc : s.pc t = .saveNext c prev f) :
      Step cfg s t (.save f.nxt) (s.goto t (.upgrade c prev f))
  /-- `recmgr->upgradeToWritePhase(tid)`. -/
  | upgrade (c : Call α K V) (prev : Link α) (f : Find α) (hpc : s.pc t = .upgrade c prev f) :
      Step cfg s t .upgrade (s.goto t (write c prev f))
  /-- `prev->compare_exchange_strong(curr, nxt)` succeeds. -/
  | casHelp (c : Call α K V) (prev : Link α) (x : α) (nxt : Option α)
      (hpc : s.pc t = .casHelp c prev x nxt) (hl : s.link prev = ⟨some x, false⟩) :
      Step cfg s t (.write prev.owner)
        ((s.store prev ⟨nxt, false⟩).goto t (.retireHelped c x))
  /-- `prev->compare_exchange_strong(curr, nxt)` fails. -/
  | casHelpFail (c : Call α K V) (prev : Link α) (x : α) (nxt : Option α)
      (hpc : s.pc t = .casHelp c prev x nxt) (hl : s.link prev ≠ ⟨some x, false⟩) :
      Step cfg s t (.write prev.owner) (s.goto t (.endHelp c))
  /-- `recmgr->retire(tid, curr)`. -/
  | retireHelped (c : Call α K V) (x : α) (hpc : s.pc t = .retireHelped c x) :
      Step cfg s t .tau ((s.retiring x).goto t (.endHelp c))
  /-- `recmgr->endOp(tid); goto retry`. -/
  | endHelp (c : Call α K V) (hpc : s.pc t = .endHelp c) :
      Step cfg s t .endOp (s.goto t (.search c))
  /-- `recmgr->deallocate(tid, newNode)`. -/
  | deallocate (key : K) (val : V) (newNode x : α)
      (hpc : s.pc t = .deallocate key val newNode x) :
      Step cfg s t (.dealloc newNode) ((s.deallocating newNode).goto t (.endFound key val x))
  /-- `recmgr->endOp(tid)`. -/
  | endFound (key : K) (val : V) (x : α) (hpc : s.pc t = .endFound key val x) :
      Step cfg s t .endOp (s.goto t (.readFound key val x))
  /-- `return curr->val`. -/
  | readFound (key : K) (val : V) (x : α) (hpc : s.pc t = .readFound key val x) :
      Step cfg s t (.read (some x)) (s.goto t (.ret (.insert key val) (.value (some (s.val x)))))
  /-- `newNode->next.store(curr)`. -/
  | storeNext (key : K) (val : V) (newNode : α) (prev : Link α) (curr : Option α)
      (hpc : s.pc t = .storeNext key val newNode prev curr) :
      Step cfg s t (.write (some newNode))
        ((s.store (.next newNode) ⟨curr, false⟩).goto t (.casInsert key val newNode prev curr))
  /-- `prev->compare_exchange_strong(curr, newNode)` succeeds. -/
  | casInsert (key : K) (val : V) (newNode : α) (prev : Link α) (curr : Option α)
      (hpc : s.pc t = .casInsert key val newNode prev curr) (hl : s.link prev = ⟨curr, false⟩) :
      Step cfg s t (.link prev.owner newNode)
        ((s.store prev ⟨some newNode, false⟩).goto t (.endOp (.insert key val) (.value none)))
  /-- `prev->compare_exchange_strong(curr, newNode)` fails: search again. -/
  | casInsertFail (key : K) (val : V) (newNode : α) (prev : Link α) (curr : Option α)
      (hpc : s.pc t = .casInsert key val newNode prev curr) (hl : s.link prev ≠ ⟨curr, false⟩) :
      Step cfg s t (.write prev.owner) (s.goto t (.search (.insert key val newNode)))
  /-- `res = curr->val`. -/
  | readVal (key : K) (prev : Link α) (x : α) (nxt : Option α)
      (hpc : s.pc t = .readVal key prev x nxt) :
      Step cfg s t (.read (some x)) (s.goto t (.casMark key prev x nxt (s.val x)))
  /-- `curr->next.compare_exchange_strong(next, setMk(next))` succeeds. -/
  | casMark (key : K) (prev : Link α) (x : α) (nxt : Option α) (res : V)
      (hpc : s.pc t = .casMark key prev x nxt res) (hl : s.link (.next x) = ⟨nxt, false⟩) :
      Step cfg s t (.write (some x))
        ((s.store (.next x) ⟨nxt, true⟩).goto t (.casUnlink key prev x nxt res))
  /-- `curr->next.compare_exchange_strong(next, setMk(next))` fails. -/
  | casMarkFail (key : K) (prev : Link α) (x : α) (nxt : Option α) (res : V)
      (hpc : s.pc t = .casMark key prev x nxt res) (hl : s.link (.next x) ≠ ⟨nxt, false⟩) :
      Step cfg s t (.write (some x)) (s.goto t (.endRetry key))
  /-- `recmgr->endOp(tid); continue`. -/
  | endRetry (key : K) (hpc : s.pc t = .endRetry key) :
      Step cfg s t .endOp (s.goto t (.search (.erase key)))
  /-- `prev->compare_exchange_strong(curr, next)` succeeds. -/
  | casUnlink (key : K) (prev : Link α) (x : α) (nxt : Option α) (res : V)
      (hpc : s.pc t = .casUnlink key prev x nxt res) (hl : s.link prev = ⟨some x, false⟩) :
      Step cfg s t (.write prev.owner)
        ((s.store prev ⟨nxt, false⟩).goto t (.retireErased key x res))
  /-- `prev->compare_exchange_strong(curr, next)` fails. -/
  | casUnlinkFail (key : K) (prev : Link α) (x : α) (nxt : Option α) (res : V)
      (hpc : s.pc t = .casUnlink key prev x nxt res) (hl : s.link prev ≠ ⟨some x, false⟩) :
      Step cfg s t (.write prev.owner) (s.goto t (.endUnlink key res x))
  /-- `recmgr->retire(tid, curr)`. -/
  | retireErased (key : K) (x : α) (res : V) (hpc : s.pc t = .retireErased key x res) :
      Step cfg s t .tau ((s.retiring x).goto t (.endOp (.erase key) (.value (some res))))
  /-- `recmgr->endOp(tid)`, and then `list_search` again. -/
  | endUnlink (key : K) (res : V) (x : α) (hpc : s.pc t = .endUnlink key res x) :
      Step cfg s t .endOp (s.goto t (.search (.unlink key res x)))
  /-- `recmgr->endOp(tid)`. -/
  | endOp (op : Op K V) (r : Ret V) (hpc : s.pc t = .endOp op r) :
      Step cfg s t .endOp (s.goto t (.ret op r))
  /-- `return`. -/
  | ret (op : Op K V) (r : Ret V) (hpc : s.pc t = .ret op r) :
      Step cfg s t .tau (s.goto t .idle)
  /-- The reclaimer frees a retired node. -/
  | free (x : α) (hx : x ∈ s.retired) : Step cfg s t .tau (s.deallocating x)

/-- The implementation, run by the threads `ι`. -/
def lts [DecidableEq α] [DecidableEq ι] [LinearOrder K] (cfg : Config Unit α K) :
    Lts (State α ι K V) (ι × NbrEvent α) where
  init s := Init cfg s
  step s a s' := Step cfg s a.1 a.2 s'

end HmListNzb
end PopSetbench

import PopSetbench.Ds.HmList

/-!
# Harris–Michael lists: the invariant

What a thread knows at each point of its code (`PcOk`) is of a kind that survives the steps of the
others. A node it has met in a list is still there or marked (`Heap.Anchored`); a marked node does
not change any more; a node it has allocated and not yet linked is its own. `Frame` says what one
step does to the shared state, as a move on the lists in which only nodes of the acting thread are
written. From this `Inv`, the invariant of all runs, follows once for all threads.
-/

namespace PopSetbench
namespace HmList

open Function
open Heap (Reach)

variable {β α ι K V : Type}

/-! ### Nodes that are not linked yet -/

/-- The new node of an insertion. -/
def Call.newNode? : Call α K V → Option α
  | .insert _ _ a => some a
  | _ => none

/-- The node a thread has allocated and not yet linked. -/
def Pc.newNode? : Pc β α K V → Option α
  | .search c => c.newNode?
  | .loop c _ _ => c.newNode?
  | .recheck c _ _ _ => c.newNode?
  | .readKey c _ _ _ => c.newNode?
  | .checkPrev c _ _ _ _ => c.newNode?
  | .casHelp c _ _ _ => c.newNode?
  | .retireHelped c _ _ _ => c.newNode?
  | .storeNext _ _ a _ _ => some a
  | .casInsert _ _ a _ _ => some a
  | _ => none

theorem newNode?_notFound {c : Call α K V} {l : Link β α} {curr : Option α} {a : α}
    (h : (c.notFound l curr).newNode? = some a) : c.newNode? = some a := by
  cases c with
  | insert key val a' => exact h
  | _ => cases h

theorem newNode?_found {c : Call α K V} {l : Link β α} {x : α} {nxt : Option α} {a : α}
    (h : (c.found l x nxt).newNode? = some a) : c.newNode? = some a := by
  cases c <;> cases h

section

variable [LinearOrder K] (impl : Impl β K) (cfg : Config β α K) (s s' : State β α ι K V)

/-- The node was allocated, and no thread has seen it in a list. -/
structure Private (x : α) : Prop where
  allocated : s.allocated x = true
  unmarked : s.heap.marked x = false
  off : ∀ b, ¬ Reach s.heap.next (cfg.head b) x

/-- The node has been in the list of a key. -/
def Met (key : K) (x : α) : Prop :=
  s.heap.Anchored (cfg.lists impl) (impl.bucket key) x

/-- `prev` is the link of a node before the key. -/
def PrevNode (key : K) : Link β α → Prop
  | .head _ => False
  | .next p => Met impl cfg s key p ∧ s.key p < key

/-- `prev` is the head, and `curr` the first sentinel, or the link of a node before the key. -/
def PrevOk (key : K) (curr : α) : Link β α → Prop
  | .head b => b = impl.bucket key ∧ curr = cfg.head b
  | .next p => Met impl cfg s key p ∧ s.key p < key

/-- A pointer to a node that has been in the list. -/
def PtrOk (key : K) (nxt : Option α) : Prop :=
  ∃ y, nxt = some y ∧ Met impl cfg s key y

/-- What was found in the field `next` of a node that is not the tail. -/
def NextOk (key : K) (x : α) (nxt : MarkPtr α) : Prop :=
  (nxt.mark = true → s.link (.next x) = nxt) ∧
    (nxt.mark = false → x = cfg.tail (impl.bucket key) ∨ PtrOk impl cfg s key nxt.ptr)

/-- The key lies between the sentinels. -/
def UserKey (key : K) : Prop :=
  cfg.keyMin < key ∧ key < cfg.keyMax

/-- What holds of the arguments of `list_search` and of what its caller needs. -/
def CallOk : Call α K V → Prop
  | .contains key => UserKey cfg key
  | .insert key val newNode =>
    UserKey cfg key ∧ Private cfg s newNode ∧ s.key newNode = key ∧ s.val newNode = val
  | .erase key => UserKey cfg key
  | .unlink key _ victim => UserKey cfg key ∧ s.heap.marked victim = true ∧ s.key victim = key

/-- What a thread knows, by where it is. -/
def PcOk : Pc β α K V → Prop
  | .start op => UserKey cfg op.key
  | .newNode key _ => UserKey cfg key
  | .search c => CallOk cfg s c
  | .loop c prev curr => CallOk cfg s c ∧
    ∃ x, curr = some x ∧ PrevOk impl cfg s c.key x prev ∧ Met impl cfg s c.key x
  | .recheck c prev x nxt | .readKey c prev x nxt => CallOk cfg s c ∧
    PrevOk impl cfg s c.key x prev ∧ Met impl cfg s c.key x ∧ NextOk impl cfg s c.key x nxt
  | .checkPrev c prev x nxt ckey => CallOk cfg s c ∧ PrevOk impl cfg s c.key x prev ∧
    Met impl cfg s c.key x ∧ NextOk impl cfg s c.key x nxt ∧ ckey = s.key x
  | .casHelp c prev x nxt => CallOk cfg s c ∧ PrevNode impl cfg s c.key prev ∧
    s.link (.next x) = ⟨nxt, true⟩ ∧ PtrOk impl cfg s c.key nxt
  | .retireHelped c prev _ nxt => CallOk cfg s c ∧ PrevNode impl cfg s c.key prev ∧
    PtrOk impl cfg s c.key nxt
  | .storeNext key val a prev curr => CallOk cfg s (.insert key val a) ∧
    PrevNode impl cfg s key prev ∧
    ∃ x, curr = some x ∧ Met impl cfg s key x ∧ key < s.key x
  | .casInsert key val a prev curr => CallOk cfg s (.insert key val a) ∧
    PrevNode impl cfg s key prev ∧ s.link (.next a) = ⟨curr, false⟩ ∧
    ∃ x, curr = some x ∧ Met impl cfg s key x ∧ key < s.key x
  | .readVal key prev x nxt | .casMark key prev x nxt _ => UserKey cfg key ∧
    PrevNode impl cfg s key prev ∧ Met impl cfg s key x ∧ s.key x = key ∧ PtrOk impl cfg s key nxt
  | .deallocate key _ _ x | .endFound key _ x | .readFound key _ x => Met impl cfg s key x
  | .endRetry key => UserKey cfg key
  | .casUnlink key prev x nxt _ => UserKey cfg key ∧ PrevNode impl cfg s key prev ∧
    s.link (.next x) = ⟨nxt, true⟩ ∧ s.key x = key ∧ PtrOk impl cfg s key nxt
  | _ => True

/-- **The invariant.** -/
structure Inv : Prop where
  /-- The lists are well-formed. -/
  wf : s.heap.WF (cfg.lists impl)
  /-- The links that lists begin with do not change. -/
  link_head : ∀ b, s.link (.head b) = ⟨some (cfg.head b), false⟩
  /-- Lists begin with the least key. -/
  key_head : ∀ b, s.key (cfg.head b) = cfg.keyMin
  /-- Lists end with the greatest key. -/
  key_tail : ∀ b, s.key (cfg.tail b) = cfg.keyMax
  /-- Nodes of lists were allocated. -/
  reach_allocated : ∀ {b x}, Reach s.heap.next (cfg.head b) x → s.allocated x = true
  /-- Marked nodes were allocated. -/
  marked_allocated : ∀ {x}, s.heap.marked x = true → s.allocated x = true
  /-- Every thread knows what it needs. -/
  pc : ∀ t, PcOk impl cfg s (s.pc t)
  /-- No two threads insert the same node. -/
  newNode_ne : ∀ {t t' a}, (s.pc t).newNode? = some a → (s.pc t').newNode? = some a → t = t'

/-- What a step of thread `t` does to the shared state; `own` are the nodes it writes that are not
in a list. -/
structure Frame [DecidableEq α] (t : ι) (own : α → Prop) : Prop where
  /-- The thread allocates the node or has allocated it before. -/
  own_new : ∀ x, own x → (s.allocated x = false ∨ (s.pc t).newNode? = some x) ∧ s'.allocated x = true
  /-- The step is a move on the lists. -/
  move : s.heap.Move (cfg.lists impl) own s'.heap
  head : ∀ b, s'.link (.head b) = s.link (.head b)
  link : ∀ x, Private cfg s x → ¬ own x → s'.link (.next x) = s.link (.next x)
  val : ∀ x, ¬ own x → s'.val x = s.val x
  allocated : ∀ x, s.allocated x = true → s'.allocated x = true
  pc : ∀ q, q ≠ t → s'.pc q = s.pc q

/-- What survives a step, for a thread whose own nodes are those in `priv`. -/
structure Stable (priv : α → Prop) : Prop where
  met : ∀ {key x}, Met impl cfg s key x → Met impl cfg s' key x ∧ s'.key x = s.key x
  val : ∀ {key x}, Met impl cfg s key x → s'.val x = s.val x
  frozen : ∀ {x}, s.heap.marked x = true →
    s'.link (.next x) = s.link (.next x) ∧ s'.key x = s.key x
  priv : ∀ {x}, Private cfg s x → priv x →
    Private cfg s' x ∧ s'.key x = s.key x ∧ s'.val x = s.val x ∧
      s'.link (.next x) = s.link (.next x)

end

/-! ### What survives a step -/

section

variable [LinearOrder K] {impl : Impl β K} {cfg : Config β α K} {s s' : State β α ι K V}
  {priv : α → Prop} {key : K} {x : α}

theorem Private.not_met (h : Private cfg s x) : ¬ Met impl cfg s key x := by
  rintro (hm | hr)
  · rw [h.unmarked] at hm
    cases hm
  · exact h.off _ hr

theorem Inv.met_allocated (inv : Inv impl cfg s) (h : Met impl cfg s key x) :
    s.allocated x = true :=
  h.elim inv.marked_allocated inv.reach_allocated

theorem Met.reach (h : Met impl cfg s key x) (hm : (s.link (.next x)).mark = false) :
    Reach s.heap.next (cfg.head (impl.bucket key)) x := by
  apply h.resolve_left
  intro hm'
  rw [show s.heap.marked x = false from hm] at hm'
  cases hm'

theorem CallOk.userKey {c : Call α K V} (h : CallOk cfg s c) : UserKey cfg c.key := by
  cases c with
  | contains key => exact h
  | insert key val a => exact h.1
  | erase key => exact h
  | unlink key res victim => exact h.1

theorem CallOk.private_newNode {c : Call α K V} {a : α} (h : CallOk cfg s c)
    (ha : c.newNode? = some a) :
    Private cfg s a := by
  cases c with
  | insert key val a' =>
    obtain rfl := Option.some.inj ha
    exact h.2.1
  | _ => cases ha

theorem PcOk.private_newNode {p : Pc β α K V} {a : α} (h : PcOk impl cfg s p)
    (ha : p.newNode? = some a) :
    Private cfg s a := by
  cases p with
  | search c => exact CallOk.private_newNode h ha
  | loop c prev curr => exact h.1.private_newNode ha
  | recheck c prev x nxt => exact h.1.private_newNode ha
  | readKey c prev x nxt => exact h.1.private_newNode ha
  | checkPrev c prev x nxt ckey => exact h.1.private_newNode ha
  | casHelp c prev x nxt => exact h.1.private_newNode ha
  | retireHelped c prev x nxt => exact h.1.private_newNode ha
  | storeNext key val a' prev curr => exact h.1.private_newNode ha
  | casInsert key val a' prev curr => exact h.1.private_newNode ha
  | _ => cases ha

theorem PrevNode.prevOk {l : Link β α} (h : PrevNode impl cfg s key l) :
    PrevOk impl cfg s key x l := by
  cases l with
  | head b => exact h.elim
  | next p => exact h

section Mono

variable (st : Stable impl cfg s s' priv)

include st

theorem PrevNode.mono {l : Link β α} (h : PrevNode impl cfg s key l) :
    PrevNode impl cfg s' key l := by
  cases l with
  | head b => exact h
  | next p =>
    obtain ⟨hm, hk⟩ := st.met h.1
    exact ⟨hm, hk ▸ h.2⟩

theorem PrevOk.mono {l : Link β α} (h : PrevOk impl cfg s key x l) :
    PrevOk impl cfg s' key x l := by
  cases l with
  | head b => exact h
  | next p =>
    obtain ⟨hm, hk⟩ := st.met h.1
    exact ⟨hm, hk ▸ h.2⟩

theorem PtrOk.mono {nxt : Option α} (h : PtrOk impl cfg s key nxt) :
    PtrOk impl cfg s' key nxt := by
  obtain ⟨y, hy, hm⟩ := h
  exact ⟨y, hy, (st.met hm).1⟩

theorem NextOk.mono {nxt : MarkPtr α} (h : NextOk impl cfg s key x nxt) :
    NextOk impl cfg s' key x nxt := by
  refine ⟨fun hm => ?_, fun hm => (h.2 hm).imp id fun hp => hp.mono st⟩
  have hl := h.1 hm
  have hx : s.heap.marked x = true := by
    show (s.link (.next x)).mark = true
    rw [hl]
    exact hm
  exact (st.frozen hx).1.trans hl

theorem CallOk.mono {c : Call α K V} (hp : ∀ a, c.newNode? = some a → priv a)
    (h : CallOk cfg s c) : CallOk cfg s' c := by
  cases c with
  | contains key => exact h
  | insert key val a =>
    obtain ⟨hk, ha, hka, hva⟩ := h
    obtain ⟨ha', hka', hva', -⟩ := st.priv ha (hp a rfl)
    exact ⟨hk, ha', hka'.trans hka, hva'.trans hva⟩
  | erase key => exact h
  | unlink key res victim =>
    obtain ⟨hk, hm, hv⟩ := h
    obtain ⟨hl, hv'⟩ := st.frozen hm
    refine ⟨hk, ?_, hv'.trans hv⟩
    show (s'.link (.next victim)).mark = true
    rw [hl]
    exact hm

/-- A pointer that was marked is still there. -/
theorem link_of_marked {nxt : Option α} (h : s.link (.next x) = ⟨nxt, true⟩) :
    s'.link (.next x) = ⟨nxt, true⟩ ∧ s'.key x = s.key x := by
  have hx : s.heap.marked x = true := by
    show (s.link (.next x)).mark = true
    rw [h]
  obtain ⟨hl, hk⟩ := st.frozen hx
  exact ⟨hl.trans h, hk⟩

/-- **What a thread knows survives.** -/
theorem PcOk.mono {p : Pc β α K V} (hp : ∀ a, p.newNode? = some a → priv a)
    (h : PcOk impl cfg s p) : PcOk impl cfg s' p := by
  cases p with
  | start op => exact h
  | newNode key val => exact h
  | search c => exact CallOk.mono st hp h
  | loop c prev curr =>
    -- the search keeps where it stands; the link may have been written, so `next` is open
    obtain ⟨hc, x, hx, hprev, hm⟩ := h
    exact ⟨hc.mono st hp, x, hx, hprev.mono st, (st.met hm).1⟩
  | recheck c prev x nxt =>
    obtain ⟨hc, hprev, hm, hn⟩ := h
    exact ⟨hc.mono st hp, hprev.mono st, (st.met hm).1, hn.mono st⟩
  | readKey c prev x nxt =>
    obtain ⟨hc, hprev, hm, hn⟩ := h
    exact ⟨hc.mono st hp, hprev.mono st, (st.met hm).1, hn.mono st⟩
  | checkPrev c prev x nxt ckey =>
    obtain ⟨hc, hprev, hm, hn, hk⟩ := h
    obtain ⟨hm', hk'⟩ := st.met hm
    exact ⟨hc.mono st hp, hprev.mono st, hm', hn.mono st, hk.trans hk'.symm⟩
  | casHelp c prev x nxt =>
    -- a marked node keeps its link, so the CAS still has the right new value
    obtain ⟨hc, hprev, hl, hn⟩ := h
    exact ⟨hc.mono st hp, hprev.mono st, (link_of_marked st hl).1, hn.mono st⟩
  | retireHelped c prev x nxt =>
    obtain ⟨hc, hprev, hn⟩ := h
    exact ⟨hc.mono st hp, hprev.mono st, hn.mono st⟩
  | storeNext key val a prev curr =>
    obtain ⟨hc, hprev, x, hx, hm, hk⟩ := h
    obtain ⟨hm', hk'⟩ := st.met hm
    exact ⟨hc.mono st hp, hprev.mono st, x, hx, hm', hk'.symm ▸ hk⟩
  | casInsert key val a prev curr =>
    -- the new node is private, and keeps the link that was stored in it
    obtain ⟨hc, hprev, hl, x, hx, hm, hk⟩ := h
    obtain ⟨hm', hk'⟩ := st.met hm
    obtain ⟨-, -, -, hl'⟩ := st.priv hc.2.1 (hp a rfl)
    exact ⟨hc.mono st hp, hprev.mono st, hl'.trans hl, x, hx, hm', hk'.symm ▸ hk⟩
  | readVal key prev x nxt =>
    obtain ⟨hu, hprev, hm, hk, hn⟩ := h
    obtain ⟨hm', hk'⟩ := st.met hm
    exact ⟨hu, hprev.mono st, hm', hk'.trans hk, hn.mono st⟩
  | casMark key prev x nxt res =>
    -- `marked` or not, a node that was met is still met
    obtain ⟨hu, hprev, hm, hk, hn⟩ := h
    obtain ⟨hm', hk'⟩ := st.met hm
    exact ⟨hu, hprev.mono st, hm', hk'.trans hk, hn.mono st⟩
  | deallocate key val a x => exact (st.met h).1
  | endFound key val x => exact (st.met h).1
  | readFound key val x => exact (st.met h).1
  | endRetry key => exact h
  | casUnlink key prev x nxt res =>
    obtain ⟨hu, hprev, hl, hk, hn⟩ := h
    obtain ⟨hl', hk'⟩ := link_of_marked st hl
    exact ⟨hu, hprev.mono st, hl', hk'.trans hk, hn.mono st⟩
  | _ => trivial

end Mono

/-! ### What the invariant gives where it is used -/

theorem Inv.key_tail_ne (inv : Inv impl cfg s) {b : β} (hx : s.key x ≤ key)
    (hk : key < cfg.keyMax) : x ≠ cfg.tail b := by
  rintro rfl
  rw [inv.key_tail] at hx
  exact absurd hx (not_le.mpr hk)

/-- At a key that is not smaller than the one searched for, `prev` is the link of a node. -/
theorem PrevOk.prevNode (inv : Inv impl cfg s) (hu : UserKey cfg key) {l : Link β α}
    (h : PrevOk impl cfg s key x l) (hx : key ≤ s.key x) : PrevNode impl cfg s key l := by
  cases l with
  | head b =>
    obtain ⟨-, rfl⟩ := h
    rw [inv.key_head] at hx
    exact absurd hx (not_le.mpr hu.1)
  | next p => exact h

/-- At a marked node, `prev` is the link of a node. -/
theorem PrevOk.prevNode_of_marked (inv : Inv impl cfg s) {l : Link β α}
    (h : PrevOk impl cfg s key x l) (hx : s.heap.marked x = true) :
    PrevNode impl cfg s key l := by
  cases l with
  | head b =>
    obtain ⟨-, rfl⟩ := h
    have h : s.heap.marked (cfg.head b) = false := inv.wf.marked_head b
    rw [h] at hx
    cases hx
  | next p => exact h

/-- What is read from the field `next` of a node of the list. -/
theorem Met.nextOk (inv : Inv impl cfg s) (hm : Met impl cfg s key x) :
    NextOk impl cfg s key x (s.link (.next x)) := by
  refine ⟨fun _ => rfl, fun hmark => ?_⟩
  have hx := hm.reach hmark
  by_cases ht : x = cfg.tail (impl.bucket key)
  · exact .inl ht
  · obtain ⟨y, hy, hr⟩ := inv.wf.reach_next hx ht
    exact .inr ⟨y, hy, .inr hr⟩

/-- The successor found in a node with a key below the greatest one. -/
theorem NextOk.ptrOk (inv : Inv impl cfg s) {nxt : Option α}
    (h : NextOk impl cfg s key x ⟨nxt, false⟩) (hx : s.key x ≤ key) (hk : key < cfg.keyMax) :
    PtrOk impl cfg s key nxt :=
  (h.2 rfl).resolve_left (inv.key_tail_ne hx hk)

/-- A node that an unmarked link of the list points to is in the list. -/
theorem PrevNode.reach {l : Link β α} (h : PrevNode impl cfg s key l)
    (hl : s.link l = ⟨some x, false⟩) :
    ∃ q, l = .next q ∧ s.heap.marked q = false ∧ s.key q < key ∧
      Reach s.heap.next (cfg.head (impl.bucket key)) q ∧ s.heap.next q = some x := by
  cases l with
  | head b => exact h.elim
  | next q =>
    have hmark : (s.link (.next q)).mark = false := by rw [hl]
    refine ⟨q, rfl, hmark, h.2, h.1.reach hmark, ?_⟩
    show (s.link (.next q)).ptr = some x
    rw [hl]

/-- A marked node of the list has a successor. -/
theorem Inv.ptrOk_of_marked (inv : Inv impl cfg s) {nxt : Option α}
    (hx : Reach s.heap.next (cfg.head (impl.bucket key)) x) (hl : s.link (.next x) = ⟨nxt, true⟩) :
    PtrOk impl cfg s key nxt := by
  have hne : x ≠ cfg.tail (impl.bucket key) := by
    rintro rfl
    have h : (s.link (.next (cfg.tail (impl.bucket key)))).mark = false :=
      inv.wf.marked_tail (impl.bucket key)
    rw [hl] at h
    cases h
  obtain ⟨y, hy, hr⟩ := inv.wf.reach_next hx hne
  have hnxt : nxt = some y := by
    have h : (s.link (.next x)).ptr = some y := hy
    rw [hl] at h
    exact h
  exact ⟨y, hnxt, .inr hr⟩

/-- A node with a key between the sentinels is live as long as it is not marked. -/
theorem Met.live (inv : Inv impl cfg s) (hu : UserKey cfg key) (hm : Met impl cfg s key x)
    (hk : s.key x = key) (hmark : (s.link (.next x)).mark = false) :
    s.heap.Live (cfg.lists impl) (impl.bucket key) x := by
  refine ⟨hm.reach hmark, hmark, ?_, inv.key_tail_ne hk.le hu.2⟩
  rintro rfl
  have h : s.key (cfg.head (impl.bucket key)) = key := hk
  rw [inv.key_head] at h
  exact absurd h hu.1.ne

/-! ### The invariant holds at first -/

/-- In the lists the constructor builds, only the sentinels are reached. -/
theorem Init.reach (h : Init cfg s) {b : β} (hx : Reach s.heap.next (cfg.head b) x) :
    x = cfg.head b ∨ x = cfg.tail b := by
  induction hx with
  | refl => exact .inl rfl
  | @tail y z _ hyz ih =>
    have hyz : (s.link (.next y)).ptr = some z := hyz
    rcases ih with rfl | rfl
    · rw [h.link_next_head] at hyz
      exact .inr (Option.some.inj hyz).symm
    · rw [h.link_next_tail] at hyz
      cases hyz

theorem Inv.init (h : Init cfg s) : Inv impl cfg s := by
  have hnext : ∀ b, s.heap.next (cfg.head b) = some (cfg.tail b) := by
    intro b
    show (s.link (.next (cfg.head b))).ptr = _
    rw [h.link_next_head]
  have htail : ∀ b, s.heap.next (cfg.tail b) = none := by
    intro b
    show (s.link (.next (cfg.tail b))).ptr = _
    rw [h.link_next_tail]
  have hmark : ∀ b, s.heap.marked (cfg.head b) = false ∧ s.heap.marked (cfg.tail b) = false := by
    intro b
    constructor
    · show (s.link (.next (cfg.head b))).mark = false
      rw [h.link_next_head]
    · show (s.link (.next (cfg.tail b))).mark = false
      rw [h.link_next_tail]
  refine ⟨⟨?_, ?_, ?_, ?_, ?_, ?_, ?_⟩, h.link_head, h.key_head, h.key_tail, ?_, ?_, ?_, ?_⟩
  · -- each list is its head and then its tail
    intro b x hx hne
    rcases h.reach hx with rfl | rfl
    · refine ⟨cfg.tail b, hnext b, ?_⟩
      show s.key (cfg.head b) < s.key (cfg.tail b)
      rw [h.key_head, h.key_tail]
      exact cfg.keyMin_lt
    · exact absurd rfl hne
  · intro b
    exact Reach.refl.step (hnext b)
  · exact htail
  · -- no node lies in two lists, as sentinels are not shared
    intro b b' x hx hx'
    rcases h.reach hx with rfl | rfl <;> rcases h.reach hx' with heq | heq
    · exact cfg.head_injective heq
    · exact absurd heq (cfg.head_ne_tail b b')
    · exact absurd heq.symm (cfg.head_ne_tail b' b)
    · exact cfg.tail_injective heq
  · -- there is no user node yet
    intro b x hx hxh hxt
    rcases h.reach hx with rfl | rfl
    · exact absurd rfl hxh
    · exact absurd rfl hxt
  · intro b
    exact (hmark b).1
  · intro b
    exact (hmark b).2
  · intro b x hx
    rcases h.reach hx with rfl | rfl
    · exact h.allocated_head b
    · exact h.allocated_tail b
  · -- a marked node would have been allocated, but nothing is marked
    intro x hx
    have hx : (s.link (.next x)).mark = true := hx
    by_contra ha
    rw [h.unmarked x (Bool.eq_false_iff.mpr ha)] at hx
    cases hx
  · intro t
    rw [h.pc t]
    trivial
  · intro t t' a ha
    rw [h.pc t] at ha
    cases ha

/-! ### The invariant is kept -/

section

variable [DecidableEq α] {t : ι} {own : α → Prop}

/-- Nodes of lists are not written as nodes of the acting thread. -/
theorem Frame.not_own (inv : Inv impl cfg s) (f : Frame impl cfg s s' t own)
    (hx : s.allocated x = true) (hp : ¬ Private cfg s x) : ¬ own x := by
  intro ho
  rcases (f.own_new x ho).1 with h | h
  · rw [hx] at h
    cases h
  · exact hp ((inv.pc t).private_newNode h)

theorem Frame.stable (inv : Inv impl cfg s) (f : Frame impl cfg s s' t own) :
    Stable impl cfg s s' fun x => ¬ own x := by
  have e := f.move.evolves inv.wf
  have hmet : ∀ {key x}, Met impl cfg s key x → ¬ own x := by
    intro key x hm
    exact f.not_own inv (inv.met_allocated hm) fun hp => hp.not_met hm
  refine ⟨fun {key x} hm => ⟨e.anchored (hmet hm) hm, e.key (hmet hm)⟩,
    fun {key x} hm => f.val x (hmet hm), fun {x} hm => ?_, fun {x} hpr ho => ?_⟩
  · have ho : ¬ own x := by
      apply f.not_own inv (inv.marked_allocated hm)
      intro hp
      rw [hp.unmarked] at hm
      cases hm
    obtain ⟨hm', hn⟩ := e.frozen ho hm
    refine ⟨?_, e.key ho⟩
    have hmark : (s'.link (.next x)).mark = (s.link (.next x)).mark := hm'.trans hm.symm
    have hptr : (s'.link (.next x)).ptr = (s.link (.next x)).ptr := hn
    calc s'.link (.next x) = ⟨(s'.link (.next x)).ptr, (s'.link (.next x)).mark⟩ := rfl
      _ = s.link (.next x) := by rw [hmark, hptr]
  · have hl := f.link x hpr ho
    refine ⟨⟨f.allocated x hpr.allocated, ?_, fun b hb => ?_⟩, e.key ho, f.val x ho, hl⟩
    · show (s'.link (.next x)).mark = false
      rw [hl]
      exact hpr.unmarked
    · exact (f.move.reach_back inv.wf hb).elim (hpr.off b) ho

/-- **Invariant, step part.** Given the frame of the step, only the acting thread has to show what
it knows afterwards. -/
theorem Inv.of_frame (inv : Inv impl cfg s) (f : Frame impl cfg s s' t own)
    (hpc : PcOk impl cfg s' (s'.pc t))
    (hnew : ∀ a, (s'.pc t).newNode? = some a →
      (s.pc t).newNode? = some a ∨ s.allocated a = false) : Inv impl cfg s' := by
  have st := f.stable inv
  have e := f.move.evolves inv.wf
  have hown : ∀ {b x}, Reach s.heap.next (cfg.head b) x → ¬ own x := by
    intro b x hx
    exact f.not_own inv (inv.reach_allocated hx) fun hp => hp.off b hx
  -- the new node of another thread is not the one that this thread writes
  have hother : ∀ q, q ≠ t → ∀ a, (s.pc q).newNode? = some a → ¬ own a := by
    intro q hq a ha ho
    rcases (f.own_new a ho).1 with h | h
    · rw [((inv.pc q).private_newNode ha).allocated] at h
      cases h
    · exact hq (inv.newNode_ne ha h)
  -- the head and the tail stay, and so do their keys
  refine ⟨f.move.wf inv.wf, fun b => (f.head b).trans (inv.link_head b), fun b => ?_, fun b => ?_,
    fun {b x} hx => ?_, fun {x} hx => ?_, fun q => ?_, fun {q q' a} hq hq' => ?_⟩
  · exact (e.key (hown .refl)).trans (inv.key_head b)
  · exact (e.key (hown (inv.wf.reach_tail b))).trans (inv.key_tail b)
  · -- what is reached or marked was so before, or is the new node
    rcases f.move.reach_back inv.wf hx with h | h
    · exact f.allocated x (inv.reach_allocated h)
    · exact (f.own_new x h).2
  · rcases f.move.marked_back hx with h | ⟨b, h⟩ | h
    · exact f.allocated x (inv.marked_allocated h)
    · exact f.allocated x (inv.reach_allocated h)
    · exact (f.own_new x h).2
  · -- the acting thread shows what it knows, the others keep it
    by_cases hqt : q = t
    · subst hqt
      exact hpc
    · rw [f.pc q hqt]
      exact (inv.pc q).mono st (hother q hqt)
  · -- a node that is new to one thread is new to no other
    by_cases hqt : q = t <;> by_cases hqt' : q' = t
    · exact hqt.trans hqt'.symm
    · subst hqt
      rw [f.pc q' hqt'] at hq'
      rcases hnew a hq with h | h
      · exact inv.newNode_ne h hq'
      · rw [((inv.pc q').private_newNode hq').allocated] at h
        cases h
    · subst hqt'
      rw [f.pc q hqt] at hq
      rcases hnew a hq' with h | h
      · exact inv.newNode_ne hq h
      · rw [((inv.pc q).private_newNode hq).allocated] at h
        cases h
    · rw [f.pc q hqt] at hq
      rw [f.pc q' hqt'] at hq'
      exact inv.newNode_ne hq hq'

end

/-! ### The frame of each step -/

section

variable [DecidableEq α] [DecidableEq ι] {t : ι} {p : Pc β α K V}

/-- A step that only the acting thread notices. -/
theorem frame_goto : Frame impl cfg s (s.goto t p) t fun _ => False where
  own_new _ h := h.elim
  move := .stay
  head _ := rfl
  link _ _ _ := rfl
  val _ _ := rfl
  allocated _ h := h
  pc _ hq := State.goto_pc_of_ne hq

theorem frame_retiring : Frame impl cfg s ((s.retiring x).goto t p) t fun _ => False where
  own_new _ h := h.elim
  move := .stay
  head _ := rfl
  link _ _ _ := rfl
  val _ _ := rfl
  allocated _ h := h
  pc _ hq := State.goto_pc_of_ne hq

theorem Inv.goto (inv : Inv impl cfg s) (hp : PcOk impl cfg s p)
    (hnew : ∀ a, p.newNode? = some a → (s.pc t).newNode? = some a) :
    Inv impl cfg (s.goto t p) := by
  have f : Frame impl cfg s (s.goto t p) t fun _ => False := frame_goto
  apply inv.of_frame f
  · rw [State.goto_pc_self]
    exact hp.mono (f.stable inv) fun _ _ h => h
  · intro a ha
    rw [State.goto_pc_self] at ha
    exact .inl (hnew a ha)

section

variable [DecidableEq β]

theorem frame_newNode {val : V} (inv : Inv impl cfg s) (hx : s.allocated x = false) :
    Frame impl cfg s ((s.allocating x key val).goto t p) t (· = x) := by
  have hlink : ∀ z, z ≠ x → (s.allocating x key val).link (.next z) = s.link (.next z) := by
    intro z hz
    exact State.store_next (v := ⟨none, false⟩) (by simpa using Ne.symm hz)
  refine ⟨?_, .write x rfl ?_ ?_ ?_ ?_, ?_, ?_, ?_, ?_, ?_⟩
  · rintro y rfl
    exact ⟨.inl hx, update_self ..⟩
  · intro b hb
    rw [inv.reach_allocated hb] at hx
    cases hx
  · intro z hz
    exact congrArg MarkPtr.ptr (hlink z hz)
  · intro z hz
    exact congrArg MarkPtr.mark (hlink z hz)
  · intro z hz
    exact update_of_ne hz ..
  · intro b
    exact State.store_head (s := s) (v := ⟨none, false⟩) (x := x)
  · intro z _ hz
    exact hlink z hz
  · intro z hz
    exact update_of_ne hz ..
  · intro z hz
    show update s.allocated x true z = true
    by_cases hzx : z = x
    · rw [hzx, update_self]
    · rw [update_of_ne hzx, hz]
  · intro q hq
    exact State.goto_pc_of_ne hq

theorem frame_storeNext {a : α} {v : MarkPtr α} (ha : Private cfg s a)
    (hnew : (s.pc t).newNode? = some a) :
    Frame impl cfg s ((s.store (.next a) v).goto t p) t (· = a) := by
  have hlink : ∀ z, z ≠ a → (s.store (.next a) v).link (.next z) = s.link (.next z) := by
    intro z hz
    exact State.store_next (by simpa using Ne.symm hz)
  refine ⟨?_, .write a rfl ha.off ?_ ?_ ?_, ?_, ?_, ?_, ?_, ?_⟩
  · rintro y rfl
    exact ⟨.inr hnew, ha.allocated⟩
  · intro z hz
    exact congrArg MarkPtr.ptr (hlink z hz)
  · intro z hz
    exact congrArg MarkPtr.mark (hlink z hz)
  · intro z _
    rfl
  · intro b
    exact State.store_head (s := s) (v := v) (x := a)
  · intro z _ hz
    exact hlink z hz
  · intro z _
    rfl
  · intro z hz
    exact hz
  · intro q hq
    exact State.goto_pc_of_ne hq

/-- A step that moves the link of a node in the list. -/
theorem frame_store {k : K} {q : α} {own : α → Prop} {v : MarkPtr α}
    (hown : ∀ x, own x → (s.pc t).newNode? = some x ∧ Private cfg s x)
    (hq : Met impl cfg s k q)
    (hmove : s.heap.Move (cfg.lists impl) own (s.store (.next q) v).heap) :
    Frame impl cfg s ((s.store (.next q) v).goto t p) t own := by
  refine ⟨?_, hmove, ?_, ?_, ?_, ?_, ?_⟩
  · intro x hx
    exact ⟨.inr (hown x hx).1, (hown x hx).2.allocated⟩
  · intro b
    exact State.store_head (s := s) (v := v) (x := q)
  · intro z hz _
    apply State.store_next
    intro h
    obtain rfl := Link.next.inj h
    exact hz.not_met hq
  · intro z _
    rfl
  · intro z hz
    exact hz
  · intro q hq
    exact State.goto_pc_of_ne hq

/-- **Unlinking.** A CAS on `prev` that moves it from a marked node to its successor. -/
theorem frame_unlink {l : Link β α} {nxt : Option α} (hprev : PrevNode impl cfg s key l)
    (hl : s.link l = ⟨some x, false⟩) (hx : s.link (.next x) = ⟨nxt, true⟩)
    (hn : PtrOk impl cfg s key nxt) :
    Frame impl cfg s ((s.store l ⟨nxt, false⟩).goto t p) t fun _ => False := by
  obtain ⟨q, rfl, hqm, -, hq, hqx⟩ := hprev.reach hl
  obtain ⟨y, rfl, -⟩ := hn
  have hxm : s.heap.marked x = true := by
    show (s.link (.next x)).mark = true
    rw [hx]
  have hxy : s.heap.next x = some y := by
    show (s.link (.next x)).ptr = some y
    rw [hx]
  apply frame_store (k := key) (fun _ h => h.elim) hprev.1
  rw [State.heap_store_next hqm]
  exact .unlink _ q x y hq hqm hqx (.single hxm hxy)

/-- **Insertion.** A CAS on `prev` that links the new node. -/
theorem frame_insert {l : Link β α} {a : α} {val : V}
    (hc : CallOk cfg s (.insert key val a)) (hnew : (s.pc t).newNode? = some a)
    (hprev : PrevNode impl cfg s key l) (hl : s.link l = ⟨some x, false⟩)
    (ha : s.link (.next a) = ⟨some x, false⟩) (hk : key < s.key x) :
    Frame impl cfg s ((s.store l ⟨some a, false⟩).goto t p) t (· = a) := by
  obtain ⟨q, rfl, hqm, hqk, hq, hqx⟩ := hprev.reach hl
  obtain ⟨hu, hpriv, hka, -⟩ := hc
  have hax : s.heap.next a = some x := by
    show (s.link (.next a)).ptr = some x
    rw [ha]
  have hqa : s.heap.key q < s.heap.key a := lt_of_lt_of_eq hqk hka.symm
  have hax' : s.heap.key a < s.heap.key x := lt_of_eq_of_lt hka hk
  apply frame_store (k := key)
  · rintro y rfl
    exact ⟨hnew, hpriv⟩
  · exact hprev.1
  · rw [State.heap_store_next hqm]
    refine .insert (impl.bucket key) q x a rfl hq hqm hqx hax hpriv.unmarked hpriv.off hqa hax' ?_
    show cfg.keyMin < s.key a ∧ s.key a < cfg.keyMax ∧ impl.bucket (s.key a) = impl.bucket key
    rw [hka]
    exact ⟨hu.1, hu.2, rfl⟩

/-- **Marking.** A CAS on the field `next` of a node that sets the mark. -/
theorem frame_mark {nxt : Option α} (inv : Inv impl cfg s) (hu : UserKey cfg key)
    (hm : Met impl cfg s key x) (hk : s.key x = key) (hl : s.link (.next x) = ⟨nxt, false⟩) :
    Frame impl cfg s ((s.store (.next x) ⟨nxt, true⟩).goto t p) t fun _ => False := by
  apply frame_store (k := key) (fun _ h => h.elim) hm
  rw [State.heap_store_mark hl]
  exact .mark _ x (hm.live inv hu hk (by rw [hl]))

/-- A new node is private. -/
theorem private_newNode {val : V} (inv : Inv impl cfg s) (hx : s.allocated x = false) :
    Private cfg ((s.allocating x key val).goto t p) x := by
  have hoff : ∀ b, ¬ Reach s.heap.next (cfg.head b) x := by
    intro b hb
    rw [inv.reach_allocated hb] at hx
    cases hx
  have f : Frame impl cfg s ((s.allocating x key val).goto t p) t (· = x) := frame_newNode inv hx
  refine ⟨update_self .., ?_, fun b hb => ?_⟩
  · show (update s.link (.next x) ⟨none, false⟩ (.next x)).mark = false
    rw [update_self]
  · refine hoff b ((Heap.write_reach_iff (L := cfg.lists impl) hoff fun z hz => ?_).mp hb)
    show (update s.link (.next x) ⟨none, false⟩ (.next z)).ptr = (s.link (.next z)).ptr
    rw [update_of_ne (by simpa using hz)]

/-- A new node stays private while its link is stored. -/
theorem private_storeNext {a : α} {curr : Option α} (impl : Impl β K) (ha : Private cfg s a) :
    Private cfg ((s.store (.next a) ⟨curr, false⟩).goto t p) a := by
  refine ⟨ha.allocated, ?_, fun b hb => ?_⟩
  · show ((s.store (.next a) ⟨curr, false⟩).link (.next a)).mark = false
    rw [State.store_self]
  · refine ha.off b ((Heap.write_reach_iff (L := cfg.lists impl) ha.off fun z hz => ?_).mp hb)
    show ((s.store (.next a) ⟨curr, false⟩).link (.next z)).ptr = (s.link (.next z)).ptr
    rw [State.store_next (by simpa using Ne.symm hz)]

/-! ### Each step keeps the invariant -/

/-- **Invariant.** One step of a thread, case by case as the code goes. -/
theorem Inv.step (inv : Inv impl cfg s) {e : Event α K V} (h : Step impl cfg s t e s') :
    Inv impl cfg s' := by
  have hp := inv.pc t
  cases h with
  | invoke op hpc hmin hmax => exact inv.goto ⟨hmin, hmax⟩ fun a ha => by cases ha
  | startOp op hpc =>
    rw [hpc] at hp
    cases op with
    | contains key => exact inv.goto hp fun a ha => by cases ha
    | insert key val => exact inv.goto hp fun a ha => by cases ha
    | erase key => exact inv.goto hp fun a ha => by cases ha
  | newNode key val x hpc hx =>
    -- `newNode` makes the node private: nobody else holds it, and no list reaches it
    rw [hpc] at hp
    apply inv.of_frame (frame_newNode inv hx)
    · rw [State.goto_pc_self]
      exact ⟨hp, private_newNode inv hx, update_self .., update_self ..⟩
    · intro a ha
      rw [State.goto_pc_self] at ha
      obtain rfl := Option.some.inj ha
      exact .inr hx
  | search c curr hpc hl =>
    -- `search` begins at the head, which is met in every state
    rw [hpc] at hp
    rw [inv.link_head] at hl
    obtain rfl := congrArg MarkPtr.ptr hl
    refine inv.goto ⟨hp, cfg.head (impl.bucket c.key), rfl, ⟨rfl, rfl⟩, .inr .refl⟩ fun a ha => ?_
    rw [hpc]
    exact ha
  | loopNull c prev hpc =>
    -- `loopNull` cannot be: the tail stops a search before the list ends
    rw [hpc] at hp
    obtain ⟨-, x, hx, -⟩ := hp
    cases hx
  | loop c prev x hpc =>
    -- `loop` reads the link and the mark at once, so the pair is good as long as it is not written
    rw [hpc] at hp
    obtain ⟨hc, y, hy, hprev, hm⟩ := hp
    obtain rfl := Option.some.inj hy
    refine inv.goto ⟨hc, hprev, hm, hm.nextOk inv⟩ fun a ha => ?_
    rw [hpc]
    exact ha
  | recheckFail c prev x nxt hpc hl =>
    rw [hpc] at hp
    refine inv.goto hp.1 fun a ha => ?_
    rw [hpc]
    exact ha
  | recheck c prev x nxt hpc hl =>
    rw [hpc] at hp
    refine inv.goto hp fun a ha => ?_
    rw [hpc]
    exact ha
  | readKey c prev x nxt hpc =>
    rw [hpc] at hp
    obtain ⟨hc, hprev, hm, hn⟩ := hp
    refine inv.goto ⟨hc, hprev, hm, hn, rfl⟩ fun a ha => ?_
    rw [hpc]
    exact ha
  | checkPrevFail c prev x nxt ckey hpc hl =>
    rw [hpc] at hp
    refine inv.goto hp.1 fun a ha => ?_
    rw [hpc]
    exact ha
  | advance c prev x nxt ckey hpc hl hk =>
    -- `advance` makes the node the new `prev`: its key is below the wanted one
    rw [hpc] at hp
    obtain ⟨hc, -, hm, hn, rfl⟩ := hp
    obtain ⟨y, rfl, hy⟩ := hn.ptrOk inv hk.le hc.userKey.2
    refine inv.goto ⟨hc, y, rfl, ⟨hm, hk⟩, hy⟩ fun a ha => ?_
    rw [hpc]
    exact ha
  | found c prev x nxt ckey hpc hl hk =>
    -- `found` keeps for an erase what its CASes need, and for the others nothing
    rw [hpc] at hp
    obtain ⟨hc, hprev, hm, hn, rfl⟩ := hp
    have hu := hc.userKey
    refine inv.goto ?_ fun a ha => ?_
    · cases c with
      | insert key val a => exact hm
      | erase key =>
        exact ⟨hu, hprev.prevNode inv hu hk.ge, hm, hk, hn.ptrOk inv hk.le hu.2⟩
      | _ => trivial
    · rw [hpc]
      exact newNode?_found ha
  | notFound c prev x nxt ckey hpc hl hk =>
    -- `notFound` keeps for an insert the place where the node goes
    rw [hpc] at hp
    obtain ⟨hc, hprev, hm, hn, rfl⟩ := hp
    have hu := hc.userKey
    refine inv.goto ?_ fun a ha => ?_
    · cases c with
      | insert key val a => exact ⟨hc, hprev.prevNode inv hu hk.le, x, rfl, hm, hk⟩
      | _ => trivial
    · rw [hpc]
      exact newNode?_notFound ha
  | help c prev x nxt ckey hpc hl =>
    -- `help` has seen the mark, so what follows the node no longer changes
    rw [hpc] at hp
    obtain ⟨hc, hprev, hm, hn, rfl⟩ := hp
    have hx : s.link (.next x) = ⟨nxt, true⟩ := hn.1 rfl
    have hmark : s.heap.marked x = true := by
      show (s.link (.next x)).mark = true
      rw [hx]
    have hnode := hprev.prevNode_of_marked inv hmark
    obtain ⟨q, rfl, -, -, hq, hqx⟩ := hnode.reach hl
    refine inv.goto ⟨hc, hnode, hx, inv.ptrOk_of_marked (hq.step hqx) hx⟩ fun a ha => ?_
    rw [hpc]
    exact ha
  | casHelp c prev x nxt hpc hl =>
    -- `casHelp` takes a marked node out: the rest of the list stays reachable
    rw [hpc] at hp
    obtain ⟨hc, hprev, hx, hn⟩ := hp
    have f : Frame impl cfg s ((s.store prev ⟨nxt, false⟩).goto t (.retireHelped c prev x nxt)) t
        fun _ => False := frame_unlink hprev hl hx hn
    have st := f.stable inv
    apply inv.of_frame f
    · rw [State.goto_pc_self]
      exact ⟨hc.mono st fun _ _ h => h, hprev.mono st, hn.mono st⟩
    · intro a ha
      rw [State.goto_pc_self] at ha
      rw [hpc]
      exact .inl ha
  | casHelpFail c prev x nxt hpc hl =>
    rw [hpc] at hp
    refine inv.goto hp.1 fun a ha => ?_
    rw [hpc]
    exact ha
  | retireHelped c prev x nxt hpc =>
    -- `retireHelped` keeps the invariant, as the node is not reached any more
    rw [hpc] at hp
    obtain ⟨hc, hprev, y, rfl, hy⟩ := hp
    have f : Frame impl cfg s ((s.retiring x).goto t (.loop c prev (some y))) t
        fun _ => False := frame_retiring
    have st := f.stable inv
    apply inv.of_frame f
    · rw [State.goto_pc_self]
      exact ⟨hc.mono st fun _ _ h => h, y, rfl, (hprev.mono st).prevOk, (st.met hy).1⟩
    · intro a ha
      rw [State.goto_pc_self] at ha
      rw [hpc]
      exact .inl ha
  | deallocate key val newNode x hpc =>
    rw [hpc] at hp
    exact inv.goto hp fun a ha => by cases ha
  | endFound key val x hpc =>
    rw [hpc] at hp
    exact inv.goto hp fun a ha => by cases ha
  | readFound key val x hpc => exact inv.goto trivial fun a ha => by cases ha
  | storeNext key val a prev curr hpc =>
    -- `storeNext` writes to the private node only
    rw [hpc] at hp
    obtain ⟨⟨hu, hpriv, hka, hva⟩, hprev, x, rfl, hm, hk⟩ := hp
    have hnew : (s.pc t).newNode? = some a := by rw [hpc]; rfl
    have f : Frame impl cfg s ((s.store (.next a) ⟨some x, false⟩).goto t
        (.casInsert key val a prev (some x))) t (· = a) := frame_storeNext hpriv hnew
    have st := f.stable inv
    obtain ⟨hm', hk'⟩ := st.met hm
    apply inv.of_frame f
    · rw [State.goto_pc_self]
      exact ⟨⟨hu, private_storeNext impl hpriv, hka, hva⟩, hprev.mono st, State.store_self, x, rfl,
        hm', hk'.symm ▸ hk⟩
    · intro a' ha'
      rw [State.goto_pc_self] at ha'
      rw [hpc]
      exact .inl ha'
  | casInsert key val a prev curr hpc hl =>
    -- `casInsert` makes the private node public, between its two neighbours
    rw [hpc] at hp
    obtain ⟨hc, hprev, ha, x, rfl, hm, hk⟩ := hp
    have hnew : (s.pc t).newNode? = some a := by rw [hpc]; rfl
    apply inv.of_frame (frame_insert hc hnew hprev hl ha hk)
    · rw [State.goto_pc_self]
      trivial
    · intro a' ha'
      rw [State.goto_pc_self] at ha'
      cases ha'
  | casInsertFail key val a prev curr hpc hl =>
    rw [hpc] at hp
    refine inv.goto hp.1 fun a' ha' => ?_
    rw [hpc]
    exact ha'
  | readVal key prev x nxt hpc =>
    rw [hpc] at hp
    exact inv.goto hp fun a ha => by cases ha
  | casMark key prev x nxt res hpc hl =>
    -- `casMark` sets the mark and keeps the link, so every path stays
    rw [hpc] at hp
    obtain ⟨hu, hprev, hm, hk, hn⟩ := hp
    have f : Frame impl cfg s ((s.store (.next x) ⟨nxt, true⟩).goto t
        (.casUnlink key prev x nxt res)) t fun _ => False := frame_mark inv hu hm hk hl
    have st := f.stable inv
    apply inv.of_frame f
    · rw [State.goto_pc_self]
      exact ⟨hu, hprev.mono st, State.store_self, hk, hn.mono st⟩
    · intro a ha
      rw [State.goto_pc_self] at ha
      cases ha
  | casMarkFail key prev x nxt res hpc hl =>
    -- `casMarkFail` starts over with the key alone, whether it ends the operation first or not
    rw [hpc] at hp
    cases himpl : impl.endOpOnRetry with
    | true => exact inv.goto hp.1 fun a ha => by cases ha
    | false => exact inv.goto hp.1 fun a ha => by cases ha
  | endRetry key hpc =>
    rw [hpc] at hp
    exact inv.goto hp fun a ha => by cases ha
  | casUnlink key prev x nxt res hpc hl =>
    -- `casUnlink` takes the own node out, as `casHelp` does for another thread's
    rw [hpc] at hp
    obtain ⟨-, hprev, hx, -, hn⟩ := hp
    apply inv.of_frame (frame_unlink hprev hl hx hn)
    · rw [State.goto_pc_self]
      trivial
    · intro a ha
      rw [State.goto_pc_self] at ha
      cases ha
  | casUnlinkFail key prev x nxt res hpc hl =>
    -- `casUnlinkFail` leaves the node to a search, which finds it marked
    rw [hpc] at hp
    obtain ⟨hu, -, hx, hk, -⟩ := hp
    have hmark : s.heap.marked x = true := by
      show (s.link (.next x)).mark = true
      rw [hx]
    exact inv.goto ⟨hu, hmark, hk⟩ fun a ha => by cases ha
  | retireErased key x res hpc =>
    apply inv.of_frame frame_retiring
    · rw [State.goto_pc_self]
      trivial
    · intro a ha
      rw [State.goto_pc_self] at ha
      cases ha
  | endOp op r hpc => exact inv.goto trivial fun a ha => by cases ha
  | ret op r hpc => exact inv.goto trivial fun a ha => by cases ha

/-- **Every step has a frame.** -/
theorem Step.frame (inv : Inv impl cfg s) {e : Event α K V} (h : Step impl cfg s t e s') :
    ∃ own, Frame impl cfg s s' t own := by
  have hp := inv.pc t
  cases h with
  | newNode key val x hpc hx => exact ⟨_, frame_newNode inv hx⟩
  | casHelp c prev x nxt hpc hl =>
    rw [hpc] at hp
    obtain ⟨-, hprev, hx, hn⟩ := hp
    exact ⟨_, frame_unlink hprev hl hx hn⟩
  | retireHelped c prev x nxt hpc => exact ⟨_, frame_retiring⟩
  | storeNext key val a prev curr hpc =>
    rw [hpc] at hp
    have hnew : (s.pc t).newNode? = some a := by rw [hpc]; rfl
    exact ⟨_, frame_storeNext hp.1.2.1 hnew⟩
  | casInsert key val a prev curr hpc hl =>
    rw [hpc] at hp
    obtain ⟨hc, hprev, ha, x, rfl, -, hk⟩ := hp
    have hnew : (s.pc t).newNode? = some a := by rw [hpc]; rfl
    exact ⟨_, frame_insert hc hnew hprev hl ha hk⟩
  | casMark key prev x nxt res hpc hl =>
    rw [hpc] at hp
    obtain ⟨hu, -, hm, hk, -⟩ := hp
    exact ⟨_, frame_mark inv hu hm hk hl⟩
  | casUnlink key prev x nxt res hpc hl =>
    rw [hpc] at hp
    obtain ⟨-, hprev, hx, -, hn⟩ := hp
    exact ⟨_, frame_unlink hprev hl hx hn⟩
  | retireErased key x res hpc => exact ⟨_, frame_retiring⟩
  | _ => exact ⟨_, frame_goto⟩

/-- **The invariant holds in every run.** -/
theorem Inv.of_reachable (h : (lts (ι := ι) (V := V) impl cfg).Reachable s) : Inv impl cfg s :=
  h.invariant (P := Inv impl cfg) (fun _ hi => Inv.init hi) fun _ _ _ _ hi _ hs => Inv.step hi hs

end

end

end

end HmList
end PopSetbench

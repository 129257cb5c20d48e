import PopSetbench.Ds.HarrisList

/-!
# Harris's list: the invariant

What a search knows on its way (`Trail`): the last unmarked node it has seen, the successor it had
then, and that from there marked nodes alone lead to where the search is. Marked nodes do not
change, so this stays so, whatever the others unlink; and it is just what the CAS needs that unlinks
them all.
-/

namespace PopSetbench
namespace HarrisList

open Function
open Heap (Reach)

variable {α ι K V : Type}

/-! ### What a thread knows -/

/-- The new node of an insertion. -/
def Call.newElem? : Call α K V → Option α
  | .insert _ _ a => some a
  | _ => none

/-- The node a thread has allocated and not yet linked. -/
def Pc.newElem? : Pc α K V → Option α
  | .search c _ _ => c.newElem?
  | .loop c _ _ _ _ => c.newElem?
  | .compareKey c _ _ _ _ _ => c.newElem?
  | .arrive c _ _ _ => c.newElem?
  | .loadNext c _ _ _ => c.newElem?
  | .compare c _ _ _ => c.newElem?
  | .walk c _ _ _ => c.newElem?
  | .retire c _ _ _ _ => c.newElem?
  | .check c _ _ => c.newElem?
  | .testKey c _ _ => c.newElem?
  | .storeNext _ _ a _ _ => some a
  | .casInsert _ _ a _ _ => some a
  | _ => none

section

variable [LinearOrder K] (cfg : Config α K V) (A : Arena α K V)

/-- The node has been in the list. -/
def Met (x : α) : Prop :=
  A.heap.Anchored cfg.lists () x

/-- The key lies between the sentinels. -/
def UserKey (key : K) : Prop :=
  cfg.keyMin < key ∧ key < cfg.keyMax

/-- What holds of the arguments of `list_search` and of what its caller needs. -/
def CallOk : Call α K V → Prop
  | .contains key => UserKey cfg key
  | .insert key _ newElem => UserKey cfg key ∧ A.Private cfg.lists newElem ∧
    A.heap.key newElem = key
  | .erase key => UserKey cfg key
  | .unlink _ rightKey _ => UserKey cfg rightKey

/-- `l` has been in the list before the key, its successor was `x`, and marked nodes alone lead from
there to `t`. -/
structure Trail (key : K) (l x t : α) : Prop where
  left : Met cfg A l
  left_lt : A.heap.key l < key
  next : Met cfg A x
  lt_next : A.heap.key l < A.heap.key x
  segment : A.heap.Segment x t

/-- `left` and `right` have been in the list, before the key and not before it. -/
structure Window (key : K) (l r : α) : Prop where
  left : Met cfg A l
  left_lt : A.heap.key l < key
  right : Met cfg A r
  right_ge : key ≤ A.heap.key r

/-- What was found in the field `next` of a node that is not the tail. -/
def NextOk (t : α) (tNext : MarkPtr α) : Prop :=
  ∃ y, tNext.ptr = some y ∧ Met cfg A y ∧ A.heap.key t < A.heap.key y ∧
    (tNext.mark = true → A.heap.marked t = true ∧ A.heap.next t = some y)

/-- What a thread knows, by where it is. -/
def Knows : Pc α K V → Prop
  | .start op => UserKey cfg op.key
  | .newNode key _ => UserKey cfg key
  | .search c _ _ => CallOk cfg A c
  | .loop c left leftNext t tNext => CallOk cfg A c ∧ Met cfg A t ∧ NextOk cfg A t tNext ∧
    ((t = cfg.head ∧ tNext.mark = false) ∨
      ∃ l x, left = some l ∧ leftNext = some x ∧ Trail cfg A c.key l x t)
  | .compareKey c left leftNext t tNext tKey => CallOk cfg A c ∧ Met cfg A t ∧
    NextOk cfg A t ⟨tNext, false⟩ ∧ (t = cfg.head ∨
      ∃ l x, left = some l ∧ leftNext = some x ∧ Trail cfg A c.key l x t) ∧ A.heap.key t = tKey
  | .arrive c left leftNext t => CallOk cfg A c ∧ Met cfg A t ∧
    ∃ l x, left = some l ∧ leftNext = some x ∧ Trail cfg A c.key l x t
  | .loadNext c left leftNext t => CallOk cfg A c ∧ Met cfg A t ∧ t ≠ cfg.tail ∧
    ∃ l x, left = some l ∧ leftNext = some x ∧ Trail cfg A c.key l x t
  | .compare c left leftNext right => CallOk cfg A c ∧
    ∃ l x, left = some l ∧ leftNext = some x ∧ Trail cfg A c.key l x right ∧
      Window cfg A c.key l right
  | .walk c left cur right => CallOk cfg A c ∧ A.heap.Segment cur right ∧ cur ≠ right ∧
    ∃ l, left = some l ∧ Window cfg A c.key l right
  | .retire c left node cur right => CallOk cfg A c ∧ A.heap.marked node = true ∧
    A.heap.next node = cur ∧ (∃ y, cur = some y ∧ A.heap.Segment y right) ∧
    ∃ l, left = some l ∧ Window cfg A c.key l right
  | .check c left right | .testKey c left right => CallOk cfg A c ∧
    ∃ l, left = some l ∧ Window cfg A c.key l right
  | .storeNext key val a left right => CallOk cfg A (.insert key val a) ∧
    key < A.heap.key right ∧ ∃ l, left = some l ∧ Window cfg A key l right
  | .casInsert key val a left right => CallOk cfg A (.insert key val a) ∧
    key < A.heap.key right ∧ A.heap.next a = some right ∧
    ∃ l, left = some l ∧ Window cfg A key l right
  | .loadSucc key left right | .casMark key left right _ => UserKey cfg key ∧
    A.heap.key right = key ∧ ∃ l, left = some l ∧ Window cfg A key l right
  | .casErase key left right succ => UserKey cfg key ∧ A.heap.key right = key ∧
    A.heap.marked right = true ∧ A.heap.next right = succ ∧
    ∃ l, left = some l ∧ Window cfg A key l right
  | .readKey key _ right => UserKey cfg key ∧ A.heap.key right = key ∧ Met cfg A right
  | _ => True

end

/-! ### It survives -/

section

variable [LinearOrder K] {cfg : Config α K V} {A A' : Arena α K V} {priv : α → Prop}
  {key : K} {l x y t r : α}

theorem CallOk.userKey {c : Call α K V} (h : CallOk cfg A c) : UserKey cfg c.key := by
  cases c with
  | contains key => exact h
  | insert key val a => exact h.1
  | erase key => exact h
  | unlink key rightKey right => exact h

theorem CallOk.new_private {c : Call α K V} (h : CallOk cfg A c) (hx : c.newElem? = some x) :
    A.Private cfg.lists x := by
  cases c with
  | insert key val a =>
    obtain rfl := Option.some.inj hx
    exact h.2.1
  | _ => cases hx

theorem Knows.new_private {p : Pc α K V} (h : Knows cfg A p) (hx : p.newElem? = some x) :
    A.Private cfg.lists x := by
  cases p with
  | search c left leftNext => exact CallOk.new_private h hx
  | loop c left leftNext t tNext => exact h.1.new_private hx
  | compareKey c left leftNext t tNext tKey => exact h.1.new_private hx
  | arrive c left leftNext t => exact h.1.new_private hx
  | loadNext c left leftNext t => exact h.1.new_private hx
  | compare c left leftNext right => exact h.1.new_private hx
  | walk c left cur right => exact h.1.new_private hx
  | retire c left node cur right => exact h.1.new_private hx
  | check c left right => exact h.1.new_private hx
  | testKey c left right => exact h.1.new_private hx
  | storeNext key val a left right => exact h.1.new_private hx
  | casInsert key val a left right => exact h.1.new_private hx
  | _ => cases hx

section Mono

variable (st : Arena.Stable cfg.lists A A' priv)

include st

theorem Met.mono (h : Met cfg A x) : Met cfg A' x :=
  (st.anchored h).1

theorem Met.key_eq (h : Met cfg A x) : A'.heap.key x = A.heap.key x :=
  (st.anchored h).2.1

theorem CallOk.mono {c : Call α K V} (hp : ∀ a, c.newElem? = some a → priv a)
    (h : CallOk cfg A c) : CallOk cfg A' c := by
  cases c with
  | contains key => exact h
  | insert key val a =>
    obtain ⟨hk, ha, hka⟩ := h
    obtain ⟨ha', -, hka', -⟩ := st.priv ha (hp a rfl)
    exact ⟨hk, ha', hka'.trans hka⟩
  | erase key => exact h
  | unlink key rightKey right => exact h

theorem Trail.mono (h : Trail cfg A key l x t) : Trail cfg A' key l x t where
  left := h.left.mono st
  left_lt := by
    rw [h.left.key_eq st]
    exact h.left_lt
  next := h.next.mono st
  lt_next := by
    rw [h.left.key_eq st, h.next.key_eq st]
    exact h.lt_next
  segment := st.segment h.segment

theorem Window.mono (h : Window cfg A key l r) : Window cfg A' key l r where
  left := h.left.mono st
  left_lt := by
    rw [h.left.key_eq st]
    exact h.left_lt
  right := h.right.mono st
  right_ge := by
    rw [h.right.key_eq st]
    exact h.right_ge

theorem NextOk.mono {tNext : MarkPtr α} (ht : Met cfg A t) (h : NextOk cfg A t tNext) :
    NextOk cfg A' t tNext := by
  obtain ⟨y, hy, hm, hlt, hfrozen⟩ := h
  refine ⟨y, hy, hm.mono st, ?_, fun hmark => ?_⟩
  · rw [ht.key_eq st, hm.key_eq st]
    exact hlt
  · obtain ⟨htm, htn⟩ := hfrozen hmark
    obtain ⟨htm', htn', -⟩ := st.frozen htm
    exact ⟨htm', htn'.trans htn⟩

/-- **What a thread knows survives.** -/
theorem Knows.mono {p : Pc α K V} (hp : ∀ a, p.newElem? = some a → priv a)
    (h : Knows cfg A p) : Knows cfg A' p := by
  have hwin : ∀ {left : Option α} {key : K} {r : α},
      (∃ l, left = some l ∧ Window cfg A key l r) →
      ∃ l, left = some l ∧ Window cfg A' key l r := by
    rintro left key r ⟨l, hl, hw⟩
    exact ⟨l, hl, hw.mono st⟩
  have htrail : ∀ {left leftNext : Option α} {key : K} {t : α},
      (∃ l x, left = some l ∧ leftNext = some x ∧ Trail cfg A key l x t) →
      ∃ l x, left = some l ∧ leftNext = some x ∧ Trail cfg A' key l x t := by
    rintro left leftNext key t ⟨l, x, hl, hx, ht⟩
    exact ⟨l, x, hl, hx, ht.mono st⟩
  cases p with
  | start op => exact h
  | newNode key val => exact h
  | search c left leftNext => exact CallOk.mono st hp h
  | loop c left leftNext t tNext =>
    -- the search: what it has passed stays met, and what is marked stays so
    obtain ⟨hc, ht, hn, hl⟩ := h
    exact ⟨hc.mono st hp, ht.mono st, hn.mono st ht, hl.imp id htrail⟩
  | compareKey c left leftNext t tNext tKey =>
    obtain ⟨hc, ht, hn, hl, hk⟩ := h
    exact ⟨hc.mono st hp, ht.mono st, hn.mono st ht, hl.imp id htrail, (ht.key_eq st).trans hk⟩
  | arrive c left leftNext t =>
    obtain ⟨hc, ht, hl⟩ := h
    exact ⟨hc.mono st hp, ht.mono st, htrail hl⟩
  | loadNext c left leftNext t =>
    obtain ⟨hc, ht, hne, hl⟩ := h
    exact ⟨hc.mono st hp, ht.mono st, hne, htrail hl⟩
  | compare c left leftNext right =>
    -- the segment of marked nodes between the two that were found
    obtain ⟨hc, l, x, hl, hx, ht, hw⟩ := h
    exact ⟨hc.mono st hp, l, x, hl, hx, ht.mono st, hw.mono st⟩
  | walk c left cur right =>
    obtain ⟨hc, hs, hne, hw⟩ := h
    exact ⟨hc.mono st hp, st.segment hs, hne, hwin hw⟩
  | retire c left node cur right =>
    -- a node that is retired is marked, so its pointer does not change
    obtain ⟨hc, hm, hn, ⟨y, hy, hs⟩, hw⟩ := h
    obtain ⟨hm', hn', -⟩ := st.frozen hm
    exact ⟨hc.mono st hp, hm', hn'.trans hn, ⟨y, hy, st.segment hs⟩, hwin hw⟩
  | check c left right => exact ⟨h.1.mono st hp, hwin h.2⟩
  | testKey c left right => exact ⟨h.1.mono st hp, hwin h.2⟩
  | storeNext key val a left right =>
    -- the new node is the thread's own
    obtain ⟨hc, hk, l, hl, hw⟩ := h
    refine ⟨hc.mono st hp, ?_, l, hl, hw.mono st⟩
    rw [hw.right.key_eq st]
    exact hk
  | casInsert key val a left right =>
    obtain ⟨hc, hk, hn, l, hl, hw⟩ := h
    refine ⟨hc.mono st hp, ?_, ?_, l, hl, hw.mono st⟩
    · rw [hw.right.key_eq st]
      exact hk
    · exact (st.priv hc.2.1 (hp a rfl)).2.1.trans hn
  | loadSucc key left right =>
    -- the node that was found keeps its key
    obtain ⟨hu, hk, l, hl, hw⟩ := h
    exact ⟨hu, (hw.right.key_eq st).trans hk, l, hl, hw.mono st⟩
  | casMark key left right succ =>
    obtain ⟨hu, hk, l, hl, hw⟩ := h
    exact ⟨hu, (hw.right.key_eq st).trans hk, l, hl, hw.mono st⟩
  | casErase key left right succ =>
    -- the node that was marked stays as it is
    obtain ⟨hu, hk, hm, hn, l, hl, hw⟩ := h
    obtain ⟨hm', hn', -⟩ := st.frozen hm
    exact ⟨hu, (hw.right.key_eq st).trans hk, hm', hn'.trans hn, l, hl, hw.mono st⟩
  | readKey key left right =>
    obtain ⟨hu, hk, hm⟩ := h
    exact ⟨hu, (hm.key_eq st).trans hk, hm.mono st⟩
  | _ => trivial

end Mono

theorem knows_local : Local cfg.lists (Knows cfg) (Pc.newElem? (α := α) (K := K) (V := V)) where
  mono st hp h := h.mono st hp
  new_private h hx := h.new_private hx

end

/-! ### Where `list_search` returns to -/

section

variable [LinearOrder K] {cfg : Config α K V} {l r a : α}

theorem knows_done {A : Arena α K V} {c : Call α K V} (hc : CallOk cfg A c)
    (hw : Window cfg A c.key l r) : Knows cfg A (c.done cfg (some l) r) := by
  cases c with
  | unlink key rightKey right => trivial
  | _ => exact ⟨hc, l, rfl, hw⟩

theorem knows_notFound {A : Arena α K V} {c : Call α K V} (hc : CallOk cfg A c)
    (hw : Window cfg A c.key l r) (hlt : c.key < A.heap.key r) :
    Knows cfg A (c.notFound cfg (some l) r) := by
  cases c with
  | insert key val a => exact ⟨hc, hlt, l, rfl, hw⟩
  | _ => trivial

theorem knows_found {A : Arena α K V} {c : Call α K V} (hc : CallOk cfg A c)
    (hw : Window cfg A c.key l r) (hk : A.heap.key r = c.key) :
    Knows cfg A (c.found cfg (some l) r) := by
  cases c with
  | erase key => exact ⟨hc, hk, l, rfl, hw⟩
  | _ => trivial

theorem newElem?_done {c : Call α K V} {left : Option α}
    (h : (c.done cfg left r).newElem? = some a) : c.newElem? = some a := by
  cases c with
  | unlink key rightKey right => cases h
  | _ => exact h

theorem newElem?_notFound {c : Call α K V} {left : Option α}
    (h : (c.notFound cfg left r).newElem? = some a) : c.newElem? = some a := by
  cases c with
  | insert key val a' => exact h
  | _ => cases h

theorem newElem?_found {c : Call α K V} {left : Option α} :
    (c.found cfg left r).newElem? = none := by
  cases c <;> rfl

end

/-! ### The invariant -/

section

variable [LinearOrder K] {cfg : Config α K V} {s s' : State α ι K V} {key : K} {l x r a : α}

variable (cfg s) in
/-- **The invariant.** -/
structure Inv : Prop where
  /-- Of the memory and of what the threads know. -/
  shared : Shared cfg.lists (Knows cfg) Pc.newElem? s.arena s.pc
  /-- The list begins with the least key. -/
  key_head : s.key cfg.head = cfg.keyMin
  /-- The list ends with the greatest key. -/
  key_tail : s.key cfg.tail = cfg.keyMax

/-- In the list the constructor builds, only the sentinels are reached. -/
theorem Init.reach (h : Init cfg s) (hx : Reach s.heap.next cfg.head x) :
    x = cfg.head ∨ x = cfg.tail := by
  induction hx with
  | refl => exact .inl rfl
  | @tail y z _ hyz ih =>
    have hyz : (s.link y).ptr = some z := hyz
    rcases ih with rfl | rfl
    · rw [h.link_head] at hyz
      exact .inr (Option.some.inj hyz).symm
    · rw [h.link_tail] at hyz
      cases hyz

theorem Inv.init (h : Init cfg s) : Inv cfg s := by
  have hnext : s.heap.next cfg.head = some cfg.tail := by
    show (s.link cfg.head).ptr = _
    rw [h.link_head]
  have htail : s.heap.next cfg.tail = none := by
    show (s.link cfg.tail).ptr = _
    rw [h.link_tail]
  have hmark : ∀ {x}, s.heap.marked x ≠ true := by
    intro x hx
    have hx : (s.link x).mark = true := hx
    rw [h.unmarked] at hx
    cases hx
  have hwf : s.heap.WF cfg.lists := by
    refine ⟨fun {b x} hx hxt => ?_, fun b => ?_, fun b => htail, fun {b b' x} _ _ => rfl,
      fun {b x} hx hxh hxt => ?_, fun b => h.unmarked _, fun b => h.unmarked _⟩
    · obtain rfl := (h.reach hx).resolve_right hxt
      refine ⟨cfg.tail, hnext, ?_⟩
      show s.key cfg.head < s.key cfg.tail
      rw [h.key_head, h.key_tail]
      exact cfg.keyMin_lt
    · exact Reach.refl.step hnext
    · rcases h.reach hx with rfl | rfl
      · exact absurd rfl hxh
      · exact absurd rfl hxt
  refine ⟨⟨⟨hwf, fun {b x} hx => ?_, fun {x} hx => absurd hx hmark,
    fun {x} hx => absurd hx hmark⟩, fun t => ?_, fun {t t' a} ha => ?_⟩, h.key_head, h.key_tail⟩
  · exact (h.allocated x).mpr (h.reach hx)
  · rw [h.pc t]
    trivial
  · rw [h.pc t] at ha
    cases ha

namespace Inv

/-- What is read from the field `next` of a node that is not the tail. -/
theorem nextOk (inv : Inv cfg s) (hx : Met cfg s.arena x) (hne : x ≠ cfg.tail) :
    NextOk cfg s.arena x (s.link x) := by
  by_cases hm : (s.link x).mark = true
  · obtain ⟨⟨⟩, y, hy, hya, hlt⟩ := inv.shared.ok.trail (x := x) hm
    exact ⟨y, hy, hya, hlt, fun _ => ⟨hm, hy⟩⟩
  · have hr := Arena.reach_of_anchored hx (Bool.eq_false_iff.mpr hm)
    obtain ⟨y, hy, hlt⟩ := inv.shared.ok.wf.sorted hr hne
    exact ⟨y, hy, .inr (hr.step hy), hlt, fun h => absurd h hm⟩

/-- A node that was met and is not marked is live, if its key is one of the user's. -/
theorem live (inv : Inv cfg s) (hu : UserKey cfg key) (hr : Met cfg s.arena r)
    (hk : s.key r = key) (hm : (s.link r).mark = false) : s.heap.Live cfg.lists () r := by
  refine ⟨Arena.reach_of_anchored hr hm, hm, ?_, ?_⟩
  · rintro rfl
    have h : s.key cfg.head = key := hk
    rw [inv.key_head] at h
    exact absurd h hu.1.ne
  · rintro rfl
    have h : s.key cfg.tail = key := hk
    rw [inv.key_tail] at h
    exact absurd h hu.2.ne'

end Inv

/-! ### What the writes do -/

variable [DecidableEq α] {t : ι} {own : α → Prop}

theorem change_allocating {mine : α → Prop} {val : V} (ok : s.arena.Ok cfg.lists)
    (hx : s.allocated x = false) :
    Arena.Change cfg.lists s.arena (s.allocating x key val).arena mine (· = x) where
  own_new y hy := by
    subst hy
    exact ⟨.inl hx, update_self ..⟩
  move := by
    refine .write x rfl ?_ ?_ ?_ ?_
    · intro b hb
      have h : s.allocated x = true := ok.reach_allocated hb
      rw [hx] at h
      cases h
    · intro y hy
      show (update s.link x ⟨none, false⟩ y).ptr = (s.link y).ptr
      rw [update_of_ne hy]
    · intro y hy
      show (update s.link x ⟨none, false⟩ y).mark = (s.link y).mark
      rw [update_of_ne hy]
    · intro y hy
      exact update_of_ne hy ..
  val y hy := update_of_ne hy ..
  allocated y hy := by
    show update s.allocated x true y = true
    by_cases hyx : y = x
    · subst hyx
      exact update_self ..
    · rw [update_of_ne hyx]
      exact hy

/-- A write to a node of one's own. -/
theorem change_storeNext {v : MarkPtr α} (ha : s.arena.Private cfg.lists a)
    (hnew : (s.pc t).newElem? = some a) :
    Arena.Change cfg.lists s.arena (s.store a v).arena
      (fun x => (s.pc t).newElem? = some x) (· = a) where
  own_new y hy := by
    subst hy
    exact ⟨.inr hnew, ha.allocated⟩
  move := by
    refine .write a rfl ha.off ?_ ?_ ?_
    · intro y hy
      show ((s.store a v).link y).ptr = (s.link y).ptr
      rw [State.store_link_of_ne hy]
    · intro y hy
      show ((s.store a v).link y).mark = (s.link y).mark
      rw [State.store_link_of_ne hy]
    · intro y _
      rfl
  val _ _ := rfl
  allocated _ hy := hy

/-- The new node enters. -/
theorem change_insert (hu : UserKey cfg key) (ha : s.arena.Private cfg.lists a)
    (hka : s.key a = key) (hnew : (s.pc t).newElem? = some a)
    (hw : Window cfg s.arena key l r) (hlt : key < s.key r) (hn : s.heap.next a = some r)
    (hl : s.link l = ⟨some r, false⟩) :
    Arena.Change cfg.lists s.arena (s.store l ⟨some a, false⟩).arena
      (fun x => (s.pc t).newElem? = some x) (· = a) := by
  have hm : (s.link l).mark = false := by rw [hl]
  have hlr : s.heap.next l = some r := by
    show (s.link l).ptr = some r
    rw [hl]
  have hreach := Arena.reach_of_anchored hw.left hm
  have hll : s.key l < s.key a := by
    rw [hka]
    exact hw.left_lt
  refine ⟨fun y hy => ?_, ?_, fun _ _ => rfl, fun _ hy => hy⟩
  · subst hy
    exact ⟨.inr hnew, ha.allocated⟩
  · show s.heap.Move cfg.lists _ (s.store l ⟨some a, false⟩).heap
    rw [State.heap_store_next hm]
    refine .insert () l r a rfl hreach hm hlr hn ha.unmarked ha.off hll ?_ ?_
    · show s.key a < s.key r
      rw [hka]
      exact hlt
    · show cfg.keyMin < s.key a ∧ s.key a < cfg.keyMax
      rw [hka]
      exact hu

theorem change_mark {mine : α → Prop} {succ : Option α} (hlive : s.heap.Live cfg.lists () r)
    (hl : s.link r = ⟨succ, false⟩) :
    Arena.Change cfg.lists s.arena (s.store r ⟨succ, true⟩).arena mine fun _ => False := by
  refine ⟨fun y hy => hy.elim, ?_, fun _ _ => rfl, fun _ hy => hy⟩
  show s.heap.Move cfg.lists _ (s.store r ⟨succ, true⟩).heap
  rw [State.heap_store_mark hl]
  exact .mark () r hlive

/-- The nodes from `x` to before `r` are cut out. -/
theorem change_unlink {mine : α → Prop} (hleft : Met cfg s.arena l)
    (hs : s.heap.Segment x r) (hl : s.link l = ⟨some x, false⟩) :
    Arena.Change cfg.lists s.arena (s.store l ⟨some r, false⟩).arena mine fun _ => False := by
  have hm : (s.link l).mark = false := by rw [hl]
  have hlx : s.heap.next l = some x := by
    show (s.link l).ptr = some x
    rw [hl]
  refine ⟨fun y hy => hy.elim, ?_, fun _ _ => rfl, fun _ hy => hy⟩
  show s.heap.Move cfg.lists _ (s.store l ⟨some r, false⟩).heap
  rw [State.heap_store_next hm]
  exact .unlink () l x r (Arena.reach_of_anchored hleft hm) hm hlx hs

/-! ### Each step -/

section

variable [DecidableEq ι]

/-- The invariant after a step, given what the step does to the memory. -/
theorem Inv.next {p : Pc α K V} (inv : Inv cfg s)
    (c : Arena.Change cfg.lists s.arena s'.arena (fun x => (s.pc t).newElem? = some x) own)
    (hown : ∀ x, own x → s'.arena.heap.marked x = false) (hpc : s'.pc = s.pc)
    (hknows : Knows cfg s'.arena p)
    (hnew : ∀ a, p.newElem? = some a → (s.pc t).newElem? = some a ∨ s.allocated a = false) :
    Inv cfg (s'.goto t p) := by
  have st := inv.shared.change_stable knows_local c
  have hself : (s'.goto t p).pc t = p := State.goto_pc_self
  refine ⟨inv.shared.step (t := t) knows_local c hown ?_ ?_ ?_, ?_, ?_⟩
  · intro q hq
    rw [State.goto_pc_of_ne hq, hpc]
  · rw [hself]
    exact hknows
  · rw [hself]
    exact hnew
  · have hhead : s.arena.heap.Anchored cfg.lists () cfg.head := .inr .refl
    exact (st.anchored hhead).2.1.trans inv.key_head
  · have htail : s.arena.heap.Anchored cfg.lists () cfg.tail :=
      .inr (inv.shared.ok.wf.reach_tail ())
    exact (st.anchored htail).2.1.trans inv.key_tail

/-- The shared memory stays as it is. -/
theorem Inv.goto (inv : Inv cfg s) {p : Pc α K V} (hp : Knows cfg s.arena p)
    (hnew : ∀ a, p.newElem? = some a → (s.pc t).newElem? = some a) : Inv cfg (s.goto t p) :=
  inv.next (t := t) .refl (fun _ hx => hx.elim) rfl hp fun a ha => .inl (hnew a ha)

/-- A node is retired. -/
theorem Inv.retiring (inv : Inv cfg s) {p : Pc α K V} (hp : Knows cfg s.arena p)
    (hnew : ∀ a, p.newElem? = some a → (s.pc t).newElem? = some a) :
    Inv cfg ((s.retiring x).goto t p) :=
  inv.next (t := t) .refl (fun _ hx => hx.elim) rfl hp fun a ha => .inl (hnew a ha)

/-- **The invariant, step by step.** -/
theorem Inv.step (inv : Inv cfg s) {e : Event α K V} (h : Step cfg s t e s') : Inv cfg s' := by
  have hp := inv.shared.all t
  cases h with
  -- an operation begins
  | invoke op hpc hmin hmax => exact inv.goto ⟨hmin, hmax⟩ fun a ha => by cases ha
  | startOp op hpc =>
    rw [hpc] at hp
    refine inv.goto ?_ fun a ha => ?_
    · cases op <;> exact hp
    · cases op <;> cases ha
  | newNode key val x hpc hx =>
    -- the new node is in no list and has no mark
    rw [hpc] at hp
    have hp : UserKey cfg key := hp
    have hm : (s.allocating x key val).arena.heap.marked x = false := by
      show (update s.link x ⟨none, false⟩ x).mark = false
      rw [update_self]
    refine inv.next (change_allocating inv.shared.ok hx) ?_ rfl ?_ ?_
    · rintro y rfl
      exact hm
    · refine ⟨hp, ⟨update_self .., hm, fun b hb => ?_⟩, update_self ..⟩
      have hoff : ∀ b, ¬ Reach s.heap.next (cfg.lists.head b) x := by
        intro b hb
        have h : s.allocated x = true := inv.shared.ok.reach_allocated hb
        rw [hx] at h
        cases h
      refine hoff b ((Heap.write_reach_iff (L := cfg.lists) hoff fun y hy => ?_).mp hb)
      show (update s.link x ⟨none, false⟩ y).ptr = (s.link y).ptr
      rw [update_of_ne hy]
    · intro a ha
      obtain rfl := Option.some.inj ha
      exact .inr hx
  | search c left leftNext hpc =>
    -- the search begins at the head, which has no mark
    rw [hpc] at hp
    have hmet : Met cfg s.arena cfg.head := .inr .refl
    refine inv.goto ⟨hp, hmet, inv.nextOk hmet cfg.head_ne_tail, .inl ⟨rfl, ?_⟩⟩ fun a ha => ?_
    · exact inv.shared.ok.wf.marked_head ()
    · rw [hpc]
      exact ha
  | skip c left leftNext x y hpc =>
    -- a marked node is passed: it belongs to the segment behind the left node
    rw [hpc] at hp
    obtain ⟨hc, hx, ⟨y', hy, hym, hlt, hfrozen⟩, hl⟩ := hp
    obtain rfl := Option.some.inj hy
    obtain ⟨hxm, hxn⟩ := hfrozen rfl
    rcases hl with ⟨-, hm⟩ | ⟨l, z, hl, hz, htr⟩
    · cases hm
    · refine inv.goto ⟨hc, hym, l, z, hl, hz, ?_⟩ fun a ha => ?_
      · exact ⟨htr.left, htr.left_lt, htr.next, htr.lt_next, htr.segment.tail ⟨hxm, hxn⟩⟩
      · rw [hpc]
        exact ha
  | loadKey c left leftNext x nxt hpc =>
    rw [hpc] at hp
    obtain ⟨hc, hx, hnxt, hl⟩ := hp
    refine inv.goto ⟨hc, hx, hnxt, hl.imp_left And.left, rfl⟩ fun a ha => ?_
    rw [hpc]
    exact ha
  | pass c left leftNext x y k hpc hk =>
    -- a node without mark is passed: it becomes the left node, with an empty segment
    rw [hpc] at hp
    obtain ⟨hc, hx, ⟨y', hy, hym, hlt, -⟩, -, rfl⟩ := hp
    obtain rfl := Option.some.inj hy
    refine inv.goto ⟨hc, hym, x, y, rfl, rfl, hx, hk, hym, hlt, .refl⟩ fun a ha => ?_
    rw [hpc]
    exact ha
  | stop c left leftNext x nxt k hpc hk =>
    -- the search stops at a node whose key is large enough
    rw [hpc] at hp
    obtain ⟨hc, hx, -, hl, rfl⟩ := hp
    rcases hl with rfl | ⟨l, z, hl, hz, htr⟩
    · have hk : ¬ s.key cfg.head < c.key := hk
      rw [inv.key_head] at hk
      exact absurd hc.userKey.1 hk
    · refine inv.goto ⟨hc, l, z, hl, hz, htr, ?_⟩ fun a ha => ?_
      · exact ⟨htr.left, htr.left_lt, hx, not_lt.mp hk⟩
      · rw [hpc]
        exact ha
  | arriveTail c left leftNext hpc =>
    -- it stops at the tail, whose key is the largest
    rw [hpc] at hp
    obtain ⟨hc, hx, l, z, hl, hz, htr⟩ := hp
    have hk : c.key ≤ s.key cfg.tail := by
      rw [inv.key_tail]
      exact hc.userKey.2.le
    refine inv.goto ⟨hc, l, z, hl, hz, htr, htr.left, htr.left_lt, hx, hk⟩ fun a ha => ?_
    rw [hpc]
    exact ha
  | arriveNull c left leftNext x hpc hx hl =>
    rw [hpc] at hp
    obtain ⟨-, hxm, -⟩ := hp
    -- a node of the list that is not its tail has a successor
    obtain ⟨y, hy, -⟩ := inv.nextOk hxm hx
    rw [hl] at hy
    cases hy
  | arrive c left leftNext x hpc hx hl =>
    rw [hpc] at hp
    obtain ⟨hc, hxm, htr⟩ := hp
    refine inv.goto ⟨hc, hxm, hx, htr⟩ fun a ha => ?_
    rw [hpc]
    exact ha
  | loadNext c left leftNext x hpc =>
    -- the next node after one of the list
    rw [hpc] at hp
    obtain ⟨hc, hxm, hx, htr⟩ := hp
    refine inv.goto ⟨hc, hxm, inv.nextOk hxm hx, .inr htr⟩ fun a ha => ?_
    rw [hpc]
    exact ha
  | adjacent c left r hpc =>
    -- nothing is to be cut out
    rw [hpc] at hp
    obtain ⟨hc, l, -, hl, -, -, hw⟩ := hp
    refine inv.goto ⟨hc, l, hl, hw⟩ fun a ha => ?_
    rw [hpc]
    exact ha
  | casUnlink c l x r hpc hx hl =>
    -- the segment is cut out: all its nodes are marked
    rw [hpc] at hp
    obtain ⟨hc, l', x', hl', hx', htr, hw⟩ := hp
    obtain rfl := Option.some.inj hl'
    obtain rfl := Option.some.inj hx'
    have st := inv.shared.change_stable (t := t) knows_local
      (change_unlink htr.left htr.segment hl)
    refine inv.next (change_unlink htr.left htr.segment hl) ?_ rfl ?_ ?_
    · intro y hy
      exact hy.elim
    · refine ⟨hc.mono st ?_, st.segment htr.segment, hx, l, rfl, hw.mono st⟩
      exact fun _ _ h => h
    · intro a ha
      rw [hpc]
      exact .inl ha
  | casUnlinkFail c l leftNext r hpc hx hl =>
    -- the search begins again, with the call alone
    rw [hpc] at hp
    refine inv.goto hp.1 fun a ha => ?_
    rw [hpc]
    exact ha
  | walk c left x r hpc =>
    -- the nodes that were cut out are retired one after the other, each marked
    rw [hpc] at hp
    obtain ⟨hc, hs, hne, hw⟩ := hp
    rcases Relation.ReflTransGen.cases_head hs with h | ⟨y, ⟨hxm, hxn⟩, hys⟩
    · exact absurd h hne
    · refine inv.goto ⟨hc, hxm, rfl, ⟨y, hxn, hys⟩, hw⟩ fun a ha => ?_
      rw [hpc]
      exact ha
  | retireNext c left x y r hpc hy =>
    -- behind it comes another one of the segment
    rw [hpc] at hp
    obtain ⟨hc, -, -, ⟨y', hy', hys⟩, hw⟩ := hp
    obtain rfl := Option.some.inj hy'
    refine inv.retiring ⟨hc, hys, hy, hw⟩ fun a ha => ?_
    rw [hpc]
    exact ha
  | retireLast c left x r hpc =>
    -- it was the last one: its successor is the node on the right
    rw [hpc] at hp
    obtain ⟨hc, -, -, -, hw⟩ := hp
    refine inv.retiring ⟨hc, hw⟩ fun a ha => ?_
    rw [hpc]
    exact ha
  | checkTail c left hpc =>
    -- the window that was found is the result of the search
    rw [hpc] at hp
    obtain ⟨hc, l, rfl, hw⟩ := hp
    refine inv.goto (knows_done hc hw) fun a ha => ?_
    rw [hpc]
    exact newElem?_done ha
  | checkRetry c left r hpc hr hl =>
    -- the node on the right is marked by now
    rw [hpc] at hp
    refine inv.goto hp.1 fun a ha => ?_
    rw [hpc]
    exact ha
  | check c left r hpc hr hl =>
    rw [hpc] at hp
    obtain ⟨hc, l, rfl, hw⟩ := hp
    refine inv.goto (knows_done hc hw) fun a ha => ?_
    rw [hpc]
    exact newElem?_done ha
  | testTail c left hpc =>
    rw [hpc] at hp
    obtain ⟨hc, l, rfl, hw⟩ := hp
    -- the tail is not the key's node
    have hlt : c.key < s.key cfg.tail := by
      rw [inv.key_tail]
      exact hc.userKey.2
    refine inv.goto (knows_notFound hc hw hlt) fun a ha => ?_
    rw [hpc]
    exact newElem?_notFound ha
  | testAbsent c left r hpc hr hk =>
    rw [hpc] at hp
    obtain ⟨hc, l, rfl, hw⟩ := hp
    refine inv.goto (knows_notFound hc hw (lt_of_le_of_ne hw.right_ge (Ne.symm hk)))
      fun a ha => ?_
    rw [hpc]
    exact newElem?_notFound ha
  | testFound c left r hpc hr hk =>
    -- the node on the right has the key
    rw [hpc] at hp
    obtain ⟨hc, l, rfl, hw⟩ := hp
    refine inv.goto (knows_found hc hw hk) fun a ha => ?_
    rw [newElem?_found] at ha
    cases ha
  | deallocate key val a hpc => exact inv.goto trivial fun a ha => by cases ha
  | storeNext key val a left r hpc =>
    -- the new node is written, which nobody else sees
    rw [hpc] at hp
    obtain ⟨hc, hlt, l, rfl, hw⟩ := hp
    have hnew : (s.pc t).newElem? = some a := by
      rw [hpc]
      rfl
    have hlink : (s.store a ⟨some r, false⟩).link a = ⟨some r, false⟩ := State.store_link_self
    have ch := change_storeNext (v := ⟨some r, false⟩) hc.2.1 hnew
    have st := inv.shared.change_stable knows_local ch
    have hm : (s.store a ⟨some r, false⟩).arena.heap.marked a = false := by
      show ((s.store a ⟨some r, false⟩).link a).mark = false
      rw [hlink]
    apply inv.next ch
    · rintro y rfl
      exact hm
    · rfl
    · refine ⟨⟨hc.1, ⟨hc.2.1.allocated, hm, fun b hb => ?_⟩, hc.2.2⟩, hlt, ?_, l, rfl,
        hw.mono st⟩
      · refine hc.2.1.off b ((Heap.write_reach_iff (L := cfg.lists) hc.2.1.off
          fun y hy => ?_).mp hb)
        show ((s.store a ⟨some r, false⟩).link y).ptr = (s.link y).ptr
        rw [State.store_link_of_ne hy]
      · show ((s.store a ⟨some r, false⟩).link a).ptr = some r
        rw [hlink]
    · intro b hb
      obtain rfl := Option.some.inj hb
      exact .inl hnew
  | casInsert key val a l r hpc hl =>
    -- the new node is linked between the two, so it is the thread's own no longer
    rw [hpc] at hp
    obtain ⟨hc, hlt, hn, l', hl', hw⟩ := hp
    obtain rfl := Option.some.inj hl'
    have hnew : (s.pc t).newElem? = some a := by
      rw [hpc]
      rfl
    have hne : a ≠ l := by
      rintro rfl
      exact hc.2.1.not_anchored hw.left
    apply inv.next (change_insert hc.1 hc.2.1 hc.2.2 hnew hw hlt hn hl)
    · rintro y rfl
      show ((s.store l ⟨some y, false⟩).link y).mark = false
      rw [State.store_link_of_ne hne]
      exact hc.2.1.unmarked
    · rfl
    · trivial
    · intro b hb
      cases hb
  | casInsertFail key val a l r hpc hl =>
    -- the thread keeps its node and searches again
    rw [hpc] at hp
    refine inv.goto hp.1 fun b hb => ?_
    rw [hpc]
    exact hb
  | loadSuccMarked key left r hpc hl =>
    rw [hpc] at hp
    exact inv.goto hp.1 fun a ha => by cases ha
  | loadSucc key left r hpc hl =>
    rw [hpc] at hp
    exact inv.goto hp fun a ha => by cases ha
  | casMark key left r succ hpc hl =>
    -- the node is marked: it has the key and leaves the contents
    rw [hpc] at hp
    obtain ⟨hu, hk, l, rfl, hw⟩ := hp
    have hm : (s.link r).mark = false := by rw [hl]
    have hlive := inv.live hu hw.right hk hm
    have st := inv.shared.change_stable (t := t) knows_local (change_mark hlive hl)
    have hlink : (s.store r ⟨succ, true⟩).link r = ⟨succ, true⟩ := State.store_link_self
    refine inv.next (change_mark hlive hl) ?_ rfl ?_ ?_
    · intro y hy
      exact hy.elim
    · refine ⟨hu, hk, ?_, ?_, l, rfl, hw.mono st⟩
      · show ((s.store r ⟨succ, true⟩).link r).mark = true
        rw [hlink]
      · show ((s.store r ⟨succ, true⟩).link r).ptr = succ
        rw [hlink]
    · intro a ha
      cases ha
  | casMarkFail key left r succ hpc hl =>
    rw [hpc] at hp
    exact inv.goto hp.1 fun a ha => by cases ha
  | casErase key l r succ hpc hl =>
    -- a single marked node is cut out
    rw [hpc] at hp
    obtain ⟨hu, hk, hrm, hrn, l', hl', hw⟩ := hp
    obtain rfl := Option.some.inj hl'
    obtain ⟨-, y, hy, -⟩ := inv.shared.ok.trail hrm
    obtain rfl : succ = some y := hrn.symm.trans hy
    refine inv.next (change_unlink hw.left (.single hrm hrn) hl) ?_ rfl trivial ?_
    · intro z hz
      exact hz.elim
    · intro a ha
      cases ha
  | casEraseFail key l r succ hpc hl =>
    rw [hpc] at hp
    obtain ⟨hu, hk, -, -, l', -, hw⟩ := hp
    exact inv.goto ⟨hu, hk, hw.right⟩ fun a ha => by cases ha
  | readKey key left r hpc =>
    -- the key is read for the second search
    rw [hpc] at hp
    obtain ⟨hu, hk, -⟩ := hp
    refine inv.goto ?_ fun a ha => by cases ha
    show UserKey cfg (s.key r)
    have hk : s.key r = key := hk
    rw [hk]
    exact hu
  | retireErased key r hpc => exact inv.retiring trivial fun a ha => by cases ha
  | endOp op r hpc => exact inv.goto trivial fun a ha => by cases ha
  | ret op r hpc => exact inv.goto trivial fun a ha => by cases ha

/-- **The invariant holds in every run.** -/
theorem Inv.of_reachable (h : (lts (ι := ι) cfg).Reachable s) : Inv cfg s :=
  h.invariant (P := Inv cfg) (fun _ hi => Inv.init hi) fun _ _ _ _ hi _ hs => Inv.step hi hs

end

end

end HarrisList
end PopSetbench

import PopSetbench.Ds.LazyList

/-!
# The lazy list: the invariant

There are two kinds of facts. Those of the first kind survive whatever the others do (`Knows`), as
in the lists without locks. Those of the second kind hold because a lock is held (`Guarded`): a
`next` pointer and a mark change only under the lock of their node. `doInsert` does not lock `curr`;
but who marks `curr` holds the lock of its predecessor, and that is `pred`.
-/

namespace PopSetbench
namespace LazyList

open Function
open Heap (Reach)
open LazyListNzb (Config Upd)

variable {α ι K V : Type}

/-! ### What a thread knows -/

/-- The locks an update holds when it validates. -/
def locked (pred curr : α) : Upd K V → List α
  | .insert _ _ => [pred]
  | .erase _ => [pred, curr]

/-- The locks a thread holds. -/
def Pc.held : Pc α K V → List α
  | .lockCurr _ pred _ => [pred]
  | .validPred u pred curr => locked pred curr u
  | .validCurr u pred curr => locked pred curr u
  | .validNext u pred curr => locked pred curr u
  | .failPred u pred curr => locked pred curr u
  | .failCurr u pred curr => locked pred curr u
  | .failNext u pred curr => locked pred curr u
  | .insertKey _ _ pred _ => [pred]
  | .insertVal _ _ pred _ => [pred]
  | .newNode _ _ pred _ => [pred]
  | .link _ _ pred _ => [pred]
  | .eraseVal _ pred curr => [pred, curr]
  | .eraseNext _ pred curr _ => [pred, curr]
  | .mark _ pred curr _ _ => [pred, curr]
  | .unlink _ pred curr _ _ => [pred, curr]
  | .retire _ pred curr _ => [pred, curr]
  | .unlockCurr _ pred curr _ => [pred, curr]
  | .unlockPred _ pred _ => [pred]
  | _ => []

/-- The node a thread has allocated and not yet linked. -/
def Pc.newnode? : Pc α K V → Option α
  | .link _ _ _ a => some a
  | _ => none

/-- The node a thread has marked and not yet unlinked. -/
def Pc.erasing? : Pc α K V → Option α
  | .unlink _ _ curr _ _ => some curr
  | _ => none

section

variable [LinearOrder K] (cfg : Config α K) (A : Arena α K V)

/-- The node has been in the list. -/
def Met (x : α) : Prop :=
  A.heap.Anchored (lists cfg) () x

/-- The key lies between the sentinels. -/
def UserKey (key : K) : Prop :=
  cfg.keyMin < key ∧ key < cfg.keyMax

/-- `pred` and `curr` have been in the list, before the key and not before it; a deletion has found
its key. -/
structure Window (u : Upd K V) (pred curr : α) : Prop where
  user : UserKey cfg u.key
  left : Met cfg A pred
  left_lt : A.heap.key pred < u.key
  right : Met cfg A curr
  right_ge : u.key ≤ A.heap.key curr
  erase : ∀ key, u = .erase key → A.heap.key curr = key

/-- What a thread knows, by where it is. -/
def Knows : Pc α K V → Prop
  | .start op => UserKey cfg op.key
  | .walk key curr => UserKey cfg key ∧ Met cfg A curr
  | .walkNext key curr => UserKey cfg key ∧ Met cfg A curr ∧ A.heap.key curr < key
  | .testKey key curr => UserKey cfg key ∧ Met cfg A curr ∧ key ≤ A.heap.key curr
  | .testMark key curr | .readVal key curr => UserKey cfg key ∧ Met cfg A curr ∧
    A.heap.key curr = key
  | .loadNext u pred => UserKey cfg u.key ∧ Met cfg A pred ∧ A.heap.key pred < u.key
  | .readKey u pred curr => UserKey cfg u.key ∧ Met cfg A pred ∧ A.heap.key pred < u.key ∧
    Met cfg A curr
  | .eraseKey key pred curr => UserKey cfg key ∧ Met cfg A pred ∧ A.heap.key pred < key ∧
    Met cfg A curr ∧ key ≤ A.heap.key curr
  | .lockPred u pred curr | .validPred u pred curr | .validCurr u pred curr
  | .validNext u pred curr | .failPred u pred curr | .failCurr u pred curr
  | .failNext u pred curr => Window cfg A u pred curr
  | .lockCurr key pred curr | .unlockCurr key pred curr _ | .eraseVal key pred curr =>
    Window cfg A (.erase key : Upd K V) pred curr
  | .insertKey key val pred curr => Window cfg A (.insert key val) pred curr
  | .insertVal key val pred curr => Window cfg A (.insert key val) pred curr ∧
    A.heap.key curr = key
  | .newNode key val pred curr => Window cfg A (.insert key val) pred curr ∧
    key < A.heap.key curr
  | .link key val pred a => UserKey cfg key ∧ Met cfg A pred ∧ A.heap.key pred < key ∧
    A.Private (lists cfg) a ∧ A.heap.key a = key ∧ A.val a = val ∧
    ∃ x, A.heap.next a = some x ∧ Met cfg A x ∧ key < A.heap.key x
  | .eraseNext key pred curr result | .mark key pred curr result _ =>
    Window cfg A (.erase key : Upd K V) pred curr ∧ A.val curr = result
  | .unlink key pred curr result c_nxt => Window cfg A (.erase key : Upd K V) pred curr ∧
    A.val curr = result ∧ A.heap.marked curr = true ∧ A.heap.next curr = c_nxt
  | .retire key pred curr _ => Window cfg A (.erase key : Upd K V) pred curr ∧
    A.heap.marked curr = true
  | .unlockPred u pred _ => UserKey cfg u.key ∧ Met cfg A pred
  | .endOp op _ => UserKey cfg op.key
  | _ => True

end

/-! ### It survives -/

section

variable [LinearOrder K] {cfg : Config α K} {A A' : Arena α K V} {priv : α → Prop}
  {u : Upd K V} {key : K} {x pred curr : α}

theorem Window.lt (h : Window cfg A u pred curr) : A.heap.key pred < A.heap.key curr :=
  h.left_lt.trans_le h.right_ge

theorem Window.ne (h : Window cfg A u pred curr) : pred ≠ curr := by
  rintro rfl
  exact absurd h.lt (lt_irrefl _)

theorem Window.found (h : Window cfg A (.erase key : Upd K V) pred curr) :
    A.heap.key curr = key :=
  h.erase key rfl

theorem Knows.new_private {p : Pc α K V} (h : Knows cfg A p) (hx : p.newnode? = some x) :
    A.Private (lists cfg) x := by
  cases p with
  | link key val pred a =>
    obtain rfl := Option.some.inj hx
    exact h.2.2.2.1
  | _ => cases hx

theorem Window.met_locked (h : Window cfg A u pred curr) (hx : x ∈ locked pred curr u) :
    Met cfg A x := by
  cases u with
  | insert key val =>
    obtain rfl := List.mem_singleton.mp hx
    exact h.left
  | erase key =>
    rcases List.mem_pair.mp hx with rfl | rfl
    · exact h.left
    · exact h.right

/-- Locks that are held are those of nodes that have been in the list. -/
theorem Knows.met_held {p : Pc α K V} (h : Knows cfg A p) (hx : x ∈ p.held) : Met cfg A x := by
  have hpair : ∀ {key : K} {pred curr : α}, Window cfg A (.erase key : Upd K V) pred curr →
      x ∈ [pred, curr] → Met cfg A x := fun hw hx => hw.met_locked hx
  have hone : ∀ {pred : α}, Met cfg A pred → x ∈ [pred] → Met cfg A x := by
    intro pred hp hx
    obtain rfl := List.mem_singleton.mp hx
    exact hp
  cases p with
  | lockCurr key pred curr => exact hone (Window.left h) hx
  | validPred u pred curr => exact Window.met_locked h hx
  | validCurr u pred curr => exact Window.met_locked h hx
  | validNext u pred curr => exact Window.met_locked h hx
  | failPred u pred curr => exact Window.met_locked h hx
  | failCurr u pred curr => exact Window.met_locked h hx
  | failNext u pred curr => exact Window.met_locked h hx
  | insertKey key val pred curr => exact hone (Window.left h) hx
  | insertVal key val pred curr => exact hone h.1.left hx
  | newNode key val pred curr => exact hone h.1.left hx
  | link key val pred a => exact hone h.2.1 hx
  | eraseVal key pred curr => exact hpair h hx
  | eraseNext key pred curr result => exact hpair h.1 hx
  | mark key pred curr result c_nxt => exact hpair h.1 hx
  | unlink key pred curr result c_nxt => exact hpair h.1 hx
  | retire key pred curr result => exact hpair h.1 hx
  | unlockCurr key pred curr r => exact hpair h hx
  | unlockPred u pred r => exact hone h.2 hx
  | _ => cases hx

section Mono

variable (st : Arena.Stable (lists cfg) A A' priv)

include st

theorem Met.mono (h : Met cfg A x) : Met cfg A' x :=
  (st.anchored h).1

theorem Met.key_eq (h : Met cfg A x) : A'.heap.key x = A.heap.key x :=
  (st.anchored h).2.1

theorem Met.val_eq (h : Met cfg A x) : A'.val x = A.val x :=
  (st.anchored h).2.2

theorem Window.mono (h : Window cfg A u pred curr) : Window cfg A' u pred curr where
  user := h.user
  left := h.left.mono st
  left_lt := by
    rw [h.left.key_eq st]
    exact h.left_lt
  right := h.right.mono st
  right_ge := by
    rw [h.right.key_eq st]
    exact h.right_ge
  erase key hu := (h.right.key_eq st).trans (h.erase key hu)

/-- **What a thread knows survives.** -/
theorem Knows.mono {p : Pc α K V} (hp : ∀ a, p.newnode? = some a → priv a)
    (h : Knows cfg A p) : Knows cfg A' p := by
  cases p with
  | start op => exact h
  -- where a search stands may be deleted, but it stays a node that was met, with the same key
  | walk key curr => exact ⟨h.1, h.2.mono st⟩
  | walkNext key curr =>
    obtain ⟨hu, hm, hk⟩ := h
    refine ⟨hu, hm.mono st, ?_⟩
    rw [hm.key_eq st]
    exact hk
  | testKey key curr =>
    obtain ⟨hu, hm, hk⟩ := h
    refine ⟨hu, hm.mono st, ?_⟩
    rw [hm.key_eq st]
    exact hk
  | testMark key curr =>
    obtain ⟨hu, hm, hk⟩ := h
    exact ⟨hu, hm.mono st, (hm.key_eq st).trans hk⟩
  | readVal key curr =>
    obtain ⟨hu, hm, hk⟩ := h
    exact ⟨hu, hm.mono st, (hm.key_eq st).trans hk⟩
  | loadNext u pred =>
    -- the same of the node that an update walks over
    obtain ⟨hu, hm, hk⟩ := h
    refine ⟨hu, hm.mono st, ?_⟩
    rw [hm.key_eq st]
    exact hk
  | readKey u pred curr =>
    obtain ⟨hu, hm, hk, hc⟩ := h
    refine ⟨hu, hm.mono st, ?_, hc.mono st⟩
    rw [hm.key_eq st]
    exact hk
  | eraseKey key pred curr =>
    obtain ⟨hu, hm, hk, hc, hkc⟩ := h
    refine ⟨hu, hm.mono st, ?_, hc.mono st, ?_⟩
    · rw [hm.key_eq st]
      exact hk
    · rw [hc.key_eq st]
      exact hkc
  -- between the locks and the validation only the window is known
  | lockPred u pred curr => exact Window.mono st h
  | validPred u pred curr => exact Window.mono st h
  | validCurr u pred curr => exact Window.mono st h
  | validNext u pred curr => exact Window.mono st h
  | failPred u pred curr => exact Window.mono st h
  | failCurr u pred curr => exact Window.mono st h
  | failNext u pred curr => exact Window.mono st h
  | lockCurr key pred curr => exact Window.mono st h
  | unlockCurr key pred curr r => exact Window.mono st h
  | eraseVal key pred curr => exact Window.mono st h
  | insertKey key val pred curr => exact Window.mono st h
  | insertVal key val pred curr =>
    -- keys and values are written before a node is linked, and never again
    exact ⟨h.1.mono st, (h.1.right.key_eq st).trans h.2⟩
  | newNode key val pred curr =>
    refine ⟨h.1.mono st, ?_⟩
    rw [h.1.right.key_eq st]
    exact h.2
  | link key val pred a =>
    -- the new node is private until it is linked, so nobody has written to it
    obtain ⟨hu, hm, hk, ha, hka, hva, x, hn, hx, hkx⟩ := h
    obtain ⟨ha', hn', hka', hva'⟩ := st.priv ha (hp a rfl)
    refine ⟨hu, hm.mono st, ?_, ha', hka'.trans hka, hva'.trans hva, x, hn'.trans hn, hx.mono st,
      ?_⟩
    · rw [hm.key_eq st]
      exact hk
    · rw [hx.key_eq st]
      exact hkx
  | eraseNext key pred curr result =>
    exact ⟨h.1.mono st, (h.1.right.val_eq st).trans h.2⟩
  | mark key pred curr result c_nxt =>
    exact ⟨h.1.mono st, (h.1.right.val_eq st).trans h.2⟩
  | unlink key pred curr result c_nxt =>
    -- a deleted node keeps its successor: `unlink` may rely on what `eraseNext` read
    obtain ⟨hw, hv, hm, hn⟩ := h
    obtain ⟨hm', hn', -⟩ := st.frozen hm
    exact ⟨hw.mono st, (hw.right.val_eq st).trans hv, hm', hn'.trans hn⟩
  | retire key pred curr result =>
    exact ⟨h.1.mono st, st.marked h.2⟩
  | unlockPred u pred r => exact ⟨h.1, h.2.mono st⟩
  | endOp op r => exact h
  | _ => trivial

end Mono

theorem knows_local :
    Local (lists cfg) (Knows cfg) (Pc.newnode? (α := α) (K := K) (V := V)) where
  mono st hp h := h.mono st hp
  new_private h hx := h.new_private hx

end

/-! ### What the locks protect -/

section

variable (A : Arena α K V)

/-- `pred` and `curr` are neighbours and not marked. -/
structure Linked (pred curr : α) : Prop where
  left : A.heap.marked pred = false
  next : A.heap.next pred = some curr
  right : A.heap.marked curr = false

/-- What holds because a thread has its locks, by where it is. -/
def Guarded : Pc α K V → Prop
  | .validCurr _ pred _ => A.heap.marked pred = false
  | .validNext _ pred curr => A.heap.marked pred = false ∧
    (A.heap.next pred = some curr → A.heap.marked curr = false)
  | .insertKey _ _ pred curr | .insertVal _ _ pred curr | .newNode _ _ pred curr
  | .eraseVal _ pred curr | .eraseNext _ pred curr _ => Linked A pred curr
  | .link _ _ pred a => A.heap.marked pred = false ∧ A.heap.next pred = A.heap.next a
  | .mark _ pred curr _ c_nxt => Linked A pred curr ∧ A.heap.next curr = c_nxt
  | .unlink _ pred curr _ _ => A.heap.marked pred = false ∧ A.heap.next pred = some curr
  | _ => True

/-- A step leaves alone the nodes in `l`, which another thread has locked: their fields, and the
marks of their successors. -/
structure Untouched (A A' : Arena α K V) (l : List α) : Prop where
  next : ∀ y ∈ l, A'.heap.next y = A.heap.next y
  marked : ∀ y ∈ l, A'.heap.marked y = A.heap.marked y
  succ : ∀ y ∈ l, ∀ x, A.heap.marked y = false → A.heap.next y = some x →
    A.heap.marked x = false → A'.heap.marked x = false

variable {A} {A' : Arena α K V} {l : List α} {pred curr : α}

theorem Untouched.refl : Untouched A A l :=
  ⟨fun _ _ => rfl, fun _ _ => rfl, fun _ _ _ _ _ h => h⟩

theorem Linked.mono (h : Linked A pred curr) (un : Untouched A A' l) (hp : pred ∈ l) :
    Linked A' pred curr where
  left := (un.marked pred hp).trans h.left
  next := (un.next pred hp).trans h.next
  right := un.succ pred hp curr h.left h.next h.right

theorem mem_locked {u : Upd K V} : pred ∈ locked pred curr u := by
  cases u <;> exact List.mem_cons_self

/-- **What the locks protect survives.** -/
theorem Guarded.mono [LinearOrder K] {cfg : Config α K} {priv : α → Prop} {p : Pc α K V}
    (un : Untouched A A' p.held) (st : Arena.Stable (lists cfg) A A' priv)
    (hp : ∀ a, p.newnode? = some a → priv a) (hk : Knows cfg A p) (h : Guarded A p) :
    Guarded A' p := by
  cases p with
  | validCurr u pred curr => exact (un.marked pred mem_locked).trans h
  | validNext u pred curr =>
    obtain ⟨hm, hc⟩ := h
    refine ⟨(un.marked pred mem_locked).trans hm, fun hn => ?_⟩
    have hn : A.heap.next pred = some curr := (un.next pred mem_locked).symm.trans hn
    exact un.succ pred mem_locked curr hm hn (hc hn)
  | insertKey key val pred curr => exact Linked.mono h un List.mem_cons_self
  | insertVal key val pred curr => exact Linked.mono h un List.mem_cons_self
  | newNode key val pred curr => exact Linked.mono h un List.mem_cons_self
  | eraseVal key pred curr => exact Linked.mono h un List.mem_cons_self
  | eraseNext key pred curr result => exact Linked.mono h un List.mem_cons_self
  | link key val pred a =>
    have hn : A'.heap.next a = A.heap.next a := (st.priv hk.2.2.2.1 (hp a rfl)).2.1
    refine ⟨(un.marked pred List.mem_cons_self).trans h.1, ?_⟩
    calc A'.heap.next pred = A.heap.next pred := un.next pred List.mem_cons_self
      _ = A.heap.next a := h.2
      _ = A'.heap.next a := hn.symm
  | mark key pred curr result c_nxt =>
    refine ⟨h.1.mono un List.mem_cons_self, ?_⟩
    exact (un.next curr (List.mem_cons_of_mem _ List.mem_cons_self)).trans h.2
  | unlink key pred curr result c_nxt =>
    exact ⟨(un.marked pred List.mem_cons_self).trans h.1,
      (un.next pred List.mem_cons_self).trans h.2⟩
  | _ => trivial

end

/-! ### The invariant -/

section

variable [LinearOrder K] {cfg : Config α K} {s s' : State α ι K V} {key : K} {x pred curr a : α}

variable (cfg s) in
/-- **The invariant.** -/
structure Inv : Prop where
  /-- Of the memory and of what the threads know. -/
  shared : Shared (lists cfg) (Knows cfg) Pc.newnode? s.arena s.pc
  /-- The list begins with the least key. -/
  key_head : s.key cfg.head = cfg.keyMin
  /-- The list ends with the greatest key. -/
  key_tail : s.key cfg.tail = cfg.keyMax
  /-- Locks exclude each other. -/
  locks : Locks s.lock fun t => (s.pc t).held
  /-- Every thread finds what its locks protect. -/
  guarded : ∀ t, Guarded s.arena (s.pc t)
  /-- A marked node of the list is about to be unlinked by the one who marked it. -/
  erasing : ∀ x, Reach s.next cfg.head x → s.marked x = true →
    ∃ t, (s.pc t).erasing? = some x

/-- In the list the constructor builds, only the sentinels are reached. -/
theorem Init.reach (h : Init cfg s) (hx : Reach s.heap.next cfg.head x) :
    x = cfg.head ∨ x = cfg.tail := by
  induction hx with
  | refl => exact .inl rfl
  | @tail y z _ hyz ih =>
    have hyz : s.next y = some z := hyz
    rcases ih with rfl | rfl
    · rw [h.next_head] at hyz
      exact .inr (Option.some.inj hyz).symm
    · rw [h.next_tail] at hyz
      cases hyz

theorem Inv.init (h : Init cfg s) : Inv cfg s := by
  have hmark : ∀ {x}, s.heap.marked x ≠ true := by
    intro x hx
    have hx : s.marked x = true := hx
    rw [h.marked] at hx
    cases hx
  have hwf : s.heap.WF (lists cfg) := by
    refine ⟨fun {b x} hx hxt => ?_, fun b => ?_, fun b => h.next_tail, fun {b b' x} _ _ => rfl,
      fun {b x} hx hxh hxt => ?_, fun b => h.marked _, fun b => h.marked _⟩
    · obtain rfl := (h.reach hx).resolve_right hxt
      refine ⟨cfg.tail, h.next_head, ?_⟩
      show s.key cfg.head < s.key cfg.tail
      rw [h.key_head, h.key_tail]
      exact cfg.keyMin_lt
    · exact Reach.refl.step h.next_head
    · rcases h.reach hx with rfl | rfl
      · exact absurd rfl hxh
      · exact absurd rfl hxt
  refine ⟨⟨⟨hwf, fun {b x} hx => ?_, fun {x} hx => absurd hx hmark,
    fun {x} hx => absurd hx hmark⟩, fun t => ?_, fun {t t' a} ha => ?_⟩, h.key_head, h.key_tail,
    .init fun t => ?_, fun t => ?_, fun x _ hx => absurd hx hmark⟩
  · exact (h.allocated x).mpr (h.reach hx)
  · rw [h.pc t]
    trivial
  · rw [h.pc t] at ha
    cases ha
  · rw [h.pc t]
    rfl
  · rw [h.pc t]
    trivial

namespace Inv

/-- What a node that was met is followed by. -/
theorem met_next (inv : Inv cfg s) (hx : Met cfg s.arena x) (hn : s.next x = some curr) :
    Met cfg s.arena curr ∧ s.key x < s.key curr := by
  by_cases hm : s.marked x = true
  · obtain ⟨⟨⟩, y, hy, hya, hlt⟩ := inv.shared.ok.trail (x := x) hm
    obtain rfl := Option.some.inj (hn.symm.trans hy)
    exact ⟨hya, hlt⟩
  · have hr := Arena.reach_of_anchored hx (Bool.eq_false_iff.mpr hm)
    exact ⟨.inr (hr.step hn), inv.shared.ok.wf.key_lt_next hr hn⟩

/-- A node that was met and is not marked is live, if its key is one of the user's. -/
theorem live (inv : Inv cfg s) (hu : UserKey cfg key) (hx : Met cfg s.arena x)
    (hk : s.key x = key) (hm : s.marked x = false) : s.heap.Live (lists cfg) () x := by
  refine ⟨Arena.reach_of_anchored hx hm, hm, ?_, ?_⟩
  · rintro rfl
    have h : s.key cfg.head = key := hk
    rw [inv.key_head] at h
    exact absurd h hu.1.ne
  · rintro rfl
    have h : s.key cfg.tail = key := hk
    rw [inv.key_tail] at h
    exact absurd h hu.2.ne'

end Inv

/-! ### What the writes do -/

section

variable {t : ι} {result : V} {c_nxt : Option α}

/-- What a deletion that is about to mark its node knows. -/
theorem Inv.live_mark (inv : Inv cfg s) (hpc : s.pc t = .mark key pred curr result c_nxt) :
    s.heap.Live (lists cfg) () curr := by
  have hk := inv.shared.all t
  have hg := inv.guarded t
  rw [hpc] at hk hg
  exact inv.live hk.1.user hk.1.right hk.1.found hg.1.right

/-- What a deletion that is about to unlink its node has found behind it. -/
theorem Inv.unlink_next (inv : Inv cfg s) (hpc : s.pc t = .unlink key pred curr result c_nxt) :
    ∃ y, c_nxt = some y ∧ s.next curr = some y := by
  have hk := inv.shared.all t
  rw [hpc] at hk
  obtain ⟨-, -, hm, hn⟩ := hk
  obtain ⟨-, y, hy, -⟩ := inv.shared.ok.trail hm
  exact ⟨y, hn.symm.trans hy, hy⟩

/-- A node that is locked by a thread was allocated. -/
theorem Inv.held_allocated (inv : Inv cfg s) (hx : x ∈ (s.pc t).held) :
    s.allocated x = true :=
  inv.shared.ok.anchored_allocated ((inv.shared.all t).met_held hx)

end

variable [DecidableEq α] {t : ι} {own : α → Prop} {val : V} {result : V} {c_nxt : Option α}

theorem change_allocating {mine : α → Prop} (ok : s.arena.Ok (lists cfg))
    (ha : s.allocated a = false) :
    Arena.Change (lists cfg) s.arena (s.allocating a key val x).arena mine (· = a) where
  own_new y hy := by
    subst hy
    exact ⟨.inl ha, update_self ..⟩
  move := by
    refine .write a rfl (fun b hb => ?_) (fun y hy => update_of_ne hy ..)
      (fun y hy => update_of_ne hy ..) fun y hy => update_of_ne hy ..
    have h : s.allocated a = true := ok.reach_allocated hb
    rw [ha] at h
    cases h
  val y hy := update_of_ne hy ..
  allocated y hy := by
    show update s.allocated a true y = true
    by_cases hya : y = a
    · subst hya
      exact update_self ..
    · rw [update_of_ne hya]
      exact hy

/-- The new node enters. -/
theorem change_link (hpc : s.pc t = .link key val pred a)
    (hk : Knows cfg s.arena (.link key val pred a))
    (hg : Guarded s.arena (.link key val pred a : Pc α K V)) :
    Arena.Change (lists cfg) s.arena (s.setNext pred (some a)).arena
      (fun x => (s.pc t).newnode? = some x) (· = a) := by
  obtain ⟨hu, hp, hpk, ha, hka, -, y, hn, -, hky⟩ := hk
  refine ⟨fun z hz => ?_, ?_, fun _ _ => rfl, fun _ hz => hz⟩
  · subst hz
    rw [hpc]
    exact ⟨.inr rfl, ha.allocated⟩
  · refine .insert () pred y a rfl (Arena.reach_of_anchored hp hg.1) hg.1 (hg.2.trans hn) hn
      ha.unmarked ha.off ?_ ?_ ?_
    · rw [hka]
      exact hpk
    · rw [hka]
      exact hky
    · rw [hka]
      exact hu

theorem change_mark {mine : α → Prop} (hlive : s.heap.Live (lists cfg) () curr) :
    Arena.Change (lists cfg) s.arena (s.setMarked curr).arena mine fun _ => False :=
  ⟨fun _ hz => hz.elim, .mark () curr hlive, fun _ _ => rfl, fun _ hz => hz⟩

/-- A marked node is cut out. -/
theorem change_unlink {mine : α → Prop} {y : α} (hp : Met cfg s.arena pred)
    (hpm : s.marked pred = false) (hn : s.next pred = some curr) (hm : s.marked curr = true)
    (hy : s.next curr = some y) :
    Arena.Change (lists cfg) s.arena (s.setNext pred (some y)).arena mine fun _ => False :=
  ⟨fun _ hz => hz.elim, .unlink () pred curr y (Arena.reach_of_anchored hp hpm) hpm hn
    (.single hm hy), fun _ _ => rfl, fun _ hz => hz⟩

/-! ### What the locks of others protect -/

section

variable {q : ι}

theorem untouched_allocating (inv : Inv cfg s) (ha : s.allocated a = false) :
    Untouched s.arena (s.allocating a key val x).arena (s.pc q).held := by
  have hne : ∀ y ∈ (s.pc q).held, y ≠ a := by
    rintro y hy rfl
    rw [inv.held_allocated hy] at ha
    cases ha
  refine ⟨fun y hy => update_of_ne (hne y hy) .., fun y hy => update_of_ne (hne y hy) ..,
    fun y _ z _ _ hz => ?_⟩
  show update s.marked a false z = false
  by_cases hza : z = a
  · subst hza
    exact update_self ..
  · rw [update_of_ne hza]
    exact hz

/-- Only who has locked a node changes its `next`. -/
theorem untouched_setNext {v : Option α} (inv : Inv cfg s) (hq : q ≠ t)
    (hp : pred ∈ (s.pc t).held) :
    Untouched s.arena (s.setNext pred v).arena (s.pc q).held := by
  refine ⟨fun y hy => update_of_ne ?_ .., fun _ _ => rfl, fun _ _ _ _ _ hz => hz⟩
  rintro rfl
  exact hq (inv.locks.excl hy hp)

/-- Who marks a node has locked its predecessor, too. -/
theorem untouched_setMarked (inv : Inv cfg s) (hq : q ≠ t)
    (hpc : s.pc t = .mark key pred curr result c_nxt) :
    Untouched s.arena (s.setMarked curr).arena (s.pc q).held := by
  have hk := inv.shared.all t
  have hg := inv.guarded t
  rw [hpc] at hk hg
  have hpred : pred ∈ (s.pc t).held := by
    rw [hpc]
    exact List.mem_cons_self
  have hcurr : curr ∈ (s.pc t).held := by
    rw [hpc]
    exact List.mem_cons_of_mem _ List.mem_cons_self
  refine ⟨fun _ _ => rfl, fun y hy => update_of_ne ?_ .., fun y hy z hym hyz hz => ?_⟩
  · rintro rfl
    exact hq (inv.locks.excl hy hcurr)
  · show update s.marked curr true z = false
    rw [update_of_ne ?_]
    · exact hz
    · rintro rfl
      -- the predecessor of `curr` is `pred`, which the other thread cannot have locked
      have hyr := Arena.reach_of_anchored ((inv.shared.all q).met_held hy) hym
      have hpr := Arena.reach_of_anchored hk.1.left hg.1.left
      obtain rfl := inv.shared.ok.wf.eq_of_next_eq hyr hpr hyz hg.1.next
      exact hq (inv.locks.excl hy hpred)

end

/-! ### Each step -/

section

variable [DecidableEq ι]

/-- The invariant after a step, given what the step does to the memory. -/
theorem Inv.next {p : Pc α K V} (inv : Inv cfg s)
    (c : Arena.Change (lists cfg) s.arena s'.arena (fun x => (s.pc t).newnode? = some x) own)
    (hown : ∀ x, own x → s'.arena.heap.marked x = false) (hpc : s'.pc = s.pc)
    (hknows : Knows cfg s'.arena p)
    (hnew : ∀ a, p.newnode? = some a → (s.pc t).newnode? = some a ∨ s.allocated a = false)
    (hun : ∀ q, q ≠ t → Untouched s.arena s'.arena (s.pc q).held)
    (hguard : Guarded s'.arena p)
    (hlocks : Locks s'.lock fun q => ((s'.goto t p).pc q).held)
    (herase : ∀ x, Reach s'.next cfg.head x → s'.marked x = true → p.erasing? = some x ∨
      (Reach s.next cfg.head x ∧ s.marked x = true ∧ (s.pc t).erasing? ≠ some x)) :
    Inv cfg (s'.goto t p) := by
  have st := inv.shared.change_stable knows_local c
  have hself : (s'.goto t p).pc t = p := State.goto_pc_self
  -- the acting thread goes to `p`, the others stay where they are
  have hother : ∀ {q}, q ≠ t → (s'.goto t p).pc q = s.pc q := by
    intro q hq
    rw [State.goto_pc_of_ne hq, hpc]
  refine ⟨inv.shared.step (t := t) knows_local c hown (fun q hq => hother hq) ?_ ?_, ?_, ?_,
    hlocks, fun q => ?_, fun x hx hm => ?_⟩
  · rw [hself]
    exact hknows
  · rw [hself]
    exact hnew
  · have hhead : s.arena.heap.Anchored (lists cfg) () cfg.head := .inr .refl
    exact (st.anchored hhead).2.1.trans inv.key_head
  · have htail : s.arena.heap.Anchored (lists cfg) () cfg.tail :=
      .inr (inv.shared.ok.wf.reach_tail ())
    exact (st.anchored htail).2.1.trans inv.key_tail
  · -- what a thread has validated is not written by another one: the nodes are locked
    by_cases hq : q = t
    · subst hq
      rw [hself]
      exact hguard
    · rw [hother hq]
      exact (inv.guarded q).mono (hun q hq) st
        (fun a ha => inv.shared.other_own knows_local c hq ha) (inv.shared.all q)
  · -- a deleted node that is still in the list has the same deleter as before, or the one acting
    rcases herase x hx hm with h | ⟨hx, hm, ht⟩
    · exact ⟨t, by rw [hself]; exact h⟩
    · obtain ⟨q, hq⟩ := inv.erasing x hx hm
      have hqt : q ≠ t := by
        rintro rfl
        exact ht hq
      exact ⟨q, by rw [hother hqt]; exact hq⟩

/-- The memory stays as it is, but for a lock. -/
theorem Inv.stay {p p₀ : Pc α K V} (inv : Inv cfg s) (hpc : s.pc t = p₀)
    (harena : s'.arena = s.arena) (hpc' : s'.pc = s.pc)
    (hlocks : Locks s'.lock fun q => ((s'.goto t p).pc q).held)
    (hk : Knows cfg s.arena p) (hg : Guarded s.arena p) (hn : p.newnode? = none)
    (he : p₀.erasing? = none) : Inv cfg (s'.goto t p) := by
  have hheap : s'.heap = s.heap := congrArg Arena.heap harena
  have hnext : s'.next = s.next := congrArg Heap.next hheap
  have hmarked : s'.marked = s.marked := congrArg Heap.marked hheap
  have ch : Arena.Change (lists cfg) s.arena s'.arena (fun x => (s.pc t).newnode? = some x)
      fun _ => False := by
    rw [harena]
    exact .refl
  refine inv.next ch (fun _ hx => hx.elim) hpc' ?_ ?_ ?_ ?_ hlocks fun x hx hm => ?_
  · rw [harena]
    exact hk
  · intro a ha
    rw [hn] at ha
    cases ha
  · intro q _
    rw [harena]
    exact .refl
  · rw [harena]
    exact hg
  · rw [hnext] at hx
    rw [hmarked] at hm
    refine .inr ⟨hx, hm, ?_⟩
    rw [hpc, he]
    exact (Option.some_ne_none x).symm

/-- The thread goes on, with none but locks that it holds. -/
theorem Inv.goto {p p₀ : Pc α K V} (inv : Inv cfg s) (hpc : s.pc t = p₀)
    (hk : Knows cfg s.arena p) (hg : Guarded s.arena p) (hsub : ∀ y ∈ p.held, y ∈ p₀.held)
    (hn : p.newnode? = none) (he : p₀.erasing? = none) : Inv cfg (s.goto t p) := by
  refine inv.stay hpc rfl rfl (inv.locks.stay (t := t) (fun q hq => ?_) ?_) hk hg hn he
  · exact congrArg Pc.held (State.goto_pc_of_ne hq)
  · rw [State.goto_pc_self, hpc]
    exact hsub

end

/-! ### Where the code goes on -/

section

variable {A : Arena α K V} {u : Upd K V}

omit [DecidableEq α] in
theorem knows_arrive (hu : UserKey cfg u.key) (hp : Met cfg A pred)
    (hpk : A.heap.key pred < u.key) (hc : Met cfg A curr) (hck : u.key ≤ A.heap.key curr) :
    Knows cfg A (arrive pred curr u) := by
  cases u with
  | insert key val => exact ⟨hu, hp, hpk, hc, hck, fun key h => by cases h⟩
  | erase key => exact ⟨hu, hp, hpk, hc, hck⟩

omit [DecidableEq α] in
theorem knows_predLocked (hw : Window cfg A u pred curr) :
    Knows cfg A (predLocked pred curr u) := by
  cases u <;> exact hw

omit [DecidableEq α] in
theorem knows_validated (hw : Window cfg A u pred curr) :
    Knows cfg A (validated pred curr u) := by
  cases u <;> exact hw

omit [LinearOrder K] [DecidableEq α] in
theorem guarded_validated (hl : Linked A pred curr) : Guarded A (validated pred curr u) := by
  cases u <;> exact hl

omit [DecidableEq α] in
theorem knows_failed (hw : Window cfg A u pred curr) : Knows cfg A (failed pred curr u) := by
  cases u with
  | insert key val => exact ⟨hw.user, hw.left⟩
  | erase key => exact hw

omit [LinearOrder K] [DecidableEq α] in
theorem held_failed (y : α) (hy : y ∈ (failed pred curr u).held) : y ∈ locked pred curr u := by
  cases u <;> exact hy

end

section

variable [DecidableEq ι]

/-- After a failing validation the locks are released. -/
theorem Inv.failed {u : Upd K V} {p₀ : Pc α K V} (inv : Inv cfg s) (hpc : s.pc t = p₀)
    (hw : Window cfg s.arena u pred curr) (hheld : p₀.held = locked pred curr u)
    (he : p₀.erasing? = none) : Inv cfg (s.goto t (LazyList.failed pred curr u)) := by
  refine inv.goto hpc (knows_failed hw) ?_ ?_ ?_ he
  · cases u <;> trivial
  · rw [hheld]
    exact held_failed
  · cases u <;> rfl

/-- **The invariant, step by step.** -/
theorem Inv.step (inv : Inv cfg s) {e : Event α K V} (h : Step cfg s t e s') : Inv cfg s' := by
  have hp := inv.shared.all t
  have hg := inv.guarded t
  have hnil : ∀ {l : List α}, ∀ y ∈ ([] : List α), y ∈ l := fun {l} y hy => by cases hy
  have hall : ∀ {l : List α}, ∀ y ∈ l, y ∈ l := fun {l} y hy => hy
  cases h with
  | invoke op hpc hmin hmax => exact inv.goto hpc ⟨hmin, hmax⟩ trivial hnil rfl rfl
  | startOp op hpc =>
    -- an operation begins at the head, whose key is the smallest
    rw [hpc] at hp
    have hmin : s.key cfg.head < op.key := by
      rw [inv.key_head]
      exact hp.1
    cases op with
    | contains key => exact inv.goto hpc ⟨hp, .inr .refl⟩ trivial hnil rfl rfl
    | insert key val => exact inv.goto hpc ⟨hp, .inr .refl, hmin⟩ trivial hnil rfl rfl
    | erase key => exact inv.goto hpc ⟨hp, .inr .refl, hmin⟩ trivial hnil rfl rfl
  | walk key x hpc hk =>
    -- `contains` takes no lock: all it knows is that it met the node
    rw [hpc] at hp
    exact inv.goto hpc ⟨hp.1, hp.2, hk⟩ trivial hnil rfl rfl
  | walkEnd key x hpc hk =>
    rw [hpc] at hp
    exact inv.goto hpc ⟨hp.1, hp.2, not_lt.mp hk⟩ trivial hnil rfl rfl
  | walkNext key x y hpc hy =>
    -- the successor of a node that was met has been met too, deleted or not
    rw [hpc] at hp
    exact inv.goto hpc ⟨hp.1, (inv.met_next hp.2.1 hy).1⟩ trivial hnil rfl rfl
  | testKey key x hpc hk =>
    rw [hpc] at hp
    exact inv.goto hpc ⟨hp.1, hp.2.1, hk⟩ trivial hnil rfl rfl
  | testKeyFail key x hpc hk =>
    rw [hpc] at hp
    exact inv.goto hpc hp.1 trivial hnil rfl rfl
  | testMark key x hpc hm =>
    rw [hpc] at hp
    exact inv.goto hpc hp trivial hnil rfl rfl
  | testMarkFail key x hpc hm =>
    -- a deleted node is no answer: the search starts over with nothing known
    rw [hpc] at hp
    exact inv.goto hpc hp.1 trivial hnil rfl rfl
  | readVal key x hpc =>
    rw [hpc] at hp
    exact inv.goto hpc hp.1 trivial hnil rfl rfl
  | loadNext u x y hpc hy =>
    -- the updates walk in the same way and keep two neighbours
    rw [hpc] at hp
    exact inv.goto hpc ⟨hp.1, hp.2.1, hp.2.2, (inv.met_next hp.2.1 hy).1⟩ trivial hnil rfl rfl
  | readKey u pred x hpc hk =>
    rw [hpc] at hp
    exact inv.goto hpc ⟨hp.1, hp.2.2.2, hk⟩ trivial hnil rfl rfl
  | readKeyEnd u pred x hpc hk =>
    -- the place is found: the keys of the two nodes enclose the wanted one
    rw [hpc] at hp
    obtain ⟨hu, hm, hpk, hc⟩ := hp
    refine inv.goto hpc (knows_arrive hu hm hpk hc (not_lt.mp hk)) ?_ ?_ ?_ rfl
    · cases u <;> trivial
    · cases u <;> exact hnil
    · cases u <;> rfl
  | eraseKey key pred x hpc hk =>
    rw [hpc] at hp
    obtain ⟨hu, hm, hpk, hc, hck⟩ := hp
    refine inv.goto hpc ⟨hu, hm, hpk, hc, hck, ?_⟩ trivial hnil rfl rfl
    rintro key' hkey
    obtain rfl := Upd.erase.inj hkey
    exact hk
  | eraseKeyFail key pred x hpc hk =>
    rw [hpc] at hp
    exact inv.goto hpc hp.1 trivial hnil rfl rfl
  | spinPred u pred x hpc hl =>
    rw [hpc] at hp
    exact inv.goto hpc hp trivial hnil rfl rfl
  | lockPred u pred x hpc hl =>
    -- the lock of `pred` was free: nobody else holds it
    rw [hpc] at hp
    refine inv.stay hpc rfl rfl (inv.locks.take (t := t) hl (fun q hq => ?_) fun y hy => ?_)
      (knows_predLocked hp) ?_ ?_ rfl
    · exact congrArg Pc.held (State.goto_pc_of_ne hq)
    · rw [State.goto_pc_self] at hy
      left
      cases u <;> exact List.mem_singleton.mp hy
    · cases u <;> trivial
    · cases u <;> rfl
  | spinCurr key pred x hpc hl =>
    rw [hpc] at hp
    exact inv.goto hpc hp trivial hall rfl rfl
  | lockCurr key pred x hpc hl =>
    -- the second lock is added to the first
    rw [hpc] at hp
    refine inv.stay hpc rfl rfl (inv.locks.take (t := t) hl (fun q hq => ?_) fun y hy => ?_)
      hp trivial rfl rfl
    · exact congrArg Pc.held (State.goto_pc_of_ne hq)
    · rw [State.goto_pc_self] at hy
      rw [hpc]
      rcases List.mem_pair.mp hy with rfl | rfl
      · exact .inr List.mem_cons_self
      · exact .inl rfl
  | validPred u pred x hpc hm =>
    -- `pred` is validated: it cannot be deleted while its lock is held
    rw [hpc] at hp
    exact inv.goto hpc hp hm hall rfl rfl
  | validPredFail u pred x hpc hm =>
    rw [hpc] at hp
    exact inv.goto hpc hp trivial hall rfl rfl
  | validCurr u pred x hpc hm =>
    -- `curr` is validated too, which for an erase means that it is locked
    rw [hpc] at hp hg
    exact inv.goto hpc hp ⟨hg, fun _ => hm⟩ hall rfl rfl
  | validCurrFail u pred x hpc hm =>
    rw [hpc] at hp
    exact inv.goto hpc hp trivial hall rfl rfl
  | validNext u pred x hpc hn =>
    -- the two are still neighbours, so the window is guarded from here on
    rw [hpc] at hp hg
    refine inv.goto hpc (knows_validated hp) (guarded_validated ⟨hg.1, hn, hg.2 hn⟩) ?_ ?_ rfl
    · cases u <;> exact hall
    · cases u <;> rfl
  | validNextFail u pred x hpc hn =>
    rw [hpc] at hp
    exact inv.goto hpc hp trivial hall rfl rfl
  | failPred u pred x hpc hm =>
    -- the validation failed: the locks are released and the operation starts over
    rw [hpc] at hp
    exact inv.failed hpc hp rfl rfl
  | failPredNot u pred x hpc hm =>
    rw [hpc] at hp
    exact inv.goto hpc hp trivial hall rfl rfl
  | failCurr u pred x hpc hm =>
    rw [hpc] at hp
    exact inv.failed hpc hp rfl rfl
  | failCurrNot u pred x hpc hm =>
    rw [hpc] at hp
    exact inv.goto hpc hp trivial hall rfl rfl
  | failNext u pred x hpc =>
    rw [hpc] at hp
    exact inv.failed hpc hp rfl rfl
  | insertKey key val pred x hpc hk =>
    rw [hpc] at hp hg
    exact inv.goto hpc ⟨hp, hk⟩ hg hall rfl rfl
  | insertKeyFail key val pred x hpc hk =>
    rw [hpc] at hp hg
    have hw : Window cfg s.arena (.insert key val) pred x := hp
    exact inv.goto hpc ⟨hw, lt_of_le_of_ne hw.right_ge (Ne.symm hk)⟩ hg hall rfl rfl
  | insertVal key val pred x hpc =>
    rw [hpc] at hp
    exact inv.goto hpc ⟨hp.1.user, hp.1.left⟩ trivial hall rfl rfl
  | newNode key val pred x a hpc ha =>
    -- the new node is written to before it is reached by anybody
    rw [hpc] at hp hg
    obtain ⟨hw, hkx⟩ := hp
    have ch : Arena.Change (lists cfg) s.arena (s.allocating a key val x).arena
        (fun x => (s.pc t).newnode? = some x) (· = a) := change_allocating inv.shared.ok ha
    have st := inv.shared.change_stable knows_local ch
    have hm : (s.allocating a key val x).marked a = false := update_self ..
    have hoff : ∀ b, ¬ Reach s.heap.next ((lists cfg).head b) a := by
      intro b hb
      have h : s.allocated a = true := inv.shared.ok.reach_allocated hb
      rw [ha] at h
      cases h
    have hoff' : ∀ {y b}, Reach (s.allocating a key val x).heap.next ((lists cfg).head b) y ↔
        Reach s.heap.next ((lists cfg).head b) y :=
      Heap.write_reach_iff hoff fun y hy => update_of_ne hy ..
    -- `pred` is locked and therefore allocated, and the new node was not
    have hpa : pred ≠ a := by
      rintro rfl
      exact absurd (inv.held_allocated (t := t) (x := pred) (by rw [hpc]; exact
        List.mem_cons_self)) (by rw [ha]; exact Bool.false_ne_true)
    have hpriv : (s.allocating a key val x).arena.Private (lists cfg) a :=
      ⟨update_self .., hm, fun b hb => hoff b (hoff'.mp hb)⟩
    -- what the others know, hold and have validated stays as it is
    refine inv.next ch ?_ rfl ?_ ?_ (fun q _ => untouched_allocating inv ha) ?_ ?_ ?_
    · rintro y rfl
      exact hm
    · refine ⟨hw.user, hw.left.mono st, ?_, hpriv, update_self .., update_self .., x,
        update_self .., hw.right.mono st, ?_⟩
      · rw [hw.left.key_eq st]
        exact hw.left_lt
      · rw [hw.right.key_eq st]
        exact hkx
    · intro b hb
      obtain rfl := Option.some.inj hb
      exact .inr ha
    · refine ⟨(update_of_ne hpa ..).trans hg.left, ?_⟩
      have hself : update s.next a (some x) a = some x := update_self ..
      calc update s.next a (some x) pred = s.next pred := update_of_ne hpa ..
        _ = some x := hg.next
        _ = update s.next a (some x) a := hself.symm
    · refine (inv.locks.stay (t := t) (fun q hq => ?_) ?_).reset fun q hq => ?_
      · exact congrArg Pc.held (State.goto_pc_of_ne hq)
      · rw [State.goto_pc_self, hpc]
        exact hall
      · -- nobody has locked a node that was not allocated
        have hq : a ∈ (s.pc q).held := by
          by_cases hqt : q = t
          · subst hqt
            rw [State.goto_pc_self] at hq
            rw [hpc]
            exact hq
          · rw [State.goto_pc_of_ne hqt] at hq
            exact hq
        have h := inv.held_allocated hq
        rw [ha] at h
        cases h
    · -- a deleted node that is still in the list has its deleter, as before
      intro y hy hym
      have hys : Reach s.heap.next ((lists cfg).head ()) y := hoff'.mp hy
      have hya : y ≠ a := by
        rintro rfl
        exact hoff () hys
      refine .inr ⟨hys, (update_of_ne hya ..).symm.trans hym, ?_⟩
      rw [hpc]
      exact (Option.some_ne_none y).symm
  | link key val pred a hpc =>
    -- the node goes between the two that are locked
    have hp' := hp
    have hg' := hg
    rw [hpc] at hp' hg'
    have ch := change_link hpc hp' hg'
    obtain ⟨hu, hmp, hpk, ha, -, -, y, hn, -, -⟩ := hp'
    have hpa : a ≠ pred := by
      rintro rfl
      exact ha.not_anchored hmp
    have st := inv.shared.change_stable knows_local ch
    have hpred : pred ∈ (s.pc t).held := by
      rw [hpc]
      exact List.mem_cons_self
    refine inv.next ch ?_ rfl ⟨hu, hmp.mono st⟩ ?_
      (fun q hq => untouched_setNext inv hq hpred) trivial ?_ ?_
    · rintro z rfl
      exact ha.unmarked
    · intro b hb
      cases hb
    · refine inv.locks.stay (t := t) (fun q hq => ?_) ?_
      · exact congrArg Pc.held (State.goto_pc_of_ne hq)
      · rw [State.goto_pc_self, hpc]
        exact hall
    · -- the only node that comes into the list is not deleted
      intro z hz hzm
      have hreach := Arena.reach_of_anchored hmp hg'.1
      have hz : Reach s.heap.next cfg.head z ∨ (() = () ∧ z = a) :=
        (inv.shared.ok.wf.insert_reach_iff hreach (hg'.2.trans hn) hn ha.off).mp hz
      rcases hz with hz | ⟨-, rfl⟩
      · refine .inr ⟨hz, hzm, ?_⟩
        rw [hpc]
        exact (Option.some_ne_none z).symm
      · have hzm : s.marked z = true := hzm
        have h : s.marked z = false := ha.unmarked
        rw [h] at hzm
        cases hzm
  | eraseVal key pred x hpc =>
    rw [hpc] at hp hg
    exact inv.goto hpc ⟨hp, rfl⟩ hg hall rfl rfl
  | eraseNext key pred x result hpc =>
    rw [hpc] at hp hg
    exact inv.goto hpc hp ⟨hg, rfl⟩ hall rfl rfl
  | mark key pred x result nxt hpc =>
    -- the logical deletion: both neighbours are locked and validated
    have hlive := inv.live_mark hpc
    have ch : Arena.Change (lists cfg) s.arena (s.setMarked x).arena
        (fun x => (s.pc t).newnode? = some x) fun _ => False := change_mark hlive
    have st := inv.shared.change_stable knows_local ch
    have hg' := hg
    have hp' := hp
    rw [hpc] at hg' hp'
    have hne : pred ≠ x := hp'.1.ne
    refine inv.next ch ?_ rfl ⟨hp'.1.mono st, hp'.2, update_self .., hg'.2⟩ ?_
      (fun q hq => untouched_setMarked inv hq hpc) ⟨?_, hg'.1.next⟩ ?_ ?_
    · intro z hz
      exact hz.elim
    · intro b hb
      cases hb
    · exact (update_of_ne hne ..).trans hg'.1.left
    · refine inv.locks.stay (t := t) (fun q hq => ?_) ?_
      · exact congrArg Pc.held (State.goto_pc_of_ne hq)
      · rw [State.goto_pc_self, hpc]
        exact hall
    · -- the node deleted here has this thread as its deleter
      intro z hz hzm
      by_cases hzx : z = x
      · subst hzx
        exact .inl rfl
      · refine .inr ⟨hz, (update_of_ne hzx ..).symm.trans hzm, ?_⟩
        rw [hpc]
        exact (Option.some_ne_none z).symm
  | unlink key pred x result nxt hpc =>
    -- the physical deletion writes `pred`, which is locked
    obtain ⟨y, rfl, hy⟩ := inv.unlink_next hpc
    have hg' := hg
    have hp' := hp
    rw [hpc] at hg' hp'
    have ch : Arena.Change (lists cfg) s.arena (s.setNext pred (some y)).arena
        (fun x => (s.pc t).newnode? = some x) fun _ => False :=
      change_unlink hp'.1.left hg'.1 hg'.2 hp'.2.2.1 hy
    have st := inv.shared.change_stable knows_local ch
    have hpred : pred ∈ (s.pc t).held := by
      rw [hpc]
      exact List.mem_cons_self
    refine inv.next ch ?_ rfl ⟨hp'.1.mono st, hp'.2.2.1⟩ ?_
      (fun q hq => untouched_setNext inv hq hpred) trivial ?_ ?_
    · intro z hz
      exact hz.elim
    · intro b hb
      cases hb
    · refine inv.locks.stay (t := t) (fun q hq => ?_) ?_
      · exact congrArg Pc.held (State.goto_pc_of_ne hq)
      · rw [State.goto_pc_self, hpc]
        exact hall
    · -- the node has left the list, so nobody is its deleter any more
      intro z hz hzm
      have hreach := Arena.reach_of_anchored hp'.1.left hg'.1
      have hz : Reach s.heap.next ((lists cfg).head ()) z ∧ z ≠ x :=
        (inv.shared.ok.wf.unlink_one_reach_iff hreach hg'.2 hp'.2.2.1 hy).mp hz
      refine .inr ⟨hz.1, hzm, ?_⟩
      rw [hpc]
      intro h
      exact hz.2 (Option.some.inj h).symm
  | retire key pred x result hpc =>
    rw [hpc] at hp
    refine inv.stay hpc rfl rfl (inv.locks.stay (t := t) (fun q hq => ?_) ?_) hp.1 trivial rfl rfl
    · exact congrArg Pc.held (State.goto_pc_of_ne hq)
    · rw [State.goto_pc_self, hpc]
      exact hall
  | unlockCurr key pred x r hpc =>
    -- the locks are released in the reverse order
    rw [hpc] at hp
    have hw : Window cfg s.arena (.erase key : Upd K V) pred x := hp
    have hx : x ∈ (s.pc t).held := by
      rw [hpc]
      exact List.mem_cons_of_mem _ List.mem_cons_self
    refine inv.stay hpc rfl rfl (inv.locks.release (t := t) hx (fun q hq => ?_) fun y hy => ?_)
      ⟨hw.user, hw.left⟩ trivial rfl rfl
    · exact congrArg Pc.held (State.goto_pc_of_ne hq)
    · rw [State.goto_pc_self] at hy
      obtain rfl := List.mem_singleton.mp hy
      rw [hpc]
      exact ⟨List.mem_cons_self, hw.ne⟩
  | unlockPred u pred r hpc =>
    rw [hpc] at hp
    have hx : pred ∈ (s.pc t).held := by
      rw [hpc]
      exact List.mem_cons_self
    refine inv.stay hpc rfl rfl (inv.locks.release (t := t) hx (fun q hq => ?_) fun y hy => ?_)
      ?_ trivial rfl rfl
    · exact congrArg Pc.held (State.goto_pc_of_ne hq)
    · rw [State.goto_pc_self] at hy
      cases hy
    · cases u <;> exact hp.1
  | endOp op r hpc =>
    -- an operation without a result starts over, the others return
    rw [hpc] at hp
    cases r with
    | none => exact inv.goto hpc hp trivial hnil rfl rfl
    | some r => exact inv.goto hpc trivial trivial hnil rfl rfl
  | ret op r hpc => exact inv.goto hpc trivial trivial hnil rfl rfl

/-- **The invariant holds in every run.** -/
theorem Inv.of_reachable (h : (lts (ι := ι) cfg).Reachable s) : Inv cfg s :=
  h.invariant (P := Inv cfg) (fun _ hi => Inv.init hi) fun _ _ _ _ hi _ hs => Inv.step hi hs

end

end

end LazyList
end PopSetbench

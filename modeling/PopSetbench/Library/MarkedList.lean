import Mathlib.Logic.Relation
import Mathlib.Logic.Function.Basic
import Mathlib.Order.Basic
import Mathlib.Data.Set.Insert
import Mathlib.Data.List.Chain

/-!
# Sorted lists of nodes that are marked before they are unlinked

A family of singly linked lists with sentinels shares one heap of nodes. A node is deleted in
two moves: it is marked, and later a segment of marked nodes is cut out of the list. Lock-free
and lazy lists differ in how they guard the moves; the moves themselves are these:

* `WF.write` — a node that is in no list changes in any way;
* `WF.insert` — a new node enters between two neighbours, the first of them unmarked;
* `WF.mark` — a node of a list is marked;
* `WF.unlink` — the link of an unmarked node jumps over a segment of marked ones.

Each keeps the lists well-formed (`Heap.WF`), and each does to the facts that a thread may hold
on to while others take steps nothing worse than `Heap.Evolves` says: a node seen in a list is
still there or marked, a marked node keeps its successor, a node that is marked and gone stays
gone.
-/

/-- The nodes of linked lists. -/
structure Heap (α K : Type*) where
  /-- The successor of a node. -/
  next : α → Option α
  /-- The node is deleted, logically. -/
  marked : α → Bool
  /-- The key of a node. -/
  key : α → K

/-- Where the lists of a family begin and end, and which keys each may hold. -/
structure ListFamily (β α K : Type*) where
  /-- The sentinel a list begins with. -/
  head : β → α
  /-- The sentinel a list ends with. -/
  tail : β → α
  /-- The keys that belong into a list. -/
  dom : β → K → Prop

namespace Heap

open Function Relation

variable {β α K : Type*}

/-! ### Following links -/

/-- Following links leads from one node to the other. -/
def Reach (next : α → Option α) : α → α → Prop :=
  ReflTransGen fun x y => next x = some y

namespace Reach

variable {next next' : α → Option α} {x y z h p : α}

theorem refl : Reach next x x :=
  ReflTransGen.refl

theorem step (hxy : Reach next x y) (hyz : next y = some z) : Reach next x z :=
  ReflTransGen.tail hxy hyz

theorem trans (hxy : Reach next x y) (hyz : Reach next y z) : Reach next x z :=
  ReflTransGen.trans hxy hyz

/-- Of two nodes reached from the same one, one reaches the other. -/
theorem total (hy : Reach next x y) (hz : Reach next x z) : Reach next y z ∨ Reach next z y := by
  apply ReflTransGen.total_of_right_unique (r := fun x y => next x = some y) _ hy hz
  intro a b c hb hc
  exact Option.some.inj (hb.symm.trans hc)

/-- A node that reaches another one is that node or has a successor that reaches it. -/
theorem eq_or_next (hxy : Reach next x y) : x = y ∨ ∃ z, next x = some z ∧ Reach next z y :=
  ReflTransGen.cases_head hxy

/-- Where the successors agree on everything reached, the same nodes are reached. -/
theorem congr (hxy : Reach next x y) (heq : ∀ z, Reach next x z → next' z = next z) :
    Reach next' x y := by
  induction hxy with
  | refl => exact .refl
  | tail hxz hzy ih => exact ih.step ((heq _ hxz).trans hzy)

variable [DecidableEq α]

/-- A write to a node that is not reached changes nothing. -/
theorem update_iff {v : Option α} (hp : ¬ Reach next h p) :
    Reach (update next p v) h x ↔ Reach next h x := by
  have hsame : ∀ z, Reach next h z → update next p v z = next z := by
    intro z hz
    apply update_of_ne
    rintro rfl
    exact hp hz
  constructor
  · intro hx
    -- by induction, so that the path stays among the nodes reached before
    induction hx with
    | refl => exact .refl
    | tail _ hzy ih => exact ih.step ((hsame _ ih).symm.trans hzy)
  · intro hx
    exact hx.congr hsame

end Reach

/-- A path through marked nodes only; its end need not be marked. -/
def Segment (H : Heap α K) : α → α → Prop :=
  ReflTransGen fun x y => H.marked x = true ∧ H.next x = some y

theorem Segment.reach {H : Heap α K} {x y : α} (h : H.Segment x y) : Reach H.next x y :=
  ReflTransGen.mono (fun _ _ hxy => hxy.2) _ _ h

theorem Segment.single {H : Heap α K} {x y : α} (hm : H.marked x = true)
    (hn : H.next x = some y) : H.Segment x y :=
  ReflTransGen.single ⟨hm, hn⟩

/-- The nodes of a segment in order, but for its end. -/
def Span (H : Heap α K) : α → α → List α → Prop
  | x, r, [] => x = r
  | x, r, y :: l => x = y ∧ H.marked x = true ∧ ∃ z, H.next x = some z ∧ Span H z r l

theorem Span.segment {H : Heap α K} {r : α} :
    ∀ {l : List α} {x : α}, H.Span x r l → H.Segment x r := by
  intro l
  induction l with
  | nil =>
    rintro x rfl
    exact .refl
  | cons y l ih =>
    rintro x ⟨rfl, hm, z, hz, hl⟩
    exact ReflTransGen.head ⟨hm, hz⟩ (ih hl)

theorem Segment.exists_span {H : Heap α K} {x r : α} (h : H.Segment x r) :
    ∃ l, H.Span x r l := by
  induction h using ReflTransGen.head_induction_on with
  | refl => exact ⟨[], rfl⟩
  | head hxy _ ih =>
    obtain ⟨l, hl⟩ := ih
    exact ⟨_ :: l, rfl, hxy.1, _, hxy.2, hl⟩

theorem Span.marked {H : Heap α K} {r : α} :
    ∀ {l : List α} {x : α}, H.Span x r l → ∀ y ∈ l, H.marked y = true ∧ Reach H.next x y := by
  intro l
  induction l with
  | nil =>
    intro x _ y hy
    cases hy
  | cons z l ih =>
    rintro x ⟨rfl, hm, z, hz, hl⟩ y hy
    rcases List.mem_cons.mp hy with rfl | hy
    · exact ⟨hm, .refl⟩
    · obtain ⟨hym, hzy⟩ := ih hl y hy
      exact ⟨hym, (Reach.refl.step hz).trans hzy⟩

/-- Where marked nodes stay as they are, the nodes of a segment are the same. -/
theorem Span.mono {H H' : Heap α K} {r : α}
    (hfrozen : ∀ x, H.marked x = true → H'.marked x = true ∧ H'.next x = H.next x) :
    ∀ {l : List α} {x : α}, H.Span x r l → H'.Span x r l := by
  intro l
  induction l with
  | nil => exact id
  | cons y l ih =>
    rintro x ⟨rfl, hm, z, hz, hl⟩
    obtain ⟨hm', hn'⟩ := hfrozen x hm
    exact ⟨rfl, hm', z, hn'.trans hz, ih hl⟩

/-! ### Facts that survive the steps of others -/

section Lists

variable {L : ListFamily β α K} {H H' : Heap α K} {b b' : β} {x y p r a h : α}

variable (L H) in
/-- The node is in the list, or has been in it and is marked. -/
def Anchored (b : β) (x : α) : Prop :=
  H.marked x = true ∨ Reach H.next (L.head b) x

variable (L H) in
/-- The node is in the list, unmarked, and no sentinel. -/
def Live (b : β) (x : α) : Prop :=
  Reach H.next (L.head b) x ∧ H.marked x = false ∧ x ≠ L.head b ∧ x ≠ L.tail b

variable (L H) in
/-- The keys of the live nodes. -/
def keys : Set K :=
  {k | ∃ b x, H.Live L b x ∧ H.key x = k}

variable (H H') in
/-- What a step does at most to the facts about nodes other than those in `own`. -/
structure Evolves (L : ListFamily β α K) (own : α → Prop) : Prop where
  /-- A node seen in a list is still there or marked. -/
  anchored : ∀ {b x}, ¬ own x → H.Anchored L b x → H'.Anchored L b x
  /-- A marked node stays marked and keeps its successor. -/
  frozen : ∀ {x}, ¬ own x → H.marked x = true → H'.marked x = true ∧ H'.next x = H.next x
  /-- Keys do not change. -/
  key : ∀ {x}, ¬ own x → H'.key x = H.key x
  /-- A node that is marked and in no list stays out of all lists. -/
  gone : ∀ {x}, ¬ own x → H.marked x = true → (∀ b, ¬ Reach H.next (L.head b) x) →
    ∀ b, ¬ Reach H'.next (L.head b) x

theorem Evolves.refl (L : ListFamily β α K) (own : α → Prop) : H.Evolves H L own :=
  ⟨fun _ h => h, fun _ h => ⟨h, rfl⟩, fun _ => rfl, fun _ _ h => h⟩

/-! ### The moves, link by link -/

/-- The heap with a node marked. -/
def setMarked [DecidableEq α] (H : Heap α K) (x : α) : Heap α K :=
  { H with marked := update H.marked x true }

/-- The heap with the successor of a node set. -/
def setNext [DecidableEq α] (H : Heap α K) (p y : α) : Heap α K :=
  { H with next := update H.next p (some y) }

section Moves

variable [DecidableEq α]

@[simp] theorem setNext_next_self : (H.setNext p y).next p = some y :=
  update_self ..

theorem setNext_next_of_ne (h : x ≠ p) : (H.setNext p y).next x = H.next x :=
  update_of_ne h ..

@[simp] theorem setMarked_marked_self : (H.setMarked x).marked x = true :=
  update_self ..

theorem setMarked_marked_of_ne (h : y ≠ x) : (H.setMarked x).marked y = H.marked y :=
  update_of_ne h ..

end Moves

/-- A node that is in no list may change in any way. -/
theorem write_reach_iff (hoff : ∀ b, ¬ Reach H.next (L.head b) a)
    (hsame : ∀ x, x ≠ a → H'.next x = H.next x) {x : α} :
    Reach H'.next (L.head b) x ↔ Reach H.next (L.head b) x := by
  have hne : ∀ z, Reach H.next (L.head b) z → H'.next z = H.next z := by
    intro z hz
    apply hsame
    rintro rfl
    exact hoff b hz
  constructor
  · intro hx
    induction hx with
    | refl => exact .refl
    | tail _ hzy ih => exact ih.step ((hne _ ih).symm.trans hzy)
  · intro hx
    exact hx.congr hne

theorem write_evolves (hoff : ∀ b, ¬ Reach H.next (L.head b) a)
    (hnext : ∀ x, x ≠ a → H'.next x = H.next x)
    (hmarked : ∀ x, x ≠ a → H'.marked x = H.marked x)
    (hkey : ∀ x, x ≠ a → H'.key x = H.key x) : H.Evolves H' L (· = a) where
  anchored hx h := by
    rcases h with h | h
    · exact .inl ((hmarked _ hx).trans h)
    · exact .inr ((write_reach_iff hoff hnext).mpr h)
  frozen hx hm := ⟨(hmarked _ hx).trans hm, hnext _ hx⟩
  key hx := hkey _ hx
  gone _ _ h b hb := h b ((write_reach_iff hoff hnext).mp hb)

theorem write_live_iff (hoff : ∀ b, ¬ Reach H.next (L.head b) a)
    (hnext : ∀ x, x ≠ a → H'.next x = H.next x)
    (hmarked : ∀ x, x ≠ a → H'.marked x = H.marked x) :
    H'.Live L b x ↔ H.Live L b x := by
  unfold Live
  rw [write_reach_iff hoff hnext]
  refine and_congr_right fun hx => ?_
  have hxa : x ≠ a := by
    rintro rfl
    exact hoff b hx
  rw [hmarked x hxa]

section Moves

variable [DecidableEq α]

theorem mark_evolves (own : α → Prop) : H.Evolves (H.setMarked x) L own := by
  have hmono : ∀ z, H.marked z = true → (H.setMarked x).marked z = true := by
    intro z hz
    by_cases hzx : z = x
    · subst hzx
      exact update_self ..
    · exact (update_of_ne hzx ..).trans hz
  exact ⟨fun _ h => h.imp (hmono _) id, fun _ hm => ⟨hmono _ hm, rfl⟩, fun _ => rfl,
    fun _ _ h => h⟩

/-- Marking takes exactly the marked node out of the live ones. -/
theorem mark_live_iff : (H.setMarked x).Live L b y ↔ H.Live L b y ∧ y ≠ x := by
  unfold Live setMarked
  by_cases hyx : y = x
  · subst hyx
    simp
  · simp [hyx]

/-- The new node reaches what the first neighbour reached. -/
theorem reach_setNext_of_insert (hn : H.next p = some x) (ha : H.next a = some x)
    (hpa : p ≠ a) (hy : Reach H.next h y) : Reach (H.setNext p a).next h y := by
  induction hy with
  | refl => exact .refl
  | @tail z y _ hzy ih =>
    by_cases hzp : z = p
    · subst hzp
      obtain rfl := Option.some.inj (hn.symm.trans hzy)
      -- the old link is replaced by two links through the new node
      exact (ih.step setNext_next_self).step ((update_of_ne hpa.symm ..).trans ha)
    · exact ih.step ((update_of_ne hzp ..).trans hzy)

/-- Only the new node is reached in addition. -/
theorem reach_of_setNext_insert (hn : H.next p = some x) (ha : H.next a = some x)
    (hy : Reach (H.setNext p a).next h y) : Reach H.next h y ∨ (y = a ∧ Reach H.next h p) := by
  induction hy with
  | refl => exact .inl .refl
  | @tail z y _ hzy ih =>
    by_cases hzp : z = p
    · subst hzp
      obtain rfl := Option.some.inj (setNext_next_self.symm.trans hzy)
      rcases ih with hz | ⟨-, hz⟩ <;> exact .inr ⟨rfl, hz⟩
    · have hzy' : H.next z = some y := (update_of_ne hzp ..).symm.trans hzy
      rcases ih with hz | ⟨rfl, hp⟩
      · exact .inl (hz.step hzy')
      · obtain rfl := Option.some.inj (ha.symm.trans hzy')
        exact .inl (hp.step hn)

/-- Where a node reached before the jump over `x … r` is afterwards: still reached, or in the
segment that was cut out. -/
theorem reach_setNext_of_unlink (hn : H.next p = some x) (hs : H.Segment x r)
    (hy : Reach H.next h y) :
    Reach (H.setNext p r).next h y ∨
      (Reach (H.setNext p r).next h p ∧ Reach H.next x y ∧ H.marked y = true ∧
        ∃ z, H.next y = some z ∧ H.Segment z r) := by
  -- a node that a segment begins with is its end, or is cut out
  have hcut : ∀ {z}, Reach (H.setNext p r).next h p → Reach H.next x z → H.Segment z r →
      Reach (H.setNext p r).next h z ∨
        (Reach (H.setNext p r).next h p ∧ Reach H.next x z ∧ H.marked z = true ∧
          ∃ z', H.next z = some z' ∧ H.Segment z' r) := by
    intro z hp hxz hz
    rcases ReflTransGen.cases_head hz with rfl | ⟨z', ⟨hzm, hzn⟩, hz'⟩
    · exact .inl (hp.step setNext_next_self)
    · exact .inr ⟨hp, hxz, hzm, z', hzn, hz'⟩
  induction hy with
  | refl => exact .inl .refl
  | @tail z y _ hzy ih =>
    rcases ih with hz | ⟨hp, hxz, -, z', hz', hseg⟩
    · by_cases hzp : z = p
      · subst hzp
        obtain rfl := Option.some.inj (hn.symm.trans hzy)
        exact hcut hz .refl hs
      · exact .inl (hz.step ((update_of_ne hzp ..).trans hzy))
    · obtain rfl := Option.some.inj (hzy.symm.trans hz')
      exact hcut hp (hxz.step hzy) hseg

/-- The jump reaches no new nodes. -/
theorem reach_of_setNext_unlink (hn : H.next p = some x) (hs : H.Segment x r)
    (hy : Reach (H.setNext p r).next h y) : Reach H.next h y := by
  induction hy with
  | refl => exact .refl
  | @tail z y _ hzy ih =>
    by_cases hzp : z = p
    · subst hzp
      obtain rfl := Option.some.inj (setNext_next_self.symm.trans hzy)
      exact (ih.step hn).trans hs.reach
    · exact ih.step ((update_of_ne hzp ..).symm.trans hzy)

/-- An unmarked node stays where it is. -/
theorem reach_setNext_of_unmarked (hn : H.next p = some x) (hs : H.Segment x r)
    (hm : H.marked y = false) (hy : Reach H.next h y) : Reach (H.setNext p r).next h y := by
  rcases reach_setNext_of_unlink hn hs hy with h | ⟨-, -, hm', -⟩
  · exact h
  · rw [hm] at hm'
    cases hm'

theorem unlink_evolves (own : α → Prop) (hpm : H.marked p = false)
    (hn : H.next p = some x) (hs : H.Segment x r) : H.Evolves (H.setNext p r) L own where
  anchored {b' y} _ h := by
    by_cases hm : H.marked y = true
    · exact .inl hm
    · have hy := h.resolve_left hm
      exact .inr (reach_setNext_of_unmarked hn hs (Bool.eq_false_iff.mpr hm) hy)
  frozen _ hm := by
    refine ⟨hm, update_of_ne ?_ ..⟩
    rintro rfl
    rw [hpm] at hm
    cases hm
  key _ := rfl
  gone _ _ h b' hb := h b' (reach_of_setNext_unlink hn hs hb)

/-- Unlinking leaves the live nodes as they are. -/
theorem unlink_live_iff (hn : H.next p = some x) (hs : H.Segment x r) :
    (H.setNext p r).Live L b' y ↔ H.Live L b' y := by
  constructor
  · rintro ⟨hy, hm, hne⟩
    exact ⟨reach_of_setNext_unlink hn hs hy, hm, hne⟩
  · rintro ⟨hy, hm, hne⟩
    exact ⟨reach_setNext_of_unmarked hn hs hm hy, hm, hne⟩

end Moves

/-! ### Well-formed lists -/

variable [LinearOrder K]

variable (L H) in
/-- Every list is sorted strictly by key, from its head to its tail; no two share a node. -/
structure WF : Prop where
  /-- Every node of a list but the last has a successor, with a greater key. -/
  sorted : ∀ {b x}, Reach H.next (L.head b) x → x ≠ L.tail b →
    ∃ y, H.next x = some y ∧ H.key x < H.key y
  /-- The tail is in the list. -/
  reach_tail : ∀ b, Reach H.next (L.head b) (L.tail b)
  /-- Nothing follows the tail. -/
  next_tail : ∀ b, H.next (L.tail b) = none
  /-- A node is in one list only. -/
  disjoint : ∀ {b b' x}, Reach H.next (L.head b) x → Reach H.next (L.head b') x → b = b'
  /-- The keys of a list belong into it. -/
  dom : ∀ {b x}, Reach H.next (L.head b) x → x ≠ L.head b → x ≠ L.tail b → L.dom b (H.key x)
  /-- The head is never marked. -/
  marked_head : ∀ b, H.marked (L.head b) = false
  /-- The tail is never marked. -/
  marked_tail : ∀ b, H.marked (L.tail b) = false

/-- The nodes of a list, in order. -/
structure Nodes (H : Heap α K) (h t : α) (l : List α) : Prop where
  /-- They follow each other. -/
  chain : l.IsChain fun x y => H.next x = some y
  /-- The first one. -/
  first : l.head? = some h
  /-- The last one. -/
  last : l.getLast? = some t
  /-- They are all the nodes that are reached. -/
  mem_iff : ∀ x, x ∈ l ↔ Reach H.next h x
  /-- Their keys increase strictly. -/
  sorted : l.Pairwise fun x y => H.key x < H.key y

namespace WF

/-- Keys grow along links. -/
theorem lt_of_reach (w : H.WF L) (hx : Reach H.next (L.head b) x) (hxy : Reach H.next x y) :
    x = y ∨ H.key x < H.key y := by
  induction hxy with
  | refl => exact .inl rfl
  | @tail z y hxz hzy ih =>
    have hz := hx.trans hxz
    have hne : z ≠ L.tail b := by
      rintro rfl
      rw [w.next_tail] at hzy
      cases hzy
    obtain ⟨y', hy', hlt⟩ := w.sorted hz hne
    obtain rfl := Option.some.inj (hzy.symm.trans hy')
    rcases ih with rfl | hlt'
    · exact .inr hlt
    · exact .inr (hlt'.trans hlt)

theorem le_of_reach (w : H.WF L) (hx : Reach H.next (L.head b) x) (hxy : Reach H.next x y) :
    H.key x ≤ H.key y := by
  rcases w.lt_of_reach hx hxy with rfl | hlt
  · exact le_refl _
  · exact hlt.le

/-- **A list holds every key once.** -/
theorem eq_of_key_eq (w : H.WF L) (hx : Reach H.next (L.head b) x)
    (hy : Reach H.next (L.head b) y) (hk : H.key x = H.key y) : x = y := by
  rcases hx.total hy with h | h
  · exact (w.lt_of_reach hx h).resolve_right (not_lt.mpr hk.ge)
  · exact ((w.lt_of_reach hy h).resolve_right (not_lt.mpr hk.le)).symm

theorem ne_tail_of_next (w : H.WF L) (hn : H.next x = some y) : x ≠ L.tail b := by
  rintro rfl
  rw [w.next_tail] at hn
  cases hn

/-- The keys of neighbours. -/
theorem key_lt_next (w : H.WF L) (hp : Reach H.next (L.head b) p) (hn : H.next p = some x) :
    H.key p < H.key x := by
  obtain ⟨y, hy, hlt⟩ := w.sorted hp (w.ne_tail_of_next hn)
  obtain rfl := Option.some.inj (hn.symm.trans hy)
  exact hlt

/-- The end of the segment comes after its start. -/
theorem key_lt_of_segment (w : H.WF L) (hp : Reach H.next (L.head b) p)
    (hn : H.next p = some x) (hs : H.Segment x r) : H.key p < H.key r :=
  (w.key_lt_next hp hn).trans_le (w.le_of_reach (hp.step hn) hs.reach)

/-- Nothing lies between neighbours. -/
theorem le_of_next (w : H.WF L) (hp : Reach H.next (L.head b) p) (hn : H.next p = some x)
    (hy : Reach H.next (L.head b) y) (hlt : H.key p < H.key y) : H.key x ≤ H.key y := by
  rcases hp.total hy with h | h
  · rcases h.eq_or_next with rfl | ⟨z, hz, hzy⟩
    · exact absurd hlt (lt_irrefl _)
    · obtain rfl := Option.some.inj (hn.symm.trans hz)
      exact w.le_of_reach (hp.step hn) hzy
  · exact absurd (w.le_of_reach hy h) (not_le.mpr hlt)

/-- A node of a list has one predecessor in the list. -/
theorem eq_of_next_eq {q : α} (w : H.WF L) (hp : Reach H.next (L.head b) p)
    (hq : Reach H.next (L.head b) q) (hpx : H.next p = some x) (hqx : H.next q = some x) :
    p = q := by
  -- the later one of the two would come after its own successor
  have hone : ∀ {p q}, Reach H.next (L.head b) p → H.next p = some x → H.next q = some x →
      Reach H.next p q → p = q := by
    intro p q hp hpx hqx hpq
    rcases hpq.eq_or_next with h | ⟨z, hz, hzq⟩
    · exact h
    · obtain rfl := Option.some.inj (hpx.symm.trans hz)
      have hx := hp.step hpx
      have hlt := w.key_lt_next (hx.trans hzq) hqx
      exact absurd hlt (not_lt.mpr (w.le_of_reach hx hzq))
  rcases hp.total hq with h | h
  · exact hone hp hpx hqx h
  · exact (hone hq hqx hpx h).symm

/-- A node in a list that is no tail has a successor in the list. -/
theorem reach_next (w : H.WF L) (hx : Reach H.next (L.head b) x) (hne : x ≠ L.tail b) :
    ∃ y, H.next x = some y ∧ Reach H.next (L.head b) y := by
  obtain ⟨y, hy, -⟩ := w.sorted hx hne
  exact ⟨y, hy, hx.step hy⟩

theorem exists_nodes_from (w : H.WF L) (hx : Reach H.next (L.head b) x) :
    Reach H.next x (L.tail b) → ∃ l, H.Nodes x (L.tail b) l := by
  intro hxt
  -- from the tail backwards, so that a node is put in front of the ones after it
  induction hxt using ReflTransGen.head_induction_on with
  | refl =>
    refine ⟨[L.tail b], List.isChain_singleton _, rfl, rfl, fun y => ?_, List.pairwise_singleton ..⟩
    rw [List.mem_singleton]
    constructor
    · rintro rfl
      exact .refl
    · intro hy
      rcases hy.eq_or_next with rfl | ⟨z, hz, -⟩
      · rfl
      · rw [w.next_tail] at hz
        cases hz
  | @head x y hxy hyt ih =>
    have hy := hx.step hxy
    obtain ⟨l, hl⟩ := ih hy
    refine ⟨x :: l, ?_, rfl, ?_, fun z => ?_, ?_⟩
    · refine hl.chain.cons fun z hz => ?_
      rw [hl.first] at hz
      obtain rfl := Option.some.inj hz
      exact hxy
    · rw [List.getLast?_cons, hl.last]
      rfl
    · rw [List.mem_cons, hl.mem_iff]
      constructor
      · rintro (rfl | hz)
        · exact .refl
        · exact (Reach.refl.step hxy).trans hz
      · intro hz
        rcases hz.eq_or_next with rfl | ⟨y', hy', hz⟩
        · exact .inl rfl
        · obtain rfl := Option.some.inj (hxy.symm.trans hy')
          exact .inr hz
    · refine List.pairwise_cons.mpr ⟨fun z hz => ?_, hl.sorted⟩
      exact (w.key_lt_next hx hxy).trans_le (w.le_of_reach hy ((hl.mem_iff z).mp hz))

/-- **The nodes of a list are sorted strictly, with the sentinels at both ends.** -/
theorem exists_nodes (w : H.WF L) (b : β) : ∃ l, H.Nodes (L.head b) (L.tail b) l :=
  w.exists_nodes_from .refl (w.reach_tail b)

/-- A key strictly between those of neighbours is in no live node of the list. -/
theorem not_live_between (w : H.WF L) {k : K} (hp : Reach H.next (L.head b) p)
    (hn : H.next p = some x) (hpk : H.key p < k) (hkx : k < H.key x) (hy : H.Live L b y) :
    H.key y ≠ k := by
  rintro rfl
  exact absurd (w.le_of_next hp hn hy.1 hpk) (not_le.mpr hkx)

/-- A key strictly between those of neighbours is absent. -/
theorem not_mem_keys [Subsingleton β] (w : H.WF L) {k : K} (hp : Reach H.next (L.head b) p)
    (hn : H.next p = some x) (hpk : H.key p < k) (hkx : k < H.key x) : k ∉ H.keys L := by
  rintro ⟨b', y, hy, hk⟩
  obtain rfl := Subsingleton.elim b' b
  exact w.not_live_between hp hn hpk hkx hy hk

/-- The nodes of a segment of the list are those with keys from its first one's to before its
end's. -/
theorem mem_span_iff (w : H.WF L) {r : α} : ∀ {l : List α} {x : α}, Reach H.next (L.head b) x →
    H.Span x r l → ∀ {y}, Reach H.next (L.head b) y →
      (y ∈ l ↔ H.key x ≤ H.key y ∧ H.key y < H.key r) := by
  intro l
  induction l with
  | nil =>
    rintro x hx rfl y hy
    refine iff_of_false List.not_mem_nil ?_
    rintro ⟨hxy, hyx⟩
    exact absurd hyx (not_lt.mpr hxy)
  | cons u l ih =>
    rintro x hx ⟨rfl, -, z, hz, hl⟩ y hy
    have hzr : H.key z ≤ H.key r := w.le_of_reach (hx.step hz) hl.segment.reach
    rw [List.mem_cons, ih (hx.step hz) hl hy]
    constructor
    · rintro (rfl | ⟨hzy, hyr⟩)
      · exact ⟨le_refl _, (w.key_lt_next hx hz).trans_le hzr⟩
      · exact ⟨((w.key_lt_next hx hz).trans_le hzy).le, hyr⟩
    · rintro ⟨hxy, hyr⟩
      rcases hxy.eq_or_lt with hxy | hxy
      · exact .inl (w.eq_of_key_eq hx hy hxy).symm
      · exact .inr ⟨w.le_of_next hx hz hy hxy, hyr⟩

theorem span_nodup (w : H.WF L) {r : α} : ∀ {l : List α} {x : α}, Reach H.next (L.head b) x →
    H.Span x r l → l.Nodup := by
  intro l
  induction l with
  | nil =>
    intro x _ _
    exact List.nodup_nil
  | cons u l ih =>
    rintro x hx ⟨rfl, -, z, hz, hl⟩
    refine List.nodup_cons.mpr ⟨fun hxl => ?_, ih (hx.step hz) hl⟩
    have h := ((w.mem_span_iff (hx.step hz) hl hx).mp hxl).1
    exact absurd (w.key_lt_next hx hz) (not_lt.mpr h)

/-! ### A write to a node of no list -/

theorem write (w : H.WF L) (hoff : ∀ b, ¬ Reach H.next (L.head b) a)
    (hnext : ∀ x, x ≠ a → H'.next x = H.next x)
    (hmarked : ∀ x, x ≠ a → H'.marked x = H.marked x)
    (hkey : ∀ x, x ≠ a → H'.key x = H.key x) : H'.WF L := by
  have hne : ∀ {b z}, Reach H.next (L.head b) z → z ≠ a := by
    rintro b z hz rfl
    exact hoff b hz
  have hiff : ∀ {b x}, Reach H'.next (L.head b) x ↔ Reach H.next (L.head b) x :=
    write_reach_iff hoff hnext
  have hhead : ∀ b, L.head b ≠ a := fun b => hne .refl
  have htail : ∀ b, L.tail b ≠ a := fun b => hne (w.reach_tail b)
  refine ⟨?_, ?_, ?_, ?_, ?_, ?_, ?_⟩
  · intro b x hx hxt
    rw [hiff] at hx
    obtain ⟨y, hy, hlt⟩ := w.sorted hx hxt
    refine ⟨y, (hnext _ (hne hx)).trans hy, ?_⟩
    rwa [hkey _ (hne hx), hkey _ (hne (hx.step hy))]
  · intro b
    exact hiff.mpr (w.reach_tail b)
  · intro b
    rw [hnext _ (htail b)]
    exact w.next_tail b
  · intro b b' x hx hx'
    exact w.disjoint (hiff.mp hx) (hiff.mp hx')
  · intro b x hx hxh hxt
    rw [hkey _ (hne (hiff.mp hx))]
    exact w.dom (hiff.mp hx) hxh hxt
  · intro b
    rw [hmarked _ (hhead b)]
    exact w.marked_head b
  · intro b
    rw [hmarked _ (htail b)]
    exact w.marked_tail b

/-! ### Marking -/

variable [DecidableEq α]

theorem mark (w : H.WF L) (hh : ∀ b, x ≠ L.head b) (ht : ∀ b, x ≠ L.tail b) :
    (H.setMarked x).WF L where
  sorted := w.sorted
  reach_tail := w.reach_tail
  next_tail := w.next_tail
  disjoint := w.disjoint
  dom := w.dom
  marked_head b := (update_of_ne (hh b).symm ..).trans (w.marked_head b)
  marked_tail b := (update_of_ne (ht b).symm ..).trans (w.marked_tail b)

/-! ### Insertion -/

/-- The nodes of a list after an insertion. -/
theorem insert_reach_iff (w : H.WF L) (hp : Reach H.next (L.head b) p)
    (hn : H.next p = some x) (ha : H.next a = some x)
    (hoff : ∀ b, ¬ Reach H.next (L.head b) a) :
    Reach (H.setNext p a).next (L.head b') y ↔
      Reach H.next (L.head b') y ∨ (b' = b ∧ y = a) := by
  have hpa : p ≠ a := by
    rintro rfl
    exact hoff b hp
  constructor
  · intro hy
    rcases reach_of_setNext_insert hn ha hy with hy | ⟨rfl, hp'⟩
    · exact .inl hy
    · exact .inr ⟨w.disjoint hp' hp, rfl⟩
  · rintro (hy | ⟨rfl, rfl⟩)
    · exact reach_setNext_of_insert hn ha hpa hy
    · exact (reach_setNext_of_insert hn ha hpa hp).step setNext_next_self

/-- **Insertion keeps the lists well-formed.** -/
theorem insert (w : H.WF L) (hp : Reach H.next (L.head b) p) (hn : H.next p = some x)
    (ha : H.next a = some x) (hoff : ∀ b, ¬ Reach H.next (L.head b) a)
    (hpa : H.key p < H.key a) (hax : H.key a < H.key x) (hdom : L.dom b (H.key a)) :
    (H.setNext p a).WF L := by
  have hiff : ∀ {b' y}, Reach (H.setNext p a).next (L.head b') y ↔
      Reach H.next (L.head b') y ∨ (b' = b ∧ y = a) := w.insert_reach_iff hp hn ha hoff
  have hap : a ≠ p := by
    rintro rfl
    exact hoff b hp
  refine ⟨?_, ?_, ?_, ?_, ?_, w.marked_head, w.marked_tail⟩
  · intro b' y hy hyt
    by_cases hyp : y = p
    · subst hyp
      exact ⟨a, update_self .., hpa⟩
    · have hnext : (H.setNext p a).next y = H.next y := update_of_ne hyp ..
      rcases hiff.mp hy with hy | ⟨-, rfl⟩
      · obtain ⟨z, hz, hlt⟩ := w.sorted hy hyt
        exact ⟨z, hnext.trans hz, hlt⟩
      · exact ⟨x, hnext.trans ha, hax⟩
  · intro b'
    exact hiff.mpr (.inl (w.reach_tail b'))
  · intro b'
    have htp : L.tail b' ≠ p := (w.ne_tail_of_next hn).symm
    exact (update_of_ne htp ..).trans (w.next_tail b')
  · intro b₁ b₂ y h₁ h₂
    rcases hiff.mp h₁ with r₁ | ⟨hb₁, hy₁⟩ <;> rcases hiff.mp h₂ with r₂ | ⟨hb₂, hy₂⟩
    · exact w.disjoint r₁ r₂
    · exact absurd (hy₂ ▸ r₁) (hoff b₁)
    · exact absurd (hy₁ ▸ r₂) (hoff b₂)
    · exact hb₁.trans hb₂.symm
  · intro b' y hy hyh hyt
    rcases hiff.mp hy with hy | ⟨rfl, rfl⟩
    · exact w.dom hy hyh hyt
    · exact hdom

theorem insert_evolves (w : H.WF L) (own : α → Prop) (hp : Reach H.next (L.head b) p)
    (hpm : H.marked p = false) (hn : H.next p = some x) (ha : H.next a = some x)
    (ham : H.marked a = false) (hoff : ∀ b, ¬ Reach H.next (L.head b) a) :
    H.Evolves (H.setNext p a) L own where
  anchored _ h := h.imp id fun h => (w.insert_reach_iff hp hn ha hoff).mpr (.inl h)
  frozen _ hm := by
    refine ⟨hm, update_of_ne ?_ ..⟩
    rintro rfl
    rw [hpm] at hm
    cases hm
  key _ := rfl
  gone _ hm h b' hb := by
    rcases (w.insert_reach_iff hp hn ha hoff).mp hb with hb | ⟨-, rfl⟩
    · exact h b' hb
    · rw [ham] at hm
      cases hm

/-- Insertion adds exactly the new node to the live ones. -/
theorem insert_live_iff (w : H.WF L) (hp : Reach H.next (L.head b) p)
    (hn : H.next p = some x) (ha : H.next a = some x) (ham : H.marked a = false)
    (hoff : ∀ b, ¬ Reach H.next (L.head b) a) :
    (H.setNext p a).Live L b' y ↔ H.Live L b' y ∨ (b' = b ∧ y = a) := by
  have hah : ∀ b, a ≠ L.head b := by
    rintro b rfl
    exact hoff b .refl
  have hat : ∀ b, a ≠ L.tail b := by
    rintro b rfl
    exact hoff b (w.reach_tail b)
  unfold Live
  rw [w.insert_reach_iff hp hn ha hoff]
  constructor
  · rintro ⟨hy | ⟨rfl, rfl⟩, hm, hh, ht⟩
    · exact .inl ⟨hy, hm, hh, ht⟩
    · exact .inr ⟨rfl, rfl⟩
  · rintro (⟨hy, hm, hh, ht⟩ | ⟨rfl, rfl⟩)
    · exact ⟨.inl hy, hm, hh, ht⟩
    · exact ⟨.inr ⟨rfl, rfl⟩, ham, hah _, hat _⟩

/-! ### Unlinking -/

/-- **Unlinking keeps the lists well-formed.** -/
theorem unlink (w : H.WF L) (hp : Reach H.next (L.head b) p) (hn : H.next p = some x)
    (hs : H.Segment x r) : (H.setNext p r).WF L := by
  have hback : ∀ {b' y}, Reach (H.setNext p r).next (L.head b') y →
      Reach H.next (L.head b') y := reach_of_setNext_unlink hn hs
  refine ⟨?_, ?_, ?_, ?_, ?_, w.marked_head, w.marked_tail⟩
  · intro b' y hy hyt
    by_cases hyp : y = p
    · subst hyp
      exact ⟨r, update_self .., w.key_lt_of_segment hp hn hs⟩
    · obtain ⟨z, hz, hlt⟩ := w.sorted (hback hy) hyt
      exact ⟨z, (update_of_ne hyp ..).trans hz, hlt⟩
  · intro b'
    exact reach_setNext_of_unmarked hn hs (w.marked_tail b') (w.reach_tail b')
  · intro b'
    have htp : L.tail b' ≠ p := (w.ne_tail_of_next hn).symm
    exact (update_of_ne htp ..).trans (w.next_tail b')
  · intro b₁ b₂ y h₁ h₂
    exact w.disjoint (hback h₁) (hback h₂)
  · intro b' y hy hyh hyt
    exact w.dom (hback hy) hyh hyt

/-- **What is unlinked.** A jump from `p` to `r` removes exactly the nodes whose keys lie strictly
between theirs. -/
theorem unlink_reach_iff (w : H.WF L) (hp : Reach H.next (L.head b) p) (hn : H.next p = some x)
    (hs : H.Segment x r) :
    Reach (H.setNext p r).next (L.head b) y ↔
      Reach H.next (L.head b) y ∧ ¬ (H.key p < H.key y ∧ H.key y < H.key r) := by
  constructor
  · intro hy
    refine ⟨reach_of_setNext_unlink hn hs hy, ?_⟩
    rintro ⟨hpy, hyr⟩
    have w' := w.unlink hp hn hs
    have hp' : Reach (H.setNext p r).next (L.head b) p := by
      rcases reach_setNext_of_unlink hn hs hp with h | h
      · exact h
      · exact h.1
    have := w'.le_of_next hp' (update_self ..) hy hpy
    exact absurd this (not_le.mpr hyr)
  · rintro ⟨hy, hout⟩
    rcases reach_setNext_of_unlink hn hs hy with h | ⟨-, hxy, -, z, hz, hzr⟩
    · exact h
    · refine absurd ⟨?_, ?_⟩ hout
      · exact (w.key_lt_next hp hn).trans_le (w.le_of_reach (hp.step hn) hxy)
      · exact (w.key_lt_next hy hz).trans_le (w.le_of_reach (hy.step hz) hzr.reach)

/-- **What is unlinked**, node by node. -/
theorem unlink_span_reach_iff (w : H.WF L) (hp : Reach H.next (L.head b) p)
    (hn : H.next p = some x) {l : List α} (hl : H.Span x r l) :
    Reach (H.setNext p r).next (L.head b) y ↔ Reach H.next (L.head b) y ∧ y ∉ l := by
  rw [w.unlink_reach_iff hp hn hl.segment]
  refine and_congr_right fun hy => not_congr ?_
  rw [w.mem_span_iff (hp.step hn) hl hy]
  refine and_congr_left fun _ => ⟨fun hpy => w.le_of_next hp hn hy hpy, fun hxy => ?_⟩
  exact (w.key_lt_next hp hn).trans_le hxy

/-- Unlinking changes one list only. -/
theorem unlink_reach_iff_of_ne (w : H.WF L) (hb : b' ≠ b)
    (hp : Reach H.next (L.head b) p) :
    Reach (H.setNext p r).next (L.head b') y ↔ Reach H.next (L.head b') y := by
  apply Reach.update_iff
  intro hp'
  exact hb (w.disjoint hp' hp)

/-- A jump over one node removes that node from its list. -/
theorem unlink_one_reach_iff (w : H.WF L) (hp : Reach H.next (L.head b) p)
    (hn : H.next p = some x) (hxm : H.marked x = true) (hxr : H.next x = some r) :
    Reach (H.setNext p r).next (L.head b') y ↔ Reach H.next (L.head b') y ∧ y ≠ x := by
  have hx := hp.step hn
  by_cases hb : b' = b
  · subst hb
    rw [w.unlink_reach_iff hp hn (.single hxm hxr)]
    refine and_congr_right fun hy => not_congr ⟨fun hbetween => ?_, ?_⟩
    · obtain ⟨hpy, hyr⟩ := hbetween
      apply w.eq_of_key_eq hy hx
      refine le_antisymm (not_lt.mp fun hxy => ?_) (w.le_of_next hp hn hy hpy)
      exact absurd (w.le_of_next hx hxr hy hxy) (not_le.mpr hyr)
    · rintro rfl
      exact ⟨w.key_lt_next hp hn, w.key_lt_next hx hxr⟩
  · rw [w.unlink_reach_iff_of_ne hb hp]
    refine ⟨fun hy => ⟨hy, ?_⟩, And.left⟩
    rintro rfl
    exact hb (w.disjoint hy hx)

/-! ### The keys -/

/-- **Insertion adds a key.** -/
theorem insert_keys (w : H.WF L) (hp : Reach H.next (L.head b) p) (hn : H.next p = some x)
    (ha : H.next a = some x) (ham : H.marked a = false)
    (hoff : ∀ b, ¬ Reach H.next (L.head b) a) (k : K) :
    k ∈ (H.setNext p a).keys L ↔ k ∈ H.keys L ∨ k = H.key a := by
  constructor
  · rintro ⟨b', y, hy, rfl⟩
    rcases (w.insert_live_iff hp hn ha ham hoff).mp hy with hy | ⟨-, rfl⟩
    · exact .inl ⟨b', y, hy, rfl⟩
    · exact .inr rfl
  · rintro (⟨b', y, hy, rfl⟩ | rfl)
    · exact ⟨b', y, (w.insert_live_iff hp hn ha ham hoff).mpr (.inl hy), rfl⟩
    · exact ⟨b, a, (w.insert_live_iff hp hn ha ham hoff).mpr (.inr ⟨rfl, rfl⟩), rfl⟩

/-- **Marking removes a key.** -/
theorem mark_keys [Subsingleton β] (w : H.WF L) (hx : H.Live L b x) (k : K) :
    k ∈ (H.setMarked x).keys L ↔ k ∈ H.keys L ∧ k ≠ H.key x := by
  constructor
  · rintro ⟨b', y, hy, rfl⟩
    obtain ⟨hy, hne⟩ := mark_live_iff.mp hy
    refine ⟨⟨b', y, hy, rfl⟩, fun hk => hne ?_⟩
    obtain rfl := Subsingleton.elim b' b
    exact w.eq_of_key_eq hy.1 hx.1 hk
  · rintro ⟨⟨b', y, hy, rfl⟩, hne⟩
    refine ⟨b', y, mark_live_iff.mpr ⟨hy, ?_⟩, rfl⟩
    rintro rfl
    exact hne rfl

end WF

/-! ### All moves together -/

variable (L) in
/-- The moves, with `own` the nodes of no list that may be written. -/
inductive Move [DecidableEq α] (own : α → Prop) (H : Heap α K) : Heap α K → Prop
  /-- Nothing changes. -/
  | stay : Move own H H
  /-- A node of no list is written. -/
  | write {H' : Heap α K} (a : α) : own a → (∀ b, ¬ Reach H.next (L.head b) a) →
      (∀ x, x ≠ a → H'.next x = H.next x) → (∀ x, x ≠ a → H'.marked x = H.marked x) →
      (∀ x, x ≠ a → H'.key x = H.key x) → Move own H H'
  /-- The node `a` enters between `p` and `x`. -/
  | insert (b : β) (p x a : α) : own a → Reach H.next (L.head b) p → H.marked p = false →
      H.next p = some x → H.next a = some x → H.marked a = false →
      (∀ b, ¬ Reach H.next (L.head b) a) → H.key p < H.key a → H.key a < H.key x →
      L.dom b (H.key a) → Move own H (H.setNext p a)
  /-- The node `x` is marked. -/
  | mark (b : β) (x : α) : H.Live L b x → Move own H (H.setMarked x)
  /-- The nodes from `x` to before `r` are cut out. -/
  | unlink (b : β) (p x r : α) : Reach H.next (L.head b) p → H.marked p = false →
      H.next p = some x → H.Segment x r → Move own H (H.setNext p r)

namespace Move

variable [DecidableEq α] {own : α → Prop}

/-- **Moves keep the lists well-formed.** -/
theorem wf (w : H.WF L) (m : H.Move L own H') : H'.WF L := by
  cases m with
  | stay => exact w
  | write a _ hoff hnext hmarked hkey => exact w.write hoff hnext hmarked hkey
  | insert b p x a _ hp _ hn ha _ hoff hpa hax hdom => exact w.insert hp hn ha hoff hpa hax hdom
  | mark b x hx =>
    -- sentinels are not live, whichever list they belong to
    apply w.mark
    · rintro b' rfl
      obtain rfl := w.disjoint hx.1 .refl
      exact hx.2.2.1 rfl
    · rintro b' rfl
      obtain rfl := w.disjoint hx.1 (w.reach_tail b')
      exact hx.2.2.2 rfl
  | unlink b p x r hp _ hn hs => exact w.unlink hp hn hs

/-- **Moves respect what a thread holds on to.** -/
theorem evolves (w : H.WF L) (m : H.Move L own H') : H.Evolves H' L own := by
  cases m with
  | stay => exact .refl L own
  | write a hown hoff hnext hmarked hkey =>
    have e := write_evolves hoff hnext hmarked hkey
    have hne : ∀ {x}, ¬ own x → x ≠ a := by
      rintro x hx rfl
      exact hx hown
    exact ⟨fun hx => e.anchored (hne hx), fun hx => e.frozen (hne hx), fun hx => e.key (hne hx),
      fun hx => e.gone (hne hx)⟩
  | insert b p x a _ hp hpm hn ha ham hoff _ _ _ =>
    exact w.insert_evolves own hp hpm hn ha ham hoff
  | mark b x _ => exact mark_evolves own
  | unlink b p x r _ hpm hn hs => exact unlink_evolves own hpm hn hs

/-- Only written nodes enter a list. -/
theorem reach_back (w : H.WF L) (m : H.Move L own H') (hx : Reach H'.next (L.head b) x) :
    Reach H.next (L.head b) x ∨ own x := by
  cases m with
  | stay => exact .inl hx
  | write a hown hoff hnext _ _ => exact .inl ((write_reach_iff hoff hnext).mp hx)
  | insert b' p y a hown hp _ hn ha _ hoff _ _ _ =>
    rcases (w.insert_reach_iff hp hn ha hoff).mp hx with h | ⟨-, rfl⟩
    · exact .inl h
    · exact .inr hown
  | mark b x _ => exact .inl hx
  | unlink b p x r _ _ hn hs => exact .inl (reach_of_setNext_unlink hn hs hx)

/-- Only nodes of a list are marked. -/
theorem marked_back (m : H.Move L own H') (hx : H'.marked x = true) :
    H.marked x = true ∨ (∃ b, Reach H.next (L.head b) x) ∨ own x := by
  cases m with
  | stay => exact .inl hx
  | write a hown _ _ hmarked _ =>
    by_cases hxa : x = a
    · subst hxa
      exact .inr (.inr hown)
    · exact .inl ((hmarked x hxa).symm.trans hx)
  | insert _ _ _ _ => exact .inl hx
  | mark b y hy =>
    by_cases hxy : x = y
    · subst hxy
      exact .inr (.inl ⟨b, hy.1⟩)
    · exact .inl ((setMarked_marked_of_ne hxy).symm.trans hx)
  | unlink _ _ _ _ => exact .inl hx

/-- A node of no list that is not written stays as it is. -/
theorem of_off (m : H.Move L own H') (hoff : ∀ b, ¬ Reach H.next (L.head b) x) (ho : ¬ own x) :
    H'.next x = H.next x ∧ H'.marked x = H.marked x := by
  cases m with
  | stay => exact ⟨rfl, rfl⟩
  | write a hown _ hnext hmarked _ =>
    have hxa : x ≠ a := by
      rintro rfl
      exact ho hown
    exact ⟨hnext x hxa, hmarked x hxa⟩
  | insert b p y a _ hp _ _ _ _ _ _ _ _ =>
    refine ⟨setNext_next_of_ne ?_, rfl⟩
    rintro rfl
    exact hoff b hp
  | mark b y hy =>
    refine ⟨rfl, setMarked_marked_of_ne ?_⟩
    rintro rfl
    exact hoff b hy.1
  | unlink b p y r hp _ _ _ =>
    refine ⟨setNext_next_of_ne ?_, rfl⟩
    rintro rfl
    exact hoff b hp

/-- A node that is marked keeps its successor in the same step. -/
theorem next_of_marked (m : H.Move L own H') (hm : H.marked x = false)
    (hm' : H'.marked x = true) (ho : ¬ own x) : H'.next x = H.next x := by
  cases m with
  | stay => rfl
  | write a hown _ hnext _ _ =>
    apply hnext
    rintro rfl
    exact ho hown
  | insert b p y a _ _ _ _ _ _ _ _ _ _ =>
    have hm' : H.marked x = true := hm'
    rw [hm] at hm'
    cases hm'
  | mark b y _ => rfl
  | unlink b p y r _ _ _ _ =>
    have hm' : H.marked x = true := hm'
    rw [hm] at hm'
    cases hm'

/-- A node is in a list when it is marked. -/
theorem reach_of_newly_marked (m : H.Move L own H') (hm : H.marked x = false)
    (hm' : H'.marked x = true) (ho : ¬ own x) : ∃ b, Reach H'.next (L.head b) x := by
  have hne : H'.marked x ≠ H.marked x := by
    rw [hm, hm']
    exact Bool.noConfusion
  cases m with
  | stay => exact absurd rfl hne
  | write a hown _ _ hmarked _ =>
    refine absurd (hmarked x ?_) hne
    rintro rfl
    exact ho hown
  | insert b p y a _ _ _ _ _ _ _ _ _ _ => exact absurd rfl hne
  | mark b y hy =>
    have hxy : x = y := by
      by_contra hxy
      exact hne (setMarked_marked_of_ne hxy)
    subst hxy
    exact ⟨b, hy.1⟩
  | unlink b p y r _ _ _ _ => exact absurd rfl hne

/-- **Hindsight.** Where marked nodes lead after a step, they led before, or it is in a list. -/
theorem segment_back (w : H.WF L) (m : H.Move L own H')
    (hown : ∀ x, own x → H'.marked x = false) (hs : H'.Segment x y) :
    H.Segment x y ∨ ∃ b, Reach H'.next (L.head b) y := by
  induction hs with
  | refl => exact .inl .refl
  | @tail z y _ hzy ih =>
    obtain ⟨hzm, hzn⟩ := hzy
    have ho : ¬ own z := by
      intro ho
      rw [hown z ho] at hzm
      cases hzm
    rcases ih with hs | ⟨b, hz⟩
    · by_cases hm : H.marked z = true
      · have hn := ((m.evolves w).frozen ho hm).2
        exact .inl (hs.tail ⟨hm, hn.symm.trans hzn⟩)
      · -- the node was marked in this step, and its successor is in the list with it
        obtain ⟨b, hz⟩ := m.reach_of_newly_marked (Bool.eq_false_iff.mpr hm) hzm ho
        exact .inr ⟨b, hz.step hzn⟩
    · exact .inr ⟨b, hz.step hzn⟩

end Move

end Lists

end Heap

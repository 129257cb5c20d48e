import Mathlib.Order.Lattice
import Mathlib.Logic.Function.Basic
import Mathlib.Data.Bool.Basic
import Mathlib.Tactic.Tauto

/-!
# External search trees

A search tree that keeps its keys in the leaves; the keys of the inner nodes only direct searches.
Both updates of such a tree put another subtree in the place of the one below a node on the path of
a search: an insertion replaces a leaf by an inner node with two leaves, a deletion replaces an
inner node by one of its children. `ExtTree.setBelow` does this, and the lemmas about it say

* that it is one store in the heap that holds the nodes (`ExtTree.Rep.setBelow`);
* that the tree stays ordered and its nodes stay distinct (`ExtTree.Ordered.setBelow`,
  `ExtTree.Distinct.setBelow`);
* that searches for other keys end where they ended before (`ExtTree.find_setBelow`);
* that inner nodes stay on the paths they are on (`ExtTree.At.setBelow`).

The two children of a node are given by a function of `Bool`, with `true` for the right one, so
that the cases left and right are one.
-/

open Function

/-- A tree, with the nodes and keys of the heap it lies in. -/
inductive ExtTree (α K : Type*)
  /-- A leaf. -/
  | leaf (x : α) (k : K)
  /-- An inner node. -/
  | node (x : α) (k : K) (c : Bool → ExtTree α K)

/-- The nodes of trees. -/
structure TreeHeap (α K : Type*) where
  /-- The left and the right child. -/
  child : α → Bool → Option α
  /-- The key. -/
  key : α → K

/-- The side on which a node with key `k'` has the key `k`: keys that are not smaller are on the
right. -/
def toward {K : Type*} [LinearOrder K] (k k' : K) : Bool :=
  decide (k' ≤ k)

theorem toward_of_lt {K : Type*} [LinearOrder K] {k k' : K} (h : k < k') : toward k k' = false :=
  decide_eq_false (not_le.mpr h)

theorem toward_of_le {K : Type*} [LinearOrder K] {k k' : K} (h : k' ≤ k) : toward k k' = true :=
  decide_eq_true h

namespace ExtTree

variable {α K : Type*}

/-- The node at the top. -/
def root : ExtTree α K → α
  | leaf x _ => x
  | node x _ _ => x

/-- Some leaf of the tree is a `P`, or some inner node a `Q`. -/
def Any (P Q : α → K → Prop) : ExtTree α K → Prop
  | leaf x k => P x k
  | node x k c => Q x k ∨ ∃ b, Any P Q (c b)

/-- The node is in the tree. -/
def Mem (y : α) : ExtTree α K → Prop :=
  Any (fun x _ => y = x) fun x _ => y = x

/-- The node is a leaf of the tree, with this key. -/
def IsLeaf (y : α) (k' : K) : ExtTree α K → Prop :=
  Any (fun x k => y = x ∧ k' = k) fun _ _ => False

/-- The node is an inner node of the tree. -/
def IsNode (y : α) : ExtTree α K → Prop :=
  Any (fun _ _ => False) fun x _ => y = x

/-- Some node of the tree has this key. -/
def HasKey (k' : K) : ExtTree α K → Prop :=
  Any (fun _ k => k' = k) fun _ k => k' = k

/-- No node occurs twice. -/
def Distinct : ExtTree α K → Prop
  | leaf _ _ => True
  | node x _ c => (∀ b, ¬ Mem x (c b)) ∧ (∀ b y, Mem y (c b) → ¬ Mem y (c (!b))) ∧
    ∀ b, Distinct (c b)

/-- The tree lies in the heap. -/
def Rep (H : TreeHeap α K) : ExtTree α K → Prop
  | leaf x k => H.key x = k ∧ ∀ b, H.child x b = none
  | node x k c => H.key x = k ∧ ∀ b, H.child x b = some (c b).root ∧ Rep H (c b)

theorem mem_root (t : ExtTree α K) : t.Mem t.root := by
  cases t with
  | leaf x k => rfl
  | node x k c => exact .inl rfl

theorem Any.mono {P Q P' Q' : α → K → Prop} {t : ExtTree α K} (h : t.Any P Q)
    (hP : ∀ x k, P x k → P' x k) (hQ : ∀ x k, Q x k → Q' x k) : t.Any P' Q' := by
  induction t with
  | leaf x k => exact hP x k h
  | node x k c ih =>
    rcases h with h | ⟨b, hb⟩
    · exact .inl (hQ x k h)
    · exact .inr ⟨b, ih b hb⟩

theorem IsLeaf.mem {t : ExtTree α K} {y : α} {k : K} (h : t.IsLeaf y k) : t.Mem y :=
  Any.mono h (fun _ _ h => h.1) fun _ _ h => h.elim

theorem IsLeaf.hasKey {t : ExtTree α K} {y : α} {k : K} (h : t.IsLeaf y k) : t.HasKey k :=
  Any.mono h (fun _ _ h => h.2) fun _ _ h => h.elim

theorem IsNode.mem {t : ExtTree α K} {y : α} (h : t.IsNode y) : t.Mem y :=
  Any.mono h (fun _ _ h => h.elim) fun _ _ h => h

/-- Where the heaps agree on the nodes of the tree, it lies in both. -/
theorem Rep.congr {H H' : TreeHeap α K} {t : ExtTree α K} (h : t.Rep H)
    (hc : ∀ y, t.Mem y → H'.child y = H.child y) (hk : ∀ y, t.Mem y → H'.key y = H.key y) :
    t.Rep H' := by
  induction t with
  | leaf x k =>
    refine ⟨(hk x rfl).trans h.1, fun b => ?_⟩
    rw [hc x rfl]
    exact h.2 b
  | node x k c ih =>
    refine ⟨(hk x (.inl rfl)).trans h.1, fun b => ⟨?_, ?_⟩⟩
    · rw [hc x (.inl rfl)]
      exact (h.2 b).1
    · exact ih b (h.2 b).2 (fun y hy => hc y (.inr ⟨b, hy⟩)) fun y hy => hk y (.inr ⟨b, hy⟩)

/-- The children of the nodes of the tree are in the tree. -/
theorem Rep.mem_child {H : TreeHeap α K} {t : ExtTree α K} {x y : α} {b : Bool} (h : t.Rep H)
    (hx : t.Mem x) (hy : H.child x b = some y) : t.Mem y := by
  induction t with
  | leaf z k =>
    obtain rfl : x = z := hx
    cases (h.2 b).symm.trans hy
  | node z k c ih =>
    rcases hx with hx | ⟨b', hx⟩
    · obtain rfl : x = z := hx
      obtain rfl : (c b).root = y := Option.some.inj ((h.2 b).1.symm.trans hy)
      exact .inr ⟨b, mem_root _⟩
    · exact .inr ⟨b', ih b' (h.2 b').2 hx⟩

/-- What holds of the root and goes on to the children holds of all nodes. -/
theorem Rep.forall_mem {H : TreeHeap α K} {t : ExtTree α K} {P : α → Prop} (h : t.Rep H)
    (hroot : P t.root) (hchild : ∀ x b y, P x → H.child x b = some y → P y) :
    ∀ x, t.Mem x → P x := by
  induction t with
  | leaf z k =>
    rintro x rfl
    exact hroot
  | node z k c ih =>
    rintro x (rfl | ⟨b, hx⟩)
    · exact hroot
    · exact ih b (h.2 b).2 (hchild z b _ hroot (h.2 b).1) x hx

/-- A leaf has its key. -/
theorem Rep.key_eq {H : TreeHeap α K} {t : ExtTree α K} {x : α} {k : K} (h : t.Rep H)
    (hx : t.IsLeaf x k) : H.key x = k := by
  induction t with
  | leaf z k' =>
    obtain ⟨rfl, rfl⟩ := hx
    exact h.1
  | node z k' c ih =>
    rcases hx with hx | ⟨b, hx⟩
    · exact hx.elim
    · exact ih b (h.2 b).2 hx

/-- Only one tree with this root lies in the heap. -/
theorem Rep.unique {H : TreeHeap α K} {t t' : ExtTree α K} (h : t.Rep H) (h' : t'.Rep H)
    (hr : t.root = t'.root) : t = t' := by
  induction t generalizing t' with
  | leaf x k =>
    cases t' with
    | leaf x' k' =>
      obtain rfl : x = x' := hr
      rw [← h.1, ← h'.1]
    | node x' k' c' =>
      obtain rfl : x = x' := hr
      have hsome := (h'.2 true).1
      rw [h.2 true] at hsome
      cases hsome
  | node x k c ih =>
    cases t' with
    | leaf x' k' =>
      obtain rfl : x = x' := hr
      have hsome := (h.2 true).1
      rw [h'.2 true] at hsome
      cases hsome
    | node x' k' c' =>
      obtain rfl : x = x' := hr
      have hc : c = c' := by
        ext b
        refine ih b (h.2 b).2 (h'.2 b).2 ?_
        exact Option.some.inj ((h.2 b).1.symm.trans (h'.2 b).1)
      rw [← h.1, ← h'.1, hc]

section Map

variable {β : Type*} (f : α → β)

/-- The tree with other names for its nodes. -/
def map : ExtTree α K → ExtTree β K
  | leaf x k => leaf (f x) k
  | node x k c => node (f x) k fun b => map (c b)

variable {f} {t : ExtTree α K} {y : β} {k : K}

theorem root_map : (t.map f).root = f t.root := by
  cases t <;> rfl

theorem isLeaf_map : (t.map f).IsLeaf y k ↔ ∃ x, t.IsLeaf x k ∧ y = f x := by
  induction t with
  | leaf z k' =>
    constructor
    · rintro ⟨rfl, rfl⟩
      exact ⟨z, ⟨rfl, rfl⟩, rfl⟩
    · rintro ⟨x, ⟨rfl, rfl⟩, rfl⟩
      exact ⟨rfl, rfl⟩
  | node z k' c ih =>
    constructor
    · rintro (h | ⟨b, h⟩)
      · exact h.elim
      · obtain ⟨x, hx, rfl⟩ := (ih b).mp h
        exact ⟨x, .inr ⟨b, hx⟩, rfl⟩
    · rintro ⟨x, h | ⟨b, h⟩, rfl⟩
      · exact h.elim
      · exact .inr ⟨b, (ih b).mpr ⟨x, h, rfl⟩⟩

/-- A heap that agrees with another one up to names holds the same tree. -/
theorem Rep.map {H : TreeHeap α K} {H' : TreeHeap β K} (h : t.Rep H)
    (hk : ∀ x, t.Mem x → H'.key (f x) = H.key x)
    (hc : ∀ x b, t.Mem x → H'.child (f x) b = (H.child x b).map f) : (t.map f).Rep H' := by
  induction t with
  | leaf x k =>
    refine ⟨(hk x rfl).trans h.1, fun b => ?_⟩
    rw [hc x b rfl, h.2 b]
    rfl
  | node x k c ih =>
    refine ⟨(hk x (.inl rfl)).trans h.1, fun b => ⟨?_, ?_⟩⟩
    · rw [hc x b (.inl rfl), (h.2 b).1, root_map]
      rfl
    · exact ih b (h.2 b).2 (fun y hy => hk y (.inr ⟨b, hy⟩)) fun y d hy => hc y d (.inr ⟨b, hy⟩)

end Map

/-! ### Searches -/

variable [LinearOrder K]

/-- Keys are where searches look for them. -/
def Ordered : ExtTree α K → Prop
  | leaf _ _ => True
  | node _ k c => ∀ b, (∀ k', HasKey k' (c b) → toward k' k = b) ∧ Ordered (c b)

/-- The leaf a search for `k'` ends at, and its key. -/
def find (k' : K) : ExtTree α K → α × K
  | leaf x k => (x, k)
  | node _ k c => (c (toward k' k)).find k'

/-- A search for `k` in the first tree passes the root of the second one, which is what it goes on
with. -/
inductive At (k : K) : ExtTree α K → ExtTree α K → Prop
  /-- It begins there. -/
  | here {t : ExtTree α K} : At k t t
  /-- It passes there below the root. -/
  | down {x : α} {k' : K} {c : Bool → ExtTree α K} {u : ExtTree α K} (h : At k (c (toward k k')) u) :
    At k (node x k' c) u

variable {t u v : ExtTree α K} {k k' kp : K} {x y p : α} {c c' : Bool → ExtTree α K}

theorem At.trans (h : At k t u) (h' : At k u v) : At k t v := by
  induction h with
  | here => exact h'
  | down _ ih => exact .down (ih h')

theorem At.step (h : At k t (node x k' c)) : At k t (c (toward k k')) :=
  h.trans (.down .here)

theorem At.any {P Q : α → K → Prop} (h : At k t u) (hu : u.Any P Q) : t.Any P Q := by
  induction h with
  | here => exact hu
  | down _ ih => exact .inr ⟨_, ih hu⟩

theorem At.mem (h : At k t u) (hy : u.Mem y) : t.Mem y :=
  h.any hy

theorem At.rep {H : TreeHeap α K} (h : At k t u) (ht : t.Rep H) : u.Rep H := by
  induction h with
  | here => exact ht
  | down _ ih => exact ih (ht.2 _).2

theorem At.distinct (h : At k t u) (ht : t.Distinct) : u.Distinct := by
  induction h with
  | here => exact ht
  | down _ ih => exact ih (ht.2.2 _)

theorem At.ordered (h : At k t u) (ht : t.Ordered) : u.Ordered := by
  induction h with
  | here => exact ht
  | down _ ih => exact ih (ht _).2

theorem At.find (h : At k t u) : t.find k = u.find k := by
  induction h with
  | here => rfl
  | down _ ih => exact ih

/-- A search passes leaves at its end only. -/
theorem At.find_eq (h : At k t (leaf x k')) : t.find k = (x, k') :=
  h.find

theorem At.isLeaf (h : At k t (leaf x k')) : t.IsLeaf x k' :=
  h.any (u := leaf x k') ⟨rfl, rfl⟩

/-- A key is in the tree if a search for it finds it. -/
theorem Ordered.isLeaf_iff (h : t.Ordered) : t.IsLeaf x k ↔ t.find k = (x, k) := by
  induction t with
  | leaf y k' =>
    constructor
    · rintro ⟨rfl, rfl⟩
      rfl
    · intro h
      obtain ⟨rfl, rfl⟩ := Prod.mk.inj h
      exact ⟨rfl, rfl⟩
  | node y k' c ih =>
    show (False ∨ ∃ b, (c b).IsLeaf x k) ↔ (c (toward k k')).find k = (x, k)
    rw [← ih _ (h _).2, false_or]
    constructor
    · rintro ⟨b, hb⟩
      -- the leaf is on the side on which its key is
      rw [(h b).1 k hb.hasKey]
      exact hb
    · exact fun hx => ⟨_, hx⟩

/-- No key is in the tree twice. -/
theorem Ordered.leaf_unique (h : t.Ordered) (hx : t.IsLeaf x k) (hy : t.IsLeaf y k) : x = y := by
  rw [h.isLeaf_iff] at hx hy
  exact congrArg Prod.fst (hx.symm.trans hy)

/-- Two searches that meet below a node have both passed it, on the same side. -/
theorem At.through (hat : At k t (node p kp c)) (hd : t.Distinct) (h : At k' t u)
    (hm : (c (toward k kp)).Mem u.root) :
    toward k' kp = toward k kp ∧ At k' t (node p kp c) ∧ At k' (c (toward k kp)) u := by
  generalize hv : node p kp c = v at hat
  induction hat with
  | here =>
    subst hv
    cases h with
    | here => exact (hd.1 _ hm).elim
    | down h =>
      have hb : toward k' kp = toward k kp := by
        by_contra hb
        have h' := h.mem (mem_root u)
        rw [Bool.eq_not_of_ne hb] at h'
        exact hd.2.1 _ _ hm h'
      rw [hb] at h
      exact ⟨hb, .here, h⟩
  | @down x k₀ c₀ v hat ih =>
    subst hv
    have hm' : Mem u.root (c₀ (toward k k₀)) := hat.step.mem hm
    cases h with
    | here => exact (hd.1 _ hm').elim
    | down h =>
      have hb : toward k' k₀ = toward k k₀ := by
        by_contra hb
        have h' := h.mem (mem_root u)
        rw [Bool.eq_not_of_ne hb] at h'
        exact hd.2.1 _ _ hm' h'
      rw [hb] at h
      obtain ⟨h₁, h₂, h₃⟩ := ih (hd.2.2 _) h rfl
      refine ⟨h₁, .down ?_, h₃⟩
      rw [hb]
      exact h₂

/-! ### Two leaves below a new node -/

/-- A node with the leaf `x` on one side and the leaf `y` on the other one. -/
def fork (b : α) (kb : K) (side : Bool) (x : α) (k : K) (y : α) (k' : K) : ExtTree α K :=
  node b kb fun right => bif right == side then leaf x k else leaf y k'

section Fork

variable {b : α} {kb : K} {side : Bool}

omit [LinearOrder K] in
theorem any_fork {P Q : α → K → Prop} (h : (fork b kb side x k y k').Any P Q) :
    Q b kb ∨ P x k ∨ P y k' := by
  rcases h with h | ⟨right, h⟩
  · exact .inl h
  · dsimp only at h
    by_cases hr : right = side
    · rw [hr, beq_self_eq_true, cond_true] at h
      exact .inr (.inl h)
    · rw [beq_false_of_ne hr, cond_false] at h
      exact .inr (.inr h)

omit [LinearOrder K] in
theorem rep_fork {H : TreeHeap α K} (hk : H.key b = kb)
    (hc : ∀ right, H.child b right = some (bif right == side then x else y))
    (hx : (leaf x k).Rep H) (hy : (leaf y k').Rep H) : (fork b kb side x k y k').Rep H := by
  refine ⟨hk, fun right => ?_⟩
  have hc := hc right
  dsimp only
  by_cases hr : right = side
  · subst hr
    rw [beq_self_eq_true, cond_true] at hc ⊢
    exact ⟨hc, hx⟩
  · rw [beq_false_of_ne hr, cond_false] at hc ⊢
    exact ⟨hc, hy⟩

omit [LinearOrder K] in
theorem distinct_fork (hx : b ≠ x) (hy : b ≠ y) (hxy : x ≠ y) :
    (fork b kb side x k y k').Distinct := by
  cases side <;> refine ⟨?_, ?_, ?_⟩ <;> rintro (_ | _)
  all_goals first
    | exact trivial
    | exact hx
    | exact hy
    | (rintro z rfl h; exact hxy h)
    | (rintro z rfl h; exact hxy h.symm)

theorem ordered_fork (hx : toward k kb = side) (hy : toward k' kb = !side) :
    (fork b kb side x k y k').Ordered := by
  intro right
  show (∀ k₀, HasKey k₀ (bif right == side then leaf x k else leaf y k') → toward k₀ kb = right) ∧
    Ordered (bif right == side then leaf x k else leaf y k')
  by_cases hr : right = side
  · rw [hr, beq_self_eq_true, cond_true]
    refine ⟨?_, trivial⟩
    rintro k₀ rfl
    exact hx
  · rw [beq_false_of_ne hr, cond_false, Bool.eq_not_of_ne hr]
    refine ⟨?_, trivial⟩
    rintro k₀ rfl
    exact hy

theorem find_fork (k₀ : K) : (fork b kb side x k y k').find k₀ =
    bif toward k₀ kb == side then (x, k) else (y, k') := by
  show (bif toward k₀ kb == side then leaf x k else leaf y k' : ExtTree α K).find k₀ = _
  cases toward k₀ kb == side <;> rfl

end Fork

/-! ### Putting a subtree below a node -/

variable [DecidableEq α]

/-- The tree with `sub` in the place of the subtree that a search for `k` passes next after the
node `p`. -/
def setBelow (p : α) (k : K) : ExtTree α K → ExtTree α K → ExtTree α K
  | leaf x k', _ => leaf x k'
  | node x k' c, sub => node x k' (update c (toward k k')
      (if x = p then sub else (c (toward k k')).setBelow p k sub))

variable {sub : ExtTree α K} {d : Bool}

theorem setBelow_node_self :
    (node p kp c).setBelow p k sub = node p kp (update c (toward k kp) sub) := by
  rw [setBelow, if_pos rfl]

theorem setBelow_node_of_ne (h : x ≠ p) : (node x k' c).setBelow p k sub =
    node x k' (update c (toward k k') ((c (toward k k')).setBelow p k sub)) := by
  rw [setBelow, if_neg h]

omit [DecidableEq α] in
/-- A node above which the search goes on is another one. -/
theorem Distinct.ne_of_at (hd : (node x k' c).Distinct)
    (h : At k (c (toward k k')) (node p kp c')) : x ≠ p := by
  rintro rfl
  exact hd.1 _ (h.mem (.inl rfl))

/-- The tree with `sub` put below `p`, level by level: this is the induction of all that follows. -/
theorem At.setBelow_induction (hat : At k t (node p kp c)) (hd : t.Distinct)
    {motive : ExtTree α K → ExtTree α K → Prop}
    (here : motive (node p kp c) (node p kp (update c (toward k kp) sub)))
    (down : ∀ x k' c' t', (node x k' c').Distinct → x ≠ p →
      At k (c' (toward k k')) (node p kp c) → motive (c' (toward k k')) t' →
      motive (node x k' c') (node x k' (update c' (toward k k') t'))) :
    motive t (t.setBelow p k sub) := by
  induction t with
  | leaf x k' => cases hat
  | node x k' c' ih =>
    cases hat with
    | here =>
      rw [setBelow_node_self]
      exact here
    | down h =>
      have hx : x ≠ p := hd.ne_of_at h
      rw [setBelow_node_of_ne hx]
      exact down x k' c' _ hd hx h (ih _ h (hd.2.2 _))

omit [LinearOrder K] [DecidableEq α] in
theorem any_update_iff {P Q : α → K → Prop} :
    (∃ b, (update c d sub b).Any P Q) ↔ sub.Any P Q ∨ (c (!d)).Any P Q := by
  constructor
  · rintro ⟨b, hb⟩
    by_cases h : b = d
    · subst h
      rw [update_self] at hb
      exact .inl hb
    · rw [update_of_ne h, Bool.eq_not_of_ne h] at hb
      exact .inr hb
  · rintro (h | h)
    · exact ⟨d, by rwa [update_self]⟩
    · exact ⟨!d, by rwa [update_of_ne (Bool.not_ne_self d)]⟩

/-- What is in the tree afterwards was in it or is in the subtree. -/
theorem Any.of_setBelow {P Q : α → K → Prop} (h : (t.setBelow p k sub).Any P Q) :
    t.Any P Q ∨ sub.Any P Q := by
  induction t with
  | leaf x k' => exact .inl h
  | node x k' c ih =>
    rcases h with h | h
    · exact .inl (.inl h)
    · rw [any_update_iff] at h
      rcases h with h | h
      · by_cases hx : x = p
        · rw [if_pos hx] at h
          exact .inr h
        · rw [if_neg hx] at h
          exact (ih _ h).imp (fun h => .inr ⟨_, h⟩) id
      · exact .inl (.inr ⟨_, h⟩)

omit [LinearOrder K] [DecidableEq α] in
theorem mem_node_iff (d : Bool) :
    (node x k c).Mem y ↔ y = x ∨ (c d).Mem y ∨ (c (!d)).Mem y := by
  constructor
  · rintro (h | ⟨b, hb⟩)
    · exact .inl h
    · by_cases h : b = d
      · exact .inr (.inl (h ▸ hb))
      · exact .inr (.inr (Bool.eq_not_of_ne h ▸ hb))
  · rintro (h | h | h)
    · exact .inl h
    · exact .inr ⟨_, h⟩
    · exact .inr ⟨_, h⟩

omit [LinearOrder K] [DecidableEq α] in
theorem mem_node_update_iff :
    (node x k (update c d sub)).Mem y ↔ y = x ∨ sub.Mem y ∨ (c (!d)).Mem y := by
  rw [mem_node_iff d, update_self, update_of_ne (Bool.not_ne_self d)]

omit [LinearOrder K] [DecidableEq α] in
theorem mem_fork {b : α} {kb : K} {side : Bool} {z : α} :
    (fork b kb side x k y k').Mem z ↔ z = b ∨ z = x ∨ z = y := by
  unfold fork
  rw [mem_node_iff side, beq_self_eq_true, cond_true, beq_false_of_ne (Bool.not_ne_self side),
    cond_false]
  rfl

/-- The nodes afterwards. -/
theorem mem_setBelow (hat : At k t (node p kp c)) (hd : t.Distinct) :
    (t.setBelow p k sub).Mem y ↔ (t.Mem y ∧ ¬ (c (toward k kp)).Mem y) ∨ sub.Mem y := by
  have hdp : (node p kp c).Distinct := hat.distinct hd
  refine hat.setBelow_induction hd
    (motive := fun t t' => t'.Mem y ↔ (t.Mem y ∧ ¬ (c (toward k kp)).Mem y) ∨ sub.Mem y) ?_ ?_
  · have hp : y = p → ¬ (c (toward k kp)).Mem y := by
      rintro rfl
      exact hdp.1 _
    have hother : (c (!toward k kp)).Mem y → ¬ (c (toward k kp)).Mem y := fun h h' =>
      hdp.2.1 _ _ h' h
    rw [mem_node_update_iff, mem_node_iff (toward k kp)]
    tauto
  · intro x k' c' t' hd' hx hat' ih
    have hx : y = x → ¬ (c (toward k kp)).Mem y := by
      rintro rfl h
      exact hd'.1 _ (hat'.step.mem h)
    -- on the other side there is nothing that is below `p`
    have hother : (c' (!toward k k')).Mem y → ¬ (c (toward k kp)).Mem y := fun h h' =>
      hd'.2.1 _ _ (hat'.step.mem h') h
    rw [mem_node_update_iff, mem_node_iff (toward k k'), ih]
    tauto

/-- The heap holds the tree afterwards if the child of `p` was stored and the subtree is there. -/
theorem Rep.setBelow {H H' : TreeHeap α K} (ht : t.Rep H) (hd : t.Distinct)
    (hat : At k t (node p kp c)) (hsub : sub.Rep H')
    (hp : H'.child p = update (H.child p) (toward k kp) (some sub.root))
    (hc : ∀ y, t.Mem y → y ≠ p → H'.child y = H.child y) (hk : ∀ y, t.Mem y → H'.key y = H.key y) :
    (t.setBelow p k sub).Rep H' := by
  refine hat.setBelow_induction hd
    (motive := fun t t' => t.Rep H → (∀ y, t.Mem y → y ≠ p → H'.child y = H.child y) →
      (∀ y, t.Mem y → H'.key y = H.key y) → t'.Rep H' ∧ t'.root = t.root) ?_ ?_ ht hc hk |>.1
  · intro ht hc hk
    refine ⟨⟨(hk p (.inl rfl)).trans ht.1, fun b => ?_⟩, rfl⟩
    rw [hp]
    by_cases hb : b = toward k kp
    · subst hb
      rw [update_self, update_self]
      exact ⟨rfl, hsub⟩
    · rw [update_of_ne hb, update_of_ne hb]
      refine ⟨(ht.2 b).1, (ht.2 b).2.congr (fun y hy => hc y (.inr ⟨b, hy⟩) ?_) fun y hy =>
        hk y (.inr ⟨b, hy⟩)⟩
      rintro rfl
      exact (hat.distinct hd).1 b hy
  · intro x k' c' t' hd' hx hat' ih ht hc hk
    have hcx := hc x (.inl rfl) hx
    obtain ⟨hrep, hroot⟩ := ih (ht.2 _).2 (fun y hy => hc y (.inr ⟨_, hy⟩))
      fun y hy => hk y (.inr ⟨_, hy⟩)
    refine ⟨⟨(hk x (.inl rfl)).trans ht.1, fun b => ?_⟩, rfl⟩
    rw [hcx]
    by_cases hb : b = toward k k'
    · subst hb
      rw [update_self, hroot]
      exact ⟨(ht.2 _).1, hrep⟩
    · rw [update_of_ne hb]
      refine ⟨(ht.2 b).1, (ht.2 b).2.congr (fun y hy => hc y (.inr ⟨b, hy⟩) ?_) fun y hy =>
        hk y (.inr ⟨b, hy⟩)⟩
      rintro rfl
      rw [Bool.eq_not_of_ne hb] at hy
      exact hd'.2.1 _ _ (hat'.mem (.inl rfl)) hy

omit [LinearOrder K] [DecidableEq α] in
/-- Another subtree on one side. -/
theorem Distinct.update (hd : (node x k c).Distinct) (ht : t.Distinct)
    (hy : ∀ y, t.Mem y → y ≠ x ∧ ¬ (c (!d)).Mem y) : (node x k (update c d t)).Distinct := by
  have hcases : ∀ b, b = d ∧ Function.update c d t b = t ∨
      b = (!d) ∧ Function.update c d t b = c (!d) := by
    intro b
    by_cases h : b = d
    · subst h
      exact .inl ⟨rfl, update_self ..⟩
    · refine .inr ⟨Bool.eq_not_of_ne h, ?_⟩
      rw [update_of_ne h, Bool.eq_not_of_ne h]
  refine ⟨fun b hx => ?_, fun b y h h' => ?_, fun b => ?_⟩
  · rcases hcases b with ⟨-, he⟩ | ⟨-, he⟩
    · rw [he] at hx
      exact (hy _ hx).1 rfl
    · rw [he] at hx
      exact hd.1 _ hx
  · rcases hcases b with ⟨rfl, he⟩ | ⟨rfl, he⟩
    · rw [he] at h
      rw [update_of_ne (Bool.not_ne_self b)] at h'
      exact (hy _ h).2 h'
    · rw [he] at h
      rw [Bool.not_not, update_self] at h'
      exact (hy _ h').2 h
  · rcases hcases b with ⟨-, he⟩ | ⟨-, he⟩
    · rw [he]
      exact ht
    · rw [he]
      exact hd.2.2 _

/-- Nodes stay distinct if those of the subtree were below `p` or are new. -/
theorem Distinct.setBelow (hd : t.Distinct) (hat : At k t (node p kp c)) (hs : sub.Distinct)
    (hnew : ∀ y, sub.Mem y → (c (toward k kp)).Mem y ∨ ¬ t.Mem y) :
    (t.setBelow p k sub).Distinct := by
  -- a node of the subtree is neither the root of a tree it is put into nor on its other side
  have hbelow : ∀ {x k' b} {c' : Bool → ExtTree α K} {y}, (node x k' c').Distinct →
      ((c (toward k kp)).Mem y ∨ ¬ (node x k' c').Mem y) →
      ((c (toward k kp)).Mem y → (c' b).Mem y) → y ≠ x ∧ ¬ (c' (!b)).Mem y := by
    intro x k' b c' y hd' hnew hin
    rcases hnew with h | h
    · refine ⟨?_, hd'.2.1 _ _ (hin h)⟩
      rintro rfl
      exact hd'.1 _ (hin h)
    · exact ⟨fun hyx => h (.inl hyx), fun h' => h (.inr ⟨_, h'⟩)⟩
  refine (hat.setBelow_induction hd (motive := fun t t' =>
    (∀ y, sub.Mem y → (c (toward k kp)).Mem y ∨ ¬ t.Mem y) →
      t'.Distinct ∧ ∀ y, t'.Mem y → t.Mem y ∨ sub.Mem y) ?_ ?_ hnew).1
  · intro hnew
    refine ⟨(hat.distinct hd).update hs fun y hy => ?_, fun y hy => ?_⟩
    · exact hbelow (hat.distinct hd) (hnew y hy) id
    · rw [mem_node_update_iff] at hy
      rw [mem_node_iff (toward k kp)]
      tauto
  · intro x k' c' t' hd' hx hat' ih hnew
    obtain ⟨ht', hmem⟩ := ih fun y hy => (hnew y hy).imp id fun h h' => h (.inr ⟨_, h'⟩)
    refine ⟨hd'.update ht' fun y hy => ?_, fun y hy => ?_⟩
    · rcases hmem y hy with h | h
      · exact ⟨fun hyx => hd'.1 _ (hyx ▸ h), hd'.2.1 _ _ h⟩
      · exact hbelow hd' (hnew y h) fun h => hat'.step.mem h
    · rw [mem_node_update_iff] at hy
      rw [mem_node_iff (toward k k')]
      have h := hmem y
      tauto

/-- The tree stays ordered if the keys of the subtree were below `p`, but for the one that was
searched for. -/
theorem Ordered.setBelow (ho : t.Ordered) (hd : t.Distinct) (hat : At k t (node p kp c))
    (hs : sub.Ordered) (hkeys : ∀ k', sub.HasKey k' → k' = k ∨ (c (toward k kp)).HasKey k') :
    (t.setBelow p k sub).Ordered := by
  have hupdate : ∀ {x k'} {c' : Bool → ExtTree α K} {t'}, (node x k' c').Ordered → t'.Ordered →
      (∀ k'', t'.HasKey k'' → k'' = k ∨ (c' (toward k k')).HasKey k'') →
      (node x k' (update c' (toward k k') t')).Ordered := by
    intro x k' c' t' ho' ht' hk' b
    by_cases hb : b = toward k k'
    · subst hb
      rw [update_self]
      refine ⟨fun k'' h => ?_, ht'⟩
      rcases hk' k'' h with rfl | h
      · rfl
      · exact (ho' _).1 _ h
    · rw [update_of_ne hb]
      exact ho' b
  refine (hat.setBelow_induction hd (motive := fun t t' => t.Ordered →
    t'.Ordered ∧ ∀ k', t'.HasKey k' → k' = k ∨ t.HasKey k') ?_ ?_ ho).1
  · intro ho
    refine ⟨hupdate ho hs hkeys, ?_⟩
    rintro k' (h | h)
    · exact .inr (.inl h)
    · rcases any_update_iff.mp h with h | h
      · exact (hkeys k' h).imp id fun h => .inr ⟨_, h⟩
      · exact .inr (.inr ⟨_, h⟩)
  · intro x k' c' t' hd' hx hat' ih ho
    obtain ⟨ht', hk⟩ := ih (ho _).2
    refine ⟨hupdate ho ht' hk, ?_⟩
    rintro k' (h | h)
    · exact .inr (.inl h)
    · rcases any_update_iff.mp h with h | h
      · exact (hk k' h).imp id fun h => .inr ⟨_, h⟩
      · exact .inr (.inr ⟨_, h⟩)

/-- The search for `k` goes on in the subtree. -/
theorem find_setBelow (hat : At k t (node p kp c)) (hd : t.Distinct) :
    (t.setBelow p k sub).find k = sub.find k := by
  refine hat.setBelow_induction hd (motive := fun _ t' => t'.find k = sub.find k) ?_ ?_
  · show (update c (toward k kp) sub (toward k kp)).find k = sub.find k
    rw [update_self]
  · intro x k' c' t' _ _ _ ih
    show (update c' (toward k k') t' (toward k k')).find k = sub.find k
    rw [update_self]
    exact ih

/-- Another key is found afterwards where it was before, if that is so below `p`. -/
theorem find_setBelow_iff (hat : At k t (node p kp c)) (hd : t.Distinct)
    (hsame : sub.find k' = (x, k') ↔ (c (toward k kp)).find k' = (x, k')) :
    (t.setBelow p k sub).find k' = (x, k') ↔ t.find k' = (x, k') := by
  have hupdate : ∀ {k''} {c' : Bool → ExtTree α K} {t'},
      (t'.find k' = (x, k') ↔ (c' (toward k k'')).find k' = (x, k')) →
      ((update c' (toward k k'') t' (toward k' k'')).find k' = (x, k') ↔
        (c' (toward k' k'')).find k' = (x, k')) := by
    intro k'' c' t' h
    by_cases hb : toward k' k'' = toward k k''
    · rw [hb, update_self]
      exact h
    · rw [update_of_ne hb]
  refine hat.setBelow_induction hd
    (motive := fun t t' => t'.find k' = (x, k') ↔ t.find k' = (x, k')) ?_ ?_
  · exact hupdate hsame
  · intro x k'' c' t' _ _ _ ih
    exact hupdate ih

/-- An inner node stays on the paths it is on, if that is so below `p`. -/
theorem At.setBelow {kx : K} {cx : Bool → ExtTree α K} (h : At k' t (node x kx cx))
    (hat : At k t (node p kp c)) (hd : t.Distinct)
    (hsub : At k' (c (toward k kp)) (node x kx cx) → ∃ cx', At k' sub (node x kx cx')) :
    ∃ cx', At k' (t.setBelow p k sub) (node x kx cx') := by
  have hupdate : ∀ {y k''} {c' : Bool → ExtTree α K} {t'},
      (At k' (c' (toward k k'')) (node x kx cx) → ∃ cx', At k' t' (node x kx cx')) →
      At k' (node y k'' c') (node x kx cx) →
      ∃ cx', At k' (node y k'' (update c' (toward k k'') t')) (node x kx cx') := by
    intro y k'' c' t' ht' h
    cases h with
    | here => exact ⟨_, .here⟩
    | down h =>
      by_cases hb : toward k' k'' = toward k k''
      · rw [hb] at h
        obtain ⟨cx', h'⟩ := ht' h
        refine ⟨cx', .down ?_⟩
        rw [hb, update_self]
        exact h'
      · refine ⟨cx, .down ?_⟩
        rw [update_of_ne hb]
        exact h
  refine hat.setBelow_induction hd (motive := fun t t' =>
    At k' t (node x kx cx) → ∃ cx', At k' t' (node x kx cx')) ?_ ?_ h
  · exact hupdate hsub
  · intro y k'' c' t' _ _ _ ih
    exact hupdate ih

/-- A search that passes below `p` comes to the subtree. -/
theorem At.setBelow_below (h : At k' t (node p kp c)) (hat : At k t (node p kp c))
    (hd : t.Distinct) (hk : toward k' kp = toward k kp) : At k' (t.setBelow p k sub) sub := by
  refine hat.setBelow_induction hd
    (motive := fun t t' => At k' t (node p kp c) → At k' t' sub) ?_ ?_ h
  · rintro -
    refine .down ?_
    rw [hk, update_self]
    exact .here
  · intro y k'' c' t' hd' hy hat' ih h
    cases h with
    | here => exact (hy rfl).elim
    | down h =>
      by_cases hb : toward k' k'' = toward k k''
      · rw [hb] at h
        refine .down ?_
        rw [hb, update_self]
        exact ih h
      · -- `p` is not on both sides
        have hp := h.mem (.inl rfl : (node p kp c).Mem p)
        rw [Bool.eq_not_of_ne hb] at hp
        exact (hd'.2.1 _ _ (hat'.mem (.inl rfl)) hp).elim

end ExtTree

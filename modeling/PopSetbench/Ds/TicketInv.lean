import PopSetbench.Ds.Ticket

/-!
# The ticket tree: the invariant

The invariant is about runs in which the locks do what they are for: whoever takes a half finds the
pointer it guards as it was read (`Sound`). In such runs the nodes form an external search tree.

An inner node whose lock is that of a removed node does not change any more. So what a search knows
of an inner node it has come to (`Leads`) is that the node is on the path of the key now, or that it
is removed and its children, as they will be for good, lead on. Whoever has got a half of the lock
of a node thereby knows that it is the former.
-/

namespace PopSetbench
namespace Ticket

open Function
open ExtTree (At Mem IsLeaf IsNode Rep Ordered Distinct)

variable {α ι K V : Type}

/-- The half of a lock that guards the pointer that was followed. -/
def Edge.half (e : Edge α) : Option (α × Bool) :=
  e.node.map fun x => (x, e.right)

/-- The half of a lock that a thread has taken. -/
def Pc.holds : Pc α K V → Option (α × Bool)
  | .compare _ _ pred _ _ _ => pred.half
  | .initNode _ _ pred _ _ _ _ => pred.half
  | .storeChild _ _ pred _ _ _ => pred.half
  | .lockBoth _ ppred _ _ => ppred.half
  | .loadSibling _ ppred _ _ => ppred.half
  | .splice _ ppred _ _ _ => ppred.half
  | .unlock e _ => e.half
  | .storeVersion e _ _ => e.half
  | .revert _ ppred _ => ppred.half
  | .storeTicket _ ppred _ _ => ppred.half
  | _ => none

/-- The thread has allocated the node and not yet linked it. -/
def Pc.New (x : α) : Pc α K V → Prop
  | .newNode _ _ _ _ nn => x = nn
  | .lockPred _ _ _ _ nn nr => x = nn ∨ x = nr
  | .compare _ _ _ _ nn nr => x = nn ∨ x = nr
  | .initNode _ _ _ _ nn nr _ => x = nn ∨ x = nr
  | .storeChild _ _ _ _ nn nr => x = nn ∨ x = nr
  | _ => False

/-- Nobody has the node for itself alone. -/
def Met (s : State α ι K V) (x : α) : Prop :=
  s.allocated x = true ∧ ∀ q, ¬ (s.pc q).New x

/-- The node has children. -/
def Inner (s : State α ι K V) (x : α) : Prop :=
  s.child x false ≠ none

section

variable [LinearOrder K] (cfg : Config α K) (s : State α ι K V)

/-- The key lies between the sentinels. -/
def UserKey (key : K) : Prop :=
  cfg.keyMin < key ∧ key < cfg.keyMax

/-- The tree the nodes form. -/
structure IsTree (t : ExtTree α K) : Prop where
  rep : t.Rep s.heap
  top : ∃ c, t = .node cfg.root cfg.keyMax c
  min : t.IsLeaf cfg.min cfg.keyMin
  max : t.IsLeaf cfg.max cfg.keyMax
  ordered : t.Ordered
  distinct : t.Distinct
  met : ∀ x, t.Mem x → Met s x
  /-- The values are in the leaves with user keys. -/
  leaf : ∀ x k, t.IsLeaf x k → UserKey cfg k → ∃ v, s.val x = some v
  node : ∀ x, t.IsNode x → s.val x = none

/-- A search for `key` passes the node. -/
def OnPath (key : K) (x : α) : Prop :=
  ∃ t, IsTree cfg s t ∧ ∃ u, At key t u ∧ u.root = x

/-- The inner node is on the path of `key`, or it is removed and what its child is known to be
leads on. -/
inductive Leads (Q : α → Prop) (key : K) : α → Prop
  | alive {x : α} (h : OnPath cfg s key x) : Leads Q key x
  | dead {x : α} (hx : s.lock x = .removed)
      (hq : ∀ y, s.child x (toward key (s.key x)) = some y → Met s y ∧ Q y)
      (hl : ∀ y, s.child x (toward key (s.key x)) = some y → Inner s y → Leads Q key y) :
      Leads Q key x

/-- A search for `key` has come to the node. -/
def Seen (key : K) (x : α) : Prop :=
  Met s x ∧ (Inner s x → Leads cfg s (fun _ => True) key x)

/-- The edge was followed by a search for `key`. -/
def EdgeOk (key : K) (e : Edge α) : Prop :=
  ∃ x, e.node = some x ∧ Seen cfg s key x ∧ Inner s x ∧ e.right = toward key (s.key x)

/-- The node of the edge was in the tree. -/
def EdgeMet (e : Edge α) : Prop :=
  ∃ x, e.node = some x ∧ Met s x ∧ Inner s x

/-- The pointer that was followed holds this. -/
def Points (e : Edge α) (y : Option α) : Prop :=
  ∀ x, e.node = some x → s.child x e.right = y

/-- The node is a leaf. -/
def Leaf (x : α) : Prop :=
  Met s x ∧ ¬ Inner s x

/-- `nn` has been initialised. -/
structure NewLeaf (key : K) (val : V) (nn : α) : Prop where
  allocated : s.allocated nn = true
  child : ∀ right, s.child nn right = none
  key : s.key nn = key
  val : s.val nn = some val

/-- `nr` has been allocated. -/
structure NewNode (nn nr : α) : Prop where
  allocated : s.allocated nr = true
  ne : nr ≠ nn
  val : s.val nr = none

/-- What is known of the nodes an insertion works with. -/
structure InsertOk (key : K) (pred : Edge α) (curr : α) : Prop where
  user : UserKey cfg key
  edge : EdgeOk cfg s key pred
  leaf : Leaf s curr
  ne : s.key curr ≠ key

/-- What is known of the nodes a deletion works with. -/
structure DeleteOk (key : K) (ppred pred : Edge α) (curr : α) : Prop where
  user : UserKey cfg key
  pedge : EdgeOk cfg s key ppred
  edge : EdgeOk cfg s key pred
  leaf : Leaf s curr
  key_eq : s.key curr = key

/-- What a thread knows, by where it is. -/
def Knows : Pc α K V → Prop
  | .start op _ _ => UserKey cfg op.key
  | .findLeft key x => UserKey cfg key ∧ Seen cfg s key x
  | .findKey key x => UserKey cfg key ∧ Seen cfg s key x ∧ Inner s x
  | .findChild key x right => UserKey cfg key ∧ Seen cfg s key x ∧ Inner s x ∧
    right = toward key (s.key x)
  | .findTest key x => UserKey cfg key ∧ Leaf s x
  | .loadVer u _ pred x => UserKey cfg u.key ∧ Seen cfg s u.key x ∧ Inner s x ∧
    (EdgeOk cfg s u.key pred ∨ x = cfg.root)
  | .readKey u ppred pred => UserKey cfg u.key ∧
    (∃ x, pred.node = some x ∧ Seen cfg s u.key x ∧ Inner s x) ∧
    (EdgeOk cfg s u.key ppred ∨ pred.node = some cfg.root)
  | .loadChild u ppred pred => UserKey cfg u.key ∧ EdgeOk cfg s u.key pred ∧
    (EdgeOk cfg s u.key ppred ∨ pred.node = some cfg.root)
  -- below the root there is an inner node or the leaf with the least key
  | .loadLeft u ppred pred x => UserKey cfg u.key ∧ EdgeOk cfg s u.key pred ∧
    Seen cfg s u.key x ∧ (EdgeOk cfg s u.key ppred ∨ (¬ Inner s x → s.key x ≠ u.key))
  | .testKey u ppred pred x => UserKey cfg u.key ∧ EdgeOk cfg s u.key pred ∧ Leaf s x ∧
    (EdgeOk cfg s u.key ppred ∨ s.key x ≠ u.key)
  | .endVal _ x => Leaf s x
  | .readVal _ x => Leaf s x
  | .newLeaf key _ pred curr => InsertOk cfg s key pred curr
  | .newNode key val pred curr nn => InsertOk cfg s key pred curr ∧ NewLeaf s key val nn
  | .lockPred key val pred curr nn nr => InsertOk cfg s key pred curr ∧
    NewLeaf s key val nn ∧ NewNode s nn nr
  | .compare key val pred curr nn nr => InsertOk cfg s key pred curr ∧
    NewLeaf s key val nn ∧ NewNode s nn nr ∧ Points s pred (some curr)
  | .initNode key val pred curr nn nr less => InsertOk cfg s key pred curr ∧
    NewLeaf s key val nn ∧ NewNode s nn nr ∧ Points s pred (some curr) ∧
    less = decide (key < s.key curr)
  | .storeChild key val pred curr nn nr => InsertOk cfg s key pred curr ∧
    NewLeaf s key val nn ∧ NewNode s nn nr ∧ Points s pred (some curr) ∧
    ∃ less, less = decide (key < s.key curr) ∧
      s.key nr = (bif less then s.key curr else key) ∧
      ∀ right, s.child nr right = some (bif right == less then curr else nn)
  | .lockPpred key ppred pred curr => DeleteOk cfg s key ppred pred curr
  | .lockBoth key ppred pred curr => DeleteOk cfg s key ppred pred curr ∧
    Points s ppred pred.node
  | .loadSibling key ppred pred curr => DeleteOk cfg s key ppred pred curr ∧
    Points s ppred pred.node ∧ Points s pred (some curr) ∧
    ∀ p, pred.node = some p → s.lock p = .removed
  | .splice key ppred pred curr sibling => DeleteOk cfg s key ppred pred curr ∧
    Points s ppred pred.node ∧ Points s pred (some curr) ∧
    ∀ p, pred.node = some p → s.lock p = .removed ∧ s.child p (!pred.right) = sibling
  | .unlock e (.inserted _ _) => EdgeMet s e
  | .unlock e (.deleted _ pred curr) => EdgeMet s e ∧ EdgeMet s pred ∧ Leaf s curr
  | .storeVersion e v (.inserted _ _) => EdgeMet s e ∧
    ∀ x, e.node = some x → ((s.lock x).lr e.right).version = v
  | .storeVersion e v (.deleted _ pred curr) => EdgeMet s e ∧
    (∀ x, e.node = some x → ((s.lock x).lr e.right).version = v) ∧ EdgeMet s pred ∧ Leaf s curr
  | .revert key ppred _ => UserKey cfg key ∧ EdgeMet s ppred
  | .storeTicket key ppred _ v => UserKey cfg key ∧ EdgeMet s ppred ∧
    ∀ x, ppred.node = some x → ((s.lock x).lr ppred.right).ticket = v
  | .retireCurr _ pred curr => EdgeMet s pred ∧ Leaf s curr
  | .retirePred _ pred curr => EdgeMet s pred ∧ Leaf s curr
  | .dealloc key _ _ _ _ => UserKey cfg key
  | .endRetry u _ _ => UserKey cfg u.key
  | _ => True

/-- **The invariant.** -/
structure Inv : Prop where
  tree : ∃ t, IsTree cfg s t
  /-- A node that is not yet linked belongs to one thread. -/
  own : ∀ q q' x, (s.pc q).New x → (s.pc q').New x → q = q'
  /-- A half that was taken shows it. -/
  taken : ∀ q x d, (s.pc q).holds = some (x, d) → ∃ v, (s.lock x).lr d = ⟨v, v + 1⟩
  /-- Only one thread has it. -/
  excl : ∀ q q' x d, (s.pc q).holds = some (x, d) → (s.pc q').holds = some (x, d) → q = q'
  knows : ∀ q, Knows cfg s (s.pc q)

variable [DecidableEq α] in
/-- The locks do what they are for: a half is taken only if the pointer it guards is as it was
read. -/
def Sound (s : State α ι K V) (a : ι × Event α K V) : Prop :=
  match s.pc a.1 with
  | .lockPred _ _ pred curr _ _ => ∀ p, pred.node = some p →
    (s.lock p).trylockVersion pred.ver pred.right ≠ none → s.child p pred.right = some curr
  | .lockPpred _ ppred pred _ => ∀ g, ppred.node = some g →
    (s.lock g).trylockVersion ppred.ver ppred.right ≠ none → s.child g ppred.right = pred.node
  | .lockBoth _ _ pred curr => ∀ p, pred.node = some p →
    (s.lock p).trylockVersionBoth pred.ver ≠ none → s.child p pred.right = some curr
  | _ => True

variable [DecidableEq α] in
instance decidableSound (s : State α ι K V) (a : ι × Event α K V) : Decidable (Sound s a) := by
  unfold Sound
  split <;> infer_instance

end

/-! ### The tree -/

section

variable [LinearOrder K] {cfg : Config α K} {s s' : State α ι K V} {t t' u : ExtTree α K}
  {key : K} {x y : α}

theorem IsTree.unique (h : IsTree cfg s t) (h' : IsTree cfg s t') : t = t' := by
  obtain ⟨c, hc⟩ := h.top
  obtain ⟨c', hc'⟩ := h'.top
  refine h.rep.unique h'.rep ?_
  rw [hc, hc']
  rfl

theorem IsTree.onPath_iff (h : IsTree cfg s t) :
    OnPath cfg s key x ↔ ∃ u, At key t u ∧ u.root = x := by
  constructor
  · rintro ⟨t', h', u, hu⟩
    obtain rfl := h.unique h'
    exact ⟨u, hu⟩
  · exact fun hu => ⟨t, h, hu⟩

/-- What a search passes is a leaf or has two children. -/
theorem IsTree.at_leaf (h : IsTree cfg s t) (hu : At key t u) (hr : u.root = x)
    (hx : ¬ Inner s x) : u = .leaf x (s.key x) := by
  have hrep := hu.rep h.rep
  cases u with
  | leaf y k =>
    obtain rfl : y = x := hr
    rw [show s.key y = k from hrep.1]
  | node y k c =>
    obtain rfl : y = x := hr
    have hc := (hrep.2 false).1
    exact (hx fun hn => Option.some_ne_none _ (hc.symm.trans hn)).elim

theorem IsTree.at_node (h : IsTree cfg s t) (hu : At key t u) (hr : u.root = x)
    (hx : Inner s x) : ∃ c, u = .node x (s.key x) c := by
  have hrep := hu.rep h.rep
  cases u with
  | leaf y k =>
    obtain rfl : y = x := hr
    exact (hx (hrep.2 false)).elim
  | node y k c =>
    obtain rfl : y = x := hr
    exact ⟨c, by rw [show s.key y = k from hrep.1]⟩

theorem OnPath.met (h : OnPath cfg s key x) : Met s x := by
  obtain ⟨t, ht, u, hu, rfl⟩ := h
  exact ht.met _ (hu.mem (ExtTree.mem_root u))

/-- The path goes on. -/
theorem OnPath.step (h : OnPath cfg s key x)
    (hy : s.child x (toward key (s.key x)) = some y) : OnPath cfg s key y := by
  obtain ⟨t, ht, u, hu, rfl⟩ := h
  have hrep := hu.rep ht.rep
  cases u with
  | leaf z k =>
    have hnone : s.child z _ = none := hrep.2 (toward key (s.key z))
    cases hnone.symm.trans hy
  | node z k c =>
    obtain rfl : s.key z = k := hrep.1
    have hroot := Option.some.inj ((hrep.2 _).1.symm.trans hy)
    exact ⟨t, ht, _, hu.step, hroot⟩

/-- It begins at the top. -/
theorem IsTree.onPath_root (h : IsTree cfg s t) : OnPath cfg s key cfg.root := by
  obtain ⟨c, rfl⟩ := h.top
  exact ⟨_, h, _, .here, rfl⟩

theorem IsTree.inner_root (h : IsTree cfg s t) : Inner s cfg.root := by
  obtain ⟨c, rfl⟩ := h.top
  intro hn
  exact Option.some_ne_none _ ((h.rep.2 false).1.symm.trans hn)

theorem IsTree.key_root (h : IsTree cfg s t) : s.key cfg.root = cfg.keyMax := by
  obtain ⟨c, rfl⟩ := h.top
  exact h.rep.1

/-- A leaf right below the root has a key that is no user key. -/
theorem IsTree.key_below_root (h : IsTree cfg s t) (hk : UserKey cfg key)
    (hy : s.child cfg.root (toward key cfg.keyMax) = some y) (hl : ¬ Inner s y) :
    s.key y ≠ key := by
  obtain ⟨c, rfl⟩ := h.top
  have hleft : toward key cfg.keyMax = false := decide_eq_false (not_le.mpr hk.2)
  have hroot := Option.some.inj ((h.rep.2 _).1.symm.trans hy)
  have hat : At key (.node cfg.root cfg.keyMax c) (c (toward key cfg.keyMax)) := .down .here
  have hleaf := h.at_leaf hat hroot hl
  rw [hleft] at hleaf
  -- the leaf with the least key is on this side
  have hmin : (c false).IsLeaf cfg.min cfg.keyMin := by
    rcases h.min with h₀ | ⟨b, hb⟩
    · exact h₀.elim
    · have hlt : toward cfg.keyMin cfg.keyMax = false :=
        decide_eq_false (not_le.mpr (hk.1.trans hk.2))
      obtain rfl : false = b := hlt.symm.trans ((h.ordered b).1 _ (IsLeaf.hasKey hb))
      exact hb
  rw [hleaf] at hmin
  rw [← hmin.2]
  exact hk.1.ne

end

/-! ### What the others see of a step -/

section

variable {s s' : State α ι K V} {key : K} {x y : α} {e : Edge α}

/-- What the pointer holds that is guarded by what another thread has locked. -/
theorem Points.mono {o : Option α} (hheld : ∀ x d, e.half = some (x, d) →
    s'.child x d = s.child x d ∧ (s'.lock x).lr d = (s.lock x).lr d) (h : Points s e o) :
    Points s' e o := by
  intro x hx
  have hhalf : e.half = some (x, e.right) := by rw [Edge.half, hx]; rfl
  exact (hheld x e.right hhalf).1.trans (h x hx)

theorem NewLeaf.mono {val : V} (hfresh : s.allocated x = true →
    s'.child x = s.child x ∧ s'.key x = s.key x ∧ s'.val x = s.val x ∧ s'.allocated x = true)
    (h : NewLeaf s key val x) : NewLeaf s' key val x := by
  obtain ⟨hc, hk, hv, ha⟩ := hfresh h.allocated
  refine ⟨ha, fun right => ?_, hk.trans h.key, hv.trans h.val⟩
  rw [hc]
  exact h.child right

theorem NewNode.mono (hfresh : s.allocated y = true →
    s'.child y = s.child y ∧ s'.key y = s.key y ∧ s'.val y = s.val y ∧ s'.allocated y = true)
    (h : NewNode s x y) : NewNode s' x y := by
  obtain ⟨-, -, hv, ha⟩ := hfresh h.allocated
  exact ⟨ha, h.ne, hv.trans h.val⟩

end

section

variable [LinearOrder K]

/-- What a step of thread `t` leaves of what the others know. -/
structure Change (cfg : Config α K) (s s' : State α ι K V) (t : ι) : Prop where
  pcs : ∀ q, q ≠ t → s'.pc q = s.pc q
  met : ∀ x, Met s x → Met s' x
  key : ∀ x, Met s x → s'.key x = s.key x
  val : ∀ x, Met s x → s'.val x = s.val x
  inner : ∀ x, Met s x → (Inner s' x ↔ Inner s x)
  /-- A removed node does not change. -/
  dead : ∀ x, Met s x → s.lock x = .removed → s'.lock x = .removed ∧ s'.child x = s.child x
  /-- An inner node stays on its paths, or it is spliced out and its children stay on them. -/
  path : ∀ k x, OnPath cfg s k x → Inner s x → OnPath cfg s' k x ∨
    (s.lock x = .removed ∧
      ∀ y, s.child x (toward k (s.key x)) = some y → Inner s y → OnPath cfg s' k y)
  /-- What another thread has locked does not change. -/
  held : ∀ q, q ≠ t → ∀ x d, (s.pc q).holds = some (x, d) →
    s'.child x d = s.child x d ∧ (s'.lock x).lr d = (s.lock x).lr d
  /-- Nor do the new nodes of another thread. -/
  fresh : ∀ q, q ≠ t → ∀ x, (s.pc q).New x → s.allocated x = true →
    s'.child x = s.child x ∧ s'.key x = s.key x ∧ s'.val x = s.val x ∧ s'.allocated x = true

variable {cfg : Config α K} {s s' : State α ι K V} {t q : ι} {key : K} {x y : α} {e : Edge α}
  {Q Q' : α → Prop}

/-- **What is known of the way of a search survives.** -/
theorem Leads.mono (c : Change cfg s s' t) (hQ : ∀ y, Met s y → Q y → Q' y)
    (hon : ∀ y, OnPath cfg s key y → Q' y) (h : Leads cfg s Q key x) (hm : Met s x)
    (hx : Inner s x) : Leads cfg s' Q' key x := by
  induction h with
  | @alive x h =>
    rcases c.path key x h hx with h' | ⟨hr, hc⟩
    · exact .alive h'
    · -- spliced out: its children, which were on the path, are what remains
      obtain ⟨hr', hchild⟩ := c.dead x hm hr
      refine .dead hr' ?_ ?_
      · intro y hy
        rw [hchild, c.key x hm] at hy
        have hon' := h.step hy
        exact ⟨c.met y hon'.met, hon y hon'⟩
      · intro y hy hyi
        rw [hchild, c.key x hm] at hy
        have hon' := h.step hy
        exact .alive (hc y hy ((c.inner y hon'.met).mp hyi))
  | @dead x hr hq _ ih =>
    obtain ⟨hr', hchild⟩ := c.dead x hm hr
    refine .dead hr' ?_ ?_
    · intro y hy
      rw [hchild, c.key x hm] at hy
      obtain ⟨hmy, hqy⟩ := hq y hy
      exact ⟨c.met y hmy, hQ y hmy hqy⟩
    · intro y hy hyi
      rw [hchild, c.key x hm] at hy
      obtain ⟨hmy, -⟩ := hq y hy
      have hyi := (c.inner y hmy).mp hyi
      exact ih y hy hyi hmy hyi

theorem Seen.mono (c : Change cfg s s' t) (h : Seen cfg s key x) : Seen cfg s' key x := by
  refine ⟨c.met x h.1, fun hx => ?_⟩
  have hx := (c.inner x h.1).mp hx
  exact (h.2 hx).mono c (fun _ _ _ => trivial) (fun _ _ => trivial) h.1 hx

theorem EdgeOk.mono (c : Change cfg s s' t) (h : EdgeOk cfg s key e) : EdgeOk cfg s' key e := by
  obtain ⟨x, hx, hs, hi, hr⟩ := h
  refine ⟨x, hx, hs.mono c, (c.inner x hs.1).mpr hi, ?_⟩
  rw [c.key x hs.1]
  exact hr

theorem EdgeOk.met (h : EdgeOk cfg s key e) : EdgeMet s e := by
  obtain ⟨x, hx, hs, hi, -⟩ := h
  exact ⟨x, hx, hs.1, hi⟩

theorem EdgeMet.mono (c : Change cfg s s' t) (h : EdgeMet s e) : EdgeMet s' e := by
  obtain ⟨x, hx, hm, hi⟩ := h
  exact ⟨x, hx, c.met x hm, (c.inner x hm).mpr hi⟩

theorem Leaf.mono (c : Change cfg s s' t) (h : Leaf s x) : Leaf s' x :=
  ⟨c.met x h.1, fun hx => h.2 ((c.inner x h.1).mp hx)⟩

theorem InsertOk.mono (c : Change cfg s s' t) (h : InsertOk cfg s key e x) :
    InsertOk cfg s' key e x where
  user := h.user
  edge := h.edge.mono c
  leaf := h.leaf.mono c
  ne := by
    rw [c.key x h.leaf.1]
    exact h.ne

theorem DeleteOk.mono {e' : Edge α} (c : Change cfg s s' t) (h : DeleteOk cfg s key e' e x) :
    DeleteOk cfg s' key e' e x where
  user := h.user
  pedge := h.pedge.mono c
  edge := h.edge.mono c
  leaf := h.leaf.mono c
  key_eq := (c.key x h.leaf.1).trans h.key_eq

/-- What the pointers of a removed node hold. -/
theorem Points.mono_dead {o : Option α} (c : Change cfg s s' t) (he : EdgeMet s e)
    (hr : ∀ p, e.node = some p → s.lock p = .removed) (h : Points s e o) : Points s' e o := by
  intro x hx
  obtain ⟨x', hx', hm, -⟩ := he
  obtain rfl := Option.some.inj (hx.symm.trans hx')
  rw [(c.dead x hm (hr x hx)).2]
  exact h x hx

/-- **What another thread knows survives.** -/
theorem Knows.mono {p : Pc α K V} (c : Change cfg s s' t)
    (hheld : ∀ x d, p.holds = some (x, d) →
      s'.child x d = s.child x d ∧ (s'.lock x).lr d = (s.lock x).lr d)
    (hfresh : ∀ x, p.New x → s.allocated x = true →
      s'.child x = s.child x ∧ s'.key x = s.key x ∧ s'.val x = s.val x ∧ s'.allocated x = true)
    (h : Knows cfg s p) : Knows cfg s' p := by
  -- whether a node is inner or a leaf does not change while it can be met
  have hinner : ∀ {key x}, Seen cfg s key x → Inner s x → Inner s' x := fun hs hi =>
    (c.inner _ hs.1).mpr hi
  -- nor does a version that is held
  have hversion : ∀ {e : Edge α} {v : BitVec 16}, (∀ x d, e.half = some (x, d) →
      s'.child x d = s.child x d ∧ (s'.lock x).lr d = (s.lock x).lr d) →
      (∀ x, e.node = some x → ((s.lock x).lr e.right).version = v) →
      ∀ x, e.node = some x → ((s'.lock x).lr e.right).version = v := by
    intro e v hheld hv x hx
    have hhalf : e.half = some (x, e.right) := by rw [Edge.half, hx]; rfl
    rw [(hheld x e.right hhalf).2]
    exact hv x hx
  cases p with
  | start op ppred pred => exact h
  -- a walk holds no lock: keys and shape are all that it relies on
  | findLeft key x => exact ⟨h.1, h.2.mono c⟩
  | findKey key x => exact ⟨h.1, h.2.1.mono c, hinner h.2.1 h.2.2⟩
  | findChild key x right =>
    obtain ⟨hu, hs, hi, hr⟩ := h
    refine ⟨hu, hs.mono c, hinner hs hi, ?_⟩
    rw [c.key x hs.1]
    exact hr
  | findTest key x => exact ⟨h.1, h.2.mono c⟩
  | loadVer u ppred pred x =>
    -- an update remembers the half edges it came by, with the versions it read
    obtain ⟨hu, hs, hi, hp⟩ := h
    exact ⟨hu, hs.mono c, hinner hs hi, hp.imp_left fun h => h.mono c⟩
  | readKey u ppred pred =>
    obtain ⟨hu, ⟨x, hx, hs, hi⟩, hp⟩ := h
    exact ⟨hu, ⟨x, hx, hs.mono c, hinner hs hi⟩, hp.imp_left fun h => h.mono c⟩
  | loadChild u ppred pred =>
    obtain ⟨hu, he, hp⟩ := h
    exact ⟨hu, he.mono c, hp.imp_left fun h => h.mono c⟩
  | loadLeft u ppred pred x =>
    obtain ⟨hu, he, hs, hp⟩ := h
    refine ⟨hu, he.mono c, hs.mono c, hp.imp (fun h => h.mono c) fun h hx => ?_⟩
    rw [c.key x hs.1]
    exact h fun hi => hx (hinner hs hi)
  | testKey u ppred pred x =>
    obtain ⟨hu, he, hl, hp⟩ := h
    refine ⟨hu, he.mono c, hl.mono c, hp.imp (fun h => h.mono c) fun h => ?_⟩
    rw [c.key x hl.1]
    exact h
  | endVal op x => exact Leaf.mono c h
  | readVal op x => exact Leaf.mono c h
  -- the leaf was met, so its key and its value stay
  | newLeaf key val pred x => exact InsertOk.mono c h
  -- new nodes are the thread's own, and `hfresh` says that nobody writes to them
  | newNode key val pred x a => exact ⟨h.1.mono c, h.2.mono (hfresh a rfl)⟩
  | lockPred key val pred x a b =>
    obtain ⟨hi, ha, hb⟩ := h
    exact ⟨hi.mono c, ha.mono (hfresh a (.inl rfl)), hb.mono (hfresh b (.inr rfl))⟩
  | compare key val pred x a b =>
    -- the lock of `pred` is held, so its child does not change either
    obtain ⟨hi, ha, hb, hp⟩ := h
    exact ⟨hi.mono c, ha.mono (hfresh a (.inl rfl)), hb.mono (hfresh b (.inr rfl)),
      hp.mono hheld⟩
  | initNode key val pred x a b less =>
    obtain ⟨hi, ha, hb, hp, hless⟩ := h
    refine ⟨hi.mono c, ha.mono (hfresh a (.inl rfl)), hb.mono (hfresh b (.inr rfl)),
      hp.mono hheld, ?_⟩
    rw [c.key x hi.leaf.1]
    exact hless
  | storeChild key val pred x a b =>
    obtain ⟨hi, ha, hb, hp, less, hless, hkb, hcb⟩ := h
    obtain ⟨hcb', hkb', -, -⟩ := hfresh b (.inr rfl) hb.allocated
    refine ⟨hi.mono c, ha.mono (hfresh a (.inl rfl)), hb.mono (hfresh b (.inr rfl)),
      hp.mono hheld, less, ?_, ?_, ?_⟩
    · rw [c.key x hi.leaf.1]
      exact hless
    · rw [hkb', c.key x hi.leaf.1]
      exact hkb
    · rw [hcb']
      exact hcb
  -- before its first lock `deleteKey` knows only what it has met
  | lockPpred key ppred pred x => exact DeleteOk.mono c h
  | lockBoth key ppred pred x => exact ⟨h.1.mono c, h.2.mono hheld⟩
  | loadSibling key ppred pred x =>
    -- `pred` is removed: it has both of its children for good
    obtain ⟨hd, hg, hp, hr⟩ := h
    refine ⟨hd.mono c, hg.mono hheld, hp.mono_dead c hd.edge.met hr, fun p hpp => ?_⟩
    obtain ⟨p', hp', hm, -⟩ := hd.edge.met
    obtain rfl := Option.some.inj (hpp.symm.trans hp')
    exact (c.dead p hm (hr p hpp)).1
  | splice key ppred pred x y =>
    obtain ⟨hd, hg, hp, hr⟩ := h
    refine ⟨hd.mono c, hg.mono hheld, hp.mono_dead c hd.edge.met fun p hp => (hr p hp).1,
      fun p hpp => ?_⟩
    obtain ⟨p', hp', hm, -⟩ := hd.edge.met
    obtain rfl := Option.some.inj (hpp.symm.trans hp')
    obtain ⟨hrem, hsib⟩ := hr p hpp
    obtain ⟨hrem', hchild⟩ := c.dead p hm hrem
    refine ⟨hrem', ?_⟩
    rw [hchild]
    exact hsib
  | unlock e k =>
    -- what is left to do concerns nodes that were met and locks that are held
    cases k with
    | inserted key val => exact EdgeMet.mono c h
    | deleted key pred x => exact ⟨h.1.mono c, h.2.1.mono c, h.2.2.mono c⟩
  | storeVersion e v k =>
    cases k with
    | inserted key val => exact ⟨h.1.mono c, hversion hheld h.2⟩
    | deleted key pred x =>
      exact ⟨h.1.mono c, hversion hheld h.2.1, h.2.2.1.mono c, h.2.2.2.mono c⟩
  -- the first lock is given back with the version it was taken with
  | revert key ppred pred => exact ⟨h.1, h.2.mono c⟩
  | storeTicket key ppred pred v =>
    obtain ⟨hu, he, hv⟩ := h
    refine ⟨hu, he.mono c, fun x hx => ?_⟩
    have hhalf : ppred.half = some (x, ppred.right) := by rw [Edge.half, hx]; rfl
    rw [(hheld x ppred.right hhalf).2]
    exact hv x hx
  | retireCurr key pred x => exact ⟨h.1.mono c, h.2.mono c⟩
  | retirePred key pred x => exact ⟨h.1.mono c, h.2.mono c⟩
  | dealloc key val pred a b => exact h
  | endRetry u ppred pred => exact h
  | idle => trivial
  | endOp op r => trivial
  | ret op r => trivial

end

/-! ### The invariant is kept -/

section

variable [LinearOrder K] {cfg : Config α K} {s s' : State α ι K V} {t q : ι} {key : K} {x y : α}
  {d : Bool} {p : Pc α K V}

/-- What is locked is an inner node. -/
theorem Knows.met_of_holds (h : Knows cfg s p) (hp : p.holds = some (x, d)) :
    Met s x ∧ Inner s x := by
  have hedge : ∀ {e : Edge α}, EdgeMet s e → e.half = some (x, d) → Met s x ∧ Inner s x := by
    rintro e ⟨y, hy, hm, hi⟩ he
    rw [Edge.half, hy] at he
    obtain ⟨rfl, -⟩ := Prod.mk.inj (Option.some.inj he)
    exact ⟨hm, hi⟩
  cases p with
  | compare key val pred y a b => exact hedge h.1.edge.met hp
  | initNode key val pred y a b less => exact hedge h.1.edge.met hp
  | storeChild key val pred y a b => exact hedge h.1.edge.met hp
  | lockBoth key ppred pred y => exact hedge h.1.pedge.met hp
  | loadSibling key ppred pred y => exact hedge h.1.pedge.met hp
  | splice key ppred pred y z => exact hedge h.1.pedge.met hp
  | unlock e k =>
    cases k with
    | inserted key val => exact hedge h hp
    | deleted key pred y => exact hedge h.1 hp
  | storeVersion e v k =>
    cases k with
    | inserted key val => exact hedge h.1 hp
    | deleted key pred y => exact hedge h.1 hp
  | revert key ppred pred => exact hedge h.2 hp
  | storeTicket key ppred pred v => exact hedge h.2.1 hp
  | _ => cases hp

/-- New nodes are allocated. -/
theorem Knows.allocated_of_new (h : Knows cfg s p) (hx : p.New x) : s.allocated x = true := by
  cases p with
  | newNode key val pred y a =>
    obtain rfl : x = a := hx
    exact h.2.allocated
  | lockPred key val pred y a b =>
    rcases hx with rfl | rfl
    · exact h.2.1.allocated
    · exact h.2.2.allocated
  | compare key val pred y a b =>
    rcases hx with rfl | rfl
    · exact h.2.1.allocated
    · exact h.2.2.1.allocated
  | initNode key val pred y a b less =>
    rcases hx with rfl | rfl
    · exact h.2.1.allocated
    · exact h.2.2.1.allocated
  | storeChild key val pred y a b =>
    rcases hx with rfl | rfl
    · exact h.2.1.allocated
    · exact h.2.2.1.allocated
  | _ => exact hx.elim

omit [LinearOrder K] in
/-- The step makes no node one's own that was not or that existed. -/
theorem Met.mono (hpcs : ∀ q, q ≠ t → s'.pc q = s.pc q)
    (halloc : ∀ x, s.allocated x = true → s'.allocated x = true)
    (hnew : ∀ x, (s'.pc t).New x → (s.pc t).New x ∨ s.allocated x = false) (h : Met s x) :
    Met s' x := by
  refine ⟨halloc x h.1, fun q hq => ?_⟩
  by_cases ht : q = t
  · subst ht
    rcases hnew x hq with hq | hq
    · exact h.2 q hq
    · cases h.1.symm.trans hq
  · rw [hpcs q ht] at hq
    exact h.2 q hq

/-- **A step that leaves the tree as it is.** -/
theorem Change.quiet (inv : Inv cfg s) (pcs : ∀ q, q ≠ t → s'.pc q = s.pc q)
    (met : ∀ x, Met s x → Met s' x)
    (same : ∀ x, Met s x → s'.child x = s.child x ∧ s'.key x = s.key x ∧ s'.val x = s.val x)
    (dead : ∀ x, Met s x → s.lock x = .removed → s'.lock x = .removed)
    (held : ∀ q, q ≠ t → ∀ x d, (s.pc q).holds = some (x, d) →
      (s'.lock x).lr d = (s.lock x).lr d)
    (fresh : ∀ q, q ≠ t → ∀ x, (s.pc q).New x → s.allocated x = true →
      s'.child x = s.child x ∧ s'.key x = s.key x ∧ s'.val x = s.val x ∧ s'.allocated x = true) :
    Change cfg s s' t ∧ ∀ u, IsTree cfg s u → IsTree cfg s' u := by
  -- the tree is read off children, keys and values of nodes that are met
  have htree : ∀ u, IsTree cfg s u → IsTree cfg s' u := by
    intro u hu
    exact {
      rep := hu.rep.congr (fun y hy => (same y (hu.met y hy)).1)
        fun y hy => (same y (hu.met y hy)).2.1
      top := hu.top
      min := hu.min
      max := hu.max
      ordered := hu.ordered
      distinct := hu.distinct
      met := fun x hx => met x (hu.met x hx)
      leaf := by
        intro x k hx hk
        rw [(same x (hu.met x hx.mem)).2.2]
        exact hu.leaf x k hx hk
      node := by
        intro x hx
        rw [(same x (hu.met x hx.mem)).2.2]
        exact hu.node x hx }
  -- and so is all that another thread relies on
  refine ⟨?_, htree⟩
  exact {
    pcs := pcs
    met := met
    key := fun x hx => (same x hx).2.1
    val := fun x hx => (same x hx).2.2
    inner := by
      intro x hx
      unfold Inner
      rw [(same x hx).1]
    dead := fun x hx hr => ⟨dead x hx hr, (same x hx).1⟩
    path := by
      rintro k x ⟨u, hu, v, hv⟩ -
      exact .inl ⟨u, htree u hu, v, hv⟩
    held := by
      intro q hq x d hx
      obtain ⟨hm, -⟩ := (inv.knows q).met_of_holds hx
      refine ⟨?_, held q hq x d hx⟩
      rw [(same x hm).1]
    fresh := fresh }

/-- What is left to show of a step. -/
theorem Inv.of_change (inv : Inv cfg s) (c : Change cfg s s' t) (htree : ∃ u, IsTree cfg s' u)
    (hnew : ∀ x, (s'.pc t).New x → (s.pc t).New x ∨ s.allocated x = false)
    (htaken : ∀ x d, (s'.pc t).holds = some (x, d) → (∃ v, (s'.lock x).lr d = ⟨v, v + 1⟩) ∧
      ∀ q, q ≠ t → (s.pc q).holds ≠ some (x, d))
    (hknows : Knows cfg s' (s'.pc t)) : Inv cfg s' where
  tree := htree
  own := by
    -- a new node of the thread is no new node of another one
    have hother : ∀ q x, q ≠ t → (s'.pc t).New x → ¬ (s'.pc q).New x := by
      intro q x hq hx hx'
      rw [c.pcs q hq] at hx'
      rcases hnew x hx with h | h
      · exact hq (inv.own q t x hx' h)
      · cases ((inv.knows q).allocated_of_new hx').symm.trans h
    -- no two threads have the same new node
    intro q q' x hx hx'
    by_cases hq : q = t
    · subst hq
      by_contra hq'
      exact hother q' x (Ne.symm hq') hx hx'
    · by_cases hq' : q' = t
      · subst hq'
        exact (hother q x hq hx' hx).elim
      · rw [c.pcs q hq] at hx
        rw [c.pcs q' hq'] at hx'
        exact inv.own q q' x hx hx'
  -- who holds a half has taken its ticket
  taken := by
    intro q x d hx
    by_cases hq : q = t
    · subst hq
      exact (htaken x d hx).1
    · rw [c.pcs q hq] at hx
      rw [(c.held q hq x d hx).2]
      exact inv.taken q x d hx
  -- no two threads hold the same half
  excl := by
    intro q q' x d hx hx'
    by_cases hq : q = t
    · subst hq
      by_contra hq'
      have hq' := Ne.symm hq'
      rw [c.pcs q' hq'] at hx'
      exact (htaken x d hx).2 q' hq' hx'
    · rw [c.pcs q hq] at hx
      by_cases hq' : q' = t
      · subst hq'
        exact ((htaken x d hx').2 q hq hx).elim
      · rw [c.pcs q' hq'] at hx'
        exact inv.excl q q' x d hx hx'
  -- the acting thread shows what it knows, the others keep it
  knows := by
    intro q
    by_cases hq : q = t
    · subst hq
      exact hknows
    · rw [c.pcs q hq]
      exact (inv.knows q).mono c (c.held q hq) (c.fresh q hq)

/-- What the thread has taken the others have not. -/
theorem Inv.not_held (inv : Inv cfg s) (h : (s.pc t).holds = some (x, d)) (hq : q ≠ t) :
    (s.pc q).holds ≠ some (x, d) :=
  fun h' => hq (inv.excl q t x d h' h)

/-- What was free nobody has taken. -/
theorem Inv.not_held_of_free (inv : Inv cfg s) {v : BitVec 16} (h : (s.lock x).lr d = ⟨v, v⟩) :
    (s.pc q).holds ≠ some (x, d) := by
  intro hx
  obtain ⟨w, hw⟩ := inv.taken q x d hx
  exact Tl.free_ne_taken v w (h.symm.trans hw)

variable (cfg s s' t) in
/-- The invariant and the tree are kept. -/
structure Keeps : Prop where
  inv : Inv cfg s'
  change : Change cfg s s' t
  tree : ∀ u, IsTree cfg s u → IsTree cfg s' u

variable [DecidableEq ι]

/-- **The thread goes on without a store.** -/
theorem Inv.goto (inv : Inv cfg s) (hnew : ∀ x, p.New x → (s.pc t).New x)
    (hholds : p.holds = none ∨ p.holds = (s.pc t).holds) (hk : Knows cfg s p) :
    Keeps cfg s (s.goto t p) t := by
  have hpcs : ∀ q, q ≠ t → (s.goto t p).pc q = s.pc q := fun q hq => State.goto_pc_of_ne hq
  have hnew' : ∀ x, ((s.goto t p).pc t).New x → (s.pc t).New x ∨ s.allocated x = false := by
    intro x hx
    rw [State.goto_pc_self] at hx
    exact .inl (hnew x hx)
  obtain ⟨c, htree⟩ : Change cfg s (s.goto t p) t ∧
      ∀ u, IsTree cfg s u → IsTree cfg (s.goto t p) u := Change.quiet inv hpcs
    (fun x hx => hx.mono hpcs (fun _ h => h) hnew') (fun _ _ => ⟨rfl, rfl, rfl⟩)
    (fun _ _ h => h) (fun _ _ _ _ _ => rfl) fun _ _ _ _ h => ⟨rfl, rfl, rfl, h⟩
  obtain ⟨u, hu⟩ := inv.tree
  refine ⟨inv.of_change c ⟨u, htree u hu⟩ hnew' ?_ ?_, c, htree⟩
  · intro x d hx
    rw [State.goto_pc_self] at hx
    rcases hholds with h | h
    · cases h.symm.trans hx
    · rw [h] at hx
      exact ⟨inv.taken t x d hx, fun q hq => inv.not_held hx hq⟩
  · rw [State.goto_pc_self]
    exact hk.mono c (fun _ _ _ => ⟨rfl, rfl⟩) fun _ _ h => ⟨rfl, rfl, rfl, h⟩

variable [DecidableEq α]

/-- **A lock word is stored.** -/
theorem Inv.setLock {l : Tl} (inv : Inv cfg s) (hnew : ∀ x, p.New x → (s.pc t).New x)
    (hr : s.lock x ≠ .removed)
    (hheld : ∀ q d, q ≠ t → (s.pc q).holds = some (x, d) → l.lr d = (s.lock x).lr d)
    (htaken : ∀ y d, p.holds = some (y, d) →
      (∃ v, (((s.setLock x l).goto t p).lock y).lr d = ⟨v, v + 1⟩) ∧
        ∀ q, q ≠ t → (s.pc q).holds ≠ some (y, d))
    (hk : Change cfg s ((s.setLock x l).goto t p) t →
      Knows cfg ((s.setLock x l).goto t p) p) :
    Keeps cfg s ((s.setLock x l).goto t p) t := by
  have hpcs : ∀ q, q ≠ t → ((s.setLock x l).goto t p).pc q = s.pc q := fun q hq =>
    update_of_ne hq ..
  have hlock : ∀ y, y ≠ x → ((s.setLock x l).goto t p).lock y = s.lock y := fun y hy =>
    update_of_ne hy ..
  have hnew' : ∀ y, (((s.setLock x l).goto t p).pc t).New y →
      (s.pc t).New y ∨ s.allocated y = false := by
    intro y hy
    rw [State.goto_pc_self] at hy
    exact .inl (hnew y hy)
  -- the word belongs to no tree, so only the holders of its halves may notice
  obtain ⟨c, htree⟩ : Change cfg s ((s.setLock x l).goto t p) t ∧
      ∀ u, IsTree cfg s u → IsTree cfg ((s.setLock x l).goto t p) u := Change.quiet inv hpcs
    (fun y hy => hy.mono hpcs (fun _ h => h) hnew') (fun _ _ => ⟨rfl, rfl, rfl⟩)
    (fun y _ hyr => by
      have hy : y ≠ x := by
        rintro rfl
        exact hr hyr
      rw [hlock y hy]
      exact hyr)
    (fun q hq y d' hy => by
      by_cases hyx : y = x
      · subst hyx
        show (update s.lock y l y).lr d' = _
        rw [update_self]
        exact hheld q d' hq hy
      · rw [hlock y hyx])
    fun _ _ _ _ h => ⟨rfl, rfl, rfl, h⟩
  obtain ⟨u, hu⟩ := inv.tree
  refine ⟨inv.of_change c ⟨u, htree u hu⟩ hnew' ?_ ?_, c, htree⟩
  · intro y d' hy
    rw [State.goto_pc_self] at hy
    exact htaken y d' hy
  · rw [State.goto_pc_self]
    exact hk c

/-- **A node that is not in the tree changes**, one that is new or the thread's own. -/
theorem Inv.write {l : α → Tl} {ch : α → Bool → Option α} {ky : α → K} {vl : α → Option V}
    {al : α → Bool} (inv : Inv cfg s) (hx : s.allocated x = false ∨ (s.pc t).New x)
    (hs : s' = ⟨ch, ky, vl, l, al, update s.pc t p⟩)
    (hsame : ∀ y, y ≠ x → ch y = s.child y ∧ ky y = s.key y ∧ vl y = s.val y ∧
      l y = s.lock y ∧ al y = s.allocated y)
    (hal : al x = true) (hnew : ∀ y, p.New y → (s.pc t).New y ∨ s.allocated y = false)
    (hholds : p.holds = none ∨ l = s.lock ∧ p.holds = (s.pc t).holds)
    (hk : Change cfg s s' t → Knows cfg s' p) : Keeps cfg s s' t := by
  subst hs
  -- the node is allocated by this step or new to the thread: nobody has met it
  have hmet : ∀ y, Met s y → y ≠ x := by
    rintro y hy rfl
    rcases hx with hx | hx
    · cases hy.1.symm.trans hx
    · exact hy.2 t hx
  -- nor is it new to anybody else
  have hother : ∀ q, q ≠ t → ∀ y, (s.pc q).New y → y ≠ x := by
    rintro q hq y hy rfl
    rcases hx with hx | hx
    · cases ((inv.knows q).allocated_of_new hy).symm.trans hx
    · exact hq (inv.own q t y hy hx)
  have hpcs : ∀ q, q ≠ t → update s.pc t p q = s.pc q := fun q hq => update_of_ne hq ..
  have halloc : ∀ y, s.allocated y = true → al y = true := by
    intro y hy
    by_cases hyx : y = x
    · exact hyx ▸ hal
    · exact (hsame y hyx).2.2.2.2.trans hy
  have hnew' : ∀ y, (update s.pc t p t).New y → (s.pc t).New y ∨ s.allocated y = false := by
    intro y hy
    rw [update_self] at hy
    exact hnew y hy
  obtain ⟨c, htree⟩ : Change cfg s ⟨ch, ky, vl, l, al, update s.pc t p⟩ t ∧
      ∀ u, IsTree cfg s u → IsTree cfg ⟨ch, ky, vl, l, al, update s.pc t p⟩ u :=
    Change.quiet inv hpcs (fun y hy => hy.mono hpcs halloc hnew')
    (fun y hy => by
      obtain ⟨h₁, h₂, h₃, -, -⟩ := hsame y (hmet y hy)
      exact ⟨h₁, h₂, h₃⟩)
    (fun y hy hr => (hsame y (hmet y hy)).2.2.2.1.trans hr)
    (fun q hq y d' hy => by
      obtain ⟨hm, -⟩ := (inv.knows q).met_of_holds hy
      show (l y).lr d' = _
      rw [(hsame y (hmet y hm)).2.2.2.1])
    fun q hq y hy ha => by
      obtain ⟨h₁, h₂, h₃, -, h₅⟩ := hsame y (hother q hq y hy)
      exact ⟨h₁, h₂, h₃, h₅.trans ha⟩
  obtain ⟨u, hu⟩ := inv.tree
  refine ⟨inv.of_change c ⟨u, htree u hu⟩ hnew' ?_ ?_, c, htree⟩
  · intro y d' hy
    have hp : (update s.pc t p t).holds = some (y, d') := hy
    rw [update_self] at hp
    rcases hholds with h | ⟨rfl, h⟩
    · cases h.symm.trans hp
    · have hy := h.symm.trans hp
      exact ⟨inv.taken t y d' hy, fun q hq => inv.not_held hy hq⟩
  · show Knows cfg _ (update s.pc t p t)
    rw [update_self]
    exact hk c

end

end Ticket
end PopSetbench

import PopSetbench.Ds.TicketInv
import Mathlib.Tactic.Tauto

/-!
# The ticket tree: its two updates

An insertion and a deletion both store one child pointer, which is guarded by a half of a lock the
thread has, and thereby put another subtree in the place of the one below the node
(`Inv.setBelow`). With this every step keeps the invariant (`Inv.step`), and the contents of the
tree change as they should (`Inv.insert_contents`, `Inv.delete_contents`).
-/

namespace PopSetbench
namespace Ticket

open Function
open ExtTree (At Mem IsLeaf IsNode Rep Ordered Distinct)

variable {α ι K V : Type} [LinearOrder K] {cfg : Config α K} {s s' : State α ι K V} {t q : ι}
  {u sub : ExtTree α K} {c : Bool → ExtTree α K} {key k : K} {x y p : α} {d : Bool} {e : Edge α}

/-- Whoever finds the lock of a node not removed knows that the node is on the path. -/
theorem EdgeOk.onPath (he : EdgeOk cfg s key e) (hp : e.node = some p)
    (hl : s.lock p ≠ .removed) : OnPath cfg s key p := by
  obtain ⟨p', hp', hs, hi, -⟩ := he
  obtain rfl := Option.some.inj (hp.symm.trans hp')
  cases hs.2 hi with
  | alive h => exact h
  | dead hr => exact (hl hr).elim

/-- Where the edge is in the tree. -/
theorem EdgeOk.site (he : EdgeOk cfg s key e) (hp : e.node = some p) (hu : IsTree cfg s u)
    (hl : s.lock p ≠ .removed) (hy : Points s e (some y)) :
    e.right = toward key (s.key p) ∧ ∃ c, At key u (.node p (s.key p) c) ∧
      (c (toward key (s.key p))).root = y := by
  obtain ⟨v, hv, hr⟩ := hu.onPath_iff.mp (he.onPath hp hl)
  obtain ⟨p', hp', -, hi, hright⟩ := he
  obtain rfl := Option.some.inj (hp.symm.trans hp')
  obtain ⟨c, rfl⟩ := hu.at_node hv hr hi
  refine ⟨hright, c, hv, ?_⟩
  have hc := ((hv.rep hu.rep).2 (toward key (s.key p))).1
  have hy' := hy p hp
  rw [hright] at hy'
  exact Option.some.inj (hc.symm.trans hy')

/-- What is taken is not removed. -/
theorem Inv.not_removed (inv : Inv cfg s) (h : (s.pc t).holds = some (x, d)) :
    s.lock x ≠ .removed := by
  intro hr
  obtain ⟨v, hv⟩ := inv.taken t x d h
  rw [hr] at hv
  exact Tl.taken_ne_removed v d hv.symm

variable [DecidableEq α] [DecidableEq ι]

/-- **A child pointer is stored** that is guarded by what the thread has locked: the subtree takes
the place of the one below the node. -/
theorem Inv.setBelow {p' : Pc α K V} (inv : Inv cfg s) (hu : IsTree cfg s u)
    (hat : At key u (.node p (s.key p) c))
    (hhold : (s.pc t).holds = some (p, toward key (s.key p))) (hnew : ∀ x, ¬ p'.New x)
    (hs : s' = (s.setChild p (toward key (s.key p)) (some sub.root)).goto t p')
    (hrep : sub.Rep s'.heap) (hdist : sub.Distinct) (hord : sub.Ordered)
    (hkeys : ∀ k, sub.HasKey k → k = key ∨ (c (toward key (s.key p))).HasKey k)
    (hmem : ∀ y, sub.Mem y → (c (toward key (s.key p))).Mem y ∨ ¬ u.Mem y ∧ Met s' y)
    (hleaf : ∀ x k, sub.IsLeaf x k → UserKey cfg k → ∃ v, s.val x = some v)
    (hnode : ∀ x, sub.IsNode x → s.val x = none)
    (hmin : sub.find cfg.keyMin = (cfg.min, cfg.keyMin) ↔
      (c (toward key (s.key p))).find cfg.keyMin = (cfg.min, cfg.keyMin))
    (hmax : sub.find cfg.keyMax = (cfg.max, cfg.keyMax) ↔
      (c (toward key (s.key p))).find cfg.keyMax = (cfg.max, cfg.keyMax))
    (hpath : ∀ k z kz cz, At k (c (toward key (s.key p))) (.node z kz cz) →
      (∃ cz', At k sub (.node z kz cz')) ∨ (s.lock z = .removed ∧
        ∀ y, s.child z (toward k (s.key z)) = some y → Inner s y →
          ∃ w, At k sub w ∧ w.root = y)) :
    Change cfg s s' t ∧ IsTree cfg s' (u.setBelow p key sub) := by
  subst hs
  have hpcs : ∀ q, q ≠ t → ((s.setChild p (toward key (s.key p)) (some sub.root)).goto t p').pc q =
      s.pc q := fun q hq => update_of_ne hq ..
  obtain ⟨hpm, hpi⟩ := (inv.knows t).met_of_holds hhold
  -- only `p` is written, and only on one side
  have hchild : ∀ y, y ≠ p →
      ((s.setChild p (toward key (s.key p)) (some sub.root)).goto t p').child y = s.child y :=
    fun y hy => update_of_ne hy ..
  have hchild_p : ((s.setChild p (toward key (s.key p)) (some sub.root)).goto t p').child p =
      update (s.child p) (toward key (s.key p)) (some sub.root) := update_self ..
  -- what was met stays so, as no new node is involved
  have hmet : ∀ y, Met s y →
      Met ((s.setChild p (toward key (s.key p)) (some sub.root)).goto t p') y := by
    intro y hy
    refine hy.mono hpcs (fun _ h => h) fun x hx => ?_
    rw [State.goto_pc_self] at hx
    exact (hnew x hx).elim
  -- the tree with the part below `p` replaced is what the memory holds
  have htree : IsTree cfg ((s.setChild p (toward key (s.key p)) (some sub.root)).goto t p')
      (u.setBelow p key sub) := by
    exact {
      rep := hu.rep.setBelow hu.distinct hat hrep hchild_p (fun y _ hy => hchild y hy)
        fun _ _ => rfl
      top := by
        obtain ⟨c₀, rfl⟩ := hu.top
        exact ⟨_, rfl⟩
      min := by
        have hord' := hu.ordered.setBelow hu.distinct hat hord hkeys
        rw [hord'.isLeaf_iff, ExtTree.find_setBelow_iff hat hu.distinct hmin,
          ← hu.ordered.isLeaf_iff]
        exact hu.min
      max := by
        have hord' := hu.ordered.setBelow hu.distinct hat hord hkeys
        rw [hord'.isLeaf_iff, ExtTree.find_setBelow_iff hat hu.distinct hmax,
          ← hu.ordered.isLeaf_iff]
        exact hu.max
      ordered := hu.ordered.setBelow hu.distinct hat hord hkeys
      distinct := hu.distinct.setBelow hat hdist fun y hy => (hmem y hy).imp_right And.left
      met := by
        intro y hy
        rcases (ExtTree.mem_setBelow hat hu.distinct).mp hy with ⟨hy, -⟩ | hy
        · exact hmet y (hu.met y hy)
        · rcases hmem y hy with hy | ⟨-, hy⟩
          · exact hmet y (hu.met y (hat.step.mem hy))
          · exact hy
      leaf := by
        intro x k hx hk
        rcases ExtTree.Any.of_setBelow hx with hx | hx
        · exact hu.leaf x k hx hk
        · exact hleaf x k hx hk
      node := by
        intro x hx
        rcases ExtTree.Any.of_setBelow hx with hx | hx
        · exact hu.node x hx
        · exact hnode x hx }
  refine ⟨?_, htree⟩
  exact {
    pcs := hpcs
    met := hmet
    key := fun _ _ => rfl
    val := fun _ _ => rfl
    -- a node stays inner or a leaf: `p` keeps two children
    inner := by
      intro y _
      unfold Inner
      by_cases hy : y = p
      · subst hy
        rw [hchild_p]
        refine iff_of_true ?_ hpi
        cases toward key (s.key y)
        · rw [update_self]
          exact Option.some_ne_none _
        · rw [update_of_ne Bool.false_ne_true]
          exact hpi
      · rw [hchild y hy]
    dead := by
      intro y _ hr
      refine ⟨hr, hchild y ?_⟩
      rintro rfl
      exact inv.not_removed hhold hr
    -- a path that went through the old part goes on in the new one, or the node is removed
    path := by
      intro k z hz hzi
      obtain ⟨v, hv, hr⟩ := hu.onPath_iff.mp hz
      obtain ⟨cz, rfl⟩ := hu.at_node hv hr hzi
      by_cases hbelow : (c (toward key (s.key p))).Mem z
      · -- the node was below `p`
        obtain ⟨hk, hp, hz'⟩ := hat.through hu.distinct hv hbelow
        have hsub : At k (u.setBelow p key sub) sub := hp.setBelow_below hat hu.distinct hk
        rcases hpath k z _ cz hz' with ⟨cz', h⟩ | ⟨hl, h⟩
        · exact .inl ⟨_, htree, _, hsub.trans h, rfl⟩
        · refine .inr ⟨hl, fun y hy hyi => ?_⟩
          obtain ⟨w, hw, hroot⟩ := h y hy hyi
          exact ⟨_, htree, w, hsub.trans hw, hroot⟩
      · obtain ⟨cz', h⟩ : ∃ cz', At k (u.setBelow p key sub) (.node z (s.key z) cz') :=
          hv.setBelow hat hu.distinct fun h => (hbelow (h.mem (.inl rfl))).elim
        exact .inl ⟨_, htree, _, h, rfl⟩
    -- what another thread holds is not the side that is written
    held := by
      intro q hq y d' hy
      refine ⟨?_, rfl⟩
      by_cases hyp : y = p
      · subst hyp
        have hd : d' ≠ toward key (s.key y) := by
          rintro rfl
          exact inv.not_held hhold hq hy
        rw [hchild_p, update_of_ne hd]
      · rw [hchild y hyp]
    fresh := by
      intro q _ y hy ha
      refine ⟨hchild y ?_, rfl, rfl, ha⟩
      rintro rfl
      exact hpm.2 q hy }

/-- **Insertion**: the leaf makes room for an inner node with it and the new leaf. -/
theorem Inv.insert {val : V} {pred : Edge α} {a b : α} (inv : Inv cfg s) (hu : IsTree cfg s u)
    (hpc : s.pc t = .storeChild key val pred x a b) (hp : pred.node = some p)
    (hs : s' = (s.setChild p pred.right (some b)).goto t (.unlock pred (.inserted key val))) :
    ∃ u', Change cfg s s' t ∧ IsTree cfg s' u' ∧ u.find key = (x, s.key x) ∧ s.key x ≠ key ∧
      u'.find key = (a, key) ∧ s.val a = some val ∧
      (∀ k, k ≠ key → ∀ y, u'.find k = (y, k) ↔ u.find k = (y, k)) ∧
      ∀ z, u'.Mem z ↔ u.Mem z ∨ z = a ∨ z = b := by
  have hk := inv.knows t
  rw [hpc] at hk
  obtain ⟨hi, ha, hb, hpt, less, hless, hkb, hcb⟩ := hk
  have hhold : (s.pc t).holds = some (p, pred.right) := by
    rw [hpc]
    show pred.node.map _ = _
    rw [hp]
    rfl
  obtain ⟨hright, c, hat, hroot⟩ := hi.edge.site hp hu (inv.not_removed hhold) hpt
  rw [hright] at hhold hs
  have hleaf := hu.at_leaf hat.step hroot hi.leaf.2
  -- nobody else has seen the two new nodes
  have hna : ¬ Met s a := fun h => h.2 t (by rw [hpc]; exact .inl rfl)
  have hnb : ¬ Met s b := fun h => h.2 t (by rw [hpc]; exact .inr rfl)
  have hax : a ≠ x := fun h => hna (h ▸ hi.leaf.1)
  have hbx : b ≠ x := fun h => hnb (h ▸ hi.leaf.1)
  obtain ⟨hpm, hpi⟩ := (inv.knows t).met_of_holds hhold
  have hap : a ≠ p := fun h => hna (h ▸ hpm)
  have hbp : b ≠ p := fun h => hnb (h ▸ hpm)
  have hxp : x ≠ p := fun h => hi.leaf.2 (h ▸ hpi)
  -- the keys are on their sides of the new node
  have hsides : toward (s.key x) (s.key b) = less ∧ toward key (s.key b) = !less := by
    rw [hkb, hless]
    by_cases hlt : key < s.key x
    · rw [decide_eq_true hlt, cond_true, toward_of_lt hlt, toward_of_le le_rfl]
      exact ⟨rfl, rfl⟩
    · rw [decide_eq_false hlt, cond_false, toward_of_le le_rfl]
      exact ⟨toward_of_lt (lt_of_le_of_ne (not_lt.mp hlt) hi.ne), rfl⟩
  obtain ⟨hsx, hsa⟩ := hsides
  have hfind : ∀ k, k ≠ key → ∀ y,
      (ExtTree.fork b (s.key b) less x (s.key x) a key).find k = (y, k) ↔
      (c (toward key (s.key p))).find k = (y, k) := by
    intro k hk y
    rw [hleaf, ExtTree.find_fork]
    show _ ↔ (x, s.key x) = (y, k)
    cases hb' : toward k (s.key b) == less with
    | true => rfl
    | false =>
      rw [cond_false]
      refine iff_of_false (fun h => hk (Prod.mk.inj h).2.symm) fun h => ?_
      obtain ⟨-, rfl⟩ := Prod.mk.inj h
      rw [hsx, beq_self_eq_true] at hb'
      cases hb'
  have hfind_key : (ExtTree.fork b (s.key b) less x (s.key x) a key).find key = (a, key) := by
    rw [ExtTree.find_fork, hsa]
    cases less <;> rfl
  -- the store writes `pred` only; the children of `b` were written before
  have hchild : ∀ y, y ≠ p → s'.child y = s.child y := by
    rw [hs]
    exact fun y hy => update_of_ne hy ..
  have hkey : s'.key = s.key := by rw [hs]; rfl
  have hmin : cfg.keyMin ≠ key := hi.user.1.ne
  have hmax : cfg.keyMax ≠ key := hi.user.2.ne'
  -- the fork is what lies in the memory below `pred` now
  have hrep : ExtTree.Rep s'.heap (ExtTree.fork b (s.key b) less x (s.key x) a key) := by
    refine ExtTree.rep_fork (congrFun hkey b) (fun right => ?_) ⟨congrFun hkey x, fun r => ?_⟩
      ⟨?_, fun r => ?_⟩
    · show s'.child b right = _
      rw [hchild b hbp]
      exact hcb right
    · show s'.child x r = none
      rw [hchild x hxp]
      have hxrep := hat.step.rep hu.rep
      rw [hleaf] at hxrep
      exact hxrep.2 r
    · show s'.key a = key
      rw [hkey]
      exact ha.key
    · show s'.child a r = none
      rw [hchild a hap]
      exact ha.child r
  have hkeys : ∀ k, ExtTree.HasKey k (ExtTree.fork b (s.key b) less x (s.key x) a key) →
      k = key ∨ (c (toward key (s.key p))).HasKey k := by
    intro k hk
    rw [hleaf]
    rcases ExtTree.any_fork hk with h | h | h
    · rw [h, hkb]
      cases less
      · exact .inl rfl
      · exact .inr rfl
    · exact .inr h
    · exact .inl h
  -- its nodes are the leaf, and the two that nobody has met
  have hmem : ∀ y, ExtTree.Mem y (ExtTree.fork b (s.key b) less x (s.key x) a key) →
      (c (toward key (s.key p))).Mem y ∨ ¬ u.Mem y ∧ Met s' y := by
    have hmet : ∀ y, s.allocated y = true → y = a ∨ y = b → Met s' y := by
      intro y hy hab
      rw [hs]
      refine ⟨hy, fun q hq => ?_⟩
      by_cases hqt : q = t
      · subst hqt
        rw [State.goto_pc_self] at hq
        exact hq
      · rw [State.goto_pc_of_ne hqt] at hq
        exact hqt (inv.own q t y hq (by rw [hpc]; exact hab))
    intro y hy
    rcases ExtTree.any_fork hy with rfl | rfl | rfl
    · exact .inr ⟨fun h => hnb (hu.met _ h), hmet _ hb.allocated (.inr rfl)⟩
    · rw [hleaf]
      exact .inl rfl
    · exact .inr ⟨fun h => hna (hu.met _ h), hmet _ ha.allocated (.inl rfl)⟩
  have hleafs : ∀ y k, ExtTree.IsLeaf y k (ExtTree.fork b (s.key b) less x (s.key x) a key) →
      UserKey cfg k → ∃ v, s.val y = some v := by
    intro y k hy hk
    rcases ExtTree.any_fork hy with h | ⟨rfl, rfl⟩ | ⟨rfl, rfl⟩
    · exact h.elim
    · exact hu.leaf _ _ (At.isLeaf (hleaf ▸ hat.step)) hk
    · exact ⟨val, ha.val⟩
  have hnodes : ∀ y, ExtTree.IsNode y (ExtTree.fork b (s.key b) less x (s.key x) a key) →
      s.val y = none := by
    intro y hy
    rcases ExtTree.any_fork hy with rfl | h | h
    · exact hb.val
    · exact h.elim
    · exact h.elim
  have hpc' : ∀ y, ¬ (Pc.unlock pred (.inserted key val)).New y := fun _ h => h
  obtain ⟨hc, htree⟩ := inv.setBelow hu hat hhold hpc' hs hrep
    (ExtTree.distinct_fork hbx (fun h => hb.ne h) (Ne.symm hax)) (ExtTree.ordered_fork hsx hsa)
    hkeys hmem hleafs hnodes (hfind _ hmin _) (hfind _ hmax _) fun k z kz cz h => by
      rw [hleaf] at h
      cases h
  refine ⟨_, hc, htree, ?_, hi.ne, ?_, ha.val, ?_, fun z => ?_⟩
  · -- the search for the key ends at the new leaf
    rw [hat.step.find, hleaf]
    rfl
  · -- the other searches end where they did
    rw [ExtTree.find_setBelow hat hu.distinct, hfind_key]
  · intro k hk y
    exact ExtTree.find_setBelow_iff hat hu.distinct (hfind k hk y)
  · have hx : (c (toward key (s.key p))).Mem z ↔ z = x := by
      rw [hleaf]
      exact Iff.rfl
    have hxu : z = x → u.Mem z := fun h => hat.step.mem (hx.mpr h)
    rw [ExtTree.mem_setBelow hat hu.distinct, hx, ExtTree.mem_fork]
    tauto

/-- A search for `key` ends at the leaf `x`, which has it, below the inner nodes `g` and `p`. -/
def Site (s : State α ι K V) (u : ExtTree α K) (key : K) (g p x : α) : Prop :=
  ∃ cg cp : Bool → ExtTree α K, At key u (.node g (s.key g) cg) ∧
    cg (toward key (s.key g)) = .node p (s.key p) cp ∧ cp (toward key (s.key p)) = .leaf x key

omit [DecidableEq α] [DecidableEq ι] in
/-- The leaf, its parent and its grandparent. -/
theorem DeleteOk.site {ppred pred : Edge α} {g : α} (hd : DeleteOk cfg s key ppred pred x)
    (hu : IsTree cfg s u) (hg : ppred.node = some g) (hp : pred.node = some p)
    (hr : s.lock g ≠ .removed) (hgp : Points s ppred (some p)) (hpx : Points s pred (some x)) :
    ppred.right = toward key (s.key g) ∧ pred.right = toward key (s.key p) ∧
      Site s u key g p x := by
  obtain ⟨hgr, cg, hat, hroot⟩ := hd.pedge.site hg hu hr hgp
  obtain ⟨p', hp', -, hpi, hpr⟩ := hd.edge
  obtain rfl := Option.some.inj (hp.symm.trans hp')
  obtain ⟨cp, hcp⟩ := hu.at_node hat.step hroot hpi
  have hatp : At key u (.node p (s.key p) cp) := hcp ▸ hat.step
  have hx := ((hatp.rep hu.rep).2 (toward key (s.key p))).1
  have hpx := hpx p hp
  rw [hpr] at hpx
  have hxroot := Option.some.inj (hx.symm.trans hpx)
  have hleaf := hu.at_leaf hatp.step hxroot hd.leaf.2
  rw [hd.key_eq] at hleaf
  exact ⟨hgr, hpr, cg, cp, hat, hcp, hleaf⟩

/-- **Deletion**: the sibling of the leaf takes the place of its parent. -/
theorem Inv.delete {ppred pred : Edge α} {g : α} {y : Option α} (inv : Inv cfg s)
    (hu : IsTree cfg s u) (hpc : s.pc t = .splice key ppred pred x y)
    (hg : ppred.node = some g) (hp : pred.node = some p)
    (hs : s' = (s.setChild g ppred.right y).goto t (.unlock ppred (.deleted key pred x))) :
    ∃ u', Change cfg s s' t ∧ IsTree cfg s' u' ∧ Site s u key g p x ∧
      (∃ v, s.val x = some v) ∧
      (∀ k z, u'.find k = (z, k) ↔ u.find k = (z, k) ∧ k ≠ key) ∧
      ∀ z, u'.Mem z ↔ u.Mem z ∧ z ≠ p ∧ z ≠ x := by
  have hk := inv.knows t
  rw [hpc] at hk
  obtain ⟨hd, hgp, hpx, hrem⟩ := hk
  obtain ⟨hrem, hsib⟩ := hrem p hp
  rw [hp] at hgp
  have hhold : (s.pc t).holds = some (g, ppred.right) := by
    rw [hpc]
    show ppred.node.map _ = _
    rw [hg]
    rfl
  -- the edges of the deletion are two steps of the path to the leaf
  obtain ⟨hgr, hpr, cg, cp, hat, hcp, hleaf⟩ :=
    hd.site hu hg hp (inv.not_removed hhold) hgp hpx
  have hdist : (ExtTree.node p (s.key p) cp).Distinct := hcp ▸ hat.step.distinct hu.distinct
  have hord : (ExtTree.node p (s.key p) cp).Ordered := hcp ▸ hat.step.ordered hu.ordered
  have hrepp : (ExtTree.node p (s.key p) cp).Rep s.heap := hcp ▸ hat.step.rep hu.rep
  -- what lies in the sibling lies in the tree
  have hany : ∀ {P Q : α → K → Prop}, (cp (!toward key (s.key p))).Any P Q → u.Any P Q := by
    intro P Q h
    refine hat.step.any ?_
    rw [hcp]
    exact .inr ⟨_, h⟩
  -- the sibling is what was loaded
  have hy : y = some (cp (!toward key (s.key p))).root := by
    rw [← hsib, hpr]
    exact (hrepp.2 _).1
  rw [hgr] at hhold
  rw [hgr, hy] at hs
  -- the store writes `g`, which is above, so the sibling is as it was
  have hgsub : ¬ (cp (!toward key (s.key p))).Mem g := by
    intro h
    refine (hat.distinct hu.distinct).1 (toward key (s.key g)) ?_
    rw [hcp]
    exact .inr ⟨_, h⟩
  have hrep : (cp (!toward key (s.key p))).Rep s'.heap := by
    refine (hrepp.2 _).2.congr (fun z hz => ?_) fun z _ => ?_
    · rw [hs]
      refine update_of_ne ?_ ..
      rintro rfl
      exact hgsub hz
    · rw [hs]
      rfl
  -- a search that goes on below the parent ends at the leaf or in the sibling
  have hside : ∀ k, (ExtTree.node p (s.key p) cp).find k =
      if toward k (s.key p) = toward key (s.key p) then (x, key)
      else (cp (!toward key (s.key p))).find k := by
    intro k
    show (cp (toward k (s.key p))).find k = _
    by_cases hb : toward k (s.key p) = toward key (s.key p)
    · rw [if_pos hb, hb, hleaf]
      rfl
    · rw [if_neg hb, Bool.eq_not_of_ne hb]
  -- the keys of the sibling are on the other side of the parent
  have hsub : ∀ k z, (cp (!toward key (s.key p))).find k = (z, k) →
      toward k (s.key p) ≠ toward key (s.key p) := by
    intro k z hz
    rw [← (hord _).2.isLeaf_iff] at hz
    rw [(hord _).1 k hz.hasKey]
    exact Bool.not_ne_self _
  -- the other keys are found in the sibling just when they were found below `g`
  have hfind : ∀ k, k ≠ key → ∀ z, (cp (!toward key (s.key p))).find k = (z, k) ↔
      (cg (toward key (s.key g))).find k = (z, k) := by
    intro k hk z
    rw [hcp, hside]
    by_cases hb : toward k (s.key p) = toward key (s.key p)
    · rw [if_pos hb]
      exact iff_of_false (fun h => hsub k z h hb) fun h => hk (Prod.mk.inj h).2.symm
    · rw [if_neg hb]
  have hpc' : ∀ y, ¬ (Pc.unlock ppred (.deleted key pred x) : Pc α K V).New y := fun _ h => h
  obtain ⟨hc, htree⟩ := inv.setBelow hu hat hhold hpc' hs hrep (hdist.2.2 _) (hord _).2
    (fun k hk => .inr (hcp ▸ .inr ⟨_, hk⟩)) (fun z hz => .inl (hcp ▸ .inr ⟨_, hz⟩))
    (fun z k hz hk => hu.leaf z k (hany hz) hk) (fun z hz => hu.node z (hany hz))
    (hfind _ hd.user.1.ne _) (hfind _ hd.user.2.ne' _) fun k z kz cz h => by
      rw [hcp] at h
      cases h with
      | here =>
        refine .inr ⟨hrem, fun y hy hyi => ?_⟩
        by_cases hb : toward k (s.key p) = toward key (s.key p)
        · have hx : s.child p (toward key (s.key p)) = some (cp (toward key (s.key p))).root :=
            (hrepp.2 _).1
          rw [← hb, hy, hb, hleaf] at hx
          obtain rfl := Option.some.inj hx
          exact (hd.leaf.2 hyi).elim
        · rw [Bool.eq_not_of_ne hb] at hy
          exact ⟨_, .here, Option.some.inj ((hrepp.2 _).1.symm.trans hy)⟩
      | down h =>
        by_cases hb : toward k (s.key p) = toward key (s.key p)
        · rw [hb, hleaf] at h
          cases h
        · rw [Bool.eq_not_of_ne hb] at h
          exact .inl ⟨cz, h⟩
  refine ⟨_, hc, htree, ⟨cg, cp, hat, hcp, hleaf⟩, ?_, fun k z => ?_, fun z => ?_⟩
  · refine hu.leaf x key ?_ hd.user
    refine hat.step.any (P := fun z k => x = z ∧ key = k) ?_
    rw [hcp]
    refine .inr ⟨toward key (s.key p), ?_⟩
    rw [hleaf]
    exact ⟨rfl, rfl⟩
  · by_cases hk : k = key
    · subst hk
      rw [ExtTree.find_setBelow hat hu.distinct]
      exact iff_of_false (fun h => hsub k z h rfl) fun h => h.2 rfl
    · rw [ExtTree.find_setBelow_iff hat hu.distinct (hfind k hk z)]
      exact ⟨fun h => ⟨h, hk⟩, fun h => h.1⟩
  · have hx : (cp (toward key (s.key p))).Mem z ↔ z = x := by
      rw [hleaf]
      exact Iff.rfl
    have hz : z = p ∨ z = x → ¬ (cp (!toward key (s.key p))).Mem z := by
      rintro (rfl | rfl) h
      · exact hdist.1 _ h
      · exact hdist.2.1 _ _ (hx.mpr rfl) h
    have hin : (cp (!toward key (s.key p))).Mem z → u.Mem z := fun h => hany h
    rw [ExtTree.mem_setBelow hat hu.distinct, hcp, ExtTree.mem_node_iff (toward key (s.key p)), hx]
    tauto

/-! ### Every step keeps the invariant -/

omit [DecidableEq α] [DecidableEq ι] in
/-- The way of a search goes on. -/
theorem Seen.next (h : Seen cfg s key x) (hx : Inner s x)
    (hy : s.child x (toward key (s.key x)) = some y) : Seen cfg s key y := by
  cases h.2 hx with
  | alive h =>
    have hon := h.step hy
    exact ⟨hon.met, fun _ => .alive hon⟩
  | dead _ hq hl => exact ⟨(hq y hy).1, fun hi => hl y hy hi⟩

omit [DecidableEq α] [DecidableEq ι] in
/-- A search begins at the top. -/
theorem Inv.seen_root (inv : Inv cfg s) : Seen cfg s key cfg.root ∧ Inner s cfg.root := by
  obtain ⟨u, hu⟩ := inv.tree
  have hon : OnPath cfg s key cfg.root := hu.onPath_root
  exact ⟨⟨hon.met, fun _ => .alive hon⟩, hu.inner_root⟩

omit [DecidableEq α] [DecidableEq ι] in
theorem Edge.half_of_node (hp : e.node = some p) : e.half = some (p, e.right) := by
  rw [Edge.half, hp]
  rfl

/-- A step that is a CAS, or another store to a lock, or none at all, and not one of the two
updates. -/
def Pc.Quiet : Pc α K V → Prop
  | .storeChild _ _ _ _ _ _ => False
  | .splice _ _ _ _ _ => False
  | _ => True

/-- **Every step but the two updates** keeps the invariant and the tree. -/
theorem Step.keeps {ev : Event α K V} (inv : Inv cfg s) (hok : Sound s (t, ev))
    (hq : (s.pc t).Quiet) (h : Step cfg s t ev s') : Keeps cfg s s' t := by
  have hk := inv.knows t
  cases h with
  | invoke op hpc hmin hmax => exact inv.goto (fun _ h => h.elim) (.inl rfl) ⟨hmin, hmax⟩
  | startOp op ppred pred hpc =>
    -- the root is seen by every search, and it is an inner node
    rw [hpc] at hk
    obtain ⟨hs, hi⟩ : Seen cfg s op.key cfg.root ∧ Inner s cfg.root := inv.seen_root
    cases op with
    | contains key => exact inv.goto (fun _ h => h.elim) (.inl rfl) ⟨hk, hs⟩
    | insert key val => exact inv.goto (fun _ h => h.elim) (.inl rfl) ⟨hk, hs, hi, .inr rfl⟩
    | erase key => exact inv.goto (fun _ h => h.elim) (.inl rfl) ⟨hk, hs, hi, .inr rfl⟩
  | findLeft key x hpc hl =>
    -- a node with a left child is inner, and one without is a leaf
    rw [hpc] at hk
    exact inv.goto (fun _ h => h.elim) (.inl rfl) ⟨hk.1, hk.2, hl⟩
  | findNull key x hpc hl =>
    rw [hpc] at hk
    exact inv.goto (fun _ h => h.elim) (.inl rfl) ⟨hk.1, hk.2.1, fun hi => hi hl⟩
  | findKey key x hpc =>
    rw [hpc] at hk
    exact inv.goto (fun _ h => h.elim) (.inl rfl) ⟨hk.1, hk.2.1, hk.2.2, rfl⟩
  | findChild key x y right hpc hy =>
    -- the child on the side of the key is seen as well
    rw [hpc] at hk
    obtain ⟨hu, hs, hi, rfl⟩ := hk
    exact inv.goto (fun _ h => h.elim) (.inl rfl) ⟨hu, hs.next hi hy⟩
  | findHit key x hpc hx =>
    rw [hpc] at hk
    exact inv.goto (fun _ h => h.elim) (.inl rfl) hk.2
  | findMiss key x hpc hx => exact inv.goto (fun _ h => h.elim) (.inl rfl) trivial
  | loadVer u ppred pred x hpc =>
    -- the edge that `pred` was becomes `ppred`
    rw [hpc] at hk
    obtain ⟨hu, hs, hi, hp⟩ := hk
    exact inv.goto (fun _ h => h.elim) (.inl rfl)
      ⟨hu, ⟨x, rfl, hs, hi⟩, hp.imp_right fun h => congrArg some h⟩
  | readKey u ppred pred x hpc hx =>
    rw [hpc] at hk
    obtain ⟨hu, ⟨x', hx', hs, hi⟩, hp⟩ := hk
    obtain rfl := Option.some.inj (hx.symm.trans hx')
    rw [hx] at hp
    exact inv.goto (fun _ h => h.elim) (.inl rfl) ⟨hu, ⟨x, rfl, hs, hi, rfl⟩, hp⟩
  | loadChild u ppred pred x y hpc hx hy =>
    -- unless the walk is at the root, the edge to `ppred` leads to the node of `pred`
    rw [hpc] at hk
    obtain ⟨hu, he, hp⟩ := hk
    obtain ⟨x', hx', hs, hi, hr⟩ := id he
    obtain rfl := Option.some.inj (hx.symm.trans hx')
    rw [hr] at hy
    refine inv.goto (fun _ h => h.elim) (.inl rfl) ⟨hu, he, hs.next hi hy, ?_⟩
    -- a child of the root that is a leaf has the key of a sentinel
    refine hp.imp_right fun hroot hy' => ?_
    obtain ⟨v, hv⟩ := inv.tree
    obtain rfl := Option.some.inj (hx.symm.trans hroot)
    rw [hv.key_root] at hy
    exact hv.key_below_root hu hy hy'
  | loadLeft u ppred pred x hpc hl =>
    rw [hpc] at hk
    obtain ⟨hu, he, hs, -⟩ := hk
    exact inv.goto (fun _ h => h.elim) (.inl rfl) ⟨hu, hs, hl, .inl he⟩
  | loadNull u ppred pred x hpc hl =>
    rw [hpc] at hk
    obtain ⟨hu, he, hs, hp⟩ := hk
    have hn : ¬ Inner s x := fun hi => hi hl
    exact inv.goto (fun _ h => h.elim) (.inl rfl)
      ⟨hu, he, ⟨hs.1, hn⟩, hp.imp_right fun h => h hn⟩
  | hit u ppred pred x hpc hx =>
    -- `deleteKey` has a `ppred`, since the leaf below the root has no user key
    rw [hpc] at hk
    obtain ⟨hu, he, hl, hp⟩ := hk
    cases u with
    | insert key val => exact inv.goto (fun _ h => h.elim) (.inl rfl) hl
    | delete key =>
      have hpp := hp.resolve_right fun h => h hx
      exact inv.goto (fun _ h => h.elim) (.inl rfl) ⟨hu, hpp, he, hl, hx⟩
  | miss u ppred pred x hpc hx =>
    rw [hpc] at hk
    obtain ⟨hu, he, hl, -⟩ := hk
    cases u with
    | insert key val => exact inv.goto (fun _ h => h.elim) (.inl rfl) ⟨hu, he, hl, hx⟩
    | delete key => exact inv.goto (fun _ h => h.elim) (.inl rfl) trivial
  | newLeaf key val pred x a hpc ha =>
    -- the leaf was nowhere before, and has no children
    rw [hpc] at hk
    refine inv.write (x := a) (.inl ha) rfl (fun y hy => ?_) (update_self ..) ?_ (.inl rfl) ?_
    · exact ⟨update_of_ne hy .., update_of_ne hy .., update_of_ne hy .., update_of_ne hy ..,
        update_of_ne hy ..⟩
    · rintro y rfl
      exact .inr ha
    · intro c
      refine ⟨InsertOk.mono c hk, update_self .., fun right => ?_, update_self .., update_self ..⟩
      show update s.child a (fun _ => none) a right = none
      rw [update_self]
  | newNode key val pred x a b hpc hb =>
    -- nor was the inner node, which is another one than the leaf
    rw [hpc] at hk
    obtain ⟨hi, ha⟩ := hk
    have hba : b ≠ a := by
      rintro rfl
      cases ha.allocated.symm.trans hb
    refine inv.write (x := b) (.inl hb) rfl (fun y hy => ?_) (update_self ..) ?_ (.inl rfl) ?_
    · exact ⟨rfl, rfl, update_of_ne hy .., update_of_ne hy .., update_of_ne hy ..⟩
    · rw [hpc]
      rintro y (rfl | rfl)
      · exact .inl rfl
      · exact .inr hb
    · intro c
      refine ⟨hi.mono c, ⟨?_, ha.child, ha.key, ?_⟩, update_self .., hba, update_self ..⟩
      · exact (update_of_ne hba.symm ..).trans ha.allocated
      · exact (update_of_ne hba.symm ..).trans ha.val
  | lockPred key val pred p x a b l hpc hp hl =>
    -- the lock is free, so nobody holds this half of it
    rw [hpc] at hk
    obtain ⟨hi, ha, hb⟩ := hk
    -- what the lock was taken for: the link is still the one that was read
    have hpt : s.child p pred.right = some x := by
      unfold Sound at hok
      dsimp only at hok
      rw [hpc] at hok
      exact hok p hp (hl ▸ Option.some_ne_none l)
    obtain ⟨v, -, hv, rfl⟩ := Tl.trylockVersion_eq_some.mp hl
    refine inv.setLock (fun y hy => by rw [hpc]; exact hy) ?_ ?_ ?_ ?_
    · intro hr
      rw [hr] at hv
      exact Tl.free_ne_removed v pred.right hv.symm
    · intro q d _ hqd
      refine Tl.set_lr_of_ne ?_
      rintro rfl
      exact inv.not_held_of_free hv hqd
    · intro y d hy
      obtain ⟨rfl, rfl⟩ := Prod.mk.inj (Option.some.inj ((Edge.half_of_node hp).symm.trans hy))
      refine ⟨⟨v, ?_⟩, fun q _ => inv.not_held_of_free hv⟩
      show (update s.lock p _ p).lr pred.right = _
      rw [update_self, Tl.set_lr_self]
    · intro c
      refine ⟨hi.mono c, ⟨ha.allocated, ha.child, ha.key, ha.val⟩, ⟨hb.allocated, hb.ne, hb.val⟩,
        fun p' hp' => ?_⟩
      obtain rfl := Option.some.inj (hp.symm.trans hp')
      exact hpt
  | lockPredFail key val pred p x a b hpc hp hl =>
    rw [hpc] at hk
    exact inv.goto (fun _ h => h.elim) (.inl rfl) hk.1.user
  | dealloc key val pred a b hpc =>
    rw [hpc] at hk
    exact inv.goto (fun _ h => h.elim) (.inl rfl) hk
  | compare key val pred x a b hpc =>
    rw [hpc] at hk
    obtain ⟨hi, ha, hb, hp⟩ := hk
    exact inv.goto (fun y hy => by rw [hpc]; exact hy) (.inr (by rw [hpc]; rfl))
      ⟨hi, ha, hb, hp, rfl⟩
  | initNode key val pred x a b less hpc =>
    -- the new inner node is written, which nobody has met
    rw [hpc] at hk
    obtain ⟨hi, ha, hb, hp, hless⟩ := hk
    have hnew : (s.pc t).New b := by
      rw [hpc]
      exact .inr rfl
    have hbm : ∀ y, Met s y → y ≠ b := fun y hy h => hy.2 t (h ▸ hnew)
    obtain ⟨p, hpn, hpm, hpi⟩ := hi.edge.met
    have hxb := hbm x hi.leaf.1
    refine inv.write (x := b) (.inr hnew) rfl (fun y hy => ?_) hb.allocated
      (fun y hy => .inl (by rw [hpc]; exact hy)) (.inr ⟨rfl, by rw [hpc]; rfl⟩) ?_
    · exact ⟨update_of_ne hy .., update_of_ne hy .., rfl, rfl, rfl⟩
    · intro c
      refine ⟨hi.mono c, ⟨ha.allocated, fun right => ?_, ?_, ha.val⟩,
        ⟨hb.allocated, hb.ne, hb.val⟩, fun p' hp' => ?_, less, ?_, ?_, fun right => ?_⟩
      · exact (congrFun (update_of_ne hb.ne.symm ..) right).trans (ha.child right)
      · exact (update_of_ne hb.ne.symm ..).trans ha.key
      · obtain rfl := Option.some.inj (hpn.symm.trans hp')
        exact (congrFun (update_of_ne (hbm p hpm) ..) _).trans (hp p hpn)
      · show less = decide (key < update s.key b _ x)
        rw [update_of_ne hxb]
        exact hless
      · show update s.key b _ b = bif less then update s.key b _ x else key
        rw [update_self, update_of_ne hxb]
      · show update s.child b _ b right = _
        rw [update_self]
  | storeChild key val pred p x a b hpc hp =>
    rw [hpc] at hq
    exact hq.elim
  | lockPpred key ppred pred g x l hpc hg hl =>
    -- the same for the lock of `ppred`
    rw [hpc] at hk
    have hpt : s.child g ppred.right = pred.node := by
      unfold Sound at hok
      dsimp only at hok
      rw [hpc] at hok
      exact hok g hg (hl ▸ Option.some_ne_none l)
    obtain ⟨v, -, hv, rfl⟩ := Tl.trylockVersion_eq_some.mp hl
    refine inv.setLock (fun _ h => h.elim) ?_ ?_ ?_ ?_
    · intro hr
      rw [hr] at hv
      exact Tl.free_ne_removed v ppred.right hv.symm
    · intro q d _ hqd
      refine Tl.set_lr_of_ne ?_
      rintro rfl
      exact inv.not_held_of_free hv hqd
    · intro y d hy
      obtain ⟨rfl, rfl⟩ := Prod.mk.inj (Option.some.inj ((Edge.half_of_node hg).symm.trans hy))
      refine ⟨⟨v, ?_⟩, fun q _ => inv.not_held_of_free hv⟩
      show (update s.lock g _ g).lr ppred.right = _
      rw [update_self, Tl.set_lr_self]
    · intro c
      refine ⟨DeleteOk.mono c hk, fun g' hg' => ?_⟩
      obtain rfl := Option.some.inj (hg.symm.trans hg')
      exact hpt
  | lockPpredFail key ppred pred g x hpc hg hl =>
    rw [hpc] at hk
    exact inv.goto (fun _ h => h.elim) (.inl rfl) (DeleteOk.user hk)
  | lockBoth key ppred pred p x l hpc hp hl =>
    -- both halves are free, so nobody holds `pred` at all
    rw [hpc] at hk
    obtain ⟨hd, hg⟩ := hk
    -- the link from `pred` to the leaf is still the one that was read
    have hpt : s.child p pred.right = some x := by
      unfold Sound at hok
      dsimp only at hok
      rw [hpc] at hok
      exact hok p hp (hl ▸ Option.some_ne_none l)
    obtain ⟨hfree, heq, rfl⟩ := Tl.trylockVersionBoth_eq_some.mp hl
    have hfree : ∀ d, ∃ v, (s.lock p).lr d = ⟨v, v⟩ := by
      intro d
      obtain ⟨v, hv⟩ := hfree d
      exact ⟨v, (heq d).trans hv⟩
    have hnot : ∀ q d, (s.pc q).holds ≠ some (p, d) := by
      intro q d
      obtain ⟨v, hv⟩ := hfree d
      exact inv.not_held_of_free hv
    refine inv.setLock (fun _ h => h.elim) ?_ ?_ ?_ ?_
    · intro hr
      obtain ⟨v, hv⟩ := hfree true
      rw [hr] at hv
      exact Tl.free_ne_removed v true hv.symm
    · exact fun q d _ hqd => (hnot q d hqd).elim
    · intro y d hy
      have hy : (s.pc t).holds = some (y, d) := by
        rw [hpc]
        exact hy
      refine ⟨?_, fun q hqt => inv.not_held hy hqt⟩
      have hyp : y ≠ p := by
        rintro rfl
        exact hnot t d hy
      obtain ⟨v, hv⟩ := inv.taken t y d hy
      refine ⟨v, ?_⟩
      show (update s.lock p _ y).lr d = _
      rw [update_of_ne hyp]
      exact hv
    · intro c
      refine ⟨hd.mono c, hg, fun p' hp' => ?_, fun p' hp' => ?_⟩
      · obtain rfl := Option.some.inj (hp.symm.trans hp')
        exact hpt
      · obtain rfl := Option.some.inj (hp.symm.trans hp')
        exact update_self ..
  | lockBothFail key ppred pred p x hpc hp hl =>
    -- what is still held is the half of `ppred`
    rw [hpc] at hk
    exact inv.goto (fun _ h => h.elim) (.inr (by rw [hpc]; rfl)) ⟨hk.1.user, hk.1.pedge.met⟩
  | loadSibling key ppred pred p x hpc hp =>
    -- the sibling is read from a node that does not change any more
    rw [hpc] at hk
    obtain ⟨hd, hg, hpt, hr⟩ := hk
    refine inv.goto (fun _ h => h.elim) (.inr (by rw [hpc]; rfl)) ⟨hd, hg, hpt, fun p' hp' => ?_⟩
    obtain rfl := Option.some.inj (hp.symm.trans hp')
    exact ⟨hr p hp, rfl⟩
  | splice key ppred pred g x y hpc hg =>
    rw [hpc] at hq
    exact hq.elim
  | unlock e k p hpc hp =>
    -- the version read is that of the half that the thread holds
    rw [hpc] at hk
    have hv : ∀ x, e.node = some x →
        ((s.lock x).lr e.right).version = ((s.lock p).lr e.right).version := by
      intro x hx
      obtain rfl := Option.some.inj (hp.symm.trans hx)
      rfl
    cases k with
    | inserted key val =>
      exact inv.goto (fun _ h => h.elim) (.inr (by rw [hpc]; rfl)) ⟨hk, hv⟩
    | deleted key pred x =>
      exact inv.goto (fun _ h => h.elim) (.inr (by rw [hpc]; rfl)) ⟨hk.1, hv, hk.2.1, hk.2.2⟩
  | storeVersion e v k p hpc hp =>
    -- only the holder writes the half
    rw [hpc] at hk
    have hhold : (s.pc t).holds = some (p, e.right) := by
      rw [hpc]
      exact Edge.half_of_node hp
    have hheld : ∀ q d, q ≠ t → (s.pc q).holds = some (p, d) →
        ((s.lock p).unlock e.right v).lr d = (s.lock p).lr d := by
      intro q d hqt hqd
      refine Tl.set_lr_of_ne ?_
      rintro rfl
      exact inv.not_held hhold hqt hqd
    cases k with
    | inserted key val =>
      exact inv.setLock (fun _ h => h.elim) (inv.not_removed hhold) hheld (fun _ _ h => nomatch h)
        fun _ => trivial
    | deleted key pred x =>
      exact inv.setLock (fun _ h => h.elim) (inv.not_removed hhold) hheld (fun _ _ h => nomatch h)
        fun c => ⟨hk.2.2.1.mono c, hk.2.2.2.mono c⟩
  | revert key ppred pred g hpc hg =>
    -- the ticket is read under the lock
    rw [hpc] at hk
    refine inv.goto (fun _ h => h.elim) (.inr (by rw [hpc]; rfl)) ⟨hk.1, hk.2, fun x hx => ?_⟩
    obtain rfl := Option.some.inj (hg.symm.trans hx)
    rfl
  | storeTicket key ppred pred v g hpc hg =>
    -- the half is given back as it was before
    rw [hpc] at hk
    have hhold : (s.pc t).holds = some (g, ppred.right) := by
      rw [hpc]
      exact Edge.half_of_node hg
    refine inv.setLock (fun _ h => h.elim) (inv.not_removed hhold) (fun q d hqt hqd => ?_)
      (fun _ _ h => nomatch h) fun _ => hk.1
    refine Tl.set_lr_of_ne ?_
    rintro rfl
    exact inv.not_held hhold hqt hqd
  | retireCurr key pred x hpc =>
    -- what was cut off has been met, and nothing else is needed for it
    rw [hpc] at hk
    exact inv.goto (fun _ h => h.elim) (.inl rfl) hk
  | retirePred key pred p x hpc hp =>
    rw [hpc] at hk
    exact inv.goto (fun _ h => h.elim) (.inl rfl) hk.2
  | endVal op x hpc =>
    rw [hpc] at hk
    exact inv.goto (fun _ h => h.elim) (.inl rfl) hk
  | readVal op x hpc => exact inv.goto (fun _ h => h.elim) (.inl rfl) trivial
  | endRetry u ppred pred hpc =>
    rw [hpc] at hk
    refine inv.goto (fun _ h => h.elim) (.inl rfl) ?_
    cases u <;> exact hk
  | endOp op r hpc => exact inv.goto (fun _ h => h.elim) (.inl rfl) trivial
  | ret op r hpc => exact inv.goto (fun _ h => h.elim) (.inl rfl) trivial

/-- The two updates. -/
theorem Step.update_cases {ev : Event α K V} (h : Step cfg s t ev s') (hq : ¬ (s.pc t).Quiet) :
    (∃ key val pred x a b p, s.pc t = .storeChild key val pred x a b ∧ pred.node = some p ∧
      s' = (s.setChild p pred.right (some b)).goto t (.unlock pred (.inserted key val))) ∨
    ∃ key ppred pred g x y, s.pc t = .splice key ppred pred x y ∧ ppred.node = some g ∧
      s' = (s.setChild g ppred.right y).goto t (.unlock ppred (.deleted key pred x)) := by
  cases h with
  | storeChild key val pred p x a b hpc hp =>
    exact .inl ⟨key, val, pred, x, a, b, p, hpc, hp, rfl⟩
  | splice key ppred pred g x y hpc hg =>
    exact .inr ⟨key, ppred, pred, g, x, y, hpc, hg, rfl⟩
  | _ => exact (hq (by simp [*, Pc.Quiet])).elim

/-- **Every step keeps the invariant.** -/
theorem Step.inv {ev : Event α K V} (inv : Inv cfg s) (hok : Sound s (t, ev))
    (h : Step cfg s t ev s') : Inv cfg s' ∧ Change cfg s s' t := by
  by_cases hq : (s.pc t).Quiet
  · have hkeeps := h.keeps inv hok hq
    exact ⟨hkeeps.inv, hkeeps.change⟩
  · obtain ⟨u, hu⟩ := inv.tree
    have hk := inv.knows t
    rcases h.update_cases hq with ⟨key, val, pred, x, a, b, p, hpc, hp, rfl⟩ |
      ⟨key, ppred, pred, g, x, y, hpc, hg, rfl⟩
    · rw [hpc] at hk
      obtain ⟨u', c, hu', -⟩ := inv.insert hu hpc hp rfl
      have hhold : (s.pc t).holds = pred.half := by rw [hpc]; rfl
      refine ⟨inv.of_change c ⟨u', hu'⟩ ?_ ?_ ?_, c⟩
      · intro x hx
        rw [State.goto_pc_self] at hx
        exact hx.elim
      · intro x d hx
        rw [State.goto_pc_self] at hx
        have hx := hhold.trans hx
        exact ⟨inv.taken t x d hx, fun q hqt => inv.not_held hx hqt⟩
      · rw [State.goto_pc_self]
        exact hk.1.edge.met.mono c
    · rw [hpc] at hk
      obtain ⟨p, hp, -⟩ := hk.1.edge.met
      obtain ⟨u', c, hu', -⟩ := inv.delete hu hpc hg hp rfl
      have hhold : (s.pc t).holds = ppred.half := by rw [hpc]; rfl
      refine ⟨inv.of_change c ⟨u', hu'⟩ ?_ ?_ ?_, c⟩
      · intro x hx
        rw [State.goto_pc_self] at hx
        exact hx.elim
      · intro x d hx
        rw [State.goto_pc_self] at hx
        have hx := hhold.trans hx
        exact ⟨inv.taken t x d hx, fun q hqt => inv.not_held hx hqt⟩
      · rw [State.goto_pc_self]
        exact ⟨hk.1.pedge.met.mono c, hk.1.edge.met.mono c, hk.1.leaf.mono c⟩

omit [DecidableEq α] [DecidableEq ι] in
/-- The tree after the constructor. -/
theorem Init.tree (h : Init cfg s) : IsTree cfg s
    (.node cfg.root cfg.keyMax fun right =>
      bif right then .leaf cfg.max cfg.keyMax else .leaf cfg.min cfg.keyMin) := by
  have hmem : ∀ x, ExtTree.Mem x (.node cfg.root cfg.keyMax fun right =>
      bif right then .leaf cfg.max cfg.keyMax else .leaf cfg.min cfg.keyMin) →
      s.allocated x = true := by
    rintro x (rfl | ⟨_ | _, rfl⟩)
    · exact (h.allocated _).mpr (.inl rfl)
    · exact (h.allocated _).mpr (.inr (.inl rfl))
    · exact (h.allocated _).mpr (.inr (.inr rfl))
  exact {
    rep := by
      refine ⟨h.key_root, ?_⟩
      rintro (_ | _)
      · exact ⟨h.child_root false, h.key_min, h.child_min⟩
      · exact ⟨h.child_root true, h.key_max, h.child_max⟩
    top := ⟨_, rfl⟩
    min := .inr ⟨false, rfl, rfl⟩
    max := .inr ⟨true, rfl, rfl⟩
    ordered := by
      rintro (_ | _)
      · refine ⟨?_, trivial⟩
        rintro k rfl
        exact toward_of_lt cfg.keyMin_lt
      · refine ⟨?_, trivial⟩
        rintro k rfl
        exact toward_of_le le_rfl
    distinct := by
      refine ⟨?_, ?_, ?_⟩
      · rintro (_ | _)
        · exact cfg.root_ne_min
        · exact cfg.root_ne_max
      · rintro (_ | _) y rfl
        · exact cfg.min_ne_max
        · exact cfg.min_ne_max.symm
      · rintro (_ | _)
        · exact trivial
        · exact trivial
    met := by
      refine fun x hx => ⟨hmem x hx, fun q hq => ?_⟩
      rw [h.pc] at hq
      exact hq.elim
    leaf := by
      rintro x k (h | ⟨_ | _, rfl, rfl⟩) hk
      · exact h.elim
      · exact (lt_irrefl _ hk.1).elim
      · exact (lt_irrefl _ hk.2).elim
    node := by
      rintro x (rfl | ⟨_ | _, h⟩)
      · exact h.val _ ((h.allocated _).mpr (.inl rfl))
      · exact h.elim
      · exact h.elim }

omit [DecidableEq α] [DecidableEq ι] in
theorem Init.inv (h : Init cfg s) : Inv cfg s where
  tree := ⟨_, h.tree⟩
  own := by
    intro q q' x hx
    rw [h.pc] at hx
    exact hx.elim
  taken := by
    intro q x d hx
    rw [h.pc] at hx
    cases hx
  excl := by
    intro q q' x d hx
    rw [h.pc] at hx
    cases hx
  knows := by
    intro q
    rw [h.pc]
    trivial

/-- **The invariant holds** in every run in which the locks do what they are for. -/
theorem Inv.of_reachable (h : (lts cfg).ReachableBy Sound s) : Inv cfg s := by
  refine h.invariant ?_ ?_
  · exact fun s hs => Init.inv hs
  · intro s a s' _ inv hok hs
    exact (Step.inv inv hok hs).1

end Ticket
end PopSetbench

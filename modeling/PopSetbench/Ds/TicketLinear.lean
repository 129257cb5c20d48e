import PopSetbench.Ds.TicketSchedule
import PopSetbench.Ds.TicketStep

/-!
# The ticket tree: linearizability

An operation that changes nothing is explained by a moment at which its search passed the leaf it
came to. Such a moment exists for every node the search comes to: it is the present one, or the
node is the child of a removed one, and was so when that was spliced out. The other operations are
explained by the store that links the new leaf or splices the old one out.
-/

namespace PopSetbench
namespace Ticket

open Function
open ExtTree (At Mem IsLeaf IsNode Rep Ordered Distinct)

variable {α ι K V : Type} [LinearOrder K]

/-- The key is in the tree, with this value. -/
def Contents (cfg : Config α K) (s : State α ι K V) (k : K) (v : V) : Prop :=
  ∃ u : ExtTree α K, u.Rep s.heap ∧ u.root = cfg.root ∧ ∃ x, u.IsLeaf x k ∧ s.val x = some v

section

variable (cfg : Config α K) (s : State α ι K V) (t : ι)
  (H : List (State α ι K V × (ι × Event α K V) × State α ι K V))

/-- The result of thread `t` is explained by the interval. -/
def Answered : Op K V → Ret V → Prop
  | .contains k, .value none => Sometime (fun s₀ => ∀ v, ¬ Contents cfg s₀ k v) H
  | .contains k, .value (some v) => Sometime (fun s₀ => Contents cfg s₀ k v) H
  | op, r => Explained (Contents cfg) id t H op r

/-- At a moment of the interval a search for `k` passed the node, which was as it is now. -/
def Sight (k : K) (x : α) : Prop :=
  Sometime (fun s₀ => OnPath cfg s₀ k x ∧ s₀.key x = s.key x ∧ s₀.val x = s.val x ∧
    (Inner s₀ x ↔ Inner s x)) H

/-- The search for `k` has come to the node, and what it will see from there on it passes at some
moment. -/
def Traced (k : K) (x : α) : Prop :=
  Met s x ∧ Sight cfg s H k x ∧ (Inner s x → Leads cfg s (Sight cfg s H k) k x)

/-- The value is in the leaf and explains the result. -/
def Returns (op : Op K V) (x : α) : Prop :=
  Met s x ∧ ∃ v, s.val x = some v ∧ Answered cfg t H op (.value (some v))

/-- What an update that is done has behind it. -/
def Done : After α K V → Prop
  | .inserted key val => Answered cfg t H (.insert key val) (.value none)
  | .deleted key _ x => Returns cfg s t H (.erase key) x

/-- What thread `t` has seen in its operation, by where it is. -/
def PcSeen : Pc α K V → Prop
  | .findLeft key x => Traced cfg s H key x
  | .findKey key x => Traced cfg s H key x
  | .findChild key x _ => Traced cfg s H key x
  | .findTest key x => Traced cfg s H key x
  | .loadVer u _ _ x => Traced cfg s H u.key x
  | .readKey u _ pred => ∀ x, pred.node = some x → Traced cfg s H u.key x
  | .loadChild u _ pred => ∀ x, pred.node = some x → Traced cfg s H u.key x
  | .loadLeft u _ _ x => Traced cfg s H u.key x
  | .testKey u _ _ x => Traced cfg s H u.key x
  | .endVal op x => Returns cfg s t H op x
  | .readVal op x => Returns cfg s t H op x
  | .unlock _ k => Done cfg s t H k
  | .storeVersion _ _ k => Done cfg s t H k
  | .retireCurr key _ x => Returns cfg s t H (.erase key) x
  | .retirePred key _ x => Returns cfg s t H (.erase key) x
  | .endOp op r => Answered cfg t H op r
  | .ret op r => Answered cfg t H op r
  | _ => True

end

variable {cfg : Config α K} {s s' : State α ι K V} {t q : ι} {u u' : ExtTree α K} {key k : K}
  {x y p : α} {v : V} {H : List (State α ι K V × (ι × Event α K V) × State α ι K V)}
  {e : State α ι K V × (ι × Event α K V) × State α ι K V}

/-! ### The contents of the tree -/

theorem IsTree.contents_iff (hu : IsTree cfg s u) :
    Contents cfg s k v ↔ ∃ x, u.find k = (x, k) ∧ s.val x = some v := by
  constructor
  · rintro ⟨u', hrep, hroot, x, hx, hv⟩
    obtain ⟨c, hc⟩ := hu.top
    have hroot' : u.root = cfg.root := by
      rw [hc]
      rfl
    obtain rfl := hrep.unique hu.rep (hroot.trans hroot'.symm)
    exact ⟨x, hu.ordered.isLeaf_iff.mp hx, hv⟩
  · rintro ⟨x, hx, hv⟩
    obtain ⟨c, hc⟩ := hu.top
    refine ⟨u, hu.rep, ?_, x, hu.ordered.isLeaf_iff.mpr hx, hv⟩
    rw [hc]
    rfl

/-- **An insertion adds the key**, which was absent. -/
theorem contents_insert {a : α} {val : V} (c : Change cfg s s' t) (hu : IsTree cfg s u)
    (hu' : IsTree cfg s' u') (hx : u.find key = (x, s.key x)) (hne : s.key x ≠ key)
    (ha : u'.find key = (a, key)) (hval : s'.val a = some val)
    (hother : ∀ k, k ≠ key → ∀ y, u'.find k = (y, k) ↔ u.find k = (y, k)) :
    (∀ w, ¬ Contents cfg s key w) ∧
      ∀ k w, Contents cfg s' k w ↔ Contents cfg s k w ∨ (k = key ∧ w = val) := by
  have habs : ∀ w, ¬ Contents cfg s key w := by
    intro w h
    obtain ⟨y, hy, -⟩ := hu.contents_iff.mp h
    exact hne (congrArg Prod.snd (hx.symm.trans hy))
  refine ⟨habs, fun k w => ?_⟩
  by_cases hk : k = key
  · subst hk
    rw [hu'.contents_iff]
    constructor
    · rintro ⟨y, hy, hw⟩
      obtain rfl : a = y := congrArg Prod.fst (ha.symm.trans hy)
      exact .inr ⟨rfl, Option.some.inj (hw.symm.trans hval)⟩
    · rintro (h | ⟨-, rfl⟩)
      · exact (habs w h).elim
      · exact ⟨a, ha, hval⟩
  · rw [hu.contents_iff, hu'.contents_iff]
    constructor
    · rintro ⟨y, hy, hw⟩
      have hy := (hother k hk y).mp hy
      rw [c.val y (hu.met y (hu.ordered.isLeaf_iff.mpr hy).mem)] at hw
      exact .inl ⟨y, hy, hw⟩
    · rintro (⟨y, hy, hw⟩ | ⟨h, -⟩)
      · refine ⟨y, (hother k hk y).mpr hy, ?_⟩
        rw [c.val y (hu.met y (hu.ordered.isLeaf_iff.mpr hy).mem)]
        exact hw
      · exact (hk h).elim

/-- **A deletion removes the key**. -/
theorem contents_delete (c : Change cfg s s' t) (hu : IsTree cfg s u) (hu' : IsTree cfg s' u')
    (hother : ∀ k z, u'.find k = (z, k) ↔ u.find k = (z, k) ∧ k ≠ key) (k : K) (w : V) :
    Contents cfg s' k w ↔ Contents cfg s k w ∧ k ≠ key := by
  rw [hu.contents_iff, hu'.contents_iff]
  constructor
  · rintro ⟨y, hy, hw⟩
    obtain ⟨hy, hk⟩ := (hother k y).mp hy
    rw [c.val y (hu.met y (hu.ordered.isLeaf_iff.mpr hy).mem)] at hw
    exact ⟨⟨y, hy, hw⟩, hk⟩
  · rintro ⟨⟨y, hy, hw⟩, hk⟩
    refine ⟨y, (hother k y).mpr ⟨hy, hk⟩, ?_⟩
    rw [c.val y (hu.met y (hu.ordered.isLeaf_iff.mpr hy).mem)]
    exact hw

/-! ### What an operation has seen stays seen -/

theorem Answered.cons {op : Op K V} {r : Ret V} (h : Answered cfg t H op r) :
    Answered cfg t (e :: H) op r := by
  unfold Answered at *
  split at h
  · exact Sometime.cons h
  · exact Sometime.cons h
  · exact Explained.cons h

theorem Sight.cons (c : Change cfg s s' q) (hm : Met s x) (h : Sight cfg s H k x) :
    Sight cfg s' (e :: H) k x := by
  unfold Sight at *
  rw [c.key x hm, c.val x hm, c.inner x hm]
  exact h.cons

/-- The present state is one of the interval. -/
theorem Sight.now (hs : Sometime (fun s₀ => s₀ = s) H) (h : OnPath cfg s k x) :
    Sight cfg s H k x := by
  refine hs.mono ?_
  rintro s₀ rfl
  exact ⟨h, rfl, rfl, Iff.rfl⟩

theorem Traced.cons (c : Change cfg s s' q) (hs : Sometime (fun s₀ => s₀ = s) H)
    (h : Traced cfg s H k x) : Traced cfg s' (e :: H) k x := by
  obtain ⟨hm, hsight, hleads⟩ := h
  refine ⟨c.met x hm, hsight.cons c hm, fun hx => ?_⟩
  have hx := (c.inner x hm).mp hx
  exact (hleads hx).mono c (fun y hy hq => hq.cons c hy)
    (fun y hy => (Sight.now hs hy).cons c hy.met) hm hx

/-- The search begins. -/
theorem Traced.of_onPath (hs : Sometime (fun s₀ => s₀ = s) H) (h : OnPath cfg s k x) :
    Traced cfg s H k x :=
  ⟨h.met, .now hs h, fun _ => .alive h⟩

/-- The search goes on. -/
theorem Traced.next (hs : Sometime (fun s₀ => s₀ = s) H) (h : Traced cfg s H k x)
    (hx : Inner s x) (hy : s.child x (toward k (s.key x)) = some y) : Traced cfg s H k y := by
  cases h.2.2 hx with
  | alive h => exact .of_onPath hs (h.step hy)
  | dead _ hq hl => exact ⟨(hq y hy).1, (hq y hy).2, fun hi => hl y hy hi⟩

theorem Returns.cons {op : Op K V} (c : Change cfg s s' q) (h : Returns cfg s t H op x) :
    Returns cfg s' t (e :: H) op x := by
  obtain ⟨hm, v, hv, h⟩ := h
  exact ⟨c.met x hm, v, (c.val x hm).trans hv, h.cons⟩

theorem Done.cons {k : After α K V} (c : Change cfg s s' q) (h : Done cfg s t H k) :
    Done cfg s' t (e :: H) k := by
  cases k with
  | inserted key val =>
    have h : Answered cfg t H (.insert key val) (.value none) := h
    exact h.cons
  | deleted key pred x => exact Returns.cons c h

/-- The leaf the search has come to has the key. -/
theorem Traced.found (h : Traced cfg s H k x) (hl : ¬ Inner s x) (hk : s.key x = k)
    (hu : UserKey cfg k) :
    ∃ v, s.val x = some v ∧ Sometime (fun s₀ => Contents cfg s₀ k v) H := by
  obtain ⟨e, he, ⟨u₀, hu₀, w, hw, hr⟩, hkey, hval, hinner⟩ := h.2.1
  have hleaf := hu₀.at_leaf hw hr fun hi => hl (hinner.mp hi)
  rw [hleaf, hkey, hk] at hw
  obtain ⟨v, hv⟩ := hu₀.leaf x k hw.isLeaf hu
  refine ⟨v, hval.symm.trans hv, e, he, ?_⟩
  exact hu₀.contents_iff.mpr ⟨x, hw.find_eq, hv⟩

/-- It has another key. -/
theorem Traced.missed (h : Traced cfg s H k x) (hl : ¬ Inner s x) (hk : s.key x ≠ k) :
    Sometime (fun s₀ => ∀ v, ¬ Contents cfg s₀ k v) H := by
  obtain ⟨e, he, ⟨u₀, hu₀, w, hw, hr⟩, hkey, -, hinner⟩ := h.2.1
  have hleaf := hu₀.at_leaf hw hr fun hi => hl (hinner.mp hi)
  rw [hleaf, hkey] at hw
  refine ⟨e, he, fun v hc => ?_⟩
  obtain ⟨y, hy, -⟩ := hu₀.contents_iff.mp hc
  exact hk (congrArg Prod.snd (hw.find_eq.symm.trans hy))

/-- **What an operation has seen stays seen.** -/
theorem PcSeen.cons {p : Pc α K V} (c : Change cfg s s' q) (hs : Sometime (fun s₀ => s₀ = s) H)
    (h : PcSeen cfg s t H p) : PcSeen cfg s' t (e :: H) p := by
  cases p with
  | findLeft key x => exact Traced.cons c hs h
  | findKey key x => exact Traced.cons c hs h
  | findChild key x right => exact Traced.cons c hs h
  | findTest key x => exact Traced.cons c hs h
  | loadVer u ppred pred x => exact Traced.cons c hs h
  | readKey u ppred pred => exact fun x hx => (h x hx).cons c hs
  | loadChild u ppred pred => exact fun x hx => (h x hx).cons c hs
  | loadLeft u ppred pred x => exact Traced.cons c hs h
  | testKey u ppred pred x => exact Traced.cons c hs h
  | endVal op x => exact Returns.cons c h
  | readVal op x => exact Returns.cons c h
  | unlock e k => exact Done.cons c h
  | storeVersion e v k => exact Done.cons c h
  | retireCurr key pred x => exact Returns.cons c h
  | retirePred key pred x => exact Returns.cons c h
  | endOp op r => exact Answered.cons h
  | ret op r => exact Answered.cons h
  | _ => trivial

/-! ### What an operation has seen, step by step -/

variable [DecidableEq α] [DecidableEq ι]

/-- A step that is no update, read as a move to another place that changes nothing. -/
theorem PcSeen.move (inv : Inv cfg s) (hs : Sometime (fun s₀ => s₀ = s) H)
    (h : PcSeen cfg s t H (s.pc t)) {ev : Event α K V} (hq : (s.pc t).Quiet)
    (hstep : Step cfg s t ev s') : PcSeen cfg s t H (s'.pc t) := by
  have hk := inv.knows t
  cases hstep with
  | startOp op ppred pred hpc =>
    -- an operation begins at the root, which lies on the path of every key
    rw [State.goto_pc_self]
    obtain ⟨v, hv⟩ := inv.tree
    have htr : Traced cfg s H op.key cfg.root := .of_onPath hs hv.onPath_root
    cases op with
    | contains key => exact htr
    | insert key val => exact htr
    | erase key => exact htr
  | findLeft key x hpc hl =>
    rw [hpc] at h
    rw [State.goto_pc_self]
    exact h
  | findNull key x hpc hl =>
    rw [hpc] at h
    rw [State.goto_pc_self]
    exact h
  | findKey key x hpc =>
    rw [hpc] at h
    rw [State.goto_pc_self]
    exact h
  | findChild key x y right hpc hy =>
    -- from a node of the path to a node of the path, at this moment or an earlier one
    rw [hpc] at h hk
    rw [State.goto_pc_self]
    obtain ⟨-, -, hi, rfl⟩ := hk
    exact Traced.next hs h hi hy
  | findHit key x hpc hx =>
    rw [hpc] at h hk
    rw [State.goto_pc_self]
    exact ⟨hk.2.1, Traced.found h hk.2.2 hx hk.1⟩
  | findMiss key x hpc hx =>
    rw [hpc] at h hk
    rw [State.goto_pc_self]
    exact Traced.missed h hk.2.2 hx
  | loadVer u ppred pred x hpc =>
    rw [hpc] at h
    rw [State.goto_pc_self]
    intro x' hx'
    obtain rfl := Option.some.inj hx'
    exact h
  | readKey u ppred pred x hpc hx =>
    rw [hpc] at h
    rw [State.goto_pc_self]
    intro x' hx'
    obtain rfl := Option.some.inj hx'
    exact h x hx
  | loadChild u ppred pred x y hpc hx hy =>
    -- the same for the walk of an update, which goes on from `pred`
    rw [hpc] at h hk
    rw [State.goto_pc_self]
    obtain ⟨-, ⟨x', hx', hm, hi, hr⟩, -⟩ := hk
    obtain rfl := Option.some.inj (hx.symm.trans hx')
    rw [hr] at hy
    exact Traced.next hs (h x hx) hi hy
  | loadLeft u ppred pred x hpc hl =>
    rw [hpc] at h
    rw [State.goto_pc_self]
    exact h
  | loadNull u ppred pred x hpc hl =>
    rw [hpc] at h
    rw [State.goto_pc_self]
    exact h
  | hit u ppred pred x hpc hx =>
    -- `insertKey` has found the key and returns what is there
    rw [hpc] at h hk
    rw [State.goto_pc_self]
    cases u with
    | insert key val =>
      obtain ⟨v, hv, hc⟩ := Traced.found h hk.2.2.1.2 hx hk.1
      exact ⟨hk.2.2.1.1, v, hv, hc⟩
    | delete key => trivial
  | miss u ppred pred x hpc hx =>
    -- `deleteKey` has ended at a leaf with another key
    rw [hpc] at h hk
    rw [State.goto_pc_self]
    cases u with
    | insert key val => trivial
    | delete key => exact Traced.missed h hk.2.2.1.2 hx
  | storeChild key val pred p x a b hpc hp =>
    rw [hpc] at hq
    exact hq.elim
  | splice key ppred pred g x y hpc hg =>
    rw [hpc] at hq
    exact hq.elim
  | unlock e k p hpc hp =>
    -- the effect of the update was recorded at its store, and stays
    rw [hpc] at h
    rw [State.goto_pc_self]
    exact h
  | storeVersion e v k p hpc hp =>
    rw [hpc] at h
    rw [State.goto_pc_self]
    cases k with
    | inserted key val => exact h
    | deleted key pred x => exact h
  | retireCurr key pred x hpc =>
    rw [hpc] at h
    rw [State.goto_pc_self]
    exact h
  | retirePred key pred p x hpc hp =>
    rw [hpc] at h
    rw [State.goto_pc_self]
    exact h
  | endVal op x hpc =>
    rw [hpc] at h
    rw [State.goto_pc_self]
    exact h
  | readVal op x hpc =>
    rw [hpc] at h
    rw [State.goto_pc_self]
    obtain ⟨-, v, hv, h⟩ := h
    show Answered cfg t H op (.value (s.val x))
    rw [hv]
    exact h
  | endOp op r hpc =>
    rw [hpc] at h
    rw [State.goto_pc_self]
    exact h
  | _ =>
    rw [State.goto_pc_self]
    trivial

/-- **Step of the observed thread.** -/
theorem PcSeen.step_self (inv : Inv cfg s) (hs : Sometime (fun s₀ => s₀ = s) H)
    (h : PcSeen cfg s t H (s.pc t)) {ev : Event α K V} (hok : Sound s (t, ev))
    (hstep : Step cfg s t ev s') : PcSeen cfg s' t ((s, (t, ev), s') :: H) (s'.pc t) := by
  obtain ⟨inv', c⟩ := hstep.inv inv hok
  by_cases hq : (s.pc t).Quiet
  · exact (h.move inv hs hq hstep).cons c hs
  · obtain ⟨u, hu⟩ := inv.tree
    rcases hstep.update_cases hq with ⟨key, val, pred, x, a, b, p, hpc, hp, rfl⟩ |
      ⟨key, ppred, pred, g, x, y, hpc, hg, rfl⟩
    · obtain ⟨u', c, hu', hx, hne, ha, hval, hother, -⟩ := inv.insert hu hpc hp rfl
      obtain ⟨habs, hadd⟩ := contents_insert c hu hu' hx hne ha hval hother
      rw [State.goto_pc_self]
      exact Explained.insert_now habs hadd
    · have hk := inv.knows t
      rw [hpc] at hk
      obtain ⟨p, hp, -⟩ := hk.1.edge.met
      obtain ⟨u', c, hu', ⟨cg, cp, hat, hcg, hcp⟩, ⟨v, hv⟩, hother, -⟩ :=
        inv.delete hu hpc hg hp rfl
      rw [State.goto_pc_self]
      refine ⟨c.met x hk.1.leaf.1, v, hv, ?_⟩
      refine Explained.erase_now ?_ (contents_delete c hu hu' hother)
      refine hu.contents_iff.mpr ⟨x, ?_, hv⟩
      have hatp : At key u (.node p (s.key p) cp) := hcg ▸ hat.step
      rw [hatp.step.find, hcp]
      rfl

/-- The other threads stay where they are. -/
theorem Step.pc_of_ne {ev : Event α K V} (hs : Step cfg s t ev s') (hq : q ≠ t) :
    s'.pc q = s.pc q := by
  cases hs <;> exact update_of_ne hq ..

/-- An invocation leads to the start of the operation. -/
theorem Step.pc_of_invoke {op : Op K V} (hs : Step cfg s t (.invoke op) s') :
    s'.pc t = .start op .none .none := by
  cases hs with
  | invoke op hpc hmin hmax => exact State.goto_pc_self

/-- Nothing but an invocation leads out of an idle state. -/
theorem Step.ne_idle {ev : Event α K V} (hs : Step cfg s t ev s') (hev : ∀ op, ev ≠ .invoke op) :
    s.pc t ≠ .idle := by
  intro hidle
  cases hs with
  | invoke op hpc hmin hmax => exact hev op rfl
  | _ => simp_all

/-- **What an operation has seen**, in every run. -/
theorem PcSeen.of_reachable
    (h : ((lts cfg).since (invokedBy t)).ReachableBy (fun x a => Sound x.1 a) (s, H)) :
    PcSeen cfg s t H (s.pc t) := by
  have hinv : PcSeen cfg s t H (s.pc t) ∧
      (s.pc t = .idle ∨ Sometime (fun s₀ => s₀ = s) H) := by
    refine h.invariant (P := fun y => PcSeen cfg y.1 t y.2 (y.1.pc t) ∧
      (y.1.pc t = .idle ∨ Sometime (fun s₀ => s₀ = y.1) y.2)) ?_ ?_
    · intro y hy
      rw [hy.1.pc t]
      exact ⟨trivial, .inl rfl⟩
    · rintro ⟨s, H⟩ ⟨q, ev⟩ ⟨s', H'⟩ hr ⟨hseen, hlast⟩ hok ⟨hs, hH⟩
      have inv : Inv cfg s := Inv.of_reachable hr.of_since
      have hs : Step cfg s q ev s' := hs
      have hok : Sound s (q, ev) := hok
      obtain rfl : H' = (s, (q, ev), s') :: bif invokedBy t (q, ev) then [] else H := hH
      refine ⟨?_, .inr (.now rfl)⟩
      show PcSeen cfg s' t _ (s'.pc t)
      by_cases hqt : q = t
      · subst hqt
        cases ev with
        | invoke op =>
          -- a new interval begins, in which nothing has been seen
          rw [hs.pc_of_invoke]
          trivial
        | _ => exact hseen.step_self inv (hlast.resolve_left (hs.ne_idle nofun)) hok hs
      · obtain ⟨-, c⟩ := hs.inv inv hok
        have hstart : invokedBy t (q, ev) = false := by
          cases ev with
          | invoke op => exact decide_eq_false hqt
          | _ => rfl
        rw [hstart, hs.pc_of_ne (Ne.symm hqt)]
        rcases hlast with hidle | hlast
        · rw [show s.pc t = .idle from hidle]
          trivial
        · exact hseen.cons c hlast
  exact hinv.1

/-! ### The tree, and what its operations return -/

/-- The nodes a deletion works with. -/
def Pc.deletes : Pc α K V → Option (Edge α × Edge α)
  | .lockPpred _ ppred pred _ => some (ppred, pred)
  | .lockBoth _ ppred pred _ => some (ppred, pred)
  | .loadSibling _ ppred pred _ => some (ppred, pred)
  | .splice _ ppred pred _ _ => some (ppred, pred)
  | _ => none

omit [DecidableEq α] [DecidableEq ι] in
/-- A leaf with a user key has a parent and a grandparent. -/
theorem IsTree.site_of_leaf (hu : IsTree cfg s u) (hk : UserKey cfg k) (hx : u.IsLeaf x k) :
    ∃ g p, Site s u k g p x := by
  -- going down the path, with the parent, from below the root on
  have hdown : ∀ {v : ExtTree α K} {g : α} {cg : Bool → ExtTree α K},
      At k u (.node g (s.key g) cg) → cg (toward k (s.key g)) = v → v.IsLeaf x k →
      (∃ g p, Site s u k g p x) ∨ v = .leaf x k := by
    intro v
    induction v with
    | leaf y ky =>
      rintro g cg - - ⟨rfl, rfl⟩
      exact .inr rfl
    | node y ky c ih =>
      intro g cg hat hv hleaf
      have haty : At k u (.node y ky c) := hv ▸ hat.step
      obtain rfl : s.key y = ky := (haty.rep hu.rep).1
      rw [(haty.ordered hu.ordered).isLeaf_iff, (At.down .here).find,
        ← ((haty.ordered hu.ordered) _).2.isLeaf_iff] at hleaf
      rcases ih _ haty rfl hleaf with h | h
      · exact .inl h
      · exact .inl ⟨g, y, cg, c, hat, hv, h⟩
  obtain ⟨c, hc⟩ := hu.top
  have hroot : At k u (.node cfg.root (s.key cfg.root) c) := by
    rw [hu.key_root, hc]
    exact .here
  have hleft : (c (toward k (s.key cfg.root))).IsLeaf x k := by
    rw [hu.ordered.isLeaf_iff, hroot.step.find] at hx
    exact (hroot.step.ordered hu.ordered).isLeaf_iff.mpr hx
  rcases hdown hroot rfl hleft with h | h
  · exact h
  · -- otherwise the leaf would be right below the root
    have hchild := ((hroot.rep hu.rep).2 (toward k (s.key cfg.root))).1
    have hrep := hroot.step.rep hu.rep
    rw [h] at hchild hrep
    rw [hu.key_root] at hchild
    exact (hu.key_below_root hk hchild (fun hi => hi (hrep.2 false)) hrep.1).elim

/-- **The ticket tree is an external search tree**, in every run in which the locks do what they
are for. No key is in it twice, its user leaves have two inner nodes above them, deletions do not
come upon `NULL` for these, and they remove exactly a leaf and its parent; and every result is
explained by the contents of the tree at a moment of the operation. -/
theorem ticket_tree (cfg : Config α K) :
    (∀ s : State α ι K V, (lts cfg).ReachableBy Sound s →
      (∃ u, IsTree cfg s u ∧ (∀ x y k, u.IsLeaf x k → u.IsLeaf y k → x = y) ∧
        ∀ x k, u.IsLeaf x k → UserKey cfg k → ∃ g p, Site s u k g p x) ∧
      (∀ t ppred pred, (s.pc t).deletes = some (ppred, pred) →
        ppred.node ≠ none ∧ pred.node ≠ none) ∧
      ∀ t key ppred pred x y ev s', s.pc t = .splice key ppred pred x y →
        Step cfg s t ev s' → ∃ u u' g p, IsTree cfg s u ∧ IsTree cfg s' u' ∧
          Site s u key g p x ∧ ∀ z, u'.Mem z ↔ u.Mem z ∧ z ≠ p ∧ z ≠ x) ∧
    ∀ (t : ι) (s : State α ι K V) H,
      ((lts cfg).since (invokedBy t)).ReachableBy (fun x a => Sound x.1 a) (s, H) →
      ∀ op r, s.pc t = .ret op r → Answered cfg t H op r := by
  refine ⟨fun s hs => ?_, fun t s H hs op r hpc => ?_⟩
  · -- what holds in every reachable state is read off the invariant
    have inv := Inv.of_reachable hs
    obtain ⟨u, hu⟩ := inv.tree
    refine ⟨⟨u, hu, fun x y k hx hy => hu.ordered.leaf_unique hx hy,
      fun x k hx hk => hu.site_of_leaf hk hx⟩, ?_, ?_⟩
    · -- `deleteKey` keeps its two edges from the search on
      intro t ppred pred hd
      have hedges : ∀ {key x}, DeleteOk cfg s key ppred pred x →
          ppred.node ≠ none ∧ pred.node ≠ none := by
        intro key x h
        obtain ⟨g, hg, -⟩ := h.pedge
        obtain ⟨p, hp, -⟩ := h.edge
        rw [hg, hp]
        exact ⟨Option.some_ne_none g, Option.some_ne_none p⟩
      have hk := inv.knows t
      cases hpc : s.pc t <;> rw [hpc] at hd hk
      case lockPpred key ppred' pred' x =>
        obtain ⟨rfl, rfl⟩ := Prod.mk.inj (Option.some.inj hd)
        exact hedges hk
      case lockBoth key ppred' pred' x =>
        obtain ⟨rfl, rfl⟩ := Prod.mk.inj (Option.some.inj hd)
        exact hedges hk.1
      case loadSibling key ppred' pred' x =>
        obtain ⟨rfl, rfl⟩ := Prod.mk.inj (Option.some.inj hd)
        exact hedges hk.1
      case splice key ppred' pred' x y =>
        obtain ⟨rfl, rfl⟩ := Prod.mk.inj (Option.some.inj hd)
        exact hedges hk.1
      all_goals cases hd
    · -- the only step of `splice` is the store that cuts off the leaf and its parent
      intro t key ppred pred x y ev s' hpc hstep
      have hk := inv.knows t
      rw [hpc] at hk
      obtain ⟨p, hp, -⟩ := hk.1.edge
      have hq : ¬ (s.pc t).Quiet := by
        rw [hpc]
        exact id
      rcases hstep.update_cases hq with ⟨_, _, _, _, _, _, _, hpc', -⟩ |
        ⟨key', ppred', pred', g, x', y', hpc', hg, hs'⟩
      · cases hpc.symm.trans hpc'
      · obtain ⟨rfl, rfl, rfl, rfl, rfl⟩ := Pc.splice.inj (hpc.symm.trans hpc')
        obtain ⟨u', -, hu', hsite, -, -, hmem⟩ := inv.delete hu hpc hg hp hs'
        exact ⟨u, u', g, p, hu, hu', hsite, hmem⟩
  · -- the answers are those that the run has seen
    have hseen := PcSeen.of_reachable hs
    rw [hpc] at hseen
    exact hseen

/-! ### A run -/

section

/-- Keys between 0 and 100, nodes with numbers. -/
def smallConfig : Config ℕ ℕ where
  keyMin := 0
  keyMax := 100
  root := 0
  min := 1
  max := 2
  keyMin_lt := zero_lt_hundred
  root_ne_min := Nat.zero_ne_one
  root_ne_max := by decide
  min_ne_max := by decide

/-- The tree after the constructor. -/
def smallState (ι : Type) : State ℕ ι ℕ ℕ where
  child x right := if x = 0 then some (bif right then 2 else 1) else none
  key x := if x = 1 then 0 else 100
  val _ := none
  lock _ := .zero
  allocated x := decide (x < 3)
  pc _ := .idle

theorem smallState_init (ι : Type) : Init smallConfig (smallState ι) where
  child_root _ := rfl
  child_min _ := rfl
  child_max _ := rfl
  key_root := rfl
  key_min := rfl
  key_max := rfl
  val _ _ := rfl
  lock _ _ := rfl
  allocated x := by
    show decide (x < 3) = true ↔ x = 0 ∨ x = 1 ∨ x = 2
    rw [decide_eq_true_iff]
    omega
  pc _ := rfl

theorem Step.pc_of_ret {s s' : State ℕ (Fin 2) ℕ ℕ} {t : Fin 2} {op : Op ℕ ℕ} {r : Ret ℕ}
    (hs : Step smallConfig s t (.ret op r) s') : s.pc t = .ret op r := by
  cases hs with
  | ret _ _ hpc => exact hpc

open Choice in
/-- Thread `t` inserts the key 5. Thread `u` is about to delete it and has taken the lock of the
root, when thread `t` copies the locks on its way to the key 7. Then thread `u` splices out the node
that thread `t` wants to lock; so thread `t` gives its new nodes back and tries again. -/
def pairSchedule (t u : Fin 2) : List (Fin 2 × Choice ℕ ℕ ℕ) :=
  call t (.insert 5 7) 6 ++ node t 3 0 ++ node t 4 8 ++ call u (.erase 5) 11 ++
    call t (.insert 7 8) 10 ++ node t 5 0 ++ node t 6 0 ++ steps u 9 ++
    steps t 9 ++ node t 7 0 ++ node t 8 7

/-- The tree is one after that, and the results of both calls are explained. -/
theorem ticket_tree_erase : ∃ (s : State ℕ (Fin 2) ℕ ℕ)
    (H : Fin 2 → List (State ℕ (Fin 2) ℕ ℕ × (Fin 2 × Event ℕ ℕ ℕ) × State ℕ (Fin 2) ℕ ℕ)),
    (∃ u, IsTree smallConfig s u) ∧ Answered smallConfig 0 (H 0) (.insert 7 8) (.value none) ∧
    Answered smallConfig 1 (H 1) (.erase 5) (.value (some 7)) := by
  have hinit : (lts smallConfig).ReachableBy Sound (smallState (Fin 2)) := .init (smallState_init _)
  obtain ⟨s, hr, hfound⟩ := (State.computes smallConfig).exists_reachableBy (pairSchedule 0 1) hinit
    (fun s a => decide (Sound s a)) (fun _ _ ha => of_decide_eq_true ha)
    (fun s => (s.goOn smallConfig 0 .go).any (fun a => a.1 = .ret (.insert 7 8) (.value none)) &&
      (s.goOn smallConfig 1 .go).any fun a => a.1 = .ret (.erase 5) (.value (some 7)))
    (by decide +kernel)
  obtain ⟨hgo₀, hgo₁⟩ := Bool.and_eq_true_iff.mp hfound
  obtain ⟨s₀, hs₀⟩ := State.step_of_goOn hgo₀
  obtain ⟨s₁, hs₁⟩ := State.step_of_goOn hgo₁
  have hlog : ∀ t, ∃ H, ((lts smallConfig).since (invokedBy t)).ReachableBy
      (fun x a => Sound x.1 a) (s, H) := fun t => hr.exists_since
  choose H hH using hlog
  obtain ⟨htree, hret⟩ := ticket_tree (ι := Fin 2) (V := ℕ) smallConfig
  obtain ⟨⟨u, hu, -⟩, -⟩ := htree s hr
  exact ⟨s, H, ⟨u, hu⟩, hret 0 s _ (hH 0) _ _ hs₀.pc_of_ret,
    hret 1 s _ (hH 1) _ _ hs₁.pc_of_ret⟩

end

end Ticket
end PopSetbench

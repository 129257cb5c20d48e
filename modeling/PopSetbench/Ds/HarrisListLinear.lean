import PopSetbench.Ds.HarrisListInv

/-!
# Harris's list is linearizable

The set a state holds are the keys of its live nodes. It changes at two CASes only, the one that
links a new node and the one that marks a node (`Step.contents`).

The other results are explained by a moment of the search. When it loads the `next` of a node that
is not marked, nothing lies between that node and its successor then; when it unlinks what is
between `left` and `right`, nothing lies between these two afterwards. The test that finds `right`
unmarked is a moment at which its key is present.
-/

namespace PopSetbench
namespace HarrisList

open Function
open Heap (Reach)

variable {α ι K V : Type} [LinearOrder K] {cfg : Config α K V} {s s' : State α ι K V} {key : K}
  {l x r a : α} {t : ι}

variable (cfg s) in
/-- The set contains the key; values are not observed. -/
def Contents (k : K) (_ : Unit) : Prop :=
  k ∈ s.heap.keys cfg.lists

/-! ### What an operation has seen -/

section

variable (cfg : Config α K V) (s : State α ι K V) (t : ι)
  (H : List (State α ι K V × (ι × Event α K V) × State α ι K V))

/-- At a moment of the interval no key of the set lay between those of the nodes. -/
def Gap (l r : α) : Prop :=
  Sometime (fun s₀ => ∀ k, s.key l < k → k < s.key r → k ∉ s₀.heap.keys cfg.lists) H

/-- That is so of `left_node` and its successor, if there is one. -/
def LeftGap (left leftNext : Option α) : Prop :=
  ∀ l x, left = some l → leftNext = some x → Gap cfg s H l x

/-- At a moment of the interval the key of the node was in the set. -/
def Present (r : α) : Prop :=
  Sometime (fun s₀ => s.key r ∈ s₀.heap.keys cfg.lists) H

/-- The result of thread `t` is explained by the interval. -/
def Justified (op : Op K V) (r : Ret V) : Prop :=
  Explained (Contents cfg) (fun _ => ()) t H op r

/-- What a call of `list_search` has behind it. -/
def CallSeen : Call α K V → Prop
  | .unlink key _ _ => Justified cfg t H (.erase key) (.value (some cfg.addrTail))
  | _ => True

/-- What thread `t` has seen in its operation, by where it is. -/
def PcSeen : Pc α K V → Prop
  | .search c _ _ => CallSeen cfg t H c
  | .loop c left leftNext x nxt => CallSeen cfg t H c ∧
    (nxt.mark = false → ∀ y, nxt.ptr = some y → Gap cfg s H x y) ∧
    (x = cfg.head ∨ LeftGap cfg s H left leftNext)
  | .compareKey c left leftNext x nxt _ => CallSeen cfg t H c ∧
    (∀ y, nxt = some y → Gap cfg s H x y) ∧ (x = cfg.head ∨ LeftGap cfg s H left leftNext)
  | .arrive c left leftNext _ | .loadNext c left leftNext _ | .compare c left leftNext _ =>
    CallSeen cfg t H c ∧ LeftGap cfg s H left leftNext
  | .walk c left _ r | .retire c left _ _ r | .check c left r =>
    CallSeen cfg t H c ∧ ∀ l, left = some l → Gap cfg s H l r
  | .testKey c left r => CallSeen cfg t H c ∧ (∀ l, left = some l → Gap cfg s H l r) ∧
    (r ≠ cfg.tail → Present cfg s H r)
  | .deallocate key _ _ => Sometime (fun s₀ => key ∈ s₀.heap.keys cfg.lists) H
  | .casErase key _ _ _ | .readKey key _ _ | .retireErased key _ =>
    Justified cfg t H (.erase key) (.value (some cfg.addrTail))
  | .endOp op r | .ret op r => Justified cfg t H op r
  | _ => True

end

section

variable {H : List (State α ι K V × (ι × Event α K V) × State α ι K V)}
  {e : State α ι K V × (ι × Event α K V) × State α ι K V} {priv : α → Prop}

theorem Justified.cons {op : Op K V} {r : Ret V} (h : Justified cfg t H op r) :
    Justified cfg t (e :: H) op r :=
  Explained.cons h

theorem CallSeen.cons {c : Call α K V} (h : CallSeen cfg t H c) : CallSeen cfg t (e :: H) c := by
  cases c with
  | unlink key rightKey right => exact Justified.cons h
  | _ => trivial

variable (st : Arena.Stable cfg.lists s.arena s'.arena priv)

include st

theorem Gap.cons (hl : Met cfg s.arena l) (hr : Met cfg s.arena r) (h : Gap cfg s H l r) :
    Gap cfg s' (e :: H) l r := by
  have hkl : s'.key l = s.key l := hl.key_eq st
  have hkr : s'.key r = s.key r := hr.key_eq st
  unfold Gap
  rw [hkl, hkr]
  exact Sometime.cons h

theorem Present.cons (hr : Met cfg s.arena r) (h : Present cfg s H r) :
    Present cfg s' (e :: H) r := by
  have hkr : s'.key r = s.key r := hr.key_eq st
  unfold Present
  rw [hkr]
  exact Sometime.cons h

/-- The gap behind a trail. -/
theorem LeftGap.cons {left leftNext : Option α} {y : α}
    (ht : ∃ l x, left = some l ∧ leftNext = some x ∧ Trail cfg s.arena key l x y)
    (h : LeftGap cfg s H left leftNext) : LeftGap cfg s' (e :: H) left leftNext := by
  obtain ⟨l, x, rfl, rfl, ht⟩ := ht
  intro l' x' hl hx
  have hgap := h l' x' hl hx
  obtain rfl := Option.some.inj hl
  obtain rfl := Option.some.inj hx
  exact hgap.cons st ht.left ht.next

/-- What an operation has seen stays seen. -/
theorem PcSeen.cons {p : Pc α K V} (hp : Knows cfg s.arena p) (h : PcSeen cfg s t H p) :
    PcSeen cfg s' t (e :: H) p := by
  have hwin : ∀ {left : Option α} {key : K} {r : α},
      (∃ l, left = some l ∧ Window cfg s.arena key l r) →
      (∀ l, left = some l → Gap cfg s H l r) → ∀ l, left = some l → Gap cfg s' (e :: H) l r := by
    rintro left key r ⟨l', rfl, hw⟩ hgap l hl
    have hgap := hgap l hl
    obtain rfl := Option.some.inj hl
    exact hgap.cons st hw.left hw.right
  cases p with
  | search c left leftNext => exact CallSeen.cons h
  | loop c left leftNext x nxt =>
    -- the gap behind a node without mark, and the one behind the left node
    obtain ⟨-, hx, ⟨y, hy, hym, -⟩, hl⟩ := hp
    obtain ⟨hc, hgap, hleft⟩ := h
    refine ⟨hc.cons, fun hm z hz => ?_, ?_⟩
    · have h := hgap hm z hz
      obtain rfl := Option.some.inj (hy.symm.trans hz)
      exact h.cons st hx hym
    · rcases hl with ⟨h, -⟩ | ht
      · exact .inl h
      · exact hleft.imp id fun h => h.cons st ht
  | compareKey c left leftNext x nxt k =>
    obtain ⟨-, hx, ⟨y, hy, hym, -⟩, hl, -⟩ := hp
    obtain ⟨hc, hgap, hleft⟩ := h
    refine ⟨hc.cons, fun z hz => ?_, ?_⟩
    · have h := hgap z hz
      obtain rfl := Option.some.inj (hy.symm.trans hz)
      exact h.cons st hx hym
    · rcases hl with h | ht
      · exact .inl h
      · exact hleft.imp id fun h => h.cons st ht
  | arrive c left leftNext x => exact ⟨h.1.cons, h.2.cons st hp.2.2⟩
  | loadNext c left leftNext x => exact ⟨h.1.cons, h.2.cons st hp.2.2.2⟩
  | compare c left leftNext r =>
    -- the gap behind the left node
    obtain ⟨-, l, x, hl, hx, ht, -⟩ := hp
    exact ⟨h.1.cons, h.2.cons st ⟨l, x, hl, hx, ht⟩⟩
  | walk c left x r => exact ⟨h.1.cons, hwin hp.2.2.2 h.2⟩
  | retire c left x nxt r => exact ⟨h.1.cons, hwin hp.2.2.2.2 h.2⟩
  | check c left r => exact ⟨h.1.cons, hwin hp.2 h.2⟩
  | testKey c left r =>
    -- the gap, and the key on the right unless it is the tail
    obtain ⟨-, l, hl, hw⟩ := hp
    exact ⟨h.1.cons, hwin ⟨l, hl, hw⟩ h.2.1, fun hr => (h.2.2 hr).cons st hw.right⟩
  | deallocate key val a =>
    have h : Sometime (fun s₀ => key ∈ s₀.heap.keys cfg.lists) H := h
    exact h.cons
  -- the result has been explained
  | casErase key left r succ => exact Justified.cons h
  | readKey key left r => exact Justified.cons h
  | retireErased key r => exact Justified.cons h
  | endOp op r => exact Justified.cons h
  | ret op r => exact Justified.cons h
  | _ => trivial

end

/-! ### The set after a step -/

/-- Where the live nodes stay the same, the set does. -/
theorem contents_iff {priv : α → Prop} (st : Arena.Stable cfg.lists s.arena s'.arena priv)
    (hlive : ∀ b x, s'.heap.Live cfg.lists b x ↔ s.heap.Live cfg.lists b x) (k : K) :
    k ∈ s'.heap.keys cfg.lists ↔ k ∈ s.heap.keys cfg.lists := by
  have hkey : ∀ {b x}, s.heap.Live cfg.lists b x → s'.heap.key x = s.heap.key x :=
    fun hx => (st.anchored (.inr hx.1)).2.1
  constructor
  · rintro ⟨b, x, hx, hk⟩
    rw [hlive] at hx
    exact ⟨b, x, hx, (hkey hx).symm.trans hk⟩
  · rintro ⟨b, x, hx, hk⟩
    exact ⟨b, x, (hlive b x).mpr hx, (hkey hx).trans hk⟩

variable [DecidableEq α]

/-- Unlinking leaves the set as it is. -/
theorem contents_unlink (hl : s.link l = ⟨some x, false⟩) (hs : s.heap.Segment x r) (k : K) :
    k ∈ (s.store l ⟨some r, false⟩).heap.keys cfg.lists ↔ k ∈ s.heap.keys cfg.lists := by
  have hlx : s.heap.next l = some x := by
    show (s.link l).ptr = some x
    rw [hl]
  have hm : (s.link l).mark = false := by rw [hl]
  rw [State.heap_store_next hm]
  unfold Heap.keys
  simp only [Heap.unlink_live_iff hlx hs]
  exact Iff.rfl

/-- **Insertion.** Linking a new node adds its key, which was absent. -/
theorem contents_insert (inv : Inv cfg s) (ha : s.arena.Private cfg.lists a)
    (hka : s.key a = key) (hw : Window cfg s.arena key l r) (hlt : key < s.key r)
    (hn : s.heap.next a = some r) (hl : s.link l = ⟨some r, false⟩) :
    key ∉ s.heap.keys cfg.lists ∧ ∀ k,
      k ∈ (s.store l ⟨some a, false⟩).heap.keys cfg.lists ↔
        k ∈ s.heap.keys cfg.lists ∨ k = key := by
  have hlr : s.heap.next l = some r := by
    show (s.link l).ptr = some r
    rw [hl]
  have hm : (s.link l).mark = false := by rw [hl]
  have w : s.heap.WF cfg.lists := inv.shared.ok.wf
  have hreach : Reach s.heap.next (cfg.lists.head ()) l := Arena.reach_of_anchored hw.left hm
  refine ⟨w.not_mem_keys hreach hlr hw.left_lt hlt, fun k => ?_⟩
  rw [State.heap_store_next hm, w.insert_keys hreach hlr hn ha.unmarked ha.off]
  show _ ∨ k = s.key a ↔ _
  rw [hka]

/-- **Deletion.** Marking a node removes its key. -/
theorem contents_mark {succ : Option α} (inv : Inv cfg s) (hu : UserKey cfg key)
    (hr : Met cfg s.arena r) (hk : s.key r = key) (hl : s.link r = ⟨succ, false⟩) :
    key ∈ s.heap.keys cfg.lists ∧ ∀ k,
      k ∈ (s.store r ⟨succ, true⟩).heap.keys cfg.lists ↔
        k ∈ s.heap.keys cfg.lists ∧ k ≠ key := by
  have hlive := inv.live hu hr hk (by rw [hl])
  have w : s.heap.WF cfg.lists := inv.shared.ok.wf
  refine ⟨⟨(), r, hlive, hk⟩, fun k => ?_⟩
  rw [State.heap_store_mark hl, w.mark_keys hlive]
  show _ ∧ k ≠ s.key r ↔ _
  rw [hk]

variable [DecidableEq ι]

variable (cfg s s' t) in
/-- How the set may change in a step of thread `t`. -/
def ContentsStep : Prop :=
  (∀ k, k ∈ s'.heap.keys cfg.lists ↔ k ∈ s.heap.keys cfg.lists) ∨
  (∃ key val a l r, s.pc t = .casInsert key val a (some l) r ∧ s.link l = ⟨some r, false⟩ ∧
    key ∉ s.heap.keys cfg.lists ∧
    ∀ k, k ∈ s'.heap.keys cfg.lists ↔ k ∈ s.heap.keys cfg.lists ∨ k = key) ∨
  (∃ key left r succ, s.pc t = .casMark key left r succ ∧ s.link r = ⟨succ, false⟩ ∧
    key ∈ s.heap.keys cfg.lists ∧
    ∀ k, k ∈ s'.heap.keys cfg.lists ↔ k ∈ s.heap.keys cfg.lists ∧ k ≠ key)

/-- What a step does to the memory. -/
theorem Step.change (inv : Inv cfg s) {e : Event α K V} (h : Step cfg s t e s') :
    ∃ own, Arena.Change cfg.lists s.arena s'.arena (fun x => (s.pc t).newElem? = some x) own := by
  have hp := inv.shared.all t
  cases h with
  | newNode key val x hpc hx => exact ⟨_, change_allocating inv.shared.ok hx⟩
  | casUnlink c l x r hpc hx hl =>
    rw [hpc] at hp
    obtain ⟨-, l', x', hl', hx', htr, -⟩ := hp
    obtain rfl := Option.some.inj hl'
    obtain rfl := Option.some.inj hx'
    exact ⟨_, change_unlink htr.left htr.segment hl⟩
  | storeNext key val a left r hpc =>
    rw [hpc] at hp
    have hnew : (s.pc t).newElem? = some a := by
      rw [hpc]
      rfl
    exact ⟨_, change_storeNext hp.1.2.1 hnew⟩
  | casInsert key val a l r hpc hl =>
    rw [hpc] at hp
    obtain ⟨hc, hlt, hn, l', hl', hw⟩ := hp
    obtain rfl := Option.some.inj hl'
    have hnew : (s.pc t).newElem? = some a := by
      rw [hpc]
      rfl
    exact ⟨_, change_insert hc.1 hc.2.1 hc.2.2 hnew hw hlt hn hl⟩
  | casMark key left r succ hpc hl =>
    rw [hpc] at hp
    obtain ⟨hu, hk, l, rfl, hw⟩ := hp
    exact ⟨_, change_mark (inv.live hu hw.right hk (by rw [hl])) hl⟩
  | casErase key l r succ hpc hl =>
    rw [hpc] at hp
    obtain ⟨-, -, hrm, hrn, l', hl', hw⟩ := hp
    obtain rfl := Option.some.inj hl'
    obtain ⟨-, y, hy, -⟩ := inv.shared.ok.trail hrm
    obtain rfl : succ = some y := hrn.symm.trans hy
    exact ⟨_, change_unlink hw.left (.single hrm hrn) hl⟩
  | _ => exact ⟨_, .refl⟩

/-- What the others hold on to survives. -/
theorem Step.stable (inv : Inv cfg s) {e : Event α K V} (h : Step cfg s t e s') :
    ∃ priv, Arena.Stable cfg.lists s.arena s'.arena priv := by
  obtain ⟨own, c⟩ := h.change inv
  exact ⟨_, inv.shared.change_stable knows_local c⟩

/-- **The set changes at two CASes only**: one adds a key, which was absent, the other one removes
a key. -/
theorem Step.contents (inv : Inv cfg s) {e : Event α K V} (h : Step cfg s t e s') :
    ContentsStep cfg s s' t := by
  have hp := inv.shared.all t
  obtain ⟨priv, st⟩ := h.stable inv
  cases h with
  | newNode key val x hpc hx =>
    -- the new node is in no list
    refine .inl (contents_iff st fun b z => Heap.write_live_iff (a := x) ?_ ?_ ?_)
    · intro b hb
      have h : s.allocated x = true := inv.shared.ok.reach_allocated hb
      rw [hx] at h
      cases h
    · intro z hz
      show (update s.link x ⟨none, false⟩ z).ptr = (s.link z).ptr
      rw [update_of_ne hz]
    · intro z hz
      show (update s.link x ⟨none, false⟩ z).mark = (s.link z).mark
      rw [update_of_ne hz]
  | casUnlink c l x r hpc hx hl =>
    -- marked nodes are cut out
    rw [hpc] at hp
    obtain ⟨-, l', x', hl', hx', htr, -⟩ := hp
    obtain rfl := Option.some.inj hl'
    obtain rfl := Option.some.inj hx'
    exact .inl (contents_unlink hl htr.segment)
  | storeNext key val a left r hpc =>
    -- a node outside the lists is written
    rw [hpc] at hp
    refine .inl (contents_iff st fun b z => Heap.write_live_iff (a := a) hp.1.2.1.off ?_ ?_)
    · intro z hz
      show ((s.store a ⟨some r, false⟩).link z).ptr = (s.link z).ptr
      rw [State.store_link_of_ne hz]
    · intro z hz
      show ((s.store a ⟨some r, false⟩).link z).mark = (s.link z).mark
      rw [State.store_link_of_ne hz]
  | casInsert key val a l r hpc hl =>
    -- the key is added
    rw [hpc] at hp
    obtain ⟨hc, hlt, hn, l', hl', hw⟩ := hp
    obtain rfl := Option.some.inj hl'
    obtain ⟨habs, hadd⟩ := contents_insert inv hc.2.1 hc.2.2 hw hlt hn hl
    exact .inr (.inl ⟨key, val, a, l, r, hpc, hl, habs, hadd⟩)
  | casMark key left r succ hpc hl =>
    -- the key is removed
    rw [hpc] at hp
    obtain ⟨hu, hk, l, rfl, hw⟩ := hp
    obtain ⟨hin, hrem⟩ := contents_mark inv hu hw.right hk hl
    exact .inr (.inr ⟨key, _, r, succ, hpc, hl, hin, hrem⟩)
  | casErase key l r succ hpc hl =>
    -- a marked node is cut out
    rw [hpc] at hp
    obtain ⟨-, -, hrm, hrn, l', hl', hw⟩ := hp
    obtain rfl := Option.some.inj hl'
    obtain ⟨-, y, hy, -⟩ := inv.shared.ok.trail hrm
    obtain rfl : succ = some y := hrn.symm.trans hy
    exact .inl (contents_unlink hl (.single hrm hrn))
  | _ => exact .inl fun _ => Iff.rfl

/-! ### What an operation has seen, step by step -/

section

variable {H : List (State α ι K V × (ι × Event α K V) × State α ι K V)}
  {e : State α ι K V × (ι × Event α K V) × State α ι K V}

omit [DecidableEq α] [DecidableEq ι] in
/-- Nothing lies between a node that is not marked and its successor. -/
theorem Inv.not_mem_keys (inv : Inv cfg s) (hx : Met cfg s.arena x)
    (hl : s.link x = ⟨some r, false⟩) {k : K} (hxk : s.key x < k) (hkr : k < s.key r) :
    k ∉ s.heap.keys cfg.lists := by
  have hm : (s.link x).mark = false := by rw [hl]
  have hn : s.heap.next x = some r := by
    show (s.link x).ptr = some r
    rw [hl]
  have w : s.heap.WF cfg.lists := inv.shared.ok.wf
  exact w.not_mem_keys (Arena.reach_of_anchored hx hm) hn hxk hkr

omit [DecidableEq α] [DecidableEq ι] in
/-- When `right` does not have the key, the key was absent. -/
theorem Gap.absent {c : Call α K V} (hw : Window cfg s.arena c.key l r)
    (hlt : c.key < s.key r) (h : Gap cfg s H l r) :
    Sometime (fun s₀ => ∀ w, ¬ Contents cfg s₀ c.key w) H :=
  h.mono fun _ h₀ _ => h₀ _ hw.left_lt hlt

omit [DecidableEq α] [DecidableEq ι] in
theorem pcSeen_done {c : Call α K V} (hc : CallSeen cfg t H c) (hgap : Gap cfg s H l r)
    (hr : r ≠ cfg.tail → Present cfg s H r) : PcSeen cfg s t H (c.done cfg (some l) r) := by
  have hleft : ∀ l', some l = some l' → Gap cfg s H l' r := by
    intro l' hl
    obtain rfl := Option.some.inj hl
    exact hgap
  cases c with
  | unlink key rightKey right => exact hc
  | _ => exact ⟨hc, hleft, hr⟩

omit [DecidableEq α] [DecidableEq ι] in
theorem pcSeen_notFound {c : Call α K V} (hc : CallSeen cfg t H c)
    (hnot : Sometime (fun s₀ => ∀ w, ¬ Contents cfg s₀ c.key w) H) {left : Option α} :
    PcSeen cfg s t H (c.notFound cfg left r) := by
  cases c with
  | insert key val a => trivial
  | unlink key rightKey right => exact hc
  | _ => exact hnot

omit [DecidableEq α] [DecidableEq ι] in
theorem pcSeen_found {c : Call α K V} (hc : CallSeen cfg t H c)
    (hin : Sometime (fun s₀ => c.key ∈ s₀.heap.keys cfg.lists) H) {left : Option α} :
    PcSeen cfg s t H (c.found cfg left r) := by
  cases c with
  | contains key =>
    show Sometime (fun s₀ => ∃ w, Contents cfg s₀ key w) H
    exact hin.mono fun _ h₀ => ⟨(), h₀⟩
  | insert key val a => exact hin
  | erase key => trivial
  | unlink key rightKey right => exact hc

/-- **Step of the observed thread.** -/
theorem PcSeen.step_self (inv : Inv cfg s) (h : PcSeen cfg s t H (s.pc t)) {e : Event α K V}
    (hs : Step cfg s t e s') : PcSeen cfg s' t ((s, (t, e), s') :: H) (s'.pc t) := by
  have hp := inv.shared.all t
  have inv' : Inv cfg s' := inv.step hs
  obtain ⟨priv, st⟩ := hs.stable inv
  -- the gap to the right node stays seen
  have hwall : ∀ {left : Option α} {key : K} {r : α},
      (∃ l, left = some l ∧ Window cfg s.arena key l r) →
      (∀ l, left = some l → Gap cfg s H l r) →
      ∀ l, left = some l → Gap cfg s' ((s, (t, e), s') :: H) l r := by
    rintro left key r ⟨l', rfl, hw⟩ hgap l hl
    have hgap := hgap l hl
    obtain rfl := Option.some.inj hl
    exact hgap.cons st hw.left hw.right
  cases hs with
  | invoke op hpc hmin hmax =>
    -- nothing has been seen yet
    rw [State.goto_pc_self]
    trivial
  | startOp op hpc =>
    rw [State.goto_pc_self]
    cases op <;> trivial
  | newNode key val x hpc hx =>
    rw [State.goto_pc_self]
    trivial
  | search c left leftNext hpc =>
    rw [hpc] at h
    rw [State.goto_pc_self]
    -- the head has no mark, so the gap behind it is there now
    refine ⟨CallSeen.cons h, fun hm y hy => ?_, .inl rfl⟩
    have hl : s.link cfg.head = ⟨some y, false⟩ := by
      rw [← hm, ← hy]
    exact Sometime.now fun k hxk hkr => inv.not_mem_keys (.inr .refl) hl hxk hkr
  | skip c left leftNext x y hpc =>
    -- the node is marked, so the gap is still that behind the left node
    rw [hpc] at h hp
    obtain ⟨-, -, ⟨y', hy, -, -, hfrozen⟩, hl⟩ := hp
    rw [State.goto_pc_self]
    rcases hl with ⟨-, hm⟩ | ht
    · cases hm
    · have hleft : LeftGap cfg s H left leftNext := by
        refine h.2.2.resolve_left ?_
        rintro rfl
        have hm := inv.shared.ok.wf.marked_head ()
        rw [show s.arena.heap.marked (cfg.lists.head ()) = true from (hfrozen rfl).1] at hm
        cases hm
      exact ⟨h.1.cons, hleft.cons st ht⟩
  | loadKey c left leftNext x nxt hpc =>
    rw [hpc] at h hp
    obtain ⟨-, hx, ⟨y', hy, hym, -⟩, hl⟩ := hp
    rw [State.goto_pc_self]
    refine ⟨h.1.cons, fun y hy' => ?_, ?_⟩
    · -- the node that was read has no mark: it becomes the left one
      obtain rfl := Option.some.inj (hy.symm.trans hy')
      exact (h.2.1 rfl _ hy').cons st hx hym
    · rcases hl with ⟨hhead, -⟩ | ht
      · exact .inl hhead
      · exact h.2.2.imp_right fun hleft => hleft.cons st ht
  | pass c left leftNext x y k hpc hk =>
    -- the gap behind the new left node is the one behind the node passed
    rw [hpc] at h hp
    obtain ⟨-, hx, ⟨y', hy, hym, -⟩, -⟩ := hp
    obtain rfl := Option.some.inj hy
    rw [State.goto_pc_self]
    refine ⟨h.1.cons, fun l' x' hl hx' => ?_⟩
    obtain rfl := Option.some.inj hl
    obtain rfl := Option.some.inj hx'
    exact (h.2.1 _ rfl).cons st hx hym
  | stop c left leftNext x nxt k hpc hk =>
    -- the head does not stop a search
    rw [hpc] at h hp
    obtain ⟨hc, -, -, hl, rfl⟩ := hp
    have hhead : x ≠ cfg.head := by
      rintro rfl
      have hk : ¬ s.key cfg.head < c.key := hk
      rw [inv.key_head] at hk
      exact hk hc.userKey.1
    rw [State.goto_pc_self]
    rcases hl with h' | ht
    · exact absurd h' hhead
    · exact ⟨h.1.cons, (h.2.2.resolve_left hhead).cons st ht⟩
  | arriveTail c left leftNext hpc =>
    rw [hpc] at h hp
    rw [State.goto_pc_self]
    exact ⟨h.1.cons, h.2.cons st hp.2.2⟩
  | arriveNull c left leftNext x hpc hx hl =>
    rw [hpc] at h hp
    rw [State.goto_pc_self]
    exact ⟨h.1.cons, h.2.cons st hp.2.2⟩
  | arrive c left leftNext x hpc hx hl =>
    rw [hpc] at h hp
    rw [State.goto_pc_self]
    exact ⟨h.1.cons, h.2.cons st hp.2.2⟩
  | loadNext c left leftNext x hpc =>
    -- where the node has no mark, the gap behind it is there now
    rw [hpc] at h hp
    rw [State.goto_pc_self]
    refine ⟨h.1.cons, fun hm y hy => ?_, .inr (h.2.cons st hp.2.2.2)⟩
    have hl : s.link x = ⟨some y, false⟩ := by
      rw [← hm, ← hy]
    exact Sometime.now fun k hxk hkr => inv.not_mem_keys hp.2.1 hl hxk hkr
  | adjacent c left r hpc =>
    -- nothing is to be cut out: the gap is the one that was seen
    rw [hpc] at h hp
    obtain ⟨-, l, x, rfl, hx, ht, hw⟩ := hp
    obtain rfl := Option.some.inj hx
    rw [State.goto_pc_self]
    refine ⟨h.1.cons, fun l' hl => ?_⟩
    obtain rfl := Option.some.inj hl
    exact (h.2 l _ rfl rfl).cons st ht.left ht.next
  | casUnlink c l x r hpc hx hl =>
    rw [hpc] at h hp
    obtain ⟨-, l', x', hl', -, ht, -⟩ := hp
    obtain rfl := Option.some.inj hl'
    rw [State.goto_pc_self]
    refine ⟨h.1.cons, fun l' hl' => ?_⟩
    obtain rfl := Option.some.inj hl'
    -- afterwards `right` is the successor of `left`
    refine Sometime.now fun k hxk hkr => inv'.not_mem_keys (ht.left.mono st) ?_ hxk hkr
    exact State.store_link_self
  | casUnlinkFail c l leftNext r hpc hx hl =>
    -- the search begins again
    rw [hpc] at h
    rw [State.goto_pc_self]
    exact h.1.cons
  | walk c left x r hpc =>
    rw [hpc] at h hp
    rw [State.goto_pc_self]
    exact ⟨h.1.cons, hwall hp.2.2.2 h.2⟩
  | retireNext c left x y r hpc hy =>
    rw [hpc] at h hp
    rw [State.goto_pc_self]
    exact ⟨h.1.cons, hwall hp.2.2.2.2 h.2⟩
  | retireLast c left x r hpc =>
    rw [hpc] at h hp
    rw [State.goto_pc_self]
    exact ⟨h.1.cons, hwall hp.2.2.2.2 h.2⟩
  | checkTail c left hpc =>
    -- the key is beyond all others
    rw [hpc] at h hp
    obtain ⟨-, l, rfl, hw⟩ := hp
    rw [State.goto_pc_self]
    exact pcSeen_done h.1.cons (hwall ⟨l, rfl, hw⟩ h.2 l rfl) fun hr => absurd rfl hr
  | checkRetry c left r hpc hr hl =>
    -- the search begins again
    rw [hpc] at h
    rw [State.goto_pc_self]
    exact h.1.cons
  | check c left r hpc hr hl =>
    rw [hpc] at h hp
    obtain ⟨hc, l, rfl, hw⟩ := hp
    rw [State.goto_pc_self]
    refine pcSeen_done h.1.cons (hwall ⟨l, rfl, hw⟩ h.2 l rfl) fun _ => Sometime.now ?_
    -- `right` is not marked now, so it is live
    refine ⟨(), r, ⟨Arena.reach_of_anchored hw.right hl, hl, ?_, hr⟩, rfl⟩
    rintro rfl
    have hge : c.key ≤ s.key cfg.head := hw.right_ge
    rw [inv.key_head] at hge
    exact absurd hge (not_le.mpr hc.userKey.1)
  | testTail c left hpc =>
    -- the key is not in the gap that was seen
    rw [hpc] at h hp
    obtain ⟨hc, l, rfl, hw⟩ := hp
    have hlt : c.key < s.key cfg.tail := by
      rw [inv.key_tail]
      exact hc.userKey.2
    rw [State.goto_pc_self]
    exact pcSeen_notFound h.1.cons (Sometime.cons ((h.2.1 l rfl).absent hw hlt))
  | testAbsent c left r hpc hr hk =>
    rw [hpc] at h hp
    obtain ⟨hc, l, rfl, hw⟩ := hp
    have hlt : c.key < s.key r := lt_of_le_of_ne hw.right_ge (Ne.symm hk)
    rw [State.goto_pc_self]
    exact pcSeen_notFound h.1.cons (Sometime.cons ((h.2.1 l rfl).absent hw hlt))
  | testFound c left r hpc hr hk =>
    -- the right node had the key when it had no mark
    rw [hpc] at h
    have hin := h.2.2 hr
    unfold Present at hin
    rw [hk] at hin
    rw [State.goto_pc_self]
    exact pcSeen_found h.1.cons (Sometime.cons hin)
  | deallocate key val a hpc =>
    -- the insertion is rejected, as the key was there
    rw [hpc] at h
    have h : Sometime (fun s₀ => key ∈ s₀.heap.keys cfg.lists) H := h
    rw [State.goto_pc_self]
    exact h.cons
  | storeNext key val a left r hpc =>
    rw [State.goto_pc_self]
    trivial
  | casInsert key val a l r hpc hl =>
    -- the insertion takes effect now
    rw [hpc] at hp
    obtain ⟨hc, hlt, hn, l', hl', hw⟩ := hp
    obtain rfl := Option.some.inj hl'
    obtain ⟨habs, hadd⟩ := contents_insert inv hc.2.1 hc.2.2 hw hlt hn hl
    have habs : ∀ w, ¬ Contents cfg s key w := fun _ => habs
    have hadd : ∀ k w, Contents cfg ((s.store l ⟨some a, false⟩).goto t
        (.endOp (.insert key val) (.value none))) k w ↔
        Contents cfg s k w ∨ (k = key ∧ w = ()) := by
      intro k w
      exact (hadd k).trans (or_congr_right (and_iff_left rfl).symm)
    rw [State.goto_pc_self]
    show Explained (Contents cfg) (fun _ => ()) t _ (.insert key val) (.value none)
    exact Explained.insert_now habs hadd
  | casInsertFail key val a l r hpc hl =>
    rw [State.goto_pc_self]
    trivial
  | loadSuccMarked key left r hpc hl =>
    rw [State.goto_pc_self]
    trivial
  | loadSucc key left r hpc hl =>
    rw [State.goto_pc_self]
    trivial
  | casMark key left r succ hpc hl =>
    -- the deletion takes effect now
    rw [hpc] at hp
    obtain ⟨hu, hk, l, rfl, hw⟩ := hp
    obtain ⟨hin, hrem⟩ := contents_mark inv hu hw.right hk hl
    have hin : Contents cfg s key () := hin
    have hrem : ∀ k w, Contents cfg ((s.store r ⟨succ, true⟩).goto t
        (.casErase key (some l) r succ)) k w ↔ Contents cfg s k w ∧ k ≠ key := by
      intro k _
      exact hrem k
    rw [State.goto_pc_self]
    show Explained (Contents cfg) (fun _ => ()) t _ (.erase key) (.value (some cfg.addrTail))
    exact Explained.erase_now hin hrem
  | casMarkFail key left r succ hpc hl =>
    rw [State.goto_pc_self]
    trivial
  | casErase key l r succ hpc hl =>
    -- the result has been explained
    rw [hpc] at h
    rw [State.goto_pc_self]
    exact Justified.cons h
  | casEraseFail key l r succ hpc hl =>
    rw [hpc] at h
    rw [State.goto_pc_self]
    exact Justified.cons h
  | readKey key left r hpc =>
    rw [hpc] at h
    rw [State.goto_pc_self]
    exact Justified.cons h
  | retireErased key r hpc =>
    rw [hpc] at h
    rw [State.goto_pc_self]
    exact Justified.cons h
  | endOp op r hpc =>
    rw [hpc] at h
    rw [State.goto_pc_self]
    exact Justified.cons h
  | ret op r hpc =>
    rw [State.goto_pc_self]
    trivial

/-- The other threads stay where they are. -/
theorem Step.pc_of_ne {e : Event α K V} (hs : Step cfg s t e s') {q : ι} (hq : q ≠ t) :
    s'.pc q = s.pc q := by
  cases hs <;> exact State.goto_pc_of_ne hq

/-- An invocation leads to the start of the operation. -/
theorem Step.pc_of_invoke {e : Event α K V} {op : Op K V} (hs : Step cfg s t e s')
    (he : e = .invoke op) : s'.pc t = .start op := by
  cases hs with
  | invoke op' hpc hmin hmax =>
    obtain rfl := Event.invoke.inj he
    exact State.goto_pc_self
  | pass c | stop c => cases c <;> cases he
  | _ => cases he

theorem Step.pc_of_ret {e : Event α K V} {op : Op K V} {r : Ret V} (hs : Step cfg s t e s')
    (he : e = .ret op r) : s.pc t = .ret op r := by
  cases hs with
  | ret op' r' hpc =>
    obtain ⟨rfl, rfl⟩ := Event.ret.inj he
    exact hpc
  | pass c | stop c => cases c <;> cases he
  | _ => cases he

/-- **What an operation has seen**, in every run. -/
theorem PcSeen.of_reachable
    (h : ((lts (ι := ι) cfg).since (invokedBy t)).Reachable (s, H)) :
    PcSeen cfg s t H (s.pc t) := by
  refine Lts.ReachableBy.invariant (P := fun y => PcSeen cfg y.1 t y.2 (y.1.pc t)) ?_ ?_ h
  · intro y hy
    rw [hy.1.pc t]
    trivial
  · rintro ⟨s, H⟩ ⟨q, e⟩ ⟨s', H'⟩ hr hseen - ⟨hs, hH⟩
    have hr : ((lts (ι := ι) cfg).since (invokedBy t)).Reachable (s, H) := hr
    have inv : Inv cfg s := Inv.of_reachable hr.of_since
    have hs : Step cfg s q e s' := hs
    obtain rfl : H' = (s, (q, e), s') :: bif invokedBy t (q, e) then [] else H := hH
    by_cases hqt : q = t
    · subst hqt
      cases e with
      | invoke op =>
        -- a new interval begins, in which nothing has been seen
        show PcSeen cfg s' q _ (s'.pc q)
        rw [hs.pc_of_invoke rfl]
        trivial
      | _ => exact hseen.step_self inv hs
    · obtain ⟨priv, st⟩ := hs.stable inv
      have hstart : invokedBy t (q, e) = false := by
        cases e with
        | invoke op => exact decide_eq_false hqt
        | _ => rfl
      show PcSeen cfg s' t _ (s'.pc t)
      rw [hstart, hs.pc_of_ne (Ne.symm hqt)]
      exact hseen.cons st (inv.shared.all t)

end

end HarrisList
end PopSetbench

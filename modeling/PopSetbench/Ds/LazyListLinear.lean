import PopSetbench.Ds.LazyListInv

/-!
# The lazy list is linearizable

The set a state holds are the keys of its live nodes, with their values. It changes where a new node
is linked and where a node is marked.

The searches take no lock, and `contains` may walk through nodes that have been unlinked. A marked
node that leads there was in the list when it was marked, or when the search came to it: so there
was a moment of the operation at which it was in the list and marked, and nothing lay between its
key and that of its successor (`Passed`). This holds of all marked nodes ahead of the search
(`Ahead`), also of those that are marked while it is on its way.
-/

namespace PopSetbench
namespace LazyList

open Function
open Heap (Reach)
open LazyListNzb (Config Upd)

variable {α ι K V : Type}

/-- The result of the operation, as soon as it is settled. -/
def Pc.outcome : Pc α K V → Option (Op K V × Ret V)
  | .unlink key _ _ result _ => some (.erase key, .value (some result))
  | .retire key _ _ result => some (.erase key, .value (some result))
  | .unlockCurr key _ _ r => r.map fun r => (.erase key, r)
  | .unlockPred u _ r => r.map fun r => (u.op, r)
  | .endOp op r => r.map fun r => (op, r)
  | .ret op r => some (op, r)
  | _ => none

variable [LinearOrder K] {cfg : Config α K} {s s' : State α ι K V} {key : K} {val : V}
  {x y z pred curr a : α} {t : ι} {result : V} {c_nxt : Option α}

variable (cfg s) in
/-- The set contains the key with the value. -/
def Contents (k : K) (v : V) : Prop :=
  ∃ x, s.heap.Live (lists cfg) () x ∧ s.key x = k ∧ s.val x = v

theorem Contents.mem_keys {k : K} {v : V} (h : Contents cfg s k v) :
    k ∈ s.heap.keys (lists cfg) := by
  obtain ⟨x, hx, hk, -⟩ := h
  exact ⟨(), x, hx, hk⟩

/-! ### What an operation has seen -/

section

variable (cfg : Config α K) (s : State α ι K V) (t : ι)
  (H : List (State α ι K V × (ι × Event α K V) × State α ι K V))

/-- At a moment of the interval no key from that of `x` to before that of its successor was in the
set. -/
def Passed (x : α) : Prop :=
  Sometime (fun s₀ => ∀ y, s.next x = some y → ∀ k, s.key x ≤ k → k < s.key y →
    k ∉ s₀.heap.keys (lists cfg)) H

/-- That is so of every marked node that marked nodes lead to from `x`. -/
def Ahead (x : α) : Prop :=
  ∀ z, s.heap.Segment x z → s.marked z = true → Passed cfg s H z

/-- At a moment of the interval no key from `key` to before that of `x` was in the set. -/
def Behind (key : K) (x : α) : Prop :=
  Sometime (fun s₀ => ∀ k, key ≤ k → k < s.key x → k ∉ s₀.heap.keys (lists cfg)) H

/-- The result of thread `t` is explained by the interval. -/
def Justified (op : Op K V) (r : Ret V) : Prop :=
  Explained (Contents cfg) id t H op r

/-- What thread `t` has seen in its operation, by where it is. -/
def PcSeen : Pc α K V → Prop
  | .walk key curr => Ahead cfg s H curr ∧ Behind cfg s H key curr
  | .walkNext _ curr => Ahead cfg s H curr
  | .testKey key curr => Ahead cfg s H curr ∧ Behind cfg s H key curr
  | .testMark _ curr => Ahead cfg s H curr
  | .readVal key _ => Sometime (fun s₀ => ∃ v, Contents cfg s₀ key v) H
  | .loadNext _ pred => Ahead cfg s H pred
  | .readKey u _ curr => Ahead cfg s H curr ∧ Behind cfg s H u.key curr
  | .eraseKey key _ curr => Behind cfg s H key curr
  | p => ∀ op r, p.outcome = some (op, r) → Justified cfg t H op r

end

section

variable {H : List (State α ι K V × (ι × Event α K V) × State α ι K V)}
  {e : ι × Event α K V}

/-- A marked node that is in the list is passed now. -/
theorem Inv.passed_now (inv : Inv cfg s') (hr : Reach s'.next cfg.head z)
    (hm : s'.marked z = true) : Passed cfg s' ((s, e, s') :: H) z := by
  refine Sometime.now fun y hy k hzk hky hk => ?_
  have w : s'.heap.WF (lists cfg) := inv.shared.ok.wf
  have hr : Reach s'.heap.next ((lists cfg).head ()) z := hr
  rcases hzk.eq_or_lt with rfl | hzk
  · -- no other node of the list has its key
    obtain ⟨⟨⟩, u, hu, hk⟩ := hk
    obtain rfl := w.eq_of_key_eq hu.1 hr hk
    have hu' : s'.marked u = false := hu.2.1
    rw [hu'] at hm
    cases hm
  · exact w.not_mem_keys hr hy hzk hky hk

/-- From a node of the list on, everything is passed now. -/
theorem Inv.ahead_now (inv : Inv cfg s') (hr : Reach s'.next cfg.head x) :
    Ahead cfg s' ((s, e, s') :: H) x :=
  fun _ hz hm => inv.passed_now (hr.trans hz.reach) hm

/-- Nothing lies between a node that is in the list now and its successor. -/
theorem Inv.behind_now (inv : Inv cfg s') (hr : Reach s'.next cfg.head x)
    (hn : s'.next x = some y) (hk : s'.key x < key) :
    Behind cfg s' ((s, e, s') :: H) key y := by
  have w : s'.heap.WF (lists cfg) := inv.shared.ok.wf
  have hr : Reach s'.heap.next ((lists cfg).head ()) x := hr
  exact Sometime.now fun k hkk hky => w.not_mem_keys hr hn (hk.trans_le hkk) hky

/-- **A step of a search**: what is ahead of a node is ahead of its successor. -/
theorem Ahead.next (inv : Inv cfg s') (hx : Met cfg s'.arena x)
    (h : Ahead cfg s' ((s, e, s') :: H) x) (hn : s'.next x = some y) (hk : s'.key x < key) :
    Ahead cfg s' ((s, e, s') :: H) y ∧ Behind cfg s' ((s, e, s') :: H) key y := by
  by_cases hm : s'.marked x = true
  · refine ⟨fun z hz hzm => ?_, ?_⟩
    · exact h z (Relation.ReflTransGen.head ⟨hm, hn⟩ hz) hzm
    · refine Sometime.mono (fun s₀ h₀ k hkk hky => ?_) (h x .refl hm)
      exact h₀ y hn k (hk.le.trans hkk) hky
  · have hr := Arena.reach_of_anchored hx (Bool.eq_false_iff.mpr hm)
    exact ⟨inv.ahead_now (hr.step hn), inv.behind_now hr hn hk⟩

/-- A key that a search has gone past was absent. -/
theorem Behind.absent (h : Behind cfg s H key x) (hk : key < s.key x) :
    Sometime (fun s₀ => ∀ v, ¬ Contents cfg s₀ key v) H :=
  h.mono fun _ h₀ _ hv => h₀ key le_rfl hk hv.mem_keys

/-- The key of a marked node was absent. -/
theorem Passed.absent (inv : Inv cfg s) (hm : s.marked x = true) (h : Passed cfg s H x) :
    Sometime (fun s₀ => ∀ v, ¬ Contents cfg s₀ (s.key x) v) H := by
  obtain ⟨-, y, hn, -, hlt⟩ := inv.shared.ok.trail (x := x) hm
  exact h.mono fun _ h₀ _ hv => h₀ y hn (s.key x) le_rfl hlt hv.mem_keys

/-- The key of a node that is not marked is present. -/
theorem Inv.contents (inv : Inv cfg s) (hu : UserKey cfg key) (hx : Met cfg s.arena x)
    (hk : s.key x = key) (hm : s.marked x = false) : Contents cfg s key (s.val x) :=
  ⟨x, inv.live hu hx hk hm, hk, rfl⟩

theorem Justified.cons {e : State α ι K V × (ι × Event α K V) × State α ι K V} {op : Op K V}
    {r : Ret V} (h : Justified cfg t H op r) : Justified cfg t (e :: H) op r :=
  Explained.cons h

/-! ### It stays seen -/

section

variable {priv : α → Prop} (st : Arena.Stable (lists cfg) s.arena s'.arena priv)

include st

theorem Passed.cons (inv : Inv cfg s) (hm : s.marked x = true) (h : Passed cfg s H x) :
    Passed cfg s' ((s, e, s') :: H) x := by
  obtain ⟨hm', hn', hk'⟩ := st.frozen (x := x) hm
  refine Sometime.cons (h.mono fun s₀ h₀ y hy k hxk hky => ?_)
  have hn : s.next x = some y := hn'.symm.trans hy
  have hky' : s'.key y = s.key y := ((inv.met_next (.inl hm) hn).1).key_eq st
  have hkx' : s'.key x = s.key x := hk'
  rw [hkx'] at hxk
  rw [hky'] at hky
  exact h₀ y hn k hxk hky

theorem Behind.cons (hx : Met cfg s.arena x) (h : Behind cfg s H key x) :
    Behind cfg s' ((s, e, s') :: H) key x := by
  have hk : s'.key x = s.key x := hx.key_eq st
  unfold Behind
  rw [hk]
  exact Sometime.cons h

end

variable [DecidableEq α] {mine own : α → Prop}

/-- **What is ahead of a search stays passed**, whichever step is taken. -/
theorem Ahead.cons {priv : α → Prop} (st : Arena.Stable (lists cfg) s.arena s'.arena priv)
    (inv : Inv cfg s) (inv' : Inv cfg s')
    (c : Arena.Change (lists cfg) s.arena s'.arena mine own)
    (hown : ∀ x, own x → s'.marked x = false) (h : Ahead cfg s H x) :
    Ahead cfg s' ((s, e, s') :: H) x := by
  intro z hz hm
  have m : s.heap.Move (lists cfg) own s'.heap := c.move
  rcases m.segment_back inv.shared.ok.wf hown hz with hs | ⟨⟨⟩, hr⟩
  · by_cases hm₀ : s.marked z = true
    · exact (h z hs hm₀).cons st inv hm₀
    · -- the node has just been marked, in the list
      have ho : ¬ own z := by
        intro ho
        rw [hown z ho] at hm
        cases hm
      obtain ⟨⟨⟩, hr⟩ := m.reach_of_newly_marked (x := z) (Bool.eq_false_iff.mpr hm₀) hm ho
      exact inv'.passed_now hr hm
  · exact inv'.passed_now hr hm

/-- What an operation has seen stays seen. -/
theorem PcSeen.cons {priv : α → Prop} {p : Pc α K V}
    (st : Arena.Stable (lists cfg) s.arena s'.arena priv) (inv : Inv cfg s)
    (inv' : Inv cfg s') (c : Arena.Change (lists cfg) s.arena s'.arena mine own)
    (hown : ∀ x, own x → s'.marked x = false) (hp : Knows cfg s.arena p)
    (h : PcSeen cfg s t H p) : PcSeen cfg s' t ((s, e, s') :: H) p := by
  cases p with
  | walk key curr => exact ⟨h.1.cons st inv inv' c hown, h.2.cons st hp.2⟩
  | walkNext key curr => exact Ahead.cons st inv inv' c hown h
  | testKey key curr => exact ⟨h.1.cons st inv inv' c hown, h.2.cons st hp.2.1⟩
  | testMark key curr => exact Ahead.cons st inv inv' c hown h
  | readVal key curr =>
    have h : Sometime (fun s₀ => ∃ v, Contents cfg s₀ key v) H := h
    exact h.cons
  | loadNext u pred => exact Ahead.cons st inv inv' c hown h
  | readKey u pred curr => exact ⟨h.1.cons st inv inv' c hown, h.2.cons st hp.2.2.2⟩
  | eraseKey key pred curr => exact Behind.cons st hp.2.2.2.1 h
  | _ => exact fun op r ho => (h op r ho).cons

end

/-! ### The set after a step -/

variable [DecidableEq α]

/-- **Insertion.** Linking a new node adds its key, which was absent. -/
theorem contents_link (inv : Inv cfg s) (hpc : s.pc t = .link key val pred a) :
    (∀ v, ¬ Contents cfg s key v) ∧ ∀ k v, Contents cfg (s.setNext pred (some a)) k v ↔
      Contents cfg s k v ∨ (k = key ∧ v = val) := by
  have hp := inv.shared.all t
  have hg := inv.guarded t
  rw [hpc] at hp hg
  obtain ⟨hu, hmp, hpk, ha, hka, hva, y, hn, -, hky⟩ := hp
  have w : s.heap.WF (lists cfg) := inv.shared.ok.wf
  have hpy : s.heap.next pred = some y := hg.2.trans hn
  have hr : Reach s.heap.next ((lists cfg).head ()) pred := Arena.reach_of_anchored hmp hg.1
  have hlive : ∀ z, (s.setNext pred (some a)).heap.Live (lists cfg) () z ↔
      s.heap.Live (lists cfg) () z ∨ (() = () ∧ z = a) :=
    fun z => w.insert_live_iff hr hpy hn ha.unmarked ha.off
  refine ⟨fun v hv => w.not_mem_keys hr hpy hpk hky hv.mem_keys, fun k v => ⟨?_, ?_⟩⟩
  · rintro ⟨z, hz, hk, hv⟩
    rcases (hlive z).mp hz with hz | ⟨-, rfl⟩
    · exact .inl ⟨z, hz, hk, hv⟩
    · exact .inr ⟨hk.symm.trans hka, hv.symm.trans hva⟩
  · rintro (⟨z, hz, hk, hv⟩ | ⟨rfl, rfl⟩)
    · exact ⟨z, (hlive z).mpr (.inl hz), hk, hv⟩
    · exact ⟨a, (hlive a).mpr (.inr ⟨rfl, rfl⟩), hka, hva⟩

/-- **Deletion.** Marking a node removes its key. -/
theorem contents_mark (inv : Inv cfg s) (hpc : s.pc t = .mark key pred curr result c_nxt) :
    Contents cfg s key result ∧ ∀ k v, Contents cfg (s.setMarked curr) k v ↔
      Contents cfg s k v ∧ k ≠ key := by
  have hlive := inv.live_mark hpc
  have hp := inv.shared.all t
  rw [hpc] at hp
  have hkc : s.key curr = key := hp.1.found
  have w : s.heap.WF (lists cfg) := inv.shared.ok.wf
  have hiff : ∀ z, (s.setMarked curr).heap.Live (lists cfg) () z ↔
      s.heap.Live (lists cfg) () z ∧ z ≠ curr := by
    intro z
    show (s.heap.setMarked curr).Live (lists cfg) () z ↔ _
    exact Heap.mark_live_iff
  refine ⟨⟨curr, hlive, hkc, hp.2⟩, fun k v => ⟨?_, ?_⟩⟩
  · rintro ⟨z, hz, hk, hv⟩
    obtain ⟨hz, hne⟩ := (hiff z).mp hz
    refine ⟨⟨z, hz, hk, hv⟩, ?_⟩
    rintro rfl
    have hk : s.key z = k := hk
    exact hne (w.eq_of_key_eq hz.1 hlive.1 (hk.trans hkc.symm))
  · rintro ⟨⟨z, hz, hk, hv⟩, hne⟩
    refine ⟨z, (hiff z).mpr ⟨hz, ?_⟩, hk, hv⟩
    rintro rfl
    exact hne (hk.symm.trans hkc)

/-! ### What an operation has seen, step by step -/

variable [DecidableEq ι]

/-- What a step does to the memory. -/
theorem Step.change (inv : Inv cfg s) {e : Event α K V} (h : Step cfg s t e s') :
    ∃ own, Arena.Change (lists cfg) s.arena s'.arena (fun x => (s.pc t).newnode? = some x) own ∧
      ∀ x, own x → s'.marked x = false := by
  have hp := inv.shared.all t
  have hg := inv.guarded t
  cases h with
  | newNode key val pred x a hpc ha =>
    refine ⟨_, change_allocating inv.shared.ok ha, ?_⟩
    rintro y rfl
    exact update_self ..
  | link key val pred a hpc =>
    rw [hpc] at hp hg
    refine ⟨_, change_link hpc hp hg, ?_⟩
    rintro y rfl
    exact hp.2.2.2.1.unmarked
  | mark key pred x result nxt hpc =>
    exact ⟨_, change_mark (inv.live_mark hpc), fun y hy => hy.elim⟩
  | unlink key pred x result nxt hpc =>
    obtain ⟨y, rfl, hy⟩ := inv.unlink_next hpc
    rw [hpc] at hp hg
    exact ⟨_, change_unlink hp.1.left hg.1 hg.2 hp.2.2.1 hy, fun y hy => hy.elim⟩
  | _ => exact ⟨_, .refl, fun y hy => hy.elim⟩

section

variable {H : List (State α ι K V × (ι × Event α K V) × State α ι K V)}

/-- **What an operation has seen**, a step of its own. -/
theorem PcSeen.step_self (inv : Inv cfg s) (h : PcSeen cfg s t H (s.pc t)) {e : Event α K V}
    (hs : Step cfg s t e s') : PcSeen cfg s' t ((s, (t, e), s') :: H) (s'.pc t) := by
  have hp := inv.shared.all t
  have hg := inv.guarded t
  have inv' : Inv cfg s' := inv.step hs
  obtain ⟨own, c, hown⟩ := hs.change inv
  have st := inv.shared.change_stable knows_local c
  have hahead : ∀ {x}, Ahead cfg s H x → Ahead cfg s' ((s, (t, e), s') :: H) x :=
    fun hx => hx.cons st inv inv' c hown
  -- where there is no outcome there is nothing to justify
  have hnone : ∀ {p : Pc α K V}, p.outcome = none → ∀ op r, p.outcome = some (op, r) →
      Justified cfg t ((s, (t, e), s') :: H) op r := by
    intro p hp op r ho
    rw [hp] at ho
    cases ho
  have hsome : ∀ {op₀ : Op K V} {r₀ : Ret V}, Justified cfg t ((s, (t, e), s') :: H) op₀ r₀ →
      ∀ op r, some (op₀, r₀) = some (op, r) → Justified cfg t ((s, (t, e), s') :: H) op r := by
    intro op₀ r₀ hj op r ho
    obtain ⟨rfl, rfl⟩ := Prod.mk.inj (Option.some.inj ho)
    exact hj
  have hfailed : ∀ {u : Upd K V} {pred curr : α},
      PcSeen cfg s' t ((s, (t, e), s') :: H) (failed pred curr u) := by
    intro u pred curr
    cases u <;> exact hnone rfl
  cases hs with
  | invoke op hpc hmin hmax =>
    rw [State.goto_pc_self]
    exact hnone rfl
  | startOp op hpc =>
    -- the head is reached, and no key lies before it
    rw [State.goto_pc_self]
    rw [hpc] at hp
    cases op with
    | contains key =>
      refine ⟨inv'.ahead_now .refl, Sometime.now fun k hk hkh => ?_⟩
      have hkh : k < s.key cfg.head := hkh
      rw [inv.key_head] at hkh
      exact absurd (hp.1.trans_le hk) (not_lt.mpr hkh.le)
    | insert key val => exact inv'.ahead_now .refl
    | erase key => exact inv'.ahead_now .refl
  | walk key x hpc hk =>
    rw [hpc] at h
    rw [State.goto_pc_self]
    exact hahead h.1
  | walkEnd key x hpc hk =>
    -- the walk has reached a node whose predecessor has a smaller key
    rw [hpc] at h hp
    rw [State.goto_pc_self]
    exact ⟨hahead h.1, h.2.cons st hp.2⟩
  | walkNext key x y hpc hy =>
    rw [hpc] at h hp
    rw [State.goto_pc_self]
    exact (hahead h).next inv' (hp.2.1.mono st) hy hp.2.2
  | testKey key x hpc hk =>
    rw [hpc] at h
    rw [State.goto_pc_self]
    exact hahead h.1
  | testKeyFail key x hpc hk =>
    -- the keys left and right of the wanted one have been neighbours: the key was absent
    rw [hpc] at h hp
    rw [State.goto_pc_self]
    have habs := h.2.absent (lt_of_le_of_ne hp.2.2 (Ne.symm hk))
    exact hsome (Sometime.cons habs)
  | testMark key x hpc hm =>
    -- an unmarked node that was met is in the list: the key is present now
    rw [hpc] at hp
    rw [State.goto_pc_self]
    have hin := inv'.contents hp.1 (hp.2.1.mono st) hp.2.2 hm
    show Sometime (fun s₀ => ∃ v, Contents cfg s₀ key v) _
    exact Sometime.now ⟨_, hin⟩
  | testMarkFail key x hpc hm =>
    -- the node is marked: a key it was `Passed` for has been absent at some time since the call
    rw [hpc] at h hp
    rw [State.goto_pc_self]
    have hx : Passed cfg s H x := h x .refl hm
    have habs := hx.absent inv hm
    have hk : s.key x = key := hp.2.2
    rw [hk] at habs
    exact hsome (Sometime.cons habs)
  | readVal key x hpc =>
    rw [hpc] at h
    rw [State.goto_pc_self]
    have h : Sometime (fun s₀ => ∃ v, Contents cfg s₀ key v) H := h
    exact hsome (Sometime.cons h)
  | loadNext u x y hpc hy =>
    rw [hpc] at h hp
    rw [State.goto_pc_self]
    exact (hahead h).next inv' (hp.2.1.mono st) hy hp.2.2
  | readKey u pred x hpc hk =>
    rw [hpc] at h
    rw [State.goto_pc_self]
    exact hahead h.1
  | readKeyEnd u pred x hpc hk =>
    -- `erase` keeps what it has seen, as it may find the key missing without a lock
    rw [hpc] at h hp
    rw [State.goto_pc_self]
    cases u with
    | insert key val => exact hnone rfl
    | erase key => exact h.2.cons st hp.2.2.2
  | eraseKey key pred x hpc hk =>
    rw [State.goto_pc_self]
    exact hnone rfl
  | eraseKeyFail key pred x hpc hk =>
    rw [hpc] at h hp
    rw [State.goto_pc_self]
    have h : Behind cfg s H key x := h
    have habs := h.absent (lt_of_le_of_ne hp.2.2.2.2 (Ne.symm hk))
    exact hsome (Sometime.cons habs)
  | spinPred u pred x hpc hl =>
    -- while the locks are taken and validated nothing is known about the result
    rw [State.goto_pc_self]
    exact hnone rfl
  | lockPred u pred x hpc hl =>
    rw [State.goto_pc_self]
    cases u <;> exact hnone rfl
  | spinCurr key pred x hpc hl =>
    rw [State.goto_pc_self]
    exact hnone rfl
  | lockCurr key pred x hpc hl =>
    rw [State.goto_pc_self]
    exact hnone rfl
  | validPred u pred x hpc hm =>
    rw [State.goto_pc_self]
    exact hnone rfl
  | validPredFail u pred x hpc hm =>
    rw [State.goto_pc_self]
    exact hnone rfl
  | validCurr u pred x hpc hm =>
    rw [State.goto_pc_self]
    exact hnone rfl
  | validCurrFail u pred x hpc hm =>
    rw [State.goto_pc_self]
    exact hnone rfl
  | validNext u pred x hpc hn =>
    rw [State.goto_pc_self]
    cases u <;> exact hnone rfl
  | validNextFail u pred x hpc hn =>
    rw [State.goto_pc_self]
    exact hnone rfl
  | failPred u pred x hpc hm =>
    -- a validation that fails leaves no result
    rw [State.goto_pc_self]
    exact hfailed
  | failPredNot u pred x hpc hm =>
    rw [State.goto_pc_self]
    exact hnone rfl
  | failCurr u pred x hpc hm =>
    rw [State.goto_pc_self]
    exact hfailed
  | failCurrNot u pred x hpc hm =>
    rw [State.goto_pc_self]
    exact hnone rfl
  | failNext u pred x hpc =>
    rw [State.goto_pc_self]
    exact hfailed
  | insertKey key val pred x hpc hk =>
    rw [State.goto_pc_self]
    exact hnone rfl
  | insertKeyFail key val pred x hpc hk =>
    rw [State.goto_pc_self]
    exact hnone rfl
  | insertVal key val pred x hpc =>
    rw [hpc] at hp hg
    rw [State.goto_pc_self]
    -- `curr` is not marked, as `pred` is locked
    have hin := inv'.contents hp.1.user (hp.1.right.mono st) hp.2 hg.right
    exact hsome (Sometime.now (P := fun s₀ => Contents cfg s₀ key (s.val x)) hin)
  | newNode key val pred x a hpc ha =>
    rw [State.goto_pc_self]
    exact hnone rfl
  | link key val pred a hpc =>
    -- the store to `pred` makes the key present
    rw [State.goto_pc_self]
    obtain ⟨habs, hadd⟩ := contents_link inv hpc
    exact hsome (Explained.insert_now habs hadd)
  | eraseVal key pred x hpc =>
    rw [State.goto_pc_self]
    exact hnone rfl
  | eraseNext key pred x result hpc =>
    rw [State.goto_pc_self]
    exact hnone rfl
  | mark key pred x result nxt hpc =>
    -- the mark makes the key absent
    rw [State.goto_pc_self]
    obtain ⟨hin, hrem⟩ := contents_mark inv hpc
    exact hsome (Explained.erase_now hin hrem)
  | unlink key pred x result nxt hpc =>
    -- the result stands from here on
    rw [hpc] at h
    rw [State.goto_pc_self]
    exact fun op r ho => (h op r ho).cons
  | retire key pred x result hpc =>
    rw [hpc] at h
    rw [State.goto_pc_self]
    exact fun op r ho => (h op r ho).cons
  | unlockCurr key pred x r hpc =>
    rw [hpc] at h
    rw [State.goto_pc_self]
    exact fun op r ho => (h op r ho).cons
  | unlockPred u pred r hpc =>
    rw [hpc] at h
    rw [State.goto_pc_self]
    exact fun op r ho => (h op r ho).cons
  | endOp op r hpc =>
    rw [hpc] at h
    rw [State.goto_pc_self]
    cases r with
    | none => exact hnone rfl
    | some r => exact fun op r ho => (h op r ho).cons
  | ret op r hpc =>
    rw [State.goto_pc_self]
    exact hnone rfl

omit [DecidableEq α] [DecidableEq ι] in
/-- An operation that has just been called has seen nothing and settled nothing. -/
theorem pcSeen_start (op : Op K V) : PcSeen cfg s t H (.start op) :=
  fun op r ho => by cases ho

/-- The other threads stay where they are. -/
theorem Step.pc_of_ne {e : Event α K V} (hs : Step cfg s t e s') {q : ι} (hq : q ≠ t) :
    s'.pc q = s.pc q := by
  cases hs <;> exact State.goto_pc_of_ne hq

/-- An invocation leads to the start of the operation. -/
theorem Step.pc_of_invoke {e : Event α K V} {op : Op K V} (hs : Step cfg s t e s')
    (he : e = .invoke op) : s'.pc t = .start op := by
  cases hs with
  | invoke op' hpc hmin hmax =>
    obtain rfl := Event.invoke.inj he
    exact State.goto_pc_self
  | _ => cases he

theorem Step.pc_of_ret {e : Event α K V} {op : Op K V} {r : Ret V} (hs : Step cfg s t e s')
    (he : e = .ret op r) : s.pc t = .ret op r := by
  cases hs with
  | ret op' r' hpc =>
    obtain ⟨rfl, rfl⟩ := Event.ret.inj he
    exact hpc
  | _ => cases he

/-- **What an operation has seen**, in every run. -/
theorem PcSeen.of_reachable
    (h : ((lts (ι := ι) cfg).since (invokedBy t)).Reachable (s, H)) :
    PcSeen cfg s t H (s.pc t) := by
  refine Lts.ReachableBy.invariant (P := fun y => PcSeen cfg y.1 t y.2 (y.1.pc t)) ?_ ?_ h
  · intro y hy
    rw [hy.1.pc t]
    exact fun op r ho => by cases ho
  · rintro ⟨s, H⟩ ⟨q, e⟩ ⟨s', H'⟩ hr hseen - ⟨hs, hH⟩
    have hr : ((lts (ι := ι) cfg).since (invokedBy t)).Reachable (s, H) := hr
    have inv : Inv cfg s := Inv.of_reachable hr.of_since
    have hs : Step cfg s q e s' := hs
    obtain rfl : H' = (s, (q, e), s') :: bif invokedBy t (q, e) then [] else H := hH
    by_cases hqt : q = t
    · subst hqt
      cases e with
      | invoke op =>
        -- a new interval begins, in which nothing has been seen
        show PcSeen cfg s' q _ (s'.pc q)
        rw [hs.pc_of_invoke rfl]
        exact pcSeen_start op
      | _ => exact hseen.step_self inv hs
    · obtain ⟨own, c, hown⟩ := hs.change inv
      have st := inv.shared.change_stable knows_local c
      have hstart : invokedBy t (q, e) = false := by
        cases e with
        | invoke op => exact decide_eq_false hqt
        | _ => rfl
      show PcSeen cfg s' t _ (s'.pc t)
      rw [hstart, hs.pc_of_ne (Ne.symm hqt)]
      exact hseen.cons st inv (inv.step hs) c hown (inv.shared.all t)

end

end LazyList
end PopSetbench

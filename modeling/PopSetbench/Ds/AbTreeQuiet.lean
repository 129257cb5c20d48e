import PopSetbench.Ds.AbTreeBalance
import PopSetbench.Ds.AbTreeRewrites

/-!
# The relaxed (a,b)-tree: who does the repairs

A repair that does not find its node gives up: who has removed the node is to see to what is wrong
with the new ones. So no violation is ever without a thread that has a repair of it to do
(`Tended`), and when no thread has anything to do there is none (`abTree_quiet`).
-/

namespace PopSetbench
namespace AbTree

open Function

variable {m : ℕ} {K V : Type}

/-! ### The threads -/

/-- **Every violation has somebody who is to repair it.** -/
structure Tended (degree : ℕ) (w : World m K V) : Prop where
  owner : ∀ d, Inside w.tree.root d → d.ptr ≠ w.tree.root.ptr → ∀ g,
    due degree d.weight d.getABDegree d.ptr = some g → ∃ t, g ∈ (w.todo t).map Task.goal
  finalized : ∀ x ∈ w.tree.finalized, x < w.tree.next ∧ x ∉ w.tree.root.addresses
  two_le : w.tree.root.isLeaf = false → 2 ≤ w.tree.root.getABDegree

section

variable {degree size x v : ℕ} {weight : Bool} {w : World m K V} {t : Fin m} {g : Goal K V}
  {tasks rest : List (Task K V)} {task : Task K V}

theorem due_stop (h : due degree weight size x = some g) : g.stop = some x := by
  unfold due at h
  split_ifs at h
  · rw [← Option.some.inj h]
    rfl
  · rw [← Option.some.inj h]
    rfl

theorem due_weight (h : due degree weight size x = some (.weight v : Goal K V)) :
    weight = false := by
  unfold due at h
  split_ifs at h with hw
  · exact hw
  · cases h

theorem due_degree (h : due degree weight size x = some (.degree v : Goal K V)) :
    size < minDegree degree := by
  unfold due at h
  split_ifs at h with hw hsize
  · cases h
  · exact hsize

/-- A node without a repair that is due. -/
theorem due_none (h : ∀ g : Goal K V, due degree weight size x ≠ some g) :
    weight = true ∧ minDegree degree ≤ size := by
  unfold due at h
  split_ifs at h with hw hsize
  · exact absurd rfl (h _)
  · exact absurd rfl (h _)
  · exact ⟨eq_true_of_ne_false hw, not_lt.mp hsize⟩

/-- A step in the same tree. What the thread has had to do and is still due stays with it. -/
theorem Tended.goto (ht : Tended degree w)
    (hkeep : ∀ d, Inside w.tree.root d → d.ptr ≠ w.tree.root.ptr → ∀ g,
      due degree d.weight d.getABDegree d.ptr = some g → g ∈ (w.todo t).map Task.goal →
      g ∈ tasks.map Task.goal) : Tended degree (w.goto t tasks) := by
  refine ⟨fun d hd hne g hg => ?_, ht.finalized, ht.two_le⟩
  obtain ⟨q, hq⟩ := ht.owner d hd hne g hg
  by_cases hqt : q = t
  · subst hqt
    refine ⟨q, ?_⟩
    show g ∈ (update w.todo q tasks q).map Task.goal
    rw [update_self]
    exact hkeep d hd hne g hg hq
  · refine ⟨q, ?_⟩
    show g ∈ (update w.todo t tasks q).map Task.goal
    rwa [update_of_ne hqt]

/-- The first task has been done, or is still there. -/
theorem Tended.goto_cons (ht : Tended degree w) (htodo : w.todo t = task :: rest)
    (hkeep : ∀ d, Inside w.tree.root d → d.ptr ≠ w.tree.root.ptr →
      due degree d.weight d.getABDegree d.ptr = some task.goal → task.goal ∈ tasks.map Task.goal)
    (hrest : ∀ g ∈ rest.map Task.goal, g ∈ tasks.map Task.goal) :
    Tended degree (w.goto t tasks) := by
  refine ht.goto fun d hd hne g hg hmem => ?_
  rw [htodo] at hmem
  rcases List.mem_cons.mp hmem with rfl | hmem
  · exact hkeep d hd hne hg
  · exact hrest g hmem

end

section

variable [LinearOrder K] {S S' : Scheme K} {w w' : World m K V} {t : Fin m} {tree : State K V}
  {task : Task K V} {rest calls : List (Task K V)} {gone : Multiset ℕ} {act : Act K V}

/-- **A `scxExecute`.** -/
theorem Tended.commit (ht : Tended S.degree w)
    (hr : Rewrites S.degree w.tree tree gone calls) (htodo : w.todo t = task :: rest)
    (hw : w.Inv S) (hw' : (w.commit t tree (calls ++ rest)).Inv S') (hS : S.Extends S')
    (htask : ∀ v, task.goal.stop = some v → v ∈ gone) :
    Tended S.degree (w.commit t tree (calls ++ rest)) := by
  obtain ⟨h, hroot⟩ := hw.regular.root
  obtain ⟨h', hroot'⟩ := hw'.regular.root
  have hroot' : Relaxed S' h' ⊥ ⊤ tree.root := hroot'
  have hnext : w.tree.next ≤ tree.next := by
    have hle := hS.next
    rwa [hw.regular.next, hw'.regular.next] at hle
  have hold : ∀ {x}, x ∈ w.tree.root.addresses → x < w.tree.next := by
    intro x hx
    rw [← hw.regular.next]
    exact (hroot.within_of_mem hx).1
  -- the nodes of the new tree are old ones that are not gone, and new ones
  have hnew : ∀ x ∈ tree.root.addresses, x ∈ w.tree.root.addresses ∧ x ∉ gone ∨
      w.tree.next ≤ x := by
    intro x hx
    obtain ⟨d, hd, rfl⟩ := exists_inside hx
    exact (hr.inside d hd).imp id And.left
  refine ⟨fun d hd hne g hg => ?_, fun x hx => ?_, hr.two_le ht.two_le⟩
  · show ∃ q, g ∈ (update w.todo t (calls ++ rest) q).map Task.goal
    -- what the step hands out is a task of this thread
    have hthread : g ∈ (calls ++ rest).map Task.goal →
        ∃ q, g ∈ (update w.todo t (calls ++ rest) q).map Task.goal := by
      intro hmem
      refine ⟨t, ?_⟩
      rwa [update_self]
    rcases hr.inside d hd with ⟨hmem, hgone⟩ | ⟨-, hsettled | heq⟩
    · -- an old node: its weight and its size are as they were
      obtain ⟨d₀, hd₀, hptr⟩ := exists_inside hmem
      obtain ⟨_, _, _, hrel₀⟩ := hd₀.relaxed hroot
      obtain ⟨_, _, _, hrel⟩ := Inside.relaxed hd hroot'
      have hinfo := hS.info _ hrel₀.label.ptr_lt
      rw [hrel₀.label.info, hptr, hrel.label.info] at hinfo
      have hweight : d.weight = d₀.weight := congrArg Info.weight hinfo
      have hsize : d.getABDegree = d₀.getABDegree := congrArg Info.size hinfo
      have hne₀ : d₀.ptr ≠ w.tree.root.ptr := by
        intro heq
        rw [hptr] at heq
        rcases hr.root with hsame | hroot
        · exact hne (heq.trans hsame.symm)
        · rw [← heq] at hroot
          exact hgone hroot
      rw [hweight, hsize, ← hptr] at hg
      obtain ⟨q, hq⟩ := ht.owner d₀ hd₀ hne₀ g hg
      by_cases hqt : q = t
      · subst hqt
        rw [htodo] at hq
        rcases List.mem_cons.mp hq with rfl | hq
        · -- the repair has done its own node, which is gone
          rw [hptr] at hg
          exact absurd (htask _ (due_stop hg)) hgone
        · -- the other repairs of the thread are still to be done
          refine hthread ?_
          rw [List.map_append]
          exact List.mem_append_right _ hq
      · -- the repairs of the others are not touched
        refine ⟨q, ?_⟩
        rwa [update_of_ne hqt]
    · -- a new node with a violation is handed out
      refine hthread ?_
      rw [List.map_append]
      exact List.mem_append_left _ (hsettled g hg)
    · -- the new root
      exact absurd heq hne
  · show x < tree.next ∧ x ∉ tree.root.addresses
    -- what is finalized was in the tree and is gone, or was finalized before
    have hgone : x < w.tree.next ∧ (x ∈ w.tree.root.addresses → x ∈ gone) := by
      rcases hr.finalized x hx with hx | hx
      · exact ⟨(ht.finalized x hx).1, fun hmem => absurd hmem (ht.finalized x hx).2⟩
      · exact ⟨hold (hr.mem x hx), fun _ => hx⟩
    refine ⟨hgone.1.trans_le hnext, fun hmem => ?_⟩
    rcases hnew x hmem with ⟨hin, hout⟩ | hle
    · exact hout (hgone.2 hin)
    · exact absurd hgone.1 hle.not_gt

/-- A search that has ended somewhere else: its node is not in the tree. -/
theorem World.Inv.absent {goal : Goal K V} {k : K} {c : Cursor} {v : ℕ} {d : Node K V}
    (hw : w.Inv S) (htodo : w.todo t = .search goal k c :: rest) (hstop : goal.stop = some v)
    (hend : w.Ended goal c) (hne : c.l ≠ v) (hd : Inside w.tree.root d) : d.ptr ≠ v := by
  rintro rfl
  obtain ⟨h, hroot⟩ := hw.regular.root
  have hc : c.Fits S w.tree w.node goal k := by
    have htask := hw.tasks t (.search goal k c)
    rw [htodo] at htask
    exact htask List.mem_cons_self
  have hlead := hc.leads _ hstop ⟨d, hd.find? hroot⟩
  rcases hend with hl | ⟨l, hl, hleaf⟩
  · rw [hstop] at hl
    exact hne (Option.some.inj hl).symm
  · generalize c.l = x at hlead hl hne
    cases hlead with
    | here => exact hne rfl
    | step hx =>
      rw [hx] at hl
      obtain rfl := Option.some.inj hl
      exact Bool.noConfusion hleaf

theorem Tended.step (ht : Tended S.degree w) (hw : w.Inv S) (hleast : S.least = 1)
    (hstep : Step S.degree w t act w') : Tended S.degree w' := by
  obtain ⟨S', hS, hw', -⟩ := hw.step (.inl hleast.le) hstep
  have hnode : ∀ {d v nd}, Inside w.tree.root d → w.node v = some nd → d.ptr = v → d = nd := by
    rintro d v nd hd hv rfl
    rw [hw.node_inside hd] at hv
    exact Option.some.inj hv
  cases hstep with
  | insert key value replace htodo | erase key htodo =>
    refine ht.goto fun d hd hne g hg hmem => ?_
    rw [htodo] at hmem
    cases hmem
  | start htodo hk | advance htodo hl hstop hchild | retry htodo hend | fixWeight htodo hv hweight
  | fixDegree htodo hv hsize | llx htodo hstop hfin =>
    -- the repair goes on
    exact ht.goto_cons htodo (fun _ _ _ _ => List.mem_cons_self)
      fun g hg => List.mem_cons_of_mem _ hg
  | found htodo hl hpair | missing htodo hl hpair =>
    -- a search that is over was for a key, not for a node
    refine ht.goto_cons htodo (fun d hd hne hdue => ?_) fun g hg => hg
    cases due_stop hdue
  | insertScx htodo hat hstep =>
    -- the insertion hands out what it has made due
    have hcommit := ht.commit (insertStep_rewrites hw.regular hat.root hstep) htodo hw hw' hS
      fun v hv => by cases hv
    exact hcommit
  | eraseScx htodo hat hstep =>
    have hcommit := ht.commit (eraseStep_rewrites hw.regular hat.root hstep) htodo hw hw' hS
      fun v hv => by cases hv
    exact hcommit
  | fixWeightReturn htodo hv hweight =>
    -- there is nothing to be done: the node is not due
    refine ht.goto_cons htodo (fun d hd hne hdue => ?_) fun g hg => hg
    obtain rfl := hnode hd hv (Option.some.inj (due_stop hdue)).symm
    rw [due_weight hdue] at hweight
    cases hweight
  | fixDegreeReturn htodo hv hsize =>
    -- the node is not due: it is large enough, the entry, or the root
    refine ht.goto_cons htodo (fun d hd hne hdue => ?_) fun g hg => hg
    have hptr := (Option.some.inj (due_stop hdue)).symm
    obtain rfl := hnode hd hv hptr
    rcases hsize with hsize | hentry | hroot
    · exact absurd hsize (due_degree hdue).not_ge
    · obtain ⟨h, hrelaxed⟩ := hw.regular.root
      obtain ⟨_, _, _, hrel⟩ := hd.relaxed hrelaxed
      exact absurd (hptr.trans hentry) hrel.label.ptr_ne
    · exact absurd (hptr.trans hroot) hne
  | llxFinalized htodo hstop hfin =>
    -- the node that was to be repaired is gone
    refine ht.goto_cons htodo (fun d hd hne hdue => ?_) fun g hg => hg
    have hptr := Option.some.inj (hstop.symm.trans (due_stop hdue))
    rw [hptr] at hfin
    exact absurd hd.mem (ht.finalized _ hfin).2
  | handOver htodo hstop hend hne =>
    -- the search has come to another node, so its own one is gone
    refine ht.goto_cons htodo (fun d hd _ hdue => ?_) fun g hg => hg
    have hptr := Option.some.inj ((due_stop hdue).symm.trans hstop)
    exact absurd hptr (hw.absent htodo hstop hend hne hd)
  | weightParent htodo hp hweight =>
    -- the node above has a weight of zero and comes first
    exact ht.goto_cons htodo (fun _ _ _ _ => List.mem_cons_of_mem _ List.mem_cons_self)
      fun g hg => List.mem_cons_of_mem _ (List.mem_cons_of_mem _ hg)
  | @weightScx k c rest p path l tree n zero htodo hat hgp hweight hstep =>
    have hc : c.Fits S w.tree w.node (.weight c.l) k := by
      have htask := hw.tasks t (.search (.weight c.l) k c)
      rw [htodo] at htask
      exact htask List.mem_cons_self
    have hl : l.weight = false := (hw.at_inside hat).2.symm.trans hc.fits.2
    rw [List.append_cons] at hw' ⊢
    refine ht.commit (weightStep_rewrites hw.regular hat.root hl hstep) htodo hw hw' hS ?_
    intro v hv
    rw [← Option.some.inj hv, ← hat.l]
    simp
  | degreeWeights htodo hp hl hs hweight =>
    -- the node above, the sibling or the node itself has a weight of zero and comes first
    refine ht.goto_cons htodo (fun d hd hne hdue => ?_) fun g hg => ?_
    · rw [List.map_append]
      exact List.mem_append_right _ List.mem_cons_self
    · rw [List.map_append]
      exact List.mem_append_right _ (List.mem_cons_of_mem _ hg)
  | degreeMissing htodo hp hs =>
    -- the thread keeps the repair
    exact ⟨ht.owner, ht.finalized, ht.two_le⟩
  | degreeScx htodo hat hgp hs hweight hstep =>
    refine ht.commit (degreeStep_rewrites hw.regular hleast.ge hat.root hs hstep) htodo hw hw' hS ?_
    intro v hv
    rw [← Option.some.inj hv, ← hat.l]
    simp

end

/-! ### Nothing left to do -/

section

variable [LinearOrder K] {S : Scheme K} {degree N h k : ℕ} {lo : WithBot K} {hi : WithTop K}
  {n : Node K V} {cs : List (Node K V)} {w : World m K V}

/-- A subtree in which no node has a violation. -/
theorem Relaxed.rest (hn : Relaxed S h lo hi n)
    (hall : ∀ d, Inside n d → d.weight = true ∧ minDegree S.degree ≤ d.getABDegree) :
    Rest S.degree S.next h (minDegree S.degree) lo hi n := by
  revert hall
  refine Relaxed.induct (motive := fun h lo hi n =>
    (∀ d, Inside n d → d.weight = true ∧ minDegree S.degree ≤ d.getABDegree) →
      Rest S.degree S.next h (minDegree S.degree) lo hi n) ?_ ?_ hn
  · intro lo hi ptr searchKey weight entries hlabel hpairs hall
    obtain ⟨hweight, hsize⟩ := hall _ .refl
    exact ⟨⟨hweight, hlabel.ptr_lt, hlabel.searchKey, hsize, hlabel.size_le⟩,
      holds_leaf.mpr hpairs⟩
  · intro h lo hi ptr searchKey weight keys ptrs hlabel hsep hall
    obtain ⟨hweight, hsize⟩ := hall _ .refl
    obtain rfl : weight = true := hweight
    refine ⟨⟨rfl, hlabel.ptr_lt, hlabel.searchKey, hsize, hlabel.size_le⟩, ?_⟩
    show Holds S.degree S.next (h + 1) lo hi _
    rw [holds_internal]
    exact hsep.imp_mem fun l u c hc hchild => hchild.2 fun d hd => hall d (.child hc hd)

/-- **The tree without a violation below its root.** -/
theorem Relaxed.atRest (hn : Relaxed S h ⊥ ⊤ n) (hweight : n.weight = true)
    (htwo : n.isLeaf = false → 2 ≤ n.getABDegree)
    (hall : ∀ d, Inside n d → d.ptr ≠ n.ptr →
      d.weight = true ∧ minDegree S.degree ≤ d.getABDegree) : AtRest S.degree S.next n := by
  have hlabel := hn.label
  cases n with
  | leaf ptr searchKey weight entries =>
    obtain ⟨-, rfl, hpairs⟩ := relaxed_leaf.mp hn
    refine ⟨0, ⟨hweight, hlabel.ptr_lt, hlabel.searchKey, ?_, hlabel.size_le⟩,
      holds_leaf.mpr hpairs⟩
    exact Nat.zero_le _
  | internal ptr searchKey weight keys ptrs =>
    obtain ⟨-, h', rfl, hsep⟩ := relaxed_internal.mp hn
    obtain rfl : weight = true := hweight
    refine ⟨h' + 1, ⟨rfl, hlabel.ptr_lt, hlabel.searchKey, ?_, hlabel.size_le⟩, ?_⟩
    · exact htwo rfl
    · rw [holds_internal]
      refine hsep.imp_mem fun l u c hc hchild => hchild.rest fun d hd => hall d (.child hc hd) ?_
      -- below the root
      intro heq
      have hlt := (hd.part_le hchild).trans_lt (hn.child_part_lt hc)
      rw [heq] at hlt
      exact absurd hlt (lt_irrefl _)

/-! ### Height -/

omit [LinearOrder K] in
theorem length_pairsOf (hcs : ∀ c ∈ cs, k ≤ c.pairs.length) :
    cs.length * k ≤ (pairsOf cs).length := by
  induction cs with
  | nil => simp
  | cons c cs ih =>
    rw [List.forall_mem_cons] at hcs
    have hcs' := ih hcs.2
    rw [pairsOf_cons, List.length_append, List.length_cons, Nat.succ_mul]
    omega

/-- A subtree without a violation has many pairs. -/
theorem Rest.pow_le (hn : Rest degree N h (minDegree degree) lo hi n) :
    minDegree degree ^ (h + 1) ≤ n.pairs.length := by
  induction h generalizing lo hi n with
  | zero =>
    cases n with
    | leaf ptr searchKey weight entries =>
      rw [zero_add, pow_one, pairs_leaf]
      exact hn.fits.le_size
    | internal => exact hn.holds.elim
  | succ h ih =>
    cases n with
    | leaf => exact hn.holds.elim
    | internal ptr searchKey weight keys ptrs =>
      have hsep := holds_internal.mp hn.holds
      have hchildren : ∀ c ∈ ptrs, minDegree degree ^ (h + 1) ≤ c.pairs.length := by
        intro c hc
        obtain ⟨_, _, hchild⟩ := hsep.forall_mem hc
        exact ih hchild
      calc minDegree degree ^ (h + 1 + 1)
          = minDegree degree * minDegree degree ^ (h + 1) := pow_succ' ..
        _ ≤ ptrs.length * minDegree degree ^ (h + 1) := Nat.mul_le_mul_right _ hn.fits.le_size
        _ ≤ (pairsOf ptrs).length := length_pairsOf hchildren
        _ = (Node.internal ptr searchKey weight keys ptrs).pairs.length := by rw [pairs_internal]

/-- The root has two children at least. -/
theorem Rest.two_mul_pow_le (hn : Rest degree N h (minAt degree h ([] : List (Frame K V))) ⊥ ⊤ n)
    (hpos : h ≠ 0) : 2 * minDegree degree ^ h ≤ n.pairs.length := by
  obtain ⟨d, rfl⟩ := Nat.exists_eq_succ_of_ne_zero hpos
  cases n with
  | leaf => exact hn.holds.elim
  | internal ptr searchKey weight keys ptrs =>
    have hsep := holds_internal.mp hn.holds
    have hchildren : ∀ c ∈ ptrs, minDegree degree ^ (d + 1) ≤ c.pairs.length := by
      intro c hc
      obtain ⟨_, _, hchild⟩ := hsep.forall_mem hc
      exact hchild.pow_le
    have htwo : 2 ≤ ptrs.length := (two_le_minAt degree d []).trans hn.fits.le_size
    calc 2 * minDegree degree ^ (d + 1)
        ≤ ptrs.length * minDegree degree ^ (d + 1) := Nat.mul_le_mul_right _ htwo
      _ ≤ (pairsOf ptrs).length := length_pairsOf hchildren
      _ = (Node.internal ptr searchKey weight keys ptrs).pairs.length := by rw [pairs_internal]

/-- The height of a tree without a violation is logarithmic in the number of its pairs. -/
theorem AtRest.pow_le {d : ℕ} {l : Node K V} (hrest : AtRest degree N n) (hl : Reaches n d l)
    (hleaf : l.isLeaf = true) (hd : d ≠ 0) : 2 * minDegree degree ^ d ≤ n.pairs.length := by
  obtain ⟨h, hroot⟩ := hrest
  obtain ⟨k, lo, hi, rfl, hk⟩ := hl.rest hroot
  cases k with
  | zero => exact hroot.two_mul_pow_le hd
  | succ k =>
    cases l with
    | leaf => exact hk.holds.elim
    | internal => exact Bool.noConfusion hleaf

/-! ### The runs -/

omit [LinearOrder K] in
theorem tended_init (anyKey : K) : Tended degree (World.init anyKey : World m K V) := by
  refine ⟨fun d hd hne g hg => ?_, fun x hx => ?_, fun hleaf => ?_⟩
  · cases hd with
    | refl => exact absurd rfl hne
  · cases hx
  · exact Bool.noConfusion hleaf

/-- What is known in every run. -/
theorem exists_tended (hdegree : 3 ≤ degree) (hw : (system m K V degree).Reachable w) :
    ∃ S : Scheme K, S.degree = degree ∧ w.Inv S ∧ Tended degree w := by
  have hinv : ∃ S : Scheme K, S.degree = degree ∧ S.least = 1 ∧ w.Inv S ∧ Tended degree w := by
    induction hw with
    | init hinit =>
      obtain ⟨anyKey, rfl⟩ := hinit
      obtain ⟨S, hS, hleast, hinv⟩ := inv_init hdegree Nat.one_lt_two.le anyKey
      exact ⟨S, hS, hleast, hinv, tended_init anyKey⟩
    | @step w w' a _ hstep _ ih =>
      obtain ⟨S, rfl, hleast, hinv, htended⟩ := ih
      obtain ⟨S', hS, hinv', -⟩ := hinv.step (.inl hleast.le) hstep.2
      exact ⟨S', hS.degree, hS.least.trans hleast, hinv', htended.step hinv hleast hstep.2⟩
  obtain ⟨S, hS, -, hinv, htended⟩ := hinv
  exact ⟨S, hS, hinv, htended⟩

/-- When no thread has anything to do. -/
theorem Tended.atRest (ht : Tended S.degree w) (hw : w.Inv S) (hidle : ∀ t, w.todo t = []) :
    AtRest S.degree S.next w.tree.root := by
  obtain ⟨h, hroot⟩ := hw.regular.root
  refine hroot.atRest hw.regular.weight ht.two_le fun d hd hne => ?_
  apply due_none (K := K) (V := V) (x := d.ptr)
  intro g hg
  obtain ⟨t, hmem⟩ := ht.owner d hd hne g hg
  rw [hidle t] at hmem
  cases hmem

/-- **Who does the repairs.** In every run each node of the tree but the root that has a violation
is that of a repair which some thread has to do, and no node of the tree is finalized. When all
threads have done what they had to do the tree is balanced: its height is logarithmic in the number
of its pairs. -/
theorem abTree_quiet (hdegree : 3 ≤ degree) (hw : (system m K V degree).Reachable w) :
    (∀ d, Inside w.tree.root d → d.ptr ≠ w.tree.root.ptr → ∀ g,
      due degree d.weight d.getABDegree d.ptr = some g → ∃ t, g ∈ (w.todo t).map Task.goal) ∧
    (∀ d, Inside w.tree.root d → d.ptr ∉ w.tree.finalized) ∧
    ((∀ t, w.todo t = []) → Balanced degree w.tree.root ∧
      ∀ d l, Reaches w.tree.root d l → l.isLeaf = true → d ≠ 0 →
        2 * minDegree degree ^ d ≤ w.tree.root.pairs.length) := by
  obtain ⟨S, rfl, hinv, ht⟩ := exists_tended hdegree hw
  refine ⟨ht.owner, fun d hd hfin => (ht.finalized _ hfin).2 hd.mem, fun hidle => ?_⟩
  have hrest := ht.atRest hinv hidle
  exact ⟨hrest.balanced, fun d l hl hleaf hd => hrest.pow_le hl hleaf hd⟩

end

/-- The repair of thread `t` has come to a node that has a violation and is not the root. -/
def World.violated (w : World 2 ℕ ℕ) (t : Fin 2) : Bool :=
  match w.located 10 t with
  | some (_, _, _, _, _, l) => decide (l.ptr ≠ w.tree.root.ptr ∧
      (due 4 l.weight l.getABDegree l.ptr : Option (Goal ℕ ℕ)).isSome)
  | none => false

/-- The keys are 2 to 12, and no thread has anything to do. -/
def World.repaired (w : World 2 ℕ ℕ) : Bool :=
  decide (w.tree.root.pairs.map Prod.fst = List.range' 2 11 ∧ ∀ t, (w.todo t).isEmpty)

/-- In a run with a repair: when it has come to its node; and when it has gone on to the parent and
is over. -/
theorem abTree_quiet_repairing :
    (∃ w : World 2 ℕ ℕ, ∃ d g, Inside w.tree.root d ∧ due 4 d.weight d.getABDegree d.ptr = some g ∧
      (∃ t, g ∈ (w.todo t).map Task.goal) ∧ d.ptr ∉ w.tree.finalized) ∧
    ∃ w : World 2 ℕ ℕ, w.tree.root.pairs.map Prod.fst = List.range' 2 11 ∧
      Balanced 4 w.tree.root := by
  constructor
  · obtain ⟨as, w, hpath, hw⟩ := (World.computes 4 10).exists_path (repairRun 0 1) (World.init 0)
      (fun _ w => w.violated 1) (by decide +kernel)
    unfold World.violated at hw
    split at hw
    · rename_i k c rest p path l hlocated
      obtain ⟨hroot, hdue⟩ := of_decide_eq_true hw
      obtain ⟨g, hg⟩ := Option.isSome_iff_exists.mp hdue
      obtain ⟨-, hat⟩ := World.located_sound hlocated
      have hl : Inside w.tree.root l := by
        rw [hat.root]
        exact inside_plug (p :: path) l l .refl
      obtain ⟨howner, hfinalized, -⟩ := abTree_quiet (show 3 ≤ 4 by decide)
        (.path (.init ⟨0, rfl⟩) hpath)
      exact ⟨w, l, g, hl, hg, howner l hl hroot g hg, hfinalized l hl⟩
    · exact Bool.noConfusion hw
  · obtain ⟨as, w, hpath, hw⟩ := (World.computes 4 10).exists_path
      (repairRun 0 1 ++ List.replicate 8 (1, none)) (World.init 0) (fun _ w => w.repaired)
      (by decide +kernel)
    obtain ⟨hpairs, hidle⟩ := of_decide_eq_true hw
    refine ⟨w, hpairs, ((abTree_quiet (show 3 ≤ 4 by decide)
      (.path (.init ⟨0, rfl⟩) hpath)).2.2 fun t => ?_).1⟩
    exact List.isEmpty_iff.mp (hidle t)

end AbTree
end PopSetbench

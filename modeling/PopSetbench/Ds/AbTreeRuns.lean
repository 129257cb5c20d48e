import PopSetbench.Ds.AbTreeMemory
import PopSetbench.Ds.AbTreeSchedule

/-!
# The relaxed (a,b)-tree: what holds in every run

`World.Inv S w` is the invariant of the tree, the memory and the threads. A step keeps it, for a
record that has got the new nodes.

* Each step replaces a subtree by one with the same range, height and pairs, but for the pair of the
  operation: `abTree_steps`.
* The search key of a node is in its range, and so a search of a repair comes to its node:
  `abTree_searchKeys`.
* No step reads a key that is not there: `abTree_defined`.
* The root has a weight of one, and a node that is not the root does not become the root. So the
  node of a repair has a parent that is not the entry node: `abTree_grandparent`.
-/

namespace PopSetbench
namespace AbTree

open Function

variable {m : ℕ} {K V : Type}

/-- There is a child pointer at this index of the node. -/
def Slot (node : ℕ → Option (Node K V)) (x ix : ℕ) : Prop :=
  x = entry ∧ ix = 0 ∨ ∃ nd, node x = some nd ∧ nd.isLeaf = false ∧ ix < nd.getABDegree

section

variable [LinearOrder K]

/-- What is known of the node of a repair. -/
def Goal.Fits (S : Scheme K) (root : ℕ) : Goal K V → Prop
  | .insert .. | .erase _ => True
  | .weight viol => viol < S.next ∧ (S.info viol).weight = false
  | .degree viol => viol < S.next ∧ viol ≠ root

/-- The key that is searched for. -/
def Goal.Seeks (S : Scheme K) (k : K) : Goal K V → Prop
  | .insert key .. | .erase key => k = key
  | .weight viol | .degree viol => k = (S.info viol).searchKey

/-- What is known in a search. -/
structure Cursor.Fits (S : Scheme K) (tree : State K V) (node : ℕ → Option (Node K V))
    (goal : Goal K V) (k : K) (c : Cursor) : Prop where
  fits : goal.Fits S tree.root.ptr
  seeks : goal.Seeks S k
  lt : c.l < S.next
  within : Within (S.info c.l).lo (S.info c.l).hi k
  p : Slot node c.p c.ixToL
  gp : ∀ g ix, c.gp = some (g, ix) → Slot node g ix
  viol : c.gp = none → goal.stop ≠ some c.l
  /-- The search comes to the node of the repair, if this is in the tree. -/
  leads : ∀ v, goal.stop = some v → (∃ nd, tree.root.find? v = some nd) → Leads node k c.l v

/-- What is known of the tasks of a thread. -/
def Task.Fits (S : Scheme K) (tree : State K V) (node : ℕ → Option (Node K V)) : Task K V → Prop
  | .fixWeightViolation viol | .fixDegreeViolation viol => viol < S.next
  | .llx goal | .loop goal => goal.Fits S tree.root.ptr
  | .search goal k c => c.Fits S tree node goal k

/-- The invariant. -/
structure World.Inv (S : Scheme K) (w : World m K V) : Prop where
  regular : w.tree.Regular S
  memory : ∀ x nd, w.node x = some nd → nd.ptr = x ∧ Recorded S nd
  current : ∀ x nd, w.tree.root.find? x = some nd → w.node x = some nd
  tasks : ∀ t, ∀ task ∈ w.todo t, task.Fits S w.tree w.node

end

section

variable [LinearOrder K] {S S' : Scheme K} {w w' : World m K V} {t : Fin m} {tree tree' : State K V}
  {node node' : ℕ → Option (Node K V)} {goal : Goal K V} {task : Task K V} {k : K} {c : Cursor}
  {h : ℕ} {lo : WithBot K} {hi : WithTop K} {n nd : Node K V} {x ix : ℕ}

/-! ### The record -/

theorem Relaxed.recorded (hn : Relaxed S h lo hi n) : Recorded S n := by
  have hlabel := hn.label
  constructor
  · rw [hlabel.info]
    exact hlabel
  · rintro ptr searchKey weight keys ptrs rfl
    obtain ⟨-, h', rfl, hsep⟩ := relaxed_internal.mp hn
    have hinfo : S.info ptr = _ := hlabel.info
    rw [hinfo]
    exact ⟨h', rfl, hsep.imp fun _ _ _ hc => hc.label⟩

theorem Recorded.mono (hS : S.Extends S') (hn : Recorded S n) : Recorded S' n := by
  have hinfo := hS.info _ hn.label.ptr_lt
  constructor
  · rw [hinfo]
    exact hn.label.mono hS
  · rintro ptr searchKey weight keys ptrs rfl
    obtain ⟨h', hh, hsep⟩ := hn.children _ _ _ _ _ rfl
    have hinfo' : S'.info ptr = S.info ptr := hinfo
    rw [hinfo']
    exact ⟨h', hh, hsep.imp fun _ _ _ hc => hc.mono hS⟩

theorem Recorded.info (hn : Recorded S n) : (S.info n.ptr).weight = n.weight ∧
    (S.info n.ptr).searchKey = n.searchKey ∧ (S.info n.ptr).size = n.getABDegree ∧
      (S.info n.ptr).isLeaf = n.isLeaf := by
  rw [hn.label.info]
  exact ⟨rfl, rfl, rfl, rfl⟩

namespace World.Inv

variable (hw : w.Inv S)

include hw

theorem lt (hx : w.node x = some nd) : x < S.next := by
  obtain ⟨rfl, hnd⟩ := hw.memory x nd hx
  exact hnd.label.ptr_lt

/-- The nodes of the tree are in the memory. -/
theorem node_inside (hn : Inside w.tree.root n) : w.node n.ptr = some n := by
  obtain ⟨h, hroot⟩ := hw.regular.root
  exact hw.current _ _ (hn.find? hroot)

theorem weight_eq (hx : w.node x = some nd) : (S.info x).weight = nd.weight := by
  obtain ⟨rfl, hnd⟩ := hw.memory x nd hx
  exact hnd.info.1

theorem searchKey_eq (hx : w.node x = some nd) : (S.info x).searchKey = nd.searchKey := by
  obtain ⟨rfl, hnd⟩ := hw.memory x nd hx
  exact hnd.info.2.1

end World.Inv

/-! ### A silent step -/

/-- The tree and the memory are as before, and so is all that is known. -/
theorem World.Inv.goto (hw : w.Inv S) {tasks : List (Task K V)}
    (htasks : ∀ task ∈ tasks, task.Fits S w.tree w.node) : (w.goto t tasks).Inv S := by
  refine ⟨hw.regular, hw.memory, hw.current, fun u task htask => ?_⟩
  by_cases hu : u = t
  · subst hu
    simp only [World.goto, update_self] at htask
    exact htasks task htask
  · simp only [World.goto, update_of_ne hu] at htask
    exact hw.tasks u task htask

/-! ### A `scxExecute` -/

omit [LinearOrder K] in
theorem Slot.commit (hslot : Slot node x ix)
    (hkeep : ∀ x nd, node x = some nd → ∃ nd', node' x = some nd' ∧ nd'.isLeaf = nd.isLeaf ∧
      nd'.getABDegree = nd.getABDegree) : Slot node' x ix := by
  rcases hslot with hentry | ⟨nd, hx, hleaf, hix⟩
  · exact .inl hentry
  · obtain ⟨nd', hx', hleaf', hsize⟩ := hkeep x nd hx
    exact .inr ⟨nd', hx', hleaf'.trans hleaf, by rwa [hsize]⟩

omit [LinearOrder K] in
theorem Goal.Fits.commit (hS : S.Extends S') {root root' : ℕ}
    (hroot : root' = root ∨ S.next ≤ root') (hgoal : goal.Fits S root) : goal.Fits S' root' := by
  cases goal with
  | insert => trivial
  | erase => trivial
  | weight viol =>
    refine ⟨hgoal.1.trans_le hS.next, ?_⟩
    rw [hS.info _ hgoal.1]
    exact hgoal.2
  | degree viol =>
    refine ⟨hgoal.1.trans_le hS.next, ?_⟩
    rcases hroot with rfl | hnew
    · exact hgoal.2
    · exact (hgoal.1.trans_le hnew).ne

omit [LinearOrder K] in
theorem Goal.Fits.lt {root v : ℕ} (hgoal : goal.Fits S root) (hstop : goal.stop = some v) :
    v < S.next := by
  cases goal with
  | insert => simp [Goal.stop] at hstop
  | erase => simp [Goal.stop] at hstop
  | weight viol =>
    obtain rfl := Option.some.inj hstop
    exact hgoal.1
  | degree viol =>
    obtain rfl := Option.some.inj hstop
    exact hgoal.1

omit [LinearOrder K] in
theorem Goal.Seeks.commit (hS : S.Extends S') {root : ℕ} (hgoal : goal.Fits S root)
    (hseeks : goal.Seeks S k) : goal.Seeks S' k := by
  cases goal with
  | insert => exact hseeks
  | erase => exact hseeks
  | weight viol => exact hseeks.trans (congrArg Info.searchKey (hS.info _ hgoal.1).symm)
  | degree viol => exact hseeks.trans (congrArg Info.searchKey (hS.info _ hgoal.1).symm)

omit [LinearOrder K] in
theorem Goal.Seeks.searchKey {v : ℕ} (hseeks : goal.Seeks S k) (hstop : goal.stop = some v) :
    k = (S.info v).searchKey := by
  cases goal with
  | insert => simp [Goal.stop] at hstop
  | erase => simp [Goal.stop] at hstop
  | weight viol =>
    obtain rfl := Option.some.inj hstop
    exact hseeks
  | degree viol =>
    obtain rfl := Option.some.inj hstop
    exact hseeks

/-- **A `scxExecute`** of any thread. What the others know remains true. -/
theorem World.Inv.commit (hw : w.Inv S) (tasks rest : List (Task K V))
    (htree : Renewal S w.tree S' tree) (hgraft : Grafted w.tree.next w.tree.root tree.root)
    (hrest : ∀ task ∈ rest, task ∈ w.todo t)
    (htasks : ∀ task ∈ tasks, task.Fits S' tree (w.commit t tree []).node) :
    (w.commit t tree (tasks ++ rest)).Inv S' := by
  obtain ⟨hS, hregular, hroot⟩ := htree
  rw [← hw.regular.next] at hroot
  obtain ⟨h, hrelaxed⟩ := hregular.root
  -- what is in the new tree is stored at its address
  have hcurrent : ∀ x nd, tree.root.find? x = some nd →
      (w.commit t tree (tasks ++ rest)).node x = some nd := by
    intro x nd hx
    simp [World.commit, hx]
  -- what is in no tree stays as it was last
  have hfrozen : ∀ x, tree.root.find? x = none →
      (w.commit t tree (tasks ++ rest)).node x = w.node x := by
    intro x hx
    simp [World.commit, hx]
  -- so the memory holds recorded nodes
  have hmemory : ∀ x nd, (w.commit t tree (tasks ++ rest)).node x = some nd →
      nd.ptr = x ∧ Recorded S' nd := by
    intro x nd hx
    cases hfind : tree.root.find? x with
    | none =>
      rw [hfrozen x hfind] at hx
      exact ⟨(hw.memory x nd hx).1, (hw.memory x nd hx).2.mono hS⟩
    | some nd' =>
      rw [hcurrent x nd' hfind] at hx
      obtain rfl := Option.some.inj hx
      obtain ⟨hinside, hptr⟩ := Node.find?_some hfind
      obtain ⟨_, _, _, hrel⟩ := hinside.relaxed hrelaxed
      exact ⟨hptr, hrel.recorded⟩
  -- a node may be replaced at its address, but keeps its size and its kind
  have hkeep : ∀ x nd, w.node x = some nd →
      ∃ nd', (w.commit t tree (tasks ++ rest)).node x = some nd' ∧ nd'.isLeaf = nd.isLeaf ∧
        nd'.getABDegree = nd.getABDegree := by
    intro x nd hx
    cases hfind : tree.root.find? x with
    | none => exact ⟨nd, (hfrozen x hfind).trans hx, rfl, rfl⟩
    | some nd' =>
      have hx' := hcurrent x nd' hfind
      obtain ⟨-, -, hsize', hleaf'⟩ := (hmemory x nd' hx').2.info
      obtain ⟨hptr, hnd⟩ := hw.memory x nd hx
      obtain ⟨-, -, hsize, hleaf⟩ := hnd.info
      have hinfo := hS.info x (hw.lt hx)
      rw [(hmemory x nd' hx').1, hinfo] at hsize' hleaf'
      rw [hptr] at hsize hleaf
      exact ⟨nd', hx', hleaf'.symm.trans hleaf, hsize'.symm.trans hsize⟩
  -- what a task relies on is recorded, or leads to its node in the new tree
  have hfits : ∀ task : Task K V, task.Fits S w.tree w.node →
      task.Fits S' tree (w.commit t tree (tasks ++ rest)).node := by
    intro task htask
    cases task with
    | fixWeightViolation viol => exact lt_of_lt_of_le (b := S.next) htask hS.next
    | fixDegreeViolation viol => exact lt_of_lt_of_le (b := S.next) htask hS.next
    | llx goal => exact Goal.Fits.commit hS hroot htask
    | loop goal => exact Goal.Fits.commit hS hroot htask
    | search goal k c =>
      have hc : c.Fits S w.tree w.node goal k := htask
      have hinfo := hS.info c.l hc.lt
      refine ⟨hc.fits.commit hS hroot, hc.seeks.commit hS hc.fits, hc.lt.trans_le hS.next, ?_,
        hc.p.commit hkeep, fun g ix hg => (hc.gp g ix hg).commit hkeep, hc.viol, ?_⟩
      · rw [hinfo]
        exact hc.within
      · rintro v hstop ⟨nd, hv⟩
        obtain ⟨hinside, rfl⟩ := Node.find?_some hv
        have hlt : nd.ptr < S.next := hc.fits.lt hstop
        obtain ⟨_, _, _, hrel⟩ := hinside.relaxed hrelaxed
        have hkey : k = nd.searchKey := by
          have hseek := (hc.seeks.commit hS hc.fits).searchKey hstop
          rw [hrel.label.info] at hseek
          exact hseek
        have hk : Within (S'.info nd.ptr).lo (S'.info nd.ptr).hi k := by
          rw [hkey]
          exact hrel.within_searchKey
        -- the node was in the tree before
        obtain ⟨nd₀, hnd₀, hptr⟩ := hgraft nd hinside (hlt.trans_eq hw.regular.next)
        obtain ⟨h₀, hrelaxed₀⟩ := hw.regular.root
        have hlead := hc.leads _ hstop ⟨nd₀, hptr ▸ hnd₀.find? hrelaxed₀⟩
        exact hlead.commit hw.memory hS hrelaxed hcurrent hfrozen hinside hk
          (fun x nd hx => hw.lt hx) hlt
  refine ⟨hregular, hmemory, hcurrent, fun u task htask => ?_⟩
  -- the thread that makes the step gets new tasks, the others keep theirs
  by_cases hu : u = t
  · subst hu
    simp only [World.commit, update_self] at htask
    rcases List.mem_append.mp htask with htask | htask
    · exact htasks task htask
    · exact hfits task (hw.tasks u task (hrest task htask))
  · simp only [World.commit, update_of_ne hu] at htask
    exact hfits task (hw.tasks u task htask)

/-! ### The steps -/

namespace World.Inv

variable (hw : w.Inv S)

include hw

/-- A search begins at the root. -/
theorem start (hgoal : goal.Fits S w.tree.root.ptr) (hk : w.key goal = some k) :
    Cursor.Fits S w.tree w.node goal k ⟨none, entry, w.tree.root.ptr, 0⟩ := by
  obtain ⟨h, hroot⟩ := hw.regular.root
  have hseeks : goal.Seeks S k := by
    cases goal with
    | insert key => exact (Option.some.inj hk).symm
    | erase key => exact (Option.some.inj hk).symm
    | weight viol =>
      obtain ⟨nd, hnd, hkey⟩ := Option.map_eq_some_iff.mp hk
      exact hkey.symm.trans (hw.searchKey_eq hnd).symm
    | degree viol =>
      obtain ⟨nd, hnd, hkey⟩ := Option.map_eq_some_iff.mp hk
      exact hkey.symm.trans (hw.searchKey_eq hnd).symm
  refine ⟨hgoal, hseeks, hroot.label.ptr_lt, ?_, .inl ⟨rfl, rfl⟩, by simp, fun _ => ?_, ?_⟩
  · obtain ⟨hlo, hhi⟩ := hroot.range
    rw [hlo, hhi]
    exact within_bot_top
  · -- the root has a weight of one
    cases goal with
    | insert => simp [Goal.stop]
    | erase => simp [Goal.stop]
    | weight viol =>
      intro hstop
      have hweight : (S.info w.tree.root.ptr).weight = true :=
        hroot.recorded.info.1.trans hw.regular.weight
      have hviol : viol = w.tree.root.ptr := Option.some.inj hstop
      rw [← hviol, hgoal.2] at hweight
      exact Bool.noConfusion hweight
    | degree viol => exact fun hstop => hgoal.2 (Option.some.inj hstop)
  · rintro v hstop ⟨nd, hv⟩
    obtain ⟨hinside, rfl⟩ := Node.find?_some hv
    obtain ⟨_, _, _, hrel⟩ := hinside.relaxed hroot
    refine hinside.leads hroot (fun d hd => hw.node_inside hd) ?_
    rw [hseeks.searchKey hstop, hrel.recorded.info.2.1]
    exact hrel.within_searchKey

/-- It goes on to a child. -/
theorem advance {ptr : ℕ} {searchKey : K} {weight : Bool} {keys : List K} {ptrs : List (Node K V)}
    {child : Node K V} (hc : c.Fits S w.tree w.node goal k)
    (hl : w.node c.l = some (.internal ptr searchKey weight keys ptrs))
    (hstop : goal.stop ≠ some c.l) (hchild : ptrs[getChildIndex k keys]? = some child) :
    Cursor.Fits S w.tree w.node goal k
      ⟨some (c.p, c.ixToL), c.l, child.ptr, getChildIndex k keys⟩ := by
  obtain ⟨hptr, hrec⟩ := hw.memory _ _ hl
  obtain ⟨h', hh, hsep⟩ := hrec.children _ _ _ _ _ rfl
  have hwithin := hc.within
  rw [← hptr] at hwithin
  obtain ⟨ksL, ksR, before, d, after, l, u, rfl, rfl, hole, hd, hk⟩ := hsep.search hwithin
  have hix : getChildIndex k (ksL ++ ksR) = before.length :=
    hole.findIdx_eq Labeled.exists_within hk
  have hlt : getChildIndex k (ksL ++ ksR) < (before ++ d :: after).length :=
    (List.getElem?_eq_some_iff.mp hchild).1
  obtain rfl : d = child := by
    rw [hix] at hchild
    simpa using hchild
  refine ⟨hc.fits, hc.seeks, hd.ptr_lt, ?_, .inr ⟨_, hl, rfl, hlt⟩, ?_, by simp, ?_⟩
  · rw [hd.info]
    exact hk
  · intro g ix hg
    obtain ⟨rfl, rfl⟩ := Prod.mk.inj (Option.some.inj hg)
    exact hc.p
  · intro v hv hin
    cases hc.leads v hv hin with
    | here => exact absurd hv hstop
    | step hx hget rest =>
      rw [hl] at hx
      obtain ⟨rfl, rfl, rfl, rfl, rfl⟩ := Node.internal.inj (Option.some.inj hx)
      rw [hchild] at hget
      obtain rfl := Option.some.inj hget
      exact rest

/-- The node at the end of a search, if it is in the tree as it has been found. -/
theorem at_inside {path : List (Frame K V)} {l : Node K V} (hat : w.At c path l) :
    Inside w.tree.root l ∧ (S.info c.l).weight = l.weight := by
  have hinside : Inside w.tree.root l := by
    rw [hat.root]
    exact inside_plug path l l .refl
  refine ⟨hinside, hw.weight_eq ?_⟩
  rw [← hat.l]
  exact hw.node_inside hinside

end World.Inv

omit [LinearOrder K] in
theorem leafStep_grafted {N : ℕ} (path : List (Frame K V)) {n₀ n' : Node K V}
    (hn : Grafted N n₀ n') (hroot : tree.root = plug path n₀) :
    Grafted N tree.root (plug path n') := by
  rw [hroot]
  exact hn.plug path

theorem insertStep_grafted {degree : ℕ} {path : List (Frame K V)} {searchKey key : K}
    {weight : Bool} {entries : List (K × V)} {value : V} {replace : Bool} {n₀ : Node K V}
    (hroot : tree.root = plug path n₀)
    (h : insertStep degree tree path searchKey weight entries key value replace =
      some (tree', task)) : Grafted tree.next tree.root tree'.root := by
  cases hpair : pairAt entries (getKeyIndex key (entries.map Prod.fst)) key with
  | some e =>
    simp only [insertStep, hpair] at h
    split_ifs at h
    obtain ⟨rfl, -⟩ := Prod.mk.inj (Option.some.inj h)
    exact leafStep_grafted path (.leaf le_rfl) hroot
  | none =>
    simp only [insertStep, hpair] at h
    split_ifs at h
    · obtain ⟨rfl, -⟩ := Prod.mk.inj (Option.some.inj h)
      exact leafStep_grafted path (.leaf le_rfl) hroot
    · simp only [Option.bind_eq_bind, Option.bind_eq_some_iff, Option.some.injEq,
        Prod.mk.injEq] at h
      obtain ⟨n', hover, rfl, -⟩ := h
      exact leafStep_grafted path (overflow_grafted le_rfl hover) hroot

theorem eraseStep_grafted {path : List (Frame K V)} {key : K} {entries : List (K × V)}
    {n₀ : Node K V} (hroot : tree.root = plug path n₀)
    (h : eraseStep tree path entries key = some (tree', task)) :
    Grafted tree.next tree.root tree'.root := by
  cases hpair : pairAt entries (getKeyIndex key (entries.map Prod.fst)) key with
  | none => simp [eraseStep, hpair] at h
  | some e =>
    simp only [eraseStep, hpair, Option.bind_eq_bind, Option.bind_eq_some_iff, Option.some.injEq,
      Prod.mk.injEq] at h
    obtain ⟨first, -, rfl, -⟩ := h
    exact leafStep_grafted path (.leaf le_rfl) hroot

/-- **Every step keeps the invariant.** The record gets the new nodes. -/
theorem World.Inv.step {act : Act K V} (hw : w.Inv S) (hok : S.least ≤ 1 ∨ ¬ act.Shrinks S.degree)
    (hstep : Step S.degree w t act w') : ∃ S', S.Extends S' ∧ w'.Inv S' ∧
      (w'.tree.root.ptr = w.tree.root.ptr ∨ w.tree.next ≤ w'.tree.root.ptr) := by
  have htasks := hw.tasks t
  cases hstep with
  | insert key value replace htodo =>
    refine ⟨S, .refl, hw.goto ?_, .inl rfl⟩
    -- the key is given, so the task relies on nothing
    simp [Task.Fits, Goal.Fits]
  | erase key htodo =>
    refine ⟨S, .refl, hw.goto ?_, .inl rfl⟩
    simp [Task.Fits, Goal.Fits]
  | @start goal k rest htodo hk =>
    rw [htodo, List.forall_mem_cons] at htasks
    -- the search begins at the entry
    exact ⟨S, .refl, hw.goto (List.forall_mem_cons.mpr ⟨hw.start htasks.1 hk, htasks.2⟩),
      .inl rfl⟩
  | advance htodo hl hstop hchild =>
    rw [htodo, List.forall_mem_cons] at htasks
    -- what leads to the node leads to its child
    exact ⟨S, .refl, hw.goto
      (List.forall_mem_cons.mpr ⟨hw.advance htasks.1 hl hstop hchild, htasks.2⟩), .inl rfl⟩
  | retry htodo hend =>
    rw [htodo, List.forall_mem_cons] at htasks
    exact ⟨S, .refl, hw.goto
      -- the task itself has not changed
      (List.forall_mem_cons.mpr ⟨Cursor.Fits.fits htasks.1, htasks.2⟩), .inl rfl⟩
  | found htodo hl hpair =>
    rw [htodo, List.forall_mem_cons] at htasks
    -- the task is done
    exact ⟨S, .refl, hw.goto htasks.2, .inl rfl⟩
  | missing htodo hl hpair =>
    rw [htodo, List.forall_mem_cons] at htasks
    exact ⟨S, .refl, hw.goto htasks.2, .inl rfl⟩
  | @insertScx key value replace k c rest path ptr searchKey weight entries tree task htodo hat
      hres =>
    rw [htodo, List.forall_mem_cons] at htasks
    have hc : c.Fits S w.tree w.node (.insert key value replace) k := htasks.1
    obtain rfl : k = key := hc.seeks
    have hptr : ptr = c.l := hat.l
    have hkey := hc.within
    rw [← hptr] at hkey
    -- otherwise the search would have returned the value
    have hnew : pairAt entries (getKeyIndex k (entries.map Prod.fst)) k = none ∨
        replace = true := by
      by_contra hcon
      rw [not_or] at hcon
      obtain ⟨e, he⟩ := Option.ne_none_iff_exists'.mp hcon.1
      simp [insertStep, he, hcon.2] at hres
    -- the leaf is replaced by one leaf, or by three nodes
    obtain ⟨s', task', S', hstep', hrenewal, x, hx, htask⟩ :=
      insertStep_regular value hw.regular hat.root hkey hnew
    rw [hstep'] at hres
    obtain ⟨rfl, rfl⟩ := Prod.mk.inj (Option.some.inj hres)
    refine ⟨S', hrenewal.record, hw.commit [task'] rest hrenewal
      (insertStep_grafted hat.root hstep') (fun task htask => ?_) ?_, hrenewal.root⟩
    · -- the new task is about a node that the step has made
      rw [htodo]
      exact List.mem_cons_of_mem _ htask
    · rw [List.forall_mem_singleton]
      rcases htask with rfl | rfl
      · exact hx
      · exact hx
  | @eraseScx key k c rest path ptr searchKey weight entries tree task htodo hat hres =>
    -- otherwise the search would have returned
    have hpair : pairAt entries (getKeyIndex key (entries.map Prod.fst)) key ≠ none := by
      intro hnone
      simp [eraseStep, hnone] at hres
    obtain ⟨s', task', S', hstep', hrenewal, x, hx, htask⟩ :=
      eraseStep_regular hw.regular hat.root hpair
    rw [hstep'] at hres
    obtain ⟨rfl, rfl⟩ := Prod.mk.inj (Option.some.inj hres)
    refine ⟨S', hrenewal.record, hw.commit [task'] rest hrenewal
      (eraseStep_grafted hat.root hstep') (fun task htask => ?_) ?_, hrenewal.root⟩
    · rw [htodo]
      exact List.mem_cons_of_mem _ htask
    · rw [List.forall_mem_singleton, htask]
      exact hx
  | fixWeightReturn htodo hv hweight =>
    rw [htodo, List.forall_mem_cons] at htasks
    -- the task is done: there is no violation
    exact ⟨S, .refl, hw.goto htasks.2, .inl rfl⟩
  | @fixWeight viol v rest htodo hv hweight =>
    rw [htodo, List.forall_mem_cons] at htasks
    -- the violation is still there, as the weight of a node does not change
    refine ⟨S, .refl, hw.goto (List.forall_mem_cons.mpr ⟨⟨hw.lt hv, ?_⟩, htasks.2⟩), .inl rfl⟩
    exact (hw.weight_eq hv).trans hweight
  | fixDegreeReturn htodo hv hsize =>
    rw [htodo, List.forall_mem_cons] at htasks
    exact ⟨S, .refl, hw.goto htasks.2, .inl rfl⟩
  | @fixDegree viol v rest htodo hv hsize =>
    rw [htodo, List.forall_mem_cons] at htasks
    -- the node is not the root, as it was checked
    refine ⟨S, .refl, hw.goto (List.forall_mem_cons.mpr ⟨⟨hw.lt hv, fun heq => ?_⟩, htasks.2⟩),
      .inl rfl⟩
    exact hsize (.inr (.inr heq))
  | llxFinalized htodo hstop hfin =>
    -- the task is done: another thread has removed the node
    rw [htodo, List.forall_mem_cons] at htasks
    exact ⟨S, .refl, hw.goto htasks.2, .inl rfl⟩
  | llx htodo hstop hfin =>
    rw [htodo, List.forall_mem_cons] at htasks
    -- the search is to begin
    exact ⟨S, .refl, hw.goto (List.forall_mem_cons.mpr ⟨htasks.1, htasks.2⟩), .inl rfl⟩
  | handOver htodo hstop hend hne =>
    -- the task is done: the search has come to another node
    rw [htodo, List.forall_mem_cons] at htasks
    exact ⟨S, .refl, hw.goto htasks.2, .inl rfl⟩
  | @weightParent k c rest p htodo hp hweight =>
    rw [htodo, List.forall_mem_cons] at htasks
    -- the parent has a weight of zero and comes first
    refine ⟨S, .refl, hw.goto (List.forall_mem_cons.mpr
      ⟨hw.lt hp, List.forall_mem_cons.mpr ⟨Cursor.Fits.fits htasks.1, htasks.2⟩⟩), .inl rfl⟩
  | @weightScx k c rest p path l tree n zero htodo hat hgp hweight hres =>
    rw [htodo, List.forall_mem_cons] at htasks
    have hc : c.Fits S w.tree w.node (.weight c.l) k := htasks.1
    have hl : l.weight = false := (hw.at_inside hat).2.symm.trans hc.fits.2
    obtain ⟨s', n', zero', S', hstep', hrenewal, hx⟩ :=
      weightStep_regular hw.regular hat.root hweight hl
    rw [hstep'] at hres
    obtain ⟨rfl, hrest⟩ := Prod.mk.inj (Option.some.inj hres)
    obtain ⟨rfl, rfl⟩ := Prod.mk.inj hrest
    have hgraft := weightStep_grafted hstep'
    rw [← hat.root] at hgraft
    -- the new tasks are about the node that is returned
    have hinv : (w.commit t s' (((if zero' then [.fixWeightViolation n'.ptr] else []) ++
        [.fixDegreeViolation n'.ptr]) ++ rest)).Inv S' := by
      refine hw.commit _ rest hrenewal hgraft (fun task htask => ?_) ?_
      · rw [htodo]
        exact List.mem_cons_of_mem _ htask
      · intro task htask
        rcases List.mem_append.mp htask with htask | htask
        · split_ifs at htask
          · rw [List.mem_singleton.mp htask]
            exact hx
          · simp at htask
        · rw [List.mem_singleton.mp htask]
          exact hx
    rw [List.append_assoc, List.singleton_append] at hinv
    exact ⟨S', hrenewal.record, hinv, hrenewal.root⟩
  | @degreeWeights k c rest ptr searchKey weight keys ptrs l sibling htodo hp hl hs hweight =>
    rw [htodo, List.forall_mem_cons] at htasks
    have hc : c.Fits S w.tree w.node (.degree c.l) k := htasks.1
    obtain ⟨hptr, hrec⟩ := hw.memory _ _ hp
    obtain ⟨hptrl, hrecl⟩ := hw.memory _ _ hl
    obtain ⟨h', hh, hsep⟩ := hrec.children _ _ _ _ _ rfl
    -- the nodes that come first are recorded ones
    refine ⟨S, .refl, hw.goto fun task htask => ?_, .inl rfl⟩
    rcases List.mem_append.mp htask with htask | htask
    · unfold weightCalls at htask
      obtain ⟨d, hd, rfl⟩ := List.mem_map.mp htask
      have hmem := List.mem_of_mem_filter hd
      simp only [List.mem_cons, List.not_mem_nil, or_false] at hmem
      rcases hmem with rfl | rfl | rfl
      · exact hrec.label.ptr_lt
      · exact hrecl.label.ptr_lt
      · obtain ⟨_, _, hsib⟩ := hsep.forall_mem (List.mem_of_getElem? hs)
        exact hsib.ptr_lt
    · rcases List.mem_cons.mp htask with rfl | htask
      · exact hc.fits
      · exact htasks.2 task htask
  | degreeMissing htodo hp hs =>
    -- a fault leaves the tree, the memory and the threads as they are
    exact ⟨S, .refl, ⟨hw.regular, hw.memory, hw.current, hw.tasks⟩, .inl rfl⟩
  | @degreeScx k c rest p path l sibling tree new htodo hat hgp hs hweight hres =>
    obtain ⟨s', new', S', hstep', hrenewal, hx⟩ :=
      -- the step is the one of the model, which the size of the parent allows
      degreeStep_regular hw.regular hat.root hs hweight fun hne htwo hsmall =>
        hok.resolve_right fun hshrinks => hshrinks ⟨hne, htwo, hsmall⟩
    rw [hstep'] at hres
    obtain ⟨rfl, rfl⟩ := Prod.mk.inj (Option.some.inj hres)
    have hgraft := degreeStep_grafted hs hstep'
    rw [← hat.root] at hgraft
    refine ⟨S', hrenewal.record,
      hw.commit _ rest hrenewal hgraft (fun task htask => ?_) ?_, hrenewal.root⟩
    · rw [htodo]
      exact List.mem_cons_of_mem _ htask
    · -- the new tasks are about the new nodes
      intro task htask
      obtain ⟨d, hd, rfl⟩ := List.mem_map.mp htask
      exact hx d hd

/-! ### The runs -/

theorem inv_init {degree least : ℕ} (hdegree : 3 ≤ degree) (hleast : least ≤ 2) (anyKey : K) :
    ∃ S : Scheme K, S.degree = degree ∧ S.least = least ∧
      (World.init anyKey : World m K V).Inv S := by
  let n : Node K V := .leaf 0 anyKey true []
  let S : Scheme K :=
    { degree := degree
      least := least
      next := 2
      info := fun _ => n.info 0 ⊥ ⊤
      three_le := hdegree
      least_le := hleast
      entry_lt := Nat.one_lt_two }
  have hreg : Registered S 0 ⊥ ⊤ n := ⟨Nat.two_pos, Nat.zero_ne_one, rfl⟩
  have hn : Relaxed S 0 ⊥ ⊤ n := relaxed_newLeaf hreg within_bot_top .nil (Nat.zero_le _)
  refine ⟨S, rfl, rfl, ⟨rfl, ⟨0, hn⟩, rfl⟩, fun x nd hx => ?_, fun x nd hx => hx, fun t => ?_⟩
  · obtain ⟨hinside, hptr⟩ := Node.find?_some hx
    obtain ⟨_, _, _, hrel⟩ := hinside.relaxed hn
    exact ⟨hptr, hrel.recorded⟩
  · simp [World.init]

variable {degree : ℕ} {ok : World m K V → Fin m × Act K V → Prop}

/-- The invariant holds in every run, with the bound on the sizes that the steps of the run keep. -/
theorem exists_inv (least : ℕ) (hdegree : 3 ≤ degree) (hleast : least ≤ 2)
    (hok : ∀ w a, ok w a → least ≤ 1 ∨ ¬ a.2.Shrinks degree)
    (hw : (system m K V degree).ReachableBy ok w) :
    ∃ S : Scheme K, S.degree = degree ∧ S.least = least ∧ w.Inv S := by
  induction hw with
  | init hinit =>
    obtain ⟨anyKey, rfl⟩ := hinit
    exact inv_init hdegree hleast anyKey
  | @step w w' a _ hstep ha ih =>
    obtain ⟨S, rfl, rfl, hinv⟩ := ih
    obtain ⟨S', hS, hinv', -⟩ := hinv.step (hok w a ha) hstep.2
    exact ⟨S', hS.degree, hS.least, hinv'⟩

theorem exists_inv_of_reachable (hdegree : 3 ≤ degree) (hw : (system m K V degree).Reachable w) :
    ∃ S : Scheme K, S.degree = degree ∧ w.Inv S := by
  obtain ⟨S, hS, -, hinv⟩ :=
    exists_inv 1 hdegree Nat.one_lt_two.le (fun _ _ _ => .inl le_rfl) hw
  exact ⟨S, hS, hinv⟩

end

/-! ### The root and the repairs -/

section

variable [LinearOrder K] {degree : ℕ} {w w' : World m K V}

/-- What is not the root does not become the root. -/
theorem root_ne_of_path {S : Scheme K} {v : ℕ} {as : List (Fin m × Act K V)} (hw : w.Inv S)
    (hleast : S.least ≤ 1) (hv : v < S.next) (hne : v ≠ w.tree.root.ptr)
    (hpath : (system m K V S.degree).Path w as w') : v ≠ w'.tree.root.ptr := by
  generalize hd : S.degree = degree at hpath
  induction hpath generalizing S with
  | nil => exact hne
  | cons hstep _ ih =>
    subst hd
    obtain ⟨S', hS, hinv, hroot⟩ := hw.step (.inl hleast) hstep.2
    refine ih hinv (hS.least.trans_le hleast) (hv.trans_le hS.next) ?_ hS.degree
    rcases hroot with hroot | hroot
    · rwa [hroot]
    · rw [← hw.regular.next] at hroot
      exact (hv.trans_le hroot).ne

/-- **The grandparent of a repair.** In every run the root has a weight of one, a node that is not
the root does not become the root, and a search that has found the node of a repair has passed two
nodes before. -/
theorem abTree_grandparent (hdegree : 3 ≤ degree) (hw : (system m K V degree).Reachable w) :
    w.tree.root.weight = true ∧
    (∀ v nd, w.node v = some nd → v ≠ w.tree.root.ptr →
      ∀ as w', (system m K V degree).Path w as w' → v ≠ w'.tree.root.ptr) ∧
    ∀ t goal k c rest, w.todo t = .search goal k c :: rest → goal.stop = some c.l →
      ∃ g ix, c.gp = some (g, ix) ∧ Slot w.node g ix := by
  obtain ⟨S, rfl, hleast, hinv⟩ :=
    exists_inv 1 hdegree Nat.one_lt_two.le (fun _ _ _ => .inl le_rfl) hw
  refine ⟨hinv.regular.weight, fun v nd hv hne as w' hpath => ?_,
    fun t goal k c rest htodo hl => ?_⟩
  · exact root_ne_of_path hinv hleast.le (hinv.lt hv) hne hpath
  · have hc : c.Fits S w.tree w.node goal k := by
      have htask := hinv.tasks t (.search goal k c)
      rw [htodo] at htask
      exact htask List.mem_cons_self
    cases hgp : c.gp with
    | none => exact absurd hl (hc.viol hgp)
    | some g => exact ⟨g.1, g.2, rfl, hc.gp g.1 g.2 hgp⟩

/-- When the search of a repair has come to its node, and behind the repair. -/
theorem abTree_grandparent_repairing : ∃ w w' : World 2 ℕ ℕ, ∃ act k c rest,
    (system 2 ℕ ℕ 4).step w act w' ∧ act.2.Shrinks 4 ∧
    w.todo 1 = .search (.degree c.l) k c :: rest ∧ w.tree.root.weight = true ∧
    c.l ≠ w'.tree.root.ptr ∧ ∃ g ix, c.gp = some (g, ix) ∧ Slot w.node g ix := by
  obtain ⟨w, hrun, ⟨k, c, rest, p, path, l, htodo, -, hnode, -, hroot, -⟩, act, w', hstep, hact⟩ :=
    exists_repairing
  obtain ⟨hweight, hnever, hgp⟩ := abTree_grandparent (show 3 ≤ 4 by decide) hrun.reachable
  obtain ⟨nd, hnd⟩ := Option.isSome_iff_exists.mp hnode
  exact ⟨w, w', act, k, c, rest, hstep, hact, htodo, hweight,
    hnever c.l nd hnd hroot [act] w' (.cons hstep .nil), hgp 1 (.degree c.l) k c rest htodo rfl⟩

/-! ### Search keys -/

section

variable {S : Scheme K} {h : ℕ} {lo : WithBot K} {hi : WithTop K} {n : Node K V}
  {path : List (Frame K V)}

/-- The range at the end of a path is read off the separators. -/
theorem Spine.range (hspine : Spine S h lo hi path) : lo = low path ∧ hi = high path := by
  induction hspine with
  | root => exact ⟨rfl, rfl⟩
  | @frame h lo hi l u p path hp rest ih =>
    obtain ⟨ksL, ksR, hkeys, hole⟩ := hp.hole
    obtain ⟨rfl, rfl⟩ := ih
    constructor
    · rw [hole.left_eq, ← hkeys]
      rfl
    · rw [hole.right_eq, ← hkeys]
      rfl

/-- The nodes of a path have other addresses than the node at its end. -/
theorem part_lt_of_mem (hroot : Relaxed S h ⊥ ⊤ (plug path n)) :
    ∀ p ∈ path, (S.info n.ptr).part < (S.info p.ptr).part := by
  induction path generalizing n with
  | nil => simp
  | cons p path ih =>
    have hnode : Relaxed S h ⊥ ⊤ (plug path (p.node n)) := hroot
    obtain ⟨_, _, _, -, hp⟩ := hnode.unplug
    have hlt : (S.info n.ptr).part < (S.info p.ptr).part := by
      refine Relaxed.child_part_lt hp ?_
      unfold Frame.ptrs
      simp
    intro q hq
    rcases List.mem_cons.mp hq with rfl | hq
    · exact hlt
    · exact hlt.trans (ih hnode q hq)

theorem Relaxed.search_settles (hroot : Relaxed S h ⊥ ⊤ (plug path n)) :
    Settles (fun fuel => search fuel [] (plug path n) n.searchKey (some n.ptr)) (path, n) := by
  obtain ⟨h', lo, hi, hspine, hn⟩ := hroot.unplug
  have hstop : ∀ p ∈ path, some n.ptr ≠ some p.ptr := by
    intro p hp heq
    have hlt := part_lt_of_mem hroot p hp
    rw [Option.some.inj heq] at hlt
    exact lt_irrefl _ hlt
  refine Filter.eventually_atTop.mpr ⟨path.length + 1, fun fuel hfuel => ?_⟩
  obtain ⟨k, rfl⟩ := Nat.exists_eq_add_of_le' hfuel
  have hplug := hspine.search (n := n) hn.label.searchKey hstop (k + 1)
  rw [Nat.add_right_comm] at hplug
  refine hplug.trans ?_
  cases n with
  | leaf => rfl
  | internal => simp [AbTree.search, Node.ptr]

end

/-- **Search keys.** In every tree that is reached the search key of a node is in the range that its
path leaves it, and the search for it comes to the node. A search of a repair, under any
interleaving, does not end elsewhere as long as the node is in the tree. -/
theorem abTree_searchKeys (hdegree : 3 ≤ degree) (hw : (system m K V degree).Reachable w) :
    (∀ path n, w.tree.root = plug path n →
      Within (low path) (high path) n.searchKey ∧
      Settles (fun fuel => search fuel [] w.tree.root n.searchKey (some n.ptr)) (path, n)) ∧
    ∀ t goal k c rest v nd, w.todo t = .search goal k c :: rest → goal.stop = some v →
      w.tree.root.find? v = some nd → k = nd.searchKey ∧ (w.Ended goal c → c.l = v) := by
  obtain ⟨S, rfl, hinv⟩ := exists_inv_of_reachable hdegree hw
  obtain ⟨h, hroot⟩ := hinv.regular.root
  refine ⟨fun path n hplug => ?_, ?_⟩
  · rw [hplug] at hroot ⊢
    obtain ⟨h', lo, hi, hspine, hn⟩ := hroot.unplug
    obtain ⟨rfl, rfl⟩ := hspine.range
    exact ⟨hn.label.searchKey, hroot.search_settles⟩
  · intro t goal k c rest v nd htodo hstop hfind
    have hc : c.Fits S w.tree w.node goal k := by
      have htask := hinv.tasks t (.search goal k c)
      rw [htodo] at htask
      exact htask List.mem_cons_self
    refine ⟨(hc.seeks.searchKey hstop).trans (hinv.searchKey_eq (hinv.current v nd hfind)), ?_⟩
    rintro (hend | ⟨l, hl, hleaf⟩)
    · exact Option.some.inj (hend.symm.trans hstop)
    · cases hc.leads v hstop ⟨nd, hfind⟩ with
      | here => rfl
      | step hx hget rest =>
        -- a leaf leads to nothing else
        rw [hl] at hx
        rw [Option.some.inj hx] at hleaf
        exact Bool.noConfusion hleaf

/-- The node of a repair, below the root, when the search for it is over. -/
theorem abTree_searchKeys_repairing : ∃ w : World 2 ℕ ℕ, ∃ k c rest p path l nd,
    w.todo 1 = .search (.degree c.l) k c :: rest ∧ w.tree.root = plug (p :: path) l ∧
    Within (low (p :: path)) (high (p :: path)) l.searchKey ∧
    (∃ fuel, search fuel [] w.tree.root l.searchKey (some l.ptr) = some (p :: path, l)) ∧
    w.tree.root.find? c.l = some nd ∧ k = nd.searchKey := by
  obtain ⟨w, hrun, ⟨k, c, rest, p, path, l, htodo, hat, -, hfind, -⟩, -⟩ := exists_repairing
  obtain ⟨hkeys, hsearch⟩ := abTree_searchKeys (show 3 ≤ 4 by decide) hrun.reachable
  obtain ⟨hwithin, hsettles⟩ := hkeys (p :: path) l hat.root
  obtain ⟨nd, hnd⟩ := Option.isSome_iff_exists.mp hfind
  exact ⟨w, k, c, rest, p, path, l, nd, htodo, hat.root, hwithin, hsettles.exists, hnd,
    (hsearch 1 (.degree c.l) k c rest c.l nd htodo rfl hnd).1⟩

/-- **No key is read that is not there.** In every tree that is reached the new nodes of a step can
be made, if a repair of a size has a sibling. -/
theorem abTree_defined (hdegree : 3 ≤ degree) (hw : (system m K V degree).Reachable w) :
    (∀ p path l, w.tree.root = plug (p :: path) l → p.weight = true → l.weight = false →
      weightStep degree w.tree p path l ≠ none) ∧
    (∀ p path l sibling, w.tree.root = plug (p :: path) l → (p.ptrs l)[p.ixToS]? = some sibling →
      p.weight = true ∧ l.weight = true ∧ sibling.weight = true →
      degreeStep degree w.tree p path l sibling ≠ none) ∧
    ∀ path ptr searchKey weight entries key, w.tree.root =
        plug path (.leaf ptr searchKey weight entries) → Within (low path) (high path) key →
      (∀ value replace,
        pairAt entries (getKeyIndex key (entries.map Prod.fst)) key = none ∨ replace = true →
        insertStep degree w.tree path searchKey weight entries key value replace ≠ none) ∧
      (pairAt entries (getKeyIndex key (entries.map Prod.fst)) key ≠ none →
        eraseStep w.tree path entries key ≠ none) := by
  obtain ⟨S, rfl, hleast, hinv⟩ :=
    exists_inv 1 hdegree Nat.one_lt_two.le (fun _ _ _ => .inl le_rfl) hw
  refine ⟨fun p path l hroot hp hl => ?_, fun p path l sibling hroot hs hweight => ?_,
    fun path ptr searchKey weight entries key hroot hkey => ⟨fun value replace hnew => ?_,
      fun hpair => ?_⟩⟩
  · obtain ⟨_, _, _, _, hstep, -⟩ := weightStep_regular hinv.regular hroot hp hl
    rw [hstep]
    exact Option.some_ne_none _
  · obtain ⟨_, _, _, hstep, -⟩ :=
      degreeStep_regular hinv.regular hroot hs hweight fun _ _ _ => hleast.le
    rw [hstep]
    exact Option.some_ne_none _
  · obtain ⟨h, hrelaxed⟩ := hinv.regular.root
    rw [hroot] at hrelaxed
    obtain ⟨_, _, _, hspine, hleaf⟩ := hrelaxed.unplug
    obtain ⟨rfl, rfl⟩ := hspine.range
    obtain ⟨hlo, hhi⟩ := hleaf.range
    rw [← hlo, ← hhi] at hkey
    obtain ⟨_, _, _, hstep, -⟩ := insertStep_regular value hinv.regular hroot hkey hnew
    rw [hstep]
    exact Option.some_ne_none _
  · obtain ⟨_, _, _, hstep, -⟩ := eraseStep_regular hinv.regular hroot hpair
    rw [hstep]
    exact Option.some_ne_none _

/-! ### Pairs and depths -/

/-- The number of the nodes of a path that have a weight of one. -/
def depth : List (Frame K V) → ℕ
  | [] => 0
  | p :: path => p.weight.toNat + depth path

/-- What a step does to the pairs of the tree. -/
def Act.Keeps (before after : List (K × V)) : Act K V → Prop
  | .insert key value => Inserted key value before after
  | .erase key => Erased key before after
  | .silent | .weight .. | .degree .. | .fault => after = before

section

variable {S : Scheme K} {h d : ℕ} {lo : WithBot K} {hi : WithTop K} {n : Node K V}
  {path : List (Frame K V)}

theorem Below.ordered (hn : Below S d h lo hi n) : Ordered d lo hi n := by
  induction d generalizing h lo hi n with
  | zero =>
    cases n with
    | leaf =>
      unfold Below at hn
      exact ordered_leaf.mpr hn.2
    | internal => exact hn.elim
  | succ d ih =>
    cases n with
    | leaf =>
      unfold Below at hn
      exact ordered_leaf.mpr hn.2
    | internal =>
      obtain ⟨h', -, hsep⟩ := hn
      exact hsep.imp fun l u c hc => ⟨⟨c.searchKey, hc.1.searchKey⟩, ih hc.2⟩

theorem Relaxed.sorted (hn : Relaxed S h lo hi n) : (n.pairs.map Prod.fst).Pairwise (· < ·) := by
  obtain ⟨d, hd⟩ := hn.below
  exact hd.ordered.pairs.sorted

/-- The height of the tree is the one at the end of a path and the weights on the path. -/
theorem Relaxed.height_eq (hroot : Relaxed S h ⊥ ⊤ (plug path n)) :
    ∃ h' lo hi, Relaxed S h' lo hi n ∧ h = h' + depth path := by
  induction path generalizing n with
  | nil => exact ⟨h, ⊥, ⊤, hroot, rfl⟩
  | cons p path ih =>
    obtain ⟨h', lo, hi, hp, hh⟩ := ih (n := p.node n) hroot
    obtain ⟨-, h₁, rfl, hsep⟩ := relaxed_internal.mp hp
    obtain ⟨ksL, ksR, l, u, -, -, hn⟩ := hsep.hole
    refine ⟨h₁, l, u, hn, ?_⟩
    unfold depth
    omega

end

section

variable {S : Scheme K} {h : ℕ} {path : List (Frame K V)} {searchKey key : K} {weight : Bool}
  {entries : List (K × V)} {value : V} {replace : Bool} {ptr : ℕ} {tree tree' : State K V}
  {task : Task K V}

theorem insertStep_pairs (hroot : tree.root = plug path (.leaf ptr searchKey weight entries))
    (hsize : entries.length ≤ degree)
    (hold : (tree.root.pairs.map Prod.fst).Pairwise (· < ·))
    (hnew : (tree'.root.pairs.map Prod.fst).Pairwise (· < ·))
    (h : insertStep degree tree path searchKey weight entries key value replace =
      some (tree', task)) : Inserted key value tree.root.pairs tree'.root.pairs := by
  rw [hroot] at hold ⊢
  cases hpair : pairAt entries (getKeyIndex key (entries.map Prod.fst)) key with
  | some e =>
    obtain ⟨k, oldValue⟩ := e
    obtain rfl : k = key := pairAt_key hpair
    simp only [insertStep, hpair] at h
    split_ifs at h
    obtain ⟨rfl, -⟩ := Prod.mk.inj (Option.some.inj h)
    exact inserted_set (pairAt_eq_some hpair) (pairs_leaf ..) (pairs_leaf ..) hold
  | none =>
    have hidx := getKeyIndex_le key entries
    have hlen := List.length_insertIdx_of_le_length hidx (key, value)
    simp only [insertStep, hpair] at h
    split_ifs at h
    · obtain ⟨rfl, -⟩ := Prod.mk.inj (Option.some.inj h)
      exact inserted_insertIdx hidx (pairs_leaf ..) (pairs_leaf ..) hnew
    · simp only [Option.bind_eq_bind, Option.bind_eq_some_iff, Option.some.injEq,
        Prod.mk.injEq] at h
      obtain ⟨n', hover, rfl, -⟩ := h
      exact inserted_insertIdx hidx (pairs_leaf ..) (overflow_pairs (by omega) hover) hnew

theorem eraseStep_pairs (hroot : tree.root = plug path (.leaf ptr searchKey weight entries))
    (hold : (tree.root.pairs.map Prod.fst).Pairwise (· < ·))
    (h : eraseStep tree path entries key = some (tree', task)) :
    Erased key tree.root.pairs tree'.root.pairs := by
  rw [hroot] at hold ⊢
  cases hpair : pairAt entries (getKeyIndex key (entries.map Prod.fst)) key with
  | none => simp [eraseStep, hpair] at h
  | some e =>
    obtain ⟨k, oldValue⟩ := e
    obtain rfl : k = key := pairAt_key hpair
    simp only [eraseStep, hpair, Option.bind_eq_bind, Option.bind_eq_some_iff, Option.some.injEq,
      Prod.mk.injEq] at h
    obtain ⟨first, -, rfl, -⟩ := h
    exact erased_eraseIdx (pairAt_eq_some hpair) (pairs_leaf ..) (pairs_leaf ..) hold

/-- **What a step does to the pairs.** -/
theorem World.Inv.keeps {S' : Scheme K} {t : Fin m} {act : Act K V} (hw : w.Inv S)
    (hw' : w'.Inv S') (hstep : Step S.degree w t act w') :
    act.Keeps w.tree.root.pairs w'.tree.root.pairs := by
  obtain ⟨h, hroot⟩ := hw.regular.root
  obtain ⟨h', hroot'⟩ := hw'.regular.root
  cases hstep with
  | @insertScx key value replace k c rest path ptr searchKey weight entries tree task htodo hat
      hres =>
    have hleaf := hroot
    rw [hat.root] at hleaf
    obtain ⟨_, _, _, -, hleaf⟩ := hleaf.unplug
    exact insertStep_pairs hat.root hleaf.label.size_le hroot.sorted hroot'.sorted hres
  | eraseScx htodo hat hres => exact eraseStep_pairs hat.root hroot.sorted hres
  | weightScx htodo hat hgp hweight hres =>
    have hpairs := weightStep_pairs hres
    rw [← hat.root] at hpairs
    exact hpairs
  | degreeScx htodo hat hgp hs hweight hres =>
    have hpairs := degreeStep_pairs hs hres
    rw [← hat.root] at hpairs
    exact hpairs
  | _ => exact rfl

end

/-- **The steps.** Every tree that is reached is a search tree whose leaves have the same weighted
depth. The repairs leave the pairs as they are, and an insertion or a removal changes the pair of
its key. -/
theorem abTree_steps (hdegree : 3 ≤ degree) (hw : (system m K V degree).Reachable w) :
    SearchTree w.tree.root ∧
    (∃ h, ∀ path l, w.tree.root = plug path l → l.isLeaf = true → depth path = h) ∧
    ∀ t act w', Step degree w t act w' → act.Keeps w.tree.root.pairs w'.tree.root.pairs := by
  obtain ⟨S, rfl, hleast, hinv⟩ :=
    exists_inv 1 hdegree Nat.one_lt_two.le (fun _ _ _ => .inl le_rfl) hw
  obtain ⟨h, hroot⟩ := hinv.regular.root
  refine ⟨?_, ⟨h, fun path l hplug hleaf => ?_⟩, fun t act w' hstep => ?_⟩
  · obtain ⟨d, hd⟩ := hroot.below
    exact hd.ordered.searchTree
  · rw [hplug] at hroot
    obtain ⟨h', lo, hi, hl, rfl⟩ := hroot.height_eq
    cases l with
    | internal => exact Bool.noConfusion hleaf
    | leaf =>
      -- a leaf has the height zero
      obtain ⟨-, rfl, -⟩ := relaxed_leaf.mp hl
      exact (Nat.zero_add _).symm
  · obtain ⟨S', -, hinv', -⟩ := hinv.step (.inl hleast.le) hstep
    exact hinv.keeps hinv' hstep

/-- A repair by AbsorbSibling, in a tree of height two. -/
theorem abTree_steps_repairing : ∃ w w' : World 2 ℕ ℕ, ∃ act, (system 2 ℕ ℕ 4).step w act w' ∧
    act.2.Shrinks 4 ∧ SearchTree w.tree.root ∧
    (∃ h, ∀ path l, w.tree.root = plug path l → l.isLeaf = true → depth path = h) ∧
    w'.tree.root.pairs = w.tree.root.pairs := by
  obtain ⟨w, hrun, -, ⟨t, act⟩, w', hstep, hact⟩ := exists_repairing
  obtain ⟨htree, hdepth, hkeeps⟩ := abTree_steps (show 3 ≤ 4 by decide) hrun.reachable
  refine ⟨w, w', (t, act), hstep, hact, htree, hdepth, ?_⟩
  have hpairs := hkeeps t act w' hstep.2
  cases act with
  | degree p path l sibling => exact hpairs
  | _ => exact hact.elim

end

end AbTree
end PopSetbench

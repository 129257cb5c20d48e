import PopSetbench.Common.TreeStats
import PopSetbench.Ds.AbTreeLinear
import PopSetbench.Ds.AbTreeQuiet
import PopSetbench.Library.Totals

/-!
# The relaxed (a,b)-tree: the validation of the benchmark

At the end of a run the benchmark compares what the threads have counted with what the statistics of
the tree say (main.cpp). Each thread has added up the keys that it has inserted less those that it
has erased, and how many they are (`Event.tally`). `abTreeSet_validates`: when no operation is in
progress the two agree.

While there are operations in progress they differ by what has been done and not counted yet
(`Pc.pending`). The statistics have to get into their arrays, which they do because all repairs have
been done then.
-/

namespace PopSetbench

open Function

/-- What a thread adds to a sum when an operation returns, `thread_timed`: with `f key = key` to
`key_checksum`, and with `f key = 1` to `size_checksum`. -/
def Event.tally {α K V M : Type} [AddGroup M] (f : K → M) : Event α K V → M
  | .ret (.insert key _) (.value none) => f key
  | .ret (.erase key) (.value (some _)) => -f key
  | _ => 0

namespace AbTreeSet

open AbTree (World Act Goal Cursor Task Frame Node Scheme Rest AtRest Reaches Tended minDegree
  pairsOf minAt)
open TreeStats (level levels Parallel MAX_HEIGHT)

variable {m : ℕ} {K V : Type}

/-! ### The statistics -/

section

variable {A M : Type} [AddCommMonoid A] [AddCommMonoid M]

/-- The sum over the keys of pairs. -/
def keySum (f : K → M) (pairs : List (K × V)) : M := (pairs.map fun e => f e.1).sum

/-- The `NodeHandler` of the adapter. `toSize` is the conversion of a key to `size_t`. -/
def nodeHandler (toSize : K → A) : NodeHandler (Node K V) A where
  isLeaf node := node.isLeaf
  getChildIterator
    | .leaf .. => []
    | .internal _ _ _ _ ptrs => ptrs
  getNumKeys node := if node.isLeaf then node.getABDegree else 0
  getSumOfKeys
    | .leaf _ _ _ entries => (entries.map fun e => toSize e.1).sum
    | .internal .. => 0

/-- `debug_getEntryPoint`. -/
def getEntryPoint (anyKey : K) (root : Node K V) : Node K V :=
  .internal AbTree.entry anyKey true [] [root]

/-- The sum over the keys of a leaf. -/
def leafSum (f : K → M) : Node K V → M
  | .leaf _ _ _ entries => keySum f entries
  | .internal .. => 0

variable {toSize : K → A} {f : K → M} {n root : Node K V} {ns : List (Node K V)} {d k : ℕ}
  {anyKey : K}

theorem keySum_append {pairs pairs' : List (K × V)} :
    keySum f (pairs ++ pairs') = keySum f pairs + keySum f pairs' := by
  unfold keySum
  rw [List.map_append, List.sum_append]

theorem keySum_one {pairs : List (K × V)} : keySum (fun _ => 1) pairs = pairs.length := by
  simp [keySum]

theorem getNumKeys_eq : (nodeHandler (V := V) toSize).getNumKeys = leafSum fun _ => 1 := by
  ext n
  cases n with
  | leaf ptr searchKey weight entries =>
    show entries.length = (entries.map fun _ => 1).sum
    simp
  | internal => rfl

theorem getSumOfKeys_eq : (nodeHandler (V := V) toSize).getSumOfKeys = leafSum toSize := by
  ext n
  cases n <;> rfl

theorem children_eq : TreeStats.children (nodeHandler toSize) n =
    (nodeHandler toSize).getChildIterator n := by
  cases n <;> rfl

theorem pairsOf_append {ns ns' : List (Node K V)} :
    pairsOf (ns ++ ns') = pairsOf ns ++ pairsOf ns' := by
  induction ns with
  | nil => rfl
  | cons n ns ih => rw [List.cons_append, AbTree.pairsOf_cons, AbTree.pairsOf_cons, ih,
      List.append_assoc]

variable (toSize) in
/-- The keys of a node, and those below it. -/
theorem keySum_pairs : keySum f n.pairs =
    leafSum f n + keySum f (pairsOf (TreeStats.children (nodeHandler toSize) n)) := by
  rw [children_eq]
  cases n with
  | leaf ptr searchKey weight entries =>
    rw [AbTree.pairs_leaf]
    exact (add_zero _).symm
  | internal ptr searchKey weight keys ptrs =>
    rw [AbTree.pairs_internal]
    exact (zero_add _).symm

variable (toSize) in
/-- The keys of a level, and those below it. -/
theorem keySum_level : keySum f (pairsOf ns) = (ns.map (leafSum f)).sum +
    keySum f (pairsOf (ns.flatMap (TreeStats.children (nodeHandler toSize)))) := by
  induction ns with
  | nil => exact (add_zero _).symm
  | cons n ns ih =>
    rw [AbTree.pairsOf_cons, keySum_append, keySum_pairs toSize, ih, List.map_cons,
      List.sum_cons, List.flatMap_cons, pairsOf_append, keySum_append]
    exact add_add_add_comm _ _ _ _

/-- All levels together have the keys of the tree. -/
theorem sum_levels (h : level (nodeHandler toSize) k ns = []) :
    ∑ i ∈ Finset.range k, ((level (nodeHandler toSize) i ns).map (leafSum f)).sum =
      keySum f (pairsOf ns) := by
  induction k generalizing ns with
  | zero =>
    rw [TreeStats.level_zero] at h
    rw [h]
    rfl
  | succ k ih =>
    rw [Finset.sum_range_succ', keySum_level toSize, add_comm, TreeStats.level_zero]
    congr 1
    exact ih h

/-- The nodes of a level. -/
theorem reaches_of_mem_level (h : n ∈ level (nodeHandler toSize) d [root]) : Reaches root d n := by
  induction d generalizing n with
  | zero =>
    obtain rfl := List.mem_singleton.mp h
    exact .root
  | succ d ih =>
    rw [TreeStats.level_succ'] at h
    obtain ⟨p, hp, hn⟩ := List.mem_flatMap.mp h
    rw [children_eq] at hn
    cases p with
    | leaf => cases hn
    | internal ptr searchKey weight keys ptrs => exact .child (ih hp) hn

variable (toSize) in
/-- A tree without a violation: its last level is not far down. -/
theorem exists_height [LinearOrder K] {degree N : ℕ} (hroot : AtRest degree N root) :
    ∃ h, level (nodeHandler toSize) (h + 1) [root] = [] ∧
      (h ≠ 0 → 2 * minDegree degree ^ h ≤ root.pairs.length) := by
  obtain ⟨h, hrest⟩ := hroot
  refine ⟨h, List.eq_nil_iff_forall_not_mem.mpr fun n hn => ?_, hrest.two_mul_pow_le⟩
  obtain ⟨k, -, -, hk, -⟩ := (reaches_of_mem_level hn).rest hrest
  omega

/-- Such a tree gets into the arrays. -/
theorem height_le {degree h l : ℕ} (hpow : h ≠ 0 → 2 * minDegree degree ^ h ≤ l)
    (hsize : l < 2 ^ 64) : h + 2 ≤ MAX_HEIGHT := by
  have hlt : h < 64 := by
    by_cases hzero : h = 0
    · omega
    · have htwo : 2 ^ h ≤ minDegree degree ^ h :=
        Nat.pow_le_pow_left (AbTree.two_le_minDegree degree) h
      have hpow := hpow hzero
      exact (Nat.pow_lt_pow_iff_right Nat.one_lt_two).mp (by omega)
  unfold MAX_HEIGHT
  omega

theorem pairs_entryPoint :
    keySum f (pairsOf [getEntryPoint anyKey root]) = keySum f root.pairs := by
  unfold getEntryPoint
  rw [AbTree.pairsOf_cons, AbTree.pairs_internal, AbTree.pairsOf_cons]
  exact congrArg (keySum f) (List.append_nil _ |>.trans (List.append_nil _))

theorem level_entryPoint : level (nodeHandler toSize) (d + 1) [getEntryPoint anyKey root] =
    level (nodeHandler toSize) d [root] :=
  rfl

end

/-! ### What has been done and not been counted yet -/

section

variable {M : Type} [AddCommGroup M] {f : K → M}

/-- What the operation in progress has done to the tree, and has not returned yet. -/
def Pc.pending (f : K → M) : Pc K V → M
  | .update op (some r) => (Event.ret (α := ℕ) op r).tally f
  | .ret op r => (Event.ret (α := ℕ) op r).tally f
  | _ => 0

/-- The sum over the keys of the tree, less what has not been counted yet. -/
def counted (f : K → M) (s : State m K V) : M :=
  keySum f s.world.tree.root.pairs - totalOf (Pc.pending f) s.pc

theorem counted_move {s : State m K V} {t : Fin m} {w : World m K V} {p : Pc K V} {c : M}
    (h : keySum f w.tree.root.pairs + (s.pc t).pending f =
      keySum f s.world.tree.root.pairs + p.pending f + c) :
    counted f (s.move t w p) = counted f s + c := by
  have htotal := totalOf_update (f := Pc.pending f) (g := s.pc) t p
  show keySum f w.tree.root.pairs - totalOf (Pc.pending f) (update s.pc t p) = _
  unfold counted
  rw [eq_sub_of_add_eq h, eq_sub_of_add_eq htotal]
  abel

theorem counted_goto {s : State m K V} {t : Fin m} {p : Pc K V} {c : M}
    (h : (s.pc t).pending f = p.pending f + c) : counted f (s.goto t p) = counted f s + c := by
  refine counted_move (w := s.world) ?_
  rw [h, add_assoc]

end

section

variable [LinearOrder K] {M : Type} [AddCommGroup M] {f : K → M} {before after : List (K × V)}
  {key : K} {value : V}

/-- A key that was not there is there. -/
theorem keySum_inserted (h : AbTree.Inserted key value before after)
    (hbefore : (before.map Prod.fst).Pairwise (· < ·))
    (hafter : (after.map Prod.fst).Pairwise (· < ·)) (habs : ∀ v, (key, v) ∉ before) :
    keySum f after = keySum f before + f key := by
  have hperm : after.Perm ((key, value) :: before) := by
    refine (List.perm_ext_iff_of_nodup hafter.nodup.of_map ?_).mpr fun e => ?_
    · exact List.nodup_cons.mpr ⟨habs value, hbefore.nodup.of_map⟩
    · rw [h e, List.mem_cons]
      refine or_congr_right ⟨And.left, fun he => ⟨he, ?_⟩⟩
      rintro rfl
      exact habs _ he
  unfold keySum
  rw [(hperm.map _).sum_eq, List.map_cons, List.sum_cons, add_comm]

/-- A key that was there is not there any more. -/
theorem keySum_erased (h : AbTree.Erased key before after)
    (hbefore : (before.map Prod.fst).Pairwise (· < ·))
    (hafter : (after.map Prod.fst).Pairwise (· < ·)) :
    keySum f after + f key = keySum f before := by
  obtain ⟨v, hv⟩ := h.mem
  have hperm : before.Perm ((key, v) :: after) := by
    refine (List.perm_ext_iff_of_nodup hbefore.nodup.of_map ?_).mpr fun e => ?_
    · refine List.nodup_cons.mpr ⟨fun hmem => ?_, hafter.nodup.of_map⟩
      exact ((h.mem_iff _).mp hmem).2 rfl
    · rw [List.mem_cons, h.mem_iff e]
      constructor
      · intro he
        by_cases hkey : e.1 = key
        · exact .inl (List.inj_on_of_nodup_map hbefore.nodup he hv hkey)
        · exact .inr ⟨he, hkey⟩
      · rintro (rfl | ⟨he, -⟩)
        · exact hv
        · exact he
  unfold keySum
  rw [(hperm.map _).sum_eq, List.map_cons, List.sum_cons, add_comm]

end

/-! ### The runs -/

section

variable [LinearOrder K] {S S' : Scheme K} {degree : ℕ} {s s' : State m K V} {t q : Fin m}
  {e : Event ℕ K V}

/-- What is known in every run. -/
structure Sound (S : Scheme K) (s : State m K V) : Prop where
  least : S.least = 1
  inv : Inv S s
  tended : Tended S.degree s.world
  /-- A thread that is in no update has nothing to do. -/
  todo : ∀ q, (∀ op r, s.pc q ≠ .update op r) → s.world.todo q = []

theorem Step.todo (hs : Step degree s t e s') (h : (∀ op r, s.pc t ≠ .update op r) →
    s.world.todo t = []) (hpc : ∀ op r, s'.pc t ≠ .update op r) : s'.world.todo t = [] := by
  cases hs with
  | finish op r hpc' htodo => exact htodo
  | invokeContains key hpc' | findEntry key hpc'
  | findChild key l ptr searchKey weight keys ptrs n hpc'
  | findLeaf key l ptr searchKey weight entries hpc' | ret op r hpc' =>
    apply h
    intro op' r'
    rw [hpc']
    intro heq
    cases heq
  | _ =>
    rw [State.move_pc_self] at hpc
    exact absurd rfl (hpc _ _)

/-- **Every step keeps what is known.** -/
theorem Sound.step (h : Sound S s) (hs : Step S.degree s t e s') :
    ∃ S' : Scheme K, S'.degree = S.degree ∧ s'.world.Inv S' ∧ Sound S' s' := by
  obtain ⟨S', c⟩ := hs.changes h.inv.world h.least.le
  refine ⟨S', c.record.degree, c.world, c.record.least.trans h.least, h.inv.step hs c, ?_,
    fun q hq => ?_⟩
  · rw [c.record.degree]
    rcases hs.world with hsame | ⟨act, hact⟩
    · rw [hsame]
      exact h.tended
    · exact h.tended.step h.inv.world h.least hact
  · by_cases heq : q = t
    · subst heq
      exact hs.todo (h.todo q) hq
    · rw [c.todo q heq]
      apply h.todo
      rwa [c.pc q heq] at hq

theorem exists_sound (hdegree : 3 ≤ degree) (h : (lts m K V degree).init s) :
    ∃ S : Scheme K, S.degree = degree ∧ Sound S s := by
  obtain ⟨S, rfl, hleast, hinv⟩ := exists_inv_init hdegree h
  obtain ⟨⟨anyKey, hworld⟩, hpc⟩ := h
  refine ⟨S, rfl, hleast, hinv, ?_, fun q _ => ?_⟩
  · rw [hworld]
    exact AbTree.tended_init anyKey
  · rw [hworld]
    rfl

variable {M : Type} [AddCommGroup M] {f : K → M}

/-- **What is counted** grows by what a step counts. -/
theorem Step.counted (hs : Step S.degree s t e s') (hinv : Inv S s) (hw' : s'.world.Inv S') :
    AbTreeSet.counted f s' = AbTreeSet.counted f s + e.tally f := by
  obtain ⟨h, hroot⟩ := hinv.world.regular.root
  obtain ⟨h', hroot'⟩ := hw'.regular.root
  cases hs with
  | invokeContains key hpc | findEntry key hpc
  | findChild key l ptr searchKey weight keys ptrs n hpc
  | findLeaf key l ptr searchKey weight entries hpc | finish op r hpc =>
    -- an operation that begins or goes on counts nothing
    apply counted_goto
    rw [hpc]
    exact (add_zero _).symm
  | ret op r hpc =>
    apply counted_goto
    -- the count of an operation that returns was there since its SCX
    rw [hpc]
    exact (zero_add _).symm
  | invokeInsert key value hpc | invokeErase key hpc
  | found key value k c rest ptr searchKey weight entries e hpc
  | missing key k c rest ptr searchKey weight entries hpc =>
    -- a result that changes nothing is not counted
    apply counted_move
    rw [hpc]
    exact (add_zero _).symm
  | work op r act w hpc htodo hs hact hr =>
    apply counted_move
    -- a repair leaves the pairs as they are
    have hkeeps := hinv.world.keeps hw' hs
    have hpairs : w.tree.root.pairs = s.world.tree.root.pairs := by
      cases act with
      | insert | erase => exact hact.elim
      | silent | weight | degree | fault => exact hkeeps
    rw [hpc, hpairs]
    exact (add_zero _).symm
  | insertScx key value k c rest path ptr searchKey weight entries tree task hpc htodo hat hstep =>
    apply counted_move
    -- the key is new, so its count is added
    have hkeeps : AbTree.Inserted key value _ _ :=
      hinv.world.keeps hw' (.insertScx htodo hat hstep)
    have hsum := keySum_inserted (f := f) hkeeps hroot.sorted hroot'.sorted
      (hinv.absent hpc htodo hat hstep)
    rw [hpc]
    exact congrArg (· + 0) hsum
  | eraseScx key k c rest path ptr searchKey weight entries tree task e hpc htodo hat hpair hstep =>
    apply counted_move
    -- the key was there, so its count is taken away
    have hkeeps : AbTree.Erased key _ _ := hinv.world.keeps hw' (.eraseScx htodo hat hstep)
    have hsum := keySum_erased (f := f) hkeeps hroot.sorted hroot'.sorted
    rw [hpc, ← hsum]
    exact congrArg (· + 0) (add_neg_cancel_right _ _).symm

/-- **What is counted** in a run. -/
theorem Path.counted {as : List (Fin m × Event ℕ K V)} (h : (lts m K V degree).Path s as s')
    (hS : ∃ S : Scheme K, S.degree = degree ∧ Sound S s) :
    (∃ S : Scheme K, S.degree = degree ∧ Sound S s') ∧
    AbTreeSet.counted f s' = AbTreeSet.counted f s + (as.map fun a => a.2.tally f).sum := by
  induction h with
  | nil => exact ⟨hS, (add_zero _).symm⟩
  | @cons s s₁ s' a as hstep _ ih =>
    obtain ⟨S, rfl, hsound⟩ := hS
    have hs : Step S.degree s a.1 a.2 s₁ := hstep.2
    obtain ⟨S₁, hdegree, hw₁, hsound₁⟩ := hsound.step hs
    obtain ⟨hS', hcount⟩ := ih ⟨S₁, hdegree, hsound₁⟩
    refine ⟨hS', ?_⟩
    rw [hcount, hs.counted hsound.inv hw₁, List.map_cons, List.sum_cons, add_assoc]

variable {A : Type} [AddCommGroup A] {as : List (Fin m × Event ℕ K V)} {ompThreads : ℕ}

/-- When no operation is in progress, the tree has what has been counted. -/
theorem keySum_of_idle {s₀ : State m K V} (h₀ : (lts m K V degree).init s₀)
    (hp : (lts m K V degree).Path s₀ as s) (hdegree : 3 ≤ degree) (hidle : ∀ t, s.pc t = .idle) :
    keySum f s.world.tree.root.pairs = (as.map fun a => a.2.tally f).sum := by
  obtain ⟨-, hcount⟩ := Path.counted (f := f) hp (exists_sound hdegree h₀)
  obtain ⟨⟨anyKey, hworld⟩, hpc⟩ := h₀
  have hzero : AbTreeSet.counted f s₀ = 0 := by
    unfold AbTreeSet.counted
    rw [totalOf_of_forall fun t => by rw [hpc t]; rfl, hworld]
    exact sub_zero _
  have hnone : AbTreeSet.counted f s = keySum f s.world.tree.root.pairs := by
    unfold AbTreeSet.counted
    rw [totalOf_of_forall fun t => by rw [hidle t]; rfl, sub_zero]
  rw [← hnone, hcount, hzero, zero_add]

/-- **The validation.** When all operations have returned, the parallel statistics of the tree can
be made, with any number of threads and in any order, and the number of the keys and their sum are
what the threads have counted. The height that they give is logarithmic in the number of keys. -/
theorem abTreeSet_validates (hdegree : 3 ≤ degree) {s₀ : State m K V}
    (h₀ : (lts m K V degree).init s₀) (hp : (lts m K V degree).Path s₀ as s)
    (hidle : ∀ t, s.pc t = .idle) (hsize : s.world.tree.root.pairs.length < 2 ^ 64)
    (hthreads : 0 < ompThreads) (anyKey : K) (toSize : K → A) :
    (∃ ts, Parallel (nodeHandler toSize) ompThreads
      (getEntryPoint anyKey s.world.tree.root) ts) ∧
    ∀ ts, Parallel (nodeHandler toSize) ompThreads (getEntryPoint anyKey s.world.tree.root) ts →
      (ts.getKeys : ℤ) = (as.map fun a => a.2.tally fun _ => (1 : ℤ)).sum ∧
      ts.sumOfKeys = (as.map fun a => a.2.tally toSize).sum ∧
      ∀ d, d + 2 < ts.getHeight → 2 * minDegree degree ^ (d + 1) ≤ ts.getKeys := by
  have hcount : ∀ {M : Type} [AddCommGroup M] (f : K → M),
      keySum f s.world.tree.root.pairs = (as.map fun a => a.2.tally f).sum :=
    fun f => keySum_of_idle h₀ hp hdegree hidle
  obtain ⟨⟨S, rfl, hsound⟩, -⟩ :=
    Path.counted (f := fun _ => (0 : ℤ)) hp (exists_sound hdegree h₀)
  -- all repairs have been done
  have htodo : ∀ t, s.world.todo t = [] := by
    intro t
    apply hsound.todo
    intro op r heq
    rw [hidle t] at heq
    cases heq
  -- the tree is balanced, so its height is less than the arrays hold
  obtain ⟨h, hlevel, hpow⟩ :=
    exists_height toSize (hsound.tended.atRest hsound.inv.world htodo)
  have hlevel' : level (nodeHandler toSize) (h + 2)
      [getEntryPoint anyKey s.world.tree.root] = [] := level_entryPoint.trans hlevel
  have hheight := TreeStats.level_eq_nil hlevel' (height_le hpow hsize)
  refine ⟨TreeStats.exists_parallel ompThreads hheight, fun ts hts => ?_⟩
  -- the parallel statistics are those of the levels
  have heq : ts = levels (nodeHandler toSize) 0 MAX_HEIGHT
      [getEntryPoint anyKey s.world.tree.root] := by
    rcases hts.eq hheight hthreads with ⟨-, heq⟩ | ⟨hnone, -⟩
    · exact heq
    · cases hnone
  obtain ⟨hget, hkeys, -⟩ := TreeStats.reads_levels hheight
  have hsum : ∀ {M : Type} [AddCommMonoid M] (f : K → M),
      ∑ i ∈ Finset.range MAX_HEIGHT, ((level (nodeHandler toSize) i
        [getEntryPoint anyKey s.world.tree.root]).map (leafSum f)).sum =
      keySum f s.world.tree.root.pairs := fun f => (sum_levels hheight).trans pairs_entryPoint
  -- the keys of the nodes are those of the pairs
  have hlength : ts.getKeys = s.world.tree.root.pairs.length := by
    rw [heq, hkeys, ← keySum_one (K := K), ← hsum, getNumKeys_eq]
  refine ⟨?_, ?_, fun d hd => ?_⟩
  · rw [hlength, ← hcount]
    simp [keySum]
  · rw [heq, TreeStats.levels_sumOfKeys, ← hcount, ← hsum, getSumOfKeys_eq]
  · -- the height of the statistics counts the entry and the leaves, too
    rw [heq, hget] at hd
    have hdh : d + 1 ≤ h := by
      by_contra hlt
      exact hd (TreeStats.level_eq_nil hlevel' (by omega))
    calc 2 * minDegree S.degree ^ (d + 1)
        ≤ 2 * minDegree S.degree ^ h :=
          Nat.mul_le_mul_left 2 (Nat.pow_le_pow_right
            (Nat.two_pos.trans_le (AbTree.two_le_minDegree _)) hdh)
      _ ≤ s.world.tree.root.pairs.length := hpow (by omega)
      _ = ts.getKeys := hlength.symm

end

/-- No operation is in progress, there are 11 keys, and their sum is what has been counted. -/
def State.settled (as : List (Fin 2 × Event ℕ ℕ ℕ)) (s : State 2 ℕ ℕ) : Bool :=
  decide ((∀ t, s.pc t = .idle) ∧ s.world.tree.root.pairs.length = 11 ∧
    (as.map fun a => a.2.tally fun _ => (1 : ℤ)).sum = 11 ∧
    (as.map fun a => a.2.tally fun key : ℕ => (key : ℤ)).sum = 77)

/-- After twelve insertions, a removal with a repair and a search, by two threads. -/
theorem abTreeSet_validates_setRun : ∃ s : State 2 ℕ ℕ, s.world.tree.root.pairs.length = 11 ∧
    ∃ ts : TreeStats ℤ, Parallel (nodeHandler fun key : ℕ => (key : ℤ)) 4
      (getEntryPoint 0 s.world.tree.root) ts ∧ ts.getKeys = 11 ∧ ts.sumOfKeys = 77 := by
  obtain ⟨as, s, hp, hs⟩ := (State.computes 4 10).exists_path
    (setRun 0 1 ++ (1, none) :: List.replicate 3 (0, none)) emptyTree State.settled
    (by decide +kernel)
  obtain ⟨hidle, hlength, hcount, hsum⟩ := of_decide_eq_true hs
  have hsize : s.world.tree.root.pairs.length < 2 ^ 64 := by
    rw [hlength]
    decide
  obtain ⟨⟨ts, hts⟩, hall⟩ := abTreeSet_validates (show 3 ≤ 4 by decide) emptyTree_init hp hidle
    hsize (show 0 < 4 by decide) 0 fun key => (key : ℤ)
  obtain ⟨hkeys, hkeysum, -⟩ := hall ts hts
  rw [hcount] at hkeys
  rw [hsum] at hkeysum
  exact ⟨s, hlength, ts, hts, by exact_mod_cast hkeys, hkeysum⟩

end AbTreeSet
end PopSetbench

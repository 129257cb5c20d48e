import Mathlib.Algebra.BigOperators.Group.Finset.Basic
import Mathlib.Algebra.BigOperators.Intervals
import Mathlib.Algebra.BigOperators.Pi
import Mathlib.Algebra.Order.BigOperators.Group.Finset

/-!
# Tree statistics

Model of `TreeStats` (tree_stats.h), by which the benchmark counts the nodes and the keys of a tree.
The class is a template: it sees a tree through a `NodeHandler`.

The sequential constructor goes down from the root. The parallel one looks for a depth with enough
nodes first, has the subtrees at this depth counted one by one, adds up what has been counted by
atomic additions, in any order, and counts the nodes above. In both the result is `levels`, what is
at each depth (`sequential_eq`, `Parallel.eq`), as long as the root has a child. If it has none,
`currDepth - 1` wraps around, and the parallel constructor counts the root twice
(`treeStats_parallel`).

The arrays are functions. An index that is not below `MAX_HEIGHT` is not in the arrays: `none`.
-/

namespace PopSetbench

open Function

/-- How a tree is looked at. -/
structure NodeHandler (N A : Type) where
  isLeaf : N → Bool
  /-- The nodes that the iterator goes through. -/
  getChildIterator : N → List N
  getNumKeys : N → ℕ
  getSumOfKeys : N → A

/-- The fields of the class. -/
@[ext]
structure TreeStats (A : Type) where
  internalsAtDepth : ℕ → ℕ
  leavesAtDepth : ℕ → ℕ
  keysAtDepth : ℕ → ℕ
  sumOfKeys : A

namespace TreeStats

def MAX_HEIGHT : ℕ := 1024

theorem MAX_HEIGHT_pos : 0 < MAX_HEIGHT := by
  unfold MAX_HEIGHT
  omega

/-- `std::numeric_limits<size_t>::max()`. -/
def sizeMax : ℕ := 2 ^ 64 - 1

/-- `array[d] += v`. -/
def bump (array : ℕ → ℕ) (d v : ℕ) : ℕ → ℕ := update array d (array d + v)

section

variable {N A : Type} [AddCommMonoid A]

/-- What the constructors begin with. -/
def zero : TreeStats A := ⟨fun _ => 0, fun _ => 0, fun _ => 0, 0⟩

/-! ### The sequential constructor -/

/-- `computeStats`. From `depth` on there is `room` for so many depths in the arrays. -/
def computeStats (handler : NodeHandler N A) (maxDepth : ℕ) :
    ℕ → TreeStats A → N → ℕ → Option (TreeStats A)
  | 0, ts, _, depth => if maxDepth < depth then some ts else none
  | room + 1, ts, node, depth =>
    if maxDepth < depth then some ts
    else
      let ts := { ts with
        keysAtDepth := bump ts.keysAtDepth depth (handler.getNumKeys node)
        sumOfKeys := ts.sumOfKeys + handler.getSumOfKeys node }
      if handler.isLeaf node then
        some { ts with leavesAtDepth := bump ts.leavesAtDepth depth 1 }
      else
        (handler.getChildIterator node).foldlM
          (fun ts child => computeStats handler maxDepth room ts child (1 + depth))
          { ts with internalsAtDepth := bump ts.internalsAtDepth depth 1 }

/-- The constructor, without `parallelConstruction`. -/
def sequential (handler : NodeHandler N A) (root : N) : Option (TreeStats A) :=
  computeStats handler sizeMax MAX_HEIGHT zero root 0

/-! ### The parallel constructor -/

/-- The variables of the breadth-first search. What `qn` and `qd` have at an index is a pair. -/
structure Bfs (N : Type) where
  queue : List (N × ℕ)
  ix : ℕ
  currDepth : ℕ
  ixStartOfDepth : ℕ
  nodesSeenAtDepth : ℕ

/-- Before the loop. -/
def Bfs.init (root : N) : Bfs N := ⟨[(root, 0)], 0, 0, 0, 0⟩

/-- The end of the body: the children are added to the queue. -/
def Bfs.visit (handler : NodeHandler N A) (node : N) (depth : ℕ) (b : Bfs N) : Bfs N :=
  { b with
    nodesSeenAtDepth := b.nodesSeenAtDepth + 1
    queue := b.queue ++ if handler.isLeaf node then []
      else (handler.getChildIterator node).map fun child => (child, 1 + depth) }

/-- The loop. -/
def bfs (handler : NodeHandler N A) (minNodes : ℕ) : ℕ → Bfs N → Option (Bfs N)
  | 0, _ => none
  | fuel + 1, b =>
    match b.queue[b.ix]? with
    | none => some b
    | some (node, depth) =>
      if depth ≠ b.currDepth then
        -- `--ix` before the `break`
        if minNodes ≤ b.nodesSeenAtDepth then some b
        else bfs handler minNodes fuel (Bfs.visit handler node depth
          { b with ix := b.ix + 1, currDepth := depth, nodesSeenAtDepth := 0,
                   ixStartOfDepth := b.ix })
      else bfs handler minNodes fuel (Bfs.visit handler node depth { b with ix := b.ix + 1 })

/-- An atomic addition to a field of the object under construction. -/
inductive Faa (A : Type)
  | internalsAtDepth (d v : ℕ)
  | leavesAtDepth (d v : ℕ)
  | keysAtDepth (d v : ℕ)
  | sumOfKeys (v : A)

def Faa.apply (ts : TreeStats A) : Faa A → TreeStats A
  | .internalsAtDepth d v => { ts with internalsAtDepth := bump ts.internalsAtDepth d v }
  | .leavesAtDepth d v => { ts with leavesAtDepth := bump ts.leavesAtDepth d v }
  | .keysAtDepth d v => { ts with keysAtDepth := bump ts.keysAtDepth d v }
  | .sumOfKeys v => { ts with sumOfKeys := ts.sumOfKeys + v }

/-- The additions for a subtree at the depth `currDepth`. -/
def faas (currDepth : ℕ) (ts : TreeStats A) : List (Faa A) :=
  ((List.range (MAX_HEIGHT - currDepth)).flatMap fun d =>
    [.internalsAtDepth (d + currDepth) (ts.internalsAtDepth d),
      .leavesAtDepth (d + currDepth) (ts.leavesAtDepth d),
      .keysAtDepth (d + currDepth) (ts.keysAtDepth d)]) ++ [.sumOfKeys ts.sumOfKeys]

/-- `currDepth - 1`, of type `size_t`. -/
def pred (currDepth : ℕ) : ℕ := (currDepth + sizeMax) % 2 ^ 64

/-- The constructor, with `parallelConstruction` and `ompThreads` threads: `ts` is what it may end
with. The subtrees are counted at the same time, so that `order` is any order of the additions. -/
structure Parallel (handler : NodeHandler N A) (ompThreads : ℕ) (root : N) (ts : TreeStats A) :
    Prop where
  run : ∃ fuel b subtrees order, bfs handler (4 * ompThreads) fuel (Bfs.init root) = some b ∧
    (((b.queue.take b.ix).drop b.ixStartOfDepth).map Prod.fst).mapM (sequential handler) =
      some subtrees ∧
    List.Perm order (subtrees.flatMap (faas b.currDepth)) ∧
    computeStats handler (pred b.currDepth) MAX_HEIGHT (order.foldl Faa.apply zero) root 0 = some ts

/-! ### What is read afterwards -/

variable (ts : TreeStats A)

def getNodesAtDepth (d : ℕ) : ℕ := ts.internalsAtDepth d + ts.leavesAtDepth d

/-- The loop of `getHeight`, from `d` on. -/
def heightFrom : ℕ → ℕ → ℕ
  | 0, d => d
  | room + 1, d => if 0 < ts.getNodesAtDepth d then heightFrom room (d + 1) else d

def getHeight : ℕ := ts.heightFrom MAX_HEIGHT 0

def getInternals : ℕ := ∑ d ∈ Finset.range ts.getHeight, ts.internalsAtDepth d

def getLeaves : ℕ := ∑ d ∈ Finset.range ts.getHeight, ts.leavesAtDepth d

def getKeys : ℕ := ∑ d ∈ Finset.range ts.getHeight, ts.keysAtDepth d

end

/-! ### Levels -/

section

variable {N A : Type}

/-- The children of a node, as the statistics see them. -/
def children (handler : NodeHandler N A) (n : N) : List N :=
  if handler.isLeaf n then [] else handler.getChildIterator n

/-- The nodes `d` steps below. -/
def level (handler : NodeHandler N A) (d : ℕ) (ns : List N) : List N :=
  (fun ns => ns.flatMap (children handler))^[d] ns

variable {handler : NodeHandler N A} {ns ns' : List N} {n : N} {c d k : ℕ}

theorem level_zero : level handler 0 ns = ns :=
  rfl

theorem level_succ : level handler (d + 1) ns = level handler d (ns.flatMap (children handler)) :=
  rfl

theorem level_succ' : level handler (d + 1) ns = (level handler d ns).flatMap (children handler) :=
  iterate_succ_apply' _ _ _

theorem level_add : level handler (c + d) ns = level handler d (level handler c ns) := by
  rw [add_comm]
  exact iterate_add_apply _ _ _ _

theorem level_append : level handler d (ns ++ ns') = level handler d ns ++ level handler d ns' := by
  induction d generalizing ns ns' with
  | zero => rfl
  | succ d ih => rw [level_succ, level_succ, level_succ, List.flatMap_append, ih]

theorem level_nil : level handler d ([] : List N) = [] := by
  induction d with
  | zero => rfl
  | succ d ih => exact ih

/-- Below an empty level there is nothing. -/
theorem level_eq_nil (h : level handler d ns = []) (hle : d ≤ k) : level handler k ns = [] := by
  obtain ⟨e, rfl⟩ := Nat.exists_eq_add_of_le hle
  rw [level_add, h, level_nil]

theorem level_mem (h : level handler d ns = []) (hn : n ∈ ns) : level handler d [n] = [] := by
  obtain ⟨as, bs, rfl⟩ := List.append_of_mem hn
  rw [← List.singleton_append, level_append, level_append, List.append_eq_nil_iff,
    List.append_eq_nil_iff] at h
  exact h.2.1

/-! ### The breadth-first search -/

/-- In the loop: before `ixStartOfDepth` the nodes of smaller depths, then those of `currDepth`, of
which `done` have been visited, and their children. -/
structure Bfs.Inv (handler : NodeHandler N A) (root : N) (b : Bfs N) (before : List (N × ℕ))
    (done rest : List N) : Prop where
  queue : b.queue = before ++ ((done ++ rest).map (·, b.currDepth) ++
    (done.flatMap (children handler)).map (·, 1 + b.currDepth))
  level : level handler b.currDepth [root] = done ++ rest
  ne : done ++ rest ≠ []
  ixStartOfDepth : b.ixStartOfDepth = before.length
  ix : b.ix = before.length + done.length
  nodesSeenAtDepth : b.nodesSeenAtDepth = done.length

/-- After the loop: the nodes from `ixStartOfDepth` to `ix` are a level. -/
structure Bfs.Out (handler : NodeHandler N A) (minNodes : ℕ) (root : N) (b : Bfs N) : Prop where
  subtrees : ((b.queue.take b.ix).drop b.ixStartOfDepth).map Prod.fst =
    level handler b.currDepth [root]
  ne : level handler b.currDepth [root] ≠ []
  top : b.currDepth = 0 → children handler root ≠ [] → minNodes ≤ 1

variable {b : Bfs N} {root : N} {before : List (N × ℕ)} {done rest : List N} {minNodes fuel : ℕ}

theorem Bfs.inv_init : (Bfs.init root).Inv handler root [] [] [root] :=
  ⟨rfl, rfl, List.cons_ne_nil _ _, rfl, rfl, rfl⟩

theorem Bfs.visit_queue : (b.visit handler n d).queue =
    b.queue ++ (children handler n).map (·, 1 + d) := by
  unfold Bfs.visit children
  split_ifs
  · rfl
  · rfl

namespace Bfs.Inv

/-- The next node of the depth. -/
theorem visit (h : b.Inv handler root before done (n :: rest)) :
    (Bfs.visit handler n b.currDepth { b with ix := b.ix + 1 }).Inv handler root before
      (done ++ [n]) rest := by
  have hlist : done ++ [n] ++ rest = done ++ n :: rest := by simp
  refine ⟨?_, ?_, ?_, h.ixStartOfDepth, ?_, ?_⟩
  · rw [Bfs.visit_queue, hlist]
    show b.queue ++ (children handler n).map (·, 1 + b.currDepth) =
      before ++ ((done ++ n :: rest).map (·, b.currDepth) ++
        ((done ++ [n]).flatMap (children handler)).map (·, 1 + b.currDepth))
    rw [h.queue, List.flatMap_append, List.flatMap_singleton,
      (List.map_append : (done.flatMap (children handler) ++ _).map _ = _),
      List.append_assoc, List.append_assoc]
  · rw [hlist]
    exact h.level
  · rw [hlist]
    exact h.ne
  · show b.ix + 1 = _
    rw [h.ix, List.length_append, List.length_singleton, add_assoc]
  · show b.nodesSeenAtDepth + 1 = _
    rw [h.nodesSeenAtDepth, List.length_append, List.length_singleton]

/-- The first node of the next depth. -/
theorem down (h : b.Inv handler root before done [])
    (hnext : done.flatMap (children handler) = n :: rest) :
    (Bfs.visit handler n (1 + b.currDepth) { b with
      ix := b.ix + 1, currDepth := 1 + b.currDepth, nodesSeenAtDepth := 0,
      ixStartOfDepth := b.ix }).Inv handler root (before ++ done.map (·, b.currDepth)) [n]
        rest := by
  have hlevel := h.level
  rw [List.append_nil] at hlevel
  refine ⟨?_, ?_, List.cons_ne_nil _ _, ?_, ?_, rfl⟩
  · rw [Bfs.visit_queue]
    show b.queue ++ _ = _
    rw [h.queue, hnext, List.append_nil, List.flatMap_singleton, List.append_assoc,
      List.append_assoc, List.append_assoc]
    rfl
  · show TreeStats.level handler (1 + b.currDepth) [root] = n :: rest
    rw [add_comm, level_succ', hlevel, hnext]
  · show b.ix = _
    rw [h.ix, List.length_append, List.length_map]
  · show b.ix + 1 = _
    rw [h.ix, List.length_append, List.length_map]
    rfl

/-- The loop is left. -/
theorem out (h : b.Inv handler root before done [])
    (hend : done.flatMap (children handler) = [] ∨ minNodes ≤ b.nodesSeenAtDepth) :
    b.Out handler minNodes root := by
  have hlevel := h.level
  have hne := h.ne
  rw [List.append_nil] at hlevel hne
  refine ⟨?_, hlevel ▸ hne, fun htop hchildren => ?_⟩
  · rw [h.queue, h.ix, h.ixStartOfDepth, hlevel, List.append_nil, ← List.append_assoc]
    have hlen : before.length + done.length = (before ++ done.map (·, b.currDepth)).length := by
      rw [List.length_append, List.length_map]
    rw [hlen, List.take_left, List.drop_left, List.map_map]
    exact List.map_id _
  · rw [htop, level_zero] at hlevel
    rcases hend with hnone | hmin
    · rw [← hlevel, List.flatMap_singleton] at hnone
      exact absurd hnone hchildren
    · rwa [h.nodesSeenAtDepth, ← hlevel] at hmin

variable (minNodes) in
/-- **One round** of the loop. -/
theorem step (h : b.Inv handler root before done rest) :
    (∀ fuel, bfs handler minNodes (fuel + 1) b = some b) ∧ b.Out handler minNodes root ∨
    ∃ b' before' done' rest', Bfs.Inv handler root b' before' done' rest' ∧
      (∀ fuel, bfs handler minNodes (fuel + 1) b = bfs handler minNodes fuel b') ∧
      (b'.currDepth = b.currDepth ∧ rest.length = rest'.length + 1 ∨
        b'.currDepth = 1 + b.currDepth) := by
  have hget : b.queue[b.ix]? = (rest.map (·, b.currDepth) ++
      (done.flatMap (children handler)).map (·, 1 + b.currDepth))[0]? := by
    rw [h.queue, h.ix, List.getElem?_append_right (Nat.le_add_right _ _), Nat.add_sub_cancel_left,
      List.map_append, List.append_assoc, List.getElem?_append_right (by simp)]
    simp
  cases rest with
  | cons n rest =>
    refine .inr ⟨_, before, _, rest, h.visit, fun fuel => ?_, .inl ⟨rfl, rfl⟩⟩
    rw [bfs, hget]
    exact if_neg (not_not.mpr rfl)
  | nil =>
    cases hnext : done.flatMap (children handler) with
    | nil =>
      refine .inl ⟨fun fuel => ?_, h.out (.inl hnext)⟩
      rw [bfs, hget, hnext]
      rfl
    | cons n next =>
      have hdepth : 1 + b.currDepth ≠ b.currDepth := by omega
      by_cases hmin : minNodes ≤ b.nodesSeenAtDepth
      · refine .inl ⟨fun fuel => ?_, h.out (.inr hmin)⟩
        rw [bfs, hget, hnext]
        exact (if_pos hdepth).trans (if_pos hmin)
      · refine .inr ⟨_, _, _, next, h.down hnext, fun fuel => ?_, .inr rfl⟩
        rw [bfs, hget, hnext]
        exact (if_pos hdepth).trans (if_neg hmin)

/-- What the loop ends with. -/
theorem bfs_out {b' : Bfs N} (h : b.Inv handler root before done rest)
    (hrun : bfs handler minNodes fuel b = some b') : b'.Out handler minNodes root := by
  induction fuel generalizing b before done rest with
  | zero => cases hrun
  | succ fuel ih =>
    rcases h.step minNodes with ⟨hstop, hout⟩ | ⟨b₁, _, _, _, h₁, hgo, -⟩
    · rw [hstop] at hrun
      rwa [← Option.some.inj hrun]
    · rw [hgo] at hrun
      exact ih h₁ hrun

/-- The loop ends. -/
theorem bfs_ends (h : b.Inv handler root before done rest)
    (hheight : TreeStats.level handler (b.currDepth + k) [root] = []) :
    ∃ fuel b', bfs handler minNodes fuel b = some b' := by
  induction k generalizing b before done rest with
  | zero => exact absurd (h.level.symm.trans hheight) h.ne
  | succ k ih =>
    induction hm : rest.length using Nat.strong_induction_on generalizing b before done rest with
    | _ m ihm =>
      rcases h.step minNodes with ⟨hstop, -⟩ | ⟨b₁, _, _, rest₁, h₁, hgo, hnext⟩
      · exact ⟨1, b, hstop 0⟩
      · have hend : ∃ fuel b', bfs handler minNodes fuel b₁ = some b' := by
          rcases hnext with ⟨hsame, hlen⟩ | hdown
          · exact ihm rest₁.length (by omega) h₁ (hsame ▸ hheight) rfl
          · refine ih h₁ ?_
            rw [hdown, add_comm 1, add_assoc, add_comm 1]
            exact hheight
        obtain ⟨fuel, b', hrun⟩ := hend
        exact ⟨fuel + 1, b', (hgo fuel).trans hrun⟩

end Bfs.Inv

end

/-! ### Sums of statistics -/

section

variable {N A : Type} [AddCommMonoid A]

instance instZero : Zero (TreeStats A) := ⟨zero⟩

/-- Statistics are added field by field. -/
instance instAdd : Add (TreeStats A) :=
  ⟨fun a b => ⟨a.internalsAtDepth + b.internalsAtDepth, a.leavesAtDepth + b.leavesAtDepth,
    a.keysAtDepth + b.keysAtDepth, a.sumOfKeys + b.sumOfKeys⟩⟩

instance instAddCommMonoid : AddCommMonoid (TreeStats A) where
  add_assoc _ _ _ := TreeStats.ext (add_assoc _ _ _) (add_assoc _ _ _) (add_assoc _ _ _)
    (add_assoc _ _ _)
  zero_add _ := TreeStats.ext (zero_add _) (zero_add _) (zero_add _) (zero_add _)
  add_zero _ := TreeStats.ext (add_zero _) (add_zero _) (add_zero _) (add_zero _)
  add_comm _ _ := TreeStats.ext (add_comm _ _) (add_comm _ _) (add_comm _ _) (add_comm _ _)
  nsmul := nsmulRec

variable {handler : NodeHandler N A} {ts ts' : TreeStats A} {ns ns' : List N} {n root : N}
  {d k c depth maxDepth room : ℕ}

theorem bump_eq (array : ℕ → ℕ) (d v : ℕ) : bump array d v = array + Pi.single d v := by
  ext d'
  unfold bump
  by_cases h : d' = d
  · subst h
    simp
  · simp [h]

/-- What a node adds to the statistics. -/
def count (handler : NodeHandler N A) (depth : ℕ) (n : N) : TreeStats A where
  internalsAtDepth := Pi.single depth (if handler.isLeaf n then 0 else 1)
  leavesAtDepth := Pi.single depth (if handler.isLeaf n then 1 else 0)
  keysAtDepth := Pi.single depth (handler.getNumKeys n)
  sumOfKeys := handler.getSumOfKeys n

/-- What `k` levels add, of which the first is at `depth`. -/
def levels (handler : NodeHandler N A) (depth k : ℕ) (ns : List N) : TreeStats A :=
  ∑ i ∈ Finset.range k, ((level handler i ns).map (count handler (depth + i))).sum

theorem levels_nil : levels handler depth k ([] : List N) = 0 := by
  unfold levels
  apply Finset.sum_eq_zero
  intro i _
  rw [level_nil]
  rfl

theorem levels_append : levels handler depth k (ns ++ ns') =
    levels handler depth k ns + levels handler depth k ns' := by
  unfold levels
  rw [← Finset.sum_add_distrib]
  apply Finset.sum_congr rfl
  intro i _
  rw [level_append, List.map_append, List.sum_append]

theorem levels_cons :
    levels handler depth k (n :: ns) = levels handler depth k [n] + levels handler depth k ns :=
  @levels_append _ _ _ _ [n] _ _ _

/-- The first level, and those below it. -/
theorem levels_succ : levels handler depth (k + 1) ns =
    (ns.map (count handler depth)).sum +
      levels handler (depth + 1) k (ns.flatMap (children handler)) := by
  unfold levels
  rw [Finset.sum_range_succ', add_comm]
  congr 1
  apply Finset.sum_congr rfl
  intro i _
  rw [level_succ, add_right_comm, add_assoc]

/-- The levels above one, and those from it on. -/
theorem levels_add : levels handler depth (c + k) ns =
    levels handler depth c ns + levels handler (depth + c) k (level handler c ns) := by
  unfold levels
  rw [Finset.sum_range_add]
  congr 1
  apply Finset.sum_congr rfl
  intro i _
  rw [level_add, add_assoc]

/-- Empty levels add nothing. -/
theorem levels_of_nil (h : level handler c ns = []) (hle : c ≤ k) :
    levels handler depth k ns = levels handler depth c ns := by
  obtain ⟨e, rfl⟩ := Nat.exists_eq_add_of_le hle
  rw [levels_add, h, levels_nil, add_zero]

theorem levels_eq_sum :
    levels handler depth k ns = (ns.map fun n => levels handler depth k [n]).sum := by
  induction ns with
  | nil => exact levels_nil
  | cons n ns ih => rw [levels_cons, ih, List.map_cons, List.sum_cons]

/-! ### The sequential constructor -/

omit [AddCommMonoid A] in
/-- A loop that adds something for each element. -/
theorem foldlM_add {M C : Type} [AddCommMonoid M] {f : M → C → Option M} {g : C → M} {cs : List C}
    {a : M} (h : ∀ a, ∀ c ∈ cs, f a c = some (a + g c)) :
    cs.foldlM f a = some (a + (cs.map g).sum) := by
  induction cs generalizing a with
  | nil =>
    rw [List.map_nil, List.sum_nil, add_zero]
    rfl
  | cons c cs ih =>
    rw [List.foldlM_cons, h a c List.mem_cons_self, Option.bind_eq_bind, Option.bind_some,
      ih fun a c hc => h a c (List.mem_cons_of_mem _ hc), List.map_cons, List.sum_cons, add_assoc]

theorem add_count_leaf (hleaf : handler.isLeaf n = true) :
    ({ ts with
      keysAtDepth := bump ts.keysAtDepth depth (handler.getNumKeys n)
      sumOfKeys := ts.sumOfKeys + handler.getSumOfKeys n
      leavesAtDepth := bump ts.leavesAtDepth depth 1 } : TreeStats A) =
      ts + count handler depth n := by
  unfold count
  simp only [bump_eq, hleaf, if_true]
  refine TreeStats.ext ?_ rfl rfl rfl
  show ts.internalsAtDepth = ts.internalsAtDepth + Pi.single depth 0
  rw [Pi.single_zero, add_zero]

theorem add_count_internal (hleaf : handler.isLeaf n = false) :
    ({ ts with
      keysAtDepth := bump ts.keysAtDepth depth (handler.getNumKeys n)
      sumOfKeys := ts.sumOfKeys + handler.getSumOfKeys n
      internalsAtDepth := bump ts.internalsAtDepth depth 1 } : TreeStats A) =
      ts + count handler depth n := by
  unfold count
  simp only [bump_eq, hleaf, Bool.false_eq_true, if_false]
  refine TreeStats.ext rfl ?_ rfl rfl
  show ts.leavesAtDepth = ts.leavesAtDepth + Pi.single depth 0
  rw [Pi.single_zero, add_zero]

/-- The levels that are counted. -/
theorem computeStats_eq (h : level handler room [n] = [] ∨ maxDepth < depth + room) :
    computeStats handler maxDepth room ts n depth =
      some (ts + levels handler depth (min room (maxDepth + 1 - depth)) [n]) := by
  induction room generalizing ts n depth with
  | zero =>
    have hlt : maxDepth < depth := h.resolve_left (List.cons_ne_nil _ _)
    unfold computeStats
    rw [if_pos hlt, Nat.zero_min]
    show some ts = some (ts + 0)
    rw [add_zero]
  | succ room ih =>
    unfold computeStats
    by_cases hlt : maxDepth < depth
    · have hzero : maxDepth + 1 - depth = 0 := by omega
      rw [if_pos hlt, hzero, Nat.min_zero]
      show some ts = some (ts + 0)
      rw [add_zero]
    · have hmin : min (room + 1) (maxDepth + 1 - depth) =
          min room (maxDepth + 1 - (1 + depth)) + 1 := by omega
      rw [if_neg hlt, hmin, levels_succ]
      simp only [List.map_cons, List.map_nil, List.sum_cons, List.sum_nil, add_zero,
        List.flatMap_cons, List.flatMap_nil, List.append_nil]
      rw [← add_assoc]
      cases hleaf : handler.isLeaf n with
      | true =>
        rw [if_pos rfl, add_count_leaf hleaf]
        simp only [children, hleaf, if_true, levels_nil, add_zero]
      | false =>
        rw [if_neg Bool.false_ne_true, add_count_internal hleaf]
        have hchildren : children handler n = handler.getChildIterator n := by
          simp [children, hleaf]
        rw [levels_eq_sum, hchildren, add_comm depth 1]
        apply foldlM_add
        intro ts c hc
        apply ih
        refine h.imp (fun hnil => ?_) fun hdepth => by omega
        rw [level_succ, List.flatMap_cons, List.flatMap_nil, List.append_nil, hchildren] at hnil
        exact level_mem hnil hc

theorem sequential_eq (h : level handler MAX_HEIGHT [root] = []) :
    sequential handler root = some (levels handler 0 MAX_HEIGHT [root]) := by
  have hmin : min MAX_HEIGHT (sizeMax + 1 - 0) = MAX_HEIGHT := by
    unfold MAX_HEIGHT sizeMax
    omega
  unfold sequential
  rw [computeStats_eq (.inl h), hmin]
  show some (0 + _) = _
  rw [zero_add]

/-! ### The atomic additions -/

/-- What is added. -/
def Faa.stats : Faa A → TreeStats A
  | .internalsAtDepth d v => ⟨Pi.single d v, 0, 0, 0⟩
  | .leavesAtDepth d v => ⟨0, Pi.single d v, 0, 0⟩
  | .keysAtDepth d v => ⟨0, 0, Pi.single d v, 0⟩
  | .sumOfKeys v => ⟨0, 0, 0, v⟩

theorem Faa.apply_eq (f : Faa A) : f.apply ts = ts + f.stats := by
  cases f with
  | internalsAtDepth d v =>
    exact TreeStats.ext (bump_eq ts.internalsAtDepth d v) (add_zero _).symm (add_zero _).symm
      (add_zero _).symm
  | leavesAtDepth d v =>
    exact TreeStats.ext (add_zero _).symm (bump_eq ts.leavesAtDepth d v) (add_zero _).symm
      (add_zero _).symm
  | keysAtDepth d v =>
    exact TreeStats.ext (add_zero _).symm (add_zero _).symm (bump_eq ts.keysAtDepth d v)
      (add_zero _).symm
  | sumOfKeys v =>
    exact TreeStats.ext (add_zero _).symm (add_zero _).symm (add_zero _).symm rfl

theorem foldl_faa (fs : List (Faa A)) : fs.foldl Faa.apply ts = ts + (fs.map Faa.stats).sum := by
  induction fs generalizing ts with
  | nil =>
    rw [List.map_nil, List.sum_nil, add_zero]
    rfl
  | cons f fs ih => rw [List.foldl_cons, ih, f.apply_eq, List.map_cons, List.sum_cons, add_assoc]

/-- The first `m` cells of an array, moved by `c`. -/
def movedArray (m c : ℕ) : (ℕ → ℕ) →+ (ℕ → ℕ) where
  toFun array := ∑ d ∈ Finset.range m, Pi.single (d + c) (array d)
  map_zero' := by
    apply Finset.sum_eq_zero
    intro d _
    exact Pi.single_zero _
  map_add' a b := by
    rw [← Finset.sum_add_distrib]
    apply Finset.sum_congr rfl
    intro d _
    exact Pi.single_add _ _ _

/-- The additions for a subtree move its statistics down to its depth. -/
def moved (currDepth : ℕ) : TreeStats A →+ TreeStats A where
  toFun ts := ⟨movedArray (MAX_HEIGHT - currDepth) currDepth ts.internalsAtDepth,
    movedArray (MAX_HEIGHT - currDepth) currDepth ts.leavesAtDepth,
    movedArray (MAX_HEIGHT - currDepth) currDepth ts.keysAtDepth, ts.sumOfKeys⟩
  map_zero' := TreeStats.ext (map_zero _) (map_zero _) (map_zero _) rfl
  map_add' _ _ := TreeStats.ext (map_add _ _ _) (map_add _ _ _) (map_add _ _ _) rfl

theorem movedArray_succ (m c : ℕ) (array : ℕ → ℕ) :
    movedArray (m + 1) c array = movedArray m c array + Pi.single (m + c) (array m) :=
  Finset.sum_range_succ _ _

theorem sum_faas : ((faas c ts).map Faa.stats).sum = moved c ts := by
  have hrange : ∀ m, (((List.range m).flatMap fun d =>
      [Faa.internalsAtDepth (d + c) (ts.internalsAtDepth d),
        Faa.leavesAtDepth (d + c) (ts.leavesAtDepth d),
        Faa.keysAtDepth (d + c) (ts.keysAtDepth d)]).map (Faa.stats (A := A))).sum =
      ⟨movedArray m c ts.internalsAtDepth, movedArray m c ts.leavesAtDepth,
        movedArray m c ts.keysAtDepth, 0⟩ := by
    intro m
    induction m with
    | zero => rfl
    | succ m ih =>
      rw [List.range_succ, List.flatMap_append, List.map_append, List.sum_append, ih,
        List.flatMap_singleton, movedArray_succ, movedArray_succ, movedArray_succ]
      simp only [List.map_cons, List.map_nil, List.sum_cons, List.sum_nil, add_zero]
      refine TreeStats.ext ?_ ?_ ?_ ?_
      · show _ + (Pi.single (m + c) _ + (0 + 0)) = _
        rw [add_zero, add_zero]
      · show _ + (0 + (Pi.single (m + c) _ + 0)) = _
        rw [add_zero, zero_add]
      · show _ + (0 + (0 + Pi.single (m + c) _)) = _
        rw [zero_add, zero_add]
      · show (0 : A) + (0 + (0 + 0)) = 0
        rw [add_zero, add_zero, add_zero]
  unfold faas
  rw [List.map_append, List.sum_append, hrange]
  exact TreeStats.ext (add_zero _) (add_zero _) (add_zero _) ((zero_add _).trans (add_zero _))

theorem movedArray_single {m : ℕ} (hd : d < m) (v : ℕ) :
    movedArray m c (Pi.single d v) = Pi.single (c + d) v := by
  show ∑ i ∈ Finset.range m, (Pi.single (i + c) ((Pi.single d v : ℕ → ℕ) i) : ℕ → ℕ) = _
  rw [Finset.sum_eq_single d]
  · rw [Pi.single_eq_same, add_comm]
  · intro i _ hne
    rw [Pi.single_eq_of_ne hne, Pi.single_zero]
  · intro hout
    exact absurd (Finset.mem_range.mpr hd) hout

theorem moved_count (hd : d < MAX_HEIGHT - c) :
    moved c (count handler d n) = count handler (c + d) n :=
  TreeStats.ext (movedArray_single hd _) (movedArray_single hd _) (movedArray_single hd _) rfl

theorem moved_levels (h : level handler (MAX_HEIGHT - c) ns = []) :
    moved c (levels handler 0 MAX_HEIGHT ns) = levels handler c (MAX_HEIGHT - c) ns := by
  rw [levels_of_nil h (Nat.sub_le _ _)]
  unfold levels
  rw [map_sum]
  apply Finset.sum_congr rfl
  intro i hi
  rw [map_list_sum, List.map_map]
  congr 1
  apply List.map_congr_left
  intro n _
  rw [comp_apply, zero_add, moved_count (Finset.mem_range.mp hi)]

/-! ### The parallel constructor -/

omit [AddCommMonoid A] in
theorem mapM_some {B C : Type} {f : C → Option B} {g : C → B} {cs : List C}
    (h : ∀ c ∈ cs, f c = some (g c)) : cs.mapM f = some (cs.map g) := by
  induction cs with
  | nil => rfl
  | cons c cs ih =>
    rw [List.mapM_cons, h c List.mem_cons_self, ih fun c hc => h c (List.mem_cons_of_mem _ hc)]
    rfl

theorem pred_zero : pred 0 = sizeMax := by
  unfold pred sizeMax
  omega

theorem pred_of_pos (hpos : 0 < c) (hc : c ≤ MAX_HEIGHT) : pred c + 1 = c := by
  unfold MAX_HEIGHT at hc
  unfold pred sizeMax
  omega

omit [AddCommMonoid A] in
theorem sum_flatMap_map {M B C : Type} [AddCommMonoid M] {f : C → List B} {stats : B → M}
    {g : C → M} {cs : List C} (h : ∀ c ∈ cs, ((f c).map stats).sum = g c) :
    ((cs.flatMap f).map stats).sum = (cs.map g).sum := by
  induction cs with
  | nil => rfl
  | cons c cs ih =>
    rw [List.flatMap_cons, List.map_append, List.sum_append, h c List.mem_cons_self,
      ih fun c hc => h c (List.mem_cons_of_mem _ hc), List.map_cons, List.sum_cons]

/-- The subtrees of a level, counted one by one and added up in any order. -/
theorem sum_subtrees {order : List (Faa A)} (hbelow : level handler (MAX_HEIGHT - c) ns = [])
    (horder : order.Perm ((ns.map fun n => levels handler 0 MAX_HEIGHT [n]).flatMap (faas c))) :
    order.foldl Faa.apply zero = levels handler c (MAX_HEIGHT - c) ns := by
  have hzero : (zero : TreeStats A) = 0 := rfl
  rw [foldl_faa, (horder.map _).sum_eq, levels_eq_sum, List.flatMap_map, hzero, zero_add]
  apply sum_flatMap_map
  intro n hn
  rw [sum_faas, moved_levels (level_mem hbelow hn)]

/-- **What the parallel constructor may end with**: the levels, counted twice if the root has no
child. -/
theorem Parallel.eq {ompThreads : ℕ} (h : Parallel handler ompThreads root ts)
    (hheight : level handler MAX_HEIGHT [root] = []) (hthreads : 0 < ompThreads) :
    children handler root ≠ [] ∧ ts = levels handler 0 MAX_HEIGHT [root] ∨
    children handler root = [] ∧
      ts = levels handler 0 MAX_HEIGHT [root] + levels handler 0 MAX_HEIGHT [root] := by
  obtain ⟨fuel, b, subtrees, order, hbfs, hmap, horder, hrest⟩ := h
  have hout : b.Out handler _ root := Bfs.inv_init.bfs_out hbfs
  have hc : b.currDepth ≤ MAX_HEIGHT := by
    by_contra hlt
    exact hout.ne (level_eq_nil hheight (not_le.mp hlt).le)
  have hbelow : level handler (MAX_HEIGHT - b.currDepth) (level handler b.currDepth [root]) =
      [] := by
    rw [← level_add, Nat.add_sub_cancel' hc, hheight]
  have hall : ∀ n ∈ level handler b.currDepth [root], sequential handler n =
      some (levels handler 0 MAX_HEIGHT [n]) := fun n hn =>
    sequential_eq (level_eq_nil (level_mem hbelow hn) (Nat.sub_le _ _))
  rw [hout.subtrees, mapM_some hall] at hmap
  rw [← Option.some.inj hmap] at horder
  rw [sum_subtrees hbelow horder, computeStats_eq (.inl hheight)] at hrest
  have hts := (Option.some.inj hrest).symm
  rw [Nat.sub_zero] at hts
  by_cases hzero : b.currDepth = 0
  · -- the counter wraps around
    refine .inr ⟨?_, ?_⟩
    · by_contra hne
      have hle := hout.top hzero hne
      omega
    · have hmin : min MAX_HEIGHT (sizeMax + 1) = MAX_HEIGHT := by
        unfold MAX_HEIGHT sizeMax
        omega
      rwa [hzero, pred_zero, hmin, level_zero, Nat.sub_zero] at hts
  · have hpos := Nat.pos_of_ne_zero hzero
    refine .inl ⟨fun hnone => hout.ne ?_, ?_⟩
    · refine level_eq_nil (d := 1) ?_ hpos
      rw [level_succ, List.flatMap_singleton, hnone, level_nil]
    · have hadd : levels handler 0 (b.currDepth + (MAX_HEIGHT - b.currDepth)) [root] = _ :=
        levels_add
      rw [zero_add, Nat.add_sub_cancel' hc] at hadd
      rw [pred_of_pos hpos hc, Nat.min_eq_right hc] at hts
      rw [hts, hadd, add_comm]

/-- There is something for the parallel constructor to end with. -/
theorem exists_parallel (ompThreads : ℕ) (hheight : level handler MAX_HEIGHT [root] = []) :
    ∃ ts, Parallel handler ompThreads root ts := by
  obtain ⟨fuel, b, hbfs⟩ : ∃ fuel b, bfs handler (4 * ompThreads) fuel (Bfs.init root) = some b :=
    Bfs.inv_init.bfs_ends (k := MAX_HEIGHT) (level_eq_nil hheight (Nat.le_add_left _ _))
  have hout := Bfs.inv_init.bfs_out hbfs
  have hall : ∀ n ∈ ((b.queue.take b.ix).drop b.ixStartOfDepth).map Prod.fst,
      sequential handler n = some (levels handler 0 MAX_HEIGHT [n]) := by
    rw [hout.subtrees]
    intro n hn
    refine sequential_eq (level_mem ?_ hn)
    rw [← level_add]
    exact level_eq_nil hheight (Nat.le_add_left _ _)
  exact ⟨_, fuel, b, _, _, hbfs, mapM_some hall, .refl _, computeStats_eq (.inl hheight)⟩

/-! ### What is read -/

/-- All that has been counted, in any count `φ`. -/
theorem map_levels {M : Type} [AddCommMonoid M] (φ : TreeStats A →+ M) :
    φ (levels handler 0 k ns) =
      ∑ i ∈ Finset.range k, ((level handler i ns).map fun n => φ (count handler i n)).sum := by
  unfold levels
  rw [map_sum]
  apply Finset.sum_congr rfl
  intro i _
  rw [map_list_sum, List.map_map, zero_add]
  rfl

omit [AddCommMonoid A] in
theorem sum_single_eq {f : N → ℕ} (hd : d < k) :
    ∑ i ∈ Finset.range k, ((level handler i ns).map fun n => (Pi.single i (f n) : ℕ → ℕ) d).sum =
      ((level handler d ns).map f).sum := by
  rw [Finset.sum_eq_single d]
  · congr 1
    apply List.map_congr_left
    intro n _
    rw [Pi.single_eq_same]
  · intro i _ hne
    apply List.sum_eq_zero
    intro x hx
    obtain ⟨n, -, rfl⟩ := List.mem_map.mp hx
    exact Pi.single_eq_of_ne hne.symm _
  · intro hout
    exact absurd (Finset.mem_range.mpr hd) hout

theorem levels_keysAtDepth (hd : d < k) : (levels handler 0 k ns).keysAtDepth d =
    ((level handler d ns).map handler.getNumKeys).sum := by
  let φ : TreeStats A →+ ℕ := ⟨⟨fun ts => ts.keysAtDepth d, rfl⟩, fun _ _ => rfl⟩
  exact (map_levels φ).trans (sum_single_eq hd)

omit [AddCommMonoid A] in
theorem sum_ite_eq_countP (p : N → Bool) :
    (ns.map fun n => if p n then 1 else 0).sum = ns.countP p := by
  induction ns with
  | nil => rfl
  | cons n ns ih => rw [List.map_cons, List.sum_cons, ih, List.countP_cons, add_comm]

theorem levels_leavesAtDepth (hd : d < k) : (levels handler 0 k ns).leavesAtDepth d =
    (level handler d ns).countP handler.isLeaf := by
  let φ : TreeStats A →+ ℕ := ⟨⟨fun ts => ts.leavesAtDepth d, rfl⟩, fun _ _ => rfl⟩
  calc (levels handler 0 k ns).leavesAtDepth d
      = ((level handler d ns).map fun n => if handler.isLeaf n then 1 else 0).sum :=
        (map_levels φ).trans (sum_single_eq hd)
    _ = (level handler d ns).countP handler.isLeaf := sum_ite_eq_countP _

theorem levels_internalsAtDepth (hd : d < k) : (levels handler 0 k ns).internalsAtDepth d =
    (level handler d ns).countP fun n => !handler.isLeaf n := by
  let φ : TreeStats A →+ ℕ := ⟨⟨fun ts => ts.internalsAtDepth d, rfl⟩, fun _ _ => rfl⟩
  have hnot : ∀ n, (if handler.isLeaf n then 0 else 1) =
      (if (!handler.isLeaf n) = true then 1 else 0) := by
    intro n
    cases handler.isLeaf n with
    | true => rfl
    | false => rfl
  calc (levels handler 0 k ns).internalsAtDepth d
      = ((level handler d ns).map fun n => if handler.isLeaf n then 0 else 1).sum :=
        (map_levels φ).trans (sum_single_eq hd)
    _ = ((level handler d ns).map fun n => if (!handler.isLeaf n) = true then 1 else 0).sum := by
        simp only [hnot]
    _ = (level handler d ns).countP fun n => !handler.isLeaf n := sum_ite_eq_countP _

theorem levels_getNodesAtDepth (hd : d < k) :
    (levels handler 0 k ns).getNodesAtDepth d = (level handler d ns).length := by
  unfold getNodesAtDepth
  rw [levels_internalsAtDepth hd, levels_leavesAtDepth hd, add_comm,
    List.length_eq_countP_add_countP handler.isLeaf]
  simp only [Bool.not_eq_true, Bool.decide_eq_false]

theorem levels_sumOfKeys : (levels handler 0 k ns).sumOfKeys =
    ∑ i ∈ Finset.range k, ((level handler i ns).map handler.getSumOfKeys).sum := by
  let φ : TreeStats A →+ A := ⟨⟨fun ts => ts.sumOfKeys, rfl⟩, fun _ _ => rfl⟩
  exact map_levels φ

/-- The loop of `getHeight` ends at the first depth without nodes. -/
theorem heightFrom_eq (hd : level handler d ns = []) (hdk : d ≤ k) (hle : c ≤ d)
    (hlt : ∀ i < d, level handler i ns ≠ []) (hroom : c + room = k) :
    (levels handler 0 k ns).heightFrom room c = d := by
  induction room generalizing c with
  | zero => exact le_antisymm hle (hdk.trans hroom.ge)
  | succ room ih =>
    have hck : c < k := by omega
    unfold heightFrom
    rw [levels_getNodesAtDepth hck]
    by_cases hcd : c = d
    · rw [hcd, hd, List.length_nil, if_neg (lt_irrefl 0)]
    · have hc : c < d := lt_of_le_of_ne hle hcd
      rw [if_pos (List.length_pos_iff.mpr (hlt c hc))]
      exact ih hc (by omega)

/-- **What the statistics say**: the height is the number of the levels that have nodes, the keys
are those of all nodes, and so are the internal nodes and the leaves. -/
theorem reads_levels (hheight : level handler MAX_HEIGHT ns = []) :
    (∀ d, d < (levels handler 0 MAX_HEIGHT ns).getHeight ↔ level handler d ns ≠ []) ∧
    (levels handler 0 MAX_HEIGHT ns).getKeys =
      ∑ d ∈ Finset.range MAX_HEIGHT, ((level handler d ns).map handler.getNumKeys).sum ∧
    (levels handler 0 MAX_HEIGHT ns).getInternals =
      ∑ d ∈ Finset.range MAX_HEIGHT, (level handler d ns).countP (fun n => !handler.isLeaf n) ∧
    (levels handler 0 MAX_HEIGHT ns).getLeaves =
      ∑ d ∈ Finset.range MAX_HEIGHT, (level handler d ns).countP handler.isLeaf := by
  classical
  -- the first level without nodes
  have hexists : ∃ d, level handler d ns = [] := ⟨_, hheight⟩
  obtain ⟨h, hh, hmin⟩ : ∃ h, level handler h ns = [] ∧ ∀ i < h, level handler i ns ≠ [] :=
    ⟨Nat.find hexists, Nat.find_spec hexists, fun i hi => Nat.find_min hexists hi⟩
  have hle : h ≤ MAX_HEIGHT := by
    by_contra hlt
    exact hmin _ (not_le.mp hlt) hheight
  have hget : (levels handler 0 MAX_HEIGHT ns).getHeight = h :=
    heightFrom_eq hh hle (Nat.zero_le _) hmin (Nat.zero_add _)
  have hsub : Finset.range h ⊆ Finset.range MAX_HEIGHT := Finset.range_subset_range.mpr hle
  have hempty : ∀ d ∈ Finset.range MAX_HEIGHT, d ∉ Finset.range h → level handler d ns = [] :=
    fun d _ hd => level_eq_nil hh (not_lt.mp fun hlt => hd (Finset.mem_range.mpr hlt))
  -- beyond the height there is nothing to add
  have hsum : ∀ {array f : ℕ → ℕ}, (∀ d < MAX_HEIGHT, array d = f d) →
      (∀ d, level handler d ns = [] → f d = 0) →
      ∑ d ∈ Finset.range h, array d = ∑ d ∈ Finset.range MAX_HEIGHT, f d := by
    intro array f harray hf
    rw [← Finset.sum_subset hsub fun d hd hout => hf d (hempty d hd hout)]
    apply Finset.sum_congr rfl
    intro d hd
    exact harray d ((Finset.mem_range.mp hd).trans_le hle)
  refine ⟨fun d => ?_, ?_, ?_, ?_⟩
  · rw [hget]
    constructor
    · exact hmin d
    · intro hne
      by_contra hlt
      exact hne (level_eq_nil hh (not_lt.mp hlt))
  · unfold getKeys
    rw [hget]
    exact hsum (fun d hd => levels_keysAtDepth hd) fun d hd => by rw [hd]; rfl
  · unfold getInternals
    rw [hget]
    exact hsum (fun d hd => levels_internalsAtDepth hd) fun d hd => by rw [hd]; rfl
  · unfold getLeaves
    rw [hget]
    exact hsum (fun d hd => levels_leavesAtDepth hd) fun d hd => by rw [hd]; rfl

/-- The root alone is counted as one node: twice its statistics are not its statistics. -/
theorem levels_ne_twice : levels handler 0 MAX_HEIGHT [root] ≠
    levels handler 0 MAX_HEIGHT [root] + levels handler 0 MAX_HEIGHT [root] := by
  intro heq
  have hone : (levels handler 0 MAX_HEIGHT [root]).getNodesAtDepth 0 = 1 :=
    levels_getNodesAtDepth MAX_HEIGHT_pos
  have hadd : ∀ ts : TreeStats A, (ts + ts).getNodesAtDepth 0 =
      ts.getNodesAtDepth 0 + ts.getNodesAtDepth 0 := fun ts =>
    Nat.add_add_add_comm _ _ _ _
  have htwo := hadd (levels handler 0 MAX_HEIGHT [root])
  rw [← heq, hone] at htwo
  exact absurd htwo (by omega)

/-- **The two constructors.** On a tree that fits into the arrays the parallel constructor ends, for
any number of threads, and whatever the order of the additions it has counted what the sequential
one counts, if and only if the root has a child. If it has none, it has counted the root twice. The
height that is read afterwards is the number of levels, the keys are those of all nodes, and so are
the internal nodes, the leaves and the sum of the keys. -/
theorem treeStats_parallel {ompThreads : ℕ} (hthreads : 0 < ompThreads)
    (hheight : level handler MAX_HEIGHT [root] = []) :
    ∃ ts, sequential handler root = some ts ∧
      (∃ ts', Parallel handler ompThreads root ts') ∧
      (∀ ts', Parallel handler ompThreads root ts' →
        (ts' = ts ↔ children handler root ≠ []) ∧ (children handler root = [] → ts' = ts + ts)) ∧
      (∀ d, d < ts.getHeight ↔ level handler d [root] ≠ []) ∧
      ts.getKeys =
        ∑ d ∈ Finset.range MAX_HEIGHT, ((level handler d [root]).map handler.getNumKeys).sum ∧
      ts.getInternals =
        ∑ d ∈ Finset.range MAX_HEIGHT, (level handler d [root]).countP (fun n => !handler.isLeaf n) ∧
      ts.getLeaves =
        ∑ d ∈ Finset.range MAX_HEIGHT, (level handler d [root]).countP handler.isLeaf ∧
      ts.sumOfKeys =
        ∑ d ∈ Finset.range MAX_HEIGHT, ((level handler d [root]).map handler.getSumOfKeys).sum := by
  obtain ⟨hget, hkeys, hinternals, hleaves⟩ := reads_levels hheight
  refine ⟨_, sequential_eq hheight, exists_parallel ompThreads hheight, fun ts' h => ?_, hget,
    hkeys, hinternals, hleaves, levels_sumOfKeys⟩
  rcases h.eq hheight hthreads with ⟨hne, heq⟩ | ⟨hnone, heq⟩
  · exact ⟨iff_of_true heq hne, fun hnone => absurd hnone hne⟩
  · refine ⟨iff_of_false (fun hone => ?_) (not_not.mpr hnone), fun _ => heq⟩
    exact levels_ne_twice (hone.symm.trans heq)

/-- A leaf on both sides of a root. -/
def twoLeaves : NodeHandler ℕ ℕ where
  isLeaf n := n == 0
  getChildIterator n := [n - 1, n - 1]
  getNumKeys n := n + 1
  getSumOfKeys n := n

theorem treeStats_parallel_twoLeaves : (∃ ts, Parallel twoLeaves 8 1 ts) ∧
    ∀ ts, Parallel twoLeaves 8 1 ts → sequential twoLeaves 1 = some ts := by
  have htwo : level twoLeaves 2 [1] = [] := rfl
  have hle : 2 ≤ MAX_HEIGHT := by
    unfold MAX_HEIGHT
    omega
  obtain ⟨ts, hts, hends, hparallel, -⟩ :=
    treeStats_parallel (by omega : 0 < 8) (level_eq_nil htwo hle)
  refine ⟨hends, fun ts' h => ?_⟩
  rw [(hparallel ts' h).1.mpr (List.cons_ne_nil _ _)]
  exact hts

end

end TreeStats
end PopSetbench

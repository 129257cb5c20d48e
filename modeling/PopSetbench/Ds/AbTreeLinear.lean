import PopSetbench.Ds.AbTreeMap
import PopSetbench.Ds.AbTreeRuns
import PopSetbench.Ds.AbTreeSetSchedule

/-!
# The relaxed (a,b)-tree: results under concurrency

A search reads nodes that may have been removed, and comes to a leaf that may not be in the tree any
more. `abTreeSet_linearizable`: its pairs are still an answer, to what was in the tree at some
moment since the search began.

What is known of a search at the node `x` is about all leaves that it may come to from there
(`Visited`): for each of them there was such a moment. A step of the search leaves it with fewer of
them. When the tree changes, the search either goes on through nodes that have been removed, which
stay as they are, or it comes to a node that is in the tree now, and then the moment is now
(`Visited.step`).
-/

namespace PopSetbench

open Function

namespace AbTree

variable {m : ℕ} {K V : Type} [LinearOrder K]

/-- The leaf with these pairs answers for the key what is in the tree. -/
structure Answers (w : World m K V) (k : K) (entries : List (K × V)) : Prop where
  sorted : (entries.map Prod.fst).Pairwise (· < ·)
  mem_iff : ∀ v, (k, v) ∈ w.tree.root.pairs ↔ (k, v) ∈ entries

section

variable {S S' : Scheme K} {w w' : World m K V} {h : ℕ} {lo : WithBot K} {hi : WithTop K}
  {n c : Node K V} {k : K} {x y ptr : ℕ} {searchKey : K} {weight : Bool}
  {entries : List (K × V)} {keys : List K} {ptrs : List (Node K V)}

omit [LinearOrder K] in
theorem mem_pairsOf {e : K × V} : e ∈ pairsOf ptrs ↔ ∃ c ∈ ptrs, e ∈ c.pairs := by
  induction ptrs with
  | nil => simp
  | cons c cs ih => simp [ih]

theorem Relaxed.pairs (hn : Relaxed S h lo hi n) : Pairs lo hi n.pairs := by
  obtain ⟨d, hd⟩ := hn.below
  exact hd.ordered.pairs

/-- A key in the range of a leaf is in the tree if it is in the leaf. -/
theorem Relaxed.mem_pairs_iff (hn : Relaxed S h lo hi n)
    (hleaf : Inside n (.leaf ptr searchKey weight entries))
    (hk : Within (S.info ptr).lo (S.info ptr).hi k) (v : V) :
    (k, v) ∈ n.pairs ↔ (k, v) ∈ entries := by
  generalize hm : Node.leaf ptr searchKey weight entries = m at hleaf
  induction hleaf generalizing h lo hi with
  | refl =>
    subst hm
    rw [pairs_leaf]
  | @child _ _ _ keys ptrs c m hc hm' ih =>
    subst hm
    obtain ⟨-, h', -, hsep⟩ := relaxed_internal.mp hn
    obtain ⟨l, u, hchild⟩ := hsep.forall_mem hc
    rw [pairs_internal, mem_pairsOf, ← ih hchild rfl]
    constructor
    · rintro ⟨c', hc', hmem⟩
      -- another child has other keys
      obtain ⟨l', u', hchild'⟩ := hsep.forall_mem hc'
      obtain ⟨hlo, hhi⟩ := hchild'.range
      have hk' := hchild'.pairs.within _ hmem
      rw [← hlo, ← hhi] at hk'
      obtain rfl := child_eq hsep hc hc' hm' .refl hk hk'
      exact hmem
    · intro hmem
      exact ⟨c, hc, hmem⟩

namespace World.Inv

variable (hw : w.Inv S)

include hw

/-- The child that a search goes on to has the key in its range, too. -/
theorem child_within (hx : w.node x = some (.internal ptr searchKey weight keys ptrs))
    (hk : Within (S.info x).lo (S.info x).hi k) (hc : ptrs[getChildIndex k keys]? = some c) :
    c.ptr < S.next ∧ Within (S.info c.ptr).lo (S.info c.ptr).hi k := by
  obtain ⟨hptr, hrec⟩ := hw.memory _ _ hx
  obtain ⟨h', -, hsep⟩ := hrec.children _ _ _ _ _ rfl
  rw [← hptr] at hk
  obtain ⟨ksL, ksR, before, d, after, l, u, rfl, rfl, hole, hd, hk'⟩ := hsep.search hk
  have hix : getChildIndex k (ksL ++ ksR) = before.length :=
    hole.findIdx_eq Labeled.exists_within hk'
  obtain rfl : d = c := by
    rw [hix] at hc
    simpa using hc
  refine ⟨hd.ptr_lt, ?_⟩
  rw [hd.info]
  exact hk'

/-- A leaf that the memory leads to from a node of the tree is in the tree. -/
theorem answers (hn : Inside w.tree.root n) (hk : Within (S.info n.ptr).lo (S.info n.ptr).hi k)
    (hlead : Leads w.node k n.ptr y) (hy : w.node y = some (.leaf ptr searchKey weight entries)) :
    Answers w k entries := by
  generalize hx : n.ptr = x at hlead
  induction hlead generalizing n with
  | here =>
    subst hx
    have hleaf := hw.node_inside hn
    rw [hy] at hleaf
    obtain rfl := Option.some.inj hleaf
    obtain ⟨h, hroot⟩ := hw.regular.root
    obtain ⟨_, _, _, hrel⟩ := hn.relaxed hroot
    exact ⟨(relaxed_leaf.mp hrel).2.2.sorted, hroot.mem_pairs_iff hn hk⟩
  | @step x y _ _ _ keys ptrs c hnode hc rest ih =>
    subst hx
    have hnode' := hw.node_inside hn
    rw [hnode] at hnode'
    obtain rfl := Option.some.inj hnode'
    have hchild := hw.child_within hnode hk hc
    exact ih (hn.trans (.child (List.mem_of_getElem? hc) .refl)) hchild.2 hy rfl

end World.Inv

omit [LinearOrder K] in
theorem commit_node_of_none {t : Fin m} {tree : State K V} {tasks : List (Task K V)}
    (hx : tree.root.find? x = none) : (w.commit t tree tasks).node x = w.node x := by
  show (tree.root.find? x).or (w.node x) = w.node x
  rw [hx]
  rfl

section

variable {degree : ℕ} {t q : Fin m} {act : Act K V}

/-- What is not in the tree after a step stays as it was. -/
theorem Step.node_eq (hstep : Step degree w t act w') (hx : w'.tree.root.find? x = none) :
    w'.node x = w.node x := by
  cases hstep with
  | insertScx | eraseScx | weightScx | degreeScx => exact commit_node_of_none hx
  | _ => rfl

theorem Step.todo_of_ne (hstep : Step degree w t act w') (hq : q ≠ t) : w'.todo q = w.todo q := by
  cases hstep with
  | degreeMissing => rfl
  | _ => exact update_of_ne hq ..

end

end

end AbTree

namespace AbTreeSet

open AbTree (World Act Goal Cursor Task Frame Node Scheme Answers Leads Inside getChildIndex
  getKeyIndex pairAt entry)

variable {m : ℕ} {K V : Type}

/-- What the search of an update is for. -/
def goal? : Op K V → Option (Goal K V)
  | .contains _ => none
  | .insert key value => some (.insert key value false)
  | .erase key => some (.erase key)

/-- The update has not left its search. -/
def Searching (goal : Goal K V) (todo : List (Task K V)) : Prop :=
  todo = [.loop goal] ∨ ∃ k c, todo = [.search goal k c]

section

variable [LinearOrder K]

/-- **What is known of a search** at the node `x`: each leaf that it may come to has been an
answer. -/
def Visited (w : World m K V) (H : List (State m K V × (Fin m × Event ℕ K V) × State m K V))
    (k : K) (x : ℕ) : Prop :=
  ∀ y ptr searchKey weight entries, Leads w.node k x y →
    w.node y = some (.leaf ptr searchKey weight entries) →
    Sometime (fun s => Answers s.world k entries) H

/-- The invariant. -/
structure Inv (S : Scheme K) (s : State m K V) : Prop where
  world : s.world.Inv S
  find : ∀ t key l, s.pc t = .find key (some l) →
    l < S.next ∧ Within (S.info l).lo (S.info l).hi key
  todo : ∀ t op, s.pc t = .update op none →
    ∃ goal, goal? op = some goal ∧ Searching goal (s.world.todo t)

/-- What is known of the operation of thread `t`, by where it is. -/
def Seen (s : State m K V) (H : List (State m K V × (Fin m × Event ℕ K V) × State m K V))
    (t : Fin m) : Pc K V → Prop
  | .find key (some l) => Visited s.world H key l
  | .update _ none => ∀ goal k c, s.world.todo t = [.search goal k c] → Visited s.world H k c.l
  | .update op (some r) => Explained Contents id t H op r
  | .ret op r => Explained Contents id t H op r
  | _ => True

end

section

variable [LinearOrder K] {degree : ℕ} {S S' : Scheme K} {s s' : State m K V} {t q : Fin m}
  {e : Event ℕ K V} {a : Fin m × Event ℕ K V} {k key : K} {x ptr : ℕ} {searchKey : K}
  {weight : Bool} {keys : List K} {ptrs : List (Node K V)} {entries : List (K × V)}
  {n : Node K V} {goal : Goal K V} {op : Op K V} {r : Ret V} {w w' : World m K V} {act : Act K V}
  {p : Pc K V}
  {H : List (State m K V × (Fin m × Event ℕ K V) × State m K V)}

/-! ### Searches -/

/-- A search begins at the root: it may come to the leaves of the tree. -/
theorem Visited.start {s₀ : State m K V} (hw : s.world.Inv S) :
    Visited s.world ((s₀, a, s) :: H) k s.world.tree.root.ptr := by
  intro y ptr searchKey weight entries hlead hy
  obtain ⟨h, hroot⟩ := hw.regular.root
  obtain ⟨hlo, hhi⟩ := hroot.range
  refine .now (hw.answers .refl ?_ hlead hy)
  rw [hlo, hhi]
  exact within_bot_top

/-- It goes on to a child. -/
theorem Visited.child (h : Visited w H k x)
    (hx : w.node x = some (.internal ptr searchKey weight keys ptrs))
    (hc : ptrs[getChildIndex k keys]? = some n) : Visited w H k n.ptr :=
  fun y ptr searchKey weight entries hlead hy => h y ptr searchKey weight entries
    (.step hx hc hlead) hy

/-- **The tree changes.** The search comes through removed nodes to the leaf, or to a node that is
in the tree now. -/
theorem Visited.step (hw : s.world.Inv S) (hw' : s'.world.Inv S') (hS : S.Extends S')
    (hold : ∀ y, s'.world.tree.root.find? y = none → s'.world.node y = s.world.node y)
    (hx : x < S.next) (hk : Within (S.info x).lo (S.info x).hi k) (h : Visited s.world H k x) :
    Visited s'.world ((s, a, s') :: H) k x := by
  intro y ptr searchKey weight entries hlead hy
  -- from a node that is in the tree
  have hnow : ∀ {x n}, x < S.next → Within (S.info x).lo (S.info x).hi k →
      s'.world.tree.root.find? x = some n → Leads s'.world.node k x y →
      Sometime (fun s => Answers s.world k entries) ((s, a, s') :: H) := by
    intro x n hx hk hfind hlead
    obtain ⟨hinside, rfl⟩ := Node.find?_some hfind
    refine .now (hw'.answers hinside ?_ hlead hy)
    rwa [hS.info _ hx]
  induction hlead with
  | @here x =>
    cases hfind : s'.world.tree.root.find? x with
    | none =>
      rw [hold x hfind] at hy
      exact (h x ptr searchKey weight entries .here hy).cons
    | some n => exact hnow hx hk hfind .here
  | @step x y _ _ _ keys ptrs c hnode hc rest ih =>
    cases hfind : s'.world.tree.root.find? x with
    | none =>
      rw [hold x hfind] at hnode
      have hchild := hw.child_within hnode hk hc
      exact ih hchild.1 hchild.2 (h.child hnode hc) hy hnow
    | some n => exact hnow hx hk hfind (.step hnode hc rest)

/-! ### The steps -/

/-- What a step in the tree does to a search of an update that it does not end. -/
inductive Moves (w : World m K V) (goal : Goal K V) (todo : List (Task K V)) :
    List (Task K V) → Prop
  | retry : Moves w goal todo [.loop goal]
  | start (k : K) (hk : w.key goal = some k) :
      Moves w goal todo [.search goal k ⟨none, entry, w.tree.root.ptr, 0⟩]
  | advance (k : K) (c c' : Cursor) (ptr : ℕ) (searchKey : K) (weight : Bool) (keys : List K)
      (ptrs : List (Node K V)) (n : Node K V) (htodo : todo = [.search goal k c])
      (hl : w.node c.l = some (.internal ptr searchKey weight keys ptrs))
      (hc : ptrs[getChildIndex k keys]? = some n) (hc' : c'.l = n.ptr) :
      Moves w goal todo [.search goal k c']

omit [LinearOrder K] in
theorem stop_of_goal? (hgoal : goal? op = some goal) : goal.stop = none := by
  cases op with
  | contains key => cases hgoal
  | insert key value =>
    obtain rfl := Option.some.inj hgoal
    rfl
  | erase key =>
    obtain rfl := Option.some.inj hgoal
    rfl

/-- The search of an update goes on, in the same tree. -/
theorem moves_of_step (hs : AbTree.Step degree w t act w') (hact : Repairs act)
    (hgoal : goal.stop = none) (htodo : Searching goal (w.todo t)) (hne : w'.todo t ≠ []) :
    w'.tree = w.tree ∧ w'.node = w.node ∧ Moves w goal (w.todo t) (w'.todo t) := by
  have hempty : w.todo t ≠ [] := by
    rcases htodo with h | ⟨k, c, h⟩
    · rw [h]
      exact List.cons_ne_nil _ _
    · rw [h]
      exact List.cons_ne_nil _ _
  -- the one task of the thread is its search
  have hloop : ∀ {g rest}, w.todo t = .loop g :: rest → g = goal ∧ rest = [] := by
    intro g rest heq
    rcases htodo with h | ⟨k, c, h⟩
    · rw [h] at heq
      obtain ⟨h₁, rfl⟩ := List.cons.inj heq
      exact ⟨(Task.loop.inj h₁).symm, rfl⟩
    · rw [h] at heq
      cases (List.cons.inj heq).1
  have hsearch : ∀ {g k c rest}, w.todo t = .search g k c :: rest → g = goal ∧ rest = [] := by
    intro g k c rest heq
    rcases htodo with h | ⟨k, c, h⟩
    · rw [h] at heq
      cases (List.cons.inj heq).1
    · rw [h] at heq
      obtain ⟨h₁, rfl⟩ := List.cons.inj heq
      exact ⟨(Task.search.inj h₁).1.symm, rfl⟩
  -- so it has no other kind of task
  have hother : ∀ {task rest}, w.todo t = task :: rest → (∀ g, task ≠ .loop g) →
      (∀ g k c, task ≠ .search g k c) → False := by
    intro task rest heq h₁ h₂
    rcases htodo with h | ⟨k, c, h⟩
    · rw [h] at heq
      exact h₁ _ (List.cons.inj heq).1.symm
    · rw [h] at heq
      exact h₂ _ _ _ (List.cons.inj heq).1.symm
  cases hs with
  -- an operation begins only where there is nothing to do
  | insert key value replace h => exact absurd h hempty
  | erase key h => exact absurd h hempty
  | start h hk =>
    -- the search begins at the entry
    obtain ⟨rfl, rfl⟩ := hloop h
    refine ⟨rfl, rfl, ?_⟩
    show Moves w _ (w.todo t) (update w.todo t _ t)
    rw [update_self]
    exact .start _ hk
  | advance h hl hstop hchild =>
    -- it goes one node down
    obtain ⟨rfl, rfl⟩ := hsearch h
    refine ⟨rfl, rfl, ?_⟩
    show Moves w _ (w.todo t) (update w.todo t _ t)
    rw [update_self]
    exact .advance _ _ _ _ _ _ _ _ _ h hl hchild rfl
  | retry h hend =>
    -- it begins again
    obtain ⟨rfl, rfl⟩ := hsearch h
    refine ⟨rfl, rfl, ?_⟩
    show Moves w _ (w.todo t) (update w.todo t _ t)
    rw [update_self]
    exact .retry
  | found h hl hpair =>
    -- the operation is over
    obtain ⟨-, rfl⟩ := hsearch h
    exact absurd (update_self ..) hne
  | missing h hl hpair =>
    obtain ⟨-, rfl⟩ := hsearch h
    exact absurd (update_self ..) hne
  -- an update of its own is not meant here
  | insertScx => exact hact.elim
  | eraseScx => exact hact.elim
  | handOver h hstop hend hne' =>
    -- an update looks for its key and for no node
    obtain ⟨rfl, -⟩ := hsearch h
    rw [hgoal] at hstop
    cases hstop
  | weightParent h hp hweight | weightScx h hat hgp hweight hres | degreeWeights h hp hl hs hweight
  | degreeMissing h hp hs | degreeScx h hat hgp hs hweight hres =>
    obtain ⟨rfl, -⟩ := hsearch h
    cases hgoal
  | fixWeightReturn h hv hweight | fixWeight h hv hweight | fixDegreeReturn h hv hsize
  | fixDegree h hv hsize | llxFinalized h hstop hfin | llx h hstop hfin =>
    -- these are steps of repairs that have not begun a search
    exact (hother h (by simp) (by simp)).elim

/-- A step is one in the tree, or leaves the tree as it is. -/
theorem Step.world (hs : Step degree s t e s') :
    s'.world = s.world ∨ ∃ act, AbTree.Step degree s.world t act s'.world := by
  cases hs with
  | invokeInsert key value hpc htodo => exact .inr ⟨_, .insert key value false htodo⟩
  | invokeErase key hpc htodo => exact .inr ⟨_, .erase key htodo⟩
  | work op r act w hpc htodo hs hact hr => exact .inr ⟨act, hs⟩
  | found key value k c rest ptr searchKey weight entries e hpc htodo hl hpair =>
    exact .inr ⟨_, .found htodo hl hpair⟩
  | missing key k c rest ptr searchKey weight entries hpc htodo hl hpair =>
    exact .inr ⟨_, .missing htodo hl hpair⟩
  | insertScx key value k c rest path ptr searchKey weight entries tree task hpc htodo hat hstep =>
    exact .inr ⟨_, .insertScx htodo hat hstep⟩
  | eraseScx key k c rest path ptr searchKey weight entries tree task e hpc htodo hat hpair hstep =>
    exact .inr ⟨_, .eraseScx htodo hat hstep⟩
  | _ => exact .inl rfl

theorem Step.pc_of_ne (hs : Step degree s t e s') (hq : q ≠ t) : s'.pc q = s.pc q := by
  cases hs <;> exact update_of_ne hq ..

/-- What a step does to the tree, the memory and the others. -/
structure Changes (S S' : Scheme K) (s : State m K V) (t : Fin m) (s' : State m K V) : Prop where
  record : S.Extends S'
  world : s'.world.Inv S'
  node : ∀ y, s'.world.tree.root.find? y = none → s'.world.node y = s.world.node y
  pc : ∀ q, q ≠ t → s'.pc q = s.pc q
  todo : ∀ q, q ≠ t → s'.world.todo q = s.world.todo q

theorem Step.changes (hs : Step S.degree s t e s') (hw : s.world.Inv S) (hleast : S.least ≤ 1) :
    ∃ S', Changes S S' s t s' := by
  rcases hs.world with hworld | ⟨act, hact⟩
  · refine ⟨S, .refl, ?_, fun y _ => ?_, fun q hq => hs.pc_of_ne hq, fun q _ => ?_⟩
    · rwa [hworld]
    · rw [hworld]
    · rw [hworld]
  · obtain ⟨S', hS, hw', -⟩ := hw.step (.inl hleast) hact
    exact ⟨S', hS, hw', fun y hy => hact.node_eq hy, fun q hq => hs.pc_of_ne hq,
      fun q hq => hact.todo_of_ne hq⟩

/-- A thread that is in `find`. -/
theorem Step.find (hs : Step degree s t e s') (hinv : Inv S s)
    (hpc : s'.pc t = .find key (some x)) : x < S.next ∧ Within (S.info x).lo (S.info x).hi key := by
  cases hs with
  | findEntry key' hpc' =>
    rw [State.goto_pc_self] at hpc
    obtain ⟨rfl, hx⟩ := Pc.find.inj hpc
    obtain rfl := Option.some.inj hx
    obtain ⟨h, hroot⟩ := hinv.world.regular.root
    obtain ⟨hlo, hhi⟩ := hroot.range
    refine ⟨hroot.label.ptr_lt, ?_⟩
    rw [hlo, hhi]
    exact within_bot_top
  | findChild key' l ptr searchKey weight keys ptrs n hpc' hl hc =>
    rw [State.goto_pc_self] at hpc
    obtain ⟨rfl, hx⟩ := Pc.find.inj hpc
    obtain rfl := Option.some.inj hx
    exact hinv.world.child_within hl (hinv.find t _ _ hpc').2 hc
  | invokeContains | findLeaf | finish | ret =>
    rw [State.goto_pc_self] at hpc
    cases hpc
  | _ =>
    rw [State.move_pc_self] at hpc
    cases hpc

/-- A thread that is in the search of an update. -/
theorem Step.searching (hs : Step degree s t e s') (hinv : Inv S s)
    (hpc : s'.pc t = .update op none) :
    ∃ goal, goal? op = some goal ∧ Searching goal (s'.world.todo t) := by
  cases hs with
  | invokeInsert key value hpc' htodo =>
    rw [State.move_pc_self] at hpc
    obtain ⟨rfl, -⟩ := Pc.update.inj hpc
    exact ⟨_, rfl, .inl (update_self ..)⟩
  | invokeErase key hpc' htodo =>
    rw [State.move_pc_self] at hpc
    obtain ⟨rfl, -⟩ := Pc.update.inj hpc
    exact ⟨_, rfl, .inl (update_self ..)⟩
  | work op' r act w hpc' htodo hs hact hr =>
    rw [State.move_pc_self] at hpc
    obtain ⟨rfl, rfl⟩ := Pc.update.inj hpc
    obtain ⟨goal, hgoal, hsearch⟩ := hinv.todo t _ hpc'
    refine ⟨goal, hgoal, ?_⟩
    obtain ⟨-, -, hmoves⟩ := moves_of_step hs hact (stop_of_goal? hgoal) hsearch (hr rfl)
    show Searching goal (w.todo t)
    generalize w.todo t = todo at hmoves
    cases hmoves with
    | retry => exact .inl rfl
    | start k hk => exact .inr ⟨_, _, rfl⟩
    | advance k c c' => exact .inr ⟨_, _, rfl⟩
  | invokeContains | findEntry | findChild | findLeaf | finish | ret =>
    rw [State.goto_pc_self] at hpc
    cases hpc
  | found | missing | insertScx | eraseScx =>
    rw [State.move_pc_self] at hpc
    obtain ⟨-, h⟩ := Pc.update.inj hpc
    cases h

/-- **Every step keeps the invariant.** -/
theorem Inv.step (hinv : Inv S s) (hs : Step S.degree s t e s') (c : Changes S S' s t s') :
    Inv S' s' where
  world := c.world
  find q key l hpc := by
    have hfind : l < S.next ∧ Within (S.info l).lo (S.info l).hi key := by
      by_cases hq : q = t
      · subst hq
        exact hs.find hinv hpc
      · rw [c.pc q hq] at hpc
        exact hinv.find q key l hpc
    rw [c.record.info _ hfind.1]
    exact ⟨hfind.1.trans_le c.record.next, hfind.2⟩
  todo q op hpc := by
    by_cases hq : q = t
    · subst hq
      exact hs.searching hinv hpc
    · rw [c.pc q hq] at hpc
      rw [c.todo q hq]
      exact hinv.todo q op hpc

/-! ### What is known of the operations -/

theorem Visited.cons (hnode : w'.node = w.node) (h : Visited w H k x) :
    Visited w' ((s, a, s') :: H) k x := by
  intro y ptr searchKey weight entries hlead hy
  rw [hnode] at hlead hy
  exact (h y ptr searchKey weight entries hlead hy).cons

/-- A sorted leaf without the key at its place does not have it. -/
theorem not_mem_of_pairAt (hsorted : (entries.map Prod.fst).Pairwise (· < ·))
    (hpair : pairAt entries (getKeyIndex k (entries.map Prod.fst)) k = none) (v : V) :
    (k, v) ∉ entries := by
  intro hmem
  have hpairs : AbTree.Pairs ⊥ ⊤ entries := ⟨hsorted, fun _ _ => within_bot_top⟩
  have hleaf : AbTree.Ordered 0 ⊥ ⊤ (AbTree.plug [] (.leaf 0 k true entries)) :=
    AbTree.ordered_leaf.mpr hpairs
  apply AbTree.absent_of_pairAt hleaf within_bot_top hpair (k, v)
  · show (k, v) ∈ (Node.leaf 0 k true entries).pairs
    rwa [AbTree.pairs_leaf]
  · rfl

theorem mem_of_pairAt {i : ℕ} {e : K × V} (hpair : pairAt entries i k = some e) :
    (k, e.2) ∈ entries := by
  have hmem := List.mem_of_getElem? (AbTree.pairAt_eq_some hpair)
  rwa [← AbTree.pairAt_key hpair]

/-- The leaf has the key. -/
theorem sometime_contains {i : ℕ} {e : K × V} (hpair : pairAt entries i k = some e)
    (h : Sometime (fun s => Answers s.world k entries) H) :
    Sometime (fun s => Contents s k e.2) H :=
  h.mono fun _ hans => (hans.mem_iff e.2).mpr (mem_of_pairAt hpair)

/-- The leaf does not have the key. -/
theorem sometime_absent (hpair : pairAt entries (getKeyIndex k (entries.map Prod.fst)) k = none)
    (h : Sometime (fun s => Answers s.world k entries) H) :
    Sometime (fun s => ∀ v, ¬ Contents s k v) H := by
  refine h.mono fun s hans v hv => ?_
  exact not_mem_of_pairAt hans.sorted hpair v ((hans.mem_iff v).mp hv)

/-- At the end of a search of an update. -/
theorem Inv.search {c : Cursor} {rest : List (Task K V)} (hinv : Inv S s)
    (hpc : s.pc t = .update op none) (htodo : s.world.todo t = .search goal k c :: rest) :
    rest = [] ∧ c.Fits S s.world.tree s.world.node goal k := by
  constructor
  · obtain ⟨goal', -, hsearch | ⟨k', c', hsearch⟩⟩ := hinv.todo t op hpc
    · rw [hsearch] at htodo
      cases (List.cons.inj htodo).1
    · rw [hsearch] at htodo
      exact (List.cons.inj htodo).2.symm
  · apply hinv.world.tasks t (.search goal k c)
    rw [htodo]
    exact List.mem_cons_self

/-- The leaf of a search that has ended has been an answer. -/
theorem Seen.answers {c : Cursor} {rest : List (Task K V)} (hinv : Inv S s)
    (h : Seen s H t (.update op none)) (hpc : s.pc t = .update op none)
    (htodo : s.world.todo t = .search goal k c :: rest)
    (hl : s.world.node c.l = some (.leaf ptr searchKey weight entries)) :
    Sometime (fun s => Answers s.world k entries) H := by
  obtain ⟨rfl, -⟩ := hinv.search hpc htodo
  exact h goal k c htodo c.l ptr searchKey weight entries .here hl

/-- What is in the tree, at the leaf that a `scxExecute` is about to replace. -/
theorem contents_iff {c : Cursor} {path : List (Frame K V)} (hw : s.world.Inv S)
    (hat : s.world.At c path (.leaf ptr searchKey weight entries))
    (hk : Within (S.info c.l).lo (S.info c.l).hi k) :
    (entries.map Prod.fst).Pairwise (· < ·) ∧ ∀ v, Contents s k v ↔ (k, v) ∈ entries := by
  obtain ⟨h, hroot⟩ := hw.regular.root
  obtain ⟨hinside, -⟩ := hw.at_inside hat
  obtain ⟨_, _, _, hrel⟩ := hinside.relaxed hroot
  rw [← hat.l] at hk
  exact ⟨(AbTree.relaxed_leaf.mp hrel).2.2.sorted, hroot.mem_pairs_iff hinside hk⟩

/-- `doInsert` has not found the key in a leaf of the tree: it is not in the tree. -/
theorem Inv.absent {c : Cursor} {rest : List (Task K V)} {path : List (Frame K V)} {value : V}
    {tree : AbTree.State K V} {task : Task K V} (hinv : Inv S s)
    (hpc : s.pc t = .update (.insert key value) none)
    (htodo : s.world.todo t = .search (.insert key value false) k c :: rest)
    (hat : s.world.At c path (.leaf ptr searchKey weight entries))
    (hstep : AbTree.insertStep degree s.world.tree path searchKey weight entries key value false =
      some (tree, task)) (v : V) : ¬ Contents s key v := by
  have hfits := (hinv.search hpc htodo).2
  obtain rfl : k = key := hfits.seeks
  obtain ⟨hsorted, hin⟩ := contents_iff hinv.world hat hfits.within
  have hpair : pairAt entries (getKeyIndex k (entries.map Prod.fst)) k = none := by
    by_contra hne
    obtain ⟨e, hpair⟩ := Option.ne_none_iff_exists'.mp hne
    unfold AbTree.insertStep at hstep
    simp only [hpair, Bool.false_eq_true, if_false] at hstep
    cases hstep
  intro hv
  exact not_mem_of_pairAt hsorted hpair v ((hin v).mp hv)

/-- **The operation of another thread** is known as well as before. -/
theorem Seen.other (hinv : Inv S s) (c : Changes S S' s t s') (hq : q ≠ t)
    (h : Seen s H q (s.pc q)) : Seen s' ((s, a, s') :: H) q (s'.pc q) := by
  rw [c.pc q hq]
  generalize hp : s.pc q = p at h
  match p with
  | .idle | .find _ none => exact trivial
  | .find key (some l) =>
    obtain ⟨hlt, hk⟩ := hinv.find q key l hp
    exact Visited.step hinv.world c.world c.record c.node hlt hk h
  | .update op none =>
    intro goal k cursor htodo
    rw [c.todo q hq] at htodo
    obtain ⟨-, hfits⟩ := hinv.search hp htodo
    exact (h goal k cursor htodo).step hinv.world c.world c.record c.node hfits.lt hfits.within
  | .update op (some r) => exact Explained.cons h
  | .ret op r => exact Explained.cons h

/-- The search of an update goes on. -/
theorem Seen.work (hinv : Inv S s) (hw : w.Inv S') (hs : AbTree.Step degree s.world t act w)
    (hact : Repairs act) (hpc : s.pc t = .update op none) (hne : w.todo t ≠ [])
    (h : Seen s H t (.update op none)) :
    Seen (s.move t w p) ((s, a, s.move t w p) :: H) t (.update op none) := by
  obtain ⟨goal, hgoal, hsearch⟩ := hinv.todo t op hpc
  obtain ⟨htree, hnode, hmoves⟩ := moves_of_step hs hact (stop_of_goal? hgoal) hsearch hne
  intro goal' k' c htodo
  change w.todo t = _ at htodo
  rw [htodo] at hmoves
  cases hmoves with
  | start k hk =>
    rw [← htree]
    exact Visited.start hw
  | advance k c' _ ptr searchKey weight keys ptrs n htodo' hl hc hc' =>
    rw [hc']
    exact ((h _ _ _ htodo').child hl hc).cons hnode

/-- **The operation of the thread that makes the step.** -/
theorem Seen.step (hinv : Inv S s) (hs : Step S.degree s t e s') (c : Changes S S' s t s')
    (h : Seen s H t (s.pc t)) :
    Seen s' ((s, (t, e), s') :: bif invokedBy t (t, e) then [] else H) t (s'.pc t) := by
  cases hs with
  | invokeContains key hpc =>
    rw [State.goto_pc_self]
    exact trivial
  | findEntry key hpc =>
    -- the search begins at the entry, which is in the tree
    rw [State.goto_pc_self]
    exact Visited.start c.world
  | findChild key l ptr searchKey weight keys ptrs n hpc hl hc =>
    -- the child was in the tree at some moment of the call, since the node was
    rw [hpc] at h
    rw [State.goto_pc_self]
    exact (Visited.child h hl hc).cons rfl
  | findLeaf key l ptr searchKey weight entries hpc hl =>
    -- the leaf was in the tree at some moment, and answers for that one
    rw [hpc] at h
    rw [State.goto_pc_self]
    have hsome := h l ptr searchKey weight entries .here hl
    apply Explained.cons
    cases hpair : pairAt entries (getKeyIndex key (entries.map Prod.fst)) key with
    | none => exact sometime_absent hpair hsome
    | some e =>
      show Sometime (fun s => ∃ v, Contents s key v) H
      exact (sometime_contains hpair hsome).mono fun s hv => ⟨e.2, hv⟩
  | invokeInsert key value hpc htodo | invokeErase key hpc htodo =>
    -- the search has not begun
    rw [State.move_pc_self]
    intro goal k c' htodo'
    change update s.world.todo t _ t = _ at htodo'
    rw [update_self] at htodo'
    cases (List.cons.inj htodo').1
  | work op r act w hpc htodo hs hact hr =>
    rw [hpc] at h
    rw [State.move_pc_self]
    -- the search goes on, or the repair behind the update
    cases r with
    | none => exact h.work hinv c.world hs hact hpc (hr rfl)
    | some r => exact Explained.cons h
  | found key value k c' rest ptr searchKey weight entries e hpc htodo hl hpair =>
    -- the leaf was in the tree at some moment, and had the key
    rw [hpc] at h
    rw [State.move_pc_self]
    obtain rfl : k = key := (hinv.search hpc htodo).2.seeks
    exact (sometime_contains hpair (h.answers hinv hpc htodo hl)).cons
  | missing key k c' rest ptr searchKey weight entries hpc htodo hl hpair =>
    -- the leaf was in the tree at some moment, and did not have the key
    rw [hpc] at h
    rw [State.move_pc_self]
    obtain rfl : k = key := (hinv.search hpc htodo).2.seeks
    exact (sometime_absent hpair (h.answers hinv hpc htodo hl)).cons
  | insertScx key value k c' rest path ptr searchKey weight entries tree task hpc htodo hat hstep =>
    -- the leaf is in the tree now and does not have the key: the SCX puts it in
    rw [State.move_pc_self]
    obtain rfl : k = key := (hinv.search hpc htodo).2.seeks
    have habs := hinv.absent hpc htodo hat hstep
    have hkeeps : AbTree.Inserted k value _ _ :=
      hinv.world.keeps c.world (.insertScx htodo hat hstep)
    apply Explained.insert_now habs
    intro k' v
    refine (hkeeps (k', v)).trans ⟨?_, ?_⟩
    · rintro (heq | ⟨hmem, -⟩)
      · exact .inr (Prod.mk.inj heq)
      · exact .inl hmem
    · rintro (hmem | ⟨rfl, rfl⟩)
      · refine .inr ⟨hmem, ?_⟩
        rintro rfl
        exact habs v hmem
      · exact .inl rfl
  | eraseScx key k c' rest path ptr searchKey weight entries tree task e hpc htodo hat hpair
      hstep =>
    -- the leaf is in the tree now and has the key: the SCX takes it out
    rw [State.move_pc_self]
    have hfits := (hinv.search hpc htodo).2
    obtain rfl : k = key := hfits.seeks
    obtain ⟨-, hin⟩ := contents_iff hinv.world hat hfits.within
    have hkeeps : AbTree.Erased k _ _ := hinv.world.keeps c.world (.eraseScx htodo hat hstep)
    apply Explained.erase_now
    · exact (hin e.2).mpr (mem_of_pairAt hpair)
    · exact fun k' v => hkeeps.mem_iff (k', v)
  | finish op r hpc htodo =>
    rw [hpc] at h
    rw [State.goto_pc_self]
    exact Explained.cons h
  | ret op r hpc =>
    rw [State.goto_pc_self]
    exact trivial

/-- Behind the constructor. -/
theorem exists_inv_init (hdegree : 3 ≤ degree) (h : (lts m K V degree).init s) :
    ∃ S : Scheme K, S.degree = degree ∧ S.least = 1 ∧ Inv S s := by
  obtain ⟨⟨anyKey, hworld⟩, hpc⟩ := h
  obtain ⟨S, hS, hleast, hw⟩ := AbTree.inv_init hdegree Nat.one_lt_two.le anyKey
  refine ⟨S, hS, hleast, ?_, fun q key l hq => ?_, fun q op hq => ?_⟩
  · rwa [hworld]
  · rw [hpc q] at hq
    cases hq
  · rw [hpc q] at hq
    cases hq

/-- What is known in every run. -/
theorem exists_inv (hdegree : 3 ≤ degree)
    (h : ((lts m K V degree).since (invokedBy t)).Reachable (s, H)) :
    ∃ S : Scheme K, S.degree = degree ∧ Inv S s ∧ Seen s H t (s.pc t) := by
  have hinv : ∃ S : Scheme K, S.degree = degree ∧ S.least = 1 ∧ Inv S s ∧ Seen s H t (s.pc t) := by
    refine h.invariant (P := fun x => ∃ S : Scheme K,
      S.degree = degree ∧ S.least = 1 ∧ Inv S x.1 ∧ Seen x.1 x.2 t (x.1.pc t)) ?_ ?_
    · rintro ⟨s, H⟩ ⟨hinit, -⟩
      obtain ⟨S, hS, hleast, hinv⟩ := exists_inv_init hdegree hinit
      refine ⟨S, hS, hleast, hinv, ?_⟩
      show Seen s H t (s.pc t)
      rw [hinit.2 t]
      exact trivial
    · rintro ⟨s, H⟩ ⟨q, e⟩ ⟨s', H'⟩ - ⟨S, rfl, hleast, hinv, hseen⟩ - ⟨⟨-, hs⟩, hH⟩
      change H' = (s, (q, e), s') :: bif invokedBy t (q, e) then [] else H at hH
      subst hH
      obtain ⟨S', c⟩ := Step.changes hs hinv.world hleast.le
      refine ⟨S', c.record.degree, c.record.least.trans hleast, hinv.step hs c, ?_⟩
      by_cases hq : t = q
      · subst hq
        exact hseen.step hinv hs c
      · have hstart : invokedBy t (q, e) = false := by
          cases e with
          | invoke op => exact decide_eq_false (Ne.symm hq)
          | _ => rfl
        show Seen s' ((s, (q, e), s') :: bif invokedBy t (q, e) then [] else H) t (s'.pc t)
        rw [hstart]
        exact hseen.other hinv c hq
  obtain ⟨S, hS, -, hinv, hseen⟩ := hinv
  exact ⟨S, hS, hinv, hseen⟩

/-- **The relaxed (a,b)-tree is a linearizable set.** In every run, with any number of threads, the
result of an operation is explained by a moment, or by a step of its own, between its invocation and
its return. -/
theorem abTreeSet_linearizable (hdegree : 3 ≤ degree)
    (h : ((lts m K V degree).since (invokedBy t)).Reachable (s, H)) (op : Op K V) (r : Ret V)
    (s' : State m K V) (hs : Step degree s t (.ret op r) s') : Explained Contents id t H op r := by
  obtain ⟨S, rfl, -, hseen⟩ := exists_inv hdegree h
  cases hs with
  | ret op r hpc =>
    rwa [hpc] at hseen

end

/-- The result of the removal in the run `setRun`: behind it are the insertion of another thread
and a repair, and a search is in progress. -/
theorem abTreeSet_linearizable_erase :
    ∃ (s : State 2 ℕ ℕ) (H : List (State 2 ℕ ℕ × (Fin 2 × Event ℕ ℕ ℕ) × State 2 ℕ ℕ)),
      s.pc 1 = .ret (.erase 1) (.value (some 11)) ∧
      s.world.tree.root.pairs.map Prod.fst = List.range' 2 11 ∧
      Explained Contents id 1 H (.erase 1) (.value (some 11)) := by
  obtain ⟨as, s, hp, hs⟩ := (State.computes 4 10).exists_path (setRun 0 1) emptyTree (fun _ s =>
    decide (s.pc 1 = .ret (.erase 1) (.value (some 11)) ∧
      s.world.tree.root.pairs.map Prod.fst = List.range' 2 11)) (by decide +kernel)
  obtain ⟨hpc, hpairs⟩ := of_decide_eq_true hs
  have hr := Lts.Reachable.path (.init emptyTree_init) hp
  obtain ⟨H, hH⟩ : ∃ H, ((lts 2 ℕ ℕ 4).since (invokedBy 1)).Reachable (s, H) := hr.exists_since
  exact ⟨s, H, hpc, hpairs,
    abTreeSet_linearizable (show 3 ≤ 4 by decide) hH _ _ _ (.ret _ _ hpc)⟩

end AbTreeSet
end PopSetbench

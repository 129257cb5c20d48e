import PopSetbench.Ds.AbTreePairs
import PopSetbench.Ds.AbTreeSteps
import PopSetbench.Library.Replay

/-!
# The relaxed (a,b)-tree: runs that are computed

`World.next` is the next step of a thread that nobody disturbs: its searches find the tree as it is,
and each `scxExecute` succeeds. With it runs are computed in which the threads take turns
(`World.computes`).

`World.located` looks for a repair of a size that has come to its node.
-/

namespace PopSetbench
namespace AbTree

open Function

variable {m : ℕ} {K V : Type}

/-- AbsorbSibling below the root, at a node with two children. -/
def Act.Shrinks (degree : ℕ) : Act K V → Prop
  | .degree p path l sibling => path ≠ [] ∧ p.getABDegree = 2 ∧
      l.getABDegree + sibling.getABDegree < 2 * minDegree degree
  | _ => False

instance Act.decidableShrinks (degree : ℕ) : DecidablePred (Act.Shrinks (K := K) (V := V) degree)
  | .silent | .insert .. | .erase _ | .weight .. | .fault => .isFalse id
  | .degree p path l sibling => inferInstanceAs (Decidable (path ≠ [] ∧ p.getABDegree = 2 ∧
      l.getABDegree + sibling.getABDegree < 2 * minDegree degree))

section

variable [LinearOrder K] {degree : ℕ} {w w' : World m K V} {t : Fin m}

namespace World

/-- The `scxExecute` behind a search that has come to the end of the path. -/
def nextScx (degree : ℕ) (w : World m K V) (t : Fin m) (goal : Goal K V) (c : Cursor)
    (rest : List (Task K V)) (path : List (Frame K V)) (l : Node K V) :
    Option (Act K V × World m K V) :=
  match goal with
  | .insert key value replace =>
    match l with
    | .internal .. => none
    | .leaf _ searchKey weight entries =>
      (insertStep degree w.tree path searchKey weight entries key value replace).map
        fun r => (.insert key value, w.commit t r.1 (r.2 :: rest))
  | .erase key =>
    match l with
    | .internal .. => none
    | .leaf _ _ _ entries =>
      (eraseStep w.tree path entries key).map fun r => (.erase key, w.commit t r.1 (r.2 :: rest))
  | .weight viol =>
    match path with
    | [] => none
    | p :: path =>
      if viol = c.l ∧ c.gp = some (parent path, index path) ∧ p.weight = true then
        (weightStep degree w.tree p path l).map fun r => (.weight p path l, w.commit t r.1
          ((if r.2.2 then [.fixWeightViolation r.2.1.ptr] else []) ++
            .fixDegreeViolation r.2.1.ptr :: rest))
      else none
  | .degree viol =>
    match path with
    | [] => none
    | p :: path =>
      match (p.ptrs l)[p.ixToS]? with
      | none => none
      | some sibling =>
        if viol = c.l ∧ c.gp = some (parent path, index path) ∧
            p.weight = true ∧ l.weight = true ∧ sibling.weight = true then
          (degreeStep degree w.tree p path l sibling).map fun r => (.degree p path l sibling,
            w.commit t r.1 (r.2.map (fun c => .fixDegreeViolation c.ptr) ++ rest))
        else none

/-- The path to the node at the cursor, by a search in the tree. -/
def locate (fuel : ℕ) (w : World m K V) (goal : Goal K V) (k : K) (c : Cursor) :
    Option (List (Frame K V) × Node K V) :=
  (search fuel [] w.tree.root k goal.stop).filter fun r =>
    decide (r.2.ptr = c.l ∧ parent r.1 = c.p ∧ index r.1 = c.ixToL)

/-- The next step of a search. -/
def nextSearch (degree fuel : ℕ) (w : World m K V) (t : Fin m) (goal : Goal K V) (k : K)
    (c : Cursor) (rest : List (Task K V)) : Option (Act K V × World m K V) :=
  match w.node c.l with
  | none => none
  | some (.leaf ..) =>
    (w.locate fuel goal k c).bind fun r => w.nextScx degree t goal c rest r.1 r.2
  | some (.internal _ _ _ keys ptrs) =>
    if goal.stop = some c.l then
      (w.locate fuel goal k c).bind fun r => w.nextScx degree t goal c rest r.1 r.2
    else
      let ix := getChildIndex k keys
      ptrs[ix]?.map fun child => (.silent,
        w.goto t (.search goal k ⟨some (c.p, c.ixToL), c.l, child.ptr, ix⟩ :: rest))

/-- The next step of a thread. -/
def next (degree fuel : ℕ) (w : World m K V) (t : Fin m) : Option (Act K V × World m K V) :=
  match w.todo t with
  | [] => none
  | .fixWeightViolation viol :: rest =>
    (w.node viol).map fun v => (.silent,
      if v.weight = true then w.goto t rest else w.goto t (.llx (.weight viol) :: rest))
  | .fixDegreeViolation viol :: rest =>
    (w.node viol).map fun v => (.silent,
      if minDegree degree ≤ v.getABDegree ∨ viol = entry ∨ viol = w.tree.root.ptr then
        w.goto t rest
      else w.goto t (.llx (.degree viol) :: rest))
  | .llx goal :: rest =>
    goal.stop.map fun viol => (.silent,
      if viol ∈ w.tree.finalized then w.goto t rest else w.goto t (.loop goal :: rest))
  | .loop goal :: rest =>
    (w.key goal).map fun k => (.silent,
      w.goto t (.search goal k ⟨none, entry, w.tree.root.ptr, 0⟩ :: rest))
  | .search goal k c :: rest => w.nextSearch degree fuel t goal k c rest

/-- A call of an operation, or the next step of a thread. -/
def choose (degree fuel : ℕ) (w : World m K V) (x : Fin m × Option (Goal K V)) :
    Option ((Fin m × Act K V) × World m K V) :=
  if w.faulted then none else
    match x.2 with
    | none => (w.next degree fuel x.1).map fun r => ((x.1, r.1), r.2)
    | some (.insert key value replace) =>
      if (w.todo x.1).isEmpty then
        some ((x.1, .silent), w.goto x.1 [.loop (.insert key value replace)])
      else none
    | some (.erase key) =>
      if (w.todo x.1).isEmpty then some ((x.1, .silent), w.goto x.1 [.loop (.erase key)]) else none
    | some _ => none

variable {fuel : ℕ} {goal : Goal K V} {k : K} {c : Cursor} {rest : List (Task K V)}
  {path : List (Frame K V)} {l : Node K V} {act : Act K V}

theorem at_of_locate (h : w.locate fuel goal k c = some (path, l)) : w.At c path l := by
  obtain ⟨hsearch, hat⟩ := Option.filter_eq_some_iff.mp h
  obtain ⟨hl, hp, hix⟩ := of_decide_eq_true hat
  exact ⟨(search_sound hsearch).symm, hl, hp, hix⟩

theorem nextScx_sound (htodo : w.todo t = .search goal k c :: rest) (hat : w.At c path l)
    (h : w.nextScx degree t goal c rest path l = some (act, w')) :
    Step degree w t act w' := by
  cases goal with
  | insert key value replace =>
    -- an update of a key is made at a leaf
    cases l with
    | internal => simp [nextScx] at h
    | leaf ptr searchKey weight entries =>
      obtain ⟨⟨tree, task⟩, hres, heq⟩ := Option.map_eq_some_iff.mp h
      obtain ⟨rfl, rfl⟩ := Prod.mk.inj heq
      exact .insertScx htodo hat hres
  | erase key =>
    cases l with
    | internal => simp [nextScx] at h
    | leaf ptr searchKey weight entries =>
      obtain ⟨⟨tree, task⟩, hres, heq⟩ := Option.map_eq_some_iff.mp h
      obtain ⟨rfl, rfl⟩ := Prod.mk.inj heq
      exact .eraseScx htodo hat hres
  | weight viol =>
    -- the parent and its own parent have been passed, and the weights are right
    cases path with
    | nil => simp [nextScx] at h
    | cons p path =>
      simp only [nextScx] at h
      split_ifs at h with hcond
      obtain ⟨rfl, hgp, hweight⟩ := hcond
      obtain ⟨⟨tree, n, zero⟩, hres, heq⟩ := Option.map_eq_some_iff.mp h
      obtain ⟨rfl, rfl⟩ := Prod.mk.inj heq
      exact .weightScx htodo hat hgp hweight hres
  | degree viol =>
    cases path with
    | nil => simp [nextScx] at h
    | cons p path =>
      simp only [nextScx] at h
      split at h
      · -- there is no sibling
        simp at h
      · rename_i sibling hs
        split_ifs at h with hcond
        obtain ⟨rfl, hgp, hweight⟩ := hcond
        obtain ⟨⟨tree, new⟩, hres, heq⟩ := Option.map_eq_some_iff.mp h
        obtain ⟨rfl, rfl⟩ := Prod.mk.inj heq
        exact .degreeScx htodo hat hgp hs hweight hres

theorem nextSearch_sound (htodo : w.todo t = .search goal k c :: rest)
    (h : w.nextSearch degree fuel t goal k c rest = some (act, w')) :
    Step degree w t act w' := by
  unfold nextSearch at h
  split at h
  · simp at h
  · obtain ⟨r, hloc, hscx⟩ := Option.bind_eq_some_iff.mp h
    exact nextScx_sound htodo (at_of_locate hloc) hscx
  · rename_i hl
    split_ifs at h with hstop
    · obtain ⟨r, hloc, hscx⟩ := Option.bind_eq_some_iff.mp h
      exact nextScx_sound htodo (at_of_locate hloc) hscx
    · obtain ⟨child, hchild, heq⟩ := Option.map_eq_some_iff.mp h
      obtain ⟨rfl, rfl⟩ := Prod.mk.inj heq
      exact .advance htodo hl hstop hchild

/-- What is computed is a step. -/
theorem next_sound (h : w.next degree fuel t = some (act, w')) :
    Step degree w t act w' := by
  unfold next at h
  split at h
  · simp at h
  · rename_i viol rest htodo
    obtain ⟨v, hv, heq⟩ := Option.map_eq_some_iff.mp h
    obtain ⟨rfl, rfl⟩ := Prod.mk.inj heq
    split_ifs with hweight
    · exact .fixWeightReturn htodo hv hweight
    · exact .fixWeight htodo hv (Bool.eq_false_of_not_eq_true hweight)
  · rename_i viol rest htodo
    obtain ⟨v, hv, heq⟩ := Option.map_eq_some_iff.mp h
    obtain ⟨rfl, rfl⟩ := Prod.mk.inj heq
    split_ifs with hsize
    · exact .fixDegreeReturn htodo hv hsize
    · exact .fixDegree htodo hv hsize
  · rename_i goal rest htodo
    obtain ⟨viol, hstop, heq⟩ := Option.map_eq_some_iff.mp h
    obtain ⟨rfl, rfl⟩ := Prod.mk.inj heq
    split_ifs with hfin
    · exact .llxFinalized htodo hstop hfin
    · exact .llx htodo hstop hfin
  · rename_i goal rest htodo
    obtain ⟨k, hk, heq⟩ := Option.map_eq_some_iff.mp h
    obtain ⟨rfl, rfl⟩ := Prod.mk.inj heq
    exact .start htodo hk
  · rename_i goal k c rest htodo
    exact nextSearch_sound htodo h

theorem computes (degree fuel : ℕ) : (system m K V degree).Computes (choose degree fuel) := by
  rintro w ⟨t, goal⟩ a w' h
  by_cases hfault : w.faulted = true
  · simp [choose, hfault] at h
  have hgood : w.faulted = false := Bool.eq_false_of_not_eq_true hfault
  rw [choose, if_neg hfault] at h
  cases goal with
  | none =>
    obtain ⟨r, hnext, heq⟩ := Option.map_eq_some_iff.mp h
    obtain ⟨rfl, rfl⟩ := Prod.mk.inj heq
    exact ⟨hgood, next_sound hnext⟩
  | some goal =>
    cases goal with
    | insert key value replace =>
      obtain ⟨htodo, heq⟩ := Option.ite_none_right_eq_some.mp h
      obtain ⟨rfl, rfl⟩ := Prod.mk.inj (Option.some.inj heq)
      exact ⟨hgood, .insert key value replace (List.isEmpty_iff.mp htodo)⟩
    | erase key =>
      obtain ⟨htodo, heq⟩ := Option.ite_none_right_eq_some.mp h
      obtain ⟨rfl, rfl⟩ := Prod.mk.inj (Option.some.inj heq)
      exact ⟨hgood, .erase key (List.isEmpty_iff.mp htodo)⟩
    | weight viol => simp at h
    | degree viol => simp at h

/-- The repair of a size that the thread is in, if its search has come to the node of the repair:
the cursor, and the parent with the path to it. -/
def located (fuel : ℕ) (w : World m K V) (t : Fin m) :
    Option (K × Cursor × List (Task K V) × Frame K V × List (Frame K V) × Node K V) :=
  match w.todo t with
  | .search (.degree viol) k c :: rest =>
    match w.locate fuel (.degree viol) k c with
    | some (p :: path, l) => if viol = c.l then some (k, c, rest, p, path, l) else none
    | _ => none
  | _ => none

theorem located_sound {p : Frame K V} (h : w.located fuel t = some (k, c, rest, p, path, l)) :
    w.todo t = .search (.degree c.l) k c :: rest ∧ w.At c (p :: path) l := by
  unfold located at h
  split at h
  · rename_i viol k' c' rest' htodo
    split at h
    · rename_i p' path' l' hloc
      split_ifs at h with hviol
      obtain ⟨rfl, rfl, rfl, rfl, rfl, rfl⟩ := Option.some.inj h
      subst hviol
      exact ⟨htodo, at_of_locate hloc⟩
    · simp at h
  · simp at h

end World

end

/-! ### A run with a repair -/

/-- A call of an operation, and a number of steps of it. -/
def Goal.call (goal : Goal K V) (t : Fin m) (steps : ℕ) : List (Fin m × Option (Goal K V)) :=
  (t, some goal) :: List.replicate steps (t, none)

/-- Eleven insertions, with nodes of up to four children. After them the root has two children, and
these have two and three. -/
def insertions (t : Fin 2) : List (Fin 2 × Option (Goal ℕ ℕ)) :=
  (Goal.insert 1 1 true).call t 3 ++ (Goal.insert 2 1 true).call t 3 ++
    (Goal.insert 3 1 true).call t 3 ++ (Goal.insert 4 1 true).call t 3 ++
    (Goal.insert 5 1 true).call t 3 ++ (Goal.insert 6 1 true).call t 4 ++
    (Goal.insert 7 1 true).call t 9 ++ (Goal.insert 8 1 true).call t 4 ++
    (Goal.insert 9 1 true).call t 9 ++ (Goal.insert 10 1 true).call t 4 ++
    (Goal.insert 11 1 true).call t 10

/-- A removal by thread `u`, up to the search of its repair; an insertion by thread `t`; and the
search of the repair. -/
def repairRun (t u : Fin 2) : List (Fin 2 × Option (Goal ℕ ℕ)) :=
  insertions t ++ (Goal.erase 1).call u 6 ++ (Goal.insert 12 1 true).call t 5 ++
    List.replicate 3 (u, none)

/-- The repair of thread `t` has come to its node, which is in the tree below the root and
whose parent has two children. It goes on with AbsorbSibling. -/
def World.repairing (w : World 2 ℕ ℕ) (t : Fin 2) : Bool :=
  match w.located 10 t, w.choose 4 10 (t, none) with
  | some (_, c, _, p, _, _), some (act, _) => decide ((w.node c.l).isSome ∧
      (w.tree.root.find? c.l).isSome ∧ c.l ≠ w.tree.root.ptr ∧ p.getABDegree = 2 ∧
      act.2.Shrinks 4)
  | _, _ => false

theorem exists_repairing : ∃ w : World 2 ℕ ℕ,
    (system 2 ℕ ℕ 4).ReachableBy (fun _ a => ¬ a.2.Shrinks 4) w ∧
    (∃ k c rest p path l, w.todo 1 = .search (.degree c.l) k c :: rest ∧
      w.At c (p :: path) l ∧ (w.node c.l).isSome ∧ (w.tree.root.find? c.l).isSome ∧
      c.l ≠ w.tree.root.ptr ∧ p.getABDegree = 2) ∧
    ∃ act w', (system 2 ℕ ℕ 4).step w act w' ∧ act.2.Shrinks 4 := by
  obtain ⟨as, w, hpath, hw⟩ := (World.computes 4 10).exists_path (repairRun 0 1) (World.init 0)
    (fun as w => as.all (fun a => !decide (a.2.Shrinks 4)) && w.repairing 1)
    (by decide +kernel)
  obtain ⟨has, hw⟩ := Bool.and_eq_true_iff.mp hw
  have hrun : (system 2 ℕ ℕ 4).ReachableBy (fun _ a => ¬ a.2.Shrinks 4) w := by
    refine Lts.ReachableBy.path (.init ⟨0, rfl⟩) hpath fun a ha => ?_
    simpa using List.all_eq_true.mp has a ha
  unfold World.repairing at hw
  split at hw
  · rename_i k c rest p path l act w' hlocated hnext
    obtain ⟨htodo, hat⟩ := World.located_sound hlocated
    obtain ⟨hnode, hfind, hroot, hp, hact⟩ := of_decide_eq_true hw
    exact ⟨w, hrun, ⟨k, c, rest, p, path, l, htodo, hat, hnode, hfind, hroot, hp⟩, act, w',
      World.computes 4 10 w _ act w' hnext, hact⟩
  · exact Bool.noConfusion hw

end AbTree
end PopSetbench

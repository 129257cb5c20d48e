import PopSetbench.Ds.AbTreeSchedule
import PopSetbench.Ds.AbTreeSet

/-!
# The relaxed (a,b)-tree as a set: runs that are computed

`State.next` is the next step of a thread that nobody disturbs, as `World.next` is in the tree. In
the run `setRun` of two threads keys are inserted and one is removed, with the repairs behind it,
while the other thread inserts a key and looks for another one.
-/

namespace PopSetbench
namespace AbTreeSet

open Function
open AbTree (World Act Goal Cursor Task Frame Node getChildIndex getKeyIndex pairAt insertStep
  eraseStep)

variable {m : ℕ} {K V : Type}

section

variable [LinearOrder K] [DecidableEq V] {degree fuel : ℕ} {s s' : State m K V} {t : Fin m}
  {e : Event ℕ K V} {k : K} {c : Cursor} {rest : List (Task K V)}

namespace State

/-- The step with which an update gets its result. -/
def nextScx (degree fuel : ℕ) (s : State m K V) (t : Fin m) (op : Op K V) (goal : Goal K V) (k : K)
    (c : Cursor) (rest : List (Task K V)) : Option (Event ℕ K V × State m K V) :=
  match op, goal, s.world.locate fuel goal k c with
  | .insert key value, .insert key' value' false, some (path, .leaf _ searchKey weight entries) =>
    if key = key' ∧ value = value' then
      (insertStep degree s.world.tree path searchKey weight entries key' value' false).map
        fun r => (.tau, s.move t (s.world.commit t r.1 (r.2 :: rest))
          (.update (.insert key' value') (some (.value none))))
    else none
  | .erase key, .erase key', some (path, .leaf _ _ _ entries) =>
    if key = key' then
      (pairAt entries (getKeyIndex key' (entries.map Prod.fst)) key').bind fun e =>
        (eraseStep s.world.tree path entries key').map fun r =>
          (.tau, s.move t (s.world.commit t r.1 (r.2 :: rest))
            (.update (.erase key') (some (.value (some e.2)))))
    else none
  | _, _, _ => none

/-- A step of a search or of a repair. -/
def nextWork (degree fuel : ℕ) (s : State m K V) (t : Fin m) (op : Op K V) (r : Option (Ret V)) :
    Option (Event ℕ K V × State m K V) :=
  (s.world.next degree fuel t).bind fun x =>
    match x.1 with
    | .insert .. | .erase _ => none
    | _ =>
      if s.world.todo t ≠ [] ∧ (r = none → x.2.todo t ≠ []) then
        some (.tau, s.move t x.2 (.update op r))
      else none

/-- The next step of a thread. -/
def next (degree fuel : ℕ) (s : State m K V) (t : Fin m) : Option (Event ℕ K V × State m K V) :=
  match s.pc t with
  | .idle => none
  | .find key none => some (.tau, s.goto t (.find key (some s.world.tree.root.ptr)))
  | .find key (some l) =>
    match s.world.node l with
    | none => none
    | some (.internal _ _ _ keys ptrs) => ptrs[getChildIndex key keys]?.map fun child =>
        (.access l, s.goto t (.find key (some child.ptr)))
    | some (.leaf _ _ _ entries) => some (.access l, s.goto t (.ret (.contains key)
        (.bool (pairAt entries (getKeyIndex key (entries.map Prod.fst)) key).isSome)))
  | .update op none =>
    match s.world.todo t with
    | .search goal k c :: rest =>
      (s.nextScx degree fuel t op goal k c rest).or (s.nextWork degree fuel t op none)
    | _ => s.nextWork degree fuel t op none
  | .update op (some r) =>
    if s.world.todo t = [] then some (.tau, s.goto t (.ret op r))
    else s.nextWork degree fuel t op (some r)
  | .ret op r => some (.ret op r, s.goto t .idle)

/-- A call of an operation, or the next step of a thread. -/
def choose (degree fuel : ℕ) (s : State m K V) (x : Fin m × Option (Op K V)) :
    Option ((Fin m × Event ℕ K V) × State m K V) :=
  if s.world.faulted then none else
    match x.2, s.pc x.1 with
    | none, _ => (s.next degree fuel x.1).map fun r => ((x.1, r.1), r.2)
    | some op, .idle =>
      if s.world.todo x.1 = [] then
        some ((x.1, .invoke op), match op with
          | .contains key => s.goto x.1 (.find key none)
          | .insert key value => s.move x.1
              (s.world.goto x.1 [.loop (.insert key value false)]) (.update op none)
          | .erase key => s.move x.1 (s.world.goto x.1 [.loop (.erase key)]) (.update op none))
      else none
    | _, _ => none

theorem nextScx_sound {op : Op K V} {goal : Goal K V} (hpc : s.pc t = .update op none)
    (htodo : s.world.todo t = .search goal k c :: rest)
    (h : s.nextScx degree fuel t op goal k c rest = some (e, s')) : Step degree s t e s' := by
  unfold nextScx at h
  split at h
  · rename_i key value key' value' path ptr searchKey weight entries hloc
    obtain ⟨⟨rfl, rfl⟩, hres⟩ := Option.ite_none_right_eq_some.mp h
    obtain ⟨⟨tree, task⟩, hstep, heq⟩ := Option.map_eq_some_iff.mp hres
    obtain ⟨rfl, rfl⟩ := Prod.mk.inj heq
    exact .insertScx _ _ _ _ _ _ _ _ _ _ _ _ hpc htodo (World.at_of_locate hloc) hstep
  · rename_i key key' path ptr searchKey weight entries hloc
    obtain ⟨rfl, hres⟩ := Option.ite_none_right_eq_some.mp h
    obtain ⟨pair, hpair, hres⟩ := Option.bind_eq_some_iff.mp hres
    obtain ⟨⟨tree, task⟩, hstep, heq⟩ := Option.map_eq_some_iff.mp hres
    obtain ⟨rfl, rfl⟩ := Prod.mk.inj heq
    exact .eraseScx _ _ _ _ _ _ _ _ _ _ _ _ hpc htodo (World.at_of_locate hloc) hpair hstep
  · simp at h

omit [DecidableEq V] in
theorem nextWork_sound {op : Op K V} {r : Option (Ret V)} (hpc : s.pc t = .update op r)
    (h : s.nextWork degree fuel t op r = some (e, s')) : Step degree s t e s' := by
  obtain ⟨⟨act, w⟩, hnext, hres⟩ := Option.bind_eq_some_iff.mp h
  have hstep := World.next_sound hnext
  cases act with
  | insert | erase => simp at hres
  | silent | weight | degree | fault =>
    obtain ⟨⟨htodo, hr⟩, heq⟩ := Option.ite_none_right_eq_some.mp hres
    obtain ⟨rfl, rfl⟩ := Prod.mk.inj (Option.some.inj heq)
    exact .work op r _ w hpc htodo hstep trivial hr

theorem next_sound (h : s.next degree fuel t = some (e, s')) : Step degree s t e s' := by
  unfold next at h
  split at h
  · simp at h
  · rename_i key hpc
    obtain ⟨rfl, rfl⟩ := Prod.mk.inj (Option.some.inj h)
    exact .findEntry key hpc
  · rename_i key l hpc
    split at h
    · simp at h
    · rename_i hl
      obtain ⟨child, hchild, heq⟩ := Option.map_eq_some_iff.mp h
      obtain ⟨rfl, rfl⟩ := Prod.mk.inj heq
      exact .findChild _ _ _ _ _ _ _ _ hpc hl hchild
    · rename_i hl
      obtain ⟨rfl, rfl⟩ := Prod.mk.inj (Option.some.inj h)
      exact .findLeaf _ _ _ _ _ _ hpc hl
  · rename_i op hpc
    split at h
    · rename_i goal k c rest htodo
      rcases Option.or_eq_some_iff.mp h with hscx | ⟨-, hwork⟩
      · exact nextScx_sound hpc htodo hscx
      · exact nextWork_sound hpc hwork
    · exact nextWork_sound hpc h
  · rename_i op r hpc
    split_ifs at h with htodo
    · obtain ⟨rfl, rfl⟩ := Prod.mk.inj (Option.some.inj h)
      exact .finish op r hpc htodo
    · exact nextWork_sound hpc h
  · rename_i op r hpc
    obtain ⟨rfl, rfl⟩ := Prod.mk.inj (Option.some.inj h)
    exact .ret op r hpc

theorem computes (degree fuel : ℕ) : (lts m K V degree).Computes (choose degree fuel) := by
  rintro s ⟨t, op⟩ a s' h
  by_cases hfault : s.world.faulted = true
  · simp [choose, hfault] at h
  have hgood : s.world.faulted = false := Bool.eq_false_of_not_eq_true hfault
  rw [choose, if_neg hfault] at h
  refine ⟨hgood, ?_⟩
  split at h
  · obtain ⟨r, hnext, heq⟩ := Option.map_eq_some_iff.mp h
    obtain ⟨rfl, rfl⟩ := Prod.mk.inj heq
    exact next_sound hnext
  · rename_i op hop hpc
    obtain ⟨htodo, heq⟩ := Option.ite_none_right_eq_some.mp h
    obtain ⟨rfl, rfl⟩ := Prod.mk.inj (Option.some.inj heq)
    cases op with
    | contains key => exact .invokeContains key hpc
    | insert key value => exact .invokeInsert key value hpc htodo
    | erase key => exact .invokeErase key hpc htodo
  · simp at h

end State

end

/-! ### A run with a repair -/

/-- A call of an operation, and a number of steps of it. -/
def calls (op : Op K V) (t : Fin m) (steps : ℕ) : List (Fin m × Option (Op K V)) :=
  (t, some op) :: List.replicate steps (t, none)

/-- The empty tree, and two threads. -/
def emptyTree : State 2 ℕ ℕ where
  world := World.init 0
  pc _ := .idle

theorem emptyTree_init : (lts 2 ℕ ℕ 4).init emptyTree :=
  ⟨⟨0, rfl⟩, fun _ => rfl⟩

/-- Eleven insertions, with nodes of up to four children. -/
def insertions (t : Fin 2) : List (Fin 2 × Option (Op ℕ ℕ)) :=
  calls (.insert 1 11) t 5 ++ calls (.insert 2 12) t 5 ++ calls (.insert 3 13) t 5 ++
    calls (.insert 4 14) t 5 ++ calls (.insert 5 15) t 5 ++ calls (.insert 6 16) t 6 ++
    calls (.insert 7 17) t 11 ++ calls (.insert 8 18) t 6 ++ calls (.insert 9 19) t 11 ++
    calls (.insert 10 20) t 6 ++ calls (.insert 11 21) t 12

/-- A removal by thread `u`, which is to be followed by a repair; an insertion by thread `t`, and a
search that is on its way; and the repair, with which thread `u` is done. -/
def setRun (t u : Fin 2) : List (Fin 2 × Option (Op ℕ ℕ)) :=
  insertions t ++ calls (.erase 1) u 6 ++ calls (.insert 12 22) t 7 ++ calls (.contains 7) t 2 ++
    List.replicate 12 (u, none)

end AbTreeSet
end PopSetbench

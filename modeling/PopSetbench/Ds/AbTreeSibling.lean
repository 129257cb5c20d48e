import PopSetbench.Ds.AbTreeRuns

/-!
# The relaxed (a,b)-tree: the sibling of a node that is too small

`fixDegreeViolation` takes the sibling at `ixToS` without a look at the size of the parent: there
would always be two children. AbsorbSibling leaves a parent with one child if it had two and is not
the root. The repair of this parent comes later, and another thread may come to its child before.

* In the runs without such an AbsorbSibling every internal node has two children
  (`abTree_sibling`).
* In the run `siblingRun` the sibling is not there (`abTree_sibling_missing`).
-/

namespace PopSetbench
namespace AbTree

open Function

variable {m : ℕ} {K V : Type}

/-- A repair that has located its node at a child of `p` finds a sibling at `ixToS`. -/
def World.HasSiblings (w : World m K V) : Prop :=
  ∀ t k c rest p path l, w.todo t = .search (.degree c.l) k c :: rest → w.At c (p :: path) l →
    c.ixToS < p.getABDegree

section

variable [LinearOrder K] {degree : ℕ} {w w' : World m K V} {t : Fin m}

/-- **Siblings.** In every run in which AbsorbSibling is not applied below the root to a node with
two children, a repair of a size finds a sibling. -/
theorem abTree_sibling (hdegree : 3 ≤ degree)
    (hw : (system m K V degree).ReachableBy (fun _ a => ¬ a.2.Shrinks degree) w) :
    w.HasSiblings := by
  obtain ⟨S, rfl, hleast, hinv⟩ := exists_inv 2 hdegree le_rfl (fun _ _ ha => .inr ha) hw
  intro t k c rest p path l _ hat
  obtain ⟨h, hroot⟩ := hinv.regular.root
  have hp : Inside w.tree.root (p.node l) := by
    rw [hat.root]
    exact inside_plug path _ _ .refl
  obtain ⟨_, _, _, hrel⟩ := hp.relaxed hroot
  have htwo : 2 ≤ p.getABDegree := by
    rw [← hleast, ← p.getABDegree_node l]
    exact hrel.label.le_size rfl
  have hix : p.before.length = c.ixToL := hat.ixToL
  have hlt : p.before.length < p.getABDegree := by
    unfold Frame.getABDegree
    omega
  unfold Cursor.ixToS
  split_ifs <;> omega

end

/-- In a run of two threads in which a repair has come to its node, below the root. -/
theorem abTree_sibling_repairing : ∃ w : World 2 ℕ ℕ,
    (system 2 ℕ ℕ 4).ReachableBy (fun _ a => ¬ a.2.Shrinks 4) w ∧
    ∃ k c rest p path l, w.todo 1 = .search (.degree c.l) k c :: rest ∧ w.At c (p :: path) l ∧
      p.getABDegree = 2 ∧ c.ixToS < p.getABDegree := by
  obtain ⟨w, hrun, ⟨k, c, rest, p, path, l, htodo, hat, -, -, -, hp⟩, -⟩ := exists_repairing
  exact ⟨w, hrun, k, c, rest, p, path, l, htodo, hat, hp,
    abTree_sibling (show 3 ≤ 4 by decide) hrun 1 k c rest p path l htodo hat⟩

/-! ### A sibling that is not there -/

/-- Thread `t` has a repair at a child of a node that has no other one. -/
def World.missing (w : World 2 ℕ ℕ) (t : Fin 2) : Bool :=
  match w.located 10 t with
  | some (_, c, _, p, _, _) => decide (¬ c.ixToS < p.getABDegree)
  | none => false

/-- A removal by thread `u`, up to its AbsorbSibling; then two removals by thread `t`. -/
def siblingRun (t u : Fin 2) : List (Fin 2 × Option (Goal ℕ ℕ)) :=
  insertions t ++ (Goal.erase 1).call u 10 ++ (Goal.erase 2).call t 5 ++ (Goal.erase 3).call t 9

/-- With nodes of up to four children, there is a run after which a repair reads the second child of
a node that has one. -/
theorem abTree_sibling_missing :
    ¬ ∀ w : World 2 ℕ ℕ, (system 2 ℕ ℕ 4).Reachable w → w.HasSiblings := by
  intro hall
  obtain ⟨as, w, hpath, hmissing⟩ := (World.computes 4 10).exists_path (siblingRun 0 1)
    (World.init 0) (fun _ w => w.missing 0) (by decide +kernel)
  unfold World.missing at hmissing
  split at hmissing
  · rename_i k c rest p path l hlocated
    obtain ⟨htodo, hat⟩ := World.located_sound hlocated
    have hsiblings := hall w (.path (.init ⟨0, rfl⟩) hpath)
    exact of_decide_eq_true hmissing (hsiblings 0 k c rest p path l htodo hat)
  · exact Bool.noConfusion hmissing

end AbTree
end PopSetbench

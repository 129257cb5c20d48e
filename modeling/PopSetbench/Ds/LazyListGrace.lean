import PopSetbench.Ds.LazyListLinear
import PopSetbench.Library.PastList

/-!
# The lazy list: which nodes an operation comes across

`careful`: an operation has no pointer to a node that was gone when it called `startOp`. A search
takes no lock and goes through nodes that may be gone by then, and a node is locked before it is
found to be marked; but all of these have gone after the operation began.
-/

namespace PopSetbench
namespace LazyList

open Function
open Heap (Reach)
open LazyListNzb (Config Upd)

variable {α ι K V : Type}

/-- The nodes a thread has pointers to, but for one that it has allocated. -/
def Pc.Uses : Pc α K V → α → Prop
  | .walk _ curr, x => x = curr
  | .walkNext _ curr, x => x = curr
  | .testKey _ curr, x => x = curr
  | .testMark _ curr, x => x = curr
  | .readVal _ curr, x => x = curr
  | .loadNext _ pred, x => x = pred
  | .readKey _ pred curr, x => x = pred ∨ x = curr
  | .eraseKey _ pred curr, x => x = pred ∨ x = curr
  | .lockPred _ pred curr, x => x = pred ∨ x = curr
  | .lockCurr _ pred curr, x => x = pred ∨ x = curr
  | .validPred _ pred curr, x => x = pred ∨ x = curr
  | .validCurr _ pred curr, x => x = pred ∨ x = curr
  | .validNext _ pred curr, x => x = pred ∨ x = curr
  | .failPred _ pred curr, x => x = pred ∨ x = curr
  | .failCurr _ pred curr, x => x = pred ∨ x = curr
  | .failNext _ pred curr, x => x = pred ∨ x = curr
  | .insertKey _ _ pred curr, x => x = pred ∨ x = curr
  | .insertVal _ _ pred curr, x => x = pred ∨ x = curr
  | .newNode _ _ pred curr, x => x = pred ∨ x = curr
  | .link _ _ pred _, x => x = pred
  | .eraseVal _ pred curr, x => x = pred ∨ x = curr
  | .eraseNext _ pred curr _, x => x = pred ∨ x = curr
  | .mark _ pred curr _ nxt, x => x = pred ∨ x = curr ∨ nxt = some x
  | .unlink _ pred curr _ nxt, x => x = pred ∨ x = curr ∨ nxt = some x
  | .retire _ pred curr _, x => x = pred ∨ x = curr
  | .unlockCurr _ pred curr _, x => x = pred ∨ x = curr
  | .unlockPred _ pred _, x => x = pred
  | _, _ => False

section

variable {u : Upd K V} {pred curr x : α}

theorem uses_begin {head : α} {op : Op K V} (h : (begin head op).Uses x) : x = head := by
  cases op <;> exact h

theorem uses_arrive (h : (arrive pred curr u).Uses x) : x = pred ∨ x = curr := by
  cases u <;> exact h

theorem uses_predLocked (h : (predLocked pred curr u).Uses x) : x = pred ∨ x = curr := by
  cases u <;> exact h

theorem uses_validated (h : (validated pred curr u).Uses x) : x = pred ∨ x = curr := by
  cases u <;> exact h

theorem uses_failed (h : (failed pred curr u).Uses x) : x = pred ∨ x = curr := by
  cases u with
  | insert key val => exact .inl h
  | erase key => exact h

theorem uses_ended {op : Op K V} {r : Option (Ret V)} : ¬ (ended op r : Pc α K V).Uses x := by
  cases r <;> exact id

end

section

variable [LinearOrder K] {cfg : Config α K} {s s' : State α ι K V} {x : α} {t : ι}
  {e : Event α K V}

variable [DecidableEq α] [DecidableEq ι]

/-- **What is accessed** is what the thread uses. -/
theorem Step.access (h : Step cfg s t (.access x) s') : (s.pc t).Uses x := by
  generalize he : (Event.access x : Event α K V) = e at h
  cases h with
  | invoke | startOp | newNode | retire | endOp | ret => cases he
  | _ =>
    obtain rfl := Event.access.inj he
    simp_all [Pc.Uses]

/-- **What a thread comes to use** it has used before, or it is the head, or it comes after a node
that it used. -/
theorem Step.uses (inv : Inv cfg s) (h : Step cfg s t e s') (hx : (s'.pc t).Uses x) :
    (s.pc t).Uses x ∨ x = cfg.head ∨
      ∃ y, (s.pc t).Uses y ∧ Met cfg s.arena y ∧ s.heap.next y = some x := by
  have hp := inv.shared.all t
  cases h with
  | startOp op hpc =>
    rw [State.goto_pc_self] at hx
    exact .inr (.inl (uses_begin hx))
  | walkNext key y z hpc hy =>
    -- the walk goes to the successor of a node that was met
    rw [State.goto_pc_self] at hx
    rw [hpc] at hp ⊢
    obtain rfl : x = z := hx
    exact .inr (.inr ⟨y, rfl, hp.2.1, hy⟩)
  | loadNext u y z hpc hy =>
    rw [State.goto_pc_self] at hx
    rw [hpc] at hp ⊢
    rcases hx with rfl | rfl
    · exact .inl rfl
    · exact .inr (.inr ⟨y, rfl, hp.2.1, hy⟩)
  | readKey u pred y hpc hk =>
    rw [State.goto_pc_self] at hx
    rw [hpc]
    exact .inl (.inr hx)
  | readKeyEnd u pred y hpc hk =>
    -- the place is found: the two nodes are used on, in one way or another
    rw [State.goto_pc_self] at hx
    rw [hpc]
    exact .inl (uses_arrive hx)
  | lockPred u pred y hpc hl =>
    rw [State.goto_pc_self] at hx
    rw [hpc]
    exact .inl (uses_predLocked hx)
  | validNext u pred y hpc hn =>
    rw [State.goto_pc_self] at hx
    rw [hpc]
    exact .inl (uses_validated hx)
  | failPred u pred y hpc hm | failCurr u pred y hpc hm | failNext u pred y hpc =>
    rw [State.goto_pc_self] at hx
    rw [hpc]
    exact .inl (uses_failed hx)
  | endOp op r hpc =>
    rw [State.goto_pc_self] at hx
    exact absurd hx uses_ended
  | invoke op hpc hmin hmax | testKeyFail key y hpc hk | testMarkFail key y hpc hm
  | readVal key y hpc | eraseKeyFail key pred y hpc hk | unlockPred u pred r hpc
  | ret op r hpc =>
    rw [State.goto_pc_self] at hx
    exact hx.elim
  | eraseNext key pred y result hpc =>
    -- the successor of the node to be erased is read as well
    rw [State.goto_pc_self] at hx
    rw [hpc] at hp ⊢
    rcases hx with hx | hx | hx
    · exact .inl (.inl hx)
    · exact .inl (.inr hx)
    · exact .inr (.inr ⟨y, .inr rfl, hp.1.right, hx⟩)
  | unlink key pred y result nxt hpc =>
    rw [State.goto_pc_self] at hx
    rw [hpc]
    rcases hx with hx | hx
    · exact .inl (.inl hx)
    · exact .inl (.inr (.inl hx))
  | insertVal key val pred y hpc | newNode key val pred y a hpc ha | unlockCurr key pred y r hpc =>
    -- from here on only `pred` is used
    rw [State.goto_pc_self] at hx
    rw [hpc]
    exact .inl (.inl hx)
  | _ =>
    -- the thread goes on with the same nodes
    rw [State.goto_pc_self] at hx
    simp_all [Pc.Uses]

/-! ### The nodes of the acting thread -/

omit [DecidableEq α] [DecidableEq ι] in
/-- A node that no thread has seen in the list is not marked. -/
theorem Inv.unmarked (inv : Inv cfg s)
    (hx : s.allocated x = false ∨ (s.pc t).newnode? = some x) : s.heap.marked x = false := by
  rcases hx with hx | hx
  · rw [← Bool.not_eq_true]
    intro hm
    have hall : s.allocated x = true := inv.shared.ok.marked_allocated hm
    rw [hx] at hall
    cases hall
  · exact ((inv.shared.all t).new_private hx).unmarked

/-- **What was gone stays out of reach.** -/
theorem Step.past (inv : Inv cfg s) (h : Step cfg s t e s') {D : α → Prop}
    (hD : s.heap.Past (lists cfg) D) : s'.heap.Past (lists cfg) D := by
  obtain ⟨own, c, hown⟩ := h.change inv
  exact hD.move inv.shared.ok.wf c.move fun x hx =>
    ⟨inv.unmarked (c.own_new x hx).1, hown x hx⟩

omit [DecidableEq α] [DecidableEq ι] in
/-- A node that is retired is out of the list: only the thread that has locked it unlinks it. -/
theorem Inv.gone_of_retire (inv : Inv cfg s) {key : K} {pred : α} {result : V}
    (hpc : s.pc t = .retire key pred x result) : s.heap.Gone (lists cfg) x := by
  have hp := inv.shared.all t
  rw [hpc] at hp
  have hm : s.heap.marked x = true := hp.2
  refine ⟨hm, fun _ hreach => ?_⟩
  obtain ⟨q, hq⟩ := inv.erasing x hreach hm
  have hqheld : x ∈ (s.pc q).held := by
    cases hpcq : s.pc q with
    | unlink key' pred' curr' result' nxt' =>
      rw [hpcq] at hq
      obtain rfl := Option.some.inj hq
      simp [Pc.held]
    | _ =>
      rw [hpcq] at hq
      cases hq
  have htheld : x ∈ (s.pc t).held := by
    rw [hpc]
    simp [Pc.held]
  obtain rfl : q = t := inv.locks.excl hqheld htheld
  rw [hpc] at hq
  cases hq

/-! ### Nodes that were retired -/

omit [DecidableEq α] [DecidableEq ι] in
/-- A node that is about to be unlinked is in the list. -/
theorem Inv.reach_of_unlink (inv : Inv cfg s) {key : K} {pred : α} {result : V} {nxt : Option α}
    (hpc : s.pc t = .unlink key pred x result nxt) : Reach s.heap.next cfg.head x := by
  have hp := inv.shared.all t
  have hg := inv.guarded t
  rw [hpc] at hp hg
  have hreach : Reach s.heap.next cfg.head pred := Arena.reach_of_anchored hp.1.left hg.1
  exact hreach.step hg.2

/-- What is retired stays so. -/
theorem Step.retired_subset (h : Step cfg s t e s') (hx : x ∈ s.retired) : x ∈ s'.retired := by
  cases h with
  | retire key pred y result hpc => exact List.mem_cons_of_mem _ hx
  | _ => exact hx

/-- A thread that comes to retire a node has unlinked it. -/
theorem Step.retire_pc (h : Step cfg s t e s') {key : K} {pred : α} {result : V}
    (hx : s'.pc t = .retire key pred x result) :
    s'.retired = s.retired ∧ ∃ nxt, s.pc t = .unlink key pred x result nxt := by
  cases h with
  | unlink key' pred' y result' nxt hpc =>
    rw [State.goto_pc_self] at hx
    obtain ⟨rfl, rfl, rfl, rfl⟩ := Pc.retire.inj hx
    exact ⟨rfl, nxt, hpc⟩
  | startOp op hpc =>
    rw [State.goto_pc_self] at hx
    cases op <;> cases hx
  | endOp op r hpc =>
    rw [State.goto_pc_self] at hx
    cases r <;> cases hx
  | readKeyEnd u | lockPred u | validNext u | failPred u | failCurr u | failNext u =>
    -- where it goes on depends on the update
    rw [State.goto_pc_self] at hx
    cases u <;> cases hx
  | _ =>
    rw [State.goto_pc_self] at hx
    cases hx

/-- What is retired is gone, and nobody is about to retire it again. -/
def Retired (cfg : Config α K) (s : State α ι K V) : Prop :=
  ∀ x ∈ s.retired, s.heap.Gone (lists cfg) x ∧
    ∀ q key pred result, s.pc q ≠ .retire key pred x result

/-- **One step.** A node that is unlinked was in the list, and one that is retired is locked. -/
theorem Retired.step (R : Retired cfg s) (inv : Inv cfg s) (h : Step cfg s t e s') :
    Retired cfg s' := by
  have hpast : s'.heap.Past (lists cfg) (s.heap.Gone (lists cfg)) := h.past inv .now
  have hold : ∀ x ∈ s.retired, s'.heap.Gone (lists cfg) x ∧
      ∀ q key pred result, s'.pc q ≠ .retire key pred x result := by
    intro x hx
    refine ⟨hpast.gone x (R x hx).1, fun q key pred result hpc => ?_⟩
    by_cases hq : q = t
    · subst hq
      obtain ⟨-, nxt, hunl⟩ := h.retire_pc hpc
      exact (R x hx).1.off () (inv.reach_of_unlink hunl)
    · rw [Step.pc_of_ne h hq] at hpc
      exact (R x hx).2 q key pred result hpc
  cases h with
  | retire key pred y result hpc =>
    intro x hx
    rcases List.mem_cons.mp hx with rfl | hx
    · refine ⟨hpast.gone x (inv.gone_of_retire hpc), fun q key' pred' result' hq => ?_⟩
      by_cases hqt : q = t
      · subst hqt
        rw [State.goto_pc_self] at hq
        cases hq
      · -- both have locked it
        rw [State.goto_pc_of_ne hqt] at hq
        have hq : s.pc q = .retire key' pred' x result' := hq
        have hqheld : x ∈ (s.pc q).held := by
          rw [hq]
          simp [Pc.held]
        have htheld : x ∈ (s.pc t).held := by
          rw [hpc]
          simp [Pc.held]
        exact hqt (inv.locks.excl hqheld htheld)
    · exact hold x hx
  | _ => exact hold

theorem Retired.of_reachable (h : (lts (ι := ι) (V := V) cfg).Reachable s) : Retired cfg s := by
  refine h.invariant (P := Retired cfg) (fun s hs x hx => ?_) fun s a s' hr hR _ hs =>
    hR.step (Inv.of_reachable hr) hs
  rw [hs.retired] at hx
  exact absurd hx List.not_mem_nil

end

/-! ### Operations and what was gone before them -/

section

variable [LinearOrder K] {cfg : Config α K} {t : ι} {x : α}

/-- The node is marked and not in the list. -/
abbrev gone (cfg : Config α K) (s : State α ι K V) (x : α) : Prop :=
  s.heap.Gone (lists cfg) x

variable [DecidableEq α] [DecidableEq ι]

/-- **The list is careful**: its operations stay away from what was gone before them. -/
theorem careful : (lts (ι := ι) (V := V) cfg).Careful Event.graceCall? (gone cfg)
    (fun s => s.heap.Past (lists cfg)) fun s t => (s.pc t).Uses where
  now s := .now
  keep s a s' D hr hs hD := Step.past (Inv.of_reachable hr) hs hD
  others s t e s' q x hr hs hq hx := by
    rwa [Step.pc_of_ne hs hq] at hx
  begin s t e s' x hr hs he hx := by
    have hs : Step cfg s t e s' := hs
    have he := Event.eq_startOp he
    -- the search begins at the head
    have hhead : x = cfg.head := by
      cases hs with
      | startOp op hpc =>
        rw [State.goto_pc_self] at hx
        exact uses_begin hx
      | _ => cases he
    subst hhead
    exact fun hgone => hgone.off () .refl
  step s t e s' D x hr hs he hD huses hx := by
    have hs : Step cfg s t e s' := hs
    rcases hs.uses (Inv.of_reachable hr) hx with hx | rfl | ⟨y, hy, hmet, hn⟩
    · exact huses x hx
    · exact hD.not_of_reach (L := lists cfg) (b := ()) .refl
    · exact hD.next_of_anchored hmet (huses y hy) hn

/-- **Only what is gone is retired**, and it stays gone. -/
theorem retires : (lts (ι := ι) (V := V) cfg).Retires Event.graceCall? (gone cfg) where
  retire s t e s' x hr hs he := by
    have hs : Step cfg s t e s' := hs
    have he := Event.eq_retire he
    cases hs with
    | retire key pred y result hpc =>
      obtain rfl := Event.retire.inj he
      exact (Inv.of_reachable hr).gone_of_retire hpc
    | _ => cases he
  keep s a s' x hr hs hx := (Step.past (Inv.of_reachable hr) hs .now).gone x hx

/-- **A node is retired once.** -/
theorem retiresOnce : (lts (ι := ι) (V := V) cfg).RetiresOnce Event.graceCall?
    fun s x => x ∈ s.retired where
  retire s t e s' x hr hs he := by
    have hs : Step cfg s t e s' := hs
    have he := Event.eq_retire he
    cases hs with
    | retire key pred y result hpc =>
      obtain rfl := Event.retire.inj he
      exact ⟨fun hy => (Retired.of_reachable hr _ hy).2 t key pred result hpc,
        List.mem_cons_self⟩
    | _ => cases he
  keep s a s' x hr hs hx := Step.retired_subset hs hx

end

end LazyList
end PopSetbench

import PopSetbench.Ds.HarrisListRetire
import PopSetbench.Library.PastList

/-!
# The Harris list: which nodes an operation comes across

`careful`: an operation has no pointer to a node that was gone when it called `startOp`. A search
also goes through marked nodes, which may be gone by then, and comes from there to others; but these
are in the list or have gone after it began, too. So are the nodes that a thread walks along to
retire them, and the node that the second search of `erase` reads its key from.
-/

namespace PopSetbench
namespace HarrisList

open Function
open Heap (Reach)

variable {α ι K V : Type}

section

variable [LT K] (cfg : Config α K V)

/-- The nodes a thread has pointers to, but for one that it has allocated. -/
def Pc.Points : Pc α K V → α → Prop
  | .search _ left leftNext, x => left = some x ∨ leftNext = some x ∨ x = cfg.head
  | .loop _ left leftNext t tNext, x =>
    left = some x ∨ leftNext = some x ∨ x = t ∨ tNext.ptr = some x
  | .compareKey _ left leftNext t tNext _, x =>
    left = some x ∨ leftNext = some x ∨ x = t ∨ tNext = some x
  | .arrive _ left leftNext t, x => left = some x ∨ leftNext = some x ∨ x = t
  | .loadNext _ left leftNext t, x => left = some x ∨ leftNext = some x ∨ x = t
  | .compare _ left leftNext right, x => left = some x ∨ leftNext = some x ∨ x = right
  | .walk _ left cur right, x => left = some x ∨ x = cur ∨ x = right
  | .retire _ left node cur right, x => left = some x ∨ x = node ∨ cur = some x ∨ x = right
  | .check _ left right, x => left = some x ∨ x = right
  | .testKey _ left right, x => left = some x ∨ x = right
  | .storeNext _ _ _ left right, x => left = some x ∨ x = right
  | .casInsert _ _ _ left right, x => left = some x ∨ x = right
  | .loadSucc _ left right, x => left = some x ∨ x = right
  | .casMark _ left right succ, x => left = some x ∨ x = right ∨ succ = some x
  | .casErase _ left right succ, x => left = some x ∨ x = right ∨ succ = some x
  | .readKey _ left right, x => left = some x ∨ x = right
  | .retireErased _ right, x => x = right
  | _, _ => False

/-- The node that the key of the search is a field of. -/
def Call.Refers : Call α K V → α → Prop
  | .unlink _ _ right, x => x = right
  | _, _ => False

/-- The node that the key of the search is a field of that a thread is in. -/
def Pc.Refers : Pc α K V → α → Prop
  | .search c _ _, x | .loop c _ _ _ _, x | .compareKey c _ _ _ _ _, x | .arrive c _ _ _, x
  | .loadNext c _ _ _, x | .compare c _ _ _, x | .walk c _ _ _, x | .retire c _ _ _ _, x
  | .check c _ _, x => c.Refers x
  | _, _ => False

/-- The nodes a thread has pointers or references to, but for one that it has allocated. -/
def Pc.Uses (p : Pc α K V) (x : α) : Prop :=
  p.Points cfg x ∨ p.Refers x

end

section

variable [LinearOrder K] {cfg : Config α K V} {s s' : State α ι K V} {x : α} {t : ι}
  {e : Event α K V}

theorem points_done {c : Call α K V} {left : Option α} {right : α}
    (h : (c.done cfg left right).Points cfg x) : left = some x ∨ x = right := by
  cases c with
  | unlink key rightKey right' => exact h.elim
  | _ => exact h

theorem points_notFound {c : Call α K V} {left : Option α} {right : α}
    (h : (c.notFound cfg left right).Points cfg x) : left = some x ∨ x = right := by
  cases c with
  | insert key val a => exact h
  | _ => exact h.elim

theorem points_found {c : Call α K V} {left : Option α} {right : α}
    (h : (c.found cfg left right).Points cfg x) : left = some x ∨ x = right := by
  cases c with
  | erase key => exact h
  | _ => exact h.elim

theorem refers_done {c : Call α K V} {left : Option α} {right : α} :
    ¬ (c.done cfg left right).Refers x := by
  cases c <;> exact id

theorem refers_notFound {c : Call α K V} {left : Option α} {right : α} :
    ¬ (c.notFound cfg left right).Refers x := by
  cases c <;> exact id

theorem refers_found {c : Call α K V} {left : Option α} {right : α} :
    ¬ (c.found cfg left right).Refers x := by
  cases c <;> exact id

omit [LinearOrder K] in
theorem refers_of_keyAccess {c : Call α K V} (h : c.keyAccess = .access x) : c.Refers x := by
  cases c with
  | unlink key rightKey right => exact (Event.access.inj h).symm
  | _ => cases h

variable [DecidableEq α] [DecidableEq ι]

/-- **What is accessed** is what the thread uses. -/
theorem Step.access (h : Step cfg s t (.access x) s') : (s.pc t).Uses cfg x := by
  generalize he : (Event.access x : Event α K V) = e at h
  cases h with
  | pass c left leftNext y z k hpc hk | stop c left leftNext y nxt k hpc hk =>
    -- the key of the second search of `erase`
    rw [hpc]
    exact .inr (refers_of_keyAccess he.symm)
  | search c left leftNext hpc | loadKey c left leftNext _ nxt hpc
  | arriveNull c left leftNext _ hpc hx hl | arrive c left leftNext _ hpc hx hl
  | loadNext c left leftNext _ hpc | walk c left _ r hpc | checkRetry c left _ hpc hr hl
  | check c left _ hpc hr hl | testAbsent c left _ hpc hr hk | testFound c left _ hpc hr hk
  | loadSuccMarked key left _ hpc hl | loadSucc key left _ hpc hl
  | casMark key left _ succ hpc hl | casMarkFail key left _ succ hpc hl
  | readKey key left _ hpc =>
    obtain rfl := Event.access.inj he
    rw [hpc]
    simp [Pc.Uses, Pc.Points]
  | casUnlink c _ y r hpc hx hl | casUnlinkFail c _ leftNext r hpc hx hl
  | casInsert key val a _ r hpc hl | casInsertFail key val a _ r hpc hl
  | casErase key _ r succ hpc hl | casEraseFail key _ r succ hpc hl =>
    obtain rfl := Event.access.inj he
    rw [hpc]
    simp [Pc.Uses, Pc.Points]
  | _ => cases he

/-- **What a thread comes to have a pointer to** it had a pointer to before, or it is the head, or it
comes after such a node. -/
theorem Step.points (inv : Inv cfg s) (h : Step cfg s t e s') (hx : (s'.pc t).Points cfg x) :
    (s.pc t).Points cfg x ∨ x = cfg.head ∨
      ∃ y, (s.pc t).Points cfg y ∧ Met cfg s.arena y ∧ s.heap.next y = some x := by
  have hp := inv.shared.all t
  cases h with
  | startOp op hpc =>
    -- the operation begins with the head
    rw [State.goto_pc_self] at hx
    cases op with
    | insert key val => exact hx.elim
    | contains key =>
      rcases hx with hx | hx | hx
      · cases hx
      · cases hx
      · exact .inr (.inl hx)
    | erase key =>
      rcases hx with hx | hx | hx
      · cases hx
      · cases hx
      · exact .inr (.inl hx)
  | newNode key val y hpc hy =>
    -- the new node is not in the list yet; the search begins with the head
    rw [State.goto_pc_self] at hx
    rcases hx with hx | hx | hx
    · cases hx
    · cases hx
    · exact .inr (.inl hx)
  | search c left leftNext hpc =>
    rw [State.goto_pc_self] at hx
    rw [hpc]
    rcases hx with hx | hx | hx | hx
    · exact .inl (.inl hx)
    · exact .inl (.inr (.inl hx))
    · exact .inr (.inl hx)
    · -- the head is in the list
      exact .inr (.inr ⟨cfg.head, .inr (.inr rfl), .inr .refl, hx⟩)
  | skip c left leftNext y z hpc =>
    -- the pointer read before is the node it is at now
    rw [State.goto_pc_self] at hx
    rw [hpc]
    rcases hx with hx | hx | rfl
    · exact .inl (.inl hx)
    · exact .inl (.inr (.inl hx))
    · exact .inl (.inr (.inr (.inr rfl)))
  | loadKey c left leftNext y nxt hpc =>
    rw [State.goto_pc_self] at hx
    rw [hpc]
    exact .inl hx
  | pass c left leftNext y z k hpc hk =>
    -- the node passed becomes the left one
    rw [State.goto_pc_self] at hx
    rw [hpc]
    rcases hx with hx | hx | rfl
    · exact .inl (.inr (.inr (.inl (Option.some.inj hx).symm)))
    · exact .inl (.inr (.inr (.inr hx)))
    · exact .inl (.inr (.inr (.inr rfl)))
  | stop c left leftNext y nxt k hpc hk =>
    rw [State.goto_pc_self] at hx
    rw [hpc]
    rcases hx with hx | hx | hx
    · exact .inl (.inl hx)
    · exact .inl (.inr (.inl hx))
    · exact .inl (.inr (.inr (.inl hx)))
  | loadNext c left leftNext y hpc =>
    -- the next node comes after the one it is at
    rw [State.goto_pc_self] at hx
    rw [hpc] at hp ⊢
    rcases hx with hx | hx | hx | hx
    · exact .inl (.inl hx)
    · exact .inl (.inr (.inl hx))
    · exact .inl (.inr (.inr hx))
    · exact .inr (.inr ⟨y, .inr (.inr rfl), hp.2.1, hx⟩)
  | adjacent c left r hpc =>
    -- the nodes found
    rw [State.goto_pc_self] at hx
    rw [hpc]
    rcases hx with hx | hx
    · exact .inl (.inl hx)
    · exact .inl (.inr (.inr hx))
  | casUnlink c l y r hpc hne hl =>
    rw [State.goto_pc_self] at hx
    rw [hpc]
    rcases hx with hx | rfl | hx
    · exact .inl (.inl hx)
    · exact .inl (.inr (.inl rfl))
    · exact .inl (.inr (.inr hx))
  | casUnlinkFail c l leftNext r hpc hne hl =>
    rw [State.goto_pc_self] at hx
    rw [hpc]
    rcases hx with hx | hx | hx
    · exact .inl (.inl hx)
    · exact .inl (.inr (.inl hx))
    · exact .inr (.inl hx)
  | walk c left y r hpc =>
    -- the next node of the segment comes after the one it is at
    rw [State.goto_pc_self] at hx
    rw [hpc] at hp ⊢
    obtain ⟨-, hseg, hne, -⟩ := hp
    rcases hx with hx | hx | hx | hx
    · exact .inl (.inl hx)
    · exact .inl (.inr (.inl hx))
    · -- the nodes of the segment are marked
      obtain ⟨z, ⟨hm, -⟩, -⟩ := (Relation.ReflTransGen.cases_head hseg).resolve_left hne
      exact .inr (.inr ⟨y, .inr (.inl rfl), .inl hm, hx⟩)
    · exact .inl (.inr (.inr hx))
  | retireNext c left y z r hpc hne =>
    -- the node read comes to be retired
    rw [State.goto_pc_self] at hx
    rw [hpc]
    rcases hx with hx | rfl | hx
    · exact .inl (.inl hx)
    · exact .inl (.inr (.inr (.inl rfl)))
    · exact .inl (.inr (.inr (.inr hx)))
  | retireLast c left y r hpc =>
    rw [State.goto_pc_self] at hx
    rw [hpc]
    rcases hx with hx | hx
    · exact .inl (.inl hx)
    · exact .inl (.inr (.inr (.inr hx)))
  | testFound c left r hpc hr hk =>
    rw [State.goto_pc_self] at hx
    rw [hpc]
    exact .inl (points_found hx)
  | casInsertFail key val a l r hpc hl =>
    -- another search begins, from the head
    rw [State.goto_pc_self] at hx
    rw [hpc]
    rcases hx with hx | hx | hx
    · exact .inl (.inl hx)
    · cases hx
    · exact .inr (.inl hx)
  | loadSucc key left r hpc hl =>
    -- the successor comes after the node that was found
    rw [State.goto_pc_self] at hx
    rw [hpc] at hp ⊢
    obtain ⟨-, -, l, -, hw⟩ := hp
    rcases hx with hx | hx | hx
    · exact .inl (.inl hx)
    · exact .inl (.inr hx)
    · exact .inr (.inr ⟨r, .inr rfl, hw.right, hx⟩)
  | casErase key l r succ hpc hl =>
    rw [State.goto_pc_self] at hx
    rw [hpc]
    exact .inl (.inr (.inl hx))
  | casEraseFail key l r succ hpc hl =>
    rw [State.goto_pc_self] at hx
    rw [hpc]
    rcases hx with hx | hx
    · exact .inl (.inl hx)
    · exact .inl (.inr (.inl hx))
  | arriveTail c left leftNext hpc | arriveNull c left leftNext _ hpc hy hl
  | arrive c left leftNext _ hpc hy hl | storeNext key val a left r hpc
  | casMark key left r succ hpc hl =>
    -- the thread goes on with the same nodes
    rw [State.goto_pc_self] at hx
    rw [hpc]
    exact .inl hx
  | checkTail c left hpc | check c left r hpc hr hl =>
    -- the search has its result
    rw [State.goto_pc_self] at hx
    rw [hpc]
    exact .inl (points_done hx)
  | testTail c left hpc | testAbsent c left r hpc hr hk =>
    rw [State.goto_pc_self] at hx
    rw [hpc]
    exact .inl (points_notFound hx)
  | checkRetry c left r hpc hr hl | loadSuccMarked key left r hpc hl
  | casMarkFail key left r succ hpc hl | readKey key left r hpc =>
    -- the thread begins another search
    rw [State.goto_pc_self] at hx
    rw [hpc]
    rcases hx with hx | hx | hx
    · exact .inl (.inl hx)
    · cases hx
    · exact .inr (.inl hx)
  | _ =>
    -- the operation has ended, or has not begun
    rw [State.goto_pc_self] at hx
    exact hx.elim

/-- **What a search has a reference to** it had one to before, or `erase` has a pointer to it. -/
theorem Step.refers (h : Step cfg s t e s') (hx : (s'.pc t).Refers x) :
    (s.pc t).Refers x ∨ (s.pc t).Points cfg x := by
  cases h with
  | readKey key left r hpc =>
    rw [State.goto_pc_self] at hx
    rw [hpc]
    exact .inr (.inr hx)
  | startOp op hpc =>
    rw [State.goto_pc_self] at hx
    cases op <;> exact hx.elim
  | checkTail c left hpc | check c left r hpc hr hl =>
    rw [State.goto_pc_self] at hx
    exact absurd hx refers_done
  | testTail c left hpc | testAbsent c left r hpc hr hk =>
    rw [State.goto_pc_self] at hx
    exact absurd hx refers_notFound
  | testFound c left r hpc hr hk =>
    rw [State.goto_pc_self] at hx
    exact absurd hx refers_found
  | search c left leftNext hpc | skip c left leftNext y z hpc | loadKey c left leftNext y nxt hpc
  | pass c left leftNext y z k hpc hk | stop c left leftNext y nxt k hpc hk
  | arriveTail c left leftNext hpc | arriveNull c left leftNext _ hpc hy hl
  | arrive c left leftNext _ hpc hy hl | loadNext c left leftNext y hpc | adjacent c left r hpc
  | casUnlink c l y r hpc hne hl | casUnlinkFail c l leftNext r hpc hne hl | walk c left y r hpc
  | retireNext c left y z r hpc hne | retireLast c left y r hpc | checkRetry c left r hpc hr hl =>
    -- the search goes on
    rw [State.goto_pc_self] at hx
    rw [hpc]
    exact .inl hx
  | _ =>
    rw [State.goto_pc_self] at hx
    exact hx.elim

/-- **What a thread comes to use** it has used before, or it is the head, or it comes after a node
that it used. -/
theorem Step.uses (inv : Inv cfg s) (h : Step cfg s t e s') (hx : (s'.pc t).Uses cfg x) :
    (s.pc t).Uses cfg x ∨ x = cfg.head ∨
      ∃ y, (s.pc t).Uses cfg y ∧ Met cfg s.arena y ∧ s.heap.next y = some x := by
  rcases hx with hx | hx
  · rcases h.points inv hx with hx | rfl | ⟨y, hy, hmet, hn⟩
    · exact .inl (.inl hx)
    · exact .inr (.inl rfl)
    · exact .inr (.inr ⟨y, .inl hy, hmet, hn⟩)
  · exact .inl (h.refers hx).symm

/-! ### The nodes of the acting thread -/

omit [LinearOrder K] [DecidableEq ι] in
/-- A store does not set a mark. -/
theorem unmarked_store {l : α} {p : Option α} (h : s.heap.marked x = false) :
    (s.store l ⟨p, false⟩).heap.marked x = false := by
  show (update s.link l ⟨p, false⟩ x).mark = false
  by_cases hl : x = l
  · subst hl
    rw [update_self]
  · rw [update_of_ne hl]
    exact h

/-- **A node of its own** is not marked by the acting thread. -/
theorem Step.unmarked (inv : Inv cfg s) (h : Step cfg s t e s')
    (hx : s.allocated x = false ∨ (s.pc t).newElem? = some x) :
    s.heap.marked x = false ∧ s'.heap.marked x = false := by
  have hp := inv.shared.all t
  have hm : s.heap.marked x = false := by
    rcases hx with hx | hx
    · rw [← Bool.not_eq_true]
      intro hm
      have hall : s.allocated x = true := inv.shared.ok.marked_allocated hm
      rw [hx] at hall
      cases hall
    · exact (hp.new_private hx).unmarked
  refine ⟨hm, ?_⟩
  cases h with
  | newNode key val a hpc ha => exact unmarked_store hm
  | casUnlink c l y r hpc hne hl => exact unmarked_store hm
  | storeNext key val a left r hpc => exact unmarked_store hm
  | casInsert key val a l r hpc hl => exact unmarked_store hm
  | casErase key l r succ hpc hl => exact unmarked_store hm
  | casMark key left r succ hpc hl =>
    rw [hpc] at hp hx
    obtain ⟨-, -, l, -, hw⟩ := hp
    have hne : x ≠ r := by
      rintro rfl
      rcases hx with hx | hx
      · have hall : s.allocated x = true := inv.shared.ok.anchored_allocated hw.right
        rw [hx] at hall
        cases hall
      · cases hx
    show (update s.link r ⟨succ, true⟩ x).mark = false
    rw [update_of_ne hne]
    exact hm
  | _ => exact hm

/-- **What was gone stays out of reach.** -/
theorem Step.past (inv : Inv cfg s) (h : Step cfg s t e s') {D : α → Prop}
    (hD : s.heap.Past cfg.lists D) : s'.heap.Past cfg.lists D := by
  obtain ⟨own, c⟩ := h.change inv
  exact hD.move inv.shared.ok.wf c.move fun x hx => h.unmarked inv (c.own_new x hx).1

/-- A node that is retired is the next one of the walk. -/
theorem Step.todo_of_retire {todo : List α} (h : Step cfg s t e s') (he : e = .retire x)
    (htodo : Todo s.arena (s.pc t) todo) : x ∈ todo := by
  cases h with
  | retireNext c left y z r hpc hne =>
    obtain rfl := Event.retire.inj he
    rw [hpc] at htodo
    obtain ⟨-, -, -, rfl, -⟩ := htodo
    exact List.mem_cons_self
  | retireLast c left y r hpc =>
    obtain rfl := Event.retire.inj he
    rw [hpc] at htodo
    obtain ⟨-, -, -, rfl, -⟩ := htodo
    exact List.mem_cons_self
  | retireErased key r hpc =>
    obtain rfl := Event.retire.inj he
    rw [hpc] at htodo
    obtain rfl : todo = [_] := htodo
    exact List.mem_singleton_self _
  | pass c | stop c => cases c <;> cases he
  | _ => cases he

/-- What is retired stays so. -/
theorem Step.retired_subset (h : Step cfg s t e s') (hx : x ∈ s.retired) : x ∈ s'.retired := by
  cases h with
  | retireNext c left y z r hpc hne => exact List.mem_cons_of_mem _ hx
  | retireLast c left y r hpc => exact List.mem_cons_of_mem _ hx
  | retireErased key r hpc => exact List.mem_cons_of_mem _ hx
  | _ => exact hx

theorem Step.mem_retired (h : Step cfg s t (.retire x) s') : x ∈ s'.retired := by
  generalize he : (Event.retire x : Event α K V) = e at h
  cases h with
  | retireNext c left y z r hpc hne =>
    obtain rfl := Event.retire.inj he
    exact List.mem_cons_self
  | retireLast c left y r hpc =>
    obtain rfl := Event.retire.inj he
    exact List.mem_cons_self
  | retireErased key r hpc =>
    obtain rfl := Event.retire.inj he
    exact List.mem_cons_self
  | pass c | stop c => cases c <;> cases he
  | _ => cases he

end

/-! ### Operations and what was gone before them -/

section

variable [LinearOrder K] {cfg : Config α K V} {t : ι} {x : α}

/-- The node is marked and not in the list. -/
abbrev gone (cfg : Config α K V) (s : State α ι K V) (x : α) : Prop :=
  s.heap.Gone cfg.lists x

variable [DecidableEq α] [DecidableEq ι]

/-- **The list is careful**: its operations stay away from what was gone before them. -/
theorem careful : (lts (ι := ι) cfg).Careful Event.graceCall? (gone cfg)
    (fun s => s.heap.Past cfg.lists) fun s t => (s.pc t).Uses cfg where
  now s := .now
  keep s a s' D hr hs hD := Step.past (Inv.of_reachable hr) hs hD
  others s t e s' q x hr hs hq hx := by
    rwa [Step.pc_of_ne hs hq] at hx
  begin s t e s' x hr hs he hx := by
    have hs : Step cfg s t e s' := hs
    have he := Event.eq_startOp he
    -- the search begins at the head
    have hhead : x = cfg.head := by
      cases hs with
      | startOp op hpc =>
        rw [State.goto_pc_self] at hx
        cases op with
        | insert key val => exact (hx.elim id id).elim
        | _ => exact ((hx.resolve_right id).resolve_left (by simp)).resolve_left (by simp)
      | pass c | stop c => cases c <;> cases he
      | _ => cases he
    subst hhead
    exact fun hgone => hgone.off () .refl
  step s t e s' D x hr hs he hD huses hx := by
    have hs : Step cfg s t e s' := hs
    rcases hs.uses (Inv.of_reachable hr) hx with hx | rfl | ⟨y, hy, hmet, hn⟩
    · exact huses x hx
    · exact hD.not_of_reach (L := cfg.lists) (b := ()) .refl
    · exact hD.next_of_anchored hmet (huses y hy) hn

/-- **Only what is gone is retired**, and it stays gone. -/
theorem retires : (lts (ι := ι) cfg).Retires Event.graceCall? (gone cfg) where
  retire s t e s' x hr hs he := by
    have hs : Step cfg s t e s' := hs
    obtain ⟨todo, R⟩ := Retire.of_reachable hr
    have hx := hs.todo_of_retire (Event.eq_retire he) (R.walk t)
    obtain ⟨hm, hoff⟩ := (R.todo_gone hx).1
    exact ⟨hm, fun _ => hoff⟩
  keep s a s' x hr hs hx := (Step.past (Inv.of_reachable hr) hs .now).gone x hx

/-- **A node is retired once.** -/
theorem retiresOnce : (lts (ι := ι) cfg).RetiresOnce Event.graceCall?
    fun s x => x ∈ s.retired where
  retire s t e s' x hr hs he := by
    have hs : Step cfg s t e s' := hs
    have he := Event.eq_retire he
    obtain ⟨todo, R⟩ := Retire.of_reachable hr
    refine ⟨(R.todo_gone (hs.todo_of_retire he (R.walk t))).2, ?_⟩
    subst he
    exact hs.mem_retired
  keep s a s' x hr hs hx := Step.retired_subset hs hx

end

end HarrisList
end PopSetbench

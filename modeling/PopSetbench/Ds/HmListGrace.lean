import PopSetbench.Ds.HmListRetire
import PopSetbench.Library.PastList

/-!
# Harris–Michael lists: which nodes an operation comes across

A reclaimer that waits for operations frees nodes that were gone when the operations that are
running now began. `careful`: an operation has no pointer to such a node, between `startOp` and
`endOp`. What a thread has pointers to (`Pc.Uses`) it has found at the head of a list or in the
`next` pointer of a node that it used before (`Step.uses`).

Nothing is said of what a thread accesses after `endOp`: the value that `doInsert` reads if the key
is in the list, and all that `erase` does after a marking CAS has failed, if it calls `endOp` then.
-/

namespace PopSetbench
namespace HmList

open Function
open Heap (Reach)

variable {β α ι K V : Type}

/-- The nodes a thread has pointers to, but for one that it has allocated. -/
def Pc.Uses : Pc β α K V → α → Prop
  | .loop _ prev curr, x => prev.owner = some x ∨ curr = some x
  | .recheck _ prev curr nxt, x => prev.owner = some x ∨ x = curr ∨ nxt.ptr = some x
  | .readKey _ prev curr nxt, x => prev.owner = some x ∨ x = curr ∨ nxt.ptr = some x
  | .checkPrev _ prev curr nxt _, x => prev.owner = some x ∨ x = curr ∨ nxt.ptr = some x
  | .casHelp _ prev curr nxt, x => prev.owner = some x ∨ x = curr ∨ nxt = some x
  | .retireHelped _ prev curr nxt, x => prev.owner = some x ∨ x = curr ∨ nxt = some x
  | .deallocate _ _ _ curr, x => x = curr
  | .endFound _ _ curr, x => x = curr
  | .readFound _ _ curr, x => x = curr
  | .storeNext _ _ _ prev curr, x => prev.owner = some x ∨ curr = some x
  | .casInsert _ _ _ prev curr, x => prev.owner = some x ∨ curr = some x
  | .readVal _ prev curr nxt, x => prev.owner = some x ∨ x = curr ∨ nxt = some x
  | .casMark _ prev curr nxt _, x => prev.owner = some x ∨ x = curr ∨ nxt = some x
  | .casUnlink _ prev curr nxt _, x => prev.owner = some x ∨ x = curr ∨ nxt = some x
  | .retireErased _ curr _, x => x = curr
  | _, _ => False

theorem uses_notFound {c : Call α K V} {prev : Link β α} {curr : Option α} {x : α}
    (h : (c.notFound prev curr).Uses x) : prev.owner = some x ∨ curr = some x := by
  cases c with
  | insert key val a => exact h
  | _ => exact h.elim

theorem uses_found {c : Call α K V} {prev : Link β α} {curr x : α} {nxt : Option α}
    (h : (c.found prev curr nxt).Uses x) : prev.owner = some x ∨ x = curr ∨ nxt = some x := by
  cases c with
  | erase key => exact h
  | insert key val a => exact .inr (.inl h)
  | _ => exact h.elim

theorem Link.access_ne_startOp {l : Link β α} : (l.access : Event α K V) ≠ .startOp := by
  cases l <;> intro h <;> cases h

theorem owner_of_access {l : Link β α} {x : α} (h : (l.access : Event α K V) = .access x) :
    l.owner = some x := by
  cases l with
  | head b => cases h
  | next y =>
    obtain rfl := Event.access.inj h
    rfl

section

variable [LinearOrder K] {impl : Impl β K} {cfg : Config β α K} {s s' : State β α ι K V} {x : α}
  {t : ι} {e : Event α K V}

variable [DecidableEq β] [DecidableEq α] [DecidableEq ι]

/-- **What is accessed** is what the thread uses. -/
theorem Step.access (h : Step impl cfg s t (.access x) s') : (s.pc t).Uses x := by
  -- the accesses through `prev` are those of its node
  generalize he : (Event.access x : Event α K V) = e at h
  cases h with
  | loop c prev y hpc | recheckFail c prev y nxt hpc | recheck c prev y nxt hpc
  | readKey c prev y nxt hpc | readVal key prev y nxt hpc | casMark key prev y nxt res hpc
  | casMarkFail key prev y nxt res hpc =>
    obtain rfl := Event.access.inj he
    rw [hpc]
    simp [Pc.Uses]
  | checkPrevFail c prev y nxt ckey hpc | advance c prev y nxt ckey hpc
  | found c prev y nxt ckey hpc | notFound c prev y nxt ckey hpc | help c prev y nxt ckey hpc
  | casHelp c prev y nxt hpc | casHelpFail c prev y nxt hpc =>
    rw [hpc]
    exact .inl (owner_of_access he.symm)
  | casInsert key val a prev curr hpc | casInsertFail key val a prev curr hpc
  | casUnlink key prev y nxt res hpc | casUnlinkFail key prev y nxt res hpc =>
    rw [hpc]
    exact .inl (owner_of_access he.symm)
  | readFound key val y hpc =>
    obtain rfl := Event.access.inj he
    rw [hpc]
    rfl
  | _ => cases he

/-- **What a thread comes to use** inside an operation it has used before, or found at the head of a
list or after a node that it used. -/
theorem Step.uses (inv : Inv impl cfg s) (h : Step impl cfg s t e s')
    (he : e.graceCall? ≠ some .endOp) (hx : (s'.pc t).Uses x) :
    (s.pc t).Uses x ∨ (∃ b, Reach s.heap.next (cfg.head b) x) ∨
      ∃ y b, (s.pc t).Uses y ∧ s.heap.Anchored (cfg.lists impl) b y ∧ s.heap.next y = some x := by
  have hp := inv.pc t
  cases h with
  | startOp op hpc =>
    rw [State.goto_pc_self] at hx
    cases op <;> exact hx.elim
  | search c curr hpc hl =>
    rw [State.goto_pc_self] at hx
    rcases hx with hx | rfl
    · cases hx
    · -- a list begins with its first sentinel
      rw [inv.link_head] at hl
      obtain ⟨hl, -⟩ := MarkPtr.mk.inj hl
      obtain rfl := Option.some.inj hl
      exact .inr (.inl ⟨_, .refl⟩)
  | loopNull c prev hpc =>
    rw [State.goto_pc_self] at hx
    rw [hpc]
    exact .inl (uses_notFound hx)
  | loop c prev y hpc =>
    -- the search reads what the node points to, and the node has been met
    rw [State.goto_pc_self] at hx
    rw [hpc] at hp ⊢
    obtain ⟨-, z, hz, -, hmet⟩ := hp
    obtain rfl := Option.some.inj hz
    rcases hx with hx | rfl | hx
    · exact .inl (.inl hx)
    · exact .inl (.inr rfl)
    · exact .inr (.inr ⟨y, _, .inr rfl, hmet, hx⟩)
  | advance c prev y nxt ckey hpc hl hk =>
    -- the node and the one behind it are those that were read
    rw [State.goto_pc_self] at hx
    rw [hpc]
    rcases hx with hx | hx
    · obtain rfl := Option.some.inj hx
      exact .inl (.inr (.inl rfl))
    · exact .inl (.inr (.inr hx))
  | found c prev y nxt ckey hpc hl hk =>
    rw [State.goto_pc_self] at hx
    rw [hpc]
    exact .inl (uses_found hx)
  | notFound c prev y nxt ckey hpc hl hk =>
    rw [State.goto_pc_self] at hx
    rw [hpc]
    rcases uses_notFound hx with hx | hx
    · exact .inl (.inl hx)
    · exact .inl (.inr (.inl (Option.some.inj hx).symm))
  | retireHelped c prev y nxt hpc =>
    rw [State.goto_pc_self] at hx
    rw [hpc]
    rcases hx with hx | hx
    · exact .inl (.inl hx)
    · exact .inl (.inr (.inr hx))
  | casUnlink key prev y nxt res hpc hl =>
    rw [State.goto_pc_self] at hx
    rw [hpc]
    exact .inl (.inr (.inl hx))
  | casMarkFail key prev y nxt res hpc hl =>
    -- the operation begins again, and keeps no node for that
    rw [State.goto_pc_self] at hx
    cases hr : impl.endOpOnRetry with
    | false =>
      rw [hr] at hx
      exact hx.elim
    | true =>
      rw [hr] at hx
      exact hx.elim
  | recheck c prev y nxt hpc hl | readKey c prev y nxt hpc | help c prev y nxt ckey hpc hl
  | casHelp c prev y nxt hpc hl | deallocate key val a y hpc
  | storeNext key val a prev curr hpc | readVal key prev y nxt hpc
  | casMark key prev y nxt res hpc hl =>
    -- the thread goes on with the same nodes
    rw [State.goto_pc_self] at hx
    rw [hpc]
    exact .inl hx
  | endFound key val y hpc => exact absurd rfl he
  | _ =>
    rw [State.goto_pc_self] at hx
    exact hx.elim

/-! ### The nodes of the acting thread -/

/-- After `startOp` the thread uses nothing yet. -/
theorem Step.start (h : Step impl cfg s t e s') (he : e.graceCall? = some .startOp) :
    ¬ (s'.pc t).Uses x := by
  intro hx
  have he := Event.eq_startOp he
  cases h with
  | startOp op hpc =>
    rw [State.goto_pc_self] at hx
    cases op <;> exact hx.elim
  | _ => first
    | cases he
    | exact Link.access_ne_startOp he

omit [LinearOrder K] [DecidableEq ι] in
/-- A store does not set a mark. -/
theorem unmarked_store {l : Link β α} {p : Option α} (h : s.heap.marked x = false) :
    (s.store l ⟨p, false⟩).heap.marked x = false := by
  show (update s.link l ⟨p, false⟩ (.next x)).mark = false
  by_cases hl : Link.next x = l
  · subst hl
    rw [update_self]
  · rw [update_of_ne hl]
    exact h

/-- **A node of its own** is not marked by the acting thread. -/
theorem Step.unmarked (inv : Inv impl cfg s) (h : Step impl cfg s t e s')
    (hx : s.allocated x = false ∨ (s.pc t).newNode? = some x) :
    s.heap.marked x = false ∧ s'.heap.marked x = false := by
  have hp := inv.pc t
  have hm : s.heap.marked x = false := by
    rcases hx with hx | hx
    · rw [← Bool.not_eq_true]
      intro hm
      rw [inv.marked_allocated hm] at hx
      cases hx
    · exact (hp.private_newNode hx).unmarked
  refine ⟨hm, ?_⟩
  cases h with
  | newNode key val a hpc ha => exact unmarked_store (l := .next a) hm
  | casHelp c prev y nxt hpc hl => exact unmarked_store hm
  | storeNext key val a prev curr hpc => exact unmarked_store hm
  | casInsert key val a prev curr hpc hl => exact unmarked_store hm
  | casUnlink key prev y nxt res hpc hl => exact unmarked_store hm
  | casMark key prev y nxt res hpc hl =>
    rw [hpc] at hp hx
    obtain ⟨-, -, hmet, -⟩ := hp
    have hne : x ≠ y := by
      rintro rfl
      rcases hx with hx | hx
      · rw [inv.met_allocated hmet] at hx
        cases hx
      · cases hx
    show (update s.link (.next y) ⟨nxt, true⟩ (.next x)).mark = false
    rw [update_of_ne (by simpa using hne)]
    exact hm
  | _ => exact hm

/-- **What was gone stays out of reach.** -/
theorem Step.past (inv : Inv impl cfg s) (h : Step impl cfg s t e s') {D : α → Prop}
    (hD : s.heap.Past (cfg.lists impl) D) : s'.heap.Past (cfg.lists impl) D := by
  obtain ⟨own, f⟩ := h.frame inv
  exact hD.move inv.wf f.move fun x hx => h.unmarked inv (f.own_new x hx).1

/-- What is retired stays so. -/
theorem Step.retired_subset (h : Step impl cfg s t e s') (hx : x ∈ s.retired) : x ∈ s'.retired := by
  cases h with
  | retireHelped c prev y nxt hpc => exact List.mem_cons_of_mem _ hx
  | retireErased key y res hpc => exact List.mem_cons_of_mem _ hx
  | _ => exact hx

theorem Step.mem_retired (h : Step impl cfg s t (.retire x) s') : x ∈ s'.retired := by
  generalize he : (Event.retire x : Event α K V) = e at h
  cases h with
  | retireHelped c prev y nxt hpc =>
    obtain rfl := Event.retire.inj he
    exact List.mem_cons_self
  | retireErased key y res hpc =>
    obtain rfl := Event.retire.inj he
    exact List.mem_cons_self
  | _ => first
    | exact absurd he.symm Link.access_ne_retire
    | cases he

end

/-! ### Operations and what was gone before them -/

section

variable [LinearOrder K] {impl : Impl β K} {cfg : Config β α K} {t : ι} {x : α}

/-- The node is marked and in no list. -/
abbrev gone (impl : Impl β K) (cfg : Config β α K) (s : State β α ι K V) (x : α) : Prop :=
  s.heap.Gone (cfg.lists impl) x

variable [DecidableEq β] [DecidableEq α] [DecidableEq ι]

/-- **The list is careful**: its operations stay away from what was gone before them. -/
theorem careful : (lts (ι := ι) (V := V) impl cfg).Careful Event.graceCall? (gone impl cfg)
    (fun s => s.heap.Past (cfg.lists impl)) fun s t => (s.pc t).Uses where
  now s := .now
  keep s a s' D hr hs hD := Step.past (Inv.of_reachable hr) hs hD
  others s t e s' q x hr hs hq hx := by
    obtain ⟨own, f⟩ := Step.frame (Inv.of_reachable hr) hs
    rwa [f.pc q hq] at hx
  begin s t e s' x hr hs he hx := by
    have hs : Step impl cfg s t e s' := hs
    exact absurd hx (hs.start he)
  step s t e s' D x hr hs he hD huses hx := by
    have hs : Step impl cfg s t e s' := hs
    rcases hs.uses (Inv.of_reachable hr) he hx with hx | ⟨b, hx⟩ | ⟨y, b, hy, hmet, hn⟩
    · exact huses x hx
    · exact hD.not_of_reach (L := cfg.lists impl) hx
    · exact hD.next_of_anchored hmet (huses y hy) hn

/-- **Only what is gone is retired**, and it stays gone. -/
theorem retires : (lts (ι := ι) (V := V) impl cfg).Retires Event.graceCall? (gone impl cfg) where
  retire s t e s' x hr hs he := by
    have hs : Step impl cfg s t e s' := hs
    have hx := hs.unlinked_of_retire (Event.eq_retire he)
    have hgone := ((Retire.of_reachable hr).unlinked hx).1
    exact ⟨hgone.marked, hgone.off⟩
  keep s a s' x hr hs hx := (Step.past (Inv.of_reachable hr) hs .now).gone x hx

/-- **A node is retired once.** -/
theorem retiresOnce : (lts (ι := ι) (V := V) impl cfg).RetiresOnce Event.graceCall?
    fun s x => x ∈ s.retired where
  retire s t e s' x hr hs he := by
    have hs : Step impl cfg s t e s' := hs
    have he := Event.eq_retire he
    have hx := hs.unlinked_of_retire he
    refine ⟨((Retire.of_reachable hr).unlinked hx).2, ?_⟩
    subst he
    exact hs.mem_retired
  keep s a s' x hr hs hx := Step.retired_subset hs hx

end

end HmList
end PopSetbench

import PopSetbench.Library.OwnedList

/-!
# Nodes that were gone at an earlier moment

A node is gone once it is marked and in no list. `Past D` says that the nodes in `D` were gone at
some moment, and that nothing leads to them from elsewhere: neither a list, nor a node that has
gone since. A node that goes keeps its `next` pointer, and that pointer leads to a node that was
still in the list a moment ago; so this is kept by all moves (`Past.move`).

A traversal that begins after that moment at the head of a list therefore never comes to a node in
`D`, even if it goes on from nodes that have been cut off meanwhile (`Past.next_of_anchored`).
-/

namespace Heap

variable {β α K : Type*} {H H' : Heap α K} {L : ListFamily β α K} {b : β} {x y : α} {D : α → Prop}

variable (L H) in
/-- The node is marked and in no list. -/
structure Gone (x : α) : Prop where
  marked : H.marked x = true
  off : ∀ b, ¬ Reach H.next (L.head b) x

variable (L H) in
/-- The nodes in `D` were gone at an earlier moment. -/
structure Past (D : α → Prop) : Prop where
  gone : ∀ x, D x → H.Gone L x
  /-- Nodes that have gone since do not lead there. -/
  next : ∀ x y, H.Gone L x → ¬ D x → H.next x = some y → ¬ D y

/-- What is gone now. -/
theorem Past.now : H.Past L (H.Gone L) where
  gone _ hx := hx
  next _ _ hx hnot := absurd hx hnot

theorem Past.not_of_reach (h : H.Past L D) (hx : Reach H.next (L.head b) x) : ¬ D x :=
  fun hD => (h.gone x hD).off b hx

/-- A marked node of a list is not gone. -/
theorem Past.next_of_marked (h : H.Past L D) (hm : H.marked x = true) (hD : ¬ D x)
    (hn : H.next x = some y) : ¬ D y := by
  by_cases hlist : ∃ b, Reach H.next (L.head b) x
  · obtain ⟨b, hb⟩ := hlist
    exact h.not_of_reach (hb.step hn)
  · exact h.next x y ⟨hm, fun b hb => hlist ⟨b, hb⟩⟩ hD hn

/-- **A traversal stays outside.** -/
theorem Past.next_of_anchored (h : H.Past L D) (hx : H.Anchored L b x) (hD : ¬ D x)
    (hn : H.next x = some y) : ¬ D y := by
  rcases hx with hm | hx
  · exact h.next_of_marked hm hD hn
  · exact h.not_of_reach (hx.step hn)

variable [LinearOrder K] [DecidableEq α] {own : α → Prop}

/-- What is gone stays gone, and does not change. -/
theorem Gone.move (hx : H.Gone L x) (w : H.WF L) (m : H.Move L own H') (ho : ¬ own x) :
    H'.Gone L x ∧ H'.next x = H.next x := by
  obtain ⟨hm, hn⟩ := (m.evolves w).frozen ho hx.marked
  refine ⟨⟨hm, fun b hb => ?_⟩, hn⟩
  exact (m.reach_back w hb).elim (hx.off b) ho

/-- **Moves keep it.** -/
theorem Past.move (h : H.Past L D) (w : H.WF L) (m : H.Move L own H')
    (hown : ∀ x, own x → H.marked x = false ∧ H'.marked x = false) : H'.Past L D := by
  have hnot : ∀ {x}, H.marked x = true → ¬ own x := by
    intro x hm ho
    rw [(hown x ho).1] at hm
    cases hm
  have hnot' : ∀ {x}, H'.marked x = true → ¬ own x := by
    intro x hm ho
    rw [(hown x ho).2] at hm
    cases hm
  refine ⟨fun x hD => ?_, fun x y hx hD hn => ?_⟩
  · have hx := h.gone x hD
    exact (hx.move w m (hnot hx.marked)).1
  · have ho := hnot' hx.marked
    by_cases hm : H.marked x = true
    · have hnext := ((m.evolves w).frozen ho hm).2
      rw [hnext] at hn
      exact h.next_of_marked hm hD hn
    · -- a node is in its list when it is marked
      obtain ⟨b, hb⟩ := m.reach_of_newly_marked (Bool.eq_false_iff.mpr hm) hx.marked ho
      exact absurd hb (hx.off b)

end Heap

import PopSetbench.Library.MarkedList

/-!
# Lists shared by threads that allocate nodes

Threads work on the lists of a heap; a node that a thread has allocated and not yet linked is its
own. What a thread holds on to is of three kinds, and each survives the steps of the others
(`Stable`): a node it has met in a list is still there or marked; a node that is marked does not
change any more; its own node is as it was.

* `Arena` — the heap, the values of its nodes, and which nodes were allocated;
* `Arena.Ok` — the invariant of the memory;
* `Arena.Change` — what one step of a thread does to it, as a move on the lists;
* `Shared` — the invariant of memory and threads together, given by what a thread knows at each
  point of its code, and `Shared.step`, which proves it for all threads at once.
-/

open Heap (Reach)

/-- The memory of lists. -/
structure Arena (α K V : Type*) where
  /-- The nodes. -/
  heap : Heap α K
  /-- Their values. -/
  val : α → V
  /-- Nodes that were allocated. -/
  allocated : α → Bool

namespace Arena

variable {β α K V : Type*} {L : ListFamily β α K} {A A' : Arena α K V} {b : β} {x y : α}
  {mine own priv : α → Prop}

variable (L A) in
/-- The node was allocated, and no thread has seen it in a list. -/
structure Private (x : α) : Prop where
  allocated : A.allocated x = true
  unmarked : A.heap.marked x = false
  off : ∀ b, ¬ Reach A.heap.next (L.head b) x

variable (A A' L priv) in
/-- What survives a step, for a thread whose own nodes are those in `priv`. -/
structure Stable : Prop where
  anchored : ∀ {b x}, A.heap.Anchored L b x →
    A'.heap.Anchored L b x ∧ A'.heap.key x = A.heap.key x ∧ A'.val x = A.val x
  frozen : ∀ {x}, A.heap.marked x = true → A'.heap.marked x = true ∧
    A'.heap.next x = A.heap.next x ∧ A'.heap.key x = A.heap.key x
  priv : ∀ {x}, A.Private L x → priv x → A'.Private L x ∧
    A'.heap.next x = A.heap.next x ∧ A'.heap.key x = A.heap.key x ∧ A'.val x = A.val x

theorem Stable.marked (st : Stable L A A' priv) (h : A.heap.marked x = true) :
    A'.heap.marked x = true :=
  (st.frozen h).1

/-- Segments stay segments. -/
theorem Stable.segment (st : Stable L A A' priv) (h : A.heap.Segment x y) :
    A'.heap.Segment x y := by
  refine Relation.ReflTransGen.mono (fun z w hzw => ?_) _ _ h
  obtain ⟨hm, hn⟩ := hzw
  obtain ⟨hm', hn', -⟩ := st.frozen hm
  exact ⟨hm', hn'.trans hn⟩

theorem Private.not_anchored (h : A.Private L x) : ¬ A.heap.Anchored L b x := by
  rintro (hm | hr)
  · rw [h.unmarked] at hm
    cases hm
  · exact h.off _ hr

/-- A node that was met in a list and is not marked is in the list. -/
theorem reach_of_anchored (h : A.heap.Anchored L b x) (hm : A.heap.marked x = false) :
    Reach A.heap.next (L.head b) x := by
  apply h.resolve_left
  rw [hm]
  exact Bool.false_ne_true

variable [LinearOrder K]

variable (L A) in
/-- **The invariant of the memory.** -/
structure Ok : Prop where
  /-- The lists are well-formed. -/
  wf : A.heap.WF L
  /-- Nodes of lists were allocated. -/
  reach_allocated : ∀ {b x}, Reach A.heap.next (L.head b) x → A.allocated x = true
  /-- Marked nodes were allocated. -/
  marked_allocated : ∀ {x}, A.heap.marked x = true → A.allocated x = true
  /-- From a marked node on one comes back to the list. -/
  trail : ∀ {x}, A.heap.marked x = true →
    ∃ b y, A.heap.next x = some y ∧ A.heap.Anchored L b y ∧ A.heap.key x < A.heap.key y

theorem Ok.anchored_allocated (ok : A.Ok L) (h : A.heap.Anchored L b x) :
    A.allocated x = true :=
  h.elim ok.marked_allocated ok.reach_allocated

/-- Nodes grow along segments. -/
theorem Ok.le_of_segment (ok : A.Ok L) (h : A.heap.Segment x y) :
    x = y ∨ A.heap.key x < A.heap.key y := by
  induction h with
  | refl => exact .inl rfl
  | @tail z y _ hzy ih =>
    obtain ⟨hm, hn⟩ := hzy
    obtain ⟨-, y', hy', -, hlt⟩ := ok.trail hm
    obtain rfl := Option.some.inj (hn.symm.trans hy')
    rcases ih with rfl | hlt'
    · exact .inr hlt
    · exact .inr (hlt'.trans hlt)

variable [DecidableEq α]

variable (L mine own A A') in
/-- What a step does to the memory; `mine` are the nodes of the acting thread, `own` those that it
writes and that are in no list. -/
structure Change : Prop where
  /-- The thread allocates the node or has allocated it before. -/
  own_new : ∀ x, own x → (A.allocated x = false ∨ mine x) ∧ A'.allocated x = true
  /-- The step is a move on the lists. -/
  move : A.heap.Move L own A'.heap
  val : ∀ x, ¬ own x → A'.val x = A.val x
  allocated : ∀ x, A.allocated x = true → A'.allocated x = true

theorem Change.refl : Change L A A mine fun _ => False where
  own_new _ h := h.elim
  move := .stay
  val _ _ := rfl
  allocated _ h := h

/-- Nodes seen in a list are not written as nodes of the acting thread. -/
theorem Change.not_own (c : Change L A A' mine own) (hmine : ∀ x, mine x → A.Private L x)
    (hx : A.allocated x = true) (hp : ¬ A.Private L x) : ¬ own x := by
  intro ho
  rcases (c.own_new x ho).1 with h | h
  · rw [hx] at h
    cases h
  · exact hp (hmine x h)

theorem Change.stable (c : Change L A A' mine own) (ok : A.Ok L)
    (hmine : ∀ x, mine x → A.Private L x) : Stable L A A' fun x => ¬ own x := by
  have e := c.move.evolves ok.wf
  refine ⟨fun {b x} hx => ?_, fun {x} hm => ?_, fun {x} hpr ho => ?_⟩
  · have ho := c.not_own hmine (ok.anchored_allocated hx) fun hp => hp.not_anchored hx
    exact ⟨e.anchored ho hx, e.key ho, c.val x ho⟩
  · have ho : ¬ own x := by
      apply c.not_own hmine (ok.marked_allocated hm)
      intro hp
      rw [hp.unmarked] at hm
      cases hm
    obtain ⟨hm', hn⟩ := e.frozen ho hm
    exact ⟨hm', hn, e.key ho⟩
  · obtain ⟨hn, hm⟩ := c.move.of_off hpr.off ho
    refine ⟨⟨c.allocated x hpr.allocated, hm.trans hpr.unmarked, fun b hb => ?_⟩, hn, e.key ho,
      c.val x ho⟩
    exact (c.move.reach_back ok.wf hb).elim (hpr.off b) ho

/-- **The memory, step by step.** -/
theorem Ok.change (ok : A.Ok L) (c : Change L A A' mine own)
    (hmine : ∀ x, mine x → A.Private L x) (hown : ∀ x, own x → A'.heap.marked x = false) :
    A'.Ok L := by
  have st := c.stable ok hmine
  refine ⟨c.move.wf ok.wf, fun {b x} hx => ?_, fun {x} hx => ?_, fun {x} hx => ?_⟩
  · rcases c.move.reach_back ok.wf hx with h | h
    · exact c.allocated x (ok.reach_allocated h)
    · exact (c.own_new x h).2
  · rcases c.move.marked_back hx with h | ⟨b, h⟩ | h
    · exact c.allocated x (ok.marked_allocated h)
    · exact c.allocated x (ok.reach_allocated h)
    · exact (c.own_new x h).2
  · have hxo : ¬ own x := by
      intro ho
      rw [hown x ho] at hx
      cases hx
    by_cases hm : A.heap.marked x = true
    · obtain ⟨b, y, hn, hy, hlt⟩ := ok.trail hm
      obtain ⟨hy', hk, -⟩ := st.anchored hy
      obtain ⟨-, hn', hk'⟩ := st.frozen hm
      exact ⟨b, y, hn'.trans hn, hy', by rw [hk, hk']; exact hlt⟩
    · -- the node has just been marked, so it is in a list and no tail
      rcases c.move.marked_back hx with h | ⟨b, h⟩ | h
      · exact absurd h hm
      · have w := c.move.wf ok.wf
        have hxa := (st.anchored (b := b) (.inr h)).1
        have hne : x ≠ L.tail b := by
          rintro rfl
          rw [w.marked_tail] at hx
          cases hx
        obtain ⟨y, hy, hlt⟩ := ok.wf.sorted h hne
        have hya := st.anchored (b := b) (.inr (h.step hy))
        refine ⟨b, y, ?_, hya.1, ?_⟩
        · rw [c.move.next_of_marked (Bool.eq_false_iff.mpr hm) hx hxo, hy]
        · rw [hya.2.1, (st.anchored (b := b) (.inr h)).2.1]
          exact hlt
      · exact absurd h hxo

end Arena

/-! ### Memory and threads -/

section Shared

open Arena

variable {β α ι K V P : Type*} [LinearOrder K] {L : ListFamily β α K}

/-- What threads know: `knows` is what one knows at a point of its code, `new` the node that it has
allocated and not yet linked. -/
structure Local (L : ListFamily β α K) (knows : Arena α K V → P → Prop) (new : P → Option α) :
    Prop where
  /-- What a thread knows survives. -/
  mono : ∀ {A A' : Arena α K V} {priv : α → Prop} {p : P}, Stable L A A' priv →
    (∀ a, new p = some a → priv a) → knows A p → knows A' p
  /-- It knows its own node. -/
  new_private : ∀ {A : Arena α K V} {p : P} {a : α}, knows A p → new p = some a → A.Private L a

/-- **The invariant of memory and threads.** -/
structure Shared (L : ListFamily β α K) (knows : Arena α K V → P → Prop) (new : P → Option α)
    (A : Arena α K V) (pc : ι → P) : Prop where
  ok : A.Ok L
  /-- Every thread knows what it needs. -/
  all : ∀ t, knows A (pc t)
  /-- No two threads own the same node. -/
  new_ne : ∀ {t t' a}, new (pc t) = some a → new (pc t') = some a → t = t'

variable [DecidableEq α] {knows : Arena α K V → P → Prop} {new : P → Option α}
  {A A' : Arena α K V} {pc pc' : ι → P} {t : ι} {own : α → Prop}

theorem Shared.change_stable (I : Shared L knows new A pc) (loc : Local L knows new)
    (c : Change L A A' (fun x => new (pc t) = some x) own) :
    Stable L A A' fun x => ¬ own x :=
  c.stable I.ok fun _ hx => loc.new_private (I.all t) hx

/-- The node of another thread is not written. -/
theorem Shared.other_own (I : Shared L knows new A pc) (loc : Local L knows new)
    (c : Change L A A' (fun x => new (pc t) = some x) own) {q : ι} (hq : q ≠ t) {a : α}
    (ha : new (pc q) = some a) : ¬ own a := by
  intro ho
  rcases (c.own_new a ho).1 with h | h
  · rw [(loc.new_private (I.all q) ha).allocated] at h
    cases h
  · exact hq (I.new_ne ha h)

/-- **Step rule.** Given what the step does to the memory, only the acting thread has to show what
it knows afterwards. -/
theorem Shared.step (I : Shared L knows new A pc) (loc : Local L knows new)
    (c : Change L A A' (fun x => new (pc t) = some x) own)
    (hown : ∀ x, own x → A'.heap.marked x = false)
    (hpc : ∀ q, q ≠ t → pc' q = pc q) (hknows : knows A' (pc' t))
    (hnew : ∀ a, new (pc' t) = some a → new (pc t) = some a ∨ A.allocated a = false) :
    Shared L knows new A' pc' := by
  have st := I.change_stable loc c
  refine ⟨I.ok.change c (fun _ hx => loc.new_private (I.all t) hx) hown, fun q => ?_,
    fun {q q' a} ha ha' => ?_⟩
  · by_cases hq : q = t
    · subst hq
      exact hknows
    · rw [hpc q hq]
      exact loc.mono st (fun a ha => I.other_own loc c hq ha) (I.all q)
  · -- a node of another thread was allocated before, so `t` has not just got it
    have hothers : ∀ {u}, u ≠ t → new (pc u) = some a → new (pc' t) ≠ some a := by
      intro u hu h h'
      rcases hnew a h' with h' | h'
      · exact hu (I.new_ne h h')
      · rw [(loc.new_private (I.all u) h).allocated] at h'
        cases h'
    by_cases hq : q = t <;> by_cases hq' : q' = t
    · exact hq.trans hq'.symm
    · subst hq
      rw [hpc q' hq'] at ha'
      exact absurd ha (hothers hq' ha')
    · subst hq'
      rw [hpc q hq] at ha
      exact absurd ha' (hothers hq ha)
    · rw [hpc q hq] at ha
      rw [hpc q' hq'] at ha'
      exact I.new_ne ha ha'

end Shared

import Mathlib.Data.Fintype.Basic
import PopSetbench.Library.Slots

/-!
# Announcements through store buffers

The slots of `Slots` on a machine with store buffers: what a thread stores in a slot waits in a
buffer of the thread, in order, until it reaches the memory, which may be at any time. A thread sees
its own stores at once (`Buffered.view`), the others see the memory.

Before a scan copies the slots it runs a barrier, which empties the buffers of all threads, in any
order. An item is *covered* by a slot (`Buffered.Covered`) if the owner of the slot sees the property
`P` there, every scan that may free the item and has emptied the buffer of the owner finds it in the
memory and in what is still to be stored there, and every scan that has copied the slot has found
it. So a store need not reach the memory before the item is used: a slot covers what is not retired
yet as soon as its owner has stored (`Covered.of_not_retired`), and goes on to do so
(`Covered.step`).
-/

open Function

/-- The slots after the stores of a buffer, oldest first. -/
def drain {k : ℕ} {V : Type*} (buffer : List (Fin k × V)) (slot : Fin k → V) : Fin k → V :=
  buffer.foldl (fun f p => update f p.1 p.2) slot

section Drain

variable {k : ℕ} {V : Type*} {buffer : List (Fin k × V)} {slot : Fin k → V} {i j : Fin k} {v : V}
  {P : V → Prop}

/-- One more store is seen at once. -/
@[simp] theorem drain_concat : drain (buffer ++ [(j, v)]) slot = update (drain buffer slot) j v := by
  unfold drain
  rw [List.foldl_append]
  rfl

/-- What the memory and all waiting stores have, the owner sees. -/
theorem drain_of_forall (hs : P (slot i)) (hb : ∀ p ∈ buffer, p.1 = i → P p.2) :
    P (drain buffer slot i) := by
  induction buffer generalizing slot with
  | nil => exact hs
  | cons p buffer ih =>
    have hslot : P (update slot p.1 p.2 i) → P (drain ((p.1, p.2) :: buffer) slot i) :=
      fun hs => ih hs fun q hq => hb q (List.mem_cons_of_mem p hq)
    apply hslot
    by_cases hi : i = p.1
    · rw [hi, update_self]
      exact hb p List.mem_cons_self hi.symm
    · rw [update_of_ne hi]
      exact hs

end Drain

/-- The slots, the buffers of the threads and the barriers of the scans. -/
structure Buffered (n k : ℕ) (V α : Type*) extends Slots n k V α where
  /-- The stores of each thread that have not reached the memory, oldest first. -/
  buffer : Fin n → List (Fin k × V)
  /-- The threads whose buffers the barrier of the running scan of each thread has emptied. -/
  fenced : Fin n → Finset (Fin n)

namespace Buffered

variable {n k : ℕ} {V α : Type*} {Free : (Fin n → Fin k → V) → α → Prop}

/-- The slots of a thread as it sees them. -/
def view (B : Buffered n k V α) (t : Fin n) : Fin k → V :=
  drain (B.buffer t) (B.slot t)

/-- A slot as thread `u` loads it: its own slots with its own stores. -/
def load (B : Buffered n k V α) (u t : Fin n) (i : Fin k) : V :=
  if u = t then B.view t i else B.slot t i

/-- All that a thread has stored reaches the memory. -/
def empty (B : Buffered n k V α) (t : Fin n) : Buffered n k V α :=
  { B with
    slot := update B.slot t (B.view t)
    buffer := update B.buffer t [] }

/-- What thread `u` may do, and which item it frees. -/
inductive Step (Free : (Fin n → Fin k → V) → α → Prop) (u : Fin n) (B : Buffered n k V α) :
    Option α → Buffered n k V α → Prop
  /-- Nothing. -/
  | stay : Step Free u B none B
  /-- It announces something else in a slot of its own. -/
  | store (i : Fin k) (v : V) :
      Step Free u B none { B with buffer := update B.buffer u (B.buffer u ++ [(i, v)]) }
  /-- It announces something else, and waits until all it has stored has reached the memory. -/
  | storeNow (i : Fin k) (v : V) :
      Step Free u B none { B with
        slot := update B.slot u (update (B.view u) i v)
        buffer := update B.buffer u [] }
  /-- Its oldest store reaches the memory. -/
  | flush (i : Fin k) (v : V) (rest : List (Fin k × V)) (h : B.buffer u = (i, v) :: rest) :
      Step Free u B none { B with
        slot := update B.slot u (update (B.slot u) i v)
        buffer := update B.buffer u rest }
  /-- It retires an item, and is not scanning. -/
  | push (x : α) (hf : B.fenced u = ∅) (h : B.copied u = 0) :
      Step Free u B none { B with retired := update B.retired u (B.retired u ++ [x]) }
  /-- Its barrier empties the buffer of one more thread. -/
  | fence (q : Fin n) (h : q ∉ B.fenced u) :
      Step Free u B none { B.empty q with fenced := update B.fenced u (insert q (B.fenced u)) }
  /-- Its barrier is over, and its scan copies the next slot. -/
  | copy (q : Fin n) (i : Fin k) (hf : ∀ v, v ∈ B.fenced u) (h : B.copied u = q.val * k + i.val) :
      Step Free u B none { B with
        temp := update B.temp u (update (B.temp u) q (update (B.temp u q) i (B.load u q i)))
        copied := update B.copied u (B.copied u + 1) }
  /-- Its scan has copied all slots, and frees an item against which none of them speaks. -/
  | free (pos : ℕ) (x : α) (h : B.copied u = n * k) (hx : (B.retired u)[pos]? = some x)
      (hfree : Free (B.temp u) x) :
      Step Free u B (some x) { B with
        retired := update B.retired u ((B.retired u).eraseIdx pos) }
  /-- Its scan is over. -/
  | finish : Step Free u B none { B with
      fenced := update B.fenced u ∅
      copied := update B.copied u 0 }

/-- Slot `i` of thread `t` has the property `P` in the memory, now and when the waiting stores have
reached it. -/
structure Settled (B : Buffered n k V α) (t : Fin n) (i : Fin k) (P : V → Prop) : Prop where
  memory : P (B.slot t i)
  waiting : ∀ p ∈ B.buffer t, p.1 = i → P p.2

/-- Slot `i` of thread `t` has the property `P` and covers the item. -/
structure Covered (B : Buffered n k V α) (t : Fin n) (i : Fin k) (P : V → Prop) (x : α) : Prop where
  /-- The owner sees the property. -/
  view : P (B.view t i)
  /-- A scan that may free the item has not emptied the buffer yet, or the memory has it. -/
  settled : ∀ u, x ∈ B.retired u → t ∈ B.fenced u → B.Settled t i P
  /-- It has not copied the slot yet, or has found it so. -/
  temp : ∀ u, x ∈ B.retired u → t.val * k + i.val < B.copied u → P (B.temp u t i)

variable {B B' : Buffered n k V α} {t u q : Fin n} {i j : Fin k} {P : V → Prop} {x : α}
  {f : Option α} {v : V}

/-- The owner of a settled slot sees it. -/
theorem Settled.load (h : B.Settled t i P) (u : Fin n) : P (B.load u t i) := by
  unfold Buffered.load
  split
  · exact drain_of_forall h.memory h.waiting
  · exact h.memory

/-- **Covering an item.** A slot covers what is not retired. -/
theorem Covered.of_not_retired (hv : P (B.view t i)) (hx : ∀ u, x ∉ B.retired u) :
    B.Covered t i P x :=
  ⟨hv, fun u hu => absurd hu (hx u), fun u hu => absurd hu (hx u)⟩

/-- A scan that has copied all slots has a copy with the property. -/
theorem Covered.temp_of_copied (hc : B.Covered t i P x) (hu : B.copied u = n * k)
    (hx : x ∈ B.retired u) : P (B.temp u t i) := by
  apply hc.temp u hx
  rw [hu]
  exact row_lt_end t i

/-- Emptying a buffer changes nothing for its owner. -/
theorem view_empty (q t : Fin n) : (B.empty q).view t = B.view t := by
  unfold view empty
  dsimp only
  by_cases h : t = q
  · subst h
    rw [update_self, update_self]
    rfl
  · rw [update_of_ne h, update_of_ne h]

/-- A buffer that has been emptied has settled what its owner sees. -/
theorem Settled.of_empty (hv : P (B.view t i)) : (B.empty t).Settled t i P := by
  unfold empty
  refine ⟨?_, fun p hp => ?_⟩
  · show P (update B.slot t (B.view t) t i)
    rw [update_self]
    exact hv
  · have hp : p ∈ update B.buffer t [] t := hp
    rw [update_self] at hp
    exact absurd hp List.not_mem_nil

/-- What is settled stays so when a buffer is emptied. -/
theorem Settled.empty (h : B.Settled t i P) : (B.empty q).Settled t i P := by
  by_cases hq : t = q
  · subst hq
    exact .of_empty (drain_of_forall h.memory h.waiting)
  · unfold Buffered.empty
    refine ⟨?_, fun p hp => ?_⟩
    · show P (update B.slot q (B.view q) t i)
      rw [update_of_ne hq]
      exact h.memory
    · have hp : p ∈ update B.buffer q [] t := hp
      rw [update_of_ne hq] at hp
      exact h.waiting p hp

/-- What is settled stays so when the oldest store reaches the memory. -/
theorem Settled.flush {rest : List (Fin k × V)} (h : B.Settled t i P)
    (hb : B.buffer u = (j, v) :: rest) :
    Settled { B with
      slot := update B.slot u (update (B.slot u) j v)
      buffer := update B.buffer u rest } t i P := by
  by_cases htu : t = u
  · subst htu
    refine ⟨?_, fun p hp => ?_⟩
    · show P (update B.slot t (update (B.slot t) j v) t i)
      rw [update_self]
      by_cases hij : i = j
      · subst hij
        rw [update_self]
        exact h.waiting (i, v) (hb ▸ List.mem_cons_self) rfl
      · rw [update_of_ne hij]
        exact h.memory
    · have hp : p ∈ update B.buffer t rest t := hp
      rw [update_self] at hp
      exact h.waiting p (hb ▸ List.mem_cons_of_mem _ hp)
  · refine ⟨?_, fun p hp => ?_⟩
    · show P (update B.slot u _ t i)
      rw [update_of_ne htu]
      exact h.memory
    · have hp : p ∈ update B.buffer u rest t := hp
      rw [update_of_ne htu] at hp
      exact h.waiting p hp

/-- **Covered items stay covered** as long as the owner of the slot sees the property. -/
theorem Covered.step (hc : B.Covered t i P x) (h : Step Free u B f B') (hv : P (B'.view t i)) :
    B'.Covered t i P x := by
  cases h with
  | stay => exact hc
  | store j v =>
    -- a new store of the owner is at the end of the buffer
    refine ⟨hv, fun w hw hlt => ?_, hc.temp⟩
    obtain ⟨hm, hb⟩ := hc.settled w hw hlt
    refine ⟨hm, fun p hp hpi => ?_⟩
    have hp : p ∈ update B.buffer u (B.buffer u ++ [(j, v)]) t := hp
    by_cases htu : t = u
    · subst htu
      rw [update_self, List.mem_append, List.mem_singleton] at hp
      rcases hp with hp | rfl
      · exact hb p hp hpi
      · -- the new store is what the owner sees
        have hseen : P (drain (update B.buffer t (B.buffer t ++ [(j, v)]) t) (B.slot t) i) := hv
        have hpi : j = i := hpi
        subst hpi
        rwa [update_self, drain_concat, update_self] at hseen
    · rw [update_of_ne htu] at hp
      exact hb p hp hpi
  | storeNow j v =>
    -- the buffer is flushed before a store that does not go through it
    refine ⟨hv, fun w hw hlt => ?_, hc.temp⟩
    obtain ⟨hm, hb⟩ := hc.settled w hw hlt
    by_cases htu : t = u
    · -- what the owner sees is in the memory
      subst htu
      have hv' := hv
      unfold Buffered.view at hv'
      dsimp only at hv'
      rw [update_self] at hv'
      refine ⟨hv', fun p hp => ?_⟩
      have hp : p ∈ update B.buffer t [] t := hp
      rw [update_self] at hp
      exact absurd hp List.not_mem_nil
    · refine ⟨?_, fun p hp => ?_⟩
      · show P (update B.slot u _ t i)
        rw [update_of_ne htu]
        exact hm
      · have hp : p ∈ update B.buffer u [] t := hp
        rw [update_of_ne htu] at hp
        exact hb p hp
  -- what leaves the buffer arrives in the memory
  | flush j v rest hb => exact ⟨hv, fun w hw hlt => (hc.settled w hw hlt).flush hb, hc.temp⟩
  | push y hf hcop =>
    have hold : ∀ w, x ∈ update B.retired u (B.retired u ++ [y]) w → w = u ∨ x ∈ B.retired w := by
      intro w hw
      by_cases hwu : w = u
      · exact .inl hwu
      · rw [update_of_ne hwu] at hw
        exact .inr hw
    refine ⟨hv, fun w hw hlt => ?_, fun w hw hlt => ?_⟩
    · rcases hold w hw with rfl | hw
      · -- whoever retires an item has not begun to scan
        have hlt : t ∈ B.fenced w := hlt
        rw [hf] at hlt
        exact absurd hlt (Finset.notMem_empty t)
      · obtain ⟨hm, hb⟩ := hc.settled w hw hlt
        exact ⟨hm, hb⟩
    · rcases hold w hw with rfl | hw
      · have hlt : t.val * k + i.val < B.copied w := hlt
        omega
      · exact hc.temp w hw hlt
  | fence q hf =>
    -- the buffer of a fenced thread is empty
    refine ⟨hv, fun w hw hlt => ?_, hc.temp⟩
    have hset : ∀ hs : (B.empty q).Settled t i P,
        Settled { B.empty q with fenced := update B.fenced u (insert q (B.fenced u)) } t i P :=
      fun hs => ⟨hs.memory, hs.waiting⟩
    apply hset
    have hlt : t ∈ update B.fenced u (insert q (B.fenced u)) w := hlt
    by_cases hwu : w = u
    · subst hwu
      rw [update_self, Finset.mem_insert] at hlt
      rcases hlt with rfl | hlt
      · -- this is the buffer that is emptied now
        exact .of_empty hc.view
      · exact (hc.settled w hw hlt).empty
    · rw [update_of_ne hwu] at hlt
      exact (hc.settled w hw hlt).empty
  | copy q j hf hcop =>
    -- what is copied after the fence is what the owner sees
    refine ⟨hv, fun w hw hlt => ?_, fun w hw hlt => ?_⟩
    · obtain ⟨hm, hb⟩ := hc.settled w hw hlt
      exact ⟨hm, hb⟩
    · show P (update B.temp u _ w t i)
      by_cases hwu : w = u
      · subst hwu
        have hlt : t.val * k + i.val < update B.copied w (B.copied w + 1) w := hlt
        rw [update_self, hcop] at hlt
        rw [update_self]
        rcases row_lt hlt with hlt | ⟨rfl, rfl⟩
        · -- a slot that was copied before keeps its copy
          have hold := hc.temp w hw (by rw [hcop]; exact hlt)
          have hne : ¬ (t = q ∧ i = j) := by
            rintro ⟨rfl, rfl⟩
            exact absurd hlt (lt_irrefl _)
          by_cases htq : t = q
          · subst htq
            rw [update_self, update_of_ne fun h => hne ⟨rfl, h⟩]
            exact hold
          · rw [update_of_ne htq]
            exact hold
        · -- the slot is copied now, after its buffer was emptied
          rw [update_self, update_self]
          exact (hc.settled w hw (hf t)).load w
      · have hlt : t.val * k + i.val < update B.copied u (B.copied u + 1) w := hlt
        rw [update_of_ne hwu] at hlt ⊢
        exact hc.temp w hw hlt
  | free pos y hcop hy hy' =>
    -- a list becomes shorter
    have hmem : ∀ w, x ∈ update B.retired u ((B.retired u).eraseIdx pos) w → x ∈ B.retired w := by
      intro w hw
      by_cases hwu : w = u
      · subst hwu
        rw [update_self] at hw
        exact List.mem_of_mem_eraseIdx hw
      · rwa [update_of_ne hwu] at hw
    refine ⟨hv, fun w hw hlt => ?_, fun w hw hlt => hc.temp w (hmem w hw) hlt⟩
    obtain ⟨hm, hb⟩ := hc.settled w (hmem w hw) hlt
    exact ⟨hm, hb⟩
  | finish =>
    -- the next scan has fenced nobody
    refine ⟨hv, fun w hw hlt => ?_, fun w hw hlt => ?_⟩
    · have hlt : t ∈ update B.fenced u ∅ w := hlt
      by_cases hwu : w = u
      · subst hwu
        rw [update_self] at hlt
        exact absurd hlt (Finset.notMem_empty t)
      · rw [update_of_ne hwu] at hlt
        obtain ⟨hm, hb⟩ := hc.settled w hw hlt
        exact ⟨hm, hb⟩
    · have hlt : t.val * k + i.val < update B.copied u 0 w := hlt
      by_cases hwu : w = u
      · subst hwu
        rw [update_self] at hlt
        exact absurd hlt (Nat.not_lt_zero _)
      · rw [update_of_ne hwu] at hlt
        exact hc.temp w hw hlt

/-- Only its own stores change what a thread sees in its slots. -/
theorem Step.view_of_ne (h : Step Free u B f B') (ht : t ≠ u) : B'.view t = B.view t := by
  cases h with
  | store j v =>
    show drain (update B.buffer u _ t) (B.slot t) = _
    rw [update_of_ne ht]
    rfl
  | storeNow j v =>
    show drain (update B.buffer u _ t) (update B.slot u _ t) = _
    rw [update_of_ne ht, update_of_ne ht]
    rfl
  | flush j v rest hb =>
    show drain (update B.buffer u _ t) (update B.slot u _ t) = _
    rw [update_of_ne ht, update_of_ne ht]
    rfl
  | fence q hf => exact view_empty q t
  | _ => rfl

/-- A thread goes on to see its slots as they are while its stores reach the memory. -/
theorem view_flush {rest : List (Fin k × V)} (hb : B.buffer u = (j, v) :: rest) :
    ({ B with
      slot := update B.slot u (update (B.slot u) j v)
      buffer := update B.buffer u rest } : Buffered n k V α).view u = B.view u := by
  unfold view
  dsimp only
  rw [update_self, update_self, hb]
  rfl

end Buffered

import Mathlib.Data.List.InsertIdx
import PopSetbench.Library.Custody
import PopSetbench.Library.Slots

/-!
# Reservations of eras

A clock advances while objects are born, linked, unlinked and retired. A retired object waits with
its lifetime, the clock at its birth and at its retirement. Threads keep reservations in the slots
of `Slots`; a scan copies them and frees a retired object unless some thread's reservations speak
for its lifetime.

What the reservations of a thread speak for is a parameter: `G b r i v` says that the value `v` of
slot `i` is as it has to be to protect an object that was born at `b` and is retired at `r`, or not
yet retired at the time `r`. A thread *shields* an object (`Eras.Shields`) if all its slots are so
and no scan has seen them otherwise since the object was retired.

* `Shields.of_linked` — reservations that speak for the present shield what is reachable.
* `Shields.step` — an object stays shielded as long as its thread keeps its reservations.
* `Shields.temp` — a scan that has copied all slots finds that they speak for the object.
-/

/-- A retired object and its lifetime. -/
structure Span (Obj : Type*) where
  obj : Obj
  birthEpoch : ℕ
  retireEpoch : ℕ
  deriving DecidableEq

/-- The slots and lists of retired objects, with the clock and the objects. -/
structure Eras (n k : ℕ) (V Obj : Type*) extends Slots n k V (Span Obj) where
  /-- The time. -/
  clock : ℕ
  /-- The life of each object. -/
  life : Obj → Life
  /-- When the object was born. -/
  birth : Obj → ℕ

namespace Eras

open Function

variable {n k : ℕ} {V Obj : Type*} {Free : (Fin n → Fin k → V) → Span Obj → Prop}

/-- The retired objects of each thread. -/
def objs (E : Eras n k V Obj) (u : Fin n) : List Obj := (E.retired u).map Span.obj

/-- The steps on reservations and objects. -/
inductive Step [DecidableEq Obj] (Free : (Fin n → Fin k → V) → Span Obj → Prop)
    (E : Eras n k V Obj) : Eras n k V Obj → Prop
  /-- A thread writes a slot, or its scan goes on. -/
  | slots (u : Fin n) (S : Slots n k V (Span Obj)) (h : Slots.Step Free u E.toSlots none S)
      (hr : S.retired = E.retired) : Step Free E { E with toSlots := S }
  /-- The clock advances. -/
  | tick : Step Free E { E with clock := E.clock + 1 }
  /-- An object that was born some time ago becomes reachable. -/
  | link (o : Obj) (b : ℕ) (ho : E.life o = .pooled) (hb : b ≤ E.clock) :
      Step Free E { E with
        life := update E.life o .linked
        birth := update E.birth o b }
  /-- It becomes unreachable. -/
  | unlink (o : Obj) (ho : E.life o = .linked) :
      Step Free E { E with life := update E.life o .unlinked }
  /-- It is retired, by a thread that is not scanning. -/
  | retire (u : Fin n) (o : Obj) (ho : E.life o = .unlinked) (hu : E.copied u = 0) :
      Step Free E { E with
        life := update E.life o .retired
        retired := update E.retired u (E.retired u ++ [⟨o, E.birth o, E.clock⟩]) }
  /-- A scan frees it. -/
  | free (u : Fin n) (pos : ℕ) (x : Span Obj) (hu : E.copied u = n * k)
      (hx : (E.retired u)[pos]? = some x) (hfree : Free (E.temp u) x) :
      Step Free E { E with
        life := update E.life x.obj .pooled
        retired := update E.retired u ((E.retired u).eraseIdx pos) }

/-- What every step keeps. -/
structure Inv (E : Eras n k V Obj) : Prop where
  /-- The objects in the lists are the retired ones. -/
  custody : Custody E.objs fun o => E.life o = .retired
  birth_le : ∀ o, E.life o ≠ .pooled → E.birth o ≤ E.clock

variable {E E' : Eras n k V Obj} {t u : Fin n} {o : Obj} {x : Span Obj}

theorem Inv.life_eq (hI : E.Inv) (hx : x ∈ E.retired u) : E.life x.obj = .retired :=
  hI.custody.prop u x.obj (List.mem_map_of_mem hx)

section Step

variable [DecidableEq Obj]

theorem Step.clock_le (h : Step Free E E') : E.clock ≤ E'.clock := by
  cases h with
  | tick => exact Nat.le_succ _
  | _ => exact le_rfl

/-- What a step does to the lists and to the life of objects. -/
theorem Step.custody (h : Step Free E E') : Custody.Step E.objs E.life E'.objs E'.life := by
  cases h with
  | slots v S hS hr =>
    refine .keep ?_ fun _ => Iff.rfl
    unfold objs
    rw [hr]
  | tick => exact .keep rfl fun _ => Iff.rfl
  | link o b ho hb => exact .of_update rfl (by simp [ho]) (by simp)
  | unlink o ho => exact .of_update rfl (by simp [ho]) (by simp)
  | retire v o ho hv =>
    refine .push v o ho ?_ rfl
    ext w
    by_cases hw : w = v
    · subst hw
      simp [objs]
    · simp [objs, update_of_ne hw]
  | free v pos x hv hx hfree =>
    have hget : (E.objs v)[pos]? = some x.obj := by simp [objs, hx]
    refine .free v pos x.obj hget ?_ rfl
    funext w
    by_cases hw : w = v
    · subst hw
      simp [objs, List.eraseIdx_map]
    · simp [objs, update_of_ne hw]

/-- **Invariant preservation.** -/
theorem Inv.step (hI : E.Inv) (h : Step Free E E') : E'.Inv where
  custody := hI.custody.step h.custody
  birth_le := by
    intro o ho
    have hle := h.clock_le
    -- an object whose birth stays the same and that was not in the pool
    have old : E.life o ≠ .pooled → E.birth o ≤ E'.clock := fun hne => (hI.birth_le o hne).trans hle
    have other : ∀ {o' : Obj} {l : Life}, E.life o' ≠ .pooled →
        update E.life o' l o ≠ .pooled → E.life o ≠ .pooled := by
      intro o' l hne hupd
      by_cases heq : o = o'
      · exact heq ▸ hne
      · rwa [update_of_ne heq] at hupd
    cases h with
    | slots v S hS hr => exact old ho
    | tick => exact old ho
    | link o' b ho' hb =>
      show update E.birth o' b o ≤ E.clock
      by_cases heq : o = o'
      · subst heq
        rw [update_self]
        exact hb
      · rw [update_of_ne heq]
        have ho : update E.life o' .linked o ≠ .pooled := ho
        rw [update_of_ne heq] at ho
        exact old ho
    | unlink o' ho' => exact old (other (by simp [ho']) ho)
    | retire v o' ho' hv => exact old (other (by simp [ho']) ho)
    | free v pos x hv hx hfree =>
      have hxl := hI.life_eq (List.mem_of_getElem? hx)
      exact old (other (by simp [hxl]) ho)

end Step

/-! ### Shielded objects -/

/-- **The reservations of `t` shield the object.** -/
structure Shields (E : Eras n k V Obj) (t : Fin n) (G : ℕ → ℕ → Fin k → V → Prop) (o : Obj) :
    Prop where
  /-- It has not been freed. -/
  alive : E.life o ≠ .pooled
  /-- Until it is retired, the slots speak for the present. -/
  now : E.life o ≠ .retired → ∀ i, G (E.birth o) E.clock i (E.slot t i)
  /-- Afterwards they speak for its lifetime, and every scan will find them so. -/
  kept : ∀ w x, x ∈ E.retired w → x.obj = o →
    ∀ i, E.Covered t i (G x.birthEpoch x.retireEpoch i) x

variable {G : ℕ → ℕ → Fin k → V → Prop}

/-- **Shielding an object.** Reservations that speak for the present shield what is reachable. -/
theorem Shields.of_linked (hI : E.Inv) (ho : E.life o = .linked)
    (hG : ∀ i, G (E.birth o) E.clock i (E.slot t i)) : E.Shields t G o where
  alive := by simp [ho]
  now _ := hG
  kept w x hx hxo := by
    have hlife := hI.life_eq hx
    rw [hxo, ho] at hlife
    cases hlife

/-- **A scan finds shielded objects shielded.** All its copies speak for the object. -/
theorem Shields.temp (h : E.Shields t G x.obj) (hx : x ∈ E.retired u)
    (hu : E.copied u = n * k) (i : Fin k) : G x.birthEpoch x.retireEpoch i (E.temp u t i) :=
  (h.kept u x hx rfl i).temp_of_copied hu hx

variable [DecidableEq Obj]

/-- **Shielded objects stay shielded** while the thread keeps its reservations: no slot stops
speaking for the lifetime of the object. -/
theorem Shields.step (hI : E.Inv) (h : E.Shields t G o) (hs : Step Free E E')
    (hslot : ∀ b r i, G b r i (E.slot t i) → G b r i (E'.slot t i))
    (hlater : ∀ b r r' i v, r ≤ r' → G b r i v → G b r' i v)
    (hfree : ∀ temp x, Free temp x → ∃ i, ¬ G x.birthEpoch x.retireEpoch i (temp t i)) :
    E'.Shields t G o := by
  have hnow : E.life o ≠ .retired → ∀ i, G (E.birth o) E'.clock i (E'.slot t i) := fun hne i =>
    hslot _ _ i (hlater _ _ _ i _ hs.clock_le (h.now hne i))
  cases hs with
  | slots v S hS hr =>
    -- a slot or a scan changes, and the objects keep their states
    refine ⟨h.alive, hnow, fun w x hx hxo i => ?_⟩
    have hx' : x ∈ E.retired w := hr ▸ hx
    have hc := h.kept w x hx' hxo i
    exact hc.step hS (hslot _ _ i hc.slot)
  | tick => exact ⟨h.alive, hnow, h.kept⟩
  | link o' b ho' hb =>
    -- a linked object is stamped with the clock, so its lifetime goes on
    have hne : o ≠ o' := by
      rintro rfl
      exact h.alive ho'
    refine ⟨?_, fun hr => ?_, h.kept⟩
    · show update E.life o' .linked o ≠ .pooled
      rw [update_of_ne hne]
      exact h.alive
    · have hr : update E.life o' .linked o ≠ .retired := hr
      rw [update_of_ne hne] at hr
      show ∀ i, G (update E.birth o' b o) E.clock i (E.slot t i)
      rw [update_of_ne hne]
      exact hnow hr
  | unlink o' ho' =>
    -- an unlinked object is still alive: nothing is stamped yet
    by_cases heq : o = o'
    · subst heq
      refine ⟨by simp, fun _ => hnow (by simp [ho']), h.kept⟩
    · refine ⟨?_, fun hr => hnow ?_, h.kept⟩
      · show update E.life o' .unlinked o ≠ .pooled
        rw [update_of_ne heq]
        exact h.alive
      · have hr : update E.life o' .unlinked o ≠ .retired := hr
        rwa [update_of_ne heq] at hr
  | retire v o' ho' hv =>
    -- an item that was in a list before stays covered
    have hpush : Slots.Step Free v E.toSlots none _ := .push ⟨o', E.birth o', E.clock⟩ hv
    have old : ∀ w x, x ∈ E.retired w → x.obj = o → ∀ i,
        Slots.Covered { E.toSlots with retired := update E.retired v _ } t i
          (G x.birthEpoch x.retireEpoch i) x := fun w x hx hxo i =>
      (h.kept w x hx hxo i).step hpush (h.kept w x hx hxo i).slot
    by_cases heq : o = o'
    · subst heq
      refine ⟨by simp, fun hr => absurd (update_self ..) hr, fun w x hx hxo i => ?_⟩
      have hnew : ∀ w' x', x' ∈ E.retired w' → x'.obj ≠ o := by
        rintro w' x' hx' rfl
        have hlife := hI.life_eq hx'
        rw [ho'] at hlife
        cases hlife
      -- it is in the list of the thread that retires it, which is not scanning
      have hxw : ∀ w', x ∈ update E.retired v (E.retired v ++ [⟨o, E.birth o, E.clock⟩]) w' →
          w' = v ∧ x = ⟨o, E.birth o, E.clock⟩ := by
        intro w' hw'
        by_cases hwv : w' = v
        · subst hwv
          rw [update_self, List.mem_append, List.mem_singleton] at hw'
          exact ⟨rfl, hw'.resolve_left fun hold => hnew w' x hold hxo⟩
        · rw [update_of_ne hwv] at hw'
          exact absurd hxo (hnew w' x hw')
      obtain ⟨-, rfl⟩ := hxw w hx
      refine ⟨h.now (by simp [ho']) i, fun w' hw' hlt => ?_⟩
      obtain ⟨rfl, -⟩ := hxw w' hw'
      have hlt : t.val * k + i.val < E.copied w' := hlt
      omega
    · refine ⟨?_, fun hr => hnow ?_, fun w x hx hxo i => ?_⟩
      · show update E.life o' .retired o ≠ .pooled
        rw [update_of_ne heq]
        exact h.alive
      · have hr : update E.life o' .retired o ≠ .retired := hr
        rwa [update_of_ne heq] at hr
      · have hx : x ∈ update E.retired v (E.retired v ++ [⟨o', E.birth o', E.clock⟩]) w := hx
        have hold : x ∈ E.retired w := by
          by_cases hwv : w = v
          · subst hwv
            rw [update_self, List.mem_append, List.mem_singleton] at hx
            refine hx.resolve_right fun hxe => heq ?_
            rw [← hxo, hxe]
          · rwa [update_of_ne hwv] at hx
        exact old w x hold hxo i
  | free v pos y hv hy hfr =>
    -- the object freed is another one: this one is covered, so the scan keeps it
    have hy' := List.mem_of_getElem? hy
    have hne : o ≠ y.obj := by
      rintro rfl
      obtain ⟨i, hi⟩ := hfree _ _ hfr
      exact hi (h.temp hy' hv i)
    have hstep : Slots.Step Free v E.toSlots (some y) _ := .free pos y hv hy hfr
    refine ⟨?_, fun hr => hnow ?_, fun w x hx hxo i => ?_⟩
    · show update E.life y.obj .pooled o ≠ .pooled
      rw [update_of_ne hne]
      exact h.alive
    · have hr : update E.life y.obj .pooled o ≠ .retired := hr
      rwa [update_of_ne hne] at hr
    · have hx : x ∈ update E.retired v ((E.retired v).eraseIdx pos) w := hx
      have hold : x ∈ E.retired w := by
        by_cases hwv : w = v
        · subst hwv
          rw [update_self] at hx
          exact List.mem_of_mem_eraseIdx hx
        · rwa [update_of_ne hwv] at hx
      have hc := h.kept w x hold hxo i
      exact hc.step hstep hc.slot

end Eras

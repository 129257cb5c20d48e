import PopSetbench.Library.Custody
import PopSetbench.Library.Handshake

/-!
# Reservations of objects that are published on request

Each private reservation of a `Handshake` protects objects: a hazard pointer the object it
names, an era all objects whose lifetime contains it. A thread *holds* an object through an
entry if it has read the object while it was reachable and has not written the entry since
(`Hazard.Holds`).

The file answers the question on which every scan of the published table rests: when does
the table show a hold on a retired object? A hold begins while its object is reachable, so
it is older than the retirement (`Inv.held`); hence a thread that has published since
shows it (`Inv.shows`), and goes on to show it for as long as it lasts
(`Step.shows`).
-/

/-- A table of reservations, and the objects they protect. -/
structure Hazard (n k : ℕ) (R Obj : Type*) where
  /-- The reservations and their publication. -/
  table : Handshake n k R
  /-- The life of each object. -/
  life : Obj → Life
  /-- The objects read through an entry while they were reachable, since it was written. -/
  held : Fin n → Fin k → Obj → Prop
  /-- The number of publications of each thread when the object was retired. -/
  retireAt : Obj → Fin n → ℕ

namespace Hazard

open Function

variable {n k : ℕ} {R Obj : Type*} [DecidableEq Obj] {selfPub : Bool}

/-- The steps on reservations and objects. A hold may end with any of them. -/
inductive Step (selfPub : Bool) : Hazard n k R Obj → Hazard n k R Obj → Prop
  /-- A step of publication or of signalling. -/
  | table (h : Hazard n k R Obj) (t : Handshake n k R)
      (ht : Handshake.Step selfPub h.table t) (hloc : t.loc = h.table.loc)
      (hset : t.setAt = h.table.setAt) : Step selfPub h { h with table := t }
  /-- A reservation is written; nothing is held through it yet. -/
  | store (h : Hazard n k R Obj) (u : Fin n) (e : Fin k) (r : R)
      (held : Fin n → Fin k → Obj → Prop)
      (hh : h.table.handler u = none) (hs : h.table.self u = none)
      (hheld : ∀ u' e' o, held u' e' o → h.held u' e' o ∧ ¬ (u' = u ∧ e' = e)) :
      Step selfPub h { h with
        table := { h.table with
          loc := update h.table.loc u (update (h.table.loc u) e r)
          setAt := update h.table.setAt u (update (h.table.setAt u) e (h.table.pubs u)) }
        held := held }
  /-- A thread reads objects; it holds those that are reachable. -/
  | read (h : Hazard n k R Obj) (held : Fin n → Fin k → Obj → Prop)
      (hheld : ∀ u e o, held u e o → h.held u e o ∨ h.life o = .linked) :
      Step selfPub h { h with held := held }
  | link (h : Hazard n k R Obj) (o : Obj) (ho : h.life o = .pooled) :
      Step selfPub h { h with life := update h.life o .linked }
  | unlink (h : Hazard n k R Obj) (o : Obj) (ho : h.life o = .linked) :
      Step selfPub h { h with life := update h.life o .unlinked }
  | retire (h : Hazard n k R Obj) (o : Obj) (ho : h.life o = .unlinked) :
      Step selfPub h { h with
        life := update h.life o .retired
        retireAt := update h.retireAt o h.table.pubs }
  | free (h : Hazard n k R Obj) (o : Obj) :
      Step selfPub h { h with life := update h.life o .pooled }

/-- Thread `u` holds `o` through entry `e`. -/
def Holds (h : Hazard n k R Obj) (u : Fin n) (e : Fin k) (o : Obj) : Prop :=
  h.held u e o

/-- The entries through which `u` holds `o` are published as they are. -/
def Shows (h : Hazard n k R Obj) (u : Fin n) (o : Obj) : Prop :=
  ∀ e, h.Holds u e o → h.table.pub u e = h.table.loc u e

/-- What every step keeps. -/
structure Inv (h : Hazard n k R Obj) : Prop where
  table : h.table.Inv
  /-- A hold on a retired object is older than its retirement. -/
  held : ∀ u e o, h.Holds u e o → h.life o = .retired → h.table.setAt u e ≤ h.retireAt o u
  retireAt_le : ∀ o u, h.life o = .retired → h.retireAt o u ≤ h.table.pubs u

variable {h h' : Hazard n k R Obj}

/-- A step that leaves the table alone. -/
theorem Step.of_objects {life : Obj → Life} {held : Fin n → Fin k → Obj → Prop}
    {retireAt : Obj → Fin n → ℕ}
    (hstep : Step selfPub h { h with life := life, held := held, retireAt := retireAt })
    (ht : h'.table = h.table) (hl : h'.life = life) (hv : h'.held = held)
    (hr : h'.retireAt = retireAt) : Step selfPub h h' := by
  cases h'
  subst ht hl hv hr
  exact hstep

/-- A step of the table only. -/
theorem Step.of_table (hstep : Handshake.Step selfPub h.table h'.table)
    (hloc : h'.table.loc = h.table.loc) (hset : h'.table.setAt = h.table.setAt)
    (hl : h'.life = h.life) (hv : h'.held = h.held) (hr : h'.retireAt = h.retireAt) :
    Step selfPub h h' := by
  cases h'
  subst hl hv hr
  exact .table h _ hstep hloc hset

/-- Every step leaves the table alone or is a step of the handshake. -/
theorem Step.handshake (hstep : Step selfPub h h') :
    h'.table = h.table ∨ Handshake.Step selfPub h.table h'.table := by
  cases hstep with
  | table t ht hloc hset => exact .inr ht
  | store u e r held hh hs hheld => exact .inr (.write h.table u e r hh hs)
  | _ => exact .inl rfl

theorem Step.pubs_le (hstep : Step selfPub h h') (u : Fin n) :
    h.table.pubs u ≤ h'.table.pubs u := by
  rcases hstep.handshake with heq | ht
  · rw [heq]
  · exact ht.pubs_le u

/-- A hold is not new unless its object is reachable. -/
theorem Step.holds (hstep : Step selfPub h h') {u : Fin n} {e : Fin k} {o : Obj}
    (hh : h'.Holds u e o) :
    h.life o = .linked ∨ (h.Holds u e o ∧ h'.table.setAt u e = h.table.setAt u e ∧
      h'.table.loc u e = h.table.loc u e) := by
  cases hstep with
  | table t ht hloc hset =>
    exact .inr ⟨hh, congrFun (congrFun hset u) e, congrFun (congrFun hloc u) e⟩
  | store v e' r held hh' hs hheld =>
    right
    obtain ⟨hold, hne⟩ := hheld u e o hh
    dsimp only
    by_cases hu : u = v
    · -- another entry than the one just written
      subst hu
      have he : e ≠ e' := fun he => hne ⟨rfl, he⟩
      rw [update_self, update_self, update_of_ne he, update_of_ne he]
      exact ⟨hold, rfl, rfl⟩
    · rw [update_of_ne hu, update_of_ne hu]
      exact ⟨hold, rfl, rfl⟩
  | read held hheld => exact (hheld u e o hh).symm.imp id fun hold => ⟨hold, rfl, rfl⟩
  | _ => exact .inr ⟨hh, rfl, rfl⟩

/-- What becomes of a retired object: it stays retired or is freed, and the moment of its
retirement stays the same. -/
theorem Step.retireAt_eq (hstep : Step selfPub h h') {o : Obj} (ho : h.life o = .retired) :
    h'.retireAt o = h.retireAt o := by
  cases hstep with
  | retire o' ho' =>
    have hne : o ≠ o' := by
      rintro rfl
      rw [ho] at ho'
      cases ho'
    exact update_of_ne hne ..
  | _ => rfl

/-- An object is retired after the step: it was before, or it is retired now. -/
theorem Step.retired_of (hstep : Step selfPub h h') {o : Obj} (ho : h'.life o = .retired) :
    h.life o = .retired ∨ (h.life o = .unlinked ∧ h'.retireAt o = h.table.pubs ∧
      h'.table = h.table ∧ h'.held = h.held) := by
  have other : ∀ {o' : Obj} {l : Life}, l ≠ .retired → update h.life o' l o = .retired →
      h.life o = .retired := by
    intro o' l hl hupd
    by_cases heq : o = o'
    · subst heq
      rw [update_self] at hupd
      exact absurd hupd hl
    · rwa [update_of_ne heq] at hupd
  cases hstep with
  | link o' ho' => exact .inl (other (by simp) ho)
  | unlink o' ho' => exact .inl (other (by simp) ho)
  | free o' => exact .inl (other (by simp) ho)
  | retire o' ho' =>
    by_cases heq : o = o'
    · subst heq
      exact .inr ⟨ho', update_self .., rfl, rfl⟩
    · left
      dsimp only at ho
      rwa [update_of_ne heq] at ho
  | _ => exact .inl ho

/-- A hold on a retired object is not new. -/
theorem Step.held_before (hstep : Step selfPub h h') {u : Fin n} {e : Fin k} {o : Obj}
    (ho : h.life o = .retired) (hh : h'.Holds u e o) : h.Holds u e o := by
  rcases hstep.holds hh with hlink | hold
  · rw [ho] at hlink
    cases hlink
  · exact hold.1

/-- As long as a hold on a retired object lasts, its reservation stays the same. -/
theorem Step.loc_eq (hstep : Step selfPub h h') {u : Fin n} {e : Fin k} {o : Obj}
    (ho : h.life o = .retired) (hh : h'.Holds u e o) : h'.table.loc u e = h.table.loc u e := by
  rcases hstep.holds hh with hlink | hold
  · rw [ho] at hlink
    cases hlink
  · exact hold.2.2

/-- **Invariant preservation.** -/
theorem Inv.step (hI : h.Inv) (hstep : Step selfPub h h') : h'.Inv where
  table := by
    rcases hstep.handshake with heq | ht
    · rw [heq]
      exact hI.table
    · exact hI.table.step ht
  held u e o hh ho := by
    rcases hstep.retired_of ho with hold | ⟨hnew, hat, htab, hval⟩
    · rw [hstep.retireAt_eq hold]
      rcases hstep.holds hh with hlink | ⟨hh₀, hset, -⟩
      · rw [hold] at hlink
        cases hlink
      · rw [hset]
        exact hI.held u e o hh₀ hold
    · -- the object is retired now: every entry was written before
      rw [hat, htab]
      exact hI.table.setAt_le u e
  retireAt_le o u ho := by
    refine le_trans ?_ (hstep.pubs_le u)
    rcases hstep.retired_of ho with hold | ⟨hnew, hat, -, -⟩
    · rw [hstep.retireAt_eq hold]
      exact hI.retireAt_le o u hold
    · rw [hat]

omit [DecidableEq Obj] in
/-- **What a scan may rely on.** A thread that has published since `o` was retired shows
its holds on `o`. -/
theorem Inv.shows (hI : h.Inv) {u : Fin n} {o : Obj} (ho : h.life o = .retired)
    (hpub : h.retireAt o u < h.table.pubs u) : h.Shows u o := by
  intro e hh
  exact hI.table.fresh u e (lt_of_le_of_lt (hI.held u e o hh ho) hpub)

/-- A hold on a retired object that is shown stays shown. -/
theorem Step.shows (hstep : Step selfPub h h') {u : Fin n} {o : Obj} (ho : h.life o = .retired)
    (hs : h.Shows u o) : h'.Shows u o := by
  intro e hh
  have hold := hstep.held_before ho hh
  rcases hstep.handshake with heq | ht
  · rw [heq]
    exact hs e hold
  · rw [hstep.loc_eq ho hh]
    rcases ht.pub_eq_or u e with hpub | hcopy
    · rw [hpub]
      exact hs e hold
    · exact hcopy

/-! ### Hazard pointers -/

section Pointers

variable {loc : Fin n → Fin k → Option Obj} {valid : Fin n → Fin k → Bool}

/-- What is held through hazard pointers: an entry that was validated, because its object was
still reachable after it was written, protects the object it names. -/
def heldBy (loc : Fin n → Fin k → Option Obj) (valid : Fin n → Fin k → Bool) (u : Fin n)
    (e : Fin k) (o : Obj) : Prop :=
  loc u e = some o ∧ valid u e = true

omit [DecidableEq Obj] in
/-- Writing an entry that is not validated yet begins no hold. -/
theorem heldBy_store {u u' : Fin n} {e e' : Fin k} {r : Option Obj} {o : Obj}
    (h : heldBy (update loc u (update (loc u) e r)) (update valid u (update (valid u) e false))
      u' e' o) : heldBy loc valid u' e' o ∧ ¬ (u' = u ∧ e' = e) := by
  obtain ⟨hl, hv⟩ := h
  by_cases hu : u' = u
  · subst hu
    rw [update_self] at hl hv
    by_cases he : e' = e
    · subst he
      rw [update_self] at hv
      cases hv
    · rw [update_of_ne he] at hl hv
      exact ⟨⟨hl, hv⟩, fun h => he h.2⟩
  · rw [update_of_ne hu] at hl hv
    exact ⟨⟨hl, hv⟩, fun h => hu h.1⟩

omit [DecidableEq Obj] in
/-- Validating an entry begins a hold on the object it names, if that passes the test `P`. -/
theorem heldBy_validate {u u' : Fin n} {e e' : Fin k} {P : Obj → Bool} {o : Obj}
    (h : heldBy loc (update valid u (update (valid u) e ((loc u e).any P))) u' e' o) :
    heldBy loc valid u' e' o ∨ P o = true := by
  obtain ⟨hl, hv⟩ := h
  by_cases hu : u' = u
  · subst hu
    rw [update_self] at hv
    by_cases he : e' = e
    · subst he
      rw [update_self, hl] at hv
      exact .inr hv
    · rw [update_of_ne he] at hv
      exact .inl ⟨hl, hv⟩
  · rw [update_of_ne hu] at hv
    exact .inl ⟨hl, hv⟩

end Pointers

end Hazard

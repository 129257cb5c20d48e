import Mathlib.Data.ENat.Basic
import Mathlib.Data.List.InsertIdx
import PopSetbench.Library.Custody

/-!
# Retired items that are stamped with a clock

A clock only goes forward. A thread announces a time of the past, or nothing (`⊤`), before it looks
at items; what it obtains while it is reachable it holds until its next announcement. An item that
is retired is stamped with the current time and waits in a list.

What a thread holds is retired after its announcement, so the stamp is not less
(`Inv.after`). A reclaimer that takes the minimum over the announcements, one after the other, and
frees what has a lesser stamp is therefore safe: `Below` is what it knows on the way.
-/

/-- Stamped items, and who holds what. `ρ` are the entries of the lists. -/
structure Stamps (n : ℕ) (ρ α : Type*) where
  /-- The item of an entry. -/
  obj : ρ → α
  /-- The time of its retirement. -/
  stamp : ρ → ℕ
  life : α → Life
  clock : ℕ
  announced : Fin n → ℕ∞
  held : Fin n → α → Bool
  retired : Fin n → List ρ

namespace Stamps

open Function

variable {n : ℕ} {ρ α : Type*} {S S' : Stamps n ρ α}

/-- The atomic steps. -/
inductive Step [DecidableEq α] (S S' : Stamps n ρ α) : Prop
  /-- Items are linked and unlinked, and time goes by. -/
  | pass (hentry : S'.obj = S.obj ∧ S'.stamp = S.stamp)
      (hlife : ∀ a, S'.life a = .retired ↔ S.life a = .retired) (hclock : S.clock ≤ S'.clock)
      (hann : S'.announced = S.announced) (hheld : S'.held = S.held)
      (hret : S'.retired = S.retired)
  /-- A thread forgets what it holds and announces `v`. -/
  | announce (u : Fin n) (v : ℕ∞) (hv : v ≠ ⊤ → v ≤ S.clock)
      (hentry : S'.obj = S.obj ∧ S'.stamp = S.stamp) (hlife : S'.life = S.life)
      (hclock : S'.clock = S.clock) (hann : S'.announced = update S.announced u v)
      (hheld : S'.held = update S.held u fun _ => false) (hret : S'.retired = S.retired)
  /-- Threads obtain items that are reachable. -/
  | access (hheld : ∀ u a, S'.held u a = true → S.held u a = true ∨ S.life a = .linked)
      (hentry : S'.obj = S.obj ∧ S'.stamp = S.stamp) (hlife : S'.life = S.life)
      (hclock : S'.clock = S.clock) (hann : S'.announced = S.announced)
      (hret : S'.retired = S.retired)
  /-- A thread retires an item, stamped with the time. -/
  | retire (t : Fin n) (r : ρ) (hr : S.life (S.obj r) = .unlinked) (hstamp : S.stamp r = S.clock)
      (hentry : S'.obj = S.obj ∧ S'.stamp = S.stamp)
      (hlife : S'.life = update S.life (S.obj r) .retired) (hclock : S'.clock = S.clock)
      (hann : S'.announced = S.announced) (hheld : S'.held = S.held)
      (hret : S'.retired = update S.retired t (S.retired t ++ [r]))
  /-- A thread frees the item at position `pos` of its list. -/
  | free (t : Fin n) (pos : ℕ) (r : ρ) (hr : (S.retired t)[pos]? = some r)
      (hentry : S'.obj = S.obj ∧ S'.stamp = S.stamp)
      (hlife : S'.life = update S.life (S.obj r) .pooled) (hclock : S'.clock = S.clock)
      (hann : S'.announced = S.announced) (hheld : S'.held = S.held)
      (hret : S'.retired = update S.retired t ((S.retired t).eraseIdx pos))

/-- **The invariant.** -/
structure Inv (S : Stamps n ρ α) : Prop where
  /-- The items in the lists are the retired ones. -/
  custody : Custody (fun t => (S.retired t).map S.obj) fun a => S.life a = .retired
  /-- What is announced is a time of the past. -/
  announced_le : ∀ u, S.announced u ≠ ⊤ → S.announced u ≤ S.clock
  /-- What a thread holds was not retired before its announcement. -/
  after : ∀ u t r, r ∈ S.retired t → S.held u (S.obj r) = true → S.announced u ≠ ⊤ →
    S.announced u ≤ S.stamp r

/-- The threads below `i` that hold an item of the list of `t` keep a stamp less than `m` away
from it. -/
def Below (S : Stamps n ρ α) (t : Fin n) (i : ℕ) (m : ℕ∞) : Prop :=
  ∀ u : Fin n, u.val < i → ∀ r ∈ S.retired t, S.held u (S.obj r) = true → m ≤ S.stamp r

theorem Below.zero (t : Fin n) (m : ℕ∞) : S.Below t 0 m :=
  fun _ hu => absurd hu (Nat.not_lt_zero _)

/-- The minimum over one more thread. -/
theorem Below.succ {t i : Fin n} {m p : ℕ∞} (h : S.Below t i.val m)
    (hp : ∀ r ∈ S.retired t, S.held i (S.obj r) = true → p ≤ S.stamp r) :
    S.Below t (i.val + 1) (if p < m then p else m) := by
  intro u hu r hr hheld
  rcases Nat.lt_succ_iff_lt_or_eq.mp hu with hlt | heq
  · have hm := h u hlt r hr hheld
    split_ifs with hpm
    · exact hpm.le.trans hm
    · exact hm
  · obtain rfl := Fin.ext heq
    have hle := hp r hr hheld
    split_ifs with hpm
    · exact hle
    · exact (not_lt.mp hpm).trans hle

/-- What has a lesser stamp than the minimum over all threads is held by nobody. -/
theorem Below.not_held {t : Fin n} {m : ℕ∞} {r : ρ} (h : S.Below t n m) (hr : r ∈ S.retired t)
    (hlt : (S.stamp r : ℕ∞) < m) (u : Fin n) : S.held u (S.obj r) = false := by
  rw [← Bool.not_eq_true]
  intro hheld
  exact absurd (h u u.isLt r hr hheld) (not_le.mpr hlt)

theorem Inv.life_eq (hI : S.Inv) {t : Fin n} {r : ρ} (hr : r ∈ S.retired t) :
    S.life (S.obj r) = .retired :=
  hI.custody.prop t (S.obj r) (List.mem_map_of_mem hr)

variable [DecidableEq α]

theorem Step.entry (hs : Step S S') : S'.obj = S.obj ∧ S'.stamp = S.stamp := by
  cases hs <;> assumption

/-- What a step does to the lists and to the life of items. -/
theorem Step.custody (hs : Step S S') :
    Custody.Step (fun t => (S.retired t).map S.obj) S.life (fun t => (S'.retired t).map S'.obj)
      S'.life := by
  have hobj : S'.obj = S.obj := hs.entry.1
  have same : S'.retired = S.retired →
      (fun t => (S'.retired t).map S'.obj) = fun t => (S.retired t).map S.obj := by
    intro hret
    rw [hobj, hret]
  have upd : ∀ (t : Fin n) (l : List ρ), S'.retired = update S.retired t l →
      (fun w => (S'.retired w).map S'.obj) =
        update (fun w => (S.retired w).map S.obj) t (l.map S.obj) := by
    intro t l hret
    funext w
    rw [hobj, hret]
    by_cases hw : w = t
    · subst hw
      rw [update_self, update_self]
    · rw [update_of_ne hw, update_of_ne hw]
  cases hs with
  | pass hentry hlife hclock hann hheld hret => exact .keep (same hret) hlife
  | announce u v hv hentry hlife hclock hann hheld hret =>
    exact .keep (same hret) fun a => by rw [hlife]
  | access hheld hentry hlife hclock hann hret =>
    exact .keep (same hret) fun a => by rw [hlife]
  | retire t r hr hstamp hentry hlife hclock hann hheld hret =>
    exact .push t (S.obj r) hr ((upd t _ hret).trans (by rw [List.map_append]; rfl)) hlife
  | free t pos r hr hentry hlife hclock hann hheld hret =>
    exact .free t pos (S.obj r) (by simp [hr])
      ((upd t _ hret).trans (by rw [List.eraseIdx_map])) hlife

theorem Step.clock_le (hs : Step S S') : S.clock ≤ S'.clock := by
  cases hs with
  | pass hentry hlife hclock hann hheld hret => exact hclock
  | announce u v hv hentry hlife hclock hann hheld hret => exact hclock.ge
  | access hheld hentry hlife hclock hann hret => exact hclock.ge
  | retire t r hr hstamp hentry hlife hclock hann hheld hret => exact hclock.ge
  | free t pos r hr hentry hlife hclock hann hheld hret => exact hclock.ge

/-- A hold on a retired item is not new, and its announcement neither. -/
theorem Step.held_retired (hI : S.Inv) (hs : Step S S') {t u : Fin n} {r : ρ}
    (hr : r ∈ S.retired t) (h : S'.held u (S.obj r) = true) :
    S.held u (S.obj r) = true ∧ S'.announced u = S.announced u := by
  cases hs with
  | pass hentry hlife hclock hann hheld hret => exact ⟨hheld ▸ h, congrFun hann u⟩
  | announce v x hv hentry hlife hclock hann hheld hret =>
    rw [hheld] at h
    rw [hann]
    by_cases hu : u = v
    · subst hu
      rw [update_self] at h
      cases h
    · rw [update_of_ne hu] at h ⊢
      exact ⟨h, rfl⟩
  | access hheld hentry hlife hclock hann hret =>
    rcases hheld u _ h with hold | hlink
    · exact ⟨hold, congrFun hann u⟩
    · rw [hI.life_eq hr] at hlink
      cases hlink
  | retire v x hx hstamp hentry hlife hclock hann hheld hret => exact ⟨hheld ▸ h, congrFun hann u⟩
  | free v pos x hx hentry hlife hclock hann hheld hret => exact ⟨hheld ▸ h, congrFun hann u⟩

/-- An entry was in its list before, or it is stamped with the time. -/
theorem Step.retired_of (hs : Step S S') {t : Fin n} {r : ρ} (hr : r ∈ S'.retired t) :
    r ∈ S.retired t ∨
      (S.stamp r = S.clock ∧ S'.announced = S.announced) := by
  cases hs with
  | pass hentry hlife hclock hann hheld hret => exact .inl (hret ▸ hr)
  | announce v x hv hentry hlife hclock hann hheld hret => exact .inl (hret ▸ hr)
  | access hheld hentry hlife hclock hann hret => exact .inl (hret ▸ hr)
  | retire v x hx hstamp hentry hlife hclock hann hheld hret =>
    rw [hret] at hr
    by_cases hv : t = v
    · subst hv
      rw [update_self, List.mem_append, List.mem_singleton] at hr
      exact hr.imp id fun (heq : r = x) => ⟨heq ▸ hstamp, hann⟩
    · rw [update_of_ne hv] at hr
      exact .inl hr
  | free v pos x hx hentry hlife hclock hann hheld hret =>
    rw [hret] at hr
    by_cases hv : t = v
    · subst hv
      rw [update_self] at hr
      exact .inl (List.mem_of_mem_eraseIdx hr)
    · rw [update_of_ne hv] at hr
      exact .inl hr

/-- **Invariant preservation.** -/
theorem Inv.step (hI : S.Inv) (hs : Step S S') : S'.Inv where
  custody := hI.custody.step hs.custody
  announced_le u hne := by
    have hle : (S.clock : ℕ∞) ≤ S'.clock := by exact_mod_cast hs.clock_le
    cases hs with
    | pass hentry hlife hclock hann hheld hret =>
      rw [hann] at hne ⊢
      exact (hI.announced_le u hne).trans hle
    | announce v x hv hentry hlife hclock hann hheld hret =>
      rw [hann] at hne ⊢
      by_cases hu : u = v
      · subst hu
        rw [update_self] at hne ⊢
        exact (hv hne).trans hle
      · rw [update_of_ne hu] at hne ⊢
        exact (hI.announced_le u hne).trans hle
    | access hheld hentry hlife hclock hann hret =>
      rw [hann] at hne ⊢
      exact (hI.announced_le u hne).trans hle
    | retire t r hr hstamp hentry hlife hclock hann hheld hret =>
      rw [hann] at hne ⊢
      exact (hI.announced_le u hne).trans hle
    | free t pos r hr hentry hlife hclock hann hheld hret =>
      rw [hann] at hne ⊢
      exact (hI.announced_le u hne).trans hle
  after u t r hr hheld hne := by
    obtain ⟨hobj, hstamp⟩ := hs.entry
    rw [hobj] at hheld
    rw [hstamp]
    rcases hs.retired_of hr with hold | ⟨hnow, hann⟩
    · obtain ⟨hh, hann⟩ := hs.held_retired hI hold hheld
      rw [hann] at hne ⊢
      exact hI.after u t r hold hh hne
    · -- the stamp is the time, which is not before the announcement
      rw [hann] at hne ⊢
      rw [hnow]
      exact hI.announced_le u hne

/-- What a reclaimer knows survives every step that adds nothing to its list. -/
theorem Below.step (hI : S.Inv) (hs : Step S S') {t : Fin n} {i : ℕ} {m : ℕ∞}
    (hsub : ∀ r ∈ S'.retired t, r ∈ S.retired t) (h : S.Below t i m) : S'.Below t i m := by
  intro u hu r hr hheld
  obtain ⟨hobj, hstamp⟩ := hs.entry
  rw [hobj] at hheld
  rw [hstamp]
  exact h u hu r (hsub r hr) (hs.held_retired hI (hsub r hr) hheld).1

end Stamps

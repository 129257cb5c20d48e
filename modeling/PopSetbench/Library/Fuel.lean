import Mathlib.Order.Filter.AtTopBot.Basic

/-!
# Enough fuel

A function that recurses on a fuel returns `none` when the fuel runs out. `Settles f r` says that
every fuel from some on gives the result `r`. It holds eventually, in the sense of a filter: what
the calls of a function return is put together without a bound that has to be named.

`Settles.of_succ` is the rule for a call that passes on one unit less.
-/

open Filter

/-- With enough fuel `f` returns `r`. -/
def Settles {α : Type*} (f : ℕ → Option α) (r : α) : Prop := ∀ᶠ fuel in atTop, f fuel = some r

namespace Settles

variable {α : Type*} {f : ℕ → Option α} {r : α}

/-- The bound on the fuel, for a reader of a result. -/
theorem exists_fuel (h : Settles f r) : ∃ bound, ∀ fuel, bound ≤ fuel → f fuel = some r :=
  eventually_atTop.mp h

theorem of_forall (h : ∀ fuel, f fuel = some r) : Settles f r :=
  Eventually.of_forall h

/-- One unit of fuel is used up by the call itself. -/
theorem of_succ (h : Settles (fun fuel => f (fuel + 1)) r) : Settles f r := by
  obtain ⟨bound, hbound⟩ := h.exists_fuel
  refine eventually_atTop.mpr ⟨bound + 1, fun fuel hfuel => ?_⟩
  obtain ⟨fuel, rfl⟩ := Nat.exists_eq_add_of_le' (Nat.one_le_of_lt hfuel)
  exact hbound fuel (Nat.le_of_succ_le_succ hfuel)

/-- There is one result. -/
theorem unique {r' : α} (h : Settles f r) (h' : Settles f r') : r = r' := by
  obtain ⟨fuel, hr, hr'⟩ := (h.and h').exists
  exact Option.some.inj (hr.symm.trans hr')

/-- Two functions that agree from some fuel on. -/
theorem congr {f' : ℕ → Option α} (h : Settles f r) (hf : ∀ fuel, f' fuel = f fuel) :
    Settles f' r :=
  h.mono fun fuel hr => (hf fuel).trans hr

end Settles

import Mathlib.Data.Fin.Basic
import Mathlib.Data.Fintype.Prod
import Mathlib.Data.Nat.Notation

/-!
# Tables that are scanned row by row

The entries of a table with `n` rows of length `k` are numbered row by row: entry `e` of row `u`
has the number `u * k + e`.
-/

/-- The entries below the one after `(u, e)` are those below `(u, e)` and itself. -/
theorem row_lt {n k : ℕ} {u u' : Fin n} {e e' : Fin k}
    (h : u'.val * k + e'.val < u.val * k + e.val + 1) :
    u'.val * k + e'.val < u.val * k + e.val ∨ (u' = u ∧ e' = e) := by
  rcases Nat.lt_succ_iff_lt_or_eq.mp h with hlt | heq
  · exact .inl hlt
  · have hdiv := congrArg (· / k) heq
    have hmod := congrArg (· % k) heq
    have hk : 0 < k := e.pos
    simp only [Nat.mul_comm _ k, Nat.mul_add_div hk, Nat.div_eq_of_lt e.isLt,
      Nat.div_eq_of_lt e'.isLt, Nat.add_zero] at hdiv
    simp only [Nat.mul_comm _ k, Nat.mul_add_mod, Nat.mod_eq_of_lt e.isLt,
      Nat.mod_eq_of_lt e'.isLt] at hmod
    exact .inr ⟨Fin.ext hdiv, Fin.ext hmod⟩

/-- Every entry is below the end of the table. -/
theorem row_lt_end {n k : ℕ} (u : Fin n) (e : Fin k) : u.val * k + e.val < n * k :=
  calc u.val * k + e.val < u.val * k + k := Nat.add_lt_add_left e.isLt _
    _ = (u.val + 1) * k := (Nat.succ_mul ..).symm
    _ ≤ n * k := Nat.mul_le_mul_right k u.isLt

/-- Every index below the end of the table is that of an entry. -/
theorem exists_row {n k m : ℕ} (h : m < n * k) :
    ∃ (u : Fin n) (e : Fin k), m = u.val * k + e.val := by
  have hk : 0 < k := Nat.pos_of_ne_zero fun hk => by simp [hk] at h
  exact ⟨⟨m / k, Nat.div_lt_of_lt_mul (Nat.mul_comm n k ▸ h)⟩, ⟨m % k, Nat.mod_lt _ hk⟩,
    (Nat.div_add_mod' m k).symm⟩

/-- A list of distinct items that are all entries of a table is no longer than the table. -/
theorem List.Nodup.length_le_table {n k : ℕ} {α : Type*} {l : List α} (hl : l.Nodup)
    {table : Fin n → Fin k → Option α} (h : ∀ a ∈ l, ∃ u e, table u e = some a) :
    l.length ≤ n * k := by
  classical
  have hsub : (l.map some).toFinset ⊆
      (Finset.univ : Finset (Fin n × Fin k)).image fun i => table i.1 i.2 := by
    intro b hb
    obtain ⟨a, ha, rfl⟩ := List.mem_map.mp (List.mem_toFinset.mp hb)
    obtain ⟨u, e, hue⟩ := h a ha
    exact Finset.mem_image.mpr ⟨(u, e), Finset.mem_univ _, hue⟩
  calc l.length = (l.map some).length := (List.length_map ..).symm
    _ = (l.map some).toFinset.card :=
      (List.toFinset_card_of_nodup (hl.map (Option.some_injective α))).symm
    _ ≤ (Finset.univ : Finset (Fin n × Fin k)).card :=
      (Finset.card_le_card hsub).trans Finset.card_image_le
    _ = n * k := by simp

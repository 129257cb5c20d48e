import PopSetbench.Ds.Common
import PopSetbench.Library.Linearizable

/-!
# The map the sets implement

`flatMap` is the sequential specification of the sets of the benchmark: a map from keys to values in
which an insertion of a key that is present changes nothing. `mapOf` is the map that a set contains,
given as a relation; the results that `Explained` explains by the contents of the set are those of
`flatMap`.
-/

namespace PopSetbench

open Function

/-- A map from keys to values. -/
def flatMap (K V : Type) [DecidableEq K] : SeqObject (K → Option V) (Op K V) (Ret V) where
  init _ := none
  apply m
    | .contains key => (m, .bool (m key).isSome)
    | .insert key val =>
      match m key with
      | none => (update m key (some val), .value none)
      | some v => (m, .value (some v))
    | .erase key => (update m key none, .value (m key))

/-- The result of a call that changes the map. -/
def Op.change? {K V : Type} : Op K V → Ret V → Option (Ret V)
  | .insert _ _, .value none => some (.value none)
  | .erase _, .value (some v) => some (.value (some v))
  | _, _ => none

theorem Op.eq_of_change? {K V : Type} {op : Op K V} {r r' : Ret V} (h : op.change? r = some r') :
    r' = r := by
  unfold Op.change? at h
  split at h <;> cases h <;> rfl

/-! ### The map that a set contains -/

section

variable {K V : Type} {holds holds' : K → V → Prop} {k : K} {v : V}

open Classical in
/-- The map that a relation describes. -/
noncomputable def mapOf (holds : K → V → Prop) (k : K) : Option V :=
  if h : ∃ v, holds k v then some h.choose else none

/-- A key has one value. -/
def Single (holds : K → V → Prop) : Prop :=
  ∀ ⦃k v w⦄, holds k v → holds k w → v = w

theorem mapOf_eq_some_iff (hs : Single holds) : mapOf holds k = some v ↔ holds k v := by
  unfold mapOf
  split_ifs with h
  · constructor
    · intro heq
      rw [← Option.some.inj heq]
      exact h.choose_spec
    · intro hv
      rw [hs hv h.choose_spec]
  · exact ⟨fun heq => (by cases heq), fun hv => absurd ⟨v, hv⟩ h⟩

theorem mapOf_eq_none_iff : mapOf holds k = none ↔ ∀ v, ¬ holds k v := by
  unfold mapOf
  split_ifs with h
  · exact ⟨fun heq => (by cases heq), fun hv => absurd h.choose_spec (hv _)⟩
  · exact ⟨fun _ v hv => h ⟨v, hv⟩, fun _ => rfl⟩

theorem mapOf_congr (h : ∀ k v, holds' k v ↔ holds k v) : mapOf holds' = mapOf holds := by
  have heq : holds' = holds := by
    ext k v
    exact h k v
  rw [heq]

/-- Maps are the same when they have the same entries. -/
theorem mapOf_eq_of_iff (hs : Single holds) {m : K → Option V}
    (h : ∀ k v, holds k v ↔ m k = some v) : mapOf holds = m := by
  funext k
  cases hm : m k with
  | none =>
    rw [mapOf_eq_none_iff]
    intro v hv
    rw [(h k v).mp hv] at hm
    cases hm
  | some v => exact (mapOf_eq_some_iff hs).mpr ((h k v).mpr hm)

variable [DecidableEq K]

/-- Adding a key that is absent. -/
theorem apply_insert_mapOf (hs : Single holds) (hs' : Single holds') (habs : ∀ w, ¬ holds k w)
    (hadd : ∀ k' w, holds' k' w ↔ holds k' w ∨ (k' = k ∧ w = v)) :
    (flatMap K V).apply (mapOf holds) (.insert k v) = (mapOf holds', .value none) := by
  have hk : mapOf holds k = none := mapOf_eq_none_iff.mpr habs
  have hm : mapOf holds' = update (mapOf holds) k (some v) := by
    apply mapOf_eq_of_iff hs'
    intro k' w
    rw [hadd]
    by_cases hk' : k' = k
    · subst hk'
      rw [update_self, Option.some_inj]
      exact ⟨fun h => (h.resolve_left (habs w)).2.symm, fun h => .inr ⟨rfl, h.symm⟩⟩
    · rw [update_of_ne hk', mapOf_eq_some_iff hs]
      exact ⟨fun h => h.resolve_right fun h => hk' h.1, .inl⟩
  unfold flatMap
  simp only [hk, hm]

/-- Removing a key that is present. -/
theorem apply_erase_mapOf (hs : Single holds) (hs' : Single holds') (hin : holds k v)
    (hrem : ∀ k' w, holds' k' w ↔ holds k' w ∧ k' ≠ k) :
    (flatMap K V).apply (mapOf holds) (.erase k) = (mapOf holds', .value (some v)) := by
  have hk : mapOf holds k = some v := (mapOf_eq_some_iff hs).mpr hin
  have hm : mapOf holds' = update (mapOf holds) k none := by
    apply mapOf_eq_of_iff hs'
    intro k' w
    rw [hrem]
    by_cases hk' : k' = k
    · subst hk'
      rw [update_self]
      exact ⟨fun h => absurd rfl h.2, fun h => by cases h⟩
    · rw [update_of_ne hk', mapOf_eq_some_iff hs]
      exact ⟨And.left, fun h => ⟨h, hk'⟩⟩
  unfold flatMap
  simp only [hk, hm]

/-- A result that is explained, of a call that changes nothing, is that of the map at a moment of
the interval. -/
theorem Explained.read {σ ι : Type} {holds : σ → K → V → Prop} {t : ι}
    {H : List (σ × (ι × Event α K V) × σ)} {op : Op K V} {r : Ret V}
    (hs : ∀ e ∈ H, Single (holds e.2.2)) (h : Explained holds id t H op r)
    (hr : op.change? r = none) :
    Sometime (fun s => (flatMap K V).apply (mapOf (holds s)) op = (mapOf (holds s), r)) H := by
  -- at a moment at which the set contains the key with a value, or does not contain it
  have hat : ∀ {P : σ → Prop}, Sometime P H →
      (∀ s, Single (holds s) → P s →
        (flatMap K V).apply (mapOf (holds s)) op = (mapOf (holds s), r)) →
      Sometime (fun s => (flatMap K V).apply (mapOf (holds s)) op = (mapOf (holds s), r)) H := by
    rintro P ⟨e, he, hP⟩ hread
    exact ⟨e, he, hread _ (hs e he) hP⟩
  unfold Explained at h
  split at h
  · refine hat h fun s hsingle ⟨w, hw⟩ => ?_
    unfold flatMap
    simp only [(mapOf_eq_some_iff hsingle).mpr hw, Option.isSome_some]
  · refine hat h fun s _ hnone => ?_
    unfold flatMap
    simp only [mapOf_eq_none_iff.mpr hnone, Option.isSome_none]
  · cases hr
  · refine hat h fun s hsingle hw => ?_
    unfold flatMap
    simp only [(mapOf_eq_some_iff hsingle).mpr hw, id]
  · refine hat h fun s _ hnone => ?_
    unfold flatMap
    have hm := mapOf_eq_none_iff.mpr hnone
    simp only [hm, Prod.mk.injEq, and_true]
    rw [← hm, update_eq_self]
  · cases hr
  · exact h.elim

end

end PopSetbench

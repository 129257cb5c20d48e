import Mathlib.Data.List.Nodup
import Mathlib.Logic.Function.Basic
import Mathlib.Data.Fin.Basic

/-!
# Items in the custody of exactly one list

Several owners keep lists of items, and every item is kept at most once: within one list,
and among all lists. `Custody lists P` says so, together with the fact that every kept
item satisfies `P`. An owner may add an item that nobody keeps and may give one up.

The items of this development are objects with a `Life`: those in custody are the retired
ones.
-/

/-- Where an object is in its life. The same object may begin another one. -/
inductive Life
  /-- In the pool: free, or never allocated. -/
  | pooled
  /-- Reachable in the data structure. -/
  | linked
  /-- No longer reachable, not yet retired. -/
  | unlinked
  /-- Retired and not yet passed to the pool. -/
  | retired
  deriving DecidableEq

/-- Erasing at `pos` moves the items of a longer prefix into a shorter one. -/
theorem List.mem_take_of_mem_take_eraseIdx {α : Type*} {l : List α} {pos k : ℕ} {a : α}
    (h : a ∈ (l.eraseIdx pos).take (pos + k)) : a ∈ l.take (pos + (k + 1)) := by
  obtain ⟨i, hi, hget⟩ := List.mem_take_iff_getElem.mp h
  rw [List.mem_take_iff_getElem]
  by_cases hlt : i < pos
  · rw [List.getElem_eraseIdx_of_lt _ hlt] at hget
    have := List.length_eraseIdx_le l pos
    exact ⟨i, by omega, hget⟩
  · rw [List.getElem_eraseIdx_of_ge _ (Nat.le_of_not_lt hlt)] at hget
    have hlen := List.length_eraseIdx (l := l) (i := pos)
    refine ⟨i + 1, ?_, hget⟩
    split at hlen <;> omega

/-- Every item is kept at most once, by one owner, and satisfies `P` while it is kept. -/
structure Custody {ι α : Type*} (lists : ι → List α) (P : α → Prop) : Prop where
  /-- No list keeps an item twice. -/
  nodup : ∀ i, (lists i).Nodup
  /-- No two lists keep the same item. -/
  owner_eq : ∀ i j a, a ∈ lists i → a ∈ lists j → i = j
  /-- Kept items satisfy `P`. -/
  prop : ∀ i a, a ∈ lists i → P a

namespace Custody

open Function

variable {ι α : Type*} [DecidableEq ι] {lists : ι → List α} {P Q : α → Prop}

omit [DecidableEq ι] in
theorem nil (P : α → Prop) : Custody (fun _ : ι => ([] : List α)) P where
  nodup _ := List.nodup_nil
  owner_eq _ _ _ h := absurd h List.not_mem_nil
  prop _ _ h := absurd h List.not_mem_nil

omit [DecidableEq ι] in
theorem imp (h : Custody lists P) (hPQ : ∀ i a, a ∈ lists i → P a → Q a) : Custody lists Q where
  nodup := h.nodup
  owner_eq := h.owner_eq
  prop i a ha := hPQ i a ha (h.prop i a ha)

omit [DecidableEq ι] in
/-- The order of the lists does not matter. -/
theorem perm {lists' : ι → List α} (h : Custody lists P) (hp : ∀ i, (lists' i).Perm (lists i)) :
    Custody lists' P where
  nodup i := (hp i).nodup_iff.mpr (h.nodup i)
  owner_eq i j a hi hj := h.owner_eq i j a ((hp i).mem_iff.mp hi) ((hp j).mem_iff.mp hj)
  prop i a ha := h.prop i a ((hp i).mem_iff.mp ha)

omit [DecidableEq ι] in
/-- An item without `P` is kept by nobody. -/
theorem not_mem (h : Custody lists P) {a : α} (ha : ¬ P a) (i : ι) : a ∉ lists i :=
  fun hm => ha (h.prop i a hm)

omit [DecidableEq ι] in
/-- Owners give items up. -/
theorem sublist {lists' : ι → List α} (h : Custody lists P)
    (hsub : ∀ i, List.Sublist (lists' i) (lists i)) (hQ : ∀ i a, a ∈ lists' i → Q a) :
    Custody lists' Q where
  nodup i := (h.nodup i).sublist (hsub i)
  owner_eq i j a hi hj := h.owner_eq i j a ((hsub i).subset hi) ((hsub j).subset hj)
  prop := hQ

/-- An owner takes an item that nobody keeps. -/
theorem push (h : Custody lists P) {i : ι} {a : α} (ha : ∀ j, a ∉ lists j)
    (hQ : ∀ b, P b → Q b) (hQa : Q a) : Custody (update lists i (lists i ++ [a])) Q := by
  have hmem : ∀ j b, b ∈ update lists i (lists i ++ [a]) j → b ∈ lists j ∨ (j = i ∧ b = a) := by
    intro j b hb
    by_cases hj : j = i
    · subst hj
      rw [update_self, List.mem_append, List.mem_singleton] at hb
      exact hb.imp id fun hba => ⟨rfl, hba⟩
    · rw [update_of_ne hj] at hb
      exact .inl hb
  refine ⟨fun j => ?_, fun j k b hj hk => ?_, fun j b hb => ?_⟩
  · by_cases hj : j = i
    · subst hj
      rw [update_self]
      refine List.nodup_append.mpr ⟨h.nodup j, List.nodup_singleton a, ?_⟩
      intro b hb c hc
      rw [List.mem_singleton] at hc
      rintro rfl
      exact ha j (hc ▸ hb)
    · rw [update_of_ne hj]
      exact h.nodup j
  · rcases hmem j b hj with hbj | ⟨rfl, rfl⟩ <;> rcases hmem k b hk with hbk | ⟨rfl, hbk⟩
    · exact h.owner_eq j k b hbj hbk
    · exact absurd (hbk ▸ hbj) (ha j)
    · exact absurd hbk (ha k)
    · rfl
  · rcases hmem j b hb with hbj | ⟨-, rfl⟩
    · exact hQ b (h.prop j b hbj)
    · exact hQa

/-- An owner gives up the item at position `pos`; it need not satisfy `P` any longer. -/
theorem erase (h : Custody lists P) {i : ι} {pos : ℕ} {a : α} (hpos : (lists i)[pos]? = some a)
    (hQ : ∀ b, b ≠ a → P b → Q b) : Custody (update lists i ((lists i).eraseIdx pos)) Q := by
  have hmem : ∀ j b, b ∈ update lists i ((lists i).eraseIdx pos) j → b ∈ lists j := by
    intro j b hb
    by_cases hj : j = i
    · subst hj
      rw [update_self] at hb
      exact List.mem_of_mem_eraseIdx hb
    · rwa [update_of_ne hj] at hb
  obtain ⟨hlt, hget⟩ := List.getElem?_eq_some_iff.mp hpos
  have hai : a ∈ lists i := hget ▸ List.getElem_mem hlt
  refine ⟨fun j => ?_, fun j k b hj hk => h.owner_eq j k b (hmem j b hj) (hmem k b hk), ?_⟩
  · by_cases hj : j = i
    · subst hj
      rw [update_self]
      exact (h.nodup j).eraseIdx pos
    · rw [update_of_ne hj]
      exact h.nodup j
  · intro j b hb
    refine hQ b ?_ (h.prop j b (hmem j b hb))
    rintro rfl
    obtain rfl := h.owner_eq j i b (hmem j b hb) hai
    classical
    rw [update_self, ← (h.nodup j).erase_getElem pos hlt, hget] at hb
    exact (h.nodup j).not_mem_erase hb

/-! ### Retired objects -/

/-- What a step does to the lists of retired objects and to the life of objects. -/
inductive Step [DecidableEq α] (lists : ι → List α) (life : α → Life) (lists' : ι → List α)
    (life' : α → Life) : Prop
  /-- Nobody retires or frees an object. -/
  | keep (hl : lists' = lists) (hlife : ∀ a, life' a = .retired ↔ life a = .retired)
  /-- An owner retires an unlinked object. -/
  | push (i : ι) (a : α) (ha : life a = .unlinked)
      (hl : lists' = update lists i (lists i ++ [a])) (hlife : life' = update life a .retired)
  /-- An owner frees the object at position `pos`. -/
  | free (i : ι) (pos : ℕ) (a : α) (ha : (lists i)[pos]? = some a)
      (hl : lists' = update lists i ((lists i).eraseIdx pos))
      (hlife : life' = update life a .pooled)

/-- Changing the life of an object between other values than `retired` is nothing to the
lists. -/
theorem Step.of_update [DecidableEq α] {lists lists' : ι → List α} {life : α → Life} {a : α}
    {l : Life} (hl : lists' = lists) (ha : life a ≠ .retired) (hne : l ≠ .retired) :
    Step lists life lists' (update life a l) := by
  refine .keep hl fun b => ?_
  by_cases hb : b = a
  · subst hb
    rw [update_self]
    exact ⟨fun h => absurd h hne, fun h => absurd h ha⟩
  · rw [update_of_ne hb]

/-- **Invariant preservation.** The objects in the lists are the retired ones. -/
theorem step [DecidableEq α] {lists lists' : ι → List α} {life life' : α → Life}
    (h : Custody lists fun a => life a = .retired) (hs : Step lists life lists' life') :
    Custody lists' fun a => life' a = .retired := by
  cases hs with
  | keep hl hlife =>
    rw [hl]
    exact h.imp fun _ b _ hb => (hlife b).mpr hb
  | push i a ha hl hlife =>
    rw [hl, hlife]
    refine h.push (h.not_mem (by simp [ha])) (fun b hb => ?_) (update_self ..)
    by_cases hba : b = a
    · subst hba
      exact update_self ..
    · rw [update_of_ne hba]
      exact hb
  | free i pos a ha hl hlife =>
    rw [hl, hlife]
    refine h.erase ha fun b hba hb => ?_
    rw [update_of_ne hba]
    exact hb

end Custody

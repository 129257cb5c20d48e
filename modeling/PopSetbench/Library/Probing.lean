import PopSetbench.Library.Fuel
import Mathlib.Data.Finset.Card
import Mathlib.Data.Nat.Find
import Mathlib.Logic.Function.Iterate

/-!
# Open addressing

A table of `m` cells, each empty or holding a key. A key `k` is looked for in the cells `path k 0`,
`path k 1`, …, up to the first one that is empty or holds the key (`Finds`).

* `seek` — the loop that looks for a cell, and `seek_settles`, what it returns;
* `OpenTable` — the table holds the keys `S`: each on its path before any empty cell, and once;
* `OpenTable.cell_of_mem`, `OpenTable.cell_of_not_mem` — what a search finds;
* `OpenTable.insert`, `OpenTable.erase` — a key is stored where it was looked for, a cell is emptied
  that no search for another key passes;
* `OpenTable.exists_empty` — with fewer keys than cells there is an empty cell.
-/

open Function

/-! ### The loop -/

/-- The loop that starts at `ix` and goes on to `next ix` until `stop`. -/
def seek (stop : ℕ → Bool) (next : ℕ → ℕ) : ℕ → ℕ → Option ℕ
  | 0, _ => none
  | fuel + 1, ix => if stop ix then some ix else seek stop next fuel (next ix)

/-- The loop returns the first index at which it stops. -/
theorem seek_settles {stop : ℕ → Bool} {next : ℕ → ℕ} {ix d : ℕ}
    (hd : stop (next^[d] ix) = true) (hbefore : ∀ c < d, stop (next^[c] ix) = false) :
    Settles (fun fuel => seek stop next fuel ix) (next^[d] ix) := by
  induction d generalizing ix with
  | zero =>
    refine .of_succ (.of_forall fun fuel => ?_)
    have h0 : stop ix = true := hd
    rw [seek, if_pos h0]
    rfl
  | succ d ih =>
    refine .of_succ ?_
    have h0 : stop ix = false := hbefore 0 (Nat.succ_pos d)
    refine (ih hd fun c hc => hbefore (c + 1) (Nat.succ_lt_succ hc)).congr fun fuel => ?_
    rw [seek, if_neg (by rw [h0]; exact Bool.false_ne_true)]

/-! ### Tables -/

variable {K : Type*} {path : K → ℕ → ℕ} {m : ℕ} {e k y : K} {cell : ℕ → K} {d : ℕ}

/-- The search for `k` ends after `d` cells. -/
structure Finds (path : K → ℕ → ℕ) (e : K) (cell : ℕ → K) (k : K) (d : ℕ) : Prop where
  stop : cell (path k d) = e ∨ cell (path k d) = k
  before : ∀ c < d, cell (path k c) ≠ e ∧ cell (path k c) ≠ k

/-- A search ends that meets an empty cell or the key. -/
theorem Finds.exists_le (h : cell (path k d) = e ∨ cell (path k d) = k) :
    ∃ d' ≤ d, Finds path e cell k d' := by
  classical
  have hex : ∃ d, cell (path k d) = e ∨ cell (path k d) = k := ⟨d, h⟩
  refine ⟨Nat.find hex, Nat.find_min' hex h, Nat.find_spec hex, fun c hc => ?_⟩
  exact not_or.mp (Nat.find_min hex hc)

/-- **The table holds the keys `S`.** -/
structure OpenTable (path : K → ℕ → ℕ) (m : ℕ) (e : K) (cell : ℕ → K) (S : Finset K) : Prop where
  /-- Every key is on its path, before any empty cell. -/
  found : ∀ k ∈ S, ∃ d, path k d < m ∧ cell (path k d) = k ∧ ∀ c < d, cell (path k c) ≠ e
  /-- Nothing else is in the table. -/
  mem : ∀ i < m, cell i ≠ e → cell i ∈ S
  /-- No key is in two cells. -/
  inj : ∀ i < m, ∀ j < m, cell i = cell j → cell i ≠ e → i = j
  /-- The mark of an empty cell is no key. -/
  empty : e ∉ S

namespace OpenTable

variable {S : Finset K}

/-- All cells are empty. -/
theorem of_empty (h : ∀ i < m, cell i = e) : OpenTable path m e cell ∅ where
  found := nofun
  mem i hi hne := absurd (h i hi) hne
  inj i hi _ _ _ hne := absurd (h i hi) hne
  empty := Finset.notMem_empty e

/-- The search for a key of the table ends at the key. -/
theorem cell_of_mem (T : OpenTable path m e cell S) (h : Finds path e cell k d) (hk : k ∈ S) :
    cell (path k d) = k := by
  refine h.stop.resolve_left fun hempty => ?_
  obtain ⟨d', -, hd', hbefore⟩ := T.found k hk
  rcases lt_trichotomy d d' with hlt | rfl | hlt
  · exact hbefore d hlt hempty
  · rw [hempty] at hd'
    exact T.empty (hd' ▸ hk)
  · exact (h.before d' hlt).2 hd'

/-- The search for a key that is not in the table ends at an empty cell. -/
theorem cell_of_not_mem (T : OpenTable path m e cell S) (h : Finds path e cell k d)
    (hm : path k d < m) (hk : k ∉ S) : cell (path k d) = e := by
  by_contra hne
  have hstop := h.stop.resolve_left hne
  exact hk (hstop ▸ T.mem _ hm hne)

/-- **A key is stored where the search for it has ended.** -/
theorem insert [DecidableEq K] (T : OpenTable path m e cell S) (h : Finds path e cell k d)
    (hm : path k d < m) (hk : k ≠ e) :
    OpenTable path m e (update cell (path k d) k) (insert k S) := by
  by_cases hmem : k ∈ S
  · -- the key is there already
    have hsame : update cell (path k d) k = cell := by
      rw [update_eq_self_iff]
      exact (T.cell_of_mem h hmem).symm
    rw [hsame, Finset.insert_eq_of_mem hmem]
    exact T
  have hempty := T.cell_of_not_mem h hm hmem
  -- a cell that was taken before still is, with the same key
  have hkeep : ∀ i, cell i ≠ e → update cell (path k d) k i = cell i := by
    intro i hi
    refine update_of_ne ?_ _ _
    rintro rfl
    exact hi hempty
  refine ⟨fun y hy => ?_, fun i hi hne => ?_, fun i hi j hj hij hne => ?_, ?_⟩
  · rcases Finset.mem_insert.mp hy with rfl | hy
    · refine ⟨d, hm, update_self .., fun c hc => ?_⟩
      rw [hkeep _ (h.before c hc).1]
      exact (h.before c hc).1
    · obtain ⟨d', hm', hd', hbefore⟩ := T.found y hy
      refine ⟨d', hm', ?_, fun c hc => ?_⟩
      · rw [hkeep _ fun h0 => T.empty (by rwa [← h0, hd'])]
        exact hd'
      · rw [hkeep _ (hbefore c hc)]
        exact hbefore c hc
  · by_cases hik : i = path k d
    · rw [hik, update_self]
      exact Finset.mem_insert_self k S
    · rw [update_of_ne hik] at hne ⊢
      exact Finset.mem_insert_of_mem (T.mem i hi hne)
  · by_cases hik : i = path k d <;> by_cases hjk : j = path k d
    · rw [hik, hjk]
    · subst hik
      rw [update_self, update_of_ne hjk] at hij
      exact absurd (T.mem j hj (hij ▸ hk)) (hij ▸ hmem)
    · subst hjk
      rw [update_self, update_of_ne hik] at hij
      rw [update_of_ne hik] at hne
      exact absurd (T.mem i hi hne) (hij ▸ hmem)
    · rw [update_of_ne hik, update_of_ne hjk] at hij
      rw [update_of_ne hik] at hne
      exact T.inj i hi j hj hij hne
  · intro h0
    rcases Finset.mem_insert.mp h0 with h0 | h0
    · exact hk h0.symm
    · exact T.empty h0

/-- **The cell where the search for `k` has ended is emptied**, if no search for another key of the
table passes it. -/
theorem erase [DecidableEq K] (T : OpenTable path m e cell S) (h : Finds path e cell k d)
    (hm : path k d < m)
    (hfree : ∀ y ∈ S, y ≠ k → ∀ d', path y d' < m → cell (path y d') = y →
      (∀ c < d', cell (path y c) ≠ e) → ∀ c < d', path y c ≠ path k d) :
    OpenTable path m e (update cell (path k d) e) (S.erase k) := by
  have hcell : ∀ y ∈ S, y ≠ k → ∀ i, cell i = y → i ≠ path k d := by
    rintro y hy hyk i hi rfl
    rcases h.stop with h0 | h0
    · exact T.empty (h0 ▸ hi ▸ hy)
    · exact hyk (hi.symm.trans h0)
  refine ⟨fun y hy => ?_, fun i hi hne => ?_, fun i hi j hj hij hne => ?_, ?_⟩
  · obtain ⟨hyk, hy⟩ := Finset.mem_erase.mp hy
    obtain ⟨d', hm', hd', hbefore⟩ := T.found y hy
    refine ⟨d', hm', ?_, fun c hc => ?_⟩
    · rw [update_of_ne (hcell y hy hyk _ hd')]
      exact hd'
    · rw [update_of_ne (hfree y hy hyk d' hm' hd' hbefore c hc)]
      exact hbefore c hc
  · by_cases hik : i = path k d
    · rw [hik, update_self] at hne
      exact absurd rfl hne
    · rw [update_of_ne hik] at hne ⊢
      refine Finset.mem_erase.mpr ⟨?_, T.mem i hi hne⟩
      -- the key is in no other cell
      intro hkey
      have hmem : k ∈ S := hkey ▸ T.mem i hi hne
      exact hik (T.inj i hi _ hm (hkey.trans (T.cell_of_mem h hmem).symm) hne)
  · by_cases hik : i = path k d
    · rw [hik, update_self] at hne
      exact absurd rfl hne
    · rw [update_of_ne hik] at hij hne
      by_cases hjk : j = path k d
      · rw [hjk, update_self] at hij
        exact absurd hij hne
      · rw [update_of_ne hjk] at hij
        exact T.inj i hi j hj hij hne
  · exact fun h0 => T.empty (Finset.mem_of_mem_erase h0)

/-- With fewer keys than cells there is an empty cell. -/
theorem exists_empty (T : OpenTable path m e cell S) (h : S.card < m) : ∃ i < m, cell i = e := by
  by_contra hno
  push Not at hno
  refine h.not_ge ?_
  calc m = (Finset.range m).card := (Finset.card_range m).symm
    _ ≤ S.card := Finset.card_le_card_of_injOn cell
        (fun i hi => T.mem i (Finset.mem_range.mp hi) (hno i (Finset.mem_range.mp hi)))
        fun i hi j hj hij => T.inj i (Finset.mem_range.mp hi) j (Finset.mem_range.mp hj) hij
          (hno i (Finset.mem_range.mp hi))

end OpenTable

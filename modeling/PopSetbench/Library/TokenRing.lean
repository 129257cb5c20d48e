import Mathlib.Data.Fin.Basic
import Mathlib.Data.Nat.ModEq
import Mathlib.Logic.Function.Basic

/-!
# A token that goes round a ring

Each of `n` threads has a flag. The thread whose flag is set has the token; it sees the flag, clears
it and sets the flag of the next thread. `hops` counts the times that the token was handed over.

* `Inv.at_most_one`, `Inv.exists_one` — there is one token, except between the two stores.
* `exists_hop` — between two visits of the token to a thread it visits every other thread.
-/

/-- What a thread is doing with the token. -/
inductive TokenStage
  | away
  /-- It has seen its flag and is about to clear it. -/
  | seen
  /-- It has cleared it and is about to set that of the next thread. -/
  | cleared
  deriving DecidableEq

/-- The flags and what the threads are doing. -/
structure TokenRing (n : ℕ) where
  flag : Fin n → Bool
  stage : Fin n → TokenStage
  hops : ℕ

namespace TokenRing

open Function

variable {n : ℕ} {R R' : TokenRing n} {u v : Fin n}

/-- The next thread. -/
def next (u : Fin n) : Fin n := ⟨(u.val + 1) % n, Nat.mod_lt _ u.pos⟩

/-- The token begins at thread `0`. -/
def initial (n : ℕ) : TokenRing n where
  flag u := u.val = 0
  stage _ := .away
  hops := 0

/-- A step of thread `u`. -/
inductive Step (R R' : TokenRing n) (u : Fin n) : Prop
  | see (hstage : R.stage u = .away) (hflag : R.flag u = true)
      (hR : R' = { R with stage := update R.stage u .seen })
  | clear (hstage : R.stage u = .seen)
      (hR : R' = { R with flag := update R.flag u false, stage := update R.stage u .cleared })
  | set (hstage : R.stage u = .cleared)
      (hR : R' = { R with
        flag := update R.flag (next u) true
        stage := update R.stage u .away
        hops := R.hops + 1 })

/-- **The invariant.** The token is at thread `hops % n`. -/
structure Inv (R : TokenRing n) : Prop where
  flag : ∀ u, R.flag u = true → R.hops % n = u.val
  seen : ∀ u, R.stage u = .seen → R.flag u = true
  cleared : ∀ u, R.stage u = .cleared → R.hops % n = u.val ∧ R.flag u = false
  one : (∀ u, R.stage u ≠ .cleared) → ∀ u : Fin n, R.hops % n = u.val → R.flag u = true

theorem Inv.initial : Inv (initial n) where
  flag u h := by
    have hu : u.val = 0 := of_decide_eq_true h
    rw [hu]
    exact Nat.zero_mod n
  seen _ h := nomatch h
  cleared _ h := nomatch h
  one _ u h := decide_eq_true (h.symm.trans (Nat.zero_mod n))

/-- Whoever is handing the token over has it. -/
theorem Inv.hops_of_stage (hI : Inv R) (h : R.stage u ≠ .away) : R.hops % n = u.val := by
  cases hs : R.stage u with
  | away => exact absurd hs h
  | seen => exact hI.flag u (hI.seen u hs)
  | cleared => exact (hI.cleared u hs).1

/-- One thread at a time. -/
theorem Inv.stage_eq (hI : Inv R) (hu : R.stage u ≠ .away) (hv : R.stage v ≠ .away) : u = v :=
  Fin.ext ((hI.hops_of_stage hu).symm.trans (hI.hops_of_stage hv))

/-- **Mutual exclusion.** -/
theorem Inv.at_most_one (hI : Inv R) (hu : R.flag u = true) (hv : R.flag v = true) : u = v :=
  Fin.ext ((hI.flag u hu).symm.trans (hI.flag v hv))

/-- The token is not lost. -/
theorem Inv.exists_one (hI : Inv R) (hn : 0 < n) (h : ∀ u, R.stage u ≠ .cleared) :
    ∃ u, R.flag u = true :=
  ⟨⟨R.hops % n, Nat.mod_lt _ hn⟩, hI.one h _ rfl⟩

/-- **Invariant preservation.** -/
theorem Inv.step (hI : Inv R) (hs : Step R R' u) : Inv R' := by
  -- the others are not at the token
  have others : R.stage u ≠ .away → ∀ v ≠ u, R.stage v = .away := by
    intro hu v hv
    by_contra hne
    exact hv (hI.stage_eq hne hu)
  cases hs with
  | see hstage hflag hR =>
    -- the token has arrived: the flag was set by the thread before
    subst hR
    refine ⟨hI.flag, fun v hv => ?_, fun v hv => ?_, fun h => hI.one fun v hv => ?_⟩
    · by_cases huv : v = u
      · exact huv ▸ hflag
      · exact hI.seen v ((update_of_ne huv ..).symm.trans hv)
    · by_cases huv : v = u
      · subst huv
        simp at hv
      · exact hI.cleared v ((update_of_ne huv ..).symm.trans hv)
    · by_cases huv : v = u
      · subst huv
        rw [hstage] at hv
        cases hv
      · exact h v ((update_of_ne huv ..).trans hv)
  | clear hstage hR =>
    -- the flag is cleared by the thread at the token only
    subst hR
    have hat : R.hops % n = u.val := hI.hops_of_stage (by simp [hstage])
    have hothers := others (by simp [hstage])
    have hnone : ∀ v ≠ u, R.flag v = false := by
      intro v hv
      rw [← Bool.not_eq_true]
      exact fun hflag => hv (hI.at_most_one hflag (hI.seen u hstage))
    refine ⟨fun v hv => ?_, fun v hv => ?_, fun v hv => ?_, fun h => ?_⟩
    · by_cases huv : v = u
      · exact huv ▸ hat
      · exact hI.flag v ((update_of_ne huv ..).symm.trans hv)
    · by_cases huv : v = u
      · subst huv
        simp at hv
      · have hseen : R.stage v = .seen := (update_of_ne huv ..).symm.trans hv
        rw [hothers v huv] at hseen
        cases hseen
    · by_cases huv : v = u
      · exact ⟨huv ▸ hat, huv ▸ update_self ..⟩
      · have hcleared : R.stage v = .cleared := (update_of_ne huv ..).symm.trans hv
        rw [hothers v huv] at hcleared
        cases hcleared
    · exact absurd (update_self ..) (h u)
  | set hstage hR =>
    -- the flag of the next thread is set
    subst hR
    obtain ⟨hat, hclear⟩ := hI.cleared u hstage
    have hothers := others (by simp [hstage])
    have hnone : ∀ v, R.flag v = false := by
      intro v
      rw [← Bool.not_eq_true]
      intro hflag
      have huv : v = u := Fin.ext ((hI.flag v hflag).symm.trans hat)
      rw [huv, hclear] at hflag
      cases hflag
    have haway : ∀ v, update R.stage u .away v = .away := by
      intro v
      by_cases huv : v = u
      · rw [huv, update_self]
      · rw [update_of_ne huv]
        exact hothers v huv
    -- the token is at the next thread
    have hnext : (R.hops + 1) % n = (next u).val := by
      show _ = (u.val + 1) % n
      rw [← hat, Nat.mod_add_mod]
    refine ⟨fun v hv => ?_, fun v hv => ?_, fun v hv => ?_, fun _ v hv => ?_⟩
    · by_cases huv : v = next u
      · exact huv ▸ hnext
      · have hflag : R.flag v = true := (update_of_ne huv ..).symm.trans hv
        rw [hnone v] at hflag
        cases hflag
    · have hseen := (haway v).symm.trans hv
      cases hseen
    · have hcleared := (haway v).symm.trans hv
      cases hcleared
    · have huv : v = next u := Fin.ext (hv.symm.trans hnext)
      rw [huv]
      exact update_self ..

/-! ### Rounds -/

/-- There is a number with a given remainder among any `n` in a row. -/
theorem exists_mod_eq (h₀ : ℕ) (u : Fin n) : ∃ h, h₀ ≤ h ∧ h < h₀ + n ∧ h % n = u.val := by
  refine ⟨h₀ + (u.val + (n - h₀ % n)) % n, Nat.le_add_right .., ?_, ?_⟩
  · exact Nat.add_lt_add_left (Nat.mod_lt _ u.pos) h₀
  · have hlt := Nat.mod_lt h₀ u.pos
    have hsplit : h₀ + (u.val + (n - h₀ % n)) = u.val + n * (h₀ / n + 1) := by
      have hdiv := Nat.div_add_mod h₀ n
      rw [Nat.mul_add, Nat.mul_one]
      omega
    rw [Nat.add_mod_mod, hsplit, Nat.add_mul_mod_self_left, Nat.mod_eq_of_lt u.isLt]

/-- **One round.** Between two visits to `t` the token was handed over by every other thread. -/
theorem exists_hop {h₀ h₁ : ℕ} {t : Fin n} (ht₀ : h₀ % n = t.val) (ht₁ : h₁ % n = t.val)
    (hlt : h₀ < h₁) (hu : u ≠ t) : ∃ h, h₀ < h ∧ h < h₁ ∧ h % n = u.val := by
  have hround : h₀ + n ≤ h₁ := by
    have hdvd : n ∣ h₁ - h₀ := (Nat.modEq_iff_dvd' hlt.le).mp (ht₀.trans ht₁.symm)
    have hle := Nat.le_of_dvd (Nat.sub_pos_of_lt hlt) hdvd
    omega
  obtain ⟨h, hge, hlt', hmod⟩ := exists_mod_eq h₀ u
  refine ⟨h, hge.lt_of_ne ?_, hlt'.trans_le hround, hmod⟩
  rintro rfl
  exact hu (Fin.ext (hmod.symm.trans ht₀))

end TokenRing

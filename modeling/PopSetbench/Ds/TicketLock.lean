import Mathlib.Data.BitVec
import Mathlib.Logic.Function.Basic

/-!
# The locks of the ticket tree

The lock words of `ticket_impl.h`. A word has two halves, one for each child pointer of its node; a
half has a version and a ticket of 16 bits and is free when they are equal. It is taken by a CAS
that compares it with a copy made earlier, and released by incrementing the version, or the ticket
is decremented again where nothing was changed.
-/

namespace PopSetbench
namespace Ticket

open Function

/-- `tl32_t`. -/
structure Tl32 where
  /-- How often the half was released. -/
  version : BitVec 16
  /-- How often it was taken, but for those times when nothing was changed. -/
  ticket : BitVec 16
  deriving DecidableEq

/-- `tl_t`. -/
structure Tl where
  /-- `lr[2]`, with `true` for the right half. -/
  lr : Bool → Tl32

namespace Tl

/-- A half is stored. -/
def set (tl : Tl) (right : Bool) (h : Tl32) : Tl :=
  ⟨update tl.lr right h⟩

/-- The word of a new node. -/
def zero : Tl :=
  ⟨fun _ => ⟨0, 0⟩⟩

/-- `TLN_REMOVED`. -/
def removed : Tl :=
  ⟨fun _ => ⟨0, 0xFFFF⟩⟩

/-- `tl_trylock_version`: the word afterwards if it succeeds. -/
def trylockVersion (tl old : Tl) (right : Bool) : Option Tl :=
  let version := (old.lr right).version
  if version ≠ (old.lr right).ticket then none
  else if tl.lr right = ⟨version, version⟩ then some (tl.set right ⟨version, version + 1⟩)
  else none

/-- `tl_trylock_version_both`: the word afterwards if it succeeds. -/
def trylockVersionBoth (tl old : Tl) : Option Tl :=
  if (old.lr false).version ≠ (old.lr false).ticket ∨
      (old.lr true).version ≠ (old.lr true).ticket then none
  else if tl.lr false = old.lr false ∧ tl.lr true = old.lr true then some removed
  else none

/-- The end of `tl_unlock`, which has loaded the version of the half. -/
def unlock (tl : Tl) (right : Bool) (version : BitVec 16) : Tl :=
  tl.set right ⟨version + 1, (tl.lr right).ticket⟩

/-- The end of `tl_revert`, which has loaded the ticket of the half. -/
def revert (tl : Tl) (right : Bool) (ticket : BitVec 16) : Tl :=
  tl.set right ⟨(tl.lr right).version, ticket - 1⟩

variable {tl tl' old : Tl} {right d : Bool} {h : Tl32} {v : BitVec 16}

@[simp] theorem set_lr_self : (tl.set right h).lr right = h :=
  update_self ..

theorem set_lr_of_ne (hd : d ≠ right) : (tl.set right h).lr d = tl.lr d :=
  update_of_ne hd ..

theorem ext_lr (h : ∀ d, tl.lr d = tl'.lr d) : tl = tl' := by
  cases tl
  cases tl'
  exact congrArg Tl.mk (funext h)

/-- What it takes to get a half. -/
theorem trylockVersion_eq_some : tl.trylockVersion old right = some tl' ↔
    ∃ v, old.lr right = ⟨v, v⟩ ∧ tl.lr right = ⟨v, v⟩ ∧ tl' = tl.set right ⟨v, v + 1⟩ := by
  unfold trylockVersion
  constructor
  · intro h
    dsimp only at h
    split_ifs at h with hv hl
    refine ⟨(old.lr right).version, ?_, hl, (Option.some.inj h).symm⟩
    rw [Tl32.mk.injEq]
    exact ⟨rfl, (not_not.mp hv).symm⟩
  · rintro ⟨v, ho, hl, rfl⟩
    simp [ho, hl]

/-- What it takes to get both halves. -/
theorem trylockVersionBoth_eq_some : tl.trylockVersionBoth old = some tl' ↔
    (∀ d, ∃ v, old.lr d = ⟨v, v⟩) ∧ (∀ d, tl.lr d = old.lr d) ∧ tl' = removed := by
  unfold trylockVersionBoth
  constructor
  · intro h
    split_ifs at h with hv hl
    rw [not_or, not_not, not_not] at hv
    refine ⟨fun d => ⟨(old.lr d).version, ?_⟩, fun d => ?_, (Option.some.inj h).symm⟩
    · rw [Tl32.mk.injEq]
      cases d
      · exact ⟨rfl, hv.1.symm⟩
      · exact ⟨rfl, hv.2.symm⟩
    · cases d
      · exact hl.1
      · exact hl.2
  · rintro ⟨hv, hl, rfl⟩
    obtain ⟨v, hv₀⟩ := hv false
    obtain ⟨w, hv₁⟩ := hv true
    simp [hl, hv₀, hv₁]

theorem ne_add_one (v : BitVec 16) : v ≠ v + 1 := by
  bv_omega

/-- A half that is taken is not that of a removed node. -/
theorem taken_ne_removed (v : BitVec 16) (d : Bool) : (⟨v, v + 1⟩ : Tl32) ≠ removed.lr d := by
  intro h
  obtain ⟨h₁, h₂⟩ := Tl32.mk.inj h
  subst h₁
  revert h₂
  decide

/-- A half that is free is not taken. -/
theorem free_ne_taken (v w : BitVec 16) : (⟨v, v⟩ : Tl32) ≠ ⟨w, w + 1⟩ := by
  intro h
  obtain ⟨rfl, h⟩ := Tl32.mk.inj h
  exact ne_add_one v h

/-- Nor is it that of a removed node. -/
theorem free_ne_removed (v : BitVec 16) (d : Bool) : (⟨v, v⟩ : Tl32) ≠ removed.lr d := by
  intro h
  obtain ⟨rfl, h⟩ := Tl32.mk.inj h
  revert h
  decide

/-- The lock of a removed node is not taken. -/
theorem trylockVersion_removed : removed.trylockVersion old right = none := by
  rw [Option.eq_none_iff_forall_ne_some]
  intro tl' h
  obtain ⟨v, -, h, -⟩ := trylockVersion_eq_some.mp h
  exact free_ne_removed v right h.symm

theorem trylockVersionBoth_removed : removed.trylockVersionBoth old = none := by
  rw [Option.eq_none_iff_forall_ne_some]
  intro tl' h
  obtain ⟨hv, h, -⟩ := trylockVersionBoth_eq_some.mp h
  obtain ⟨v, hv⟩ := hv true
  exact free_ne_removed v true (hv.symm.trans (h true).symm)

end Tl

end Ticket
end PopSetbench

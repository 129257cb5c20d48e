import Mathlib.Data.List.Nodup

/-!
# Journals

A journal is a list of what threads have done, the last entry first. `Journal.note t o j` is the
journal `j` with an entry by thread `t`, if `o` is one, and `Journal.entriesOf t j` what thread `t`
has entered.
-/

/-- Entries, each by a thread. -/
abbrev Journal (ι β : Type*) := List (ι × β)

namespace Journal

variable {ι β γ : Type*} {t q : ι} {o : Option β} {j : Journal ι β} {b : β}

/-- Thread `t` enters what it has done, if anything. -/
def note (t : ι) (o : Option β) (j : Journal ι β) : Journal ι β :=
  (o.map fun b => (t, b)).toList ++ j

@[simp] theorem note_none : note t none j = j :=
  rfl

theorem note_some : note t (some b) j = (t, b) :: j :=
  rfl

theorem mem_note : (q, b) ∈ note t o j ↔ (q = t ∧ o = some b) ∨ (q, b) ∈ j := by
  cases o with
  | none => simp
  | some b' =>
    rw [note_some, List.mem_cons]
    refine or_congr_left ⟨fun h => ?_, fun h => ?_⟩
    · obtain ⟨rfl, rfl⟩ := Prod.mk.inj h
      exact ⟨rfl, rfl⟩
    · obtain ⟨rfl, hb⟩ := h
      rw [Option.some.inj hb]

/-- Where no two entries have the same `f`, one is determined by it. -/
theorem filter_eq_of_nodup [DecidableEq γ] {f : ι × β → γ} :
    ∀ {j : Journal ι β} {e : ι × β}, (j.map f).Nodup → e ∈ j →
      j.filter (fun e' => f e' = f e) = [e] := by
  intro j
  induction j with
  | nil =>
    intro e _ he
    cases he
  | cons e₀ j ih =>
    intro e hnd he
    obtain ⟨hnot, hnd⟩ := List.nodup_cons.mp hnd
    rcases List.mem_cons.mp he with rfl | he
    · rw [List.filter_cons_of_pos (by simp), List.filter_eq_nil_iff.mpr]
      intro e' he' heq
      exact hnot (List.mem_map.mpr ⟨e', he', of_decide_eq_true heq⟩)
    · have hne : f e₀ ≠ f e := fun heq => hnot (List.mem_map.mpr ⟨e, he, heq.symm⟩)
      rw [List.filter_cons_of_neg (by simpa using hne)]
      exact ih hnd he

variable [DecidableEq ι]

/-- The entries of thread `t`. -/
def entriesOf (t : ι) (j : Journal ι β) : List β :=
  (j.filter fun e => e.1 = t).map Prod.snd

theorem entriesOf_note_self : entriesOf t (note t o j) = o.toList ++ entriesOf t j := by
  cases o with
  | none => rfl
  | some b =>
    rw [note_some]
    unfold entriesOf
    rw [List.filter_cons_of_pos (by simp)]
    rfl

theorem entriesOf_note_of_ne (h : q ≠ t) : entriesOf q (note t o j) = entriesOf q j := by
  cases o with
  | none => rfl
  | some b =>
    rw [note_some]
    unfold entriesOf
    rw [List.filter_cons_of_neg (by simpa using h.symm)]

end Journal

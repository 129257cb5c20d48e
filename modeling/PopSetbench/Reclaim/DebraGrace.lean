import PopSetbench.Reclaim.Debra

/-!
# DEBRA: grace periods

`debra_grace`: in every run, an object is passed to the pool only when every thread that was not
quiescent when it was retired has been so since, or has announced the epoch of a `startOp` that
began since; and `epoch` is incremented only after every thread was seen quiescent or announcing it
since the incrementing thread adopted it.

Write `E` for the epoch at the retirement of an object. A thread that owes something since then
announces an epoch that is at most `E` (`Inv.owing`), so whoever has adopted a later epoch cannot
find it quiescent or announcing that epoch (`Inv.seen_clear`): while it owes, `epoch` does not pass
`E + 2` (`Inv.passed`). The owner of the bag, on the other hand, adopts three epochs before it
empties the bag, each greater than the one before, and the first of them no less than `E`
(`Inv.turned`).
-/

namespace PopSetbench
namespace Debra

open Function

variable {n : ℕ} {Obj : Type}

/-! ### Announcements -/

theorem quiescent_getWithQuiescent (e : ℕ) : quiescent (getWithQuiescent e) = true := by
  unfold quiescent getWithQuiescent
  rw [decide_eq_true_eq, Nat.or_mod_two_eq_one]
  exact .inr rfl

theorem not_quiescent_of_even {e : ℕ} (h : e % 2 = 0) : quiescent e = false := by
  unfold quiescent
  simp [h]

theorem bitsEpoch_of_not_quiescent {ann : ℕ} (h : quiescent ann = false) : bitsEpoch ann = ann := by
  unfold quiescent at h
  unfold bitsEpoch epochIncrement
  simp only [decide_eq_false_iff_not, Nat.mod_two_not_eq_one] at h
  rw [h, Nat.sub_zero]

/-! ### The invariant -/

/-- The epoch that a running `startOp` will announce. -/
def Pc.adopting : Pc → Option ℕ
  | .rotate e => some e
  | .announce e => some e
  | _ => none

/-- The thread is between adopting an epoch and moving on to the next bag. -/
def Pc.rotating : Pc → ℕ
  | .rotate _ => 1
  | _ => 0

/-- How many epochs thread `t` has adopted since bag `j` was the current one. -/
def turns (s : State n Obj) (t : Fin n) (j : Fin 3) : ℕ :=
  (s.index t - j).val + (s.pc t).rotating

/-- What thread `t` knows during a `startOp` that has loaded `e`. -/
structure Adopted (s : State n Obj) (t : Fin n) (e : ℕ) : Prop where
  localvar : s.localvarAnnouncedEpoch t = e
  even : e % 2 = 0
  le : e ≤ s.epoch

/-- What thread `t` knows at each point of the code. -/
def Own (s : State n Obj) (t : Fin n) : Pc → Prop
  | .idle => s.checked t < n ∨ s.localvarAnnouncedEpoch t < s.epoch
  | .rotate e => Adopted s t e ∧ s.checked t < n
  | .announce e => Adopted s t e ∧ s.checked t < n
  | .check e => Adopted s t e ∧ s.checked t < n
  | .cas e => Adopted s t e ∧ n ≤ s.checked t

/-- **The invariant.** -/
structure Inv (s : State n Obj) : Prop where
  /-- The objects in the bags are the retired ones. -/
  custody : Custody (fun p : Fin n × Fin 3 => s.epochbags p.1 p.2) fun o => s.life o = .retired
  even : s.epoch % 2 = 0
  /-- Before its first `startOp` a thread has adopted no epoch. -/
  localvar : ∀ t, (s.localvarAnnouncedEpoch t = 1 ∧ ∀ u, s.seen t u = false) ∨
    (s.localvarAnnouncedEpoch t % 2 = 0 ∧ s.localvarAnnouncedEpoch t ≤ s.epoch)
  announced_le : ∀ u, quiescent (s.announcedEpoch u) = false → s.announcedEpoch u ≤ s.epoch
  own : ∀ t, Own s t (s.pc t)
  /-- The threads below the cursor have been seen. -/
  seen : ∀ t u : Fin n, u.val < s.checked t → s.seen t u = true
  retireEpoch : ∀ o, s.life o = .retired → s.retireEpoch o ≤ s.epoch ∧ s.retireEpoch o % 2 = 0
  /-- A thread that owes announces an epoch in which the object was not yet retired, or that of its
  retirement. -/
  owing : ∀ o u, s.life o = .retired → s.owes o u ≠ .clear →
    quiescent (s.announcedEpoch u) = false ∧ s.announcedEpoch u ≤ s.retireEpoch o
  /-- A `startOp` that began before the retirement loaded such an epoch, too. -/
  running : ∀ o u e, s.life o = .retired → s.owes o u = .running → (s.pc u).adopting = some e →
    e ≤ s.retireEpoch o
  /-- Whom a later epoch has seen owes nothing. -/
  seen_clear : ∀ o w u, s.life o = .retired → s.retireEpoch o < s.localvarAnnouncedEpoch w →
    s.seen w u = true → s.owes o u = .clear
  /-- Two epochs later, nobody owes anything. -/
  passed : ∀ o u, s.life o = .retired → s.retireEpoch o + 4 ≤ s.epoch → s.owes o u = .clear
  /-- Each turn of the bags adopts a later epoch. -/
  turned : ∀ t j o, o ∈ s.epochbags t j → 0 < turns s t j →
    s.localvarAnnouncedEpoch t % 2 = 0 ∧
      s.retireEpoch o + 2 * turns s t j ≤ s.localvarAnnouncedEpoch t + 2

theorem Inv.initial : Inv (State.initial n Obj) where
  custody := Custody.nil _
  even := rfl
  localvar _ := .inl ⟨rfl, fun _ => rfl⟩
  announced_le u h := by
    rw [show quiescent ((State.initial n Obj).announcedEpoch u) = true from rfl] at h
    cases h
  own t := .inl t.pos
  seen _ _ h := absurd h (Nat.not_lt_zero _)
  retireEpoch _ h := nomatch h
  owing _ _ h := nomatch h
  running _ _ _ h := nomatch h
  seen_clear _ _ _ h := nomatch h
  passed _ _ h := nomatch h
  turned _ _ _ h := absurd h List.not_mem_nil

theorem Inv.life_eq {s : State n Obj} (hI : Inv s) {t : Fin n} {j : Fin 3} {o : Obj}
    (h : o ∈ s.epochbags t j) : s.life o = .retired :=
  hI.custody.prop (t, j) o h

/-- **Grace periods.** What is passed to the pool is owed nothing. -/
theorem Inv.grace {s : State n Obj} (hI : Inv s) {t : Fin n} {o : Obj} (h : PassesToPool s t o)
    (u : Fin n) : s.owes o u = .clear := by
  obtain ⟨e, rest, hpc, hbag⟩ := h
  have hmem : o ∈ s.epochbags t (s.index t + 1) := by simp [hbag]
  -- the oldest bag has seen two turns, and the third one has begun
  have hturns : turns s t (s.index t + 1) = 3 := by
    have hsub : s.index t - (s.index t + 1) = 2 := by omega
    unfold turns
    rw [hsub, hpc]
    rfl
  obtain ⟨-, hle⟩ := hI.turned t _ o hmem (by omega)
  have hown := hI.own t
  rw [hpc] at hown
  have hepoch : s.localvarAnnouncedEpoch t ≤ s.epoch := hown.1.localvar.trans_le hown.1.le
  exact hI.passed o u (hI.life_eq hmem) (by omega)

/-- **Advancing.** Whoever increments the epoch it has adopted has seen all threads. -/
theorem Inv.advances {s : State n Obj} (hI : Inv s) {t : Fin n} {e : ℕ} (h : Advances s t e) :
    s.localvarAnnouncedEpoch t = e ∧ ∀ u, s.seen t u = true := by
  have hown := hI.own t
  rw [h.1] at hown
  exact ⟨hown.1.localvar, fun u => hI.seen t u (u.isLt.trans_le hown.2)⟩

/-! ### What a step does -/

section Steps

variable [DecidableEq Obj] {minOps : ℕ} {s s' : State n Obj} {a : Actor n} {t u : Fin n} {o : Obj}

theorem Step.epoch_le (hstep : Step minOps s a s') : s.epoch ≤ s'.epoch := by
  cases hstep with
  | casSuccess t e hpc he =>
    show s.epoch ≤ e + epochIncrement
    rw [he]
    exact Nat.le_add_right _ _
  | _ => exact le_rfl

/-- What belongs to thread `t` is changed by its own steps only. -/
structure Frame (s s' : State n Obj) (t : Fin n) : Prop where
  localvar : s'.localvarAnnouncedEpoch t = s.localvarAnnouncedEpoch t
  announced : s'.announcedEpoch t = s.announcedEpoch t
  epochbags : s'.epochbags t = s.epochbags t
  index : s'.index t = s.index t
  checked : s'.checked t = s.checked t
  seen : s'.seen t = s.seen t
  pc : s'.pc t = s.pc t

theorem Step.frame (hstep : Step minOps s a s') (ha : a ≠ .thread t) : Frame s s' t := by
  cases hstep with
  | link | unlink => exact ⟨rfl, rfl, rfl, rfl, rfl, rfl, rfl⟩
  | _ =>
    have ht : t ≠ _ := fun h => ha (congrArg Actor.thread h.symm)
    refine ⟨?_, ?_, ?_, ?_, ?_, ?_, ?_⟩ <;> first | rfl | exact update_of_ne ht _ _

/-- What a step does to the bags and to the life of objects. -/
theorem Step.custody (hstep : Step minOps s a s') :
    Custody.Step (fun p : Fin n × Fin 3 => s.epochbags p.1 p.2) s.life
      (fun p : Fin n × Fin 3 => s'.epochbags p.1 p.2) s'.life := by
  have bags : ∀ (t : Fin n) (j : Fin 3) (l : List Obj),
      (fun p : Fin n × Fin 3 => update s.epochbags t (update (s.epochbags t) j l) p.1 p.2) =
        update (fun p : Fin n × Fin 3 => s.epochbags p.1 p.2) (t, j) l := by
    intro t j l
    funext ⟨v, i⟩
    dsimp only
    by_cases hv : v = t
    · subst hv
      rw [update_self]
      by_cases hi : i = j
      · subst hi
        rw [update_self, update_self]
      · rw [update_of_ne hi, update_of_ne fun h => hi (Prod.ext_iff.mp h).2]
    · rw [update_of_ne hv, update_of_ne fun h => hv (Prod.ext_iff.mp h).1]
  cases hstep with
  | link o h => exact .of_update rfl (by simp [h]) (by simp)
  | unlink o h => exact .of_update rfl (by simp [h]) (by simp)
  | rotateFree t e rest o hpc hbag =>
    refine .free (t, s.index t + 1) rest.length o (by simp [hbag]) ?_ rfl
    have herase : (s.epochbags t (s.index t + 1)).eraseIdx rest.length = rest := by
      rw [hbag, List.eraseIdx_append_of_length_le le_rfl]
      simp
    dsimp only
    rw [herase]
    exact bags t (s.index t + 1) rest
  | retire t o hpc ho => exact .push (t, s.index t) o ho (bags ..) rfl
  | _ => exact .keep rfl fun _ => Iff.rfl

/-- The object is retired by the step. -/
structure RetiredNow (s s' : State n Obj) (o : Obj) : Prop where
  life : s.life o = .unlinked
  retireEpoch : s'.retireEpoch o = s.epoch
  owes : ∀ u, s'.owes o u = if quiescent (s.announcedEpoch u) then .clear else .running
  epoch : s'.epoch = s.epoch
  announced : s'.announcedEpoch = s.announcedEpoch
  localvar : s'.localvarAnnouncedEpoch = s.localvarAnnouncedEpoch
  pc : s'.pc = s.pc
  seen : s'.seen = s.seen

/-- An object that is retired after a step was so before, and nobody has come to owe it anything;
or it is retired now. -/
theorem Step.retired_of (hstep : Step minOps s a s') (ho : s'.life o = .retired) :
    (s.life o = .retired ∧ s'.retireEpoch o = s.retireEpoch o ∧
      ∀ u, s.owes o u = .clear → s'.owes o u = .clear) ∨ RetiredNow s s' o := by
  have other : ∀ {o' : Obj} {l : Life}, l ≠ .retired → update s.life o' l o = .retired →
      s.life o = .retired := by
    intro o' l hl hupd
    by_cases heq : o = o'
    · subst heq
      rw [update_self] at hupd
      exact absurd hupd hl
    · rwa [update_of_ne heq] at hupd
  -- what a thread owes is changed at its own place
  have owed : ∀ {t : Fin n} {f : Owes → Owes}, f .clear = .clear → ∀ u, s.owes o u = .clear →
      update (s.owes o) t (f (s.owes o t)) u = .clear := by
    intro t f hf u hu
    by_cases hut : u = t
    · subst hut
      rw [update_self, hu, hf]
    · rwa [update_of_ne hut]
  -- only `retire` makes an object retired
  cases hstep with
  | link o' h => exact .inl ⟨other (by simp) ho, rfl, fun _ => id⟩
  | unlink o' h => exact .inl ⟨other (by simp) ho, rfl, fun _ => id⟩
  | rotateFree t e rest o' hpc hbag => exact .inl ⟨other (by simp) ho, rfl, fun _ => id⟩
  | startOpNew t hpc hann =>
    exact .inl ⟨ho, rfl, owed (f := fun w => if w = .running then .starting else w) rfl⟩
  | startOpSame t hpc hann =>
    exact .inl ⟨ho, rfl, owed (f := fun w => if w = .running then .starting else w) rfl⟩
  | announce t e hpc hops =>
    exact .inl ⟨ho, rfl, owed (f := fun w => if w = .starting then .clear else w) rfl⟩
  | announceCheck t e hpc hops =>
    exact .inl ⟨ho, rfl, owed (f := fun w => if w = .starting then .clear else w) rfl⟩
  | endOp t hpc => exact .inl ⟨ho, rfl, owed (f := fun _ => .clear) rfl⟩
  | retire t o' hpc ho' =>
    -- `o` is the object retired now, or another one is and `o` was retired before
    by_cases heq : o = o'
    · subst heq
      right
      refine ⟨ho', update_self .., fun u => ?_, rfl, rfl, rfl, rfl, rfl⟩
      show update s.owes o _ o u = _
      rw [update_self]
    · left
      have ho : update s.life o' .retired o = .retired := ho
      rw [update_of_ne heq] at ho
      refine ⟨ho, update_of_ne heq .., fun u hu => ?_⟩
      show update s.owes o' _ o u = .clear
      rw [update_of_ne heq]
      exact hu
  | _ => exact .inl ⟨ho, rfl, fun _ => id⟩

/-! ### Every step keeps the invariant -/

variable (hI : Inv s) (hstep : Step minOps s a s')
include hI hstep

/-- What a thread has adopted, at most `epoch`. -/
private theorem Step.localvar (t : Fin n) :
    (s'.localvarAnnouncedEpoch t = 1 ∧ ∀ u, s'.seen t u = false) ∨
    (s'.localvarAnnouncedEpoch t % 2 = 0 ∧ s'.localvarAnnouncedEpoch t ≤ s'.epoch) := by
  have hle := hstep.epoch_le
  have old : (s.localvarAnnouncedEpoch t = 1 ∧ ∀ u, s.seen t u = false) ∨
      (s.localvarAnnouncedEpoch t % 2 = 0 ∧ s.localvarAnnouncedEpoch t ≤ s'.epoch) :=
    (hI.localvar t).imp id fun h => ⟨h.1, h.2.trans hle⟩
  have hown := hI.own
  -- a thread that looks at others has adopted an epoch
  have pass : ∀ {v i : Fin n} {e : ℕ}, s.pc v = .check e →
      (s.localvarAnnouncedEpoch t = 1 ∧
        ∀ u, update s.seen v (update (s.seen v) i true) t u = false) ∨
      (s.localvarAnnouncedEpoch t % 2 = 0 ∧ s.localvarAnnouncedEpoch t ≤ s.epoch) := by
    intro v i e hpc
    by_cases ht : t = v
    · subst ht
      have hadopted := hown t
      rw [hpc] at hadopted
      obtain ⟨hl, heven, hle⟩ := hadopted.1
      rw [hl]
      exact .inr ⟨heven, hle⟩
    · rw [update_of_ne ht]
      exact hI.localvar t
  cases hstep with
  | startOpNew t' hpc hann =>
    show (update s.localvarAnnouncedEpoch t' s.epoch t = 1 ∧
        ∀ u, update s.seen t' (fun _ => false) t u = false) ∨
      (update s.localvarAnnouncedEpoch t' s.epoch t % 2 = 0 ∧
        update s.localvarAnnouncedEpoch t' s.epoch t ≤ s.epoch)
    by_cases ht : t = t'
    · subst ht
      rw [update_self]
      exact .inr ⟨hI.even, le_rfl⟩
    · rw [update_of_ne ht, update_of_ne ht]
      exact hI.localvar t
  | check v i e hpc hi hpass hlt => exact pass hpc
  | checkLast v i e hpc hi hpass hge => exact pass hpc
  | _ => exact old

private theorem Step.announced_le (hq : quiescent (s'.announcedEpoch u) = false) :
    s'.announcedEpoch u ≤ s'.epoch := by
  have hle := hstep.epoch_le
  have old : quiescent (s.announcedEpoch u) = false → s.announcedEpoch u ≤ s'.epoch := fun h =>
    (hI.announced_le u h).trans hle
  have hown := hI.own
  have announce : ∀ {t : Fin n} {e : ℕ}, s.pc t = .announce e →
      quiescent (update s.announcedEpoch t e u) = false →
      update s.announcedEpoch t e u ≤ s.epoch := by
    intro t e hpc h
    by_cases hu : u = t
    · subst hu
      have hadopted := hown u
      rw [hpc] at hadopted
      rw [update_self]
      exact hadopted.1.le
    · rw [update_of_ne hu] at h ⊢
      exact hI.announced_le u h
  cases hstep with
  | announce t e hpc hops => exact announce hpc hq
  | announceCheck t e hpc hops => exact announce hpc hq
  | endOp t hpc =>
    have hq : quiescent (update s.announcedEpoch t (getWithQuiescent _) u) = false := hq
    show update s.announcedEpoch t (getWithQuiescent _) u ≤ s.epoch
    by_cases hu : u = t
    · subst hu
      rw [update_self, quiescent_getWithQuiescent] at hq
      cases hq
    · rw [update_of_ne hu] at hq ⊢
      exact old hq
  | _ => exact old hq

/-- Interference freedom, and what the acting thread knows. -/
private theorem Step.own (t : Fin n) : Own s' t (s'.pc t) := by
  have hle := hstep.epoch_le
  -- what the thread has read survives a step that leaves its own fields and the epoch alone
  by_cases ha : a = .thread t
  · have hown := hI.own
    have keep : ∀ {x : State n Obj} {t : Fin n} {e : ℕ},
        x.localvarAnnouncedEpoch = s.localvarAnnouncedEpoch → x.epoch = s.epoch →
        Adopted s t e → Adopted x t e := by
      intro x t e hl he h
      exact ⟨(congrFun hl t).trans h.localvar, h.even, h.le.trans_eq he.symm⟩
    cases hstep with
    | link | unlink => cases ha
    | startOpNew t' hpc hann =>
      -- a new epoch: it is adopted, and the checks start from the first thread
      obtain rfl := Actor.thread.inj ha
      show Own _ t' (update s.pc t' _ t')
      rw [update_self]
      refine ⟨⟨update_self .., hI.even, le_refl s.epoch⟩, ?_⟩
      show update s.checked t' 0 t' < n
      rw [update_self]
      exact t'.pos
    | startOpSame t' hpc hann =>
      -- the same epoch as before: the checks go on where they stopped
      obtain rfl := Actor.thread.inj ha
      have hidle := hown t'
      rw [hpc] at hidle
      show Own _ t' (update s.pc t' _ t')
      rw [update_self]
      exact ⟨⟨hann.symm, hI.even, le_refl s.epoch⟩, hidle.resolve_right (by omega)⟩
    | rotateFree t' e rest o hpc hbag =>
      -- the rotation gives objects to the pool and touches neither epoch nor checks
      obtain rfl := Actor.thread.inj ha
      have h := hown t'
      show Own _ t' (s.pc t')
      rw [hpc] at h ⊢
      exact ⟨keep rfl rfl h.1, h.2⟩
    | rotateEnd t' e hpc hbag =>
      obtain rfl := Actor.thread.inj ha
      have h := hown t'
      rw [hpc] at h
      show Own _ t' (update s.pc t' _ t')
      rw [update_self]
      exact ⟨keep rfl rfl h.1, h.2⟩
    | announce t' e hpc hops =>
      -- without checks the next operation goes on with them
      obtain rfl := Actor.thread.inj ha
      have h := hown t'
      rw [hpc] at h
      show Own _ t' (update s.pc t' _ t')
      rw [update_self]
      exact .inl h.2
    | announceCheck t' e hpc hops =>
      obtain rfl := Actor.thread.inj ha
      have h := hown t'
      rw [hpc] at h
      show Own _ t' (update s.pc t' _ t')
      rw [update_self]
      exact ⟨keep rfl rfl h.1, h.2⟩
    | check t' i e hpc hi hpass hlt =>
      -- one more thread has passed, and there are others left
      obtain rfl := Actor.thread.inj ha
      show Own _ t' (update s.pc t' _ t')
      rw [update_self]
      left
      show update s.checked t' (s.checked t' + 1) t' < n
      rw [update_self, hi]
      exact hlt
    | checkLast t' i e hpc hi hpass hge =>
      -- all threads have passed, so the epoch may be changed
      obtain rfl := Actor.thread.inj ha
      have h := hown t'
      rw [hpc] at h
      show Own _ t' (update s.pc t' _ t')
      rw [update_self]
      refine ⟨keep rfl rfl h.1, ?_⟩
      show n ≤ update s.checked t' (s.checked t' + 1) t'
      rw [update_self, hi]
      exact hge
    | checkFail t' i e hpc hi hpass =>
      obtain rfl := Actor.thread.inj ha
      have h := hown t'
      rw [hpc] at h
      show Own _ t' (update s.pc t' _ t')
      rw [update_self]
      exact .inl h.2
    | casSuccess t' e hpc he =>
      -- the CAS made the epoch greater than the one adopted
      obtain rfl := Actor.thread.inj ha
      have h := hown t'
      rw [hpc] at h
      show Own _ t' (update s.pc t' _ t')
      rw [update_self]
      right
      show s.localvarAnnouncedEpoch t' < e + epochIncrement
      rw [h.1.localvar]
      exact Nat.lt_add_of_pos_right (by decide)
    | casFail t' e hpc he =>
      -- another CAS has done so
      obtain rfl := Actor.thread.inj ha
      have h := hown t'
      rw [hpc] at h
      show Own _ t' (update s.pc t' _ t')
      rw [update_self]
      right
      show s.localvarAnnouncedEpoch t' < s.epoch
      rw [h.1.localvar]
      exact lt_of_le_of_ne h.1.le (Ne.symm he)
    | endOp t' hpc =>
      obtain rfl := Actor.thread.inj ha
      have h := hown t'
      show Own _ t' (s.pc t')
      rw [hpc] at h ⊢
      exact h
    | retire t' o hpc ho =>
      obtain rfl := Actor.thread.inj ha
      have h := hown t'
      show Own _ t' (s.pc t')
      rw [hpc] at h ⊢
      exact h
  · -- a step of another thread keeps what this one knows
    have hf := hstep.frame ha
    have hadopted : ∀ {e : ℕ}, Adopted s t e → Adopted s' t e := fun h =>
      ⟨hf.localvar.trans h.localvar, h.even, h.le.trans hle⟩
    have h := hI.own t
    rw [hf.pc]
    cases hpc : s.pc t with
    | idle =>
      rw [hpc] at h
      unfold Own
      rw [hf.checked, hf.localvar]
      exact h.imp id fun hlt => hlt.trans_le hle
    | rotate e =>
      rw [hpc] at h
      exact ⟨hadopted h.1, hf.checked.trans_lt h.2⟩
    | announce e =>
      rw [hpc] at h
      exact ⟨hadopted h.1, hf.checked.trans_lt h.2⟩
    | check e =>
      rw [hpc] at h
      exact ⟨hadopted h.1, hf.checked.trans_lt h.2⟩
    | cas e =>
      rw [hpc] at h
      exact ⟨hadopted h.1, h.2.trans_eq hf.checked.symm⟩

/-- Whom a thread has seen with the epoch it has now. -/
private theorem Step.seen_of {w : Fin n} (h : s'.seen w u = true) :
    s'.localvarAnnouncedEpoch w = s.localvarAnnouncedEpoch w ∧ (s.seen w u = true ∨
      s.Passes u (s.localvarAnnouncedEpoch w)) := by
  have hown := hI.own
  have pass : ∀ {t i : Fin n} {e : ℕ}, s.pc t = .check e → s.Passes i e →
      update s.seen t (update (s.seen t) i true) w u = true →
      s.seen w u = true ∨ s.Passes u (s.localvarAnnouncedEpoch w) := by
    intro t i e hpc hpass h
    have hadopted := hown t
    rw [hpc] at hadopted
    by_cases hw : w = t
    · subst hw
      by_cases hu : u = i
      · subst hu
        right
        rw [hadopted.1.localvar]
        exact hpass
      · rw [update_self, update_of_ne hu] at h
        exact .inl h
    · rw [update_of_ne hw] at h
      exact .inl h
  cases hstep with
  | startOpNew t hpc hann =>
    have h : update s.seen t (fun _ => false) w u = true := h
    by_cases hw : w = t
    · subst hw
      rw [update_self] at h
      cases h
    · rw [update_of_ne hw] at h
      exact ⟨update_of_ne hw .., .inl h⟩
  | check t i e hpc hi hpass hlt => exact ⟨rfl, pass hpc hpass h⟩
  | checkLast t i e hpc hi hpass hge => exact ⟨rfl, pass hpc hpass h⟩
  | _ => exact ⟨rfl, .inl h⟩

/-- The threads below the cursor have been seen. -/
private theorem Step.seen (t : Fin n) (hu : u.val < s'.checked t) : s'.seen t u = true := by
  have pass : ∀ {v i : Fin n}, s.checked v = i.val →
      u.val < update s.checked v (s.checked v + 1) t →
      update s.seen v (update (s.seen v) i true) t u = true := by
    intro v i hi h
    by_cases ht : t = v
    · subst ht
      rw [update_self] at h ⊢
      by_cases hui : u = i
      · subst hui
        exact update_self ..
      · rw [update_of_ne hui]
        have hne : u.val ≠ i.val := fun heq => hui (Fin.ext heq)
        exact hI.seen t u (by omega)
    · rw [update_of_ne ht] at h ⊢
      exact hI.seen t u h
  cases hstep with
  | startOpNew v hpc hann =>
    have hu : u.val < update s.checked v 0 t := hu
    show update s.seen v (fun _ => false) t u = true
    by_cases ht : t = v
    · subst ht
      rw [update_self] at hu
      exact absurd hu (Nat.not_lt_zero _)
    · rw [update_of_ne ht] at hu ⊢
      exact hI.seen t u hu
  | check v i e hpc hi hpass hlt => exact pass hi hu
  | checkLast v i e hpc hi hpass hge => exact pass hi hu
  | _ => exact hI.seen t u hu

/-- What a thread that owes announces. -/
private theorem Step.owing (ho : s'.life o = .retired) (hne : s'.owes o u ≠ .clear) :
    quiescent (s'.announcedEpoch u) = false ∧ s'.announcedEpoch u ≤ s'.retireEpoch o := by
  -- who owed before still announces what it did
  rcases hstep.retired_of ho with ⟨hold, hr, hclear⟩ | hnew
  · rw [hr]
    have hne' : s.owes o u ≠ .clear := fun h => hne (hclear u h)
    obtain ⟨hq, hle⟩ := hI.owing o u hold hne'
    have hown := hI.own
    -- the announcement of a `startOp` that began before the retirement
    have announce : ∀ {t : Fin n} {e : ℕ}, s.pc t = .announce e →
        update (s.owes o) t (if s.owes o t = .starting then .clear else s.owes o t) u ≠ .clear →
        quiescent (update s.announcedEpoch t e u) = false ∧
          update s.announcedEpoch t e u ≤ s.retireEpoch o := by
      intro t e hpc h
      by_cases hu : u = t
      · subst hu
        have hadopted := hown u
        rw [hpc] at hadopted
        rw [update_self] at h ⊢
        refine ⟨not_quiescent_of_even hadopted.1.even, ?_⟩
        apply hI.running o u e hold
        · cases howes : s.owes o u with
          | clear => exact absurd howes hne'
          | running => rfl
          | starting =>
            rw [if_pos howes] at h
            exact absurd rfl h
        · rw [hpc]
          rfl
      · rw [update_of_ne hu]
        exact ⟨hq, hle⟩
    cases hstep with
    | announce t e hpc hops => exact announce hpc hne
    | announceCheck t e hpc hops => exact announce hpc hne
    | endOp t hpc =>
      have hne : update (s.owes o) t .clear u ≠ .clear := hne
      have hu : u ≠ t := by
        rintro rfl
        exact hne (update_self ..)
      show quiescent (update s.announcedEpoch t _ u) = false ∧
        update s.announcedEpoch t _ u ≤ s.retireEpoch o
      rw [update_of_ne hu]
      exact ⟨hq, hle⟩
    | _ => exact ⟨hq, hle⟩
  · -- who owes for the first time was running at the retirement
    rw [hnew.announced, hnew.retireEpoch]
    rw [hnew.owes u] at hne
    have hq : quiescent (s.announcedEpoch u) = false := by
      rw [← Bool.not_eq_true]
      intro hq
      rw [if_pos hq] at hne
      exact hne rfl
    exact ⟨hq, hI.announced_le u hq⟩

omit hI in
/-- A `startOp` that is running without being counted began before. -/
private theorem Step.running_of {e : ℕ} (hrun : s'.owes o u = .running)
    (hpc' : (s'.pc u).adopting = some e) (hold : s.life o = .retired) :
    s.owes o u = .running ∧ (s.pc u).adopting = some e := by
  -- a step to a place where nothing else is adopted
  have move : ∀ {t : Fin n} {p : Pc}, (p.adopting = some e → (s.pc t).adopting = some e) →
      (update s.pc t p u).adopting = some e → (s.pc u).adopting = some e := by
    intro t p hp h
    -- only the acting thread goes on to another place
    by_cases hu : u = t
    · subst hu
      rw [update_self] at h
      exact hp h
    · rwa [update_of_ne hu] at h
  have begin : ∀ {t : Fin n} {p : Pc},
      update (s.owes o) t (if s.owes o t = .running then .starting else s.owes o t) u = .running →
      (update s.pc t p u).adopting = some e →
      s.owes o u = .running ∧ (s.pc u).adopting = some e := by
    intro t p hr hp
    by_cases hu : u = t
    · subst hu
      rw [update_self] at hr
      split_ifs at hr with h
      exact absurd hr h
    · rw [update_of_ne hu] at hr hp
      exact ⟨hr, hp⟩
  have announce : ∀ {t : Fin n} {p : Pc}, p.adopting = none →
      update (s.owes o) t (if s.owes o t = .starting then .clear else s.owes o t) u = .running →
      (update s.pc t p u).adopting = some e →
      s.owes o u = .running ∧ (s.pc u).adopting = some e := by
    intro t p hnone hr hp
    by_cases hu : u = t
    · subst hu
      rw [update_self, hnone] at hp
      cases hp
    · rw [update_of_ne hu] at hr hp
      exact ⟨hr, hp⟩
  cases hstep with
  | link | unlink | rotateFree => exact ⟨hrun, hpc'⟩
  | startOpNew t hpc hann => exact begin hrun hpc'
  | startOpSame t hpc hann => exact begin hrun hpc'
  | rotateEnd t e' hpc hbag =>
    refine ⟨hrun, move (fun h => ?_) hpc'⟩
    rw [hpc]
    exact h
  | announce t e' hpc hops => exact announce rfl hrun hpc'
  | announceCheck t e' hpc hops => exact announce rfl hrun hpc'
  | check | checkLast | checkFail | casSuccess | casFail =>
    exact ⟨hrun, move (fun h => absurd h (by simp [Pc.adopting])) hpc'⟩
  | endOp t hpc =>
    -- the checks and the CAS adopt nothing
    have hrun : update (s.owes o) t .clear u = .running := hrun
    by_cases hu : u = t
    · subst hu
      rw [update_self] at hrun
      cases hrun
    · rw [update_of_ne hu] at hrun
      exact ⟨hrun, hpc'⟩
  | retire t o' hpc ho =>
    -- another object is retired: this one was retired before
    have hne : o ≠ o' := by
      rintro rfl
      rw [ho] at hold
      cases hold
    have hrun : update s.owes o' _ o u = .running := hrun
    rw [update_of_ne hne] at hrun
    exact ⟨hrun, hpc'⟩

/-- A `startOp` that began before the retirement. -/
private theorem Step.running {e : ℕ} (ho : s'.life o = .retired) (hrun : s'.owes o u = .running)
    (hpc' : (s'.pc u).adopting = some e) : e ≤ s'.retireEpoch o := by
  rcases hstep.retired_of ho with ⟨hold, hr, -⟩ | hnew
  · rw [hr]
    obtain ⟨hrun', hpc⟩ := hstep.running_of hrun hpc' hold
    exact hI.running o u e hold hrun' hpc
  · rw [hnew.retireEpoch]
    rw [hnew.pc] at hpc'
    have hown := hI.own u
    cases hpc : s.pc u with
    | rotate e' =>
      rw [hpc] at hown hpc'
      obtain rfl := Option.some.inj hpc'
      exact hown.1.le
    | announce e' =>
      rw [hpc] at hown hpc'
      obtain rfl := Option.some.inj hpc'
      exact hown.1.le
    | _ =>
      rw [hpc] at hpc'
      cases hpc'

/-- Whom a later epoch has seen owes nothing. -/
private theorem Step.seen_clear {w : Fin n} (ho : s'.life o = .retired)
    (hlt : s'.retireEpoch o < s'.localvarAnnouncedEpoch w) (hseen : s'.seen w u = true) :
    s'.owes o u = .clear := by
  obtain ⟨hl, hcase⟩ := hstep.seen_of hI hseen
  rw [hl] at hlt
  rcases hstep.retired_of ho with ⟨hold, hr, hclear⟩ | hnew
  · rw [hr] at hlt
    apply hclear u
    rcases hcase with hs | hpass
    · exact hI.seen_clear o w u hold hlt hs
    · -- a thread that owes is not quiescent, and announces an earlier epoch
      by_contra hne
      obtain ⟨hq, hle⟩ := hI.owing o u hold hne
      rcases hpass with hbits | hq'
      · rw [bitsEpoch_of_not_quiescent hq] at hbits
        omega
      · rw [hq] at hq'
        cases hq'
  · -- nobody has adopted an epoch later than that of the retirement
    rw [hnew.retireEpoch] at hlt
    rcases hI.localvar w with ⟨h1, hnone⟩ | ⟨-, hle⟩
    · rw [hnew.seen, hnone u] at hseen
      cases hseen
    · omega

private theorem Step.retireEpoch (ho : s'.life o = .retired) :
    s'.retireEpoch o ≤ s'.epoch ∧ s'.retireEpoch o % 2 = 0 := by
  rcases hstep.retired_of ho with ⟨hold, hr, -⟩ | hnew
  · rw [hr]
    obtain ⟨hle, heven⟩ := hI.retireEpoch o hold
    exact ⟨hle.trans hstep.epoch_le, heven⟩
  · rw [hnew.retireEpoch, hnew.epoch]
    exact ⟨le_rfl, hI.even⟩

/-- Two epochs later nobody owes anything: whoever incremented the first of them had adopted it
after the retirement, and has seen everybody. -/
private theorem Step.passed (ho : s'.life o = .retired) (hlt : s'.retireEpoch o + 4 ≤ s'.epoch) :
    s'.owes o u = .clear := by
  rcases hstep.retired_of ho with ⟨hold, hr, hclear⟩ | hnew
  · apply hclear u
    rw [hr] at hlt
    have heven := (hI.retireEpoch o hold).2
    have hepoch := hI.even
    have hown := hI.own
    cases hstep with
    | casSuccess t e hpc he =>
      have hadopted := hown t
      rw [hpc] at hadopted
      obtain ⟨hadopted, hall⟩ := hadopted
      have hlt : s.retireEpoch o + 4 ≤ e + 2 := hlt
      apply hI.seen_clear o t u hold
      · rw [hadopted.localvar]
        omega
      · exact hI.seen t u (u.isLt.trans_le hall)
    | _ => exact hI.passed o u hold hlt
  · rw [hnew.retireEpoch, hnew.epoch] at hlt
    omega

/-- The moment of a retirement stays the same. -/
private theorem Step.retireEpoch_eq {j : Fin 3} (ho : o ∈ s.epochbags t j) :
    s'.retireEpoch o = s.retireEpoch o := by
  have hlife := hI.life_eq ho
  cases hstep with
  | retire v o' hpc ho' =>
    have hne : o ≠ o' := by
      rintro rfl
      rw [ho'] at hlife
      cases hlife
    exact update_of_ne hne ..
  | _ => rfl

/-- Each turn of the bags adopts a later epoch. -/
private theorem Step.turned {j : Fin 3} (ho : o ∈ s'.epochbags t j) (hpos : 0 < turns s' t j) :
    s'.localvarAnnouncedEpoch t % 2 = 0 ∧
      s'.retireEpoch o + 2 * turns s' t j ≤ s'.localvarAnnouncedEpoch t + 2 := by
  -- a step that neither adopts an epoch nor puts the object into the bag
  have same : o ∈ s.epochbags t j → turns s' t j = turns s t j →
      s'.localvarAnnouncedEpoch t = s.localvarAnnouncedEpoch t →
      s'.localvarAnnouncedEpoch t % 2 = 0 ∧
        s'.retireEpoch o + 2 * turns s' t j ≤ s'.localvarAnnouncedEpoch t + 2 := by
    intro hold hturns hl
    rw [hturns] at hpos
    rw [hturns, hl, hstep.retireEpoch_eq hI hold]
    exact hI.turned t j o hold hpos
  -- a step of the thread itself
  by_cases ha : a = .thread t
  · have move : ∀ {p : Pc}, p.rotating = (s.pc t).rotating →
        (s.index t - j).val + (update s.pc t p t).rotating = turns s t j := by
      intro p hp
      unfold turns
      rw [update_self, hp]
    have hreq := hstep.retireEpoch_eq hI (t := t) (j := j) (o := o)
    have hidle : ∀ {p : Pc}, s.pc t = p → turns s t j = (s.index t - j).val + p.rotating := by
      rintro p rfl
      rfl
    have hlocal := hI.localvar t
    have heven := hI.even
    cases hstep with
    | link | unlink => cases ha
    | startOpNew t' hpc hann =>
      -- the epoch read is not the one adopted before, so the bags turn
      obtain rfl := Actor.thread.inj ha
      have hold : o ∈ s.epochbags t' j := ho
      have hbefore := hidle hpc
      have hafter : (s.index t' - j).val + (update s.pc t' (.rotate s.epoch) t').rotating =
          turns s t' j + 1 := by
        rw [hbefore, update_self]
        rfl
      show update s.localvarAnnouncedEpoch t' s.epoch t' % 2 = 0 ∧
        s.retireEpoch o + 2 * ((s.index t' - j).val + (update s.pc t' _ t').rotating) ≤
          update s.localvarAnnouncedEpoch t' s.epoch t' + 2
      rw [update_self, hafter]
      refine ⟨heven, ?_⟩
      obtain ⟨hle, -⟩ := hI.retireEpoch o (hI.life_eq hold)
      rcases Nat.eq_zero_or_pos (turns s t' j) with hzero | hturn
      · -- the first turn after the retirement
        omega
      · -- the epoch is greater than the one adopted before
        obtain ⟨hev, hturned⟩ := hI.turned t' j o hold hturn
        have hle' := hlocal.resolve_left (by omega)
        omega
    | startOpSame t' hpc hann =>
      obtain rfl := Actor.thread.inj ha
      exact same ho (move (by rw [hpc]; rfl)) rfl
    | rotateFree t' e rest o' hpc hbag =>
      -- an object that leaves the bag leaves none in another one
      obtain rfl := Actor.thread.inj ha
      have ho : o ∈ update s.epochbags t' (update (s.epochbags t') (s.index t' + 1) rest) t' j := ho
      refine same ?_ rfl rfl
      rw [update_self] at ho
      by_cases hj : j = s.index t' + 1
      · subst hj
        rw [update_self] at ho
        rw [hbag]
        exact List.mem_append_left _ ho
      · rwa [update_of_ne hj] at ho
    | rotateEnd t' e hpc hbag =>
      -- the bag that becomes the current one is empty, so no object loses a turn
      obtain rfl := Actor.thread.inj ha
      have hold : o ∈ s.epochbags t' j := ho
      have hj : j ≠ s.index t' + 1 := by
        rintro rfl
        rw [hbag] at hold
        cases hold
      have hturns : (update s.index t' (s.index t' + 1) t' - j).val +
          (update s.pc t' (.announce e) t').rotating = turns s t' j := by
        rw [update_self, update_self, hidle hpc]
        show (s.index t' + 1 - j).val + 0 = (s.index t' - j).val + 1
        omega
      exact same hold hturns rfl
    | announce t' e hpc hops =>
      obtain rfl := Actor.thread.inj ha
      exact same ho (move (by rw [hpc]; rfl)) rfl
    | announceCheck t' e hpc hops =>
      obtain rfl := Actor.thread.inj ha
      exact same ho (move (by rw [hpc]; rfl)) rfl
    | check t' i e hpc hi hpass hlt =>
      obtain rfl := Actor.thread.inj ha
      exact same ho (move (by rw [hpc]; rfl)) rfl
    | checkLast t' i e hpc hi hpass hge =>
      obtain rfl := Actor.thread.inj ha
      exact same ho (move (by rw [hpc]; rfl)) rfl
    | checkFail t' i e hpc hi hpass =>
      obtain rfl := Actor.thread.inj ha
      exact same ho (move (by rw [hpc]; rfl)) rfl
    | casSuccess t' e hpc he =>
      obtain rfl := Actor.thread.inj ha
      exact same ho (move (by rw [hpc]; rfl)) rfl
    | casFail t' e hpc he =>
      obtain rfl := Actor.thread.inj ha
      exact same ho (move (by rw [hpc]; rfl)) rfl
    | endOp t' hpc =>
      obtain rfl := Actor.thread.inj ha
      exact same ho rfl rfl
    | retire t' o' hpc ho' =>
      -- a new object goes into the current bag
      obtain rfl := Actor.thread.inj ha
      have ho : o ∈ update s.epochbags t' (update (s.epochbags t') (s.index t')
        (s.epochbags t' (s.index t') ++ [o'])) t' j := ho
      refine same ?_ rfl rfl
      rw [update_self] at ho
      by_cases hj : j = s.index t'
      · -- what goes into the current bag has seen no turn
        subst hj
        have hzero : turns s t' (s.index t') = 0 := by
          rw [hidle hpc]
          simp [Pc.rotating]
        have hpos : 0 < turns s t' (s.index t') := hpos
        omega
      · rwa [update_of_ne hj] at ho
  · -- a step of another thread leaves the bags and their turns alone
    have hf := hstep.frame ha
    rw [hf.epochbags] at ho
    refine same ho ?_ hf.localvar
    unfold turns
    rw [hf.index, hf.pc]

/-- **Invariant preservation.** -/
theorem Inv.step : Inv s' where
  custody := hI.custody.step hstep.custody
  even := by
    have heven := hI.even
    cases hstep with
    | casSuccess t e hpc he =>
      show (e + 2) % 2 = 0
      omega
    | _ => exact heven
  localvar t := hstep.localvar hI t
  announced_le _ hq := hstep.announced_le hI hq
  own t := hstep.own hI t
  seen t _ hu := hstep.seen hI t hu
  retireEpoch _ ho := hstep.retireEpoch hI ho
  owing _ _ ho hne := hstep.owing hI ho hne
  running _ _ _ ho hrun hpc := hstep.running hI ho hrun hpc
  seen_clear _ _ _ ho hlt hs := hstep.seen_clear hI ho hlt hs
  passed _ _ ho hlt := hstep.passed hI ho hlt
  turned _ _ _ ho hpos := hstep.turned hI ho hpos

omit hI hstep

/-- **DEBRA waits for a grace period.** In every run, what is passed to the pool is owed nothing by
any thread, and whoever increments the epoch has seen all threads since it adopted that epoch. -/
theorem debra_grace (h : (system minOps).Reachable s) :
    (∀ t o, PassesToPool s t o → ∀ u, s.owes o u = .clear) ∧
      ∀ t e, Advances s t e → s.localvarAnnouncedEpoch t = e ∧ ∀ u, s.seen t u = true := by
  have hI : Inv s := by
    refine h.invariant ?_ fun s a s' _ hI _ hs => hI.step hs
    rintro s rfl
    exact Inv.initial
  exact ⟨fun t o hp u => hI.grace hp u, fun t e ha => hI.advances ha⟩

end Steps

/-! ### One thread that frees an object -/

/-- A single thread between two calls; the epoch it has adopted is over. -/
structure Solo (x : State 1 ℕ) (E : ℕ) (i : Fin 3) : Prop where
  pc : x.pc 0 = .idle
  epoch : x.epoch = E
  even : E % 2 = 0
  localvar : x.localvarAnnouncedEpoch 0 ≠ E
  opsSinceRead : x.opsSinceRead 0 = 0
  index : x.index 0 = i

/-- A `startOp` that finds the oldest bag empty and increments the epoch. -/
private theorem Solo.startOp {x : State 1 ℕ} {E : ℕ} {i : Fin 3} (h : Solo x E i)
    (hx : (system 1).Reachable x) (hbag : x.epochbags 0 (i + 1) = []) :
    ∃ x', (system 1).Reachable x' ∧ Solo x' (E + 2) (i + 1) ∧ x'.epochbags = x.epochbags ∧
      x'.life = x.life := by
  obtain ⟨hpc, rfl, heven, hl, hops, rfl⟩ := h
  have h₁ := hx.step (Step.startOpNew x 0 hpc hl.symm)
  have h₂ := h₁.step (Step.rotateEnd _ 0 x.epoch rfl hbag)
  have h₃ := h₂.step (Step.announceCheck _ 0 x.epoch rfl (by
    show x.opsSinceRead 0 + 1 = 1
    rw [hops]))
  have h₄ := h₃.step (Step.checkLast _ 0 0 x.epoch rfl rfl (by
    left
    show bitsEpoch (update x.announcedEpoch 0 x.epoch 0) = x.epoch
    rw [update_self]
    exact bitsEpoch_of_not_quiescent (not_quiescent_of_even heven)) le_rfl)
  have h₅ := h₄.step (Step.casSuccess _ 0 x.epoch rfl rfl)
  refine ⟨_, h₅, ⟨rfl, rfl, ?_, ?_, rfl, rfl⟩, rfl, rfl⟩
  · omega
  · show update x.localvarAnnouncedEpoch 0 x.epoch 0 ≠ x.epoch + 2
    rw [update_self]
    omega

/-- The object that a thread retires is passed to the pool in the third epoch after. -/
theorem debra_grace_of_freed : ∃ (s : State 1 ℕ) (o : ℕ), PassesToPool s 0 o ∧
    ((∀ t o, PassesToPool s t o → ∀ u, s.owes o u = .clear) ∧
      ∀ t e, Advances s t e → s.localvarAnnouncedEpoch t = e ∧ ∀ u, s.seen t u = true) := by
  have h₀ : Solo (State.initial 1 ℕ) 0 0 := ⟨rfl, rfl, rfl, by decide, rfl, rfl⟩
  obtain ⟨x₁, hx₁, h₁, hbags₁, hlife₁⟩ := h₀.startOp (.init rfl) rfl
  -- the object goes into bag 1
  let y : State 1 ℕ := { x₁ with life := update (update x₁.life 0 .linked) 0 .unlinked }
  have hy := (hx₁.step (Step.link x₁ 0 (by rw [hlife₁]; rfl))).step
    (Step.unlink _ 0 rfl)
  have hr := hy.step (Step.retire y 0 0 h₁.pc rfl)
  have hbag : (y.retire 0 0).epochbags 0 = update (fun _ => []) 1 [0] := by
    show update x₁.epochbags 0 (update (x₁.epochbags 0) (x₁.index 0) _) 0 = _
    rw [update_self, h₁.index, hbags₁]
    rfl
  have hs : Solo (y.retire 0 0) 2 1 :=
    ⟨h₁.pc, h₁.epoch, h₁.even, h₁.localvar, h₁.opsSinceRead, h₁.index⟩
  obtain ⟨x₂, hx₂, h₂, hbags₂, -⟩ := hs.startOp hr (by rw [hbag]; rfl)
  obtain ⟨x₃, hx₃, h₃, hbags₃, -⟩ := h₂.startOp hx₂ (by rw [hbags₂, hbag]; rfl)
  have hlast := hx₃.step (Step.startOpNew x₃ 0 h₃.pc (by rw [h₃.epoch]; exact h₃.localvar.symm))
  refine ⟨_, 0, ⟨x₃.epoch, [], rfl, ?_⟩, debra_grace hlast⟩
  show x₃.epochbags 0 (x₃.index 0 + 1) = [0]
  rw [hbags₃, hbags₂, hbag, h₃.index]
  rfl

end Debra
end PopSetbench

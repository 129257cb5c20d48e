import Mathlib.Data.List.Range
import PopSetbench.Reclaim.HazardPtrPop

/-!
# HazardPtrPOP: runs of one thread at a time

Pieces of schedules in which one thread runs alone through a part of `retire`, for any number
of threads and any `empty_freq`. They are put together into the schedules in which an object
is freed under a reader's nose.

A piece starts in a state reached by steps that meet some condition `ok` on runs and ends in
another such state; all that is asked of `ok` is that it allows the steps of the piece
(`Plain`).
-/

namespace PopSetbench
namespace HazardPtrPop

open Function

variable {n : ℕ} {s : State n ℕ Unit} {t : Fin n} {cfg : Config}

/-- The points of the code at which a thread compares counters. -/
def Pc.compares : Pc ℕ Unit → Bool
  | .confirm _ => true
  | .check _ => true
  | _ => false

/-- The step compares no counters, or misses at the low watermark. -/
def Plain (s : State n ℕ Unit) (a : Actor n) : Prop :=
  ∀ t, a = .thread t → ∀ i : Fin n, s.pc t ≠ .confirm i.val ∧
    (s.pc t = .check i.val → ¬ s.savedTS t i + 2 ≤ s.announcedTS i)

theorem Plain.env (s : State n ℕ Unit) : Plain s .env := nofun

theorem Plain.handler (s : State n ℕ Unit) (t : Fin n) : Plain s (.handler t) := nofun

theorem Plain.thread {p : Pc ℕ Unit} (hpc : s.pc t = p) (hp : p.compares = false) :
    Plain s (.thread t) := by
  rintro _ ⟨rfl⟩ i
  rw [hpc]
  refine ⟨?_, ?_⟩ <;> rintro rfl <;> cases hp

theorem Plain.miss {i : Fin n} (hpc : s.pc t = .check i.val)
    (hlt : ¬ s.savedTS t i + 2 ≤ s.announcedTS i) : Plain s (.thread t) := by
  rintro _ ⟨rfl⟩ j
  rw [hpc]
  refine ⟨nofun, fun hij => ?_⟩
  obtain rfl : i = j := Fin.ext (Pc.check.inj hij)
  exact hlt

theorem Plain.checkEnd (hpc : s.pc t = .check n) : Plain s (.thread t) := by
  rintro _ ⟨rfl⟩ i
  rw [hpc]
  exact ⟨nofun, fun hi => absurd (Pc.check.inj hi) (Nat.ne_of_gt i.isLt)⟩

theorem Plain.confirmEnd (hpc : s.pc t = .confirm n) : Plain s (.thread t) := by
  rintro _ ⟨rfl⟩ i
  rw [hpc]
  exact ⟨fun hi => absurd (Pc.confirm.inj hi) (Nat.ne_of_gt i.isLt), nofun⟩

/-! ### Loops -/

theorem State.goto_goto {Obj Loc : Type} (s : State n Obj Loc) (t : Fin n) (p q : Pc Obj Loc) :
    (s.goto t p).goto t q = s.goto t q := by
  simp [State.goto]

theorem State.goto_pc {Obj Loc : Type} (s : State n Obj Loc) (t : Fin n) (p : Pc Obj Loc) :
    (s.goto t p).pc t = p :=
  update_self ..

theorem State.goto_pc_of_ne {Obj Loc : Type} (s : State n Obj Loc) {t u : Fin n} (hu : u ≠ t)
    (p : Pc Obj Loc) : (s.goto t p).pc u = s.pc u :=
  update_of_ne hu ..

theorem State.goto_self {Obj Loc : Type} {s : State n Obj Loc} {t : Fin n} {p : Pc Obj Loc}
    (hpc : s.pc t = p) : s.goto t p = s := by
  subst hpc
  simp [State.goto]

/-- Copying an empty slot over an empty one changes nothing. -/
theorem State.copySlot_none {Obj Loc : Type} {s : State n Obj Loc} {t : Fin n}
    {e : Fin slotsPerThread} (hs : s.slots t e = none) (hl : s.localSlots t e = none) :
    s.copySlot t e = s := by
  have hinner : update (s.slots t) e (s.localSlots t e) = s.slots t := by
    rw [hl, ← hs, update_eq_self]
  simp [State.copySlot, hinner]

theorem State.copyEntry_none {Obj Loc : Type} {s : State n Obj Loc} {t u : Fin n}
    {e : Fin slotsPerThread} (ht : s.tempLocalSlots t u e = none) (hs : s.slots u e = none) :
    s.copyEntry t u e = s := by
  have hinner : update (s.tempLocalSlots t u) e (s.slots u e) = s.tempLocalSlots t u := by
    rw [hs, ← ht, update_eq_self]
  simp [State.copyEntry, hinner]

/-- `s'` is `s` after a call of `retire` on `o` by thread `t` has signalled everybody. -/
structure Round (s s' : State n ℕ Unit) (t : Fin n) (o : ℕ) : Prop where
  retired : s'.retired = update s.retired t (s.retired t ++ [o])
  localSlots : s'.localSlots = s.localSlots
  valid : s'.valid = s.valid
  slots : s'.slots = s.slots
  tempLocalSlots : s'.tempLocalSlots = s.tempLocalSlots
  firstLoEntryFlag_self : s'.firstLoEntryFlag t = true
  firstLoEntryFlag : ∀ u, u ≠ t → s'.firstLoEntryFlag u = s.firstLoEntryFlag u
  size : ∀ u, u ≠ t → s'.retireBagSizeWhenEnteredLoWm u = s.retireBagSizeWhenEnteredLoWm u
  savedTS : s'.savedTS = s.savedTS
  announcedTS : s'.announcedTS = update s.announcedTS t (s.announcedTS t + 1 + 1)
  mypublishingTS : s'.mypublishingTS = update s.mypublishingTS t (s.mypublishingTS t + 1)
  myscannedTS : ∀ i, s'.myscannedTS t i = s.mypublishingTS i
  pinged_self : s'.pinged t = false
  pinged : ∀ u, u ≠ t → s'.pinged u = true
  handler : s'.handler = s.handler
  pc : ∀ u, u ≠ t → s'.pc u = s.pc u

/-- `s'` is `s` after a call of `retire` on `o` by thread `t` has entered the low watermark. -/
structure Entered (s s' : State n ℕ Unit) (t : Fin n) (o : ℕ) : Prop where
  retired : s'.retired = update s.retired t (s.retired t ++ [o])
  life : s'.life = update s.life o .retired
  localSlots : s'.localSlots = s.localSlots
  valid : s'.valid = s.valid
  slots : s'.slots = s.slots
  tempLocalSlots : s'.tempLocalSlots = s.tempLocalSlots
  firstLoEntryFlag : s'.firstLoEntryFlag t = false
  size : s'.retireBagSizeWhenEnteredLoWm t = (s.retired t).length + 1
  announcedTS : s'.announcedTS = s.announcedTS
  savedTS : s'.savedTS = s.savedTS
  pinged : s'.pinged = s.pinged
  handler : s'.handler = s.handler
  pc : ∀ u, u ≠ t → s'.pc u = s.pc u

/-- The state after the handler of a thread that holds nothing. -/
def State.handled (s : State n ℕ Unit) (t : Fin n) : State n ℕ Unit :=
  { s with
    pinged := update s.pinged t false
    mypublishingTS := update s.mypublishingTS t (s.mypublishingTS t + 1)
    pubs := update s.pubs t (s.pubs t + 1) }

/-- The state after an object has been allocated, linked and unlinked. -/
def State.unlinked (s : State n ℕ Unit) (o : ℕ) : State n ℕ Unit :=
  { s with life := update s.life o .unlinked }

section Pieces

variable {ok : State n ℕ Unit → Actor n → Prop}

/-- A thread that only moves through a loop. -/
private theorem loop {P : State n ℕ Unit → Prop} {f : ℕ → Pc ℕ Unit} {k : ℕ}
    (hbody : ∀ i < k, P (s.goto t (f i)) → P (s.goto t (f (i + 1))))
    (h : P (s.goto t (f 0))) : P (s.goto t (f k)) := by
  induction k with
  | zero => exact h
  | succ k ih =>
    exact hbody k (Nat.lt_succ_self k) (ih fun i hi => hbody i (Nat.lt_succ_of_lt hi))

variable (hok : ∀ s a, Plain s a → ok s a)

include hok

theorem reach_plain {s' : State n ℕ Unit} {p : Pc ℕ Unit}
    (hR : (system cfg).ReachableBy ok s) (hstep : Step cfg s (.thread t) s')
    (hpc : s.pc t = p) (hp : p.compares = false) : (system cfg).ReachableBy ok s' :=
  hR.step hstep (hok _ _ (.thread hpc hp))

/-- Publishing nothing over nothing. -/
theorem reach_published (hR : (system cfg).ReachableBy ok (s.goto t (.publish 0)))
    (hr : s.Runs t) (hs : ∀ e, s.slots t e = none) (hl : ∀ e, s.localSlots t e = none) :
    (system cfg).ReachableBy ok (s.goto t (.publish slotsPerThread)) := by
  refine loop (f := Pc.publish) (fun j hj h => ?_) hR
  have hstep : Step cfg _ _ _ := .publish (s.goto t (.publish j)) t ⟨j, hj⟩ hr (update_self ..)
  have hcopy : (s.goto t (.publish j)).copySlot t ⟨j, hj⟩ = s.goto t (.publish j) :=
    State.copySlot_none (hs _) (hl _)
  rw [hcopy, State.goto_goto] at hstep
  exact reach_plain hok h hstep (update_self ..) rfl

/-- Copying the shared slots while they are empty. -/
theorem reach_scan {path : Path} (hR : (system cfg).ReachableBy ok (s.goto t (.snapshot path 0)))
    (hr : s.Runs t) (hs : ∀ u e, s.slots u e = none) (ht : ∀ u e, s.tempLocalSlots t u e = none) :
    (system cfg).ReachableBy ok (s.goto t (.scan path 0 0)) := by
  have hend : (system cfg).ReachableBy ok (s.goto t (.snapshot path (n * slotsPerThread))) := by
    refine loop (f := Pc.snapshot path) (fun m hm h => ?_) hR
    obtain ⟨u, e, rfl⟩ := exists_row hm
    have hstep : Step cfg _ _ _ :=
      .snapshot (s.goto t (.snapshot path (u.val * slotsPerThread + e.val))) t u e path hr
        (update_self ..)
    have hcopy : (s.goto t (.snapshot path (u.val * slotsPerThread + e.val))).copyEntry t u e =
        s.goto t (.snapshot path (u.val * slotsPerThread + e.val)) :=
      State.copyEntry_none (ht u e) (hs u e)
    rw [hcopy, State.goto_goto] at hstep
    exact reach_plain hok h hstep (update_self ..) rfl
  have hstep : Step cfg _ _ _ := .snapshotEnd (s.goto t _) t path hr (update_self ..)
  rw [State.goto_goto] at hstep
  exact reach_plain hok hend hstep (update_self ..) rfl

/-- The low watermark sees nobody signal. -/
theorem reach_missed (hR : (system cfg).ReachableBy ok (s.goto t (.check 0))) (hr : s.Runs t)
    (hmiss : ∀ i, ¬ s.savedTS t i + 2 ≤ s.announcedTS i) :
    (system cfg).ReachableBy ok (s.finishRetire t) := by
  have hend : (system cfg).ReachableBy ok (s.goto t (.check n)) := by
    refine loop (f := Pc.check) (fun i hi h => ?_) hR
    have hstep : Step cfg _ _ _ := .checkMiss (s.goto t (.check i)) t ⟨i, hi⟩ hr (update_self ..)
      (hmiss _)
    rw [State.goto_goto] at hstep
    exact h.step hstep (hok _ _ (.miss (i := ⟨i, hi⟩) (update_self ..) (hmiss ⟨i, hi⟩)))
  have hstep : Step cfg _ _ _ := .checkEnd (s.goto t (.check n)) t hr (update_self ..)
  have heq : (s.goto t (.check n)).finishRetire t = s.finishRetire t := by
    simp [State.finishRetire, State.goto]
    rfl
  rw [heq] at hstep
  exact hend.step hstep (hok _ _ (.checkEnd (update_self ..)))

/-- Entering the low watermark while nobody has signalled. -/
theorem reach_entered (hR : (system cfg).ReachableBy ok (s.goto t (.saveTS 0))) (hr : s.Runs t)
    (ha : ∀ i, s.announcedTS i = 0) (hs : ∀ u i, s.savedTS u i = 0) :
    ∃ a, (system cfg).ReachableBy ok (State.goto { s with
      savedAnn := a
      retireBagSizeWhenEnteredLoWm :=
        update s.retireBagSizeWhenEnteredLoWm t (s.retired t).length } t (.check 0)) := by
  have hloop : ∀ k ≤ n, ∃ a,
      (system cfg).ReachableBy ok (State.goto { s with savedAnn := a } t (.saveTS k)) := by
    intro k hk
    induction k with
    | zero => exact ⟨s.savedAnn, hR⟩
    | succ k ih =>
      obtain ⟨a, h⟩ := ih (Nat.le_of_succ_le hk)
      have hstep : Step cfg _ _ _ :=
        .saveTS (State.goto { s with savedAnn := a } t (.saveTS k)) t ⟨k, hk⟩ hr (update_self ..)
      -- the saved stamps are zero and stay zero
      have hsaved : update s.savedTS t (update (s.savedTS t) ⟨k, hk⟩ (s.announcedTS ⟨k, hk⟩)) =
          s.savedTS := by
        rw [ha, ← hs t ⟨k, hk⟩, update_eq_self, update_eq_self]
      refine ⟨update a t (update (a t) ⟨k, hk⟩ (s.ann ⟨k, hk⟩)), ?_⟩
      have hnext := reach_plain hok h hstep (update_self ..) rfl
      simpa only [State.goto, hsaved, update_idem] using hnext
  obtain ⟨a, h⟩ := hloop n le_rfl
  have hstep : Step cfg _ _ _ :=
    .saveTSEnd (State.goto { s with savedAnn := a } t (.saveTS n)) t hr (update_self ..)
  have hnext := reach_plain hok h hstep (update_self ..) rfl
  exact ⟨a, by simpa only [State.goto, update_idem] using hnext⟩

/-- Sampling the counters of everybody. -/
theorem reach_sampled (hR : (system cfg).ReachableBy ok (s.goto t (.sample 0))) (hr : s.Runs t) :
    ∃ x y, (system cfg).ReachableBy ok
        (State.goto { s with myscannedTS := x, scannedPubs := y } t .announceStart) ∧
      ∀ i, x t i = s.mypublishingTS i := by
  have hloop : ∀ k ≤ n, ∃ x y, (system cfg).ReachableBy ok
        (State.goto { s with myscannedTS := x, scannedPubs := y } t (.sample k)) ∧
      ∀ i : Fin n, i.val < k → x t i = s.mypublishingTS i := by
    intro k hk
    induction k with
    | zero => exact ⟨s.myscannedTS, s.scannedPubs, hR, fun i hi => absurd hi (Nat.not_lt_zero _)⟩
    | succ k ih =>
      obtain ⟨x, y, h, hx⟩ := ih (Nat.le_of_succ_le hk)
      have hstep : Step cfg _ _ _ :=
        .sample (State.goto { s with myscannedTS := x, scannedPubs := y } t (.sample k)) t ⟨k, hk⟩
          hr (update_self ..)
      have hnext := reach_plain hok h hstep (update_self ..) rfl
      refine ⟨update x t (update (x t) ⟨k, hk⟩ (s.mypublishingTS ⟨k, hk⟩)),
        update y t (update (y t) ⟨k, hk⟩ (s.pubs ⟨k, hk⟩)),
        by simpa only [State.goto, update_idem] using hnext, fun i hi => ?_⟩
      rw [update_self]
      by_cases hik : i = ⟨k, hk⟩
      · subst hik
        rw [update_self]
      · have hne : i.val ≠ k := fun hv => hik (Fin.ext hv)
        rw [update_of_ne hik]
        exact hx i (by omega)
  obtain ⟨x, y, h, hx⟩ := hloop n le_rfl
  have hstep : Step cfg _ _ _ :=
    .sampleEnd (State.goto { s with myscannedTS := x, scannedPubs := y } t (.sample n)) t hr
      (update_self ..)
  rw [State.goto_goto] at hstep
  exact ⟨x, y, reach_plain hok h hstep (update_self ..) rfl, fun i => hx i i.isLt⟩

/-- Pinging everybody else. -/
theorem reach_pinged (hR : (system cfg).ReachableBy ok (s.goto t (.ping 0))) (hr : s.Runs t) :
    ∃ z, (system cfg).ReachableBy ok (State.goto { s with pinged := z } t (.ping n)) ∧
      z t = false ∧ ∀ i, i ≠ t → z i = true := by
  have hloop : ∀ k ≤ n, ∃ z,
      (system cfg).ReachableBy ok (State.goto { s with pinged := z } t (.ping k)) ∧
        z t = false ∧ ∀ i : Fin n, i.val < k → i ≠ t → z i = true := by
    intro k hk
    induction k with
    | zero => exact ⟨s.pinged, hR, hr.1, fun i hi => absurd hi (Nat.not_lt_zero _)⟩
    | succ k ih =>
      obtain ⟨z, h, hz, hall⟩ := ih (Nat.le_of_succ_le hk)
      have hr' : (State.goto { s with pinged := z } t (.ping k)).Runs t := ⟨hz, hr.2⟩
      have hbelow : ∀ i : Fin n, i.val < k + 1 → i.val ≠ k → i ≠ t → z i = true :=
        fun i hi hik hit => hall i (by omega) hit
      by_cases hkt : (⟨k, hk⟩ : Fin n) = t
      · have hstep : Step cfg _ _ _ :=
          .pingSelf (State.goto { s with pinged := z } t (.ping k)) t hr'
            (by rw [← hkt]; exact update_self ..)
        rw [State.goto_goto, show t.val = k from (congrArg Fin.val hkt).symm] at hstep
        refine ⟨z, reach_plain hok h hstep (update_self ..) rfl, hz, fun i hi hit => ?_⟩
        exact hbelow i hi (fun hik => hit ((Fin.ext hik : i = ⟨k, hk⟩).trans hkt)) hit
      · have hstep : Step cfg _ _ _ :=
          .ping (State.goto { s with pinged := z } t (.ping k)) t ⟨k, hk⟩ hr' (update_self ..)
            (Ne.symm hkt)
        have hnext := reach_plain hok h hstep (update_self ..) rfl
        refine ⟨update z ⟨k, hk⟩ true, by simpa only [State.goto, update_idem] using hnext,
          ?_, fun i hi hit => ?_⟩
        · rw [update_of_ne (Ne.symm hkt)]
          exact hz
        · by_cases hik : i = ⟨k, hk⟩
          · subst hik
            exact update_self ..
          · rw [update_of_ne hik]
            exact hbelow i hi (fun hv => hik (Fin.ext hv)) hit
  obtain ⟨z, h, hz, hall⟩ := hloop n le_rfl
  exact ⟨z, h, hz, fun i => hall i i.isLt⟩

/-- A signalling round of a thread that holds nothing, up to the confirmation loop. -/
theorem reach_signalled (hR : (system cfg).ReachableBy ok (s.goto t (.sample 0))) (hr : s.Runs t)
    (hs : ∀ e, s.slots t e = none) (hl : ∀ e, s.localSlots t e = none) :
    ∃ x y z, (system cfg).ReachableBy ok (State.goto { s with
        myscannedTS := x
        scannedPubs := y
        pinged := z
        announcedTS := update s.announcedTS t (s.announcedTS t + 1 + 1)
        ann := update s.ann t (s.ann t + 1 + 1)
        mypublishingTS := update s.mypublishingTS t (s.mypublishingTS t + 1)
        pubs := update s.pubs t (s.pubs t + 1) } t (.confirm 0)) ∧
      (∀ i, x t i = s.mypublishingTS i) ∧ z t = false ∧ ∀ i, i ≠ t → z i = true := by
  obtain ⟨x, y, hR₁, hx⟩ := reach_sampled hok hR hr
  have hR₂ := reach_plain hok hR₁ (.announceStart _ t hr (update_self ..)) (update_self ..) rfl
  have hR₃ := reach_published hok hR₂ hr hs hl
  have hR₄ := reach_plain hok hR₃ (.publishEnd _ t hr (update_self ..)) (update_self ..) rfl
  obtain ⟨z, hR₅, hz, hall⟩ := reach_pinged hok hR₄ hr
  have hR₆ := reach_plain hok hR₅ (.announceDone _ t ⟨hz, hr.2⟩ (update_self ..))
    (update_self ..) rfl
  refine ⟨x, y, z, ?_, hx, hz, hall⟩
  simpa only [State.goto, State.announce, State.countPublish, update_idem, update_self] using hR₆

/-- A call of `retire` on `o`, out of patience, by a thread that holds nothing, up to the
confirmation loop. -/
theorem reach_round (hR : (system cfg).ReachableBy ok s) (hr : s.Runs t) (hpc : s.pc t = .idle)
    {o : ℕ} (ho : s.life o = .unlinked)
    (hout : State.isOutOfPatience cfg ((s.retired t).length + 1) = true)
    (hs : ∀ e, s.slots t e = none) (hl : ∀ e, s.localSlots t e = none) :
    ∃ s', (system cfg).ReachableBy ok (s'.goto t (.confirm 0)) ∧ Round s s' t o := by
  have hR₀ := reach_plain hok hR (.retireHiWm s t o hr hpc ho hout) hpc rfl
  obtain ⟨x, y, z, hR₁, hx, hz, hall⟩ := reach_signalled hok hR₀ hr hs hl
  exact ⟨_, hR₁, rfl, rfl, rfl, rfl, rfl, update_self .., fun u hu => update_of_ne hu ..,
    fun u hu => update_of_ne hu .., rfl, rfl, rfl, hx, hz, hall, rfl, fun _ _ => rfl⟩

/-- The handler of a pinged thread that holds nothing. -/
theorem reach_handled (hR : (system cfg).ReachableBy ok s) (hp : s.pinged t = true)
    (hh : s.handler t = none) (hs : ∀ e, s.slots t e = none) (hl : ∀ e, s.localSlots t e = none) :
    (system cfg).ReachableBy ok (s.handled t) := by
  have henter : Step cfg _ _ _ := .handlerEnter s t hp hh
  have hR₁ := hR.step henter (hok _ _ (.handler s t))
  have hloop : ∀ k ≤ slotsPerThread, (system cfg).ReachableBy ok { s with
      pinged := update s.pinged t false
      handler := update s.handler t (some k) } := by
    intro k hk
    induction k with
    | zero => exact hR₁
    | succ k ih =>
      let x : State n ℕ Unit := { s with
        pinged := update s.pinged t false
        handler := update s.handler t (some k) }
      have hstep : Step cfg x _ _ := .handlerPublish x t ⟨k, hk⟩ (update_self ..)
      have hnext := (ih (Nat.le_of_succ_le hk)).step hstep (hok _ _ (.handler x t))
      have hcopy : x.copySlot t ⟨k, hk⟩ = x := State.copySlot_none (hs _) (hl _)
      rw [hcopy] at hnext
      simpa only [x, update_idem] using hnext
  have hR₂ := (hloop slotsPerThread le_rfl).step (.handlerReturn _ t (update_self ..))
    (hok _ _ (.handler _ t))
  have hhandler : update s.handler t none = s.handler := by
    rw [← hh, update_eq_self]
  simpa only [State.handled, State.countPublish, update_idem, hhandler] using hR₂

/-- The confirmation loop, whatever it finds. -/
theorem reach_confirmed (hR : (system cfg).ReachableBy ok (s.goto t (.confirm 0))) (hr : s.Runs t)
    (hconf : ∀ i : Fin n, ok (s.goto t (.confirm i.val)) (.thread t)) :
    (system cfg).ReachableBy ok (s.goto t (.snapshot .hiWm 0)) := by
  have hend : (system cfg).ReachableBy ok (s.goto t (.confirm n)) := by
    refine loop (f := Pc.confirm) (fun i hi h => ?_) hR
    have hstep : Step cfg _ _ _ := .confirm (s.goto t (.confirm i)) t ⟨i, hi⟩ hr (update_self ..)
    rw [State.goto_goto] at hstep
    exact h.step hstep (hconf ⟨i, hi⟩)
  have hstep : Step cfg _ _ _ := .confirmEnd (s.goto t (.confirm n)) t hr (update_self ..)
  rw [State.goto_goto] at hstep
  exact hend.step hstep (hok _ _ (.confirmEnd (update_self ..)))

end Pieces

/-! ### Retiring below the high watermark -/

/-- Every thread is between two calls, nothing is published and nobody has signalled. -/
structure Quiet (cfg : Config) (s : State n ℕ Unit) : Prop where
  pc : ∀ u, s.pc u = .idle
  runs : ∀ u, s.Runs u
  announcedTS : ∀ u, s.announcedTS u = 0
  savedTS : ∀ u i, s.savedTS u i = 0
  slots : ∀ u e, s.slots u e = none
  tempLocalSlots : ∀ u v e, s.tempLocalSlots u v e = none
  /-- Below the low watermark its metadata are those of a fresh thread. -/
  low : ∀ u, (s.retired u).length ≤ cfg.emptyFreq / 2 →
    s.firstLoEntryFlag u = true ∧ s.numRetiresSinceLoWatermark u = 0

theorem Quiet.initial (cfg : Config) : Quiet cfg (State.initial n ℕ Unit) :=
  ⟨fun _ => rfl, fun _ => ⟨rfl, rfl⟩, fun _ => rfl, fun _ _ => rfl, fun _ _ => rfl,
    fun _ _ _ => rfl, fun _ _ => ⟨rfl, rfl⟩⟩

/-- Thread `t` has retired the objects of `l`; no reservation has changed. -/
structure Retired (s s' : State n ℕ Unit) (t : Fin n) (l : List ℕ) : Prop where
  retired : s'.retired = update s.retired t (s.retired t ++ l)
  life : ∀ o, s'.life o = if o ∈ l then .retired else s.life o
  localSlots : s'.localSlots = s.localSlots
  valid : s'.valid = s.valid

/-- `x` differs from the quiet `s` only in what a call of `retire` by `t` changes. -/
private theorem Quiet.finishRetire {x : State n ℕ Unit} (hq : Quiet cfg s)
    (hpc : ∀ u, u ≠ t → x.pc u = s.pc u) (hruns : ∀ u, x.Runs u)
    (hann : x.announcedTS = s.announcedTS) (hsaved : x.savedTS = s.savedTS)
    (hslots : x.slots = s.slots) (htemp : x.tempLocalSlots = s.tempLocalSlots)
    (hlow : ∀ u, (x.retired u).length ≤ cfg.emptyFreq / 2 →
      x.firstLoEntryFlag u = true ∧ x.numRetiresSinceLoWatermark u = 0) :
    Quiet cfg (x.finishRetire t) where
  pc u := by
    by_cases hu : u = t
    · subst hu
      exact update_self ..
    · exact (update_of_ne hu ..).trans ((hpc u hu).trans (hq.pc u))
  runs := hruns
  announcedTS u := (congrFun hann u).trans (hq.announcedTS u)
  savedTS u i := (congrFun (congrFun hsaved u) i).trans (hq.savedTS u i)
  slots u e := (congrFun (congrFun hslots u) e).trans (hq.slots u e)
  tempLocalSlots u v e :=
    (congrFun (congrFun (congrFun htemp u) v) e).trans (hq.tempLocalSlots u v e)
  low u hu := by
    obtain ⟨hfl, hnum⟩ := hlow u hu
    refine ⟨hfl, ?_⟩
    simp only [State.finishRetire]
    split
    · exact hnum
    · rename_i hnot
      by_cases hut : u = t
      · exact absurd (hut ▸ hfl) hnot
      · rw [update_of_ne hut]
        exact hnum

/-- The metadata of the low watermark after a push. -/
private theorem Quiet.low_push (hq : Quiet cfg s) {o : ℕ}
    (hpast : cfg.emptyFreq / 2 < (s.retired t).length + 1) {f : Fin n → Bool}
    (hf : ∀ u, u ≠ t → f u = s.firstLoEntryFlag u) (u : Fin n)
    (hu : (update s.retired t (s.retired t ++ [o]) u).length ≤ cfg.emptyFreq / 2) :
    f u = true ∧ s.numRetiresSinceLoWatermark u = 0 := by
  by_cases hut : u = t
  · subst hut
    rw [update_self, List.length_append, List.length_singleton] at hu
    omega
  · rw [update_of_ne hut] at hu
    rw [hf u hut]
    exact hq.low u hu

/-- Unlinking an object disturbs nobody. -/
theorem Quiet.unlinked (hq : Quiet cfg s) (o : ℕ) :
    Quiet cfg (s.unlinked o) :=
  ⟨hq.pc, hq.runs, hq.announcedTS, hq.savedTS, hq.slots, hq.tempLocalSlots, hq.low⟩

theorem State.isPastLoWatermark_iff {Obj Loc : Type} {s : State n Obj Loc} {m : ℕ} :
    s.isPastLoWatermark cfg t m = true ↔ cfg.emptyFreq / 2 < m ∧
      s.numRetiresSinceLoWatermark t % s.loPathReclaimAttemptFreq t = 0 := by
  simp [State.isPastLoWatermark]

section Retires

variable {ok : State n ℕ Unit → Actor n → Prop} (hok : ∀ s a, Plain s a → ok s a)

include hok

/-- An object is allocated, linked and unlinked. -/
theorem reach_unlinked (hR : (system cfg).ReachableBy ok s) {o : ℕ} (ho : s.life o = .pooled) :
    (system cfg).ReachableBy ok (s.unlinked o) := by
  have hlink : Step cfg _ _ _ := .link s o ho
  have hR' := hR.step hlink (hok _ _ (.env _))
  have hunlink : Step cfg _ _ _ := .unlink { s with life := update s.life o .linked } o
    (update_self ..)
  simpa only [State.unlinked, update_idem] using hR'.step hunlink (hok _ _ (.env _))

/-- A thread retires one more object and goes away empty-handed. -/
theorem Quiet.retire (hq : Quiet cfg s) (hR : (system cfg).ReachableBy ok s) {o : ℕ}
    (ho : s.life o = .unlinked) (hlen : (s.retired t).length + 1 < cfg.emptyFreq) :
    ∃ s', (system cfg).ReachableBy ok s' ∧ Quiet cfg s' ∧ Retired s s' t [o] := by
  have hout : State.isOutOfPatience cfg ((s.retired t).length + 1) = false := by
    simpa [State.isOutOfPatience] using hlen
  have hlife : ∀ b, update s.life o .retired b =
      if b ∈ [o] then .retired else s.life b := by
    intro b
    by_cases hb : b = o <;> simp [hb, update_of_ne]
  have hmiss : ∀ i, ¬ s.savedTS t i + 2 ≤ s.announcedTS i := by
    intro i
    rw [hq.savedTS, hq.announcedTS]
    decide
  by_cases hpast : s.isPastLoWatermark cfg t ((s.retired t).length + 1) = true
  · have hcap := (State.isPastLoWatermark_iff.mp hpast).1
    by_cases hfirst : s.firstLoEntryFlag t = true
    · have hstep : Step cfg _ _ _ := .retireEnterLoWm s t o 0 (hq.runs t) (hq.pc t) ho hout hpast
        hfirst
      have hR₁ := reach_plain hok hR hstep (hq.pc t) rfl
      obtain ⟨a, hR₂⟩ := reach_entered hok (s := { s.pushBack t o with
          firstLoEntryFlag := update s.firstLoEntryFlag t false
          loPathReclaimAttemptFreq := update s.loPathReclaimAttemptFreq t (attemptFreq 0)
          savedPubs := update s.savedPubs t s.pubs }) hR₁ (hq.runs t) hq.announcedTS hq.savedTS
      refine ⟨_, reach_missed hok hR₂ (hq.runs t) hmiss, ?_, ⟨rfl, hlife, rfl, rfl⟩⟩
      exact hq.finishRetire (fun _ _ => rfl) hq.runs rfl rfl rfl rfl
        (hq.low_push hcap fun u hu => update_of_ne hu ..)
    · have hstep : Step cfg _ _ _ := .retireLoWm s t o (hq.runs t) (hq.pc t) ho hout hpast
        (by simpa using hfirst)
      have hR₁ := reach_plain hok hR hstep (hq.pc t) rfl
      refine ⟨_, reach_missed hok hR₁ (hq.runs t) hmiss, ?_, ⟨rfl, hlife, rfl, rfl⟩⟩
      exact hq.finishRetire (fun _ _ => rfl) hq.runs rfl rfl rfl rfl
        (hq.low_push hcap fun _ _ => rfl)
  · have hstep : Step cfg _ _ _ := .retireOnly s t o (hq.runs t) (hq.pc t) ho hout
      (Bool.eq_false_of_not_eq_true hpast)
    refine ⟨_, reach_plain hok hR hstep (hq.pc t) rfl, ?_, ⟨rfl, hlife, rfl, rfl⟩⟩
    refine hq.finishRetire (fun _ _ => rfl) hq.runs rfl rfl rfl rfl fun u hu => ?_
    refine hq.low u (le_trans ?_ hu)
    by_cases hut : u = t
    · subst hut
      simp [State.pushBack]
    · simp [State.pushBack, update_of_ne hut]

/-- A thread retires `k` fresh objects and goes away empty-handed. -/
theorem Quiet.retires (hq : Quiet cfg s) (hR : (system cfg).ReachableBy ok s) {c : ℕ}
    (hfresh : ∀ o, c ≤ o → s.life o = .pooled) (k : ℕ)
    (hlen : (s.retired t).length + k < cfg.emptyFreq) :
    ∃ s', (system cfg).ReachableBy ok s' ∧ Quiet cfg s' ∧ Retired s s' t (List.range' c k) := by
  induction k with
  | zero => exact ⟨s, hR, hq, by simp, by simp, rfl, rfl⟩
  | succ k ih =>
    obtain ⟨s₁, hR₁, hq₁, h₁⟩ := ih (by omega)
    have ho : s₁.life (c + k) = .pooled := by
      rw [h₁.life, if_neg (by simp)]
      exact hfresh _ (Nat.le_add_right ..)
    have hlen₁ : (s₁.retired t).length + 1 < cfg.emptyFreq := by
      simp [h₁.retired]
      omega
    obtain ⟨s₂, hR₂, hq₂, h₂⟩ := (hq₁.unlinked (c + k)).retire hok (reach_unlinked hok hR₁ ho)
      (update_self ..) hlen₁
    refine ⟨s₂, hR₂, hq₂, ?_, fun b => ?_, h₂.localSlots.trans h₁.localSlots,
      h₂.valid.trans h₁.valid⟩
    · simp [h₂.retired, State.unlinked, h₁.retired, List.range'_concat]
    · rw [h₂.life, List.range'_concat]
      by_cases hb : b = c + k
      · simp [hb]
      · simpa [hb, State.unlinked, update_of_ne] using h₁.life b

/-- Thread `u` has read object `0`, which has been unlinked since; nothing else happened. -/
theorem reach_held (cfg : Config) (u : Fin n) :
    ∃ s, (system cfg).ReachableBy ok s ∧ Quiet cfg s ∧ s.life 0 = .unlinked ∧
      (∀ o, 1 ≤ o → s.life o = .pooled) ∧ (∀ t, s.retired t = []) ∧
      s.localSlots u 0 = some 0 ∧ s.valid u 0 = true ∧
      ∀ t e, t ≠ u ∨ e ≠ 0 → s.localSlots t e = none := by
  have hR₀ : (system cfg).ReachableBy ok (State.initial n ℕ Unit) := .init rfl
  have hR₁ := hR₀.step (.link _ 0 rfl) (hok _ _ (.env _))
  have hR₂ := hR₁.step (.write _ () ⟨some 0, 0⟩) (hok _ _ (.env _))
  have hR₃ := reach_plain hok hR₂ (.callRead _ u 0 () ⟨rfl, rfl⟩ rfl) rfl rfl
  have hR₄ := reach_plain hok hR₃ (.readLoad _ u 0 () ⟨rfl, rfl⟩ (update_self ..))
    (update_self ..) rfl
  have hR₅ := reach_plain hok hR₄ (.readReserve _ u 0 () _ ⟨rfl, rfl⟩ (update_self ..))
    (update_self ..) rfl
  have hR₆ := reach_plain hok hR₅ (.readReturn _ u 0 () _ ⟨rfl, rfl⟩ (update_self ..) rfl)
    (update_self ..) rfl
  have hR₇ := hR₆.step (.write _ () ⟨none, 0⟩) (hok _ _ (.env _))
  have hR₈ := hR₇.step (.unlink _ 0 rfl) (hok _ _ (.env _))
  refine ⟨_, hR₈, ⟨fun t => ?_, fun _ => ⟨rfl, rfl⟩, fun _ => rfl, fun _ _ => rfl, fun _ _ => rfl,
    fun _ _ _ => rfl, fun _ _ => ⟨rfl, rfl⟩⟩, rfl, fun o ho => ?_, fun _ => rfl, ?_, ?_,
    fun t e hte => ?_⟩
  · by_cases ht : t = u <;> simp [State.goto, State.setSlot, State.initial, ht]
  · have hne : o ≠ 0 := Nat.ne_of_gt ho
    simp [State.goto, State.setSlot, State.initial, hne]
  · simp [State.goto, State.setSlot]
  · simp [State.goto, State.setSlot, State.initial]
  · by_cases ht : t = u
    · subst ht
      simp [State.goto, State.setSlot, State.initial, hte.resolve_left (not_not.mpr rfl)]
    · simp [State.goto, State.setSlot, State.initial, ht]

/-- Thread `1` holds object `0`, which is the first in the list of thread `0`. That list is full,
and thread `0` has signalled thread `1`, whose handler has not run. -/
structure Overfull (cfg : Config) (s : State 2 ℕ Unit) : Prop where
  retired : s.retired 0 = 0 :: List.range' 1 (cfg.emptyFreq - 2) ++ [cfg.emptyFreq]
  runs : s.Runs 0
  firstLoEntryFlag : s.firstLoEntryFlag 0 = true
  held : s.localSlots 1 0 = some 0
  valid : s.valid 1 0 = true
  empty : ∀ t e, t ≠ 1 ∨ e ≠ 0 → s.localSlots t e = none
  slots : ∀ u e, s.slots u e = none
  tempLocalSlots : ∀ u v e, s.tempLocalSlots u v e = none
  pinged : s.pinged 1 = true
  handler : s.handler 1 = none

omit hok in
theorem reach_overfull {ok : State 2 ℕ Unit → Actor 2 → Prop} (hok : ∀ s a, Plain s a → ok s a)
    (cfg : Config) (hcap : 2 ≤ cfg.emptyFreq) :
    ∃ s, (system cfg).ReachableBy ok (s.goto 0 (.confirm 0)) ∧ Overfull cfg s := by
  obtain ⟨s₀, hR₀, hq₀, ho₀, hfresh₀, hempty, hloc, hvalid, hother⟩ := reach_held hok cfg 1
  -- object `0` first, then enough others to come one short of the capacity
  obtain ⟨s₁, hR₁, hq₁, h₁⟩ := hq₀.retire (t := 0) hok hR₀ ho₀ (by simp [hempty]; omega)
  have hfresh₁ : ∀ o, 1 ≤ o → s₁.life o = .pooled := by
    intro o ho
    rw [h₁.life, if_neg (by simp; omega)]
    exact hfresh₀ o ho
  have hlen₁ : (s₁.retired 0).length = 1 := by simp [h₁.retired, hempty]
  obtain ⟨s₂, hR₂, hq₂, h₂⟩ := hq₁.retires (t := 0) hok hR₁ hfresh₁ (cfg.emptyFreq - 2)
    (by omega)
  have hlast : s₂.life cfg.emptyFreq = .pooled := by
    rw [h₂.life, if_neg (by simp; omega)]
    exact hfresh₁ _ (by omega)
  have hret₂ : s₂.retired 0 = 0 :: List.range' 1 (cfg.emptyFreq - 2) := by
    simp [h₂.retired, h₁.retired, hempty]
  have hout : State.isOutOfPatience cfg ((s₂.retired 0).length + 1) = true := by
    simp [State.isOutOfPatience, hret₂]
    omega
  -- one more, out of patience
  have hl₂ : s₂.localSlots = s₀.localSlots := h₂.localSlots.trans h₁.localSlots
  have hv₂ : s₂.valid = s₀.valid := h₂.valid.trans h₁.valid
  -- the round begins, and the handler of thread `1` is still to run
  obtain ⟨s₃, hR₃, h₃⟩ := reach_round hok (reach_unlinked hok hR₂ hlast) (hq₂.runs 0) (hq₂.pc 0)
    (update_self ..) hout (hq₂.slots 0) fun e => by
      change s₂.localSlots 0 e = none
      rw [hl₂]
      exact hother 0 e (.inl (by decide))
  have hl₃ : s₃.localSlots = s₀.localSlots := h₃.localSlots.trans hl₂
  have hv₃ : s₃.valid = s₀.valid := h₃.valid.trans hv₂
  refine ⟨s₃, hR₃, ?_⟩
  constructor
  · rw [h₃.retired, update_self]
    exact congrArg (· ++ [cfg.emptyFreq]) hret₂
  · exact ⟨h₃.pinged_self, (congrFun h₃.handler 0).trans (hq₂.runs 0).2⟩
  · exact h₃.firstLoEntryFlag_self
  · rw [hl₃]
    exact hloc
  · rw [hv₃]
    exact hvalid
  · rw [hl₃]
    exact hother
  · rw [h₃.slots]
    exact hq₂.slots
  · rw [h₃.tempLocalSlots]
    exact hq₂.tempLocalSlots
  · exact h₃.pinged 1 (by decide)
  · rw [h₃.handler]
    exact (hq₂.runs 1).2

/-- A thread enters the low watermark. -/
theorem Quiet.enter (hq : Quiet cfg s) (hR : (system cfg).ReachableBy ok s) {o : ℕ}
    (ho : s.life o = .unlinked) (hlen : (s.retired t).length = cfg.emptyFreq / 2)
    (hcap : 3 ≤ cfg.emptyFreq) :
    ∃ s', (system cfg).ReachableBy ok (s'.goto t (.check 0)) ∧ Entered s s' t o := by
  obtain ⟨hfirst, hnum⟩ := hq.low t (le_of_eq hlen)
  have hout : State.isOutOfPatience cfg ((s.retired t).length + 1) = false := by
    simp [State.isOutOfPatience]
    omega
  have hpast : s.isPastLoWatermark cfg t ((s.retired t).length + 1) = true := by
    rw [State.isPastLoWatermark_iff, hnum, Nat.zero_mod]
    exact ⟨by omega, rfl⟩
  have hR₁ := reach_plain hok hR (.retireEnterLoWm s t o 0 (hq.runs t) (hq.pc t) ho hout hpast
    hfirst) (hq.pc t) rfl
  obtain ⟨a, hR₂⟩ := reach_entered hok (s := { s.pushBack t o with
      firstLoEntryFlag := update s.firstLoEntryFlag t false
      loPathReclaimAttemptFreq := update s.loPathReclaimAttemptFreq t (attemptFreq 0)
      savedPubs := update s.savedPubs t s.pubs }) hR₁ (hq.runs t) hq.announcedTS hq.savedTS
  refine ⟨_, hR₂, rfl, rfl, rfl, rfl, rfl, rfl, update_self .., ?_, rfl, rfl, rfl, rfl,
    fun _ _ => rfl⟩
  simp [State.pushBack]

end Retires

end HazardPtrPop
end PopSetbench

import PopSetbench.Reclaim.EpochPopBase

/-!
# EpochPOP: pieces of a schedule

The schedules that show where EpochPOP frees too early, and those that show that it frees at
all, share most of their steps. They run on objects that are numbers and one shared location,
and are put together from the pieces of this file.

* `reach_pushed`, `Quiet.retires` — a thread retires objects while nobody signals.
* `reach_epochs` — out of patience, `rcu_empty` frees nothing while some thread has reserved
  epoch 0.
* `reach_signalled` — the ping round up to the confirmation loop.
* `reach_forced` — these pieces in one, with a thread that is inside an operation.
* `reach_compared`, `reach_swept` — `hp_empty` compares an object with the slots, and frees those
  that are in none.
-/

namespace PopSetbench
namespace EpochPop

open Function

variable {n : ℕ} {cfg : Config} {s : State n ℕ Unit} {t : Fin n}

/-! ### Steps on which the condition has no bearing -/

/-- The points at which the condition has no bearing, wherever the loops are. -/
def Pc.compares : Pc ℕ Unit → Bool
  | .confirm _ => true
  | .check _ => true
  | _ => false

/-- The step is not one of a handler or in the confirmation loop, and misses at the low
watermark. -/
def Plain (s : State n ℕ Unit) : Actor n → Prop
  | .thread t => (∀ i, s.pc t ≠ .confirm i) ∧
      ∀ i : Fin n, s.pc t = .check i.val → ¬ s.savedTS t i + 2 ≤ s.announcedTS i
  | .handler _ => False
  | .env => True

theorem Plain.env (s : State n ℕ Unit) : Plain s .env := trivial

theorem Plain.thread {p : Pc ℕ Unit} (hpc : s.pc t = p) (hp : p.compares = false) :
    Plain s (.thread t) := by
  simp only [Plain, hpc]
  refine ⟨fun i => ?_, fun i => ?_⟩ <;> rintro rfl <;> cases hp

theorem Plain.miss {i : Fin n} (hpc : s.pc t = .check i.val)
    (hlt : ¬ s.savedTS t i + 2 ≤ s.announcedTS i) : Plain s (.thread t) := by
  simp only [Plain, hpc]
  refine ⟨nofun, fun j hij => ?_⟩
  obtain rfl : i = j := Fin.ext (Pc.check.inj hij)
  exact hlt

theorem Plain.checkEnd (hpc : s.pc t = .check n) : Plain s (.thread t) := by
  simp only [Plain, hpc]
  exact ⟨nofun, fun i hi => absurd (Pc.check.inj hi) (Nat.ne_of_gt i.isLt)⟩

/-! ### States -/

theorem State.goto_goto {Obj Loc : Type} (s : State n Obj Loc) (t : Fin n) (p q : Pc Obj Loc) :
    (s.goto t p).goto t q = s.goto t q := by
  simp [State.goto]

theorem State.goto_pc {Obj Loc : Type} (s : State n Obj Loc) (t : Fin n) (p : Pc Obj Loc) :
    (s.goto t p).pc t = p :=
  update_self ..

/-- Copying an empty slot over an empty one changes nothing. -/
theorem State.copySlot_none {Obj Loc : Type} {s : State n Obj Loc} {t : Fin n}
    {e : Fin slotsPerThread} (hs : s.slots t e = none) (hl : s.localSlots t e = none) :
    s.copySlot t e = s := by
  have hinner : update (s.slots t) e (s.localSlots t e) = s.slots t := by
    rw [hl, ← hs, update_eq_self]
  simp [State.copySlot, hinner]

/-- The state after the handler of a thread that holds nothing. -/
def State.handled (s : State n ℕ Unit) (t : Fin n) : State n ℕ Unit :=
  { s with
    pinged := update s.pinged t false
    mypublishingTS := update s.mypublishingTS t (s.mypublishingTS t + 1)
    pubs := update s.pubs t (s.pubs t + 1) }

/-- The state after an object has been allocated, linked and unlinked. -/
def State.unlinked (s : State n ℕ Unit) (o : ℕ) : State n ℕ Unit :=
  { s with life := update s.life o .unlinked }

/-- Every thread is between two calls of the reclaimer, nothing is published and nobody has
signalled. -/
structure Quiet (s : State n ℕ Unit) : Prop where
  pc : ∀ u, s.pc u = .idle
  runs : ∀ u, s.Runs u
  announcedTS : ∀ u, s.announcedTS u = 0
  savedTS : ∀ u i, s.savedTS u i = 0
  slots : ∀ u e, s.slots u e = none

/-- Unlinking an object disturbs nobody. -/
theorem Quiet.unlinked (hq : Quiet s) (o : ℕ) : Quiet (s.unlinked o) :=
  ⟨hq.pc, hq.runs, hq.announcedTS, hq.savedTS, hq.slots⟩

/-- Thread `t` has retired the objects of `l`; no reservation has changed. -/
structure Retired (s s' : State n ℕ Unit) (t : Fin n) (l : List ℕ) : Prop where
  objs : (s'.retired t).map RCUInfo.obj = (s.retired t).map RCUInfo.obj ++ l
  life : ∀ o, s'.life o = if o ∈ l then .retired else s.life o
  reservations : s'.reservations = s.reservations
  localSlots : s'.localSlots = s.localSlots
  valid : s'.valid = s.valid

theorem Retired.length {s' : State n ℕ Unit} {l : List ℕ} (h : Retired s s' t l) :
    (s'.retired t).length = (s.retired t).length + l.length := by
  simpa using congrArg List.length h.objs

section Pieces

variable {ok : State n ℕ Unit → Actor n → Prop}

/-- A thread that only moves through a loop. -/
private theorem loop {P : State n ℕ Unit → Prop} {f : ℕ → Pc ℕ Unit} {k : ℕ}
    (hbody : ∀ i < k, P (s.goto t (f i)) → P (s.goto t (f (i + 1))))
    (h : P (s.goto t (f 0))) : P (s.goto t (f k)) := by
  induction k with
  | zero => exact h
  | succ k ih =>
    exact hbody k (Nat.lt_succ_self k) (ih fun i hi => hbody i (Nat.lt_succ_of_lt hi))

variable (hok : ∀ s a, Plain s a → ok s a)

include hok

theorem reach_plain {s' : State n ℕ Unit} {p : Pc ℕ Unit}
    (hR : (system cfg).ReachableBy ok s) (hstep : Step cfg s (.thread t) s')
    (hpc : s.pc t = p) (hp : p.compares = false) : (system cfg).ReachableBy ok s' :=
  hR.step hstep (hok _ _ (.thread hpc hp))

/-! ### Retiring while nobody signals -/

/-- The low watermark sees nobody signal. -/
theorem reach_missed (hR : (system cfg).ReachableBy ok (s.goto t (.check 0))) (hr : s.Runs t)
    (hmiss : ∀ i, ¬ s.savedTS t i + 2 ≤ s.announcedTS i) :
    (system cfg).ReachableBy ok (s.goto t .afterLoWm) := by
  have hend : (system cfg).ReachableBy ok (s.goto t (.check n)) := by
    refine loop (f := Pc.check) (fun i hi h => ?_) hR
    have hstep : Step cfg _ _ _ := .checkMiss (s.goto t (.check i)) t ⟨i, hi⟩ hr (update_self ..)
      (hmiss _)
    rw [State.goto_goto] at hstep
    exact h.step hstep (hok _ _ (.miss (i := ⟨i, hi⟩) (update_self ..) (hmiss ⟨i, hi⟩)))
  have hstep : Step cfg _ _ _ := .checkEnd (s.goto t (.check n)) t hr (update_self ..)
  rw [State.goto_goto] at hstep
  exact hend.step hstep (hok _ _ (.checkEnd (update_self ..)))

/-- Entering the low watermark while nobody has signalled. -/
theorem reach_entered (hR : (system cfg).ReachableBy ok (s.goto t (.saveTS 0))) (hr : s.Runs t)
    (ha : ∀ i, s.announcedTS i = 0) (hs : ∀ u i, s.savedTS u i = 0) :
    ∃ a b, (system cfg).ReachableBy ok (State.goto
      { s with savedAnn := a, retireBagSizeWhenEnteredLoWm := b } t (.check 0)) := by
  have hloop : ∀ k ≤ n, ∃ a,
      (system cfg).ReachableBy ok (State.goto { s with savedAnn := a } t (.saveTS k)) := by
    intro k hk
    induction k with
    | zero => exact ⟨s.savedAnn, hR⟩
    | succ k ih =>
      obtain ⟨a, h⟩ := ih (Nat.le_of_succ_le hk)
      have hstep : Step cfg _ _ _ :=
        .saveTS (State.goto { s with savedAnn := a } t (.saveTS k)) t ⟨k, hk⟩ hr (update_self ..)
      -- the saved stamps are zero and stay zero
      have hsaved : update s.savedTS t (update (s.savedTS t) ⟨k, hk⟩ (s.announcedTS ⟨k, hk⟩)) =
          s.savedTS := by
        rw [ha, ← hs t ⟨k, hk⟩, update_eq_self, update_eq_self]
      refine ⟨update a t (update (a t) ⟨k, hk⟩ (s.ann ⟨k, hk⟩)), ?_⟩
      have hnext := reach_plain hok h hstep (update_self ..) rfl
      simpa only [State.goto, hsaved, update_idem] using hnext
  obtain ⟨a, h⟩ := hloop n le_rfl
  have hstep : Step cfg _ _ _ :=
    .saveTSEnd (State.goto { s with savedAnn := a } t (.saveTS n)) t hr (update_self ..)
  have hnext := reach_plain hok h hstep (update_self ..) rfl
  exact ⟨a, _, by simpa only [State.goto, update_idem] using hnext⟩

/-- A call of `retire` on `o`, up to the comparison with `empty_freq`. -/
theorem reach_pushed (hq : Quiet s) (hR : (system cfg).ReachableBy ok s) {o : ℕ}
    (ho : s.life o = .unlinked) :
    ∃ s', (system cfg).ReachableBy ok (s'.goto t .afterLoWm) ∧ Quiet s' ∧ Retired s s' t [o] := by
  have hlife : ∀ b, update s.life o .retired b =
      if b ∈ [o] then .retired else s.life b := by
    intro b
    by_cases hb : b = o <;> simp [hb, update_of_ne]
  have hmiss : ∀ i, ¬ s.savedTS t i + 2 ≤ s.announcedTS i := by
    intro i
    rw [hq.savedTS, hq.announcedTS]
    decide
  have hobjs : ((s.pushBack t o).retired t).map RCUInfo.obj =
      (s.retired t).map RCUInfo.obj ++ [o] := by
    simp [State.pushBack]
  by_cases hpast : s.isPastLoWatermark cfg t ((s.retired t).length + 1) = true
  · by_cases hfirst : s.firstLoEntryFlag t = true
    · have hR₁ := reach_plain hok hR (.retireEnterLoWm s t o 0 (hq.runs t) (hq.pc t) ho hpast hfirst)
        (hq.pc t) rfl
      obtain ⟨a, b, hR₂⟩ := reach_entered hok (s := { s.pushBack t o with
          firstLoEntryFlag := update s.firstLoEntryFlag t false
          loPathReclaimAttemptFreq := update s.loPathReclaimAttemptFreq t (attemptFreq 0)
          savedPubs := update s.savedPubs t s.pubs }) hR₁ (hq.runs t) hq.announcedTS hq.savedTS
      exact ⟨_, reach_missed hok hR₂ (hq.runs t) hmiss,
        ⟨hq.pc, hq.runs, hq.announcedTS, hq.savedTS, hq.slots⟩, hobjs, hlife, rfl, rfl, rfl⟩
    · have hR₁ := reach_plain hok hR (.retireLoWm s t o (hq.runs t) (hq.pc t) ho hpast
        (by simpa using hfirst)) (hq.pc t) rfl
      exact ⟨_, reach_missed hok hR₁ (hq.runs t) hmiss,
        ⟨hq.pc, hq.runs, hq.announcedTS, hq.savedTS, hq.slots⟩, hobjs, hlife, rfl, rfl, rfl⟩
  · have hR₁ := reach_plain hok hR (.retire s t o (hq.runs t) (hq.pc t) ho
      (Bool.eq_false_of_not_eq_true hpast)) (hq.pc t) rfl
    exact ⟨s.pushBack t o, hR₁, ⟨hq.pc, hq.runs, hq.announcedTS, hq.savedTS, hq.slots⟩,
      hobjs, hlife, rfl, rfl, rfl⟩

/-- A thread retires one more object and goes away empty-handed. -/
theorem Quiet.retire (hq : Quiet s) (hR : (system cfg).ReachableBy ok s) {o : ℕ}
    (ho : s.life o = .unlinked) (hlen : (s.retired t).length + 1 < cfg.emptyFreq) :
    ∃ s', (system cfg).ReachableBy ok s' ∧ Quiet s' ∧ Retired s s' t [o] := by
  obtain ⟨s₁, hR₁, hq₁, h₁⟩ := reach_pushed hok (t := t) hq hR ho
  have hlen₁ : (s₁.retired t).length = (s.retired t).length + 1 := h₁.length
  have hstep : Step cfg _ _ _ := .retireReturn (s₁.goto t .afterLoWm) t (hq₁.runs t)
    (State.goto_pc ..) (by
      show ¬ cfg.emptyFreq ≤ (s₁.retired t).length
      omega)
  refine ⟨_, reach_plain hok hR₁ hstep (State.goto_pc ..) rfl, ?_, h₁.objs, h₁.life,
    h₁.reservations, h₁.localSlots, h₁.valid⟩
  refine ⟨fun u => ?_, hq₁.runs, hq₁.announcedTS, hq₁.savedTS, hq₁.slots⟩
  by_cases hu : u = t
  · subst hu
    exact update_self ..
  · exact ((update_of_ne hu ..).trans (update_of_ne hu ..)).trans (hq₁.pc u)

/-- An object is allocated, linked and unlinked. -/
theorem reach_unlinked (hR : (system cfg).ReachableBy ok s) {o : ℕ} (ho : s.life o = .pooled) :
    (system cfg).ReachableBy ok (s.unlinked o) := by
  have hlink : Step cfg _ _ _ := .link s o ho
  have hR' := hR.step hlink (hok _ _ (.env _))
  have hunlink : Step cfg _ _ _ := .unlink { s with life := update s.life o .linked } o
    (update_self ..)
  simpa only [State.unlinked, update_idem] using hR'.step hunlink (hok _ _ (.env _))

/-- A thread retires `k` fresh objects and goes away empty-handed. -/
theorem Quiet.retires (hq : Quiet s) (hR : (system cfg).ReachableBy ok s) {c : ℕ}
    (hfresh : ∀ o, c ≤ o → s.life o = .pooled) (k : ℕ)
    (hlen : (s.retired t).length + k < cfg.emptyFreq) :
    ∃ s', (system cfg).ReachableBy ok s' ∧ Quiet s' ∧ Retired s s' t (List.range' c k) := by
  induction k with
  | zero => exact ⟨s, hR, hq, by simp, by simp, rfl, rfl, rfl⟩
  | succ k ih =>
    obtain ⟨s₁, hR₁, hq₁, h₁⟩ := ih (by omega)
    have ho : s₁.life (c + k) = .pooled := by
      rw [h₁.life, if_neg (by simp)]
      exact hfresh _ (Nat.le_add_right ..)
    have hlen₁ : ((s₁.unlinked (c + k)).retired t).length = (s.retired t).length + k := by
      exact h₁.length.trans (by rw [List.length_range'])
    obtain ⟨s₂, hR₂, hq₂, h₂⟩ := (hq₁.unlinked (c + k)).retire hok (t := t)
      (reach_unlinked hok hR₁ ho) (update_self ..) (by omega)
    refine ⟨s₂, hR₂, hq₂, ?_, fun b => ?_, h₂.reservations.trans h₁.reservations,
      h₂.localSlots.trans h₁.localSlots, h₂.valid.trans h₁.valid⟩
    · rw [h₂.objs, List.range'_concat, ← List.append_assoc, ← h₁.objs]
      simp [State.unlinked]
    · rw [h₂.life, List.range'_concat]
      by_cases hb : b = c + k
      · simp [hb]
      · simpa [hb, State.unlinked, update_of_ne] using h₁.life b

/-! ### A thread inside an operation -/

/-- Thread `u` has started an operation in epoch 0. -/
theorem reach_started (cfg : Config) (u : Fin n) :
    ∃ s, (system cfg).ReachableBy ok s ∧ Quiet s ∧ s.reservations u = (0 : ℕ) ∧ s.active u = true ∧
      (∀ o, s.life o = .pooled) ∧ (∀ t, s.retired t = []) ∧ (∀ t e, s.localSlots t e = none) := by
  have hR₀ : (system cfg).ReachableBy ok (State.initial n ℕ Unit) := .init rfl
  have hR₁ := reach_plain hok hR₀ (.callStartOp _ u ⟨rfl, rfl⟩ rfl rfl) rfl rfl
  have hR₂ := reach_plain hok hR₁ (.startOp _ u 0 ⟨rfl, rfl⟩ (State.goto_pc ..))
    (State.goto_pc ..) rfl
  refine ⟨_, hR₂, ⟨fun t => ?_, fun _ => ⟨rfl, rfl⟩, fun _ => rfl, fun _ _ => rfl,
    fun _ _ => rfl⟩, update_self .., update_self .., fun _ => rfl, fun _ => rfl, fun _ _ => rfl⟩
  by_cases ht : t = u <;> simp [State.goto, State.initial, ht]

/-- A thread inside an operation reads object `0`, which is unlinked afterwards. -/
theorem Quiet.held (hq : Quiet s) (hR : (system cfg).ReachableBy ok s) {u : Fin n}
    (hact : s.active u = true) (hfresh : ∀ o, s.life o = .pooled) :
    ∃ s', (system cfg).ReachableBy ok s' ∧ Quiet s' ∧ s'.reservations = s.reservations ∧
      s'.retired = s.retired ∧ s'.life 0 = .unlinked ∧ (∀ o, 1 ≤ o → s'.life o = .pooled) ∧
      Holds s' u 0 0 ∧ ∀ t e, t ≠ u ∨ e ≠ 0 → s'.localSlots t e = s.localSlots t e := by
  have hR₁ := hR.step (.link _ 0 (hfresh 0)) (hok _ _ (.env _))
  have hR₂ := hR₁.step (.write _ () ⟨some 0, 0⟩) (hok _ _ (.env _))
  have hR₃ := reach_plain hok hR₂ (.callRead _ u 0 () (hq.runs u) (hq.pc u) hact) (hq.pc u) rfl
  have hR₄ := reach_plain hok hR₃ (.readLoad _ u 0 () (hq.runs u) (State.goto_pc ..))
    (State.goto_pc ..) rfl
  have hR₅ := reach_plain hok hR₄ (.readReserve _ u 0 () _ (hq.runs u) (State.goto_pc ..))
    (State.goto_pc ..) rfl
  have hR₆ := reach_plain hok hR₅ (.readReturn _ u 0 () _ (hq.runs u) (State.goto_pc ..) rfl)
    (State.goto_pc ..) rfl
  have hR₇ := hR₆.step (.unlink _ 0 rfl) (hok _ _ (.env _))
  refine ⟨_, hR₇, ⟨fun t => ?_, hq.runs, hq.announcedTS, hq.savedTS, hq.slots⟩, rfl, rfl,
    rfl, fun o ho => ?_, ⟨?_, ?_⟩, fun t e hte => ?_⟩
  · by_cases ht : t = u
    · subst ht
      exact State.goto_pc ..
    · simp [State.goto, State.setSlot, ht, hq.pc t]
  · have hne : o ≠ 0 := Nat.ne_of_gt ho
    simp [State.goto, State.setSlot, hne, hfresh]
  · simp [State.goto, State.setSlot]
  · simp [State.goto, State.setSlot]
  · by_cases ht : t = u
    · subst ht
      simp [State.goto, State.setSlot, hte.resolve_left (· rfl)]
    · simp [State.goto, State.setSlot, ht]

/-! ### Out of patience -/

/-- `rcu_empty` frees nothing while some thread has reserved epoch 0. -/
theorem reach_kept (hR : (system cfg).ReachableBy ok (s.goto t .afterLoWm)) (hr : s.Runs t)
    {u : Fin n} (hu : s.reservations u = (0 : ℕ)) (hlen : cfg.emptyFreq ≤ (s.retired t).length) :
    ∃ m, (system cfg).ReachableBy ok (s.goto t (.rcuScan (s.retired t).length m)) := by
  have hcall : Step cfg _ _ _ := .callRcuEmpty (s.goto t .afterLoWm) t hr (State.goto_pc ..) hlen
  rw [State.goto_goto] at hcall
  have hR₁ := reach_plain hok hR hcall (State.goto_pc ..) rfl
  -- the least reservation is at most that of `u`
  have hmin : ∀ k ≤ n, ∃ m, (system cfg).ReachableBy ok (s.goto t (.minEpoch k m)) ∧
      ∀ i : Fin n, i.val < k → m ≤ s.reservations i := by
    intro k hk
    induction k with
    | zero => exact ⟨⊤, hR₁, fun i hi => absurd hi (Nat.not_lt_zero _)⟩
    | succ k ih =>
      obtain ⟨m, h, hm⟩ := ih (Nat.le_of_succ_le hk)
      have hstep : Step cfg _ _ _ :=
        .minEpoch (s.goto t (.minEpoch k m)) t ⟨k, hk⟩ m hr (State.goto_pc ..)
      rw [State.goto_goto] at hstep
      refine ⟨_, reach_plain hok h hstep (State.goto_pc ..) rfl, fun i hi => ?_⟩
      rcases Nat.lt_succ_iff_lt_or_eq.mp hi with hlt | heq
      · exact (min_le_left ..).trans (hm i hlt)
      · obtain rfl : i = ⟨k, hk⟩ := Fin.ext heq
        exact min_le_right ..
  obtain ⟨m, h, hm⟩ := hmin n le_rfl
  have hzero : m ≤ (0 : ℕ) := hu ▸ hm u u.isLt
  have hend : Step cfg _ _ _ := .minEpochEnd (s.goto t (.minEpoch n m)) t m hr (State.goto_pc ..)
  rw [State.goto_goto] at hend
  have hR₂ := reach_plain hok h hend (State.goto_pc ..) rfl
  refine ⟨m, loop (f := fun pos => .rcuScan pos m) (fun pos hpos h => ?_) hR₂⟩
  have hge : ¬ (((s.retired t)[pos].epoch : ℕ) : WithTop ℕ) < m :=
    not_lt_of_ge (hzero.trans (WithTop.coe_le_coe.mpr (Nat.zero_le _)))
  have hstep : Step cfg _ _ _ := .rcuKeep (s.goto t (.rcuScan pos m)) t pos m _ hr
    (State.goto_pc ..) (List.getElem?_eq_getElem hpos) hge
  rw [State.goto_goto] at hstep
  exact reach_plain hok h hstep (State.goto_pc ..) rfl

/-- What is left is too much. -/
theorem reach_epochs (hR : (system cfg).ReachableBy ok (s.goto t .afterLoWm)) (hr : s.Runs t)
    {u : Fin n} (hu : s.reservations u = (0 : ℕ)) (hlen : cfg.emptyFreq ≤ (s.retired t).length)
    (hforce : cfg.forceThreshold ≤ (s.retired t).length) :
    (system cfg).ReachableBy ok (s.goto t (.sample 0)) := by
  obtain ⟨m, hscan⟩ := reach_kept hok hR hr hu hlen
  have hstep : Step cfg _ _ _ := .rcuForce (s.goto t (.rcuScan (s.retired t).length m)) t _ m hr
    (State.goto_pc ..) le_rfl hforce
  rw [State.goto_goto] at hstep
  exact reach_plain hok hscan hstep (State.goto_pc ..) rfl

/-- Sampling the counters of everybody. -/
theorem reach_sampled (hR : (system cfg).ReachableBy ok (s.goto t (.sample 0))) (hr : s.Runs t) :
    ∃ x y, (system cfg).ReachableBy ok
        (State.goto { s with myscannedTS := x, scannedPubs := y } t .announceStart) ∧
      ∀ i, x t i = s.mypublishingTS i := by
  have hloop : ∀ k ≤ n, ∃ x y, (system cfg).ReachableBy ok
        (State.goto { s with myscannedTS := x, scannedPubs := y } t (.sample k)) ∧
      ∀ i : Fin n, i.val < k → x t i = s.mypublishingTS i := by
    intro k hk
    induction k with
    | zero => exact ⟨s.myscannedTS, s.scannedPubs, hR, fun i hi => absurd hi (Nat.not_lt_zero _)⟩
    | succ k ih =>
      obtain ⟨x, y, h, hx⟩ := ih (Nat.le_of_succ_le hk)
      have hstep : Step cfg _ _ _ :=
        .sample (State.goto { s with myscannedTS := x, scannedPubs := y } t (.sample k)) t ⟨k, hk⟩
          hr (State.goto_pc ..)
      have hnext := reach_plain hok h hstep (State.goto_pc ..) rfl
      refine ⟨update x t (update (x t) ⟨k, hk⟩ (s.mypublishingTS ⟨k, hk⟩)),
        update y t (update (y t) ⟨k, hk⟩ (s.pubs ⟨k, hk⟩)),
        by simpa only [State.goto, update_idem] using hnext, fun i hi => ?_⟩
      rw [update_self]
      by_cases hik : i = ⟨k, hk⟩
      · subst hik
        rw [update_self]
      · have hne : i.val ≠ k := fun hv => hik (Fin.ext hv)
        rw [update_of_ne hik]
        exact hx i (by omega)
  obtain ⟨x, y, h, hx⟩ := hloop n le_rfl
  have hstep : Step cfg _ _ _ :=
    .sampleEnd (State.goto { s with myscannedTS := x, scannedPubs := y } t (.sample n)) t hr
      (State.goto_pc ..)
  rw [State.goto_goto] at hstep
  exact ⟨x, y, reach_plain hok h hstep (State.goto_pc ..) rfl, fun i => hx i i.isLt⟩

/-- Pinging everybody else. -/
theorem reach_pinged (hR : (system cfg).ReachableBy ok (s.goto t (.ping 0))) (hr : s.Runs t) :
    ∃ z, (system cfg).ReachableBy ok (State.goto { s with pinged := z } t (.ping n)) ∧
      z t = false ∧ ∀ i, i ≠ t → z i = true := by
  have hloop : ∀ k ≤ n, ∃ z,
      (system cfg).ReachableBy ok (State.goto { s with pinged := z } t (.ping k)) ∧
        z t = false ∧ ∀ i : Fin n, i.val < k → i ≠ t → z i = true := by
    intro k hk
    induction k with
    | zero => exact ⟨s.pinged, hR, hr.1, fun i hi => absurd hi (Nat.not_lt_zero _)⟩
    | succ k ih =>
      obtain ⟨z, h, hz, hall⟩ := ih (Nat.le_of_succ_le hk)
      have hr' : (State.goto { s with pinged := z } t (.ping k)).Runs t := ⟨hz, hr.2⟩
      have hbelow : ∀ i : Fin n, i.val < k + 1 → i.val ≠ k → i ≠ t → z i = true :=
        fun i hi hik hit => hall i (by omega) hit
      by_cases hkt : (⟨k, hk⟩ : Fin n) = t
      · have hstep : Step cfg _ _ _ :=
          .pingSelf (State.goto { s with pinged := z } t (.ping k)) t hr'
            (by rw [← hkt]; exact update_self ..)
        rw [State.goto_goto, show t.val = k from (congrArg Fin.val hkt).symm] at hstep
        refine ⟨z, reach_plain hok h hstep (State.goto_pc ..) rfl, hz, fun i hi hit => ?_⟩
        exact hbelow i hi (fun hik => hit ((Fin.ext hik : i = ⟨k, hk⟩).trans hkt)) hit
      · have hstep : Step cfg _ _ _ :=
          .ping (State.goto { s with pinged := z } t (.ping k)) t ⟨k, hk⟩ hr' (State.goto_pc ..)
            (Ne.symm hkt)
        have hnext := reach_plain hok h hstep (State.goto_pc ..) rfl
        refine ⟨update z ⟨k, hk⟩ true, by simpa only [State.goto, update_idem] using hnext,
          ?_, fun i hi hit => ?_⟩
        · rw [update_of_ne (Ne.symm hkt)]
          exact hz
        · by_cases hik : i = ⟨k, hk⟩
          · subst hik
            exact update_self ..
          · rw [update_of_ne hik]
            exact hbelow i hi (fun hv => hik (Fin.ext hv)) hit
  obtain ⟨z, h, hz, hall⟩ := hloop n le_rfl
  exact ⟨z, h, hz, fun i => hall i i.isLt⟩

/-- `s'` is `s` after thread `t` has sampled all counters and pinged everybody. -/
structure Round (s s' : State n ℕ Unit) (t : Fin n) : Prop where
  retired : s'.retired = s.retired
  localSlots : s'.localSlots = s.localSlots
  valid : s'.valid = s.valid
  slots : s'.slots = s.slots
  mypublishingTS : s'.mypublishingTS = s.mypublishingTS
  myscannedTS : ∀ i, s'.myscannedTS t i = s.mypublishingTS i
  pinged_self : s'.pinged t = false
  pinged : ∀ u, u ≠ t → s'.pinged u = true
  handler : s'.handler = s.handler

/-- A signalling round, up to the confirmation loop. -/
theorem reach_signalled (hR : (system cfg).ReachableBy ok (s.goto t (.sample 0)))
    (hr : s.Runs t) :
    ∃ s', (system cfg).ReachableBy ok (s'.goto t (.confirm 0)) ∧ Round s s' t := by
  obtain ⟨x, y, hR₁, hx⟩ := reach_sampled hok hR hr
  have hstart : Step cfg _ _ _ := .announceStart (State.goto
    { s with myscannedTS := x, scannedPubs := y } t .announceStart) t hr (State.goto_pc ..)
  have hR₂ := reach_plain hok hR₁ hstart (State.goto_pc ..) rfl
  obtain ⟨z, hR₃, hz, hall⟩ := reach_pinged hok hR₂ hr
  have hR₄ := reach_plain hok hR₃ (.pingEnd _ t ⟨hz, hr.2⟩ (State.goto_pc ..)) (State.goto_pc ..)
    rfl
  rw [State.goto_goto] at hR₄
  exact ⟨_, hR₄, rfl, rfl, rfl, rfl, rfl, hx, hz, hall, rfl⟩

omit hok in
/-- The handler of a pinged thread that holds nothing. -/
theorem reach_handled (hok : ∀ s, ok s (.handler t)) (hR : (system cfg).ReachableBy ok s)
    (hp : s.pinged t = true)
    (hh : s.handler t = none) (hs : ∀ e, s.slots t e = none) (hl : ∀ e, s.localSlots t e = none) :
    (system cfg).ReachableBy ok (s.handled t) := by
  have henter : Step cfg _ _ _ := .handlerEnter s t hp hh
  have hR₁ := hR.step henter (hok _)
  have hloop : ∀ k ≤ slotsPerThread, (system cfg).ReachableBy ok { s with
      pinged := update s.pinged t false
      handler := update s.handler t (some k) } := by
    intro k hk
    induction k with
    | zero => exact hR₁
    | succ k ih =>
      let x : State n ℕ Unit := { s with
        pinged := update s.pinged t false
        handler := update s.handler t (some k) }
      have hstep : Step cfg x _ _ := .handlerPublish x t ⟨k, hk⟩ (update_self ..)
      have hnext := (ih (Nat.le_of_succ_le hk)).step hstep (hok _)
      have hcopy : x.copySlot t ⟨k, hk⟩ = x := State.copySlot_none (hs _) (hl _)
      rw [hcopy] at hnext
      simpa only [x, update_idem] using hnext
  have hR₂ := (hloop slotsPerThread le_rfl).step (.handlerReturn _ t (update_self ..))
    (hok _)
  have hhandler : update s.handler t none = s.handler := by
    rw [← hh, update_eq_self]
  simpa only [State.handled, State.countPublish, update_idem, hhandler] using hR₂

omit hok in
/-- The confirmation loop, whatever it finds, and the beginning of `hp_empty`. -/
theorem reach_confirmed (hR : (system cfg).ReachableBy ok (s.goto t (.confirm 0))) (hr : s.Runs t)
    (hconf : ∀ i, ok (s.goto t (.confirm i)) (.thread t)) :
    (system cfg).ReachableBy ok ((s.announce t).goto t (.hpScan .hp 0 0 0)) := by
  have hend : (system cfg).ReachableBy ok (s.goto t (.confirm n)) := by
    refine loop (f := Pc.confirm) (fun i hi h => ?_) hR
    have hstep : Step cfg _ _ _ := .confirm (s.goto t (.confirm i)) t ⟨i, hi⟩ hr (State.goto_pc ..)
    rw [State.goto_goto] at hstep
    exact h.step hstep (hconf i)
  have hstep : Step cfg _ _ _ := .announceDone (s.goto t (.confirm n)) t hr (State.goto_pc ..)
  have heq : ((s.goto t (.confirm n)).announce t).goto t (.hpScan .hp 0 0 0) =
      (s.announce t).goto t (.hpScan .hp 0 0 0) :=
    (s.announce t).goto_goto t _ _
  rw [heq] at hstep
  exact hend.step hstep (hconf n)

section Scan

variable {pos indx : ℕ} {res : RCUInfo ℕ}

omit hok in
theorem not_hpScanStops (hget : (s.retired t)[pos]? = some res) :
    ¬ s.hpScanStops t .hp pos indx := by
  rintro (hlen | ⟨hp, -⟩)
  · rw [List.getElem?_eq_none hlen] at hget
    cases hget
  · cases hp

/-- `hp_empty` compares an object with `k` of the slots, none of which shows it. -/
theorem reach_compared (hR : (system cfg).ReachableBy ok (s.goto t (.hpScan .hp pos indx 0)))
    (hr : s.Runs t) (hget : (s.retired t)[pos]? = some res) {k : ℕ} (hk : k ≤ n * slotsPerThread)
    (hs : ∀ u (e : Fin slotsPerThread), u.val * slotsPerThread + e.val < k →
      s.slots u e ≠ some res.obj) :
    (system cfg).ReachableBy ok (s.goto t (.hpScan .hp pos indx k)) := by
  refine loop (f := .hpScan .hp pos indx) (fun m hm h => ?_) hR
  obtain ⟨u, e, rfl⟩ := exists_row (hm.trans_le hk)
  have hstep : Step cfg _ _ _ :=
    .hpNext (s.goto t (.hpScan .hp pos indx (u.val * slotsPerThread + e.val))) t u e .hp pos indx
      res hr (State.goto_pc ..) (not_hpScanStops hget) hget (hs u e hm)
  rw [State.goto_goto] at hstep
  exact reach_plain hok h hstep (State.goto_pc ..) rfl

/-- `hp_empty` frees the objects that are in no slot, to the end of the list. -/
theorem reach_swept {l₀ l : List (RCUInfo ℕ)}
    (hR : (system cfg).ReachableBy ok (s.goto t (.hpScan .hp l₀.length indx 0))) (hr : s.Runs t)
    (hlist : s.retired t = l₀ ++ l) (hs : ∀ res ∈ l, ∀ u e, s.slots u e ≠ some res.obj) :
    ∃ (s' : State n ℕ Unit) (indx' : ℕ),
      (system cfg).ReachableBy ok (s'.goto t (.hpScan .hp l₀.length indx' 0)) ∧
      s'.Runs t ∧ s'.retired t = l₀ ∧ s'.slots = s.slots := by
  induction l generalizing s indx with
  | nil => exact ⟨s, indx, hR, hr, hlist.trans (List.append_nil l₀), rfl⟩
  | cons res l ih =>
    have hget : (s.retired t)[l₀.length]? = some res := by simp [hlist]
    obtain ⟨hres, hl⟩ := List.forall_mem_cons.mp hs
    have hR₁ := reach_compared hok hR hr hget le_rfl fun u e _ => hres u e
    have hfree : Step cfg _ _ _ := .hpFree (s.goto t (.hpScan .hp l₀.length indx
      (n * slotsPerThread))) t .hp l₀.length indx res hr (State.goto_pc ..)
      (not_hpScanStops hget) hget
    have hR₂ := reach_plain hok hR₁ hfree (State.goto_pc ..) rfl
    have heq : ((s.goto t (.hpScan .hp l₀.length indx (n * slotsPerThread))).passToPool t
        l₀.length res.obj).goto t (.hpScan .hp l₀.length (indx + 1) 0) =
        (s.passToPool t l₀.length res.obj).goto t (.hpScan .hp l₀.length (indx + 1) 0) :=
      State.goto_goto (s.passToPool t l₀.length res.obj) t _ _
    rw [heq] at hR₂
    refine ih (s := s.passToPool t l₀.length res.obj) hR₂ hr ?_ hl
    show update s.retired t ((s.retired t).eraseIdx l₀.length) t = l₀ ++ l
    rw [update_self, hlist, List.eraseIdx_append_of_length_le le_rfl, Nat.sub_self]
    rfl

end Scan

end Pieces

/-! ### A thread that is inside an operation -/

section Forced

variable {ok : State 2 ℕ Unit → Actor 2 → Prop} (hok : ∀ s a, Plain s a → ok s a)

include hok

/-- Thread `1` is inside an operation begun in epoch 0 when thread `0`, whose list begins with
object `0` and is one short of `empty_freq`, calls `retire` once more: it frees nothing by
epochs and signals thread `1`. -/
theorem reach_forced {s : State 2 ℕ Unit} (hR : (system cfg).ReachableBy ok s)
    (hq : Quiet s) (hres : s.reservations 1 = (0 : ℕ)) (ho : s.life 0 = .unlinked)
    (hfresh : ∀ o, 1 ≤ o → s.life o = .pooled) (hempty : s.retired 0 = [])
    (hcap : 2 ≤ cfg.emptyFreq) (hforce : cfg.forceThreshold ≤ cfg.emptyFreq) :
    ∃ s' : State 2 ℕ Unit, (system cfg).ReachableBy ok (s'.goto 0 (.confirm 0)) ∧
      (s'.retired 0).map RCUInfo.obj = 0 :: (List.range' 1 (cfg.emptyFreq - 2) ++ [cfg.emptyFreq]) ∧
      s'.localSlots = s.localSlots ∧
      s'.valid = s.valid ∧ (∀ u e, s'.slots u e = none) ∧ s'.Runs 0 ∧ s'.pinged 1 = true ∧
      s'.handler 1 = none ∧ s'.myscannedTS 0 1 = s'.mypublishingTS 1 := by
  -- the first object is the one that thread `1` may hold
  obtain ⟨s₁, hR₁, hq₁, h₁⟩ := hq.retire (t := 0) hok hR ho (by simp [hempty]; omega)
  have hfresh₁ : ∀ o, 1 ≤ o → s₁.life o = .pooled := by
    intro o hle
    rw [h₁.life, if_neg (by simp; omega)]
    exact hfresh o hle
  have hlen₁ : (s₁.retired 0).length = 1 := by simp [h₁.length, hempty]
  -- the others fill the list
  obtain ⟨s₂, hR₂, hq₂, h₂⟩ := hq₁.retires (t := 0) hok hR₁ hfresh₁ (cfg.emptyFreq - 2)
    (by omega)
  have hlast : s₂.life cfg.emptyFreq = .pooled := by
    rw [h₂.life, if_neg (by simp; omega)]
    exact hfresh₁ _ (by omega)
  -- the last one makes the list long enough to be emptied
  have hR₃ := reach_unlinked hok hR₂ hlast
  obtain ⟨s₃, hR₄, hq₃, h₃⟩ := reach_pushed hok (t := 0) (hq₂.unlinked cfg.emptyFreq) hR₃
    (update_self ..)
  have hlen₂ : (s₂.retired 0).length = cfg.emptyFreq - 1 := by
    rw [h₂.length, hlen₁, List.length_range']
    omega
  have hlen₃ : (s₃.retired 0).length = cfg.emptyFreq := by
    have hlen : (s₃.retired 0).length = (s₂.retired 0).length + 1 := h₃.length
    omega
  have hres₃ : s₃.reservations 1 = (0 : ℕ) := by
    rw [h₃.reservations]
    show s₂.reservations 1 = (0 : ℕ)
    rw [h₂.reservations, h₁.reservations, hres]
  -- `rcu_empty` frees nothing, as the reservation of thread `1` is older than all of it
  have hR₅ := reach_epochs hok hR₄ (hq₃.runs 0) hres₃ hlen₃.ge (by rw [hlen₃]; exact hforce)
  obtain ⟨s₄, hR₆, h₄⟩ := reach_signalled hok hR₅ (hq₃.runs 0)
  -- the list begins with object `0`
  have hobjs : (s₄.retired 0).map RCUInfo.obj =
      0 :: (List.range' 1 (cfg.emptyFreq - 2) ++ [cfg.emptyFreq]) := by
    have hobjs₂ : ((s₂.unlinked cfg.emptyFreq).retired 0).map RCUInfo.obj =
        0 :: List.range' 1 (cfg.emptyFreq - 2) := by
      show (s₂.retired 0).map RCUInfo.obj = _
      rw [h₂.objs, h₁.objs, hempty]
      rfl
    rw [h₄.retired, h₃.objs, hobjs₂]
    rfl
  refine ⟨s₄, hR₆, hobjs, ?_, ?_, ?_, ⟨h₄.pinged_self, ?_⟩, h₄.pinged 1 (by decide), ?_, ?_⟩
  · exact h₄.localSlots.trans (h₃.localSlots.trans (h₂.localSlots.trans h₁.localSlots))
  · exact h₄.valid.trans (h₃.valid.trans (h₂.valid.trans h₁.valid))
  · rw [h₄.slots]
    exact hq₃.slots
  · exact (congrFun h₄.handler 0).trans (hq₃.runs 0).2
  · exact (congrFun h₄.handler 1).trans (hq₃.runs 1).2
  · rw [h₄.myscannedTS, h₄.mypublishingTS]

omit hok in
/-- The head of a list whose objects are known. -/
theorem exists_head {l : List (RCUInfo ℕ)} {o : ℕ} {os : List ℕ} (h : l.map RCUInfo.obj = o :: os) :
    ∃ res, l[0]? = some res ∧ res.obj = o := by
  obtain ⟨res, l', rfl, hres, -⟩ := List.map_eq_cons_iff.mp h
  exact ⟨res, rfl, hres⟩

end Forced

end EpochPop
end PopSetbench

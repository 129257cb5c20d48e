import PopSetbench.Reclaim.HazardEraPopBase

/-!
# HazardEraPOP: pieces of a schedule

Runs of one thread at a time, on objects that are numbers and one shared location, from which
the schedules are put together that show where HazardEraPOP frees too early, and that it frees
at all.

* `Quiet.read` — a thread reads an object, which is unlinked afterwards.
* `Quiet.retire`, `Quiet.retires` — a thread retires objects while nobody signals.
* `reach_signalled` — out of patience: a signalling round up to the confirmation loop.
* `reach_scanned` — `empty` copies the published entries.
-/

namespace PopSetbench
namespace HazardEraPop

open Function

variable {n : ℕ} {cfg : Config} {s : State n ℕ Unit} {t : Fin n}

/-! ### Steps on which the condition has no bearing -/

/-- The points of the code at which a thread compares counters. -/
def Pc.compares : Pc ℕ Unit → Bool
  | .confirm _ => true
  | .check => true
  | _ => false

/-- The step compares no counters, or finds `publishing_epoch` unchanged. -/
def Plain (s : State n ℕ Unit) (a : Actor n) : Prop :=
  ∀ t, a = .thread t → (∀ i : Fin n, s.pc t ≠ .confirm i.val) ∧
    (s.pc t = .check → s.savedPublishingEpoch t = s.publishingEpoch)

theorem Plain.env (s : State n ℕ Unit) : Plain s .env := nofun

theorem Plain.handler (s : State n ℕ Unit) (t : Fin n) : Plain s (.handler t) := nofun

theorem Plain.thread {p : Pc ℕ Unit} (hpc : s.pc t = p) (hp : p.compares = false) :
    Plain s (.thread t) := by
  rintro _ ⟨rfl⟩
  rw [hpc]
  refine ⟨fun i => ?_, ?_⟩ <;> rintro rfl <;> cases hp

theorem Plain.miss (hpc : s.pc t = .check) (heq : s.savedPublishingEpoch t = s.publishingEpoch) :
    Plain s (.thread t) := by
  rintro _ ⟨rfl⟩
  rw [hpc]
  exact ⟨nofun, fun _ => heq⟩

theorem Plain.confirmEnd (hpc : s.pc t = .confirm n) : Plain s (.thread t) := by
  rintro _ ⟨rfl⟩
  rw [hpc]
  exact ⟨fun i hi => absurd (Pc.confirm.inj hi) (Nat.ne_of_gt i.isLt), nofun⟩

/-! ### States -/

theorem State.goto_goto {Obj Loc : Type} (s : State n Obj Loc) (t : Fin n) (p q : Pc Obj Loc) :
    (s.goto t p).goto t q = s.goto t q := by
  simp [State.goto]

theorem State.goto_pc {Obj Loc : Type} (s : State n Obj Loc) (t : Fin n) (p : Pc Obj Loc) :
    (s.goto t p).pc t = p :=
  update_self ..

/-- Copying a zero entry over a zero one changes nothing. -/
theorem State.copySlot_zero {Obj Loc : Type} {s : State n Obj Loc} {t : Fin n}
    {e : Fin numPophe} (hs : s.reservations t e = 0) (hl : s.localReservedEpoch t e = 0) :
    s.copySlot t e = s := by
  have hinner : update (s.reservations t) e (s.localReservedEpoch t e) = s.reservations t := by
    rw [hl, ← hs, update_eq_self]
  simp [State.copySlot, hinner]

/-- The state after the handler of a thread. -/
def State.served (s : State n ℕ Unit) (t : Fin n) : State n ℕ Unit :=
  { s with
    pinged := update s.pinged t false
    reservations := update s.reservations t (s.localReservedEpoch t)
    mypublishingTS := update s.mypublishingTS t (s.mypublishingTS t + 1)
    pubs := update s.pubs t (s.pubs t + 1) }

/-- The state after the handler of a thread that has reserved nothing. -/
def State.handled (s : State n ℕ Unit) (t : Fin n) : State n ℕ Unit :=
  { s with
    pinged := update s.pinged t false
    mypublishingTS := update s.mypublishingTS t (s.mypublishingTS t + 1)
    pubs := update s.pubs t (s.pubs t + 1) }

/-- The state after an object has been allocated in the current epoch, linked and unlinked. -/
def State.unlinked (s : State n ℕ Unit) (o : ℕ) : State n ℕ Unit :=
  { s with
    life := update s.life o .unlinked
    birthEpoch := update s.birthEpoch o s.epoch }

/-- Every thread is between two calls, nothing is published and nobody has signalled. -/
structure Quiet (s : State n ℕ Unit) : Prop where
  pc : ∀ u, s.pc u = .idle
  runs : ∀ u, s.Runs u
  retiresSinceHiWm : ∀ u, s.retiresSinceHiWm u = 0
  saved : ∀ u, s.savedPublishingEpoch u = s.publishingEpoch
  reservations : ∀ u e, s.reservations u e = 0
  scannedHEs : ∀ t u e, s.scannedHEs t u e = 0

/-- Unlinking an object disturbs nobody. -/
theorem Quiet.unlinked (hq : Quiet s) (o : ℕ) : Quiet (s.unlinked o) :=
  ⟨hq.pc, hq.runs, hq.retiresSinceHiWm, hq.saved, hq.reservations, hq.scannedHEs⟩

/-- Thread `t` has appended `x` to its list; no reservation has changed. -/
structure Retired (s s' : State n ℕ Unit) (t : Fin n) (x : List (HeInfo ℕ)) : Prop where
  retired : s'.retired t = s.retired t ++ x
  life : ∀ o, s'.life o = if o ∈ x.map HeInfo.obj then .retired else s.life o
  localReservedEpoch : s'.localReservedEpoch = s.localReservedEpoch
  held : s'.held = s.held

/-- `x` is `s` after thread `t` has pushed `o`, but for its data of the low watermark. -/
structure Pushed (s x : State n ℕ Unit) (t : Fin n) (o : ℕ) : Prop where
  retired : x.retired = update s.retired t (s.retired t ++ [⟨o, s.birthEpoch o, s.epoch⟩])
  life : x.life = update s.life o .retired
  birthEpoch : x.birthEpoch = s.birthEpoch
  epoch : x.epoch = s.epoch
  localReservedEpoch : x.localReservedEpoch = s.localReservedEpoch
  held : x.held = s.held
  reservations : x.reservations = s.reservations
  scannedHEs : x.scannedHEs = s.scannedHEs
  retiresSinceHiWm : x.retiresSinceHiWm = s.retiresSinceHiWm
  savedPublishingEpoch : x.savedPublishingEpoch = s.savedPublishingEpoch
  publishingEpoch : x.publishingEpoch = s.publishingEpoch
  pinged : x.pinged = s.pinged
  handler : x.handler = s.handler
  pc : x.pc = s.pc

/-- A push disturbs nobody. -/
private theorem Pushed.quiet {x : State n ℕ Unit} {o : ℕ} (h : Pushed s x t o) (hq : Quiet s) :
    Quiet x where
  pc u := (congrFun h.pc u).trans (hq.pc u)
  runs u := ⟨(congrFun h.pinged u).trans (hq.runs u).1, (congrFun h.handler u).trans (hq.runs u).2⟩
  retiresSinceHiWm u := (congrFun h.retiresSinceHiWm u).trans (hq.retiresSinceHiWm u)
  saved u := by
    rw [h.savedPublishingEpoch, h.publishingEpoch]
    exact hq.saved u
  reservations u e := by
    rw [h.reservations]
    exact hq.reservations u e
  scannedHEs v u e := by
    rw [h.scannedHEs]
    exact hq.scannedHEs v u e

section Pieces

variable {ok : State n ℕ Unit → Actor n → Prop}

/-- A thread that only moves through a loop. -/
private theorem loop {P : State n ℕ Unit → Prop} {f : ℕ → Pc ℕ Unit} {k : ℕ}
    (hbody : ∀ i < k, P (s.goto t (f i)) → P (s.goto t (f (i + 1))))
    (h : P (s.goto t (f 0))) : P (s.goto t (f k)) := by
  induction k with
  | zero => exact h
  | succ k ih =>
    exact hbody k (Nat.lt_succ_self k) (ih fun i hi => hbody i (Nat.lt_succ_of_lt hi))

variable (hok : ∀ s a, Plain s a → ok s a)

include hok

theorem reach_plain {s' : State n ℕ Unit} {p : Pc ℕ Unit}
    (hR : (system cfg).ReachableBy ok s) (hstep : Step cfg s (.thread t) s')
    (hpc : s.pc t = p) (hp : p.compares = false) : (system cfg).ReachableBy ok s' :=
  hR.step hstep (hok _ _ (.thread hpc hp))

/-! ### Retiring while nobody signals -/

/-- The low watermark finds `publishing_epoch` unchanged. -/
theorem reach_missed (hR : (system cfg).ReachableBy ok (s.goto t .check)) (hr : s.Runs t)
    (hmiss : s.savedPublishingEpoch t = s.publishingEpoch) :
    (system cfg).ReachableBy ok (s.finishRetire t) := by
  have hstep : Step cfg _ _ _ := .checkMiss (s.goto t .check) t hr (State.goto_pc ..) hmiss
  have heq : (s.goto t .check).finishRetire t = s.finishRetire t := by
    simp [State.finishRetire, State.goto]
    rfl
  rw [heq] at hstep
  exact hR.step hstep (hok _ _ (.miss (State.goto_pc ..) hmiss))

omit hok in
/-- A call of `retire` that changes nothing but the data of the calling thread leaves the
others quiet. -/
private theorem Quiet.finishRetire {x : State n ℕ Unit} (hq : Quiet x) :
    Quiet (x.finishRetire t) where
  pc u := by
    by_cases hu : u = t
    · subst hu
      exact update_self ..
    · exact (update_of_ne hu ..).trans (hq.pc u)
  runs := hq.runs
  retiresSinceHiWm := hq.retiresSinceHiWm
  saved := hq.saved
  reservations := hq.reservations
  scannedHEs := hq.scannedHEs

/-- A call of `retire` that is not out of patience and finds `publishing_epoch` unchanged pushes
the object and frees nothing. -/
theorem reach_retired (hR : (system cfg).ReachableBy ok s) (hr : s.Runs t) (hpc : s.pc t = .idle)
    (hsaved : s.savedPublishingEpoch t = s.publishingEpoch) {o : ℕ} (ho : s.life o = .unlinked)
    (hout : s.isOutOfPatience cfg t ((s.retired t).length + 1) = false) :
    ∃ x : State n ℕ Unit, (system cfg).ReachableBy ok (x.finishRetire t) ∧ Pushed s x t o := by
  by_cases hpast : s.isPastLoWatermark cfg t ((s.retired t).length + 1) = true
  · by_cases hfirst : s.firstLoEntryFlag t = true
    · have hR₁ := reach_plain hok hR (.retireEnterLoWm s t o 0 hr hpc ho hout hpast hfirst) hpc rfl
      have hR₂ := reach_plain hok hR₁ (.saveEpoch _ t hr (State.goto_pc ..)) (State.goto_pc ..) rfl
      -- what is saved is what was saved before
      have hsame : update s.savedPublishingEpoch t s.publishingEpoch =
          s.savedPublishingEpoch := by
        rw [← hsaved, update_eq_self]
      let x : State n ℕ Unit := { s.pushBack t o with
        firstLoEntryFlag := update s.firstLoEntryFlag t false
        loPathReclaimAttemptFreq := update s.loPathReclaimAttemptFreq t (attemptFreq 0)
        retireBagSizeWhenEnteredLoWm :=
          update s.retireBagSizeWhenEnteredLoWm t ((s.retired t).length + 1)
        savedPubs := update s.savedPubs t s.pubs
        savedAnn := update s.savedAnn t s.ann }
      have hR₃ : (system cfg).ReachableBy ok (x.goto t .check) := by
        simpa only [x, State.goto, State.pushBack, update_idem, hsame] using hR₂
      exact ⟨x, reach_missed hok hR₃ hr hsaved, rfl, rfl, rfl, rfl, rfl, rfl, rfl, rfl, rfl, rfl,
        rfl, rfl, rfl, rfl⟩
    · have hR₁ := reach_plain hok hR (.retireLoWm s t o hr hpc ho hout hpast
        (by simpa using hfirst)) hpc rfl
      exact ⟨s.pushBack t o, reach_missed hok hR₁ hr hsaved, rfl, rfl, rfl, rfl, rfl, rfl, rfl, rfl,
        rfl, rfl, rfl, rfl, rfl, rfl⟩
  · have hR₁ := reach_plain hok hR (.retireOnly s t o hr hpc ho hout
      (Bool.eq_false_of_not_eq_true hpast)) hpc rfl
    exact ⟨s.pushBack t o, hR₁, rfl, rfl, rfl, rfl, rfl, rfl, rfl, rfl, rfl, rfl, rfl, rfl, rfl,
      rfl⟩

/-- A thread retires one more object and goes away empty-handed. -/
theorem Quiet.retire (hq : Quiet s) (hR : (system cfg).ReachableBy ok s) {o : ℕ}
    (ho : s.life o = .unlinked) (hlen : (s.retired t).length + 1 < cfg.bagCapacityThreshold) :
    ∃ s', (system cfg).ReachableBy ok s' ∧ Quiet s' ∧
      Retired s s' t [⟨o, s.birthEpoch o, s.epoch⟩] := by
  have hout : s.isOutOfPatience cfg t ((s.retired t).length + 1) = false := by
    simp [State.isOutOfPatience]
    omega
  obtain ⟨x, hR', hx⟩ := reach_retired hok hR (hq.runs t) (hq.pc t) (hq.saved t) ho hout
  refine ⟨_, hR', (hx.quiet hq).finishRetire, ?_, fun b => ?_, hx.localReservedEpoch, hx.held⟩
  · exact (congrFun hx.retired t).trans (update_self ..)
  · refine (congrFun hx.life b).trans ?_
    by_cases hb : b = o <;> simp [hb, update_of_ne]

/-- An object is allocated, linked and unlinked. -/
theorem reach_unlinked (hR : (system cfg).ReachableBy ok s) {o : ℕ} (ho : s.life o = .pooled) :
    (system cfg).ReachableBy ok (s.unlinked o) := by
  have hR₁ := hR.step (.link s o s.epoch ho le_rfl) (hok _ _ (.env _))
  have hR₂ := hR₁.step (.unlink _ o (update_self ..)) (hok _ _ (.env _))
  simpa only [State.unlinked, update_idem] using hR₂

/-- A thread retires `k` fresh objects and goes away empty-handed. -/
theorem Quiet.retires (hq : Quiet s) (hR : (system cfg).ReachableBy ok s) {c : ℕ}
    (hfresh : ∀ o, c ≤ o → s.life o = .pooled) (k : ℕ)
    (hlen : (s.retired t).length + k < cfg.bagCapacityThreshold) :
    ∃ s' x, (system cfg).ReachableBy ok s' ∧ Quiet s' ∧ Retired s s' t x ∧
      x.map HeInfo.obj = List.range' c k := by
  induction k with
  | zero => exact ⟨s, [], hR, hq, ⟨by simp, by simp, rfl, rfl⟩, rfl⟩
  | succ k ih =>
    obtain ⟨s₁, x, hR₁, hq₁, h₁, hx⟩ := ih (by omega)
    have ho : s₁.life (c + k) = .pooled := by
      rw [h₁.life, hx, if_neg (by simp)]
      exact hfresh _ (Nat.le_add_right ..)
    have hxlen : x.length = k := by
      simpa using congrArg List.length hx
    have hlen₁ : ((s₁.unlinked (c + k)).retired t).length = (s.retired t).length + k := by
      show (s₁.retired t).length = _
      rw [h₁.retired, List.length_append, hxlen]
    obtain ⟨s₂, hR₂, hq₂, h₂⟩ := (hq₁.unlinked (c + k)).retire hok (t := t)
      (reach_unlinked hok hR₁ ho) (update_self ..) (by omega)
    let res : HeInfo ℕ := ⟨c + k, (s₁.unlinked (c + k)).birthEpoch (c + k), s₁.epoch⟩
    have hmap : (x ++ [res]).map HeInfo.obj = List.range' c k ++ [c + k] := by
      rw [List.map_append, hx]
      rfl
    refine ⟨s₂, x ++ [res], hR₂, hq₂, ⟨?_, fun b => ?_,
      h₂.localReservedEpoch.trans h₁.localReservedEpoch, h₂.held.trans h₁.held⟩, ?_⟩
    · rw [h₂.retired, ← List.append_assoc, ← h₁.retired]
      rfl
    · rw [h₂.life, hmap]
      by_cases hb : b = c + k
      · simp [hb]
      · simpa [hb, hx, State.unlinked, update_of_ne] using h₁.life b
    · rw [hmap, List.range'_concat]
      simp

/-! ### A reader -/

/-- A thread that has reserved nothing reads object `0`, which is unlinked afterwards. -/
theorem reach_read (cfg : Config) (u : Fin n) :
    ∃ s, (system cfg).ReachableBy ok s ∧ Quiet s ∧ s.life 0 = .unlinked ∧
      (∀ o, 1 ≤ o → s.life o = .pooled) ∧ (∀ t, s.retired t = []) ∧
      s.held u 0 0 = true ∧ s.localReservedEpoch u 0 = 1 ∧ s.birthEpoch 0 = 1 ∧ s.epoch = 1 ∧
      ∀ t, t ≠ u → ∀ e, s.localReservedEpoch t e = 0 := by
  have hR₀ : (system cfg).ReachableBy ok (State.initial n ℕ Unit) := .init rfl
  have hR₁ := hR₀.step (.link _ 0 1 rfl le_rfl) (hok _ _ (.env _))
  have hR₂ := hR₁.step (.write _ () ⟨some 0, 0⟩) (hok _ _ (.env _))
  have hR₃ := reach_plain hok hR₂ (.callRead _ u 0 () ⟨rfl, rfl⟩ rfl) rfl rfl
  -- the first load finds that the epoch is not reserved yet
  have hR₄ := reach_plain hok hR₃ (.readLoad _ u 0 () 0 ⟨rfl, rfl⟩ (State.goto_pc ..))
    (State.goto_pc ..) rfl
  have hR₅ := reach_plain hok hR₄ (.readMove _ u 0 () 0 _ ⟨rfl, rfl⟩ (State.goto_pc ..)
    Nat.one_ne_zero) (State.goto_pc ..) rfl
  have hR₆ := reach_plain hok hR₅ (.readStore _ u 0 () 1 ⟨rfl, rfl⟩ (State.goto_pc ..))
    (State.goto_pc ..) rfl
  have hR₇ := reach_plain hok hR₆ (.readLoad _ u 0 () 1 ⟨rfl, rfl⟩ (State.goto_pc ..))
    (State.goto_pc ..) rfl
  have hR₈ := reach_plain hok hR₇ (.readReturn _ u 0 () 1 _ ⟨rfl, rfl⟩ (State.goto_pc ..) rfl)
    (State.goto_pc ..) rfl
  have hR₉ := hR₈.step (.unlink _ 0 rfl) (hok _ _ (.env _))
  refine ⟨_, hR₉, ⟨fun t => ?_, fun _ => ⟨rfl, rfl⟩, fun _ => rfl, fun _ => rfl, fun _ _ => rfl,
    fun _ _ _ => rfl⟩, rfl, fun o ho => ?_, fun _ => rfl, ?_, ?_, rfl, rfl, fun t ht e => ?_⟩
  · by_cases ht : t = u <;> simp [State.goto, State.setEpoch, State.initial, ht]
  · have hne : o ≠ 0 := Nat.ne_of_gt ho
    simp [State.goto, State.setEpoch, State.initial, hne]
  · simp [State.goto, State.setEpoch]
  · simp [State.goto, State.setEpoch]
  · simp [State.goto, State.setEpoch, State.initial, ht]

/-! ### Out of patience -/

/-- Sampling the counters of everybody, up to the thread's own publication. -/
theorem reach_sampled (hR : (system cfg).ReachableBy ok (s.goto t (.sample 0))) (hr : s.Runs t) :
    ∃ x y, (system cfg).ReachableBy ok ((State.announce
        { s with myscannedTS := x, scannedPubs := y } t).goto t (.publish 0)) ∧
      ∀ i, x t i = s.mypublishingTS i := by
  have hloop : ∀ k ≤ n, ∃ x y, (system cfg).ReachableBy ok
        (State.goto { s with myscannedTS := x, scannedPubs := y } t (.sample k)) ∧
      ∀ i : Fin n, i.val < k → x t i = s.mypublishingTS i := by
    intro k hk
    induction k with
    | zero => exact ⟨s.myscannedTS, s.scannedPubs, hR, fun i hi => absurd hi (Nat.not_lt_zero _)⟩
    | succ k ih =>
      obtain ⟨x, y, h, hx⟩ := ih (Nat.le_of_succ_le hk)
      have hstep : Step cfg _ _ _ :=
        .sample (State.goto { s with myscannedTS := x, scannedPubs := y } t (.sample k)) t ⟨k, hk⟩
          hr (State.goto_pc ..)
      have hnext := reach_plain hok h hstep (State.goto_pc ..) rfl
      refine ⟨update x t (update (x t) ⟨k, hk⟩ (s.mypublishingTS ⟨k, hk⟩)),
        update y t (update (y t) ⟨k, hk⟩ (s.pubs ⟨k, hk⟩)),
        by simpa only [State.goto, update_idem] using hnext, fun i hi => ?_⟩
      rw [update_self]
      by_cases hik : i = ⟨k, hk⟩
      · subst hik
        rw [update_self]
      · have hne : i.val ≠ k := fun hv => hik (Fin.ext hv)
        rw [update_of_ne hik]
        exact hx i (by omega)
  obtain ⟨x, y, h, hx⟩ := hloop n le_rfl
  have hstep : Step cfg _ _ _ :=
    .sampleEnd (State.goto { s with myscannedTS := x, scannedPubs := y } t (.sample n)) t hr
      (State.goto_pc ..)
  have hnext := reach_plain hok h hstep (State.goto_pc ..) rfl
  refine ⟨x, y, ?_, fun i => hx i i.isLt⟩
  simpa only [State.goto, State.announce, update_idem] using hnext

/-- Publishing zeros over zeros. -/
theorem reach_published (hR : (system cfg).ReachableBy ok (s.goto t (.publish 0)))
    (hr : s.Runs t) (hs : ∀ e, s.reservations t e = 0) (hl : ∀ e, s.localReservedEpoch t e = 0) :
    (system cfg).ReachableBy ok ((s.countPublish t).goto t (.ping 0)) := by
  have hend : (system cfg).ReachableBy ok (s.goto t (.publish numPophe)) := by
    refine loop (f := Pc.publish) (fun j hj h => ?_) hR
    have hstep : Step cfg _ _ _ := .publish (s.goto t (.publish j)) t ⟨j, hj⟩ hr (State.goto_pc ..)
    have hcopy : (s.goto t (.publish j)).copySlot t ⟨j, hj⟩ = s.goto t (.publish j) :=
      State.copySlot_zero (hs _) (hl _)
    rw [hcopy, State.goto_goto] at hstep
    exact reach_plain hok h hstep (State.goto_pc ..) rfl
  have hstep : Step cfg _ _ _ := .publishEnd (s.goto t (.publish numPophe)) t hr (State.goto_pc ..)
  have hnext := reach_plain hok hend hstep (State.goto_pc ..) rfl
  simpa only [State.goto, State.countPublish, update_idem] using hnext

/-- Pinging everybody else. -/
theorem reach_pinged (hR : (system cfg).ReachableBy ok (s.goto t (.ping 0))) (hr : s.Runs t) :
    ∃ z, (system cfg).ReachableBy ok (State.goto { s with pinged := z } t (.ping n)) ∧
      z t = false ∧ ∀ i, i ≠ t → z i = true := by
  have hloop : ∀ k ≤ n, ∃ z,
      (system cfg).ReachableBy ok (State.goto { s with pinged := z } t (.ping k)) ∧
        z t = false ∧ ∀ i : Fin n, i.val < k → i ≠ t → z i = true := by
    intro k hk
    induction k with
    | zero => exact ⟨s.pinged, hR, hr.1, fun i hi => absurd hi (Nat.not_lt_zero _)⟩
    | succ k ih =>
      obtain ⟨z, h, hz, hall⟩ := ih (Nat.le_of_succ_le hk)
      have hr' : (State.goto { s with pinged := z } t (.ping k)).Runs t := ⟨hz, hr.2⟩
      have hbelow : ∀ i : Fin n, i.val < k + 1 → i.val ≠ k → i ≠ t → z i = true :=
        fun i hi hik hit => hall i (by omega) hit
      by_cases hkt : (⟨k, hk⟩ : Fin n) = t
      · have hstep : Step cfg _ _ _ :=
          .pingSelf (State.goto { s with pinged := z } t (.ping k)) t hr'
            (by rw [← hkt]; exact update_self ..)
        rw [State.goto_goto, show t.val = k from (congrArg Fin.val hkt).symm] at hstep
        refine ⟨z, reach_plain hok h hstep (State.goto_pc ..) rfl, hz, fun i hi hit => ?_⟩
        exact hbelow i hi (fun hik => hit ((Fin.ext hik : i = ⟨k, hk⟩).trans hkt)) hit
      · have hstep : Step cfg _ _ _ :=
          .ping (State.goto { s with pinged := z } t (.ping k)) t ⟨k, hk⟩ hr' (State.goto_pc ..)
            (Ne.symm hkt)
        have hnext := reach_plain hok h hstep (State.goto_pc ..) rfl
        refine ⟨update z ⟨k, hk⟩ true, by simpa only [State.goto, update_idem] using hnext,
          ?_, fun i hi hit => ?_⟩
        · rw [update_of_ne (Ne.symm hkt)]
          exact hz
        · by_cases hik : i = ⟨k, hk⟩
          · subst hik
            exact update_self ..
          · rw [update_of_ne hik]
            exact hbelow i hi (fun hv => hik (Fin.ext hv)) hit
  obtain ⟨z, h, hz, hall⟩ := hloop n le_rfl
  exact ⟨z, h, hz, fun i => hall i i.isLt⟩

/-- `s'` is `s` after thread `t` has sampled all counters, published and pinged everybody. -/
structure Round (s s' : State n ℕ Unit) (t : Fin n) : Prop where
  retired : s'.retired = s.retired
  localReservedEpoch : s'.localReservedEpoch = s.localReservedEpoch
  held : s'.held = s.held
  reservations : s'.reservations = s.reservations
  scannedHEs : s'.scannedHEs = s.scannedHEs
  firstLoEntryFlag : s'.firstLoEntryFlag = s.firstLoEntryFlag
  mypublishingTS : ∀ u, u ≠ t → s'.mypublishingTS u = s.mypublishingTS u
  myscannedTS : ∀ i, s'.myscannedTS t i = s.mypublishingTS i
  pinged_self : s'.pinged t = false
  pinged : ∀ u, u ≠ t → s'.pinged u = true
  handler : s'.handler = s.handler
  life : s'.life = s.life
  birthEpoch : s'.birthEpoch = s.birthEpoch
  epoch : s'.epoch = s.epoch
  retiresSinceHiWm : s'.retiresSinceHiWm = s.retiresSinceHiWm
  saved : s'.savedPublishingEpoch t = s'.publishingEpoch
  pc : s'.pc = s.pc

/-- A signalling round of a thread that has reserved nothing, up to the confirmation loop. -/
theorem reach_signalled (hR : (system cfg).ReachableBy ok (s.goto t (.sample 0)))
    (hr : s.Runs t) (hs : ∀ e, s.reservations t e = 0)
    (hl : ∀ e, s.localReservedEpoch t e = 0) :
    ∃ s', (system cfg).ReachableBy ok (s'.goto t (.confirm 0)) ∧ Round s s' t := by
  obtain ⟨x, y, hR₁, hx⟩ := reach_sampled hok hR hr
  have hR₂ := reach_published hok hR₁ hr hs hl
  obtain ⟨z, hR₃, hz, hall⟩ := reach_pinged hok hR₂ hr
  have hR₄ := reach_plain hok hR₃ (.pingEnd _ t ⟨hz, hr.2⟩ (State.goto_pc ..)) (State.goto_pc ..)
    rfl
  have hR₅ := reach_plain hok hR₄ (.saveOwn _ t ⟨hz, hr.2⟩ (State.goto_pc ..)) (State.goto_pc ..)
    rfl
  let s' : State n ℕ Unit := { s with
    myscannedTS := x
    scannedPubs := y
    pinged := z
    publishingEpoch := s.publishingEpoch + 1
    savedPublishingEpoch := update s.savedPublishingEpoch t (s.publishingEpoch + 1)
    mypublishingTS := update s.mypublishingTS t (s.mypublishingTS t + 1)
    pubs := update s.pubs t (s.pubs t + 1)
    ann := update s.ann t (s.ann t + 1 + 1) }
  have hR₆ : (system cfg).ReachableBy ok (s'.goto t (.confirm 0)) := by
    simpa only [s', State.goto, State.announce, State.countPublish, update_idem, update_self]
      using hR₅
  exact ⟨s', hR₆, rfl, rfl, rfl, rfl, rfl, rfl, fun u hu => update_of_ne hu .., hx, hz, hall, rfl,
    rfl, rfl, rfl, rfl, update_self .., rfl⟩

/-- The handler of a pinged thread. -/
theorem reach_served (hR : (system cfg).ReachableBy ok s) (hp : s.pinged t = true)
    (hh : s.handler t = none) : (system cfg).ReachableBy ok (s.served t) := by
  have hR₁ := hR.step (.handlerEnter s t hp hh) (hok _ _ (.handler s t))
  -- the entries below `k` have been copied
  let row (k : ℕ) : Fin numPophe → ℕ := fun e =>
    if e.val < k then s.localReservedEpoch t e else s.reservations t e
  have hloop : ∀ k ≤ numPophe, (system cfg).ReachableBy ok { s with
      pinged := update s.pinged t false
      reservations := update s.reservations t (row k)
      handler := update s.handler t (some k) } := by
    intro k hk
    induction k with
    | zero =>
      have hrow : update s.reservations t (row 0) = s.reservations := by
        have h0 : row 0 = s.reservations t := funext fun e => if_neg (Nat.not_lt_zero _)
        rw [h0, update_eq_self]
      rw [hrow]
      exact hR₁
    | succ k ih =>
      have hnext := (ih (Nat.le_of_succ_le hk)).step (.handlerPublish _ t ⟨k, hk⟩ (update_self ..))
        (hok _ _ (.handler _ t))
      have hrow : update (row k) ⟨k, hk⟩ (s.localReservedEpoch t ⟨k, hk⟩) = row (k + 1) := by
        ext e
        by_cases he : e = ⟨k, hk⟩
        · subst he
          simp [row]
        · have hne : e.val ≠ k := fun hv => he (Fin.ext hv)
          rw [update_of_ne he]
          simp only [row]
          congr 1
          simp only [eq_iff_iff]
          omega
      simpa only [State.copySlot, update_self, update_idem, hrow] using hnext
  have hfull : row numPophe = s.localReservedEpoch t := funext fun e => if_pos e.isLt
  have hend := (hloop numPophe le_rfl).step (.handlerReturn _ t (update_self ..))
    (hok _ _ (.handler _ t))
  have hhandler : update s.handler t none = s.handler := by
    rw [← hh, update_eq_self]
  simpa only [State.served, State.countPublish, update_idem, hhandler, hfull] using hend

/-- The handler of a pinged thread that has reserved nothing. -/
theorem reach_handled (hR : (system cfg).ReachableBy ok s) (hp : s.pinged t = true)
    (hh : s.handler t = none) (hs : ∀ e, s.reservations t e = 0)
    (hl : ∀ e, s.localReservedEpoch t e = 0) : (system cfg).ReachableBy ok (s.handled t) := by
  have hrow : s.localReservedEpoch t = s.reservations t :=
    funext fun e => (hl e).trans (hs e).symm
  have hsame : update s.reservations t (s.localReservedEpoch t) = s.reservations := by
    rw [hrow, update_eq_self]
  simpa only [State.served, State.handled, hsame] using reach_served hok hR hp hh

/-- The confirmation loop, whatever it finds; then `empty` copies the published entries. -/
theorem reach_copied (hR : (system cfg).ReachableBy ok (s.goto t (.confirm 0))) (hr : s.Runs t)
    (hconf : ∀ i : Fin n, ok (s.goto t (.confirm i.val)) (.thread t)) :
    (system cfg).ReachableBy ok
      (State.goto { s with scannedHEs := update s.scannedHEs t s.reservations } t
        (.scan .hiWm 0 0)) := by
  -- what the loop finds does not matter to it: it only goes on
  have hend : (system cfg).ReachableBy ok (s.goto t (.confirm n)) := by
    refine loop (f := Pc.confirm) (fun i hi h => ?_) hR
    have hstep : Step cfg _ _ _ := .confirm (s.goto t (.confirm i)) t ⟨i, hi⟩ hr (State.goto_pc ..)
    rw [State.goto_goto] at hstep
    exact h.step hstep (hconf ⟨i, hi⟩)
  have hleave : Step cfg _ _ _ := .confirmEnd (s.goto t (.confirm n)) t hr (State.goto_pc ..)
  rw [State.goto_goto] at hleave
  have hR₁ := hend.step hleave (hok _ _ (.confirmEnd (State.goto_pc ..)))
  -- the entries below `m` have been copied
  let upTo (m : ℕ) : Fin n → Fin numPophe → ℕ := fun u e =>
    if u.val * numPophe + e.val < m then s.reservations u e else s.scannedHEs t u e
  -- by induction on the number of entries copied
  have hcopied : ∀ m ≤ n * numPophe, (system cfg).ReachableBy ok
      (State.goto { s with scannedHEs := update s.scannedHEs t (upTo m) } t (.snapshot .hiWm m)) := by
    intro m hm
    induction m with
    | zero =>
      have h0 : upTo 0 = s.scannedHEs t :=
        funext fun u => funext fun e => if_neg (Nat.not_lt_zero _)
      rw [h0, update_eq_self]
      exact hR₁
    | succ m ih =>
      obtain ⟨u, e, rfl⟩ := exists_row hm
      have hnext := reach_plain hok (ih (Nat.le_of_succ_le hm))
        (.snapshot _ t u e .hiWm hr (State.goto_pc ..)) (State.goto_pc ..) rfl
      have hrow : update (upTo (u.val * numPophe + e.val)) u
          (update (upTo (u.val * numPophe + e.val) u) e (s.reservations u e)) =
          upTo (u.val * numPophe + e.val + 1) := by
        ext u' e'
        by_cases hue : u' = u ∧ e' = e
        · obtain ⟨rfl, rfl⟩ := hue
          simp [upTo]
        · have hiff : (u'.val * numPophe + e'.val < u.val * numPophe + e.val + 1) ↔
              u'.val * numPophe + e'.val < u.val * numPophe + e.val :=
            ⟨fun h => (row_lt h).resolve_right hue, Nat.lt_succ_of_lt⟩
          have hold : update (upTo (u.val * numPophe + e.val)) u
              (update (upTo (u.val * numPophe + e.val) u) e (s.reservations u e)) u' e' =
              upTo (u.val * numPophe + e.val) u' e' := by
            by_cases hu : u' = u
            · subst hu
              rw [update_self, update_of_ne fun he => hue ⟨rfl, he⟩]
            · rw [update_of_ne hu]
          rw [hold]
          simp only [upTo, hiff]
      simpa only [State.goto, State.copyEntry, update_self, update_idem, hrow] using hnext
  -- all entries are copied
  have hfull : upTo (n * numPophe) = s.reservations :=
    funext fun u => funext fun e => if_pos (row_lt_end u e)
  have hlast := hcopied (n * numPophe) le_rfl
  rw [hfull] at hlast
  have hstep := reach_plain hok hlast (.snapshotEnd _ t .hiWm hr (State.goto_pc ..))
    (State.goto_pc ..) rfl
  rwa [State.goto_goto] at hstep

/-- The same where all entries are zero. -/
theorem reach_scanned (hR : (system cfg).ReachableBy ok (s.goto t (.confirm 0))) (hr : s.Runs t)
    (hconf : ∀ i : Fin n, ok (s.goto t (.confirm i.val)) (.thread t))
    (hs : ∀ u e, s.reservations u e = 0) (ht : ∀ u e, s.scannedHEs t u e = 0) :
    (system cfg).ReachableBy ok (s.goto t (.scan .hiWm 0 0)) := by
  have hrow : s.reservations = s.scannedHEs t :=
    funext fun u => funext fun e => (hs u e).trans (ht u e).symm
  have hsame : update s.scannedHEs t s.reservations = s.scannedHEs := by
    rw [hrow, update_eq_self]
  simpa only [hsame] using reach_copied hok hR hr hconf

end Pieces

end HazardEraPop
end PopSetbench

import PopSetbench.Reclaim.NbrBase

/-!
# NBR and NBR+: pieces of a schedule

Runs of one thread at a time, on records that are numbers, from which the schedules are put together
that show that NBR frees at all, and where NBR+ frees too early.

* `Calm.retires` — a thread retires records while no counter grows.
* `reach_collected` — nobody has saved a record: `collectAllSavedRecords` collects none.
* `reach_sent` — `sendFreeableRecordsToPool` frees the whole bag.
-/

namespace PopSetbench
namespace Nbr

open Function

variable {n : ℕ} {cfg : Config n} {s s' s'' : State n ℕ} {t : Fin n}

/-! ### Steps on which the condition has no bearing -/

/-- The step finds no counter that has grown by two. -/
def Plain (s : State n ℕ) (a : Actor n) : Prop :=
  ∀ t i : Fin n, a = .thread t → s.pc t = .check i.val →
    s.announcedTS i < (s.threadData t).savedTS i + 2

theorem Plain.env (s : State n ℕ) : Plain s .env := nofun

theorem Plain.handler (s : State n ℕ) (t : Fin n) : Plain s (.handler t) := nofun

theorem Plain.thread {p : Pc ℕ} (hpc : s.pc t = p) (hp : ∀ i, p ≠ .check i) :
    Plain s (.thread t) := by
  rintro _ i ⟨rfl⟩ hi
  exact absurd (hpc.symm.trans hi) (hp _)

theorem Plain.miss {i : Fin n} (hpc : s.pc t = .check i.val)
    (hlt : s.announcedTS i < (s.threadData t).savedTS i + 2) : Plain s (.thread t) := by
  rintro _ j ⟨rfl⟩ hj
  obtain rfl : j = i := Fin.ext (Pc.check.inj (hj.symm.trans hpc))
  exact hlt

theorem Plain.checkEnd (hpc : s.pc t = .check n) : Plain s (.thread t) := by
  rintro _ j ⟨rfl⟩ hj
  exact absurd (Pc.check.inj (hj.symm.trans hpc)) (Nat.ne_of_lt j.isLt)

/-! ### States -/

theorem State.goto_goto {Obj : Type} (s : State n Obj) (t : Fin n) (p q : Pc Obj) :
    (s.goto t p).goto t q = s.goto t q := by
  simp [State.goto]

theorem State.goto_pc {Obj : Type} (s : State n Obj) (t : Fin n) (p : Pc Obj) :
    (s.goto t p).pc t = p :=
  update_self ..

theorem State.goto_self {Obj : Type} {s : State n Obj} {t : Fin n} {p : Pc Obj}
    (h : s.pc t = p) : s.goto t p = s := by
  simp [State.goto, ← h]

theorem State.own_goto {Obj : Type} (s : State n Obj) (t : Fin n) (d : ThreadData n Obj)
    (p q : Pc Obj) : (s.own t d p).goto t q = s.own t d q := by
  simp [State.goto, State.own]

/-- The state after a record has been linked and unlinked. -/
def State.unlinked (s : State n ℕ) (o : ℕ) : State n ℕ :=
  { s with
    life := update s.life o .unlinked
    met := fun u => update (s.met u) o true }

/-- The state after thread `u` has begun to read while a record was linked that is unlinked now. -/
def State.reading (s : State n ℕ) (u : Fin n) (o : ℕ) : State n ℕ :=
  { s.goto u .idle with
    restartable := update s.restartable u true
    writing := update s.writing u false
    proposedHzptrs := update s.proposedHzptrs u { s.proposedHzptrs u with size := 0 }
    life := update s.life o .unlinked
    met := update (fun v => update (s.met v) o true) u
      fun x => update s.life o .linked x = .linked }

/-- Thread `t` has changed its own data, and possibly records that satisfy `P`. -/
structure Local (P : ℕ → Prop) (s s' : State n ℕ) (t : Fin n) : Prop where
  proposedHzptrs : s'.proposedHzptrs = s.proposedHzptrs
  announcedTS : s'.announcedTS = s.announcedTS
  restartable : s'.restartable = s.restartable
  pending : s'.pending = s.pending
  writing : s'.writing = s.writing
  pc : ∀ u, u ≠ t → s'.pc u = s.pc u
  threadData : ∀ u, u ≠ t → s'.threadData u = s.threadData u
  life : ∀ o, ¬ P o → s'.life o = s.life o
  met : ∀ u o, s.met u o = true → s'.met u o = true
  ended : ∀ u, u ≠ t → s'.endedSince u = s.endedSince u
  begun : ∀ u, u ≠ t → s'.begunSince u = s.begunSince u
  bagAtEntry : ∀ u, u ≠ t → s'.bagAtEntry u = s.bagAtEntry u

theorem Local.refl (P : ℕ → Prop) (s : State n ℕ) (t : Fin n) : Local P s s t :=
  ⟨rfl, rfl, rfl, rfl, rfl, fun _ _ => rfl, fun _ _ => rfl, fun _ _ => rfl, fun _ _ => id,
    fun _ _ => rfl, fun _ _ => rfl, fun _ _ => rfl⟩

theorem Local.trans {P Q : ℕ → Prop} (h : Local P s s' t) (h' : Local Q s' s'' t)
    (hPQ : ∀ o, P o → Q o) : Local Q s s'' t where
  proposedHzptrs := h'.proposedHzptrs.trans h.proposedHzptrs
  announcedTS := h'.announcedTS.trans h.announcedTS
  restartable := h'.restartable.trans h.restartable
  pending := h'.pending.trans h.pending
  writing := h'.writing.trans h.writing
  pc u hu := (h'.pc u hu).trans (h.pc u hu)
  threadData u hu := (h'.threadData u hu).trans (h.threadData u hu)
  life o ho := (h'.life o ho).trans (h.life o fun hp => ho (hPQ o hp))
  met u o hm := h'.met u o (h.met u o hm)
  ended u hu := (h'.ended u hu).trans (h.ended u hu)
  begun u hu := (h'.begun u hu).trans (h.begun u hu)
  bagAtEntry u hu := (h'.bagAtEntry u hu).trans (h.bagAtEntry u hu)

theorem Local.goto (P : ℕ → Prop) (s : State n ℕ) (t : Fin n) (p : Pc ℕ) :
    Local P s (s.goto t p) t :=
  { Local.refl P s t with pc := fun _ hu => update_of_ne hu .. }

theorem Local.own (P : ℕ → Prop) (s : State n ℕ) (t : Fin n) (d : ThreadData n ℕ) (p : Pc ℕ) :
    Local P s (s.own t d p) t :=
  { Local.refl P s t with
    pc := fun _ hu => update_of_ne hu ..
    threadData := fun _ hu => update_of_ne hu .. }

theorem Local.unlinked (s : State n ℕ) (t : Fin n) (o : ℕ) :
    Local (· = o) s (s.unlinked o) t :=
  { Local.refl (· = o) s t with
    life := fun _ ho => update_of_ne ho ..
    met := fun u x hm => by
      show update (s.met u) o true x = true
      by_cases hx : x = o
      · rw [hx, update_self]
      · rwa [update_of_ne hx] }

theorem Local.retiring (s : State n ℕ) (t : Fin n) (o : ℕ) :
    Local (· = o) s (s.retiring o) t :=
  { Local.refl (· = o) s t with life := fun _ ho => update_of_ne ho .. }

theorem Local.pooled (s : State n ℕ) (t : Fin n) (o : ℕ) :
    Local (· = o) s { s with life := update s.life o .pooled } t :=
  { Local.refl (· = o) s t with life := fun _ ho => update_of_ne ho .. }

theorem Local.entered {P : ℕ → Prop} (h : Local P s s' t) (bag : List ℕ) :
    Local P s { s' with bagAtEntry := update s'.bagAtEntry t bag } t :=
  { h with bagAtEntry := fun u hu => (update_of_ne hu ..).trans (h.bagAtEntry u hu) }

theorem Local.mono {P Q : ℕ → Prop} (h : Local P s s' t) (hPQ : ∀ o, P o → Q o) :
    Local Q s s' t :=
  { h with
    life := fun o ho => h.life o fun hp => ho (hPQ o hp) }

/-- Thread `t` is between two calls, outside read phases, and no counter has grown since it saved
them. -/
structure Calm (s : State n ℕ) (t : Fin n) : Prop where
  pc : s.pc t = .idle
  pending : s.pending t = false
  restartable : s.restartable t = false
  spare : (s.threadData t).spareMeBag = []
  saved : (s.threadData t).firstLoEntryFlag = false →
    ∀ i, s.announcedTS i < (s.threadData t).savedTS i + 2

/-- A bag that is at most half full stays below the low watermark. -/
def StaysLow (cfg : Config n) (s s' : State n ℕ) (t : Fin n) : Prop :=
  (s.threadData t).retiredBag.length ≤ cfg.bagCapacityThreshold t / 2 →
    (s.threadData t).firstLoEntryFlag = true →
    (s'.threadData t).firstLoEntryFlag = true ∧
      (s'.threadData t).numRetiresSinceLoWatermark = (s.threadData t).numRetiresSinceLoWatermark

/-- A step of another thread does not disturb it. -/
theorem Calm.of_local {P : ℕ → Prop} {u : Fin n} (hc : Calm s u) (hl : Local P s s' t)
    (hu : u ≠ t) : Calm s' u where
  pc := (hl.pc u hu).trans hc.pc
  pending := by rw [hl.pending, hc.pending]
  restartable := by rw [hl.restartable, hc.restartable]
  spare := by rw [hl.threadData u hu, hc.spare]
  saved := by
    rw [hl.threadData u hu, hl.announcedTS]
    exact hc.saved

section Pieces

variable {ok : State n ℕ → Actor n → Prop}

/-- A thread that only moves through a loop. -/
private theorem loop {P : State n ℕ → Prop} {f : ℕ → Pc ℕ} {k : ℕ}
    (hbody : ∀ i < k, P (s.goto t (f i)) → P (s.goto t (f (i + 1))))
    (h : P (s.goto t (f 0))) : P (s.goto t (f k)) := by
  induction k with
  | zero => exact h
  | succ k ih =>
    exact hbody k (Nat.lt_succ_self k) (ih fun i hi => hbody i (Nat.lt_succ_of_lt hi))

variable (hok : ∀ s a, Plain s a → ok s a)

include hok

theorem reach_plain {p : Pc ℕ} (hR : (system cfg).ReachableBy ok s)
    (hstep : Step cfg s (.thread t) s') (hpc : s.pc t = p) (hp : ∀ i, p ≠ .check i) :
    (system cfg).ReachableBy ok s' :=
  hR.step hstep (hok _ _ (.thread hpc hp))

theorem reach_unlinked {o : ℕ} (hR : (system cfg).ReachableBy ok s) (ho : s.life o = .pooled) :
    (system cfg).ReachableBy ok (s.unlinked o) := by
  have hR₁ := hR.step (.link s o ho) (hok _ _ (.env _))
  have hR₂ := hR₁.step (.unlink _ o (update_self ..)) (hok _ _ (.env _))
  simpa only [State.unlinked, update_idem] using hR₂

theorem reach_reading {o : ℕ} (hR : (system cfg).ReachableBy ok s) (hpc : s.pc t = .idle)
    (hp : s.pending t = false) (hr : s.restartable t = false) (ho : s.life o = .pooled) :
    (system cfg).ReachableBy ok (s.reading t o) := by
  have hR₁ := hR.step (.link s o ho) (hok _ _ (.env _))
  have hR₂ := reach_plain hok hR₁ (.callStartOp _ t hp hpc hr) hpc (by simp)
  have hpc₂ : update s.pc t .startOp t = .startOp := update_self ..
  have hR₃ := reach_plain hok hR₂ (.startOp _ t hp hpc₂) hpc₂ (by simp)
  have hR₄ := hR₃.step (.unlink _ o (update_self ..)) (hok _ _ (.env _))
  simp only [State.goto, update_idem] at hR₄
  exact hR₄

/-! ### Retiring while no counter grows -/

/-- The loop over the counters finds none below `k` that has grown. -/
theorem reach_checked {k : ℕ} (hk : k ≤ n)
    (hR : (system cfg).ReachableBy ok (s.goto t (.check 0))) (hp : s.pending t = false)
    (hlt : ∀ i : Fin n, i.val < k → s.announcedTS i < (s.threadData t).savedTS i + 2) :
    (system cfg).ReachableBy ok (s.goto t (.check k)) := by
  refine loop (f := .check) (fun i hi hR => ?_) hR
  have hpc : (s.goto t (.check i)).pc t = .check i := State.goto_pc ..
  have hlt' := hlt ⟨i, by omega⟩ hi
  have hR' := hR.step (.checkNext _ t ⟨i, by omega⟩ hp hpc hlt') (hok _ _ (.miss hpc hlt'))
  rwa [State.goto_goto] at hR'

/-- The loop over the counters finds none that has grown. -/
private theorem reach_missed (hR : (system cfg).ReachableBy ok (s.goto t (.check 0)))
    (hp : s.pending t = false) (hlt : ∀ i, s.announcedTS i < (s.threadData t).savedTS i + 2) :
    (system cfg).ReachableBy ok (s.goto t .add) := by
  have hend := reach_checked hok le_rfl hR hp fun i _ => hlt i
  have hpc : (s.goto t (.check n)).pc t = .check n := State.goto_pc ..
  have hR' := hend.step (.checkEnd _ t hp hpc) (hok _ _ (.checkEnd hpc))
  rwa [State.goto_goto] at hR'

/-- The counters are saved. -/
private theorem reach_saved (hR : (system cfg).ReachableBy ok s) (hpc : s.pc t = .saveTS 0)
    (hp : s.pending t = false) :
    ∃ s', (system cfg).ReachableBy ok (s'.goto t (.check 0)) ∧ Local (fun _ => False) s s' t ∧
      (∀ i, (s'.threadData t).savedTS i = s.announcedTS i) ∧
      (s'.threadData t).retiredBag = (s.threadData t).retiredBag ∧
      (s'.threadData t).record = (s.threadData t).record ∧
      (s'.threadData t).firstLoEntryFlag = (s.threadData t).firstLoEntryFlag ∧
      (s'.threadData t).savedRetireBagBlockInfo = (s.threadData t).savedRetireBagBlockInfo ∧
      (s'.threadData t).spareMeBag = (s.threadData t).spareMeBag := by
  have hloop : ∀ k ≤ n, ∃ s', (system cfg).ReachableBy ok s' ∧ s'.pc t = .saveTS k ∧
      Local (fun _ => False) s s' t ∧
      (∀ i : Fin n, i.val < k → (s'.threadData t).savedTS i = s.announcedTS i) ∧
      (s'.threadData t).retiredBag = (s.threadData t).retiredBag ∧
      (s'.threadData t).record = (s.threadData t).record ∧
      (s'.threadData t).firstLoEntryFlag = (s.threadData t).firstLoEntryFlag ∧
      (s'.threadData t).savedRetireBagBlockInfo = (s.threadData t).savedRetireBagBlockInfo ∧
      (s'.threadData t).spareMeBag = (s.threadData t).spareMeBag := by
    intro k
    -- one announcement counter after the other
    induction k with
    | zero =>
      exact fun _ => ⟨s, hR, hpc, .refl .., fun i hi => absurd hi (Nat.not_lt_zero _), rfl, rfl,
        rfl, rfl, rfl⟩
    | succ k ih =>
      intro hk
      obtain ⟨s₁, hR₁, hpc₁, hl₁, hsaved, hbag, hrec, hflag, hinfo, hspare⟩ :=
        ih (Nat.le_of_succ_le hk)
      have hR₂ := reach_plain hok hR₁ (.saveTS s₁ t ⟨k, hk⟩ (by rw [hl₁.pending, hp]) hpc₁) hpc₁
        (by simp)
      refine ⟨_, hR₂, update_self .., hl₁.trans ?_ fun _ => id, fun i hi => ?_, ?_⟩
      · exact { Local.own _ s₁ t _ _ with
          ended := fun _ hu => update_of_ne hu ..
          begun := fun _ hu => update_of_ne hu .. }
      · have htd := update_self (β := fun _ => ThreadData n ℕ) t
          { s₁.threadData t with
            savedTS := update (s₁.threadData t).savedTS ⟨k, hk⟩ (s₁.announcedTS ⟨k, hk⟩) }
          s₁.threadData
        refine (congrFun (congrArg ThreadData.savedTS htd) i).trans ?_
        show update (s₁.threadData t).savedTS ⟨k, hk⟩ (s₁.announcedTS ⟨k, hk⟩) i = _
        by_cases hik : i = ⟨k, hk⟩
        · rw [hik, update_self, hl₁.announcedTS]
        · rw [update_of_ne hik]
          exact hsaved i (lt_of_le_of_ne (Nat.le_of_lt_succ hi) fun h => hik (Fin.ext h))
      · simp [State.own, hbag, hrec, hflag, hinfo, hspare]
  obtain ⟨s₁, hR₁, hpc₁, hl₁, hsaved, hrest⟩ := hloop n le_rfl
  exact ⟨s₁, reach_plain hok hR₁ (.saveTSEnd s₁ t (by rw [hl₁.pending, hp]) hpc₁) hpc₁ (by simp),
    hl₁, fun i => hsaved i i.isLt, hrest⟩

/-- The record is added to the bag. -/
theorem reach_added {o : ℕ} (hR : (system cfg).ReachableBy ok (s.goto t .add))
    (hp : s.pending t = false) (hr : s.restartable t = false)
    (ho : (s.threadData t).record = some o) (hspare : (s.threadData t).spareMeBag = [])
    (hlt : (s.threadData t).firstLoEntryFlag = false →
      ∀ i, s.announcedTS i < (s.threadData t).savedTS i + 2) :
    ∃ s', (system cfg).ReachableBy ok s' ∧ Calm s' t ∧ Local (fun _ => False) s s' t ∧
      s'.threadData t = (s.threadData t).finishRetire o := by
  have hR' := reach_plain hok hR (.add _ t o hp (State.goto_pc ..) ho) (State.goto_pc ..) (by simp)
  refine ⟨_, hR', ⟨update_self .., hp, hr, ?_, ?_⟩,
    (Local.goto _ s t .add).trans (Local.own ..) fun _ => id, update_self ..⟩
  · simpa [State.own, State.goto, ThreadData.finishRetire] using hspare
  · simpa [State.own, State.goto, ThreadData.finishRetire] using hlt

/-- A retire that is not out of patience. In a short bag it does not enter the low watermark. -/
theorem Calm.retire {o : ℕ} (hc : Calm s t) (hR : (system cfg).ReachableBy ok s)
    (ho : s.life o = .unlinked)
    (hlen : (s.threadData t).retiredBag.length ≤ cfg.bagCapacityThreshold t) :
    ∃ s', (system cfg).ReachableBy ok s' ∧ Calm s' t ∧ Local (· = o) s s' t ∧
      (s'.threadData t).retiredBag = o :: (s.threadData t).retiredBag ∧ StaysLow cfg s s' t := by
  have hout : (s.threadData t).isOutOfPatience cfg t = false := by
    simpa [ThreadData.isOutOfPatience] using hlen
  -- the record is handed over, then `retire` goes on at `p` with the data `d`
  have hand : ∀ (d : ThreadData n ℕ) (p : Pc ℕ), Local (· = o) s ((s.retiring o).own t d p) t :=
    fun d p => (Local.retiring s t o).trans (.own ..) fun _ => id
  -- where `retire` comes to its end, the record is added to the bag
  have finish : ∀ {s₁ : State n ℕ}, (system cfg).ReachableBy ok (s₁.goto t .add) →
      Local (· = o) s s₁ t → (s₁.threadData t).record = some o →
      (s₁.threadData t).retiredBag = (s.threadData t).retiredBag →
      (s₁.threadData t).spareMeBag = (s.threadData t).spareMeBag →
      ((s₁.threadData t).firstLoEntryFlag = false →
        ∀ i, s₁.announcedTS i < (s₁.threadData t).savedTS i + 2) →
      StaysLow cfg s s₁ t →
      ∃ s', (system cfg).ReachableBy ok s' ∧ Calm s' t ∧ Local (· = o) s s' t ∧
        (s'.threadData t).retiredBag = o :: (s.threadData t).retiredBag ∧
        StaysLow cfg s s' t := by
    intro s₁ hR₁ hl₁ hrec hbag hspare hlt hlow
    obtain ⟨s₂, hR₂, hc₂, hl₂, htd⟩ := reach_added hok hR₁ (by rw [hl₁.pending, hc.pending])
      (by rw [hl₁.restartable, hc.restartable]) hrec (hspare.trans hc.spare) hlt
    refine ⟨s₂, hR₂, hc₂, hl₁.trans (hl₂.mono fun _ => False.elim) fun _ => id, ?_,
      fun hle hfl => ?_⟩
    · rw [htd, ← hbag]
      rfl
    · obtain ⟨hfl₁, hnum₁⟩ := hlow hle hfl
      rw [htd]
      exact ⟨hfl₁, by simp [ThreadData.finishRetire, hfl₁, hnum₁]⟩
  by_cases hpast : (s.threadData t).isPastLoWatermark cfg t = true
  · -- past the low watermark the bag is more than half full
    have hhalf : ¬ (s.threadData t).retiredBag.length ≤ cfg.bagCapacityThreshold t / 2 := by
      simp only [ThreadData.isPastLoWatermark, Bool.and_eq_true, decide_eq_true_eq] at hpast
      exact Nat.not_le_of_gt hpast.1.2
    cases hfl : (s.threadData t).firstLoEntryFlag with
    | true =>
      -- `retire` enters it: the counters are saved, and then compared
      have hR₁ := reach_plain hok hR (.retireEnterLoWm s t o 0 hc.pending hc.pc hc.restartable ho
        hout hpast hfl) hc.pc (by simp)
      have hl₁ := (hand { (s.threadData t).setLoWmMetaData
        (tryReclaimFrequency cfg.maxRetirebagCapacityPow2 0) with record := some o }
        (.saveTS 0)).entered (s.threadData t).retiredBag
      obtain ⟨s₂, hR₂, hl₂, hts, hbag, hrec, -, -, hspare⟩ :=
        reach_saved hok hR₁ (update_self ..) hc.pending
      have hlt : ∀ i, s₂.announcedTS i < (s₂.threadData t).savedTS i + 2 := by
        intro i
        rw [hl₂.announcedTS, hts i]
        omega
      refine finish (reach_missed hok hR₂ (by rw [hl₂.pending]; exact hc.pending) hlt)
        (hl₁.trans (hl₂.mono fun _ => False.elim) fun _ => id) ?_ ?_ ?_ (fun _ => hlt)
        fun hle => absurd hle hhalf
      · rw [hrec]
        simp [State.own]
      · rw [hbag]
        simp [State.own, ThreadData.setLoWmMetaData]
      · rw [hspare]
        simp [State.own, ThreadData.setLoWmMetaData]
    | false =>
      -- it is entered already: only the comparison is made
      have hR₁ := reach_plain hok hR (.retireCheckLoWm s t o hc.pending hc.pc hc.restartable ho
        hout hpast hfl) hc.pc (by simp)
      rw [← State.own_goto _ _ _ .idle] at hR₁
      refine finish (reach_missed hok hR₁ hc.pending ?_) (hand _ _) ?_ ?_ ?_ ?_
        fun hle => absurd hle hhalf
      · simpa [State.own, State.retiring] using hc.saved hfl
      · simp [State.own]
      · simp [State.own]
      · simp [State.own]
      · simpa [State.own, State.retiring] using hc.saved
  · -- below the low watermark the record is just added
    have hR₁ := reach_plain hok hR (.retireAdd s t o hc.pending hc.pc hc.restartable ho hout
      (eq_false_of_ne_true hpast)) hc.pc (by simp)
    rw [← State.own_goto _ _ _ .idle] at hR₁
    refine finish hR₁ (hand _ _) ?_ ?_ ?_ ?_ fun _ hfl => ?_
    · simp [State.own]
    · simp [State.own]
    · simp [State.own]
    · simpa [State.own, State.retiring] using hc.saved
    · simpa [State.own] using hfl

/-- The first retire past the low watermark saves the counters and the head of the bag. -/
theorem Calm.enter {x : ℕ} (hc : Calm s t) (hR : (system cfg).ReachableBy ok s)
    (hx : s.life x = .pooled) (hv : cfg.variant = .nbrPlus)
    (hle : (s.threadData t).retiredBag.length ≤ cfg.bagCapacityThreshold t)
    (hlt : cfg.bagCapacityThreshold t / 2 < (s.threadData t).retiredBag.length)
    (hfl : (s.threadData t).firstLoEntryFlag = true)
    (hnum : (s.threadData t).numRetiresSinceLoWatermark = 0) :
    ∃ s', (system cfg).ReachableBy ok (s'.goto t (.check 0)) ∧ Local (· = x) s s' t ∧
      (∀ i, (s'.threadData t).savedTS i = s.announcedTS i) ∧
      (s'.threadData t).retiredBag = (s.threadData t).retiredBag ∧
      (s'.threadData t).savedRetireBagBlockInfo = beginOf (s.threadData t).retiredBag := by
  have hout : (s.threadData t).isOutOfPatience cfg t = false := by
    simpa [ThreadData.isOutOfPatience] using hle
  have hpast : (s.threadData t).isPastLoWatermark cfg t = true := by
    simp [ThreadData.isPastLoWatermark, hv, hlt, hnum]
  have hR₁ := reach_plain hok (reach_unlinked hok hR hx) (.retireEnterLoWm (s.unlinked x) t x 0
    hc.pending hc.pc hc.restartable (update_self ..) hout hpast hfl) hc.pc (by simp)
  have hl₁ := (((Local.unlinked s t x).trans (.retiring _ t x) fun _ => id).trans
    (.own _ _ t { ((s.unlinked x).threadData t).setLoWmMetaData
      (tryReclaimFrequency cfg.maxRetirebagCapacityPow2 0) with record := some x } (.saveTS 0))
    fun _ => id).entered (s.threadData t).retiredBag
  obtain ⟨s₂, hR₂, hl₂, hts, hbag, -, -, hinfo, -⟩ := reach_saved hok hR₁ (update_self ..) hc.pending
  refine ⟨s₂, hR₂, hl₁.trans (hl₂.mono fun _ => False.elim) fun _ => id, hts, ?_, ?_⟩
  · rw [hbag]
    simp [State.own, ThreadData.setLoWmMetaData, State.unlinked]
  · rw [hinfo]
    simp [State.own, ThreadData.setLoWmMetaData, State.unlinked]

/-- Retiring records that are allocated for it. -/
theorem Calm.retires (hc : Calm s t) (hR : (system cfg).ReachableBy ok s) (m k : ℕ)
    (hfresh : ∀ o, m ≤ o → o < m + k → s.life o = .pooled)
    (hlen : (s.threadData t).retiredBag.length + k ≤ cfg.bagCapacityThreshold t + 1) :
    ∃ s', (system cfg).ReachableBy ok s' ∧ Calm s' t ∧ Local (fun o => m ≤ o ∧ o < m + k) s s' t ∧
      (s'.threadData t).retiredBag.length = (s.threadData t).retiredBag.length + k ∧
      (∀ o ∈ (s'.threadData t).retiredBag, o ∈ (s.threadData t).retiredBag ∨ m ≤ o ∧ o < m + k) ∧
      ((s.threadData t).retiredBag.length + k ≤ cfg.bagCapacityThreshold t / 2 + 1 →
        StaysLow cfg s s' t) := by
  induction k with
  | zero => exact ⟨s, hR, hc, .refl .., rfl, fun o => .inl, fun _ _ hfl => ⟨hfl, rfl⟩⟩
  | succ k ih =>
    obtain ⟨s₁, hR₁, hc₁, hl₁, hlen₁, hmem₁, hlow₁⟩ :=
      ih (fun o hle hlt => hfresh o hle (by omega)) (by omega)
    have hpool : s₁.life (m + k) = .pooled :=
      (hl₁.life _ (by omega)).trans (hfresh _ (by omega) (by omega))
    have hc₂ : Calm (s₁.unlinked (m + k)) t :=
      ⟨hc₁.pc, hc₁.pending, hc₁.restartable, hc₁.spare, hc₁.saved⟩
    obtain ⟨s₂, hR₂, hc₃, hl₂, hbag₂, hlow₂⟩ :=
      hc₂.retire hok (reach_unlinked hok hR₁ hpool) (update_self ..) (by
        show (s₁.threadData t).retiredBag.length ≤ _
        omega)
    refine ⟨s₂, hR₂, hc₃, ?_, ?_, fun o ho => ?_, fun hle hs hfl => ?_⟩
    · have hone : Local (· = m + k) s₁ s₂ t := (Local.unlinked ..).trans hl₂ fun _ => id
      exact (hl₁.mono fun o ho => ⟨ho.1, by omega⟩).trans (hone.mono fun o ho => by omega)
        fun _ => id
    · rw [hbag₂, List.length_cons]
      show (s₁.threadData t).retiredBag.length + 1 = _
      omega
    · rw [hbag₂, List.mem_cons] at ho
      rcases ho with rfl | ho
      · exact .inr (by omega)
      · exact (hmem₁ o ho).imp id fun h => by omega
    · obtain ⟨hfl₁, hnum₁⟩ := hlow₁ (by omega) hs hfl
      obtain ⟨hfl₂, hnum₂⟩ := hlow₂ (by
        show (s₁.threadData t).retiredBag.length ≤ _
        omega) hfl₁
      exact ⟨hfl₂, hnum₂.trans hnum₁⟩

/-! ### Reclaiming while nobody has saved a record -/

/-- `collectAllSavedRecords` collects nothing. -/
theorem reach_collected {path : Path} (hR : (system cfg).ReachableBy ok (s.goto t (.collect path 0)))
    (hp : s.pending t = false) (hsize : ∀ i, (s.proposedHzptrs i).size = 0) :
    (system cfg).ReachableBy ok (s.goto t (.collect path n)) := by
  refine loop (f := .collect path) (fun i hi hR => ?_) hR
  have hpc : (s.goto t (.collect path i)).pc t = .collect path i := State.goto_pc ..
  have hR₁ := reach_plain hok hR (.collect _ t ⟨i, hi⟩ path hp hpc) hpc (by simp)
  have hpc₁ : ((s.goto t (.collect path i)).goto t
      (.collectGet path i ((s.goto t (.collect path i)).proposedHzptrs ⟨i, hi⟩).size 0)).pc t =
      .collectGet path i (s.proposedHzptrs ⟨i, hi⟩).size 0 := State.goto_pc ..
  have hR₂ := reach_plain hok hR₁ (.collectNext _ t ⟨i, hi⟩ path _ 0 hp hpc₁
    (Nat.le_of_eq (hsize _))) hpc₁ (by simp)
  rwa [State.goto_goto, State.goto_goto] at hR₂

/-- `sendFreeableRecordsToPool` frees the whole bag. -/
theorem reach_sent {path : Path} (hR : (system cfg).ReachableBy ok s) (hpc : s.pc t = .send path)
    (hp : s.pending t = false) (hscan : (s.threadData t).scannedHzptrs = ∅) :
    ∃ s', (system cfg).ReachableBy ok s' ∧ s'.pc t = .send path ∧
      Local (· ∈ (s.threadData t).retiredBag) s s' t ∧
      s'.threadData t = { s.threadData t with retiredBag := [] } := by
  generalize hbag : (s.threadData t).retiredBag = bag
  induction bag generalizing s with
  | nil =>
    refine ⟨s, hR, hpc, .refl .., ?_⟩
    rw [← hbag]
  | cons o bag ih =>
    have hR₁ := reach_plain hok hR (.sendFree s t path o bag hp hpc hbag (by simp [hscan])) hpc
      (by simp)
    have htd := update_self (β := fun _ => ThreadData n ℕ) t
      { s.threadData t with retiredBag := bag } s.threadData
    obtain ⟨s₂, hR₂, hpc₂, hl₂, htd₂⟩ := ih hR₁ (update_self ..) hp
      ((congrArg ThreadData.scannedHzptrs htd).trans hscan) (congrArg ThreadData.retiredBag htd)
    refine ⟨s₂, hR₂, hpc₂, ?_, ?_⟩
    · have hl₁ := (Local.own (· = o) s t { s.threadData t with retiredBag := bag }
        (.send path)).trans (.pooled _ t o) fun _ => id
      exact (hl₁.mono fun x hx => hx ▸ List.mem_cons_self ..).trans
        (hl₂.mono fun x hx => List.mem_cons_of_mem o hx) fun _ => id
    · rw [htd₂]
      show { update s.threadData t _ t with retiredBag := [] } = _
      rw [htd]

/-- The bag is freed, and the record passed to `retire` is added. -/
theorem reach_reclaimed {o : ℕ} (hR : (system cfg).ReachableBy ok (s.goto t (.collect .hiWm 0)))
    (hv : cfg.variant = .nbrPlus) (hp : s.pending t = false) (hr : s.restartable t = false)
    (hsize : ∀ i, (s.proposedHzptrs i).size = 0) (hscan : (s.threadData t).scannedHzptrs = ∅)
    (hspare : (s.threadData t).spareMeBag = []) (ho : (s.threadData t).record = some o) :
    ∃ s', (system cfg).ReachableBy ok s' ∧ Calm s' t ∧
      Local (· ∈ (s.threadData t).retiredBag) s s' t ∧ (s'.threadData t).retiredBag = [o] := by
  have hpc₁ : (s.goto t (.collect .hiWm n)).pc t = .collect .hiWm n := State.goto_pc ..
  have hR₁ := reach_plain hok (reach_collected hok hR hp hsize) (.collectEnd _ t hp hpc₁) hpc₁
    (by simp)
  rw [State.goto_goto] at hR₁
  -- nothing is announced, so every record is sent to the pool
  obtain ⟨s₂, hR₂, hpc₂, hl₂, htd₂⟩ := reach_sent hok hR₁ (State.goto_pc ..) hp hscan
  have hp₂ : s₂.pending t = false := by
    rw [hl₂.pending]
    exact hp
  -- there is no spare bag to give back
  have hR₃ := reach_plain hok hR₂ (.sendEnd s₂ t .hiWm hp₂ hpc₂ (by rw [htd₂])) hpc₂ (by simp)
  have hpc₃ : (s₂.goto t (.unspare .hiWm)).pc t = .unspare .hiWm := State.goto_pc ..
  have hR₄ := reach_plain hok hR₃ (.unspareEnd _ t .hiWm hp₂ hpc₃ (by
    show (s₂.threadData t).spareMeBag = []
    rw [htd₂]
    exact hspare)) hpc₃ (by simp)
  rw [← State.own_goto _ _ _ .idle] at hR₄
  have htd₄ : ((s₂.goto t (.unspare .hiWm)).own t
      (((s₂.goto t (.unspare .hiWm)).threadData t).afterReclaim cfg.variant) .idle).threadData t =
      ((s₂.threadData t).afterReclaim .nbrPlus) := by
    rw [hv]
    exact update_self ..
  -- the bag is empty when the record is added
  obtain ⟨s₅, hR₅, hc₅, hl₅, htd₅⟩ := reach_added (o := o) hok hR₄ hp₂
    (by
      show s₂.restartable t = false
      rw [hl₂.restartable]
      exact hr)
    (by
      rw [htd₄, htd₂]
      exact ho)
    (by
      rw [htd₄, htd₂]
      exact hspare)
    (by
      rw [htd₄]
      nofun)
  refine ⟨s₅, hR₅, hc₅, ?_, ?_⟩
  · have h₁ := (Local.goto _ s t (.send .hiWm)).trans hl₂ fun _ => id
    have h₃ := ((Local.goto _ s₂ t (.unspare .hiWm)).trans (.own ..) fun _ => id).trans hl₅
      fun _ => id
    exact h₁.trans (h₃.mono fun _ => False.elim) fun _ => id
  · rw [htd₅, htd₄, htd₂]
    rfl

/-! ### Signalling -/

/-- The threads from `a` on and below `b` are signalled. -/
theorem reach_signalled {a b : ℕ} (hab : a ≤ b) (hb : b ≤ n)
    (hR : (system cfg).ReachableBy ok (s.goto t (.signal a))) (hp : s.pending t = false) :
    ∃ pend, (system cfg).ReachableBy ok ({ s with pending := pend }.goto t (.signal b)) ∧
      pend t = false ∧
        ∀ u, u ≠ t → pend u = (s.pending u || (decide (a ≤ u.val) && decide (u.val < b))) := by
  induction b, hab using Nat.le_induction with
  | base =>
    refine ⟨s.pending, hR, hp, fun u _ => ?_⟩
    have hout : (decide (a ≤ u.val) && decide (u.val < a)) = false := by
      simp
    rw [hout, Bool.or_false]
  | succ b hab ih =>
    obtain ⟨pend, hR₁, hp₁, hpend⟩ := ih (Nat.le_of_succ_le hb)
    have hpc₁ : ({ s with pending := pend }.goto t (.signal b)).pc t = .signal b :=
      State.goto_pc ..
    by_cases ht : t = ⟨b, hb⟩
    · have hpc₁' : ({ s with pending := pend }.goto t (.signal b)).pc t = .signal t.val := by
        rw [hpc₁, ht]
      have hR₂ := reach_plain hok hR₁ (.signalSelf _ t hp₁ hpc₁') hpc₁ (by simp)
      rw [State.goto_goto, show t.val = b by rw [ht]] at hR₂
      refine ⟨pend, hR₂, hp₁, fun u hu => ?_⟩
      have hub : u.val ≠ b := fun h => hu (by rw [ht]; exact Fin.ext h)
      rw [hpend u hu, show decide (u.val < b + 1) = decide (u.val < b) by simp; omega]
    · have hR₂ := reach_plain hok hR₁ (.signal _ t ⟨b, hb⟩ hp₁ hpc₁ ht) hpc₁ (by simp)
      rw [State.goto_goto] at hR₂
      refine ⟨update pend ⟨b, hb⟩ true, hR₂, (update_of_ne ht ..).trans hp₁, fun u hu => ?_⟩
      by_cases hub : u = ⟨b, hb⟩
      · subst hub
        rw [update_self]
        simp [hab]
      · have hne : u.val ≠ b := fun h => hub (Fin.ext h)
        rw [update_of_ne hub, hpend u hu,
          show decide (u.val < b + 1) = decide (u.val < b) by simp; omega]

/-- Out of patience: a record is allocated and retired. -/
theorem Calm.request {x : ℕ} (hc : Calm s t) (hR : (system cfg).ReachableBy ok s)
    (hx : s.life x = .pooled)
    (hlen : cfg.bagCapacityThreshold t < (s.threadData t).retiredBag.length) :
    ∃ s', (system cfg).ReachableBy ok (s'.goto t cfg.variant.request) ∧ Local (· = x) s s' t ∧
      s'.threadData t = { s.threadData t with record := some x } := by
  have hout : (s.threadData t).isOutOfPatience cfg t = true := by
    simpa [ThreadData.isOutOfPatience] using hlen
  have hR₁ := reach_plain hok (reach_unlinked hok hR hx) (.retireRequest (s.unlinked x) t x
    hc.pending hc.pc hc.restartable (update_self ..) hout) hc.pc (by simp)
  rw [← State.own_goto _ _ _ .idle] at hR₁
  refine ⟨_, hR₁, ?_, update_self ..⟩
  have h₁ := (Local.unlinked s t x).trans (.retiring _ t x) fun _ => id
  exact h₁.trans (.own ..) fun _ => id

/-- Out of patience, NBR+: the round begins. -/
theorem Calm.announce {x : ℕ} (hc : Calm s t) (hR : (system cfg).ReachableBy ok s)
    (hx : s.life x = .pooled) (hv : cfg.variant = .nbrPlus)
    (hlen : cfg.bagCapacityThreshold t < (s.threadData t).retiredBag.length) :
    ∃ s', (system cfg).ReachableBy ok ((s'.announceStart t).goto t (.signal 0)) ∧
      Local (· = x) s s' t ∧ s'.threadData t = { s.threadData t with record := some x } := by
  obtain ⟨s₁, hR₁, hl₁, htd₁⟩ := hc.request hok hR hx hlen
  rw [hv] at hR₁
  have hp : s₁.pending t = false := by rw [hl₁.pending, hc.pending]
  have hpc : (s₁.goto t .announceStart).pc t = .announceStart := State.goto_pc ..
  have hR₂ := reach_plain hok hR₁ (.announceStart _ t hp hpc) hpc (by simp)
  refine ⟨s₁, ?_, hl₁, htd₁⟩
  simpa only [State.announceStart, State.goto, update_idem] using hR₂

/-- The round ends, and the bag is freed. -/
theorem reach_concluded {o : ℕ} (hR : (system cfg).ReachableBy ok (s.goto t (.signal n)))
    (hv : cfg.variant = .nbrPlus) (hp : s.pending t = false) (hr : s.restartable t = false)
    (hsize : ∀ i, (s.proposedHzptrs i).size = 0) (hspare : (s.threadData t).spareMeBag = [])
    (ho : (s.threadData t).record = some o) :
    ∃ s', (system cfg).ReachableBy ok s' ∧ Calm s' t ∧
      Local (· ∈ (s.threadData t).retiredBag) (s.announceDone t) s' t ∧
      (s'.threadData t).retiredBag = [o] := by
  have hpc : (s.goto t (.signal n)).pc t = .signal n := State.goto_pc ..
  have hR₁ := reach_plain hok hR (.signalEndPlus _ t hp hpc hv) hpc (by simp)
  rw [State.goto_goto] at hR₁
  have hpc₁ : (s.goto t .announceDone).pc t = .announceDone := State.goto_pc ..
  have hR₂ := reach_plain hok hR₁ (.announceDone _ t hp hpc₁) hpc₁ (by simp)
  let s₂ : State n ℕ := (s.announceDone t).own t { s.threadData t with scannedHzptrs := ∅ } .idle
  have hR₃ : (system cfg).ReachableBy ok (s₂.goto t (.collect .hiWm 0)) := by
    simpa only [s₂, State.beginCollect, State.announceDone, State.own, State.goto, update_idem]
      using hR₂
  have htd₂ : s₂.threadData t = { s.threadData t with scannedHzptrs := ∅ } := update_self ..
  obtain ⟨s₄, hR₄, hc₄, hl₄, hbag₄⟩ := reach_reclaimed (o := o) hok hR₃ hv hp hr hsize
    (by rw [htd₂]) (by rw [htd₂]; exact hspare) (by rw [htd₂]; exact ho)
  refine ⟨s₄, hR₄, hc₄, ?_, hbag₄⟩
  rw [htd₂] at hl₄
  exact (Local.own _ (s.announceDone t) t _ _).trans hl₄ fun _ => id

end Pieces

end Nbr
end PopSetbench

import PopSetbench.Reclaim.Nbr

/-!
# NBR and NBR+: what every step keeps

The facts that hold in every run of either reclaimer.

* `Step.nz` — on the readers, every step is one of readers that a signal throws out
  (`Neutralize.Step`).
* `Step.custody` — on bags, every step is one of the custody of retired records, up to the order
  of a thread's records.
* `Step.round` — on the counter of a thread and its progress in a round, every step is one of
  signalling rounds.
* `Step.frame` — what a thread has to itself changes only with its own steps, but that a signal may
  send it back to its checkpoint.
* `Base` and `Base.step` — the invariant.
-/

namespace PopSetbench
namespace Nbr

open Function

variable {n : ℕ} {Obj : Type}

/-- The progress of a signalling round, which only NBR+ announces. -/
def Variant.stage (v : Variant) (stage : Stage) : Stage :=
  match v with
  | .nbr => .out
  | .nbrPlus => stage

/-- The part of a thread's signalling round it is in. -/
def stageOf (cfg : Config n) : Pc Obj → Stage
  | .signal i => cfg.variant.stage (.reach i)
  | .announceDone => cfg.variant.stage (.reach n)
  | _ => .out

/-- The records that a thread has to free: those it spares, those in its bag and the one it is
retiring. -/
def ThreadData.kept (d : ThreadData n Obj) : List Obj :=
  d.spareMeBag.reverse ++ d.retiredBag ++ d.record.toList

/-- The records that each thread has to free. -/
def State.kept (s : State n Obj) (t : Fin n) : List Obj :=
  (s.threadData t).kept

/-! ### The readers underneath -/

theorem AtomicArrayList.not_has_clear (l : AtomicArrayList Obj) (o : Obj) :
    ¬ AtomicArrayList.Has { l with size := 0 } o :=
  fun ⟨_, hix, _⟩ => absurd hix (Nat.not_lt_zero _)

/-- A record stored behind the last one is not yet in the list. -/
theorem AtomicArrayList.has_store (l : AtomicArrayList Obj) (x o : Obj) :
    AtomicArrayList.Has { l with data := update l.data l.size (some x) } o ↔ l.Has o := by
  refine exists_congr fun ix => and_congr_right fun hix => ?_
  have hne : ix ≠ l.size := Nat.ne_of_lt hix
  show update l.data l.size (some x) ix = some o ↔ l.data ix = some o
  rw [update_of_ne hne]

/-- Storing the new size adds the record. -/
theorem AtomicArrayList.has_add {l : AtomicArrayList Obj} {x : Obj}
    (hx : l.data l.size = some x) (o : Obj) :
    AtomicArrayList.Has { l with size := l.size + 1 } o ↔ l.Has o ∨ o = x := by
  constructor
  · rintro ⟨ix, hix, ho⟩
    rcases Nat.lt_succ_iff_lt_or_eq.mp hix with hlt | rfl
    · exact .inl ⟨ix, hlt, ho⟩
    · exact .inr (Option.some.inj (ho.symm.trans hx))
  · rintro (⟨ix, hix, ho⟩ | rfl)
    · exact ⟨ix, Nat.lt_succ_of_lt hix, ho⟩
    · exact ⟨l.size, Nat.lt_succ_self _, hx⟩

/-- What the point of the code says about the read phase and the saved records. -/
def PhaseOk (cfg : Config n) (s : State n Obj) (t : Fin n) : Pc Obj → Prop
  | .idle => (s.threadData t).record = none
  | .startOp => (s.threadData t).record = none ∧ s.restartable t = false ∧
      s.writing t = false ∧ (s.proposedHzptrs t).size = 0
  | .addSaved o sz => (s.threadData t).record = none ∧ s.restartable t = true ∧
      s.met t o = true ∧ (s.proposedHzptrs t).size = sz ∧ (s.proposedHzptrs t).data sz = some o
  | .announceStart | .announceDone => s.restartable t = false ∧ cfg.variant = .nbrPlus
  | _ => s.restartable t = false

theorem PhaseOk.at {cfg : Config n} {s : State n Obj} {t : Fin n} {p : Pc Obj}
    (h : PhaseOk cfg s t (s.pc t)) (hpc : s.pc t = p) : PhaseOk cfg s t p :=
  hpc ▸ h

/-- A thread in its signalling round cannot be restarted. -/
theorem PhaseOk.restartable_false {cfg : Config n} {s : State n Obj} {t : Fin n}
    (h : PhaseOk cfg s t (s.pc t)) (hst : stageOf cfg (s.pc t) ≠ .out) :
    s.restartable t = false := by
  cases hpc : s.pc t with
  | signal i => exact h.at hpc
  | announceDone => exact (h.at hpc).1
  | _ => exact absurd (congrArg (stageOf cfg) hpc) hst

theorem PhaseOk.stage_out {cfg : Config n} {s : State n Obj} {t : Fin n}
    (h : PhaseOk cfg s t (s.pc t)) (hr : s.restartable t = true) : stageOf cfg (s.pc t) = .out := by
  by_contra hst
  rw [h.restartable_false hst] at hr
  cases hr

section

variable [DecidableEq Obj] {cfg : Config n}

/-- **Readers.** -/
theorem Step.nz {s s' : State n Obj} {a : Actor n} (hphase : ∀ t, PhaseOk cfg s t (s.pc t))
    (hstep : Step cfg s a s') : Neutralize.Step s.life s.nz s'.nz := by
  have saved : ∀ {t : Fin n} {l : AtomicArrayList Obj} {P : Obj → Prop}, (∀ o, l.Has o ↔ P o) →
      (fun u => (update s.proposedHzptrs t l u).Has) =
        update (fun u => (s.proposedHzptrs u).Has) t P := by
    intro t l P h
    funext u o
    by_cases hu : u = t
    · subst hu
      rw [update_self, update_self]
      exact propext (h o)
    · rw [update_of_ne hu, update_of_ne hu]
  cases hstep with
  | link o h =>
    -- a linked object may be met from here on
    have hmet : (fun u x => update (s.met u) o true x = true) =
        fun u x => s.met u x = true ∨ x = o := by
      funext u x
      by_cases hx : x = o
      · simp [hx]
      · simp [hx]
    simp only [State.nz, hmet]
    exact .link s.nz o h
  | callStartOp t hr hpc hrs =>
    -- `startOp` clears the hazard pointers first
    simp only [State.nz, State.goto, saved fun o =>
      iff_false_intro ((s.proposedHzptrs t).not_has_clear o)]
    exact .clear s.nz t hrs
  | startOp t hr hpc =>
    -- the read phase begins, with what is linked now
    obtain ⟨-, -, hw, hsize⟩ := (hphase t).at hpc
    have hmet : (fun u x => update s.met t (fun o => decide (s.life o = .linked)) u x = true) =
        update (fun u x => s.met u x = true) t fun o => s.life o = .linked := by
      funext u x
      by_cases hu : u = t
      · subst hu
        simp
      · simp [update_of_ne hu]
    simp only [State.nz, State.goto, hmet]
    refine .start s.nz t (fun o => ?_) hw
    rintro ⟨ix, hix, -⟩
    rw [hsize] at hix
    exact absurd hix (Nat.not_lt_zero ix)
  | callSave t o hr hpc hrs ho hfull =>
    -- a record is written above the size, so nobody reads it yet
    have heq : (fun u => (s.proposedHzptrs u).Has) =
        update (fun u => (s.proposedHzptrs u).Has) t (s.proposedHzptrs t).Has :=
      (update_eq_self ..).symm
    simp only [State.nz, State.goto, saved ((s.proposedHzptrs t).has_store o)]
    rw [← heq]
    exact .stay _
  | addSaved t o sz hr hpc =>
    -- the size goes up, and the record is saved
    obtain ⟨-, hrs, ho, rfl, hdata⟩ := (hphase t).at hpc
    simp only [State.nz, State.goto, saved (AtomicArrayList.has_add hdata)]
    exact .save s.nz t o hrs ho
  | upgradeToWritePhase t hr hpc hrs => exact .upgrade s.nz t hrs hr
  | endOp t hr hpc => exact .finish s.nz t
  -- a signal is sent
  | signal t i hr hpc hi => exact .signal s.nz i
  | handlerReturn t hp hrs =>
    -- the handler returns outside a read phase, and jumps inside one
    have heq : update s.nz.restartable t false = s.restartable := hrs ▸ update_eq_self ..
    have hstep : Neutralize.Step s.life s.nz _ := .handle s.nz t
    rw [heq] at hstep
    exact hstep
  | handlerJump t hp hrs => exact .handle s.nz t
  | _ => exact .stay s.nz

/-! ### Bags -/

omit [DecidableEq Obj] in
theorem own_kept (s : State n Obj) (t : Fin n) (d : ThreadData n Obj) (p : Pc Obj) :
    (s.own t d p).kept = update s.kept t d.kept := by
  funext u
  show (update s.threadData t d u).kept = _
  by_cases hu : u = t
  · subst hu
    rw [update_self, update_self]
  · rw [update_of_ne hu, update_of_ne hu]
    rfl

omit [DecidableEq Obj] in
/-- Moving the newest record to the spared ones. -/
theorem ThreadData.kept_spare {d : ThreadData n Obj} {o : Obj} {bag : List Obj}
    (hbag : d.retiredBag = o :: bag) :
    (d.spare o bag).kept = d.kept := by
  simp [ThreadData.kept, ThreadData.spare, hbag]

omit [DecidableEq Obj] in
theorem ThreadData.kept_afterReclaim (d : ThreadData n Obj) (v : Variant) :
    (d.afterReclaim v).kept = d.kept := by
  cases v <;> rfl

/-- **Bags.** -/
theorem Step.custody {s s' : State n Obj} {a : Actor n} (hphase : ∀ t, PhaseOk cfg s t (s.pc t))
    (hstep : Step cfg s a s') :
    ∃ lists, Custody.Step s.kept s.life lists s'.life ∧ ∀ u, (s'.kept u).Perm (lists u) := by
  -- a step that leaves the bags alone
  have keep : ∀ {x : State n Obj}, x.kept = s.kept → x.life = s.life →
      ∃ lists, Custody.Step s.kept s.life lists x.life ∧ ∀ u, (x.kept u).Perm (lists u) :=
    fun hk hl => ⟨_, .keep rfl fun _ => by rw [hl], fun u => by rw [hk]⟩
  have same : ∀ {t : Fin n} {d : ThreadData n Obj} {p : Pc Obj}, d.kept = s.kept t →
      (s.own t d p).kept = s.kept := by
    intro t d p hd
    rw [own_kept, hd, update_eq_self]
  have retire : ∀ {t : Fin n} {o : Obj} {d : ThreadData n Obj} {x : State n Obj},
      s.pc t = .idle → s.life o = .unlinked →
      d.kept = (s.threadData t).spareMeBag.reverse ++ (s.threadData t).retiredBag ++ [o] →
      x.kept = update s.kept t d.kept → x.life = update s.life o .retired →
      ∃ lists, Custody.Step s.kept s.life lists x.life ∧ ∀ u, (x.kept u).Perm (lists u) := by
    intro t o d x hpc ho hd hk hl
    have hrec : (s.threadData t).record = none := (hphase t).at hpc
    have hkept : d.kept = s.kept t ++ [o] :=
      hd.trans (by simp [State.kept, ThreadData.kept, hrec])
    exact ⟨_, .push t o ho rfl hl, fun u => by rw [hk, hkept]⟩
  cases hstep with
  -- the data structure links and unlinks
  | link o h => exact ⟨_, .of_update rfl (by simp [h]) (by simp), fun _ => .rfl⟩
  | unlink o h => exact ⟨_, .of_update rfl (by simp [h]) (by simp), fun _ => .rfl⟩
  | retireRequest t o hr hpc hrs ho hout => exact retire hpc ho rfl (own_kept ..) rfl
  | retireEnterLoWm t o rand hr hpc hrs ho hout hpast hfirst =>
    exact retire hpc ho rfl (own_kept _ _ _ (.saveTS 0)) rfl
  | retireCheckLoWm t o hr hpc hrs ho hout hpast hfirst =>
    exact retire hpc ho rfl (own_kept ..) rfl
  | retireAdd t o hr hpc hrs ho hout hpast => exact retire hpc ho rfl (own_kept ..) rfl
  | saveTS t i hr hpc => exact keep (same (p := .saveTS (i.val + 1)) rfl) rfl
  | checkHit t i hr hpc hge => exact keep (same rfl) rfl
  | signalEnd t hr hpc hv => exact keep (same rfl) rfl
  -- the records are moved from one bag of the thread to another
  | announceDone t hr hpc => exact keep (same (p := .collect .hiWm 0) rfl) rfl
  | collectGet t i path sz ix hr hpc hix => exact keep (same rfl) rfl
  | skipNewer t o bag hr hpc hbag hnew => exact keep (same (ThreadData.kept_spare hbag)) rfl
  | sendSpare t path o bag hr hpc hbag hmem => exact keep (same (ThreadData.kept_spare hbag)) rfl
  | sendFree t path o bag hr hpc hbag hmem =>
    -- a record that nobody has reserved goes to the pool
    have hkept : s.kept t = (s.threadData t).spareMeBag.reverse ++ o ::
        (bag ++ (s.threadData t).record.toList) := by
      simp [State.kept, ThreadData.kept, hbag]
    have hpos : (s.kept t)[(s.threadData t).spareMeBag.length]? = some o := by
      rw [hkept, List.getElem?_append_right (by simp)]
      simp
    refine ⟨_, .free t _ o hpos rfl rfl, fun u => ?_⟩
    have herase : (s.kept t).eraseIdx (s.threadData t).spareMeBag.length =
        ThreadData.kept { s.threadData t with retiredBag := bag } := by
      rw [hkept, List.eraseIdx_append_of_length_le (by simp)]
      simp [ThreadData.kept]
    rw [herase, ← own_kept s t _ (.send path)]
    exact .rfl
  | unspare t path o spare hr hpc hspare =>
    refine keep (same ?_) rfl
    simp [State.kept, ThreadData.kept, hspare]
  | unspareEnd t path hr hpc hspare => exact keep (same (ThreadData.kept_afterReclaim ..)) rfl
  | add t o hr hpc ho =>
    refine ⟨_, .keep rfl fun _ => .rfl, fun u => ?_⟩
    rw [own_kept]
    by_cases hu : u = t
    · -- the record goes from the end to the front of the bag
      subst hu
      rw [update_self]
      simp only [State.kept, ThreadData.kept, ThreadData.finishRetire, ho, Option.toList_none,
        Option.toList_some, List.append_nil, List.append_assoc]
      exact (List.perm_append_singleton ..).symm.append_left _
    · rw [update_of_ne hu]
  | _ => exact keep rfl rfl

/-! ### Rounds -/

/-- **Rounds.** Of a thread's signalling round. Who is signalled has a ping to handle; the thread that
signals is in no read phase itself. -/
theorem Step.round {s s' : State n Obj} {a : Actor n} (hphase : ∀ t, PhaseOk cfg s t (s.pc t))
    (hstep : Step cfg s a s') (i : Fin n) :
    Stage.Step (fun u => s'.pending u = true ∨ s'.restartable u = false) i (s.announcedTS i)
      (stageOf cfg (s.pc i)) (s'.announcedTS i) (stageOf cfg (s'.pc i)) := by
  -- the thread is another one than `i`
  have other : ∀ {t : Fin n} {q : Pc Obj} {pc : Fin n → Pc Obj} {ann : Fin n → ℕ}
      {P : Fin n → Prop}, ann = s.announcedTS → pc = update s.pc t q →
      stageOf cfg q = stageOf cfg (s.pc t) →
      Stage.Step P i (s.announcedTS i) (stageOf cfg (s.pc i)) (ann i) (stageOf cfg (pc i)) := by
    rintro t q _ _ P rfl rfl hst
    have hi : stageOf cfg (update s.pc t q i) = stageOf cfg (s.pc i) := by
      by_cases hit : i = t
      · subst hit
        rw [update_self, hst]
      · rw [update_of_ne hit]
    rw [hi]
    exact .stay ..
  have out : ∀ {t : Fin n} {p q : Pc Obj} {pc : Fin n → Pc Obj} {ann : Fin n → ℕ}
      {P : Fin n → Prop}, s.pc t = p → ann = s.announcedTS → pc = update s.pc t q →
      stageOf cfg q = stageOf cfg p →
      Stage.Step P i (s.announcedTS i) (stageOf cfg (s.pc i)) (ann i) (stageOf cfg (pc i)) :=
    fun hp ha hpc hst => other ha hpc (by rw [hp, hst])
  have reach : ∀ {t j : Fin n} {pc : Fin n → Pc Obj} {ann : Fin n → ℕ} {P : Fin n → Prop},
      s.pc t = .signal j.val → ann = s.announcedTS → pc = update s.pc t (.signal (j.val + 1)) →
      j = t ∨ P j →
      Stage.Step P i (s.announcedTS i) (stageOf cfg (s.pc i)) (ann i) (stageOf cfg (pc i)) := by
    rintro t j _ _ P hpc rfl rfl hj
    by_cases hi : i = t
    · subst hi
      rw [update_self, hpc]
      cases hv : cfg.variant with
      | nbr =>
        simp only [stageOf, hv, Variant.stage]
        exact .stay ..
      | nbrPlus =>
        simp only [stageOf, hv, Variant.stage]
        exact .signal _ j hj
    · rw [update_of_ne hi]
      exact .stay ..
  cases hstep with
  | link | unlink | saveNull | upgradeToWritePhase | endOp | handlerReturn => exact .stay ..
  -- `startOp` and the read phase are no part of a round
  | callStartOp t hr hpc hrs => exact out hpc rfl rfl rfl
  | startOp t hr hpc => exact out hpc rfl rfl rfl
  | callSave t o hr hpc hrs ho hfull => exact out hpc rfl rfl rfl
  | addSaved t o sz hr hpc => exact out hpc rfl rfl rfl
  | retireRequest t o hr hpc hrs ho hout =>
    refine out hpc rfl rfl ?_
    -- the counter and the stage of NBR+ change together, in the next step
    cases hv : cfg.variant with
    | nbr => simp [Variant.request, stageOf, hv, Variant.stage]
    | nbrPlus => rfl
  | retireEnterLoWm t o rand hr hpc hrs ho hout hpast hfirst => exact out hpc rfl rfl rfl
  | retireCheckLoWm t o hr hpc hrs ho hout hpast hfirst => exact out hpc rfl rfl rfl
  | retireAdd t o hr hpc hrs ho hout hpast => exact out hpc rfl rfl rfl
  | saveTS t j hr hpc => exact out hpc rfl rfl rfl
  | saveTSEnd t hr hpc => exact out hpc rfl rfl rfl
  | checkNext t j hr hpc hlt => exact out hpc rfl rfl rfl
  | checkHit t j hr hpc hge => exact out hpc rfl rfl rfl
  | checkEnd t hr hpc => exact out hpc rfl rfl rfl
  | announceStart t hr hpc =>
    -- the round of NBR+ begins with the counter
    obtain ⟨hres, hv⟩ := (hphase t).at hpc
    by_cases hi : i = t
    · subst hi
      show Stage.Step _ i _ _ (update s.announcedTS i _ i) (stageOf cfg (update s.pc i _ i))
      rw [update_self, update_self, hpc]
      simp only [stageOf, hv, Variant.stage]
      exact .begin _ (.inr hres)
    · show Stage.Step _ i _ _ (update s.announcedTS t _ i) (stageOf cfg (update s.pc t _ i))
      rw [update_of_ne hi, update_of_ne hi]
      exact .stay ..
  | signal t j hr hpc hj =>
    -- one more thread is signalled, or skipped
    exact reach hpc rfl rfl (.inr (.inl (update_self ..)))
  | signalSelf t hr hpc => exact reach hpc rfl rfl (.inl rfl)
  | signalEnd t hr hpc hv => exact out hpc rfl rfl (by simp [stageOf, hv, Variant.stage])
  | signalEndPlus t hr hpc hv => exact out hpc rfl rfl rfl
  | announceDone t hr hpc =>
    obtain ⟨-, hv⟩ := (hphase t).at hpc
    by_cases hi : i = t
    · subst hi
      show Stage.Step _ i _ _ (update s.announcedTS i _ i) (stageOf cfg (update s.pc i _ i))
      rw [update_self, update_self, hpc]
      simp only [stageOf, hv, Variant.stage]
      exact .finish _
    · show Stage.Step _ i _ _ (update s.announcedTS t _ i) (stageOf cfg (update s.pc t _ i))
      rw [update_of_ne hi, update_of_ne hi]
      exact .stay ..
  -- the reclamation is no part of a round
  | collect t j path hr hpc => exact out hpc rfl rfl rfl
  | collectGet t j path sz ix hr hpc hix => exact out hpc rfl rfl rfl
  | collectNext t j path sz ix hr hpc hix => exact out hpc rfl rfl rfl
  | collectEnd t hr hpc => exact out hpc rfl rfl rfl
  | collectEndLoWm t hr hpc => exact out hpc rfl rfl rfl
  | skipNewer t o bag hr hpc hbag hnew => exact out hpc rfl rfl rfl
  | skipEnd t hr hpc hold => exact out hpc rfl rfl rfl
  | sendSpare t path o bag hr hpc hbag hmem => exact out hpc rfl rfl rfl
  | sendFree t path o bag hr hpc hbag hmem => exact out hpc rfl rfl rfl
  | sendEnd t path hr hpc hbag => exact out hpc rfl rfl rfl
  | unspare t path o spare hr hpc hspare => exact out hpc rfl rfl rfl
  | unspareEnd t path hr hpc hspare => exact out hpc rfl rfl rfl
  | add t o hr hpc ho => exact out hpc rfl rfl rfl
  | handlerJump t hp hrs =>
    exact other rfl rfl ((hphase t).stage_out hrs).symm

/-! ### The steps of others -/

/-- What a thread has to itself is unchanged, but that it may have been thrown out of its read
phase. -/
structure Frame (s s' : State n Obj) (t : Fin n) : Prop where
  threadData : s'.threadData t = s.threadData t
  proposedHzptrs : s'.proposedHzptrs t = s.proposedHzptrs t
  writing : s'.writing t = s.writing t
  bagAtEntry : s'.bagAtEntry t = s.bagAtEntry t
  met : ∀ o, s.met t o = true → s'.met t o = true
  pc : (s'.pc t = s.pc t ∧ s'.restartable t = s.restartable t) ∨
    (s.restartable t = true ∧ s'.pc t = .idle)

theorem Step.frame {s s' : State n Obj} {a : Actor n} {t : Fin n} (hstep : Step cfg s a s')
    (ha : a ≠ .thread t) : Frame s s' t := by
  cases hstep with
  | link o h =>
    refine ⟨rfl, rfl, rfl, rfl, fun x hx => ?_, .inl ⟨rfl, rfl⟩⟩
    show update (s.met t) o true x = true
    by_cases hxo : x = o
    · rw [hxo, update_self]
    · rwa [update_of_ne hxo]
  | unlink | handlerReturn => exact ⟨rfl, rfl, rfl, rfl, fun _ => id, .inl ⟨rfl, rfl⟩⟩
  | saveNull => exact ⟨rfl, rfl, rfl, rfl, fun _ => id, .inl ⟨rfl, rfl⟩⟩
  | handlerJump u hp hrs =>
    refine ⟨rfl, rfl, rfl, rfl, fun _ => id, ?_⟩
    by_cases hu : t = u
    · subst hu
      exact .inr ⟨hrs, update_self ..⟩
    · exact .inl ⟨update_of_ne hu .., update_of_ne hu ..⟩
  | startOp u hr hpc =>
    have ht : t ≠ u := fun h => ha (congrArg Actor.thread h.symm)
    refine ⟨rfl, rfl, rfl, rfl, fun o ho => ?_, .inl ⟨update_of_ne ht .., update_of_ne ht ..⟩⟩
    show update s.met u _ t o = true
    rwa [update_of_ne ht]
  | _ =>
    have ht : t ≠ _ := fun h => ha (congrArg Actor.thread h.symm)
    refine ⟨?_, ?_, ?_, ?_, fun _ => id, .inl ⟨?_, ?_⟩⟩ <;>
      first | rfl | exact update_of_ne ht _ _

/-- What a step does to the bookkeeping of the rounds of `i` since thread `t` saved its
`announcedTS`. -/
structure Since (cfg : Config n) (s s' : State n Obj) (t i : Fin n) : Prop where
  begun : s.begunSince t i = true → s'.begunSince t i = true
  ended : s.endedSince t i = true → s'.endedSince t i = true
  ann : s'.announcedTS i = s.announcedTS i ∨
    (s'.announcedTS i = s.announcedTS i + 1 ∧ stageOf cfg (s.pc i) = .out ∧
      s'.begunSince t i = true) ∨
    (s'.announcedTS i = s.announcedTS i + 1 ∧ stageOf cfg (s.pc i) ≠ .out ∧
      (s.begunSince t i = true → s'.endedSince t i = true))

theorem Step.since {s s' : State n Obj} {a : Actor n} {t i : Fin n}
    (hphase : ∀ t, PhaseOk cfg s t (s.pc t)) (hstep : Step cfg s a s')
    (hi : a = .thread t → s.pc t ≠ .saveTS i.val) : Since cfg s s' t i := by
  cases hstep with
  | saveTS u j hr hpc =>
    -- another thread saves, or another counter is saved
    refine ⟨fun h => ?_, fun h => ?_, .inl rfl⟩
    · show update s.begunSince u _ t i = true
      by_cases hu : t = u
      · subst hu
        have hij : i ≠ j := fun hij => hi rfl (hij ▸ hpc)
        rw [update_self, update_of_ne hij]
        exact h
      · rwa [update_of_ne hu]
    · show update s.endedSince u _ t i = true
      by_cases hu : t = u
      · subst hu
        have hij : i ≠ j := fun hij => hi rfl (hij ▸ hpc)
        rw [update_self, update_of_ne hij]
        exact h
      · rwa [update_of_ne hu]
  | announceStart u hr hpc =>
    -- a round begins now: the other threads see it as begun since
    by_cases hu : i = u
    · subst hu
      have hbegun : update (s.begunSince t) i true i = true := update_self ..
      have hann : update s.announcedTS i (s.announcedTS i + 1) i = s.announcedTS i + 1 :=
        update_self ..
      exact ⟨fun _ => hbegun, id, .inr (.inl ⟨hann, by rw [hpc]; rfl, hbegun⟩)⟩
    · refine ⟨fun h => ?_, id, .inl (update_of_ne hu ..)⟩
      show update (s.begunSince t) u true i = true
      rwa [update_of_ne hu]
  | announceDone u hr hpc =>
    -- a round ends now, and it had begun since if it is seen so
    obtain ⟨-, hv⟩ := (hphase u).at hpc
    by_cases hu : i = u
    · subst hu
      have hended : update (s.endedSince t) i (s.endedSince t i || s.begunSince t i) i =
          (s.endedSince t i || s.begunSince t i) := update_self ..
      have hann : update s.announcedTS i (s.announcedTS i + 1) i = s.announcedTS i + 1 :=
        update_self ..
      refine ⟨id, fun h => hended.trans (by simp [h]), .inr (.inr ⟨hann, ?_, fun h =>
        hended.trans (by simp [h])⟩)⟩
      rw [hpc]
      simp [stageOf, hv, Variant.stage]
    · refine ⟨id, fun h => ?_, .inl (update_of_ne hu ..)⟩
      show update (s.endedSince t) u _ i = true
      rwa [update_of_ne hu]
  | _ => exact ⟨id, id, .inl rfl⟩

/-! ### The invariant -/

/-- What holds in every run. -/
structure Base (cfg : Config n) (s : State n Obj) : Prop where
  /-- The bags hold the retired records, each once. -/
  custody : Custody s.kept fun o => s.life o = .retired
  /-- Readers save what they have met. -/
  nz : s.nz.Inv
  /-- Each thread is in the phase that its point of the code says. -/
  phase : ∀ t, PhaseOk cfg s t (s.pc t)
  /-- A counter is odd while its thread signals. -/
  counts : ∀ i, Counts (s.announcedTS i) (stageOf cfg (s.pc i))
  /-- NBR has no low watermark. -/
  plain : cfg.variant = .nbr → ∀ t, (s.threadData t).firstLoEntryFlag = true

omit [DecidableEq Obj] in
theorem Base.initial : Base cfg (State.initial cfg Obj) where
  custody := Custody.nil _
  nz := ⟨nofun, nofun⟩
  phase _ := rfl
  counts _ := ⟨nofun, fun h => absurd rfl h⟩
  plain _ _ := rfl

omit [DecidableEq Obj] in
private theorem PhaseOk.intro {s : State n Obj} {t : Fin n} {p : Pc Obj} (hpc : s.pc t = p)
    (h : PhaseOk cfg s t p) : PhaseOk cfg s t (s.pc t) :=
  hpc ▸ h

omit [DecidableEq Obj] in
/-- A thread that may be restarted is not in `retire`. -/
private theorem PhaseOk.record_none {s : State n Obj} {t : Fin n} (h : PhaseOk cfg s t (s.pc t))
    (hr : s.restartable t = true) : (s.threadData t).record = none := by
  have away : s.restartable t = false → (s.threadData t).record = none := by
    intro hf
    rw [hr] at hf
    cases hf
  cases hpc : s.pc t with
  | idle => exact h.at hpc
  | startOp | addSaved o sz => exact (h.at hpc).1
  | announceStart | announceDone => exact away (h.at hpc).1
  | _ => exact away (h.at hpc)

omit [DecidableEq Obj] in
private theorem PhaseOk.frame {s s' : State n Obj} {t : Fin n} (h : PhaseOk cfg s t (s.pc t))
    (hf : Frame s s' t) : PhaseOk cfg s' t (s'.pc t) := by
  obtain ⟨htd, hhz, hw, -, hmet, ⟨hpc', hr⟩ | ⟨hr, hpc'⟩⟩ := hf
  · refine .intro hpc' ?_
    cases hpc : s.pc t with
    | idle => exact (congrArg _ htd).trans (h.at hpc)
    | startOp =>
      obtain ⟨hrec, hrs, hwr, hsize⟩ := h.at hpc
      exact ⟨by rw [htd, hrec], by rw [hr, hrs], by rw [hw, hwr], by rw [hhz, hsize]⟩
    | addSaved o sz =>
      obtain ⟨hrec, hrs, ho, hsize, hdata⟩ := h.at hpc
      exact ⟨by rw [htd, hrec], by rw [hr, hrs], hmet o ho, by rw [hhz, hsize],
        by rw [hhz, hdata]⟩
    | announceStart | announceDone => exact ⟨hr.trans (h.at hpc).1, (h.at hpc).2⟩
    | _ => exact hr.trans (h.at hpc)
  · exact .intro hpc' ((congrArg _ htd).trans (h.record_none hr))

/-- The step of the thread itself leads to the phase that its point of the code says. -/
private theorem Step.phase_self {s s' : State n Obj} {t : Fin n}
    (h : PhaseOk cfg s t (s.pc t)) (hstep : Step cfg s (.thread t) s') :
    PhaseOk cfg s' t (s'.pc t) := by
  cases hstep with
  | callStartOp _ hr hpc hrs =>
    -- `startOp` runs unrestartable
    have hsize : (update s.proposedHzptrs t { s.proposedHzptrs t with size := 0 } t).size = 0 := by
      rw [update_self]
    exact .intro (update_self ..) ⟨h.at hpc, hrs, update_self .., hsize⟩
  | startOp _ hr hpc => exact .intro (update_self ..) (h.at hpc).1
  | saveNull _ hr hpc hrs => exact h
  | callSave _ o hr hpc hrs ho hfull =>
    -- a save runs inside the read phase
    refine .intro (update_self ..) ⟨h.at hpc, hrs, ho, ?_, ?_⟩
    · show (update s.proposedHzptrs t _ t).size = _
      rw [update_self]
    · show (update s.proposedHzptrs t _ t).data _ = _
      rw [update_self]
      exact update_self ..
  | addSaved _ o sz hr hpc => exact .intro (update_self ..) (h.at hpc).1
  | upgradeToWritePhase _ hr hpc hrs => exact .intro hpc (h.at hpc)
  | endOp _ hr hpc => exact .intro hpc (h.at hpc)
  | retireRequest _ o hr hpc hrs ho hout =>
    -- `retire` runs outside the read phase
    refine .intro (update_self ..) ?_
    cases hv : cfg.variant with
    | nbr => exact hrs
    | nbrPlus => exact ⟨hrs, hv⟩
  | retireEnterLoWm _ o rand hr hpc hrs ho hout hpast hfirst => exact .intro (update_self ..) hrs
  | retireCheckLoWm _ o hr hpc hrs ho hout hpast hfirst => exact .intro (update_self ..) hrs
  | retireAdd _ o hr hpc hrs ho hout hpast => exact .intro (update_self ..) hrs
  | announceStart _ hr hpc => exact .intro (update_self ..) (h.at hpc).1
  | signalEndPlus _ hr hpc hv => exact .intro (update_self ..) ⟨h.at hpc, hv⟩
  | announceDone _ hr hpc => exact .intro (update_self ..) (h.at hpc).1
  | add _ o hr hpc ho =>
    -- so does an allocation
    refine .intro (update_self ..) ?_
    show (update s.threadData t _ t).record = none
    rw [update_self]
    rfl
  | saveTS _ i hr hpc | saveTSEnd _ hr hpc | checkNext _ i hr hpc hlt | checkHit _ i hr hpc hge
  | checkEnd _ hr hpc | signal _ i hr hpc hi | signalSelf _ hr hpc | signalEnd _ hr hpc hv
  | collect _ i path hr hpc | collectGet _ i path sz ix hr hpc hix
  | collectNext _ i path sz ix hr hpc hix | collectEnd _ hr hpc | collectEndLoWm _ hr hpc
  | skipNewer _ o bag hr hpc hbag hnew | skipEnd _ hr hpc hold
  | sendSpare _ path o bag hr hpc hbag hmem | sendFree _ path o bag hr hpc hbag hmem
  | sendEnd _ path hr hpc hbag | unspare _ path o spare hr hpc hspare
  | unspareEnd _ path hr hpc hspare =>
    -- the rest of `retire` stays where it is
    exact .intro (update_self ..) (h.at hpc)

/-- In NBR no step enters the low watermark. -/
private theorem Step.plain {s s' : State n Obj} {a : Actor n} (hstep : Step cfg s a s')
    (hv : cfg.variant = .nbr) (h : ∀ t, (s.threadData t).firstLoEntryFlag = true) (t : Fin n) :
    (s'.threadData t).firstLoEntryFlag = true := by
  have own : ∀ {u : Fin n} {d : ThreadData n Obj},
      d.firstLoEntryFlag = (s.threadData u).firstLoEntryFlag →
      (update s.threadData u d t).firstLoEntryFlag = true := by
    intro u d hd
    by_cases hu : t = u
    · rw [hu, update_self, hd]
      exact h u
    · rw [update_of_ne hu]
      exact h t
  cases hstep with
  | retireEnterLoWm u o rand hr hpc hrs ho hout hpast hfirst =>
    simp [ThreadData.isPastLoWatermark, hv] at hpast
  | retireRequest | retireCheckLoWm | retireAdd | saveTS | checkHit | signalEnd | announceDone
  | collectGet | skipNewer | sendSpare | sendFree | unspare | add => exact own rfl
  | unspareEnd u path hr hpc hspare =>
    refine own ?_
    rw [hv]
    rfl
  | _ => exact h t

theorem Base.step {s s' : State n Obj} {a : Actor n} (hB : Base cfg s)
    (hstep : Step cfg s a s') : Base cfg s' where
  custody := by
    obtain ⟨lists, hcust, hperm⟩ := hstep.custody hB.phase
    exact (hB.custody.step hcust).perm hperm
  nz := hB.nz.step (hstep.nz hB.phase)
  phase := by
    intro t
    by_cases ha : a = .thread t
    · subst ha
      exact hstep.phase_self (hB.phase t)
    · exact (hB.phase t).frame (hstep.frame ha)
  counts i := (hB.counts i).step (hstep.round hB.phase i)
  plain hv t := hstep.plain hv (hB.plain hv) t

end

end Nbr
end PopSetbench

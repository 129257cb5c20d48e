import PopSetbench.Library.Interval
import PopSetbench.Reclaim.HazardEraPopSchedule

/-!
# HazardEraPOP: how long a thread with a full list waits

`isOutOfPatience` tests `retires_since_HiWm % 512`, as if the counter counted the calls of
`retire` since the last attempt at the high watermark. It is incremented in one place only,
after an attempt that has freed too little, inside the branch that the test guards. So after one
such attempt it is one for ever, and the thread never pings anybody again.

* `Waits` — the calls of `retire` that have found the list full in a row without an attempt,
  carried along with a run.
* `patience_kept` — as long as every attempt brings the list below the threshold, a call that
  finds the list full is an attempt.
* `Waits.length_le` — in any run the list exceeds the threshold by no more than the calls that
  waited: this is how the schedule of `patience_lost` shows that they do.
-/

namespace PopSetbench
namespace HazardEraPop

open Function

variable {n : ℕ} {Obj Loc : Type}

/-! ### Counting the calls that wait -/

/-- The thread is about to sample the counters: `retire` attempts the high watermark. -/
def Pc.attempts : Pc Obj Loc → Bool
  | .sample 0 => true
  | _ => false

/-- The calls of `retire` by thread `t` since its list is full and it has attempted the high
watermark, after a step from `s` to `s'`. A call is the step that makes the list longer. -/
def waitedAfter (cfg : Config) (s s' : State n Obj Loc) (t : Fin n) (waited : ℕ) : ℕ :=
  if (s'.retired t).length < cfg.bagCapacityThreshold then 0
  else if (s.retired t).length < (s'.retired t).length then
    if (s'.pc t).attempts then 0 else waited + 1
  else waited

variable [DecidableEq Obj] [DecidableEq Loc]

/-- The reclaimer with the calls that have waited. -/
def Waits (cfg : Config) : Lts (State n Obj Loc × (Fin n → ℕ)) (Actor n) :=
  (system cfg).observed (fun s _ s' waited t => waitedAfter cfg s s' t (waited t)) fun _ => 0

/-- An attempt that ends has brought the list below the threshold. -/
def Frees (cfg : Config) (s : State n Obj Loc) (a : Actor n) : Prop :=
  ∀ t pos m, a = .thread t → s.pc t = .scan .hiWm pos m → s.scanStops t pos m →
    (s.retired t).length < cfg.bagCapacityThreshold

variable {cfg : Config} {s s' : State n Obj Loc} {a : Actor n} {t : Fin n}

/-! ### What one step does to a list -/

/-- The thread is between an attempt and the end of its scan. -/
def Pc.tries : Pc Obj Loc → Bool
  | .sample _ => true
  | .publish _ => true
  | .ping _ => true
  | .saveOwn => true
  | .confirm _ => true
  | .snapshot .hiWm _ => true
  | .scan .hiWm _ _ => true
  | _ => false

/-- What a step means for the patience of thread `t`. -/
inductive Patience (cfg : Config) (s s' : State n Obj Loc) (a : Actor n) (t : Fin n) : Prop
  /-- The thread attempts the high watermark. -/
  | attempt (hfull : cfg.bagCapacityThreshold ≤ (s.retired t).length + 1)
      (hsince : s.retiresSinceHiWm t % 512 = 0) (hpc : (s.pc t).tries = false)
      (hlen : (s'.retired t).length = (s.retired t).length + 1)
      (hkeep : s'.retiresSinceHiWm t = s.retiresSinceHiWm t) (hpc' : (s'.pc t).tries = true)
      (hatt : (s'.pc t).attempts = true)
  /-- The thread pushes an object without an attempt. -/
  | wait (hout : s.isOutOfPatience cfg t ((s.retired t).length + 1) = false)
      (hpc : (s.pc t).tries = false) (hlen : (s'.retired t).length = (s.retired t).length + 1)
      (hkeep : s'.retiresSinceHiWm t = s.retiresSinceHiWm t) (hpc' : (s'.pc t).tries = false)
      (hatt : (s'.pc t).attempts = false)
  /-- An attempt ends. -/
  | finish (pos m : ℕ) (ha : a = .thread t) (hpc : s.pc t = .scan .hiWm pos m)
      (hstop : s.scanStops t pos m) (hlen : (s'.retired t).length = (s.retired t).length)
      (hsince : s'.retiresSinceHiWm t =
        if (s.retired t).length < cfg.bagCapacityThreshold then 0 else s.retiresSinceHiWm t + 1)
      (hpc' : (s'.pc t).tries = false)
  /-- The list gets no longer. -/
  | stay (hlen : (s'.retired t).length ≤ (s.retired t).length)
      (hkeep : s'.retiresSinceHiWm t = s.retiresSinceHiWm t)
      (hpc : (s'.pc t).tries = (s.pc t).tries)

omit [DecidableEq Obj] [DecidableEq Loc] in
/-- A step that leaves the list of `t` alone and does not take it into or out of an attempt. -/
private theorem Patience.of_eq (hret : s'.retired t = s.retired t)
    (hkeep : s'.retiresSinceHiWm t = s.retiresSinceHiWm t)
    (hpc : (s'.pc t).tries = (s.pc t).tries) : Patience cfg s s' a t :=
  .stay (congrArg List.length hret).le hkeep hpc

/-- **One step.** -/
theorem Step.patience (hstep : Step cfg s a s') (t : Fin n) : Patience cfg s s' a t := by
  by_cases ha : a = .thread t
  · subst ha
    -- most steps of the thread leave the list and the counter alone
    have own : ∀ {p q : Pc Obj Loc}, s.pc t = p → s'.pc t = q → q.tries = p.tries →
        (s'.pc t).tries = (s.pc t).tries := by
      intro p q hp hq h
      rw [hp, hq, h]
    have push : ∀ o, (update s.retired t (s.retired t ++ [⟨o, s.birthEpoch o, s.epoch⟩]) t).length =
        (s.retired t).length + 1 := by
      intro o
      rw [update_self, List.length_append, List.length_singleton]
    have idle : s.pc t = .idle → (s.pc t).tries = false := fun h => by
      rw [h]
      rfl
    have atPc : ∀ {q : Pc Obj Loc} {f : Pc Obj Loc → Bool} {b : Bool}, s'.pc t = q → f q = b →
        f (s'.pc t) = b := by
      intro q f b hq hf
      rw [hq, hf]
    cases hstep with
    -- outside `retire` the counter is not read
    | alloc _ hr hpc hmod => exact .of_eq rfl rfl rfl
    | allocBump _ hr hpc hmod => exact .of_eq rfl rfl (own hpc (update_self ..) rfl)
    | bumpEpoch _ hr hpc => exact .of_eq rfl rfl (own hpc (update_self ..) rfl)
    | callRead _ idx l hr hpc => exact .of_eq rfl rfl (own hpc (update_self ..) rfl)
    | readLoad _ idx l prev hr hpc => exact .of_eq rfl rfl (own hpc (update_self ..) rfl)
    | readReturn _ idx l prev ptr hr hpc hcurr =>
      exact .of_eq rfl rfl (own hpc (update_self ..) rfl)
    | readMove _ idx l prev ptr hr hpc hcurr =>
      exact .of_eq rfl rfl (own hpc (update_self ..) rfl)
    | readStore _ idx l curr hr hpc => exact .of_eq rfl rfl (own hpc (update_self ..) rfl)
    | callEndOp _ hr hpc => exact .of_eq rfl rfl (own hpc (update_self ..) rfl)
    | endOp _ e hr hpc => exact .of_eq rfl rfl (own hpc (update_self ..) rfl)
    | endOpReturn _ hr hpc => exact .of_eq rfl rfl (own hpc (update_self ..) rfl)
    | retireHiWm _ o hr hpc ho hout =>
      -- a call of `retire` looks at the counter, and may try
      simp only [State.isOutOfPatience, Bool.and_eq_true, decide_eq_true_eq, beq_iff_eq] at hout
      exact .attempt hout.1 hout.2 (idle hpc) (push o) rfl
        (atPc (f := Pc.tries) (update_self ..) rfl) (atPc (f := Pc.attempts) (update_self ..) rfl)
    | retireEnterLoWm _ o rand hr hpc ho hout hpast hfirst =>
      exact .wait hout (idle hpc) (push o) rfl (atPc (f := Pc.tries) (update_self ..) rfl)
        (atPc (f := Pc.attempts) (update_self ..) rfl)
    | retireLoWm _ o hr hpc ho hout hpast hfirst =>
      exact .wait hout (idle hpc) (push o) rfl (atPc (f := Pc.tries) (update_self ..) rfl)
        (atPc (f := Pc.attempts) (update_self ..) rfl)
    | retireOnly _ o hr hpc ho hout hpast =>
      exact .wait hout (idle hpc) (push o) rfl (atPc (f := Pc.tries) (update_self ..) rfl)
        (atPc (f := Pc.attempts) (update_self ..) rfl)
    | sample _ i hr hpc => exact .of_eq rfl rfl (own hpc (update_self ..) rfl)
    | sampleEnd _ hr hpc => exact .of_eq rfl rfl (own hpc (update_self ..) rfl)
    | publish _ e hr hpc => exact .of_eq rfl rfl (own hpc (update_self ..) rfl)
    | publishEnd _ hr hpc => exact .of_eq rfl rfl (own hpc (update_self ..) rfl)
    | ping _ i hr hpc hi => exact .of_eq rfl rfl (own hpc (update_self ..) rfl)
    | pingSelf _ hr hpc => exact .of_eq rfl rfl (own hpc (update_self ..) rfl)
    | pingEnd _ hr hpc => exact .of_eq rfl rfl (own hpc (update_self ..) rfl)
    | saveOwn _ hr hpc => exact .of_eq rfl rfl (own hpc (update_self ..) rfl)
    | confirm _ i hr hpc => exact .of_eq rfl rfl (own hpc (update_self ..) rfl)
    | confirmEnd _ hr hpc => exact .of_eq rfl rfl (own hpc (update_self ..) rfl)
    | saveEpoch _ hr hpc => exact .of_eq rfl rfl (own hpc (update_self ..) rfl)
    | checkHit _ hr hpc hne => exact .of_eq rfl rfl (own hpc (update_self ..) rfl)
    | checkMiss _ hr hpc heq => exact .of_eq rfl rfl (own hpc (update_self ..) rfl)
    | snapshot _ u e path hr hpc =>
      -- the copy and the scan belong to the attempt that has begun
      refine .of_eq rfl rfl (own hpc (update_self ..) ?_)
      cases path <;> rfl
    | snapshotEnd _ path hr hpc =>
      refine .of_eq rfl rfl (own hpc (update_self ..) ?_)
      cases path <;> rfl
    | scanKeep _ path pos m res hr hpc hgo ho hkeep =>
      refine .of_eq rfl rfl (own hpc (update_self ..) ?_)
      cases path <;> rfl
    | scanFree _ path pos m res hr hpc hgo ho hfree =>
      refine .stay ?_ rfl (own hpc (update_self ..) ?_)
      · change (update s.retired t ((s.retired t).eraseIdx pos) t).length ≤ (s.retired t).length
        rw [update_self]
        exact List.length_eraseIdx_le ..
      · cases path <;> rfl
    | scanEndHiWm _ pos m hr hpc hstop =>
      -- the attempt ends: `++retires_since_HiWm` depends on what it has freed
      exact .finish pos m rfl hpc hstop rfl (update_self ..)
        (atPc (f := Pc.tries) (update_self ..) rfl)
    | scanEndLoWm _ pos m hr hpc hstop => exact .of_eq rfl rfl (own hpc (update_self ..) rfl)
  · -- a step of somebody else
    cases hstep with
    | write | link | unlink | handlerEnter | handlerPublish | handlerReturn =>
      exact .of_eq rfl rfl rfl
    | _ =>
      have ht : t ≠ _ := fun h => ha (congrArg Actor.thread h.symm)
      refine .of_eq ?_ ?_ (congrArg Pc.tries ?_) <;> first | rfl | exact update_of_ne ht _ _

/-! ### Where every attempt frees enough -/

/-- **The counter stays at zero.** -/
theorem retiresSinceHiWm_eq_zero (h : (system cfg).ReachableBy (Frees cfg) s) (t : Fin n) :
    s.retiresSinceHiWm t = 0 := by
  refine h.invariant (P := fun s => s.retiresSinceHiWm t = 0) ?_ fun s a s' _ ih hok hstep => ?_
  · rintro _ rfl
    rfl
  · cases hstep.patience t with
    | attempt hfull hsince hpc hlen hkeep hpc' hatt => exact hkeep.trans ih
    | wait hout hpc hlen hkeep hpc' hatt => exact hkeep.trans ih
    | finish pos m ha hpc hstop hlen hsince hpc' =>
      rw [hsince, if_pos (hok t pos m ha hpc hstop)]
    | stay hlen hkeep hpc => exact hkeep.trans ih

/-- No call waits. -/
private theorem waited_eq_zero {x : State n Obj Loc × (Fin n → ℕ)}
    (h : (Waits cfg).ReachableBy (fun x a => Frees cfg x.1 a) x) (t : Fin n) : x.2 t = 0 := by
  refine h.invariant (P := fun x => x.2 t = 0) ?_ ?_
  · rintro x ⟨-, hx⟩
    rw [hx]
  · rintro x a y hr ih hok ⟨hstep, hy⟩
    have hzero := retiresSinceHiWm_eq_zero hr.of_observed t
    rw [hy]
    change waitedAfter cfg x.1 y.1 t (x.2 t) = 0
    unfold waitedAfter
    cases hstep.patience t with
    | attempt hfull hsince hpc hlen hkeep hpc' hatt =>
      rw [hatt]
      simp [ih]
    | wait hout hpc hlen hkeep hpc' hatt =>
      -- the counter is zero, so the list was not full
      have hlt : (y.1.retired t).length < cfg.bagCapacityThreshold := by
        simp only [State.isOutOfPatience, hzero, Nat.zero_mod, beq_self_eq_true, Bool.and_true,
          decide_eq_false_iff_not, not_le] at hout
        rw [hlen]
        exact hout
      rw [if_pos hlt]
    | finish pos m ha hpc hstop hlen hsince hpc' => simp [hlen, ih]
    | stay hlen hkeep hpc => simp [Nat.not_lt_of_ge hlen, ih]

/-- **A thread with a full list keeps trying.** In every run in which every attempt at the high
watermark brings the list below the threshold, no thread calls `retire` 512 times in a row on a
full list without an attempt. -/
theorem patience_kept {x : State n Obj Loc × (Fin n → ℕ)}
    (h : (Waits cfg).ReachableBy (fun x a => Frees cfg x.1 a) x) (t : Fin n) : x.2 t < 512 := by
  rw [waited_eq_zero h t]
  exact Nat.succ_pos _

omit [DecidableEq Obj] [DecidableEq Loc] in
/-- Only the end of a scan is asked anything. -/
private theorem Frees.of_pc {p : Pc Obj Loc} (hpc : s.pc t = p)
    (hp : ∀ pos m, p ≠ .scan .hiWm pos m) : Frees cfg s (.thread t) := by
  rintro _ pos m ⟨rfl⟩ hscan
  exact absurd (hpc.symm.trans hscan) (hp pos m)

/-- With one thread and a threshold of one, every call finds the list full: the first attempt
frees object `0`, and the second call is an attempt again. -/
theorem patience_kept_twice :
    ∃ x : State 1 ℕ Unit × (Fin 1 → ℕ), (x.1.retired 0).length = 1 ∧ x.1.pc 0 = .sample 0 ∧
      x.2 0 < 512 := by
  let cfg : Config := ⟨1, 30⟩
  have hR : (system cfg).ReachableBy (Frees cfg) (State.initial 1 ℕ Unit) := .init rfl
  have hR := hR.step (.link _ 0 1 rfl le_rfl) nofun
  have hR := hR.step (.unlink _ 0 rfl) nofun
  have hR := hR.step (.retireHiWm _ 0 0 ⟨rfl, rfl⟩ rfl rfl rfl) (.of_pc rfl nofun)
  have hR := hR.step (.sample _ 0 0 ⟨rfl, rfl⟩ rfl) (.of_pc rfl nofun)
  have hR := hR.step (.sampleEnd _ 0 ⟨rfl, rfl⟩ rfl) (.of_pc rfl nofun)
  have hR := hR.step (.publish _ 0 0 ⟨rfl, rfl⟩ rfl) (.of_pc rfl nofun)
  have hR := hR.step (.publish _ 0 1 ⟨rfl, rfl⟩ rfl) (.of_pc rfl nofun)
  have hR := hR.step (.publish _ 0 2 ⟨rfl, rfl⟩ rfl) (.of_pc rfl nofun)
  have hR := hR.step (.publishEnd _ 0 ⟨rfl, rfl⟩ rfl) (.of_pc rfl nofun)
  have hR := hR.step (.pingSelf _ 0 ⟨rfl, rfl⟩ rfl) (.of_pc rfl nofun)
  have hR := hR.step (.pingEnd _ 0 ⟨rfl, rfl⟩ rfl) (.of_pc rfl nofun)
  have hR := hR.step (.saveOwn _ 0 ⟨rfl, rfl⟩ rfl) (.of_pc rfl nofun)
  have hR := hR.step (.confirm _ 0 0 ⟨rfl, rfl⟩ rfl) (.of_pc rfl nofun)
  have hR := hR.step (.confirmEnd _ 0 ⟨rfl, rfl⟩ rfl) (.of_pc rfl nofun)
  have hR := hR.step (.snapshot _ 0 0 0 .hiWm ⟨rfl, rfl⟩ rfl) (.of_pc rfl nofun)
  have hR := hR.step (.snapshot _ 0 0 1 .hiWm ⟨rfl, rfl⟩ rfl) (.of_pc rfl nofun)
  have hR := hR.step (.snapshot _ 0 0 2 .hiWm ⟨rfl, rfl⟩ rfl) (.of_pc rfl nofun)
  have hR := hR.step (.snapshotEnd _ 0 .hiWm ⟨rfl, rfl⟩ rfl) (.of_pc rfl nofun)
  -- nothing is reserved, so object `0` is freed
  have hR := hR.step (.scanFree _ 0 .hiWm 0 0 ⟨0, 1, 1⟩ ⟨rfl, rfl⟩ rfl (by decide) rfl
    (by decide)) fun t pos m ha hpc hstop => by
      obtain rfl := Actor.thread.inj ha
      cases hpc
      exact absurd hstop (by decide)
  have hR := hR.step (.scanEndHiWm _ 0 0 1 ⟨rfl, rfl⟩ rfl (by decide))
    fun t pos m ha hpc hstop => by
      obtain rfl := Actor.thread.inj ha
      decide
  have hR := hR.step (.link _ 1 1 rfl le_rfl) nofun
  have hR := hR.step (.unlink _ 1 rfl) nofun
  have hR := hR.step (.retireHiWm _ 0 1 ⟨rfl, rfl⟩ rfl rfl rfl) (.of_pc rfl nofun)
  obtain ⟨waited, hR⟩ := hR.exists_observed
  exact ⟨_, rfl, rfl, patience_kept hR 0⟩

/-! ### Where an attempt frees too little -/

/-- What a thread's counter says about its list. -/
inductive Counted (cfg : Config) (s : State n Obj Loc) (t : Fin n) (waited : ℕ) : Prop
  /-- No attempt has failed. -/
  | zero (hzero : s.retiresSinceHiWm t = 0)
      (hlt : (s.pc t).tries = false → (s.retired t).length < cfg.bagCapacityThreshold)
      (hle : (s.retired t).length ≤ cfg.bagCapacityThreshold)
  /-- One has, and there is no further one. -/
  | one (hone : s.retiresSinceHiWm t = 1) (hpc : (s.pc t).tries = false)
      (hle : (s.retired t).length ≤ cfg.bagCapacityThreshold + waited)

/-- What is known of the calls that waited is kept by a step. -/
theorem Counted.step {waited : ℕ} (hstep : Step cfg s a s') (h : Counted cfg s t waited) :
    Counted cfg s' t (waitedAfter cfg s s' t waited) := by
  cases hstep.patience t with
  | attempt hfull hsince hpc hlen hkeep hpc' hatt =>
    cases h with
    | zero hzero hlt hle =>
      have := hlt hpc
      exact .zero (hkeep.trans hzero) (fun hf => absurd (hpc'.symm.trans hf) (by simp)) (by omega)
    | one hone hpc₁ hle =>
      -- the counter is one, so there is no attempt
      rw [hone] at hsince
      exact absurd hsince (by decide)
  | wait hout hpc hlen hkeep hpc' hatt =>
    -- a call that waits makes the counter one greater
    cases h with
    | zero hzero hlt hle =>
      simp only [State.isOutOfPatience, hzero, Nat.zero_mod, beq_self_eq_true, Bool.and_true,
        decide_eq_false_iff_not, not_le] at hout
      exact .zero (hkeep.trans hzero) (fun _ => by omega) (by omega)
    | one hone hpc₁ hle =>
      refine .one (hkeep.trans hone) hpc' ?_
      unfold waitedAfter
      rw [hatt]
      split
      · omega
      · rw [if_pos (by omega), if_neg (by simp)]
        omega
  | finish pos m ha hpc hstop hlen hsince hpc' =>
    -- the attempt has ended, and the counter is zero or one
    cases h with
    | zero hzero hlt hle =>
      rw [hzero] at hsince
      split at hsince
      · rename_i hshort
        exact .zero hsince (fun _ => hlen ▸ hshort) (hlen ▸ hle)
      · exact .one hsince hpc' (hlen ▸ hle.trans (Nat.le_add_right ..))
    | one hone hpc₁ hle =>
      rw [hpc] at hpc₁
      cases hpc₁
  | stay hlen hkeep hpc =>
    -- nothing of this happens
    cases h with
    | zero hzero hlt hle =>
      exact .zero (hkeep.trans hzero) (fun hf => hlen.trans_lt (hlt (hpc.symm.trans hf)))
        (hlen.trans hle)
    | one hone hpc₁ hle =>
      refine .one (hkeep.trans hone) (hpc.trans hpc₁) ?_
      unfold waitedAfter
      split
      · omega
      · rw [if_neg (Nat.not_lt_of_ge hlen)]
        exact hlen.trans hle

/-- **A full list grows by the calls that wait.** -/
theorem Waits.length_le (hcap : 0 < cfg.bagCapacityThreshold) {x : State n Obj Loc × (Fin n → ℕ)}
    (h : (Waits cfg).Reachable x) (t : Fin n) :
    (x.1.retired t).length ≤ cfg.bagCapacityThreshold + x.2 t := by
  have hcounted : Counted cfg x.1 t (x.2 t) := by
    refine h.invariant (P := fun x => Counted cfg x.1 t (x.2 t)) ?_ ?_
    · rintro x ⟨hi, -⟩
      have hinit : x.1 = State.initial n Obj Loc := hi
      rw [hinit]
      exact .zero rfl (fun _ => hcap) (Nat.zero_le _)
    · rintro x a y _ ih _ ⟨hstep, hy⟩
      rw [hy]
      exact ih.step hstep
  cases hcounted with
  | zero hzero hlt hle => exact hle.trans (Nat.le_add_right ..)
  | one hone hpc hle => exact hle

section Schedule

/-- The schedule meets any condition. -/
private theorem anyStep : ∀ (s : State 2 ℕ Unit) (a : Actor 2), Plain s a →
    (fun _ _ => True : State 2 ℕ Unit → Actor 2 → Prop) s a :=
  fun _ _ _ => trivial

/-- `k` objects have been allocated and linked, and nothing else has happened. -/
private structure Filled (s : State 2 ℕ Unit) (k : ℕ) : Prop where
  pc : ∀ u, s.pc u = .idle
  runs : ∀ u, s.Runs u
  epoch : 0 < s.epoch
  birthEpoch : ∀ o, s.birthEpoch o ≤ s.epoch
  linked : ∀ o < k, s.life o = .linked
  pooled : ∀ o, k ≤ o → s.life o = .pooled
  localReservedEpoch : ∀ u e, s.localReservedEpoch u e = 0
  reservations : ∀ u e, s.reservations u e = 0
  retired : ∀ u, s.retired u = []
  retiresSinceHiWm : ∀ u, s.retiresSinceHiWm u = 0
  saved : ∀ u, s.savedPublishingEpoch u = s.publishingEpoch

/-- Thread `0` counts an allocation. -/
private theorem Filled.alloc {cfg : Config} {s : State 2 ℕ Unit} {k : ℕ} (h : Filled s k)
    (hR : (system cfg).Reachable s) : ∃ s', (system cfg).Reachable s' ∧ Filled s' k := by
  by_cases hmod : (s.allocCounters 0 + 1) % (cfg.epochFreq * 2) = 0
  · have hR₁ := hR.step (.allocBump s 0 (h.runs 0) (h.pc 0) hmod)
    have hR₂ := hR₁.step (.bumpEpoch _ 0 (h.runs 0) rfl)
    refine ⟨_, hR₂, ⟨fun u => ?_, h.runs, Nat.succ_pos _, fun o => Nat.le_succ_of_le (h.birthEpoch o),
      h.linked, h.pooled, h.localReservedEpoch, h.reservations, h.retired, h.retiresSinceHiWm,
      h.saved⟩⟩
    by_cases hu : u = 0
    · subst hu
      rfl
    · simpa [State.goto, update_of_ne hu] using h.pc u
  · exact ⟨_, hR.step (.alloc s 0 (h.runs 0) (h.pc 0) hmod), ⟨h.pc, h.runs, h.epoch, h.birthEpoch,
      h.linked, h.pooled, h.localReservedEpoch, h.reservations, h.retired, h.retiresSinceHiWm,
      h.saved⟩⟩

private theorem exists_filled (cfg : Config) (k : ℕ) :
    ∃ s, (system cfg).Reachable s ∧ Filled s k := by
  induction k with
  | zero =>
    exact ⟨State.initial 2 ℕ Unit, .init rfl, ⟨fun _ => rfl, fun _ => ⟨rfl, rfl⟩, Nat.one_pos,
      fun _ => Nat.zero_le _, fun _ h => absurd h (Nat.not_lt_zero _), fun _ _ => rfl,
      fun _ _ => rfl, fun _ _ => rfl, fun _ => rfl, fun _ => rfl, fun _ => rfl⟩⟩
  | succ k ih =>
    obtain ⟨s, hR, h⟩ := ih
    obtain ⟨s', hR', h'⟩ := h.alloc hR
    refine ⟨_, hR'.step (.link s' k s'.epoch (h'.pooled k le_rfl) le_rfl), ⟨h'.pc, h'.runs,
      h'.epoch, fun o => ?_, fun o ho => ?_, fun o ho => ?_, h'.localReservedEpoch,
      h'.reservations, h'.retired, h'.retiresSinceHiWm, h'.saved⟩⟩
    · by_cases hok : o = k
      · subst hok
        exact (update_self ..).le
      · change update s'.birthEpoch k s'.epoch o ≤ s'.epoch
        rw [update_of_ne hok]
        exact h'.birthEpoch o
    · by_cases hok : o = k
      · subst hok
        exact update_self ..
      · exact (update_of_ne hok ..).trans (h'.linked o (by omega))
    · have hne : o ≠ k := by omega
      exact (update_of_ne hne ..).trans (h'.pooled o (by omega))

/-- Thread `1` has reserved the current epoch and goes no further; thread `0` has retired the
first `c` of `k` objects, all of which were alive in that epoch. -/
private structure Stalled (s : State 2 ℕ Unit) (k c : ℕ) : Prop where
  pc : ∀ u, s.pc u = .idle
  runs : ∀ u, s.Runs u
  epoch : 0 < s.epoch
  birthEpoch : ∀ o, s.birthEpoch o ≤ s.epoch
  linked : ∀ o, c ≤ o → o < k → s.life o = .linked
  reader : s.localReservedEpoch 1 0 = s.epoch
  localReservedEpoch : ∀ e, s.localReservedEpoch 0 e = 0
  reservations : ∀ e, s.reservations 0 e = 0
  length : (s.retired 0).length = c
  spans : ∀ res ∈ s.retired 0, res.birthEpoch ≤ s.epoch ∧ s.epoch ≤ res.retireEpoch
  saved : s.savedPublishingEpoch 0 = s.publishingEpoch

/-- Thread `1` reads object `0`. -/
private theorem Filled.read {cfg : Config} {s : State 2 ℕ Unit} {k : ℕ} (h : Filled s k)
    (hR : (system cfg).Reachable s) :
    ∃ s', (system cfg).Reachable s' ∧ Stalled s' k 0 ∧ s'.retiresSinceHiWm 0 = 0 := by
  have hR₁ := hR.step (.write s () ⟨some 0, 0⟩)
  have hR₂ := hR₁.step (.callRead _ 1 0 () (h.runs 1) (h.pc 1))
  -- the epoch is not reserved yet
  have hR₃ := hR₂.step (.readLoad _ 1 0 () _ (h.runs 1) rfl)
  have hne : s.epoch ≠ s.localReservedEpoch 1 0 := by
    rw [h.localReservedEpoch]
    exact Nat.ne_of_gt h.epoch
  have hR₄ := hR₃.step (.readMove _ 1 0 () _ _ (h.runs 1) rfl hne)
  have hR₅ := hR₄.step (.readStore _ 1 0 () _ (h.runs 1) rfl)
  have hR₆ := hR₅.step (.readLoad _ 1 0 () _ (h.runs 1) rfl)
  have hR₇ := hR₆.step (.readReturn _ 1 0 () _ _ (h.runs 1) rfl rfl)
  have hempty : ∀ u, s.retired u = [] := h.retired
  refine ⟨_, hR₇, ⟨fun u => ?_, h.runs, h.epoch, h.birthEpoch, fun o _ ho => h.linked o ho, ?_,
    fun e => ?_, h.reservations 0, ?_, ?_, h.saved 0⟩, h.retiresSinceHiWm 0⟩
  · by_cases hu : u = 1
    · subst hu
      rfl
    · simpa [State.goto, State.setEpoch, update_of_ne hu] using h.pc u
  · simp [State.goto, State.setEpoch]
  · simpa [State.goto, State.setEpoch] using h.localReservedEpoch 0 e
  · simp [State.goto, State.setEpoch, hempty]
  · simp [State.goto, State.setEpoch, hempty]

/-- The next object is unlinked. -/
private theorem Stalled.unlink {cfg : Config} {s : State 2 ℕ Unit} {k c : ℕ} (h : Stalled s k c)
    (hR : (system cfg).Reachable s) (hc : c < k) :
    (system cfg).Reachable { s with life := update s.life c .unlinked } :=
  hR.step (.unlink s c (h.linked c le_rfl hc))

/-- One more object, alive in the reserved epoch, is in the list. -/
private theorem Stalled.spans_push {s : State 2 ℕ Unit} {k c : ℕ} (h : Stalled s k c) :
    ∀ res ∈ s.retired 0 ++ [⟨c, s.birthEpoch c, s.epoch⟩],
      res.birthEpoch ≤ s.epoch ∧ s.epoch ≤ res.retireEpoch := by
  intro res hres
  rcases List.mem_append.mp hres with hold | hnew
  · exact h.spans res hold
  · obtain rfl := List.mem_singleton.mp hnew
    exact ⟨h.birthEpoch c, le_rfl⟩

/-- Thread `0` retires an object without an attempt. -/
private theorem Stalled.retire {cfg : Config} {s : State 2 ℕ Unit} {k c : ℕ} (h : Stalled s k c)
    (hR : (system cfg).Reachable s) (hc : c < k)
    (hout : s.isOutOfPatience cfg 0 ((s.retired 0).length + 1) = false) :
    ∃ s', (system cfg).Reachable s' ∧ Stalled s' k (c + 1) ∧
      s'.retiresSinceHiWm 0 = s.retiresSinceHiWm 0 := by
  obtain ⟨x, hR', hx⟩ := reach_retired (t := 0) (o := c) anyStep (h.unlink hR hc) (h.runs 0)
    (h.pc 0) h.saved (update_self ..) hout
  have hret : x.retired 0 = s.retired 0 ++ [⟨c, s.birthEpoch c, s.epoch⟩] :=
    (congrFun hx.retired 0).trans (update_self ..)
  have hepoch : x.epoch = s.epoch := hx.epoch
  have hbirth : x.birthEpoch = s.birthEpoch := hx.birthEpoch
  refine ⟨_, hR', ⟨fun u => ?_, fun u => ?_, hepoch ▸ h.epoch, fun o => ?_, fun o hco ho => ?_,
    ?_, ?_, ?_, ?_, ?_, ?_⟩, congrFun hx.retiresSinceHiWm 0⟩
  · by_cases hu : u = 0
    · subst hu
      rfl
    · exact (update_of_ne hu ..).trans ((congrFun hx.pc u).trans (h.pc u))
  · exact ⟨(congrFun hx.pinged u).trans (h.runs u).1, (congrFun hx.handler u).trans (h.runs u).2⟩
  · change x.birthEpoch o ≤ x.epoch
    rw [hbirth, hepoch]
    exact h.birthEpoch o
  · have hne : o ≠ c := by omega
    refine (congrFun hx.life o).trans ?_
    rw [update_of_ne hne]
    exact (update_of_ne hne ..).trans (h.linked o (by omega) ho)
  · change x.localReservedEpoch 1 0 = x.epoch
    rw [hx.localReservedEpoch, hepoch]
    exact h.reader
  · change ∀ e, x.localReservedEpoch 0 e = 0
    rw [hx.localReservedEpoch]
    exact h.localReservedEpoch
  · change ∀ e, x.reservations 0 e = 0
    rw [hx.reservations]
    exact h.reservations
  · change (x.retired 0).length = c + 1
    rw [hret, List.length_append, h.length, List.length_singleton]
  · change ∀ res ∈ x.retired 0, res.birthEpoch ≤ x.epoch ∧ x.epoch ≤ res.retireEpoch
    rw [hret, hepoch]
    exact h.spans_push
  · change x.savedPublishingEpoch 0 = x.publishingEpoch
    rw [hx.savedPublishingEpoch, hx.publishingEpoch]
    exact h.saved

/-- Thread `0` retires objects without an attempt: while its list is short, or after an attempt
that has failed. -/
private theorem Stalled.retires {cfg : Config} {s : State 2 ℕ Unit} {k c : ℕ} (h : Stalled s k c)
    (hR : (system cfg).Reachable s) (m : ℕ) (hm : c + m ≤ k)
    (hwait : c + m < cfg.bagCapacityThreshold ∨ s.retiresSinceHiWm 0 = 1) :
    ∃ s', (system cfg).Reachable s' ∧ Stalled s' k (c + m) ∧
      s'.retiresSinceHiWm 0 = s.retiresSinceHiWm 0 := by
  induction m with
  | zero => exact ⟨s, hR, h, rfl⟩
  | succ m ih =>
    obtain ⟨s₁, hR₁, h₁, hsince₁⟩ := ih (by omega) (hwait.imp_left fun hlt => by omega)
    have hout : s₁.isOutOfPatience cfg 0 ((s₁.retired 0).length + 1) = false := by
      rcases hwait with hlt | hone
      · simp [State.isOutOfPatience, h₁.length]
        omega
      · simp [State.isOutOfPatience, hsince₁, hone]
    obtain ⟨s₂, hR₂, h₂, hsince₂⟩ := h₁.retire hR₁ (by omega) hout
    exact ⟨s₂, hR₂, h₂, hsince₂.trans hsince₁⟩

/-- `empty` keeps everything: each object was alive in a published epoch. -/
private theorem reach_kept {cfg : Config} {s : State 2 ℕ Unit}
    (hR : (system cfg).Reachable (s.goto 0 (.scan .hiWm 0 0))) (hr : s.Runs 0)
    (hflag : s.firstLoEntryFlag 0 = true) (hkeep : ∀ res ∈ s.retired 0, ¬ s.isFreeable 0 res) :
    (system cfg).Reachable ((s.countHiWm cfg 0).finishRetire 0) := by
  have hgo : ∀ {pos m : ℕ}, s.scanStops 0 pos m → (s.retired 0).length ≤ pos := fun hstop =>
    hstop.resolve_right fun hlo => absurd (hflag.symm.trans hlo.1) (by simp)
  have hloop : ∀ i ≤ (s.retired 0).length, (system cfg).Reachable (s.goto 0 (.scan .hiWm i i)) := by
    intro i hi
    induction i with
    | zero => exact hR
    | succ i ih =>
      have hstep := (ih (Nat.le_of_succ_le hi)).step (.scanKeep _ 0 .hiWm i i ((s.retired 0)[i])
        hr (State.goto_pc ..) (fun hstop => absurd (hgo hstop) (Nat.not_le_of_lt hi))
        (List.getElem?_eq_getElem hi) (hkeep _ (List.getElem_mem hi)))
      rwa [State.goto_goto] at hstep
  have hend := (hloop _ le_rfl).step (.scanEndHiWm _ 0 _ _ hr (State.goto_pc ..) (.inl le_rfl))
  have heq : ∀ p, ((s.goto 0 p).countHiWm cfg 0).finishRetire 0 =
      (s.countHiWm cfg 0).finishRetire 0 := by
    intro p
    simp only [State.goto, State.countHiWm, State.finishRetire, update_idem]
    rfl
  rwa [heq] at hend

/-- The list becomes full: thread `0` attempts the high watermark, thread `1` publishes the epoch
it has reserved, and nothing is freed. -/
private theorem Stalled.fail {cfg : Config} {s : State 2 ℕ Unit} {k c : ℕ} (h : Stalled s k c)
    (hR : (system cfg).Reachable s) (hc : c < k) (hsince : s.retiresSinceHiWm 0 = 0)
    (hcap : cfg.bagCapacityThreshold = c + 1) :
    ∃ s', (system cfg).Reachable s' ∧ Stalled s' k (c + 1) ∧ s'.retiresSinceHiWm 0 = 1 := by
  have hout : s.isOutOfPatience cfg 0 ((s.retired 0).length + 1) = true := by
    simp [State.isOutOfPatience, hsince, h.length, hcap]
  have hR₁ := (h.unlink hR hc).step (.retireHiWm _ 0 c (h.runs 0) (h.pc 0) (update_self ..) hout)
  obtain ⟨s₁, hR₂, h₁⟩ := reach_signalled anyStep hR₁ (h.runs 0) h.reservations
    h.localReservedEpoch
  -- the objects retired before are covered by the reservation of thread `1`, and so is this one
  have hret : s₁.retired 0 = s.retired 0 ++ [⟨c, s.birthEpoch c, s.epoch⟩] := by
    rw [h₁.retired]
    rfl
  have hepoch : s₁.epoch = s.epoch := h₁.epoch
  have hloc : s₁.localReservedEpoch = s.localReservedEpoch := h₁.localReservedEpoch
  have hhandler : ∀ u, s₁.handler u = none := fun u => (congrFun h₁.handler u).trans (h.runs u).2
  -- the handler of thread `1` runs
  have hR₃ := reach_served anyStep hR₂ (t := 1) (h₁.pinged 1 (by decide)) (hhandler 1)
  have hruns : (s₁.served 1).Runs 0 := ⟨h₁.pinged_self, hhandler 0⟩
  have hR₄ := reach_copied (s := s₁.served 1) anyStep hR₃ hruns fun _ => trivial
  let s₂ : State 2 ℕ Unit := { s₁.served 1 with
    scannedHEs := update (s₁.served 1).scannedHEs 0 (s₁.served 1).reservations }
  -- the copy shows the reservation
  have hentry : s₂.scannedHEs 0 1 0 = s.epoch := by
    simp only [s₂, update_self, State.served]
    rw [hloc]
    exact h.reader
  have hspans : ∀ res ∈ s₂.retired 0, res.birthEpoch ≤ s.epoch ∧ s.epoch ≤ res.retireEpoch := by
    change ∀ res ∈ s₁.retired 0, res.birthEpoch ≤ s.epoch ∧ s.epoch ≤ res.retireEpoch
    rw [hret]
    exact h.spans_push
  have hlen : (s₂.retired 0).length = c + 1 := by
    change (s₁.retired 0).length = c + 1
    rw [hret, List.length_append, h.length, List.length_singleton]
  -- so no object is freeable
  have hkeep : ∀ res ∈ s₂.retired 0, ¬ s₂.isFreeable 0 res := by
    intro res hres hfree
    obtain ⟨hb, hr⟩ := hspans res hres
    have hpos := h.epoch
    have hall := hfree 1 0
    rw [hentry] at hall
    omega
  have hflag : s₂.firstLoEntryFlag 0 = true := by
    change s₁.firstLoEntryFlag 0 = true
    rw [h₁.firstLoEntryFlag]
    rfl
  have hR₅ := reach_kept (s := s₂) hR₄ hruns hflag hkeep
  -- the attempt leaves the counter at one, and the list as it is
  have hsince₂ : s₂.retiresSinceHiWm 0 = 0 := (congrFun h₁.retiresSinceHiWm 0).trans hsince
  refine ⟨_, hR₅, ⟨fun u => ?_, fun u => ?_, hepoch ▸ h.epoch, fun o => ?_, fun o hco ho => ?_,
    ?_, ?_, ?_, hlen, ?_, h₁.saved⟩, ?_⟩
  · by_cases hu : u = 0
    · subst hu
      rfl
    · refine (update_of_ne hu ..).trans ((congrFun h₁.pc u).trans ?_)
      exact h.pc u
  · rcases Fin.exists_fin_two.mp ⟨u, rfl⟩ with rfl | rfl
    · exact hruns
    · exact ⟨rfl, hhandler 1⟩
  · change s₁.birthEpoch o ≤ s₁.epoch
    rw [h₁.birthEpoch, hepoch]
    exact h.birthEpoch o
  · have hne : o ≠ c := by omega
    refine (congrFun h₁.life o).trans ?_
    refine (update_of_ne hne ..).trans ?_
    exact (update_of_ne hne ..).trans (h.linked o (by omega) ho)
  · change s₁.localReservedEpoch 1 0 = s₁.epoch
    rw [hloc, hepoch]
    exact h.reader
  · change ∀ e, s₁.localReservedEpoch 0 e = 0
    rw [hloc]
    exact h.localReservedEpoch
  · change ∀ e, update s₁.reservations 1 (s₁.localReservedEpoch 1) 0 e = 0
    rw [update_of_ne (by decide), h₁.reservations]
    exact h.reservations
  · change ∀ res ∈ s₂.retired 0, res.birthEpoch ≤ s₁.epoch ∧ s₁.epoch ≤ res.retireEpoch
    rw [hepoch]
    exact hspans
  · change update s₂.retiresSinceHiWm 0 (if (s₂.retired 0).length < cfg.bagCapacityThreshold then 0
      else s₂.retiresSinceHiWm 0 + 1) 0 = 1
    rw [update_self, if_neg (by omega), hsince₂]

end Schedule

/-- Thread `1` stays in an operation whose reservation protects all of `24576 + 512` objects. The
attempt of thread `0` on its full list frees nothing, and the next 512 calls are no attempts. -/
theorem patience_lost :
    ¬ ∀ x : State 2 ℕ Unit × (Fin 2 → ℕ), (Waits Config.standard).Reachable x →
      ∀ t, x.2 t < 512 := by
  intro hall
  let k := Config.standard.bagCapacityThreshold + 512
  obtain ⟨s₀, hR₀, h₀⟩ := exists_filled Config.standard k
  obtain ⟨s₁, hR₁, h₁, hsince₁⟩ := h₀.read hR₀
  obtain ⟨s₂, hR₂, h₂, hsince₂⟩ := h₁.retires hR₁ (Config.standard.bagCapacityThreshold - 1)
    (by simp only [k]; omega) (.inl (by decide))
  obtain ⟨s₃, hR₃, h₃, hsince₃⟩ := h₂.fail hR₂ (by simp only [k]; omega)
    (hsince₂.trans hsince₁) (by decide)
  obtain ⟨s₄, hR₄, h₄, -⟩ := h₃.retires hR₃ 512 (by decide) (.inr hsince₃)
  -- the list is 512 objects longer than the threshold
  obtain ⟨waited, hR₅⟩ := hR₄.exists_observed
  have hle := Waits.length_le (by decide) hR₅ 0
  have hlt := hall _ hR₅ 0
  rw [h₄.length] at hle
  have hcap : Config.standard.bagCapacityThreshold = 24576 := rfl
  omega

end HazardEraPop
end PopSetbench

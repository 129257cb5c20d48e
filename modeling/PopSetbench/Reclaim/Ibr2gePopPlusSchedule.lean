import PopSetbench.Reclaim.Ibr2gePopPlus

/-!
# IBR-POP+: many calls of one thread

Runs in which one thread allocates or retires so many objects that it passes a watermark of the
source's capacity: `reach_allocated`, `reach_extended` and `reach_extended_counted`. They lead to
`missedStart`, in which thread `1` holds an object that thread `0` has retired.
-/

namespace PopSetbench
namespace Ibr2gePopPlus

open Function

variable {n : ℕ} {Obj Loc : Type} [DecidableEq Obj] [DecidableEq Loc] {cfg : Config}
  {s : State n Obj Loc} {t : Fin n} {o : Obj}

/-- Thread `t` has allocated `k` objects without further consequences. -/
def State.allocated (s : State n Obj Loc) (t : Fin n) (k : ℕ) : State n Obj Loc :=
  { s with allocCounters := update s.allocCounters t (s.allocCounters t + k) }

/-- The list of thread `t` has grown by `L`, and objects have been linked and unlinked. -/
def State.extended (s : State n Obj Loc) (t : Fin n) (L : List (IntervalInfo n Obj))
    (life : Obj → Life) : State n Obj Loc :=
  { s with
    retired := update s.retired t (s.retired t ++ L)
    life := life }

/-- Thread `t` has counted `k` retires since the low watermark. -/
def State.counted (s : State n Obj Loc) (t : Fin n) (k : ℕ) : State n Obj Loc :=
  { s with
    numRetiresSinceLoWatermark := update s.numRetiresSinceLoWatermark t
      (s.numRetiresSinceLoWatermark t + k) }

theorem reach_allocated (hR : (system cfg).Reachable s) (hr : s.Runs t)
    (hpc : s.pc t = .idle) (k : ℕ) (hk : s.allocCounters t + k < cfg.epochFreq * n) :
    (system cfg).Reachable (s.allocated t k) := by
  induction k with
  | zero =>
    unfold State.allocated
    simpa using hR
  | succ k ih =>
    have hstep := (ih (by omega)).step (.alloc (s.allocated t k) t hr hpc)
    have hmod : ¬ (s.allocCounters t + k + 1) % (cfg.epochFreq * n) = 0 := by
      rw [Nat.mod_eq_of_lt (by omega)]
      omega
    have heq : (s.allocated t k).allocCounters t = s.allocCounters t + k := update_self ..
    rw [heq, if_neg hmod] at hstep
    convert hstep using 1
    unfold State.allocated State.countAlloc State.goto
    simp [update_idem, ← hpc, add_assoc]

/-- An object that was born in epoch 0 is linked and unlinked. -/
theorem reach_unlinked (hR : (system cfg).Reachable s) (ho : s.life o = .pooled)
    (hbirth : s.birthEpoch o = 0) :
    (system cfg).Reachable (s.unlink o) := by
  have hR := hR.step (.link s o 0 ho (Nat.zero_le _))
  have hR := hR.step (.unlink _ o (update_self ..))
  convert hR using 1
  unfold State.unlink State.link
  simp [update_idem, ← hbirth]

omit [DecidableEq Obj] [DecidableEq Loc] in
/-- Below the capacity nobody runs out of patience. -/
theorem State.isOutOfPatience_of_lt {k : ℕ} (h : k < cfg.bagCapacity) :
    s.isOutOfPatience cfg t k = false := by
  simp [State.isOutOfPatience, h]

omit [DecidableEq Obj] [DecidableEq Loc] in
theorem State.isOutOfPatience_of_le {k : ℕ} (h : cfg.bagCapacity ≤ k)
    (hnum : s.retiresSinceHiWm t % 16384 = 0) : s.isOutOfPatience cfg t k = true := by
  simp [State.isOutOfPatience, h, hnum]

omit [DecidableEq Obj] [DecidableEq Loc] in
theorem State.isPastLoWatermark_of_lt {k : ℕ} (h : cfg.bagCapacity / 4 < k)
    (hnum : s.numRetiresSinceLoWatermark t % s.loPathReclaimAttemptFreq t = 0) :
    s.isPastLoWatermark cfg t k = true := by
  simp [State.isPastLoWatermark, h, hnum]

omit [DecidableEq Obj] [DecidableEq Loc] in
theorem State.isPastLoWatermark_of_le {k : ℕ} (h : k ≤ cfg.bagCapacity / 4) :
    s.isPastLoWatermark cfg t k = false := by
  simp [State.isPastLoWatermark, Nat.not_lt.mpr h]

/-- A call of `retire` between the watermarks: if it compares the publishing epochs, then they are
equal. -/
theorem reach_retired (hR : (system cfg).Reachable s) (hr : s.Runs t) (hpc : s.pc t = .idle)
    (ho : s.life o = .unlinked) (hout : (s.retired t).length + 1 < cfg.bagCapacity)
    (hflag : s.firstLoEntryFlag t = false)
    (hsaved : s.savedPublishingEpoch t = s.publishingEpoch) :
    (system cfg).Reachable ((s.pushBack t o).finishRetire t) := by
  have hout := State.isOutOfPatience_of_lt (s := s) (t := t) hout
  cases hpast : s.isPastLoWatermark cfg t ((s.retired t).length + 1) with
  | false => exact hR.step (.retire s t o hr hpc ho hout hpast)
  | true =>
    have hR := hR.step (.retireLoWm s t o hr hpc ho hout hpast hflag)
    have hR := hR.step (.checkMiss _ t hr (update_self ..) hsaved)
    convert hR using 1
    unfold State.finishRetire State.goto
    rw [update_idem]

/-- Objects that are retired below the low watermark. -/
theorem reach_extended {s : State n ℕ Loc} (hR : (system cfg).Reachable s) (hr : s.Runs t)
    (hpc : s.pc t = .idle) (hflag : s.firstLoEntryFlag t = true) (hbirth : ∀ x, s.birthEpoch x = 0)
    (o k : ℕ) (hlife : ∀ x, o ≤ x → s.life x = .pooled)
    (hk : (s.retired t).length + k ≤ cfg.bagCapacity / 4) :
    ∃ L life, L.length = k ∧ (∀ x, o + k ≤ x → life x = .pooled) ∧
      (system cfg).Reachable (s.extended t L life) := by
  induction k with
  | zero => exact ⟨[], s.life, rfl, hlife, by unfold State.extended; simpa using hR⟩
  | succ k ih =>
    obtain ⟨L, life, hL, hlife, hR⟩ := ih (by omega)
    have hR := reach_unlinked hR (o := o + k) (hlife _ le_rfl) (hbirth _)
    have hlen : ((s.extended t L life).retired t).length = (s.retired t).length + k := by
      simp [State.extended, hL]
    have hlt : ((s.extended t L life).retired t).length + 1 < cfg.bagCapacity := by omega
    have hle : ((s.extended t L life).retired t).length + 1 ≤ cfg.bagCapacity / 4 := by omega
    have hR := hR.step (.retire _ t (o + k) hr hpc (update_self ..)
      (State.isOutOfPatience_of_lt hlt) (State.isPastLoWatermark_of_le hle))
    refine ⟨L ++ [s.entry (o + k)], update life (o + k) .retired, by simp [hL], fun x hx => ?_, ?_⟩
    · rw [update_of_ne (by omega)]
      exact hlife x (by omega)
    · convert hR using 1
      simp [State.extended, State.unlink, State.pushBack, State.finishRetire, State.entry, hflag,
        ← hpc, update_idem]

/-- Objects that are retired between the watermarks. -/
theorem reach_extended_counted {s : State n ℕ Loc} (hR : (system cfg).Reachable s) (hr : s.Runs t)
    (hpc : s.pc t = .idle) (hflag : s.firstLoEntryFlag t = false)
    (hsaved : s.savedPublishingEpoch t = s.publishingEpoch) (hbirth : ∀ x, s.birthEpoch x = 0)
    (o k : ℕ) (hlife : ∀ x, o ≤ x → s.life x = .pooled)
    (hk : (s.retired t).length + k < cfg.bagCapacity) :
    ∃ L life, L.length = k ∧ (∀ x, o + k ≤ x → life x = .pooled) ∧
      (system cfg).Reachable ((s.extended t L life).counted t k) := by
  induction k with
  | zero =>
    refine ⟨[], s.life, rfl, hlife, ?_⟩
    unfold State.counted State.extended
    simpa using hR
  | succ k ih =>
    obtain ⟨L, life, hL, hlife, hR⟩ := ih (by omega)
    have hR := reach_unlinked hR (o := o + k) (hlife _ le_rfl) (hbirth _)
    have hlen : (((s.extended t L life).counted t k).retired t).length =
        (s.retired t).length + k := by
      simp [State.extended, State.counted, hL]
    have hlt : (((s.extended t L life).counted t k).retired t).length + 1 < cfg.bagCapacity := by
      omega
    have hR := reach_retired hR hr hpc (o := o + k) (update_self ..) hlt hflag hsaved
    refine ⟨L ++ [s.entry (o + k)], update life (o + k) .retired, by simp [hL], fun x hx => ?_, ?_⟩
    · rw [update_of_ne (by omega)]
      exact hlife x (by omega)
    · convert hR using 1
      simp [State.extended, State.counted, State.unlink, State.pushBack, State.finishRetire,
        State.entry, hflag, ← hpc, update_idem, add_assoc]

/-- With two threads, thread `1` has read object `0` in an operation that it has begun in epoch 0.
Thread `0` has retired the object in an operation in epoch 0, and has begun another one in epoch
1. -/
def missedStart : State 2 ℕ Unit :=
  { State.initial Config.standard 2 ℕ Unit with
    epoch := 1
    allocCounters := fun | 0 => 200 | 1 => 0
    retired := fun
      | 0 => [⟨0, 0, 0, fun _ => 1, fun _ => true, fun _ => 0, fun _ => 0⟩]
      | 1 => []
    localLower := fun | 0 => 1 | 1 => 0
    localUpper := fun | 0 => 1 | 1 => 0
    inOp := fun _ => true
    life := update (fun _ => .pooled) 0 .retired
    held := fun | 0 => fun _ => false | 1 => fun o => o = 0
    begun := fun | 0 => 2 | 1 => 1 }

theorem reach_missedStart : (system Config.standard).Reachable missedStart := by
  have hR : (system Config.standard).Reachable (State.initial Config.standard 2 ℕ Unit) := .init rfl
  have hR := hR.step (.link _ 0 0 rfl le_rfl)
  have hR := hR.step (.write _ () ⟨some 0, 0⟩)
  have hR := hR.step (.callStartOp _ 1 ⟨rfl, rfl⟩ rfl rfl)
  have hR := hR.step (.startLower _ 1 0 ⟨rfl, rfl⟩ rfl)
  have hR := hR.step (.startUpper _ 1 0 ⟨rfl, rfl⟩ rfl)
  have hR := hR.step (.callRead _ 1 () ⟨rfl, rfl⟩ rfl rfl)
  have hR := hR.step (.readLoad _ 1 () 0 ⟨rfl, rfl⟩ rfl)
  have hR := hR.step (.readReturn _ 1 () 0 ⟨some 0, 0⟩ true ⟨rfl, rfl⟩ rfl rfl)
  -- thread 0 retires the object
  have hR := hR.step (.callStartOp _ 0 ⟨rfl, rfl⟩ rfl rfl)
  have hR := hR.step (.startLower _ 0 0 ⟨rfl, rfl⟩ rfl)
  have hR := hR.step (.startUpper _ 0 0 ⟨rfl, rfl⟩ rfl)
  have hR := hR.step (.write _ () ⟨none, 0⟩)
  have hR := hR.step (.unlink _ 0 rfl)
  have hR := hR.step (.retire _ 0 0 ⟨rfl, rfl⟩ rfl rfl rfl rfl)
  have hR := hR.step (.endOp _ 0 ⟨rfl, rfl⟩ rfl rfl)
  have hR := hR.step (.endUpper _ 0 ⟨rfl, rfl⟩ rfl)
  -- after 200 allocations the epoch is incremented
  have hR := reach_allocated hR (t := 0) ⟨rfl, rfl⟩ rfl 199 (by decide)
  have hR := hR.step (.alloc _ 0 ⟨rfl, rfl⟩ rfl)
  have hR := hR.step (.bumpEpoch _ 0 ⟨rfl, rfl⟩ rfl)
  have hR := hR.step (.callStartOp _ 0 ⟨rfl, rfl⟩ rfl rfl)
  have hR := hR.step (.startLower _ 0 1 ⟨rfl, rfl⟩ rfl)
  have hR := hR.step (.startUpper _ 0 1 ⟨rfl, rfl⟩ rfl)
  refine Eq.subst (motive := (system Config.standard).Reachable) ?_ hR
  apply State.ext
  case mem => exact funext fun _ => rfl
  case birthEpoch => exact update_eq_self 0 fun _ => 0
  case life =>
    show update (update (update _ 0 _) 0 _) 0 _ = _
    rw [update_idem, update_idem]
    rfl
  case held =>
    funext u o
    match u with
    | 0 => rfl
    | 1 =>
      show (false || (decide (some 0 = some o) && true)) = decide (o = 0)
      simp [eq_comm]
  case retired =>
    funext u
    match u with
    | 0 =>
      refine congrArg (· :: []) (IntervalInfo.ext rfl rfl rfl ?_ ?_ rfl rfl) <;> funext u
      all_goals match u with | 0 => rfl | 1 => rfl
    | 1 => rfl
  all_goals first | rfl | (funext u; match u with | 0 => rfl | 1 => rfl)

end Ibr2gePopPlus
end PopSetbench

import PopSetbench.Reclaim.HazardPtrPopSafety

/-!
# HazardPtrPOP: how much garbage a thread holds

A call of `retire` that returns leaves fewer than `empty_freq` objects in the list of the
calling thread, or it has just run `empty` over the whole list, and then every object left was
found in the slots that `empty` had copied. There are `n * slotsPerThread` of these, whatever
they contain.

The high watermark sets `firstLoEntryFlag` before it scans, so that the scan is not cut short
at the size saved at the low watermark: this is what `Held` asserts at every point between the
two.
-/

namespace PopSetbench
namespace HazardPtrPop

open Function

variable {n : ℕ} {Obj Loc : Type}

/-- The bound on a retired list between two calls. -/
def maxRetired (cfg : Config) (n : ℕ) : ℕ := max (cfg.emptyFreq - 1) (n * slotsPerThread)

/-- Every object before position `pos` was found in the copied slots. -/
def KeptBelow (s : State n Obj Loc) (t : Fin n) (pos : ℕ) : Prop :=
  ∀ o ∈ (s.retired t).take pos, s.conflict t o

/-- What is known of the list of thread `t` at each point of the code. -/
def Held (cfg : Config) (s : State n Obj Loc) (t : Fin n) : Pc Obj Loc → Prop
  | .sample _ => s.firstLoEntryFlag t = true
  | .announceStart => s.firstLoEntryFlag t = true
  | .publish _ => s.firstLoEntryFlag t = true
  | .ping _ => s.firstLoEntryFlag t = true
  | .confirm _ => s.firstLoEntryFlag t = true
  | .snapshot .hiWm _ => s.firstLoEntryFlag t = true
  | .scan .hiWm pos _ => s.firstLoEntryFlag t = true ∧ KeptBelow s t pos
  | _ => (s.retired t).length ≤ maxRetired cfg n

variable {cfg : Config} {s s' : State n Obj Loc} {t : Fin n}

/-- What is known of a list depends on the list, the flag and the copied slots only. -/
theorem Held.of_eq {p : Pc Obj Loc} (hret : s'.retired t = s.retired t)
    (hfl : s'.firstLoEntryFlag t = s.firstLoEntryFlag t)
    (htemp : s'.tempLocalSlots t = s.tempLocalSlots t) (h : Held cfg s t p) :
    Held cfg s' t p := by
  have hkept : ∀ pos, KeptBelow s t pos → KeptBelow s' t pos := by
    intro pos hk o ho
    rw [hret] at ho
    unfold State.conflict
    rw [htemp]
    exact hk o ho
  cases p with
  | snapshot path m =>
    cases path with
    | hiWm => exact hfl.trans h
    | loWm => exact (congrArg List.length hret).trans_le h
  | scan path pos m =>
    cases path with
    | hiWm => exact ⟨hfl.trans h.1, hkept pos h.2⟩
    | loWm => exact (congrArg List.length hret).trans_le h
  | sample _ | announceStart | publish _ | ping _ | confirm _ => exact hfl.trans h
  | _ => exact (congrArg List.length hret).trans_le h

/-- A call that is not out of patience leaves the list below the capacity. -/
private theorem length_push_le {o : Obj}
    (hout : State.isOutOfPatience cfg ((s.retired t).length + 1) = false) :
    (s.retired t ++ [o]).length ≤ maxRetired cfg n := by
  have hlt : (s.retired t).length + 1 < cfg.emptyFreq := by
    simpa [State.isOutOfPatience] using hout
  rw [List.length_append, List.length_singleton]
  exact (Nat.le_sub_one_of_lt hlt).trans (le_max_left ..)

/-- A scan that has looked at the whole list leaves no more objects than there are slots. -/
private theorem KeptBelow.length_le {pos : ℕ} (hnodup : (s.retired t).Nodup)
    (hk : KeptBelow s t pos) (hpos : (s.retired t).length ≤ pos) :
    (s.retired t).length ≤ maxRetired cfg n := by
  have hall : ∀ o ∈ s.retired t, ∃ u e, s.tempLocalSlots t u e = some o := by
    rw [← List.take_of_length_le hpos]
    exact hk
  exact (hnodup.length_le_table hall).trans (le_max_right ..)

variable [DecidableEq Obj] [DecidableEq Loc]

/-- **One step.** What is known of a thread's list before its own step is known after it. -/
theorem Held.step (hnodup : (s.retired t).Nodup) (hstep : Step cfg s (.thread t) s')
    (h : Held cfg s t (s.pc t)) : Held cfg s' t (s'.pc t) := by
  have moved : ∀ {p : Pc Obj Loc}, s'.pc t = p → Held cfg s' t p → Held cfg s' t (s'.pc t) := by
    intro p hp hh
    rwa [hp]
  cases hstep with
  | callRead _ idx l hr hpc | callEndOp _ hr hpc | endOp _ e hr hpc | endOpReturn _ hr hpc
  | readLoad _ idx l hr hpc | readReserve _ idx l ret hr hpc | readReturn _ idx l ret hr hpc hret
  | readRetry _ idx l ret hr hpc hret =>
    -- nothing is retired by an operation
    rw [hpc] at h
    exact moved (update_self ..) h
  | retireHiWm _ o hr hpc ho hout =>
    -- the low watermark is forgotten before the scan
    exact moved (update_self ..) (update_self ..)
  | retireEnterLoWm _ o rand hr hpc ho hout hpast hfirst =>
    -- the thread enters the low watermark, with a list below the capacity
    refine moved (update_self ..) ?_
    change (update s.retired t (s.retired t ++ [o]) t).length ≤ maxRetired cfg n
    rw [update_self]
    exact length_push_le hout
  | retireLoWm _ o hr hpc ho hout hpast hfirst =>
    refine moved (update_self ..) ?_
    change (update s.retired t (s.retired t ++ [o]) t).length ≤ maxRetired cfg n
    rw [update_self]
    exact length_push_le hout
  | retireOnly _ o hr hpc ho hout hpast =>
    refine moved (update_self ..) ?_
    change (update s.retired t (s.retired t ++ [o]) t).length ≤ maxRetired cfg n
    rw [update_self]
    exact length_push_le hout
  | sample _ i hr hpc | sampleEnd _ hr hpc | announceStart _ hr hpc | publish _ e hr hpc
  | publishEnd _ hr hpc | ping _ i hr hpc hi | pingSelf _ hr hpc | announceDone _ hr hpc
  | confirm _ i hr hpc | confirmEnd _ hr hpc =>
    -- the signalling round leaves the list alone
    rw [hpc] at h
    exact moved (update_self ..) h
  | saveTS _ i hr hpc | saveTSEnd _ hr hpc | checkHit _ i hr hpc hge | checkMiss _ i hr hpc hlt
  | checkEnd _ hr hpc =>
    rw [hpc] at h
    exact moved (update_self ..) h
  | snapshot _ u e path hr hpc =>
    rw [hpc] at h
    cases path with
    | hiWm => exact moved (update_self ..) h
    | loWm => exact moved (update_self ..) h
  | snapshotEnd _ path hr hpc =>
    -- the scan begins with nothing kept
    rw [hpc] at h
    cases path with
    | hiWm => exact moved (update_self ..) ⟨h, by simp [KeptBelow]⟩
    | loWm => exact moved (update_self ..) h
  | scanKeep _ path pos m o hr hpc hgo ho hdanger =>
    rw [hpc] at h
    cases path with
    | hiWm =>
      refine moved (update_self ..) ⟨h.1, fun b hb => ?_⟩
      -- one more object has been found in the copied slots
      have hb' : b ∈ (s.retired t).take (pos + 1) := hb
      rw [List.take_add_one, ho, List.mem_append, Option.mem_toList] at hb'
      rcases hb' with hb' | hb'
      · exact h.2 b hb'
      · exact Option.some.inj hb' ▸ hdanger
    | loWm => exact moved (update_self ..) h
  | scanFree _ path pos m o hr hpc hgo ho hsafe =>
    rw [hpc] at h
    cases path with
    | hiWm =>
      refine moved (update_self ..) ⟨h.1, fun b hb => ?_⟩
      -- the objects before the iterator stay where they are
      have hb' : b ∈ (s.retired t).take pos := by
        simpa [State.goto, State.passToPool, List.take_eraseIdx_eq_take_of_le] using hb
      exact h.2 b hb'
    | loWm =>
      refine moved (update_self ..) ?_
      change (update s.retired t ((s.retired t).eraseIdx pos) t).length ≤ maxRetired cfg n
      rw [update_self]
      exact (List.length_eraseIdx_le ..).trans h
  | scanEndHiWm _ pos m hr hpc hstop =>
    rw [hpc] at h
    -- the flag is set, so only the end of the list stops the scan
    have hpos : (s.retired t).length ≤ pos := by
      refine hstop.resolve_right fun hlo => ?_
      exact absurd (h.1.symm.trans hlo.1) (by simp)
    exact moved (update_self ..) (h.2.length_le hnodup hpos)
  | scanEndLoWm _ pos m hr hpc hstop =>
    -- the low watermark frees a part of a list that was short enough
    rw [hpc] at h
    exact moved (update_self ..) h

/-- What holds of every retired list in every state of a run. -/
structure Bounded (cfg : Config) (s : State n Obj Loc) : Prop where
  base : Base s
  held : ∀ t, Held cfg s t (s.pc t)

theorem Bounded.reached (h : (system cfg).Reachable s) : Bounded cfg s := by
  refine h.invariant ?_ fun s a s' _ hB _ hstep => ⟨hB.base.step hstep, fun t => ?_⟩
  · rintro _ rfl
    exact ⟨Base.initial, fun t => Nat.zero_le _⟩
  · by_cases ha : a = .thread t
    · subst ha
      exact (hB.held t).step (hB.base.custody.nodup t) hstep
    · obtain ⟨hf, hpc⟩ := hstep.frame ha
      rw [hpc]
      exact (hB.held t).of_eq hf.retired hf.firstLoEntryFlag hf.tempLocalSlots

/-- **Bounded garbage.** Whenever a thread is between two calls, and so after every call of
`retire`, its list holds fewer than `empty_freq` objects or no more than there are slots. -/
theorem garbage_bounded (h : (system cfg).Reachable s) (hpc : s.pc t = .idle) :
    (s.retired t).length ≤ max (cfg.emptyFreq - 1) (n * slotsPerThread) := by
  have hheld := (Bounded.reached h).held t
  rw [hpc] at hheld
  exact hheld

/-! ### A full list -/

section Scan

variable {s : State n ℕ Unit} {cfg : Config} {t : Fin n}

theorem reach_goto {p : Pc ℕ Unit} (hR : (system cfg).Reachable s) (hpc : s.pc t = p) :
    (system cfg).Reachable (s.goto t p) := by
  rw [State.goto_self hpc]
  exact hR

/-- `empty` copies the shared slots. -/
theorem reach_copied {path : Path}
    (hR : (system cfg).Reachable (s.goto t (.snapshot path 0))) (hr : s.Runs t) :
    ∃ temp, (system cfg).Reachable
        (State.goto { s with tempLocalSlots := temp } t (.scan path 0 0)) ∧
      ∀ u e, temp t u e = s.slots u e := by
  have hloop : ∀ m ≤ n * slotsPerThread, ∃ temp,
      (system cfg).Reachable
        (State.goto { s with tempLocalSlots := temp } t (.snapshot path m)) ∧
      ∀ (u : Fin n) (e : Fin slotsPerThread),
        u.val * slotsPerThread + e.val < m → temp t u e = s.slots u e := by
    intro m hm
    induction m with
    | zero => exact ⟨s.tempLocalSlots, hR, fun u e h => absurd h (Nat.not_lt_zero _)⟩
    | succ m ih =>
      obtain ⟨temp, h, htemp⟩ := ih (Nat.le_of_succ_le hm)
      obtain ⟨u, e, rfl⟩ := exists_row hm
      have hnext := h.step (.snapshot _ t u e path hr (update_self ..))
      refine ⟨update temp t (update (temp t) u (update (temp t u) e (s.slots u e))),
        by simpa only [State.goto, State.copyEntry, update_idem] using hnext, fun v f hv => ?_⟩
      rw [update_self]
      rcases row_lt hv with hlt | ⟨rfl, rfl⟩
      · -- an entry that was copied before
        by_cases hvu : v = u
        · subst hvu
          have hfe : f ≠ e := fun h => absurd (h ▸ hlt) (Nat.lt_irrefl _)
          rw [update_self, update_of_ne hfe]
          exact htemp _ _ hlt
        · rw [update_of_ne hvu]
          exact htemp _ _ hlt
      · rw [update_self, update_self]
  obtain ⟨temp, h, htemp⟩ := hloop _ le_rfl
  have hnext := h.step (.snapshotEnd _ t path hr (update_self ..))
  rw [State.goto_goto] at hnext
  exact ⟨temp, hnext, fun u e => htemp u e (row_lt_end u e)⟩

/-- **A scan of the high watermark ends**, and leaves what it found in the copied slots. -/
theorem reach_scanned {l kept : List ℕ} {k : ℕ} (hlist : s.retired t = kept ++ l)
    (hR : (system cfg).Reachable (s.goto t (.scan .hiWm kept.length k))) (hr : s.Runs t)
    (hfirst : s.firstLoEntryFlag t = true) :
    ∃ s' : State n ℕ Unit, (system cfg).Reachable s' ∧ s'.pc t = .idle ∧
      s'.localSlots = s.localSlots ∧
      s'.retired t = kept ++ l.filter fun o => decide (s.conflict t o) := by
  induction l generalizing s kept k with
  | nil =>
    have hstop : (s.goto t (.scan .hiWm kept.length k)).scanStops t kept.length k := by
      left
      show (s.retired t).length ≤ _
      rw [hlist, List.append_nil]
    exact ⟨_, hR.step (.scanEndHiWm _ t _ k hr (update_self ..) hstop), update_self .., rfl, hlist⟩
  | cons o l ih =>
    have hget : (s.retired t)[kept.length]? = some o := by
      rw [hlist, List.getElem?_append_right le_rfl, Nat.sub_self, List.getElem?_cons_zero]
    have hgo : ¬ (s.goto t (.scan .hiWm kept.length k)).scanStops t kept.length k := by
      rintro (hle | ⟨hflag, -⟩)
      · have hle : (s.retired t).length ≤ kept.length := hle
        rw [hlist, List.length_append, List.length_cons] at hle
        omega
      · exact absurd (hfirst.symm.trans hflag) (by decide)
    by_cases hc : s.conflict t o
    · have hnext := hR.step (.scanKeep _ t .hiWm _ k o hr (update_self ..) hgo hget hc)
      have hlen : (kept ++ [o]).length = kept.length + 1 := List.length_append
      rw [State.goto_goto, ← hlen] at hnext
      obtain ⟨s', hR', hpc, hloc, hret⟩ := @ih s (kept ++ [o]) (k + 1)
        (by rw [hlist, List.append_assoc, List.singleton_append]) hnext hr hfirst
      refine ⟨s', hR', hpc, hloc, ?_⟩
      simp [hret, hc]
    · have hnext := hR.step (.scanFree _ t .hiWm _ k o hr (update_self ..) hgo hget hc)
      have herase : (s.retired t).eraseIdx kept.length = kept ++ l := by
        rw [hlist, List.eraseIdx_append_of_length_le le_rfl, Nat.sub_self,
          List.eraseIdx_cons_zero]
      obtain ⟨s', hR', hpc, hloc, hret⟩ := ih (s := s.passToPool t kept.length o) (k := k + 1)
        ((update_self ..).trans herase)
        (by simpa only [State.goto, State.passToPool, update_idem] using hnext) hr hfirst
      refine ⟨s', hR', hpc, hloc, ?_⟩
      simp only [hret, List.filter_cons, decide_eq_true_eq, if_neg hc]
      rfl

/-- The handler of thread `1` publishes its slots. -/
theorem Overfull.published {s : State 2 ℕ Unit} (h : Overfull cfg s)
    (hR : (system cfg).Reachable (s.goto 0 (.confirm 0))) :
    ∃ s' : State 2 ℕ Unit, (system cfg).Reachable (s'.goto 0 (.confirm 0)) ∧ s'.Runs 0 ∧
      s'.retired = s.retired ∧ s'.localSlots = s.localSlots ∧ s'.firstLoEntryFlag 0 = true ∧
        (∀ e, s'.slots 0 e = none) ∧ s'.slots 1 = s.localSlots 1 := by
  have hR := hR.step (.handlerEnter _ 1 h.pinged h.handler)
  have hR := hR.step (.handlerPublish _ 1 0 rfl)
  have hR := hR.step (.handlerPublish _ 1 1 rfl)
  have hR := hR.step (.handlerPublish _ 1 2 rfl)
  have hR := hR.step (.handlerReturn _ 1 rfl)
  refine ⟨_, reach_goto hR rfl, h.runs, rfl, rfl, h.firstLoEntryFlag, h.slots 0,
    funext fun e => ?_⟩
  match e with
  | 0 => rfl
  | 1 => rfl
  | 2 => rfl

end Scan

/-- With two threads and a capacity of one hundred, thread `1` reads object `0`, and thread `0`
retires it and ninety-nine others. The last call is out of patience: it signals thread `1`, whose
handler publishes its slots, scans the list and frees all objects but the one that thread `1`
holds. -/
theorem garbage_bounded_full : ∃ s : State 2 ℕ Unit,
    (system ⟨100⟩).Reachable s ∧ s.pc 0 = .idle ∧ s.localSlots 1 0 = some 0 ∧
      s.retired 0 = [0] ∧ (s.retired 0).length ≤ max (100 - 1) (2 * slotsPerThread) := by
  have hok : ∀ (s : State 2 ℕ Unit) a, Plain s a → (fun _ _ => True : _ → _ → Prop) s a :=
    fun _ _ _ => trivial
  obtain ⟨s, hR, h⟩ := reach_overfull hok ⟨100⟩ (by decide)
  -- the handler publishes the slots of thread 1
  obtain ⟨s', hR', hruns, hret, hloc, hflag, hslots₀, hslots₁⟩ := h.published hR
  -- thread 0 goes on
  have hR₁ := reach_confirmed hok hR' hruns fun _ => trivial
  obtain ⟨temp, hR₂, htemp⟩ := reach_copied hR₁ hruns
  obtain ⟨s₃, hR₃, hpc, hloc₃, hret₃⟩ := @reach_scanned _ _ _ _ _ [] _ rfl hR₂ hruns hflag
  have hconf : ∀ o, State.conflict { s' with tempLocalSlots := temp } 0 o ↔ o = 0 := by
    intro o
    constructor
    · rintro ⟨u, e, hue⟩
      replace hue : s'.slots u e = some o := (htemp u e).symm.trans hue
      by_cases hu : u = 1
      · subst hu
        rw [hslots₁] at hue
        by_cases he : e = 0
        · subst he
          exact Option.some.inj (hue.symm.trans h.held)
        · rw [h.empty 1 e (.inr he)] at hue
          cases hue
      · have hu : u = 0 := by omega
        subst hu
        rw [hslots₀] at hue
        cases hue
    · rintro rfl
      exact ⟨1, 0, (htemp 1 0).trans ((congrFun hslots₁ 0).trans h.held)⟩
  have hlist : s₃.retired 0 = [0] := by
    rw [hret₃]
    show List.filter _ (s'.retired 0) = [0]
    rw [(congrFun hret 0).trans h.retired]
    simp only [hconf]
    decide
  refine ⟨s₃, hR₃, hpc, ?_, hlist, garbage_bounded hR₃ hpc⟩
  rw [hloc₃, hloc]
  exact h.held

end HazardPtrPop
end PopSetbench

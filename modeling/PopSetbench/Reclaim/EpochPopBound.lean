import PopSetbench.Reclaim.EpochPopSafety

/-!
# EpochPOP: how much garbage a thread holds

When a call of `retire` returns, the list of the calling thread holds fewer than `empty_freq`
objects, or `rcu_empty` has just scanned it, or `hp_empty` has. There are two ways to more than
`max (empty_freq - 1) (n * slotsPerThread)` objects.

* The number that `rcu_empty` leaves is compared with `empty_freq - 4096`, as unsigned numbers of 32
  bits. For `empty_freq = 2048` the difference is 4294965248, so the ping path is never taken:
  `garbage_unbounded`.
* `hp_empty` compares every object with the entries of `slots` as they are at that moment. An entry
  that is overwritten by a handler during the scan can keep one object after the other.

`garbage_robust` is the bound for `empty_freq` from 4096 on, where the difference does not wrap, in
the runs in which no handler does that (`Robust`).
-/

namespace PopSetbench
namespace EpochPop

open Function

variable {n : ℕ} {Obj Loc : Type}

/-- The bound on a retired list between two calls. -/
def maxRetired (cfg : Config) (n : ℕ) : ℕ := max (cfg.emptyFreq - 1) (n * slotsPerThread)

/-- The object is in some entry of `slots`. -/
def State.Shows (s : State n Obj Loc) (o : Obj) : Prop := ∃ u e, s.slots u e = some o

/-- A store of a handler removes no object from `slots` that a running `hp_empty` has kept. -/
def Robust (s : State n Obj Loc) (a : Actor n) : Prop :=
  ∀ u (e : Fin slotsPerThread), a = .handler u → s.handler u = some e.val →
    ∀ t pos indx j, s.pc t = .hpScan .hp pos indx j → ∀ res ∈ (s.retired t).take pos,
      s.Shows res.obj → (s.copySlot u e).Shows res.obj

/-- What is known of the list of thread `t` at each point of the code. -/
def Held (cfg : Config) (s : State n Obj Loc) (t : Fin n) : Pc Obj Loc → Prop
  | .saveTS _ => True
  | .check _ => True
  | .afterLoWm => True
  | .minEpoch _ _ => True
  | .rcuScan _ _ => True
  | .sample _ => True
  | .announceStart => True
  | .ping _ => True
  | .confirm _ => True
  | .hpScan .hp pos _ _ => ∀ res ∈ (s.retired t).take pos, s.Shows res.obj
  | .hpScan _ _ _ _ => True
  | _ => (s.retired t).length ≤ maxRetired cfg n

variable {cfg : Config} {s s' : State n Obj Loc} {t : Fin n}

/-- From 4096 on the difference does not wrap. -/
theorem Config.forceThreshold_of_le (hlo : 4096 ≤ cfg.emptyFreq) (hhi : cfg.emptyFreq < 2 ^ 32) :
    cfg.forceThreshold = cfg.emptyFreq - 4096 := by
  have hmod : cfg.emptyFreq % 4294967296 = cfg.emptyFreq := Nat.mod_eq_of_lt (by simpa using hhi)
  unfold Config.forceThreshold
  rw [BitVec.toNat_sub_of_le]
  · simp [hmod]
  · simpa [BitVec.le_def, hmod] using hlo

/-- So the ping path is taken whenever too much is left. -/
theorem Config.forceThreshold_le (hlo : 4096 ≤ cfg.emptyFreq) (hhi : cfg.emptyFreq < 2 ^ 32)
    {k : ℕ} (hk : maxRetired cfg n < k) : cfg.forceThreshold ≤ k := by
  have hlt : cfg.emptyFreq - 1 < k := (le_max_left ..).trans_lt hk
  calc cfg.forceThreshold = cfg.emptyFreq - 4096 := cfg.forceThreshold_of_le hlo hhi
    _ ≤ cfg.emptyFreq - 1 := by omega
    _ ≤ k := hlt.le

/-- A scan that has looked at the whole list leaves no more objects than there are slots. -/
private theorem length_le_of_shown {pos : ℕ} (hnodup : (s.objs t).Nodup)
    (hshown : ∀ res ∈ (s.retired t).take pos, s.Shows res.obj)
    (hpos : (s.retired t).length ≤ pos) : (s.retired t).length ≤ maxRetired cfg n := by
  have hall : ∀ o ∈ s.objs t, ∃ u e, s.slots u e = some o := by
    intro o ho
    obtain ⟨res, hres, rfl⟩ := List.mem_map.mp ho
    exact hshown res (by rwa [List.take_of_length_le hpos])
  calc (s.retired t).length = (s.objs t).length := (List.length_map ..).symm
    _ ≤ n * slotsPerThread := hnodup.length_le_table hall
    _ ≤ maxRetired cfg n := le_max_right ..

variable [DecidableEq Obj] [DecidableEq Loc]

/-- **Interference freedom.** A step of somebody else that meets the condition. -/
theorem Held.frame {a : Actor n} (hok : Robust s a) (hstep : Step cfg s a s')
    (ha : a ≠ .thread t) (h : Held cfg s t (s.pc t)) : Held cfg s' t (s.pc t) := by
  obtain ⟨hf, -⟩ := hstep.frame ha
  have hlen : (s'.retired t).length = (s.retired t).length := congrArg List.length hf.retired
  generalize hp : s.pc t = p at h
  cases p with
  | hpScan path pos indx j =>
    cases path with
    | hp =>
      intro res hres
      rw [hf.retired] at hres
      have hshows := h res hres
      cases hstep with
      | handlerPublish u e hh => exact hok u e rfl hh t pos indx j hp res hres hshows
      | _ => exact hshows
    | rcu | loWm => trivial
  | saveTS _ | check _ | afterLoWm | minEpoch _ _ | rcuScan _ _ | sample _ | announceStart | ping _
  | confirm _ => trivial
  | _ => exact hlen.trans_le h

/-- **One step.** What is known of a thread's list before its own step is known after it. -/
theorem Held.step (hlo : 4096 ≤ cfg.emptyFreq) (hhi : cfg.emptyFreq < 2 ^ 32)
    (hnodup : (s.objs t).Nodup) (hstep : Step cfg s (.thread t) s')
    (h : Held cfg s t (s.pc t)) : Held cfg s' t (s'.pc t) := by
  have moved : ∀ {p : Pc Obj Loc}, s'.pc t = p → Held cfg s' t p → Held cfg s' t (s'.pc t) := by
    intro p hp hh
    rwa [hp]
  cases hstep with
  | alloc _ hr hpc =>
    -- nothing is retired by an allocation
    rw [hpc] at h
    refine moved (update_self ..) ?_
    split <;> exact h
  | bumpEpoch _ hr hpc | callStartOp _ hr hpc hact | startOp _ e hr hpc | callRead _ idx l hr hpc hact
  | readLoad _ idx l hr hpc | readReserve _ idx l ret hr hpc | readReturn _ idx l ret hr hpc hret
  | readRetry _ idx l ret hr hpc hret | callEndOp _ hr hpc hact | endOp _ e hr hpc
  | endOpReturn _ hr hpc =>
    -- outside the empties nothing is known
    rw [hpc] at h
    exact moved (update_self ..) h
  | retireEnterLoWm _ o rand hr hpc ho hpast hfirst | retireLoWm _ o hr hpc ho hpast hfirst
  | retire _ o hr hpc ho hpast | saveTS _ i hr hpc | saveTSEnd _ hr hpc
  | checkHit _ i hr hpc hge | checkMiss _ i hr hpc hlt | checkEnd _ hr hpc
  | callRcuEmpty _ hr hpc hout | minEpoch _ i m hr hpc | minEpochEnd _ m hr hpc
  | rcuFree _ pos m res hr hpc ho hlt | rcuKeep _ pos m res hr hpc ho hge
  | rcuForce _ pos m hr hpc hend hforce | sample _ i hr hpc | sampleEnd _ hr hpc
  | announceStart _ hr hpc | ping _ i hr hpc hi | pingSelf _ hr hpc | pingEnd _ hr hpc
  | confirm _ i hr hpc =>
    exact moved (update_self ..) trivial
  | retireReturn _ hr hpc hout =>
    -- below the capacity
    refine moved (update_self ..) ?_
    change (s.retired t).length ≤ maxRetired cfg n
    exact (Nat.le_sub_one_of_lt (not_le.mp hout)).trans (le_max_left ..)
  | rcuEnd _ pos m hr hpc hend hforce =>
    -- below the capacity the empty is over
    refine moved (update_self ..) ?_
    change (s.retired t).length ≤ maxRetired cfg n
    -- otherwise the ping path is taken
    by_contra hlt
    exact hforce (cfg.forceThreshold_le hlo hhi (not_le.mp hlt))
  | announceDone _ hr hpc =>
    refine moved (update_self ..) ?_
    intro res hres
    simp at hres
  | hpNext _ u e path pos indx res hr hpc hgo ho hne =>
    -- the scan of `hp_empty` begins with nothing kept
    rw [hpc] at h
    refine moved (update_self ..) ?_
    cases path with
    | hp => exact h
    | rcu | loWm => trivial
  | hpKeep _ u e path pos indx res hr hpc hgo ho heq =>
    rw [hpc] at h
    refine moved (update_self ..) ?_
    cases path with
    | hp =>
      -- one more object is in an entry of `slots`
      intro b hb
      have hb : b ∈ (s.retired t).take (pos + 1) := hb
      rw [List.take_add_one, ho, List.mem_append, Option.mem_toList] at hb
      rcases hb with hb | hb
      · exact h b hb
      · exact Option.some.inj hb ▸ ⟨u, e, heq⟩
    | rcu | loWm => trivial
  | hpFree _ path pos indx res hr hpc hgo ho =>
    -- the object is in no entry, so it leaves the list
    rw [hpc] at h
    refine moved (update_self ..) ?_
    cases path with
    | hp =>
      intro b hb
      have hb' : b ∈ (s.retired t).take pos := by
        simpa [State.goto, State.passToPool, List.take_eraseIdx_eq_take_of_le] using hb
      exact h b hb'
    | rcu | loWm => trivial
  | hpEnd _ pos indx hr hpc hstop =>
    -- what is kept is in an entry, so it is no more than there are entries
    rw [hpc] at h
    refine moved (update_self ..) ?_
    exact length_le_of_shown hnodup h (hstop.resolve_right fun hlo => by cases hlo.1)
  | loWmEnd _ pos indx hr hpc hstop => exact moved (update_self ..) trivial

/-- **Robustness.** With an `empty_freq` from 4096 on, in every run in which no handler overwrites
what a running `hp_empty` relies on, a thread between two calls, and so after every call of
`retire`, has fewer than `empty_freq` objects in its list or no more than there are slots. -/
theorem garbage_robust (hlo : 4096 ≤ cfg.emptyFreq) (hhi : cfg.emptyFreq < 2 ^ 32)
    (h : (system cfg).ReachableBy Robust s) (hpc : s.pc t = .idle) :
    (s.retired t).length ≤ max (cfg.emptyFreq - 1) (n * slotsPerThread) := by
  have hheld : ∀ t, Held cfg s t (s.pc t) := by
    refine h.invariant (P := fun s => ∀ t, Held cfg s t (s.pc t)) ?_ ?_
    · rintro _ rfl t
      exact Nat.zero_le _
    · intro s a s' hr ih hok hstep t
      have hB := (Inv.reached hr.reachable).base
      by_cases ha : a = .thread t
      · subst ha
        exact (ih t).step hlo hhi (hB.custody.nodup t) hstep
      · rw [(hstep.frame ha).2]
        exact (ih t).frame hok hstep ha
  have hidle := hheld t
  rw [hpc] at hidle
  exact hidle

/-! ### The configuration of the long running experiment -/

/-- With two threads and `empty_freq = 2048`, thread `1` starts an operation and stays in it, and
thread `0` retires 2048 objects. `rcu_empty` frees none of them and the ping path is not taken. -/
theorem garbage_unbounded :
    ¬ ∀ s : State 2 ℕ Unit, (system Config.longRunning).Reachable s → ∀ t, s.pc t = .idle →
      (s.retired t).length ≤ max (Config.longRunning.emptyFreq - 1) (2 * slotsPerThread) := by
  intro hall
  have hok : ∀ (s : State 2 ℕ Unit) a, Plain s a → (fun _ _ => True : _ → _ → Prop) s a :=
    fun _ _ _ => trivial
  obtain ⟨s₀, hR₀, hq₀, hres₀, -, hfresh₀, hempty₀, -⟩ := reach_started hok Config.longRunning 1
  obtain ⟨s₁, hR₁, hq₁, h₁⟩ := hq₀.retires hok (t := 0) hR₀ (c := 0) (fun o _ => hfresh₀ o) 2047
    (by simp [hempty₀, Config.longRunning])
  have ho : s₁.life 2047 = .pooled := by
    rw [h₁.life, if_neg (by simp)]
    exact hfresh₀ _
  have hR₂ := reach_unlinked hok hR₁ ho
  obtain ⟨s₂, hR₃, hq₂, h₂⟩ := reach_pushed hok (t := 0) (hq₁.unlinked 2047) hR₂ (update_self ..)
  have hres : s₂.reservations 1 = (0 : ℕ) := by
    rw [h₂.reservations]
    exact (congrFun h₁.reservations 1).trans hres₀
  have hlen : (s₂.retired 0).length = 2048 := by
    rw [h₂.length]
    have hlen₁ := h₁.length
    simpa [State.unlinked, hempty₀] using hlen₁
  obtain ⟨m, hR₄⟩ := reach_kept hok hR₃ (hq₂.runs 0) hres hlen.ge
  have hforce : ¬ Config.longRunning.forceThreshold ≤ (s₂.retired 0).length := by
    rw [hlen]
    decide
  have hend : Step Config.longRunning _ _ _ :=
    .rcuEnd (s₂.goto 0 (.rcuScan (s₂.retired 0).length m)) 0 _ m (hq₂.runs 0) (State.goto_pc ..)
      le_rfl hforce
  have hle := hall _ (hR₄.step hend trivial) 0 (State.goto_pc ..)
  have hle' : (s₂.retired 0).length ≤ max 2047 (2 * slotsPerThread) := hle
  rw [hlen] at hle'
  exact absurd hle' (by decide)

/-! ### A handler that is still storing -/

private theorem Robust.of_thread (s : State 2 ℕ Unit) (t : Fin 2) : Robust s (.thread t) := by
  intro u e ha
  cases ha

private theorem Robust.of_plain (s : State 2 ℕ Unit) (a : Actor 2) (h : Plain s a) :
    Robust s a := by
  rintro u e rfl
  exact h.elim

private theorem Robust.of_empty {s : State 2 ℕ Unit} {a : Actor 2}
    (hslots : ∀ u e, s.slots u e = none) : Robust s a := by
  rintro u e - - t pos indx j - r - ⟨v, f, hshow⟩
  rw [hslots] at hshow
  cases hshow

section Stalled

variable {cfg : Config} {s : State 2 ℕ Unit}

/-- The handler of thread `1` stores its first slot, while thread `0` waits for it. -/
private theorem reach_firstSlot (hR : (system cfg).ReachableBy Robust (s.goto 0 (.confirm 0)))
    (hr : s.Runs 0) (hping : s.pinged 1 = true) (hhand : s.handler 1 = none)
    (hslots : ∀ u e, s.slots u e = none) (hloc : s.localSlots 1 0 = some 0) :
    ∃ s' : State 2 ℕ Unit, (system cfg).ReachableBy Robust (s'.goto 0 (.confirm 0)) ∧ s'.Runs 0 ∧
      s'.retired = s.retired ∧ s'.localSlots = s.localSlots ∧ s'.handler 1 = some 1 ∧
      ∀ u e, s'.slots u e = if u = 1 ∧ e = 0 then some 0 else none := by
  have hR := hR.step (.handlerEnter _ 1 hping hhand) (.of_empty hslots)
  have hR := hR.step (.handlerPublish _ 1 0 rfl) (.of_empty hslots)
  let s' : State 2 ℕ Unit := { s.copySlot 1 0 with
    pinged := update s.pinged 1 false
    handler := update (update s.handler 1 (some 0)) 1 (some 1) }
  refine ⟨s', hR, hr, rfl, rfl, rfl, fun u e => ?_⟩
  show update s.slots 1 (update (s.slots 1) 0 (s.localSlots 1 0)) u e = _
  by_cases hu : u = 1
  · subst hu
    by_cases he : e = 0
    · subst he
      simp [hloc]
    · simp [he, hslots]
  · simp [hu, hslots]

/-- `hp_empty` finds the object in the first slot and keeps it. After that the handler stores the
second slot, which holds nothing. -/
private theorem reach_secondSlot {res : RCUInfo ℕ}
    (hR : (system cfg).ReachableBy Robust (s.goto 0 (.confirm 0))) (hr : s.Runs 0)
    (hget : (s.retired 0)[0]? = some res) (hres : res.obj = 0) (hhand : s.handler 1 = some 1)
    (hslots : ∀ u e, s.slots u e = if u = 1 ∧ e = 0 then some 0 else none)
    (hloc : s.localSlots 1 1 = none) :
    ∃ s' : State 2 ℕ Unit, (system cfg).ReachableBy Robust (s'.goto 0 (.hpScan .hp 1 1 0)) ∧
      s'.Runs 0 ∧ s'.retired = s.retired ∧ s'.slots = s.slots := by
  -- the entries of thread `0` are compared first, and show nothing
  have hR := reach_confirmed hR hr fun _ => Robust.of_thread _ 0
  have hR := reach_compared Robust.of_plain (s := s.announce 0) (k := 3) hR hr hget (by decide)
    fun u e hlt => by
      have hu : u ≠ 1 := by
        rintro rfl
        exact absurd hlt (by simp)
      show s.slots u e ≠ some res.obj
      rw [hslots, if_neg fun h => hu h.1]
      exact nofun
  have hkeep : Step cfg _ _ _ := .hpKeep ((s.announce 0).goto 0 (.hpScan .hp 0 0 3)) 0 1 0 .hp 0 0
    res hr (State.goto_pc ..) (not_hpScanStops (s := s.announce 0) hget) hget
    ((hslots 1 0).trans (congrArg some hres.symm))
  have hR := hR.step hkeep (.of_thread _ 0)
  rw [State.goto_goto] at hR
  let s' : State 2 ℕ Unit := { (s.announce 0).copySlot 1 1 with
    handler := update s.handler 1 (some 2) }
  have hsame : s'.slots = s.slots := by
    show update s.slots 1 (update (s.slots 1) 1 (s.localSlots 1 1)) = s.slots
    rw [hloc, ← (hslots 1 1).trans (if_neg (by simp)), update_eq_self, update_eq_self]
  have hR := hR.step (.handlerPublish _ 1 1 hhand) (by
    rintro u e ha hh t pos indx j - r - ⟨v, f, hshow⟩
    obtain rfl := Actor.handler.inj ha
    obtain rfl : (1 : Fin slotsPerThread) = e := Fin.ext (Option.some.inj (hhand.symm.trans hh))
    -- the object is in the first slot, and stays there
    exact ⟨v, f, (congrFun (congrFun hsame v) f).trans hshow⟩)
  exact ⟨s', hR, hr, rfl, hsame⟩

end Stalled

/-- With two threads and `empty_freq = 4096`, thread `1` stays in an operation in which it has read
object `0`, and thread `0` retires 4096 objects. `hp_empty` keeps object `0` and frees the others;
the handler of thread `1` is still storing slots when it begins. -/
theorem garbage_robust_stalled :
    ∃ s : State 2 ℕ Unit, s.pc 0 = .idle ∧ (s.retired 0).length = 1 ∧ s.slots 1 0 = some 0 ∧
      (s.retired 0).length ≤ max (4096 - 1) (2 * slotsPerThread) := by
  let cfg : Config := ⟨4096, 150⟩
  have hok := Robust.of_plain
  obtain ⟨s₀, hR₀, hq₀, hres₀, hact, hfresh₀, hempty₀, hloc₀⟩ := reach_started hok cfg 1
  obtain ⟨s₁, hR₁, hq₁, hres₁, hret₁, ho, hfresh, hheld, hother⟩ := hq₀.held hok hR₀ hact hfresh₀
  obtain ⟨s₂, hR₂, hobjs, hloc₂, -, hslots, hr, hping, hhand, -⟩ :=
    reach_forced hok hR₁ hq₁ (by rw [hres₁, hres₀]) ho hfresh (by rw [hret₁, hempty₀])
      (by decide) (by decide)
  obtain ⟨res, l, hlist, hres, hl⟩ := List.map_eq_cons_iff.mp hobjs
  have hloc : s₂.localSlots 1 0 = some 0 ∧ s₂.localSlots 1 1 = none := by
    rw [hloc₂]
    exact ⟨hheld.1, (hother 1 1 (.inr (by decide))).trans (hloc₀ 1 1)⟩
  -- the handler stores the slot of the object just before `hp_empty` reaches it
  obtain ⟨s₃, hR₃, hr₃, hret₃, hloc₃, hhand₃, hslots₃⟩ :=
    reach_firstSlot hR₂ hr hping hhand hslots hloc.1
  have hget : (s₃.retired 0)[0]? = some res := by
    rw [hret₃, hlist]
    rfl
  obtain ⟨s₄, hR₄, hr₄, hret₄, hslots₄⟩ :=
    reach_secondSlot hR₃ hr₃ hget hres hhand₃ hslots₃ (by rw [hloc₃]; exact hloc.2)
  -- the other objects are in no slot
  have hlist₄ : s₄.retired 0 = [res] ++ l := by
    rw [hret₄, hret₃]
    exact hlist
  obtain ⟨s₅, indx, hR₅, hr₅, hlist₅, hslots₅⟩ := reach_swept hok (l := l) hR₄ hr₄ hlist₄
    fun r hmem u e hshow => by
      rw [hslots₄, hslots₃] at hshow
      split_ifs at hshow
      have hpos : r.obj ∈ List.range' 1 (cfg.emptyFreq - 2) ++ [cfg.emptyFreq] :=
        hl ▸ List.mem_map_of_mem hmem
      rw [← Option.some.inj hshow] at hpos
      simp [cfg] at hpos
  have hend : Step cfg _ _ _ := .hpEnd (s₅.goto 0 (.hpScan .hp [res].length indx 0)) 0 _ indx hr₅
    (State.goto_pc ..) (.inl (congrArg List.length hlist₅).le)
  have hR := hR₅.step hend (.of_thread _ 0)
  have hpc : (((s₅.goto 0 (.hpScan .hp [res].length indx 0)).resetLoWmMetaData 0).finishRetire
      0).pc 0 = .idle := by simp [State.finishRetire]
  refine ⟨_, hpc, congrArg List.length hlist₅, ?_,
    garbage_robust (show 4096 ≤ cfg.emptyFreq from le_rfl) (by decide) hR hpc⟩
  show s₅.slots 1 0 = some 0
  rw [hslots₅, hslots₄, hslots₃]
  rfl

end EpochPop
end PopSetbench

import PopSetbench.Reclaim.IbrHpAsyf

/-!
# Hazard pointers with an asymmetric fence: freeing is safe, and garbage is bounded

`hpAsyf_safe`: in every run, however late the stores of the threads reach the memory, no object that
`empty` passes to the pool is named by a slot whose content `read` has validated while the object
was reachable and that its owner has not written since.

When `read` finds the pointer unchanged, the object is reachable and so not retired; the reservation
has been stored, although it may still be in the buffer of the thread. A scan that frees the object
begins after it was retired, and its barrier empties the buffer before the slots are copied. This is
how the slot covers the object (`Buffered.Covered`).

`hpAsyf_bounded`: between two calls a thread has fewer than `n * slotsPerThread + empty_freq` objects
in its list. A scan that has looked at the whole list leaves only objects that the copied slots
name.
-/

namespace PopSetbench
namespace IbrHpAsyf

open Function

variable {n : ℕ} {Obj Loc : Type}

/-! ### Safety -/

/-- **The invariant.** -/
structure Inv (s : State n Obj Loc) : Prop where
  custody : Custody s.retired fun o => s.life o = .retired
  /-- Validated slots cover what they name. -/
  valid : ∀ t i o, s.valid t i = true → s.localSlots t i = some o →
    s.shared.Covered t i (· = some o) o
  /-- What `read` has reserved is in the slot. -/
  reserved : ∀ t idx l ret, s.pc t = .readCheck idx l ret → s.localSlots t idx = ret.obj

theorem Inv.initial : Inv (State.initial n Obj Loc) where
  custody := Custody.nil _
  valid _ _ _ h := absurd h Bool.false_ne_true
  reserved _ _ _ _ h := nomatch h

variable {s s' : State n Obj Loc} {a : Actor n} {t u : Fin n} {i : Fin slotsPerThread} {o : Obj}

/-- What a thread sees after a reservation. -/
theorem State.localSlots_reserve (s : State n Obj Loc) (t u : Fin n) (j : Fin slotsPerThread)
    (v : Option Obj) : (s.reserve t j v).localSlots u =
      if u = t then update (s.localSlots u) j v else s.localSlots u := by
  unfold State.localSlots State.reserve
  dsimp only
  by_cases hu : u = t
  · subst hu
    rw [update_self, drain_concat, if_pos rfl]
  · rw [update_of_ne hu, if_neg hu]

/-- What a thread sees after a slot was cleared. -/
theorem State.localSlots_clear (s : State n Obj Loc) (t u : Fin n) (j : Fin slotsPerThread) :
    (s.clear t j).localSlots u =
      if u = t then update (s.localSlots u) j none else s.localSlots u := by
  unfold State.localSlots State.clear
  dsimp only
  by_cases hu : u = t
  · subst hu
    rw [update_self, update_self, if_pos rfl]
    rfl
  · rw [update_of_ne hu, update_of_ne hu, if_neg hu]

/-- A slot that was written is not validated. -/
private theorem valid_of_written {j : Fin slotsPerThread}
    (h : update s.valid t (update (s.valid t) j false) u i = true) :
    s.valid u i = true ∧ ¬ (u = t ∧ i = j) := by
  by_cases hu : u = t
  · subst hu
    rw [update_self] at h
    by_cases hi : i = j
    · subst hi
      rw [update_self] at h
      cases h
    · rw [update_of_ne hi] at h
      exact ⟨h, fun hh => hi hh.2⟩
  · rw [update_of_ne hu] at h
    exact ⟨h, fun hh => hu hh.1⟩

variable [DecidableEq Obj] [DecidableEq Loc] {cfg : Config}

/-- Where a thread is, is changed by its own steps only. -/
theorem Step.pc_of_ne (hstep : Step cfg s a s') (ha : a ≠ .thread t) : s'.pc t = s.pc t := by
  cases hstep with
  | write | link | unlink | flush => rfl
  | _ =>
    have ht : t ≠ _ := fun h => ha (congrArg Actor.thread h.symm)
    first | rfl | exact update_of_ne ht _ _

/-- **A validated slot** was validated before and is as it was, or is validated now. -/
theorem Step.valid (hstep : Step cfg s a s') (h : s'.valid t i = true) :
    (s.valid t i = true ∧ s'.localSlots t i = s.localSlots t i) ∨
      (s'.shared = s.shared ∧ ∃ l ret o, s.pc t = .readCheck i l ret ∧ ret.obj = some o ∧
        s.life o = .linked) := by
  -- a flush changes nothing that the owner sees
  cases hstep with
  | flush t' j v rest hb =>
    refine .inl ⟨h, ?_⟩
    by_cases ht : t = t'
    · subst ht
      exact congrFun (Buffered.view_flush (B := s.shared) hb) i
    · have hstep : Buffered.Step Unnamed t' s.shared none _ := .flush j v rest hb
      exact congrFun (hstep.view_of_ne ht) i
  | readReserve t' idx l ret hpc =>
    -- a `read` that stores loses the validation of its own slot
    obtain ⟨hv, hne⟩ := valid_of_written h
    refine .inl ⟨hv, ?_⟩
    show (s.reserve t' idx ret.obj).localSlots t i = _
    rw [State.localSlots_reserve]
    split
    · next ht => exact update_of_ne (fun hi => hne ⟨ht, hi⟩) ..
    · rfl
  | endOp t' j hpc =>
    obtain ⟨hv, hne⟩ := valid_of_written h
    refine .inl ⟨hv, ?_⟩
    show (s.clear t' j).localSlots t i = _
    rw [State.localSlots_clear]
    split
    · next ht => exact update_of_ne (fun hi => hne ⟨ht, hi⟩) ..
    · rfl
  | barrier t' q done hpc hq =>
    -- nor does a barrier change what the owner sees
    refine .inl ⟨h, ?_⟩
    exact congrFun (Buffered.view_empty (B := s.shared) q t) i
  | readReturn t' idx l ret hpc hret =>
    -- the slot is validated: the pointer was loaded again, and the object is linked
    have h : update s.valid t' (update (s.valid t') idx
      (ret.obj.any fun o => s.life o = .linked)) t i = true := h
    by_cases ht : t = t'
    · subst ht
      rw [update_self] at h
      by_cases hi : i = idx
      · subst hi
        rw [update_self, Option.any_eq_true_iff_get] at h
        obtain ⟨hsome, hlinked⟩ := h
        exact .inr ⟨State.shared_goto hpc rfl rfl, l, ret, ret.obj.get hsome, hpc,
          (Option.some_get hsome).symm, of_decide_eq_true hlinked⟩
      · rw [update_of_ne hi] at h
        exact .inl ⟨h, rfl⟩
    · rw [update_of_ne ht] at h
      exact .inl ⟨h, rfl⟩
  | _ => exact .inl ⟨h, rfl⟩

/-- **Invariant preservation.** -/
theorem Inv.step (hI : Inv s) (hstep : Step cfg s a s') : Inv s' where
  -- who is responsible for an object: nobody, the data structure, a bag
  custody := by
    refine hI.custody.step ?_
    cases hstep with
    | link o ho => exact .of_update rfl (by simp [ho]) (by decide)
    | unlink o ho => exact .of_update rfl (by simp [ho]) (by decide)
    | retire t o hpc ho hc => exact .push t o ho rfl rfl
    | retireEmpty t o hpc ho hc => exact .push t o ho rfl rfl
    | scanFree t pos o hpc ho hc => exact .free t pos o ho rfl rfl
    | _ => exact .keep rfl fun _ => Iff.rfl
  valid t i o hv ho := by
    rcases hstep.valid hv with ⟨hv', hsame⟩ | ⟨hsh, l, ret, o', hpc, hret, hlinked⟩
    · have hc := hI.valid t i o hv' (hsame.symm.trans ho)
      rcases hstep.buffered with heq | ⟨u, f, hs⟩
      · rw [heq]
        exact hc
      · exact hc.step hs ho
    · -- the object is reachable, so it is in no list
      rw [hsh]
      have hview : s.localSlots t i = some o :=
        (congrFun (congrArg (Buffered.view · t) hsh) i).symm.trans ho
      have heq := (hI.reserved t i l ret hpc).symm.trans hview
      obtain rfl : o' = o := Option.some.inj (hret.symm.trans heq)
      exact .of_not_retired hview (hI.custody.not_mem (by simp [hlinked]))
  reserved t idx l ret hpc := by
    -- a step of the thread itself
    by_cases ha : a = .thread t
    · subst ha
      cases hstep with
      | readReserve _ idx' l' ret' hpc' =>
        have hpc : update s.pc t (.readCheck idx' l' ret') t = .readCheck idx l ret := hpc
        rw [update_self] at hpc
        cases hpc
        show (s.reserve t idx ret.obj).localSlots t idx = _
        rw [State.localSlots_reserve, if_pos rfl, update_self]
      | retire _ o hpc' ho hc =>
        have hpc : s.pc t = .readCheck idx l ret := hpc
        rw [hpc'] at hpc
        cases hpc
      | _ =>
        have hpc := (update_self t _ s.pc).symm.trans hpc
        cases hpc
    · -- nobody else writes the slots of the thread
      have hpc' := (hstep.pc_of_ne ha).symm.trans hpc
      rw [← hI.reserved t idx l ret hpc']
      cases hstep with
      | flush t' j v rest hb =>
        by_cases ht : t = t'
        · subst ht
          exact congrFun (Buffered.view_flush (B := s.shared) hb) idx
        · have hstep : Buffered.Step Unnamed t' s.shared none _ := .flush j v rest hb
          exact congrFun (hstep.view_of_ne ht) idx
      | readReserve t' idx' l' ret' hpc'' =>
        have ht : t ≠ t' := fun h => ha (congrArg Actor.thread h.symm)
        show (s.reserve t' idx' ret'.obj).localSlots t idx = _
        rw [State.localSlots_reserve, if_neg ht]
      | endOp t' j hpc'' =>
        have ht : t ≠ t' := fun h => ha (congrArg Actor.thread h.symm)
        show (s.clear t' j).localSlots t idx = _
        rw [State.localSlots_clear, if_neg ht]
      | barrier t' q done hpc'' hq => exact congrFun (Buffered.view_empty (B := s.shared) q t) idx
      | _ => rfl

theorem Inv.of_reachable (h : (system cfg).Reachable s) : Inv s := by
  refine h.invariant ?_ fun s a s' _ hI _ hs => hI.step hs
  rintro s rfl
  exact Inv.initial

/-- **The barrier is enough.** What `empty` passes to the pool is named by no slot that `read` has
validated while the object was reachable, as its owner sees the slot. -/
theorem hpAsyf_safe (h : (system cfg).Reachable s) (hfree : PassesToPool s t o) (u : Fin n)
    (i : Fin slotsPerThread) (hv : s.valid u i = true) : s.localSlots u i ≠ some o := by
  obtain ⟨pos, hpc, hget, hc⟩ := hfree
  intro hnamed
  have hcov := (Inv.of_reachable h).valid u i o hv hnamed
  have hcop : s.shared.copied t = n * slotsPerThread := by
    show (s.pc t).copied = _
    rw [hpc]
    rfl
  exact hc ⟨u, i, hcov.temp_of_copied hcop (List.mem_of_getElem? hget)⟩

omit [DecidableEq Obj] [DecidableEq Loc] in
/-- Thread `1` has validated object 1, and its reservation is still in the buffer when thread `0`
retires two objects and passes the first one to the pool. -/
theorem hpAsyf_safe_of_freed : ∃ s : State 2 ℕ Unit, PassesToPool s 0 0 ∧ s.valid 1 0 = true ∧
    s.localSlots 1 0 ≠ some 0 := by
  have h₀ : (system ⟨1⟩).Reachable (State.initial 2 ℕ Unit) := .init rfl
  have h₁ := ((h₀.step (.link _ 0 rfl)).step (.link _ 1 rfl)).step (.link _ 2 rfl)
  have h₂ := (h₁.step (.write _ () ⟨some 1, 0⟩)).step (.callRead _ 1 0 () rfl)
  have h₃ := ((h₂.step (.readLoad _ 1 0 () rfl)).step (.readReserve _ 1 0 () _ rfl)).step
    (.readReturn _ 1 0 () _ rfl rfl)
  have h₄ := (h₃.step (.unlink _ 0 rfl)).step (.unlink _ 2 rfl)
  have h₅ := (h₄.step (.retire _ 0 0 rfl rfl (by decide))).step (.retireEmpty _ 0 2 rfl rfl rfl)
  have h₆ := ((h₅.step (.barrier _ 0 1 _ rfl (by decide))).step (.barrier _ 0 0 _ rfl (by decide))).step
    (.barrierEnd _ 0 _ rfl (by decide))
  have h₇ := ((h₆.step (.snapshot _ 0 0 0 rfl)).step (.snapshot _ 0 0 1 rfl)).step
    (.snapshot _ 0 0 2 rfl)
  have h₈ := ((h₇.step (.snapshot _ 0 1 0 rfl)).step (.snapshot _ 0 1 1 rfl)).step
    (.snapshot _ 0 1 2 rfl)
  have h₉ := h₈.step (.snapshotEnd _ 0 rfl)
  refine ⟨_, ?pass, rfl, hpAsyf_safe h₉ ?pass 1 0 rfl⟩
  exact ⟨0, rfl, rfl, unnamed_iff.mp (by unfold Unnamed; decide)⟩

/-! ### Bounded garbage -/

omit [DecidableEq Obj] [DecidableEq Loc]

/-- Every object before position `pos` was found in the copied slots. -/
def KeptBelow (s : State n Obj Loc) (t : Fin n) (pos : ℕ) : Prop :=
  ∀ o ∈ (s.retired t).take pos, s.conflict t o

/-- What is known of the list and the counter of thread `t` at each point of the code. -/
def Held (cfg : Config) (s : State n Obj Loc) (t : Fin n) : Pc n Obj Loc → Prop
  | .barrier _ => s.cntrs t = 0
  | .snapshot _ => s.cntrs t = 0
  | .scan pos => s.cntrs t = 0 ∧ KeptBelow s t pos
  | _ => (s.retired t).length < n * slotsPerThread + s.cntrs t ∧ s.cntrs t ≤ cfg.emptyFreq

/-- What is known depends on the list, the counter and the copied slots only. -/
theorem Held.of_eq {p : Pc n Obj Loc} (hret : s'.retired t = s.retired t)
    (hc : s'.cntrs t = s.cntrs t) (htemp : s'.tempLocalSlots t = s.tempLocalSlots t)
    (h : Held cfg s t p) : Held cfg s' t p := by
  unfold Held KeptBelow State.conflict at *
  rw [hret, hc, htemp]
  exact h

/-- A scan that has looked at the whole list leaves no more objects than there are slots. -/
private theorem KeptBelow.length_le {pos : ℕ} (hnodup : (s.retired t).Nodup)
    (hk : KeptBelow s t pos) (hpos : (s.retired t)[pos]? = none) :
    (s.retired t).length ≤ n * slotsPerThread := by
  have hall : ∀ o ∈ s.retired t, ∃ u e, s.tempLocalSlots t u e = some o := by
    rw [← List.take_of_length_le (List.getElem?_eq_none_iff.mp hpos)]
    exact hk
  exact hnodup.length_le_table hall

variable [DecidableEq Obj] [DecidableEq Loc]

/-- The steps of others leave the list, the counter and the copies of a thread alone. -/
theorem Step.others (hstep : Step cfg s a s') (ha : a ≠ .thread t) : s'.retired t = s.retired t ∧
    s'.cntrs t = s.cntrs t ∧ s'.tempLocalSlots t = s.tempLocalSlots t := by
  cases hstep with
  | write | link | unlink | flush => exact ⟨rfl, rfl, rfl⟩
  | _ =>
    have ht : t ≠ _ := fun h => ha (congrArg Actor.thread h.symm)
    refine ⟨?_, ?_, ?_⟩ <;> first | rfl | exact update_of_ne ht _ _

/-- **One step.** What is known of a thread's list before its own step is known after it. -/
theorem Held.step (hfreq : 0 < cfg.emptyFreq) (hnodup : (s.retired t).Nodup)
    (hstep : Step cfg s (.thread t) s') (h : Held cfg s t (s.pc t)) : Held cfg s' t (s'.pc t) := by
  have moved : ∀ {p : Pc n Obj Loc}, s'.pc t = p → Held cfg s' t p → Held cfg s' t (s'.pc t) := by
    intro p hp hh
    rwa [hp]
  -- outside `retire` the bag does not change
  cases hstep with
  | callRead _ idx l hpc | callEndOp _ hpc | endOp _ i hpc | endOpReturn _ hpc
  | readLoad _ idx l hpc | readReserve _ idx l ret hpc | readReturn _ idx l ret hpc hret
  | readRetry _ idx l ret hpc hret | barrier _ u done hpc hu
  | barrierEnd _ done hpc hdone | snapshot _ u i hpc =>
    rw [hpc] at h
    exact moved (update_self ..) h
  | retire _ o hpc ho hc =>
    -- the threshold is not reached yet
    rw [hpc] at h
    refine moved hpc ?_
    show (update s.retired t (s.retired t ++ [o]) t).length <
      n * slotsPerThread + update s.cntrs t (s.cntrs t + 1) t ∧
      update s.cntrs t (s.cntrs t + 1) t ≤ cfg.emptyFreq
    rw [update_self, update_self, List.length_append, List.length_singleton]
    exact ⟨Nat.succ_lt_succ h.1, Nat.lt_of_le_of_ne h.2 hc⟩
  -- the bag is as long as the threshold
  | retireEmpty _ o hpc ho hc => exact moved (update_self ..) (update_self ..)
  | snapshotEnd _ hpc =>
    rw [hpc] at h
    exact moved (update_self ..) ⟨h, by simp [KeptBelow]⟩
  | scanKeep _ pos o hpc ho hc =>
    rw [hpc] at h
    refine moved (update_self ..) ⟨h.1, fun b hb => ?_⟩
    -- one more object has been found in the copied slots
    have hb' : b ∈ (s.retired t).take (pos + 1) := hb
    rw [List.take_add_one, ho, List.mem_append, Option.mem_toList] at hb'
    rcases hb' with hb' | hb'
    · exact h.2 b hb'
    · exact Option.some.inj hb' ▸ hc
  | scanFree _ pos o hpc ho hc =>
    rw [hpc] at h
    refine moved (update_self ..) ⟨h.1, fun b hb => ?_⟩
    -- the objects before the iterator stay where they are
    have hb' : b ∈ (s.retired t).take pos := by
      simpa [State.goto, State.passToPool, List.take_eraseIdx_eq_take_of_le] using hb
    exact h.2 b hb'
  | scanEnd _ pos hpc ho =>
    -- what is left was found in the slots that were copied
    rw [hpc] at h
    refine moved (update_self ..) ?_
    show (s.retired t).length < n * slotsPerThread + update s.cntrs t (s.cntrs t + 1) t ∧
      update s.cntrs t (s.cntrs t + 1) t ≤ cfg.emptyFreq
    rw [update_self, h.1]
    exact ⟨Nat.lt_succ_of_le (h.2.length_le hnodup ho), hfreq⟩

/-- **Bounded garbage.** Between two calls, and so after every call of `retire`, a list holds fewer
than `n * slotsPerThread + empty_freq` objects, whatever the other threads do. -/
theorem hpAsyf_bounded (hfreq : 0 < cfg.emptyFreq) (h : (system cfg).Reachable s)
    (hpc : s.pc t = .idle) : (s.retired t).length < n * slotsPerThread + cfg.emptyFreq := by
  have hall : Inv s ∧ ∀ t, Held cfg s t (s.pc t) := by
    refine h.invariant (P := fun s => Inv s ∧ ∀ t, Held cfg s t (s.pc t)) ?_
      fun s a s' _ hB _ hstep => ⟨hB.1.step hstep, fun t => ?_⟩
    · rintro _ rfl
      refine ⟨Inv.initial, fun t => ⟨?_, Nat.zero_le _⟩⟩
      exact Nat.mul_pos t.pos (by decide)
    · by_cases ha : a = .thread t
      · subst ha
        exact (hB.2 t).step hfreq (hB.1.custody.nodup t) hstep
      · obtain ⟨hret, hc, htemp⟩ := hstep.others ha
        rw [hstep.pc_of_ne ha]
        exact (hB.2 t).of_eq hret hc htemp
  have hheld := hall.2 t
  rw [hpc] at hheld
  exact hheld.1.trans_le (Nat.add_le_add_left hheld.2 _)

omit [DecidableEq Obj] [DecidableEq Loc] in
/-- With a period of two, thread `1` has reserved object 0, and the store is in its buffer. Thread
`0` retires it and three others: the third call scans the list, keeps object 0 and frees the
others. -/
theorem hpAsyf_bounded_scanned : ∃ s : State 2 ℕ Unit, s.pc 0 = .idle ∧ s.retired 0 = [0, 3] ∧
    s.life 1 = .pooled ∧ (s.retired 0).length < 2 * slotsPerThread + 2 := by
  have hR : (system ⟨2⟩).Reachable (State.initial 2 ℕ Unit) := .init rfl
  have hR := hR.step (.link _ 0 rfl)
  have hR := hR.step (.write _ () ⟨some 0, 0⟩)
  have hR := hR.step (.callRead _ 1 0 () rfl)
  have hR := hR.step (.readLoad _ 1 0 () rfl)
  have hR := hR.step (.readReserve _ 1 0 () _ rfl)
  have hR := hR.step (.readReturn _ 1 0 () _ rfl rfl)
  -- thread 0 retires it, and two others
  have hR := hR.step (.unlink _ 0 rfl)
  have hR := hR.step (.retire _ 0 0 rfl rfl (by decide))
  have hR := hR.step (.link _ 1 rfl)
  have hR := hR.step (.unlink _ 1 rfl)
  have hR := hR.step (.retire _ 0 1 rfl rfl (by decide))
  have hR := hR.step (.link _ 2 rfl)
  have hR := hR.step (.unlink _ 2 rfl)
  have hR := hR.step (.retireEmpty _ 0 2 rfl rfl rfl)
  -- the barrier, and the copies
  have hR := hR.step (.barrier _ 0 1 _ rfl (by decide))
  have hR := hR.step (.barrier _ 0 0 _ rfl (by decide))
  have hR := hR.step (.barrierEnd _ 0 _ rfl (by decide))
  have hR := hR.step (.snapshot _ 0 0 0 rfl)
  have hR := hR.step (.snapshot _ 0 0 1 rfl)
  have hR := hR.step (.snapshot _ 0 0 2 rfl)
  have hR := hR.step (.snapshot _ 0 1 0 rfl)
  have hR := hR.step (.snapshot _ 0 1 1 rfl)
  have hR := hR.step (.snapshot _ 0 1 2 rfl)
  have hR := hR.step (.snapshotEnd _ 0 rfl)
  -- object 0 stays, the others are freed
  have hR := hR.step (.scanKeep _ 0 0 0 rfl rfl ⟨1, 0, rfl⟩)
  have hR := hR.step (.scanFree _ 0 1 1 rfl rfl (unnamed_iff.mp (by unfold Unnamed; decide)))
  have hR := hR.step (.scanFree _ 0 1 2 rfl rfl (unnamed_iff.mp (by unfold Unnamed; decide)))
  have hR := hR.step (.scanEnd _ 0 1 rfl rfl)
  have hR := hR.step (.link _ 3 rfl)
  have hR := hR.step (.unlink _ 3 rfl)
  have hR := hR.step (.retire _ 0 3 rfl rfl (by decide))
  exact ⟨_, rfl, rfl, rfl, hpAsyf_bounded Nat.two_pos hR rfl⟩

end IbrHpAsyf
end PopSetbench

import PopSetbench.Library.Stamps
import PopSetbench.Reclaim.IbrRcu

/-!
# RCU with reservations: freeing is safe

`ibrRcu_safe`: in every run, no object that `empty` passes to the pool is one that a thread has
reached, while it was linked, in an operation that has not ended.

The reservations are announcements in the sense of `Stamps`: `Step.stamps`. A thread that stores its
reservation after `empty` has looked at it has not reached anything yet, and what it reaches
afterwards is still linked, so it is not in the list that `empty` is about to scan.
-/

namespace PopSetbench
namespace IbrRcu

open Function

variable {n : ℕ} {Obj Loc : Type}

/-- The reservations as announcements. -/
def State.view (s : State n Obj Loc) : Stamps n (RCUInfo Obj) Obj where
  obj := RCUInfo.obj
  stamp := RCUInfo.epoch
  life := s.life
  clock := s.epoch
  announced := s.reservations
  held := s.held
  retired := s.retired

/-- What thread `t` knows at each point of the code. -/
def Own (s : State n Obj Loc) (t : Fin n) : Pc → Prop
  | .startOp e => e ≤ s.epoch ∧ s.inOp t = false
  | .empty i m => s.view.Below t i m
  | .scan _ m => s.view.Below t n m
  | _ => True

/-- **The invariant.** -/
structure Inv (s : State n Obj Loc) : Prop where
  stamps : s.view.Inv
  /-- Only a thread in an operation holds anything, and it has made a reservation. -/
  held : ∀ u o, s.held u o = true → s.inOp u = true
  reserved : ∀ u, s.inOp u = true → s.reservations u ≠ ⊤
  own : ∀ t, Own s t (s.pc t)

theorem Inv.initial : Inv (State.initial n Obj Loc) where
  stamps := ⟨Custody.nil _, fun _ h => absurd rfl h, fun _ _ _ h => absurd h List.not_mem_nil⟩
  held _ _ h := nomatch h
  reserved _ h := nomatch h
  own _ := trivial

/-- **Nothing that is held is freed.** -/
theorem Inv.safe {s : State n Obj Loc} (hI : Inv s) : Safe s := by
  intro t res ⟨pos, m, hpc, hget, hlt⟩ u
  have hown := hI.own t
  rw [hpc] at hown
  exact Stamps.Below.not_held hown (List.mem_of_getElem? hget) hlt u

variable [DecidableEq Obj] [DecidableEq Loc] {cfg : Config} {s s' : State n Obj Loc}
  {a : Actor n} {t u : Fin n} {o : Obj}

/-- What belongs to thread `t` is changed by its own steps only. -/
theorem Step.frame (hstep : Step cfg s a s') (ha : a ≠ .thread t) :
    s'.retired t = s.retired t ∧ s'.pc t = s.pc t ∧ s'.inOp t = s.inOp t ∧
      s'.reservations t = s.reservations t ∧ s'.held t = s.held t := by
  cases hstep with
  | write | link | unlink => exact ⟨rfl, rfl, rfl, rfl, rfl⟩
  | _ =>
    have ht : t ≠ _ := fun h => ha (congrArg Actor.thread h.symm)
    refine ⟨?_, ?_, ?_, ?_, ?_⟩ <;> first | rfl | exact update_of_ne ht _ _

/-- Every step is one of stamped objects. -/
theorem Step.stamps (hI : Inv s) (hstep : Step cfg s a s') :
    Stamps.Step s.view s'.view := by
  have hown := hI.own
  have life : ∀ {o : Obj} {l : Life}, s.life o ≠ .retired → l ≠ .retired →
      ∀ b, update s.life o l b = .retired ↔ s.life b = .retired := by
    intro o l ho hl b
    by_cases hb : b = o
    · subst hb
      rw [update_self]
      exact ⟨fun h => absurd h hl, fun h => absurd h ho⟩
    · rw [update_of_ne hb]
  cases hstep with
  | link o h => exact .pass ⟨rfl, rfl⟩ (life (by simp [h]) (by simp)) le_rfl rfl rfl rfl
  | unlink o h => exact .pass ⟨rfl, rfl⟩ (life (by simp [h]) (by simp)) le_rfl rfl rfl rfl
  | bumpEpoch t hpc => exact .pass ⟨rfl, rfl⟩ (fun _ => Iff.rfl) (Nat.le_succ _) rfl rfl rfl
  | reserve t e hpc =>
    have hle := hown t
    rw [hpc] at hle
    exact .announce t e (fun _ => by exact_mod_cast hle.1) ⟨rfl, rfl⟩ rfl rfl rfl rfl rfl
  | endOp t hpc hop =>
    exact .announce t ⊤ (fun h => absurd rfl h) ⟨rfl, rfl⟩ rfl rfl rfl rfl rfl
  | access t l hpc hop =>
    refine .access (fun u o h => ?_) ⟨rfl, rfl⟩ rfl rfl rfl rfl
    have h : update s.held t (fun o => s.held t o || ((s.mem l).obj = some o && s.life o = .linked))
      u o = true := h
    by_cases hu : u = t
    · subst hu
      rw [update_self, Bool.or_eq_true] at h
      refine h.imp id fun hnew => ?_
      rw [Bool.and_eq_true, decide_eq_true_eq, decide_eq_true_eq] at hnew
      exact hnew.2
    · rw [update_of_ne hu] at h
      exact .inl h
  | retire t o hpc ho hfreq =>
    exact .retire t ⟨o, s.epoch⟩ ho rfl ⟨rfl, rfl⟩ rfl rfl rfl rfl rfl
  | retireEmpty t o hpc ho hfreq =>
    exact .retire t ⟨o, s.epoch⟩ ho rfl ⟨rfl, rfl⟩ rfl rfl rfl rfl rfl
  | scanFree t pos m res hpc ho hfree =>
    exact .free t pos res ho ⟨rfl, rfl⟩ rfl rfl rfl rfl rfl
  | _ => exact .pass ⟨rfl, rfl⟩ (fun _ => Iff.rfl) le_rfl rfl rfl rfl

theorem Step.epoch_le (hI : Inv s) (hstep : Step cfg s a s') : s.epoch ≤ s'.epoch :=
  (hstep.stamps hI).clock_le

/-- **Interference freedom.** What a thread knows survives the steps of others. -/
theorem Own.frame (hI : Inv s) (hstep : Step cfg s a s') (ha : a ≠ .thread t) {p : Pc}
    (h : Own s t p) : Own s' t p := by
  obtain ⟨hret, -, hop, -, -⟩ := hstep.frame ha
  have hsub : ∀ r ∈ s'.retired t, r ∈ s.retired t := by
    rw [hret]
    exact fun _ hr => hr
  cases p with
  | startOp e => exact ⟨h.1.trans (hstep.epoch_le hI), hop.trans h.2⟩
  | empty i m => exact Stamps.Below.step hI.stamps (hstep.stamps hI) hsub h
  | scan pos m => exact Stamps.Below.step hI.stamps (hstep.stamps hI) hsub h
  | _ => trivial

/-- What the acting thread knows afterwards. -/
theorem Step.own (hI : Inv s) (hstep : Step cfg s (.thread t) s') : Own s' t (s'.pc t) := by
  have hown := hI.own t
  have hst := hstep.stamps hI
  have goes : ∀ {p : Pc}, s'.pc t = p → Own s' t p → Own s' t (s'.pc t) := by
    intro p hp h
    rwa [hp]
  -- a scan goes on with a list that is no longer
  have below : ∀ {i : ℕ} {m : ℕ∞}, (∀ r ∈ s'.retired t, r ∈ s.retired t) → s.view.Below t i m →
      s'.view.Below t i m := fun hsub h => Stamps.Below.step hI.stamps hst hsub h
  cases hstep with
  | alloc _ hpc hmod => exact goes hpc trivial
  | allocBump _ hpc hmod => exact goes (update_self ..) trivial
  | bumpEpoch _ hpc => exact goes (update_self ..) trivial
  | startOp _ hpc hop => exact goes (update_self ..) ⟨le_refl s.epoch, hop⟩
  | reserve _ e hpc => exact goes (update_self ..) trivial
  | access _ l hpc hop => exact goes hpc trivial
  | endOp _ hpc hop => exact goes hpc trivial
  | retire _ o hpc ho hfreq => exact goes hpc trivial
  | retireEmpty _ o hpc ho hfreq => exact goes (update_self ..) (Stamps.Below.zero t ⊤)
  | load _ i m hpc =>
    rw [hpc] at hown
    refine goes (update_self ..) (below (fun r hr => hr) (hown.succ fun r hr hheld => ?_))
    -- a holder is in its operation, so it has reserved an epoch before the retirement
    exact hI.stamps.after i t r hr hheld (hI.reserved i (hI.held i _ hheld))
  | loaded _ m hpc =>
    rw [hpc] at hown
    exact goes (update_self ..) (below (fun r hr => hr) hown)
  | scanKeep _ pos m res hpc ho hkeep =>
    rw [hpc] at hown
    exact goes (update_self ..) (below (fun r hr => hr) hown)
  | scanFree _ pos m res hpc ho hfree =>
    rw [hpc] at hown
    refine goes (update_self ..) (below (fun r hr => ?_) hown)
    have hr : r ∈ update s.retired t ((s.retired t).eraseIdx pos) t := hr
    rw [update_self] at hr
    exact List.mem_of_mem_eraseIdx hr
  | scanEnd _ pos m hpc ho => exact goes (update_self ..) trivial

/-- What a thread's own step means for its operation. -/
private theorem Step.operation (hI : Inv s) (hstep : Step cfg s (.thread t) s') :
    (∀ o, s'.held t o = true → s'.inOp t = true) ∧
      (s'.inOp t = true → s'.reservations t ≠ ⊤) := by
  have same : s'.inOp = s.inOp → s'.reservations = s.reservations → s'.held = s.held →
      (∀ o, s'.held t o = true → s'.inOp t = true) ∧
        (s'.inOp t = true → s'.reservations t ≠ ⊤) := by
    intro hop hres hheld
    rw [hop, hres, hheld]
    exact ⟨hI.held t, hI.reserved t⟩
  cases hstep with
  | reserve _ e hpc =>
    refine ⟨fun _ _ => update_self .., fun _ => ?_⟩
    change update s.reservations t (e : ℕ∞) t ≠ ⊤
    rw [update_self]
    exact ENat.natCast_ne_top e
  | endOp _ hpc hop =>
    refine ⟨fun o h => ?_, fun h => ?_⟩
    · have h : update s.held t (fun _ => false) t o = true := h
      rw [update_self] at h
      cases h
    · have h : update s.inOp t false t = true := h
      rw [update_self] at h
      cases h
  | access _ l hpc hop => exact ⟨fun _ _ => hop, hI.reserved t⟩
  | _ => exact same rfl rfl rfl

/-- **Invariant preservation.** -/
theorem Inv.step (hI : Inv s) (hstep : Step cfg s a s') : Inv s' := by
  have operation : ∀ u, (∀ o, s'.held u o = true → s'.inOp u = true) ∧
      (s'.inOp u = true → s'.reservations u ≠ ⊤) := by
    intro u
    by_cases ha : a = .thread u
    · subst ha
      exact hstep.operation hI
    · obtain ⟨-, -, hop, hres, hheld⟩ := hstep.frame ha
      rw [hop, hres, hheld]
      exact ⟨hI.held u, hI.reserved u⟩
  refine ⟨hI.stamps.step (hstep.stamps hI), fun u => (operation u).1, fun u => (operation u).2,
    fun t => ?_⟩
  by_cases ha : a = .thread t
  · subst ha
    exact hstep.own hI
  · rw [(hstep.frame ha).2.1]
    exact (hI.own t).frame hI hstep ha

theorem Inv.of_reachable (h : (system cfg).Reachable s) : Inv s := by
  refine h.invariant ?_ fun s a s' _ hI _ hs => hI.step hs
  rintro s rfl
  exact Inv.initial

/-- **RCU with reservations is safe.** What `empty` passes to the pool was not reached, while it was
linked, by a thread in an operation that has not ended. -/
theorem ibrRcu_safe (h : (system cfg).Reachable s) : Safe s :=
  (Inv.of_reachable h).safe

/-- Thread `1` loads epoch `0`, and thread `0`, whose every call empties its list, retires object
`0` and looks at both reservations before thread `1` stores its own: the object is freed. -/
theorem ibrRcu_safe_of_late :
    ∃ s : State 2 ℕ Unit, s.reservations 1 = (0 : ℕ) ∧ PassesToPool s 0 ⟨0, 0⟩ ∧ Safe s := by
  let cfg : Config := ⟨1, 150⟩
  have hR : (system cfg).Reachable (State.initial 2 ℕ Unit) := .init rfl
  have hR := hR.step (.link _ 0 rfl)
  have hR := hR.step (.startOp _ 1 rfl rfl)
  have hR := hR.step (.unlink _ 0 rfl)
  have hR := hR.step (.retireEmpty _ 0 0 rfl rfl (Nat.mod_one _))
  have hR := hR.step (.load _ 0 0 ⊤ rfl)
  have hR := hR.step (.load _ 0 1 ⊤ rfl)
  have hR := hR.step (.reserve _ 1 0 rfl)
  have hR := hR.step (.loaded _ 0 ⊤ rfl)
  exact ⟨_, rfl, ⟨0, ⊤, rfl, rfl, ENat.natCast_lt_top 0⟩, ibrRcu_safe hR⟩

end IbrRcu
end PopSetbench

import PopSetbench.Library.Grace
import PopSetbench.Reclaim.DebraGrace

/-!
# DEBRA waits for operations

DEBRA as a data structure sees it: `Call` gives its steps the labels of `GraceStep`. A `startOp`
takes effect when the epoch is announced; until then the operation has accessed nothing, and what is
retired does not wait for it. `debra_waits`: with these labels every step of DEBRA is one of the
reclaimer that waits for all operations.
-/

namespace PopSetbench
namespace Debra

open Function

variable {n : ℕ} {Obj : Type} [DecidableEq Obj] {minOps : ℕ}

/-- The steps, as a data structure sees them. -/
inductive Call (minOps : ℕ) (s : State n Obj) : GraceStep (Fin n) Obj → State n Obj → Prop
  /-- `startOp` announces its epoch. -/
  | announce (t : Fin n) (e : ℕ) (s' : State n Obj) (hpc : s.pc t = .announce e)
      (hs : Step minOps s (.thread t) s') : Call minOps s (.call t .startOp) s'
  | endOp (t : Fin n) (hpc : s.pc t = .idle) : Call minOps s (.call t .endOp) (s.endOp t)
  | retire (t : Fin n) (o : Obj) (hpc : s.pc t = .idle) (ho : s.life o = .unlinked) :
      Call minOps s (.call t (.retire o)) (s.retire t o)
  /-- `rotateEpochBags` passes an object to the pool. -/
  | free (t : Fin n) (e : ℕ) (rest : List Obj) (o : Obj) (hpc : s.pc t = .rotate e)
      (hbag : s.epochbags t (s.index t + 1) = rest ++ [o]) :
      Call minOps s (.free o) (s.passToPool t rest o)
  /-- `startOp` goes on, and has not yet announced its epoch or has done so. -/
  | own (t : Fin n) (s' : State n Obj) (hs : Step minOps s (.thread t) s')
      (hpc : ∀ e, s.pc t ≠ .announce e) (hne : s.pc t ≠ s'.pc t) : Call minOps s .own s'
  /-- Objects are linked and unlinked. -/
  | env (s' : State n Obj) (hs : Step minOps s .env s') : Call minOps s .own s'

/-- DEBRA, as a data structure sees it. -/
def reclaimer (n : ℕ) (Obj : Type) [DecidableEq Obj] (minOps : ℕ) :
    Lts (State n Obj) (GraceStep (Fin n) Obj) where
  init s := s = State.initial n Obj
  step := Call minOps

section

variable {s s' : State n Obj} {a : Actor n} {l : GraceStep (Fin n) Obj} {t u : Fin n} {o : Obj}

/-- It is a step of DEBRA. -/
theorem Call.step (h : Call minOps s l s') : ∃ a, Step minOps s a s' := by
  cases h with
  | announce t e s' hpc hs => exact ⟨_, hs⟩
  | endOp t hpc => exact ⟨_, .endOp s t hpc⟩
  | retire t o hpc ho => exact ⟨_, .retire s t o hpc ho⟩
  | free t e rest o hpc hbag => exact ⟨_, .rotateFree s t e rest o hpc hbag⟩
  | own t s' hs hpc hne => exact ⟨_, hs⟩
  | env s' hs => exact ⟨_, hs⟩

/-- `startOp` adopts a new epoch. -/
theorem Call.startOpNew (t : Fin n) (hpc : s.pc t = .idle)
    (hann : s.epoch ≠ s.localvarAnnouncedEpoch t) :
    Call minOps s .own (((s.begin t).adopt t).goto t (.rotate s.epoch)) := by
  refine .own t _ (.startOpNew s t hpc hann) (by simp [hpc]) ?_
  show s.pc t ≠ update s.pc t (.rotate s.epoch) t
  rw [update_self, hpc]
  simp

/-- The oldest bag is empty. -/
theorem Call.rotateEnd (t : Fin n) (e : ℕ) (hpc : s.pc t = .rotate e)
    (hbag : s.epochbags t (s.index t + 1) = []) :
    Call minOps s .own
      { s.goto t (.announce e) with index := update s.index t (s.index t + 1) } := by
  refine .own t _ (.rotateEnd s t e hpc hbag) (by simp [hpc]) ?_
  show s.pc t ≠ update s.pc t (.announce e) t
  rw [update_self, hpc]
  simp

/-- **All steps are seen.** -/
theorem Step.call (h : Step minOps s a s') : ∃ l, Call minOps s l s' := by
  have hs := h
  have moves : ∀ {t : Fin n} {p : Pc}, (∀ e, s.pc t ≠ .announce e) → s'.pc t = p → s.pc t ≠ p →
      a = .thread t → ∃ l, Call minOps s l s' := by
    intro t p hpc hp hne ha
    subst ha
    refine ⟨_, .own t s' hs hpc ?_⟩
    rwa [hp]
  cases h with
  | link o h => exact ⟨_, .env _ hs⟩
  | unlink o h => exact ⟨_, .env _ hs⟩
  | startOpNew t hpc hann => exact ⟨_, .startOpNew t hpc hann⟩
  | startOpSame t hpc hann => exact moves (by simp [hpc]) (update_self ..) (by simp [hpc]) rfl
  | rotateFree t e rest o hpc hbag => exact ⟨_, .free t e rest o hpc hbag⟩
  | rotateEnd t e hpc hbag => exact ⟨_, .rotateEnd t e hpc hbag⟩
  | announce t e hpc hops => exact ⟨_, .announce t e _ hpc hs⟩
  | announceCheck t e hpc hops => exact ⟨_, .announce t e _ hpc hs⟩
  | check t i e hpc hi hpass hlt => exact moves (by simp [hpc]) (update_self ..) (by simp [hpc]) rfl
  | checkLast t i e hpc hi hpass hge =>
    exact moves (by simp [hpc]) (update_self ..) (by simp [hpc]) rfl
  | checkFail t i e hpc hi hpass => exact moves (by simp [hpc]) (update_self ..) (by simp [hpc]) rfl
  | casSuccess t e hpc he => exact moves (by simp [hpc]) (update_self ..) (by simp [hpc]) rfl
  | casFail t e hpc he => exact moves (by simp [hpc]) (update_self ..) (by simp [hpc]) rfl
  | endOp t hpc => exact ⟨_, .endOp t hpc⟩
  | retire t o hpc ho => exact ⟨_, .retire t o hpc ho⟩

/-- **What DEBRA knows of the operations.** A thread whose operation runs is not quiescent, and a
thread that an object waits for owes something since its retirement. -/
structure Waits (s : State n Obj) (g : Grace (Fin n) Obj) : Prop where
  inv : Inv s
  running : ∀ t, g.running t = true → quiescent (s.announcedEpoch t) = false
  waits : ∀ o, s.life o = .retired →
    ∃ w, g.waits o = some w ∧ ∀ t, w t = true → s.owes o t ≠ .clear

variable {g : Grace (Fin n) Obj}

omit [DecidableEq Obj] in
/-- A thread lets go of the objects that wait for it. -/
theorem Waits.release (h : Waits s g) (hlife : ∀ o, s'.life o = .retired → s.life o = .retired)
    (howes : ∀ o u, u ≠ t → s.owes o u ≠ .clear → s'.owes o u ≠ .clear) (ho : s'.life o = .retired) :
    ∃ w, g.release t o = some w ∧ ∀ u, w u = true → s'.owes o u ≠ .clear := by
  obtain ⟨w, hw, hclear⟩ := h.waits o (hlife o ho)
  refine ⟨update w t false, ?_, fun u hu => ?_⟩
  · unfold Grace.release
    rw [hw]
    rfl
  · by_cases hut : u = t
    · subst hut
      rw [update_self] at hu
      cases hu
    · rw [update_of_ne hut] at hu
      exact howes o u hut (hclear u hu)

/-- A step that neither announces nor retires nor frees. -/
theorem Waits.stay (h : Waits s g) (hs : Step minOps s a s')
    (hann : s'.announcedEpoch = s.announcedEpoch)
    (hlife : ∀ o, s'.life o = .retired → s.life o = .retired)
    (howes : ∀ o u, s.owes o u ≠ .clear → s'.owes o u ≠ .clear) : Waits s' g where
  inv := h.inv.step hs
  running t ht := by
    rw [hann]
    exact h.running t ht
  waits o ho := by
    obtain ⟨w, hw, hclear⟩ := h.waits o (hlife o ho)
    exact ⟨w, hw, fun u hu => howes o u (hclear u hu)⟩

/-- An object that is not retired when it is linked or unlinked. -/
theorem life_update {l : Life} {o o' : Obj} (hl : l ≠ .retired)
    (h : update s.life o l o' = .retired) : s.life o' = .retired := by
  by_cases ho : o' = o
  · subst ho
    rw [update_self] at h
    exact absurd h hl
  · rwa [update_of_ne ho] at h

omit [DecidableEq Obj] in
/-- A `startOp` that begins does not settle what its thread owes. -/
theorem owes_begin {o : Obj} (h : s.owes o u ≠ .clear) : (s.begin t).owes o u ≠ .clear := by
  show update (s.owes o) t (if s.owes o t = .running then .starting else s.owes o t) u ≠ .clear
  by_cases hut : u = t
  · subst hut
    rw [update_self]
    split_ifs with hrun
    · exact Owes.noConfusion
    · exact h
  · rwa [update_of_ne hut]

/-- **An announcement** begins an operation. -/
theorem Waits.announce (h : Waits s g) {e : ℕ} (hpc : s.pc t = .announce e)
    (hs : Step minOps s (.thread t) s')
    (hann : s'.announcedEpoch = update s.announcedEpoch t e) (hlife : s'.life = s.life)
    (howes : s'.owes = (s.announce t e).owes) : Waits s' (g.startOp t) where
  inv := h.inv.step hs
  running u hu := by
    have hu : update g.running t true u = true := hu
    rw [hann]
    by_cases hut : u = t
    · subst hut
      have hown := h.inv.own u
      rw [hpc] at hown
      rw [update_self]
      exact not_quiescent_of_even hown.1.even
    · rw [update_of_ne hut] at hu ⊢
      exact h.running u hu
  waits o ho := by
    refine h.release (fun o' ho' => by rwa [hlife] at ho') (fun o' u hut hne => ?_) ho
    rw [howes]
    show update (s.owes o') t _ u ≠ .clear
    rwa [update_of_ne hut]

/-- **DEBRA waits for operations.** Every step of DEBRA is, with the label that a data structure sees,
a step of the reclaimer that frees an object only when every operation has ended that was running at
its retirement. -/
theorem debra_waits : (reclaimer n Obj minOps).Refines (Grace.system (Fin n) Obj) Waits where
  init s hs := by
    obtain rfl : s = State.initial n Obj := hs
    refine ⟨_, rfl, Inv.initial, fun t ht => ?_, fun o ho => ?_⟩
    · -- at first nobody waits and nothing is retired
      cases ht
    · cases ho
  step s l s' g h hs := by
    have hs : Call minOps s l s' := hs
    have hinv : Inv s' := by
      obtain ⟨a, ha⟩ := hs.step
      exact h.inv.step ha
    cases hs with
    | announce t e s' hpc hs =>
      -- a call of the reclaimer is the call of the abstract one
      refine ⟨_, .startOp t, ?_⟩
      have hs₀ := hs
      cases hs with
      | announce _ e' hpc' hops =>
        obtain rfl := Pc.announce.inj (hpc.symm.trans hpc')
        exact h.announce hpc hs₀ rfl rfl rfl
      | announceCheck _ e' hpc' hops =>
        obtain rfl := Pc.announce.inj (hpc.symm.trans hpc')
        exact h.announce hpc hs₀ rfl rfl rfl
      | _ => simp_all
    | endOp t hpc =>
      refine ⟨_, .endOp t, hinv, fun u hu => ?_, fun o ho => ?_⟩
      · -- the operation of the thread is over, so nobody waits for it any more
        have hut : u ≠ t := by
          rintro rfl
          have hu : update g.running u false u = true := hu
          rw [update_self] at hu
          cases hu
        have hu : update g.running t false u = true := hu
        show quiescent (update s.announcedEpoch t _ u) = false
        rw [update_of_ne hut] at hu ⊢
        exact h.running u hu
      · refine h.release (fun _ ho => ho) (fun o' u hut hne => ?_) ho
        show update (s.owes o') t .clear u ≠ .clear
        rwa [update_of_ne hut]
    | retire t o hpc ho =>
      refine ⟨_, .retire t o, hinv, h.running, fun o' ho' => ?_⟩
      show ∃ w, update g.waits o (some g.running) o' = some w ∧ _
      -- a new object waits for those who are running
      by_cases hoo : o' = o
      · subst hoo
        refine ⟨g.running, update_self .., fun u hu => ?_⟩
        -- an operation that runs now is owed for
        show update s.owes o' _ o' u ≠ .clear
        rw [update_self]
        simp [h.running u hu]
      · have ho' : update s.life o .retired o' = .retired := ho'
        rw [update_of_ne hoo] at ho' ⊢
        obtain ⟨w, hw, hclear⟩ := h.waits o' ho'
        refine ⟨w, hw, fun u hu => ?_⟩
        show update s.owes o _ o' u ≠ .clear
        rw [update_of_ne hoo]
        exact hclear u hu
    | free t e rest o hpc hbag =>
      -- the object passed to the pool is owed by nobody
      have hpass : PassesToPool s t o := ⟨e, rest, hpc, hbag⟩
      have ho : s.life o = .retired := h.inv.life_eq (t := t) (j := s.index t + 1) (by simp [hbag])
      obtain ⟨w, hw, hclear⟩ := h.waits o ho
      have hfalse : ∀ u, w u = false := by
        intro u
        rw [← Bool.not_eq_true]
        exact fun hu => hclear u hu (h.inv.grace hpass u)
      refine ⟨_, .free o w hw hfalse, hinv, h.running, fun o' ho' => ?_⟩
      have ho' : update s.life o .pooled o' = .retired := ho'
      have hoo : o' ≠ o := by
        rintro rfl
        rw [update_self] at ho'
        cases ho'
      show ∃ w, update g.waits o none o' = some w ∧ _
      rw [update_of_ne hoo] at ho' ⊢
      exact h.waits o' ho'
    | own t s' hs hpc hne =>
      -- the other steps are not seen
      refine ⟨g, .own, ?_⟩
      have hs₀ := hs
      cases hs with
      | startOpNew _ hpc' hann => exact h.stay hs₀ rfl (fun _ ho => ho) fun o u => owes_begin
      | startOpSame _ hpc' hann => exact h.stay hs₀ rfl (fun _ ho => ho) fun o u => owes_begin
      | announce _ e hpc' hops => exact absurd hpc' (hpc e)
      | announceCheck _ e hpc' hops => exact absurd hpc' (hpc e)
      | rotateFree _ e rest o hpc' hbag => exact absurd rfl hne
      | endOp _ hpc' => exact absurd rfl hne
      | retire _ o hpc' ho => exact absurd rfl hne
      | _ => exact h.stay hs₀ rfl (fun _ ho => ho) fun o u hu => hu
    | env s' hs =>
      refine ⟨g, .own, ?_⟩
      have hs₀ := hs
      cases hs with
      | link o ho => exact h.stay hs₀ rfl (fun _ => life_update (by simp)) fun _ _ hu => hu
      | unlink o ho => exact h.stay hs₀ rfl (fun _ => life_update (by simp)) fun _ _ hu => hu

end

end Debra
end PopSetbench

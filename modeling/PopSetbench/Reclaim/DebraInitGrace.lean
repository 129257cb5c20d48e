import PopSetbench.Reclaim.DebraGrace
import PopSetbench.Reclaim.DebraInit

/-!
# DEBRA: bags and grace periods of threads that come and go

If every thread that begins finds the index 0, its `currentBag` is `epochbags[index]` at all times,
and every step apart from `initThread` and `deinitThread` is one of `PopSetbench.Reclaim.Debra`
(`Step.debra`): `debraInit_waits`, and `debraInit_grace` for the grace periods.

`initThread` does not reset `index`. After an earlier life that left another index, the first
objects go into a bag that need not be the youngest one: `debraInit_broken`.
-/

namespace PopSetbench
namespace DebraInit

open Function Debra

variable {n : ℕ} {Obj : Type}

/-- **The invariant.** -/
structure Inv (s : State n Obj) : Prop where
  grace : Debra.Inv s.debra
  current : Current s
  /-- A thread that has not begun is nowhere in the code and has nothing in its bags. -/
  idle : ∀ t, s.init t = false → s.debra.pc t = .idle ∧ ∀ j, s.debra.epochbags t j = []
  /-- What is in a bag was retired by its owner when the bag was the current one. -/
  held : ∀ t j o, o ∈ s.debra.epochbags t j →
    s.retiredBy o = some t ∧ s.rotations t = s.retireRotation o + (s.debra.index t - j).val

theorem Inv.initial : Inv (State.initial n Obj) where
  grace := Debra.Inv.initial
  current _ h := by cases h
  idle _ _ := ⟨rfl, fun _ => rfl⟩
  held _ _ _ h := absurd h List.not_mem_nil

/-- The bag that is emptied was the current one two rotations ago. -/
theorem Inv.waited {s : State n Obj} (hI : Inv s) : Waited s := by
  rintro t o ⟨e, rest, hpc, hbag⟩
  obtain ⟨hby, hrot⟩ := hI.held t _ o (by rw [hbag]; simp)
  have hturns : (s.debra.index t - (s.debra.index t + 1)).val = 2 := by omega
  exact ⟨hby, (hrot.trans (congrArg _ hturns)).ge⟩

variable [DecidableEq Obj] {minOps : ℕ} {s s' : State n Obj} {a : Actor n} {t : Fin n} {o : Obj}

/-! ### Beginning and ending -/

omit [DecidableEq Obj] in
/-- A thread that begins has checked nobody. -/
theorem Inv.grace_initThread (hI : Inv s) (hinit : s.init t = false) :
    Debra.Inv (s.initThread t).debra where
  custody := hI.grace.custody
  even := hI.grace.even
  localvar := hI.grace.localvar
  announced_le := hI.grace.announced_le
  own u := by
    have hown := hI.grace.own u
    by_cases hu : u = t
    · subst hu
      rw [show (s.initThread u).debra.pc u = .idle from (hI.idle u hinit).1]
      left
      show update s.debra.checked u 0 u < n
      rw [update_self]
      exact u.pos
    · have hchecked : (s.initThread t).debra.checked u = s.debra.checked u := update_of_ne hu ..
      change Own _ u (s.debra.pc u)
      cases hp : s.debra.pc u with
      | _ =>
        rw [hp] at hown
        unfold Own at hown ⊢
        rw [hchecked]
        first
          | exact hown
          | exact ⟨⟨hown.1.localvar, hown.1.even, hown.1.le⟩, hown.2⟩
  seen u v hv := by
    have hv : v.val < update s.debra.checked t 0 u := hv
    by_cases hu : u = t
    · subst hu
      rw [update_self] at hv
      exact absurd hv (Nat.not_lt_zero _)
    · rw [update_of_ne hu] at hv
      exact hI.grace.seen u v hv
  retireEpoch := hI.grace.retireEpoch
  owing := hI.grace.owing
  running := hI.grace.running
  seen_clear := hI.grace.seen_clear
  passed := hI.grace.passed
  turned := hI.grace.turned

/-- What is still retired after a thread has ended was so before. -/
theorem retired_of_deinitThread (ho : (s.deinitThread t).debra.life o = .retired) :
    s.debra.life o = .retired ∧ ∀ j, o ∉ s.debra.epochbags t j := by
  have ho : (if ∃ j, o ∈ s.debra.epochbags t j then Life.pooled else s.debra.life o) = .retired := ho
  split_ifs at ho with hmem
  exact ⟨ho, fun j hj => hmem ⟨j, hj⟩⟩

/-- What is in a bag after a thread has ended is in a bag of another thread. -/
theorem mem_of_deinitThread {u : Fin n} {j : Fin 3}
    (ho : o ∈ (s.deinitThread t).debra.epochbags u j) : u ≠ t ∧ o ∈ s.debra.epochbags u j := by
  have ho : o ∈ update s.debra.epochbags t (fun _ => []) u j := ho
  by_cases hu : u = t
  · subst hu
    rw [update_self] at ho
    cases ho
  · rw [update_of_ne hu] at ho
    exact ⟨hu, ho⟩

theorem Inv.grace_deinitThread (hI : Inv s) : Debra.Inv (s.deinitThread t).debra where
  custody := by
    refine hI.grace.custody.sublist (fun p => ?_) fun p o ho => ?_
    · show List.Sublist (update s.debra.epochbags t (fun _ => []) p.1 p.2) _
      by_cases hp : p.1 = t
      · rw [hp, update_self]
        exact List.nil_sublist _
      · rw [update_of_ne hp]
    · obtain ⟨hne, hmem⟩ := mem_of_deinitThread ho
      -- it is in no bag of the thread that ends
      have hno : ¬ ∃ j, o ∈ s.debra.epochbags t j := by
        rintro ⟨j, hj⟩
        exact hne (congrArg Prod.fst (hI.grace.custody.owner_eq p (t, j) o hmem hj))
      show (if _ then Life.pooled else s.debra.life o) = .retired
      rw [if_neg hno]
      exact hI.grace.life_eq hmem
  even := hI.grace.even
  localvar := hI.grace.localvar
  announced_le := hI.grace.announced_le
  own u := by
    have hown := hI.grace.own u
    change Own _ u (s.debra.pc u)
    cases hp : s.debra.pc u with
    | _ =>
      rw [hp] at hown
      unfold Own at hown ⊢
      first
        | exact hown
        | exact ⟨⟨hown.1.localvar, hown.1.even, hown.1.le⟩, hown.2⟩
  seen := hI.grace.seen
  retireEpoch o ho := hI.grace.retireEpoch o (retired_of_deinitThread ho).1
  owing o u ho := hI.grace.owing o u (retired_of_deinitThread ho).1
  running o u e ho := hI.grace.running o u e (retired_of_deinitThread ho).1
  seen_clear o w u ho := hI.grace.seen_clear o w u (retired_of_deinitThread ho).1
  passed o u ho := hI.grace.passed o u (retired_of_deinitThread ho).1
  turned u j o ho := hI.grace.turned u j o (mem_of_deinitThread ho).2

/-! ### The other steps -/

/-- A thread begins or ends in the step. -/
def BeginsOrEnds (s s' : State n Obj) : Prop :=
  ∃ t, s.init t = false ∧ s' = s.initThread t ∨
    s.debra.pc t = .idle ∧ s' = s.deinitThread t

/-- The step is one of DEBRA, taken by a thread that has begun. -/
structure Runs (minOps : ℕ) (s s' : State n Obj) (a : Actor n) : Prop where
  step : Debra.Step minOps s.debra a s'.debra
  init : ∀ t, a = .thread t → s.init t = true
  same : s'.init = s.init

/-- **Refinement.** As long as the current bag is that of the index, the steps apart from
`initThread` and `deinitThread` are those of DEBRA. -/
theorem Step.debra (hstep : Step minOps s a s') (hcur : Current s) :
    BeginsOrEnds s s' ∨ Runs minOps s s' a := by
  have self : ∀ {t : Fin n}, s.init t = true → ∀ u, Actor.thread t = .thread u →
      s.init u = true := by
    rintro t hinit _ ⟨rfl⟩
    exact hinit
  cases hstep with
  | initThread t hinit => exact .inl ⟨t, .inl ⟨hinit, rfl⟩⟩
  | deinitThread t hinit hq => exact .inl ⟨t, .inr ⟨(hq t).1, rfl⟩⟩
  | other _ x hinit hstep hbags hindex => exact .inr ⟨hstep, hinit, rfl⟩
  | rotateFree t e rest o hinit hpc hbag =>
    exact .inr ⟨.rotateFree s.debra t e rest o hpc hbag, self hinit, rfl⟩
  | rotateEnd t e hinit hpc hbag =>
    exact .inr ⟨.rotateEnd s.debra t e hpc hbag, self hinit, rfl⟩
  | retire t o j hinit hpc ho hbag =>
    obtain rfl := Option.some.inj ((hcur t hinit).symm.trans hbag)
    exact .inr ⟨.retire s.debra t o hpc ho, self hinit, rfl⟩

theorem Inv.grace_step (hI : Inv s) (hstep : Step minOps s a s') : Debra.Inv s'.debra := by
  rcases hstep.debra hI.current with ⟨t, ⟨hinit, rfl⟩ | ⟨-, rfl⟩⟩ | hruns
  · exact hI.grace_initThread hinit
  · exact hI.grace_deinitThread
  · exact hI.grace.step hruns.step

/-- `currentBag` and `index` are set together. -/
theorem Current.step (hI : Inv s) (hstep : Step minOps s a s') (hmeets : Meets s a) :
    Current s' := by
  intro u hu
  cases hstep with
  | initThread t hinit =>
    have hu : update s.init t true u = true := hu
    show update s.currentBag t (some 0) u = some (s.debra.index u)
    by_cases hut : u = t
    · subst hut
      rw [update_self, hmeets u rfl hinit]
    · rw [update_of_ne hut] at hu ⊢
      exact hI.current u hu
  | deinitThread t hinit hq =>
    have hu : update s.init t false u = true := hu
    by_cases hut : u = t
    · subst hut
      rw [update_self] at hu
      cases hu
    · rw [update_of_ne hut] at hu
      exact hI.current u hu
  | rotateEnd t e hinit hpc hbag =>
    show update s.currentBag t _ u = some (update s.debra.index t _ u)
    by_cases hut : u = t
    · subst hut
      rw [update_self, update_self]
    · rw [update_of_ne hut, update_of_ne hut]
      exact hI.current u hu
  | other _ x hinit hstep hbags hindex =>
    show s.currentBag u = some (x.index u)
    rw [hindex]
    exact hI.current u hu
  | _ => exact hI.current u hu

theorem Inv.idle_step (hI : Inv s) (hstep : Step minOps s a s') {u : Fin n}
    (hu : s'.init u = false) : s'.debra.pc u = .idle ∧ ∀ j, s'.debra.epochbags u j = [] := by
  rcases hstep.debra hI.current with ⟨t, ⟨hinit, rfl⟩ | ⟨hpc, rfl⟩⟩ | hruns
  · have hu : update s.init t true u = false := hu
    by_cases hut : u = t
    · subst hut
      rw [update_self] at hu
      cases hu
    · rw [update_of_ne hut] at hu
      exact hI.idle u hu
  · have hu : update s.init t false u = false := hu
    show s.debra.pc u = .idle ∧ ∀ j, update s.debra.epochbags t (fun _ => []) u j = []
    by_cases hut : u = t
    · subst hut
      rw [update_self]
      exact ⟨hpc, fun _ => rfl⟩
    · rw [update_of_ne hut] at hu ⊢
      exact hI.idle u hu
  · -- a step of a thread that has begun leaves the others alone
    rw [hruns.same] at hu
    have hne : a ≠ .thread u := by
      intro ha
      rw [hruns.init u ha] at hu
      cases hu
    have hf := hruns.step.frame hne
    rw [hf.pc, hf.epochbags]
    exact hI.idle u hu

/-- An object moves away from the current bag with each rotation. -/
theorem Inv.held_step (hI : Inv s) (hstep : Step minOps s a s') {u : Fin n} {j : Fin 3}
    (ho : o ∈ s'.debra.epochbags u j) : s'.retiredBy o = some u ∧
      s'.rotations u = s'.retireRotation o + (s'.debra.index u - j).val := by
  have hcur := hI.current
  cases hstep with
  -- `initThread` leaves the bags and the index as they are
  | initThread t hinit => exact hI.held u j o ho
  -- `deinitThread` empties the bags of the thread
  | deinitThread t hinit hq => exact hI.held u j o (mem_of_deinitThread ho).2
  | other _ x hinit hstep hbags hindex =>
    have ho : o ∈ x.epochbags u j := ho
    rw [hbags] at ho
    show _ ∧ s.rotations u = _ + (x.index u - j).val
    rw [hindex]
    exact hI.held u j o ho
  | rotateFree t e rest o' hinit hpc hbag =>
    -- an object goes to the pool, the others stay where they are
    refine hI.held u j o ?_
    have ho : o ∈ update s.debra.epochbags t (update (s.debra.epochbags t) (s.debra.index t + 1)
      rest) u j := ho
    by_cases hu : u = t
    · subst hu
      rw [update_self] at ho
      by_cases hj : j = s.debra.index u + 1
      · subst hj
        rw [update_self] at ho
        rw [hbag]
        exact List.mem_append_left _ ho
      · rwa [update_of_ne hj] at ho
    · rwa [update_of_ne hu] at ho
  | rotateEnd t e hinit hpc hbag =>
    -- the index moves on, so every object is one bag further from it
    have ho : o ∈ s.debra.epochbags u j := ho
    obtain ⟨hby, hrot⟩ := hI.held u j o ho
    refine ⟨hby, ?_⟩
    show update s.rotations t _ u = _ + (update s.debra.index t _ u - j).val
    by_cases hu : u = t
    · subst hu
      -- the bag that becomes the current one is empty
      have hj : j ≠ s.debra.index u + 1 := by
        rintro rfl
        have hmem : o ∈ s.debra.epochbags u (s.debra.index u + 1) := ho
        rw [hbag] at hmem
        cases hmem
      have hnext : (s.debra.index u + 1 - j).val = (s.debra.index u - j).val + 1 := by omega
      rw [update_self, update_self, hnext, hrot, Nat.add_assoc]
      rfl
    · rw [update_of_ne hu, update_of_ne hu]
      exact hrot
  | retire t o' j' hinit hpc ho' hbag =>
    -- the object goes into the current bag, at distance zero
    obtain rfl := Option.some.inj ((hcur t hinit).symm.trans hbag)
    have ho : o ∈ update s.debra.epochbags t (update (s.debra.epochbags t) (s.debra.index t)
      (s.debra.epochbags t (s.debra.index t) ++ [o'])) u j := ho
    have hcase : o ∈ s.debra.epochbags u j ∨ u = t ∧ j = s.debra.index t ∧ o = o' := by
      by_cases hu : u = t
      · subst hu
        rw [update_self] at ho
        by_cases hj : j = s.debra.index u
        · subst hj
          rw [update_self, List.mem_append, List.mem_singleton] at ho
          exact ho.imp id fun h => ⟨rfl, rfl, h⟩
        · rw [update_of_ne hj] at ho
          exact .inl ho
      · rw [update_of_ne hu] at ho
        exact .inl ho
    show update s.retiredBy o' (some t) o = some u ∧
      s.rotations u = update s.retireRotation o' (s.rotations t) o + (s.debra.index u - j).val
    rcases hcase with hold | ⟨rfl, rfl, rfl⟩
    · have hne : o ≠ o' := by
        rintro rfl
        rw [hI.grace.life_eq hold] at ho'
        cases ho'
      rw [update_of_ne hne, update_of_ne hne]
      exact hI.held u j o hold
    · rw [update_self, update_self]
      simp

/-- **Invariant preservation.** -/
theorem Inv.step (hI : Inv s) (hstep : Step minOps s a s') (hmeets : Meets s a) : Inv s' where
  grace := hI.grace_step hstep
  current := Current.step hI hstep hmeets
  idle _ hu := hI.idle_step hstep hu
  held _ _ _ ho := hI.held_step hstep ho

theorem Inv.reached (h : (system minOps).ReachableBy Meets s) : Inv s := by
  refine h.invariant ?_ fun s a s' _ hI hok hstep => hI.step hstep hok
  rintro s rfl
  exact Inv.initial

/-- **Three rotations.** In every run in which the threads that begin find the index 0, the current
bag of a thread is that of its index, and a thread passes to the pool only what it has itself
retired, in the third rotation since. -/
theorem debraInit_waits (h : (system minOps).ReachableBy Meets s) : Current s ∧ Waited s :=
  ⟨(Inv.reached h).current, (Inv.reached h).waited⟩

/-- **Grace periods.** In these runs DEBRA also waits for the other threads. -/
theorem debraInit_grace (h : (system minOps).ReachableBy Meets s) (t : Fin n) (o : Obj)
    (hpass : Debra.PassesToPool s.debra t o) (u : Fin n) : s.debra.owes o u = .clear :=
  (Inv.reached h).grace.grace hpass u

/-! ### Two lives of a thread -/

/-- A step that has nothing to do with the bags, of a thread that has begun. -/
theorem Step.run {x : Debra.State n Obj} (hstep : Debra.Step minOps s.debra (.thread t) x)
    (hinit : s.init t = true) (hbags : x.epochbags = s.debra.epochbags)
    (hindex : x.index = s.debra.index) : Step minOps s (.thread t) { s with debra := x } :=
  .other s (.thread t) x (by rintro _ ⟨rfl⟩; exact hinit) hstep hbags hindex

/-- A step of the data structure. -/
theorem Step.env {x : Debra.State n Obj} (hstep : Debra.Step minOps s.debra .env x)
    (hbags : x.epochbags = s.debra.epochbags) (hindex : x.index = s.debra.index) :
    Step minOps s .env { s with debra := x } :=
  .other s .env x nofun hstep hbags hindex

/-- Thread `0` rotates its bags twice, ends, begins again and retires an object into bag 0, while
its index is still 2. The next rotation, to bag 0, passes the object to the pool. -/
theorem debraInit_broken :
    (¬ ∀ s : State 2 ℕ, (system 1).Reachable s → Current s) ∧
      ¬ ∀ s : State 2 ℕ, (system 1).Reachable s → Waited s := by
  have hR : (system 1).Reachable (State.initial 2 ℕ) := .init rfl
  have hR := hR.step (.initThread _ 0 rfl)
  -- the first operation rotates to bag 1, the second one increments the epoch
  have hR := hR.step (.run (.startOpNew _ 0 rfl (by decide)) rfl rfl rfl)
  have hR := hR.step (.rotateEnd _ 0 0 rfl rfl rfl)
  have hR := hR.step (.run (.announceCheck _ 0 0 rfl rfl) rfl rfl rfl)
  have hR := hR.step (.run (.check _ 0 0 0 rfl rfl (.inl rfl) (by decide)) rfl rfl rfl)
  have hR := hR.step (.run (.endOp _ 0 rfl) rfl rfl rfl)
  have hR := hR.step (.run (.startOpSame _ 0 rfl rfl) rfl rfl rfl)
  have hR := hR.step (.run (.announceCheck _ 0 0 rfl rfl) rfl rfl rfl)
  have hR := hR.step (.run (.checkLast _ 0 1 0 rfl rfl (.inr rfl) le_rfl) rfl rfl rfl)
  have hR := hR.step (.run (.casSuccess _ 0 0 rfl rfl) rfl rfl rfl)
  have hR := hR.step (.run (.endOp _ 0 rfl) rfl rfl rfl)
  -- the third one rotates to bag 2
  have hR := hR.step (.run (.startOpNew _ 0 rfl (by decide)) rfl rfl rfl)
  have hR := hR.step (.rotateEnd _ 0 2 rfl rfl rfl)
  have hR := hR.step (.run (.announceCheck _ 0 2 rfl rfl) rfl rfl rfl)
  have hR := hR.step (.run (.check _ 0 0 2 rfl rfl (.inl rfl) (by decide)) rfl rfl rfl)
  have hR := hR.step (.run (.endOp _ 0 rfl) rfl rfl rfl)
  have hR := hR.step (.deinitThread _ 0 rfl fun | 0 => ⟨rfl, rfl⟩ | 1 => ⟨rfl, rfl⟩)
  have hR := hR.step (.initThread _ 0 rfl)
  refine ⟨fun hall => absurd (hall _ hR 0 rfl) (by decide), fun hall => ?_⟩
  -- the epoch is the one it has announced before, so that nothing is rotated
  have hR := hR.step (.env (.link _ 7 rfl) rfl rfl)
  have hR := hR.step (.env (.unlink _ 7 rfl) rfl rfl)
  have hR := hR.step (.run (.startOpSame _ 0 rfl rfl) rfl rfl rfl)
  have hR := hR.step (.run (.announceCheck _ 0 2 rfl rfl) rfl rfl rfl)
  have hR := hR.step (.run (.check _ 0 0 2 rfl rfl (.inl rfl) (by decide)) rfl rfl rfl)
  have hR := hR.step (.retire _ 0 7 0 rfl rfl rfl rfl)
  have hR := hR.step (.run (.endOp _ 0 rfl) rfl rfl rfl)
  have hR := hR.step (.run (.startOpSame _ 0 rfl rfl) rfl rfl rfl)
  have hR := hR.step (.run (.announceCheck _ 0 2 rfl rfl) rfl rfl rfl)
  have hR := hR.step (.run (.checkLast _ 0 1 2 rfl rfl (.inr rfl) le_rfl) rfl rfl rfl)
  have hR := hR.step (.run (.casSuccess _ 0 2 rfl rfl) rfl rfl rfl)
  have hR := hR.step (.run (.endOp _ 0 rfl) rfl rfl rfl)
  have hR := hR.step (.run (.startOpNew _ 0 rfl (by decide)) rfl rfl rfl)
  exact absurd (hall _ hR 0 7 ⟨4, [], rfl, rfl⟩).2 (by decide)

omit [DecidableEq Obj] in
theorem Meets.env : Meets s .env := nofun

omit [DecidableEq Obj] in
theorem Meets.thread (h : s.init t = true) : Meets s (.thread t) := by
  rintro _ ⟨rfl⟩ hinit
  rw [h] at hinit
  cases hinit

/-- A thread that ends before its first operation and begins again passes an object to the pool in
the third rotation after it has retired it. -/
theorem debraInit_waits_of_freed :
    ∃ s : State 1 ℕ, Debra.PassesToPool s.debra 0 7 ∧ Current s ∧ Waited s := by
  have hR : (system 1).ReachableBy Meets (State.initial 1 ℕ) := .init rfl
  have hR := hR.step (.initThread _ 0 rfl) fun _ _ _ => rfl
  have hR := hR.step (.deinitThread _ 0 rfl fun | 0 => ⟨rfl, rfl⟩) (.thread rfl)
  have hR := hR.step (.initThread _ 0 rfl) (by rintro _ ⟨rfl⟩ -; rfl)
  have hR := hR.step (.env (.link _ 7 rfl) rfl rfl) .env
  have hR := hR.step (.env (.unlink _ 7 rfl) rfl rfl) .env
  have hR := hR.step (.retire _ 0 7 0 rfl rfl rfl rfl) (.thread rfl)
  -- three operations, each in a new epoch
  have hR := hR.step (.run (.startOpNew _ 0 rfl (by decide)) rfl rfl rfl) (.thread rfl)
  have hR := hR.step (.rotateEnd _ 0 0 rfl rfl rfl) (.thread rfl)
  have hR := hR.step (.run (.announceCheck _ 0 0 rfl rfl) rfl rfl rfl) (.thread rfl)
  have hR := hR.step (.run (.checkLast _ 0 0 0 rfl rfl (.inl rfl) le_rfl) rfl rfl rfl) (.thread rfl)
  have hR := hR.step (.run (.casSuccess _ 0 0 rfl rfl) rfl rfl rfl) (.thread rfl)
  have hR := hR.step (.run (.endOp _ 0 rfl) rfl rfl rfl) (.thread rfl)
  have hR := hR.step (.run (.startOpNew _ 0 rfl (by decide)) rfl rfl rfl) (.thread rfl)
  have hR := hR.step (.rotateEnd _ 0 2 rfl rfl rfl) (.thread rfl)
  have hR := hR.step (.run (.announceCheck _ 0 2 rfl rfl) rfl rfl rfl) (.thread rfl)
  have hR := hR.step (.run (.checkLast _ 0 0 2 rfl rfl (.inl rfl) le_rfl) rfl rfl rfl) (.thread rfl)
  have hR := hR.step (.run (.casSuccess _ 0 2 rfl rfl) rfl rfl rfl) (.thread rfl)
  have hR := hR.step (.run (.endOp _ 0 rfl) rfl rfl rfl) (.thread rfl)
  have hR := hR.step (.run (.startOpNew _ 0 rfl (by decide)) rfl rfl rfl) (.thread rfl)
  exact ⟨_, ⟨4, [], rfl, rfl⟩, debraInit_waits hR⟩

end DebraInit
end PopSetbench

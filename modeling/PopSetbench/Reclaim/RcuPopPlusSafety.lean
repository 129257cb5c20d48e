import PopSetbench.Library.Publication
import PopSetbench.Reclaim.RcuPopPlus

/-!
# RCU-POP+: what the low watermark relies on

A value of `publishing_epoch` that a thread has not seen before does not mean that everybody has
published since its objects were retired. There are two reasons:

* the signalling thread increments it when the pings are sent, and waits for no handler. A thread
  whose ping is still in flight may show a reservation that it published long ago, or `UINT64_MAX`,
  while it is inside an operation (`loWm_frees_early`);
* `setLoWmMetaData` does not save it, and `empty` goes through the whole list. So the round that has
  changed it may lie before the retirement of objects in the list, or may have begun before.

If no ping is left to handle when the thread finds the new value, and the objects that it frees were
retired before some round that has ended by then, the frees are safe: `rcuPopPlus_safe`. The proof
rests on two facts. A round that begins after the retirement of an object makes everybody publish
(`Inv.watches`). And the local reservation of an operation that runs since before the retirement is
at most the stamp of the object, and so is what its thread publishes from then on (`Covered`).
-/

namespace PopSetbench
namespace RcuPopPlus

open Function

variable {n : ℕ} {Obj : Type} {cfg : Config} {s s' : State n Obj} {a : Actor n} {t u : Fin n}
  {r : RCUPOPInfo n Obj} {m : WithTop ℕ}

/-! ### What a step can do -/

/-- The reservation of thread `u` and what it has published of it. -/
def State.reservation (s : State n Obj) (u : Fin n) : Copy (WithTop ℕ) :=
  ⟨s.reservedEpoch u, s.reservations u, s.pubs u⟩

/-- What a step does to the operation and the reservation of thread `u`. -/
inductive Moves (s s' : State n Obj) (u : Fin n) : Prop
  | same (hbegun : s'.begun u = s.begun u) (hin : s'.inOp u = s.inOp u)
      (hres : s'.reservation u = s.reservation u)
  | begins (e : ℕ) (hpc : s.pc u = .startOp e) (hbegun : s'.begun u = s.begun u + 1)
      (hres : s'.reservation u = (s.reservation u).set e)
  | ends (hbegun : s'.begun u = s.begun u) (hin : s'.inOp u = false)
  | publishes (hbegun : s'.begun u = s.begun u) (hin : s'.inOp u = s.inOp u)
      (hres : s'.reservation u = (s.reservation u).publish)

theorem Step.moves (hstep : Step cfg s a s') (u : Fin n) : Moves s s' u := by
  cases hstep with
  | startOp t e hr hpc =>
    by_cases hu : u = t
    · subst hu
      refine .begins e hpc (update_self ..) ?_
      simp [State.reservation, State.goto, Copy.set]
    · refine .same (update_of_ne hu ..) (update_of_ne hu ..) ?_
      simp [State.reservation, State.goto, update_of_ne hu]
  | endOp t hr hpc hin =>
    by_cases hu : u = t
    · subst hu
      exact .ends rfl (update_self ..)
    · refine .same rfl (update_of_ne hu ..) ?_
      simp [State.reservation, update_of_ne hu]
  | publishStore t | handlerStore t =>
    by_cases hu : u = t
    · subst hu
      refine .publishes rfl rfl ?_
      simp [State.reservation, State.storeReservation, State.goto, Copy.publish]
    · refine .same rfl rfl ?_
      simp [State.reservation, State.storeReservation, State.goto, update_of_ne hu]
  | _ => exact .same rfl rfl rfl

/-- The epoch never goes back. -/
theorem Step.epoch_le (hstep : Step cfg s a s') : s.epoch ≤ s'.epoch := by
  cases hstep with
  | bumpEpoch => exact Nat.le_succ _
  | _ => exact le_rfl

/-- Every object in a list was there before, or is retired in the step. -/
theorem Step.mem_retired (hstep : Step cfg s a s') (hr : r ∈ s'.retired t) :
    r ∈ s.retired t ∨
      ∃ o, r = s.entry o ∧ s'.begun = s.begun ∧ s'.inOp = s.inOp ∧
        s'.reservation = s.reservation ∧ s'.ann = s.ann := by
  have push : ∀ (u : Fin n) (o : Obj),
      r ∈ update s.retired u (s.retired u ++ [s.entry o]) t → r ∈ s.retired t ∨ r = s.entry o := by
    intro u o hr
    by_cases ht : t = u
    · subst ht
      rw [update_self, List.mem_append, List.mem_singleton] at hr
      exact hr
    · rw [update_of_ne ht] at hr
      exact .inl hr
  cases hstep with
  | retireHiWm u o | retireEnterLoWm u o | retireLoWm u o | retire u o =>
    exact (push u o hr).imp id fun h => ⟨o, h, rfl, rfl, rfl, rfl⟩
  | free u path m r' rest _ hpc hlist =>
    left
    have hr : r ∈ update s.retired u rest t := hr
    by_cases ht : t = u
    · subst ht
      rw [update_self] at hr
      rw [hlist]
      exact List.mem_cons_of_mem _ hr
    · rwa [update_of_ne ht] at hr
  | _ => exact .inl hr

/-- A step of somebody else leaves a thread's list, its place in the code and what it has loaded
alone. -/
structure Frame (s s' : State n Obj) (t : Fin n) : Prop where
  pc : s'.pc t = s.pc t
  retired : s'.retired t = s.retired t
  checkedAnn : s'.checkedAnn t = s.checkedAnn t
  loadedRes : s'.loadedRes t = s.loadedRes t
  loadedPubs : s'.loadedPubs t = s.loadedPubs t

theorem Step.frame (hstep : Step cfg s a s') (ha : a ≠ .thread t) : Frame s s' t := by
  cases hstep with
  | handlerEnter | handlerStore | handlerCount => exact ⟨rfl, rfl, rfl, rfl, rfl⟩
  | _ u =>
    have hne : t ≠ u := fun h => ha (h ▸ rfl)
    constructor <;> first | rfl | exact update_of_ne hne ..

/-- Stores are never taken back. -/
theorem Step.pubs_le (hstep : Step cfg s a s') (u : Fin n) : s.pubs u ≤ s'.pubs u := by
  have bump : ∀ t, s.pubs u ≤ update s.pubs t (s.pubs t + 1) u := by
    intro t
    by_cases hu : u = t
    · subst hu
      rw [update_self]
      exact Nat.le_succ _
    · rw [update_of_ne hu]
  cases hstep with
  | publishStore t | handlerStore t => exact bump t
  | _ => exact le_rfl

/-! ### Signalling rounds -/

/-- The part of its signalling round that a thread is in. -/
def stageOf (n : ℕ) : Pc → Stage
  | .publish .store => .prep
  | .publish .count => .reach 0
  | .ping i => .reach i
  | .announce => .reach n
  | _ => .out

/-- Thread `u` has stored its reservation since the stores were counted in `σ`, or its handler is
about to. -/
def Served (s : State n Obj) (σ : Fin n → ℕ) (u : Fin n) : Prop :=
  σ u < s.pubs u ∨ s.pinged u = true ∨ s.handler u = some .store

/-- What is known of the rounds since the retirement of an object. -/
structure Watched (s : State n Obj) (r : RCUPOPInfo n Obj) : Prop where
  pubs_le : ∀ u, r.pubs u ≤ s.pubs u
  rounds : ∀ i, Observed (Served s r.pubs) i (r.ann i) (s.ann i) (stageOf n (s.pc i))

/-- A ping leads to the handler, and the handler to a store. -/
theorem Served.step {σ : Fin n → ℕ} (hstep : Step cfg s a s') (hle : σ u ≤ s.pubs u)
    (h : Served s σ u) : Served s' σ u := by
  rcases h with hpub | hping | hhand
  · exact .inl (hpub.trans_le (hstep.pubs_le u))
  · -- the ping is still pending, or its handler takes it over
    cases hstep with
    | ping t i _ hpc hi =>
      refine .inr (.inl ?_)
      show update s.pinged i true u = true
      by_cases hu : u = i
      · subst hu
        exact update_self ..
      · rwa [update_of_ne hu]
    | handlerEnter t hp hh =>
      by_cases hu : u = t
      · subst hu
        exact .inr (.inr (update_self ..))
      · refine .inr (.inl ?_)
        show update s.pinged t false u = true
        rwa [update_of_ne hu]
    | _ => exact .inr (.inl hping)
  · have other : ∀ {t : Fin n} {h : Option Publish}, u ≠ t →
        update s.handler t h u = some .store := by
      intro t h hu
      rwa [update_of_ne hu]
    -- the handler goes on, until its store is counted
    cases hstep with
    | handlerEnter t hp hh =>
      by_cases hu : u = t
      · subst hu
        exact .inr (.inr (update_self ..))
      · exact .inr (.inr (other hu))
    | handlerStore t hh =>
      by_cases hu : u = t
      · subst hu
        refine .inl (hle.trans_lt ?_)
        show s.pubs u < update s.pubs u (s.pubs u + 1) u
        rw [update_self]
        exact Nat.lt_succ_self _
      · exact .inr (.inr (other hu))
    | handlerCount t hh =>
      refine .inr (.inr (other ?_))
      rintro rfl
      rw [hh] at hhand
      cases hhand
    | _ => exact .inr (.inr hhand)

/-- What a step does to the signalling round of thread `i`. -/
theorem Step.round {σ : Fin n → ℕ} (hstep : Step cfg s a s') (hle : ∀ u, σ u ≤ s.pubs u)
    (i : Fin n) : Stage.Step (Served s' σ) i (s.ann i) (stageOf n (s.pc i)) (s'.ann i)
      (stageOf n (s'.pc i)) := by
  -- a step that is not about a round
  have stay : ∀ {P : Fin n → Prop} {t : Fin n} {p q : Pc}, s.pc t = p →
      stageOf n q = stageOf n p →
        Stage.Step P i (s.ann i) (stageOf n (s.pc i)) (s.ann i)
          (stageOf n (update s.pc t q i)) := by
    intro P t p q hpc hst
    have hi : stageOf n (update s.pc t q i) = stageOf n (s.pc i) := by
      by_cases hit : i = t
      · subst hit
        rw [update_self, hst, hpc]
      · rw [update_of_ne hit]
    rw [hi]
    exact .stay ..
  -- a step of the round of thread `t`
  have move : ∀ {P : Fin n → Prop} {t : Fin n} {p q : Pc} {m : ℕ}, s.pc t = p →
      (i = t → Stage.Step P t (s.ann t) (stageOf n p) m (stageOf n q)) →
        Stage.Step P i (s.ann i) (stageOf n (s.pc i)) (update s.ann t m i)
          (stageOf n (update s.pc t q i)) := by
    intro P t p q m hpc hround
    by_cases hit : i = t
    · subst hit
      rw [update_self, update_self, hpc]
      exact hround rfl
    · rw [update_of_ne hit, update_of_ne hit]
      exact .stay ..
  have same : ∀ {P : Fin n → Prop} {t : Fin n} {p q : Pc}, s.pc t = p →
      (i = t → Stage.Step P t (s.ann t) (stageOf n p) (s.ann t) (stageOf n q)) →
        Stage.Step P i (s.ann i) (stageOf n (s.pc i)) (s.ann i)
          (stageOf n (update s.pc t q i)) := by
    intro P t p q hpc hround
    have h := move hpc hround
    rwa [update_eq_self] at h
  cases hstep with
  | alloc t _ hpc =>
    refine stay hpc ?_
    split <;> rfl
  | sampleEnd t _ hpc => exact move hpc fun _ => .prepare _
  | publishStore t _ hpc =>
    refine same hpc fun _ => .prepared _ (.inl ((hle t).trans_lt ?_))
    show s.pubs t < update s.pubs t (s.pubs t + 1) t
    rw [update_self]
    exact Nat.lt_succ_self _
  | ping t v _ hpc hv => exact same hpc fun _ => .signal _ v (.inr (.inr (.inl (update_self ..))))
  | pingSelf t _ hpc => exact same hpc fun _ => .signal _ t (.inl rfl)
  | announce t _ hpc => exact move hpc fun _ => .finish _
  | endOp | free | handlerEnter | handlerStore | handlerCount => exact .stay ..
  | bumpEpoch t _ hpc | callStartOp t _ hpc | startOp t e _ hpc | retireHiWm t o _ hpc
  | retireEnterLoWm t o rand _ hpc | retireLoWm t o _ hpc | retire t o _ hpc | sample t v _ hpc
  | publishCount t _ hpc | pingEnd t _ hpc | save t _ hpc | confirm t v _ hpc | confirmEnd t _ hpc
  | checkHit t _ hpc | checkMiss t _ hpc | load t v path m _ hpc | loadEnd t path m _ hpc
  | emptyHiWm t m _ hpc | emptyLoWm t m _ hpc => exact stay hpc rfl

theorem Watched.step (hW : Watched s r) (hc : ∀ i, Counts (s.ann i) (stageOf n (s.pc i)))
    (hstep : Step cfg s a s') : Watched s' r where
  pubs_le u := (hW.pubs_le u).trans (hstep.pubs_le u)
  rounds i := (hW.rounds i).step (hc i) (hstep.round hW.pubs_le i) fun u =>
    Served.step hstep (hW.pubs_le u)

/-! ### Operations that run since before a retirement -/

/-- What is known of thread `u` and an object that is still in a list. -/
structure Covered (s : State n Obj) (u : Fin n) (r : RCUPOPInfo n Obj) : Prop where
  begun_le : r.begun u ≤ s.begun u
  /-- An operation that runs since before the retirement has reserved no later epoch. -/
  reserved : s.RunningSince u r → (s.reservation u).Since (· ≤ r.retireEpoch) (r.pubs u)

/-- Nobody comes to be inside an operation that was begun earlier. -/
theorem Moves.runningSince (hm : Moves s s' u) (hbegun : r.begun u ≤ s.begun u)
    (hrun : s'.RunningSince u r) : s.RunningSince u r := by
  obtain ⟨hin, hrin, heq⟩ := hrun
  cases hm with
  | same hb hi => exact ⟨hi ▸ hin, hrin, heq.trans hb⟩
  | begins e hpc hb => omega
  | ends hb hi =>
    rw [hi] at hin
    cases hin
  | publishes hb hi => exact ⟨hi ▸ hin, hrin, heq.trans hb⟩

theorem Covered.step (hC : Covered s u r) (hm : Moves s s' u) : Covered s' u r := by
  have hback := hm.runningSince hC.begun_le
  have hle := hC.begun_le
  cases hm with
  | same hb hi hres => exact ⟨hb ▸ hle, fun hrun => hres ▸ hC.reserved (hback hrun)⟩
  | begins e hpc hb hres =>
    -- the new operation is none of those that were running
    refine ⟨by omega, fun hrun => ?_⟩
    have heq := hrun.2.2
    omega
  | ends hb hi =>
    refine ⟨hb ▸ hle, fun hrun => ?_⟩
    exact absurd (hi.symm.trans hrun.1) (by simp)
  | publishes hb hi hres =>
    exact ⟨hb ▸ hle, fun hrun => hres ▸ (hC.reserved (hback hrun)).publish⟩

/-- Everybody has stored its reservation since the retirement of the objects of thread `t` that were
retired before a round which it knows to have ended. -/
def Published (s : State n Obj) (t : Fin n) : Prop :=
  ∀ r ∈ s.retired t, Signalled s t r → ∀ u, r.pubs u < s.pubs u

/-- `empty` of thread `t` has loaded the reservation of thread `u`, and `m` is at most that. -/
structure Seen (s : State n Obj) (t u : Fin n) (m : WithTop ℕ) : Prop where
  le : m ≤ s.loadedRes t u
  published : ∀ r ∈ s.retired t, Signalled s t r → r.pubs u < s.loadedPubs t u
  ended : ∀ r ∈ s.retired t, Signalled s t r → (r.retireEpoch : WithTop ℕ) < m →
    ¬ s.RunningSince u r

/-- What is known of thread `t` at each point of the code. -/
def Own (s : State n Obj) (t : Fin n) : Pc → Prop
  | .startOp e => e ≤ s.epoch
  | .load .loWm i m => Published s t ∧ ∀ u : Fin n, u.val < i → Seen s t u m
  | .scan .loWm m => ∀ u, Seen s t u m
  | _ => True

/-- **The invariant.** -/
structure Inv (s : State n Obj) : Prop where
  /-- A thread inside an operation has reserved an epoch that has begun. -/
  reserved_le : ∀ u, s.inOp u = true → s.reservedEpoch u ≤ s.epoch
  counts : ∀ i, Counts (s.ann i) (stageOf n (s.pc i))
  watched : ∀ t, ∀ r ∈ s.retired t, Watched s r
  covered : ∀ t, ∀ r ∈ s.retired t, ∀ u, Covered s u r
  own : ∀ t, Own s t (s.pc t)

theorem Inv.initial : Inv (State.initial cfg n Obj) where
  reserved_le _ h := by cases h
  counts _ := ⟨fun h => absurd h (by simp [State.initial]), fun h => absurd rfl h⟩
  watched _ _ h := absurd h List.not_mem_nil
  covered _ _ h := absurd h List.not_mem_nil
  own _ := trivial

theorem Inv.reserved_le_step (hI : Inv s) (hstep : Step cfg s a s') (hin : s'.inOp u = true) :
    s'.reservedEpoch u ≤ s'.epoch := by
  have hle : (s.epoch : WithTop ℕ) ≤ s'.epoch := WithTop.coe_le_coe.mpr hstep.epoch_le
  cases hstep.moves u with
  | same _ hi hres =>
    have hlocal : s'.reservedEpoch u = s.reservedEpoch u := congrArg Copy.value hres
    exact (hlocal ▸ hI.reserved_le u (hi ▸ hin)).trans hle
  | begins e hpc _ hres =>
    have hlocal : s'.reservedEpoch u = e := congrArg Copy.value hres
    have he := hI.own u
    rw [hpc] at he
    rw [hlocal]
    exact (WithTop.coe_le_coe.mpr he).trans hle
  | ends _ hi =>
    rw [hi] at hin
    cases hin
  | publishes _ hi hres =>
    have hlocal : s'.reservedEpoch u = s.reservedEpoch u := congrArg Copy.value hres
    exact (hlocal ▸ hI.reserved_le u (hi ▸ hin)).trans hle

theorem Inv.watched_step (hI : Inv s) (hstep : Step cfg s a s') (hr : r ∈ s'.retired t) :
    Watched s' r := by
  rcases hstep.mem_retired hr with hold | ⟨o, rfl, -, -, hres, hann⟩
  · exact (hI.watched t r hold).step hI.counts hstep
  · -- the observation begins
    have hpubs : s'.pubs = s.pubs := funext fun u => congrArg Copy.stores (congrFun hres u)
    refine ⟨fun u => (congrFun hpubs u).ge, fun i => ?_⟩
    rw [hann]
    exact .now ..

theorem Inv.covered_step (hI : Inv s) (hstep : Step cfg s a s') (hr : r ∈ s'.retired t) :
    Covered s' u r := by
  rcases hstep.mem_retired hr with hold | ⟨o, rfl, hb, hi, hres, -⟩
  · exact (hI.covered t r hold u).step (hstep.moves u)
  · refine ⟨hb ▸ le_rfl, fun hrun => ?_⟩
    rw [hres]
    exact .now (hI.reserved_le u (hi ▸ hrun.1))

/-! ### The loads of the low watermark -/

/-- A step in which the thread of the list neither checks, loads nor retires. -/
theorem Seen.step (hS : Seen s t u m) (hcov : ∀ r ∈ s.retired t, Covered s u r)
    (hm : Moves s s' u) (hsub : ∀ r ∈ s'.retired t, r ∈ s.retired t)
    (hann : s'.checkedAnn t = s.checkedAnn t) (hres : s'.loadedRes t = s.loadedRes t)
    (hpubs : s'.loadedPubs t = s.loadedPubs t) : Seen s' t u m where
  le := by
    rw [hres]
    exact hS.le
  published r hr hsig := by
    unfold Signalled at hsig
    rw [hann] at hsig
    rw [hpubs]
    exact hS.published r (hsub r hr) hsig
  ended r hr hsig hlt hrun := by
    unfold Signalled at hsig
    rw [hann] at hsig
    exact hS.ended r (hsub r hr) hsig hlt (hm.runningSince (hcov r (hsub r hr)).begun_le hrun)

/-- The next load lowers the bound. -/
theorem Seen.load {i : Fin n} (hS : Seen s t u m) (hne : u ≠ i) {p : Pc} :
    Seen ((s.noteLoad t i).goto t p) t u (min m (s.reservations i)) where
  le := by
    show _ ≤ update s.loadedRes t _ t u
    rw [update_self, update_of_ne hne]
    exact (min_le_left ..).trans hS.le
  published r hr hsig := by
    show _ < update s.loadedPubs t _ t u
    rw [update_self, update_of_ne hne]
    exact hS.published r hr hsig
  ended r hr hsig hlt := hS.ended r hr hsig (hlt.trans_le (min_le_left ..))

/-- **The load.** An operation that runs since before the retirement of an object would show at most
the stamp of the object. -/
theorem Inv.seen_load (hI : Inv s) (hpub : Published s t) {i : Fin n} {p : Pc} :
    Seen ((s.noteLoad t i).goto t p) t i (min m (s.reservations i)) where
  le := by
    show _ ≤ update s.loadedRes t _ t i
    rw [update_self, update_self]
    exact min_le_right ..
  published r hr hsig := by
    show _ < update s.loadedPubs t _ t i
    rw [update_self, update_self]
    exact hpub r hr hsig i
  ended r hr hsig hlt hrun := by
    have hrun : s.RunningSince i r := hrun
    have hle : s.reservations i ≤ r.retireEpoch :=
      ((hI.covered t r hr i).reserved hrun).shown (hpub r hr hsig i)
    exact absurd (hlt.trans_le (min_le_right ..)) (not_lt.mpr hle)

/-- What has been published stays so. -/
theorem Published.step (hP : Published s t) (hstep : Step cfg s a s')
    (hretired : s'.retired t = s.retired t) (hann : s'.checkedAnn t = s.checkedAnn t) :
    Published s' t := by
  intro r hr hsig u
  unfold Signalled at hsig
  rw [hretired] at hr
  rw [hann] at hsig
  exact (hP r hr hsig u).trans_le (hstep.pubs_le u)

/-- **The check.** If no ping is left to handle, everybody has published since a round began that has
ended. -/
theorem Inv.published (hI : Inv s) (hr : s.Runs t)
    (hhandled : ∀ u, u ≠ t → s.pinged u = false ∧ s.handler u = none)
    (hretired : s'.retired t = s.retired t) (hann : s'.checkedAnn t = s.ann)
    (hpubs : s'.pubs = s.pubs) : Published s' t := by
  rintro r hmem ⟨i, hround⟩ u
  rw [hretired] at hmem
  rw [hann] at hround
  rw [hpubs]
  have hu : s.pinged u = false ∧ s.handler u = none := by
    by_cases hut : u = t
    · subst hut
      exact hr
    · exact hhandled u hut
  rcases ((hI.watched t r hmem).rounds i).served hround u with hpub | hping | hhand
  · exact hpub
  · rw [hu.1] at hping
    cases hping
  · rw [hu.2] at hhand
    cases hhand

/-- **Interference freedom.** A step of somebody else. -/
theorem Own.frame (hI : Inv s) (hstep : Step cfg s a s') (ha : a ≠ .thread t) :
    Own s' t (s'.pc t) := by
  have hf := hstep.frame ha
  have hown := hI.own t
  have seen : ∀ {u m}, Seen s t u m → Seen s' t u m := fun hS =>
    hS.step (fun r hr => hI.covered t r hr _) (hstep.moves _) (fun r hr => hf.retired ▸ hr)
      hf.checkedAnn hf.loadedRes hf.loadedPubs
  rw [hf.pc]
  cases hp : s.pc t with
  | startOp e =>
    rw [hp] at hown
    exact hown.trans hstep.epoch_le
  | load path i m =>
    cases path with
    | hiWm => trivial
    | loWm =>
      rw [hp] at hown
      exact ⟨hown.1.step hstep hf.retired hf.checkedAnn, fun u hu => seen (hown.2 u hu)⟩
  | scan path m =>
    cases path with
    | hiWm => trivial
    | loWm =>
      rw [hp] at hown
      exact fun u => seen (hown u)
  | _ => trivial

/-- **One step.** -/
theorem Own.step (hI : Inv s) (hok : Meets s (.thread t)) (hstep : Step cfg s (.thread t) s') :
    Own s' t (s'.pc t) := by
  have moved : ∀ {p : Pc}, s'.pc t = p → Own s' t p → Own s' t (s'.pc t) := by
    intro p hp hh
    rwa [hp]
  have hown := hI.own t
  have hst := hstep
  cases hstep with
  | alloc _ hr hpc =>
    refine moved (update_self ..) ?_
    split <;> trivial
  | callStartOp _ hr hpc hin => exact moved (update_self ..) (le_refl s.epoch)
  | endOp _ hr hpc hin => exact moved hpc trivial
  | checkHit _ hr hpc hne =>
    refine moved (update_self ..) ⟨?_, fun u hu => absurd hu (Nat.not_lt_zero _)⟩
    exact hI.published hr (hok.handled t rfl hpc hne) rfl (update_self ..) rfl
  | load _ i path m hr hpc =>
    refine moved (update_self ..) ?_
    cases path with
    | hiWm => trivial
    | loWm =>
      rw [hpc] at hown
      obtain ⟨hpub, hseen⟩ := hown
      refine ⟨hpub.step hst rfl rfl, fun u hu => ?_⟩
      -- the reservation just loaded counts for thread `u`
      by_cases hui : u = i
      · subst hui
        exact hI.seen_load hpub
      · -- the bound for the threads before it is kept
        have hlt : u.val < i.val :=
          lt_of_le_of_ne (Nat.lt_succ_iff.mp hu) fun h => hui (Fin.ext h)
        exact (hseen u hlt).load hui
  | loadEnd _ path m hr hpc =>
    -- every thread has been compared with
    refine moved (update_self ..) ?_
    cases path with
    | hiWm => trivial
    | loWm =>
      rw [hpc] at hown
      exact fun u => (hown.2 u u.isLt).step (fun r hr => hI.covered t r hr u)
        (.same rfl rfl rfl) (fun _ hr => hr) rfl rfl rfl
  | free _ path m r rest hr hpc hlist hlt =>
    refine moved hpc ?_
    cases path with
    | hiWm => trivial
    | loWm =>
      rw [hpc] at hown
      -- the freed object leaves the list, the others stay in it
      have hsub : ∀ r' ∈ update s.retired t rest t, r' ∈ s.retired t := by
        intro r' hr'
        rw [update_self] at hr'
        rw [hlist]
        exact List.mem_cons_of_mem _ hr'
      exact fun u => (hown u).step (fun r hr => hI.covered t r hr u)
        (.same rfl rfl rfl) hsub rfl rfl rfl
  | _ => exact moved (update_self ..) trivial

/-- **Invariant preservation.** -/
theorem Inv.step (hI : Inv s) (hstep : Step cfg s a s') (hok : Meets s a) : Inv s' where
  reserved_le _ := hI.reserved_le_step hstep
  counts i := (hI.counts i).step (hstep.round (fun u => le_refl (s.pubs u)) i)
  watched _ _ hr := hI.watched_step hstep hr
  covered _ _ hr _ := hI.covered_step hstep hr
  own t := by
    by_cases ha : a = .thread t
    · subst ha
      exact Own.step hI hok hstep
    · exact Own.frame hI hstep ha

theorem Inv.reached (h : (system cfg).ReachableBy Meets s) : Inv s := by
  refine h.invariant ?_ fun s a s' _ hI hok hstep => hI.step hstep hok
  rintro s rfl
  exact Inv.initial

/-- **Safety at the low watermark.** In every run whose steps all meet the condition, an object that
is freed at the low watermark has a stamp below the reservation that any other thread inside an
operation has published after its retirement, and no thread is still in an operation that it had
begun before. -/
theorem rcuPopPlus_safe (h : (system cfg).ReachableBy Meets s) (hok : Meets s (.thread t))
    (hfree : FreesAtLoWm s t r) : LoWmSafe s t r := by
  have hsig := hok.signalled t r rfl hfree
  obtain ⟨m, hpc, hhead, hlt⟩ := hfree
  have hown := (Inv.reached h).own t
  rw [hpc] at hown
  have hr : r ∈ s.retired t := List.mem_of_head? hhead
  exact
    { below := fun u => hlt.trans_le (hown u).le
      published := fun u _ _ => (hown u).published r hr hsig
      ended := fun u => (hown u).ended r hr hsig hlt }

/-! ### Many calls of one thread -/

/-- Thread `t` has retired the objects `o`, …, `o + k - 1` without further consequences. -/
def State.filled (s : State n ℕ) (t : Fin n) (o k : ℕ) : State n ℕ :=
  { s with
    retired := update s.retired t (s.retired t ++ (List.range k).map fun j => s.entry (o + j)) }

/-- Thread `t` has allocated `k` objects without further consequences. -/
def State.allocated (s : State n Obj) (t : Fin n) (k : ℕ) : State n Obj :=
  { s with allocCounters := update s.allocCounters t (s.allocCounters t + k) }

/-- Thread `t` has counted `k` retires since the low watermark. -/
def State.counted (s : State n Obj) (t : Fin n) (k : ℕ) : State n Obj :=
  { s with
    numRetiresSinceLoWatermark := update s.numRetiresSinceLoWatermark t
      (s.numRetiresSinceLoWatermark t + k) }

theorem State.length_filled (s : State n ℕ) (t : Fin n) (o k : ℕ) :
    ((s.filled t o k).retired t).length = (s.retired t).length + k := by
  show (update s.retired t _ t).length = _
  rw [update_self]
  simp

/-- One more object. -/
theorem State.pushBack_filled (s : State n ℕ) (t : Fin n) (o k : ℕ) :
    (s.filled t o k).pushBack t (o + k) = s.filled t o (k + 1) := by
  unfold State.pushBack State.filled
  simp [State.entry, List.range_succ, update_idem]

theorem reach_allocated {s : State n Obj} (hR : (system cfg).Reachable s) (hr : s.Runs t)
    (hpc : s.pc t = .idle) (k : ℕ)
    (hk : s.allocCounters t + k < cfg.epochFreq * n) :
    (system cfg).Reachable (s.allocated t k) := by
  induction k with
  | zero =>
    unfold State.allocated
    simpa using hR
  | succ k ih =>
    have hstep := (ih (by omega)).step (.alloc (s.allocated t k) t hr hpc)
    have hmod : ¬ (s.allocCounters t + k + 1) % (cfg.epochFreq * n) = 0 := by
      rw [Nat.mod_eq_of_lt (by omega)]
      omega
    have heq : (s.allocated t k).allocCounters t = s.allocCounters t + k := update_self ..
    rw [heq, if_neg hmod] at hstep
    convert hstep using 1
    unfold State.allocated State.goto
    simp [update_idem, ← hpc, add_assoc]

/-- Below the capacity nobody runs out of patience. -/
theorem State.isOutOfPatience_of_lt {k : ℕ} (h : k < cfg.bagCapacity) :
    s.isOutOfPatience cfg t k = false := by
  simp [State.isOutOfPatience, h]

theorem State.isPastLoWatermark_of_le {k : ℕ} (h : cfg.bagCapacity / 2 ≤ k)
    (hnum : s.numRetiresSinceLoWatermark t % s.loPathReclaimAttemptFreq t = 0) :
    s.isPastLoWatermark cfg t k = true := by
  simp [State.isPastLoWatermark, h, hnum]

theorem State.isOutOfPatience_of_le {k : ℕ} (h : cfg.bagCapacity ≤ k)
    (hnum : s.retiresSinceHiWm t % 8192 = 0) : s.isOutOfPatience cfg t k = true := by
  simp [State.isOutOfPatience, h, hnum]

/-- Objects that are retired below the low watermark. -/
theorem reach_filled {s : State n ℕ} (hR : (system cfg).Reachable s) (hr : s.Runs t)
    (hpc : s.pc t = .idle) (hflag : s.firstLoEntryFlag t = true) (o k : ℕ)
    (hk : (s.retired t).length + k < cfg.bagCapacity / 2) :
    (system cfg).Reachable (s.filled t o k) := by
  induction k with
  | zero =>
    unfold State.filled
    simpa using hR
  | succ k ih =>
    have hlen := s.length_filled t o k
    have hpast : (s.filled t o k).isPastLoWatermark cfg t
        (((s.filled t o k).retired t).length + 1) = false := by
      simp [State.isPastLoWatermark, hlen]
      omega
    have hstep := (ih (by omega)).step (.retire (s.filled t o k) t (o + k) hr hpc
      (State.isOutOfPatience_of_lt (by omega)) hpast)
    convert hstep using 1
    rw [s.pushBack_filled t o k]
    unfold State.finishRetire State.filled
    simp [hflag, ← hpc]

/-- Objects that are retired between the watermarks, until the next attempt. -/
theorem reach_counted {s : State n ℕ} (hR : (system cfg).Reachable s) (hr : s.Runs t)
    (hpc : s.pc t = .idle) (hflag : s.firstLoEntryFlag t = false) (o k : ℕ)
    (hk : (s.retired t).length + k < cfg.bagCapacity)
    (hpos : 0 < s.numRetiresSinceLoWatermark t)
    (hfreq : s.numRetiresSinceLoWatermark t + k ≤ s.loPathReclaimAttemptFreq t) :
    (system cfg).Reachable ((s.filled t o k).counted t k) := by
  induction k with
  | zero =>
    unfold State.counted State.filled
    simpa using hR
  | succ k ih =>
    have hlen : (((s.filled t o k).counted t k).retired t).length = (s.retired t).length + k :=
      s.length_filled t o k
    have hnum : ((s.filled t o k).counted t k).numRetiresSinceLoWatermark t =
        s.numRetiresSinceLoWatermark t + k := update_self ..
    have hmod : (s.numRetiresSinceLoWatermark t + k) % s.loPathReclaimAttemptFreq t =
        s.numRetiresSinceLoWatermark t + k := Nat.mod_eq_of_lt (by omega)
    have hpast : ((s.filled t o k).counted t k).isPastLoWatermark cfg t
        ((((s.filled t o k).counted t k).retired t).length + 1) = false := by
      have hfreq' : ((s.filled t o k).counted t k).loPathReclaimAttemptFreq t =
        s.loPathReclaimAttemptFreq t := rfl
      simp only [State.isPastLoWatermark, hnum, hfreq', hmod]
      simp
      omega
    have hstep := (ih (by omega) (by omega)).step (.retire _ t (o + k) hr hpc
      (State.isOutOfPatience_of_lt (by omega)) hpast)
    convert hstep using 1
    show _ = (((s.filled t o k).pushBack t (o + k)).counted t k).finishRetire t
    rw [s.pushBack_filled t o k]
    unfold State.finishRetire State.counted State.filled
    simp [hflag, ← hpc, update_idem, add_assoc]

/-- The list of thread `t` grows by `L`. -/
def State.extended (s : State n Obj) (t : Fin n) (L : List (RCUPOPInfo n Obj)) : State n Obj :=
  { s with retired := update s.retired t (s.retired t ++ L) }

theorem reach_extended {s : State n ℕ} (hR : (system cfg).Reachable s) (hr : s.Runs t)
    (hpc : s.pc t = .idle) (hflag : s.firstLoEntryFlag t = true) (o k : ℕ)
    (hk : (s.retired t).length + k < cfg.bagCapacity / 2) :
    ∃ L, L.length = k ∧ (system cfg).Reachable (s.extended t L) :=
  ⟨_, by simp, reach_filled hR hr hpc hflag o k hk⟩

theorem reach_extended_counted {s : State n ℕ} (hR : (system cfg).Reachable s) (hr : s.Runs t)
    (hpc : s.pc t = .idle) (hflag : s.firstLoEntryFlag t = false) (o k : ℕ)
    (hk : (s.retired t).length + k < cfg.bagCapacity)
    (hpos : 0 < s.numRetiresSinceLoWatermark t)
    (hfreq : s.numRetiresSinceLoWatermark t + k ≤ s.loPathReclaimAttemptFreq t) :
    ∃ L, L.length = k ∧ (system cfg).Reachable ((s.extended t L).counted t k) :=
  ⟨_, by simp, reach_counted hR hr hpc hflag o k hk hpos hfreq⟩

/-- Thread `1` is inside an operation that it has begun in epoch 0, and has never published
anything. Thread `0` retires an object in that epoch, and many more in the next one, until it is
just below the low watermark. Thread `2` runs out of patience and pings the others. When it has
incremented `publishing_epoch`, only thread `0` has run its handler: its next `retire` takes the new
value as the news that everybody has published, and is about to free the first object. -/
theorem loWm_frees_early :
    ¬ ∀ s : State 3 ℕ, (system Config.standard).Reachable s → ∀ t r, FreesAtLoWm s t r →
      LoWmSafe s t r := by
  intro hall
  have hR : (system Config.standard).Reachable (State.initial Config.standard 3 ℕ) := .init rfl
  -- thread 1 is in its first operation, and thread 0 retires an object in another one
  have hR := hR.step (.callStartOp _ 1 ⟨rfl, rfl⟩ rfl rfl)
  have hR := hR.step (.startOp _ 1 0 ⟨rfl, rfl⟩ rfl)
  have hR := hR.step (.callStartOp _ 0 ⟨rfl, rfl⟩ rfl rfl)
  have hR := hR.step (.startOp _ 0 0 ⟨rfl, rfl⟩ rfl)
  have hR := hR.step (.retire _ 0 0 ⟨rfl, rfl⟩ rfl rfl rfl)
  have hR := hR.step (.endOp _ 0 ⟨rfl, rfl⟩ rfl rfl)
  -- after 150 allocations the epoch is incremented
  have hR := reach_allocated hR (t := 0) ⟨rfl, rfl⟩ rfl 149 (by decide)
  have hR := hR.step (.alloc _ 0 ⟨rfl, rfl⟩ rfl)
  have hR := hR.step (.bumpEpoch _ 0 ⟨rfl, rfl⟩ rfl)
  have hR := hR.step (.callStartOp _ 0 ⟨rfl, rfl⟩ rfl rfl)
  have hR := hR.step (.startOp _ 0 1 ⟨rfl, rfl⟩ rfl)
  obtain ⟨L₀, hL₀, hR⟩ := reach_extended hR (t := 0) ⟨rfl, rfl⟩ rfl rfl 1 16382 (by decide)
  -- thread 2 passes the low watermark and reaches the high one
  have hR := hR.step (.callStartOp _ 2 ⟨rfl, rfl⟩ rfl rfl)
  have hR := hR.step (.startOp _ 2 1 ⟨rfl, rfl⟩ rfl)
  obtain ⟨L₁, hL₁, hR⟩ := reach_extended hR (t := 2) ⟨rfl, rfl⟩ rfl rfl 20000 16383
    (show 0 + 16383 < 16384 by decide)
  have hlen₁ : ([] ++ L₁).length = 16383 := by simp [hL₁]
  have hR := hR.step (.retireEnterLoWm _ 2 40000 10 ⟨rfl, rfl⟩ rfl
    (State.isOutOfPatience_of_lt (show ([] ++ L₁).length + 1 < 32768 by omega))
    (State.isPastLoWatermark_of_le (show 16384 ≤ ([] ++ L₁).length + 1 by omega) rfl) rfl)
  have hR := hR.step (.checkMiss _ 2 ⟨rfl, rfl⟩ rfl rfl)
  have hlen₂ : ∀ e, (([] ++ L₁) ++ [e]).length = 16384 := by simp [hL₁]
  obtain ⟨L₂, hL₂, hR⟩ := reach_extended_counted hR (t := 2) ⟨rfl, rfl⟩ rfl rfl 60000 16383
    (show (([] ++ L₁) ++ [_]).length + 16383 < 32768 by rw [hlen₂]; decide)
    (show 0 < 1 by decide) (show 1 + 16383 ≤ 16384 by decide)
  have hlen₃ : ∀ e, ((([] ++ L₁) ++ [e]) ++ L₂).length = 32767 := by simp [hL₁, hL₂]
  have hR := hR.step (.retireHiWm _ 2 80000 ⟨rfl, rfl⟩ rfl (State.isOutOfPatience_of_le
    (show 32768 ≤ ((([] ++ L₁) ++ [_]) ++ L₂).length + 1 by rw [hlen₃]) rfl))
  have hR := hR.step (.sample _ 2 0 ⟨rfl, rfl⟩ rfl)
  have hR := hR.step (.sample _ 2 1 ⟨rfl, rfl⟩ rfl)
  have hR := hR.step (.sample _ 2 2 ⟨rfl, rfl⟩ rfl)
  have hR := hR.step (.sampleEnd _ 2 ⟨rfl, rfl⟩ rfl)
  have hR := hR.step (.publishStore _ 2 ⟨rfl, rfl⟩ rfl)
  have hR := hR.step (.publishCount _ 2 ⟨rfl, rfl⟩ rfl)
  have hR := hR.step (.ping _ 2 0 ⟨rfl, rfl⟩ rfl (by decide))
  have hR := hR.step (.ping _ 2 1 ⟨rfl, rfl⟩ rfl (by decide))
  have hR := hR.step (.pingSelf _ 2 ⟨rfl, rfl⟩ rfl)
  have hR := hR.step (.pingEnd _ 2 ⟨rfl, rfl⟩ rfl)
  have hR := hR.step (.announce _ 2 ⟨rfl, rfl⟩ rfl)
  -- the handler of thread 0 runs, and that of thread 1 has not run
  have hR := hR.step (.handlerEnter _ 0 rfl rfl)
  have hR := hR.step (.handlerStore _ 0 rfl)
  have hR := hR.step (.handlerCount _ 0 rfl)
  have hlen₀ : ∀ e, (([] ++ [e]) ++ L₀).length = 16383 := by simp [hL₀]
  have hR := hR.step (.retireEnterLoWm _ 0 90000 0 ⟨rfl, rfl⟩ rfl
    (State.isOutOfPatience_of_lt
      (show (([] ++ [_]) ++ L₀).length + 1 < 32768 by rw [hlen₀]; decide))
    (State.isPastLoWatermark_of_le (show 16384 ≤ (([] ++ [_]) ++ L₀).length + 1 by rw [hlen₀]) rfl)
    rfl)
  have hR := hR.step (.checkHit _ 0 ⟨rfl, rfl⟩ rfl (show 0 ≠ 1 by decide))
  have hR := hR.step (.load _ 0 0 .loWm _ ⟨rfl, rfl⟩ rfl)
  have hR := hR.step (.load _ 0 1 .loWm _ ⟨rfl, rfl⟩ rfl)
  have hR := hR.step (.load _ 0 2 .loWm _ ⟨rfl, rfl⟩ rfl)
  have hR := hR.step (.loadEnd _ 0 .loWm _ ⟨rfl, rfl⟩ rfl)
  have hlt : ((0 : ℕ) : WithTop ℕ) < min (min (min (⊤ : WithTop ℕ) (1 : ℕ)) ⊤) (1 : ℕ) := by decide
  exact (hall _ hR 0 _ ⟨_, rfl, rfl, hlt⟩).ended 1 ⟨rfl, rfl, rfl⟩

theorem Meets.handler : Meets s (.handler t) := ⟨nofun, nofun⟩

/-- A step of a thread that neither looks for a new value of `publishing_epoch` nor frees at the low
watermark. -/
theorem Meets.thread {p : Pc} (hpc : s.pc t = p) (hcheck : p ≠ .check)
    (hscan : ∀ m, p ≠ .scan .loWm m) : Meets s (.thread t) where
  handled u ha hp _ := by
    cases ha
    exact absurd (hpc.symm.trans hp) hcheck
  signalled u r ha hfree := by
    cases ha
    obtain ⟨m, hp, -⟩ := hfree
    exact absurd (hpc.symm.trans hp) (hscan m)

theorem Meets.load {path : Path} {i : ℕ} (hpc : s.pc t = .load path i m) : Meets s (.thread t) :=
  .thread hpc nofun nofun

/-- The value of `publishing_epoch` is the saved one. -/
theorem Meets.checkMiss (hpc : s.pc t = .check)
    (heq : s.savedPublishingEpoch t = s.publishingEpoch) : Meets s (.thread t) where
  handled u ha _ hne := by
    cases ha
    exact absurd heq hne
  signalled u r ha hfree := by
    cases ha
    obtain ⟨m, hp, -⟩ := hfree
    rw [hpc] at hp
    cases hp

/-- The other one of two threads has handled its pings. -/
theorem Meets.checkHit {s : State 2 Obj} (hpc : s.pc 0 = .check) (hping : s.pinged 1 = false)
    (hhand : s.handler 1 = none) : Meets s (.thread 0) where
  handled t ha _ _ u hu := by
    cases ha
    obtain rfl : u = 1 := by omega
    exact ⟨hping, hhand⟩
  signalled t r ha hfree := by
    cases ha
    obtain ⟨m, hp, -⟩ := hfree
    rw [hpc] at hp
    cases hp

/-- The first object of the list was retired before a round that had ended at the check. -/
theorem Meets.scan (hpc : s.pc t = .scan .loWm m) (hhead : (s.retired t).head? = some r)
    (hsig : Signalled s t r) : Meets s (.thread t) where
  handled u ha hp _ := by
    cases ha
    rw [hpc] at hp
    cases hp
  signalled u r' ha hfree := by
    cases ha
    obtain ⟨m', -, hhead', -⟩ := hfree
    obtain rfl := Option.some.inj (hhead.symm.trans hhead')
    exact hsig

/-- With two threads, a capacity of 4 and `epoch_freq = 1`, thread `0` retires an object during an
operation of thread `1`. In the next epoch thread `1` runs out of patience in its next operation, both
publish, and thread `0` is about to free the object at the low watermark. -/
theorem rcuPopPlus_safe_of_freed :
    ∃ (s : State 2 ℕ) (r : RCUPOPInfo 2 ℕ), s.inOp 1 = true ∧ FreesAtLoWm s 0 r ∧
      LoWmSafe s 0 r := by
  have safe : ∀ {s : State 2 ℕ}, (system ⟨4, 1⟩).ReachableBy Meets s → ∀ m r, s.inOp 1 = true →
      s.pc 0 = .scan .loWm m → (s.retired 0).head? = some r → (r.retireEpoch : WithTop ℕ) < m →
      Signalled s 0 r → ∃ (s : State 2 ℕ) (r : RCUPOPInfo 2 ℕ), s.inOp 1 = true ∧
        FreesAtLoWm s 0 r ∧ LoWmSafe s 0 r :=
    fun hR m r hin hpc hhead hlt hsig => ⟨_, r, hin, ⟨m, hpc, hhead, hlt⟩,
      rcuPopPlus_safe hR (.scan hpc hhead hsig) ⟨m, hpc, hhead, hlt⟩⟩
  have hR : (system ⟨4, 1⟩).ReachableBy Meets (State.initial ⟨4, 1⟩ 2 ℕ) := .init rfl
  -- both threads are in an operation, in which thread 0 retires an object
  have hR := hR.step (.callStartOp _ 1 ⟨rfl, rfl⟩ rfl rfl) (.thread rfl nofun nofun)
  have hR := hR.step (.startOp _ 1 0 ⟨rfl, rfl⟩ rfl) (.thread rfl nofun nofun)
  have hR := hR.step (.callStartOp _ 0 ⟨rfl, rfl⟩ rfl rfl) (.thread rfl nofun nofun)
  have hR := hR.step (.startOp _ 0 0 ⟨rfl, rfl⟩ rfl) (.thread rfl nofun nofun)
  have hR := hR.step (.retire _ 0 7 ⟨rfl, rfl⟩ rfl rfl rfl) (.thread rfl nofun nofun)
  have hR := hR.step (.endOp _ 0 ⟨rfl, rfl⟩ rfl rfl) (.thread rfl nofun nofun)
  have hR := hR.step (.endOp _ 1 ⟨rfl, rfl⟩ rfl rfl) (.thread rfl nofun nofun)
  -- two allocations increment the epoch
  have hR := hR.step (.alloc _ 0 ⟨rfl, rfl⟩ rfl) (.thread rfl nofun nofun)
  have hR := hR.step (.alloc _ 0 ⟨rfl, rfl⟩ rfl) (.thread rfl nofun nofun)
  have hR := hR.step (.bumpEpoch _ 0 ⟨rfl, rfl⟩ rfl) (.thread rfl nofun nofun)
  have hR := hR.step (.callStartOp _ 0 ⟨rfl, rfl⟩ rfl rfl) (.thread rfl nofun nofun)
  have hR := hR.step (.startOp _ 0 1 ⟨rfl, rfl⟩ rfl) (.thread rfl nofun nofun)
  -- thread 1 passes the low watermark and reaches the high one
  have hR := hR.step (.callStartOp _ 1 ⟨rfl, rfl⟩ rfl rfl) (.thread rfl nofun nofun)
  have hR := hR.step (.startOp _ 1 1 ⟨rfl, rfl⟩ rfl) (.thread rfl nofun nofun)
  have hR := hR.step (.retire _ 1 20 ⟨rfl, rfl⟩ rfl rfl rfl) (.thread rfl nofun nofun)
  have hR := hR.step (.retireEnterLoWm _ 1 21 10 ⟨rfl, rfl⟩ rfl rfl rfl rfl)
    (.thread rfl nofun nofun)
  have hR := hR.step (.checkMiss _ 1 ⟨rfl, rfl⟩ rfl rfl) (.checkMiss rfl rfl)
  have hR := hR.step (.retire _ 1 22 ⟨rfl, rfl⟩ rfl rfl rfl) (.thread rfl nofun nofun)
  have hR := hR.step (.retireHiWm _ 1 23 ⟨rfl, rfl⟩ rfl rfl) (.thread rfl nofun nofun)
  have hR := hR.step (.sample _ 1 0 ⟨rfl, rfl⟩ rfl) (.thread rfl nofun nofun)
  have hR := hR.step (.sample _ 1 1 ⟨rfl, rfl⟩ rfl) (.thread rfl nofun nofun)
  have hR := hR.step (.sampleEnd _ 1 ⟨rfl, rfl⟩ rfl) (.thread rfl nofun nofun)
  have hR := hR.step (.publishStore _ 1 ⟨rfl, rfl⟩ rfl) (.thread rfl nofun nofun)
  have hR := hR.step (.publishCount _ 1 ⟨rfl, rfl⟩ rfl) (.thread rfl nofun nofun)
  have hR := hR.step (.ping _ 1 0 ⟨rfl, rfl⟩ rfl (by decide)) (.thread rfl nofun nofun)
  have hR := hR.step (.pingSelf _ 1 ⟨rfl, rfl⟩ rfl) (.thread rfl nofun nofun)
  have hR := hR.step (.pingEnd _ 1 ⟨rfl, rfl⟩ rfl) (.thread rfl nofun nofun)
  have hR := hR.step (.announce _ 1 ⟨rfl, rfl⟩ rfl) (.thread rfl nofun nofun)
  have hR := hR.step (.handlerEnter _ 0 rfl rfl) .handler
  have hR := hR.step (.handlerStore _ 0 rfl) .handler
  have hR := hR.step (.handlerCount _ 0 rfl) .handler
  have hR := hR.step (.retireEnterLoWm _ 0 8 10 ⟨rfl, rfl⟩ rfl rfl rfl rfl)
    (.thread rfl nofun nofun)
  -- the handlers have run, and the round of thread 1 was begun after the retirement
  have hR := hR.step (.checkHit _ 0 ⟨rfl, rfl⟩ rfl (show 0 ≠ 1 by decide))
    (.checkHit rfl rfl rfl)
  have hR := hR.step (.load _ 0 0 .loWm _ ⟨rfl, rfl⟩ rfl) (.load rfl)
  have hR := hR.step (.load _ 0 1 .loWm _ ⟨rfl, rfl⟩ rfl) (.load rfl)
  have hR := hR.step (.loadEnd _ 0 .loWm _ ⟨rfl, rfl⟩ rfl) (.load rfl)
  have hlt : ((0 : ℕ) : WithTop ℕ) < min (min (⊤ : WithTop ℕ) (1 : ℕ)) (1 : ℕ) := by decide
  exact safe hR _ _ rfl rfl rfl hlt ⟨1, show evenUp 0 + 2 ≤ 2 by decide⟩

end RcuPopPlus
end PopSetbench

import Mathlib.Data.List.InsertIdx
import PopSetbench.Reclaim.Qsbr

/-!
# QSBR: when freeing is safe

`qsbr_safe`: in every run whose steps all meet `Meets`, no object that `empty` passes to the pool is
one that a thread has obtained, while it was reachable, during an operation that has not ended. The
condition excludes that `empty` looks at a thread in an operation that it began before its first
`endOp`; nothing protects what such a thread holds.

A thread that has announced an epoch goes on to announce it throughout its next operation. What it
obtains there is reachable after the announcement, so it is retired in that epoch or later, and
`minEpoch` is not greater.
-/

namespace PopSetbench
namespace Qsbr

open Function

variable {n : ℕ} {Obj Loc : Type}

/-- The threads below `i` that hold an object of the list keep `minEpoch` from passing it. -/
def Bounded (s : State n Obj Loc) (t : Fin n) (i : ℕ) (m : ℕ∞) : Prop :=
  ∀ u : Fin n, u.val < i → ∀ res ∈ s.retired t, s.held u res.obj = true → m ≤ res.epoch

/-- What thread `t` knows at each point of the code. -/
def Own (s : State n Obj Loc) (t : Fin n) : Pc → Prop
  | .endOp e => e ≤ s.epoch
  | .empty i m => Bounded s t i m
  | .scan _ m => Bounded s t n m
  | _ => True

/-- **The invariant.** -/
structure Inv (s : State n Obj Loc) : Prop where
  /-- The objects in the lists are the retired ones. -/
  custody : Custody s.objs fun o => s.life o = .retired
  /-- What is announced is an epoch of the past. -/
  announced_le : ∀ u, s.reservations u ≠ ⊤ → s.reservations u ≤ s.epoch
  held : ∀ u o, s.held u o = true → s.inOp u = true ∧ s.life o ≠ .pooled
  /-- What a thread holds was not retired before its announcement. -/
  retired_after : ∀ u t res, res ∈ s.retired t → s.held u res.obj = true →
    s.reservations u ≠ ⊤ → s.reservations u ≤ res.epoch
  own : ∀ t, Own s t (s.pc t)

theorem Inv.initial : Inv (State.initial n Obj Loc) where
  custody := Custody.nil _
  announced_le _ h := absurd rfl h
  held _ _ h := nomatch h
  retired_after _ _ _ h := absurd h List.not_mem_nil
  own _ := trivial

theorem Inv.life_eq {s : State n Obj Loc} (hI : Inv s) {t : Fin n} {res : QSBRInfo Obj}
    (h : res ∈ s.retired t) : s.life res.obj = .retired :=
  hI.custody.prop t res.obj (List.mem_map_of_mem h)

/-- **Nothing that is held is freed.** -/
theorem Inv.safe {s : State n Obj Loc} (hI : Inv s) : Safe s := by
  intro t res ⟨pos, m, hpc, hget, hlt⟩ u
  have hown := hI.own t
  rw [hpc] at hown
  rw [← Bool.not_eq_true]
  intro hheld
  exact absurd (hown u u.isLt res (List.mem_of_getElem? hget) hheld) (not_le.mpr hlt)

/-- One more announcement is loaded. -/
private theorem Bounded.succ {s : State n Obj Loc} {t i : Fin n} {m : ℕ∞} (hI : Inv s)
    (h : Bounded s t i.val m)
    (hmeets : s.inOp i = true → s.reservations i ≠ ⊤) :
    Bounded s t (i.val + 1) (if s.reservations i < m then s.reservations i else m) := by
  intro u hu res hres hheld
  rcases Nat.lt_succ_iff_lt_or_eq.mp hu with hlt | heq
  · have hm := h u hlt res hres hheld
    split_ifs with hr
    · exact hr.le.trans hm
    · exact hm
  · obtain rfl := Fin.ext heq
    have hle := hI.retired_after u t res hres hheld (hmeets (hI.held u _ hheld).1)
    split_ifs with hr
    · exact hle
    · exact (not_lt.mp hr).trans hle

variable [DecidableEq Obj] [DecidableEq Loc] {cfg : Config} {s s' : State n Obj Loc}
  {a : Actor n} {t u : Fin n} {o : Obj} {res : QSBRInfo Obj}

theorem Step.epoch_le (hstep : Step cfg s a s') : s.epoch ≤ s'.epoch := by
  cases hstep with
  | bumpEpoch t hpc => exact Nat.le_succ _
  | _ => exact le_rfl

/-- What belongs to thread `t` is changed by its own steps only. -/
theorem Step.frame (hstep : Step cfg s a s') (ha : a ≠ .thread t) :
    s'.retired t = s.retired t ∧ s'.pc t = s.pc t := by
  cases hstep with
  | write | link | unlink => exact ⟨rfl, rfl⟩
  | _ =>
    have ht : t ≠ _ := fun h => ha (congrArg Actor.thread h.symm)
    refine ⟨?_, ?_⟩ <;> first | rfl | exact update_of_ne ht _ _

/-- What a step does to the lists and to the life of objects. -/
theorem Step.custody (hstep : Step cfg s a s') :
    Custody.Step s.objs s.life s'.objs s'.life := by
  have push : ∀ {x : State n Obj Loc} {t : Fin n} {o : Obj}, s.life o = .unlinked →
      x.retired = (s.pushBack t o).retired → x.life = update s.life o .retired →
      Custody.Step s.objs s.life x.objs x.life := by
    intro x t o ho hret hlife
    refine .push t o ho ?_ hlife
    unfold State.objs
    rw [hret]
    ext w
    by_cases hw : w = t
    · subst hw
      simp [State.pushBack]
    · simp [State.pushBack, update_of_ne hw]
  cases hstep with
  | link o h => exact .of_update rfl (by simp [h]) (by simp)
  | unlink o h => exact .of_update rfl (by simp [h]) (by simp)
  | retire t o hpc ho hfreq => exact push ho rfl rfl
  | retireEmpty t o hpc ho hfreq => exact push ho rfl rfl
  | scanFree t pos m res hpc ho hfree =>
    have hget : (s.objs t)[pos]? = some res.obj := by simp [State.objs, ho]
    refine .free t pos res.obj hget ?_ rfl
    funext w
    by_cases hw : w = t
    · subst hw
      simp [State.objs, State.goto, State.passToPool, List.eraseIdx_map]
    · simp [State.objs, State.goto, State.passToPool, update_of_ne hw]
  | _ => exact .keep rfl fun _ => Iff.rfl

/-- What is held after a step was held before, under the same announcement, or is reachable. -/
theorem Step.held_before (hstep : Step cfg s a s') (h : s'.held u o = true) :
    (s.held u o = true ∧ s'.reservations u = s.reservations u ∧
      (s.inOp u = true → s'.inOp u = true)) ∨
    (s.life o = .linked ∧ s'.life = s.life ∧ s'.inOp u = true) := by
  cases hstep with
  | startOp t hpc hop =>
    refine .inl ⟨h, rfl, fun hu => ?_⟩
    show update s.inOp t true u = true
    by_cases hut : u = t
    · subst hut
      exact update_self ..
    · rwa [update_of_ne hut]
  | access t l hpc hop =>
    have h : update s.held t (fun o => s.held t o || ((s.mem l).obj = some o && s.life o = .linked))
      u o = true := h
    by_cases hu : u = t
    · subst hu
      rw [update_self, Bool.or_eq_true] at h
      rcases h with hold | hnew
      · exact .inl ⟨hold, rfl, id⟩
      · rw [Bool.and_eq_true, decide_eq_true_eq, decide_eq_true_eq] at hnew
        exact .inr ⟨hnew.2, rfl, hop⟩
    · rw [update_of_ne hu] at h
      exact .inl ⟨h, rfl, id⟩
  | announce t e hpc =>
    have h : update s.held t (fun _ => false) u o = true := h
    by_cases hu : u = t
    · subst hu
      rw [update_self] at h
      cases h
    · rw [update_of_ne hu] at h
      exact .inl ⟨h, update_of_ne hu .., fun hop => (update_of_ne hu ..).trans hop⟩
  | _ => exact .inl ⟨h, rfl, id⟩

/-- A hold on a retired object is not new. -/
theorem Step.held_retired (hI : Inv s) (hstep : Step cfg s a s') (hres : res ∈ s.retired t)
    (h : s'.held u res.obj = true) :
    s.held u res.obj = true ∧ s'.reservations u = s.reservations u := by
  rcases hstep.held_before h with ⟨hold, hr, -⟩ | ⟨hlink, -⟩
  · exact ⟨hold, hr⟩
  · rw [hI.life_eq hres] at hlink
    cases hlink

/-- An object in a list was there before, or is retired now. -/
theorem Step.retired_of (hstep : Step cfg s a s') (h : res ∈ s'.retired t) :
    res ∈ s.retired t ∨ (res.epoch = s.epoch ∧ s'.reservations = s.reservations) := by
  have push : ∀ {v : Fin n} {o : Obj}, res ∈ (s.pushBack v o).retired t →
      res ∈ s.retired t ∨ res.epoch = s.epoch := by
    intro v o hp
    have hp : res ∈ update s.retired v (s.retired v ++ [⟨o, s.epoch⟩]) t := hp
    by_cases hv : t = v
    · subst hv
      rw [update_self, List.mem_append, List.mem_singleton] at hp
      exact hp.imp id fun (heq : res = _) => heq ▸ rfl
    · rw [update_of_ne hv] at hp
      exact .inl hp
  cases hstep with
  | retire v o hpc ho hfreq => exact (push h).imp id fun he => ⟨he, rfl⟩
  | retireEmpty v o hpc ho hfreq => exact (push h).imp id fun he => ⟨he, rfl⟩
  | scanFree v pos m res' hpc ho hfree =>
    left
    have h : res ∈ update s.retired v ((s.retired v).eraseIdx pos) t := h
    by_cases hv : t = v
    · subst hv
      rw [update_self] at h
      exact List.mem_of_mem_eraseIdx h
    · rwa [update_of_ne hv] at h
  | _ => exact .inl h

/-- What is held is not in the pool after a step either. -/
theorem Step.alive (hI : Inv s) (hstep : Step cfg s a s') (h : s'.held u o = true) :
    s'.life o ≠ .pooled := by
  rcases hstep.held_before h with ⟨hold, -, -⟩ | ⟨hlink, hlife, -⟩
  · have hne := (hI.held u o hold).2
    have other : ∀ {o' : Obj} {l : Life}, (o = o' → l ≠ .pooled) →
        update s.life o' l o ≠ .pooled := by
      intro o' l hl
      by_cases heq : o = o'
      · subst heq
        rw [update_self]
        exact hl rfl
      · rwa [update_of_ne heq]
    cases hstep with
    | link o' ho => exact other fun _ => by simp
    | unlink o' ho => exact other fun _ => by simp
    | retire t o' hpc ho hfreq => exact other fun _ => by simp
    | retireEmpty t o' hpc ho hfreq => exact other fun _ => by simp
    | scanFree t pos m res hpc ho hfree =>
      refine other fun heq => ?_
      have hfalse := hI.safe t res ⟨pos, m, hpc, ho, hfree⟩ u
      rw [← heq, hold] at hfalse
      cases hfalse
    | _ => exact hne
  · rw [hlife, hlink]
    simp

theorem Bounded.step {i : ℕ} {m : ℕ∞} (hI : Inv s) (hstep : Step cfg s a s')
    (hsub : ∀ res ∈ s'.retired t, res ∈ s.retired t) (h : Bounded s t i m) :
    Bounded s' t i m := by
  intro u hu res hres hheld
  exact h u hu res (hsub res hres) (hstep.held_retired hI (hsub res hres) hheld).1

/-- **Interference freedom.** What a thread knows survives the steps of others. -/
theorem Own.frame (hI : Inv s) (hstep : Step cfg s a s') (ha : a ≠ .thread t) {p : Pc}
    (h : Own s t p) : Own s' t p := by
  have hret := (hstep.frame ha).1
  cases p with
  | endOp e => exact le_trans h hstep.epoch_le
  | empty i m => exact Bounded.step hI hstep (fun res hres => hret ▸ hres) h
  | scan pos m => exact Bounded.step hI hstep (fun res hres => hret ▸ hres) h
  | _ => trivial

/-- What the acting thread knows afterwards. -/
theorem Step.own (hI : Inv s) (hstep : Step cfg s a s') (hmeets : Meets s a)
    (ha : a = .thread t) : Own s' t (s'.pc t) := by
  have hown := hI.own
  -- outside a load and a scan there is nothing to know
  have idle : ∀ {x : State n Obj Loc} {p : Pc}, (∀ x : State n Obj Loc, Own x t p) →
      Own x t (update s.pc t p t) := by
    intro x p hp
    rw [update_self]
    exact hp x
  cases hstep with
  | write | link | unlink => cases ha
  | alloc t' hpc hmod | startOp t' hpc hop | access t' l hpc hop | retire t' o hpc ho hfreq =>
    obtain rfl := Actor.thread.inj ha
    show Own _ t' (s.pc t')
    rw [hpc]
    trivial
  | endOp t' hpc hop =>
    obtain rfl := Actor.thread.inj ha
    show Own _ t' (update s.pc t' _ t')
    rw [update_self]
    exact le_refl s.epoch
  | retireEmpty t' o hpc ho hfreq =>
    -- no reservation has been loaded yet
    obtain rfl := Actor.thread.inj ha
    show Own _ t' (update s.pc t' _ t')
    rw [update_self]
    exact fun u hu => absurd hu (Nat.not_lt_zero _)
  | load t' i m hpc =>
    -- one more reservation has been loaded, and the bound is below it
    obtain rfl := Actor.thread.inj ha
    have hb := hown t'
    rw [hpc] at hb
    show Own _ t' (update s.pc t' _ t')
    rw [update_self]
    have hsucc := Bounded.succ hI hb (hmeets t' i m rfl hpc)
    exact hsucc
  | loaded t' m hpc =>
    -- the smallest reservation bounds what is freed
    obtain rfl := Actor.thread.inj ha
    have hb := hown t'
    rw [hpc] at hb
    show Own _ t' (update s.pc t' _ t')
    rw [update_self]
    exact hb
  | scanKeep t' pos m res hpc ho hkeep =>
    -- the item is kept, and the scan goes on behind it
    obtain rfl := Actor.thread.inj ha
    have hb := hown t'
    rw [hpc] at hb
    show Own _ t' (update s.pc t' _ t')
    rw [update_self]
    exact hb
  | scanFree t' pos m res hpc ho hfree =>
    -- the item is freed: the rest of the list has moved up
    obtain rfl := Actor.thread.inj ha
    have hb := hown t'
    rw [hpc] at hb
    show Own _ t' (update s.pc t' _ t')
    rw [update_self]
    refine Bounded.step hI (.scanFree s t' pos m res hpc ho hfree : Step cfg s _ _)
      (fun r hr => ?_) hb
    have hr : r ∈ update s.retired t' ((s.retired t').eraseIdx pos) t' := hr
    rw [update_self] at hr
    exact List.mem_of_mem_eraseIdx hr
  | _ =>
    obtain rfl := Actor.thread.inj ha
    exact idle fun _ => trivial

/-- **Invariant preservation.** -/
theorem Inv.step (hI : Inv s) (hstep : Step cfg s a s') (hmeets : Meets s a) : Inv s' where
  custody := hI.custody.step hstep.custody
  announced_le u hne := by
    have hle : (s.epoch : ℕ∞) ≤ s'.epoch := by exact_mod_cast hstep.epoch_le
    have hown := hI.own
    cases hstep with
    | announce t e hpc =>
      have he := hown t
      rw [hpc] at he
      by_cases hu : u = t
      · subst hu
        show update s.reservations u (e : ℕ∞) u ≤ s.epoch
        rw [update_self]
        exact_mod_cast he
      · have hne : update s.reservations t (e : ℕ∞) u ≠ ⊤ := hne
        show update s.reservations t (e : ℕ∞) u ≤ s.epoch
        rw [update_of_ne hu] at hne ⊢
        exact hI.announced_le u hne
    | _ => exact (hI.announced_le u hne).trans hle
  held u o h := by
    refine ⟨?_, hstep.alive hI h⟩
    rcases hstep.held_before h with ⟨hold, -, hop⟩ | ⟨-, -, hop⟩
    · exact hop (hI.held u o hold).1
    · exact hop
  retired_after u t res hres hheld hne := by
    rcases hstep.retired_of hres with hold | ⟨he, hr⟩
    · obtain ⟨hh, hr⟩ := hstep.held_retired hI hold hheld
      rw [hr] at hne ⊢
      exact hI.retired_after u t res hold hh hne
    · -- it is retired now, and what is announced is an epoch of the past
      rw [hr] at hne ⊢
      rw [he]
      exact hI.announced_le u hne
  own t := by
    by_cases ha : a = .thread t
    · exact hstep.own hI hmeets ha
    · have hpc := (hstep.frame ha).2
      rw [hpc]
      exact (hI.own t).frame hI hstep ha

/-- **When QSBR is safe.** In every run in which `empty` never looks at a thread in an operation
that it began before its first `endOp`, nothing that is held is freed. -/
theorem qsbr_safe (h : (system cfg).ReachableBy Meets s) : Safe s := by
  refine Inv.safe (h.invariant ?_ fun s a s' _ hI hok hs => hI.step hs hok)
  rintro s rfl
  exact Inv.initial

section Condition

variable {n : ℕ} {Obj Loc : Type} {s : State n Obj Loc} {t : Fin n}

/-- A thread that is not in the loop of `empty`. -/
theorem Meets.other {p : Pc} (hpc : s.pc t = p) (h : ∀ (i : Fin n) m, p ≠ .empty i.val m) :
    Meets s (.thread t) := by
  intro v i m ha hp hop
  cases ha
  exact absurd (hpc.symm.trans hp) (h _ _)

/-- The thread whose announcement is loaded has made one. -/
theorem Meets.load {i : Fin n} {m : ℕ∞} {r : ℕ} (hpc : s.pc t = .empty i.val m)
    (hr : s.reservations i = r) : Meets s (.thread t) := by
  intro v i' m' ha hp hop
  cases ha
  obtain ⟨hi, -⟩ := Pc.empty.inj (hpc.symm.trans hp)
  obtain rfl := Fin.ext hi
  rw [hr]
  exact ENat.natCast_ne_top r

end Condition

/-- Both threads retire and end their first operation. In its second one thread `1` holds object
`8`; `empty` loads its announcement and is about to free object `7`. -/
theorem qsbr_safe_of_freed : ∃ (s : State 2 ℕ Unit) (res : QSBRInfo ℕ),
    (system ⟨2, 1⟩).ReachableBy Meets s ∧ s.inOp 1 = true ∧ s.held 1 8 = true ∧
      PassesToPool s 0 res ∧ Safe s := by
  have hR : (system ⟨2, 1⟩).ReachableBy Meets (State.initial 2 ℕ Unit) := .init rfl
  -- the first operations of both threads; thread 0 retires the first object in epoch 0
  have hR := hR.step (.startOp _ 1 rfl rfl) (.other rfl nofun)
  have hR := hR.step (.startOp _ 0 rfl rfl) (.other rfl nofun)
  have hR := hR.step (.link _ 7 rfl) nofun
  have hR := hR.step (.unlink _ 7 rfl) nofun
  have hR := hR.step (.retire _ 0 7 rfl rfl (by decide)) (.other rfl nofun)
  have hR := hR.step (.alloc _ 0 rfl (by decide)) (.other rfl nofun)
  have hR := hR.step (.allocBump _ 0 rfl rfl) (.other rfl nofun)
  have hR := hR.step (.bumpEpoch _ 0 rfl) (.other rfl nofun)
  -- they end, and announce epoch 1
  have hR := hR.step (.endOp _ 0 rfl rfl) (.other rfl nofun)
  have hR := hR.step (.announce _ 0 _ rfl) (.other rfl nofun)
  have hR := hR.step (.endOp _ 1 rfl rfl) (.other rfl nofun)
  have hR := hR.step (.announce _ 1 _ rfl) (.other rfl nofun)
  -- in the second ones thread 1 obtains the second object, and thread 0 retires it
  have hR := hR.step (.startOp _ 1 rfl rfl) (.other rfl nofun)
  have hR := hR.step (.startOp _ 0 rfl rfl) (.other rfl nofun)
  have hR := hR.step (.link _ 8 rfl) nofun
  have hR := hR.step (.write _ () ⟨some 8, 0⟩) nofun
  have hR := hR.step (.access _ 1 () rfl rfl) (.other rfl nofun)
  have hR := hR.step (.unlink _ 8 rfl) nofun
  have hR := hR.step (.retireEmpty _ 0 8 rfl rfl rfl) (.other rfl nofun)
  -- the announcements are loaded
  have hR := hR.step (.load _ 0 0 ⊤ rfl) (.load (i := 0) (r := 1) rfl rfl)
  have hR := hR.step (.load _ 0 1 _ rfl) (.load (i := 1) (r := 1) rfl rfl)
  have hR := hR.step (.loaded _ 0 _ rfl) (.other rfl fun i m h => i.isLt.ne' (Pc.empty.inj h).1)
  refine ⟨_, ⟨7, 0⟩, hR, rfl, rfl, ⟨0, _, rfl, rfl, ?_⟩, qsbr_safe hR⟩
  show ((0 : ℕ) : ℕ∞) < (if (1 : ℕ∞) < (if (1 : ℕ∞) < ⊤ then 1 else ⊤) then 1
    else (if (1 : ℕ∞) < ⊤ then 1 else ⊤))
  decide

/-! ### When it is not -/

section Schedule

local instance neZero_two_threads : NeZero 2 := ⟨by decide⟩

variable {p : State 2 ℕ Unit → Actor 2 → Prop} {cfg : Config} {x : State 2 ℕ Unit}

/-- Thread `0` has retired `k` objects, each in an operation of its own, beginning with the object
that thread `1` has obtained in its first operation; afterwards the epoch has become 1. -/
structure Retiring (x : State 2 ℕ Unit) (k : ℕ) : Prop where
  pc : x.pc 0 = .idle
  inOp : x.inOp 0 = false
  retireCounters : x.retireCounters 0 = k
  first : (x.retired 0)[0]? = some ⟨0, 0⟩
  announced : x.reservations 0 = 1
  unannounced : x.reservations 1 = ⊤
  epoch : x.epoch = 1
  held : x.held 1 0 = true
  fresh : ∀ o, k ≤ o → x.life o = .pooled

/-- The state after an object has been linked and unlinked, and thread `0` has started an
operation. -/
def State.unlinked (x : State 2 ℕ Unit) (o : ℕ) : State 2 ℕ Unit :=
  { x with
    life := update x.life o .unlinked
    inOp := update x.inOp 0 true }

theorem Retiring.unlinked {k : ℕ} (h : Retiring x k) (hx : (system cfg).Reachable x) :
    (system cfg).Reachable (x.unlinked k) := by
  have h₁ := hx.step (Step.link x k (h.fresh k le_rfl))
  have h₂ := h₁.step (Step.unlink _ k (update_self ..))
  have h₃ := h₂.step (Step.startOp _ 0 h.pc h.inOp)
  dsimp only at h₃
  rwa [update_idem] at h₃

/-- One more operation that retires an object. -/
theorem Retiring.next {k : ℕ} (h : Retiring x k) (hx : (system cfg).Reachable x)
    (hk : (k + 1) % cfg.emptyFreq ≠ 0) :
    ∃ x', (system cfg).Reachable x' ∧ Retiring x' (k + 1) := by
  have h₁ := (h.unlinked hx).step (Step.retire _ 0 k h.pc (update_self ..)
    (by show (x.retireCounters 0 + 1) % _ ≠ 0; rwa [h.retireCounters]))
  have hop : ((x.unlinked k).pushBack 0 k).inOp 0 = true := by
    show update x.inOp 0 true 0 = true
    exact update_self ..
  have h₂ := h₁.step (Step.endOp _ 0 h.pc hop)
  have h₃ := h₂.step (Step.announce _ 0 x.epoch (State.goto_pc ..))
  refine ⟨_, h₃, ?_⟩
  constructor
  · show update (update x.pc 0 (.endOp x.epoch)) 0 .idle 0 = .idle
    exact update_self ..
  · show update (update x.inOp 0 true) 0 false 0 = false
    exact update_self ..
  · show update x.retireCounters 0 (x.retireCounters 0 + 1) 0 = k + 1
    rw [update_self, h.retireCounters]
  · show (update x.retired 0 (x.retired 0 ++ _) 0)[0]? = _
    rw [update_self, List.getElem?_append_left (List.getElem?_eq_some_iff.mp h.first).1]
    exact h.first
  · show update x.reservations 0 (x.epoch : ℕ∞) 0 = 1
    rw [update_self, h.epoch]
    rfl
  · exact h.unannounced
  · exact h.epoch
  · exact h.held
  · intro o ho
    have hne : o ≠ k := by omega
    show update (update x.life k .unlinked) k .retired o = .pooled
    rw [update_of_ne hne, update_of_ne hne]
    exact h.fresh o (by omega)

/-- Many of them. -/
theorem Retiring.many {k : ℕ} (h : Retiring x k) (hx : (system cfg).Reachable x) :
    ∀ m, k + m < cfg.emptyFreq → ∃ x', (system cfg).Reachable x' ∧ Retiring x' (k + m)
  | 0, _ => ⟨x, hx, h⟩
  | m + 1, hm => by
    obtain ⟨x', hx', h'⟩ := h.many hx m (by omega)
    refine h'.next hx' ?_
    rw [Nat.mod_eq_of_lt (by omega)]
    exact Nat.succ_ne_zero _

/-- The last one finds that the least announcement is that of thread `0`. -/
theorem Retiring.frees {k : ℕ} (h : Retiring x k) (hx : (system cfg).Reachable x)
    (hk : k + 1 = cfg.emptyFreq) :
    ∃ x' : State 2 ℕ Unit, (system cfg).Reachable x' ∧ PassesToPool x' 0 ⟨0, 0⟩ ∧
      x'.held 1 0 = true := by
  have h₁ := (h.unlinked hx).step (Step.retireEmpty _ 0 k h.pc (update_self ..)
    (by show (x.retireCounters 0 + 1) % _ = 0; rw [h.retireCounters, hk, Nat.mod_self]))
  let y := (x.unlinked k).pushBack 0 k
  have h₂ := h₁.step (Step.load (y.goto 0 (.empty 0 ⊤)) 0 0 ⊤ (State.goto_pc ..))
  have h₃ := h₂.step (Step.load _ 0 1 _ (State.goto_pc ..))
  have h₄ := h₃.step (Step.loaded _ 0 _ (State.goto_pc ..))
  refine ⟨_, h₄, ⟨0, _, State.goto_pc .., ?_, ?_⟩, h.held⟩
  · show (update x.retired 0 (x.retired 0 ++ _) 0)[0]? = _
    rw [update_self, List.getElem?_append_left (List.getElem?_eq_some_iff.mp h.first).1]
    exact h.first
  · -- thread `1`, which has announced nothing, does not count
    have hmin : (if x.reservations 1 < (if x.reservations 0 < ⊤ then x.reservations 0 else ⊤)
        then x.reservations 1 else (if x.reservations 0 < ⊤ then x.reservations 0 else ⊤)) = 1 := by
      rw [h.announced, h.unannounced]
      simp
    show ((0 : ℕ) : ℕ∞) < (if x.reservations 1 < (if x.reservations 0 < ⊤ then x.reservations 0
      else ⊤) then x.reservations 1 else (if x.reservations 0 < ⊤ then x.reservations 0 else ⊤))
    rw [hmin]
    simp

/-- The state in which thread `1` has obtained object `0` in its first operation, thread `0` has
retired it, and `k` allocations have been counted. -/
def obtained (k : ℕ) : State 2 ℕ Unit :=
  { State.initial 2 ℕ Unit with
    mem := fun _ => ⟨some 0, 0⟩
    allocCounters := update (fun _ => 0) 0 k
    retireCounters := update (fun _ => 0) 0 1
    retired := update (fun _ => []) 0 [⟨0, 0⟩]
    life := update (fun _ => .pooled) 0 .retired
    inOp := fun _ => true
    held := update (fun _ _ => false) 1 fun o => o = 0 }

theorem reach_obtained : (system Config.standard).Reachable (obtained 0) := by
  let s₀ := State.initial 2 ℕ Unit
  let s₁ : State 2 ℕ Unit := { s₀ with life := update s₀.life 0 .linked }
  let s₂ : State 2 ℕ Unit := { s₁ with mem := update s₁.mem () ⟨some 0, 0⟩ }
  let s₃ : State 2 ℕ Unit := { s₂ with inOp := update s₂.inOp 1 true }
  have h₁ := (Lts.Reachable.init rfl : (system Config.standard).Reachable s₀).step
    (Step.link s₀ 0 rfl)
  have h₂ := h₁.step (Step.write s₁ () ⟨some 0, 0⟩)
  have h₃ := h₂.step (Step.startOp s₂ 1 rfl rfl)
  have h₄ := h₃.step (Step.access s₃ 1 () rfl rfl)
  have h₅ := h₄.step (Step.unlink _ 0 rfl)
  have h₆ := h₅.step (Step.startOp _ 0 rfl rfl)
  have h₇ := h₆.step (Step.retire _ 0 0 rfl rfl (by decide))
  convert h₇ using 1
  refine State.ext rfl rfl rfl ?_ ?_ ?_ rfl ?_ ?_ ?_
  · exact update_eq_self ..
  · rfl
  · rfl
  · show update (fun _ => Life.pooled) 0 .retired =
      update (update (update (fun _ => Life.pooled) 0 .linked) 0 .unlinked) 0 .retired
    rw [update_idem, update_idem]
  · funext u
    match u with
    | 0 => rfl
    | 1 => rfl
  · funext u o
    match u with
    | 0 => rfl
    | 1 =>
      show decide (o = 0) =
        (false || (decide (some 0 = some o) && decide (update (fun _ => Life.pooled) 0 .linked o =
          .linked)))
      by_cases ho : o = 0
      · subst ho
        rfl
      · simp [ho, Ne.symm ho]

/-- The allocations of thread `0`, up to the one that increments `epoch`. -/
theorem reach_allocated : ∀ k ≤ 299, (system Config.standard).Reachable (obtained k)
  | 0, _ => reach_obtained
  | k + 1, hk => by
    have ih := reach_allocated k (Nat.le_of_succ_le hk)
    have hcount : (obtained k).allocCounters 0 = k := by
      show update (fun _ => 0) 0 k 0 = k
      exact update_self ..
    have hstep := ih.step (Step.alloc _ 0 rfl (by
      rw [hcount]
      show (k + 1) % 300 ≠ 0
      omega))
    rw [hcount] at hstep
    have heq : update (obtained k).allocCounters 0 (k + 1) = update (fun _ => 0) 0 (k + 1) :=
      update_idem ..
    rw [heq] at hstep
    exact hstep

/-- Thread `0` ends the operation in which it has retired the first object, in epoch 1. -/
theorem reach_retiring :
    ∃ x, (system Config.standard).Reachable x ∧ Retiring x 1 := by
  have h₁ := (reach_allocated 299 le_rfl).step (Step.allocBump _ 0 rfl rfl)
  have h₂ := h₁.step (Step.bumpEpoch _ 0 rfl)
  have h₃ := h₂.step (Step.endOp _ 0 rfl rfl)
  have h₄ := h₃.step (Step.announce _ 0 1 rfl)
  refine ⟨_, h₄, rfl, rfl, rfl, rfl, rfl, rfl, rfl, rfl, fun o ho => ?_⟩
  have hne : o ≠ 0 := by omega
  show update (fun _ => Life.pooled) 0 .retired o = .pooled
  exact update_of_ne hne ..

end Schedule

/-- Thread `1` has obtained object `0` in its first operation, and has not ended it when thread `0`
frees the object. -/
theorem qsbr_unsafe :
    ¬ ∀ s : State 2 ℕ Unit, (system Config.standard).Reachable s → Safe s := by
  intro hall
  obtain ⟨s₁, hR₁, h₁⟩ := reach_retiring
  obtain ⟨s₂, hR₂, h₂⟩ := h₁.many hR₁ 16382 (by decide)
  obtain ⟨s₃, hR₃, hpass, hheld⟩ := h₂.frees hR₂ rfl
  have hfalse := hall s₃ hR₃ 0 _ hpass 1
  rw [hheld] at hfalse
  cases hfalse

end Qsbr
end PopSetbench

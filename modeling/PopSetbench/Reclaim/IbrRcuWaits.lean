import PopSetbench.Library.Grace
import PopSetbench.Reclaim.IbrRcuSafety

/-!
# RCU with reservations waits for operations

The reclaimer as a data structure sees it: `Call` gives its steps the labels of `GraceStep`. A
`startOp` takes effect when the reservation is stored; whoever has looked at it before may free what
was retired by then. `ibrRcu_waits`: with these labels every step is one of the reclaimer that waits
for all operations.

An operation that an object waits for has reserved an epoch that is not after its retirement
(`Waits.waits`), and it keeps this reservation; so the minimum that `empty` comes to is not greater
(`Spared`).
-/

namespace PopSetbench
namespace IbrRcu

open Function

variable {n : ℕ} {Obj Loc : Type} [DecidableEq Obj] [DecidableEq Loc] {cfg : Config}

/-- The steps, as a data structure sees them. -/
inductive Call (cfg : Config) (s : State n Obj Loc) :
    GraceStep (Fin n) Obj → State n Obj Loc → Prop
  /-- `startOp` stores its reservation. -/
  | reserve (t : Fin n) (e : ℕ) (hpc : s.pc t = .startOp e) :
      Call cfg s (.call t .startOp)
        { s.goto t .idle with
          reservations := update s.reservations t (e : ℕ∞)
          inOp := update s.inOp t true
          held := update s.held t fun _ => false }
  /-- `endOp` withdraws it. -/
  | endOp (t : Fin n) (hpc : s.pc t = .idle) (hop : s.inOp t = true) :
      Call cfg s (.call t .endOp)
        { s with
          reservations := update s.reservations t ⊤
          inOp := update s.inOp t false
          held := update s.held t fun _ => false }
  | retire (t : Fin n) (o : Obj) (hpc : s.pc t = .idle) (ho : s.life o = .unlinked)
      (hfreq : (s.retireCounters t + 1) % cfg.emptyFreq ≠ 0) :
      Call cfg s (.call t (.retire o)) (s.pushBack t o)
  | retireEmpty (t : Fin n) (o : Obj) (hpc : s.pc t = .idle) (ho : s.life o = .unlinked)
      (hfreq : (s.retireCounters t + 1) % cfg.emptyFreq = 0) :
      Call cfg s (.call t (.retire o)) ((s.pushBack t o).goto t (.empty 0 ⊤))
  /-- `empty` passes an object to the pool. -/
  | free (t : Fin n) (pos : ℕ) (m : ℕ∞) (res : RCUInfo Obj) (hpc : s.pc t = .scan pos m)
      (ho : (s.retired t)[pos]? = some res) (hfree : (res.epoch : ℕ∞) < m) :
      Call cfg s (.free res.obj) ((s.passToPool t pos res.obj).goto t (.scan pos m))
  /-- No operation begins or ends, and nothing is retired or freed. -/
  | own (a : Actor n) (s' : State n Obj Loc) (hs : Step cfg s a s') (hop : s'.inOp = s.inOp)
      (hres : s'.reservations = s.reservations) (hret : s'.retired = s.retired) :
      Call cfg s .own s'

/-- The reclaimer, as a data structure sees it. -/
def reclaimer (n : ℕ) (Obj Loc : Type) [DecidableEq Obj] [DecidableEq Loc] (cfg : Config) :
    Lts (State n Obj Loc) (GraceStep (Fin n) Obj) where
  init s := s = State.initial n Obj Loc
  step := Call cfg

section

variable {s s' : State n Obj Loc} {a : Actor n} {l : GraceStep (Fin n) Obj} {t u : Fin n}

/-- It is a step of the reclaimer. -/
theorem Call.step (h : Call cfg s l s') : ∃ a, Step cfg s a s' := by
  cases h with
  | reserve t e hpc => exact ⟨_, .reserve s t e hpc⟩
  | endOp t hpc hop => exact ⟨_, .endOp s t hpc hop⟩
  | retire t o hpc ho hfreq => exact ⟨_, .retire s t o hpc ho hfreq⟩
  | retireEmpty t o hpc ho hfreq => exact ⟨_, .retireEmpty s t o hpc ho hfreq⟩
  | free t pos m res hpc ho hfree => exact ⟨_, .scanFree s t pos m res hpc ho hfree⟩
  | own a s' hs hop hres hret => exact ⟨_, hs⟩

/-- **All steps are seen.** -/
theorem Step.call (h : Step cfg s a s') : ∃ l, Call cfg s l s' := by
  have hs := h
  cases h with
  | reserve t e hpc => exact ⟨_, .reserve t e hpc⟩
  | endOp t hpc hop => exact ⟨_, .endOp t hpc hop⟩
  | retire t o hpc ho hfreq => exact ⟨_, .retire t o hpc ho hfreq⟩
  | retireEmpty t o hpc ho hfreq => exact ⟨_, .retireEmpty t o hpc ho hfreq⟩
  | scanFree t pos m res hpc ho hfree => exact ⟨_, .free t pos m res hpc ho hfree⟩
  | _ => exact ⟨_, .own _ _ hs rfl rfl rfl⟩

variable {g : Grace (Fin n) Obj}

/-- The threads below `i` that an object of the list of `t` waits for keep a stamp less than `m`
away from it. -/
def Spared (s : State n Obj Loc) (g : Grace (Fin n) Obj) (t : Fin n) (i : ℕ) (m : ℕ∞) : Prop :=
  ∀ res ∈ s.retired t, ∀ w, g.waits res.obj = some w → ∀ u : Fin n, u.val < i → w u = true →
    m ≤ res.epoch

/-- What `empty` has found out so far. -/
def Scanned (s : State n Obj Loc) (g : Grace (Fin n) Obj) (t : Fin n) : Pc → Prop
  | .empty i m => Spared s g t i m
  | .scan _ m => Spared s g t n m
  | _ => True

/-- **What the reclaimer knows of the operations.** -/
structure Waits (s : State n Obj Loc) (g : Grace (Fin n) Obj) : Prop where
  inv : Inv s
  running : g.running = s.inOp
  waits : ∀ t, ∀ res ∈ s.retired t, ∃ w, g.waits res.obj = some w ∧
    ∀ u, w u = true → s.inOp u = true ∧ s.reservations u ≤ res.epoch
  scanned : ∀ t, Scanned s g t (s.pc t)

variable {g' : Grace (Fin n) Obj} {p : Pc} {i : ℕ} {m : ℕ∞}

omit [DecidableEq Obj] [DecidableEq Loc] in
/-- What `empty` has found out survives, if nothing waits for more threads than before. -/
theorem Scanned.mono (h : Scanned s g t p) (hsub : ∀ res ∈ s'.retired t, res ∈ s.retired t)
    (hwaits : ∀ res ∈ s'.retired t, ∀ w', g'.waits res.obj = some w' →
      ∃ w, g.waits res.obj = some w ∧ ∀ u, w' u = true → w u = true) : Scanned s' g' t p := by
  have spared : ∀ {i m}, Spared s g t i m → Spared s' g' t i m := by
    intro i m h res hr w' hw' u hu hwu
    obtain ⟨w, hw, hle⟩ := hwaits res hr w' hw'
    exact h res (hsub res hr) w hw u hu (hle u hwu)
  cases p with
  | empty i m => exact spared h
  | scan pos m => exact spared h
  | _ => trivial

omit [DecidableEq Obj] [DecidableEq Loc] in
/-- An object waits for no more threads after a release. -/
theorem waits_release (o : Obj) (w' : Fin n → Bool) (hw' : g.release t o = some w') :
    ∃ w, g.waits o = some w ∧ ∀ u, w' u = true → w u = true := by
  obtain ⟨w, hw, rfl⟩ := Grace.waits_of_release hw'
  refine ⟨w, hw, fun u hu => ?_⟩
  by_cases hut : u = t
  · subst hut
    rw [update_self] at hu
    cases hu
  · rwa [update_of_ne hut] at hu

omit [DecidableEq Obj] [DecidableEq Loc] in
/-- A thread begins or ends an operation, and what waits for it is released. -/
theorem Waits.release (h : Waits s g) (hinv : Inv s') {running : Fin n → Bool}
    (hrun : running = s'.inOp) (hret : s'.retired = s.retired)
    (hop : ∀ u, u ≠ t → s'.inOp u = s.inOp u ∧ s'.reservations u = s.reservations u)
    (hpc : ∀ u, s'.pc u = s.pc u ∨ s'.pc u = .idle) : Waits s' ⟨running, g.release t⟩ where
  inv := hinv
  running := hrun
  waits q res hr := by
    rw [hret] at hr
    obtain ⟨w, hw, hle⟩ := h.waits q res hr
    refine ⟨update w t false, ?_, fun u hu => ?_⟩
    · show g.release t res.obj = some (update w t false)
      unfold Grace.release
      rw [hw]
      rfl
    · by_cases hut : u = t
      · subst hut
        rw [update_self] at hu
        cases hu
      · rw [update_of_ne hut] at hu
        rw [(hop u hut).1, (hop u hut).2]
        exact hle u hu
  scanned q := by
    rcases hpc q with hq | hq
    · rw [hq]
      refine (h.scanned q).mono (fun res hr => ?_) fun res _ => waits_release res.obj
      rwa [hret] at hr
    · rw [hq]
      trivial

omit [DecidableEq Loc] in
/-- **A retirement**: the object waits for all that run, whose reservations are not after it. -/
theorem Waits.retire (h : Waits s g) (hinv : Inv s') {o : Obj} (ho : s.life o = .unlinked)
    (hret : s'.retired = update s.retired t (s.retired t ++ [⟨o, s.epoch⟩]))
    (hop : s'.inOp = s.inOp) (hres : s'.reservations = s.reservations)
    (hpc : ∀ u, u ≠ t → s'.pc u = s.pc u) (hpct : s'.pc t = .idle ∨ ∃ m, s'.pc t = .empty 0 m) :
    Waits s' (g.retire o) := by
  -- what is in a list already is another object
  have hne : ∀ {q} {res : RCUInfo Obj}, res ∈ s.retired q → res.obj ≠ o := by
    rintro q res hr rfl
    have hlife := h.inv.stamps.life_eq hr
    have hlife : s.life res.obj = .retired := hlife
    rw [ho] at hlife
    cases hlife
  -- the list grows at its end
  have hwaits : ∀ {q} {res : RCUInfo Obj}, res ∈ s.retired q →
      (g.retire o).waits res.obj = g.waits res.obj := fun hr => update_of_ne (hne hr) ..
  have hlist : ∀ {q}, q ≠ t → s'.retired q = s.retired q := by
    intro q hq
    rw [hret, update_of_ne hq]
  have hold : ∀ {q} {res : RCUInfo Obj}, res ∈ s.retired q →
      ∃ w, (g.retire o).waits res.obj = some w ∧
        ∀ u, w u = true → s'.inOp u = true ∧ s'.reservations u ≤ res.epoch := by
    intro q res hr
    rw [hwaits hr, hop, hres]
    exact h.waits q res hr
  refine ⟨hinv, h.running.trans hop.symm, fun q res hr => ?_, fun q => ?_⟩
  · -- the acting thread: one more object waits, for those who are running now
    by_cases hq : q = t
    · subst hq
      rw [hret, update_self, List.mem_append, List.mem_singleton] at hr
      rcases hr with hr | rfl
      · exact hold hr
      · refine ⟨g.running, update_self .., fun u hu => ?_⟩
        rw [h.running] at hu
        rw [hop, hres]
        exact ⟨hu, h.inv.stamps.announced_le u (h.inv.reserved u hu)⟩
    · rw [hlist hq] at hr
      exact hold hr
  · -- a scan of the thread is over, or compares with what it has loaded
    by_cases hq : q = t
    · subst hq
      rcases hpct with hpct | ⟨m, hpct⟩
      · rw [hpct]
        trivial
      · rw [hpct]
        exact fun res _ w _ u hu => absurd hu (Nat.not_lt_zero _)
    · rw [hpc q hq]
      refine (h.scanned q).mono (fun res hr => ?_) fun res hr w' hw' => ?_
      · rwa [hlist hq] at hr
      · rw [hlist hq] at hr
        rw [hwaits hr] at hw'
        exact ⟨w', hw', fun _ hu => hu⟩

/-- What the acting thread has found out. -/
theorem Waits.scanned_own (h : Waits s g) (hs : Step cfg s (.thread t) s')
    (hret : s'.retired = s.retired) : Scanned s' g t (s'.pc t) := by
  have hold := h.scanned t
  have keep : ∀ {p : Pc}, Scanned s g t p → Scanned s' g t p := by
    intro p hp
    refine hp.mono (fun res hr => ?_) fun _ _ w' hw' => ⟨w', hw', fun _ hu => hu⟩
    rwa [hret] at hr
  have goes : ∀ {p : Pc}, s'.pc t = p → Scanned s g t p → Scanned s' g t (s'.pc t) := by
    intro p hp hsc
    rw [hp]
    exact keep hsc
  cases hs with
  | load _ i m hpc =>
    rw [hpc] at hold
    refine goes (update_self ..) fun res hr w hw u hu hwu => ?_
    rcases Nat.lt_succ_iff_lt_or_eq.mp hu with hlt | heq
    · have hle := hold res hr w hw u hlt hwu
      split_ifs with hlt
      · exact hlt.le.trans hle
      · exact hle
    · -- this thread has kept its reservation since the retirement
      obtain rfl : u = i := Fin.ext heq
      obtain ⟨w₀, hw₀, hle₀⟩ := h.waits t res hr
      obtain rfl := Option.some.inj (hw.symm.trans hw₀)
      have hle := (hle₀ u hwu).2
      split_ifs with hlt
      · exact hle
      · exact (not_lt.mp hlt).trans hle
  | loaded _ m hpc =>
    rw [hpc] at hold
    exact goes (update_self ..) hold
  | scanKeep _ pos m res hpc ho hkeep =>
    rw [hpc] at hold
    exact goes (update_self ..) hold
  | scanFree _ pos m res hpc ho hfree =>
    rw [hpc] at hold
    exact goes (update_self ..) hold
  | retireEmpty _ o hpc ho hfreq =>
    exact goes (update_self ..) fun res _ w _ u hu => absurd hu (Nat.not_lt_zero _)
  | alloc _ hpc hmod | access _ l hpc hop | endOp _ hpc hop | retire _ o hpc ho hfreq =>
    exact goes hpc trivial
  | allocBump _ hpc hmod | bumpEpoch _ hpc | startOp _ hpc hop | reserve _ e hpc
  | scanEnd _ pos m hpc ho => exact goes (update_self ..) trivial

omit [DecidableEq Loc] in
/-- **An object is freed** and leaves its list; the others are other objects. -/
theorem Waits.free (h : Waits s g) {pos : ℕ} {res : RCUInfo Obj} (hpc : s.pc t = .scan pos m)
    (hinv : Inv ((s.passToPool t pos res.obj).goto t (.scan pos m))) :
    Waits ((s.passToPool t pos res.obj).goto t (.scan pos m)) (g.free res.obj) := by
  have hsub : ∀ {q} {r : RCUInfo Obj},
      r ∈ update s.retired t ((s.retired t).eraseIdx pos) q → r ∈ s.retired q := by
    intro q r hr
    by_cases hq : q = t
    · subst hq
      rw [update_self] at hr
      exact List.mem_of_mem_eraseIdx hr
    · rwa [update_of_ne hq] at hr
  have hwaits : ∀ {q} {r : RCUInfo Obj},
      r ∈ update s.retired t ((s.retired t).eraseIdx pos) q →
        (g.free res.obj).waits r.obj = g.waits r.obj := by
    intro q r hr
    refine update_of_ne ?_ ..
    intro heq
    have hlife : update s.life res.obj .pooled r.obj = .retired := hinv.stamps.life_eq hr
    rw [heq, update_self] at hlife
    cases hlife
  refine ⟨hinv, h.running, fun q r hr => ?_, fun q => ?_⟩
  · rw [hwaits hr]
    exact h.waits q r (hsub hr)
  · have hscanned : Scanned ((s.passToPool t pos res.obj).goto t (.scan pos m)) (g.free res.obj) q
        (s.pc q) :=
      (h.scanned q).mono (fun r hr => hsub hr) fun r hr w' hw' =>
        ⟨w', (hwaits hr).symm.trans hw', fun _ hu => hu⟩
    by_cases hq : q = t
    · subst hq
      rw [State.goto_pc]
      rwa [hpc] at hscanned
    · show Scanned _ _ q (update s.pc t (.scan pos m) q)
      rwa [update_of_ne hq]

/-- **RCU with reservations waits for operations.** Every step of the reclaimer is, with the label
that a data structure sees, a step of the one that frees an object only when every operation has
ended that was running at its retirement. -/
theorem ibrRcu_waits :
    (reclaimer n Obj Loc cfg).Refines (Grace.system (Fin n) Obj) Waits where
  init s hs := by
    obtain rfl : s = State.initial n Obj Loc := hs
    refine ⟨_, rfl, Inv.initial, rfl, fun t res hr => ?_, fun t => trivial⟩
    exact absurd hr List.not_mem_nil
  step s l s' g h hs := by
    have hs : Call cfg s l s' := hs
    have hinv : Inv s' := by
      obtain ⟨a, ha⟩ := hs.step
      exact h.inv.step ha
    cases hs with
    | reserve t e hpc =>
      -- the reservation is the beginning of an operation
      refine ⟨_, .startOp t, h.release hinv ?_ rfl
        (fun u hu => ⟨update_of_ne hu .., update_of_ne hu ..⟩) fun u => ?_⟩
      · rw [h.running]
      · by_cases hu : u = t
        · subst hu
          exact .inr (update_self ..)
        · exact .inl (update_of_ne hu ..)
    | endOp t hpc hop =>
      -- `endOp` ends it
      refine ⟨_, .endOp t, h.release hinv ?_ rfl
        (fun u hu => ⟨update_of_ne hu .., update_of_ne hu ..⟩) fun u => .inl rfl⟩
      rw [h.running]
    | retire t o hpc ho hfreq =>
      -- an object is retired, with or without a scan after it
      exact ⟨_, .retire t o, h.retire hinv ho rfl rfl rfl (fun u _ => rfl) (.inl hpc)⟩
    | retireEmpty t o hpc ho hfreq =>
      exact ⟨_, .retire t o, h.retire hinv ho rfl rfl rfl (fun u hu => update_of_ne hu ..)
        (.inr ⟨⊤, update_self ..⟩)⟩
    | free t pos m res hpc ho hfree =>
      -- an object is freed: its epoch is before every reservation that was loaded
      have hr : res ∈ s.retired t := List.mem_of_getElem? ho
      obtain ⟨w, hw, hle⟩ := h.waits t res hr
      have hspared := h.scanned t
      rw [hpc] at hspared
      have hfalse : ∀ u, w u = false := by
        intro u
        rw [← Bool.not_eq_true]
        exact fun hu => absurd hfree (not_lt.mpr (hspared res hr w hw u u.isLt hu))
      exact ⟨_, .free res.obj w hw hfalse, h.free hpc hinv⟩
    | own a s' hs hop hres hret =>
      -- what a thread does on its own is not seen
      refine ⟨g, .own, hinv, h.running.trans hop.symm, fun q res hr => ?_, fun q => ?_⟩
      · rw [hret] at hr
        rw [hop, hres]
        exact h.waits q res hr
      · by_cases ha : a = .thread q
        · subst ha
          exact h.scanned_own hs hret
        · rw [(hs.frame ha).2.1]
          refine (h.scanned q).mono (fun res hr => ?_) fun _ _ w' hw' => ⟨w', hw', fun _ hu => hu⟩
          rwa [hret] at hr

end

end IbrRcu
end PopSetbench

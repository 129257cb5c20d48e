import Mathlib.Algebra.GroupWithZero.Nat
import PopSetbench.Reclaim.HazardPtr

/-!
# Hazard pointers: what a scan finds

A scan reads the size of a list and then the entries below it by index. An entry that another
`unprotect` has moved to the front meanwhile is still found, because the array keeps the old copy,
unless a `protect` stores over it.

* `Kept` relates the array of a thread to what it has announced, at each point of the code.
* `Own` is what a scan knows: what has been announced since it began is found already or ahead.
* In the runs in which no store hides an announcement a scan finds what stays announced
  (`hazardPtr_complete`). In `hazardPtr_incomplete` a store hides one.
-/

namespace PopSetbench
namespace HazardPtr

open Function

variable {n : ℕ} {Obj : Type}

/-- What the array `A` of a thread at `p` has to do with what the thread has announced. -/
def Kept (A : ArrayList Obj) (M : Multiset Obj) : Pc Obj → Prop
  | .store _ sz => A.size = sz ∧ A.contents = M
  | .grow obj sz => A.size = sz ∧ A.data sz = obj ∧ A.contents = M
  | .move ix sz => A.size = sz ∧ ix < sz ∧ A.contents = A.data ix ::ₘ M
  | .shrink sz => A.size = sz ∧ 0 < sz ∧ (A.resize (sz - 1)).contents = M
  | _ => A.contents = M

/-- What is announced is in the list, also while another pointer is taken out. -/
theorem Kept.mem {A : ArrayList Obj} {M : Multiset Obj} {p : Pc Obj} (h : Kept A M p) {o : Obj}
    (ho : o ∈ M) : o ∈ A.contents := by
  cases p with
  | store obj sz => exact h.2 ▸ ho
  | grow obj sz => exact h.2.2 ▸ ho
  | move ix sz =>
    rw [h.2.2]
    exact Multiset.mem_cons_of_mem ho
  | shrink sz =>
    obtain ⟨hsize, hpos, hcont⟩ := h
    rw [ArrayList.contents_resize_pred (hsize.trans (Nat.sub_add_cancel hpos).symm), hcont]
    exact Multiset.mem_cons_of_mem ho
  | _ => exact h ▸ ho

variable [DecidableEq Obj] {s s' : State n Obj} {since : Since n Obj} {a t u : Fin n} {o : Obj}

/-! ### What a step does -/

/-- A step of another thread leaves what belongs to a thread as it is. -/
structure Frame (s s' : State n Obj) (t : Fin n) : Prop where
  announce : s'.announce t = s.announce t
  comparing : s'.comparing t = s.comparing t
  pc : s'.pc t = s.pc t
  announced : s'.announced t = s.announced t

theorem Step.frame (hstep : Step s a s') (ht : t ≠ a) : Frame s s' t := by
  cases hstep <;>
    exact ⟨by simp [State.goto, State.setAnnounce, State.setAnnounced, State.setRetired,
        State.setComparing, ht],
      by simp [State.goto, State.setAnnounce, State.setAnnounced, State.setRetired,
        State.setComparing, ht],
      by simp [State.goto, State.setAnnounce, State.setAnnounced, State.setRetired,
        State.setComparing, ht],
      by simp [State.goto, State.setAnnounce, State.setAnnounced, State.setRetired,
        State.setComparing, ht]⟩

/-- **One step.** The array of a thread goes on holding what it has announced. -/
theorem Kept.step (h : Kept (s.announce a) (s.announced a) (s.pc a)) (hstep : Step s a s') :
    Kept (s'.announce a) (s'.announced a) (s'.pc a) := by
  cases hstep with
  | protect obj hpc hassert =>
    -- what lies above the size is not announced yet
    rw [hpc] at h
    simp only [State.goto, update_self]
    exact ⟨rfl, h⟩
  | store obj sz hpc =>
    rw [hpc] at h
    obtain ⟨hsize, hcont⟩ := h
    simp only [State.goto, State.setAnnounce, update_self]
    exact ⟨hsize, ArrayList.store_data_self, (ArrayList.contents_store hsize.le).trans hcont⟩
  | grow obj sz hpc =>
    -- the size goes up, and with it the object is announced
    rw [hpc] at h
    obtain ⟨rfl, hobj, hcont⟩ := h
    simp only [State.goto, State.setAnnounce, State.setAnnounced, update_self]
    show ((s.announce a).resize _).contents = _
    rw [ArrayList.contents_resize_succ, hobj, hcont]
  | unprotect obj ix hpc hix hobj hfirst =>
    -- the object is announced no more, but its place is still occupied
    have hcont : (s.announce a).contents = s.announced a := by
      rcases hpc with hpc | hpc <;> rw [hpc] at h <;> exact h
    have hmem : obj ∈ s.announced a := by
      rw [← hcont]
      exact ArrayList.mem_contents.mpr ⟨ix, hix, hobj⟩
    simp only [State.goto, State.setAnnounced, update_self]
    refine ⟨rfl, hix, ?_⟩
    rw [hobj, Multiset.cons_erase hmem]
    exact hcont
  | unprotectMiss obj hpc hmiss =>
    have hcont : (s.announce a).contents = s.announced a := by
      rcases hpc with hpc | hpc <;> rw [hpc] at h <;> exact h
    simp only [State.goto, update_self]
    exact hcont
  | move ix sz hpc hne =>
    -- the last object is moved into the gap
    rw [hpc] at h
    obtain ⟨hsize, hix, hcont⟩ := h
    have hpos : 0 < sz := (Nat.zero_le ix).trans_lt hix
    simp only [State.goto, State.setAnnounce, update_self]
    refine ⟨hsize, hpos, ?_⟩
    have hmove := ArrayList.contents_move (hsize.trans (Nat.sub_add_cancel hpos).symm)
      (Nat.le_sub_one_of_lt hix)
    exact (Multiset.cons_inj_right _).mp (hmove.symm.trans hcont)
  | moveLast ix sz hpc heq =>
    -- the last object itself is taken away
    rw [hpc] at h
    obtain ⟨hsize, hix, hcont⟩ := h
    have hpos : 0 < sz := (Nat.zero_le ix).trans_lt hix
    simp only [State.goto, update_self]
    refine ⟨hsize, hpos, ?_⟩
    have hlast := ArrayList.contents_resize_pred (hsize.trans (Nat.sub_add_cancel hpos).symm)
    rw [heq] at hcont
    exact (Multiset.cons_inj_right _).mp (hlast.symm.trans hcont)
  | shrink sz hpc =>
    -- the size goes down, and the array shows what is announced again
    rw [hpc] at h
    simp only [State.goto, State.setAnnounce, update_self]
    exact h.2.2
  | endOp hpc =>
    simp only [State.setAnnounce, State.setAnnounced, update_self, hpc]
    exact ArrayList.contents_resize_zero
  | retire p hpc hfull => exact h
  | callbackTrue _ hpc | retireFull p hpc hfull | scanSize v hpc
  | scanGet v ixHP sz hpc hlt | scanNext v ixHP sz hpc hge | scanEnd hpc
  | keep ix hpc hix hmem | retireEnd ix hpc hix =>
    rw [hpc] at h
    simp only [State.goto, update_self]
    exact h
  | free ix hpc hix hmem => exact h

/-- **Interference.** A step that meets the condition leaves what a scan has still to find where
the scan will come across it. -/
theorem Step.ahead (hstep : Step s a s') (hkeeps : Keeps s a) {pos sz : ℕ}
    (hpc : s.pc t = .scanGet a.val pos sz) (ho : o ∈ s.announced a) (hnew : o ∉ s.comparing t)
    (h : (s.announce a).Ahead pos sz o) : (s'.announce a).Ahead pos sz o := by
  cases hstep with
  | store obj sz' hpc' =>
    have hstores : Stores s a sz' := by simp [Stores, hpc']
    simp only [State.goto, State.setAnnounce, update_self]
    refine h.store fun hpos hlt hdata => ?_
    subst hdata
    exact hkeeps sz' hstores t pos sz hpc hpos hlt ho hnew
  | move ix sz' hpc' hne =>
    have hstores : Stores s a ix := by simp [Stores, hpc', hne]
    simp only [State.goto, State.setAnnounce, update_self]
    refine h.store fun hpos hlt hdata => ?_
    subst hdata
    exact hkeeps ix hstores t pos sz hpc hpos hlt ho hnew
  | grow obj sz' hpc' | shrink sz' hpc' | endOp hpc' =>
    -- only the size changes
    simp only [State.goto, State.setAnnounce, State.setAnnounced, update_self]
    exact ArrayList.ahead_resize.mpr h
  | _ => exact h

/-! ### What a scan knows -/

/-- Of the pointers announced since its scan began, a thread has found those of the threads it has
dealt with, and those of the thread it is dealing with are found or ahead. -/
def Own (s : State n Obj) (since : Since n Obj) (t : Fin n) : Pc Obj → Prop
  | .scanSize w => ∀ u : Fin n, u.val < w → ∀ o, since t u o → o ∈ s.comparing t
  | .scanGet w pos sz =>
    (∀ u : Fin n, u.val < w → ∀ o, since t u o → o ∈ s.comparing t) ∧
      ∀ u : Fin n, u.val = w → ∀ o, since t u o →
        o ∈ s.comparing t ∨ (s.announce u).Ahead pos sz o
  | .decide _ => ∀ u o, since t u o → o ∈ s.comparing t
  | _ => True

/-- **The invariant.** -/
structure Inv (s : State n Obj) (since : Since n Obj) : Prop where
  kept : ∀ u, Kept (s.announce u) (s.announced u) (s.pc u)
  /-- What has been announced since some moment is announced. -/
  announced : ∀ t u o, since t u o → o ∈ s.announced u
  own : ∀ t, Own s since t (s.pc t)

omit [DecidableEq Obj] in
/-- Only what begins a scan adds to what has been announced since. -/
theorem noteSince_of_not_begins (h : noteSince s a s' since t u o) (hb : ¬ Begins s a s' t) :
    since t u o :=
  h.1.resolve_left fun hbegin => hb hbegin.1

/-- **Interference freedom.** What a scan knows survives a step of another thread. -/
theorem Own.frame (hI : Inv s since) (hstep : Step s a s') (hkeeps : Keeps s a) (ht : t ≠ a) :
    Own s' (noteSince s a s' since) t (s.pc t) := by
  have hf := hstep.frame ht
  have hold : ∀ {u o}, noteSince s a s' since t u o → since t u o := fun h =>
    noteSince_of_not_begins h fun hb => ht hb.1.symm
  have h := hI.own t
  generalize hp : s.pc t = p at h
  cases p with
  | scanSize w =>
    intro u hu o ho
    rw [hf.comparing]
    exact h u hu o (hold ho)
  | scanGet w pos sz =>
    refine ⟨fun u hu o ho => ?_, fun u hu o ho => ?_⟩
    · rw [hf.comparing]
      exact h.1 u hu o (hold ho)
    · rw [hf.comparing]
      by_cases hnew : o ∈ s.comparing t
      · exact .inl hnew
      · have hahead := (h.2 u hu o (hold ho)).resolve_left hnew
        refine .inr ?_
        by_cases hua : u = a
        · subst hua hu
          exact hstep.ahead hkeeps hp (hI.announced t _ o (hold ho)) hnew hahead
        · rw [(hstep.frame hua).announce]
          exact hahead
  | decide ix =>
    intro u o ho
    rw [hf.comparing]
    exact h u o (hold ho)
  | _ => trivial

/-- **One step.** What a scan knows after a step of its own. -/
theorem Own.step (hI : Inv s since) (hstep : Step s t s') :
    Own s' (noteSince s t s' since) t (s'.pc t) := by
  have hold : ∀ {u o}, s.pc t ≠ .idle → noteSince s t s' since t u o → since t u o := fun hne h =>
    noteSince_of_not_begins h fun hb => hne hb.2.1
  have moved : ∀ {p}, s'.pc t = p → Own s' (noteSince s t s' since) t p →
      Own s' (noteSince s t s' since) t (s'.pc t) := by
    intro p hp hh
    rwa [hp]
  have h := hI.own t
  cases hstep with
  | retireFull p hpc hfull =>
    -- the set is empty, and nothing has been read
    refine moved (update_self ..) ?_
    exact fun u hu => absurd hu (Nat.not_lt_zero _)
  | scanSize v hpc =>
    have hold := @hold
    rw [hpc] at h hold
    refine moved (update_self ..) ⟨fun u hu o ho => h u hu o (hold nofun ho), ?_⟩
    -- the list holds everything that is announced
    intro u hu o ho
    obtain rfl := Fin.ext hu
    exact .inr (.of_mem ((hI.kept u).mem (hI.announced t u o (hold nofun ho))))
  | scanGet v ixHP sz hpc hlt =>
    -- one more announcement is in the set
    have hold := @hold
    rw [hpc] at h hold
    refine moved (update_self ..) ⟨fun u hu o ho => ?_, fun u hu o ho => ?_⟩
    · simp only [State.goto, State.setComparing, update_self]
      exact Finset.mem_insert_of_mem (h.1 u hu o (hold nofun ho))
    · obtain rfl := Fin.ext hu
      simp only [State.goto, State.setComparing, update_self]
      rcases h.2 u rfl o (hold nofun ho) with hfound | hahead
      · exact .inl (Finset.mem_insert_of_mem hfound)
      · rcases hahead.next with rfl | hnext
        · exact .inl (Finset.mem_insert_self ..)
        · exact .inr hnext
  | scanNext v ixHP sz hpc hge =>
    -- the thread is finished, and the next one begins
    have hold := @hold
    rw [hpc] at h hold
    refine moved (update_self ..) fun u hu o ho => ?_
    rcases Nat.lt_succ_iff_lt_or_eq.mp hu with hlt | heq
    · exact h.1 u hlt o (hold nofun ho)
    · exact (h.2 u heq o (hold nofun ho)).resolve_right (ArrayList.not_ahead hge)
  | scanEnd hpc =>
    have hold := @hold
    rw [hpc] at h hold
    exact moved (update_self ..) fun u o ho => h u u.isLt o (hold nofun ho)
  | keep ix hpc hix hmem =>
    -- the scan only reads the set, which does not shrink
    have hold := @hold
    rw [hpc] at h hold
    exact moved (update_self ..) fun u o ho => h u o (hold nofun ho)
  | free ix hpc hix hmem =>
    have hold := @hold
    rw [hpc] at h hold
    exact moved hpc fun u o ho => h u o (hold nofun ho)
  | retire p hpc hfull | endOp hpc => exact moved hpc trivial
  | _ => exact moved (update_self ..) trivial

/-- **Invariant preservation.** -/
theorem Inv.step (hI : Inv s since) (hstep : Step s a s') (hkeeps : Keeps s a) :
    Inv s' (noteSince s a s' since) where
  kept u := by
    by_cases hu : u = a
    · subst hu
      exact (hI.kept u).step hstep
    · have hf := hstep.frame hu
      rw [hf.announce, hf.announced, hf.pc]
      exact hI.kept u
  announced _ _ _ ho := ho.2
  own t := by
    by_cases ht : t = a
    · subst ht
      exact Own.step hI hstep
    · rw [(hstep.frame ht).pc]
      exact Own.frame hI hstep hkeeps ht

omit [DecidableEq Obj] in
theorem Inv.initial (data data' : Fin n → ℕ → Obj) :
    Inv (State.initial data data') fun _ _ _ => False :=
  ⟨fun _ => rfl, fun _ _ _ h => h.elim, fun _ => trivial⟩

/-- **Completeness of the scan.** In every run in which no store hides an announcement from a scan,
a pointer that a thread had announced when the scan began, and has had announced ever since, is in
the set when `retire` decides about the retired objects. -/
theorem hazardPtr_complete (h : (watched (n := n)).ReachableBy (fun x u => Keeps x.1 u) (s, since))
    {ix : ℕ} (hpc : s.pc t = .decide ix) (ho : since t u o) : o ∈ s.comparing t := by
  have hI : Inv s since := by
    refine h.invariant (P := fun x => Inv x.1 x.2) ?_ ?_
    · rintro ⟨s, since⟩ ⟨⟨data, data', rfl⟩, rfl⟩
      exact Inv.initial data data'
    · intro x a y _ hI hok hstep
      rw [hstep.2]
      exact hI.step hstep.1 hok
  have hown := hI.own t
  rw [hpc] at hown
  exact hown u o ho

/-! ### Two schedules -/

section Schedule

local instance neZero_two_threads : NeZero 2 := ⟨by decide⟩

variable {ok : State 2 ℕ × Since 2 ℕ → Fin 2 → Prop} {x x' : State 2 ℕ} {b : Fin 2}

/-- Thread `1` has announced the pointers 500 and 7, thread `0` has retired the objects below `k`. -/
def announcing (k : ℕ) : State 2 ℕ where
  announce := update (fun _ => ⟨0, fun _ => 0⟩) 1 ⟨2, update (update (fun _ => 0) 0 500) 1 7⟩
  retired := update (fun _ => ⟨0, id⟩) 0 ⟨k, id⟩
  comparing _ := ∅
  pc _ := .idle
  announced := update (fun _ => 0) 1 (7 ::ₘ 500 ::ₘ 0)

/-- The scan of thread `0` has read the first of the two pointers. -/
def scanning : State 2 ℕ :=
  { announcing (scanThreshold 2) with
    comparing := update (fun _ => ∅) 0 {500}
    pc := update (fun _ => .idle) 0 (.scanGet 1 1 2) }

/-- A step of a thread that stores no entry. -/
theorem Keeps.of_not_stores (h : ∀ j, ¬ Stores x b j) : Keeps x b :=
  fun j hj => absurd hj (h j)

/-- A step while nobody scans. -/
theorem Keeps.of_not_scanning (h : ∀ t w pos sz, x.pc t ≠ .scanGet w pos sz) : Keeps x b :=
  fun _ _ t pos sz hpc => absurd hpc (h t _ pos sz)

/-- Some run that ends in `x` has had the pointer 7 of thread `1` announced since the last scan of
thread `0` began. -/
def Reaches (ok : State 2 ℕ × Since 2 ℕ → Fin 2 → Prop) (x : State 2 ℕ) : Prop :=
  ∃ since, watched.ReachableBy ok (x, since) ∧ since 0 1 7

theorem Reaches.step (h : Reaches ok x) (hstep : Step x b x') (hok : ∀ since, ok (x, since) b)
    (hmem : 7 ∈ x'.announced 1) : Reaches ok x' := by
  obtain ⟨since, hR, hsince⟩ := h
  exact ⟨_, hR.step_observed hstep (hok since), .inr hsince, hmem⟩

section Pieces

variable (hok : ∀ x b since, Keeps x b → ok (x, since) b)

include hok

/-- Thread `1` announces its pointers, then thread `0` retires objects. -/
theorem reach_announcing :
    ∀ k < scanThreshold 2, ∃ since, watched.ReachableBy ok (announcing k, since)
  | 0, _ => by
    let x₀ : State 2 ℕ := State.initial (fun _ _ => 0) fun _ => id
    have hR : watched.ReachableBy ok (x₀, fun _ _ _ => False) := .init ⟨⟨_, _, rfl⟩, rfl⟩
    have hR := hR.step_observed (.protect _ 1 500 rfl (by decide)) (hok _ _ _ (.of_not_stores nofun))
    have hR := hR.step_observed (.store _ 1 500 0 rfl)
      (hok _ _ _ (.of_not_scanning fun | 0 => nofun | 1 => nofun))
    have hR := hR.step_observed (.grow _ 1 500 0 rfl) (hok _ _ _ (.of_not_stores nofun))
    have hR := hR.step_observed (.callbackTrue _ 1 500 rfl) (hok _ _ _ (.of_not_stores nofun))
    have hR := hR.step_observed (.protect _ 1 7 rfl (by decide)) (hok _ _ _ (.of_not_stores nofun))
    have hR := hR.step_observed (.store _ 1 7 1 rfl)
      (hok _ _ _ (.of_not_scanning fun | 0 => nofun | 1 => nofun))
    have hR := hR.step_observed (.grow _ 1 7 1 rfl) (hok _ _ _ (.of_not_stores nofun))
    have hR := hR.step_observed (.callbackTrue _ 1 7 rfl) (hok _ _ _ (.of_not_stores nofun))
    refine ⟨_, Eq.subst (motive := fun x => watched.ReachableBy ok (x, _)) ?_ hR⟩
    ext1 <;> funext u <;> match u with
      | 0 => rfl
      | 1 => rfl
  | k + 1, hk => by
    obtain ⟨since, hR⟩ := reach_announcing k (Nat.lt_of_succ_lt hk)
    have hR := hR.step_observed (.retire _ 0 k rfl hk) (hok _ _ _ (.of_not_stores nofun))
    have hpushed : pushed ⟨k, id⟩ k = ⟨k + 1, id⟩ := by
      ext1
      · rfl
      · exact update_eq_self ..
    refine ⟨_, Eq.subst (motive := fun x => watched.ReachableBy ok (x, _)) ?_ hR⟩
    ext1
    · rfl
    · funext u
      match u with
      | 0 => exact hpushed
      | 1 => rfl
    · rfl
    · rfl
    · rfl

theorem reach_scanning : Reaches ok scanning := by
  obtain ⟨since, hR⟩ := reach_announcing hok 159 (by decide)
  have hR := hR.step_observed (.retireFull _ 0 159 rfl rfl) (hok _ _ _ (.of_not_stores nofun))
  have hR : Reaches ok _ := ⟨_, hR, .inl ⟨⟨rfl, rfl, rfl⟩, by decide⟩, by decide⟩
  -- its own list is empty
  have hR := hR.step (.scanSize _ 0 0 rfl) (fun _ => hok _ _ _ (.of_not_stores nofun))
    (by decide)
  have hR := hR.step (.scanNext _ 0 0 0 0 rfl le_rfl) (fun _ => hok _ _ _ (.of_not_stores nofun))
    (by decide)
  have hR := hR.step (.scanSize _ 0 1 rfl) (fun _ => hok _ _ _ (.of_not_stores nofun))
    (by decide)
  have hR := hR.step (.scanGet _ 0 1 0 2 rfl (by decide))
    (fun _ => hok _ _ _ (.of_not_stores nofun)) (by decide)
  refine Eq.subst (motive := Reaches ok) ?_ hR
  ext1
  · rfl
  · funext u
    match u with
    | 0 =>
      ext1
      · rfl
      · exact update_eq_self ..
    | 1 => rfl
  all_goals funext u; match u with
    | 0 => rfl
    | 1 => rfl

end Pieces

/-- While the scan is at the second entry, thread `1` withdraws the pointer 500, so that 7 moves to
the first entry, and announces 501 behind it: the scan finds 500 and 501. -/
theorem hazardPtr_incomplete :
    ¬ ∀ (s : State 2 ℕ) since, watched.Reachable (s, since) → ∀ t ix, s.pc t = .decide ix →
      ∀ u o, since t u o → o ∈ s.comparing t := by
  intro hall
  have hR : Reaches (fun _ _ => True) scanning := reach_scanning fun _ _ _ _ => trivial
  have hR := hR.step (.unprotect _ 1 500 0 (.inl rfl) (by decide) rfl nofun) (fun _ => trivial)
    (by decide)
  have hR := hR.step (.move _ 1 0 2 rfl (by decide)) (fun _ => trivial) (by decide)
  have hR := hR.step (.shrink _ 1 2 rfl) (fun _ => trivial) (by decide)
  have hR := hR.step (.protect _ 1 501 rfl (by decide)) (fun _ => trivial) (by decide)
  have hR := hR.step (.store _ 1 501 1 rfl) (fun _ => trivial) (by decide)
  have hR := hR.step (.grow _ 1 501 1 rfl) (fun _ => trivial) (by decide)
  -- thread `0` goes on
  have hR := hR.step (.scanGet _ 0 1 1 2 rfl (by decide)) (fun _ => trivial) (by decide)
  have hR := hR.step (.scanNext _ 0 1 2 2 rfl le_rfl) (fun _ => trivial) (by decide)
  have hR := hR.step (.scanEnd _ 0 rfl) (fun _ => trivial) (by decide)
  obtain ⟨since, hR, hsince⟩ := hR
  exact absurd (hall _ since hR 0 0 rfl 1 7 hsince) (by decide)

/-- While the same scan is at the second entry, thread `1` withdraws the pointer 500, so that 7 is
stored over the first entry, which the scan has read, and announces nothing behind it. -/
theorem hazardPtr_complete_moved :
    ∃ s : State 2 ℕ, s.pc 0 = .decide 0 ∧ (s.announce 1).contents = {7} ∧ 7 ∈ s.comparing 0 := by
  have hR : Reaches (fun x u => Keeps x.1 u) scanning := reach_scanning fun _ _ _ h => h
  have hR := hR.step (.unprotect _ 1 500 0 (.inl rfl) (by decide) rfl nofun)
    (fun _ => .of_not_stores nofun) (by decide)
  have hR := hR.step (.move _ 1 0 2 rfl (by decide))
    (fun _ => by
      -- the entry is one that the scan has read
      rintro j ⟨rfl, -⟩ t pos sz hpc hpos
      match t with
      | 0 =>
        obtain ⟨-, rfl, -⟩ := Pc.scanGet.inj hpc
        exact absurd hpos (by decide)
      | 1 => cases hpc)
    (by decide)
  have hR := hR.step (.shrink _ 1 2 rfl) (fun _ => .of_not_stores nofun) (by decide)
  -- thread `0` goes on
  have hR := hR.step (.scanGet _ 0 1 1 2 rfl (by decide)) (fun _ => .of_not_stores nofun)
    (by decide)
  have hR := hR.step (.scanNext _ 0 1 2 2 rfl le_rfl) (fun _ => .of_not_stores nofun) (by decide)
  have hR := hR.step (.scanEnd _ 0 rfl) (fun _ => .of_not_stores nofun) (by decide)
  obtain ⟨since, hR, hsince⟩ := hR
  exact ⟨_, rfl, rfl, hazardPtr_complete hR rfl hsince⟩

end Schedule

end HazardPtr
end PopSetbench

import PopSetbench.Reclaim.HazardEraPopBase
import PopSetbench.Reclaim.HazardEraPopSchedule

/-!
# HazardEraPOP: when freeing is safe

`hazardEraPop_safe`: in every run whose steps all meet `Meets`, no object that `empty` passes to
the pool is covered by a thread that has read it. The condition excludes the two ways in which
`empty` can run too early:

* the confirmation loop finds that somebody has not published;
* past the low watermark, `publishing_epoch` has changed but no whole signalling round lies in
  between, or not every ping has been handled. One change of this counter can be the end of a
  round that had begun before.

The proof is an outline of the code, as for HazardPtrPOP: `Own cond s t p` is what thread `t`
knows at point `p`, where `cond` says whether the run meets the condition.
-/

namespace PopSetbench
namespace HazardEraPop

open Function

variable {n : ℕ} {Obj Loc : Type}

/-! ### The assertions -/

/-- Every object in the list was retired before `mypublishingTS` of `u` was sampled. -/
def Sampled (s : State n Obj Loc) (t u : Fin n) : Prop :=
  ∀ res ∈ s.retired t, s.retireAt res.obj u ≤ s.scannedPubs t u

/-- Thread `u` has published since `t` sampled its `mypublishingTS`. -/
def Moved (s : State n Obj Loc) (t u : Fin n) : Prop :=
  s.scannedPubs t u < s.pubs u

/-- What `t` may conclude from the rounds of thread `i` since it saved `publishing_epoch`. -/
def Watches (s : State n Obj Loc) (t i : Fin n) : Prop :=
  Observed (s.hs.ServedBy true (s.savedPubs t) i) i (s.savedAnn t i) (s.ann i) (stageOf (s.pc i))

/-- The size saved when the low watermark is entered. -/
structure Entered (s : State n Obj Loc) (t : Fin n) : Prop where
  size_pos : 0 < s.retireBagSizeWhenEnteredLoWm t
  size_le : s.retireBagSizeWhenEnteredLoWm t ≤ (s.retired t).length

/-- Past the low watermark: the objects saved on entry were retired before
`publishing_epoch` was saved. -/
structure LoWm (s : State n Obj Loc) (t : Fin n) : Prop extends Entered s t where
  old : ∀ res ∈ (s.retired t).take (s.retireBagSizeWhenEnteredLoWm t), ∀ u,
    s.retireAt res.obj u ≤ s.savedPubs t u
  watches : ∀ i, Watches s t i

/-- The objects that `empty` may still free, with the iterator at `pos` after `m` objects. -/
def batch (s : State n Obj Loc) (t : Fin n) (pos m : ℕ) : Path → List (HeInfo Obj)
  | .hiWm => s.retired t
  | .loWm => (s.retired t).take (pos + (s.retireBagSizeWhenEnteredLoWm t - m))

/-- Every entry under which an object of `l` was seen is published. -/
def Visible (s : State n Obj Loc) (l : List (HeInfo Obj)) : Prop :=
  ∀ res ∈ l, ∀ u, s.hz.Shows u res.obj

/-- Of the first `m` copied entries, those under which an object of `l` was seen are the
private ones. -/
def Copied (s : State n Obj Loc) (t : Fin n) (l : List (HeInfo Obj)) (m : ℕ) : Prop :=
  ∀ u (e : Fin numPophe), u.val * numPophe + e.val < m → ∀ res ∈ l, s.hz.Holds u e res.obj →
    s.scannedHEs t u e = s.localReservedEpoch u e

/-- The low-watermark metadata while `empty` runs. -/
def Mode (s : State n Obj Loc) (t : Fin n) : Path → Prop
  | .hiWm => s.firstLoEntryFlag t = true
  | .loWm => s.firstLoEntryFlag t = false ∧ 0 < s.retireBagSizeWhenEnteredLoWm t

/-- What thread `t` knows at each point of the code. What it knows about the publications of
others is asserted if the run meets the condition. -/
def Own (cond : Prop) (s : State n Obj Loc) (t : Fin n) : Pc Obj Loc → Prop
  | .sample i => s.firstLoEntryFlag t = true ∧ ∀ u, u.val < i → Sampled s t u
  | .publish _ => s.firstLoEntryFlag t = true ∧ ∀ u, Sampled s t u
  | .ping _ => s.firstLoEntryFlag t = true ∧ (∀ u, Sampled s t u) ∧ Moved s t t
  | .saveOwn => s.firstLoEntryFlag t = true ∧ (∀ u, Sampled s t u) ∧ Moved s t t
  | .confirm i => s.firstLoEntryFlag t = true ∧ (∀ u, Sampled s t u) ∧ Moved s t t ∧
      (cond → ∀ u, u.val < i → Moved s t u)
  | .saveEpoch => s.firstLoEntryFlag t = false ∧ Entered s t
  | .check => s.firstLoEntryFlag t = false ∧ LoWm s t
  | .snapshot p m => Mode s t p ∧
      (cond → Visible s (batch s t 0 0 p) ∧ Copied s t (batch s t 0 0 p) m)
  | .scan p pos m => Mode s t p ∧
      (cond → Visible s (batch s t pos m p) ∧ Copied s t (batch s t pos m p) (n * numPophe))
  | _ => s.firstLoEntryFlag t = false → LoWm s t

section Conditions

variable {s : State n Obj Loc} {t : Fin n}

private theorem Own.at {cond : Prop} {p : Pc Obj Loc} (hp : s.pc t = p) (h : Own cond s t p) :
    Own cond s t (s.pc t) :=
  hp ▸ h

theorem batch_subset (s : State n Obj Loc) (t : Fin n) (pos m : ℕ) (p : Path) :
    ∀ res ∈ batch s t pos m p, res ∈ s.retired t := by
  cases p with
  | hiWm => exact fun _ => id
  | loWm => exact fun _ => List.mem_of_mem_take

theorem Base.life_eq (hB : Base s) {res : HeInfo Obj} (h : res ∈ s.retired t) :
    s.life res.obj = .retired :=
  hB.custody.prop t res.obj (List.mem_map_of_mem h)

/-- A counter that differs from its sample shows a publication. -/
private theorem moved_of_ne (hB : Base s) {i : Fin n}
    (hne : s.myscannedTS t i ≠ s.mypublishingTS i) : Moved s t i := by
  refine lt_of_le_of_ne (hB.scannedPubs_le t i) fun heq => hne ?_
  rw [hB.myscannedTS, hB.mypublishingTS, heq]

/-- A whole round lies after the saving of `publishing_epoch`, and all pings were handled: the
objects saved on entry are visible. -/
private theorem LoWm.visible (hB : Base s) (hlo : LoWm s t) (hr : s.Runs t) {i : Fin n}
    (hround : evenUp (s.savedAnn t i) + 2 ≤ s.ann i)
    (hquiet : ∀ u, u ≠ t → s.pinged u = false ∧ s.handler u = none) :
    Visible s (batch s t 0 0 .loWm) := by
  intro res hres u
  have hmem := batch_subset s t 0 0 .loWm res hres
  simp only [batch, Nat.zero_add, Nat.sub_zero] at hres
  have hu : s.pinged u = false ∧ s.handler u = none := by
    by_cases hut : u = t
    · exact hut ▸ hr
    · exact hquiet u hut
  rcases (hlo.watches i).served hround u with ⟨hself, -⟩ | hpub | hping | hhand
  · cases hself
  · exact hB.hazard.shows (hB.life_eq hmem) (lt_of_le_of_lt (hlo.old res hres u) hpub)
  · change s.pinged u = true at hping
    rw [hu.1] at hping
    cases hping
  · change (s.handler u).isSome = true at hhand
    rw [hu.2] at hhand
    cases hhand

/-- While the loop of `empty` at the low watermark goes on, some of the saved objects are
left. -/
private theorem Mode.lt_size {pos m : ℕ} (h : Mode s t .loWm) (hgo : ¬ s.scanStops t pos m) :
    m < s.retireBagSizeWhenEnteredLoWm t := by
  have hpos := h.2
  have hnot : ¬ s.retireBagSizeWhenEnteredLoWm t - 1 < m := fun hlt => hgo (.inr ⟨h.1, hlt⟩)
  omega

private theorem batch_keep {p : Path} {pos m : ℕ} (hmode : Mode s t p)
    (hgo : ¬ s.scanStops t pos m) : batch s t (pos + 1) (m + 1) p = batch s t pos m p := by
  cases p with
  | hiWm => rfl
  | loWm =>
    have hlt := hmode.lt_size hgo
    simp only [batch]
    congr 1
    omega

private theorem batch_free [DecidableEq Obj] {p : Path} {pos m : ℕ} {o : Obj}
    (hmode : Mode s t p) (hgo : ¬ s.scanStops t pos m) :
    ∀ res ∈ batch (s.passToPool t pos o) t pos (m + 1) p, res ∈ batch s t pos m p := by
  intro res hres
  cases p with
  | hiWm =>
    simp only [batch, State.passToPool, update_self] at hres
    exact List.mem_of_mem_eraseIdx hres
  | loWm =>
    have hlt := hmode.lt_size hgo
    simp only [batch, State.passToPool, update_self] at hres ⊢
    have hmem := List.mem_take_of_mem_take_eraseIdx hres
    rwa [show s.retireBagSizeWhenEnteredLoWm t - (m + 1) + 1 =
      s.retireBagSizeWhenEnteredLoWm t - m by omega] at hmem

/-- The object the iterator is at is one of those that may be freed. -/
private theorem mem_batch {p : Path} {pos m : ℕ} {res : HeInfo Obj} (hmode : Mode s t p)
    (hgo : ¬ s.scanStops t pos m) (hget : (s.retired t)[pos]? = some res) :
    res ∈ batch s t pos m p := by
  cases p with
  | hiWm => exact List.mem_of_getElem? hget
  | loWm =>
    have hlt := hmode.lt_size hgo
    obtain ⟨hpos, hget'⟩ := List.getElem?_eq_some_iff.mp hget
    refine List.mem_take_iff_getElem.mpr ⟨pos, ?_, hget'⟩
    omega

/-- One more entry of `reservations` is copied. -/
private theorem Copied.succ {l : List (HeInfo Obj)} {u : Fin n} {e : Fin numPophe}
    (hvis : Visible s l) (h : Copied s t l (u.val * numPophe + e.val)) :
    Copied (s.copyEntry t u e) t l (u.val * numPophe + e.val + 1) := by
  intro u' e' hm res hres hh
  change s.hz.Holds u' e' res.obj at hh
  simp only [State.copyEntry, update_self]
  rcases row_lt hm with hlt | ⟨rfl, rfl⟩
  · have hold := h u' e' hlt res hres hh
    by_cases hu : u' = u
    · subst hu
      have he : e' ≠ e := by
        rintro rfl
        exact absurd hlt (Nat.lt_irrefl _)
      rwa [update_self, update_of_ne he]
    · rwa [update_of_ne hu]
  · rw [update_self, update_self]
    exact hvis res hres u' e' hh

end Conditions

/-! ### No other step invalidates an assertion -/

/-- What the assertions of `t` speak about is unchanged. -/
structure Frame (s s' : State n Obj Loc) (t : Fin n) : Prop where
  retired : s'.retired t = s.retired t
  firstLoEntryFlag : s'.firstLoEntryFlag t = s.firstLoEntryFlag t
  size : s'.retireBagSizeWhenEnteredLoWm t = s.retireBagSizeWhenEnteredLoWm t
  scannedPubs : s'.scannedPubs t = s.scannedPubs t
  savedPubs : s'.savedPubs t = s.savedPubs t
  savedAnn : s'.savedAnn t = s.savedAnn t
  scannedHEs : s'.scannedHEs t = s.scannedHEs t

variable [DecidableEq Obj] [DecidableEq Loc] {cfg : Config} {cond : Prop}

/-- A step of somebody else. -/
theorem Step.frame {s s' : State n Obj Loc} {a : Actor n} {t : Fin n} (hstep : Step cfg s a s')
    (ha : a ≠ .thread t) : Frame s s' t ∧ s'.pc t = s.pc t := by
  cases hstep with
  | write | link | unlink | alloc | handlerEnter | handlerPublish | handlerReturn =>
    exact ⟨⟨rfl, rfl, rfl, rfl, rfl, rfl, rfl⟩, rfl⟩
  | _ =>
    have ht : t ≠ _ := fun h => ha (congrArg Actor.thread h.symm)
    refine ⟨⟨?_, ?_, ?_, ?_, ?_, ?_, ?_⟩, ?_⟩ <;>
      first | rfl | exact update_of_ne ht _ _

section Frame

variable {s s' : State n Obj Loc} {a : Actor n} {t : Fin n}

/-- The retirement of an object that waits in a list is over. -/
theorem Step.retireAt_eq (hB : Base s) (hstep : Step cfg s a s') {res : HeInfo Obj}
    (h : res ∈ s.retired t) : s'.retireAt res.obj = s.retireAt res.obj := by
  rcases hstep.hazard with heq | hz
  · exact congrArg (fun h : Hazard n numPophe ℕ Obj => h.retireAt res.obj) heq
  · exact hz.retireAt_eq (hB.life_eq h)

/-- An object that waits in a list was seen before, under the entry as it is. -/
theorem Step.held_before (hB : Base s) (hstep : Step cfg s a s') {u : Fin n} {e : Fin numPophe}
    {res : HeInfo Obj} (h : res ∈ s.retired t) (hh : s'.hz.Holds u e res.obj) :
    s.hz.Holds u e res.obj ∧ s'.localReservedEpoch u e = s.localReservedEpoch u e := by
  rcases hstep.hazard with heq | hz
  · rw [heq] at hh
    exact ⟨hh, congrArg (fun h : Hazard n numPophe ℕ Obj => h.table.loc u e) heq⟩
  · exact ⟨hz.held_before (hB.life_eq h) hh, hz.loc_eq (hB.life_eq h) hh⟩

/-- What is known about a thread's rounds is kept by every step. -/
theorem Watches.step {i : Fin n} (hB : Base s) (hstep : Step cfg s a s')
    (hpubs : s'.savedPubs t = s.savedPubs t) (hann : s'.savedAnn t i = s.savedAnn t i)
    (h : Watches s t i) : Watches s' t i := by
  unfold Watches
  rw [hpubs, hann]
  show Observed (s'.hz.table.ServedBy true (s.savedPubs t) i) i _ (s'.hz.table.ann i)
    (s'.hz.table.stage i)
  rcases hstep.hazard with heq | hz
  · rw [heq]
    exact h
  · rcases hz.handshake with heq | hh
    · rw [heq]
      exact h
    · exact Handshake.observed_step hB.hazard.table (hB.savedPubs_le t) hh h

theorem Sampled.frame (hB : Base s) (hstep : Step cfg s a s') (hf : Frame s s' t) {u : Fin n}
    (h : Sampled s t u) : Sampled s' t u := by
  intro res hres
  rw [hf.retired] at hres
  rw [hf.scannedPubs, hstep.retireAt_eq hB hres]
  exact h res hres

theorem Moved.frame (hstep : Step cfg s a s') (hf : Frame s s' t) {u : Fin n}
    (h : Moved s t u) : Moved s' t u := by
  unfold Moved
  rw [hf.scannedPubs]
  exact lt_of_lt_of_le h (hstep.pubs_le u)

omit [DecidableEq Obj] [DecidableEq Loc] in
theorem Entered.frame (hf : Frame s s' t) (h : Entered s t) : Entered s' t where
  size_pos := by
    rw [hf.size]
    exact h.size_pos
  size_le := by
    rw [hf.size, hf.retired]
    exact h.size_le

theorem LoWm.frame (hB : Base s) (hstep : Step cfg s a s') (hf : Frame s s' t)
    (h : LoWm s t) : LoWm s' t where
  toEntered := h.toEntered.frame hf
  old := by
    rw [hf.size, hf.retired, hf.savedPubs]
    intro res hres u
    rw [hstep.retireAt_eq hB (List.mem_of_mem_take hres)]
    exact h.old res hres u
  watches i := (h.watches i).step hB hstep hf.savedPubs (congrFun hf.savedAnn i)

theorem Visible.step {l l' : List (HeInfo Obj)} (hB : Base s) (hstep : Step cfg s a s')
    (hret : ∀ res ∈ l, res ∈ s.retired t) (hsub : ∀ res ∈ l', res ∈ l) (h : Visible s l) :
    Visible s' l' := by
  intro res hres u
  have hmem := hsub res hres
  rcases hstep.hazard with heq | hz
  · rw [heq]
    exact h res hmem u
  · exact hz.shows (hB.life_eq (hret res hmem)) (h res hmem u)

theorem Copied.step {l l' : List (HeInfo Obj)} {m : ℕ} (hB : Base s) (hstep : Step cfg s a s')
    (hscan : s'.scannedHEs t = s.scannedHEs t) (hret : ∀ res ∈ l, res ∈ s.retired t)
    (hsub : ∀ res ∈ l', res ∈ l) (h : Copied s t l m) : Copied s' t l' m := by
  intro u e hm res hres hh
  obtain ⟨hold, hloc⟩ := hstep.held_before hB (hret res (hsub res hres)) hh
  rw [hscan, hloc]
  exact h u e hm res (hsub res hres) hold

omit [DecidableEq Obj] [DecidableEq Loc] in
theorem Frame.batch (hf : Frame s s' t) (pos m : ℕ) (p : Path) :
    batch s' t pos m p = batch s t pos m p := by
  cases p with
  | hiWm => exact hf.retired
  | loWm => simp only [HazardEraPop.batch, hf.retired, hf.size]

omit [DecidableEq Obj] [DecidableEq Loc] in
theorem Mode.frame (hf : Frame s s' t) {p : Path} (h : Mode s t p) : Mode s' t p := by
  cases p with
  | hiWm => exact hf.firstLoEntryFlag.trans h
  | loWm => exact ⟨hf.firstLoEntryFlag.trans h.1, hf.size ▸ h.2⟩

/-- **Interference freedom.** A step that leaves the data of `t` alone keeps what `t`
knows. -/
theorem Own.frame (hB : Base s) (hstep : Step cfg s a s') (hf : Frame s s' t) {p : Pc Obj Loc}
    (h : Own cond s t p) : Own cond s' t p := by
  have hflag := hf.firstLoEntryFlag
  have idle : (s.firstLoEntryFlag t = false → LoWm s t) →
      s'.firstLoEntryFlag t = false → LoWm s' t := fun hlo hfl =>
    (hlo (hflag.symm.trans hfl)).frame hB hstep hf
  have scan : ∀ {p : Path} {pos m m' : ℕ},
      (cond → Visible s (batch s t pos m p) ∧ Copied s t (batch s t pos m p) m') →
      cond → Visible s' (batch s' t pos m p) ∧ Copied s' t (batch s' t pos m p) m' := by
    intro p pos m m' hv hc
    obtain ⟨hvis, hcop⟩ := hv hc
    rw [hf.batch]
    exact ⟨hvis.step hB hstep (batch_subset s t pos m p) fun _ => id,
      hcop.step hB hstep hf.scannedHEs (batch_subset s t pos m p) fun _ => id⟩
  cases p with
  | idle => exact idle h
  | bumpEpoch => exact idle h
  | readLoad idx l prev => exact idle h
  | readEpoch idx l prev ptr => exact idle h
  | readStore idx l curr => exact idle h
  | endOp i => exact idle h
  | sample i => exact ⟨hflag.trans h.1, fun u hu => (h.2 u hu).frame hB hstep hf⟩
  | publish j => exact ⟨hflag.trans h.1, fun u => (h.2 u).frame hB hstep hf⟩
  | ping i =>
    obtain ⟨hfl, hsam, hself⟩ := h
    exact ⟨hflag.trans hfl, fun u => (hsam u).frame hB hstep hf, hself.frame hstep hf⟩
  | saveOwn =>
    obtain ⟨hfl, hsam, hself⟩ := h
    exact ⟨hflag.trans hfl, fun u => (hsam u).frame hB hstep hf, hself.frame hstep hf⟩
  | confirm i =>
    obtain ⟨hfl, hsam, hself, hmoved⟩ := h
    exact ⟨hflag.trans hfl, fun u => (hsam u).frame hB hstep hf, hself.frame hstep hf,
      fun hc u hu => (hmoved hc u hu).frame hstep hf⟩
  | saveEpoch => exact ⟨hflag.trans h.1, h.2.frame hf⟩
  | check => exact ⟨hflag.trans h.1, h.2.frame hB hstep hf⟩
  | snapshot p m => exact ⟨h.1.frame hf, scan h.2⟩
  | scan p pos m => exact ⟨h.1.frame hf, scan h.2⟩

end Frame

/-! ### The thread's own steps -/

/-- The condition on a step under which `empty` is safe. -/
structure Meets (s : State n Obj Loc) (a : Actor n) : Prop where
  /-- Every comparison of the confirmation loop finds that the counter of the other thread has
  moved. -/
  confirms : ∀ t i : Fin n, a = .thread t → s.pc t = .confirm i.val → i ≠ t →
    s.myscannedTS t i ≠ s.mypublishingTS i
  /-- Whenever the low watermark finds that `publishing_epoch` has changed, some thread has
  begun and ended a signalling round since it was saved, and no other thread has a ping to
  handle or is in its handler. -/
  signalled : ∀ t : Fin n, a = .thread t → s.pc t = .check →
    s.savedPublishingEpoch t ≠ s.publishingEpoch →
      (∃ i, evenUp (s.savedAnn t i) + 2 ≤ s.ann i) ∧
        ∀ u, u ≠ t → s.pinged u = false ∧ s.handler u = none

section Own

variable {s s' : State n Obj Loc} {t : Fin n}

/-- An object is pushed: those saved on entry are still the first ones. -/
private theorem LoWm.push (hB : Base s) (hstep : Step cfg s (.thread t) s') {res : HeInfo Obj}
    (hretired : s'.retired t = s.retired t ++ [res])
    (hsize : s'.retireBagSizeWhenEnteredLoWm t = s.retireBagSizeWhenEnteredLoWm t)
    (hpubs : s'.savedPubs t = s.savedPubs t) (hann : s'.savedAnn t = s.savedAnn t)
    (h : LoWm s t) : LoWm s' t where
  size_pos := hsize ▸ h.size_pos
  size_le := by
    rw [hsize, hretired, List.length_append]
    exact Nat.le_add_right_of_le h.size_le
  old := by
    rw [hsize, hretired, List.take_append_of_le_length h.size_le]
    intro b hb u
    rw [hpubs, hstep.retireAt_eq hB (List.mem_of_mem_take hb)]
    exact h.old b hb u
  watches i := (h.watches i).step hB hstep hpubs (congrFun hann i)

/-- **The outline.** Every own step of thread `t` leads from what it knows to what it knows
next. -/
theorem Own.step (hB : Base s) (hok : cond → Meets s (.thread t))
    (hstep : Step cfg s (.thread t) s') (h : Own cond s t (s.pc t)) :
    Own cond s' t (s'.pc t) := by
  have hst := hstep
  cases hstep with
  | alloc _ hr hpc hmod => exact h.frame hB hst ⟨rfl, rfl, rfl, rfl, rfl, rfl, rfl⟩
  | allocBump _ hr hpc hmod =>
    rw [hpc] at h
    exact .at (update_self ..) (h.frame hB hst ⟨rfl, rfl, rfl, rfl, rfl, rfl, rfl⟩)
  | bumpEpoch _ hr hpc =>
    rw [hpc] at h
    exact .at (update_self ..) (h.frame hB hst ⟨rfl, rfl, rfl, rfl, rfl, rfl, rfl⟩)
  | callRead _ idx l hr hpc =>
    rw [hpc] at h
    exact .at (update_self ..) (h.frame hB hst ⟨rfl, rfl, rfl, rfl, rfl, rfl, rfl⟩)
  | readLoad _ idx l prev hr hpc =>
    rw [hpc] at h
    exact .at (update_self ..) (h.frame hB hst ⟨rfl, rfl, rfl, rfl, rfl, rfl, rfl⟩)
  | readReturn _ idx l prev ptr hr hpc hcurr =>
    rw [hpc] at h
    exact .at (update_self ..) (h.frame hB hst ⟨rfl, rfl, rfl, rfl, rfl, rfl, rfl⟩)
  | readMove _ idx l prev ptr hr hpc hcurr =>
    rw [hpc] at h
    exact .at (update_self ..) (h.frame hB hst ⟨rfl, rfl, rfl, rfl, rfl, rfl, rfl⟩)
  | readStore _ idx l curr hr hpc =>
    rw [hpc] at h
    exact .at (update_self ..) (h.frame hB hst ⟨rfl, rfl, rfl, rfl, rfl, rfl, rfl⟩)
  | callEndOp _ hr hpc =>
    rw [hpc] at h
    exact .at (update_self ..) (h.frame hB hst ⟨rfl, rfl, rfl, rfl, rfl, rfl, rfl⟩)
  | endOp _ e hr hpc =>
    rw [hpc] at h
    exact .at (update_self ..) (h.frame hB hst ⟨rfl, rfl, rfl, rfl, rfl, rfl, rfl⟩)
  | endOpReturn _ hr hpc =>
    rw [hpc] at h
    exact .at (update_self ..) (h.frame hB hst ⟨rfl, rfl, rfl, rfl, rfl, rfl, rfl⟩)
  | retireHiWm _ o hr hpc ho hout =>
    -- the thread is out of patience: its whole list is the batch
    exact .at (update_self ..) ⟨update_self .., fun u hu => absurd hu (Nat.not_lt_zero _)⟩
  | retireEnterLoWm _ o rand hr hpc ho hout hpast hfirst =>
    -- it enters the low watermark, with nothing saved yet
    refine .at (update_self ..) ⟨update_self .., ?_, ?_⟩
    · simp
    · simp [State.goto, State.pushBack]
  | retireLoWm _ o hr hpc ho hout hpast hfirst =>
    rw [hpc] at h
    exact .at (update_self ..) ⟨hfirst, (h hfirst).push hB hst (update_self ..) rfl rfl rfl⟩
  | retireOnly _ o hr hpc ho hout hpast =>
    rw [hpc] at h
    exact .at (update_self ..) fun hfl => (h hfl).push hB hst (update_self ..) rfl rfl rfl
  | sample _ i hr hpc =>
    -- one more counter is sampled, before the signals
    rw [hpc] at h
    refine .at (update_self ..) ⟨h.1, fun u hu res hres => ?_⟩
    simp only [State.goto, update_self]
    by_cases hui : u = i
    · subst hui
      rw [update_self]
      exact hB.hazard.retireAt_le res.obj u (hB.life_eq hres)
    · rw [update_of_ne hui]
      have hne : u.val ≠ i.val := fun hv => hui (Fin.ext hv)
      exact h.2 u (by omega) res hres
  | sampleEnd _ hr hpc =>
    rw [hpc] at h
    exact .at (update_self ..) ⟨h.1, fun u => h.2 u u.isLt⟩
  | publish _ e hr hpc =>
    -- the thread publishes its own entries
    rw [hpc] at h
    exact .at (update_self ..) (h.frame hB hst ⟨rfl, rfl, rfl, rfl, rfl, rfl, rfl⟩)
  | publishEnd _ hr hpc =>
    rw [hpc] at h
    refine .at (update_self ..) ⟨h.1, h.2, ?_⟩
    show s.scannedPubs t t < update s.pubs t (s.pubs t + 1) t
    rw [update_self]
    exact Nat.lt_succ_of_le (hB.scannedPubs_le t t)
  | ping _ i hr hpc hi =>
    -- one more thread is pinged
    rw [hpc] at h
    exact .at (update_self ..) (h.frame hB hst ⟨rfl, rfl, rfl, rfl, rfl, rfl, rfl⟩)
  | pingSelf _ hr hpc =>
    rw [hpc] at h
    exact .at (update_self ..) (h.frame hB hst ⟨rfl, rfl, rfl, rfl, rfl, rfl, rfl⟩)
  | pingEnd _ hr hpc =>
    rw [hpc] at h
    exact .at (update_self ..) (h.frame hB hst ⟨rfl, rfl, rfl, rfl, rfl, rfl, rfl⟩)
  | saveOwn _ hr hpc =>
    rw [hpc] at h
    exact .at (update_self ..) ⟨h.1, h.2.1, h.2.2, fun _ u hu => absurd hu (Nat.not_lt_zero _)⟩
  | confirm _ i hr hpc =>
    -- the counter has moved, so the thread has published since the sample
    rw [hpc] at h
    obtain ⟨hfl, hsam, hself, hmoved⟩ := h
    refine .at (update_self ..) ⟨hfl, hsam, hself, fun hc u hu => ?_⟩
    rcases Nat.lt_succ_iff_lt_or_eq.mp hu with hlt | heq
    · exact hmoved hc u hlt
    · obtain rfl : u = i := Fin.ext heq
      by_cases hut : u = t
      · exact hut ▸ hself
      · exact moved_of_ne hB ((hok hc).confirms t u rfl hpc hut)
  | confirmEnd _ hr hpc =>
    -- everybody has published since the objects were retired
    rw [hpc] at h
    obtain ⟨hfl, hsam, hself, hmoved⟩ := h
    refine .at (update_self ..) ⟨hfl, fun hc => ⟨fun res hres u => ?_, ?_⟩⟩
    · have hlt : s.retireAt res.obj u < s.pubs u :=
        lt_of_le_of_lt (hsam u res hres) (hmoved hc u u.isLt)
      exact hB.hazard.shows (hB.life_eq hres) hlt
    · exact fun u e hm => absurd hm (Nat.not_lt_zero _)
  | saveEpoch _ hr hpc =>
    rw [hpc] at h
    refine .at (update_self ..) ⟨h.1, ⟨h.2.size_pos, h.2.size_le⟩, ?_, fun i => ?_⟩
    · -- everything in the list was retired before this moment
      intro res hres u
      simp only [State.goto, update_self]
      exact hB.hazard.retireAt_le res.obj u (hB.life_eq (List.mem_of_mem_take hres))
    · have hst' : stageOf (update s.pc t .check i) = stageOf (s.pc i) := by
        by_cases hit : i = t
        · rw [hit, update_self, hpc]
          rfl
        · rw [update_of_ne hit]
      simp only [Watches, State.goto, update_self, hst']
      exact .now ..
  | checkHit _ hr hpc hne =>
    have hlo : s.firstLoEntryFlag t = false ∧ LoWm s t := by
      rw [hpc] at h
      exact h
    refine .at (update_self ..) ⟨⟨hlo.1, hlo.2.size_pos⟩, fun hc => ?_⟩
    obtain ⟨⟨i, hround⟩, hquiet⟩ := (hok hc).signalled t rfl hpc hne
    have hvis := hlo.2.visible hB hr hround hquiet
    exact ⟨hvis, fun u e hm => absurd hm (Nat.not_lt_zero _)⟩
  | checkMiss _ hr hpc heq =>
    rw [hpc] at h
    have hlo := h.2.frame hB hst ⟨rfl, rfl, rfl, rfl, rfl, rfl, rfl⟩
    exact .at (update_self ..) fun _ => hlo
  | snapshot _ u e p hr hpc =>
    rw [hpc] at h
    refine .at (update_self ..) ⟨h.1, fun hc => ?_⟩
    obtain ⟨hvis, hcop⟩ := h.2 hc
    exact ⟨hvis, hcop.succ hvis⟩
  | snapshotEnd _ p hr hpc =>
    rw [hpc] at h
    exact .at (update_self ..) (h.frame hB hst ⟨rfl, rfl, rfl, rfl, rfl, rfl, rfl⟩)
  | scanKeep _ p pos m res hr hpc hgo ho hkeep =>
    rw [hpc] at h
    refine .at (update_self ..) ⟨h.1, fun hc => ?_⟩
    have hbatch : batch (s.goto t (.scan p (pos + 1) (m + 1))) t (pos + 1) (m + 1) p =
      batch s t pos m p := batch_keep h.1 hgo
    rw [hbatch]
    exact h.2 hc
  | scanFree _ p pos m res hr hpc hgo ho hfree =>
    rw [hpc] at h
    refine .at (update_self ..) ⟨h.1, fun hc => ?_⟩
    obtain ⟨hvis, hcop⟩ := h.2 hc
    have hsub := batch_free (o := res.obj) h.1 hgo
    exact ⟨hvis.step hB hst (batch_subset s t pos m p) hsub,
      hcop.step hB hst rfl (batch_subset s t pos m p) hsub⟩
  | scanEndHiWm _ pos m hr hpc hstop =>
    rw [hpc] at h
    refine .at (update_self ..) fun hfl => ?_
    have htrue : s.firstLoEntryFlag t = true := h.1
    exact absurd (htrue.symm.trans hfl) (by simp)
  | scanEndLoWm _ pos m hr hpc hstop =>
    refine .at (update_self ..) fun hfl => ?_
    have htrue : update s.firstLoEntryFlag t true t = true := update_self ..
    exact absurd (htrue.symm.trans hfl) (by simp)

end Own

/-! ### The invariant of the runs -/

/-- What holds in every state of a run; `cond` says whether its steps meet the condition. -/
structure Inv (cond : Prop) (s : State n Obj Loc) : Prop where
  base : Base s
  own : ∀ t, Own cond s t (s.pc t)

omit [DecidableEq Obj] [DecidableEq Loc] in
theorem Inv.initial : Inv cond (State.initial n Obj Loc) :=
  ⟨Base.initial, fun _ => nofun⟩

theorem Inv.step {s s' : State n Obj Loc} {a : Actor n} (hI : Inv cond s)
    (hok : cond → Meets s a) (hstep : Step cfg s a s') : Inv cond s' where
  base := hI.base.step hstep
  own t := by
    by_cases ha : a = .thread t
    · subst ha
      exact (hI.own t).step hI.base hok hstep
    · obtain ⟨hf, hpc⟩ := hstep.frame ha
      rw [hpc]
      exact (hI.own t).frame hI.base hstep hf

/-- In every run whose steps meet the condition. -/
theorem Inv.reachedBy {s : State n Obj Loc} (h : (system cfg).ReachableBy Meets s) :
    Inv True s := by
  refine h.invariant ?_ fun _ _ _ _ hI hok hstep => hI.step (fun _ => hok) hstep
  rintro _ rfl
  exact Inv.initial

/-! ### Safety -/

section Safety

omit [DecidableEq Obj] [DecidableEq Loc]

/-- The next step of thread `t` passes the object of `res` to the pool, in a call of `empty` on
`path`. -/
def PassesToPool (s : State n Obj Loc) (t : Fin n) (path : Path) (res : HeInfo Obj) : Prop :=
  ∃ pos m, s.pc t = .scan path pos m ∧ ¬ s.scanStops t pos m ∧ (s.retired t)[pos]? = some res ∧
    s.isFreeable t res

/-- Thread `u` obtained the object of `res` with `read`, using entry `e`, while the object was
reachable, and the entry, not written since, is in its lifetime. -/
def Covers (s : State n Obj Loc) (u : Fin n) (e : Fin numPophe) (res : HeInfo Obj) : Prop :=
  s.held u e res.obj = true ∧ res.birthEpoch ≤ s.localReservedEpoch u e ∧
    s.localReservedEpoch u e ≤ res.retireEpoch

/-- Nobody covers what is passed to the pool. -/
def Safe (s : State n Obj Loc) : Prop :=
  ∀ t path res, PassesToPool s t path res → ∀ u e, ¬ Covers s u e res

end Safety

/-- **Both watermarks.** In every run that meets the condition, nobody covers what `empty`
passes to the pool. -/
theorem hazardEraPop_safe {s : State n Obj Loc} (h : (system cfg).ReachableBy Meets s) :
    Safe s := by
  have hI := Inv.reachedBy h
  rintro t path res ⟨pos, m, hpc, hgo, hget, hfree⟩ u e ⟨hheld, hbirth, hretire⟩
  obtain ⟨hseen, hne⟩ := hI.base.held u e res.obj hheld
  have hown := hI.own t
  rw [hpc] at hown
  -- the copied entry is the private one, so it is in the lifetime
  have hcop := (hown.2 trivial).2 u e (row_lt_end u e) res (mem_batch hown.1 hgo hget) hseen
  have hentry := hfree u e
  rw [hcop] at hentry
  rcases hentry with hlt | hlt | hzero
  · exact absurd hbirth (Nat.not_le_of_gt hlt)
  · exact absurd hretire (Nat.not_le_of_gt hlt)
  · exact hne hzero

section Schedule

variable {ok : State 2 ℕ Unit → Actor 2 → Prop} (hok : ∀ s a, Plain s a → ok s a)

include hok

/-- Thread `0` retires object `0` and others until it is out of patience, and signals. -/
private theorem reach_forced {s : State 2 ℕ Unit} (hR : (system cfg).ReachableBy ok s)
    (hq : Quiet s) (ho : s.life 0 = .unlinked) (hfresh : ∀ o, 1 ≤ o → s.life o = .pooled)
    (hempty : s.retired 0 = []) (hloc : ∀ e, s.localReservedEpoch 0 e = 0)
    (hcap : 2 ≤ cfg.bagCapacityThreshold) :
    ∃ s' : State 2 ℕ Unit, (system cfg).ReachableBy ok (s'.goto 0 (.confirm 0)) ∧
      (s'.retired 0)[0]? = some ⟨0, s.birthEpoch 0, s.epoch⟩ ∧
      s'.localReservedEpoch = s.localReservedEpoch ∧ s'.held = s.held ∧
      (∀ u e, s'.reservations u e = 0) ∧ (∀ u e, s'.scannedHEs 0 u e = 0) ∧
      s'.firstLoEntryFlag 0 = true ∧ s'.Runs 0 ∧ s'.pinged 1 = true ∧ s'.handler 1 = none ∧
      s'.myscannedTS 0 1 = s'.mypublishingTS 1 := by
  -- the first object is the one that thread `1` may hold
  obtain ⟨s₁, hR₁, hq₁, h₁⟩ := hq.retire (t := 0) hok hR ho (by simp [hempty]; omega)
  have hret₁ : s₁.retired 0 = [⟨0, s.birthEpoch 0, s.epoch⟩] := by
    rw [h₁.retired, hempty]
    rfl
  have hfresh₁ : ∀ o, 1 ≤ o → s₁.life o = .pooled := by
    intro o hle
    rw [h₁.life, if_neg (by simp; omega)]
    exact hfresh o hle
  -- the others fill the list
  obtain ⟨s₂, x, hR₂, hq₂, h₂, hx⟩ := hq₁.retires (t := 0) hok hR₁ hfresh₁
    (cfg.bagCapacityThreshold - 2) (by rw [hret₁, List.length_singleton]; omega)
  have hlen₂ : (s₂.retired 0).length = cfg.bagCapacityThreshold - 1 := by
    have hxlen : x.length = cfg.bagCapacityThreshold - 2 := by
      simpa using congrArg List.length hx
    rw [h₂.retired, hret₁, List.length_append, List.length_singleton, hxlen]
    omega
  have hlast : s₂.life cfg.bagCapacityThreshold = .pooled := by
    rw [h₂.life, hx, if_neg (by simp; omega)]
    exact hfresh₁ _ (by omega)
  -- the last one makes the thread run out of patience
  have hR₃ := reach_unlinked hok hR₂ hlast
  have hout : s₂.isOutOfPatience cfg 0 ((s₂.retired 0).length + 1) = true := by
    simp [State.isOutOfPatience, hq₂.retiresSinceHiWm, hlen₂]
    omega
  have hR₄ := reach_plain hok hR₃ (.retireHiWm (s₂.unlinked cfg.bagCapacityThreshold) 0
    cfg.bagCapacityThreshold (hq₂.runs 0) (hq₂.pc 0) (update_self ..) hout) (hq₂.pc 0) rfl
  have hl₂ : s₂.localReservedEpoch = s.localReservedEpoch :=
    h₂.localReservedEpoch.trans h₁.localReservedEpoch
  obtain ⟨s₃, hR₅, h₃⟩ := reach_signalled hok hR₄ (hq₂.runs 0) (hq₂.reservations 0) fun e => by
    show s₂.localReservedEpoch 0 e = 0
    rw [hl₂]
    exact hloc e
  refine ⟨s₃, hR₅, ?_, h₃.localReservedEpoch.trans hl₂,
    h₃.held.trans (h₂.held.trans h₁.held), ?_, ?_, ?_, ⟨h₃.pinged_self, ?_⟩,
    h₃.pinged 1 (by decide), ?_, ?_⟩
  · rw [h₃.retired]
    simp [State.resetLoWmMetaData, State.pushBack, State.unlinked, h₂.retired, hret₁]
  · rw [h₃.reservations]
    exact hq₂.reservations
  · rw [h₃.scannedHEs]
    exact hq₂.scannedHEs 0
  · rw [h₃.firstLoEntryFlag]
    rfl
  · exact (congrFun h₃.handler 0).trans (hq₂.runs 0).2
  · exact (congrFun h₃.handler 1).trans (hq₂.runs 1).2
  · rw [h₃.myscannedTS, h₃.mypublishingTS 1 (by decide)]

/-- `empty` finds all published entries zero and passes its first object to the pool. -/
private theorem reach_freed {s : State 2 ℕ Unit} {res : HeInfo ℕ}
    (hR : (system cfg).ReachableBy ok (s.goto 0 (.confirm 0))) (hr : s.Runs 0)
    (hconf : ∀ i : Fin 2, ok (s.goto 0 (.confirm i.val)) (.thread 0))
    (hs : ∀ u e, s.reservations u e = 0) (ht : ∀ u e, s.scannedHEs 0 u e = 0)
    (hflag : s.firstLoEntryFlag 0 = true) (hget : (s.retired 0)[0]? = some res) :
    (system cfg).ReachableBy ok (s.goto 0 (.scan .hiWm 0 0)) ∧
      PassesToPool (s.goto 0 (.scan .hiWm 0 0)) 0 .hiWm res := by
  refine ⟨reach_scanned hok hR hr hconf hs ht, 0, 0, State.goto_pc .., ?_, hget,
    fun u e => .inr (.inr (ht u e))⟩
  rintro (hlen | ⟨hfl, -⟩)
  · have hnone : (s.retired 0)[0]? = none := List.getElem?_eq_none hlen
    rw [hget] at hnone
    cases hnone
  · have hfl' : s.firstLoEntryFlag 0 = false := hfl
    rw [hflag] at hfl'
    cases hfl'

end Schedule

/-- Thread `1` has read object `0` in epoch 1; its handler has not run when the confirmation
loop of thread `0` is left. -/
theorem hazardEraPop_unsafe :
    ¬ ∀ s : State 2 ℕ Unit, (system Config.standard).Reachable s → Safe s := by
  intro hall
  have hok : ∀ (s : State 2 ℕ Unit) a, Plain s a → (fun _ _ => True : _ → _ → Prop) s a :=
    fun _ _ _ => trivial
  obtain ⟨s₀, hR₀, hq₀, ho, hfresh, hempty, hheld, hentry, hbirth, hepoch, hother⟩ :=
    reach_read hok Config.standard 1
  obtain ⟨s₁, hR₁, hget, hloc₁, hheld₁, hs, ht, hflag, hr, -⟩ :=
    reach_forced hok hR₀ hq₀ ho hfresh (hempty 0) (hother 0 (by decide)) (by decide)
  obtain ⟨hR₂, hpass⟩ := reach_freed hok hR₁ hr (fun _ => trivial) hs ht hflag hget
  have hentry₁ : s₁.localReservedEpoch 1 0 = 1 := by rw [hloc₁, hentry]
  refine hall _ hR₂ 0 .hiWm _ hpass 1 0 ⟨?_, ?_, ?_⟩
  · show s₁.held 1 0 0 = true
    rw [hheld₁, hheld]
  · exact (hbirth.trans hentry₁.symm).le
  · exact (hentry₁.trans hepoch.symm).le

theorem Plain.meets {s : State n ℕ Unit} {a : Actor n} (h : Plain s a) : Meets s a where
  confirms t i ha hpc _ := absurd hpc ((h t ha).1 i)
  signalled t ha hpc hne := absurd ((h t ha).2 hpc) hne

/-- The same schedule, but thread `1` reads nothing and its handler runs in time: object `0` is
freed, and nobody covers it. -/
theorem hazardEraPop_safe_of_published :
    ∃ (s : State 2 ℕ Unit) (res : HeInfo ℕ), PassesToPool s 0 .hiWm res ∧ Safe s := by
  have hok : ∀ (s : State 2 ℕ Unit) a, Plain s a → Meets s a := fun _ _ => Plain.meets
  have hR₀ : (system Config.standard).ReachableBy Meets (State.initial 2 ℕ Unit) := .init rfl
  have hR₁ := reach_unlinked hok hR₀ (o := 0) rfl
  have hq : Quiet (State.initial 2 ℕ Unit) :=
    ⟨fun _ => rfl, fun _ => ⟨rfl, rfl⟩, fun _ => rfl, fun _ => rfl, fun _ _ => rfl,
      fun _ _ _ => rfl⟩
  obtain ⟨s₁, hR₂, hget, hloc, -, hs, ht, hflag, hr, hping, hhand, hsam⟩ :=
    reach_forced hok hR₁ (hq.unlinked 0) rfl (fun o ho => update_of_ne (by omega) ..) rfl
      (fun _ => rfl) (by decide)
  have hR₃ := reach_handled hok hR₂ (t := 1) hping hhand (hs 1) fun e => by
    show s₁.localReservedEpoch 1 e = 0
    rw [hloc]
    rfl
  -- the counter of thread `1` has moved
  have hconf : ∀ i : Fin 2, Meets ((s₁.handled 1).goto 0 (.confirm i.val)) (.thread 0) := by
    intro i
    refine ⟨?_, ?_⟩
    · intro t j ha hpc hne
      obtain rfl := Actor.thread.inj ha
      obtain rfl : (1 : Fin 2) = j := by omega
      simp [State.goto, State.handled, hsam]
    · intro t ha hpc
      obtain rfl := Actor.thread.inj ha
      rw [State.goto_pc] at hpc
      cases hpc
  obtain ⟨hR₄, hpass⟩ := reach_freed hok (s := s₁.handled 1) hR₃ hr hconf hs ht hflag hget
  exact ⟨_, _, hpass, hazardEraPop_safe hR₄⟩

end HazardEraPop
end PopSetbench

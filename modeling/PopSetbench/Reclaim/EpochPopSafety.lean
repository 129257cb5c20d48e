import PopSetbench.Reclaim.EpochPopBase
import PopSetbench.Reclaim.EpochPopSchedule

/-!
# EpochPOP: when freeing is safe

`rcu_empty` frees nothing that is held, in any run (`rcu_safe`). The two functions that scan
hazard pointers do not have this property in every run; `epochPop_safe` states it for the runs
whose steps all meet `Meets`:

* the confirmation loop always finds a moved counter;
* a thread that enters `hp_empty` shows its own `local_slots` in `slots`, although it has not
  published them in this round;
* the low watermark is taken only past a complete round whose pings have been handled, and
  whose signalling thread shows its own `local_slots`.

As for HazardPtrPOP, the proof is an outline of the code: `Own cond s t p` is what thread `t`
knows at point `p`, where `cond` says whether the run meets the condition.
-/

namespace PopSetbench
namespace EpochPop

open Function

variable {n : ℕ} {Obj Loc : Type}

/-! ### The assertions -/

/-- Every object in the list was retired before `mypublishingTS` of `u` was sampled. -/
def Sampled (s : State n Obj Loc) (t u : Fin n) : Prop :=
  ∀ res ∈ s.retired t, s.retireAt res.obj u ≤ s.scannedPubs t u

/-- Thread `u` has published since `t` sampled its `mypublishingTS`. -/
def Moved (s : State n Obj Loc) (t u : Fin n) : Prop :=
  s.scannedPubs t u < s.pubs u

/-- The objects of `l` were retired before `t` entered the low watermark. -/
def OldIn (s : State n Obj Loc) (t : Fin n) (l : List (RCUInfo Obj)) : Prop :=
  ∀ res ∈ l, ∀ u, s.retireAt res.obj u ≤ s.savedPubs t u

/-- What `t` may conclude from `announcedTS` of thread `i`. -/
def Watches (s : State n Obj Loc) (t i : Fin n) : Prop :=
  Observed (s.hs.ServedBy false (s.savedPubs t) i) i (s.savedAnn t i) (s.ann i)
    (stageOf n (s.pc i))

/-- Past the low watermark: the metadata saved on entry is in place. -/
structure LoWm (s : State n Obj Loc) (t : Fin n) : Prop where
  size_pos : 0 < s.retireBagSizeWhenEnteredLoWm t
  size_le : s.retireBagSizeWhenEnteredLoWm t ≤ (s.retired t).length
  old : OldIn s t ((s.retired t).take (s.retireBagSizeWhenEnteredLoWm t))
  watches : ∀ i, Watches s t i

/-- The reservations of the threads below `i` that hold an object of the list are at
least `m`. -/
def Reserved (s : State n Obj Loc) (t : Fin n) (i : ℕ) (m : WithTop ℕ) : Prop :=
  ∀ u : Fin n, u.val < i → ∀ res ∈ s.retired t, ∀ e, Holds s u e res.obj → m ≤ s.reservations u

/-- The objects that `hp_empty` or `hp_LoWmempty` may still free, with the iterator at `pos`
after `indx` objects. -/
def batch (s : State n Obj Loc) (t : Fin n) (pos indx : ℕ) : Path → List (RCUInfo Obj)
  | .loWm => (s.retired t).take (pos + (s.retireBagSizeWhenEnteredLoWm t - indx))
  | _ => s.retired t

/-- Every hold on an object of `l` is published. -/
def Visible (s : State n Obj Loc) (l : List (RCUInfo Obj)) : Prop :=
  ∀ res ∈ l, ∀ u, s.hz.Shows u res.obj

/-- The slots of `i` that name an object in the list of `t` are in `slots`. -/
def Published (s : State n Obj Loc) (t i : Fin n) : Prop :=
  ∀ res ∈ s.retired t, ∀ e, s.localSlots i e = some res.obj → s.slots i e = some res.obj

/-- The object at `pos` is not held in the first `j` slots. -/
def Clean (s : State n Obj Loc) (t : Fin n) (pos j : ℕ) : Prop :=
  ∀ res, (s.retired t)[pos]? = some res → ∀ u (e : Fin slotsPerThread),
    u.val * slotsPerThread + e.val < j → ¬ Holds s u e res.obj

/-- The low-watermark metadata while `hp_LoWmempty` runs. -/
def Mode (s : State n Obj Loc) (t : Fin n) : Path → Prop
  | .loWm => s.firstLoEntryFlag t = false ∧ 0 < s.retireBagSizeWhenEnteredLoWm t
  | _ => True

/-- What thread `t` knows at each point of the code. What it knows about the publications of
others is asserted if the run meets the condition. -/
def Own (cond : Prop) (s : State n Obj Loc) (t : Fin n) : Pc Obj Loc → Prop
  | .saveTS i => s.firstLoEntryFlag t = false ∧ OldIn s t (s.retired t) ∧ s.retired t ≠ [] ∧
      ∀ i', i'.val < i → Watches s t i'
  | .check _ => s.firstLoEntryFlag t = false ∧ LoWm s t
  | .minEpoch i m => Reserved s t i m
  | .rcuScan _ m => Reserved s t n m
  | .sample i => ∀ u, u.val < i → Sampled s t u
  | .announceStart => ∀ u, Sampled s t u
  | .ping _ => ∀ u, Sampled s t u
  | .confirm i => (∀ u, Sampled s t u) ∧ (cond → ∀ u, u.val < i → u ≠ t → Moved s t u)
  | .hpScan path pos indx j => Mode s t path ∧
      (cond → Visible s (batch s t pos indx path) ∧ Clean s t pos j)
  | _ => s.firstLoEntryFlag t = false → LoWm s t

section Conditions

variable {s : State n Obj Loc} {t : Fin n}

private theorem Own.at {cond : Prop} {p : Pc Obj Loc} (hp : s.pc t = p) (h : Own cond s t p) :
    Own cond s t (s.pc t) :=
  hp ▸ h

theorem batch_subset (s : State n Obj Loc) (t : Fin n) (pos indx : ℕ) (p : Path) :
    ∀ res ∈ batch s t pos indx p, res ∈ s.retired t := by
  cases p with
  | loWm => exact fun _ => List.mem_of_mem_take
  | rcu => exact fun _ => id
  | hp => exact fun _ => id

theorem Base.life_eq (hB : Base s) {res : RCUInfo Obj} (h : res ∈ s.retired t) :
    s.life res.obj = .retired :=
  hB.custody.prop t res.obj (List.mem_map_of_mem h)

/-- A counter that differs from its sample shows a publication. -/
private theorem moved_of_ne (hB : Base s) {i : Fin n}
    (hne : s.myscannedTS t i ≠ s.mypublishingTS i) : Moved s t i := by
  refine lt_of_le_of_ne (hB.scannedPubs_le t i) fun heq => hne ?_
  rw [hB.myscannedTS, hB.mypublishingTS, heq]

/-- The low watermark sees a complete round: everybody shows what it holds. -/
private theorem LoWm.visible (hB : Base s) (hlo : LoWm s t) (hr : s.Runs t) {i : Fin n}
    (hround : evenUp (s.savedTS t i).toNat + 2 ≤ (s.announcedTS i).toNat)
    (hquiet : ∀ u, u ≠ t → s.pinged u = false ∧ s.handler u = none)
    (hown : Published s t i) : Visible s (batch s t 0 0 .loWm) := by
  intro res hres u
  have hmem := batch_subset s t 0 0 .loWm res hres
  simp only [batch, Nat.zero_add, Nat.sub_zero] at hres
  have hround' : evenUp (s.savedAnn t i) + 2 ≤ s.ann i := by
    rw [hB.savedTS, hB.announcedTS] at hround
    exact evenUp_of_ofNat (hlo.watches i).le hround
  have hu : s.pinged u = false ∧ s.handler u = none := by
    by_cases hut : u = t
    · exact hut ▸ hr
    · exact hquiet u hut
  rcases (hlo.watches i).served hround' u with ⟨-, rfl⟩ | hpub | hping | hhand
  · -- the signalling thread has not published in its own round
    exact fun e hh => (hown res hmem e hh.1).trans hh.1.symm
  · exact hB.hazard.shows (hB.life_eq hmem) (lt_of_le_of_lt (hlo.old res hres u) hpub)
  · change s.pinged u = true at hping
    rw [hu.1] at hping
    cases hping
  · change (s.handler u).isSome = true at hhand
    rw [hu.2] at hhand
    cases hhand

/-- While the loop of `hp_LoWmempty` goes on, some of the saved objects are left. -/
private theorem Mode.lt_size {pos indx : ℕ} (h : Mode s t .loWm)
    (hgo : ¬ s.hpScanStops t .loWm pos indx) : indx < s.retireBagSizeWhenEnteredLoWm t := by
  have hpos := h.2
  have hnot : ¬ s.retireBagSizeWhenEnteredLoWm t - 1 < indx := fun hlt => hgo (.inr ⟨rfl, hlt⟩)
  omega

private theorem batch_keep {p : Path} {pos indx : ℕ} (hmode : Mode s t p)
    (hgo : ¬ s.hpScanStops t p pos indx) :
    batch s t (pos + 1) (indx + 1) p = batch s t pos indx p := by
  cases p with
  | loWm =>
    have hlt := hmode.lt_size hgo
    simp only [batch]
    congr 1
    omega
  | rcu => rfl
  | hp => rfl

private theorem batch_free [DecidableEq Obj] {p : Path} {pos indx : ℕ} {o : Obj}
    (hmode : Mode s t p) (hgo : ¬ s.hpScanStops t p pos indx) :
    ∀ res ∈ batch (s.passToPool t pos o) t pos (indx + 1) p, res ∈ batch s t pos indx p := by
  intro res hres
  cases p with
  | loWm =>
    have hlt := hmode.lt_size hgo
    simp only [batch, State.passToPool, update_self] at hres ⊢
    have hmem := List.mem_take_of_mem_take_eraseIdx hres
    rwa [show s.retireBagSizeWhenEnteredLoWm t - (indx + 1) + 1 =
      s.retireBagSizeWhenEnteredLoWm t - indx by omega] at hmem
  | rcu =>
    simp only [batch, State.passToPool, update_self] at hres
    exact List.mem_of_mem_eraseIdx hres
  | hp =>
    simp only [batch, State.passToPool, update_self] at hres
    exact List.mem_of_mem_eraseIdx hres

/-- The object the iterator is at is one of those that may be freed. -/
private theorem mem_batch {p : Path} {pos indx : ℕ} {res : RCUInfo Obj} (hmode : Mode s t p)
    (hgo : ¬ s.hpScanStops t p pos indx) (hget : (s.retired t)[pos]? = some res) :
    res ∈ batch s t pos indx p := by
  cases p with
  | loWm =>
    have hlt := hmode.lt_size hgo
    obtain ⟨hpos, hget'⟩ := List.getElem?_eq_some_iff.mp hget
    refine List.mem_take_iff_getElem.mpr ⟨pos, ?_, hget'⟩
    omega
  | rcu => exact List.mem_of_getElem? hget
  | hp => exact List.mem_of_getElem? hget

private theorem clean_zero (s : State n Obj Loc) (t : Fin n) (pos : ℕ) : Clean s t pos 0 :=
  fun _ _ _ _ hlt => absurd hlt (Nat.not_lt_zero _)

/-- One more entry of `slots` differs from the object. -/
private theorem Clean.succ {p : Path} {pos indx : ℕ} {u : Fin n} {e : Fin slotsPerThread}
    {res : RCUInfo Obj} (hmode : Mode s t p) (hgo : ¬ s.hpScanStops t p pos indx)
    (hget : (s.retired t)[pos]? = some res) (hne : s.slots u e ≠ some res.obj)
    (hvis : Visible s (batch s t pos indx p))
    (h : Clean s t pos (u.val * slotsPerThread + e.val)) :
    Clean s t pos (u.val * slotsPerThread + e.val + 1) := by
  intro res' hget' u' e' hlt hh
  rcases row_lt hlt with hlt | ⟨rfl, rfl⟩
  · exact h res' hget' u' e' hlt hh
  · obtain rfl : res = res' := Option.some.inj (hget.symm.trans hget')
    exact hne ((hvis res (mem_batch hmode hgo hget) u' e' hh).trans hh.1)

end Conditions

/-! ### No other step invalidates an assertion -/

/-- What the assertions of `t` speak about is unchanged. -/
structure Frame (s s' : State n Obj Loc) (t : Fin n) : Prop where
  retired : s'.retired t = s.retired t
  firstLoEntryFlag : s'.firstLoEntryFlag t = s.firstLoEntryFlag t
  size : s'.retireBagSizeWhenEnteredLoWm t = s.retireBagSizeWhenEnteredLoWm t
  scannedPubs : s'.scannedPubs t = s.scannedPubs t
  savedPubs : s'.savedPubs t = s.savedPubs t
  savedAnn : s'.savedAnn t = s.savedAnn t

variable [DecidableEq Obj] [DecidableEq Loc] {cfg : Config} {cond : Prop}

/-- A step of somebody else. -/
theorem Step.frame {s s' : State n Obj Loc} {a : Actor n} {t : Fin n} (hstep : Step cfg s a s')
    (ha : a ≠ .thread t) : Frame s s' t ∧ s'.pc t = s.pc t := by
  cases hstep with
  | write | link | unlink | handlerEnter | handlerPublish | handlerReturn =>
    exact ⟨⟨rfl, rfl, rfl, rfl, rfl, rfl⟩, rfl⟩
  | _ =>
    have ht : t ≠ _ := fun h => ha (congrArg Actor.thread h.symm)
    refine ⟨⟨?_, ?_, ?_, ?_, ?_, ?_⟩, ?_⟩ <;>
      first | rfl | exact update_of_ne ht _ _

section Frame

variable {s s' : State n Obj Loc} {a : Actor n} {t : Fin n}

/-- The retirement of an object that waits in a list is over. -/
theorem Step.retireAt_eq (hB : Base s) (hstep : Step cfg s a s') {res : RCUInfo Obj}
    (h : res ∈ s.retired t) : s'.retireAt res.obj = s.retireAt res.obj := by
  rcases hstep.hazard hB.read with heq | hz
  · exact congrArg (fun h : Hazard n slotsPerThread (Option Obj) Obj => h.retireAt res.obj) heq
  · exact hz.retireAt_eq (hB.life_eq h)

/-- A hold on an object that waits in a list is not new. -/
theorem Step.held_before (hB : Base s) (hstep : Step cfg s a s') {u : Fin n}
    {e : Fin slotsPerThread} {res : RCUInfo Obj} (h : res ∈ s.retired t)
    (hh : Holds s' u e res.obj) : Holds s u e res.obj := by
  rcases hstep.hazard hB.read with heq | hz
  · unfold Holds at hh ⊢
    rwa [heq] at hh
  · exact hz.held_before (hB.life_eq h) hh

/-- What is known about a thread's rounds is kept by every step. -/
theorem Watches.step {i : Fin n} (hB : Base s) (hstep : Step cfg s a s')
    (hpubs : s'.savedPubs t = s.savedPubs t) (hann : s'.savedAnn t i = s.savedAnn t i)
    (h : Watches s t i) : Watches s' t i := by
  unfold Watches
  rw [hpubs, hann]
  show Observed (s'.hz.table.ServedBy false (s.savedPubs t) i) i _ (s'.hz.table.ann i)
    (s'.hz.table.stage i)
  rcases hstep.hazard hB.read with heq | hz
  · rw [heq]
    exact h
  · rcases hz.handshake with heq | hh
    · rw [heq]
      exact h
    · exact Handshake.observed_step hB.hazard.table (hB.savedPubs_le t) hh h

theorem Sampled.frame (hB : Base s) (hstep : Step cfg s a s') (hf : Frame s s' t) {u : Fin n}
    (h : Sampled s t u) : Sampled s' t u := by
  intro res hres
  rw [hf.retired] at hres
  rw [hf.scannedPubs, hstep.retireAt_eq hB hres]
  exact h res hres

theorem Moved.frame (hB : Base s) (hstep : Step cfg s a s') (hf : Frame s s' t) {u : Fin n}
    (h : Moved s t u) : Moved s' t u := by
  unfold Moved
  rw [hf.scannedPubs]
  exact lt_of_lt_of_le h (hstep.pubs_le hB.read u)

theorem OldIn.frame (hB : Base s) (hstep : Step cfg s a s') (hf : Frame s s' t)
    {l : List (RCUInfo Obj)} (hl : ∀ res ∈ l, res ∈ s.retired t) (h : OldIn s t l) :
    OldIn s' t l := by
  intro res hres u
  rw [hf.savedPubs, hstep.retireAt_eq hB (hl res hres)]
  exact h res hres u

theorem LoWm.frame (hB : Base s) (hstep : Step cfg s a s') (hf : Frame s s' t)
    (h : LoWm s t) : LoWm s' t where
  size_pos := by
    rw [hf.size]
    exact h.size_pos
  size_le := by
    rw [hf.size, hf.retired]
    exact h.size_le
  old := by
    rw [hf.size, hf.retired]
    exact h.old.frame hB hstep hf fun _ => List.mem_of_mem_take
  watches i := (h.watches i).step hB hstep hf.savedPubs (congrFun hf.savedAnn i)

theorem Reserved.step {i : ℕ} {m : WithTop ℕ} (hB : Base s) (hE : Epochs s)
    (hstep : Step cfg s a s') (hsub : ∀ res ∈ s'.retired t, res ∈ s.retired t)
    (h : Reserved s t i m) : Reserved s' t i m := by
  intro u hu res hres e hh
  have hh₀ := hstep.held_before hB (hsub res hres) hh
  rw [hstep.reservations_eq hE hh₀]
  exact h u hu res (hsub res hres) e hh₀

theorem Visible.step {l l' : List (RCUInfo Obj)} (hB : Base s) (hstep : Step cfg s a s')
    (hret : ∀ res ∈ l, res ∈ s.retired t) (hsub : ∀ res ∈ l', res ∈ l) (h : Visible s l) :
    Visible s' l' := by
  intro res hres u
  have hmem := hsub res hres
  rcases hstep.hazard hB.read with heq | hz
  · rw [heq]
    exact h res hmem u
  · exact hz.shows (hB.life_eq (hret res hmem)) (h res hmem u)

theorem Clean.frame {pos j : ℕ} (hB : Base s) (hstep : Step cfg s a s') (hf : Frame s s' t)
    (h : Clean s t pos j) : Clean s' t pos j := by
  intro res hget u e hlt hh
  rw [hf.retired] at hget
  exact h res hget u e hlt (hstep.held_before hB (List.mem_of_getElem? hget) hh)

omit [DecidableEq Obj] [DecidableEq Loc] in
theorem Frame.batch (hf : Frame s s' t) (pos indx : ℕ) (p : Path) :
    batch s' t pos indx p = batch s t pos indx p := by
  cases p with
  | loWm => simp only [EpochPop.batch, hf.retired, hf.size]
  | rcu => exact hf.retired
  | hp => exact hf.retired

omit [DecidableEq Obj] [DecidableEq Loc] in
theorem Mode.frame (hf : Frame s s' t) {p : Path} (h : Mode s t p) : Mode s' t p := by
  cases p with
  | loWm => exact ⟨hf.firstLoEntryFlag.trans h.1, hf.size ▸ h.2⟩
  | rcu => trivial
  | hp => trivial

/-- **Interference freedom.** A step that leaves the data of `t` alone keeps what `t`
knows. -/
theorem Own.frame (hB : Base s) (hE : Epochs s) (hstep : Step cfg s a s') (hf : Frame s s' t)
    {p : Pc Obj Loc} (h : Own cond s t p) : Own cond s' t p := by
  have hflag := hf.firstLoEntryFlag
  have idle : (s.firstLoEntryFlag t = false → LoWm s t) →
      s'.firstLoEntryFlag t = false → LoWm s' t := fun hlo hfl =>
    (hlo (hflag.symm.trans hfl)).frame hB hstep hf
  have hsub : ∀ res ∈ s'.retired t, res ∈ s.retired t := fun res hres => hf.retired ▸ hres
  cases p with
  | idle => exact idle h
  | startOp e => exact idle h
  | bumpEpoch => exact idle h
  | readLoad idx l => exact idle h
  | readReserve idx l ret => exact idle h
  | readCheck idx l ret => exact idle h
  | endOp i => exact idle h
  | afterLoWm => exact idle h
  | saveTS i =>
    obtain ⟨hfl, hold, hne, hw⟩ := h
    refine ⟨hflag.trans hfl, ?_, ?_, fun i' hi => ?_⟩
    · rw [hf.retired]
      exact hold.frame hB hstep hf fun _ => id
    · rwa [hf.retired]
    · exact (hw i' hi).step hB hstep hf.savedPubs (congrFun hf.savedAnn i')
  | check i => exact ⟨hflag.trans h.1, h.2.frame hB hstep hf⟩
  | minEpoch i m => exact Reserved.step hB hE hstep hsub h
  | rcuScan pos m => exact Reserved.step hB hE hstep hsub h
  | sample i => exact fun u hu => (h u hu).frame hB hstep hf
  | announceStart => exact fun u => (h u).frame hB hstep hf
  | ping i => exact fun u => (h u).frame hB hstep hf
  | confirm i =>
    exact ⟨fun u => (h.1 u).frame hB hstep hf,
      fun hc u hu hut => (h.2 hc u hu hut).frame hB hstep hf⟩
  | hpScan p pos indx j =>
    refine ⟨h.1.frame hf, fun hc => ?_⟩
    obtain ⟨hvis, hclean⟩ := h.2 hc
    rw [hf.batch]
    exact ⟨hvis.step hB hstep (batch_subset s t pos indx p) fun _ => id,
      hclean.frame hB hstep hf⟩

end Frame

/-! ### The thread's own steps -/

/-- The condition on a step under which the scans of hazard pointers are safe. -/
structure Meets (s : State n Obj Loc) (a : Actor n) : Prop where
  /-- Every comparison of the confirmation loop finds that the counter of the other thread has
  moved. -/
  confirms : ∀ t i : Fin n, a = .thread t → s.pc t = .confirm i.val → i ≠ t →
    s.myscannedTS t i ≠ s.mypublishingTS i
  /-- A thread that goes on to `hp_empty` has its own slots in `slots`. -/
  published : ∀ t, a = .thread t → s.pc t = .confirm n → Published s t t
  /-- Whenever the low watermark finds that `announcedTS[i]` is at least `savedTS[i] + 2`, it
  has passed the even value following `savedTS[i]` by two, no other thread has a ping to handle
  or is in its handler, and thread `i` has its own slots in `slots`. -/
  signalled : ∀ t i : Fin n, a = .thread t → s.pc t = .check i.val →
    s.savedTS t i + 2 ≤ s.announcedTS i →
      evenUp (s.savedTS t i).toNat + 2 ≤ (s.announcedTS i).toNat ∧
        (∀ u, u ≠ t → s.pinged u = false ∧ s.handler u = none) ∧ Published s t i

section Own

variable {s s' : State n Obj Loc} {t : Fin n}

/-- An object is pushed: those saved on entry are still the first ones. -/
private theorem LoWm.push (hB : Base s) (hstep : Step cfg s (.thread t) s') {res : RCUInfo Obj}
    (hretired : s'.retired t = s.retired t ++ [res])
    (hsize : s'.retireBagSizeWhenEnteredLoWm t = s.retireBagSizeWhenEnteredLoWm t)
    (hpubs : s'.savedPubs t = s.savedPubs t) (hann : s'.savedAnn t = s.savedAnn t)
    (h : LoWm s t) : LoWm s' t where
  size_pos := hsize ▸ h.size_pos
  size_le := by
    rw [hsize, hretired, List.length_append]
    exact Nat.le_add_right_of_le h.size_le
  old := by
    rw [hsize, hretired, List.take_append_of_le_length h.size_le]
    intro b hb u
    rw [hpubs, hstep.retireAt_eq hB (List.mem_of_mem_take hb)]
    exact h.old b hb u
  watches i := (h.watches i).step hB hstep hpubs (congrFun hann i)

omit [DecidableEq Loc] in
/-- The list saved when the low watermark is entered: everything in it was retired before. -/
private theorem oldIn_enter (hB : Base s) (o : Obj) :
    ∀ res ∈ s.retired t ++ [⟨o, s.epoch⟩], ∀ u,
      update s.retireAt o s.pubs res.obj u ≤ s.pubs u := by
  intro res hres u
  by_cases hro : res.obj = o
  · rw [hro, update_self]
  · rw [update_of_ne hro]
    rcases List.mem_append.mp hres with hmem | hnew
    · exact hB.hazard.retireAt_le res.obj u (hB.life_eq hmem)
    · exact absurd (congrArg RCUInfo.obj (List.mem_singleton.mp hnew)) hro

/-- **The outline.** Every own step of thread `t` leads from what it knows to what it knows
next. -/
theorem Own.step (hB : Base s) (hE : Epochs s) (hok : cond → Meets s (.thread t))
    (hstep : Step cfg s (.thread t) s') (h : Own cond s t (s.pc t)) :
    Own cond s' t (s'.pc t) := by
  have hst := hstep
  cases hstep with
  | alloc _ hr hpc =>
    -- an allocation may move the epoch, and what the thread knows of itself stays
    rw [hpc] at h
    generalize hq : (if (s.allocCounters t + 1) % (cfg.epochFreq * n) = 0 then Pc.bumpEpoch
      else Pc.idle) = q at hst ⊢
    have hidle := h.frame hB hE hst ⟨rfl, rfl, rfl, rfl, rfl, rfl⟩
    refine .at (update_self ..) ?_
    split at hq
    · exact hq ▸ hidle
    · exact hq ▸ hidle
  | bumpEpoch _ hr hpc =>
    -- outside the empties there is nothing to know
    rw [hpc] at h
    exact .at (update_self ..) (h.frame hB hE hst ⟨rfl, rfl, rfl, rfl, rfl, rfl⟩)
  | callStartOp _ hr hpc hact =>
    rw [hpc] at h
    exact .at (update_self ..) (h.frame hB hE hst ⟨rfl, rfl, rfl, rfl, rfl, rfl⟩)
  | startOp _ e hr hpc =>
    rw [hpc] at h
    exact .at (update_self ..) (h.frame hB hE hst ⟨rfl, rfl, rfl, rfl, rfl, rfl⟩)
  | callRead _ idx l hr hpc hact =>
    rw [hpc] at h
    exact .at (update_self ..) (h.frame hB hE hst ⟨rfl, rfl, rfl, rfl, rfl, rfl⟩)
  | readLoad _ idx l hr hpc =>
    rw [hpc] at h
    exact .at (update_self ..) (h.frame hB hE hst ⟨rfl, rfl, rfl, rfl, rfl, rfl⟩)
  | readReserve _ idx l ret hr hpc =>
    rw [hpc] at h
    exact .at (update_self ..) (h.frame hB hE hst ⟨rfl, rfl, rfl, rfl, rfl, rfl⟩)
  | readReturn _ idx l ret hr hpc hret =>
    rw [hpc] at h
    exact .at (update_self ..) (h.frame hB hE hst ⟨rfl, rfl, rfl, rfl, rfl, rfl⟩)
  | readRetry _ idx l ret hr hpc hret =>
    rw [hpc] at h
    exact .at (update_self ..) (h.frame hB hE hst ⟨rfl, rfl, rfl, rfl, rfl, rfl⟩)
  | callEndOp _ hr hpc hact =>
    rw [hpc] at h
    exact .at (update_self ..) (h.frame hB hE hst ⟨rfl, rfl, rfl, rfl, rfl, rfl⟩)
  | endOp _ e hr hpc =>
    rw [hpc] at h
    exact .at (update_self ..) (h.frame hB hE hst ⟨rfl, rfl, rfl, rfl, rfl, rfl⟩)
  | endOpReturn _ hr hpc =>
    rw [hpc] at h
    exact .at (update_self ..) (h.frame hB hE hst ⟨rfl, rfl, rfl, rfl, rfl, rfl⟩)
  | retireEnterLoWm _ o rand hr hpc ho hpast hfirst =>
    -- the thread enters the low watermark, with nothing saved yet
    refine .at (update_self ..) ⟨update_self .., ?_, ?_, fun i hi => absurd hi (Nat.not_lt_zero _)⟩
    · intro res hres u
      simp only [State.goto, State.pushBack, update_self] at hres ⊢
      exact oldIn_enter hB o res hres u
    · simp [State.goto, State.pushBack]
  | retireLoWm _ o hr hpc ho hpast hfirst =>
    -- the object joins the list, and the path is chosen
    rw [hpc] at h
    exact .at (update_self ..) ⟨hfirst, (h hfirst).push hB hst (update_self ..) rfl rfl rfl⟩
  | retire _ o hr hpc ho hpast =>
    rw [hpc] at h
    exact .at (update_self ..) fun hfl => (h hfl).push hB hst (update_self ..) rfl rfl rfl
  | saveTS _ i hr hpc =>
    -- one more counter is saved
    rw [hpc] at h
    obtain ⟨hfl, hold, hne, hw⟩ := h
    refine .at (update_self ..) ⟨hfl, hold, hne, fun i' hi => ?_⟩
    by_cases hii : i' = i
    · -- this stamp is new: it says nothing yet
      subst hii
      have hst' : stageOf n (update s.pc t (.saveTS (i'.val + 1)) i') = stageOf n (s.pc i') := by
        by_cases hit : i' = t
        · rw [hit, update_self, hpc]
          rfl
        · rw [update_of_ne hit]
      simp only [Watches, State.goto, update_self, hst']
      exact .now ..
    · have hne' : i'.val ≠ i.val := fun hv => hii (Fin.ext hv)
      refine (hw i' (by omega)).step hB hst rfl ?_
      simp only [update_self]
      exact update_of_ne hii ..
  | saveTSEnd _ hr hpc =>
    -- all counters are saved, from now on they may be compared
    rw [hpc] at h
    obtain ⟨hfl, hold, hne, hw⟩ := h
    refine .at (update_self ..) ⟨hfl, ?_, ?_, ?_, fun i => ?_⟩
    · simpa [State.goto, List.length_pos_iff] using hne
    · simp [State.goto]
    · simpa [State.goto, OldIn] using hold
    · exact (hw i i.isLt).step hB hst rfl rfl
  | checkHit _ i hr hpc hge =>
    -- a whole round of `i` lies between the two readings of its counter: everybody has published
    have hlo : s.firstLoEntryFlag t = false ∧ LoWm s t := by
      rw [hpc] at h
      exact h
    refine .at (update_self ..) ⟨⟨hlo.1, hlo.2.size_pos⟩, fun hc => ?_⟩
    obtain ⟨hround, hquiet, hown⟩ := (hok hc).signalled t i rfl hpc hge
    have hvis := hlo.2.visible hB hr hround hquiet hown
    exact ⟨hvis, clean_zero _ _ _⟩
  | checkMiss _ i hr hpc hlt =>
    -- the next thread is compared
    rw [hpc] at h
    exact .at (update_self ..) (h.frame hB hE hst ⟨rfl, rfl, rfl, rfl, rfl, rfl⟩)
  | checkEnd _ hr hpc =>
    rw [hpc] at h
    have hlo := h.2.frame hB hst ⟨rfl, rfl, rfl, rfl, rfl, rfl⟩
    exact .at (update_self ..) fun _ => hlo
  | callRcuEmpty _ hr hpc hout =>
    -- the scan of the epochs begins with no reservation loaded
    exact .at (update_self ..) fun u hu => absurd hu (Nat.not_lt_zero _)
  | retireReturn _ hr hpc hout =>
    rw [hpc] at h
    exact .at (update_self ..) (h.frame hB hE hst ⟨rfl, rfl, rfl, rfl, rfl, rfl⟩)
  | minEpoch _ i m hr hpc =>
    -- the smallest reservation, so far, is below those that hold an object
    rw [hpc] at h
    refine .at (update_self ..) fun u hu res hres e hh => ?_
    rcases Nat.lt_succ_iff_lt_or_eq.mp hu with hlt | heq
    · exact (min_le_left ..).trans (h u hlt res hres e hh)
    · obtain rfl : u = i := Fin.ext heq
      exact min_le_right ..
  | minEpochEnd _ m hr hpc =>
    rw [hpc] at h
    exact .at (update_self ..) (h.frame hB hE hst ⟨rfl, rfl, rfl, rfl, rfl, rfl⟩)
  | rcuFree _ pos m res hr hpc ho hlt =>
    -- an object retired before the smallest reservation was held by nobody
    rw [hpc] at h
    refine .at (update_self ..) (Reserved.step hB hE hst (fun res' hres => ?_) h)
    change res' ∈ update s.retired t ((s.retired t).eraseIdx pos) t at hres
    rw [update_self] at hres
    exact List.mem_of_mem_eraseIdx hres
  | rcuKeep _ pos m res hr hpc ho hge =>
    rw [hpc] at h
    exact .at (update_self ..) (h.frame hB hE hst ⟨rfl, rfl, rfl, rfl, rfl, rfl⟩)
  | rcuForce _ pos m hr hpc hend hforce =>
    -- too many objects are left: the threads are signalled
    exact .at (update_self ..) fun u hu => absurd hu (Nat.not_lt_zero _)
  | rcuEnd _ pos m hr hpc hend hforce =>
    refine .at (update_self ..) fun hfl => ?_
    have htrue : update s.firstLoEntryFlag t true t = true := update_self ..
    exact absurd (htrue.symm.trans hfl) (by simp)
  | sample _ i hr hpc =>
    -- one more counter is sampled, before the signals
    rw [hpc] at h
    refine .at (update_self ..) fun u hu res hres => ?_
    simp only [State.goto, update_self]
    by_cases hui : u = i
    · subst hui
      rw [update_self]
      exact hB.hazard.retireAt_le res.obj u (hB.life_eq hres)
    · rw [update_of_ne hui]
      have hne : u.val ≠ i.val := fun hv => hui (Fin.ext hv)
      exact h u (by omega) res hres
  | sampleEnd _ hr hpc =>
    rw [hpc] at h
    exact .at (update_self ..) fun u => h u u.isLt
  | announceStart _ hr hpc =>
    -- the round has begun
    rw [hpc] at h
    exact .at (update_self ..) (h.frame hB hE hst ⟨rfl, rfl, rfl, rfl, rfl, rfl⟩)
  | ping _ i hr hpc hi =>
    -- one more thread is pinged
    rw [hpc] at h
    exact .at (update_self ..) (h.frame hB hE hst ⟨rfl, rfl, rfl, rfl, rfl, rfl⟩)
  | pingSelf _ hr hpc =>
    rw [hpc] at h
    exact .at (update_self ..) (h.frame hB hE hst ⟨rfl, rfl, rfl, rfl, rfl, rfl⟩)
  | pingEnd _ hr hpc =>
    rw [hpc] at h
    exact .at (update_self ..) ⟨h, fun _ u hu => absurd hu (Nat.not_lt_zero _)⟩
  | confirm _ i hr hpc =>
    -- the counter has moved, so the thread has published since the sample
    rw [hpc] at h
    obtain ⟨hsam, hmoved⟩ := h
    refine .at (update_self ..) ⟨hsam, fun hc u hu hut => ?_⟩
    rcases Nat.lt_succ_iff_lt_or_eq.mp hu with hlt | heq
    · exact hmoved hc u hlt hut
    · obtain rfl : u = i := Fin.ext heq
      exact moved_of_ne hB ((hok hc).confirms t u rfl hpc hut)
  | announceDone _ hr hpc =>
    rw [hpc] at h
    obtain ⟨hsam, hmoved⟩ := h
    refine .at (update_self ..) ⟨trivial, fun hc => ⟨fun res hres u => ?_, clean_zero _ _ _⟩⟩
    by_cases hut : u = t
    · -- the signalling thread has not published, but shows what it holds
      subst hut
      exact fun e hh => ((hok hc).published u rfl hpc res hres e hh.1).trans hh.1.symm
    · have hlt : s.retireAt res.obj u < s.pubs u :=
        lt_of_le_of_lt (hsam u res hres) (hmoved hc u u.isLt hut)
      exact hB.hazard.shows (hB.life_eq hres) hlt
  | hpNext _ u e p pos indx res hr hpc hgo ho hne =>
    -- the next entry of `slots` shows another object
    rw [hpc] at h
    refine .at (update_self ..) ⟨h.1, fun hc => ?_⟩
    obtain ⟨hvis, hclean⟩ := h.2 hc
    exact ⟨hvis, hclean.succ h.1 hgo ho hne hvis⟩
  | hpKeep _ u e p pos indx res hr hpc hgo ho heq =>
    -- the entry shows the object, which is kept
    rw [hpc] at h
    refine .at (update_self ..) ⟨h.1, fun hc => ⟨?_, clean_zero _ _ _⟩⟩
    have hbatch : batch (s.goto t (.hpScan p (pos + 1) (indx + 1) 0)) t (pos + 1) (indx + 1) p =
      batch s t pos indx p := batch_keep h.1 hgo
    rw [hbatch]
    exact (h.2 hc).1
  | hpFree _ p pos indx res hr hpc hgo ho =>
    -- no entry shows it, so nobody holds it
    rw [hpc] at h
    refine .at (update_self ..) ⟨h.1, fun hc => ⟨fun b hb u => ?_, clean_zero _ _ _⟩⟩
    exact (h.2 hc).1 b (batch_free (o := res.obj) h.1 hgo b hb) u
  | hpEnd _ pos indx hr hpc hstop =>
    -- the empty is over, and the low watermark with it
    refine .at (update_self ..) fun hfl => ?_
    have htrue : update s.firstLoEntryFlag t true t = true := update_self ..
    exact absurd (htrue.symm.trans hfl) (by simp)
  | loWmEnd _ pos indx hr hpc hstop =>
    refine .at (update_self ..) fun hfl => ?_
    have htrue : update s.firstLoEntryFlag t true t = true := update_self ..
    exact absurd (htrue.symm.trans hfl) (by simp)

end Own

/-! ### The invariant of the runs -/

/-- What holds in every state of a run; `cond` says whether its steps meet the condition. -/
structure Inv (cond : Prop) (s : State n Obj Loc) : Prop where
  base : Base s
  epochs : Epochs s
  own : ∀ t, Own cond s t (s.pc t)

omit [DecidableEq Obj] [DecidableEq Loc] in
theorem Inv.initial : Inv cond (State.initial n Obj Loc) :=
  ⟨Base.initial, Epochs.initial, fun _ => nofun⟩

theorem Inv.step {s s' : State n Obj Loc} {a : Actor n} (hI : Inv cond s)
    (hok : cond → Meets s a) (hstep : Step cfg s a s') : Inv cond s' where
  base := hI.base.step hstep
  epochs := hI.epochs.step hI.base hstep
  own t := by
    by_cases ha : a = .thread t
    · subst ha
      exact (hI.own t).step hI.base hI.epochs hok hstep
    · obtain ⟨hf, hpc⟩ := hstep.frame ha
      rw [hpc]
      exact (hI.own t).frame hI.base hI.epochs hstep hf

/-- In every run. -/
theorem Inv.reached {s : State n Obj Loc} (h : (system cfg).Reachable s) : Inv False s := by
  refine h.invariant ?_ fun _ _ _ _ hI _ hstep => hI.step False.elim hstep
  rintro _ rfl
  exact Inv.initial

/-- In every run whose steps meet the condition. -/
theorem Inv.reachedBy {s : State n Obj Loc} (h : (system cfg).ReachableBy Meets s) :
    Inv True s := by
  refine h.invariant ?_ fun _ _ _ _ hI hok hstep => hI.step (fun _ => hok) hstep
  rintro _ rfl
  exact Inv.initial

/-! ### Safety -/

section Safety

omit [DecidableEq Obj] [DecidableEq Loc]

/-- The next step of thread `t` passes `o` to the pool, in the function `p`. -/
def PassesToPool (s : State n Obj Loc) (t : Fin n) (p : Path) (o : Obj) : Prop :=
  ∃ pos res, (s.retired t)[pos]? = some res ∧ res.obj = o ∧
    match p with
    | .rcu => ∃ m, s.pc t = .rcuScan pos m ∧ (res.epoch : WithTop ℕ) < m
    | p => ∃ indx, s.pc t = .hpScan p pos indx (n * slotsPerThread) ∧ ¬ s.hpScanStops t p pos indx

/-- Nobody holds what the function `p` passes to the pool. -/
def SafeOn (p : Path) (s : State n Obj Loc) : Prop :=
  ∀ t o, PassesToPool s t p o → ∀ u e, ¬ Holds s u e o

/-- What `rcu_empty` frees is stamped below the reservation of everybody who holds an object
of the list. -/
theorem Inv.safeOn_rcu {s : State n Obj Loc} (hI : Inv cond s) : SafeOn .rcu s := by
  rintro t o ⟨pos, res, hget, rfl, m, hpc, hlt⟩ u e hh
  have hown := hI.own t
  rw [hpc] at hown
  have hmem := List.mem_of_getElem? hget
  have hle : m ≤ s.reservations u := hown u u.isLt res hmem e hh
  exact absurd (hle.trans (hI.epochs.stamped t res hmem u e hh)) (not_le_of_gt hlt)

/-- What the scans free is in no slot, and every hold would be there. -/
theorem Inv.safeOn_scan {s : State n Obj Loc} (hI : Inv True s) {t : Fin n} {p : Path}
    {pos indx : ℕ} {res : RCUInfo Obj} (hget : (s.retired t)[pos]? = some res)
    (hpc : s.pc t = .hpScan p pos indx (n * slotsPerThread)) (u : Fin n)
    (e : Fin slotsPerThread) : ¬ Holds s u e res.obj := by
  have hown := hI.own t
  rw [hpc] at hown
  refine (hown.2 trivial).2 res hget u e ?_
  exact row_lt_end u e

end Safety

/-- **Epochs.** In every run, nobody holds what `rcu_empty` passes to the pool. -/
theorem rcu_safe {s : State n Obj Loc} (h : (system cfg).Reachable s) : SafeOn .rcu s :=
  (Inv.reached h).safeOn_rcu

/-- **All three paths.** In every run that meets the condition, nobody holds what is passed to
the pool. -/
theorem epochPop_safe {s : State n Obj Loc} (h : (system cfg).ReachableBy Meets s) :
    ∀ p, SafeOn p s := by
  have hI := Inv.reachedBy h
  intro p
  cases p with
  | rcu => exact hI.safeOn_rcu
  | hp =>
    rintro t _ ⟨pos, res, hget, rfl, indx, hpc, -⟩
    exact hI.safeOn_scan hget hpc
  | loWm =>
    rintro t _ ⟨pos, res, hget, rfl, indx, hpc, -⟩
    exact hI.safeOn_scan hget hpc

section Schedule

variable {ok : State 2 ℕ Unit → Actor 2 → Prop} (hok : ∀ s a, Plain s a → ok s a)

include hok

/-- `hp_empty` finds all slots empty and passes its first object to the pool. -/
private theorem reach_freed {s : State 2 ℕ Unit} {res : RCUInfo ℕ}
    (hR : (system cfg).ReachableBy ok (s.goto 0 (.confirm 0))) (hr : s.Runs 0)
    (hconf : ∀ i, ok (s.goto 0 (.confirm i)) (.thread 0)) (hslots : ∀ u e, s.slots u e = none)
    (hget : (s.retired 0)[0]? = some res) :
    ∃ s', (system cfg).ReachableBy ok s' ∧ PassesToPool s' 0 .hp res.obj ∧
      s'.localSlots = s.localSlots ∧ s'.valid = s.valid := by
  have hR₁ := reach_confirmed hR hr hconf
  have hR₂ := reach_compared hok (s := s.announce 0) hR₁ hr hget le_rfl fun u e _ => by
    show s.slots u e ≠ some res.obj
    rw [hslots]
    exact nofun
  exact ⟨_, hR₂, ⟨0, res, hget, rfl, 0, State.goto_pc .., not_hpScanStops (s := s.announce 0) hget⟩,
    rfl, rfl⟩

end Schedule

/-- Thread `1`, inside an operation, holds object `0`; its handler has not run when the
confirmation loop of thread `0` is left. -/
theorem epochPop_unsafe :
    ¬ ∀ s : State 2 ℕ Unit, (system Config.standard).Reachable s → ∀ p, SafeOn p s := by
  intro hall
  have hok : ∀ (s : State 2 ℕ Unit) a, Plain s a → (fun _ _ => True : _ → _ → Prop) s a :=
    fun _ _ _ => trivial
  obtain ⟨s₀, hR₀, hq₀, hres₀, hact, hfresh₀, hempty₀, -⟩ := reach_started hok Config.standard 1
  obtain ⟨s₁, hR₁, hq₁, hres₁, hret₁, ho, hfresh, hheld, -⟩ := hq₀.held hok hR₀ hact hfresh₀
  obtain ⟨s₂, hR₂, hobjs, hloc₂, hvalid₂, hslots, hr, -⟩ :=
    reach_forced hok hR₁ hq₁ (by rw [hres₁, hres₀]) ho hfresh (by rw [hret₁, hempty₀])
      (by decide) (by decide)
  obtain ⟨res, hget, hobj⟩ := exists_head hobjs
  obtain ⟨s₃, hR₃, hpass, hloc₃, hvalid₃⟩ := reach_freed hok hR₂ hr (fun _ => trivial) hslots hget
  refine hall s₃ hR₃ .hp 0 0 (hobj ▸ hpass) 1 0 ⟨?_, ?_⟩
  · exact (congrFun (congrFun (hloc₃.trans hloc₂) 1) 0).trans hheld.1
  · exact (congrFun (congrFun (hvalid₃.trans hvalid₂) 1) 0).trans hheld.2

theorem Plain.meets {s : State n ℕ Unit} {a : Actor n} (h : Plain s a) : Meets s a := by
  refine ⟨fun t i ha hpc _ => ?_, fun t ha hpc => ?_, fun t i ha hpc hge => ?_⟩ <;> subst ha
  · exact absurd hpc (h.1 i)
  · exact absurd hpc (h.1 n)
  · exact absurd hge (h.2 i hpc)

theorem Meets.handler (s : State n ℕ Unit) (t : Fin n) : Meets s (.handler t) :=
  ⟨nofun, nofun, nofun⟩

/-- The same schedule, but thread `1` reads nothing and its handler runs in time: object `0` is
freed by `hp_empty`, and nobody holds it. -/
theorem epochPop_safe_of_published :
    ∃ s : State 2 ℕ Unit, PassesToPool s 0 .hp 0 ∧ ∀ p, SafeOn p s := by
  have hok : ∀ (s : State 2 ℕ Unit) a, Plain s a → Meets s a := fun _ _ => Plain.meets
  obtain ⟨s₀, hR₀, hq₀, hres₀, -, hfresh₀, hempty₀, hloc₀⟩ := reach_started hok Config.standard 1
  have hR₁ := reach_unlinked hok hR₀ (hfresh₀ 0)
  obtain ⟨s₂, hR₂, hobjs, hloc₂, -, hslots, hr, hping, hhand, hsam⟩ :=
    reach_forced hok hR₁ (hq₀.unlinked 0) hres₀ rfl
      (fun o ho => (update_of_ne (by omega) ..).trans (hfresh₀ o)) (hempty₀ 0) (by decide)
      (by decide)
  obtain ⟨res, hget, hobj⟩ := exists_head hobjs
  have hnone : ∀ u e, s₂.localSlots u e = none := by
    rw [hloc₂]
    exact hloc₀
  have hR₃ := reach_handled (fun s => Meets.handler s 1) hR₂ hping hhand (hslots 1) (hnone 1)
  -- the counter of thread `1` has moved, and thread `0` holds nothing
  have hconf : ∀ i, Meets ((s₂.handled 1).goto 0 (.confirm i)) (.thread 0) := by
    intro i
    refine ⟨?_, ?_, ?_⟩
    · intro t j ha hpc hne
      obtain rfl := Actor.thread.inj ha
      obtain rfl : (1 : Fin 2) = j := by omega
      simp [State.goto, State.handled, hsam]
    · intro t ha hpc res' hres' e hl
      exact absurd ((hnone t e).symm.trans hl) (by simp)
    · intro t j ha hpc
      obtain rfl := Actor.thread.inj ha
      rw [State.goto_pc] at hpc
      cases hpc
  obtain ⟨s₃, hR₄, hpass, -⟩ := reach_freed hok (s := s₂.handled 1) hR₃ hr hconf hslots hget
  exact ⟨s₃, hobj ▸ hpass, epochPop_safe hR₄⟩

end EpochPop
end PopSetbench

import PopSetbench.Reclaim.HazardPtrPopBase
import PopSetbench.Reclaim.HazardPtrPopSchedule

/-!
# HazardPtrPOP: when freeing is safe

Neither watermark is safe in every run, and this file says when each of them is.

* The confirmation loop after a signalling round goes on whether or not a counter has moved.
  `hiWm_safe` is the guarantee of the high watermark for the runs in which every comparison
  does find a moved counter (`Confirms`).
* The low watermark takes two increments of somebody else's `announcedTS` for a complete
  round. `loWm_safe` is its guarantee for the runs in which that is so whenever the branch is
  taken: the counter has passed the *even value following* the saved one by two, and no ping
  is left unhandled (`Signalled`).

The proof is an outline of the code in the manner of Owicki and Gries: `Own path s t p` is
what thread `t` knows at point `p` of `retire`. `Own.frame` says that no other thread can
invalidate it, `Own.step` that the thread's own steps lead from one assertion to the next.
-/

namespace PopSetbench
namespace HazardPtrPop

open Function

variable {n : ℕ} {Obj Loc : Type}

/-! ### The assertions -/

/-- Every object in the list was retired before `mypublishingTS` of `u` was sampled. -/
def Sampled (s : State n Obj Loc) (t u : Fin n) : Prop :=
  ∀ o ∈ s.retired t, s.retireAt o u ≤ s.scannedPubs t u

/-- Thread `u` has published since `t` sampled its `mypublishingTS`. -/
def Moved (s : State n Obj Loc) (t u : Fin n) : Prop :=
  s.scannedPubs t u < s.pubs u

/-- The objects of `l` were retired before `t` entered the low watermark. -/
def OldIn (s : State n Obj Loc) (t : Fin n) (l : List Obj) : Prop :=
  ∀ o ∈ l, ∀ u, s.retireAt o u ≤ s.savedPubs t u

/-- What `t` may conclude from `announcedTS` of thread `i`. -/
def Watches (s : State n Obj Loc) (t i : Fin n) : Prop :=
  Observed (s.hs.ServedBy true (s.savedPubs t) i) i (s.savedAnn t i) (s.ann i) (stageOf (s.pc i))

/-- Past the low watermark: the metadata saved on entry is in place. -/
structure LoWm (s : State n Obj Loc) (t : Fin n) : Prop where
  size_pos : 0 < s.retireBagSizeWhenEnteredLoWm t
  size_le : s.retireBagSizeWhenEnteredLoWm t ≤ (s.retired t).length
  old : OldIn s t ((s.retired t).take (s.retireBagSizeWhenEnteredLoWm t))
  watches : ∀ i, Watches s t i

/-- The count of `u`'s publications with which `t` compares on `path`. -/
def sampledPubs (s : State n Obj Loc) (t u : Fin n) : Path → ℕ
  | .hiWm => s.scannedPubs t u
  | .loWm => s.savedPubs t u

/-- The objects that `empty` may still free, with the iterator at `pos` after `m` objects. -/
def batch (s : State n Obj Loc) (t : Fin n) (pos m : ℕ) : Path → List Obj
  | .hiWm => s.retired t
  | .loWm => (s.retired t).take (pos + (s.retireBagSizeWhenEnteredLoWm t - m))

/-- Every thread has published since the objects of `l` were retired. -/
structure Ready (s : State n Obj Loc) (t : Fin n) (path : Path) (l : List Obj) : Prop where
  before : ∀ o ∈ l, ∀ u, s.retireAt o u ≤ sampledPubs s t u path
  published : ∀ u, sampledPubs s t u path < s.pubs u

/-- The first `m` of the copied entries show every hold on an object of `l`. -/
def Copied (s : State n Obj Loc) (t : Fin n) (l : List Obj) (m : ℕ) : Prop :=
  ∀ u (e : Fin slotsPerThread), u.val * slotsPerThread + e.val < m → ∀ o ∈ l,
    Holds s u e o → s.tempLocalSlots t u e = some o

/-- The low-watermark metadata while `empty` runs. -/
def Mode (s : State n Obj Loc) (t : Fin n) : Path → Prop
  | .hiWm => s.firstLoEntryFlag t = true
  | .loWm => s.firstLoEntryFlag t = false ∧ 0 < s.retireBagSizeWhenEnteredLoWm t

/-- What thread `t` knows at each point of the code. What it knows about the publications of
others is asserted for one `path` only, the one whose condition the run meets. -/
def Own (path : Path) (s : State n Obj Loc) (t : Fin n) : Pc Obj Loc → Prop
  | .sample i => s.firstLoEntryFlag t = true ∧ ∀ u, u.val < i → Sampled s t u
  | .announceStart => s.firstLoEntryFlag t = true ∧ ∀ u, Sampled s t u
  | .publish _ => s.firstLoEntryFlag t = true ∧ ∀ u, Sampled s t u
  | .ping _ => s.firstLoEntryFlag t = true ∧ (∀ u, Sampled s t u) ∧ Moved s t t
  | .confirm i => s.firstLoEntryFlag t = true ∧ (∀ u, Sampled s t u) ∧ Moved s t t ∧
      (path = .hiWm → ∀ u, u.val < i → Moved s t u)
  | .saveTS i => s.firstLoEntryFlag t = false ∧ OldIn s t (s.retired t) ∧ s.retired t ≠ [] ∧
      ∀ i', i'.val < i → Watches s t i'
  | .check _ => s.firstLoEntryFlag t = false ∧ LoWm s t
  | .snapshot p m => Mode s t p ∧
      (path = p → Ready s t p (batch s t 0 0 p) ∧ Copied s t (batch s t 0 0 p) m)
  | .scan p pos m => Mode s t p ∧
      (path = p → Ready s t p (batch s t pos m p) ∧
        Copied s t (batch s t pos m p) (n * slotsPerThread))
  | _ => s.firstLoEntryFlag t = false → LoWm s t

/-! ### No other step invalidates an assertion -/

variable [DecidableEq Obj] [DecidableEq Loc] {cfg : Config} {path : Path}

/-- What the assertions of `t` speak about is unchanged. -/
structure Frame (s s' : State n Obj Loc) (t : Fin n) : Prop where
  retired : s'.retired t = s.retired t
  firstLoEntryFlag : s'.firstLoEntryFlag t = s.firstLoEntryFlag t
  size : s'.retireBagSizeWhenEnteredLoWm t = s.retireBagSizeWhenEnteredLoWm t
  scannedPubs : s'.scannedPubs t = s.scannedPubs t
  savedPubs : s'.savedPubs t = s.savedPubs t
  savedAnn : s'.savedAnn t = s.savedAnn t
  tempLocalSlots : s'.tempLocalSlots t = s.tempLocalSlots t

/-- A step of somebody else. -/
theorem Step.frame {s s' : State n Obj Loc} {a : Actor n} {t : Fin n} (hstep : Step cfg s a s')
    (ha : a ≠ .thread t) : Frame s s' t ∧ s'.pc t = s.pc t := by
  cases hstep with
  | write | link | unlink | handlerEnter | handlerPublish | handlerReturn =>
    exact ⟨⟨rfl, rfl, rfl, rfl, rfl, rfl, rfl⟩, rfl⟩
  | _ =>
    have ht : t ≠ _ := fun h => ha (congrArg Actor.thread h.symm)
    refine ⟨⟨?_, ?_, ?_, ?_, ?_, ?_, ?_⟩, ?_⟩ <;>
      first | rfl | exact update_of_ne ht _ _

/-- The retirement of an object that waits in a list is over. -/
theorem Step.retireAt_eq {s s' : State n Obj Loc} {a : Actor n} (hB : Base s)
    (hstep : Step cfg s a s') {t : Fin n} {o : Obj} (ho : o ∈ s.retired t) :
    s'.retireAt o = s.retireAt o := by
  rcases hstep.hazard hB.read with heq | hh
  · exact congrArg (fun h : Hazard n slotsPerThread (Option Obj) Obj => h.retireAt o) heq
  · exact hh.retireAt_eq (hB.custody.prop t o ho)

/-- A hold on an object that waits in a list is not new. -/
theorem Step.held_before {s s' : State n Obj Loc} {a : Actor n} (hB : Base s)
    (hstep : Step cfg s a s') {t u : Fin n} {e : Fin slotsPerThread} {o : Obj}
    (ho : o ∈ s.retired t) (hh : Holds s' u e o) : Holds s u e o := by
  rcases hstep.hazard hB.read with heq | hz
  · unfold Holds at hh ⊢
    rwa [heq] at hh
  · exact hz.held_before (hB.custody.prop t o ho) hh

/-- What is known about a thread's rounds is kept by every step. -/
theorem Watches.step {s s' : State n Obj Loc} {a : Actor n} {t i : Fin n} (hB : Base s)
    (hstep : Step cfg s a s') (hpubs : s'.savedPubs t = s.savedPubs t)
    (hann : s'.savedAnn t i = s.savedAnn t i) (h : Watches s t i) : Watches s' t i := by
  unfold Watches
  rw [hpubs, hann]
  show Observed (s'.hz.table.ServedBy true (s.savedPubs t) i) i _ (s'.hz.table.ann i)
    (s'.hz.table.stage i)
  rcases hstep.hazard hB.read with heq | hz
  · rw [heq]
    exact h
  · rcases hz.handshake with heq | hh
    · rw [heq]
      exact h
    · exact Handshake.observed_step hB.hazard.table (hB.savedPubs_le t) hh h

section Frame

variable {s s' : State n Obj Loc} {a : Actor n} {t : Fin n}

theorem Sampled.frame (hB : Base s) (hstep : Step cfg s a s') (hf : Frame s s' t) {u : Fin n}
    (h : Sampled s t u) : Sampled s' t u := by
  intro o ho
  rw [hf.retired] at ho
  rw [hf.scannedPubs, hstep.retireAt_eq hB ho]
  exact h o ho

theorem Moved.frame (hB : Base s) (hstep : Step cfg s a s') (hf : Frame s s' t) {u : Fin n}
    (h : Moved s t u) : Moved s' t u := by
  unfold Moved
  rw [hf.scannedPubs]
  exact lt_of_lt_of_le h (hstep.pubs_le hB.read u)

theorem OldIn.frame (hB : Base s) (hstep : Step cfg s a s') (hf : Frame s s' t) {l : List Obj}
    (hl : ∀ o ∈ l, o ∈ s.retired t) (h : OldIn s t l) : OldIn s' t l := by
  intro o ho u
  rw [hf.savedPubs, hstep.retireAt_eq hB (hl o ho)]
  exact h o ho u

theorem LoWm.frame (hB : Base s) (hstep : Step cfg s a s') (hf : Frame s s' t)
    (h : LoWm s t) : LoWm s' t where
  size_pos := by
    rw [hf.size]
    exact h.size_pos
  size_le := by
    rw [hf.size, hf.retired]
    exact h.size_le
  old := by
    rw [hf.size, hf.retired]
    exact h.old.frame hB hstep hf fun _ => List.mem_of_mem_take
  watches i := (h.watches i).step hB hstep hf.savedPubs (congrFun hf.savedAnn i)

omit [DecidableEq Obj] [DecidableEq Loc] in
theorem batch_subset (s : State n Obj Loc) (t : Fin n) (pos m : ℕ) (p : Path) :
    ∀ o ∈ batch s t pos m p, o ∈ s.retired t := by
  cases p with
  | hiWm => exact fun _ => id
  | loWm => exact fun _ => List.mem_of_mem_take

omit [DecidableEq Obj] [DecidableEq Loc] in
theorem Frame.batch (hf : Frame s s' t) (pos m : ℕ) (p : Path) :
    batch s' t pos m p = batch s t pos m p := by
  cases p with
  | hiWm => exact hf.retired
  | loWm => simp only [HazardPtrPop.batch, hf.retired, hf.size]

omit [DecidableEq Obj] [DecidableEq Loc] in
theorem Frame.sampledPubs (hf : Frame s s' t) (u : Fin n) (p : Path) :
    sampledPubs s' t u p = sampledPubs s t u p := by
  cases p with
  | hiWm => exact congrFun hf.scannedPubs u
  | loWm => exact congrFun hf.savedPubs u

theorem Ready.frame (hB : Base s) (hstep : Step cfg s a s') (hf : Frame s s' t) {p : Path}
    {l : List Obj} (hl : ∀ o ∈ l, o ∈ s.retired t) (h : Ready s t p l) : Ready s' t p l where
  before o ho u := by
    rw [hf.sampledPubs, hstep.retireAt_eq hB (hl o ho)]
    exact h.before o ho u
  published u := by
    rw [hf.sampledPubs]
    exact lt_of_lt_of_le (h.published u) (hstep.pubs_le hB.read u)

theorem Copied.frame (hB : Base s) (hstep : Step cfg s a s')
    (htemp : s'.tempLocalSlots t = s.tempLocalSlots t) {m : ℕ} {l : List Obj}
    (hl : ∀ o ∈ l, o ∈ s.retired t) (h : Copied s t l m) : Copied s' t l m := by
  intro u e hm o ho hh
  rw [htemp]
  exact h u e hm o ho (hstep.held_before hB (hl o ho) hh)

omit [DecidableEq Obj] [DecidableEq Loc] in
theorem Mode.frame (hf : Frame s s' t) {p : Path} (h : Mode s t p) : Mode s' t p := by
  cases p with
  | hiWm => exact hf.firstLoEntryFlag.trans h
  | loWm => exact ⟨hf.firstLoEntryFlag.trans h.1, hf.size ▸ h.2⟩

/-- **Interference freedom.** A step that leaves the data of `t` alone keeps what `t`
knows. -/
theorem Own.frame (hB : Base s) (hstep : Step cfg s a s') (hf : Frame s s' t) {p : Pc Obj Loc}
    (h : Own path s t p) : Own path s' t p := by
  have hflag := hf.firstLoEntryFlag
  have idle : (s.firstLoEntryFlag t = false → LoWm s t) →
      s'.firstLoEntryFlag t = false → LoWm s' t := fun hlo hfl =>
    (hlo (hflag.symm.trans hfl)).frame hB hstep hf
  cases p with
  | idle => exact idle h
  | readLoad idx l => exact idle h
  | readReserve idx l ret => exact idle h
  | readCheck idx l ret => exact idle h
  | endOp i => exact idle h
  | sample i => exact ⟨hflag.trans h.1, fun u hu => (h.2 u hu).frame hB hstep hf⟩
  | announceStart => exact ⟨hflag.trans h.1, fun u => (h.2 u).frame hB hstep hf⟩
  | publish j => exact ⟨hflag.trans h.1, fun u => (h.2 u).frame hB hstep hf⟩
  | ping i =>
    obtain ⟨hfl, hsam, hself⟩ := h
    exact ⟨hflag.trans hfl, fun u => (hsam u).frame hB hstep hf, hself.frame hB hstep hf⟩
  | confirm i =>
    obtain ⟨hfl, hsam, hself, hmoved⟩ := h
    exact ⟨hflag.trans hfl, fun u => (hsam u).frame hB hstep hf, hself.frame hB hstep hf,
      fun hp u hu => (hmoved hp u hu).frame hB hstep hf⟩
  | saveTS i =>
    obtain ⟨hfl, hold, hne, hw⟩ := h
    refine ⟨hflag.trans hfl, ?_, ?_, fun i' hi => ?_⟩
    · rw [hf.retired]
      exact hold.frame hB hstep hf fun _ => id
    · rwa [hf.retired]
    · exact (hw i' hi).step hB hstep hf.savedPubs (congrFun hf.savedAnn i')
  | check i => exact ⟨hflag.trans h.1, h.2.frame hB hstep hf⟩
  | snapshot p m =>
    refine ⟨h.1.frame hf, fun hp => ?_⟩
    obtain ⟨hready, hcop⟩ := h.2 hp
    rw [hf.batch]
    exact ⟨hready.frame hB hstep hf (batch_subset s t _ _ p),
      hcop.frame hB hstep hf.tempLocalSlots (batch_subset s t _ _ p)⟩
  | scan p pos m =>
    refine ⟨h.1.frame hf, fun hp => ?_⟩
    obtain ⟨hready, hcop⟩ := h.2 hp
    rw [hf.batch]
    exact ⟨hready.frame hB hstep hf (batch_subset s t _ _ p),
      hcop.frame hB hstep hf.tempLocalSlots (batch_subset s t _ _ p)⟩

end Frame

/-! ### The thread's own steps -/

/-- Every comparison of the confirmation loop finds that the counter of the other thread has
moved. -/
def Confirms (s : State n Obj Loc) (a : Actor n) : Prop :=
  ∀ t i : Fin n, a = .thread t → s.pc t = .confirm i.val → i ≠ t →
    s.myscannedTS t i ≠ s.mypublishingTS i

/-- Whenever the low watermark finds that `announcedTS[i]` is at least `savedTS[i] + 2`, it has
passed the even value following `savedTS[i]` by two, and no other thread has a ping to handle
or is in its handler. -/
def Signalled (s : State n Obj Loc) (a : Actor n) : Prop :=
  ∀ t i : Fin n, a = .thread t → s.pc t = .check i.val →
    s.savedTS t i + 2 ≤ s.announcedTS i →
      evenUp (s.savedTS t i).toNat + 2 ≤ (s.announcedTS i).toNat ∧
        ∀ u, u ≠ t → s.pinged u = false ∧ s.handler u = none

/-- The condition under which `path` is safe. -/
def Meets : Path → State n Obj Loc → Actor n → Prop
  | .hiWm => Confirms
  | .loWm => Signalled

section Own

variable {s s' : State n Obj Loc} {t : Fin n}

omit [DecidableEq Obj] [DecidableEq Loc] in
private theorem Own.at {p : Pc Obj Loc} (hp : s.pc t = p) (h : Own path s t p) :
    Own path s t (s.pc t) :=
  hp ▸ h

/-- An object is pushed: those saved on entry are still the first ones. -/
private theorem LoWm.push (hB : Base s) (hstep : Step cfg s (.thread t) s') {o : Obj}
    (hretired : s'.retired t = s.retired t ++ [o])
    (hsize : s'.retireBagSizeWhenEnteredLoWm t = s.retireBagSizeWhenEnteredLoWm t)
    (hpubs : s'.savedPubs t = s.savedPubs t) (hann : s'.savedAnn t = s.savedAnn t)
    (h : LoWm s t) : LoWm s' t where
  size_pos := hsize ▸ h.size_pos
  size_le := by
    rw [hsize, hretired, List.length_append]
    exact Nat.le_add_right_of_le h.size_le
  old := by
    rw [hsize, hretired, List.take_append_of_le_length h.size_le]
    intro b hb u
    rw [hpubs, hstep.retireAt_eq hB (List.mem_of_mem_take hb)]
    exact h.old b hb u
  watches i := (h.watches i).step hB hstep hpubs (congrFun hann i)

omit [DecidableEq Loc] in
/-- The bag saved when the low watermark is entered: everything in it was retired before. -/
private theorem oldIn_enter (hB : Base s) (o : Obj) :
    ∀ b ∈ s.retired t ++ [o], ∀ u, update s.retireAt o s.pubs b u ≤ s.pubs u := by
  intro b hb u
  by_cases hbo : b = o
  · subst hbo
    rw [update_self]
  · rw [update_of_ne hbo]
    have hmem : b ∈ s.retired t := by simpa [hbo] using hb
    exact hB.hazard.retireAt_le b u (hB.custody.prop t b hmem)

omit [DecidableEq Obj] [DecidableEq Loc] in
/-- A counter that differs from its sample shows a publication. -/
private theorem moved_of_ne (hB : Base s) {i : Fin n}
    (hne : s.myscannedTS t i ≠ s.mypublishingTS i) : Moved s t i := by
  refine lt_of_le_of_ne (hB.scannedPubs_le t i) fun heq => hne ?_
  rw [hB.myscannedTS, hB.mypublishingTS, heq]

omit [DecidableEq Obj] [DecidableEq Loc] in
/-- A complete round seen in the 32-bit counters is one of the unbounded ones. -/
private theorem evenUp_of_toNat (hB : Base s) {i : Fin n} (hw : Watches s t i)
    (h : evenUp (s.savedTS t i).toNat + 2 ≤ (s.announcedTS i).toNat) :
    evenUp (s.savedAnn t i) + 2 ≤ s.ann i := by
  rw [hB.savedTS, hB.announcedTS] at h
  exact evenUp_of_ofNat hw.le h

omit [DecidableEq Obj] [DecidableEq Loc] in
/-- The low watermark sees a complete round: everybody has published since the entry. -/
private theorem LoWm.ready (hB : Base s) (hlo : LoWm s t) (hr : s.Runs t) {i : Fin n}
    (hround : evenUp (s.savedTS t i).toNat + 2 ≤ (s.announcedTS i).toNat)
    (hquiet : ∀ u, u ≠ t → s.pinged u = false ∧ s.handler u = none) :
    Ready s t .loWm (batch s t 0 0 .loWm) where
  before o ho u := by
    simp only [batch, Nat.zero_add, Nat.sub_zero] at ho
    exact hlo.old o ho u
  published u := by
    have hserved := (hlo.watches i).served (evenUp_of_toNat hB (hlo.watches i) hround) u
    have hu : s.pinged u = false ∧ s.handler u = none := by
      by_cases hut : u = t
      · exact hut ▸ hr
      · exact hquiet u hut
    rcases hserved with ⟨hself, -⟩ | hpub | hping | hhand
    · cases hself
    · exact hpub
    · change s.pinged u = true at hping
      rw [hu.1] at hping
      cases hping
    · change (s.handler u).isSome = true at hhand
      rw [hu.2] at hhand
      cases hhand

omit [DecidableEq Obj] [DecidableEq Loc] in
theorem Ready.retireAt_lt {p : Path} {l : List Obj} (h : Ready s t p l) {o : Obj} (ho : o ∈ l)
    (u : Fin n) : s.retireAt o u < s.pubs u :=
  lt_of_le_of_lt (h.before o ho u) (h.published u)

omit [DecidableEq Obj] [DecidableEq Loc] in
/-- One more entry of `slots` is copied. -/
private theorem Copied.succ (hB : Base s) {p : Path} {l : List Obj} {u : Fin n}
    {e : Fin slotsPerThread} (hl : ∀ o ∈ l, o ∈ s.retired t) (hready : Ready s t p l)
    (h : Copied s t l (u.val * slotsPerThread + e.val)) :
    Copied (s.copyEntry t u e) t l (u.val * slotsPerThread + e.val + 1) := by
  intro u' e' hm o ho hh
  change Holds s u' e' o at hh
  simp only [State.copyEntry, update_self]
  rcases row_lt hm with hlt | ⟨rfl, rfl⟩
  · have hold := h u' e' hlt o ho hh
    by_cases hu : u' = u
    · subst hu
      have he : e' ≠ e := by
        rintro rfl
        exact absurd hlt (Nat.lt_irrefl _)
      rwa [update_self, update_of_ne he]
    · rwa [update_of_ne hu]
  · rw [update_self, update_self]
    have hshow := hB.hazard.shows (hB.custody.prop t o (hl o ho)) (hready.retireAt_lt ho u') e' hh
    exact hshow.trans hh.1

omit [DecidableEq Obj] [DecidableEq Loc] in
/-- While the loop of `empty` at the low watermark goes on, some of the saved objects are
left. -/
private theorem Mode.lt_size {pos m : ℕ} (h : Mode s t .loWm) (hgo : ¬ s.scanStops t pos m) :
    m < s.retireBagSizeWhenEnteredLoWm t := by
  have hpos := h.2
  have hnot : ¬ s.retireBagSizeWhenEnteredLoWm t - 1 < m := fun hlt => hgo (.inr ⟨h.1, hlt⟩)
  omega

omit [DecidableEq Obj] [DecidableEq Loc] in
private theorem batch_keep {p : Path} {pos m : ℕ} (hmode : Mode s t p)
    (hgo : ¬ s.scanStops t pos m) : batch s t (pos + 1) (m + 1) p = batch s t pos m p := by
  cases p with
  | hiWm => rfl
  | loWm =>
    have hlt := hmode.lt_size hgo
    simp only [batch]
    congr 1
    omega

omit [DecidableEq Loc] in
private theorem batch_free {p : Path} {pos m : ℕ} {o : Obj} (hmode : Mode s t p)
    (hgo : ¬ s.scanStops t pos m) :
    ∀ b ∈ batch (s.passToPool t pos o) t pos (m + 1) p, b ∈ batch s t pos m p := by
  intro b hb
  cases p with
  | hiWm =>
    simp only [batch, State.passToPool, update_self] at hb
    exact List.mem_of_mem_eraseIdx hb
  | loWm =>
    have hlt := hmode.lt_size hgo
    simp only [batch, State.passToPool, update_self] at hb ⊢
    have hmem := List.mem_take_of_mem_take_eraseIdx hb
    rwa [show s.retireBagSizeWhenEnteredLoWm t - (m + 1) + 1 =
      s.retireBagSizeWhenEnteredLoWm t - m by omega] at hmem

/-- **The outline.** Every own step of thread `t` leads from what it knows to what it knows
next. -/
theorem Own.step (hB : Base s) (hok : Meets path s (.thread t)) (hstep : Step cfg s (.thread t) s')
    (h : Own path s t (s.pc t)) : Own path s' t (s'.pc t) := by
  have hst := hstep
  cases hstep with
  | callRead _ idx l hr hpc =>
    -- outside the empties there is nothing to know
    rw [hpc] at h
    exact .at (update_self ..) (h.frame hB hst ⟨rfl, rfl, rfl, rfl, rfl, rfl, rfl⟩)
  | readLoad _ idx l hr hpc =>
    rw [hpc] at h
    exact .at (update_self ..) (h.frame hB hst ⟨rfl, rfl, rfl, rfl, rfl, rfl, rfl⟩)
  | readReserve _ idx l ret hr hpc =>
    rw [hpc] at h
    exact .at (update_self ..) (h.frame hB hst ⟨rfl, rfl, rfl, rfl, rfl, rfl, rfl⟩)
  | readReturn _ idx l ret hr hpc hret =>
    rw [hpc] at h
    exact .at (update_self ..) (h.frame hB hst ⟨rfl, rfl, rfl, rfl, rfl, rfl, rfl⟩)
  | readRetry _ idx l ret hr hpc hret =>
    rw [hpc] at h
    exact .at (update_self ..) (h.frame hB hst ⟨rfl, rfl, rfl, rfl, rfl, rfl, rfl⟩)
  | callEndOp _ hr hpc =>
    rw [hpc] at h
    exact .at (update_self ..) (h.frame hB hst ⟨rfl, rfl, rfl, rfl, rfl, rfl, rfl⟩)
  | endOp _ e hr hpc =>
    rw [hpc] at h
    exact .at (update_self ..) (h.frame hB hst ⟨rfl, rfl, rfl, rfl, rfl, rfl, rfl⟩)
  | endOpReturn _ hr hpc =>
    rw [hpc] at h
    exact .at (update_self ..) (h.frame hB hst ⟨rfl, rfl, rfl, rfl, rfl, rfl, rfl⟩)
  | retireHiWm _ o hr hpc ho hout =>
    -- the thread is out of patience: its whole list is the batch
    exact .at (update_self ..) ⟨update_self .., fun u hu => absurd hu (Nat.not_lt_zero _)⟩
  | retireEnterLoWm _ o rand hr hpc ho hout hpast hfirst =>
    -- it enters the low watermark, with nothing saved yet
    refine .at (update_self ..) ⟨update_self .., ?_, ?_, fun i hi => absurd hi (Nat.not_lt_zero _)⟩
    · intro b hb u
      simp only [State.goto, State.pushBack, update_self] at hb ⊢
      exact oldIn_enter hB o b hb u
    · simp [State.goto, State.pushBack]
  | retireLoWm _ o hr hpc ho hout hpast hfirst =>
    rw [hpc] at h
    exact .at (update_self ..) ⟨hfirst, (h hfirst).push hB hst (update_self ..) rfl rfl rfl⟩
  | retireOnly _ o hr hpc ho hout hpast =>
    rw [hpc] at h
    exact .at (update_self ..) fun hfl => (h hfl).push hB hst (update_self ..) rfl rfl rfl
  | sample _ i hr hpc =>
    -- one more counter is sampled, before the signals
    rw [hpc] at h
    refine .at (update_self ..) ⟨h.1, fun u hu o ho => ?_⟩
    simp only [State.goto, update_self]
    by_cases hui : u = i
    · subst hui
      rw [update_self]
      exact hB.hazard.retireAt_le o u (hB.custody.prop t o ho)
    · rw [update_of_ne hui]
      have hne : u.val ≠ i.val := fun hv => hui (Fin.ext hv)
      exact h.2 u (by omega) o ho
  | sampleEnd _ hr hpc =>
    rw [hpc] at h
    exact .at (update_self ..) ⟨h.1, fun u => h.2 u u.isLt⟩
  | announceStart _ hr hpc =>
    rw [hpc] at h
    exact .at (update_self ..) (h.frame hB hst ⟨rfl, rfl, rfl, rfl, rfl, rfl, rfl⟩)
  | publish _ e hr hpc =>
    -- the thread publishes its own slots
    rw [hpc] at h
    exact .at (update_self ..) (h.frame hB hst ⟨rfl, rfl, rfl, rfl, rfl, rfl, rfl⟩)
  | publishEnd _ hr hpc =>
    rw [hpc] at h
    refine .at (update_self ..) ⟨h.1, h.2, ?_⟩
    change s.scannedPubs t t < update s.pubs t (s.pubs t + 1) t
    rw [update_self]
    exact Nat.lt_succ_of_le (hB.scannedPubs_le t t)
  | ping _ i hr hpc hi =>
    -- one more thread is pinged
    rw [hpc] at h
    exact .at (update_self ..) (h.frame hB hst ⟨rfl, rfl, rfl, rfl, rfl, rfl, rfl⟩)
  | pingSelf _ hr hpc =>
    rw [hpc] at h
    exact .at (update_self ..) (h.frame hB hst ⟨rfl, rfl, rfl, rfl, rfl, rfl, rfl⟩)
  | announceDone _ hr hpc =>
    rw [hpc] at h
    exact .at (update_self ..) ⟨h.1, h.2.1, h.2.2, fun _ u hu => absurd hu (Nat.not_lt_zero _)⟩
  | confirm _ i hr hpc =>
    -- the counter has moved, so the thread has published since the sample
    rw [hpc] at h
    obtain ⟨hfl, hsam, hself, hmoved⟩ := h
    refine .at (update_self ..) ⟨hfl, hsam, hself, fun hp u hu => ?_⟩
    rcases Nat.lt_succ_iff_lt_or_eq.mp hu with hlt | heq
    · exact hmoved hp u hlt
    · obtain rfl : u = i := Fin.ext heq
      by_cases hut : u = t
      · exact hut ▸ hself
      · subst hp
        exact moved_of_ne hB (hok t u rfl hpc hut)
  | confirmEnd _ hr hpc =>
    -- everybody has published since the objects were retired
    rw [hpc] at h
    obtain ⟨hfl, hsam, hself, hmoved⟩ := h
    exact .at (update_self ..) ⟨hfl, fun hp =>
      ⟨⟨fun o ho u => hsam u o ho, fun u => hmoved hp u u.isLt⟩,
        fun u e hm => absurd hm (Nat.not_lt_zero _)⟩⟩
  | saveTS _ i hr hpc =>
    -- one more counter is saved
    rw [hpc] at h
    obtain ⟨hfl, hold, hne, hw⟩ := h
    refine .at (update_self ..) ⟨hfl, hold, hne, fun i' hi => ?_⟩
    by_cases hii : i' = i
    · subst hii
      have hst' : stageOf (update s.pc t (.saveTS (i'.val + 1)) i') = stageOf (s.pc i') := by
        by_cases hit : i' = t
        · rw [hit, update_self, hpc]
          rfl
        · rw [update_of_ne hit]
      simp only [Watches, State.goto, update_self, hst']
      exact .now ..
    · have hne' : i'.val ≠ i.val := fun hv => hii (Fin.ext hv)
      refine (hw i' (by omega)).step hB hst rfl ?_
      simp only [update_self]
      exact update_of_ne hii ..
  | saveTSEnd _ hr hpc =>
    -- all counters are saved, from now on they may be compared
    rw [hpc] at h
    obtain ⟨hfl, hold, hne, hw⟩ := h
    refine .at (update_self ..) ⟨hfl, ?_, ?_, ?_, fun i => ?_⟩
    · simpa [State.goto, List.length_pos_iff] using hne
    · simp [State.goto]
    · simpa [State.goto, OldIn] using hold
    · exact (hw i i.isLt).step hB hst rfl rfl
  | checkHit _ i hr hpc hge =>
    -- by the condition a whole round of `i` lies between the two readings of its counter
    have hlo : s.firstLoEntryFlag t = false ∧ LoWm s t := by
      rw [hpc] at h
      exact h
    refine .at (update_self ..) ⟨⟨hlo.1, hlo.2.size_pos⟩, fun hp => ?_⟩
    subst hp
    obtain ⟨hround, hquiet⟩ := hok t i rfl hpc hge
    have hready := hlo.2.ready hB hr hround hquiet
    exact ⟨⟨hready.before, hready.published⟩, fun u e hm => absurd hm (Nat.not_lt_zero _)⟩
  | checkMiss _ i hr hpc hlt =>
    rw [hpc] at h
    exact .at (update_self ..) (h.frame hB hst ⟨rfl, rfl, rfl, rfl, rfl, rfl, rfl⟩)
  | checkEnd _ hr hpc =>
    rw [hpc] at h
    have hlo := h.2.frame hB hst ⟨rfl, rfl, rfl, rfl, rfl, rfl, rfl⟩
    exact .at (update_self ..) fun _ => hlo
  | snapshot _ u e p hr hpc =>
    -- one more slot is copied
    rw [hpc] at h
    refine .at (update_self ..) ⟨?_, fun hp => ?_⟩
    · exact h.1
    · obtain ⟨hready, hcop⟩ := h.2 hp
      exact ⟨⟨hready.before, hready.published⟩,
        Copied.succ hB (batch_subset s t _ _ p) hready hcop⟩
  | snapshotEnd _ p hr hpc =>
    -- all slots are copied, and the scan begins
    rw [hpc] at h
    refine .at (update_self ..) ⟨h.1, fun hp => ?_⟩
    obtain ⟨hready, hcop⟩ := h.2 hp
    exact ⟨⟨hready.before, hready.published⟩, hcop⟩
  | scanKeep _ p pos m o hr hpc hgo ho hdanger =>
    -- the slots show the object, which is kept
    rw [hpc] at h
    refine .at (update_self ..) ⟨h.1, fun hp => ?_⟩
    obtain ⟨hready, hcop⟩ := h.2 hp
    have hbatch : batch (s.goto t (.scan p (pos + 1) (m + 1))) t (pos + 1) (m + 1) p =
      batch s t pos m p := batch_keep h.1 hgo
    rw [hbatch]
    exact ⟨⟨hready.before, hready.published⟩, hcop⟩
  | scanFree _ p pos m o hr hpc hgo ho hsafe =>
    -- no slot shows it, so nobody holds it
    rw [hpc] at h
    refine .at (update_self ..) ⟨h.1, fun hp => ?_⟩
    obtain ⟨hready, hcop⟩ := h.2 hp
    have hsub := batch_free (o := o) h.1 hgo
    exact ⟨⟨fun b hb => hready.before b (hsub b hb), hready.published⟩,
      fun u e hm b hb hh => hcop u e hm b (hsub b hb) hh⟩
  | scanEndHiWm _ pos m hr hpc hstop =>
    -- the empty is over, and with it the low watermark
    rw [hpc] at h
    refine .at (update_self ..) fun hfl => ?_
    have htrue : s.firstLoEntryFlag t = true := h.1
    exact absurd (htrue.symm.trans hfl) (by simp)
  | scanEndLoWm _ pos m hr hpc hstop =>
    refine .at (update_self ..) fun hfl => ?_
    have htrue : update s.firstLoEntryFlag t true t = true := update_self ..
    exact absurd (htrue.symm.trans hfl) (by simp)

end Own

/-! ### The invariant of the runs that meet a condition -/

/-- What holds in every state of a run that meets the condition of `path`. -/
structure Inv (path : Path) (s : State n Obj Loc) : Prop where
  base : Base s
  own : ∀ t, Own path s t (s.pc t)

omit [DecidableEq Obj] [DecidableEq Loc] in
theorem Inv.initial : Inv path (State.initial n Obj Loc) :=
  ⟨Base.initial, fun _ => nofun⟩

theorem Inv.step {s s' : State n Obj Loc} {a : Actor n} (hI : Inv path s) (hok : Meets path s a)
    (hstep : Step cfg s a s') : Inv path s' where
  base := hI.base.step hstep
  own t := by
    by_cases ha : a = .thread t
    · subst ha
      exact (hI.own t).step hI.base hok hstep
    · obtain ⟨hf, hpc⟩ := hstep.frame ha
      rw [hpc]
      exact (hI.own t).frame hI.base hstep hf

theorem Inv.reached {s : State n Obj Loc} (h : (system cfg).ReachableBy (Meets path) s) :
    Inv path s := by
  refine h.invariant ?_ fun _ _ _ _ hI hok hstep => hI.step hok hstep
  rintro _ rfl
  exact Inv.initial

/-! ### Safety -/

section Safety

omit [DecidableEq Loc]

/-- The next step of thread `t` passes `o` to the pool, in a call of `empty` on `path`. -/
def PassesToPool (s : State n Obj Loc) (t : Fin n) (path : Path) (o : Obj) : Prop :=
  ∃ pos m, s.pc t = .scan path pos m ∧ ¬ s.scanStops t pos m ∧ (s.retired t)[pos]? = some o ∧
    ¬ s.conflict t o

omit [DecidableEq Obj] in
/-- What `empty` passes to the pool is in its batch. -/
theorem PassesToPool.ready {s : State n Obj Loc} {t : Fin n} {o : Obj} (hI : Inv path s)
    (h : PassesToPool s t path o) :
    o ∈ s.retired t ∧ (∀ u, s.retireAt o u < s.pubs u) ∧
      ∀ u e, Holds s u e o → s.tempLocalSlots t u e = some o := by
  obtain ⟨pos, m, hpc, hgo, hget, -⟩ := h
  have hown := hI.own t
  rw [hpc] at hown
  obtain ⟨hready, hcop⟩ := hown.2 rfl
  obtain ⟨hlt, hget'⟩ := List.getElem?_eq_some_iff.mp hget
  have hmem : o ∈ batch s t pos m path := by
    cases path with
    | hiWm => exact List.mem_of_getElem? hget
    | loWm =>
      have hm := Mode.lt_size hown.1 hgo
      refine List.mem_take_iff_getElem.mpr ⟨pos, ?_, hget'⟩
      omega
  refine ⟨batch_subset s t pos m path o hmem, fun u => hready.retireAt_lt hmem u,
    fun u e hh => hcop u e ?_ o hmem hh⟩
  exact row_lt_end u e

omit [DecidableEq Obj] in
/-- Nobody holds what `empty` passes to the pool. -/
theorem PassesToPool.not_held {s : State n Obj Loc} {t : Fin n} {o : Obj} (hI : Inv path s)
    (h : PassesToPool s t path o) (u : Fin n) (e : Fin slotsPerThread) : ¬ Holds s u e o := by
  intro hh
  have hseen := (h.ready hI).2.2 u e hh
  obtain ⟨_, _, _, _, _, hsafe⟩ := h
  exact hsafe ⟨u, e, hseen⟩

/-- The guarantee of the high watermark: no other thread holds what is passed to the pool,
and when `empty` begins every other thread has published since its counter was sampled. -/
def HiWmSafe (s : State n Obj Loc) : Prop :=
  (∀ t o, PassesToPool s t .hiWm o → ∀ u e, u ≠ t → ¬ Holds s u e o) ∧
    ∀ t, s.pc t = .snapshot .hiWm 0 → ∀ u, u ≠ t → s.scannedPubs t u < s.pubs u

/-- The guarantee of the low watermark: every other thread has published since the object
that is passed to the pool was retired, and none holds it. -/
def LoWmSafe (s : State n Obj Loc) : Prop :=
  ∀ t o, PassesToPool s t .loWm o →
    ∀ u, u ≠ t → s.retireAt o u < s.pubs u ∧ ∀ e, ¬ Holds s u e o

end Safety

/-- **High watermark.** In every run in which the confirmation loop always finds a moved
counter, nobody else holds an object that is freed out of patience. -/
theorem hiWm_safe {s : State n Obj Loc} (h : (system cfg).ReachableBy Confirms s) :
    HiWmSafe s := by
  have hI : Inv .hiWm s := Inv.reached h
  refine ⟨fun t o hpass u e _ => hpass.not_held hI u e, fun t hpc u _ => ?_⟩
  have hown := hI.own t
  rw [hpc] at hown
  exact (hown.2 rfl).1.published u

/-- A schedule in which thread `1` holds what thread `0` frees: the handler of `1` has not run
when the confirmation loop is left. -/
private theorem exists_hiWm_free (cfg : Config) (hcap : 2 ≤ cfg.emptyFreq) :
    ∃ s : State 2 ℕ Unit, (system cfg).Reachable s ∧ PassesToPool s 0 .hiWm 0 ∧
      Holds s 1 0 0 := by
  have hok : ∀ (s : State 2 ℕ Unit) a, Plain s a → (fun _ _ => True : _ → _ → Prop) s a :=
    fun _ _ _ => trivial
  obtain ⟨s, hR, h⟩ := reach_overfull hok cfg hcap
  -- thread `1` has not run its handler, and the loop goes on all the same
  have hR₁ := reach_confirmed hok hR h.runs fun _ => trivial
  have hR₂ := reach_scan hok hR₁ h.runs h.slots (h.tempLocalSlots 0)
  refine ⟨_, hR₂, ⟨0, 0, State.goto_pc .., ?_, ?_, ?_⟩, h.held, h.valid⟩
  · rintro (hlen | ⟨hfl, -⟩)
    · simp [State.goto, h.retired] at hlen
    · exact absurd (h.firstLoEntryFlag.symm.trans hfl) (by decide)
  · simp [State.goto, h.retired]
  · rintro ⟨u, e, hu⟩
    exact absurd ((h.tempLocalSlots 0 u e).symm.trans hu) (by simp)

theorem hiWm_unsafe :
    ¬ ∀ s : State 2 ℕ Unit, (system Config.standard).Reachable s → HiWmSafe s := by
  intro hall
  obtain ⟨s, hR, hpass, hheld⟩ := exists_hiWm_free Config.standard (by decide)
  exact (hall s hR).1 0 0 hpass 1 0 (by decide) hheld

omit [DecidableEq Obj] [DecidableEq Loc] in
theorem Plain.confirms {s : State n ℕ Unit} {a : Actor n} (h : Plain s a) : Confirms s a :=
  fun t i ha hpc _ => absurd hpc (h t ha i).1

/-- With a capacity of one, thread `0` signals at once and frees object `0` after thread `1`
has published. -/
theorem hiWm_safe_of_published :
    ∃ s : State 2 ℕ Unit, PassesToPool s 0 .hiWm 0 ∧ HiWmSafe s := by
  have hok : ∀ (s : State 2 ℕ Unit) a, Plain s a → Confirms s a := fun _ _ => Plain.confirms
  have hR₀ : (system ⟨1⟩).ReachableBy Confirms (State.initial 2 ℕ Unit) := .init rfl
  have hR₁ := reach_unlinked hok hR₀ (o := 0) rfl
  obtain ⟨s₁, hR₂, h₁⟩ := reach_round hok hR₁ (t := 0) (o := 0) ⟨rfl, rfl⟩ rfl rfl
    (by decide) (fun _ => rfl) fun _ => rfl
  have hslots : ∀ u e, s₁.slots u e = none := by
    rw [h₁.slots]
    exact fun _ _ => rfl
  have htemp : ∀ u e, s₁.tempLocalSlots 0 u e = none := by
    rw [h₁.tempLocalSlots]
    exact fun _ _ => rfl
  have hhandler : s₁.handler = fun _ => none := h₁.handler
  have hR₃ := reach_handled hok hR₂ (t := 1) (h₁.pinged 1 (by decide))
    (congrFun hhandler 1) (hslots 1) fun e => congrFun (congrFun h₁.localSlots 1) e
  -- everything about thread `0` is as before; the counter of thread `1` has moved
  have hruns : (s₁.handled 1).Runs 0 := ⟨h₁.pinged_self, congrFun hhandler 0⟩
  have hR₄ := reach_confirmed hok (s := s₁.handled 1) hR₃ hruns fun i t j ha hpc hne => by
    obtain rfl := Actor.thread.inj ha
    have hj : (1 : Fin 2) = j := by
      omega
    subst hj
    simp [State.goto, State.handled, h₁.myscannedTS, h₁.mypublishingTS, State.initial,
      State.unlinked]
  have hR₅ := reach_scan hok hR₄ hruns hslots htemp
  refine ⟨_, ⟨0, 0, State.goto_pc .., ?_, ?_, ?_⟩, hiWm_safe hR₅⟩
  · rintro (hlen | ⟨hfl, -⟩)
    · simp [State.goto, State.handled, h₁.retired] at hlen
    · exact absurd (h₁.firstLoEntryFlag_self.symm.trans hfl) (by decide)
  · simp [State.goto, State.handled, h₁.retired, State.initial, State.unlinked]
  · rintro ⟨u, e, hu⟩
    exact absurd ((htemp u e).symm.trans hu) (by simp)

/-- **Low watermark.** In every run in which the low watermark is taken only past a complete
round whose pings have been handled, every other thread has published since the object that
is freed was retired, and none holds it. -/
theorem loWm_safe {s : State n Obj Loc} (h : (system cfg).ReachableBy Signalled s) :
    LoWmSafe s := by
  have hI : Inv .loWm s := Inv.reached h
  intro t o hpass u _
  exact ⟨(hpass.ready hI).2.1 u, hpass.not_held hI u⟩

omit [DecidableEq Obj] [DecidableEq Loc] in
theorem Plain.signalled {s : State n ℕ Unit} {a : Actor n} (h : Plain s a) : Signalled s a :=
  fun t i ha hpc hge => absurd hge ((h t ha i).2 hpc)

/-- Thread `0` has just entered the low watermark, object `0` being the first in its list;
then thread `1` has sent the signals of a whole round. -/
private structure Overtaken (s₀ s : State 3 ℕ Unit) : Prop where
  pc : s.pc 0 = .check 0
  announcedTS_zero : s.announcedTS 0 = 0
  announcedTS_one : s.announcedTS 1 = 2
  savedTS : ∀ i, s.savedTS 0 i = 0
  firstLoEntryFlag : s.firstLoEntryFlag 0 = false
  size_pos : 0 < s.retireBagSizeWhenEnteredLoWm 0
  retired : (s.retired 0)[0]? = some 0
  slots : ∀ u e, s.slots u e = none
  tempLocalSlots : ∀ u e, s.tempLocalSlots 0 u e = none
  localSlots : s.localSlots = s₀.localSlots
  valid : s.valid = s₀.valid
  handler : ∀ u, s.handler u = none

/-- The handler of a thread that holds nothing changes nothing of this. -/
private theorem Overtaken.handled {s₀ s : State 3 ℕ Unit} (h : Overtaken s₀ s) (t : Fin 3) :
    Overtaken s₀ (s.handled t) :=
  ⟨h.pc, h.announcedTS_zero, h.announcedTS_one, h.savedTS, h.firstLoEntryFlag, h.size_pos,
    h.retired, h.slots, h.tempLocalSlots, h.localSlots, h.valid, h.handler⟩

section Overtaken

variable {ok : State 3 ℕ Unit → Actor 3 → Prop} (hok : ∀ s a, Plain s a → ok s a)

include hok

private theorem reach_overtaken {s₀ : State 3 ℕ Unit} (hR₀ : (system cfg).ReachableBy ok s₀)
    (hcap : 3 ≤ cfg.emptyFreq) (hq₀ : Quiet cfg s₀) (ho₀ : s₀.life 0 = .unlinked)
    (hfresh₀ : ∀ o, 1 ≤ o → s₀.life o = .pooled) (hempty : ∀ t, s₀.retired t = [])
    (hloc : ∀ e, s₀.localSlots 1 e = none) :
    ∃ s, (system cfg).ReachableBy ok s ∧ Overtaken s₀ s ∧ s.pinged 0 = true ∧
      s.pinged 1 = false ∧ s.pinged 2 = true := by
  -- the first object is the one that thread `1` may hold
  obtain ⟨s₁, hR₁, hq₁, h₁⟩ := hq₀.retire (t := 0) hok hR₀ ho₀ (by simp [hempty]; omega)
  have hfresh₁ : ∀ o, 1 ≤ o → s₁.life o = .pooled := by
    intro o ho
    rw [h₁.life, if_neg (by simp; omega)]
    exact hfresh₀ o ho
  -- thread `1` comes one short of the capacity, thread `0` of the low watermark
  obtain ⟨s₂, hR₂, hq₂, h₂⟩ := hq₁.retires (t := 1) hok hR₁ hfresh₁ (cfg.emptyFreq - 1)
    (by simp [h₁.retired, hempty]; omega)
  have hfresh₂ : ∀ o, cfg.emptyFreq ≤ o → s₂.life o = .pooled := by
    intro o ho
    rw [h₂.life, if_neg (by simp; omega)]
    exact hfresh₁ o (by omega)
  obtain ⟨s₃, hR₃, hq₃, h₃⟩ := hq₂.retires (t := 0) hok hR₂ hfresh₂ (cfg.emptyFreq / 2 - 1)
    (by simp [h₂.retired, h₁.retired, hempty]; omega)
  have hfresh₃ : ∀ o, 2 * cfg.emptyFreq ≤ o → s₃.life o = .pooled := by
    intro o ho
    rw [h₃.life, if_neg (by simp; omega)]
    exact hfresh₂ o (by omega)
  have hret₀ : s₃.retired 0 = 0 :: List.range' cfg.emptyFreq (cfg.emptyFreq / 2 - 1) := by
    simp [h₃.retired, h₂.retired, h₁.retired, hempty]
  have hret₁ : (s₃.retired 1).length = cfg.emptyFreq - 1 := by
    simp [h₃.retired, h₂.retired, h₁.retired, hempty]
  have hR₃' := reach_unlinked hok hR₃ (hfresh₃ (2 * cfg.emptyFreq) le_rfl)
  obtain ⟨s₄, hR₄, h₄⟩ := (hq₃.unlinked (2 * cfg.emptyFreq)).enter (t := 0) hok hR₃'
    (update_self ..) (by simp [State.unlinked, hret₀]; omega) hcap
  have hlast : s₄.life (2 * cfg.emptyFreq + 1) = .pooled := by
    rw [h₄.life, update_of_ne (by omega)]
    exact (update_of_ne (by omega) ..).trans (hfresh₃ _ (by omega))
  have hR₄' := reach_unlinked hok hR₄ hlast
  have hpc : ∀ u, u ≠ 0 → s₄.pc u = .idle := fun u hu => (h₄.pc u hu).trans (hq₃.pc u)
  -- thread `1` runs a round while thread `0` compares
  have hl₄ : s₄.localSlots = s₀.localSlots :=
    h₄.localSlots.trans (h₃.localSlots.trans (h₂.localSlots.trans h₁.localSlots))
  have hv₄ : s₄.valid = s₀.valid :=
    h₄.valid.trans (h₃.valid.trans (h₂.valid.trans h₁.valid))
  have hhandler : ∀ u, s₄.handler u = none := fun u => (congrFun h₄.handler u).trans (hq₃.runs u).2
  have hpc₁ : (s₄.goto 0 (.check 0)).pc 1 = .idle :=
    (s₄.goto_pc_of_ne (by decide) _).trans (hpc 1 (by decide))
  obtain ⟨s₅, hR₅, h₅⟩ := reach_round hok hR₄' (t := 1) (o := 2 * cfg.emptyFreq + 1)
    ⟨(congrFun h₄.pinged 1).trans (hq₃.runs 1).1, hhandler 1⟩
    hpc₁ (update_self ..)
    (by
      simp [State.isOutOfPatience, State.goto, State.unlinked, h₄.retired, hret₁]
      omega)
    (by
      change ∀ e, s₄.slots 1 e = none
      rw [h₄.slots]
      exact hq₃.slots 1)
    (by
      change ∀ e, s₄.localSlots 1 e = none
      rw [hl₄]
      exact hloc)
  -- the counter of thread `1` is two ahead, and the signals of its round are still pending
  refine ⟨_, hR₅, ⟨?_, ?_, ?_, ?_, ?_, ?_, ?_, ?_, ?_, ?_, ?_, ?_⟩, h₅.pinged 0 (by decide),
    h₅.pinged_self, h₅.pinged 2 (by decide)⟩
  · simp [State.goto, State.unlinked, h₅.pc 0 (by decide)]
  · simp [State.goto, State.unlinked, h₅.announcedTS, h₄.announcedTS, hq₃.announcedTS]
  · simp [State.goto, State.unlinked, h₅.announcedTS, h₄.announcedTS, hq₃.announcedTS]
  · simp [State.goto, State.unlinked, h₅.savedTS, h₄.savedTS, hq₃.savedTS]
  · exact (h₅.firstLoEntryFlag 0 (by decide)).trans h₄.firstLoEntryFlag
  · change 0 < s₅.retireBagSizeWhenEnteredLoWm 0
    rw [h₅.size 0 (by decide)]
    exact lt_of_lt_of_eq (Nat.succ_pos _) h₄.size.symm
  · simp [State.goto, State.unlinked, h₅.retired, h₄.retired, hret₀]
  · simp [State.goto, State.unlinked, h₅.slots, h₄.slots, hq₃.slots]
  · simp [State.goto, State.unlinked, h₅.tempLocalSlots, h₄.tempLocalSlots, hq₃.tempLocalSlots]
  · exact h₅.localSlots.trans hl₄
  · exact h₅.valid.trans hv₄
  · exact fun u => (congrFun h₅.handler u).trans (hhandler u)

/-- Thread `0` takes the branch of the low watermark and looks at object `0` first. -/
private theorem Overtaken.free {s₀ s : State 3 ℕ Unit} (h : Overtaken s₀ s)
    (hR : (system cfg).ReachableBy ok s) (hr : s.Runs 0)
    (hhit : ok (s.goto 0 (.check 1)) (.thread 0)) :
    (system cfg).ReachableBy ok (s.goto 0 (.scan .loWm 0 0)) ∧
      PassesToPool (s.goto 0 (.scan .loWm 0 0)) 0 .loWm 0 := by
  have hmiss : ¬ s.savedTS 0 0 + 2 ≤ s.announcedTS 0 := by
    rw [h.savedTS, h.announcedTS_zero]
    decide
  have hge : s.savedTS 0 1 + 2 ≤ s.announcedTS 1 := by
    rw [h.savedTS, h.announcedTS_one]
    decide
  have hR₁ := hR.step (.checkMiss s 0 0 hr h.pc hmiss) (hok _ _ (.miss h.pc hmiss))
  have hstep : Step cfg _ _ _ := .checkHit (s.goto 0 (.check 1)) 0 1 hr (State.goto_pc ..) hge
  have hR₂ := hR₁.step hstep hhit
  rw [State.goto_goto] at hR₂
  refine ⟨reach_scan hok hR₂ hr h.slots h.tempLocalSlots, 0, 0, State.goto_pc .., ?_, h.retired, ?_⟩
  · rintro (hlen | ⟨-, hlt⟩)
    · have hnil := List.eq_nil_of_length_eq_zero (Nat.le_zero.mp hlen)
      have hget := h.retired
      rw [show s.retired 0 = [] from hnil] at hget
      cases hget
    · exact absurd hlt (Nat.not_lt_zero _)
  · rintro ⟨u, e, hu⟩
    exact absurd ((h.tempLocalSlots u e).symm.trans hu) (by simp)

end Overtaken

/-- Thread `1` has signalled thread `2`, which holds object `0`, but the handler of `2` has
not run when thread `0` relies on it. -/
theorem loWm_unsafe :
    ¬ ∀ s : State 3 ℕ Unit, (system Config.standard).Reachable s → LoWmSafe s := by
  intro hall
  have hok : ∀ (s : State 3 ℕ Unit) a, Plain s a → (fun _ _ => True : _ → _ → Prop) s a :=
    fun _ _ _ => trivial
  obtain ⟨s₀, hR₀, hq₀, ho₀, hfresh₀, hempty, hloc, hvalid, hother⟩ :=
    reach_held hok Config.standard 2
  obtain ⟨s, hR, h, hp, -, -⟩ := reach_overtaken hok hR₀ (by decide) hq₀ ho₀ hfresh₀ hempty
    fun e => hother 1 e (.inl (by decide))
  have hR₁ := reach_handled hok hR hp (h.handler 0) (h.slots 0) fun e => by
    rw [h.localSlots]
    exact hother 0 e (.inl (by decide))
  obtain ⟨hR₂, hpass⟩ := (h.handled 0).free hok hR₁ ⟨rfl, h.handler 0⟩ trivial
  refine ((hall _ hR₂) 0 0 hpass 2 (by decide)).2 0 ⟨?_, ?_⟩
  · exact (congrFun (congrFun h.localSlots 2) 0).trans hloc
  · exact (congrFun (congrFun h.valid 2) 0).trans hvalid

/-- With a capacity of three: both handlers have run when thread `0` relies on the round of
thread `1`, and object `0`, which nobody holds, is freed. -/
theorem loWm_safe_of_handled :
    ∃ s : State 3 ℕ Unit, PassesToPool s 0 .loWm 0 ∧ LoWmSafe s := by
  have hok : ∀ (s : State 3 ℕ Unit) a, Plain s a → Signalled s a := fun _ _ => Plain.signalled
  have hR₀ : (system ⟨3⟩).ReachableBy Signalled (State.initial 3 ℕ Unit) := .init rfl
  have hR₁ := reach_unlinked hok hR₀ (o := 0) rfl
  have hq : Quiet ⟨3⟩ (State.initial 3 ℕ Unit) := Quiet.initial _
  obtain ⟨s, hR, h, hp₀, hp₁, hp₂⟩ := reach_overtaken hok hR₁ (by decide) (hq.unlinked 0)
    rfl (fun o ho => update_of_ne (by omega) ..) (fun _ => rfl) fun _ => rfl
  have hR₂ := reach_handled hok hR hp₀ (h.handler 0) (h.slots 0) fun e => by
    rw [h.localSlots]
    rfl
  have hR₃ := reach_handled hok hR₂ (t := 2) hp₂ (h.handler 2) (h.slots 2) fun e => by
    change s.localSlots 2 e = none
    rw [h.localSlots]
    rfl
  have hpinged : ∀ u : Fin 3, ((s.handled 0).handled 2).pinged u = false := by
    intro u
    match u with
    | 0 => rfl
    | 1 => exact hp₁
    | 2 => rfl
  obtain ⟨hR₄, hpass⟩ := ((h.handled 0).handled 2).free hok hR₃ ⟨rfl, h.handler 0⟩
    fun t i ha hpc hge => by
    obtain rfl := Actor.thread.inj ha
    rw [State.goto_pc] at hpc
    obtain rfl : (1 : Fin 3) = i := Fin.ext (Pc.check.inj hpc)
    refine ⟨?_, fun u _ => ⟨hpinged u, h.handler u⟩⟩
    change evenUp (s.savedTS 0 1).toNat + 2 ≤ (s.announcedTS 1).toNat
    rw [h.savedTS, h.announcedTS_one]
    decide
  exact ⟨_, hpass, loWm_safe hR₄⟩

end HazardPtrPop
end PopSetbench

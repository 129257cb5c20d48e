import PopSetbench.Reclaim.NbrBase
import PopSetbench.Reclaim.NbrSchedule

/-!
# NBR and NBR+: when freeing is safe

* `nbr_hiWm_safe` — in every run, whatever NBR frees, and NBR+ at the high watermark, no thread can
  dereference.
* `nbr_loWm_safe` — the same at the low watermark, in every run whose steps all meet `Meets`: a counter
  that has grown by two must have passed the even value following the saved one by two. An odd
  value was saved inside a round, and the next round has only begun when the counter has grown by
  two.

The proof is an outline of the code: `Own cfg cond s t p` is what thread `t` knows at point `p`,
where `cond` says whether the run meets the condition. Three facts carry it. A signal cuts its
receiver off from every record that is unlinked by then (`Cut`), which takes effect when
`pthread_kill` returns since the receiver handles the signal first. A record that a thread is cut
off from it cannot save any more. And a thread in its write phase leaves its list as it is, so what
it has saved is collected (`ToCome`) unless it is left behind.
-/

namespace PopSetbench
namespace Nbr

open Function

variable {n : ℕ} {Obj : Type}

/-! ### The assertions -/

/-- What `t` may conclude from the rounds of thread `i` since it saved `announcedTS`. -/
structure Watches (cfg : Config n) (s : State n Obj) (t i : Fin n) : Prop where
  observed : Observed (fun u => ∀ o ∈ s.bagAtEntry t, s.nz.Cut u o) i
    ((s.threadData t).savedTS i) (s.announcedTS i) (stageOf cfg (s.pc i))
  begun : evenUp ((s.threadData t).savedTS i) + 1 ≤ s.announcedTS i → s.begunSince t i = true
  ended : evenUp ((s.threadData t).savedTS i) + 2 ≤ s.announcedTS i → s.endedSince t i = true

/-- Past the low watermark: the bag of that moment is at the bottom of the bag, and its head is
remembered. -/
structure Entered (s : State n Obj) (t : Fin n) : Prop where
  flag : (s.threadData t).firstLoEntryFlag = false
  suffix : s.bagAtEntry t <:+ (s.threadData t).retiredBag
  ne_nil : s.bagAtEntry t ≠ []
  saved : (s.threadData t).savedRetireBagBlockInfo = beginOf (s.bagAtEntry t)

/-- Past the low watermark, `announcedTS` of every thread is saved. -/
structure LoWm (cfg : Config n) (s : State n Obj) (t : Fin n) : Prop extends Entered s t where
  watches : ∀ i, Watches cfg s t i

/-- The records that the running call may free. -/
def batch (s : State n Obj) (t : Fin n) : Path → List Obj
  | .hiWm => (s.threadData t).retiredBag
  | .loWm => s.bagAtEntry t

/-- Thread `u` cannot dereference the record, or it is collected. -/
def Spared (s : State n Obj) (scanned : Finset Obj) (u : Fin n) (o : Obj) : Prop :=
  ¬ s.nz.CanDereference u o ∨ o ∈ scanned

/-- While the first `sz` records of thread `u` are collected, from `ix` on: the record is spared,
or it is still to come. -/
def ToCome (s : State n Obj) (scanned : Finset Obj) (u : Fin n) (sz ix : ℕ) (o : Obj) : Prop :=
  Spared s scanned u o ∨
    (s.writing u = true ∧ ∃ k, ix ≤ k ∧ k < sz ∧ (s.proposedHzptrs u).data k = some o)

/-- Every thread is cut off from the records of `l`, and those of the first `m` threads are
collected. -/
structure Collected (s : State n Obj) (t : Fin n) (l : List Obj) (m : ℕ) : Prop where
  cut : ∀ o ∈ l, ∀ u, s.nz.Cut u o
  spared : ∀ o ∈ l, ∀ u : Fin n, u.val < m → Spared s (s.threadData t).scannedHzptrs u o

/-- A whole round of somebody lies after the low watermark was entered. -/
def Round (s : State n Obj) (t : Fin n) : Prop := ∃ i, s.endedSince t i = true

/-- The low-watermark data while records are collected. -/
def Mode (cond : Prop) (s : State n Obj) (t : Fin n) : Path → Prop
  | .hiWm => True
  | .loWm => Entered s t ∧ (cond → Round s t)

/-- The low-watermark data while records are freed. -/
def Sending (cond : Prop) (s : State n Obj) (t : Fin n) : Path → Prop
  | .hiWm => True
  | .loWm => (∀ o ∈ (s.threadData t).retiredBag, o ∈ s.bagAtEntry t) ∧ (cond → Round s t)

/-- What thread `t` knows at each point of the code. What it knows of the readers at the low
watermark is asserted if the run meets the condition. -/
def Own (cfg : Config n) (cond : Prop) (s : State n Obj) (t : Fin n) : Pc Obj → Prop
  | .saveTS i => Entered s t ∧ ∀ j : Fin n, j.val < i → Watches cfg s t j
  | .check _ => LoWm cfg s t
  | .announceStart => True
  | .signal i => ∀ o ∈ (s.threadData t).retiredBag, ∀ u : Fin n, u.val < i → s.nz.Cut u o
  | .announceDone => ∀ o ∈ (s.threadData t).retiredBag, ∀ u, s.nz.Cut u o
  | .collect p i => Mode cond s t p ∧ ((p = .loWm → cond) → Collected s t (batch s t p) i)
  | .collectGet p i sz ix => Mode cond s t p ∧ ((p = .loWm → cond) →
      Collected s t (batch s t p) i ∧ ∀ o ∈ batch s t p, ∀ u : Fin n, u.val = i →
        ToCome s (s.threadData t).scannedHzptrs u sz ix o)
  | .skipNewer => Mode cond s t .loWm ∧ (cond → Collected s t (s.bagAtEntry t) n)
  | .send p => Sending cond s t p ∧ ((p = .loWm → cond) →
      ∀ o ∈ (s.threadData t).retiredBag, ∀ u, Spared s (s.threadData t).scannedHzptrs u o)
  | .unspare _ => True
  | _ => (s.threadData t).firstLoEntryFlag = false → LoWm cfg s t

theorem Own.at {cfg : Config n} {cond : Prop} {s : State n Obj} {t : Fin n} {p : Pc Obj}
    (h : Own cfg cond s t (s.pc t)) (hpc : s.pc t = p) : Own cfg cond s t p :=
  hpc ▸ h

theorem Own.intro {cfg : Config n} {cond : Prop} {s : State n Obj} {t : Fin n} {p : Pc Obj}
    (hpc : s.pc t = p) (h : Own cfg cond s t p) : Own cfg cond s t (s.pc t) :=
  hpc ▸ h

/-! ### Bags and their heads -/

theorem beginOf_of_ne_nil {l : List Obj} (hl : l ≠ []) :
    beginOf l = some ((l.length - 1) / blockSize, (l.length - 1) % blockSize) :=
  if_neg hl

theorem isNewer_some (curr index curr' index' : ℕ) :
    isNewer (some (curr, index)) (some (curr', index')) = true ↔ curr ≠ curr' ∨ index' < index := by
  simp [isNewer]

/-- The remembered head is recognised: a bag that has grown since has a newer head. -/
theorem isNewer_iff {l bag : List Obj} (hl : l ≠ []) (hs : l <:+ bag) :
    isNewer (beginOf bag) (beginOf l) = true ↔ l ≠ bag := by
  have hbag : bag ≠ [] := by
    rintro rfl
    exact hl (List.suffix_nil.mp hs)
  have hpos : 0 < l.length := List.length_pos_of_ne_nil hl
  have hle : l.length ≤ bag.length := hs.length_le
  have hne : l ≠ bag ↔ l.length < bag.length :=
    ⟨fun hne => lt_of_le_of_ne hle fun heq => hne (hs.eq_of_length heq),
      fun hlt heq => absurd (congrArg List.length heq) (Nat.ne_of_lt hlt)⟩
  rw [beginOf_of_ne_nil hl, beginOf_of_ne_nil hbag, hne, isNewer_some]
  unfold blockSize
  omega

/-- The records in a bag are retired. -/
theorem Base.life_eq {cfg : Config n} {s : State n Obj} (hB : Base cfg s) {t : Fin n} {o : Obj}
    (ho : o ∈ (s.threadData t).retiredBag) : s.life o = .retired :=
  hB.custody.prop t o (List.mem_append_left _ (List.mem_append_right _ ho))

theorem Entered.life_eq {cfg : Config n} {s : State n Obj} {t : Fin n} (h : Entered s t)
    (hB : Base cfg s) {o : Obj} (ho : o ∈ s.bagAtEntry t) : s.life o = .retired :=
  hB.life_eq (h.suffix.subset ho)

theorem Mode.life_eq {cfg : Config n} {cond : Prop} {s : State n Obj} {t : Fin n} {p : Path}
    (h : Mode cond s t p) (hB : Base cfg s) {o : Obj} (ho : o ∈ batch s t p) :
    s.life o = .retired := by
  cases p with
  | hiWm => exact hB.life_eq ho
  | loWm => exact h.1.life_eq hB ho

/-! ### What every step keeps of retired records -/

section Steps

variable [DecidableEq Obj] {cfg : Config n} {cond : Prop} {s s' : State n Obj} {a : Actor n}
  {t u : Fin n} {o : Obj} {scanned scanned' : Finset Obj}

theorem Step.cut (hB : Base cfg s) (hstep : Step cfg s a s') (ho : s.life o = .retired)
    (h : s.nz.Cut u o) : s'.nz.Cut u o :=
  (hstep.nz hB.phase).cut ho h

theorem Spared.step (h : Spared s scanned u o) (hB : Base cfg s) (hstep : Step cfg s a s')
    (ho : s.life o = .retired) (hsub : scanned ⊆ scanned') : Spared s' scanned' u o :=
  h.imp ((hstep.nz hB.phase).not_canDereference hB.nz ho) fun hm => hsub hm

/-- A thread in its write phase leaves its list as it is, or leaves the phase. -/
theorem Step.writer (hB : Base cfg s) (hstep : Step cfg s a s') (hw : s.writing u = true) :
    s'.writing u = false ∨
      (s'.writing u = true ∧ s'.proposedHzptrs u = s.proposedHzptrs u) := by
  -- a thread that may be restarted is in no write phase
  have reader : ∀ {v : Fin n} {l : AtomicArrayList Obj}, s.restartable v = true →
      update s.proposedHzptrs v l u = s.proposedHzptrs u := by
    intro v l hr
    refine update_of_ne (fun huv => ?_) ..
    subst huv
    have hwf : s.writing u = false := hB.nz.phase u hr
    rw [hw] at hwf
    cases hwf
  cases hstep with
  | callStartOp v hr hpc hrs =>
    by_cases hv : u = v
    · subst hv
      exact .inl (update_self ..)
    · exact .inr ⟨(update_of_ne hv ..).trans hw, update_of_ne hv ..⟩
  | callSave v x hr hpc hrs hx hfull => exact .inr ⟨hw, reader hrs⟩
  | addSaved v x sz hr hpc => exact .inr ⟨hw, reader ((hB.phase v).at hpc).2.1⟩
  | upgradeToWritePhase v hr hpc hrs =>
    refine .inr ⟨?_, rfl⟩
    show update s.writing v true u = true
    by_cases hv : u = v
    · rw [hv, update_self]
    · rwa [update_of_ne hv]
  | endOp v hr hpc =>
    by_cases hv : u = v
    · subst hv
      exact .inl (update_self ..)
    · exact .inr ⟨(update_of_ne hv ..).trans hw, rfl⟩
  | _ => exact .inr ⟨hw, rfl⟩

theorem ToCome.step {sz ix : ℕ} (h : ToCome s scanned u sz ix o) (hB : Base cfg s)
    (hstep : Step cfg s a s') (ho : s.life o = .retired) (hc : s.nz.Cut u o)
    (hsub : scanned ⊆ scanned') : ToCome s' scanned' u sz ix o := by
  rcases h with hsp | ⟨hw, k, hle, hlt, hk⟩
  · exact .inl (hsp.step hB hstep ho hsub)
  · rcases hstep.writer hB hw with hw' | ⟨hw', hl⟩
    · -- the write phase is over: the record is left behind
      refine .inl (.inl ((hstep.cut hB ho hc).not_canDereference fun hwt => ?_))
      have hwf : s'.nz.writing u = false := hw'
      rw [hwf] at hwt
      cases hwt
    · exact .inr ⟨hw', k, hle, hlt, by rw [hl, hk]⟩

theorem Collected.step {l l' : List Obj} {m : ℕ} (h : Collected s t l m) (hB : Base cfg s)
    (hstep : Step cfg s a s') (hl : ∀ o ∈ l, s.life o = .retired) (hl' : ∀ o ∈ l', o ∈ l)
    (hsub : (s.threadData t).scannedHzptrs ⊆ (s'.threadData t).scannedHzptrs) :
    Collected s' t l' m where
  cut o ho u := hstep.cut hB (hl o (hl' o ho)) (h.cut o (hl' o ho) u)
  spared o ho u hu := (h.spared o (hl' o ho) u hu).step hB hstep (hl o (hl' o ho)) hsub

/-- What is known about a thread's rounds is kept by every step. -/
theorem Watches.step {i : Fin n} (h : Watches cfg s t i) (hB : Base cfg s)
    (hstep : Step cfg s a s') (hi : a = .thread t → s.pc t ≠ .saveTS i.val)
    (hl : ∀ o ∈ s.bagAtEntry t, s.life o = .retired) (hbag : s'.bagAtEntry t = s.bagAtEntry t)
    (hsaved : (s'.threadData t).savedTS i = (s.threadData t).savedTS i) :
    Watches cfg s' t i := by
  obtain ⟨hbegun, hended, hann⟩ := hstep.since hB.phase hi
  have hcounts := hB.counts i
  refine ⟨?_, fun hle => ?_, fun hle => ?_⟩
  · rw [hbag, hsaved]
    have hround := hstep.round hB.phase i
    refine h.observed.step hcounts (hround.mono fun u hp o _ => ?_)
      fun u hu o ho => hstep.cut hB (hl o ho) (hu o ho)
    exact hp.elim (fun hp => .of_signalled hp o) fun hp => .of_not_restartable hp o
  · rw [hsaved] at hle
    rcases hann with heq | ⟨heq, hst, hb⟩ | ⟨heq, hst, hb⟩
    · exact hbegun (h.begun (heq ▸ hle))
    · exact hb
    · -- the counter is odd, so a round had begun before
      have hodd : s.announcedTS i % 2 = 1 := hcounts.mpr hst
      exact hbegun (h.begun (by unfold evenUp at hle ⊢; omega))
  · rw [hsaved] at hle
    rcases hann with heq | ⟨heq, hst, hb⟩ | ⟨heq, hst, hb⟩
    · exact hended (h.ended (heq ▸ hle))
    · have heven : s.announcedTS i % 2 ≠ 1 := fun ho => hcounts.mp ho hst
      exact hended (h.ended (by unfold evenUp at hle ⊢; omega))
    · have hodd : s.announcedTS i % 2 = 1 := hcounts.mpr hst
      exact hb (h.begun (by unfold evenUp at hle ⊢; omega))

/-! ### No other step invalidates an assertion -/

omit [DecidableEq Obj] in
theorem Entered.frame (h : Entered s t) (hf : Frame s s' t) : Entered s' t where
  flag := by rw [hf.threadData, h.flag]
  suffix := by rw [hf.threadData, hf.bagAtEntry]; exact h.suffix
  ne_nil := by rw [hf.bagAtEntry]; exact h.ne_nil
  saved := by rw [hf.threadData, hf.bagAtEntry, h.saved]

theorem LoWm.frame (h : LoWm cfg s t) (hB : Base cfg s) (hstep : Step cfg s a s')
    (ha : a ≠ .thread t) (hf : Frame s s' t) : LoWm cfg s' t where
  toEntered := h.toEntered.frame hf
  watches i := (h.watches i).step hB hstep (fun hat => absurd hat ha)
    (fun _ => h.life_eq hB) hf.bagAtEntry (by rw [hf.threadData])

theorem Round.frame (h : Round s t) (hB : Base cfg s) (hstep : Step cfg s a s')
    (ha : a ≠ .thread t) : Round s' t := by
  obtain ⟨i, hi⟩ := h
  exact ⟨i, (hstep.since hB.phase fun hat => absurd hat ha).ended hi⟩

omit [DecidableEq Obj] in
theorem Frame.batch (hf : Frame s s' t) (p : Path) : batch s' t p = batch s t p := by
  cases p with
  | hiWm => exact congrArg ThreadData.retiredBag hf.threadData
  | loWm => exact hf.bagAtEntry

theorem Mode.frame {p : Path} (h : Mode cond s t p) (hB : Base cfg s) (hstep : Step cfg s a s')
    (ha : a ≠ .thread t) (hf : Frame s s' t) : Mode cond s' t p := by
  cases p with
  | hiWm => trivial
  | loWm => exact ⟨h.1.frame hf, fun hc => (h.2 hc).frame hB hstep ha⟩

theorem Sending.frame {p : Path} (h : Sending cond s t p) (hB : Base cfg s)
    (hstep : Step cfg s a s') (ha : a ≠ .thread t) (hf : Frame s s' t) :
    Sending cond s' t p := by
  cases p with
  | hiWm => trivial
  | loWm =>
    unfold Sending
    rw [hf.threadData, hf.bagAtEntry]
    exact ⟨h.1, fun hc => (h.2 hc).frame hB hstep ha⟩

theorem Collected.frame {p : Path} {m : ℕ} (h : Collected s t (batch s t p) m)
    (hm : Mode cond s t p) (hB : Base cfg s) (hstep : Step cfg s a s') (hf : Frame s s' t) :
    Collected s' t (batch s' t p) m := by
  rw [hf.batch]
  exact h.step hB hstep (fun _ => hm.life_eq hB) (fun _ => id) (by rw [hf.threadData])

/-- A step of somebody else keeps what `t` knows. -/
theorem Own.frame {p : Pc Obj} (h : Own cfg cond s t p) (hB : Base cfg s)
    (hstep : Step cfg s a s') (ha : a ≠ .thread t) (hf : Frame s s' t) :
    Own cfg cond s' t p := by
  have hbag : (s'.threadData t).retiredBag = (s.threadData t).retiredBag := by
    rw [hf.threadData]
  have default : ((s.threadData t).firstLoEntryFlag = false → LoWm cfg s t) →
      (s'.threadData t).firstLoEntryFlag = false → LoWm cfg s' t := by
    intro h hfl
    rw [hf.threadData] at hfl
    exact (h hfl).frame hB hstep ha hf
  cases p with
  | saveTS i =>
    refine ⟨h.1.frame hf, fun j hj => ?_⟩
    exact (h.2 j hj).step hB hstep (fun hat => absurd hat ha) (fun _ => h.1.life_eq hB)
      hf.bagAtEntry (by rw [hf.threadData])
  | check i => exact LoWm.frame h hB hstep ha hf
  | announceStart => trivial
  | signal i =>
    intro o ho u hu
    rw [hbag] at ho
    exact hstep.cut hB (hB.life_eq ho) (h o ho u hu)
  | announceDone =>
    intro o ho u
    rw [hbag] at ho
    exact hstep.cut hB (hB.life_eq ho) (h o ho u)
  | collect p i =>
    exact ⟨h.1.frame hB hstep ha hf, fun hc => (h.2 hc).frame h.1 hB hstep hf⟩
  | collectGet p i sz ix =>
    refine ⟨h.1.frame hB hstep ha hf, fun hc => ?_⟩
    obtain ⟨hcol, hcome⟩ := h.2 hc
    refine ⟨hcol.frame h.1 hB hstep hf, fun o ho u hu => ?_⟩
    rw [hf.batch] at ho
    exact (hcome o ho u hu).step hB hstep (h.1.life_eq hB ho) (hcol.cut o ho u)
      (by rw [hf.threadData])
  | skipNewer =>
    exact ⟨h.1.frame hB hstep ha hf, fun hc =>
      Collected.frame (p := .loWm) (h.2 hc) h.1 hB hstep hf⟩
  | send p =>
    refine ⟨h.1.frame hB hstep ha hf, fun hc o ho u => ?_⟩
    rw [hbag] at ho
    exact (h.2 hc o ho u).step hB hstep (hB.life_eq ho) (by rw [hf.threadData])
  | unspare p => trivial
  | idle | startOp | addSaved o sz | add => exact default h

omit [DecidableEq Obj] in
/-- A thread that is thrown out of its read phase has no more to show than between two calls. -/
theorem Own.thrown_out (h : Own cfg cond s t (s.pc t)) (hB : Base cfg s)
    (hr : s.restartable t = true) : Own cfg cond s t .idle := by
  have hphase := hB.phase t
  have away : s.restartable t = false → Own cfg cond s t .idle := by
    intro hf
    rw [hr] at hf
    cases hf
  cases hpc : s.pc t with
  | idle => exact h.at hpc
  | addSaved o sz =>
    have hlo := h.at hpc
    exact hlo
  | startOp => exact away (hphase.at hpc).2.1
  | announceStart | announceDone => exact away (hphase.at hpc).1
  | _ => exact away (hphase.at hpc)

/-- The condition. A counter that has grown by two has passed the even value following the saved
one by two. -/
structure Meets (s : State n Obj) (a : Actor n) : Prop where
  round : ∀ t i : Fin n, a = .thread t → s.pc t = .check i.val →
    (s.threadData t).savedTS i + 2 ≤ s.announcedTS i →
    evenUp ((s.threadData t).savedTS i) + 2 ≤ s.announcedTS i

/-! ### Each step establishes the next assertion -/

omit [DecidableEq Obj] in
private theorem Entered.of_eq {d : ThreadData n Obj} {b : List Obj} (htd : s.threadData t = d)
    (hbag : s.bagAtEntry t = b) (hflag : d.firstLoEntryFlag = false) (hsuf : b <:+ d.retiredBag)
    (hne : b ≠ []) (hsaved : d.savedRetireBagBlockInfo = beginOf b) : Entered s t := by
  subst htd hbag
  exact ⟨hflag, hsuf, hne, hsaved⟩

omit [DecidableEq Obj] in
/-- Past the low watermark the thread adds to its bag, or takes newer records from it. -/
private theorem Entered.keep {d : ThreadData n Obj} (h : Entered s t)
    (htd : s'.threadData t = d) (hbag : s'.bagAtEntry t = s.bagAtEntry t)
    (hflag : d.firstLoEntryFlag = (s.threadData t).firstLoEntryFlag)
    (hsaved : d.savedRetireBagBlockInfo = (s.threadData t).savedRetireBagBlockInfo)
    (hsuf : s.bagAtEntry t <:+ d.retiredBag) : Entered s' t :=
  .of_eq htd hbag (hflag.trans h.flag) hsuf h.ne_nil (hsaved.trans h.saved)

omit [DecidableEq Obj] in
/-- A fresh observation. -/
private theorem Watches.now {i : Fin n} (h : (s.threadData t).savedTS i = s.announcedTS i) :
    Watches cfg s t i := by
  refine ⟨?_, fun hle => ?_, fun hle => ?_⟩
  · rw [h]
    exact Observed.now ..
  · rw [h] at hle
    unfold evenUp at hle
    omega
  · rw [h] at hle
    unfold evenUp at hle
    omega

omit [DecidableEq Obj] in
private theorem Mode.keep {d : ThreadData n Obj} {p : Path} (h : Mode cond s t p)
    (htd : s'.threadData t = d) (hbag : s'.bagAtEntry t = s.bagAtEntry t)
    (hflag : d.firstLoEntryFlag = (s.threadData t).firstLoEntryFlag)
    (hsaved : d.savedRetireBagBlockInfo = (s.threadData t).savedRetireBagBlockInfo)
    (hret : d.retiredBag = (s.threadData t).retiredBag)
    (hended : s'.endedSince t = s.endedSince t) : Mode cond s' t p := by
  cases p with
  | hiWm => trivial
  | loWm =>
    refine ⟨h.1.keep htd hbag hflag hsaved (hret ▸ h.1.suffix), fun hc => ?_⟩
    unfold Round
    rw [hended]
    exact h.2 hc

omit [DecidableEq Obj] in
private theorem batch_keep {d : ThreadData n Obj} (htd : s'.threadData t = d)
    (hbag : s'.bagAtEntry t = s.bagAtEntry t)
    (hret : d.retiredBag = (s.threadData t).retiredBag) (p : Path) :
    batch s' t p = batch s t p := by
  cases p with
  | hiWm => exact (congrArg ThreadData.retiredBag htd).trans hret
  | loWm => exact hbag

omit [DecidableEq Obj] in
private theorem own_threadData (s : State n Obj) (t : Fin n) (d : ThreadData n Obj) (p : Pc Obj) :
    (s.own t d p).threadData t = d :=
  update_self ..

private theorem subset_insertScanned (d : ThreadData n Obj) (hp : Option Obj) :
    d.scannedHzptrs ⊆ (d.insertScanned hp).scannedHzptrs := by
  cases hp with
  | none => exact subset_rfl
  | some hp => exact Finset.subset_insert _ _

private theorem mem_insertScanned {d : ThreadData n Obj} {hp : Option Obj} (h : hp = some o) :
    o ∈ (d.insertScanned hp).scannedHzptrs := by
  subst h
  exact Finset.mem_insert_self _ _

omit [DecidableEq Obj] in
private theorem Sending.keep {d : ThreadData n Obj} {p : Path} (h : Sending cond s t p)
    (htd : s'.threadData t = d) (hbag : s'.bagAtEntry t = s.bagAtEntry t)
    (hsub : ∀ o ∈ d.retiredBag, o ∈ (s.threadData t).retiredBag)
    (hended : s'.endedSince t = s.endedSince t) : Sending cond s' t p := by
  cases p with
  | hiWm => trivial
  | loWm =>
    refine ⟨fun o ho => ?_, fun hc => ?_⟩
    · rw [hbag]
      rw [htd] at ho
      exact h.1 o (hsub o ho)
    · unfold Round
      rw [hended]
      exact h.2 hc

private theorem LoWm.keep {d : ThreadData n Obj} (h : LoWm cfg s t) (hB : Base cfg s)
    (hstep : Step cfg s (.thread t) s') (hpc : ∀ i, s.pc t ≠ .saveTS i)
    (htd : s'.threadData t = d) (hbag : s'.bagAtEntry t = s.bagAtEntry t)
    (hflag : d.firstLoEntryFlag = (s.threadData t).firstLoEntryFlag)
    (hsaved : d.savedRetireBagBlockInfo = (s.threadData t).savedRetireBagBlockInfo)
    (hts : d.savedTS = (s.threadData t).savedTS)
    (hsuf : (s.threadData t).retiredBag <:+ d.retiredBag) : LoWm cfg s' t where
  toEntered := h.toEntered.keep htd hbag hflag hsaved (h.suffix.trans hsuf)
  watches i := (h.watches i).step hB hstep (fun _ => hpc _) (fun _ => h.life_eq hB) hbag
    (by rw [htd, hts])

/-- The step of the thread itself. -/
theorem Own.step (h : Own cfg cond s t (s.pc t)) (hB : Base cfg s)
    (hok : cond → Meets s (.thread t)) (hstep : Step cfg s (.thread t) s') :
    Own cfg cond s' t (s'.pc t) := by
  have hstep' := hstep
  -- between two calls, and where `retire` leaves what it knows alone
  have default : ∀ {p : Pc Obj} {d : ThreadData n Obj}, s.pc t = p → (∀ i, p ≠ .saveTS i) →
      ((s.threadData t).firstLoEntryFlag = false → LoWm cfg s t) →
      s'.threadData t = d → s'.bagAtEntry t = s.bagAtEntry t →
      d.firstLoEntryFlag = (s.threadData t).firstLoEntryFlag →
      d.savedRetireBagBlockInfo = (s.threadData t).savedRetireBagBlockInfo →
      d.savedTS = (s.threadData t).savedTS →
      (s.threadData t).retiredBag <:+ d.retiredBag →
      (s'.threadData t).firstLoEntryFlag = false → LoWm cfg s' t := by
    intro p d hpc hp hlo htd hbag hflag hsaved hts hsuf hfl
    rw [htd, hflag] at hfl
    exact (hlo hfl).keep hB hstep' (fun i => hpc ▸ hp i) htd hbag hflag hsaved hts hsuf
  have cut : ∀ {o : Obj} {u : Fin n}, o ∈ (s.threadData t).retiredBag → s.nz.Cut u o →
      s'.nz.Cut u o :=
    fun ho hc => hstep'.cut hB (hB.life_eq ho) hc
  cases hstep with
  | callStartOp _ hr hpc hrs =>
    -- an operation leaves the bags alone
    exact .intro (update_self ..)
      (default hpc (by simp) (h.at hpc) rfl rfl rfl rfl rfl List.suffix_rfl)
  | startOp _ hr hpc =>
    exact .intro (update_self ..)
      (default hpc (by simp) (h.at hpc) rfl rfl rfl rfl rfl List.suffix_rfl)
  | saveNull _ hr hpc hrs => exact h
  | callSave _ o hr hpc hrs ho hfull =>
    exact .intro (update_self ..)
      (default hpc (by simp) (h.at hpc) rfl rfl rfl rfl rfl List.suffix_rfl)
  | addSaved _ o sz hr hpc =>
    exact .intro (update_self ..)
      (default hpc (by simp) (h.at hpc) rfl rfl rfl rfl rfl List.suffix_rfl)
  | upgradeToWritePhase _ hr hpc hrs =>
    exact .intro hpc (default hpc (by simp) (h.at hpc) rfl rfl rfl rfl rfl List.suffix_rfl)
  | endOp _ hr hpc =>
    exact .intro hpc (default hpc (by simp) (h.at hpc) rfl rfl rfl rfl rfl List.suffix_rfl)
  | retireRequest _ o hr hpc hrs ho hout =>
    -- out of patience: the whole bag is the batch
    refine .intro (update_self ..) ?_
    cases cfg.variant with
    | nbr => exact fun o _ u hu => absurd hu (Nat.not_lt_zero _)
    | nbrPlus => trivial
  | retireEnterLoWm _ o rand hr hpc hrs ho hout hpast hfirst =>
    -- the low watermark is entered, and the bookmark is set
    refine .intro (update_self ..) ⟨?_, fun j hj => absurd hj (Nat.not_lt_zero _)⟩
    have hne : (s.threadData t).retiredBag ≠ [] := by
      intro hnil
      simp [ThreadData.isPastLoWatermark, hnil] at hpast
    exact .of_eq (update_self ..) (update_self ..) rfl List.suffix_rfl hne rfl
  | retireCheckLoWm _ o hr hpc hrs ho hout hpast hfirst =>
    exact .intro (update_self ..) ((h.at hpc hfirst).keep hB hstep' (by simp [hpc])
      (update_self ..) rfl rfl rfl rfl List.suffix_rfl)
  | retireAdd _ o hr hpc hrs ho hout hpast =>
    exact .intro (update_self ..)
      (default hpc (by simp) (h.at hpc) (update_self ..) rfl rfl rfl rfl List.suffix_rfl)
  | saveTS _ i hr hpc =>
    -- the counter of one more thread is saved
    obtain ⟨hent, hw⟩ := h.at hpc
    refine .intro (update_self ..) ⟨hent.keep (update_self ..) rfl rfl rfl hent.suffix,
      fun j hj => ?_⟩
    have htd : (update s.threadData t { s.threadData t with
        savedTS := update (s.threadData t).savedTS i (s.announcedTS i) } t).savedTS =
        update (s.threadData t).savedTS i (s.announcedTS i) := by
      rw [update_self]
    by_cases hji : j = i
    · -- the observation begins
      subst hji
      exact .now ((congrFun htd j).trans (update_self ..))
    · have hlt : j.val < i.val :=
        lt_of_le_of_ne (Nat.le_of_lt_succ hj) fun heq => hji (Fin.ext heq)
      refine (hw j hlt).step hB hstep' (fun _ => ?_) (fun _ => hent.life_eq hB) rfl
        ((congrFun htd j).trans (update_of_ne hji ..))
      rw [hpc]
      exact fun heq => hji (Fin.ext (Pc.saveTS.inj heq).symm)
  | saveTSEnd _ hr hpc =>
    -- all counters are saved, from now on they may be compared
    obtain ⟨hent, hw⟩ := h.at hpc
    refine .intro (update_self ..) ⟨hent.keep rfl rfl rfl rfl hent.suffix, fun i => ?_⟩
    refine (hw i i.isLt).step hB hstep' (fun _ => ?_) (fun _ => hent.life_eq hB) rfl rfl
    rw [hpc]
    exact fun heq => absurd (Pc.saveTS.inj heq) (Nat.ne_of_gt i.isLt)
  | checkNext _ i hr hpc hlt =>
    exact .intro (update_self ..) ((h.at hpc).keep hB hstep' (by simp [hpc]) rfl rfl rfl rfl rfl
      List.suffix_rfl)
  | checkHit _ i hr hpc hge =>
    -- the counter has passed, so a round of `i` has ended since the low watermark
    have hlo := h.at hpc
    refine .intro (update_self ..) ⟨⟨hlo.toEntered.keep (update_self ..) rfl rfl rfl hlo.suffix,
      fun hc => ?_⟩, fun hc => ⟨fun o ho u => ?_, fun o _ u hu => absurd hu (Nat.not_lt_zero _)⟩⟩
    · exact ⟨i, (hlo.watches i).ended ((hok hc).round t i rfl hpc hge)⟩
    · -- a whole round lies after the low watermark was entered
      have hround := (hok (hc rfl)).round t i rfl hpc hge
      exact hstep'.cut hB (hlo.life_eq hB ho) ((hlo.watches i).observed.served hround u o ho)
  | checkEnd _ hr hpc =>
    exact .intro (update_self ..)
      (default hpc (by simp) (fun _ => h.at hpc) rfl rfl rfl rfl rfl List.suffix_rfl)
  | announceStart _ hr hpc =>
    exact .intro (update_self ..) fun o _ u hu => absurd hu (Nat.not_lt_zero _)
  | signal _ i hr hpc hi =>
    -- whoever is signalled restarts, or has reserved what it uses
    refine .intro (update_self ..) fun o ho u hu => ?_
    rcases Nat.lt_succ_iff_lt_or_eq.mp hu with hlt | heq
    · exact cut ho (h.at hpc o ho u hlt)
    · obtain rfl : u = i := Fin.ext heq
      exact .of_signalled (update_self ..) o
  | signalSelf _ hr hpc =>
    refine .intro (update_self ..) fun o ho u hu => ?_
    rcases Nat.lt_succ_iff_lt_or_eq.mp hu with hlt | heq
    · exact cut ho (h.at hpc o ho u hlt)
    · obtain rfl : u = t := Fin.ext heq
      refine .of_not_restartable ?_ o
      exact (hB.phase u).at hpc
  | signalEnd _ hr hpc hv =>
    -- everybody is signalled, and the batch is the bag
    refine .intro (update_self ..) ⟨trivial, fun _ => ⟨fun o ho u => ?_, ?_⟩⟩
    · have ho' : o ∈ (s.threadData t).retiredBag := by
        simpa [batch, State.beginCollect, State.own] using ho
      exact cut ho' (h.at hpc o ho' u u.isLt)
    · exact fun o _ u hu => absurd hu (Nat.not_lt_zero _)
  | signalEndPlus _ hr hpc hv =>
    exact .intro (update_self ..) fun o ho u => cut ho (h.at hpc o ho u u.isLt)
  | announceDone _ hr hpc =>
    refine .intro (update_self ..) ⟨trivial, fun _ => ⟨fun o ho u => ?_, ?_⟩⟩
    · have ho' : o ∈ (s.threadData t).retiredBag := by
        simpa [batch, State.beginCollect, State.own, State.announceDone] using ho
      exact cut ho' (h.at hpc o ho' u)
    · exact fun o _ u hu => absurd hu (Nat.not_lt_zero _)
  | collect _ i path hr hpc =>
    -- the hazard pointers of one thread are read
    obtain ⟨hmode, hcol⟩ := h.at hpc
    refine .intro (update_self ..) ⟨hmode.keep rfl rfl rfl rfl rfl rfl, fun hc => ?_⟩
    have hcol' := (hcol hc).step hB hstep' (fun _ => hmode.life_eq hB) (fun _ => id) subset_rfl
    refine ⟨hcol', fun o ho u hu => ?_⟩
    obtain rfl : u = i := Fin.ext hu
    by_cases hw : s.writing u = true ∧ (s.proposedHzptrs u).Has o
    · obtain ⟨hwr, k, hlt, hk⟩ := hw
      exact .inr ⟨hwr, k, Nat.zero_le k, hlt, hk⟩
    · exact .inl (.inl ((hcol'.cut o ho u).not_canDereference fun hwr hsv => hw ⟨hwr, hsv⟩))
  | collectGet _ i path sz ix hr hpc hix =>
    -- one more record is inserted
    obtain ⟨hmode, hcol⟩ := h.at hpc
    have htd := own_threadData s t ((s.threadData t).insertScanned ((s.proposedHzptrs i).data ix))
      (.collectGet path i.val sz (ix + 1))
    have hsub : (s.threadData t).scannedHzptrs ⊆
        ((s.threadData t).insertScanned ((s.proposedHzptrs i).data ix)).scannedHzptrs :=
      subset_insertScanned ..
    refine .intro (update_self ..) ⟨hmode.keep htd rfl rfl rfl rfl rfl, fun hc => ?_⟩
    obtain ⟨hcol, hcome⟩ := hcol hc
    rw [batch_keep (s := s) htd rfl rfl path]
    have hsub' : (s.threadData t).scannedHzptrs ⊆ ((s.own t _ _).threadData t).scannedHzptrs :=
      hsub.trans (by rw [htd])
    refine ⟨hcol.step hB hstep' (fun _ => hmode.life_eq hB) (fun _ => id) hsub',
      fun o ho u hu => ?_⟩
    rw [htd]
    obtain rfl : u = i := Fin.ext hu
    rcases (hcome o ho u rfl).step hB hstep' (hmode.life_eq hB ho) (hcol.cut o ho u) hsub with
      hsp | ⟨hw, k, hle, hlt, hk⟩
    · exact .inl hsp
    · rcases Nat.lt_or_eq_of_le hle with hgt | rfl
      · exact .inr ⟨hw, k, hgt, hlt, hk⟩
      · -- this is the record just inserted
        exact .inl (.inr (mem_insertScanned hk))
  | collectNext _ i path sz ix hr hpc hix =>
    -- the records of the thread have been read
    obtain ⟨hmode, hcol⟩ := h.at hpc
    refine .intro (update_self ..) ⟨hmode.keep rfl rfl rfl rfl rfl rfl, fun hc => ?_⟩
    obtain ⟨hcol, hcome⟩ := hcol hc
    refine ⟨fun o ho u => hstep'.cut hB (hmode.life_eq hB ho) (hcol.cut o ho u),
      fun o ho u hu => ?_⟩
    have hold : Spared s (s.threadData t).scannedHzptrs u o := by
      rcases Nat.lt_succ_iff_lt_or_eq.mp hu with hlt | heq
      · exact hcol.spared o ho u hlt
      · rcases hcome o ho u heq with hsp | ⟨-, k, hle, hlt, -⟩
        · exact hsp
        · omega
    exact hold.step hB hstep' (hmode.life_eq hB ho) subset_rfl
  | collectEnd _ hr hpc =>
    obtain ⟨-, hcol⟩ := h.at hpc
    refine .intro (update_self ..) ⟨trivial, fun _ o ho u => ?_⟩
    exact ((hcol (by simp)).spared o ho u u.isLt).step hB hstep' (hB.life_eq ho) subset_rfl
  | collectEndLoWm _ hr hpc =>
    obtain ⟨hmode, hcol⟩ := h.at hpc
    exact .intro (update_self ..) ⟨hmode.keep rfl rfl rfl rfl rfl rfl, fun hc =>
      (hcol fun _ => hc).step hB hstep' (fun _ => hmode.life_eq hB) (fun _ => id) subset_rfl⟩
  | skipNewer _ o bag hr hpc hbag hnew =>
    -- the records after the bookmark are kept for the next time
    obtain ⟨hmode, hcol⟩ := h.at hpc
    have htd := own_threadData s t ((s.threadData t).spare o bag) .skipNewer
    have hsuf : s.bagAtEntry t <:+ bag := by
      have hold := hmode.1.suffix
      rw [hbag] at hold
      rw [hmode.1.saved, isNewer_iff hmode.1.ne_nil hold] at hnew
      exact (List.suffix_cons_iff.mp hold).resolve_left hnew
    refine .intro (update_self ..) ⟨⟨hmode.1.keep htd rfl rfl rfl hsuf, hmode.2⟩, fun hc => ?_⟩
    refine (hcol hc).step hB hstep' (fun _ => hmode.1.life_eq hB) (fun _ => id) ?_
    rw [htd]
    exact subset_rfl
  | skipEnd _ hr hpc hold =>
    obtain ⟨hmode, hcol⟩ := h.at hpc
    -- the bag is back to what it was when the low watermark was entered
    have heq : s.bagAtEntry t = (s.threadData t).retiredBag := by
      by_contra hne
      rw [hmode.1.saved, (isNewer_iff hmode.1.ne_nil hmode.1.suffix).mpr hne] at hold
      cases hold
    refine .intro (update_self ..) ⟨⟨fun o ho => heq ▸ ho, hmode.2⟩, fun hc o ho u => ?_⟩
    exact ((hcol (hc rfl)).spared o (heq ▸ ho) u u.isLt).step hB hstep' (hB.life_eq ho) subset_rfl
  | sendSpare _ path o bag hr hpc hbag hmem =>
    -- the record is reserved: it is kept
    obtain ⟨hsend, hsp⟩ := h.at hpc
    have htd := own_threadData s t ((s.threadData t).spare o bag) (.send path)
    have hsub : ∀ x ∈ bag, x ∈ (s.threadData t).retiredBag :=
      fun x hx => hbag ▸ List.mem_cons_of_mem o hx
    refine .intro (update_self ..) ⟨hsend.keep htd rfl hsub rfl, fun hc x hx u => ?_⟩
    rw [htd] at hx ⊢
    exact (hsp hc x (hsub x hx) u).step hB hstep' (hB.life_eq (hsub x hx)) subset_rfl
  | sendFree _ path o bag hr hpc hbag hmem =>
    -- the record is free: nobody reads it, and nobody has reserved it
    obtain ⟨hsend, hsp⟩ := h.at hpc
    have htd := own_threadData s t { s.threadData t with retiredBag := bag } (.send path)
    have hsub : ∀ x ∈ bag, x ∈ (s.threadData t).retiredBag :=
      fun x hx => hbag ▸ List.mem_cons_of_mem o hx
    refine .intro (update_self ..) ⟨hsend.keep htd rfl hsub rfl, fun hc => ?_⟩
    show ∀ x ∈ (update s.threadData t { s.threadData t with retiredBag := bag } t).retiredBag,
      ∀ u, Spared _ (update s.threadData t { s.threadData t with retiredBag := bag } t).scannedHzptrs
        u x
    rw [update_self]
    exact fun x hx u => (hsp hc x (hsub x hx) u).step hB hstep' (hB.life_eq (hsub x hx)) subset_rfl
  | sendEnd _ path hr hpc hbag => exact .intro (update_self ..) trivial
  | unspare _ path o spare hr hpc hspare => exact .intro (update_self ..) trivial
  | unspareEnd _ path hr hpc hspare =>
    -- the reclamation is over, and the low watermark with it
    refine .intro (update_self ..) fun hfl => ?_
    have htrue : ((s.threadData t).afterReclaim cfg.variant).firstLoEntryFlag = true := by
      cases hv : cfg.variant with
      | nbr => exact hB.plain hv t
      | nbrPlus => rfl
    have hfl' : (update s.threadData t _ t).firstLoEntryFlag = false := hfl
    rw [update_self, htrue] at hfl'
    cases hfl'
  | add _ o hr hpc ho =>
    exact .intro (update_self ..) (default hpc (by simp) (h.at hpc) (update_self ..) rfl rfl rfl rfl
      (List.suffix_cons ..))

/-! ### The invariant of the runs -/

/-- What holds in every state of a run; `cond` says whether its steps meet the condition. -/
structure Inv (cfg : Config n) (cond : Prop) (s : State n Obj) : Prop where
  base : Base cfg s
  own : ∀ t, Own cfg cond s t (s.pc t)

omit [DecidableEq Obj] in
theorem Inv.initial : Inv cfg cond (State.initial cfg Obj) :=
  ⟨Base.initial, fun _ => nofun⟩

theorem Inv.step (hI : Inv cfg cond s) (hok : cond → Meets s a) (hstep : Step cfg s a s') :
    Inv cfg cond s' where
  base := hI.base.step hstep
  own t := by
    by_cases ha : a = .thread t
    · subst ha
      exact (hI.own t).step hI.base hok hstep
    · have hf := hstep.frame ha
      rcases hf.pc with ⟨hpc, -⟩ | ⟨hr, hpc⟩
      · rw [hpc]
        exact (hI.own t).frame hI.base hstep ha hf
      · rw [hpc]
        exact ((hI.own t).thrown_out hI.base hr).frame hI.base hstep ha hf

theorem Inv.reachedBy (h : (system cfg).ReachableBy Meets s) : Inv cfg True s := by
  refine h.invariant ?_ fun _ _ _ _ hI hok hstep => hI.step (fun _ => hok) hstep
  rintro _ rfl
  exact Inv.initial

theorem Inv.reachable (h : (system cfg).Reachable s) : Inv cfg False s := by
  refine Lts.ReachableBy.invariant ?_ (fun _ _ _ _ hI _ hstep => hI.step False.elim hstep) h
  rintro _ rfl
  exact Inv.initial

end Steps

/-! ### Safety -/

variable {cfg : Config n} {s : State n Obj}

/-- The next step of thread `t` passes `o` to the pool. -/
def PassesToPool (s : State n Obj) (t : Fin n) (path : Path) (o : Obj) : Prop :=
  ∃ bag, s.pc t = .send path ∧ (s.threadData t).retiredBag = o :: bag ∧
    o ∉ (s.threadData t).scannedHzptrs

/-- Thread `u` is in a read phase that began before `o` was unlinked, and no signal is about to
throw it out. -/
def ReadsOld (s : State n Obj) (u : Fin n) (o : Obj) : Prop :=
  s.restartable u = true ∧ s.met u o = true ∧ s.pending u = false

/-- Thread `u` is past `upgradeToWritePhase` and has `o` in its `proposedHzptrs`. -/
def WritesSaved (s : State n Obj) (u : Fin n) (o : Obj) : Prop :=
  s.writing u = true ∧ (s.proposedHzptrs u).Has o

/-- What is freed at the high watermark nobody can dereference. -/
def HiWmSafe (s : State n Obj) : Prop :=
  ∀ t o, PassesToPool s t .hiWm o → ∀ u, ¬ ReadsOld s u o ∧ ¬ WritesSaved s u o

/-- What is freed at the low watermark was in the bag when the low watermark was entered, a whole
signalling round lies in between, and nobody can dereference it. -/
def LoWmSafe (s : State n Obj) : Prop :=
  ∀ t o, PassesToPool s t .loWm o →
    o ∈ s.bagAtEntry t ∧ (∃ i, s.endedSince t i = true) ∧
      ∀ u, ¬ ReadsOld s u o ∧ ¬ WritesSaved s u o

theorem not_canDereference_iff {u : Fin n} {o : Obj} :
    ¬ s.nz.CanDereference u o ↔ ¬ ReadsOld s u o ∧ ¬ WritesSaved s u o := by
  rw [← not_or]
  refine not_congr (or_congr ?_ Iff.rfl)
  exact ⟨fun ⟨hr, hs, hm⟩ => ⟨hr, hm, hs⟩, fun ⟨hr, hm, hs⟩ => ⟨hr, hs, hm⟩⟩

theorem Inv.safe {cond : Prop} (hI : Inv cfg cond s) {t : Fin n} {p : Path} {o : Obj}
    (hp : PassesToPool s t p o) (hc : p = .loWm → cond) (u : Fin n) :
    ¬ ReadsOld s u o ∧ ¬ WritesSaved s u o := by
  obtain ⟨bag, hpc, hbag, hmem⟩ := hp
  have hsp := ((hI.own t).at hpc).2 hc o (hbag ▸ List.mem_cons_self ..) u
  exact not_canDereference_iff.mp (hsp.resolve_right hmem)

variable [DecidableEq Obj]

/-- **High watermark.** -/
theorem nbr_hiWm_safe (h : (system cfg).Reachable s) : HiWmSafe s :=
  fun _ _ hp => (Inv.reachable h).safe hp nofun

/-- **Low watermark.** In every run that meets the condition. -/
theorem nbr_loWm_safe (h : (system cfg).ReachableBy Meets s) : LoWmSafe s := by
  have hI := Inv.reachedBy h
  intro t o hp
  refine ⟨?_, ?_, hI.safe hp fun _ => trivial⟩
  · obtain ⟨bag, hpc, hbag, hmem⟩ := hp
    exact ((hI.own t).at hpc).1.1 o (hbag ▸ List.mem_cons_self ..)
  · obtain ⟨bag, hpc, hbag, hmem⟩ := hp
    exact ((hI.own t).at hpc).1.2 trivial

/-! ### Schedules -/

section Schedule

variable {ok : State n ℕ → Actor n → Prop} (hok : ∀ s a, Plain s a → ok s a)

omit hok in
private theorem Calm.initial (t : Fin n) : Calm (State.initial cfg ℕ) t :=
  ⟨rfl, rfl, rfl, rfl, nofun⟩

include hok

/-- Nobody has saved a record: thread `t` is about to free the newest record of its bag. -/
private theorem reach_frees {s : State n ℕ} {t : Fin n}
    (hR : (system cfg).ReachableBy ok (s.goto t (.collect .hiWm 0))) (hp : s.pending t = false)
    (hsize : ∀ i, (s.proposedHzptrs i).size = 0) (hscan : (s.threadData t).scannedHzptrs = ∅)
    {o : ℕ} {b : List ℕ} (hbag : (s.threadData t).retiredBag = o :: b) :
    ∃ s', (system cfg).ReachableBy ok s' ∧ PassesToPool s' t .hiWm o := by
  have hpc : (s.goto t (.collect .hiWm n)).pc t = .collect .hiWm n := State.goto_pc ..
  have hR₁ := reach_plain hok (reach_collected hok hR hp hsize) (.collectEnd _ t hp hpc) hpc
    (by simp)
  refine ⟨_, hR₁, b, State.goto_pc .., hbag, ?_⟩
  show o ∉ (s.threadData t).scannedHzptrs
  rw [hscan]
  exact Finset.notMem_empty o

/-- The counter of thread `i` is the first to have grown by two: thread `t` is about to free the
newest record of its bag. -/
private theorem reach_lowered {s : State n ℕ} {t i : Fin n}
    (hR : (system cfg).ReachableBy ok (s.goto t (.check 0))) (hp : s.pending t = false)
    (hmiss : ∀ j : Fin n, j.val < i.val → s.announcedTS j < (s.threadData t).savedTS j + 2)
    (hhit : (s.threadData t).savedTS i + 2 ≤ s.announcedTS i)
    (hokhit : ok (s.goto t (.check i.val)) (.thread t))
    (hsize : ∀ i, (s.proposedHzptrs i).size = 0)
    (hinfo : (s.threadData t).savedRetireBagBlockInfo = beginOf (s.threadData t).retiredBag)
    {o : ℕ} {b : List ℕ} (hbag : (s.threadData t).retiredBag = o :: b) :
    ∃ s', (system cfg).ReachableBy ok s' ∧ Local (fun _ => False) s s' t ∧
      PassesToPool s' t .loWm o := by
  have hpc₁ : (s.goto t (.check i.val)).pc t = .check i.val := State.goto_pc ..
  have hR₁ := (reach_checked hok i.isLt.le hR hp hmiss).step (.checkHit _ t i hp hpc₁ hhit) hokhit
  let s₂ : State n ℕ := s.own t { s.threadData t with scannedHzptrs := ∅ } .idle
  have hR₂ : (system cfg).ReachableBy ok (s₂.goto t (.collect .loWm 0)) := by
    simpa only [s₂, State.beginCollect, State.own, State.goto, update_idem] using hR₁
  have htd₂ : s₂.threadData t = { s.threadData t with scannedHzptrs := ∅ } := update_self ..
  have hpc₃ : (s₂.goto t (.collect .loWm n)).pc t = .collect .loWm n := State.goto_pc ..
  have hR₃ := reach_plain hok (reach_collected hok hR₂ hp hsize) (.collectEndLoWm _ t hp hpc₃)
    hpc₃ (by simp)
  rw [State.goto_goto] at hR₃
  have hpc₄ : (s₂.goto t .skipNewer).pc t = .skipNewer := State.goto_pc ..
  have hold : isNewer (beginOf (s₂.threadData t).retiredBag)
      (s₂.threadData t).savedRetireBagBlockInfo = false := by
    rw [htd₂]
    show isNewer (beginOf (s.threadData t).retiredBag)
      (s.threadData t).savedRetireBagBlockInfo = false
    rw [hinfo]
    have hne : (s.threadData t).retiredBag ≠ [] := by simp [hbag]
    exact eq_false_of_ne_true fun h => (isNewer_iff hne List.suffix_rfl).mp h rfl
  have hR₄ := reach_plain hok hR₃ (.skipEnd _ t hp hpc₄ hold) hpc₄ (by simp)
  rw [State.goto_goto] at hR₄
  refine ⟨_, hR₄, (Local.own _ s t _ .idle).trans (.goto ..) fun _ => id, b, State.goto_pc ..,
    ?_, ?_⟩
  · show (s₂.threadData t).retiredBag = _
    rw [htd₂]
    exact hbag
  · show o ∉ (s₂.threadData t).scannedHzptrs
    rw [htd₂]
    exact Finset.notMem_empty o

end Schedule

/-- Thread `0` of NBR retires 32769 records. With the next one it is out of patience: it signals
thread `1` and frees. -/
theorem nbr_hiWm_safe_of_signalled :
    ∃ (s : State 2 ℕ) (o : ℕ), PassesToPool s 0 .hiWm o ∧ HiWmSafe s := by
  have hok : ∀ (s : State 2 ℕ) a, Plain s a → (fun _ _ => True : _ → _ → Prop) s a :=
    fun _ _ _ => trivial
  have hR₀ : (system (Config.nbr 2)).ReachableBy (fun _ _ => True) (State.initial _ ℕ) := .init rfl
  obtain ⟨s₁, hR₁, hc₁, hl₁, hlen₁, -, -⟩ :=
    (Calm.initial 0).retires hok hR₀ 0 32769 (fun _ _ _ => rfl) (by decide)
  have hlen : (s₁.threadData 0).retiredBag.length = 32769 := hlen₁
  obtain ⟨s₂, hR₂, hl₂, htd₂⟩ := hc₁.request hok hR₁ (x := 40000) (hl₁.life _ (by omega)) (by
    rw [hlen]
    decide)
  have hp₂ : s₂.pending 0 = false := by
    rw [hl₂.pending]
    exact hc₁.pending
  obtain ⟨pend, hR₃, hp₃, -⟩ := reach_signalled hok (Nat.zero_le 2) le_rfl hR₂ hp₂
  have hR₄ := reach_plain hok hR₃ (.signalEnd _ 0 hp₃ (State.goto_pc ..) rfl) (State.goto_pc ..)
    (by simp)
  unfold State.beginCollect at hR₄
  rw [← State.own_goto _ _ _ .idle] at hR₄
  obtain ⟨o, bag, hbag⟩ := List.exists_cons_of_length_pos (l := (s₁.threadData 0).retiredBag)
    (by omega)
  obtain ⟨s₅, hR₅, hfree⟩ := reach_frees hok hR₄ hp₃ (o := o) (b := bag)
    (fun i => by
      show (s₂.proposedHzptrs i).size = 0
      rw [hl₂.proposedHzptrs, hl₁.proposedHzptrs]
      rfl)
    (by simp [State.own])
    (by
      show (update s₂.threadData 0 { s₂.threadData 0 with scannedHzptrs := ∅ } 0).retiredBag = _
      rw [update_self, htd₂]
      exact hbag)
  exact ⟨s₅, o, hfree, nbr_hiWm_safe hR₅⟩

/-- Thread `0` of NBR+ enters the low watermark with 12289 records; then thread `1`, with 24577, is
out of patience and signals. Thread `0` frees. -/
theorem nbr_loWm_safe_of_round :
    ∃ (s : State 2 ℕ) (o : ℕ), PassesToPool s 0 .loWm o ∧ LoWmSafe s := by
  have hok : ∀ (s : State 2 ℕ) a, Plain s a → Meets s a := fun s a h =>
    ⟨fun t i ha hpc hge => absurd (h t i ha hpc) (Nat.not_lt_of_le hge)⟩
  have hR₀ : (system (Config.nbrPlus 2)).ReachableBy Meets (State.initial _ ℕ) := .init rfl
  obtain ⟨s₁, hR₁, hc₁, hl₁, hlen₁, -, -⟩ :=
    (Calm.initial 1).retires hok hR₀ 0 24577 (fun _ _ _ => rfl) (by decide)
  obtain ⟨s₂, hR₂, hc₂, hl₂, hlen₂, -, hlow₂⟩ :=
    ((Calm.initial 0).of_local hl₁ (by decide)).retires hok hR₁ 30000 12289
      (fun o _ _ => hl₁.life o (by omega)) (by
        rw [hl₁.threadData 0 (by decide)]
        decide)
  have htd₂ : s₂.threadData 1 = s₁.threadData 1 := hl₂.threadData 1 (by decide)
  have hlen₂' : (s₂.threadData 0).retiredBag.length = 12289 := by
    rw [hlen₂, hl₁.threadData 0 (by decide)]
    rfl
  have hflag₁ : (s₁.threadData 0).firstLoEntryFlag = true ∧
      (s₁.threadData 0).numRetiresSinceLoWatermark = 0 ∧ (s₁.threadData 0).retiredBag = [] := by
    rw [hl₁.threadData 0 (by decide)]
    exact ⟨rfl, rfl, rfl⟩
  obtain ⟨hfl₂, hnum₂⟩ := hlow₂ (by rw [hflag₁.2.2]; decide) (by rw [hflag₁.2.2]; decide) hflag₁.1
  obtain ⟨s₃, hR₃, hl₃, hts₃, hbag₃, hinfo₃⟩ := hc₂.enter hok hR₂ (x := 50000)
    ((hl₂.life _ (by omega)).trans (hl₁.life _ (by omega))) rfl (by rw [hlen₂']; decide)
    (by rw [hlen₂']; decide) hfl₂ (hnum₂.trans hflag₁.2.1)
  -- the round of thread `1`
  have hl₃' : Local (· = 50000) s₂ (s₃.goto 0 (.check 0)) 0 := hl₃.trans (.goto ..) fun _ => id
  have hc₃ : Calm (s₃.goto 0 (.check 0)) 1 :=
    (hc₁.of_local hl₂ (by decide)).of_local hl₃' (by decide)
  obtain ⟨s₄, hR₄, hl₄, htd₄⟩ := hc₃.announce hok hR₃ (x := 60000)
    ((hl₃'.life _ (by decide)).trans ((hl₂.life _ (by omega)).trans (hl₁.life _ (by omega)))) rfl
    (by
      rw [hl₃'.threadData 1 (by decide), htd₂, hlen₁]
      decide)
  obtain ⟨pend, hR₅, hp₅, hpend₅⟩ := reach_signalled hok (Nat.zero_le 2) le_rfl hR₄ (by
    show s₄.pending 1 = false
    rw [hl₄.pending, hc₃.pending])
  have hhz : s₄.proposedHzptrs = (State.initial (Config.nbrPlus 2) ℕ).proposedHzptrs := by
    rw [hl₄.proposedHzptrs, hl₃'.proposedHzptrs, hl₂.proposedHzptrs, hl₁.proposedHzptrs]
  obtain ⟨s₆, hR₆, hc₆, hl₆, -⟩ := reach_concluded (o := 60000) hok hR₅ rfl hp₅
    (by
      show s₄.restartable 1 = false
      rw [hl₄.restartable, hc₃.restartable])
    (fun i => congrArg AtomicArrayList.size (congrFun hhz i))
    (by
      show (s₄.threadData 1).spareMeBag = []
      rw [htd₄]
      exact hc₃.spare)
    (by
      show (s₄.threadData 1).record = some 60000
      rw [htd₄])
  -- thread `0` handles the signal
  have hp₆ : s₆.pending 0 = true := by
    rw [hl₆.pending]
    show pend 0 = true
    rw [hpend₅ 0 (by decide)]
    simp
  have hr₆ : s₆.restartable 0 = false := by
    rw [hl₆.restartable]
    show s₄.restartable 0 = false
    rw [hl₄.restartable]
    exact (hl₃.restartable ▸ hc₂.restartable : s₃.restartable 0 = false)
  have hR₇ := hR₆.step (.handlerReturn s₆ 0 hp₆ hr₆) (hok _ _ (.handler _ _))
  have hpc₆ : s₆.pc 0 = .check 0 := by
    rw [hl₆.pc 0 (by decide)]
    show s₄.pc 0 = .check 0
    rw [hl₄.pc 0 (by decide)]
    exact State.goto_pc ..
  have htd₆ : s₆.threadData 0 = s₃.threadData 0 := by
    rw [hl₆.threadData 0 (by decide)]
    exact hl₄.threadData 0 (by decide)
  have hann₂ : ∀ i, s₂.announcedTS i = 0 := by
    intro i
    rw [hl₂.announcedTS, hl₁.announcedTS]
    rfl
  have hann₄ : ∀ i, s₄.announcedTS i = 0 := by
    intro i
    rw [hl₄.announcedTS, hl₃'.announcedTS]
    exact hann₂ i
  have hts : ∀ i, (s₆.threadData 0).savedTS i = 0 := by
    intro i
    rw [htd₆, hts₃, hann₂]
  have hann₆ : s₆.announcedTS 0 = 0 ∧ s₆.announcedTS 1 = 2 := by
    rw [hl₆.announcedTS]
    simp [State.announceDone, State.announceStart, hann₄]
  obtain ⟨o, bag, hbag⟩ := List.exists_cons_of_length_pos (l := (s₂.threadData 0).retiredBag)
    (by omega)
  let s₇ : State 2 ℕ := { s₆ with pending := update s₆.pending 0 false }
  have hR₇' : (system (Config.nbrPlus 2)).ReachableBy Meets (s₇.goto 0 (.check 0)) := by
    rw [State.goto_self (s := s₇) hpc₆]
    exact hR₇
  obtain ⟨s₈, hR₈, -, hfree⟩ := reach_lowered hok (i := 1) (o := o) (b := bag) hR₇' rfl
    (fun j hj => by
      obtain rfl : j = 0 := by omega
      show s₆.announcedTS 0 < (s₆.threadData 0).savedTS 0 + 2
      rw [hann₆.1]
      omega)
    (by
      show (s₆.threadData 0).savedTS 1 + 2 ≤ s₆.announcedTS 1
      rw [hts, hann₆.2])
    ⟨fun t i ha hpc _ => by
      obtain rfl := Actor.thread.inj ha
      have hi : i = 1 := Fin.ext (Pc.check.inj ((State.goto_pc ..).symm.trans hpc)).symm
      subst hi
      show evenUp ((s₆.threadData 0).savedTS 1) + 2 ≤ s₆.announcedTS 1
      rw [hts, hann₆.2]
      decide⟩
    (fun i => by
      show (s₆.proposedHzptrs i).size = 0
      rw [hl₆.proposedHzptrs]
      exact congrArg AtomicArrayList.size (congrFun hhz i))
    (by
      show (s₆.threadData 0).savedRetireBagBlockInfo = beginOf (s₆.threadData 0).retiredBag
      rw [htd₆, hinfo₃, hbag₃])
    (by
      show (s₆.threadData 0).retiredBag = o :: bag
      rw [htd₆, hbag₃, hbag])
  exact ⟨s₈, o, hfree, nbr_loWm_safe hR₈⟩

/-- Thread `1` is in its first round and has signalled thread `0` only, which then begins to read.
Record `0` is unlinked, and thread `2` retires it and enters the low watermark, with 1 as the saved
counter of thread `1`. Thread `1` ends its round and begins another: its counter is 3, and nobody has
been signalled in between but thread `2`. -/
theorem nbr_loWm_unsafe :
    ¬ ∀ s : State 3 ℕ, (system (Config.nbrPlus 3)).Reachable s → LoWmSafe s := by
  intro hall
  have hok : ∀ (s : State 3 ℕ) a, Plain s a → (fun _ _ => True : _ → _ → Prop) s a :=
    fun _ _ _ => trivial
  let cfg := Config.nbrPlus 3
  have hR₀ : (system cfg).Reachable (State.initial cfg ℕ) := .init rfl
  -- thread `1` retires 24577 records, and thread `2` 12288
  obtain ⟨s₁, hR₁, hc₁, hl₁, hlen₁, hmem₁, -⟩ :=
    (Calm.initial 1).retires hok hR₀ 10 24577 (fun _ _ _ => rfl) (by decide)
  obtain ⟨s₂, hR₂, hc₂, hl₂, hlen₂, -, hlow₂⟩ :=
    ((Calm.initial 2).of_local hl₁ (by decide)).retires hok hR₁ 30000 12288
      (fun o _ _ => hl₁.life o (by omega)) (by
        rw [hl₁.threadData 2 (by decide)]
        decide)
  have hflag₁ : (s₁.threadData 2).firstLoEntryFlag = true ∧
      (s₁.threadData 2).numRetiresSinceLoWatermark = 0 ∧ (s₁.threadData 2).retiredBag = [] := by
    rw [hl₁.threadData 2 (by decide)]
    exact ⟨rfl, rfl, rfl⟩
  have hlen₂' : (s₂.threadData 2).retiredBag.length = 12288 := by
    rw [hlen₂, hflag₁.2.2, List.length_nil, Nat.zero_add]
  obtain ⟨hfl₂, hnum₂⟩ := hlow₂ (by rw [hflag₁.2.2]; decide) (by rw [hflag₁.2.2]; decide) hflag₁.1
  -- the first round begins
  obtain ⟨s₃, hR₃, hl₃, htd₃⟩ := (hc₁.of_local hl₂ (by decide)).announce hok hR₂ (x := 50000)
    ((hl₂.life _ (by omega)).trans (hl₁.life _ (by omega))) rfl (by
      rw [hl₂.threadData 1 (by decide), hlen₁]
      decide)
  have hp₃ : ∀ u, s₃.pending u = false := by
    intro u
    rw [hl₃.pending, hl₂.pending, hl₁.pending]
    rfl
  have hr₃ : ∀ u, s₃.restartable u = false := by
    intro u
    rw [hl₃.restartable, hl₂.restartable, hl₁.restartable]
    rfl
  have hhz₃ : ∀ u, (s₃.proposedHzptrs u).size = 0 := by
    intro u
    rw [hl₃.proposedHzptrs, hl₂.proposedHzptrs, hl₁.proposedHzptrs]
    rfl
  have hann₃ : ∀ u, s₃.announcedTS u = 0 := by
    intro u
    rw [hl₃.announcedTS, hl₂.announcedTS, hl₁.announcedTS]
    rfl
  have hpc₃ : s₃.pc 0 = .idle ∧ s₃.pc 2 = .idle := by
    rw [hl₃.pc 0 (by decide), hl₃.pc 2 (by decide), hl₂.pc 0 (by decide), hl₁.pc 0 (by decide)]
    exact ⟨rfl, hc₂.pc⟩
  have hlife₃ : ∀ o, o < 10 ∨ 60000 < o → s₃.life o = .pooled := fun o ho =>
    (hl₃.life _ (by omega)).trans ((hl₂.life _ (by omega)).trans (hl₁.life _ (by omega)))
  have htd₃' : s₃.threadData 2 = s₂.threadData 2 := hl₃.threadData 2 (by decide)
  -- thread `0` is signalled, and handles the signal
  obtain ⟨pend, hR₄, hp₄, hpend₄⟩ := reach_signalled hok (Nat.zero_le 1) (by decide) hR₃ (hp₃ 1)
  let s₄ : State 3 ℕ := { s₃.announceStart 1 with pending := pend }.goto 1 (.signal 1)
  have hpend : s₄.pending 0 = true := by
    show pend 0 = true
    rw [hpend₄ 0 (by decide)]
    simp
  have hR₅ := Lts.Reachable.step hR₄ (.handlerReturn s₄ 0 hpend (hr₃ 0))
  let s₅ : State 3 ℕ := { s₄ with pending := update s₄.pending 0 false }
  -- it begins a read phase while record `0` is linked, which then is unlinked
  have hR₆ : (system cfg).Reachable (s₅.reading 0 0) :=
    reach_reading hok hR₅ hpc₃.1 rfl (hr₃ 0) (hlife₃ 0 (by decide))
  -- thread `2` retires the record and enters the low watermark
  have hc₆ : Calm (s₅.reading 0 0) 2 := by
    refine ⟨hpc₃.2, ?_, hr₃ 2, ?_, ?_⟩
    · show pend 2 = false
      rw [hpend₄ 2 (by decide)]
      simp [State.announceStart, hp₃]
    · show (s₃.threadData 2).spareMeBag = []
      rw [htd₃']
      exact hc₂.spare
    · show (s₃.threadData 2).firstLoEntryFlag = false → _
      rw [htd₃', hfl₂]
      exact fun h => absurd h.symm Bool.false_ne_true
  have htd₆ : (s₅.reading 0 0).threadData 2 = s₂.threadData 2 := htd₃'
  obtain ⟨s₇, hR₇, hc₇, hl₇, hbag₇, hlow₇⟩ := hc₆.retire hok hR₆ (o := 0) rfl (by
    rw [htd₆, hlen₂']
    decide)
  obtain ⟨hfl₇, hnum₇⟩ := hlow₇ (by rw [htd₆, hlen₂']; decide) (by rw [htd₆, hfl₂])
  rw [htd₆] at hbag₇ hnum₇
  have hlife₇ : ∀ o, 60000 < o → s₇.life o = .pooled := fun o ho =>
    (hl₇.life o (by omega)).trans ((update_of_ne (by omega) ..).trans (hlife₃ o (.inr ho)))
  obtain ⟨s₈, hR₈, hl₈, hts₈, hbag₈, hinfo₈⟩ := hc₇.enter hok hR₇ (x := 70000)
    (hlife₇ _ (by omega)) rfl (by rw [hbag₇, List.length_cons, hlen₂']; decide)
    (by rw [hbag₇, List.length_cons, hlen₂']; decide) hfl₇ (hnum₇.trans (hnum₂.trans hflag₁.2.1))
  -- thread `1` ends its round
  let s₉ : State 3 ℕ := s₈.goto 2 (.check 0)
  have hl₉ : Local (fun o => o = 0 ∨ o = 70000) (s₅.reading 0 0) s₉ 2 :=
    (hl₇.mono fun _ => .inl).trans
      ((hl₈.trans (.goto _ s₈ 2 (.check 0)) fun _ => id).mono fun _ => .inr) fun _ => id
  have hpc₉ : s₉.pc 1 = .signal 1 := hl₉.pc 1 (by decide)
  have htd₉ : s₉.threadData 1 = s₃.threadData 1 := hl₉.threadData 1 (by decide)
  have hhz₉ : ∀ u, (s₉.proposedHzptrs u).size = 0 := by
    intro u
    rw [hl₉.proposedHzptrs]
    show (update s₃.proposedHzptrs 0 { s₃.proposedHzptrs 0 with size := 0 } u).size = 0
    by_cases hu : u = 0
    · rw [hu, update_self]
    · rw [update_of_ne hu]
      exact hhz₃ u
  have hr₉ : s₉.restartable = update s₃.restartable 0 true := hl₉.restartable
  have hp₉ : s₉.pending = update pend 0 false := hl₉.pending
  have hann₉ : s₉.announcedTS = update s₃.announcedTS 1 (s₃.announcedTS 1 + 1) := hl₉.announcedTS
  have hR₉ : (system cfg).Reachable (s₉.goto 1 (.signal 1)) := by
    rw [State.goto_self hpc₉]
    exact hR₈
  obtain ⟨pend', hR₁₀, hp₁₀, hpend₁₀⟩ := reach_signalled hok (b := 3) (by decide) (by decide) hR₉ (by
    rw [hp₉, update_of_ne (by decide)]
    exact hp₄)
  obtain ⟨s₁₁, hR₁₁, hc₁₁, hl₁₁, hbag₁₁⟩ := reach_concluded (o := 50000) hok hR₁₀ rfl hp₁₀
    (by
      show s₉.restartable 1 = false
      rw [hr₉, update_of_ne (by decide), hr₃])
    hhz₉
    (by
      show (s₉.threadData 1).spareMeBag = []
      rw [htd₉, htd₃, hl₂.threadData 1 (by decide)]
      exact hc₁.spare)
    (by
      show (s₉.threadData 1).record = some 50000
      rw [htd₉, htd₃])
  -- thread `2` handles the signal, and thread `1` retires 24576 more records
  have hp₁₁ : s₁₁.pending = pend' := hl₁₁.pending
  have hr₁₁ : s₁₁.restartable = s₉.restartable := hl₁₁.restartable
  have hpend₁₁ : s₁₁.pending 2 = true := by
    rw [hp₁₁, hpend₁₀ 2 (by decide)]
    simp
  have hR₁₂ := Lts.Reachable.step hR₁₁ (.handlerReturn s₁₁ 2 hpend₁₁ (by
    rw [hr₁₁, hr₉, update_of_ne (by decide), hr₃]))
  let s₁₂ : State 3 ℕ := { s₁₁ with pending := update s₁₁.pending 2 false }
  have hp₁₂ : s₁₂.pending 1 = false := hc₁₁.pending
  have hc₁₂ : Calm s₁₂ 1 := ⟨hc₁₁.pc, hp₁₂, hc₁₁.restartable, hc₁₁.spare, hc₁₁.saved⟩
  have hbag₃ : ∀ o ∈ (s₃.threadData 1).retiredBag, o < 60000 := by
    intro o ho
    rw [htd₃, hl₂.threadData 1 (by decide)] at ho
    rcases hmem₁ o ho with hnil | hlt
    · exact absurd hnil List.not_mem_nil
    · omega
  have hlife₁₂ : ∀ o, 70000 < o → s₁₂.life o = .pooled := by
    intro o ho
    have hold : s₁₁.life o = s₉.life o := hl₁₁.life o fun hmem => by
      have hmem' : o ∈ (s₉.threadData 1).retiredBag := hmem
      rw [htd₉] at hmem'
      exact absurd (hbag₃ o hmem') (by omega)
    exact hold.trans ((hl₉.life o (by omega)).trans
      ((update_of_ne (by omega) ..).trans (hlife₃ o (.inr (by omega)))))
  obtain ⟨s₁₃, hR₁₃, hc₁₃, hl₁₃, hlen₁₃, -, -⟩ := hc₁₂.retires hok hR₁₂ 80000 24576
    (fun o hle _ => hlife₁₂ o (by omega)) (by
      show (s₁₁.threadData 1).retiredBag.length + 24576 ≤ _
      rw [hbag₁₁]
      decide)
  have hlen₁₃' : (s₁₃.threadData 1).retiredBag.length = 24577 := by
    have hone : (s₁₂.threadData 1).retiredBag.length = 1 := congrArg List.length hbag₁₁
    rw [hlen₁₃, hone]
  -- its second round begins
  obtain ⟨s₁₄, hR₁₄, hl₁₄, -⟩ := hc₁₃.announce hok hR₁₃ (x := 200000)
    ((hl₁₃.life _ (by omega)).trans (hlife₁₂ _ (by omega))) rfl (by
      rw [hlen₁₃']
      decide)
  let s₁₅ : State 3 ℕ := (s₁₄.announceStart 1).goto 1 (.signal 0)
  have hpc₁₅ : s₁₅.pc 2 = .check 0 := by
    show update s₁₄.pc 1 (.signal 0) 2 = _
    rw [update_of_ne (by decide), hl₁₄.pc 2 (by decide), hl₁₃.pc 2 (by decide)]
    show s₁₁.pc 2 = _
    rw [hl₁₁.pc 2 (by decide)]
    exact State.goto_pc s₈ 2 (.check 0)
  have htd₁₅ : s₁₅.threadData 2 = s₈.threadData 2 := by
    show s₁₄.threadData 2 = _
    rw [hl₁₄.threadData 2 (by decide), hl₁₃.threadData 2 (by decide)]
    show s₁₁.threadData 2 = _
    rw [hl₁₁.threadData 2 (by decide)]
    rfl
  have hp₁₅ : s₁₅.pending = update pend' 2 false := by
    show s₁₄.pending = _
    rw [hl₁₄.pending, hl₁₃.pending]
    show update s₁₁.pending 2 false = _
    rw [hp₁₁]
  have hr₁₅ : s₁₅.restartable = s₉.restartable := by
    show s₁₄.restartable = _
    rw [hl₁₄.restartable, hl₁₃.restartable]
    exact hr₁₁
  have hann₁₅ : s₁₅.announcedTS 0 = 0 ∧ s₁₅.announcedTS 1 = 3 := by
    have hann₁₄ : s₁₄.announcedTS = (s₉.announceDone 1).announcedTS := by
      rw [hl₁₄.announcedTS, hl₁₃.announcedTS]
      exact hl₁₁.announcedTS
    simp [s₁₅, State.goto, State.announceStart, hann₁₄, State.announceDone, hann₉, hann₃]
  have hts : ∀ u, (s₁₅.threadData 2).savedTS u = s₉.announcedTS u := by
    intro u
    rw [htd₁₅, hts₈, hl₇.announcedTS, hl₉.announcedTS]
  have hbag₁₅ : (s₁₅.threadData 2).retiredBag = 0 :: (s₂.threadData 2).retiredBag := by
    rw [htd₁₅, hbag₈, hbag₇]
  -- thread `2` finds that the counter of thread `1` has grown by two
  have hR₁₅ : (system cfg).Reachable (s₁₅.goto 2 (.check 0)) := by
    rw [State.goto_self hpc₁₅]
    exact hR₁₄
  obtain ⟨s₁₆, hR₁₆, hl₁₆, hfree⟩ := reach_lowered hok (i := 1) hR₁₅ (by rw [hp₁₅, update_self])
    (fun j hj => by
      obtain rfl : j = 0 := by omega
      rw [hann₁₅.1]
      omega)
    (by
      rw [hts, hann₉, hann₁₅.2, update_self, hann₃])
    trivial
    (fun u => by
      have hhz : s₁₅.proposedHzptrs = s₉.proposedHzptrs := by
        show s₁₄.proposedHzptrs = _
        rw [hl₁₄.proposedHzptrs, hl₁₃.proposedHzptrs]
        exact hl₁₁.proposedHzptrs
      rw [hhz]
      exact hhz₉ u)
    (by rw [htd₁₅, hinfo₈, hbag₈]) hbag₁₅
  -- thread `0` still reads
  refine ((hall s₁₆ hR₁₆ 2 0 hfree).2.2 0).1 ⟨?_, ?_, ?_⟩
  · rw [hl₁₆.restartable, hr₁₅, hr₉, update_self]
  · refine hl₁₆.met 0 0 (hl₁₄.met 0 0 (hl₁₃.met 0 0 (hl₁₁.met 0 0 (hl₉.met 0 0 ?_))))
    show decide (update s₅.life 0 .linked 0 = .linked) = true
    rw [update_self]
    rfl
  · rw [hl₁₆.pending, hp₁₅, update_of_ne (by decide), hpend₁₀ 0 (by decide), hp₉, update_self]
    simp

end Nbr
end PopSetbench

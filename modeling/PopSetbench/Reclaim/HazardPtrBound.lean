import PopSetbench.Reclaim.HazardPtrScan
import PopSetbench.Reclaim.HazardPtrSchedule
import Mathlib.Algebra.Order.Group.Multiset
import Mathlib.Algebra.Order.Sub.Basic
import Mathlib.Data.Finset.Card
import Mathlib.Data.Multiset.OrderedMonoid

/-!
# Hazard pointers: the list of retired objects has room

`retire` scans when the list of the calling thread is full. A scan finds at most
`maxHazardptrsPerThread` pointers in each list of announcements, and what it leaves in the list of
retired objects is among them. If every object is retired once, these are different objects, so that
the list is not full when `retire` returns.

* `Fits` is what is known of the lists of announcements; `remaining` counts the steps that a thread
  has still to make until its scan is over, and becomes less with each of them.
* `Journal` records what was retired, and for the last scan of each thread what it has freed and
  what was announced meanwhile.
* `Scanned` is what is known of the list at each point of the code; it carries `hazardPtr_room`.
-/

namespace PopSetbench
namespace HazardPtr

open Function

variable {n : ℕ} {Obj : Type} [DecidableEq Obj]

instance (s : State n Obj) (a : Fin n) (s' : State n Obj) (t : Fin n) :
    Decidable (Begins s a s' t) :=
  inferInstanceAs (Decidable (_ ∧ _ ∧ _))

/-! ### The lists of announcements -/

/-- A thread that adds to its list has room in it, and a scan does not go beyond the last thread. -/
def InRange (n : ℕ) : Pc Obj → Prop
  | .store _ sz | .grow _ sz => sz < maxHazardptrsPerThread
  | .scanSize w => w ≤ n
  | .scanGet w _ _ => w < n
  | _ => True

/-- What is known of the lists of announcements. -/
structure Fits (s : State n Obj) : Prop where
  kept : ∀ u, Kept (s.announce u) (s.announced u) (s.pc u)
  size_le : ∀ u, (s.announce u).size ≤ maxHazardptrsPerThread
  inRange : ∀ u, InRange n (s.pc u)

section

variable {s s' : State n Obj} {a t u : Fin n} {o : Obj}

theorem Step.inRange (hstep : Step s a s') (h : InRange n (s.pc a)) : InRange n (s'.pc a) := by
  have moved : ∀ {p : Pc Obj}, s'.pc a = p → InRange n p → InRange n (s'.pc a) := by
    intro p hp hh
    rwa [hp]
  cases hstep with
  | protect obj hpc hassert => exact moved (update_self ..) hassert
  | store obj sz hpc =>
    rw [hpc] at h
    exact moved (update_self ..) h
  | retireFull p hpc hfull => exact moved (update_self ..) (Nat.zero_le n)
  | scanSize v hpc => exact moved (update_self ..) v.isLt
  | scanGet v ixHP sz hpc hlt => exact moved (update_self ..) v.isLt
  | scanNext v ixHP sz hpc hge => exact moved (update_self ..) (Nat.succ_le_of_lt v.isLt)
  | endOp hpc | retire p hpc hfull | free ix hpc hix hmem => exact moved hpc trivial
  | _ => exact moved (update_self ..) trivial

theorem Step.size_le (hstep : Step s a s') (hkept : Kept (s.announce a) (s.announced a) (s.pc a))
    (hrange : InRange n (s.pc a)) (h : (s.announce a).size ≤ maxHazardptrsPerThread) :
    (s'.announce a).size ≤ maxHazardptrsPerThread := by
  cases hstep with
  | grow obj sz hpc =>
    rw [hpc] at hrange
    simp only [State.goto, State.setAnnounce, State.setAnnounced, update_self]
    exact Nat.succ_le_of_lt hrange
  | shrink sz hpc =>
    rw [hpc] at hkept
    obtain ⟨hsize, -⟩ := hkept
    simp only [State.goto, State.setAnnounce, update_self]
    exact (Nat.sub_le ..).trans (hsize.symm.trans_le h)
  | endOp hpc =>
    simp only [State.setAnnounce, State.setAnnounced, update_self]
    exact Nat.zero_le _
  | store obj sz hpc | move ix sz hpc hne =>
    simp only [State.goto, State.setAnnounce, update_self]
    exact h
  | _ => exact h

theorem Fits.step (h : Fits s) (hstep : Step s a s') : Fits s' := by
  have hframe : ∀ u, u ≠ a → Frame s s' u := fun u hu => hstep.frame hu
  refine ⟨fun u => ?_, fun u => ?_, fun u => ?_⟩ <;> by_cases hu : u = a
  · subst hu
    exact (h.kept u).step hstep
  · rw [(hframe u hu).announce, (hframe u hu).announced, (hframe u hu).pc]
    exact h.kept u
  · subst hu
    exact hstep.size_le (h.kept u) (h.inRange u) (h.size_le u)
  · rw [(hframe u hu).announce]
    exact h.size_le u
  · subst hu
    exact hstep.inRange (h.inRange u)
  · rw [(hframe u hu).pc]
    exact h.inRange u

/-! ### The end of a scan -/

/-- The number of steps that a thread has still to make until its scan is over, at most. -/
def remaining (s : State n Obj) (t : Fin n) : ℕ :=
  match s.pc t with
  | .scanSize w => (n - w) * (maxHazardptrsPerThread + 2) + (s.retired t).size + 2
  | .scanGet w pos sz =>
    (n - (w + 1)) * (maxHazardptrsPerThread + 2) + (sz - pos) + (s.retired t).size + 3
  | .decide ix => (s.retired t).size - ix + 1
  | _ => 0

/-- The lists of the others stay. -/
theorem Step.retired_of_ne (hstep : Step s a s') (ht : t ≠ a) : s'.retired t = s.retired t := by
  cases hstep with
  | retire p hpc hfull | retireFull p hpc hfull | free ix hpc hix hmem => exact update_of_ne ht ..
  | _ => rfl

theorem Step.remaining_of_ne (hstep : Step s a s') (ht : t ≠ a) :
    remaining s' t = remaining s t := by
  unfold remaining
  rw [(hstep.frame ht).pc, hstep.retired_of_ne ht]

/-- **A step of a scan** is the last one, or leaves less to be done. -/
theorem Step.remaining_lt (hstep : Step s t s') (hfits : Fits s) (h : 0 < remaining s t) :
    s'.pc t = .idle ∨ 0 < remaining s' t ∧ remaining s' t < remaining s t := by
  cases hstep with
  | scanSize v hpc =>
    have hsize := hfits.size_le v
    have hv : n - v.val = n - (v.val + 1) + 1 := by omega
    refine .inr ?_
    simp only [remaining, State.goto, update_self, hpc, hv, Nat.succ_mul]
    omega
  | scanGet v ixHP sz hpc hlt =>
    refine .inr ?_
    simp only [remaining, State.goto, State.setComparing, update_self, hpc]
    omega
  | scanNext v ixHP sz hpc hge =>
    refine .inr ?_
    simp only [remaining, State.goto, update_self, hpc]
    omega
  | scanEnd hpc =>
    refine .inr ?_
    simp only [remaining, State.goto, update_self, hpc]
    omega
  | keep ix hpc hix hmem =>
    refine .inr ?_
    simp only [remaining, State.goto, update_self, hpc]
    omega
  | free ix hpc hix hmem =>
    refine .inr ?_
    simp only [remaining, State.setRetired, erased, ArrayList.resize_size, update_self, hpc]
    omega
  | retireEnd ix hpc hix => exact .inl (update_self ..)
  | unprotect obj ix hpc hix hobj hfirst | unprotectMiss obj hpc hmiss =>
    -- no scan, as in the cases that follow
    rcases hpc with hpc | hpc <;> simp [remaining, hpc] at h
  | protect obj hpc hassert | store obj sz hpc | grow obj sz hpc | callbackTrue obj hpc
  | move ix sz hpc hne | moveLast ix sz hpc heq | shrink sz hpc | endOp hpc | retire p hpc hfull
  | retireFull p hpc hfull => simp [remaining, hpc] at h

/-- **A scan can always go on.** -/
theorem exists_step (hfits : Fits s) (h : 0 < remaining s t) : ∃ s', Step s t s' := by
  have hrange := hfits.inRange t
  cases hpc : s.pc t with
  | scanSize w =>
    rw [hpc] at hrange
    rcases Nat.lt_or_eq_of_le hrange with hlt | rfl
    · exact ⟨_, .scanSize s t ⟨w, hlt⟩ hpc⟩
    · exact ⟨_, .scanEnd s t hpc⟩
  | scanGet w pos sz =>
    rw [hpc] at hrange
    rcases Nat.lt_or_ge pos sz with hlt | hge
    · exact ⟨_, .scanGet s t ⟨w, hrange⟩ pos sz hpc hlt⟩
    · exact ⟨_, .scanNext s t ⟨w, hrange⟩ pos sz hpc hge⟩
  | decide ix =>
    rcases Nat.lt_or_ge ix (s.retired t).size with hlt | hge
    · by_cases hmem : (s.retired t).data ix ∈ s.comparing t
      · exact ⟨_, .keep s t ix hpc hlt hmem⟩
      · exact ⟨_, .free s t ix hpc hlt hmem⟩
    · exact ⟨_, .retireEnd s t ix hpc hge⟩
  | _ => simp [remaining, hpc] at h

/-- **A run of a scan.** Either the scan is over at some time in the run, or what is left of it has
become less by the steps that the thread has made. -/
theorem scan_ends {as : List (Fin n)} (hfits : Fits s) (hp : system.Path s as s')
    (h : 0 < remaining s t) :
    (∃ bs s₁, bs <+: as ∧ system.Path s bs s₁ ∧ s₁.pc t = .idle) ∨
      0 < remaining s' t ∧ as.count t + remaining s' t ≤ remaining s t := by
  induction hp with
  | nil => exact .inr ⟨h, by simp⟩
  | @cons s s₁ s' a as hstep _ ih =>
    have hgo : 0 < remaining s₁ t →
        (∃ bs s₂, bs <+: a :: as ∧ system.Path s bs s₂ ∧ s₂.pc t = .idle) ∨
          0 < remaining s' t ∧ as.count t + remaining s' t ≤ remaining s₁ t := by
      intro hpos
      rcases ih (hfits.step hstep) hpos with ⟨bs, s₂, hbs, hp, hidle⟩ | hrest
      · exact .inl ⟨a :: bs, s₂, List.cons_prefix_cons.mpr ⟨rfl, hbs⟩, .cons hstep hp, hidle⟩
      · exact .inr hrest
    by_cases ht : t = a
    · subst ht
      rcases Step.remaining_lt hstep hfits h with hidle | ⟨hpos, hlt⟩
      · exact .inl ⟨[t], s₁, by simp, .cons hstep .nil, hidle⟩
      · refine (hgo hpos).imp_right fun ⟨hpos', hle⟩ => ⟨hpos', ?_⟩
        rw [List.count_cons_self]
        omega
    · have hrem := Step.remaining_of_ne hstep ht
      refine (hgo (hrem ▸ h)).imp_right fun ⟨hpos', hle⟩ => ⟨hpos', ?_⟩
      rw [List.count_cons_of_ne (Ne.symm ht)]
      omega

end

/-! ### The journal -/

/-- Thread `u` has the pointer in its list, or is about to store the size with which it has. -/
def Announces (s : State n Obj) (u : Fin n) (o : Obj) : Prop :=
  o ∈ (s.announce u).contents ∨ ∃ sz, s.pc u = .grow o sz

/-- What has happened to the objects. -/
structure Journal (n : ℕ) (Obj : Type) where
  /-- What was retired, each object as often as it was. -/
  retired : Multiset Obj
  /-- What each thread has freed since it began its last scan. -/
  freed : Fin n → Multiset Obj
  /-- What some thread has had announced at some time since the last scan of each thread began. -/
  announced : Fin n → Obj → Prop

/-- A step notes what comes into the list of the thread and what leaves it. -/
def noteJournal (s : State n Obj) (a : Fin n) (s' : State n Obj) (J : Journal n Obj) :
    Journal n Obj where
  retired := J.retired + ((s'.retired a).contents - (s.retired a).contents)
  freed := update J.freed a <| if Begins s a s' a then 0 else
    J.freed a + ((s.retired a).contents - (s'.retired a).contents)
  announced t o := ¬ Begins s a s' t ∧ J.announced t o ∨ ∃ u, Announces s' u o

/-- Nothing has happened. -/
def Journal.empty : Journal n Obj := ⟨0, fun _ => 0, fun _ _ => False⟩

/-- The reclaimer, with the journal. -/
def journaled : Lts (State n Obj × Journal n Obj) (Fin n) :=
  system.observed noteJournal .empty

/-! ### The two operations on the list -/

section

variable {A : ArrayList Obj} {p : Obj} {ix : ℕ}

omit [DecidableEq Obj]

theorem contents_pushed : (pushed A p).contents = p ::ₘ A.contents := by
  have hpush : (pushed A p).contents =
      (A.store A.size p).data A.size ::ₘ (A.store A.size p).contents :=
    ArrayList.contents_resize_succ (A := A.store A.size p)
  rw [hpush, ArrayList.store_data_self, ArrayList.contents_store le_rfl]

theorem contents_erased (h : ix < A.size) : A.contents = A.data ix ::ₘ (erased A ix).contents :=
  ArrayList.contents_move (Nat.sub_add_cancel (Nat.zero_lt_of_lt h)).symm (Nat.le_sub_one_of_lt h)

/-- A list without repetitions, all of whose elements are in a set. -/
theorem size_le_card [DecidableEq Obj] {C : Finset Obj} (hnodup : A.contents.Nodup)
    (hC : ∀ j < A.size, A.data j ∈ C) : A.size ≤ C.card := by
  have hsub : A.contents.toFinset ⊆ C := by
    intro o ho
    obtain ⟨j, hj, rfl⟩ := ArrayList.mem_contents.mp (Multiset.mem_toFinset.mp ho)
    exact hC j hj
  calc A.size = A.contents.card := by
        rw [ArrayList.contents, Multiset.card_map, Multiset.card_range]
    _ = A.contents.toFinset.card := (Multiset.toFinset_card_of_nodup hnodup).symm
    _ ≤ C.card := Finset.card_le_card hsub

end

/-! ### What is known of the list -/

/-- A list that has been found announced is shorter than the list at which a scan begins. -/
theorem lt_scanThreshold (t : Fin n) : n * maxHazardptrsPerThread < scanThreshold n := by
  have hpos : 0 < n := Nat.zero_lt_of_lt t.isLt
  unfold scanThreshold maxHazardptrsPerThread
  omega

/-- What is known of the list of thread `t` at each point of the code. -/
def Scanned (s : State n Obj) (J : Journal n Obj) (t : Fin n) : Pc Obj → Prop
  | .scanSize w => (s.comparing t).card ≤ w * maxHazardptrsPerThread ∧
      (s.retired t).size = scanThreshold n ∧ J.freed t = 0
  | .scanGet w pos sz => pos ≤ sz ∧ sz ≤ maxHazardptrsPerThread ∧
      (s.comparing t).card ≤ w * maxHazardptrsPerThread + pos ∧
      (s.retired t).size = scanThreshold n ∧ J.freed t = 0
  | .decide ix => (s.comparing t).card ≤ n * maxHazardptrsPerThread ∧
      (∀ j < ix, j < (s.retired t).size → (s.retired t).data j ∈ s.comparing t) ∧
      (J.freed t).card + (s.retired t).size = scanThreshold n
  | _ => (s.retired t).size < scanThreshold n

/-- What thread `t` has found in its scan, or is about to find in the list that it looks at, was
announced since the scan began. -/
def Found (s : State n Obj) (J : Journal n Obj) (t : Fin n) : Pc Obj → Prop
  | .scanSize _ | .decide _ => ∀ o ∈ s.comparing t, J.announced t o
  | .scanGet w pos sz => (∀ o ∈ s.comparing t, J.announced t o) ∧
      ∀ u : Fin n, u.val = w → ∀ j, pos ≤ j → j < sz → J.announced t ((s.announce u).data j)
  | _ => True

/-- **The invariant**: what is in the lists was retired, and what is known of them. -/
structure Room (s : State n Obj) (J : Journal n Obj) : Prop where
  fits : Fits s
  retired : ∀ t, (s.retired t).contents ≤ J.retired
  scanned : ∀ t, Scanned s J t (s.pc t)
  found : ∀ t, Found s J t (s.pc t)

variable {s s' : State n Obj} {J : Journal n Obj} {a t : Fin n} {o : Obj}

/-- What is retired was retired. -/
theorem contents_le_note (h : ∀ t, (s.retired t).contents ≤ J.retired) (hstep : Step s a s')
    (t : Fin n) : (s'.retired t).contents ≤ (noteJournal s a s' J).retired := by
  by_cases ht : t = a
  · subst ht
    calc (s'.retired t).contents
        ≤ (s.retired t).contents + ((s'.retired t).contents - (s.retired t).contents) :=
          le_add_tsub
      _ ≤ J.retired + ((s'.retired t).contents - (s.retired t).contents) := by
          gcongr
          exact h t
  · rw [hstep.retired_of_ne ht]
    exact (h t).trans (Multiset.le_add_right ..)

/-- What the step leaves of the objects that the thread has freed. -/
theorem noteJournal_freed : (noteJournal s a s' J).freed a = if Begins s a s' a then 0 else
    J.freed a + ((s.retired a).contents - (s'.retired a).contents) :=
  update_self ..

/-- Nothing is freed. -/
theorem freed_note (hret : s'.retired a = s.retired a) (hb : ¬ Begins s a s' a) :
    (noteJournal s a s' J).freed a = J.freed a := by
  rw [noteJournal_freed, if_neg hb, hret, tsub_self (s.retired a).contents, add_zero]

omit [DecidableEq Obj] in
/-- What is known depends on what belongs to the thread. -/
theorem Scanned.of_eq {J' : Journal n Obj} {p : Pc Obj} (h : Scanned s J t p)
    (hret : s'.retired t = s.retired t) (hcomp : s'.comparing t = s.comparing t)
    (hfreed : J'.freed t = J.freed t) : Scanned s' J' t p := by
  cases p <;> simpa only [Scanned, hret, hcomp, hfreed] using h

/-- **One step.** What is known of the list of a thread before its own step is known after it. -/
theorem Scanned.step (h : Scanned s J t (s.pc t)) (hfits : Fits s)
    (hnodup : (s.retired t).contents.Nodup) (hstep : Step s t s') :
    Scanned s' (noteJournal s t s' J) t (s'.pc t) := by
  have moved : ∀ {p : Pc Obj}, s'.pc t = p → Scanned s' (noteJournal s t s' J) t p →
      Scanned s' (noteJournal s t s' J) t (s'.pc t) := by
    intro p hp hh
    rwa [hp]
  -- a scan that goes on does not begin
  have hfreed : s.pc t ≠ .idle → s'.retired t = s.retired t →
      (noteJournal s t s' J).freed t = J.freed t := fun hne hret =>
    freed_note hret fun hb => hne hb.2.1
  cases hstep with
  | retire p hpc hfull =>
    -- the object goes into the list, which stays below the threshold
    refine moved hpc ?_
    show ((update s.retired t (pushed (s.retired t) p)) t).size < scanThreshold n
    rw [update_self]
    exact hfull
  | retireFull p hpc hfull =>
    -- the threshold is reached, and a scan begins
    refine moved (update_self ..) ⟨?_, ?_, ?_⟩
    · show ((update s.comparing t ∅) t).card ≤ _
      rw [update_self, Finset.card_empty]
      exact Nat.zero_le _
    · show ((update s.retired t (pushed (s.retired t) p)) t).size = scanThreshold n
      rw [update_self]
      exact hfull
    · have hb : Begins s t (((s.setRetired t (pushed (s.retired t) p)).setComparing t ∅).goto t
          (.scanSize 0)) t := ⟨rfl, hpc, update_self ..⟩
      rw [noteJournal_freed, if_pos hb]
  | scanSize u hpc =>
    -- the scan counts what it puts into the set
    have hfreed := hfreed (by rw [hpc]; nofun) rfl
    rw [hpc] at h
    exact moved (update_self ..)
      ⟨Nat.zero_le _, hfits.size_le u, h.1, h.2.1, hfreed.trans h.2.2⟩
  | scanGet u ixHP sz hpc hlt =>
    have hfreed := hfreed (by rw [hpc]; nofun) rfl
    rw [hpc] at h
    obtain ⟨-, hsz, hcard, hsize, hzero⟩ := h
    refine moved (update_self ..) ⟨hlt, hsz, ?_, hsize, hfreed.trans hzero⟩
    show ((update s.comparing t _) t).card ≤ _
    rw [update_self]
    exact (Finset.card_insert_le ..).trans (Nat.succ_le_succ hcard)
  | scanNext u ixHP sz hpc hge =>
    -- the announcements of one thread have been read
    have hfreed := hfreed (by rw [hpc]; nofun) rfl
    rw [hpc] at h
    obtain ⟨hpos, hsz, hcard, hsize, hzero⟩ := h
    refine moved (update_self ..) ⟨hcard.trans ?_, hsize, hfreed.trans hzero⟩
    rw [Nat.succ_mul]
    exact Nat.add_le_add_left (hpos.trans hsz) _
  | scanEnd hpc =>
    have hfreed := hfreed (by rw [hpc]; nofun) rfl
    rw [hpc] at h
    obtain ⟨hcard, hsize, hzero⟩ := h
    refine moved (update_self ..) ⟨hcard, fun j hj => absurd hj (Nat.not_lt_zero _), ?_⟩
    rw [hfreed, hzero, Multiset.card_zero, Nat.zero_add]
    exact hsize
  | keep ix hpc hix hmem =>
    -- the object is in the set, so it is kept
    have hfreed := hfreed (by rw [hpc]; nofun) rfl
    rw [hpc] at h
    obtain ⟨hcard, hbelow, hsum⟩ := h
    refine moved (update_self ..) ⟨hcard, fun j hj hlt => ?_, ?_⟩
    · obtain hj | rfl := Nat.lt_succ_iff_lt_or_eq.mp hj
      · exact hbelow j hj hlt
      · exact hmem
    · rw [hfreed]
      exact hsum
  | free ix hpc hix hmem =>
    -- the object is not in the set: the last one takes its place
    rw [hpc] at h
    obtain ⟨hcard, hbelow, hsum⟩ := h
    have hret : (s.setRetired t (erased (s.retired t) ix)).retired t = erased (s.retired t) ix :=
      update_self ..
    refine moved hpc ⟨hcard, fun j hj hlt => ?_, ?_⟩
    · rw [hret] at hlt ⊢
      have hlt' : j < (s.retired t).size := hj.trans hix
      show ((s.retired t).store ix _).data j ∈ _
      rw [ArrayList.store_data_of_ne hj.ne]
      exact hbelow j hj hlt'
    · have hb : ¬ Begins s t (s.setRetired t (erased (s.retired t) ix)) t := by
        rintro ⟨-, hidle, -⟩
        rw [hpc] at hidle
        cases hidle
      rw [noteJournal_freed, if_neg hb, hret, contents_erased hix, ← Multiset.singleton_add,
        add_tsub_cancel_right, Multiset.card_add, Multiset.card_singleton]
      show (J.freed t).card + 1 + ((s.retired t).size - 1) = scanThreshold n
      omega
  | retireEnd ix hpc hix =>
    -- everything left in the list was compared and kept
    rw [hpc] at h
    obtain ⟨hcard, hbelow, -⟩ := h
    refine moved (update_self ..) ?_
    -- what is left are different objects that were found
    calc (s.retired t).size ≤ (s.comparing t).card :=
          size_le_card hnodup fun j hj => hbelow j (hj.trans_le hix) hj
      _ ≤ n * maxHazardptrsPerThread := hcard
      _ < scanThreshold n := lt_scanThreshold t
  | endOp hpc =>
    rw [hpc] at h
    exact moved hpc h
  | unprotect obj ix hpc hix hobj hfirst | unprotectMiss obj hpc hmiss =>
    obtain hpc | hpc := hpc <;> rw [hpc] at h <;> exact moved (update_self ..) h
  | protect obj hpc hassert | store obj sz hpc | grow obj sz hpc | callbackTrue obj hpc
  | move ix sz hpc hne | moveLast ix sz hpc heq | shrink sz hpc =>
    rw [hpc] at h
    exact moved (update_self ..) h

omit [DecidableEq Obj] in
/-- Who has it in the list announces it. -/
theorem announces_data {u : Fin n} {j : ℕ} (hj : j < (s.announce u).size) :
    Announces s u ((s.announce u).data j) :=
  .inl (ArrayList.mem_contents.mpr ⟨j, hj, rfl⟩)

/-- An entry stays, or it is announced now. -/
theorem Step.data (hstep : Step s a s') (hfits : Fits s) (j : ℕ) :
    (s'.announce a).data j = (s.announce a).data j ∨ Announces s' a ((s'.announce a).data j) := by
  have hkept := hfits.kept a
  cases hstep with
  | store obj sz hpc =>
    by_cases hj : j = sz
    · subst hj
      refine .inr (.inr ⟨j, ?_⟩)
      simp only [State.goto, State.setAnnounce, update_self, ArrayList.store_data_self]
    · refine .inl ?_
      simp only [State.goto, State.setAnnounce, update_self]
      exact ArrayList.store_data_of_ne hj
  | move ix sz hpc hne =>
    rw [hpc] at hkept
    obtain ⟨hsize, hix, -⟩ := hkept
    by_cases hj : j = ix
    · -- a copy of the last entry, which is in the list until the size is stored
      subst hj
      refine .inr (announces_data ?_)
      simp only [State.goto, State.setAnnounce, update_self]
      exact hix.trans_eq hsize.symm
    · refine .inl ?_
      simp only [State.goto, State.setAnnounce, update_self]
      exact ArrayList.store_data_of_ne hj
  | grow obj sz hpc | shrink sz hpc | endOp hpc =>
    refine .inl ?_
    simp only [State.goto, State.setAnnounce, State.setAnnounced, update_self]
    rfl
  | _ => exact .inl rfl

/-- What has been announced since a scan began goes on having been. -/
theorem noteJournal_announced (hb : ¬ Begins s a s' t) (h : J.announced t o) :
    (noteJournal s a s' J).announced t o :=
  .inl ⟨hb, h⟩

/-- **Interference freedom.** What is known of a scan survives the steps of the others. -/
theorem Found.frame (h : Found s J t (s.pc t)) (hfits : Fits s) (hstep : Step s a s')
    (ht : t ≠ a) : Found s' (noteJournal s a s' J) t (s.pc t) := by
  have hf := hstep.frame ht
  have hnote : ∀ {o}, J.announced t o → (noteJournal s a s' J).announced t o := fun ho =>
    noteJournal_announced (fun hb => ht hb.1.symm) ho
  generalize s.pc t = p at h
  cases p with
  | scanSize w =>
    intro o ho
    rw [hf.comparing] at ho
    exact hnote (h o ho)
  | scanGet w pos sz =>
    refine ⟨fun o ho => ?_, fun u hu j hpos hj => ?_⟩
    · rw [hf.comparing] at ho
      exact hnote (h.1 o ho)
    · by_cases hua : u = a
      · subst hua
        rcases hstep.data hfits j with heq | hnow
        · rw [heq]
          exact hnote (h.2 u hu j hpos hj)
        · exact .inr ⟨u, hnow⟩
      · rw [(hstep.frame hua).announce]
        exact hnote (h.2 u hu j hpos hj)
  | decide ix =>
    intro o ho
    rw [hf.comparing] at ho
    exact hnote (h o ho)
  | _ => trivial

/-- **One step.** What a scan finds was announced. -/
theorem Found.step (h : Found s J t (s.pc t)) (hstep : Step s t s') :
    Found s' (noteJournal s t s' J) t (s'.pc t) := by
  have hnote : ∀ {o}, s.pc t ≠ .idle → J.announced t o →
      (noteJournal s t s' J).announced t o := fun hne ho =>
    noteJournal_announced (fun hb => hne hb.2.1) ho
  have moved : ∀ {p : Pc Obj}, s'.pc t = p → Found s' (noteJournal s t s' J) t p →
      Found s' (noteJournal s t s' J) t (s'.pc t) := by
    intro p hp hh
    rwa [hp]
  cases hstep with
  | retireFull p hpc hfull =>
    refine moved (update_self ..) fun o ho => ?_
    simp only [State.goto, State.setComparing, update_self] at ho
    exact absurd ho (Finset.notMem_empty o)
  | scanSize v hpc =>
    have hnote := @hnote
    rw [hpc] at h hnote
    refine moved (update_self ..) ⟨fun o ho => hnote (by simp) (h o ho), fun u hu j _ hj => ?_⟩
    -- what is below the size is in the list
    obtain rfl := Fin.ext hu
    exact .inr ⟨u, announces_data (s := s.goto t (.scanGet u.val 0 (s.announce u).size)) hj⟩
  | scanGet v ixHP sz hpc hlt =>
    have hnote := @hnote
    rw [hpc] at h hnote
    refine moved (update_self ..) ⟨fun o ho => hnote (by simp) ?_, fun u hu j hpos hj =>
      hnote (by simp) (h.2 u hu j (Nat.le_of_succ_le hpos) hj)⟩
    simp only [State.goto, State.setComparing, update_self] at ho
    rcases Finset.mem_insert.mp ho with rfl | ho
    · exact h.2 v rfl ixHP le_rfl hlt
    · exact h.1 o ho
  | scanNext v ixHP sz hpc hge =>
    have hnote := @hnote
    rw [hpc] at h hnote
    exact moved (update_self ..) fun o ho => hnote (by simp) (h.1 o ho)
  | scanEnd hpc | keep ix hpc hix hmem =>
    have hnote := @hnote
    rw [hpc] at h hnote
    exact moved (update_self ..) fun o ho => hnote (by simp) (h o ho)
  | free ix hpc hix hmem =>
    have hnote := @hnote
    rw [hpc] at h hnote
    exact moved hpc fun o ho => hnote (by simp) (h o ho)
  | retire p hpc hfull | endOp hpc => exact moved hpc trivial
  | _ => exact moved (update_self ..) trivial

/-- **Invariant preservation**, as long as no object is retired twice. -/
theorem Room.step (h : Room s J) (hJ : J.retired.Nodup) (hstep : Step s a s') :
    Room s' (noteJournal s a s' J) where
  fits := h.fits.step hstep
  retired := contents_le_note h.retired hstep
  scanned t := by
    by_cases ht : t = a
    · subst ht
      exact (h.scanned t).step h.fits (Multiset.nodup_of_le (h.retired t) hJ) hstep
    · have hf := hstep.frame ht
      rw [hf.pc]
      exact (h.scanned t).of_eq (hstep.retired_of_ne ht) hf.comparing (update_of_ne ht ..)
  found t := by
    by_cases ht : t = a
    · subst ht
      exact (h.found t).step hstep
    · rw [(hstep.frame ht).pc]
      exact (h.found t).frame h.fits hstep ht

omit [DecidableEq Obj] in
theorem Room.initial (data data' : Fin n → ℕ → Obj) :
    Room (State.initial data data') .empty where
  fits := ⟨fun _ => rfl, fun _ => Nat.zero_le _, fun _ => trivial⟩
  retired _ := le_rfl
  scanned t := Nat.zero_lt_of_lt (lt_scanThreshold t)
  found _ := trivial

/-- The invariant holds in every run in which no object is retired twice. -/
theorem Room.of_reachable (h : journaled.Reachable (s, J)) (hJ : J.retired.Nodup) : Room s J := by
  refine h.invariant (P := fun x => x.2.retired.Nodup → Room x.1 x.2) ?_ ?_ hJ
  · rintro ⟨s, J⟩ ⟨⟨data, data', rfl⟩, rfl⟩ -
    exact Room.initial data data'
  · rintro ⟨s, J⟩ a ⟨s', J'⟩ - ih - ⟨hstep, hnote⟩ hJ'
    obtain rfl : J' = noteJournal s a s' J := hnote
    have hJ : J.retired.Nodup := Multiset.nodup_of_le (Multiset.le_add_right ..) hJ'
    exact (ih hJ).step hJ hstep

/-- **The list of retired objects has room.** In every run in which no object is retired twice:

* The list is not full between two calls, so that `add` may store the next object.
* A scan can always go on, and in every continuation of the run it is over after so many steps of
  the thread as have been `remaining`.
* When a scan has looked at the whole list, what is left was found, and was announced since the scan
  began. There are at most `maxHazardptrsPerThread` objects of it for each thread, and the scan has
  freed an object. -/
theorem hazardPtr_room (h : journaled.Reachable (s, J)) (hJ : J.retired.Nodup) (t : Fin n) :
    (s.pc t = .idle → (s.retired t).size < scanThreshold n) ∧
    (0 < remaining s t → (∃ s', Step s t s') ∧
      ∀ as s', system.Path s as s' → remaining s t ≤ as.count t →
        ∃ bs s₁, bs <+: as ∧ system.Path s bs s₁ ∧ s₁.pc t = .idle) ∧
    ∀ ix, s.pc t = .decide ix → (s.retired t).size ≤ ix →
      (∀ o ∈ (s.retired t).contents, o ∈ s.comparing t ∧ J.announced t o) ∧
      (s.retired t).size ≤ n * maxHazardptrsPerThread ∧
      n * maxHazardptrsPerThread < scanThreshold n ∧
      0 < (J.freed t).card ∧ (J.freed t).card + (s.retired t).size = scanThreshold n := by
  have hroom := Room.of_reachable h hJ
  have hscanned := hroom.scanned t
  refine ⟨fun hpc => ?_, fun hpos => ⟨exists_step hroom.fits hpos, fun as s' hp hcount => ?_⟩,
    fun ix hpc hix => ?_⟩
  · rw [hpc] at hscanned
    exact hscanned
  · refine (scan_ends hroom.fits hp hpos).resolve_right ?_
    omega
  · have hfound := hroom.found t
    rw [hpc] at hscanned hfound
    obtain ⟨hcard, hbelow, hsum⟩ := hscanned
    have hle : (s.retired t).size ≤ n * maxHazardptrsPerThread := by
      refine (size_le_card ?_ fun j hj => hbelow j (hj.trans_le hix) hj).trans hcard
      exact Multiset.nodup_of_le (hroom.retired t) hJ
    have hlt := lt_scanThreshold t
    refine ⟨fun o ho => ?_, hle, hlt, ?_, hsum⟩
    · obtain ⟨j, hj, rfl⟩ := ArrayList.mem_contents.mp ho
      have hmem := hbelow j (hj.trans_le hix) hj
      exact ⟨hmem, hfound _ hmem⟩
    · omega

/-! ### A scan -/

/-- What a choice adds to what was retired. -/
theorem noteJournal_retired {c : Choice n Obj} (h : s.choose c = some (a, s')) :
    (noteJournal s a s' J).retired = J.retired + (c.retired : Multiset Obj) := by
  have hpush : ∀ (A : ArrayList Obj) (p : Obj), (pushed A p).contents - A.contents = {p} := by
    intro A p
    rw [contents_pushed, ← Multiset.singleton_add, add_tsub_cancel_right]
  -- nothing is retired within a call
  have hless : ∀ t, s.next t = some s' → (s'.retired t).contents - (s.retired t).contents = 0 := by
    intro t hnext
    have hidle : s.pc t ≠ .idle := by
      intro hpc
      simp [State.next, hpc] at hnext
    have hstep := State.next_sound hnext
    cases hstep with
    | retire p hpc hfull | retireFull p hpc hfull => exact absurd hpc hidle
    | free ix hpc hix hmem =>
      simp only [State.setRetired, update_self]
      rw [contents_erased hix]
      exact tsub_eq_zero_of_le (Multiset.le_cons_self ..)
    | _ => exact tsub_self _
  cases c with
  | protect t obj =>
    obtain ⟨-, heq⟩ := Option.ite_none_right_eq_some.mp h
    obtain ⟨rfl, rfl⟩ := Prod.mk.inj (Option.some.inj heq)
    exact congrArg (J.retired + ·) (tsub_self _)
  | retire t p =>
    simp only [State.choose] at h
    split_ifs at h
    all_goals
      obtain ⟨rfl, rfl⟩ := Prod.mk.inj (Option.some.inj h)
      simp only [noteJournal, State.goto, State.setComparing, State.setRetired, update_self]
      rw [hpush]
      rfl
  | next t =>
    obtain ⟨s₁, hnext, heq⟩ := Option.map_eq_some_iff.mp h
    obtain ⟨rfl, rfl⟩ := Prod.mk.inj heq
    exact congrArg (J.retired + ·) (hless t hnext)

/-- A computed run, with its journal. -/
theorem exists_journal {cs : List (Choice n Obj)} {as : List (Fin n)}
    (h : journaled.Reachable (s, J)) (hreplay : Lts.replay State.choose cs s = some (as, s')) :
    ∃ J', journaled.Reachable (s', J') ∧
      J'.retired = J.retired + (cs.flatMap Choice.retired : List Obj) := by
  induction cs generalizing s J as with
  | nil =>
    obtain ⟨rfl, rfl⟩ := Prod.mk.inj (Option.some.inj hreplay)
    exact ⟨J, h, (add_zero _).symm⟩
  | cons c cs ih =>
    obtain ⟨⟨a, s₁⟩, hchoose, hrest⟩ := Option.bind_eq_some_iff.mp hreplay
    obtain ⟨⟨as', s₂⟩, hcs, heq⟩ := Option.map_eq_some_iff.mp hrest
    obtain ⟨rfl, rfl⟩ := Prod.mk.inj heq
    have hstep := Lts.ReachableBy.step_observed h (State.computes s c a s₁ hchoose) trivial
    obtain ⟨J', hJ', hretired⟩ := ih hstep hcs
    refine ⟨J', hJ', ?_⟩
    rw [hretired, noteJournal_retired hchoose, List.flatMap_cons, ← Multiset.coe_add, add_assoc]

/-- Thread `u` announces the pointers 500 and 7. Thread `t` retires the objects below 160 and scans,
up to the end of its list. -/
def scanRun (t u : Fin 2) : List (Choice 2 ℕ) :=
  [.protect u 500, .next u, .next u, .next u, .protect u 7, .next u, .next u, .next u] ++
    (List.range 160).map (.retire t) ++ List.replicate 167 (.next t)

/-- The scan leaves the object 7. -/
theorem hazardPtr_room_scan : ∃ (s : State 2 ℕ) (J : Journal 2 ℕ),
    (∀ o ∈ (s.retired 0).contents, o ∈ s.comparing 0 ∧ J.announced 0 o) ∧
    (s.retired 0).size = 1 ∧ (s.retired 0).data 0 = 7 ∧ (J.freed 0).card = 159 ∧
    ∃ s', Step s 0 s' := by
  have hinit : journaled.Reachable ((State.initial (fun _ _ => 0) fun _ _ => 0 : State 2 ℕ),
      .empty) := .init ⟨⟨_, _, rfl⟩, rfl⟩
  have hrun : (Lts.replay State.choose (scanRun 0 1)
      (State.initial (fun _ _ => 0) fun _ _ => 0)).any (fun x => decide
        (x.2.pc 0 = .decide 1 ∧ (x.2.retired 0).size = 1 ∧ (x.2.retired 0).data 0 = 7)) = true := by
    decide +kernel
  obtain ⟨⟨as, s⟩, hreplay, hs⟩ := (Option.any_eq_true _ _).mp hrun
  obtain ⟨hpc, hsize, hdata⟩ : s.pc 0 = .decide 1 ∧ (s.retired 0).size = 1 ∧
      (s.retired 0).data 0 = 7 := of_decide_eq_true hs
  obtain ⟨J, hJ, hretired⟩ := exists_journal hinit hreplay
  have hnodup : J.retired.Nodup := by
    rw [hretired]
    decide +kernel
  obtain ⟨-, hends, hscan⟩ := hazardPtr_room hJ hnodup 0
  obtain ⟨hfound, -, -, -, hsum⟩ := hscan 1 hpc hsize.le
  have hpos : 0 < remaining s 0 := by simp [remaining, hpc]
  refine ⟨s, J, hfound, hsize, hdata, ?_, (hends hpos).1⟩
  rw [hsize] at hsum
  exact Nat.succ.inj hsum

end HazardPtr
end PopSetbench

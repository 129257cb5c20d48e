import PopSetbench.Library.Publication
import PopSetbench.Reclaim.Ibr2gePopPlus

/-!
# IBR-POP+: publications and rounds

What holds in every run of the publications and of the signalling rounds.

* While a thread publishes, in its handler or at the beginning of its own round, the bounds that it
  has stored so far are the private ones (`Stored`).
* `mypublishingTS` counts the publications, modulo its width.
* A round that begins after the retirement of an object makes everybody publish (`Watched`): who is
  pinged has a ping to handle or is in its handler until it has published.
-/

namespace PopSetbench
namespace Ibr2gePopPlus

open Function

variable {n : ℕ} {Obj Loc : Type}

namespace State

variable (s : State n Obj Loc)

/-- The lower bound of thread `u` and what it has published of it. -/
def lowerCopy (u : Fin n) : Copy ℕ∞ := ⟨s.localLower u, s.lowerReservs u, s.pubs u⟩

/-- The upper bound of thread `u` and what it has published of it. -/
def upperCopy (u : Fin n) : Copy ℕ∞ := ⟨s.localUpper u, s.upperReservs u, s.pubs u⟩

end State

/-- The part of its signalling round that a thread is in. -/
def stageOf (n : ℕ) : Pc Obj Loc → Stage
  | .publish _ => .prep
  | .ping i => .reach i
  | .announce => .reach n
  | _ => .out

/-- Thread `u` publishes its interval, in its handler or on its own. -/
def Publishing (s : State n Obj Loc) (u : Fin n) (p : Publish) : Prop :=
  s.handler u = some p ∨ s.pc u = .publish p

/-- The bounds that thread `u` has stored before the write `p`. -/
def Stored (s : State n Obj Loc) (u : Fin n) : Publish → Prop
  | .upper => True
  | .lower => s.upperReservs u = s.localUpper u
  | .count => s.upperReservs u = s.localUpper u ∧ s.lowerReservs u = s.localLower u

/-- Thread `u` has published since the publications were counted in `σ`, or its handler is about
to. -/
def Served (s : State n Obj Loc) (σ : Fin n → ℕ) (u : Fin n) : Prop :=
  σ u < s.pubs u ∨ s.pinged u = true ∨ (s.handler u).isSome = true

/-- What is known of the rounds since the retirement of an object. -/
structure Watched (s : State n Obj Loc) (res : IntervalInfo n Obj) : Prop where
  pubs_le : ∀ u, res.pubs u ≤ s.pubs u
  rounds : ∀ i, Observed (Served s res.pubs) i (res.ann i) (s.ann i) (stageOf n (s.pc i))

section Publications

variable {s : State n Obj Loc} {t u : Fin n} {p q : Publish}

/-- What is stored is the private value. -/
theorem Stored.publish (h : Stored s u p) (t : Fin n) (q : Publish) :
    Stored (s.publish t q) u p := by
  have upper : s.upperReservs u = s.localUpper u →
      update s.upperReservs t (s.localUpper t) u = s.localUpper u := by
    intro h
    by_cases hu : u = t
    · subst hu
      exact update_self ..
    · rwa [update_of_ne hu]
  have lower : s.lowerReservs u = s.localLower u →
      update s.lowerReservs t (s.localLower t) u = s.localLower u := by
    intro h
    by_cases hu : u = t
    · subst hu
      exact update_self ..
    · rwa [update_of_ne hu]
  cases p with
  | upper => trivial
  | lower =>
    cases q with
    | upper => exact upper h
    | lower | count => exact h
  | count =>
    cases q with
    | upper => exact ⟨upper h.1, h.2⟩
    | lower => exact ⟨h.1, lower h.2⟩
    | count => exact h

/-- One more bound is stored. -/
theorem Stored.next (h : Stored s t p) (hnext : p.next = some q) :
    Stored (s.publish t p) t q := by
  cases p with
  | upper =>
    cases hnext
    exact update_self ..
  | lower =>
    cases hnext
    exact ⟨h, update_self ..⟩
  | count => cases hnext

theorem Pc.afterPublish_eq (h : (Pc.afterPublish p : Pc Obj Loc) = .publish q) :
    p.next = some q := by
  cases p with
  | upper | lower =>
    cases h
    rfl
  | count => cases h

end Publications

variable [DecidableEq Obj] [DecidableEq Loc] {cfg : Config} {s s' : State n Obj Loc}
  {a : Actor n} {t u : Fin n} {o : Obj} {res : IntervalInfo n Obj} {p : Publish}

/-- While a thread publishes, its private bounds stay, and what it has stored are these. -/
theorem Step.stored (hstep : Step cfg s a s') (h : ∀ u p, Publishing s u p → Stored s u p)
    (hpub : Publishing s' u p) : Stored s' u p := by
  -- a step of thread `t` that is not about bounds
  have keep : ∀ {t : Fin n} {q : Pc Obj Loc},
      (s.handler u = some p ∨ update s.pc t q u = .publish p) → (∀ p, q ≠ .publish p) →
        Stored s u p := by
    intro t q hpub hq
    refine h u p (hpub.imp id fun hpc => ?_)
    by_cases hu : u = t
    · subst hu
      rw [update_self] at hpc
      exact absurd hpc (hq p)
    · rwa [update_of_ne hu] at hpc
  -- a step of thread `t` that sets a private bound
  have other : ∀ {t : Fin n} {q : Pc Obj Loc}, s.Runs t →
      (s.handler u = some p ∨ update s.pc t q u = .publish p) → (∀ p, q ≠ .publish p) →
        u ≠ t := by
    rintro t q hr hpub hq rfl
    rcases hpub with hhand | hpc
    · rw [hr.2] at hhand
      cases hhand
    · rw [update_self] at hpc
      exact hq p hpc
  -- the private bounds of another thread are not this one's
  have lower : ∀ {t : Fin n} {e : ℕ∞}, u ≠ t → Stored s u p → Stored (s.setLower t e) u p := by
    intro t e hu hst
    cases p with
    | upper | lower => exact hst
    | count => exact ⟨hst.1, hst.2.trans (update_of_ne hu ..).symm⟩
  have upper : ∀ {t : Fin n} {e : ℕ∞}, u ≠ t → Stored s u p → Stored (s.setUpper t e) u p := by
    intro t e hu hst
    cases p with
    | upper => exact hst
    | lower => exact hst.trans (update_of_ne hu ..).symm
    | count => exact ⟨hst.1.trans (update_of_ne hu ..).symm, hst.2⟩
  cases hstep with
  | write | link | unlink | scanFree => exact h u p hpub
  | alloc t hr hpc =>
    refine keep (t := t) hpub fun q => ?_
    split <;> simp
  | startLower t e hr hpc =>
    -- a thread does not publish while it sets a private bound
    have hu := other hr hpub nofun
    exact lower hu (keep (t := t) hpub nofun)
  | startUpper t e hr hpc =>
    have hu := other hr hpub nofun
    exact upper hu (keep (t := t) hpub nofun)
  | endOp t hr hpc hin =>
    have hu := other hr hpub nofun
    exact lower hu (keep (t := t) hpub nofun)
  | endUpper t hr hpc =>
    have hu := other hr hpub nofun
    exact upper hu (keep (t := t) hpub nofun)
  | readStore t l curr hr hpc =>
    have hu := other hr hpub nofun
    exact upper hu (keep (t := t) hpub nofun)
  | sampleEnd t hr hpc =>
    -- the thread begins to publish, and has stored nothing yet
    rcases hpub with hhand | hpc'
    · exact h u p (.inl hhand)
    · have hpc' : update s.pc t (.publish .upper) u = .publish p := hpc'
      by_cases hu : u = t
      · subst hu
        rw [update_self] at hpc'
        cases hpc'
        trivial
      · rw [update_of_ne hu] at hpc'
        exact h u p (.inr hpc')
  | publish t q hr hpc =>
    -- one more bound is stored, or the counter is increased
    show Stored (s.publish t q) u p
    rcases hpub with hhand | hpc'
    · have hhand : s.handler u = some p := by cases q <;> exact hhand
      exact (h u p (.inl hhand)).publish t q
    · have hpc' : update s.pc t (.afterPublish q) u = .publish p := by cases q <;> exact hpc'
      by_cases hu : u = t
      · subst hu
        rw [update_self] at hpc'
        exact (h u q (.inr hpc)).next (Pc.afterPublish_eq hpc')
      · rw [update_of_ne hu] at hpc'
        exact (h u p (.inr hpc')).publish t q
  | handlerEnter t hp hh =>
    -- the handler begins to publish, for the thread it interrupts
    rcases hpub with hhand | hpc
    · have hhand : update s.handler t (some .upper) u = some p := hhand
      by_cases hu : u = t
      · subst hu
        rw [update_self] at hhand
        cases hhand
        trivial
      · rw [update_of_ne hu] at hhand
        exact h u p (.inl hhand)
    · exact h u p (.inr hpc)
  | handlerPublish t q hh =>
    -- and it stores as the thread itself does
    show Stored (s.publish t q) u p
    rcases hpub with hhand | hpc
    · have hhand : update s.handler t q.next u = some p := by cases q <;> exact hhand
      by_cases hu : u = t
      · subst hu
        rw [update_self] at hhand
        exact (h u q (.inl hh)).next hhand
      · rw [update_of_ne hu] at hhand
        exact (h u p (.inl hhand)).publish t q
    · have hpc : s.pc u = .publish p := by cases q <;> exact hpc
      exact (h u p (.inr hpc)).publish t q
  | _ t => exact keep (t := t) hpub nofun

/-- An object is retired in the step, which changes no operation and no bounds. -/
structure Retires (s s' : State n Obj Loc) (o : Obj) : Prop where
  life : s.life o = .unlinked
  begun : s'.begun = s.begun
  inOp : s'.inOp = s.inOp
  lowerCopy : s'.lowerCopy = s.lowerCopy
  upperCopy : s'.upperCopy = s.upperCopy
  ann : s'.ann = s.ann
  birthEpoch : s'.birthEpoch = s.birthEpoch

/-- Every object in a list was there before, or is retired in the step. -/
theorem Step.mem_retired (hstep : Step cfg s a s') (hres : res ∈ s'.retired t) :
    res ∈ s.retired t ∨ ∃ o, res = s.entry o ∧ Retires s s' o := by
  have push : ∀ (u : Fin n) (o : Obj),
      res ∈ update s.retired u (s.retired u ++ [s.entry o]) t →
        res ∈ s.retired t ∨ res = s.entry o := by
    intro u o hres
    by_cases ht : t = u
    · subst ht
      rw [update_self, List.mem_append, List.mem_singleton] at hres
      exact hres
    · rw [update_of_ne ht] at hres
      exact .inl hres
  cases hstep with
  | retireHiWm u o _ hpc ho | retireEnterLoWm u o _ hpc ho | retireLoWm u o _ hpc ho
  | retire u o _ hpc ho =>
    exact (push u o hres).imp id fun h => ⟨o, h, ho, rfl, rfl, rfl, rfl, rfl, rfl⟩
  | scanFree u path pos r _ hpc hget hfree =>
    left
    have hres : res ∈ update s.retired u ((s.retired u).eraseIdx pos) t := hres
    by_cases ht : t = u
    · subst ht
      rw [update_self] at hres
      exact List.mem_of_mem_eraseIdx hres
    · rwa [update_of_ne ht] at hres
  | publish _ p | handlerPublish _ p => cases p <;> exact .inl hres
  | _ => exact .inl hres

/-- Publications are never taken back. -/
theorem Step.pubs_le (hstep : Step cfg s a s') (u : Fin n) : s.pubs u ≤ s'.pubs u := by
  have bump : ∀ t, s.pubs u ≤ update s.pubs t (s.pubs t + 1) u := by
    intro t
    by_cases hu : u = t
    · subst hu
      rw [update_self]
      exact Nat.le_succ _
    · rw [update_of_ne hu]
  cases hstep with
  | publish t p | handlerPublish t p =>
    cases p with
    | count => exact bump t
    | upper | lower => exact le_rfl
  | _ => exact le_rfl

/-- A ping leads to the handler, and the handler to a publication. -/
theorem Served.step {σ : Fin n → ℕ} (hstep : Step cfg s a s') (hle : σ u ≤ s.pubs u)
    (h : Served s σ u) : Served s' σ u := by
  rcases h with hpub | hping | hhand
  · -- the counter has been increased already
    exact .inl (hpub.trans_le (hstep.pubs_le u))
  · -- the ping is pending, or its handler takes it over
    cases hstep with
    | ping t i _ hpc hi =>
      refine .inr (.inl ?_)
      show update s.pinged i true u = true
      by_cases hu : u = i
      · subst hu
        exact update_self ..
      · rwa [update_of_ne hu]
    | handlerEnter t hp hh =>
      by_cases hu : u = t
      · subst hu
        refine .inr (.inr ?_)
        show (update s.handler u (some .upper) u).isSome = true
        rw [update_self]
        rfl
      · refine .inr (.inl ?_)
        show update s.pinged t false u = true
        rwa [update_of_ne hu]
    | publish t p | handlerPublish t p => cases p <;> exact .inr (.inl hping)
    | _ => exact .inr (.inl hping)
  · -- the handler goes on, or has increased the counter
    have other : ∀ {t : Fin n} {h : Option Publish}, u ≠ t →
        (update s.handler t h u).isSome = true := by
      intro t h hu
      rwa [update_of_ne hu]
    cases hstep with
    | handlerEnter t hp hh =>
      refine .inr (.inr (other ?_))
      rintro rfl
      rw [hh] at hhand
      cases hhand
    | handlerPublish t p hh =>
      by_cases hu : u = t
      · subst hu
        cases p with
        | upper | lower =>
          refine .inr (.inr ?_)
          show (update s.handler u (some _) u).isSome = true
          rw [update_self]
          rfl
        | count =>
          refine .inl (hle.trans_lt ?_)
          show s.pubs u < update s.pubs u (s.pubs u + 1) u
          rw [update_self]
          exact Nat.lt_succ_self _
      · cases p <;> exact .inr (.inr (other hu))
    | publish t p => cases p <;> exact .inr (.inr hhand)
    | _ => exact .inr (.inr hhand)

/-- What a step does to the signalling round of thread `i`. -/
theorem Step.round {σ : Fin n → ℕ} (hstep : Step cfg s a s') (hle : ∀ u, σ u ≤ s.pubs u)
    (i : Fin n) : Stage.Step (Served s' σ) i (s.ann i) (stageOf n (s.pc i)) (s'.ann i)
      (stageOf n (s'.pc i)) := by
  -- a step that is not about a round
  have stay : ∀ {P : Fin n → Prop} {t : Fin n} {p q : Pc Obj Loc}, s.pc t = p →
      stageOf n q = stageOf n p →
        Stage.Step P i (s.ann i) (stageOf n (s.pc i)) (s.ann i)
          (stageOf n (update s.pc t q i)) := by
    intro P t p q hpc hst
    have hi : stageOf n (update s.pc t q i) = stageOf n (s.pc i) := by
      by_cases hit : i = t
      · subst hit
        rw [update_self, hst, hpc]
      · rw [update_of_ne hit]
    rw [hi]
    exact .stay ..
  -- a step of the round of thread `t`
  have move : ∀ {P : Fin n → Prop} {t : Fin n} {p q : Pc Obj Loc} {m : ℕ}, s.pc t = p →
      Stage.Step P t (s.ann t) (stageOf n p) m (stageOf n q) →
        Stage.Step P i (s.ann i) (stageOf n (s.pc i)) (update s.ann t m i)
          (stageOf n (update s.pc t q i)) := by
    intro P t p q m hpc hround
    by_cases hit : i = t
    · subst hit
      rw [update_self, update_self, hpc]
      exact hround
    · rw [update_of_ne hit, update_of_ne hit]
      exact .stay ..
  have same : ∀ {P : Fin n → Prop} {t : Fin n} {p q : Pc Obj Loc}, s.pc t = p →
      Stage.Step P t (s.ann t) (stageOf n p) (s.ann t) (stageOf n q) →
        Stage.Step P i (s.ann i) (stageOf n (s.pc i)) (s.ann i)
          (stageOf n (update s.pc t q i)) := by
    intro P t p q hpc hround
    have h := move hpc hround
    rwa [update_eq_self] at h
  cases hstep with
  | alloc t _ hpc =>
    refine stay hpc ?_
    split <;> rfl
  -- the thread has published its own bounds, and the signals begin
  | sampleEnd t _ hpc => exact move hpc (.prepare _)
  | publish t p _ hpc =>
    cases p with
    | upper | lower => exact stay hpc rfl
    | count =>
      refine same hpc (.prepared _ (.inl ((hle t).trans_lt ?_)))
      show s.pubs t < update s.pubs t (s.pubs t + 1) t
      rw [update_self]
      exact Nat.lt_succ_self _
  -- one more thread is pinged, or skipped
  | ping t v _ hpc hv => exact same hpc (.signal _ v (.inr (.inr (.inl (update_self ..)))))
  | pingSelf t _ hpc => exact same hpc (.signal _ t (.inl rfl))
  | announce t _ hpc => exact move hpc (.finish _)
  -- the rest of the code is no part of a round
  | write | link | unlink | scanFree | handlerEnter => exact .stay ..
  | handlerPublish t p => cases p <;> exact .stay ..
  | bumpEpoch t _ hpc | callStartOp t _ hpc | startLower t e _ hpc | startUpper t e _ hpc
  | endOp t _ hpc | endUpper t _ hpc | callRead t l _ hpc | readLoad t l prev _ hpc
  | readReturn t l prev ptr r _ hpc | readMove t l prev ptr r _ hpc | readStore t l curr _ hpc
  | retireHiWm t o _ hpc | retireEnterLoWm t o _ hpc | retireLoWm t o _ hpc | retire t o _ hpc
  | sample t v _ hpc | pingEnd t _ hpc | save t _ hpc | confirm t v _ hpc | confirmEnd t _ hpc
  | saveLoWm t _ hpc | checkHit t _ hpc | checkMiss t _ hpc | copyLower t v path _ hpc
  | copyUpper t v path _ hpc | copied t path _ hpc | scanKeep t path pos res _ hpc
  | emptyHiWm t pos _ hpc | emptyLoWm t pos _ hpc => exact stay hpc rfl

/-- **What holds in every run** of the publications and the rounds. -/
structure Base (s : State n Obj Loc) : Prop where
  /-- The shared counter counts modulo its width. -/
  mypublishingTS : ∀ u, s.mypublishingTS u = BitVec.ofNat 32 (s.pubs u)
  /-- The samples are values the counter had. -/
  myscannedTS : ∀ t u, s.myscannedTS t u = BitVec.ofNat 32 (s.scannedPubs t u)
  scannedPubs_le : ∀ t u, s.scannedPubs t u ≤ s.pubs u
  stored : ∀ u p, Publishing s u p → Stored s u p
  counts : ∀ i, Counts (s.ann i) (stageOf n (s.pc i))
  watched : ∀ t, ∀ res ∈ s.retired t, Watched s res

omit [DecidableEq Obj] [DecidableEq Loc] in
theorem Base.initial : Base (State.initial cfg n Obj Loc) where
  mypublishingTS _ := rfl
  myscannedTS _ _ := rfl
  scannedPubs_le _ _ := le_rfl
  stored := by
    rintro u p (h | h) <;> cases h
  counts _ := ⟨fun h => absurd h (by simp [State.initial]), fun h => absurd rfl h⟩
  watched _ _ h := absurd h List.not_mem_nil

theorem Base.watched_step (hB : Base s) (hstep : Step cfg s a s') (hres : res ∈ s'.retired t) :
    Watched s' res := by
  rcases hstep.mem_retired hres with hold | ⟨o, rfl, hret⟩
  · have hW := hB.watched t res hold
    exact
      { pubs_le := fun u => (hW.pubs_le u).trans (hstep.pubs_le u)
        rounds := fun i => (hW.rounds i).step (hB.counts i) (hstep.round hW.pubs_le i) fun u =>
          Served.step hstep (hW.pubs_le u) }
  · -- the observation begins
    refine ⟨fun u => hstep.pubs_le u, fun i => ?_⟩
    rw [hret.ann]
    exact .now ..

theorem Base.step (hB : Base s) (hstep : Step cfg s a s') : Base s' where
  mypublishingTS := by
    cases hstep with
    | publish t p | handlerPublish t p =>
      cases p with
      | count => exact BitVec.update_ofNat hB.mypublishingTS t
      | upper | lower => exact hB.mypublishingTS
    | _ => exact hB.mypublishingTS
  myscannedTS := by
    cases hstep with
    | sample t i _ hpc => exact BitVec.update₂_ofNat hB.myscannedTS (hB.mypublishingTS i)
    | publish t p | handlerPublish t p => cases p <;> exact hB.myscannedTS
    | _ => exact hB.myscannedTS
  scannedPubs_le t u := by
    have hle := (hB.scannedPubs_le t u).trans (hstep.pubs_le u)
    cases hstep with
    | sample v i _ hpc => exact update₂_le hB.scannedPubs_le (fun _ => le_rfl) v i t u
    | publish v p | handlerPublish v p => cases p <;> exact hle
    | _ => exact hle
  stored _ _ := hstep.stored hB.stored
  counts i := (hB.counts i).step (hstep.round (fun u => le_refl (s.pubs u)) i)
  watched _ _ := hB.watched_step hstep

end Ibr2gePopPlus
end PopSetbench

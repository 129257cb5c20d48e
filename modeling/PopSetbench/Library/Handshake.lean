import Mathlib.Logic.Function.Basic
import PopSetbench.Library.Round

/-!
# Reservations that are published on request

Each of `n` threads keeps `k` private reservations. They become visible to the others
only when the thread *publishes*: it copies its private entries, one by one, into a
shared table and then counts the publication. A thread publishes when it is pinged
(in a handler that runs before its next own step, but at any later moment) and, in the
variant `selfPub`, at the beginning of its own signalling rounds.

`Handshake.Step` lists everything the threads can do to this table, and
`Handshake.Inv` is what all of it keeps. Two results carry the safety arguments built
on top:

* `Inv.pub_eq` — once a thread has completed one publication after it last wrote a
  private entry, its published entry is its private one;
* `observed_step` — the observation of a thread's rounds (`Observed`) is kept by
  every step, where "served" means that the thread has completed a publication since
  the observation began, or is about to: a ping is in flight, or its handler is running
  (`Handshake.Served`).
-/

/-- Updating a composition where it already has the value changes nothing. -/
theorem Function.update_comp_of_eq {α β γ : Type*} [DecidableEq α] {f : β → γ} {g : α → β}
    {a : α} {c : γ} (h : f (g a) = c) : Function.update (f ∘ g) a c = f ∘ g := by
  subst h
  exact Function.update_eq_self ..

/-- The private and the published reservations of `n` threads, `k` each, with the
progress of every publication and of every signalling round. -/
structure Handshake (n k : ℕ) (R : Type*) where
  /-- The private entries. -/
  loc : Fin n → Fin k → R
  /-- The published entries. -/
  pub : Fin n → Fin k → R
  /-- The number of publications completed so far. -/
  pubs : Fin n → ℕ
  /-- The value of `pubs` when a private entry was last written. -/
  setAt : Fin n → Fin k → ℕ
  /-- A ping is in flight. -/
  pinged : Fin n → Bool
  /-- The number of entries the running handler has copied. -/
  handler : Fin n → Option ℕ
  /-- The number of entries the thread itself has copied in its round. -/
  self : Fin n → Option ℕ
  /-- The round counter, odd while a round is in progress. -/
  ann : Fin n → ℕ
  /-- The progress of the round. -/
  stage : Fin n → Stage

namespace Handshake

open Function

variable {n k : ℕ} {R : Type*} {selfPub : Bool}

/-- The steps on the table. `selfPub` says whether a signalling thread publishes its own
reservations before it signals the others. -/
inductive Step (selfPub : Bool) : Handshake n k R → Handshake n k R → Prop
  /-- A private entry is written; never while the thread publishes. -/
  | write (h : Handshake n k R) (u : Fin n) (e : Fin k) (r : R)
      (hh : h.handler u = none) (hs : h.self u = none) :
      Step selfPub h { h with
        loc := update h.loc u (update (h.loc u) e r)
        setAt := update h.setAt u (update (h.setAt u) e (h.pubs u)) }
  /-- A round begins with the thread's own publication. -/
  | beginSelf (h : Handshake n k R) (u : Fin n) (hs : h.stage u = .out) (hp : selfPub = true) :
      Step selfPub h { h with
        ann := update h.ann u (h.ann u + 1)
        stage := update h.stage u .prep
        self := update h.self u (some 0) }
  /-- A round begins with the first signal. -/
  | begin (h : Handshake n k R) (u : Fin n) (hs : h.stage u = .out) (hp : selfPub = false) :
      Step selfPub h { h with
        ann := update h.ann u (h.ann u + 1)
        stage := update h.stage u (.reach 0) }
  /-- The signalling thread copies one of its own entries. -/
  | selfCopy (h : Handshake n k R) (u : Fin n) (e : Fin k) (hs : h.self u = some e.val) :
      Step selfPub h { h with
        pub := update h.pub u (update (h.pub u) e (h.loc u e))
        self := update h.self u (some (e.val + 1)) }
  /-- The signalling thread has published its own entries. -/
  | selfDone (h : Handshake n k R) (u : Fin n) (hs : h.self u = some k)
      (hst : h.stage u = .prep) :
      Step selfPub h { h with
        pubs := update h.pubs u (h.pubs u + 1)
        self := update h.self u none
        stage := update h.stage u (.reach 0) }
  /-- The signalling thread pings thread `v`. -/
  | ping (h : Handshake n k R) (u v : Fin n) (hs : h.stage u = .reach v.val) :
      Step selfPub h { h with
        pinged := update h.pinged v true
        stage := update h.stage u (.reach (v.val + 1)) }
  /-- The signalling thread leaves itself out. -/
  | skip (h : Handshake n k R) (u : Fin n) (hs : h.stage u = .reach u.val) :
      Step selfPub h { h with stage := update h.stage u (.reach (u.val + 1)) }
  /-- Everybody has been pinged: the round ends. -/
  | finish (h : Handshake n k R) (u : Fin n) (hs : h.stage u = .reach n) :
      Step selfPub h { h with
        ann := update h.ann u (h.ann u + 1)
        stage := update h.stage u .out }
  /-- A pinged thread enters its handler. -/
  | enter (h : Handshake n k R) (u : Fin n) (hp : h.pinged u = true) (hh : h.handler u = none) :
      Step selfPub h { h with
        pinged := update h.pinged u false
        handler := update h.handler u (some 0) }
  /-- The handler copies one entry. -/
  | handlerCopy (h : Handshake n k R) (u : Fin n) (e : Fin k) (hh : h.handler u = some e.val) :
      Step selfPub h { h with
        pub := update h.pub u (update (h.pub u) e (h.loc u e))
        handler := update h.handler u (some (e.val + 1)) }
  /-- The handler counts the publication and returns. -/
  | handlerDone (h : Handshake n k R) (u : Fin n) (hh : h.handler u = some k) :
      Step selfPub h { h with
        pubs := update h.pubs u (h.pubs u + 1)
        handler := update h.handler u none }

/-- The first `m` published entries of `u` are its private ones. -/
def CopiedBelow (h : Handshake n k R) (u : Fin n) (m : ℕ) : Prop :=
  ∀ e : Fin k, e.val < m → h.pub u e = h.loc u e

/-- What every step keeps. -/
structure Inv (h : Handshake n k R) : Prop where
  /-- An entry published since it was last written is the private one. -/
  fresh : ∀ u e, h.setAt u e < h.pubs u → h.pub u e = h.loc u e
  /-- No entry was written after the last publication counted so far. -/
  setAt_le : ∀ u e, h.setAt u e ≤ h.pubs u
  /-- The handler has copied what it counts. -/
  handler_copied : ∀ u m, h.handler u = some m → h.CopiedBelow u m
  /-- The thread itself has copied what it counts. -/
  self_copied : ∀ u m, h.self u = some m → h.CopiedBelow u m
  /-- The round counter is odd exactly during a round. -/
  counts : ∀ u, Counts (h.ann u) (h.stage u)

/-- Publishing an entry keeps it equal to the private one, and touches no other. -/
private theorem copy_apply (h : Handshake n k R) (u v : Fin n) (e e' : Fin k) :
    update h.pub u (update (h.pub u) e (h.loc u e)) v e' = h.loc v e' ∨
      update h.pub u (update (h.pub u) e (h.loc u e)) v e' = h.pub v e' := by
  by_cases hv : v = u
  · subst hv
    rw [update_self]
    by_cases he : e' = e
    · subst he
      exact .inl (update_self ..)
    · exact .inr (update_of_ne he ..)
  · rw [update_of_ne hv]
    exact .inr rfl

private theorem copy_eq_of_eq {h : Handshake n k R} {u v : Fin n} {e e' : Fin k}
    (heq : h.pub v e' = h.loc v e') :
    update h.pub u (update (h.pub u) e (h.loc u e)) v e' = h.loc v e' :=
  (copy_apply h u v e e').elim id fun h' => h'.trans heq

/-- After copying entry `e` on top of the entries below it, one more is copied. -/
private theorem CopiedBelow.copy_succ {h : Handshake n k R} {u : Fin n} {e : Fin k}
    (hc : h.CopiedBelow u e.val) (e' : Fin k) (he' : e'.val < e.val + 1) :
    update h.pub u (update (h.pub u) e (h.loc u e)) u e' = h.loc u e' := by
  rw [update_self]
  rcases Nat.lt_succ_iff_lt_or_eq.mp he' with hlt | heq
  · rw [update_of_ne (fun hh => absurd (congrArg Fin.val hh) (Nat.ne_of_lt hlt))]
    exact hc e' hlt
  · obtain rfl : e' = e := Fin.ext heq
    exact update_self ..

/-- Copying an entry keeps the invariant, whoever copies it. -/
private theorem Inv.copy {h : Handshake n k R} (hI : h.Inv) (u : Fin n) (e : Fin k) :
    Inv { h with pub := update h.pub u (update (h.pub u) e (h.loc u e)) } where
  fresh v e' hlt := copy_eq_of_eq (hI.fresh v e' hlt)
  setAt_le := hI.setAt_le
  handler_copied v m hm e' he' := copy_eq_of_eq (hI.handler_copied v m hm e' he')
  self_copied v m hm e' he' := copy_eq_of_eq (hI.self_copied v m hm e' he')
  counts := hI.counts

/-- Counting a complete publication keeps the invariant. -/
private theorem Inv.count {h : Handshake n k R} (hI : h.Inv) {u : Fin n}
    (hc : h.CopiedBelow u k) :
    Inv { h with pubs := update h.pubs u (h.pubs u + 1) } where
  fresh v e hlt := by
    change h.setAt v e < update h.pubs u (h.pubs u + 1) v at hlt
    by_cases hv : v = u
    · subst hv
      exact hc e e.isLt
    · rw [update_of_ne hv] at hlt
      exact hI.fresh v e hlt
  setAt_le v e := by
    change h.setAt v e ≤ update h.pubs u (h.pubs u + 1) v
    by_cases hv : v = u
    · subst hv
      rw [update_self]
      exact Nat.le_succ_of_le (hI.setAt_le v e)
    · rw [update_of_ne hv]
      exact hI.setAt_le v e
  handler_copied := hI.handler_copied
  self_copied := hI.self_copied
  counts := hI.counts

/-- Setting the progress of a handler keeps the invariant if the entries are copied. -/
private theorem Inv.setHandler {h : Handshake n k R} (hI : h.Inv) (u : Fin n)
    (pinged : Fin n → Bool) {o : Option ℕ} (hc : ∀ m, o = some m → h.CopiedBelow u m) :
    Inv { h with pinged := pinged, handler := update h.handler u o } where
  fresh := hI.fresh
  setAt_le := hI.setAt_le
  handler_copied v m hm := by
    change update h.handler u o v = some m at hm
    by_cases hv : v = u
    · subst hv
      rw [update_self] at hm
      exact hc m hm
    · rw [update_of_ne hv] at hm
      exact hI.handler_copied v m hm
  self_copied := hI.self_copied
  counts := hI.counts

/-- Setting the progress of a thread's own publication keeps the invariant if the entries
are copied. -/
private theorem Inv.setSelf {h : Handshake n k R} (hI : h.Inv) (u : Fin n) {o : Option ℕ}
    (hc : ∀ m, o = some m → h.CopiedBelow u m) :
    Inv { h with self := update h.self u o } where
  fresh := hI.fresh
  setAt_le := hI.setAt_le
  handler_copied := hI.handler_copied
  self_copied v m hm := by
    change update h.self u o v = some m at hm
    by_cases hv : v = u
    · subst hv
      rw [update_self] at hm
      exact hc m hm
    · rw [update_of_ne hv] at hm
      exact hI.self_copied v m hm
  counts := hI.counts

/-- Moving a round on keeps the invariant if the counter stays in step. -/
private theorem Inv.setStage {h : Handshake n k R} (hI : h.Inv) (u : Fin n)
    (pinged : Fin n → Bool) (a : ℕ) (st : Stage) (hc : Counts a st) :
    Inv { h with pinged := pinged, ann := update h.ann u a, stage := update h.stage u st } where
  fresh := hI.fresh
  setAt_le := hI.setAt_le
  handler_copied := hI.handler_copied
  self_copied := hI.self_copied
  counts v := by
    change Counts (update h.ann u a v) (update h.stage u st v)
    by_cases hv : v = u
    · subst hv
      rw [update_self, update_self]
      exact hc
    · rw [update_of_ne hv, update_of_ne hv]
      exact hI.counts v

/-- Writing a private entry keeps the invariant. -/
private theorem Inv.write {h : Handshake n k R} (hI : h.Inv) {u : Fin n} (e : Fin k) (r : R)
    (hh : h.handler u = none) (hs : h.self u = none) :
    Inv { h with
      loc := update h.loc u (update (h.loc u) e r)
      setAt := update h.setAt u (update (h.setAt u) e (h.pubs u)) } where
  fresh v e' hlt := by
    change update h.setAt u (update (h.setAt u) e (h.pubs u)) v e' < h.pubs v at hlt
    change h.pub v e' = update h.loc u (update (h.loc u) e r) v e'
    by_cases hv : v = u
    · subst hv
      rw [update_self] at hlt ⊢
      by_cases he : e' = e
      · subst he
        rw [update_self] at hlt
        exact absurd hlt (Nat.lt_irrefl _)
      · rw [update_of_ne he] at hlt ⊢
        exact hI.fresh v e' hlt
    · rw [update_of_ne hv] at hlt ⊢
      exact hI.fresh v e' hlt
  setAt_le v e' := by
    change update h.setAt u (update (h.setAt u) e (h.pubs u)) v e' ≤ h.pubs v
    by_cases hv : v = u
    · subst hv
      rw [update_self]
      by_cases he : e' = e
      · subst he
        rw [update_self]
      · rw [update_of_ne he]
        exact hI.setAt_le v e'
    · rw [update_of_ne hv]
      exact hI.setAt_le v e'
  handler_copied v m hm e' he' := by
    have hv : v ≠ u := fun hvu => by subst hvu; rw [hh] at hm; cases hm
    change h.pub v e' = update h.loc u (update (h.loc u) e r) v e'
    rw [update_of_ne hv]
    exact hI.handler_copied v m hm e' he'
  self_copied v m hm e' he' := by
    have hv : v ≠ u := fun hvu => by subst hvu; rw [hs] at hm; cases hm
    change h.pub v e' = update h.loc u (update (h.loc u) e r) v e'
    rw [update_of_ne hv]
    exact hI.self_copied v m hm e' he'
  counts := hI.counts

private theorem copiedBelow_zero (h : Handshake n k R) (u : Fin n) : h.CopiedBelow u 0 :=
  fun _ he => absurd he (Nat.not_lt_zero _)

/-- **Invariant preservation.** -/
theorem Inv.step {h h' : Handshake n k R} (hI : h.Inv) (hstep : Step selfPub h h') : h'.Inv := by
  cases hstep with
  | write u e r hh hs => exact hI.write e r hh hs
  | beginSelf u hs hp =>
    -- the counter becomes odd, and no thread is reached yet
    have hc : Counts (h.ann u) .out := hs ▸ hI.counts u
    refine (hI.setStage u h.pinged _ .prep (hc.begin (by simp))).setSelf u ?_
    rintro m ⟨⟩
    exact copiedBelow_zero _ u
  | begin u hs hp =>
    have hc : Counts (h.ann u) .out := hs ▸ hI.counts u
    exact hI.setStage u h.pinged _ (.reach 0) (hc.begin (by simp))
  | selfCopy u e hs =>
    -- the thread publishes its own row first
    refine (hI.copy u e).setSelf u ?_
    rintro m ⟨⟩
    exact (hI.self_copied u _ hs).copy_succ
  | selfDone u hs hst =>
    have hc : Counts (h.ann u) .prep := hst ▸ hI.counts u
    have hdone := (hI.count (hI.self_copied u k hs)).setSelf u (o := none) (by simp)
    have hstage := hdone.setStage u h.pinged (h.ann u) (.reach 0)
      (hc.advance (by simp) (by simp))
    simpa using hstage
  | ping u v hs =>
    -- the threads are reached one after the other
    have hc : Counts (h.ann u) (.reach v.val) := hs ▸ hI.counts u
    have hstage := hI.setStage u (update h.pinged v true) (h.ann u) (.reach (v.val + 1))
      (hc.advance (by simp) (by simp))
    simpa using hstage
  | skip u hs =>
    have hc : Counts (h.ann u) (.reach u.val) := hs ▸ hI.counts u
    have hstage := hI.setStage u h.pinged (h.ann u) (.reach (u.val + 1))
      (hc.advance (by simp) (by simp))
    simpa using hstage
  | finish u hs =>
    -- the counter becomes even when all have been reached
    have hc : Counts (h.ann u) (.reach n) := hs ▸ hI.counts u
    exact hI.setStage u h.pinged _ .out (hc.finish (by simp))
  | enter u hp hh =>
    -- a handler runs only after its ping
    refine hI.setHandler u (update h.pinged u false) ?_
    rintro m ⟨⟩
    exact copiedBelow_zero h u
  | handlerCopy u e hh =>
    refine (hI.copy u e).setHandler u h.pinged ?_
    rintro m ⟨⟩
    exact (hI.handler_copied u _ hh).copy_succ
  | handlerDone u hh =>
    exact (hI.count (hI.handler_copied u k hh)).setHandler u h.pinged (by simp)

/-- A published entry changes only to the private one. -/
theorem Step.pub_eq_or {h h' : Handshake n k R} (hstep : Step selfPub h h') (u : Fin n)
    (e : Fin k) : h'.pub u e = h.pub u e ∨ h'.pub u e = h.loc u e := by
  cases hstep with
  | selfCopy v e' hs => exact (copy_apply h v u e' e).symm
  | handlerCopy v e' hh => exact (copy_apply h v u e' e).symm
  | _ => exact .inl rfl

/-- Publications are never taken back. -/
theorem Step.pubs_le {h h' : Handshake n k R} (hstep : Step selfPub h h') (u : Fin n) :
    h.pubs u ≤ h'.pubs u := by
  have bump : ∀ v, h.pubs u ≤ update h.pubs v (h.pubs v + 1) u := by
    intro v
    by_cases hu : u = v
    · subst hu
      rw [update_self]
      exact Nat.le_succ _
    · rw [update_of_ne hu]
  cases hstep with
  | selfDone v hs hst => exact bump v
  | handlerDone v hh => exact bump v
  | _ => exact le_rfl

/-- Thread `u` has completed a publication since `σ` was taken, or is about to. -/
def Served (h : Handshake n k R) (σ : Fin n → ℕ) (u : Fin n) : Prop :=
  σ u < h.pubs u ∨ h.pinged u = true ∨ (h.handler u).isSome = true

/-- `Served`, or `u` is the signalling thread itself and does not publish. -/
def ServedBy (selfPub : Bool) (h : Handshake n k R) (σ : Fin n → ℕ) (i u : Fin n) : Prop :=
  (selfPub = false ∧ u = i) ∨ h.Served σ u

/-- A served thread stays served: its ping leads to its handler, its handler to a
completed publication. -/
theorem Served.step {h h' : Handshake n k R} {σ : Fin n → ℕ} {u : Fin n} (hstep : Step selfPub h h')
    (hu : h.Served σ u) (hσ : σ u ≤ h.pubs u) : h'.Served σ u := by
  have hle := hstep.pubs_le u
  rcases hu with hpub | hping | hhand
  · exact .inl (lt_of_lt_of_le hpub hle)
  · -- the ping is still pending, or its handler takes it over
    cases hstep with
    | ping v w hs =>
      refine .inr (.inl ?_)
      change update h.pinged w true u = true
      by_cases huw : u = w
      · subst huw
        exact update_self ..
      · rw [update_of_ne huw]
        exact hping
    | enter v hp hh =>
      by_cases huv : u = v
      · subst huv
        exact .inr (.inr (by simp))
      · refine .inr (.inl ?_)
        change update h.pinged v false u = true
        rw [update_of_ne huv]
        exact hping
    | _ => exact .inr (.inl hping)
  · -- the handler goes on, or has published everything
    cases hstep with
    | enter v hp hh =>
      refine .inr (.inr ?_)
      change (update h.handler v (some 0) u).isSome = true
      by_cases huv : u = v
      · subst huv
        simp
      · rw [update_of_ne huv]
        exact hhand
    | handlerCopy v e hh =>
      refine .inr (.inr ?_)
      change (update h.handler v (some (e.val + 1)) u).isSome = true
      by_cases huv : u = v
      · subst huv
        simp
      · rw [update_of_ne huv]
        exact hhand
    | handlerDone v hh =>
      by_cases huv : u = v
      · subst huv
        refine .inl ?_
        change σ u < update h.pubs u (h.pubs u + 1) u
        rw [update_self]
        exact Nat.lt_succ_of_le hσ
      · refine .inr (.inr ?_)
        change (update h.handler v none u).isSome = true
        rw [update_of_ne huv]
        exact hhand
    | _ => exact .inr (.inr hhand)

theorem ServedBy.step {h h' : Handshake n k R} {σ : Fin n → ℕ} {i u : Fin n}
    (hstep : Step selfPub h h') (hu : h.ServedBy selfPub σ i u) (hσ : σ u ≤ h.pubs u) :
    h'.ServedBy selfPub σ i u :=
  hu.imp id fun hs => hs.step hstep hσ

/-- **Observing a round.** Whatever happens to the table, the observer of thread `i` keeps
what it knows about the rounds of `i`. -/
theorem observed_step {h h' : Handshake n k R} {σ : Fin n → ℕ} {i : Fin n} {saved : ℕ}
    (hI : h.Inv) (hσ : ∀ u, σ u ≤ h.pubs u) (hstep : Step selfPub h h')
    (hobs : Observed (h.ServedBy selfPub σ i) i saved (h.ann i) (h.stage i)) :
    Observed (h'.ServedBy selfPub σ i) i saved (h'.ann i) (h'.stage i) := by
  have hmono := hobs.mono fun u hu => ServedBy.step hstep hu (hσ u)
  cases hstep with
  | beginSelf u hs hp =>
    -- a round begins: the threads served by it are counted from now on
    by_cases hi : i = u
    · subst hi
      rw [hs] at hmono
      simpa using hmono.begin (hs ▸ hI.counts i)
    · simpa [update_of_ne hi] using hmono
  | begin u hs hp =>
    by_cases hi : i = u
    · subst hi
      rw [hs] at hmono
      simpa using (hmono.begin (hs ▸ hI.counts i)).prepared (.inl ⟨hp, rfl⟩)
    · simpa [update_of_ne hi] using hmono
  | selfDone u hs hst =>
    by_cases hi : i = u
    · subst hi
      rw [hst] at hmono
      -- the publication just counted is the pinger's own
      have hcount : σ i < update h.pubs i (h.pubs i + 1) i := by
        rw [update_self]
        exact Nat.lt_succ_of_le (hσ i)
      simpa using hmono.prepared (.inr (.inl hcount))
    · simpa [update_of_ne hi] using hmono
  | ping u v hs =>
    -- the thread that is pinged will be served
    by_cases hi : i = u
    · subst hi
      rw [hs] at hmono
      have hping : update h.pinged v true v = true := update_self ..
      simpa using hmono.signal (.inr (.inr (.inr (.inl hping))))
    · simpa [update_of_ne hi] using hmono
  | skip u hs =>
    by_cases hi : i = u
    · subst hi
      rw [hs] at hmono
      simpa using hmono.signal (.inl rfl)
    · simpa [update_of_ne hi] using hmono
  | finish u hs =>
    -- the round ends, and everybody was reached in it
    by_cases hi : i = u
    · subst hi
      rw [hs] at hmono
      simpa using hmono.finish (hs ▸ hI.counts i)
    · simpa [update_of_ne hi] using hmono
  | _ => exact hmono

end Handshake

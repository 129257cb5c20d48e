import Mathlib.Data.Fintype.Basic
import PopSetbench.Library.Eras
import PopSetbench.Library.Run
import PopSetbench.Reclaim.Object

/-!
# Hazard eras

The reclaimer of `reclaimer_he.h`. `read` reserves the current `epoch` in a slot, and loads the
pointer again until the epoch is the one reserved; it stores nothing if the slot holds that epoch
already. `endOp` clears the slots. Objects are stamped with the epoch at their birth and at their
retirement; `empty` copies all slots and frees the objects whose lifetime contains none of the
copied epochs.

`epoch` is 64 bits wide; here it is a natural number. It starts at one, so a slot that is zero
reserves nothing. The birth epoch of an object is loaded some time before the object is linked; the
model links it with any epoch of the past. `startOp` does nothing. `isFreeable` reads the copies of
the thread that runs `empty`.
-/

namespace PopSetbench
namespace He

open Function

/-- Where a thread is in the code; there are `k` slots a thread. -/
inductive Pc (k : ℕ) (Obj Loc : Type)
  /-- Between two calls. -/
  | idle
  /-- `updateAllocCounterAndEpoch`: about to increment `epoch`. -/
  | bumpEpoch
  /-- `read`: about to load `obj`. -/
  | readLoad (idx : Fin k) (loc : Loc) (prevEpoch : ℕ)
  /-- `read`: about to load `epoch`. Whether the object was reachable when its pointer was loaded is
  bookkeeping. -/
  | readEpoch (idx : Fin k) (loc : Loc) (prevEpoch : ℕ) (ptr : Ptr Obj) (reachable : Bool)
  /-- `read`: about to reserve the epoch it loaded. -/
  | readStore (idx : Fin k) (loc : Loc) (currEpoch : ℕ)
  /-- `endOp`: slots below `i` are cleared. -/
  | endOp (i : ℕ)
  /-- `empty`: the first `m` entries of `reservations` are copied. -/
  | snapshot (m : ℕ)
  /-- `empty`: the iterator is at `pos`. -/
  | scan (pos : ℕ)
  deriving DecidableEq

/-- `HeInfo`. -/
abbrev HeInfo := Span

/-- The state of the reclaimer with `n` threads and of the memory it protects. -/
structure State (n k : ℕ) (Obj Loc : Type) where
  /-- The shared locations that `read` loads from. -/
  mem : Loc → Ptr Obj
  /-- The field `birth_epoch` of each object. -/
  birthEpoch : Obj → ℕ
  /-- `reservations`. -/
  reservations : Fin n → Fin k → ℕ
  /-- `epoch`. -/
  epoch : ℕ
  /-- `alloc_counters`. -/
  allocCounters : Fin n → ℕ
  /-- `retire_counters`. -/
  retireCounters : Fin n → ℕ
  /-- `retired[tid]`, oldest first. -/
  retired : Fin n → List (HeInfo Obj)
  /-- `threadData[tid].scannedHEs`. -/
  scannedHEs : Fin n → Fin n → Fin k → ℕ
  /-- Where each thread is. -/
  pc : Fin n → Pc k Obj Loc
  /-- Bookkeeping: the life of each object. -/
  life : Obj → Life
  /-- Bookkeeping: the objects that `read` has obtained with this slot from a location where they
  were reachable, since the slot was last written. -/
  held : Fin n → Fin k → Obj → Bool

/-- The parameters set by the constructor. -/
structure Config where
  /-- `freq`. -/
  freq : ℕ
  /-- `epoch_freq`. -/
  epochFreq : ℕ

variable {n k : ℕ} {Obj Loc : Type}

/-- `isFreeable`: every copied epoch is before the birth of the object, after its retirement, or
zero. -/
def isFreeable (scannedHEs : Fin n → Fin k → ℕ) (res : HeInfo Obj) : Prop :=
  ∀ u e, scannedHEs u e < res.birthEpoch ∨ res.retireEpoch < scannedHEs u e ∨ scannedHEs u e = 0

instance (scannedHEs : Fin n → Fin k → ℕ) (res : HeInfo Obj) :
    Decidable (isFreeable scannedHEs res) :=
  inferInstanceAs (Decidable (∀ (_ : Fin n) (_ : Fin k), _ ∨ _ ∨ _))

namespace State

/-- The state after the constructor and `initThread` of every thread. -/
def initial (n k : ℕ) (Obj Loc : Type) : State n k Obj Loc where
  mem _ := ⟨none, 0⟩
  birthEpoch _ := 0
  reservations _ _ := 0
  epoch := 1
  allocCounters _ := 0
  retireCounters _ := 0
  retired _ := []
  scannedHEs _ _ _ := 0
  pc _ := .idle
  life _ := .pooled
  held _ _ _ := false

variable (s : State n k Obj Loc)

/-- Thread `t` goes on at `p`. -/
def goto (t : Fin n) (p : Pc k Obj Loc) : State n k Obj Loc :=
  { s with pc := update s.pc t p }

/-- `reservations[tid].ui[e].store(r)`. -/
def store (t : Fin n) (e : Fin k) (r : ℕ) : State n k Obj Loc :=
  { s with
    reservations := update s.reservations t (update (s.reservations t) e r)
    held := update s.held t (update (s.held t) e fun _ => false) }

/-- `myTrash->push_back(HeInfo(obj, birth_epoch, retire_epoch))`, and the call is counted. -/
def pushBack [DecidableEq Obj] (t : Fin n) (o : Obj) : State n k Obj Loc :=
  { s with
    retired := update s.retired t (s.retired t ++ [⟨o, s.birthEpoch o, s.epoch⟩])
    retireCounters := update s.retireCounters t (s.retireCounters t + 1)
    life := update s.life o .retired }

/-- The entry of `reservations` that `empty` copies. -/
def copyEntry (t u : Fin n) (e : Fin k) : State n k Obj Loc :=
  { s with
    scannedHEs := update s.scannedHEs t
      (update (s.scannedHEs t) u (update (s.scannedHEs t u) e (s.reservations u e))) }

/-- `this->pool->add(tid, res.obj); iterator = myTrash->erase(iterator)`. -/
def passToPool [DecidableEq Obj] (t : Fin n) (pos : ℕ) (o : Obj) : State n k Obj Loc :=
  { s with
    retired := update s.retired t ((s.retired t).eraseIdx pos)
    life := update s.life o .pooled }

variable {s} {t u : Fin n} {e : Fin k}

end State

/-- The atomic steps. -/
inductive Step [DecidableEq Obj] [DecidableEq Loc] (cfg : Config) :
    State n k Obj Loc → Actor n → State n k Obj Loc → Prop
  /-- Some operation writes or CASes a shared location. -/
  | write (s : State n k Obj Loc) (l : Loc) (p : Ptr Obj) :
      Step cfg s .env { s with mem := update s.mem l p }
  /-- An object, born in an epoch of the past, is linked. -/
  | link (s : State n k Obj Loc) (o : Obj) (b : ℕ) (h : s.life o = .pooled) (hb : b ≤ s.epoch) :
      Step cfg s .env
        { s with
          life := update s.life o .linked
          birthEpoch := update s.birthEpoch o b }
  /-- An object is unlinked. -/
  | unlink (s : State n k Obj Loc) (o : Obj) (h : s.life o = .linked) :
      Step cfg s .env { s with life := update s.life o .unlinked }
  /-- `updateAllocCounterAndEpoch`, called by an allocation; the epoch stays. -/
  | alloc (s : State n k Obj Loc) (t : Fin n) (hpc : s.pc t = .idle)
      (hmod : (s.allocCounters t + 1) % (cfg.epochFreq * n) ≠ 0) :
      Step cfg s (.thread t)
        { s with allocCounters := update s.allocCounters t (s.allocCounters t + 1) }
  /-- `updateAllocCounterAndEpoch`, called by an allocation; the epoch will be incremented. -/
  | allocBump (s : State n k Obj Loc) (t : Fin n) (hpc : s.pc t = .idle)
      (hmod : (s.allocCounters t + 1) % (cfg.epochFreq * n) = 0) :
      Step cfg s (.thread t)
        { s.goto t .bumpEpoch with
          allocCounters := update s.allocCounters t (s.allocCounters t + 1) }
  | bumpEpoch (s : State n k Obj Loc) (t : Fin n) (hpc : s.pc t = .bumpEpoch) :
      Step cfg s (.thread t) { s.goto t .idle with epoch := s.epoch + 1 }
  | callRead (s : State n k Obj Loc) (t : Fin n) (idx : Fin k) (l : Loc) (hpc : s.pc t = .idle) :
      Step cfg s (.thread t) (s.goto t (.readLoad idx l (s.reservations t idx)))
  /-- `read` loads `obj`. -/
  | readLoad (s : State n k Obj Loc) (t : Fin n) (idx : Fin k) (l : Loc) (prev : ℕ)
      (hpc : s.pc t = .readLoad idx l prev) :
      Step cfg s (.thread t) (s.goto t (.readEpoch idx l prev (s.mem l)
        ((s.mem l).obj.any fun o => s.life o = .linked)))
  /-- The epoch is the one reserved: `read` returns. -/
  | readReturn (s : State n k Obj Loc) (t : Fin n) (idx : Fin k) (l : Loc) (prev : ℕ)
      (ptr : Ptr Obj) (reachable : Bool)
      (hpc : s.pc t = .readEpoch idx l prev ptr reachable) (hcurr : s.epoch = prev) :
      Step cfg s (.thread t)
        { s.goto t .idle with
          held := update s.held t (update (s.held t) idx fun o =>
            s.held t idx o || (ptr.obj = some o && reachable)) }
  /-- The epoch is another one, which will be reserved. -/
  | readMove (s : State n k Obj Loc) (t : Fin n) (idx : Fin k) (l : Loc) (prev : ℕ)
      (ptr : Ptr Obj) (reachable : Bool)
      (hpc : s.pc t = .readEpoch idx l prev ptr reachable) (hcurr : s.epoch ≠ prev) :
      Step cfg s (.thread t) (s.goto t (.readStore idx l s.epoch))
  | readStore (s : State n k Obj Loc) (t : Fin n) (idx : Fin k) (l : Loc) (curr : ℕ)
      (hpc : s.pc t = .readStore idx l curr) :
      Step cfg s (.thread t) ((s.store t idx curr).goto t (.readLoad idx l curr))
  | callEndOp (s : State n k Obj Loc) (t : Fin n) (hpc : s.pc t = .idle) :
      Step cfg s (.thread t) (s.goto t (.endOp 0))
  | endOp (s : State n k Obj Loc) (t : Fin n) (e : Fin k) (hpc : s.pc t = .endOp e.val) :
      Step cfg s (.thread t) ((s.store t e 0).goto t (.endOp (e.val + 1)))
  | endOpReturn (s : State n k Obj Loc) (t : Fin n) (hpc : s.pc t = .endOp k) :
      Step cfg s (.thread t) (s.goto t .idle)
  /-- `retire(tid, obj)`, which leaves the list as it is otherwise. -/
  | retire (s : State n k Obj Loc) (t : Fin n) (o : Obj) (hpc : s.pc t = .idle)
      (ho : s.life o = .unlinked) (hfreq : (s.retireCounters t + 1) % cfg.freq ≠ 0) :
      Step cfg s (.thread t) (s.pushBack t o)
  /-- `retire(tid, obj)`, which calls `empty`. -/
  | retireEmpty (s : State n k Obj Loc) (t : Fin n) (o : Obj) (hpc : s.pc t = .idle)
      (ho : s.life o = .unlinked) (hfreq : (s.retireCounters t + 1) % cfg.freq = 0) :
      Step cfg s (.thread t) ((s.pushBack t o).goto t (.snapshot 0))
  /-- `empty` copies entry `e` of thread `u`. -/
  | snapshot (s : State n k Obj Loc) (t u : Fin n) (e : Fin k)
      (hpc : s.pc t = .snapshot (u.val * k + e.val)) :
      Step cfg s (.thread t) ((s.copyEntry t u e).goto t (.snapshot (u.val * k + e.val + 1)))
  | snapshotEnd (s : State n k Obj Loc) (t : Fin n) (hpc : s.pc t = .snapshot (n * k)) :
      Step cfg s (.thread t) (s.goto t (.scan 0))
  /-- Some copied epoch is in the lifetime of the object: it stays in the list. -/
  | scanKeep (s : State n k Obj Loc) (t : Fin n) (pos : ℕ) (res : HeInfo Obj)
      (hpc : s.pc t = .scan pos) (ho : (s.retired t)[pos]? = some res)
      (hkeep : ¬ isFreeable (s.scannedHEs t) res) :
      Step cfg s (.thread t) (s.goto t (.scan (pos + 1)))
  /-- The object is freeable: it is passed to the pool. -/
  | scanFree (s : State n k Obj Loc) (t : Fin n) (pos : ℕ) (res : HeInfo Obj)
      (hpc : s.pc t = .scan pos) (ho : (s.retired t)[pos]? = some res)
      (hfree : isFreeable (s.scannedHEs t) res) :
      Step cfg s (.thread t) ((s.passToPool t pos res.obj).goto t (.scan pos))
  /-- `empty` and `retire` return. -/
  | scanEnd (s : State n k Obj Loc) (t : Fin n) (pos : ℕ) (hpc : s.pc t = .scan pos)
      (ho : (s.retired t)[pos]? = none) :
      Step cfg s (.thread t) (s.goto t .idle)

/-- The reclaimer with `n` threads and `k` slots a thread as a transition system. -/
def system [DecidableEq Obj] [DecidableEq Loc] (cfg : Config) :
    Lts (State n k Obj Loc) (Actor n) where
  init s := s = State.initial n k Obj Loc
  step := Step cfg

/-- `empty`, run by thread `t`, is about to pass the object to the pool. -/
def PassesToPool (s : State n k Obj Loc) (t : Fin n) (res : HeInfo Obj) : Prop :=
  ∃ pos, s.pc t = .scan pos ∧ (s.retired t)[pos]? = some res ∧ isFreeable (s.scannedHEs t) res

/-! ### As reservations of eras -/

/-- How many entries the running `empty` has copied. -/
def Pc.copied (n : ℕ) : Pc k Obj Loc → ℕ
  | .snapshot m => m
  | .scan _ => n * k
  | _ => 0

/-- The reservations and the objects. -/
def State.view (s : State n k Obj Loc) : Eras n k ℕ Obj where
  slot := s.reservations
  retired := s.retired
  temp := s.scannedHEs
  copied := Pc.copied n ∘ s.pc
  clock := s.epoch
  life := s.life
  birth := s.birthEpoch

/-- What slot `e` speaks for: the objects whose lifetime contains its epoch. -/
def guard (e : Fin k) (birth retire : ℕ) (i : Fin k) (epo : ℕ) : Prop :=
  i = e → birth ≤ epo ∧ epo ≤ retire ∧ epo ≠ 0

theorem guard_later {e i : Fin k} {b r r' v : ℕ} (hr : r ≤ r') (h : guard e b r i v) :
    guard e b r' i v := fun hi => ⟨(h hi).1, (h hi).2.1.trans hr, (h hi).2.2⟩

/-- A freeable object has no slot that speaks for it. -/
theorem not_guard_of_isFreeable {temp : Fin n → Fin k → ℕ} {res : HeInfo Obj}
    (h : isFreeable temp res) (u : Fin n) (e : Fin k) :
    ∃ i, ¬ guard e res.birthEpoch res.retireEpoch i (temp u i) := by
  refine ⟨e, fun hg => ?_⟩
  obtain ⟨hb, hr, h0⟩ := hg rfl
  rcases h u e with hlt | hlt | heq
  · exact absurd hlt (Nat.not_lt.mpr hb)
  · exact absurd hlt (Nat.not_lt.mpr hr)
  · exact h0 heq

section Steps

variable [DecidableEq Obj] [DecidableEq Loc] {cfg : Config}

/-- **A step of the reclaimer** is a step on reservations and objects, or leaves them alone. -/
theorem Step.eras {s s' : State n k Obj Loc} {a : Actor n} (hstep : Step cfg s a s') :
    s'.view = s.view ∨ Eras.Step isFreeable s.view s'.view := by
  -- a step to another place from which nothing more is copied
  have move : ∀ {t : Fin n} {p : Pc k Obj Loc}, p.copied n = (s.pc t).copied n →
      Pc.copied n ∘ update s.pc t p = Pc.copied n ∘ s.pc := by
    intro t p hp
    rw [comp_update, hp]
    exact update_eq_self t (Pc.copied n ∘ s.pc)
  have quiet : ∀ {t : Fin n} {p q : Pc k Obj Loc}, s.pc t = q → p.copied n = q.copied n →
      (s.goto t p).view = s.view := by
    intro t p q hpc hp
    unfold State.view State.goto
    rw [move (hp.trans (congrArg (Pc.copied n) hpc.symm))]
  -- a thread writes one of its own slots
  have store : ∀ {t : Fin n} (e : Fin k) (r : ℕ) {p : Pc k Obj Loc},
      p.copied n = (s.pc t).copied n →
      Eras.Step isFreeable s.view ((s.store t e r).goto t p).view := by
    intro t e r p hp
    unfold State.view State.goto State.store
    dsimp only
    rw [move hp]
    exact .slots t _ (.store e r) rfl
  cases hstep with
  -- the data structure
  | write l p => exact .inl rfl
  | link o b h hb => exact .inr (.link o b h hb)
  | unlink o h => exact .inr (.unlink o h)
  -- an allocation may move the clock
  | alloc t hpc hmod => exact .inl rfl
  | allocBump t hpc hmod => exact .inl (quiet hpc rfl)
  | bumpEpoch t hpc =>
    right
    unfold State.view State.goto
    rw [move (by rw [hpc]; rfl)]
    exact .tick
  -- `read` reserves the clock that it has seen
  | callRead t idx l hpc => exact .inl (quiet hpc rfl)
  | readLoad t idx l prev hpc => exact .inl (quiet hpc rfl)
  | readReturn t idx l prev ptr reachable hpc hcurr => exact .inl (quiet hpc rfl)
  | readMove t idx l prev ptr reachable hpc hcurr => exact .inl (quiet hpc rfl)
  | readStore t idx l curr hpc => exact .inr (store idx curr (by rw [hpc]; rfl))
  | callEndOp t hpc => exact .inl (quiet hpc rfl)
  | endOp t e hpc => exact .inr (store e 0 (by rw [hpc]; rfl))
  | endOpReturn t hpc => exact .inl (quiet hpc rfl)
  | retire t o hpc ho hfreq =>
    -- the object becomes retired with the present clock
    have hcop : (s.pc t).copied n = 0 := by rw [hpc]; rfl
    exact .inr (.retire t o ho hcop)
  | retireEmpty t o hpc ho hfreq =>
    right
    have hcop : (s.pc t).copied n = 0 := by rw [hpc]; rfl
    unfold State.view State.goto State.pushBack
    dsimp only
    rw [move (by rw [hcop]; rfl)]
    exact .retire t o ho hcop
  | snapshot t u e hpc =>
    -- the slots are copied one by one
    right
    have hcop : (s.pc t).copied n = u.val * k + e.val := by rw [hpc]; rfl
    have hstep : Slots.Step isFreeable t s.view.toSlots none _ := .copy u e hcop
    have hnext : Pc.copied n ∘ update s.pc t (.snapshot (u.val * k + e.val + 1)) =
        update (Pc.copied n ∘ s.pc) t ((s.pc t).copied n + 1) := by
      rw [comp_update, hcop]
      rfl
    unfold State.view State.goto State.copyEntry
    dsimp only
    rw [hnext]
    exact .slots t _ hstep rfl
  | snapshotEnd t hpc => exact .inl (quiet hpc rfl)
  | scanKeep t pos res hpc ho hkeep => exact .inl (quiet hpc rfl)
  | scanFree t pos res hpc ho hfree =>
    -- a freed object leaves the list and goes to the pool
    right
    have hcop : (s.pc t).copied n = n * k := by rw [hpc]; rfl
    unfold State.view State.goto State.passToPool
    dsimp only
    rw [move (by rw [hcop]; rfl)]
    exact .free t pos res hcop ho hfree
  | scanEnd t pos hpc ho =>
    -- the next scan copies everything again
    right
    have hstep : Slots.Step isFreeable t s.view.toSlots none _ := .finish
    have hnext : Pc.copied n ∘ update s.pc t .idle = update (Pc.copied n ∘ s.pc) t 0 := by
      rw [comp_update]
      rfl
    unfold State.view State.goto
    rw [hnext]
    exact .slots t _ hstep rfl

end Steps

end He
end PopSetbench

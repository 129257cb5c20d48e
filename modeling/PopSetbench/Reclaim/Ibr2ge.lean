import Mathlib.Data.ENat.Basic
import PopSetbench.Library.Eras
import PopSetbench.Library.Run
import PopSetbench.Reclaim.Object

/-!
# Interval-based reclamation

The reclaimer of `reclaimer_2geibr.h`. A thread reserves an interval of epochs: `startOp` sets both
bounds to the current `epoch`, `read` moves the upper bound when the epoch has moved and loads the
pointer again, `endOp` sets both to `UINT64_MAX`. Objects are stamped with the epoch at their birth
and at their retirement; `empty` copies the bounds, the lower one of a thread before the upper one,
and frees the objects whose lifetime meets none of the copied intervals.

`epoch` is 64 bits wide; here it is a natural number, and `UINT64_MAX` is a bound above all epochs.
The birth epoch of an object is loaded some time before the object is linked; the model links it
with any epoch of the past.
-/

namespace PopSetbench
namespace Ibr2ge

open Function

/-- Where a thread is in the code. -/
inductive Pc (Obj Loc : Type)
  /-- Between two calls. -/
  | idle
  /-- `updateAllocCounterAndEpoch`: about to increment `epoch`. -/
  | bumpEpoch
  /-- `startOp`: about to store the lower bound. -/
  | startLower (e : ℕ)
  /-- `startOp`: about to store the upper bound. -/
  | startUpper (e : ℕ)
  /-- `endOp`: about to store the lower bound. -/
  | endLower
  /-- `read`: about to load `obj`. -/
  | readLoad (loc : Loc) (prevEpoch : ℕ∞)
  /-- `read`: about to load `epoch`. Whether the object was reachable when its pointer was loaded is
  bookkeeping. -/
  | readEpoch (loc : Loc) (prevEpoch : ℕ∞) (ptr : Ptr Obj) (reachable : Bool)
  /-- `read`: about to move the upper bound to the epoch it loaded. -/
  | readStore (loc : Loc) (currEpoch : ℕ)
  /-- `empty`: the bounds of the threads below `i` are copied. -/
  | copyLower (i : ℕ)
  /-- `empty`: so is the lower bound of thread `i`. -/
  | copyUpper (i : ℕ)
  /-- `empty`: the iterator is at `pos`. -/
  | scan (pos : ℕ)
  deriving DecidableEq

/-- `IntervalInfo`. -/
abbrev IntervalInfo := Span

/-- The state of the reclaimer with `n` threads and of the memory it protects. -/
structure State (n : ℕ) (Obj Loc : Type) where
  /-- The shared locations that `read` loads from. -/
  mem : Loc → Ptr Obj
  /-- The field `birth_epoch` of each object. -/
  birthEpoch : Obj → ℕ
  /-- `lower_reservs`. -/
  lowerReservs : Fin n → ℕ∞
  /-- `upper_reservs`. -/
  upperReservs : Fin n → ℕ∞
  /-- `epoch`. -/
  epoch : ℕ
  /-- `alloc_counters`. -/
  allocCounters : Fin n → ℕ
  /-- `retire_counters`. -/
  retireCounters : Fin n → ℕ
  /-- `retired[tid]`, oldest first. -/
  retired : Fin n → List (IntervalInfo Obj)
  /-- `lower_epochs_arr` of the running `empty`. -/
  lowerEpochsArr : Fin n → Fin n → ℕ∞
  /-- `upper_epochs_arr` of the running `empty`. -/
  upperEpochsArr : Fin n → Fin n → ℕ∞
  /-- Where each thread is. -/
  pc : Fin n → Pc Obj Loc
  /-- Bookkeeping: the life of each object. -/
  life : Obj → Life
  /-- Bookkeeping: `startOp` has returned and `endOp` has not been called. -/
  inOp : Fin n → Bool
  /-- Bookkeeping: the objects that `read` has obtained from a location where they were reachable,
  during the operation that has not ended. -/
  held : Fin n → Obj → Bool

/-- The parameters set by the constructor. -/
structure Config where
  /-- `freq`. -/
  freq : ℕ
  /-- `epoch_freq`. -/
  epochFreq : ℕ

variable {n : ℕ} {Obj Loc : Type}

/-- `conflict`. -/
def conflict (lowerEpochs upperEpochs : Fin n → ℕ∞) (birthEpoch retireEpoch : ℕ) : Prop :=
  ∃ i, birthEpoch ≤ upperEpochs i ∧ lowerEpochs i ≤ retireEpoch

namespace State

/-- The state after the constructor and `initThread` of every thread. -/
def initial (n : ℕ) (Obj Loc : Type) : State n Obj Loc where
  mem _ := ⟨none, 0⟩
  birthEpoch _ := 0
  lowerReservs _ := ⊤
  upperReservs _ := ⊤
  epoch := 0
  allocCounters _ := 0
  retireCounters _ := 0
  retired _ := []
  lowerEpochsArr _ _ := 0
  upperEpochsArr _ _ := 0
  pc _ := .idle
  life _ := .pooled
  inOp _ := false
  held _ _ := false

variable (s : State n Obj Loc)

/-- Thread `t` goes on at `p`. -/
def goto (t : Fin n) (p : Pc Obj Loc) : State n Obj Loc :=
  { s with pc := update s.pc t p }

/-- `lower_reservs[tid].ui.store(r)`. -/
def storeLower (t : Fin n) (r : ℕ∞) : State n Obj Loc :=
  { s with lowerReservs := update s.lowerReservs t r }

/-- `upper_reservs[tid].ui.store(r)`. -/
def storeUpper (t : Fin n) (r : ℕ∞) : State n Obj Loc :=
  { s with upperReservs := update s.upperReservs t r }

/-- `myTrash->push_back(IntervalInfo(obj, birth_epoch, retire_epoch))`, and the call is counted. -/
def pushBack [DecidableEq Obj] (t : Fin n) (o : Obj) : State n Obj Loc :=
  { s with
    retired := update s.retired t (s.retired t ++ [⟨o, s.birthEpoch o, s.epoch⟩])
    retireCounters := update s.retireCounters t (s.retireCounters t + 1)
    life := update s.life o .retired }

/-- `lower_epochs_arr[i] = lower_reservs[i].ui.load()`. -/
def copyLower (t i : Fin n) : State n Obj Loc :=
  { s with
    lowerEpochsArr := update s.lowerEpochsArr t
      (update (s.lowerEpochsArr t) i (s.lowerReservs i)) }

/-- `upper_epochs_arr[i] = upper_reservs[i].ui.load()`. -/
def copyUpper (t i : Fin n) : State n Obj Loc :=
  { s with
    upperEpochsArr := update s.upperEpochsArr t
      (update (s.upperEpochsArr t) i (s.upperReservs i)) }

/-- `this->pool->add(tid, res.obj); iterator = myTrash->erase(iterator)`. -/
def passToPool [DecidableEq Obj] (t : Fin n) (pos : ℕ) (o : Obj) : State n Obj Loc :=
  { s with
    retired := update s.retired t ((s.retired t).eraseIdx pos)
    life := update s.life o .pooled }

/-- The test of `empty`, `!conflict(lower_epochs_arr, upper_epochs_arr, res.birth_epoch,
res.retire_epoch)`. -/
def isFreeable (t : Fin n) (res : IntervalInfo Obj) : Prop :=
  ¬ conflict (s.lowerEpochsArr t) (s.upperEpochsArr t) res.birthEpoch res.retireEpoch

variable {s} {t : Fin n}

end State

/-- The atomic steps. -/
inductive Step [DecidableEq Obj] [DecidableEq Loc] (cfg : Config) :
    State n Obj Loc → Actor n → State n Obj Loc → Prop
  /-- Some operation writes or CASes a shared location. -/
  | write (s : State n Obj Loc) (l : Loc) (p : Ptr Obj) :
      Step cfg s .env { s with mem := update s.mem l p }
  /-- An object, born in an epoch of the past, is linked. -/
  | link (s : State n Obj Loc) (o : Obj) (b : ℕ) (h : s.life o = .pooled) (hb : b ≤ s.epoch) :
      Step cfg s .env
        { s with
          life := update s.life o .linked
          birthEpoch := update s.birthEpoch o b }
  /-- An object is unlinked. -/
  | unlink (s : State n Obj Loc) (o : Obj) (h : s.life o = .linked) :
      Step cfg s .env { s with life := update s.life o .unlinked }
  /-- `updateAllocCounterAndEpoch`, called by an allocation; the epoch stays. -/
  | alloc (s : State n Obj Loc) (t : Fin n) (hpc : s.pc t = .idle)
      (hmod : (s.allocCounters t + 1) % (cfg.epochFreq * n) ≠ 0) :
      Step cfg s (.thread t)
        { s with allocCounters := update s.allocCounters t (s.allocCounters t + 1) }
  /-- `updateAllocCounterAndEpoch`, called by an allocation; the epoch will be incremented. -/
  | allocBump (s : State n Obj Loc) (t : Fin n) (hpc : s.pc t = .idle)
      (hmod : (s.allocCounters t + 1) % (cfg.epochFreq * n) = 0) :
      Step cfg s (.thread t)
        { s.goto t .bumpEpoch with
          allocCounters := update s.allocCounters t (s.allocCounters t + 1) }
  | bumpEpoch (s : State n Obj Loc) (t : Fin n) (hpc : s.pc t = .bumpEpoch) :
      Step cfg s (.thread t) { s.goto t .idle with epoch := s.epoch + 1 }
  /-- `startOp` loads `epoch`. -/
  | startOp (s : State n Obj Loc) (t : Fin n) (hpc : s.pc t = .idle) (hop : s.inOp t = false) :
      Step cfg s (.thread t) (s.goto t (.startLower s.epoch))
  | startLower (s : State n Obj Loc) (t : Fin n) (e : ℕ) (hpc : s.pc t = .startLower e) :
      Step cfg s (.thread t) ((s.storeLower t e).goto t (.startUpper e))
  | startUpper (s : State n Obj Loc) (t : Fin n) (e : ℕ) (hpc : s.pc t = .startUpper e) :
      Step cfg s (.thread t)
        { (s.storeUpper t e).goto t .idle with inOp := update s.inOp t true }
  | endOp (s : State n Obj Loc) (t : Fin n) (hpc : s.pc t = .idle) (hop : s.inOp t = true) :
      Step cfg s (.thread t)
        { (s.storeUpper t ⊤).goto t .endLower with inOp := update s.inOp t false }
  | endLower (s : State n Obj Loc) (t : Fin n) (hpc : s.pc t = .endLower) :
      Step cfg s (.thread t)
        { (s.storeLower t ⊤).goto t .idle with held := update s.held t fun _ => false }
  | callRead (s : State n Obj Loc) (t : Fin n) (l : Loc) (hpc : s.pc t = .idle)
      (hop : s.inOp t = true) :
      Step cfg s (.thread t) (s.goto t (.readLoad l (s.upperReservs t)))
  /-- `read` loads `obj`. -/
  | readLoad (s : State n Obj Loc) (t : Fin n) (l : Loc) (prev : ℕ∞)
      (hpc : s.pc t = .readLoad l prev) :
      Step cfg s (.thread t) (s.goto t (.readEpoch l prev (s.mem l)
        ((s.mem l).obj.any fun o => s.life o = .linked)))
  /-- The epoch is the upper bound: `read` returns. -/
  | readReturn (s : State n Obj Loc) (t : Fin n) (l : Loc) (prev : ℕ∞) (ptr : Ptr Obj)
      (reachable : Bool) (hpc : s.pc t = .readEpoch l prev ptr reachable)
      (hcurr : (s.epoch : ℕ∞) = prev) :
      Step cfg s (.thread t)
        { s.goto t .idle with
          held := update s.held t fun o => s.held t o || (ptr.obj = some o && reachable) }
  /-- The epoch is another one, to which the upper bound will be moved. -/
  | readMove (s : State n Obj Loc) (t : Fin n) (l : Loc) (prev : ℕ∞) (ptr : Ptr Obj)
      (reachable : Bool) (hpc : s.pc t = .readEpoch l prev ptr reachable)
      (hcurr : (s.epoch : ℕ∞) ≠ prev) :
      Step cfg s (.thread t) (s.goto t (.readStore l s.epoch))
  | readStore (s : State n Obj Loc) (t : Fin n) (l : Loc) (curr : ℕ)
      (hpc : s.pc t = .readStore l curr) :
      Step cfg s (.thread t) ((s.storeUpper t curr).goto t (.readLoad l curr))
  /-- `retire(tid, obj)`, which leaves the list as it is otherwise. -/
  | retire (s : State n Obj Loc) (t : Fin n) (o : Obj) (hpc : s.pc t = .idle)
      (ho : s.life o = .unlinked) (hfreq : (s.retireCounters t + 1) % cfg.freq ≠ 0) :
      Step cfg s (.thread t) (s.pushBack t o)
  /-- `retire(tid, obj)`, which calls `empty`. -/
  | retireEmpty (s : State n Obj Loc) (t : Fin n) (o : Obj) (hpc : s.pc t = .idle)
      (ho : s.life o = .unlinked) (hfreq : (s.retireCounters t + 1) % cfg.freq = 0) :
      Step cfg s (.thread t) ((s.pushBack t o).goto t (.copyLower 0))
  | copyLower (s : State n Obj Loc) (t i : Fin n) (hpc : s.pc t = .copyLower i.val) :
      Step cfg s (.thread t) ((s.copyLower t i).goto t (.copyUpper i.val))
  | copyUpper (s : State n Obj Loc) (t i : Fin n) (hpc : s.pc t = .copyUpper i.val) :
      Step cfg s (.thread t) ((s.copyUpper t i).goto t (.copyLower (i.val + 1)))
  | copied (s : State n Obj Loc) (t : Fin n) (hpc : s.pc t = .copyLower n) :
      Step cfg s (.thread t) (s.goto t (.scan 0))
  /-- Some copied interval meets the lifetime of the object: it stays in the list. -/
  | scanKeep (s : State n Obj Loc) (t : Fin n) (pos : ℕ) (res : IntervalInfo Obj)
      (hpc : s.pc t = .scan pos) (ho : (s.retired t)[pos]? = some res)
      (hkeep : ¬ s.isFreeable t res) :
      Step cfg s (.thread t) (s.goto t (.scan (pos + 1)))
  /-- There is no conflict: the object is passed to the pool. -/
  | scanFree (s : State n Obj Loc) (t : Fin n) (pos : ℕ) (res : IntervalInfo Obj)
      (hpc : s.pc t = .scan pos) (ho : (s.retired t)[pos]? = some res)
      (hfree : s.isFreeable t res) :
      Step cfg s (.thread t) ((s.passToPool t pos res.obj).goto t (.scan pos))
  /-- `empty` and `retire` return. -/
  | scanEnd (s : State n Obj Loc) (t : Fin n) (pos : ℕ) (hpc : s.pc t = .scan pos)
      (ho : (s.retired t)[pos]? = none) :
      Step cfg s (.thread t) (s.goto t .idle)

/-- The reclaimer with `n` threads as a transition system. -/
def system [DecidableEq Obj] [DecidableEq Loc] (cfg : Config) : Lts (State n Obj Loc) (Actor n) where
  init s := s = State.initial n Obj Loc
  step := Step cfg

/-- `empty`, run by thread `t`, is about to pass the object to the pool. -/
def PassesToPool (s : State n Obj Loc) (t : Fin n) (res : IntervalInfo Obj) : Prop :=
  ∃ pos, s.pc t = .scan pos ∧ (s.retired t)[pos]? = some res ∧ s.isFreeable t res

/-! ### As reservations of eras -/

/-- How many bounds the running `empty` has copied. -/
def Pc.copied (n : ℕ) : Pc Obj Loc → ℕ
  | .copyLower i => i * 2
  | .copyUpper i => i * 2 + 1
  | .scan _ => n * 2
  | _ => 0

local instance neZero_ends : NeZero 2 := ⟨by decide⟩

/-- Two bounds for each thread, as slots: the lower one is slot 0. -/
def bounds {ι : Type*} (lower upper : ι → ℕ∞) (u : ι) (i : Fin 2) : ℕ∞ :=
  if i = 0 then lower u else upper u

section Bounds

variable {ι : Type*} [DecidableEq ι] {lower upper : ι → ℕ∞} {u : ι} {v : ℕ∞}

theorem bounds_lower : bounds (update lower u v) upper =
    update (bounds lower upper) u (update (bounds lower upper u) 0 v) := by
  funext w i
  by_cases hw : w = u
  · subst hw
    by_cases hi : i = 0 <;> simp [bounds, hi]
  · simp [bounds, update_of_ne hw]

theorem bounds_upper : bounds lower (update upper u v) =
    update (bounds lower upper) u (update (bounds lower upper u) 1 v) := by
  funext w i
  by_cases hw : w = u
  · subst hw
    by_cases hi : i = 0
    · subst hi
      simp [bounds]
    · obtain rfl : i = 1 := by omega
      simp [bounds]
  · simp [bounds, update_of_ne hw]

end Bounds

/-- The reservations and the objects. -/
def State.view (s : State n Obj Loc) : Eras n 2 ℕ∞ Obj where
  slot := bounds s.lowerReservs s.upperReservs
  retired := s.retired
  temp t := bounds (s.lowerEpochsArr t) (s.upperEpochsArr t)
  copied := Pc.copied n ∘ s.pc
  clock := s.epoch
  life := s.life
  birth := s.birthEpoch

/-- What the bounds of a thread speak for: the objects whose lifetime meets the interval. -/
def guard (birth retire : ℕ) (i : Fin 2) (v : ℕ∞) : Prop :=
  if i = 0 then v ≤ retire else birth ≤ v

theorem guard_later {i : Fin 2} {b r r' : ℕ} {v : ℕ∞} (hr : r ≤ r') (h : guard b r i v) :
    guard b r' i v := by
  unfold guard at *
  split_ifs at * with hi
  · exact h.trans (by exact_mod_cast hr)
  · exact h

/-- What may be freed with given copies. -/
def Freeable (temp : Fin n → Fin 2 → ℕ∞) (res : IntervalInfo Obj) : Prop :=
  ¬ conflict (temp · 0) (temp · 1) res.birthEpoch res.retireEpoch

/-- A freeable object has no interval that speaks for it. -/
theorem not_guard_of_freeable {temp : Fin n → Fin 2 → ℕ∞} {res : IntervalInfo Obj}
    (h : Freeable temp res) (u : Fin n) :
    ∃ i, ¬ guard res.birthEpoch res.retireEpoch i (temp u i) := by
  by_contra hall
  push Not at hall
  exact h ⟨u, hall 1, hall 0⟩

theorem State.freeable_iff {s : State n Obj Loc} {t : Fin n} {res : IntervalInfo Obj} :
    Freeable (s.view.temp t) res ↔ s.isFreeable t res :=
  Iff.rfl

section Steps

variable [DecidableEq Obj] [DecidableEq Loc] {cfg : Config}

/-- **A step of the reclaimer** is a step on reservations and objects, or leaves them alone. -/
theorem Step.eras {s s' : State n Obj Loc} {a : Actor n} (hstep : Step cfg s a s') :
    s'.view = s.view ∨ Eras.Step Freeable s.view s'.view := by
  -- a step to another place from which nothing more is copied
  have move : ∀ {t : Fin n} {p : Pc Obj Loc}, p.copied n = (s.pc t).copied n →
      Pc.copied n ∘ update s.pc t p = Pc.copied n ∘ s.pc := by
    intro t p hp
    rw [comp_update, hp]
    exact update_eq_self t (Pc.copied n ∘ s.pc)
  have quiet : ∀ {t : Fin n} {p q : Pc Obj Loc}, s.pc t = q → p.copied n = q.copied n →
      (s.goto t p).view = s.view := by
    intro t p q hpc hp
    unfold State.view State.goto
    rw [move (hp.trans (congrArg (Pc.copied n) hpc.symm))]
  -- a thread writes one of its two bounds
  have lower : ∀ {t : Fin n} (r : ℕ∞) {p : Pc Obj Loc}, p.copied n = (s.pc t).copied n →
      Eras.Step Freeable s.view ((s.storeLower t r).goto t p).view := by
    intro t r p hp
    unfold State.view State.goto State.storeLower
    dsimp only
    rw [move hp, bounds_lower]
    exact .slots t _ (.store 0 r) rfl
  have upper : ∀ {t : Fin n} (r : ℕ∞) {p : Pc Obj Loc}, p.copied n = (s.pc t).copied n →
      Eras.Step Freeable s.view ((s.storeUpper t r).goto t p).view := by
    intro t r p hp
    unfold State.view State.goto State.storeUpper
    dsimp only
    rw [move hp, bounds_upper]
    exact .slots t _ (.store 1 r) rfl
  cases hstep with
  -- the data structure
  | write l p => exact .inl rfl
  | link o b h hb => exact .inr (.link o b h hb)
  | unlink o h => exact .inr (.unlink o h)
  | alloc t hpc hmod => exact .inl rfl
  | allocBump t hpc hmod => exact .inl (quiet hpc rfl)
  | bumpEpoch t hpc =>
    -- an allocation may move the clock
    right
    unfold State.view State.goto
    rw [move (by rw [hpc]; rfl)]
    exact .tick
  | startOp t hpc hop => exact .inl (quiet hpc rfl)
  -- an operation begins by writing both bounds, the lower one first
  | startLower t e hpc => exact .inr (lower e (by rw [hpc]; rfl))
  | startUpper t e hpc => exact .inr (upper e (by rw [hpc]; rfl))
  | endOp t hpc hop => exact .inr (upper ⊤ (by rw [hpc]; rfl))
  | endLower t hpc => exact .inr (lower ⊤ (by rw [hpc]; rfl))
  -- a `read` raises the upper bound to the epoch it has seen
  | callRead t l hpc hop => exact .inl (quiet hpc rfl)
  | readLoad t l prev hpc => exact .inl (quiet hpc rfl)
  | readReturn t l prev ptr reachable hpc hcurr => exact .inl (quiet hpc rfl)
  | readMove t l prev ptr reachable hpc hcurr => exact .inl (quiet hpc rfl)
  | readStore t l curr hpc => exact .inr (upper curr (by rw [hpc]; rfl))
  | retire t o hpc ho hfreq =>
    -- the object becomes retired with the present clock
    have hcop : (s.pc t).copied n = 0 := by rw [hpc]; rfl
    exact .inr (.retire t o ho hcop)
  | retireEmpty t o hpc ho hfreq =>
    right
    have hcop : (s.pc t).copied n = 0 := by rw [hpc]; rfl
    unfold State.view State.goto State.pushBack
    dsimp only
    rw [move (by rw [hcop]; rfl)]
    exact .retire t o ho hcop
  | copyLower t i hpc =>
    -- the two bounds are copied one after the other
    right
    have hcop : (s.pc t).copied n = i.val * 2 + (0 : Fin 2).val := by rw [hpc]; rfl
    have hstep : Slots.Step Freeable t s.view.toSlots none _ := .copy i 0 hcop
    have hnext : Pc.copied n ∘ update s.pc t (.copyUpper i.val) =
        update (Pc.copied n ∘ s.pc) t ((s.pc t).copied n + 1) := by
      rw [comp_update, hcop]
      rfl
    have htemp : (fun t' => bounds (update s.lowerEpochsArr t
          (update (s.lowerEpochsArr t) i (s.lowerReservs i)) t') (s.upperEpochsArr t')) =
        update s.view.temp t (update (s.view.temp t) i
          (update (s.view.temp t i) 0 (s.view.slot i 0))) := by
      funext t'
      by_cases ht : t' = t
      · subst ht
        rw [update_self, update_self, bounds_lower]
        rfl
      · rw [update_of_ne ht, update_of_ne ht]
        rfl
    unfold State.view State.goto State.copyLower
    dsimp only
    rw [hnext, htemp]
    exact .slots t _ hstep rfl
  | copyUpper t i hpc =>
    right
    have hcop : (s.pc t).copied n = i.val * 2 + (1 : Fin 2).val := by rw [hpc]; rfl
    have hstep : Slots.Step Freeable t s.view.toSlots none _ := .copy i 1 hcop
    have hnext : Pc.copied n ∘ update s.pc t (.copyLower (i.val + 1)) =
        update (Pc.copied n ∘ s.pc) t ((s.pc t).copied n + 1) := by
      rw [comp_update, hcop]
      show update (Pc.copied n ∘ s.pc) t ((i.val + 1) * 2) = _
      rw [Nat.add_mul]
      rfl
    have htemp : (fun t' => bounds (s.lowerEpochsArr t') (update s.upperEpochsArr t
          (update (s.upperEpochsArr t) i (s.upperReservs i)) t')) =
        update s.view.temp t (update (s.view.temp t) i
          (update (s.view.temp t i) 1 (s.view.slot i 1))) := by
      funext t'
      by_cases ht : t' = t
      · subst ht
        rw [update_self, update_self, bounds_upper]
        rfl
      · rw [update_of_ne ht, update_of_ne ht]
        rfl
    unfold State.view State.goto State.copyUpper
    dsimp only
    rw [hnext, htemp]
    exact .slots t _ hstep rfl
  | copied t hpc => exact .inl (quiet hpc rfl)
  | scanKeep t pos res hpc ho hkeep => exact .inl (quiet hpc rfl)
  | scanFree t pos res hpc ho hfree =>
    -- a freed object leaves the list and goes to the pool
    right
    have hcop : (s.pc t).copied n = n * 2 := by rw [hpc]; rfl
    unfold State.view State.goto State.passToPool
    dsimp only
    rw [move (by rw [hcop]; rfl)]
    exact .free t pos res hcop ho hfree
  | scanEnd t pos hpc ho =>
    -- the next scan copies everything again
    right
    have hstep : Slots.Step Freeable t s.view.toSlots none _ := .finish
    have hnext : Pc.copied n ∘ update s.pc t .idle = update (Pc.copied n ∘ s.pc) t 0 := by
      rw [comp_update]
      rfl
    unfold State.view State.goto
    rw [hnext]
    exact .slots t _ hstep rfl

end Steps

end Ibr2ge
end PopSetbench

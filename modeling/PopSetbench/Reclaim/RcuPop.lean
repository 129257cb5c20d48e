import Mathlib.Algebra.Group.Nat.Defs
import Mathlib.Data.List.Sort
import Mathlib.Order.Lattice
import PopSetbench.Library.Run

/-!
# The early break of RCU-POP

The loop of `empty` in `reclaimer_rcu_pop.h` goes over the retired list and erases the objects whose
retire epoch is below the least reserved epoch; at the first object that it keeps it breaks ("proof
needed"), where it could go on (`++iterator`). `reclaimer_rcu_popplus.h` has the same loop. Here the
loop is modelled with the break and without it, and the two reclaimers are compared.

`retire` loads `epoch` first and appends the object then; `empty` loads the reservations one after
the other. The other threads may in the meantime increment the epoch and store any reservations. A
call of `retire` may or may not go on to `empty`: whether it does depends on counters and on the
size of the list, and nothing here depends on these.

`epoch` is 64 bits wide; here it is a natural number, so it never decreases.
-/

namespace PopSetbench
namespace RcuPop

open Function

/-- Whether the loop breaks at the first object that it keeps. -/
inductive Loop
  | earlyBreak
  | wholeList
  deriving DecidableEq

/-- `RCUPOPInfo`. -/
structure RCUPOPInfo (Obj : Type) where
  obj : Obj
  retireEpoch : ℕ
  deriving DecidableEq

variable {n : ℕ} {Obj : Type}

/-- The loop of `empty` from some iterator on: the objects that it passes to the pool, in order, and
what is left of the list. -/
def Loop.scan (minReservedEpoch : ℕ) :
    Loop → List (RCUPOPInfo Obj) → List Obj × List (RCUPOPInfo Obj)
  | _, [] => ([], [])
  | loop, res :: rest =>
    if res.retireEpoch < minReservedEpoch then
      let (freed, left) := loop.scan minReservedEpoch rest
      (res.obj :: freed, left)
    else
      match loop with
      | earlyBreak => ([], res :: rest)
      | wholeList =>
        let (freed, left) := wholeList.scan minReservedEpoch rest
        (freed, res :: left)

def UINT64_MAX : ℕ := 2 ^ 64 - 1

/-- Where a thread is in the code. -/
inductive Pc (Obj : Type)
  /-- Between two calls. -/
  | idle
  /-- `retire`: about to append the object with the epoch that was loaded. -/
  | push (obj : Obj) (retireEpoch : ℕ)
  /-- `retire`: about to call `empty` or to return. -/
  | pushed
  /-- `empty`: the reservations of the threads below `i` are loaded. -/
  | load (i : ℕ) (minReservedEpoch : ℕ)
  deriving DecidableEq

/-- What `n` threads share and what each has for itself. -/
structure State (n : ℕ) (Obj : Type) where
  epoch : ℕ
  reservations : Fin n → ℕ
  /-- `retired[tid]`, oldest first. -/
  retired : Fin n → List (RCUPOPInfo Obj)
  /-- The objects that the thread has passed to the pool. -/
  freed : Fin n → List Obj
  pc : Fin n → Pc Obj

namespace State

/-- The state after the constructor. -/
def initial (n : ℕ) (Obj : Type) : State n Obj where
  epoch := 0
  reservations _ := UINT64_MAX
  retired _ := []
  freed _ := []
  pc _ := .idle

variable (s : State n Obj)

/-- Thread `t` goes on at `p`. -/
def goto (t : Fin n) (p : Pc Obj) : State n Obj :=
  { s with pc := update s.pc t p }

/-- `myTrash->push_back(RCUPOPInfo(obj, retire_epoch))`. -/
def pushBack (t : Fin n) (obj : Obj) (retireEpoch : ℕ) : State n Obj :=
  { s with retired := update s.retired t (s.retired t ++ [⟨obj, retireEpoch⟩]) }

/-- The loop of `empty`. -/
def scan (loop : Loop) (t : Fin n) (minReservedEpoch : ℕ) : State n Obj :=
  { s with
    retired := update s.retired t (loop.scan minReservedEpoch (s.retired t)).2
    freed := update s.freed t (s.freed t ++ (loop.scan minReservedEpoch (s.retired t)).1) }

end State

/-- The atomic steps; the thread's own list is touched by no other thread. -/
inductive Step (loop : Loop) : State n Obj → Fin n → State n Obj → Prop
  /-- `updateAllocCounterAndEpoch` increments the epoch. -/
  | bumpEpoch (s : State n Obj) (t : Fin n) : Step loop s t { s with epoch := s.epoch + 1 }
  /-- The signal handler stores a reservation. -/
  | publish (s : State n Obj) (t : Fin n) (res : ℕ) :
      Step loop s t { s with reservations := update s.reservations t res }
  | retire (s : State n Obj) (t : Fin n) (obj : Obj) (hpc : s.pc t = .idle) :
      Step loop s t (s.goto t (.push obj s.epoch))
  | push (s : State n Obj) (t : Fin n) (obj : Obj) (retireEpoch : ℕ)
      (hpc : s.pc t = .push obj retireEpoch) :
      Step loop s t ((s.pushBack t obj retireEpoch).goto t .pushed)
  | done (s : State n Obj) (t : Fin n) (hpc : s.pc t = .pushed) :
      Step loop s t (s.goto t .idle)
  | empty (s : State n Obj) (t : Fin n) (hpc : s.pc t = .pushed) :
      Step loop s t (s.goto t (.load 0 UINT64_MAX))
  | load (s : State n Obj) (t : Fin n) (i : Fin n) (minReservedEpoch : ℕ)
      (hpc : s.pc t = .load i minReservedEpoch) :
      Step loop s t (s.goto t (.load (i + 1) (min (s.reservations i) minReservedEpoch)))
  | scan (s : State n Obj) (t : Fin n) (minReservedEpoch : ℕ)
      (hpc : s.pc t = .load n minReservedEpoch) :
      Step loop s t ((s.scan loop t minReservedEpoch).goto t .idle)

/-- `n` threads with either loop. -/
def system (loop : Loop) : Lts (State n Obj) (Fin n) where
  init s := s = .initial n Obj
  step := Step loop

/-! ### The two loops -/

/-- The objects are in the order of their retire epochs. -/
def Sorted (l : List (RCUPOPInfo Obj)) : Prop :=
  l.Pairwise fun r r' => r.retireEpoch ≤ r'.retireEpoch

variable {loop loop' : Loop} {l : List (RCUPOPInfo Obj)} {m : ℕ} {s s' : State n Obj} {t : Fin n}

/-- The loop that goes on keeps a list of which no object is below the minimum. -/
theorem scan_of_le (h : ∀ r ∈ l, m ≤ r.retireEpoch) : Loop.wholeList.scan m l = ([], l) := by
  induction l with
  | nil => rfl
  | cons r l ih =>
    have hr := h r List.mem_cons_self
    rw [Loop.scan, if_neg hr.not_gt, ih fun r' hr' => h r' (List.mem_cons_of_mem r hr')]

/-- **On a sorted list the break loses nothing.** -/
theorem scan_eq (h : Sorted l) : Loop.earlyBreak.scan m l = Loop.wholeList.scan m l := by
  induction l with
  | nil => rfl
  | cons r l ih =>
    obtain ⟨hr, hl⟩ := List.pairwise_cons.mp h
    unfold Loop.scan
    by_cases hlt : r.retireEpoch < m
    · rw [if_pos hlt, if_pos hlt, ih hl]
    · -- all objects behind `r` are stamped no earlier than `r`
      rw [if_neg hlt, if_neg hlt]
      have hrest := scan_of_le fun r' hr' => (not_lt.mp hlt).trans (hr r' hr')
      dsimp only
      rw [hrest]

/-- What is left is part of the list, in the same order. -/
theorem scan_sublist : (loop.scan m l).2.Sublist l := by
  induction l with
  | nil => rw [Loop.scan]
  | cons r l ih =>
    unfold Loop.scan
    split
    · exact ih.cons r
    · cases loop with
      | earlyBreak => exact List.Sublist.refl _
      | wholeList => exact ih.cons_cons r

/-! ### The invariant -/

/-- **The invariant.** -/
structure Inv (s : State n Obj) : Prop where
  sorted : ∀ t, Sorted (s.retired t)
  /-- No object is stamped with an epoch to come. -/
  le_epoch : ∀ t, ∀ r ∈ s.retired t, r.retireEpoch ≤ s.epoch
  /-- The epoch that `retire` has loaded is not before the stamps in the list. -/
  push : ∀ t obj e, s.pc t = .push obj e →
    e ≤ s.epoch ∧ ∀ r ∈ s.retired t, r.retireEpoch ≤ e

theorem Inv.initial : Inv (State.initial n Obj) where
  sorted _ := List.Pairwise.nil
  le_epoch := nofun
  push := nofun

/-- A thread goes on that is not about to append an object. -/
theorem Inv.goto (h : Inv s) {p : Pc Obj} (hp : ∀ obj e, p = .push obj e →
    e ≤ s.epoch ∧ ∀ r ∈ s.retired t, r.retireEpoch ≤ e) : Inv (s.goto t p) where
  sorted := h.sorted
  le_epoch := h.le_epoch
  push u obj e hu := by
    change update s.pc t p u = .push obj e at hu
    by_cases hut : u = t
    · subst hut
      rw [update_self] at hu
      exact hp obj e hu
    · rw [update_of_ne hut] at hu
      exact h.push u obj e hu

/-- The list of thread `t` becomes `l'`, and the thread goes on. -/
theorem Inv.relist (h : Inv s) {l' : List (RCUPOPInfo Obj)} {p : Pc Obj} (hsorted : Sorted l')
    (hle : ∀ r ∈ l', r.retireEpoch ≤ s.epoch) (hp : ∀ obj e, p ≠ .push obj e)
    (hret : s'.retired = update s.retired t l') (hpc : s'.pc = update s.pc t p)
    (hep : s'.epoch = s.epoch) : Inv s' := by
  refine ⟨fun u => ?_, fun u r hr => ?_, fun u obj e hu => ?_⟩
  · rw [hret]
    by_cases hut : u = t
    · subst hut
      rw [update_self]
      exact hsorted
    · rw [update_of_ne hut]
      exact h.sorted u
  · rw [hret] at hr
    rw [hep]
    by_cases hut : u = t
    · subst hut
      rw [update_self] at hr
      exact hle r hr
    · rw [update_of_ne hut] at hr
      exact h.le_epoch u r hr
  · rw [hpc] at hu
    rw [hret, hep]
    by_cases hut : u = t
    · subst hut
      rw [update_self] at hu
      exact absurd hu (hp obj e)
    · rw [update_of_ne hut] at hu ⊢
      exact h.push u obj e hu

theorem Inv.step {a : Fin n} (h : Inv s) (hstep : Step loop s a s') : Inv s' := by
  cases hstep with
  | bumpEpoch =>
    exact ⟨h.sorted, fun u r hr => (h.le_epoch u r hr).trans (Nat.le_succ _),
      fun u obj e hu => ⟨(h.push u obj e hu).1.trans (Nat.le_succ _), (h.push u obj e hu).2⟩⟩
  | publish res => exact ⟨h.sorted, h.le_epoch, h.push⟩
  | retire obj hpc =>
    refine h.goto fun obj' e hp => ?_
    cases hp
    exact ⟨le_rfl, h.le_epoch _⟩
  | push obj e hpc =>
    obtain ⟨he, hle⟩ := h.push _ obj e hpc
    have hsorted : Sorted (s.retired a ++ [⟨obj, e⟩]) := by
      refine List.pairwise_append.mpr ⟨h.sorted _, List.pairwise_singleton .., ?_⟩
      intro r hr r' hr'
      rw [List.mem_singleton.mp hr']
      exact hle r hr
    refine h.relist hsorted (fun r hr => ?_) (p := .pushed) nofun rfl rfl rfl
    rcases List.mem_append.mp hr with hr | hr
    · exact h.le_epoch _ r hr
    · rw [List.mem_singleton.mp hr]
      exact he
  | done hpc => exact h.goto nofun
  | empty hpc => exact h.goto nofun
  | load i m hpc => exact h.goto nofun
  | scan m hpc =>
    exact h.relist ((h.sorted _).sublist scan_sublist)
      (fun r hr => h.le_epoch _ r (scan_sublist.subset hr)) (p := .idle) nofun rfl rfl rfl

theorem Inv.of_reachable (h : (system loop).Reachable s) : Inv s := by
  refine h.invariant (fun s hs => ?_) fun _ _ _ _ hI _ hs => hI.step hs
  rw [show s = State.initial n Obj from hs]
  exact .initial

/-! ### The two reclaimers -/

/-- Both loops do the same to the list of a thread. -/
theorem Inv.scan_eq (h : Inv s) (loop loop' : Loop) (t : Fin n) (m : ℕ) :
    loop.scan m (s.retired t) = loop'.scan m (s.retired t) := by
  have heq := RcuPop.scan_eq (m := m) (h.sorted t)
  cases loop <;> cases loop'
  · rfl
  · exact heq
  · exact heq.symm
  · rfl

/-- Every step of the reclaimer with one loop is a step of the reclaimer with the other. -/
theorem Step.of_inv {a : Fin n} (h : Inv s) (hstep : Step loop s a s') : Step loop' s a s' := by
  cases hstep with
  | bumpEpoch => exact .bumpEpoch s a
  | publish res => exact .publish s a res
  | retire obj hpc => exact .retire s a obj hpc
  | push obj e hpc => exact .push s a obj e hpc
  | done hpc => exact .done s a hpc
  | empty hpc => exact .empty s a hpc
  | load i m hpc => exact .load s a i m hpc
  | scan m hpc =>
    have heq : s.scan loop a m = s.scan loop' a m := by
      unfold State.scan
      rw [h.scan_eq loop loop' a m]
    rw [heq]
    exact .scan s a m hpc

theorem reachable_of_reachable (h : (system loop).Reachable s) : (system loop').Reachable s := by
  induction h with
  | init hs => exact .init hs
  | step hr hs _ ih => exact ih.step ((hs : Step loop _ _ _).of_inv (Inv.of_reachable hr))

/-- **The early break is lossless.** In every reachable state the retired list of each thread is in
the order of the retire epochs; whatever the minimum is, the loop with the break frees the same
objects in the same order and leaves the same list as the loop over the whole list; and so the two
reclaimers reach the same states. -/
theorem rcuPop_lossless (h : (system loop).Reachable s) :
    (∀ t, Sorted (s.retired t)) ∧
    (∀ t minReservedEpoch, Loop.earlyBreak.scan minReservedEpoch (s.retired t) =
      Loop.wholeList.scan minReservedEpoch (s.retired t)) ∧
    (system .earlyBreak).Reachable s ∧ (system .wholeList).Reachable s :=
  ⟨(Inv.of_reachable h).sorted, (Inv.of_reachable h).scan_eq _ _, reachable_of_reachable h,
    reachable_of_reachable h⟩

/-- Thread `0` retires object `7`, and an epoch later object `8`, while thread `1` has reserved that
epoch: its `empty` passes object `7` to the pool and breaks at object `8`. The object that it
retires then comes behind it. -/
theorem rcuPop_lossless_empty : ∃ s : State 2 ℕ,
    s.freed 0 = [7] ∧ s.retired 0 = [⟨8, 1⟩, ⟨9, 1⟩] ∧ s.epoch = 2 ∧
    (∀ t, Sorted (s.retired t)) ∧
    (∀ t minReservedEpoch, Loop.earlyBreak.scan minReservedEpoch (s.retired t) =
      Loop.wholeList.scan minReservedEpoch (s.retired t)) ∧
    (system .earlyBreak).Reachable s ∧ (system .wholeList).Reachable s := by
  have hR : (system .earlyBreak).Reachable (State.initial 2 ℕ) := .init rfl
  have hR := hR.step (.retire _ 0 7 rfl)
  have hR := hR.step (.push _ 0 7 0 rfl)
  have hR := hR.step (.done _ 0 rfl)
  have hR := hR.step (.bumpEpoch _ 1)
  have hR := hR.step (.publish _ 1 1)
  have hR := hR.step (.retire _ 0 8 rfl)
  have hR := hR.step (.push _ 0 8 1 rfl)
  -- the least reserved epoch is 1
  have hR := hR.step (.empty _ 0 rfl)
  have hR := hR.step (.load _ 0 0 _ rfl)
  have hR := hR.step (.load _ 0 1 _ rfl)
  have hR := hR.step (.scan _ 0 1 rfl)
  -- the epoch moves between the two halves of the last call
  have hR := hR.step (.retire _ 0 9 rfl)
  have hR := hR.step (.bumpEpoch _ 1)
  have hR := hR.step (.push _ 0 9 1 rfl)
  exact ⟨_, rfl, rfl, rfl, rcuPop_lossless hR⟩

end RcuPop
end PopSetbench

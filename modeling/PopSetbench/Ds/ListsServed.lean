import PopSetbench.Ds.HmListGrace
import PopSetbench.Ds.HmListSchedule
import PopSetbench.Ds.HarrisListGrace
import PopSetbench.Ds.HarrisListSchedule
import PopSetbench.Ds.LazyListGrace
import PopSetbench.Ds.LazyListLedger
import PopSetbench.Ds.LazyListSchedule
import PopSetbench.Reclaim.DebraSchedule
import PopSetbench.Reclaim.IbrRcuSchedule

/-!
# Lists with their reclaimers

The lists run together with DEBRA or with RCU: a call of `startOp`, `endOp` or `retire` is a step of
both, and in between each goes on by itself. An operation that runs has no pointer to a node that was
freed, and accesses none; a node that is freed is out of the list for good, was retired, and is not
freed again.

Every allocation has a node of its own: what is freed is not allocated again. Of the lists of Harris
and Michael this is about `hmlist_ooi_impl.h`, which keeps no pointer to a node beyond `endOp` but
for the value it returns; the `erase` of the other two sources goes on with its pointers after an
`endOp`.
-/

namespace PopSetbench

open Function
open Lts (Served Sound)

variable {n : ℕ} {α K V : Type} [LinearOrder K] [DecidableEq α]

/-! ### Runs of two threads -/

/-- How a list and its reclaimer go on. -/
abbrev ListTurn : Type := Lts.Turn (Fin 2 × Choice ℕ ℕ ℕ) (Move 2 ℕ)

namespace ListTurn

/-- Thread `t` calls an operation. -/
def call (t : Fin 2) (op : Op ℕ ℕ) : ListTurn := .client (t, .invoke op)

/-- Thread `t` gets the node `x`. -/
def alloc (t : Fin 2) (x : ℕ) : ListTurn := .client (t, .alloc x)

/-- Thread `t` makes `k` steps in the list. -/
def go (t : Fin 2) (k : ℕ) : List ListTurn := .replicate k (.client (t, .go))

/-- Thread `t` makes `k` steps in the reclaimer. -/
def reclaim (t : Fin 2) (k : ℕ) : List ListTurn := .replicate k (.reclaimer (.thread t))

/-- The reclaimer notes that the node `x` is unlinked. -/
def unlinked (x : ℕ) : List ListTurn := [.reclaimer (.link x), .reclaimer (.unlink x)]

end ListTurn

/-! ### Harris–Michael lists -/

namespace HmList

variable {minOps : ℕ}

/-- The list of `hmlist_ooi_impl.h` with DEBRA. -/
abbrev withDebra (cfg : Config Unit α K) (minOps n : ℕ) :
    Lts (Served (State Unit α (Fin n) K V) (Debra.State n α) (Fin n) α)
      (Option (Fin n × Event α K V)) :=
  (lts (hmlistOOI K) cfg).served Event.graceCall? (Debra.reclaimer n α minOps)

/-- **Harris–Michael lists with DEBRA.** -/
theorem hmList_debra {cfg : Config Unit α K}
    {p : Served (State Unit α (Fin n) K V) (Debra.State n α) (Fin n) α}
    (h : (withDebra cfg minOps n).Reachable p) :
    Sound (Debra.reclaimer n α minOps) (gone (hmlistOOI K) cfg) (fun s x => x ∈ s.retired)
        (fun s t => (s.pc t).Uses) p ∧
      ∀ t x s', p.running t = true → Step (hmlistOOI K) cfg p.client t (.access x) s' →
        p.freed x = false := by
  have hsound := careful.sound retires retiresOnce Debra.debra_waits h
  exact ⟨hsound, fun t x s' ht hs => hsound.unused t x ht hs.access⟩

/-- The list, run by two threads with DEBRA. -/
def served : Served (State Unit ℕ (Fin 2) ℕ ℕ) (Debra.State 2 ℕ) (Fin 2) ℕ where
  client := { smallState with pc := fun _ => .idle }
  reclaimer := Debra.State.initial 2 ℕ
  running _ := false
  freed _ := false

theorem served_init : (withDebra (V := ℕ) smallConfig 1 2).init served := by
  obtain ⟨h1, h2, h3, h4, h5, h6, h7, h8, h9, h10, -⟩ := smallState_init
  exact ⟨⟨h1, h2, h3, h4, h5, h6, h7, h8, h9, h10, fun _ => rfl⟩, rfl, rfl, rfl⟩

open ListTurn in
/-- Thread `t` inserts and deletes the key 5, then inserts the key 6, and goes on until two epochs
have passed. Thread `u` looks for the key 6; when it has come to its node, thread `t` deletes this
key. -/
def schedule (t u : Fin 2) : List ListTurn :=
  call t (.insert 5 7) :: reclaim t 2 ++ go t 1 ++ reclaim t 1 ++ alloc t 2 :: go t 13 ++
  call t (.erase 5) :: reclaim t 1 ++ go t 1 ++ reclaim t 2 ++ go t 12 ++ unlinked 2 ++ go t 3 ++
  call t (.insert 6 7) :: reclaim t 2 ++ go t 1 ++ reclaim t 1 ++ alloc t 3 :: go t 13 ++
  call t (.contains 6) :: reclaim t 1 ++ go t 1 ++ reclaim t 2 ++ go t 11 ++
  call t (.contains 6) :: reclaim t 2 ++ go t 1 ++ reclaim t 1 ++ go t 11 ++
  call t (.contains 6) :: reclaim t 1 ++ go t 1 ++ reclaim t 2 ++ go t 11 ++
  call u (.contains 6) :: reclaim u 2 ++ go u 1 ++ reclaim u 1 ++ go u 6 ++
  call t (.erase 6) :: reclaim t 3 ++ go t 1 ++ reclaim t 1 ++ go t 12 ++ unlinked 3 ++ go t 1

/-- The node of the key 5 is freed while thread 1 is in its operation. It goes on to access that of
the key 6, which is retired and not freed. -/
theorem hmList_debra_freed :
    ∃ p : Served (State Unit ℕ (Fin 2) ℕ ℕ) (Debra.State 2 ℕ) (Fin 2) ℕ,
      p.running 1 = true ∧ p.freed 2 = true ∧ 3 ∈ p.client.retired ∧
      (∃ s', Step (hmlistOOI ℕ) smallConfig p.client 1 (.access 3) s') ∧ p.freed 3 = false := by
  have hcomputes : (withDebra (V := ℕ) smallConfig 1 2).Computes _ :=
    (Debra.answers 2 ℕ 1).computes (State.computes (hmlistOOI ℕ) smallConfig)
  obtain ⟨as, p, hp, hfound⟩ := hcomputes.exists_path (schedule 0 1) served
    (fun _ p => p.running 1 && p.freed 2 && decide (3 ∈ p.client.retired) &&
      (p.client.goOn (hmlistOOI ℕ) smallConfig 1 .go).any fun a => a.1 = .access 3)
    (by decide +kernel)
  simp only [Bool.and_eq_true, decide_eq_true_eq] at hfound
  obtain ⟨⟨⟨hrun, hfreed⟩, hret⟩, hgo⟩ := hfound
  obtain ⟨s', hs⟩ := State.step_of_goOn hgo
  have h : (withDebra smallConfig 1 2).Reachable p := (Lts.Reachable.init served_init).path hp
  exact ⟨p, hrun, hfreed, hret, ⟨s', hs⟩, (hmList_debra h).2 1 3 s' hrun hs⟩

end HmList

/-! ### The Harris list -/

namespace HarrisList

variable {minOps : ℕ}

/-- The Harris list with DEBRA. -/
abbrev withDebra (cfg : Config α K V) (minOps n : ℕ) :
    Lts (Served (State α (Fin n) K V) (Debra.State n α) (Fin n) α)
      (Option (Fin n × Event α K V)) :=
  (lts cfg).served Event.graceCall? (Debra.reclaimer n α minOps)

/-- **The Harris list with DEBRA.** -/
theorem harrisList_debra {cfg : Config α K V}
    {p : Served (State α (Fin n) K V) (Debra.State n α) (Fin n) α}
    (h : (withDebra cfg minOps n).Reachable p) :
    Sound (Debra.reclaimer n α minOps) (gone cfg) (fun s x => x ∈ s.retired)
        (fun s t => (s.pc t).Uses cfg) p ∧
      ∀ t x s', p.running t = true → Step cfg p.client t (.access x) s' → p.freed x = false := by
  have hsound := careful.sound retires retiresOnce Debra.debra_waits h
  exact ⟨hsound, fun t x s' ht hs => hsound.unused t x ht hs.access⟩

/-- The list, run by two threads with DEBRA. -/
def served : Served (State ℕ (Fin 2) ℕ ℕ) (Debra.State 2 ℕ) (Fin 2) ℕ where
  client := { smallState with pc := fun _ => .idle }
  reclaimer := Debra.State.initial 2 ℕ
  running _ := false
  freed _ := false

theorem served_init : (withDebra smallConfig 1 2).init served := by
  obtain ⟨h1, h2, h3, h4, h5, h6, h7, -⟩ := smallState_init
  exact ⟨⟨h1, h2, h3, h4, h5, h6, h7, fun _ => rfl⟩, rfl, rfl, rfl⟩

open ListTurn in
/-- Thread `t` inserts and deletes the key 5, then inserts the key 6, and goes on until two epochs
have passed. Thread `u` marks the node of the key 6; when thread `t` inserts the key 4, it unlinks
and retires this node. Thread `u` searches for its key again. -/
def schedule (t u : Fin 2) : List ListTurn :=
  call t (.insert 5 7) :: reclaim t 2 ++ go t 1 ++ reclaim t 1 ++ alloc t 2 :: go t 11 ++
  call t (.erase 5) :: reclaim t 1 ++ go t 1 ++ reclaim t 2 ++ go t 13 ++ unlinked 2 ++ go t 2 ++
  call t (.insert 6 7) :: reclaim t 2 ++ go t 1 ++ reclaim t 1 ++ alloc t 3 :: go t 11 ++
  call t (.contains 6) :: reclaim t 1 ++ go t 1 ++ reclaim t 2 ++ go t 12 ++
  call t (.contains 6) :: reclaim t 2 ++ go t 1 ++ reclaim t 1 ++ go t 12 ++
  call t (.contains 6) :: reclaim t 1 ++ go t 1 ++ reclaim t 2 ++ go t 12 ++
  call u (.erase 6) :: reclaim u 2 ++ go u 1 ++ reclaim u 1 ++ go u 12 ++
  call t (.insert 4 7) :: reclaim t 3 ++ go t 1 ++ reclaim t 1 ++ alloc t 4 :: go t 9 ++
  unlinked 3 ++ go t 7 ++ go u 4

/-- The node of the key 5 is freed while thread 1 is in its operation. Its second search goes on to
read its key from the node it has marked, which is retired and not freed. -/
theorem harrisList_debra_freed :
    ∃ p : Served (State ℕ (Fin 2) ℕ ℕ) (Debra.State 2 ℕ) (Fin 2) ℕ,
      p.running 1 = true ∧ p.freed 2 = true ∧ 3 ∈ p.client.retired ∧
      (∃ s', Step smallConfig p.client 1 (.access 3) s') ∧ p.freed 3 = false := by
  have hcomputes : (withDebra smallConfig 1 2).Computes _ :=
    (Debra.answers 2 ℕ 1).computes (State.computes smallConfig)
  obtain ⟨as, p, hp, hfound⟩ := hcomputes.exists_path (schedule 0 1) served
    (fun _ p => p.running 1 && p.freed 2 && decide (3 ∈ p.client.retired) &&
      (p.client.goOn smallConfig 1 .go).any fun a => a.1 = .access 3)
    (by decide +kernel)
  simp only [Bool.and_eq_true, decide_eq_true_eq] at hfound
  obtain ⟨⟨⟨hrun, hfreed⟩, hret⟩, hgo⟩ := hfound
  obtain ⟨s', hs⟩ := State.step_of_goOn hgo
  have h : (withDebra smallConfig 1 2).Reachable p := (Lts.Reachable.init served_init).path hp
  exact ⟨p, hrun, hfreed, hret, ⟨s', hs⟩, (harrisList_debra h).2 1 3 s' hrun hs⟩

end HarrisList

/-! ### The lazy list -/

namespace LazyList

open LazyListNzb (Config)

variable {Loc : Type} [DecidableEq Loc]

/-- The lazy list with RCU. -/
abbrev withIbrRcu (cfg : Config α K) (rcu : IbrRcu.Config) (n : ℕ) (Loc : Type)
    [DecidableEq Loc] :
    Lts (Served (State α (Fin n) K V) (IbrRcu.State n α Loc) (Fin n) α)
      (Option (Fin n × Event α K V)) :=
  (lts cfg).served Event.graceCall? (IbrRcu.reclaimer n α Loc rcu)

/-- **The lazy list with RCU.** -/
theorem lazyList_ibrRcu {cfg : Config α K} {rcu : IbrRcu.Config}
    {p : Served (State α (Fin n) K V) (IbrRcu.State n α Loc) (Fin n) α}
    (h : (withIbrRcu cfg rcu n Loc).Reachable p) :
    Sound (IbrRcu.reclaimer n α Loc rcu) (gone cfg) (fun s x => x ∈ s.retired)
        (fun s t => (s.pc t).Uses) p ∧
      ∀ t x s', p.running t = true → Step cfg p.client t (.access x) s' → p.freed x = false := by
  have hsound := careful.sound retires retiresOnce IbrRcu.ibrRcu_waits h
  exact ⟨hsound, fun t x s' ht hs => hsound.unused t x ht hs.access⟩

/-- The list, run by two threads with RCU. -/
def served : Served (State ℕ (Fin 2) ℕ ℕ) (IbrRcu.State 2 ℕ Unit) (Fin 2) ℕ where
  client := { smallState with pc := fun _ => .idle }
  reclaimer := IbrRcu.State.initial 2 ℕ Unit
  running _ := false
  freed _ := false

/-- The list is emptied at every retirement, and the epoch incremented at every second
allocation. -/
def rcuConfig : IbrRcu.Config := ⟨1, 1⟩

theorem served_init : (withIbrRcu (V := ℕ) smallConfig rcuConfig 2 Unit).init served := by
  obtain ⟨h1, h2, h3, h4, h5, h6, h7, h8, -⟩ := smallState_init
  exact ⟨⟨h1, h2, h3, h4, h5, h6, h7, h8, fun _ => rfl⟩, rfl, rfl, rfl⟩

open ListTurn in
/-- Thread `t` inserts and deletes the key 5, then inserts the key 6, and the epoch is incremented.
Thread `u` looks for the key 6; when it has come to its node, thread `t` deletes this key. -/
def schedule (t u : Fin 2) : List ListTurn :=
  call t (.insert 5 7) :: reclaim t 1 ++ go t 8 ++ alloc t 2 :: go t 4 ++
  call t (.erase 5) :: reclaim t 1 ++ go t 13 ++ unlinked 2 ++ go t 1 ++ reclaim t 5 ++ go t 4 ++
  call t (.insert 6 7) :: reclaim t 1 ++ go t 8 ++ alloc t 3 :: go t 4 ++
  .reclaimer (.alloc t) :: .reclaimer (.alloc t) :: reclaim t 1 ++
  call u (.contains 6) :: reclaim u 1 ++ go u 4 ++
  call t (.erase 6) :: reclaim t 1 ++ go t 13 ++ unlinked 3 ++ go t 1 ++ reclaim t 6

/-- The node of the key 5 is freed while thread 1 is in its operation. It goes on to access that of
the key 6, which is retired and not freed. -/
theorem lazyList_ibrRcu_freed :
    ∃ p : Served (State ℕ (Fin 2) ℕ ℕ) (IbrRcu.State 2 ℕ Unit) (Fin 2) ℕ,
      p.running 1 = true ∧ p.freed 2 = true ∧ 3 ∈ p.client.retired ∧
      (∃ s', Step smallConfig p.client 1 (.access 3) s') ∧ p.freed 3 = false := by
  have hcomputes : (withIbrRcu (V := ℕ) smallConfig rcuConfig 2 Unit).Computes _ :=
    (IbrRcu.answers 2 ℕ Unit rcuConfig).computes (State.computes smallConfig)
  obtain ⟨as, p, hp, hfound⟩ := hcomputes.exists_path (schedule 0 1) served
    (fun _ p => p.running 1 && p.freed 2 && decide (3 ∈ p.client.retired) &&
      (p.client.goOn smallConfig 1 .go).any fun a => a.1 = .access 3)
    (by decide +kernel)
  simp only [Bool.and_eq_true, decide_eq_true_eq] at hfound
  obtain ⟨⟨⟨hrun, hfreed⟩, hret⟩, hgo⟩ := hfound
  obtain ⟨s', hs⟩ := State.step_of_goOn hgo
  have h : (withIbrRcu smallConfig rcuConfig 2 Unit).Reachable p :=
    (Lts.Reachable.init served_init).path hp
  exact ⟨p, hrun, hfreed, hret, ⟨s', hs⟩, (lazyList_ibrRcu h).2 1 3 s' hrun hs⟩

end LazyList

end PopSetbench

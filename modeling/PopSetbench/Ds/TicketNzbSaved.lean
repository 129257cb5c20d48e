import PopSetbench.Ds.TicketLinear
import PopSetbench.Ds.TicketNzb

/-!
# What the ticket tree saves

Under NBR a deletion, and an insertion that adds its key, have saved every node they touch while
they are not restartable, up to the value that is returned after `endOp`. A search and an insertion
that find their key have saved nothing: they leave the read phase by `endOp` and then read the value
of a leaf, which may have been freed in the meantime. So an operation keeps the rule where its
searches and insertions do not find their keys (`ticketNzb_saved`), and `ticketNzb_unsaved` is a run
in which the value is read from a node that was freed.
-/

namespace PopSetbench
namespace TicketNzb

open Function
open Ticket (Config Upd Edge After Tl smallConfig)

variable {α ι K V : Type}

/-- The nodes a thread has to have saved. -/
def Pc.Touches (x : α) : Pc α K V → Prop
  | .savePpred _ _ pred _ => pred.node = some x
  | .saveCurr (.insert _ _) _ pred _ => pred.node = some x
  | .saveCurr (.delete _) ppred pred _ => ppred.node = some x ∨ pred.node = some x
  | .upgrade (.insert _ _) _ pred curr => pred.node = some x ∨ x = curr
  | .upgrade (.delete _) ppred pred curr => ppred.node = some x ∨ pred.node = some x ∨ x = curr
  | .newLeaf _ _ pred curr => pred.node = some x ∨ x = curr
  | .newNode _ _ pred curr _ => pred.node = some x ∨ x = curr
  | .lockPred _ _ pred curr _ _ => pred.node = some x ∨ x = curr
  | .compare _ _ pred curr _ _ => pred.node = some x ∨ x = curr
  | .copyKey _ _ pred curr _ _ => pred.node = some x ∨ x = curr
  | .initNode _ _ pred _ _ _ _ _ => pred.node = some x
  | .storeChild _ _ pred _ => pred.node = some x
  | .lockPpred _ ppred pred curr => ppred.node = some x ∨ pred.node = some x ∨ x = curr
  | .lockBoth _ ppred pred curr => ppred.node = some x ∨ pred.node = some x ∨ x = curr
  | .loadSibling _ ppred pred curr => ppred.node = some x ∨ pred.node = some x ∨ x = curr
  | .splice _ ppred _ curr _ => ppred.node = some x ∨ x = curr
  | .unlock e (.inserted _ _) => e.node = some x
  | .unlock e (.deleted _ _ curr) => e.node = some x ∨ x = curr
  | .storeVersion e _ (.inserted _ _) => e.node = some x
  | .storeVersion e _ (.deleted _ _ curr) => e.node = some x ∨ x = curr
  | .revert _ ppred _ => ppred.node = some x
  | .storeTicket _ ppred _ _ => ppred.node = some x
  | .retireCurr _ _ curr => x = curr
  | .retirePred _ _ curr => x = curr
  | .endHit _ curr => x = curr
  | .endVal _ curr => x = curr
  | .readVal _ curr => x = curr
  | _ => False

/-- The node a thread has allocated and will still write to. -/
def Pc.Owns (x : α) : Pc α K V → Prop
  | .lockPred _ _ _ _ _ nr => x = nr
  | .compare _ _ _ _ _ nr => x = nr
  | .copyKey _ _ _ _ _ nr => x = nr
  | .initNode _ _ _ _ _ nr _ _ => x = nr
  | _ => False

/-- What the monitor of a thread knows. -/
structure Knows (p : Pc α K V) (m : Attempt α) : Prop where
  saved : ∀ x, p.Touches x → x ∈ m.saved
  own : ∀ x, p.Owns x → x ∈ m.own
  reading : p.checkpoint ≠ none → m.writing = false

/-- The step is not one by which a search or an insertion finds its key. -/
def Misses (s : State α ι K V) (a : ι × NbrEvent α) : Prop :=
  match s.pc a.1 with
  | .findTest key curr => s.key curr ≠ key
  | .testKey (.insert key _) _ _ curr => s.key curr ≠ key
  | _ => True

/-- What is asked for: nodes other than the sentinels are only looked at when they were saved. -/
def writeRule [DecidableEq α] [LT K] (cfg : Config α K) : WriteRule α :=
  ⟨true, fun x => x = cfg.root ∨ x = cfg.min ∨ x = cfg.max⟩

section

variable [DecidableEq α] {R : WriteRule α} {m m' : Attempt α} {p p' : Pc α K V} {x : α}
  {w : Option α}

omit [DecidableEq α] in
theorem Knows.outside (ht : ∀ x, ¬ p.Touches x) (ho : ∀ x, ¬ p.Owns x)
    (hc : p.checkpoint = none) : Knows p m :=
  ⟨fun x hx => (ht x hx).elim, fun x hx => (ho x hx).elim, fun h => absurd hc h⟩

/-- Anything may be read in the read phase. -/
theorem Knows.next_read (h : Knows p m) (hp : p.checkpoint ≠ none) (ht : ∀ x, ¬ p'.Touches x)
    (ho : ∀ x, ¬ p'.Owns x) :
    ∃ m', m.nextAfter R (.read w) = some m' ∧ Knows p' m' :=
  ⟨m, Attempt.next_read fun _ => Attempt.allows_of_not_writing (h.reading hp),
    fun x hx => (ht x hx).elim, fun x hx => (ho x hx).elim, fun _ => h.reading hp⟩

omit [DecidableEq α] in
/-- In the write phase, a place from which no more nodes are looked at. -/
theorem Knows.mono (h : Knows p m) (hm : m'.saved = m.saved) (hm' : m'.own = m.own)
    (ht : ∀ x, p'.Touches x → p.Touches x) (ho : ∀ x, p'.Owns x → p.Owns x)
    (hc : p'.checkpoint = none) : Knows p' m' := by
  refine ⟨fun x hx => ?_, fun x hx => ?_, fun h => absurd hc h⟩
  · rw [hm]
    exact h.saved x (ht x hx)
  · rw [hm']
    exact h.own x (ho x hx)

/-- A node is read in the write phase. -/
theorem Knows.read (h : Knows p m) (hx : p.Touches x) (ht : ∀ z, p'.Touches z → p.Touches z)
    (ho : ∀ x, p'.Owns x → p.Owns x) (hc : p'.checkpoint = none) :
    ∃ m', m.nextAfter R (.read (some x)) = some m' ∧ Knows p' m' :=
  ⟨m, Attempt.next_read fun _ => Attempt.allows_of_saved (h.saved x hx),
    h.mono rfl rfl ht ho hc⟩

/-- A node is written or locked in the write phase. -/
theorem Knows.write (h : Knows p m) (hx : p.Touches x) (ht : ∀ z, p'.Touches z → p.Touches z)
    (ho : ∀ x, p'.Owns x → p.Owns x) (hc : p'.checkpoint = none) :
    ∃ m', m.nextAfter R (.write (some x)) = some m' ∧ Knows p' m' :=
  ⟨m, Attempt.next_write (Attempt.allows_of_saved (h.saved x hx)), h.mono rfl rfl ht ho hc⟩

/-- A node is saved. -/
theorem Knows.save (h : Knows p m) (hp : p.checkpoint ≠ none)
    (ht : ∀ x, p'.Touches x → w = some x ∨ p.Touches x) (ho : ∀ x, ¬ p'.Owns x) :
    ∃ m', m.nextAfter R (.save w) = some m' ∧ Knows p' m' := by
  refine ⟨_, rfl, fun x hx => ?_, fun x hx => (ho x hx).elim, fun _ => h.reading hp⟩
  rcases ht x hx with hw | hx
  · exact List.mem_append_left _ (Option.mem_toList.mpr hw)
  · exact List.mem_append_right _ (h.saved x hx)

end

variable [LinearOrder K] [DecidableEq α] [DecidableEq ι] {cfg : Config α K}
  {s s' : State α ι K V} {t : ι} {e : NbrEvent α}

/-- A step does what the monitor does. -/
theorem Step.follows {m : Attempt α} (h : Step cfg s t e s') (hok : Misses s (t, e))
    (hm : Knows (s.pc t) m) :
    ∃ m', m.nextAfter (writeRule cfg) e = some m' ∧ Knows (s'.pc t) m' := by
  unfold Misses at hok
  cases h with
  | free x hx => exact ⟨m, rfl, hm⟩
  | invoke op hpc hmin hmax =>
    rw [State.goto_pc_self]
    exact ⟨m, rfl, .outside (fun _ h => h) (fun _ h => h) rfl⟩
  | startOp op ppred pred hpc =>
    -- nothing is known and nothing is kept before an operation
    rw [State.goto_pc_self]
    refine ⟨_, rfl, fun x hx => ?_, fun x hx => ?_, fun _ => rfl⟩
    · cases op <;> exact hx.elim
    · cases op <;> exact hx.elim
  | restart op ppred pred hpc =>
    rw [State.goto_pc_self]
    exact ⟨_, rfl, .outside (fun _ h => h) (fun _ h => h) rfl⟩
  | findHit key x hpc hk =>
    rw [hpc] at hok
    exact (hok hk).elim
  | testHit u ppred pred x hpc hk =>
    -- the key was found in an insertion, which is what `Misses` excludes
    rw [hpc] at hok
    rw [State.goto_pc_self]
    cases u with
    | insert key val => exact (hok hk).elim
    | delete key => exact hm.next_read (by rw [hpc]; exact nofun) (fun _ h => h) fun _ h => h
  | testMiss u ppred pred x hpc hk =>
    rw [State.goto_pc_self]
    cases u with
    | insert key val => exact hm.next_read (by rw [hpc]; exact nofun) (fun _ h => h) fun _ h => h
    | delete key => exact hm.next_read (by rw [hpc]; exact nofun) (fun _ h => h) fun _ h => h
  | endHit op x hpc =>
    rw [State.goto_pc_self]
    rw [hpc] at hm
    exact ⟨_, rfl, hm.mono rfl rfl (fun _ h => h) (fun _ h => h) rfl⟩
  | endMiss op hpc =>
    -- the value is read after `endOp`, where every access is free
    rw [State.goto_pc_self]
    exact ⟨_, rfl, .outside (fun _ h => h) (fun _ h => h) rfl⟩
  | savePred u ppred pred x hpc =>
    rw [State.goto_pc_self]
    rw [hpc] at hm
    cases u with
    | insert key val => exact hm.save nofun (fun _ h => .inl h) fun _ h => h
    | delete key => exact hm.save nofun (fun _ h => .inl h) fun _ h => h
  | savePpred key ppred pred x hpc =>
    rw [State.goto_pc_self]
    rw [hpc] at hm
    exact hm.save nofun (fun _ h => h) fun _ h => h
  | saveCurr u ppred pred x hpc =>
    -- `curr` is saved as the last one
    rw [State.goto_pc_self]
    rw [hpc] at hm
    cases u with
    | insert key val =>
      refine hm.save nofun ?_ fun _ h => h
      rintro z (hz | rfl)
      · exact .inr hz
      · exact .inl rfl
    | delete key =>
      refine hm.save nofun ?_ fun _ h => h
      rintro z (hz | hz | rfl)
      · exact .inr (.inl hz)
      · exact .inr (.inr hz)
      · exact .inl rfl
  | upgrade u ppred pred x hpc =>
    -- the write phase begins with the nodes that are kept
    rw [State.goto_pc_self]
    rw [hpc] at hm
    cases u with
    | insert key val => exact ⟨_, rfl, hm.mono rfl rfl (fun _ h => h) (fun _ h => h) rfl⟩
    | delete key => exact ⟨_, rfl, hm.mono rfl rfl (fun _ h => h) (fun _ h => h) rfl⟩
  | newLeaf key val pred x a hpc ha =>
    rw [State.goto_pc_self]
    rw [hpc] at hm
    exact ⟨_, rfl, hm.saved, fun _ h => h.elim, nofun⟩
  | newNode key val pred x a b hpc hb =>
    rw [State.goto_pc_self]
    rw [hpc] at hm
    refine ⟨_, rfl, hm.saved, ?_, nofun⟩
    rintro z rfl
    exact List.mem_cons_self
  | lockPred key val pred p x a b l hpc hp hl =>
    -- the lock of `pred` is a word of a saved node
    rw [State.goto_pc_self]
    rw [hpc] at hm
    exact hm.write (.inl hp) (fun _ h => h) (fun _ h => h) rfl
  | lockPredFail key val pred p x a b hpc hp hl =>
    rw [State.goto_pc_self]
    rw [hpc] at hm
    exact hm.write (.inl hp) (fun _ h => h.elim) (fun _ h => h.elim) rfl
  | deallocLeaf key val pred a b hpc =>
    rw [State.goto_pc_self]
    exact ⟨_, rfl, .outside (fun _ h => h) (fun _ h => h) rfl⟩
  | deallocNode key val pred b hpc =>
    rw [State.goto_pc_self]
    exact ⟨_, rfl, .outside (fun _ h => h) (fun _ h => h) rfl⟩
  | compareLess key val pred x a b hpc hk =>
    -- the key of `curr` is read once more, in the write phase
    rw [State.goto_pc_self]
    rw [hpc] at hm
    exact hm.read (.inr rfl) (fun _ h => h) (fun _ h => h) rfl
  | compareGreater key val pred x a b hpc hk =>
    rw [State.goto_pc_self]
    rw [hpc] at hm
    exact hm.read (.inr rfl) (fun _ h => .inl h) (fun _ h => h) rfl
  | copyKey key val pred x a b hpc =>
    rw [State.goto_pc_self]
    rw [hpc] at hm
    exact hm.read (.inr rfl) (fun _ h => .inl h) (fun _ h => h) rfl
  | initNode key val pred x a b less nrKey hpc =>
    rw [State.goto_pc_self]
    rw [hpc] at hm
    -- the new node is the operation's own
    exact ⟨m, Attempt.next_write (Attempt.allows_of_own (hm.own b rfl)),
      hm.mono rfl rfl (fun _ h => h) (fun _ h => h.elim) rfl⟩
  | storeChild key val pred p b hpc hp =>
    -- the store goes to `pred`
    rw [State.goto_pc_self]
    rw [hpc] at hm
    exact ⟨_, Attempt.next_link (Attempt.allows_of_saved (hm.saved p hp)), hm.saved,
      fun _ h => h.elim, nofun⟩
  | lockPpred key ppred pred g x l hpc hg hl =>
    -- `deleteKey` has saved all three nodes
    rw [State.goto_pc_self]
    rw [hpc] at hm
    exact hm.write (.inl hg) (fun _ h => h) (fun _ h => h) rfl
  | lockPpredFail key ppred pred g x hpc hg hl =>
    rw [State.goto_pc_self]
    rw [hpc] at hm
    exact hm.write (.inl hg) (fun _ h => h.elim) (fun _ h => h) rfl
  | lockBoth key ppred pred p x l hpc hp hl =>
    rw [State.goto_pc_self]
    rw [hpc] at hm
    exact hm.write (.inr (.inl hp)) (fun _ h => h) (fun _ h => h) rfl
  | lockBothFail key ppred pred p x hpc hp hl =>
    rw [State.goto_pc_self]
    rw [hpc] at hm
    exact hm.write (.inr (.inl hp)) (fun _ h => .inl h) (fun _ h => h) rfl
  | loadSibling key ppred pred p x hpc hp =>
    rw [State.goto_pc_self]
    rw [hpc] at hm
    exact hm.read (.inr (.inl hp)) (fun _ h => h.imp_right .inr) (fun _ h => h) rfl
  | splice key ppred pred g p x y hpc hg hp =>
    rw [State.goto_pc_self]
    rw [hpc] at hm
    exact ⟨_, Attempt.next_unlink (Attempt.allows_of_saved (hm.saved g (.inl hg))),
      hm.mono rfl rfl (fun _ h => h) (fun _ h => h) rfl⟩
  | unlock e k p hpc hp =>
    -- the locks are released through the same edges
    rw [State.goto_pc_self]
    rw [hpc] at hm
    cases k with
    | inserted key val => exact hm.read hp (fun _ h => h) (fun _ h => h) rfl
    | deleted key pred x => exact hm.read (.inl hp) (fun _ h => h) (fun _ h => h) rfl
  | storeVersion e v k p hpc hp =>
    rw [State.goto_pc_self]
    rw [hpc] at hm
    cases k with
    | inserted key val => exact hm.write hp (fun _ h => h.elim) (fun _ h => h) rfl
    | deleted key pred x => exact hm.write (.inl hp) (fun _ h => .inr h) (fun _ h => h) rfl
  | revert key ppred pred g hpc hg =>
    rw [State.goto_pc_self]
    rw [hpc] at hm
    exact hm.read hg (fun _ h => h) (fun _ h => h) rfl
  | storeTicket key ppred pred v g hpc hg =>
    rw [State.goto_pc_self]
    rw [hpc] at hm
    exact hm.write hg (fun _ h => h.elim) (fun _ h => h) rfl
  | retireCurr key pred x hpc =>
    -- a node that was cut off is retired by its own address
    rw [State.goto_pc_self]
    rw [hpc] at hm
    exact ⟨m, rfl, hm.mono rfl rfl (fun _ h => h) (fun _ h => h) rfl⟩
  | retirePred key pred p x hpc hp =>
    rw [State.goto_pc_self]
    rw [hpc] at hm
    exact ⟨m, rfl, hm.mono rfl rfl (fun _ h => h) (fun _ h => h) rfl⟩
  | endRetry u ppred pred hpc =>
    rw [State.goto_pc_self]
    exact ⟨_, rfl, .outside (fun _ h => h) (fun _ h => h) rfl⟩
  | endVal op x hpc =>
    rw [State.goto_pc_self]
    rw [hpc] at hm
    exact ⟨_, rfl, hm.mono rfl rfl (fun _ h => h) (fun _ h => h) rfl⟩
  | endOp op r hpc =>
    rw [State.goto_pc_self]
    exact ⟨_, rfl, .outside (fun _ h => h) (fun _ h => h) rfl⟩
  | readVal op x hpc =>
    rw [State.goto_pc_self]
    rw [hpc] at hm
    exact hm.read rfl (fun _ h => h.elim) (fun _ h => h) rfl
  | ret op r hpc =>
    rw [State.goto_pc_self]
    exact ⟨m, rfl, .outside (fun _ h => h) (fun _ h => h) rfl⟩
  | _ =>
    -- the rest of the steps are reads of the walk
    have hpc := ‹s.pc t = _›
    rw [State.goto_pc_self]
    exact hm.next_read (by rw [hpc]; exact nofun) (fun _ h => h) fun _ h => h

/-- The other threads stay where they are. -/
theorem Step.pc_of_ne (h : Step cfg s t e s') {q : ι} (hq : q ≠ t) : s'.pc q = s.pc q := by
  cases h with
  | free x hx => rfl
  | _ => exact State.goto_pc_of_ne hq

/-- The monitor of a thread that keeps the rule. -/
theorem exists_knows {x : State α ι K V × (ι → Option (Attempt α))}
    (h : (unrestartable (writeRule cfg) (lts cfg)).ReachableBy
      (fun x a => a.1 = t → Misses x.1 a) x) :
    ∃ m, x.2 t = some m ∧ Knows (x.1.pc t) m := by
  refine Lts.ReachableBy.monitored_rel (R := fun s m => Knows (s.pc t) m)
    (p := fun s a => a.1 = t → Misses s a) ?_ ?_ ?_ h
  · intro s hs
    rw [hs.pc t]
    exact .outside (fun _ h => h) (fun _ h => h) rfl
  · intro s e s' m hr hs hok hm
    exact Step.follows hs (hok rfl) hm
  · intro s q e s' m hs hq hm
    have hs : Step cfg s q e s' := hs
    rw [hs.pc_of_ne hq]
    exact hm

/-- **What a thread touches while it is not restartable was saved**, or is a sentinel or a node of
the operation itself, in every run in which its searches and insertions do not find their keys. The
other threads do what they like. -/
theorem ticketNzb_saved (cfg : Config α K) (t : ι)
    (x : State α ι K V × (ι → Option (Attempt α)))
    (h : (unrestartable (writeRule cfg) (lts cfg)).ReachableBy
      (fun x a => a.1 = t → Misses x.1 a) x) :
    x.2 t ≠ none := by
  obtain ⟨m, hm, -⟩ := exists_knows h
  rw [hm]
  exact nofun

/-! ### Runs -/

section

/-- The tree after the constructor, run by two threads. -/
def emptyTree : State ℕ Bool ℕ ℕ where
  child x right := if x = 0 then some (bif right then 2 else 1) else none
  key x := if x = 1 then 0 else 100
  val _ := none
  lock _ := .zero
  allocated x := decide (x < 3)
  retired := []
  pc _ := .idle

theorem emptyTree_init : Init smallConfig emptyTree where
  child_root _ := rfl
  child_min _ := rfl
  child_max _ := rfl
  key_root := rfl
  key_min := rfl
  key_max := rfl
  val _ _ := rfl
  lock _ _ := rfl
  allocated x := by
    show decide (x < 3) = true ↔ x = 0 ∨ x = 1 ∨ x = 2
    rw [decide_eq_true_iff]
    omega
  retired := rfl
  pc _ := rfl

/-- The edge that is followed from the root. -/
def rootEdge : Edge ℕ :=
  ⟨some 0, .zero, false⟩

/-- The tree after the insertion of one key. -/
def oneKey : State ℕ Bool ℕ ℕ where
  child
    | 0, right => some (bif right then 2 else 4)
    | 4, right => some (bif right then 3 else 1)
    | _, _ => none
  key
    | 1 => 0
    | 3 => 5
    | 4 => 5
    | _ => 100
  val
    | 3 => some 7
    | _ => none
  lock
    | 0 => ⟨fun right => bif right then ⟨0, 0⟩ else ⟨1, 1⟩⟩
    | _ => .zero
  allocated x := decide (x < 5)
  retired := []
  pc _ := .idle

/-- A thread inserts the key. -/
theorem oneKey_reached {p : State ℕ Bool ℕ ℕ × (Bool → Option (Attempt ℕ)) →
    Bool × NbrEvent ℕ → Prop} (hp : ∀ x e, Misses x.1 (false, e) → p x (false, e)) :
    ∃ m : Bool → Option (Attempt ℕ),
      (unrestartable (writeRule smallConfig) (lts smallConfig)).ReachableBy p (oneKey, m) ∧
        m true = some .start := by
  have h : (unrestartable (writeRule smallConfig) (lts smallConfig)).ReachableBy p
      (emptyTree, fun _ => some .start) := .init ⟨emptyTree_init, fun _ => rfl⟩
  -- the leaf on the left of the root is found, and its key is another one
  have h := h.step_monitored (a := (false, _))
    (.invoke (.insert 5 7) rfl (by decide) (by decide)) (hp _ _ (by trivial))
  have h := h.step_monitored (a := (false, _)) (.startOp (.insert 5 7) .none .none rfl)
    (hp _ _ (by trivial))
  have h := h.step_monitored (a := (false, _)) (.loadVer (.insert 5 7) .none .none 0 rfl)
    (hp _ _ (by trivial))
  have h := h.step_monitored (a := (false, _)) (.readKey (.insert 5 7) .none rootEdge 0 rfl rfl)
    (hp _ _ (by trivial))
  have h := h.step_monitored (a := (false, _))
    (.loadChild (.insert 5 7) .none rootEdge 0 1 rfl rfl rfl) (hp _ _ (by trivial))
  have h := h.step_monitored (a := (false, _)) (.loadNull (.insert 5 7) .none rootEdge 1 rfl rfl)
    (hp _ _ (by trivial))
  have h := h.step_monitored (a := (false, _))
    (.testMiss (.insert 5 7) .none rootEdge 1 rfl (by decide)) (hp _ _ (show (0 : ℕ) ≠ 5 by decide))
  -- the two nodes are saved, and the write phase begins
  have h := h.step_monitored (a := (false, _)) (.savePred (.insert 5 7) .none rootEdge 1 rfl)
    (hp _ _ (by trivial))
  have h := h.step_monitored (a := (false, _)) (.saveCurr (.insert 5 7) .none rootEdge 1 rfl)
    (hp _ _ (by trivial))
  have h := h.step_monitored (a := (false, _)) (.upgrade (.insert 5 7) .none rootEdge 1 rfl)
    (hp _ _ (by trivial))
  have h := h.step_monitored (a := (false, _)) (.newLeaf 5 7 rootEdge 1 3 rfl rfl)
    (hp _ _ (by trivial))
  have h := h.step_monitored (a := (false, _)) (.newNode 5 7 rootEdge 1 3 4 rfl rfl)
    (hp _ _ (by trivial))
  -- the new nodes are linked below the root
  have h := h.step_monitored (a := (false, _)) (.lockPred 5 7 rootEdge 0 1 3 4 _ rfl rfl rfl)
    (hp _ _ (by trivial))
  have h := h.step_monitored (a := (false, _)) (.compareGreater 5 7 rootEdge 1 3 4 rfl (by decide))
    (hp _ _ (by trivial))
  have h := h.step_monitored (a := (false, _)) (.initNode 5 7 rootEdge 1 3 4 false 5 rfl)
    (hp _ _ (by trivial))
  have h := h.step_monitored (a := (false, _)) (.storeChild 5 7 rootEdge 0 4 rfl rfl)
    (hp _ _ (by trivial))
  have h := h.step_monitored (a := (false, _)) (.unlock rootEdge (.inserted 5 7) 0 rfl rfl)
    (hp _ _ (by trivial))
  have h := h.step_monitored (a := (false, _))
    (.storeVersion rootEdge _ (.inserted 5 7) 0 rfl rfl) (hp _ _ (by trivial))
  have h := h.step_monitored (a := (false, _)) (.endOp (.insert 5 7) (.value none) rfl)
    (hp _ _ (by trivial))
  have h := h.step_monitored (a := (false, _)) (.ret (.insert 5 7) (.value none) rfl)
    (hp _ _ (by trivial))
  -- the state reached is the one written out above
  obtain ⟨s, m, h, hs, hm⟩ : ∃ s m,
      (unrestartable (writeRule smallConfig) (lts smallConfig)).ReachableBy p (s, m) ∧
        s = oneKey ∧ m true = some .start := by
    refine ⟨_, _, h, ?_, rfl⟩
    refine State.ext (funext fun x => funext fun d => ?_) (funext fun x => ?_)
      (funext fun x => ?_) (funext fun x => Tl.ext_lr fun d => ?_) (funext fun x => ?_) rfl
      (funext fun q => ?_)
    rotate_right
    · cases q <;> rfl
    all_goals
      match x with
      | 0 => first | rfl | (cases d <;> rfl)
      | 1 => rfl
      | 2 => rfl
      | 3 => rfl
      | 4 => first | rfl | (cases d <;> rfl)
      | _ + 5 => rfl
  exact ⟨m, hs ▸ h, hm⟩

/-- A thread that inserts a key has saved what it touches. -/
theorem ticketNzb_saved_insert : ∃ x : State ℕ Bool ℕ ℕ × (Bool → Option (Attempt ℕ)),
    x.1 = oneKey ∧ x.2 false ≠ none := by
  obtain ⟨m, h, -⟩ := oneKey_reached
    (p := fun x a => a.1 = false → Misses x.1 a) fun x e h _ => h
  exact ⟨(oneKey, m), rfl, ticketNzb_saved smallConfig false _ h⟩

/-- The edge from the root to the inner node, and from there to the leaf. -/
def topEdge : Edge ℕ :=
  ⟨some 0, ⟨fun right => bif right then ⟨0, 0⟩ else ⟨1, 1⟩⟩, false⟩

def leafEdge : Edge ℕ :=
  ⟨some 4, .zero, true⟩

/-- **The value of a freed node is returned**: the second thread finds the key and calls `endOp`.
Then the first one deletes it, and the leaf is freed. -/
theorem ticketNzb_unsaved : ∃ x : State ℕ Bool ℕ ℕ × (Bool → Option (Attempt ℕ)),
    (unrestartable (writeRule smallConfig) (lts smallConfig)).Reachable x ∧
      x.1.pc true = .ret (.contains 5) (.value (x.1.val 3)) ∧ x.1.allocated 3 = false ∧
        x.2 true = none := by
  obtain ⟨m, h, hm⟩ := oneKey_reached (p := fun _ _ => True) fun _ _ _ => trivial
  -- the second thread finds the key, and its `endOp` releases the leaf
  have h := h.step_monitored (a := (true, _))
    (.invoke (.contains 5) rfl (by decide) (by decide)) trivial
  have h := h.step_monitored (a := (true, _)) (.startOp (.contains 5) .none .none rfl) trivial
  have h := h.step_monitored (a := (true, _)) (.findLeft 5 0 rfl (by exact nofun)) trivial
  have h := h.step_monitored (a := (true, _)) (.findKey 5 0 rfl) trivial
  have h := h.step_monitored (a := (true, _)) (.findChild 5 0 4 false rfl rfl) trivial
  have h := h.step_monitored (a := (true, _)) (.findLeft 5 4 rfl (by exact nofun)) trivial
  have h := h.step_monitored (a := (true, _)) (.findKey 5 4 rfl) trivial
  have h := h.step_monitored (a := (true, _)) (.findChild 5 4 3 true rfl rfl) trivial
  have h := h.step_monitored (a := (true, _)) (.findNull 5 3 rfl rfl) trivial
  have h := h.step_monitored (a := (true, _)) (.findHit 5 3 rfl rfl) trivial
  have h := h.step_monitored (a := (true, _)) (.endHit (.contains 5) 3 rfl) trivial
  -- the other thread deletes the key: the leaf is cut off, retired and freed
  have h := h.step_monitored (a := (false, _))
    (.invoke (.erase 5) rfl (by decide) (by decide)) trivial
  have h := h.step_monitored (a := (false, _)) (.startOp (.erase 5) .none .none rfl) trivial
  have h := h.step_monitored (a := (false, _)) (.loadVer (.delete 5) .none .none 0 rfl) trivial
  have h := h.step_monitored (a := (false, _))
    (.readKey (.delete 5) .none topEdge 0 rfl rfl) trivial
  have h := h.step_monitored (a := (false, _))
    (.loadChild (.delete 5) .none topEdge 0 4 rfl rfl rfl) trivial
  have h := h.step_monitored (a := (false, _))
    (.loadLeft (.delete 5) .none topEdge 4 rfl (by exact nofun)) trivial
  have h := h.step_monitored (a := (false, _)) (.loadVer (.delete 5) .none topEdge 4 rfl) trivial
  have h := h.step_monitored (a := (false, _))
    (.readKey (.delete 5) topEdge ⟨some 4, .zero, false⟩ 4 rfl rfl) trivial
  have h := h.step_monitored (a := (false, _))
    (.loadChild (.delete 5) topEdge leafEdge 4 3 rfl rfl rfl) trivial
  have h := h.step_monitored (a := (false, _))
    (.loadNull (.delete 5) topEdge leafEdge 3 rfl rfl) trivial
  have h := h.step_monitored (a := (false, _))
    (.testHit (.delete 5) topEdge leafEdge 3 rfl rfl) trivial
  have h := h.step_monitored (a := (false, _))
    (.savePred (.delete 5) topEdge leafEdge 3 rfl) trivial
  have h := h.step_monitored (a := (false, _)) (.savePpred 5 topEdge leafEdge 3 rfl) trivial
  have h := h.step_monitored (a := (false, _))
    (.saveCurr (.delete 5) topEdge leafEdge 3 rfl) trivial
  have h := h.step_monitored (a := (false, _)) (.upgrade (.delete 5) topEdge leafEdge 3 rfl) trivial
  have h := h.step_monitored (a := (false, _))
    (.lockPpred 5 topEdge leafEdge 0 3 _ rfl rfl rfl) trivial
  have h := h.step_monitored (a := (false, _))
    (.lockBoth 5 topEdge leafEdge 4 3 _ rfl rfl rfl) trivial
  have h := h.step_monitored (a := (false, _)) (.loadSibling 5 topEdge leafEdge 4 3 rfl rfl) trivial
  have h := h.step_monitored (a := (false, _))
    (.splice 5 topEdge leafEdge 0 4 3 (some 1) rfl rfl rfl) trivial
  have h := h.step_monitored (a := (false, _))
    (.unlock topEdge (.deleted 5 leafEdge 3) 0 rfl rfl) trivial
  have h := h.step_monitored (a := (false, _))
    (.storeVersion topEdge _ (.deleted 5 leafEdge 3) 0 rfl rfl) trivial
  have h := h.step_monitored (a := (false, _)) (.retireCurr 5 leafEdge 3 rfl) trivial
  have h := h.step_monitored (a := (false, _)) (.free 3 List.mem_cons_self) trivial
  -- only now the value is read
  have h := h.step_monitored (a := (true, _)) (.readVal (.contains 5) 3 rfl) trivial
  refine ⟨_, h, rfl, rfl, ?_⟩
  simp only [update_self, hm]
  rfl

end

end TicketNzb
end PopSetbench

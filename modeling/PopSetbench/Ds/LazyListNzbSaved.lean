import Mathlib.Data.Nat.Basic
import PopSetbench.Ds.LazyListNzb

/-!
# What the lazy list saves

Under NBR every node an erasure looks at in its write phase was saved. An insertion saves `pred`,
and once it has seen under the lock that `pred` is not marked it goes on to `curr`, which was not
saved. So an operation keeps the rule of the write phase where its insertions find `pred` marked
or `curr` to be a sentinel (`lazyNzb_saved`), and `lazyNzb_unsaved` is a run that does not.
-/

namespace PopSetbench
namespace LazyListNzb

open Function

variable {α ι K V : Type}

/-- The nodes an update looks at once it has found `pred` not to be marked. -/
def Upd.kept (pred curr : α) : Upd K V → List α
  | .insert _ _ => [pred]
  | .erase _ => [pred, curr]

/-- The nodes a thread has to have saved. -/
def Pc.touches : Pc α K V → List α
  | .saveCurr _ pred _ => [pred]
  | .upgrade u pred curr => u.kept pred curr
  | .lockPred u pred curr => u.kept pred curr
  | .lockCurr _ pred curr => [pred, curr]
  | .validPred u pred curr => u.kept pred curr
  | .validCurr _ pred curr => [pred, curr]
  | .validNext _ pred curr => [pred, curr]
  | .failPred u pred curr => u.kept pred curr
  | .failCurr _ pred curr => [pred, curr]
  | .failNext _ pred curr => [pred, curr]
  | .insertKey _ _ pred curr => [pred, curr]
  | .insertVal _ _ pred curr => [pred, curr]
  | .newNode _ _ pred _ => [pred]
  | .link _ _ pred _ => [pred]
  | .eraseVal _ pred curr => [pred, curr]
  | .eraseNext _ pred curr _ => [pred, curr]
  | .mark _ pred curr _ _ => [pred, curr]
  | .unlink _ pred curr _ _ => [pred, curr]
  | .retire _ pred curr _ => [pred, curr]
  | .unlockCurr _ pred curr _ => [pred, curr]
  | .unlockPred _ pred _ => [pred]
  | _ => []

/-- The node was saved, or is a sentinel. -/
def Kept [DecidableEq α] (R : WriteRule α) (m : Attempt α) (x : α) : Prop :=
  x ∈ m.saved ∨ R.sentinel x = true

/-- What the monitor of a thread knows. -/
structure Knows [DecidableEq α] (R : WriteRule α) (p : Pc α K V) (m : Attempt α) : Prop where
  kept : ∀ x ∈ p.touches, Kept R m x
  reading : p.checkpoint ≠ none → m.writing = false

/-- The step does not lead to a node that was not saved: where an insertion finds that `pred` is
not marked, `curr` is a sentinel. -/
def KeepsSaved [LT K] (cfg : Config α K) (s : State α ι K V) (a : ι × NbrEvent α) : Prop :=
  match s.pc a.1 with
  | .validPred (.insert _ _) pred curr => s.marked pred = true ∨ curr = cfg.head ∨ curr = cfg.tail
  | .failPred (.insert _ _) pred curr => s.marked pred = true ∨ curr = cfg.head ∨ curr = cfg.tail
  | _ => True

theorem KeepsSaved.of_tail [LT K] {cfg : Config α K} {s : State α ι K V} {t : ι} {e : NbrEvent α}
    {key : K} {val : V} {pred curr : α} (hpc : s.pc t = .validPred (.insert key val) pred curr)
    (h : curr = cfg.tail) : KeepsSaved cfg s (t, e) := by
  unfold KeepsSaved
  rw [hpc]
  exact .inr (.inr h)

/-- What is asked for: nodes other than the sentinels are only looked at when they were saved. -/
def writeRule [DecidableEq α] [LT K] (cfg : Config α K) : WriteRule α :=
  ⟨true, fun x => x = cfg.head ∨ x = cfg.tail⟩

theorem mem_kept {u : Upd K V} {x y : α} : x ∈ u.kept x y := by
  cases u <;> exact List.mem_cons_self

/-- What an update has saved is `pred` and perhaps `curr`. -/
theorem mem_pair_of_kept {u : Upd K V} {x y z : α} (h : z ∈ u.kept x y) : z ∈ [x, y] := by
  cases u with
  | insert key val => exact List.mem_cons.mpr (.inl (List.mem_singleton.mp h))
  | erase key => exact h

section

variable [DecidableEq α] {R : WriteRule α} {m m' : Attempt α} {p p' : Pc α K V} {x : α}
  {w : Option α}

theorem Kept.allows (h : Kept R m x) : m.allows R (some x) = true :=
  h.elim Attempt.allows_of_saved Attempt.allows_of_sentinel

theorem Knows.outside (ht : p.touches = []) (hc : p.checkpoint = none) : Knows R p m := by
  refine ⟨fun x hx => ?_, fun h => absurd hc h⟩
  rw [ht] at hx
  cases hx

/-- The thread stays in its read phase. -/
theorem Knows.search (h : Knows R p m) (hp : p.checkpoint ≠ none) (ht : p'.touches = []) :
    Knows R p' m := by
  refine ⟨fun x hx => ?_, fun _ => h.reading hp⟩
  rw [ht] at hx
  cases hx

/-- Anything may be read in the read phase. -/
theorem Knows.next_read (h : Knows R p m) (hp : p.checkpoint ≠ none) (ht : p'.touches = []) :
    ∃ m', m.next R (.read w) = some m' ∧ Knows R p' m' :=
  ⟨m, Attempt.next_read fun _ => Attempt.allows_of_not_writing (h.reading hp), h.search hp ht⟩

/-- In the write phase, a place from which no more nodes are looked at. -/
theorem Knows.mono (h : Knows R p m) (hm : m'.saved = m.saved)
    (ht : ∀ x ∈ p'.touches, x ∈ p.touches) (hc : p'.checkpoint = none) : Knows R p' m' := by
  refine ⟨fun x hx => ?_, fun h => absurd hc h⟩
  unfold Kept
  rw [hm]
  exact h.kept x (ht x hx)

/-- A node is read in the write phase. -/
theorem Knows.read (h : Knows R p m) (hx : x ∈ p.touches)
    (ht : ∀ z ∈ p'.touches, z ∈ p.touches) (hc : p'.checkpoint = none) :
    ∃ m', m.next R (.read (some x)) = some m' ∧ Knows R p' m' :=
  ⟨m, Attempt.next_read fun _ => (h.kept x hx).allows, h.mono rfl ht hc⟩

/-- A node is written or locked in the write phase. -/
theorem Knows.write (h : Knows R p m) (hx : x ∈ p.touches)
    (ht : ∀ z ∈ p'.touches, z ∈ p.touches) (hc : p'.checkpoint = none) :
    ∃ m', m.next R (.write (some x)) = some m' ∧ Knows R p' m' :=
  ⟨m, Attempt.next_write (h.kept x hx).allows, h.mono rfl ht hc⟩

/-- `pred` is not marked, so the thread goes on to `curr`. -/
theorem Knows.read_both {u : Upd K V} {y : α} (h : Knows R p m) (hp : p.touches = u.kept x y)
    (hy : u.kept x y = [x, y] ∨ R.sentinel y = true) (ht : p'.touches = [x, y])
    (hc : p'.checkpoint = none) :
    ∃ m', m.next R (.read (some x)) = some m' ∧ Knows R p' m' := by
  have hx : Kept R m x := h.kept x (hp ▸ mem_kept)
  refine ⟨m, Attempt.next_read fun _ => hx.allows, fun z hz => ?_, fun h => absurd hc h⟩
  rw [ht] at hz
  rcases List.mem_pair.mp hz with rfl | rfl
  · exact hx
  · rcases hy with hy | hy
    · apply h.kept
      rw [hp, hy]
      exact List.mem_cons_of_mem _ List.mem_cons_self
    · exact .inr hy

end

variable [LinearOrder K] [DecidableEq α] [DecidableEq ι] {cfg : Config α K}
  {s s' : State α ι K V} {t : ι} {e : NbrEvent α}

/-- The condition, for the two places it is about. -/
theorem kept_or_sentinel {u : Upd K V} {pred x : α} {b : Bool} (hb : b = false)
    (hok : ∀ key val, u = .insert key val → b = true ∨ x = cfg.head ∨ x = cfg.tail) :
    u.kept pred x = [pred, x] ∨ (writeRule cfg).sentinel x = true := by
  cases u with
  | erase key => exact .inl rfl
  | insert key val =>
    refine .inr (decide_eq_true ((hok key val rfl).resolve_left fun h => ?_))
    rw [hb] at h
    cases h

/-- A step does what the monitor does. -/
theorem Step.follows {m : Attempt α} (h : Step cfg s t e s') (hok : KeepsSaved cfg s (t, e))
    (hm : Knows (writeRule cfg) (s.pc t) m) :
    ∃ m', m.next (writeRule cfg) e = some m' ∧ Knows (writeRule cfg) (s'.pc t) m' := by
  unfold KeepsSaved at hok
  cases h with
  | free x hx => exact ⟨m, rfl, hm⟩
  | invoke op hpc hmin hmax =>
    -- outside an operation nothing is kept
    rw [State.goto_pc_self]
    exact ⟨m, rfl, .outside rfl rfl⟩
  | startOp op hpc =>
    rw [State.goto_pc_self]
    refine ⟨_, rfl, fun x hx => ?_, fun _ => rfl⟩
    cases op <;> cases hx
  | restart op hpc =>
    -- a restart gives up what was saved, and the thread is before `startOp` again
    rw [State.goto_pc_self]
    exact ⟨_, rfl, .outside rfl rfl⟩
  | walk key x hpc hk =>
    -- during the walk nothing is kept yet, and reads are free
    rw [State.goto_pc_self]
    exact hm.next_read (by rw [hpc]; exact nofun) rfl
  | walkEnd key x hpc hk =>
    rw [State.goto_pc_self]
    exact hm.next_read (by rw [hpc]; exact nofun) rfl
  | walkNext key x y hpc hy =>
    rw [State.goto_pc_self]
    exact hm.next_read (by rw [hpc]; exact nofun) rfl
  | testKey key x hpc hk =>
    rw [State.goto_pc_self]
    exact hm.next_read (by rw [hpc]; exact nofun) rfl
  | testKeyFail key x hpc hk =>
    rw [State.goto_pc_self]
    exact hm.next_read (by rw [hpc]; exact nofun) rfl
  | testMark key x hpc hk =>
    rw [State.goto_pc_self]
    exact hm.next_read (by rw [hpc]; exact nofun) rfl
  | testMarkFail key x hpc hk =>
    rw [State.goto_pc_self]
    exact hm.next_read (by rw [hpc]; exact nofun) rfl
  | readVal key x hpc =>
    rw [State.goto_pc_self]
    exact hm.next_read (by rw [hpc]; exact nofun) rfl
  | loadNext u x y hpc hy =>
    rw [State.goto_pc_self]
    exact hm.next_read (by rw [hpc]; exact nofun) rfl
  | readKey u pred x hpc hk =>
    rw [State.goto_pc_self]
    exact hm.next_read (by rw [hpc]; exact nofun) rfl
  | readKeyEnd u pred x hpc hk =>
    rw [State.goto_pc_self]
    exact hm.next_read (by rw [hpc]; exact nofun) (by cases u <;> rfl)
  | eraseKey key pred x hpc hk =>
    rw [State.goto_pc_self]
    exact hm.next_read (by rw [hpc]; exact nofun) rfl
  | eraseKeyFail key pred x hpc hk =>
    rw [State.goto_pc_self]
    exact hm.next_read (by rw [hpc]; exact nofun) rfl
  | endRead op r hpc =>
    rw [State.goto_pc_self]
    exact ⟨_, rfl, .outside rfl rfl⟩
  | savePred u pred x hpc =>
    -- `pred` is saved, for the insertions as the only node
    rw [State.goto_pc_self]
    rw [hpc] at hm
    refine ⟨_, rfl, fun z hz => .inl ?_, fun _ => hm.reading nofun⟩
    have hz : z ∈ [pred] := by cases u <;> exact hz
    exact List.mem_cons.mpr (.inl (List.mem_singleton.mp hz))
  | saveCurr key pred x hpc =>
    -- an erase saves both of its nodes
    rw [State.goto_pc_self]
    rw [hpc] at hm
    refine ⟨_, rfl, fun z hz => ?_, fun _ => hm.reading nofun⟩
    rcases List.mem_pair.mp hz with rfl | rfl
    · exact (hm.kept z List.mem_cons_self).imp_left fun h => List.mem_cons_of_mem _ h
    · exact .inl List.mem_cons_self
  | upgrade u pred x hpc =>
    -- from here on only what is kept may be used
    rw [State.goto_pc_self]
    rw [hpc] at hm
    exact ⟨_, rfl, hm.mono rfl (fun _ h => h) rfl⟩
  | spinPred u pred x hpc hl =>
    -- the locks are words of the nodes that were saved
    rw [hpc] at hm ⊢
    exact hm.write mem_kept (fun _ h => h) rfl
  | lockPred u pred x hpc hl =>
    rw [State.goto_pc_self]
    rw [hpc] at hm
    cases u <;> exact hm.write List.mem_cons_self (fun _ h => h) rfl
  | spinCurr key pred x hpc hl =>
    rw [hpc] at hm ⊢
    exact hm.write (List.mem_cons_of_mem _ List.mem_cons_self) (fun _ h => h) rfl
  | lockCurr key pred x hpc hl =>
    rw [State.goto_pc_self]
    rw [hpc] at hm
    exact hm.write (List.mem_cons_of_mem _ List.mem_cons_self) (fun _ h => h) rfl
  | validPred u pred x hpc hmk =>
    -- `pred` was saved, `curr` is read next: for an insertion that is what `KeepsSaved` asks about
    rw [State.goto_pc_self]
    rw [hpc] at hm hok
    refine hm.read_both rfl (kept_or_sentinel hmk ?_) rfl rfl
    rintro key val rfl
    exact hok
  | validPredFail u pred x hpc hmk =>
    rw [State.goto_pc_self]
    rw [hpc] at hm
    exact hm.read mem_kept (fun _ h => h) rfl
  | validCurr u pred x hpc hmk =>
    rw [State.goto_pc_self]
    rw [hpc] at hm
    exact hm.read (List.mem_cons_of_mem _ List.mem_cons_self) (fun _ h => h) rfl
  | validCurrFail u pred x hpc hmk =>
    rw [State.goto_pc_self]
    rw [hpc] at hm
    exact hm.read (List.mem_cons_of_mem _ List.mem_cons_self) (fun _ h => mem_pair_of_kept h) rfl
  | validNext u pred x hpc hn =>
    -- the link is a field of `pred`
    rw [State.goto_pc_self]
    rw [hpc] at hm
    cases u <;> exact hm.read List.mem_cons_self (fun _ h => h) rfl
  | validNextFail u pred x hpc hn =>
    rw [State.goto_pc_self]
    rw [hpc] at hm
    exact hm.read List.mem_cons_self (fun _ h => mem_pair_of_kept h) rfl
  | failPred u pred x hpc hmk =>
    rw [State.goto_pc_self]
    rw [hpc] at hm
    cases u <;> exact hm.read List.mem_cons_self (fun _ h => h) rfl
  | failPredNot u pred x hpc hmk =>
    -- the failure path reads the mark of `curr` as well
    rw [State.goto_pc_self]
    rw [hpc] at hm hok
    refine hm.read_both rfl (kept_or_sentinel hmk ?_) rfl rfl
    rintro key val rfl
    exact hok
  | failCurr u pred x hpc hmk =>
    rw [State.goto_pc_self]
    rw [hpc] at hm
    have hx : x ∈ [pred, x] := List.mem_cons_of_mem _ List.mem_cons_self
    cases u with
    | insert key val => exact hm.read hx (fun _ h => mem_pair_of_kept (u := .insert key val) h) rfl
    | erase key => exact hm.read hx (fun _ h => h) rfl
  | failCurrNot u pred x hpc hmk =>
    rw [State.goto_pc_self]
    rw [hpc] at hm
    exact hm.read (List.mem_cons_of_mem _ List.mem_cons_self) (fun _ h => h) rfl
  | failNext u pred x hpc =>
    rw [State.goto_pc_self]
    rw [hpc] at hm
    cases u with
    | insert key val =>
      exact hm.read List.mem_cons_self (fun _ h => mem_pair_of_kept (u := .insert key val) h) rfl
    | erase key => exact hm.read List.mem_cons_self (fun _ h => h) rfl
  | insertKey key val pred x hpc hk =>
    -- the key and the value of `curr` are read once it is known to be kept
    rw [State.goto_pc_self]
    rw [hpc] at hm
    exact hm.read (List.mem_cons_of_mem _ List.mem_cons_self) (fun _ h => h) rfl
  | insertKeyFail key val pred x hpc hk =>
    rw [State.goto_pc_self]
    rw [hpc] at hm
    exact hm.read (List.mem_cons_of_mem _ List.mem_cons_self)
      (fun _ h => mem_pair_of_kept (u := .insert key val) h) rfl
  | insertVal key val pred x hpc =>
    rw [State.goto_pc_self]
    rw [hpc] at hm
    exact hm.read (List.mem_cons_of_mem _ List.mem_cons_self)
      (fun _ h => mem_pair_of_kept (u := .insert key val) h) rfl
  | newNode key val pred x a hpc ha =>
    -- the new node is the thread's own
    rw [State.goto_pc_self]
    rw [hpc] at hm
    exact ⟨_, rfl, hm.mono rfl (fun _ h => h) rfl⟩
  | link key val pred a hpc =>
    -- the link is written to `pred`, which was saved
    rw [State.goto_pc_self]
    rw [hpc] at hm
    exact ⟨_, Attempt.next_link (hm.kept pred List.mem_cons_self).allows,
      hm.mono rfl (fun _ h => h) rfl⟩
  | eraseVal key pred x hpc =>
    rw [State.goto_pc_self]
    rw [hpc] at hm
    exact hm.read (List.mem_cons_of_mem _ List.mem_cons_self) (fun _ h => h) rfl
  | eraseNext key pred x result hpc =>
    rw [State.goto_pc_self]
    rw [hpc] at hm
    exact hm.read (List.mem_cons_of_mem _ List.mem_cons_self) (fun _ h => h) rfl
  | mark key pred x result nxt hpc =>
    -- `erase` writes to both nodes, and has saved both
    rw [State.goto_pc_self]
    rw [hpc] at hm
    exact hm.write (List.mem_cons_of_mem _ List.mem_cons_self) (fun _ h => h) rfl
  | unlink key pred x result nxt hpc =>
    rw [State.goto_pc_self]
    rw [hpc] at hm
    exact ⟨_, Attempt.next_unlink (hm.kept pred List.mem_cons_self).allows,
      hm.mono rfl (fun _ h => h) rfl⟩
  | retire key pred x result hpc =>
    rw [State.goto_pc_self]
    rw [hpc] at hm
    exact ⟨m, rfl, hm.mono rfl (fun _ h => h) rfl⟩
  | unlockCurr key pred x r hpc =>
    -- the locks are released where they were taken
    rw [State.goto_pc_self]
    rw [hpc] at hm
    exact hm.write (List.mem_cons_of_mem _ List.mem_cons_self)
      (fun _ h => List.mem_cons.mpr (.inl (List.mem_singleton.mp h))) rfl
  | unlockPred u pred r hpc =>
    rw [State.goto_pc_self]
    rw [hpc] at hm
    exact hm.write List.mem_cons_self nofun rfl
  | endWrite u r hpc =>
    rw [State.goto_pc_self]
    cases r <;> exact ⟨_, rfl, .outside rfl rfl⟩
  | ret op r hpc =>
    rw [State.goto_pc_self]
    exact ⟨m, rfl, .outside rfl rfl⟩

/-- The other threads stay where they are. -/
theorem Step.pc_of_ne (h : Step cfg s t e s') {q : ι} (hq : q ≠ t) : s'.pc q = s.pc q := by
  cases h with
  | free x hx => rfl
  | spinPred u pred x hpc hl => rfl
  | spinCurr key pred x hpc hl => rfl
  | _ => exact State.goto_pc_of_ne hq

/-- The monitor of a thread that keeps the rule. -/
theorem exists_knows {x : State α ι K V × (ι → Option (Attempt α))}
    (h : (writePhases (writeRule cfg) (lts cfg)).ReachableBy
      (fun x a => a.1 = t → KeepsSaved cfg x.1 a) x) :
    ∃ m, x.2 t = some m ∧ Knows (writeRule cfg) (x.1.pc t) m := by
  refine Lts.ReachableBy.monitored_rel (R := fun s m => Knows (writeRule cfg) (s.pc t) m)
    (p := fun s a => a.1 = t → KeepsSaved cfg s a) ?_ ?_ ?_ h
  · intro s hs
    rw [hs.pc t]
    exact .outside rfl rfl
  · intro s e s' m hr hs hok hm
    exact Step.follows hs (hok rfl) hm
  · intro s q e s' m hs hq hm
    have hs : Step cfg s q e s' := hs
    rw [hs.pc_of_ne hq]
    exact hm

/-- **What a thread looks at in its write phases was saved**, or is a sentinel or a node of the
operation itself, in every run in which its insertions find `pred` marked or have a sentinel as
`curr`. The other threads do what they like. -/
theorem lazyNzb_saved (cfg : Config α K) (t : ι)
    (x : State α ι K V × (ι → Option (Attempt α)))
    (h : (writePhases (writeRule cfg) (lts cfg)).ReachableBy
      (fun x a => a.1 = t → KeepsSaved cfg x.1 a) x) :
    x.2 t ≠ none := by
  obtain ⟨m, hm, -⟩ := exists_knows h
  rw [hm]
  exact nofun

/-! ### Runs -/

section

/-- Keys between 0 and 100, the sentinels 0 and 1. -/
def smallConfig : Config ℕ ℕ where
  keyMin := 0
  keyMax := 100
  head := 0
  tail := 1
  keyMin_lt := zero_lt_hundred
  head_ne_tail := Nat.zero_ne_one

/-- The list after the constructor, run by two threads. -/
def emptyList : State ℕ Bool ℕ ℕ where
  next x := bif x = 0 then some 1 else none
  marked _ := false
  lock _ := false
  key x := bif x = 0 then 0 else 100
  val _ := 0
  allocated x := decide (x < 2)
  retired := []
  pc _ := .idle

theorem emptyList_init : Init smallConfig emptyList := by
  refine ⟨rfl, rfl, rfl, rfl, fun _ _ => rfl, fun _ _ => rfl, fun x => ?_, rfl, fun _ => rfl⟩
  show decide (x < 2) = true ↔ x = 0 ∨ x = 1
  rw [decide_eq_true_iff]
  omega

/-- The list after the insertion of one key. -/
def oneKey : State ℕ Bool ℕ ℕ where
  next
    | 0 => some 2
    | 2 => some 1
    | _ => none
  marked _ := false
  lock _ := false
  key
    | 0 => 0
    | 2 => 5
    | _ => 100
  val x := bif x = 2 then 7 else 0
  allocated x := decide (x < 3)
  retired := []
  pc _ := .idle

/-- The other thread inserts the key. -/
theorem oneKey_reached {p : State ℕ Bool ℕ ℕ × (Bool → Option (Attempt ℕ)) →
    Bool × NbrEvent ℕ → Prop} (hp : ∀ x e, p x (false, e)) :
    ∃ m, (writePhases (writeRule smallConfig) (lts smallConfig)).ReachableBy p (oneKey, m) ∧
      m true = some .start := by
  have h : (writePhases (writeRule smallConfig) (lts smallConfig)).ReachableBy p
      (emptyList, fun _ => some .start) := .init ⟨emptyList_init, fun _ => rfl⟩
  -- the place of the key is found
  have h := h.step_monitored (a := (false, _))
    (.invoke (.insert 5 7) rfl (by decide) (by decide)) (hp _ _)
  have h := h.step_monitored (a := (false, _)) (.startOp (.insert 5 7) rfl) (hp _ _)
  have h := h.step_monitored (a := (false, _)) (.loadNext (.insert 5 7) 0 1 rfl rfl) (hp _ _)
  have h := h.step_monitored (a := (false, _))
    (.readKeyEnd (.insert 5 7) 0 1 rfl (by decide)) (hp _ _)
  -- its predecessor is saved, and the write phase begins
  have h := h.step_monitored (a := (false, _)) (.savePred (.insert 5 7) 0 1 rfl) (hp _ _)
  have h := h.step_monitored (a := (false, _)) (.upgrade (.insert 5 7) 0 1 rfl) (hp _ _)
  have h := h.step_monitored (a := (false, _)) (.lockPred (.insert 5 7) 0 1 rfl rfl) (hp _ _)
  have h := h.step_monitored (a := (false, _)) (.validPred (.insert 5 7) 0 1 rfl rfl) (hp _ _)
  have h := h.step_monitored (a := (false, _)) (.validCurr (.insert 5 7) 0 1 rfl rfl) (hp _ _)
  have h := h.step_monitored (a := (false, _)) (.validNext (.insert 5 7) 0 1 rfl rfl) (hp _ _)
  have h := h.step_monitored (a := (false, _)) (.insertKeyFail 5 7 0 1 rfl (by decide)) (hp _ _)
  have h := h.step_monitored (a := (false, _)) (.newNode 5 7 0 1 2 rfl rfl) (hp _ _)
  -- the node is linked
  have h := h.step_monitored (a := (false, _)) (.link 5 7 0 2 rfl) (hp _ _)
  have h := h.step_monitored (a := (false, _))
    (.unlockPred (.insert 5 7) 0 (some (.value none)) rfl) (hp _ _)
  have h := h.step_monitored (a := (false, _))
    (.endWrite (.insert 5 7) (some (.value none)) rfl) (hp _ _)
  have h := h.step_monitored (a := (false, _)) (.ret (.insert 5 7) (.value none) rfl) (hp _ _)
  -- the state reached is the one written out above
  obtain ⟨s, m, h, hs, hm⟩ : ∃ s m,
      (writePhases (writeRule smallConfig) (lts smallConfig)).ReachableBy p (s, m) ∧
        s = oneKey ∧ m true = some .start := by
    refine ⟨_, _, h, ?_, rfl⟩
    refine State.ext (funext fun x => ?_) (funext fun x => ?_) (funext fun x => ?_)
      (funext fun x => ?_) (funext fun x => ?_) (funext fun x => ?_) rfl (funext fun q => ?_)
    rotate_right
    · cases q <;> rfl
    all_goals
      match x with
      | 0 => rfl
      | 1 => rfl
      | 2 => rfl
      | _ + 3 => rfl
  exact ⟨m, hs ▸ h, hm⟩

/-- The second thread inserts a key before the tail, where `curr` is a sentinel, and then erases
the key of the first thread, for which it has saved both nodes. -/
theorem lazyNzb_saved_erase : ∃ x : State ℕ Bool ℕ ℕ × (Bool → Option (Attempt ℕ)),
    (writePhases (writeRule smallConfig) (lts smallConfig)).ReachableBy
      (fun x a => a.1 = true → KeepsSaved smallConfig x.1 a) x ∧
      x.1.pc true = .ret (.erase 5) (.value (some 7)) ∧ x.1.next 0 = some 3 ∧ x.2 true ≠ none := by
  obtain ⟨m, h, -⟩ := oneKey_reached
    (p := fun x a => a.1 = true → KeepsSaved smallConfig x.1 a) fun x e h => Bool.noConfusion h
  -- the insertion, whose `curr` is the tail
  have h := h.step_monitored (a := (true, _))
    (.invoke (.insert 6 8) rfl (by decide) (by decide)) fun _ => by trivial
  have h := h.step_monitored (a := (true, _)) (.startOp (.insert 6 8) rfl) fun _ => by trivial
  have h := h.step_monitored (a := (true, _))
    (.loadNext (.insert 6 8) 0 2 rfl rfl) fun _ => by trivial
  have h := h.step_monitored (a := (true, _))
    (.readKey (.insert 6 8) 0 2 rfl (by decide)) fun _ => by trivial
  have h := h.step_monitored (a := (true, _))
    (.loadNext (.insert 6 8) 2 1 rfl rfl) fun _ => by trivial
  have h := h.step_monitored (a := (true, _))
    (.readKeyEnd (.insert 6 8) 2 1 rfl (by decide)) fun _ => by trivial
  have h := h.step_monitored (a := (true, _)) (.savePred (.insert 6 8) 2 1 rfl) fun _ => by trivial
  have h := h.step_monitored (a := (true, _)) (.upgrade (.insert 6 8) 2 1 rfl) fun _ => by trivial
  have h := h.step_monitored (a := (true, _))
    (.lockPred (.insert 6 8) 2 1 rfl rfl) fun _ => by trivial
  have h := h.step_monitored (a := (true, _))
    (.validPred (.insert 6 8) 2 1 rfl rfl) fun _ => .of_tail rfl rfl
  have h := h.step_monitored (a := (true, _))
    (.validCurr (.insert 6 8) 2 1 rfl rfl) fun _ => by trivial
  have h := h.step_monitored (a := (true, _))
    (.validNext (.insert 6 8) 2 1 rfl rfl) fun _ => by trivial
  have h := h.step_monitored (a := (true, _))
    (.insertKeyFail 6 8 2 1 rfl (by decide)) fun _ => by trivial
  have h := h.step_monitored (a := (true, _)) (.newNode 6 8 2 1 3 rfl rfl) fun _ => by trivial
  have h := h.step_monitored (a := (true, _)) (.link 6 8 2 3 rfl) fun _ => by trivial
  have h := h.step_monitored (a := (true, _))
    (.unlockPred (.insert 6 8) 2 (some (.value none)) rfl) fun _ => by trivial
  have h := h.step_monitored (a := (true, _))
    (.endWrite (.insert 6 8) (some (.value none)) rfl) fun _ => by trivial
  have h := h.step_monitored (a := (true, _))
    (.ret (.insert 6 8) (.value none) rfl) fun _ => by trivial
  -- the erasure
  have h := h.step_monitored (a := (true, _))
    (.invoke (.erase 5) rfl (by decide) (by decide)) fun _ => by trivial
  have h := h.step_monitored (a := (true, _)) (.startOp (.erase 5) rfl) fun _ => by trivial
  have h := h.step_monitored (a := (true, _)) (.loadNext (.erase 5) 0 2 rfl rfl) fun _ => by trivial
  have h := h.step_monitored (a := (true, _))
    (.readKeyEnd (.erase 5) 0 2 rfl (by decide)) fun _ => by trivial
  have h := h.step_monitored (a := (true, _)) (.eraseKey 5 0 2 rfl rfl) fun _ => by trivial
  have h := h.step_monitored (a := (true, _)) (.savePred (.erase 5) 0 2 rfl) fun _ => by trivial
  have h := h.step_monitored (a := (true, _)) (.saveCurr 5 0 2 rfl) fun _ => by trivial
  have h := h.step_monitored (a := (true, _)) (.upgrade (.erase 5) 0 2 rfl) fun _ => by trivial
  have h := h.step_monitored (a := (true, _)) (.lockPred (.erase 5) 0 2 rfl rfl) fun _ => by trivial
  have h := h.step_monitored (a := (true, _)) (.lockCurr 5 0 2 rfl rfl) fun _ => by trivial
  have h := h.step_monitored (a := (true, _))
    (.validPred (.erase 5) 0 2 rfl rfl) fun _ => by trivial
  have h := h.step_monitored (a := (true, _))
    (.validCurr (.erase 5) 0 2 rfl rfl) fun _ => by trivial
  have h := h.step_monitored (a := (true, _))
    (.validNext (.erase 5) 0 2 rfl rfl) fun _ => by trivial
  have h := h.step_monitored (a := (true, _)) (.eraseVal 5 0 2 rfl) fun _ => by trivial
  have h := h.step_monitored (a := (true, _)) (.eraseNext 5 0 2 7 rfl) fun _ => by trivial
  have h := h.step_monitored (a := (true, _)) (.mark 5 0 2 7 (some 3) rfl) fun _ => by trivial
  have h := h.step_monitored (a := (true, _)) (.unlink 5 0 2 7 (some 3) rfl) fun _ => by trivial
  have h := h.step_monitored (a := (true, _)) (.retire 5 0 2 7 rfl) fun _ => by trivial
  have h := h.step_monitored (a := (true, _))
    (.unlockCurr 5 0 2 (some (.value (some 7))) rfl) fun _ => by trivial
  have h := h.step_monitored (a := (true, _))
    (.unlockPred (.erase 5) 0 (some (.value (some 7))) rfl) fun _ => by trivial
  have h := h.step_monitored (a := (true, _))
    (.endWrite (.erase 5) (some (.value (some 7))) rfl) fun _ => by trivial
  exact ⟨_, h, rfl, rfl, lazyNzb_saved smallConfig true _ h⟩

/-- **`curr` was not saved**: the second thread finds the key it was to insert, and tests the mark
of a node it has not saved. -/
theorem lazyNzb_unsaved : ∃ x : State ℕ Bool ℕ ℕ × (Bool → Option (Attempt ℕ)),
    (writePhases (writeRule smallConfig) (lts smallConfig)).Reachable x ∧
      x.1.pc true = .validNext (.insert 5 8) 0 2 ∧ x.2 true = none := by
  obtain ⟨m, h, hm⟩ := oneKey_reached (p := fun _ _ => True) fun _ _ => trivial
  have h := h.step_monitored (a := (true, _))
    (.invoke (.insert 5 8) rfl (by decide) (by decide)) trivial
  have h := h.step_monitored (a := (true, _)) (.startOp (.insert 5 8) rfl) trivial
  have h := h.step_monitored (a := (true, _)) (.loadNext (.insert 5 8) 0 2 rfl rfl) trivial
  have h := h.step_monitored (a := (true, _))
    (.readKeyEnd (.insert 5 8) 0 2 rfl (by decide)) trivial
  have h := h.step_monitored (a := (true, _)) (.savePred (.insert 5 8) 0 2 rfl) trivial
  have h := h.step_monitored (a := (true, _)) (.upgrade (.insert 5 8) 0 2 rfl) trivial
  have h := h.step_monitored (a := (true, _)) (.lockPred (.insert 5 8) 0 2 rfl rfl) trivial
  have h := h.step_monitored (a := (true, _)) (.validPred (.insert 5 8) 0 2 rfl rfl) trivial
  have h := h.step_monitored (a := (true, _)) (.validCurr (.insert 5 8) 0 2 rfl rfl) trivial
  refine ⟨_, h, rfl, ?_⟩
  simp only [update_self, hm]
  rfl

end

end LazyListNzb
end PopSetbench

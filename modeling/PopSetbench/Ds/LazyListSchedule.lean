import PopSetbench.Ds.LazyList
import PopSetbench.Library.Replay

/-!
# The lazy list: runs that are computed

`State.goOn` is the next step of a thread, if it need not wait for anything to change.
-/

namespace PopSetbench
namespace LazyList

open Function
open LazyListNzb (Config Upd)

variable {α ι K V : Type} [DecidableEq α] [DecidableEq ι] [LinearOrder K]

namespace State

/-- The next step of thread `t`. -/
def goOn (cfg : Config α K) (s : State α ι K V) (t : ι) (x : Choice α K V) :
    Option (Event α K V × State α ι K V) :=
  match s.pc t, x with
  | .idle, .invoke op =>
    if cfg.keyMin < op.key ∧ op.key < cfg.keyMax then some (.invoke op, s.goto t (.start op))
    else none
  | .newNode key val pred y, .alloc a =>
    if s.allocated a = false then
      some (.tau, (s.allocating a key val y).goto t (.link key val pred a))
    else none
  | .start op, .go => some (.startOp, s.goto t (begin cfg.head op))
  | .walk key y, .go =>
    if s.key y < key then some (.access y, s.goto t (.walkNext key y))
    else some (.access y, s.goto t (.testKey key y))
  | .walkNext key y, .go => (s.next y).map fun z => (.access y, s.goto t (.walk key z))
  | .testKey key y, .go =>
    if s.key y = key then some (.access y, s.goto t (.testMark key y))
    else some (.access y, s.goto t (.endOp (.contains key) (some (.bool false))))
  | .testMark key y, .go =>
    if s.marked y = true then
      some (.access y, s.goto t (.endOp (.contains key) (some (.bool false))))
    else some (.access y, s.goto t (.readVal key y))
  | .readVal key y, .go =>
    some (.access y, s.goto t (.endOp (.contains key) (some (.bool true))))
  | .loadNext u y, .go => (s.next y).map fun z => (.access y, s.goto t (.readKey u y z))
  | .readKey u pred y, .go =>
    if s.key y < u.key then some (.access y, s.goto t (.loadNext u y))
    else some (.access y, s.goto t (arrive pred y u))
  | .eraseKey key pred y, .go =>
    if s.key y = key then some (.access y, s.goto t (.lockPred (.erase key) pred y))
    else some (.access y, s.goto t (.endOp (.erase key) (some (.value none))))
  | .lockPred u pred y, .go =>
    if s.lock pred = true then some (.access pred, s.goto t (.lockPred u pred y))
    else some (.access pred, (s.setLock pred true).goto t (predLocked pred y u))
  | .lockCurr key pred y, .go =>
    if s.lock y = true then some (.access y, s.goto t (.lockCurr key pred y))
    else some (.access y, (s.setLock y true).goto t (.validPred (.erase key) pred y))
  | .validPred u pred y, .go =>
    if s.marked pred = true then some (.access pred, s.goto t (.failPred u pred y))
    else some (.access pred, s.goto t (.validCurr u pred y))
  | .validCurr u pred y, .go =>
    if s.marked y = true then some (.access y, s.goto t (.failPred u pred y))
    else some (.access y, s.goto t (.validNext u pred y))
  | .validNext u pred y, .go =>
    if s.next pred = some y then some (.access pred, s.goto t (validated pred y u))
    else some (.access pred, s.goto t (.failPred u pred y))
  | .failPred u pred y, .go =>
    if s.marked pred = true then some (.access pred, s.goto t (failed pred y u))
    else some (.access pred, s.goto t (.failCurr u pred y))
  | .failCurr u pred y, .go =>
    if s.marked y = true then some (.access y, s.goto t (failed pred y u))
    else some (.access y, s.goto t (.failNext u pred y))
  | .failNext u pred y, .go => some (.access pred, s.goto t (failed pred y u))
  | .insertKey key val pred y, .go =>
    if s.key y = key then some (.access y, s.goto t (.insertVal key val pred y))
    else some (.access y, s.goto t (.newNode key val pred y))
  | .insertVal key val pred y, .go =>
    some (.access y,
      s.goto t (.unlockPred (.insert key val) pred (some (.value (some (s.val y))))))
  | .link key val pred a, .go =>
    some (.access pred, (s.setNext pred (some a)).goto t
      (.unlockPred (.insert key val) pred (some (.value none))))
  | .eraseVal key pred y, .go => some (.access y, s.goto t (.eraseNext key pred y (s.val y)))
  | .eraseNext key pred y result, .go =>
    some (.access y, s.goto t (.mark key pred y result (s.next y)))
  | .mark key pred y result nxt, .go =>
    some (.access y, (s.setMarked y).goto t (.unlink key pred y result nxt))
  | .unlink key pred y result nxt, .go =>
    some (.access pred, (s.setNext pred nxt).goto t (.retire key pred y result))
  | .retire key pred y result, .go =>
    some (.retire y,
      (s.retiring y).goto t (.unlockCurr key pred y (some (.value (some result)))))
  | .unlockCurr key pred y r, .go =>
    some (.access y, (s.setLock y false).goto t (.unlockPred (.erase key) pred r))
  | .unlockPred u pred r, .go =>
    some (.access pred, (s.setLock pred false).goto t (.endOp u.op r))
  | .endOp op r, .go => some (.endOp, s.goto t (ended op r))
  | .ret op r, .go => some (.ret op r, s.goto t .idle)
  | _, _ => none

/-- The next step of one of the threads. -/
def choose (cfg : Config α K) (s : State α ι K V) (x : ι × Choice α K V) :
    Option ((ι × Event α K V) × State α ι K V) :=
  (s.goOn cfg x.1 x.2).map fun r => ((x.1, r.1), r.2)

variable {cfg : Config α K} {s s' : State α ι K V} {t : ι} {e : Event α K V} {x : Choice α K V}

theorem goOn_sound (h : s.goOn cfg t x = some (e, s')) : Step cfg s t e s' := by
  unfold goOn at h
  split at h <;> rename_i hpc
  -- a call, an allocation, and the beginning of an operation
  · obtain ⟨⟨hmin, hmax⟩, heq⟩ := Option.ite_none_right_eq_some.mp h
    obtain ⟨rfl, rfl⟩ := Prod.mk.inj (Option.some.inj heq)
    exact .invoke _ hpc hmin hmax
  · obtain ⟨hx, heq⟩ := Option.ite_none_right_eq_some.mp h
    obtain ⟨rfl, rfl⟩ := Prod.mk.inj (Option.some.inj heq)
    exact .newNode _ _ _ _ _ hpc hx
  · obtain ⟨rfl, rfl⟩ := Prod.mk.inj (Option.some.inj h)
    exact .startOp _ hpc
  -- `contains`
  · split_ifs at h with hk
    · obtain ⟨rfl, rfl⟩ := Prod.mk.inj (Option.some.inj h)
      exact .walk _ _ hpc hk
    · obtain ⟨rfl, rfl⟩ := Prod.mk.inj (Option.some.inj h)
      exact .walkEnd _ _ hpc hk
  · obtain ⟨z, hz, heq⟩ := Option.map_eq_some_iff.mp h
    obtain ⟨rfl, rfl⟩ := Prod.mk.inj heq
    exact .walkNext _ _ _ hpc hz
  · split_ifs at h with hk
    · obtain ⟨rfl, rfl⟩ := Prod.mk.inj (Option.some.inj h)
      exact .testKey _ _ hpc hk
    · obtain ⟨rfl, rfl⟩ := Prod.mk.inj (Option.some.inj h)
      exact .testKeyFail _ _ hpc hk
  · split_ifs at h with hm
    · obtain ⟨rfl, rfl⟩ := Prod.mk.inj (Option.some.inj h)
      exact .testMarkFail _ _ hpc hm
    · obtain ⟨rfl, rfl⟩ := Prod.mk.inj (Option.some.inj h)
      exact .testMark _ _ hpc (Bool.eq_false_of_not_eq_true hm)
  · obtain ⟨rfl, rfl⟩ := Prod.mk.inj (Option.some.inj h)
    exact .readVal _ _ hpc
  -- the search of an update
  · obtain ⟨z, hz, heq⟩ := Option.map_eq_some_iff.mp h
    obtain ⟨rfl, rfl⟩ := Prod.mk.inj heq
    exact .loadNext _ _ _ hpc hz
  · split_ifs at h with hk
    · obtain ⟨rfl, rfl⟩ := Prod.mk.inj (Option.some.inj h)
      exact .readKey _ _ _ hpc hk
    · obtain ⟨rfl, rfl⟩ := Prod.mk.inj (Option.some.inj h)
      exact .readKeyEnd _ _ _ hpc hk
  · split_ifs at h with hk
    · obtain ⟨rfl, rfl⟩ := Prod.mk.inj (Option.some.inj h)
      exact .eraseKey _ _ _ hpc hk
    · obtain ⟨rfl, rfl⟩ := Prod.mk.inj (Option.some.inj h)
      exact .eraseKeyFail _ _ _ hpc hk
  -- the locks
  · split_ifs at h with hl
    · obtain ⟨rfl, rfl⟩ := Prod.mk.inj (Option.some.inj h)
      exact .spinPred _ _ _ hpc hl
    · obtain ⟨rfl, rfl⟩ := Prod.mk.inj (Option.some.inj h)
      exact .lockPred _ _ _ hpc (Bool.eq_false_of_not_eq_true hl)
  · split_ifs at h with hl
    · obtain ⟨rfl, rfl⟩ := Prod.mk.inj (Option.some.inj h)
      exact .spinCurr _ _ _ hpc hl
    · obtain ⟨rfl, rfl⟩ := Prod.mk.inj (Option.some.inj h)
      exact .lockCurr _ _ _ hpc (Bool.eq_false_of_not_eq_true hl)
  -- `validateLinks`
  · split_ifs at h with hm
    · obtain ⟨rfl, rfl⟩ := Prod.mk.inj (Option.some.inj h)
      exact .validPredFail _ _ _ hpc hm
    · obtain ⟨rfl, rfl⟩ := Prod.mk.inj (Option.some.inj h)
      exact .validPred _ _ _ hpc (Bool.eq_false_of_not_eq_true hm)
  · split_ifs at h with hm
    · obtain ⟨rfl, rfl⟩ := Prod.mk.inj (Option.some.inj h)
      exact .validCurrFail _ _ _ hpc hm
    · obtain ⟨rfl, rfl⟩ := Prod.mk.inj (Option.some.inj h)
      exact .validCurr _ _ _ hpc (Bool.eq_false_of_not_eq_true hm)
  · split_ifs at h with hn
    · obtain ⟨rfl, rfl⟩ := Prod.mk.inj (Option.some.inj h)
      exact .validNext _ _ _ hpc hn
    · obtain ⟨rfl, rfl⟩ := Prod.mk.inj (Option.some.inj h)
      exact .validNextFail _ _ _ hpc hn
  · split_ifs at h with hm
    · obtain ⟨rfl, rfl⟩ := Prod.mk.inj (Option.some.inj h)
      exact .failPred _ _ _ hpc hm
    · obtain ⟨rfl, rfl⟩ := Prod.mk.inj (Option.some.inj h)
      exact .failPredNot _ _ _ hpc (Bool.eq_false_of_not_eq_true hm)
  · split_ifs at h with hm
    · obtain ⟨rfl, rfl⟩ := Prod.mk.inj (Option.some.inj h)
      exact .failCurr _ _ _ hpc hm
    · obtain ⟨rfl, rfl⟩ := Prod.mk.inj (Option.some.inj h)
      exact .failCurrNot _ _ _ hpc (Bool.eq_false_of_not_eq_true hm)
  · obtain ⟨rfl, rfl⟩ := Prod.mk.inj (Option.some.inj h)
    exact .failNext _ _ _ hpc
  -- `doInsert`
  · split_ifs at h with hk
    · obtain ⟨rfl, rfl⟩ := Prod.mk.inj (Option.some.inj h)
      exact .insertKey _ _ _ _ hpc hk
    · obtain ⟨rfl, rfl⟩ := Prod.mk.inj (Option.some.inj h)
      exact .insertKeyFail _ _ _ _ hpc hk
  · obtain ⟨rfl, rfl⟩ := Prod.mk.inj (Option.some.inj h)
    exact .insertVal _ _ _ _ hpc
  · obtain ⟨rfl, rfl⟩ := Prod.mk.inj (Option.some.inj h)
    exact .link _ _ _ _ hpc
  -- `erase`
  · obtain ⟨rfl, rfl⟩ := Prod.mk.inj (Option.some.inj h)
    exact .eraseVal _ _ _ hpc
  · obtain ⟨rfl, rfl⟩ := Prod.mk.inj (Option.some.inj h)
    exact .eraseNext _ _ _ _ hpc
  · obtain ⟨rfl, rfl⟩ := Prod.mk.inj (Option.some.inj h)
    exact .mark _ _ _ _ _ hpc
  · obtain ⟨rfl, rfl⟩ := Prod.mk.inj (Option.some.inj h)
    exact .unlink _ _ _ _ _ hpc
  · obtain ⟨rfl, rfl⟩ := Prod.mk.inj (Option.some.inj h)
    exact .retire _ _ _ _ hpc
  -- the end of an operation
  · obtain ⟨rfl, rfl⟩ := Prod.mk.inj (Option.some.inj h)
    exact .unlockCurr _ _ _ _ hpc
  · obtain ⟨rfl, rfl⟩ := Prod.mk.inj (Option.some.inj h)
    exact .unlockPred _ _ _ hpc
  · obtain ⟨rfl, rfl⟩ := Prod.mk.inj (Option.some.inj h)
    exact .endOp _ _ hpc
  · obtain ⟨rfl, rfl⟩ := Prod.mk.inj (Option.some.inj h)
    exact .ret _ _ hpc
  · cases h

/-- If that is the next step, it can be made. -/
theorem step_of_goOn [DecidableEq V]
    (h : (s.goOn cfg t x).any (fun a => a.1 = e) = true) : ∃ s', Step cfg s t e s' := by
  obtain ⟨⟨e', s'⟩, hgo, he⟩ := (Option.any_eq_true _ _).mp h
  obtain rfl : e' = e := of_decide_eq_true he
  exact ⟨s', goOn_sound hgo⟩

theorem computes (cfg : Config α K) : (lts (ι := ι) (V := V) cfg).Computes (choose cfg) := by
  rintro s ⟨t, x⟩ a s' h
  obtain ⟨⟨e, s''⟩, hgo, heq⟩ := Option.map_eq_some_iff.mp h
  obtain ⟨rfl, rfl⟩ := Prod.mk.inj heq
  exact goOn_sound hgo

end State

end LazyList
end PopSetbench

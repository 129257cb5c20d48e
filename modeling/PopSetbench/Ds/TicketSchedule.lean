import PopSetbench.Ds.Ticket
import PopSetbench.Library.Replay

/-!
# The ticket tree: runs that are computed

`State.goOn` is the next step of a thread.
-/

namespace PopSetbench
namespace Ticket

open Function

variable {α ι K V : Type} [DecidableEq α] [DecidableEq ι] [LinearOrder K]

namespace State

/-- The next step of thread `t`. -/
def goOn (cfg : Config α K) (s : State α ι K V) (t : ι) (x : Choice α K V) :
    Option (Event α K V × State α ι K V) :=
  match s.pc t, x with
  | .idle, .invoke op =>
    if cfg.keyMin < op.key ∧ op.key < cfg.keyMax then
      some (.invoke op, s.goto t (.start op .none .none))
    else none
  | .newLeaf key val pred y, .alloc a =>
    if s.allocated a = false then
      some (.tau, (s.allocLeaf a key val).goto t (.newNode key val pred y a))
    else none
  | .newNode key val pred y a, .alloc b =>
    if s.allocated b = false then
      some (.tau, (s.allocNode b).goto t (.lockPred key val pred y a b))
    else none
  | .start op ppred pred, .go => some (.startOp, s.goto t (begin cfg.root ppred pred op))
  | .findLeft key y, .go =>
    if s.child y false = none then some (.access y, s.goto t (.findTest key y))
    else some (.access y, s.goto t (.findKey key y))
  | .findKey key y, .go => some (.access y, s.goto t (.findChild key y (toward key (s.key y))))
  | .findChild key y right, .go =>
    (s.child y right).map fun z => (.access y, s.goto t (.findLeft key z))
  | .findTest key y, .go =>
    if s.key y = key then some (.access y, s.goto t (.endVal (.contains key) y))
    else some (.access y, s.goto t (.endOp (.contains key) (.value none)))
  | .loadVer u _ pred y, .go =>
    some (.access y, s.goto t (.readKey u pred ⟨some y, s.lock y, pred.right⟩))
  | .readKey u ppred pred, .go =>
    pred.node.map fun y =>
      (.access y, s.goto t (.loadChild u ppred ⟨some y, pred.ver, toward u.key (s.key y)⟩))
  | .loadChild u ppred pred, .go =>
    pred.node.bind fun y => (s.child y pred.right).map fun z =>
      (.access y, s.goto t (.loadLeft u ppred pred z))
  | .loadLeft u ppred pred y, .go =>
    if s.child y false = none then some (.access y, s.goto t (.testKey u ppred pred y))
    else some (.access y, s.goto t (.loadVer u ppred pred y))
  | .testKey u ppred pred y, .go =>
    if s.key y = u.key then some (.access y, s.goto t (u.hit ppred pred y))
    else some (.access y, s.goto t (u.miss pred y))
  | .lockPred key val pred y a b, .go =>
    pred.node.map fun p =>
      match (s.lock p).trylockVersion pred.ver pred.right with
      | some l => (.access p, (s.setLock p l).goto t (.compare key val pred y a b))
      | none => (.access p, s.goto t (.dealloc key val pred a b))
  | .dealloc key val pred _ _, .go => some (.tau, s.goto t (.endRetry (.insert key val) .none pred))
  | .compare key val pred y a b, .go =>
    some (.access y, s.goto t (.initNode key val pred y a b (decide (key < s.key y))))
  | .initNode key val pred y a b less, .go =>
    some (.access b, (s.initNode b a y key less).goto t (.storeChild key val pred y a b))
  | .storeChild key val pred _ _ b, .go =>
    pred.node.map fun p =>
      (.access p, (s.setChild p pred.right (some b)).goto t (.unlock pred (.inserted key val)))
  | .lockPpred key ppred pred y, .go =>
    ppred.node.map fun g =>
      match (s.lock g).trylockVersion ppred.ver ppred.right with
      | some l => (.access g, (s.setLock g l).goto t (.lockBoth key ppred pred y))
      | none => (.access g, s.goto t (.endRetry (.delete key) ppred pred))
  | .lockBoth key ppred pred y, .go =>
    pred.node.map fun p =>
      match (s.lock p).trylockVersionBoth pred.ver with
      | some l => (.access p, (s.setLock p l).goto t (.loadSibling key ppred pred y))
      | none => (.access p, s.goto t (.revert key ppred pred))
  | .loadSibling key ppred pred y, .go =>
    pred.node.map fun p => (.access p, s.goto t (.splice key ppred pred y (s.child p (!pred.right))))
  | .splice key ppred pred y z, .go =>
    ppred.node.map fun g =>
      (.access g, (s.setChild g ppred.right z).goto t (.unlock ppred (.deleted key pred y)))
  | .unlock e k, .go =>
    e.node.map fun p => (.access p, s.goto t (.storeVersion e ((s.lock p).lr e.right).version k))
  | .storeVersion e v k, .go =>
    e.node.map fun p => (.access p, (s.setLock p ((s.lock p).unlock e.right v)).goto t k.next)
  | .revert key ppred pred, .go =>
    ppred.node.map fun g =>
      (.access g, s.goto t (.storeTicket key ppred pred ((s.lock g).lr ppred.right).ticket))
  | .storeTicket key ppred pred v, .go =>
    ppred.node.map fun g =>
      (.access g, (s.setLock g ((s.lock g).revert ppred.right v)).goto t
        (.endRetry (.delete key) ppred pred))
  | .retireCurr key pred y, .go => some (.retire y, s.goto t (.retirePred key pred y))
  | .retirePred key pred y, .go =>
    pred.node.map fun p => (.retire p, s.goto t (.endVal (.erase key) y))
  | .endVal op y, .go => some (.endOp, s.goto t (.readVal op y))
  | .readVal op y, .go => some (.access y, s.goto t (.ret op (.value (s.val y))))
  | .endRetry u ppred pred, .go => some (.endOp, s.goto t (.start u.op ppred pred))
  | .endOp op r, .go => some (.endOp, s.goto t (.ret op r))
  | .ret op r, .go => some (.ret op r, s.goto t .idle)
  | _, _ => none

/-- The next step of one of the threads. -/
def choose (cfg : Config α K) (s : State α ι K V) (x : ι × Choice α K V) :
    Option ((ι × Event α K V) × State α ι K V) :=
  (s.goOn cfg x.1 x.2).map fun r => ((x.1, r.1), r.2)

variable {cfg : Config α K} {s s' : State α ι K V} {t : ι} {e : Event α K V} {x : Choice α K V}

theorem goOn_sound (h : s.goOn cfg t x = some (e, s')) : Step cfg s t e s' := by
  unfold goOn at h
  split at h <;> rename_i hpc
  -- a call, the allocations, and the beginning of an operation
  · obtain ⟨⟨hmin, hmax⟩, heq⟩ := Option.ite_none_right_eq_some.mp h
    obtain ⟨rfl, rfl⟩ := Prod.mk.inj (Option.some.inj heq)
    exact .invoke _ hpc hmin hmax
  · obtain ⟨ha, heq⟩ := Option.ite_none_right_eq_some.mp h
    obtain ⟨rfl, rfl⟩ := Prod.mk.inj (Option.some.inj heq)
    exact .newLeaf _ _ _ _ _ hpc ha
  · obtain ⟨hb, heq⟩ := Option.ite_none_right_eq_some.mp h
    obtain ⟨rfl, rfl⟩ := Prod.mk.inj (Option.some.inj heq)
    exact .newNode _ _ _ _ _ _ hpc hb
  · obtain ⟨rfl, rfl⟩ := Prod.mk.inj (Option.some.inj h)
    exact .startOp _ _ _ hpc
  -- `bst_tk_find`
  · split_ifs at h with hl
    · obtain ⟨rfl, rfl⟩ := Prod.mk.inj (Option.some.inj h)
      exact .findNull _ _ hpc hl
    · obtain ⟨rfl, rfl⟩ := Prod.mk.inj (Option.some.inj h)
      exact .findLeft _ _ hpc hl
  · obtain ⟨rfl, rfl⟩ := Prod.mk.inj (Option.some.inj h)
    exact .findKey _ _ hpc
  · obtain ⟨z, hz, heq⟩ := Option.map_eq_some_iff.mp h
    obtain ⟨rfl, rfl⟩ := Prod.mk.inj heq
    exact .findChild _ _ _ _ hpc hz
  · split_ifs at h with hk
    · obtain ⟨rfl, rfl⟩ := Prod.mk.inj (Option.some.inj h)
      exact .findHit _ _ hpc hk
    · obtain ⟨rfl, rfl⟩ := Prod.mk.inj (Option.some.inj h)
      exact .findMiss _ _ hpc hk
  -- the search of an update
  · obtain ⟨rfl, rfl⟩ := Prod.mk.inj (Option.some.inj h)
    exact .loadVer _ _ _ _ hpc
  · obtain ⟨y, hy, heq⟩ := Option.map_eq_some_iff.mp h
    obtain ⟨rfl, rfl⟩ := Prod.mk.inj heq
    exact .readKey _ _ _ _ hpc hy
  · obtain ⟨y, hy, hrest⟩ := Option.bind_eq_some_iff.mp h
    obtain ⟨z, hz, heq⟩ := Option.map_eq_some_iff.mp hrest
    obtain ⟨rfl, rfl⟩ := Prod.mk.inj heq
    exact .loadChild _ _ _ _ _ hpc hy hz
  · split_ifs at h with hl
    · obtain ⟨rfl, rfl⟩ := Prod.mk.inj (Option.some.inj h)
      exact .loadNull _ _ _ _ hpc hl
    · obtain ⟨rfl, rfl⟩ := Prod.mk.inj (Option.some.inj h)
      exact .loadLeft _ _ _ _ hpc hl
  · split_ifs at h with hk
    · obtain ⟨rfl, rfl⟩ := Prod.mk.inj (Option.some.inj h)
      exact .hit _ _ _ _ hpc hk
    · obtain ⟨rfl, rfl⟩ := Prod.mk.inj (Option.some.inj h)
      exact .miss _ _ _ _ hpc hk
  -- `bst_tk_insert`
  · obtain ⟨p, hp, heq⟩ := Option.map_eq_some_iff.mp h
    split at heq <;> rename_i hl
    · obtain ⟨rfl, rfl⟩ := Prod.mk.inj heq
      exact .lockPred _ _ _ _ _ _ _ _ hpc hp hl
    · obtain ⟨rfl, rfl⟩ := Prod.mk.inj heq
      exact .lockPredFail _ _ _ _ _ _ _ hpc hp hl
  · obtain ⟨rfl, rfl⟩ := Prod.mk.inj (Option.some.inj h)
    exact .dealloc _ _ _ _ _ hpc
  · obtain ⟨rfl, rfl⟩ := Prod.mk.inj (Option.some.inj h)
    exact .compare _ _ _ _ _ _ hpc
  · obtain ⟨rfl, rfl⟩ := Prod.mk.inj (Option.some.inj h)
    exact .initNode _ _ _ _ _ _ _ hpc
  · obtain ⟨p, hp, heq⟩ := Option.map_eq_some_iff.mp h
    obtain ⟨rfl, rfl⟩ := Prod.mk.inj heq
    exact .storeChild _ _ _ _ _ _ _ hpc hp
  -- `bst_tk_delete`
  · obtain ⟨g, hg, heq⟩ := Option.map_eq_some_iff.mp h
    split at heq <;> rename_i hl
    · obtain ⟨rfl, rfl⟩ := Prod.mk.inj heq
      exact .lockPpred _ _ _ _ _ _ hpc hg hl
    · obtain ⟨rfl, rfl⟩ := Prod.mk.inj heq
      exact .lockPpredFail _ _ _ _ _ hpc hg hl
  · obtain ⟨p, hp, heq⟩ := Option.map_eq_some_iff.mp h
    split at heq <;> rename_i hl
    · obtain ⟨rfl, rfl⟩ := Prod.mk.inj heq
      exact .lockBoth _ _ _ _ _ _ hpc hp hl
    · obtain ⟨rfl, rfl⟩ := Prod.mk.inj heq
      exact .lockBothFail _ _ _ _ _ hpc hp hl
  · obtain ⟨p, hp, heq⟩ := Option.map_eq_some_iff.mp h
    obtain ⟨rfl, rfl⟩ := Prod.mk.inj heq
    exact .loadSibling _ _ _ _ _ hpc hp
  · obtain ⟨g, hg, heq⟩ := Option.map_eq_some_iff.mp h
    obtain ⟨rfl, rfl⟩ := Prod.mk.inj heq
    exact .splice _ _ _ _ _ _ hpc hg
  -- `tl_unlock` and `tl_revert`
  · obtain ⟨p, hp, heq⟩ := Option.map_eq_some_iff.mp h
    obtain ⟨rfl, rfl⟩ := Prod.mk.inj heq
    exact .unlock _ _ _ hpc hp
  · obtain ⟨p, hp, heq⟩ := Option.map_eq_some_iff.mp h
    obtain ⟨rfl, rfl⟩ := Prod.mk.inj heq
    exact .storeVersion _ _ _ _ hpc hp
  · obtain ⟨g, hg, heq⟩ := Option.map_eq_some_iff.mp h
    obtain ⟨rfl, rfl⟩ := Prod.mk.inj heq
    exact .revert _ _ _ _ hpc hg
  · obtain ⟨g, hg, heq⟩ := Option.map_eq_some_iff.mp h
    obtain ⟨rfl, rfl⟩ := Prod.mk.inj heq
    exact .storeTicket _ _ _ _ _ hpc hg
  -- retirement, and the end of an operation
  · obtain ⟨rfl, rfl⟩ := Prod.mk.inj (Option.some.inj h)
    exact .retireCurr _ _ _ hpc
  · obtain ⟨p, hp, heq⟩ := Option.map_eq_some_iff.mp h
    obtain ⟨rfl, rfl⟩ := Prod.mk.inj heq
    exact .retirePred _ _ _ _ hpc hp
  · obtain ⟨rfl, rfl⟩ := Prod.mk.inj (Option.some.inj h)
    exact .endVal _ _ hpc
  · obtain ⟨rfl, rfl⟩ := Prod.mk.inj (Option.some.inj h)
    exact .readVal _ _ hpc
  · obtain ⟨rfl, rfl⟩ := Prod.mk.inj (Option.some.inj h)
    exact .endRetry _ _ _ hpc
  · obtain ⟨rfl, rfl⟩ := Prod.mk.inj (Option.some.inj h)
    exact .endOp _ _ hpc
  · obtain ⟨rfl, rfl⟩ := Prod.mk.inj (Option.some.inj h)
    exact .ret _ _ hpc
  · cases h

/-- If that is the next step, it can be made. -/
theorem step_of_goOn [DecidableEq V]
    (h : (s.goOn cfg t x).any (fun a => a.1 = e) = true) : ∃ s', Step cfg s t e s' := by
  obtain ⟨⟨e', s'⟩, hgo, he⟩ := (Option.any_eq_true _ _).mp h
  obtain rfl : e' = e := of_decide_eq_true he
  exact ⟨s', goOn_sound hgo⟩

theorem computes (cfg : Config α K) : (lts (ι := ι) (V := V) cfg).Computes (choose cfg) := by
  rintro s ⟨t, x⟩ a s' h
  obtain ⟨⟨e, s''⟩, hgo, heq⟩ := Option.map_eq_some_iff.mp h
  obtain ⟨rfl, rfl⟩ := Prod.mk.inj heq
  exact goOn_sound hgo

end State

end Ticket
end PopSetbench

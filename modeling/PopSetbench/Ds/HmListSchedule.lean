import PopSetbench.Ds.HmList
import PopSetbench.Library.Replay

/-!
# Harris–Michael lists: runs that are computed

`State.goOn` is the next step of a thread, if it need not wait for anything to change.
-/

namespace PopSetbench
namespace HmList

open Function

variable {β α ι K V : Type} [DecidableEq β] [DecidableEq α] [DecidableEq ι] [LinearOrder K]

namespace State

/-- The next step of thread `t`. -/
def goOn (impl : Impl β K) (cfg : Config β α K) (s : State β α ι K V) (t : ι) (x : Choice α K V) :
    Option (Event α K V × State β α ι K V) :=
  match s.pc t, x with
  | .idle, .invoke op =>
    if cfg.keyMin < op.key ∧ op.key < cfg.keyMax then some (.invoke op, s.goto t (.start op))
    else none
  | .newNode key val, .alloc a =>
    if s.allocated a = false then
      some (.tau, (s.allocating a key val).goto t (.search (.insert key val a)))
    else none
  | .start op, .go => some (.startOp, s.goto t (Op.begin op))
  | .search c, .go =>
    if (s.link (.head (impl.bucket c.key))).mark = false then
      some (.tau, s.goto t (.loop c (.head (impl.bucket c.key))
        (s.link (.head (impl.bucket c.key))).ptr))
    else none
  | .loop c prev none, .go => some (.tau, s.goto t (c.notFound prev none))
  | .loop c prev (some y), .go =>
    some (.access y, s.goto t (.recheck c prev y (s.link (.next y))))
  | .recheck c prev y nxt, .go =>
    if s.link (.next y) = nxt then some (.access y, s.goto t (.readKey c prev y nxt))
    else some (.access y, s.goto t (.search c))
  | .readKey c prev y nxt, .go =>
    some (.access y, s.goto t (.checkPrev c prev y nxt (s.key y)))
  | .checkPrev c prev y ⟨nxt, mark⟩ ckey, .go =>
    if s.link prev = ⟨some y, false⟩ then
      if mark then some (prev.access, s.goto t (.casHelp c prev y nxt))
      else if ckey < c.key then some (prev.access, s.goto t (.loop c (.next y) nxt))
      else if ckey = c.key then some (prev.access, s.goto t (c.found prev y nxt))
      else some (prev.access, s.goto t (c.notFound prev (some y)))
    else some (prev.access, s.goto t (.search c))
  | .casHelp c prev y nxt, .go =>
    if s.link prev = ⟨some y, false⟩ then
      some (prev.access, (s.store prev ⟨nxt, false⟩).goto t (.retireHelped c prev y nxt))
    else some (prev.access, s.goto t (.search c))
  | .retireHelped c prev y nxt, .go =>
    some (.retire y, (s.retiring y).goto t (.loop c prev nxt))
  | .deallocate key val _ y, .go => some (.tau, s.goto t (.endFound key val y))
  | .endFound key val y, .go => some (.endOp, s.goto t (.readFound key val y))
  | .readFound key val y, .go =>
    some (.access y, s.goto t (.ret (.insert key val) (.value (some (s.val y)))))
  | .storeNext key val newNode prev curr, .go =>
    some (.tau, (s.store (.next newNode) ⟨curr, false⟩).goto t
      (.casInsert key val newNode prev curr))
  | .casInsert key val newNode prev curr, .go =>
    if s.link prev = ⟨curr, false⟩ then
      some (prev.access, (s.store prev ⟨some newNode, false⟩).goto t
        (.endOp (.insert key val) (.value none)))
    else some (prev.access, s.goto t (.search (.insert key val newNode)))
  | .readVal key prev y nxt, .go =>
    some (.access y, s.goto t (.casMark key prev y nxt (s.val y)))
  | .casMark key prev y nxt res, .go =>
    if s.link (.next y) = ⟨nxt, false⟩ then
      some (.access y, (s.store (.next y) ⟨nxt, true⟩).goto t (.casUnlink key prev y nxt res))
    else some (.access y, s.goto t
      (bif impl.endOpOnRetry then .endRetry key else .search (.erase key)))
  | .endRetry key, .go => some (.endOp, s.goto t (.search (.erase key)))
  | .casUnlink key prev y nxt res, .go =>
    if s.link prev = ⟨some y, false⟩ then
      some (prev.access, (s.store prev ⟨nxt, false⟩).goto t (.retireErased key y res))
    else some (prev.access, s.goto t (.search (.unlink key res y)))
  | .retireErased key y res, .go =>
    some (.retire y, (s.retiring y).goto t (.endOp (.erase key) (.value (some res))))
  | .endOp op r, .go => some (.endOp, s.goto t (.ret op r))
  | .ret op r, .go => some (.ret op r, s.goto t .idle)
  | _, _ => none

/-- The next step of one of the threads. -/
def choose (impl : Impl β K) (cfg : Config β α K) (s : State β α ι K V) (x : ι × Choice α K V) :
    Option ((ι × Event α K V) × State β α ι K V) :=
  (s.goOn impl cfg x.1 x.2).map fun r => ((x.1, r.1), r.2)

variable {impl : Impl β K} {cfg : Config β α K} {s s' : State β α ι K V} {t : ι} {e : Event α K V}
  {x : Choice α K V}

theorem goOn_sound (h : s.goOn impl cfg t x = some (e, s')) : Step impl cfg s t e s' := by
  unfold goOn at h
  split at h <;> rename_i hpc
  -- a call, and the beginning of an operation
  · obtain ⟨⟨hmin, hmax⟩, heq⟩ := Option.ite_none_right_eq_some.mp h
    obtain ⟨rfl, rfl⟩ := Prod.mk.inj (Option.some.inj heq)
    exact .invoke _ hpc hmin hmax
  · obtain ⟨hx, heq⟩ := Option.ite_none_right_eq_some.mp h
    obtain ⟨rfl, rfl⟩ := Prod.mk.inj (Option.some.inj heq)
    exact .newNode _ _ _ hpc hx
  · obtain ⟨rfl, rfl⟩ := Prod.mk.inj (Option.some.inj h)
    exact .startOp _ hpc
  -- `list_search`
  · obtain ⟨hl, heq⟩ := Option.ite_none_right_eq_some.mp h
    obtain ⟨rfl, rfl⟩ := Prod.mk.inj (Option.some.inj heq)
    refine .search _ _ hpc ?_
    rw [← hl]
  · obtain ⟨rfl, rfl⟩ := Prod.mk.inj (Option.some.inj h)
    exact .loopNull _ _ hpc
  · obtain ⟨rfl, rfl⟩ := Prod.mk.inj (Option.some.inj h)
    exact .loop _ _ _ hpc
  · split_ifs at h with hl
    · obtain ⟨rfl, rfl⟩ := Prod.mk.inj (Option.some.inj h)
      exact .recheck _ _ _ _ hpc hl
    · obtain ⟨rfl, rfl⟩ := Prod.mk.inj (Option.some.inj h)
      exact .recheckFail _ _ _ _ hpc hl
  · obtain ⟨rfl, rfl⟩ := Prod.mk.inj (Option.some.inj h)
    exact .readKey _ _ _ _ hpc
  · split_ifs at h with hl hmark hlt hkey
    · obtain ⟨rfl, rfl⟩ := Prod.mk.inj (Option.some.inj h)
      subst hmark
      exact .help _ _ _ _ _ hpc hl
    · obtain ⟨rfl, rfl⟩ := Prod.mk.inj (Option.some.inj h)
      obtain rfl := Bool.eq_false_of_not_eq_true hmark
      exact .advance _ _ _ _ _ hpc hl hlt
    · obtain ⟨rfl, rfl⟩ := Prod.mk.inj (Option.some.inj h)
      obtain rfl := Bool.eq_false_of_not_eq_true hmark
      exact .found _ _ _ _ _ hpc hl hkey
    · obtain ⟨rfl, rfl⟩ := Prod.mk.inj (Option.some.inj h)
      obtain rfl := Bool.eq_false_of_not_eq_true hmark
      exact .notFound _ _ _ _ _ hpc hl (lt_of_le_of_ne (not_lt.mp hlt) (Ne.symm hkey))
    · obtain ⟨rfl, rfl⟩ := Prod.mk.inj (Option.some.inj h)
      exact .checkPrevFail _ _ _ _ _ hpc hl
  · split_ifs at h with hl
    · obtain ⟨rfl, rfl⟩ := Prod.mk.inj (Option.some.inj h)
      exact .casHelp _ _ _ _ hpc hl
    · obtain ⟨rfl, rfl⟩ := Prod.mk.inj (Option.some.inj h)
      exact .casHelpFail _ _ _ _ hpc hl
  · obtain ⟨rfl, rfl⟩ := Prod.mk.inj (Option.some.inj h)
    exact .retireHelped _ _ _ _ hpc
  -- `doInsert`
  · obtain ⟨rfl, rfl⟩ := Prod.mk.inj (Option.some.inj h)
    exact .deallocate _ _ _ _ hpc
  · obtain ⟨rfl, rfl⟩ := Prod.mk.inj (Option.some.inj h)
    exact .endFound _ _ _ hpc
  · obtain ⟨rfl, rfl⟩ := Prod.mk.inj (Option.some.inj h)
    exact .readFound _ _ _ hpc
  · obtain ⟨rfl, rfl⟩ := Prod.mk.inj (Option.some.inj h)
    exact .storeNext _ _ _ _ _ hpc
  · split_ifs at h with hl
    · obtain ⟨rfl, rfl⟩ := Prod.mk.inj (Option.some.inj h)
      exact .casInsert _ _ _ _ _ hpc hl
    · obtain ⟨rfl, rfl⟩ := Prod.mk.inj (Option.some.inj h)
      exact .casInsertFail _ _ _ _ _ hpc hl
  -- `erase`
  · obtain ⟨rfl, rfl⟩ := Prod.mk.inj (Option.some.inj h)
    exact .readVal _ _ _ _ hpc
  · split_ifs at h with hl
    · obtain ⟨rfl, rfl⟩ := Prod.mk.inj (Option.some.inj h)
      exact .casMark _ _ _ _ _ hpc hl
    · obtain ⟨rfl, rfl⟩ := Prod.mk.inj (Option.some.inj h)
      exact .casMarkFail _ _ _ _ _ hpc hl
  · obtain ⟨rfl, rfl⟩ := Prod.mk.inj (Option.some.inj h)
    exact .endRetry _ hpc
  · split_ifs at h with hl
    · obtain ⟨rfl, rfl⟩ := Prod.mk.inj (Option.some.inj h)
      exact .casUnlink _ _ _ _ _ hpc hl
    · obtain ⟨rfl, rfl⟩ := Prod.mk.inj (Option.some.inj h)
      exact .casUnlinkFail _ _ _ _ _ hpc hl
  · obtain ⟨rfl, rfl⟩ := Prod.mk.inj (Option.some.inj h)
    exact .retireErased _ _ _ hpc
  -- the end of an operation
  · obtain ⟨rfl, rfl⟩ := Prod.mk.inj (Option.some.inj h)
    exact .endOp _ _ hpc
  · obtain ⟨rfl, rfl⟩ := Prod.mk.inj (Option.some.inj h)
    exact .ret _ _ hpc
  · cases h

/-- If that is the next step, it can be made. -/
theorem step_of_goOn [DecidableEq V]
    (h : (s.goOn impl cfg t x).any (fun a => a.1 = e) = true) : ∃ s', Step impl cfg s t e s' := by
  obtain ⟨⟨e', s'⟩, hgo, he⟩ := (Option.any_eq_true _ _).mp h
  obtain rfl : e' = e := of_decide_eq_true he
  exact ⟨s', goOn_sound hgo⟩

theorem computes (impl : Impl β K) (cfg : Config β α K) :
    (lts (ι := ι) (V := V) impl cfg).Computes (choose impl cfg) := by
  rintro s ⟨t, x⟩ a s' h
  obtain ⟨⟨e, s''⟩, hgo, heq⟩ := Option.map_eq_some_iff.mp h
  obtain ⟨rfl, rfl⟩ := Prod.mk.inj heq
  exact goOn_sound hgo

end State

end HmList
end PopSetbench

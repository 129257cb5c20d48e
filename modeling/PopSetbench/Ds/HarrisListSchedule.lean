import PopSetbench.Ds.HarrisList
import PopSetbench.Library.Replay

/-!
# Harris's list: runs that are computed

`State.goOn` is the next step of a thread, if it need not wait for anything to change.
-/

namespace PopSetbench
namespace HarrisList

open Function

variable {α ι K V : Type} [DecidableEq α] [DecidableEq ι] [LinearOrder K]

namespace State

/-- The next step of thread `t`. -/
def goOn (cfg : Config α K V) (s : State α ι K V) (t : ι) (x : Choice α K V) :
    Option (Event α K V × State α ι K V) :=
  match s.pc t, x with
  | .idle, .invoke op =>
    if cfg.keyMin < op.key ∧ op.key < cfg.keyMax then some (.invoke op, s.goto t (.start op))
    else none
  | .newNode key val, .alloc a =>
    if s.allocated a = false then
      some (.tau, (s.allocating a key val).goto t (.search (.insert key val a) none none))
    else none
  | .start op, .go => some (.startOp, s.goto t (Op.begin op))
  | .search c left leftNext, .go =>
    some (.access cfg.head,
      s.goto t (.loop c left leftNext cfg.head (s.link cfg.head)))
  | .loop c left leftNext _ ⟨some y, true⟩, .go => some (.tau, s.goto t (.arrive c left leftNext y))
  | .loop c left leftNext y ⟨nxt, false⟩, .go =>
    some (.access y, s.goto t (.compareKey c left leftNext y nxt (s.key y)))
  | .compareKey c left leftNext y nxt k, .go =>
    if k < c.key then
      nxt.map fun z => (c.keyAccess, s.goto t (.arrive c (some y) (some z) z))
    else some (c.keyAccess, s.goto t (.compare c left leftNext y))
  | .arrive c left leftNext y, .go =>
    if y = cfg.tail then some (.tau, s.goto t (.compare c left leftNext y))
    else if s.link y = ⟨none, false⟩ then some (.access y, s.goto t (.compare c left leftNext y))
    else some (.access y, s.goto t (.loadNext c left leftNext y))
  | .loadNext c left leftNext y, .go =>
    some (.access y, s.goto t (.loop c left leftNext y (s.link y)))
  | .compare c left leftNext r, .go =>
    if leftNext = some r then some (.tau, s.goto t (.check c left r))
    else
      match left, leftNext with
      | some l, some x =>
        if s.link l = ⟨some x, false⟩ then
          some (.access l, (s.store l ⟨some r, false⟩).goto t (.walk c (some l) x r))
        else some (.access l, s.goto t (.search c (some l) (some x)))
      | _, _ => none
  | .walk c left x r, .go => some (.access x, s.goto t (.retire c left x (s.link x).ptr r))
  | .retire c left x (some y) r, .go =>
    if y = r then some (.retire x, (s.retiring x).goto t (.check c left r))
    else some (.retire x, (s.retiring x).goto t (.walk c left y r))
  | .check c left r, .go =>
    if r = cfg.tail then some (.tau, s.goto t (c.done cfg left r))
    else if (s.link r).mark = true then some (.access r, s.goto t (.search c left none))
    else some (.access r, s.goto t (c.done cfg left r))
  | .testKey c left r, .go =>
    if r = cfg.tail then some (.tau, s.goto t (c.notFound cfg left r))
    else if s.key r = c.key then some (.access r, s.goto t (c.found cfg left r))
    else some (.access r, s.goto t (c.notFound cfg left r))
  | .deallocate key val _, .go =>
    some (.tau, s.goto t (.endOp (.insert key val) (.value (some cfg.addrTail))))
  | .storeNext key val newElem left r, .go =>
    some (.tau,
      (s.store newElem ⟨some r, false⟩).goto t (.casInsert key val newElem left r))
  | .casInsert key val newElem (some l) r, .go =>
    if s.link l = ⟨some r, false⟩ then
      some (.access l,
        (s.store l ⟨some newElem, false⟩).goto t (.endOp (.insert key val) (.value none)))
    else some (.access l, s.goto t (.search (.insert key val newElem) (some l) none))
  | .loadSucc key left r, .go =>
    if (s.link r).mark = true then some (.access r, s.goto t (.search (.erase key) left none))
    else some (.access r, s.goto t (.casMark key left r (s.link r).ptr))
  | .casMark key left r succ, .go =>
    if s.link r = ⟨succ, false⟩ then
      some (.access r, (s.store r ⟨succ, true⟩).goto t (.casErase key left r succ))
    else some (.access r, s.goto t (.search (.erase key) left none))
  | .casErase key (some l) r succ, .go =>
    if s.link l = ⟨some r, false⟩ then
      some (.access l, (s.store l ⟨succ, false⟩).goto t (.retireErased key r))
    else some (.access l, s.goto t (.readKey key (some l) r))
  | .readKey key left r, .go =>
    some (.access r, s.goto t (.search (.unlink key (s.key r) r) left none))
  | .retireErased key r, .go =>
    some (.retire r, (s.retiring r).goto t (.ret (.erase key) (.value (some cfg.addrTail))))
  | .endOp op r, .go => some (.endOp, s.goto t (.ret op r))
  | .ret op r, .go => some (.ret op r, s.goto t .idle)
  | _, _ => none

/-- The next step of one of the threads. -/
def choose (cfg : Config α K V) (s : State α ι K V) (x : ι × Choice α K V) :
    Option ((ι × Event α K V) × State α ι K V) :=
  (s.goOn cfg x.1 x.2).map fun r => ((x.1, r.1), r.2)

variable {cfg : Config α K V} {s s' : State α ι K V} {t : ι} {e : Event α K V} {x : Choice α K V}

theorem goOn_sound (h : s.goOn cfg t x = some (e, s')) : Step cfg s t e s' := by
  unfold goOn at h
  split at h <;> rename_i hpc
  -- a call, and the beginning of an operation
  · obtain ⟨⟨hmin, hmax⟩, heq⟩ := Option.ite_none_right_eq_some.mp h
    obtain ⟨rfl, rfl⟩ := Prod.mk.inj (Option.some.inj heq)
    exact .invoke _ hpc hmin hmax
  · obtain ⟨hx, heq⟩ := Option.ite_none_right_eq_some.mp h
    obtain ⟨rfl, rfl⟩ := Prod.mk.inj (Option.some.inj heq)
    exact .newNode _ _ _ hpc hx
  · obtain ⟨rfl, rfl⟩ := Prod.mk.inj (Option.some.inj h)
    exact .startOp _ hpc
  -- `list_search`: the loop
  · obtain ⟨rfl, rfl⟩ := Prod.mk.inj (Option.some.inj h)
    exact .search _ _ _ hpc
  · obtain ⟨rfl, rfl⟩ := Prod.mk.inj (Option.some.inj h)
    exact .skip _ _ _ _ _ hpc
  · obtain ⟨rfl, rfl⟩ := Prod.mk.inj (Option.some.inj h)
    exact .loadKey _ _ _ _ _ hpc
  · split_ifs at h with hk
    · obtain ⟨z, rfl, heq⟩ := Option.map_eq_some_iff.mp h
      obtain ⟨rfl, rfl⟩ := Prod.mk.inj heq
      exact .pass _ _ _ _ _ _ hpc hk
    · obtain ⟨rfl, rfl⟩ := Prod.mk.inj (Option.some.inj h)
      exact .stop _ _ _ _ _ _ hpc hk
  · split_ifs at h with htail hl
    · subst htail
      obtain ⟨rfl, rfl⟩ := Prod.mk.inj (Option.some.inj h)
      exact .arriveTail _ _ _ hpc
    · obtain ⟨rfl, rfl⟩ := Prod.mk.inj (Option.some.inj h)
      exact .arriveNull _ _ _ _ hpc htail hl
    · obtain ⟨rfl, rfl⟩ := Prod.mk.inj (Option.some.inj h)
      exact .arrive _ _ _ _ hpc htail hl
  · obtain ⟨rfl, rfl⟩ := Prod.mk.inj (Option.some.inj h)
    exact .loadNext _ _ _ _ hpc
  -- `list_search`: the nodes between `left_node` and `right_node`
  · split_ifs at h with hr
    · subst hr
      obtain ⟨rfl, rfl⟩ := Prod.mk.inj (Option.some.inj h)
      exact .adjacent _ _ _ hpc
    · split at h
      · split_ifs at h with hl
        · obtain ⟨rfl, rfl⟩ := Prod.mk.inj (Option.some.inj h)
          exact .casUnlink _ _ _ _ hpc (fun hxr => hr (congrArg some hxr)) hl
        · obtain ⟨rfl, rfl⟩ := Prod.mk.inj (Option.some.inj h)
          exact .casUnlinkFail _ _ _ _ hpc hr hl
      · cases h
  · obtain ⟨rfl, rfl⟩ := Prod.mk.inj (Option.some.inj h)
    exact .walk _ _ _ _ hpc
  · split_ifs at h with hr
    · subst hr
      obtain ⟨rfl, rfl⟩ := Prod.mk.inj (Option.some.inj h)
      exact .retireLast _ _ _ _ hpc
    · obtain ⟨rfl, rfl⟩ := Prod.mk.inj (Option.some.inj h)
      exact .retireNext _ _ _ _ _ hpc hr
  · split_ifs at h with htail hm
    · subst htail
      obtain ⟨rfl, rfl⟩ := Prod.mk.inj (Option.some.inj h)
      exact .checkTail _ _ hpc
    · obtain ⟨rfl, rfl⟩ := Prod.mk.inj (Option.some.inj h)
      exact .checkRetry _ _ _ hpc htail hm
    · obtain ⟨rfl, rfl⟩ := Prod.mk.inj (Option.some.inj h)
      exact .check _ _ _ hpc htail (Bool.eq_false_of_not_eq_true hm)
  -- what the callers do with its result
  · split_ifs at h with htail hk
    · subst htail
      obtain ⟨rfl, rfl⟩ := Prod.mk.inj (Option.some.inj h)
      exact .testTail _ _ hpc
    · obtain ⟨rfl, rfl⟩ := Prod.mk.inj (Option.some.inj h)
      exact .testFound _ _ _ hpc htail hk
    · obtain ⟨rfl, rfl⟩ := Prod.mk.inj (Option.some.inj h)
      exact .testAbsent _ _ _ hpc htail hk
  -- `doInsert`
  · obtain ⟨rfl, rfl⟩ := Prod.mk.inj (Option.some.inj h)
    exact .deallocate _ _ _ hpc
  · obtain ⟨rfl, rfl⟩ := Prod.mk.inj (Option.some.inj h)
    exact .storeNext _ _ _ _ _ hpc
  · split_ifs at h with hl
    · obtain ⟨rfl, rfl⟩ := Prod.mk.inj (Option.some.inj h)
      exact .casInsert _ _ _ _ _ hpc hl
    · obtain ⟨rfl, rfl⟩ := Prod.mk.inj (Option.some.inj h)
      exact .casInsertFail _ _ _ _ _ hpc hl
  -- `erase`
  · split_ifs at h with hm
    · obtain ⟨rfl, rfl⟩ := Prod.mk.inj (Option.some.inj h)
      exact .loadSuccMarked _ _ _ hpc hm
    · obtain ⟨rfl, rfl⟩ := Prod.mk.inj (Option.some.inj h)
      exact .loadSucc _ _ _ hpc (Bool.eq_false_of_not_eq_true hm)
  · split_ifs at h with hl
    · obtain ⟨rfl, rfl⟩ := Prod.mk.inj (Option.some.inj h)
      exact .casMark _ _ _ _ hpc hl
    · obtain ⟨rfl, rfl⟩ := Prod.mk.inj (Option.some.inj h)
      exact .casMarkFail _ _ _ _ hpc hl
  · split_ifs at h with hl
    · obtain ⟨rfl, rfl⟩ := Prod.mk.inj (Option.some.inj h)
      exact .casErase _ _ _ _ hpc hl
    · obtain ⟨rfl, rfl⟩ := Prod.mk.inj (Option.some.inj h)
      exact .casEraseFail _ _ _ _ hpc hl
  · obtain ⟨rfl, rfl⟩ := Prod.mk.inj (Option.some.inj h)
    exact .readKey _ _ _ hpc
  · obtain ⟨rfl, rfl⟩ := Prod.mk.inj (Option.some.inj h)
    exact .retireErased _ _ hpc
  -- the end of an operation
  · obtain ⟨rfl, rfl⟩ := Prod.mk.inj (Option.some.inj h)
    exact .endOp _ _ hpc
  · obtain ⟨rfl, rfl⟩ := Prod.mk.inj (Option.some.inj h)
    exact .ret _ _ hpc
  · cases h

/-- If that is the next step, it can be made. -/
theorem step_of_goOn [DecidableEq V]
    (h : (s.goOn cfg t x).any (fun a => a.1 = e) = true) : ∃ s', Step cfg s t e s' := by
  obtain ⟨⟨e', s'⟩, hgo, he⟩ := (Option.any_eq_true _ _).mp h
  obtain rfl : e' = e := of_decide_eq_true he
  exact ⟨s', goOn_sound hgo⟩

theorem computes (cfg : Config α K V) : (lts (ι := ι) cfg).Computes (choose cfg) := by
  rintro s ⟨t, x⟩ a s' h
  obtain ⟨⟨e, s''⟩, hgo, heq⟩ := Option.map_eq_some_iff.mp h
  obtain ⟨rfl, rfl⟩ := Prod.mk.inj heq
  exact goOn_sound hgo

end State

end HarrisList
end PopSetbench

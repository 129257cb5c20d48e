import PopSetbench.Library.Monitor
import PopSetbench.Ds.HmListLinear
import PopSetbench.Ds.HarrisListRetire

/-!
# Operations between `startOp` and `endOp`

An operation may look at nodes only between `startOp` and `endOp`, and it ends with `endOp`. The
rule is a monitor (`Bracket.next`). Three paths of the lists break it:

* `erase` of `hmlist_impl.h` and `hmht_impl.h` calls `endOp` when its marking CAS fails, and then
  tries again without a `startOp`;
* `doInsert` of the same files reads `curr->val` after `endOp` when it finds the key;
* `erase` of `harrislist_impl.h` never calls `endOp`.

In runs that take none of these paths the rule is kept (`brackets_kept`).
-/

namespace PopSetbench

open Function

/-- Where an operation is with respect to its brackets. -/
inductive Bracket
  /-- There is no operation. -/
  | idle
  /-- The operation has been called. -/
  | called
  /-- Between `startOp` and `endOp`. -/
  | inside
  /-- After `endOp`. -/
  | ended
  deriving DecidableEq

/-- Which events are allowed: `startOp` and `endOp` in turn, an access only between them, a return
only after `endOp`. -/
def Bracket.next {α K V : Type} : Bracket → Event α K V → Option Bracket
  | .idle, .invoke _ => some .called
  | .called, .startOp => some .inside
  | .ended, .startOp => some .inside
  | .inside, .access _ => some .inside
  | .inside, .endOp => some .ended
  | .ended, .ret _ _ => some .idle
  | b, .retire _ => some b
  | b, .tau => some b
  | _, _ => none

/-- A transition system, with a monitor of the brackets for each thread. -/
def brackets {σ ι α K V : Type} [DecidableEq ι] (M : Lts σ (ι × Event α K V)) :
    Lts (σ × (ι → Option Bracket)) (ι × Event α K V) :=
  M.monitored Bracket.next .idle

/-! ### Harris–Michael lists -/

namespace HmList

variable {β α ι K V : Type}

/-- The brackets of a thread, by where it is. -/
def Pc.bracket : Pc β α K V → Bracket
  | .idle => .idle
  | .start _ => .called
  | .readFound _ _ _ => .ended
  | .ret _ _ => .ended
  | _ => .inside

theorem bracket_notFound {c : Call α K V} {l : Link β α} {curr : Option α} :
    (c.notFound l curr).bracket = .inside := by
  cases c <;> rfl

theorem bracket_found {c : Call α K V} {l : Link β α} {x : α} {nxt : Option α} :
    (c.found l x nxt).bracket = .inside := by
  cases c <;> rfl

theorem bracket_begin {op : Op K V} : (Op.begin op : Pc β α K V).bracket = .inside := by
  cases op <;> rfl

theorem inside_access {l : Link β α} :
    Bracket.inside.next (l.access : Event α K V) = some .inside := by
  cases l <;> rfl

/-- The step is on none of the paths that break the rule: where `endOp` is called before trying
again, no marking CAS fails; no insertion has found its key. -/
def KeepsBrackets (impl : Impl β K) (s : State β α ι K V) (a : ι × Event α K V) : Prop :=
  match s.pc a.1 with
  | .casMark _ _ x nxt _ => impl.endOpOnRetry = true → s.link (.next x) = ⟨nxt, false⟩
  | .deallocate _ _ _ _ => False
  | _ => True

/-- Places behind the branches that break the rule. -/
def Pc.Astray : Pc β α K V → Prop
  | .endRetry _ => True
  | .endFound _ _ _ => True
  | .readFound _ _ _ => True
  | _ => False

variable [LinearOrder K] [DecidableEq β] [DecidableEq α] [DecidableEq ι] {impl : Impl β K}
  {cfg : Config β α K} {s s' : State β α ι K V} {t : ι}

/-- Nobody gets there in a run that keeps the rule. -/
theorem Step.not_astray {e : Event α K V} (h : Step impl cfg s t e s')
    (hok : KeepsBrackets impl s (t, e)) (hs : ¬ (s.pc t).Astray) : ¬ (s'.pc t).Astray := by
  unfold KeepsBrackets at hok
  cases h with
  | startOp op hpc =>
    rw [State.goto_pc_self]
    cases op <;> exact id
  | loopNull c prev hpc =>
    rw [State.goto_pc_self]
    cases c <;> exact id
  | found c prev x nxt ckey hpc hl hk =>
    rw [State.goto_pc_self]
    cases c <;> exact id
  | notFound c prev x nxt ckey hpc hl hk =>
    rw [State.goto_pc_self]
    cases c <;> exact id
  | casMarkFail key prev x nxt res hpc hl =>
    rw [hpc] at hok
    have hretry : impl.endOpOnRetry = false := Bool.eq_false_iff.mpr fun h => hl (hok h)
    rw [State.goto_pc_self, hretry]
    exact id
  | deallocate key val a x hpc =>
    rw [hpc] at hok
    exact hok.elim
  | endFound key val x hpc =>
    rw [hpc] at hs
    exact absurd trivial hs
  | _ =>
    rw [State.goto_pc_self]
    exact id

/-- A step does what the monitor does. -/
theorem Step.bracket {e : Event α K V} (h : Step impl cfg s t e s')
    (hok : KeepsBrackets impl s (t, e)) (hs : ¬ (s.pc t).Astray) :
    (s.pc t).bracket.next e = some (s'.pc t).bracket := by
  unfold KeepsBrackets at hok
  cases h with
  | startOp op hpc =>
    rw [hpc, State.goto_pc_self, bracket_begin]
    rfl
  | loopNull c prev hpc =>
    rw [hpc, State.goto_pc_self, bracket_notFound]
    rfl
  | checkPrevFail c prev x nxt ckey hpc hl =>
    -- inside the brackets a node may be accessed
    rw [hpc, State.goto_pc_self]
    exact inside_access
  | advance c prev x nxt ckey hpc hl hk =>
    rw [hpc, State.goto_pc_self]
    exact inside_access
  | found c prev x nxt ckey hpc hl hk =>
    rw [hpc, State.goto_pc_self, bracket_found]
    exact inside_access
  | notFound c prev x nxt ckey hpc hl hk =>
    rw [hpc, State.goto_pc_self, bracket_notFound]
    exact inside_access
  | help c prev x nxt ckey hpc hl =>
    rw [hpc, State.goto_pc_self]
    exact inside_access
  | casHelp c prev x nxt hpc hl =>
    rw [hpc, State.goto_pc_self]
    exact inside_access
  | casHelpFail c prev x nxt hpc hl =>
    rw [hpc, State.goto_pc_self]
    exact inside_access
  | casInsert key val a prev curr hpc hl =>
    rw [hpc, State.goto_pc_self]
    exact inside_access
  | casInsertFail key val a prev curr hpc hl =>
    rw [hpc, State.goto_pc_self]
    exact inside_access
  | casUnlink key prev x nxt res hpc hl =>
    rw [hpc, State.goto_pc_self]
    exact inside_access
  | casUnlinkFail key prev x nxt res hpc hl =>
    rw [hpc, State.goto_pc_self]
    exact inside_access
  | casMarkFail key prev x nxt res hpc hl =>
    -- the failing CAS is allowed where the operation goes on without `endOp`
    rw [hpc] at hok
    have hretry : impl.endOpOnRetry = false := Bool.eq_false_iff.mpr fun h => hl (hok h)
    rw [hpc, State.goto_pc_self, hretry]
    rfl
  -- a rejected insertion accesses its node outside, which the condition excludes
  | deallocate key val a x hpc => rw [hpc] at hok; exact hok.elim
  -- no operation goes on after its `endOp` under the condition
  | endFound key val x hpc => rw [hpc] at hs; exact absurd trivial hs
  | readFound key val x hpc => rw [hpc] at hs; exact absurd trivial hs
  | endRetry key hpc => rw [hpc] at hs; exact absurd trivial hs
  -- the other steps access no node
  | invoke op hpc _ _ => rw [hpc, State.goto_pc_self]; rfl
  | newNode key val x hpc _ => rw [hpc, State.goto_pc_self]; rfl
  | search c curr hpc _ => rw [hpc, State.goto_pc_self]; rfl
  | loop c prev x hpc => rw [hpc, State.goto_pc_self]; rfl
  | recheckFail c prev x nxt hpc _ => rw [hpc, State.goto_pc_self]; rfl
  | recheck c prev x nxt hpc _ => rw [hpc, State.goto_pc_self]; rfl
  | readKey c prev x nxt hpc => rw [hpc, State.goto_pc_self]; rfl
  | retireHelped c prev x nxt hpc => rw [hpc, State.goto_pc_self]; rfl
  | storeNext key val a prev curr hpc => rw [hpc, State.goto_pc_self]; rfl
  | readVal key prev x nxt hpc => rw [hpc, State.goto_pc_self]; rfl
  | casMark key prev x nxt res hpc _ => rw [hpc, State.goto_pc_self]; rfl
  | retireErased key x res hpc => rw [hpc, State.goto_pc_self]; rfl
  | endOp op r hpc => rw [hpc, State.goto_pc_self]; rfl
  | ret op r hpc => rw [hpc, State.goto_pc_self]; rfl

/-- The other threads stay where they are. -/
theorem Step.pc_of_ne {e : Event α K V} (h : Step impl cfg s t e s') {q : ι} (hq : q ≠ t) :
    s'.pc q = s.pc q := by
  cases h <;> exact State.goto_pc_of_ne hq

theorem not_astray (h : (lts impl cfg).ReachableBy (KeepsBrackets impl) s) (t : ι) :
    ¬ (s.pc t).Astray := by
  revert t
  refine h.invariant (P := fun s => ∀ t, ¬ (s.pc t).Astray) ?_ ?_
  · intro s hs t
    rw [hs.pc t]
    exact id
  · rintro s ⟨q, e⟩ s' - ih hok hs t
    have hs : Step impl cfg s q e s' := hs
    by_cases ht : t = q
    · subst ht
      exact hs.not_astray hok (ih t)
    · rw [hs.pc_of_ne ht]
      exact ih t

/-- The monitors in runs that keep the rule. -/
theorem bracket_eq {x : State β α ι K V × (ι → Option Bracket)}
    (h : (brackets (lts impl cfg)).ReachableBy (fun x a => KeepsBrackets impl x.1 a) x) (t : ι) :
    x.2 t = some (x.1.pc t).bracket := by
  refine Lts.ReachableBy.monitored (v := fun s t => (s.pc t).bracket) ?_ ?_ ?_ h t
  · intro s hs t
    show (s.pc t).bracket = .idle
    rw [hs.pc t]
    rfl
  · intro s t e s' hr hs hok
    exact Step.bracket hs hok (not_astray hr t)
  · intro s t e s' hs q hq
    have hs : Step impl cfg s t e s' := hs
    show (s'.pc q).bracket = (s.pc q).bracket
    rw [hs.pc_of_ne hq]

end HmList

/-! ### Harris's list -/

namespace HarrisList

variable {α ι K V : Type}

/-- The brackets of a thread, by where it is. -/
def Pc.bracket : Pc α K V → Bracket
  | .idle => .idle
  | .start _ => .called
  | .ret (.erase _) _ => .inside
  | .ret _ _ => .ended
  | _ => .inside

/-- A deletion does not call `endOp`. -/
def Pc.Astray : Pc α K V → Prop
  | .endOp (.erase _) _ => True
  | _ => False

/-- The step is not on the path that breaks the rule: no deletion returns. -/
def KeepsBrackets (s : State α ι K V) (a : ι × Event α K V) : Prop :=
  match s.pc a.1 with
  | .ret (.erase _) _ => False
  | _ => True

section

variable [LinearOrder K] {cfg : Config α K V}

theorem bracket_done {c : Call α K V} {left : Option α} {r : α} :
    (c.done cfg left r).bracket = .inside := by
  cases c <;> rfl

theorem bracket_notFound {c : Call α K V} {left : Option α} {r : α} :
    (c.notFound cfg left r).bracket = .inside := by
  cases c <;> rfl

theorem bracket_found {c : Call α K V} {left : Option α} {r : α} :
    (c.found cfg left r).bracket = .inside := by
  cases c <;> rfl

end

theorem inside_keyAccess {c : Call α K V} : Bracket.inside.next c.keyAccess = some .inside := by
  cases c <;> rfl

variable [LinearOrder K] [DecidableEq α] [DecidableEq ι] {cfg : Config α K V}
  {s s' : State α ι K V} {t : ι}

/-- Only the operations with a guard call `endOp`. -/
theorem Step.not_astray {e : Event α K V} (h : Step cfg s t e s') : ¬ (s'.pc t).Astray := by
  cases h with
  | startOp op hpc =>
    rw [State.goto_pc_self]
    cases op <;> exact id
  | checkTail c left hpc =>
    rw [State.goto_pc_self]
    cases c <;> exact id
  | check c left r hpc hr hl =>
    rw [State.goto_pc_self]
    cases c <;> exact id
  | testTail c left hpc =>
    rw [State.goto_pc_self]
    cases c <;> exact id
  | testAbsent c left r hpc hr hk =>
    rw [State.goto_pc_self]
    cases c <;> exact id
  | testFound c left r hpc hr hk =>
    rw [State.goto_pc_self]
    cases c <;> exact id
  | _ =>
    rw [State.goto_pc_self]
    exact id

/-- A step does what the monitor does. -/
theorem Step.bracket {e : Event α K V} (h : Step cfg s t e s') (hok : KeepsBrackets s (t, e))
    (hs : ¬ (s.pc t).Astray) :
    (s.pc t).bracket.next e = some (s'.pc t).bracket := by
  unfold KeepsBrackets at hok
  cases h with
  | startOp op hpc =>
    rw [hpc, State.goto_pc_self]
    cases op <;> rfl
  | checkTail c left hpc =>
    rw [hpc, State.goto_pc_self, bracket_done]
    rfl
  | check c left r hpc hr hl =>
    rw [hpc, State.goto_pc_self, bracket_done]
    rfl
  | testTail c left hpc =>
    rw [hpc, State.goto_pc_self, bracket_notFound]
    rfl
  | testAbsent c left r hpc hr hk =>
    rw [hpc, State.goto_pc_self, bracket_notFound]
    rfl
  | testFound c left r hpc hr hk =>
    rw [hpc, State.goto_pc_self, bracket_found]
    rfl
  | endOp op r hpc =>
    -- the deletions have no `endOp` there
    rw [hpc] at hs
    rw [hpc, State.goto_pc_self]
    cases op with
    | erase key => exact absurd trivial hs
    | _ => rfl
  | ret op r hpc =>
    -- so a deletion that returns is excluded
    rw [hpc] at hok
    rw [hpc, State.goto_pc_self]
    cases op with
    | erase key => exact hok.elim
    | _ => rfl
  -- the other steps access no node, or one inside the brackets
  | invoke op hpc _ _ => rw [hpc, State.goto_pc_self]; rfl
  | newNode key val x hpc _ => rw [hpc, State.goto_pc_self]; rfl
  | search c left leftNext hpc => rw [hpc, State.goto_pc_self]; rfl
  | skip c left leftNext x y hpc => rw [hpc, State.goto_pc_self]; rfl
  | loadKey c left leftNext x nxt hpc => rw [hpc, State.goto_pc_self]; rfl
  | pass c left leftNext x y k hpc _ =>
    rw [hpc, State.goto_pc_self]
    exact inside_keyAccess
  | stop c left leftNext x nxt k hpc _ =>
    rw [hpc, State.goto_pc_self]
    exact inside_keyAccess
  | arriveTail c left leftNext hpc => rw [hpc, State.goto_pc_self]; rfl
  | arriveNull c left leftNext x hpc _ _ => rw [hpc, State.goto_pc_self]; rfl
  | arrive c left leftNext x hpc _ _ => rw [hpc, State.goto_pc_self]; rfl
  | loadNext c left leftNext x hpc => rw [hpc, State.goto_pc_self]; rfl
  | adjacent c left r hpc => rw [hpc, State.goto_pc_self]; rfl
  | casUnlink c l x r hpc _ _ => rw [hpc, State.goto_pc_self]; rfl
  | casUnlinkFail c l leftNext r hpc _ _ => rw [hpc, State.goto_pc_self]; rfl
  | walk c left x r hpc => rw [hpc, State.goto_pc_self]; rfl
  | retireNext c left x y r hpc _ => rw [hpc, State.goto_pc_self]; rfl
  | retireLast c left x r hpc => rw [hpc, State.goto_pc_self]; rfl
  | checkRetry c left r hpc _ _ => rw [hpc, State.goto_pc_self]; rfl
  | deallocate key val a hpc => rw [hpc, State.goto_pc_self]; rfl
  | storeNext key val a left r hpc => rw [hpc, State.goto_pc_self]; rfl
  | casInsert key val a l r hpc _ => rw [hpc, State.goto_pc_self]; rfl
  | casInsertFail key val a l r hpc _ => rw [hpc, State.goto_pc_self]; rfl
  | loadSuccMarked key left r hpc _ => rw [hpc, State.goto_pc_self]; rfl
  | loadSucc key left r hpc _ => rw [hpc, State.goto_pc_self]; rfl
  | casMark key left r succ hpc _ => rw [hpc, State.goto_pc_self]; rfl
  | casMarkFail key left r succ hpc _ => rw [hpc, State.goto_pc_self]; rfl
  | casErase key l r succ hpc _ => rw [hpc, State.goto_pc_self]; rfl
  | casEraseFail key l r succ hpc _ => rw [hpc, State.goto_pc_self]; rfl
  | readKey key left r hpc => rw [hpc, State.goto_pc_self]; rfl
  | retireErased key r hpc => rw [hpc, State.goto_pc_self]; rfl

theorem not_astray (h : (lts (ι := ι) cfg).Reachable s) (t : ι) : ¬ (s.pc t).Astray := by
  revert t
  refine h.invariant (P := fun s => ∀ t, ¬ (s.pc t).Astray) ?_ ?_
  · intro s hs t
    rw [hs.pc t]
    exact id
  · rintro s ⟨q, e⟩ s' - ih - hs t
    have hs : Step cfg s q e s' := hs
    by_cases ht : t = q
    · subst ht
      exact hs.not_astray
    · rw [hs.pc_of_ne ht]
      exact ih t

/-- The monitors in runs that keep the rule. -/
theorem bracket_eq {x : State α ι K V × (ι → Option Bracket)}
    (h : (brackets (lts cfg)).ReachableBy (fun x a => KeepsBrackets x.1 a) x) (t : ι) :
    x.2 t = some (x.1.pc t).bracket := by
  refine Lts.ReachableBy.monitored (v := fun s t => (s.pc t).bracket) ?_ ?_ ?_ h t
  · intro s hs t
    show (s.pc t).bracket = .idle
    rw [hs.pc t]
    rfl
  · intro s t e s' hr hs hok
    exact Step.bracket hs hok (not_astray hr.reachable t)
  · intro s t e s' hs q hq
    have hs : Step cfg s t e s' := hs
    show (s'.pc q).bracket = (s.pc q).bracket
    rw [hs.pc_of_ne hq]

end HarrisList

/-! ### All of them -/

section

variable {β α ι K V : Type} [LinearOrder K] [DecidableEq β] [DecidableEq α] [DecidableEq ι]

/-- **Operations are bracketed** in every run of the Harris–Michael lists in which no insertion
finds its key and, where `erase` calls `endOp` before it tries again, no marking CAS fails; and in
every run of Harris's list in which no deletion returns. -/
theorem brackets_kept :
    (∀ (impl : HmList.Impl β K) (cfg : HmList.Config β α K)
      (x : HmList.State β α ι K V × (ι → Option Bracket)),
      (brackets (HmList.lts impl cfg)).ReachableBy
        (fun x a => HmList.KeepsBrackets impl x.1 a) x → ∀ t, x.2 t ≠ none) ∧
    (∀ (cfg : HarrisList.Config α K V) (x : HarrisList.State α ι K V × (ι → Option Bracket)),
      (brackets (HarrisList.lts cfg)).ReachableBy
        (fun x a => HarrisList.KeepsBrackets x.1 a) x → ∀ t, x.2 t ≠ none) := by
  constructor
  · intro impl cfg x h t
    rw [HmList.bracket_eq h t]
    exact nofun
  · intro cfg x h t
    rw [HarrisList.bracket_eq h t]
    exact nofun

end

/-! ### Runs -/

section

open HmList (hmlist smallConfig smallState smallState_init)

/-- A list run by two threads. -/
def twoThreads : HmList.State Unit ℕ Bool ℕ ℕ where
  link := smallState.link
  key := smallState.key
  val := smallState.val
  allocated := smallState.allocated
  retired := []
  pc _ := .idle

theorem twoThreads_init : HmList.Init smallConfig twoThreads := by
  obtain ⟨h₁, h₂, h₃, h₄, h₅, h₆, h₇, h₈, h₉, -, -⟩ := smallState_init
  exact ⟨h₁, h₂, h₃, h₄, h₅, h₆, h₇, h₈, h₉, rfl, fun _ => rfl⟩

/-- A first insertion keeps the rule. -/
theorem inserts_bracketed : ∃ x : HmList.State Unit ℕ Unit ℕ ℕ × (Unit → Option Bracket),
    (brackets (HmList.lts (hmlist ℕ) smallConfig)).ReachableBy
        (fun x a => HmList.KeepsBrackets (hmlist ℕ) x.1 a) x ∧ x.1.allocated 2 = true := by
  have h : (brackets (HmList.lts (hmlist ℕ) smallConfig)).ReachableBy
      (fun x a => HmList.KeepsBrackets (hmlist ℕ) x.1 a) (smallState, fun _ => some .idle) :=
    .init ⟨smallState_init, fun _ => rfl⟩
  have h := h.step_monitored (a := ((), _))
    (.invoke (.insert 5 7) rfl (by decide) (by decide)) (by trivial)
  have h := h.step_monitored (a := ((), _)) (.startOp (.insert 5 7) rfl) (by trivial)
  have h := h.step_monitored (a := ((), _)) (.newNode 5 7 2 rfl rfl) (by trivial)
  have h := h.step_monitored (a := ((), _)) (.search (.insert 5 7 2) (some 0) rfl rfl) (by trivial)
  have h := h.step_monitored (a := ((), _)) (.loop (.insert 5 7 2) (.head ()) 0 rfl) (by trivial)
  have h := h.step_monitored (a := ((), _))
    (.recheck (.insert 5 7 2) (.head ()) 0 ⟨some 1, false⟩ rfl rfl) (by trivial)
  have h := h.step_monitored (a := ((), _))
    (.readKey (.insert 5 7 2) (.head ()) 0 ⟨some 1, false⟩ rfl) (by trivial)
  have h := h.step_monitored (a := ((), _))
    (.advance (.insert 5 7 2) (.head ()) 0 (some 1) 0 rfl rfl (by decide)) (by trivial)
  have h := h.step_monitored (a := ((), _)) (.loop (.insert 5 7 2) (.next 0) 1 rfl) (by trivial)
  have h := h.step_monitored (a := ((), _))
    (.recheck (.insert 5 7 2) (.next 0) 1 ⟨none, false⟩ rfl rfl) (by trivial)
  have h := h.step_monitored (a := ((), _))
    (.readKey (.insert 5 7 2) (.next 0) 1 ⟨none, false⟩ rfl) (by trivial)
  have h := h.step_monitored (a := ((), _))
    (.notFound (.insert 5 7 2) (.next 0) 1 (none) 100 rfl rfl (by decide)) (by trivial)
  have h := h.step_monitored (a := ((), _)) (.storeNext 5 7 2 (.next 0) (some 1) rfl) (by trivial)
  have h := h.step_monitored (a := ((), _)) (.casInsert 5 7 2 (.next 0) (some 1) rfl rfl) (by trivial)
  have h := h.step_monitored (a := ((), _)) (.endOp (.insert 5 7) (.value none) rfl) (by trivial)
  have h := h.step_monitored (a := ((), _)) (.ret (.insert 5 7) (.value none) rfl) (by trivial)
  exact ⟨_, h, rfl⟩

/-- Its monitor has not failed. -/
theorem brackets_kept_insert : ∃ x : HmList.State Unit ℕ Unit ℕ ℕ × (Unit → Option Bracket),
    x.1.allocated 2 = true ∧ x.2 () ≠ none := by
  obtain ⟨x, h, hx⟩ := inserts_bracketed
  exact ⟨x, hx, brackets_kept.1 _ _ x h ()⟩

/-- A second insertion of a key reads `curr->val` after `endOp`. -/
theorem insert_unbracketed : ∃ x : HmList.State Unit ℕ Unit ℕ ℕ × (Unit → Option Bracket),
    (brackets (HmList.lts (hmlist ℕ) smallConfig)).Reachable x ∧ x.2 () = none := by
  have h := Lts.Reachable.init (M := brackets (HmList.lts (hmlist ℕ) smallConfig))
    (s := (smallState, fun _ => some .idle)) ⟨smallState_init, fun _ => rfl⟩
  -- the key 5 is inserted
  have h := h.step_monitored (a := ((), _)) (.invoke (.insert 5 7) rfl (by decide) (by decide))
  have h := h.step_monitored (a := ((), _)) (.startOp (.insert 5 7) rfl)
  have h := h.step_monitored (a := ((), _)) (.newNode 5 7 2 rfl rfl)
  have h := h.step_monitored (a := ((), _)) (.search (.insert 5 7 2) (some 0) rfl rfl)
  have h := h.step_monitored (a := ((), _)) (.loop (.insert 5 7 2) (.head ()) 0 rfl)
  have h := h.step_monitored (a := ((), _))
    (.recheck (.insert 5 7 2) (.head ()) 0 ⟨some 1, false⟩ rfl rfl)
  have h := h.step_monitored (a := ((), _))
    (.readKey (.insert 5 7 2) (.head ()) 0 ⟨some 1, false⟩ rfl)
  have h := h.step_monitored (a := ((), _))
    (.advance (.insert 5 7 2) (.head ()) 0 (some 1) 0 rfl rfl (by decide))
  have h := h.step_monitored (a := ((), _)) (.loop (.insert 5 7 2) (.next 0) 1 rfl)
  have h := h.step_monitored (a := ((), _))
    (.recheck (.insert 5 7 2) (.next 0) 1 ⟨none, false⟩ rfl rfl)
  have h := h.step_monitored (a := ((), _)) (.readKey (.insert 5 7 2) (.next 0) 1 ⟨none, false⟩ rfl)
  have h := h.step_monitored (a := ((), _))
    (.notFound (.insert 5 7 2) (.next 0) 1 (none) 100 rfl rfl (by decide))
  have h := h.step_monitored (a := ((), _)) (.storeNext 5 7 2 (.next 0) (some 1) rfl)
  have h := h.step_monitored (a := ((), _)) (.casInsert 5 7 2 (.next 0) (some 1) rfl rfl)
  have h := h.step_monitored (a := ((), _)) (.endOp (.insert 5 7) (.value none) rfl)
  have h := h.step_monitored (a := ((), _)) (.ret (.insert 5 7) (.value none) rfl)
  -- it is inserted again, and its value is read after `endOp`
  have h := h.step_monitored (a := ((), _)) (.invoke (.insert 5 8) rfl (by decide) (by decide))
  have h := h.step_monitored (a := ((), _)) (.startOp (.insert 5 8) rfl)
  have h := h.step_monitored (a := ((), _)) (.newNode 5 8 3 rfl rfl)
  have h := h.step_monitored (a := ((), _)) (.search (.insert 5 8 3) (some 0) rfl rfl)
  have h := h.step_monitored (a := ((), _)) (.loop (.insert 5 8 3) (.head ()) 0 rfl)
  have h := h.step_monitored (a := ((), _))
    (.recheck (.insert 5 8 3) (.head ()) 0 ⟨some 2, false⟩ rfl rfl)
  have h := h.step_monitored (a := ((), _))
    (.readKey (.insert 5 8 3) (.head ()) 0 ⟨some 2, false⟩ rfl)
  have h := h.step_monitored (a := ((), _))
    (.advance (.insert 5 8 3) (.head ()) 0 (some 2) 0 rfl rfl (by decide))
  have h := h.step_monitored (a := ((), _)) (.loop (.insert 5 8 3) (.next 0) 2 rfl)
  have h := h.step_monitored (a := ((), _))
    (.recheck (.insert 5 8 3) (.next 0) 2 ⟨some 1, false⟩ rfl rfl)
  have h := h.step_monitored (a := ((), _))
    (.readKey (.insert 5 8 3) (.next 0) 2 ⟨some 1, false⟩ rfl)
  have h := h.step_monitored (a := ((), _))
    (.found (.insert 5 8 3) (.next 0) 2 (some 1) 5 rfl rfl rfl)
  have h := h.step_monitored (a := ((), _)) (.deallocate 5 8 3 2 rfl)
  have h := h.step_monitored (a := ((), _)) (.endFound 5 8 2 rfl)
  have h := h.step_monitored (a := ((), _)) (.readFound 5 8 2 rfl)
  exact ⟨_, h, rfl⟩

/-- A deletion whose marking CAS fails, since a node was linked behind its node, goes on after
`endOp`. -/
theorem erase_unbracketed : ∃ x : HmList.State Unit ℕ Bool ℕ ℕ × (Bool → Option Bracket),
    (brackets (HmList.lts (hmlist ℕ) smallConfig)).Reachable x ∧ x.2 true = none := by
  have h := Lts.Reachable.init (M := brackets (HmList.lts (hmlist ℕ) smallConfig))
    (s := (twoThreads, fun _ => some .idle)) ⟨twoThreads_init, fun _ => rfl⟩
  -- the first thread inserts the key 5
  have h := h.step_monitored (a := (true, _)) (.invoke (.insert 5 7) rfl (by decide) (by decide))
  have h := h.step_monitored (a := (true, _)) (.startOp (.insert 5 7) rfl)
  have h := h.step_monitored (a := (true, _)) (.newNode 5 7 2 rfl rfl)
  have h := h.step_monitored (a := (true, _)) (.search (.insert 5 7 2) (some 0) rfl rfl)
  have h := h.step_monitored (a := (true, _)) (.loop (.insert 5 7 2) (.head ()) 0 rfl)
  have h := h.step_monitored (a := (true, _))
    (.recheck (.insert 5 7 2) (.head ()) 0 ⟨some 1, false⟩ rfl rfl)
  have h := h.step_monitored (a := (true, _))
    (.readKey (.insert 5 7 2) (.head ()) 0 ⟨some 1, false⟩ rfl)
  have h := h.step_monitored (a := (true, _))
    (.advance (.insert 5 7 2) (.head ()) 0 (some 1) 0 rfl rfl (by decide))
  have h := h.step_monitored (a := (true, _)) (.loop (.insert 5 7 2) (.next 0) 1 rfl)
  have h := h.step_monitored (a := (true, _))
    (.recheck (.insert 5 7 2) (.next 0) 1 ⟨none, false⟩ rfl rfl)
  have h := h.step_monitored (a := (true, _))
    (.readKey (.insert 5 7 2) (.next 0) 1 ⟨none, false⟩ rfl)
  have h := h.step_monitored (a := (true, _))
    (.notFound (.insert 5 7 2) (.next 0) 1 (none) 100 rfl rfl (by decide))
  have h := h.step_monitored (a := (true, _)) (.storeNext 5 7 2 (.next 0) (some 1) rfl)
  have h := h.step_monitored (a := (true, _)) (.casInsert 5 7 2 (.next 0) (some 1) rfl rfl)
  have h := h.step_monitored (a := (true, _)) (.endOp (.insert 5 7) (.value none) rfl)
  have h := h.step_monitored (a := (true, _)) (.ret (.insert 5 7) (.value none) rfl)
  -- it looks for the key to delete it, and is about to mark the node
  have h := h.step_monitored (a := (true, _)) (.invoke (.erase 5) rfl (by decide) (by decide))
  have h := h.step_monitored (a := (true, _)) (.startOp (.erase 5) rfl)
  have h := h.step_monitored (a := (true, _)) (.search (.erase 5) (some 0) rfl rfl)
  have h := h.step_monitored (a := (true, _)) (.loop (.erase 5) (.head ()) 0 rfl)
  have h := h.step_monitored (a := (true, _))
    (.recheck (.erase 5) (.head ()) 0 ⟨some 2, false⟩ rfl rfl)
  have h := h.step_monitored (a := (true, _)) (.readKey (.erase 5) (.head ()) 0 ⟨some 2, false⟩ rfl)
  have h := h.step_monitored (a := (true, _))
    (.advance (.erase 5) (.head ()) 0 (some 2) 0 rfl rfl (by decide))
  have h := h.step_monitored (a := (true, _)) (.loop (.erase 5) (.next 0) 2 rfl)
  have h := h.step_monitored (a := (true, _))
    (.recheck (.erase 5) (.next 0) 2 ⟨some 1, false⟩ rfl rfl)
  have h := h.step_monitored (a := (true, _)) (.readKey (.erase 5) (.next 0) 2 ⟨some 1, false⟩ rfl)
  have h := h.step_monitored (a := (true, _)) (.found (.erase 5) (.next 0) 2 (some 1) 5 rfl rfl rfl)
  have h := h.step_monitored (a := (true, _)) (.readVal 5 (.next 0) 2 (some 1) rfl)
  -- meanwhile the second thread inserts the key 6 behind it
  have h := h.step_monitored (a := (false, _)) (.invoke (.insert 6 7) rfl (by decide) (by decide))
  have h := h.step_monitored (a := (false, _)) (.startOp (.insert 6 7) rfl)
  have h := h.step_monitored (a := (false, _)) (.newNode 6 7 3 rfl rfl)
  have h := h.step_monitored (a := (false, _)) (.search (.insert 6 7 3) (some 0) rfl rfl)
  have h := h.step_monitored (a := (false, _)) (.loop (.insert 6 7 3) (.head ()) 0 rfl)
  have h := h.step_monitored (a := (false, _))
    (.recheck (.insert 6 7 3) (.head ()) 0 ⟨some 2, false⟩ rfl rfl)
  have h := h.step_monitored (a := (false, _))
    (.readKey (.insert 6 7 3) (.head ()) 0 ⟨some 2, false⟩ rfl)
  have h := h.step_monitored (a := (false, _))
    (.advance (.insert 6 7 3) (.head ()) 0 (some 2) 0 rfl rfl (by decide))
  have h := h.step_monitored (a := (false, _)) (.loop (.insert 6 7 3) (.next 0) 2 rfl)
  have h := h.step_monitored (a := (false, _))
    (.recheck (.insert 6 7 3) (.next 0) 2 ⟨some 1, false⟩ rfl rfl)
  have h := h.step_monitored (a := (false, _))
    (.readKey (.insert 6 7 3) (.next 0) 2 ⟨some 1, false⟩ rfl)
  have h := h.step_monitored (a := (false, _))
    (.advance (.insert 6 7 3) (.next 0) 2 (some 1) 5 rfl rfl (by decide))
  have h := h.step_monitored (a := (false, _)) (.loop (.insert 6 7 3) (.next 2) 1 rfl)
  have h := h.step_monitored (a := (false, _))
    (.recheck (.insert 6 7 3) (.next 2) 1 ⟨none, false⟩ rfl rfl)
  have h := h.step_monitored (a := (false, _))
    (.readKey (.insert 6 7 3) (.next 2) 1 ⟨none, false⟩ rfl)
  have h := h.step_monitored (a := (false, _))
    (.notFound (.insert 6 7 3) (.next 2) 1 (none) 100 rfl rfl (by decide))
  have h := h.step_monitored (a := (false, _)) (.storeNext 6 7 3 (.next 2) (some 1) rfl)
  have h := h.step_monitored (a := (false, _)) (.casInsert 6 7 3 (.next 2) (some 1) rfl rfl)
  -- so the CAS fails: the first thread goes on after `endOp`
  have h := h.step_monitored (a := (true, _))
    (.casMarkFail 5 (.next 0) 2 (some 1) 7 rfl (by decide))
  have h := h.step_monitored (a := (true, _)) (.endRetry 5 rfl)
  have h := h.step_monitored (a := (true, _)) (.search (.erase 5) (some 0) rfl rfl)
  have h := h.step_monitored (a := (true, _)) (.loop (.erase 5) (.head ()) 0 rfl)
  exact ⟨_, h, rfl⟩

/-- A deletion in Harris's list returns without `endOp`. -/
theorem harrisErase_unbracketed : ∃ x : HarrisList.State ℕ Unit ℕ ℕ × (Unit → Option Bracket),
    (brackets (HarrisList.lts HarrisList.smallConfig)).Reachable x ∧ x.2 () = none := by
  have h := Lts.Reachable.init (M := brackets (HarrisList.lts HarrisList.smallConfig))
    (s := (HarrisList.smallState, fun _ => some .idle)) ⟨HarrisList.smallState_init, fun _ => rfl⟩
  have h := h.step_monitored (a := ((), _)) (.invoke (.erase 5) rfl (by decide) (by decide))
  have h := h.step_monitored (a := ((), _)) (.startOp (.erase 5) rfl)
  have h := h.step_monitored (a := ((), _)) (.search (.erase 5) none none rfl)
  have h := h.step_monitored (a := ((), _)) (.loadKey (.erase 5) none none 0 (some 1) rfl)
  have h := h.step_monitored (a := ((), _)) (.pass (.erase 5) none none 0 1 0 rfl (by decide))
  have h := h.step_monitored (a := ((), _)) (.arriveTail (.erase 5) (some 0) (some 1) rfl)
  have h := h.step_monitored (a := ((), _)) (.adjacent (.erase 5) (some 0) 1 rfl)
  have h := h.step_monitored (a := ((), _)) (.checkTail (.erase 5) (some 0) rfl)
  have h := h.step_monitored (a := ((), _)) (.testTail (.erase 5) (some 0) rfl)
  have h := h.step_monitored (a := ((), _)) (.ret (.erase 5) (.value none) rfl)
  exact ⟨_, h, rfl⟩

/-- **The rule is broken** on each of the three paths. -/
theorem brackets_broken :
    (∃ x : HmList.State Unit ℕ Unit ℕ ℕ × (Unit → Option Bracket),
      (brackets (HmList.lts (hmlist ℕ) smallConfig)).Reachable x ∧ x.2 () = none) ∧
    (∃ x : HmList.State Unit ℕ Bool ℕ ℕ × (Bool → Option Bracket),
      (brackets (HmList.lts (hmlist ℕ) smallConfig)).Reachable x ∧ x.2 true = none) ∧
    (∃ x : HarrisList.State ℕ Unit ℕ ℕ × (Unit → Option Bracket),
      (brackets (HarrisList.lts HarrisList.smallConfig)).Reachable x ∧ x.2 () = none) :=
  ⟨insert_unbracketed, erase_unbracketed, harrisErase_unbracketed⟩

end

end PopSetbench

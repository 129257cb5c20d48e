import PopSetbench.Ds.HmListNzb
import PopSetbench.Ds.HmListLinear

/-!
# What the Harris–Michael list saves

Under NBR the list keeps the rule of the write phase in runs in which no search arrives in its
write phase about to use `prev` (`nzb_saved`): where `prev` is a field of a node, that node was not
saved, and already the first CAS of an insertion breaks the rule (`nzb_unsaved`).
-/

namespace PopSetbench
namespace HmListNzb

open Function
open HmList (Call Config)

variable {α ι K V : Type}

/-- What is asked for the writes of the list; it has no sentinels to spare. -/
def writeRule (α : Type) : WriteRule α := ⟨false, fun _ => false⟩

/-- In its write phase the search, or the insertion it is for, goes on with a CAS on `prev`. -/
def UsesPrev (c : Call α K V) : Find α → Prop
  | .marked _ _ => True
  | .hit _ _ => False
  | _ => ∃ key val newNode, c = .insert key val newNode

/-- The step does not lead to a CAS on a link of a node that was not saved: a search that becomes
unrestartable is not about to use `prev`, and no marking CAS succeeds. -/
def KeepsSaved (s : State α ι K V) (a : ι × NbrEvent α) : Prop :=
  match s.pc a.1 with
  | .upgrade c prev f => prev.owner = none ∨ ¬ UsesPrev c f
  | .casMark _ prev x nxt _ => prev.owner = none ∨ s.link (.next x) ≠ ⟨nxt, false⟩
  | _ => True

theorem KeepsSaved.of_casMark {s : State α ι K V} {t : ι} {e : NbrEvent α} {key : K}
    {prev : Link α} {x : α} {nxt : Option α} {res : V} (hpc : s.pc t = .casMark key prev x nxt res)
    (h : s.link (.next x) ≠ ⟨nxt, false⟩) : KeepsSaved s (t, e) := by
  unfold KeepsSaved
  rw [hpc]
  exact .inr h

/-- The node that was allocated for a search. -/
def nodeOf : Call α K V → Option α
  | .insert _ _ newNode => some newNode
  | _ => none

/-- The node a thread has allocated and not yet linked. -/
def Pc.new : Pc α K V → Option α
  | .search c => nodeOf c
  | .loadHead c => nodeOf c
  | .loop c _ _ => nodeOf c
  | .recheck c _ _ _ => nodeOf c
  | .readKey c _ _ _ => nodeOf c
  | .checkPrev c _ _ _ _ => nodeOf c
  | .endSearch c => nodeOf c
  | .savePrev c _ _ => nodeOf c
  | .saveCurr c _ _ => nodeOf c
  | .saveNext c _ _ => nodeOf c
  | .upgrade c _ _ => nodeOf c
  | .casHelp c _ _ _ => nodeOf c
  | .retireHelped c _ => nodeOf c
  | .endHelp c => nodeOf c
  | .storeNext _ _ a _ _ => some a
  | .casInsert _ _ a _ _ => some a
  | _ => none

/-- The node a thread has saved and is going to write. -/
def Pc.saves : Pc α K V → Option α
  | .saveNext _ _ f => f.curr
  | .upgrade _ _ f => f.curr
  | .readVal _ _ x _ => some x
  | .casMark _ _ x _ _ => some x
  | _ => none

/-- The link a thread is going to use in its write phase. -/
def Pc.uses : Pc α K V → Option (Link α)
  | .casHelp _ prev _ _ => some prev
  | .storeNext _ _ _ prev _ => some prev
  | .casInsert _ _ _ prev _ => some prev
  | .casUnlink _ prev _ _ _ => some prev
  | _ => none

/-- What the monitor of a thread knows. -/
structure Knows (p : Pc α K V) (m : Attempt α) : Prop where
  own : ∀ a, p.new = some a → a ∈ m.own
  saved : ∀ x, p.saves = some x → x ∈ m.saved
  /-- The link is no field of a node. -/
  uses : ∀ l, p.uses = some l → l.owner = none

/-- The signal handler keeps the node that was allocated. -/
theorem new_of_checkpoint {p : Pc α K V} {c : Call α K V} (h : p.checkpoint = some c) :
    p.new = nodeOf c := by
  unfold Pc.checkpoint at h
  split at h
  all_goals first
    | exact congrArg nodeOf (Option.some.inj h)
    | cases h

theorem Knows.idle {m : Attempt α} : Knows (.idle : Pc α K V) m :=
  ⟨nofun, nofun, nofun⟩

/-- A place from which nothing more is known than from the one before. -/
theorem Knows.next {p p' : Pc α K V} {m m' : Attempt α} (h : Knows p m) (hown : m'.own = m.own)
    (hnew : p'.new = p.new ∨ p'.new = none) (hsaves : p'.saves = none) (huses : p'.uses = none) :
    Knows p' m' := by
  refine ⟨fun a ha => ?_, fun x hx => ?_, fun l hl => ?_⟩
  · rw [hown]
    rcases hnew with hn | hn
    · exact h.own a (hn ▸ ha)
    · rw [hn] at ha
      cases ha
  · rw [hsaves] at hx
    cases hx
  · rw [huses] at hl
    cases hl

/-- The write phase uses no link of a node where the rule is kept. -/
theorem Knows.write {c : Call α K V} {prev : Link α} {f : Find α} {m : Attempt α}
    (h : Knows (.upgrade c prev f) m) (hok : prev.owner = none ∨ ¬ UsesPrev c f) :
    Knows (write c prev f) { m with writing := true } := by
  have hlink : ∀ l, (some prev : Option (Link α)) = some l → UsesPrev c f → l.owner = none := by
    rintro l hl hu
    obtain rfl := Option.some.inj hl
    exact hok.resolve_right fun hn => hn hu
  cases f with
  | null =>
    cases c with
    | insert key val a => exact ⟨h.own, nofun, fun l hl => hlink l hl ⟨_, _, _, rfl⟩⟩
    | _ => exact ⟨nofun, nofun, nofun⟩
  | miss x nxt =>
    cases c with
    | insert key val a => exact ⟨h.own, nofun, fun l hl => hlink l hl ⟨_, _, _, rfl⟩⟩
    | _ => exact ⟨nofun, nofun, nofun⟩
  | marked x nxt => exact ⟨h.own, nofun, fun l hl => hlink l hl trivial⟩
  | hit x nxt =>
    -- the key is there: only an erasure goes on, with the node that was saved as `curr`
    cases c with
    | erase key => exact ⟨nofun, h.saved, nofun⟩
    | _ => exact ⟨nofun, nofun, nofun⟩

variable [LinearOrder K] [DecidableEq α] [DecidableEq ι] {cfg : Config Unit α K}
  {s s' : State α ι K V} {t : ι} {e : NbrEvent α}

theorem next_read {m : Attempt α} {x : Option α} : m.next (writeRule α) (.read x) = some m :=
  Attempt.next_read nofun

/-- A step does what the monitor does. -/
theorem Step.follows {m : Attempt α} (h : Step cfg s t e s') (hok : KeepsSaved s (t, e))
    (hm : Knows (s.pc t) m) :
    ∃ m', m.next (writeRule α) e = some m' ∧ Knows (s'.pc t) m' := by
  unfold KeepsSaved at hok
  cases h with
  | free x hx => exact ⟨m, rfl, hm⟩
  | invoke op hpc hmin hmax =>
    -- `invoke` opens an attempt: the monitor starts afresh
    rw [State.goto_pc_self]
    rw [hpc] at hm
    cases op <;> exact ⟨m, rfl, hm.next rfl (.inr rfl) rfl rfl⟩
  | newNode key val x hpc hx =>
    -- the new node is the thread's own until it is linked
    rw [State.goto_pc_self]
    refine ⟨_, rfl, fun a ha => ?_, nofun, nofun⟩
    obtain rfl := Option.some.inj ha
    exact List.mem_cons_self
  | restart c hpc =>
    -- a checkpoint forgets what was saved, but keeps the new node
    rw [State.goto_pc_self]
    exact ⟨_, rfl, hm.next rfl (.inl (new_of_checkpoint hpc).symm) rfl rfl⟩
  | saveCurr c prev f hpc =>
    -- `saveCurr` is the only save that a later write relies on
    rw [State.goto_pc_self]
    rw [hpc] at hm
    refine ⟨_, rfl, hm.own, fun x hx => ?_, nofun⟩
    have hx : f.curr = some x := hx
    show x ∈ f.curr.toList ++ m.saved
    rw [hx]
    exact List.mem_cons_self
  | saveNext c prev f hpc =>
    rw [State.goto_pc_self]
    rw [hpc] at hm
    exact ⟨_, rfl, hm.own, fun x hx => List.mem_append_right _ (hm.saved x hx), nofun⟩
  | loopNull c prev hpc =>
    rw [State.goto_pc_self]
    rw [hpc] at hm
    exact ⟨_, rfl, hm.own, nofun, nofun⟩
  | upgrade c prev f hpc =>
    -- the write phase begins: the writer knows whether the link to write had to be saved
    rw [State.goto_pc_self]
    rw [hpc] at hm hok
    exact ⟨_, rfl, hm.write hok⟩
  | casHelp c prev x nxt hpc hl =>
    -- the links that are written are those that `upgrade` left open
    rw [State.goto_pc_self]
    rw [hpc] at hm
    rw [hm.uses prev rfl]
    exact ⟨m, Attempt.next_write Attempt.allows_none, hm.next rfl (.inl rfl) rfl rfl⟩
  | casHelpFail c prev x nxt hpc hl =>
    rw [State.goto_pc_self]
    rw [hpc] at hm
    rw [hm.uses prev rfl]
    exact ⟨m, Attempt.next_write Attempt.allows_none, hm.next rfl (.inl rfl) rfl rfl⟩
  | storeNext key val a prev curr hpc =>
    -- a node of the thread's own may be written without being saved
    rw [State.goto_pc_self]
    rw [hpc] at hm
    have ha := Attempt.allows_of_own (R := writeRule α) (hm.own a rfl)
    exact ⟨m, Attempt.next_write ha, hm.own, nofun, hm.uses⟩
  | casInsert key val a prev curr hpc hl =>
    rw [State.goto_pc_self]
    rw [hpc] at hm
    rw [hm.uses prev rfl]
    exact ⟨_, Attempt.next_link Attempt.allows_none, nofun, nofun, nofun⟩
  | casInsertFail key val a prev curr hpc hl =>
    rw [State.goto_pc_self]
    rw [hpc] at hm
    rw [hm.uses prev rfl]
    exact ⟨m, Attempt.next_write Attempt.allows_none, hm.next rfl (.inl rfl) rfl rfl⟩
  | readVal key prev x nxt hpc =>
    rw [State.goto_pc_self]
    rw [hpc] at hm
    exact ⟨m, next_read, nofun, hm.saved, nofun⟩
  | casMark key prev x nxt res hpc hl =>
    -- `curr` was saved; that the CAS writes the right link is what `KeepsSaved` says of this step
    rw [State.goto_pc_self]
    rw [hpc] at hm hok
    have hx := Attempt.allows_of_saved (R := writeRule α) (hm.saved x rfl)
    refine ⟨m, Attempt.next_write hx, nofun, nofun, fun l hl' => ?_⟩
    obtain rfl := Option.some.inj hl'
    exact hok.resolve_right fun hn => hn hl
  | casMarkFail key prev x nxt res hpc hl =>
    rw [State.goto_pc_self]
    rw [hpc] at hm
    have hx := Attempt.allows_of_saved (R := writeRule α) (hm.saved x rfl)
    exact ⟨m, Attempt.next_write hx, hm.next rfl (.inl rfl) rfl rfl⟩
  | casUnlink key prev x nxt res hpc hl =>
    -- the own marked node is unlinked through the same link
    rw [State.goto_pc_self]
    rw [hpc] at hm
    rw [hm.uses prev rfl]
    exact ⟨m, Attempt.next_write Attempt.allows_none, hm.next rfl (.inl rfl) rfl rfl⟩
  | casUnlinkFail key prev x nxt res hpc hl =>
    rw [State.goto_pc_self]
    rw [hpc] at hm
    rw [hm.uses prev rfl]
    exact ⟨m, Attempt.next_write Attempt.allows_none, hm.next rfl (.inl rfl) rfl rfl⟩
  | deallocate key val a x hpc =>
    rw [State.goto_pc_self]
    exact ⟨_, rfl, nofun, nofun, nofun⟩
  | loop c prev x hpc =>
    -- a read is free in either phase
    rw [State.goto_pc_self]
    rw [hpc] at hm
    exact ⟨m, next_read, hm.next rfl (.inl rfl) rfl rfl⟩
  | recheckFail c prev x nxt hpc _ =>
    rw [State.goto_pc_self]
    rw [hpc] at hm
    exact ⟨m, next_read, hm.next rfl (.inl rfl) rfl rfl⟩
  | recheck c prev x nxt hpc _ =>
    rw [State.goto_pc_self]
    rw [hpc] at hm
    exact ⟨m, next_read, hm.next rfl (.inl rfl) rfl rfl⟩
  | readKey c prev x nxt hpc =>
    rw [State.goto_pc_self]
    rw [hpc] at hm
    exact ⟨m, next_read, hm.next rfl (.inl rfl) rfl rfl⟩
  | checkPrevFail c prev x nxt ckey hpc _ =>
    rw [State.goto_pc_self]
    rw [hpc] at hm
    exact ⟨m, next_read, hm.next rfl (.inl rfl) rfl rfl⟩
  | advance c prev x nxt ckey hpc _ _ =>
    rw [State.goto_pc_self]
    rw [hpc] at hm
    exact ⟨m, next_read, hm.next rfl (.inl rfl) rfl rfl⟩
  | hit c prev x nxt ckey hpc _ _ =>
    rw [State.goto_pc_self]
    rw [hpc] at hm
    exact ⟨m, next_read, hm.next rfl (.inl rfl) rfl rfl⟩
  | miss c prev x nxt ckey hpc _ _ =>
    rw [State.goto_pc_self]
    rw [hpc] at hm
    exact ⟨m, next_read, hm.next rfl (.inl rfl) rfl rfl⟩
  | marked c prev x nxt ckey hpc _ =>
    rw [State.goto_pc_self]
    rw [hpc] at hm
    exact ⟨m, next_read, hm.next rfl (.inl rfl) rfl rfl⟩
  | startOp c hpc =>
    rw [State.goto_pc_self]
    rw [hpc] at hm
    exact ⟨_, rfl, hm.next rfl (.inl rfl) rfl rfl⟩
  | loadHead c curr hpc _ =>
    rw [State.goto_pc_self]
    rw [hpc] at hm
    exact ⟨_, rfl, hm.next rfl (.inl rfl) rfl rfl⟩
  | endSearch c hpc =>
    rw [State.goto_pc_self]
    rw [hpc] at hm
    exact ⟨_, rfl, hm.next rfl (.inl rfl) rfl rfl⟩
  | savePrev c prev f hpc =>
    rw [State.goto_pc_self]
    rw [hpc] at hm
    exact ⟨_, rfl, hm.next rfl (.inl rfl) rfl rfl⟩
  | retireHelped c x hpc =>
    rw [State.goto_pc_self]
    rw [hpc] at hm
    exact ⟨_, rfl, hm.next rfl (.inl rfl) rfl rfl⟩
  | endHelp c hpc =>
    rw [State.goto_pc_self]
    rw [hpc] at hm
    exact ⟨_, rfl, hm.next rfl (.inl rfl) rfl rfl⟩
  -- after the operation nothing is known and nothing is needed
  | endFound key val x hpc => rw [State.goto_pc_self]; exact ⟨_, rfl, nofun, nofun, nofun⟩
  | readFound key val x hpc => rw [State.goto_pc_self]; exact ⟨m, next_read, nofun, nofun, nofun⟩
  | endRetry key hpc => rw [State.goto_pc_self]; exact ⟨_, rfl, nofun, nofun, nofun⟩
  | retireErased key x res hpc => rw [State.goto_pc_self]; exact ⟨_, rfl, nofun, nofun, nofun⟩
  | endUnlink key res x hpc => rw [State.goto_pc_self]; exact ⟨_, rfl, nofun, nofun, nofun⟩
  | endOp op r hpc => rw [State.goto_pc_self]; exact ⟨_, rfl, nofun, nofun, nofun⟩
  | ret op r hpc => rw [State.goto_pc_self]; exact ⟨_, rfl, nofun, nofun, nofun⟩

/-- The other threads stay where they are. -/
theorem Step.pc_of_ne (h : Step cfg s t e s') {q : ι} (hq : q ≠ t) : s'.pc q = s.pc q := by
  cases h with
  | free x hx => rfl
  | _ => exact State.goto_pc_of_ne hq

/-- The monitor of a thread that keeps the rule. -/
theorem exists_knows {x : State α ι K V × (ι → Option (Attempt α))}
    (h : (writePhases (writeRule α) (lts cfg)).ReachableBy
      (fun x a => a.1 = t → KeepsSaved x.1 a) x) :
    ∃ m, x.2 t = some m ∧ Knows (x.1.pc t) m := by
  refine Lts.ReachableBy.monitored_rel (R := fun s m => Knows (s.pc t) m)
    (p := fun s a => a.1 = t → KeepsSaved s a) ?_ ?_ ?_ h
  · intro s hs
    rw [hs.pc t]
    exact .idle
  · intro s e s' m hr hs hok hm
    exact Step.follows hs (hok rfl) hm
  · intro s q e s' m hs hq hm
    have hs : Step cfg s q e s' := hs
    rw [hs.pc_of_ne hq]
    exact hm

/-- **What a thread writes in its write phases was saved**, or is a node of the operation itself,
in every run in which it does not become unrestartable about to use a link of a node and does not
mark a node. The other threads do what they like. -/
theorem nzb_saved (cfg : Config Unit α K) (t : ι) (x : State α ι K V × (ι → Option (Attempt α)))
    (h : (writePhases (writeRule α) (lts cfg)).ReachableBy
      (fun x a => a.1 = t → KeepsSaved x.1 a) x) :
    x.2 t ≠ none := by
  obtain ⟨m, hm, -⟩ := exists_knows h
  rw [hm]
  exact nofun

/-! ### Runs -/

section

open HmList (smallConfig)

/-- The list after the constructor, run by two threads. -/
def emptyList : State ℕ Bool ℕ ℕ where
  link
    | .head _ => ⟨some 0, false⟩
    | .next 0 => ⟨some 1, false⟩
    | .next _ => ⟨none, false⟩
  key x := bif x = 0 then 0 else 100
  val _ := 0
  allocated x := decide (x < 2)
  retired := []
  pc _ := .idle

theorem emptyList_init : Init smallConfig emptyList := by
  refine ⟨rfl, rfl, rfl, rfl, rfl, fun x => ?_, rfl, fun _ => rfl⟩
  show decide (x < 2) = true ↔ x = 0 ∨ x = 1
  rw [decide_eq_true_iff]
  omega

/-- The list after the insertion of one key. -/
def oneKey : State ℕ Bool ℕ ℕ where
  link
    | .head _ => ⟨some 0, false⟩
    | .next 0 => ⟨some 2, false⟩
    | .next 2 => ⟨some 1, false⟩
    | .next _ => ⟨none, false⟩
  key
    | 0 => 0
    | 2 => 5
    | _ => 100
  val x := bif x = 2 then 7 else 0
  allocated x := decide (x < 3)
  retired := []
  pc _ := .idle

/-- The other thread inserts the key. -/
theorem oneKey_reached {p : State ℕ Bool ℕ ℕ × (Bool → Option (Attempt ℕ)) →
    Bool × NbrEvent ℕ → Prop} (hp : ∀ x e, p x (false, e)) :
    ∃ m, (writePhases (writeRule ℕ) (lts smallConfig)).ReachableBy p (oneKey, m) ∧
      m true = some .start := by
  have h : (writePhases (writeRule ℕ) (lts smallConfig)).ReachableBy p
      (emptyList, fun _ => some .start) := .init ⟨emptyList_init, fun _ => rfl⟩
  -- the key is not found
  have h := h.step_monitored (a := (false, _))
    (.invoke (.insert 5 7) rfl (by decide) (by decide)) (hp _ _)
  have h := h.step_monitored (a := (false, _)) (.newNode 5 7 2 rfl rfl) (hp _ _)
  have h := h.step_monitored (a := (false, _)) (.startOp (.insert 5 7 2) rfl) (hp _ _)
  have h := h.step_monitored (a := (false, _))
    (.loadHead (.insert 5 7 2) (some 0) rfl rfl) (hp _ _)
  have h := h.step_monitored (a := (false, _)) (.loop (.insert 5 7 2) (.head ()) 0 rfl) (hp _ _)
  have h := h.step_monitored (a := (false, _))
    (.recheck (.insert 5 7 2) (.head ()) 0 ⟨some 1, false⟩ rfl rfl) (hp _ _)
  have h := h.step_monitored (a := (false, _))
    (.readKey (.insert 5 7 2) (.head ()) 0 ⟨some 1, false⟩ rfl) (hp _ _)
  have h := h.step_monitored (a := (false, _))
    (.advance (.insert 5 7 2) (.head ()) 0 (some 1) 0 rfl rfl (by decide)) (hp _ _)
  have h := h.step_monitored (a := (false, _)) (.loop (.insert 5 7 2) (.next 0) 1 rfl) (hp _ _)
  have h := h.step_monitored (a := (false, _))
    (.recheck (.insert 5 7 2) (.next 0) 1 ⟨none, false⟩ rfl rfl) (hp _ _)
  have h := h.step_monitored (a := (false, _))
    (.readKey (.insert 5 7 2) (.next 0) 1 ⟨none, false⟩ rfl) (hp _ _)
  have h := h.step_monitored (a := (false, _))
    (.miss (.insert 5 7 2) (.next 0) 1 none 100 rfl rfl (by decide)) (hp _ _)
  -- what was found is saved, and the write phase begins
  have h := h.step_monitored (a := (false, _))
    (.savePrev (.insert 5 7 2) (.next 0) (.miss 1 none) rfl) (hp _ _)
  have h := h.step_monitored (a := (false, _))
    (.saveCurr (.insert 5 7 2) (.next 0) (.miss 1 none) rfl) (hp _ _)
  have h := h.step_monitored (a := (false, _))
    (.saveNext (.insert 5 7 2) (.next 0) (.miss 1 none) rfl) (hp _ _)
  have h := h.step_monitored (a := (false, _))
    (.upgrade (.insert 5 7 2) (.next 0) (.miss 1 none) rfl) (hp _ _)
  -- the node is linked
  have h := h.step_monitored (a := (false, _)) (.storeNext 5 7 2 (.next 0) (some 1) rfl) (hp _ _)
  have h := h.step_monitored (a := (false, _))
    (.casInsert 5 7 2 (.next 0) (some 1) rfl rfl) (hp _ _)
  have h := h.step_monitored (a := (false, _)) (.endOp (.insert 5 7) (.value none) rfl) (hp _ _)
  have h := h.step_monitored (a := (false, _)) (.ret (.insert 5 7) (.value none) rfl) (hp _ _)
  -- the state reached is the one written out above
  obtain ⟨s, m, h, hs, hm⟩ : ∃ s m, (writePhases (writeRule ℕ) (lts smallConfig)).ReachableBy p
      (s, m) ∧ s = oneKey ∧ m true = some .start := by
    refine ⟨_, _, h, ?_, rfl⟩
    refine State.ext (funext fun l => ?_) (funext fun x => ?_) (funext fun x => ?_)
      (funext fun x => ?_) rfl (funext fun q => ?_)
    · match l with
      | .head _ => rfl
      | .next 0 => rfl
      | .next 1 => rfl
      | .next 2 => rfl
      | .next (_ + 3) => rfl
    · match x with
      | 0 => rfl
      | 1 => rfl
      | 2 => rfl
      | _ + 3 => rfl
    · match x with
      | 0 => rfl
      | 1 => rfl
      | 2 => rfl
      | _ + 3 => rfl
    · match x with
      | 0 => rfl
      | 1 => rfl
      | 2 => rfl
      | _ + 3 => rfl
    · cases q <;> rfl
  exact ⟨m, hs ▸ h, hm⟩

/-- Two threads erase the key. The second one has saved the node and is about to mark it when the
first one does; its CAS writes to the node that was saved, and fails. -/
theorem nzb_saved_erase : ∃ x : State ℕ Bool ℕ ℕ × (Bool → Option (Attempt ℕ)),
    (writePhases (writeRule ℕ) (lts smallConfig)).ReachableBy
      (fun x a => a.1 = true → KeepsSaved x.1 a) x ∧
      x.1.pc true = .endRetry 5 ∧ x.1.pc false = .casUnlink 5 (.next 0) 2 (some 1) 7 ∧
      x.2 true ≠ none := by
  obtain ⟨m, h, -⟩ := oneKey_reached
    (p := fun x a => a.1 = true → KeepsSaved x.1 a) fun x e h => Bool.noConfusion h
  -- the second thread finds the node, saves it and becomes unrestartable
  have h := h.step_monitored (a := (true, _))
    (.invoke (.erase 5) rfl (by decide) (by decide)) fun _ => by trivial
  have h := h.step_monitored (a := (true, _)) (.startOp (.erase 5) rfl) fun _ => by trivial
  have h := h.step_monitored (a := (true, _))
    (.loadHead (.erase 5) (some 0) rfl rfl) fun _ => by trivial
  have h := h.step_monitored (a := (true, _))
    (.loop (.erase 5) (.head ()) 0 rfl) fun _ => by trivial
  have h := h.step_monitored (a := (true, _))
    (.recheck (.erase 5) (.head ()) 0 ⟨some 2, false⟩ rfl rfl) fun _ => by trivial
  have h := h.step_monitored (a := (true, _))
    (.readKey (.erase 5) (.head ()) 0 ⟨some 2, false⟩ rfl) fun _ => by trivial
  have h := h.step_monitored (a := (true, _))
    (.advance (.erase 5) (.head ()) 0 (some 2) 0 rfl rfl (by decide)) fun _ => by trivial
  have h := h.step_monitored (a := (true, _)) (.loop (.erase 5) (.next 0) 2 rfl) fun _ => by trivial
  have h := h.step_monitored (a := (true, _))
    (.recheck (.erase 5) (.next 0) 2 ⟨some 1, false⟩ rfl rfl) fun _ => by trivial
  have h := h.step_monitored (a := (true, _))
    (.readKey (.erase 5) (.next 0) 2 ⟨some 1, false⟩ rfl) fun _ => by trivial
  have h := h.step_monitored (a := (true, _))
    (.hit (.erase 5) (.next 0) 2 (some 1) 5 rfl rfl rfl) fun _ => by trivial
  have h := h.step_monitored (a := (true, _))
    (.savePrev (.erase 5) (.next 0) (.hit 2 (some 1)) rfl) fun _ => by trivial
  have h := h.step_monitored (a := (true, _))
    (.saveCurr (.erase 5) (.next 0) (.hit 2 (some 1)) rfl) fun _ => by trivial
  have h := h.step_monitored (a := (true, _))
    (.saveNext (.erase 5) (.next 0) (.hit 2 (some 1)) rfl) fun _ => by trivial
  have h := h.step_monitored (a := (true, _))
    (.upgrade (.erase 5) (.next 0) (.hit 2 (some 1)) rfl) fun _ => .inr id
  have h := h.step_monitored (a := (true, _))
    (.readVal 5 (.next 0) 2 (some 1) rfl) fun _ => by trivial
  -- the first thread does the same and marks the node
  have h := h.step_monitored (a := (false, _))
    (.invoke (.erase 5) rfl (by decide) (by decide)) fun h => Bool.noConfusion h
  have h := h.step_monitored (a := (false, _)) (.startOp (.erase 5) rfl) fun h => Bool.noConfusion h
  have h := h.step_monitored (a := (false, _))
    (.loadHead (.erase 5) (some 0) rfl rfl) fun h => Bool.noConfusion h
  have h := h.step_monitored (a := (false, _))
    (.loop (.erase 5) (.head ()) 0 rfl) fun h => Bool.noConfusion h
  have h := h.step_monitored (a := (false, _))
    (.recheck (.erase 5) (.head ()) 0 ⟨some 2, false⟩ rfl rfl) fun h => Bool.noConfusion h
  have h := h.step_monitored (a := (false, _))
    (.readKey (.erase 5) (.head ()) 0 ⟨some 2, false⟩ rfl) fun h => Bool.noConfusion h
  have h := h.step_monitored (a := (false, _))
    (.advance (.erase 5) (.head ()) 0 (some 2) 0 rfl rfl (by decide)) fun h => Bool.noConfusion h
  have h := h.step_monitored (a := (false, _))
    (.loop (.erase 5) (.next 0) 2 rfl) fun h => Bool.noConfusion h
  have h := h.step_monitored (a := (false, _))
    (.recheck (.erase 5) (.next 0) 2 ⟨some 1, false⟩ rfl rfl) fun h => Bool.noConfusion h
  have h := h.step_monitored (a := (false, _))
    (.readKey (.erase 5) (.next 0) 2 ⟨some 1, false⟩ rfl) fun h => Bool.noConfusion h
  have h := h.step_monitored (a := (false, _))
    (.hit (.erase 5) (.next 0) 2 (some 1) 5 rfl rfl rfl) fun h => Bool.noConfusion h
  have h := h.step_monitored (a := (false, _))
    (.savePrev (.erase 5) (.next 0) (.hit 2 (some 1)) rfl) fun h => Bool.noConfusion h
  have h := h.step_monitored (a := (false, _))
    (.saveCurr (.erase 5) (.next 0) (.hit 2 (some 1)) rfl) fun h => Bool.noConfusion h
  have h := h.step_monitored (a := (false, _))
    (.saveNext (.erase 5) (.next 0) (.hit 2 (some 1)) rfl) fun h => Bool.noConfusion h
  have h := h.step_monitored (a := (false, _))
    (.upgrade (.erase 5) (.next 0) (.hit 2 (some 1)) rfl) fun h => Bool.noConfusion h
  have h := h.step_monitored (a := (false, _))
    (.readVal 5 (.next 0) 2 (some 1) rfl) fun h => Bool.noConfusion h
  have h := h.step_monitored (a := (false, _))
    (.casMark 5 (.next 0) 2 (some 1) 7 rfl rfl) fun h => Bool.noConfusion h
  -- the second thread comes too late
  have h := h.step_monitored (a := (true, _))
    (.casMarkFail 5 (.next 0) 2 (some 1) 7 rfl (by decide)) fun _ =>
      .of_casMark rfl fun h => Bool.noConfusion (congrArg MarkPtr.mark h)
  exact ⟨_, h, rfl, rfl, nzb_saved smallConfig true _ h⟩

/-- **Saved is not what is written**: the second thread links its node to a node it has not
saved. -/
theorem nzb_unsaved : ∃ x : State ℕ Bool ℕ ℕ × (Bool → Option (Attempt ℕ)),
    (writePhases (writeRule ℕ) (lts smallConfig)).Reachable x ∧
      x.1.pc true = .endOp (.insert 6 8) (.value none) ∧ x.2 true = none := by
  obtain ⟨m, h, hm⟩ := oneKey_reached (p := fun _ _ => True) fun _ _ => trivial
  -- the second thread passes over the node of 5 and stops at the tail
  have h := h.step_monitored (a := (true, _))
    (.invoke (.insert 6 8) rfl (by decide) (by decide)) trivial
  have h := h.step_monitored (a := (true, _)) (.newNode 6 8 3 rfl rfl) trivial
  have h := h.step_monitored (a := (true, _)) (.startOp (.insert 6 8 3) rfl) trivial
  have h := h.step_monitored (a := (true, _)) (.loadHead (.insert 6 8 3) (some 0) rfl rfl) trivial
  have h := h.step_monitored (a := (true, _)) (.loop (.insert 6 8 3) (.head ()) 0 rfl) trivial
  have h := h.step_monitored (a := (true, _))
    (.recheck (.insert 6 8 3) (.head ()) 0 ⟨some 2, false⟩ rfl rfl) trivial
  have h := h.step_monitored (a := (true, _))
    (.readKey (.insert 6 8 3) (.head ()) 0 ⟨some 2, false⟩ rfl) trivial
  have h := h.step_monitored (a := (true, _))
    (.advance (.insert 6 8 3) (.head ()) 0 (some 2) 0 rfl rfl (by decide)) trivial
  have h := h.step_monitored (a := (true, _)) (.loop (.insert 6 8 3) (.next 0) 2 rfl) trivial
  have h := h.step_monitored (a := (true, _))
    (.recheck (.insert 6 8 3) (.next 0) 2 ⟨some 1, false⟩ rfl rfl) trivial
  have h := h.step_monitored (a := (true, _))
    (.readKey (.insert 6 8 3) (.next 0) 2 ⟨some 1, false⟩ rfl) trivial
  have h := h.step_monitored (a := (true, _))
    (.advance (.insert 6 8 3) (.next 0) 2 (some 1) 5 rfl rfl (by decide)) trivial
  have h := h.step_monitored (a := (true, _)) (.loop (.insert 6 8 3) (.next 2) 1 rfl) trivial
  have h := h.step_monitored (a := (true, _))
    (.recheck (.insert 6 8 3) (.next 2) 1 ⟨none, false⟩ rfl rfl) trivial
  have h := h.step_monitored (a := (true, _))
    (.readKey (.insert 6 8 3) (.next 2) 1 ⟨none, false⟩ rfl) trivial
  have h := h.step_monitored (a := (true, _))
    (.miss (.insert 6 8 3) (.next 2) 1 none 100 rfl rfl (by decide)) trivial
  -- it saves the node of 5 as `prev` and the tail as `curr`
  have h := h.step_monitored (a := (true, _))
    (.savePrev (.insert 6 8 3) (.next 2) (.miss 1 none) rfl) trivial
  have h := h.step_monitored (a := (true, _))
    (.saveCurr (.insert 6 8 3) (.next 2) (.miss 1 none) rfl) trivial
  have h := h.step_monitored (a := (true, _))
    (.saveNext (.insert 6 8 3) (.next 2) (.miss 1 none) rfl) trivial
  have h := h.step_monitored (a := (true, _))
    (.upgrade (.insert 6 8 3) (.next 2) (.miss 1 none) rfl) trivial
  -- the link that it writes belongs to the node of 5
  have h := h.step_monitored (a := (true, _)) (.storeNext 6 8 3 (.next 2) (some 1) rfl) trivial
  have h := h.step_monitored (a := (true, _)) (.casInsert 6 8 3 (.next 2) (some 1) rfl rfl) trivial
  refine ⟨_, h, rfl, ?_⟩
  simp only [update_self, hm]
  rfl

end

end HmListNzb
end PopSetbench

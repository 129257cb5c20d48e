import PopSetbench.Ds.TicketStep
import PopSetbench.Library.Interval

/-!
# The ticket tree: what the versions count

A record is kept of how often each half of a lock was released after a change and how often the
pointer it guards was changed (`Log`), and for each thread of what these numbers were when it copied
the lock word and when it loaded the pointer (`Copy`). In every run, with locks that do what they
are for or not, the version of a half that is free is the number of its releases modulo `2 ^ 16`,
which is the number of changes of the pointer.
-/

namespace PopSetbench
namespace Ticket

open Function

/-- The numbers at the time a thread looked at a node. -/
structure Copy (α : Type) where
  /-- How often each half had been released when the lock was copied. -/
  rounds : Bool → ℕ
  /-- How often each pointer had been changed when the lock was copied. -/
  stores : Bool → ℕ
  /-- How often the pointer that was followed had been changed when it was loaded. -/
  seen : ℕ
  /-- What was loaded. -/
  read : Option α

/-- The numbers before anything happened. -/
def Copy.start {α : Type} : Copy α := ⟨fun _ => 0, fun _ => 0, 0, none⟩

/-- What is recorded of a run. -/
structure Log (α ι : Type) where
  /-- How often each half was released after a change. -/
  rounds : α → Bool → ℕ
  /-- How often each pointer was changed. -/
  stores : α → Bool → ℕ
  /-- The numbers that belong to the `ppred` of each thread. -/
  ppred : ι → Copy α
  /-- The numbers that belong to the `pred` of each thread. -/
  pred : ι → Copy α

namespace Log

variable {α ι K V : Type}

/-- Nothing has happened. -/
def start : Log α ι := ⟨fun _ _ => 0, fun _ _ => 0, fun _ => .start, fun _ => .start⟩

variable (γ : Log α ι)

/-- Thread `t` copies the lock of `x`. -/
def copy [DecidableEq ι] (t : ι) (x : α) : Log α ι :=
  { γ with
    ppred := update γ.ppred t (γ.pred t)
    pred := update γ.pred t ⟨γ.rounds x, γ.stores x, 0, none⟩ }

/-- Thread `t` has loaded `y` from `x`. -/
def load [DecidableEq ι] (t : ι) (x : α) (right : Bool) (y : Option α) : Log α ι :=
  { γ with
    pred := update γ.pred t ⟨(γ.pred t).rounds, (γ.pred t).stores, γ.stores x right, y⟩ }

variable [DecidableEq α]

/-- A child pointer of `x` is stored. -/
def store (x : α) (right : Bool) : Log α ι :=
  { γ with stores := update γ.stores x (update (γ.stores x) right (γ.stores x right + 1)) }

/-- A half of the lock of `x` is released. -/
def round (x : α) (right : Bool) : Log α ι :=
  { γ with rounds := update γ.rounds x (update (γ.rounds x) right (γ.rounds x right + 1)) }

end Log

variable {α ι K V : Type}

/-- What a step of thread `t` adds, by where the thread is. -/
def Pc.log [DecidableEq α] [DecidableEq ι] (s : State α ι K V) (t : ι) (γ : Log α ι) :
    Pc α K V → Log α ι
  | .loadVer _ _ _ curr => γ.copy t curr
  | .loadChild _ _ pred => pred.node.elim γ fun p => γ.load t p pred.right (s.child p pred.right)
  | .storeChild _ _ pred _ _ _ => pred.node.elim γ fun p => γ.store p pred.right
  | .splice _ ppred _ _ _ => ppred.node.elim γ fun g => γ.store g ppred.right
  | .storeVersion e _ _ => e.node.elim γ fun p => γ.round p e.right
  | _ => γ

/-- What a step adds. -/
def Log.next [DecidableEq α] [DecidableEq ι] (s : State α ι K V) (a : ι × Event α K V)
    (γ : Log α ι) : Log α ι :=
  (s.pc a.1).log s a.1 γ

/-! ### The nodes a thread works with -/

/-- The thread has the node in one of its variables, and it is not new. -/
def Pc.Names (x : α) : Pc α K V → Prop
  | .start _ ppred pred => ppred.node = some x ∨ pred.node = some x
  | .loadVer _ ppred pred curr => ppred.node = some x ∨ pred.node = some x ∨ x = curr
  | .readKey _ ppred pred => ppred.node = some x ∨ pred.node = some x
  | .loadChild _ ppred pred => ppred.node = some x ∨ pred.node = some x
  | .loadLeft _ ppred pred curr => ppred.node = some x ∨ pred.node = some x ∨ x = curr
  | .testKey _ ppred pred curr => ppred.node = some x ∨ pred.node = some x ∨ x = curr
  | .newLeaf _ _ pred curr => pred.node = some x ∨ x = curr
  | .newNode _ _ pred curr _ => pred.node = some x ∨ x = curr
  | .lockPred _ _ pred curr _ _ => pred.node = some x ∨ x = curr
  | .dealloc _ _ pred _ _ => pred.node = some x
  | .compare _ _ pred curr _ _ => pred.node = some x ∨ x = curr
  | .initNode _ _ pred curr _ _ _ => pred.node = some x ∨ x = curr
  | .storeChild _ _ pred curr _ _ => pred.node = some x ∨ x = curr
  | .lockPpred _ ppred pred _ => ppred.node = some x ∨ pred.node = some x
  | .lockBoth _ ppred pred _ => ppred.node = some x ∨ pred.node = some x
  | .loadSibling _ ppred pred _ => ppred.node = some x ∨ pred.node = some x
  | .splice _ ppred _ _ sibling => ppred.node = some x ∨ sibling = some x
  | .unlock e _ => e.node = some x
  | .storeVersion e _ _ => e.node = some x
  | .revert _ ppred pred => ppred.node = some x ∨ pred.node = some x
  | .storeTicket _ ppred pred _ => ppred.node = some x ∨ pred.node = some x
  | .endRetry _ ppred pred => ppred.node = some x ∨ pred.node = some x
  | _ => False

/-- What the new nodes of a thread hold. -/
def Made (s : State α ι K V) : Pc α K V → Prop
  | .newNode _ _ _ _ nn => ∀ d, s.child nn d = none
  | .lockPred _ _ _ _ nn nr => nr ≠ nn ∧ ∀ d, s.child nn d = none
  | .compare _ _ _ _ nn nr => nr ≠ nn ∧ ∀ d, s.child nn d = none
  | .initNode _ _ _ _ nn nr _ => nr ≠ nn ∧ ∀ d, s.child nn d = none
  | .storeChild _ _ _ curr nn nr => (∀ d, s.child nn d = none) ∧
    ∀ d, s.child nr d = some curr ∨ s.child nr d = some nn
  | _ => True

/-- `G` are nodes the threads work with, and those these lead to. -/
structure Known [LT K] (cfg : Config α K) (s : State α ι K V) (G : α → Prop) : Prop where
  allocated : ∀ x, G x → s.allocated x = true
  old : ∀ q x, G x → ¬ (s.pc q).New x
  root : G cfg.root
  child : ∀ x d y, G x → s.child x d = some y → G y
  names : ∀ q x, (s.pc q).Names x → G x
  new : ∀ q x, (s.pc q).New x → s.allocated x = true
  own : ∀ q q' x, (s.pc q).New x → (s.pc q').New x → q = q'
  made : ∀ q, Made s (s.pc q)

section

variable [LinearOrder K] {cfg : Config α K} {s s' : State α ι K V} {G : α → Prop} {t q : ι}
  {p : Pc α K V} {x y : α} {d : Bool} {γ : Log α ι}

omit [LinearOrder K] in
/-- The others' new nodes stay as they are. -/
theorem Made.mono (hchild : ∀ x, p.New x → s'.child x = s.child x) (h : Made s p) : Made s' p := by
  have hnone : ∀ x, p.New x → (∀ d, s.child x d = none) → ∀ d, s'.child x d = none := by
    intro x hx hd d
    rw [hchild x hx]
    exact hd d
  cases p with
  | newNode key val pred curr nn => exact hnone nn rfl h
  | lockPred key val pred curr nn nr => exact ⟨h.1, hnone nn (.inl rfl) h.2⟩
  | compare key val pred curr nn nr => exact ⟨h.1, hnone nn (.inl rfl) h.2⟩
  | initNode key val pred curr nn nr less => exact ⟨h.1, hnone nn (.inl rfl) h.2⟩
  | storeChild key val pred curr nn nr =>
    refine ⟨hnone nn (.inl rfl) h.1, fun d => ?_⟩
    rw [hchild nr (.inr rfl)]
    exact h.2 d
  | _ => trivial

/-- **A step after which the same nodes are known.** -/
theorem Known.step (h : Known cfg s G) (hpcs : ∀ q, q ≠ t → s'.pc q = s.pc q)
    (halloc : ∀ x, s.allocated x = true → s'.allocated x = true)
    (hchild : ∀ x, G x → ∀ d y, s'.child x d = some y → G y)
    (hothers : ∀ q, q ≠ t → ∀ x, (s.pc q).New x → s'.child x = s.child x)
    (hnew : ∀ x, (s'.pc t).New x →
      (s.pc t).New x ∨ s.allocated x = false ∧ s'.allocated x = true)
    (hnames : ∀ x, (s'.pc t).Names x → G x) (hmade : Made s' (s'.pc t)) : Known cfg s' G := by
  -- what the thread has for itself, no other one has
  have hown : ∀ q x, q ≠ t → (s'.pc t).New x → ¬ (s'.pc q).New x := by
    intro q x hq hx hx'
    rw [hpcs q hq] at hx'
    rcases hnew x hx with hx | ⟨hx, -⟩
    · exact hq (h.own q t x hx' hx)
    · cases hx.symm.trans (h.new q x hx')
  exact {
    allocated := fun x hx => halloc x (h.allocated x hx)
    -- a known node is not new to anybody, before and after
    old := by
      intro q x hx hx'
      by_cases hq : q = t
      · subst hq
        rcases hnew x hx' with hx' | ⟨hx', -⟩
        · exact h.old q x hx hx'
        · cases hx'.symm.trans (h.allocated x hx)
      · rw [hpcs q hq] at hx'
        exact h.old q x hx hx'
    root := h.root
    child := fun x d y hx hy => hchild x hx d y hy
    names := by
      intro q x hx
      by_cases hq : q = t
      · subst hq
        exact hnames x hx
      · rw [hpcs q hq] at hx
        exact h.names q x hx
    new := by
      intro q x hx
      by_cases hq : q = t
      · subst hq
        rcases hnew x hx with hx | ⟨-, hx⟩
        · exact halloc x (h.new q x hx)
        · exact hx
      · rw [hpcs q hq] at hx
        exact halloc x (h.new q x hx)
    -- a new node has one owner
    own := by
      intro q q' x hx hx'
      by_cases hq : q = t
      · subst hq
        by_contra hq'
        exact hown q' x (Ne.symm hq') hx hx'
      · by_cases hq' : q' = t
        · subst hq'
          exact (hown q x hq hx' hx).elim
        · rw [hpcs q hq] at hx
          rw [hpcs q' hq'] at hx'
          exact h.own q q' x hx hx'
    -- the inner node that the thread is making is as it left it
    made := by
      intro q
      by_cases hq : q = t
      · subst hq
        exact hmade
      · rw [hpcs q hq]
        exact (h.made q).mono (hothers q hq) }

/-- The new nodes of a thread are linked. -/
theorem Known.link {key : K} {val : V} {pred : Edge α} {z a b : α} (h : Known cfg s G)
    (hpc : s.pc t = .storeChild key val pred y a b) (hz : pred.node = some z)
    (hpcs : ∀ q, q ≠ t → s'.pc q = s.pc q) (halloc : s'.allocated = s.allocated)
    (hchild : ∀ x, x ≠ z → s'.child x = s.child x)
    (hchild_z : ∀ d x, s'.child z d = some x → s.child z d = some x ∨ x = b)
    (hpc' : ∀ x, ¬ (s'.pc t).New x) (hnames : ∀ x, (s'.pc t).Names x → G x)
    (hmade : Made s' (s'.pc t)) : Known cfg s' fun x => G x ∨ x = a ∨ x = b := by
  have hn := h.names t
  have hm := h.made t
  rw [hpc] at hn hm
  -- the two nodes were new to the thread, so nobody else had them
  have hnew : ∀ x, x = a ∨ x = b → (s.pc t).New x := by
    intro x hx
    rw [hpc]
    exact hx
  have hne : ∀ x, x = a ∨ x = b → x ≠ z := by
    rintro x hx rfl
    exact h.old t x (hn x (.inl hz)) (hnew x hx)
  exact {
    allocated := by
      intro x hx
      rw [halloc]
      rcases hx with hx | hx
      · exact h.allocated x hx
      · exact h.new t x (hnew x hx)
    old := by
      intro q x hx hx'
      by_cases hq : q = t
      · subst hq
        exact hpc' x hx'
      · rw [hpcs q hq] at hx'
        rcases hx with hx | hx
        · exact h.old q x hx hx'
        · exact hq (h.own q t x hx' (hnew x hx))
    root := .inl h.root
    -- the node that is written to gets one of them as its child
    child := by
      intro x d w hx hw
      by_cases hxz : x = z
      · subst hxz
        rcases hchild_z d w hw with hw | rfl
        · exact .inl (h.child x d w (hn x (.inl hz)) hw)
        · exact .inr (.inr rfl)
      · rw [hchild x hxz] at hw
        rcases hx with hx | rfl | rfl
        · exact .inl (h.child x d w hx hw)
        · cases (hm.1 d).symm.trans hw
        · rcases hm.2 d with h' | h'
          · obtain rfl := Option.some.inj (h'.symm.trans hw)
            exact .inl (hn y (.inr rfl))
          · exact .inr (.inl (Option.some.inj (h'.symm.trans hw)).symm)
    names := by
      intro q x hx
      by_cases hq : q = t
      · subst hq
        exact .inl (hnames x hx)
      · rw [hpcs q hq] at hx
        exact .inl (h.names q x hx)
    new := by
      intro q x hx
      rw [halloc]
      by_cases hq : q = t
      · subst hq
        exact (hpc' x hx).elim
      · rw [hpcs q hq] at hx
        exact h.new q x hx
    -- no thread has a new node in common with another
    own := by
      intro q q' x hx hx'
      by_cases hq : q = t
      · subst hq
        exact (hpc' x hx).elim
      · by_cases hq' : q' = t
        · subst hq'
          exact (hpc' x hx').elim
        · rw [hpcs q hq] at hx
          rw [hpcs q' hq'] at hx'
          exact h.own q q' x hx hx'
    made := by
      intro q
      by_cases hq : q = t
      · subst hq
        exact hmade
      · rw [hpcs q hq]
        refine (h.made q).mono fun x hx => hchild x ?_
        rintro rfl
        exact h.old q x (hn x (.inl hz)) hx }

variable [DecidableEq ι]

/-- A step that changes no node. -/
theorem Known.goto (h : Known cfg s G) (hnew : ∀ x, p.New x → (s.pc t).New x)
    (hnames : ∀ x, p.Names x → G x) (hmade : Made s p) : Known cfg (s.goto t p) G := by
  refine h.step (t := t) (fun q hq => State.goto_pc_of_ne hq) (fun _ h => h)
    (fun x hx d y hy => h.child x d y hx hy) (fun _ _ _ _ => rfl) ?_ ?_ ?_
  · intro x hx
    rw [State.goto_pc_self] at hx
    exact .inl (hnew x hx)
  · intro x hx
    rw [State.goto_pc_self] at hx
    exact hnames x hx
  · rw [State.goto_pc_self]
    exact hmade.mono fun _ _ => rfl

variable [DecidableEq α]

/-- A lock word is no child pointer. -/
theorem Known.setLock {l : Tl} (h : Known cfg s G) (hnew : ∀ x, p.New x → (s.pc t).New x)
    (hnames : ∀ x, p.Names x → G x) (hmade : Made s p) :
    Known cfg ((s.setLock x l).goto t p) G := by
  have h' : Known cfg (s.goto t p) G := h.goto hnew hnames hmade
  exact {
    allocated := h'.allocated
    old := h'.old
    root := h'.root
    child := h'.child
    names := h'.names
    new := h'.new
    own := h'.own
    made := fun q => (h'.made q).mono fun _ _ => rfl }

/-- **What is known** stays known, and more may be. -/
theorem Known.of_step {ev : Event α K V} (h : Known cfg s G) (hs : Step cfg s t ev s') :
    ∃ G', (∀ x, G x → G' x) ∧ Known cfg s' G' := by
  have hn := h.names t
  have hm := h.made t
  cases hs with
  | invoke op hpc hmin hmax =>
    exact ⟨G, fun _ h => h, h.goto (fun _ h => h.elim)
      (fun _ h => h.elim (fun h => (Option.some_ne_none _ h.symm).elim)
        fun h => (Option.some_ne_none _ h.symm).elim) trivial⟩
  | startOp op ppred pred hpc =>
    -- an operation begins at the root, which everybody knows
    rw [hpc] at hn
    refine ⟨G, fun _ h => h, ?_⟩
    cases op with
    | contains key => exact h.goto (fun _ h => h.elim) (fun _ h => h.elim) trivial
    | insert key val =>
      refine h.goto (fun _ h => h.elim) ?_ trivial
      rintro x (hx | hx | rfl)
      · exact hn x (.inl hx)
      · exact hn x (.inr hx)
      · exact h.root
    | erase key =>
      refine h.goto (fun _ h => h.elim) ?_ trivial
      rintro x (hx | hx | rfl)
      · exact hn x (.inl hx)
      · exact hn x (.inr hx)
      · exact h.root
  | loadVer u ppred pred y hpc =>
    -- the node that was read becomes the one the thread goes on with
    rw [hpc] at hn
    refine ⟨G, fun _ h => h, h.goto (fun _ h => h.elim) ?_ trivial⟩
    rintro x (hx | hx)
    · exact hn x (.inr (.inl hx))
    · exact hn x (.inr (.inr (Option.some.inj hx).symm))
  | readKey u ppred pred y hpc hy =>
    rw [hpc] at hn
    refine ⟨G, fun _ h => h, h.goto (fun _ h => h.elim) ?_ trivial⟩
    rintro x (hx | hx)
    · exact hn x (.inl hx)
    · exact hn x (.inr (hy.trans hx))
  | loadChild u ppred pred y z hpc hy hz =>
    -- the child of a known node is known
    rw [hpc] at hn
    refine ⟨G, fun _ h => h, h.goto (fun _ h => h.elim) ?_ trivial⟩
    rintro x (hx | hx | rfl)
    · exact hn x (.inl hx)
    · exact hn x (.inr hx)
    · exact h.child y _ _ (hn y (.inr hy)) hz
  | loadLeft u ppred pred y hpc hl =>
    rw [hpc] at hn
    exact ⟨G, fun _ h => h, h.goto (fun _ h => h.elim) hn trivial⟩
  | loadNull u ppred pred y hpc hl =>
    rw [hpc] at hn
    exact ⟨G, fun _ h => h, h.goto (fun _ h => h.elim) hn trivial⟩
  | hit u ppred pred y hpc hk =>
    -- the key decides which of the nodes are needed further on
    rw [hpc] at hn
    refine ⟨G, fun _ h => h, ?_⟩
    cases u with
    | insert key val => exact h.goto (fun _ h => h.elim) (fun _ h => h.elim) trivial
    | delete key =>
      exact h.goto (fun _ h => h.elim) (fun x hx => hn x (hx.imp_right .inl)) trivial
  | miss u ppred pred y hpc hk =>
    rw [hpc] at hn
    refine ⟨G, fun _ h => h, ?_⟩
    cases u with
    | insert key val => exact h.goto (fun _ h => h.elim) (fun x hx => hn x (.inr hx)) trivial
    | delete key => exact h.goto (fun _ h => h.elim) (fun _ h => h.elim) trivial
  | newLeaf key val pred y a hpc ha =>
    -- the new leaf has no children, and nobody else knows it
    rw [hpc] at hn
    have hne : ∀ x, s.allocated x = true → x ≠ a := by
      rintro x hx rfl
      cases hx.symm.trans ha
    refine ⟨G, fun _ h => h, h.step (t := t) (fun q hq => State.goto_pc_of_ne hq) ?_ ?_ ?_ ?_ ?_ ?_⟩
    · intro x hx
      show update s.allocated a true x = true
      rw [update_of_ne (hne x hx)]
      exact hx
    · intro x hx d z hz
      have hz : update s.child a (fun _ => none) x d = some z := hz
      rw [update_of_ne (hne x (h.allocated x hx))] at hz
      exact h.child x d z hx hz
    · intro q _ x hx
      exact update_of_ne (hne x (h.new q x hx)) ..
    · intro x hx
      rw [State.goto_pc_self] at hx
      obtain rfl : x = a := hx
      exact .inr ⟨ha, update_self ..⟩
    · intro x hx
      rw [State.goto_pc_self] at hx
      exact hn x hx
    · rw [State.goto_pc_self]
      intro d
      show update s.child a (fun _ => none) a d = none
      rw [update_self]
  | newNode key val pred y a b hpc hb =>
    -- nor the new inner node, which joins the leaf as the thread's own
    rw [hpc] at hn hm
    have hne : ∀ x, s.allocated x = true → x ≠ b := by
      rintro x hx rfl
      cases hx.symm.trans hb
    have ha : s.allocated a = true := h.new t a (hpc ▸ rfl)
    refine ⟨G, fun _ h => h, h.step (t := t) (fun q hq => State.goto_pc_of_ne hq) ?_
      (fun x hx d y hy => h.child x d y hx hy) (fun _ _ _ _ => rfl) ?_ ?_ ?_⟩
    · intro x hx
      show update s.allocated b true x = true
      rw [update_of_ne (hne x hx)]
      exact hx
    · intro x hx
      rw [State.goto_pc_self] at hx
      rcases hx with rfl | rfl
      · exact .inl (hpc ▸ rfl)
      · exact .inr ⟨hb, update_self ..⟩
    · intro x hx
      rw [State.goto_pc_self] at hx
      exact hn x hx
    · rw [State.goto_pc_self]
      exact ⟨(hne a ha).symm, hm⟩
  | lockPred key val pred z y a b l hpc hz hl =>
    -- a lock changes no link
    rw [hpc] at hn hm
    exact ⟨G, fun _ h => h, h.setLock (fun _ h => hpc ▸ h) hn hm⟩
  | lockPredFail key val pred z y a b hpc hz hl =>
    rw [hpc] at hn
    exact ⟨G, fun _ h => h, h.goto (fun _ h => h.elim) (fun x hx => hn x (.inl hx)) trivial⟩
  | dealloc key val pred a b hpc =>
    -- the nodes of the failed insertion are forgotten
    rw [hpc] at hn
    refine ⟨G, fun _ h => h, h.goto (fun _ h => h.elim) ?_ trivial⟩
    rintro x (hx | hx)
    · cases hx
    · exact hn x hx
  | compare key val pred y a b hpc =>
    rw [hpc] at hn hm
    exact ⟨G, fun _ h => h, h.goto (fun _ h => hpc ▸ h) hn hm⟩
  | initNode key val pred y a b less hpc =>
    -- the children of the own node are the leaf that was found and the new leaf
    rw [hpc] at hn hm
    have hb : (s.pc t).New b := by
      rw [hpc]
      exact .inr rfl
    refine ⟨G, fun _ h => h, h.step (t := t) (fun q hq => State.goto_pc_of_ne hq) (fun _ h => h)
      ?_ ?_ ?_ ?_ ?_⟩
    · intro x hx d z hz
      have hxb : x ≠ b := by
        rintro rfl
        exact h.old t x hx hb
      have hz : update s.child b _ x d = some z := hz
      rw [update_of_ne hxb] at hz
      exact h.child x d z hx hz
    · intro q hq x hx
      refine update_of_ne ?_ ..
      rintro rfl
      exact hq (h.own q t x hx hb)
    · intro x hx
      rw [State.goto_pc_self] at hx
      exact .inl (hpc ▸ hx)
    · intro x hx
      rw [State.goto_pc_self] at hx
      exact hn x hx
    · rw [State.goto_pc_self]
      constructor
      · intro d
        show update s.child b _ a d = none
        rw [update_of_ne hm.1.symm]
        exact hm.2 d
      · intro d
        show update s.child b _ b d = _ ∨ update s.child b _ b d = _
        rw [update_self]
        cases d == less with
        | true => exact .inl rfl
        | false => exact .inr rfl
  | storeChild key val pred z y a b hpc hz =>
    -- the two new nodes are known to everybody from here on
    rw [hpc] at hn
    refine ⟨_, fun _ h => .inl h, h.link hpc hz (fun q hq => State.goto_pc_of_ne hq) rfl
      (fun x hx => update_of_ne hx ..) ?_ ?_ ?_ ?_⟩
    · intro d x hx
      have hx : update s.child z (update (s.child z) pred.right (some b)) z d = some x := hx
      rw [update_self] at hx
      by_cases hd : d = pred.right
      · subst hd
        rw [update_self] at hx
        exact .inr (Option.some.inj hx).symm
      · rw [update_of_ne hd] at hx
        exact .inl hx
    · intro x hx
      rw [State.goto_pc_self] at hx
      exact hx
    · intro x hx
      rw [State.goto_pc_self] at hx
      exact hn x (.inl hx)
    · rw [State.goto_pc_self]
      trivial
  | lockPpred key ppred pred g y l hpc hg hl =>
    rw [hpc] at hn
    exact ⟨G, fun _ h => h, h.setLock (fun _ h => h.elim) hn trivial⟩
  | lockPpredFail key ppred pred g y hpc hg hl =>
    rw [hpc] at hn
    exact ⟨G, fun _ h => h, h.goto (fun _ h => h.elim) hn trivial⟩
  | lockBoth key ppred pred z y l hpc hz hl =>
    rw [hpc] at hn
    exact ⟨G, fun _ h => h, h.setLock (fun _ h => h.elim) hn trivial⟩
  | lockBothFail key ppred pred z y hpc hz hl =>
    rw [hpc] at hn
    exact ⟨G, fun _ h => h, h.goto (fun _ h => h.elim) hn trivial⟩
  | loadSibling key ppred pred z y hpc hz =>
    -- the sibling is the child of a known node
    rw [hpc] at hn
    refine ⟨G, fun _ h => h, h.goto (fun _ h => h.elim) ?_ trivial⟩
    rintro x (hx | hx)
    · exact hn x (.inl hx)
    · exact h.child z _ x (hn z (.inr hz)) hx
  | splice key ppred pred g y o hpc hg =>
    -- the sibling was known before it became a child of `g`
    rw [hpc] at hn
    refine ⟨G, fun _ h => h, h.step (t := t) (fun q hq => State.goto_pc_of_ne hq) (fun _ h => h)
      ?_ ?_ ?_ ?_ ?_⟩
    · intro x hx d z hz
      have hz : update s.child g (update (s.child g) ppred.right o) x d = some z := hz
      by_cases hxg : x = g
      · subst hxg
        rw [update_self] at hz
        by_cases hd : d = ppred.right
        · subst hd
          rw [update_self] at hz
          exact hn z (.inr hz)
        · rw [update_of_ne hd] at hz
          exact h.child x d z hx hz
      · rw [update_of_ne hxg] at hz
        exact h.child x d z hx hz
    · intro q hq x hx
      refine update_of_ne ?_ ..
      rintro rfl
      exact h.old q x (hn x (.inl hg)) hx
    · intro x hx
      rw [State.goto_pc_self] at hx
      exact hx.elim
    · intro x hx
      rw [State.goto_pc_self] at hx
      exact hn x (.inl hx)
    · rw [State.goto_pc_self]
      trivial
  | unlock e k z hpc hz =>
    rw [hpc] at hn
    exact ⟨G, fun _ h => h, h.goto (fun _ h => h.elim) hn trivial⟩
  | storeVersion e v k z hpc hz =>
    -- after the operation no node is needed
    refine ⟨G, fun _ h => h, ?_⟩
    cases k with
    | inserted key val => exact h.setLock (fun _ h => h.elim) (fun _ h => h.elim) trivial
    | deleted key pred y => exact h.setLock (fun _ h => h.elim) (fun _ h => h.elim) trivial
  | revert key ppred pred g hpc hg =>
    rw [hpc] at hn
    exact ⟨G, fun _ h => h, h.goto (fun _ h => h.elim) hn trivial⟩
  | storeTicket key ppred pred v g hpc hg =>
    rw [hpc] at hn
    exact ⟨G, fun _ h => h, h.setLock (fun _ h => h.elim) hn trivial⟩
  | endRetry u ppred pred hpc =>
    rw [hpc] at hn
    exact ⟨G, fun _ h => h, h.goto (fun _ h => h.elim) hn trivial⟩
  | _ => exact ⟨G, fun _ h => h, h.goto (fun _ h => h.elim) (fun _ h => h.elim) trivial⟩

end

/-! ### The locks and the record -/

/-- The thread has stored the pointer and not yet released the half. -/
def Pc.stored : Pc α K V → ℕ
  | .unlock _ _ => 1
  | .storeVersion _ _ _ => 1
  | _ => 0

/-- The half of a lock that a thread is about to release is as it was loaded. -/
def Word (s : State α ι K V) : Pc α K V → Prop
  | .storeVersion e v _ => ∀ x, e.node = some x → ((s.lock x).lr e.right).version = v
  | .storeTicket _ ppred _ v => ∀ x, ppred.node = some x → ((s.lock x).lr ppred.right).ticket = v
  | _ => True

/-- The version that belongs to the number of releases. -/
def Log.version (γ : Log α ι) (x : α) (d : Bool) : BitVec 16 :=
  BitVec.ofNat 16 (γ.rounds x d)

/-- **The versions count the rounds.** -/
structure Counted (s : State α ι K V) (γ : Log α ι) : Prop where
  /-- Only one thread has a half. -/
  excl : ∀ q q' x d, (s.pc q).holds = some (x, d) → (s.pc q').holds = some (x, d) → q = q'
  held : ∀ q x d, (s.pc q).holds = some (x, d) →
    (s.lock x).lr d = ⟨γ.version x d, γ.version x d + 1⟩ ∧
    γ.stores x d = γ.rounds x d + (s.pc q).stored
  free : ∀ x d, s.allocated x = true → (∀ q, (s.pc q).holds ≠ some (x, d)) →
    γ.stores x d = γ.rounds x d ∧
    (s.lock x = .removed ∨ (s.lock x).lr d = ⟨γ.version x d, γ.version x d⟩)
  unused : ∀ x d, s.allocated x = false → γ.rounds x d = 0 ∧ γ.stores x d = 0
  word : ∀ q, Word s (s.pc q)

section

variable {s s' : State α ι K V} {γ γ' : Log α ι} {t q : ι} {p : Pc α K V} {x y z : α} {d : Bool}
  {v : BitVec 16}

theorem Word.mono (hlr : ∀ x d, p.holds = some (x, d) → (s'.lock x).lr d = (s.lock x).lr d)
    (h : Word s p) : Word s' p := by
  cases p with
  | storeVersion e v k =>
    intro x hx
    rw [hlr x e.right (Edge.half_of_node hx)]
    exact h x hx
  | storeTicket key ppred pred v =>
    intro x hx
    rw [hlr x ppred.right (Edge.half_of_node hx)]
    exact h x hx
  | _ => trivial

/-- Who has a half has a half of a node that is not removed. -/
theorem Counted.not_removed (h : Counted s γ) (hx : (s.pc q).holds = some (x, d)) :
    s.lock x ≠ .removed := by
  intro hr
  have hlr := (h.held q x d hx).1
  rw [hr] at hlr
  exact Tl.taken_ne_removed _ d hlr.symm

/-- What is known of a half that is free. -/
theorem Counted.of_free (h : Counted s γ) (hx : s.allocated x = true)
    (hlr : (s.lock x).lr d = ⟨v, v⟩) : (∀ q, (s.pc q).holds ≠ some (x, d)) ∧
      v = γ.version x d ∧ γ.stores x d = γ.rounds x d := by
  have hnot : ∀ q, (s.pc q).holds ≠ some (x, d) := by
    intro q hq
    exact Tl.free_ne_taken _ _ (hlr.symm.trans (h.held q x d hq).1)
  obtain ⟨hs, hr | hr⟩ := h.free x d hx hnot
  · rw [hr] at hlr
    exact (Tl.free_ne_removed v d hlr.symm).elim
  · obtain ⟨hv, -⟩ := Tl32.mk.inj (hlr.symm.trans hr)
    exact ⟨hnot, hv, hs⟩

/-- **A step that changes nothing** about the locks. -/
theorem Counted.quiet (h : Counted s γ) (hpcs : ∀ q, q ≠ t → s'.pc q = s.pc q)
    (halloc : s'.allocated = s.allocated) (hlock : s'.lock = s.lock)
    (hcount : ∀ x d, γ'.rounds x d = γ.rounds x d ∧ γ'.stores x d = γ.stores x d)
    (hholds : (s'.pc t).holds = (s.pc t).holds)
    (hstored : ∀ x, (s'.pc t).holds = some x → (s'.pc t).stored = (s.pc t).stored)
    (hword : Word s' (s'.pc t)) : Counted s' γ' := by
  -- the thread holds what it held
  have hh : ∀ q, (s'.pc q).holds = (s.pc q).holds := by
    intro q
    by_cases hq : q = t
    · rw [hq, hholds]
    · rw [hpcs q hq]
  -- the version of a half is the number of its rounds
  have hversion : ∀ x d, γ'.version x d = γ.version x d := by
    intro x d
    unfold Log.version
    rw [(hcount x d).1]
  exact {
    excl := by
      intro q q' x d hx hx'
      rw [hh] at hx hx'
      exact h.excl q q' x d hx hx'
    held := by
      intro q x d hx
      have hs : (s'.pc q).stored = (s.pc q).stored := by
        by_cases hq : q = t
        · rw [hq]
          rw [hq] at hx
          exact hstored _ hx
        · rw [hpcs q hq]
      rw [hh] at hx
      rw [hlock, hversion, (hcount x d).1, (hcount x d).2, hs]
      exact h.held q x d hx
    free := by
      intro x d hx hnot
      rw [halloc] at hx
      rw [hlock, hversion, (hcount x d).1, (hcount x d).2]
      exact h.free x d hx fun q hq => hnot q ((hh q).trans hq)
    unused := by
      intro x d hx
      rw [halloc] at hx
      rw [(hcount x d).1, (hcount x d).2]
      exact h.unused x d hx
    word := by
      intro q
      by_cases hq : q = t
      · rw [hq]
        exact hword
      · rw [hpcs q hq]
        exact (h.word q).mono fun x d _ => by rw [hlock] }

/-- **A step that is about one half**: the thread takes it, stores the pointer it guards or releases
it. -/
theorem Counted.half (h : Counted s γ) (hpcs : ∀ q, q ≠ t → s'.pc q = s.pc q)
    (halloc : s'.allocated = s.allocated) (hz : s.allocated z = true)
    (hlr : ∀ x d', (x, d') ≠ (z, d) → (s'.lock x).lr d' = (s.lock x).lr d')
    (hcount : ∀ x d', (x, d') ≠ (z, d) →
      γ'.rounds x d' = γ.rounds x d' ∧ γ'.stores x d' = γ.stores x d')
    (hold : ∀ x, (s.pc t).holds = some x → x = (z, d))
    (hother : ∀ q, q ≠ t → (s.pc q).holds ≠ some (z, d)) (hr : s.lock z ≠ .removed)
    (hend : (s'.pc t).holds = some (z, d) ∧
        (s'.lock z).lr d = ⟨γ'.version z d, γ'.version z d + 1⟩ ∧
        γ'.stores z d = γ'.rounds z d + (s'.pc t).stored ∨
      (s'.pc t).holds = none ∧ (s'.lock z).lr d = ⟨γ'.version z d, γ'.version z d⟩ ∧
        γ'.stores z d = γ'.rounds z d)
    (hword : Word s' (s'.pc t)) : Counted s' γ' := by
  -- the other halves have the versions that they had
  have hversion : ∀ x d', (x, d') ≠ (z, d) → γ'.version x d' = γ.version x d' := by
    intro x d' hx
    unfold Log.version
    rw [(hcount x d' hx).1]
  -- the thread held this half or none, and holds this half or none
  have hself : ∀ x, (s'.pc t).holds = some x → x = (z, d) := by
    intro x hx
    rcases hend with ⟨h', -⟩ | ⟨h', -⟩
    · exact Option.some.inj (hx.symm.trans h')
    · cases hx.symm.trans h'
  have hne : ∀ q, q ≠ t → ∀ x d', (s.pc q).holds = some (x, d') → (x, d') ≠ (z, d) := by
    intro q hq x d' hx hx'
    rw [hx'] at hx
    exact hother q hq hx
  have hexcl : ∀ q x, q ≠ t → (s'.pc t).holds = some x → (s'.pc q).holds ≠ some x := by
    intro q x hq hx hx'
    rw [hself x hx, hpcs q hq] at hx'
    exact hother q hq hx'
  exact {
    -- nobody else holds the half
    excl := by
      intro q q' x d' hx hx'
      by_cases hq : q = t
      · subst hq
        by_contra hq'
        exact hexcl q' _ (Ne.symm hq') hx hx'
      · by_cases hq' : q' = t
        · subst hq'
          exact (hexcl q _ hq hx' hx).elim
        · rw [hpcs q hq] at hx
          rw [hpcs q' hq'] at hx'
          exact h.excl q q' x d' hx hx'
    -- a held half has a store for each round that is over, and maybe the one of its own
    held := by
      intro q x d' hx
      by_cases hq : q = t
      · subst hq
        obtain ⟨rfl, rfl⟩ := Prod.mk.inj (hself _ hx)
        rcases hend with ⟨-, h₁, h₂⟩ | ⟨h', -⟩
        · exact ⟨h₁, h₂⟩
        · cases hx.symm.trans h'
      · rw [hpcs q hq] at hx ⊢
        have hxz := hne q hq x d' hx
        rw [hlr x d' hxz, hversion x d' hxz, (hcount x d' hxz).1, (hcount x d' hxz).2]
        exact h.held q x d' hx
    -- for the others it is free exactly when it was before
    free := by
      intro x d' hx hnot
      rw [halloc] at hx
      by_cases hxz : (x, d') = (z, d)
      · obtain ⟨rfl, rfl⟩ := Prod.mk.inj hxz
        rcases hend with ⟨h', -⟩ | ⟨-, h₁, h₂⟩
        · exact (hnot t h').elim
        · exact ⟨h₂, .inr h₁⟩
      · have hnot' : ∀ q, (s.pc q).holds ≠ some (x, d') := by
          intro q hq
          by_cases hqt : q = t
          · subst hqt
            exact hxz (hold _ hq)
          · rw [← hpcs q hqt] at hq
            exact hnot q hq
        obtain ⟨hs, hl⟩ := h.free x d' hx hnot'
        rw [hlr x d' hxz, hversion x d' hxz, (hcount x d' hxz).1, (hcount x d' hxz).2]
        refine ⟨hs, hl.imp_left fun hl => ?_⟩
        -- a node that is removed is another one
        have hne : x ≠ z := by
          rintro rfl
          exact hr hl
        rw [← hl]
        exact Tl.ext_lr fun b => hlr x b fun hb => hne (Prod.mk.inj hb).1
    unused := by
      intro x d' hx
      rw [halloc] at hx
      have hxz : (x, d') ≠ (z, d) := by
        intro hxz
        rw [(Prod.mk.inj hxz).1] at hx
        cases hz.symm.trans hx
      rw [(hcount x d' hxz).1, (hcount x d' hxz).2]
      exact h.unused x d' hx
    word := by
      intro q
      by_cases hq : q = t
      · rw [hq]
        exact hword
      · rw [hpcs q hq]
        exact (h.word q).mono fun x d' hx => hlr x d' (hne q hq x d' hx) }

/-- **A lock is taken for good.** -/
theorem Counted.remove (h : Counted s γ) (hpcs : ∀ q, q ≠ t → s'.pc q = s.pc q)
    (halloc : s'.allocated = s.allocated) (hlock : ∀ x, x ≠ z → s'.lock x = s.lock x)
    (hr : s'.lock z = .removed) (hz : ∀ q d, (s.pc q).holds ≠ some (z, d))
    (hzs : ∀ d, γ.stores z d = γ.rounds z d) (hholds : (s'.pc t).holds = (s.pc t).holds)
    (hstored : (s'.pc t).stored = (s.pc t).stored) (hword : Word s' (s'.pc t)) :
    Counted s' γ := by
  -- nobody holds a half of `z`, so the same are held as before
  have hh : ∀ q, (s'.pc q).holds = (s.pc q).holds ∧ (s'.pc q).stored = (s.pc q).stored := by
    intro q
    by_cases hq : q = t
    · rw [hq]
      exact ⟨hholds, hstored⟩
    · rw [hpcs q hq]
      exact ⟨rfl, rfl⟩
  have hne : ∀ q x d, (s.pc q).holds = some (x, d) → x ≠ z := by
    rintro q x d hx rfl
    exact hz q d hx
  exact {
    excl := by
      intro q q' x d hx hx'
      rw [(hh _).1] at hx hx'
      exact h.excl q q' x d hx hx'
    held := by
      intro q x d hx
      rw [(hh _).1] at hx
      rw [(hh _).2, hlock x (hne q x d hx)]
      exact h.held q x d hx
    free := by
      intro x d hx hnot
      rw [halloc] at hx
      by_cases hxz : x = z
      · subst hxz
        exact ⟨hzs d, .inl hr⟩
      · rw [hlock x hxz]
        exact h.free x d hx fun q hq => hnot q ((hh q).1.trans hq)
    unused := by
      intro x d hx
      rw [halloc] at hx
      exact h.unused x d hx
    word := by
      intro q
      by_cases hq : q = t
      · rw [hq]
        exact hword
      · rw [hpcs q hq]
        exact (h.word q).mono fun x d hx => by rw [hlock x (hne q x d hx)] }

/-- **A node is allocated.** -/
theorem Counted.alloc (h : Counted s γ) (hpcs : ∀ q, q ≠ t → s'.pc q = s.pc q)
    (hz : s.allocated z = false) (halloc : ∀ x, x ≠ z → s'.allocated x = s.allocated x)
    (hz' : s'.allocated z = true) (hlock : ∀ x, x ≠ z → s'.lock x = s.lock x)
    (hlock_z : s'.lock z = .zero) (hheld : ∀ q d, (s.pc q).holds ≠ some (z, d))
    (hself : (s.pc t).holds = none) (hself' : (s'.pc t).holds = none)
    (hword : Word s' (s'.pc t)) : Counted s' γ := by
  -- the node that is allocated was held by nobody
  have hh : ∀ q, (s'.pc q).holds = (s.pc q).holds := by
    intro q
    by_cases hq : q = t
    · rw [hq, hself, hself']
    · rw [hpcs q hq]
  have hne : ∀ q x d, (s.pc q).holds = some (x, d) → x ≠ z := by
    rintro q x d hx rfl
    exact hheld q d hx
  exact {
    excl := by
      intro q q' x d hx hx'
      rw [hh] at hx hx'
      exact h.excl q q' x d hx hx'
    held := by
      intro q x d hx
      by_cases hq : q = t
      · subst hq
        cases hself'.symm.trans hx
      · rw [hpcs q hq] at hx ⊢
        rw [hlock x (hne q x d hx)]
        exact h.held q x d hx
    free := by
      intro x d hx hnot
      by_cases hxz : x = z
      · subst hxz
        obtain ⟨h₁, h₂⟩ := h.unused x d hz
        refine ⟨h₂.trans h₁.symm, .inr ?_⟩
        rw [hlock_z, Log.version, h₁]
        rfl
      · rw [halloc x hxz] at hx
        rw [hlock x hxz]
        exact h.free x d hx fun q hq => hnot q ((hh q).trans hq)
    unused := by
      intro x d hx
      have hxz : x ≠ z := by
        rintro rfl
        cases hx.symm.trans hz'
      rw [halloc x hxz] at hx
      exact h.unused x d hx
    word := by
      intro q
      by_cases hq : q = t
      · rw [hq]
        exact hword
      · rw [hpcs q hq]
        exact (h.word q).mono fun x d hx => by rw [hlock x (hne q x d hx)] }

theorem Edge.of_half {e : Edge α} (h : e.half = some (x, d)) : e.node = some x ∧ e.right = d := by
  obtain ⟨y, hy, hyx⟩ := Option.map_eq_some_iff.mp h
  obtain ⟨rfl, hd⟩ := Prod.mk.inj hyx
  exact ⟨hy, hd⟩

/-- A thread works with the node whose lock it has. -/
theorem Pc.names_of_holds (h : p.holds = some (x, d)) : p.Names x := by
  cases p with
  | compare key val pred curr nn nr => exact .inl (Edge.of_half h).1
  | initNode key val pred curr nn nr less => exact .inl (Edge.of_half h).1
  | storeChild key val pred curr nn nr => exact .inl (Edge.of_half h).1
  | lockBoth key ppred pred curr => exact .inl (Edge.of_half h).1
  | loadSibling key ppred pred curr => exact .inl (Edge.of_half h).1
  | splice key ppred pred curr sibling => exact .inl (Edge.of_half h).1
  | unlock e k => exact (Edge.of_half h).1
  | storeVersion e v k => exact (Edge.of_half h).1
  | revert key ppred pred => exact .inl (Edge.of_half h).1
  | storeTicket key ppred pred v => exact .inl (Edge.of_half h).1
  | _ => cases h

variable [DecidableEq ι]

/-- A step of a thread that has no lock and gets none. -/
theorem Counted.goto (h : Counted s γ) (hs : (s.pc t).holds = none) (hp : p.holds = none)
    (hw : Word s p) : Counted (s.goto t p) γ := by
  refine h.quiet (t := t) (fun q hq => State.goto_pc_of_ne hq) rfl rfl (fun _ _ => ⟨rfl, rfl⟩) ?_
    ?_ ?_
  · rw [State.goto_pc_self, hs, hp]
  · intro x hx
    rw [State.goto_pc_self, hp] at hx
    cases hx
  · rw [State.goto_pc_self]
    exact hw.mono fun _ _ _ => rfl

/-- A step of a thread that keeps the lock it has. -/
theorem Counted.goto_held (h : Counted s γ) (hs : p.holds = (s.pc t).holds)
    (hstored : p.stored = (s.pc t).stored) (hw : Word s p) : Counted (s.goto t p) γ := by
  refine h.quiet (t := t) (fun q hq => State.goto_pc_of_ne hq) rfl rfl (fun _ _ => ⟨rfl, rfl⟩) ?_
    ?_ ?_
  · rw [State.goto_pc_self, hs]
  · intro x _
    rw [State.goto_pc_self, hstored]
  · rw [State.goto_pc_self]
    exact hw.mono fun _ _ _ => rfl

variable [DecidableEq α]

omit [DecidableEq ι] in
/-- The other halves stay as they are when one is stored. -/
theorem State.setLock_lr_of_ne {h : Tl32} {d' : Bool} (hx : (x, d') ≠ (z, d)) :
    ((s.setLock z ((s.lock z).set d h)).lock x).lr d' = (s.lock x).lr d' := by
  show (update s.lock z ((s.lock z).set d h) x).lr d' = _
  by_cases hxz : x = z
  · subst hxz
    rw [update_self]
    refine Tl.set_lr_of_ne ?_
    rintro rfl
    exact hx rfl
  · rw [update_of_ne hxz]

omit [DecidableEq ι] in
theorem State.setLock_lr_self {h : Tl32} :
    ((s.setLock z ((s.lock z).set d h)).lock z).lr d = h := by
  show (update s.lock z ((s.lock z).set d h) z).lr d = h
  rw [update_self]
  exact Tl.set_lr_self

/-- **A half is taken.** -/
theorem Counted.take (h : Counted s γ) (hz : s.allocated z = true)
    (hlr : (s.lock z).lr d = ⟨v, v⟩) (hs : (s.pc t).holds = none) (hp : p.holds = some (z, d))
    (hstored : p.stored = 0) (hw : ∀ s : State α ι K V, Word s p) :
    Counted ((s.setLock z ((s.lock z).set d ⟨v, v + 1⟩)).goto t p) γ := by
  obtain ⟨hnot, hv, hst⟩ := h.of_free hz hlr
  refine h.half (t := t) (z := z) (d := d) (fun q hq => State.goto_pc_of_ne hq) rfl hz
    (fun _ _ hx => State.setLock_lr_of_ne hx) (fun _ _ _ => ⟨rfl, rfl⟩) ?_ (fun q _ => hnot q) ?_
    (.inl ?_) ?_
  · intro x hx
    cases hs.symm.trans hx
  · intro hr
    rw [hr] at hlr
    exact Tl.free_ne_removed v d hlr.symm
  · rw [State.goto_pc_self]
    refine ⟨hp, ?_, ?_⟩
    · rw [← hv]
      exact State.setLock_lr_self
    · rw [hstored, hst]
      rfl
  · rw [State.goto_pc_self]
    exact hw _

/-- **A pointer is stored** by a thread that has the half that guards it. -/
theorem Counted.store {y : Option α} (h : Counted s γ) (hz : s.allocated z = true)
    (hs : (s.pc t).holds = some (z, d)) (h₀ : (s.pc t).stored = 0) (hp : p.holds = some (z, d))
    (hstored : p.stored = 1) (hw : ∀ s : State α ι K V, Word s p) :
    Counted ((s.setChild z d y).goto t p) (γ.store z d) := by
  obtain ⟨hlr, hst⟩ := h.held t z d hs
  refine h.half (t := t) (z := z) (d := d) (fun q hq => State.goto_pc_of_ne hq) rfl hz
    (fun _ _ _ => rfl) ?_ ?_ (fun q hq hq' => hq (h.excl q t z d hq' hs)) (h.not_removed hs)
    (.inl ?_) ?_
  · intro x d' hx
    refine ⟨rfl, ?_⟩
    show update γ.stores z _ x d' = _
    by_cases hxz : x = z
    · subst hxz
      have hd : d' ≠ d := by
        rintro rfl
        exact hx rfl
      rw [update_self, update_of_ne hd]
    · rw [update_of_ne hxz]
  · intro x hx
    exact Option.some.inj (hx.symm.trans hs)
  · rw [State.goto_pc_self]
    refine ⟨hp, hlr, ?_⟩
    show update γ.stores z _ z d = γ.rounds z d + _
    rw [update_self, update_self, hstored, hst, h₀]
  · rw [State.goto_pc_self]
    exact hw _

/-- **A half is released.** -/
theorem Counted.release {h' : Tl32} {n : ℕ} (h : Counted s γ) (hz : s.allocated z = true)
    (hs : (s.pc t).holds = some (z, d)) (hn : (s.pc t).stored = n)
    (hlr : h' = ⟨BitVec.ofNat 16 (γ.rounds z d + n), BitVec.ofNat 16 (γ.rounds z d + n)⟩)
    (hp : p.holds = none) (hw : ∀ s : State α ι K V, Word s p) {γ' : Log α ι}
    (hstores : γ'.stores = γ.stores) (hz' : γ'.rounds z d = γ.rounds z d + n)
    (hother : ∀ x d', (x, d') ≠ (z, d) → γ'.rounds x d' = γ.rounds x d') :
    Counted ((s.setLock z ((s.lock z).set d h')).goto t p) γ' := by
  obtain ⟨-, hst⟩ := h.held t z d hs
  refine h.half (t := t) (z := z) (d := d) (fun q hq => State.goto_pc_of_ne hq) rfl hz
    (fun _ _ hx => State.setLock_lr_of_ne hx) (fun x d' hx => ⟨hother x d' hx, by rw [hstores]⟩) ?_
    (fun q hq hq' => hq (h.excl q t z d hq' hs)) (h.not_removed hs) (.inr ?_) ?_
  · intro x hx
    exact Option.some.inj (hx.symm.trans hs)
  · rw [State.goto_pc_self]
    refine ⟨hp, ?_, ?_⟩
    · rw [Log.version, hz', ← hlr]
      exact State.setLock_lr_self
    · rw [hstores, hst, hz', hn]
  · rw [State.goto_pc_self]
    exact hw _

variable [LinearOrder K] {cfg : Config α K} {G : α → Prop}

/-- **Every step** counts. -/
theorem Counted.of_step {ev : Event α K V} (h : Counted s γ) (hk : Known cfg s G)
    (hs : Step cfg s t ev s') : Counted s' (γ.next s (t, ev)) := by
  have hn : ∀ x, (s.pc t).Names x → s.allocated x = true := fun x hx =>
    hk.allocated x (hk.names t x hx)
  have hwt := h.word t
  show Counted s' ((s.pc t).log s t γ)
  cases hs with
  | startOp op ppred pred hpc =>
    -- without a lock a step changes no count
    have h₀ : (s.pc t).holds = none := by rw [hpc]; rfl
    rw [hpc]
    cases op with
    | contains key => exact h.goto h₀ rfl trivial
    | insert key val => exact h.goto h₀ rfl trivial
    | erase key => exact h.goto h₀ rfl trivial
  | loadVer u ppred pred x hpc =>
    -- the record of a copy is no count
    have h₀ : (s.pc t).holds = none := by rw [hpc]; rfl
    have h' := h.goto (p := .readKey u pred ⟨some x, s.lock x, pred.right⟩) h₀ rfl trivial
    rw [hpc]
    exact ⟨h'.excl, h'.held, h'.free, h'.unused, h'.word⟩
  | loadChild u ppred pred x y hpc hx hy =>
    have h₀ : (s.pc t).holds = none := by rw [hpc]; rfl
    have h' := h.goto (p := .loadLeft u ppred pred y) h₀ rfl trivial
    rw [hpc, Pc.log, hx]
    exact ⟨h'.excl, h'.held, h'.free, h'.unused, h'.word⟩
  | hit u ppred pred x hpc hkx =>
    have h₀ : (s.pc t).holds = none := by rw [hpc]; rfl
    rw [hpc]
    cases u with
    | insert key val => exact h.goto h₀ rfl trivial
    | delete key => exact h.goto h₀ rfl trivial
  | miss u ppred pred x hpc hkx =>
    have h₀ : (s.pc t).holds = none := by rw [hpc]; rfl
    rw [hpc]
    cases u with
    | insert key val => exact h.goto h₀ rfl trivial
    | delete key => exact h.goto h₀ rfl trivial
  | newLeaf key val pred x a hpc ha =>
    -- a new node begins with lock word zero, and no round
    have h₀ : (s.pc t).holds = none := by rw [hpc]; rfl
    have hheld : ∀ q d, (s.pc q).holds ≠ some (a, d) := fun q d hq => by
      cases ha.symm.trans (hk.allocated a (hk.names q a (Pc.names_of_holds hq)))
    rw [hpc]
    refine h.alloc (t := t) (fun q hq => State.goto_pc_of_ne hq) ha
      (fun x hx => update_of_ne hx ..) (update_self ..) (fun x hx => update_of_ne hx ..)
      (update_self ..) hheld h₀ ?_ ?_
    · rw [State.goto_pc_self]
      rfl
    · rw [State.goto_pc_self]
      trivial
  | newNode key val pred x a b hpc hb =>
    have h₀ : (s.pc t).holds = none := by rw [hpc]; rfl
    have hheld : ∀ q d, (s.pc q).holds ≠ some (b, d) := fun q d hq => by
      cases hb.symm.trans (hk.allocated b (hk.names q b (Pc.names_of_holds hq)))
    rw [hpc]
    refine h.alloc (t := t) (fun q hq => State.goto_pc_of_ne hq) hb
      (fun x hx => update_of_ne hx ..) (update_self ..) (fun x hx => update_of_ne hx ..)
      (update_self ..) hheld h₀ ?_ ?_
    · rw [State.goto_pc_self]
      rfl
    · rw [State.goto_pc_self]
      trivial
  | lockPred key val pred z x a b l hpc hz hl =>
    -- a round begins with a ticket
    obtain ⟨v, -, hlr, rfl⟩ := Tl.trylockVersion_eq_some.mp hl
    have h₀ : (s.pc t).holds = none := by rw [hpc]; rfl
    have hz' : s.allocated z = true := hn z (by rw [hpc]; exact .inl hz)
    rw [hpc]
    exact h.take hz' hlr h₀ (Edge.half_of_node hz) rfl fun _ => trivial
  | compare key val pred x a b hpc =>
    -- under the lock, until the store, nothing is counted
    have hh : (s.pc t).holds = pred.half := by rw [hpc]; rfl
    have h₀ : (s.pc t).stored = 0 := by rw [hpc]; rfl
    rw [hpc]
    exact h.goto_held hh.symm h₀.symm trivial
  | initNode key val pred x a b less hpc =>
    have hh : (s.pc t).holds = pred.half := by rw [hpc]; rfl
    have h₀ : (s.pc t).stored = 0 := by rw [hpc]; rfl
    have h' := h.goto_held (p := .storeChild key val pred x a b) hh.symm h₀.symm trivial
    rw [hpc]
    exact ⟨h'.excl, h'.held, h'.free, h'.unused, fun q => (h'.word q).mono fun _ _ _ => rfl⟩
  | storeChild key val pred z x a b hpc hz =>
    -- the store counts, and the round is not over yet
    have hh : (s.pc t).holds = some (z, pred.right) := by
      rw [hpc]
      exact Edge.half_of_node hz
    have h₀ : (s.pc t).stored = 0 := by rw [hpc]; rfl
    have hz' : s.allocated z = true := hn z (by rw [hpc]; exact .inl hz)
    rw [hpc, Pc.log, hz]
    exact h.store hz' hh h₀ (Edge.half_of_node hz) rfl fun _ => trivial
  | lockPpred key ppred pred g x l hpc hg hl =>
    obtain ⟨v, -, hlr, rfl⟩ := Tl.trylockVersion_eq_some.mp hl
    have h₀ : (s.pc t).holds = none := by rw [hpc]; rfl
    have hg' : s.allocated g = true := hn g (by rw [hpc]; exact .inl hg)
    rw [hpc]
    exact h.take hg' hlr h₀ (Edge.half_of_node hg) rfl fun _ => trivial
  | lockBoth key ppred pred z x l hpc hz hl =>
    -- both halves at once: the two versions of the word are the removed one from here on
    obtain ⟨hv, hlr, rfl⟩ := Tl.trylockVersionBoth_eq_some.mp hl
    have hh : (s.pc t).holds = ppred.half := by rw [hpc]; rfl
    have h₀ : (s.pc t).stored = 0 := by rw [hpc]; rfl
    have hz' : s.allocated z = true := hn z (by rw [hpc]; exact .inr hz)
    have hfree : ∀ d, (∀ q, (s.pc q).holds ≠ some (z, d)) ∧ γ.stores z d = γ.rounds z d := by
      intro d
      obtain ⟨v, hv⟩ := hv d
      obtain ⟨h₁, -, h₂⟩ := h.of_free hz' ((hlr d).trans hv)
      exact ⟨h₁, h₂⟩
    rw [hpc]
    refine h.remove (t := t) (z := z) (fun q hq => State.goto_pc_of_ne hq) rfl
      (fun x hx => update_of_ne hx ..) (update_self ..) (fun q d => (hfree d).1 q)
      (fun d => (hfree d).2) ?_ ?_ ?_
    · rw [State.goto_pc_self, hh]
      rfl
    · rw [State.goto_pc_self, h₀]
      rfl
    · rw [State.goto_pc_self]
      trivial
  | lockBothFail key ppred pred z x hpc hz hl =>
    have hh : (s.pc t).holds = ppred.half := by rw [hpc]; rfl
    have h₀ : (s.pc t).stored = 0 := by rw [hpc]; rfl
    rw [hpc]
    exact h.goto_held hh.symm h₀.symm trivial
  | loadSibling key ppred pred z x hpc hz =>
    have hh : (s.pc t).holds = ppred.half := by rw [hpc]; rfl
    have h₀ : (s.pc t).stored = 0 := by rw [hpc]; rfl
    rw [hpc]
    exact h.goto_held hh.symm h₀.symm trivial
  | splice key ppred pred g x y hpc hg =>
    -- the store to `ppred` counts in its round
    have hh : (s.pc t).holds = some (g, ppred.right) := by
      rw [hpc]
      exact Edge.half_of_node hg
    have h₀ : (s.pc t).stored = 0 := by rw [hpc]; rfl
    have hg' : s.allocated g = true := hn g (by rw [hpc]; exact .inl hg)
    rw [hpc, Pc.log, hg]
    exact h.store hg' hh h₀ (Edge.half_of_node hg) rfl fun _ => trivial
  | unlock e k z hpc hz =>
    have hh : (s.pc t).holds = e.half := by rw [hpc]; rfl
    have h₀ : (s.pc t).stored = 1 := by rw [hpc]; rfl
    rw [hpc]
    refine h.goto_held hh.symm h₀.symm ?_
    intro y hy
    rw [Option.some.inj (hz.symm.trans hy)]
  | storeVersion e v k z hpc hz =>
    -- the round ends, and the version counts it
    have hh : (s.pc t).holds = some (z, e.right) := by
      rw [hpc]
      exact Edge.half_of_node hz
    have h₁ : (s.pc t).stored = 1 := by rw [hpc]; rfl
    have hz' : s.allocated z = true := hn z (by rw [hpc]; exact hz)
    have hlr := (h.held t z e.right hh).1
    rw [hpc] at hwt
    have hv : γ.version z e.right = v := by
      rw [← hwt z hz, hlr]
    have hw : ∀ s : State α ι K V, Word s k.next := by
      intro s
      cases k <;> trivial
    have hk : k.next.holds = none := by cases k <;> rfl
    rw [hpc, Pc.log, hz]
    refine h.release hz' hh h₁ ?_ hk hw rfl ?_ ?_
    · rw [hlr, ← hv, Log.version, BitVec.ofNat_add]
      rfl
    · show update γ.rounds z _ z e.right = _
      rw [update_self, update_self]
    · intro x d' hx
      show update γ.rounds z _ x d' = _
      by_cases hxz : x = z
      · subst hxz
        have hd : d' ≠ e.right := by
          rintro rfl
          exact hx rfl
        rw [update_self, update_of_ne hd]
      · rw [update_of_ne hxz]
  | revert key ppred pred g hpc hg =>
    -- the lock is given back without a store
    have hh : (s.pc t).holds = ppred.half := by rw [hpc]; rfl
    have h₀ : (s.pc t).stored = 0 := by rw [hpc]; rfl
    rw [hpc]
    refine h.goto_held hh.symm h₀.symm ?_
    intro y hy
    rw [Option.some.inj (hg.symm.trans hy)]
  | storeTicket key ppred pred v g hpc hg =>
    -- the ticket is taken back, so the counts are those of a free half
    have hh : (s.pc t).holds = some (g, ppred.right) := by
      rw [hpc]
      exact Edge.half_of_node hg
    have h₀ : (s.pc t).stored = 0 := by rw [hpc]; rfl
    have hg' : s.allocated g = true := hn g (by rw [hpc]; exact .inl hg)
    have hlr := (h.held t g ppred.right hh).1
    rw [hpc] at hwt
    have hv : γ.version g ppred.right + 1 = v := by
      rw [← hwt g hg, hlr]
    rw [hpc]
    have hw : ∀ s : State α ι K V, Word s (.endRetry (.delete key) ppred pred) := fun _ => trivial
    refine h.release hg' hh h₀ ?_ rfl hw rfl rfl fun _ _ _ => rfl
    rw [hlr, ← hv, BitVec.add_sub_cancel]
    rfl
  | _ =>
    have hpc := ‹s.pc t = _›
    have h₀ : (s.pc t).holds = none := by rw [hpc]; rfl
    rw [hpc]
    exact h.goto h₀ rfl trivial

end

end Ticket
end PopSetbench

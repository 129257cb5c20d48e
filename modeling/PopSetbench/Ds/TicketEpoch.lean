import PopSetbench.Ds.TicketLinear

/-!
# The ticket tree: which nodes an operation may still use

A reclaimer that waits for operations frees a removed node once every operation has ended that was
running when the node was retired. What keeps an operation safe from that is the moment at which a
node was cut off. `Epoch` carries along the operations that are running, and with each node that was
cut off those that were running then and have not ended since.

Every node that an operation works with was in its way: it is in the tree, or it was cut off after
the operation had begun (`Safe`). A search keeps to such nodes, since the children of a node that is
cut off are in the tree or were cut off with it or later. The only nodes that are not safe are those
of an operation that has called `endOp`, and the `pred` of an earlier attempt, which is not used.
-/

namespace PopSetbench
namespace Ticket

open Function
open ExtTree (At)

/-- The operations that run, and those that were running when a node was cut off. -/
@[ext]
structure Epoch (α ι : Type) where
  /-- Between `startOp` and `endOp`. -/
  running : ι → Bool
  /-- Who was running when the node was cut off, and has not called `endOp` since. -/
  cut : α → Option (ι → Bool)

namespace Epoch

variable {α ι K V : Type}

/-- Nobody runs, and nothing is cut off. -/
def start : Epoch α ι := ⟨fun _ => false, fun _ => none⟩

variable [DecidableEq ι] (g : Epoch α ι)

/-- `startOp`. -/
def begin (t : ι) : Epoch α ι :=
  { g with running := update g.running t true }

/-- `endOp`. -/
def finish (t : ι) : Epoch α ι :=
  ⟨update g.running t false, fun x => (g.cut x).map fun w => update w t false⟩

variable [DecidableEq α]

/-- Two nodes are cut off, from these operations. -/
def remove (x y : α) (w : ι → Bool) : Epoch α ι :=
  { g with cut := update (update g.cut x (some w)) y (some w) }

/-- What a step does: a deletion cuts off two nodes, and an insertion that has not got its lock
gives back its two new nodes, which nobody has seen. -/
def next (s : State α ι K V) (a : ι × Event α K V) (g : Epoch α ι) : Epoch α ι :=
  match a.2 with
  | .startOp => g.begin a.1
  | .endOp => g.finish a.1
  | _ =>
    match s.pc a.1 with
    | .splice _ _ pred curr _ =>
      match pred.node with
      | none => g
      | some p => g.remove p curr g.running
    | .dealloc _ _ _ nn nr => g.remove nn nr fun _ => false
    | _ => g

end Epoch

variable {α ι K V : Type}

/-- The thread is between `startOp` and `endOp`. -/
def Pc.Running : Pc α K V → Prop
  | .idle => False
  | .start _ _ _ => False
  | .readVal _ _ => False
  | .ret _ _ => False
  | _ => True

/-- The thread has allocated the node, and nobody else has seen it. -/
def Pc.Own (x : α) : Pc α K V → Prop
  | .dealloc _ _ _ nn nr => x = nn ∨ x = nr
  | p => p.New x

/-- The thread has cut off the node and has not yet retired it. -/
def After.Cuts (x : α) : After α K V → Prop
  | .inserted _ _ => False
  | .deleted _ pred curr => pred.node = some x ∨ curr = x

/-- The thread has cut off the node and has not yet retired it. -/
def Pc.Cuts (x : α) : Pc α K V → Prop
  | .unlock _ k => k.Cuts x
  | .storeVersion _ _ k => k.Cuts x
  | .retireCurr _ pred curr => pred.node = some x ∨ curr = x
  | .retirePred _ pred _ => pred.node = some x
  | _ => False

section

variable [LinearOrder K] (cfg : Config α K) (s : State α ι K V) (g : Epoch α ι)

/-- The node is in the tree. -/
def Live (x : α) : Prop :=
  ∃ u, IsTree cfg s u ∧ u.Mem x

/-- The node is in the tree, or the operation of thread `t` was running when it was cut off. -/
def Safe (t : ι) (x : α) : Prop :=
  Live cfg s x ∨ ∃ w, g.cut x = some w ∧ w t = true

variable {cfg s g} in
/-- The node of an edge is one of these. -/
def Edge.On (S : α → Prop) (e : Edge α) : Prop :=
  ∀ x, e.node = some x → S x

/-- What an update that is done goes on to use. -/
def After.On (S : α → Prop) : After α K V → Prop
  | .inserted _ _ => True
  | .deleted _ pred curr => pred.On S ∧ S curr

/-- The nodes a thread uses are all of these; the `ppred` of an earlier attempt is not used. -/
def Uses (S : α → Prop) : Pc α K V → Prop
  | .findLeft _ x => S x
  | .findKey _ x => S x
  | .findChild _ x _ => S x
  | .findTest _ x => S x
  | .loadVer _ _ pred x => S x ∧ (pred.On S ∨ x = cfg.root)
  | .readKey _ ppred pred => pred.On S ∧ (ppred.On S ∨ pred.node = some cfg.root)
  | .loadChild _ ppred pred => pred.On S ∧ (ppred.On S ∨ pred.node = some cfg.root)
  | .loadLeft u ppred pred x =>
    pred.On S ∧ S x ∧ (ppred.On S ∨ (¬ Inner s x → s.key x ≠ u.key))
  | .testKey u ppred pred x => pred.On S ∧ S x ∧ (ppred.On S ∨ s.key x ≠ u.key)
  | .endVal _ x => S x
  | .newLeaf _ _ pred x => pred.On S ∧ S x
  | .newNode _ _ pred x _ => pred.On S ∧ S x
  | .lockPred _ _ pred x _ _ => pred.On S ∧ S x
  | .compare _ _ pred x _ _ => pred.On S ∧ S x
  | .initNode _ _ pred x _ _ _ => pred.On S ∧ S x
  | .storeChild _ _ pred x _ _ => pred.On S ∧ S x
  | .lockPpred _ ppred pred x => ppred.On S ∧ pred.On S ∧ S x
  | .lockBoth _ ppred pred x => ppred.On S ∧ pred.On S ∧ S x
  | .loadSibling _ ppred pred x => ppred.On S ∧ pred.On S ∧ S x
  | .splice _ ppred pred x y => ppred.On S ∧ pred.On S ∧ S x ∧ ∀ z, y = some z → S z
  | .unlock e k => e.On S ∧ k.On S
  | .storeVersion e _ k => e.On S ∧ k.On S
  | .revert _ ppred _ => ppred.On S
  | .storeTicket _ ppred _ _ => ppred.On S
  | .retireCurr _ pred x => pred.On S ∧ S x
  | .retirePred _ pred x => pred.On S ∧ S x
  | _ => True

/-- **What is known of the nodes that were cut off.** -/
structure Watched : Prop where
  running : ∀ t, g.running t = true ↔ (s.pc t).Running
  sub : ∀ x w t, g.cut x = some w → w t = true → g.running t = true
  live : ∀ x, Live cfg s x → g.cut x = none
  /-- The children of a node that was cut off were not cut off before. -/
  next : ∀ x w t d y, g.cut x = some w → w t = true → s.child x d = some y → Safe cfg s g t y
  allocated : ∀ x w, g.cut x = some w → s.allocated x = true
  own : ∀ t x, (s.pc t).Own x → s.allocated x = true ∧ g.cut x = none ∧ ¬ Live cfg s x
  /-- A node that nobody else has seen belongs to one thread. -/
  excl : ∀ t q x, (s.pc t).Own x → (s.pc q).Own x → t = q
  cuts : ∀ t x, (s.pc t).Cuts x → g.cut x ≠ none
  uses : ∀ t, Uses cfg s (Safe cfg s g t) (s.pc t)

end

section

variable [LinearOrder K] {cfg : Config α K} {s s' : State α ι K V} {g : Epoch α ι} {t q : ι}
  {x y : α} {d : Bool} {u : ExtTree α K} {e : Edge α} {p : Pc α K V} {S S' : α → Prop}

/-! ### The nodes of the tree -/

theorem IsTree.live_iff (hu : IsTree cfg s u) : Live cfg s x ↔ u.Mem x := by
  constructor
  · rintro ⟨u', hu', hx⟩
    obtain rfl := hu'.unique hu
    exact hx
  · exact fun hx => ⟨u, hu, hx⟩

theorem Live.met (h : Live cfg s x) : Met s x := by
  obtain ⟨u, hu, hx⟩ := h
  exact hu.met x hx

theorem Live.child (h : Live cfg s x) (hy : s.child x d = some y) : Live cfg s y := by
  obtain ⟨u, hu, hx⟩ := h
  exact ⟨u, hu, hu.rep.mem_child hx hy⟩

theorem OnPath.live {key : K} (h : OnPath cfg s key x) : Live cfg s x := by
  obtain ⟨u, hu, v, hv, rfl⟩ := h
  exact ⟨u, hu, hv.mem (ExtTree.mem_root v)⟩

theorem Inv.live_root (inv : Inv cfg s) : Live cfg s cfg.root := by
  obtain ⟨u, hu⟩ := inv.tree
  refine ⟨u, hu, ?_⟩
  obtain ⟨c, rfl⟩ := hu.top
  exact .inl rfl

theorem Keeps.live_iff (h : Keeps cfg s s' t) (inv : Inv cfg s) : Live cfg s' x ↔ Live cfg s x := by
  obtain ⟨u, hu⟩ := inv.tree
  rw [hu.live_iff, (h.tree u hu).live_iff]

/-! ### What a thread uses -/

omit [LinearOrder K] in
theorem Edge.On.mono (hS : ∀ x, S x → S' x) (h : e.On S) : e.On S' :=
  fun x hx => hS x (h x hx)

omit [LinearOrder K] in
theorem Edge.on_some {ver : Tl} {right : Bool} (hx : S x) : Edge.On S ⟨some x, ver, right⟩ := by
  rintro y hy
  obtain rfl := Option.some.inj hy
  exact hx

omit [LinearOrder K] in
theorem After.On.mono {k : After α K V} (hS : ∀ x, S x → S' x) (h : k.On S) : k.On S' := by
  cases k with
  | inserted key val => trivial
  | deleted key pred curr => exact ⟨h.1.mono hS, hS curr h.2⟩

/-- A thread that is not in an operation uses nothing. -/
theorem Uses.of_not_running (h : ¬ p.Running) : Uses cfg s S p := by
  cases p with
  | idle => trivial
  | start op ppred pred => trivial
  | readVal op x => trivial
  | ret op r => trivial
  | _ => exact (h trivial).elim

theorem Uses.imp (hS : ∀ x, S x → S' x) (h : Uses cfg s S p) : Uses cfg s S' p := by
  cases p with
  | findLeft key x => exact hS x h
  | findKey key x => exact hS x h
  | findChild key x right => exact hS x h
  | findTest key x => exact hS x h
  | loadVer u ppred pred x => exact ⟨hS x h.1, h.2.imp_left (Edge.On.mono hS)⟩
  | readKey u ppred pred => exact ⟨h.1.mono hS, h.2.imp_left (Edge.On.mono hS)⟩
  | loadChild u ppred pred => exact ⟨h.1.mono hS, h.2.imp_left (Edge.On.mono hS)⟩
  | loadLeft u ppred pred x => exact ⟨h.1.mono hS, hS x h.2.1, h.2.2.imp_left (Edge.On.mono hS)⟩
  | testKey u ppred pred x => exact ⟨h.1.mono hS, hS x h.2.1, h.2.2.imp_left (Edge.On.mono hS)⟩
  | endVal op x => exact hS x h
  | newLeaf key val pred x => exact ⟨h.1.mono hS, hS x h.2⟩
  | newNode key val pred x a => exact ⟨h.1.mono hS, hS x h.2⟩
  | lockPred key val pred x a b => exact ⟨h.1.mono hS, hS x h.2⟩
  | compare key val pred x a b => exact ⟨h.1.mono hS, hS x h.2⟩
  | initNode key val pred x a b less => exact ⟨h.1.mono hS, hS x h.2⟩
  | storeChild key val pred x a b => exact ⟨h.1.mono hS, hS x h.2⟩
  | lockPpred key ppred pred x => exact ⟨h.1.mono hS, h.2.1.mono hS, hS x h.2.2⟩
  | lockBoth key ppred pred x => exact ⟨h.1.mono hS, h.2.1.mono hS, hS x h.2.2⟩
  | loadSibling key ppred pred x => exact ⟨h.1.mono hS, h.2.1.mono hS, hS x h.2.2⟩
  | splice key ppred pred x y =>
    exact ⟨h.1.mono hS, h.2.1.mono hS, hS x h.2.2.1, fun z hz => hS z (h.2.2.2 z hz)⟩
  | unlock e k => exact ⟨h.1.mono hS, h.2.mono hS⟩
  | storeVersion e v k => exact ⟨h.1.mono hS, h.2.mono hS⟩
  | revert key ppred pred => exact Edge.On.mono hS h
  | storeTicket key ppred pred v => exact Edge.On.mono hS h
  | retireCurr key pred x => exact ⟨h.1.mono hS, hS x h.2⟩
  | retirePred key pred x => exact ⟨h.1.mono hS, hS x h.2⟩
  | _ => trivial

/-- Steps of the others do not change it. -/
theorem Uses.change (c : Change cfg s s' t) (hk : Knows cfg s p) (h : Uses cfg s S p) :
    Uses cfg s' S p := by
  cases p with
  | loadLeft u ppred pred x =>
    obtain ⟨-, -, ⟨hm, -⟩, -⟩ := hk
    refine ⟨h.1, h.2.1, h.2.2.imp_right fun h hi => ?_⟩
    rw [c.key x hm]
    exact h fun hx => hi ((c.inner x hm).mpr hx)
  | testKey u ppred pred x =>
    obtain ⟨-, -, ⟨hm, -⟩, -⟩ := hk
    refine ⟨h.1, h.2.1, h.2.2.imp_right fun h => ?_⟩
    rw [c.key x hm]
    exact h
  | _ => exact h

/-- **The search goes on** to a node that may be used. -/
theorem Watched.child (h : Watched cfg s g) (hx : Safe cfg s g t x) (hy : s.child x d = some y) :
    Safe cfg s g t y := by
  rcases hx with hx | ⟨w, hw, ht⟩
  · exact .inl (hx.child hy)
  · exact h.next x w t d y hw ht hy

theorem Watched.allocated_of_safe (h : Watched cfg s g) (hx : Safe cfg s g t x) :
    s.allocated x = true := by
  rcases hx with hx | ⟨w, hw, -⟩
  · exact hx.met.1
  · exact h.allocated x w hw

omit [LinearOrder K] in
theorem State.allocated_alloc [DecidableEq α] (s : State α ι K V) (a : α)
    (hx : s.allocated x = true) : update s.allocated a true x = true := by
  by_cases h : x = a
  · subst h
    exact update_self ..
  · rwa [update_of_ne h]

/-! ### What the steps do to the nodes that were cut off -/

/-- **A step that cuts off nothing**, in the middle of an operation. -/
theorem Watched.still (h : Watched cfg s g) (inv : Inv cfg s) (c : Keeps cfg s s' t)
    (hpc : s'.pc t = p) (hrun : p.Running ↔ (s.pc t).Running)
    (hcuts : ∀ x, p.Cuts x → (s.pc t).Cuts x)
    (hown : ∀ x, p.Own x → (s.pc t).Own x ∨ s.allocated x = false ∧ s'.allocated x = true)
    (halloc : ∀ x, s.allocated x = true → s'.allocated x = true)
    (hchild : ∀ x, s.allocated x = true → ¬ (s.pc t).Own x → s'.child x = s.child x)
    (huses : Uses cfg s' (Safe cfg s g t) p) : Watched cfg s' g := by
  -- what was safe to use stays so: the live nodes are the same
  have hsafe : ∀ {q x}, Safe cfg s g q x → Safe cfg s' g q x :=
    fun hx => hx.imp_left (c.live_iff inv).mpr
  have hpcs := c.change.pcs
  exact {
    running := fun q => by
      by_cases hq : q = t
      · subst hq
        rw [hpc, hrun]
        exact h.running q
      · rw [hpcs q hq]
        exact h.running q
    sub := h.sub
    live := fun x hx => h.live x ((c.live_iff inv).mp hx)
    -- a link of a cut off node is written by its owner only, and it has none
    next := fun x w q d y hx hw hy => by
      have hnot : ¬ (s.pc t).Own x := fun ho => by
        cases hx.symm.trans (h.own t x ho).2.1
      rw [hchild x (h.allocated x w hx) hnot] at hy
      exact hsafe (h.next x w q d y hx hw hy)
    allocated := fun x w hx => halloc x (h.allocated x w hx)
    own := fun q x hx => by
      have hold : (s.pc q).Own x → s'.allocated x = true ∧ g.cut x = none ∧ ¬ Live cfg s' x := by
        intro hx
        obtain ⟨ha, hc, hl⟩ := h.own q x hx
        exact ⟨halloc x ha, hc, fun hx => hl ((c.live_iff inv).mp hx)⟩
      by_cases hq : q = t
      · subst hq
        rw [hpc] at hx
        rcases hown x hx with hx | ⟨ha, ha'⟩
        · exact hold hx
        · -- a node that is allocated now was nowhere
          refine ⟨ha', ?_, fun hx => ?_⟩
          · cases hc : g.cut x with
            | none => rfl
            | some w => cases ha.symm.trans (h.allocated x w hc)
          · cases ha.symm.trans ((c.live_iff inv).mp hx).met.1
      · rw [hpcs q hq] at hx
        exact hold hx
    -- a node that is new to the thread is new to no other one
    excl := fun q q' x hx hx' => by
      have hother : ∀ r, r ≠ t → p.Own x → (s.pc r).Own x → r = t := by
        intro r hr hx hx'
        rcases hown x hx with hx | ⟨ha, -⟩
        · exact h.excl r t x hx' hx
        · cases ha.symm.trans (h.own r x hx').1
      by_cases hq : q = t
      · subst hq
        by_cases hq' : q' = q
        · exact hq'.symm
        · rw [hpc] at hx
          rw [hpcs q' hq'] at hx'
          exact (hother q' hq' hx hx').symm
      · rw [hpcs q hq] at hx
        by_cases hq' : q' = t
        · subst hq'
          rw [hpc] at hx'
          exact hother q hq hx' hx
        · rw [hpcs q' hq'] at hx'
          exact h.excl q q' x hx hx'
    cuts := fun q x hx => by
      by_cases hq : q = t
      · subst hq
        rw [hpc] at hx
        exact h.cuts q x (hcuts x hx)
      · rw [hpcs q hq] at hx
        exact h.cuts q x hx
    -- what the others use is not written by this step
    uses := fun q => by
      by_cases hq : q = t
      · subst hq
        rw [hpc]
        exact huses.imp fun x hx => hsafe hx
      · rw [hpcs q hq]
        exact ((h.uses q).change c.change (inv.knows q)).imp fun x hx => hsafe hx }

/-- **An operation begins or ends.** -/
theorem Watched.turn {g' : Epoch α ι} {b : Bool} [DecidableEq ι] (h : Watched cfg s g)
    (inv : Inv cfg s) (c : Keeps cfg s s' t) (hpc : s'.pc t = p) (hown : ∀ x, ¬ p.Own x)
    (hcuts : ∀ x, ¬ p.Cuts x) (hchild : s'.child = s.child) (halloc : s'.allocated = s.allocated)
    (hrun : g'.running = update g.running t b) (hb : b = true ↔ p.Running)
    (hold : ∀ x w', g'.cut x = some w' →
      ∃ w, g.cut x = some w ∧ ∀ q, w' q = true → q ≠ t ∧ w q = true)
    (hnew : ∀ x w, g.cut x = some w →
      ∃ w', g'.cut x = some w' ∧ ∀ q, q ≠ t → w q = true → w' q = true)
    (huses : Uses cfg s' (Safe cfg s' g' t) p) : Watched cfg s' g' := by
  -- those who were running and go on running wait as before
  have hsafe : ∀ {q x}, q ≠ t → Safe cfg s g q x → Safe cfg s' g' q x := by
    rintro q x hq (hx | ⟨w, hw, hwq⟩)
    · exact .inl ((c.live_iff inv).mpr hx)
    · obtain ⟨w', hw', hsub⟩ := hnew x w hw
      exact .inr ⟨w', hw', hsub q hq hwq⟩
  -- nothing is cut off by an `endOp` or a `startOp`
  have hnone : ∀ x, g.cut x = none → g'.cut x = none := by
    intro x hx
    cases hx' : g'.cut x with
    | none => rfl
    | some w' =>
      obtain ⟨w, hw, -⟩ := hold x w' hx'
      cases hx.symm.trans hw
  have hpcs := c.change.pcs
  -- the acting thread owns nothing here
  have hne : ∀ {q : ι} {x : α}, (s'.pc q).Own x → q ≠ t := by
    rintro q x hx rfl
    rw [hpc] at hx
    exact hown x hx
  exact {
    running := fun q => by
      rw [hrun]
      by_cases hq : q = t
      · subst hq
        rw [update_self, hpc]
        exact hb
      · rw [update_of_ne hq, hpcs q hq]
        exact h.running q
    -- the set of waiters shrinks by the thread whose operation ends
    sub := fun x w' q hx hw => by
      obtain ⟨w, hx, hsub⟩ := hold x w' hx
      obtain ⟨hq, hw⟩ := hsub q hw
      rw [hrun, update_of_ne hq]
      exact h.sub x w q hx hw
    live := fun x hx => hnone x (h.live x ((c.live_iff inv).mp hx))
    next := fun x w' q d y hx hw hy => by
      obtain ⟨w, hx, hsub⟩ := hold x w' hx
      obtain ⟨hq, hw⟩ := hsub q hw
      rw [hchild] at hy
      exact hsafe hq (h.next x w q d y hx hw hy)
    allocated := fun x w' hx => by
      obtain ⟨w, hx, -⟩ := hold x w' hx
      rw [halloc]
      exact h.allocated x w hx
    own := fun q x hx => by
      have hq := hne hx
      rw [hpcs q hq] at hx
      obtain ⟨ha, hc, hl⟩ := h.own q x hx
      rw [halloc]
      exact ⟨ha, hnone x hc, fun hx => hl ((c.live_iff inv).mp hx)⟩
    excl := fun q q' x hx hx' => by
      have hq := hne hx
      have hq' := hne hx'
      rw [hpcs q hq] at hx
      rw [hpcs q' hq'] at hx'
      exact h.excl q q' x hx hx'
    -- what the thread was to retire has been retired before its operation ends
    cuts := fun q x hx => by
      by_cases hq : q = t
      · subst hq
        rw [hpc] at hx
        exact (hcuts x hx).elim
      · rw [hpcs q hq] at hx
        obtain ⟨w, hw⟩ := Option.ne_none_iff_exists'.mp (h.cuts q x hx)
        obtain ⟨w', hw', -⟩ := hnew x w hw
        exact Option.ne_none_iff_exists'.mpr ⟨w', hw'⟩
    uses := fun q => by
      by_cases hq : q = t
      · subst hq
        rw [hpc]
        exact huses
      · rw [hpcs q hq]
        exact ((h.uses q).change c.change (inv.knows q)).imp fun x hx => hsafe hq hx }

section

variable [DecidableEq α] [DecidableEq ι]

omit [LinearOrder K] [DecidableEq ι] in
theorem Epoch.remove_cut_of_ne {w : ι → Bool} {z : α} (hx : z ≠ x) (hy : z ≠ y) :
    (g.remove x y w).cut z = g.cut z := by
  show update (update g.cut x (some w)) y (some w) z = _
  rw [update_of_ne hy, update_of_ne hx]

omit [LinearOrder K] [DecidableEq ι] in
theorem Epoch.remove_cut {w : ι → Bool} {z : α} (hz : z = x ∨ z = y) :
    (g.remove x y w).cut z = some w := by
  show update (update g.cut x (some w)) y (some w) z = _
  by_cases hy : z = y
  · subst hy
    rw [update_self]
  · rw [update_of_ne hy]
    obtain rfl := hz.resolve_right hy
    rw [update_self]

omit [LinearOrder K] [DecidableEq ι] in
theorem Epoch.remove_cut_cases {w : ι → Bool} {z : α} :
    (z = x ∨ z = y) ∧ (g.remove x y w).cut z = some w ∨
      z ≠ x ∧ z ≠ y ∧ (g.remove x y w).cut z = g.cut z := by
  by_cases hz : z = x ∨ z = y
  · exact .inl ⟨hz, Epoch.remove_cut hz⟩
  · obtain ⟨hx, hy⟩ := not_or.mp hz
    exact .inr ⟨hx, hy, Epoch.remove_cut_of_ne hx hy⟩

omit [DecidableEq ι] in
/-- **Nodes that nobody has seen** are given back. -/
theorem Watched.give (h : Watched cfg s g) (ha : ∀ z, z = x ∨ z = y → s.allocated z = true ∧
      g.cut z = none ∧ ¬ Live cfg s z ∧ ∀ q, ¬ (s.pc q).Own z) :
    Watched cfg s (g.remove x y fun _ => false) := by
  -- nobody waits for the two nodes, but nobody could use them either
  have hsafe : ∀ {q z}, Safe cfg s g q z → Safe cfg s (g.remove x y fun _ => false) q z := by
    rintro q z (hz | ⟨w, hw, hwq⟩)
    · exact .inl hz
    · rcases g.remove_cut_cases (x := x) (y := y) (z := z) with ⟨hz, -⟩ | ⟨-, -, hcut⟩
      · cases (ha z hz).2.1.symm.trans hw
      · exact .inr ⟨w, hcut.trans hw, hwq⟩
  exact {
    running := h.running
    -- the two are waited for by nobody, the others as before
    sub := fun z w q hz hw => by
      rcases g.remove_cut_cases (x := x) (y := y) (z := z) with ⟨-, hcut⟩ | ⟨-, -, hcut⟩
      · obtain rfl := Option.some.inj (hcut.symm.trans hz)
        cases hw
      · exact h.sub z w q (hcut.symm.trans hz) hw
    live := fun z hz => by
      rcases g.remove_cut_cases (x := x) (y := y) (z := z) with ⟨hxy, -⟩ | ⟨-, -, hcut⟩
      · exact ((ha z hxy).2.2.1 hz).elim
      · exact hcut.trans (h.live z hz)
    next := fun z w q d z' hz hw hz' => by
      rcases g.remove_cut_cases (x := x) (y := y) (z := z) with ⟨-, hcut⟩ | ⟨-, -, hcut⟩
      · obtain rfl := Option.some.inj (hcut.symm.trans hz)
        cases hw
      · exact hsafe (h.next z w q d z' (hcut.symm.trans hz) hw hz')
    allocated := fun z w hz => by
      rcases g.remove_cut_cases (x := x) (y := y) (z := z) with ⟨hxy, -⟩ | ⟨-, -, hcut⟩
      · exact (ha z hxy).1
      · exact h.allocated z w (hcut.symm.trans hz)
    -- no one else owns one of them
    own := fun q z hz => by
      obtain ⟨halloc, hnone, hl⟩ := h.own q z hz
      rcases g.remove_cut_cases (x := x) (y := y) (z := z) with ⟨hxy, -⟩ | ⟨-, -, hcut⟩
      · exact ((ha z hxy).2.2.2 q hz).elim
      · exact ⟨halloc, hcut.trans hnone, hl⟩
    excl := h.excl
    cuts := fun q z hz => by
      rcases g.remove_cut_cases (x := x) (y := y) (z := z) with ⟨-, hcut⟩ | ⟨-, -, hcut⟩
      · rw [hcut]
        exact Option.some_ne_none _
      · rw [hcut]
        exact h.cuts q z hz
    uses := fun q => (h.uses q).imp fun z hz => hsafe hz }

/-- The new nodes of an insertion are linked. -/
theorem Watched.insert {key : K} {val : V} {pred : Edge α} {a b : α} (h : Watched cfg s g)
    (inv : Inv cfg s) (hpc : s.pc t = .storeChild key val pred x a b) (hp : pred.node = some y)
    (hs : s' = (s.setChild y pred.right (some b)).goto t (.unlock pred (.inserted key val))) :
    Watched cfg s' g := by
  obtain ⟨u, hu⟩ := inv.tree
  obtain ⟨u', c, hu', -, -, -, -, -, hmem⟩ := inv.insert hu hpc hp hs
  -- the new nodes are live from here on, and nothing else changes its place
  have hlive : ∀ {z}, Live cfg s' z ↔ Live cfg s z ∨ z = a ∨ z = b := by
    intro z
    rw [hu'.live_iff, hu.live_iff, hmem]
  have hsafe : ∀ {q z}, Safe cfg s g q z → Safe cfg s' g q z :=
    fun hz => hz.imp_left fun hz => hlive.mpr (.inl hz)
  -- the two nodes were the thread's own
  have hab : ∀ {z}, z = a ∨ z = b → (s.pc t).Own z := by
    intro z hz
    rw [hpc]
    exact hz
  have huses := h.uses t
  have hk := inv.knows t
  rw [hpc] at huses hk
  have hhold : (s.pc t).holds = some (y, pred.right) := by
    rw [hpc]
    exact Edge.half_of_node hp
  -- the node that is written to is live, as its lock is held
  have hy : Live cfg s y := (hk.1.edge.onPath hp (inv.not_removed hhold)).live
  have hchild : ∀ z, z ≠ y → s'.child z = s.child z := by
    rw [hs]
    exact fun z hz => update_of_ne hz ..
  have hpc' : s'.pc t = .unlock pred (.inserted key val) := by
    rw [hs]
    exact State.goto_pc_self
  have hpcs := c.pcs
  have hne : ∀ {q : ι} {z : α}, (s'.pc q).Own z → q ≠ t := by
    rintro q z hz rfl
    rw [hpc'] at hz
    exact hz
  exact {
    -- the operation goes on
    running := fun q => by
      by_cases hq : q = t
      · subst hq
        have hrun := h.running q
        rw [hpc] at hrun
        rw [hpc']
        exact hrun
      · rw [hpcs q hq]
        exact h.running q
    sub := h.sub
    -- what is live now was live or new, and neither has been cut off
    live := fun z hz => by
      rcases hlive.mp hz with hz | hz
      · exact h.live z hz
      · exact (h.own t z (hab hz)).2.1
    next := fun z w q d z' hz hw hz' => by
      -- the node whose pointer was changed is in the tree
      have hzy : z ≠ y := by
        rintro rfl
        cases hz.symm.trans (h.live z hy)
      rw [hchild z hzy] at hz'
      exact hsafe (h.next z w q d z' hz hw hz')
    allocated := fun z w hz => by
      rw [hs]
      exact h.allocated z w hz
    -- the nodes that were linked are nobody's own any more
    own := fun q z hz => by
      have hq := hne hz
      rw [hpcs q hq] at hz
      obtain ⟨ha, hc, hl⟩ := h.own q z hz
      refine ⟨?_, hc, fun hz' => ?_⟩
      · rw [hs]
        exact ha
      · rcases hlive.mp hz' with hz' | hz'
        · exact hl hz'
        · exact hq (h.excl q t z hz (hab hz'))
    excl := fun q q' z hz hz' => by
      have hq := hne hz
      have hq' := hne hz'
      rw [hpcs q hq] at hz
      rw [hpcs q' hq'] at hz'
      exact h.excl q q' z hz hz'
    -- there is nothing to retire after an insertion
    cuts := fun q z hz => by
      by_cases hq : q = t
      · subst hq
        rw [hpc'] at hz
        exact hz.elim
      · rw [hpcs q hq] at hz
        exact h.cuts q z hz
    uses := fun q => by
      by_cases hq : q = t
      · subst hq
        rw [hpc']
        exact ⟨huses.1.mono fun z hz => hsafe hz, trivial⟩
      · rw [hpcs q hq]
        exact ((h.uses q).change c (inv.knows q)).imp fun z hz => hsafe hz }

/-- Where a deletion splices, the leaf and the two nodes above it are in the tree. -/
theorem Inv.live_of_splice {key : K} {ppred pred : Edge α} {z p : α} {o : Option α}
    (inv : Inv cfg s) (hpc : s.pc t = .splice key ppred pred x o) (hg : ppred.node = some z)
    (hp : pred.node = some p) : Live cfg s z ∧ Live cfg s p ∧ Live cfg s x := by
  obtain ⟨u, hu⟩ := inv.tree
  obtain ⟨-, -, -, ⟨cg, cp, hat, hcp, hleaf⟩, -⟩ := inv.delete hu hpc hg hp rfl
  have hatp : At key u (.node p (s.key p) cp) := hcp ▸ hat.step
  have hatx : At key u (.leaf x key) := hleaf ▸ hatp.step
  rw [hu.live_iff, hu.live_iff, hu.live_iff]
  exact ⟨hat.mem (.inl rfl), hatp.mem (.inl rfl), hatx.isLeaf.mem⟩

/-- A leaf and its parent are cut off. -/
theorem Watched.delete {key : K} {ppred pred : Edge α} {z p : α} {o : Option α}
    (h : Watched cfg s g) (inv : Inv cfg s) (hpc : s.pc t = .splice key ppred pred x o)
    (hg : ppred.node = some z) (hp : pred.node = some p)
    (hs : s' = (s.setChild z ppred.right o).goto t (.unlock ppred (.deleted key pred x))) :
    Watched cfg s' (g.remove p x g.running) := by
  obtain ⟨u, hu⟩ := inv.tree
  obtain ⟨u', c, hu', -, -, -, hmem⟩ := inv.delete hu hpc hg hp hs
  -- the leaf and its parent leave the tree
  have hlive : ∀ {y}, Live cfg s' y ↔ Live cfg s y ∧ y ≠ p ∧ y ≠ x := by
    intro y
    rw [hu'.live_iff, hu.live_iff, hmem]
  obtain ⟨hz, hp', hx⟩ : Live cfg s z ∧ Live cfg s p ∧ Live cfg s x :=
    inv.live_of_splice hpc hg hp
  have hcut : ∀ {y}, y = p ∨ y = x → Live cfg s y := by
    rintro y (rfl | rfl)
    · exact hp'
    · exact hx
  -- who is running may go on using the two nodes, and only the others may not
  have hsafe : ∀ {q y}, (s.pc q).Running → Safe cfg s g q y →
      Safe cfg s' (g.remove p x g.running) q y := by
    intro q y hq hy
    rcases g.remove_cut_cases (w := g.running) (x := p) (y := x) (z := y) with
      ⟨-, hcut⟩ | ⟨hyp, hyx, hcut⟩
    · exact .inr ⟨_, hcut, (h.running q).mpr hq⟩
    · refine hy.imp (fun hy => hlive.mpr ⟨hy, hyp, hyx⟩) ?_
      rintro ⟨w, hw, hwq⟩
      exact ⟨w, hcut.trans hw, hwq⟩
  have huses := h.uses t
  have hk := inv.knows t
  rw [hpc] at huses hk
  -- a single link is written
  have hchild : ∀ y, y ≠ z → s'.child y = s.child y := by
    rw [hs]
    exact fun y hy => update_of_ne hy ..
  -- the children of the two nodes were in the tree until now
  have hstay : ∀ {y d y'}, Live cfg s y → s'.child y d = some y' → Live cfg s y' := by
    intro y d y' hy hy'
    by_cases hyz : y = z ∧ d = ppred.right
    · obtain ⟨rfl, rfl⟩ := hyz
      have hset : s'.child y ppred.right = o := by
        rw [hs]
        show update s.child y (update (s.child y) ppred.right o) y ppred.right = o
        rw [update_self, update_self]
      have hsib : s.child p (!pred.right) = o := (hk.2.2.2 p hp).2
      exact hp'.child (hsib.trans (hset.symm.trans hy'))
    · refine hy.child (d := d) ?_
      rw [← hy', hs]
      show s.child y d = update s.child z (update (s.child z) ppred.right o) y d
      by_cases hyz' : y = z
      · subst hyz'
        rw [update_self, update_of_ne fun hd => hyz ⟨rfl, hd⟩]
      · rw [update_of_ne hyz']
  have hpc' : s'.pc t = .unlock ppred (.deleted key pred x) := by
    rw [hs]
    exact State.goto_pc_self
  have hpcs := c.pcs
  have hne : ∀ {q : ι} {y : α}, (s'.pc q).Own y → q ≠ t := by
    rintro q y hy rfl
    rw [hpc'] at hy
    exact hy
  exact {
    -- the operation goes on, and has the two nodes to retire
    running := fun q => by
      by_cases hq : q = t
      · subst hq
        have hrun := h.running q
        rw [hpc] at hrun
        rw [hpc']
        exact hrun
      · rw [hpcs q hq]
        exact h.running q
    -- only running threads are waited for
    sub := fun y w q hy hw => by
      rcases g.remove_cut_cases (w := g.running) (x := p) (y := x) (z := y) with
        ⟨-, hcut⟩ | ⟨-, -, hcut⟩
      · obtain rfl := Option.some.inj (hcut.symm.trans hy)
        exact hw
      · exact h.sub y w q (hcut.symm.trans hy) hw
    live := fun y hy => by
      obtain ⟨hy, hyp, hyx⟩ := hlive.mp hy
      rw [Epoch.remove_cut_of_ne hyp hyx]
      exact h.live y hy
    -- the links of the two nodes lead to nodes that were live until now
    next := fun y w q d y' hy hw hy' => by
      rcases g.remove_cut_cases (w := g.running) (x := p) (y := x) (z := y) with
        ⟨hyp, hcut'⟩ | ⟨-, -, hcut'⟩
      · obtain rfl := Option.some.inj (hcut'.symm.trans hy)
        exact hsafe ((h.running q).mp hw) (.inl (hstay (hcut hyp) hy'))
      · have hy := hcut'.symm.trans hy
        have hyz : y ≠ z := by
          rintro rfl
          cases hy.symm.trans (h.live y hz)
        rw [hchild y hyz] at hy'
        exact hsafe ((h.running q).mp (h.sub y w q hy hw)) (h.next y w q d y' hy hw hy')
    allocated := fun y w hy => by
      rw [hs]
      rcases g.remove_cut_cases (w := g.running) (x := p) (y := x) (z := y) with
        ⟨hyp, -⟩ | ⟨-, -, hcut'⟩
      · exact (hcut hyp).met.1
      · exact h.allocated y w (hcut'.symm.trans hy)
    -- a new node of somebody is none of the two
    own := fun q y hy => by
      have hq := hne hy
      rw [hpcs q hq] at hy
      obtain ⟨ha, hc, hl⟩ := h.own q y hy
      have hyp : y ≠ p := fun hyp => hl (hcut (.inl hyp))
      have hyx : y ≠ x := fun hyx => hl (hcut (.inr hyx))
      refine ⟨?_, (Epoch.remove_cut_of_ne hyp hyx).trans hc, fun hy' => hl (hlive.mp hy').1⟩
      rw [hs]
      exact ha
    excl := fun q q' y hy hy' => by
      have hq := hne hy
      have hq' := hne hy'
      rw [hpcs q hq] at hy
      rw [hpcs q' hq'] at hy'
      exact h.excl q q' y hy hy'
    -- the thread has the two nodes to retire
    cuts := fun q y hy => by
      rcases g.remove_cut_cases (w := g.running) (x := p) (y := x) (z := y) with
        ⟨-, hcut'⟩ | ⟨hyp, hyx, hcut'⟩
      · rw [hcut']
        exact Option.some_ne_none _
      · rw [hcut']
        by_cases hq : q = t
        · subst hq
          rw [hpc'] at hy
          rcases hy with hy | hy
          · exact (hyp (Option.some.inj (hy.symm.trans hp))).elim
          · exact (hyx hy.symm).elim
        · rw [hpcs q hq] at hy
          exact h.cuts q y hy
    -- who is running was safe before and is so after the step
    uses := fun q => by
      by_cases hq : q = t
      · subst hq
        have hrun : (s.pc q).Running := by
          rw [hpc]
          trivial
        rw [hpc']
        exact ⟨huses.1.mono fun y hy => hsafe hrun hy, huses.2.1.mono fun y hy => hsafe hrun hy,
          hsafe hrun huses.2.2.1⟩
      · rw [hpcs q hq]
        by_cases hrun : (s.pc q).Running
        · exact ((h.uses q).change c (inv.knows q)).imp fun y hy => hsafe hrun hy
        · exact .of_not_running hrun }

omit [DecidableEq α] [DecidableEq ι] in
/-- A step that changes no pointer and allocates nothing. -/
theorem Watched.pass {p' : Pc α K V} (h : Watched cfg s g) (inv : Inv cfg s)
    (c : Keeps cfg s s' t) (hpc : s.pc t = p) (hpc' : s'.pc t = p')
    (hsame : s'.child = s.child ∧ s'.allocated = s.allocated) (hrun : p'.Running ↔ p.Running)
    (hcuts : ∀ x, p'.Cuts x → p.Cuts x) (hown : ∀ x, p'.Own x → p.Own x)
    (huses : Uses cfg s' (Safe cfg s g t) p') : Watched cfg s' g := by
  refine h.still inv c hpc' ?_ ?_ (fun x hx => .inl ?_) ?_ ?_ huses
  · rw [hpc]
    exact hrun
  · rw [hpc]
    exact hcuts
  · rw [hpc]
    exact hown x hx
  · rw [hsame.2]
    exact fun _ h => h
  · rw [hsame.1]
    exact fun _ _ _ => rfl

/-- A step that cuts off nothing and gives nothing back. -/
def Pc.Still : Pc α K V → Prop
  | .splice _ _ _ _ _ => False
  | .dealloc _ _ _ _ _ => False
  | _ => True

omit [LinearOrder K] in
theorem Epoch.next_still {ev : Event α K V} (hpc : s.pc t = p) (hp : p.Still)
    (hstart : ev ≠ .startOp) (hend : ev ≠ .endOp) : g.next s (t, ev) = g := by
  unfold Epoch.next
  rw [hpc]
  cases ev with
  | startOp => exact (hstart rfl).elim
  | endOp => exact (hend rfl).elim
  | _ =>
    cases p with
    | splice => exact hp.elim
    | dealloc => exact hp.elim
    | _ => rfl

/-- A step in the middle of an operation, or between two. -/
theorem Watched.step_still {ev : Event α K V} (h : Watched cfg s g) (inv : Inv cfg s)
    (hok : Sound s (t, ev)) (hs : Step cfg s t ev s') (hstill : (s.pc t).Still)
    (hstart : ev ≠ .startOp) (hend : ev ≠ .endOp) : Watched cfg s' g := by
  have hkeeps : (s.pc t).Quiet → Keeps cfg s s' t := fun hq => hs.keeps inv hok hq
  have huses := h.uses t
  have hk := inv.knows t
  cases hs with
  | invoke op hpc hmin hmax =>
    rw [hpc] at hkeeps
    exact h.pass inv (hkeeps trivial) hpc State.goto_pc_self ⟨rfl, rfl⟩ Iff.rfl
      (fun _ h => h.elim) (fun _ h => h.elim) trivial
  | startOp op ppred pred hpc => exact (hstart rfl).elim
  | findLeft key x hpc hl =>
    -- the walk uses one node after the other, and each is safe as the child of a safe one
    rw [hpc] at hkeeps huses
    exact h.pass inv (hkeeps trivial) hpc State.goto_pc_self ⟨rfl, rfl⟩ Iff.rfl
      (fun _ h => h.elim) (fun _ h => h.elim) huses
  | findNull key x hpc hl =>
    rw [hpc] at hkeeps huses
    exact h.pass inv (hkeeps trivial) hpc State.goto_pc_self ⟨rfl, rfl⟩ Iff.rfl
      (fun _ h => h.elim) (fun _ h => h.elim) huses
  | findKey key x hpc =>
    rw [hpc] at hkeeps huses
    exact h.pass inv (hkeeps trivial) hpc State.goto_pc_self ⟨rfl, rfl⟩ Iff.rfl
      (fun _ h => h.elim) (fun _ h => h.elim) huses
  | findChild key x y right hpc hy =>
    rw [hpc] at hkeeps huses
    exact h.pass inv (hkeeps trivial) hpc State.goto_pc_self ⟨rfl, rfl⟩ Iff.rfl
      (fun _ h => h.elim) (fun _ h => h.elim) (h.child huses hy)
  | findHit key x hpc hx =>
    rw [hpc] at hkeeps huses
    exact h.pass inv (hkeeps trivial) hpc State.goto_pc_self ⟨rfl, rfl⟩ Iff.rfl
      (fun _ h => h.elim) (fun _ h => h.elim) huses
  | findMiss key x hpc hx =>
    rw [hpc] at hkeeps
    exact h.pass inv (hkeeps trivial) hpc State.goto_pc_self ⟨rfl, rfl⟩ Iff.rfl
      (fun _ h => h.elim) (fun _ h => h.elim) trivial
  | loadVer u ppred pred x hpc =>
    -- the edges move on: `pred` becomes `ppred`
    rw [hpc] at hkeeps huses
    exact h.pass inv (hkeeps trivial) hpc State.goto_pc_self ⟨rfl, rfl⟩ Iff.rfl
      (fun _ h => h.elim) (fun _ h => h.elim)
      ⟨Edge.on_some huses.1, huses.2.imp_right (congrArg some)⟩
  | readKey u ppred pred x hpc hx =>
    rw [hpc] at hkeeps huses
    exact h.pass inv (hkeeps trivial) hpc State.goto_pc_self ⟨rfl, rfl⟩ Iff.rfl
      (fun _ h => h.elim) (fun _ h => h.elim)
      ⟨Edge.on_some (huses.1 x hx), huses.2.imp_right hx.symm.trans⟩
  | loadChild u ppred pred x y hpc hx hy =>
    rw [hpc] at hkeeps huses hk
    obtain ⟨hu, ⟨z, hz, -, -, hd⟩, -⟩ := hk
    obtain rfl : x = z := Option.some.inj (hx.symm.trans hz)
    refine h.pass inv (hkeeps trivial) hpc State.goto_pc_self ⟨rfl, rfl⟩ Iff.rfl
      (fun _ h => h.elim) (fun _ h => h.elim)
      ⟨huses.1, h.child (huses.1 x hx) hy, huses.2.imp_right fun hroot => ?_⟩
    -- below the root there is no leaf with a user key
    obtain rfl : x = cfg.root := Option.some.inj (hx.symm.trans hroot)
    obtain ⟨w, hw⟩ := inv.tree
    rw [hd, hw.key_root] at hy
    exact hw.key_below_root hu hy
  | loadLeft u ppred pred x hpc hl =>
    rw [hpc] at hkeeps huses
    exact h.pass inv (hkeeps trivial) hpc State.goto_pc_self ⟨rfl, rfl⟩ Iff.rfl
      (fun _ h => h.elim) (fun _ h => h.elim) ⟨huses.2.1, .inl huses.1⟩
  | loadNull u ppred pred x hpc hl =>
    rw [hpc] at hkeeps huses
    exact h.pass inv (hkeeps trivial) hpc State.goto_pc_self ⟨rfl, rfl⟩ Iff.rfl
      (fun _ h => h.elim) (fun _ h => h.elim)
      ⟨huses.1, huses.2.1, huses.2.2.imp_right fun hne => hne fun hi => hi hl⟩
  | hit u ppred pred x hpc hkx =>
    -- the nodes that a leaf was reached by are safe, as they were met in this operation
    rw [hpc] at hkeeps huses
    cases u with
    | insert key val =>
      exact h.pass inv (hkeeps trivial) hpc State.goto_pc_self ⟨rfl, rfl⟩ Iff.rfl
        (fun _ h => h.elim) (fun _ h => h.elim) huses.2.1
    | delete key =>
      have hppred := huses.2.2.resolve_right fun hne => hne hkx
      exact h.pass inv (hkeeps trivial) hpc State.goto_pc_self ⟨rfl, rfl⟩ Iff.rfl
        (fun _ h => h.elim) (fun _ h => h.elim) ⟨hppred, huses.1, huses.2.1⟩
  | miss u ppred pred x hpc hkx =>
    rw [hpc] at hkeeps huses
    cases u with
    | insert key val =>
      exact h.pass inv (hkeeps trivial) hpc State.goto_pc_self ⟨rfl, rfl⟩ Iff.rfl
        (fun _ h => h.elim) (fun _ h => h.elim) ⟨huses.1, huses.2.1⟩
    | delete key =>
      exact h.pass inv (hkeeps trivial) hpc State.goto_pc_self ⟨rfl, rfl⟩ Iff.rfl
        (fun _ h => h.elim) (fun _ h => h.elim) trivial
  | newLeaf key val pred x a hpc ha =>
    -- the leaf allocated here is the thread's own, and nobody waits for it
    rw [hpc] at hkeeps huses
    have hmem : (update s.allocated a true) a = true := update_self ..
    refine h.still inv (hkeeps trivial) State.goto_pc_self ?_ ?_ ?_ ?_ ?_ huses
    · rw [hpc]
      exact Iff.rfl
    · exact fun _ h => h.elim
    · rintro y rfl
      exact .inr ⟨ha, hmem⟩
    · exact fun y hy => s.allocated_alloc a hy
    · intro y hy _
      refine update_of_ne ?_ ..
      rintro rfl
      cases ha.symm.trans hy
  | newNode key val pred x a b hpc hb =>
    rw [hpc] at hkeeps huses
    have hmem : (update s.allocated b true) b = true := update_self ..
    refine h.still inv (hkeeps trivial) State.goto_pc_self ?_ ?_ ?_ ?_ ?_ huses
    · rw [hpc]
      exact Iff.rfl
    · exact fun _ h => h.elim
    · rw [hpc]
      rintro y (rfl | rfl)
      · exact .inl rfl
      · exact .inr ⟨hb, hmem⟩
    · exact fun y hy => s.allocated_alloc b hy
    · exact fun y _ _ => rfl
  | lockPred key val pred p x a b l hpc hp hl =>
    -- the locks change no link, so what is safe stays so
    rw [hpc] at hkeeps huses
    exact h.pass inv (hkeeps trivial) hpc State.goto_pc_self ⟨rfl, rfl⟩ Iff.rfl
      (fun _ h => h.elim) (fun _ h => h) huses
  | lockPredFail key val pred p x a b hpc hp hl =>
    rw [hpc] at hkeeps huses
    exact h.pass inv (hkeeps trivial) hpc State.goto_pc_self ⟨rfl, rfl⟩ Iff.rfl
      (fun _ h => h.elim) (fun _ h => h) trivial
  | dealloc key val pred a b hpc =>
    rw [hpc] at hstill
    exact hstill.elim
  | compare key val pred x a b hpc =>
    rw [hpc] at hkeeps huses
    exact h.pass inv (hkeeps trivial) hpc State.goto_pc_self ⟨rfl, rfl⟩ Iff.rfl
      (fun _ h => h.elim) (fun _ h => h) huses
  | initNode key val pred x a b less hpc =>
    -- only the thread's own node is written to
    rw [hpc] at hkeeps huses
    refine h.still inv (hkeeps trivial) State.goto_pc_self ?_ ?_ ?_ ?_ ?_ huses
    · rw [hpc]
      exact Iff.rfl
    · exact fun _ h => h.elim
    · rw [hpc]
      exact fun y hy => .inl hy
    · exact fun _ h => h
    · rw [hpc]
      intro y _ hy
      refine update_of_ne ?_ ..
      rintro rfl
      exact hy (.inr rfl)
  | storeChild key val pred p x a b hpc hp => exact h.insert inv hpc hp rfl
  | lockPpred key ppred pred y x l hpc hg hl =>
    rw [hpc] at hkeeps huses
    exact h.pass inv (hkeeps trivial) hpc State.goto_pc_self ⟨rfl, rfl⟩ Iff.rfl
      (fun _ h => h.elim) (fun _ h => h.elim) huses
  | lockPpredFail key ppred pred y x hpc hg hl =>
    rw [hpc] at hkeeps
    exact h.pass inv (hkeeps trivial) hpc State.goto_pc_self ⟨rfl, rfl⟩ Iff.rfl
      (fun _ h => h.elim) (fun _ h => h.elim) trivial
  | lockBoth key ppred pred p x l hpc hp hl =>
    rw [hpc] at hkeeps huses
    exact h.pass inv (hkeeps trivial) hpc State.goto_pc_self ⟨rfl, rfl⟩ Iff.rfl
      (fun _ h => h.elim) (fun _ h => h.elim) huses
  | lockBothFail key ppred pred p x hpc hp hl =>
    rw [hpc] at hkeeps huses
    exact h.pass inv (hkeeps trivial) hpc State.goto_pc_self ⟨rfl, rfl⟩ Iff.rfl
      (fun _ h => h.elim) (fun _ h => h.elim) huses.1
  | loadSibling key ppred pred p x hpc hp =>
    rw [hpc] at hkeeps huses
    exact h.pass inv (hkeeps trivial) hpc State.goto_pc_self ⟨rfl, rfl⟩ Iff.rfl
      (fun _ h => h.elim) (fun _ h => h.elim)
      ⟨huses.1, huses.2.1, huses.2.2, fun z hz => h.child (huses.2.1 p hp) hz⟩
  | splice key ppred pred z x y hpc hg =>
    rw [hpc] at hstill
    exact hstill.elim
  | unlock e k p hpc hp =>
    -- the two nodes that were cut off are kept until they are retired
    rw [hpc] at hkeeps huses
    exact h.pass inv (hkeeps trivial) hpc State.goto_pc_self ⟨rfl, rfl⟩ Iff.rfl
      (fun _ h => h) (fun _ h => h.elim) huses
  | storeVersion e v k p hpc hp =>
    rw [hpc] at hkeeps huses
    cases k with
    | inserted key val =>
      exact h.pass inv (hkeeps trivial) hpc State.goto_pc_self ⟨rfl, rfl⟩ Iff.rfl
        (fun _ h => h.elim) (fun _ h => h.elim) trivial
    | deleted key pred x =>
      exact h.pass inv (hkeeps trivial) hpc State.goto_pc_self ⟨rfl, rfl⟩ Iff.rfl
        (fun _ h => h) (fun _ h => h.elim) huses.2
  | revert key ppred pred y hpc hg =>
    rw [hpc] at hkeeps huses
    exact h.pass inv (hkeeps trivial) hpc State.goto_pc_self ⟨rfl, rfl⟩ Iff.rfl
      (fun _ h => h.elim) (fun _ h => h.elim) huses
  | storeTicket key ppred pred v y hpc hg =>
    rw [hpc] at hkeeps
    exact h.pass inv (hkeeps trivial) hpc State.goto_pc_self ⟨rfl, rfl⟩ Iff.rfl
      (fun _ h => h.elim) (fun _ h => h.elim) trivial
  | retireCurr key pred x hpc =>
    rw [hpc] at hkeeps huses
    exact h.pass inv (hkeeps trivial) hpc State.goto_pc_self ⟨rfl, rfl⟩ Iff.rfl
      (fun _ h => .inl h) (fun _ h => h.elim) huses
  | retirePred key pred p x hpc hp =>
    rw [hpc] at hkeeps huses
    exact h.pass inv (hkeeps trivial) hpc State.goto_pc_self ⟨rfl, rfl⟩ Iff.rfl
      (fun _ h => h.elim) (fun _ h => h.elim) huses.2
  | endVal op x hpc => exact (hend rfl).elim
  | readVal op x hpc =>
    -- nothing is used between two operations
    rw [hpc] at hkeeps
    exact h.pass inv (hkeeps trivial) hpc State.goto_pc_self ⟨rfl, rfl⟩ Iff.rfl
      (fun _ h => h.elim) (fun _ h => h.elim) trivial
  | endRetry u ppred pred hpc => exact (hend rfl).elim
  | endOp op r hpc => exact (hend rfl).elim
  | ret op r hpc =>
    rw [hpc] at hkeeps
    exact h.pass inv (hkeeps trivial) hpc State.goto_pc_self ⟨rfl, rfl⟩ Iff.rfl
      (fun _ h => h.elim) (fun _ h => h.elim) trivial

omit [DecidableEq α] in
/-- An operation ends. -/
theorem Watched.finish (h : Watched cfg s g) (inv : Inv cfg s) (c : Keeps cfg s (s.goto t p) t)
    (hrun : ¬ p.Running) (hown : ∀ x, ¬ p.Own x) (hcuts : ∀ x, ¬ p.Cuts x) :
    Watched cfg (s.goto t p) (g.finish t) := by
  refine h.turn (b := false) inv c State.goto_pc_self hown hcuts rfl rfl rfl
    (iff_of_false Bool.false_ne_true hrun) ?_ ?_ (.of_not_running hrun)
  · intro x w' hw'
    obtain ⟨w, hw, rfl⟩ := Option.map_eq_some_iff.mp hw'
    refine ⟨w, hw, fun q hq => ?_⟩
    have hne : q ≠ t := by
      rintro rfl
      rw [update_self] at hq
      cases hq
    rw [update_of_ne hne] at hq
    exact ⟨hne, hq⟩
  · intro x w hw
    refine ⟨update w t false, Option.map_eq_some_iff.mpr ⟨w, hw, rfl⟩, fun q hne hq => ?_⟩
    rw [update_of_ne hne]
    exact hq

omit [DecidableEq α] in
/-- An operation begins, at the root. -/
theorem Watched.begin {op : Op K V} {ppred pred : Edge α} (h : Watched cfg s g) (inv : Inv cfg s)
    (hpc : s.pc t = .start op ppred pred)
    (c : Keeps cfg s (s.goto t (Ticket.begin cfg.root ppred pred op)) t) :
    Watched cfg (s.goto t (Ticket.begin cfg.root ppred pred op)) (g.begin t) := by
  have hidle : g.running t ≠ true := by
    rw [Ne, h.running, hpc]
    exact id
  have hroot : Safe cfg (s.goto t (Ticket.begin cfg.root ppred pred op)) (g.begin t) t cfg.root :=
    .inl ((c.live_iff inv).mpr inv.live_root)
  refine h.turn (b := true) inv c State.goto_pc_self ?_ ?_ rfl rfl rfl ?_ ?_ ?_ ?_
  · cases op <;> exact fun _ h => h
  · cases op <;> exact fun _ h => h
  · cases op <;> exact iff_of_true rfl trivial
  · -- nobody waits for the operation that begins
    intro x w hw
    refine ⟨w, hw, fun q hq => ⟨?_, hq⟩⟩
    rintro rfl
    exact hidle (h.sub x w q hw hq)
  · exact fun x w hw => ⟨w, hw, fun q _ hq => hq⟩
  · cases op with
    | contains key => exact hroot
    | insert key val => exact ⟨hroot, .inr rfl⟩
    | erase key => exact ⟨hroot, .inr rfl⟩

/-- **Step of the epochs.** -/
theorem Watched.step {ev : Event α K V} (h : Watched cfg s g) (inv : Inv cfg s)
    (hok : Sound s (t, ev)) (hs : Step cfg s t ev s') : Watched cfg s' (g.next s (t, ev)) := by
  have hkeeps : (s.pc t).Quiet → Keeps cfg s s' t := fun hq => hs.keeps inv hok hq
  -- an operation begins: the thread is waited for by nothing that was cut off before
  by_cases hstart : ev = .startOp
  · subst hstart
    cases hs with
    | startOp op ppred pred hpc =>
      rw [hpc] at hkeeps
      exact h.begin inv hpc (hkeeps trivial)
  -- an operation ends, and nothing waits for the thread any more
  by_cases hend : ev = .endOp
  · subst hend
    cases hs with
    | endVal op x hpc =>
      rw [hpc] at hkeeps
      exact h.finish inv (hkeeps trivial) id (fun _ h => h) fun _ h => h
    | endRetry u ppred pred hpc =>
      rw [hpc] at hkeeps
      exact h.finish inv (hkeeps trivial) id (fun _ h => h) fun _ h => h
    | endOp op r hpc =>
      rw [hpc] at hkeeps
      exact h.finish inv (hkeeps trivial) id (fun _ h => h) fun _ h => h
  -- in between, the step cuts nothing off
  by_cases hstill : (s.pc t).Still
  · rw [Epoch.next_still rfl hstill hstart hend]
    exact h.step_still inv hok hs hstill hstart hend
  -- two nodes are cut off or given back
  have hk := inv.knows t
  cases hs with
  | dealloc key val pred a b hpc =>
    -- the nodes of a failed insertion were seen by nobody
    rw [hpc] at hkeeps
    have hgoto : Watched cfg (s.goto t (.endRetry (.insert key val) .none pred)) g :=
      h.pass inv (hkeeps trivial) hpc State.goto_pc_self ⟨rfl, rfl⟩ Iff.rfl
        (fun _ h => h.elim) (fun _ h => h.elim) trivial
    have hnext : g.next s (t, .tau) = g.remove a b fun _ => false := by
      unfold Epoch.next
      rw [hpc]
    rw [hnext]
    refine hgoto.give fun z hz => ?_
    have hown : (s.pc t).Own z := by
      rw [hpc]
      exact hz
    obtain ⟨halloc, hcut, hlive⟩ := h.own t z hown
    refine ⟨halloc, hcut, fun hz' => hlive ((Keeps.live_iff (hkeeps trivial) inv).mp hz'), ?_⟩
    intro q hq
    by_cases hqt : q = t
    · subst hqt
      rw [State.goto_pc_self] at hq
      exact hq
    · rw [State.goto_pc_of_ne hqt] at hq
      exact hqt (h.excl q t z hq hown)
  | splice key ppred pred z x y hpc hg =>
    -- everybody who is running may still use the two nodes
    rw [hpc] at hk
    obtain ⟨p, hp, -⟩ := hk.1.edge.met
    have hnext : g.next s (t, .access z) = g.remove p x g.running := by
      unfold Epoch.next
      rw [hpc]
      dsimp only
      rw [hp]
    rw [hnext]
    exact h.delete inv hpc hg hp rfl
  | _ => exact (hstill (by simp [*, Pc.Still])).elim

omit [DecidableEq α] [DecidableEq ι] in
/-- In the beginning nothing is cut off. -/
theorem Init.watched (hs : Init cfg s) : Watched cfg s Epoch.start where
  running := by
    intro t
    rw [hs.pc]
    exact iff_of_false Bool.false_ne_true id
  sub := by
    intro x w t hw
    cases hw
  live := fun _ _ => rfl
  next := by
    intro x w t d y hw
    cases hw
  allocated := by
    intro x w hw
    cases hw
  own := by
    intro t x hx
    rw [hs.pc] at hx
    exact hx.elim
  excl := by
    intro t q x hx
    rw [hs.pc] at hx
    exact hx.elim
  cuts := by
    intro t x hx
    rw [hs.pc] at hx
    exact hx.elim
  uses := by
    intro t
    rw [hs.pc]
    trivial

end

end

end Ticket
end PopSetbench

import PopSetbench.Ds.TicketEpoch
import PopSetbench.Ds.TicketVersion

/-!
# The ticket tree with memory that is used again

The tree of `ticket_impl.h` under a reclaimer that waits for operations: a retired node may be freed
when every operation that was running then has called `endOp`, and its memory may be handed out
again. The two new nodes that `bst_tk_insert` gives back can be used again at once.

A run of this system is one of the system whose nodes are never used again, if the names of the
nodes are made different: the node at an address together with how often the address was freed
before (`Maps`). The two agree on what an operation uses while it runs. They do not agree on what it
reads after `endOp`, which is the value that is returned by `bst_tk_find`, by `bst_tk_insert` where
the key is present, and by `bst_tk_delete`. So in every run in which a node is not freed before its
value was read, these are values the key had during the operation (`ticket_values`). In
`ticket_values_recycled` a search returns a value the key never had.
-/

namespace PopSetbench
namespace Ticket

open Function

/-- The reclaimer. -/
@[ext]
structure Reclaimer (α ι : Type) where
  /-- Between `startOp` and `endOp`. -/
  running : ι → Bool
  /-- The node was retired, or given back; it waits for these operations. -/
  waiting : α → Option (ι → Bool)

namespace Reclaimer

variable {α ι K V : Type}

/-- No operation runs, and nothing is retired. -/
def start : Reclaimer α ι := ⟨fun _ => false, fun _ => none⟩

variable [DecidableEq α] [DecidableEq ι]

/-- `startOp`. -/
def startOp (t : ι) (r : Reclaimer α ι) : Reclaimer α ι :=
  { r with running := update r.running t true }

/-- `endOp`: nobody waits for the operation any more. -/
def endOp (t : ι) (r : Reclaimer α ι) : Reclaimer α ι :=
  ⟨update r.running t false, fun x => (r.waiting x).map fun w => update w t false⟩

/-- `retire`: the node waits for the operations that are running. -/
def retire (x : α) (r : Reclaimer α ι) : Reclaimer α ι :=
  { r with waiting := update r.waiting x (some r.running) }

/-- `deallocate`: the node waits for nobody. -/
def deallocate (x : α) (r : Reclaimer α ι) : Reclaimer α ι :=
  { r with waiting := update r.waiting x (some fun _ => false) }

/-- What a step of a thread does. -/
def next (s : State α ι K V) (a : ι × Event α K V) (r : Reclaimer α ι) : Reclaimer α ι :=
  match a.2 with
  | .startOp => r.startOp a.1
  | .endOp => r.endOp a.1
  | .retire x => r.retire x
  | _ =>
    match s.pc a.1 with
    | .dealloc _ _ _ nn nr => (r.deallocate nn).deallocate nr
    | _ => r

/-- The node is freed. -/
def free (r : Reclaimer α ι) (x : α) : Reclaimer α ι :=
  { r with waiting := update r.waiting x none }

end Reclaimer

/-- The tree, the threads and the reclaimer. -/
structure Reused (α ι K V : Type) where
  /-- The tree and the threads. -/
  mem : State α ι K V
  /-- The reclaimer. -/
  recmgr : Reclaimer α ι

/-- A step of a thread, or of the reclaimer. -/
inductive Act (α ι K V : Type)
  /-- A thread takes a step. -/
  | thread (t : ι) (ev : Event α K V)
  /-- A node is freed. -/
  | free (x : α)

/-- The memory after a node was freed: its fields may hold anything. -/
structure Frees {α ι K V : Type} (x : α) (s s' : State α ι K V) : Prop where
  child : ∀ y, y ≠ x → s'.child y = s.child y
  key : ∀ y, y ≠ x → s'.key y = s.key y
  val : ∀ y, y ≠ x → s'.val y = s.val y
  lock : ∀ y, y ≠ x → s'.lock y = s.lock y
  allocated : ∀ y, s'.allocated y = true ↔ s.allocated y = true ∧ y ≠ x
  pc : s'.pc = s.pc

section

variable {α ι K V : Type} [DecidableEq α] [DecidableEq ι] [LinearOrder K]

/-- The atomic steps. -/
inductive Reused.Step (cfg : Config α K) (c : Reused α ι K V) :
    Act α ι K V → Reused α ι K V → Prop
  /-- A thread takes a step. -/
  | thread (t : ι) (ev : Event α K V) (s' : State α ι K V) (hs : Ticket.Step cfg c.mem t ev s') :
      Step cfg c (.thread t ev) ⟨s', c.recmgr.next c.mem (t, ev)⟩
  /-- A node is freed that waits for nobody any more. -/
  | free (x : α) (w : ι → Bool) (s' : State α ι K V) (hw : c.recmgr.waiting x = some w)
      (hdone : ∀ t, w t = false) (hs : Frees x c.mem s') :
      Step cfg c (.free x) ⟨s', c.recmgr.free x⟩

/-- The implementation, whose memory is used again. -/
def recycling (cfg : Config α K) : Lts (Reused α ι K V) (Act α ι K V) where
  init c := Init cfg c.mem ∧ c.recmgr = .start
  step c a c' := Reused.Step cfg c a c'

end

/-! ### The names of the nodes -/

section

variable {α β ι K V : Type}

/-- The edge with another name for its node. -/
def Edge.map (f : β → α) (e : Edge β) : Edge α :=
  ⟨e.node.map f, e.ver, e.right⟩

/-- What is left to do, with other names. -/
def After.map (f : β → α) : After β K V → After α K V
  | .inserted key val => .inserted key val
  | .deleted key pred curr => .deleted key (pred.map f) (f curr)

/-- The thread is at the same place, and its variables hold nodes with these names. -/
inductive Names (f : β → α) : Pc β K V → Pc α K V → Prop
  | idle : Names f .idle .idle
  | start (op : Op K V) (ppred pred : Edge β) :
      Names f (.start op ppred pred) (.start op (ppred.map f) (pred.map f))
  | findLeft (key : K) (x : β) : Names f (.findLeft key x) (.findLeft key (f x))
  | findKey (key : K) (x : β) : Names f (.findKey key x) (.findKey key (f x))
  | findChild (key : K) (x : β) (right : Bool) :
      Names f (.findChild key x right) (.findChild key (f x) right)
  | findTest (key : K) (x : β) : Names f (.findTest key x) (.findTest key (f x))
  | loadVer (u : Upd K V) (ppred pred : Edge β) (x : β) :
      Names f (.loadVer u ppred pred x) (.loadVer u (ppred.map f) (pred.map f) (f x))
  | readKey (u : Upd K V) (ppred pred : Edge β) :
      Names f (.readKey u ppred pred) (.readKey u (ppred.map f) (pred.map f))
  | loadChild (u : Upd K V) (ppred pred : Edge β) :
      Names f (.loadChild u ppred pred) (.loadChild u (ppred.map f) (pred.map f))
  | loadLeft (u : Upd K V) (ppred pred : Edge β) (x : β) :
      Names f (.loadLeft u ppred pred x) (.loadLeft u (ppred.map f) (pred.map f) (f x))
  | testKey (u : Upd K V) (ppred pred : Edge β) (x : β) :
      Names f (.testKey u ppred pred x) (.testKey u (ppred.map f) (pred.map f) (f x))
  | endVal (op : Op K V) (x : β) : Names f (.endVal op x) (.endVal op (f x))
  | readVal (op : Op K V) (x : β) : Names f (.readVal op x) (.readVal op (f x))
  | newLeaf (key : K) (val : V) (pred : Edge β) (x : β) :
      Names f (.newLeaf key val pred x) (.newLeaf key val (pred.map f) (f x))
  | newNode (key : K) (val : V) (pred : Edge β) (x nn : β) :
      Names f (.newNode key val pred x nn) (.newNode key val (pred.map f) (f x) (f nn))
  | lockPred (key : K) (val : V) (pred : Edge β) (x nn nr : β) :
      Names f (.lockPred key val pred x nn nr)
        (.lockPred key val (pred.map f) (f x) (f nn) (f nr))
  | dealloc (key : K) (val : V) (pred : Edge β) (nn nr : β) :
      Names f (.dealloc key val pred nn nr) (.dealloc key val (pred.map f) (f nn) (f nr))
  | compare (key : K) (val : V) (pred : Edge β) (x nn nr : β) :
      Names f (.compare key val pred x nn nr) (.compare key val (pred.map f) (f x) (f nn) (f nr))
  | initNode (key : K) (val : V) (pred : Edge β) (x nn nr : β) (less : Bool) :
      Names f (.initNode key val pred x nn nr less)
        (.initNode key val (pred.map f) (f x) (f nn) (f nr) less)
  | storeChild (key : K) (val : V) (pred : Edge β) (x nn nr : β) :
      Names f (.storeChild key val pred x nn nr)
        (.storeChild key val (pred.map f) (f x) (f nn) (f nr))
  | lockPpred (key : K) (ppred pred : Edge β) (x : β) :
      Names f (.lockPpred key ppred pred x) (.lockPpred key (ppred.map f) (pred.map f) (f x))
  | lockBoth (key : K) (ppred pred : Edge β) (x : β) :
      Names f (.lockBoth key ppred pred x) (.lockBoth key (ppred.map f) (pred.map f) (f x))
  | loadSibling (key : K) (ppred pred : Edge β) (x : β) :
      Names f (.loadSibling key ppred pred x) (.loadSibling key (ppred.map f) (pred.map f) (f x))
  | splice (key : K) (ppred pred : Edge β) (x : β) (sibling : Option β) :
      Names f (.splice key ppred pred x sibling)
        (.splice key (ppred.map f) (pred.map f) (f x) (sibling.map f))
  | unlock (e : Edge β) (k : After β K V) : Names f (.unlock e k) (.unlock (e.map f) (k.map f))
  | storeVersion (e : Edge β) (version : BitVec 16) (k : After β K V) :
      Names f (.storeVersion e version k) (.storeVersion (e.map f) version (k.map f))
  | revert (key : K) (ppred pred : Edge β) :
      Names f (.revert key ppred pred) (.revert key (ppred.map f) (pred.map f))
  | storeTicket (key : K) (ppred pred : Edge β) (ticket : BitVec 16) :
      Names f (.storeTicket key ppred pred ticket)
        (.storeTicket key (ppred.map f) (pred.map f) ticket)
  | retireCurr (key : K) (pred : Edge β) (x : β) :
      Names f (.retireCurr key pred x) (.retireCurr key (pred.map f) (f x))
  | retirePred (key : K) (pred : Edge β) (x : β) :
      Names f (.retirePred key pred x) (.retirePred key (pred.map f) (f x))
  | endRetry (u : Upd K V) (ppred pred : Edge β) :
      Names f (.endRetry u ppred pred) (.endRetry u (ppred.map f) (pred.map f))
  | endOp (op : Op K V) (r : Ret V) : Names f (.endOp op r) (.endOp op r)
  | ret (op : Op K V) (r : Ret V) : Names f (.ret op r) (.ret op r)

/-- The nodes of the constructor, at addresses that were never freed. -/
def Config.first [LT K] (cfg : Config α K) : Config (α × ℕ) K where
  keyMin := cfg.keyMin
  keyMax := cfg.keyMax
  root := (cfg.root, 0)
  min := (cfg.min, 0)
  max := (cfg.max, 0)
  keyMin_lt := cfg.keyMin_lt
  root_ne_min := fun h => cfg.root_ne_min (congrArg Prod.fst h)
  root_ne_max := fun h => cfg.root_ne_max (congrArg Prod.fst h)
  min_ne_max := fun h => cfg.min_ne_max (congrArg Prod.fst h)

/-- The fields of the new nodes that a thread has stored. -/
def Fresh (known : α → Prop) : Pc α K V → Prop
  | .newNode _ _ _ _ nn => known nn
  | .lockPred _ _ _ _ nn _ => known nn
  | .compare _ _ _ _ nn _ => known nn
  | .initNode _ _ _ _ nn _ _ => known nn
  | .storeChild _ _ _ _ nn nr => known nn ∧ known nr
  | _ => True

/-- The node is the one that is at its address now. -/
def Current (m : State α ι K V) (gen : α → ℕ) (z : α × ℕ) : Prop :=
  z.2 = gen z.1 ∧ m.allocated z.1 = true

section

variable [LinearOrder K] (cfg : Config α K) (m : State α ι K V) (s : State (α × ℕ) ι K V)
  (gen : α → ℕ) (known : α × ℕ → Prop)

/-- **The memory holds the nodes that are at their addresses now.** Of a node that was allocated by
`new_node_no_init` the key and the children are not known before they are stored. -/
structure Image : Prop where
  allocated : ∀ x i, s.allocated (x, i) = true ↔ i < gen x ∨ i = gen x ∧ m.allocated x = true
  val : ∀ x, m.allocated x = true → m.val x = s.val (x, gen x)
  lock : ∀ x, m.allocated x = true → m.lock x = s.lock (x, gen x)
  key : ∀ x, m.allocated x = true → known (x, gen x) → m.key x = s.key (x, gen x)
  child : ∀ x d, m.allocated x = true → known (x, gen x) →
    m.child x d = (s.child (x, gen x) d).map Prod.fst
  known_allocated : ∀ z, known z → s.allocated z = true
  known_child : ∀ z d y, known z → s.child z d = some y → known y
  known_root : known (cfg.root, 0)

/-- **The run without reuse**: the threads are at the same places, and what they use is known. A
value that is read after `endOp` is still there. -/
structure Maps : Prop extends Image cfg m s gen known where
  pc : ∀ t, Names Prod.fst (s.pc t) (m.pc t)
  uses : ∀ t, Uses cfg.first s known (s.pc t)
  fresh : ∀ t, Fresh known (s.pc t)
  value : ∀ t op z, s.pc t = .readVal op z → Current m gen z

end

/-- **Who is waited for**: a node that was freed is used by nobody, and one that waits for some
operations by no others. -/
structure Waits (r : Reclaimer α ι) (g : Epoch (α × ℕ) ι) (gen : α → ℕ) : Prop where
  running : r.running = g.running
  old : ∀ z : α × ℕ, z.2 < gen z.1 → ∃ w, g.cut z = some w ∧ ∀ t, w t = false
  waiting : ∀ x w, r.waiting x = some w →
    ∃ w', g.cut (x, gen x) = some w' ∧ ∀ t, w' t = true → w t = true

/-! ### The memory -/

namespace Image

section

variable [LinearOrder K] {cfg : Config α K} {m : State α ι K V} {s : State (α × ℕ) ι K V}
  {gen : α → ℕ} {known : α × ℕ → Prop} {x : α} {z : α × ℕ}

theorem goto [DecidableEq ι] {t : ι} {p : Pc α K V} {p' : Pc (α × ℕ) K V}
    (h : Image cfg m s gen known) : Image cfg (m.goto t p) (s.goto t p') gen known :=
  ⟨h.allocated, h.val, h.lock, h.key, h.child, h.known_allocated, h.known_child, h.known_root⟩

theorem current (h : Image cfg m s gen known) (ha : s.allocated z = true)
    (hz : ¬ z.2 < gen z.1) : Current m gen z :=
  ((h.allocated z.1 z.2).mp ha).resolve_left hz

theorem not_allocated (h : Image cfg m s gen known) (hx : m.allocated x = false) :
    s.allocated (x, gen x) = false := by
  rw [← Bool.not_eq_true, h.allocated, hx]
  rintro (hlt | ⟨-, hx⟩)
  · exact lt_irrefl _ hlt
  · cases hx

variable [DecidableEq α]

omit [LinearOrder K] in
/-- A store at an address, and a store to the node that is there. -/
theorem update_eq {γ : Type} {F : α → γ} {G : α × ℕ → γ} {v : γ} {y : α}
    (h : y ≠ x → F y = G (y, gen y)) :
    update F x v y = update G (x, gen x) v (y, gen y) := by
  by_cases hy : y = x
  · subst hy
    rw [update_self, update_self]
  · rw [update_of_ne hy, update_of_ne (fun heq => hy (congrArg Prod.fst heq))]
    exact h hy

theorem setLock {l : Tl} (h : Image cfg m s gen known) :
    Image cfg (m.setLock x l) (s.setLock (x, gen x) l) gen known :=
  { h with lock := fun y hy => update_eq fun _ => h.lock y hy }

theorem setChild {d : Bool} {o : Option (α × ℕ)} (h : Image cfg m s gen known)
    (ho : ∀ y, o = some y → known y) :
    Image cfg (m.setChild x d (o.map Prod.fst)) (s.setChild (x, gen x) d o) gen known where
  allocated := h.allocated
  val := h.val
  lock := h.lock
  key := h.key
  child := by
    intro y d' hy hk
    -- only the child that is written differs, in both memories
    show update m.child x _ y d' = (update s.child (x, gen x) _ (y, gen y) d').map Prod.fst
    by_cases hyx : y = x
    · subst hyx
      rw [update_self, update_self]
      by_cases hd : d' = d
      · subst hd
        rw [update_self, update_self]
      · rw [update_of_ne hd, update_of_ne hd]
        exact h.child y d' hy hk
    · rw [update_of_ne hyx, update_of_ne (fun heq => hyx (congrArg Prod.fst heq))]
      exact h.child y d' hy hk
  known_allocated := h.known_allocated
  known_child := by
    intro z d' y hz hy
    change update s.child (x, gen x) _ z d' = some y at hy
    by_cases hzx : z = (x, gen x)
    · subst hzx
      rw [update_self] at hy
      by_cases hd : d' = d
      · subst hd
        rw [update_self] at hy
        exact ho y hy
      · rw [update_of_ne hd] at hy
        exact h.known_child _ d' y hz hy
    · rw [update_of_ne hzx] at hy
      exact h.known_child z d' y hz hy
  known_root := h.known_root

omit [LinearOrder K] in
theorem allocated_of_update {y : α} (h : update m.allocated x true y = true) (hy : y ≠ x) :
    m.allocated y = true := by
  rwa [update_of_ne hy] at h

/-- A free address is allocated. -/
theorem allocated_update (h : Image cfg m s gen known) (y : α) (i : ℕ) :
    update s.allocated (x, gen x) true (y, i) = true ↔
      i < gen y ∨ i = gen y ∧ update m.allocated x true y = true := by
  by_cases hy : y = x
  · subst hy
    rw [update_self]
    by_cases hi : i = gen y
    · subst hi
      rw [update_self]
      exact iff_of_true rfl (.inr ⟨rfl, rfl⟩)
    · rw [update_of_ne (fun heq => hi (congrArg Prod.snd heq)), h.allocated]
      exact or_congr_right (iff_of_false (fun h => hi h.1) fun h => hi h.1)
  · rw [update_of_ne (fun heq => hy (congrArg Prod.fst heq)), update_of_ne hy]
    exact h.allocated y i

theorem known_update (h : Image cfg m s gen known) (hz : known z) :
    update s.allocated (x, gen x) true z = true := by
  by_cases hzx : z = (x, gen x)
  · subst hzx
    exact update_self ..
  · rw [update_of_ne hzx]
    exact h.known_allocated z hz

/-- `nn` is allocated, and its fields are stored. -/
theorem allocLeaf {key : K} {val : V} (h : Image cfg m s gen known) :
    Image cfg (m.allocLeaf x key val) (s.allocLeaf (x, gen x) key val) gen
      fun z => known z ∨ z = (x, gen x) where
  allocated := h.allocated_update
  val := fun y hy => update_eq fun hyx => h.val y (allocated_of_update hy hyx)
  lock := fun y hy => update_eq fun hyx => h.lock y (allocated_of_update hy hyx)
  key := fun y hy hk => update_eq fun hyx =>
    h.key y (allocated_of_update hy hyx) (hk.resolve_right fun heq => hyx (congrArg Prod.fst heq))
  child := by
    intro y d hy hk
    show update m.child x _ y d = (update s.child (x, gen x) _ (y, gen y) d).map Prod.fst
    by_cases hyx : y = x
    · subst hyx
      rw [update_self, update_self]
      rfl
    · have hne : (y, gen y) ≠ (x, gen x) := fun heq => hyx (congrArg Prod.fst heq)
      rw [update_of_ne hyx, update_of_ne hne]
      exact h.child y d (allocated_of_update hy hyx) (hk.resolve_right hne)
  known_allocated := by
    rintro z (hz | rfl)
    · exact h.known_update hz
    · exact update_self ..
  known_child := by
    intro z d y hz hy
    change update s.child (x, gen x) _ z d = some y at hy
    by_cases hzx : z = (x, gen x)
    · subst hzx
      rw [update_self] at hy
      cases hy
    · rw [update_of_ne hzx] at hy
      exact .inl (h.known_child z d y (hz.resolve_right hzx) hy)
  known_root := .inl h.known_root

/-- `nr` is allocated; its key and its children are what the memory holds. -/
theorem allocNode (h : Image cfg m s gen known) (hx : m.allocated x = false) :
    Image cfg (m.allocNode x : State α ι K V) (s.allocNode (x, gen x)) gen known := by
  have hne : ∀ {y}, known (y, gen y) → y ≠ x := by
    rintro y hk rfl
    cases (h.not_allocated hx).symm.trans (h.known_allocated _ hk)
  exact {
    allocated := h.allocated_update
    val := fun y hy => update_eq fun hyx => h.val y (allocated_of_update hy hyx)
    lock := fun y hy => update_eq fun hyx => h.lock y (allocated_of_update hy hyx)
    key := fun y hy hk => h.key y (allocated_of_update hy (hne hk)) hk
    child := fun y d hy hk => h.child y d (allocated_of_update hy (hne hk)) hk
    known_allocated := fun z hz => h.known_update hz
    known_child := h.known_child
    known_root := h.known_root }

/-- The key and the children of `nr` are stored. -/
theorem initNode {nn curr : α × ℕ} {k : K} {less : Bool} (h : Image cfg m s gen known)
    (hx : m.allocated x = true) (hnn : known nn) (hcurr : known curr)
    (hkey : m.key curr.1 = s.key curr) :
    Image cfg (m.initNode x nn.1 curr.1 k less) (s.initNode (x, gen x) nn curr k less) gen
      fun z => known z ∨ z = (x, gen x) where
  -- an address and its present node get the same key and the same children
  allocated := h.allocated
  val := h.val
  lock := h.lock
  key := by
    intro y hy hk
    show update m.key x (bif less then m.key curr.1 else k) y = _
    rw [hkey]
    refine update_eq fun hyx => h.key y hy ?_
    exact hk.resolve_right fun heq => hyx (congrArg Prod.fst heq)
  child := by
    intro y d hy hk
    show update m.child x _ y d = (update s.child (x, gen x) _ (y, gen y) d).map Prod.fst
    by_cases hyx : y = x
    · subst hyx
      rw [update_self, update_self]
      cases d == less <;> rfl
    · have hne : (y, gen y) ≠ (x, gen x) := fun heq => hyx (congrArg Prod.fst heq)
      rw [update_of_ne hyx, update_of_ne hne]
      exact h.child y d hy (hk.resolve_right hne)
  -- the new node is known from here on, and its children were known before
  known_allocated := by
    rintro z (hz | rfl)
    · exact h.known_allocated z hz
    · exact (h.allocated x _).mpr (.inr ⟨rfl, hx⟩)
  known_child := by
    intro z d y hz hy
    change update s.child (x, gen x) _ z d = some y at hy
    by_cases hzx : z = (x, gen x)
    · subst hzx
      rw [update_self] at hy
      obtain rfl := Option.some.inj hy
      cases d == less with
      | true => exact .inl hcurr
      | false => exact .inl hnn
    · rw [update_of_ne hzx] at hy
      exact .inl (h.known_child z d y (hz.resolve_right hzx) hy)
  known_root := .inl h.known_root

end

end Image

/-! ### The steps of the threads -/

section

variable [LinearOrder K] {cfg : Config α K} {m m' : State α ι K V} {s s' : State (α × ℕ) ι K V}
  {gen : α → ℕ} {known known' : α × ℕ → Prop} {t q : ι} {x : α} {z y : α × ℕ} {d : Bool}
  {g : Epoch (α × ℕ) ι} {r : Reclaimer α ι} {p : Pc α K V} {p' : Pc (α × ℕ) K V}

/-- What a running operation uses is at its address. -/
theorem Waits.current (h : Waits r g gen) (himg : Image cfg m s gen known)
    (hg : Watched cfg.first s g) (hz : Safe cfg.first s g t z) : Current m gen z := by
  refine himg.current (hg.allocated_of_safe hz) fun hlt => ?_
  obtain ⟨w, hw, hnot⟩ := h.old z hlt
  rcases hz with hz | ⟨w', hw', ht⟩
  · cases (hg.live z hz).symm.trans hw
  · obtain rfl : w' = w := Option.some.inj (hw'.symm.trans hw)
    rw [hnot t] at ht
    cases ht

/-- So are the new nodes. -/
theorem Waits.current_of_own (h : Waits r g gen) (himg : Image cfg m s gen known)
    (hg : Watched cfg.first s g) (hz : (s.pc t).Own z) : Current m gen z := by
  obtain ⟨ha, hc, -⟩ := hg.own t z hz
  refine himg.current ha fun hlt => ?_
  obtain ⟨w, hw, -⟩ := h.old z hlt
  cases hc.symm.trans hw

/-- **The thread goes on without a store.** -/
theorem Maps.goto [DecidableEq ι] (h : Maps cfg m s gen known) (hn : Names Prod.fst p' p)
    (hu : Uses cfg.first s known p') (hf : Fresh known p')
    (hv : ∀ op z, p' = .readVal op z → Current m gen z) :
    Maps cfg (m.goto t p) (s.goto t p') gen known where
  toImage := h.toImage.goto
  pc := by
    -- only the acting thread moves
    intro q
    by_cases hq : q = t
    · subst hq
      rw [State.goto_pc_self, State.goto_pc_self]
      exact hn
    · rw [State.goto_pc_of_ne hq, State.goto_pc_of_ne hq]
      exact h.pc q
  uses := by
    intro q
    by_cases hq : q = t
    · subst hq
      rw [State.goto_pc_self]
      exact hu
    · rw [State.goto_pc_of_ne hq]
      exact h.uses q
  fresh := by
    intro q
    by_cases hq : q = t
    · subst hq
      rw [State.goto_pc_self]
      exact hf
    · rw [State.goto_pc_of_ne hq]
      exact h.fresh q
  value := by
    intro q op z hz
    by_cases hq : q = t
    · subst hq
      rw [State.goto_pc_self] at hz
      exact hv op z hz
    · rw [State.goto_pc_of_ne hq] at hz
      exact h.value q op z hz

omit [LinearOrder K] in
theorem Fresh.imp {p : Pc (α × ℕ) K V} (hk : ∀ z, known z → known' z) (h : Fresh known p) :
    Fresh known' p := by
  cases p with
  | newNode key val pred x nn => exact hk nn h
  | lockPred key val pred x nn nr => exact hk nn h
  | compare key val pred x nn nr => exact hk nn h
  | initNode key val pred x nn nr less => exact hk nn h
  | storeChild key val pred x nn nr => exact ⟨hk nn h.1, hk nr h.2⟩
  | _ => trivial

/-- **The thread goes on** after a store. -/
theorem Maps.store [DecidableEq ι] [DecidableEq α] {m₁ : State α ι K V}
    {s₁ : State (α × ℕ) ι K V} {ev : Event (α × ℕ) K V} (h : Maps cfg m s gen known)
    (inv : Inv cfg.first s) (hok : Sound s (t, ev))
    (hs : Step cfg.first s t ev (s₁.goto t p')) (himg : Image cfg m₁ s₁ gen known')
    (hk : ∀ z, known z → known' z) (hm : m₁.pc = m.pc)
    (ha : ∀ x, m.allocated x = true → m₁.allocated x = true) (hn : Names Prod.fst p' p)
    (hu : Uses cfg.first (s₁.goto t p') known' p') (hf : Fresh known' p')
    (hv : ∀ op z, p' ≠ .readVal op z) : Maps cfg (m₁.goto t p) (s₁.goto t p') gen known' := by
  obtain ⟨-, c⟩ := hs.inv inv hok
  have hpcs : ∀ q, q ≠ t → s₁.pc q = s.pc q := fun q hq =>
    (State.goto_pc_of_ne hq).symm.trans (c.pcs q hq)
  -- the stores of a thread move no other thread
  exact {
    toImage := himg.goto
    pc := fun q => by
      by_cases hq : q = t
      · subst hq
        rw [State.goto_pc_self, State.goto_pc_self]
        exact hn
      · rw [State.goto_pc_of_ne hq, State.goto_pc_of_ne hq, hpcs q hq, hm]
        exact h.pc q
    uses := fun q => by
      by_cases hq : q = t
      · subst hq
        rw [State.goto_pc_self]
        exact hu
      · rw [c.pcs q hq]
        -- what the others use and hold goes on being known
        exact ((h.uses q).change c (inv.knows q)).imp hk
    fresh := fun q => by
      by_cases hq : q = t
      · subst hq
        rw [State.goto_pc_self]
        exact hf
      · rw [c.pcs q hq]
        exact (h.fresh q).imp hk
    value := fun q op z hz => by
      by_cases hq : q = t
      · subst hq
        rw [State.goto_pc_self] at hz
        exact (hv op z hz).elim
      · rw [c.pcs q hq] at hz
        obtain ⟨hz₁, hz₂⟩ := h.value q op z hz
        exact ⟨hz₁, ha z.1 hz₂⟩ }

/-- The pointer is the one to the node that is at the address. -/
theorem Maps.child_eq (h : Maps cfg m s gen known) (hw : Waits r g gen)
    (hg : Watched cfg.first s g) (hz : Safe cfg.first s g t z) (hk : known z)
    (hy : Safe cfg.first s g t y) (hc : m.child z.1 d = some y.1) : s.child z d = some y := by
  obtain ⟨hz₁, ha⟩ := hw.current h.toImage hg hz
  have hchild : m.child z.1 d = (s.child z d).map Prod.fst := by
    have hz' : (z.1, gen z.1) = z := Prod.ext rfl hz₁.symm
    rw [h.child z.1 d ha (by rw [hz']; exact hk), hz']
  rw [hchild] at hc
  obtain ⟨y', hy', hfst⟩ := Option.map_eq_some_iff.mp hc
  obtain ⟨hy₁, -⟩ := hw.current h.toImage hg (hg.child hz hy')
  obtain ⟨hy₂, -⟩ := hw.current h.toImage hg hy
  -- both are the node that is at the address now
  have heq : y' = y := Prod.ext hfst (by rw [hy₁, hy₂, hfst])
  rw [hy', heq]

variable (cfg m s g r gen known) in
/-- The run without reuse is in a state that corresponds. -/
structure Twin : Prop where
  maps : Maps cfg m s gen known
  waits : Waits r g gen
  watched : Watched cfg.first s g
  inv : Inv cfg.first s

/-- **Where the locks do what they are for** they do so without reuse. -/
theorem Twin.sound [DecidableEq α] [DecidableEq ι] {ev : Event α K V}
    {ev' : Event (α × ℕ) K V} (h : Twin cfg m s gen known g r) (hok : Sound m (t, ev)) :
    Sound s (t, ev') := by
  have hn := h.maps.pc t
  have hsafe := h.watched.uses t
  have hu := h.maps.uses t
  have hk := h.inv.knows t
  -- a node that is safe to use still lives at its address, so both locks are the same word
  have hlock : ∀ {z}, Safe cfg.first s g t z → m.lock z.1 = s.lock z := by
    intro z hz
    obtain ⟨hz₁, ha⟩ := h.waits.current h.maps.toImage h.watched hz
    rw [h.maps.lock z.1 ha, ← hz₁]
  unfold Sound at hok ⊢
  dsimp only at hok ⊢
  generalize s.pc t = q at hn hsafe hu hk ⊢
  generalize m.pc t = q' at hn hok
  cases hn with
  | lockPred key val pred x nn nr =>
    -- the comparison of the tickets is about one link, which is that of a live node
    intro z hz hl
    have hsz := hsafe.1 z hz
    refine h.maps.child_eq h.waits h.watched hsz (hu.1 z hz) hsafe.2 ?_
    refine hok z.1 (Option.map_eq_some_iff.mpr ⟨z, hz, rfl⟩) ?_
    rw [hlock hsz]
    exact hl
  | lockPpred key ppred pred x =>
    intro z hz hl
    have hsz := hsafe.1 z hz
    obtain ⟨y, hy, -⟩ := hk.edge.met
    rw [hy]
    refine h.maps.child_eq h.waits h.watched hsz (hu.1 z hz) (hsafe.2.1 y hy) ?_
    have hnode : (pred.map Prod.fst).node = some y.1 := Option.map_eq_some_iff.mpr ⟨y, hy, rfl⟩
    rw [← hnode]
    refine hok z.1 (Option.map_eq_some_iff.mpr ⟨z, hz, rfl⟩) ?_
    rw [hlock hsz]
    exact hl
  | lockBoth key ppred pred x =>
    -- the second lock of `deleteKey` is that of `pred`
    intro z hz hl
    have hsz := hsafe.2.1 z hz
    refine h.maps.child_eq h.waits h.watched hsz (hu.2.1 z hz) hsafe.2.2 ?_
    refine hok z.1 (Option.map_eq_some_iff.mpr ⟨z, hz, rfl⟩) ?_
    rw [hlock hsz]
    exact hl
  | _ => trivial

/-- **A step of a thread** is one without reuse. -/
theorem Twin.thread [DecidableEq α] [DecidableEq ι] {ev : Event α K V}
    (h : Twin cfg m s gen known g r) (hok : Sound m (t, ev)) (hs : Step cfg m t ev m') :
    ∃ s' ev' known', Step cfg.first s t ev' s' ∧ ev'.map Prod.fst = ev ∧
      Maps cfg m' s' gen known' := by
  have hm := h.maps
  have hn := hm.pc t
  have hsafe := h.watched.uses t
  have hu := hm.uses t
  have hf := hm.fresh t
  have hk := h.inv.knows t
  -- a node that the thread may still use is the present one of its address
  have hcur : ∀ z, Safe cfg.first s g t z → Current m gen z :=
    fun z hz => h.waits.current hm.toImage h.watched hz
  have hsound : ∀ {ev' : Event (α × ℕ) K V}, Sound s (t, ev') := h.sound hok
  generalize hq : s.pc t = q at hn hsafe hu hf hk
  cases hs with
  | invoke op hpc hmin hmax =>
    -- the operation begins: no node is used yet
    rw [hpc] at hn
    cases hn with
    | idle =>
      exact ⟨_, .invoke op, known, .invoke op hq hmin hmax, rfl,
        hm.goto (.start op .none .none) trivial trivial nofun⟩
  | startOp op ppred pred hpc =>
    -- the root is known, and nobody ever frees it
    rw [hpc] at hn
    cases hn with
    | start op ppred pred =>
      refine ⟨_, .startOp, known, .startOp op ppred pred hq, rfl, ?_⟩
      cases op with
      | contains key => exact hm.goto (.findLeft key _) hm.known_root trivial nofun
      | insert key val =>
        exact hm.goto (.loadVer _ ppred pred _) ⟨hm.known_root, .inr rfl⟩ trivial nofun
      | erase key =>
        exact hm.goto (.loadVer _ ppred pred _) ⟨hm.known_root, .inr rfl⟩ trivial nofun
  | findLeft key x hpc hl =>
    -- the walk reads a link: the address stands for its present node, so the link is the same
    rw [hpc] at hn
    cases hn with
    | findLeft key z =>
      obtain ⟨x, i⟩ := z
      obtain ⟨rfl, ha⟩ : i = gen x ∧ _ := hcur _ hsafe
      rw [hm.child x false ha hu] at hl
      exact ⟨_, .access (x, gen x), known,
        .findLeft key (x, gen x) hq fun hnone => hl (Option.map_eq_none_iff.mpr hnone), rfl,
        hm.goto (.findKey key (x, gen x)) hu trivial nofun⟩
  | findNull key x hpc hl =>
    rw [hpc] at hn
    cases hn with
    | findLeft key z =>
      obtain ⟨x, i⟩ := z
      obtain ⟨rfl, ha⟩ : i = gen x ∧ _ := hcur _ hsafe
      rw [hm.child x false ha hu] at hl
      exact ⟨_, .access (x, gen x), known,
        .findNull key (x, gen x) hq (Option.map_eq_none_iff.mp hl), rfl,
        hm.goto (.findTest key (x, gen x)) hu trivial nofun⟩
  | findKey key x hpc =>
    rw [hpc] at hn
    cases hn with
    | findKey key z =>
      obtain ⟨x, i⟩ := z
      obtain ⟨rfl, ha⟩ : i = gen x ∧ _ := hcur _ hsafe
      rw [hm.key x ha hu]
      exact ⟨_, .access (x, gen x), known, .findKey key (x, gen x) hq, rfl,
        hm.goto (.findChild key (x, gen x) _) hu trivial nofun⟩
  | findChild key x y right hpc hy =>
    -- the child that is read belongs to the node that was known, so it is known as well
    rw [hpc] at hn
    cases hn with
    | findChild key z right =>
      obtain ⟨x, i⟩ := z
      obtain ⟨rfl, ha⟩ : i = gen x ∧ _ := hcur _ hsafe
      rw [hm.child x right ha hu] at hy
      obtain ⟨y, hc, rfl⟩ := Option.map_eq_some_iff.mp hy
      exact ⟨_, .access (x, gen x), known, .findChild key (x, gen x) y right hq hc, rfl,
        hm.goto (.findLeft key y) (hm.known_child _ right y hu hc) trivial nofun⟩
  | findHit key x hpc hx =>
    -- the leaf is found; its value is not read before `endOp`
    rw [hpc] at hn
    cases hn with
    | findTest key z =>
      obtain ⟨x, i⟩ := z
      obtain ⟨rfl, ha⟩ : i = gen x ∧ _ := hcur _ hsafe
      rw [hm.key x ha hu] at hx
      exact ⟨_, .access (x, gen x), known, .findHit key (x, gen x) hq hx, rfl,
        hm.goto (.endVal _ (x, gen x)) hu trivial nofun⟩
  | findMiss key x hpc hx =>
    rw [hpc] at hn
    cases hn with
    | findTest key z =>
      obtain ⟨x, i⟩ := z
      obtain ⟨rfl, ha⟩ : i = gen x ∧ _ := hcur _ hsafe
      rw [hm.key x ha hu] at hx
      exact ⟨_, .access (x, gen x), known, .findMiss key (x, gen x) hq hx, rfl,
        hm.goto (.endOp _ _) trivial trivial nofun⟩
  | loadVer u ppred pred x hpc =>
    -- the versions are copied with the lock, and the locks agree
    rw [hpc] at hn
    cases hn with
    | loadVer u ppred pred z =>
      obtain ⟨x, i⟩ := z
      obtain ⟨rfl, ha⟩ : i = gen x ∧ _ := hcur _ hsafe.1
      rw [hm.lock x ha]
      refine ⟨_, .access (x, gen x), known, .loadVer u ppred pred (x, gen x) hq, rfl,
        hm.goto (.readKey u pred ⟨some (x, gen x), s.lock (x, gen x), pred.right⟩)
          ⟨Edge.on_some hu.1, hu.2.imp_right (congrArg some)⟩ trivial nofun⟩
  | readKey u ppred pred x hpc hx =>
    rw [hpc] at hn
    cases hn with
    | readKey u ppred pred =>
      obtain ⟨⟨x, i⟩, hz, rfl⟩ := Option.map_eq_some_iff.mp hx
      obtain ⟨rfl, ha⟩ : i = gen x ∧ _ := hcur _ (hsafe.1 _ hz)
      rw [hm.key x ha (hu.1 _ hz)]
      exact ⟨_, .access (x, gen x), known, .readKey u ppred pred (x, gen x) hq hz, rfl,
        hm.goto (.loadChild u ppred ⟨some (x, gen x), pred.ver, _⟩)
          ⟨Edge.on_some (hu.1 _ hz), hu.2.imp_right hz.symm.trans⟩ trivial nofun⟩
  | loadChild u ppred pred x y hpc hx hy =>
    -- the node of `pred` is the one that the last round of the loop has come by
    rw [hpc] at hn
    cases hn with
    | loadChild u ppred pred =>
      obtain ⟨⟨x, i⟩, hz, rfl⟩ := Option.map_eq_some_iff.mp hx
      obtain ⟨rfl, ha⟩ : i = gen x ∧ _ := hcur _ (hsafe.1 _ hz)
      change m.child x pred.right = some y at hy
      rw [hm.child x pred.right ha (hu.1 _ hz)] at hy
      obtain ⟨y, hc, rfl⟩ := Option.map_eq_some_iff.mp hy
      refine ⟨_, .access (x, gen x), known, .loadChild u ppred pred (x, gen x) y hq hz hc, rfl,
        hm.goto (.loadLeft u ppred pred y)
          ⟨hu.1, hm.known_child _ _ y (hu.1 _ hz) hc, hu.2.imp_right fun hroot => ?_⟩
          trivial nofun⟩
      obtain ⟨huser, ⟨z', hz', -, -, hd⟩, -⟩ := hk
      obtain rfl := Option.some.inj (hz.symm.trans hz')
      -- below the root there is no leaf with a user key
      have hr : (x, gen x) = cfg.first.root := Option.some.inj (hz.symm.trans hroot)
      obtain ⟨w, hw⟩ := h.inv.tree
      rw [hd, hr, hw.key_root] at hc
      exact hw.key_below_root huser hc
  | loadLeft u ppred pred x hpc hl =>
    rw [hpc] at hn
    cases hn with
    | loadLeft u ppred pred z =>
      obtain ⟨x, i⟩ := z
      obtain ⟨rfl, ha⟩ : i = gen x ∧ _ := hcur _ hsafe.2.1
      rw [hm.child x false ha hu.2.1] at hl
      exact ⟨_, .access (x, gen x), known,
        .loadLeft u ppred pred (x, gen x) hq fun hnone => hl (Option.map_eq_none_iff.mpr hnone),
        rfl, hm.goto (.loadVer u ppred pred (x, gen x)) ⟨hu.2.1, .inl hu.1⟩ trivial nofun⟩
  | loadNull u ppred pred x hpc hl =>
    rw [hpc] at hn
    cases hn with
    | loadLeft u ppred pred z =>
      obtain ⟨x, i⟩ := z
      obtain ⟨rfl, ha⟩ : i = gen x ∧ _ := hcur _ hsafe.2.1
      rw [hm.child x false ha hu.2.1] at hl
      have hl := Option.map_eq_none_iff.mp hl
      exact ⟨_, .access (x, gen x), known, .loadNull u ppred pred (x, gen x) hq hl, rfl,
        hm.goto (.testKey u ppred pred (x, gen x))
          ⟨hu.1, hu.2.1, hu.2.2.imp_right fun hne => hne fun hi => hi hl⟩ trivial nofun⟩
  | hit u ppred pred x hpc hx =>
    -- `deleteKey` needs the edge to `ppred`, which it has when `pred` is not the root
    rw [hpc] at hn
    cases hn with
    | testKey u ppred pred z =>
      obtain ⟨x, i⟩ := z
      obtain ⟨rfl, ha⟩ : i = gen x ∧ _ := hcur _ hsafe.2.1
      rw [hm.key x ha hu.2.1] at hx
      refine ⟨_, .access (x, gen x), known, .hit u ppred pred (x, gen x) hq hx, rfl, ?_⟩
      cases u with
      | insert key val => exact hm.goto (.endVal _ (x, gen x)) hu.2.1 trivial nofun
      | delete key =>
        have hppred := hu.2.2.resolve_right fun hne => hne hx
        exact hm.goto (.lockPpred key ppred pred (x, gen x)) ⟨hppred, hu.1, hu.2.1⟩ trivial nofun
  | miss u ppred pred x hpc hx =>
    rw [hpc] at hn
    cases hn with
    | testKey u ppred pred z =>
      obtain ⟨x, i⟩ := z
      obtain ⟨rfl, ha⟩ : i = gen x ∧ _ := hcur _ hsafe.2.1
      rw [hm.key x ha hu.2.1] at hx
      refine ⟨_, .access (x, gen x), known, .miss u ppred pred (x, gen x) hq hx, rfl, ?_⟩
      cases u with
      | insert key val =>
        exact hm.goto (.newLeaf key val pred (x, gen x)) ⟨hu.1, hu.2.1⟩ trivial nofun
      | delete key => exact hm.goto (.endOp _ _) trivial trivial nofun
  | newLeaf key val pred x a hpc ha =>
    -- a new node takes its address over: its life begins here
    rw [hpc] at hn
    cases hn with
    | newLeaf key val pred z =>
      have hs : Step cfg.first s t _ _ :=
        .newLeaf key val pred z (a, gen a) hq (hm.not_allocated ha)
      exact ⟨_, .tau, _, hs, rfl, hm.store h.inv hsound hs hm.allocLeaf (fun _ => .inl) rfl
        (fun y hy => m.allocated_alloc a hy) (.newNode key val pred z (a, gen a))
        ⟨hu.1.mono fun _ => .inl, .inl hu.2⟩ (.inr rfl) nofun⟩
  | newNode key val pred x a b hpc hb =>
    -- the second one, in the same way
    rw [hpc] at hn
    cases hn with
    | newNode key val pred z nn =>
      have hs : Step cfg.first s t _ _ := .newNode key val pred z nn (b, gen b) hq
        (hm.not_allocated hb)
      exact ⟨_, .tau, _, hs, rfl, hm.store h.inv hsound hs (hm.allocNode hb) (fun _ => id) rfl
        (fun y hy => m.allocated_alloc b hy) (.lockPred key val pred z nn (b, gen b)) hu hf nofun⟩
  | lockPred key val pred p x a b l hpc hp hl =>
    -- `trylock` succeeds or fails in both, since the words are the same
    rw [hpc] at hn
    cases hn with
    | lockPred key val pred z nn nr =>
      obtain ⟨⟨p, i⟩, hz, rfl⟩ := Option.map_eq_some_iff.mp hp
      obtain ⟨rfl, ha⟩ : i = gen p ∧ _ := hcur _ (hsafe.1 _ hz)
      rw [hm.lock p ha] at hl
      have hs : Step cfg.first s t _ _ := .lockPred key val pred (p, gen p) z nn nr l hq hz hl
      exact ⟨_, .access (p, gen p), _, hs, rfl, hm.store h.inv hsound hs hm.setLock (fun _ => id)
        rfl (fun _ h => h) (.compare key val pred z nn nr) hu hf nofun⟩
  | lockPredFail key val pred p x a b hpc hp hl =>
    rw [hpc] at hn
    cases hn with
    | lockPred key val pred z nn nr =>
      obtain ⟨⟨p, i⟩, hz, rfl⟩ := Option.map_eq_some_iff.mp hp
      obtain ⟨rfl, ha⟩ : i = gen p ∧ _ := hcur _ (hsafe.1 _ hz)
      rw [hm.lock p ha] at hl
      exact ⟨_, .access (p, gen p), known,
        .lockPredFail key val pred (p, gen p) z nn nr hq hz hl, rfl,
        hm.goto (.dealloc key val pred nn nr) trivial trivial nofun⟩
  | dealloc key val pred a b hpc =>
    rw [hpc] at hn
    cases hn with
    | dealloc key val pred nn nr =>
      exact ⟨_, .tau, known, .dealloc key val pred nn nr hq, rfl,
        hm.goto (.endRetry (.insert key val) .none pred) trivial trivial nofun⟩
  | compare key val pred x a b hpc =>
    rw [hpc] at hn
    cases hn with
    | compare key val pred z nn nr =>
      obtain ⟨x, i⟩ := z
      obtain ⟨rfl, ha⟩ : i = gen x ∧ _ := hcur _ hsafe.2
      rw [hm.key x ha hu.2]
      exact ⟨_, .access (x, gen x), known, .compare key val pred (x, gen x) nn nr hq, rfl,
        hm.goto (.initNode key val pred (x, gen x) nn nr _) hu hf nofun⟩
  | initNode key val pred x a b less hpc =>
    -- the new node has not been given to anybody, so it is the present one of its address
    rw [hpc] at hn
    cases hn with
    | initNode key val pred z nn nr less =>
      obtain ⟨b, j⟩ := nr
      have hown : (s.pc t).Own (b, j) := by
        rw [hq]
        exact .inr rfl
      obtain ⟨rfl, hb⟩ : j = gen b ∧ _ := h.waits.current_of_own hm.toImage h.watched hown
      obtain ⟨x, i⟩ := z
      obtain ⟨rfl, ha⟩ : i = gen x ∧ _ := hcur _ hsafe.2
      have hs : Step cfg.first s t _ _ := .initNode key val pred (x, gen x) nn (b, gen b) less hq
      exact ⟨_, .access (b, gen b), _, hs, rfl, hm.store h.inv hsound hs
        (hm.initNode hb hf hu.2 (hm.key x ha hu.2)) (fun _ => .inl) rfl (fun _ h => h)
        (.storeChild key val pred (x, gen x) nn (b, gen b))
        ⟨hu.1.mono fun _ => .inl, .inl hu.2⟩ ⟨.inl hf, .inr rfl⟩ nofun⟩
  | storeChild key val pred p x a b hpc hp =>
    -- from here on the children of the new node are read by others
    rw [hpc] at hn
    cases hn with
    | storeChild key val pred z nn nr =>
      obtain ⟨⟨p, i⟩, hz, rfl⟩ := Option.map_eq_some_iff.mp hp
      obtain ⟨rfl, ha⟩ : i = gen p ∧ _ := hcur _ (hsafe.1 _ hz)
      have hs : Step cfg.first s t _ _ := .storeChild key val pred (p, gen p) z nn nr hq hz
      have himg : Image cfg (m.setChild p pred.right (some nr.1))
          (s.setChild (p, gen p) pred.right (some nr)) gen known :=
        hm.setChild fun y hy => Option.some.inj hy ▸ hf.2
      exact ⟨_, .access (p, gen p), _, hs, rfl, hm.store h.inv hsound hs himg (fun _ => id) rfl
        (fun _ h => h) (.unlock pred (.inserted key val)) ⟨hu.1, trivial⟩ trivial nofun⟩
  | lockPpred key ppred pred y x l hpc hg hl =>
    -- `deleteKey` locks `ppred` and `pred`, which are nodes it has come by
    rw [hpc] at hn
    cases hn with
    | lockPpred key ppred pred z =>
      obtain ⟨⟨y, i⟩, hz, rfl⟩ := Option.map_eq_some_iff.mp hg
      obtain ⟨rfl, ha⟩ : i = gen y ∧ _ := hcur _ (hsafe.1 _ hz)
      rw [hm.lock y ha] at hl
      have hs : Step cfg.first s t _ _ := .lockPpred key ppred pred (y, gen y) z l hq hz hl
      exact ⟨_, .access (y, gen y), _, hs, rfl, hm.store h.inv hsound hs hm.setLock (fun _ => id)
        rfl (fun _ h => h) (.lockBoth key ppred pred z) hu trivial nofun⟩
  | lockPpredFail key ppred pred y x hpc hg hl =>
    rw [hpc] at hn
    cases hn with
    | lockPpred key ppred pred z =>
      obtain ⟨⟨y, i⟩, hz, rfl⟩ := Option.map_eq_some_iff.mp hg
      obtain ⟨rfl, ha⟩ : i = gen y ∧ _ := hcur _ (hsafe.1 _ hz)
      rw [hm.lock y ha] at hl
      exact ⟨_, .access (y, gen y), known, .lockPpredFail key ppred pred (y, gen y) z hq hz hl,
        rfl, hm.goto (.endRetry (.delete key) ppred pred) trivial trivial nofun⟩
  | lockBoth key ppred pred p x l hpc hp hl =>
    rw [hpc] at hn
    cases hn with
    | lockBoth key ppred pred z =>
      obtain ⟨⟨p, i⟩, hz, rfl⟩ := Option.map_eq_some_iff.mp hp
      obtain ⟨rfl, ha⟩ : i = gen p ∧ _ := hcur _ (hsafe.2.1 _ hz)
      rw [hm.lock p ha] at hl
      have hs : Step cfg.first s t _ _ := .lockBoth key ppred pred (p, gen p) z l hq hz hl
      exact ⟨_, .access (p, gen p), _, hs, rfl, hm.store h.inv hsound hs hm.setLock (fun _ => id)
        rfl (fun _ h => h) (.loadSibling key ppred pred z) hu trivial nofun⟩
  | lockBothFail key ppred pred p x hpc hp hl =>
    rw [hpc] at hn
    cases hn with
    | lockBoth key ppred pred z =>
      obtain ⟨⟨p, i⟩, hz, rfl⟩ := Option.map_eq_some_iff.mp hp
      obtain ⟨rfl, ha⟩ : i = gen p ∧ _ := hcur _ (hsafe.2.1 _ hz)
      rw [hm.lock p ha] at hl
      exact ⟨_, .access (p, gen p), known, .lockBothFail key ppred pred (p, gen p) z hq hz hl,
        rfl, hm.goto (.revert key ppred pred) hu.1 trivial nofun⟩
  | loadSibling key ppred pred p x hpc hp =>
    -- the sibling is read under the locks, from a node that is removed but not freed
    rw [hpc] at hn
    cases hn with
    | loadSibling key ppred pred z =>
      obtain ⟨⟨p, i⟩, hz, rfl⟩ := Option.map_eq_some_iff.mp hp
      obtain ⟨rfl, ha⟩ : i = gen p ∧ _ := hcur _ (hsafe.2.1 _ hz)
      have hkp := hu.2.1 _ hz
      rw [hm.child p _ ha hkp]
      exact ⟨_, .access (p, gen p), known, .loadSibling key ppred pred (p, gen p) z hq hz, rfl,
        hm.goto (.splice key ppred pred z _)
          ⟨hu.1, hu.2.1, hu.2.2, fun y hy => hm.known_child _ _ y hkp hy⟩ trivial nofun⟩
  | splice key ppred pred y x o hpc hg =>
    -- the one store that cuts two nodes off
    rw [hpc] at hn
    cases hn with
    | splice key ppred pred z o =>
      obtain ⟨⟨y, i⟩, hz, rfl⟩ := Option.map_eq_some_iff.mp hg
      obtain ⟨rfl, ha⟩ : i = gen y ∧ _ := hcur _ (hsafe.1 _ hz)
      have hs : Step cfg.first s t _ _ := .splice key ppred pred (y, gen y) z o hq hz
      exact ⟨_, .access (y, gen y), _, hs, rfl, hm.store h.inv hsound hs
        (hm.setChild hu.2.2.2) (fun _ => id) rfl (fun _ h => h)
        (.unlock ppred (.deleted key pred z)) ⟨hu.1, hu.2.1, hu.2.2.1⟩ trivial nofun⟩
  | unlock e k p hpc hp =>
    -- the locks are given back by the word that was read
    rw [hpc] at hn
    cases hn with
    | unlock e k =>
      obtain ⟨⟨p, i⟩, hz, rfl⟩ := Option.map_eq_some_iff.mp hp
      obtain ⟨rfl, ha⟩ : i = gen p ∧ _ := hcur _ (hsafe.1 _ hz)
      rw [hm.lock p ha]
      exact ⟨_, .access (p, gen p), known, .unlock e k (p, gen p) hq hz, rfl,
        hm.goto (.storeVersion e _ k) hu trivial nofun⟩
  | storeVersion e v k p hpc hp =>
    rw [hpc] at hn
    cases hn with
    | storeVersion e v k =>
      obtain ⟨⟨p, i⟩, hz, rfl⟩ := Option.map_eq_some_iff.mp hp
      obtain ⟨rfl, ha⟩ : i = gen p ∧ _ := hcur _ (hsafe.1 _ hz)
      have hs : Step cfg.first s t _ _ := .storeVersion e v k (p, gen p) hq hz
      rw [hm.lock p ha]
      refine ⟨_, .access (p, gen p), known, hs, rfl, ?_⟩
      cases k with
      | inserted key val =>
        exact hm.store h.inv hsound hs hm.setLock (fun _ => id) rfl (fun _ h => h)
          (.endOp _ _) trivial trivial nofun
      | deleted key pred z =>
        exact hm.store h.inv hsound hs hm.setLock (fun _ => id) rfl (fun _ h => h)
          (.retireCurr key pred z) hu.2 trivial nofun
  | revert key ppred pred y hpc hg =>
    rw [hpc] at hn
    cases hn with
    | revert key ppred pred =>
      obtain ⟨⟨y, i⟩, hz, rfl⟩ := Option.map_eq_some_iff.mp hg
      obtain ⟨rfl, ha⟩ : i = gen y ∧ _ := hcur _ (hsafe _ hz)
      rw [hm.lock y ha]
      exact ⟨_, .access (y, gen y), known, .revert key ppred pred (y, gen y) hq hz, rfl,
        hm.goto (.storeTicket key ppred pred _) hu trivial nofun⟩
  | storeTicket key ppred pred v y hpc hg =>
    rw [hpc] at hn
    cases hn with
    | storeTicket key ppred pred v =>
      obtain ⟨⟨y, i⟩, hz, rfl⟩ := Option.map_eq_some_iff.mp hg
      obtain ⟨rfl, ha⟩ : i = gen y ∧ _ := hcur _ (hsafe _ hz)
      have hs : Step cfg.first s t _ _ := .storeTicket key ppred pred v (y, gen y) hq hz
      rw [hm.lock y ha]
      exact ⟨_, .access (y, gen y), known, hs, rfl, hm.store h.inv hsound hs hm.setLock
        (fun _ => id) rfl (fun _ h => h) (.endRetry (.delete key) ppred pred) trivial trivial nofun⟩
  | retireCurr key pred x hpc =>
    -- the nodes that were cut off are retired, `curr` first
    rw [hpc] at hn
    cases hn with
    | retireCurr key pred z =>
      exact ⟨_, .retire z, known, .retireCurr key pred z hq, rfl,
        hm.goto (.retirePred key pred z) hu trivial nofun⟩
  | retirePred key pred p x hpc hp =>
    rw [hpc] at hn
    cases hn with
    | retirePred key pred z =>
      obtain ⟨p, hz, rfl⟩ := Option.map_eq_some_iff.mp hp
      exact ⟨_, .retire p, known, .retirePred key pred p z hq hz, rfl,
        hm.goto (.endVal _ z) hu.2 trivial nofun⟩
  | endVal op x hpc =>
    -- nothing holds the leaf from here on: that it is the present node is all that is kept of it
    rw [hpc] at hn
    cases hn with
    | endVal op z =>
      refine ⟨_, .endOp, known, .endVal op z hq, rfl,
        hm.goto (.readVal op z) trivial trivial fun op' z' heq => ?_⟩
      obtain ⟨rfl, rfl⟩ := Pc.readVal.inj heq
      exact hcur z hsafe
  | readVal op x hpc =>
    rw [hpc] at hn
    cases hn with
    | readVal op z =>
      obtain ⟨x, i⟩ := z
      -- the value is read while the node is still there
      obtain ⟨rfl, ha⟩ : i = gen x ∧ _ := hm.value t op _ hq
      rw [hm.val x ha]
      exact ⟨_, .access (x, gen x), known, .readVal op (x, gen x) hq, rfl,
        hm.goto (.ret _ _) trivial trivial nofun⟩
  | endRetry u ppred pred hpc =>
    -- the operation starts over, and `startOp` takes it back to the root
    rw [hpc] at hn
    cases hn with
    | endRetry u ppred pred =>
      exact ⟨_, .endOp, known, .endRetry u ppred pred hq, rfl,
        hm.goto (.start u.op ppred pred) trivial trivial nofun⟩
  | endOp op r hpc =>
    rw [hpc] at hn
    cases hn with
    | endOp op r =>
      exact ⟨_, .endOp, known, .endOp op r hq, rfl, hm.goto (.ret op r) trivial trivial nofun⟩
  | ret op r hpc =>
    rw [hpc] at hn
    cases hn with
    | ret op r =>
      exact ⟨_, .ret op r, known, .ret op r hq, rfl, hm.goto .idle trivial trivial nofun⟩

/-! ### The reclaimer -/

variable [DecidableEq α] [DecidableEq ι]

omit [LinearOrder K] in
theorem Reclaimer.next_eq {ev : Event α K V}
    (hp : ∀ key val pred nn nr, m.pc t ≠ .dealloc key val pred nn nr) (hstart : ev ≠ .startOp)
    (hend : ev ≠ .endOp) (hretire : ∀ x, ev ≠ .retire x) : r.next m (t, ev) = r := by
  unfold Reclaimer.next
  cases ev with
  | startOp => exact (hstart rfl).elim
  | endOp => exact (hend rfl).elim
  | retire x => exact (hretire x rfl).elim
  | _ =>
    dsimp only
    split
    · exact (hp _ _ _ _ _ ‹_›).elim
    · rfl

omit [LinearOrder K] [DecidableEq ι] in
/-- A node that was given back waits for nobody, and nobody has seen it. -/
theorem Waits.deallocate {w : ι → Bool} (h : Waits r g gen)
    (hw : g.cut (x, gen x) = some w) (hnot : ∀ t, w t = false) :
    Waits (r.deallocate x) g gen where
  running := h.running
  old := h.old
  waiting := by
    intro y v hv
    change update r.waiting x _ y = some v at hv
    by_cases hy : y = x
    · subst hy
      refine ⟨w, hw, fun t ht => ?_⟩
      rw [hnot t] at ht
      cases ht
    · rw [update_of_ne hy] at hv
      exact h.waiting y v hv

omit [LinearOrder K] [DecidableEq ι] in
/-- Nodes are cut off that were not. -/
theorem Waits.remove {w : ι → Bool} (h : Waits r g gen) (hy : g.cut y = none)
    (hz : g.cut z = none) : Waits r (g.remove y z w) gen := by
  have hcut : ∀ {v w'}, g.cut v = some w' → (g.remove y z w).cut v = some w' := by
    intro v w' hv
    refine (Epoch.remove_cut_of_ne ?_ ?_).trans hv
    · rintro rfl
      cases hy.symm.trans hv
    · rintro rfl
      cases hz.symm.trans hv
  exact {
    running := h.running
    old := fun v hv => by
      obtain ⟨w', hw', hnot⟩ := h.old v hv
      exact ⟨w', hcut hw', hnot⟩
    waiting := fun x v hv => by
      obtain ⟨w', hw', hsub⟩ := h.waiting x v hv
      exact ⟨w', hcut hw', hsub⟩ }

omit [LinearOrder K] [DecidableEq α] in
/-- An operation ends. -/
theorem Waits.endOp (h : Waits r g gen) : Waits (r.endOp t) (g.finish t) gen where
  running := by
    unfold Reclaimer.endOp Epoch.finish
    rw [h.running]
  old := by
    intro z hz
    obtain ⟨w, hw, hnot⟩ := h.old z hz
    refine ⟨update w t false, Option.map_eq_some_iff.mpr ⟨w, hw, rfl⟩, fun q => ?_⟩
    by_cases hq : q = t
    · subst hq
      exact update_self ..
    · rw [update_of_ne hq]
      exact hnot q
  waiting := by
    intro x v hv
    obtain ⟨w, hw, rfl⟩ := Option.map_eq_some_iff.mp hv
    obtain ⟨w', hw', hsub⟩ := h.waiting x w hw
    refine ⟨update w' t false, Option.map_eq_some_iff.mpr ⟨w', hw', rfl⟩, fun q hq => ?_⟩
    by_cases hqt : q = t
    · subst hqt
      rw [update_self] at hq
      cases hq
    · rw [update_of_ne hqt] at hq ⊢
      exact hsub q hq

omit [DecidableEq ι] in
/-- A node that was cut off is retired. -/
theorem Twin.retire (h : Twin cfg m s gen known g r) (hsafe : Safe cfg.first s g t z)
    (hcut : g.cut z ≠ none) : Waits (r.retire z.1) g gen where
  running := h.waits.running
  old := h.waits.old
  waiting := by
    intro x w hw
    obtain ⟨hz, -⟩ := h.waits.current h.maps.toImage h.watched hsafe
    change update r.waiting z.1 (some r.running) x = some w at hw
    by_cases hx : x = z.1
    · subst hx
      rw [update_self] at hw
      obtain rfl := Option.some.inj hw
      obtain ⟨w', hw'⟩ := Option.ne_none_iff_exists'.mp hcut
      refine ⟨w', ?_, fun q hq => ?_⟩
      · rw [← hz]
        exact hw'
      · rw [h.waits.running]
        exact h.watched.sub z w' q hw' hq
    · rw [update_of_ne hx] at hw
      exact h.waits.waiting x w hw

/-- **The reclaimer keeps up.** -/
theorem Twin.waits_thread {ev : Event (α × ℕ) K V} (h : Twin cfg m s gen known g r)
    (hok : Sound s (t, ev)) (hs : Step cfg.first s t ev s') :
    Waits (r.next m (t, ev.map Prod.fst)) (g.next s (t, ev)) gen := by
  have hn := h.maps.pc t
  -- `startOp` and `endOp` tell the reclaimer what the epoch is told
  by_cases hstart : ev = .startOp
  · subst hstart
    refine ⟨?_, h.waits.old, h.waits.waiting⟩
    show update r.running t true = update g.running t true
    rw [h.waits.running]
  by_cases hend : ev = .endOp
  · subst hend
    exact h.waits.endOp
  -- a node that is retired waits for those who were running when it was cut off
  by_cases hretire : ∃ z, ev = .retire z
  · obtain ⟨z, rfl⟩ := hretire
    have huses := h.watched.uses t
    have hcuts := h.watched.cuts t z
    cases hs with
    | retireCurr key pred z hpc =>
      rw [hpc] at huses hcuts
      have hnext : g.next s (t, .retire z) = g := Epoch.next_still hpc trivial nofun nofun
      rw [hnext]
      exact h.retire huses.2 (hcuts (.inr rfl))
    | retirePred key pred z x hpc hp =>
      rw [hpc] at huses hcuts
      have hnext : g.next s (t, .retire z) = g := Epoch.next_still hpc trivial nofun nofun
      rw [hnext]
      exact h.retire (huses.1 z hp) (hcuts hp)
  -- no other event means anything to the reclaimer
  have hmap : ev.map Prod.fst ≠ .startOp ∧ ev.map Prod.fst ≠ .endOp ∧
      ∀ x : α, ev.map Prod.fst ≠ .retire x := by
    cases ev with
    | startOp => exact (hstart rfl).elim
    | endOp => exact (hend rfl).elim
    | retire z => exact (hretire ⟨z, rfl⟩).elim
    | _ => exact ⟨nofun, nofun, nofun⟩
  -- nothing is cut off, so there is nothing new to wait for
  by_cases hstill : (s.pc t).Still
  · rw [Epoch.next_still rfl hstill hstart hend, Reclaimer.next_eq ?_ hmap.1 hmap.2.1 hmap.2.2]
    · exact h.waits
    · intro key val pred nn nr hpc
      rw [hpc] at hn
      generalize s.pc t = q at hn hstill
      cases hn
      exact hstill
  cases hs with
  | dealloc key val pred a b hpc =>
    -- the nodes of a failed insertion are given back at once: nobody has seen them
    have hnext : g.next s (t, .tau) = g.remove a b fun _ => false := by
      unfold Epoch.next
      rw [hpc]
    have hrnext : r.next m (t, .tau) = (r.deallocate a.1).deallocate b.1 := by
      rw [hpc] at hn
      generalize hq : m.pc t = q at hn
      cases hn
      unfold Reclaimer.next
      rw [hq]
    have hown : ∀ {z}, z = a ∨ z = b → g.cut z = none ∧ z = (z.1, gen z.1) := by
      intro z hz
      have hz : (s.pc t).Own z := by
        rw [hpc]
        exact hz
      obtain ⟨hgen, -⟩ := h.waits.current_of_own h.maps.toImage h.watched hz
      exact ⟨(h.watched.own t z hz).2.1, Prod.ext rfl hgen⟩
    obtain ⟨ha, ha'⟩ := hown (.inl rfl)
    obtain ⟨hb, hb'⟩ := hown (.inr rfl)
    show Waits (r.next m (t, .tau)) _ gen
    rw [hnext, hrnext]
    have hwaits : Waits r (g.remove a b fun _ => false) gen := h.waits.remove ha hb
    refine (hwaits.deallocate ?_ fun _ => rfl).deallocate ?_ fun _ => rfl
    · rw [← ha']
      exact Epoch.remove_cut (.inl rfl)
    · rw [← hb']
      exact Epoch.remove_cut (.inr rfl)
  | splice key ppred pred z x y hpc hg =>
    -- the two nodes are cut off, but they are retired only later
    have hk := h.inv.knows t
    rw [hpc] at hk
    obtain ⟨p, hp, -⟩ := hk.1.edge.met
    obtain ⟨-, hlive, hlive'⟩ := h.inv.live_of_splice hpc hg hp
    have hnext : g.next s (t, .access z) = g.remove p x g.running := by
      unfold Epoch.next
      rw [hpc]
      dsimp only
      rw [hp]
    rw [hnext, Reclaimer.next_eq ?_ hmap.1 hmap.2.1 hmap.2.2]
    · exact h.waits.remove (h.watched.live p hlive) (h.watched.live x hlive')
    · intro key val pred nn nr hpc'
      rw [hpc, hpc'] at hn
      cases hn
  | _ => exact (hstill (by simp [*, Pc.Still])).elim

omit [DecidableEq ι] in
/-- **A node is freed** whose value nobody is about to read. -/
theorem Twin.free {w : ι → Bool} (h : Twin cfg m s gen known g r) (hw : r.waiting x = some w)
    (hdone : ∀ t, w t = false) (hs : Frees x m m') (hread : ∀ t op, m.pc t ≠ .readVal op x) :
    Twin cfg m' s (update gen x (gen x + 1)) known g (r.free x) := by
  obtain ⟨w', hw', hsub⟩ := h.waits.waiting x w hw
  -- whoever was running when the node was cut off has ended its operation since
  have hnot : ∀ t, w' t = false := by
    intro t
    rw [← Bool.not_eq_true]
    intro ht
    cases (hdone t).symm.trans (hsub t ht)
  have ha : m.allocated x = true := by
    rcases (h.maps.allocated x _).mp (h.watched.allocated _ w' hw') with hlt | ⟨-, ha⟩
    · exact (lt_irrefl _ hlt).elim
    · exact ha
  have hne : ∀ {y}, m'.allocated y = true → y ≠ x ∧ m.allocated y = true :=
    fun hy => ((hs.allocated _).mp hy).symm
  have hgen : ∀ {y}, y ≠ x → update gen x (gen x + 1) y = gen y := fun hy => update_of_ne hy ..
  refine ⟨?_, ?_, h.watched, h.inv⟩
  · -- the address is free: its present node is one more of the past ones
    exact {
      allocated := fun y i => by
        rw [h.maps.allocated, hs.allocated]
        by_cases hy : y = x
        · subst hy
          rw [update_self, Nat.lt_succ_iff_lt_or_eq, or_assoc]
          refine or_congr_right ⟨fun h => .inl h.1, ?_⟩
          rintro (hi | ⟨-, -, hne⟩)
          · exact ⟨hi, ha⟩
          · exact (hne rfl).elim
        · rw [hgen hy]
          exact or_congr_right (and_congr_right fun _ => ⟨fun h => ⟨h, hy⟩, fun h => h.1⟩)
      val := fun y hy => by
        obtain ⟨hyx, hy⟩ := hne hy
        rw [hgen hyx, hs.val y hyx]
        exact h.maps.val y hy
      lock := fun y hy => by
        obtain ⟨hyx, hy⟩ := hne hy
        rw [hgen hyx, hs.lock y hyx]
        exact h.maps.lock y hy
      key := fun y hy => by
        obtain ⟨hyx, hy⟩ := hne hy
        rw [hgen hyx, hs.key y hyx]
        exact h.maps.key y hy
      child := fun y d hy => by
        obtain ⟨hyx, hy⟩ := hne hy
        rw [hgen hyx, hs.child y hyx]
        exact h.maps.child y d hy
      known_allocated := h.maps.known_allocated
      known_child := h.maps.known_child
      known_root := h.maps.known_root
      pc := by
        rw [hs.pc]
        exact h.maps.pc
      uses := h.maps.uses
      fresh := h.maps.fresh
      value := fun t op z hz => by
        obtain ⟨hz₁, hz₂⟩ := h.maps.value t op z hz
        have hzx : z.1 ≠ x := by
          rintro rfl
          have hn := h.maps.pc t
          rw [hz] at hn
          have hr := hread t op
          generalize m.pc t = q at hn hr
          cases hn
          exact hr rfl
        exact ⟨hz₁.trans (hgen hzx).symm, (hs.allocated _).mpr ⟨hz₂, hzx⟩⟩ }
  · -- the reclaimer waits for nobody at this address any more
    exact {
      running := h.waits.running
      old := fun z hz => by
        by_cases hzx : z.1 = x
        · subst hzx
          rw [update_self] at hz
          rcases Nat.lt_succ_iff_lt_or_eq.mp hz with hz | hz
          · exact h.waits.old z hz
          · rw [← hz] at hw'
            exact ⟨w', hw', hnot⟩
        · rw [hgen hzx] at hz
          exact h.waits.old z hz
      waiting := fun y v hv => by
        change update r.waiting x none y = some v at hv
        have hyx : y ≠ x := by
          rintro rfl
          rw [update_self] at hv
          cases hv
        rw [update_of_ne hyx] at hv
        rw [hgen hyx]
        exact h.waits.waiting y v hv }

/-! ### The contents -/

omit [DecidableEq α] [DecidableEq ι] in
/-- **The two trees have the same contents.** -/
theorem Twin.contents {k : K} {v : V} (h : Twin cfg m s gen known g r) :
    Contents cfg m k v ↔ Contents cfg.first s k v := by
  obtain ⟨u, hu⟩ := h.inv.tree
  obtain ⟨c, hc⟩ := hu.top
  have hroot : u.root = (cfg.root, 0) := by
    rw [hc]
    rfl
  -- the nodes of the tree are known and at their addresses
  have hknown : ∀ z, u.Mem z → known z := by
    refine hu.rep.forall_mem ?_ fun z d y hz hy => h.maps.known_child z d y hz hy
    rw [hroot]
    exact h.maps.known_root
  have hcur : ∀ z, u.Mem z → z = (z.1, gen z.1) ∧ m.allocated z.1 = true := by
    intro z hz
    have hlive : Live cfg.first s z := hu.live_iff.mpr hz
    have hcurrent : Current m gen z := by
      refine h.maps.current hlive.met.1 fun hlt => ?_
      obtain ⟨w, hw, -⟩ := h.waits.old z hlt
      cases (h.watched.live z hlive).symm.trans hw
    exact ⟨Prod.ext rfl hcurrent.1, hcurrent.2⟩
  have hrep : (u.map Prod.fst).Rep m.heap := by
    refine hu.rep.map (fun z hz => ?_) fun z d hz => ?_
    · obtain ⟨heq, ha⟩ := hcur z hz
      have hk := hknown z hz
      rw [heq] at hk ⊢
      exact h.maps.key z.1 ha hk
    · obtain ⟨heq, ha⟩ := hcur z hz
      have hk := hknown z hz
      rw [heq] at hk ⊢
      exact h.maps.child z.1 d ha hk
  have hval : ∀ z, u.Mem z → m.val z.1 = s.val z := by
    intro z hz
    obtain ⟨heq, ha⟩ := hcur z hz
    rw [h.maps.val z.1 ha, ← heq]
  constructor
  · rintro ⟨u', hrep', hroot', x, hx, hv⟩
    obtain rfl : u' = u.map Prod.fst := hrep'.unique hrep (by rw [hroot', ExtTree.root_map, hroot])
    obtain ⟨z, hz, rfl⟩ := ExtTree.isLeaf_map.mp hx
    rw [hval z hz.mem] at hv
    exact ⟨u, hu.rep, hroot, z, hz, hv⟩
  · rintro ⟨u', hrep', hroot', z, hz, hv⟩
    obtain rfl : u' = u := hrep'.unique hu.rep (hroot'.trans hroot.symm)
    refine ⟨u'.map Prod.fst, hrep, ?_, z.1, ExtTree.isLeaf_map.mpr ⟨z, hz, rfl⟩, ?_⟩
    · rw [ExtTree.root_map, hroot]
    · rw [hval z hz.mem]
      exact hv

/-! ### Runs -/

/-- The condition on a run: a half of a lock is taken only where the pointer it guards is as it was
read, and no node is freed whose value a thread is about to read after `endOp`. -/
def Timely (c : Reused α ι K V) : Act α ι K V → Prop
  | .thread t ev => Sound c.mem (t, ev)
  | .free x => ∀ t op, c.mem.pc t ≠ .readVal op x

/-- **Step of both systems**: a thread takes the same step in both, and that a node is freed is no
step without reuse. -/
theorem Twin.step {c c' : Reused α ι K V} {a : Act α ι K V}
    (h : Twin cfg c.mem s gen known g c.recmgr) (hok : Timely c a) (hs : Reused.Step cfg c a c') :
    (∃ t ev s' known', a = .thread t (ev.map Prod.fst) ∧ Step cfg.first s t ev s' ∧
      Sound s (t, ev) ∧ Twin cfg c'.mem s' gen known' (g.next s (t, ev)) c'.recmgr) ∨
    ∃ x gen', a = .free x ∧ Twin cfg c'.mem s gen' known g c'.recmgr := by
  cases hs with
  | thread t ev m' hs =>
    obtain ⟨s', ev', known', hs', rfl, hmaps⟩ := h.thread hok hs
    have hsound : Sound s (t, ev') := h.sound hok
    exact .inl ⟨t, ev', s', known', rfl, hs', hsound, hmaps, h.waits_thread hsound hs',
      h.watched.step h.inv hsound hs', (hs'.inv h.inv hsound).1⟩
  | free x w m' hw hdone hs => exact .inr ⟨x, _, rfl, h.free hw hdone hs hok⟩

/-- The state after the constructor, with the nodes at addresses that were never freed. -/
def State.first (m : State α ι K V) : State (α × ℕ) ι K V where
  child z right := (m.child z.1 right).map fun y => (y, 0)
  key z := m.key z.1
  val z := m.val z.1
  lock z := m.lock z.1
  allocated z := decide (z.2 = 0) && m.allocated z.1
  pc _ := .idle

omit [LinearOrder K] [DecidableEq α] [DecidableEq ι] in
theorem State.first_allocated {x : α} {i : ℕ} :
    m.first.allocated (x, i) = true ↔ i = 0 ∧ m.allocated x = true := by
  unfold State.first
  rw [Bool.and_eq_true, decide_eq_true_iff]

omit [DecidableEq α] [DecidableEq ι] in
theorem Init.first (h : Init cfg m) : Init cfg.first m.first where
  child_root := by
    intro right
    show (m.child cfg.root right).map _ = _
    rw [h.child_root]
    cases right <;> rfl
  child_min := fun right => congrArg (Option.map _) (h.child_min right)
  child_max := fun right => congrArg (Option.map _) (h.child_max right)
  key_root := h.key_root
  key_min := h.key_min
  key_max := h.key_max
  val := fun z hz => h.val z.1 (State.first_allocated.mp hz).2
  lock := fun z hz => h.lock z.1 (State.first_allocated.mp hz).2
  allocated := by
    rintro ⟨x, i⟩
    rw [State.first_allocated, h.allocated]
    simp only [Config.first, Prod.mk.injEq]
    tauto
  pc := fun _ => rfl

omit [DecidableEq α] [DecidableEq ι] in
theorem Init.twin (h : Init cfg m) :
    Twin cfg m m.first (fun _ => 0) (fun z => m.first.allocated z = true) .start .start where
  -- every node of the initial tree is the first one at its address
  maps := {
    allocated := fun x i => by
      rw [State.first_allocated]
      exact ⟨.inr, fun h => h.resolve_left (Nat.not_lt_zero i)⟩
    val := fun _ _ => rfl
    lock := fun _ _ => rfl
    key := fun _ _ _ => rfl
    child := fun x d _ _ => by
      show m.child x d = ((m.child x d).map fun y => (y, 0)).map Prod.fst
      rw [Option.map_map]
      exact (Option.map_id' ..).symm
    known_allocated := fun _ h => h
    known_child := fun z d y hz hy => by
      obtain ⟨x, hx, rfl⟩ := Option.map_eq_some_iff.mp hy
      refine State.first_allocated.mpr ⟨rfl, (h.allocated x).mpr (.inr ?_)⟩
      rcases (h.allocated z.1).mp (State.first_allocated.mp hz).2 with hr | hr | hr
      · rw [hr, h.child_root] at hx
        obtain rfl := Option.some.inj hx
        cases d
        · exact .inl rfl
        · exact .inr rfl
      · rw [hr, h.child_min] at hx
        cases hx
      · rw [hr, h.child_max] at hx
        cases hx
    known_root := State.first_allocated.mpr ⟨rfl, (h.allocated _).mpr (.inl rfl)⟩
    pc := fun t => by
      rw [h.pc]
      exact .idle
    uses := fun _ => trivial
    fresh := fun _ => trivial
    value := fun _ _ _ hz => nomatch hz }
  waits := {
    running := rfl
    old := fun _ hz => (Nat.not_lt_zero _ hz).elim
    waiting := fun _ _ hw => nomatch hw }
  watched := h.first.watched
  inv := h.first.inv

/-- The step is a call by thread `t`. -/
def Act.calls (t : ι) : Act α ι K V → Bool
  | .thread q ev => invokedBy t (q, ev)
  | .free _ => false

/-- The moment is one of the run with reuse. -/
def Shows (cfg : Config α K)
    (e : State (α × ℕ) ι K V × (ι × Event (α × ℕ) K V) × State (α × ℕ) ι K V)
    (e' : Reused α ι K V × Act α ι K V × Reused α ι K V) : Prop :=
  (∀ k v, Contents cfg e'.1.mem k v ↔ Contents cfg.first e.1 k v) ∧
  (∀ k v, Contents cfg e'.2.2.mem k v ↔ Contents cfg.first e.2.2 k v) ∧
  ∃ ev, e'.2.1 = .thread e.2.1.1 ev

/-- What an operation of thread `t` returns was associated with its key at a moment of the interval,
`none` being that the key was absent. -/
def Returned (cfg : Config α K) (t : ι) (H : List (Reused α ι K V × Act α ι K V × Reused α ι K V)) :
    Op K V → Option V → Prop
  | .contains k, none => Sometime (fun c => ∀ v, ¬ Contents cfg c.mem k v) H
  | .contains k, some v => Sometime (fun c => Contents cfg c.mem k v) H
  | .insert k val, none => Atomically (fun c a c' => (∃ ev, a = .thread t ev) ∧
      (∀ v, ¬ Contents cfg c.mem k v) ∧ Contents cfg c'.mem k val) H
  | .insert k _, some v => Sometime (fun c => Contents cfg c.mem k v) H
  | .erase k, none => Sometime (fun c => ∀ v, ¬ Contents cfg c.mem k v) H
  | .erase k, some v => Atomically (fun c a c' => (∃ ev, a = .thread t ev) ∧
      Contents cfg c.mem k v ∧ ∀ w, ¬ Contents cfg c'.mem k w) H

/-- **The run without reuse** of a run in which nodes are not freed too early. -/
theorem Twin.of_reachable {c : Reused α ι K V}
    {H : List (Reused α ι K V × Act α ι K V × Reused α ι K V)}
    (h : ((recycling cfg).since (Act.calls t)).ReachableBy (fun x a => Timely x.1 a) (c, H)) :
    ∃ s gen known g H', Twin cfg c.mem s gen known g c.recmgr ∧
      ((lts cfg.first).since (invokedBy t)).ReachableBy (fun x a => Sound x.1 a) (s, H') ∧
      ∀ e ∈ H', ∃ e' ∈ H, Shows cfg e e' := by
  refine h.invariant (P := fun y => ∃ s gen known g H', Twin cfg y.1.mem s gen known g y.1.recmgr ∧
      ((lts cfg.first).since (invokedBy t)).ReachableBy (fun x a => Sound x.1 a) (s, H') ∧
      ∀ e ∈ H', ∃ e' ∈ y.2, Shows cfg e e') ?_ ?_
  · -- at the start the two memories are the same but for the names
    rintro ⟨c, H⟩ ⟨⟨hinit, hstart⟩, -⟩
    have hstart : c.recmgr = .start := hstart
    have htwin := hinit.twin
    rw [← hstart] at htwin
    refine ⟨_, _, _, _, [], htwin, .init ⟨hinit.first, rfl⟩, ?_⟩
    intro e he
    cases he
  · -- a step of a thread is one without reuse, and a `free` is none at all
    rintro ⟨c, H⟩ a ⟨c', H'⟩ - ⟨s, gen, known, g, G, htwin, hreach, hshows⟩ hok ⟨hs, hH⟩
    obtain rfl : H' = (c, a, c') :: bif Act.calls t a then [] else H := hH
    rcases htwin.step hok hs with ⟨q, ev, s', known', rfl, hs', hsound, htwin'⟩ |
      ⟨x, gen', rfl, htwin'⟩
    · refine ⟨s', gen, known', _, (s, (q, ev), s') :: bif invokedBy t (q, ev) then [] else G,
        htwin', hreach.step (a := (q, ev)) ⟨hs', rfl⟩ hsound, ?_⟩
      -- the call of the interval begins in both runs
      have hcalls : Act.calls t (.thread q (ev.map Prod.fst) : Act α ι K V) =
          invokedBy t (q, ev) := by
        cases ev <;> rfl
      rw [hcalls]
      intro e he
      rcases List.mem_cons.mp he with rfl | he
      · exact ⟨_, List.mem_cons_self, fun _ _ => htwin.contents, fun _ _ => htwin'.contents, _, rfl⟩
      · cases hi : invokedBy t (q, ev) with
        | true =>
          rw [hi] at he
          cases he
        | false =>
          rw [hi] at he
          obtain ⟨e', he', hshow⟩ := hshows e he
          exact ⟨e', List.mem_cons_of_mem _ he', hshow⟩
    · refine ⟨s, gen', known, g, G, htwin', hreach, fun e he => ?_⟩
      obtain ⟨e', he', hshow⟩ := hshows e he
      exact ⟨e', List.mem_cons_of_mem _ he', hshow⟩

/-- **The values that are returned.** In every run in which the locks do what they are for and no
node is freed before its value was read, what an operation returns was associated with its key at a
moment of the operation. -/
theorem ticket_values (cfg : Config α K) (t : ι) {c : Reused α ι K V}
    {H : List (Reused α ι K V × Act α ι K V × Reused α ι K V)}
    (h : ((recycling cfg).since (Act.calls t)).ReachableBy (fun x a => Timely x.1 a) (c, H))
    {op : Op K V} {r : Option V} (hpc : c.mem.pc t = .ret op (.value r)) :
    Returned cfg t H op r := by
  -- the run without reuse returns the same
  obtain ⟨s, gen, known, g, G, htwin, hreach, hshows⟩ := Twin.of_reachable h
  have hpc' : s.pc t = .ret op (.value r) := by
    have hn := htwin.maps.pc t
    rw [hpc] at hn
    generalize s.pc t = q at hn
    cases hn
    rfl
  have hanswered := (ticket_tree cfg.first).2 t s G hreach op _ hpc'
  -- what was so in the one run was so in the other
  have hsome : ∀ {k v}, Sometime (fun s₀ => Contents cfg.first s₀ k v) G →
      Sometime (fun c => Contents cfg c.mem k v) H := by
    rintro k v ⟨e, he, hc⟩
    obtain ⟨e', he', -, hafter, -⟩ := hshows e he
    exact ⟨e', he', (hafter k v).mpr hc⟩
  have hnone : ∀ {k}, Sometime (fun s₀ => ∀ v, ¬ Contents cfg.first s₀ k v) G →
      Sometime (fun c => ∀ v, ¬ Contents cfg c.mem k v) H := by
    rintro k ⟨e, he, hc⟩
    obtain ⟨e', he', -, hafter, -⟩ := hshows e he
    exact ⟨e', he', fun v hv => hc v ((hafter k v).mp hv)⟩
  -- the answer of each operation, as it was shown without reuse
  cases op with
  | contains k =>
    match r, hanswered with
    | none, ha => exact hnone ha
    | some v, ha => exact hsome ha
  | insert k val =>
    match r, hanswered with
    | some v, ha => exact hsome ha
    | none, ha =>
      obtain ⟨e, he, rfl, habs, hadd⟩ := ha
      obtain ⟨e', he', hbefore, hafter, hthread⟩ := hshows e he
      refine ⟨e', he', hthread, fun v hv => habs v ((hbefore k v).mp hv), ?_⟩
      exact (hafter k val).mpr ((hadd k val).mpr (.inr ⟨rfl, rfl⟩))
  | erase k =>
    match r, hanswered with
    | none, ha => exact hnone ha
    | some v, ha =>
      obtain ⟨e, he, rfl, hin, hrem⟩ := ha
      obtain ⟨e', he', hbefore, hafter, hthread⟩ := hshows e he
      refine ⟨e', he', hthread, (hbefore k v).mpr hin, fun w hw => ?_⟩
      exact ((hrem k w).mp ((hafter k w).mp hw)).2 rfl

end
end

/-! ### A run in which a node is freed too early -/

section

/-- In this memory nothing with the key 5 has the value 66. -/
def Unmatched (m : State ℕ Bool ℕ ℕ) : Prop :=
  ∀ x, m.val x = some 66 → m.key x ≠ 5

theorem Unmatched.allocLeaf {m : State ℕ Bool ℕ ℕ} {a key val : ℕ} (h : Unmatched m)
    (hv : val ≠ 66 ∨ key ≠ 5) : Unmatched (m.allocLeaf a key val) := by
  intro x
  show update m.val a (some val) x = some 66 → update m.key a key x ≠ 5
  by_cases hx : x = a
  · subst hx
    rw [update_self, update_self]
    exact fun hval => hv.resolve_left fun hne => hne (Option.some.inj hval)
  · rw [update_of_ne hx, update_of_ne hx]
    exact h x

theorem Unmatched.allocNode {m : State ℕ Bool ℕ ℕ} {a : ℕ} (h : Unmatched m) :
    Unmatched (m.allocNode a) := by
  intro x
  show update m.val a none x = some 66 → m.key x ≠ 5
  by_cases hx : x = a
  · subst hx
    rw [update_self]
    exact nofun
  · rw [update_of_ne hx]
    exact h x

theorem Unmatched.initNode {m : State ℕ Bool ℕ ℕ} (nr nn curr key : ℕ) (less : Bool)
    (h : Unmatched m) (hv : m.val nr = none) : Unmatched (m.initNode nr nn curr key less) := by
  intro x
  show m.val x = some 66 → update m.key nr _ x ≠ 5
  by_cases hx : x = nr
  · subst hx
    rw [hv]
    exact nofun
  · rw [update_of_ne hx]
    exact h x

theorem Unmatched.contents {m : State ℕ Bool ℕ ℕ} (h : Unmatched m) :
    ¬ Contents smallConfig m 5 66 := by
  rintro ⟨u, hu, -, x, hx, hv⟩
  exact h x hv (hu.key_eq hx)

variable {ok : Reused ℕ Bool ℕ ℕ → Act ℕ Bool ℕ ℕ → Prop} {m m' : State ℕ Bool ℕ ℕ}
  {r r' : Reclaimer ℕ Bool} {t : Bool} {ev : Event ℕ ℕ ℕ} {p p' : Pc ℕ ℕ ℕ}

/-- The state is reached by such steps, and nothing with the key 5 had the value 66 in its past. -/
def Reaches (ok : Reused ℕ Bool ℕ ℕ → Act ℕ Bool ℕ ℕ → Prop) (m : State ℕ Bool ℕ ℕ)
    (r : Reclaimer ℕ Bool) : Prop :=
  Unmatched m ∧ ∃ H, ((recycling smallConfig).since (Act.calls false)).ReachableBy
    (fun x a => ok x.1 a) (⟨m, r⟩, H) ∧ ∀ e ∈ H, Unmatched e.1.mem ∧ Unmatched e.2.2.mem

theorem Reaches.next {a : Act ℕ Bool ℕ ℕ} (h : Reaches ok m r)
    (hs : Reused.Step smallConfig ⟨m, r⟩ a ⟨m', r'⟩) (hok : ok ⟨m, r⟩ a) (hm : Unmatched m') :
    Reaches ok m' r' := by
  obtain ⟨hc, H, hr, hH⟩ := h
  refine ⟨hm, (⟨m, r⟩, a, ⟨m', r'⟩) :: bif Act.calls false a then [] else H,
    hr.step (a := a) ⟨hs, rfl⟩ hok, fun e he => ?_⟩
  rcases List.mem_cons.mp he with rfl | he
  · exact ⟨hc, hm⟩
  · cases hi : Act.calls false a with
    | true =>
      rw [hi] at he
      cases he
    | false =>
      rw [hi] at he
      exact hH e he

/-- The condition that is left without the one on nodes that are freed. -/
def Guarded (c : Reused ℕ Bool ℕ ℕ) : Act ℕ Bool ℕ ℕ → Prop
  | .thread t ev => Sound c.mem (t, ev)
  | .free _ => True

theorem Reaches.guarded (h : Reaches Timely m r) : Reaches Guarded m r := by
  obtain ⟨hm, H, hr, hH⟩ := h
  refine ⟨hm, H, hr.mono ?_, hH⟩
  rintro x (⟨t, ev⟩ | x) hok
  · exact hok
  · trivial

/-- A thread calls the reclaimer. -/
theorem Reaches.call (r' : Reclaimer ℕ Bool) (h : Reaches ok (m.goto t p) r)
    (hs : Step smallConfig (m.goto t p) t ev ((m.goto t p).goto t p'))
    (hok : ok ⟨m.goto t p, r⟩ (.thread t ev)) (hr : r.next (m.goto t p) (t, ev) = r') :
    Reaches ok (m.goto t p') r' := by
  have hstep := Reused.Step.thread (c := ⟨m.goto t p, r⟩) t ev _ hs
  rw [hr] at hstep
  rw [← State.goto_goto]
  exact h.next hstep hok h.1

/-- A thread goes on, and nothing is stored. -/
theorem Reaches.goto (h : Reaches ok (m.goto t p) r)
    (hs : Step smallConfig (m.goto t p) t ev ((m.goto t p).goto t p'))
    (hok : ok ⟨m.goto t p, r⟩ (.thread t ev)) (hr : r.next (m.goto t p) (t, ev) = r) :
    Reaches ok (m.goto t p') r :=
  h.call r hs hok hr

/-- A thread takes a step. -/
theorem Reaches.step (h : Reaches ok m r) (hs : Step smallConfig m t ev m')
    (hok : ok ⟨m, r⟩ (.thread t ev)) (hm : Unmatched m') (hr : r.next m (t, ev) = r) :
    Reaches ok m' r := by
  have hstep := Reused.Step.thread (c := ⟨m, r⟩) t ev m' hs
  rw [hr] at hstep
  exact h.next hstep hok hm

/-- A search passes a node. -/
theorem Reaches.visit {u : Upd ℕ ℕ} {pp e : Edge ℕ} {x y : ℕ} {d : Bool}
    (h : Reaches Guarded (m.goto t (.loadVer u pp e x)) r) (hd : toward u.key (m.key x) = d)
    (hy : m.child x d = some y) :
    Reaches Guarded (m.goto t (.loadLeft u e ⟨some x, m.lock x, d⟩ y)) r := by
  subst hd
  have hpc : ∀ {q}, (m.goto t q).pc t = q := State.goto_pc_self
  have h := h.goto (.loadVer u pp e x hpc) (by rw [Guarded, Sound, hpc]; trivial)
    (by rw [Reclaimer.next, hpc])
  have h := h.goto (.readKey u e ⟨some x, m.lock x, e.right⟩ x hpc rfl)
    (by rw [Guarded, Sound, hpc]; trivial) (by rw [Reclaimer.next, hpc])
  exact h.goto (.loadChild u e ⟨some x, m.lock x, toward u.key (m.key x)⟩ x y hpc rfl hy)
    (by rw [Guarded, Sound, hpc]; trivial) (by rw [Reclaimer.next, hpc])

/-- Thread `false` is in an operation. -/
def busy : Reclaimer ℕ Bool := Reclaimer.startOp false .start

/-- What the insertion of the key 5 leaves. -/
structure Five (m : State ℕ Bool ℕ ℕ) : Prop where
  reaches : Reaches Timely (m.goto false (.ret (.insert 5 7) (.value none))) (busy.endOp false)
  root : m.child 0 false = some 4
  child : ∀ right, m.child 4 right = some (bif right then 3 else 1)
  leaf : m.child 3 false = none
  key_root : m.key 0 = 100
  key_inner : m.key 4 = 5
  key_leaf : m.key 3 = 5
  lock : m.lock 4 = .zero
  lock_root : (m.lock 0).lr false = ⟨1, 1⟩
  allocated : m.allocated 3 = true
  min : m.key 1 = 0 ∧ m.child 1 false = none
  idle : m.pc true = .idle

/-- The edge from the root. -/
def rootEdge : Edge ℕ := ⟨some 0, .zero, false⟩

/-- A thread inserts the key 5. -/
theorem exists_five : ∃ m, Five m := by
  have h : Reaches Timely (smallState Bool) .start := by
    refine ⟨fun x hx => ?_, [], .init ⟨⟨smallState_init Bool, rfl⟩, rfl⟩, fun e he => ?_⟩
    · cases hx
    · cases he
  have h := h.step (t := false) (.invoke (.insert 5 7) rfl (by decide) (by decide)) trivial h.1 rfl
  have h := h.call busy (t := false) (.startOp (.insert 5 7) .none .none rfl) trivial rfl
  have h := h.goto (.loadVer (.insert 5 7) .none .none 0 rfl) trivial rfl
  have h := h.goto (.readKey (.insert 5 7) .none rootEdge 0 rfl rfl) trivial rfl
  have h := h.goto (.loadChild (.insert 5 7) .none rootEdge 0 1 rfl rfl rfl) trivial rfl
  have h := h.goto (.loadNull (.insert 5 7) .none rootEdge 1 rfl rfl) trivial rfl
  have h := h.goto (.miss (.insert 5 7) .none rootEdge 1 rfl (by decide)) trivial rfl
  have h := h.step (t := false) (.newLeaf 5 7 rootEdge 1 3 rfl rfl) trivial
    (h.1.allocLeaf (.inl (by decide))) rfl
  rw [State.goto_allocLeaf] at h
  have h := h.step (t := false) (.newNode 5 7 rootEdge 1 3 4 rfl rfl) trivial h.1.allocNode rfl
  rw [State.goto_allocNode] at h
  have h := h.step (t := false) (.lockPred 5 7 rootEdge 0 1 3 4 _ rfl rfl rfl)
    (fun p hp _ => by
      obtain rfl := Option.some.inj hp
      rfl) h.1 rfl
  rw [State.goto_setLock] at h
  have h := h.goto (.compare 5 7 rootEdge 1 3 4 rfl) trivial rfl
  have h := h.step (t := false) (.initNode 5 7 rootEdge 1 3 4 false rfl) trivial
    (h.1.initNode 4 3 1 5 false rfl) rfl
  rw [State.goto_initNode] at h
  have h := h.step (t := false) (.storeChild 5 7 rootEdge 0 1 3 4 rfl rfl) trivial h.1 rfl
  rw [State.goto_setChild] at h
  have h := h.goto (.unlock rootEdge (.inserted 5 7) 0 rfl rfl) trivial rfl
  have h := h.step (t := false) (.storeVersion rootEdge _ (.inserted 5 7) 0 rfl rfl) trivial h.1 rfl
  rw [State.goto_setLock] at h
  have h := h.call (t := false) (busy.endOp false) (.endOp (.insert 5 7) (.value none) rfl) trivial
    rfl
  exact ⟨_, h, rfl, fun right => by cases right <;> rfl, rfl, rfl, rfl, rfl, rfl, rfl, rfl,
    ⟨rfl, rfl⟩, rfl⟩

/-- The thread calls `startOp` again. -/
theorem busy_startOp : (busy.endOp false).startOp false = busy := by
  unfold busy Reclaimer.endOp Reclaimer.startOp
  rw [update_idem, update_idem]
  rfl

/-- The node is freed, and its fields are as they were. -/
def State.freeing {ι : Type} (m : State ℕ ι ℕ ℕ) (x : ℕ) : State ℕ ι ℕ ℕ :=
  { m with allocated := update m.allocated x false }

theorem frees_freeing {ι : Type} {m : State ℕ ι ℕ ℕ} (x : ℕ) : Frees x m (m.freeing x) := by
  refine ⟨fun _ _ => rfl, fun _ _ => rfl, fun _ _ => rfl, fun _ _ => rfl, fun y => ?_, rfl⟩
  show update m.allocated x false y = true ↔ m.allocated y = true ∧ y ≠ x
  by_cases hy : y = x
  · subst hy
    simp
  · rw [update_of_ne hy, and_iff_left hy]

/-- Thread `false` has retired two nodes and ended its operation. -/
def retired : Reclaimer ℕ Bool := ((busy.retire 3).retire 4).endOp false

/-- What the deletion of the key 5 leaves, before the value of the leaf is read. -/
structure Gone (m : State ℕ Bool ℕ ℕ) : Prop where
  reaches : Reaches Guarded (m.goto false (.readVal (.erase 5) 3)) retired
  root : m.child 0 false = some 1
  leaf : m.child 1 false = none
  key_root : m.key 0 = 100
  key_min : m.key 1 = 0
  allocated : m.allocated 3 = true
  idle : m.pc true = .idle

/-- The thread deletes it. -/
theorem Five.gone (h : Five m) : ∃ m', Gone m' := by
  obtain ⟨h₀, hroot, hchild, hleaf, hkroot, hkinner, hkleaf, hlock, hlroot, halloc, hmin,
    hidle⟩ := h
  have h := h₀.guarded
  have h := h.goto (.ret (.insert 5 7) (.value none) rfl) trivial rfl
  have h := h.goto (.invoke (.erase 5) rfl (by decide) (by decide)) (by trivial) rfl
  have h := h.call (t := false) busy (.startOp (.erase 5) .none .none rfl) trivial busy_startOp
  -- the search
  have h := h.visit (x := 0) (d := false) (by rw [hkroot]; decide) hroot
  have h := h.goto (.loadLeft _ _ _ 4 rfl (by
    show m.child 4 false ≠ none
    rw [hchild]
    exact Option.some_ne_none _)) trivial rfl
  have h := h.visit (d := true) (by rw [hkinner]; decide) (hchild true)
  have h := h.goto (.loadNull _ _ _ 3 rfl hleaf) trivial rfl
  have h := h.goto (.hit _ _ _ 3 rfl hkleaf) trivial rfl
  -- the two locks
  set eg : Edge ℕ := ⟨some 0, m.lock 0, false⟩
  set ep : Edge ℕ := ⟨some 4, m.lock 4, true⟩
  set l := (m.lock 0).set false ⟨1, 2⟩
  have h := h.step (t := false) (.lockPpred 5 eg ep 0 3 l rfl rfl
    (Tl.trylockVersion_eq_some.mpr ⟨1, hlroot, hlroot, rfl⟩))
    (fun z hz _ => by
      obtain rfl := Option.some.inj hz
      exact hroot) h.1 rfl
  rw [State.goto_setLock] at h
  have h := h.step (t := false) (.lockBoth 5 eg ep 4 3 .removed rfl rfl
    (Tl.trylockVersionBoth_eq_some.mpr ⟨fun d => ⟨0, congrArg (·.lr d) hlock⟩, fun d => rfl, rfl⟩))
    (fun z hz _ => by
      obtain rfl := Option.some.inj hz
      exact hchild true) h.1 rfl
  rw [State.goto_setLock] at h
  -- the inner node is spliced out
  have h := h.goto (.loadSibling 5 eg ep 4 3 rfl rfl) trivial rfl
  have h := h.step (t := false) (.splice 5 eg ep 0 3 _ rfl rfl) trivial h.1 rfl
  rw [State.goto_setChild] at h
  have h := h.goto (.unlock eg (.deleted 5 ep 3) 0 rfl rfl) trivial rfl
  have h := h.step (t := false) (.storeVersion eg _ (.deleted 5 ep 3) 0 rfl rfl) trivial h.1 rfl
  rw [State.goto_setLock] at h
  -- both nodes are retired, and nobody is waited for after `endOp`
  have h := h.call (t := false) _ (.retireCurr 5 ep 3 rfl) trivial rfl
  have h := h.call (t := false) _ (.retirePred 5 ep 4 3 rfl rfl) trivial rfl
  have h := h.call (t := false) retired (.endVal (.erase 5) 3 rfl) trivial rfl
  exact ⟨_, h, hchild false, hmin.2, hkroot, hmin.1, halloc, hidle⟩

/-- The leaf is freed before its value was read, and the other thread inserts a key in its
memory. -/
theorem Gone.recycled (h : Gone m) : ∃ m' r', Reaches Guarded m' r' ∧
    m'.pc false = .ret (.erase 5) (.value (some 66)) := by
  obtain ⟨h₀, hroot, hleaf, hkroot, hkmin, halloc, hidle⟩ := h
  have hfrees : Frees 3 (m.goto false (.readVal (.erase 5) 3))
      ((m.freeing 3).goto false (.readVal (.erase 5) 3)) := frees_freeing 3
  have h := h₀.next (.free 3 _ _ rfl (fun q => by cases q <;> rfl) hfrees) trivial h₀.1
  -- the other thread gets the memory of the leaf for its own
  set n := (m.freeing 3).goto false (.readVal (.erase 5) 3)
  have hidle : n.pc true = .idle := hidle
  rw [← State.goto_self hidle] at h
  have h := h.goto (.invoke (.insert 6 66) rfl (by decide) (by decide)) (by trivial) rfl
  have h := h.call (t := true) _ (.startOp (.insert 6 66) .none .none rfl) trivial rfl
  have h := h.visit (x := 0) (d := false) (by rw [show n.key 0 = 100 from hkroot]; decide) hroot
  have h := h.goto (.loadNull _ _ _ 1 rfl hleaf) trivial rfl
  have h := h.goto (.miss _ _ _ 1 rfl (by
    rw [show (n.goto true _).key 1 = 0 from hkmin]
    decide)) trivial rfl
  have h := h.step (t := true) (.newLeaf 6 66 _ 1 3 rfl (by
    show update m.allocated 3 false 3 = false
    rw [update_self])) trivial
    (h.1.allocLeaf (.inr (by decide))) rfl
  have h := h.step (t := false) (.readVal (.erase 5) 3 rfl) trivial h.1 rfl
  exact ⟨_, _, h, rfl⟩

/-- **A value the key never had.** A deletion returns the value of another key, if the node is freed
and used again before the value was read; everything else is as it should be. -/
theorem ticket_values_recycled : ∃ (c : Reused ℕ Bool ℕ ℕ)
    (H : List (Reused ℕ Bool ℕ ℕ × Act ℕ Bool ℕ ℕ × Reused ℕ Bool ℕ ℕ)),
    ((recycling smallConfig).since (Act.calls false)).ReachableBy
      (fun x a => Guarded x.1 a) (c, H) ∧
    c.mem.pc false = .ret (.erase 5) (.value (some 66)) ∧
    (∀ e ∈ H, ¬ Contents smallConfig e.1.mem 5 66 ∧ ¬ Contents smallConfig e.2.2.mem 5 66) ∧
    ¬ Returned smallConfig false H (.erase 5) (some 66) := by
  obtain ⟨m₀, h₀⟩ := exists_five
  obtain ⟨m₁, h₁⟩ := h₀.gone
  obtain ⟨m, r, ⟨-, H, hreach, hH⟩, hpc⟩ := h₁.recycled
  have hnever : ∀ e ∈ H, ¬ Contents smallConfig e.1.mem 5 66 ∧
      ¬ Contents smallConfig e.2.2.mem 5 66 := fun e he =>
    ⟨(hH e he).1.contents, (hH e he).2.contents⟩
  refine ⟨⟨m, r⟩, H, hreach, hpc, hnever, ?_⟩
  rintro ⟨e, he, -, hc, -⟩
  exact (hnever e he).1 hc

/-! ### A run in which the nodes are used again -/

namespace Reused

/-- A thread goes on, or a node is freed. -/
def goOn (c : Reused ℕ (Fin 2) ℕ ℕ) :
    (Fin 2 × Choice ℕ ℕ ℕ) ⊕ ℕ → Option (Act ℕ (Fin 2) ℕ ℕ × Reused ℕ (Fin 2) ℕ ℕ)
  | .inl x => (c.mem.goOn smallConfig x.1 x.2).map fun r =>
    (.thread x.1 r.1, ⟨r.2, c.recmgr.next c.mem (x.1, r.1)⟩)
  | .inr x => (c.recmgr.waiting x).bind fun w =>
    if ∀ t, w t = false then some (.free x, ⟨c.mem.freeing x, c.recmgr.free x⟩) else none

theorem computes : (recycling smallConfig).Computes goOn := by
  rintro c (⟨t, x⟩ | x) a c' h
  · obtain ⟨⟨ev, s'⟩, hgo, heq⟩ := Option.map_eq_some_iff.mp h
    obtain ⟨rfl, rfl⟩ := Prod.mk.inj heq
    exact .thread t ev s' (State.goOn_sound hgo)
  · obtain ⟨w, hw, hrest⟩ := Option.bind_eq_some_iff.mp h
    obtain ⟨hdone, heq⟩ := Option.ite_none_right_eq_some.mp hrest
    obtain ⟨rfl, rfl⟩ := Prod.mk.inj (Option.some.inj heq)
    exact .free x w _ hw hdone (frees_freeing x)

/-- The thread is about to read the value of the node, after `endOp`. -/
def reads (c : Reused ℕ (Fin 2) ℕ ℕ) (x : ℕ) (t : Fin 2) : Bool :=
  match c.mem.pc t with
  | .readVal _ y => y = x
  | _ => false

/-- The step keeps the condition. -/
def timely (c : Reused ℕ (Fin 2) ℕ ℕ) : Act ℕ (Fin 2) ℕ ℕ → Bool
  | .thread t ev => decide (Sound c.mem (t, ev))
  | .free x => decide (∀ t, c.reads x t = false)

theorem timely_sound {c : Reused ℕ (Fin 2) ℕ ℕ} {a : Act ℕ (Fin 2) ℕ ℕ} (h : c.timely a = true) :
    Timely c a := by
  cases a with
  | thread t ev =>
    show Sound c.mem (t, ev)
    exact of_decide_eq_true h
  | free x =>
    intro t op hpc
    have hreads := of_decide_eq_true h t
    unfold reads at hreads
    rw [hpc] at hreads
    simp at hreads

end Reused

open Choice in
/-- Thread `t` inserts and deletes the key 5, and its two nodes are freed. Thread `u` begins to look
for the key. Thread `t` gets the two nodes again and inserts the key with another value; thread `u`
finds it, and thread `t` deletes it. -/
def reuseSchedule (t u : Fin 2) : List ((Fin 2 × Choice ℕ ℕ ℕ) ⊕ ℕ) :=
  (call t (.insert 5 7) 6 ++ node t 3 0 ++ node t 4 8 ++ call t (.erase 5) 21).map .inl ++
    [.inr 3, .inr 4] ++
    (call u (.contains 5) 2 ++ call t (.insert 5 9) 6 ++ node t 4 0 ++ node t 3 8 ++ steps u 9 ++
      call t (.erase 5) 20).map .inl

/-- Both threads return the value that the key has had since its node is used for the second time. -/
theorem ticket_values_reused : ∃ (c : Reused ℕ (Fin 2) ℕ ℕ)
    (H : Fin 2 → List (Reused ℕ (Fin 2) ℕ ℕ × Act ℕ (Fin 2) ℕ ℕ × Reused ℕ (Fin 2) ℕ ℕ)),
    c.mem.allocated 5 = false ∧ Returned smallConfig 0 (H 0) (.erase 5) (some 9) ∧
      Returned smallConfig 1 (H 1) (.contains 5) (some 9) := by
  have hinit : (recycling smallConfig).ReachableBy Timely
      (⟨smallState (Fin 2), .start⟩ : Reused ℕ (Fin 2) ℕ ℕ) := .init ⟨smallState_init _, rfl⟩
  obtain ⟨c, hr, hfound⟩ := Reused.computes.exists_reachableBy (reuseSchedule 0 1) hinit
    Reused.timely (fun _ _ h => Reused.timely_sound h) (fun c => decide (c.mem.allocated 5 = false) &&
      (c.mem.goOn smallConfig 0 .go).any (fun a => a.1 = .ret (.erase 5) (.value (some 9))) &&
      (c.mem.goOn smallConfig 1 .go).any fun a => a.1 = .ret (.contains 5) (.value (some 9)))
    (by decide +kernel)
  simp only [Bool.and_eq_true, decide_eq_true_eq] at hfound
  obtain ⟨⟨hnew, hgo₀⟩, hgo₁⟩ := hfound
  obtain ⟨s₀, hs₀⟩ := State.step_of_goOn hgo₀
  obtain ⟨s₁, hs₁⟩ := State.step_of_goOn hgo₁
  have hlog : ∀ t, ∃ H, ((recycling smallConfig).since (Act.calls t)).ReachableBy
      (fun x a => Timely x.1 a) (c, H) := fun t => hr.exists_since
  choose H hH using hlog
  exact ⟨c, H, hnew, ticket_values smallConfig 0 (hH 0) hs₀.pc_of_ret,
    ticket_values smallConfig 1 (hH 1) hs₁.pc_of_ret⟩

end

end Ticket
end PopSetbench

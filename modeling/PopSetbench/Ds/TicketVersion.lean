import PopSetbench.Ds.TicketCopies

/-!
# The ticket tree: what a version snapshot is good for

A half of a lock is taken by a CAS that compares it with a copy. Between the copy and the CAS the
pointer that the half guards has not changed if and only if fewer than `2 ^ 16` rounds of taking,
changing and releasing were completed, for a version has 16 bits. So the locks do what they are for
(`Sound`) in every run in which each thread is fast enough (`Recent`). They do not in a run in which
one thread is held up while the version comes round.

The word of a removed node is never taken and never changed again, in any run.
-/

namespace PopSetbench
namespace Ticket

open Function

section

variable {α ι K V : Type} [DecidableEq α] [DecidableEq ι] [LinearOrder K] {cfg : Config α K}
  {s s' : State α ι K V} {γ : Log α ι} {t : ι}

/-! ### Who takes a lock -/

variable (s γ t) in
/-- Thread `t` is about to take the half of the lock of a node, after it has seen the node when the
numbers were these. -/
inductive Takes : α → Bool → Copy α → Prop
  /-- An insertion takes a half of the lock of `pred`. -/
  | pred {key : K} {val : V} {pred : Edge α} {curr nn nr x : α}
      (hpc : s.pc t = .lockPred key val pred curr nn nr) (hx : pred.node = some x)
      (hl : (s.lock x).trylockVersion pred.ver pred.right ≠ none) :
      Takes x pred.right (γ.pred t)
  /-- A deletion takes a half of the lock of `ppred`. -/
  | ppred {key : K} {ppred pred : Edge α} {curr x : α}
      (hpc : s.pc t = .lockPpred key ppred pred curr) (hx : ppred.node = some x)
      (hl : (s.lock x).trylockVersion ppred.ver ppred.right ≠ none) :
      Takes x ppred.right (γ.ppred t)
  /-- A deletion takes the lock of `pred`, of which it has followed one pointer. -/
  | both {key : K} {ppred pred : Edge α} {curr x : α}
      (hpc : s.pc t = .lockBoth key ppred pred curr) (hx : pred.node = some x)
      (hl : (s.lock x).trylockVersionBoth pred.ver ≠ none) :
      Takes x pred.right (γ.pred t)

/-- The pointer has not been changed since the lock was copied, and so not since it was loaded. -/
structure Intact (s : State α ι K V) (γ : Log α ι) (x : α) (d : Bool) (c : Copy α) : Prop where
  copied : γ.stores x d = c.stores d
  loaded : γ.stores x d = c.seen
  read : s.child x d = c.read

/-- Fewer than `2 ^ 16` rounds are completed between a copy and the CAS that it is used for. -/
def Recent (z : State α ι K V × Log α ι) (a : ι × Event α K V) : Prop :=
  ∀ x d c, Takes z.1 z.2 a.1 x d c → z.2.rounds x d < c.rounds d + 2 ^ 16

variable {x : α} {d : Bool} {c : Copy α}

omit [DecidableEq α] [DecidableEq ι] in
/-- A half that is taken was free when it was copied, and is free with the same version. -/
theorem Tallied.of_takes (h : Tallied cfg s γ) (ht : Takes s γ t x d c) :
    Loaded s γ d c x ∧ c.rounds d ≤ γ.rounds x d ∧ c.stores d = c.rounds d ∧
      γ.stores x d = γ.rounds x d ∧ γ.version x d = BitVec.ofNat 16 (c.rounds d) := by
  obtain ⟨G, hk⟩ := h.known
  have hcopies := h.copies t
  have hnames := hk.names t
  have hfree : ∀ ver, Copied γ ver c x → Loaded s γ d c x → G x →
      (∃ v, ver.lr d = ⟨v, v⟩ ∧ (s.lock x).lr d = ⟨v, v⟩) → Loaded s γ d c x ∧
        c.rounds d ≤ γ.rounds x d ∧ c.stores d = c.rounds d ∧ γ.stores x d = γ.rounds x d ∧
        γ.version x d = BitVec.ofNat 16 (c.rounds d) := by
    rintro ver hc hl hx ⟨v, hver, hlr⟩
    obtain ⟨hv, hst⟩ := hc.free d v hver
    obtain ⟨-, hv', hst'⟩ := h.counted.of_free (hk.allocated x hx) hlr
    exact ⟨hl, hc.rounds d, hst, hst', hv'.symm.trans hv⟩
  cases ht with
  | pred hpc hx hl =>
    obtain ⟨l, hl⟩ := Option.ne_none_iff_exists'.mp hl
    obtain ⟨v, hver, hlr, -⟩ := Tl.trylockVersion_eq_some.mp hl
    rw [hpc] at hcopies hnames
    exact hfree _ (hcopies.copied x hx) (hcopies.loaded x hx id) (hnames x (.inl hx))
      ⟨v, hver, hlr⟩
  | ppred hpc hx hl =>
    obtain ⟨l, hl⟩ := Option.ne_none_iff_exists'.mp hl
    obtain ⟨v, hver, hlr, -⟩ := Tl.trylockVersion_eq_some.mp hl
    rw [hpc] at hcopies hnames
    exact hfree _ (hcopies.pcopied x hx) (hcopies.ploaded x hx) (hnames x (.inl hx))
      ⟨v, hver, hlr⟩
  | both hpc hx hl =>
    obtain ⟨l, hl⟩ := Option.ne_none_iff_exists'.mp hl
    obtain ⟨hv, hlr, -⟩ := Tl.trylockVersionBoth_eq_some.mp hl
    rw [hpc] at hcopies hnames
    obtain ⟨v, hver⟩ := hv _
    exact hfree _ (hcopies.copied x hx) (hcopies.loaded x hx id) (hnames x (.inr hx))
      ⟨v, hver, (hlr _).trans hver⟩

omit [DecidableEq α] [DecidableEq ι] in
/-- **What a version snapshot is good for**: the pointer is intact if and only if the version has
not come round. -/
theorem Tallied.intact_iff (h : Tallied cfg s γ) (ht : Takes s γ t x d c) :
    Intact s γ x d c ↔ γ.rounds x d < c.rounds d + 2 ^ 16 := by
  obtain ⟨hl, hle, hst, hst', hv⟩ := h.of_takes ht
  have hmod : γ.rounds x d % 2 ^ 16 = c.rounds d % 2 ^ 16 := by
    have hv := congrArg BitVec.toNat hv
    rwa [Log.version, BitVec.toNat_ofNat, BitVec.toNat_ofNat] at hv
  constructor
  · intro hi
    have hc := hi.copied
    omega
  · intro hlt
    have hsame : γ.stores x d = c.stores d := by omega
    have hseen : γ.stores x d = c.seen := by
      have h₁ := hl.after
      have h₂ := hl.stores
      omega
    exact ⟨hsame, hseen, hl.read hseen⟩

/-- The lock of a removed node is left alone. -/
theorem Tallied.removed (h : Tallied cfg s γ) {ev : Event α K V} (hs : Step cfg s t ev s')
    (hx : s.allocated x = true) (hr : s.lock x = .removed) : s'.lock x = .removed := by
  have hheld : ∀ d, (s.pc t).holds ≠ some (x, d) := fun d hq => h.counted.not_removed hq hr
  have hset : ∀ z l, z ≠ x → (s.setLock z l).lock x = .removed := by
    intro z l hz
    show update s.lock z l x = _
    rw [update_of_ne (Ne.symm hz)]
    exact hr
  cases hs with
  | newLeaf key val pred y a hpc ha =>
    show update s.lock a .zero x = _
    rw [update_of_ne]
    · exact hr
    · rintro rfl
      cases hx.symm.trans ha
  | newNode key val pred y a b hpc hb =>
    show update s.lock b .zero x = _
    rw [update_of_ne]
    · exact hr
    · rintro rfl
      cases hx.symm.trans hb
  | lockPred key val pred z y a b l hpc hz hl =>
    refine hset z l ?_
    rintro rfl
    rw [hr, Tl.trylockVersion_removed] at hl
    cases hl
  | lockPpred key ppred pred g y l hpc hg hl =>
    refine hset g l ?_
    rintro rfl
    rw [hr, Tl.trylockVersion_removed] at hl
    cases hl
  | lockBoth key ppred pred z y l hpc hz hl =>
    refine hset z l ?_
    rintro rfl
    rw [hr, Tl.trylockVersionBoth_removed] at hl
    cases hl
  | storeVersion e v k z hpc hz =>
    refine hset z _ ?_
    rintro rfl
    refine hheld e.right ?_
    rw [hpc]
    exact Edge.half_of_node hz
  | storeTicket key ppred pred v g hpc hg =>
    refine hset g _ ?_
    rintro rfl
    refine hheld ppred.right ?_
    rw [hpc]
    exact Edge.half_of_node hg
  | _ => exact hr

/-! ### Runs in which each thread is fast enough -/

variable (cfg s) in
/-- What the variables of an update have to do with what it has loaded. -/
def Reads (cp c : Copy α) : Pc α K V → Prop
  | .loadVer _ _ _ curr => curr = cfg.root ∨ c.read = some curr
  | .readKey _ _ pred => pred.node = some cfg.root ∨ cp.read = pred.node
  | .loadChild _ _ pred => pred.node = some cfg.root ∨ cp.read = pred.node
  -- at the root `ppred` is that of an earlier attempt
  | .loadLeft u _ pred curr => c.read = some curr ∧
    ((¬ Inner s curr → s.key curr ≠ u.key) ∨ cp.read = pred.node)
  | .testKey u _ pred curr => c.read = some curr ∧
    (s.key curr ≠ u.key ∨ cp.read = pred.node)
  | .newLeaf _ _ _ curr => c.read = some curr
  | .newNode _ _ _ curr _ => c.read = some curr
  | .lockPred _ _ _ curr _ _ => c.read = some curr
  | .lockPpred _ _ pred curr => cp.read = pred.node ∧ c.read = some curr
  | .lockBoth _ _ _ curr => c.read = some curr
  | _ => True

variable {cp : Copy α} {p : Pc α K V} {q : ι}

omit [DecidableEq α] [DecidableEq ι] in
theorem Reads.mono (ch : Change cfg s s' t) (hk : Knows cfg s p) (h : Reads cfg s cp c p) :
    Reads cfg s' cp c p := by
  cases p with
  | loadLeft u ppred pred curr =>
    have hm : Met s curr := hk.2.2.1.1
    refine ⟨h.1, h.2.imp_left fun h hi => ?_⟩
    rw [ch.inner curr hm] at hi
    rw [ch.key curr hm]
    exact h hi
  | testKey u ppred pred curr =>
    have hm : Met s curr := hk.2.2.1.1
    refine ⟨h.1, h.2.imp_left fun h => ?_⟩
    rw [ch.key curr hm]
    exact h
  | _ => exact h

/-- **A thread's own steps.** -/
theorem Reads.step_self {ev : Event α K V} (inv : Inv cfg s)
    (h : Reads cfg s (γ.ppred t) (γ.pred t) (s.pc t)) (hs : Step cfg s t ev s') :
    Reads cfg s' ((γ.next s (t, ev)).ppred t) ((γ.next s (t, ev)).pred t) (s'.pc t) := by
  have hnext : γ.next s (t, ev) = (s.pc t).log s t γ := rfl
  have hk := inv.knows t
  rw [hnext]
  cases hs with
  | startOp op ppred pred hpc =>
    -- a search for the leaf begins at the root
    rw [State.goto_pc_self]
    cases op with
    | contains key => trivial
    | insert key val => exact .inl rfl
    | erase key => exact .inl rfl
  | loadVer u ppred pred x hpc =>
    -- the edge that was `pred` ends at the node that is copied now
    rw [hpc] at h ⊢
    rw [State.goto_pc_self]
    show some x = some cfg.root ∨ (update γ.ppred t (γ.pred t) t).read = some x
    rw [update_self]
    exact h.imp_left (congrArg some)
  | readKey u ppred pred x hpc hx =>
    rw [hpc] at h ⊢
    have h : pred.node = some cfg.root ∨ (γ.ppred t).read = pred.node := h
    rw [hx] at h
    rw [State.goto_pc_self]
    exact h
  | loadChild u ppred pred x y hpc hx hy =>
    -- below the root the edge was read before the one of its child
    rw [hpc] at h hk
    rw [hpc, Pc.log, hx, State.goto_pc_self]
    show (update γ.pred t _ t).read = some y ∧ _
    rw [update_self]
    refine ⟨hy, h.imp_left fun hroot => ?_⟩
    obtain rfl : x = cfg.root := Option.some.inj (hx.symm.trans hroot)
    obtain ⟨w, hw⟩ := inv.tree
    obtain ⟨hu, ⟨z, hz, -, -, hd⟩, -⟩ := hk
    obtain rfl : cfg.root = z := Option.some.inj (hx.symm.trans hz)
    rw [hd, hw.key_root] at hy
    exact hw.key_below_root hu hy
  | loadLeft u ppred pred x hpc hl =>
    rw [hpc] at h ⊢
    rw [State.goto_pc_self]
    exact .inr h.1
  | loadNull u ppred pred x hpc hl =>
    rw [hpc] at h ⊢
    rw [State.goto_pc_self]
    exact ⟨h.1, h.2.imp_left fun h => h fun hi => hi hl⟩
  | hit u ppred pred x hpc hkx =>
    -- `deleteKey` needs both edges, and it has come by them
    rw [hpc] at h ⊢
    rw [State.goto_pc_self]
    cases u with
    | insert key val => trivial
    | delete key => exact ⟨h.2.resolve_left fun hne => hne hkx, h.1⟩
  | miss u ppred pred x hpc hkx =>
    -- `insertKey` goes on with the edge to the leaf
    rw [hpc] at h ⊢
    rw [State.goto_pc_self]
    cases u with
    | insert key val => exact h.1
    | delete key => trivial
  | newLeaf key val pred x a hpc ha =>
    rw [hpc] at h ⊢
    rw [State.goto_pc_self]
    exact h
  | newNode key val pred x a b hpc hb =>
    rw [hpc] at h ⊢
    rw [State.goto_pc_self]
    exact h
  | lockPpred key ppred pred g x l hpc hg hl =>
    -- a lock is taken on a node that was read
    rw [hpc] at h ⊢
    rw [State.goto_pc_self]
    exact h.2
  | storeVersion e v k z hpc hz =>
    rw [State.goto_pc_self]
    cases k <;> trivial
  | _ =>
    rw [State.goto_pc_self]
    trivial

omit [DecidableEq α] [DecidableEq ι] in
/-- **The locks do what they are for** where the versions have not come round. -/
theorem Tallied.sound {ev : Event α K V} (h : Tallied cfg s γ)
    (hr : Reads cfg s (γ.ppred t) (γ.pred t) (s.pc t)) (hok : Recent (s, γ) (t, ev)) :
    Sound s (t, ev) := by
  have hread : ∀ x d c, Takes s γ t x d c → s.child x d = c.read := fun x d c ht =>
    ((h.intact_iff ht).mpr (hok x d c ht)).read
  unfold Sound
  cases hpc : s.pc t with
  | lockPred key val pred curr nn nr =>
    rw [hpc] at hr
    intro x hx hl
    exact (hread _ _ _ (.pred hpc hx hl)).trans hr
  | lockPpred key ppred pred curr =>
    rw [hpc] at hr
    intro x hx hl
    exact (hread _ _ _ (.ppred hpc hx hl)).trans hr.1
  | lockBoth key ppred pred curr =>
    rw [hpc] at hr
    intro x hx hl
    exact (hread _ _ _ (.both hpc hx hl)).trans hr
  | _ => trivial

/-- **A run in which each thread is fast enough.** -/
theorem Reads.of_reachable {z : State α ι K V × Log α ι} (h : (tallied cfg).ReachableBy Recent z) :
    Inv cfg z.1 ∧ ∀ t, Reads cfg z.1 (z.2.ppred t) (z.2.pred t) (z.1.pc t) := by
  refine h.invariant (P := fun z => Inv cfg z.1 ∧
    ∀ t, Reads cfg z.1 (z.2.ppred t) (z.2.pred t) (z.1.pc t)) ?_ ?_
  · rintro ⟨s, γ⟩ ⟨hs, rfl⟩
    refine ⟨hs.inv, fun t => ?_⟩
    show Reads cfg s _ _ (s.pc t)
    rw [hs.pc t]
    trivial
  · rintro ⟨s, γ⟩ ⟨t, ev⟩ ⟨s', γ'⟩ hz ⟨inv, hr⟩ hok ⟨hs, rfl⟩
    have hs : Step cfg s t ev s' := hs
    have hsound : Sound s (t, ev) := (Tallied.of_reachable hz).sound (hr t) hok
    obtain ⟨inv', ch⟩ := hs.inv inv hsound
    refine ⟨inv', fun q => ?_⟩
    by_cases hq : q = t
    · subst hq
      exact (hr q).step_self inv hs
    · obtain ⟨h₁, h₂⟩ : (γ.next s (t, ev)).ppred q = γ.ppred q ∧
          (γ.next s (t, ev)).pred q = γ.pred q := Log.next_of_ne hq
      show Reads cfg s' ((γ.next s (t, ev)).ppred q) ((γ.next s (t, ev)).pred q) (s'.pc q)
      rw [h₁, h₂, hs.pc_of_ne hq]
      exact (hr q).mono ch (inv.knows q)

/-- **Version snapshots.** In every run, a pointer whose half of a lock is about to be taken is
intact if and only if the version has not come round since it was copied. If each thread is that
fast, an insertion attaches to, and a deletion splices, exactly the edges it has searched. The lock
of a removed node is never taken or changed. -/
theorem versions_validate (cfg : Config α K) :
    (∀ z : State α ι K V × Log α ι, (tallied cfg).Reachable z → ∀ t x d c,
      Takes z.1 z.2 t x d c →
      (Intact z.1 z.2 x d c ↔ z.2.rounds x d < c.rounds d + 2 ^ 16)) ∧
    (∀ z : State α ι K V × Log α ι, (tallied cfg).ReachableBy Recent z → ∀ a, Recent z a →
      (∀ x d c, Takes z.1 z.2 a.1 x d c → Intact z.1 z.2 x d c) ∧ Sound z.1 a) ∧
    ∀ z : State α ι K V × Log α ι, (tallied cfg).Reachable z → ∀ x, z.1.allocated x = true →
      z.1.lock x = .removed →
      (∀ old right, (z.1.lock x).trylockVersion old right = none) ∧
      (∀ old, (z.1.lock x).trylockVersionBoth old = none) ∧
      ∀ a z', (tallied cfg).step z a z' → z'.1.lock x = .removed := by
  refine ⟨fun z hz t x d c ht => ?_, fun z hz a ha => ?_, fun z hz x hx hr => ?_⟩
  · exact (Tallied.of_reachable hz).intact_iff ht
  · have htallied : Tallied cfg z.1 z.2 := Tallied.of_reachable hz
    obtain ⟨-, hreads⟩ := Reads.of_reachable hz
    exact ⟨fun x d c ht => (htallied.intact_iff ht).mpr (ha x d c ht),
      htallied.sound (hreads a.1) ha⟩
  · have htallied : Tallied cfg z.1 z.2 := Tallied.of_reachable hz
    refine ⟨fun old right => ?_, fun old => ?_, fun a z' hs => htallied.removed hs.1 hx hr⟩
    · rw [hr]
      exact Tl.trylockVersion_removed
    · rw [hr]
      exact Tl.trylockVersionBoth_removed

end

/-! ### A run in which the version comes round -/

section

variable {α ι K V : Type} [DecidableEq ι] {s : State α ι K V} {t : ι} {p p' : Pc α K V}

theorem State.goto_goto : (s.goto t p).goto t p' = s.goto t p' := by
  unfold State.goto
  simp only [update_idem]

theorem State.goto_self (h : s.pc t = p) : s.goto t p = s := by
  unfold State.goto
  rw [← h, update_eq_self]

variable [DecidableEq α]

theorem State.goto_setLock {x : α} {l : Tl} :
    ((s.goto t p).setLock x l).goto t p' = (s.setLock x l).goto t p' :=
  State.goto_goto (s := s.setLock x l)

theorem State.goto_setChild {x : α} {d : Bool} {y : Option α} :
    ((s.goto t p).setChild x d y).goto t p' = (s.setChild x d y).goto t p' :=
  State.goto_goto (s := s.setChild x d y)

theorem State.goto_initNode {x y z : α} {k : K} {less : Bool} :
    ((s.goto t p).initNode x y z k less).goto t p' = (s.initNode x y z k less).goto t p' :=
  State.goto_goto (s := s.initNode x y z k less)

theorem State.goto_allocLeaf {x : α} {k : K} {v : V} :
    ((s.goto t p).allocLeaf x k v).goto t p' = (s.allocLeaf x k v).goto t p' :=
  State.goto_goto (s := s.allocLeaf x k v)

theorem State.goto_allocNode {x : α} :
    ((s.goto t p).allocNode x).goto t p' = (s.allocNode x).goto t p' :=
  State.goto_goto (s := s.allocNode x)

end

section

/-- Where the thread is held up that inserts 5. -/
def latePc : Pc ℕ ℕ ℕ :=
  .lockPred 5 7 ⟨some 0, .zero, false⟩ 1 3 4

/-- What it has seen. -/
def lateCopy : Copy ℕ :=
  ⟨fun _ => 0, fun _ => 0, 0, some 1⟩

/-- A state that the other thread can lead to meanwhile. -/
def Late (s : State ℕ Bool ℕ ℕ) : Prop :=
  s.pc false = latePc ∧
    ∃ γ, (tallied smallConfig).Reachable (s, γ) ∧ γ.pred false = lateCopy

variable {s s' m : State ℕ Bool ℕ ℕ} {p p' : Pc ℕ ℕ ℕ} {ev : Event ℕ ℕ ℕ}

theorem Late.step (h : Late s) (hs : Step smallConfig s true ev s') : Late s' := by
  obtain ⟨hpc, γ, hr, hc⟩ := h
  have hne : false ≠ true := Bool.false_ne_true
  refine ⟨(hs.pc_of_ne hne).trans hpc, γ.next s (true, ev), hr.step_logged hs trivial, ?_⟩
  rw [(Log.next_of_ne hne).2, hc]

theorem Late.goto (h : Late (m.goto true p))
    (hs : Step smallConfig (m.goto true p) true ev ((m.goto true p).goto true p')) :
    Late (m.goto true p') := by
  rw [← State.goto_goto]
  exact h.step hs

/-- A half is released. -/
theorem Late.unlock {e : Edge ℕ} {k : After ℕ ℕ ℕ} {z : ℕ} {v : BitVec 16}
    (h : Late (m.goto true (.unlock e k))) (hz : e.node = some z)
    (hlr : (m.lock z).lr e.right = ⟨v, v + 1⟩) :
    Late ((m.setLock z ((m.lock z).set e.right ⟨v + 1, v + 1⟩)).goto true k.next) := by
  have h := h.goto (Step.unlock e k z rfl hz)
  have h := h.step (Step.storeVersion e _ k z rfl hz)
  rw [State.goto_setLock] at h
  have hword : ((m.goto true (.unlock e k)).lock z).lr e.right = ⟨v, v + 1⟩ := hlr
  have hword' : ∀ w, (m.lock z).unlock e.right w = (m.lock z).set e.right ⟨w + 1, v + 1⟩ := by
    intro w
    rw [Tl.unlock, hlr]
  rw [hword] at h
  rw [← hword']
  exact h

/-- What an insertion below `z` leaves. -/
structure Attached (m m' : State ℕ Bool ℕ ℕ) (k x a b z : ℕ) (d : Bool) (v : BitVec 16) :
    Prop where
  late : Late (m'.goto true .idle)
  lr : (m'.lock z).lr d = ⟨v + 1, v + 1⟩
  lr_other : ∀ d', d' ≠ d → (m'.lock z).lr d' = (m.lock z).lr d'
  lock_new : m'.lock b = .zero
  child : m'.child z d = some b
  child_other : ∀ d', d' ≠ d → m'.child z d' = m.child z d'
  child_new : m'.child b false = some x ∧ m'.child b true = some a
  child_leaf : ∀ d', m'.child a d' = none
  key_new : m'.key b = k ∧ m'.key a = k
  key : ∀ y, y ≠ a → y ≠ b → m'.key y = m.key y
  same : ∀ y, y ≠ a → y ≠ b → y ≠ z → m'.child y = m.child y ∧ m'.lock y = m.lock y
  allocated : ∀ y, y ≠ a → y ≠ b → m'.allocated y = m.allocated y

/-- **An insertion**, from where it has found the leaf. -/
theorem Late.attach {k x a b z : ℕ} {d : Bool} {ver : Tl} {v : BitVec 16}
    (h : Late (m.goto true (.newLeaf k 0 ⟨some z, ver, d⟩ x))) (hver : ver.lr d = ⟨v, v⟩)
    (hlr : (m.lock z).lr d = ⟨v, v⟩) (ha : m.allocated a = false) (hb : m.allocated b = false)
    (hab : a ≠ b) (hza : z ≠ a) (hzb : z ≠ b) (hxa : x ≠ a) (hk : ¬ k < m.key x) :
    ∃ m', Attached m m' k x a b z d v := by
  set e : Edge ℕ := ⟨some z, ver, d⟩ with he
  -- the two new nodes
  have h := h.step (Step.newLeaf k 0 e x a rfl ha)
  rw [State.goto_allocLeaf] at h
  have h := h.step (Step.newNode k 0 e x a b rfl (by
    show update m.allocated a true b = false
    rw [update_of_ne hab.symm, hb]))
  rw [State.goto_allocNode] at h
  set m₁ := (m.allocLeaf a k 0).allocNode b with hm₁
  have hlock : m₁.lock z = m.lock z := by
    show update (update m.lock a .zero) b .zero z = _
    rw [update_of_ne hzb, update_of_ne hza]
  have hkey : m₁.key x = m.key x := by
    show update m.key a k x = _
    rw [update_of_ne hxa]
  set l := (m.lock z).set d ⟨v, v + 1⟩ with hl
  -- the lock, whose two versions are those that the thread has read
  have h := h.step (Step.lockPred k 0 e z x a b l rfl rfl (by
    show (m₁.lock z).trylockVersion ver d = _
    rw [hlock]
    exact Tl.trylockVersion_eq_some.mpr ⟨v, hver, hlr, rfl⟩))
  rw [State.goto_setLock] at h
  have h := h.goto (Step.compare k 0 e x a b rfl)
  have hless : decide (k < ((m₁.setLock z l).goto true (.compare k 0 e x a b)).key x) = false := by
    refine decide_eq_false ?_
    show ¬ k < m₁.key x
    rw [hkey]
    exact hk
  rw [hless] at h
  -- the inner node is written, and linked
  have h := h.step (Step.initNode k 0 e x a b false rfl)
  rw [State.goto_initNode] at h
  have h := h.step (Step.storeChild k 0 e z x a b rfl rfl)
  rw [State.goto_setChild] at h
  set m₂ := ((m₁.setLock z l).initNode b a x k false).setChild z d (some b) with hm₂
  have hlock_z : m₂.lock z = l := update_self ..
  -- the lock is given back with the next version
  have h := h.unlock (v := v) rfl (by
    show (m₂.lock z).lr d = _
    rw [hlock_z]
    exact Tl.set_lr_self)
  have h := h.goto (Step.endOp (.insert k 0) (.value none) rfl)
  have h := h.goto (Step.ret (.insert k 0) (.value none) rfl)
  -- only the node above was written, and the two new ones
  have hchild : ∀ y, y ≠ z → y ≠ b → m₂.child y = m₁.child y := by
    intro y hyz hyb
    show update (update m₁.child b _) z _ y = _
    rw [update_of_ne hyz, update_of_ne hyb]
  have hchild_z : m₂.child z = update (m.child z) d (some b) := by
    have hz : (m₁.initNode b a x k false).child z = m.child z := by
      show update (update m.child a _) b _ z = _
      rw [update_of_ne hzb, update_of_ne hza]
    rw [← hz]
    exact update_self ..
  have hlock : ∀ y, y ≠ z → m₂.lock y = m₁.lock y := fun y hy => update_of_ne hy ..
  have hlast : ∀ {l' : Tl} y, y ≠ z → (m₂.setLock z l').lock y = m₂.lock y := fun y hy =>
    update_of_ne hy ..
  refine ⟨_, ⟨h, State.setLock_lr_self, ?_, ?_, ?_, ?_, ?_, ?_, ?_, ?_, ?_, ?_⟩⟩
  · -- the other half of the word and the other nodes keep what they had
    intro d' hd
    rw [State.setLock_lr_of_ne fun h => hd (Prod.mk.inj h).2, hlock_z]
    exact Tl.set_lr_of_ne hd
  · rw [hlast b hzb.symm, hlock b hzb.symm]
    exact update_self ..
  · show m₂.child z d = some b
    rw [hchild_z, update_self]
  · intro d' hd
    show m₂.child z d' = m.child z d'
    rw [hchild_z, update_of_ne hd]
  · have hb : m₂.child b = fun right => some (bif right == false then x else a) := by
      show update (update m₁.child b _) z _ b = _
      rw [update_of_ne hzb.symm, update_self]
    constructor
    · show m₂.child b false = _
      rw [hb]
      rfl
    · show m₂.child b true = _
      rw [hb]
      rfl
  · intro d'
    show m₂.child a d' = none
    rw [hchild a hza.symm hab]
    show update m.child a _ a d' = none
    rw [update_self]
  · constructor
    · exact update_self ..
    · show update (update m.key a k) b _ a = k
      rw [update_of_ne hab, update_self]
  · intro y hya hyb
    show update (update m.key a k) b _ y = m.key y
    rw [update_of_ne hyb, update_of_ne hya]
  · intro y hya hyb hyz
    constructor
    · show m₂.child y = m.child y
      rw [hchild y hyz hyb]
      exact update_of_ne hya ..
    · rw [hlast y hyz, hlock y hyz]
      show update (update m.lock a .zero) b .zero y = _
      rw [update_of_ne hyb, update_of_ne hya]
  · intro y hya hyb
    show update (update m.allocated a true) b true y = _
    rw [update_of_ne hyb, update_of_ne hya]

/-- What a deletion leaves. -/
structure Detached (m m' : State ℕ Bool ℕ ℕ) (g p : ℕ) (dg dp : Bool) (v : BitVec 16) :
    Prop where
  late : Late (m'.goto true .idle)
  lr : (m'.lock g).lr dg = ⟨v + 1, v + 1⟩
  child : m'.child g dg = m.child p !dp
  key : m'.key = m.key
  same : ∀ y, y ≠ g → m'.child y = m.child y
  allocated : m'.allocated = m.allocated

/-- **A deletion**, from where it has found the leaf. -/
theorem Late.detach {k x g p : ℕ} {dg dp : Bool} {ver : Tl} {v : BitVec 16}
    (h : Late (m.goto true (.lockPpred k ⟨some g, ver, dg⟩ ⟨some p, m.lock p, dp⟩ x)))
    (hver : ver.lr dg = ⟨v, v⟩) (hlr : (m.lock g).lr dg = ⟨v, v⟩)
    (hlock : ∀ d, ∃ w, (m.lock p).lr d = ⟨w, w⟩) (hgp : g ≠ p) :
    ∃ m', Detached m m' g p dg dp v := by
  set eg : Edge ℕ := ⟨some g, ver, dg⟩
  set ep : Edge ℕ := ⟨some p, m.lock p, dp⟩
  set l := (m.lock g).set dg ⟨v, v + 1⟩
  have h := h.step (Step.lockPpred k eg ep g x l rfl rfl
    (Tl.trylockVersion_eq_some.mpr ⟨v, hver, hlr, rfl⟩))
  rw [State.goto_setLock] at h
  have hp : (m.setLock g l).lock p = m.lock p := update_of_ne hgp.symm ..
  have h := h.step (Step.lockBoth k eg ep p x .removed rfl rfl (by
    show ((m.setLock g l).lock p).trylockVersionBoth (m.lock p) = _
    rw [hp]
    exact Tl.trylockVersionBoth_eq_some.mpr ⟨hlock, fun _ => rfl, rfl⟩))
  rw [State.goto_setLock] at h
  have h := h.goto (Step.loadSibling k eg ep p x rfl rfl)
  have h := h.step (Step.splice k eg ep g x _ rfl rfl)
  rw [State.goto_setChild] at h
  set m₁ := ((m.setLock g l).setLock p .removed).setChild g dg (m.child p !dp)
  have hlock_g : m₁.lock g = l := by
    show update (update m.lock g l) p .removed g = l
    rw [update_of_ne hgp, update_self]
  have h := h.unlock (v := v) rfl (by
    show (m₁.lock g).lr dg = _
    rw [hlock_g]
    exact Tl.set_lr_self)
  have h := h.goto (Step.retireCurr k ep x rfl)
  have h := h.goto (Step.retirePred k ep p x rfl rfl)
  have h := h.goto (Step.endVal (.erase k) x rfl)
  have h := h.goto (Step.readVal (.erase k) x rfl)
  have h := h.goto (Step.ret (.erase k) _ rfl)
  refine ⟨_, ⟨h, State.setLock_lr_self, ?_, rfl, fun y hy => update_of_ne hy .., rfl⟩⟩
  show update m.child g (update (m.child g) dg (m.child p !dp)) g dg = _
  rw [update_self, update_self]

/-- A search passes a node. -/
theorem Late.visit {u : Upd ℕ ℕ} {pp e : Edge ℕ} {x y : ℕ} {d : Bool}
    (h : Late (m.goto true (.loadVer u pp e x))) (hd : toward u.key (m.key x) = d)
    (hy : m.child x d = some y) :
    Late (m.goto true (.loadLeft u e ⟨some x, m.lock x, d⟩ y)) := by
  subst hd
  have h := h.goto (Step.loadVer u pp e x rfl)
  have h := h.goto (Step.readKey u e ⟨some x, m.lock x, e.right⟩ x rfl rfl)
  exact h.goto (Step.loadChild u e ⟨some x, m.lock x, toward u.key (m.key x)⟩ x y rfl rfl hy)

/-- A search begins. -/
theorem Late.begin {u : Upd ℕ ℕ} {y : ℕ} (h : Late (m.goto true .idle))
    (hk : 0 < u.key ∧ u.key < 100) (hkey : m.key 0 = 100) (hy : m.child 0 false = some y) :
    Late (m.goto true (.loadLeft u .none ⟨some 0, m.lock 0, false⟩ y)) := by
  have hd : toward u.key (m.key 0) = false := by
    rw [hkey]
    exact decide_eq_false (not_le.mpr hk.2)
  cases u with
  | insert k v =>
    have h := h.goto (Step.invoke (.insert k v) rfl hk.1 hk.2)
    have h := h.goto (Step.startOp (.insert k v) .none .none rfl)
    exact h.visit hd hy
  | delete k =>
    have h := h.goto (Step.invoke (.erase k) rfl hk.1 hk.2)
    have h := h.goto (Step.startOp (.erase k) .none .none rfl)
    exact h.visit hd hy

/-- A search for a key to be inserted does not find it. -/
theorem Late.miss {k x : ℕ} {pp e : Edge ℕ}
    (h : Late (m.goto true (.loadLeft (.insert k 0) pp e x))) (hl : m.child x false = none)
    (hk : m.key x ≠ k) : Late (m.goto true (.newLeaf k 0 e x)) := by
  have h := h.goto (Step.loadNull (.insert k 0) pp e x rfl hl)
  exact h.goto (Step.miss (.insert k 0) pp e x rfl hk)

/-- What is between the root and the largest leaf, nodes from `n` on being unused. -/
structure Below (m : State ℕ Bool ℕ ℕ) (v : BitVec 16) (n y : ℕ) : Prop where
  late : Late (m.goto true .idle)
  lr : (m.lock 0).lr false = ⟨v, v⟩
  child : m.child 0 false = some y
  key_root : m.key 0 = 100
  key_min : m.key 1 = 0
  leaf : m.child 1 false = none
  used : 1 < n
  unused : ∀ x, n ≤ x → m.allocated x = false

/-- There is an inner node with key 7 there, over what is in `y` and the leaf with key 7. -/
structure Grown (m : State ℕ Bool ℕ ℕ) (v : BitVec 16) (n b a y : ℕ) : Prop
    extends Below m v n b where
  children : m.child b false = some y ∧ m.child b true = some a
  keys : m.key b = 7 ∧ m.key a = 7
  leaf_new : m.child a false = none
  lock : ∀ d, ∃ w, (m.lock b).lr d = ⟨w, w⟩
  bounds : 1 < b ∧ b < n ∧ 1 < a ∧ a < n ∧ a ≠ b

variable {v : BitVec 16} {n a b y : ℕ}

theorem Late.below (h : Late m) (hidle : m.pc true = .idle) (hlr : (m.lock 0).lr false = ⟨v, v⟩)
    (hchild : m.child 0 false = some y) (hroot : m.key 0 = 100) (hmin : m.key 1 = 0)
    (hleaf : m.child 1 false = none) (hn : 1 < n) (hunused : ∀ x, n ≤ x → m.allocated x = false) :
    Below m v n y where
  late := by
    rw [State.goto_self hidle]
    exact h
  lr := hlr
  child := hchild
  key_root := hroot
  key_min := hmin
  leaf := hleaf
  used := hn
  unused := hunused

/-- Key 7 is inserted. -/
theorem Below.grow (h : Below m v n 1) : ∃ m', Grown m' (v + 1) (n + 2) (n + 1) n 1 := by
  have hn := h.used
  have hs := h.late.begin (u := .insert 7 0) (by decide) h.key_root h.child
  have hs := hs.miss h.leaf (by rw [h.key_min]; decide)
  obtain ⟨m', hm⟩ := hs.attach (a := n) (b := n + 1) h.lr h.lr (h.unused n le_rfl)
    (h.unused _ (Nat.le_succ n)) (by omega) (by omega) (by omega) (by omega)
    (by rw [h.key_min]; decide)
  refine ⟨m', ⟨hm.late, hm.lr, hm.child, ?_, ?_, ?_, by omega, ?_⟩, hm.child_new, hm.key_new,
    hm.child_leaf false, ?_, by omega⟩
  · rw [hm.key 0 (by omega) (by omega), h.key_root]
  · rw [hm.key 1 (by omega) (by omega), h.key_min]
  · rw [(hm.same 1 (by omega) (by omega) (by omega)).1, h.leaf]
  · intro x hx
    rw [hm.allocated x (by omega) (by omega)]
    exact h.unused x (by omega)
  · intro d
    rw [hm.lock_new]
    exact ⟨0, rfl⟩

/-- Key 3 is inserted, below the inner node with key 7. -/
theorem Grown.grow (h : Grown m v n b a 1) : ∃ m', Grown m' v (n + 2) b a (n + 1) := by
  obtain ⟨hb, hbn, ha, han, hab⟩ := h.bounds
  have hs := h.late.begin (u := .insert 3 0) (by decide) h.key_root h.child
  have hs := hs.goto (Step.loadLeft _ _ _ b rfl (by
    show m.child b false ≠ none
    rw [h.children.1]
    exact Option.some_ne_none _))
  have hs := hs.visit (d := false) (by rw [h.keys.1]; decide) h.children.1
  have hs := hs.miss h.leaf (by rw [h.key_min]; decide)
  obtain ⟨w, hw⟩ := h.lock false
  obtain ⟨m', hm⟩ := hs.attach (a := n) (b := n + 1) hw hw (h.unused n le_rfl)
    (h.unused _ (Nat.le_succ n)) (by omega) (by omega) (by omega) (by omega)
    (by rw [h.key_min]; decide)
  have h₀ := hm.same 0 (by omega) (by omega) (by omega)
  refine ⟨m', ⟨hm.late, ?_, ?_, ?_, ?_, ?_, by omega, ?_⟩, ⟨hm.child, ?_⟩, ⟨?_, ?_⟩, ?_, ?_,
    by omega⟩
  · rw [h₀.2, h.lr]
  · rw [h₀.1, h.child]
  · rw [hm.key 0 (by omega) (by omega), h.key_root]
  · rw [hm.key 1 (by omega) (by omega), h.key_min]
  · rw [(hm.same 1 (by omega) (by omega) (by omega)).1, h.leaf]
  · intro x hx
    rw [hm.allocated x (by omega) (by omega)]
    exact h.unused x (by omega)
  · rw [hm.child_other true (by decide), h.children.2]
  · rw [hm.key b (by omega) (by omega), h.keys.1]
  · rw [hm.key a (by omega) (by omega), h.keys.2]
  · rw [(hm.same a (by omega) (by omega) hab).1, h.leaf_new]
  · intro d
    cases d with
    | false => exact ⟨_, hm.lr⟩
    | true =>
      rw [hm.lr_other true (by decide)]
      exact h.lock true

/-- Key 7 is deleted. -/
theorem Grown.shrink (h : Grown m v n b a y) : ∃ m', Below m' (v + 1) n y := by
  obtain ⟨hb, hbn, ha, han, hab⟩ := h.bounds
  have hs := h.late.begin (u := .delete 7) (by decide) h.key_root h.child
  have hs := hs.goto (Step.loadLeft _ _ _ b rfl (by
    show m.child b false ≠ none
    rw [h.children.1]
    exact Option.some_ne_none _))
  have hs := hs.visit (d := true) (by rw [h.keys.1]; decide) h.children.2
  have hs := hs.goto (Step.loadNull _ _ _ a rfl h.leaf_new)
  have hs := hs.goto (Step.hit _ _ _ a rfl h.keys.2)
  obtain ⟨m', hm⟩ := Late.detach hs h.lr h.lr h.lock (by omega)
  refine ⟨m', hm.late, hm.lr, ?_, ?_, ?_, ?_, h.used, ?_⟩
  · rw [hm.child]
    exact h.children.1
  · rw [hm.key, h.key_root]
  · rw [hm.key, h.key_min]
  · rw [hm.same 1 (by decide), h.leaf]
  · rw [hm.allocated]
    exact h.unused

/-- **The version goes on** with every insertion and deletion of a key. -/
theorem Below.rounds (h : Below m 0 n 1) (k : ℕ) :
    ∃ m' n', Below m' (BitVec.ofNat 16 (2 * k)) n' 1 := by
  induction k with
  | zero => exact ⟨m, n, h⟩
  | succ k ih =>
    obtain ⟨m₁, n₁, h₁⟩ := ih
    obtain ⟨m₂, h₂⟩ := h₁.grow
    obtain ⟨m₃, h₃⟩ := h₂.shrink
    have hv : BitVec.ofNat 16 (2 * k) + 1 + 1 = BitVec.ofNat 16 (2 * (k + 1)) := by
      rw [Nat.mul_succ, BitVec.ofNat_add, BitVec.add_assoc]
      rfl
    rw [hv] at h₃
    exact ⟨m₃, _, h₃⟩

/-- A thread is about to take a lock. -/
theorem exists_copied : ∃ (m : State ℕ Bool ℕ ℕ) (γ : Log ℕ Bool),
    (tallied smallConfig).Reachable (m, γ) ∧ m.pc false = latePc ∧
      γ.pred false = lateCopy ∧ m.pc true = .idle ∧
      (∀ x, (m.lock x).lr false = ⟨0, 0⟩) ∧ m.child 0 false = some 1 ∧ m.key 0 = 100 ∧
      m.key 1 = 0 ∧ m.child 1 false = none ∧ ∀ x, 5 ≤ x → m.allocated x = false := by
  have h : (tallied (ι := Bool) smallConfig).Reachable (smallState Bool, .start) :=
    .init ⟨smallState_init Bool, rfl⟩
  have h := h.step_logged (a := (false, _)) (Step.invoke (.insert 5 7) rfl (by decide) (by decide))
    trivial
  have h := h.step_logged (a := (false, _)) (Step.startOp (.insert 5 7) .none .none rfl)
    trivial
  have h := h.step_logged (a := (false, _)) (Step.loadVer (.insert 5 7) .none .none 0 rfl)
    trivial
  have h := h.step_logged (a := (false, _))
    (Step.readKey (.insert 5 7) .none ⟨some 0, .zero, false⟩ 0 rfl rfl)
    trivial
  have h := h.step_logged (a := (false, _))
    (Step.loadChild (.insert 5 7) .none ⟨some 0, .zero, false⟩ 0 1 rfl rfl rfl)
    trivial
  have h := h.step_logged (a := (false, _))
    (Step.loadNull (.insert 5 7) .none ⟨some 0, .zero, false⟩ 1 rfl rfl)
    trivial
  have h := h.step_logged (a := (false, _))
    (Step.miss (.insert 5 7) .none ⟨some 0, .zero, false⟩ 1 rfl (by decide))
    trivial
  have h := h.step_logged (a := (false, _))
    (Step.newLeaf 5 7 ⟨some 0, .zero, false⟩ 1 3 rfl rfl) trivial
  have h := h.step_logged (a := (false, _))
    (Step.newNode 5 7 ⟨some 0, .zero, false⟩ 1 3 4 rfl rfl) trivial
  refine ⟨_, _, h, rfl, rfl, rfl, fun x => ?_, rfl, rfl, rfl, rfl, fun x hx => ?_⟩
  · show (update (update (fun _ => Tl.zero) 3 .zero) 4 .zero x).lr false = ⟨0, 0⟩
    by_cases h₄ : x = 4
    · subst h₄
      rfl
    · rw [update_of_ne h₄]
      by_cases h₃ : x = 3
      · subst h₃
        rfl
      · rw [update_of_ne h₃]
        rfl
  · show update (update (fun x => decide (x < 3)) 3 true) 4 true x = false
    rw [update_of_ne (by omega), update_of_ne (by omega)]
    exact decide_eq_false (by omega)

/-- The other thread is held up there. -/
theorem exists_late : ∃ m, Below m 0 5 1 := by
  obtain ⟨m, γ, hr, hpc, hc, hidle, hlr, hchild, hroot, hmin, hleaf, hunused⟩ := exists_copied
  exact ⟨m, Late.below ⟨hpc, γ, hr, hc⟩ hidle (hlr 0) hchild hroot hmin hleaf
    (by decide) hunused⟩

/-- The version has come round, and the pointer is another one. -/
theorem version_wraps : ∃ (z : State ℕ Bool ℕ ℕ × Log ℕ Bool) (t : Bool) (x : ℕ) (d : Bool)
    (c : Copy ℕ), (tallied smallConfig).Reachable z ∧ Takes z.1 z.2 t x d c ∧
      z.2.stores x d ≠ c.seen ∧ z.1.child x d ≠ c.read := by
  obtain ⟨m₀, h₀⟩ := exists_late
  obtain ⟨m₁, n, h₁⟩ := h₀.rounds 32767
  obtain ⟨m₂, h₂⟩ := h₁.grow
  -- the inner node with key 7 gets another sibling of its leaf before it is spliced out
  obtain ⟨m₃, h₃⟩ := h₂.grow
  obtain ⟨m, h⟩ := h₃.shrink
  obtain ⟨hpc, γ, hr, hc⟩ := h.late
  have hlr : (m.lock 0).lr false = ⟨0, 0⟩ := h.lr
  have ht : Takes (m.goto true .idle) γ false 0 false (γ.pred false) := by
    refine .pred hpc rfl ?_
    have hl : (m.lock 0).trylockVersion .zero false = some _ :=
      Tl.trylockVersion_eq_some.mpr ⟨0, rfl, hlr, rfl⟩
    exact fun hn => Option.some_ne_none _ (hl.symm.trans hn)
  have hread : m.child 0 false ≠ (γ.pred false).read := by
    rw [h.child, hc]
    intro heq
    have := Option.some.inj heq
    have := h₁.used
    omega
  obtain ⟨hl, -⟩ := (Tallied.of_reachable hr).of_takes ht
  exact ⟨_, false, 0, false, _, hr, ht, fun hs => hread (hl.read hs), hread⟩

open Choice in
/-- Thread `t` inserts the key 5, and then goes down to the node that it has linked, where it wants
to link the key 7. Before it locks the right half there, thread `u` inserts the key 2 on the left. -/
def roundSchedule (t u : Fin 2) : List (Fin 2 × Choice ℕ ℕ ℕ) :=
  call t (.insert 5 7) 6 ++ node t 3 0 ++ node t 4 8 ++ call t (.insert 7 8) 10 ++ node t 5 0 ++
    node t 6 0 ++ call u (.insert 2 9) 10 ++ node u 7 0 ++ node u 8 8

/-- Every CAS is fast enough. -/
def fast (z : State ℕ (Fin 2) ℕ ℕ × Log ℕ (Fin 2)) (a : Fin 2 × Event ℕ ℕ ℕ) : Bool :=
  match z.1.pc a.1 with
  | .lockPred _ _ pred _ _ _ | .lockBoth _ _ pred _ => pred.node.all fun x =>
    z.2.rounds x pred.right < (z.2.pred a.1).rounds pred.right + 2 ^ 16
  | .lockPpred _ ppred _ _ => ppred.node.all fun x =>
    z.2.rounds x ppred.right < (z.2.ppred a.1).rounds ppred.right + 2 ^ 16
  | _ => true

theorem recent_of_fast {z : State ℕ (Fin 2) ℕ ℕ × Log ℕ (Fin 2)} {a : Fin 2 × Event ℕ ℕ ℕ}
    (h : fast z a = true) : Recent z a := by
  intro x d c ht
  unfold fast at h
  cases ht with
  | pred hpc hx hl =>
    rw [hpc] at h
    simpa [hx] using h
  | ppred hpc hx hl =>
    rw [hpc] at h
    simpa [hx] using h
  | both hpc hx hl =>
    rw [hpc] at h
    simpa [hx] using h

/-- Thread `t` gets the right half of the lock of node 4. -/
def getsRight (s : State ℕ (Fin 2) ℕ ℕ) (t : Fin 2) : Bool :=
  match s.pc t with
  | .lockPred _ _ pred _ _ _ =>
    decide (pred.node = some 4) && pred.right &&
      ((s.lock 4).trylockVersion pred.ver pred.right).isSome
  | _ => false

theorem takes_of_getsRight {s : State ℕ (Fin 2) ℕ ℕ} {t : Fin 2} {γ : Log ℕ (Fin 2)}
    (h : getsRight s t = true) : Takes s γ t 4 true (γ.pred t) := by
  unfold getsRight at h
  split at h
  · rename_i key val pred curr nn nr hpc
    simp only [Bool.and_eq_true, decide_eq_true_eq] at h
    obtain ⟨⟨hx, hright⟩, hl⟩ := h
    rw [← hright]
    exact .pred hpc hx (Option.isSome_iff_ne_none.mp hl)
  · cases h

/-- The pointer on the right is as it was loaded, though two rounds are over, one of them between the
copy and the CAS. -/
theorem versions_validate_round : ∃ z : State ℕ (Fin 2) ℕ ℕ × Log ℕ (Fin 2),
    (tallied smallConfig).ReachableBy Recent z ∧ z.2.rounds 0 false = 1 ∧ z.2.rounds 4 false = 1 ∧
      Takes z.1 z.2 0 4 true (z.2.pred 0) ∧ Intact z.1 z.2 4 true (z.2.pred 0) := by
  have hinit : (tallied smallConfig).ReachableBy Recent (smallState (Fin 2), .start) :=
    .init ⟨smallState_init _, rfl⟩
  have hcomputes : (tallied (ι := Fin 2) (V := ℕ) smallConfig).Computes _ :=
    (State.computes smallConfig).logged
  obtain ⟨z, hr, hfound⟩ := hcomputes.exists_reachableBy (roundSchedule 0 1) hinit fast
    (fun _ _ h => recent_of_fast h) (fun z => decide (z.2.rounds 0 false = 1) &&
      decide (z.2.rounds 4 false = 1) && getsRight z.1 0 && fast z (0, .tau)) (by decide +kernel)
  simp only [Bool.and_eq_true, decide_eq_true_eq] at hfound
  obtain ⟨⟨⟨hroot, hleft⟩, hgets⟩, hfast⟩ := hfound
  have ht : Takes z.1 z.2 0 4 true (z.2.pred 0) := takes_of_getsRight hgets
  obtain ⟨-, hintact, -⟩ := versions_validate (V := ℕ) (ι := Fin 2) smallConfig
  obtain ⟨hintact, -⟩ := hintact z hr (0, .tau) (recent_of_fast hfast)
  exact ⟨z, hr, hroot, hleft, ht, hintact 4 true _ ht⟩

end

end Ticket
end PopSetbench

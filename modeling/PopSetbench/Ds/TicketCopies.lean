import PopSetbench.Ds.TicketLinear
import PopSetbench.Ds.TicketRounds

/-!
# The ticket tree: what is recorded of the edges a thread has followed

The numbers that belong to the edges of a thread are those of the time it copied the lock word and
loaded the pointer. They only grow, no pointer of a node that threads work with changes without
them, and a half that was free when it was copied has the version that belongs to them.
-/

namespace PopSetbench
namespace Ticket

open Function

variable {α ι K V : Type}

/-! ### The copies and the record -/

/-- `ppred` and `pred`, where they have a value that will be used. -/
def Pc.edges : Pc α K V → Edge α × Edge α
  | .start _ ppred pred => (ppred, pred)
  | .loadVer _ ppred pred _ => (ppred, pred)
  | .readKey _ ppred pred => (ppred, pred)
  | .loadChild _ ppred pred => (ppred, pred)
  | .loadLeft _ ppred pred _ => (ppred, pred)
  | .testKey _ ppred pred _ => (ppred, pred)
  | .newLeaf _ _ pred _ => (.none, pred)
  | .newNode _ _ pred _ _ => (.none, pred)
  | .lockPred _ _ pred _ _ _ => (.none, pred)
  | .dealloc _ _ pred _ _ => (.none, pred)
  | .lockPpred _ ppred pred _ => (ppred, pred)
  | .lockBoth _ ppred pred _ => (ppred, pred)
  | .revert _ ppred pred => (ppred, pred)
  | .storeTicket _ ppred pred _ => (ppred, pred)
  | .endRetry _ ppred pred => (ppred, pred)
  | _ => (.none, .none)

/-- The pointer that `pred` is about has not yet been loaded. -/
def Pc.Unread : Pc α K V → Prop
  | .readKey _ _ _ => True
  | .loadChild _ _ _ => True
  | _ => False

/-- `c` is what the numbers were when the lock word `ver` was copied from `x`. -/
structure Copied (γ : Log α ι) (ver : Tl) (c : Copy α) (x : α) : Prop where
  rounds : ∀ d, c.rounds d ≤ γ.rounds x d
  stores : ∀ d, c.stores d ≤ γ.stores x d
  free : ∀ d v, ver.lr d = ⟨v, v⟩ → v = BitVec.ofNat 16 (c.rounds d) ∧ c.stores d = c.rounds d

/-- `c` is what the numbers were when a child of `x` was loaded. -/
structure Loaded (s : State α ι K V) (γ : Log α ι) (right : Bool) (c : Copy α) (x : α) : Prop where
  after : c.stores right ≤ c.seen
  stores : c.seen ≤ γ.stores x right
  read : γ.stores x right = c.seen → s.child x right = c.read

/-- What the record has on the edges of a thread. -/
structure Copies (s : State α ι K V) (γ : Log α ι) (cp c : Copy α) (p : Pc α K V) : Prop where
  pcopied : ∀ x, p.edges.1.node = some x → Copied γ p.edges.1.ver cp x
  ploaded : ∀ x, p.edges.1.node = some x → Loaded s γ p.edges.1.right cp x
  copied : ∀ x, p.edges.2.node = some x → Copied γ p.edges.2.ver c x
  loaded : ∀ x, p.edges.2.node = some x → ¬ p.Unread → Loaded s γ p.edges.2.right c x

/-- The numbers grow, and no pointer changes without them. -/
structure Grows (G : α → Prop) (s s' : State α ι K V) (γ γ' : Log α ι) : Prop where
  rounds : ∀ x d, G x → γ.rounds x d ≤ γ'.rounds x d
  stores : ∀ x d, G x → γ.stores x d ≤ γ'.stores x d
  child : ∀ x d, G x → γ'.stores x d = γ.stores x d → s'.child x d = s.child x d

section

variable {s s' : State α ι K V} {γ γ' : Log α ι} {t q : ι} {p p' : Pc α K V} {x y z : α} {d : Bool}
  {G : α → Prop} {c cp : Copy α} {e : Edge α}

theorem Copied.mono {ver : Tl} (hg : Grows G s s' γ γ') (hx : G x) (h : Copied γ ver c x) :
    Copied γ' ver c x where
  rounds d := (h.rounds d).trans (hg.rounds x d hx)
  stores d := (h.stores d).trans (hg.stores x d hx)
  free := h.free

theorem Loaded.mono (hg : Grows G s s' γ γ') (hx : G x) (h : Loaded s γ d c x) :
    Loaded s' γ' d c x where
  after := h.after
  stores := h.stores.trans (hg.stores x d hx)
  read := by
    intro hs
    -- the number was between the two all the time
    have hsame : γ'.stores x d = γ.stores x d :=
      le_antisymm (hs ▸ h.stores) (hg.stores x d hx)
    rw [hg.child x d hx hsame]
    exact h.read (hsame ▸ hs)

/-- A thread works with the nodes of its edges. -/
theorem Pc.names_of_edges (h : p.edges.1.node = some x ∨ p.edges.2.node = some x) :
    p.Names x := by
  have hnone : ¬ ((none : Option α) = some x) := fun h => (Option.some_ne_none _ h.symm).elim
  cases p with
  | start op ppred pred => exact h
  | loadVer u ppred pred curr => exact h.imp_right .inl
  | readKey u ppred pred => exact h
  | loadChild u ppred pred => exact h
  | loadLeft u ppred pred curr => exact h.imp_right .inl
  | testKey u ppred pred curr => exact h.imp_right .inl
  | newLeaf key val pred curr => exact .inl (h.resolve_left hnone)
  | newNode key val pred curr nn => exact .inl (h.resolve_left hnone)
  | lockPred key val pred curr nn nr => exact .inl (h.resolve_left hnone)
  | dealloc key val pred nn nr => exact h.resolve_left hnone
  | lockPpred key ppred pred curr => exact h
  | lockBoth key ppred pred curr => exact h
  | revert key ppred pred => exact h
  | storeTicket key ppred pred v => exact h
  | endRetry u ppred pred => exact h
  | _ => exact (h.elim hnone hnone).elim

theorem Copies.mono (hg : Grows G s s' γ γ') (hn : ∀ x, p.Names x → G x)
    (h : Copies s γ cp c p) : Copies s' γ' cp c p where
  pcopied x hx := (h.pcopied x hx).mono hg (hn x (Pc.names_of_edges (.inl hx)))
  ploaded x hx := (h.ploaded x hx).mono hg (hn x (Pc.names_of_edges (.inl hx)))
  copied x hx := (h.copied x hx).mono hg (hn x (Pc.names_of_edges (.inr hx)))
  loaded x hx hu := (h.loaded x hx hu).mono hg (hn x (Pc.names_of_edges (.inr hx)))

/-- The edges are still those. -/
theorem Copies.keep (h : Copies s γ cp c p) (he : p'.edges = p.edges) (hu : ¬ p.Unread) :
    Copies s γ cp c p' where
  pcopied := by
    rw [he]
    exact h.pcopied
  ploaded := by
    rw [he]
    exact h.ploaded
  copied := by
    rw [he]
    exact h.copied
  loaded := by
    rw [he]
    exact fun x hx _ => h.loaded x hx hu

/-- One of the edges is used no more. -/
theorem Copies.drop (h : Copies s γ cp c p) (he : p'.edges = (.none, p.edges.2))
    (hu : ¬ p.Unread) : Copies s γ cp c p' where
  pcopied := by
    rw [he]
    exact fun x hx => (Option.some_ne_none _ hx.symm).elim
  ploaded := by
    rw [he]
    exact fun x hx => (Option.some_ne_none _ hx.symm).elim
  copied := by
    rw [he]
    exact h.copied
  loaded := by
    rw [he]
    exact fun x hx _ => h.loaded x hx hu

/-- There are no edges. -/
theorem Copies.none (he : p'.edges = (.none, .none)) : Copies s γ cp c p' where
  pcopied := by
    rw [he]
    exact fun x hx => (Option.some_ne_none _ hx.symm).elim
  ploaded := by
    rw [he]
    exact fun x hx => (Option.some_ne_none _ hx.symm).elim
  copied := by
    rw [he]
    exact fun x hx => (Option.some_ne_none _ hx.symm).elim
  loaded := by
    rw [he]
    exact fun x hx _ => (Option.some_ne_none _ hx.symm).elim

/-- The numbers at the time the lock of a node is copied. -/
theorem Counted.copied (h : Counted s γ) (hx : s.allocated x = true) {n : ℕ} {o : Option α} :
    Copied γ (s.lock x) ⟨γ.rounds x, γ.stores x, n, o⟩ x where
  rounds _ := le_rfl
  stores _ := le_rfl
  free _ _ hv := (h.of_free hx hv).2

theorem Grows.same (hr : γ'.rounds = γ.rounds) (hst : γ'.stores = γ.stores)
    (hc : ∀ x, G x → s'.child x = s.child x) : Grows G s s' γ γ' where
  rounds x d _ := by rw [hr]
  stores x d _ := by rw [hst]
  child x d hx _ := by rw [hc x hx]

theorem Grows.goto [DecidableEq ι] (h : Grows G s s' γ γ') : Grows G s (s'.goto t p) γ γ' :=
  ⟨h.rounds, h.stores, h.child⟩

variable [DecidableEq α]

theorem Grows.round {l : Tl} : Grows G s (s.setLock z l) γ (γ.round z d) where
  rounds x d' _ := by
    show _ ≤ update γ.rounds z _ x d'
    by_cases hxz : x = z
    · subst hxz
      rw [update_self]
      by_cases hd : d' = d
      · subst hd
        rw [update_self]
        exact Nat.le_succ _
      · rw [update_of_ne hd]
    · rw [update_of_ne hxz]
  stores _ _ _ := le_rfl
  child _ _ _ _ := rfl

theorem Grows.store {o : Option α} : Grows G s (s.setChild z d o) γ (γ.store z d) where
  rounds _ _ _ := le_rfl
  stores x d' _ := by
    show _ ≤ update γ.stores z _ x d'
    by_cases hxz : x = z
    · subst hxz
      rw [update_self]
      by_cases hd : d' = d
      · subst hd
        rw [update_self]
        exact Nat.le_succ _
      · rw [update_of_ne hd]
    · rw [update_of_ne hxz]
  child x d' _ hst := by
    have hst : update γ.stores z (update (γ.stores z) d (γ.stores z d + 1)) x d' = γ.stores x d' :=
      hst
    show update s.child z (update (s.child z) d o) x d' = s.child x d'
    by_cases hxz : x = z
    · subst hxz
      rw [update_self] at hst ⊢
      by_cases hd : d' = d
      · subst hd
        rw [update_self] at hst
        exact (Nat.succ_ne_self _ hst).elim
      · rw [update_of_ne hd]
    · rw [update_of_ne hxz]

variable [DecidableEq ι] [LinearOrder K] {cfg : Config α K}

/-- **The numbers grow** with every step. -/
theorem Known.grows {ev : Event α K V} (h : Known cfg s G) (hs : Step cfg s t ev s') :
    Grows G s s' γ (γ.next s (t, ev)) := by
  show Grows G s s' γ ((s.pc t).log s t γ)
  cases hs with
  | loadVer u ppred pred x hpc =>
    rw [hpc]
    exact .same rfl rfl fun _ _ => rfl
  | loadChild u ppred pred x y hpc hx hy =>
    rw [hpc, Pc.log, hx]
    exact .same rfl rfl fun _ _ => rfl
  | newLeaf key val pred x a hpc ha =>
    rw [hpc]
    refine .same rfl rfl fun x hx => update_of_ne ?_ ..
    rintro rfl
    cases ha.symm.trans (h.allocated x hx)
  | initNode key val pred x a b less hpc =>
    rw [hpc]
    refine .same rfl rfl fun x hx => update_of_ne ?_ ..
    rintro rfl
    refine h.old t x hx ?_
    rw [hpc]
    exact .inr rfl
  | storeChild key val pred z x a b hpc hz =>
    rw [hpc, Pc.log, hz]
    exact Grows.store.goto
  | splice key ppred pred g x y hpc hg =>
    rw [hpc, Pc.log, hg]
    exact Grows.store.goto
  | storeVersion e v k z hpc hz =>
    rw [hpc, Pc.log, hz]
    exact Grows.round.goto
  | _ =>
    have hpc := ‹s.pc t = _›
    rw [hpc]
    exact .same rfl rfl fun _ _ => rfl

omit [LinearOrder K] in
/-- What the record has on a thread does not change but by its own steps. -/
theorem Log.next_of_ne {ev : Event α K V} (hq : q ≠ t) :
    (γ.next s (t, ev)).ppred q = γ.ppred q ∧ (γ.next s (t, ev)).pred q = γ.pred q := by
  have hedge : ∀ (e : Edge α) (f : α → Log α ι),
      (∀ x, (f x).ppred q = γ.ppred q ∧ (f x).pred q = γ.pred q) →
      (e.node.elim γ f).ppred q = γ.ppred q ∧ (e.node.elim γ f).pred q = γ.pred q := by
    intro e f hf
    cases e.node with
    | none => exact ⟨rfl, rfl⟩
    | some x => exact hf x
  show ((s.pc t).log s t γ).ppred q = _ ∧ ((s.pc t).log s t γ).pred q = _
  cases s.pc t with
  | loadVer u ppred pred curr => exact ⟨update_of_ne hq .., update_of_ne hq ..⟩
  | loadChild u ppred pred => exact hedge pred _ fun x => ⟨rfl, update_of_ne hq ..⟩
  | storeChild key val pred curr nn nr => exact hedge pred _ fun x => ⟨rfl, rfl⟩
  | splice key ppred pred curr y => exact hedge ppred _ fun x => ⟨rfl, rfl⟩
  | storeVersion e v k => exact hedge e _ fun x => ⟨rfl, rfl⟩
  | _ => exact ⟨rfl, rfl⟩

/-- **A thread's own steps** keep what the record has on its edges. -/
theorem Copies.step_self {ev : Event α K V} (h : Copies s γ (γ.ppred t) (γ.pred t) (s.pc t))
    (hc : Counted s γ) (hk : Known cfg s G) (hs : Step cfg s t ev s') :
    Copies s' (γ.next s (t, ev)) ((γ.next s (t, ev)).ppred t) ((γ.next s (t, ev)).pred t)
      (s'.pc t) := by
  have hnext : γ.next s (t, ev) = (s.pc t).log s t γ := rfl
  -- what was recorded before goes on being so, as the lock words only grow
  have h' := h.mono (hk.grows hs : Grows G s s' γ _) (hk.names t)
  rw [hnext] at h' ⊢
  cases hs with
  | invoke op hpc hmin hmax =>
    rw [State.goto_pc_self]
    exact .none rfl
  | startOp op ppred pred hpc =>
    rw [hpc] at h' ⊢
    rw [State.goto_pc_self]
    cases op with
    | contains key => exact .none rfl
    | insert key val => exact h'.keep rfl id
    | erase key => exact h'.keep rfl id
  | loadVer u ppred pred x hpc =>
    -- `pred` becomes `ppred` with its record, and the lock of the new `pred` is copied now
    have hx : s.allocated x = true :=
      hk.allocated x (hk.names t x (by rw [hpc]; exact .inr (.inr rfl)))
    have hcopied : Copied γ (s.lock x) ⟨γ.rounds x, γ.stores x, 0, .none⟩ x := hc.copied hx
    rw [hpc] at h' ⊢
    rw [State.goto_pc_self]
    show Copies _ (γ.copy t x) (update γ.ppred t (γ.pred t) t)
      (update γ.pred t ⟨γ.rounds x, γ.stores x, 0, .none⟩ t) _
    rw [update_self, update_self]
    refine ⟨fun y hy => ?_, fun y hy => ?_, fun y hy => ?_, fun y hy hu => ?_⟩
    · have h₁ := h'.copied y hy
      exact ⟨h₁.rounds, h₁.stores, h₁.free⟩
    · have h₁ := h'.loaded y hy id
      exact ⟨h₁.after, h₁.stores, h₁.read⟩
    · obtain rfl : x = y := Option.some.inj hy
      exact ⟨hcopied.rounds, hcopied.stores, hcopied.free⟩
    · exact (hu trivial).elim
  | readKey u ppred pred x hpc hx =>
    -- the key decides the side; no store to that side is missed by it
    rw [hpc] at h' ⊢
    rw [State.goto_pc_self]
    exact ⟨h'.pcopied, h'.ploaded, fun y hy => h'.copied y (hx.trans hy),
      fun y hy hu => (hu trivial).elim⟩
  | loadChild u ppred pred x y hpc hx hy =>
    -- the link is read: from here on the record says after how many stores
    rw [hpc, Pc.log, hx] at h' ⊢
    rw [State.goto_pc_self]
    show Copies _ (γ.load t x pred.right (s.child x pred.right)) (γ.ppred t)
      (update γ.pred t ⟨(γ.pred t).rounds, (γ.pred t).stores, γ.stores x pred.right,
        s.child x pred.right⟩ t) _
    rw [update_self]
    refine ⟨h'.pcopied, h'.ploaded, fun z hz => ?_, fun z hz _ => ?_⟩
    · have h₁ := h'.copied z hz
      exact ⟨h₁.rounds, h₁.stores, h₁.free⟩
    · obtain rfl : x = z := Option.some.inj (hx.symm.trans hz)
      exact ⟨(h'.copied x hx).stores pred.right, le_rfl, fun _ => rfl⟩
  | hit u ppred pred x hpc hkx =>
    -- `deleteKey` goes on with both edges
    rw [hpc] at h' ⊢
    rw [State.goto_pc_self]
    cases u with
    | insert key val => exact .none rfl
    | delete key => exact h'.keep rfl id
  | miss u ppred pred x hpc hkx =>
    -- `insertKey` goes on with `pred` alone
    rw [hpc] at h' ⊢
    rw [State.goto_pc_self]
    cases u with
    | insert key val => exact h'.drop rfl id
    | delete key => exact .none rfl
  | loadLeft u ppred pred x hpc hl =>
    -- what follows uses the edges as they are recorded
    rw [hpc] at h' ⊢
    rw [State.goto_pc_self]
    exact h'.keep rfl id
  | loadNull u ppred pred x hpc hl =>
    rw [hpc] at h' ⊢
    rw [State.goto_pc_self]
    exact h'.keep rfl id
  | newLeaf key val pred x a hpc ha =>
    rw [hpc] at h' ⊢
    rw [State.goto_pc_self]
    exact h'.keep rfl id
  | newNode key val pred x a b hpc hb =>
    rw [hpc] at h' ⊢
    rw [State.goto_pc_self]
    exact h'.keep rfl id
  | lockPredFail key val pred z x a b hpc hz hl =>
    rw [hpc] at h' ⊢
    rw [State.goto_pc_self]
    exact h'.keep rfl id
  | dealloc key val pred a b hpc =>
    rw [hpc] at h' ⊢
    rw [State.goto_pc_self]
    exact h'.keep rfl id
  | lockPpred key ppred pred g x l hpc hg hl =>
    rw [hpc] at h' ⊢
    rw [State.goto_pc_self]
    exact h'.keep rfl id
  | lockPpredFail key ppred pred g x hpc hg hl =>
    rw [hpc] at h' ⊢
    rw [State.goto_pc_self]
    exact h'.keep rfl id
  | lockBothFail key ppred pred z x hpc hz hl =>
    rw [hpc] at h' ⊢
    rw [State.goto_pc_self]
    exact h'.keep rfl id
  | revert key ppred pred g hpc hg =>
    rw [hpc] at h' ⊢
    rw [State.goto_pc_self]
    exact h'.keep rfl id
  | storeTicket key ppred pred v g hpc hg =>
    rw [hpc] at h' ⊢
    rw [State.goto_pc_self]
    exact h'.keep rfl id
  | endRetry u ppred pred hpc =>
    rw [hpc] at h' ⊢
    rw [State.goto_pc_self]
    exact h'.keep rfl id
  | storeVersion e v k z hpc hz =>
    -- after the store the edges are used no more
    rw [State.goto_pc_self]
    cases k <;> exact .none rfl
  | _ =>
    rw [State.goto_pc_self]
    exact .none rfl

end

/-! ### Runs -/

/-- What is known of a run so far. -/
structure Tallied [LT K] (cfg : Config α K) (s : State α ι K V) (γ : Log α ι) : Prop where
  known : ∃ G, Known cfg s G
  counted : Counted s γ
  copies : ∀ t, Copies s γ (γ.ppred t) (γ.pred t) (s.pc t)

section

variable [DecidableEq α] [DecidableEq ι] [LinearOrder K] {cfg : Config α K}
  {s s' : State α ι K V} {γ : Log α ι} {t : ι}

theorem Tallied.step {ev : Event α K V} (h : Tallied cfg s γ) (hs : Step cfg s t ev s') :
    Tallied cfg s' (γ.next s (t, ev)) := by
  obtain ⟨G, hk⟩ := h.known
  obtain ⟨G', -, hk'⟩ := hk.of_step hs
  refine ⟨⟨G', hk'⟩, h.counted.of_step hk hs, fun q => ?_⟩
  by_cases hq : q = t
  · subst hq
    exact (h.copies q).step_self h.counted hk hs
  · obtain ⟨h₁, h₂⟩ : (γ.next s (t, ev)).ppred q = γ.ppred q ∧
          (γ.next s (t, ev)).pred q = γ.pred q := Log.next_of_ne hq
    rw [h₁, h₂, hs.pc_of_ne hq]
    exact (h.copies q).mono (hk.grows hs) (hk.names q)

omit [DecidableEq α] [DecidableEq ι] in
theorem Init.known (h : Init cfg s) : Known cfg s fun x => s.allocated x = true where
  allocated _ hx := hx
  old q x _ := by
    rw [h.pc q]
    exact id
  root := (h.allocated _).mpr (.inl rfl)
  child := by
    intro x d y hx hy
    rcases (h.allocated x).mp hx with rfl | rfl | rfl
    · obtain rfl := Option.some.inj ((h.child_root d).symm.trans hy)
      cases d with
      | false => exact (h.allocated _).mpr (.inr (.inl rfl))
      | true => exact (h.allocated _).mpr (.inr (.inr rfl))
    · cases (h.child_min d).symm.trans hy
    · cases (h.child_max d).symm.trans hy
  names q x hx := by
    rw [h.pc q] at hx
    exact hx.elim
  new q x hx := by
    rw [h.pc q] at hx
    exact hx.elim
  own q _ x hx := by
    rw [h.pc q] at hx
    exact hx.elim
  made q := by
    rw [h.pc q]
    trivial

omit [DecidableEq α] [DecidableEq ι] in
theorem Init.tallied (h : Init cfg s) : Tallied cfg s .start where
  known := ⟨_, h.known⟩
  counted := {
    excl := by
      intro q q' x d hx
      rw [h.pc q] at hx
      cases hx
    held := by
      intro q x d hx
      rw [h.pc q] at hx
      cases hx
    free := by
      intro x d hx _
      refine ⟨rfl, .inr ?_⟩
      rw [h.lock x hx]
      rfl
    unused := fun _ _ _ => ⟨rfl, rfl⟩
    word := by
      intro q
      rw [h.pc q]
      trivial }
  copies t := by
    rw [h.pc t]
    exact .none rfl

/-- The implementation, with the record. -/
def tallied (cfg : Config α K) : Lts (State α ι K V × Log α ι) (ι × Event α K V) :=
  (lts cfg).logged Log.next .start

theorem Tallied.of_reachable {z : State α ι K V × Log α ι}
    {ok : State α ι K V × Log α ι → ι × Event α K V → Prop}
    (h : (tallied cfg).ReachableBy ok z) : Tallied cfg z.1 z.2 := by
  refine h.invariant (P := fun z => Tallied cfg z.1 z.2) ?_ ?_
  · rintro ⟨s, γ⟩ ⟨hs, rfl⟩
    exact Init.tallied hs
  · rintro ⟨s, γ⟩ ⟨t, ev⟩ ⟨s', γ'⟩ _ ih _ ⟨hs, rfl⟩
    exact ih.step hs

end

end Ticket
end PopSetbench

import PopSetbench.Ds.AbTreeSteps
import PopSetbench.Ds.AbTreeNodes

/-!
# The relaxed (a,b)-tree: what holds also while there are violations

`Relaxed S h lo hi n` says that `n` is the root of a search tree with keys from `lo` to `hi`, in
which all leaves have the weighted depth `h`. Nothing is said of the sizes but what the repairs rely
on: a node of weight zero has two children.

The part of the keys that a node has does not change as long as the node exists, and neither do its
weight, its search key and its size. `Scheme.info` is a record of them, by address: so what is known
of an address remains true when the tree has changed.

* `Spine S h lo hi path` is a path from the root with the subtrees that hang on it.
* `Relaxed.unplug` takes the tree apart at a path, `Spine.plug` puts it together again.
* `Spine.search` says that a search for a key of the end of the path follows the path.
-/

namespace PopSetbench
namespace AbTree

variable {K V : Type}

/-- What is fixed when a node is linked. -/
@[ext]
structure Info (K : Type) where
  /-- The weighted depth of the leaves below it. -/
  height : ℕ
  lo : WithBot K
  hi : WithTop K
  weight : Bool
  searchKey : K
  size : ℕ
  isLeaf : Bool

/-- The record of a node with the keys from `lo` to `hi`. -/
def Node.info (h : ℕ) (lo : WithBot K) (hi : WithTop K) (n : Node K V) : Info K :=
  ⟨h, lo, hi, n.weight, n.searchKey, n.getABDegree, n.isLeaf⟩

/-- The bounds on sizes and addresses, and the record of the nodes. -/
structure Scheme (K : Type) where
  degree : ℕ
  /-- The least size of an internal node. -/
  least : ℕ
  next : ℕ
  info : ℕ → Info K
  three_le : 3 ≤ degree
  least_le : least ≤ 2
  entry_lt : entry < next

/-- Nodes are added to the record. -/
structure Scheme.Extends (S S' : Scheme K) : Prop where
  degree : S'.degree = S.degree
  least : S'.least = S.least
  next : S.next ≤ S'.next
  info : ∀ x < S.next, S'.info x = S.info x

/-- The record with `k` more nodes, at the next addresses. -/
def Scheme.add (S : Scheme K) (k : ℕ) (info : ℕ → Info K) : Scheme K :=
  { S with
    next := S.next + k
    info := fun x => if x < S.next then S.info x else info (x - S.next)
    entry_lt := S.entry_lt.trans_le (Nat.le_add_right ..) }

section

variable [LinearOrder K]

/-- The node is in the record. -/
structure Registered (S : Scheme K) (h : ℕ) (lo : WithBot K) (hi : WithTop K) (n : Node K V) :
    Prop where
  ptr_lt : n.ptr < S.next
  ptr_ne : n.ptr ≠ entry
  info : S.info n.ptr = n.info h lo hi

/-- What a node has, whatever is below it. -/
structure Labeled (S : Scheme K) (h : ℕ) (lo : WithBot K) (hi : WithTop K) (n : Node K V) : Prop
    extends Registered S h lo hi n where
  searchKey : Within lo hi n.searchKey
  size_le : n.getABDegree ≤ S.degree
  zero : n.weight = false → n.isLeaf = false ∧ n.getABDegree = 2
  le_size : n.isLeaf = false → S.least ≤ n.getABDegree

/-- What a node has below it, down to the depth `d`. -/
def Below (S : Scheme K) : ℕ → ℕ → WithBot K → WithTop K → Node K V → Prop
  | _, h, lo, hi, .leaf _ _ _ entries => h = 0 ∧ Pairs lo hi entries
  | d + 1, h, lo, hi, .internal _ _ weight keys ptrs =>
    ∃ h', h = h' + weight.toNat ∧
      Separated (fun l u c => Labeled S h' l u c ∧ Below S d h' l u c) lo hi keys ptrs
  | 0, _, _, _, .internal .. => False

/-- A search tree whose leaves have the weighted depth `h`. -/
structure Relaxed (S : Scheme K) (h : ℕ) (lo : WithBot K) (hi : WithTop K) (n : Node K V) :
    Prop where
  label : Labeled S h lo hi n
  below : ∃ d, Below S d h lo hi n

/-- A node of a path. -/
structure Frame.Relaxed (S : Scheme K) (h : ℕ) (lo : WithBot K) (hi : WithTop K) (l : WithBot K)
    (u : WithTop K) (p : Frame K V) : Prop where
  label : ∀ n, Labeled S (h + p.weight.toNat) lo hi (p.node n)
  hole : ∃ ksL ksR, p.keys = ksL ++ ksR ∧
    Hole (AbTree.Relaxed S h) lo hi ksL ksR p.before p.after l u

/-- A path from the root, with the subtrees that hang on it. -/
inductive Spine (S : Scheme K) : ℕ → WithBot K → WithTop K → List (Frame K V) → Prop
  | root {h} : Spine S h ⊥ ⊤ []
  | frame {h lo hi l u p path} (hp : p.Relaxed S h lo hi l u)
      (rest : Spine S (h + p.weight.toNat) lo hi path) : Spine S h l u (p :: path)

end

/-! ### More nodes -/

namespace Scheme.Extends

variable {S S' S'' : Scheme K}

theorem refl : S.Extends S :=
  ⟨rfl, rfl, le_rfl, fun _ _ => rfl⟩

theorem add (S : Scheme K) (k : ℕ) (info : ℕ → Info K) : S.Extends (S.add k info) :=
  ⟨rfl, rfl, Nat.le_add_right .., fun _ hx => if_pos hx⟩

end Scheme.Extends

section

variable [LinearOrder K] {S S' : Scheme K} {h d d' : ℕ} {lo l : WithBot K} {hi u : WithTop K}
  {n c : Node K V} {p : Frame K V} {path : List (Frame K V)} {x : K}

omit [LinearOrder K] in
/-- A new node. -/
theorem registered {info : ℕ → Info K} {k i : ℕ} (hi' : i < k) (hptr : n.ptr = S.next + i)
    (hinfo : info i = n.info h lo hi) : Registered (S.add k info) h lo hi n := by
  have hentry := S.entry_lt
  refine ⟨?_, by omega, ?_⟩
  · rw [hptr]
    exact Nat.add_lt_add_left hi' _
  · have hnew : ¬ n.ptr < S.next := by omega
    have hoffset : n.ptr - S.next = i := by omega
    calc (S.add k info).info n.ptr = info (n.ptr - S.next) := if_neg hnew
      _ = n.info h lo hi := by rw [hoffset, hinfo]

theorem Labeled.mono (hS : S.Extends S') (hn : Labeled S h lo hi n) : Labeled S' h lo hi n where
  ptr_lt := hn.ptr_lt.trans_le hS.next
  ptr_ne := hn.ptr_ne
  info := (hS.info _ hn.ptr_lt).trans hn.info
  searchKey := hn.searchKey
  size_le := hS.degree ▸ hn.size_le
  zero := hn.zero
  le_size := hS.least ▸ hn.le_size

theorem Below.mono (hS : S.Extends S') (hd : d ≤ d') (hn : Below S d h lo hi n) :
    Below S' d' h lo hi n := by
  induction d generalizing d' h lo hi n with
  | zero =>
    cases n with
    | leaf =>
      unfold Below at hn ⊢
      exact hn
    | internal => exact hn.elim
  | succ d ih =>
    cases n with
    | leaf =>
      unfold Below at hn ⊢
      exact hn
    | internal ptr searchKey weight keys ptrs =>
      obtain ⟨d', rfl⟩ := Nat.exists_eq_add_of_le' (Nat.one_le_of_lt hd)
      obtain ⟨h', hh, hsep⟩ := hn
      exact ⟨h', hh, hsep.imp fun _ _ _ hc =>
        ⟨hc.1.mono hS, ih (Nat.le_of_succ_le_succ hd) hc.2⟩⟩

theorem Relaxed.mono (hS : S.Extends S') (hn : Relaxed S h lo hi n) : Relaxed S' h lo hi n := by
  obtain ⟨d, hd⟩ := hn.below
  exact ⟨hn.label.mono hS, d, hd.mono hS le_rfl⟩

theorem relaxed_leaf {ptr searchKey weight entries} :
    Relaxed S h lo hi (.leaf ptr searchKey weight entries : Node K V) ↔
      Labeled S h lo hi (.leaf ptr searchKey weight entries : Node K V) ∧ h = 0 ∧
        Pairs lo hi entries := by
  constructor
  · rintro ⟨hlabel, d, hd⟩
    unfold Below at hd
    exact ⟨hlabel, hd⟩
  · rintro ⟨hlabel, hd⟩
    refine ⟨hlabel, 0, ?_⟩
    unfold Below
    exact hd

theorem relaxed_internal {ptr searchKey weight keys ptrs} :
    Relaxed S h lo hi (.internal ptr searchKey weight keys ptrs : Node K V) ↔
      Labeled S h lo hi (.internal ptr searchKey weight keys ptrs : Node K V) ∧
      ∃ h', h = h' + weight.toNat ∧ Separated (Relaxed S h') lo hi keys ptrs := by
  constructor
  · rintro ⟨hlabel, d, hd⟩
    cases d with
    | zero => exact hd.elim
    | succ d =>
      obtain ⟨h', hh, hsep⟩ := hd
      exact ⟨hlabel, h', hh, hsep.imp fun _ _ _ hc => ⟨hc.1, d, hc.2⟩⟩
  · rintro ⟨hlabel, h', hh, hsep⟩
    -- one depth for all children
    have hd : ∃ d, Separated (fun l u c => Labeled S h' l u c ∧ Below S d h' l u c) lo hi
        keys ptrs := by
      clear hlabel
      induction hsep with
      | last hc =>
        obtain ⟨d, hd⟩ := hc.below
        exact ⟨d, .last ⟨hc.label, hd⟩⟩
      | cons hc _ ih =>
        obtain ⟨d, hd⟩ := hc.below
        obtain ⟨d', hd'⟩ := ih
        refine ⟨max d d', .cons ⟨hc.label, hd.mono .refl (le_max_left ..)⟩ ?_⟩
        exact hd'.imp fun _ _ _ hc => ⟨hc.1, hc.2.mono .refl (le_max_right ..)⟩
    obtain ⟨d, hd⟩ := hd
    exact ⟨hlabel, d + 1, h', hh, hd⟩

/-- **Induction on a relaxed tree.** -/
theorem Relaxed.induct {motive : ℕ → WithBot K → WithTop K → Node K V → Prop}
    (leaf : ∀ {lo hi ptr searchKey weight entries},
      Labeled S 0 lo hi (.leaf ptr searchKey weight entries : Node K V) → Pairs lo hi entries →
      motive 0 lo hi (.leaf ptr searchKey weight entries))
    (internal : ∀ {h lo hi ptr searchKey weight keys ptrs},
      Labeled S (h + weight.toNat) lo hi (.internal ptr searchKey weight keys ptrs : Node K V) →
      Separated (fun l u c => Relaxed S h l u c ∧ motive h l u c) lo hi keys ptrs →
      motive (h + weight.toNat) lo hi (.internal ptr searchKey weight keys ptrs))
    (hn : Relaxed S h lo hi n) : motive h lo hi n := by
  obtain ⟨hlabel, d, hd⟩ := hn
  induction d generalizing h lo hi n with
  | zero =>
    cases n with
    | leaf ptr searchKey weight entries =>
      unfold Below at hd
      obtain ⟨rfl, hpairs⟩ := hd
      exact leaf hlabel hpairs
    | internal => exact hd.elim
  | succ d ih =>
    cases n with
    | leaf ptr searchKey weight entries =>
      unfold Below at hd
      obtain ⟨rfl, hpairs⟩ := hd
      exact leaf hlabel hpairs
    | internal ptr searchKey weight keys ptrs =>
      obtain ⟨h', rfl, hsep⟩ := hd
      exact internal hlabel (hsep.imp fun _ _ _ hc => ⟨⟨hc.1, d, hc.2⟩, ih hc.1 hc.2⟩)

theorem Relaxed.exists_within (l : WithBot K) (u : WithTop K) (c : Node K V)
    (hc : Relaxed S h l u c) : ∃ x, Within l u x :=
  ⟨c.searchKey, hc.label.searchKey⟩

/-! ### Paths -/

theorem Frame.Relaxed.mono (hS : S.Extends S') (hp : p.Relaxed S h lo hi l u) :
    p.Relaxed S' h lo hi l u := by
  obtain ⟨ksL, ksR, hkeys, hole⟩ := hp.hole
  exact ⟨fun n => (hp.label n).mono hS, ksL, ksR, hkeys, hole.imp fun _ _ _ hc => hc.mono hS⟩

theorem Spine.mono (hS : S.Extends S') (hspine : Spine S h lo hi path) :
    Spine S' h lo hi path := by
  induction hspine with
  | root => exact .root
  | frame hp _ ih => exact .frame (hp.mono hS) ih

theorem Spine.nil_range (hspine : Spine S h lo hi ([] : List (Frame K V))) : lo = ⊥ ∧ hi = ⊤ := by
  cases hspine
  exact ⟨rfl, rfl⟩

theorem Frame.Relaxed.node (hp : p.Relaxed S h lo hi l u) (hn : AbTree.Relaxed S h l u n) :
    AbTree.Relaxed S (h + p.weight.toNat) lo hi (p.node n) := by
  obtain ⟨ksL, ksR, hkeys, hole⟩ := hp.hole
  refine relaxed_internal.mpr ⟨hp.label n, h, rfl, ?_⟩
  have hfill := hole.fill (.last hn)
  simp only [List.append_nil, List.append_assoc, List.singleton_append] at hfill
  rw [hkeys]
  exact hfill

/-- **Plugging.** -/
theorem Spine.plug (hspine : Spine S h lo hi path) (hn : Relaxed S h lo hi n) :
    ∃ h', Relaxed S h' ⊥ ⊤ (plug path n) := by
  induction hspine generalizing n with
  | root => exact ⟨_, hn⟩
  | frame hp _ ih => exact ih (hp.node hn)

/-- What a node has above its children does not depend on the child of a path. -/
theorem Labeled.node (hn : Labeled S h lo hi (p.node n)) (c : Node K V) :
    Labeled S h lo hi (p.node c) := by
  have hsize : (p.node c).getABDegree = (p.node n).getABDegree := by
    rw [p.getABDegree_node, p.getABDegree_node]
  refine ⟨⟨hn.ptr_lt, hn.ptr_ne, hn.info.trans ?_⟩, hn.searchKey, hsize ▸ hn.size_le, ?_, ?_⟩
  · unfold Node.info
    rw [hsize]
    rfl
  · rw [hsize]
    exact hn.zero
  · rw [hsize]
    exact hn.le_size

/-- **Taking the tree apart.** -/
theorem Relaxed.unplug (hn : Relaxed S h ⊥ ⊤ (plug path n)) :
    ∃ h' lo hi, Spine S h' lo hi path ∧ Relaxed S h' lo hi n := by
  induction path generalizing n with
  | nil => exact ⟨h, ⊥, ⊤, .root, hn⟩
  | cons p path ih =>
    obtain ⟨h', lo, hi, hspine, hp⟩ := ih hn
    obtain ⟨hlabel, k, rfl, hsep⟩ := relaxed_internal.mp hp
    obtain ⟨ksL, ksR, l, u, hkeys, hole, hc⟩ := hsep.hole
    exact ⟨k, l, u, .frame ⟨hlabel.node, ksL, ksR, hkeys, hole⟩ hspine, hc⟩

/-! ### Searches -/

theorem Frame.Relaxed.getChildIndex_eq (hp : p.Relaxed S h lo hi l u) (hx : Within l u x) :
    getChildIndex x p.keys = p.ix := by
  obtain ⟨ksL, ksR, hkeys, hole⟩ := hp.hole
  unfold getChildIndex
  rw [hkeys]
  exact hole.findIdx_eq Relaxed.exists_within hx

theorem Frame.Relaxed.within (hp : p.Relaxed S h lo hi l u) (hx : Within l u x) :
    Within lo hi x := by
  obtain ⟨ksL, ksR, hkeys, hole⟩ := hp.hole
  exact hole.within Relaxed.exists_within hx

/-- **A search follows the path** to the part of its key, unless it stops on the way. -/
theorem Spine.search (hspine : Spine S h lo hi path) (hx : Within lo hi x) {stop : Option ℕ}
    (hstop : ∀ p ∈ path, stop ≠ some p.ptr) (fuel : ℕ) :
    search (fuel + path.length) [] (AbTree.plug path n) x stop = search fuel path n x stop := by
  induction hspine generalizing n fuel with
  | root => rfl
  | @frame h lo hi l u p path hp rest ih =>
    have hup : ∀ q ∈ path, stop ≠ some q.ptr := fun q hq => hstop q (List.mem_cons_of_mem p hq)
    have hix := hp.getChildIndex_eq hx
    calc AbTree.search (fuel + (path.length + 1)) [] (AbTree.plug path (p.node n)) x stop
        = AbTree.search (fuel + 1 + path.length) [] (AbTree.plug path (p.node n)) x stop := by
          rw [Nat.add_right_comm, Nat.add_assoc]
      _ = AbTree.search (fuel + 1) path (p.node n) x stop := ih (hp.within hx) hup (fuel + 1)
      _ = AbTree.search fuel (p :: path) n x stop := by
          unfold Frame.node Frame.ptrs
          unfold Frame.ix at hix
          simp [AbTree.search, hstop p List.mem_cons_self, hix]

end

end AbTree
end PopSetbench

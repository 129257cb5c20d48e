import PopSetbench.Ds.AbTreeNodes
import Mathlib.Data.List.Nodup

/-!
# The relaxed (a,b)-tree: search trees and what they hold

`Node.pairs` lists the pairs of the leaves, and `SearchTree` says what a search tree is, by the
range that the separators on the path to a node leave it.

* The repairs put the pairs from node to node, without any change to the list (`weightStep_pairs`,
  `degreeStep_pairs`). This does not depend on the order of the keys.
* `Ordered lo hi n` is the invariant behind `SearchTree`: it says nothing about weights and sizes,
  and so it follows from what is known of a tree at rest as well as of one with violations.
* An operation changes the list at one place. As the list is sorted, the pairs of other keys stay
  (`mem_middle`, `mem_replaced`, `mem_inserted`).
-/

namespace PopSetbench
namespace AbTree

variable {K V : Type}

/-! ### The pairs of a tree -/

mutual

/-- The pairs of the leaves, from the left to the right. -/
def Node.pairs : Node K V → List (K × V)
  | .leaf _ _ _ entries => entries
  | .internal _ _ _ _ ptrs => pairsOf ptrs

/-- Those of the children of a node. -/
def pairsOf : List (Node K V) → List (K × V)
  | [] => []
  | c :: cs => c.pairs ++ pairsOf cs

end

/-- The pairs on the left of a path. -/
def pairsBefore : List (Frame K V) → List (K × V)
  | [] => []
  | p :: path => pairsBefore path ++ pairsOf p.before

/-- The pairs on the right of a path. -/
def pairsAfter : List (Frame K V) → List (K × V)
  | [] => []
  | p :: path => pairsOf p.after ++ pairsAfter path

@[simp] theorem pairs_leaf (ptr : ℕ) (searchKey : K) (weight : Bool) (entries : List (K × V)) :
    (Node.leaf ptr searchKey weight entries).pairs = entries := by
  unfold Node.pairs
  rfl

@[simp] theorem pairs_internal (ptr : ℕ) (searchKey : K) (weight : Bool) (keys : List K)
    (ptrs : List (Node K V)) :
    (Node.internal ptr searchKey weight keys ptrs).pairs = pairsOf ptrs := by
  rw [Node.pairs]

@[simp] theorem pairsOf_nil : pairsOf ([] : List (Node K V)) = [] := by
  unfold pairsOf
  rfl

@[simp] theorem pairsOf_cons (c : Node K V) (cs : List (Node K V)) :
    pairsOf (c :: cs) = c.pairs ++ pairsOf cs := by
  rw [pairsOf]

@[simp] theorem pairsOf_append (cs cs' : List (Node K V)) :
    pairsOf (cs ++ cs') = pairsOf cs ++ pairsOf cs' := by
  induction cs with
  | nil => simp
  | cons c cs ih => simp [ih]

theorem pairs_plug (path : List (Frame K V)) (n : Node K V) :
    (plug path n).pairs = pairsBefore path ++ n.pairs ++ pairsAfter path := by
  induction path generalizing n with
  | nil => simp [plug, pairsBefore, pairsAfter]
  | cons p path ih =>
    calc (plug path (p.node n)).pairs
        = pairsBefore path ++ (p.node n).pairs ++ pairsAfter path := ih (p.node n)
      _ = pairsBefore (p :: path) ++ n.pairs ++ pairsAfter (p :: path) := by
        simp [Frame.node, Frame.ptrs, pairsBefore, pairsAfter]

/-! ### The repairs -/

section

variable {degree ptr : ℕ} {w : Bool} {key k : K} {keys : List K} {ptrs : List (Node K V)}
  {entries : List (K × V)} {n left right x y sibling : Node K V} {p : Frame K V}
  {path : List (Frame K V)} {s s' : State K V}

theorem absorb_pairs (h : absorb ptr keys ptrs = some n) : n.pairs = pairsOf ptrs := by
  simp only [absorb, Option.bind_eq_bind, Option.bind_eq_some_iff] at h
  obtain ⟨searchKey, -, h⟩ := h
  rw [← Option.some.inj h, pairs_internal]

theorem split_pairs (h : split ptr w keys ptrs = some n) : n.pairs = pairsOf ptrs := by
  simp only [split, Option.bind_eq_bind, Option.bind_eq_some_iff] at h
  obtain ⟨first, -, middle, -, second, -, h⟩ := h
  rw [← Option.some.inj h]
  simp only [pairs_internal, pairsOf_cons, pairsOf_nil, List.append_nil]
  rw [← pairsOf_append, List.take_append_drop]

theorem overflow_pairs (hlen : entries.length ≤ degree + 1)
    (h : overflow degree ptr w entries = some n) : n.pairs = entries := by
  simp only [overflow, Option.bind_eq_bind, Option.bind_eq_some_iff] at h
  obtain ⟨first, -, second, -, h⟩ := h
  rw [← Option.some.inj h]
  have htake : (entries.drop ((degree + 1) / 2)).take (degree + 1 - (degree + 1) / 2) =
      entries.drop ((degree + 1) / 2) := by
    refine List.take_of_length_le ?_
    rw [List.length_drop]
    exact Nat.sub_le_sub_right hlen _
  simp only [pairs_internal, pairsOf_cons, pairs_leaf, pairsOf_nil, List.append_nil, htake,
    List.take_append_drop]

theorem absorbSibling_pairs (h : absorbSibling ptr key left right k = some n) :
    n.pairs = left.pairs ++ right.pairs := by
  unfold absorbSibling at h
  split at h
  · rw [← Option.some.inj h]
    simp
  · rw [← Option.some.inj h]
    simp
  · simp at h

theorem distribute_pairs (h : distribute ptr left right k = some (x, key, y)) :
    x.pairs ++ y.pairs = left.pairs ++ right.pairs := by
  unfold distribute at h
  split at h
  · simp only [Option.bind_eq_bind, Option.bind_eq_some_iff, Option.some.injEq, Prod.mk.injEq] at h
    obtain ⟨first, -, middle, -, second, -, rfl, -, rfl⟩ := h
    simp
  · simp only [Option.bind_eq_bind, Option.bind_eq_some_iff, Option.some.injEq, Prod.mk.injEq] at h
    obtain ⟨first, -, middle, -, second, -, rfl, -, rfl⟩ := h
    rw [pairs_internal, pairs_internal, ← pairsOf_append, List.take_append_drop]
    simp
  · simp at h

/-- **Absorb and Split** keep the pairs. -/
theorem weightStep_pairs {zero : Bool} (h : weightStep degree s p path left = some (s', n, zero)) :
    s'.root.pairs = (plug (p :: path) left).pairs := by
  cases left with
  | leaf => simp [weightStep] at h
  | internal ptr searchKey weight lkeys lptrs =>
    have hold : (p.node (.internal ptr searchKey weight lkeys lptrs)).pairs =
        pairsOf (p.before ++ lptrs ++ p.after) := by
      simp [Frame.node, Frame.ptrs]
    have hplug : ∀ n' : Node K V, n'.pairs = pairsOf (p.before ++ lptrs ++ p.after) →
        (plug path n').pairs =
          (plug (p :: path) (.internal ptr searchKey weight lkeys lptrs)).pairs := by
      intro n' hn'
      rw [plug, pairs_plug, pairs_plug, hn', hold]
    simp only [weightStep] at h
    split_ifs at h with hsize
    · simp only [Option.bind_eq_bind, Option.bind_eq_some_iff, Option.some.injEq,
        Prod.mk.injEq] at h
      obtain ⟨n', habsorb, rfl, -, -⟩ := h
      exact hplug n' (absorb_pairs habsorb)
    · simp only [Option.bind_eq_bind, Option.bind_eq_some_iff, Option.some.injEq,
        Prod.mk.injEq] at h
      obtain ⟨n', hsplit, rfl, -, -⟩ := h
      exact hplug n' (split_pairs hsplit)

/-- **AbsorbSibling and Distribute** keep the pairs. -/
theorem degreeStep_pairs {new : List (Node K V)} (hsib : (p.ptrs n)[p.ixToS]? = some sibling)
    (h : degreeStep degree s p path n sibling = some (s', new)) :
    s'.root.pairs = (plug (p :: path) n).pairs := by
  obtain ⟨A⟩ := Adjacent.exists_of_sibling hsib
  have hold : (p.node n).pairs =
      pairsOf A.pre ++ (A.left.pairs ++ A.right.pairs) ++ pairsOf A.post := by
    unfold Frame.node
    rw [pairs_internal, A.ptrs]
    simp
  have hplug : ∀ n' : Node K V,
      n'.pairs = pairsOf A.pre ++ (A.left.pairs ++ A.right.pairs) ++ pairsOf A.post →
      (plug path n').pairs = (plug (p :: path) n).pairs := by
    intro n' hn'
    rw [plug, pairs_plug, pairs_plug, hn', hold]
  simp only [degreeStep, A.left_eq, A.right_eq] at h
  split_ifs at h with hsize hroot
  · -- RootAbsorb
    simp only [Option.bind_eq_bind, Option.bind_eq_some_iff, Option.some.injEq, Prod.mk.injEq] at h
    obtain ⟨k, -, newl, hjoin, rfl, -⟩ := h
    have hlen := A.length_eq
    have htwo := hroot.2
    have hpre : A.pre = [] := List.length_eq_zero_iff.mp (by omega)
    have hpost : A.post = [] := List.length_eq_zero_iff.mp (by omega)
    refine hplug newl ?_
    rw [absorbSibling_pairs hjoin, hpre, hpost]
    simp
  · -- AbsorbSibling
    simp only [Option.bind_eq_bind, Option.bind_eq_some_iff, Option.some.injEq, Prod.mk.injEq] at h
    obtain ⟨k, -, newl, hjoin, rfl, -⟩ := h
    refine hplug _ ?_
    rw [pairs_internal, A.joined, pairsOf_append, pairsOf_cons, absorbSibling_pairs hjoin,
      List.append_assoc (pairsOf A.pre)]
  · -- Distribute
    simp only [Option.bind_eq_bind, Option.bind_eq_some_iff, Option.some.injEq, Prod.mk.injEq] at h
    obtain ⟨k, -, ⟨newleft, keyp, newright⟩, hdist, rfl, -⟩ := h
    refine hplug _ ?_
    rw [pairs_internal, A.ptrs_set, pairsOf_append, pairsOf_append, ← distribute_pairs hdist]
    simp

end

/-! ### Search trees -/

namespace Node

/-- The keys of a leaf, the separators of an internal node. -/
def keys : Node K V → List K
  | leaf _ _ _ entries => entries.map Prod.fst
  | internal _ _ _ keys _ => keys

end Node

/-- The lower bound on the keys at the end of a path: the last separator before the path. -/
def low : List (Frame K V) → WithBot K
  | [] => ⊥
  | p :: path =>
    if p.before.length = 0 then low path
    else (p.keys[p.before.length - 1]?).elim ⊥ fun k => (k : WithBot K)

/-- The upper bound: the next separator behind the path. -/
def high : List (Frame K V) → WithTop K
  | [] => ⊤
  | p :: path => (p.keys[p.before.length]?).elim (high path) fun k => (k : WithTop K)

section

variable [LinearOrder K]

/-- A search tree: at the end of each path the keys are in their range, and in their order. No key
is there twice. -/
structure SearchTree (root : Node K V) : Prop where
  within : ∀ path n, root = plug path n → ∀ k ∈ n.keys, Within (low path) (high path) k
  sorted : ∀ path n, root = plug path n → n.keys.Pairwise (· < ·)
  sizes : ∀ path ptr searchKey weight keys ptrs,
    root = plug path (.internal ptr searchKey weight keys ptrs) → ptrs.length = keys.length + 1
  pairs : (root.pairs.map Prod.fst).Pairwise (· < ·)

/-- The keys below a node, down to the depth `d`: they are in the range and in the order of the
separators. -/
def Ordered : ℕ → WithBot K → WithTop K → Node K V → Prop
  | _, lo, hi, .leaf _ _ _ entries => Pairs lo hi entries
  | d + 1, lo, hi, .internal _ _ _ keys ptrs =>
    Separated (fun l u c => (∃ x, Within l u x) ∧ Ordered d l u c) lo hi keys ptrs
  | 0, _, _, .internal .. => False

variable {d d' h : ℕ} {lo l : WithBot K} {hi u : WithTop K} {n c root : Node K V} {p : Frame K V}
  {path : List (Frame K V)} {keys : List K} {ptrs : List (Node K V)} {ptr : ℕ} {key k : K}
  {weight : Bool} {entries : List (K × V)}

theorem ordered_leaf :
    Ordered d lo hi (.leaf ptr key weight entries : Node K V) ↔ Pairs lo hi entries := by
  unfold Ordered
  exact Iff.rfl

theorem exists_within_and {Q : WithBot K → WithTop K → Node K V → Prop} (l : WithBot K)
    (u : WithTop K) (c : Node K V) (hc : (∃ x, Within l u x) ∧ Q l u c) : ∃ x, Within l u x :=
  hc.1

/-- The pairs of the children follow each other. -/
theorem Separated.pairs
    (hsep : Separated (fun l u c => (∃ x, Within l u x) ∧ Pairs l u c.pairs) lo hi keys ptrs) :
    Pairs lo hi (pairsOf ptrs) := by
  induction hsep with
  | last hc =>
    rw [pairsOf_cons, pairsOf_nil, List.append_nil]
    exact hc.2
  | cons hc rest ih =>
    obtain ⟨x, hx⟩ := hc.1
    obtain ⟨y, hy⟩ := rest.exists_within exists_within_and
    rw [pairsOf_cons]
    exact .append (hx.between hy) hc.2 ih

/-- **The pairs are in the order of their keys.** -/
theorem Ordered.pairs (hn : Ordered d lo hi n) : Pairs lo hi n.pairs := by
  induction d generalizing lo hi n with
  | zero =>
    cases n with
    | leaf =>
      rw [pairs_leaf]
      exact ordered_leaf.mp hn
    | internal => exact hn.elim
  | succ d ih =>
    cases n with
    | leaf =>
      rw [pairs_leaf]
      exact ordered_leaf.mp hn
    | internal =>
      rw [pairs_internal]
      exact Separated.pairs (Separated.imp (fun _ _ _ hc => ⟨hc.1, ih hc.2⟩) hn)

/-- The separators are in their order, and so are the keys of a leaf. -/
theorem Ordered.keys_sorted (hn : Ordered d lo hi n) :
    (∀ k ∈ n.keys, Within lo hi k) ∧ n.keys.Pairwise (· < ·) := by
  cases n with
  | leaf ptr searchKey weight entries =>
    have hpairs : Pairs lo hi entries := ordered_leaf.mp hn
    refine ⟨fun k hk => ?_, hpairs.sorted⟩
    obtain ⟨e, he, rfl⟩ := List.mem_map.mp hk
    exact hpairs.within e he
  | internal ptr searchKey weight keys ptrs =>
    cases d with
    | zero => exact hn.elim
    | succ d =>
      have hsep : Separated (fun l u c => (∃ x, Within l u x) ∧ Ordered d l u c) lo hi
          keys ptrs := hn
      exact ⟨fun k hk => hsep.within exists_within_and hk, hsep.sorted exists_within_and⟩

/-- **Taking the tree apart**, with any other subtree of the same range in the place of the one at
the end of the path. -/
theorem Ordered.unplug (hroot : Ordered d ⊥ ⊤ (plug path n)) :
    ∃ d', Ordered d' (low path) (high path) n ∧
      ∀ n', Ordered d' (low path) (high path) n' → Ordered d ⊥ ⊤ (plug path n') := by
  induction path generalizing n with
  | nil => exact ⟨d, hroot, fun _ hn' => hn'⟩
  | cons p path ih =>
    obtain ⟨d', hp, hplug⟩ := ih hroot
    cases d' with
    | zero => exact hp.elim
    | succ d' =>
      obtain ⟨ksL, ksR, l, u, hkeys, hole, hn⟩ := Separated.hole hp
      have hlow : low (p :: path) = l := by
        rw [hole.left_eq, ← hkeys]
        rfl
      have hhigh : high (p :: path) = u := by
        rw [hole.right_eq, ← hkeys]
        rfl
      rw [hlow, hhigh]
      refine ⟨d', hn.2, fun n' hn' => hplug (p.node n') ?_⟩
      have hfill := hole.fill (.last ⟨hn.1, hn'⟩)
      simp only [List.append_nil, List.append_assoc, List.singleton_append] at hfill
      rw [← hkeys] at hfill
      exact hfill

theorem Ordered.searchTree (hroot : Ordered d ⊥ ⊤ root) : SearchTree root := by
  refine ⟨?_, ?_, ?_, hroot.pairs.sorted⟩
  · rintro path n rfl
    obtain ⟨d', hn, -⟩ := hroot.unplug
    exact hn.keys_sorted.1
  · rintro path n rfl
    obtain ⟨d', hn, -⟩ := hroot.unplug
    exact hn.keys_sorted.2
  · rintro path ptr searchKey weight keys ptrs rfl
    obtain ⟨d', hn, -⟩ := hroot.unplug
    cases d' with
    | zero => exact hn.elim
    | succ d' => exact Separated.length_eq hn

end

section

variable [LinearOrder K] {fuel : ℕ} {path path' : List (Frame K V)} {n n' : Node K V} {k : K}
  {stop : Option ℕ}

/-- A search ends at a node of the tree, with the path to it. -/
theorem search_sound (h : search fuel path n k stop = some (path', n')) :
    plug path' n' = plug path n := by
  induction fuel generalizing path n with
  | zero => simp [search] at h
  | succ fuel ih =>
    cases n with
    | leaf ptr searchKey weight entries =>
      obtain ⟨rfl, rfl⟩ := Prod.mk.inj (Option.some.inj h)
      rfl
    | internal ptr searchKey weight keys ptrs =>
      simp only [search] at h
      split_ifs at h
      · obtain ⟨rfl, rfl⟩ := Prod.mk.inj (Option.some.inj h)
        rfl
      · cases hget : ptrs[getChildIndex k keys]? with
        | none => simp [hget] at h
        | some l =>
          rw [hget] at h
          obtain ⟨hlt, hl⟩ := List.getElem?_eq_some_iff.mp hget
          have hptrs : ptrs.take (getChildIndex k keys) ++
              l :: ptrs.drop (getChildIndex k keys + 1) = ptrs := by
            rw [← hl, List.getElem_cons_drop hlt, List.take_append_drop]
          refine (ih h).trans ?_
          rw [plug]
          unfold Frame.node Frame.ptrs
          rw [hptrs]

end

/-! ### One pair -/

/-- The list of the pairs is cut at a pair of a leaf. -/
theorem exists_middle (path : List (Frame K V)) {entries : List (K × V)} {i : ℕ} {e₀ : K × V}
    (he₀ : entries[i]? = some e₀) :
    ∃ A B, (∀ n, n.pairs = entries → (plug path n).pairs = A ++ e₀ :: B) ∧
      (∀ n e, n.pairs = entries.set i e → (plug path n).pairs = A ++ e :: B) ∧
      ∀ n, n.pairs = entries.eraseIdx i → (plug path n).pairs = A ++ B := by
  obtain ⟨hi, hget⟩ := List.getElem?_eq_some_iff.mp he₀
  have hsplit : entries = entries.take i ++ e₀ :: entries.drop (i + 1) := by
    rw [← hget, List.getElem_cons_drop hi, List.take_append_drop]
  refine ⟨pairsBefore path ++ entries.take i, entries.drop (i + 1) ++ pairsAfter path,
    fun n hn => ?_, fun n e hn => ?_, fun n hn => ?_⟩
  · rw [pairs_plug, hn]
    nth_rewrite 1 [hsplit]
    simp only [List.append_assoc, List.cons_append]
  · rw [pairs_plug, hn, List.set_eq_take_append_cons_drop, if_pos hi]
    simp only [List.append_assoc, List.cons_append]
  · rw [pairs_plug, hn, List.eraseIdx_eq_take_drop_succ]
    simp only [List.append_assoc]

theorem insertIdx_eq {entries : List (K × V)} {i : ℕ} {e : K × V} (hi : i ≤ entries.length) :
    entries.insertIdx i e = entries.take i ++ e :: entries.drop i := by
  induction entries generalizing i with
  | nil =>
    obtain rfl := Nat.le_zero.mp hi
    rfl
  | cons e₁ entries ih =>
    cases i with
    | zero => rfl
    | succ i =>
      rw [List.insertIdx_succ_cons, ih (Nat.le_of_succ_le_succ hi)]
      rfl

/-- It is cut between two pairs. -/
theorem exists_gap (path : List (Frame K V)) {entries : List (K × V)} {i : ℕ}
    (hi : i ≤ entries.length) :
    ∃ A B, (∀ n, n.pairs = entries → (plug path n).pairs = A ++ B) ∧
      ∀ n e, n.pairs = entries.insertIdx i e → (plug path n).pairs = A ++ e :: B := by
  refine ⟨pairsBefore path ++ entries.take i, entries.drop i ++ pairsAfter path,
    fun n hn => ?_, fun n e hn => ?_⟩
  · rw [pairs_plug, hn]
    nth_rewrite 1 [← List.take_append_drop i entries]
    simp only [List.append_assoc]
  · rw [pairs_plug, hn, insertIdx_eq hi]
    simp only [List.append_assoc, List.cons_append]

section

variable [LinearOrder K] {A B : List (K × V)} {e e₀ : K × V}

/-- The pairs but one are those with other keys. -/
theorem mem_middle (hsorted : ((A ++ e₀ :: B).map Prod.fst).Pairwise (· < ·)) :
    e ∈ A ++ B ↔ e ∈ A ++ e₀ :: B ∧ e.1 ≠ e₀.1 := by
  have hnodup : ((A ++ e₀ :: B).map Prod.fst).Nodup := hsorted.imp fun hlt => ne_of_lt hlt
  rw [List.map_append, List.map_cons, List.nodup_middle, List.nodup_cons, ← List.map_append]
    at hnodup
  constructor
  · intro he
    refine ⟨?_, fun heq => hnodup.1 ?_⟩
    · simp only [List.mem_append, List.mem_cons] at he ⊢
      tauto
    · rw [← heq]
      exact List.mem_map_of_mem he
  · rintro ⟨he, hne⟩
    simp only [List.mem_append, List.mem_cons] at he ⊢
    rcases he with he | rfl | he
    · exact .inl he
    · exact absurd rfl hne
    · exact .inr he

/-- A pair is put into the place of another one with the same key. -/
theorem mem_replaced (hsorted : ((A ++ e₀ :: B).map Prod.fst).Pairwise (· < ·)) {value : V} :
    e ∈ A ++ (e₀.1, value) :: B ↔ e = (e₀.1, value) ∨ e ∈ A ++ e₀ :: B ∧ e.1 ≠ e₀.1 := by
  rw [← mem_middle hsorted]
  simp only [List.mem_append, List.mem_cons]
  tauto

/-- A pair is put between the others. -/
theorem mem_inserted (hsorted : ((A ++ e₀ :: B).map Prod.fst).Pairwise (· < ·)) :
    e ∈ A ++ e₀ :: B ↔ e = e₀ ∨ e ∈ A ++ B ∧ e.1 ≠ e₀.1 := by
  constructor
  · intro he
    by_cases heq : e = e₀
    · exact .inl heq
    · have hrest : e ∈ A ++ B := by
        simp only [List.mem_append, List.mem_cons] at he ⊢
        tauto
      exact .inr ⟨hrest, ((mem_middle hsorted).mp hrest).2⟩
  · simp only [List.mem_append, List.mem_cons]
    tauto

/-! ### A leaf is replaced -/

/-- The key has got the value, and all other pairs are as before. -/
def Inserted (key : K) (value : V) (before after : List (K × V)) : Prop :=
  ∀ e, e ∈ after ↔ e = (key, value) ∨ e ∈ before ∧ e.1 ≠ key

/-- The key was there and is not there any more, and all other pairs are as before. -/
structure Erased (key : K) (before after : List (K × V)) : Prop where
  mem : ∃ value, (key, value) ∈ before
  mem_iff : ∀ e, e ∈ after ↔ e ∈ before ∧ e.1 ≠ key

variable {path : List (Frame K V)} {n n' : Node K V} {entries : List (K × V)} {i : ℕ} {key : K}
  {oldValue value : V}

theorem pairAt_key {e : K × V} (h : pairAt entries i key = some e) : e.1 = key := by
  simpa using (Option.filter_eq_some_iff.mp h).2

theorem inserted_set (hentries : entries[i]? = some (key, oldValue)) (hn : n.pairs = entries)
    (hn' : n'.pairs = entries.set i (key, value))
    (hsorted : ((plug path n).pairs.map Prod.fst).Pairwise (· < ·)) :
    Inserted key value (plug path n).pairs (plug path n').pairs := by
  obtain ⟨A, B, hold, hset, -⟩ := exists_middle path hentries
  rw [hold n hn] at hsorted ⊢
  rw [hset n' _ hn']
  exact fun e => mem_replaced hsorted

theorem inserted_insertIdx (hi : i ≤ entries.length) (hn : n.pairs = entries)
    (hn' : n'.pairs = entries.insertIdx i (key, value))
    (hsorted : ((plug path n').pairs.map Prod.fst).Pairwise (· < ·)) :
    Inserted key value (plug path n).pairs (plug path n').pairs := by
  obtain ⟨A, B, hold, hnew⟩ := exists_gap path hi
  rw [hnew n' _ hn'] at hsorted ⊢
  rw [hold n hn]
  exact fun e => mem_inserted hsorted

theorem erased_eraseIdx (hentries : entries[i]? = some (key, oldValue)) (hn : n.pairs = entries)
    (hn' : n'.pairs = entries.eraseIdx i)
    (hsorted : ((plug path n).pairs.map Prod.fst).Pairwise (· < ·)) :
    Erased key (plug path n).pairs (plug path n').pairs := by
  obtain ⟨A, B, hold, -, herase⟩ := exists_middle path hentries
  rw [hold n hn] at hsorted ⊢
  rw [herase n' hn']
  exact ⟨⟨oldValue, by simp⟩, fun e => mem_middle hsorted⟩

end

end AbTree
end PopSetbench

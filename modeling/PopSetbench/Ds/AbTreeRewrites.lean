import PopSetbench.Ds.AbTreeRuns
import Mathlib.Algebra.Order.Group.Multiset
import Mathlib.Data.Multiset.UnionInter
import Mathlib.Tactic.Abel

/-!
# The relaxed (a,b)-tree: old and new nodes

The addresses of a tree are a multiset without repetitions (`Relaxed.nodup`). A step takes the nodes
`gone` out of it, and brings new ones, each of which is as it should be, is the root, or has one of
the `calls` to come (`Rewrites`).

* `Fresh` describes the new subtree that a step puts at the end of a path.
* `insertStep_rewrites`, `eraseStep_rewrites`, `weightStep_rewrites` and `degreeStep_rewrites` say
  for each step what it takes out and which calls follow.
-/

namespace PopSetbench
namespace AbTree

variable {K V : Type}

/-! ### Addresses -/

mutual

/-- The addresses of the nodes of a subtree. -/
def Node.addresses : Node K V → Multiset ℕ
  | .leaf ptr .. => {ptr}
  | .internal ptr _ _ _ ptrs => {ptr} + addressesOf ptrs

/-- The same for the children of a node. -/
def addressesOf : List (Node K V) → Multiset ℕ
  | [] => 0
  | c :: cs => c.addresses + addressesOf cs

end

/-- The addresses below a node. -/
def Node.children : Node K V → Multiset ℕ
  | .leaf .. => 0
  | .internal _ _ _ _ ptrs => addressesOf ptrs

/-- The addresses of a path, and of what hangs on it. -/
def pathAddresses : List (Frame K V) → Multiset ℕ
  | [] => 0
  | p :: path => {p.ptr} + addressesOf p.before + addressesOf p.after + pathAddresses path

section

variable {n c d : Node K V} {cs cs' : List (Node K V)} {p : Frame K V} {path : List (Frame K V)}
  {x : ℕ}

@[simp] theorem addressesOf_nil : addressesOf ([] : List (Node K V)) = 0 := by
  unfold addressesOf
  rfl

@[simp] theorem addressesOf_cons : addressesOf (c :: cs) = c.addresses + addressesOf cs := by
  rw [addressesOf]

@[simp] theorem addressesOf_append :
    addressesOf (cs ++ cs') = addressesOf cs + addressesOf cs' := by
  induction cs with
  | nil => simp
  | cons c cs ih => simp [ih, add_assoc]

theorem addresses_eq (n : Node K V) : n.addresses = {n.ptr} + n.children := by
  cases n with
  | leaf =>
    unfold Node.addresses Node.children
    exact (add_zero _).symm
  | internal =>
    unfold Node.addresses Node.children
    rfl

theorem mem_addressesOf : x ∈ addressesOf cs ↔ ∃ c ∈ cs, x ∈ c.addresses := by
  induction cs with
  | nil => simp
  | cons c cs ih => simp [ih]

theorem ptr_mem_addresses (n : Node K V) : n.ptr ∈ n.addresses := by
  rw [addresses_eq]
  simp

theorem addresses_node : (p.node n).addresses = {p.ptr} + addressesOf (p.ptrs n) := by
  rw [addresses_eq]
  rfl

theorem addresses_plug (path : List (Frame K V)) (n : Node K V) :
    (plug path n).addresses = pathAddresses path + n.addresses := by
  induction path generalizing n with
  | nil =>
    unfold plug pathAddresses
    rw [zero_add]
  | cons p path ih =>
    calc (plug (p :: path) n).addresses = pathAddresses path + (p.node n).addresses := ih _
      _ = pathAddresses (p :: path) + n.addresses := by
        rw [addresses_node, pathAddresses, Frame.ptrs]
        simp only [addressesOf_append, addressesOf_cons]
        abel

/-- The nodes of a subtree are those with these addresses. -/
theorem Inside.mem (hd : Inside n d) : d.ptr ∈ n.addresses := by
  induction hd with
  | refl => exact ptr_mem_addresses _
  | child hc hd ih =>
    rw [addresses_eq]
    exact Multiset.mem_add.mpr (.inr (mem_addressesOf.mpr ⟨_, hc, ih⟩))

mutual

theorem exists_inside : ∀ {n : Node K V}, x ∈ n.addresses → ∃ d, Inside n d ∧ d.ptr = x
  | .leaf ptr searchKey weight entries, hx => by
    unfold Node.addresses at hx
    exact ⟨_, .refl, (Multiset.mem_singleton.mp hx).symm⟩
  | .internal ptr searchKey weight keys ptrs, hx => by
    unfold Node.addresses at hx
    rcases Multiset.mem_add.mp hx with hx | hx
    · exact ⟨_, .refl, (Multiset.mem_singleton.mp hx).symm⟩
    · obtain ⟨c, hc, d, hd, hptr⟩ := exists_insideOf hx
      exact ⟨d, .child hc hd, hptr⟩

theorem exists_insideOf : ∀ {cs : List (Node K V)}, x ∈ addressesOf cs →
    ∃ c ∈ cs, ∃ d, Inside c d ∧ d.ptr = x
  | [], hx => by simp at hx
  | c :: cs, hx => by
    rw [addressesOf_cons] at hx
    rcases Multiset.mem_add.mp hx with hx | hx
    · obtain ⟨d, hd⟩ := exists_inside hx
      exact ⟨c, List.mem_cons_self, d, hd⟩
    · obtain ⟨c', hc', d, hd⟩ := exists_insideOf hx
      exact ⟨c', List.mem_cons_of_mem _ hc', d, hd⟩

end

/-- What is in a tree is at the end of the path, or on it. -/
theorem inside_plug_cases (hd : Inside (plug path n) d) :
    Inside n d ∨ d.ptr ∈ pathAddresses path := by
  induction path generalizing n with
  | nil => exact .inl hd
  | cons p path ih =>
    have hon : ∀ {x}, x ∈ ({p.ptr} + addressesOf p.before + addressesOf p.after : Multiset ℕ) →
        x ∈ pathAddresses (p :: path) := by
      intro x hx
      rw [pathAddresses]
      exact Multiset.mem_add.mpr (.inl hx)
    rcases ih hd with hd | hd
    · unfold Frame.node Frame.ptrs at hd
      cases hd with
      | refl => exact .inr (hon (by simp [Node.ptr]))
      | @child _ _ _ _ _ c _ hc hd =>
        rcases List.mem_append.mp hc with hc | hc
        · exact .inr (hon (by simp [mem_addressesOf.mpr ⟨c, hc, hd.mem⟩]))
        · rcases List.mem_cons.mp hc with heq | hc
          · rw [heq] at hd
            exact .inl hd
          · exact .inr (hon (by simp [mem_addressesOf.mpr ⟨c, hc, hd.mem⟩]))
    · refine .inr ?_
      rw [pathAddresses]
      exact Multiset.mem_add.mpr (.inr hd)

end

section

variable [LinearOrder K] {S : Scheme K} {h : ℕ} {lo : WithBot K} {hi : WithTop K} {n : Node K V}
  {cs : List (Node K V)} {keys : List K} {x : ℕ}

/-- The search key of a node below is in the range. -/
theorem Relaxed.within_of_mem (hn : Relaxed S h lo hi n) (hx : x ∈ n.addresses) :
    x < S.next ∧ Within lo hi (S.info x).searchKey := by
  obtain ⟨d, hd, rfl⟩ := exists_inside hx
  obtain ⟨_, _, _, hrel⟩ := hd.relaxed hn
  have hkey := hrel.within_searchKey
  have hinfo : (S.info d.ptr).searchKey = d.searchKey := by
    rw [hrel.label.info]
    rfl
  rw [hinfo]
  exact ⟨hrel.label.ptr_lt, hn.within_of_inside hd hkey⟩

theorem Separated.within_of_mem (hsep : Separated (Relaxed S h) lo hi keys cs)
    (hx : x ∈ addressesOf cs) : lo ≤ (S.info x).searchKey := by
  obtain ⟨c, hc, hx⟩ := mem_addressesOf.mp hx
  obtain ⟨l, u, hchild, hle, -⟩ := hsep.forall_mem_le Relaxed.exists_within hc
  exact hle.trans (hchild.within_of_mem hx).2.1

/-- The children of a node have no address in common. -/
theorem Separated.nodup (hsep : Separated (fun l u c => Relaxed S h l u c ∧ c.addresses.Nodup)
    lo hi keys cs) : (addressesOf cs).Nodup := by
  induction hsep with
  | last hc => simpa using hc.2
  | @cons lo hi c ks cs k hc rest ih =>
    rw [addressesOf_cons]
    refine Multiset.nodup_add.mpr ⟨hc.2, ih, Multiset.disjoint_left.mpr ?_⟩
    intro x hx hx'
    have hbelow := (hc.1.within_of_mem hx).2.2
    have habove := Separated.within_of_mem (rest.imp fun _ _ _ hc => hc.1) hx'
    exact absurd (WithBot.coe_le_coe.mp habove) (not_le.mpr (WithTop.coe_lt_coe.mp hbelow))

/-- **No address twice.** -/
theorem Relaxed.nodup (hn : Relaxed S h lo hi n) : n.addresses.Nodup := by
  refine Relaxed.induct (motive := fun _ _ _ n => n.addresses.Nodup) ?_ ?_ hn
  · intro lo hi ptr searchKey weight entries _ _
    unfold Node.addresses
    exact Multiset.nodup_singleton _
  · intro h lo hi ptr searchKey weight keys ptrs hlabel hsep
    unfold Node.addresses
    refine Multiset.nodup_add.mpr ⟨Multiset.nodup_singleton _, Separated.nodup hsep, ?_⟩
    rw [Multiset.singleton_disjoint]
    intro hmem
    -- the part of a node below is smaller
    have hrel : Relaxed S (h + weight.toNat) lo hi (.internal ptr searchKey weight keys ptrs) :=
      relaxed_internal.mpr ⟨hlabel, h, rfl, hsep.imp fun _ _ _ hc => hc.1⟩
    obtain ⟨c, hc, d, hd, hptr⟩ := exists_insideOf hmem
    obtain ⟨_, _, hchild⟩ := hsep.forall_mem hc
    have hlt := (hd.part_le hchild.1).trans_lt (hrel.child_part_lt hc)
    rw [hptr] at hlt
    exact absurd hlt (lt_irrefl _)

end

/-! ### What is wrong with a node -/

/-- The repair that a node needs, unless it is the root. -/
def due (degree : ℕ) (weight : Bool) (size x : ℕ) : Option (Goal K V) :=
  if weight = false then some (.weight x)
  else if size < minDegree degree then some (.degree x) else none

/-- What a task is for. -/
def Task.goal : Task K V → Goal K V
  | .fixWeightViolation viol => .weight viol
  | .fixDegreeViolation viol => .degree viol
  | .llx goal | .loop goal | .search goal _ _ => goal

/-- The node is as it should be, or its repair is one of these calls. -/
def Settled (degree : ℕ) (calls : List (Task K V)) (d : Node K V) : Prop :=
  ∀ g, due degree d.weight d.getABDegree d.ptr = some g → g ∈ calls.map Task.goal

/-- A new subtree: old nodes with the addresses `kept`, and new ones that satisfy `P`. -/
def Fresh (N : ℕ) (kept : Multiset ℕ) (P : Node K V → Prop) (n : Node K V) : Prop :=
  ∀ d, Inside n d → d.ptr ∈ kept ∨ N ≤ d.ptr ∧ P d

/-- **What a step does to the nodes of the tree.** -/
structure Rewrites (degree : ℕ) (s s' : State K V) (gone : Multiset ℕ) (calls : List (Task K V)) :
    Prop where
  inside : ∀ d, Inside s'.root d → d.ptr ∈ s.root.addresses ∧ d.ptr ∉ gone ∨
    s.next ≤ d.ptr ∧ (Settled degree calls d ∨ d.ptr = s'.root.ptr)
  finalized : ∀ x ∈ s'.finalized, x ∈ s.finalized ∨ x ∈ gone
  mem : ∀ x ∈ gone, x ∈ s.root.addresses
  root : s'.root.ptr = s.root.ptr ∨ s.root.ptr ∈ gone
  two_le : (s.root.isLeaf = false → 2 ≤ s.root.getABDegree) →
    s'.root.isLeaf = false → 2 ≤ s'.root.getABDegree

section

variable {degree N ptr : ℕ} {w weight : Bool} {key k searchKey : K} {keys : List K}
  {ptrs : List (Node K V)} {entries : List (K × V)} {n n₀ c d left right x y sibling : Node K V}
  {p : Frame K V} {path : List (Frame K V)} {s s' : State K V} {kept : Multiset ℕ}
  {P : Node K V → Prop} {calls : List (Task K V)} {removed : List ℕ} {allocated : ℕ}
  {gone : Multiset ℕ}

theorem settled_of_le (hw : d.weight = true) (hsize : minDegree degree ≤ d.getABDegree) :
    Settled degree calls d := by
  intro g hg
  unfold due at hg
  rw [hw, if_neg Bool.true_eq_false_eq_False, if_neg hsize.not_gt] at hg
  cases hg

theorem settled_of_call (hw : d.weight = true) (hcall : .degree d.ptr ∈ calls.map Task.goal) :
    Settled degree calls d := by
  intro g hg
  unfold due at hg
  rw [hw, if_neg Bool.true_eq_false_eq_False] at hg
  split_ifs at hg
  rwa [← Option.some.inj hg]

theorem settled_of_zero (hw : d.weight = false) (hcall : .weight d.ptr ∈ calls.map Task.goal) :
    Settled degree calls d := by
  intro g hg
  unfold due at hg
  rw [if_pos hw] at hg
  rwa [← Option.some.inj hg]

theorem Fresh.of_mem (hn : ∀ x ∈ n.addresses, x ∈ kept) : Fresh N kept P n :=
  fun _ hd => .inl (hn _ hd.mem)

theorem Fresh.leaf (hptr : N ≤ ptr) (hP : P (.leaf ptr searchKey weight entries)) :
    Fresh N kept P (.leaf ptr searchKey weight entries) := by
  intro d hd
  cases hd with
  | refl => exact .inr ⟨hptr, hP⟩

theorem Fresh.internal (hptr : N ≤ ptr) (hP : P (.internal ptr searchKey weight keys ptrs))
    (hptrs : ∀ c ∈ ptrs, Fresh N kept P c) :
    Fresh N kept P (.internal ptr searchKey weight keys ptrs) := by
  intro d hd
  cases hd with
  | refl => exact .inr ⟨hptr, hP⟩
  | child hc hd => exact hptrs _ hc d hd

theorem Fresh.pair (hx : Fresh N kept P x) (hy : Fresh N kept P y) :
    ∀ c ∈ [x, y], Fresh N kept P c := by
  intro c hc
  rcases List.mem_pair.mp hc with rfl | rfl
  · exact hx
  · exact hy

/-- Children that stay. -/
theorem Fresh.children (hptrs : addressesOf ptrs ≤ kept) : ∀ c ∈ ptrs, Fresh N kept P c :=
  fun _ hc => .of_mem fun _ hx => Multiset.mem_of_le hptrs (mem_addressesOf.mpr ⟨_, hc, hx⟩)

/-- The node at the beginning of a path stays, but for its child. -/
theorem plug_cons_size (path : List (Frame K V)) (p : Frame K V) (n n' : Node K V) :
    (plug (p :: path) n).isLeaf = (plug (p :: path) n').isLeaf ∧
      (plug (p :: path) n).getABDegree = (plug (p :: path) n').getABDegree := by
  induction path generalizing p n n' with
  | nil => exact ⟨rfl, (p.getABDegree_node n).trans (p.getABDegree_node n').symm⟩
  | cons q path ih => exact ih q (p.node n) (p.node n')

/-- **A new subtree at the end of a path.** -/
theorem Rewrites.scxExecute (hnodup : s.root.addresses.Nodup) (hroot : s.root = plug path n₀)
    (hold : n₀.addresses = gone + kept) (hptr : n₀.ptr ∈ gone)
    (hn : Fresh s.next kept (fun d => Settled degree calls d ∨ path = [] ∧ d = n) n)
    (hremoved : ∀ x ∈ removed, x ∈ gone)
    (htwo : path = [] → (n₀.isLeaf = false → 2 ≤ n₀.getABDegree) →
      n.isLeaf = false → 2 ≤ n.getABDegree) :
    Rewrites degree s (s.scxExecute path n allocated removed) gone calls := by
  have hadd : s.root.addresses = pathAddresses path + (gone + kept) := by
    rw [hroot, addresses_plug, hold]
  rw [hadd] at hnodup
  obtain ⟨-, hnodup', hpath⟩ := Multiset.nodup_add.mp hnodup
  obtain ⟨-, -, hkept⟩ := Multiset.nodup_add.mp hnodup'
  refine ⟨fun d hd => ?_, fun x hx => ?_, fun x hx => ?_, ?_, fun hlarge => ?_⟩
  · rw [hadd]
    rcases inside_plug_cases hd with hd | hd
    · rcases hn d hd with hin | ⟨hnew, hd⟩
      · refine .inl ⟨by simp [hin], fun hgone => ?_⟩
        exact Multiset.disjoint_left.mp hkept hgone hin
      · refine .inr ⟨hnew, hd.imp id ?_⟩
        rintro ⟨rfl, rfl⟩
        rfl
    · refine .inl ⟨by simp [hd], fun hgone => ?_⟩
      exact Multiset.disjoint_left.mp hpath hd (by simp [hgone])
  · rcases List.mem_append.mp hx with hx | hx
    · exact .inr (hremoved x hx)
    · exact .inl hx
  · rw [hadd]
    simp [hx]
  · cases path with
    | nil =>
      obtain rfl : s.root = n₀ := hroot
      exact .inr hptr
    | cons p path =>
      rw [hroot]
      exact .inl (plug_cons_ptr path p n n₀)
  · cases path with
    | nil =>
      obtain rfl : s.root = n₀ := hroot
      exact htwo rfl hlarge
    | cons p path =>
      obtain ⟨hleaf, hsize⟩ := plug_cons_size path p n n₀
      rw [hroot] at hlarge
      show (plug (p :: path) n).isLeaf = false → 2 ≤ (plug (p :: path) n).getABDegree
      rwa [hleaf, hsize]

end

/-! ### The new nodes -/

section

variable {degree N ptr : ℕ} {w : Bool} {key k searchKey : K} {keys : List K}
  {ptrs : List (Node K V)} {entries : List (K × V)} {n left right x y : Node K V}
  {kept : Multiset ℕ} {P : Node K V → Prop}

theorem absorb_fresh (hptrs : addressesOf ptrs ≤ kept)
    (hn : n.weight = true → P n) (h : absorb N keys ptrs = some n) :
    Fresh N kept P n ∧ n.getABDegree = ptrs.length := by
  simp only [absorb, Option.bind_eq_bind, Option.bind_eq_some_iff] at h
  obtain ⟨searchKey, -, h⟩ := h
  obtain rfl := Option.some.inj h
  exact ⟨.internal le_rfl (hn rfl) (.children hptrs), rfl⟩

theorem split_fresh (hptrs : addressesOf ptrs ≤ kept)
    (hP : ∀ d : Node K V, d.weight = true → ptrs.length / 2 ≤ d.getABDegree → P d)
    (hn : n.weight = w → P n) (h : split N w keys ptrs = some n) :
    Fresh N kept P n ∧ n.getABDegree = 2 := by
  simp only [split, Option.bind_eq_bind, Option.bind_eq_some_iff] at h
  obtain ⟨first, -, middle, -, second, -, h⟩ := h
  obtain rfl := Option.some.inj h
  have hall := Fresh.children (N := N) (P := P) hptrs
  refine ⟨.internal (Nat.le_add_right ..) (hn rfl) (.pair ?_ ?_), rfl⟩
  · refine .internal le_rfl (hP _ rfl ?_) fun c hc => hall c (List.mem_of_mem_take hc)
    simp only [Node.getABDegree, List.length_take]
    omega
  · refine .internal (Nat.le_succ _) (hP _ rfl ?_) fun c hc => hall c (List.mem_of_mem_drop hc)
    simp only [Node.getABDegree, List.length_drop]
    omega

theorem overflow_fresh (hlen : entries.length = degree + 1)
    (hP : ∀ d : Node K V, d.weight = true → (degree + 1) / 2 ≤ d.getABDegree → P d)
    (hn : n.weight = w → P n) (h : overflow degree N w entries = some n) :
    Fresh N kept P n ∧ n.getABDegree = 2 := by
  simp only [overflow, Option.bind_eq_bind, Option.bind_eq_some_iff] at h
  obtain ⟨first, -, second, -, h⟩ := h
  obtain rfl := Option.some.inj h
  refine ⟨.internal (Nat.le_add_right ..) (hn rfl) (.pair ?_ ?_), rfl⟩
  · refine .leaf le_rfl (hP _ rfl ?_)
    simp only [Node.getABDegree, List.length_take]
    omega
  · refine .leaf (Nat.le_succ _) (hP _ rfl ?_)
    simp only [Node.getABDegree, List.length_take, List.length_drop]
    omega

theorem absorbSibling_fresh (hkept : left.children + right.children ≤ kept) (hptr : N ≤ ptr)
    (hn : n.weight = true → P n) (h : absorbSibling ptr key left right k = some n) :
    Fresh N kept P n ∧ (n.isLeaf = false → left.isLeaf = false ∧ right.isLeaf = false) ∧
      n.getABDegree = left.getABDegree + right.getABDegree := by
  unfold absorbSibling at h
  split at h
  · obtain rfl := Option.some.inj h
    exact ⟨.leaf hptr (hn rfl), fun hleaf => Bool.noConfusion hleaf, List.length_append⟩
  · obtain rfl := Option.some.inj h
    refine ⟨.internal hptr (hn rfl) (.children ?_), fun _ => ⟨rfl, rfl⟩, List.length_append⟩
    rw [addressesOf_append]
    exact hkept
  · cases h

theorem distribute_fresh (hkept : left.children + right.children ≤ kept) (hptr : N ≤ ptr)
    (hP : ∀ d : Node K V, d.weight = true →
      (left.getABDegree + right.getABDegree) / 2 ≤ d.getABDegree → P d)
    (h : distribute ptr left right k = some (x, key, y)) :
    Fresh N kept P x ∧ Fresh N kept P y := by
  have hptr' : N ≤ ptr + 1 := hptr.trans (Nat.le_succ _)
  unfold distribute at h
  split at h
  · simp only [Option.bind_eq_bind, Option.bind_eq_some_iff, Option.some.injEq, Prod.mk.injEq] at h
    obtain ⟨first, -, middle, -, second, -, rfl, -, rfl⟩ := h
    constructor
    · refine .leaf hptr (hP _ rfl ?_)
      simp only [Node.getABDegree, List.length_take, List.length_append]
      omega
    · refine .leaf hptr' (hP _ rfl ?_)
      simp only [Node.getABDegree, List.length_drop, List.length_append]
      omega
  · simp only [Option.bind_eq_bind, Option.bind_eq_some_iff, Option.some.injEq, Prod.mk.injEq] at h
    obtain ⟨first, -, middle, -, second, -, rfl, -, rfl⟩ := h
    have hall := Fresh.children (N := N) (P := P) ((addressesOf_append ..).trans_le hkept)
    constructor
    · refine .internal hptr (hP _ rfl ?_) fun c hc => hall c (List.mem_of_mem_take hc)
      simp only [Node.getABDegree, List.length_take, List.length_append]
      omega
    · refine .internal hptr' (hP _ rfl ?_) fun c hc => hall c (List.mem_of_mem_drop hc)
      simp only [Node.getABDegree, List.length_drop, List.length_append]
      omega
  · cases h

end

/-! ### The steps of the tree -/

section

variable [LinearOrder K] {S : Scheme K} {ptr : ℕ} {searchKey key : K} {weight replace zero : Bool}
  {value : V} {entries : List (K × V)} {n l sibling : Node K V} {p : Frame K V}
  {path : List (Frame K V)} {s s' : State K V} {task : Task K V} {new : List (Node K V)}

theorem minDegree_le {degree : ℕ} (hthree : 3 ≤ degree) : minDegree degree ≤ (degree + 1) / 2 := by
  unfold minDegree
  omega

theorem State.Regular.nodup (hs : s.Regular S) : s.root.addresses.Nodup := by
  obtain ⟨h, hroot⟩ := hs.root
  exact hroot.nodup

theorem State.Regular.label (hs : s.Regular S) (hroot : s.root = plug path n) :
    ∃ h lo hi, Labeled S h lo hi n := by
  obtain ⟨h, hrelaxed⟩ := hs.root
  rw [hroot] at hrelaxed
  obtain ⟨h', lo, hi, -, hn⟩ := hrelaxed.unplug
  exact ⟨h', lo, hi, hn.label⟩

theorem State.Regular.leaf (hs : s.Regular S)
    (hroot : s.root = plug path (.leaf ptr searchKey weight entries)) :
    weight = true ∧ entries.length ≤ S.degree := by
  obtain ⟨h, lo, hi, hlabel⟩ := hs.label hroot
  refine ⟨?_, hlabel.size_le⟩
  by_contra hzero
  exact Bool.noConfusion (hlabel.zero (Bool.eq_false_iff.mpr hzero)).1

/-- A new leaf in the place of a leaf. -/
theorem Rewrites.leaf {searchKey' : K} {entries' : List (K × V)} (hs : s.Regular S)
    (hroot : s.root = plug path (.leaf ptr searchKey weight entries)) :
    Rewrites S.degree s (s.scxExecute path (.leaf s.next searchKey' true entries') 1 []) {ptr}
      [.fixDegreeViolation s.next] := by
  have hold : (Node.leaf ptr searchKey weight entries).addresses = {ptr} + 0 := by
    rw [addresses_eq]
    rfl
  refine .scxExecute hs.nodup hroot hold (Multiset.mem_singleton_self _)
    (.leaf le_rfl (.inl (settled_of_call rfl ?_))) (fun x hx => ?_) fun _ _ hleaf => ?_
  · exact List.mem_singleton.mpr rfl
  · cases hx
  · exact Bool.noConfusion hleaf

theorem insertStep_rewrites (hs : s.Regular S)
    (hroot : s.root = plug path (.leaf ptr searchKey weight entries))
    (h : insertStep S.degree s path searchKey weight entries key value replace = some (s', task)) :
    Rewrites S.degree s s' {ptr} [task] := by
  obtain ⟨rfl, hsize⟩ := hs.leaf hroot
  cases hpair : pairAt entries (getKeyIndex key (entries.map Prod.fst)) key with
  | some e =>
    simp only [insertStep, hpair] at h
    split_ifs at h
    obtain ⟨rfl, rfl⟩ := Prod.mk.inj (Option.some.inj h)
    exact .leaf hs hroot
  | none =>
    simp only [insertStep, hpair] at h
    split_ifs at h with hroom
    · obtain ⟨rfl, rfl⟩ := Prod.mk.inj (Option.some.inj h)
      exact .leaf hs hroot
    · -- Overflow
      simp only [Option.bind_eq_bind, Option.bind_eq_some_iff, Option.some.injEq,
        Prod.mk.injEq] at h
      obtain ⟨n, hover, rfl, rfl⟩ := h
      have hlen : (entries.insertIdx (getKeyIndex key (entries.map Prod.fst))
          (key, value)).length = S.degree + 1 := by
        rw [List.length_insertIdx_of_le_length (getKeyIndex_le key entries)]
        omega
      have hmin := minDegree_le S.three_le
      have hn : n.weight = path.isEmpty →
          Settled S.degree [.fixWeightViolation n.ptr] n ∨ path = [] ∧ n = n := by
        intro hw
        -- the weight is zero unless it is the root
        rcases isEmpty_toNat path with ⟨hnil, -⟩ | ⟨-, hempty⟩
        · exact .inr ⟨hnil, rfl⟩
        · exact .inl (settled_of_zero (hw.trans hempty) (List.mem_singleton.mpr rfl))
      have hfresh : Fresh s.next 0
          (fun d => Settled S.degree [.fixWeightViolation n.ptr] d ∨ path = [] ∧ d = n) n ∧
          n.getABDegree = 2 :=
        overflow_fresh hlen (fun d hw hd => .inl (settled_of_le hw (hmin.trans hd))) hn hover
      have hold : (Node.leaf ptr searchKey true entries).addresses = {ptr} + 0 := by
        rw [addresses_eq]
        rfl
      refine .scxExecute hs.nodup hroot hold (Multiset.mem_singleton_self _) hfresh.1
        (fun x hx => ?_) fun _ _ _ => hfresh.2.ge
      cases hx

theorem eraseStep_rewrites (hs : s.Regular S)
    (hroot : s.root = plug path (.leaf ptr searchKey weight entries))
    (h : eraseStep s path entries key = some (s', task)) : Rewrites S.degree s s' {ptr} [task] := by
  cases hpair : pairAt entries (getKeyIndex key (entries.map Prod.fst)) key with
  | none => simp [eraseStep, hpair] at h
  | some e =>
    simp only [eraseStep, hpair, Option.bind_eq_bind, Option.bind_eq_some_iff, Option.some.injEq,
      Prod.mk.injEq] at h
    obtain ⟨first, -, rfl, rfl⟩ := h
    exact .leaf hs hroot

theorem weightStep_rewrites (hs : s.Regular S) (hroot : s.root = plug (p :: path) l)
    (hweight : l.weight = false) (h : weightStep S.degree s p path l = some (s', n, zero)) :
    Rewrites S.degree s s' ({p.ptr} + {l.ptr})
      ((if zero then [.fixWeightViolation n.ptr] else []) ++ [.fixDegreeViolation n.ptr]) := by
  obtain ⟨_, _, _, hlabel⟩ := hs.label hroot
  have hroot : s.root = plug path (p.node l) := hroot
  have hsize := (hlabel.zero hweight).2
  cases l with
  | leaf => simp [weightStep] at h
  | internal ptr searchKey weight lkeys lptrs =>
    -- `p` and `l` are gone, and the other nodes below are those of their other children
    have hold : (p.node (.internal ptr searchKey weight lkeys lptrs)).addresses =
        {p.ptr} + {ptr} + addressesOf (p.before ++ lptrs ++ p.after) := by
      rw [addresses_node, Frame.ptrs]
      simp only [addressesOf_append, addressesOf_cons]
      rw [addresses_eq]
      simp only [Node.ptr, Node.children]
      abel
    have hlen : (p.before ++ lptrs ++ p.after).length = p.getABDegree + lptrs.length - 1 := by
      simp only [Frame.getABDegree, List.length_append]
      omega
    -- there are two children or more, so the new root has them
    have htwo : 2 ≤ (p.before ++ lptrs ++ p.after).length := by
      have hsize : lptrs.length = 2 := hsize
      simp only [List.length_append]
      omega
    have hptr : (p.node (.internal ptr searchKey weight lkeys lptrs)).ptr ∈
        ({p.ptr} + {ptr} : Multiset ℕ) :=
      Multiset.mem_add.mpr (.inl (Multiset.mem_singleton_self _))
    have hremoved : ∀ x ∈ [p.ptr, ptr], x ∈ ({p.ptr} + {ptr} : Multiset ℕ) := by
      intro x hx
      simpa using hx
    simp only [weightStep] at h
    split_ifs at h with hfits
    · -- Absorb
      simp only [Option.bind_eq_bind, Option.bind_eq_some_iff, Option.some.injEq,
        Prod.mk.injEq] at h
      obtain ⟨n', habsorb, rfl, rfl, rfl⟩ := h
      -- the new node is due at most for its size, and that is handed out
      obtain ⟨hfresh, hn⟩ := absorb_fresh
        (P := fun d => Settled S.degree [.fixDegreeViolation n'.ptr] d ∨ path = [] ∧ d = n') le_rfl
        (fun hw => .inl (settled_of_call hw (List.mem_singleton.mpr rfl))) habsorb
      exact .scxExecute hs.nodup hroot hold hptr hfresh hremoved fun _ _ _ => htwo.trans hn.ge
    · -- Split
      simp only [Option.bind_eq_bind, Option.bind_eq_some_iff, Option.some.injEq,
        Prod.mk.injEq] at h
      obtain ⟨n', hsplit, rfl, rfl, rfl⟩ := h
      have hmin := minDegree_le S.three_le
      -- the new node has a weight of zero or not: either is handed out
      have hn : Settled S.degree ([.fixWeightViolation n'.ptr] ++ [.fixDegreeViolation n'.ptr])
          n' := by
        cases hw : n'.weight with
        | false => exact settled_of_zero hw List.mem_cons_self
        | true => exact settled_of_call hw (List.mem_cons_of_mem _ List.mem_cons_self)
      obtain ⟨hfresh, hn'⟩ := split_fresh
        (P := fun d => Settled S.degree ([.fixWeightViolation n'.ptr] ++
          [.fixDegreeViolation n'.ptr]) d ∨ path = [] ∧ d = n') le_rfl
        (fun d hw hd => .inl (settled_of_le hw (by omega))) (fun _ => .inl hn) hsplit
      exact .scxExecute hs.nodup hroot hold hptr hfresh hremoved fun _ _ _ => hn'.ge

theorem degreeStep_rewrites (hs : s.Regular S) (hleast : 1 ≤ S.least)
    (hroot : s.root = plug (p :: path) l) (hsib : (p.ptrs l)[p.ixToS]? = some sibling)
    (h : degreeStep S.degree s p path l sibling = some (s', new)) :
    Rewrites S.degree s s' ({p.ptr} + {l.ptr} + {sibling.ptr})
      (new.map fun c => .fixDegreeViolation c.ptr) := by
  have hroot : s.root = plug path (p.node l) := hroot
  obtain ⟨A⟩ := Adjacent.exists_of_sibling hsib
  have hlen := A.length_eq
  have hnode : (p.node l).getABDegree = p.getABDegree := p.getABDegree_node l
  -- the two siblings, in any order
  have hpair : ({l.ptr} + {sibling.ptr} : Multiset ℕ) = {A.left.ptr} + {A.right.ptr} := by
    rcases A.nodes with ⟨hl, hr⟩ | ⟨hl, hr⟩
    · rw [hl, hr]
    · rw [hl, hr, add_comm]
  -- `p` and the two siblings are gone, and the other nodes below are kept
  have hold : (p.node l).addresses = {p.ptr} + {l.ptr} + {sibling.ptr} +
      (addressesOf A.pre + (A.left.children + A.right.children) + addressesOf A.post) := by
    rw [add_assoc ({p.ptr} : Multiset ℕ), hpair, addresses_node, A.ptrs]
    simp only [addressesOf_append, addressesOf_cons]
    rw [addresses_eq A.left, addresses_eq A.right]
    abel
  have hpre : addressesOf A.pre ≤
      addressesOf A.pre + (A.left.children + A.right.children) + addressesOf A.post := by
    rw [add_assoc]
    exact Multiset.le_add_right _ _
  have hpost : addressesOf A.post ≤
      addressesOf A.pre + (A.left.children + A.right.children) + addressesOf A.post :=
    Multiset.le_add_left _ _
  have hmid : A.left.children + A.right.children ≤
      addressesOf A.pre + (A.left.children + A.right.children) + addressesOf A.post :=
    (Multiset.le_add_left _ _).trans (Multiset.le_add_right _ _)
  have hptr : (p.node l).ptr ∈ ({p.ptr} + {l.ptr} + {sibling.ptr} : Multiset ℕ) := by
    simp [Frame.node, Node.ptr]
  have hremoved : ∀ x ∈ removed p A.left A.right,
      x ∈ ({p.ptr} + {l.ptr} + {sibling.ptr} : Multiset ℕ) := by
    intro x hx
    rw [add_assoc ({p.ptr} : Multiset ℕ), hpair]
    unfold removed at hx
    split_ifs at hx
    · simp [List.mem_singleton.mp hx]
    · simp only [List.mem_cons, List.not_mem_nil, or_false] at hx
      simpa only [Multiset.mem_add, Multiset.mem_singleton] using hx
  -- only the parts are needed from here on
  generalize addressesOf A.pre + (A.left.children + A.right.children) + addressesOf A.post = kept
    at hold hpre hpost hmid
  simp only [degreeStep, A.left_eq, A.right_eq] at h
  split_ifs at h with hsize hrootAbsorb
  · -- RootAbsorb
    simp only [Option.bind_eq_bind, Option.bind_eq_some_iff, Option.some.injEq, Prod.mk.injEq] at h
    obtain ⟨k, -, newl, hjoin, rfl, rfl⟩ := h
    -- the new node is handed out for its size
    obtain ⟨hfresh, hleaf, hsum⟩ := absorbSibling_fresh hmid le_rfl
      (P := fun d => Settled S.degree [.fixDegreeViolation newl.ptr] d ∨ path = [] ∧ d = newl)
      (fun hw => .inl (settled_of_call hw (List.mem_singleton.mpr rfl))) hjoin
    refine .scxExecute hs.nodup hroot hold hptr hfresh hremoved fun _ _ hn => ?_
    -- each of the two has a child
    obtain ⟨hl, hr⟩ := hleaf hn
    obtain ⟨_, hrelaxed⟩ := hs.root
    rw [hroot] at hrelaxed
    obtain ⟨_, _, _, -, hpn⟩ := hrelaxed.unplug
    obtain ⟨-, _, -, hsep⟩ := relaxed_internal.mp hpn
    rw [A.ptrs] at hsep
    obtain ⟨_, _, hleft⟩ := hsep.forall_mem (c := A.left) (by simp)
    obtain ⟨_, _, hright⟩ := hsep.forall_mem (c := A.right) (by simp)
    have hl := hleft.label.le_size hl
    have hr := hright.label.le_size hr
    omega
  · -- AbsorbSibling
    simp only [Option.bind_eq_bind, Option.bind_eq_some_iff, Option.some.injEq, Prod.mk.injEq] at h
    obtain ⟨k, -, newl, hjoin, rfl, rfl⟩ := h
    rw [A.joined]
    set n : Node K V := .internal (s.next + 1) p.searchKey true
      (p.keys.eraseIdx (min p.ix p.ixToS)) (A.pre ++ newl :: A.post) with hn
    -- both new nodes are handed out for their sizes
    have hcalls : ∀ d ∈ [newl, n], d.weight = true → Settled S.degree
        ([newl, n].map fun c => .fixDegreeViolation c.ptr) d := by
      intro d hd hw
      refine settled_of_call hw ?_
      rw [List.map_map]
      exact List.mem_map.mpr ⟨d, hd, rfl⟩
    have hnewl := (absorbSibling_fresh hmid (Nat.le_refl _)
      (P := fun d => Settled S.degree ([newl, n].map fun c => .fixDegreeViolation c.ptr) d ∨
        path = [] ∧ d = n)
      (fun hw => .inl (hcalls newl List.mem_cons_self hw)) hjoin).1
    refine .scxExecute hs.nodup hroot hold hptr (.internal (Nat.le_succ _) ?_ ?_) hremoved ?_
    · exact .inl (hcalls n (List.mem_cons_of_mem _ List.mem_cons_self) rfl)
    · intro c hc
      rcases List.mem_append.mp hc with hc | hc
      · exact Fresh.children hpre c hc
      · rcases List.mem_cons.mp hc with rfl | hc
        · exact hnewl
        · exact Fresh.children hpost c hc
    · -- with two children the root would have been replaced
      intro hnil htwo _
      have htwo := htwo rfl
      have hne : p.getABDegree ≠ 2 := fun h => hrootAbsorb ⟨List.isEmpty_iff.mpr hnil, h⟩
      have hcount : n.getABDegree = A.pre.length + (A.post.length + 1) := by
        rw [hn]
        simp [Node.getABDegree]
      omega
  · -- Distribute
    simp only [Option.bind_eq_bind, Option.bind_eq_some_iff, Option.some.injEq, Prod.mk.injEq] at h
    obtain ⟨k, -, ⟨x, keyp, y⟩, hdist, rfl, rfl⟩ := h
    rw [A.ptrs_set]
    set n : Node K V := .internal s.next p.searchKey true
      (p.keys.set (min p.ix p.ixToS) keyp) (A.pre ++ [x, y] ++ A.post) with hn
    -- the new siblings are large enough
    obtain ⟨hx, hy⟩ := distribute_fresh hmid (Nat.le_succ _)
      (P := fun d => Settled S.degree ([n].map fun c => .fixDegreeViolation c.ptr) d ∨
        path = [] ∧ d = n)
      (fun d hw hd => .inl (settled_of_le hw (by omega))) hdist
    refine .scxExecute hs.nodup hroot hold hptr (.internal le_rfl ?_ ?_) hremoved ?_
    · exact .inl (settled_of_call rfl (List.mem_singleton.mpr rfl))
    · intro c hc
      rcases List.mem_append.mp hc with hc | hc
      · rcases List.mem_append.mp hc with hc | hc
        · exact Fresh.children hpre c hc
        · exact Fresh.pair hx hy c hc
      · exact Fresh.children hpost c hc
    · -- `p` keeps its size
      intro _ htwo _
      have htwo := htwo rfl
      have hcount : n.getABDegree = A.pre.length + 2 + A.post.length := by
        rw [hn]
        simp only [Node.getABDegree, List.length_append, List.length_cons, List.length_nil]
      omega

end

end AbTree
end PopSetbench

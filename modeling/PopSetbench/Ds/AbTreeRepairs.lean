import PopSetbench.Ds.AbTreeRelaxed

/-!
# The relaxed (a,b)-tree: what a step puts into the tree

The new nodes of each `scxExecute`, with their record, in a tree that may have any number of
violations. They have the range and the weighted depth of the nodes that they replace, but for those
that become the root.

* `State.Regular S s` says that the tree is a relaxed one, and that its root has a weight of one.
* `Spine.scxExecute` is the common part: a new subtree at the end of a path.
* `insertStep_regular`, `eraseStep_regular`, `weightStep_regular` and `degreeStep_regular` say for
  each step that no key is read that is not there, and what it leads to.
-/

namespace PopSetbench
namespace AbTree

variable {K V : Type}

/-- The tree, with its record. -/
structure State.Regular [LinearOrder K] (S : Scheme K) (s : State K V) : Prop where
  next : S.next = s.next
  root : ∃ h, Relaxed S h ⊥ ⊤ s.root
  weight : s.root.weight = true

/-- What a step leads to: new nodes, and either the same root or a new one. -/
structure Renewal [LinearOrder K] (S : Scheme K) (s : State K V) (S' : Scheme K) (s' : State K V) :
    Prop where
  record : S.Extends S'
  regular : s'.Regular S'
  root : s'.root.ptr = s.root.ptr ∨ s.next ≤ s'.root.ptr

section

variable [LinearOrder K] {S S' : Scheme K} {h h' : ℕ} {lo : WithBot K} {hi : WithTop K}
  {k key : K} {w : Bool} {entries : List (K × V)} {keys : List K} {ptrs : List (Node K V)}
  {n left right : Node K V} {p : Frame K V} {path : List (Frame K V)} {s : State K V} {ptr : ℕ}

/-! ### New nodes -/

theorem relaxed_newLeaf (hreg : Registered S 0 lo hi (.leaf ptr key true entries : Node K V))
    (hkey : Within lo hi key) (hpairs : Pairs lo hi entries) (hsize : entries.length ≤ S.degree) :
    Relaxed S 0 lo hi (.leaf ptr key true entries) :=
  relaxed_leaf.mpr
    ⟨⟨hreg, hkey, hsize, fun hzero => Bool.noConfusion hzero,
      fun hleaf => Bool.noConfusion hleaf⟩, rfl, hpairs⟩

theorem relaxed_newInternal
    (hreg : Registered S (h + w.toNat) lo hi (.internal ptr key w keys ptrs : Node K V))
    (hkey : Within lo hi key) (hsep : Separated (Relaxed S h) lo hi keys ptrs)
    (hsize : ptrs.length ≤ S.degree) (hzero : w = false → ptrs.length = 2)
    (hle : S.least ≤ ptrs.length) :
    Relaxed S (h + w.toNat) lo hi (.internal ptr key w keys ptrs) :=
  relaxed_internal.mpr ⟨⟨hreg, hkey, hsize, fun hw => ⟨rfl, hzero hw⟩, fun _ => hle⟩, h, rfl, hsep⟩

/-- Absorb. -/
theorem absorb_relaxed (hsep : Separated (Relaxed S h) lo hi keys ptrs) (htwo : 2 ≤ ptrs.length)
    (hsize : ptrs.length ≤ S.degree) :
    ∃ n S', absorb S.next keys ptrs = some n ∧ S.Extends S' ∧ S'.next = S.next + 1 ∧
      n.ptr = S.next ∧ n.weight = true ∧ Relaxed S' (h + 1) lo hi n := by
  have hlen := hsep.length_eq
  have hpos : 0 < keys.length := by omega
  have hkey : Within lo hi keys[0] := hsep.within Relaxed.exists_within (List.getElem_mem hpos)
  let n : Node K V := .internal S.next keys[0] true keys ptrs
  let S' := S.add 1 fun _ => n.info (h + 1) lo hi
  have hS : S.Extends S' := .add ..
  have hreg : Registered S' (h + 1) lo hi n := registered Nat.one_pos rfl rfl
  refine ⟨n, S', ?_, hS, rfl, rfl, rfl, ?_⟩
  · simp [absorb, List.getElem?_eq_getElem hpos, n]
  · exact relaxed_newInternal (w := true) hreg hkey (hsep.imp fun _ _ _ hc => hc.mono hS) hsize
      (fun hw => Bool.noConfusion hw) (S.least_le.trans htwo)

/-- Split. The children of the new node are new as well. -/
theorem split_relaxed (w : Bool) (hsep : Separated (Relaxed S h) lo hi keys ptrs)
    (hlen : 4 ≤ ptrs.length) (hsize : ptrs.length ≤ S.degree + 1) :
    ∃ n S', split S.next w keys ptrs = some n ∧ S.Extends S' ∧ S'.next = S.next + 3 ∧
      n.ptr = S.next + 2 ∧ n.weight = w ∧ Relaxed S' (h + 1 + w.toNat) lo hi n := by
  have hthree := S.three_le
  have htwo := S.least_le
  let m := ptrs.length / 2
  obtain ⟨first, k, second, h₀, hfirst, hk, h₁, hsecond, hwithin, hfst, hsnd, hleft, hright⟩ :=
    hsep.halves Relaxed.exists_within (n := m) (by omega) (by omega)
  let x : Node K V := .internal S.next first true (keys.take (m - 1)) (ptrs.take m)
  let y : Node K V := .internal (S.next + 1) second true (keys.drop m) (ptrs.drop m)
  let n : Node K V := .internal (S.next + 2) k w [k] [x, y]
  let S' := S.add 3 fun
    | 0 => x.info (h + 1) lo k
    | 1 => y.info (h + 1) k hi
    | _ => n.info (h + 1 + w.toNat) lo hi
  have hS : S.Extends S' := .add ..
  have hregx : Registered S' (h + 1) lo k x := registered (Nat.succ_pos 2) rfl rfl
  have hregy : Registered S' (h + 1) k hi y := registered (Nat.one_lt_succ_succ 1) rfl rfl
  have hreg : Registered S' (h + 1 + w.toNat) lo hi n := registered (Nat.lt_succ_self 2) rfl rfl
  have hx : Relaxed S' (h + 1) lo k x := by
    refine relaxed_newInternal (w := true) hregx hfst (hleft.imp fun _ _ _ hc => hc.mono hS) ?_
      (fun hw => Bool.noConfusion hw) ?_
    all_goals rw [List.length_take]
    · exact (min_le_left ..).trans (by omega : m ≤ S.degree)
    · exact S.least_le.trans (by omega)
  have hy : Relaxed S' (h + 1) k hi y := by
    refine relaxed_newInternal (w := true) hregy hsnd (hright.imp fun _ _ _ hc => hc.mono hS) ?_
      (fun hw => Bool.noConfusion hw) ?_
    all_goals rw [List.length_drop]
    · exact (by omega : ptrs.length - m ≤ S.degree)
    · exact S.least_le.trans (by omega)
  refine ⟨n, S', ?_, hS, rfl, rfl, rfl, ?_⟩
  · simp [split, h₀, hk, h₁, n, x, y, m]
  · exact relaxed_newInternal hreg hwithin (.cons hx (.last hy)) (Nat.le_of_succ_le hthree)
      (fun _ => rfl) htwo

/-- Overflow. The pairs of a leaf, one too many, go to two. -/
theorem overflow_relaxed (w : Bool) (hpairs : Pairs lo hi entries)
    (hlen : entries.length = S.degree + 1) :
    ∃ n S', overflow S.degree S.next w entries = some n ∧ S.Extends S' ∧ S'.next = S.next + 3 ∧
      n.ptr = S.next + 2 ∧ n.weight = w ∧ Relaxed S' w.toNat lo hi n := by
  have hthree := S.three_le
  have htwo := S.least_le
  let m := (S.degree + 1) / 2
  obtain ⟨first, e, h₀, hfirst, he, hsecond, hwithin, hfst, hsnd, hleft, hright⟩ :=
    hpairs.halves (n := m) (by omega) (by omega)
  let x : Node K V := .leaf S.next first.1 true (entries.take m)
  let y : Node K V := .leaf (S.next + 1) e.1 true (entries.drop m)
  let n : Node K V := .internal (S.next + 2) e.1 w [e.1] [x, y]
  let S' := S.add 3 fun
    | 0 => x.info 0 lo e.1
    | 1 => y.info 0 e.1 hi
    | _ => n.info (0 + w.toNat) lo hi
  have hS : S.Extends S' := .add ..
  have hregx : Registered S' 0 lo e.1 x := registered (Nat.succ_pos 2) rfl rfl
  have hregy : Registered S' 0 e.1 hi y := registered (Nat.one_lt_succ_succ 1) rfl rfl
  have hreg : Registered S' (0 + w.toNat) lo hi n := registered (Nat.lt_succ_self 2) rfl rfl
  have hx : Relaxed S' 0 lo e.1 x := by
    refine relaxed_newLeaf hregx hfst hleft ?_
    rw [List.length_take]
    exact (min_le_left ..).trans (by omega : m ≤ S.degree)
  have hy : Relaxed S' 0 e.1 hi y := by
    refine relaxed_newLeaf hregy hsnd hright ?_
    rw [List.length_drop]
    exact (by omega : entries.length - m ≤ S.degree)
  have htake : (entries.drop m).take (S.degree + 1 - m) = entries.drop m := by
    refine List.take_of_length_le ?_
    rw [List.length_drop, hlen]
  refine ⟨n, S', ?_, hS, rfl, rfl, rfl, ?_⟩
  · simp only [m] at htake
    simp [overflow, h₀, he, htake, n, x, y, m]
  · rw [← Nat.zero_add w.toNat]
    exact relaxed_newInternal hreg hwithin (.cons hx (.last hy)) (Nat.le_of_succ_le hthree)
      (fun _ => rfl) htwo

/-- AbsorbSibling, before the new node is put into the record. -/
theorem absorbSibling_relaxed (ptr : ℕ) (hleft : Relaxed S h lo k left)
    (hright : Relaxed S h k hi right) (hwl : left.weight = true) (hwr : right.weight = true)
    (hkey : Within lo hi key) (hsize : left.getABDegree + right.getABDegree ≤ S.degree) :
    ∃ n, absorbSibling ptr key left right k = some n ∧ n.ptr = ptr ∧ n.weight = true ∧
      ∀ S', S.Extends S' → Registered S' h lo hi n → Relaxed S' h lo hi n := by
  have hwithin : Within lo hi k := hleft.label.searchKey.between hright.label.searchKey
  cases left with
  | leaf ptr₁ key₁ w₁ es =>
    obtain ⟨-, rfl, hes⟩ := relaxed_leaf.mp hleft
    cases right with
    | leaf ptr₂ key₂ w₂ es' =>
      obtain ⟨-, -, hes'⟩ := relaxed_leaf.mp hright
      refine ⟨_, rfl, rfl, rfl, fun S' hS hreg => ?_⟩
      refine relaxed_newLeaf hreg hkey (.append hwithin hes hes') ?_
      rw [hS.degree, List.length_append]
      exact hsize
    | internal ptr₂ key₂ w₂ ks' cs' =>
      -- a node of weight one is above the leaves
      obtain ⟨-, h', hh, -⟩ := relaxed_internal.mp hright
      obtain rfl : w₂ = true := hwr
      simp at hh
  | internal ptr₁ key₁ w₁ ks cs =>
    obtain ⟨-, h₁, rfl, hs⟩ := relaxed_internal.mp hleft
    obtain rfl : w₁ = true := hwl
    cases right with
    | leaf ptr₂ key₂ w₂ es' =>
      obtain ⟨-, hh, -⟩ := relaxed_leaf.mp hright
      simp at hh
    | internal ptr₂ key₂ w₂ ks' cs' =>
      obtain ⟨-, h₂, hh, hs'⟩ := relaxed_internal.mp hright
      obtain rfl : w₂ = true := hwr
      obtain rfl : h₁ = h₂ := Nat.succ.inj hh
      refine ⟨_, rfl, rfl, rfl, fun S' hS hreg => ?_⟩
      have happend := (hs.append hs').imp fun _ _ _ hc => hc.mono hS
      refine relaxed_newInternal (w := true) hreg hkey happend ?_ (fun hw => Bool.noConfusion hw) ?_
      · rw [hS.degree, List.length_append]
        exact hsize
      · rw [hS.least, List.length_append]
        exact (hleft.label.le_size rfl).trans (Nat.le_add_right ..)

/-- Distribute, before the new nodes are put into the record. -/
theorem distribute_relaxed (ptr : ℕ) (hleft : Relaxed S h lo k left)
    (hright : Relaxed S h k hi right) (hwl : left.weight = true) (hwr : right.weight = true)
    (hle : 4 ≤ left.getABDegree + right.getABDegree) :
    ∃ x k' y, distribute ptr left right k = some (x, k', y) ∧ x.ptr = ptr ∧ y.ptr = ptr + 1 ∧
      ∀ S', S.Extends S' → Registered S' h lo k' x → Registered S' h k' hi y →
        Separated (Relaxed S' h) lo hi [k'] [x, y] := by
  have hwithin : Within lo hi k := hleft.label.searchKey.between hright.label.searchKey
  have hsizel := hleft.label.size_le
  have hsizer := hright.label.size_le
  cases left with
  | leaf ptr₁ key₁ w₁ es =>
    obtain ⟨-, rfl, hes⟩ := relaxed_leaf.mp hleft
    -- two leaves: their pairs are put together and cut in the middle
    cases right with
    | leaf ptr₂ key₂ w₂ es' =>
      obtain ⟨-, -, hes'⟩ := relaxed_leaf.mp hright
      have hpairs : Pairs lo hi (es ++ es') := .append hwithin hes hes'
      have hlen : (es ++ es').length = es.length + es'.length := List.length_append
      simp only [Node.getABDegree] at hle hsizel hsizer
      obtain ⟨first, e, -, hfirst, he, hsecond, -, hfst, hsnd, hx, hy⟩ :=
        hpairs.halves (n := (es ++ es').length / 2) (by omega) (by omega)
      refine ⟨.leaf ptr first.1 true ((es ++ es').take ((es ++ es').length / 2)), e.1,
        .leaf (ptr + 1) e.1 true ((es ++ es').drop ((es ++ es').length / 2)), ?_, rfl, rfl,
        fun S' hS hregx hregy => ?_⟩
      · simp only [distribute, hfirst, he, hsecond]
        rfl
      · refine .cons (relaxed_newLeaf hregx hfst hx ?_) (.last (relaxed_newLeaf hregy hsnd hy ?_))
        · rw [hS.degree, List.length_take]
          omega
        · rw [hS.degree, List.length_drop]
          omega
    | internal ptr₂ key₂ w₂ ks' cs' =>
      -- the two have the same height, so this does not happen
      obtain ⟨-, h', hh, -⟩ := relaxed_internal.mp hright
      obtain rfl : w₂ = true := hwr
      simp at hh
  | internal ptr₁ key₁ w₁ ks cs =>
    obtain ⟨-, h₁, rfl, hs⟩ := relaxed_internal.mp hleft
    obtain rfl : w₁ = true := hwl
    cases right with
    | leaf ptr₂ key₂ w₂ es' =>
      obtain ⟨-, hh, -⟩ := relaxed_leaf.mp hright
      simp at hh
    | internal ptr₂ key₂ w₂ ks' cs' =>
      -- two inner nodes: with `k` between them their children are put together and cut again
      obtain ⟨-, h₂, hh, hs'⟩ := relaxed_internal.mp hright
      obtain rfl : w₂ = true := hwr
      obtain rfl : h₁ = h₂ := Nat.succ.inj hh
      have happend := hs.append hs'
      have hlen : (cs ++ cs').length = cs.length + cs'.length := List.length_append
      have hleast := S.least_le
      simp only [Node.getABDegree] at hle hsizel hsizer
      obtain ⟨first, k', second, -, hfirst, hk, -, hsecond, -, hfst, hsnd, hx, hy⟩ :=
        happend.halves Relaxed.exists_within (n := (cs ++ cs').length / 2) (by omega) (by omega)
      refine ⟨.internal ptr first true ((ks ++ k :: ks').take ((cs ++ cs').length / 2 - 1))
          ((cs ++ cs').take ((cs ++ cs').length / 2)), k',
        .internal (ptr + 1) second true ((ks ++ k :: ks').drop ((cs ++ cs').length / 2))
          ((cs ++ cs').drop ((cs ++ cs').length / 2)), ?_, rfl, rfl, fun S' hS hregx hregy => ?_⟩
      · -- this is what the code computes
        simp only [distribute, hfirst, hk, hsecond]
        rfl
      · -- both new nodes have the sizes that are asked for
        refine .cons (relaxed_newInternal (w := true) hregx hfst (hx.imp fun _ _ _ hc => hc.mono hS)
          ?_ (fun hw => Bool.noConfusion hw) ?_) (.last (relaxed_newInternal (w := true) hregy hsnd
          (hy.imp fun _ _ _ hc => hc.mono hS) ?_ (fun hw => Bool.noConfusion hw) ?_))
        · rw [hS.degree, List.length_take]
          omega
        · rw [hS.least, List.length_take]
          omega
        · rw [hS.degree, List.length_drop]
          omega
        · rw [hS.least, List.length_drop]
          omega

/-! ### The steps -/

/-- The keys and children of a node and of its child in one. -/
theorem Frame.Relaxed.merge {l : WithBot K} {u : WithTop K} (hp : p.Relaxed S h lo hi l u)
    (hsep : Separated (AbTree.Relaxed S h) l u keys ptrs) :
    Separated (AbTree.Relaxed S h) lo hi (p.keys.take p.ix ++ keys ++ p.keys.drop p.ix)
      (p.before ++ ptrs ++ p.after) := by
  obtain ⟨ksL, ksR, hkeys, hole⟩ := hp.hole
  have hix : p.ix = ksL.length := hole.left.length_eq
  rw [hkeys, hix, List.take_left, List.drop_left]
  exact hole.fill hsep

omit [LinearOrder K] in
theorem plug_weight (path : List (Frame K V)) (p : Frame K V) (n n' : Node K V) :
    (plug (p :: path) n).weight = (plug (p :: path) n').weight := by
  induction path generalizing p n n' with
  | nil => rfl
  | cons q path ih => exact ih q (p.node n) (p.node n')

omit [LinearOrder K] in
theorem plug_cons_ptr (path : List (Frame K V)) (p : Frame K V) (n n' : Node K V) :
    (plug (p :: path) n).ptr = (plug (p :: path) n').ptr := by
  induction path generalizing p n n' with
  | nil => rfl
  | cons q path ih => exact ih q (p.node n) (p.node n')

/-- **A `scxExecute`.** A subtree with the same range takes the place of another one. Below the root
it has the same height. -/
theorem Spine.scxExecute {n₀ : Node K V} (allocated : ℕ) (removed : List ℕ) (hs : s.Regular S)
    (hroot : s.root = AbTree.plug path n₀) (hspine : Spine S h lo hi path) (hS : S.Extends S')
    (hnext : S'.next = S.next + allocated) (hn : Relaxed S' h' lo hi n) (hnew : S.next ≤ n.ptr)
    (hheight : path = [] ∧ n.weight = true ∨ path ≠ [] ∧ h' = h) :
    Renewal S s S' (s.scxExecute path n allocated removed) := by
  refine ⟨hS, ⟨?_, ?_, ?_⟩, ?_⟩
  · rw [hnext, hs.next]
    rfl
  · rcases hheight with ⟨rfl, -⟩ | ⟨-, rfl⟩
    · obtain ⟨rfl, rfl⟩ := hspine.nil_range
      exact ⟨h', hn⟩
    · exact (hspine.mono hS).plug hn
  · rcases hheight with ⟨rfl, hweight⟩ | ⟨hne, -⟩
    · exact hweight
    · obtain ⟨p, path, rfl⟩ := List.exists_cons_of_ne_nil hne
      have hweight := hs.weight
      rw [hroot] at hweight
      exact (plug_weight path p n n₀).trans hweight
  · rcases hheight with ⟨rfl, -⟩ | ⟨hne, -⟩
    · rw [hs.next] at hnew
      exact .inr hnew
    · obtain ⟨p, path, rfl⟩ := List.exists_cons_of_ne_nil hne
      rw [hroot]
      exact .inl (plug_cons_ptr path p n n₀)

omit [LinearOrder K] in
theorem isEmpty_toNat (path : List (Frame K V)) :
    path = [] ∧ path.isEmpty = true ∨ path ≠ [] ∧ path.isEmpty = false := by
  cases path with
  | nil => exact .inl ⟨rfl, rfl⟩
  | cons => exact .inr ⟨List.cons_ne_nil _ _, rfl⟩

/-- **Absorb and Split.** -/
theorem weightStep_regular (hs : s.Regular S) (hroot : s.root = plug (p :: path) n)
    (hp : p.weight = true) (hn : n.weight = false) :
    ∃ s' n' zero S', weightStep S.degree s p path n = some (s', n', zero) ∧ Renewal S s S' s' ∧
      n'.ptr < S'.next := by
  have hroot' : s.root = plug path (p.node n) := hroot
  obtain ⟨h₀, hrelaxed⟩ := hs.root
  rw [hroot] at hrelaxed
  obtain ⟨h, l, u, hspine, hl⟩ := hrelaxed.unplug
  cases hspine with
  | @frame _ lo hi _ _ _ _ hpr hpath =>
    rw [hp] at hpath
    obtain ⟨hleaf, hsize⟩ := hl.label.zero hn
    cases n with
    | leaf => simp [Node.isLeaf] at hleaf
    | internal ptr searchKey weight lkeys lptrs =>
      obtain rfl : weight = false := hn
      obtain ⟨-, h', rfl, hsep⟩ := relaxed_internal.mp hl
      simp only [Node.getABDegree] at hsize
      -- the children of `n` come in its place among those of `p`
      have hmerge := hpr.merge hsep
      have hlen : (p.before ++ lptrs ++ p.after).length = p.getABDegree + lptrs.length - 1 := by
        simp only [Frame.getABDegree, List.length_append]
        omega
      have hpsize := (hpr.label (.internal ptr searchKey false lkeys lptrs)).size_le
      rw [p.getABDegree_node] at hpsize
      have hpos : 1 ≤ p.getABDegree := by
        unfold Frame.getABDegree
        omega
      by_cases hfits : p.getABDegree + lptrs.length - 1 ≤ S.degree
      · -- Absorb
        obtain ⟨n', S', habsorb, hS, hnext, hptr, hweight, hn'⟩ :=
          absorb_relaxed hmerge (by omega) (by omega)
        refine ⟨_, n', false, S', ?_,
          hpath.scxExecute 1 [p.ptr, ptr] hs hroot' hS hnext hn' hptr.ge ?_, ?_⟩
        · rw [hs.next] at habsorb
          simp only [weightStep, hfits, if_true, habsorb]
          rfl
        · -- the new node has the weight of its siblings, or is the root
          rcases isEmpty_toNat path with ⟨hnil, -⟩ | ⟨hne, -⟩
          · exact .inl ⟨hnil, hweight⟩
          · exact .inr ⟨hne, rfl⟩
        · omega
      · -- Split
        obtain ⟨n', S', hsplit, hS, hnext, hptr, hweight, hn'⟩ :=
          split_relaxed path.isEmpty hmerge (by have := S.three_le; omega) (by omega)
        refine ⟨_, n', true, S', ?_,
          hpath.scxExecute 3 [p.ptr, ptr] hs hroot' hS hnext hn' (by omega) ?_, ?_⟩
        · rw [hs.next] at hsplit
          simp only [weightStep, hfits, if_false, hsplit]
          rfl
        · -- the weight is zero, unless the node becomes the root
          rcases isEmpty_toNat path with ⟨hnil, hempty⟩ | ⟨hne, hempty⟩
          · exact .inl ⟨hnil, hweight.trans hempty⟩
          · refine .inr ⟨hne, ?_⟩
            rw [hempty]
            rfl
        · omega

theorem le_of_lt_two_mul_minDegree {degree m : ℕ} (hdegree : 3 ≤ degree)
    (hm : m < 2 * minDegree degree) : m ≤ degree := by
  unfold minDegree at hm
  omega

/-- **AbsorbSibling and Distribute.** -/
theorem degreeStep_regular {sibling : Node K V} (hs : s.Regular S)
    (hroot : s.root = plug (p :: path) n) (hsib : (p.ptrs n)[p.ixToS]? = some sibling)
    (hweight : p.weight = true ∧ n.weight = true ∧ sibling.weight = true)
    (hleast : path ≠ [] → p.getABDegree = 2 →
      n.getABDegree + sibling.getABDegree < 2 * minDegree S.degree → S.least ≤ 1) :
    ∃ s' new S', degreeStep S.degree s p path n sibling = some (s', new) ∧ Renewal S s S' s' ∧
      ∀ c ∈ new, c.ptr < S'.next := by
  obtain ⟨hwp, hwn, hws⟩ := hweight
  have hthree := S.three_le
  have htwo := S.least_le
  have hnextS := hs.next
  have hroot' : s.root = plug path (p.node n) := hroot
  obtain ⟨h₀, hrelaxed⟩ := hs.root
  rw [hroot'] at hrelaxed
  obtain ⟨h₁, lo, hi, hpath, hpn⟩ := hrelaxed.unplug
  obtain ⟨hlabel, h, rfl, hsep⟩ := relaxed_internal.mp hpn
  rw [hwp] at hlabel hpath
  obtain ⟨A⟩ := Adjacent.exists_of_sibling hsib
  obtain ⟨ksL, k, ksR, l, u, hkeys, hole, hleft, hright⟩ := A.exists_hole hsep
  have hk := A.getElem_keys hole hkeys
  have hsizes := A.sizes
  have hlen := A.length_eq
  -- which of the two is `n` depends on its index
  have hwleft : A.left.weight = true := by
    rcases A.nodes with ⟨hl, -⟩ | ⟨hl, -⟩
    · rw [hl, hwn]
    · rw [hl, hws]
  have hwright : A.right.weight = true := by
    rcases A.nodes with ⟨-, hr⟩ | ⟨-, hr⟩
    · rw [hr, hws]
    · rw [hr, hwn]
  have hmid : Within l u k := hleft.label.searchKey.between hright.label.searchKey
  -- the search key of `n` lies in the range of the two together
  have hnkey : Within l u n.searchKey := by
    rcases A.nodes with ⟨hl, -⟩ | ⟨-, hr⟩
    · rw [← hl]
      exact hleft.label.searchKey.mono le_rfl hmid.2.le
    · rw [← hr]
      exact hright.label.searchKey.mono hmid.1 le_rfl
  have hpkey : Within lo hi p.searchKey := hlabel.searchKey
  have hpsize : p.getABDegree ≤ S.degree := by
    have hle := hlabel.size_le
    simp only [Node.getABDegree] at hle
    rwa [show (p.ptrs n).length = p.getABDegree from p.getABDegree_node n] at hle
  have hple : S.least ≤ p.getABDegree := by
    have hle := hlabel.le_size rfl
    simp only [Node.getABDegree] at hle
    rwa [show (p.ptrs n).length = p.getABDegree from p.getABDegree_node n] at hle
  -- there are enough children for two nodes, or there are not
  by_cases hsz : A.left.getABDegree + A.right.getABDegree < 2 * minDegree S.degree
  · -- AbsorbSibling
    obtain ⟨newl, hjoin, hptr, hwnew, hnewl⟩ := absorbSibling_relaxed s.next hleft hright hwleft
      hwright hnkey (le_of_lt_two_mul_minDegree hthree hsz)
    by_cases hrootAbsorb : path.isEmpty ∧ p.getABDegree = 2
    · -- RootAbsorb: the new node becomes the root
      obtain ⟨hempty, hpair⟩ := hrootAbsorb
      obtain rfl := List.isEmpty_iff.mp hempty
      obtain ⟨rfl, rfl⟩ := A.range_eq hole hpair
      let S' := S.add 1 fun _ => newl.info h l u
      have hS : S.Extends S' := .add ..
      have hreg : Registered S' h l u newl := registered Nat.one_pos (hptr.trans hnextS.symm) rfl
      refine ⟨_, [newl], S', ?_, hpath.scxExecute 1
        (removed p A.left A.right) hs hroot' hS rfl (hnewl S' hS hreg)
        (hnextS.trans hptr.symm).le (.inl ⟨rfl, hwnew⟩), ?_⟩
      · simp only [degreeStep, A.left_eq, A.right_eq, hsz, if_true, hk, hjoin, hempty, hpair,
          and_self, Option.bind_eq_bind, Option.bind_some]
      · intro c hc
        rw [List.mem_singleton.mp hc]
        exact hreg.ptr_lt
    · -- `p` keeps the merged node and its other children
      let n' : Node K V := .internal (s.next + 1) p.searchKey true (ksL ++ [] ++ ksR)
        (A.pre ++ [newl] ++ A.post)
      let S' := S.add 2 fun i => if i = 0 then newl.info h l u else n'.info (h + 1) lo hi
      have hS : S.Extends S' := .add ..
      have hreg : Registered S' h l u newl :=
        registered Nat.two_pos (hptr.trans hnextS.symm) rfl
      have hreg' : Registered S' (h + 1) lo hi n' :=
        registered Nat.one_lt_two (congrArg (· + 1) hnextS.symm) rfl
      have hcount : (A.pre ++ [newl] ++ A.post).length + 1 = p.getABDegree := by
        simp only [List.length_append, List.length_singleton]
        omega
      have hn' : Relaxed S' (h + 1) lo hi n' := by
        refine relaxed_newInternal (w := true) hreg' hpkey
          ((hole.imp fun _ _ _ hc => hc.mono hS).fill (.last (hnewl S' hS hreg))) ?_
          (fun hw => Bool.noConfusion hw) ?_
        · have hdegree : S'.degree = S.degree := rfl
          omega
        · have hleast' : S'.least = S.least := rfl
          -- where `p` is left with one child, the bound on the sizes allows it
          by_cases hpair : p.getABDegree = 2
          · have hne : path ≠ [] := fun hnil => hrootAbsorb ⟨List.isEmpty_iff.mpr hnil, hpair⟩
            have hone := hleast hne hpair (by omega)
            omega
          · omega
      refine ⟨_, [newl, n'], S', ?_, hpath.scxExecute 2
        (removed p A.left A.right) hs hroot' hS rfl hn' ?_ ?_, ?_⟩
      · simp only [degreeStep, A.left_eq, A.right_eq, hsz, if_true, hk, hjoin, hrootAbsorb,
          if_false, A.keys_eraseIdx hole hkeys, A.joined, Option.bind_eq_bind, Option.bind_some,
          List.append_assoc, List.singleton_append, n']
      · simp only [n', Node.ptr]
        omega
      · rcases isEmpty_toNat path with ⟨hnil, -⟩ | ⟨hne, -⟩
        · exact .inl ⟨hnil, rfl⟩
        · exact .inr ⟨hne, rfl⟩
      · intro c hc
        rcases List.mem_pair.mp hc with rfl | rfl
        · exact hreg.ptr_lt
        · exact hreg'.ptr_lt
  · -- Distribute
    have hfour : 4 ≤ 2 * minDegree S.degree := Nat.mul_le_mul_left 2 (two_le_minDegree _)
    obtain ⟨x, k', y, hdist, hptrx, hptry, hxy⟩ :=
      distribute_relaxed (s.next + 1) hleft hright hwleft hwright (by omega)
    -- `p` gets two nodes for two
    let n' : Node K V := .internal s.next p.searchKey true (ksL ++ [k'] ++ ksR)
      (A.pre ++ [x, y] ++ A.post)
    let S' := S.add 3 fun i =>
      if i = 0 then n'.info (h + 1) lo hi else if i = 1 then x.info h l k' else y.info h k' u
    have hS : S.Extends S' := .add ..
    have hregn : Registered S' (h + 1) lo hi n' := registered (Nat.succ_pos 2) hnextS.symm rfl
    have hregx : Registered S' h l k' x :=
      registered (Nat.one_lt_succ_succ 1) (hptrx.trans (congrArg (· + 1) hnextS.symm)) rfl
    have hregy : Registered S' h k' u y :=
      registered (Nat.lt_succ_self 2) (hptry.trans (congrArg (· + 2) hnextS.symm)) rfl
    -- so it keeps its size
    have hcount : (A.pre ++ [x, y] ++ A.post).length = p.getABDegree := by
      simp only [List.length_append, List.length_cons, List.length_nil]
      omega
    have hn' : Relaxed S' (h + 1) lo hi n' := by
      refine relaxed_newInternal (w := true) hregn hpkey
        ((hole.imp fun _ _ _ hc => hc.mono hS).fill (hxy S' hS hregx hregy)) ?_
        (fun hw => Bool.noConfusion hw) ?_
      · rw [hcount]
        exact hpsize
      · rw [hcount]
        exact hple
    refine ⟨_, [n'], S', ?_, hpath.scxExecute 3
      (removed p A.left A.right) hs hroot' hS rfl hn' hnextS.le ?_, ?_⟩
    · simp only [degreeStep, A.left_eq, A.right_eq, hsz, if_false, hk, hdist,
        A.keys_set hole hkeys, A.ptrs_set, Option.bind_eq_bind, Option.bind_some, n']
    · rcases isEmpty_toNat path with ⟨hnil, -⟩ | ⟨hne, -⟩
      · exact .inl ⟨hnil, rfl⟩
      · exact .inr ⟨hne, rfl⟩
    · intro c hc
      rw [List.mem_singleton.mp hc]
      exact hregn.ptr_lt

/-! ### The leaves -/

/-- The range of a node that is in the tree is the one in the record. -/
theorem Relaxed.range (hn : Relaxed S h lo hi n) :
    (S.info n.ptr).lo = lo ∧ (S.info n.ptr).hi = hi := by
  rw [hn.label.info]
  exact ⟨rfl, rfl⟩

/-- A leaf takes the place of a leaf. -/
theorem Spine.newLeaf {n₀ : Node K V} (hs : s.Regular S) (hroot : s.root = AbTree.plug path n₀)
    (hspine : Spine S 0 lo hi path) (hkey : Within lo hi key) (hpairs : Pairs lo hi entries)
    (hsize : entries.length ≤ S.degree) :
    ∃ S', Renewal S s S' (s.scxExecute path (.leaf s.next key true entries) 1 []) ∧
      s.next < S'.next := by
  let n : Node K V := .leaf s.next key true entries
  let S' := S.add 1 fun _ => n.info 0 lo hi
  have hS : S.Extends S' := .add ..
  have hreg : Registered S' 0 lo hi n := registered Nat.one_pos hs.next.symm rfl
  have hn : Relaxed S' 0 lo hi n := relaxed_newLeaf hreg hkey hpairs hsize
  refine ⟨S', hspine.scxExecute 1 [] hs hroot hS rfl hn hs.next.le ?_, hreg.ptr_lt⟩
  rcases isEmpty_toNat path with ⟨hnil, -⟩ | ⟨hne, -⟩
  · exact .inl ⟨hnil, rfl⟩
  · exact .inr ⟨hne, rfl⟩

variable {replace weight : Bool} {searchKey : K}

/-- **`doInsert`.** -/
theorem insertStep_regular (value : V) (hs : s.Regular S)
    (hroot : s.root = plug path (.leaf ptr searchKey weight entries))
    (hkey : Within (S.info ptr).lo (S.info ptr).hi key)
    (hnew : pairAt entries (getKeyIndex key (entries.map Prod.fst)) key = none ∨ replace = true) :
    ∃ s' task S',
      insertStep S.degree s path searchKey weight entries key value replace = some (s', task) ∧
      Renewal S s S' s' ∧
      ∃ x < S'.next, task = .fixWeightViolation x ∨ task = .fixDegreeViolation x := by
  obtain ⟨h₀, hrelaxed⟩ := hs.root
  rw [hroot] at hrelaxed
  obtain ⟨h, lo, hi, hspine, hl⟩ := hrelaxed.unplug
  obtain ⟨hlo, hhi⟩ := hl.range
  simp only [Node.ptr] at hlo hhi
  rw [hlo, hhi] at hkey
  obtain ⟨hlabel, rfl, hpairs⟩ := relaxed_leaf.mp hl
  have hsize : entries.length ≤ S.degree := hlabel.size_le
  have hsearchKey : Within lo hi searchKey := hlabel.searchKey
  have hweight : weight = true := by
    cases weight with
    | true => rfl
    | false => exact Bool.noConfusion (hlabel.zero rfl).1
  cases hpair : pairAt entries (getKeyIndex key (entries.map Prod.fst)) key with
  | some e =>
    obtain rfl : replace = true := hnew.resolve_left (by rw [hpair]; exact Option.some_ne_none e)
    obtain ⟨k, oldValue⟩ := e
    have hset := hpairs.set (pairAt_eq_some hpair) value
    obtain ⟨S', hrenewal, hlt⟩ :=
      hspine.newLeaf hs hroot hsearchKey hset (by simpa using hsize)
    refine ⟨_, _, S', ?_, hrenewal, s.next, hlt, .inr rfl⟩
    simp only [insertStep, hpair, if_true]
  | none =>
    have hinsert := hpairs.insertIdx (v := value) hkey hpair
    have hlen := List.length_insertIdx_of_le_length (getKeyIndex_le key entries) (key, value)
    by_cases hroom : entries.length < S.degree
    · obtain ⟨S', hrenewal, hlt⟩ :=
        hspine.newLeaf hs hroot hsearchKey hinsert (hlen.trans_le hroom)
      refine ⟨_, _, S', ?_, hrenewal, s.next, hlt, .inr rfl⟩
      simp only [insertStep, hpair, hroom, if_true, hweight]
    · obtain ⟨n', S', hover, hS, hnext, hptr, hw, hn'⟩ :=
        overflow_relaxed (S := S) path.isEmpty hinsert (by omega)
      refine ⟨_, _, S', ?_, hspine.scxExecute 3 [] hs hroot hS hnext hn' (by omega) ?_, n'.ptr,
        by omega, .inl rfl⟩
      · rw [hs.next] at hover
        simp only [insertStep, hpair, hroom, if_false, hover, Option.bind_eq_bind, Option.bind_some]
      · rcases isEmpty_toNat path with ⟨hnil, hempty⟩ | ⟨hne, hempty⟩
        · exact .inl ⟨hnil, hw.trans hempty⟩
        · refine .inr ⟨hne, ?_⟩
          rw [hempty]
          rfl

/-- **`erase`.** -/
theorem eraseStep_regular (hs : s.Regular S)
    (hroot : s.root = plug path (.leaf ptr searchKey weight entries))
    (hpair : pairAt entries (getKeyIndex key (entries.map Prod.fst)) key ≠ none) :
    ∃ s' task S', eraseStep s path entries key = some (s', task) ∧ Renewal S s S' s' ∧
      ∃ x < S'.next, task = .fixDegreeViolation x := by
  obtain ⟨h₀, hrelaxed⟩ := hs.root
  rw [hroot] at hrelaxed
  obtain ⟨h, lo, hi, hspine, hl⟩ := hrelaxed.unplug
  obtain ⟨hlabel, rfl, hpairs⟩ := relaxed_leaf.mp hl
  have hsize : entries.length ≤ S.degree := hlabel.size_le
  obtain ⟨e, he⟩ := Option.ne_none_iff_exists'.mp hpair
  obtain ⟨hidx, -⟩ := List.getElem?_eq_some_iff.mp (pairAt_eq_some he)
  have hpos : 0 < entries.length := by omega
  have hlen := List.length_eraseIdx_of_lt hidx
  have herase := hpairs.eraseIdx (getKeyIndex key (entries.map Prod.fst))
  obtain ⟨S', hrenewal, hlt⟩ := hspine.newLeaf hs hroot
    (hpairs.within _ (List.getElem_mem hpos)) herase (by omega)
  refine ⟨_, _, S', ?_, hrenewal, s.next, hlt, rfl⟩
  simp only [eraseStep, he, List.getElem?_eq_getElem hpos, Option.bind_eq_bind, Option.bind_some]

end

end AbTree
end PopSetbench

import PopSetbench.Ds.AbTreeInv

/-!
# The relaxed (a,b)-tree: the new nodes

What the operations and the repairs put in the place of the nodes that they replace: that the new
nodes have no violation among their children, and cover the same range.

The bounds on the sizes come from `two_mul_minDegree_le`: two nodes that are just too small make one
that is not too large, and a node that is just too large makes two that are not too small.
-/

namespace PopSetbench
namespace AbTree

variable {K V : Type}

theorem two_mul_minDegree_le {degree : ℕ} (hdegree : 4 ≤ degree) :
    2 * minDegree degree ≤ degree := by
  unfold minDegree
  omega

section

variable [LinearOrder K] {degree N N' h m m' ptr ptr' n : ℕ} {lo : WithBot K} {hi : WithTop K}
  {k key : K} {v : V} {w : Bool} {entries es es' : List (K × V)} {keys : List K}
  {ptrs : List (Node K V)} {left right : Node K V} {e : K × V}

/-! ### The pairs of a leaf -/

theorem Pairs.nil : Pairs lo hi ([] : List (K × V)) :=
  ⟨.nil, by simp⟩

theorem Pairs.append (hk : Within lo hi k) (hes : Pairs lo k es) (hes' : Pairs k hi es') :
    Pairs lo hi (es ++ es') := by
  refine ⟨?_, fun e he => ?_⟩
  · rw [List.map_append, List.pairwise_append]
    refine ⟨hes.sorted, hes'.sorted, fun x hx y hy => ?_⟩
    obtain ⟨e, he, rfl⟩ := List.mem_map.mp hx
    obtain ⟨e', he', rfl⟩ := List.mem_map.mp hy
    exact (within_coe_right.mp (hes.within e he)).2.trans_le
      (within_coe_left.mp (hes'.within e' he')).1
  · rcases List.mem_append.mp he with he | he
    · exact (hes.within e he).mono le_rfl hk.2.le
    · exact (hes'.within e he).mono hk.1 le_rfl

/-- A leaf is cut in two at a pair, whose key becomes the separator. -/
theorem Pairs.cut (hes : Pairs lo hi es) (he : es[n]? = some e) :
    Pairs lo e.1 (es.take n) ∧ Pairs e.1 hi (es.drop n) := by
  obtain ⟨hn, rfl⟩ := List.getElem?_eq_some_iff.mp he
  have hsplit : es = es.take n ++ es.drop n := (List.take_append_drop n es).symm
  have hsorted := hes.sorted
  rw [hsplit, List.map_append, List.pairwise_append] at hsorted
  obtain ⟨hleft, hright, hlt⟩ := hsorted
  have hdrop : es.drop n = es[n] :: es.drop (n + 1) := List.drop_eq_getElem_cons hn
  refine ⟨⟨hleft, fun x hx => ?_⟩, ⟨hright, fun x hx => ?_⟩⟩
  · have hkey : es[n].1 ∈ (es.drop n).map Prod.fst := by
      rw [hdrop]
      exact List.mem_map_of_mem List.mem_cons_self
    exact within_coe_right.mpr ⟨(hes.within x (List.mem_of_mem_take hx)).1,
      hlt x.1 (List.mem_map_of_mem hx) _ hkey⟩
  · refine within_coe_left.mpr ⟨?_, (hes.within x (List.mem_of_mem_drop hx)).2⟩
    rw [hdrop, List.map_cons, List.pairwise_cons] at hright
    rw [hdrop] at hx
    rcases List.mem_cons.mp hx with rfl | hx
    · exact le_rfl
    · exact (hright.1 x.1 (List.mem_map_of_mem hx)).le

theorem Pairs.set (hes : Pairs lo hi es) (he : es[n]? = some (k, v)) (v' : V) :
    Pairs lo hi (es.set n (k, v')) := by
  obtain ⟨hn, hkv⟩ := List.getElem?_eq_some_iff.mp he
  have hkeys : (es.set n (k, v')).map Prod.fst = es.map Prod.fst := by
    ext i
    rw [List.map_set, List.getElem?_set]
    split_ifs with hi hlt
    · subst hi
      simp [he]
    · subst hi
      simp at hlt
      omega
    · rfl
  refine ⟨hkeys ▸ hes.sorted, fun e he' => ?_⟩
  rcases List.mem_or_eq_of_mem_set he' with hmem | rfl
  · exact hes.within e hmem
  · have hmem := hes.within _ (List.getElem_mem hn)
    rwa [hkv] at hmem

theorem Pairs.eraseIdx (hes : Pairs lo hi es) (n : ℕ) : Pairs lo hi (es.eraseIdx n) := by
  have hsub : (es.eraseIdx n).Sublist es := List.eraseIdx_sublist es n
  exact ⟨hes.sorted.sublist (hsub.map _), fun e he => hes.within e (hsub.subset he)⟩

theorem getKeyIndex_le (key : K) (es : List (K × V)) :
    getKeyIndex key (es.map Prod.fst) ≤ es.length := by
  have hle : getKeyIndex key (es.map Prod.fst) ≤ (es.map Prod.fst).length :=
    List.findIdx_le_length
  rwa [List.length_map] at hle

/-- The pair goes to where the search for its key in the leaf has ended. -/
theorem Pairs.insertIdx (hes : Pairs lo hi es) (hkey : Within lo hi key)
    (hnew : pairAt es (getKeyIndex key (es.map Prod.fst)) key = none) :
    Pairs lo hi (es.insertIdx (getKeyIndex key (es.map Prod.fst)) (key, v)) := by
  obtain ⟨hsorted, hwithin⟩ := hes
  refine ⟨?_, fun e he => ?_⟩
  · induction es with
    | nil => simp
    | cons e es ih =>
      rw [List.map_cons, List.pairwise_cons] at hsorted
      by_cases hlt : e.1 < key
      · -- the search goes on behind the pair
        have hidx : getKeyIndex key ((e :: es).map Prod.fst) =
            getKeyIndex key (es.map Prod.fst) + 1 := by
          rw [List.map_cons, getKeyIndex_cons]
          simp [hlt]
        rw [hidx] at hnew ⊢
        rw [List.insertIdx_succ_cons, List.map_cons, List.pairwise_cons]
        refine ⟨fun x hx => ?_, ih hnew hsorted.2 fun x hx => hwithin x (List.mem_cons_of_mem _ hx)⟩
        obtain ⟨e', he', rfl⟩ := List.mem_map.mp hx
        rcases (List.mem_insertIdx (getKeyIndex_le key es)).mp he' with rfl | hmem
        · exact hlt
        · exact hsorted.1 _ (List.mem_map_of_mem hmem)
      · -- the search ends here, at a key that is another one
        have hidx : getKeyIndex key ((e :: es).map Prod.fst) = 0 := by
          rw [List.map_cons, getKeyIndex_cons]
          simp [hlt]
        rw [hidx] at hnew ⊢
        have hne : e.1 ≠ key := by simpa [pairAt] using hnew
        have hkey' : key < e.1 := lt_of_le_of_ne (not_lt.mp hlt) hne.symm
        rw [List.insertIdx_zero, List.map_cons, List.map_cons, List.pairwise_cons,
          List.pairwise_cons]
        refine ⟨fun x hx => ?_, hsorted⟩
        rcases List.mem_cons.mp hx with rfl | hx
        · exact hkey'
        · exact hkey'.trans (hsorted.1 x hx)
  · rcases (List.mem_insertIdx (getKeyIndex_le key es)).mp he with rfl | hmem
    · exact hkey
    · exact hwithin e hmem

/-! ### Cutting and joining -/

/-- The pairs of a leaf are cut in two, with the first pair of each part. -/
theorem Pairs.halves (hes : Pairs lo hi es) (hpos : 0 < n) (hn : n < es.length) :
    ∃ first e, es[0]? = some first ∧ (es.take n)[0]? = some first ∧ es[n]? = some e ∧
      (es.drop n)[0]? = some e ∧ Within lo hi e.1 ∧ Within lo e.1 first.1 ∧ Within e.1 hi e.1 ∧
      Pairs lo e.1 (es.take n) ∧ Pairs e.1 hi (es.drop n) := by
  have hpos' : 0 < es.length := by omega
  obtain ⟨hleft, hright⟩ := hes.cut (List.getElem?_eq_getElem hn)
  have hfirst : (es.take n)[0]? = some es[0] := by
    rw [List.getElem?_take_of_lt (by omega), List.getElem?_eq_getElem hpos']
  have hsecond : (es.drop n)[0]? = some es[n] := by
    rw [List.getElem?_drop, Nat.add_zero, List.getElem?_eq_getElem hn]
  exact ⟨es[0], es[n], List.getElem?_eq_getElem hpos', hfirst, List.getElem?_eq_getElem hn, hsecond,
    hes.within _ (List.getElem_mem hn), hleft.within _ (List.mem_of_getElem? hfirst),
    hright.within _ (List.mem_of_getElem? hsecond), hleft, hright⟩

/-- A leaf is cut in two. -/
theorem cut_leaf (degree ptr ptr' n : ℕ) (hes : Pairs lo hi es) (hle : minDegree degree ≤ n)
    (hsize : n ≤ degree) (hle' : minDegree degree ≤ es.length - n) (hsize' : es.length - n ≤ degree)
    (hptr : ptr < N) (hptr' : ptr' < N) :
    ∃ first e, es[0]? = some first ∧ (es.take n)[0]? = some first ∧ es[n]? = some e ∧
      (es.drop n)[0]? = some e ∧ Within lo hi e.1 ∧
      Child degree N 0 lo e.1 (.leaf ptr first.1 true (es.take n)) ∧
      Child degree N 0 e.1 hi (.leaf ptr' e.1 true (es.drop n)) := by
  have htwo := two_le_minDegree degree
  obtain ⟨first, e, h₀, hfirst, he, hsecond, hwithin, hfst, hsnd, hleft, hright⟩ :=
    hes.halves (n := n) (by omega) (by omega)
  refine ⟨first, e, h₀, hfirst, he, hsecond, hwithin,
    ⟨⟨rfl, hptr, hfst, ?_, ?_⟩, hleft⟩, ⟨⟨rfl, hptr', hsnd, ?_, ?_⟩, hright⟩⟩
  all_goals simp only [Node.getABDegree, List.length_take, List.length_drop]; omega

/-- An internal node is cut in two. -/
theorem cut_internal (ptr ptr' n : ℕ) (hs : Separated (Child degree N h) lo hi keys ptrs)
    (hle : minDegree degree ≤ n) (hsize : n ≤ degree)
    (hle' : minDegree degree ≤ ptrs.length - n) (hsize' : ptrs.length - n ≤ degree)
    (hptr : ptr < N) (hptr' : ptr' < N) :
    ∃ first k second, keys[0]? = some first ∧ (keys.take (n - 1))[0]? = some first ∧
      keys[n - 1]? = some k ∧ keys[n]? = some second ∧ (keys.drop n)[0]? = some second ∧
      Within lo hi k ∧
      Child degree N (h + 1) lo k (.internal ptr first true (keys.take (n - 1)) (ptrs.take n)) ∧
      Child degree N (h + 1) k hi (.internal ptr' second true (keys.drop n) (ptrs.drop n)) := by
  have htwo := two_le_minDegree degree
  obtain ⟨first, k, second, h₀, hfirst, hk, h₁, hsecond, hwithin, hfst, hsnd, hleft, hright⟩ :=
    hs.halves child_within (n := n) (by omega) (by omega)
  refine ⟨first, k, second, h₀, hfirst, hk, h₁, hsecond, hwithin,
    ⟨⟨rfl, hptr, hfst, ?_, ?_⟩, holds_internal.mpr hleft⟩,
    ⟨⟨rfl, hptr', hsnd, ?_, ?_⟩, holds_internal.mpr hright⟩⟩
  all_goals simp only [Node.getABDegree, List.length_take, List.length_drop]; omega

end

/-! ### A node and its sibling -/

/-- A node and the sibling with which its size is repaired, `left` and `right` in the order of their
keys, and the other children of the parent, on both sides of the two. -/
structure Adjacent (p : Frame K V) (n sibling : Node K V) where
  (left right : Node K V)
  (pre post : List (Node K V))
  nodes : left = n ∧ right = sibling ∨ left = sibling ∧ right = n
  left_eq : (if p.ix < p.ixToS then n else sibling) = left
  right_eq : (if p.ix < p.ixToS then sibling else n) = right
  leftindex : min p.ix p.ixToS = pre.length
  rightindex : max p.ix p.ixToS = pre.length + 1
  ptrs : p.ptrs n = pre ++ left :: right :: post
  /-- The two are replaced by one. -/
  joined : ∀ c, ((p.ptrs n).set p.ix c).eraseIdx p.ixToS = pre ++ c :: post

namespace Adjacent

variable {p : Frame K V} {n sibling : Node K V}

theorem exists_of_sibling (hs : (p.ptrs n)[p.ixToS]? = some sibling) :
    Nonempty (Adjacent p n sibling) := by
  rcases List.eq_nil_or_concat' p.before with hbefore | ⟨pre, c, hbefore⟩
  · -- the first child: the sibling is the second
    have hix : p.ix = 0 := by simp [Frame.ix, hbefore]
    have hixToS : p.ixToS = 1 := by simp [Frame.ixToS, hix]
    cases hafter : p.after with
    | nil => simp [Frame.ptrs, hixToS, hbefore, hafter] at hs
    | cons c post =>
      have hptrs : p.ptrs n = n :: c :: post := by simp [Frame.ptrs, hbefore, hafter]
      obtain rfl : c = sibling := by simpa [hptrs, hixToS] using hs
      exact ⟨{
        left := n, right := c, pre := [], post := post
        nodes := .inl ⟨rfl, rfl⟩
        left_eq := by simp [hix, hixToS]
        right_eq := by simp [hix, hixToS]
        leftindex := by simp [hix, hixToS]
        rightindex := by simp [hix, hixToS]
        ptrs := hptrs
        joined := fun d => by simp [hptrs, hix, hixToS] }⟩
  · -- the sibling is the one before
    have hix : p.ix = pre.length + 1 := by simp [Frame.ix, hbefore]
    have hixToS : p.ixToS = pre.length := by simp [Frame.ixToS, hix]
    have hptrs : p.ptrs n = pre ++ c :: n :: p.after := by simp [Frame.ptrs, hbefore]
    obtain rfl : c = sibling := by simpa [hptrs, hixToS] using hs
    exact ⟨{
      left := c, right := n, pre := pre, post := p.after
      nodes := .inr ⟨rfl, rfl⟩
      left_eq := by simp [hix, hixToS]
      right_eq := by simp [hix, hixToS]
      leftindex := by simp [hix, hixToS]
      rightindex := by simp [hix, hixToS]
      ptrs := hptrs
      joined := fun d => by
        have herase := List.eraseIdx_append_of_length_le (le_refl pre.length) (c :: d :: p.after)
        simpa [hptrs, hix, hixToS] using herase }⟩

variable (A : Adjacent p n sibling)

theorem sizes : A.left.getABDegree + A.right.getABDegree = n.getABDegree + sibling.getABDegree := by
  rcases A.nodes with ⟨hl, hr⟩ | ⟨hl, hr⟩
  · rw [hl, hr]
  · rw [hl, hr, Nat.add_comm]

theorem length_eq : p.getABDegree = A.pre.length + A.post.length + 2 := by
  have hp : (p.ptrs n).length = p.getABDegree := p.getABDegree_node n
  rw [← hp, A.ptrs]
  simp only [List.length_append, List.length_cons]
  omega

theorem ptrs_set (x y : Node K V) :
    ((p.ptrs n).set (min p.ix p.ixToS) x).set (max p.ix p.ixToS) y = A.pre ++ [x, y] ++ A.post := by
  rw [A.ptrs, A.leftindex, A.rightindex]
  simp

section

variable {P : WithBot K → WithTop K → Node K V → Prop} {lo l : WithBot K} {hi u : WithTop K}
  {ksL ksR : List K} {k : K}

/-- The keys of the parent around the two. -/
theorem exists_hole (hp : Separated P lo hi p.keys (p.ptrs n)) :
    ∃ (ksL : List K) (k : K) (ksR : List K) (l : WithBot K) (u : WithTop K),
      p.keys = ksL ++ k :: ksR ∧ Hole P lo hi ksL ksR A.pre A.post l u ∧ P l k A.left ∧
        P k u A.right := by
  rw [A.ptrs] at hp
  exact Hole.exists_of_pair hp

variable (hole : Hole P lo hi ksL ksR A.pre A.post l u) (hkeys : p.keys = ksL ++ k :: ksR)

include hole hkeys

theorem getElem_keys : p.keys[min p.ix p.ixToS]? = some k := by
  rw [hkeys, A.leftindex, hole.left.length_eq]
  simp

theorem keys_set (k' : K) : p.keys.set (min p.ix p.ixToS) k' = ksL ++ [k'] ++ ksR := by
  rw [hkeys, A.leftindex, hole.left.length_eq]
  simp

theorem keys_eraseIdx : p.keys.eraseIdx (min p.ix p.ixToS) = ksL ++ [] ++ ksR := by
  rw [hkeys, A.leftindex, hole.left.length_eq, List.eraseIdx_append_of_length_le le_rfl]
  simp

end

/-- The parent has no other children than the two. -/
theorem range_eq {P : WithBot K → WithTop K → Node K V → Prop} {lo l : WithBot K} {hi u : WithTop K}
    {ksL ksR : List K} (hole : Hole P lo hi ksL ksR A.pre A.post l u) (htwo : p.getABDegree = 2) :
    l = lo ∧ u = hi := by
  have hlen := A.length_eq
  have hpre : A.pre = [] := List.length_eq_zero_iff.mp (by omega)
  have hpost : A.post = [] := List.length_eq_zero_iff.mp (by omega)
  obtain ⟨left, right⟩ := hole
  rw [hpre] at left
  rw [hpost] at right
  constructor
  · cases left
    rfl
  · cases right with
    | nil => rfl
    | cons rest => cases rest

end Adjacent

section

variable [LinearOrder K] {degree N N' h m m' ptr ptr' n : ℕ} {lo : WithBot K} {hi : WithTop K}
  {k key : K} {v : V} {w : Bool} {entries es es' : List (K × V)} {keys : List K}
  {ptrs : List (Node K V)} {left right : Node K V} {e : K × V}

/-! ### The new nodes of a repair -/

theorem split_eq (ptr : ℕ) (w : Bool) (hdegree : 4 ≤ degree)
    (hs : Separated (Child degree N h) lo hi keys ptrs) (hlen : ptrs.length = degree + 1)
    (hptr : ptr + 1 < N) :
    ∃ k x y, split ptr w keys ptrs = some (.internal (ptr + 2) k w [k] [x, y]) ∧
      Within lo hi k ∧ Separated (Child degree N (h + 1)) lo hi [k] [x, y] := by
  have hbound := two_mul_minDegree_le hdegree
  obtain ⟨first, k, second, hfirst, -, hk, hsecond, -, hwithin, hx, hy⟩ :=
    cut_internal ptr (ptr + 1) (ptrs.length / 2) hs (by omega) (by omega)
      (by omega) (by omega) (by omega) hptr
  refine ⟨k, _, _, ?_, hwithin, .cons hx (.last hy)⟩
  simp [split, hfirst, hk, hsecond]

theorem overflow_eq (ptr : ℕ) (w : Bool) (hdegree : 4 ≤ degree) (hes : Pairs lo hi entries)
    (hlen : entries.length = degree + 1) (hptr : ptr + 1 < N) :
    ∃ k x y, overflow degree ptr w entries = some (.internal (ptr + 2) k w [k] [x, y]) ∧
      Within lo hi k ∧ Separated (Child degree N 0) lo hi [k] [x, y] := by
  have hbound := two_mul_minDegree_le hdegree
  obtain ⟨first, e, hfirst, -, he, -, hwithin, hx, hy⟩ :=
    cut_leaf degree ptr (ptr + 1) ((degree + 1) / 2) hes
      (by omega) (by omega) (by omega) (by omega) (by omega) hptr
  refine ⟨e.1, _, _, ?_, hwithin, .cons hx (.last hy)⟩
  have htake : (entries.drop ((degree + 1) / 2)).take (degree + 1 - (degree + 1) / 2) =
      entries.drop ((degree + 1) / 2) := by
    refine List.take_of_length_le ?_
    rw [List.length_drop, hlen]
  simp [overflow, hfirst, he, htake]

theorem absorb_eq (m ptr : ℕ) (hs : Separated (Child degree N h) lo hi keys ptrs)
    (htwo : 2 ≤ ptrs.length) (hle : m ≤ ptrs.length) (hsize : ptrs.length ≤ degree)
    (hptr : ptr < N) :
    ∃ n, absorb ptr keys ptrs = some n ∧ n.ptr = ptr ∧ n.getABDegree = ptrs.length ∧
      Rest degree N (h + 1) m lo hi n := by
  have hlen := hs.length_eq
  have hpos : 0 < keys.length := by omega
  refine ⟨.internal ptr keys[0] true keys ptrs, ?_, rfl, rfl, ⟨rfl, hptr, ?_, hle, hsize⟩,
    holds_internal.mpr hs⟩
  · simp [absorb, List.getElem?_eq_getElem hpos]
  · exact hs.within child_within (List.getElem_mem hpos)

/-- Two siblings are joined. -/
theorem absorbSibling_eq (ptr : ℕ) (hleft : Rest degree N h m lo k left)
    (hright : Rest degree N h m' k hi right) (hk : Within lo hi key)
    (hle : minDegree degree ≤ left.getABDegree + right.getABDegree)
    (hsize : left.getABDegree + right.getABDegree ≤ degree) (hptr : ptr < N) :
    ∃ n, absorbSibling ptr key left right k = some n ∧ n.ptr = ptr ∧
      Child degree N h lo hi n := by
  have hwithin : Within lo hi k := hleft.fits.searchKey.between hright.fits.searchKey
  cases h with
  | zero =>
    cases left with
    | internal => exact hleft.holds.elim
    | leaf ptr₁ key₁ w₁ es =>
      cases right with
      | internal => exact hright.holds.elim
      | leaf ptr₂ key₂ w₂ es' =>
        refine ⟨_, rfl, rfl, ⟨rfl, hptr, hk, ?_, ?_⟩, Pairs.append hwithin hleft.holds hright.holds⟩
        all_goals simp only [Node.getABDegree, List.length_append] at *; omega
  | succ h =>
    cases left with
    | leaf => exact hleft.holds.elim
    | internal ptr₁ key₁ w₁ ks cs =>
      cases right with
      | leaf => exact hright.holds.elim
      | internal ptr₂ key₂ w₂ ks' cs' =>
        have happend := (holds_internal.mp hleft.holds).append (holds_internal.mp hright.holds)
        refine ⟨_, rfl, rfl, ⟨rfl, hptr, hk, ?_, ?_⟩, holds_internal.mpr happend⟩
        all_goals simp only [Node.getABDegree, List.length_append] at *; omega

/-- Two siblings are distributed anew. -/
theorem distribute_eq (ptr : ℕ) (hleft : Rest degree N h m lo k left)
    (hright : Rest degree N h m' k hi right)
    (hle : 2 * minDegree degree ≤ left.getABDegree + right.getABDegree)
    (hsize : left.getABDegree + right.getABDegree ≤ 2 * degree) (hptr : ptr + 1 < N) :
    ∃ x k' y, distribute ptr left right k = some (x, k', y) ∧
      Separated (Child degree N h) lo hi [k'] [x, y] := by
  have hwithin : Within lo hi k := hleft.fits.searchKey.between hright.fits.searchKey
  cases h with
  | zero =>
    cases left with
    | internal => exact hleft.holds.elim
    | leaf ptr₁ key₁ w₁ es =>
      cases right with
      | internal => exact hright.holds.elim
      | leaf ptr₂ key₂ w₂ es' =>
        have happend := Pairs.append hwithin hleft.holds hright.holds
        simp only [Node.getABDegree] at hle hsize
        have hlen : (es ++ es').length = es.length + es'.length := List.length_append
        obtain ⟨first, e, -, hfirst, he, hsecond, -, hx, hy⟩ :=
          cut_leaf degree ptr (ptr + 1) ((es ++ es').length / 2)
            happend (by omega) (by omega) (by omega) (by omega) (by omega) hptr
        refine ⟨_, e.1, _, ?_, .cons hx (.last hy)⟩
        simp only [distribute, hfirst, he, hsecond]
        rfl
  | succ h =>
    cases left with
    | leaf => exact hleft.holds.elim
    | internal ptr₁ key₁ w₁ ks cs =>
      cases right with
      | leaf => exact hright.holds.elim
      | internal ptr₂ key₂ w₂ ks' cs' =>
        have happend := (holds_internal.mp hleft.holds).append (holds_internal.mp hright.holds)
        simp only [Node.getABDegree] at hle hsize
        have hlen : (cs ++ cs').length = cs.length + cs'.length := List.length_append
        obtain ⟨first, k', second, -, hfirst, hk, -, hsecond, -, hx, hy⟩ :=
          cut_internal ptr (ptr + 1) ((cs ++ cs').length / 2) happend
            (by omega) (by omega) (by omega) (by omega) (by omega) hptr
        refine ⟨_, k', _, ?_, .cons hx (.last hy)⟩
        simp only [distribute, hfirst, hk, hsecond]
        rfl

end

end AbTree
end PopSetbench

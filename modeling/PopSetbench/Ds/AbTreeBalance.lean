import PopSetbench.Ds.AbTreeNodes

/-!
# The relaxed (a,b)-tree: balance at rest

`State.Pending` is a tree with one new node that may have a violation. A repair either ends in a
tree without one, or makes another new node, at the end of a path that is shorter by one: so both
repairs are inductions along the path.

* A node of weight zero has just two children (`ZeroWeight`). Absorb ends the repair, and Split
  leaves such a node one level up (`weightStep_eq`).
* A node that is too small has one child less than it should. Distribute ends the repair, and
  AbsorbSibling leaves a node one level up that may be too small (`degreeStep_eq`).

The repairs that Split and AbsorbSibling begin at other new nodes return at once: these nodes are
large enough, or finalized by then.
-/

namespace PopSetbench
namespace AbTree

variable {K V : Type}

section

variable [LinearOrder K]

/-- A tree without a violation. -/
structure State.Sound (degree : ℕ) (s : State K V) : Prop where
  root : AtRest degree s.next s.root
  entry_lt : entry < s.next
  finalized : ∀ q ∈ s.finalized, q < s.next

/-- A tree in which only the node `n`, the newest one of the path, may have a violation. -/
structure State.Pending (degree h : ℕ) (lo : WithBot K) (hi : WithTop K) (path : List (Frame K V))
    (n : Node K V) (s : State K V) : Prop where
  ctx : Ctx degree n.ptr h lo hi path
  root : s.root = plug path n
  searchKey : Within lo hi n.searchKey
  entry_lt : entry < n.ptr
  ptr_lt : n.ptr < s.next
  notMem : n.ptr ∉ s.finalized
  finalized : ∀ q ∈ s.finalized, q < s.next

/-- The node of a split. Its weight is zero unless it is the root. -/
structure State.ZeroWeight (degree h : ℕ) (lo : WithBot K) (hi : WithTop K)
    (path : List (Frame K V)) (n : Node K V) (s : State K V) : Prop
    extends s.Pending degree h lo hi path n where
  shape : ∃ ptr k x y, n = .internal ptr k path.isEmpty [k] [x, y] ∧
    Separated (Child degree s.next h) lo hi [k] [x, y]

/-- The smallest size of a node that a repair of its size goes on with. -/
def shortAt (degree h : ℕ) : List (Frame K V) → ℕ
  | [] => minAt degree h ([] : List (Frame K V))
  | _ :: _ => minDegree degree - 1

end

section

variable [LinearOrder K] {degree h h' : ℕ} {lo lo' : WithBot K} {hi hi' : WithTop K}
  {n n' : Node K V} {p : Frame K V} {path : List (Frame K V)} {s s' : State K V}

omit [LinearOrder K] in
/-- The root is the first node of the path. -/
theorem plug_ptr (path : List (Frame K V)) (p : Frame K V) (n : Node K V) :
    ∃ q ∈ p :: path, (plug (p :: path) n).ptr = q.ptr := by
  induction path generalizing p n with
  | nil => exact ⟨p, List.mem_cons_self, rfl⟩
  | cons q path ih =>
    obtain ⟨r, hr, heq⟩ := ih q (p.node n)
    exact ⟨r, List.mem_cons_of_mem p hr, heq⟩

/-- A newer node is put in the place of one of the path. -/
theorem State.pending_scxExecute (n : Node K V) (allocated : ℕ) (removed : List ℕ)
    (hentry : entry < s.next) (hfin : ∀ q ∈ s.finalized, q < s.next)
    (hctx : Ctx degree s.next h lo hi path) (hkey : Within lo hi n.searchKey)
    (hnew : s.next ≤ n.ptr) (hptr : n.ptr < s.next + allocated)
    (hremoved : ∀ q ∈ removed, q < s.next) :
    (s.scxExecute path n allocated removed).Pending degree h lo hi path n := by
  have hold : ∀ q ∈ removed ++ s.finalized, q < s.next := by
    intro q hq
    rcases List.mem_append.mp hq with hq | hq
    · exact hremoved q hq
    · exact hfin q hq
  refine ⟨hctx.mono hnew, rfl, hkey, hentry.trans_le hnew, hptr, fun hmem => ?_,
    fun q hq => (hold q hq).trans_le (Nat.le_add_right _ _)⟩
  exact absurd (hold _ hmem) hnew.not_gt

namespace State.Pending

theorem entry_lt_next (hs : s.Pending degree h lo hi path n) : entry < s.next :=
  hs.entry_lt.trans hs.ptr_lt

theorem search (hs : s.Pending degree h lo hi path n) :
    Settles (fun fuel => search fuel [] s.root n.searchKey (some n.ptr)) (path, n) := by
  rw [hs.root]
  exact search_viol hs.ctx hs.searchKey le_rfl

/-- The new node is not the root, if there is a node above it. -/
theorem ne_root (hs : s.Pending degree h lo hi (p :: path) n) : n.ptr ≠ s.root.ptr := by
  obtain ⟨q, hq, heq⟩ := plug_ptr path p n
  rw [hs.root, heq]
  exact (hs.ctx.ptr_lt q hq).ne'

theorem sound (hs : s.Pending degree h lo hi path n)
    (hn : Rest degree s.next h (minAt degree h path) lo hi n) : s.Sound degree := by
  refine ⟨?_, hs.entry_lt_next, hs.finalized⟩
  rw [hs.root]
  exact (hs.ctx.mono hs.ptr_lt.le).plug hn

end State.Pending

/-! ### Repairs that return at once -/

theorem fixWeight_of_weight (hn : n.weight = true) :
    Settles (fun fuel => fixWeightViolation degree fuel s n) (s, false) := by
  refine .of_succ (.of_forall fun fuel => ?_)
  simp [fixWeightViolation, hn]

theorem fixDegree_of_size (hn : minDegree degree ≤ n.getABDegree) :
    Settles (fun fuel => fixDegreeViolation degree fuel s n) (s, false) := by
  refine .of_succ (.of_forall fun fuel => ?_)
  simp [fixDegreeViolation, hn]

theorem fixDegree_of_root (hn : n.ptr = s.root.ptr) :
    Settles (fun fuel => fixDegreeViolation degree fuel s n) (s, false) := by
  refine .of_succ (.of_forall fun fuel => ?_)
  simp [fixDegreeViolation, hn]

theorem fixDegree_of_finalized (hn : n.ptr ∈ s.finalized) :
    Settles (fun fuel => fixDegreeViolation degree fuel s n) (s, false) := by
  refine .of_succ (.of_forall fun fuel => ?_)
  simp [fixDegreeViolation, hn]

/-! ### Weight -/

/-- The keys and children of a node and of its child in one. -/
theorem Frame.Fits.merge {N m : ℕ} {l : WithBot K} {u : WithTop K} {keys : List K}
    {ptrs : List (Node K V)} (hp : p.Fits degree N h m lo hi l u)
    (hs : Separated (Child degree N h) l u keys ptrs) :
    Separated (Child degree N h) lo hi (p.keys.take p.ix ++ keys ++ p.keys.drop p.ix)
      (p.before ++ ptrs ++ p.after) := by
  obtain ⟨ksL, ksR, hkeys, hole⟩ := hp.hole
  have hix : p.ix = ksL.length := hole.left.length_eq
  rw [hkeys, hix, List.take_left, List.drop_left]
  exact hole.fill hs

/-- **Absorb and Split.** The repair is done, or goes on with a node one level up. -/
theorem weightStep_eq (hdegree : 4 ≤ degree) (hs : s.ZeroWeight degree h lo hi (p :: path) n) :
    ∃ s' n' zero, weightStep degree s p path n = some (s', n', zero) ∧
      (∀ q ∈ s.finalized, q ∈ s'.finalized) ∧ n.ptr ∈ s'.finalized ∧
      (zero = false ∧ s'.Sound degree ∧ (minDegree degree ≤ n'.getABDegree ∨ n'.ptr = s'.root.ptr) ∨
        zero = true ∧ ∃ lo' hi', s'.ZeroWeight degree (h + 1) lo' hi' path n') := by
  obtain ⟨ptr, k, x, y, rfl, hsep⟩ := hs.shape
  have hnext : ptr < s.next := hs.ptr_lt
  cases hs.ctx with
  | @frame _ lo' hi' _ _ _ _ hp hctx =>
    have hctxN : Ctx degree s.next (h + 1) lo' hi' path := hctx.mono hnext.le
    have htwo := two_le_minAt degree h path
    have hle := hp.le_size
    -- the children with those of `n` in place of it
    have hmerge : ∀ N', s.next ≤ N' → _ := fun N' hN' =>
      (hp.mono (hnext.le.trans hN')).merge (hsep.imp fun _ _ _ hc => hc.mono hN')
    have hlen : (p.before ++ [x, y] ++ p.after).length = p.getABDegree + 1 := by
      simp only [Frame.getABDegree, List.length_append, List.length_cons, List.length_nil]
      omega
    have hremoved : ∀ q ∈ [p.ptr, ptr], q < s.next := by
      intro q hq
      have hplt : p.ptr < ptr := hp.ptr_lt
      rcases List.mem_pair.mp hq with rfl | rfl <;> omega
    -- `p` and `n` are finalized, and what was stays so
    have hkeep : ∀ n' allocated, ∀ q ∈ s.finalized,
        q ∈ (s.scxExecute path n' allocated [p.ptr, ptr]).finalized :=
      fun _ _ q hq => List.mem_append_right _ hq
    have hgone : ∀ n' allocated,
        ptr ∈ (s.scxExecute path n' allocated [p.ptr, ptr]).finalized :=
      fun _ _ => List.mem_append_left _ (by simp)
    have hcount : p.getABDegree + 2 - 1 = p.getABDegree + 1 := rfl
    by_cases hsize : p.getABDegree + 1 ≤ degree
    · -- Absorb
      obtain ⟨n', habsorb, hptr, hn'size, hn'⟩ :=
        absorb_eq (minAt degree (h + 1) path) s.next
          (hmerge (s.next + 1) (Nat.le_succ _)) (by omega) (by omega) (by omega)
          (Nat.lt_succ_self _)
      have hpend := State.pending_scxExecute n' 1 [p.ptr, ptr] hs.entry_lt_next hs.finalized hctxN
        hn'.fits.searchKey hptr.ge hn'.fits.ptr_lt hremoved
      refine ⟨_, n', false, ?_, hkeep n' 1, hgone n' 1, .inl ⟨rfl, hpend.sound hn', ?_⟩⟩
      · simp only [weightStep, List.length_cons, List.length_nil, hcount, hsize, if_true, habsorb]
        rfl
      · cases path with
        | nil => exact .inr rfl
        | cons => exact .inl hn'.fits.le_size
    · -- Split
      have hsizep := hp.size_le
      obtain ⟨k', x', y', hsplit, hk', hsep'⟩ :=
        split_eq s.next path.isEmpty hdegree (hmerge (s.next + 3) (by omega))
          (by omega) (by omega)
      -- the new node has the weight zero: the violation is one level up
      have hpend := State.pending_scxExecute (.internal (s.next + 2) k' path.isEmpty [k'] [x', y'])
        3 [p.ptr, ptr] hs.entry_lt_next hs.finalized hctxN hk' (Nat.le_add_right _ _)
        (by simp [Node.ptr]) hremoved
      refine ⟨_, _, true, ?_, hkeep _ 3, hgone _ 3, .inr ⟨rfl, lo', hi', hpend, _, _, _, _, rfl,
        hsep'⟩⟩
      simp only [weightStep, List.length_cons, List.length_nil, hcount, hsize, if_false, hsplit]
      rfl

/-- The loop of `fixWeightViolation` at a node whose parent has a weight of one. -/
theorem fixWeight_of_step {s₁ s₂ s₃ : State K V} {zero b b' : Bool}
    (hs : s.Pending degree h lo hi (p :: path) n) (hzero : n.weight = false)
    (hweight : p.weight = true) (hstep : weightStep degree s p path n = some (s₁, n', zero))
    (hfix : Settles (fun fuel => if zero then fixWeightViolation degree fuel s₁ n'
      else some (s₁, false)) (s₂, b))
    (hfix' : Settles (fun fuel => fixDegreeViolation degree fuel s₂ n') (s₃, b')) :
    Settles (fun fuel => fixWeightViolation degree fuel s n) (s₃, true) := by
  have hloop : Settles (fun fuel => fixWeightLoop degree fuel s n) (s₃, true) := by
    refine .of_succ ?_
    filter_upwards [hs.search, hfix, hfix'] with fuel hsearch hfix hfix'
    rw [fixWeightLoop, hsearch]
    cases zero with
    | false =>
      obtain ⟨rfl, rfl⟩ := Prod.mk.inj (Option.some.inj hfix)
      simp [hweight, hstep, hfix']
    | true =>
      simp only [if_true] at hfix
      simp [hweight, hstep, hfix, hfix']
  refine .of_succ (hloop.congr fun fuel => ?_)
  rw [fixWeightViolation, hzero, if_neg Bool.false_ne_true, if_neg hs.notMem]

/-- **The weight repair.** It ends in a tree without a violation, from which the new node is gone
unless it is the root. -/
theorem fixWeight_settles (hdegree : 4 ≤ degree) (hs : s.ZeroWeight degree h lo hi path n) :
    ∃ s' b, Settles (fun fuel => fixWeightViolation degree fuel s n) (s', b) ∧ s'.Sound degree ∧
      (∀ q ∈ s.finalized, q ∈ s'.finalized) ∧ (n.ptr ∈ s'.finalized ∨ n.ptr = s'.root.ptr) := by
  induction path generalizing h lo hi n s with
  | nil =>
    obtain ⟨ptr, k, x, y, rfl, hsep⟩ := hs.shape
    obtain ⟨rfl, rfl⟩ := hs.ctx.nil_range
    have hroot : s.Pending degree (h + 1) ⊥ ⊤ [] (.internal ptr k true [k] [x, y]) :=
      { hs.toPending with ctx := .root }
    refine ⟨s, false, fixWeight_of_weight rfl, hroot.sound ?_, fun q hq => hq, .inr ?_⟩
    · exact ⟨⟨rfl, hs.ptr_lt, hs.searchKey, le_rfl, by simp [Node.getABDegree]; omega⟩,
        holds_internal.mpr hsep⟩
    · rw [hs.root]
      rfl
  | cons p path ih =>
    obtain ⟨s₁, n', zero, hstep, hkeep, hgone, hcase⟩ := weightStep_eq hdegree hs
    have hzero : n.weight = false := by
      obtain ⟨ptr, k, x, y, rfl, -⟩ := hs.shape
      rfl
    have hweight : p.weight = true := by
      cases hs.ctx with
      | frame fits => exact fits.weight
    rcases hcase with ⟨rfl, hsound, hdone⟩ | ⟨rfl, lo', hi', hs'⟩
    · -- Absorb: the new node is large enough
      have hfix' : Settles (fun fuel => fixDegreeViolation degree fuel s₁ n') (s₁, false) := by
        rcases hdone with hdone | hdone
        · exact fixDegree_of_size hdone
        · exact fixDegree_of_root hdone
      exact ⟨s₁, true, fixWeight_of_step hs.toPending hzero hweight hstep
        (.of_forall fun _ => rfl) hfix', hsound, hkeep, .inl hgone⟩
    · -- Split: the new node is finalized by the repair of its weight, or is the root
      obtain ⟨s₂, b, hfix, hsound, hkeep', hdone⟩ := ih hs'
      have hfix' : Settles (fun fuel => fixDegreeViolation degree fuel s₂ n') (s₂, false) := by
        rcases hdone with hdone | hdone
        · exact fixDegree_of_finalized hdone
        · exact fixDegree_of_root hdone
      exact ⟨s₂, true, fixWeight_of_step hs.toPending hzero hweight hstep hfix hfix', hsound,
        fun q hq => hkeep' q (hkeep q hq), .inl (hkeep' _ hgone)⟩

/-! ### Size -/

end

/-- A node and the sibling with which it is repaired, `left` and `right` in the order of their keys,
and what is on both sides of the two. -/
structure Siblings [LinearOrder K] (degree N h : ℕ) (lo : WithBot K) (hi : WithTop K)
    (p : Frame K V) (n : Node K V) where
  (sibling left right : Node K V)
  (pre post : List (Node K V))
  (ksL ksR : List K)
  (k : K)
  (l : WithBot K)
  (u : WithTop K)
  sibling_eq : (p.ptrs n)[p.ixToS]? = some sibling
  left_eq : (if p.ix < p.ixToS then n else sibling) = left
  right_eq : (if p.ix < p.ixToS then sibling else n) = right
  leftindex : min p.ix p.ixToS = pre.length
  rightindex : max p.ix p.ixToS = pre.length + 1
  keys : p.keys = ksL ++ k :: ksR
  ptrs : p.ptrs n = pre ++ left :: right :: post
  /-- The two are replaced by one. -/
  joined : ∀ c, ((p.ptrs n).set p.ix c).eraseIdx p.ixToS = pre ++ c :: post
  /-- The sibling has no violation. -/
  fits : ∃ l u, Fits degree N (minDegree degree) l u sibling
  sizes : left.getABDegree + right.getABDegree = n.getABDegree + sibling.getABDegree
  hole : Hole (Child degree N h) lo hi ksL ksR pre post l u
  restL : Rest degree N h 0 l k left
  restR : Rest degree N h 0 k u right
  searchKey : Within l u n.searchKey

section

variable [LinearOrder K] {degree N h h' m m' : ℕ} {lo lo' l : WithBot K} {hi hi' u : WithTop K}
  {n n' : Node K V} {p : Frame K V} {path : List (Frame K V)} {s s' : State K V}

theorem exists_siblings (hp : p.Fits degree N h m lo hi l u) (hn : Rest degree N h m' l u n)
    (htwo : 2 ≤ p.getABDegree) : Nonempty (Siblings degree N h lo hi p n) := by
  obtain ⟨ksL, ksR, hkeys, hole⟩ := hp.hole
  have hn₀ := hn.weaken (Nat.zero_le _)
  rcases List.eq_nil_or_concat' p.before with hbefore | ⟨pre, c, hbefore⟩
  · -- the first child: the sibling is the second
    cases hafter : p.after with
    | nil => simp [Frame.getABDegree, hbefore, hafter] at htwo
    | cons c post =>
      -- the key between the two is the first one that `p` has behind `n`
      rw [hbefore, hafter] at hole
      obtain ⟨k, ksR', u', rfl, rfl, hc, hole'⟩ := hole.uncons
      have hk : Within l u' k := hn.fits.searchKey.between hc.fits.searchKey
      have hix : p.ix = 0 := by simp [Frame.ix, hbefore]
      have hixToS : p.ixToS = 1 := by simp [Frame.ixToS, hix]
      have hptrs : p.ptrs n = n :: c :: post := by simp [Frame.ptrs, hbefore, hafter]
      exact ⟨{
        sibling := c, left := n, right := c, pre := [], post := post, ksL := ksL, ksR := ksR'
        k := k, l := l, u := u'
        sibling_eq := by simp [hptrs, hixToS]
        left_eq := by simp [hix, hixToS]
        right_eq := by simp [hix, hixToS]
        leftindex := by simp [hix, hixToS]
        rightindex := by simp [hix, hixToS]
        keys := hkeys
        ptrs := hptrs
        joined := fun d => by simp [hptrs, hix, hixToS]
        fits := ⟨_, _, hc.fits⟩
        sizes := rfl
        hole := hole', restL := hn₀, restR := hc.weaken (Nat.zero_le _)
        searchKey := hn.fits.searchKey.mono le_rfl hk.2.le }⟩
  · -- the sibling is the one before
    rw [hbefore] at hole
    -- the key between the two is the last one that `p` has before `n`
    obtain ⟨ksL', k, l', rfl, rfl, hc, hole'⟩ := hole.concat
    have hk : Within l' u k := hc.fits.searchKey.between hn.fits.searchKey
    have hix : p.ix = pre.length + 1 := by simp [Frame.ix, hbefore]
    have hixToS : p.ixToS = pre.length := by simp [Frame.ixToS, hix]
    have hptrs : p.ptrs n = pre ++ c :: n :: p.after := by simp [Frame.ptrs, hbefore]
    exact ⟨{
      sibling := c, left := c, right := n, pre := pre, post := p.after, ksL := ksL', ksR := ksR
      k := k, l := l', u := u
      sibling_eq := by simp [hptrs, hixToS]
      left_eq := by simp [hix, hixToS]
      right_eq := by simp [hix, hixToS]
      leftindex := by simp [hix, hixToS]
      rightindex := by simp [hix, hixToS]
      keys := by simp [hkeys]
      ptrs := hptrs
      joined := fun d => by
        have herase := List.eraseIdx_append_of_length_le (le_refl pre.length) (c :: d :: p.after)
        simpa [hptrs, hix, hixToS] using herase
      fits := ⟨_, _, hc.fits⟩
      sizes := Nat.add_comm _ _
      hole := hole', restL := hc.weaken (Nat.zero_le _), restR := hn₀
      searchKey := hn.fits.searchKey.mono hk.1 le_rfl }⟩

namespace Siblings

variable (S : Siblings degree N h lo hi p n)

include S

theorem ksL_length : S.ksL.length = S.pre.length :=
  S.hole.left.length_eq.symm

theorem getElem_keys : p.keys[min p.ix p.ixToS]? = some S.k := by
  rw [S.keys, S.leftindex, ← S.ksL_length]
  simp

theorem keys_set (k : K) : p.keys.set (min p.ix p.ixToS) k = S.ksL ++ [k] ++ S.ksR := by
  rw [S.keys, S.leftindex, ← S.ksL_length]
  simp

theorem keys_eraseIdx : p.keys.eraseIdx (min p.ix p.ixToS) = S.ksL ++ [] ++ S.ksR := by
  rw [S.keys, S.leftindex, ← S.ksL_length, List.eraseIdx_append_of_length_le le_rfl]
  simp

theorem ptrs_set (x y : Node K V) :
    ((p.ptrs n).set (min p.ix p.ixToS) x).set (max p.ix p.ixToS) y = S.pre ++ [x, y] ++ S.post := by
  rw [S.ptrs, S.leftindex, S.rightindex]
  simp

end Siblings

/-- The node above the two, with other nodes in their place. -/
theorem Siblings.rest {N' : ℕ} {ks : List K} {cs : List (Node K V)}
    (S : Siblings degree N h lo hi p n) (m ptr : ℕ) (hN : N ≤ N') (hptr : ptr < N')
    (hkey : Within lo hi p.searchKey) (hs : Separated (Child degree N' h) S.l S.u ks cs)
    (hle : m + 2 ≤ p.getABDegree + cs.length) (hsize : p.getABDegree + cs.length ≤ degree + 2) :
    Rest degree N' (h + 1) m lo hi
      (.internal ptr p.searchKey true (S.ksL ++ ks ++ S.ksR) (S.pre ++ cs ++ S.post)) := by
  have hlen : (S.pre ++ cs ++ S.post).length + 2 = p.getABDegree + cs.length := by
    have hp : (p.ptrs n).length = p.getABDegree := p.getABDegree_node n
    rw [← hp, S.ptrs]
    simp only [List.length_append, List.length_cons]
    omega
  refine ⟨⟨rfl, hptr, hkey, ?_, ?_⟩, ?_⟩
  · simp only [Node.getABDegree]
    omega
  · simp only [Node.getABDegree]
    omega
  · exact holds_internal.mpr ((S.hole.imp fun _ _ _ hc => hc.mono hN).fill hs)

/-- The root has no other children than the two. -/
theorem Siblings.range_eq (S : Siblings degree N h lo hi p n) (htwo : p.getABDegree = 2) :
    S.l = lo ∧ S.u = hi := by
  have hp : (p.ptrs n).length = p.getABDegree := p.getABDegree_node n
  rw [S.ptrs, htwo] at hp
  simp only [List.length_append, List.length_cons] at hp
  have hpre : S.pre = [] := List.length_eq_zero_iff.mp (by omega)
  have hpost : S.post = [] := List.length_eq_zero_iff.mp (by omega)
  obtain ⟨left, right⟩ := S.hole
  rw [hpre] at left
  rw [hpost] at right
  constructor
  · generalize S.ksL = ksL, S.l = l at left
    cases left
    rfl
  · generalize S.ksR = ksR, S.u = u at right
    cases right with
    | nil => rfl
    | cons rest => cases rest

/-- **AbsorbSibling and Distribute.** The repair goes on with a node one level up, or with the one
node that has become the root. The other new nodes are large enough. -/
theorem degreeStep_eq (hdegree : 4 ≤ degree) (hs : s.Pending degree h l u (p :: path) n)
    (hn : Rest degree s.next h (minDegree degree - 1) l u n)
    (hsmall : n.getABDegree < minDegree degree) :
    ∃ sibling, (p.ptrs n)[p.ixToS]? = some sibling ∧ sibling.weight = true ∧
      ∃ s' skip n' h' lo' hi', degreeStep degree s p path n sibling = some (s', skip ++ [n']) ∧
        (∀ c ∈ skip, minDegree degree ≤ c.getABDegree) ∧
        s'.Pending degree h' lo' hi' path n' ∧
        Rest degree s'.next h' (shortAt degree h' path) lo' hi' n' := by
  cases hs.ctx with
  | @frame _ lo hi _ _ _ _ hp hctx =>
    have hbound := two_mul_minDegree_le hdegree
    have htwo := two_le_minAt degree h path
    have hle := hp.le_size
    have hnle := hn.fits.le_size
    have hctxN : Ctx degree s.next (h + 1) lo hi path := hctx.mono hs.ptr_lt.le
    obtain ⟨S⟩ := exists_siblings (hp.mono hs.ptr_lt.le) hn (by omega)
    obtain ⟨_, _, hfits⟩ := S.fits
    have hSle := hfits.le_size
    have hSsize := hfits.size_le
    have hsizes := S.sizes
    refine ⟨S.sibling, S.sibling_eq, hfits.weight, ?_⟩
    -- what is removed is in the tree
    have hremoved : ∀ q ∈ removed p S.left S.right, q < s.next := by
      intro q hq
      have hplt : p.ptr < s.next := hp.ptr_lt.trans hs.ptr_lt
      have hL := S.restL.fits.ptr_lt
      have hR := S.restR.fits.ptr_lt
      unfold removed at hq
      split_ifs at hq
      · rwa [List.mem_singleton.mp hq]
      · simp only [List.mem_cons, List.not_mem_nil, or_false] at hq
        rcases hq with rfl | rfl | rfl <;> assumption
    by_cases hsz : S.left.getABDegree + S.right.getABDegree < 2 * minDegree degree
    · -- AbsorbSibling
      have hold : s.next ≤ s.next + 2 := Nat.le_add_right _ _
      by_cases hroot : path.isEmpty ∧ p.getABDegree = 2
      · -- the new node becomes the root
        obtain ⟨hempty, hpsize⟩ := hroot
        obtain rfl := List.isEmpty_iff.mp hempty
        obtain ⟨rfl, rfl⟩ := hctx.nil_range
        obtain ⟨hl, hu⟩ := S.range_eq hpsize
        obtain ⟨newl, hjoin, hnewl, hrest⟩ :=
          absorbSibling_eq s.next (S.restL.mono (Nat.le_succ _))
            (S.restR.mono (Nat.le_succ _)) S.searchKey (by omega) (by omega) (Nat.lt_succ_self _)
        rw [hl, hu] at hrest
        -- the new node has no parent, and is the one that is left to be looked at
        have hpend := State.pending_scxExecute newl 1 (removed p S.left S.right) hs.entry_lt_next
          hs.finalized (.root : Ctx degree s.next h ⊥ ⊤ []) hrest.fits.searchKey hnewl.ge
          hrest.fits.ptr_lt hremoved
        refine ⟨_, [], newl, h, ⊥, ⊤, ?_, by simp, hpend,
          hrest.weaken (minAt_le degree h ([] : List (Frame K V)))⟩
        simp only [degreeStep, S.left_eq, S.right_eq, hsz, if_true, S.getElem_keys, hjoin, hempty,
          hpsize, and_self, Option.bind_eq_bind, Option.bind_some, List.nil_append]
      · obtain ⟨newl, hjoin, hnewl, hrest'⟩ :=
          absorbSibling_eq s.next (S.restL.mono hold) (S.restR.mono hold) S.searchKey
            (by omega) (by omega) (by omega)
        have hsep : Separated (Child degree (s.next + 2) h) S.l S.u [] [newl] := .last hrest'
        -- `p` loses a child, and need not have enough of them any more
        have hshort : shortAt degree (h + 1) path + 2 ≤ p.getABDegree + 1 := by
          cases path with
          | nil =>
            simp only [List.isEmpty_nil, true_and] at hroot
            have hshort : shortAt degree (h + 1) ([] : List (Frame K V)) = 2 := rfl
            omega
          | cons =>
            simp only [shortAt, minAt] at htwo hle ⊢
            omega
        have hrest := S.rest (shortAt degree (h + 1) path) (s.next + 1) hold (by omega)
          hp.searchKey hsep (by simpa using hshort)
          (by simpa using hp.size_le.trans (Nat.le_succ _))
        -- both new nodes may be violations: the merged one and its parent
        have hpend := State.pending_scxExecute _ 2 _ hs.entry_lt_next hs.finalized hctxN
          hrest.fits.searchKey
          (Nat.le_succ _) hrest.fits.ptr_lt hremoved
        refine ⟨_, [newl], _, h + 1, lo, hi, ?_, ?_, hpend, hrest⟩
        · simp only [degreeStep, S.left_eq, S.right_eq, hsz, if_true, S.getElem_keys, hjoin, hroot,
            if_false, S.keys_eraseIdx, S.joined, Option.bind_eq_bind, Option.bind_some,
            List.append_assoc, List.singleton_append]
        · intro c hc
          rw [List.mem_singleton.mp hc]
          exact hrest'.fits.le_size
    · -- Distribute
      have hold : s.next ≤ s.next + 3 := Nat.le_add_right _ _
      -- the two have enough children together, and so has each of the new ones
      obtain ⟨x, k', y, hdist, hsep⟩ :=
        distribute_eq (s.next + 1) (S.restL.mono hold) (S.restR.mono hold) (by omega)
          (by omega) (by omega)
      have hrest := S.rest (minAt degree (h + 1) path) s.next hold (by omega)
        hp.searchKey hsep (by simpa using hle) (by simpa using hp.size_le)
      have hpend := State.pending_scxExecute _ 3 _ hs.entry_lt_next hs.finalized hctxN
        hrest.fits.searchKey le_rfl
        hrest.fits.ptr_lt hremoved
      refine ⟨_, [], _, h + 1, lo, hi, ?_, by simp, hpend, ?_⟩
      · simp only [degreeStep, S.left_eq, S.right_eq, hsz, if_false, S.getElem_keys, hdist,
          S.keys_set, S.ptrs_set, Option.bind_eq_bind, Option.bind_some, List.nil_append]
      · refine hrest.weaken ?_
        cases path with
        | nil => exact le_rfl
        | cons => exact Nat.sub_le _ _

/-- The new nodes that are large enough are passed over. -/
theorem foldlM_settles {skip : List (Node K V)} {b : Bool}
    (hskip : ∀ c ∈ skip, minDegree degree ≤ c.getABDegree)
    (hn : Settles (fun fuel => fixDegreeViolation degree fuel s n) (s', b)) :
    Settles (fun fuel => (skip ++ [n]).foldlM
      (fun s c => (fixDegreeViolation degree fuel s c).map Prod.fst) s) s' := by
  induction skip with
  | nil =>
    filter_upwards [hn] with fuel hn
    simp [hn]
  | cons c skip ih =>
    have hc := hskip c List.mem_cons_self
    have hrest := ih fun d hd => hskip d (List.mem_cons_of_mem c hd)
    filter_upwards [fixDegree_of_size (s := s) hc, hrest] with fuel hc ih
    simpa [hc] using ih

/-- The loop of `fixDegreeViolation` at a node without a violation of weight around it. -/
theorem fixDegree_of_step {sibling : Node K V} {new : List (Node K V)} {s₁ s₂ : State K V}
    (hs : s.Pending degree h lo hi (p :: path) n) (hsmall : n.getABDegree < minDegree degree)
    (hp : p.weight = true) (hn : n.weight = true) (hsib : (p.ptrs n)[p.ixToS]? = some sibling)
    (hweight : sibling.weight = true)
    (hstep : degreeStep degree s p path n sibling = some (s₁, new))
    (hfix : Settles (fun fuel => new.foldlM
      (fun s c => (fixDegreeViolation degree fuel s c).map Prod.fst) s₁) s₂) :
    Settles (fun fuel => fixDegreeViolation degree fuel s n) (s₂, true) := by
  have hloop : Settles (fun fuel => fixDegreeLoop degree fuel s n) (s₂, true) := by
    refine .of_succ ?_
    filter_upwards [hs.search, hfix] with fuel hsearch hfix
    rw [fixDegreeLoop, hsearch]
    simp [hp, hn, hsib, hweight, hstep, hfix]
  refine .of_succ (hloop.congr fun fuel => ?_)
  have hviol : ¬ (minDegree degree ≤ n.getABDegree ∨ n.ptr = entry ∨ n.ptr = s.root.ptr) := by
    have hentry := hs.entry_lt
    have hroot := hs.ne_root
    rintro (hle | heq | heq)
    · omega
    · omega
    · exact hroot heq
  rw [fixDegreeViolation, if_neg hviol, if_neg hs.notMem]

/-- **The degree repair.** It ends in a tree without a violation. -/
theorem fixDegree_settles (hdegree : 4 ≤ degree) (hs : s.Pending degree h lo hi path n)
    (hn : Rest degree s.next h (shortAt degree h path) lo hi n) :
    ∃ s' b, Settles (fun fuel => fixDegreeViolation degree fuel s n) (s', b) ∧
      s'.Sound degree := by
  induction path generalizing h lo hi n s with
  | nil =>
    refine ⟨s, false, fixDegree_of_root ?_, hs.sound hn⟩
    rw [hs.root]
    rfl
  | cons p path ih =>
    by_cases hsmall : minDegree degree ≤ n.getABDegree
    · have hfits := { hn.fits with le_size := hsmall }
      exact ⟨s, false, fixDegree_of_size hsmall, hs.sound ⟨hfits, hn.holds⟩⟩
    · obtain ⟨sibling, hsib, hweight, s₁, skip, n', h', lo', hi', hstep, hskip, hs₁, hn'⟩ :=
        degreeStep_eq hdegree hs hn (not_le.mp hsmall)
      have hp : p.weight = true := by
        cases hs.ctx with
        | frame fits => exact fits.weight
      obtain ⟨s₂, b, hfix, hsound⟩ := ih hs₁ hn'
      exact ⟨s₂, true, fixDegree_of_step hs (not_le.mp hsmall) hp hn.fits.weight hsib hweight hstep
        (foldlM_settles hskip hfix), hsound⟩

end

/-! ### The operations -/

section

variable [LinearOrder K] {degree : ℕ} {s : State K V}

theorem sound_init (anyKey : K) : (State.init anyKey : State K V).Sound degree := by
  refine ⟨⟨0, ⟨rfl, Nat.two_pos, within_bot_top, le_rfl, Nat.zero_le _⟩, Pairs.nil⟩,
    Nat.one_lt_two, ?_⟩
  simp [State.init]

/-- The leaf that a call comes to is replaced by another one. -/
theorem newLeaf_settles (hdegree : 4 ≤ degree) (hs : s.Sound degree) {lo : WithBot K}
    {hi : WithTop K} {path : List (Frame K V)} {searchKey : K} {entries : List (K × V)}
    (hctx : Ctx degree s.next 0 lo hi path) (hkey : Within lo hi searchKey)
    (hpairs : Pairs lo hi entries) (hle : shortAt degree 0 path ≤ entries.length)
    (hsize : entries.length ≤ degree) :
    let n := .leaf s.next searchKey true entries
    ∃ s' b, Settles (fun fuel => fixDegreeViolation degree fuel (s.scxExecute path n 1 []) n)
      (s', b) ∧ s'.Sound degree := by
  intro n
  have hptr : n.ptr < s.next + 1 := Nat.lt_succ_self _
  have hpend := State.pending_scxExecute n 1 [] hs.entry_lt hs.finalized hctx hkey
    le_rfl hptr (by simp)
  exact fixDegree_settles hdegree hpend ⟨⟨rfl, hptr, hkey, hle, hsize⟩, hpairs⟩

omit [LinearOrder K] in
theorem shortAt_le (path : List (Frame K V)) (h : ℕ) :
    shortAt degree h path ≤ minAt degree h path := by
  cases path with
  | nil => exact le_rfl
  | cons => exact Nat.sub_le _ _

/-- **An insertion.** -/
theorem doInsert_settles (hdegree : 4 ≤ degree) (hs : s.Sound degree) (key : K) (value : V)
    (replace : Bool) :
    ∃ s' r, Settles (fun fuel => doInsert degree fuel s key value replace) (s', r) ∧
      s'.Sound degree := by
  obtain ⟨h, hroot⟩ := hs.root
  obtain ⟨path, lo, hi, ptr, searchKey, weight, entries, hsearch, hctx, hkey, hleaf⟩ :=
    search_leaf (x := key) .root hroot within_bot_top
  have hpairs : Pairs lo hi entries := hleaf.holds
  have hsearchKey : Within lo hi searchKey := hleaf.fits.searchKey
  have hsize : entries.length ≤ degree := hleaf.fits.size_le
  have hle : shortAt degree 0 path ≤ entries.length :=
    (shortAt_le path 0).trans hleaf.fits.le_size
  have hweight : weight = true := hleaf.fits.weight
  -- the result of the search in the leaf
  cases hpair : pairAt entries (getKeyIndex key (entries.map Prod.fst)) key with
  | some e =>
    obtain ⟨k, oldValue⟩ := e
    cases replace with
    | false =>
      refine ⟨s, some oldValue, ?_, hs⟩
      -- the key is there, and its value is not replaced
      filter_upwards [hsearch] with fuel hsearch
      simp [doInsert, hsearch, hpair]
    | true =>
      -- the value is replaced, and the leaf has the same size
      have hset := hpairs.set (pairAt_eq_some hpair) value
      obtain ⟨s', b, hfix, hsound⟩ :=
        newLeaf_settles hdegree hs hctx hsearchKey hset (by simpa using hle)
          (by simpa using hsize)
      refine ⟨s', some oldValue, ?_, hsound⟩
      filter_upwards [hsearch, hfix] with fuel hsearch hfix
      simp [doInsert, hsearch, hpair, hfix]
  | none =>
    -- the key is not there
    have hinsert := hpairs.insertIdx (v := value) hkey hpair
    have hlen := List.length_insertIdx_of_le_length (getKeyIndex_le key entries) (key, value)
    by_cases hroom : entries.length < degree
    · -- there is room in the leaf
      obtain ⟨s', b, hfix, hsound⟩ :=
        newLeaf_settles hdegree hs hctx hsearchKey hinsert
          (by rw [hlen]; exact hle.trans (Nat.le_succ _)) (by rw [hlen]; exact hroom)
      refine ⟨s', none, ?_, hsound⟩
      filter_upwards [hsearch, hfix] with fuel hsearch hfix
      simp [doInsert, hsearch, hpair, hroom, hweight, hfix]
    · -- the leaf overflows: two leaves below a new node of weight zero, which is to be repaired
      obtain ⟨k, x, y, hover, hk, hsep⟩ :=
        overflow_eq (N := s.next + 3) s.next path.isEmpty hdegree hinsert
          (by omega) (by omega)
      have hpend := State.pending_scxExecute (.internal (s.next + 2) k path.isEmpty [k] [x, y]) 3 []
        hs.entry_lt hs.finalized hctx hk (Nat.le_add_right _ _) (Nat.lt_succ_self _) (by simp)
      obtain ⟨s', b, hfix, hsound, -⟩ :=
        fixWeight_settles hdegree ⟨hpend, _, k, x, y, rfl, hsep⟩
      refine ⟨s', none, ?_, hsound⟩
      filter_upwards [hsearch, hfix] with fuel hsearch hfix
      simp [doInsert, hsearch, hpair, hroom, hover, hfix]

/-- **A removal.** -/
theorem erase_settles (hdegree : 4 ≤ degree) (hs : s.Sound degree) (key : K) :
    ∃ s' r, Settles (fun fuel => erase degree fuel s key) (s', r) ∧ s'.Sound degree := by
  obtain ⟨h, hroot⟩ := hs.root
  obtain ⟨path, lo, hi, ptr, searchKey, weight, entries, hsearch, hctx, hkey, hleaf⟩ :=
    search_leaf (x := key) .root hroot within_bot_top
  have hpairs : Pairs lo hi entries := hleaf.holds
  have hsize : entries.length ≤ degree := hleaf.fits.size_le
  have hle : minAt degree 0 path ≤ entries.length := hleaf.fits.le_size
  cases hpair : pairAt entries (getKeyIndex key (entries.map Prod.fst)) key with
  | none =>
    refine ⟨s, (none, false), ?_, hs⟩
    filter_upwards [hsearch] with fuel hsearch
    simp [erase, hsearch, hpair]
  | some e =>
    obtain ⟨hidx, -⟩ := List.getElem?_eq_some_iff.mp (pairAt_eq_some hpair)
    have hpos : 0 < entries.length := by omega
    have hfirst : Within lo hi entries[0].1 := hpairs.within _ (List.getElem_mem hpos)
    have hlen := List.length_eraseIdx_of_lt hidx
    have hshort : shortAt degree 0 path ≤ entries.length - 1 := by
      cases path with
      | nil => exact Nat.zero_le _
      | cons => exact Nat.sub_le_sub_right hle 1
    obtain ⟨s', b, hfix, hsound⟩ :=
      newLeaf_settles hdegree hs hctx hfirst (hpairs.eraseIdx _) (by rw [hlen]; exact hshort)
        (by rw [hlen]; omega)
    refine ⟨s', (some e.2, true), ?_, hsound⟩
    filter_upwards [hsearch, hfix] with fuel hsearch hfix
    simp [erase, hsearch, hpair, hfix, List.getElem?_eq_getElem hpos]

theorem exec_settles (hdegree : 4 ≤ degree) (hs : s.Sound degree) (call : Call K V) :
    ∃ s', Settles (fun fuel => call.exec degree fuel s) s' ∧ s'.Sound degree := by
  cases call with
  | insert key value =>
    obtain ⟨s', r, hrun, hsound⟩ := doInsert_settles hdegree hs key value true
    refine ⟨s', ?_, hsound⟩
    filter_upwards [hrun] with fuel hrun
    simp [Call.exec, insert, hrun]
  | insertIfAbsent key value =>
    obtain ⟨s', r, hrun, hsound⟩ := doInsert_settles hdegree hs key value false
    refine ⟨s', ?_, hsound⟩
    filter_upwards [hrun] with fuel hrun
    simp [Call.exec, insertIfAbsent, hrun]
  | erase key =>
    obtain ⟨s', r, hrun, hsound⟩ := erase_settles hdegree hs key
    refine ⟨s', ?_, hsound⟩
    filter_upwards [hrun] with fuel hrun
    simp [Call.exec, hrun]

theorem run_settles (hdegree : 4 ≤ degree) (hs : s.Sound degree) (calls : List (Call K V)) :
    ∃ s', Settles (fun fuel => run degree fuel s calls) s' ∧ s'.Sound degree := by
  induction calls generalizing s with
  | nil => exact ⟨s, .of_forall fun _ => rfl, hs⟩
  | cons call calls ih =>
    obtain ⟨s₁, hcall, hs₁⟩ := exec_settles hdegree hs call
    obtain ⟨s₂, hrun, hs₂⟩ := ih hs₁
    refine ⟨s₂, ?_, hs₂⟩
    filter_upwards [hcall, hrun] with fuel hcall hrun
    simpa [run, hcall] using hrun

end

/-! ### Balance -/

/-- `n` is reached from `root` by following `d` child pointers. -/
inductive Reaches (root : Node K V) : ℕ → Node K V → Prop
  | root : Reaches root 0 root
  | child {d ptr searchKey weight keys ptrs c} (h : Reaches root d
      (.internal ptr searchKey weight keys ptrs)) (hc : c ∈ ptrs) : Reaches root (d + 1) c

/-- No node has a violation of weight or degree, and all leaves have the same depth. The entry node
is above the root and is left out. -/
structure Balanced (degree : ℕ) (root : Node K V) : Prop where
  weights : ∀ d n, Reaches root d n → n.weight = true
  depths : ∃ h, ∀ d n, Reaches root d n → n.isLeaf = true → d = h
  sizes : ∀ d n, Reaches root d n → d ≠ 0 →
    minDegree degree ≤ n.getABDegree ∧ n.getABDegree ≤ degree
  two_le_root : root.isLeaf = false → 2 ≤ root.getABDegree
  root_le : root.getABDegree ≤ degree

section

variable [LinearOrder K] {degree N h m : ℕ} {root : Node K V}

/-- Every node that is reached is the root of a subtree without a violation. -/
theorem Reaches.rest {d : ℕ} {n : Node K V} (hreach : Reaches root d n)
    (hroot : Rest degree N h m ⊥ ⊤ root) :
    ∃ k lo hi, h = d + k ∧ Rest degree N k (if d = 0 then m else minDegree degree) lo hi n := by
  induction hreach with
  | root => exact ⟨h, ⊥, ⊤, (Nat.zero_add h).symm, hroot⟩
  | @child d ptr searchKey weight keys ptrs c _ hc ih =>
    obtain ⟨k, lo, hi, hk, hrest⟩ := ih
    cases k with
    | zero => exact hrest.holds.elim
    | succ k =>
      obtain ⟨l, u, hchild⟩ := (holds_internal.mp hrest.holds).forall_mem hc
      refine ⟨k, l, u, by omega, ?_⟩
      rwa [if_neg (Nat.succ_ne_zero d)]

theorem AtRest.balanced (hrest : AtRest degree N root) : Balanced degree root := by
  obtain ⟨h, hroot⟩ := hrest
  refine ⟨fun d n hreach => ?_, ⟨h, fun d n hreach hleaf => ?_⟩, fun d n hreach hd => ?_,
    fun hleaf => ?_, hroot.fits.size_le⟩
  · obtain ⟨k, lo, hi, -, hn⟩ := hreach.rest hroot
    exact hn.fits.weight
  · obtain ⟨k, lo, hi, rfl, hn⟩ := hreach.rest hroot
    -- a leaf has nothing below it
    cases k with
    | zero => rfl
    | succ k =>
      cases n with
      | leaf => exact hn.holds.elim
      | internal => simp [Node.isLeaf] at hleaf
  · obtain ⟨k, lo, hi, -, hn⟩ := hreach.rest hroot
    rw [if_neg hd] at hn
    exact ⟨hn.fits.le_size, hn.fits.size_le⟩
  · cases h with
    | zero =>
      cases root with
      | leaf => simp [Node.isLeaf] at hleaf
      | internal => exact hroot.holds.elim
    | succ h => exact (two_le_minAt degree h []).trans hroot.fits.le_size

/-- **Balance at rest.** Every sequence of calls, made one after the other, ends, and leaves a tree
whose leaves have the same depth and in which no node has a violation. -/
theorem abTree_balanced (hdegree : 4 ≤ degree) (anyKey : K) (calls : List (Call K V)) :
    ∃ s : State K V, Settles (fun fuel => run degree fuel (.init anyKey) calls) s ∧
      Balanced degree s.root := by
  obtain ⟨s, hrun, hsound⟩ := run_settles hdegree (sound_init anyKey) calls
  exact ⟨s, hrun, hsound.root.balanced⟩

/-- Five insertions, which overflow the root, and a removal. -/
theorem abTree_balanced_five : ∃ s : State ℕ ℕ,
    Settles (fun fuel => run 4 fuel (.init 0) [.insert 1 1, .insertIfAbsent 2 1, .insert 3 1,
      .insert 4 1, .insert 5 1, .erase 2]) s ∧ Balanced 4 s.root :=
  abTree_balanced (by decide) 0 _

end

end AbTree
end PopSetbench

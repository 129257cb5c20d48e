import PopSetbench.Ds.AbTreeRepairs
import PopSetbench.Ds.AbTreePairs
import Mathlib.Order.Lattice

/-!
# The relaxed (a,b)-tree: the memory behind the tree

A search reads nodes that may have been removed in the meantime. What it reads there is still what
the record says (`Recorded`), and it still leads to the node that is searched for, if this node is
in the tree (`Leads`).

The part of a node, its height together with its range, becomes smaller on each step down
(`part_lt`). So an address is in the tree once only (`Inside.eq`), and of two nodes of the tree with
comparable parts one is below the other (`Inside.inside`).
-/

namespace PopSetbench
namespace AbTree

variable {K V : Type}

/-- The height and the range. A part is smaller if it is lower and in the range of the other one. -/
def Info.part (i : Info K) : ℕ × (WithBot K)ᵒᵈ × WithTop K := (i.height, .toDual i.lo, i.hi)

/-- The node `m` is in the subtree. -/
inductive Inside : Node K V → Node K V → Prop
  | refl {n} : Inside n n
  | child {ptr searchKey weight keys ptrs c m} (hc : c ∈ ptrs) (hm : Inside c m) :
      Inside (.internal ptr searchKey weight keys ptrs) m

theorem inside_plug (path : List (Frame K V)) (n m : Node K V) (hn : Inside n m) :
    Inside (plug path n) m := by
  induction path generalizing n with
  | nil => exact hn
  | cons p path ih =>
    refine ih (p.node n) (.child ?_ hn)
    unfold Frame.ptrs
    simp

theorem Inside.trans {n m d : Node K V} (hm : Inside n m) (hd : Inside m d) : Inside n d := by
  induction hm with
  | refl => exact hd
  | child hc _ ih => exact .child hc (ih hd)

mutual

theorem Node.find?_some {x : ℕ} {m : Node K V} :
    ∀ {n : Node K V}, n.find? x = some m → Inside n m ∧ m.ptr = x
  | .leaf ptr searchKey weight entries, hm => by
    unfold Node.find? at hm
    split_ifs at hm with hptr
    rw [← Option.some.inj hm]
    exact ⟨.refl, hptr⟩
  | .internal ptr searchKey weight keys ptrs, hm => by
    unfold Node.find? at hm
    split_ifs at hm with hptr
    · rw [← Option.some.inj hm]
      exact ⟨.refl, hptr⟩
    · obtain ⟨c, hc, hinside, hx⟩ := findIn_some hm
      exact ⟨.child hc hinside, hx⟩

theorem findIn_some {x : ℕ} {m : Node K V} :
    ∀ {cs : List (Node K V)}, findIn x cs = some m → ∃ c ∈ cs, Inside c m ∧ m.ptr = x
  | [], hm => by simp [findIn] at hm
  | c :: cs, hm => by
    unfold findIn at hm
    rcases Option.or_eq_some_iff.mp hm with hm | ⟨-, hm⟩
    · exact ⟨c, List.mem_cons_self, Node.find?_some hm⟩
    · obtain ⟨d, hd, hfound⟩ := findIn_some hm
      exact ⟨d, List.mem_cons_of_mem c hd, hfound⟩

end

section

variable [LinearOrder K] {S S' : Scheme K} {h h' : ℕ} {lo lo' : WithBot K} {hi hi' : WithTop K}
  {n m m' c root : Node K V} {k : K} {x v : ℕ} {node node' : ℕ → Option (Node K V)}

/-- What the record says about a node and about its children. -/
structure Recorded (S : Scheme K) (n : Node K V) : Prop where
  label : Labeled S (S.info n.ptr).height (S.info n.ptr).lo (S.info n.ptr).hi n
  children : ∀ ptr searchKey weight keys ptrs, n = .internal ptr searchKey weight keys ptrs →
    ∃ h, (S.info ptr).height = h + weight.toNat ∧
      Separated (Labeled S h) (S.info ptr).lo (S.info ptr).hi keys ptrs

/-- A search for `k` that reads the memory at `x` comes to `v`. -/
inductive Leads (node : ℕ → Option (Node K V)) (k : K) : ℕ → ℕ → Prop
  | here {x : ℕ} : Leads node k x x
  | step {x v : ℕ} {ptr searchKey weight keys ptrs c}
      (hx : node x = some (.internal ptr searchKey weight keys ptrs))
      (hc : ptrs[getChildIndex k keys]? = some c) (rest : Leads node k c.ptr v) : Leads node k x v

/-! ### Parts -/

theorem Labeled.exists_within (l : WithBot K) (u : WithTop K) (c : Node K V)
    (hc : Labeled S h l u c) : ∃ x, Within l u x :=
  ⟨c.searchKey, hc.searchKey⟩

omit [LinearOrder K] in
theorem Registered.part (hn : Registered S h lo hi n) :
    (S.info n.ptr).part = (h, .toDual lo, hi) := by
  rw [hn.info]
  rfl

/-- The part of a child is smaller. -/
theorem Separated.part_lt {ptr : ℕ} {searchKey : K} {weight : Bool} {keys : List K}
    {ptrs : List (Node K V)}
    (hn : Labeled S (h + weight.toNat) lo hi (.internal ptr searchKey weight keys ptrs))
    (hsep : Separated (Labeled S h) lo hi keys ptrs) (hc : c ∈ ptrs) :
    (S.info c.ptr).part < (S.info ptr).part := by
  obtain ⟨l, u, hlabel, hl, hu⟩ := hsep.forall_mem_le Labeled.exists_within hc
  have hpart : (S.info ptr).part = (h + weight.toNat, .toDual lo, hi) := hn.part
  rw [hlabel.part, hpart]
  have hle : ((h, .toDual l, u) : ℕ × (WithBot K)ᵒᵈ × WithTop K) ≤
      (h + weight.toNat, .toDual lo, hi) := ⟨Nat.le_add_right .., hl, hu⟩
  refine lt_of_le_of_ne hle fun heq => ?_
  obtain ⟨hheight, hlo, hhi⟩ : h = h + weight.toNat ∧ l = lo ∧ u = hi := by
    simpa using heq
  -- a weight of one makes the child lower, a weight of zero leaves it half of the range
  cases weight with
  | true => simp at hheight
  | false =>
    have htwo : ptrs.length = 2 := (hn.zero rfl).2
    have hlen := hsep.length_eq
    cases hsep with
    | last => simp at htwo
    | @cons _ _ c₁ ks cs k child rest =>
      cases rest with
      | cons =>
        simp only [List.length_cons] at htwo hlen
        omega
      | @last _ _ c₂ child' =>
        have hmid := child.searchKey.between child'.searchKey
        simp only [List.mem_cons, List.not_mem_nil, or_false] at hc
        rcases hc with rfl | rfl
        · have hsame := hlabel.part.symm.trans child.part
          rw [hlo, hhi] at hsame
          obtain ⟨-, -, hhi'⟩ : True ∧ True ∧ hi = k := by simpa using hsame
          exact absurd hmid.2 (by rw [hhi']; exact lt_irrefl _)
        · have hsame := hlabel.part.symm.trans child'.part
          rw [hlo, hhi] at hsame
          obtain ⟨-, hlo', -⟩ : True ∧ lo = k ∧ True := by simpa using hsame
          have hfirst := (within_coe_right.mp child.searchKey)
          rw [hlo'] at hfirst
          exact absurd hfirst.2 (not_lt.mpr (WithBot.coe_le_coe.mp hfirst.1))

theorem part_le_iff {i j : Info K} :
    i.part ≤ j.part ↔ i.height ≤ j.height ∧ j.lo ≤ i.lo ∧ i.hi ≤ j.hi :=
  Iff.rfl

/-! ### The subtrees of a tree -/

theorem Inside.relaxed (hm : Inside n m) (hn : Relaxed S h lo hi n) :
    ∃ h' lo' hi', Relaxed S h' lo' hi' m := by
  induction hm generalizing h lo hi with
  | refl => exact ⟨h, lo, hi, hn⟩
  | child hc _ ih =>
    obtain ⟨-, h', -, hsep⟩ := relaxed_internal.mp hn
    obtain ⟨l, u, hchild⟩ := hsep.forall_mem hc
    exact ih hchild

theorem Relaxed.child_part_lt {ptr : ℕ} {searchKey : K} {weight : Bool} {keys : List K}
    {ptrs : List (Node K V)}
    (hn : Relaxed S h lo hi (.internal ptr searchKey weight keys ptrs : Node K V)) (hc : c ∈ ptrs) :
    (S.info c.ptr).part < (S.info ptr).part := by
  obtain ⟨hlabel, h', rfl, hsep⟩ := relaxed_internal.mp hn
  exact Separated.part_lt hlabel (hsep.imp fun _ _ _ hc => hc.label) hc

theorem Inside.part_le (hm : Inside n m) (hn : Relaxed S h lo hi n) :
    (S.info m.ptr).part ≤ (S.info n.ptr).part := by
  induction hm generalizing h lo hi with
  | refl => exact le_rfl
  | child hc _ ih =>
    obtain ⟨-, h', -, hsep⟩ := relaxed_internal.mp hn
    obtain ⟨l, u, hchild⟩ := hsep.forall_mem hc
    exact (ih hchild).trans (hn.child_part_lt hc).le

theorem Relaxed.within_searchKey (hn : Relaxed S h lo hi n) :
    Within (S.info n.ptr).lo (S.info n.ptr).hi n.searchKey := by
  obtain ⟨hlo, hhi⟩ := hn.range
  rw [hlo, hhi]
  exact hn.label.searchKey

/-- A key below a child is in the range of the child. -/
theorem Relaxed.within_of_inside (hn : Relaxed S h lo hi n) (hm : Inside n m)
    (hk : Within (S.info m.ptr).lo (S.info m.ptr).hi k) : Within lo hi k := by
  obtain ⟨hlo, hhi⟩ := hn.range
  obtain ⟨-, hl, hu⟩ := part_le_iff.mp (hm.part_le hn)
  rw [hlo] at hl
  rw [hhi] at hu
  exact hk.mono hl hu

/-- Nodes below two children have no key in common. -/
theorem child_eq {keys : List K} {ptrs : List (Node K V)} {c' : Node K V}
    (hsep : Separated (Relaxed S h) lo hi keys ptrs) (hc : c ∈ ptrs) (hc' : c' ∈ ptrs)
    (hm : Inside c m) (hm' : Inside c' m') (hk : Within (S.info m.ptr).lo (S.info m.ptr).hi k)
    (hk' : Within (S.info m'.ptr).lo (S.info m'.ptr).hi k) : c = c' := by
  refine hsep.eq_of_mem (x := k) (T := fun c => ∃ m, Inside c m ∧
    Within (S.info m.ptr).lo (S.info m.ptr).hi k) Relaxed.exists_within ?_ hc hc' ⟨m, hm, hk⟩
    ⟨m', hm', hk'⟩
  rintro l u d hd ⟨m₀, hm₀, hk₀⟩
  exact hd.within_of_inside hm₀ hk₀

/-- **An address is in the tree once.** -/
theorem Inside.eq (hm : Inside n m) (hm' : Inside n m') (hn : Relaxed S h lo hi n)
    (hptr : m.ptr = m'.ptr) : m = m' := by
  induction hm generalizing h lo hi with
  | refl =>
    cases hm' with
    | refl => rfl
    | child hc hm' =>
      obtain ⟨-, h', -, hsep⟩ := relaxed_internal.mp hn
      obtain ⟨l, u, hchild⟩ := hsep.forall_mem hc
      have hlt := (hm'.part_le hchild).trans_lt (hn.child_part_lt hc)
      rw [← hptr] at hlt
      exact absurd hlt (lt_irrefl _)
  | child hc hm ih =>
    obtain ⟨-, h', -, hsep⟩ := relaxed_internal.mp hn
    obtain ⟨l, u, hchild⟩ := hsep.forall_mem hc
    cases hm' with
    | refl =>
      have hlt := (hm.part_le hchild).trans_lt (hn.child_part_lt hc)
      rw [hptr] at hlt
      exact absurd hlt (lt_irrefl _)
    | child hc' hm' =>
      -- both have the search key in their range, so they are below the same child
      obtain ⟨_, _, _, hrel⟩ := hm.relaxed hchild
      have hkey := hrel.within_searchKey
      obtain rfl := child_eq hsep hc hc' hm hm' hkey (hptr ▸ hkey)
      exact ih hm' hchild hptr

/-- **One node below another one.** -/
theorem Inside.inside (hm : Inside n m) (hm' : Inside n m') (hn : Relaxed S h lo hi n)
    (hpart : (S.info m'.ptr).part ≤ (S.info m.ptr).part) : Inside m m' := by
  induction hm generalizing h lo hi with
  | refl => exact hm'
  | child hc hm ih =>
    obtain ⟨-, h', -, hsep⟩ := relaxed_internal.mp hn
    obtain ⟨l, u, hchild⟩ := hsep.forall_mem hc
    cases hm' with
    | refl =>
      have hlt := (hm.part_le hchild).trans_lt (hn.child_part_lt hc)
      exact absurd hpart hlt.not_ge
    | child hc' hm' =>
      obtain ⟨_, _, hchild'⟩ := hsep.forall_mem hc'
      obtain ⟨_, _, _, hrel⟩ := hm'.relaxed hchild'
      have hkey := hrel.within_searchKey
      obtain ⟨-, hl, hu⟩ := part_le_iff.mp hpart
      obtain rfl := child_eq hsep hc hc' hm hm' (hkey.mono hl hu) hkey
      exact ih hm' hchild hpart

/-! ### Looking up an address -/

omit [LinearOrder K] in
theorem findIn_ne_none {cs : List (Node K V)} (hc : c ∈ cs) (hx : c.find? x ≠ none) :
    findIn x cs ≠ none := by
  induction cs with
  | nil => simp at hc
  | cons d cs ih =>
    unfold findIn
    rw [Ne, Option.or_eq_none_iff, not_and_or]
    rcases List.mem_cons.mp hc with rfl | hc
    · exact .inl hx
    · exact .inr (ih hc)

theorem Inside.find? (hm : Inside n m) (hn : Relaxed S h lo hi n) : n.find? m.ptr = some m := by
  have hfound : n.find? m.ptr ≠ none := by
    clear hn
    induction hm with
    | @refl n =>
      cases n with
      | leaf => simp [Node.find?, Node.ptr]
      | internal => simp [Node.find?, Node.ptr]
    | @child ptr searchKey weight keys ptrs c m hc _ ih =>
      unfold Node.find?
      split_ifs
      · simp
      · exact findIn_ne_none hc ih
  obtain ⟨m', hm'⟩ := Option.ne_none_iff_exists'.mp hfound
  obtain ⟨hinside, hptr⟩ := Node.find?_some hm'
  rw [hm', hinside.eq hm hn hptr]

/-! ### Following the memory -/

/-- In a tree the search for a key of a node comes to the node. -/
theorem Inside.leads (hm : Inside n m) (hn : Relaxed S h lo hi n)
    (hnode : ∀ d, Inside n d → node d.ptr = some d)
    (hk : Within (S.info m.ptr).lo (S.info m.ptr).hi k) : Leads node k n.ptr m.ptr := by
  induction hm generalizing h lo hi with
  | refl => exact .here
  | @child ptr searchKey weight keys ptrs c m hc hm ih =>
    obtain ⟨-, h', -, hsep⟩ := relaxed_internal.mp hn
    obtain ⟨before, after, rfl⟩ := List.append_of_mem hc
    obtain ⟨ksL, ksR, l, u, rfl, hole, hchild⟩ := hsep.hole
    have hix : getChildIndex k (ksL ++ ksR) = before.length :=
      hole.findIdx_eq Relaxed.exists_within (hchild.within_of_inside hm hk)
    have hget : (before ++ c :: after)[getChildIndex k (ksL ++ ksR)]? = some c := by
      rw [hix]
      simp
    refine .step (hnode _ .refl) hget (ih hchild (fun d hd => hnode d (.child hc hd)) hk)

/-- What is read has smaller and smaller parts. -/
theorem Leads.part_le (hrec : ∀ x nd, node x = some nd → nd.ptr = x ∧ Recorded S nd)
    (hlead : Leads node k x v) : (S.info v).part ≤ (S.info x).part := by
  induction hlead with
  | here => exact le_rfl
  | step hx hc _ ih =>
    obtain ⟨rfl, hnd⟩ := hrec _ _ hx
    obtain ⟨h', hh, hsep⟩ := hnd.children _ _ _ _ _ rfl
    have hlabel := hnd.label
    simp only [Node.ptr] at hlabel ih ⊢
    rw [hh] at hlabel
    exact ih.trans (Separated.part_lt hlabel hsep (List.mem_of_getElem? hc)).le

/-- **A removed node leads to where it led**, as long as the node that is searched for is in the
tree. -/
theorem Leads.commit (hrec : ∀ x nd, node x = some nd → nd.ptr = x ∧ Recorded S nd)
    (hS : S.Extends S') (hroot : Relaxed S' h lo hi root)
    (hnew : ∀ x nd, root.find? x = some nd → node' x = some nd)
    (hold : ∀ x, root.find? x = none → node' x = node x)
    (hm : Inside root m) (hk : Within (S'.info m.ptr).lo (S'.info m.ptr).hi k)
    (hlt : ∀ x nd, node x = some nd → x < S.next) (hmlt : m.ptr < S.next)
    (hlead : Leads node k x m.ptr) : Leads node' k x m.ptr := by
  generalize hv : m.ptr = v at hlead
  induction hlead with
  | here => exact .here
  | @step x v ptr searchKey weight keys ptrs c hx hc rest ih =>
    cases hfind : root.find? x with
    | none =>
      -- the node is not in the tree: what is read is the same
      rw [← hold x hfind] at hx
      exact .step hx hc (ih hv)
    | some nx =>
      -- the node is in the tree, and above the one that is searched for
      obtain ⟨hnx, rfl⟩ := Node.find?_some hfind
      have hpart := (Leads.step hx hc rest).part_le hrec
      rw [← hv, ← hS.info _ hmlt, ← hS.info _ (hlt _ _ hx)] at hpart
      obtain ⟨_, _, _, hrel⟩ := hnx.relaxed hroot
      rw [← hv]
      refine (hnx.inside hm hroot hpart).leads hrel (fun d hd => hnew _ _ ?_) hk
      exact (hnx.trans hd).find? hroot

end

/-! ### No node comes back -/

/-- The nodes of a subtree with addresses below `N` were there before. -/
def Grafted (N : ℕ) (before after : Node K V) : Prop :=
  ∀ m, Inside after m → m.ptr < N → ∃ m₀, Inside before m₀ ∧ m₀.ptr = m.ptr

section

variable {N degree ptr : ℕ} {w weight : Bool} {key k searchKey : K} {keys : List K}
  {ptrs : List (Node K V)} {entries : List (K × V)} {n₀ n c left right x y sibling : Node K V}
  {p : Frame K V} {path : List (Frame K V)} {s s' : State K V}

theorem Grafted.of_inside (hc : Inside n₀ c) : Grafted N n₀ c :=
  fun m hm _ => ⟨m, hc.trans hm, rfl⟩

theorem Grafted.leaf (hptr : N ≤ ptr) : Grafted N n₀ (.leaf ptr searchKey weight entries) := by
  intro m hm hlt
  cases hm with
  | refl => exact absurd hlt hptr.not_gt

theorem Grafted.internal (hptr : N ≤ ptr) (hptrs : ∀ c ∈ ptrs, Grafted N n₀ c) :
    Grafted N n₀ (.internal ptr searchKey weight keys ptrs) := by
  intro m hm hlt
  cases hm with
  | refl => exact absurd hlt hptr.not_gt
  | child hc hm => exact hptrs _ hc m hm hlt

theorem Grafted.pair (hx : Grafted N n₀ x) (hy : Grafted N n₀ y) :
    ∀ c ∈ [x, y], Grafted N n₀ c := by
  intro c hc
  rcases List.mem_pair.mp hc with rfl | rfl
  · exact hx
  · exact hy

theorem Grafted.plug (path : List (Frame K V)) (hn : Grafted N n₀ n) :
    Grafted N (plug path n₀) (plug path n) := by
  induction path generalizing n₀ n with
  | nil => exact hn
  | cons p path ih =>
    refine ih fun m hm hlt => ?_
    unfold Frame.node at hm
    cases hm with
    | refl => exact ⟨p.node n₀, .refl, rfl⟩
    | @child _ _ _ _ _ c _ hc hm =>
      rcases List.mem_append.mp hc with hc | hc
      · exact ⟨m, .child (List.mem_append_left _ hc) hm, rfl⟩
      · rcases List.mem_cons.mp hc with rfl | hc
        · obtain ⟨m₀, hm₀, hptr⟩ := hn m hm hlt
          exact ⟨m₀, .child (List.mem_append_right _ List.mem_cons_self) hm₀, hptr⟩
        · exact ⟨m, .child (List.mem_append_right _ (List.mem_cons_of_mem _ hc)) hm, rfl⟩

theorem absorb_grafted (hptr : N ≤ ptr) (hptrs : ∀ c ∈ ptrs, Grafted N n₀ c)
    (h : absorb ptr keys ptrs = some n) : Grafted N n₀ n := by
  simp only [absorb, Option.bind_eq_bind, Option.bind_eq_some_iff] at h
  obtain ⟨searchKey, -, h⟩ := h
  rw [← Option.some.inj h]
  exact .internal hptr hptrs

theorem split_grafted (hptr : N ≤ ptr) (hptrs : ∀ c ∈ ptrs, Grafted N n₀ c)
    (h : split ptr w keys ptrs = some n) : Grafted N n₀ n := by
  simp only [split, Option.bind_eq_bind, Option.bind_eq_some_iff] at h
  obtain ⟨first, -, middle, -, second, -, h⟩ := h
  rw [← Option.some.inj h]
  refine .internal (hptr.trans (Nat.le_add_right ..)) (.pair ?_ ?_)
  · exact .internal hptr fun c hc => hptrs c (List.mem_of_mem_take hc)
  · exact .internal (hptr.trans (Nat.le_succ _)) fun c hc => hptrs c (List.mem_of_mem_drop hc)

theorem overflow_grafted (hptr : N ≤ ptr) (h : overflow degree ptr w entries = some n) :
    Grafted N n₀ n := by
  simp only [overflow, Option.bind_eq_bind, Option.bind_eq_some_iff] at h
  obtain ⟨first, -, second, -, h⟩ := h
  rw [← Option.some.inj h]
  exact .internal (hptr.trans (Nat.le_add_right ..))
    (.pair (.leaf hptr) (.leaf (hptr.trans (Nat.le_succ _))))

/-- The children of two siblings were below them. -/
theorem Grafted.siblings {ptr₁ ptr₂ : ℕ} {key₁ key₂ : K} {w₁ w₂ : Bool} {ks ks' : List K}
    {cs cs' : List (Node K V)} (hleft : Inside n₀ (.internal ptr₁ key₁ w₁ ks cs))
    (hright : Inside n₀ (.internal ptr₂ key₂ w₂ ks' cs')) : ∀ c ∈ cs ++ cs', Grafted N n₀ c := by
  intro c hc
  rcases List.mem_append.mp hc with hc | hc
  · exact .of_inside (hleft.trans (.child hc .refl))
  · exact .of_inside (hright.trans (.child hc .refl))

theorem absorbSibling_grafted (hptr : N ≤ ptr) (hleft : Inside n₀ left) (hright : Inside n₀ right)
    (h : absorbSibling ptr key left right k = some n) : Grafted N n₀ n := by
  unfold absorbSibling at h
  split at h
  · rw [← Option.some.inj h]
    exact .leaf hptr
  · rw [← Option.some.inj h]
    exact .internal hptr (.siblings hleft hright)
  · simp at h

theorem distribute_grafted (hptr : N ≤ ptr) (hleft : Inside n₀ left) (hright : Inside n₀ right)
    (h : distribute ptr left right k = some (x, key, y)) : Grafted N n₀ x ∧ Grafted N n₀ y := by
  have hptr' : N ≤ ptr + 1 := hptr.trans (Nat.le_succ _)
  unfold distribute at h
  split at h
  · simp only [Option.bind_eq_bind, Option.bind_eq_some_iff, Option.some.injEq, Prod.mk.injEq] at h
    obtain ⟨first, -, middle, -, second, -, rfl, -, rfl⟩ := h
    exact ⟨.leaf hptr, .leaf hptr'⟩
  · simp only [Option.bind_eq_bind, Option.bind_eq_some_iff, Option.some.injEq, Prod.mk.injEq] at h
    obtain ⟨first, -, middle, -, second, -, rfl, -, rfl⟩ := h
    have hall := Grafted.siblings (N := N) hleft hright
    exact ⟨.internal hptr fun c hc => hall c (List.mem_of_mem_take hc),
      .internal hptr' fun c hc => hall c (List.mem_of_mem_drop hc)⟩
  · simp at h

theorem weightStep_grafted {zero : Bool}
    (h : weightStep degree s p path left = some (s', n, zero)) :
    Grafted s.next (AbTree.plug (p :: path) left) s'.root := by
  cases left with
  | leaf => simp [weightStep] at h
  | internal ptr searchKey weight lkeys lptrs =>
    have hptrs : ∀ c ∈ p.before ++ lptrs ++ p.after,
        Grafted s.next (p.node (.internal ptr searchKey weight lkeys lptrs)) c := by
      intro c hc
      refine .of_inside ?_
      rcases List.mem_append.mp hc with hc | hc
      · rcases List.mem_append.mp hc with hc | hc
        · exact .child (List.mem_append_left _ hc) .refl
        · exact .child (List.mem_append_right _ List.mem_cons_self) (.child hc .refl)
      · exact .child (List.mem_append_right _ (List.mem_cons_of_mem _ hc)) .refl
    simp only [weightStep] at h
    split_ifs at h with hsize
    · simp only [Option.bind_eq_bind, Option.bind_eq_some_iff, Option.some.injEq,
        Prod.mk.injEq] at h
      obtain ⟨n', habsorb, rfl, -, -⟩ := h
      exact (absorb_grafted le_rfl hptrs habsorb).plug path
    · simp only [Option.bind_eq_bind, Option.bind_eq_some_iff, Option.some.injEq,
        Prod.mk.injEq] at h
      obtain ⟨n', hsplit, rfl, -, -⟩ := h
      exact (split_grafted le_rfl hptrs hsplit).plug path

theorem degreeStep_grafted {new : List (Node K V)} (hsib : (p.ptrs n)[p.ixToS]? = some sibling)
    (h : degreeStep degree s p path n sibling = some (s', new)) :
    Grafted s.next (AbTree.plug (p :: path) n) s'.root := by
  obtain ⟨A⟩ := Adjacent.exists_of_sibling hsib
  have hinside : ∀ c ∈ A.pre ++ A.left :: A.right :: A.post, Inside (p.node n) c := by
    intro c hc
    rw [← A.ptrs] at hc
    exact .child hc .refl
  have hpre : ∀ c ∈ A.pre, Inside (p.node n) c := fun c hc =>
    hinside c (List.mem_append_left _ hc)
  have hpost : ∀ c ∈ A.post, Inside (p.node n) c := fun c hc => hinside c
    (List.mem_append_right _ (List.mem_cons_of_mem _ (List.mem_cons_of_mem _ hc)))
  have hleft : Inside (p.node n) A.left := hinside _ (by simp)
  have hright : Inside (p.node n) A.right := hinside _ (by simp)
  have hall : ∀ cs : List (Node K V), (∀ c ∈ cs, Grafted s.next (p.node n) c) →
      ∀ c ∈ A.pre ++ cs ++ A.post, Grafted s.next (p.node n) c := by
    intro cs hcs c hc
    rcases List.mem_append.mp hc with hc | hc
    · rcases List.mem_append.mp hc with hc | hc
      · exact .of_inside (hpre c hc)
      · exact hcs c hc
    · exact .of_inside (hpost c hc)
  simp only [degreeStep, A.left_eq, A.right_eq] at h
  split_ifs at h with hsize hroot
  · -- RootAbsorb
    simp only [Option.bind_eq_bind, Option.bind_eq_some_iff, Option.some.injEq, Prod.mk.injEq] at h
    obtain ⟨k, -, newl, hjoin, rfl, -⟩ := h
    exact (absorbSibling_grafted le_rfl hleft hright hjoin).plug path
  · -- AbsorbSibling
    simp only [Option.bind_eq_bind, Option.bind_eq_some_iff, Option.some.injEq, Prod.mk.injEq] at h
    obtain ⟨k, -, newl, hjoin, rfl, -⟩ := h
    have hnewl := absorbSibling_grafted le_rfl hleft hright hjoin
    refine Grafted.plug path (.internal (Nat.le_succ _) ?_)
    rw [A.joined, ← List.singleton_append, ← List.append_assoc]
    refine hall [newl] fun c hc => ?_
    rw [List.mem_singleton.mp hc]
    exact hnewl
  · -- Distribute
    simp only [Option.bind_eq_bind, Option.bind_eq_some_iff, Option.some.injEq, Prod.mk.injEq] at h
    obtain ⟨k, -, ⟨newleft, keyp, newright⟩, hdist, rfl, -⟩ := h
    obtain ⟨hx, hy⟩ := distribute_grafted (Nat.le_succ _) hleft hright hdist
    refine Grafted.plug path (.internal le_rfl ?_)
    rw [A.ptrs_set]
    exact hall _ (.pair hx hy)

end

end AbTree
end PopSetbench

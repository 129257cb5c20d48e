import PopSetbench.Ds.AbTree
import PopSetbench.Library.Separated

/-!
# The relaxed (a,b)-tree: subtrees at rest and their contexts

Between two repairs there is at most one node with a violation, and it is new. So the tree is read
as a path from the root to that node, or to the leaf that an operation has come to, and a node in
the place at the end of it.

* `Rest degree N h m lo hi n` says that `n` is the root of a subtree without a violation: its leaves
  are `h` steps below it, it has `m` children or more, its keys are in the range from `lo` to `hi`.
  All addresses in it are below `N`.
* `Ctx degree N h lo hi path` says that the nodes of the path and the subtrees that hang on it have
  no violation, if a subtree of height `h` and with this range is put at its end.

`search_plug` shows that a search for a key of the range comes to the end of the path: this is how
the repairs find the new node again, by the search key they have given it.
-/

namespace PopSetbench
namespace AbTree

variable {K V : Type}

section

variable [LinearOrder K]

/-- What a node without a violation has, whatever its height: a weight of one, a size from `m` to
`degree`, a search key in its range. -/
structure Fits (degree N m : ℕ) (lo : WithBot K) (hi : WithTop K) (n : Node K V) : Prop where
  weight : n.weight = true
  ptr_lt : n.ptr < N
  searchKey : Within lo hi n.searchKey
  le_size : m ≤ n.getABDegree
  size_le : n.getABDegree ≤ degree

/-- The pairs of a leaf: in the order of their keys, and in its range. -/
structure Pairs (lo : WithBot K) (hi : WithTop K) (entries : List (K × V)) : Prop where
  sorted : (entries.map Prod.fst).Pairwise (· < ·)
  within : ∀ e ∈ entries, Within lo hi e.1

/-- What a node without a violation has below it. -/
def Holds (degree N : ℕ) : ℕ → WithBot K → WithTop K → Node K V → Prop
  | 0, lo, hi, .leaf _ _ _ entries => Pairs lo hi entries
  | h + 1, lo, hi, .internal _ _ _ keys ptrs =>
    Separated (fun l u c => Fits degree N (minDegree degree) l u c ∧ Holds degree N h l u c) lo hi
      keys ptrs
  | _, _, _, _ => False

/-- A subtree without a violation. -/
structure Rest (degree N h m : ℕ) (lo : WithBot K) (hi : WithTop K) (n : Node K V) : Prop where
  fits : Fits degree N m lo hi n
  holds : Holds degree N h lo hi n

/-- A child without a violation. -/
abbrev Child (degree N h : ℕ) : WithBot K → WithTop K → Node K V → Prop :=
  fun l u c => Rest degree N h (minDegree degree) l u c

/-- The smallest size of the node at the end of a path. The root may be an empty leaf, and an
internal root has two children. -/
def minAt (degree h : ℕ) : List (Frame K V) → ℕ
  | [] => if h = 0 then 0 else 2
  | _ :: _ => minDegree degree

/-- A node of a path. -/
structure Frame.Fits (degree N h m : ℕ) (lo : WithBot K) (hi : WithTop K) (l : WithBot K)
    (u : WithTop K) (p : Frame K V) : Prop where
  weight : p.weight = true
  ptr_lt : p.ptr < N
  searchKey : Within lo hi p.searchKey
  le_size : m ≤ p.getABDegree
  size_le : p.getABDegree ≤ degree
  hole : ∃ ksL ksR, p.keys = ksL ++ ksR ∧ Hole (Child degree N h) lo hi ksL ksR p.before p.after l u

/-- A path with its subtrees. -/
inductive Ctx (degree N : ℕ) : ℕ → WithBot K → WithTop K → List (Frame K V) → Prop
  | root {h} : Ctx degree N h ⊥ ⊤ []
  | frame {h lo hi l u p path} (fits : p.Fits degree N h (minAt degree (h + 1) path) lo hi l u)
      (rest : Ctx degree N (h + 1) lo hi path) : Ctx degree N h l u (p :: path)

/-- The whole tree is without a violation. -/
def AtRest (degree N : ℕ) (root : Node K V) : Prop :=
  ∃ h, Rest degree N h (minAt degree h ([] : List (Frame K V))) ⊥ ⊤ root

end

section

variable [LinearOrder K] {degree N N' h m m' : ℕ} {lo l : WithBot K} {hi u : WithTop K}
  {n c : Node K V} {p : Frame K V} {path : List (Frame K V)} {x : K}

theorem two_le_minDegree (degree : ℕ) : 2 ≤ minDegree degree :=
  le_max_right _ _

omit [LinearOrder K] in
theorem minAt_le (degree h : ℕ) (path : List (Frame K V)) :
    minAt degree h path ≤ minDegree degree := by
  have htwo := two_le_minDegree degree
  cases path with
  | nil =>
    simp only [minAt]
    split_ifs <;> omega
  | cons => exact le_rfl

omit [LinearOrder K] in
theorem two_le_minAt (degree h : ℕ) (path : List (Frame K V)) :
    2 ≤ minAt degree (h + 1) path := by
  cases path with
  | nil => simp [minAt]
  | cons => exact two_le_minDegree degree

theorem child_within (l : WithBot K) (u : WithTop K) (c : Node K V) (hc : Child degree N h l u c) :
    ∃ x, Within l u x :=
  ⟨c.searchKey, hc.fits.searchKey⟩

@[simp] theorem holds_leaf {ptr searchKey weight entries} :
    Holds degree N 0 lo hi (.leaf ptr searchKey weight entries : Node K V) ↔
      Pairs lo hi entries :=
  Iff.rfl

@[simp] theorem holds_internal {ptr searchKey weight keys ptrs} :
    Holds degree N (h + 1) lo hi (.internal ptr searchKey weight keys ptrs : Node K V) ↔
      Separated (Child degree N h) lo hi keys ptrs :=
  ⟨fun hs => hs.imp fun _ _ _ hc => ⟨hc.1, hc.2⟩, fun hs => hs.imp fun _ _ _ hc => ⟨hc.1, hc.2⟩⟩

theorem Fits.mono (hN : N ≤ N') (hf : Fits degree N m lo hi n) : Fits degree N' m lo hi n :=
  { hf with ptr_lt := hf.ptr_lt.trans_le hN }

theorem Holds.mono (hN : N ≤ N') (hh : Holds degree N h lo hi n) : Holds degree N' h lo hi n := by
  induction h generalizing lo hi n with
  | zero =>
    cases n with
    | leaf => exact hh
    | internal => exact hh.elim
  | succ h ih =>
    cases n with
    | leaf => exact hh.elim
    | internal => exact Separated.imp (fun _ _ _ hc => ⟨hc.1.mono hN, ih hc.2⟩) hh

theorem Rest.mono (hN : N ≤ N') (hr : Rest degree N h m lo hi n) : Rest degree N' h m lo hi n :=
  ⟨hr.fits.mono hN, hr.holds.mono hN⟩

theorem Rest.weaken (hm : m' ≤ m) (hr : Rest degree N h m lo hi n) :
    Rest degree N h m' lo hi n :=
  ⟨{ hr.fits with le_size := hm.trans hr.fits.le_size }, hr.holds⟩

theorem Frame.Fits.mono (hN : N ≤ N') (hp : p.Fits degree N h m lo hi l u) :
    p.Fits degree N' h m lo hi l u := by
  obtain ⟨ksL, ksR, hkeys, hole⟩ := hp.hole
  exact { hp with
    ptr_lt := hp.ptr_lt.trans_le hN
    hole := ⟨ksL, ksR, hkeys, hole.imp fun _ _ _ hc => hc.mono hN⟩ }

theorem Ctx.mono (hN : N ≤ N') (hctx : Ctx degree N h lo hi path) :
    Ctx degree N' h lo hi path := by
  induction hctx with
  | root => exact .root
  | frame fits _ ih => exact .frame (fits.mono hN) ih

/-- Every node of the path is older than what is allocated from now on. -/
theorem Ctx.ptr_lt (hctx : Ctx degree N h lo hi path) : ∀ p ∈ path, p.ptr < N := by
  induction hctx with
  | root => simp
  | frame fits _ ih =>
    intro q hq
    rcases List.mem_cons.mp hq with rfl | hq
    · exact fits.ptr_lt
    · exact ih q hq

/-- The end of the root's path is the whole tree. -/
theorem Ctx.nil_range (hctx : Ctx degree N h lo hi ([] : List (Frame K V))) : lo = ⊥ ∧ hi = ⊤ := by
  cases hctx
  exact ⟨rfl, rfl⟩

theorem Frame.Fits.node (hp : p.Fits degree N h m lo hi l u) (hc : Child degree N h l u n) :
    Rest degree N (h + 1) m lo hi (p.node n) := by
  obtain ⟨ksL, ksR, hkeys, hole⟩ := hp.hole
  refine ⟨⟨hp.weight, hp.ptr_lt, hp.searchKey, ?_, ?_⟩, ?_⟩
  · rw [p.getABDegree_node]
    exact hp.le_size
  · rw [p.getABDegree_node]
    exact hp.size_le
  · have hfill := hole.fill (.last hc)
    simp only [List.append_nil, List.append_assoc, List.singleton_append] at hfill
    rw [← hkeys] at hfill
    exact holds_internal.mpr hfill

/-- **Plugging.** The tree has no violation if the node at the end of the path has none. -/
theorem Ctx.plug (hctx : Ctx degree N h lo hi path)
    (hn : Rest degree N h (minAt degree h path) lo hi n) : AtRest degree N (plug path n) := by
  induction hctx generalizing n with
  | root => exact ⟨_, hn⟩
  | frame fits _ ih => exact ih (fits.node hn)

/-! ### Searches -/

/-- The loop goes on from a node to the child that the path goes to. -/
theorem search_node (hp : p.Fits degree N h m lo hi l u) (hx : Within l u x) {stop : Option ℕ}
    (hstop : stop ≠ some p.ptr) (fuel : ℕ) :
    search (fuel + 1) path (p.node n) x stop = search fuel (p :: path) n x stop := by
  obtain ⟨ksL, ksR, hkeys, hole⟩ := hp.hole
  have hix : getChildIndex x p.keys = p.before.length := by
    unfold getChildIndex
    rw [hkeys]
    exact hole.findIdx_eq child_within hx
  unfold Frame.node Frame.ptrs
  simp [search, hstop, hix]

/-- **The way back.** A search for a key of the range comes to the end of the path. -/
theorem search_plug (hctx : Ctx degree N h lo hi path) (hx : Within lo hi x) {stop : Option ℕ}
    (hstop : ∀ p ∈ path, stop ≠ some p.ptr) (fuel : ℕ) :
    search (fuel + path.length) [] (plug path n) x stop = search fuel path n x stop := by
  induction hctx generalizing n fuel with
  | root => rfl
  | @frame h lo hi l u p path fits rest ih =>
    obtain ⟨ksL, ksR, hkeys, hole⟩ := fits.hole
    have hup : ∀ q ∈ path, stop ≠ some q.ptr := fun q hq => hstop q (List.mem_cons_of_mem p hq)
    calc search (fuel + (path.length + 1)) [] (plug path (p.node n)) x stop
        = search (fuel + 1 + path.length) [] (plug path (p.node n)) x stop := by
          rw [Nat.add_right_comm, Nat.add_assoc]
      _ = search (fuel + 1) path (p.node n) x stop :=
          ih (hole.within child_within hx) hup (fuel + 1)
      _ = search fuel (p :: path) n x stop :=
          search_node fits hx (hstop p List.mem_cons_self) fuel

/-- The search that a repair starts with finds the new node. -/
theorem search_viol (hctx : Ctx degree N h lo hi path) (hx : Within lo hi n.searchKey)
    (hnew : N ≤ n.ptr) :
    Settles (fun fuel => search fuel [] (plug path n) n.searchKey (some n.ptr)) (path, n) := by
  have hstop : ∀ p ∈ path, some n.ptr ≠ some p.ptr := by
    intro p hp heq
    have hlt := hctx.ptr_lt p hp
    rw [← Option.some.inj heq] at hlt
    omega
  refine Filter.eventually_atTop.mpr ⟨path.length + 1, fun fuel hfuel => ?_⟩
  obtain ⟨k, rfl⟩ := Nat.exists_eq_add_of_le' hfuel
  have hplug := search_plug (n := n) hctx hx hstop (k + 1)
  rw [Nat.add_right_comm] at hplug
  refine hplug.trans ?_
  cases n with
  | leaf => rfl
  | internal => simp [search, Node.ptr]

/-- **The way down.** The search of an operation comes to the leaf for its key. -/
theorem search_leaf (hctx : Ctx degree N h lo hi path)
    (hn : Rest degree N h (minAt degree h path) lo hi n) (hx : Within lo hi x) :
    ∃ path' l u ptr searchKey weight entries,
      Settles (fun fuel => search fuel path n x none)
        (path', .leaf ptr searchKey weight entries) ∧
      Ctx degree N 0 l u path' ∧ Within l u x ∧
      Rest degree N 0 (minAt degree 0 path') l u (.leaf ptr searchKey weight entries) := by
  induction h generalizing path n lo hi with
  | zero =>
    cases n with
    | leaf ptr searchKey weight entries =>
      exact ⟨path, lo, hi, ptr, searchKey, weight, entries,
        .of_succ (.of_forall fun _ => rfl), hctx, hx, hn⟩
    | internal => exact hn.holds.elim
  | succ h ih =>
    cases n with
    | leaf => exact hn.holds.elim
    | internal ptr searchKey weight keys ptrs =>
      obtain ⟨ksL, ksR, before, c, after, l, u, rfl, rfl, hole, hc, hx'⟩ :=
        (holds_internal.mp hn.holds).search hx
      let p : Frame K V := ⟨ptr, searchKey, weight, ksL ++ ksR, before, after⟩
      have hp : p.Fits degree N h (minAt degree (h + 1) path) lo hi l u := by
        have hsize : p.getABDegree = (before ++ c :: after).length := (p.getABDegree_node c).symm
        refine ⟨hn.fits.weight, hn.fits.ptr_lt, hn.fits.searchKey, ?_, ?_, ksL, ksR, rfl, hole⟩
        · rw [hsize]
          exact hn.fits.le_size
        · rw [hsize]
          exact hn.fits.size_le
      obtain ⟨path', l', u', ptr', searchKey', weight', entries, hsettle, hrest⟩ :=
        ih (.frame hp hctx) hc hx'
      refine ⟨path', l', u', ptr', searchKey', weight', entries, .of_succ ?_, hrest⟩
      exact hsettle.congr fun fuel => search_node hp hx' (by simp) fuel

end

end AbTree
end PopSetbench

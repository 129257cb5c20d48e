import PopSetbench.Ds.AbTreeBalance
import PopSetbench.Ds.AbTreePairs

/-!
# The relaxed (a,b)-tree as a map

The calls that one thread makes one after the other, and a map from keys to values that the tree
stands for. Every call returns what the map has at the key, and the pairs of the leaves are those of
the map.

* `fix_pairs`: the repairs, with all that they call, leave the pairs as they are.
* `absent_of_pairAt`: a key that is not in the leaf that its search comes to is nowhere in the tree.
* `Op.exec_spec`: one call, and from it `abTree_refines` for a sequence of calls.
-/

namespace PopSetbench
namespace AbTree

open Function

variable {K V : Type}

section Model

variable [LinearOrder K]

/-- `find`. -/
def find (fuel : ℕ) (s : State K V) (key : K) : Option (Option V × Bool) := do
  let (_, l) ← search fuel [] s.root key none
  match l with
  | .internal .. => none
  | .leaf _ _ _ entries =>
    match pairAt entries (getKeyIndex key (entries.map Prod.fst)) key with
    | some (_, value) => some (some value, true)
    | none => some (none, false)

/-- A call. -/
inductive Op (K V : Type)
  | insert (key : K) (value : V)
  | insertIfAbsent (key : K) (value : V)
  | erase (key : K)
  | find (key : K)

/-- What a call returns. `none` is `NO_VALUE`. -/
inductive Reply (V : Type)
  | value (old : Option V)
  | pair (old : Option V) (found : Bool)

/-- The state after a call, and what it returns. -/
def Op.exec (degree fuel : ℕ) (s : State K V) : Op K V → Option (State K V × Reply V)
  | .insert key value =>
    (AbTree.insert degree fuel s key value).map fun r => (r.1, .value r.2)
  | .insertIfAbsent key value =>
    (AbTree.insertIfAbsent degree fuel s key value).map fun r => (r.1, .value r.2)
  | .erase key => (AbTree.erase degree fuel s key).map fun r => (r.1, .pair r.2.1 r.2.2)
  | .find key => (AbTree.find fuel s key).map fun r => (s, .pair r.1 r.2)

/-- A sequence of calls. -/
def replies (degree fuel : ℕ) : State K V → List (Op K V) → Option (State K V × List (Reply V))
  | s, [] => some (s, [])
  | s, op :: ops => do
    let (s, reply) ← op.exec degree fuel s
    let (s, rest) ← replies degree fuel s ops
    some (s, reply :: rest)

/-- What a call does to a map. -/
def Op.spec (map : K → Option V) : Op K V → (K → Option V) × Reply V
  | .insert key value => (update map key (some value), .value (map key))
  | .insertIfAbsent key value =>
    (if (map key).isSome then map else update map key (some value), .value (map key))
  | .erase key => (update map key none, .pair (map key) (map key).isSome)
  | .find key => (map, .pair (map key) (map key).isSome)

/-- What a sequence of calls does to it. -/
def specs (map : K → Option V) : List (Op K V) → (K → Option V) × List (Reply V)
  | [] => (map, [])
  | op :: ops =>
    let (map, reply) := op.spec map
    let (map, rest) := specs map ops
    (map, reply :: rest)

/-- The pairs of the tree are those of the map. -/
def State.Models (s : State K V) (map : K → Option V) : Prop :=
  ∀ k v, (k, v) ∈ s.root.pairs ↔ map k = some v

end Model

section

variable [LinearOrder K] {degree fuel d h : ℕ} {lo : WithBot K} {hi : WithTop K} {s s' : State K V}
  {n l : Node K V} {b : Bool} {path path' : List (Frame K V)} {key k : K} {value : V}
  {map : K → Option V}

/-! ### The repairs keep the pairs -/

/-- The tree that is returned, if there is one, has these pairs. -/
def HasPairs {β : Type} (pairs : List (K × V)) (x : Option (State K V × β)) : Prop :=
  ∀ r, x = some r → r.1.root.pairs = pairs

namespace HasPairs

variable {α β : Type} {pairs : List (K × V)} {x y : Option (State K V × β)}

omit [LinearOrder K]

theorem none : HasPairs pairs (none : Option (State K V × β)) := by
  intro r h
  exact absurd h.symm (Option.some_ne_none r)

theorem some {r : State K V × β} (h : r.1.root.pairs = pairs) : HasPairs pairs (some r) := by
  intro r' h'
  rwa [← Option.some.inj h']

theorem bind {a : Option α} {f : α → Option (State K V × β)}
    (hf : ∀ r, a = .some r → HasPairs pairs (f r)) : HasPairs pairs (a >>= f) := by
  intro r h
  obtain ⟨r', hr', h⟩ := Option.bind_eq_some_iff.mp h
  exact hf r' hr' r h

/-- A repair that is made only if there is something to repair. -/
theorem ite {c : Prop} [Decidable c] (hx : HasPairs pairs x)
    (hy : HasPairs pairs y) : HasPairs pairs (if c then x else y) := by
  split_ifs
  · exact hx
  · exact hy

/-- The same, with what follows. -/
theorem iteBind {γ : Type} {c : Prop} [Decidable c] {f : State K V × β → Option (State K V × γ)}
    (hx : HasPairs pairs x) (hy : HasPairs pairs y)
    (hf : ∀ r, r.1.root.pairs = pairs → HasPairs pairs (f r)) :
    HasPairs pairs (if c then x >>= f else y >>= f) :=
  .ite (.bind fun r hr => hf r (hx r hr)) (.bind fun r hr => hf r (hy r hr))

/-- The calls that a repair makes for other nodes. -/
theorem foldlM {g : State K V → Node K V → Option (State K V × Bool)}
    (hg : ∀ s n, HasPairs s.root.pairs (g s n)) {new : List (Node K V)} {s s' : State K V}
    (h : new.foldlM (fun s n => (g s n).map Prod.fst) s = .some s') :
    s'.root.pairs = s.root.pairs := by
  induction new generalizing s with
  | nil =>
    rw [Option.some.inj h]
  | cons n new ih =>
    rw [List.foldlM_cons] at h
    obtain ⟨s₁, hn, hrest⟩ := Option.bind_eq_some_iff.mp h
    obtain ⟨r, hfix, rfl⟩ := Option.map_eq_some_iff.mp hn
    exact (ih hrest).trans (hg s n r hfix)

end HasPairs

section

variable (hweight : ∀ (s : State K V) n, HasPairs s.root.pairs (fixWeightViolation degree fuel s n))
  (hweightLoop : ∀ (s : State K V) n, HasPairs s.root.pairs (fixWeightLoop degree fuel s n))
  (hdegree : ∀ (s : State K V) n, HasPairs s.root.pairs (fixDegreeViolation degree fuel s n))
  (hdegreeLoop : ∀ (s : State K V) n, HasPairs s.root.pairs (fixDegreeLoop degree fuel s n))

include hweight hdegree hweightLoop in
theorem fixWeightLoop_pairs (s : State K V) (n : Node K V) :
    HasPairs s.root.pairs (fixWeightLoop degree (fuel + 1) s n) := by
  rw [fixWeightLoop]
  refine .bind ?_
  rintro ⟨path, l⟩ hsearch
  have hroot : plug path l = s.root := search_sound hsearch
  refine .ite (.some rfl) ?_
  cases path with
  | nil => exact .none
  | cons p path =>
    refine .ite ?_ ?_
    · -- Absorb or Split
      refine .bind ?_
      rintro ⟨s₁, n', zero⟩ hstep
      rw [← hroot, ← weightStep_pairs hstep]
      refine .iteBind (hweight _ _) (.some rfl) ?_
      rintro ⟨s₂, b⟩ h₂
      rw [← h₂]
      refine .bind ?_
      rintro ⟨s₃, b'⟩ hfix
      have h₃ := hdegree _ _ _ hfix
      exact .some h₃
    · -- the parent first
      refine .bind ?_
      rintro ⟨s₁, b⟩ hfix
      rw [← hweight _ _ _ hfix]
      exact hweightLoop _ _

include hweight hdegree hdegreeLoop in
theorem fixDegreeLoop_pairs (s : State K V) (n : Node K V) :
    HasPairs s.root.pairs (fixDegreeLoop degree (fuel + 1) s n) := by
  rw [fixDegreeLoop]
  refine .bind ?_
  rintro ⟨path, l⟩ hsearch
  have hroot : plug path l = s.root := search_sound hsearch
  refine .ite (.some rfl) ?_
  cases path with
  | nil => exact .none
  | cons p path =>
    refine .bind ?_
    rintro sibling hsib
    refine .ite ?_ ?_
    · -- AbsorbSibling or Distribute
      refine .bind ?_
      rintro ⟨s₁, new⟩ hstep
      rw [← hroot, ← degreeStep_pairs hsib hstep]
      refine .bind ?_
      rintro s₂ hfix
      exact .some (HasPairs.foldlM hdegree hfix)
    · -- the parent, the node and the sibling first
      refine .iteBind (.some rfl) (hweight _ _) ?_
      rintro ⟨s₁, b₁⟩ h₁
      rw [← h₁]
      refine .iteBind (.some rfl) (hweight _ _) ?_
      rintro ⟨s₂, b₂⟩ h₂
      rw [← h₂]
      refine .iteBind (.some rfl) (hweight _ _) ?_
      rintro ⟨s₃, b₃⟩ h₃
      rw [← h₃]
      exact hdegreeLoop _ _

/-- **The repairs** leave the pairs as they are. -/
theorem fix_pairs (degree fuel : ℕ) :
    (∀ (s : State K V) n, HasPairs s.root.pairs (fixWeightViolation degree fuel s n)) ∧
    (∀ (s : State K V) n, HasPairs s.root.pairs (fixWeightLoop degree fuel s n)) ∧
    (∀ (s : State K V) n, HasPairs s.root.pairs (fixDegreeViolation degree fuel s n)) ∧
    ∀ (s : State K V) n, HasPairs s.root.pairs (fixDegreeLoop degree fuel s n) := by
  induction fuel with
  | zero =>
    refine ⟨fun s n => ?_, fun s n => ?_, fun s n => ?_, fun s n => ?_⟩
    · rw [fixWeightViolation]
      exact .none
    · rw [fixWeightLoop]
      exact .none
    · rw [fixDegreeViolation]
      exact .none
    · rw [fixDegreeLoop]
      exact .none
  | succ fuel ih =>
    obtain ⟨hweight, hweightLoop, hdegree, hdegreeLoop⟩ := ih
    refine ⟨fun s n => ?_, fixWeightLoop_pairs hweight hweightLoop hdegree, fun s n => ?_,
      fixDegreeLoop_pairs hweight hdegree hdegreeLoop⟩
    · rw [fixWeightViolation]
      exact .ite (.some rfl) (.ite (.some rfl) (hweightLoop s n))
    · rw [fixDegreeViolation]
      exact .ite (.some rfl) (.ite (.some rfl) (hdegreeLoop s n))

end

/-! ### Searches -/

theorem Holds.ordered {N : ℕ} (hn : Holds degree N h lo hi n) : Ordered h lo hi n := by
  induction h generalizing lo hi n with
  | zero =>
    cases n with
    | leaf => exact ordered_leaf.mpr hn
    | internal => exact hn.elim
  | succ h ih =>
    cases n with
    | leaf => exact hn.elim
    | internal =>
      exact Separated.imp (fun l u c hc => ⟨⟨c.searchKey, hc.1.searchKey⟩, ih hc.2⟩) hn

theorem Rest.unplug {N m : ℕ} (hroot : Rest degree N h m ⊥ ⊤ (plug path n)) :
    ∃ h' m' lo hi, Rest degree N h' m' lo hi n := by
  induction path generalizing n with
  | nil => exact ⟨h, m, ⊥, ⊤, hroot⟩
  | cons p path ih =>
    obtain ⟨h', m', lo, hi, hp⟩ := ih hroot
    cases h' with
    | zero => exact hp.holds.elim
    | succ h' =>
      have hmem : n ∈ p.ptrs n := by
        unfold Frame.ptrs
        simp
      obtain ⟨l, u, hn⟩ := (holds_internal.mp hp.holds).forall_mem hmem
      exact ⟨h', minDegree degree, l, u, hn⟩

theorem State.Sound.ordered (hs : s.Sound degree) : ∃ d, Ordered d ⊥ ⊤ s.root := by
  obtain ⟨h, hroot⟩ := hs.root
  exact ⟨h, hroot.holds.ordered⟩

/-- **A search comes to a leaf** that has the key in its range. -/
theorem search_within (hroot : Ordered d ⊥ ⊤ (plug path n)) (hk : Within (low path) (high path) k)
    (h : search fuel path n k none = some (path', l)) :
    Within (low path') (high path') k ∧ l.isLeaf = true := by
  induction fuel generalizing path n with
  | zero => simp [search] at h
  | succ fuel ih =>
    cases n with
    | leaf ptr searchKey weight entries =>
      obtain ⟨rfl, rfl⟩ := Prod.mk.inj (Option.some.inj h)
      exact ⟨hk, rfl⟩
    | internal ptr searchKey weight keys ptrs =>
      obtain ⟨d', hn, -⟩ := hroot.unplug
      cases d' with
      | zero => exact hn.elim
      | succ d' =>
        obtain ⟨ksL, ksR, before, c, after, lo, hi, rfl, rfl, hole, hc, hk'⟩ :=
          Separated.search hn hk
        have hix : getChildIndex k (ksL ++ ksR) = before.length :=
          hole.findIdx_eq exists_within_and hk'
        let p : Frame K V := ⟨ptr, searchKey, weight, ksL ++ ksR, before, after⟩
        have hlow : low (p :: path) = lo := by
          rw [hole.left_eq]
          rfl
        have hhigh : high (p :: path) = hi := by
          rw [hole.right_eq]
          rfl
        have hsearch : search fuel (p :: path) c k none = some (path', l) := by
          simpa [search, hix] using h
        have hin : Within (low (p :: path)) (high (p :: path)) k := by
          rw [hlow, hhigh]
          exact hk'
        have hplug : Ordered d ⊥ ⊤ (plug (p :: path) c) := hroot
        exact ih hplug hin hsearch

theorem search_root_within (hroot : Ordered d ⊥ ⊤ n)
    (h : search fuel [] n k none = some (path', l)) :
    Within (low path') (high path') k ∧ l.isLeaf = true := by
  have hplug : Ordered d ⊥ ⊤ (plug [] n) := hroot
  exact search_within hplug within_bot_top h

variable {ptr : ℕ} {searchKey : K} {weight : Bool} {entries : List (K × V)}

/-- With the key put in its place the pairs of the tree are in their order. -/
theorem sorted_insertIdx (value : V)
    (hroot : Ordered d ⊥ ⊤ (plug path (.leaf ptr searchKey weight entries)))
    (hkey : Within (low path) (high path) key)
    (hpair : pairAt entries (getKeyIndex key (entries.map Prod.fst)) key = none) {n' : Node K V}
    (hn' : n'.pairs = entries.insertIdx (getKeyIndex key (entries.map Prod.fst)) (key, value)) :
    ((plug path n').pairs.map Prod.fst).Pairwise (· < ·) := by
  obtain ⟨d', hleaf, hplug⟩ := hroot.unplug
  have hinsert := (ordered_leaf.mp hleaf).insertIdx (v := value) hkey hpair
  have hsorted := (hplug (.leaf ptr searchKey weight _) (ordered_leaf.mpr hinsert)).pairs.sorted
  rw [pairs_plug, pairs_leaf] at hsorted
  rwa [pairs_plug, hn']

/-- **A key that is not in its leaf** is nowhere in the tree. -/
theorem absent_of_pairAt (hroot : Ordered d ⊥ ⊤ (plug path (.leaf ptr searchKey weight entries)))
    (hkey : Within (low path) (high path) key)
    (hpair : pairAt entries (getKeyIndex key (entries.map Prod.fst)) key = none) :
    ∀ e ∈ (plug path (.leaf ptr searchKey weight entries)).pairs, e.1 ≠ key := by
  intro e he
  obtain ⟨A, B, hold, hnew⟩ := exists_gap path (getKeyIndex_le key entries)
  -- the list with the key put in its place has the key once
  have hsorted := sorted_insertIdx e.2 hroot hkey hpair
    (pairs_leaf ptr searchKey weight (entries.insertIdx _ (key, e.2)))
  rw [hnew _ _ (pairs_leaf ..)] at hsorted
  rw [hold _ (pairs_leaf ..)] at he
  exact ((mem_middle hsorted).mp he).2

/-- A key that is in a leaf. -/
theorem mem_of_pairAt {v : V} {i : ℕ} (hpair : pairAt entries i key = some (k, v)) :
    (key, v) ∈ (plug path (.leaf ptr searchKey weight entries)).pairs := by
  have hkey : k = key := pairAt_key hpair
  obtain ⟨A, B, hold, -, -⟩ := exists_middle path (pairAt_eq_some hpair)
  rw [hold _ (pairs_leaf ..), ← hkey]
  simp

/-! ### The calls -/

namespace State.Models

omit [LinearOrder K] in
/-- The key is not in the tree. -/
theorem eq_none (hs : s.Models map) (h : ∀ e ∈ s.root.pairs, e.1 ≠ key) : map key = none := by
  rw [Option.eq_none_iff_forall_ne_some]
  intro v hv
  exact h _ ((hs key v).mpr hv) rfl

theorem inserted (hs : s.Models map) (h : Inserted key value s.root.pairs s'.root.pairs) :
    s'.Models (update map key (some value)) := by
  intro k v
  rw [h (k, v), hs k v]
  by_cases hk : k = key
  · subst hk
    simp [eq_comm]
  · simp [hk]

theorem erased (hs : s.Models map) (h : Erased key s.root.pairs s'.root.pairs) :
    s'.Models (update map key none) := by
  intro k v
  rw [h.mem_iff (k, v), hs k v]
  by_cases hk : k = key
  · subst hk
    simp
  · simp [hk]

end State.Models

/-- **`doInsert`** returns the value that the key had. -/
theorem doInsert_spec {replace : Bool} {r : Option V} (hs : s.Sound degree) (hm : s.Models map)
    (h : doInsert degree fuel s key value replace = some (s', r)) :
    r = map key ∧ s'.Models
      (if (map key).isSome = true ∧ replace = false then map else update map key (some value)) := by
  obtain ⟨-, -, hdegree, -⟩ := fix_pairs (K := K) (V := V) degree fuel
  obtain ⟨hweight, -⟩ := fix_pairs (K := K) (V := V) degree fuel
  obtain ⟨d, hordered⟩ := hs.ordered
  obtain ⟨⟨path, l⟩, hsearch, h⟩ := Option.bind_eq_some_iff.mp h
  have hroot : plug path l = s.root := search_sound hsearch
  obtain ⟨hkey, hl⟩ := search_root_within hordered hsearch
  cases l with
  | internal => exact Bool.noConfusion hl
  | leaf ptr searchKey weight entries =>
    rw [← hroot] at hordered
    cases hpair : pairAt entries (getKeyIndex key (entries.map Prod.fst)) key with
    | some e =>
      -- the leaf has the key
      obtain ⟨k, oldValue⟩ := e
      obtain rfl : k = key := pairAt_key hpair
      have hmap : map k = some oldValue := by
        rw [← hm k oldValue, ← hroot]
        exact mem_of_pairAt hpair
      simp only [hpair] at h
      refine ⟨?_, ?_⟩
      all_goals cases replace
      · rw [hmap, (Prod.mk.inj (Option.some.inj h)).2]
      · -- its value is replaced
        obtain ⟨⟨s₁, b⟩, -, h⟩ := Option.bind_eq_some_iff.mp h
        rw [hmap, (Prod.mk.inj (Option.some.inj h)).2]
      · -- without `replace` nothing is done
        obtain ⟨rfl, -⟩ := Prod.mk.inj (Option.some.inj h)
        rw [hmap]
        exact hm
      · -- the new leaf has the pair in the same place
        obtain ⟨⟨s₁, b⟩, hfix, h⟩ := Option.bind_eq_some_iff.mp h
        obtain ⟨rfl, -⟩ := Prod.mk.inj (Option.some.inj h)
        rw [if_neg (fun hcon => Bool.noConfusion hcon.2)]
        refine hm.inserted ?_
        rw [hdegree _ _ _ hfix, ← hroot]
        exact inserted_set (pairAt_eq_some hpair) (pairs_leaf ..) (pairs_leaf ..)
          hordered.pairs.sorted
    | none =>
      -- the leaf does not have the key, and so the map does not
      have hidx := getKeyIndex_le key entries
      have habsent := absent_of_pairAt hordered hkey hpair
      rw [hroot] at habsent
      have hmap : map key = none := hm.eq_none habsent
      have hlen := List.length_insertIdx_of_le_length hidx (key, value)
      have hsize : entries.length ≤ degree := by
        obtain ⟨h₀, hrest⟩ := hs.root
        rw [← hroot] at hrest
        obtain ⟨_, _, _, _, hleaf⟩ := hrest.unplug
        exact hleaf.fits.size_le
      simp only [hpair] at h
      rw [hmap, if_neg (fun hcon => Bool.noConfusion hcon.1)]
      -- the pair is put into the leaf, or into two leaves
      have hinserted : ∀ (n' : Node K V),
          n'.pairs = entries.insertIdx (getKeyIndex key (entries.map Prod.fst)) (key, value) →
          s'.root.pairs = (plug path n').pairs → s'.Models (update map key (some value)) := by
        intro n' hn' hs'
        refine hm.inserted ?_
        rw [hs', ← hroot]
        have hsorted := sorted_insertIdx value hordered hkey hpair hn'
        exact inserted_insertIdx hidx (pairs_leaf ..) hn' hsorted
      split_ifs at h with hroom
      · -- there is room in the leaf
        obtain ⟨⟨s₁, b⟩, hfix, h⟩ := Option.bind_eq_some_iff.mp h
        obtain ⟨rfl, rfl⟩ := Prod.mk.inj (Option.some.inj h)
        exact ⟨rfl, hinserted _ (pairs_leaf ..) (hdegree _ _ _ hfix)⟩
      · -- the leaf overflows
        obtain ⟨n', hover, h⟩ := Option.bind_eq_some_iff.mp h
        obtain ⟨⟨s₁, b⟩, hfix, h⟩ := Option.bind_eq_some_iff.mp h
        obtain ⟨rfl, rfl⟩ := Prod.mk.inj (Option.some.inj h)
        exact ⟨rfl, hinserted n' (overflow_pairs (by omega) hover) (hweight _ _ _ hfix)⟩

/-- **`erase`** returns the value that the key had. -/
theorem erase_spec {r : Option V × Bool} (hs : s.Sound degree) (hm : s.Models map)
    (h : erase degree fuel s key = some (s', r)) :
    r = (map key, (map key).isSome) ∧ s'.Models (update map key none) := by
  obtain ⟨-, -, hdegree, -⟩ := fix_pairs (K := K) (V := V) degree fuel
  obtain ⟨d, hordered⟩ := hs.ordered
  obtain ⟨⟨path, l⟩, hsearch, h⟩ := Option.bind_eq_some_iff.mp h
  have hroot : plug path l = s.root := search_sound hsearch
  obtain ⟨hkey, hl⟩ := search_root_within hordered hsearch
  cases l with
  | internal => exact Bool.noConfusion hl
  | leaf ptr searchKey weight entries =>
    rw [← hroot] at hordered
    cases hpair : pairAt entries (getKeyIndex key (entries.map Prod.fst)) key with
    | none =>
      have habsent := absent_of_pairAt hordered hkey hpair
      rw [hroot] at habsent
      have hmap : map key = none := hm.eq_none habsent
      simp only [hpair] at h
      obtain ⟨rfl, rfl⟩ := Prod.mk.inj (Option.some.inj h)
      refine ⟨by rw [hmap]; rfl, ?_⟩
      rwa [← hmap, update_eq_self]
    | some e =>
      obtain ⟨k, oldValue⟩ := e
      obtain rfl : k = key := pairAt_key hpair
      have hmap : map k = some oldValue := by
        rw [← hm k oldValue, ← hroot]
        exact mem_of_pairAt hpair
      simp only [hpair] at h
      obtain ⟨first, -, h⟩ := Option.bind_eq_some_iff.mp h
      obtain ⟨⟨s₁, b⟩, hfix, h⟩ := Option.bind_eq_some_iff.mp h
      obtain ⟨rfl, rfl⟩ := Prod.mk.inj (Option.some.inj h)
      refine ⟨by rw [hmap]; rfl, hm.erased ?_⟩
      rw [hdegree _ _ _ hfix, ← hroot]
      exact erased_eraseIdx (pairAt_eq_some hpair) (pairs_leaf ..) (pairs_leaf ..)
        hordered.pairs.sorted

/-- **`find`** returns the value that the key has, and it returns. -/
theorem find_settles (hs : s.Sound degree) (hm : s.Models map) (key : K) :
    Settles (fun fuel => find fuel s key) (map key, (map key).isSome) := by
  obtain ⟨d, hordered⟩ := hs.ordered
  obtain ⟨h, hrest⟩ := hs.root
  obtain ⟨path, lo, hi, ptr, searchKey, weight, entries, hsettle, -⟩ :=
    search_leaf (x := key) .root hrest within_bot_top
  filter_upwards [hsettle] with fuel hsearch
  have hroot : plug path (.leaf ptr searchKey weight entries) = s.root := search_sound hsearch
  obtain ⟨hkey, -⟩ := search_root_within hordered hsearch
  rw [← hroot] at hordered
  cases hpair : pairAt entries (getKeyIndex key (entries.map Prod.fst)) key with
  | none =>
    have habsent := absent_of_pairAt hordered hkey hpair
    rw [hroot] at habsent
    have hmap : map key = none := hm.eq_none habsent
    simp [find, hsearch, hpair, hmap]
  | some e =>
    obtain ⟨k, value⟩ := e
    obtain rfl : k = key := pairAt_key hpair
    have hmap : map k = some value := by
      rw [← hm k value, ← hroot]
      exact mem_of_pairAt hpair
    simp [find, hsearch, hpair, hmap]

/-- **One call** returns, and it returns what the map says. -/
theorem Op.exec_spec (hdegree : 4 ≤ degree) (hs : s.Sound degree) (hm : s.Models map)
    (op : Op K V) :
    ∃ s', Settles (fun fuel => op.exec degree fuel s) (s', (op.spec map).2) ∧ s'.Sound degree ∧
      s'.Models (op.spec map).1 := by
  cases op with
  | insert key value =>
    obtain ⟨s', r, hrun, hsound⟩ := doInsert_settles hdegree hs key value true
    obtain ⟨fuel, hfuel⟩ := hrun.exists
    obtain ⟨rfl, hmodels⟩ := doInsert_spec hs hm hfuel
    rw [if_neg (fun hcon => Bool.noConfusion hcon.2)] at hmodels
    refine ⟨s', ?_, hsound, hmodels⟩
    filter_upwards [hrun] with fuel hrun
    simp [Op.exec, AbTree.insert, hrun, Op.spec]
  | insertIfAbsent key value =>
    obtain ⟨s', r, hrun, hsound⟩ := doInsert_settles hdegree hs key value false
    obtain ⟨fuel, hfuel⟩ := hrun.exists
    obtain ⟨rfl, hmodels⟩ := doInsert_spec hs hm hfuel
    simp only [and_true] at hmodels
    refine ⟨s', ?_, hsound, hmodels⟩
    filter_upwards [hrun] with fuel hrun
    simp [Op.exec, AbTree.insertIfAbsent, hrun, Op.spec]
  | erase key =>
    obtain ⟨s', r, hrun, hsound⟩ := erase_settles hdegree hs key
    obtain ⟨fuel, hfuel⟩ := hrun.exists
    obtain ⟨rfl, hmodels⟩ := erase_spec hs hm hfuel
    refine ⟨s', ?_, hsound, hmodels⟩
    filter_upwards [hrun] with fuel hrun
    simp [Op.exec, hrun, Op.spec]
  | find key =>
    refine ⟨s, ?_, hs, hm⟩
    filter_upwards [find_settles hs hm key] with fuel hrun
    simp [Op.exec, hrun, Op.spec]

theorem replies_spec (hdegree : 4 ≤ degree) (hs : s.Sound degree) (hm : s.Models map)
    (ops : List (Op K V)) :
    ∃ s', Settles (fun fuel => replies degree fuel s ops) (s', (specs map ops).2) ∧
      s'.Sound degree ∧ s'.Models (specs map ops).1 := by
  induction ops generalizing s map with
  | nil => exact ⟨s, .of_forall fun _ => rfl, hs, hm⟩
  | cons op ops ih =>
    obtain ⟨s₁, hop, hs₁, hm₁⟩ := op.exec_spec hdegree hs hm
    obtain ⟨s₂, hrest, hs₂, hm₂⟩ := ih hs₁ hm₁
    refine ⟨s₂, ?_, hs₂, hm₂⟩
    filter_upwards [hop, hrest] with fuel hop hrest
    simp [replies, hop, hrest, specs]

/-- **The tree is a map.** Every call of a sequence returns what the map has at the key before the
call. The pairs of the leaves are those of the map in the end, with each key once. -/
theorem abTree_refines (hdegree : 4 ≤ degree) (anyKey : K) (ops : List (Op K V)) :
    ∃ s : State K V,
      Settles (fun fuel => replies degree fuel (.init anyKey) ops)
        (s, (specs (fun _ => none) ops).2) ∧
      s.Models (specs (fun _ => none) ops).1 ∧ (s.root.pairs.map Prod.fst).Nodup := by
  have hinit : (State.init anyKey : State K V).Models fun _ => none := by
    intro k v
    simp [State.init]
  obtain ⟨s, hrun, hsound, hmodels⟩ := replies_spec hdegree (sound_init anyKey) hinit ops
  obtain ⟨d, hordered⟩ := hsound.ordered
  exact ⟨s, hrun, hmodels, hordered.pairs.sorted.imp fun hlt => ne_of_lt hlt⟩

/-- A key that is inserted twice, and one that is taken out. -/
theorem abTree_refines_four : ∃ s : State ℕ ℕ,
    Settles (fun fuel => replies 4 fuel (.init 0) [.insert 1 1, .insert 1 2, .erase 1, .find 1])
      (s, [.value none, .value (some 1), .pair (some 2) true, .pair none false]) ∧
    s.Models (specs (fun _ => none) [.insert 1 1, .insert 1 2, .erase 1, .find 1]).1 ∧
    (s.root.pairs.map Prod.fst).Nodup :=
  abTree_refines (by decide) 0 _

end

end AbTree
end PopSetbench

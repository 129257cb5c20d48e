import Mathlib.Order.WithBot
import Mathlib.Data.List.Basic

/-!
# Children between separators

The children of a node of a search tree with many children, each with the part of the keys that the
separators leave it. What holds of a child is a parameter `P lo hi child`.

* `Separated P lo hi keys children` says that the children satisfy `P` on the parts into which the
  keys cut the range from `lo` to `hi`.
* `Hole P lo hi ksL ksR before after l u` says that this holds around one child that is left out,
  whose part is the one from `l` to `u`.

`Separated.search` finds the hole for a key, and `Hole.fill` puts children back, any number of them:
this is what an insertion, a merge and a split of a child have in common. `Separated.append_iff`
cuts a node in two.
-/

variable {K α : Type*}

/-- `k` is in the range from `lo` to `hi`. -/
def Within [LinearOrder K] (lo : WithBot K) (hi : WithTop K) (k : K) : Prop := lo ≤ k ∧ k < hi

/-- The children satisfy `P` on the parts into which the keys cut a range. -/
inductive Separated (P : WithBot K → WithTop K → α → Prop) :
    WithBot K → WithTop K → List K → List α → Prop
  | last {lo hi c} (child : P lo hi c) : Separated P lo hi [] [c]
  | cons {lo hi c ks cs} {k : K} (child : P lo k c) (rest : Separated P k hi ks cs) :
      Separated P lo hi (k :: ks) (c :: cs)

/-- What is left of a hole. -/
inductive LeftOf (P : WithBot K → WithTop K → α → Prop) :
    WithBot K → List K → List α → WithBot K → Prop
  | nil {lo} : LeftOf P lo [] [] lo
  | cons {lo c ks cs l} {k : K} (child : P lo k c) (rest : LeftOf P k ks cs l) :
      LeftOf P lo (k :: ks) (c :: cs) l

/-- What is right of a hole. -/
inductive RightOf (P : WithBot K → WithTop K → α → Prop) :
    WithTop K → List K → List α → WithTop K → Prop
  | nil {u} : RightOf P u [] [] u
  | cons {ks cs hi} {k : K} (rest : Separated P k hi ks cs) : RightOf P k (k :: ks) cs hi

/-- The children but one. -/
structure Hole (P : WithBot K → WithTop K → α → Prop) (lo : WithBot K) (hi : WithTop K)
    (ksL ksR : List K) (before after : List α) (l : WithBot K) (u : WithTop K) : Prop where
  left : LeftOf P lo ksL before l
  right : RightOf P u ksR after hi

section Ranges

variable [LinearOrder K] {lo l : WithBot K} {hi u : WithTop K} {k k' : K}

theorem within_bot_top : Within ⊥ ⊤ k :=
  ⟨bot_le, WithTop.coe_lt_top k⟩

theorem Within.mono (h : Within l u k) (hlo : lo ≤ l) (hhi : u ≤ hi) : Within lo hi k :=
  ⟨hlo.trans h.1, h.2.trans_le hhi⟩

theorem within_coe_left : Within k hi k' ↔ k ≤ k' ∧ k' < hi := by
  unfold Within
  rw [WithBot.coe_le_coe]

theorem within_coe_right : Within lo k k' ↔ lo ≤ k' ∧ k' < k := by
  unfold Within
  rw [WithTop.coe_lt_coe]

/-- The key of a part that is not empty is above its lower bound. -/
theorem Within.le_coe (h : Within lo k k') : lo ≤ k :=
  h.1.trans (WithBot.coe_le_coe.mpr (within_coe_right.mp h).2.le)

/-- A key between two parts that are not empty. -/
theorem Within.between {x y : K} (hx : Within lo k x) (hy : Within k hi y) : Within lo hi k := by
  obtain ⟨hle, hlt⟩ := within_coe_left.mp hy
  exact ⟨hx.le_coe, (WithTop.coe_le_coe.mpr hle).trans_lt hlt⟩

end Ranges

namespace Separated

variable {P Q : WithBot K → WithTop K → α → Prop} {lo l : WithBot K} {hi u : WithTop K} {k x : K}
  {ks ks₁ ks₂ ksL ksR : List K} {cs cs₁ cs₂ before after : List α} {c : α}

theorem length_eq (h : Separated P lo hi ks cs) : cs.length = ks.length + 1 := by
  induction h with
  | last => rfl
  | cons _ _ ih => simpa using ih

theorem imp (hPQ : ∀ l u c, P l u c → Q l u c) (h : Separated P lo hi ks cs) :
    Separated Q lo hi ks cs := by
  induction h with
  | last child => exact last (hPQ _ _ _ child)
  | cons child _ ih => exact cons (hPQ _ _ _ child) ih

theorem imp_mem (hPQ : ∀ l u, ∀ c ∈ cs, P l u c → Q l u c) (h : Separated P lo hi ks cs) :
    Separated Q lo hi ks cs := by
  induction h with
  | last child => exact last (hPQ _ _ _ List.mem_cons_self child)
  | cons child _ ih =>
    refine cons (hPQ _ _ _ List.mem_cons_self child) (ih fun l u c hc => ?_)
    exact hPQ l u c (List.mem_cons_of_mem _ hc)

theorem forall_mem (h : Separated P lo hi ks cs) (hc : c ∈ cs) : ∃ l u, P l u c := by
  induction h with
  | last child =>
    rw [List.mem_singleton.mp hc]
    exact ⟨_, _, child⟩
  | cons child _ ih =>
    rcases List.mem_cons.mp hc with rfl | hc
    · exact ⟨_, _, child⟩
    · exact ih hc

theorem append (h₁ : Separated P lo k ks₁ cs₁) (h₂ : Separated P k hi ks₂ cs₂) :
    Separated P lo hi (ks₁ ++ k :: ks₂) (cs₁ ++ cs₂) := by
  generalize hu : (k : WithTop K) = u at h₁
  induction h₁ with
  | last child =>
    subst hu
    exact cons child h₂
  | cons child _ ih => exact cons child (ih hu)

/-- A node is cut in two at a separator. -/
theorem append_iff (hlen : cs₁.length = ks₁.length + 1) :
    Separated P lo hi (ks₁ ++ k :: ks₂) (cs₁ ++ cs₂) ↔
      Separated P lo k ks₁ cs₁ ∧ Separated P k hi ks₂ cs₂ := by
  refine ⟨fun h => ?_, fun h => h.1.append h.2⟩
  induction ks₁ generalizing lo cs₁ with
  | nil =>
    obtain ⟨c, rfl⟩ := List.length_eq_one_iff.mp hlen
    cases h with
    | cons child rest => exact ⟨last child, rest⟩
  | cons k₁ ks₁ ih =>
    cases cs₁ with
    | nil => simp at hlen
    | cons c₁ cs₁ =>
      cases h with
      | cons child rest =>
        have hcut := ih (by simpa using hlen) rest
        exact ⟨cons child hcut.1, hcut.2⟩

/-- The cut at an index, as an array is copied into two. -/
theorem cut (h : Separated P lo hi ks cs) {n : ℕ} (hn : 0 < n) (hlt : n < cs.length) :
    ∃ k, ks[n - 1]? = some k ∧ Separated P lo k (ks.take (n - 1)) (cs.take n) ∧
      Separated P k hi (ks.drop n) (cs.drop n) := by
  have hlen := h.length_eq
  have hidx : n - 1 < ks.length := by omega
  refine ⟨ks[n - 1], List.getElem?_eq_getElem hidx, ?_⟩
  refine (append_iff (by simp only [List.length_take]; omega)).mp ?_
  have hks : ks.take (n - 1) ++ ks[n - 1] :: ks.drop n = ks := by
    have hsucc : n - 1 + 1 = n := by omega
    calc ks.take (n - 1) ++ ks[n - 1] :: ks.drop n
        = ks.take (n - 1) ++ ks[n - 1] :: ks.drop (n - 1 + 1) := by rw [hsucc]
      _ = ks.take (n - 1) ++ ks.drop (n - 1) := by rw [List.getElem_cons_drop hidx]
      _ = ks := List.take_append_drop _ _
  rwa [hks, List.take_append_drop]

section Nonempty

variable [LinearOrder K] (hP : ∀ l u c, P l u c → ∃ x, Within l u x)

include hP

/-- The range of a node is not empty, if those of its children are not. -/
theorem exists_within (h : Separated P lo hi ks cs) : ∃ x, Within lo hi x := by
  induction h with
  | last child => exact hP _ _ _ child
  | cons child _ ih =>
    obtain ⟨x, hx⟩ := ih
    obtain ⟨y, hy⟩ := hP _ _ _ child
    exact ⟨x, hx.mono hy.le_coe le_rfl⟩

/-- The separators are in the range of the node. -/
theorem within (h : Separated P lo hi ks cs) (hk : k ∈ ks) : Within lo hi k := by
  induction h with
  | last => simp at hk
  | @cons lo hi c ks cs k₁ child rest ih =>
    obtain ⟨y, hy⟩ := hP _ _ _ child
    have hlo : lo ≤ k₁ := hy.le_coe
    rcases List.mem_cons.mp hk with rfl | hk
    · obtain ⟨x, hx⟩ := rest.exists_within hP
      obtain ⟨hle, hlt⟩ := within_coe_left.mp hx
      exact ⟨hlo, (WithTop.coe_le_coe.mpr hle).trans_lt hlt⟩
    · exact (ih hk).mono hlo le_rfl

/-- A child, with a range that is a part of that of the node. -/
theorem forall_mem_le (h : Separated P lo hi ks cs) (hc : c ∈ cs) :
    ∃ l u, P l u c ∧ lo ≤ l ∧ u ≤ hi := by
  induction h with
  | last child =>
    rw [List.mem_singleton.mp hc]
    exact ⟨_, _, child, le_rfl, le_rfl⟩
  | cons child rest ih =>
    rcases List.mem_cons.mp hc with rfl | hc
    · obtain ⟨x, hx⟩ := rest.exists_within hP
      obtain ⟨hle, hlt⟩ := within_coe_left.mp hx
      exact ⟨_, _, child, le_rfl, (WithTop.coe_le_coe.mpr hle).trans hlt.le⟩
    · obtain ⟨l, u, hc, hl, hu⟩ := ih hc
      obtain ⟨y, hy⟩ := hP _ _ _ child
      exact ⟨l, u, hc, hy.le_coe.trans hl, hu⟩

/-- Only one child has a key. -/
theorem eq_of_mem {T : α → Prop} (hT : ∀ l u c, P l u c → T c → Within l u x)
    (h : Separated P lo hi ks cs) {c' : α} (hc : c ∈ cs) (hc' : c' ∈ cs) (ht : T c) (ht' : T c') :
    c = c' := by
  induction h with
  | last =>
    rw [List.mem_singleton.mp hc, List.mem_singleton.mp hc']
  | @cons lo hi c₀ ks cs k child rest ih =>
    have hright : ∀ d ∈ cs, T d → k ≤ x := by
      intro d hd htd
      obtain ⟨l, u, hd, hl, hu⟩ := rest.forall_mem_le hP hd
      exact (within_coe_left.mp ((hT l u d hd htd).mono hl hu)).1
    have hleft : T c₀ → x < k := fun ht₀ => (within_coe_right.mp (hT _ _ _ child ht₀)).2
    rcases List.mem_cons.mp hc with rfl | hmem
    · rcases List.mem_cons.mp hc' with rfl | hmem'
      · rfl
      · exact absurd (hleft ht) (hright c' hmem' ht').not_gt
    · rcases List.mem_cons.mp hc' with rfl | hmem'
      · exact absurd (hleft ht') (hright c hmem ht).not_gt
      · exact ih hmem hmem'

/-- The separators are in their order. -/
theorem sorted (h : Separated P lo hi ks cs) : ks.Pairwise (· < ·) := by
  induction h with
  | last => exact .nil
  | @cons lo hi c ks cs k child rest ih =>
    refine .cons (fun k' hk' => ?_) ih
    -- the child between the two separators has a key
    cases rest with
    | last => simp at hk'
    | @cons _ _ c₁ ks cs k₁ child₁ rest =>
      obtain ⟨x, hx⟩ := hP _ _ _ child₁
      have hlt : k < k₁ := (within_coe_left.mp hx).1.trans_lt (within_coe_right.mp hx).2
      rcases List.mem_cons.mp hk' with rfl | hk'
      · exact hlt
      · have hle := (within_coe_left.mp (rest.within hP hk')).1
        exact hlt.trans_le hle

/-- The cut into two nodes of two children or more, with the first key of each. -/
theorem halves (h : Separated P lo hi ks cs) {n : ℕ} (hn : 2 ≤ n) (hle : n + 2 ≤ cs.length) :
    ∃ first k second, ks[0]? = some first ∧ (ks.take (n - 1))[0]? = some first ∧
      ks[n - 1]? = some k ∧ ks[n]? = some second ∧ (ks.drop n)[0]? = some second ∧
      Within lo hi k ∧ Within lo k first ∧ Within k hi second ∧
      Separated P lo k (ks.take (n - 1)) (cs.take n) ∧
      Separated P k hi (ks.drop n) (cs.drop n) := by
  have hlen := h.length_eq
  obtain ⟨k, hk, hleft, hright⟩ := h.cut (n := n) (by omega) (by omega)
  have hidx : n < ks.length := by omega
  have hpos : 0 < ks.length := by omega
  have hfirst : (ks.take (n - 1))[0]? = some ks[0] := by
    rw [List.getElem?_take_of_lt (by omega), List.getElem?_eq_getElem hpos]
  have hsecond : (ks.drop n)[0]? = some ks[n] := by
    rw [List.getElem?_drop, Nat.add_zero, List.getElem?_eq_getElem hidx]
  exact ⟨ks[0], k, ks[n], List.getElem?_eq_getElem hpos, hfirst, hk, List.getElem?_eq_getElem hidx,
    hsecond, h.within hP (List.mem_of_getElem? hk), hleft.within hP (List.mem_of_getElem? hfirst),
    hright.within hP (List.mem_of_getElem? hsecond), hleft, hright⟩

end Nonempty

/-- The child that a search for `x` goes to. -/
theorem search [LinearOrder K] (h : Separated P lo hi ks cs) (hx : Within lo hi x) :
    ∃ ksL ksR before c after l u, ks = ksL ++ ksR ∧ cs = before ++ c :: after ∧
      Hole P lo hi ksL ksR before after l u ∧ P l u c ∧ Within l u x := by
  induction h with
  | @last lo hi c child =>
    exact ⟨[], [], [], c, [], lo, hi, rfl, rfl, ⟨.nil, .nil⟩, child, hx⟩
  | @cons lo hi c ks cs k child rest ih =>
    by_cases hxk : x < k
    · refine ⟨[], k :: ks, [], c, cs, lo, k, rfl, rfl, ⟨.nil, .cons rest⟩, child, ?_⟩
      exact within_coe_right.mpr ⟨hx.1, hxk⟩
    · obtain ⟨ksL, ksR, before, c', after, l, u, rfl, rfl, hole, hc', hx'⟩ :=
        ih (within_coe_left.mpr ⟨not_lt.mp hxk, hx.2⟩)
      exact ⟨k :: ksL, ksR, c :: before, c', after, l, u, rfl, rfl,
        ⟨.cons child hole.left, hole.right⟩, hc', hx'⟩

/-- The hole that a child leaves. -/
theorem hole (h : Separated P lo hi ks (before ++ c :: after)) :
    ∃ ksL ksR l u, ks = ksL ++ ksR ∧ Hole P lo hi ksL ksR before after l u ∧ P l u c := by
  induction before generalizing lo ks with
  | nil =>
    cases h with
    | last child => exact ⟨[], [], lo, hi, rfl, ⟨.nil, .nil⟩, child⟩
    | cons child rest => exact ⟨[], _, lo, _, rfl, ⟨.nil, .cons rest⟩, child⟩
  | cons b before ih =>
    rw [List.cons_append] at h
    generalize hcs : before ++ c :: after = cs at h
    cases h with
    | last child => simp at hcs
    | @cons _ _ _ ks _ k child rest =>
      subst hcs
      obtain ⟨ksL, ksR, l, u, rfl, hole, hc⟩ := ih rest
      exact ⟨k :: ksL, ksR, l, u, rfl, ⟨.cons child hole.left, hole.right⟩, hc⟩

end Separated

section Sides

variable {P Q : WithBot K → WithTop K → α → Prop} {lo l : WithBot K} {hi u : WithTop K} {k x : K}
  {ks ksL ksR : List K} {cs before after : List α} {c : α}

theorem LeftOf.length_eq (h : LeftOf P lo ks cs l) : cs.length = ks.length := by
  induction h with
  | nil => rfl
  | cons _ _ ih => simpa using ih

theorem LeftOf.imp (hPQ : ∀ l u c, P l u c → Q l u c) (h : LeftOf P lo ks cs l) :
    LeftOf Q lo ks cs l := by
  induction h with
  | nil => exact .nil
  | cons child _ ih => exact .cons (hPQ _ _ _ child) ih

/-- What is left of a hole is put before children that fill it. -/
theorem LeftOf.fill (h : LeftOf P lo ksL before l) (hfill : Separated P l hi ks cs) :
    Separated P lo hi (ksL ++ ks) (before ++ cs) := by
  induction h with
  | nil => exact hfill
  | cons child _ ih => exact .cons child (ih hfill)

/-- The left neighbour of a hole. -/
theorem LeftOf.concat (h : LeftOf P lo ks (cs ++ [c]) l) :
    ∃ (ks' : List K) (k : K) (l' : WithBot K), ks = ks' ++ [k] ∧ k = l ∧
      LeftOf P lo ks' cs l' ∧ P l' k c := by
  induction cs generalizing lo ks with
  | nil =>
    cases h with
    | cons child rest =>
      cases rest
      exact ⟨[], _, lo, rfl, rfl, .nil, child⟩
  | cons c₁ cs ih =>
    cases h with
    | @cons _ _ ks _ _ k₁ child rest =>
      obtain ⟨ks', k, l', rfl, hk, hleft, hc⟩ := ih rest
      exact ⟨k₁ :: ks', k, l', rfl, hk, .cons child hleft, hc⟩

theorem LeftOf.le [LinearOrder K] (hP : ∀ l u c, P l u c → ∃ x, Within l u x)
    (h : LeftOf P lo ks cs l) : lo ≤ l := by
  induction h with
  | nil => exact le_rfl
  | cons child _ ih =>
    obtain ⟨x, hx⟩ := hP _ _ _ child
    exact hx.le_coe.trans ih

theorem RightOf.imp (hPQ : ∀ l u c, P l u c → Q l u c) (h : RightOf P u ks cs hi) :
    RightOf Q u ks cs hi := by
  cases h with
  | nil => exact .nil
  | cons rest => exact .cons (rest.imp hPQ)

theorem RightOf.le [LinearOrder K] (hP : ∀ l u c, P l u c → ∃ x, Within l u x)
    (h : RightOf P u ks cs hi) : u ≤ hi := by
  cases h with
  | nil => exact le_rfl
  | cons rest =>
    obtain ⟨x, hx⟩ := rest.exists_within hP
    obtain ⟨hle, hlt⟩ := within_coe_left.mp hx
    exact (WithTop.coe_le_coe.mpr hle).trans hlt.le

/-- What is right of a hole is put behind children that fill it. -/
theorem RightOf.fill (h : RightOf P u ksR after hi) (hfill : Separated P lo u ks cs) :
    Separated P lo hi (ks ++ ksR) (cs ++ after) := by
  cases h with
  | nil => simpa using hfill
  | cons rest => exact hfill.append rest

/-- The right neighbour of a hole. -/
theorem RightOf.uncons (h : RightOf P u ks (c :: cs) hi) :
    ∃ (k : K) (ks' : List K) (u' : WithTop K), ks = k :: ks' ∧ k = u ∧
      P k u' c ∧ RightOf P u' ks' cs hi := by
  cases h with
  | @cons ks _ _ k rest =>
    cases rest with
    | last child => exact ⟨k, [], hi, rfl, rfl, child, .nil⟩
    | @cons _ _ _ ks _ k' child rest => exact ⟨k, k' :: ks, k', rfl, rfl, child, .cons rest⟩

end Sides

namespace Hole

variable {P Q : WithBot K → WithTop K → α → Prop} {lo l : WithBot K} {hi u : WithTop K} {k x : K}
  {ks ksL ksR : List K} {cs before after : List α} {c : α}

theorem imp (hPQ : ∀ l u c, P l u c → Q l u c) (h : Hole P lo hi ksL ksR before after l u) :
    Hole Q lo hi ksL ksR before after l u :=
  ⟨h.left.imp hPQ, h.right.imp hPQ⟩

/-- **Filling a hole.** Any number of children may take the place of the one that is left out. -/
theorem fill (h : Hole P lo hi ksL ksR before after l u) (hfill : Separated P l u ks cs) :
    Separated P lo hi (ksL ++ ks ++ ksR) (before ++ cs ++ after) :=
  h.right.fill (h.left.fill hfill)

/-- The hole and its left neighbour make one. -/
theorem concat (h : Hole P lo hi ksL ksR (before ++ [c]) after l u) :
    ∃ (ksL' : List K) (k : K) (l' : WithBot K), ksL = ksL' ++ [k] ∧ k = l ∧ P l' k c ∧
      Hole P lo hi ksL' ksR before after l' u := by
  obtain ⟨ksL', k, l', hks, hk, hleft, hc⟩ := h.left.concat
  exact ⟨ksL', k, l', hks, hk, hc, hleft, h.right⟩

/-- The hole and its right neighbour make one. -/
theorem uncons (h : Hole P lo hi ksL ksR before (c :: after) l u) :
    ∃ (k : K) (ksR' : List K) (u' : WithTop K), ksR = k :: ksR' ∧ k = u ∧ P k u' c ∧
      Hole P lo hi ksL ksR' before after l u' := by
  obtain ⟨k, ksR', u', hks, hk, hc, hright⟩ := h.right.uncons
  exact ⟨k, ksR', u', hks, hk, hc, h.left, hright⟩

/-- The hole that two neighbours leave, with the separator between them. -/
theorem exists_of_pair {d : α} (h : Separated P lo hi ks (before ++ c :: d :: after)) :
    ∃ (ksL : List K) (k : K) (ksR : List K) (l : WithBot K) (u : WithTop K),
      ks = ksL ++ k :: ksR ∧ Hole P lo hi ksL ksR before after l u ∧ P l k c ∧ P k u d := by
  obtain ⟨ksL, ksR, l, u, rfl, hole, hc⟩ := h.hole
  obtain ⟨k, ksR, u', rfl, rfl, hd, hole⟩ := hole.uncons
  exact ⟨ksL, k, ksR, l, u', rfl, hole, hc, hd⟩

/-- The lower bound of a hole is the separator before it, or the one of the node. -/
theorem left_eq (h : Hole P lo hi ksL ksR before after l u) :
    l = if before.length = 0 then lo
      else ((ksL ++ ksR)[before.length - 1]?).elim ⊥ fun k => (k : WithBot K) := by
  obtain ⟨left, -⟩ := h
  induction left with
  | nil => rfl
  | @cons lo c ks cs l k child rest ih =>
    rw [ih]
    cases cs with
    | nil => simp
    | cons => simp

/-- The upper bound of a hole is the separator behind it, or the one of the node. -/
theorem right_eq (h : Hole P lo hi ksL ksR before after l u) :
    u = ((ksL ++ ksR)[before.length]?).elim hi fun k => (k : WithTop K) := by
  obtain ⟨left, right⟩ := h
  rw [left.length_eq, List.getElem?_append_right le_rfl, Nat.sub_self]
  cases right <;> rfl

/-- The range of a hole is a part of that of the node. -/
theorem within [LinearOrder K] (hP : ∀ l u c, P l u c → ∃ x, Within l u x)
    (h : Hole P lo hi ksL ksR before after l u) (hx : Within l u x) : Within lo hi x :=
  hx.mono (h.left.le hP) (h.right.le hP)

/-- **Finding a hole.** The first separator above a key of the hole is the one behind the hole. -/
theorem findIdx_eq [LinearOrder K] (hP : ∀ l u c, P l u c → ∃ x, Within l u x)
    (h : Hole P lo hi ksL ksR before after l u) (hx : Within l u x) :
    (ksL ++ ksR).findIdx (fun k => decide (x < k)) = before.length := by
  obtain ⟨left, right⟩ := h
  induction left with
  | nil =>
    cases right with
    | nil => rfl
    | cons rest => simp [List.findIdx_cons, (within_coe_right.mp hx).2]
  | @cons lo c ks cs l k child rest ih =>
    -- the separators before the hole are at most its lower bound
    have hk : (k : WithBot K) ≤ x := (rest.le hP).trans hx.1
    have hnot : ¬ x < k := not_lt.mpr (WithBot.coe_le_coe.mp hk)
    simp [List.findIdx_cons, hnot, ih hx]

end Hole

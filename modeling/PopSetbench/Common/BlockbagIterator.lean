import PopSetbench.Common.BlockbagMoves

/-!
# Bags of blocks: erasing through an iterator

Model of `blockbag_iterator` (blockbag.h). It goes through the blocks from the head on, and through
each block from the top down. `erase()` is meant to be used in a loop that erases the elements with
some property on its way, and that goes on with `++` at the others.

The hole is filled with the last element of the head block, which was visited before. The iterator
goes past it unless its own block is the head block, and there it is visited a second time. How many
elements that are, in the whole loop, depends only on how the elements were distributed among the
blocks at the beginning (`again`). The loop always ends, and it leaves the elements it should leave.
-/

namespace PopSetbench

namespace Blockbag

open Function

/-- `blockbag_iterator<T>` -/
structure Iterator (A : Type) where
  curr : Option A
  ix : ℤ
  deriving DecidableEq

variable {A T : Type}

namespace Iterator

/-- `end()` -/
def done : Iterator A := ⟨none, -1⟩

/-- The end of `operator++`, where the next block is loaded. -/
def top (m : Mem A T) : Option A → Iterator A
  | some curr => ⟨some curr, (m.data curr).length - 1⟩
  | none => ⟨none, -1⟩

/-- `operator++` -/
def next (m : Mem A T) (it : Iterator A) : Option (Iterator A) :=
  let ix := it.ix - 1
  if ix < 0 then it.curr.map fun curr => top m (m.next curr)
  else some ⟨it.curr, ix⟩

/-- `begin()` -/
def begin (m : Mem A T) (bag : Bag A) : Option (Iterator A) :=
  next m ⟨some bag.head, (m.data bag.head).length⟩

/-- `operator*` -/
def peek (m : Mem A T) (it : Iterator A) : Option T := do
  let curr ← it.curr
  if 0 ≤ it.ix then (m.data curr)[it.ix.toNat]? else none

variable [DecidableEq A]

/-- `erase` -/
def erase (m : Mem A T) (bag : Bag A) (it : Iterator A) :
    Option (Iterator A × Mem A T × Bag A) := do
  let curr ← it.curr
  if m.isBlockEmpty curr then
    none
  else
    let (result, m, bag) ← bag.erase m curr it.ix.toNat
    let it ← if (m.data curr).length ≤ it.ix then it.next m else some it
    let it ← if result then it.next m else some it
    return (it, m, bag)

/-- The loop from `it` on, which erases the elements with the property; the first component of the
result is what it visits. -/
def eraseAll (P : T → Bool) : ℕ → Mem A T → Bag A → Iterator A → Option (List T × Mem A T × Bag A)
  | 0, _, _, _ => none
  | fuel + 1, m, bag, it =>
    if it = done then
      some ([], m, bag)
    else do
      let x ← it.peek m
      let (it, m, bag) ← if P x then it.erase m bag else (it.next m).map fun it => (it, m, bag)
      let (visits, m, bag) ← eraseAll P fuel m bag it
      return (x :: visits, m, bag)

end Iterator

/-- The loop from `begin()` on. -/
def Bag.eraseIf [DecidableEq A] (P : T → Bool) (fuel : ℕ) (m : Mem A T) (bag : Bag A) :
    Option (List T × Mem A T × Bag A) := do
  let it ← Iterator.begin m bag
  it.eraseAll P fuel m bag

/-! ### The elements in their order -/

/-- The elements in the order of the iterator, each with how many of its block come before it. -/
def visiting (bs : List (A × List T)) : List (T × ℕ) :=
  bs.flatMap fun b => b.2.reverse.zipIdx

/-- How many of these elements are left. -/
def kept (P : T → Bool) (xs : List (T × ℕ)) : ℕ :=
  xs.countP fun x => !P x.1

/-- Of the elements that come before an element that is erased none is left, or more than come
before it in its block. -/
def Passes (P : T → Bool) (bs : List (A × List T)) : Prop :=
  ∀ xs x i ys, visiting bs = xs ++ (x, i) :: ys → P x = true →
    kept P xs = 0 ∨ i < kept P xs

/-- How many elements are visited a second time, when `r` elements were left before. -/
def again (P : T → Bool) : ℕ → List (T × ℕ) → ℕ
  | _, [] => 0
  | r, (x, i) :: xs =>
    if P x then (if r = 0 ∨ i < r then 0 else 1) + again P r xs else again P (r + 1) xs

section

variable {P : T → Bool} {bs cs : List (A × List T)} {a : A} {d : List T} {xs : List (T × ℕ)}
  {r : ℕ}

@[simp] theorem visiting_cons :
    visiting ((a, d) :: bs) = d.reverse.zipIdx ++ visiting bs := rfl

/-- These are the elements of the bag. -/
theorem coe_visiting : (↑((visiting bs).map Prod.fst) : Multiset T) = contents bs := by
  induction bs with
  | nil => rfl
  | cons b bs ih =>
    obtain ⟨a, d⟩ := b
    rw [visiting_cons, List.map_append, ← Multiset.coe_add, ih, List.zipIdx_map_fst, contents_cons,
      Multiset.coe_reverse]

/-- When nothing is visited again. -/
theorem again_eq_zero_iff : again P r xs = 0 ↔ ∀ ys x i zs, xs = ys ++ (x, i) :: zs →
    P x = true → r + kept P ys = 0 ∨ i < r + kept P ys := by
  induction xs generalizing r with
  | nil =>
    refine iff_of_true rfl fun ys x i zs h => ?_
    simp at h
  | cons z xs ih =>
    obtain ⟨x, i⟩ := z
    unfold again
    cases hx : P x with
    | false =>
      -- the element stays, so there is one more in front of those to come
      have hkept : ∀ ys, r + kept P ((x, i) :: ys) = r + 1 + kept P ys := by
        intro ys
        simp [kept, hx]
        omega
      rw [if_neg (by simp), ih]
      constructor
      · -- the first element is not erased, and says nothing
        rintro h (_ | ⟨y, ys⟩) x' i' zs heq hx'
        · obtain ⟨hz, -⟩ := List.cons.inj heq
          cases hz
          rw [hx] at hx'
          cases hx'
        · obtain ⟨rfl, hrest⟩ := List.cons.inj heq
          rw [hkept]
          exact h ys x' i' zs hrest hx'
      · intro h ys x' i' zs heq hx'
        rw [← hkept]
        exact h ((x, i) :: ys) x' i' zs (congrArg _ heq) hx'
    | true =>
      -- the element is erased: it is visited again unless nothing is kept or it is below
      have hkept : ∀ ys, kept P ((x, i) :: ys) = kept P ys := by
        intro ys
        simp [kept, hx]
      rw [if_pos rfl, Nat.add_eq_zero_iff, ih]
      constructor
      · -- the first element is the one in question
        rintro ⟨hhead, h⟩ (_ | ⟨y, ys⟩) x' i' zs heq hx'
        · obtain ⟨hz, -⟩ := List.cons.inj heq
          cases hz
          show r = 0 ∨ i < r
          by_contra hne
          rw [if_neg hne] at hhead
          cases hhead
        · obtain ⟨rfl, hrest⟩ := List.cons.inj heq
          rw [hkept]
          exact h ys x' i' zs hrest hx'
      · intro h
        refine ⟨if_pos (h [] x i xs rfl hx), fun ys x' i' zs heq hx' => ?_⟩
        rw [← hkept ys]
        exact h ((x, i) :: ys) x' i' zs (congrArg _ heq) hx'

theorem passes_iff : Passes P bs ↔ again P 0 (visiting bs) = 0 := by
  rw [again_eq_zero_iff]
  simp only [Nat.zero_add]
  rfl

end

/-! ### Where the iterator is -/

section

variable {m m' : Mem A T} {bag : Bag A} {bs cs pre post : List (A × List T)} {F : Multiset A}
  {P : T → Bool} {a : A} {d e : List T} {x : T} {i : ℕ} {it : Iterator A} {k : Multiset T}
  {todo : List (T × ℕ)} {flag : Bool}

/-- **Where the iterator is**: the elements `k` before it are left, and those from it on are
`todo`. While there is a block before its own, all places above it in its block are used. -/
inductive At : List (A × List T) → Iterator A → Multiset T → List (T × ℕ) → Prop
  | here (pre : List (A × List T)) (a : A) (d : List T) (x : T) (e : List T)
      (post : List (A × List T)) (i : ℕ) (hle : e.length ≤ i) (hfull : pre ≠ [] → e.length = i) :
      At (pre ++ (a, d ++ x :: e) :: post) ⟨some a, d.length⟩ (contents pre + ↑e)
        ((x, i) :: (d.reverse.zipIdx (i + 1) ++ visiting post))
  | done (bs : List (A × List T)) : At bs .done (contents bs) []

/-- The iterator goes on to the next place below, or to the top of the next block. -/
theorem Chained.at_next {p : Option A} (h : Chained m p (pre ++ (a, d ++ e) :: post) none)
    (hpost : ∀ b ∈ post, b.2 ≠ []) (hle : e.length ≤ i) (hfull : pre ≠ [] → e.length = i) :
    ∃ it, Iterator.next m ⟨some a, d.length⟩ = some it ∧
      At (pre ++ (a, d ++ e) :: post) it (contents pre + ↑e)
        (d.reverse.zipIdx i ++ visiting post) := by
  obtain ⟨-, -, -, -, hrest⟩ := Chained.append_iff.mp h
  unfold Iterator.next
  obtain rfl | ⟨d, x, rfl⟩ := d.eq_nil_or_concat'
  · -- the block is done
    rw [if_pos (by simp)]
    refine ⟨_, rfl, ?_⟩
    show At _ (Iterator.top m (m.next a)) _ _
    cases post with
    | nil =>
      have hnext : m.next a = none := hrest
      have hdone := At.done (pre ++ [(a, e)])
      rw [contents_append, contents_cons, contents_nil, Multiset.add_zero] at hdone
      rw [hnext]
      exact hdone
    | cons b post =>
      obtain ⟨b, f⟩ := b
      obtain ⟨hnext, hf, -⟩ := hrest
      obtain rfl | ⟨f, x, rfl⟩ := f.eq_nil_or_concat'
      · exact absurd rfl (hpost _ List.mem_cons_self)
      have hhere := At.here (pre ++ [(a, e)]) b f x [] post 0 le_rfl fun _ => rfl
      have htop : Iterator.top m (m.next a) = ⟨some b, f.length⟩ := by
        rw [hnext]
        simp [Iterator.top, hf]
      rw [htop]
      simpa using hhere
  · have hhere := At.here pre a d x e post i hle hfull
    rw [if_neg (by simp)]
    refine ⟨_, rfl, ?_⟩
    simpa using hhere

/-- The blocks behind another one are not empty. -/
theorem Shape.ne_nil_of_mem {c b : A × List T} (h : Shape m bag (pre ++ c :: post))
    (hb : b ∈ post) : b.2 ≠ [] := by
  intro hnil
  have hfull := h.full b (mem_tail_append hb)
  rw [hnil] at hfull
  cases hfull

/-- The loop begins. -/
theorem Rep.begin (h : Rep m bag bs) :
    ∃ it, Iterator.begin m bag = some it ∧ At bs it 0 (visiting bs) := by
  obtain ⟨d, fs, rfl⟩ := h.exists_cons
  have hchain : Chained m (some bag.head) ([] ++ (bag.head, d ++ []) :: fs) none := by
    rw [List.append_nil]
    exact h.chain
  have hshape : Shape m bag ([] ++ (bag.head, d) :: fs) := h.toShape
  have hnext := hchain.at_next (i := 0) (fun b hb => hshape.ne_nil_of_mem hb) le_rfl
    fun hne => absurd rfl hne
  rw [List.append_nil] at hnext
  unfold Iterator.begin
  rw [h.chain.2.1]
  exact hnext

/-- An element is left where it is. -/
theorem At.next (h : At bs it k ((x, i) :: todo)) (hr : Rep m bag bs) :
    it.peek m = some x ∧ ∃ it', it.next m = some it' ∧ At bs it' (x ::ₘ k) todo := by
  cases h with
  | here pre a d x e post i hle hfull =>
    have hdata : m.data a = d ++ x :: e := hr.chain.data (by simp)
    constructor
    · simp [Iterator.peek, hdata]
    · have hnext := hr.chain.at_next (d := d) (e := x :: e) (i := i + 1)
        (fun b hb => hr.ne_nil_of_mem hb) (Nat.succ_le_succ hle) fun hne => by
          rw [List.length_cons, hfull hne]
      rwa [← Multiset.cons_coe, Multiset.add_cons] at hnext

/-- A block is at one place in the bag. -/
theorem append_cons_inj {u v : List T} {fs gs : List (A × List T)}
    (h : pre ++ (a, u) :: post = fs ++ (a, v) :: gs)
    (hnodup : (addrs (pre ++ (a, u) :: post)).Nodup) : pre = fs ∧ u = v ∧ post = gs := by
  rw [addrs_append, addrs_cons, Multiset.add_cons, Multiset.nodup_cons, Multiset.mem_add,
    not_or] at hnodup
  have hpre : (a, v) ∉ pre := fun hmem => hnodup.1.1 (mem_addrs.mpr ⟨v, hmem⟩)
  have hpost : (a, v) ∉ post := fun hmem => hnodup.1.2 (mem_addrs.mpr ⟨v, hmem⟩)
  obtain ⟨rfl, hblock, rfl⟩ := (List.append_cons_inj_of_notMem hpre hpost).mp h
  exact ⟨rfl, (Prod.mk.inj hblock).2, rfl⟩

/-- **The hole is filled** from above in the same block, if that is the head block, or with an
element of the head block. -/
theorem eraseFrom_cases (h : EraseFrom a d.length flag (pre ++ (a, d ++ x :: e) :: post) cs)
    (hnodup : (addrs (pre ++ (a, d ++ x :: e) :: post)).Nodup) :
    (pre = [] ∧ flag = false ∧ ((e = [] ∧ cs = (a, d) :: post) ∨
      ∃ y z, e = y ++ [z] ∧ cs = (a, d ++ z :: y) :: post)) ∨
    ∃ y pre', contents pre = y ::ₘ contents pre' ∧ flag = true ∧
      cs = pre' ++ (a, d ++ y :: e) :: post := by
  generalize hbs : pre ++ (a, d ++ x :: e) :: post = bs at h
  cases h with
  | head d' z fs =>
    have hbs : pre ++ (a, d ++ x :: e) :: post = [] ++ (a, d' ++ [z]) :: fs := hbs
    obtain ⟨rfl, hdata, rfl⟩ := append_cons_inj hbs hnodup
    refine .inl ⟨rfl, rfl, ?_⟩
    obtain rfl | ⟨e, y, rfl⟩ := e.eq_nil_or_concat'
    · obtain ⟨rfl, -⟩ := List.append_inj' hdata rfl
      rw [List.set_eq_of_length_le le_rfl]
      exact .inl ⟨rfl, rfl⟩
    · rw [← List.cons_append, ← List.append_assoc] at hdata
      obtain ⟨rfl, hlast⟩ := List.append_inj' hdata rfl
      obtain rfl := List.singleton_inj.mp hlast
      refine .inr ⟨e, y, rfl, ?_⟩
      simp
  | later b d' y fs e' gs hix =>
    rw [← List.cons_append] at hbs
    obtain ⟨rfl, rfl, rfl⟩ := append_cons_inj hbs hnodup
    refine .inr ⟨y, (b, d') :: fs, ?_, rfl, ?_⟩
    · rw [contents_cons, contents_cons, coe_concat, Multiset.cons_add]
    · simp

theorem erased_cases (h : Erased a d.length flag (pre ++ (a, d ++ x :: e) :: post) cs)
    (hnodup : (addrs (pre ++ (a, d ++ x :: e) :: post)).Nodup) :
    (contents pre = 0 ∧ flag = false ∧ ((e = [] ∧ cs = (a, d) :: post) ∨
      ∃ y z, e = y ++ [z] ∧ cs = (a, d ++ z :: y) :: post)) ∨
    ∃ y pre', contents pre = y ::ₘ contents pre' ∧ flag = true ∧
      cs = pre' ++ (a, d ++ y :: e) :: post := by
  generalize hbs : pre ++ (a, d ++ x :: e) :: post = bs at h
  cases h with
  | here h =>
    rw [← hbs] at h
    obtain ⟨rfl, hcases⟩ | hcases := eraseFrom_cases h hnodup
    · exact .inl ⟨rfl, hcases⟩
    · exact .inr hcases
  | @behind bs _ b h =>
    -- the empty head block is not that of the element
    cases pre with
    | nil =>
      obtain ⟨hblock, -⟩ := List.cons.inj hbs
      simp at hblock
    | cons c pre =>
      obtain ⟨rfl, rfl⟩ := List.cons.inj hbs
      rw [List.cons_append, addrs_cons, Multiset.nodup_cons] at hnodup
      rw [contents_cons, Multiset.coe_nil, Multiset.zero_add]
      obtain ⟨rfl, hcases⟩ | hcases := eraseFrom_cases h hnodup.2
      · exact .inl ⟨rfl, hcases⟩
      · exact .inr hcases

variable [DecidableEq A]

/-- **An element is erased.** The iterator goes on to the next one to be visited, or it stays at an
element that was visited before, in its own block. -/
theorem At.erase (h : At bs it k ((x, i) :: todo)) (hr : Rep m bag bs)
    (ho : m.Owned (addrs bs + F)) :
    it.peek m = some x ∧ ∃ it' m' bag' bs', it.erase m bag = some (it', m', bag') ∧
      Leaves m F m' bag' bs' ∧
      (((k = 0 ∨ i < k.card) ∧ At bs' it' k todo) ∨
        ∃ z k', k = z ::ₘ k' ∧ k.card ≤ i ∧ At bs' it' k' ((z, i) :: todo)) := by
  refine ⟨(h.next hr).1, ?_⟩
  cases h with
  | here pre a d x e post i hle hfull =>
    -- what `erase` does to the block of the element
    have hdata : m.data a = d ++ x :: e := hr.chain.data (by simp)
    have hblock : m.isBlockEmpty a = false := by
      rw [Bool.eq_false_iff, ne_eq, Mem.isBlockEmpty_iff, hdata]
      simp
    obtain ⟨-, hlen⟩ | ⟨flag, m', bag', bs', herase, hleaves, herased⟩ :=
      hr.erase ho (a := a) (e := d ++ x :: e) (by simp) (by simp) d.length
    · rw [List.length_append, List.length_cons] at hlen
      omega
    -- behind the block there are full ones only
    have hpost : ∀ b ∈ post, b.2 ≠ [] := fun b hb => hr.ne_nil_of_mem hb
    unfold Iterator.erase
    simp only [Option.bind_eq_bind, Option.bind_some, hblock, Int.toNat_natCast, herase,
      Bool.false_eq_true, if_false]
    obtain ⟨hpre, rfl, hcases⟩ | ⟨y, pre', hpre, rfl, rfl⟩ := erased_cases herased hr.nodup
    · -- the block is the head block now
      obtain ⟨rfl, rfl⟩ | ⟨e, z, rfl, rfl⟩ := hcases
      · -- the last element was erased: the iterator goes to the next block
        have hdata' : m'.data a = d := hleaves.rep.chain.data (by simp)
        have hchain : Chained m' (some bag'.head) ([] ++ (a, d ++ []) :: post) none := by
          rw [List.append_nil]
          exact hleaves.rep.chain
        obtain ⟨it, hnext, hat⟩ := hchain.at_next (i := i + 1) hpost (Nat.zero_le _)
          fun hne => absurd rfl hne
        rw [List.append_nil] at hat
        refine ⟨it, m', bag', _, ?_, hleaves, .inl ⟨.inl ?_, ?_⟩⟩
        · rw [hdata', if_pos le_rfl, hnext]
          rfl
        · rw [hpre]
          rfl
        · rw [hpre]
          exact hat
      · -- the last element `z` of the block has filled the hole: the iterator stays at it
        have hdata' : m'.data a = d ++ z :: e := hleaves.rep.chain.data (by simp)
        have hhere := At.here [] a d z e post i (by simp at hle; omega) fun hne => absurd rfl hne
        refine ⟨⟨some a, d.length⟩, m', bag', _, ?_, hleaves, .inr ⟨z, ↑e, ?_, ?_, ?_⟩⟩
        · rw [hdata', if_neg (by simp)]
          rfl
        · rw [hpre, Multiset.zero_add, coe_concat]
        · rw [hpre, Multiset.zero_add, Multiset.coe_card]
          exact hle
        · rw [contents_nil, Multiset.zero_add] at hhere
          exact hhere
    · -- the head block is another one, and all places above in this block are used
      have hdata' : m'.data a = d ++ y :: e := hleaves.rep.chain.data (by simp)
      have hi : e.length = i := by
        refine hfull ?_
        rintro rfl
        exact Multiset.zero_ne_cons hpre
      obtain ⟨it, hnext, hat⟩ := Chained.at_next (d := d) (e := y :: e) (i := i + 1)
        hleaves.rep.chain hpost (Nat.succ_le_succ hle) fun _ => by rw [List.length_cons, hi]
      refine ⟨it, m', bag', _, ?_, hleaves, .inl ⟨.inr ?_, ?_⟩⟩
      · rw [hdata', if_neg (by simp)]
        simp [hnext]
      · rw [hpre, Multiset.card_add, Multiset.card_cons, Multiset.coe_card, hi]
        omega
      · rw [hpre, Multiset.cons_add, ← Multiset.add_cons, Multiset.cons_coe]
        exact hat

/-- What the loop from an iterator on does: it ends, leaves the elements `k` and those of `todo` that
do not have the property, and visits those of `todo` or more. -/
def Iterates (m : Mem A T) (bag : Bag A) (F : Multiset A) (P : T → Bool) (it : Iterator A)
    (k : Multiset T) (todo : List (T × ℕ)) : Prop :=
  ∃ visits m' bag' bs', Settles (fun fuel => it.eraseAll P fuel m bag) (visits, m', bag') ∧
    Leaves m F m' bag' bs' ∧
    contents bs' = k + ↑((todo.map Prod.fst).filter fun x => !P x) ∧
    visits.length = todo.length + again P k.card todo ∧
    (again P k.card todo = 0 → visits = todo.map Prod.fst)

/-- The loop ends. -/
theorem At.iterates_done (h : At bs it k []) (hr : Rep m bag bs) (ho : m.Owned (addrs bs + F)) :
    Iterates m bag F P it k [] := by
  cases h with
  | done =>
    refine ⟨[], m, bag, bs, .of_succ (.of_forall fun fuel => ?_), ⟨hr, ho, .refl⟩, ?_, rfl,
      fun _ => rfl⟩
    · unfold Iterator.eraseAll
      rw [if_pos rfl]
    · exact (Multiset.add_zero _).symm

omit [DecidableEq A] in
/-- The iterator is not at the end. -/
theorem At.ne_done (h : At bs it k ((x, i) :: todo)) : it ≠ .done := by
  cases h
  exact fun heq => Option.some_ne_none _ (congrArg Iterator.curr heq)

/-- **An element that is left is visited**, and the loop goes on. -/
theorem At.iterates_next (h : At bs it k ((x, i) :: todo)) (hr : Rep m bag bs)
    (hx : P x = false)
    (ih : ∀ it', At bs it' (x ::ₘ k) todo → Iterates m bag F P it' (x ::ₘ k) todo) :
    Iterates m bag F P it k ((x, i) :: todo) := by
  obtain ⟨hpeek, it', hnext, hat⟩ := h.next hr
  obtain ⟨visits, m', bag', bs', hset, hleaves, hc, hlen, heq⟩ := ih it' hat
  rw [Multiset.card_cons] at hlen heq
  have hagain : again P k.card ((x, i) :: todo) = again P (k.card + 1) todo :=
    if_neg (by simp [hx])
  refine ⟨x :: visits, m', bag', bs', .of_succ ?_, hleaves, ?_, ?_, ?_⟩
  · filter_upwards [hset] with fuel hfuel
    rw [Iterator.eraseAll, if_neg h.ne_done, hpeek, Option.bind_eq_bind, Option.bind_some, hx]
    simp [hnext, hfuel]
  · rw [hc, List.map_cons, List.filter_cons_of_pos (by simp [hx]), ← Multiset.cons_coe,
      Multiset.cons_add, Multiset.add_cons]
  · rw [hagain, List.length_cons, List.length_cons, hlen]
    omega
  · rw [hagain, List.map_cons]
    exact fun h₀ => congrArg _ (heq h₀)

/-- **An element that is erased is visited**, and the loop goes on. -/
theorem At.iterates_erase {k' : Multiset T} {todo' : List (T × ℕ)}
    (h : At bs it k ((x, i) :: todo)) (hx : P x = true) {it' : Iterator A} {bag' : Bag A}
    (hpeek : it.peek m = some x) (herase : it.erase m bag = some (it', m', bag'))
    (hkept : m.Kept m' F) (hi : Iterates m' bag' F P it' k' todo')
    (hcontents : k' + ↑((todo'.map Prod.fst).filter fun x => !P x) =
      k + (↑((todo.map Prod.fst).filter fun x => !P x) : Multiset T))
    (hagain : todo'.length + again P k'.card todo' + 1 =
      todo.length + 1 + again P k.card ((x, i) :: todo))
    (hsame : again P k.card ((x, i) :: todo) = 0 → k' = k ∧ todo' = todo) :
    Iterates m bag F P it k ((x, i) :: todo) := by
  obtain ⟨visits, m'', bag'', bs'', hset, hleaves, hc, hlen, heq⟩ := hi
  refine ⟨x :: visits, m'', bag'', bs'', .of_succ ?_,
    ⟨hleaves.rep, hleaves.owned, hkept.trans hleaves.kept⟩, ?_, ?_, ?_⟩
  · filter_upwards [hset] with fuel hfuel
    rw [Iterator.eraseAll, if_neg h.ne_done, hpeek, Option.bind_eq_bind, Option.bind_some, hx]
    simp [herase, hfuel]
  · rw [hc, List.map_cons, List.filter_cons_of_neg (by simp [hx]), hcontents]
  · rw [List.length_cons, List.length_cons, hlen, hagain]
  · intro h₀
    obtain ⟨rfl, rfl⟩ := hsame h₀
    rw [List.map_cons, heq (by omega)]

/-- **The loop from where the iterator is.** -/
theorem At.iterates (h : At bs it k todo) (hk : ∀ y ∈ k, P y = false) (hr : Rep m bag bs)
    (ho : m.Owned (addrs bs + F)) : Iterates m bag F P it k todo := by
  induction todo generalizing bs m bag it k with
  | nil => exact h.iterates_done hr ho
  | cons c todo ih =>
    obtain ⟨x, i⟩ := c
    cases hx : P x with
    | false =>
      refine h.iterates_next hr hx fun it' hat => ih hat (fun y hy => ?_) hr ho
      obtain rfl | hy := Multiset.mem_cons.mp hy
      · exact hx
      · exact hk y hy
    | true =>
      obtain ⟨hpeek, it', m', bag', bs', herase, hleaves, hcases⟩ := h.erase hr ho
      have hagain : again P k.card ((x, i) :: todo) =
          (if k.card = 0 ∨ i < k.card then 0 else 1) + again P k.card todo := if_pos hx
      obtain ⟨hpass, hat⟩ | ⟨z, k', rfl, hle, hat⟩ := hcases
      · rw [← Multiset.card_eq_zero] at hpass
        rw [if_pos hpass] at hagain
        refine h.iterates_erase hx hpeek herase hleaves.kept (ih hat hk hleaves.rep hleaves.owned)
          rfl ?_ fun _ => ⟨rfl, rfl⟩
        rw [hagain]
        omega
      · -- the element that has filled the hole is visited again
        have hz : P z = false := hk z (Multiset.mem_cons_self ..)
        have hcard : (z ::ₘ k').card = k'.card + 1 := Multiset.card_cons ..
        have hz' : again P k'.card ((z, i) :: todo) = again P (z ::ₘ k').card todo := by
          rw [hcard]
          exact if_neg (by simp [hz])
        rw [if_neg (by omega)] at hagain
        refine h.iterates_erase hx hpeek herase hleaves.kept
          (hat.iterates_next hleaves.rep hz fun it'' hat' => ih hat' hk hleaves.rep hleaves.owned)
          ?_ ?_ fun h₀ => ?_
        · rw [List.map_cons, List.filter_cons_of_pos (by simp [hz]), ← Multiset.cons_coe,
            Multiset.add_cons, Multiset.cons_add]
        · rw [hz', hagain, List.length_cons]
          omega
        · omega

/-- **Erasing through an iterator.** The loop ends and leaves exactly the elements without the
property; it visits every element once if and only if it passes all the elements that are put in
the place of those it erases. -/
theorem iterator_erase (P : T → Bool) (h : Rep m bag bs) (ho : m.Owned (addrs bs + F)) :
    ∃ visits m' bag' bs', Settles (fun fuel => bag.eraseIf P fuel m) (visits, m', bag') ∧
      Leaves m F m' bag' bs' ∧ contents bs' = (contents bs).filter (fun x => P x = false) ∧
      ((↑visits : Multiset T) = contents bs ↔ Passes P bs) := by
  obtain ⟨it, hbegin, hat⟩ := h.begin
  obtain ⟨visits, m', bag', bs', hset, hleaves, hc, hlen, heq⟩ :=
    hat.iterates (P := P) (fun y hy => absurd hy (Multiset.notMem_zero y)) h ho
  refine ⟨visits, m', bag', bs', hset.congr fun fuel => ?_, hleaves, ?_, ?_⟩
  · unfold Bag.eraseIf
    rw [hbegin]
    rfl
  · rw [hc, Multiset.zero_add, ← coe_visiting, Multiset.filter_coe]
    congr 2
    funext x
    cases P x <;> rfl
  · rw [passes_iff, ← coe_visiting]
    constructor
    · intro hv
      have hcard := congrArg Multiset.card hv
      rw [Multiset.coe_card, Multiset.coe_card, List.length_map, hlen, Multiset.card_zero] at hcard
      omega
    · intro h₀
      rw [heq h₀]

end

/-- One block, with three elements. -/
def threeElements : Mem ℕ ℕ :=
  ⟨fun _ => ⟨none, [0, 1, 2]⟩, [], {1}, 1⟩

/-- The bag with this block. -/
def oneBlock : Bag ℕ := ⟨1, 1, 1⟩

theorem oneBlock_rep : Rep threeElements oneBlock [(1, [0, 1, 2])] where
  chain := ⟨rfl, rfl, rfl⟩
  tail := rfl
  size := rfl
  full := fun _ hb => absurd hb List.not_mem_nil
  head_lt := by
    rintro b ⟨⟩
    decide

theorem oneBlock_owned : threeElements.Owned (addrs [(1, [0, 1, 2])] + 0) where
  allocated := rfl
  pool_empty := fun _ ha => absurd ha List.not_mem_nil

/-- The element that fills the hole is visited twice. -/
theorem iterator_erase_again : Rep threeElements oneBlock [(1, [0, 1, 2])] ∧
    threeElements.Owned (addrs [(1, [0, 1, 2])]) ∧
    ∃ m' bag', Settles (fun fuel => oneBlock.eraseIf (· == 1) fuel threeElements)
        ([2, 1, 2, 0], m', bag') ∧
      (↑[2, 1, 2, 0] : Multiset ℕ) ≠ contents [(1, [0, 1, 2])] := by
  exact ⟨oneBlock_rep, oneBlock_owned, _, _,
    .of_succ (.of_succ (.of_succ (.of_succ (.of_succ (.of_forall fun _ => rfl))))), by decide⟩

/-- The first element is erased. -/
theorem iterator_erase_first :
    ∃ visits m' bag' bs', Settles (fun fuel => oneBlock.eraseIf (· == 2) fuel threeElements)
        (visits, m', bag') ∧ Leaves threeElements 0 m' bag' bs' ∧
      contents bs' = {0, 1} ∧ (↑visits : Multiset ℕ) = {0, 1, 2} := by
  obtain ⟨visits, m', bag', bs', hset, hleaves, hc, hv⟩ :=
    iterator_erase (· == 2) oneBlock_rep oneBlock_owned
  refine ⟨visits, m', bag', bs', hset, hleaves, ?_, ?_⟩
  · rw [hc]
    decide
  · exact hv.mpr (passes_iff.mpr rfl)

end Blockbag

end PopSetbench

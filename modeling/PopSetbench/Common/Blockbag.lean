import PopSetbench.Common.Blockpool
import PopSetbench.Library.Chain
import PopSetbench.Library.Fuel
import Mathlib.Algebra.Order.Ring.Int

/-!
# Bags of blocks

Model of `blockbag` (blockbag.h): a chain of blocks of which all but the first are full. Its blocks
come from a pool (Blockpool.lean) that several bags share. `add` and `remove` work on the first
block; whole blocks are taken out behind it and appended at the end, where `tail` points.

`Rep m bag bs` says that the blocks of the bag are `bs`, from the head on, with what is in each, and
that the bag is valid. There is one lemma for each operation: it succeeds, the bag consists of other
blocks afterwards, and the blocks of everyone else are as they were.
-/

namespace PopSetbench

namespace Blockbag

open Function

/-- `blockbag<T>` -/
structure Bag (A : Type) where
  head : A
  tail : A
  sizeInBlocks : ℤ

namespace Bag

variable {A T : Type}

/-- `isEmpty` -/
def isEmpty (m : Mem A T) (bag : Bag A) : Bool :=
  (m.next bag.head).isNone && m.isBlockEmpty bag.head

/-- The loop of `computeSizeInBlocks`. -/
def countBlocks (m : Mem A T) : ℕ → Option A → ℤ → Option ℤ
  | 0, _, _ => none
  | _ + 1, none, result => some result
  | fuel + 1, some curr, result => countBlocks m fuel (m.next curr) (result + 1)

/-- `computeSizeInBlocks` -/
def computeSizeInBlocks (fuel : ℕ) (m : Mem A T) (bag : Bag A) : Option ℤ :=
  countBlocks m fuel (some bag.head) 0

/-- The loop of `computeSize`. -/
def sumSizes (m : Mem A T) : ℕ → Option A → ℤ → Option ℤ
  | 0, _, _ => none
  | _ + 1, none, result => some result
  | fuel + 1, some curr, result =>
    sumSizes m fuel (m.next curr) (result + (m.data curr).length)

/-- `computeSize` -/
def computeSize (fuel : ℕ) (m : Mem A T) (bag : Bag A) : Option ℤ :=
  sumSizes m fuel (some bag.head) 0

/-- `computeSizeFast` -/
def computeSizeFast (m : Mem A T) (bag : Bag A) : ℤ :=
  (bag.sizeInBlocks - 1) * blockSize + (m.data bag.head).length

/-- The loop of `validate`. -/
def allFull (m : Mem A T) : ℕ → Option A → Option Bool
  | 0, _ => none
  | _ + 1, none => some true
  | fuel + 1, some curr => if m.isFull curr then allFull m fuel (m.next curr) else some false

/-- `validate`: whether all its assertions hold. -/
def validate (fuel : ℕ) (m : Mem A T) (bag : Bag A) : Option Bool := do
  if m.isFull bag.head then
    return false
  let full ← allFull m fuel (m.next bag.head)
  let size ← computeSizeInBlocks fuel m bag
  return full && bag.sizeInBlocks == size

variable [DecidableEq A]

/-- `blockbag(tid, pool)` -/
def new (malloc : Malloc A) (m : Mem A T) : Mem A T × Bag A :=
  let (b, m) := m.allocateBlock malloc none
  (m, ⟨b, b, 1⟩)

/-- The loop of `~blockbag`. -/
def deallocateAll : ℕ → Mem A T → Option A → Option (Mem A T)
  | 0, _, _ => none
  | _ + 1, m, none => some m
  | fuel + 1, m, some temp => do
    let m' ← m.deallocateBlock temp
    deallocateAll fuel m' (m.next temp)

/-- `~blockbag` -/
def destroy (fuel : ℕ) (m : Mem A T) (bag : Bag A) : Option (Mem A T) :=
  if bag.isEmpty m then deallocateAll fuel m (some bag.head) else none

/-- `add` -/
def add (malloc : Malloc A) (m : Mem A T) (bag : Bag A) (obj : T) :
    Option (Mem A T × Bag A) := do
  let m ← m.push bag.head obj
  if m.isFull bag.head then
    let (newblock, m) := m.allocateBlock malloc (some bag.head)
    return (m, { bag with head := newblock, sizeInBlocks := bag.sizeInBlocks + 1 })
  else
    return (m, bag)

/-- The empty head block is taken away. -/
def dropHead (m : Mem A T) (bag : Bag A) : Option (Mem A T × Bag A) := do
  let second ← m.next bag.head
  let m ← m.deallocateBlock bag.head
  return (m, { bag with head := second, sizeInBlocks := bag.sizeInBlocks - 1 })

/-- `remove` -/
def remove (m : Mem A T) (bag : Bag A) : Option (T × Mem A T × Bag A) := do
  if bag.isEmpty m then
    none
  else if m.isBlockEmpty bag.head then
    let second ← m.next bag.head
    let (result, m) ← m.pop second
    let (m, bag) ← dropHead m bag
    return (result, m, bag)
  else
    let (result, m) ← m.pop bag.head
    return (result, m, bag)

/-- `erase`, from the point on where the head block is not empty. -/
def eraseFrom (m : Mem A T) (bag : Bag A) (curr : A) (ix : ℕ) :
    Option (Bool × Mem A T × Bag A) := do
  if m.isBlockEmpty bag.head then
    none
  else if curr = bag.head then
    return (false, m.eraseAt bag.head ix, bag)
  else
    let (obj, m) ← m.pop bag.head
    let m ← m.replace curr ix obj
    return (true, m, bag)

/-- `erase` -/
def erase (m : Mem A T) (bag : Bag A) (curr : A) (ix : ℕ) :
    Option (Bool × Mem A T × Bag A) := do
  if bag.isEmpty m || m.isBlockEmpty curr then
    none
  else if m.isBlockEmpty bag.head then
    let (m, bag) ← dropHead m bag
    eraseFrom m bag curr ix
  else
    eraseFrom m bag curr ix

/-- `removeFullBlock` -/
def removeFullBlock (m : Mem A T) (bag : Bag A) : Option (Option A × Mem A T × Bag A) :=
  match m.next bag.head with
  | none => some (none, m, bag)
  | some second =>
    match m.next second with
    | none => some (none, m, bag)
    | some third =>
      if m.isFull second then
        some (some second, (m.setNext bag.head (some third)).setNext second none,
          { bag with sizeInBlocks := bag.sizeInBlocks - 1 })
      else none

/-- `addFullBlock` -/
def addFullBlock (m : Mem A T) (bag : Bag A) (b : A) : Option (Mem A T × Bag A) :=
  if m.isFull b && (m.next b).isNone then
    some (m.setNext bag.tail (some b),
      { bag with tail := b, sizeInBlocks := bag.sizeInBlocks + 1 })
  else none

/-- `appendMoveFullBlocks`; the second bag of the result is `other`. -/
def appendMoveFullBlocks (fuel : ℕ) (m : Mem A T) (bag other : Bag A) (predecessor : A) :
    Option (Mem A T × Bag A × Bag A) := do
  match m.next predecessor with
  | none => return (m, bag, other)
  | some first =>
    if m.isFull first then
      let m := m.setNext bag.tail (some first)
      let size ← computeSizeInBlocks fuel m bag
      let m := m.setNext predecessor none
      let otherSize ← computeSizeInBlocks fuel m other
      return (m, { bag with tail := other.tail, sizeInBlocks := size },
        { other with tail := predecessor, sizeInBlocks := otherSize })
    else none

/-- The loop of `appendMoveAll`. -/
def moveRest (malloc : Malloc A) :
    ℕ → Mem A T → Bag A → Bag A → Option (Mem A T × Bag A × Bag A)
  | 0, _, _, _ => none
  | fuel + 1, m, bag, other => do
    if other.isEmpty m then
      return (m, bag, other)
    else
      let (obj, m, other) ← other.remove m
      let (m, bag) ← bag.add malloc m obj
      moveRest malloc fuel m bag other

/-- `appendMoveAll` -/
def appendMoveAll (malloc : Malloc A) (fuel : ℕ) (m : Mem A T) (bag other : Bag A) :
    Option (Mem A T × Bag A × Bag A) := do
  let (m, bag, other) ← appendMoveFullBlocks fuel m bag other other.head
  let (m, bag, other) ← moveRest malloc fuel m bag other
  let size ← computeSizeInBlocks fuel m bag
  return (m, { bag with sizeInBlocks := size }, other)

/-- The loop of `clearWithoutFreeingElements`. -/
def clearAll : ℕ → Mem A T → Option A → Option (Mem A T)
  | 0, _, _ => none
  | _ + 1, m, none => some m
  | fuel + 1, m, some temp => do
    let m' ← (m.setData temp []).deallocateBlock temp
    clearAll fuel m' (m.next temp)

/-- `clearWithoutFreeingElements` -/
def clearWithoutFreeingElements (fuel : ℕ) (m : Mem A T) (bag : Bag A) :
    Option (Mem A T × Bag A) := do
  let m ← clearAll fuel m (m.next bag.head)
  return ((m.setNext bag.head none).setData bag.head [],
    { bag with tail := bag.head, sizeInBlocks := 1 })

end Bag

/-! ### What a bag consists of -/

variable {A T : Type}

/-- The addresses of the blocks. -/
def addrs (bs : List (A × List T)) : Multiset A := ↑(bs.map Prod.fst)

/-- What is in the blocks. -/
def contents (bs : List (A × List T)) : Multiset T := ↑(bs.flatMap Prod.snd)

/-- From the pointer `p` the blocks `bs` lead to the pointer `q`. -/
def Chained (m : Mem A T) : Option A → List (A × List T) → Option A → Prop
  | p, [], q => p = q
  | p, (a, d) :: bs, q => p = some a ∧ m.data a = d ∧ Chained m (m.next a) bs q

/-- The blocks of a bag are `bs`, from the head on; the head may be full. -/
structure Shape (m : Mem A T) (bag : Bag A) (bs : List (A × List T)) : Prop where
  chain : Chained m (some bag.head) bs none
  /-- `tail` is the last one. -/
  tail : (bs.map Prod.fst).getLast? = some bag.tail
  size : bag.sizeInBlocks = bs.length
  /-- The blocks behind the head are full. -/
  full : ∀ b ∈ bs.tail, b.2.length = blockSize

/-- **The blocks of a bag** are `bs`, from the head on, and the bag is valid. -/
structure Rep (m : Mem A T) (bag : Bag A) (bs : List (A × List T)) : Prop
    extends Shape m bag bs where
  /-- The head is not full. -/
  head_lt : ∀ b ∈ bs.head?, b.2.length < blockSize

section

variable {m m' : Mem A T} {bag : Bag A} {bs cs : List (A × List T)} {a b : A} {d d' : List T}
  {p q : Option A} {x : T}

@[simp] theorem addrs_nil : addrs ([] : List (A × List T)) = 0 := rfl

@[simp] theorem addrs_cons : addrs ((a, d) :: bs) = a ::ₘ addrs bs := rfl

@[simp] theorem addrs_append : addrs (bs ++ cs) = addrs bs + addrs cs := by
  unfold addrs
  rw [List.map_append, Multiset.coe_add]

theorem mem_addrs : a ∈ addrs bs ↔ ∃ d, (a, d) ∈ bs := by
  simp [addrs]

@[simp] theorem mem_addrs_cons : b ∈ addrs ((a, d) :: bs) ↔ b = a ∨ b ∈ addrs bs := by
  rw [addrs_cons, Multiset.mem_cons]

@[simp] theorem contents_nil : contents ([] : List (A × List T)) = 0 := rfl

@[simp] theorem contents_cons : contents ((a, d) :: bs) = ↑d + contents bs := by
  unfold contents
  rw [List.flatMap_cons, Multiset.coe_add]

@[simp] theorem contents_append : contents (bs ++ cs) = contents bs + contents cs := by
  unfold contents
  rw [List.flatMap_append, Multiset.coe_add]

namespace Chained

@[simp] theorem nil_iff : Chained m p [] q ↔ p = q := Iff.rfl

@[simp] theorem cons_iff :
    Chained m p ((a, d) :: bs) q ↔ p = some a ∧ m.data a = d ∧ Chained m (m.next a) bs q := Iff.rfl

/-- The addresses form a segment. -/
theorem segment (h : Chained m p bs q) : Segment m.next p (bs.map Prod.fst) q := by
  induction bs generalizing p with
  | nil => exact h
  | cons b bs ih => exact ⟨h.1, ih h.2.2⟩

/-- No block comes twice. -/
theorem nodup (h : Chained m p bs none) : (addrs bs).Nodup :=
  Multiset.coe_nodup.mpr h.segment.nodup

theorem data (h : Chained m p bs q) (hb : (b, d) ∈ bs) : m.data b = d := by
  induction bs generalizing p with
  | nil => cases hb
  | cons c bs ih =>
    obtain hb | hb := List.mem_cons.mp hb
    · cases hb
      exact h.2.1
    · exact ih h.2.2 hb

/-- Two chains, one after the other. -/
theorem append_iff :
    Chained m p (bs ++ cs) q ↔ ∃ r, Chained m p bs r ∧ Chained m r cs q := by
  induction bs generalizing p with
  | nil => simp
  | cons b bs ih =>
    obtain ⟨a, d⟩ := b
    simp only [List.cons_append, cons_iff, ih]
    constructor
    · rintro ⟨hp, hd, r, hbs, hcs⟩
      exact ⟨r, ⟨hp, hd, hbs⟩, hcs⟩
    · rintro ⟨r, ⟨hp, hd, hbs⟩, hcs⟩
      exact ⟨hp, hd, r, hbs, hcs⟩

/-- Only the blocks of the chain matter. -/
theorem congr (h : Chained m p bs q)
    (hm : ∀ a ∈ addrs bs, m'.next a = m.next a ∧ m'.data a = m.data a) : Chained m' p bs q := by
  induction bs generalizing p with
  | nil => exact h
  | cons b bs ih =>
    obtain ⟨a, d⟩ := b
    obtain ⟨hp, hd, hrest⟩ := h
    obtain ⟨hnext, hdata⟩ := hm a (mem_addrs_cons.mpr (.inl rfl))
    refine ⟨hp, hdata.trans hd, ?_⟩
    rw [hnext]
    exact ih hrest fun c hc => hm c (mem_addrs_cons.mpr (.inr hc))

variable [DecidableEq A]

/-- What is in another block changes. -/
theorem setData (h : Chained m p bs q) (ha : a ∉ addrs bs) : Chained (m.setData a d) p bs q := by
  refine h.congr fun c hc => ⟨congrFun Mem.next_setData c, Mem.data_setData_of_ne ?_⟩
  rintro rfl
  exact ha hc

/-- The pointer of another block changes. -/
theorem setNext {r : Option A} (h : Chained m p bs q) (ha : a ∉ addrs bs) :
    Chained (m.setNext a r) p bs q := by
  refine h.congr fun c hc => ⟨?_, congrFun Mem.data_setNext c⟩
  rw [Mem.next_setNext, update_of_ne]
  rintro rfl
  exact ha hc

/-- What is in a block of the chain changes. -/
theorem setData_mid (bs : List (A × List T)) {e : List T}
    (h : Chained m p (bs ++ (a, d) :: cs) none) :
    Chained (m.setData a e) p (bs ++ (a, e) :: cs) none := by
  have hnodup := h.nodup
  rw [addrs_append, addrs_cons, Multiset.add_cons, Multiset.nodup_cons, Multiset.mem_add,
    not_or] at hnodup
  obtain ⟨t, hbs, hp, -, hcs⟩ := append_iff.mp h
  refine append_iff.mpr ⟨t, hbs.setData hnodup.1.1, hp, Mem.data_setData_self, ?_⟩
  rw [Mem.next_setData]
  exact hcs.setData hnodup.1.2

/-- The pointer of the last block is set. -/
theorem redirect {r : Option A} (h : Chained m p (bs ++ [(a, d)]) q) (ha : a ∉ addrs bs) :
    Chained (m.setNext a r) p (bs ++ [(a, d)]) r := by
  obtain ⟨t, hbs, rfl, hd, -⟩ := append_iff.mp h
  refine append_iff.mpr ⟨_, hbs.setNext ha, rfl, ?_, ?_⟩
  · rw [Mem.data_setNext, hd]
  · show (m.setNext a r).next a = r
    rw [Mem.next_setNext, update_self]

end Chained

namespace Shape

/-- There is a head block. -/
theorem exists_cons (h : Shape m bag bs) : ∃ d fs, bs = (bag.head, d) :: fs := by
  cases bs with
  | nil => cases h.chain
  | cons b fs =>
    obtain ⟨a, d⟩ := b
    obtain ⟨hb, -⟩ := h.chain
    obtain rfl : bag.head = a := Option.some.inj hb
    exact ⟨d, fs, rfl⟩

theorem nodup (h : Shape m bag bs) : (addrs bs).Nodup := h.chain.nodup

/-- The head block is not one of the others. -/
theorem not_mem_rest {fs : List (A × List T)} (h : Shape m bag ((a, d) :: fs)) :
    a ∉ addrs fs := by
  have hnodup := h.nodup
  rw [addrs_cons] at hnodup
  exact (Multiset.nodup_cons.mp hnodup).1

/-- Only what is in the blocks of the bag matters. -/
theorem congr (h : Shape m bag bs)
    (hm : ∀ a ∈ addrs bs, m'.next a = m.next a ∧ m'.data a = m.data a) : Shape m' bag bs :=
  ⟨h.chain.congr hm, h.tail, h.size, h.full⟩

/-- What is in the head block changes. -/
theorem setData_head [DecidableEq A] {fs : List (A × List T)}
    (h : Shape m bag ((bag.head, d) :: fs)) (d' : List T) (hd : d'.length < blockSize) :
    Rep (m.setData bag.head d') bag ((bag.head, d') :: fs) where
  chain := by
    refine ⟨rfl, Mem.data_setData_self, ?_⟩
    rw [Mem.next_setData]
    exact h.chain.2.2.setData h.not_mem_rest
  tail := h.tail
  size := h.size
  full := h.full
  head_lt b hb := by
    obtain rfl := Option.some.inj hb
    exact hd

/-- The last block is the one `tail` points to. -/
theorem exists_concat (h : Shape m bag bs) : ∃ xs t, bs = xs ++ [(bag.tail, t)] := by
  obtain rfl | ⟨xs, b, rfl⟩ := bs.eq_nil_or_concat'
  · cases h.tail
  · have htail := h.tail
    rw [List.map_append, List.map_singleton, List.getLast?_concat] at htail
    obtain ⟨a, t⟩ := b
    obtain rfl : a = bag.tail := Option.some.inj htail
    exact ⟨xs, t, rfl⟩

/-- A bag is empty when it has an empty block only. -/
theorem isEmpty_iff (h : Shape m bag bs) :
    bag.isEmpty m = true ↔ bs = [(bag.head, [])] := by
  obtain ⟨d, fs, rfl⟩ := h.exists_cons
  obtain ⟨-, hd, hrest⟩ := h.chain
  unfold Bag.isEmpty
  rw [Bool.and_eq_true, Option.isNone_iff_eq_none, Mem.isBlockEmpty_iff, hd]
  cases fs with
  | nil =>
    have hnone : m.next bag.head = none := hrest
    simp [hnone]
  | cons b fs =>
    obtain ⟨a, e⟩ := b
    have hsome : m.next bag.head = some a := hrest.1
    simp [hsome]

/-- The second block becomes the head. -/
theorem second {fs : List (A × List T)} {e : List T}
    (h : Shape m bag ((bag.head, d) :: (a, e) :: fs)) (hnext : m'.next = m.next)
    (ha : m'.data a = d') (hrest : ∀ c ∈ addrs fs, m'.data c = m.data c) :
    Shape m' { bag with head := a, sizeInBlocks := bag.sizeInBlocks - 1 } ((a, d') :: fs) where
  chain := by
    refine ⟨rfl, ha, ?_⟩
    rw [hnext]
    exact h.chain.2.2.2.2.congr fun c hc => ⟨congrFun hnext c, hrest c hc⟩
  tail := h.tail
  size := by
    show bag.sizeInBlocks - 1 = _
    rw [h.size]
    simp
  full b hb := h.full b (List.mem_cons_of_mem _ hb)

end Shape

/-- A bag whose blocks are kept is as it was. -/
theorem Rep.kept {F : Multiset A} (h : Rep m bag bs) (hk : m.Kept m' F) (hF : addrs bs ≤ F) :
    Rep m' bag bs :=
  ⟨h.toShape.congr fun a ha => hk a (Multiset.mem_of_le hF ha), h.head_lt⟩

/-- The element is put into the head block, before which there may be a new one then. -/
inductive Added (x : T) : List (A × List T) → List (A × List T) → Prop
  | here (a : A) (d : List T) (fs : List (A × List T)) :
      Added x ((a, d) :: fs) ((a, d ++ [x]) :: fs)
  | before (b a : A) (d : List T) (fs : List (A × List T)) :
      Added x ((a, d) :: fs) ((b, []) :: (a, d ++ [x]) :: fs)

/-- The element is taken out of the head block, or of the next one when the head is empty. -/
inductive Removed (x : T) : List (A × List T) → List (A × List T) → Prop
  | here (a : A) (d : List T) (fs : List (A × List T)) :
      Removed x ((a, d ++ [x]) :: fs) ((a, d) :: fs)
  | behind (b a : A) (d : List T) (fs : List (A × List T)) :
      Removed x ((b, []) :: (a, d ++ [x]) :: fs) ((a, d) :: fs)

/-- The element at `ix` of block `a` gives way to the last one of the head block, which is not
empty. -/
inductive EraseFrom (a : A) (ix : ℕ) : Bool → List (A × List T) → List (A × List T) → Prop
  | head (d : List T) (x : T) (fs : List (A × List T)) :
      EraseFrom a ix false ((a, d ++ [x]) :: fs) ((a, d.set ix x) :: fs)
  | later (b : A) (d : List T) (x : T) (fs : List (A × List T)) (e : List T)
      (gs : List (A × List T)) (hix : ix < e.length) :
      EraseFrom a ix true ((b, d ++ [x]) :: (fs ++ (a, e) :: gs))
        ((b, d) :: (fs ++ (a, e.set ix x) :: gs))

/-- The element at `ix` of block `a` is erased. -/
inductive Erased (a : A) (ix : ℕ) : Bool → List (A × List T) → List (A × List T) → Prop
  | here {flag : Bool} {bs cs : List (A × List T)} (h : EraseFrom a ix flag bs cs) :
      Erased a ix flag bs cs
  | behind {flag : Bool} {bs cs : List (A × List T)} (b : A) (h : EraseFrom a ix flag bs cs) :
      Erased a ix flag ((b, []) :: bs) cs

theorem coe_concat (d : List T) (x : T) : (↑(d ++ [x]) : Multiset T) = x ::ₘ ↑d := by
  rw [← Multiset.coe_add, Multiset.coe_singleton, Multiset.add_comm, Multiset.singleton_add]

theorem Added.contents (h : Added x bs cs) : contents cs = x ::ₘ contents bs := by
  cases h with
  | here a d fs => rw [contents_cons, contents_cons, coe_concat, Multiset.cons_add]
  | before b a d fs =>
    rw [contents_cons, contents_cons, contents_cons, coe_concat, Multiset.cons_add,
      Multiset.coe_nil, Multiset.zero_add]

/-- An element gives way to another one. -/
theorem coe_set {e : List T} {ix : ℕ} (hix : ix < e.length) (x : T) :
    x ::ₘ (↑e : Multiset T) = e[ix] ::ₘ ↑(e.set ix x) := by
  have he : e.take ix ++ e[ix] :: e.drop (ix + 1) = e := by
    rw [← List.drop_eq_getElem_cons hix, List.take_append_drop]
  rw [List.set_eq_take_append_cons_drop, if_pos hix]
  conv_lhs => rw [← he]
  rw [Multiset.coe_eq_coe.mpr List.perm_middle, Multiset.coe_eq_coe.mpr List.perm_middle,
    ← Multiset.cons_coe, ← Multiset.cons_coe]
  exact Multiset.cons_swap ..

/-- One element is gone, which is the one at `ix` if there is one. -/
theorem EraseFrom.contents {ix : ℕ} {flag : Bool} (h : EraseFrom a ix flag bs cs) :
    ∃ e y, (a, e) ∈ bs ∧ contents bs = y ::ₘ contents cs ∧ ∀ z, e[ix]? = some z → z = y := by
  cases h with
  | head d x fs =>
    obtain hlt | hle := Nat.lt_or_ge ix d.length
    · refine ⟨_, d[ix], List.mem_cons_self, ?_, fun z hz => ?_⟩
      · rw [contents_cons, contents_cons, coe_concat, Multiset.cons_add, ← Multiset.cons_add,
          coe_set hlt x, Multiset.cons_add]
      · rw [List.getElem?_append_left hlt, List.getElem?_eq_getElem hlt] at hz
        exact (Option.some.inj hz).symm
    · refine ⟨_, x, List.mem_cons_self, ?_, fun z hz => ?_⟩
      · rw [contents_cons, contents_cons, coe_concat, Multiset.cons_add,
          List.set_eq_of_length_le hle]
      · rw [List.getElem?_append_right hle] at hz
        exact (List.mem_singleton.mp (List.mem_of_getElem? hz))
  | later b d x fs e gs hix =>
    refine ⟨e, e[ix], by simp, ?_, fun z hz => ?_⟩
    · simp only [contents_cons, contents_append, coe_concat, Multiset.cons_add]
      rw [← Multiset.add_cons, ← Multiset.add_cons, ← Multiset.cons_add, coe_set hix x,
        Multiset.cons_add, Multiset.add_cons, Multiset.add_cons]
    · rw [List.getElem?_eq_getElem hix] at hz
      exact (Option.some.inj hz).symm

theorem Erased.contents {ix : ℕ} {flag : Bool} (h : Erased a ix flag bs cs) :
    ∃ e y, (a, e) ∈ bs ∧ contents bs = y ::ₘ contents cs ∧ ∀ z, e[ix]? = some z → z = y := by
  cases h with
  | here h => exact h.contents
  | behind b h =>
    obtain ⟨e, y, hmem, hc, hy⟩ := h.contents
    refine ⟨e, y, List.mem_cons_of_mem _ hmem, ?_, hy⟩
    rw [contents_cons, Multiset.coe_nil, Multiset.zero_add, hc]

theorem Removed.contents (h : Removed x bs cs) : contents bs = x ::ₘ contents cs := by
  cases h with
  | here a d fs => rw [contents_cons, contents_cons, coe_concat, Multiset.cons_add]
  | behind b a d fs =>
    rw [contents_cons, contents_cons, contents_cons, coe_concat, Multiset.cons_add,
      Multiset.coe_nil, Multiset.zero_add]

end

/-! ### The operations -/

section

variable {m : Mem A T} {bag other : Bag A} {bs cs fs : List (A × List T)} {F : Multiset A}
  {a b : A} {d : List T} {x : T} [DecidableEq A]

/-- Outside the blocks `F` of the others, a block of the bag is written. -/
theorem Mem.Owned.kept_setData {P : Multiset A} (h : m.Owned (P + F)) (ha : a ∈ P) (d : List T) :
    m.Kept (m.setData a d) F := by
  intro c hc
  have hne : c ≠ a := by
    rintro rfl
    exact h.apart ha hc
  exact ⟨congrFun Mem.next_setData c, Mem.data_setData_of_ne hne⟩

theorem Mem.Owned.kept_setNext {P : Multiset A} (h : m.Owned (P + F)) (ha : a ∈ P)
    (p : Option A) : m.Kept (m.setNext a p) F := by
  intro c hc
  have hne : c ≠ a := by
    rintro rfl
    exact h.apart ha hc
  refine ⟨?_, congrFun Mem.data_setNext c⟩
  rw [Mem.next_setNext, update_of_ne hne]

/-- What an operation on a bag leaves behind: the bag consists of the blocks `bs`, and those of the
others, `F`, are as they were. -/
structure Leaves (m : Mem A T) (F : Multiset A) (m' : Mem A T) (bag : Bag A)
    (bs : List (A × List T)) : Prop where
  rep : Rep m' bag bs
  owned : m'.Owned (addrs bs + F)
  kept : m.Kept m' F

/-- **`add`**: the element goes to the head block, before which a new one is put when it is full. -/
theorem Rep.add (malloc : Malloc A) (h : Rep m bag bs) (ho : m.Owned (addrs bs + F)) (x : T) :
    ∃ m' bag' bs', bag.add malloc m x = some (m', bag') ∧ Leaves m F m' bag' bs' ∧
      Added x bs bs' := by
  obtain ⟨d, fs, rfl⟩ := h.exists_cons
  have hd : m.data bag.head = d := h.chain.2.1
  have hlt : d.length < blockSize := h.head_lt _ rfl
  have hpush : m.push bag.head x = some (m.setData bag.head (d ++ [x])) := by
    rw [Mem.push_eq (by rwa [hd]), hd]
  -- the push changes the head block alone
  have ha : bag.head ∈ addrs ((bag.head, d) :: fs) := mem_addrs_cons.mpr (.inl rfl)
  have ho₁ := ho.setData (d := d ++ [x]) (Multiset.mem_add.mpr (.inl ha))
  have hk₁ := ho.kept_setData ha (d ++ [x])
  have hdata : (m.setData bag.head (d ++ [x])).data bag.head = d ++ [x] := Mem.data_setData_self
  unfold Bag.add
  rw [hpush, Option.bind_eq_bind, Option.bind_some]
  by_cases hfull : (d ++ [x]).length = blockSize
  · -- the head block is full now
    obtain ⟨b, m', halloc, ho₂, hnext, hempty, hrest⟩ := ho₁.allocateBlock malloc (some bag.head)
    rw [if_pos (Mem.isFull_iff.mpr (by rwa [hdata])), halloc]
    -- the new block was not in use, so what the bag has so far stays
    have hb : b ∉ addrs ((bag.head, d) :: fs) + F := (Multiset.nodup_cons.mp ho₂.nodup).1
    have hold : ∀ c ∈ addrs ((bag.head, d) :: fs) + F, m'.next c = m.next c ∧
        m'.data c = (m.setData bag.head (d ++ [x])).data c := by
      intro c hc
      obtain ⟨hn, hdat⟩ := hrest c fun heq => hb (heq ▸ hc)
      rw [Mem.next_setData] at hn
      exact ⟨hn, hdat⟩
    have hfs : ∀ c ∈ addrs fs, m'.next c = m.next c ∧ m'.data c = m.data c := by
      intro c hc
      have hne : c ≠ bag.head := fun heq => h.not_mem_rest (heq ▸ hc)
      rw [← Mem.data_setData_of_ne (m := m) (d := d ++ [x]) hne]
      exact hold c (Multiset.mem_add.mpr (.inl (mem_addrs_cons.mpr (.inr hc))))
    obtain ⟨hhead, hheaddata⟩ := hold bag.head (Multiset.mem_add.mpr (.inl ha))
    -- the new block is the head now, and the full one comes behind it
    refine ⟨_, _, (b, []) :: (bag.head, d ++ [x]) :: fs, rfl,
      ⟨⟨⟨⟨rfl, hempty, hnext, ?_, ?_⟩, ?_, ?_, ?_⟩, ?_⟩, ?_, ?_⟩, .before ..⟩
    · rw [hheaddata, hdata]
    · rw [hhead]
      exact h.chain.2.2.congr hfs
    · exact h.tail
    · show bag.sizeInBlocks + 1 = _
      rw [h.size]
      simp
    · intro c hc
      obtain rfl | hc := List.mem_cons.mp hc
      · exact hfull
      · exact h.full c hc
    · rintro c hc
      obtain rfl := Option.some.inj hc
      exact Nat.pos_of_ne_zero (by decide)
    · rw [addrs_cons, Multiset.cons_add]
      exact ho₂
    · -- nothing changes outside the bag
      refine hk₁.trans fun c hc => ?_
      obtain ⟨hn, hdat⟩ := hold c (Multiset.mem_add.mpr (.inr hc))
      exact ⟨hn.trans (congrFun Mem.next_setData c).symm, hdat⟩
  · -- there is room left in the head block
    rw [if_neg (by rwa [Mem.isFull_iff, hdata])]
    refine ⟨_, _, _, rfl, ⟨h.setData_head (d ++ [x]) ?_, ho₁, hk₁⟩, .here ..⟩
    rw [List.length_append, List.length_singleton] at hfull ⊢
    omega

/-- An empty head block that has a next one is taken away. -/
theorem dropHead_eq (bag : Bag A) {as : Multiset A} (hnext : m.next bag.head = some a)
    (hd : m.data bag.head = []) (ho : m.Owned (bag.head ::ₘ as)) :
    ∃ m', bag.dropHead m =
        some (m', { bag with head := a, sizeInBlocks := bag.sizeInBlocks - 1 }) ∧
      m'.Owned as ∧ m'.next = m.next ∧ m'.data = m.data := by
  obtain ⟨m', hdealloc, ho', hn, hdat⟩ := ho.deallocateBlock hd
  refine ⟨m', ?_, ho', hn, hdat⟩
  unfold Bag.dropHead
  rw [hnext, Option.bind_eq_bind, Option.bind_some, hdealloc]
  rfl

/-- **`remove`** on a bag that is not empty. -/
theorem Rep.remove (h : Rep m bag bs) (ho : m.Owned (addrs bs + F))
    (hne : bag.isEmpty m = false) :
    ∃ x m' bag' bs', bag.remove m = some (x, m', bag') ∧ Leaves m F m' bag' bs' ∧
      Removed x bs bs' := by
  obtain ⟨d, fs, rfl⟩ := h.exists_cons
  have hd : m.data bag.head = d := h.chain.2.1
  have ha : bag.head ∈ addrs ((bag.head, d) :: fs) := mem_addrs_cons.mpr (.inl rfl)
  unfold Bag.remove
  rw [if_neg (by simp [hne])]
  obtain rfl | ⟨d, x, rfl⟩ := d.eq_nil_or_concat'
  · -- the head block is empty: the element comes from the next one
    rw [if_pos (Mem.isBlockEmpty_iff.mpr hd)]
    cases fs with
    | nil =>
      rw [h.isEmpty_iff.mpr rfl] at hne
      cases hne
    | cons b fs =>
      -- so there is a second block, which is full and thereby not empty
      obtain ⟨a, e⟩ := b
      obtain ⟨-, -, hnext, he, -⟩ := h.chain
      have hfull : e.length = blockSize := h.full _ List.mem_cons_self
      obtain rfl | ⟨e, x, rfl⟩ := e.eq_nil_or_concat'
      · cases hfull
      have hne : bag.head ≠ a := by
        rintro rfl
        exact h.not_mem_rest (mem_addrs_cons.mpr (.inl rfl))
      have hmem : a ∈ addrs ((bag.head, []) :: (a, e ++ [x]) :: fs) :=
        mem_addrs_cons.mpr (.inr (mem_addrs_cons.mpr (.inl rfl)))
      have ho₁ := ho.setData (d := e) (Multiset.mem_add.mpr (.inl hmem))
      rw [addrs_cons, Multiset.cons_add] at ho₁
      obtain ⟨m', hdrop, ho₂, hn, hdat⟩ := dropHead_eq bag
        ((congrFun Mem.next_setData _).trans hnext) ((Mem.data_setData_of_ne hne).trans hd) ho₁
      -- the head block is dropped, and the second one loses its last element
      rw [Mem.next_setData] at hn
      have hrest : ∀ c, c ≠ a → m'.data c = m.data c := by
        intro c hc
        rw [hdat, Mem.data_setData_of_ne hc]
      have ha' : m'.data a = e := by
        rw [hdat, Mem.data_setData_self]
      simp only [hnext, Mem.pop_eq he, Option.bind_eq_bind, Option.bind_some, hdrop]
      -- the second block is the head now
      refine ⟨x, _, _, _, rfl, ⟨⟨h.second hn ha' fun c hc => hrest c ?_, ?_⟩, ho₂, ?_⟩, .behind ..⟩
      · rintro rfl
        have hnodup := h.nodup
        rw [addrs_cons, addrs_cons] at hnodup
        exact (Multiset.nodup_cons.mp (Multiset.nodup_cons.mp hnodup).2).1 hc
      · rintro c hc
        obtain rfl := Option.some.inj hc
        rw [List.length_append] at hfull
        show e.length < blockSize
        rw [← hfull]
        exact Nat.lt_succ_self _
      · intro c hc
        refine ⟨congrFun hn c, hrest c ?_⟩
        rintro rfl
        exact ho.apart hmem hc
  · -- the element comes from the head block
    rw [if_neg (by rw [Mem.isBlockEmpty_iff, hd]; simp), Mem.pop_eq hd, Option.bind_eq_bind,
      Option.bind_some]
    have hlt := h.head_lt _ rfl
    refine ⟨x, _, _, _, rfl, ⟨h.setData_head d ?_, ?_, ho.kept_setData ha d⟩, .here ..⟩
    · rw [List.length_append] at hlt
      omega
    · exact ho.setData (Multiset.mem_add.mpr (.inl ha))

/-- `erase`, when the head block is not empty. -/
theorem Shape.eraseFrom {e : List T} {ix : ℕ} (h : Shape m bag ((bag.head, d ++ [x]) :: fs))
    (hlt : d.length < blockSize) (ho : m.Owned (addrs ((bag.head, d ++ [x]) :: fs) + F))
    (hmem : (a, e) ∈ (bag.head, d ++ [x]) :: fs) :
    (bag.eraseFrom m a ix = none ∧ e.length ≤ ix) ∨
    ∃ flag m' bs', bag.eraseFrom m a ix = some (flag, m', bag) ∧ Leaves m F m' bag bs' ∧
      EraseFrom a ix flag ((bag.head, d ++ [x]) :: fs) bs' := by
  have hd : m.data bag.head = d ++ [x] := h.chain.2.1
  have ha : bag.head ∈ addrs ((bag.head, d ++ [x]) :: fs) := mem_addrs_cons.mpr (.inl rfl)
  unfold Bag.eraseFrom
  rw [if_neg (by rw [Mem.isBlockEmpty_iff, hd]; simp)]
  obtain hmem | hmem := List.mem_cons.mp hmem
  · -- the head block loses an element
    obtain ⟨rfl, rfl⟩ := Prod.mk.inj hmem
    right
    rw [if_pos rfl, Mem.eraseAt_eq hd]
    refine ⟨_, _, _, rfl, ⟨h.setData_head (d.set ix x) ?_,
      ho.setData (Multiset.mem_add.mpr (.inl ha)), ho.kept_setData ha _⟩, .head d x fs⟩
    rw [List.length_set]
    exact hlt
  · -- an element of the head block is put into another one
    have hne : a ≠ bag.head := by
      rintro rfl
      exact h.not_mem_rest (mem_addrs.mpr ⟨e, hmem⟩)
    rw [if_neg hne, Mem.pop_eq hd]
    obtain ⟨f₁, f₂, rfl⟩ := List.append_of_mem hmem
    have hrep := h.setData_head d hlt
    have hown := ho.setData (d := d) (Multiset.mem_add.mpr (.inl ha))
    have he : (m.setData bag.head d).data a = e := by
      rw [Mem.data_setData_of_ne hne, h.chain.data (List.mem_cons_of_mem _ hmem)]
    have ha' : a ∈ addrs ((bag.head, d) :: (f₁ ++ (a, e) :: f₂)) := by
      rw [mem_addrs]
      exact ⟨e, List.mem_cons_of_mem _ hmem⟩
    have haddrs : addrs ((bag.head, d) :: (f₁ ++ (a, e.set ix x) :: f₂)) =
        addrs ((bag.head, d) :: (f₁ ++ (a, e) :: f₂)) := by
      simp
    obtain hix | hle := Nat.lt_or_ge ix e.length
    · -- `ix` is below the number of elements: the element there is written over
      right
      simp only [Option.bind_eq_bind, Option.bind_some, Mem.replace_eq (by rwa [he]), he]
      refine ⟨_, _, (bag.head, d) :: (f₁ ++ (a, e.set ix x) :: f₂), rfl,
        ⟨⟨⟨?_, ?_, ?_, ?_⟩, ?_⟩, ?_, ?_⟩, .later bag.head d x f₁ e f₂ hix⟩
      · exact Chained.setData_mid ((bag.head, d) :: f₁) hrep.chain
      · simpa using h.tail
      · simpa using h.size
      · intro b hb
        obtain hb | hb := List.mem_append.mp hb
        · exact h.full b (List.mem_append.mpr (.inl hb))
        · obtain rfl | hb := List.mem_cons.mp hb
          · rw [List.length_set]
            exact h.full (a, e) hmem
          · exact h.full b (List.mem_append.mpr (.inr (List.mem_cons_of_mem _ hb)))
      · exact hrep.head_lt
      · rw [haddrs]
        exact hown.setData (Multiset.mem_add.mpr (.inl ha'))
      · exact (ho.kept_setData ha d).trans (hown.kept_setData ha' _)
    · -- there is no element at `ix`
      left
      have hreplace : (m.setData bag.head d).replace a ix x = none :=
        if_neg (by rw [he]; exact Nat.not_lt.mpr hle)
      simp [hreplace, hle]

/-- **`erase`** in a block of the bag that is not empty. It fails at an assertion only where there
is no element at `ix`. -/
theorem Rep.erase {e : List T} (h : Rep m bag bs) (ho : m.Owned (addrs bs + F))
    (hmem : (a, e) ∈ bs) (hne : e ≠ []) (ix : ℕ) :
    (bag.erase m a ix = none ∧ e.length ≤ ix) ∨
    ∃ flag m' bag' bs', bag.erase m a ix = some (flag, m', bag') ∧ Leaves m F m' bag' bs' ∧
      Erased a ix flag bs bs' := by
  have he : m.data a = e := h.chain.data hmem
  have hcurr : m.isBlockEmpty a = false := by
    rw [Bool.eq_false_iff, ne_eq, Mem.isBlockEmpty_iff, he]
    exact hne
  obtain ⟨d, fs, rfl⟩ := h.exists_cons
  have hd : m.data bag.head = d := h.chain.2.1
  have hempty : bag.isEmpty m = false := by
    rw [Bool.eq_false_iff, ne_eq, h.isEmpty_iff]
    intro heq
    rw [heq, List.mem_singleton] at hmem
    cases hmem
    exact hne rfl
  unfold Bag.erase
  rw [if_neg (by simp [hempty, hcurr])]
  obtain rfl | ⟨d, x, rfl⟩ := d.eq_nil_or_concat'
  · -- the empty head block is taken away first
    rw [if_pos (Mem.isBlockEmpty_iff.mpr hd)]
    cases fs with
    | nil =>
      rw [h.isEmpty_iff.mpr rfl] at hempty
      cases hempty
    | cons b fs =>
      -- the second block is full, so it has an element for the hole
      obtain ⟨b, e'⟩ := b
      have hfull : e'.length = blockSize := h.full _ List.mem_cons_self
      obtain rfl | ⟨d, x, rfl⟩ := e'.eq_nil_or_concat'
      · cases hfull
      have hlt : d.length < blockSize := by
        rw [← hfull, List.length_append]
        exact Nat.lt_succ_self _
      obtain ⟨-, -, hnext, hb, -⟩ := h.chain
      rw [addrs_cons, Multiset.cons_add] at ho
      obtain ⟨m', hdrop, ho', hn, hdat⟩ := dropHead_eq bag hnext hd ho
      have hshape := h.second hn ((congrFun hdat b).trans hb) fun c _ => congrFun hdat c
      have hmem' : (a, e) ∈ (b, d ++ [x]) :: fs := by
        obtain hmem | hmem := List.mem_cons.mp hmem
        · cases hmem
          exact absurd rfl hne
        · exact hmem
      -- the rest is `eraseFrom` with the second block as the head
      rw [hdrop, Option.bind_eq_bind, Option.bind_some]
      refine (hshape.eraseFrom hlt ho' hmem').imp id ?_
      rintro ⟨flag, m'', bs', heq, hl, her⟩
      refine ⟨flag, m'', _, bs', heq, ⟨hl.rep, hl.owned, ?_⟩, .behind _ her⟩
      exact Mem.Kept.trans (fun c _ => ⟨congrFun hn c, congrFun hdat c⟩) hl.kept
  · -- the head block has an element for the hole
    rw [if_neg (by rw [Mem.isBlockEmpty_iff, hd]; simp)]
    have hlt := h.head_lt _ rfl
    rw [List.length_append] at hlt
    refine (h.toShape.eraseFrom (Nat.lt_of_succ_lt hlt) ho hmem).imp id ?_
    rintro ⟨flag, m', bs', heq, hl, her⟩
    exact ⟨flag, m', bag, bs', heq, hl, .here her⟩

/-- **`removeFullBlock`** takes the second block out when there is a third one. -/
theorem Rep.removeFullBlock (h : Rep m bag bs) (ho : m.Owned (addrs bs + F)) :
    (bs.length ≤ 2 ∧ bag.removeFullBlock m = some (none, m, bag)) ∨
    ∃ b₁ a d fs m' bag', bs = b₁ :: (a, d) :: fs ∧
      bag.removeFullBlock m = some (some a, m', bag') ∧ Rep m' bag' (b₁ :: fs) ∧
      m'.Owned (addrs (b₁ :: fs) + a ::ₘ F) ∧ m.Kept m' F ∧ m'.next a = none ∧
      m'.data a = d ∧ d.length = blockSize := by
  obtain ⟨d₁, fs, rfl⟩ := h.exists_cons
  unfold Bag.removeFullBlock
  cases fs with
  | nil =>
    -- there is one block
    have hnone : m.next bag.head = none := h.chain.2.2
    rw [hnone]
    exact .inl ⟨by simp, rfl⟩
  | cons b fs =>
    obtain ⟨a, d⟩ := b
    obtain ⟨-, -, hnext, hd, hrest⟩ := h.chain
    rw [hnext]
    cases fs with
    | nil =>
      -- there are two blocks
      have hnone : m.next a = none := hrest
      left
      simp [hnone]
    | cons b fs =>
      obtain ⟨c, e⟩ := b
      have hthird : m.next a = some c := hrest.1
      -- the second block is full, and neither the first one nor the third
      have hfull : d.length = blockSize := h.full _ List.mem_cons_self
      have hnodup := h.nodup
      rw [addrs_cons, addrs_cons, Multiset.nodup_cons, Multiset.nodup_cons, Multiset.mem_cons,
        not_or] at hnodup
      obtain ⟨⟨hne, hhead⟩, ha, -⟩ := hnodup
      have haF : a ∈ addrs ((bag.head, d₁) :: (a, d) :: (c, e) :: fs) := by simp
      have hhF : bag.head ∈ addrs ((bag.head, d₁) :: (a, d) :: (c, e) :: fs) := by simp
      right
      -- the first block points to the third one now, and the second one to none
      refine ⟨_, a, d, _, (m.setNext bag.head (some c)).setNext a none,
        { bag with sizeInBlocks := bag.sizeInBlocks - 1 }, rfl, ?_,
        ⟨⟨⟨rfl, ?_, ?_⟩, ?_, ?_, ?_⟩, ?_⟩, ?_, ?_, ?_, ?_, hfull⟩
      · simp only [hthird]
        rw [if_pos (Mem.isFull_iff.mpr (by rw [hd, hfull]))]
      · rw [Mem.data_setNext, Mem.data_setNext]
        exact h.chain.2.1
      · rw [Mem.next_setNext, update_of_ne hne, Mem.next_setNext, update_self]
        rw [hthird] at hrest
        exact (hrest.setNext hhead).setNext ha
      · exact h.tail
      · show bag.sizeInBlocks - 1 = _
        rw [h.size]
        simp
      · intro b hb
        exact h.full b (List.mem_cons_of_mem _ hb)
      · exact h.head_lt
      · -- the second block has left the bag and is among the others
        have hperm : addrs ((bag.head, d₁) :: (c, e) :: fs) + a ::ₘ F =
            addrs ((bag.head, d₁) :: (a, d) :: (c, e) :: fs) + F := by
          simp only [addrs_cons, Multiset.cons_add, Multiset.add_cons]
          exact Multiset.cons_swap ..
        rw [hperm]
        exact ho.setNext.setNext
      · exact (ho.kept_setNext hhF _).trans (ho.setNext.kept_setNext haF _)
      · rw [Mem.next_setNext, update_self]
      · rw [Mem.data_setNext, Mem.data_setNext, hd]

/-- **`addFullBlock`** puts a full block at the end. -/
theorem Rep.addFullBlock (h : Rep m bag bs) (ho : m.Owned (addrs bs + a ::ₘ F))
    (hfull : (m.data a).length = blockSize) (hnext : m.next a = none) :
    ∃ m' bag', bag.addFullBlock m a = some (m', bag') ∧
      Leaves m F m' bag' (bs ++ [(a, m.data a)]) := by
  obtain ⟨xs, t, hbs⟩ := h.exists_concat
  have htail : bag.tail ∈ addrs bs := by
    rw [hbs]
    simp
  have hne : a ≠ bag.tail := by
    rintro rfl
    exact ho.apart htail (Multiset.mem_cons_self ..)
  -- `tail` is the last block only
  have hlast : bag.tail ∉ addrs xs := by
    have hnodup := h.nodup
    rw [hbs, addrs_append, addrs_cons, addrs_nil, Multiset.add_cons, Multiset.nodup_cons] at hnodup
    exact fun hmem => hnodup.1 (Multiset.mem_add.mpr (.inl hmem))
  unfold Bag.addFullBlock
  rw [if_pos (by simp [Mem.isFull_iff.mpr hfull, hnext])]
  refine ⟨_, _, rfl, ⟨⟨⟨?_, ?_, ?_, ?_⟩, ?_⟩, ?_, ?_⟩⟩
  · have hchain := h.chain
    rw [hbs] at hchain ⊢
    refine Chained.append_iff.mpr ⟨_, hchain.redirect hlast, rfl, ?_, ?_⟩
    · rw [Mem.data_setNext]
    · show (m.setNext bag.tail (some a)).next a = none
      rw [Mem.next_setNext, update_of_ne hne, hnext]
  · simp
  · show bag.sizeInBlocks + 1 = _
    rw [h.size]
    simp
  · obtain ⟨d, fs, rfl⟩ := h.exists_cons
    intro b hb
    obtain hb | hb := List.mem_append.mp hb
    · exact h.full b hb
    · obtain rfl := List.mem_singleton.mp hb
      exact hfull
  · obtain ⟨d, fs, rfl⟩ := h.exists_cons
    exact h.head_lt
  · rw [addrs_append, addrs_cons, addrs_nil, Multiset.add_assoc, Multiset.cons_add,
      Multiset.zero_add]
    exact ho.setNext
  · rw [← Multiset.singleton_add, ← Multiset.add_assoc] at ho
    exact ho.kept_setNext (Multiset.mem_add.mpr (.inl htail)) _

end

end Blockbag

end PopSetbench

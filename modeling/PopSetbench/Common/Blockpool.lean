import Mathlib.Order.Lattice.Nat
import Mathlib.Data.Finset.Erase
import Mathlib.Data.Finset.Insert
import Mathlib.Data.Finset.Lattice.Fold
import Mathlib.Data.Multiset.AddSub

/-!
# Blocks and their pool

Model of `block` (blockbag.h) and `blockpool` (blockpool.h). A block is a stack in an array, with a
pointer to a next block; only the part of the array below `size` is kept. A pool passes blocks on
that are not in use; when it is empty a block is allocated, and when it is full a block is deleted.

`Mem.Owned m as` says that the allocated blocks are those in the pool and those in `as`, each once.
The operations are specified for all blocks `as`, so that a part of them may stand for whatever else
is in use. A call fails, with `none`, at an assertion that does not hold.
-/

namespace PopSetbench

namespace Blockbag

open Function

/-- `BLOCK_SIZE`, where pointers and sizes have eight bytes. -/
def blockSize : ℕ := 512 / 8 - 3 * 8

/-- `MAX_BLOCK_POOL_SIZE` -/
def maxBlockPoolSize : ℕ := 32

/-- `block<T>`; `data` is `data[0]`, …, `data[size-1]`. -/
structure Block (A T : Type) where
  next : Option A
  data : List T

/-- The blocks at the addresses `A`, and the pool. -/
structure Mem (A T : Type) where
  block : A → Block A T
  /-- `pool[poolSize-1]`, …, `pool[0]`. -/
  pool : List A
  /-- The blocks that were allocated and not deleted. -/
  allocated : Finset A
  /-- How often a block was allocated. -/
  mallocs : ℕ

/-- Where `new` allocates a block; it depends on what is allocated and may be different each
time. -/
structure Malloc (A : Type) where
  new : ℕ → Finset A → A
  fresh : ∀ n s, new n s ∉ s

/-- Blocks are allocated at the numbers in turn. -/
def numbers : Malloc ℕ where
  new _ s := s.sup id + 1
  fresh _ _ hs := Nat.not_succ_le_self _ (Finset.le_sup (f := id) hs)

variable {A T : Type}

namespace Mem

/-- The pointer to the next block. -/
def next (m : Mem A T) (b : A) : Option A := (m.block b).next

/-- What is in the block. -/
def data (m : Mem A T) (b : A) : List T := (m.block b).data

/-- `isFull` -/
def isFull (m : Mem A T) (b : A) : Bool := (m.data b).length == blockSize

/-- `isEmpty` -/
def isBlockEmpty (m : Mem A T) (b : A) : Bool := (m.data b).isEmpty

theorem isFull_iff {m : Mem A T} {b : A} :
    m.isFull b = true ↔ (m.data b).length = blockSize := beq_iff_eq

theorem isBlockEmpty_iff {m : Mem A T} {b : A} : m.isBlockEmpty b = true ↔ m.data b = [] :=
  List.isEmpty_iff

variable [DecidableEq A]

/-- The block is written. -/
def write (m : Mem A T) (b : A) (blk : Block A T) : Mem A T :=
  { m with block := update m.block b blk }

/-- `next` is stored. -/
def setNext (m : Mem A T) (b : A) (p : Option A) : Mem A T := m.write b ⟨p, m.data b⟩

/-- What is in the block changes. -/
def setData (m : Mem A T) (b : A) (d : List T) : Mem A T := m.write b ⟨m.next b, d⟩

/-- `push` -/
def push (m : Mem A T) (b : A) (obj : T) : Option (Mem A T) :=
  if (m.data b).length < blockSize then some (m.setData b (m.data b ++ [obj])) else none

/-- `pop` -/
def pop (m : Mem A T) (b : A) : Option (T × Mem A T) :=
  match (m.data b).getLast? with
  | some obj => some (obj, m.setData b (m.data b).dropLast)
  | none => none

/-- `erase(ix)` -/
def eraseAt (m : Mem A T) (b : A) (ix : ℕ) : Mem A T :=
  match (m.data b).getLast? with
  | some obj =>
    m.setData b (if ix ≠ (m.data b).length - 1 then (m.data b).set ix obj else m.data b).dropLast
  | none => m

/-- `replace` -/
def replace (m : Mem A T) (b : A) (ix : ℕ) (obj : T) : Option (Mem A T) :=
  if ix < (m.data b).length then some (m.setData b ((m.data b).set ix obj)) else none

/-- `allocateBlock` -/
def allocateBlock (malloc : Malloc A) (m : Mem A T) (next : Option A) : A × Mem A T :=
  match m.pool with
  | b :: pool => (b, { m.write b ⟨next, []⟩ with pool := pool })
  | [] =>
    let b := malloc.new m.mallocs m.allocated
    (b, { m.write b ⟨next, []⟩ with
      allocated := insert b m.allocated
      mallocs := m.mallocs + 1 })

/-- `deallocateBlock` -/
def deallocateBlock (m : Mem A T) (b : A) : Option (Mem A T) :=
  if m.isBlockEmpty b then
    if m.pool.length = maxBlockPoolSize then
      some { m with allocated := m.allocated.erase b }
    else some { m with pool := b :: m.pool }
  else none

/-! ### Reading after writing -/

section

variable {m : Mem A T} {a b : A} {p : Option A} {d : List T}

theorem block_write_self {blk : Block A T} : (m.write b blk).block b = blk :=
  update_self ..

theorem block_write_of_ne {blk : Block A T} (h : a ≠ b) : (m.write b blk).block a = m.block a :=
  update_of_ne h ..

theorem next_setNext : (m.setNext b p).next = update m.next b p := by
  funext a
  show ((m.write b _).block a).next = _
  by_cases h : a = b
  · subst h
    rw [block_write_self, update_self]
  · rw [block_write_of_ne h, update_of_ne h]
    rfl

@[simp] theorem data_setNext : (m.setNext b p).data = m.data := by
  funext a
  show ((m.write b _).block a).data = _
  by_cases h : a = b
  · subst h
    rw [block_write_self]
  · rw [block_write_of_ne h]
    rfl

@[simp] theorem next_setData : (m.setData b d).next = m.next := by
  funext a
  show ((m.write b _).block a).next = _
  by_cases h : a = b
  · subst h
    rw [block_write_self]
  · rw [block_write_of_ne h]
    rfl

@[simp] theorem data_setData_self : (m.setData b d).data b = d := by
  show ((m.write b _).block b).data = d
  rw [block_write_self]

theorem data_setData_of_ne (h : a ≠ b) : (m.setData b d).data a = m.data a := by
  show ((m.write b _).block a).data = _
  rw [block_write_of_ne h]
  rfl

theorem push_eq {obj : T} (h : (m.data b).length < blockSize) :
    m.push b obj = some (m.setData b (m.data b ++ [obj])) :=
  if_pos h

theorem pop_eq {obj : T} (h : m.data b = d ++ [obj]) : m.pop b = some (obj, m.setData b d) := by
  unfold pop
  rw [h, List.getLast?_concat, List.dropLast_concat]

theorem replace_eq {obj : T} {ix : ℕ} (h : ix < (m.data b).length) :
    m.replace b ix obj = some (m.setData b ((m.data b).set ix obj)) :=
  if_pos h

/-- The element at `ix` gives way to the last one. -/
theorem eraseAt_eq {obj : T} {ix : ℕ} (h : m.data b = d ++ [obj]) :
    m.eraseAt b ix = m.setData b (d.set ix obj) := by
  unfold eraseAt
  rw [h, List.getLast?_concat]
  show m.setData b _ = _
  congr 1
  rw [List.length_append, List.length_singleton, Nat.add_sub_cancel]
  obtain hlt | hle := Nat.lt_or_ge ix d.length
  · rw [if_pos hlt.ne, List.set_append_left _ _ hlt, List.dropLast_concat]
  · -- there is none, or it is the last one
    rw [List.set_eq_of_length_le hle]
    split_ifs with hne
    · rw [List.set_eq_of_length_le, List.dropLast_concat]
      rw [List.length_append, List.length_singleton]
      omega
    · exact List.dropLast_concat

end

end Mem

/-! ### The blocks in use -/

/-- The allocated blocks are those in the pool, which are empty, and `as`. -/
structure Mem.Owned (m : Mem A T) (as : Multiset A) : Prop where
  allocated : m.allocated.val = ↑m.pool + as
  pool_empty : ∀ a ∈ m.pool, m.data a = []

/-- The blocks `F` are as they were. -/
def Mem.Kept (m m' : Mem A T) (F : Multiset A) : Prop :=
  ∀ a ∈ F, m'.next a = m.next a ∧ m'.data a = m.data a

theorem Mem.Kept.refl {m : Mem A T} {F : Multiset A} : m.Kept m F :=
  fun _ _ => ⟨rfl, rfl⟩

theorem Mem.Kept.trans {m₁ m₂ m₃ : Mem A T} {F : Multiset A} (h : m₁.Kept m₂ F)
    (h' : m₂.Kept m₃ F) : m₁.Kept m₃ F :=
  fun a ha => ⟨(h' a ha).1.trans (h a ha).1, (h' a ha).2.trans (h a ha).2⟩

theorem Mem.Kept.mono {m m' : Mem A T} {F G : Multiset A} (h : m.Kept m' F) (hG : G ≤ F) :
    m.Kept m' G :=
  fun a ha => h a (Multiset.mem_of_le hG ha)

namespace Mem.Owned

variable {m m' : Mem A T} {as F : Multiset A} {a b : A}

/-- No block is in use twice. -/
theorem nodup (h : m.Owned as) : as.Nodup := by
  have hall : (↑m.pool + as : Multiset A).Nodup := h.allocated ▸ m.allocated.nodup
  exact Multiset.nodup_of_le (Multiset.le_add_left ..) hall

/-- Blocks in use are not in the pool. -/
theorem not_mem_pool (h : m.Owned as) (ha : a ∈ as) : a ∉ m.pool := by
  have hall : (↑m.pool + as : Multiset A).Nodup := h.allocated ▸ m.allocated.nodup
  intro hpool
  exact Multiset.disjoint_left.mp (Multiset.nodup_add.mp hall).2.2 hpool ha

/-- A part of the blocks in use is apart from the others. -/
theorem apart {P : Multiset A} (h : m.Owned (P + F)) (ha : a ∈ P) : a ∉ F :=
  Multiset.disjoint_left.mp (Multiset.nodup_add.mp h.nodup).2.2 ha

/-- What is in the blocks outside the pool does not matter. -/
theorem congr (h : m.Owned as) (hpool : m'.pool = m.pool) (halloc : m'.allocated = m.allocated)
    (hdata : ∀ a ∈ m.pool, m'.data a = m.data a) : m'.Owned as where
  allocated := by rw [hpool, halloc, h.allocated]
  pool_empty a ha := by
    rw [hpool] at ha
    rw [hdata a ha, h.pool_empty a ha]

variable [DecidableEq A]

theorem setData {d : List T} (h : m.Owned as) (hb : b ∈ as) : (m.setData b d).Owned as := by
  refine h.congr rfl rfl fun a ha => Mem.data_setData_of_ne ?_
  rintro rfl
  exact h.not_mem_pool hb ha

theorem setNext {p : Option A} (h : m.Owned as) : (m.setNext b p).Owned as :=
  h.congr rfl rfl fun a _ => congrFun Mem.data_setNext a

/-- A block that is passed on is empty and was not in use. -/
theorem allocateBlock (malloc : Malloc A) (p : Option A) (h : m.Owned as) :
    ∃ b m', m.allocateBlock malloc p = (b, m') ∧ m'.Owned (b ::ₘ as) ∧ m'.next b = p ∧
      m'.data b = [] ∧ ∀ a, a ≠ b → m'.next a = m.next a ∧ m'.data a = m.data a := by
  -- what is known of a block that was written
  have hwrite : ∀ b (m' : Mem A T), m'.block = (m.write b ⟨p, []⟩).block → m'.next b = p ∧
      m'.data b = [] ∧ ∀ a, a ≠ b → m'.next a = m.next a ∧ m'.data a = m.data a := by
    intro b m' hm
    unfold Mem.next Mem.data
    rw [hm, Mem.block_write_self]
    exact ⟨rfl, rfl, fun a ha => by rw [Mem.block_write_of_ne ha]; exact ⟨rfl, rfl⟩⟩
  unfold Mem.allocateBlock
  split
  · next b pool hpool =>
    have hw := hwrite b { m.write b ⟨p, []⟩ with pool := pool } rfl
    refine ⟨b, _, rfl, ⟨?_, fun a ha => ?_⟩, hw⟩
    · show m.allocated.val = ↑pool + b ::ₘ as
      rw [h.allocated, hpool, ← Multiset.cons_coe, Multiset.cons_add, Multiset.add_cons]
    · by_cases hab : a = b
      · subst hab
        exact hw.2.1
      · rw [(hw.2.2 a hab).2]
        apply h.pool_empty
        rw [hpool]
        exact List.mem_cons_of_mem _ ha
  · next hpool =>
    have hfresh := malloc.fresh m.mallocs m.allocated
    refine ⟨_, _, rfl, ⟨?_, fun a ha => ?_⟩, hwrite _ _ rfl⟩
    · show (insert _ m.allocated).val = ↑m.pool + _ ::ₘ as
      rw [Finset.insert_val_of_notMem hfresh, h.allocated, Multiset.add_cons]
    · have ha : a ∈ m.pool := ha
      rw [hpool] at ha
      cases ha

/-- An empty block is taken back. -/
theorem deallocateBlock (h : m.Owned (b ::ₘ as)) (hb : m.data b = []) :
    ∃ m', m.deallocateBlock b = some m' ∧ m'.Owned as ∧ m'.next = m.next ∧ m'.data = m.data := by
  have hempty : m.isBlockEmpty b = true := by
    unfold Mem.isBlockEmpty
    rw [hb]
    rfl
  unfold Mem.deallocateBlock
  rw [if_pos hempty]
  split_ifs
  · refine ⟨_, rfl, ⟨?_, h.pool_empty⟩, rfl, rfl⟩
    show (m.allocated.erase b).val = ↑m.pool + as
    rw [Finset.erase_val, h.allocated, Multiset.add_cons, Multiset.erase_cons_head]
  · refine ⟨_, rfl, ⟨?_, fun a ha => ?_⟩, rfl, rfl⟩
    · show m.allocated.val = ↑(b :: m.pool) + as
      rw [h.allocated, Multiset.add_cons, ← Multiset.cons_coe, Multiset.cons_add]
    · obtain rfl | ha := List.mem_cons.mp ha
      · exact hb
      · exact h.pool_empty a ha

end Mem.Owned

end Blockbag

end PopSetbench

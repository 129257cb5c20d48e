import PopSetbench.Library.Probing
import Mathlib.Data.BitVec
import Mathlib.Data.Fintype.Card
import Mathlib.Tactic.Ring

/-!
# The hash set of scanned hazard pointers

Model of `hashset_new` (hashtable.h). Keys are pointers of 64 bits, and null marks an empty cell.
`hashset_pop` is the same class, for keys of type `K` in place of `K*`.

The functions with a loop take a fuel and return `none` when it runs out; an assertion that fails
is `none` as well. Sizes and indices are natural numbers: the theorem shows that they stay below
2^31 (`Inv.pow`), so that the `int`s of the source do not overflow.
-/

namespace PopSetbench

namespace HashsetNew

open Function

/-! ### The class -/

/-- A pointer, or the content of a cell. -/
abbrev Key := BitVec 64

/-- `hash`: MurmurHash3's integer finalizer, returned as an `int`. -/
def hash (key : Key) : BitVec 32 :=
  let k := key
  let k := k ^^^ k >>> 33
  let k := k * 0xff51afd7ed558ccd#64
  let k := k ^^^ k >>> 33
  let k := k * 0xc4ceb9fe1a85ec53#64
  let k := k ^^^ k >>> 33
  k.setWidth 32

/-- The fields of the class; `size` is `__size`. -/
structure Table where
  tableSize : ℕ
  keys : ℕ → Key
  size : ℤ

namespace Table

variable (t : Table)

/-- `hash(key) & (tableSize-1)` -/
def firstIndex (key : Key) : ℕ :=
  (hash key &&& BitVec.ofNat 32 (t.tableSize - 1)).toNat

/-- `(ix+1) & (tableSize-1)` -/
def nextIndex (ix : ℕ) : ℕ := (ix + 1) &&& (t.tableSize - 1)

/-- The cell is empty or holds the key. -/
def stops (key : Key) (ix : ℕ) : Bool := t.keys ix = 0 || t.keys ix = key

def getIndex (fuel : ℕ) (key : Key) : Option ℕ :=
  seek (t.stops key) t.nextIndex fuel (t.firstIndex key)

def get (fuel : ℕ) (key : Key) : Option Key :=
  (t.getIndex fuel key).map t.keys

def contains (fuel : ℕ) (key : Key) : Option Bool :=
  (t.get fuel key).map (· ≠ 0)

def insert (fuel : ℕ) (key : Key) : Option Table := do
  let ix ← t.getIndex fuel key
  if t.keys ix = 0 then
    -- "assert(__size < tableSize)"
    if t.size + 1 < t.tableSize then
      some { t with keys := update t.keys ix key, size := t.size + 1 }
    else none
  else some t

def clear : Table :=
  if t.size ≠ 0 then
    { t with keys := fun ix => if ix < t.tableSize then 0 else t.keys ix, size := 0 }
  else t

end Table

/-- The loop of the constructor. -/
def grow (numberOfElements : ℕ) : ℕ → ℕ → Option ℕ
  | 0, _ => none
  | fuel + 1, tableSize =>
    if tableSize < numberOfElements * 4 then grow numberOfElements fuel (tableSize * 2)
    else some tableSize

/-- The constructor. The cells that it allocates hold anything. -/
def new (fuel numberOfElements : ℕ) (garbage : ℕ → Key) : Option Table := do
  let tableSize ← grow numberOfElements fuel 32
  some (Table.clear { tableSize := tableSize, keys := garbage, size := -1 })

/-! ### Sequences of calls -/

inductive Call
  | clear
  | insert (key : Key)
  | contains (key : Key)
deriving DecidableEq

/-- The results of `contains` in the sequence of calls, and the table afterwards. -/
def run (fuel : ℕ) : Table → List Call → Option (Table × List Bool)
  | t, [] => some (t, [])
  | t, .clear :: calls => run fuel t.clear calls
  | t, .insert key :: calls => do
    let t ← t.insert fuel key
    run fuel t calls
  | t, .contains key :: calls => do
    let found ← t.contains fuel key
    let (t, results) ← run fuel t calls
    some (t, found :: results)

/-- The keys are not null, and there are at most `n` inserts between two clears, `used` of them
before the first call. -/
def Within (n : ℕ) : ℕ → List Call → Prop
  | _, [] => True
  | _, .clear :: calls => Within n 0 calls
  | used, .insert key :: calls => key ≠ 0 ∧ used < n ∧ Within n (used + 1) calls
  | used, .contains key :: calls => key ≠ 0 ∧ Within n used calls

/-- What a set does: its elements after the calls, and the results of `contains`. -/
def reference : Finset Key → List Call → Finset Key × List Bool
  | S, [] => (S, [])
  | _, .clear :: calls => reference ∅ calls
  | S, .insert key :: calls => reference (insert key S) calls
  | S, .contains key :: calls =>
    ((reference S calls).1, decide (key ∈ S) :: (reference S calls).2)

/-! ### The invariant -/

/-- The cells in which a key is looked for. -/
def Table.path (t : Table) (key : Key) (d : ℕ) : ℕ := t.nextIndex^[d] (t.firstIndex key)

/-- **The invariant.** The table holds the keys `S`, inserted in at most `used` of `n` inserts. -/
structure Inv (n : ℕ) (t : Table) (S : Finset Key) (used : ℕ) : Prop where
  /-- The size of the table is a power of two that fits in an `int`. -/
  pow : ∃ j ≤ 30, t.tableSize = 2 ^ j
  /-- There is room for more than `n` keys. -/
  room : n < t.tableSize
  /-- The keys. -/
  table : OpenTable t.path t.tableSize 0 t.keys S
  /-- They are counted. -/
  size : t.size = S.card
  card_le : S.card ≤ used
  used_le : used ≤ n

variable {n used : ℕ} {t : Table} {S : Finset Key} {key : Key}

theorem Inv.nextIndex_eq (h : Inv n t S used) (ix : ℕ) :
    t.nextIndex ix = (ix + 1) % t.tableSize := by
  obtain ⟨j, -, hj⟩ := h.pow
  unfold Table.nextIndex
  rw [hj, Nat.and_two_pow_sub_one_eq_mod]

theorem Inv.firstIndex_lt (h : Inv n t S used) (key : Key) : t.firstIndex key < t.tableSize := by
  have hpos : 0 < t.tableSize := Nat.zero_lt_of_lt h.room
  have hmask : (BitVec.ofNat 32 (t.tableSize - 1)).toNat < t.tableSize := by
    rw [BitVec.toNat_ofNat]
    exact (Nat.mod_le _ _).trans_lt (Nat.sub_lt hpos Nat.one_pos)
  unfold Table.firstIndex
  rw [BitVec.toNat_and]
  exact Nat.and_le_right.trans_lt hmask

/-- The search goes round the table. -/
theorem Inv.path_eq (h : Inv n t S used) (key : Key) (d : ℕ) :
    t.path key d = (t.firstIndex key + d) % t.tableSize := by
  unfold Table.path
  induction d with
  | zero => rw [iterate_zero_apply, Nat.add_zero, Nat.mod_eq_of_lt (h.firstIndex_lt key)]
  | succ d ih =>
    rw [iterate_succ_apply', ih, h.nextIndex_eq, Nat.mod_add_mod, Nat.add_assoc]

theorem Inv.path_lt (h : Inv n t S used) (key : Key) (d : ℕ) : t.path key d < t.tableSize := by
  rw [h.path_eq]
  exact Nat.mod_lt _ (Nat.zero_lt_of_lt h.room)

/-- **Every search ends**, at an index inside the table. -/
theorem Inv.getIndex (h : Inv n t S used) (key : Key) :
    ∃ d, Finds t.path 0 t.keys key d ∧
      Settles (fun fuel => t.getIndex fuel key) (t.path key d) := by
  have hcard : S.card < t.tableSize := (h.card_le.trans h.used_le).trans_lt h.room
  obtain ⟨i, hi, hempty⟩ := h.table.exists_empty hcard
  -- the search comes to the empty cell if it does not end before
  have hreach : t.path key (i + t.tableSize - t.firstIndex key) = i := by
    have hfirst := h.firstIndex_lt key
    rw [h.path_eq]
    calc (t.firstIndex key + (i + t.tableSize - t.firstIndex key)) % t.tableSize
        = (i + t.tableSize) % t.tableSize := by
          congr 1
          omega
      _ = i := by rw [Nat.add_mod_right, Nat.mod_eq_of_lt hi]
  rw [← hreach] at hempty
  obtain ⟨d, -, hd⟩ := Finds.exists_le (.inl hempty)
  refine ⟨d, hd, seek_settles ?_ fun c hc => ?_⟩
  · exact Bool.or_eq_true_iff.mpr (by simpa [Table.path] using hd.stop)
  · have hbefore := hd.before c hc
    simp [Table.stops, Table.path] at hbefore ⊢
    exact hbefore

/-- The search depends on the size of the table only. -/
theorem path_congr {t' : Table} (h : t'.tableSize = t.tableSize) : t'.path = t.path := by
  unfold Table.path Table.nextIndex Table.firstIndex
  rw [h]

/-- **`contains`** tells the keys of the table from all others. -/
theorem Inv.contains (h : Inv n t S used) (hkey : key ≠ 0) :
    Settles (fun fuel => t.contains fuel key) (decide (key ∈ S)) := by
  obtain ⟨d, hd, hget⟩ := h.getIndex key
  filter_upwards [hget] with fuel hfuel
  rw [Table.contains, Table.get, hfuel, Option.map_some, Option.map_some]
  by_cases hmem : key ∈ S
  · rw [h.table.cell_of_mem hd hmem, decide_eq_true hmem, decide_eq_true hkey]
  · rw [h.table.cell_of_not_mem hd (h.path_lt key d) hmem]
    simp [hmem]

/-- **`insert`** puts the key into the table; the assertion on the size holds. -/
theorem Inv.insert (h : Inv n t S used) (hkey : key ≠ 0) (hused : used < n) :
    ∃ t', Settles (fun fuel => t.insert fuel key) t' ∧ Inv n t' (insert key S) (used + 1) := by
  obtain ⟨d, hd, hget⟩ := h.getIndex key
  have hlt := h.path_lt key d
  by_cases hmem : key ∈ S
  · refine ⟨t, ?_, ?_⟩
    · filter_upwards [hget] with fuel hfuel
      have hcell : t.keys (t.path key d) ≠ 0 := by rwa [h.table.cell_of_mem hd hmem]
      rw [Table.insert, hfuel, Option.bind_eq_bind, Option.bind_some, if_neg hcell]
    · rw [Finset.insert_eq_of_mem hmem]
      exact { h with card_le := h.card_le.trans (Nat.le_succ _), used_le := hused }
  · have hcard : (Insert.insert key S).card = S.card + 1 := Finset.card_insert_of_notMem hmem
    have hempty := h.table.cell_of_not_mem hd hlt hmem
    have hsize : t.size + 1 < t.tableSize := by
      have hle := h.card_le
      have hroom := h.room
      rw [h.size]
      omega
    refine ⟨{ t with keys := update t.keys (t.path key d) key, size := t.size + 1 }, ?_, ?_⟩
    · filter_upwards [hget] with fuel hfuel
      rw [Table.insert, hfuel, Option.bind_eq_bind, Option.bind_some, if_pos hempty, if_pos hsize]
    · refine ⟨h.pow, h.room, ?_, ?_, ?_, hused⟩
      · rw [path_congr (t := t) rfl]
        exact h.table.insert hd hlt hkey
      · change t.size + 1 = _
        rw [h.size, hcard]
        rfl
      · rw [hcard]
        exact Nat.succ_le_succ h.card_le

/-- **`clear`** empties the table; a table that counts no keys is empty already. -/
theorem Inv.clear (h : Inv n t S used) : Inv n t.clear ∅ 0 := by
  unfold Table.clear
  split
  · refine ⟨h.pow, h.room, .of_empty fun i hi => if_pos hi, rfl, le_rfl, Nat.zero_le _⟩
  · rename_i hsize
    have hcard : S.card = 0 := by
      have heq := h.size
      omega
    have hS := Finset.card_eq_zero.mp hcard
    subst hS
    exact { h with card_le := le_rfl, used_le := Nat.zero_le _ }

/-- The constructor doubles the size until there is room for four times the keys. -/
theorem grow_settles {i : ℕ} (hi : i ≤ 30) (hn : n ≤ 2 ^ 28) :
    ∃ j, i ≤ j ∧ j ≤ 30 ∧ n * 4 ≤ 2 ^ j ∧ Settles (fun fuel => grow n fuel (2 ^ i)) (2 ^ j) := by
  induction hk : 30 - i generalizing i with
  | zero =>
    obtain rfl : i = 30 := by omega
    have hle : ¬ 2 ^ 30 < n * 4 := by omega
    refine ⟨30, le_rfl, le_rfl, not_lt.mp hle, .of_succ (.of_forall fun fuel => ?_)⟩
    rw [grow, if_neg hle]
  | succ k ih =>
    by_cases hlt : 2 ^ i < n * 4
    · obtain ⟨j, hij, hj, hroom, hset⟩ := ih (i := i + 1) (by omega) (by omega)
      refine ⟨j, by omega, hj, hroom, .of_succ (hset.congr fun fuel => ?_)⟩
      rw [grow, if_pos hlt, pow_succ]
    · refine ⟨i, le_rfl, hi, not_lt.mp hlt, .of_succ (.of_forall fun fuel => ?_)⟩
      rw [grow, if_neg hlt]

/-- **A new table** is empty. -/
theorem new_settles (hn : n ≤ 2 ^ 28) (garbage : ℕ → Key) :
    ∃ t, Settles (fun fuel => new fuel n garbage) t ∧ Inv n t ∅ 0 := by
  obtain ⟨j, hj5, hj30, hroom, hset⟩ := grow_settles (i := 5) (by omega) hn
  refine ⟨Table.clear { tableSize := 2 ^ j, keys := garbage, size := -1 }, ?_, ?_⟩
  · filter_upwards [hset] with fuel hfuel
    rw [new, show (32 : ℕ) = 2 ^ 5 from rfl, hfuel]
    rfl
  · have hpos : 0 < 2 ^ j := Nat.two_pow_pos j
    unfold Table.clear
    rw [if_pos (show (-1 : ℤ) ≠ 0 by decide)]
    exact ⟨⟨j, hj30, rfl⟩, by dsimp only; omega, .of_empty fun i hi => if_pos hi, rfl, le_rfl,
      Nat.zero_le _⟩

/-- **Every sequence of calls** returns what a set returns, and leaves the table with its
elements. -/
theorem Inv.run {calls : List Call} (h : Inv n t S used) (hcalls : Within n used calls) :
    ∃ t', Settles (fun fuel => HashsetNew.run fuel t calls) (t', (reference S calls).2) ∧
      ∃ used, Inv n t' (reference S calls).1 used := by
  induction calls generalizing t S used with
  | nil => exact ⟨t, .of_forall fun _ => rfl, used, h⟩
  | cons call calls ih =>
    cases call with
    | clear => exact ih h.clear hcalls
    | insert key =>
      obtain ⟨hkey, hused, hrest⟩ := hcalls
      obtain ⟨t₁, hset, h₁⟩ := h.insert hkey hused
      obtain ⟨t₂, hrun, h₂⟩ := ih h₁ hrest
      refine ⟨t₂, ?_, h₂⟩
      filter_upwards [hset, hrun] with fuel hfuel hrun
      rw [HashsetNew.run, hfuel, Option.bind_eq_bind, Option.bind_some]
      exact hrun
    | contains key =>
      obtain ⟨hkey, hrest⟩ := hcalls
      obtain ⟨t₂, hrun, h₂⟩ := ih h hrest
      refine ⟨t₂, ?_, h₂⟩
      filter_upwards [h.contains hkey, hrun] with fuel hfuel hrun
      rw [HashsetNew.run, hfuel, Option.bind_eq_bind, Option.bind_some, hrun]
      rfl

/-- **The hash set is a set.** For every number of elements up to 2^28 and every sequence of calls
on keys that are not null, with at most that number of inserts between two clears: the constructor
and all calls return, `contains` tells the keys inserted since the last clear from all others, and
afterwards `size` is their number, every search ends at an index inside the table, and `contains`
is right for every key. -/
theorem hashsetNew_set (hn : n ≤ 2 ^ 28) (garbage : ℕ → Key) (calls : List Call)
    (hcalls : Within n 0 calls) :
    ∃ t, Settles (fun fuel => (new fuel n garbage).bind fun t => run fuel t calls)
        (t, (reference ∅ calls).2) ∧
      t.tableSize ≤ 2 ^ 30 ∧
      t.size = (reference ∅ calls).1.card ∧
      ∀ key, key ≠ 0 →
        (∃ ix < t.tableSize, Settles (fun fuel => t.getIndex fuel key) ix) ∧
        Settles (fun fuel => t.contains fuel key) (decide (key ∈ (reference ∅ calls).1)) := by
  obtain ⟨t₀, hnew, h₀⟩ := new_settles hn garbage
  obtain ⟨t, hrun, used, h⟩ := h₀.run hcalls
  refine ⟨t, ?_, ?_, h.size, fun key hkey => ⟨?_, h.contains hkey⟩⟩
  · filter_upwards [hnew, hrun] with fuel hnew hrun
    rw [hnew, Option.bind_some]
    exact hrun
  · obtain ⟨j, hj, hpow⟩ := h.pow
    rw [hpow]
    exact Nat.pow_le_pow_right Nat.two_pos hj
  · obtain ⟨d, -, hget⟩ := h.getIndex key
    exact ⟨_, h.path_lt key d, hget⟩

/-- A set for two elements: one pointer is inserted twice. -/
theorem hashsetNew_set_twice : ∃ t,
    Settles (fun fuel => (new fuel 2 fun _ => 5).bind fun t =>
      run fuel t [.insert 8, .contains 8, .insert 8, .contains 16]) (t, [true, false]) ∧
    t.tableSize ≤ 2 ^ 30 ∧ t.size = 1 ∧
    ∀ key, key ≠ 0 → (∃ ix < t.tableSize, Settles (fun fuel => t.getIndex fuel key) ix) ∧
      Settles (fun fuel => t.contains fuel key) (decide (key ∈ ({8} : Finset Key))) :=
  hashsetNew_set (n := 2) (by omega) _ [.insert 8, .contains 8, .insert 8, .contains 16]
    ⟨by decide, by decide, by decide, by decide, by decide, by decide, trivial⟩

end HashsetNew

end PopSetbench

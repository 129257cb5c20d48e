import PopSetbench.Library.Probing
import PopSetbench.Library.Run
import Mathlib.Data.BitVec

/-!
# The hash set with 32 cells

Model of `hashset` (hashtable.h). Keys are pointers of 64 bits, and null marks an empty cell. The
functions with a loop take a fuel and return `none` when it runs out; a search that leaves the table
ends at the index 32, where its assertion fails, and so does a call that would go on from there.

Three lines of the class do not do what they are there for. `HASHSET_NEXT_INDEX` is
`((ix)+1 % HASHSET_TABLE_SIZE)`, which does not wrap around; `erase` empties a cell although a
search for another key may have to pass it; and `clear` does nothing once `cleared` is set, which no
insert undoes. `Fits` is the condition on a call that none of the three matters. As long as all
calls meet it, the class is a set, and the first call that does not meet it leaves the table or
makes `contains` wrong (`hashset_set`).
-/

namespace PopSetbench

namespace Hashset

open Function

/-! ### The class -/

/-- A pointer, or the content of a cell. -/
abbrev Key := BitVec 64

def HASHSET_TABLE_SIZE : ℕ := 32

/-- `hash`: MurmurHash3's integer finalizer on a `long long`, returned as an `int`. -/
def hash (key : Key) : BitVec 32 :=
  let k := key
  let k := k ^^^ k.sshiftRight 33
  let k := k * 0xff51afd7ed558ccd#64
  let k := k ^^^ k.sshiftRight 33
  let k := k * 0xc4ceb9fe1a85ec53#64
  let k := k ^^^ k.sshiftRight 33
  k.setWidth 32

/-- `HASHSET_FIRST_INDEX` -/
def firstIndex (key : Key) : ℕ := (hash key &&& BitVec.ofNat 32 (HASHSET_TABLE_SIZE - 1)).toNat

/-- `HASHSET_NEXT_INDEX`; the remainder binds tighter than the sum, here as in the source. -/
def nextIndex (ix : ℕ) : ℕ := ix + 1 % HASHSET_TABLE_SIZE

/-- The fields of the class. -/
structure Table where
  cleared : Bool
  keys : ℕ → Key

namespace Table

variable (t : Table)

/-- The condition of the loop fails, or its assertion. -/
def stops (key : Key) (ix : ℕ) : Bool :=
  HASHSET_TABLE_SIZE ≤ ix || t.keys ix = 0 || t.keys ix = key

def getIndex (fuel : ℕ) (key : Key) : Option ℕ :=
  seek (t.stops key) nextIndex fuel (firstIndex key)

def get (fuel : ℕ) (key : Key) : Option Key := do
  let ix ← t.getIndex fuel key
  if ix < HASHSET_TABLE_SIZE then some (t.keys ix) else none

def contains (fuel : ℕ) (key : Key) : Option Bool :=
  (t.get fuel key).map (· ≠ 0)

/-- `keys[ix] = key` -/
def store (ix : ℕ) (key : Key) : Table := { t with keys := update t.keys ix key }

def insert (fuel : ℕ) (key : Key) : Option Table := do
  let ix ← t.getIndex fuel key
  if ix < HASHSET_TABLE_SIZE then some (t.store ix key) else none

def erase (fuel : ℕ) (key : Key) : Option Table := do
  let ix ← t.getIndex fuel key
  if ix < HASHSET_TABLE_SIZE then some (t.store ix 0) else none

def clear : Table :=
  if !t.cleared then
    { cleared := true, keys := fun ix => if ix < HASHSET_TABLE_SIZE then 0 else t.keys ix }
  else t

end Table

/-- The constructor. The cells hold anything before. -/
def new (garbage : ℕ → Key) : Table :=
  Table.clear { cleared := false, keys := garbage }

/-! ### Sequences of calls -/

inductive Call
  | insert (key : Key)
  | erase (key : Key)
  | contains (key : Key)
  | get (key : Key)
  | clear
deriving DecidableEq

/-- The key of a call. -/
def Call.key : Call → Option Key
  | insert key | erase key | contains key | get key => some key
  | clear => none

/-- The table after a call. -/
def Table.exec (fuel : ℕ) (t : Table) : Call → Option Table
  | .insert key => t.insert fuel key
  | .erase key => t.erase fuel key
  | .contains key => (t.contains fuel key).map fun _ => t
  | .get key => (t.get fuel key).map fun _ => t
  | .clear => some t.clear

/-- What a set does. -/
def reference (S : Finset Key) : Call → Finset Key
  | .insert key => insert key S
  | .erase key => S.erase key
  | .contains _ | .get _ => S
  | .clear => ∅

/-- The hash set, and a set that gets the same calls. No call is made with null. -/
def system : Lts (Table × Finset Key) Call where
  init s := ∃ garbage, s = (new garbage, ∅)
  step s call s' := call.key ≠ some 0 ∧ Settles (fun fuel => s.1.exec fuel call) s'.1 ∧
    s'.2 = reference s.2 call

/-! ### The condition -/

/-- From the first index of the key on there is an empty cell or one that holds the key. -/
def Table.Reaches (t : Table) (key : Key) : Prop :=
  ∃ ix, firstIndex key ≤ ix ∧ ix < HASHSET_TABLE_SIZE ∧ (t.keys ix = 0 ∨ t.keys ix = key)

/-- No other key of the set is behind the cell of `key` on its way. -/
def Table.Free (t : Table) (S : Finset Key) (key : Key) : Prop :=
  ∀ y ∈ S, y ≠ key → ∀ i j, j < HASHSET_TABLE_SIZE → t.keys i = key → t.keys j = y →
    firstIndex y ≤ i → j ≤ i

/-- **The condition on a call.** -/
def Fits (s : Table × Finset Key) : Call → Prop
  | .insert key | .contains key | .get key => s.1.Reaches key
  | .erase key => s.1.Reaches key ∧ s.1.Free s.2 key
  | .clear => s.2 = ∅

/-- The search of the call ends at an index inside the table. -/
def Inside (t : Table) (key : Key) : Prop :=
  ∃ ix < HASHSET_TABLE_SIZE, Settles (fun fuel => t.getIndex fuel key) ix

/-- `contains` and `get` are right for all keys whose search stays inside the table. -/
def Agrees (s : Table × Finset Key) : Prop :=
  ∀ key, key ≠ 0 → Inside s.1 key →
    Settles (fun fuel => s.1.contains fuel key) (decide (key ∈ s.2)) ∧
    Settles (fun fuel => s.1.get fuel key) (if key ∈ s.2 then key else 0)

/-! ### Searches -/

variable {t : Table} {S : Finset Key} {key : Key} {s s' : Table × Finset Key}

@[simp] theorem store_self (ix : ℕ) (k : Key) : (t.store ix k).keys ix = k := by
  unfold Table.store
  exact update_self ..

theorem store_of_ne {ix j : ℕ} {k : Key} (h : j ≠ ix) : (t.store ix k).keys j = t.keys j := by
  unfold Table.store
  exact update_of_ne h ..

/-- The cells in which a key is looked for. -/
def path (key : Key) (d : ℕ) : ℕ := nextIndex^[d] (firstIndex key)

theorem firstIndex_lt (key : Key) : firstIndex key < HASHSET_TABLE_SIZE := by
  have hmask : (BitVec.ofNat 32 (HASHSET_TABLE_SIZE - 1)).toNat < HASHSET_TABLE_SIZE := by decide
  unfold firstIndex
  rw [BitVec.toNat_and]
  exact Nat.and_le_right.trans_lt hmask

/-- The search does not wrap around. -/
theorem path_eq (key : Key) (d : ℕ) : path key d = firstIndex key + d := by
  unfold path
  induction d with
  | zero => rw [iterate_zero_apply, Nat.add_zero]
  | succ d ih =>
    have hnext : ∀ ix, nextIndex ix = ix + 1 := fun _ => rfl
    rw [iterate_succ_apply', ih, hnext, Nat.add_assoc]

theorem stops_iff (ix : ℕ) :
    t.stops key ix = true ↔ HASHSET_TABLE_SIZE ≤ ix ∨ t.keys ix = 0 ∨ t.keys ix = key := by
  simp [Table.stops, or_assoc]

/-- Where a search ends that does not leave the table. -/
theorem getIndex_of_finds {d : ℕ} (hd : Finds path 0 t.keys key d)
    (hlt : path key d < HASHSET_TABLE_SIZE) :
    Settles (fun fuel => t.getIndex fuel key) (path key d) := by
  refine seek_settles ((stops_iff _).mpr (.inr hd.stop)) fun c hc => ?_
  rw [← Bool.not_eq_true, stops_iff]
  have hbefore := hd.before c hc
  rintro (hge | h0 | hkey)
  · change HASHSET_TABLE_SIZE ≤ path key c at hge
    rw [path_eq] at hge hlt
    omega
  · exact hbefore.1 h0
  · exact hbefore.2 hkey

theorem exec_insert {d : ℕ} (hd : Finds path 0 t.keys key d)
    (hlt : path key d < HASHSET_TABLE_SIZE) :
    Settles (fun fuel => t.exec fuel (.insert key)) (t.store (path key d) key) := by
  filter_upwards [getIndex_of_finds hd hlt] with fuel hfuel
  rw [Table.exec, Table.insert, hfuel, Option.bind_eq_bind, Option.bind_some, if_pos hlt]

theorem exec_erase {d : ℕ} (hd : Finds path 0 t.keys key d)
    (hlt : path key d < HASHSET_TABLE_SIZE) :
    Settles (fun fuel => t.exec fuel (.erase key)) (t.store (path key d) 0) := by
  filter_upwards [getIndex_of_finds hd hlt] with fuel hfuel
  rw [Table.exec, Table.erase, hfuel, Option.bind_eq_bind, Option.bind_some, if_pos hlt]

/-- A search that meets an empty cell or the key ends there. -/
theorem Table.Reaches.finds (h : t.Reaches key) :
    ∃ d, Finds path 0 t.keys key d ∧ path key d < HASHSET_TABLE_SIZE := by
  obtain ⟨ix, hfirst, hlt, hstop⟩ := h
  have hix : path key (ix - firstIndex key) = ix := by
    rw [path_eq]
    omega
  rw [← hix] at hstop
  obtain ⟨d, hle, hd⟩ := Finds.exists_le hstop
  refine ⟨d, hd, ?_⟩
  rw [path_eq]
  omega

/-- Any other search leaves the table. -/
theorem getIndex_outside (h : ¬ t.Reaches key) :
    Settles (fun fuel => t.getIndex fuel key) HASHSET_TABLE_SIZE := by
  have hfirst := firstIndex_lt key
  have hend : path key (HASHSET_TABLE_SIZE - firstIndex key) = HASHSET_TABLE_SIZE := by
    rw [path_eq]
    omega
  have hset : Settles (fun fuel => t.getIndex fuel key)
      (path key (HASHSET_TABLE_SIZE - firstIndex key)) := by
    refine seek_settles ((stops_iff _).mpr (.inl hend.ge)) fun c hc => ?_
    rw [← Bool.not_eq_true, stops_iff]
    have hpath := path_eq key c
    rintro (hge | hstop)
    · change HASHSET_TABLE_SIZE ≤ path key c at hge
      omega
    · exact h ⟨path key c, by omega, by omega, hstop⟩
  rwa [hend] at hset

/-- Whether a search stays inside the table can be seen from the cells. -/
theorem inside_iff : Inside t key ↔ t.Reaches key := by
  constructor
  · rintro ⟨ix, hlt, hset⟩
    by_contra hno
    have heq := hset.unique (getIndex_outside hno)
    omega
  · intro h
    obtain ⟨d, hd, hlt⟩ := h.finds
    exact ⟨_, hlt, getIndex_of_finds hd hlt⟩

/-! ### The invariant -/

/-- **The invariant.** The table holds the keys `S`, and `clear` does nothing. -/
structure Inv (t : Table) (S : Finset Key) : Prop where
  table : OpenTable path HASHSET_TABLE_SIZE 0 t.keys S
  cleared : t.cleared = true

theorem Inv.new (garbage : ℕ → Key) : Inv (new garbage) ∅ where
  table := .of_empty fun _ hi => if_pos hi
  cleared := rfl

/-- What a search of the table finds. -/
theorem Inv.get (h : Inv t S) (hr : t.Reaches key) :
    Settles (fun fuel => t.get fuel key) (if key ∈ S then key else 0) := by
  obtain ⟨d, hd, hlt⟩ := hr.finds
  filter_upwards [getIndex_of_finds hd hlt] with fuel hfuel
  rw [Table.get, hfuel, Option.bind_eq_bind, Option.bind_some, if_pos hlt]
  by_cases hmem : key ∈ S
  · rw [h.table.cell_of_mem hd hmem, if_pos hmem]
  · rw [h.table.cell_of_not_mem hd hlt hmem, if_neg hmem]

theorem Inv.agrees (h : Inv t S) : Agrees (t, S) := by
  intro key hkey hin
  have hget := h.get (inside_iff.mp hin)
  refine ⟨?_, hget⟩
  filter_upwards [hget] with fuel hfuel
  rw [Table.contains, hfuel, Option.map_some]
  by_cases hmem : key ∈ S
  · rw [if_pos hmem, decide_eq_true hmem, decide_eq_true hkey]
  · rw [if_neg hmem, decide_eq_false hmem]
    rfl

/-- The keys of the set are found. -/
theorem Inv.reaches (h : Inv t S) (hkey : key ∈ S) : t.Reaches key := by
  obtain ⟨d, hlt, hd, -⟩ := h.table.found key hkey
  rw [path_eq] at hlt hd
  exact ⟨_, Nat.le_add_right _ d, hlt, .inr hd⟩

/-- **A call that meets the condition** keeps the invariant. -/
theorem Inv.step {call : Call} (h : Inv s.1 s.2) (hfits : Fits s call)
    (hstep : system.step s call s') : Inv s'.1 s'.2 := by
  obtain ⟨hnull, hexec, href⟩ := hstep
  rw [href]
  cases call with
  | insert key =>
    obtain ⟨d, hd, hlt⟩ := Table.Reaches.finds hfits
    rw [hexec.unique (exec_insert hd hlt)]
    exact ⟨h.table.insert hd hlt fun h0 => hnull (congrArg some h0), h.cleared⟩
  | erase key =>
    obtain ⟨hr, hfree⟩ := hfits
    obtain ⟨d, hd, hlt⟩ := hr.finds
    rw [hexec.unique (exec_erase hd hlt)]
    refine ⟨h.table.erase hd hlt fun y hy hne d' hlt' hcell hbefore c hc heq => ?_, h.cleared⟩
    -- the cell is not empty, so it holds the key, and it is on the way to another key
    have hkey : s.1.keys (path key d) = key :=
      hd.stop.resolve_left fun h0 => hbefore c hc (heq ▸ h0)
    have hle := hfree y hy hne _ _ hlt' hkey hcell
    rw [← heq, path_eq, path_eq] at hle
    have habs := hle (Nat.le_add_right _ c)
    omega
  | contains key =>
    have hres : Settles (fun fuel => s.1.exec fuel (.contains key)) s.1 := by
      filter_upwards [h.get hfits] with fuel hfuel
      rw [Table.exec, Table.contains, hfuel]
      rfl
    rw [hexec.unique hres]
    exact h
  | get key =>
    have hres : Settles (fun fuel => s.1.exec fuel (.get key)) s.1 := by
      filter_upwards [h.get hfits] with fuel hfuel
      rw [Table.exec, hfuel]
      rfl
    rw [hexec.unique hres]
    exact h
  | clear =>
    have hS : s.2 = ∅ := hfits
    have hclear : s.1.clear = s.1 := by
      unfold Table.clear
      rw [h.cleared]
      rfl
    have hres : Settles (fun fuel => s.1.exec fuel .clear) s.1 :=
      .of_forall fun _ => congrArg some hclear
    rw [hexec.unique hres, reference, ← hS]
    exact h

theorem Inv.of_reachable (h : system.ReachableBy Fits s) : Inv s.1 s.2 := by
  refine h.invariant (P := fun s => Inv s.1 s.2) ?_ fun _ _ _ _ hI hok hs => hI.step hok hs
  rintro s ⟨garbage, rfl⟩
  exact .new garbage

/-! ### Calls that do not meet the condition -/

/-- `clear` does not remove a key. -/
theorem Inv.not_agrees_clear (h : Inv t S) (hS : S ≠ ∅) : ¬ Agrees (t, ∅) := by
  obtain ⟨key, hkey⟩ := Finset.nonempty_iff_ne_empty.mpr hS
  have hne : key ≠ 0 := fun h0 => h.table.empty (h0 ▸ hkey)
  intro hagrees
  have hin := inside_iff.mpr (h.reaches hkey)
  have htrue := (h.agrees key hne hin).1
  have hfalse := (hagrees key hne hin).1
  rw [decide_eq_true hkey] at htrue
  have heq := htrue.unique hfalse
  simp at heq

/-- A cell is emptied that is on the way to another key: this key is not found any more. -/
theorem Inv.not_agrees_erase (h : Inv t S) {d : ℕ} (hd : t.keys (path key d) = key)
    (hlt : path key d < HASHSET_TABLE_SIZE) (hfree : ¬ t.Free S key) (hkey : key ≠ 0) :
    ¬ Agrees (t.store (path key d) 0, S.erase key) := by
  intro hagrees
  unfold Table.Free at hfree
  push Not at hfree
  obtain ⟨y, hy, hyk, i, j, hj, hi, hjy, hfirst, hij⟩ := hfree
  have hy0 : y ≠ 0 := fun h0 => h.table.empty (h0 ▸ hy)
  obtain rfl : i = path key d := h.table.inj i (hij.trans hj) _ hlt (hi.trans hd.symm) (hi ▸ hkey)
  -- the search for `y` comes to the emptied cell if it does not end before
  have hr : (t.store (path key d) 0).Reaches y :=
    ⟨path key d, hfirst, hlt, .inl (store_self ..)⟩
  have htrue := (hagrees y hy0 (inside_iff.mpr hr)).1
  rw [decide_eq_true (Finset.mem_erase.mpr ⟨hyk, hy⟩)] at htrue
  obtain ⟨d', hd', hlt'⟩ := hr.finds
  have hget := getIndex_of_finds hd' hlt'
  have hle : path y d' ≤ path key d := by
    by_contra hgt
    rw [path_eq] at hgt
    refine (hd'.before (path key d - firstIndex y) (by omega)).1 ?_
    have heq : path y (path key d - firstIndex y) = path key d := by
      rw [path_eq]
      omega
    rw [heq, store_self]
  -- it ends at an empty cell: `y` is only in the cell behind
  have hempty : (t.store (path key d) 0).keys (path y d') = 0 := by
    refine hd'.stop.resolve_right fun hcell => ?_
    have hne : path y d' ≠ path key d := by
      intro heq
      rw [heq, store_self] at hcell
      exact hy0 hcell.symm
    rw [store_of_ne hne] at hcell
    have heq : path y d' = j :=
      h.table.inj _ hlt' _ hj (hcell.trans hjy.symm) (hcell.symm ▸ hy0)
    omega
  have hfalse : Settles (fun fuel => (t.store (path key d) 0).contains fuel y) false := by
    filter_upwards [hget] with fuel hfuel
    rw [Table.contains, Table.get, hfuel, Option.bind_eq_bind, Option.bind_some, if_pos hlt',
      hempty]
    rfl
  exact Bool.noConfusion (htrue.unique hfalse)

/-- **A call that does not meet the condition** leaves the table or makes `contains` wrong. -/
theorem Inv.fits {call : Call} (h : Inv s.1 s.2) (hnull : call.key ≠ some 0)
    (hin : ∀ key, call.key = some key → Inside s.1 key)
    (hafter : ∀ s', system.step s call s' → Agrees s') : Fits s call := by
  cases call with
  | insert key => exact inside_iff.mp (hin key rfl)
  | contains key => exact inside_iff.mp (hin key rfl)
  | get key => exact inside_iff.mp (hin key rfl)
  | erase key =>
    have hr := inside_iff.mp (hin key rfl)
    refine ⟨hr, ?_⟩
    obtain ⟨d, hd, hlt⟩ := hr.finds
    have hkey : key ≠ 0 := fun h0 => hnull (congrArg some h0)
    have hagrees := hafter (s.1.store (path key d) 0, s.2.erase key)
      ⟨hnull, exec_erase hd hlt, rfl⟩
    by_contra hfree
    -- if the cell is empty, then the key is in no cell
    rcases hd.stop with hempty | hcell
    · refine hfree fun y hy _ i j hj hi hjy _ => ?_
      by_contra hij
      have hmem : key ∈ s.2 := hi ▸ h.table.mem i (by omega) (hi ▸ hkey)
      exact hkey ((h.table.cell_of_mem hd hmem).symm.trans hempty)
    · exact h.not_agrees_erase hcell hlt hfree hkey hagrees
  | clear =>
    by_contra hS
    have hclear : s.1.clear = s.1 := by
      unfold Table.clear
      rw [h.cleared]
      rfl
    exact h.not_agrees_clear hS
      (hafter (s.1, ∅) ⟨hnull, .of_forall fun _ => congrArg some hclear, rfl⟩)

/-! ### The set -/

/-- **When the hash set is a set.** In every run whose calls all meet the condition `Fits`,
`contains` and `get` are right for every key whose search stays inside the table. The condition is
exact: a call meets it if and only if its own search stays inside the table and `contains` and `get`
are right afterwards, too. -/
theorem hashset_set (h : system.ReachableBy Fits s) : Agrees s ∧
    ∀ call : Call, call.key ≠ some 0 → (Fits s call ↔
      (∀ key, call.key = some key → Inside s.1 key) ∧
        ∀ s', system.step s call s' → Agrees s') := by
  have hI := Inv.of_reachable h
  refine ⟨hI.agrees, fun call hnull => ⟨fun hfits => ⟨fun key hkey => ?_, fun s' hs => ?_⟩,
    fun ⟨hin, hafter⟩ => hI.fits hnull hin hafter⟩⟩
  · rw [inside_iff]
    cases call with
    | insert k =>
      cases hkey
      exact hfits
    | erase k =>
      cases hkey
      exact hfits.1
    | contains k =>
      cases hkey
      exact hfits
    | get k =>
      cases hkey
      exact hfits
    | clear => cases hkey
  · exact (hI.step hfits hs).agrees

theorem path_zero (key : Key) : path key 0 = firstIndex key := by
  rw [path_eq, Nat.add_zero]

/-- A key whose first cell is empty is stored there. -/
theorem finds_first (h : t.keys (firstIndex key) = 0) : Finds path 0 t.keys key 0 := by
  rw [← path_zero] at h
  exact ⟨.inl h, nofun⟩

/-- A key whose first cell holds another key is stored in the second one, if that is empty. -/
theorem finds_second {y : Key} (h : t.keys (firstIndex key) = y) (hy : y ≠ 0) (hne : y ≠ key)
    (h' : t.keys (firstIndex key + 1) = 0) : Finds path 0 t.keys key 1 := by
  rw [← path_eq] at h'
  refine ⟨.inl h', fun c hc => ?_⟩
  obtain rfl : c = 0 := by omega
  rw [path_zero, h]
  exact ⟨hy, hne⟩

/-- A table without keys. -/
def Table.empty : Table := { cleared := true, keys := fun _ => 0 }

/-- The first call stores its key in its first cell. -/
theorem reach_one (key : Key) (hkey : key ≠ 0) :
    system.ReachableBy Fits (Table.empty.store (firstIndex key) key, {key}) := by
  have h₀ : system.ReachableBy Fits (Table.empty, ∅) := by
    refine .init ⟨fun _ => 0, ?_⟩
    simp [new, Table.clear, Table.empty]
  have hlt : path key 0 < HASHSET_TABLE_SIZE := by
    rw [path_zero]
    exact firstIndex_lt key
  have hexec := exec_insert (finds_first (t := Table.empty) rfl) hlt
  rw [path_zero] at hexec
  refine h₀.step (a := .insert key) ⟨?_, hexec, rfl⟩ ?_
  · exact fun h => hkey (Option.some.inj h)
  · exact ⟨firstIndex key, le_rfl, firstIndex_lt key, .inl rfl⟩

theorem reach_call (h : system.Reachable s) (call : Call) (hnull : call.key ≠ some 0) {t' : Table}
    (hexec : Settles (fun fuel => s.1.exec fuel call) t') :
    system.Reachable (t', reference s.2 call) :=
  h.step ⟨hnull, hexec, rfl⟩

/-- The key of the second call belongs to the same cell, and is stored behind the first one. -/
theorem reach_two {y : Key} (hkey : key ≠ 0) (hy0 : y ≠ 0) (hne : key ≠ y)
    (hroom : firstIndex key + 1 < HASHSET_TABLE_SIZE) (hy : firstIndex y = firstIndex key) :
    system.ReachableBy Fits ((Table.empty.store (firstIndex key) key).store
      (firstIndex key + 1) y, {y, key}) := by
  have hpath : path y 1 = firstIndex key + 1 := by rw [path_eq, hy]
  have hsecond : Finds path 0 (Table.empty.store (firstIndex key) key).keys y 1 := by
    refine finds_second (y := key) ?_ hkey hne ?_
    · rw [hy, store_self]
    · rw [hy, store_of_ne (Nat.succ_ne_self _)]
      rfl
  have hinsert := exec_insert hsecond (by rw [hpath]; exact hroom)
  rw [hpath] at hinsert
  refine (reach_one key hkey).step (a := .insert y) ⟨fun h => hy0 (Option.some.inj h), hinsert, rfl⟩
    ⟨firstIndex key + 1, by omega, hroom, .inl ?_⟩
  rw [store_of_ne (Nat.succ_ne_self _)]
  rfl

theorem firstIndex_56 : firstIndex 56 = 3 := by
  unfold firstIndex hash HASHSET_TABLE_SIZE
  decide

theorem firstIndex_64 : firstIndex 64 = 3 := by
  unfold firstIndex hash HASHSET_TABLE_SIZE
  decide

/-- Two keys of the same cell are inserted, the second one is erased, and the first one is still
found. -/
theorem hashset_set_erase : ∃ s : Table × Finset Key, s.2 = {56} ∧ s.1.keys 3 = 56 ∧
    s.1.keys 4 = 0 ∧ Agrees s ∧ ∀ call : Call, call.key ≠ some 0 → (Fits s call ↔
      (∀ key, call.key = some key → Inside s.1 key) ∧
        ∀ s', system.step s call s' → Agrees s') := by
  have hR := @reach_two 56 64 (by decide) (by decide) (by decide)
    (by rw [firstIndex_56]; decide) (by rw [firstIndex_56, firstIndex_64])
  rw [firstIndex_56] at hR
  have hpath : path 64 1 = 4 := by rw [path_eq, firstIndex_64]
  have h3 : ((Table.empty.store 3 56).store 4 64).keys 3 = 56 := by
    rw [store_of_ne (by decide), store_self]
  -- the second key is in the cell behind, and no other key is found there
  have hfinds : Finds path 0 ((Table.empty.store 3 56).store 4 64).keys 64 1 := by
    refine ⟨.inr ?_, fun c hc => ?_⟩
    · rw [hpath]
      exact store_self 4 64
    · obtain rfl : c = 0 := by omega
      rw [path_eq, firstIndex_64, h3]
      decide
  -- the cells before do not hold it
  have hcells : ∀ i, ((Table.empty.store 3 56).store 4 64).keys i = 64 → 4 ≤ i := by
    intro i hi
    by_contra hlt
    by_cases h : i = 3
    · subst h
      rw [h3] at hi
      exact absurd hi (by decide)
    · rw [store_of_ne (by omega), store_of_ne h] at hi
      exact absurd (show (0 : Key) = 64 from hi) (by decide)
  have herase := exec_erase hfinds (by rw [hpath]; decide)
  rw [hpath] at herase
  -- taking the second key out does not hide the first one
  have hfree : ((Table.empty.store 3 56).store 4 64).Free {64, 56} 64 := by
    intro y hy hne i j _ hi hjy _
    obtain rfl : y = 56 := Finset.mem_singleton.mp ((Finset.mem_insert.mp hy).resolve_left hne)
    by_cases hj : j = 4
    · rw [hj]
      exact hcells i hi
    · by_cases hj3 : j = 3
      · rw [hj3]
        exact (Nat.le_succ 3).trans (hcells i hi)
      · rw [store_of_ne hj, store_of_ne hj3] at hjy
        exact absurd (show (0 : Key) = 56 from hjy) (by decide)
  -- the second call meets the condition
  have hreach : ((Table.empty.store 3 56).store 4 64).Reaches 64 :=
    ⟨4, by rw [firstIndex_64]; decide, by decide, .inr (store_self 4 64)⟩
  have hR : system.ReachableBy Fits (((Table.empty.store 3 56).store 4 64).store 4 0,
      ({64, 56} : Finset Key).erase 64) :=
    hR.step (a := .erase 64) ⟨by decide, herase, rfl⟩ ⟨hreach, hfree⟩
  refine ⟨_, by decide, ?_, store_self .., hashset_set hR⟩
  rw [store_of_ne (by decide)]
  exact h3

/-- A key is still there after a clear. -/
theorem exists_uncleared (hkey : key ≠ 0) :
    ∃ s, system.Reachable s ∧ s.2 = ∅ ∧ Settles (fun fuel => s.1.contains fuel key) true := by
  have hR := reach_one key hkey
  have hI := Inv.of_reachable hR
  have hcontains := (hI.agrees key hkey
    (inside_iff.mpr (hI.reaches (Finset.mem_singleton_self key)))).1
  rw [decide_eq_true (Finset.mem_singleton_self key)] at hcontains
  have hclear : Settles (fun fuel => (Table.empty.store (firstIndex key) key).exec fuel .clear)
      (Table.empty.store (firstIndex key) key) := .of_forall fun _ => rfl
  exact ⟨_, reach_call hR.reachable .clear nofun hclear, rfl, hcontains⟩

/-- Two keys belong to the last cell: the search for the second one leaves the table. -/
theorem exists_outside {y : Key} (hkey : key ≠ 0) (hne : key ≠ y)
    (hlast : firstIndex key + 1 = HASHSET_TABLE_SIZE) (hy : firstIndex y = firstIndex key) :
    ∃ s, system.Reachable s ∧ s.2 = {key} ∧
      Settles (fun fuel => s.1.getIndex fuel y) HASHSET_TABLE_SIZE := by
  refine ⟨_, (reach_one key hkey).reachable, rfl, getIndex_outside ?_⟩
  rintro ⟨ix, hfirst, hlt, hstop⟩
  obtain rfl : ix = firstIndex key := by omega
  rw [store_self] at hstop
  exact hstop.elim hkey hne

/-- Two keys belong to the same cell: the second one is not found after the first one has been
erased. -/
theorem exists_hidden (key y : Key) (hkey : key ≠ 0) (hy0 : y ≠ 0) (hne : key ≠ y)
    (hroom : firstIndex key + 1 < HASHSET_TABLE_SIZE) (hy : firstIndex y = firstIndex key) :
    ∃ s, system.Reachable s ∧ s.2 = {y} ∧ Settles (fun fuel => s.1.contains fuel y) false := by
  have hfirst := firstIndex_lt key
  have hR := (reach_two hkey hy0 hne hroom hy).reachable
  -- the first key is erased
  have hthere : Finds path 0 ((Table.empty.store (firstIndex key) key).store
      (firstIndex key + 1) y).keys key 0 := by
    refine ⟨.inr ?_, nofun⟩
    rw [path_zero, store_of_ne (Nat.succ_ne_self _).symm, store_self]
  have herase := exec_erase hthere (by rw [path_zero]; exact hfirst)
  rw [path_zero] at herase
  have hR := reach_call hR (.erase key) (fun h => hkey (Option.some.inj h)) herase
  refine ⟨_, hR, ?_, ?_⟩
  · exact (Finset.erase_insert_of_ne hne.symm).trans (by simp)
  · -- its cell is where the search for the second key ends
    have hempty : Finds path 0 (((Table.empty.store (firstIndex key) key).store
        (firstIndex key + 1) y).store (firstIndex key) 0).keys y 0 := by
      refine finds_first ?_
      rw [hy, store_self]
    filter_upwards [getIndex_of_finds hempty (by rw [path_zero, hy]; exact hfirst)] with fuel hfuel
    rw [Table.contains, Table.get, hfuel, Option.bind_eq_bind, Option.bind_some, path_zero, hy,
      if_pos hfirst, store_self]
    rfl

theorem firstIndex_808 : firstIndex 808 = 31 := by
  unfold firstIndex hash HASHSET_TABLE_SIZE
  decide

theorem firstIndex_872 : firstIndex 872 = 31 := by
  unfold firstIndex hash HASHSET_TABLE_SIZE
  decide

/-- Three short runs: a key is still there after a clear; a search leaves the table; a key is not
found after another one has been erased. -/
theorem hashset_defects :
    (∃ s, system.Reachable s ∧ s.2 = ∅ ∧ Settles (fun fuel => s.1.contains fuel 8) true) ∧
    (∃ s, system.Reachable s ∧ s.2 = {808} ∧
      Settles (fun fuel => s.1.getIndex fuel 872) HASHSET_TABLE_SIZE) ∧
    (∃ s, system.Reachable s ∧ s.2 = {64} ∧ Settles (fun fuel => s.1.contains fuel 64) false) := by
  refine ⟨exists_uncleared (by decide), exists_outside (by decide) (by decide) ?_ ?_,
    exists_hidden 56 64 (by decide) (by decide) (by decide) ?_ ?_⟩
  · rw [firstIndex_808]
    rfl
  · rw [firstIndex_808, firstIndex_872]
  · rw [firstIndex_56]
    decide
  · rw [firstIndex_56, firstIndex_64]

end Hashset

end PopSetbench

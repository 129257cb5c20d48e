import PopSetbench.Common.Blockbag
import Mathlib.Algebra.Order.Group.Multiset
import Mathlib.Tactic.Abel

/-!
# Bags of blocks: loops over the blocks

The operations of Blockbag.lean that walk along a bag or empty one: the sizes, `validate`, moves
from one bag to another, `clearWithoutFreeingElements` and the destructor. Each of them returns,
given enough fuel. A move between two bags is specified for the blocks of both and for others, `F`.
-/

namespace PopSetbench

namespace Blockbag

open Function

variable {A T : Type} {m m' : Mem A T} {bag other : Bag A} {bs cs fs : List (A × List T)}
  {F : Multiset A} {a b : A} {d : List T} {p : Option A}

/-! ### Sizes -/

theorem Chained.countBlocks (h : Chained m p bs none) (result : ℤ) :
    Settles (fun fuel => Bag.countBlocks m fuel p result) (result + bs.length) := by
  induction bs generalizing p result with
  | nil =>
    obtain rfl : p = none := h
    refine .of_succ (.of_forall fun fuel => ?_)
    simp [Bag.countBlocks]
  | cons b bs ih =>
    obtain ⟨rfl, -, hrest⟩ := h
    refine .of_succ ?_
    have hcount := ih hrest (result + 1)
    rw [show result + ((b :: bs).length : ℤ) = result + 1 + bs.length by
      rw [List.length_cons]; omega]
    exact hcount

/-- `computeSizeInBlocks` returns the number of blocks. -/
theorem Chained.computeSizeInBlocks (h : Chained m (some bag.head) bs none) :
    Settles (fun fuel => bag.computeSizeInBlocks fuel m) bs.length := by
  have hcount := h.countBlocks 0
  rw [Int.zero_add] at hcount
  exact hcount

theorem Chained.sumSizes (h : Chained m p bs none) (result : ℤ) :
    Settles (fun fuel => Bag.sumSizes m fuel p result) (result + (contents bs).card) := by
  induction bs generalizing p result with
  | nil =>
    obtain rfl : p = none := h
    refine .of_succ (.of_forall fun fuel => ?_)
    simp [Bag.sumSizes]
  | cons b bs ih =>
    obtain ⟨a, d⟩ := b
    obtain ⟨rfl, hd, hrest⟩ := h
    refine .of_succ ?_
    have hsum := ih hrest (result + d.length)
    rw [contents_cons, Multiset.card_add, Multiset.coe_card, Nat.cast_add, ← Int.add_assoc]
    simp only [Bag.sumSizes, hd]
    exact hsum

/-- The blocks behind the head are full. -/
theorem card_contents_of_full (h : ∀ b ∈ bs, b.2.length = blockSize) :
    (contents bs).card = bs.length * blockSize := by
  induction bs with
  | nil => simp
  | cons b bs ih =>
    obtain ⟨a, d⟩ := b
    have hd : d.length = blockSize := h _ List.mem_cons_self
    rw [contents_cons, Multiset.card_add, Multiset.coe_card, hd,
      ih fun c hc => h c (List.mem_cons_of_mem _ hc), List.length_cons, Nat.succ_mul, Nat.add_comm]

/-- `computeSizeFast` returns the number of elements. -/
theorem Rep.computeSizeFast (h : Rep m bag bs) : bag.computeSizeFast m = (contents bs).card := by
  obtain ⟨d, fs, rfl⟩ := h.exists_cons
  have hfs : (contents fs).card = fs.length * blockSize := card_contents_of_full h.full
  unfold Bag.computeSizeFast
  rw [h.size, h.chain.2.1, contents_cons, Multiset.card_add, Multiset.coe_card, hfs,
    List.length_cons, Nat.cast_succ, Int.add_sub_cancel]
  push_cast
  omega

/-- **`computeSizeFast` returns what `computeSize` does.** -/
theorem Rep.computeSize (h : Rep m bag bs) :
    Settles (fun fuel => bag.computeSize fuel m) (bag.computeSizeFast m) := by
  have hsum := h.chain.sumSizes 0
  rw [Int.zero_add] at hsum
  rw [h.computeSizeFast]
  exact hsum

theorem Chained.allFull (h : Chained m p bs none) (hfull : ∀ b ∈ bs, b.2.length = blockSize) :
    Settles (fun fuel => Bag.allFull m fuel p) true := by
  induction bs generalizing p with
  | nil =>
    obtain rfl : p = none := h
    exact .of_succ (.of_forall fun fuel => rfl)
  | cons b bs ih =>
    obtain ⟨a, d⟩ := b
    obtain ⟨rfl, hd, hrest⟩ := h
    refine .of_succ ?_
    have hblock : m.isFull a = true := by
      rw [Mem.isFull_iff, hd]
      exact hfull _ List.mem_cons_self
    simp only [Bag.allFull, hblock, if_true]
    exact ih hrest fun c hc => hfull c (List.mem_cons_of_mem _ hc)

/-- **All assertions of `validate` hold.** -/
theorem Rep.validate (h : Rep m bag bs) : Settles (fun fuel => bag.validate fuel m) true := by
  obtain ⟨d, fs, rfl⟩ := h.exists_cons
  have hhead : m.isFull bag.head = false := by
    rw [Bool.eq_false_iff, ne_eq, Mem.isFull_iff, h.chain.2.1]
    exact (h.head_lt _ rfl).ne
  filter_upwards [h.chain.2.2.allFull h.full, h.chain.computeSizeInBlocks] with fuel hall hsize
  unfold Bag.validate
  rw [hall, hsize, h.size]
  simp [hhead]

/-- A bag with no elements is a single block. -/
theorem Rep.eq_singleton (h : Rep m bag bs) (hc : contents bs = 0) : bs = [(bag.head, [])] := by
  obtain ⟨d, fs, rfl⟩ := h.exists_cons
  have hfs : (contents fs).card = fs.length * blockSize := card_contents_of_full h.full
  have hcard := congrArg Multiset.card hc
  rw [contents_cons, Multiset.card_add, Multiset.coe_card, hfs,
    Multiset.card_zero, Nat.add_eq_zero_iff, List.length_eq_zero_iff, Nat.mul_eq_zero,
    List.length_eq_zero_iff] at hcard
  obtain ⟨rfl, rfl | hzero⟩ := hcard
  · rfl
  · cases hzero

/-! ### Moves -/

theorem mem_tail_append {c b : A × List T} (hb : b ∈ fs) : b ∈ (cs ++ c :: fs).tail := by
  cases cs with
  | nil => exact hb
  | cons _ cs => exact List.mem_append.mpr (.inr (List.mem_cons_of_mem _ hb))

/-- The first blocks of a bag, which end with the one `a` points to. -/
theorem Rep.take (h : Rep m other (cs ++ (a, d) :: fs)) {n : ℤ}
    (hchain : Chained m' (some other.head) (cs ++ [(a, d)]) none)
    (hn : n = (cs ++ [(a, d)]).length) :
    Rep m' { other with tail := a, sizeInBlocks := n } (cs ++ [(a, d)]) where
  chain := hchain
  tail := by simp
  size := hn
  full b hb := by
    cases cs with
    | nil => cases hb
    | cons c cs =>
      obtain hb | hb := List.mem_append.mp hb
      · exact h.full b (List.mem_append.mpr (.inl hb))
      · obtain rfl := List.mem_singleton.mp hb
        exact h.full _ (List.mem_append.mpr (.inr List.mem_cons_self))
  head_lt b hb := by
    cases cs with
    | nil => exact h.head_lt b hb
    | cons c cs => exact h.head_lt b hb

/-- A bag at whose end full blocks are put. -/
theorem Rep.extend (h : Rep m bag bs) {n : ℤ} {last : A}
    (hchain : Chained m' (some bag.head) (bs ++ fs) none) (hn : n = (bs ++ fs).length)
    (hfull : ∀ b ∈ fs, b.2.length = blockSize) (hlast : (fs.map Prod.fst).getLast? = some last) :
    Rep m' { bag with tail := last, sizeInBlocks := n } (bs ++ fs) where
  chain := hchain
  tail := by
    rw [List.map_append, List.getLast?_append, hlast]
    rfl
  size := hn
  full b hb := by
    obtain ⟨d, bs, rfl⟩ := h.exists_cons
    obtain hb | hb := List.mem_append.mp hb
    · exact h.full b hb
    · exact hfull b hb
  head_lt := by
    obtain ⟨d, bs, rfl⟩ := h.exists_cons
    exact h.head_lt

variable [DecidableEq A]

/-- **`appendMoveFullBlocks`**: the blocks behind the predecessor go to the end of the bag. -/
theorem Rep.appendMoveFullBlocks (h : Rep m bag bs) (hother : Rep m other (cs ++ (a, d) :: fs))
    (ho : m.Owned (addrs bs + (addrs (cs ++ (a, d) :: fs) + F))) :
    ∃ m' bag' other', Settles (fun fuel => bag.appendMoveFullBlocks fuel m other a)
        (m', bag', other') ∧
      Rep m' bag' (bs ++ fs) ∧ Rep m' other' (cs ++ [(a, d)]) ∧
      m'.Owned (addrs (bs ++ fs) + (addrs (cs ++ [(a, d)]) + F)) ∧ m.Kept m' F := by
  obtain ⟨r, hcs, rfl, hd, hfs⟩ := Chained.append_iff.mp hother.chain
  cases fs with
  | nil =>
    -- there is nothing behind the predecessor
    have hnext : m.next a = none := hfs
    refine ⟨m, bag, other, .of_forall fun fuel => ?_, ?_, hother, ?_, .refl⟩
    · unfold Bag.appendMoveFullBlocks
      rw [hnext]
      rfl
    · rwa [List.append_nil]
    · rwa [List.append_nil]
  | cons b gs =>
    obtain ⟨f, e⟩ := b
    have hnext : m.next a = some f := hfs.1
    have hfull : m.isFull f = true := by
      rw [Mem.isFull_iff, hfs.2.1]
      exact hother.full (f, e) (mem_tail_append List.mem_cons_self)
    -- the blocks of the two bags are different ones
    obtain ⟨xs, t, hbs⟩ := h.exists_concat
    have htail : bag.tail ∈ addrs bs := by
      rw [hbs]
      simp
    have hmem : a ∈ addrs (cs ++ (a, d) :: (f, e) :: gs) := by simp
    have hlast : bag.tail ∉ addrs xs := by
      have hnodup := h.nodup
      rw [hbs, addrs_append, addrs_cons, addrs_nil, Multiset.add_cons,
        Multiset.nodup_cons] at hnodup
      exact fun hmem => hnodup.1 (Multiset.mem_add.mpr (.inl hmem))
    have hapart : bag.tail ∉ addrs (cs ++ (a, d) :: (f, e) :: gs) := fun hc =>
      ho.apart htail (Multiset.mem_add.mpr (.inl hc))
    have habs : a ∉ addrs bs := fun hc => ho.apart hc (Multiset.mem_add.mpr (.inl hmem))
    have hanodup := hother.nodup
    rw [addrs_append, addrs_cons, Multiset.add_cons, Multiset.nodup_cons, Multiset.mem_add,
      not_or] at hanodup
    -- the bag takes the blocks over
    have hbag : Chained (m.setNext bag.tail (some f)) (some bag.head) (bs ++ (f, e) :: gs)
        none := by
      refine Chained.append_iff.mpr ⟨some f, ?_, ?_⟩
      · have hchain := h.chain
        rw [hbs] at hchain ⊢
        exact hchain.redirect hlast
      · rw [hnext] at hfs
        refine hfs.setNext fun hc => hapart ?_
        rw [addrs_append, addrs_cons]
        exact Multiset.mem_add.mpr (.inr (Multiset.mem_cons_of_mem hc))
    have hbag' : Chained ((m.setNext bag.tail (some f)).setNext a none) (some bag.head)
        (bs ++ (f, e) :: gs) none := by
      refine hbag.setNext ?_
      rw [addrs_append, Multiset.mem_add, not_or]
      exact ⟨habs, hanodup.1.2⟩
    -- the other bag ends with the predecessor
    have hrest : Chained ((m.setNext bag.tail (some f)).setNext a none) (some other.head)
        (cs ++ [(a, d)]) none := by
      have hchain : Chained m (some other.head) (cs ++ [(a, d)]) (some f) :=
        Chained.append_iff.mpr ⟨_, hcs, rfl, hd, hnext⟩
      refine (hchain.setNext fun hc => hapart ?_).redirect hanodup.1.1
      rw [addrs_append, addrs_cons, addrs_nil] at hc
      rw [addrs_append, addrs_cons]
      obtain hc | hc := Multiset.mem_add.mp hc
      · exact Multiset.mem_add.mpr (.inl hc)
      · obtain rfl := Multiset.mem_singleton.mp hc
        exact Multiset.mem_add.mpr (.inr (Multiset.mem_cons_self ..))
    refine ⟨_, { bag with tail := other.tail, sizeInBlocks := (bs ++ (f, e) :: gs).length },
      { other with tail := a, sizeInBlocks := (cs ++ [(a, d)]).length }, ?_,
      h.extend hbag' rfl (fun b hb => hother.full b (mem_tail_append hb)) ?_,
      hother.take hrest rfl, ?_, ?_⟩
    · -- the two counts of blocks come to an end
      filter_upwards [hbag.computeSizeInBlocks, hrest.computeSizeInBlocks] with fuel hsize hsize'
      unfold Bag.appendMoveFullBlocks
      rw [hnext]
      simp only [hfull, if_true, hsize, Option.bind_eq_bind, Option.bind_some, hsize']
      rfl
    · have hlast' := hother.tail
      rw [List.map_append, List.getLast?_append] at hlast'
      simpa using hlast'
    · -- no block is lost
      have hsame : addrs (bs ++ (f, e) :: gs) + (addrs (cs ++ [(a, d)]) + F) =
          addrs bs + (addrs (cs ++ (a, d) :: (f, e) :: gs) + F) := by
        simp only [addrs_append, addrs_cons, addrs_nil, ← Multiset.singleton_add]
        abel
      rw [hsame]
      exact ho.setNext.setNext
    · -- nothing changes outside the two bags
      rw [← Multiset.add_assoc] at ho
      refine (ho.kept_setNext ?_ _).trans (ho.setNext.kept_setNext ?_ _)
      · exact Multiset.mem_add.mpr (.inl htail)
      · exact Multiset.mem_add.mpr (.inr hmem)

/-- **An element is passed on** from a bag that is not empty to another one. -/
theorem Rep.pass (malloc : Malloc A) (h : Rep m bag bs) (hother : Rep m other cs)
    (ho : m.Owned (addrs bs + (addrs cs + F))) (hne : other.isEmpty m = false) :
    ∃ x m₁ other' m' bag' bs' cs', other.remove m = some (x, m₁, other') ∧
      bag.add malloc m₁ x = some (m', bag') ∧ Rep m' bag' bs' ∧ Rep m' other' cs' ∧
      m'.Owned (addrs bs' + (addrs cs' + F)) ∧ m.Kept m' F ∧ Added x bs bs' ∧
      Removed x cs cs' := by
  -- the element leaves the other bag
  have ho₁ : m.Owned (addrs cs + (addrs bs + F)) := by
    rw [add_left_comm]
    exact ho
  obtain ⟨x, m₁, other', cs', hremove, hl₁, hremoved⟩ := hother.remove ho₁ hne
  -- and is put into the bag
  have hrep₁ : Rep m₁ bag bs := h.kept hl₁.kept (Multiset.le_add_right ..)
  have ho₂ : m₁.Owned (addrs bs + (addrs cs' + F)) := by
    rw [add_left_comm]
    exact hl₁.owned
  obtain ⟨m', bag', bs', hadd, hl₂, hadded⟩ := hrep₁.add malloc ho₂ x
  have hother' : Rep m' other' cs' := hl₁.rep.kept hl₂.kept (Multiset.le_add_right ..)
  exact ⟨x, m₁, other', m', bag', bs', cs', hremove, hadd, hl₂.rep, hother', hl₂.owned,
    (hl₁.kept.mono (Multiset.le_add_left ..)).trans (hl₂.kept.mono (Multiset.le_add_left ..)),
    hadded, hremoved⟩

omit [DecidableEq A] in
/-- No block is new when an element is removed. -/
theorem Removed.addrs_le {x : T} (h : Removed x bs cs) : addrs cs ≤ addrs bs := by
  cases h with
  | here a d fs => exact le_rfl
  | behind b a d fs => exact Multiset.le_cons_self ..

/-- The elements of a bag move to another one, and a single block is left. -/
theorem Rep.moveRest (malloc : Malloc A) (h : Rep m bag bs) (hother : Rep m other cs)
    (ho : m.Owned (addrs bs + (addrs cs + F))) :
    ∃ m' bag' other' bs' c, c ∈ addrs cs ∧
      Settles (fun fuel => Bag.moveRest malloc fuel m bag other) (m', bag', other') ∧
      Rep m' bag' bs' ∧ Rep m' other' [(c, [])] ∧
      m'.Owned (addrs bs' + (addrs [(c, ([] : List T))] + F)) ∧
      m.Kept m' F ∧ contents bs' = contents bs + contents cs := by
  induction hn : (contents cs).card generalizing m bag other bs cs with
  | zero =>
    -- the other bag is empty, with its one block
    have hc : contents cs = 0 := Multiset.card_eq_zero.mp hn
    have hempty : other.isEmpty m = true := by
      rw [hother.isEmpty_iff]
      exact hother.eq_singleton hc
    have hcs : cs = [(other.head, [])] := hother.isEmpty_iff.mp hempty
    subst hcs
    refine ⟨m, bag, other, bs, other.head, by simp, .of_succ (.of_forall fun fuel => ?_), h, hother,
      ho, .refl, ?_⟩
    · rw [Bag.moveRest, if_pos hempty]
      rfl
    · rw [hc, add_zero]
  | succ n ih =>
    have hempty : other.isEmpty m = false := by
      rw [Bool.eq_false_iff, ne_eq, hother.isEmpty_iff]
      rintro rfl
      simp at hn
    -- one element is passed on, and the rest follows by induction
    obtain ⟨x, m₁, other₁, m₂, bag₁, bs₁, cs₁, hremove, hadd, hrep₁, hother₁, ho₁, hk₁, hadded,
      hremoved⟩ := h.pass malloc hother ho hempty
    have hcontents := hremoved.contents
    rw [hcontents, Multiset.card_cons] at hn
    obtain ⟨m', bag', other', bs', c, hc, hrest, hrep', hother', ho', hk', hc'⟩ :=
      ih hrep₁ hother₁ ho₁ (Nat.succ.inj hn)
    refine ⟨m', bag', other', bs', c, Multiset.mem_of_le hremoved.addrs_le hc, .of_succ ?_, hrep',
      hother', ho', hk₁.trans hk', ?_⟩
    · filter_upwards [hrest] with fuel hfuel
      rw [Bag.moveRest, hempty]
      simp only [hremove, hadd, Option.bind_eq_bind, Option.bind_some]
      exact hfuel
    · rw [hc', hadded.contents, hcontents, Multiset.cons_add, Multiset.add_cons]

/-- **`appendMoveAll`**: everything moves. -/
theorem Rep.appendMoveAll (malloc : Malloc A) (h : Rep m bag bs) (hother : Rep m other cs)
    (ho : m.Owned (addrs bs + (addrs cs + F))) :
    ∃ m' bag' other' bs', Settles (fun fuel => bag.appendMoveAll malloc fuel m other)
        (m', bag', other') ∧
      Rep m' bag' bs' ∧ Rep m' other' [(other.head, [])] ∧
      m'.Owned (addrs bs' + (addrs [(other.head, ([] : List T))] + F)) ∧ m.Kept m' F ∧
      contents bs' = contents bs + contents cs := by
  obtain ⟨d, fs, rfl⟩ := hother.exists_cons
  -- all blocks but the head have no predecessor block but the head
  have hfirst : Rep m other ([] ++ (other.head, d) :: fs) := hother
  obtain ⟨m₁, bag₁, other₁, hmove, hrep₁, hother₁, ho₁, hk₁⟩ := h.appendMoveFullBlocks hfirst ho
  obtain ⟨m₂, bag₂, other₂, bs₂, c, hmem, hrest, hrep₂, hother₂, ho₂, hk₂, hc⟩ :=
    hrep₁.moveRest malloc hother₁ ho₁
  obtain rfl : c = other.head := by simpa using hmem
  refine ⟨m₂, { bag₂ with sizeInBlocks := bs₂.length }, other₂, bs₂, ?_,
    ⟨⟨hrep₂.chain, hrep₂.tail, rfl, hrep₂.full⟩, hrep₂.head_lt⟩, hother₂, ho₂, hk₁.trans hk₂, ?_⟩
  · filter_upwards [hmove, hrest, hrep₂.chain.computeSizeInBlocks] with fuel hm hr hs
    unfold Bag.appendMoveAll
    simp only [hm, hr, hs, Option.bind_eq_bind, Option.bind_some]
    rfl
  · rw [hc, contents_append, contents_cons, add_assoc, add_comm (contents fs)]
    simp

/-! ### Beginning, clearing and the end -/

/-- **The constructor** makes an empty bag. -/
theorem Mem.Owned.new (malloc : Malloc A) (ho : m.Owned F) :
    ∃ m' bag, Bag.new malloc m = (m', bag) ∧ Leaves m F m' bag [(bag.head, [])] := by
  obtain ⟨b, m', halloc, ho', hnext, hdata, hrest⟩ := ho.allocateBlock malloc none
  unfold Bag.new
  rw [halloc]
  refine ⟨m', ⟨b, b, 1⟩, rfl, ⟨⟨⟨⟨rfl, hdata, hnext⟩, rfl, rfl, ?_⟩, ?_⟩, ?_, ?_⟩⟩
  · rintro c hc
    cases hc
  · rintro c hc
    obtain rfl := Option.some.inj hc
    exact Nat.pos_of_ne_zero (by decide)
  · rw [addrs_cons, addrs_nil, Multiset.cons_add, Multiset.zero_add]
    exact ho'
  · intro c hc
    refine hrest c ?_
    rintro rfl
    exact (Multiset.nodup_cons.mp ho'.nodup).1 hc

theorem Chained.clearAll (h : Chained m p bs none) (ho : m.Owned (addrs bs + F)) :
    ∃ m', Settles (fun fuel => Bag.clearAll fuel m p) m' ∧ m'.Owned F ∧ m.Kept m' F := by
  induction bs generalizing m p with
  | nil =>
    obtain rfl : p = none := h
    rw [addrs_nil, zero_add] at ho
    exact ⟨m, .of_succ (.of_forall fun fuel => rfl), ho, .refl⟩
  | cons b bs ih =>
    obtain ⟨a, d⟩ := b
    have hnodup := h.nodup
    obtain ⟨rfl, -, hrest⟩ := h
    rw [addrs_cons] at hnodup
    have ha : a ∉ addrs bs := (Multiset.nodup_cons.mp hnodup).1
    have haF : a ∉ F := ho.apart (mem_addrs_cons.mpr (.inl rfl))
    rw [addrs_cons, Multiset.cons_add] at ho
    have ho₁ := ho.setData (d := []) (Multiset.mem_cons_self ..)
    obtain ⟨m₁, hdealloc, ho₂, hn, hdat⟩ := ho₁.deallocateBlock Mem.data_setData_self
    rw [Mem.next_setData] at hn
    have hkeep : ∀ c, c ≠ a → m₁.next c = m.next c ∧ m₁.data c = m.data c := fun c hc =>
      ⟨congrFun hn c, (congrFun hdat c).trans (Mem.data_setData_of_ne hc)⟩
    have hchain : Chained m₁ (m.next a) bs none := hrest.congr fun c hc =>
      hkeep c fun heq => ha (heq ▸ hc)
    obtain ⟨m', hclear, ho', hk'⟩ := ih hchain ho₂
    refine ⟨m', .of_succ ?_, ho', Mem.Kept.trans (fun c hc => ?_) hk'⟩
    · filter_upwards [hclear] with fuel hfuel
      rw [Bag.clearAll, hdealloc]
      exact hfuel
    · exact hkeep c fun heq => haF (heq ▸ hc)

/-- **`clearWithoutFreeingElements`** leaves an empty bag. -/
theorem Rep.clearWithoutFreeingElements (h : Rep m bag bs) (ho : m.Owned (addrs bs + F)) :
    ∃ m' bag', Settles (fun fuel => bag.clearWithoutFreeingElements fuel m) (m', bag') ∧
      Leaves m F m' bag' [(bag.head, [])] := by
  obtain ⟨d, fs, rfl⟩ := h.exists_cons
  have hhead : bag.head ∉ F := ho.apart (mem_addrs_cons.mpr (.inl rfl))
  have ho₁ : m.Owned (addrs fs + (bag.head ::ₘ F)) := by
    rw [Multiset.add_cons, ← Multiset.cons_add]
    exact ho
  obtain ⟨m₁, hclear, ho₂, hk⟩ := h.chain.2.2.clearAll ho₁
  have hmem : bag.head ∈ bag.head ::ₘ F := Multiset.mem_cons_self ..
  refine ⟨(m₁.setNext bag.head none).setData bag.head [],
    { bag with tail := bag.head, sizeInBlocks := 1 }, ?_,
    ⟨⟨⟨⟨rfl, ?_, ?_⟩, rfl, rfl, ?_⟩, ?_⟩, ?_, ?_⟩⟩
  · filter_upwards [hclear] with fuel hfuel
    unfold Bag.clearWithoutFreeingElements
    rw [hfuel]
    rfl
  · exact Mem.data_setData_self
  · show ((m₁.setNext bag.head none).setData bag.head []).next bag.head = none
    rw [Mem.next_setData, Mem.next_setNext, update_self]
  · intro c hc
    cases hc
  · rintro c hc
    obtain rfl := Option.some.inj hc
    exact Nat.pos_of_ne_zero (by decide)
  · rw [addrs_cons, addrs_nil, Multiset.cons_add, Multiset.zero_add]
    exact ho₂.setNext.setData hmem
  · intro c hc
    have hne : c ≠ bag.head := fun heq => hhead (heq ▸ hc)
    obtain ⟨hn, hdat⟩ := hk c (Multiset.mem_cons_of_mem hc)
    rw [Mem.next_setData, Mem.next_setNext, update_of_ne hne, Mem.data_setData_of_ne hne,
      Mem.data_setNext]
    exact ⟨hn, hdat⟩

/-- **The destructor** of an empty bag gives its block back. -/
theorem Rep.destroy (h : Rep m bag [(a, [])]) (ho : m.Owned (addrs [(a, ([] : List T))] + F)) :
    ∃ m', Settles (fun fuel => bag.destroy fuel m) m' ∧ m'.Owned F ∧ m.Kept m' F := by
  obtain ⟨_, _, heq⟩ := h.exists_cons
  cases heq
  rw [addrs_cons, addrs_nil, Multiset.cons_add, Multiset.zero_add] at ho
  obtain ⟨m', hdealloc, ho', hn, hdat⟩ := ho.deallocateBlock h.chain.2.1
  have hnone : m.next bag.head = none := h.chain.2.2
  refine ⟨m', .of_succ (.of_succ (.of_forall fun fuel => ?_)), ho', fun c _ =>
    ⟨congrFun hn c, congrFun hdat c⟩⟩
  unfold Bag.destroy
  rw [if_pos (h.isEmpty_iff.mpr rfl), Bag.deallocateAll, hdealloc, hnone]
  rfl

end Blockbag

end PopSetbench

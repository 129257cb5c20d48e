import PopSetbench.Common.BlockbagMoves
import PopSetbench.Library.Run
import PopSetbench.Library.Totals

/-!
# Bags that share a pool

Any number of bags get their blocks from one pool and pass elements and whole blocks to each other.
A step is a call of one operation on one bag, or on two different ones, that passes its assertions.

`Holds s bs` says that the bags consist of the blocks `bs` and that every allocated block is in one
place: in the pool, in one bag, or taken out by `removeFullBlock`. It is kept by every step, and
what is in the bags changes as the calls say (`Call.Takes`).
-/

namespace PopSetbench

namespace Blockbag

open Function

variable {ι A T : Type}

/-- The calls. -/
inductive Call (ι A T : Type)
  /-- `new blockbag` -/
  | new (i : ι)
  /-- `delete` -/
  | delete (i : ι)
  | add (i : ι) (obj : T)
  | remove (i : ι)
  | erase (i : ι) (curr : A) (ix : ℕ)
  | addFullBlock (i : ι) (b : A)
  | removeFullBlock (i : ι)
  /-- Bag `i` takes blocks of bag `j`. -/
  | appendMoveFullBlocks (i j : ι) (predecessor : A)
  /-- Bag `i` takes all of bag `j`. -/
  | appendMoveAll (i j : ι)
  | clear (i : ι)

/-- What a call returns. -/
inductive Result (A T : Type)
  | done
  | flag (b : Bool)
  | element (obj : T)
  | block (b : Option A)

/-- The bags that a call is about. -/
def Call.bags : Call ι A T → List ι
  | .new i | .delete i | .add i _ | .remove i | .erase i _ _ | .addFullBlock i _
  | .removeFullBlock i | .clear i => [i]
  | .appendMoveFullBlocks i j _ | .appendMoveAll i j => [i, j]

/-- The bags. -/
structure State (ι A T : Type) where
  mem : Mem A T
  bags : ι → Option (Bag A)
  /-- The blocks that were taken out of a bag. -/
  loose : List A

/-- The block is one of the bag. -/
def Bag.HasBlock (m : Mem A T) (bag : Bag A) (a : A) : Prop :=
  ∃ l l', Segment m.next (some bag.head) (l ++ a :: l') none

section

variable [Fintype ι] [DecidableEq ι] {bs : ι → List (A × List T)} {i j : ι}
  {b' c' : List (A × List T)} {out into : Multiset T}

/-- What is in the bags, when one of them changes. -/
theorem totalOf_contents_update (hc : contents b' + out = contents (bs i) + into) :
    totalOf contents (update bs i b') + out = totalOf contents bs + into := by
  obtain ⟨r, htotal, hupdate, -⟩ := exists_rest contents bs i
  calc totalOf contents (update bs i b') + out
      = (contents b' + out) + r := by rw [hupdate, add_right_comm]
    _ = (contents (bs i) + into) + r := by rw [hc]
    _ = totalOf contents bs + into := by rw [htotal, add_right_comm]

/-- What is in the bags, when one of them passes elements to another. -/
theorem totalOf_contents_pair (hij : i ≠ j)
    (hc : contents b' + contents c' = contents (bs i) + contents (bs j)) :
    totalOf contents (update (update bs i b') j c') = totalOf contents bs := by
  obtain ⟨r, htotal, hupdate, -⟩ := exists_rest_pair contents bs hij
  calc totalOf contents (update (update bs i b') j c')
      = (contents b' + contents c') + r := by rw [hupdate, add_assoc]
    _ = (contents (bs i) + contents (bs j)) + r := by rw [hc]
    _ = totalOf contents bs := by rw [htotal, add_assoc]

end

variable [DecidableEq A] [DecidableEq ι]

/-- The memory and one bag change. -/
def State.put (s : State ι A T) (m : Mem A T) (i : ι) (bag : Option (Bag A)) : State ι A T :=
  { s with mem := m, bags := update s.bags i bag }

/-- The steps: a call returns. -/
inductive Step (malloc : Malloc A) (s : State ι A T) :
    Call ι A T → Result A T → State ι A T → Prop
  | new {i m bag} (hi : s.bags i = none) (h : Bag.new malloc s.mem = (m, bag)) :
      Step malloc s (.new i) .done (s.put m i (some bag))
  | delete {i m bag} (hi : s.bags i = some bag)
      (h : Settles (fun fuel => bag.destroy fuel s.mem) m) :
      Step malloc s (.delete i) .done (s.put m i none)
  | add {i obj m bag bag'} (hi : s.bags i = some bag)
      (h : bag.add malloc s.mem obj = some (m, bag')) :
      Step malloc s (.add i obj) .done (s.put m i (some bag'))
  | remove {i obj m bag bag'} (hi : s.bags i = some bag)
      (h : bag.remove s.mem = some (obj, m, bag')) :
      Step malloc s (.remove i) (.element obj) (s.put m i (some bag'))
  | erase {i curr ix flag m bag bag'} (hi : s.bags i = some bag)
      (hcurr : bag.HasBlock s.mem curr)
      (h : bag.erase s.mem curr ix = some (flag, m, bag')) :
      Step malloc s (.erase i curr ix) (.flag flag) (s.put m i (some bag'))
  | addFullBlock {i b m bag bag'} (hi : s.bags i = some bag) (hb : b ∈ s.loose)
      (h : bag.addFullBlock s.mem b = some (m, bag')) :
      Step malloc s (.addFullBlock i b) .done
        { s.put m i (some bag') with loose := s.loose.erase b }
  | removeFullBlock {i b m bag bag'} (hi : s.bags i = some bag)
      (h : bag.removeFullBlock s.mem = some (b, m, bag')) :
      Step malloc s (.removeFullBlock i) (.block b)
        { s.put m i (some bag') with loose := b.toList ++ s.loose }
  | appendMoveFullBlocks {i j predecessor m bag other bag' other'} (hij : i ≠ j)
      (hi : s.bags i = some bag) (hj : s.bags j = some other)
      (hpred : other.HasBlock s.mem predecessor)
      (h : Settles (fun fuel => bag.appendMoveFullBlocks fuel s.mem other predecessor)
        (m, bag', other')) :
      Step malloc s (.appendMoveFullBlocks i j predecessor) .done
        ((s.put m i (some bag')).put m j (some other'))
  | appendMoveAll {i j m bag other bag' other'} (hij : i ≠ j) (hi : s.bags i = some bag)
      (hj : s.bags j = some other)
      (h : Settles (fun fuel => bag.appendMoveAll malloc fuel s.mem other) (m, bag', other')) :
      Step malloc s (.appendMoveAll i j) .done ((s.put m i (some bag')).put m j (some other'))
  | clear {i m bag bag'} (hi : s.bags i = some bag)
      (h : Settles (fun fuel => bag.clearWithoutFreeingElements fuel s.mem) (m, bag')) :
      Step malloc s (.clear i) .done (s.put m i (some bag'))

/-- What has to hold for a call: what it asserts, and that blocks are blocks of the bag and indices
those of elements. -/
def Call.Pre (s : State ι A T) : Call ι A T → Prop
  | .new i => s.bags i = none
  | .delete i => ∃ bag, s.bags i = some bag ∧ bag.isEmpty s.mem = true
  | .add i _ | .removeFullBlock i | .clear i => ∃ bag, s.bags i = some bag
  | .remove i => ∃ bag, s.bags i = some bag ∧ bag.isEmpty s.mem = false
  | .erase i curr ix => ∃ bag, s.bags i = some bag ∧ bag.HasBlock s.mem curr ∧
      ix < (s.mem.data curr).length
  | .addFullBlock i b => ∃ bag, s.bags i = some bag ∧ b ∈ s.loose
  | .appendMoveFullBlocks i j predecessor => i ≠ j ∧ ∃ bag other, s.bags i = some bag ∧
      s.bags j = some other ∧ other.HasBlock s.mem predecessor
  | .appendMoveAll i j => i ≠ j ∧ ∃ bag other, s.bags i = some bag ∧ s.bags j = some other

/-- There are no bags yet, and the pool is empty. -/
structure State.Initial (s : State ι A T) : Prop where
  pool : s.mem.pool = []
  allocated : s.mem.allocated = ∅
  bags : ∀ i, s.bags i = none
  loose : s.loose = []

/-- The bags `ι` on one pool. -/
def system (ι A T : Type) [DecidableEq A] [DecidableEq ι] (malloc : Malloc A) :
    Lts (State ι A T) (Call ι A T × Result A T) where
  init := State.Initial
  step s a s' := Step malloc s a.1 a.2 s'

/-! ### The invariant -/

variable [Fintype ι]

/-- **The invariant**: the bags are valid and consist of the blocks `bs`, and every allocated block
is in the pool, in one bag, or loose. -/
structure Holds (s : State ι A T) (bs : ι → List (A × List T)) : Prop where
  rep : ∀ i bag, s.bags i = some bag → Rep s.mem bag (bs i)
  missing : ∀ i, s.bags i = none → bs i = []
  owned : s.mem.Owned (totalOf addrs bs + ↑s.loose)
  loose : ∀ a ∈ s.loose, (s.mem.data a).length = blockSize ∧ s.mem.next a = none

/-- What a call takes out of the bags, and what it puts into them. -/
def Call.Takes (s : State ι A T) (bs : ι → List (A × List T)) :
    Call ι A T → Result A T → Multiset T → Multiset T → Prop
  | .add _ obj, _, out, into => out = 0 ∧ into = {obj}
  | .remove _, .element obj, out, into => out = {obj} ∧ into = 0
  | .erase _ curr ix, _, out, into =>
    (∃ obj, out = {obj} ∧ ∀ x, (s.mem.data curr)[ix]? = some x → obj = x) ∧ into = 0
  | .addFullBlock _ b, _, out, into => out = 0 ∧ into = ↑(s.mem.data b)
  | .removeFullBlock _, .block (some b), out, into => out = ↑(s.mem.data b) ∧ into = 0
  | .clear i, _, out, into => out = contents (bs i) ∧ into = 0
  | _, _, out, into => out = 0 ∧ into = 0

section

variable {malloc : Malloc A} {s s' : State ι A T} {bs : ι → List (A × List T)} {i j : ι}

omit [DecidableEq A] in
/-- **One bag changes**, and the loose blocks may: the blocks of the others are a frame. -/
theorem Holds.part (h : Holds s bs) (i : ι) :
    ∃ R : Multiset A, s.mem.Owned (addrs (bs i) + (R + (↑s.loose : Multiset A))) ∧
      ∀ m' (obag : Option (Bag A)) b' (loose : List A),
        (∀ bag, obag = some bag → Rep m' bag b') → (obag = none → b' = []) →
        m'.Owned (addrs b' + (R + (↑loose : Multiset A))) → s.mem.Kept m' R →
        (∀ a ∈ loose, (m'.data a).length = blockSize ∧ m'.next a = none) →
        Holds { s.put m' i obag with loose := loose } (update bs i b') := by
  obtain ⟨R, htotal, hupdate, hrest⟩ := exists_rest addrs bs i
  refine ⟨R, ?_, ?_⟩
  · rw [← add_assoc, ← htotal]
    exact h.owned
  · intro m' obag b' loose hrep hnone ho hk hloose
    refine ⟨fun k bag hk' => ?_, fun k hk' => ?_, ?_, hloose⟩
    · by_cases hki : k = i
      · subst hki
        rw [update_self]
        have hbag : update s.bags k obag k = some bag := hk'
        rw [update_self] at hbag
        exact hrep bag hbag
      · rw [update_of_ne hki]
        obtain ⟨r, hr⟩ := hrest k hki
        refine (h.rep k bag ((update_of_ne hki ..).symm.trans hk')).kept hk ?_
        rw [hr]
        exact Multiset.le_add_right ..
    · by_cases hki : k = i
      · subst hki
        rw [update_self]
        have hbag : update s.bags k obag k = none := hk'
        rw [update_self] at hbag
        exact hnone hbag
      · rw [update_of_ne hki]
        exact h.missing k ((update_of_ne hki ..).symm.trans hk')
    · show m'.Owned (totalOf addrs (update bs i b') + ↑loose)
      rw [hupdate, add_assoc]
      exact ho

omit [DecidableEq A] in
/-- One bag changes to another one. -/
theorem Holds.one (h : Holds s bs) (i : ι) :
    ∃ F, s.mem.Owned (addrs (bs i) + F) ∧ ∀ {m' bag' b'}, Leaves s.mem F m' bag' b' →
      Holds (s.put m' i (some bag')) (update bs i b') := by
  obtain ⟨R, ho, hpart⟩ := h.part i
  refine ⟨_, ho, fun hl =>
    hpart _ _ _ _ ?_ ?_ hl.owned (hl.kept.mono (Multiset.le_add_right ..)) ?_⟩
  · rintro bag ⟨⟩
    exact hl.rep
  · intro hnone
    cases hnone
  · intro a ha
    obtain ⟨hn, hd⟩ := hl.kept a (Multiset.mem_add.mpr (.inr ha))
    rw [hn, hd]
    exact h.loose a ha

omit [DecidableEq A] in
/-- **Two bags change.** -/
theorem Holds.pair (h : Holds s bs) (hij : i ≠ j) :
    ∃ F, s.mem.Owned (addrs (bs i) + (addrs (bs j) + F)) ∧ ∀ {m' bag bag' b' c'},
      Rep m' bag b' → Rep m' bag' c' → m'.Owned (addrs b' + (addrs c' + F)) → s.mem.Kept m' F →
      Holds ((s.put m' i (some bag)).put m' j (some bag')) (update (update bs i b') j c') := by
  obtain ⟨R, htotal, hupdate, hrest⟩ := exists_rest_pair addrs bs hij
  refine ⟨R + ↑s.loose, ?_, fun {m' bag bag' b' c'} hrep hrep' ho hk => ?_⟩
  · -- what the two bags consist of is owned, and so is the rest
    have howned := h.owned
    rw [htotal, add_assoc, add_assoc] at howned
    exact howned
  · have hbags : ((s.put m' i (some bag)).put m' j (some bag')).bags =
        update (update s.bags i (some bag)) j (some bag') := rfl
    refine ⟨fun k b hk' => ?_, fun k hk' => ?_, ?_, fun a ha => ?_⟩
    · -- a bag keeps what it represents: the two have been given theirs, the others are not touched
      rw [hbags] at hk'
      by_cases hkj : k = j
      · subst hkj
        rw [update_self] at hk' ⊢
        obtain rfl := Option.some.inj hk'
        exact hrep'
      rw [update_of_ne hkj] at hk' ⊢
      by_cases hki : k = i
      · subst hki
        rw [update_self] at hk' ⊢
        obtain rfl := Option.some.inj hk'
        exact hrep
      rw [update_of_ne hki] at hk' ⊢
      obtain ⟨r, hr⟩ := hrest k hki hkj
      refine (h.rep k b hk').kept hk ?_
      rw [hr, add_assoc]
      exact Multiset.le_add_right ..
    · -- where there was no bag there is none
      rw [hbags] at hk'
      by_cases hkj : k = j
      · subst hkj
        rw [update_self] at hk'
        cases hk'
      rw [update_of_ne hkj] at hk' ⊢
      by_cases hki : k = i
      · subst hki
        rw [update_self] at hk'
        cases hk'
      rw [update_of_ne hki] at hk' ⊢
      exact h.missing k hk'
    · -- the rest stays the rest
      show m'.Owned (totalOf addrs (update (update bs i b') j c') + ↑s.loose)
      rw [hupdate, add_assoc, add_assoc]
      exact ho
    · -- the loose blocks are not touched
      obtain ⟨hn, hd⟩ := hk a (Multiset.mem_add.mpr (.inr ha))
      show (m'.data a).length = blockSize ∧ m'.next a = none
      rw [hn, hd]
      exact h.loose a ha

omit [DecidableEq A] in
/-- A block of a bag is one of those it consists of. -/
theorem Rep.of_hasBlock {m : Mem A T} {bag : Bag A} {l : List (A × List T)} {a : A}
    (h : Rep m bag l) (ha : bag.HasBlock m a) :
    ∃ cs fs, l = cs ++ (a, m.data a) :: fs := by
  obtain ⟨k, k', hk⟩ := ha
  have hl : l.map Prod.fst = k ++ a :: k' := h.chain.segment.eq_of_null hk
  obtain ⟨cs, fs', rfl, -, hfs⟩ := List.map_eq_append_iff.mp hl
  obtain ⟨⟨a', d⟩, fs, rfl, rfl, -⟩ := List.map_eq_cons_iff.mp hfs
  have hd : m.data a' = d := h.chain.data (List.mem_append.mpr (.inr List.mem_cons_self))
  rw [← hd]
  exact ⟨cs, fs, rfl⟩

/-- What a call has done: the bags are valid, and what was in them is there or was taken out. -/
def Call.Accounts (s : State ι A T) (bs : ι → List (A × List T)) (call : Call ι A T)
    (r : Result A T) (s' : State ι A T) : Prop :=
  ∃ bs' out into, Holds s' bs' ∧ call.Takes s bs r out into ∧
    totalOf contents bs' + out = totalOf contents bs + into ∧ ∀ k ∉ call.bags, bs' k = bs k

omit [DecidableEq A] in
/-- A call that is about one bag. -/
theorem Call.Accounts.of_update {call : Call ι A T} {r : Result A T} {out into : Multiset T}
    {b' : List (A × List T)} (hbags : call.bags = [i]) (hs' : Holds s' (update bs i b'))
    (htakes : call.Takes s bs r out into) (hc : contents b' + out = contents (bs i) + into) :
    call.Accounts s bs r s' := by
  refine ⟨update bs i b', out, into, hs', htakes, totalOf_contents_update hc, fun k hk => ?_⟩
  rw [hbags, List.mem_singleton] at hk
  exact update_of_ne hk ..

omit [DecidableEq A] in
/-- A call that is about two bags, which moves elements. -/
theorem Call.Accounts.of_pair {call : Call ι A T} {r : Result A T}
    {b' c' : List (A × List T)} (hij : i ≠ j) (hbags : call.bags = [i, j])
    (hs' : Holds s' (update (update bs i b') j c')) (htakes : call.Takes s bs r 0 0)
    (hc : contents b' + contents c' = contents (bs i) + contents (bs j)) :
    call.Accounts s bs r s' := by
  refine ⟨update (update bs i b') j c', 0, 0, hs', htakes, ?_, fun k hk => ?_⟩
  · rw [totalOf_contents_pair hij hc]
  · rw [hbags, List.mem_cons, List.mem_singleton, not_or] at hk
    rw [update_of_ne hk.2, update_of_ne hk.1]

/-- **A call accounts for everything.** -/
theorem Holds.accounts (h : Holds s bs) {call : Call ι A T} {r : Result A T}
    (hs : Step malloc s call r s') : call.Accounts s bs r s' := by
  cases hs with
  | @new i m bag hi hnew =>
    obtain ⟨F, ho, hone⟩ := h.one i
    rw [h.missing i hi, addrs_nil, zero_add] at ho
    obtain ⟨m', bag', heq, hl⟩ := ho.new malloc
    -- the new bag has one empty block
    obtain ⟨rfl, rfl⟩ := Prod.mk.inj (hnew.symm.trans heq)
    refine .of_update rfl (hone hl) ⟨rfl, rfl⟩ ?_
    rw [h.missing i hi]
    rfl
  | @delete i m bag hi hdel =>
    obtain ⟨R, ho, hpart⟩ := h.part i
    -- the assertion of the destructor: the bag has one empty block
    have hempty : bag.isEmpty s.mem = true := by
      by_contra hne
      obtain ⟨fuel, hfuel⟩ := hdel.exists
      simp [Bag.destroy, hne] at hfuel
    have hb := (h.rep i bag hi).isEmpty_iff.mp hempty
    have hrep : Rep s.mem bag [(bag.head, [])] := hb ▸ h.rep i bag hi
    rw [hb] at ho
    obtain ⟨m', hset, ho', hk⟩ := hrep.destroy ho
    obtain rfl := hdel.unique hset
    have hs' := hpart m none [] s.loose (by rintro bag ⟨⟩) (fun _ => rfl)
      (by rwa [addrs_nil, zero_add]) (hk.mono (Multiset.le_add_right ..)) fun a ha => by
        obtain ⟨hn, hd⟩ := hk a (Multiset.mem_add.mpr (.inr ha))
        rw [hn, hd]
        exact h.loose a ha
    refine .of_update rfl hs' ⟨rfl, rfl⟩ ?_
    rw [hb]
    rfl
  | @add i obj m bag bag' hi hadd =>
    obtain ⟨F, ho, hone⟩ := h.one i
    obtain ⟨m', bag'', b', heq, hl, hadded⟩ := (h.rep i bag hi).add malloc ho obj
    obtain ⟨rfl, rfl⟩ := Prod.mk.inj (Option.some.inj (hadd.symm.trans heq))
    refine .of_update rfl (hone hl) ⟨rfl, rfl⟩ ?_
    rw [hadded.contents, add_zero, add_comm, Multiset.singleton_add]
  | @remove i obj m bag bag' hi hrem =>
    obtain ⟨F, ho, hone⟩ := h.one i
    -- the assertion at the beginning: the bag is not empty
    have hne : bag.isEmpty s.mem = false := by
      rw [Bool.eq_false_iff]
      intro hempty
      rw [Bag.remove, if_pos hempty] at hrem
      cases hrem
    obtain ⟨x, m', bag'', b', heq, hl, hremoved⟩ := (h.rep i bag hi).remove ho hne
    obtain ⟨rfl, hrest⟩ := Prod.mk.inj (Option.some.inj (hrem.symm.trans heq))
    obtain ⟨rfl, rfl⟩ := Prod.mk.inj hrest
    refine .of_update rfl (hone hl) ⟨rfl, rfl⟩ ?_
    rw [hremoved.contents, add_zero, add_comm, Multiset.singleton_add]
  | @erase i curr ix flag m bag bag' hi hcurr herase =>
    obtain ⟨F, ho, hone⟩ := h.one i
    have hrep := h.rep i bag hi
    obtain ⟨cs, fs, hb⟩ := hrep.of_hasBlock hcurr
    have hmem : (curr, s.mem.data curr) ∈ bs i := by
      rw [hb]
      exact List.mem_append.mpr (.inr List.mem_cons_self)
    -- the assertions at the beginning: the block is not empty
    have hne : s.mem.data curr ≠ [] := by
      intro hempty
      rw [Bag.erase, if_pos (by simp [Mem.isBlockEmpty_iff.mpr hempty])] at herase
      cases herase
    obtain ⟨hnone, -⟩ | ⟨flag', m', bag'', b', heq, hl, herased⟩ := hrep.erase ho hmem hne ix
    · -- it does not fail, as the call has returned
      rw [hnone] at herase
      cases herase
    · obtain ⟨rfl, hrest⟩ := Prod.mk.inj (Option.some.inj (herase.symm.trans heq))
      obtain ⟨rfl, rfl⟩ := Prod.mk.inj hrest
      -- one element is taken out, that at `ix` where there is one
      obtain ⟨e, y, hmem', hc, hy⟩ := herased.contents
      have he : s.mem.data curr = e := hrep.chain.data hmem'
      refine .of_update rfl (hone hl) ⟨⟨y, rfl, ?_⟩, rfl⟩ ?_
      · intro z hz
        rw [he] at hz
        exact (hy z hz).symm
      · rw [hc, add_zero, add_comm, Multiset.singleton_add]
  | @addFullBlock i b m bag bag' hi hb hadd =>
    obtain ⟨R, ho, hpart⟩ := h.part i
    obtain ⟨hfull, hnext⟩ := h.loose b hb
    -- the block is loose and goes into the bag
    have hloose : (↑s.loose : Multiset A) = b ::ₘ ↑(s.loose.erase b) := by
      rw [← Multiset.coe_erase, Multiset.cons_erase hb]
    rw [hloose, Multiset.add_cons] at ho
    obtain ⟨m', bag'', heq, hl⟩ := (h.rep i bag hi).addFullBlock ho hfull hnext
    obtain ⟨rfl, rfl⟩ := Prod.mk.inj (Option.some.inj (hadd.symm.trans heq))
    have hs' := hpart m (some bag') _ (s.loose.erase b)
      (fun _ hbag => Option.some.inj hbag ▸ hl.rep) (fun hnone => nomatch hnone) hl.owned
      (hl.kept.mono (Multiset.le_add_right ..)) fun a ha => by
        obtain ⟨hn, hd⟩ := hl.kept a (Multiset.mem_add.mpr (.inr ha))
        rw [hn, hd]
        exact h.loose a (List.mem_of_mem_erase ha)
    refine .of_update rfl hs' ⟨rfl, rfl⟩ ?_
    rw [contents_append, contents_cons, contents_nil, add_zero, add_zero]
  | @removeFullBlock i b m bag bag' hi hrem =>
    obtain ⟨R, ho, hpart⟩ := h.part i
    have hrep := h.rep i bag hi
    obtain ⟨-, heq⟩ | ⟨b₁, a, d, fs, m', bag'', hb, heq, hrep', ho', hk, hnext, hd, hfull⟩ :=
      hrep.removeFullBlock ho
    · -- there is no block behind the second one
      obtain ⟨rfl, hrest⟩ := Prod.mk.inj (Option.some.inj (hrem.symm.trans heq))
      obtain ⟨rfl, rfl⟩ := Prod.mk.inj hrest
      have hs' := hpart _ (some bag') _ _ (fun _ hbag => Option.some.inj hbag ▸ hrep)
        (fun hnone => nomatch hnone) ho .refl h.loose
      exact .of_update rfl hs' ⟨rfl, rfl⟩ rfl
    · -- the block leaves the bag and is loose
      obtain ⟨rfl, hrest⟩ := Prod.mk.inj (Option.some.inj (hrem.symm.trans heq))
      obtain ⟨rfl, rfl⟩ := Prod.mk.inj hrest
      have hda : s.mem.data a = d := hrep.chain.data (by rw [hb]; simp)
      have hs' := hpart m (some bag') _ (a :: s.loose)
        (fun _ hbag => Option.some.inj hbag ▸ hrep') (fun hnone => nomatch hnone)
        (by rwa [← Multiset.cons_coe, Multiset.add_cons]) (hk.mono (Multiset.le_add_right ..))
        fun c hc => by
          obtain rfl | hc := List.mem_cons.mp hc
          · rw [hd]
            exact ⟨hfull, hnext⟩
          · obtain ⟨hn, hdat⟩ := hk c (Multiset.mem_add.mpr (.inr hc))
            rw [hn, hdat]
            exact h.loose c hc
      refine .of_update rfl hs' ⟨rfl, rfl⟩ ?_
      rw [hb, hda, contents_cons, contents_cons, contents_cons, add_zero, add_assoc,
        add_comm (contents fs)]
  | @appendMoveFullBlocks i j predecessor m bag other bag' other' hij hi hj hpred hmove =>
    obtain ⟨F, ho, hpair⟩ := h.pair hij
    have hother := h.rep j other hj
    obtain ⟨cs, fs, hc⟩ := hother.of_hasBlock hpred
    -- the other bag is split behind the predecessor
    rw [hc] at ho hother
    obtain ⟨m', bag'', other'', hset, hrep, hrep', ho', hk⟩ :=
      (h.rep i bag hi).appendMoveFullBlocks hother ho
    obtain ⟨rfl, hrest⟩ := Prod.mk.inj (hmove.unique hset)
    obtain ⟨rfl, rfl⟩ := Prod.mk.inj hrest
    refine .of_pair hij rfl (hpair hrep hrep' ho' hk) ⟨rfl, rfl⟩ ?_
    rw [hc]
    simp only [contents_append, contents_cons, contents_nil]
    abel
  | @appendMoveAll i j m bag other bag' other' hij hi hj hmove =>
    obtain ⟨F, ho, hpair⟩ := h.pair hij
    obtain ⟨m', bag'', other'', b', hset, hrep, hrep', ho', hk, hc⟩ :=
      (h.rep i bag hi).appendMoveAll malloc (h.rep j other hj) ho
    -- the other bag is left with one empty block
    obtain ⟨rfl, hrest⟩ := Prod.mk.inj (hmove.unique hset)
    obtain ⟨rfl, rfl⟩ := Prod.mk.inj hrest
    refine .of_pair hij rfl (hpair hrep hrep' ho' hk) ⟨rfl, rfl⟩ ?_
    rw [hc, contents_cons, contents_nil, Multiset.coe_nil, add_zero, add_zero]
  | @clear i m bag bag' hi hclear =>
    obtain ⟨F, ho, hone⟩ := h.one i
    obtain ⟨m', bag'', hset, hl⟩ := (h.rep i bag hi).clearWithoutFreeingElements ho
    -- what was in the bag is dropped, with its elements
    obtain ⟨rfl, rfl⟩ := Prod.mk.inj (hclear.unique hset)
    refine .of_update rfl (hone hl) ⟨rfl, rfl⟩ ?_
    rw [contents_cons, contents_nil, Multiset.coe_nil, add_zero, add_zero, zero_add]

/-- **A call that may be made returns.** -/
theorem Holds.progress (malloc : Malloc A) (h : Holds s bs) {call : Call ι A T}
    (hpre : call.Pre s) : ∃ r s', Step malloc s call r s' := by
  cases call with
  | new i => exact ⟨_, _, .new hpre rfl⟩
  | delete i =>
    -- the bag is empty, so its one block is freed
    obtain ⟨bag, hi, hempty⟩ := hpre
    obtain ⟨F, ho, -⟩ := h.one i
    have hb := (h.rep i bag hi).isEmpty_iff.mp hempty
    have hrep : Rep s.mem bag [(bag.head, [])] := hb ▸ h.rep i bag hi
    rw [hb] at ho
    obtain ⟨m', hset, -⟩ := hrep.destroy ho
    exact ⟨_, _, .delete hi hset⟩
  | add i obj =>
    obtain ⟨bag, hi⟩ := hpre
    obtain ⟨F, ho, -⟩ := h.one i
    obtain ⟨m', bag', b', heq, -⟩ := (h.rep i bag hi).add malloc ho obj
    exact ⟨_, _, .add hi heq⟩
  | remove i =>
    obtain ⟨bag, hi, hne⟩ := hpre
    obtain ⟨F, ho, -⟩ := h.one i
    obtain ⟨x, m', bag', b', heq, -⟩ := (h.rep i bag hi).remove ho hne
    exact ⟨_, _, .remove hi heq⟩
  | erase i curr ix =>
    obtain ⟨bag, hi, hcurr, hix⟩ := hpre
    obtain ⟨F, ho, -⟩ := h.one i
    obtain ⟨cs, fs, hb⟩ := (h.rep i bag hi).of_hasBlock hcurr
    have hmem : (curr, s.mem.data curr) ∈ bs i := by
      rw [hb]
      exact List.mem_append.mpr (.inr List.mem_cons_self)
    -- there is an element at `ix`, so the call does not fail at an assertion
    obtain ⟨-, hle⟩ | ⟨flag, m', bag', b', heq, -⟩ :=
      (h.rep i bag hi).erase ho hmem (List.ne_nil_of_length_pos (Nat.zero_lt_of_lt hix)) ix
    · exact absurd hix (Nat.not_lt.mpr hle)
    · exact ⟨_, _, .erase hi hcurr heq⟩
  | addFullBlock i b =>
    obtain ⟨bag, hi, hb⟩ := hpre
    obtain ⟨hfull, hnext⟩ := h.loose b hb
    exact ⟨_, _, .addFullBlock hi hb (if_pos (by simp [Mem.isFull_iff.mpr hfull, hnext]))⟩
  | removeFullBlock i =>
    obtain ⟨bag, hi⟩ := hpre
    obtain ⟨F, ho, -⟩ := h.one i
    -- it returns a block or null
    obtain ⟨-, heq⟩ | ⟨b₁, a, d, fs, m', bag', -, heq, -⟩ := (h.rep i bag hi).removeFullBlock ho
    · exact ⟨_, _, .removeFullBlock hi heq⟩
    · exact ⟨_, _, .removeFullBlock hi heq⟩
  | appendMoveFullBlocks i j predecessor =>
    obtain ⟨hij, bag, other, hi, hj, hpred⟩ := hpre
    obtain ⟨F, ho, -⟩ := h.pair hij
    have hother := h.rep j other hj
    obtain ⟨cs, fs, hc⟩ := hother.of_hasBlock hpred
    rw [hc] at ho hother
    obtain ⟨m', bag', other', hset, -⟩ := (h.rep i bag hi).appendMoveFullBlocks hother ho
    exact ⟨_, _, .appendMoveFullBlocks hij hi hj hpred hset⟩
  | appendMoveAll i j =>
    obtain ⟨hij, bag, other, hi, hj⟩ := hpre
    obtain ⟨F, ho, -⟩ := h.pair hij
    obtain ⟨m', bag', other', b', hset, -⟩ :=
      (h.rep i bag hi).appendMoveAll malloc (h.rep j other hj) ho
    exact ⟨_, _, .appendMoveAll hij hi hj hset⟩
  | clear i =>
    obtain ⟨bag, hi⟩ := hpre
    obtain ⟨F, ho, -⟩ := h.one i
    obtain ⟨m', bag', hset, -⟩ := (h.rep i bag hi).clearWithoutFreeingElements ho
    exact ⟨_, _, .clear hi hset⟩

omit [DecidableEq A] [DecidableEq ι] in
theorem State.Initial.holds (h : s.Initial) : Holds s fun _ => [] where
  rep i bag hi := by
    rw [h.bags i] at hi
    cases hi
  missing i _ := rfl
  owned := by
    refine ⟨?_, fun a ha => ?_⟩
    · rw [h.pool, h.allocated, h.loose, totalOf_of_forall fun _ => addrs_nil]
      rfl
    · rw [h.pool] at ha
      cases ha
  loose a ha := by
    rw [h.loose] at ha
    cases ha

omit [Fintype ι] in
/-- A call returns in a run. -/
theorem reach_call (h : (system ι A T malloc).Reachable s) (call : Call ι A T)
    (hs : Step malloc s call r s') : (system ι A T malloc).Reachable s' :=
  h.step (a := (call, r)) hs

/-- The invariant holds in every run. -/
theorem Holds.of_reachable (h : (system ι A T malloc).Reachable s) : ∃ bs, Holds s bs := by
  refine h.invariant (P := fun s => ∃ bs, Holds s bs) (fun s hs => ⟨_, State.Initial.holds hs⟩) ?_
  rintro s ⟨call, r⟩ s' - ⟨bs, hbs⟩ - hs
  obtain ⟨bs', out, into, hbs', -⟩ := hbs.accounts hs
  exact ⟨bs', hbs'⟩

/-- **Bags on one pool, in every run.** They are valid, `validate` finds so and the two sizes agree;
every call that may be made returns; and a call changes what is in all bags together by what it
takes out or puts in, what is in the other bags not at all, and no block is lost or in two
places. -/
theorem blockbag_conserves (h : (system ι A T malloc).Reachable s) :
    ∃ bs, Holds s bs ∧
      (∀ i bag, s.bags i = some bag → Settles (fun fuel => bag.validate fuel s.mem) true ∧
        Settles (fun fuel => bag.computeSize fuel s.mem) (bag.computeSizeFast s.mem)) ∧
      (∀ call : Call ι A T, call.Pre s → ∃ r s', Step malloc s call r s') ∧
      ∀ (call : Call ι A T) r s', Step malloc s call r s' → call.Accounts s bs r s' := by
  obtain ⟨bs, hbs⟩ := Holds.of_reachable h
  exact ⟨bs, hbs, fun i bag hi => ⟨(hbs.rep i bag hi).validate, (hbs.rep i bag hi).computeSize⟩,
    fun call hpre => hbs.progress malloc hpre, fun call r s' hs => hbs.accounts hs⟩

end

/-- There are no bags. -/
def noBags : State (Fin 2) ℕ ℕ where
  mem := ⟨fun _ => ⟨none, []⟩, [], ∅, 0⟩
  bags _ := none
  loose := []

/-- Two bags get elements, one of each is taken out again, and bag `0` takes the rest. -/
theorem blockbag_conserves_append : ∃ s : State (Fin 2) ℕ ℕ,
    s.mem.data 1 = [8, 9] ∧ s.mem.data 2 = [] ∧ ∃ bs, Holds s bs ∧
      (∀ i bag, s.bags i = some bag → Settles (fun fuel => bag.validate fuel s.mem) true ∧
        Settles (fun fuel => bag.computeSize fuel s.mem) (bag.computeSizeFast s.mem)) ∧
      (∀ call : Call (Fin 2) ℕ ℕ, call.Pre s → ∃ r s', Step numbers s call r s') ∧
      ∀ (call : Call (Fin 2) ℕ ℕ) r s', Step numbers s call r s' → call.Accounts s bs r s' := by
  have h : (system (Fin 2) ℕ ℕ numbers).Reachable noBags := .init ⟨rfl, rfl, fun _ => rfl, rfl⟩
  have h := reach_call h (.new 0) (.new rfl rfl)
  have h := reach_call h (.new 1) (.new rfl rfl)
  have h := reach_call h (.add 0 7) (.add rfl rfl)
  have h := reach_call h (.add 0 8) (.add rfl rfl)
  have h := reach_call h (.add 1 9) (.add rfl rfl)
  have h := reach_call h (.add 1 10) (.add rfl rfl)
  -- the first element of bag 0 and the last one of bag 1 are taken out
  have h := reach_call h (.erase 0 1 0) (.erase rfl ⟨[], [], rfl, rfl⟩ rfl)
  have h := reach_call h (.remove 1) (.remove rfl rfl)
  have h := reach_call h (.appendMoveAll 0 1) (.appendMoveAll (by decide) rfl rfl
    (Filter.eventually_atTop.mpr ⟨4, fun fuel hf => by
      obtain ⟨k, rfl⟩ := Nat.exists_eq_add_of_le' hf
      rfl⟩))
  exact ⟨_, rfl, rfl, blockbag_conserves h⟩

end Blockbag

end PopSetbench

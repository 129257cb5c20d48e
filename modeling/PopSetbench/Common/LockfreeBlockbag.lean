import PopSetbench.Library.Chain
import PopSetbench.Library.Run
import PopSetbench.Library.Totals
import Mathlib.Data.BitVec
import Mathlib.Data.Multiset.AddSub

/-!
# The shared stack of blocks

Model of `lockfreeblockbag` (lockfreeblockbag.h): a stack of blocks that are chained together by
their next pointers. The head is a pointer with a tag, both replaced by one double-width
compare-and-swap; the tag is a `long` and goes up by one with every successful one.

Every load, every store to a next pointer and every compare-and-swap is a step. A thread that holds
a block may do with its next pointer what it likes, so the pointer that `getBlock` reads through the
head that it has loaded may be stale. The threads hold all blocks in the beginning.

Bookkeeping: `version` counts the successful compare-and-swaps, and a thread remembers its value
at the load of the head. The tag is the version modulo 2^64. So a compare-and-swap can succeed only
with the head as it was at the load or after a multiple of 2^64 others (`NoWrap` excludes this). In
the first case the block at the head has been on the stack since, and its next pointer is the one
that was read (`Loaded.next`).
-/

namespace PopSetbench

namespace LockfreeBlockbag

open Function

/-! ### The system -/

/-- `tagged_ptr` -/
@[ext] structure TaggedPtr (B : Type*) where
  ptr : Option B
  tag : BitVec 64
deriving DecidableEq

/-- Where a thread is. `e` is `expHead`, `v` the version at its load. -/
inductive Pc (B : Type*)
  | idle
  /-- `getBlock`: about to load the head. -/
  | getLoad
  /-- About to read the next pointer of `p`, to which the head pointed. -/
  | getNext (p : B) (e : TaggedPtr B) (v : ℕ)
  /-- About to compare-and-swap the head from `e` to `next`. -/
  | getCas (p : B) (e : TaggedPtr B) (v : ℕ) (next : Option B)
  /-- About to store null to the next pointer of `result`. -/
  | getClear (result : B)
  /-- `addBlock(b)`: about to load the head. -/
  | addLoad (b : B)
  /-- About to store the head to the next pointer of `b`. -/
  | addLink (b : B) (e : TaggedPtr B) (v : ℕ)
  /-- About to compare-and-swap the head from `e` to `b`. -/
  | addCas (b : B) (e : TaggedPtr B) (v : ℕ)
deriving DecidableEq

/-- The stack, the next pointers, the blocks that each thread holds, and where the threads are. -/
structure State (n : ℕ) (B : Type*) where
  head : TaggedPtr B
  next : B → Option B
  held : Fin n → List B
  pc : Fin n → Pc B
  version : ℕ

/-- What a step does to the stack: it takes a block, it puts one there, or neither. -/
inductive Event (B : Type*)
  | popped (b : B)
  | pushed (b : B)
  | other
deriving DecidableEq

variable {n : ℕ} {B : Type*}

/-- Thread `t` goes to `pc`. -/
def State.goto (s : State n B) (t : Fin n) (pc : Pc B) : State n B :=
  { s with pc := update s.pc t pc }

/-- The next pointer of a block is stored. -/
def State.link [DecidableEq B] (s : State n B) (b : B) (p : Option B) : State n B :=
  { s with next := update s.next b p }

/-- A compare-and-swap from `e` to `p` succeeds. -/
def State.swap (s : State n B) (e : TaggedPtr B) (p : Option B) : State n B :=
  { s with head := ⟨p, e.tag + 1⟩, version := s.version + 1 }

/-- Thread `t` holds the blocks `l`. -/
def State.hold (s : State n B) (t : Fin n) (l : List B) : State n B :=
  { s with held := update s.held t l }

/-- The atomic steps. `compare_exchange_weak` may also fail when it could succeed. -/
inductive Step [DecidableEq B] (s : State n B) : Fin n → Event B → State n B → Prop
  /-- A thread stores to the next pointer of a block that it holds. -/
  | use {t b p} (hpc : s.pc t = .idle) (hb : b ∈ s.held t) : Step s t .other (s.link b p)
  | callGet {t} (hpc : s.pc t = .idle) : Step s t .other (s.goto t .getLoad)
  | getNull {t} (hpc : s.pc t = .getLoad) (h : s.head.ptr = none) :
      Step s t .other (s.goto t .idle)
  | getLoad {t p} (hpc : s.pc t = .getLoad) (h : s.head.ptr = some p) :
      Step s t .other (s.goto t (.getNext p s.head s.version))
  | getNext {t p e v} (hpc : s.pc t = .getNext p e v) :
      Step s t .other (s.goto t (.getCas p e v (s.next p)))
  | getCas {t p e v nx} (hpc : s.pc t = .getCas p e v nx) (h : s.head = e) :
      Step s t (.popped p) (((s.swap e nx).hold t (p :: s.held t)).goto t (.getClear p))
  | getFail {t p e v nx} (hpc : s.pc t = .getCas p e v nx) : Step s t .other (s.goto t .getLoad)
  | getClear {t p} (hpc : s.pc t = .getClear p) :
      Step s t .other ((s.link p none).goto t .idle)
  | callAdd {t b} (hpc : s.pc t = .idle) (hb : b ∈ s.held t) :
      Step s t .other (s.goto t (.addLoad b))
  | addLoad {t b} (hpc : s.pc t = .addLoad b) :
      Step s t .other (s.goto t (.addLink b s.head s.version))
  | addLink {t b e v} (hpc : s.pc t = .addLink b e v) :
      Step s t .other ((s.link b e.ptr).goto t (.addCas b e v))
  | addCas {t b e v} (hpc : s.pc t = .addCas b e v) (h : s.head = e) :
      Step s t (.pushed b) (((s.swap e (some b)).hold t ((s.held t).erase b)).goto t .idle)
  | addFail {t b e v} (hpc : s.pc t = .addCas b e v) : Step s t .other (s.goto t (.addLoad b))

/-- The blocks that the threads hold. -/
def State.heldBlocks (s : State n B) : Multiset B :=
  totalOf (fun l : List B => (l : Multiset B)) s.held

/-- The stack is empty, and the threads hold the blocks `blocks`. -/
structure State.Initial (blocks : Multiset B) (s : State n B) : Prop where
  head : s.head = ⟨none, 0⟩
  version : s.version = 0
  held : s.heldBlocks = blocks
  pc : ∀ t, s.pc t = .idle

/-- `n` threads and the stack. -/
def system [DecidableEq B] (n : ℕ) (blocks : Multiset B) : Lts (State n B) (Fin n × Event B) where
  init := State.Initial blocks
  step s a s' := Step s a.1 a.2 s'

/-- The version at the load of the head for the compare-and-swap that the thread is about to do. -/
def Pc.casVersion : Pc B → Option ℕ
  | .getCas _ _ v _ | .addCas _ _ v => some v
  | _ => none

/-- No compare-and-swap is done when a positive multiple of 2^64 others have succeeded since the
head was loaded for it. -/
def NoWrap (s : State n B) (a : Fin n × Event B) : Prop :=
  ∀ v, (s.pc a.1).casVersion = some v → 2 ^ 64 ∣ s.version - v → s.version ≤ v

variable {blocks : Multiset B} {s s' : State n B} {t : Fin n} {L L' : List B}

/-- The blocks on the stack, from the head. -/
def State.IsStack (s : State n B) (L : List B) : Prop :=
  Segment s.next s.head.ptr L none

/-- What a step of thread `t` does to the stack and to what the threads hold. -/
def Effect [DecidableEq B] (s : State n B) (t : Fin n) (s' : State n B) (L L' : List B) :
    Event B → Prop
  | .popped b => L = b :: L' ∧ s'.held = update s.held t (b :: s.held t)
  | .pushed b => L' = b :: L ∧ b ∈ s.held t ∧ s'.held = update s.held t ((s.held t).erase b)
  | .other => L' = L ∧ s'.held = s.held

/-! ### The invariant -/

/-- The thread has loaded the head `e` at version `v`. -/
structure Seen (s : State n B) (e : TaggedPtr B) (v : ℕ) : Prop where
  le : v ≤ s.version
  tag : e.tag = BitVec.ofNat 64 v
  head : v = s.version → e = s.head

/-- What a thread that holds the blocks `l` knows where it is. -/
def Pc.Ok (s : State n B) (l : List B) : Pc B → Prop
  | .idle | .getLoad => True
  | .getNext p e v => Seen s e v ∧ e.ptr = some p
  | .getCas p e v nx => Seen s e v ∧ e.ptr = some p ∧ (v = s.version → s.next p = nx)
  | .getClear p => p ∈ l
  | .addLoad b => b ∈ l
  | .addLink b e v => b ∈ l ∧ Seen s e v
  | .addCas b e v => b ∈ l ∧ Seen s e v ∧ s.next b = e.ptr

/-- **The invariant.** The blocks `L` are on the stack. -/
structure Inv (blocks : Multiset B) (s : State n B) (L : List B) : Prop where
  /-- The stack. -/
  stack : s.IsStack L
  /-- No block is lost, and none is in two places. -/
  all : (L : Multiset B) + s.heldBlocks = blocks
  /-- The tag counts the changes of the head. -/
  tag : s.head.tag = BitVec.ofNat 64 s.version
  /-- What the threads know. -/
  pc : ∀ t, (s.pc t).Ok s (s.held t)

theorem held_le (t : Fin n) : (s.held t : Multiset B) ≤ s.heldBlocks :=
  le_totalOf (f := fun l : List B => (l : Multiset B)) t

/-- A block that a thread holds is not on the stack. -/
theorem not_mem_stack (hall : (L : Multiset B) + s.heldBlocks = blocks) (hn : blocks.Nodup) {b : B}
    (hb : b ∈ s.held t) : b ∉ L := by
  intro hL
  rw [← hall] at hn
  have hdisj := (Multiset.nodup_add.mp hn).2.2
  exact Multiset.disjoint_left.mp hdisj (Multiset.mem_coe.mpr hL)
    (Multiset.mem_of_le (held_le t) (Multiset.mem_coe.mpr hb))

/-- No two threads hold the same block. -/
theorem Inv.held_disjoint (hI : Inv blocks s L) (hn : blocks.Nodup) {u : Fin n} (hne : t ≠ u)
    {b : B} (hb : b ∈ s.held t) : b ∉ s.held u := by
  intro hu
  rw [← hI.all] at hn
  have hle : (s.held t : Multiset B) + (s.held u : Multiset B) ≤ s.heldBlocks :=
    add_le_totalOf (f := fun l : List B => (l : Multiset B)) hne
  have hdisj := (Multiset.nodup_add.mp
    (Multiset.nodup_of_le hle (Multiset.nodup_add.mp hn).2.1)).2.2
  exact Multiset.disjoint_left.mp hdisj (Multiset.mem_coe.mpr hb) (Multiset.mem_coe.mpr hu)

/-- What does not disturb a thread that holds the blocks `l`. -/
structure Keeps (s s' : State n B) (l : List B) : Prop where
  le : s.version ≤ s'.version
  head : s'.version = s.version → s'.head = s.head
  top : s'.version = s.version → ∀ p, s.head.ptr = some p → s'.next p = s.next p
  own : ∀ b ∈ l, s'.next b = s.next b

theorem Seen.keeps {l : List B} {e : TaggedPtr B} {v : ℕ} (h : Seen s e v) (hk : Keeps s s' l) :
    Seen s' e v := by
  refine ⟨h.le.trans hk.le, h.tag, fun hv => ?_⟩
  have hver : s'.version = s.version := le_antisymm (hv ▸ h.le) hk.le
  rw [hk.head hver]
  exact h.head (hv.trans hver)

theorem Pc.Ok.keeps {l : List B} {pc : Pc B} (h : pc.Ok s l) (hk : Keeps s s' l) : pc.Ok s' l := by
  cases pc with
  | idle => trivial
  | getLoad => trivial
  | getNext p e v => exact ⟨h.1.keeps hk, h.2⟩
  | getCas p e v nx =>
    obtain ⟨hseen, hp, hnx⟩ := h
    refine ⟨hseen.keeps hk, hp, fun hv => ?_⟩
    -- the head has not changed, so neither has the pointer of the block at the head
    have hver : s'.version = s.version := le_antisymm (hv ▸ hseen.le) hk.le
    have hv' := hv.trans hver
    rw [hk.top hver p (hseen.head hv' ▸ hp)]
    exact hnx hv'
  | getClear p => exact h
  | addLoad b => exact h
  | addLink b e v => exact ⟨h.1, h.2.keeps hk⟩
  | addCas b e v =>
    obtain ⟨hb, hseen, hnx⟩ := h
    exact ⟨hb, hseen.keeps hk, (hk.own b hb).trans hnx⟩

/-- A compare-and-swap succeeds only with the head as it was at the load. -/
theorem Seen.eq_version {e : TaggedPtr B} {v : ℕ} (h : Seen s e v)
    (htag : s.head.tag = BitVec.ofNat 64 s.version) (he : s.head = e)
    (hw : 2 ^ 64 ∣ s.version - v → s.version ≤ v) : v = s.version := by
  refine le_antisymm h.le (hw ?_)
  have heq : BitVec.ofNat 64 s.version = BitVec.ofNat 64 v := by
    rw [← htag, ← h.tag, he]
  have hmod := congrArg BitVec.toNat heq
  rw [BitVec.toNat_ofNat, BitVec.toNat_ofNat] at hmod
  exact (Nat.modEq_iff_dvd' h.le).mp hmod.symm

/-! ### The steps -/

theorem Inv.init (h : s.Initial blocks) : Inv blocks s [] where
  stack := by rw [State.IsStack, h.head]; rfl
  all := by rw [h.held]; exact zero_add _
  tag := by rw [h.head, h.version]; rfl
  pc t := by rw [h.pc t]; trivial

/-- Thread `t` is now at `pc`, and the other threads are where they were. -/
theorem ok_update {pc : Pc B} (hpc : s'.pc = update s.pc t pc) (ht : pc.Ok s' (s'.held t))
    (hne : ∀ u, u ≠ t → (s.pc u).Ok s' (s'.held u)) (u : Fin n) :
    (s'.pc u).Ok s' (s'.held u) := by
  rw [hpc]
  by_cases hu : u = t
  · subst hu
    rw [update_self]
    exact ht
  · rw [update_of_ne hu]
    exact hne u hu

/-- A thread goes on. -/
theorem Inv.goto (hI : Inv blocks s L) {pc : Pc B} (hpc : pc.Ok s (s.held t)) :
    Inv blocks (s.goto t pc) L := by
  have hk : ∀ l, Keeps s (s.goto t pc) l := fun l =>
    ⟨le_rfl, fun _ => rfl, fun _ _ _ => rfl, fun _ _ => rfl⟩
  exact ⟨hI.stack, hI.all, hI.tag,
    ok_update rfl (hpc.keeps (hk _)) fun u _ => (hI.pc u).keeps (hk _)⟩

/-- The stack begins with the block to which the head points. -/
theorem Inv.top (hI : Inv blocks s L) {p : B} (hp : s.head.ptr = some p) :
    ∃ L', L = p :: L' ∧ Segment s.next (s.next p) L' none := by
  have hstack := hI.stack
  rw [State.IsStack, hp] at hstack
  exact hstack.of_some

/-- **A thread stores to the next pointer of a block that it holds.** -/
theorem Inv.link [DecidableEq B] (hI : Inv blocks s L) (hn : blocks.Nodup) {b : B}
    (hb : b ∈ s.held t) {p : Option B} {pc : Pc B} (hpc : pc.Ok (s.link b p) (s.held t)) :
    Inv blocks ((s.link b p).goto t pc) L := by
  have hbL := not_mem_stack hI.all hn hb
  -- the other threads hold other blocks, and the block is not at the head
  have hk : ∀ u, u ≠ t → Keeps s (s.link b p) (s.held u) := fun u hu =>
    { le := le_rfl
      head := fun _ => rfl
      top := fun _ q hq => by
        obtain ⟨L', rfl, -⟩ := hI.top hq
        refine update_of_ne ?_ _ _
        rintro rfl
        exact hbL List.mem_cons_self
      own := fun c hc => by
        refine update_of_ne ?_ _ _
        rintro rfl
        exact hI.held_disjoint hn hu hc hb }
  have hk' : ∀ l, Keeps (s.link b p) ((s.link b p).goto t pc) l := fun l =>
    ⟨le_rfl, fun _ => rfl, fun _ _ _ => rfl, fun _ _ => rfl⟩
  exact ⟨hI.stack.update hbL p, hI.all, hI.tag,
    ok_update rfl (hpc.keeps (hk' _)) fun u hu => ((hI.pc u).keeps (hk u hu)).keeps (hk' _)⟩

/-- **A compare-and-swap succeeds.** Thread `t` holds the blocks `l` afterwards. -/
theorem Inv.swap (hI : Inv blocks s L) {e : TaggedPtr B} (he : s.head = e) {p : Option B}
    {l : List B} {pc : Pc B} (hstack : Segment s.next p L' none)
    (hall : (L' : Multiset B) + l = L + s.held t)
    (hpc : ∀ s' : State n B, pc.Ok s' l) :
    Inv blocks (((s.swap e p).hold t l).goto t pc) L' := by
  subst he
  have hk : ∀ u l, u ≠ t → Keeps s (((s.swap s.head p).hold t l).goto t pc) (s.held u) :=
    fun u l _ =>
      { le := Nat.le_succ _
        head := fun h => absurd h (Nat.succ_ne_self _)
        top := fun h => absurd h (Nat.succ_ne_self _)
        own := fun _ _ => rfl }
  have hheld : (((s.swap s.head p).hold t l).goto t pc).held t = l := update_self ..
  refine ⟨hstack, ?_, ?_, ok_update rfl (by rw [hheld]; exact hpc _) fun u hu => ?_⟩
  · -- what leaves the stack is held, and the other way round
    have hsum := totalOf_update (f := fun l : List B => (l : Multiset B)) (g := s.held) t l
    have hold := hI.all
    refine add_right_cancel (b := (s.held t : Multiset B)) ?_
    calc (L' : Multiset B) + (((s.swap s.head p).hold t l).goto t pc).heldBlocks + s.held t
        = L' + (s.heldBlocks + l) := by
          rw [add_assoc]
          exact congrArg _ hsum
      _ = (L' + l) + s.heldBlocks := by ac_rfl
      _ = blocks + s.held t := by
          rw [hall, ← hold]
          ac_rfl
  · change s.head.tag + 1 = BitVec.ofNat 64 (s.version + 1)
    rw [hI.tag, BitVec.ofNat_add]
    rfl
  · have hheld' : (((s.swap s.head p).hold t l).goto t pc).held u = s.held u :=
      update_of_ne hu _ _
    rw [hheld']
    exact (hI.pc u).keeps (hk u l hu)

variable [DecidableEq B]

/-- **One step.** -/
theorem Inv.step {a : Fin n × Event B} (hI : Inv blocks s L) (hn : blocks.Nodup)
    (hok : NoWrap s a) (hstep : (system n blocks).step s a s') :
    ∃ L', Inv blocks s' L' ∧ Effect s a.1 s' L L' a.2 := by
  obtain ⟨t, ev⟩ := a
  change Step s t ev s' at hstep
  have hpct := hI.pc t
  cases hstep with
  | @use b p hpc hb =>
    -- a block that a thread holds is written, and the stack does not see it
    have hok : (s.pc t).Ok (s.link b p) (s.held t) := by
      rw [hpc]
      trivial
    have hgo := hI.link hn hb hok
    have hsame : (s.link b p).goto t (s.pc t) = s.link b p := by
      unfold State.goto
      rw [show update (s.link b p).pc t (s.pc t) = (s.link b p).pc from update_eq_self t _]
    rw [← hsame]
    exact ⟨L, hgo, rfl, rfl⟩
  | callGet hpc => exact ⟨L, hI.goto trivial, rfl, rfl⟩
  | getNull hpc h => exact ⟨L, hI.goto trivial, rfl, rfl⟩
  | getLoad hpc h => exact ⟨L, hI.goto ⟨⟨le_rfl, hI.tag, fun _ => rfl⟩, h⟩, rfl, rfl⟩
  | getNext hpc =>
    rw [hpc] at hpct
    exact ⟨L, hI.goto ⟨hpct.1, hpct.2, fun _ => rfl⟩, rfl, rfl⟩
  | @getCas p e v nx hpc h =>
    -- the head is the one that was loaded, so its successor is the new head
    rw [hpc] at hpct
    obtain ⟨hseen, hp, hnx⟩ := hpct
    -- the head has not changed since it was loaded
    have hv := hseen.eq_version hI.tag h (hok v (by rw [hpc]; rfl))
    obtain ⟨L', rfl, hL'⟩ := hI.top (h ▸ hp)
    rw [hnx hv] at hL'
    refine ⟨L', hI.swap h hL' ?_ fun _ => List.mem_cons_self, rfl, rfl⟩
    rw [← Multiset.cons_coe, ← Multiset.cons_coe, Multiset.add_cons, Multiset.cons_add]
  | getFail hpc => exact ⟨L, hI.goto trivial, rfl, rfl⟩
  | @getClear p hpc =>
    -- the block that is taken belongs to the thread now
    rw [hpc] at hpct
    exact ⟨L, hI.link hn hpct trivial, rfl, rfl⟩
  | callAdd hpc hb => exact ⟨L, hI.goto hb, rfl, rfl⟩
  | addLoad hpc =>
    rw [hpc] at hpct
    exact ⟨L, hI.goto ⟨hpct, le_rfl, hI.tag, fun _ => rfl⟩, rfl, rfl⟩
  | @addLink b e v hpc =>
    -- the block that is added is still the thread's own, and points to the head that was loaded
    rw [hpc] at hpct
    obtain ⟨hb, hseen⟩ := hpct
    exact ⟨L, hI.link hn hb ⟨hb, ⟨hseen.le, hseen.tag, hseen.head⟩, update_self ..⟩, rfl, rfl⟩
  | @addCas b e v hpc h =>
    -- the block goes to the top of the stack, and leaves what the thread holds
    rw [hpc] at hpct
    obtain ⟨hb, hseen, hnx⟩ := hpct
    have hstack := hI.stack
    rw [State.IsStack, h, ← hnx] at hstack
    refine ⟨b :: L, hI.swap h ⟨rfl, hstack⟩ ?_ fun _ => trivial, rfl, hb, rfl⟩
    calc ((b :: L : List B) : Multiset B) + ((s.held t).erase b : List B)
        = L + (b ::ₘ ((s.held t).erase b : List B)) := by
          rw [← Multiset.cons_coe, Multiset.add_cons, Multiset.cons_add]
      _ = L + s.held t := by
          rw [← Multiset.coe_erase, Multiset.cons_erase (Multiset.mem_coe.mpr hb)]
  | addFail hpc =>
    rw [hpc] at hpct
    exact ⟨L, hI.goto hpct.1, rfl, rfl⟩

/-! ### Conservation -/

theorem exists_inv (hn : blocks.Nodup) (h : (system n blocks).ReachableBy NoWrap s) :
    ∃ L, Inv blocks s L := by
  refine h.invariant (P := fun s => ∃ L, Inv blocks s L) (fun s hs => ⟨[], .init hs⟩) ?_
  rintro s a s' - ⟨L, hI⟩ hok hstep
  obtain ⟨L', hI', -⟩ := hI.step hn hok hstep
  exact ⟨L', hI'⟩

/-- **The stack neither loses nor duplicates a block.** In every run in which no compare-and-swap
is done a positive multiple of 2^64 successful ones after the load of the head: the blocks on the
stack and those that the threads hold are at any time the blocks of the beginning, each of which is
there once; and a step takes the block at the head to the thread, puts a block of the thread at the
head, or changes neither. -/
theorem lockfreeBlockbag_conserves (hn : blocks.Nodup)
    (h : (system n blocks).ReachableBy NoWrap s) :
    ∃ L, s.IsStack L ∧ (L : Multiset B) + s.heldBlocks = blocks ∧
      ∀ a s', (system n blocks).step s a s' → NoWrap s a →
        ∃ L', s'.IsStack L' ∧ (L' : Multiset B) + s'.heldBlocks = blocks ∧
          Effect s a.1 s' L L' a.2 := by
  obtain ⟨L, hI⟩ := exists_inv hn h
  refine ⟨L, hI.stack, hI.all, fun a s' hstep hok => ?_⟩
  obtain ⟨L', hI', heff⟩ := hI.step hn hok hstep
  exact ⟨L', hI'.stack, hI'.all, heff⟩

/-! ### Calls without interruption -/

/-- The stack after thread `t` has pushed the block `b`. -/
def State.push (s : State n B) (t : Fin n) (b : B) : State n B :=
  { s with
    head := ⟨some b, s.head.tag + 1⟩
    next := update s.next b s.head.ptr
    held := update s.held t ((s.held t).erase b)
    version := s.version + 1 }

/-- The stack after thread `t` has popped the block `p`. -/
def State.pop (s : State n B) (t : Fin n) (p : B) : State n B :=
  { s with
    head := ⟨s.next p, s.head.tag + 1⟩
    next := update s.next p none
    held := update s.held t (p :: s.held t)
    version := s.version + 1 }

/-- A step that is not a compare-and-swap. -/
theorem reach_step (h : (system n blocks).ReachableBy NoWrap s) {ev : Event B}
    (hstep : Step s t ev s') (hpc : (s.pc t).casVersion = none) :
    (system n blocks).ReachableBy NoWrap s' := by
  refine h.step (a := (t, ev)) hstep fun v hv => ?_
  rw [show (s.pc (t, ev).1).casVersion = none from hpc] at hv
  cases hv

/-- A compare-and-swap of the head that was loaded last. -/
theorem reach_cas (h : (system n blocks).ReachableBy NoWrap s) {ev : Event B}
    (hstep : Step s t ev s') (hpc : (s.pc t).casVersion = some s.version) :
    (system n blocks).ReachableBy NoWrap s' := by
  refine h.step (a := (t, ev)) hstep fun v hv _ => ?_
  rw [show (s.pc (t, ev).1).casVersion = some s.version from hpc] at hv
  cases hv
  exact le_rfl

theorem reach_push (h : (system n blocks).ReachableBy NoWrap s) (hpc : s.pc t = .idle) {b : B}
    (hb : b ∈ s.held t) : (system n blocks).ReachableBy NoWrap (s.push t b) := by
  have h₁ := reach_step h (.callAdd hpc hb) (by rw [hpc]; rfl)
  have h₂ := reach_step h₁ (.addLoad (update_self ..)) (by simp [State.goto, Pc.casVersion])
  have h₃ := reach_step h₂ (.addLink (update_self ..)) (by simp [State.goto, Pc.casVersion])
  have h₄ := reach_cas h₃ (.addCas (update_self ..) rfl)
    (by simp [State.goto, State.link, Pc.casVersion])
  have hpc' : update s.pc t .idle = s.pc := by
    rw [← hpc]
    exact update_eq_self t s.pc
  simpa [State.push, State.goto, State.link, State.swap, State.hold, hpc'] using h₄

theorem reach_pop (h : (system n blocks).ReachableBy NoWrap s) (hpc : s.pc t = .idle) {p : B}
    (hp : s.head.ptr = some p) : (system n blocks).ReachableBy NoWrap (s.pop t p) := by
  have h₁ := reach_step h (.callGet hpc) (by rw [hpc]; rfl)
  have h₂ := reach_step h₁ (.getLoad (update_self ..) hp) (by simp [State.goto, Pc.casVersion])
  have h₃ := reach_step h₂ (.getNext (update_self ..)) (by simp [State.goto, Pc.casVersion])
  have h₄ := reach_cas h₃ (.getCas (update_self ..) rfl) (by simp [State.goto, Pc.casVersion])
  have h₅ := reach_step h₄ (.getClear (update_self ..)) (by simp [State.goto, Pc.casVersion])
  have hpc' : update s.pc t .idle = s.pc := by
    rw [← hpc]
    exact update_eq_self t s.pc
  simpa [State.pop, State.goto, State.link, State.swap, State.hold, hpc'] using h₅

/-- The stack after `2 * k` changes of the head that have left it as it was but for the tag. -/
def State.turn (s : State n B) (k : ℕ) : State n B :=
  { s with
    head := ⟨s.head.ptr, s.head.tag + BitVec.ofNat 64 (2 * k)⟩
    version := s.version + 2 * k }

/-- The block at the head is popped and pushed again. -/
theorem push_pop {p : B} (hp : s.head.ptr = some p) : (s.pop t p).push t p = s.turn 1 := by
  simp [State.push, State.pop, State.turn, hp, BitVec.add_assoc]

omit [DecidableEq B] in
theorem turn_turn (k : ℕ) : (s.turn k).turn 1 = s.turn (k + 1) := by
  simp only [State.turn, ← BitVec.ofNat_add, Nat.mul_add, add_assoc]

/-- The block at the head is popped and pushed again, `k` times. -/
theorem reach_turn (h : (system n blocks).ReachableBy NoWrap s) (hpc : s.pc t = .idle) {p : B}
    (hp : s.head.ptr = some p) (k : ℕ) :
    (system n blocks).ReachableBy NoWrap (s.turn k) := by
  induction k with
  | zero => simpa [State.turn] using h
  | succ k ih =>
    rw [← turn_turn, ← push_pop (t := t) (s := s.turn k) hp]
    exact reach_push (reach_pop ih hpc hp) hpc (by simp [State.pop])

/-- A compare-and-swap of `getBlock`, whatever has happened since the head was loaded. -/
theorem reach_getCas (h : (system n blocks).Reachable s) {p : B} {e : TaggedPtr B} {v : ℕ}
    {nx : Option B} (hpc : s.pc t = .getCas p e v nx) (he : s.head = e) :
    (system n blocks).Reachable
      (((s.swap e nx).hold t (p :: s.held t)).goto t (.getClear p)) :=
  h.step (a := (t, .popped p)) (Step.getCas hpc he)

/-- Thread `0` pushes two blocks. Thread `1` loads the head and the block after it; thread `0` pops
a block before its compare-and-swap, which fails; it tries again and is about to pop the other. -/
theorem lockfreeBlockbag_conserves_contended : ∃ s : State 2 ℕ,
    s.pc 1 = .getCas 7 ⟨some 7, 3⟩ 3 none ∧ s.held 0 = [8] ∧
      ∃ L, s.IsStack L ∧ (L : Multiset ℕ) + s.heldBlocks = {7, 8} ∧
        ∀ a s', (system 2 {7, 8}).step s a s' → NoWrap s a →
          ∃ L', s'.IsStack L' ∧ (L' : Multiset ℕ) + s'.heldBlocks = {7, 8} ∧
            Effect s a.1 s' L L' a.2 := by
  have h : (system 2 {7, 8}).ReachableBy NoWrap
      (⟨⟨none, 0⟩, fun _ => none, fun t => if t = 0 then [7, 8] else [], fun _ => .idle, 0⟩ :
        State 2 ℕ) :=
    .init ⟨rfl, rfl, by decide, fun _ => rfl⟩
  have h := reach_push h (t := 0) rfl (b := 7) (by decide)
  have h := reach_push h (t := 0) rfl (b := 8) (by decide)
  -- thread 1 is about to pop block 8 when thread 0 does
  have h := reach_step h (t := 1) (.callGet rfl) rfl
  have h := reach_step h (t := 1) (.getLoad rfl rfl) rfl
  have h := reach_step h (t := 1) (.getNext rfl) rfl
  have h := reach_pop h (t := 0) rfl (p := 8) rfl
  -- its compare-and-swap fails
  have h := h.step (a := (1, _)) (.getFail rfl) fun v hv hdvd => by
    obtain rfl : 2 = v := Option.some.inj hv
    have hone : 2 ^ 64 ∣ 1 := hdvd
    exact absurd (Nat.le_of_dvd Nat.one_pos hone) (by decide)
  have h := reach_step h (t := 1) (.getLoad rfl rfl) rfl
  have h := reach_step h (t := 1) (.getNext rfl) rfl
  exact ⟨_, rfl, rfl, lockfreeBlockbag_conserves (by decide) h⟩

/-- The tag comes round: thread 1 has read that block 1 follows block 0, and after 2^64 changes of
the head it stores block 1 to the head, which thread 0 holds by now. Block 2 is lost. -/
theorem lockfreeBlockbag_aba : ∃ s : State 2 (Fin 3), (system 2 {0, 1, 2}).Reachable s ∧
    ¬ ∃ L, s.IsStack L ∧ (L : Multiset (Fin 3)) + s.heldBlocks = {0, 1, 2} := by
  have h : (system 2 {0, 1, 2}).ReachableBy NoWrap
      (⟨⟨none, 0⟩, fun _ => none, fun t => if t = 0 then [0, 1, 2] else [], fun _ => .idle, 0⟩ :
        State 2 (Fin 3)) :=
    .init ⟨rfl, rfl, by decide, fun _ => rfl⟩
  have h := reach_push h (t := 0) rfl (b := 1) (by decide)
  have h := reach_push h (t := 0) rfl (b := 0) (by decide)
  -- thread 1 reads that block 1 follows block 0 and stops before its compare-and-swap
  have h := reach_step h (t := 1) (.callGet rfl) rfl
  have h := reach_step h (t := 1) (.getLoad rfl rfl) rfl
  have h := reach_step h (t := 1) (.getNext rfl) rfl
  have h := reach_pop h (t := 0) rfl (p := 0) rfl
  have h := reach_pop h (t := 0) rfl (p := 1) rfl
  have h := reach_push h (t := 0) rfl (b := 2) (by decide)
  have h := reach_push h (t := 0) rfl (b := 0) (by decide)
  have h := reach_turn h (t := 0) rfl (p := 0) rfl (2 ^ 63 - 2)
  have h := reach_getCas h.reachable (t := 1) rfl (by decide)
  refine ⟨_, h, ?_⟩
  rintro ⟨L, hL, hall⟩
  -- block 1 is at the head, and thread 0 holds it
  obtain ⟨L', rfl, -⟩ := Segment.of_some (show Segment _ (some 1) L none from hL)
  exact not_mem_stack hall (by decide) (t := 0) (b := 1) (by decide) List.mem_cons_self

end LockfreeBlockbag

end PopSetbench

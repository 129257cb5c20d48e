import PopSetbench.Library.Run
import Mathlib.Algebra.Group.Nat.Even
import Mathlib.Data.Nat.Bitwise

/-!
# Handles of descriptors

The words of `descriptors_impl.h` and `scx_provider.h`. A descriptor has a word of mutable fields,
in which a sequence number stands above the other bits, and a handle is a word with a sequence
number and the number of a thread. A thread raises the sequence number of its descriptor when it
begins an SCX (`DESC1_INITIALIZED`) and when it has finished it (`DESC1_NEW`).

`MASK1_SEQ` has 48 bits, but only `MUTABLES1_NEW` applies it, and it adds one afterwards. The number
that is unpacked is therefore not below `2 ^ 48`: it runs through 2, …, `2 ^ 48 + 1` and begins
again (`seqOf`). All the same its parity says whether an SCX is in flight, and two moments have the
same number only if they are a whole round apart.
-/

namespace PopSetbench
namespace Descriptors

/-- `tagptr_t` and `mutables_t`. -/
abbrev Word := BitVec 64

/-- `WIDTH1_SEQ` -/
def width1Seq : ℕ := 48

/-- `OFFSET1_SEQ` -/
def offset1Seq : ℕ := 11

/-- `MASK1_SEQ` -/
def mask1Seq : Word := (((1 : Word) <<< width1Seq) - 1) <<< offset1Seq

/-- `UNPACK1_SEQ` -/
def unpack1Seq (tagptrOrMutables : Word) : Word := tagptrOrMutables >>> offset1Seq

/-- `TAGPTR1_OFFSET_TID` -/
def tagptr1OffsetTid : ℕ := 1

/-- `TAGPTR1_MASK_STALE` -/
def tagptr1MaskStale : Word := 0x1

/-- `TAGPTR1_MASK_TID` -/
def tagptr1MaskTid : Word := (((1 : Word) <<< offset1Seq) - 1) &&& ~~~tagptr1MaskStale

/-- `TAGPTR1_UNPACK_TID` -/
def tagptr1UnpackTid (tagptr : Word) : ℕ := ((tagptr &&& tagptr1MaskTid) >>> tagptr1OffsetTid).toNat

/-- `TAGPTR1_NEW` -/
def tagptr1New (tid : ℕ) (mutables : Word) : Word :=
  (unpack1Seq mutables <<< offset1Seq) ||| (BitVec.ofNat 64 tid <<< tagptr1OffsetTid)

/-- `LAST_TID1` -/
def lastTid1 : ℕ := (tagptr1MaskTid >>> tagptr1OffsetTid).toNat

/-- `TAGPTR1_STATIC_DESC` -/
def tagptr1StaticDesc (id : ℕ) : Word := tagptr1New (lastTid1 - 1 - id) 0

/-- `TAGPTR1_DUMMY_DESC` -/
def tagptr1DummyDesc (id : ℕ) : Word := tagptr1New lastTid1 (BitVec.ofNat 64 id <<< offset1Seq)

/-- `INIT_SCX_HANDLE` -/
def initScxHandle : Word := tagptr1StaticDesc 0

/-- `FINALIZED` -/
def finalized : Word := tagptr1DummyDesc 1

/-- `FAILED` -/
def failed : Word := tagptr1DummyDesc 2

/-- `STATE_INPROGRESS` -/
def stateInprogress : Word := 0

/-- `STATE_COMMITTED` -/
def stateCommitted : Word := 1

/-- `STATE_ABORTED` -/
def stateAborted : Word := 2

/-- `MUTABLES1_OFFSET_STATE` -/
def mutables1OffsetState : ℕ := 1

/-- `MUTABLES1_MASK_ALLFROZEN` -/
def mutables1MaskAllfrozen : Word := 0x1

/-- `MUTABLES1_MASK_STATE` -/
def mutables1MaskState : Word := 0x6

/-- `MUTABLES1_NEW` -/
def mutables1New (mutables : Word) : Word :=
  ((mutables &&& mask1Seq) + ((1 : Word) <<< offset1Seq)) |||
    (stateInprogress <<< mutables1OffsetState)

/-- `MUTABLES1_UNPACK_FIELD` -/
def mutables1UnpackField (mutables mask : Word) (offset : ℕ) : Word :=
  (mutables &&& mask) >>> offset

/-- The handles belong to thread numbers below this one; the last two numbers are those of the
reserved handles. -/
def maxTid : ℕ := lastTid1 - 1

/-! ### The descriptor of a thread -/

/-- Where the thread is. -/
inductive Pc
  /-- It has no SCX in flight. -/
  | idle
  /-- `DESC1_INITIALIZED`: the word was read. -/
  | initialized (v : Word)
  /-- `scxExecute`, behind `DESC1_INITIALIZED`. -/
  | executing
  /-- `DESC1_NEW`: the word was read. -/
  | new (v : Word)

/-- An SCX of the thread is in flight, from `DESC1_INITIALIZED` to `DESC1_NEW`. -/
def Pc.InFlight : Pc → Prop
  | .executing | .new _ => True
  | _ => False

/-- The descriptor of a thread. -/
structure State where
  mutables : Word
  pc : Pc
  /-- Bookkeeping: the sequence number, without end. -/
  count : ℕ

/-- The descriptor behind the constructor, which has called `DESC1_INIT_ALL` and `DESC1_NEW`. -/
def State.initial : State := ⟨mutables1New (mutables1New 0), .idle, 2⟩

/-- The steps: those of the thread itself, and those of the threads that help, which have a copy
`snap` of the word. -/
inductive Step (s : State) : State → Prop
  /-- `DESC1_INITIALIZED` reads the word. -/
  | readInitialized (hpc : s.pc = .idle) : Step s { s with pc := .initialized s.mutables }
  /-- It stores the sum. -/
  | initialized {v : Word} (hpc : s.pc = .initialized v) :
      Step s ⟨v + ((1 : Word) <<< offset1Seq), .executing, s.count + 1⟩
  /-- `DESC1_NEW` reads the word. -/
  | readNew (hpc : s.pc = .executing) : Step s { s with pc := .new s.mutables }
  /-- It stores the new one. -/
  | new {v : Word} (hpc : s.pc = .new v) : Step s ⟨mutables1New v, .idle, s.count + 1⟩
  /-- The CAS of `MUTABLES1_WRITE_FIELD`, for the state. -/
  | writeField (snap val : Word) (hval : val = stateCommitted ∨ val = stateAborted)
      (hseq : unpack1Seq s.mutables = unpack1Seq snap)
      (hne : mutables1UnpackField s.mutables mutables1MaskState mutables1OffsetState ≠ val) :
      Step s { s with
        mutables := (s.mutables &&& ~~~mutables1MaskState) ||| (val <<< mutables1OffsetState) }
  /-- The CAS of `MUTABLES1_WRITE_BIT`, for `allFrozen`. -/
  | writeBit (snap : Word) (hseq : unpack1Seq s.mutables = unpack1Seq snap)
      (hzero : s.mutables &&& mutables1MaskAllfrozen = 0) :
      Step s { s with mutables := s.mutables ||| mutables1MaskAllfrozen }

/-- The descriptor of a thread as a transition system. -/
def system : Lts State Unit where
  init s := s = .initial
  step s _ s' := Step s s'

/-! ### Packing -/

section

variable {tid : ℕ} {m v : Word}

theorem toNat_unpack1Seq : (unpack1Seq m).toNat = m.toNat / 2 ^ 11 := by
  unfold unpack1Seq offset1Seq
  rw [BitVec.toNat_ushiftRight, Nat.shiftRight_eq_div_pow]

theorem lastTid1_eq : lastTid1 = 1023 := by decide

/-- The two parts of a handle do not overlap. -/
theorem toNat_tagptr1New (htid : tid ≤ lastTid1) :
    (tagptr1New tid m).toNat = m.toNat / 2 ^ 11 * 2 ^ 11 + tid * 2 := by
  rw [lastTid1_eq] at htid
  have hm : m.toNat < 2 ^ 64 := m.isLt
  have hlow : (BitVec.ofNat 64 tid <<< tagptr1OffsetTid).toNat = tid * 2 := by
    rw [tagptr1OffsetTid, BitVec.toNat_shiftLeft, BitVec.toNat_ofNat, Nat.shiftLeft_eq]
    omega
  have hhigh : (unpack1Seq m <<< offset1Seq).toNat = m.toNat / 2 ^ 11 * 2 ^ 11 := by
    rw [offset1Seq, BitVec.toNat_shiftLeft, toNat_unpack1Seq, Nat.shiftLeft_eq]
    omega
  unfold tagptr1New
  rw [BitVec.toNat_or, hlow, hhigh, ← Nat.shiftLeft_eq]
  exact (Nat.shiftLeft_add_eq_or_of_lt (by omega) _).symm

/-- **The sequence number of a handle** is that of the word it was made from. -/
theorem unpack1Seq_tagptr1New (htid : tid ≤ lastTid1) :
    unpack1Seq (tagptr1New tid m) = unpack1Seq m := by
  apply BitVec.eq_of_toNat_eq
  rw [toNat_unpack1Seq, toNat_unpack1Seq, toNat_tagptr1New htid]
  rw [lastTid1_eq] at htid
  omega

/-- **The thread of a handle.** -/
theorem tagptr1UnpackTid_tagptr1New (htid : tid ≤ lastTid1) :
    tagptr1UnpackTid (tagptr1New tid m) = tid := by
  have hmask : tagptr1MaskTid.toNat = 2046 := by decide
  unfold tagptr1UnpackTid tagptr1OffsetTid
  rw [BitVec.toNat_ushiftRight, BitVec.toNat_and, hmask, Nat.shiftRight_and_distrib,
    toNat_tagptr1New htid]
  show _ &&& 2 ^ 10 - 1 = tid
  rw [Nat.and_two_pow_sub_one_eq_mod, Nat.shiftRight_eq_div_pow]
  rw [lastTid1_eq] at htid
  omega

/-- A word with a sequence number of its own. -/
theorem toNat_unpack1Seq_shiftLeft (seq : ℕ) :
    (unpack1Seq (BitVec.ofNat 64 seq <<< offset1Seq)).toNat = seq % 2 ^ (64 - offset1Seq) := by
  rw [toNat_unpack1Seq, offset1Seq, BitVec.toNat_shiftLeft, BitVec.toNat_ofNat, Nat.shiftLeft_eq]
  omega

/-- **No handle of a thread is a reserved one.** -/
theorem tagptr1New_ne (htid : tid < maxTid) :
    tagptr1New tid m ≠ initScxHandle ∧ tagptr1New tid m ≠ finalized ∧
      tagptr1New tid m ≠ failed := by
  have hle : tid ≤ lastTid1 := (htid.trans_le (Nat.sub_le ..)).le
  -- the reserved ones have other thread numbers
  have hne : ∀ {tid' m'}, tid' ≤ lastTid1 → tid ≠ tid' → tagptr1New tid m ≠ tagptr1New tid' m' := by
    intro tid' m' hle' hne heq
    have htids := congrArg tagptr1UnpackTid heq
    rw [tagptr1UnpackTid_tagptr1New hle, tagptr1UnpackTid_tagptr1New hle'] at htids
    exact hne htids
  have hlast : tid ≠ lastTid1 := (htid.trans_le (Nat.sub_le ..)).ne
  exact ⟨hne ((Nat.sub_le ..).trans (Nat.sub_le ..)) htid.ne, hne le_rfl hlast, hne le_rfl hlast⟩

/-! ### The sequence number of a descriptor -/

theorem toNat_unpack1Seq_add (h : m.toNat < 2 ^ 63) :
    (unpack1Seq (m + ((1 : Word) <<< offset1Seq))).toNat = (unpack1Seq m).toNat + 1 := by
  have hone : ((1 : Word) <<< offset1Seq).toNat = 2 ^ 11 := by decide
  rw [toNat_unpack1Seq, toNat_unpack1Seq, BitVec.toNat_add, hone]
  omega

/-- `MUTABLES1_NEW` takes the sequence number modulo `2 ^ 48`, and adds one. -/
theorem toNat_unpack1Seq_new :
    (unpack1Seq (mutables1New m)).toNat = (unpack1Seq m).toNat % 2 ^ 48 + 1 := by
  have hmask : mask1Seq.toNat = (2 ^ 48 - 1) * 2 ^ 11 := by decide
  have hseq : (unpack1Seq (m &&& mask1Seq)).toNat = (unpack1Seq m).toNat % 2 ^ 48 := by
    unfold unpack1Seq
    rw [BitVec.toNat_ushiftRight, BitVec.toNat_and, Nat.shiftRight_and_distrib, hmask,
      ← Nat.shiftLeft_eq, offset1Seq, Nat.shiftLeft_shiftRight, Nat.and_two_pow_sub_one_eq_mod,
      BitVec.toNat_ushiftRight]
  have hlt : (m &&& mask1Seq).toNat < 2 ^ 63 := by
    have hle : m.toNat &&& mask1Seq.toNat ≤ mask1Seq.toNat := Nat.and_le_right
    rw [BitVec.toNat_and]
    omega
  have hstate : stateInprogress <<< mutables1OffsetState = 0#64 := by decide
  unfold mutables1New
  rw [hstate, BitVec.or_zero, toNat_unpack1Seq_add hlt, hseq]

/-- The state of the descriptor stands below the sequence number. -/
theorem unpack1Seq_writeField (hval : v = stateCommitted ∨ v = stateAborted) :
    unpack1Seq ((m &&& ~~~mutables1MaskState) ||| (v <<< mutables1OffsetState)) =
      unpack1Seq m := by
  have hzero : (v <<< mutables1OffsetState) >>> offset1Seq = 0#64 := by
    obtain rfl | rfl := hval <;> decide
  have hones : (~~~mutables1MaskState) >>> offset1Seq = BitVec.allOnes 64 >>> offset1Seq := by
    decide
  unfold unpack1Seq
  rw [BitVec.ushiftRight_or_distrib, BitVec.ushiftRight_and_distrib, hzero, hones,
    ← BitVec.ushiftRight_and_distrib, BitVec.and_allOnes, BitVec.or_zero]

theorem unpack1Seq_writeBit : unpack1Seq (m ||| mutables1MaskAllfrozen) = unpack1Seq m := by
  have hzero : mutables1MaskAllfrozen >>> offset1Seq = 0#64 := by decide
  unfold unpack1Seq
  rw [BitVec.ushiftRight_or_distrib, hzero, BitVec.or_zero]

/-- The sequence number that the word has. -/
def seqOf (count : ℕ) : ℕ := (count - 2) % 2 ^ 48 + 2

/-- Less than a round apart, two moments have different sequence numbers. -/
theorem seqOf_eq_iff {c d : ℕ} (hc : 2 ≤ c) (hcd : c ≤ d) (hround : d < c + 2 ^ 48) :
    seqOf c = seqOf d ↔ d = c := by
  unfold seqOf
  omega

/-- What a thread that is about to store has read. -/
def Pc.Seen (seq : Word) : Pc → Prop
  | .initialized v | .new v => unpack1Seq v = seq
  | _ => True

/-- **The invariant**: the word has the number of the moment, and what was read has it too. -/
structure Counted (s : State) : Prop where
  two_le : 2 ≤ s.count
  seq : (unpack1Seq s.mutables).toNat = seqOf s.count
  parity : Even s.count ↔ ¬ s.pc.InFlight
  seen : s.pc.Seen (unpack1Seq s.mutables)

theorem Counted.initial : Counted .initial := by
  refine ⟨le_rfl, ?_, ?_, trivial⟩
  · show (unpack1Seq (mutables1New (mutables1New 0))).toNat = 2
    rw [toNat_unpack1Seq_new, toNat_unpack1Seq_new]
    rfl
  · exact iff_of_true even_two fun h => h

/-- A word whose number is not too large. -/
theorem toNat_lt_of_seq {count : ℕ} (h : (unpack1Seq v).toNat = seqOf count) :
    v.toNat < 2 ^ 63 := by
  rw [toNat_unpack1Seq] at h
  unfold seqOf at h
  omega

/-- **One step.** -/
theorem Counted.step {s s' : State} (h : Counted s) (hstep : Step s s') : Counted s' := by
  obtain ⟨htwo, hseq, hparity, hseen⟩ := h
  cases hstep with
  | readInitialized hpc =>
    -- a number that is read is the one of now
    refine ⟨htwo, hseq, ?_, rfl⟩
    rw [hpc] at hparity
    exact hparity
  | @initialized v hpc =>
    rw [hpc] at hparity hseen
    have hv : (unpack1Seq v).toNat = seqOf s.count := (congrArg BitVec.toNat hseen).trans hseq
    have heven : Even s.count := hparity.mpr fun h => h
    refine ⟨htwo.trans (Nat.le_succ _), ?_, ?_, trivial⟩
    · show (unpack1Seq (v + _)).toNat = seqOf (s.count + 1)
      rw [toNat_unpack1Seq_add (toNat_lt_of_seq hv), hv]
      -- the number before is even, so that it is not the last one of a round
      obtain ⟨k, hk⟩ := heven
      unfold seqOf
      omega
    · rw [Nat.even_add_one]
      exact iff_of_false (fun hn => hn heven) fun hn => hn trivial
  | readNew hpc =>
    refine ⟨htwo, hseq, ?_, rfl⟩
    rw [hpc] at hparity
    exact hparity
  | @new v hpc =>
    rw [hpc] at hparity hseen
    have hv : (unpack1Seq v).toNat = seqOf s.count := (congrArg BitVec.toNat hseen).trans hseq
    have hodd : ¬ Even s.count := fun h => hparity.mp h trivial
    refine ⟨htwo.trans (Nat.le_succ _), ?_, ?_, trivial⟩
    · show (unpack1Seq (mutables1New v)).toNat = seqOf (s.count + 1)
      -- the number before is odd: the new one is two below, or begins a new round
      rw [toNat_unpack1Seq_new, hv]
      rw [Nat.even_iff] at hodd
      unfold seqOf
      omega
    · rw [Nat.even_add_one]
      exact iff_of_true hodd fun h => h
  | writeField snap val hval hs hne =>
    refine ⟨htwo, ?_, hparity, ?_⟩
    · -- a field does not reach into the number
      show (unpack1Seq (_ ||| _)).toNat = _
      rw [unpack1Seq_writeField hval, hseq]
    · show s.pc.Seen (unpack1Seq (_ ||| _))
      rw [unpack1Seq_writeField hval]
      exact hseen
  | writeBit snap hs hzero =>
    refine ⟨htwo, ?_, hparity, ?_⟩
    · -- nor does a bit
      show (unpack1Seq (_ ||| _)).toNat = _
      rw [unpack1Seq_writeBit, hseq]
    · show s.pc.Seen (unpack1Seq (_ ||| _))
      rw [unpack1Seq_writeBit]
      exact hseen

theorem Counted.of_reachable {s : State} (h : system.Reachable s) : Counted s := by
  refine h.invariant (P := Counted) ?_ fun s _ s' _ hs _ hstep => hs.step hstep
  rintro s rfl
  exact .initial

end

/-- **Handles and descriptors.** Unpacking a handle gives back the thread, and the sequence number
modulo what there is room for; no handle is one of the reserved ones; in every run the number of a
descriptor is even when no SCX is in flight and odd when one is; and less than a round of numbers
after a handle was made, the numbers of the handle and of the descriptor agree when the descriptor
is still that of the same SCX, and only then. -/
theorem descriptors_handles :
    (∀ tid m, tid ≤ lastTid1 → tagptr1UnpackTid (tagptr1New tid m) = tid ∧
      unpack1Seq (tagptr1New tid m) = unpack1Seq m) ∧
    (∀ tid seq, tid ≤ lastTid1 →
      (unpack1Seq (tagptr1New tid (BitVec.ofNat 64 seq <<< offset1Seq))).toNat =
        seq % 2 ^ (64 - offset1Seq) ∧
      (unpack1Seq (tagptr1New tid (BitVec.ofNat 64 seq <<< offset1Seq))).toNat % 2 ^ width1Seq =
        seq % 2 ^ width1Seq) ∧
    (∀ tid m, tid < maxTid → tagptr1New tid m ≠ initScxHandle ∧ tagptr1New tid m ≠ finalized ∧
      tagptr1New tid m ≠ failed) ∧
    (∀ s, system.Reachable s → (Even (unpack1Seq s.mutables).toNat ↔ ¬ s.pc.InFlight)) ∧
    ∀ tid s s', tid ≤ lastTid1 → system.Reachable s → system.Reachable s' → s.pc = .executing →
      s.count ≤ s'.count → s'.count < s.count + 2 ^ width1Seq →
      (unpack1Seq (tagptr1New tid s.mutables) = unpack1Seq s'.mutables ↔ s'.count = s.count) := by
  refine ⟨fun tid m htid => ?_, fun tid seq htid => ?_, fun tid m htid => tagptr1New_ne htid,
    fun s hs => ?_, fun tid s s' htid hs hs' hpc hle hlt => ?_⟩
  · exact ⟨tagptr1UnpackTid_tagptr1New htid, unpack1Seq_tagptr1New htid⟩
  · rw [unpack1Seq_tagptr1New htid, toNat_unpack1Seq_shiftLeft]
    refine ⟨rfl, Nat.mod_mod_of_dvd _ ?_⟩
    exact Nat.pow_dvd_pow 2 (by decide)
  · have hc := Counted.of_reachable hs
    rw [← hc.parity, hc.seq, Nat.even_iff, Nat.even_iff]
    have htwo := hc.two_le
    unfold seqOf
    omega
  · have hc := Counted.of_reachable hs
    have hc' := Counted.of_reachable hs'
    rw [unpack1Seq_tagptr1New htid, ← BitVec.toNat_inj, hc.seq, hc'.seq]
    exact seqOf_eq_iff hc.two_le hle hlt

/-- A handle of thread 3 is made when its SCX begins. Helpers set `allFrozen` and the state, and the
numbers still agree; when the next SCX of the thread begins, they do not. -/
theorem descriptors_handles_helped : ∃ s s' s'' : State,
    s.pc = .executing ∧ s'.mutables ≠ s.mutables ∧ s''.pc = .executing ∧
      unpack1Seq (tagptr1New 3 s.mutables) = unpack1Seq s'.mutables ∧
      unpack1Seq (tagptr1New 3 s.mutables) ≠ unpack1Seq s''.mutables := by
  have h : system.Reachable .initial := .init rfl
  have h := h.step (a := ()) (.readInitialized rfl)
  have h := h.step (a := ()) (.initialized rfl)
  -- two helpers
  have h' := h.step (a := ()) (.writeBit _ rfl (by decide))
  have h' := h'.step (a := ()) (.writeField _ stateCommitted (.inl rfl) rfl (by decide))
  -- the next SCX
  have h'' := h'.step (a := ()) (.readNew rfl)
  have h'' := h''.step (a := ()) (.new rfl)
  have h'' := h''.step (a := ()) (.readInitialized rfl)
  have h'' := h''.step (a := ()) (.initialized rfl)
  obtain ⟨-, -, -, -, hagree⟩ := descriptors_handles
  have hsame := (hagree 3 _ _ (by decide) h h' rfl le_rfl (by decide)).mpr rfl
  have hother := (hagree 3 _ _ (by decide) h h'' rfl (by decide) (by decide)).not.mpr (by decide)
  exact ⟨_, _, _, rfl, by decide, rfl, hsame, hother⟩

end Descriptors
end PopSetbench

import PopSetbench.Library.Run
import PopSetbench.Library.Totals
import Mathlib.Algebra.BigOperators.Ring.Finset
import Mathlib.Tactic.Ring

/-!
# Reader-writer locks

Model of `RWLock` (rwlock.h) in its two variants. Readers and writers are counted in the bit fields
of one word, `lock`. Every atomic access to the word is a step, and so is a call; a loop that only
spins is one step, taken when its condition fails.

A thread may call anything at any time, except that it releases only what it holds and upgrades only
when it holds a read lock; it may hold several read locks. The word is an integer: a thread that
takes part adds at most `unit` to it for each read lock that it holds and one more, so 64 bits do
not overflow.

The proof counts, over all threads, the readers, the upgraders and the writers that the word has to
show (`Inv.word`). A writer has seen the word without readers while its bit was set, and the set bit
keeps readers out (`Inv.excl`).
-/

namespace PopSetbench

namespace RWLock

open Function

/-! ### Threads -/

/-- `RWLOCK_FAVOR_WRITERS` or `RWLOCK_FAVOR_READERS`. -/
inductive Variant
  | favorWriters
  | favorReaders
deriving DecidableEq

/-- What a reader adds to `lock`: below its count are the writer bit and, if readers are favoured,
the upgrade bit. -/
def Variant.unit : Variant → ℕ
  | favorWriters => 2
  | favorReaders => 4

/-- The functions of the lock. -/
inductive Op
  | readLock
  | readUnlock
  | writeLock
  | writeUnlock
  | upgradeLock
deriving DecidableEq

/-- What a step shows: a call, an atomic access inside a call, or the access with which a call
returns (`false` for the upgrade that gives up). An unlock is one access, that of its call. -/
inductive Event
  | call (op : Op)
  | inner
  | ret (ok : Bool)
deriving DecidableEq

/-- Where a thread is. -/
inductive Pc
  /-- Between two calls. -/
  | idle
  /-- `readLock`, favouring writers: spinning while the lock is not free. -/
  | readSpin
  /-- About to add the tentative read lock. -/
  | readAdd
  /-- A writer was there: about to release the tentative read lock. -/
  | readBack
  /-- `readLock`, favouring readers: has added its read lock and spins while there is a writer. -/
  | readWait
  /-- `writeLock`, favouring writers: about to load `v`. -/
  | writeLoad
  /-- About to compare-and-swap from `v & ~1` to `v | 1`. -/
  | writeCas (v : ℤ)
  /-- Has set the writer bit and looks whether `v` shows readers. -/
  | writeWait (v : ℤ)
  /-- `writeLock`, favouring readers: spinning while the lock is not free. -/
  | writeSpin
  /-- About to compare-and-swap from 0 to 1. -/
  | writeTake
  /-- `upgradeLock`: about to load `expval`. -/
  | upLoad
  /-- About to compare-and-swap from `expval` to `(expval - 4) | 2`. -/
  | upCas (expval : ℤ)
  /-- Has the upgrade bit and spins while anybody else is there. -/
  | upSpin
  /-- About to compare-and-swap from 2 to 1. -/
  | upTake
deriving DecidableEq

/-- A thread: the read locks that it holds, whether it holds the write lock, and where it is. -/
structure Local where
  reads : ℕ
  writing : Bool
  pc : Pc
deriving DecidableEq

/-- `v & ~1` -/
def clearWriter (v : ℤ) : ℤ := 2 * (v / 2)

/-- `v | 1` -/
def setWriter (v : ℤ) : ℤ := 2 * (v / 2) + 1

/-- `v & 1`, as a truth value: `isWriteLocked`. -/
def isWriteLocked (v : ℤ) : Bool := v % 2 ≠ 0

/-- `v & 2`, as a truth value: `isUpgrading`. -/
def isUpgrading (v : ℤ) : Bool := v / 2 % 2 ≠ 0

/-- `v | 2` -/
def setUpgrading (v : ℤ) : ℤ := if isUpgrading v then v else v + 2

/-- `v & ~2` -/
def clearUpgrading (v : ℤ) : ℤ := if isUpgrading v then v - 2 else v

/-! ### The favour-writers variant -/

/-- One step of a thread: the word and the thread before it and after it. -/
inductive FavorWriters : ℤ → Local → Event → ℤ → Local → Prop
  | callRead {v r w} : FavorWriters v ⟨r, w, .idle⟩ (.call .readLock) v ⟨r, w, .readSpin⟩
  | readFree {v r w} (h : v = 0) :
      FavorWriters v ⟨r, w, .readSpin⟩ .inner v ⟨r, w, .readAdd⟩
  | readAdd {v r w} (h : isWriteLocked (v + 2) = false) :
      FavorWriters v ⟨r, w, .readAdd⟩ (.ret true) (v + 2) ⟨r + 1, w, .idle⟩
  | readConflict {v r w} (h : isWriteLocked (v + 2) = true) :
      FavorWriters v ⟨r, w, .readAdd⟩ .inner (v + 2) ⟨r, w, .readBack⟩
  | readBack {v r w} : FavorWriters v ⟨r, w, .readBack⟩ .inner (v - 2) ⟨r, w, .readSpin⟩
  | readUnlock {v r w} :
      FavorWriters v ⟨r + 1, w, .idle⟩ (.call .readUnlock) (v - 2) ⟨r, w, .idle⟩
  | callWrite {v r w} : FavorWriters v ⟨r, w, .idle⟩ (.call .writeLock) v ⟨r, w, .writeLoad⟩
  | writeLoad {v r w} : FavorWriters v ⟨r, w, .writeLoad⟩ .inner v ⟨r, w, .writeCas v⟩
  | writeCas {v r w x} (h : v = clearWriter x) :
      FavorWriters v ⟨r, w, .writeCas x⟩ .inner (setWriter x) ⟨r, w, .writeWait x⟩
  | writeFail {v r w x} (h : v ≠ clearWriter x) :
      FavorWriters v ⟨r, w, .writeCas x⟩ .inner v ⟨r, w, .writeLoad⟩
  | writeWait {v r w x} (h : clearWriter x ≠ 0) :
      FavorWriters v ⟨r, w, .writeWait x⟩ .inner v ⟨r, w, .writeWait v⟩
  | writeDone {v r w x} (h : clearWriter x = 0) :
      FavorWriters v ⟨r, w, .writeWait x⟩ (.ret true) v ⟨r, true, .idle⟩
  | writeUnlock {v r} :
      FavorWriters v ⟨r, true, .idle⟩ (.call .writeUnlock) (v - 1) ⟨r, false, .idle⟩

/-! ### The favour-readers variant -/

/-- One step of a thread: the word and the thread before it and after it. -/
inductive FavorReaders : ℤ → Local → Event → ℤ → Local → Prop
  | callRead {v r w} : FavorReaders v ⟨r, w, .idle⟩ (.call .readLock) v ⟨r, w, .readAdd⟩
  | readAdd {v r w} : FavorReaders v ⟨r, w, .readAdd⟩ .inner (v + 4) ⟨r, w, .readWait⟩
  | readDone {v r w} (h : isWriteLocked v = false) :
      FavorReaders v ⟨r, w, .readWait⟩ (.ret true) v ⟨r + 1, w, .idle⟩
  | readUnlock {v r w} :
      FavorReaders v ⟨r + 1, w, .idle⟩ (.call .readUnlock) (v - 4) ⟨r, w, .idle⟩
  -- "can call this only if you already read-locked"
  | callUpgrade {v r w} :
      FavorReaders v ⟨r + 1, w, .idle⟩ (.call .upgradeLock) v ⟨r + 1, w, .upLoad⟩
  | upGiveUp {v r w} (h : isUpgrading v = true) :
      FavorReaders v ⟨r, w, .upLoad⟩ (.ret false) v ⟨r, w, .idle⟩
  | upLoad {v r w} (h : isUpgrading v = false) :
      FavorReaders v ⟨r, w, .upLoad⟩ .inner v ⟨r, w, .upCas v⟩
  | upCas {v r w x} (h : v = x) :
      FavorReaders v ⟨r + 1, w, .upCas x⟩ .inner (setUpgrading (x - 4)) ⟨r, w, .upSpin⟩
  | upFail {v r w x} (h : v ≠ x) :
      FavorReaders v ⟨r, w, .upCas x⟩ .inner v ⟨r, w, .upLoad⟩
  | upAlone {v r w} (h : clearUpgrading v = 0) :
      FavorReaders v ⟨r, w, .upSpin⟩ .inner v ⟨r, w, .upTake⟩
  | upTake {v r w} (h : v = 2) :
      FavorReaders v ⟨r, w, .upTake⟩ (.ret true) 1 ⟨r, true, .idle⟩
  | upRetry {v r w} (h : v ≠ 2) :
      FavorReaders v ⟨r, w, .upTake⟩ .inner v ⟨r, w, .upSpin⟩
  | callWrite {v r w} : FavorReaders v ⟨r, w, .idle⟩ (.call .writeLock) v ⟨r, w, .writeSpin⟩
  | writeFree {v r w} (h : v = 0) :
      FavorReaders v ⟨r, w, .writeSpin⟩ .inner v ⟨r, w, .writeTake⟩
  | writeTake {v r w} (h : v = 0) :
      FavorReaders v ⟨r, w, .writeTake⟩ (.ret true) 1 ⟨r, true, .idle⟩
  | writeRetry {v r w} (h : v ≠ 0) :
      FavorReaders v ⟨r, w, .writeTake⟩ .inner v ⟨r, w, .writeSpin⟩
  | writeUnlock {v r} :
      FavorReaders v ⟨r, true, .idle⟩ (.call .writeUnlock) (v - 1) ⟨r, false, .idle⟩

/-- One step of a thread in the given variant. -/
def Variant.Act : Variant → ℤ → Local → Event → ℤ → Local → Prop
  | favorWriters => FavorWriters
  | favorReaders => FavorReaders

/-! ### The system -/

/-- The word and the threads. -/
structure State (n : ℕ) where
  lock : ℤ
  thread : Fin n → Local

/-- `n` threads share one lock. -/
def system (v : Variant) (n : ℕ) : Lts (State n) (Fin n × Event) where
  init s := s = { lock := 0, thread := fun _ => ⟨0, false, .idle⟩ }
  step s a s' := ∃ l, v.Act s.lock (s.thread a.1) a.2 s'.lock l ∧
    s'.thread = update s.thread a.1 l

variable {v : Variant} {n : ℕ} {s s' : State n} {t u : Fin n}

/-! ### What the word counts -/

/-- Whether a thread here has added a read lock that it has not been granted, or not yet released
again. -/
def Pc.readers : Pc → ℕ
  | .readBack | .readWait => 1
  | _ => 0

/-- Whether a thread here has the upgrade bit. -/
def Pc.upgraders : Pc → ℕ
  | .upSpin | .upTake => 1
  | _ => 0

/-- Whether a thread here has set the writer bit and waits for the readers to leave. -/
def Pc.writers : Pc → ℕ
  | .writeWait _ => 1
  | _ => 0

/-- The thread has set the writer bit and is about to find that there are no readers. -/
def Pc.Alone : Pc → Prop
  | .writeWait x => clearWriter x = 0
  | _ => False

/-- The read locks that `lock` counts for a thread. -/
def Local.readers (l : Local) : ℕ := l.reads + l.pc.readers

/-- The times that the thread has set the writer bit. -/
def Local.writers (l : Local) : ℕ := l.writing.toNat + l.pc.writers

/-- Whether the thread has the upgrade bit. -/
def Local.upgraders (l : Local) : ℕ := l.pc.upgraders

/-- The thread has seen, with the writer bit set, that there are no readers. -/
def Local.Clear (l : Local) : Prop := l.writing = true ∨ l.pc.Alone

/-- What a thread has added to `lock`. -/
def Local.share (v : Variant) (l : Local) : ℕ :=
  v.unit * l.readers + 2 * l.upgraders + l.writers

/-- The fields `R`, `U` and `W` of the word, as a thread finds it that is counted in them. -/
structure Fields (v : Variant) (lock : ℤ) (l : Local) (R U W : ℕ) : Prop where
  word : lock = v.unit * R + 2 * U + W
  upgraders_lt : 2 * U < v.unit
  writers_le : W ≤ 1
  readers : l.readers ≤ R
  upgraders : l.upgraders ≤ U
  writers : l.writers ≤ W
  cas : ∀ x, l.pc = .upCas x → isUpgrading x = false

/-- What a step does to the fields. -/
structure Spec (v : Variant) (lock : ℤ) (l : Local) (lock' : ℤ) (l' : Local) (R U W : ℕ) :
    Prop where
  /-- The word changes with the share of the thread. -/
  word : lock' + l.share v = lock + l'.share v
  /-- The upgrade bit is taken only when nobody has it, and only if readers are favoured. -/
  upgraders : l'.upgraders ≤ l.upgraders ∨ U = 0 ∧ 2 * l'.upgraders < v.unit
  /-- The writer bit is taken only when nobody has it. -/
  writers : l'.writers ≤ l.writers ∨ W = 0 ∧ l'.writers ≤ 1
  /-- Read locks are granted only while the writer bit is clear. -/
  reads : l'.reads ≤ l.reads ∨ W = 0 ∧ l'.writers = 0
  /-- A writer goes on only if there are no readers. -/
  clear : l'.Clear → l.Clear ∨ R = 0
  /-- An upgrade tries to take the bit only if it has seen it clear. -/
  cas : ∀ x, l'.pc = .upCas x → isUpgrading x = false

theorem Local.Clear.writers_pos {l : Local} (h : l.Clear) : 0 < l.writers := by
  unfold Local.writers
  rcases h with h | h
  · rw [h]
    exact Nat.add_pos_left Nat.one_pos _
  · cases hpc : l.pc with
    | writeWait x => exact Nat.add_pos_right _ Nat.one_pos
    | _ => simp [hpc, Pc.Alone] at h

/-- A tentative read lock leaves the writer bit alone. -/
theorem isWriteLocked_add_two (x : ℤ) : isWriteLocked (x + 2) = isWriteLocked x := by
  unfold isWriteLocked
  rw [Int.add_emod_right]

/-- The word is odd while somebody has set the writer bit. -/
theorem Fields.isWriteLocked_eq {lock : ℤ} {l : Local} {R U W : ℕ} (hF : Fields v lock l R U W) :
    isWriteLocked lock = decide (W = 1) := by
  have hword := hF.word
  have hW := hF.writers_le
  unfold isWriteLocked
  rw [decide_eq_decide]
  cases v <;> simp only [Variant.unit] at hword <;> omega

/-- If the writer bit is clear, then nobody has set it. -/
theorem Fields.writers_eq_zero {lock : ℤ} {l : Local} {R U W : ℕ} (hF : Fields v lock l R U W)
    (h : isWriteLocked lock = false) : W = 0 := by
  rw [hF.isWriteLocked_eq, decide_eq_false_iff_not] at h
  have hW := hF.writers_le
  omega

/-- A thread is not a writer while nobody has set the bit. -/
theorem Fields.not_writing {lock : ℤ} {l : Local} {R U W : ℕ} (hF : Fields v lock l R U W)
    (h : W = 0) : l.writing = false := by
  have hle := hF.writers
  unfold Local.writers at hle
  cases hw : l.writing with
  | false => rfl
  | true =>
    rw [hw, Bool.toNat_true] at hle
    omega

/-- The thread goes on without any access that changes the word. -/
theorem Spec.goto {lock : ℤ} {r : ℕ} {w : Bool} {pc pc' : Pc} {R U W : ℕ}
    (hr : pc'.readers = pc.readers) (hu : pc'.upgraders = pc.upgraders)
    (hw : pc'.writers = pc.writers) (ha : pc'.Alone → pc.Alone ∨ R = 0)
    (hcas : ∀ x, pc' = .upCas x → isUpgrading x = false) :
    Spec v lock ⟨r, w, pc⟩ lock ⟨r, w, pc'⟩ R U W where
  word := by simp only [Local.share, Local.readers, Local.upgraders, Local.writers, hr, hu, hw]
  upgraders := .inl hu.le
  writers := .inl (Nat.add_le_add_left hw.le _)
  reads := .inl le_rfl
  clear := fun h => h.elim (fun h => .inl (.inl h)) fun h => (ha h).imp_left .inr
  cas := hcas

theorem share_mk (r : ℕ) (w : Bool) (pc : Pc) : ((⟨r, w, pc⟩ : Local).share v : ℤ) =
    v.unit * (r + pc.readers) + 2 * pc.upgraders + (w.toNat + pc.writers) := by
  simp only [Local.share, Local.readers, Local.upgraders, Local.writers]
  push_cast
  rfl

/-- The word changes by the difference of two shares. -/
theorem share_eq {lock lock' : ℤ} {l l' : Local} {d : ℤ}
    (hd : (l'.share v : ℤ) = l.share v + d) (h : lock' = lock + d) :
    lock' + l.share v = lock + l'.share v := by
  rw [hd, h]
  ring

/-- **A step of the favour-writers variant.** -/
theorem FavorWriters.spec {lock lock' : ℤ} {l l' : Local} {e : Event} {R U W : ℕ}
    (h : FavorWriters lock l e lock' l') (hF : Fields .favorWriters lock l R U W) :
    Spec .favorWriters lock l lock' l' R U W := by
  have hword : lock = 2 * R + 2 * U + W := hF.word
  have hU : 2 * U < 2 := hF.upgraders_lt
  have hW := hF.writers_le
  cases h with
  | callRead => exact .goto rfl rfl rfl nofun nofun
  | readFree h => exact .goto rfl rfl rfl nofun nofun
  | @readAdd r w h =>
    -- the word was even, so nobody has set the writer bit
    rw [isWriteLocked_add_two] at h
    have hW0 := hF.writers_eq_zero h
    obtain rfl : w = false := hF.not_writing hW0
    refine ⟨share_eq ?_ rfl, .inl le_rfl, .inl le_rfl, .inr ⟨hW0, rfl⟩, .inl, nofun⟩
    simp only [share_mk, Pc.readers, Pc.upgraders, Pc.writers, Variant.unit]
    push_cast
    ring
  | @readConflict r w h =>
    -- the reader that has found a writer still counts until it goes back
    refine ⟨share_eq ?_ rfl, .inl le_rfl, .inl le_rfl, .inl le_rfl, .inl, nofun⟩
    simp only [share_mk, Pc.readers, Pc.upgraders, Pc.writers, Variant.unit]
    push_cast
    ring
  | @readBack r w =>
    -- it goes back and leaves the word as it was
    refine ⟨share_eq ?_ (sub_eq_add_neg ..), .inl le_rfl, .inl le_rfl, .inl le_rfl, .inl, nofun⟩
    simp only [share_mk, Pc.readers, Pc.upgraders, Pc.writers, Variant.unit]
    push_cast
    ring
  | @readUnlock r w =>
    -- a reader leaves: the others do not notice
    refine ⟨share_eq ?_ (sub_eq_add_neg ..), .inl le_rfl, .inl le_rfl, .inl (Nat.le_succ r), .inl,
      nofun⟩
    simp only [share_mk, Pc.readers, Pc.upgraders, Pc.writers, Variant.unit]
    push_cast
    ring
  | callWrite => exact .goto rfl rfl rfl nofun nofun
  | writeLoad => exact .goto rfl rfl rfl nofun nofun
  | @writeCas r w x h =>
    -- the word was even, so nobody has set the writer bit
    have hW0 : W = 0 := by
      unfold clearWriter at h
      omega
    obtain rfl : w = false := hF.not_writing hW0
    refine ⟨share_eq (d := 1) ?_ ?_, .inl le_rfl, .inr ⟨hW0, le_rfl⟩, .inl le_rfl, ?_, nofun⟩
    · rfl
    · unfold setWriter
      rw [h]
      rfl
    · rintro (h' | h')
      · cases h'
      · -- the word showed no readers
        have h0 : clearWriter x = 0 := h'
        right
        omega
  | writeFail h => exact .goto rfl rfl rfl nofun nofun
  | @writeWait r w x h =>
    -- the readers have gone when the word says so
    refine .goto rfl rfl rfl (fun h' => .inr ?_) nofun
    have h0 : clearWriter lock = 0 := h'
    unfold clearWriter at h0
    omega
  | @writeDone r w x h =>
    -- a writer does not set the bit a second time
    obtain rfl : w = false := by
      have hle : w.toNat + 1 ≤ W := hF.writers
      cases w with
      | false => rfl
      | true =>
        rw [Bool.toNat_true] at hle
        omega
    exact ⟨share_eq (d := 0) rfl (add_zero _).symm, .inl le_rfl, .inl le_rfl, .inl le_rfl,
      fun _ => .inl (.inr h), nofun⟩
  | @writeUnlock r =>
    -- the writer bit is cleared
    refine ⟨share_eq ?_ (sub_eq_add_neg ..), .inl le_rfl, .inl (Nat.zero_le _), .inl le_rfl, nofun,
      nofun⟩
    simp only [share_mk, Pc.readers, Pc.upgraders, Pc.writers, Variant.unit, Bool.toNat_true,
      Bool.toNat_false]
    push_cast
    ring

/-- The upgrade bit of the word is set while somebody has it. -/
theorem Fields.isUpgrading_eq {lock : ℤ} {l : Local} {R U W : ℕ}
    (hF : Fields .favorReaders lock l R U W) : isUpgrading lock = decide (U = 1) := by
  have hword : lock = 4 * R + 2 * U + W := hF.word
  have hU : 2 * U < 4 := hF.upgraders_lt
  have hW := hF.writers_le
  unfold isUpgrading
  rw [decide_eq_decide]
  omega

/-- **A step of the favour-readers variant.** -/
theorem FavorReaders.spec {lock lock' : ℤ} {l l' : Local} {e : Event} {R U W : ℕ}
    (h : FavorReaders lock l e lock' l') (hF : Fields .favorReaders lock l R U W) :
    Spec .favorReaders lock l lock' l' R U W := by
  have hword : lock = 4 * R + 2 * U + W := hF.word
  have hU : 2 * U < 4 := hF.upgraders_lt
  cases h with
  | callRead => exact .goto rfl rfl rfl nofun nofun
  | @readAdd r w =>
    -- a reader counts from here on, and waits for the writer to go
    refine ⟨share_eq ?_ rfl, .inl le_rfl, .inl le_rfl, .inl le_rfl, .inl, nofun⟩
    simp only [share_mk, Pc.readers, Pc.upgraders, Pc.writers, Variant.unit]
    push_cast
    ring
  | @readDone r w h =>
    -- the writer bit is clear, and no writer takes the lock as long as the word counts the reader
    have hW0 := hF.writers_eq_zero h
    obtain rfl : w = false := hF.not_writing hW0
    exact ⟨share_eq (d := 0) rfl (add_zero _).symm, .inl le_rfl, .inl le_rfl, .inr ⟨hW0, rfl⟩,
      .inl, nofun⟩
  | @readUnlock r w =>
    -- a reader leaves
    refine ⟨share_eq ?_ (sub_eq_add_neg ..), .inl le_rfl, .inl le_rfl, .inl (Nat.le_succ r), .inl,
      nofun⟩
    simp only [share_mk, Pc.readers, Pc.upgraders, Pc.writers, Variant.unit]
    push_cast
    ring
  | callUpgrade => exact .goto rfl rfl rfl nofun nofun
  | upGiveUp h => exact .goto rfl rfl rfl nofun nofun
  | upLoad h =>
    refine .goto rfl rfl rfl nofun fun x hx => ?_
    cases hx
    exact h
  | @upCas r w x h =>
    -- the bit is still clear: the word is the one that was loaded
    have hx := hF.cas x rfl
    have hU0 : U = 0 := by
      rw [← h, hF.isUpgrading_eq, decide_eq_false_iff_not] at hx
      omega
    have hset : setUpgrading (x - 4) = x + -2 := by
      have hx' : isUpgrading (x - 4) = false := by
        unfold isUpgrading at hx ⊢
        rw [decide_eq_false_iff_not] at hx ⊢
        omega
      rw [setUpgrading, hx', if_neg Bool.false_ne_true]
      ring
    refine ⟨share_eq ?_ (hset.trans (by rw [h])), .inr ⟨hU0, show 2 * 1 < 4 by decide⟩, .inl le_rfl,
      .inl (Nat.le_succ r), .inl, nofun⟩
    simp only [share_mk, Pc.readers, Pc.upgraders, Pc.writers, Variant.unit]
    push_cast
    ring
  | upFail h => exact .goto rfl rfl rfl nofun nofun
  | upAlone h => exact .goto rfl rfl rfl nofun nofun
  | @upTake r w h =>
    -- the thread is the only one that the word counts
    have hup : 1 ≤ U := hF.upgraders
    have hR0 : R = 0 := by omega
    have hW0 : W = 0 := by omega
    obtain rfl : w = false := hF.not_writing hW0
    refine ⟨share_eq (d := -1) ?_ (by rw [h]; rfl), .inl (Nat.zero_le _), .inr ⟨hW0, le_rfl⟩,
      .inl le_rfl, fun _ => .inr hR0, nofun⟩
    simp only [share_mk, Pc.readers, Pc.upgraders, Pc.writers, Variant.unit, Bool.toNat_true,
      Bool.toNat_false]
    push_cast
    ring
  | upRetry h => exact .goto rfl rfl rfl nofun nofun
  | callWrite => exact .goto rfl rfl rfl nofun nofun
  | writeFree h => exact .goto rfl rfl rfl nofun nofun
  | @writeTake r w h =>
    -- the word was zero: there is nobody else
    have hR0 : R = 0 := by omega
    have hW0 : W = 0 := by omega
    obtain rfl : w = false := hF.not_writing hW0
    refine ⟨share_eq (d := 1) ?_ (by rw [h]; rfl), .inl le_rfl, .inr ⟨hW0, le_rfl⟩,
      .inl le_rfl, fun _ => .inr hR0, nofun⟩
    rfl
  | writeRetry h => exact .goto rfl rfl rfl nofun nofun
  | @writeUnlock r =>
    -- the writer bit is cleared
    refine ⟨share_eq ?_ (sub_eq_add_neg ..), .inl le_rfl, .inl (Nat.zero_le _), .inl le_rfl, nofun,
      nofun⟩
    simp only [share_mk, Pc.readers, Pc.upgraders, Pc.writers, Variant.unit, Bool.toNat_true,
      Bool.toNat_false]
    push_cast
    ring

/-- A step of either variant. -/
theorem Variant.Act.spec {lock lock' : ℤ} {l l' : Local} {e : Event} {R U W : ℕ}
    (h : v.Act lock l e lock' l') (hF : Fields v lock l R U W) :
    Spec v lock l lock' l' R U W := by
  cases v with
  | favorWriters => exact FavorWriters.spec h hF
  | favorReaders => exact FavorReaders.spec h hF

/-! ### The invariant -/

/-- The invariant. -/
structure Inv (v : Variant) (s : State n) : Prop where
  /-- The word shows the readers, the upgrader and the writer. -/
  word : s.lock = v.unit * totalOf Local.readers s.thread + 2 * totalOf Local.upgraders s.thread +
    totalOf Local.writers s.thread
  /-- The upgrade bit is below the count of readers; if writers are favoured there is none. -/
  upgraders_lt : 2 * totalOf Local.upgraders s.thread < v.unit
  /-- The writer bit is set once. -/
  writers_le : totalOf Local.writers s.thread ≤ 1
  /-- An upgrade tries to take the bit only if it has seen it clear. -/
  cas : ∀ t x, (s.thread t).pc = .upCas x → isUpgrading x = false
  /-- Once a writer has found no readers there are none. -/
  excl : ∀ t, (s.thread t).Clear → ∀ u, (s.thread u).reads = 0

/-- The word as thread `t` finds it. -/
theorem Inv.fields (h : Inv v s) (t : Fin n) : Fields v s.lock (s.thread t)
    (totalOf Local.readers s.thread) (totalOf Local.upgraders s.thread)
    (totalOf Local.writers s.thread) where
  word := h.word
  upgraders_lt := h.upgraders_lt
  writers_le := h.writers_le
  readers := le_totalOf t
  upgraders := le_totalOf t
  writers := le_totalOf t
  cas := h.cas t

theorem Inv.init (hs : (system v n).init s) : Inv v s := by
  obtain rfl : s = { lock := 0, thread := fun _ => ⟨0, false, .idle⟩ } := hs
  have hr : totalOf Local.readers (fun _ : Fin n => (⟨0, false, .idle⟩ : Local)) = 0 :=
    totalOf_of_forall fun _ => rfl
  have hu : totalOf Local.upgraders (fun _ : Fin n => (⟨0, false, .idle⟩ : Local)) = 0 :=
    totalOf_of_forall fun _ => rfl
  have hw : totalOf Local.writers (fun _ : Fin n => (⟨0, false, .idle⟩ : Local)) = 0 :=
    totalOf_of_forall fun _ => rfl
  constructor
  · simp [hr, hu, hw]
  · rw [hu]
    cases v <;> decide
  · rw [hw]
    exact Nat.zero_le _
  · nofun
  · intro t ht
    simp [Local.Clear, Pc.Alone] at ht

/-- Nobody is about to write while nobody has set the writer bit. -/
theorem not_clear (h : totalOf Local.writers s.thread = 0) (t : Fin n) : ¬ (s.thread t).Clear := by
  intro ht
  have hpos := ht.writers_pos
  rw [totalOf_eq_zero h t] at hpos
  exact Nat.lt_irrefl 0 hpos

/-- If the word shows no readers, then there are none. -/
theorem reads_eq_zero (h : totalOf Local.readers s.thread = 0) (t : Fin n) :
    (s.thread t).reads = 0 := by
  have h0 : (s.thread t).reads + (s.thread t).pc.readers = 0 := totalOf_eq_zero h t
  omega

/-- Once a writer has found no readers there are none, also after a step. -/
theorem Inv.excl_update {l : Local} {lock' : ℤ} (h : Inv v s)
    (hS : Spec v s.lock (s.thread t) lock' l (totalOf Local.readers s.thread)
      (totalOf Local.upgraders s.thread) (totalOf Local.writers s.thread)) (q : Fin n)
    (hq : (update s.thread t l q).Clear) (u : Fin n) : (update s.thread t l u).reads = 0 := by
  rcases hS.reads with hle | ⟨hW, hl⟩
  · -- no thread reads, and thread `t` has not been granted a read lock
    have hall : ∀ u, (s.thread u).reads = 0 := by
      by_cases hqt : q = t
      · subst hqt
        rw [update_self] at hq
        rcases hS.clear hq with hc | hR
        · exact h.excl q hc
        · exact reads_eq_zero hR
      · rw [update_of_ne hqt] at hq
        exact h.excl q hq
    by_cases hut : u = t
    · subst hut
      rw [update_self]
      exact Nat.le_zero.mp (hall u ▸ hle)
    · rw [update_of_ne hut]
      exact hall u
  · -- there is no writer
    exfalso
    by_cases hqt : q = t
    · subst hqt
      rw [update_self] at hq
      exact Nat.lt_irrefl 0 (hl ▸ hq.writers_pos)
    · rw [update_of_ne hqt] at hq
      exact not_clear hW q hq

theorem Inv.step {a : Fin n × Event} (hI : Inv v s) (hstep : (system v n).step s a s') :
    Inv v s' := by
  obtain ⟨t, e⟩ := a
  obtain ⟨l, hact, hthread⟩ := hstep
  dsimp only at hact hthread
  have hS := hact.spec (hI.fields t)
  have hr := totalOf_update (f := Local.readers) (g := s.thread) t l
  have hu := totalOf_update (f := Local.upgraders) (g := s.thread) t l
  have hw := totalOf_update (f := Local.writers) (g := s.thread) t l
  have hut : (s.thread t).upgraders ≤ totalOf Local.upgraders s.thread := le_totalOf t
  have hwt : (s.thread t).writers ≤ totalOf Local.writers s.thread := le_totalOf t
  rw [← hthread] at hr hu hw
  constructor
  · have hword := hS.word
    have hold := hI.word
    simp only [Local.share] at hword
    cases v <;> simp only [Variant.unit] at hword hold ⊢ <;> omega
  · have hold := hI.upgraders_lt
    rcases hS.upgraders with hle | ⟨hU, hlt⟩ <;> omega
  · have hold := hI.writers_le
    rcases hS.writers with hle | ⟨hW, hle⟩ <;> omega
  · intro q x hq
    rw [hthread] at hq
    by_cases hqt : q = t
    · subst hqt
      rw [update_self] at hq
      exact hS.cas x hq
    · rw [update_of_ne hqt] at hq
      exact hI.cas q x hq
  · rw [hthread]
    exact hI.excl_update hS

theorem Inv.of_reachable (h : (system v n).Reachable s) : Inv v s :=
  h.invariant (fun _ => .init) fun _ _ _ _ hI _ => hI.step

/-! ### Mutual exclusion -/

/-- `lock` is the sum of what the threads have added to it. -/
theorem Inv.lock_eq (h : Inv v s) : s.lock = ∑ t, ((s.thread t).share v : ℤ) := by
  rw [h.word]
  unfold totalOf
  push_cast
  rw [Finset.mul_sum, Finset.mul_sum, ← Finset.sum_add_distrib, ← Finset.sum_add_distrib]
  refine Finset.sum_congr rfl fun t _ => ?_
  simp only [Local.share]
  push_cast
  rfl

/-- Two threads are not both in write mode. -/
theorem Inv.writer_unique (h : Inv v s) (ht : (s.thread t).writing = true)
    (hu : (s.thread u).writing = true) : u = t := by
  by_contra hne
  have hle : (s.thread u).writers + (s.thread t).writers ≤ totalOf Local.writers s.thread :=
    add_le_totalOf hne
  have hpt : 0 < (s.thread t).writers := Local.Clear.writers_pos (.inl ht)
  have hpu : 0 < (s.thread u).writers := Local.Clear.writers_pos (.inl hu)
  have hone := h.writers_le
  omega

/-! ### Upgrades that give up -/

/-- Where an upgrade is that may still give up. -/
def Pc.Upgrading : Pc → Prop
  | .upLoad | .upCas _ => True
  | _ => False

/-- Where an upgrade is that will not give up. -/
def Pc.Upgraded : Pc → Prop
  | .upSpin | .upTake => True
  | _ => False

/-- The thread is inside the `upgradeLock` that it has called as `⟨r, w, idle⟩`. It still holds
what it held, unless the upgrade can no longer give up. -/
def Local.InUpgrade (r : ℕ) (w : Bool) (l : Local) : Prop :=
  (l.reads = r ∧ l.writing = w ∧ l.pc.Upgrading) ∨ l.pc.Upgraded

/-- Until an upgrade returns, the thread stays inside it. -/
theorem Local.InUpgrade.step {r : ℕ} {w : Bool} {l l' : Local} {lock lock' : ℤ} {e : Event}
    (h : l.InUpgrade r w) (hact : v.Act lock l e lock' l') (he : ∀ ok, e ≠ .ret ok) :
    l'.InUpgrade r w := by
  cases v with
  | favorWriters =>
    cases hact <;> simp_all [Local.InUpgrade, Pc.Upgrading, Pc.Upgraded]
  | favorReaders =>
    cases hact <;> simp_all [Local.InUpgrade, Pc.Upgrading, Pc.Upgraded]

/-- The steps `as` of all threads are none with which thread `t` returns. -/
def NoReturn (t : Fin n) (as : List (Fin n × Event)) : Prop :=
  ∀ ok, (t, .ret ok) ∉ as

theorem Local.InUpgrade.path {r : ℕ} {w : Bool} {as : List (Fin n × Event)}
    (hp : (system v n).Path s as s') (h : (s.thread t).InUpgrade r w) (has : NoReturn t as) :
    (s'.thread t).InUpgrade r w := by
  induction hp with
  | nil => exact h
  | @cons s₀ s₁ s₂ a as hstep _ ih =>
    refine ih ?_ fun ok hmem => has ok (List.mem_cons_of_mem _ hmem)
    obtain ⟨q, e⟩ := a
    obtain ⟨l, hact, hthread⟩ := hstep
    dsimp only at hact hthread
    rw [hthread]
    by_cases hqt : t = q
    · subst hqt
      rw [update_self]
      refine h.step hact ?_
      rintro ok rfl
      exact has ok List.mem_cons_self
    · rw [update_of_ne hqt]
      exact h

/-- From `s` to `s'` thread `t` calls `upgradeLock` once, and this call gives up. The other threads
may take any steps in the meantime. -/
def GivesUp (v : Variant) (s : State n) (t : Fin n) (s' : State n) : Prop :=
  ∃ as, NoReturn t as ∧
    (system v n).Path s ((t, .call .upgradeLock) :: as ++ [(t, .ret false)]) s'

/-- Only a thread with a read lock calls `upgradeLock`. -/
theorem Variant.Act.callUpgrade_inv {lock lock' : ℤ} {l l' : Local}
    (h : v.Act lock l (.call .upgradeLock) lock' l') :
    ∃ r w, l = ⟨r + 1, w, .idle⟩ ∧ l' = ⟨r + 1, w, .upLoad⟩ := by
  cases v with
  | favorWriters => cases h
  | favorReaders =>
    cases h with
    | @callUpgrade r w => exact ⟨r, w, rfl, rfl⟩

/-- Only an upgrade gives up, before it has changed anything. -/
theorem Variant.Act.giveUp_inv {lock lock' : ℤ} {l l' : Local}
    (h : v.Act lock l (.ret false) lock' l') :
    ∃ r w, l = ⟨r, w, .upLoad⟩ ∧ l' = ⟨r, w, .idle⟩ := by
  cases v with
  | favorWriters => cases h
  | favorReaders =>
    cases h with
    | @upGiveUp r w => exact ⟨r, w, rfl, rfl⟩

/-- An upgrade that gives up leaves the thread as it was at the call, with its read lock. -/
theorem GivesUp.thread_eq (h : GivesUp v s t s') :
    s'.thread t = s.thread t ∧ 0 < (s.thread t).reads := by
  obtain ⟨as, has, hp⟩ := h
  obtain ⟨m, hm, l', hact', hthread'⟩ := hp.of_snoc
  obtain _ | ⟨⟨l, hact, hthread⟩, hrest⟩ := hm
  obtain ⟨r, w, hbefore, rfl⟩ := hact.callUpgrade_inv
  obtain ⟨r', w', hlast, rfl⟩ := hact'.giveUp_inv
  dsimp only at hthread hthread' hbefore hlast
  -- what the thread holds has not changed in between
  have hin : Local.InUpgrade (r + 1) w (m.thread t) := by
    refine Local.InUpgrade.path hrest ?_ has
    rw [hthread, update_self]
    exact .inl ⟨rfl, rfl, trivial⟩
  rw [hlast] at hin
  rw [hthread', update_self, hbefore]
  obtain ⟨rfl, rfl, -⟩ | hno := hin
  · exact ⟨rfl, Nat.succ_pos r⟩
  · cases hno

/-- **Reader-writer locks.** In every reachable state of either variant: while a thread is in write
mode, no other thread is in read or in write mode; the word is the sum of what each thread has added
to it for what it holds and is about to be granted, so that a release takes back what was taken; and
an upgrade that gives up leaves the thread holding its read lock, as it was at the call. -/
theorem rwLock_exclusive (h : (system v n).Reachable s) :
    (∀ t u, u ≠ t → (s.thread t).writing = true →
      (s.thread u).reads = 0 ∧ (s.thread u).writing = false) ∧
    s.lock = ∑ t, ((s.thread t).share v : ℤ) ∧
    ∀ t s', GivesUp v s t s' → s'.thread t = s.thread t ∧ 0 < (s.thread t).reads := by
  have hI := Inv.of_reachable h
  refine ⟨fun t u hne ht => ⟨hI.excl t (.inl ht) u, ?_⟩, hI.lock_eq, fun t s' => GivesUp.thread_eq⟩
  cases hu : (s.thread u).writing with
  | false => rfl
  | true => exact absurd (hI.writer_unique ht hu) hne

theorem reachable_act (h : (system v n).Reachable s) (t : Fin n) {e : Event} {lock' : ℤ}
    {l : Local} (hact : v.Act s.lock (s.thread t) e lock' l) :
    (system v n).Reachable ⟨lock', update s.thread t l⟩ :=
  h.step (a := (t, e)) ⟨l, hact, rfl⟩

/-- Two threads read, and one of them upgrades after the other has left. -/
theorem rwLock_exclusive_upgraded :
    ∃ s : State 2, (s.thread 0).writing = true ∧ s.lock = 1 ∧
      (∀ t u, u ≠ t → (s.thread t).writing = true →
        (s.thread u).reads = 0 ∧ (s.thread u).writing = false) ∧
      s.lock = ∑ t, ((s.thread t).share .favorReaders : ℤ) ∧
      ∀ t s', GivesUp .favorReaders s t s' → s'.thread t = s.thread t ∧
        0 < (s.thread t).reads := by
  have hR : (system .favorReaders 2).Reachable ⟨0, fun _ => ⟨0, false, .idle⟩⟩ := .init rfl
  have hR := reachable_act hR 0 .callRead
  have hR := reachable_act hR 0 .readAdd
  have hR := reachable_act hR 0 (.readDone rfl)
  have hR := reachable_act hR 1 .callRead
  have hR := reachable_act hR 1 .readAdd
  have hR := reachable_act hR 1 (.readDone rfl)
  have hR := reachable_act hR 0 .callUpgrade
  have hR := reachable_act hR 0 (.upLoad rfl)
  have hR := reachable_act hR 0 (.upCas rfl)
  have hR := reachable_act hR 1 .readUnlock
  have hR := reachable_act hR 0 (.upAlone rfl)
  have hR := reachable_act hR 0 (.upTake rfl)
  exact ⟨_, rfl, rfl, rwLock_exclusive hR⟩

end RWLock

end PopSetbench

import Mathlib.Data.Finset.Insert
import Mathlib.Data.Multiset.AddSub
import PopSetbench.Library.ArrayList
import PopSetbench.Library.Interval

/-!
# Hazard pointers

The reclaimer of `reclaimer_hazardptr.h`. Thread `t` announces pointers in `announce[t]`, an
`AtomicArrayList` that it alone writes. When its list of retired objects is full, `retire` reads the
announcements of all threads, one entry after the other, into the set `comparing[t]`, and passes the
retired objects that are not in the set to the pool.

The loads and stores of the shared lists are steps of their own; a thread reads its own list in the
step before it stores. `protect` is called by a thread that has room in its list: `add` asserts it,
and would store behind the array otherwise. The assertion in the scan, that a list is not full, is
left out, as in a build with NDEBUG. `comparing` is a hash table with at least four cells for each
pointer that can be announced; here it is a finite set. `protect` and `retire` are not called with
the null pointer.
-/

namespace PopSetbench
namespace HazardPtr

open Function

/-- `MAX_HAZARDPTRS_PER_THREAD`. -/
def maxHazardptrsPerThread : ℕ := 16

/-- `scanThreshold`, the capacity of the lists of retired objects. -/
def scanThreshold (n : ℕ) : ℕ := 5 * n * maxHazardptrsPerThread

/-- Where a thread is in the code. -/
inductive Pc (Obj : Type)
  /-- Between two calls. -/
  | idle
  /-- `protect`: `add` is about to store the pointer at `sz`. -/
  | store (obj : Obj) (sz : ℕ)
  /-- `protect`: `add` is about to store the size. -/
  | grow (obj : Obj) (sz : ℕ)
  /-- `protect`: about to call `notRetiredCallback`. -/
  | callback (obj : Obj)
  /-- `erase`: about to store the last entry over the one at `ix`. -/
  | move (ix sz : ℕ)
  /-- `erase`: about to store the size. -/
  | shrink (sz : ℕ)
  /-- `retire`: about to read the size of `announce[otherTid]`. -/
  | scanSize (otherTid : ℕ)
  /-- `retire`: about to read the entry at `ixHP` of `announce[otherTid]`, whose size was `sz`. -/
  | scanGet (otherTid ixHP sz : ℕ)
  /-- `retire`: about to decide about the retired object at `ix`. -/
  | decide (ix : ℕ)
  deriving DecidableEq

/-- The state of the reclaimer with `n` threads. -/
@[ext]
structure State (n : ℕ) (Obj : Type) where
  announce : Fin n → ArrayList Obj
  retired : Fin n → ArrayList Obj
  comparing : Fin n → Finset Obj
  /-- Where each thread is. -/
  pc : Fin n → Pc Obj
  /-- Bookkeeping: the pointers that the thread has announced and not withdrawn, each as often as
  it has. -/
  announced : Fin n → Multiset Obj

variable {n : ℕ} {Obj : Type}

namespace State

/-- The state after the constructor. The arrays are not initialised. -/
def initial (data data' : Fin n → ℕ → Obj) : State n Obj where
  announce t := ⟨0, data t⟩
  retired t := ⟨0, data' t⟩
  comparing _ := ∅
  pc _ := .idle
  announced _ := 0

variable (s : State n Obj)

/-- Thread `t` goes on at `p`. -/
def goto (t : Fin n) (p : Pc Obj) : State n Obj :=
  { s with pc := update s.pc t p }

/-- Thread `t` changes its list of announcements. -/
def setAnnounce (t : Fin n) (A : ArrayList Obj) : State n Obj :=
  { s with announce := update s.announce t A }

/-- Bookkeeping: what thread `t` has announced changes. -/
def setAnnounced (t : Fin n) (M : Multiset Obj) : State n Obj :=
  { s with announced := update s.announced t M }

/-- Thread `t` changes its list of retired objects. -/
def setRetired (t : Fin n) (A : ArrayList Obj) : State n Obj :=
  { s with retired := update s.retired t A }

/-- Thread `t` changes the set of announcements that it has read. -/
def setComparing (t : Fin n) (C : Finset Obj) : State n Obj :=
  { s with comparing := update s.comparing t C }

end State

/-- `retired[tid]->add(p)`. -/
def pushed (A : ArrayList Obj) (p : Obj) : ArrayList Obj := (A.store A.size p).resize (A.size + 1)

/-- `retired[tid]->erase(ix)`. -/
def erased (A : ArrayList Obj) (ix : ℕ) : ArrayList Obj :=
  (A.store ix (A.data (A.size - 1))).resize (A.size - 1)

/-- The atomic steps, each with the thread that takes it. -/
inductive Step [DecidableEq Obj] : State n Obj → Fin n → State n Obj → Prop
  /-- `protect(tid, obj)`: `add` reads the size. -/
  | protect (s : State n Obj) (t : Fin n) (obj : Obj) (hpc : s.pc t = .idle)
      (hassert : (s.announce t).size < maxHazardptrsPerThread) :
      Step s t (s.goto t (.store obj (s.announce t).size))
  /-- `add` stores the pointer behind the list. -/
  | store (s : State n Obj) (t : Fin n) (obj : Obj) (sz : ℕ) (hpc : s.pc t = .store obj sz) :
      Step s t ((s.setAnnounce t ((s.announce t).store sz obj)).goto t (.grow obj sz))
  /-- `add` stores the size. -/
  | grow (s : State n Obj) (t : Fin n) (obj : Obj) (sz : ℕ) (hpc : s.pc t = .grow obj sz) :
      Step s t (((s.setAnnounce t ((s.announce t).resize (sz + 1))).setAnnounced t
        (obj ::ₘ s.announced t)).goto t (.callback obj))
  /-- The object is not retired: `protect` returns true. -/
  | callbackTrue (s : State n Obj) (t : Fin n) (obj : Obj) (hpc : s.pc t = .callback obj) :
      Step s t (s.goto t .idle)
  /-- `unprotect(tid, obj)`, called by an operation or by `protect` after the callback has failed:
  `getIndex` finds the pointer. -/
  | unprotect (s : State n Obj) (t : Fin n) (obj : Obj) (ix : ℕ)
      (hpc : s.pc t = .idle ∨ s.pc t = .callback obj) (hix : ix < (s.announce t).size)
      (hobj : (s.announce t).data ix = obj) (hfirst : ∀ i < ix, (s.announce t).data i ≠ obj) :
      Step s t ((s.setAnnounced t ((s.announced t).erase obj)).goto t
        (.move ix (s.announce t).size))
  /-- It does not. -/
  | unprotectMiss (s : State n Obj) (t : Fin n) (obj : Obj)
      (hpc : s.pc t = .idle ∨ s.pc t = .callback obj)
      (hmiss : ∀ i < (s.announce t).size, (s.announce t).data i ≠ obj) :
      Step s t (s.goto t .idle)
  /-- `erase` stores the last entry over the one at `ix`. -/
  | move (s : State n Obj) (t : Fin n) (ix sz : ℕ) (hpc : s.pc t = .move ix sz)
      (hne : ix ≠ sz - 1) :
      Step s t ((s.setAnnounce t ((s.announce t).store ix ((s.announce t).data (sz - 1)))).goto t
        (.shrink sz))
  /-- The entry at `ix` is the last one. -/
  | moveLast (s : State n Obj) (t : Fin n) (ix sz : ℕ) (hpc : s.pc t = .move ix sz)
      (heq : ix = sz - 1) :
      Step s t (s.goto t (.shrink sz))
  /-- `erase` stores the size. -/
  | shrink (s : State n Obj) (t : Fin n) (sz : ℕ) (hpc : s.pc t = .shrink sz) :
      Step s t ((s.setAnnounce t ((s.announce t).resize (sz - 1))).goto t .idle)
  /-- `endOp(tid)`: `clear` stores the size. -/
  | endOp (s : State n Obj) (t : Fin n) (hpc : s.pc t = .idle) :
      Step s t ((s.setAnnounce t ((s.announce t).resize 0)).setAnnounced t 0)
  /-- `retire(tid, p)`: the list of retired objects is not full afterwards. -/
  | retire (s : State n Obj) (t : Fin n) (p : Obj) (hpc : s.pc t = .idle)
      (hfull : (s.retired t).size + 1 < scanThreshold n) :
      Step s t (s.setRetired t (pushed (s.retired t) p))
  /-- It is: `comparing` is cleared, and the scan begins. -/
  | retireFull (s : State n Obj) (t : Fin n) (p : Obj) (hpc : s.pc t = .idle)
      (hfull : (s.retired t).size + 1 = scanThreshold n) :
      Step s t (((s.setRetired t (pushed (s.retired t) p)).setComparing t ∅).goto t (.scanSize 0))
  /-- The scan reads the size of the list of thread `u`. -/
  | scanSize (s : State n Obj) (t u : Fin n) (hpc : s.pc t = .scanSize u.val) :
      Step s t (s.goto t (.scanGet u.val 0 (s.announce u).size))
  /-- The scan reads an entry of it. -/
  | scanGet (s : State n Obj) (t u : Fin n) (ixHP sz : ℕ) (hpc : s.pc t = .scanGet u.val ixHP sz)
      (hlt : ixHP < sz) :
      Step s t ((s.setComparing t (insert ((s.announce u).data ixHP) (s.comparing t))).goto t
        (.scanGet u.val (ixHP + 1) sz))
  /-- It goes on with the next thread. -/
  | scanNext (s : State n Obj) (t u : Fin n) (ixHP sz : ℕ) (hpc : s.pc t = .scanGet u.val ixHP sz)
      (hge : sz ≤ ixHP) :
      Step s t (s.goto t (.scanSize (u.val + 1)))
  /-- All announcements are read. -/
  | scanEnd (s : State n Obj) (t : Fin n) (hpc : s.pc t = .scanSize n) :
      Step s t (s.goto t (.decide 0))
  /-- The retired object at `ix` was announced: it stays. -/
  | keep (s : State n Obj) (t : Fin n) (ix : ℕ) (hpc : s.pc t = .decide ix)
      (hix : ix < (s.retired t).size) (hmem : (s.retired t).data ix ∈ s.comparing t) :
      Step s t (s.goto t (.decide (ix + 1)))
  /-- It was not: it is passed to the pool. -/
  | free (s : State n Obj) (t : Fin n) (ix : ℕ) (hpc : s.pc t = .decide ix)
      (hix : ix < (s.retired t).size) (hmem : (s.retired t).data ix ∉ s.comparing t) :
      Step s t (s.setRetired t (erased (s.retired t) ix))
  /-- `retire` returns. -/
  | retireEnd (s : State n Obj) (t : Fin n) (ix : ℕ) (hpc : s.pc t = .decide ix)
      (hix : (s.retired t).size ≤ ix) :
      Step s t (s.goto t .idle)

/-- The reclaimer with `n` threads as a transition system. -/
def system [DecidableEq Obj] : Lts (State n Obj) (Fin n) where
  init s := ∃ data data', s = State.initial data data'
  step := Step

/-- Thread `t` begins to scan in the step. -/
def Begins (s : State n Obj) (a : Fin n) (s' : State n Obj) (t : Fin n) : Prop :=
  a = t ∧ s.pc t = .idle ∧ s'.pc t = .scanSize 0

/-- For the scans of each thread `t` and each thread `u`, the pointers that `u` has had announced
in every state since the last scan of `t` began. -/
abbrev Since (n : ℕ) (Obj : Type) := Fin n → Fin n → Obj → Prop

/-- What a step leaves of them. -/
def noteSince (s : State n Obj) (a : Fin n) (s' : State n Obj) (since : Since n Obj) :
    Since n Obj :=
  fun t u o => (Begins s a s' t ∧ o ∈ s.announced u ∨ since t u o) ∧ o ∈ s'.announced u

/-- The reclaimer, with what has been announced since the scans began. -/
def watched [DecidableEq Obj] : Lts (State n Obj × Since n Obj) (Fin n) :=
  system.observed noteSince fun _ _ _ => False

/-- The entry of its list that the thread is about to store. -/
def Stores (s : State n Obj) (u : Fin n) : ℕ → Prop
  | j => match s.pc u with
    | .store _ sz => j = sz
    | .move ix sz => j = ix ∧ ix ≠ sz - 1
    | _ => False

/-- The step hides no announcement from a scan. If a thread is about to store an entry of its list
that a running scan has still to read, and the pointer there is still announced, then the scan has
found that pointer already, or it is also in another entry that the scan has still to read. -/
def Keeps (s : State n Obj) (u : Fin n) : Prop :=
  ∀ j, Stores s u j → ∀ t pos sz, s.pc t = .scanGet u.val pos sz → pos ≤ j → j < sz →
    (s.announce u).data j ∈ s.announced u → (s.announce u).data j ∉ s.comparing t →
      ∃ k ≠ j, pos ≤ k ∧ k < sz ∧ (s.announce u).data k = (s.announce u).data j

end HazardPtr
end PopSetbench

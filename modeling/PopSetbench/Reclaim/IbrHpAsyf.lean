import PopSetbench.Library.Run
import PopSetbench.Library.StoreBuffer
import PopSetbench.Reclaim.Object

/-!
# Hazard pointers with an asymmetric fence

The reclaimer of `reclaimer_ibr_hpasyf.h`. `read` stores its reservation with
`memory_order_relaxed` and loads the pointer again without a fence in between, so on a machine with
store buffers the reservation may become visible long after `read` has returned. `empty` makes up
for it: before it copies the slots it calls `membarrier(MEMBARRIER_CMD_GLOBAL)`, which returns when
every thread has executed a full barrier since the call. `endOp` clears the slots with stores that
are sequentially consistent.

Each thread has a store buffer for its slots. A store reaches the memory at any later moment
(`Step.flush`), in order; a sequentially consistent store empties the buffer. `membarrier` empties
the buffers of the threads one by one, in any order. The data structure writes its shared locations
with CAS, which leaves nothing in a buffer, so what it does are steps on the memory. `startOp` does
nothing.
-/

namespace PopSetbench
namespace IbrHpAsyf

open Function

/-- Where a thread is in the code. -/
inductive Pc (n : ℕ) (Obj Loc : Type)
  /-- Between two calls. -/
  | idle
  /-- `read`: about to load `obj`. -/
  | readLoad (idx : Fin slotsPerThread) (loc : Loc)
  /-- `read`: about to reserve what it loaded. -/
  | readReserve (idx : Fin slotsPerThread) (loc : Loc) (ret : Ptr Obj)
  /-- `read`: about to load `obj` again. -/
  | readCheck (idx : Fin slotsPerThread) (loc : Loc) (ret : Ptr Obj)
  /-- `endOp`: slots below `i` are cleared. -/
  | endOp (i : ℕ)
  /-- `empty`: the threads that have executed a full barrier since `membarrier` was called. -/
  | barrier (done : Finset (Fin n))
  /-- `empty`: the first `m` entries of `slots` are copied. -/
  | snapshot (m : ℕ)
  /-- `empty`: the iterator is at `pos`. -/
  | scan (pos : ℕ)
  deriving DecidableEq

/-- The state of the reclaimer with `n` threads and of the memory it protects. -/
structure State (n : ℕ) (Obj Loc : Type) where
  /-- The shared locations that `read` loads from. -/
  mem : Loc → Ptr Obj
  /-- `slots`, in the memory. -/
  slots : Fin n → Fin slotsPerThread → Option Obj
  /-- The stores to its slots that each thread has made and that have not reached the memory. -/
  buffer : Fin n → List (Fin slotsPerThread × Option Obj)
  /-- `cntrs`. -/
  cntrs : Fin n → ℕ
  /-- `retired[tid]`, oldest first. -/
  retired : Fin n → List Obj
  /-- `temp_local_slots` of the running `empty`. -/
  tempLocalSlots : Fin n → Fin n → Fin slotsPerThread → Option Obj
  /-- Where each thread is. -/
  pc : Fin n → Pc n Obj Loc
  /-- Bookkeeping: the life of each object. -/
  life : Obj → Life
  /-- Bookkeeping: what the thread stored last in the slot was validated by `read` while it was
  reachable. -/
  valid : Fin n → Fin slotsPerThread → Bool

/-- `empty_freq`. -/
structure Config where
  emptyFreq : ℕ

variable {n : ℕ} {Obj Loc : Type}

namespace State

/-- The state after the constructor. -/
def initial (n : ℕ) (Obj Loc : Type) : State n Obj Loc where
  mem _ := ⟨none, 0⟩
  slots _ _ := none
  buffer _ := []
  cntrs _ := 0
  retired _ := []
  tempLocalSlots _ _ _ := none
  pc _ := .idle
  life _ := .pooled
  valid _ _ := false

variable (s : State n Obj Loc) (t : Fin n)

/-- Thread `t` goes on at `p`. -/
def goto (p : Pc n Obj Loc) : State n Obj Loc :=
  { s with pc := update s.pc t p }

/-- The slots of a thread as it sees them, with its own stores. -/
def localSlots : Fin slotsPerThread → Option Obj :=
  drain (s.buffer t) (s.slots t)

/-- `slots[tid*slotsPerThread+slot].ui.store(ptr, std::memory_order_relaxed)`. -/
def reserve (slot : Fin slotsPerThread) (ptr : Option Obj) : State n Obj Loc :=
  { s with
    buffer := update s.buffer t (s.buffer t ++ [(slot, ptr)])
    valid := update s.valid t (update (s.valid t) slot false) }

/-- `slots[tid*slotsPerThread+i] = NULL`. -/
def clear (i : Fin slotsPerThread) : State n Obj Loc :=
  { s with
    slots := update s.slots t (update (s.localSlots t) i none)
    buffer := update s.buffer t []
    valid := update s.valid t (update (s.valid t) i false) }

/-- A full barrier of thread `t`. -/
def fence : State n Obj Loc :=
  { s with
    slots := update s.slots t (s.localSlots t)
    buffer := update s.buffer t [] }

/-- `myTrash->push_back(obj)`. -/
def pushBack [DecidableEq Obj] (o : Obj) : State n Obj Loc :=
  { s with
    retired := update s.retired t (s.retired t ++ [o])
    life := update s.life o .retired }

/-- `cntrs[tid] = c`. -/
def count (c : ℕ) : State n Obj Loc :=
  { s with cntrs := update s.cntrs t c }

/-- `slots[i].ui.load(std::memory_order_relaxed)`: a thread sees its own stores. -/
def load (u : Fin n) (i : Fin slotsPerThread) : Option Obj :=
  if t = u then s.localSlots u i else s.slots u i

/-- `temp_local_slots[i] = slots[i].ui.load(std::memory_order_relaxed)`. -/
def copyEntry (u : Fin n) (i : Fin slotsPerThread) : State n Obj Loc :=
  { s with
    tempLocalSlots := update s.tempLocalSlots t
      (update (s.tempLocalSlots t) u (update (s.tempLocalSlots t u) i (s.load t u i))) }

/-- `conflict(temp_local_slots, ptr)`. -/
def conflict (o : Obj) : Prop :=
  ∃ u i, s.tempLocalSlots t u i = some o

/-- `this->pool->add(tid, ptr); iterator = myTrash->erase(iterator)`. -/
def passToPool [DecidableEq Obj] (pos : ℕ) (o : Obj) : State n Obj Loc :=
  { s with
    retired := update s.retired t ((s.retired t).eraseIdx pos)
    life := update s.life o .pooled }

end State

/-- The atomic steps. -/
inductive Step [DecidableEq Obj] [DecidableEq Loc] (cfg : Config) :
    State n Obj Loc → Actor n → State n Obj Loc → Prop
  /-- Some operation CASes a shared location. -/
  | write (s : State n Obj Loc) (l : Loc) (p : Ptr Obj) :
      Step cfg s .env { s with mem := update s.mem l p }
  /-- An object is linked. -/
  | link (s : State n Obj Loc) (o : Obj) (h : s.life o = .pooled) :
      Step cfg s .env { s with life := update s.life o .linked }
  /-- An object is unlinked. -/
  | unlink (s : State n Obj Loc) (o : Obj) (h : s.life o = .linked) :
      Step cfg s .env { s with life := update s.life o .unlinked }
  /-- The oldest store in the buffer of thread `t` reaches the memory. -/
  | flush (s : State n Obj Loc) (t : Fin n) (i : Fin slotsPerThread) (v : Option Obj)
      (rest : List (Fin slotsPerThread × Option Obj)) (h : s.buffer t = (i, v) :: rest) :
      Step cfg s .env
        { s with
          slots := update s.slots t (update (s.slots t) i v)
          buffer := update s.buffer t rest }
  | callRead (s : State n Obj Loc) (t : Fin n) (idx : Fin slotsPerThread) (l : Loc)
      (hpc : s.pc t = .idle) : Step cfg s (.thread t) (s.goto t (.readLoad idx l))
  /-- `ret = obj.load()`. -/
  | readLoad (s : State n Obj Loc) (t : Fin n) (idx : Fin slotsPerThread) (l : Loc)
      (hpc : s.pc t = .readLoad idx l) :
      Step cfg s (.thread t) (s.goto t (.readReserve idx l (s.mem l)))
  | readReserve (s : State n Obj Loc) (t : Fin n) (idx : Fin slotsPerThread) (l : Loc)
      (ret : Ptr Obj) (hpc : s.pc t = .readReserve idx l ret) :
      Step cfg s (.thread t) ((s.reserve t idx ret.obj).goto t (.readCheck idx l ret))
  /-- `ret == obj.load()`: `read` returns. -/
  | readReturn (s : State n Obj Loc) (t : Fin n) (idx : Fin slotsPerThread) (l : Loc)
      (ret : Ptr Obj) (hpc : s.pc t = .readCheck idx l ret) (hret : s.mem l = ret) :
      Step cfg s (.thread t)
        { s.goto t .idle with
          valid := update s.valid t (update (s.valid t) idx
            (ret.obj.any fun o => s.life o = .linked)) }
  /-- `ret != obj.load()`: try again. -/
  | readRetry (s : State n Obj Loc) (t : Fin n) (idx : Fin slotsPerThread) (l : Loc)
      (ret : Ptr Obj) (hpc : s.pc t = .readCheck idx l ret) (hret : s.mem l ≠ ret) :
      Step cfg s (.thread t) (s.goto t (.readLoad idx l))
  | callEndOp (s : State n Obj Loc) (t : Fin n) (hpc : s.pc t = .idle) :
      Step cfg s (.thread t) (s.goto t (.endOp 0))
  | endOp (s : State n Obj Loc) (t : Fin n) (i : Fin slotsPerThread) (hpc : s.pc t = .endOp i) :
      Step cfg s (.thread t) ((s.clear t i).goto t (.endOp (i + 1)))
  | endOpReturn (s : State n Obj Loc) (t : Fin n) (hpc : s.pc t = .endOp slotsPerThread) :
      Step cfg s (.thread t) (s.goto t .idle)
  /-- `retire(tid, obj)` with `cntrs[tid] != empty_freq`. -/
  | retire (s : State n Obj Loc) (t : Fin n) (o : Obj) (hpc : s.pc t = .idle)
      (ho : s.life o = .unlinked) (hc : s.cntrs t ≠ cfg.emptyFreq) :
      Step cfg s (.thread t) ((s.pushBack t o).count t (s.cntrs t + 1))
  /-- `retire(tid, obj)` with `cntrs[tid] == empty_freq`: `empty` is called. -/
  | retireEmpty (s : State n Obj Loc) (t : Fin n) (o : Obj) (hpc : s.pc t = .idle)
      (ho : s.life o = .unlinked) (hc : s.cntrs t = cfg.emptyFreq) :
      Step cfg s (.thread t) (((s.pushBack t o).count t 0).goto t (.barrier ∅))
  /-- `membarrier`: some thread that has not done so executes a full barrier. -/
  | barrier (s : State n Obj Loc) (t u : Fin n) (done : Finset (Fin n))
      (hpc : s.pc t = .barrier done) (hu : u ∉ done) :
      Step cfg s (.thread t) ((s.fence u).goto t (.barrier (insert u done)))
  /-- `membarrier` returns. -/
  | barrierEnd (s : State n Obj Loc) (t : Fin n) (done : Finset (Fin n))
      (hpc : s.pc t = .barrier done) (hdone : ∀ u, u ∈ done) :
      Step cfg s (.thread t) (s.goto t (.snapshot 0))
  /-- `empty` copies slot `i` of thread `u`. -/
  | snapshot (s : State n Obj Loc) (t u : Fin n) (i : Fin slotsPerThread)
      (hpc : s.pc t = .snapshot (u * slotsPerThread + i)) :
      Step cfg s (.thread t)
        ((s.copyEntry t u i).goto t (.snapshot (u * slotsPerThread + i + 1)))
  | snapshotEnd (s : State n Obj Loc) (t : Fin n)
      (hpc : s.pc t = .snapshot (n * slotsPerThread)) :
      Step cfg s (.thread t) (s.goto t (.scan 0))
  /-- Some copied slot names the object: it stays in the list. -/
  | scanKeep (s : State n Obj Loc) (t : Fin n) (pos : ℕ) (o : Obj) (hpc : s.pc t = .scan pos)
      (ho : (s.retired t)[pos]? = some o) (hc : s.conflict t o) :
      Step cfg s (.thread t) (s.goto t (.scan (pos + 1)))
  /-- No copied slot names the object: it is passed to the pool. -/
  | scanFree (s : State n Obj Loc) (t : Fin n) (pos : ℕ) (o : Obj) (hpc : s.pc t = .scan pos)
      (ho : (s.retired t)[pos]? = some o) (hc : ¬ s.conflict t o) :
      Step cfg s (.thread t) ((s.passToPool t pos o).goto t (.scan pos))
  /-- `empty` returns, `retire` counts the call and returns. -/
  | scanEnd (s : State n Obj Loc) (t : Fin n) (pos : ℕ) (hpc : s.pc t = .scan pos)
      (ho : (s.retired t)[pos]? = none) :
      Step cfg s (.thread t) ((s.count t (s.cntrs t + 1)).goto t .idle)

/-- The reclaimer as a transition system. -/
def system [DecidableEq Obj] [DecidableEq Loc] (cfg : Config) :
    Lts (State n Obj Loc) (Actor n) where
  init s := s = State.initial n Obj Loc
  step := Step cfg

/-- `empty`, run by thread `t`, is about to pass the object to the pool. -/
def PassesToPool (s : State n Obj Loc) (t : Fin n) (o : Obj) : Prop :=
  ∃ pos, s.pc t = .scan pos ∧ (s.retired t)[pos]? = some o ∧ ¬ s.conflict t o

/-! ### As slots, buffers and scans -/

/-- How many entries the running `empty` has copied. -/
def Pc.copied : Pc n Obj Loc → ℕ
  | .snapshot m => m
  | .scan _ => n * slotsPerThread
  | _ => 0

/-- The threads that the running `membarrier` has waited for. -/
def Pc.fenced : Pc n Obj Loc → Finset (Fin n)
  | .barrier done => done
  | .snapshot _ => Finset.univ
  | .scan _ => Finset.univ
  | _ => ∅

/-- The slots and what waits to be stored there, the lists and the scans. -/
def State.shared (s : State n Obj Loc) : Buffered n slotsPerThread (Option Obj) Obj where
  slot := s.slots
  retired := s.retired
  temp := s.tempLocalSlots
  copied := Pc.copied ∘ s.pc
  buffer := s.buffer
  fenced := Pc.fenced ∘ s.pc

/-- No copy names the object. -/
def Unnamed (temp : Fin n → Fin slotsPerThread → Option Obj) (o : Obj) : Prop :=
  ∀ u i, temp u i ≠ some o

theorem unnamed_iff {s : State n Obj Loc} {t : Fin n} {o : Obj} :
    Unnamed (s.tempLocalSlots t) o ↔ ¬ s.conflict t o := by
  unfold Unnamed State.conflict
  push Not
  rfl

section Moves

variable {s : State n Obj Loc} {t : Fin n} {p q : Pc n Obj Loc}

/-- Going on to another place with the same counts. -/
theorem Pc.comp_move (hpc : s.pc t = q) (hc : p.copied = q.copied)
    (hf : p.fenced = q.fenced) : Pc.copied ∘ update s.pc t p = Pc.copied ∘ s.pc ∧
      Pc.fenced ∘ update s.pc t p = Pc.fenced ∘ s.pc := by
  rw [comp_update, comp_update, hc, hf, ← hpc]
  exact ⟨update_eq_self t (Pc.copied ∘ s.pc), update_eq_self t (Pc.fenced ∘ s.pc)⟩

theorem State.shared_goto (hpc : s.pc t = q) (hc : p.copied = q.copied)
    (hf : p.fenced = q.fenced) : (s.goto t p).shared = s.shared := by
  obtain ⟨hcop, hfen⟩ := Pc.comp_move hpc hc hf
  unfold State.shared State.goto
  rw [hcop, hfen]

end Moves

section Steps

variable [DecidableEq Obj] [DecidableEq Loc] {cfg : Config}

/-- **A step of the reclaimer** is a step on slots, buffers and scans, or leaves them alone. -/
theorem Step.buffered {s s' : State n Obj Loc} {a : Actor n} (hstep : Step cfg s a s') :
    s'.shared = s.shared ∨ ∃ u f, Buffered.Step Unnamed u s.shared f s'.shared := by
  cases hstep with
  | write l p => exact .inl rfl
  | link o h => exact .inl rfl
  | unlink o h => exact .inl rfl
  -- the processor flushes a buffer whenever it likes
  | flush t i v rest h => exact .inr ⟨t, none, .flush i v rest h⟩
  | callRead t idx l hpc => exact .inl (State.shared_goto hpc rfl rfl)
  | readLoad t idx l hpc => exact .inl (State.shared_goto hpc rfl rfl)
  | readReserve t idx l ret hpc =>
    -- the reservation is stored, but another thread may not see it yet
    refine .inr ⟨t, none, ?_⟩
    obtain ⟨hcop, hfen⟩ := Pc.comp_move (p := .readCheck idx l ret) hpc rfl rfl
    unfold State.shared State.goto State.reserve
    dsimp only
    rw [hcop, hfen]
    exact .store idx ret.obj
  | readReturn t idx l ret hpc hret => exact .inl (State.shared_goto hpc rfl rfl)
  | readRetry t idx l ret hpc hret => exact .inl (State.shared_goto hpc rfl rfl)
  | callEndOp t hpc => exact .inl (State.shared_goto hpc rfl rfl)
  | endOp t i hpc =>
    -- `endOp` clears the slots one by one
    refine .inr ⟨t, none, ?_⟩
    obtain ⟨hcop, hfen⟩ := Pc.comp_move (p := .endOp (i + 1)) hpc rfl rfl
    unfold State.shared State.goto State.clear
    dsimp only
    rw [hcop, hfen]
    exact .storeNow i none
  | endOpReturn t hpc => exact .inl (State.shared_goto hpc rfl rfl)
  | retire t o hpc ho hc =>
    -- the object becomes retired, and the bag grows
    have hcop : (s.pc t).copied = 0 := by rw [hpc]; rfl
    have hfen : (s.pc t).fenced = ∅ := by rw [hpc]; rfl
    exact .inr ⟨t, none, .push o hfen hcop⟩
  | retireEmpty t o hpc ho hc =>
    -- and from the threshold on, the bag is emptied
    refine .inr ⟨t, none, ?_⟩
    have hcop₀ : (s.pc t).copied = 0 := by rw [hpc]; rfl
    have hfen₀ : (s.pc t).fenced = ∅ := by rw [hpc]; rfl
    obtain ⟨hcop, hfen⟩ := Pc.comp_move (p := .barrier ∅) hpc rfl rfl
    unfold State.shared State.goto State.count State.pushBack
    dsimp only
    rw [hcop, hfen]
    exact .push o hfen₀ hcop₀
  | barrier t u done hpc hu =>
    -- the barrier reaches one more thread and empties its buffer
    refine .inr ⟨t, none, ?_⟩
    have hfen : s.shared.fenced t = done := congrArg Pc.fenced hpc
    have hcop : (s.pc t).copied = 0 := by rw [hpc]; rfl
    have hstep : Buffered.Step Unnamed t s.shared none _ := .fence u (by rwa [hfen])
    have hcop' : update (Pc.copied ∘ s.pc) t (Pc.barrier (insert u done) : Pc n Obj Loc).copied =
        Pc.copied ∘ s.pc := update_eq_self_iff.mpr hcop.symm
    have hfen' : (Pc.barrier (insert u done) : Pc n Obj Loc).fenced =
        insert u (s.shared.fenced t) := congrArg (insert u) hfen.symm
    unfold State.shared State.goto State.fence
    dsimp only
    rw [comp_update, comp_update, hcop', hfen']
    exact hstep
  | barrierEnd t done hpc hdone =>
    obtain rfl := Finset.eq_univ_iff_forall.mpr hdone
    exact .inl (State.shared_goto hpc rfl rfl)
  | snapshot t u i hpc =>
    -- the slots are copied from the memory
    refine .inr ⟨t, none, ?_⟩
    have hcop : (s.pc t).copied = u * slotsPerThread + i := by rw [hpc]; rfl
    have hfen : s.shared.fenced t = Finset.univ := congrArg Pc.fenced hpc
    have hstep : Buffered.Step Unnamed t s.shared none _ :=
      .copy u i (Finset.eq_univ_iff_forall.mp hfen) hcop
    have hfen' : update (Pc.fenced ∘ s.pc) t
        ((Pc.snapshot (u * slotsPerThread + i + 1) : Pc n Obj Loc).fenced) = Pc.fenced ∘ s.pc :=
      update_eq_self_iff.mpr hfen.symm
    have hcop' : (Pc.snapshot (u * slotsPerThread + i + 1) : Pc n Obj Loc).copied =
        s.shared.copied t + 1 := congrArg (· + 1) hcop.symm
    unfold State.shared State.goto State.copyEntry
    dsimp only
    rw [comp_update, comp_update, hfen', hcop']
    exact hstep
  | snapshotEnd t hpc => exact .inl (State.shared_goto hpc rfl rfl)
  | scanKeep t pos o hpc ho hc => exact .inl (State.shared_goto hpc rfl rfl)
  | scanFree t pos o hpc ho hc =>
    -- a freed object leaves the bag
    refine .inr ⟨t, some o, ?_⟩
    have hcop₀ : (s.pc t).copied = n * slotsPerThread := by rw [hpc]; rfl
    obtain ⟨hcop, hfen⟩ := Pc.comp_move (p := .scan pos) hpc rfl rfl
    unfold State.shared State.goto State.passToPool
    dsimp only
    rw [hcop, hfen]
    exact .free pos o hcop₀ ho (unnamed_iff.mpr hc)
  | scanEnd t pos hpc ho =>
    -- the next empty needs new barriers and new copies
    refine .inr ⟨t, none, ?_⟩
    have hstep : Buffered.Step Unnamed t s.shared none _ := .finish
    unfold State.shared State.goto State.count
    dsimp only
    rw [comp_update, comp_update]
    exact hstep

end Steps

end IbrHpAsyf
end PopSetbench

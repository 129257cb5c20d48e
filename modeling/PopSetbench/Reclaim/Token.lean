import PopSetbench.Library.Run
import PopSetbench.Library.TokenRing

/-!
# Token-EBR

The reclaimer of `reclaimer_token4.h`. A token goes round the threads. A thread that finds its flag
set in `startOp` clears it, sets the flag of the next thread and rotates its two bags: it passes the
last one to the pool, then the current one becomes the last one. With `DEAMORTIZE_FREE_CALLS` the
objects go to a list of their own, from which every `startOp` frees one. With `vtoken3` the objects
that the pool has left are freed one by one, and the token is passed on again in between.

A bag is a list of blocks, of which only the first one is not full, so what is left of it when the
full blocks are moved is less than a block. `pool_none` leaves nothing. A block has `BLOCK_SIZE`
cells, 40 where pointers have 8 bytes.
-/

namespace PopSetbench
namespace Token

open Function

/-- `BLOCK_SIZE_DESIRED_BYTES/sizeof(T*)-3*sizeof(size_t)`. -/
def blockSize : ℕ := 512 / 8 - 3 * 8

/-- How the file is compiled. -/
structure Config where
  /-- `DEAMORTIZE_FREE_CALLS`. -/
  deamortizeFreeCalls : Bool
  /-- `vtoken3`. -/
  vtoken3 : Bool
  /-- `BLOCK_SIZE`. -/
  blockSize : ℕ

/-- Where a thread is in the code. -/
inductive Pc
  /-- In an operation or between two of them. -/
  | idle
  /-- `startOp`: about to clear its flag. -/
  | clear
  /-- `startOp`: about to set the flag of the next thread. -/
  | pass
  /-- `rotateEpochBags`: about to move the full blocks of the last bag. -/
  | release
  /-- `rotateEpochBags`: at the head of the loop, with `regular_tokenCheck`. -/
  | loop (check : ℕ)
  /-- In the loop, about to clear its flag. -/
  | loopClear
  /-- In the loop, about to set the flag of the next thread. -/
  | loopPass
  /-- `rotateEpochBags`: about to swap the bags. -/
  | swap
  /-- `startOp`: about to free one object of the list. -/
  | amortize
  deriving DecidableEq

/-- A retired object. Bookkeeping: how many `startOp`s each thread had begun when it was retired,
and whether it was in one. -/
structure Retired (n : ℕ) (Obj : Type) where
  obj : Obj
  begun : Fin n → ℕ
  inside : Fin n → Bool

/-- The state of the reclaimer with `n` threads. -/
structure State (n : ℕ) (Obj : Type) where
  /-- `threadData[tid].token`. -/
  token : Fin n → Bool
  /-- `threadData[tid].curr`, oldest object first. -/
  curr : Fin n → List (Retired n Obj)
  /-- `threadData[tid].last`. -/
  last : Fin n → List (Retired n Obj)
  /-- `threadData[tid].deamortizedFreeables`. -/
  deamortizedFreeables : Fin n → List (Retired n Obj)
  /-- Where each thread is. -/
  pc : Fin n → Pc
  /-- Bookkeeping: how many `startOp`s the thread has begun. -/
  begun : Fin n → ℕ
  /-- Bookkeeping: how often the token was handed over. -/
  hops : ℕ
  /-- Bookkeeping: the number of the thread's last handing over in `startOp`. -/
  sent : Fin n → ℕ

variable {n : ℕ} {Obj : Type}

namespace State

/-- The state after the constructor and `initThread` of every thread. -/
def initial (n : ℕ) (Obj : Type) : State n Obj where
  token u := u.val = 0
  curr _ := []
  last _ := []
  deamortizedFreeables _ := []
  pc _ := .idle
  begun _ := 0
  hops := 0
  sent _ := 0

variable (s : State n Obj)

/-- Thread `t` goes on at `p`. -/
def goto (t : Fin n) (p : Pc) : State n Obj :=
  { s with pc := update s.pc t p }

/-- Thread `t` begins a `startOp`. -/
def begin (t : Fin n) : State n Obj :=
  { s with begun := update s.begun t (s.begun t + 1) }

/-- `threadData[tid].token = 0`. -/
def clearToken (t : Fin n) : State n Obj :=
  { s with token := update s.token t false }

/-- `threadData[(tid+1) % this->NUM_PROCESSES].token = 1`. -/
def passToken (t : Fin n) : State n Obj :=
  { s with
    token := update s.token (TokenRing.next t) true
    hops := s.hops + 1 }

/-- The end of `rotateEpochBags`. -/
def swap (t : Fin n) : State n Obj :=
  { s with
    curr := update s.curr t (s.last t)
    last := update s.last t (s.curr t) }

/-- `threadData[tid].curr->add(p)`. -/
def retire (t : Fin n) (o : Obj) : State n Obj :=
  { s with
    curr := update s.curr t
      (s.curr t ++ [⟨o, s.begun, fun u => s.pc u ≠ .idle⟩]) }

end State

/-- Where `startOp` goes on when it has dealt with the token. -/
def Config.rest (cfg : Config) : Pc :=
  if cfg.deamortizeFreeCalls then .amortize else .idle

/-- The atomic steps, each with the thread that takes it. -/
inductive Step (cfg : Config) : State n Obj → Fin n → State n Obj → Prop
  /-- `startOp` finds the token. -/
  | startOpToken (s : State n Obj) (t : Fin n) (hpc : s.pc t = .idle) (htoken : s.token t = true) :
      Step cfg s t ((s.begin t).goto t .clear)
  /-- `startOp` does not find the token. -/
  | startOp (s : State n Obj) (t : Fin n) (hpc : s.pc t = .idle) (htoken : s.token t = false) :
      Step cfg s t ((s.begin t).goto t cfg.rest)
  | clear (s : State n Obj) (t : Fin n) (hpc : s.pc t = .clear) :
      Step cfg s t ((s.clearToken t).goto t .pass)
  | pass (s : State n Obj) (t : Fin n) (hpc : s.pc t = .pass) :
      Step cfg s t { (s.passToken t).goto t .release with sent := update s.sent t s.hops }
  /-- `freelist->appendMoveFullBlocks(freeable)`. -/
  | releaseFreelist (s : State n Obj) (t : Fin n) (hpc : s.pc t = .release)
      (hcfg : cfg.deamortizeFreeCalls = true) :
      Step cfg s t
        { s.goto t .swap with
          deamortizedFreeables := update s.deamortizedFreeables t
            ((s.last t).take ((s.last t).length - (s.last t).length % cfg.blockSize) ++
              s.deamortizedFreeables t)
          last := update s.last t
            ((s.last t).drop ((s.last t).length - (s.last t).length % cfg.blockSize)) }
  /-- `this->pool->addMoveFullBlocks(tid, freeable)`; `left` is what the pool leaves. -/
  | releasePool (s : State n Obj) (t : Fin n) (moved left : List (Retired n Obj))
      (hpc : s.pc t = .release) (hcfg : cfg.deamortizeFreeCalls = false)
      (hlast : s.last t = moved ++ left) (hleft : left.length < cfg.blockSize) :
      Step cfg s t
        { s.goto t (if cfg.vtoken3 then .loop 0 else .swap) with last := update s.last t left }
  /-- It is time to look for the token, and it has come back. -/
  | loopToken (s : State n Obj) (t : Fin n) (c : ℕ) (hpc : s.pc t = .loop c)
      (hlast : s.last t ≠ []) (hc : 100 < c) (htoken : s.token t = true) :
      Step cfg s t (s.goto t .loopClear)
  /-- It has not. -/
  | loopReset (s : State n Obj) (t : Fin n) (c : ℕ) (hpc : s.pc t = .loop c)
      (hlast : s.last t ≠ []) (hc : 100 < c) (htoken : s.token t = false) :
      Step cfg s t (s.goto t (.loop 0))
  | loopClear (s : State n Obj) (t : Fin n) (hpc : s.pc t = .loopClear) :
      Step cfg s t ((s.clearToken t).goto t .loopPass)
  | loopPass (s : State n Obj) (t : Fin n) (hpc : s.pc t = .loopPass) :
      Step cfg s t ((s.passToken t).goto t (.loop 0))
  /-- An object is passed to the pool. -/
  | loopFree (s : State n Obj) (t : Fin n) (c : ℕ) (left : List (Retired n Obj))
      (r : Retired n Obj) (hpc : s.pc t = .loop c) (hlast : s.last t = left ++ [r])
      (hc : ¬ 100 < c) :
      Step cfg s t { s.goto t (.loop (c + 1)) with last := update s.last t left }
  | loopEnd (s : State n Obj) (t : Fin n) (c : ℕ) (hpc : s.pc t = .loop c) (hlast : s.last t = []) :
      Step cfg s t (s.goto t .swap)
  | swap (s : State n Obj) (t : Fin n) (hpc : s.pc t = .swap) :
      Step cfg s t ((s.swap t).goto t cfg.rest)
  /-- `this->pool->add(tid, deamortizedFreeables->remove())`. -/
  | amortizeFree (s : State n Obj) (t : Fin n) (left : List (Retired n Obj)) (r : Retired n Obj)
      (hpc : s.pc t = .amortize) (hlist : s.deamortizedFreeables t = left ++ [r]) :
      Step cfg s t
        { s.goto t .idle with
          deamortizedFreeables := update s.deamortizedFreeables t left }
  | amortizeEnd (s : State n Obj) (t : Fin n) (hpc : s.pc t = .amortize)
      (hlist : s.deamortizedFreeables t = []) :
      Step cfg s t (s.goto t .idle)
  | retire (s : State n Obj) (t : Fin n) (o : Obj) (hpc : s.pc t = .idle) :
      Step cfg s t (s.retire t o)

/-- The reclaimer with `n` threads as a transition system. -/
def system (cfg : Config) : Lts (State n Obj) (Fin n) where
  init s := s = State.initial n Obj
  step := Step cfg

/-- Some thread is between the two stores with which it hands the token over. -/
def HandingOver (s : State n Obj) : Prop := ∃ u, s.pc u = .pass ∨ s.pc u = .loopPass

/-- The object is in the last bag of thread `t` when `rotateEpochBags` releases what is in it, or
in the list from which it is freed later. -/
def Releases (s : State n Obj) (t : Fin n) (r : Retired n Obj) : Prop :=
  (s.pc t = .release ∨ ∃ c, s.pc t = .loop c) ∧ r ∈ s.last t ∨ r ∈ s.deamortizedFreeables t

/-- Thread `u` has begun a `startOp` since the object was retired. -/
def Begun (s : State n Obj) (r : Retired n Obj) (u : Fin n) : Prop := r.begun u < s.begun u

end Token
end PopSetbench

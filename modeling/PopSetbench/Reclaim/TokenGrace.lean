import PopSetbench.Reclaim.Token

/-!
# Token-EBR: grace periods

An object waits in the current bag until its thread hands the token over, then in the last bag until
the token has come back and is handed over again (`Waiting`). In between every other thread has
handed the token over, too (`TokenRing.exists_hop`), which it does in `startOp`.

A thread that hands the token over while it frees objects may have begun that `startOp` before the
object was retired; then it was in no operation at that time. With blocks of 40 cells this does not
happen, since less than a block is left to the loop and it looks for the token after 101 objects.
So there are two results: `token_waits` for every `BLOCK_SIZE` and `token_grace` for the one of the
file.
-/

namespace PopSetbench
namespace Token

open Function

variable {n : ℕ} {Obj : Type}

/-- What a thread at a point of the code is doing with the token. -/
def Pc.stage : Pc → TokenStage
  | .clear => .seen
  | .loopClear => .seen
  | .pass => .cleared
  | .loopPass => .cleared
  | _ => .away

/-- The thread is in `rotateEpochBags`. -/
def Pc.rotating : Pc → Bool
  | .release => true
  | .loop _ => true
  | .loopClear => true
  | .loopPass => true
  | .swap => true
  | _ => false

/-- The flags and the threads as a token ring. -/
def State.ring (s : State n Obj) : TokenRing n := ⟨s.token, fun u => (s.pc u).stage, s.hops⟩

/-- The object is in the bags of thread `t`. -/
def Kept (s : State n Obj) (t : Fin n) (r : Retired n Obj) : Prop := r ∈ s.curr t ∨ r ∈ s.last t

/-- The object was retired before the last time that `startOp` of thread `t` handed the token over,
and is not being released. -/
def Waiting (s : State n Obj) (t : Fin n) (r : Retired n Obj) : Prop :=
  if (s.pc t).rotating then r ∈ s.curr t else r ∈ s.last t

theorem Waiting.kept {s : State n Obj} {t : Fin n} {r : Retired n Obj} (h : Waiting s t r) :
    Kept s t r := by
  unfold Waiting at h
  split_ifs at h
  · exact .inl h
  · exact .inr h

/-- The loop of `rotateEpochBags` can be long enough to look for the token. -/
def Config.Repasses (cfg : Config) : Prop := cfg.vtoken3 = true ∧ 102 < cfg.blockSize

/-- Thread `u` has begun a `startOp` since the object was retired; or it was in one at the time, and
hands the token over in the loop. -/
def Done (cfg : Config) (s : State n Obj) (r : Retired n Obj) (u : Fin n) : Prop :=
  Begun s r u ∨ cfg.Repasses ∧ r.inside u = true

/-- What is known of the length of the last bag in the loop. -/
def Own (cfg : Config) (len : ℕ) : Pc → Prop
  | .loop c => cfg.vtoken3 = true ∧ c + len < cfg.blockSize
  | .loopClear => cfg.Repasses ∧ len < cfg.blockSize
  | .loopPass => cfg.Repasses ∧ len < cfg.blockSize
  | _ => True

/-- **The invariant.** -/
structure Inv (cfg : Config) (s : State n Obj) : Prop where
  ring : s.ring.Inv
  own : ∀ t, Own cfg (s.last t).length (s.pc t)
  counted : ∀ t r, Kept s t r → ∀ u, r.begun u ≤ s.begun u
  inside : ∀ t r, Kept s t r → ∀ u, s.pc u ≠ .idle → Begun s r u ∨ r.inside u = true
  /-- Who has found the token in `startOp` began it after everything that waits was retired. -/
  seen : ∀ u, s.pc u = .clear ∨ s.pc u = .pass → ∀ t ≠ u, ∀ r, Waiting s t r → Begun s r u
  /-- What waits was retired before the threads that have handed the token over since did so. -/
  sent : ∀ t r, Waiting s t r → s.sent t % n = t.val ∧ s.sent t < s.hops ∧
    ∀ h, s.sent t < h → h < s.hops → ∀ u ≠ t, h % n = u.val → Done cfg s r u
  released : ∀ t r, (s.pc t).rotating = true → r ∈ s.last t → ∀ u ≠ t, Done cfg s r u
  freelist : ∀ t r, r ∈ s.deamortizedFreeables t → ∀ u ≠ t, Done cfg s r u

theorem Inv.initial (cfg : Config) : Inv cfg (State.initial n Obj) where
  ring := TokenRing.Inv.initial
  own _ := trivial
  counted _ _ h := h.elim (absurd · List.not_mem_nil) (absurd · List.not_mem_nil)
  inside _ _ h := h.elim (absurd · List.not_mem_nil) (absurd · List.not_mem_nil)
  seen _ h := h.elim nofun nofun
  sent _ _ h := absurd h List.not_mem_nil
  released _ _ h := nomatch h
  freelist _ _ h := absurd h List.not_mem_nil

section Steps

variable {cfg : Config} {s s' : State n Obj} {a t u : Fin n} {r : Retired n Obj}

theorem Config.rest_stage : cfg.rest.stage = .away := by
  unfold Config.rest
  split <;> rfl

theorem Config.rest_rotating : cfg.rest.rotating = false := by
  unfold Config.rest
  split <;> rfl

/-! ### What a step does -/

/-- What belongs to thread `t` is changed by its own steps only, except its flag. -/
structure Frame (s s' : State n Obj) (t : Fin n) : Prop where
  curr : s'.curr t = s.curr t
  last : s'.last t = s.last t
  deamortizedFreeables : s'.deamortizedFreeables t = s.deamortizedFreeables t
  pc : s'.pc t = s.pc t
  begun : s'.begun t = s.begun t
  sent : s'.sent t = s.sent t

theorem Step.frame (hstep : Step cfg s a s') (ht : t ≠ a) : Frame s s' t := by
  cases hstep <;>
    refine ⟨?_, ?_, ?_, ?_, ?_, ?_⟩ <;> first | rfl | exact update_of_ne ht _ _

theorem Step.begun_le (hstep : Step cfg s a s') (u : Fin n) : s.begun u ≤ s'.begun u := by
  have hbegin : s.begun u ≤ (s.begin a).begun u := by
    show s.begun u ≤ update s.begun a (s.begun a + 1) u
    by_cases hu : u = a
    · subst hu
      rw [update_self]
      exact Nat.le_succ _
    · rw [update_of_ne hu]
  cases hstep with
  | startOpToken hpc htoken => exact hbegin
  | startOp hpc htoken => exact hbegin
  | _ => exact le_rfl

theorem Begun.step (hstep : Step cfg s a s') (h : Begun s r u) : Begun s' r u :=
  Nat.lt_of_lt_of_le h (hstep.begun_le u)

theorem Done.step (hstep : Step cfg s a s') (h : Done cfg s r u) : Done cfg s' r u :=
  h.imp (·.step hstep) id

/-- **Refinement.** What a step does with the token is a step of the ring. -/
theorem Step.ring (hstep : Step cfg s a s') :
    TokenRing.Step s.ring s'.ring a ∨ s'.ring = s.ring := by
  -- a step that leaves the token alone
  have same : ∀ {p : Pc}, p.stage = (s.pc a).stage →
      (fun u => (update s.pc a p u).stage) = fun u => (s.pc u).stage := by
    intro p hp
    funext u
    by_cases hu : u = a
    · subst hu
      rw [update_self, hp]
    · rw [update_of_ne hu]
  have moved : ∀ {p : Pc} {g : TokenStage}, p.stage = g →
      (fun u => (update s.pc a p u).stage) = update (fun u => (s.pc u).stage) a g := by
    intro p g hp
    funext u
    by_cases hu : u = a
    · subst hu
      rw [update_self, update_self, hp]
    · rw [update_of_ne hu, update_of_ne hu]
  have stage : ∀ {p : Pc}, s.pc a = p → s.ring.stage a = p.stage := fun h => congrArg Pc.stage h
  -- the three stages are passed in their order
  cases hstep with
  | startOpToken hpc htoken =>
    refine .inl (.see (stage hpc) htoken ?_)
    exact congrArg (TokenRing.mk s.token · s.hops) (moved rfl)
  | clear hpc =>
    refine .inl (.clear (stage hpc) ?_)
    exact congrArg (TokenRing.mk (update s.token a false) · s.hops) (moved rfl)
  | pass hpc =>
    refine .inl (.set (stage hpc) ?_)
    exact congrArg (TokenRing.mk (update s.token (TokenRing.next a) true) · (s.hops + 1)) (moved rfl)
  | loopToken c hpc hlast hc htoken =>
    refine .inl (.see (stage hpc) htoken ?_)
    exact congrArg (TokenRing.mk s.token · s.hops) (moved rfl)
  | loopClear hpc =>
    refine .inl (.clear (stage hpc) ?_)
    exact congrArg (TokenRing.mk (update s.token a false) · s.hops) (moved rfl)
  | loopPass hpc =>
    -- the loop of the third variant does the same
    refine .inl (.set (stage hpc) ?_)
    exact congrArg (TokenRing.mk (update s.token (TokenRing.next a) true) · (s.hops + 1)) (moved rfl)
  | startOp hpc htoken =>
    exact .inr (congrArg (TokenRing.mk s.token · s.hops)
      (same (cfg.rest_stage.trans (by rw [hpc]; rfl))))
  | swap hpc =>
    exact .inr (congrArg (TokenRing.mk s.token · s.hops)
      (same (cfg.rest_stage.trans (by rw [hpc]; rfl))))
  | releasePool moved left hpc hcfg hlast hleft =>
    refine .inr (congrArg (TokenRing.mk s.token · s.hops) (same ?_))
    rw [hpc]
    split <;> rfl
  -- the other steps leave the token and the stages alone
  | retire o hpc => exact .inr rfl
  | releaseFreelist hpc hcfg | loopReset c hpc hlast hc htoken | loopFree c left r hpc hlast hc
  | loopEnd c hpc hlast | amortizeFree left r hpc hlist | amortizeEnd hpc hlist =>
    exact .inr (congrArg (TokenRing.mk s.token · s.hops) (same (by rw [hpc]; rfl)))

/-- The object is retired by the step. -/
structure RetiredNow (s s' : State n Obj) (r : Retired n Obj) : Prop where
  begun : r.begun = s.begun
  inside : ∀ u, r.inside u = decide (s.pc u ≠ .idle)
  same : s'.begun = s.begun
  pc : s'.pc = s.pc

/-- What is in the bags after a step was there before, or is retired now. -/
theorem Step.kept (hstep : Step cfg s a s') (h : Kept s' t r) :
    Kept s t r ∨ RetiredNow s s' r := by
  by_cases ht : t = a
  · subst ht
    have shrunk : ∀ {l : List (Retired n Obj)}, (∀ b ∈ l, b ∈ s.last t) →
        (r ∈ s.curr t ∨ r ∈ update s.last t l t) → Kept s t r := by
      intro l hl h
      rw [update_self] at h
      exact h.imp id (hl r)
    cases hstep with
    | releaseFreelist hpc hcfg => exact .inl (shrunk (fun b hb => List.mem_of_mem_drop hb) h)
    | releasePool moved left hpc hcfg hlast hleft =>
      exact .inl (shrunk (fun b hb => hlast ▸ List.mem_append_right _ hb) h)
    | loopFree c left r' hpc hlast hc =>
      exact .inl (shrunk (fun b hb => hlast ▸ List.mem_append_left _ hb) h)
    | swap hpc =>
      have h : r ∈ update s.curr t (s.last t) t ∨ r ∈ update s.last t (s.curr t) t := h
      rw [update_self, update_self] at h
      exact .inl h.symm
    | retire o hpc =>
      have h : r ∈ update s.curr t (s.curr t ++ [_]) t ∨ r ∈ s.last t := h
      rw [update_self, List.mem_append, List.mem_singleton] at h
      rcases h with (h | rfl) | h
      · exact .inl (.inl h)
      · exact .inr ⟨rfl, fun _ => rfl, rfl, rfl⟩
      · exact .inl (.inr h)
    | _ => exact .inl h
  · have hf := hstep.frame ht
    unfold Kept at h
    rw [hf.curr, hf.last] at h
    exact .inl h

/-- The thread hands the token over in `startOp`. -/
structure Passed (s s' : State n Obj) (t : Fin n) : Prop where
  pc : s.pc t = .pass
  sent : s'.sent t = s.hops
  hops : s'.hops = s.hops + 1

/-- What waits after a step has waited before, unless its thread hands the token over. -/
theorem Step.waiting (hstep : Step cfg s a s') (h : Waiting s' t r) :
    Waiting s t r ∧ s'.sent t = s.sent t ∨ a = t ∧ Kept s t r ∧ Passed s s' t := by
  -- the thread itself: its bags change at a swap, a retirement and a release
  by_cases ht : t = a
  · subst ht
    have pc : ∀ {p : Pc}, s.pc t = p → Waiting s t r =
        if p.rotating then r ∈ s.curr t else r ∈ s.last t := by
      rintro p rfl
      rfl
    unfold Waiting at h
    cases hstep with
    | pass hpc =>
      right
      simp only [State.goto, State.passToken, update_self] at h
      exact ⟨rfl, .inl h, hpc, update_self .., rfl⟩
    | swap hpc =>
      left
      rw [pc hpc]
      simp only [State.goto, State.swap, update_self, Config.rest_rotating] at h
      exact ⟨h, rfl⟩
    | startOp hpc htoken =>
      left
      rw [pc hpc]
      simp only [State.goto, State.begin, update_self, Config.rest_rotating] at h
      exact ⟨h, rfl⟩
    | releasePool moved left hpc hcfg hlast hleft =>
      left
      rw [pc hpc]
      have hrot : (if cfg.vtoken3 then Pc.loop 0 else Pc.swap).rotating = true := by
        split <;> rfl
      simp only [State.goto, update_self, hrot] at h
      exact ⟨h, rfl⟩
    | retire o hpc =>
      -- what is retired now goes into the current bag and does not wait yet
      left
      rw [pc hpc]
      simp only [State.retire, hpc] at h
      exact ⟨h, rfl⟩
    | startOpToken hpc htoken | clear hpc | releaseFreelist hpc hcfg
    | loopToken c hpc hlast hc htoken | loopReset c hpc hlast hc htoken | loopClear hpc
    | loopPass hpc | loopFree c left r hpc hlast hc | loopEnd c hpc hlast
    | amortizeFree left r hpc hlist | amortizeEnd hpc hlist =>
      left
      rw [pc hpc]
      simp only [State.goto, State.begin, State.clearToken, State.passToken, update_self] at h
      exact ⟨h, rfl⟩
  · -- a step of another thread leaves its bags alone
    have hf := hstep.frame ht
    unfold Waiting at h ⊢
    rw [hf.pc, hf.curr, hf.last] at h
    exact .inl ⟨h, hf.sent⟩

/-- Who hands the token over in a step. -/
theorem Step.hops (hstep : Step cfg s a s') :
    s'.hops = s.hops ∨ s'.hops = s.hops + 1 ∧ (s.pc a = .pass ∨ s.pc a = .loopPass) := by
  cases hstep with
  | pass hpc => exact .inr ⟨rfl, .inl hpc⟩
  | loopPass hpc => exact .inr ⟨rfl, .inr hpc⟩
  | _ => exact .inl rfl

/-! ### Every step keeps the invariant -/

theorem Inv.ring_step (hI : Inv cfg s) (hstep : Step cfg s a s') : s'.ring.Inv := by
  rcases hstep.ring with hring | hring
  · exact hI.ring.step hring
  · rw [hring]
    exact hI.ring

/-- What belongs to the token cannot belong to two threads. -/
theorem Inv.eq_of_stage (hI : Inv cfg s) (ht : (s.pc t).stage ≠ .away)
    (hu : (s.pc u).stage ≠ .away) : t = u :=
  hI.ring.stage_eq ht hu

theorem Inv.own_step (hI : Inv cfg s) (hstep : Step cfg s a s') (t : Fin n) :
    Own cfg (s'.last t).length (s'.pc t) := by
  -- the thread itself, by what it does next
  by_cases ht : t = a
  · subst ht
    have h := hI.own t
    have rest : ∀ len, Own cfg len cfg.rest := by
      intro len
      unfold Config.rest
      split <;> trivial
    cases hstep with
    | startOp hpc htoken =>
      simp only [State.goto, State.begin, update_self]
      exact rest _
    | swap hpc =>
      -- the swap makes the current bag the last one
      simp only [State.goto, State.swap, update_self]
      exact rest _
    | releasePool moved left hpc hcfg hlast hleft =>
      simp only [State.goto, update_self]
      split
      · exact ⟨by assumption, by simpa using hleft⟩
      · trivial
    | loopToken c hpc hlast hc htoken =>
      rw [hpc] at h
      have hpos : 0 < (s.last t).length := List.length_pos_iff.mpr hlast
      have hlt := h.2
      simp only [State.goto, update_self]
      exact ⟨⟨h.1, by omega⟩, by omega⟩
    | loopReset c hpc hlast hc htoken =>
      rw [hpc] at h
      have hlt := h.2
      simp only [State.goto, update_self]
      exact ⟨h.1, by omega⟩
    | loopClear hpc =>
      rw [hpc] at h
      simp only [State.goto, State.clearToken, update_self]
      exact h
    | loopPass hpc =>
      rw [hpc] at h
      simp only [State.goto, State.passToken, update_self]
      exact ⟨h.1.1, by simpa using h.2⟩
    | loopFree c left r hpc hlast hc =>
      rw [hpc, hlast, List.length_append, List.length_singleton] at h
      have hlt := h.2
      simp only [State.goto, update_self]
      exact ⟨h.1, by omega⟩
    | retire o hpc =>
      simp only [State.retire, hpc]
      trivial
    | _ =>
      -- the remaining steps leave the count alone
      simp only [State.goto, State.begin, State.clearToken, State.passToken, update_self]
      trivial
  · -- the bags of a thread are its own
    have hf := hstep.frame ht
    rw [hf.last, hf.pc]
    exact hI.own t

theorem Inv.counted_step (hI : Inv cfg s) (hstep : Step cfg s a s') (h : Kept s' t r)
    (u : Fin n) : r.begun u ≤ s'.begun u := by
  rcases hstep.kept h with hold | hnew
  · exact (hI.counted t r hold u).trans (hstep.begun_le u)
  · rw [hnew.begun, hnew.same]

/-- A thread that enters the code does so by beginning a `startOp`. -/
theorem Step.begins (hstep : Step cfg s a s') (hpc : s.pc u = .idle) (hpc' : s'.pc u ≠ .idle) :
    s'.begun u = s.begun u + 1 := by
  have hu : u = a := by
    by_contra hne
    exact hpc' ((hstep.frame hne).pc.trans hpc)
  subst hu
  cases hstep with
  | startOpToken _ _ => exact update_self ..
  | startOp _ _ => exact update_self ..
  | retire o _ => exact absurd hpc hpc'
  | _ => simp_all

theorem Inv.inside_step (hI : Inv cfg s) (hstep : Step cfg s a s') (h : Kept s' t r)
    (hu : s'.pc u ≠ .idle) : Begun s' r u ∨ r.inside u = true := by
  rcases hstep.kept h with hold | hnew
  · by_cases hidle : s.pc u = .idle
    · left
      unfold Begun
      rw [hstep.begins hidle hu]
      exact Nat.lt_succ_of_le (hI.counted t r hold u)
    · exact (hI.inside t r hold u hidle).imp (·.step hstep) id
  · right
    rw [hnew.inside, ← hnew.pc]
    exact decide_eq_true hu

/-- Whoever finds the token, nobody else hands it over in the meantime. -/
theorem Inv.seen_step (hI : Inv cfg s) (hstep : Step cfg s a s')
    (hu : s'.pc u = .clear ∨ s'.pc u = .pass) (ht : t ≠ u) (h : Waiting s' t r) :
    Begun s' r u := by
  have hstage : (s'.pc u).stage ≠ .away := by
    rcases hu with hu | hu <;> rw [hu] <;> exact nofun
  by_cases hbefore : s.pc u = .clear ∨ s.pc u = .pass
  · have hold : (s.pc u).stage ≠ .away := by
      rcases hbefore with hb | hb <;> rw [hb] <;> exact nofun
    rcases hstep.waiting h with ⟨hwait, -⟩ | ⟨-, -, hpassed⟩
    · exact (hI.seen u hbefore t ht r hwait).step hstep
    · refine absurd (hI.eq_of_stage ?_ hold) ht
      rw [hpassed.pc]
      exact nofun
  · -- it has just found it
    have hkept : Kept s t r := by
      rcases hstep.waiting h with ⟨hwait, -⟩ | ⟨-, hkept, -⟩
      · exact hwait.kept
      · exact hkept
    have hidle : s.pc u = .idle := by
      by_contra hne
      have hua : u = a := by
        by_contra hua
        rw [(hstep.frame hua).pc] at hu
        exact hbefore hu
      subst hua
      cases hstep with
      | startOpToken hpc | startOp hpc | retire o hpc => exact hne hpc
      | clear hpc => exact hbefore (.inl hpc)
      | swap hpc =>
        simp only [State.goto, State.swap, update_self] at hstage
        exact hstage cfg.rest_stage
      | releasePool moved left hpc hcfg hlast hleft =>
        simp only [State.goto, update_self] at hstage
        split at hstage <;> exact hstage rfl
      | loopToken c hpc hlast hc htoken | loopClear hpc =>
        simp [State.goto, State.clearToken] at hu
      | _ =>
        simp only [State.goto, State.passToken, update_self] at hstage
        exact hstage rfl
    unfold Begun
    rw [hstep.begins hidle (by rcases hu with hu | hu <;> rw [hu] <;> exact nofun)]
    exact Nat.lt_succ_of_le (hI.counted t r hkept u)

/-- The thread that hands the token over has begun a `startOp` since what waits was retired. -/
theorem Inv.done (hI : Inv cfg s) (hpc : s.pc u = .pass ∨ s.pc u = .loopPass)
    (ht : t ≠ u) (h : Waiting s t r) : Done cfg s r u := by
  rcases hpc with hpc | hpc
  · exact .inl (hI.seen u (.inr hpc) t ht r h)
  · have hown := hI.own u
    rw [hpc] at hown
    exact (hI.inside t r h.kept u (by rw [hpc]; exact nofun)).imp id fun hin => ⟨hown.1, hin⟩

theorem Inv.sent_step (hI : Inv cfg s) (hstep : Step cfg s a s') (h : Waiting s' t r) :
    s'.sent t % n = t.val ∧ s'.sent t < s'.hops ∧
      ∀ h, s'.sent t < h → h < s'.hops → ∀ u ≠ t, h % n = u.val → Done cfg s' r u := by
  rcases hstep.waiting h with ⟨hwait, hsent⟩ | ⟨rfl, -, hpassed⟩
  · obtain ⟨hmod, hlt, hdone⟩ := hI.sent t r hwait
    rw [hsent]
    have hle : s.hops ≤ s'.hops := by
      rcases hstep.hops with heq | ⟨heq, -⟩
      · exact heq.ge
      · rw [heq]
        exact Nat.le_succ _
    refine ⟨hmod, hlt.trans_le hle, fun k hk hk' u hu hmod' => Done.step hstep ?_⟩
    by_cases hknow : k < s.hops
    · exact hdone k hk hknow u hu hmod'
    · -- the acting thread has handed the token over in this step
      rcases hstep.hops with heq | ⟨heq, hpc⟩
      · exact absurd (heq ▸ hk') hknow
      · have hkeq : k = s.hops := by omega
        have hat : s.ring.hops % n = a.val := by
          refine hI.ring.hops_of_stage ?_
          show (s.pc a).stage ≠ .away
          rcases hpc with hpc | hpc <;> rw [hpc] <;> exact nofun
        rw [hkeq] at hmod'
        obtain rfl : a = u := Fin.ext (hat.symm.trans hmod')
        exact hI.done hpc (Ne.symm hu) hwait
  · -- the round has just begun
    have hat : s.ring.hops % n = a.val := by
      refine hI.ring.hops_of_stage ?_
      show (s.pc a).stage ≠ .away
      rw [hpassed.pc]
      exact nofun
    rw [hpassed.sent, hpassed.hops]
    exact ⟨hat, Nat.lt_succ_self _, fun k hk hk' => absurd hk' (Nat.not_lt.mpr hk)⟩

/-- When the token has come back and is handed over again, every other thread has handed it over. -/
theorem Inv.round (hI : Inv cfg s) (hpc : s.pc t = .pass) (hr : r ∈ s.last t) (hu : u ≠ t) :
    Done cfg s r u := by
  have hwait : Waiting s t r := by
    unfold Waiting
    rw [hpc]
    exact hr
  have hat : s.ring.hops % n = t.val := by
    refine hI.ring.hops_of_stage ?_
    show (s.pc t).stage ≠ .away
    rw [hpc]
    exact nofun
  obtain ⟨hmod, hlt, hdone⟩ := hI.sent t r hwait
  obtain ⟨h, hgt, hlt', hmod'⟩ := TokenRing.exists_hop hmod hat hlt hu
  exact hdone h hgt hlt' u hu hmod'

theorem Inv.released_step (hI : Inv cfg s) (hstep : Step cfg s a s')
    (hrot : (s'.pc t).rotating = true) (hr : r ∈ s'.last t) (hu : u ≠ t) : Done cfg s' r u := by
  refine Done.step hstep ?_
  by_cases ht : t = a
  · subst ht
    have old : ∀ {p : Pc}, s.pc t = p → p.rotating = true → r ∈ s.last t → Done cfg s r u := by
      rintro p rfl hp hmem
      exact hI.released t r hp hmem u hu
    cases hstep with
    | pass hpc => exact hI.round hpc hr hu
    | releaseFreelist hpc hcfg =>
      simp only [update_self] at hr
      exact old hpc rfl (List.mem_of_mem_drop hr)
    | releasePool moved left hpc hcfg hlast hleft =>
      simp only [update_self] at hr
      exact old hpc rfl (hlast ▸ List.mem_append_right _ hr)
    | loopFree c left r' hpc hlast hc =>
      simp only [update_self] at hr
      exact old hpc rfl (hlast ▸ List.mem_append_left _ hr)
    | loopToken c hpc hlast hc htoken | loopReset c hpc hlast hc htoken | loopClear hpc
    | loopPass hpc | loopEnd c hpc hlast => exact old hpc rfl hr
    | startOp hpc htoken =>
      simp [State.goto, State.begin, Config.rest_rotating] at hrot
    | swap hpc => simp [State.goto, State.swap, Config.rest_rotating] at hrot
    | retire o hpc => simp [State.retire, hpc, Pc.rotating] at hrot
    | _ => simp [State.goto, State.begin, State.clearToken, Pc.rotating] at hrot
  · have hf := hstep.frame ht
    rw [hf.pc] at hrot
    rw [hf.last] at hr
    exact hI.released t r hrot hr u hu

theorem Inv.freelist_step (hI : Inv cfg s) (hstep : Step cfg s a s')
    (hr : r ∈ s'.deamortizedFreeables t) (hu : u ≠ t) : Done cfg s' r u := by
  refine Done.step hstep ?_
  by_cases ht : t = a
  · subst ht
    cases hstep with
    | releaseFreelist hpc hcfg =>
      simp only [update_self, List.mem_append] at hr
      rcases hr with hr | hr
      · exact hI.released t r (by rw [hpc]; rfl) (List.mem_of_mem_take hr) u hu
      · exact hI.freelist t r hr u hu
    | amortizeFree left r' hpc hlist =>
      simp only [update_self] at hr
      exact hI.freelist t r (hlist ▸ List.mem_append_left _ hr) u hu
    | _ => exact hI.freelist t r hr u hu
  · rw [(hstep.frame ht).deamortizedFreeables] at hr
    exact hI.freelist t r hr u hu

/-- **Invariant preservation.** -/
theorem Inv.step (hI : Inv cfg s) (hstep : Step cfg s a s') : Inv cfg s' where
  ring := hI.ring_step hstep
  own := hI.own_step hstep
  counted _ _ h u := hI.counted_step hstep h u
  inside _ _ h _ hu := hI.inside_step hstep h hu
  seen _ hu _ ht _ h := hI.seen_step hstep hu ht h
  sent _ _ h := hI.sent_step hstep h
  released _ _ hrot hr _ hu := hI.released_step hstep hrot hr hu
  freelist _ _ hr _ hu := hI.freelist_step hstep hr hu

theorem Inv.reached (h : (system cfg).Reachable s) : Inv cfg s := by
  refine h.invariant ?_ fun s a s' _ hI _ hstep => hI.step hstep
  rintro s rfl
  exact Inv.initial cfg

/-- What is released has waited for every other thread. -/
theorem Inv.releases (hI : Inv cfg s) (h : Releases s t r) (hu : u ≠ t) : Done cfg s r u := by
  rcases h with ⟨hpc, hr⟩ | hr
  · refine hI.released t r ?_ hr u hu
    rcases hpc with hpc | ⟨c, hpc⟩ <;> rw [hpc] <;> rfl
  · exact hI.freelist t r hr u hu

/-- **Grace periods, for blocks of any size.** In every run, what is released was retired before
every other thread began the `startOp` it has begun last, or while the thread was in a `startOp`. -/
theorem token_waits (h : (system cfg).Reachable s) (hr : Releases s t r) (hu : u ≠ t) :
    Begun s r u ∨ r.inside u = true :=
  ((Inv.reached h).releases hr hu).imp id And.right

/-- **Token-EBR.** In every run, however the file is compiled, at most one flag is set, and one is
set unless the token is being handed over; and whenever `rotateEpochBags` releases an object from
the last bag, also when it is freed later, every other thread has begun a `startOp` since it was
retired. -/
theorem token_grace {deamortizeFreeCalls vtoken3 : Bool}
    (h : (system ⟨deamortizeFreeCalls, vtoken3, blockSize⟩).Reachable s) (hn : 0 < n) :
    (∀ u v, s.token u = true → s.token v = true → u = v) ∧
      (¬ HandingOver s → ∃ u, s.token u = true) ∧
      ∀ t r, Releases s t r → ∀ u ≠ t, Begun s r u := by
  have hI := Inv.reached h
  refine ⟨fun u v => hI.ring.at_most_one, fun hover => hI.ring.exists_one hn fun u hu => ?_,
    fun t r hr u hu => ?_⟩
  · have hstage : (s.pc u).stage = .cleared := hu
    refine hover ⟨u, ?_⟩
    cases hpc : s.pc u with
    | pass => exact .inl rfl
    | loopPass => exact .inr rfl
    | _ =>
      rw [hpc] at hstage
      cases hstage
  · -- less than a block is left to the loop
    exact (hI.releases hr hu).resolve_right fun hloop =>
      absurd hloop.1.2 (show ¬ 102 < blockSize by decide)

end Steps

/-- Thread `0` retires an object and hands the token over; thread `1` does so, too; when thread `0`
hands it over again, it releases the object. -/
theorem token_grace_released :
    ∃ (s : State 2 ℕ) (r : Retired 2 ℕ), r.obj = 7 ∧ Releases s 0 r ∧
      ((∀ u v, s.token u = true → s.token v = true → u = v) ∧
        (¬ HandingOver s → ∃ u, s.token u = true) ∧
        ∀ t r, Releases s t r → ∀ u ≠ t, Begun s r u) := by
  have hR : (system ⟨false, true, blockSize⟩).Reachable (State.initial 2 ℕ) := .init rfl
  have hR := hR.step (.retire _ 0 7 rfl)
  have hR := hR.step (.startOpToken _ 0 rfl rfl)
  have hR := hR.step (.clear _ 0 rfl)
  have hR := hR.step (.pass _ 0 rfl)
  have hR := hR.step (.releasePool _ 0 [] [] rfl rfl rfl (by decide))
  have hR := hR.step (.loopEnd _ 0 0 rfl rfl)
  have hR := hR.step (.swap _ 0 rfl)
  -- the turn of thread `1`
  have hR := hR.step (.startOpToken _ 1 rfl rfl)
  have hR := hR.step (.clear _ 1 rfl)
  have hR := hR.step (.pass _ 1 rfl)
  have hR := hR.step (.releasePool _ 1 [] [] rfl rfl rfl (by decide))
  have hR := hR.step (.loopEnd _ 1 0 rfl rfl)
  have hR := hR.step (.swap _ 1 rfl)
  -- and that of thread `0` again
  have hR := hR.step (.startOpToken _ 0 rfl rfl)
  have hR := hR.step (.clear _ 0 rfl)
  have hR := hR.step (.pass _ 0 rfl)
  exact ⟨_, _, rfl, .inl ⟨.inl rfl, List.mem_singleton_self _⟩, token_grace hR (by decide)⟩

end Token
end PopSetbench

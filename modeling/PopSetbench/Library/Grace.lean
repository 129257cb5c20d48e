import PopSetbench.Library.Run
import Mathlib.Logic.Function.Basic

/-!
# Reclaimers that wait for operations

A data structure brackets its operations and retires the nodes it has taken out. A reclaimer frees
a retired node once every operation has ended that was running at its retirement: this is all that
`Grace` does, and a concrete reclaimer is right if it refines `Grace` (`Lts.Refines`).

`Lts.served` runs a data structure with a reclaimer, and `Lts.bracketed` runs the data structure
alone, and keeps for each thread what was gone when its operation began. The two are connected by
`served_before`: if nodes are gone when they are retired, and stay so, then what is freed while an
operation runs was gone before the operation began, whichever reclaimer it is. So what is left to
show of a data structure is that its operations do not come across such nodes (`Lts.Careful`); that
is a property of its own runs, without any reclaimer. `Careful.sound` puts the two together.
-/

open Function

/-- What an operation tells the reclaimer. -/
inductive GraceCall (α : Type*)
  | startOp
  | endOp
  | retire (x : α)

/-- What a step of a reclaimer is to the outside. -/
inductive GraceStep (ι α : Type*)
  /-- A call of thread `t` takes effect. -/
  | call (t : ι) (c : GraceCall α)
  /-- A node is freed. -/
  | free (x : α)
  /-- Anything else. -/
  | own

/-- The operations that run, and for whom the retired nodes wait. -/
structure Grace (ι α : Type*) where
  /-- Between `startOp` and `endOp`. -/
  running : ι → Bool
  /-- Who was running when the node was retired, and is still in that operation. -/
  waits : α → Option (ι → Bool)

namespace Grace

variable {ι α : Type*}

/-- Nobody runs, and nothing is retired. -/
def start : Grace ι α := ⟨fun _ => false, fun _ => none⟩

variable [DecidableEq ι] (g : Grace ι α)

/-- No node waits for thread `t` any more. -/
def release (t : ι) : α → Option (ι → Bool) :=
  fun x => (g.waits x).map fun w => update w t false

/-- `startOp`. -/
def startOp (t : ι) : Grace ι α := ⟨update g.running t true, g.release t⟩

/-- `endOp`. -/
def endOp (t : ι) : Grace ι α := ⟨update g.running t false, g.release t⟩

variable [DecidableEq α]

/-- `retire`. -/
def retire (x : α) : Grace ι α := { g with waits := update g.waits x (some g.running) }

/-- The node is freed. -/
def free (x : α) : Grace ι α := { g with waits := update g.waits x none }

/-- The steps of a reclaimer that waits. -/
inductive Step (g : Grace ι α) : GraceStep ι α → Grace ι α → Prop
  | startOp (t : ι) : Step g (.call t .startOp) (g.startOp t)
  | endOp (t : ι) : Step g (.call t .endOp) (g.endOp t)
  | retire (t : ι) (x : α) : Step g (.call t (.retire x)) (g.retire x)
  /-- Nobody is left to wait for. -/
  | free (x : α) (w : ι → Bool) (hw : g.waits x = some w) (hclear : ∀ t, w t = false) :
      Step g (.free x) (g.free x)
  | own : Step g .own g

/-- The reclaimer that waits. -/
def system (ι α : Type*) [DecidableEq ι] [DecidableEq α] : Lts (Grace ι α) (GraceStep ι α) where
  init g := g = start
  step := Step

variable {g} {t q : ι} {x : α} {w : ι → Bool}

omit [DecidableEq α] in
/-- What waits after the release has waited before. -/
theorem waits_of_release (hw : g.release t x = some w) :
    ∃ w₀, g.waits x = some w₀ ∧ w = update w₀ t false := by
  unfold release at hw
  obtain ⟨w₀, hw₀, rfl⟩ := Option.map_eq_some_iff.mp hw
  exact ⟨w₀, hw₀, rfl⟩

end Grace

namespace Lts

variable {σ τ ρ ι α ε : Type*}

/-- **Refinement.** Every step of the first system is one of the second, with the same label. -/
structure Refines (M : Lts σ α) (N : Lts τ α) (R : σ → τ → Prop) : Prop where
  init : ∀ s, M.init s → ∃ g, N.init g ∧ R s g
  step : ∀ s a s' g, R s g → M.step s a s' → ∃ g', N.step g a g' ∧ R s' g'

/-! ### A data structure alone -/

/-- A data structure, with what was gone when the operations of its threads began. -/
structure Bracketed (σ ι α : Type*) where
  client : σ
  running : ι → Bool
  /-- The nodes that were gone when the operation began. -/
  before : ι → α → Prop

variable [DecidableEq ι]

/-- The steps of the data structure; `see` says what they tell a reclaimer. -/
inductive BracketedStep (C : Lts σ (ι × ε)) (see : ε → Option (GraceCall α))
    (gone : σ → α → Prop) (b : Bracketed σ ι α) : ι × ε → Bracketed σ ι α → Prop
  | startOp (t : ι) (e : ε) (s' : σ) (hs : C.step b.client (t, e) s')
      (he : see e = some .startOp) :
      BracketedStep C see gone b (t, e)
        ⟨s', update b.running t true, update b.before t (gone b.client)⟩
  | endOp (t : ι) (e : ε) (s' : σ) (hs : C.step b.client (t, e) s') (he : see e = some .endOp) :
      BracketedStep C see gone b (t, e) ⟨s', update b.running t false, b.before⟩
  | retire (t : ι) (e : ε) (s' : σ) (x : α) (hs : C.step b.client (t, e) s')
      (he : see e = some (.retire x)) :
      BracketedStep C see gone b (t, e) { b with client := s' }
  | other (t : ι) (e : ε) (s' : σ) (hs : C.step b.client (t, e) s') (he : see e = none) :
      BracketedStep C see gone b (t, e) { b with client := s' }

/-- The data structure, with what was gone when its operations began. -/
def bracketed (C : Lts σ (ι × ε)) (see : ε → Option (GraceCall α)) (gone : σ → α → Prop) :
    Lts (Bracketed σ ι α) (ι × ε) where
  init (b : Bracketed σ ι α) := C.init b.client ∧ b.running = fun _ => false
  step := BracketedStep C see gone

/-- The data structure makes its own steps. -/
theorem BracketedStep.client {C : Lts σ (ι × ε)} {see : ε → Option (GraceCall α)}
    {gone : σ → α → Prop} {b b' : Bracketed σ ι α} {a : ι × ε}
    (h : BracketedStep C see gone b a b') : C.step b.client a b'.client := by
  cases h <;> assumption

theorem reachable_of_bracketed {C : Lts σ (ι × ε)} {see : ε → Option (GraceCall α)}
    {gone : σ → α → Prop} {b : Bracketed σ ι α} (h : (C.bracketed see gone).Reachable b) :
    C.Reachable b.client := by
  refine h.invariant (P := fun b : Bracketed σ ι α => C.Reachable b.client) ?_ ?_
  · rintro b ⟨hb, -⟩
    exact .init hb
  · intro b a b' _ hr _ hs
    exact hr.step (BracketedStep.client hs)

/-- What is asked of a data structure whose operations stay away from what was gone before them.
`past s D` says that in `s` nothing leads to `D` any more, `uses s t x` that thread `t` goes on to
use `x`. -/
structure Careful (C : Lts σ (ι × ε)) (see : ε → Option (GraceCall α)) (gone : σ → α → Prop)
    (past : σ → (α → Prop) → Prop) (uses : σ → ι → α → Prop) : Prop where
  now : ∀ s, past s (gone s)
  keep : ∀ s a s' D, C.Reachable s → C.step s a s' → past s D → past s' D
  others : ∀ s t e s' q x, C.Reachable s → C.step s (t, e) s' → q ≠ t → uses s' q x → uses s q x
  begin : ∀ s t e s' x, C.Reachable s → C.step s (t, e) s' → see e = some .startOp →
    uses s' t x → ¬ gone s x
  step : ∀ s t e s' D x, C.Reachable s → C.step s (t, e) s' → see e ≠ some .endOp → past s D →
    (∀ y, uses s t y → ¬ D y) → uses s' t x → ¬ D x

section

variable {C : Lts σ (ι × ε)} {see : ε → Option (GraceCall α)} {gone : σ → α → Prop}
  {past : σ → (α → Prop) → Prop} {uses : σ → ι → α → Prop} {b : Bracketed σ ι α} {t : ι}
  {e : ε} {s' : σ} {x : α}

/-- What a running operation uses was not gone before it. -/
structure Clean (past : σ → (α → Prop) → Prop) (uses : σ → ι → α → Prop)
    (b : Bracketed σ ι α) : Prop where
  past : ∀ t, b.running t = true → past b.client (b.before t)
  uses : ∀ t x, b.running t = true → uses b.client t x → ¬ b.before t x

omit [DecidableEq ι] in
/-- A step inside an operation. -/
theorem Clean.inside (h : Clean past uses b) (hC : Careful C see gone past uses)
    (hr : C.Reachable b.client) (hs : C.step b.client (t, e) s') (he : see e ≠ some .endOp) :
    Clean past uses { b with client := s' } where
  past q hq := hC.keep _ _ _ _ hr hs (h.past q hq)
  uses q x hq hx := by
    by_cases hqt : q = t
    · subst hqt
      exact hC.step _ _ _ _ _ x hr hs he (h.past q hq) (fun y hy => h.uses q y hq hy) hx
    · exact h.uses q x hq (hC.others _ _ _ _ _ x hr hs hqt hx)

/-- An operation begins. -/
theorem Clean.startOp (h : Clean past uses b) (hC : Careful C see gone past uses)
    (hr : C.Reachable b.client) (hs : C.step b.client (t, e) s') (he : see e = some .startOp) :
    Clean past uses ⟨s', update b.running t true, update b.before t (gone b.client)⟩ where
  past q hq := by
    have hq : update b.running t true q = true := hq
    show past s' (update b.before t (gone b.client) q)
    by_cases hqt : q = t
    · subst hqt
      rw [update_self]
      exact hC.keep _ _ _ _ hr hs (hC.now _)
    · rw [update_of_ne hqt] at hq ⊢
      exact hC.keep _ _ _ _ hr hs (h.past q hq)
  uses q x hq hx := by
    have hq : update b.running t true q = true := hq
    show ¬ update b.before t (gone b.client) q x
    by_cases hqt : q = t
    · subst hqt
      rw [update_self]
      exact hC.begin _ _ _ _ x hr hs he hx
    · rw [update_of_ne hqt] at hq ⊢
      exact h.uses q x hq (hC.others _ _ _ _ _ x hr hs hqt hx)

/-- An operation ends. -/
theorem Clean.endOp (h : Clean past uses b) (hC : Careful C see gone past uses)
    (hr : C.Reachable b.client) (hs : C.step b.client (t, e) s') :
    Clean past uses ⟨s', update b.running t false, b.before⟩ := by
  have hrun : ∀ {q}, update b.running t false q = true → q ≠ t ∧ b.running q = true := by
    intro q hq
    have hqt : q ≠ t := by
      rintro rfl
      rw [update_self] at hq
      cases hq
    rw [update_of_ne hqt] at hq
    exact ⟨hqt, hq⟩
  refine ⟨fun q hq => hC.keep _ _ _ _ hr hs (h.past q (hrun hq).2), fun q x hq hx => ?_⟩
  obtain ⟨hqt, hq⟩ := hrun hq
  exact h.uses q x hq (hC.others _ _ _ _ _ x hr hs hqt hx)

/-- **A careful data structure** does not use what was gone before the operation. -/
theorem Careful.not_before (hC : Careful C see gone past uses)
    (h : (C.bracketed see gone).Reachable b) (ht : b.running t = true)
    (hx : uses b.client t x) : ¬ b.before t x := by
  have hclean : Clean past uses b := by
    refine h.invariant (P := Clean past uses) ?_ ?_
    · rintro ⟨s, running, before⟩ ⟨-, rfl⟩
      constructor
      · intro q hq
        cases hq
      · intro q y hq
        cases hq
    · intro b a b' hb hcl _ hstep
      have hr : C.Reachable b.client := reachable_of_bracketed hb
      cases hstep with
      | startOp q e s' hs he => exact hcl.startOp hC hr hs he
      | endOp q e s' hs he => exact hcl.endOp hC hr hs
      | retire q e s' y hs he => exact hcl.inside hC hr hs (by simp [he])
      | other q e s' hs he => exact hcl.inside hC hr hs (by simp [he])
  exact hclean.uses t x ht hx

end

/-! ### A data structure with its reclaimer -/

/-- A data structure and its reclaimer. -/
structure Served (σ ρ ι α : Type*) where
  client : σ
  reclaimer : ρ
  /-- The operations that run. -/
  running : ι → Bool
  /-- The nodes that were freed. -/
  freed : α → Bool

/-- A call is a step of both. -/
inductive ServedStep [DecidableEq α] (C : Lts σ (ι × ε)) (see : ε → Option (GraceCall α))
    (M : Lts ρ (GraceStep ι α)) (p : Served σ ρ ι α) : Option (ι × ε) → Served σ ρ ι α → Prop
  | startOp (t : ι) (e : ε) (s' : σ) (r' : ρ) (hs : C.step p.client (t, e) s')
      (he : see e = some .startOp) (hr : M.step p.reclaimer (.call t .startOp) r') :
      ServedStep C see M p (some (t, e)) ⟨s', r', update p.running t true, p.freed⟩
  | endOp (t : ι) (e : ε) (s' : σ) (r' : ρ) (hs : C.step p.client (t, e) s')
      (he : see e = some .endOp) (hr : M.step p.reclaimer (.call t .endOp) r') :
      ServedStep C see M p (some (t, e)) ⟨s', r', update p.running t false, p.freed⟩
  | retire (t : ι) (e : ε) (s' : σ) (x : α) (r' : ρ) (hs : C.step p.client (t, e) s')
      (he : see e = some (.retire x)) (hr : M.step p.reclaimer (.call t (.retire x)) r') :
      ServedStep C see M p (some (t, e)) { p with client := s', reclaimer := r' }
  /-- The data structure goes on. -/
  | other (t : ι) (e : ε) (s' : σ) (hs : C.step p.client (t, e) s') (he : see e = none) :
      ServedStep C see M p (some (t, e)) { p with client := s' }
  /-- The reclaimer frees a node. -/
  | free (x : α) (r' : ρ) (hr : M.step p.reclaimer (.free x) r') :
      ServedStep C see M p none { p with reclaimer := r', freed := update p.freed x true }
  /-- The reclaimer goes on. -/
  | own (r' : ρ) (hr : M.step p.reclaimer .own r') :
      ServedStep C see M p none { p with reclaimer := r' }

/-- The data structure, run with the reclaimer. -/
def served [DecidableEq α] (C : Lts σ (ι × ε)) (see : ε → Option (GraceCall α))
    (M : Lts ρ (GraceStep ι α)) : Lts (Served σ ρ ι α) (Option (ι × ε)) where
  init (p : Served σ ρ ι α) := C.init p.client ∧ M.init p.reclaimer ∧
    p.running = (fun _ => false) ∧ p.freed = fun _ => false
  step := ServedStep C see M

/-- Nodes are gone when they are retired, and stay so. -/
structure Retires (C : Lts σ (ι × ε)) (see : ε → Option (GraceCall α)) (gone : σ → α → Prop) :
    Prop where
  retire : ∀ s t e s' x, C.Reachable s → C.step s (t, e) s' → see e = some (.retire x) → gone s x
  keep : ∀ s a s' x, C.Reachable s → C.step s a s' → gone s x → gone s' x

section

variable {C : Lts σ (ι × ε)} {see : ε → Option (GraceCall α)} {gone : σ → α → Prop}
  {M : Lts ρ (GraceStep ι α)} {R : ρ → Grace ι α → Prop}

/-- What is known of the nodes that are retired or freed. -/
structure Waited (R : ρ → Grace ι α → Prop) (gone : σ → α → Prop) (p : Served σ ρ ι α)
    (before : ι → α → Prop) (g : Grace ι α) : Prop where
  rel : R p.reclaimer g
  running : g.running = p.running
  waits_gone : ∀ x w, g.waits x = some w → gone p.client x
  freed_gone : ∀ x, p.freed x = true → gone p.client x
  /-- A node that does not wait for an operation was gone before it. -/
  waits_before : ∀ t x w, p.running t = true → g.waits x = some w → w t = false → before t x
  freed_before : ∀ t x, p.running t = true → p.freed x = true → before t x

variable {p : Served σ ρ ι α} {before : ι → α → Prop} {g : Grace ι α} {t : ι} {s' : σ} {r' : ρ}

omit [DecidableEq ι] in
/-- The data structure goes on, and what is gone stays gone. -/
theorem Waited.client (h : Waited R gone p before g) (hkeep : ∀ x, gone p.client x → gone s' x) :
    Waited R gone { p with client := s' } before g where
  rel := h.rel
  running := h.running
  waits_gone x w hw := hkeep x (h.waits_gone x w hw)
  freed_gone x hx := hkeep x (h.freed_gone x hx)
  waits_before := h.waits_before
  freed_before := h.freed_before

/-- **An operation begins**: what waits or is freed is gone by now. -/
theorem Waited.startOp (h : Waited R gone p before g) (hrel : R r' (g.startOp t)) :
    Waited R gone ⟨p.client, r', update p.running t true, p.freed⟩
      (update before t (gone p.client)) (g.startOp t) where
  rel := hrel
  running := by
    show update g.running t true = update p.running t true
    rw [h.running]
  waits_gone x w hw := by
    obtain ⟨w₀, hw₀, -⟩ := Grace.waits_of_release hw
    exact h.waits_gone x w₀ hw₀
  freed_gone := h.freed_gone
  waits_before q x w hq hw hwq := by
    obtain ⟨w₀, hw₀, rfl⟩ := Grace.waits_of_release hw
    by_cases hqt : q = t
    · subst hqt
      rw [update_self]
      exact h.waits_gone x w₀ hw₀
    · have hq : update p.running t true q = true := hq
      rw [update_of_ne hqt] at hq hwq ⊢
      exact h.waits_before q x w₀ hq hw₀ hwq
  freed_before q x hq hx := by
    by_cases hqt : q = t
    · subst hqt
      rw [update_self]
      exact h.freed_gone x hx
    · have hq : update p.running t true q = true := hq
      rw [update_of_ne hqt] at hq ⊢
      exact h.freed_before q x hq hx

/-- An operation ends. -/
theorem Waited.endOp (h : Waited R gone p before g) (hrel : R r' (g.endOp t)) :
    Waited R gone ⟨p.client, r', update p.running t false, p.freed⟩ before (g.endOp t) := by
  -- only the others are still running
  have hne : ∀ {q}, update p.running t false q = true → q ≠ t ∧ p.running q = true := by
    intro q hq
    have hqt : q ≠ t := by
      rintro rfl
      rw [update_self] at hq
      cases hq
    rw [update_of_ne hqt] at hq
    exact ⟨hqt, hq⟩
  exact {
    rel := hrel
    running := by
      show update g.running t false = update p.running t false
      rw [h.running]
    waits_gone := fun x w hw => by
      obtain ⟨w₀, hw₀, -⟩ := Grace.waits_of_release hw
      exact h.waits_gone x w₀ hw₀
    freed_gone := h.freed_gone
    waits_before := fun q x w hq hw hwq => by
      obtain ⟨w₀, hw₀, rfl⟩ := Grace.waits_of_release hw
      obtain ⟨hqt, hq⟩ := hne hq
      rw [update_of_ne hqt] at hwq
      exact h.waits_before q x w₀ hq hw₀ hwq
    freed_before := fun q x hq hx => h.freed_before q x (hne hq).2 hx }

variable [DecidableEq α] {x : α}

omit [DecidableEq ι] in
/-- **A node is retired**: it waits for all that run. -/
theorem Waited.retire (h : Waited R gone p before g) (hgone : gone p.client x)
    (hrel : R r' (g.retire x)) :
    Waited R gone { p with reclaimer := r' } before (g.retire x) where
  rel := hrel
  running := h.running
  waits_gone y w hw := by
    by_cases hy : y = x
    · subst hy
      exact hgone
    · have hw : update g.waits x (some g.running) y = some w := hw
      rw [update_of_ne hy] at hw
      exact h.waits_gone y w hw
  freed_gone := h.freed_gone
  waits_before q y w hq hw hwq := by
    have hw : update g.waits x (some g.running) y = some w := hw
    by_cases hy : y = x
    · subst hy
      rw [update_self] at hw
      obtain rfl := Option.some.inj hw
      rw [h.running] at hwq
      exact absurd (hq.symm.trans hwq) Bool.noConfusion
    · rw [update_of_ne hy] at hw
      exact h.waits_before q y w hq hw hwq
  freed_before := h.freed_before

omit [DecidableEq ι] in
/-- **A node is freed** that waits for nobody. -/
theorem Waited.free {w : ι → Bool} (h : Waited R gone p before g) (hw : g.waits x = some w)
    (hclear : ∀ t, w t = false) (hrel : R r' (g.free x)) :
    Waited R gone { p with reclaimer := r', freed := update p.freed x true } before (g.free x) := by
  have hfreed : ∀ {y}, update p.freed x true y = true → y = x ∨ p.freed y = true := by
    intro y hy
    by_cases hyx : y = x
    · exact .inl hyx
    · rw [update_of_ne hyx] at hy
      exact .inr hy
  have hwaits : ∀ {y w'}, (g.free x).waits y = some w' → g.waits y = some w' := by
    intro y w' hy
    have hy : update g.waits x none y = some w' := hy
    by_cases hyx : y = x
    · subst hyx
      rw [update_self] at hy
      cases hy
    · rwa [update_of_ne hyx] at hy
  exact {
    rel := hrel
    running := h.running
    waits_gone := fun y w' hy => h.waits_gone y w' (hwaits hy)
    freed_gone := fun y hy => by
      rcases hfreed hy with rfl | hy
      · exact h.waits_gone y w hw
      · exact h.freed_gone y hy
    waits_before := fun q y w' hq hy hwq => h.waits_before q y w' hq (hwaits hy) hwq
    freed_before := fun q y hq hy => by
      rcases hfreed hy with rfl | hy
      · exact h.waits_before q y w hq hw (hclear q)
      · exact h.freed_before q y hq hy }

/-- **Freed nodes were gone before.** In every run with a reclaimer that waits, what was freed is
gone for good, and it was gone before the operations began that are running now. -/
theorem served_before (hC : C.Retires see gone) (hM : M.Refines (Grace.system ι α) R)
    (h : (C.served see M).Reachable p) :
    (∀ x, p.freed x = true → gone p.client x) ∧
      ∃ before, (C.bracketed see gone).Reachable ⟨p.client, p.running, before⟩ ∧
        ∀ t x, p.running t = true → p.freed x = true → before t x := by
  -- the reclaimer is followed by one that waits for grace periods
  have hwaited : ∃ before g, (C.bracketed see gone).Reachable ⟨p.client, p.running, before⟩ ∧
      Waited R gone p before g := by
    refine h.invariant (P := fun p => ∃ before g,
      (C.bracketed see gone).Reachable ⟨p.client, p.running, before⟩ ∧
        Waited R gone p before g) ?_ ?_
    · rintro ⟨s, r, running, freed⟩ ⟨hs, hr, rfl, rfl⟩
      obtain ⟨g, rfl, hrel⟩ := hM.init r hr
      refine ⟨fun _ _ => False, _, .init ⟨hs, rfl⟩, ⟨hrel, rfl, ?_, ?_, ?_, ?_⟩⟩
      · intro x w hw
        cases hw
      · intro x hx
        cases hx
      · intro t x w ht
        cases ht
      · intro t x ht
        cases ht
    · -- step by step, with the record of what was gone when an operation began
      rintro p a p' - ⟨before, g, hb, hw⟩ - hstep
      have hreach : C.Reachable p.client := reachable_of_bracketed hb
      cases hstep with
      | startOp t e s' r' hs he hr =>
        obtain ⟨g', hg, hrel⟩ := hM.step _ _ _ g hw.rel hr
        cases hg
        exact ⟨_, _, hb.step (.startOp t e s' hs he),
          (hw.startOp hrel).client fun x => hC.keep _ _ _ x hreach hs⟩
      | endOp t e s' r' hs he hr =>
        obtain ⟨g', hg, hrel⟩ := hM.step _ _ _ g hw.rel hr
        cases hg
        exact ⟨_, _, hb.step (.endOp t e s' hs he),
          (hw.endOp hrel).client fun x => hC.keep _ _ _ x hreach hs⟩
      | retire t e s' x r' hs he hr =>
        obtain ⟨g', hg, hrel⟩ := hM.step _ _ _ g hw.rel hr
        cases hg
        have hgone := hC.retire _ t e s' x hreach hs he
        exact ⟨_, _, hb.step (.retire t e s' x hs he),
          (hw.retire hgone hrel).client fun x => hC.keep _ _ _ x hreach hs⟩
      | other t e s' hs he =>
        exact ⟨_, g, hb.step (.other t e s' hs he),
          hw.client fun x => hC.keep _ _ _ x hreach hs⟩
      | free x r' hr =>
        -- whoever was running at the retirement has ended its operation
        obtain ⟨g', hg, hrel⟩ := hM.step _ _ _ g hw.rel hr
        cases hg with
        | free x w hwx hclear => exact ⟨_, _, hb, hw.free hwx hclear hrel⟩
      | own r' hr =>
        obtain ⟨g', hg, hrel⟩ := hM.step _ _ _ g hw.rel hr
        cases hg
        exact ⟨_, g, hb, { hw with rel := hrel }⟩
  obtain ⟨before, g, hb, hw⟩ := hwaited
  exact ⟨hw.freed_gone, before, hb, hw.freed_before⟩

/-- Nodes are retired at most once; `retired` says which ones were. -/
structure RetiresOnce (C : Lts σ (ι × ε)) (see : ε → Option (GraceCall α))
    (retired : σ → α → Prop) : Prop where
  retire : ∀ s t e s' x, C.Reachable s → C.step s (t, e) s' → see e = some (.retire x) →
    ¬ retired s x ∧ retired s' x
  keep : ∀ s a s' x, C.Reachable s → C.step s a s' → retired s x → retired s' x

/-- What waits has been retired, and has not been freed. -/
structure Pending (R : ρ → Grace ι α → Prop) (retired : σ → α → Prop) (p : Served σ ρ ι α)
    (g : Grace ι α) : Prop where
  rel : R p.reclaimer g
  waits : ∀ x w, g.waits x = some w → retired p.client x ∧ p.freed x = false
  freed : ∀ x, p.freed x = true → retired p.client x

omit [DecidableEq ι] [DecidableEq α] in
/-- The data structure goes on, and nothing new waits. -/
theorem Pending.client {retired : σ → α → Prop} {running : ι → Bool} {g' : Grace ι α}
    (h : Pending R retired p g) (hrel : R r' g')
    (hwaits : ∀ x w, g'.waits x = some w → ∃ w₀, g.waits x = some w₀)
    (hkeep : ∀ x, retired p.client x → retired s' x) :
    Pending R retired ⟨s', r', running, p.freed⟩ g' where
  rel := hrel
  waits x w hw := by
    obtain ⟨w₀, hw₀⟩ := hwaits x w hw
    exact ⟨hkeep x (h.waits x w₀ hw₀).1, (h.waits x w₀ hw₀).2⟩
  freed x hx := hkeep x (h.freed x hx)

/-- **No double free.** If nodes are retired at most once, a reclaimer that waits frees only nodes
that were retired, and none twice. -/
theorem served_once {retired : σ → α → Prop} (hC : C.RetiresOnce see retired)
    (hM : M.Refines (Grace.system ι α) R) (h : (C.served see M).Reachable p)
    (hr : M.step p.reclaimer (.free x) r') : retired p.client x ∧ p.freed x = false := by
  -- every node that is still waited for was retired, and is not freed
  have hpending : C.Reachable p.client ∧ ∃ g, Pending R retired p g := by
    refine h.invariant (P := fun p => C.Reachable p.client ∧ ∃ g, Pending R retired p g) ?_ ?_
    · rintro ⟨s, r, running, freed⟩ ⟨hs, hr, rfl, rfl⟩
      obtain ⟨g, rfl, hrel⟩ := hM.init r hr
      refine ⟨.init hs, _, hrel, ?_, ?_⟩
      · intro x w hw
        cases hw
      · intro x hx
        cases hx
    · rintro p a p' - ⟨hreach, g, hp⟩ - hstep
      cases hstep with
      | startOp t e s' r' hs he hr =>
        obtain ⟨g', hg, hrel⟩ := hM.step _ _ _ g hp.rel hr
        cases hg
        refine ⟨hreach.step hs, _, hp.client hrel (fun x w hw => ?_)
          fun x => hC.keep _ _ _ x hreach hs⟩
        obtain ⟨w₀, hw₀, -⟩ := Grace.waits_of_release hw
        exact ⟨w₀, hw₀⟩
      | endOp t e s' r' hs he hr =>
        obtain ⟨g', hg, hrel⟩ := hM.step _ _ _ g hp.rel hr
        cases hg
        refine ⟨hreach.step hs, _, hp.client hrel (fun x w hw => ?_)
          fun x => hC.keep _ _ _ x hreach hs⟩
        obtain ⟨w₀, hw₀, -⟩ := Grace.waits_of_release hw
        exact ⟨w₀, hw₀⟩
      | retire t e s' x r' hs he hr =>
        -- a node is retired for the first time, so it was not waited for
        obtain ⟨g', hg, hrel⟩ := hM.step _ _ _ g hp.rel hr
        cases hg
        obtain ⟨hnew, hold⟩ := hC.retire _ t e s' x hreach hs he
        -- it has not been retired before, so it has not been freed
        have hfreed : p.freed x = false := by
          rw [← Bool.not_eq_true]
          exact fun hx => hnew (hp.freed x hx)
        refine ⟨hreach.step hs, _, hrel, fun y w hw => ?_, fun y hy => ?_⟩
        · by_cases hy : y = x
          · subst hy
            exact ⟨hold, hfreed⟩
          · have hw : update g.waits x (some g.running) y = some w := hw
            rw [update_of_ne hy] at hw
            exact ⟨hC.keep _ _ _ y hreach hs (hp.waits y w hw).1, (hp.waits y w hw).2⟩
        · exact hC.keep _ _ _ y hreach hs (hp.freed y hy)
      | other t e s' hs he =>
        exact ⟨hreach.step hs, g, hp.client hp.rel (fun x w hw => ⟨w, hw⟩)
          fun x => hC.keep _ _ _ x hreach hs⟩
      | free x r' hr =>
        -- a node that is freed is waited for no longer
        obtain ⟨g', hg, hrel⟩ := hM.step _ _ _ g hp.rel hr
        cases hg with
        | free x w hwx hclear =>
          refine ⟨hreach, _, hrel, fun y w' hy => ?_, fun y hy => ?_⟩
          · have hy : update g.waits x none y = some w' := hy
            show retired p.client y ∧ update p.freed x true y = false
            by_cases hyx : y = x
            · subst hyx
              rw [update_self] at hy
              cases hy
            · rw [update_of_ne hyx] at hy ⊢
              exact hp.waits y w' hy
          · have hy : update p.freed x true y = true := hy
            by_cases hyx : y = x
            · subst hyx
              exact (hp.waits y w hwx).1
            · rw [update_of_ne hyx] at hy
              exact hp.freed y hy
      | own r' hr =>
        obtain ⟨g', hg, hrel⟩ := hM.step _ _ _ g hp.rel hr
        cases hg
        exact ⟨hreach, g, hp.client hrel (fun x w hw => ⟨w, hw⟩) fun x hx => hx⟩
  obtain ⟨-, g, hp⟩ := hpending
  obtain ⟨g', hg, -⟩ := hM.step _ _ _ g hp.rel hr
  cases hg with
  | free _ w hw hclear => exact hp.waits x w hw

/-- What a data structure may rely on, if its reclaimer waits for operations. -/
structure Sound (M : Lts ρ (GraceStep ι α)) (gone retired : σ → α → Prop) (uses : σ → ι → α → Prop)
    (p : Served σ ρ ι α) : Prop where
  /-- Only what is gone is freed. -/
  gone : ∀ x, p.freed x = true → gone p.client x
  /-- **No use after free.** -/
  unused : ∀ t x, p.running t = true → uses p.client t x → p.freed x = false
  /-- **No double free.** -/
  once : ∀ x r, M.step p.reclaimer (.free x) r → retired p.client x ∧ p.freed x = false

/-- **A careful data structure, run with a reclaimer that waits.** A running operation does not use
a node that was freed; and what is freed is gone, was retired, and is not freed again. -/
theorem Careful.sound {past : σ → (α → Prop) → Prop} {uses : σ → ι → α → Prop}
    {retired : σ → α → Prop} (hcare : C.Careful see gone past uses) (hC : C.Retires see gone)
    (honce : C.RetiresOnce see retired) (hM : M.Refines (Grace.system ι α) R)
    (h : (C.served see M).Reachable p) : Sound M gone retired uses p := by
  obtain ⟨hgone, before, hb, hbefore⟩ := served_before hC hM h
  refine ⟨hgone, fun t x ht hx => ?_, fun x r hr => served_once honce hM h hr⟩
  rw [← Bool.not_eq_true]
  exact fun hfreed => hcare.not_before hb ht hx (hbefore t x ht hfreed)

end

end Lts

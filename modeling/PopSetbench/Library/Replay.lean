import PopSetbench.Library.Grace
import PopSetbench.Library.Interval

/-!
# Runs that are computed

The steps of a transition system are a relation. A concrete run is computed with a function
that makes one of the steps for each choice: which thread goes on, and how.

* `Lts.Computes M next` — what `next` makes is a step of `M`.
* `Lts.replay next is s` — the choices `is` are made one after the other from `s`. The
  result is the labels of the steps and the last state.

`Computes.exists_path` turns what has been computed into a path.

A data structure with its reclaimer is computed from the two (`Answers.computes`): the reclaimer
answers the calls and goes on in between.
-/

open Function

namespace Lts

variable {σ α ι : Type*} {M : Lts σ α} {next : σ → ι → Option (α × σ)} {s s' : σ} {as : List α}

/-- What the function makes is a step. -/
def Computes (M : Lts σ α) (next : σ → ι → Option (α × σ)) : Prop :=
  ∀ s i a s', next s i = some (a, s') → M.step s a s'

/-- The choices are made one after the other. -/
def replay (next : σ → ι → Option (α × σ)) : List ι → σ → Option (List α × σ)
  | [], s => some ([], s)
  | i :: is, s =>
    (next s i).bind fun x => (replay next is x.2).map fun y => (x.1 :: y.1, y.2)

theorem Computes.path {is : List ι} (h : M.Computes next)
    (hreplay : replay next is s = some (as, s')) : M.Path s as s' := by
  induction is generalizing s as with
  | nil =>
    obtain ⟨rfl, rfl⟩ := Prod.mk.inj (Option.some.inj hreplay)
    exact .nil
  | cons i is ih =>
    obtain ⟨⟨a, s₁⟩, hnext, hrest⟩ := Option.bind_eq_some_iff.mp hreplay
    obtain ⟨⟨as', s₂⟩, his, heq⟩ := Option.map_eq_some_iff.mp hrest
    obtain ⟨rfl, rfl⟩ := Prod.mk.inj heq
    exact .cons (h s i a s₁ hnext) (ih his)

/-- What is found at the end of a computed run is so at the end of a path. -/
theorem Computes.exists_path (h : M.Computes next) (is : List ι) (s : σ) (f : List α → σ → Bool)
    (hf : (replay next is s).any (fun x => f x.1 x.2) = true) :
    ∃ as s', M.Path s as s' ∧ f as s' = true := by
  obtain ⟨⟨as, s'⟩, hreplay, hfound⟩ := (Option.any_eq_true _ _).mp hf
  exact ⟨as, s', h.path hreplay, hfound⟩

/-- A path whose labels are all allowed is a run of allowed steps. -/
theorem ReachableBy.path {ok : α → Prop} (h : M.ReachableBy (fun _ a => ok a) s)
    (hp : M.Path s as s') (hok : ∀ a ∈ as, ok a) : M.ReachableBy (fun _ a => ok a) s' := by
  induction hp with
  | nil => exact h
  | cons hs _ ih =>
    obtain ⟨ha, has⟩ := List.forall_mem_cons.mp hok
    exact ih (h.step hs ha) has

/-- Only the steps that are allowed are made. -/
def guarded (next : σ → ι → Option (α × σ)) (guard : σ → α → Bool) (s : σ) (i : ι) :
    Option (α × σ) :=
  (next s i).filter fun x => guard s x.1

/-- What is found at the end of a computed run of allowed steps is reached by such steps. -/
theorem Computes.exists_reachableBy {ok : σ → α → Prop} (h : M.Computes next) (is : List ι)
    (hs : M.ReachableBy ok s) (guard : σ → α → Bool) (hguard : ∀ s a, guard s a = true → ok s a)
    (f : σ → Bool)
    (hf : (replay (guarded next guard) is s).any (fun x => f x.2) = true) :
    ∃ s', M.ReachableBy ok s' ∧ f s' = true := by
  induction is generalizing s with
  | nil =>
    obtain ⟨x, hreplay, hfound⟩ := (Option.any_eq_true _ _).mp hf
    obtain rfl := Option.some.inj hreplay
    exact ⟨s, hs, hfound⟩
  | cons i is ih =>
    obtain ⟨x, hreplay, hfound⟩ := (Option.any_eq_true _ _).mp hf
    obtain ⟨⟨a, s₁⟩, hstep, hrest⟩ := Option.bind_eq_some_iff.mp hreplay
    obtain ⟨y, his, rfl⟩ := Option.map_eq_some_iff.mp hrest
    obtain ⟨hnext, hok⟩ := Option.filter_eq_some_iff.mp hstep
    exact ih (hs.step (h s i a s₁ hnext) (hguard s a hok))
      ((Option.any_eq_true _ _).mpr ⟨y, his, hfound⟩)

/-- What is carried along is computed, too. -/
theorem Computes.logged {γ : Type*} {add : σ → α → γ → γ} {start : γ} (h : M.Computes next) :
    (M.logged add start).Computes fun x i =>
      (next x.1 i).map fun y => (y.1, (y.2, add x.1 y.1 x.2)) := by
  rintro ⟨s, g⟩ i a ⟨s', g'⟩ hnext
  obtain ⟨⟨b, s''⟩, hstep, heq⟩ := Option.map_eq_some_iff.mp hnext
  obtain ⟨rfl, hx⟩ := Prod.mk.inj heq
  obtain ⟨rfl, rfl⟩ := Prod.mk.inj hx
  exact ⟨h s i b s'' hstep, rfl⟩

/-! ### A data structure with its reclaimer -/

/-- How such a run goes on. -/
inductive Turn (κ μ : Type*)
  /-- The data structure makes a step, which may be a call. -/
  | client (i : κ)
  /-- The reclaimer goes on by itself. -/
  | reclaimer (j : μ)

section

variable {ρ ι ε κ μ : Type*} {N : Type*}

/-- A reclaimer that is computed: `call` is what it answers to a call, `own` how it goes on, and
what it frees then. -/
structure Answers (M : Lts ρ (GraceStep ι N)) (call : ρ → ι → GraceCall N → Option ρ)
    (own : ρ → μ → Option (Option N × ρ)) : Prop where
  of_call : ∀ r t c r', call r t c = some r' → M.step r (.call t c) r'
  of_own : ∀ r j r', own r j = some (none, r') → M.step r .own r'
  of_free : ∀ r j x r', own r j = some (some x, r') → M.step r (.free x) r'

namespace Served

variable [DecidableEq ι] [DecidableEq N] (p : Served σ ρ ι N)

/-- A call, with what the two have become. -/
def told (t : ι) (s' : σ) (r' : ρ) : GraceCall N → Served σ ρ ι N
  | .startOp => ⟨s', r', update p.running t true, p.freed⟩
  | .endOp => ⟨s', r', update p.running t false, p.freed⟩
  | .retire _ => { p with client := s', reclaimer := r' }

/-- The reclaimer has gone on, and may have freed a node. -/
def went (r' : ρ) : Option N → Served σ ρ ι N
  | none => { p with reclaimer := r' }
  | some x => { p with reclaimer := r', freed := update p.freed x true }

/-- The next step of the two. -/
def turn (see : ε → Option (GraceCall N)) (step : σ → κ → Option ((ι × ε) × σ))
    (call : ρ → ι → GraceCall N → Option ρ) (own : ρ → μ → Option (Option N × ρ)) :
    Turn κ μ → Option (Option (ι × ε) × Served σ ρ ι N)
  | .client i => (step p.client i).bind fun a =>
    match see a.1.2 with
    | none => some (some a.1, { p with client := a.2 })
    | some c => (call p.reclaimer a.1.1 c).map fun r' => (some a.1, p.told a.1.1 a.2 r' c)
  | .reclaimer j => (own p.reclaimer j).map fun a => (none, p.went a.2 a.1)

end Served

variable [DecidableEq ι] [DecidableEq N] {C : Lts σ (ι × ε)} {see : ε → Option (GraceCall N)}
  {M : Lts ρ (GraceStep ι N)} {step : σ → κ → Option ((ι × ε) × σ)}
  {call : ρ → ι → GraceCall N → Option ρ} {own : ρ → μ → Option (Option N × ρ)}

/-- **What is computed for the two** are their steps. -/
theorem Answers.computes (hM : M.Answers call own) (hC : C.Computes step) :
    (C.served see M).Computes fun p => Served.turn p see step call own := by
  rintro p (i | j) a p' h
  · obtain ⟨⟨⟨t, e⟩, s'⟩, hstep, hrest⟩ := Option.bind_eq_some_iff.mp h
    have hs : C.step p.client (t, e) s' := hC _ _ _ _ hstep
    have hrest : (match see e with
      | none => some (some (t, e), { p with client := s' })
      | some c => (call p.reclaimer t c).map fun r' => (some (t, e), p.told t s' r' c)) =
        some (a, p') := hrest
    cases he : see e with
    | none =>
      rw [he] at hrest
      obtain ⟨rfl, rfl⟩ := Prod.mk.inj (Option.some.inj hrest)
      exact .other t e s' hs he
    | some c =>
      rw [he] at hrest
      obtain ⟨r', hr', heq⟩ := Option.map_eq_some_iff.mp hrest
      obtain ⟨rfl, rfl⟩ := Prod.mk.inj heq
      have hr := hM.of_call _ _ _ _ hr'
      cases c with
      | startOp => exact .startOp t e s' r' hs he hr
      | endOp => exact .endOp t e s' r' hs he hr
      | retire x => exact .retire t e s' x r' hs he hr
  · obtain ⟨⟨x, r'⟩, hown, heq⟩ := Option.map_eq_some_iff.mp h
    obtain ⟨rfl, rfl⟩ := Prod.mk.inj heq
    cases x with
    | none => exact .own r' (hM.of_own _ _ _ hown)
    | some x => exact .free x r' (hM.of_free _ _ _ _ hown)

end

end Lts

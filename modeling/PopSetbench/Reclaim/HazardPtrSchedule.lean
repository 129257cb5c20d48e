import PopSetbench.Library.Replay
import PopSetbench.Reclaim.HazardPtr

/-!
# Hazard pointers: runs that are computed

`State.choose` makes a step for each choice of a thread and of what it calls.
-/

namespace PopSetbench
namespace HazardPtr

variable {n : ℕ} {Obj : Type} [DecidableEq Obj]

/-- Which thread goes on, and what it calls. -/
inductive Choice (n : ℕ) (Obj : Type)
  | protect (t : Fin n) (obj : Obj)
  | retire (t : Fin n) (p : Obj)
  /-- The next step of a call. -/
  | next (t : Fin n)

/-- What is retired with the choice. -/
def Choice.retired : Choice n Obj → List Obj
  | .retire _ p => [p]
  | _ => []

namespace State

variable {s s' : State n Obj} {t a : Fin n}

/-- The next step of a call. -/
def next (s : State n Obj) (t : Fin n) : Option (State n Obj) :=
  match s.pc t with
  | .idle => none
  | .store obj sz => some ((s.setAnnounce t ((s.announce t).store sz obj)).goto t (.grow obj sz))
  | .grow obj sz => some (((s.setAnnounce t ((s.announce t).resize (sz + 1))).setAnnounced t
      (obj ::ₘ s.announced t)).goto t (.callback obj))
  | .callback _ => some (s.goto t .idle)
  | .move ix sz =>
    if ix = sz - 1 then some (s.goto t (.shrink sz))
    else some ((s.setAnnounce t ((s.announce t).store ix ((s.announce t).data (sz - 1)))).goto t
      (.shrink sz))
  | .shrink sz => some ((s.setAnnounce t ((s.announce t).resize (sz - 1))).goto t .idle)
  | .scanSize w =>
    if h : w < n then some (s.goto t (.scanGet w 0 (s.announce ⟨w, h⟩).size))
    else if w = n then some (s.goto t (.decide 0)) else none
  | .scanGet w pos sz =>
    if h : w < n then
      if pos < sz then
        some ((s.setComparing t (insert ((s.announce ⟨w, h⟩).data pos) (s.comparing t))).goto t
          (.scanGet w (pos + 1) sz))
      else some (s.goto t (.scanSize (w + 1)))
    else none
  | .decide ix =>
    if ix < (s.retired t).size then
      if (s.retired t).data ix ∈ s.comparing t then some (s.goto t (.decide (ix + 1)))
      else some (s.setRetired t (erased (s.retired t) ix))
    else some (s.goto t .idle)

/-- The step of the choice. -/
def choose (s : State n Obj) : Choice n Obj → Option (Fin n × State n Obj)
  | .protect t obj =>
    if s.pc t = .idle ∧ (s.announce t).size < maxHazardptrsPerThread then
      some (t, s.goto t (.store obj (s.announce t).size))
    else none
  | .retire t p =>
    if s.pc t = .idle ∧ (s.retired t).size + 1 < scanThreshold n then
      some (t, s.setRetired t (pushed (s.retired t) p))
    else if s.pc t = .idle ∧ (s.retired t).size + 1 = scanThreshold n then
      some (t, ((s.setRetired t (pushed (s.retired t) p)).setComparing t ∅).goto t (.scanSize 0))
    else none
  | .next t => (s.next t).map fun s' => (t, s')

theorem next_sound (h : s.next t = some s') : Step s t s' := by
  unfold next at h
  split at h
  · simp at h
  · rename_i obj sz hpc
    obtain rfl := Option.some.inj h
    exact .store s t obj sz hpc
  · rename_i obj sz hpc
    obtain rfl := Option.some.inj h
    exact .grow s t obj sz hpc
  · rename_i obj hpc
    obtain rfl := Option.some.inj h
    exact .callbackTrue s t obj hpc
  · rename_i ix sz hpc
    split_ifs at h with hlast
    · obtain rfl := Option.some.inj h
      exact .moveLast s t ix sz hpc hlast
    · obtain rfl := Option.some.inj h
      exact .move s t ix sz hpc hlast
  · rename_i sz hpc
    obtain rfl := Option.some.inj h
    exact .shrink s t sz hpc
  · rename_i w hpc
    split_ifs at h with hlt heq
    · obtain rfl := Option.some.inj h
      exact .scanSize s t ⟨w, hlt⟩ hpc
    · subst heq
      obtain rfl := Option.some.inj h
      exact .scanEnd s t hpc
  · rename_i w pos sz hpc
    split_ifs at h with hlt hpos
    · obtain rfl := Option.some.inj h
      exact .scanGet s t ⟨w, hlt⟩ pos sz hpc hpos
    · obtain rfl := Option.some.inj h
      exact .scanNext s t ⟨w, hlt⟩ pos sz hpc (Nat.le_of_not_lt hpos)
  · rename_i ix hpc
    split_ifs at h with hix hmem
    · obtain rfl := Option.some.inj h
      exact .keep s t ix hpc hix hmem
    · obtain rfl := Option.some.inj h
      exact .free s t ix hpc hix hmem
    · obtain rfl := Option.some.inj h
      exact .retireEnd s t ix hpc (Nat.le_of_not_lt hix)

theorem computes : (system : Lts (State n Obj) (Fin n)).Computes choose := by
  intro s c a s' h
  cases c with
  | protect t obj =>
    obtain ⟨⟨hpc, hassert⟩, heq⟩ := Option.ite_none_right_eq_some.mp h
    obtain ⟨rfl, rfl⟩ := Prod.mk.inj (Option.some.inj heq)
    exact .protect s t obj hpc hassert
  | retire t p =>
    simp only [choose] at h
    split_ifs at h with hroom hfull
    · obtain ⟨rfl, rfl⟩ := Prod.mk.inj (Option.some.inj h)
      exact .retire s t p hroom.1 hroom.2
    · obtain ⟨rfl, rfl⟩ := Prod.mk.inj (Option.some.inj h)
      exact .retireFull s t p hfull.1 hfull.2
  | next t =>
    obtain ⟨s', hnext, heq⟩ := Option.map_eq_some_iff.mp h
    obtain ⟨rfl, rfl⟩ := Prod.mk.inj heq
    exact next_sound hnext

end State

end HazardPtr
end PopSetbench

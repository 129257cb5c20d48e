import PopSetbench.Ds.HarrisListLinear
import PopSetbench.Ds.HarrisListSchedule

/-!
# Harris's list: retirement

One CAS unlinks a whole segment of marked nodes; the thread whose CAS it was then walks over the
segment and retires it node by node. `Todo` is what is left of a walk, by where the thread is. The
segment does not change under the walk, its nodes are in the list of no other walk, and a marked
node that is in the list is in none: so no node is retired twice, and none is forgotten
(`Retire`). In every run a walk retires just the nodes its CAS has unlinked, in order
(`Retire.path`).
-/

namespace PopSetbench
namespace HarrisList

open Function
open Heap (Reach)

variable {α ι K V : Type} [LinearOrder K] {cfg : Config α K V} {s s' : State α ι K V} {key : K}
  {l x r a : α} {t : ι} {p : Pc α K V}

/-- What is left of a walk. -/
def Todo (A : Arena α K V) : Pc α K V → List α → Prop
  | .walk _ _ cur right, todo => A.heap.Span cur right todo
  | .retire _ _ node cur right, todo =>
    ∃ y rest, cur = some y ∧ todo = node :: rest ∧ A.heap.Span y right rest
  | .retireErased _ right, todo => todo = [right]
  | _, todo => todo = []

/-- The segment, by its first node and its end, that the CAS of a thread is about to cut out. -/
def Pc.Cuts (x r : α) : Pc α K V → Prop
  | .compare _ _ leftNext right => leftNext = some x ∧ right = r
  | .casErase _ _ right succ => right = x ∧ succ = some r
  | _ => False

/-- The nodes thread `t` retires in the steps. -/
def retiresBy [DecidableEq ι] (t : ι) (as : List (ι × Event α K V)) : List α :=
  as.filterMap fun
    | (q, .retire x) => if q = t then some x else none
    | _ => none

variable (cfg s) in
/-- The node is marked and not in the list. -/
def Gone (x : α) : Prop :=
  s.heap.marked x = true ∧ ¬ Reach s.heap.next cfg.head x

variable (cfg s) in
/-- **Retirement.** -/
structure Retire (todo : ι → List α) : Prop where
  /-- Every thread knows what it has to retire. -/
  walk : ∀ t, Todo s.arena (s.pc t) (todo t)
  /-- No node is retired twice. -/
  nodup : s.retired.Nodup
  /-- Retired nodes are gone. -/
  retired : ∀ x ∈ s.retired, Gone cfg s x
  /-- No node is retired twice in a walk. -/
  todo_nodup : ∀ t, (todo t).Nodup
  /-- A node to be retired is gone and not retired yet. -/
  todo_gone : ∀ {t x}, x ∈ todo t → Gone cfg s x ∧ x ∉ s.retired
  /-- One thread retires it. -/
  todo_ne : ∀ {t t' x}, x ∈ todo t → x ∈ todo t' → t = t'
  /-- No node gets lost. -/
  covered : ∀ {x}, Gone cfg s x → x ∈ s.retired ∨ ∃ t, x ∈ todo t

theorem Todo.mono {A A' : Arena α K V} {priv : α → Prop} {todo : List α}
    (st : Arena.Stable cfg.lists A A' priv) (h : Todo A p todo) : Todo A' p todo := by
  have hspan : ∀ {x r l}, A.heap.Span x r l → A'.heap.Span x r l := fun h =>
    h.mono fun _ hm => ⟨(st.frozen hm).1, (st.frozen hm).2.1⟩
  cases p with
  | walk c left cur right => exact hspan h
  | retire c left node cur right =>
    obtain ⟨y, rest, hy, htodo, hs⟩ := h
    exact ⟨y, rest, hy, htodo, hspan hs⟩
  | _ => exact h

theorem Retire.init (h : Init cfg s) : Retire cfg s fun _ => [] := by
  have hm : ∀ {x}, ¬ Gone cfg s x := by
    rintro x ⟨hx, -⟩
    have hx : (s.link x).mark = true := hx
    rw [h.unmarked] at hx
    cases hx
  refine ⟨fun t => ?_, ?_, fun x hx => ?_, fun _ => List.nodup_nil, fun {t x} hx => ?_,
    fun {t t' x} hx => ?_, fun {x} hx => absurd hx hm⟩
  · rw [h.pc t]
    rfl
  · rw [h.retired]
    exact List.nodup_nil
  · rw [h.retired] at hx
    cases hx
  · cases hx
  · cases hx

theorem todo_done {A : Arena α K V} {c : Call α K V} {left : Option α} {todo : List α} :
    Todo A (c.done cfg left r) todo ↔ todo = [] := by
  cases c <;> exact Iff.rfl

theorem todo_notFound {A : Arena α K V} {c : Call α K V} {left : Option α} {todo : List α} :
    Todo A (c.notFound cfg left r) todo ↔ todo = [] := by
  cases c <;> exact Iff.rfl

theorem todo_found {A : Arena α K V} {c : Call α K V} {left : Option α} {todo : List α} :
    Todo A (c.found cfg left r) todo ↔ todo = [] := by
  cases c <;> exact Iff.rfl

/-! ### What a step does to a walk -/

section

variable {todo : ι → List α}

/-- **Steps that neither unlink nor retire.** -/
theorem Retire.calm {priv : α → Prop} (R : Retire cfg s todo)
    (st : Arena.Stable cfg.lists s.arena s'.arena priv)
    (hgone : ∀ x, Gone cfg s' x ↔ Gone cfg s x) (hret : s'.retired = s.retired)
    (hpc : ∀ q, q ≠ t → s'.pc q = s.pc q)
    (hself : ∀ l, Todo s.arena (s.pc t) l → Todo s'.arena (s'.pc t) l) :
    Retire cfg s' todo := by
  refine ⟨fun q => ?_, ?_, fun x hx => ?_, R.todo_nodup, fun {q x} hx => ?_, R.todo_ne,
    fun {x} hx => ?_⟩
  · by_cases hq : q = t
    · subst hq
      exact hself _ (R.walk q)
    · rw [hpc q hq]
      exact (R.walk q).mono st
  · rw [hret]
    exact R.nodup
  · rw [hret] at hx
    exact (hgone x).mpr (R.retired x hx)
  · rw [hret]
    exact ⟨(hgone x).mpr (R.todo_gone hx).1, (R.todo_gone hx).2⟩
  · rw [hret]
    exact R.covered ((hgone x).mp hx)

variable [DecidableEq ι]

theorem Retire.goto (R : Retire cfg s todo)
    (hself : ∀ l, Todo s.arena (s.pc t) l → Todo s.arena p l) :
    Retire cfg (s.goto t p) todo := by
  have st : Arena.Stable cfg.lists s.arena (s.goto t p).arena fun _ => True :=
    ⟨fun h => ⟨h, rfl, rfl⟩, fun h => ⟨h, rfl, rfl⟩, fun h _ => ⟨h, rfl, rfl, rfl⟩⟩
  apply R.calm (t := t) st (fun _ => Iff.rfl) rfl
  · intro q hq
    exact State.goto_pc_of_ne hq
  · rw [State.goto_pc_self]
    exact hself

/-- **The first node of a walk is retired.** -/
theorem Retire.retiring {rest : List α} (R : Retire cfg s todo) (htodo : todo t = x :: rest)
    (hp : Todo s.arena p rest) :
    Retire cfg ((s.retiring x).goto t p) (update todo t rest) := by
  have hx : x ∈ todo t := by
    rw [htodo]
    exact List.mem_cons_self
  have hself : update todo t rest t = rest := update_self ..
  have hne : ∀ {q}, q ≠ t → update todo t rest q = todo q := fun hq => update_of_ne hq ..
  -- what is left to be retired was so before
  have hsub : ∀ {q y}, y ∈ update todo t rest q → y ∈ todo q := by
    intro q y hy
    by_cases hq : q = t
    · subst hq
      rw [hself] at hy
      rw [htodo]
      exact List.mem_cons_of_mem _ hy
    · rw [hne hq] at hy
      exact hy
  have hnodup : (x :: rest).Nodup := htodo ▸ R.todo_nodup t
  refine ⟨fun q => ?_, ?_, fun y hy => ?_, fun q => ?_, fun {q y} hy => ⟨?_, fun hyr => ?_⟩,
    fun {q q' y} hy hy' => R.todo_ne (hsub hy) (hsub hy'), fun {y} hy => ?_⟩
  · -- what the threads have in front of them
    by_cases hq : q = t
    · subst hq
      rw [State.goto_pc_self, hself]
      exact hp
    · rw [State.goto_pc_of_ne hq, hne hq]
      exact R.walk q
  · -- no node is retired twice
    exact List.nodup_cons.mpr ⟨(R.todo_gone hx).2, R.nodup⟩
  · -- what is retired is gone
    rcases List.mem_cons.mp hy with rfl | hy
    · exact (R.todo_gone hx).1
    · exact R.retired y hy
  · -- no thread has a node twice
    by_cases hq : q = t
    · subst hq
      rw [hself]
      exact (List.nodup_cons.mp hnodup).2
    · rw [hne hq]
      exact R.todo_nodup q
  · -- what is to be retired is gone, and not retired yet
    exact (R.todo_gone (hsub hy)).1
  · rcases List.mem_cons.mp hyr with rfl | hyr
    · -- the node was in this walk, and once only
      by_cases hq : q = t
      · subst hq
        rw [hself] at hy
        exact (List.nodup_cons.mp hnodup).1 hy
      · exact hq (R.todo_ne (hsub hy) hx)
    · exact (R.todo_gone (hsub hy)).2 hyr
  · -- what is gone is retired or to be retired
    by_cases hyx : y = x
    · subst hyx
      exact .inl List.mem_cons_self
    · rcases R.covered hy with h | ⟨q, hq⟩
      · exact .inl (List.mem_cons_of_mem _ h)
      · refine .inr ⟨q, ?_⟩
        by_cases hqt : q = t
        · subst hqt
          rw [hself]
          rw [htodo] at hq
          exact (List.mem_cons.mp hq).resolve_left hyx
        · rw [hne hqt]
          exact hq

variable [DecidableEq α]

/-- **A segment is cut out**, and the thread is to retire it. -/
theorem Retire.unlink {seg : List α} (inv : Inv cfg s) (R : Retire cfg s todo)
    (hl : s.link l = ⟨some x, false⟩) (hleft : Met cfg s.arena l) (hseg : s.heap.Span x r seg)
    (htodo : todo t = [])
    (hp : Todo (s.store l ⟨some r, false⟩).arena p seg) :
    Retire cfg ((s.store l ⟨some r, false⟩).goto t p) (update todo t seg) ∧
      ∀ y, Reach (s.store l ⟨some r, false⟩).heap.next cfg.head y ↔
        Reach s.heap.next cfg.head y ∧ y ∉ seg := by
  -- the left node has no mark: it is in the list, and so is the segment
  have hm : (s.link l).mark = false := by rw [hl]
  have hlx : s.heap.next l = some x := by
    show (s.link l).ptr = some x
    rw [hl]
  have w : s.heap.WF cfg.lists := inv.shared.ok.wf
  have hlr : Reach s.heap.next (cfg.lists.head ()) l := Arena.reach_of_anchored hleft hm
  have st := inv.shared.change_stable (t := t) knows_local (change_unlink hleft hseg.segment hl)
  -- the list loses the segment
  have hreach : ∀ y, Reach (s.store l ⟨some r, false⟩).heap.next cfg.head y ↔
      Reach s.heap.next cfg.head y ∧ y ∉ seg := by
    intro y
    rw [State.heap_store_next hm]
    exact w.unlink_span_reach_iff (b := ()) hlr hlx hseg
  have hmarked : ∀ y, (s.store l ⟨some r, false⟩).heap.marked y = s.heap.marked y := by
    intro y
    rw [State.heap_store_next hm]
    rfl
  -- what was gone stays gone
  have hgone : ∀ {y}, Gone cfg s y → Gone cfg (s.store l ⟨some r, false⟩) y := fun hy =>
    ⟨(hmarked _).trans hy.1, fun h => hy.2 ((hreach _).mp h).1⟩
  have hsegin : ∀ y ∈ seg, Reach s.heap.next cfg.head y :=
    fun y hy => (hlr.step hlx).trans (hseg.marked y hy).2
  -- what was gone before is not in the segment
  have hnew : ∀ {y}, y ∈ seg → ¬ Gone cfg s y := fun hy hg => hg.2 (hsegin _ hy)
  have hself : update todo t seg t = seg := update_self ..
  have hne : ∀ {q}, q ≠ t → update todo t seg q = todo q := fun hq => update_of_ne hq ..
  have hold : ∀ {q y}, q ≠ t → y ∈ update todo t seg q → y ∈ todo q := by
    intro q y hq hy
    rw [hne hq] at hy
    exact hy
  refine ⟨⟨fun q => ?_, R.nodup, fun y hy => hgone (R.retired y hy), fun q => ?_,
    fun {q y} hy => ?_, fun {q q' y} hy hy' => ?_, fun {y} hy => ?_⟩, hreach⟩
  · -- what the threads have in front of them
    by_cases hq : q = t
    · subst hq
      rw [State.goto_pc_self, hself]
      exact hp
    · rw [State.goto_pc_of_ne hq, hne hq]
      exact (R.walk q).mono st
  · -- no thread has a node twice
    by_cases hq : q = t
    · subst hq
      rw [hself]
      exact w.span_nodup (hlr.step hlx) hseg
    · rw [hne hq]
      exact R.todo_nodup q
  · -- the segment is gone now and was not before
    by_cases hq : q = t
    · subst hq
      rw [hself] at hy
      refine ⟨⟨(hmarked y).trans (hseg.marked y hy).1, fun h => ?_⟩, fun h => ?_⟩
      · exact ((hreach y).mp h).2 hy
      · exact hnew hy (R.retired y h)
    · have h := R.todo_gone (hold hq hy)
      exact ⟨hgone h.1, h.2⟩
  · -- no two threads have a node in common
    by_cases hq : q = t <;> by_cases hq' : q' = t
    · exact hq.trans hq'.symm
    · subst hq
      rw [hself] at hy
      exact absurd (R.todo_gone (hold hq' hy')).1 (hnew hy)
    · subst hq'
      rw [hself] at hy'
      exact absurd (R.todo_gone (hold hq hy)).1 (hnew hy')
    · exact R.todo_ne (hold hq hy) (hold hq' hy')
  · -- what is gone now was gone before, or it is in the segment
    by_cases hyseg : y ∈ seg
    · refine .inr ⟨t, ?_⟩
      rw [hself]
      exact hyseg
    · have hg : Gone cfg s y :=
        ⟨(hmarked y).symm.trans hy.1, fun h => hy.2 ((hreach y).mpr ⟨h, hyseg⟩)⟩
      refine (R.covered hg).imp id fun h => ?_
      obtain ⟨q, hq⟩ := h
      refine ⟨q, ?_⟩
      rw [hne]
      · exact hq
      · rintro rfl
        rw [htodo] at hq
        cases hq

variable (cfg s s' t) in
/-- What a step of thread `t` does to its walk, before and after. -/
inductive Progress (e : Event α K V) (todo todo' : List α) : Prop
  /-- Nothing is unlinked or retired. -/
  | stay : todo' = todo → (∀ x, e ≠ .retire x) →
      (∀ y, Reach s.heap.next cfg.head y → Reach s'.heap.next cfg.head y) → Progress e todo todo'
  /-- The first node is retired. -/
  | retire (x : α) : e = .retire x → todo = x :: todo' →
      (∀ y, Reach s.heap.next cfg.head y → Reach s'.heap.next cfg.head y) → Progress e todo todo'
  /-- A segment is cut out. -/
  | cut (x r : α) : todo = [] → (∀ x, e ≠ .retire x) → (s.pc t).Cuts x r →
      s.heap.Span x r todo' →
      (∀ y, Reach s'.heap.next cfg.head y ↔ Reach s.heap.next cfg.head y ∧ y ∉ todo') →
      Progress e todo todo'

omit [DecidableEq α] in
theorem Retire.stay {e : Event α K V} (R : Retire cfg s' todo) (he : ∀ x, e ≠ .retire x)
    (hreach : ∀ y, Reach s.heap.next cfg.head y → Reach s'.heap.next cfg.head y) :
    ∃ l, Retire cfg s' (update todo t l) ∧ Progress cfg s s' t e (todo t) l := by
  refine ⟨todo t, ?_, .stay rfl he hreach⟩
  rw [update_eq_self]
  exact R

omit [DecidableEq α] in
theorem Retire.goto_stay {e : Event α K V} (R : Retire cfg s todo)
    (hself : ∀ l, Todo s.arena (s.pc t) l → Todo s.arena p l) (he : ∀ x, e ≠ .retire x) :
    ∃ l, Retire cfg (s.goto t p) (update todo t l) ∧
      Progress cfg s (s.goto t p) t e (todo t) l :=
  (R.goto hself).stay he fun _ h => h

/-- **Retirement, step by step.** -/
theorem Retire.step (inv : Inv cfg s) (R : Retire cfg s todo) {e : Event α K V}
    (h : Step cfg s t e s') :
    ∃ l, Retire cfg s' (update todo t l) ∧ Progress cfg s s' t e (todo t) l := by
  have hp := inv.shared.all t
  have hwalk := R.walk t
  obtain ⟨priv, st⟩ := h.stable inv
  cases h with
  | invoke op hpc hmin hmax =>
    -- an operation begins
    exact R.goto_stay (by rw [hpc]; exact fun _ h => h) fun _ h => by cases h
  | startOp op hpc =>
    refine R.goto_stay ?_ fun _ h => by cases h
    rw [hpc]
    cases op <;> exact fun _ h => h
  | newNode key val x hpc hx =>
    -- the new node is not in the list and has no mark
    have hoff : ∀ b, ¬ Reach s.heap.next (cfg.lists.head b) x := by
      intro b hb
      have h : s.allocated x = true := inv.shared.ok.reach_allocated hb
      rw [hx] at h
      cases h
    have hmx : s.heap.marked x ≠ true := by
      intro hm
      have h : s.allocated x = true := inv.shared.ok.marked_allocated hm
      rw [hx] at h
      cases h
    have hreach : ∀ y, Reach (s.allocating x key val).heap.next cfg.head y ↔
        Reach s.heap.next cfg.head y := by
      intro y
      refine Heap.write_reach_iff (L := cfg.lists) (b := ()) hoff fun z hz => ?_
      show (update s.link x ⟨none, false⟩ z).ptr = (s.link z).ptr
      rw [update_of_ne hz]
    have hmarked : ∀ y, (s.allocating x key val).heap.marked y = true ↔
        s.heap.marked y = true := by
      intro y
      show (update s.link x ⟨none, false⟩ y).mark = true ↔ (s.link y).mark = true
      by_cases hy : y = x
      · subst hy
        rw [update_self]
        exact iff_of_false Bool.false_ne_true hmx
      · rw [update_of_ne hy]
    refine Retire.stay (R.calm (t := t) st (fun y => ?_) rfl ?_ ?_) (fun _ h => by cases h)
      fun y hy => (hreach y).mpr hy
    · exact and_congr (hmarked y) (not_congr (hreach y))
    · intro q hq
      exact State.goto_pc_of_ne hq
    · rw [State.goto_pc_self, hpc]
      exact fun _ h => h
  | storeNext key val a left r hpc =>
    -- the new node is still outside the list
    rw [hpc] at hp
    have hpriv := hp.1.2.1
    have hreach : ∀ y, Reach (s.store a ⟨some r, false⟩).heap.next cfg.head y ↔
        Reach s.heap.next cfg.head y := by
      intro y
      refine Heap.write_reach_iff (L := cfg.lists) (b := ()) hpriv.off fun z hz => ?_
      show ((s.store a ⟨some r, false⟩).link z).ptr = (s.link z).ptr
      rw [State.store_link_of_ne hz]
    have hmarked : ∀ y, (s.store a ⟨some r, false⟩).heap.marked y = s.heap.marked y := by
      intro y
      show ((s.store a ⟨some r, false⟩).link y).mark = (s.link y).mark
      by_cases hy : y = a
      · subst hy
        rw [State.store_link_self]
        exact hpriv.unmarked.symm
      · rw [State.store_link_of_ne hy]
    refine Retire.stay (R.calm (t := t) st (fun y => ?_) rfl ?_ ?_) (fun _ h => by cases h)
      fun y hy => (hreach y).mpr hy
    · exact and_congr (by rw [← hmarked y]; exact Iff.rfl) (not_congr (hreach y))
    · intro q hq
      exact State.goto_pc_of_ne hq
    · rw [State.goto_pc_self, hpc]
      exact fun _ h => h
  | casInsert key val a l r hpc hl =>
    -- the list gets one node more, which has no mark
    rw [hpc] at hp
    obtain ⟨⟨hu, hpriv, hka⟩, hlt, hn, l', hl', hw⟩ := hp
    obtain rfl := Option.some.inj hl'
    have hm : (s.link l).mark = false := by rw [hl]
    have hlr : s.heap.next l = some r := by
      show (s.link l).ptr = some r
      rw [hl]
    have w : s.heap.WF cfg.lists := inv.shared.ok.wf
    have hlreach : Reach s.heap.next (cfg.lists.head ()) l := Arena.reach_of_anchored hw.left hm
    have hreach : ∀ y, Reach (s.store l ⟨some a, false⟩).heap.next cfg.head y ↔
        Reach s.heap.next cfg.head y ∨ y = a := by
      intro y
      rw [State.heap_store_next hm]
      have h : Reach (s.heap.setNext l a).next (cfg.lists.head ()) y ↔
          Reach s.heap.next (cfg.lists.head ()) y ∨ (() = () ∧ y = a) :=
        w.insert_reach_iff hlreach hlr hn hpriv.off
      exact h.trans (or_congr_right (and_iff_right rfl))
    have hgone : ∀ y, Gone cfg ((s.store l ⟨some a, false⟩).goto t
        (.endOp (.insert key val) (.value none))) y ↔ Gone cfg s y := by
      intro y
      show (s.store l ⟨some a, false⟩).heap.marked y = true ∧ _ ↔ _
      rw [State.heap_store_next hm]
      refine and_congr_right fun hy => not_congr ((hreach y).trans (or_iff_left ?_))
      rintro rfl
      have hy : s.heap.marked y = true := hy
      have hpm : s.heap.marked y = false := hpriv.unmarked
      rw [hpm] at hy
      cases hy
    refine Retire.stay (R.calm (t := t) st hgone rfl ?_ ?_) (fun _ h => by cases h)
      fun y hy => (hreach y).mpr (.inl hy)
    · intro q hq
      exact State.goto_pc_of_ne hq
    · rw [State.goto_pc_self, hpc]
      exact fun _ h => h
  | casMark key left r succ hpc hl =>
    -- the node is marked where it is
    rw [hpc] at hp
    obtain ⟨hu, hk, l, rfl, hw⟩ := hp
    have hr := (inv.live hu hw.right hk (by rw [hl])).1
    have hreach : ∀ y, Reach (s.store r ⟨succ, true⟩).heap.next cfg.head y ↔
        Reach s.heap.next cfg.head y := by
      intro y
      rw [State.heap_store_mark hl]
      exact Iff.rfl
    have hgone : ∀ y, Gone cfg ((s.store r ⟨succ, true⟩).goto t
        (.casErase key (some l) r succ)) y ↔ Gone cfg s y := by
      intro y
      by_cases hyr : y = r
      · -- it is in the list, before and after
        subst hyr
        exact iff_of_false (fun h => h.2 ((hreach y).mpr hr)) fun h => h.2 hr
      · show (s.store r ⟨succ, true⟩).heap.marked y = true ∧ _ ↔ _
        rw [State.heap_store_mark hl, Heap.setMarked_marked_of_ne hyr]
        exact and_congr_right fun _ => not_congr (hreach y)
    refine Retire.stay (R.calm (t := t) st hgone rfl ?_ ?_) (fun _ h => by cases h)
      fun y hy => (hreach y).mpr hy
    · intro q hq
      exact State.goto_pc_of_ne hq
    · rw [State.goto_pc_self, hpc]
      exact fun _ h => h
  | casUnlink c l x r hpc hx hl =>
    -- the thread is to retire the segment that it has cut out
    rw [hpc] at hp hwalk
    obtain ⟨-, l', x', hl', hx', htr, -⟩ := hp
    obtain rfl := Option.some.inj hl'
    obtain rfl := Option.some.inj hx'
    obtain ⟨seg, hseg⟩ := Heap.Segment.exists_span htr.segment
    obtain ⟨hR, hreach⟩ := R.unlink (p := .walk c (some l) x r) inv hl htr.left hseg hwalk
      (hseg.mono fun _ hm => ⟨(st.frozen hm).1, (st.frozen hm).2.1⟩)
    refine ⟨seg, hR, .cut x r hwalk (fun _ h => by cases h) ?_ hseg hreach⟩
    rw [hpc]
    exact ⟨rfl, rfl⟩
  | casErase key l r succ hpc hl =>
    -- the thread is to retire the node that it has cut out
    rw [hpc] at hp hwalk
    obtain ⟨-, -, hrm, hrn, l', hl', hw⟩ := hp
    obtain rfl := Option.some.inj hl'
    obtain ⟨-, y, hy, -⟩ := inv.shared.ok.trail hrm
    obtain rfl : succ = some y := hrn.symm.trans hy
    have hseg : s.heap.Span r y [r] := ⟨rfl, hrm, y, hrn, rfl⟩
    obtain ⟨hR, hreach⟩ := R.unlink (p := .retireErased key r) inv hl hw.left hseg hwalk rfl
    refine ⟨[r], hR, .cut r y hwalk (fun _ h => by cases h) ?_ hseg hreach⟩
    rw [hpc]
    exact ⟨rfl, rfl⟩
  | walk c left x r hpc =>
    -- the next node to be retired
    rw [hpc] at hp hwalk
    obtain ⟨-, -, hne, -⟩ := hp
    refine R.goto_stay ?_ fun _ h => by cases h
    rw [hpc]
    intro l hl
    cases l with
    | nil => exact absurd hl hne
    | cons y l =>
      obtain ⟨rfl, -, z, hz, hs⟩ := hl
      exact ⟨z, l, hz, rfl, hs⟩
  | retireNext c left x y r hpc hy =>
    -- a node of the segment is retired, and there are more
    rw [hpc] at hwalk
    obtain ⟨y', rest, hy', htodo, hs⟩ := hwalk
    obtain rfl := Option.some.inj hy'
    exact ⟨rest, R.retiring htodo hs, .retire x rfl htodo fun _ h => h⟩
  | retireLast c left x r hpc =>
    -- the last node of the segment is retired
    rw [hpc] at hwalk
    obtain ⟨y', rest, hy', htodo, hs⟩ := hwalk
    obtain rfl := Option.some.inj hy'
    have hrest : rest = [] := by
      cases rest with
      | nil => rfl
      | cons u rest =>
        -- keys grow along marked nodes, so these do not lead back to `right`
        obtain ⟨-, hm, z, hz, hs⟩ := hs
        obtain ⟨-, z', hz', -, hlt⟩ := inv.shared.ok.trail hm
        obtain rfl := Option.some.inj (hz.symm.trans hz')
        rcases inv.shared.ok.le_of_segment hs.segment with rfl | hlt'
        · exact absurd hlt (lt_irrefl _)
        · exact absurd hlt' (lt_asymm hlt)
    rw [hrest] at htodo
    exact ⟨[], R.retiring htodo rfl, .retire x rfl htodo fun _ h => h⟩
  | retireErased key r hpc =>
    -- the node that the deletion has cut out is retired
    rw [hpc] at hwalk
    exact ⟨[], R.retiring hwalk rfl, .retire r rfl hwalk fun _ h => h⟩
  | checkTail c left hpc =>
    -- the search has its result, and nothing is to be retired
    refine R.goto_stay ?_ fun _ h => by cases h
    rw [hpc]
    exact fun _ h => todo_done.mpr h
  | check c left r hpc hr hl =>
    refine R.goto_stay ?_ fun _ h => by cases h
    rw [hpc]
    exact fun _ h => todo_done.mpr h
  | testTail c left hpc =>
    refine R.goto_stay ?_ fun _ h => by cases h
    rw [hpc]
    exact fun _ h => todo_notFound.mpr h
  | testAbsent c left r hpc hr hk =>
    refine R.goto_stay ?_ fun _ h => by cases h
    rw [hpc]
    exact fun _ h => todo_notFound.mpr h
  | testFound c left r hpc hr hk =>
    refine R.goto_stay ?_ fun _ h => by cases h
    rw [hpc]
    exact fun _ h => todo_found.mpr h
  | search c left leftNext hpc =>
    -- the other steps neither cut nodes out nor retire one
    exact R.goto_stay (by rw [hpc]; exact fun _ h => h) fun _ h => by cases h
  | skip c left leftNext x y hpc =>
    exact R.goto_stay (by rw [hpc]; exact fun _ h => h) fun _ h => by cases h
  | loadKey c left leftNext x nxt hpc =>
    exact R.goto_stay (by rw [hpc]; exact fun _ h => h) fun _ h => by cases h
  | pass c left leftNext x y k hpc hk =>
    exact R.goto_stay (by rw [hpc]; exact fun _ h => h) fun _ h => by cases c <;> cases h
  | stop c left leftNext x nxt k hpc hk =>
    exact R.goto_stay (by rw [hpc]; exact fun _ h => h) fun _ h => by cases c <;> cases h
  | arriveTail c left leftNext hpc =>
    exact R.goto_stay (by rw [hpc]; exact fun _ h => h) fun _ h => by cases h
  | arriveNull c left leftNext x hpc hx hl =>
    exact R.goto_stay (by rw [hpc]; exact fun _ h => h) fun _ h => by cases h
  | arrive c left leftNext x hpc hx hl =>
    exact R.goto_stay (by rw [hpc]; exact fun _ h => h) fun _ h => by cases h
  | loadNext c left leftNext x hpc =>
    exact R.goto_stay (by rw [hpc]; exact fun _ h => h) fun _ h => by cases h
  | adjacent c left r hpc =>
    exact R.goto_stay (by rw [hpc]; exact fun _ h => h) fun _ h => by cases h
  | casUnlinkFail c l leftNext r hpc hx hl =>
    exact R.goto_stay (by rw [hpc]; exact fun _ h => h) fun _ h => by cases h
  | checkRetry c left r hpc hr hl =>
    exact R.goto_stay (by rw [hpc]; exact fun _ h => h) fun _ h => by cases h
  | deallocate key val a hpc =>
    exact R.goto_stay (by rw [hpc]; exact fun _ h => h) fun _ h => by cases h
  | casInsertFail key val a l r hpc hl =>
    exact R.goto_stay (by rw [hpc]; exact fun _ h => h) fun _ h => by cases h
  | loadSuccMarked key left r hpc hl =>
    exact R.goto_stay (by rw [hpc]; exact fun _ h => h) fun _ h => by cases h
  | loadSucc key left r hpc hl =>
    exact R.goto_stay (by rw [hpc]; exact fun _ h => h) fun _ h => by cases h
  | casMarkFail key left r succ hpc hl =>
    exact R.goto_stay (by rw [hpc]; exact fun _ h => h) fun _ h => by cases h
  | casEraseFail key l r succ hpc hl =>
    exact R.goto_stay (by rw [hpc]; exact fun _ h => h) fun _ h => by cases h
  | readKey key left r hpc =>
    exact R.goto_stay (by rw [hpc]; exact fun _ h => h) fun _ h => by cases h
  | endOp op r hpc =>
    exact R.goto_stay (by rw [hpc]; exact fun _ h => h) fun _ h => by cases h
  | ret op r hpc =>
    exact R.goto_stay (by rw [hpc]; exact fun _ h => h) fun _ h => by cases h

/-- **Retirement in every run.** -/
theorem Retire.of_reachable (h : (lts (ι := ι) cfg).Reachable s) : ∃ todo, Retire cfg s todo :=
  h.invariant (P := fun s => ∃ todo, Retire cfg s todo) (fun _ hi => ⟨_, Retire.init hi⟩)
    fun _ _ _ hr hi _ hs => by
      obtain ⟨todo, R⟩ := hi
      obtain ⟨l, R', -⟩ := R.step (Inv.of_reachable hr) hs
      exact ⟨_, R'⟩

omit [LinearOrder K] [DecidableEq α] in
theorem retiresBy_cons_of_ne {q : ι} {e : Event α K V} {as : List (ι × Event α K V)}
    (h : ∀ x, q = t → e ≠ .retire x) : retiresBy t ((q, e) :: as) = retiresBy t as := by
  unfold retiresBy
  rw [List.filterMap_cons_none]
  cases e with
  | retire x => exact if_neg fun hq => h x hq rfl
  | _ => rfl

omit [LinearOrder K] [DecidableEq α] in
theorem retiresBy_cons {as : List (ι × Event α K V)} :
    retiresBy t ((t, .retire x) :: as) = x :: retiresBy t as := by
  unfold retiresBy
  rw [List.filterMap_cons_some]
  exact if_pos rfl

/-- **A walk, to its end.** What a thread retires from a state on are the nodes of its walk, in
order, and only then others. -/
theorem Retire.path {as : List (ι × Event α K V)} (hr : (lts cfg).Reachable s)
    (hp : (lts cfg).Path s as s') (R : Retire cfg s todo) (t : ι) :
    (∃ rest, Todo s'.arena (s'.pc t) rest ∧ todo t = retiresBy t as ++ rest) ∨
      todo t <+: retiresBy t as := by
  induction hp generalizing todo with
  | nil => exact .inl ⟨todo t, R.walk t, rfl⟩
  | @cons s s₁ s' a as hs _ ih =>
    obtain ⟨q, e⟩ := a
    have hs : Step cfg s q e s₁ := hs
    obtain ⟨l, R', hprog⟩ := R.step (Inv.of_reachable hr) hs
    have h := ih (hr.step (a := (q, e)) hs) R'
    by_cases hq : q = t
    · subst hq
      rw [update_self] at h
      cases hprog with
      | stay hl he _ =>
        rw [retiresBy_cons_of_ne fun x _ => he x, ← hl]
        exact h
      | retire x he hl _ =>
        subst he
        rw [retiresBy_cons, hl]
        rcases h with ⟨rest, hrest, h⟩ | h
        · exact .inl ⟨rest, hrest, by rw [h]; rfl⟩
        · exact .inr ((List.prefix_cons_inj x).mpr h)
      | cut x r hl _ _ _ _ =>
        rw [hl]
        exact .inr List.nil_prefix
    · rw [update_of_ne (Ne.symm hq)] at h
      rw [retiresBy_cons_of_ne fun x hqt => absurd hqt hq]
      exact h

end

/-! ### The list -/

section

variable [DecidableEq α] [DecidableEq ι]
  {H : List (State α ι K V × (ι × Event α K V) × State α ι K V)}

/-- **Harris's list.** In every run: the nodes reached from the head are sorted strictly; marked
nodes stay marked and keep their successors; the set changes at the CASes that link a node and that
mark one only; the result of every operation is explained by a moment, or by a step of its own,
between its invocation and its return; no node is retired twice; and a step that takes nodes out of
the list takes out just the nodes of a segment of marked ones, and what its thread retires from then
on are these nodes, in order, up to the end of the segment, and only then others. -/
theorem harrisList_linearizable
    (h : ((lts (ι := ι) cfg).since (invokedBy t)).Reachable (s, H)) :
    (∃ l, s.heap.Nodes cfg.head cfg.tail l) ∧
    (∀ q e s', Step cfg s q e s' → ∀ x, s.heap.marked x = true →
      s'.heap.marked x = true ∧ s'.heap.next x = s.heap.next x) ∧
    (∀ q e s', Step cfg s q e s' → ContentsStep cfg s s' q) ∧
    (∀ op r s', Step cfg s t (.ret op r) s' → Explained (Contents cfg) (fun _ => ()) t H op r) ∧
    s.retired.Nodup ∧
    (∀ q e s', Step cfg s q e s' →
      (∃ x, Reach s.heap.next cfg.head x ∧ ¬ Reach s'.heap.next cfg.head x) →
      ∃ x r seg, (s.pc q).Cuts x r ∧ s.heap.Span x r seg ∧ seg.Nodup ∧
        (∀ y, Reach s'.heap.next cfg.head y ↔ Reach s.heap.next cfg.head y ∧ y ∉ seg) ∧
        ∀ as s'', (lts cfg).Path s' as s'' →
          (∃ rest, Todo s''.arena (s''.pc q) rest ∧ seg = retiresBy q as ++ rest) ∨
            seg <+: retiresBy q as) := by
  have hr : (lts cfg).Reachable s := h.of_since
  have inv : Inv cfg s := Inv.of_reachable hr
  obtain ⟨todo, R⟩ := Retire.of_reachable hr
  refine ⟨inv.shared.ok.wf.exists_nodes (), fun q e s' hs x hx => ?_,
    fun q e s' hs => hs.contents inv, fun op r s' hs => ?_, R.nodup, fun q e s' hs hcut => ?_⟩
  · obtain ⟨priv, st⟩ := hs.stable inv
    have h := st.frozen hx
    exact ⟨h.1, h.2.1⟩
  · have hseen := PcSeen.of_reachable h
    rw [hs.pc_of_ret rfl] at hseen
    exact hseen
  · obtain ⟨x, hx, hx'⟩ := hcut
    obtain ⟨l, R', hprog⟩ := R.step inv hs
    cases hprog with
    | stay _ _ hreach => exact absurd (hreach x hx) hx'
    | retire _ _ _ hreach => exact absurd (hreach x hx) hx'
    | cut x r _ _ hcuts hspan hiff =>
      have hself : update todo q l q = l := update_self ..
      refine ⟨x, r, l, hcuts, hspan, ?_, hiff, fun as s'' hp => ?_⟩
      · rw [← hself]
        exact R'.todo_nodup q
      · have h := R'.path (hr.step (a := (q, e)) hs) hp q
        rw [hself] at h
        exact h

end

/-! ### A run -/

section

/-- A list between the keys 0 and 100, with the sentinels 0 and 1. -/
def smallConfig : Config ℕ ℕ ℕ where
  keyMin := 0
  keyMax := 100
  head := 0
  tail := 1
  addrTail := 1
  keyMin_lt := zero_lt_hundred
  head_ne_tail := Nat.zero_ne_one

/-- The list after the constructor, run by one thread. -/
def smallState : State ℕ Unit ℕ ℕ where
  link x := if x = 0 then ⟨some 1, false⟩ else ⟨none, false⟩
  key x := if x = 0 then 0 else 100
  val _ := 0
  allocated x := decide (x < 2)
  retired := []
  pc _ := .idle

theorem smallState_init : Init smallConfig smallState := by
  refine ⟨rfl, rfl, rfl, rfl, fun x => ?_, fun x => ?_, rfl, fun _ => rfl⟩
  · show decide (x < 2) = true ↔ x = 0 ∨ x = 1
    rw [decide_eq_true_iff]
    omega
  · show (if x = 0 then (⟨some 1, false⟩ : MarkPtr ℕ) else ⟨none, false⟩).mark = false
    split <;> rfl

/-- The list after the constructor, run by two threads. -/
def pairState : State ℕ (Fin 2) ℕ ℕ :=
  { smallState with pc := fun _ => .idle }

theorem pairState_init : Init smallConfig pairState := by
  obtain ⟨h1, h2, h3, h4, h5, h6, h7, -⟩ := smallState_init
  exact ⟨h1, h2, h3, h4, h5, h6, h7, fun _ => rfl⟩

open Choice in
/-- Thread `t` inserts the key 5, and thread `u` marks its node. Thread `t` inserts the key 4 and
cuts out the node before; so the CAS of thread `u` fails, and it searches again. -/
def pairSchedule (t u : Fin 2) : List (Fin 2 × Choice ℕ ℕ ℕ) :=
  call t (.insert 5 7) 1 ++ node t 2 11 ++ call u (.erase 5) 13 ++ call t (.insert 4 8) 1 ++
    node t 3 15 ++ steps u 12

/-- The two calls are about to return, and their results are explained. -/
theorem harrisList_linearizable_erase : ∃ (s : State ℕ (Fin 2) ℕ ℕ)
    (H : Fin 2 → List (State ℕ (Fin 2) ℕ ℕ × (Fin 2 × Event ℕ ℕ ℕ) × State ℕ (Fin 2) ℕ ℕ)),
    s.retired = [2] ∧
    Explained (Contents smallConfig) (fun _ => ()) 0 (H 0) (.insert 4 8) (.value none) ∧
    Explained (Contents smallConfig) (fun _ => ()) 1 (H 1) (.erase 5) (.value (some 1)) := by
  obtain ⟨as, s, hp, hfound⟩ := (State.computes smallConfig).exists_path (pairSchedule 0 1)
    pairState (fun _ s => decide (s.retired = [2]) &&
      (s.goOn smallConfig 0 .go).any (fun a => a.1 = .ret (.insert 4 8) (.value none)) &&
      (s.goOn smallConfig 1 .go).any fun a => a.1 = .ret (.erase 5) (.value (some 1)))
    (by decide +kernel)
  simp only [Bool.and_eq_true, decide_eq_true_eq] at hfound
  obtain ⟨⟨hret, hgo₀⟩, hgo₁⟩ := hfound
  obtain ⟨s₀, hs₀⟩ := State.step_of_goOn hgo₀
  obtain ⟨s₁, hs₁⟩ := State.step_of_goOn hgo₁
  have hr := (Lts.Reachable.init (M := lts smallConfig) pairState_init).path hp
  have hlog : ∀ t, ∃ H, ((lts smallConfig).since (invokedBy t)).Reachable (s, H) :=
    fun t => hr.exists_since
  choose H hH using hlog
  exact ⟨s, H, hret,
    (harrisList_linearizable (hH 0)).2.2.2.1 _ _ _ hs₀,
    (harrisList_linearizable (hH 1)).2.2.2.1 _ _ _ hs₁⟩

end

end HarrisList
end PopSetbench

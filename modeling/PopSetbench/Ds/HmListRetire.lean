import PopSetbench.Ds.HmListLinear
import Mathlib.Algebra.BigOperators.Group.Finset.Basic

/-!
# Harris–Michael lists: who retires a node

A marked node is unlinked by its deleter or by a search that comes across it, and whoever succeeds
retires it. `Retire` keeps track: a marked node that is gone from its list is retired, or one
thread is about to retire it; a marked node that is still in its list has a deleter that has not
finished. When no operation is in progress, every marked node has therefore been retired, once.
-/

namespace PopSetbench
namespace HmList

open Function
open Heap (Reach)

variable {β α ι K V : Type}

/-! ### Nodes a thread has to see to -/

/-- The node the thread has unlinked and not yet retired. -/
def Pc.unlinked? : Pc β α K V → Option α
  | .retireHelped _ _ x _ => some x
  | .retireErased _ x _ => some x
  | _ => none

/-- The node whose deleter searches for it. -/
def Call.victim? : Call α K V → Option α
  | .unlink _ _ victim => some victim
  | _ => none

/-- The node the thread has marked and not yet seen out of the list. -/
def Pc.victim? : Pc β α K V → Option α
  | .search c => c.victim?
  | .loop c _ _ => c.victim?
  | .recheck c _ _ _ => c.victim?
  | .readKey c _ _ _ => c.victim?
  | .checkPrev c _ _ _ _ => c.victim?
  | .casHelp c _ _ _ => c.victim?
  | .retireHelped c _ _ _ => c.victim?
  | .casUnlink _ _ x _ _ => some x
  | _ => none

theorem unlinked?_notFound {c : Call α K V} {l : Link β α} {curr : Option α} :
    (c.notFound l curr).unlinked? = none := by
  cases c <;> rfl

theorem unlinked?_found {c : Call α K V} {l : Link β α} {x : α} {nxt : Option α} :
    (c.found l x nxt).unlinked? = none := by
  cases c <;> rfl

theorem victim?_notFound {c : Call α K V} {l : Link β α} {curr : Option α} :
    (c.notFound l curr).victim? = none := by
  cases c <;> rfl

theorem victim?_found {c : Call α K V} {l : Link β α} {x : α} {nxt : Option α} :
    (c.found l x nxt).victim? = none := by
  cases c <;> rfl

/-- What a search knows about `curr` and its victim: `curr` was seen unmarked. -/
def Pc.other (p : Pc β α K V) (x : α) : Prop :=
  match p with
  | .recheck _ _ curr nxt => nxt.mark = false → curr ≠ x
  | .readKey _ _ curr nxt => nxt.mark = false → curr ≠ x
  | .checkPrev _ _ curr nxt _ => nxt.mark = false → curr ≠ x
  | _ => True

section

variable [LinearOrder K] (cfg : Config β α K) (s s' : State β α ι K V)

/-- The node is marked and in no list. -/
structure Gone (x : α) : Prop where
  marked : s.heap.marked x = true
  off : ∀ b, ¬ Reach s.heap.next (cfg.head b) x

/-- **Retirement.** -/
structure Retire : Prop where
  /-- No node is retired twice. -/
  nodup : s.retired.Nodup
  /-- Retired nodes are gone. -/
  retired : ∀ x ∈ s.retired, Gone cfg s x
  /-- A node to be retired is gone and not retired yet. -/
  unlinked : ∀ {t x}, (s.pc t).unlinked? = some x → Gone cfg s x ∧ x ∉ s.retired
  /-- One thread retires it. -/
  unlinked_ne : ∀ {t t' x}, (s.pc t).unlinked? = some x → (s.pc t').unlinked? = some x → t = t'
  /-- No node gets lost. -/
  covered : ∀ {x}, Gone cfg s x → x ∈ s.retired ∨ ∃ t, (s.pc t).unlinked? = some x
  /-- A marked node in a list has its deleter. -/
  victim : ∀ {b x}, s.heap.marked x = true → Reach s.heap.next (cfg.head b) x →
    ∃ t, (s.pc t).victim? = some x
  /-- A search does not take its victim for unmarked. -/
  other : ∀ {t x}, (s.pc t).victim? = some x → (s.pc t).other x

/-- The step neither marks nor unlinks a node. -/
structure Calm : Prop where
  marked : ∀ x, s'.heap.marked x = true ↔ s.heap.marked x = true
  reach : ∀ {x}, s.heap.marked x = true → ∀ b,
    (Reach s'.heap.next (cfg.head b) x ↔ Reach s.heap.next (cfg.head b) x)

end

variable [LinearOrder K] {impl : Impl β K} {cfg : Config β α K} {s s' : State β α ι K V} {x : α}
  {t : ι}

theorem Calm.gone (c : Calm cfg s s') : Gone cfg s' x ↔ Gone cfg s x := by
  constructor
  · rintro ⟨hm, hoff⟩
    rw [c.marked] at hm
    exact ⟨hm, fun b hb => hoff b ((c.reach hm b).mpr hb)⟩
  · rintro ⟨hm, hoff⟩
    exact ⟨(c.marked x).mpr hm, fun b hb => hoff b ((c.reach hm b).mp hb)⟩

theorem Calm.of_heap_eq (h : s'.heap = s.heap) : Calm cfg s s' := by
  constructor
  · intro x
    rw [h]
  · intro x _ b
    rw [h]

/-- The victim of a search was marked by its deleter. -/
theorem Inv.victim_marked (inv : Inv impl cfg s) (hx : (s.pc t).victim? = some x) :
    s.heap.marked x = true := by
  have hp := inv.pc t
  have hcall : ∀ {c : Call α K V}, CallOk cfg s c → c.victim? = some x →
      s.heap.marked x = true := by
    intro c hc hv
    cases c with
    | unlink key res victim =>
      obtain rfl := Option.some.inj hv
      exact hc.2.1
    | _ => cases hv
  cases hpc : s.pc t with
  | search c => rw [hpc] at hp hx; exact hcall hp hx
  | loop c prev curr => rw [hpc] at hp hx; exact hcall hp.1 hx
  | recheck c prev y nxt => rw [hpc] at hp hx; exact hcall hp.1 hx
  | readKey c prev y nxt => rw [hpc] at hp hx; exact hcall hp.1 hx
  | checkPrev c prev y nxt ckey => rw [hpc] at hp hx; exact hcall hp.1 hx
  | casHelp c prev y nxt => rw [hpc] at hp hx; exact hcall hp.1 hx
  | retireHelped c prev y nxt => rw [hpc] at hp hx; exact hcall hp.1 hx
  | casUnlink key prev y nxt res =>
    rw [hpc] at hp hx
    obtain rfl := Option.some.inj hx
    obtain ⟨-, -, hl, -⟩ := hp
    show (s.link (.next y)).mark = true
    rw [hl]
  | _ => rw [hpc] at hx; cases hx

/-- **Steps that neither mark nor unlink.** The acting thread may let go of its victim only when it
is not in a list any more. -/
theorem Retire.calm (R : Retire cfg s) (c : Calm cfg s s') (hret : s'.retired = s.retired)
    (hpc : ∀ q, q ≠ t → s'.pc q = s.pc q)
    (hunl : (s'.pc t).unlinked? = (s.pc t).unlinked?)
    (hvict : ∀ x, (s.pc t).victim? = some x → (s'.pc t).victim? = some x ∨
      ∀ b, ¬ Reach s.heap.next (cfg.head b) x)
    (hother : ∀ x, (s'.pc t).victim? = some x → (s'.pc t).other x) : Retire cfg s' := by
  have hunl' : ∀ q, (s'.pc q).unlinked? = (s.pc q).unlinked? := by
    intro q
    by_cases hq : q = t
    · subst hq
      exact hunl
    · rw [hpc q hq]
  refine ⟨?_, fun x hx => ?_, fun {q x} hx => ?_, fun {q q' x} hq hq' => ?_, fun {x} hx => ?_,
    fun {b x} hm hx => ?_, fun {q x} hx => ?_⟩
  · -- nothing is retired, and what is gone stays gone
    rw [hret]
    exact R.nodup
  · rw [hret] at hx
    exact c.gone.mpr (R.retired x hx)
  · -- the nodes unlinked and not yet retired are the same, with the same threads
    rw [hunl'] at hx
    rw [hret]
    exact ⟨c.gone.mpr (R.unlinked hx).1, (R.unlinked hx).2⟩
  · rw [hunl'] at hq hq'
    exact R.unlinked_ne hq hq'
  · -- a gone node is still in the bag or in the hands of its unlinker
    rw [hret]
    refine (R.covered (c.gone.mp hx)).imp id fun h => ?_
    obtain ⟨q, hq⟩ := h
    exact ⟨q, (hunl' q).trans hq⟩
  · -- a marked node in its list has a deleter that goes on searching for it
    rw [c.marked] at hm
    rw [c.reach hm] at hx
    obtain ⟨q, hq⟩ := R.victim hm hx
    by_cases hqt : q = t
    · subst hqt
      rcases hvict x hq with h | h
      · exact ⟨q, h⟩
      · exact absurd hx (h b)
    · exact ⟨q, by rw [hpc q hqt]; exact hq⟩
  · by_cases hqt : q = t
    · subst hqt
      exact hother x hx
    · rw [hpc q hqt] at hx ⊢
      exact R.other hx

/-- The victim of a call has the key that is searched for. -/
theorem CallOk.victim {c : Call α K V} (h : CallOk cfg s c) (hx : c.victim? = some x) :
    s.heap.marked x = true ∧ s.key x = c.key := by
  cases c with
  | unlink key res victim =>
    obtain rfl := Option.some.inj hx
    exact h.2
  | _ => cases hx

/-- A marked node is in no list but that of its key. -/
theorem Inv.bucket_of_marked (inv : Inv impl cfg s) {b : β} (hm : s.heap.marked x = true)
    (hx : Reach s.heap.next (cfg.head b) x) : impl.bucket (s.key x) = b := by
  refine (inv.wf.dom hx ?_ ?_).2.2
  · rintro rfl
    have h := inv.wf.marked_head b
    rw [hm] at h
    cases h
  · rintro rfl
    have h := inv.wf.marked_tail b
    rw [hm] at h
    cases h

/-- A search that finds another node with the key has seen its victim out of the list. -/
theorem Inv.victim_off_of_found (inv : Inv impl cfg s) {c : Call α K V} {q y : α}
    (hc : CallOk cfg s c) (hy : c.victim? = some y) (hne : x ≠ y)
    (hq : Reach s.heap.next (cfg.head (impl.bucket c.key)) q) (hqx : s.heap.next q = some x)
    (hk : s.key x = c.key) (b : β) : ¬ Reach s.heap.next (cfg.head b) y := by
  intro hr
  obtain ⟨hym, hyk⟩ := hc.victim hy
  obtain rfl := inv.bucket_of_marked hym hr
  rw [hyk] at hr
  exact hne (inv.wf.eq_of_key_eq (hq.step hqx) hr (hk.trans hyk.symm))

/-- A search that finds neighbours around the key has seen its victim out of the list. -/
theorem Inv.victim_off_of_notFound (inv : Inv impl cfg s) {c : Call α K V} {q y : α}
    (hc : CallOk cfg s c) (hy : c.victim? = some y)
    (hq : Reach s.heap.next (cfg.head (impl.bucket c.key)) q) (hqx : s.heap.next q = some x)
    (hqk : s.key q < c.key) (hk : c.key < s.key x) (b : β) :
    ¬ Reach s.heap.next (cfg.head b) y := by
  intro hr
  obtain ⟨hym, hyk⟩ := hc.victim hy
  obtain rfl := inv.bucket_of_marked hym hr
  rw [hyk] at hr
  have hle : s.key x ≤ s.key y := inv.wf.le_of_next hq hqx hr (lt_of_lt_of_eq hqk hyk.symm)
  exact absurd (hle.trans_eq hyk) (not_le.mpr hk)

theorem calm_write {a : α} (hoff : ∀ b, ¬ Reach s.heap.next (cfg.head b) a)
    (hm : s.heap.marked a ≠ true) (hm' : s'.heap.marked a ≠ true)
    (hlink : ∀ z, z ≠ a → s'.link (.next z) = s.link (.next z)) (impl : Impl β K) :
    Calm cfg s s' := by
  constructor
  · intro z
    by_cases hz : z = a
    · subst hz
      exact iff_of_false hm' hm
    · show (s'.link (.next z)).mark = true ↔ (s.link (.next z)).mark = true
      rw [hlink z hz]
  · intro z _ b
    exact Heap.write_reach_iff (L := cfg.lists impl) hoff fun z hz =>
      congrArg MarkPtr.ptr (hlink z hz)

theorem Retire.init (h : Init cfg s) : Retire cfg s := by
  have hm : ∀ {x}, s.heap.marked x ≠ true := by
    intro x hx
    have hx : (s.link (.next x)).mark = true := hx
    by_cases ha : s.allocated x = true
    · obtain ⟨b, rfl | rfl⟩ := h.fresh x ha
      · rw [h.link_next_head] at hx
        cases hx
      · rw [h.link_next_tail] at hx
        cases hx
    · rw [h.unmarked x (Bool.eq_false_iff.mpr ha)] at hx
      cases hx
  refine ⟨?_, fun x hx => ?_, fun {t x} hx => ?_, fun {t t' x} hx => ?_, fun {x} hx => ?_,
    fun {b x} hx => absurd hx hm, fun {t x} hx => ?_⟩
  · rw [h.retired]
    exact List.nodup_nil
  · rw [h.retired] at hx
    cases hx
  · rw [h.pc t] at hx
    cases hx
  · rw [h.pc t] at hx
    cases hx
  · exact absurd hx.marked hm
  · rw [h.pc t] at hx
    cases hx

variable [DecidableEq ι] {p : Pc β α K V}

theorem Retire.goto (R : Retire cfg s) (hunl : p.unlinked? = (s.pc t).unlinked?)
    (hvict : ∀ x, (s.pc t).victim? = some x → p.victim? = some x ∨
      ∀ b, ¬ Reach s.heap.next (cfg.head b) x)
    (hother : ∀ x, p.victim? = some x → p.other x) : Retire cfg (s.goto t p) := by
  have hcalm : Calm cfg s (s.goto t p) := .of_heap_eq rfl
  apply R.calm (t := t) hcalm rfl
  · intro q hq
    exact State.goto_pc_of_ne hq
  · rw [State.goto_pc_self]
    exact hunl
  · rw [State.goto_pc_self]
    exact hvict
  · rw [State.goto_pc_self]
    exact hother

/-- **The unlinked node is retired.** -/
theorem Retire.retiring (R : Retire cfg s) (hunl : (s.pc t).unlinked? = some x)
    (hp : p.unlinked? = none)
    (hvict : ∀ y, (s.pc t).victim? = some y → p.victim? = some y)
    (hother : ∀ y, p.victim? = some y → p.other y) : Retire cfg ((s.retiring x).goto t p) := by
  have hpc : ∀ q, q ≠ t → ((s.retiring x).goto t p).pc q = s.pc q :=
    fun q hq => State.goto_pc_of_ne hq
  have hcalm : Calm cfg s ((s.retiring x).goto t p) := .of_heap_eq rfl
  obtain ⟨hgone, hnew⟩ := R.unlinked hunl
  refine ⟨?_, fun y hy => ?_, fun {q y} hy => ?_, fun {q q' y} hq hq' => ?_, fun {y} hy => ?_,
    fun {b y} hm hy => ?_, fun {q y} hy => ?_⟩
  · -- the bag: the node was not in it, and it is gone
    exact List.nodup_cons.mpr ⟨hnew, R.nodup⟩
  · rcases List.mem_cons.mp hy with rfl | hy
    · exact hcalm.gone.mpr hgone
    · exact hcalm.gone.mpr (R.retired y hy)
  · -- the acting thread holds an unlinked node no more
    by_cases hqt : q = t
    · subst hqt
      rw [State.goto_pc_self, hp] at hy
      cases hy
    · rw [hpc q hqt] at hy
      obtain ⟨hg, hn⟩ := R.unlinked hy
      refine ⟨hcalm.gone.mpr hg, fun h => ?_⟩
      rcases List.mem_cons.mp h with rfl | h
      · exact hqt (R.unlinked_ne hy hunl)
      · exact hn h
  · by_cases hqt : q = t
    · subst hqt
      rw [State.goto_pc_self, hp] at hq
      cases hq
    · by_cases hqt' : q' = t
      · subst hqt'
        rw [State.goto_pc_self, hp] at hq'
        cases hq'
      · rw [hpc q hqt] at hq
        rw [hpc q' hqt'] at hq'
        exact R.unlinked_ne hq hq'
  · -- what is gone is in the bag, or with the thread that unlinked it
    rcases R.covered (hcalm.gone.mp hy) with h | ⟨q, hq⟩
    · exact .inl (List.mem_cons_of_mem _ h)
    · by_cases hqt : q = t
      · subst hqt
        obtain rfl := Option.some.inj (hq.symm.trans hunl)
        exact .inl List.mem_cons_self
      · exact .inr ⟨q, by rw [hpc q hqt]; exact hq⟩
  · -- the step leaves the victims alone
    obtain ⟨q, hq⟩ := R.victim hm hy
    by_cases hqt : q = t
    · subst hqt
      exact ⟨q, by rw [State.goto_pc_self]; exact hvict y hq⟩
    · exact ⟨q, by rw [hpc q hqt]; exact hq⟩
  · by_cases hqt : q = t
    · subst hqt
      rw [State.goto_pc_self] at hy ⊢
      exact hother y hy
    · rw [hpc q hqt] at hy ⊢
      exact R.other hy

variable [DecidableEq β] [DecidableEq α]

/-- **A marked node is unlinked**, and its unlinker has to retire it. -/
theorem Retire.unlink {l : Link β α} {nxt : Option α} {key : K} (inv : Inv impl cfg s)
    (R : Retire cfg s) (hprev : PrevNode impl cfg s key l) (hl : s.link l = ⟨some x, false⟩)
    (hx : s.link (.next x) = ⟨nxt, true⟩) (hn : PtrOk impl cfg s key nxt)
    (hnone : (s.pc t).unlinked? = none) (hunl : p.unlinked? = some x)
    (hvict : ∀ y, (s.pc t).victim? = some y → p.victim? = some y ∨ y = x)
    (hother : ∀ y, p.victim? = some y → p.other y) :
    Retire cfg ((s.store l ⟨nxt, false⟩).goto t p) := by
  obtain ⟨q, rfl, hqm, -, hq, hqx⟩ := hprev.reach hl
  obtain ⟨r, rfl, -⟩ := hn
  have hxm : s.heap.marked x = true := by
    show (s.link (.next x)).mark = true
    rw [hx]
  have hxr : s.heap.next x = some r := by
    show (s.link (.next x)).ptr = some r
    rw [hx]
  have hxin : Reach s.heap.next (cfg.head (impl.bucket key)) x := hq.step hqx
  have hheap : ((s.store (.next q) ⟨some r, false⟩).goto t p).heap = s.heap.setNext q r :=
    State.heap_store_next hqm
  have hmarked : ∀ y, ((s.store (.next q) ⟨some r, false⟩).goto t p).heap.marked y =
      s.heap.marked y := by
    intro y
    rw [hheap]
    rfl
  have hreach : ∀ {b y}, Reach ((s.store (.next q) ⟨some r, false⟩).goto t p).heap.next
      (cfg.head b) y ↔ Reach s.heap.next (cfg.head b) y ∧ y ≠ x := by
    intro b y
    rw [hheap]
    exact inv.wf.unlink_one_reach_iff (b := impl.bucket key) hq hqx hxm hxr
  -- what was gone before stays so: the store only shortens a list
  have hgone : ∀ {y}, Gone cfg s y → Gone cfg ((s.store (.next q) ⟨some r, false⟩).goto t p) y := by
    rintro y ⟨hm, hoff⟩
    exact ⟨(hmarked y).trans hm, fun b hb => hoff b (hreach.mp hb).1⟩
  -- nothing that is gone can be the node, which was in its list
  have hne : ∀ {y}, Gone cfg s y → y ≠ x := by
    rintro y hy rfl
    exact hy.off _ hxin
  have hpc : ∀ q', q' ≠ t → ((s.store (.next q) ⟨some r, false⟩).goto t p).pc q' = s.pc q' :=
    fun q' hq' => State.goto_pc_of_ne hq'
  refine ⟨R.nodup, fun y hy => hgone (R.retired y hy), fun {u y} hy => ?_,
    fun {u u' y} hu hu' => ?_, fun {y} hy => ?_, fun {b y} hm hy => ?_, fun {u y} hy => ?_⟩
  · -- the node unlinked here is gone and not in the bag, as it was in its list until now
    by_cases hut : u = t
    · subst hut
      rw [State.goto_pc_self, hunl] at hy
      obtain rfl := Option.some.inj hy
      refine ⟨⟨(hmarked x).trans hxm, fun b hb => (hreach.mp hb).2 rfl⟩, fun h => ?_⟩
      exact hne (R.retired x h) rfl
    · rw [hpc u hut] at hy
      exact ⟨hgone (R.unlinked hy).1, (R.unlinked hy).2⟩
  · -- two unlinkers would have unlinked the same node, once it was no longer in its list
    by_cases hut : u = t <;> by_cases hut' : u' = t
    · exact hut.trans hut'.symm
    · subst hut
      rw [State.goto_pc_self, hunl] at hu
      obtain rfl := Option.some.inj hu
      rw [hpc u' hut'] at hu'
      exact absurd rfl (hne (R.unlinked hu').1)
    · subst hut'
      rw [State.goto_pc_self, hunl] at hu'
      obtain rfl := Option.some.inj hu'
      rw [hpc u hut] at hu
      exact absurd rfl (hne (R.unlinked hu).1)
    · rw [hpc u hut] at hu
      rw [hpc u' hut'] at hu'
      exact R.unlinked_ne hu hu'
  · -- the node itself is covered by the acting thread, any other one as before
    by_cases hyx : y = x
    · subst hyx
      exact .inr ⟨t, by rw [State.goto_pc_self]; exact hunl⟩
    · have hy' : Gone cfg s y := by
        refine ⟨(hmarked y).symm.trans hy.marked, fun b hb => hy.off b ?_⟩
        exact hreach.mpr ⟨hb, hyx⟩
      refine (R.covered hy').imp id fun h => ?_
      obtain ⟨u, hu⟩ := h
      refine ⟨u, ?_⟩
      rw [hpc u]
      · exact hu
      · rintro rfl
        rw [hnone] at hu
        cases hu
  · -- the node is out of the list, so its deleter may let go of it
    obtain ⟨hy, hyx⟩ := hreach.mp hy
    obtain ⟨u, hu⟩ := R.victim ((hmarked y).symm.trans hm) hy
    by_cases hut : u = t
    · subst hut
      refine ⟨u, ?_⟩
      rw [State.goto_pc_self]
      exact (hvict y hu).resolve_right hyx
    · exact ⟨u, by rw [hpc u hut]; exact hu⟩
  · by_cases hut : u = t
    · subst hut
      rw [State.goto_pc_self] at hy ⊢
      exact hother y hy
    · rw [hpc u hut] at hy ⊢
      exact R.other hy

/-- **A node is marked**, and its deleter has to see it out of the list. -/
theorem Retire.mark {nxt : Option α} {key : K} (R : Retire cfg s)
    (hm : Met impl cfg s key x) (hl : s.link (.next x) = ⟨nxt, false⟩)
    (hnone : (s.pc t).unlinked? = none) (hnone' : (s.pc t).victim? = none)
    (hunl : p.unlinked? = none) (hvict : p.victim? = some x) (hother : p.other x) :
    Retire cfg ((s.store (.next x) ⟨nxt, true⟩).goto t p) := by
  have hmark : (s.link (.next x)).mark = false := by rw [hl]
  have hxin := hm.reach hmark
  have hheap : ((s.store (.next x) ⟨nxt, true⟩).goto t p).heap = s.heap.setMarked x :=
    State.heap_store_mark hl
  -- a mark writes no pointer, so the lists stay as they are
  have hreach : ∀ {b y}, Reach ((s.store (.next x) ⟨nxt, true⟩).goto t p).heap.next
      (cfg.head b) y ↔ Reach s.heap.next (cfg.head b) y := by
    intro b y
    rw [hheap]
    rfl
  have hmarked : ∀ {y}, y ≠ x → ((s.store (.next x) ⟨nxt, true⟩).goto t p).heap.marked y =
      s.heap.marked y := by
    intro y hy
    rw [hheap]
    exact Heap.setMarked_marked_of_ne hy
  -- the node marked is in its list, so it is not gone yet
  have hgone : ∀ {y}, Gone cfg ((s.store (.next x) ⟨nxt, true⟩).goto t p) y ↔ Gone cfg s y := by
    intro y
    by_cases hyx : y = x
    · subst hyx
      constructor
      · rintro ⟨-, hoff⟩
        exact absurd (hreach.mpr hxin) (hoff _)
      · rintro ⟨-, hoff⟩
        exact absurd hxin (hoff _)
    · constructor
      · rintro ⟨h, hoff⟩
        exact ⟨(hmarked hyx).symm.trans h, fun b hb => hoff b (hreach.mpr hb)⟩
      · rintro ⟨h, hoff⟩
        exact ⟨(hmarked hyx).trans h, fun b hb => hoff b (hreach.mp hb)⟩
  have hpc : ∀ q, q ≠ t → ((s.store (.next x) ⟨nxt, true⟩).goto t p).pc q = s.pc q :=
    fun q hq => State.goto_pc_of_ne hq
  -- the thread that marks holds no unlinked node
  have hunl' : ∀ q, (((s.store (.next x) ⟨nxt, true⟩).goto t p).pc q).unlinked? =
      (s.pc q).unlinked? := by
    intro q
    by_cases hq : q = t
    · subst hq
      rw [State.goto_pc_self, hunl, hnone]
    · rw [hpc q hq]
  refine ⟨R.nodup, fun y hy => hgone.mpr (R.retired y hy), fun {u y} hy => ?_,
    fun {u u' y} hu hu' => ?_, fun {y} hy => ?_, fun {b y} hm hy => ?_, fun {u y} hy => ?_⟩
  · rw [hunl'] at hy
    exact ⟨hgone.mpr (R.unlinked hy).1, (R.unlinked hy).2⟩
  · rw [hunl'] at hu hu'
    exact R.unlinked_ne hu hu'
  · refine (R.covered (hgone.mp hy)).imp id fun h => ?_
    obtain ⟨u, hu⟩ := h
    exact ⟨u, (hunl' u).trans hu⟩
  · -- the node marked has a deleter from here on, which is the acting thread
    by_cases hyx : y = x
    · subst hyx
      exact ⟨t, by rw [State.goto_pc_self]; exact hvict⟩
    · obtain ⟨u, hu⟩ := R.victim ((hmarked hyx).symm.trans hm) (hreach.mp hy)
      refine ⟨u, ?_⟩
      rw [hpc u]
      · exact hu
      · rintro rfl
        rw [hnone'] at hu
        cases hu
  · by_cases hut : u = t
    · subst hut
      rw [State.goto_pc_self] at hy ⊢
      obtain rfl := Option.some.inj (hvict.symm.trans hy)
      exact hother
    · rw [hpc u hut] at hy ⊢
      exact R.other hy

/-! ### Each step -/

/-- **Retirement**, step by step. -/
theorem Retire.step (inv : Inv impl cfg s) (R : Retire cfg s) {e : Event α K V}
    (h : Step impl cfg s t e s') : Retire cfg s' := by
  have hp := inv.pc t
  cases h with
  | invoke op hpc hmin hmax =>
    -- nothing is held before `startOp`
    refine R.goto (by rw [hpc]; rfl) (fun y hy => ?_) fun y hy => by cases hy
    rw [hpc] at hy
    cases hy
  | startOp op hpc =>
    refine R.goto (by rw [hpc]; cases op <;> rfl) (fun y hy => ?_) fun y hy => ?_
    · rw [hpc] at hy
      cases hy
    · cases op <;> cases hy
  | newNode key val x hpc hx =>
    -- a new node is neither marked nor in a list, so nothing is gone by it
    have hoff : ∀ b, ¬ Reach s.heap.next (cfg.head b) x := by
      intro b hb
      rw [inv.reach_allocated hb] at hx
      cases hx
    have hm : s.heap.marked x ≠ true := by
      intro hm
      rw [inv.marked_allocated hm] at hx
      cases hx
    have hpriv : Private cfg ((s.allocating x key val).goto t (.search (.insert key val x))) x :=
      private_newNode inv hx
    have hm' := hpriv.unmarked
    have hcalm : Calm cfg s ((s.allocating x key val).goto t (.search (.insert key val x))) :=
      calm_write hoff hm (Bool.eq_false_iff.mp hm') (fun z hz =>
        State.store_next (s := s) (v := ⟨none, false⟩) (by simpa using Ne.symm hz)) impl
    apply R.calm (t := t) hcalm rfl
    · intro q hq
      exact State.goto_pc_of_ne hq
    · rw [State.goto_pc_self, hpc]
      rfl
    · intro y hy
      rw [hpc] at hy
      cases hy
    · intro y hy
      rw [State.goto_pc_self] at hy
      cases hy
  | search c curr hpc hl =>
    -- a search for the victim begins: the deleter goes on holding it
    refine R.goto (by rw [hpc]; rfl) (fun y hy => ?_) fun y hy => trivial
    rw [hpc] at hy
    exact .inl hy
  | loopNull c prev hpc =>
    rw [hpc] at hp
    obtain ⟨-, x, hx, -⟩ := hp
    cases hx
  | loop c prev x hpc =>
    refine R.goto (by rw [hpc]; rfl) (fun y hy => ?_) fun y hy => ?_
    · rw [hpc] at hy
      exact .inl hy
    · -- the victim is marked, so it is not the node just seen unmarked
      have hym := inv.victim_marked (t := t) (by rw [hpc]; exact hy)
      rintro hmark rfl
      have hmark : s.heap.marked x = false := hmark
      rw [hmark] at hym
      cases hym
  | recheckFail c prev x nxt hpc hl =>
    refine R.goto (by rw [hpc]; rfl) (fun y hy => ?_) fun y hy => trivial
    rw [hpc] at hy
    exact .inl hy
  | recheck c prev x nxt hpc hl =>
    have hoth : ∀ y, c.victim? = some y → nxt.mark = false → x ≠ y := by
      intro y hy
      have h := R.other (t := t) (x := y) (by rw [hpc]; exact hy)
      rw [hpc] at h
      exact h
    refine R.goto (by rw [hpc]; rfl) (fun y hy => ?_) hoth
    rw [hpc] at hy
    exact .inl hy
  | readKey c prev x nxt hpc =>
    have hoth : ∀ y, c.victim? = some y → nxt.mark = false → x ≠ y := by
      intro y hy
      have h := R.other (t := t) (x := y) (by rw [hpc]; exact hy)
      rw [hpc] at h
      exact h
    refine R.goto (by rw [hpc]; rfl) (fun y hy => ?_) hoth
    rw [hpc] at hy
    exact .inl hy
  | checkPrevFail c prev x nxt ckey hpc hl =>
    refine R.goto (by rw [hpc]; rfl) (fun y hy => ?_) fun y hy => trivial
    rw [hpc] at hy
    exact .inl hy
  | advance c prev x nxt ckey hpc hl hk =>
    refine R.goto (by rw [hpc]; rfl) (fun y hy => ?_) fun y hy => trivial
    rw [hpc] at hy
    exact .inl hy
  | found c prev x nxt ckey hpc hl hk =>
    -- the search for the own victim found an unmarked node of the same key, so the victim is out
    rw [hpc] at hp
    obtain ⟨hc, hprev, -, -, rfl⟩ := hp
    obtain ⟨q, rfl, -, -, hq, hqx⟩ := (hprev.prevNode inv hc.userKey hk.ge).reach hl
    refine R.goto (by rw [hpc, unlinked?_found]; rfl) (fun y hy => .inr ?_) fun y hy => ?_
    · have hne := R.other hy
      rw [hpc] at hne hy
      exact inv.victim_off_of_found hc hy (hne rfl) hq hqx hk
    · rw [victim?_found] at hy
      cases hy
  | notFound c prev x nxt ckey hpc hl hk =>
    -- no node of the key is left, so the victim is out
    rw [hpc] at hp
    obtain ⟨hc, hprev, -, -, rfl⟩ := hp
    obtain ⟨q, rfl, -, hqk, hq, hqx⟩ := (hprev.prevNode inv hc.userKey hk.le).reach hl
    refine R.goto (by rw [hpc, unlinked?_notFound]; rfl) (fun y hy => .inr ?_) fun y hy => ?_
    · rw [hpc] at hy
      exact inv.victim_off_of_notFound hc hy hq hqx hqk hk
    · rw [victim?_notFound] at hy
      cases hy
  | help c prev x nxt ckey hpc hl =>
    refine R.goto (by rw [hpc]; rfl) (fun y hy => ?_) fun y hy => trivial
    rw [hpc] at hy
    exact .inl hy
  | casHelp c prev x nxt hpc hl =>
    -- `casHelp` unlinks the marked node and has to retire it next
    rw [hpc] at hp
    obtain ⟨-, hprev, hx, hn⟩ := hp
    refine R.unlink inv hprev hl hx hn (by rw [hpc]; rfl) rfl (fun y hy => ?_) fun y hy => trivial
    rw [hpc] at hy
    exact .inl hy
  | casHelpFail c prev x nxt hpc hl =>
    refine R.goto (by rw [hpc]; rfl) (fun y hy => ?_) fun y hy => trivial
    rw [hpc] at hy
    exact .inl hy
  | retireHelped c prev x nxt hpc =>
    -- `retireHelped` puts it into the bag
    refine R.retiring (by rw [hpc]; rfl) rfl (fun y hy => ?_) fun y hy => trivial
    rw [hpc] at hy
    exact hy
  | deallocate key val a x hpc =>
    refine R.goto (by rw [hpc]; rfl) (fun y hy => ?_) fun y hy => by cases hy
    rw [hpc] at hy
    cases hy
  | endFound key val x hpc =>
    refine R.goto (by rw [hpc]; rfl) (fun y hy => ?_) fun y hy => by cases hy
    rw [hpc] at hy
    cases hy
  | readFound key val x hpc =>
    refine R.goto (by rw [hpc]; rfl) (fun y hy => ?_) fun y hy => by cases hy
    rw [hpc] at hy
    cases hy
  | storeNext key val a prev curr hpc =>
    -- the new node is private, so the store changes no list
    rw [hpc] at hp
    have hpriv := hp.1.2.1
    have hpriv' : Private cfg ((s.store (.next a) ⟨curr, false⟩).goto t
        (.casInsert key val a prev curr)) a := private_storeNext impl hpriv
    have hm' := hpriv'.unmarked
    have hcalm := calm_write hpriv.off (Bool.eq_false_iff.mp hpriv.unmarked)
      (Bool.eq_false_iff.mp hm')
      (fun z hz => State.store_next (s := s) (by simpa using Ne.symm hz)) impl
    apply R.calm (t := t) hcalm rfl
    · intro q hq
      exact State.goto_pc_of_ne hq
    · rw [State.goto_pc_self, hpc]
      rfl
    · intro y hy
      rw [hpc] at hy
      cases hy
    · intro y hy
      rw [State.goto_pc_self] at hy
      cases hy
  | casInsert key val a prev curr hpc hl =>
    -- `casInsert` links an unmarked node: nothing that is marked moves
    rw [hpc] at hp
    obtain ⟨hc, hprev, ha, x, rfl, -, hk⟩ := hp
    obtain ⟨q, rfl, hqm, hqk, hq, hqx⟩ := hprev.reach hl
    obtain ⟨-, hpriv, -⟩ := hc
    have hax : s.heap.next a = some x := by
      show (s.link (.next a)).ptr = some x
      rw [ha]
    have hheap : ((s.store (.next q) ⟨some a, false⟩).goto t
        (.endOp (.insert key val) (.value none))).heap = s.heap.setNext q a :=
      State.heap_store_next hqm
    have hcalm : Calm cfg s ((s.store (.next q) ⟨some a, false⟩).goto t
        (.endOp (.insert key val) (.value none))) := by
      constructor
      · intro z
        rw [hheap]
        rfl
      · intro z hz b
        rw [hheap]
        refine (inv.wf.insert_reach_iff (b := impl.bucket key) hq hqx hax hpriv.off).trans ?_
        refine or_iff_left ?_
        rintro ⟨-, rfl⟩
        rw [hpriv.unmarked] at hz
        cases hz
    apply R.calm (t := t) hcalm rfl
    · intro q hq
      exact State.goto_pc_of_ne hq
    · rw [State.goto_pc_self, hpc]
      rfl
    · intro y hy
      rw [hpc] at hy
      cases hy
    · intro y hy
      rw [State.goto_pc_self] at hy
      cases hy
  | casInsertFail key val a prev curr hpc hl =>
    refine R.goto (by rw [hpc]; rfl) (fun y hy => ?_) fun y hy => by cases hy
    rw [hpc] at hy
    cases hy
  | readVal key prev x nxt hpc =>
    refine R.goto (by rw [hpc]; rfl) (fun y hy => ?_) fun y hy => by cases hy
    rw [hpc] at hy
    cases hy
  | casMark key prev x nxt res hpc hl =>
    -- `casMark` makes the thread the deleter of the node
    rw [hpc] at hp
    obtain ⟨-, -, hm, -, -⟩ := hp
    exact R.mark hm hl (by rw [hpc]; rfl) (by rw [hpc]; rfl) rfl rfl trivial
  | casMarkFail key prev x nxt res hpc hl =>
    refine R.goto ?_ (fun y hy => ?_) fun y hy => ?_
    · rw [hpc]
      cases impl.endOpOnRetry <;> rfl
    · rw [hpc] at hy
      cases hy
    · revert hy
      cases impl.endOpOnRetry <;> intro hy <;> cases hy
  | endRetry key hpc =>
    refine R.goto (by rw [hpc]; rfl) (fun y hy => ?_) fun y hy => by cases hy
    rw [hpc] at hy
    cases hy
  | casUnlink key prev x nxt res hpc hl =>
    -- the deleter unlinks its own victim, and lets go of it
    rw [hpc] at hp
    obtain ⟨-, hprev, hx, -, hn⟩ := hp
    refine R.unlink inv hprev hl hx hn (by rw [hpc]; rfl) rfl (fun y hy => ?_)
      fun y hy => by cases hy
    rw [hpc] at hy
    exact .inr (Option.some.inj hy).symm
  | casUnlinkFail key prev x nxt res hpc hl =>
    -- another thread may have unlinked the victim: a search makes sure of it
    refine R.goto (by rw [hpc]; rfl) (fun y hy => ?_) fun y hy => trivial
    rw [hpc] at hy
    exact .inl hy
  | retireErased key x res hpc =>
    -- `retireErased` puts the victim into the bag
    refine R.retiring (by rw [hpc]; rfl) rfl (fun y hy => ?_) fun y hy => by cases hy
    rw [hpc] at hy
    cases hy
  | endOp op r hpc =>
    refine R.goto (by rw [hpc]; rfl) (fun y hy => ?_) fun y hy => by cases hy
    rw [hpc] at hy
    cases hy
  | ret op r hpc =>
    refine R.goto (by rw [hpc]; rfl) (fun y hy => ?_) fun y hy => by cases hy
    rw [hpc] at hy
    cases hy

/-- **Retirement in every run.** -/
theorem Retire.of_reachable (h : (lts (ι := ι) (V := V) impl cfg).Reachable s) : Retire cfg s :=
  h.invariant (P := Retire cfg) (fun _ hi => Retire.init hi)
    fun _ _ _ hr hi _ hs => hi.step (Inv.of_reachable hr) hs

/-- Who retires a node has unlinked it. -/
theorem Step.unlinked_of_retire {e : Event α K V} (h : Step impl cfg s t e s')
    (he : e = .retire x) : (s.pc t).unlinked? = some x := by
  cases h with
  | retireHelped c prev y nxt hpc =>
    rw [hpc]
    exact congrArg some (Event.retire.inj he)
  | retireErased key y res hpc =>
    rw [hpc]
    exact congrArg some (Event.retire.inj he)
  | _ => first
    | exact absurd he Link.access_ne_retire
    | cases he

/-- What is gone stays gone. -/
theorem Gone.path {as : List (ι × Event α K V)} (hg : Gone cfg s x)
    (hr : (lts impl cfg).Reachable s) (hp : (lts impl cfg).Path s as s') : Gone cfg s' x := by
  induction hp with
  | nil => exact hg
  | cons hs _ ih =>
    have inv : Inv impl cfg _ := Inv.of_reachable hr
    obtain ⟨own, f⟩ := Step.frame inv hs
    have e := f.move.evolves inv.wf
    -- a marked node is no thread's own
    have hx : ¬ own x := by
      apply f.not_own inv (inv.marked_allocated hg.marked)
      intro hx
      have hm := hx.unmarked
      rw [hg.marked] at hm
      cases hm
    exact ih ⟨(e.frozen hx hg.marked).1, e.gone hx hg.marked hg.off⟩ (hr.step hs)

end HmList
end PopSetbench

import PopSetbench.Ds.HmListRetire
import Mathlib.Algebra.BigOperators.Fin
import Mathlib.Tactic.Abel

/-!
# Harris–Michael lists: the sum of the keys

`debugKeySum` adds up the keys of a list when no operation is in progress. It agrees with what the
operations have reported: the keys inserted successfully less the keys erased successfully. In
other states the two differ by what the operations in progress have done and not yet reported
(`Pc.pending`).
-/

namespace PopSetbench

/-- What a result contributes to the sum of the keys. -/
def Event.balance {α K V : Type} [AddGroup K] : Event α K V → K
  | .ret (.insert key _) (.value none) => key
  | .ret (.erase key) (.value (some _)) => -key
  | _ => 0

namespace HmList

open Function
open Heap (Reach)

variable {β α ι K V : Type}

/-! ### `debugKeySum` -/

section

variable [LinearOrder K] [AddCommGroup K] (cfg : Config β α K) (s : State β α ι K V)

/-- The loop of `debugKeySum`, from `curr` on, with `result` and `marked_count` so far. -/
def keySumFrom : ℕ → Option α → K × ℕ → Option (K × ℕ)
  | 0, _, _ => none
  | _ + 1, none, _ => none
  | n + 1, some curr, (result, markedCount) =>
    if s.key curr < cfg.keyMax then
      keySumFrom n (s.link (.next curr)).ptr
        (result + s.key curr,
          bif (s.link (.next curr)).mark then markedCount + 1 else markedCount)
    else some (result, markedCount)

/-- `debugKeySum` on one list, for `fuel` rounds of its loop: the sum, and how many marked nodes
were counted in. -/
def debugKeySum (b : β) (fuel : ℕ) : Option (K × ℕ) :=
  (s.link (.head b)).ptr.bind fun head =>
    keySumFrom cfg s fuel (s.link (.next head)).ptr (0, 0)

variable {cfg s}

/-- The loop along a list whose nodes are not marked. -/
theorem keySumFrom_chain {b : β} (htail : s.key (cfg.tail b) = cfg.keyMax) :
    ∀ (l : List α) (x : α) (acc : K × ℕ), (x :: l).IsChain (fun y z => s.heap.next y = some z) →
      (x :: l).getLast? = some (cfg.tail b) →
      (∀ y ∈ (x :: l).dropLast, s.key y < cfg.keyMax ∧ s.heap.marked y = false) →
      ∀ fuel, l.length < fuel → keySumFrom cfg s fuel (some x) acc =
        some (acc.1 + ((x :: l).dropLast.map s.key).sum, acc.2) := by
  intro l
  induction l with
  | nil =>
    intro x acc _ hlast _ fuel hfuel
    obtain rfl : x = cfg.tail b := Option.some.inj hlast
    cases fuel with
    | zero => cases hfuel
    | succ n =>
      unfold keySumFrom
      rw [if_neg (by rw [htail]; exact lt_irrefl _)]
      simp
  | cons y l ih =>
    intro x acc hchain hlast hmid fuel hfuel
    obtain ⟨hxy, hchain⟩ := List.isChain_cons_cons.mp hchain
    obtain ⟨hxk, hxm⟩ := hmid x (by simp)
    cases fuel with
    | zero => cases hfuel
    | succ n =>
      have hnext : (s.link (.next x)).ptr = some y := hxy
      have hmark : (s.link (.next x)).mark = false := hxm
      have hlast' : (y :: l).getLast? = some (cfg.tail b) := by
        rw [← hlast, List.getLast?_cons_cons]
      have hmid' : ∀ z ∈ (y :: l).dropLast, s.key z < cfg.keyMax ∧ s.heap.marked z = false :=
        fun z hz => hmid z (by simp [hz])
      unfold keySumFrom
      rw [if_pos hxk, hnext, hmark, ih y _ hchain hlast' hmid' n (Nat.lt_of_succ_lt_succ hfuel)]
      simp [add_assoc]

end

/-! ### What is done and not reported yet -/

/-- What the first search of a deletion that has marked its node will report. -/
def Call.pending [AddGroup K] : Call α K V → K
  | .unlink key _ _ => -key
  | _ => 0

/-- What the thread has done to the set and not reported yet. -/
def Pc.pending [AddGroup K] : Pc β α K V → K
  | .search c => c.pending
  | .loop c _ _ => c.pending
  | .recheck c _ _ _ => c.pending
  | .readKey c _ _ _ => c.pending
  | .checkPrev c _ _ _ _ => c.pending
  | .casHelp c _ _ _ => c.pending
  | .retireHelped c _ _ _ => c.pending
  | .casUnlink key _ _ _ _ => -key
  | .retireErased key _ _ => -key
  | .endOp op r => (Event.ret (α := α) op r).balance
  | .ret op r => (Event.ret (α := α) op r).balance
  | _ => 0

theorem pending_notFound [AddGroup K] {c : Call α K V} {l : Link β α} {curr : Option α} :
    (c.notFound l curr).pending = c.pending := by
  cases c <;> rfl

theorem pending_found [AddGroup K] {c : Call α K V} {l : Link β α} {x : α} {nxt : Option α} :
    (c.found l x nxt).pending = c.pending := by
  cases c <;> rfl

theorem balance_access [AddGroup K] {l : Link β α} : (l.access : Event α K V).balance = 0 := by
  cases l <;> rfl

/-- The sum over all threads when one of them moves. -/
theorem sum_pending [Fintype ι] [AddCommGroup K] {s s' : State β α ι K V} {t : ι}
    (hpc : ∀ q, q ≠ t → s'.pc q = s.pc q) :
    ∑ q, (s'.pc q).pending =
      ∑ q, (s.pc q).pending - (s.pc t).pending + (s'.pc t).pending := by
  classical
  have hrest : ∑ q ∈ Finset.univ.erase t, (s'.pc q).pending =
      ∑ q ∈ Finset.univ.erase t, (s.pc q).pending := by
    refine Finset.sum_congr rfl fun q hq => ?_
    rw [hpc q (Finset.ne_of_mem_erase hq)]
  calc ∑ q, (s'.pc q).pending
      = ∑ q ∈ Finset.univ.erase t, (s'.pc q).pending + (s'.pc t).pending :=
        (Finset.sum_erase_add _ _ (Finset.mem_univ t)).symm
    _ = ∑ q ∈ Finset.univ.erase t, (s.pc q).pending + (s'.pc t).pending := by rw [hrest]
    _ = ∑ q, (s.pc q).pending - (s.pc t).pending + (s'.pc t).pending := by
        rw [← Finset.sum_erase_add _ (fun q => (s.pc q).pending) (Finset.mem_univ t),
          add_sub_cancel_right]

variable [LinearOrder K] [AddCommGroup K] {impl : Impl β K} {cfg : Config β α K}
  {s s' : State β α ι K V} {t : ι} {F : Finset α}

variable (impl cfg s) in
/-- The live nodes. -/
def IsLive (F : Finset α) : Prop :=
  ∀ x, x ∈ F ↔ ∃ b, s.heap.Live (cfg.lists impl) b x

variable (s F) in
/-- The sum of the keys of the nodes in `F`, less what the operations have not reported yet. -/
def reported [Fintype ι] : K :=
  ∑ x ∈ F, s.key x - ∑ q, (s.pc q).pending

section

variable [Fintype ι]

/-- The live nodes stay the same. -/
theorem reported_same {d : K} (hF : IsLive impl cfg s F)
    (hlive : ∀ b x, s'.heap.Live (cfg.lists impl) b x ↔ s.heap.Live (cfg.lists impl) b x)
    (hkey : ∀ x ∈ F, s'.key x = s.key x) (hpc : ∀ q, q ≠ t → s'.pc q = s.pc q)
    (hd : (s.pc t).pending = (s'.pc t).pending + d) :
    ∃ F', IsLive impl cfg s' F' ∧ reported s' F' = reported s F + d := by
  refine ⟨F, fun x => ?_, ?_⟩
  · rw [hF x]
    simp only [hlive]
  · unfold reported
    rw [Finset.sum_congr rfl hkey, sum_pending hpc, hd]
    abel

variable [DecidableEq ι]

theorem reported_goto {p : Pc β α K V} {d : K} (hF : IsLive impl cfg s F)
    (hd : (s.pc t).pending = p.pending + d) :
    ∃ F', IsLive impl cfg (s.goto t p) F' ∧ reported (s.goto t p) F' = reported s F + d := by
  refine reported_same (t := t) hF ?_ ?_ ?_ ?_
  · intro b x
    exact Iff.rfl
  · intro x _
    rfl
  · intro q hq
    exact State.goto_pc_of_ne hq
  · rw [State.goto_pc_self]
    exact hd

variable [DecidableEq β] [DecidableEq α]

/-- **What is reported** grows by what a step reports. -/
theorem Step.reported (inv : Inv impl cfg s) (hF : IsLive impl cfg s F) {e : Event α K V}
    (h : Step impl cfg s t e s') :
    ∃ F', IsLive impl cfg s' F' ∧ reported s' F' = reported s F + e.balance := by
  have hp := inv.pc t
  have hlive : ∀ {x}, x ∈ F → ∃ b, Reach s.heap.next (cfg.head b) x := by
    intro x hx
    obtain ⟨b, hx⟩ := (hF x).mp hx
    exact ⟨b, hx.1⟩
  cases h with
  | newNode key val x hpc hx =>
    -- the new node is in no list, so it is none of the live ones
    have hoff : ∀ b, ¬ Reach s.heap.next (cfg.head b) x := by
      intro b hb
      rw [inv.reach_allocated hb] at hx
      cases hx
    have hlink : ∀ z, z ≠ x →
        (s.allocating x key val).link (.next z) = s.link (.next z) := fun z hz =>
      State.store_next (s := s) (v := ⟨none, false⟩) (by simpa using Ne.symm hz)
    apply reported_same (t := t) hF
    · intro b z
      exact Heap.write_live_iff (L := cfg.lists impl) hoff
        (fun z hz => congrArg MarkPtr.ptr (hlink z hz))
        fun z hz => congrArg MarkPtr.mark (hlink z hz)
    · intro z hz
      apply update_of_ne
      rintro rfl
      obtain ⟨b, hb⟩ := hlive hz
      exact hoff b hb
    · intro q hq
      exact State.goto_pc_of_ne hq
    · rw [State.goto_pc_self, hpc]
      exact (add_zero 0).symm
  | casHelp c prev x nxt hpc hl =>
    -- the node that leaves is marked: no live node is affected
    rw [hpc] at hp
    obtain ⟨-, hprev, hx, hn⟩ := hp
    rw [balance_access]
    apply reported_same (t := t) hF
    · exact live_unlink hprev hl hx hn
    · intro z _
      rfl
    · intro q hq
      exact State.goto_pc_of_ne hq
    · rw [State.goto_pc_self, hpc]
      exact (add_zero _).symm
  | retireHelped c prev x nxt hpc =>
    refine reported_same (t := t) hF ?_ ?_ ?_ ?_
    · intro b z
      exact Iff.rfl
    · intro z _
      rfl
    · intro q hq
      exact State.goto_pc_of_ne hq
    · rw [State.goto_pc_self, hpc]
      exact (add_zero _).symm
  | storeNext key val a prev curr hpc =>
    -- the node written to is private
    rw [hpc] at hp
    have hlink : ∀ z, z ≠ a →
        (s.store (.next a) ⟨curr, false⟩).link (.next z) = s.link (.next z) := fun z hz =>
      State.store_next (s := s) (by simpa using Ne.symm hz)
    apply reported_same (t := t) hF
    · intro b z
      exact Heap.write_live_iff (L := cfg.lists impl) hp.1.2.1.off
        (fun z hz => congrArg MarkPtr.ptr (hlink z hz))
        fun z hz => congrArg MarkPtr.mark (hlink z hz)
    · intro z _
      rfl
    · intro q hq
      exact State.goto_pc_of_ne hq
    · rw [State.goto_pc_self, hpc]
      exact (add_zero 0).symm
  | casInsert key val a prev curr hpc hl =>
    -- the key becomes live now, and the return will report it: it is pending with the opposite sign
    rw [hpc] at hp
    obtain ⟨⟨-, hpriv, hka, -⟩, hprev, ha, x, rfl, -, -⟩ := hp
    obtain ⟨q, rfl, hqm, -, hq, hqx⟩ := hprev.reach hl
    have haF : a ∉ F := by
      intro haF
      obtain ⟨b, hb⟩ := hlive haF
      exact hpriv.off b hb
    have hpc' : ∀ u, u ≠ t → ((s.store (.next q) ⟨some a, false⟩).goto t
        (.endOp (.insert key val) (.value none))).pc u = s.pc u :=
      fun u hu => State.goto_pc_of_ne hu
    rw [balance_access]
    refine ⟨insert a F, fun z => ?_, ?_⟩
    · have hax : s.heap.next a = some x := by
        show (s.link (.next a)).ptr = some x
        rw [ha]
      rw [Finset.mem_insert, hF z]
      constructor
      · rintro (rfl | ⟨b, hz⟩)
        · refine ⟨impl.bucket key, ?_⟩
          show (s.store (.next q) ⟨some z, false⟩).heap.Live _ _ _
          rw [State.heap_store_next hqm]
          exact (inv.wf.insert_live_iff hq hqx hax hpriv.unmarked hpriv.off).mpr
            (.inr ⟨rfl, rfl⟩)
        · refine ⟨b, ?_⟩
          show (s.store (.next q) ⟨some a, false⟩).heap.Live _ _ _
          rw [State.heap_store_next hqm]
          exact (inv.wf.insert_live_iff (b := impl.bucket key) hq hqx hax hpriv.unmarked
            hpriv.off).mpr (.inl hz)
      · rintro ⟨b, hz⟩
        have hz : (s.store (.next q) ⟨some a, false⟩).heap.Live (cfg.lists impl) b z := hz
        rw [State.heap_store_next hqm,
          inv.wf.insert_live_iff (b := impl.bucket key) hq hqx hax hpriv.unmarked hpriv.off] at hz
        rcases hz with hz | ⟨-, rfl⟩
        · exact .inr ⟨b, hz⟩
        · exact .inl rfl
    · unfold HmList.reported
      rw [Finset.sum_insert haF, sum_pending hpc', State.goto_pc_self, hpc]
      show s.key a + ∑ x ∈ F, s.key x - (∑ u, (s.pc u).pending - 0 + key) = _
      rw [hka]
      abel
  | casMark key prev x nxt res hpc hl =>
    -- the key is live no more, and the return of the erase will report it
    rw [hpc] at hp
    obtain ⟨hu, -, hm, hk, -⟩ := hp
    have hx := hm.live inv hu hk (by rw [hl])
    have hxF : x ∈ F := (hF x).mpr ⟨_, hx⟩
    have hpc' : ∀ u, u ≠ t → ((s.store (.next x) ⟨nxt, true⟩).goto t
        (.casUnlink key prev x nxt res)).pc u = s.pc u := fun u hu => State.goto_pc_of_ne hu
    refine ⟨F.erase x, fun z => ?_, ?_⟩
    · have hz : ∀ b, ((s.store (.next x) ⟨nxt, true⟩).goto t
          (.casUnlink key prev x nxt res)).heap.Live (cfg.lists impl) b z ↔
          s.heap.Live (cfg.lists impl) b z ∧ z ≠ x := by
        intro b
        show (s.store (.next x) ⟨nxt, true⟩).heap.Live (cfg.lists impl) b z ↔ _
        rw [State.heap_store_mark hl]
        exact Heap.mark_live_iff
      simp only [hz, Finset.mem_erase, hF z, exists_and_right]
      exact and_comm
    · -- the key leaves the sum and is pending at once
      unfold HmList.reported
      have hsum := Finset.sum_erase_add F s.key hxF
      rw [sum_pending hpc', State.goto_pc_self, hpc, ← hsum]
      show ∑ y ∈ F.erase x, s.key y - (∑ u, (s.pc u).pending - 0 + -key) = _
      rw [hk]
      show _ = _ + (0 : K)
      abel
  | casUnlink key prev x nxt res hpc hl =>
    rw [hpc] at hp
    obtain ⟨-, hprev, hx, -, hn⟩ := hp
    rw [balance_access]
    apply reported_same (t := t) hF
    · exact live_unlink hprev hl hx hn
    · intro z _
      rfl
    · intro q hq
      exact State.goto_pc_of_ne hq
    · rw [State.goto_pc_self, hpc]
      exact (add_zero _).symm
  | retireErased key x res hpc =>
    refine reported_same (t := t) hF ?_ ?_ ?_ ?_
    · intro b z
      exact Iff.rfl
    · intro z _
      rfl
    · intro q hq
      exact State.goto_pc_of_ne hq
    · rw [State.goto_pc_self, hpc]
      exact (add_zero _).symm
  | found c prev x nxt ckey hpc hl hk =>
    -- a search moves the thread on and reports nothing
    apply reported_goto hF
    rw [hpc, pending_found, balance_access]
    exact (add_zero _).symm
  | notFound c prev x nxt ckey hpc hl hk =>
    apply reported_goto hF
    rw [hpc, pending_notFound, balance_access]
    exact (add_zero _).symm
  | loopNull c prev hpc =>
    apply reported_goto hF
    rw [hpc, pending_notFound]
    exact (add_zero _).symm
  | startOp op hpc =>
    apply reported_goto hF
    rw [hpc]
    cases op <;> exact (add_zero _).symm
  | casMarkFail key prev x nxt res hpc hl =>
    apply reported_goto hF
    rw [hpc]
    cases impl.endOpOnRetry <;> exact (add_zero _).symm
  | ret op r hpc =>
    -- the return reports what was pending
    apply reported_goto hF
    rw [hpc]
    exact (zero_add _).symm
  | checkPrevFail c prev x nxt ckey hpc hl =>
    -- the CASes that fail and the reads change nothing either
    apply reported_goto hF
    rw [hpc, balance_access]
    exact (add_zero _).symm
  | advance c prev x nxt ckey hpc hl hk =>
    apply reported_goto hF
    rw [hpc, balance_access]
    exact (add_zero _).symm
  | help c prev x nxt ckey hpc hl =>
    apply reported_goto hF
    rw [hpc, balance_access]
    exact (add_zero _).symm
  | casHelpFail c prev x nxt hpc hl =>
    apply reported_goto hF
    rw [hpc, balance_access]
    exact (add_zero _).symm
  | casInsertFail key val a prev curr hpc hl =>
    apply reported_goto hF
    rw [hpc, balance_access]
    exact (add_zero _).symm
  | casUnlinkFail key prev x nxt res hpc hl =>
    apply reported_goto hF
    rw [hpc, balance_access]
    exact (add_zero _).symm
  | invoke op hpc hmin hmax =>
    apply reported_goto hF
    rw [hpc]
    exact (add_zero _).symm
  | search c curr hpc hl =>
    apply reported_goto hF
    rw [hpc]
    exact (add_zero _).symm
  | loop c prev x hpc =>
    apply reported_goto hF
    rw [hpc]
    exact (add_zero _).symm
  | recheckFail c prev x nxt hpc hl =>
    apply reported_goto hF
    rw [hpc]
    exact (add_zero _).symm
  | recheck c prev x nxt hpc hl =>
    apply reported_goto hF
    rw [hpc]
    exact (add_zero _).symm
  | readKey c prev x nxt hpc =>
    apply reported_goto hF
    rw [hpc]
    exact (add_zero _).symm
  | deallocate key val a x hpc =>
    apply reported_goto hF
    rw [hpc]
    exact (add_zero _).symm
  | endFound key val x hpc =>
    apply reported_goto hF
    rw [hpc]
    exact (add_zero _).symm
  | readFound key val x hpc =>
    apply reported_goto hF
    rw [hpc]
    exact (add_zero _).symm
  | readVal key prev x nxt hpc =>
    apply reported_goto hF
    rw [hpc]
    exact (add_zero _).symm
  | endRetry key hpc =>
    apply reported_goto hF
    rw [hpc]
    exact (add_zero _).symm
  | endOp op r hpc =>
    apply reported_goto hF
    rw [hpc]
    exact (add_zero _).symm

/-- **What is reported** in a run. -/
theorem Path.reported {as : List (ι × Event α K V)} (h : (lts impl cfg).Path s as s')
    (hr : (lts impl cfg).Reachable s) (hF : IsLive impl cfg s F) :
    ∃ F', IsLive impl cfg s' F' ∧
      HmList.reported s' F' = HmList.reported s F + (as.map fun a => a.2.balance).sum := by
  induction h generalizing F with
  | nil => exact ⟨F, hF, by simp⟩
  | cons hs _ ih =>
    obtain ⟨F₁, hF₁, h₁⟩ := Step.reported (Inv.of_reachable hr) hF hs
    obtain ⟨F₂, hF₂, h₂⟩ := ih (hr.step hs) hF₁
    refine ⟨F₂, hF₂, ?_⟩
    rw [h₂, h₁, List.map_cons, List.sum_cons, add_assoc]

end

/-! ### When no operation is in progress -/

/-- In a list without marked nodes `debugKeySum` walks over the live ones. -/
theorem Inv.debugKeySum (inv : Inv impl cfg s) {b : β}
    (hun : ∀ x, Reach s.heap.next (cfg.head b) x → s.heap.marked x = false) :
    ∃ l : List α, l.Nodup ∧ (∀ x, x ∈ l ↔ s.heap.Live (cfg.lists impl) b x) ∧
      ∀ fuel, l.length ≤ fuel → debugKeySum cfg s b (fuel + 1) = some ((l.map s.key).sum, 0) := by
  obtain ⟨nodes, hnodes⟩ := inv.wf.exists_nodes b
  obtain ⟨hchain, hfirst, hlast, hmem, hsorted⟩ := hnodes
  -- the nodes are the head, the first node, the others
  match nodes, hfirst with
  | [_], rfl => exact absurd (Option.some.inj hlast) (cfg.head_ne_tail b b)
  | _ :: x :: l, rfl =>
    have hnext : s.heap.next (cfg.head b) = some x := (List.isChain_cons_cons.mp hchain).1
    rw [List.getLast?_cons_cons] at hlast
    -- those between the sentinels are `x :: l` but for the last one
    have hsplit : (x :: l).dropLast ++ [cfg.tail b] = x :: l :=
      List.dropLast_append_getLast? _ hlast
    have hlt : ∀ y ∈ (x :: l).dropLast, s.key y < cfg.keyMax := by
      intro y hy
      have h := (List.pairwise_cons.mp hsorted).2
      rw [← hsplit, List.pairwise_append] at h
      rw [← inv.key_tail b]
      exact h.2.2 y hy (cfg.tail b) (List.mem_singleton_self _)
    have hgt : ∀ y ∈ x :: l, cfg.keyMin < s.key y := by
      intro y hy
      rw [← inv.key_head b]
      exact (List.pairwise_cons.mp hsorted).1 y hy
    have hin : ∀ y ∈ (x :: l).dropLast, Reach s.heap.next (cfg.head b) y := by
      intro y hy
      exact (hmem y).mp (List.mem_cons_of_mem _ (List.mem_of_mem_dropLast hy))
    refine ⟨(x :: l).dropLast, ?_, fun y => ⟨fun hy => ?_, fun hy => ?_⟩, fun fuel hfuel => ?_⟩
    · -- the keys grow strictly along the list, so no node comes twice
      have h : (x :: l).Nodup :=
        (List.pairwise_cons.mp hsorted).2.imp fun hyz => by
          rintro rfl
          exact lt_irrefl _ hyz
      exact h.sublist (List.dropLast_sublist _)
    · -- a node between the sentinels is live, as nothing is marked
      refine ⟨hin y hy, hun y (hin y hy), ?_, ?_⟩
      · rintro rfl
        have h := hgt _ (List.mem_of_mem_dropLast hy)
        have hk := inv.key_head b
        exact absurd h (by rw [← hk]; exact lt_irrefl _)
      · rintro rfl
        have h := hlt _ hy
        have hk := inv.key_tail b
        exact absurd h (by rw [← hk]; exact lt_irrefl _)
    · -- a live node is met, and is neither sentinel
      have h := (hmem y).mpr hy.1
      rcases List.mem_cons.mp h with rfl | h
      · exact absurd rfl hy.2.2.1
      · rw [← hsplit, List.mem_append, List.mem_singleton] at h
        exact h.resolve_right hy.2.2.2
    · -- the walk stops at the tail, whose key is the largest one
      have hptr : (s.link (.next (cfg.head b))).ptr = some x := hnext
      have hlen : l.length < fuel + 1 := by
        rw [List.length_dropLast, List.length_cons] at hfuel
        omega
      unfold HmList.debugKeySum
      rw [inv.link_head]
      show keySumFrom cfg s (fuel + 1) (s.link (.next (cfg.head b))).ptr (0, 0) = _
      rw [hptr, keySumFrom_chain (inv.key_tail b) l x (0, 0) (List.isChain_cons_cons.mp hchain).2
        hlast (fun y hy => ⟨hlt y hy, hun y (hin y hy)⟩) (fuel + 1) hlen, zero_add]

section

variable [DecidableEq β] [DecidableEq α] [DecidableEq ι]

/-- **Every node is retired once, and the sum of the keys is right.** In every run from the empty
lists: no node is retired twice; a node about to be retired is marked and in no list, and that is
so from then on. When no operation is in progress, the marked nodes are in no list, and each has
been retired exactly once; `debugKeySum` ends, counts no marked node, and what it finds in all the
lists is what was inserted successfully less what was erased successfully. -/
theorem hmList_retires [Fintype ι] [Fintype β] {s₀ : State β α ι K V} (h₀ : Init cfg s₀)
    {as : List (ι × Event α K V)} (hp : (lts impl cfg).Path s₀ as s) :
    s.retired.Nodup ∧
    (∀ q x s', Step impl cfg s q (.retire x) s' →
      ∀ bs s'', (lts impl cfg).Path s bs s'' → Gone cfg s'' x) ∧
    ((∀ q, s.pc q = .idle) →
      (∀ x, s.heap.marked x = true → Gone cfg s x ∧ s.retired.count x = 1) ∧
      ∃ sum : β → K, (∀ b, ∃ n, ∀ fuel, n ≤ fuel → debugKeySum cfg s b fuel = some (sum b, 0)) ∧
        ∑ b, sum b = (as.map fun a => a.2.balance).sum) := by
  have hr₀ : (lts (ι := ι) (V := V) impl cfg).Reachable s₀ := .init h₀
  have hr := hr₀.path hp
  have inv : Inv impl cfg s := Inv.of_reachable hr
  have R := Retire.of_reachable hr
  refine ⟨R.nodup, fun q x s' hs bs s'' hbs => ?_, fun hidle => ⟨fun x hx => ?_, ?_⟩⟩
  · -- what is retired is gone, and stays so
    exact (R.unlinked (hs.unlinked_of_retire rfl)).1.path hr hbs
  · -- the deleter of a marked node in its list is still running, but nobody is
    have hoff : ∀ b, ¬ Reach s.heap.next (cfg.head b) x := by
      intro b hb
      obtain ⟨q, hq⟩ := R.victim hx hb
      rw [hidle] at hq
      cases hq
    have hg : Gone cfg s x := ⟨hx, hoff⟩
    refine ⟨hg, List.count_eq_one_of_mem R.nodup ?_⟩
    refine (R.covered hg).resolve_right ?_
    rintro ⟨q, hq⟩
    rw [hidle] at hq
    cases hq
  · -- for the same reason no node of a list is marked, so `debugKeySum` counts the live ones
    have hun : ∀ b x, Reach s.heap.next (cfg.head b) x → s.heap.marked x = false := by
      intro b x hx
      refine Bool.eq_false_iff.mpr fun hm => ?_
      obtain ⟨q, hq⟩ := R.victim hm hx
      rw [hidle] at hq
      cases hq
    choose l hnodup hlive hsum using fun b => inv.debugKeySum (hun b)
    refine ⟨fun b => ((l b).map s.key).sum, fun b => ⟨(l b).length + 1, fun fuel hf => ?_⟩, ?_⟩
    · obtain ⟨n, rfl⟩ : ∃ n, fuel = n + 1 := ⟨fuel - 1, by omega⟩
      exact hsum b n (Nat.le_of_succ_le_succ hf)
    · -- at first no node is live and nothing is pending; now nothing is pending
      have hF₀ : IsLive impl cfg s₀ ∅ := by
        intro x
        refine iff_of_false (Finset.notMem_empty x) ?_
        rintro ⟨b, hx, -, hxh, hxt⟩
        rcases h₀.reach hx with rfl | rfl
        · exact hxh rfl
        · exact hxt rfl
      -- the reported keys along the whole run
      obtain ⟨F, hF, hrep⟩ := Path.reported hp hr₀ hF₀
      have hrep₀ : HmList.reported s₀ (∅ : Finset α) = 0 := by
        unfold HmList.reported
        simp [h₀.pc, Pc.pending]
      have hrep₁ : HmList.reported s F = ∑ x ∈ F, s.key x := by
        unfold HmList.reported
        simp [hidle, Pc.pending]
      -- the live nodes are those of the lists, which share none
      have hFl : F = Finset.univ.biUnion fun b => (l b).toFinset := by
        ext x
        rw [hF]
        simp [hlive]
      have hdisj : Set.PairwiseDisjoint (Finset.univ (α := β)) fun b => (l b).toFinset := by
        intro b _ b' _ hne
        refine Finset.disjoint_left.mpr fun x hx hx' => hne ?_
        rw [List.mem_toFinset, hlive] at hx hx'
        exact inv.wf.disjoint hx.1 hx'.1
      calc ∑ b, ((l b).map s.key).sum
          = ∑ b, ∑ x ∈ (l b).toFinset, s.key x := by
            refine Finset.sum_congr rfl fun b _ => ?_
            exact (List.sum_toFinset s.key (hnodup b)).symm
        _ = ∑ x ∈ F, s.key x := by
            rw [hFl]
            exact (Finset.sum_biUnion hdisj).symm
        _ = (as.map fun a => a.2.balance).sum := by
            rw [← hrep₁, hrep, hrep₀, zero_add]

end

/-! ### A run -/

section

/-- One list between the keys 0 and 100, with the sentinels 0 and 1. -/
def intConfig : Config Unit ℕ ℤ where
  keyMin := 0
  keyMax := 100
  head _ := 0
  tail _ := 1
  keyMin_lt := by decide
  head_injective := smallConfig.head_injective
  tail_injective := smallConfig.tail_injective
  head_ne_tail := smallConfig.head_ne_tail

/-- The list after the constructor, run by one thread. -/
def intState : State Unit ℕ Unit ℤ ℕ where
  link
    | .head _ => ⟨some 0, false⟩
    | .next 0 => ⟨some 1, false⟩
    | .next _ => ⟨none, false⟩
  key x := if x = 0 then 0 else 100
  val _ := 0
  allocated x := decide (x < 2)
  retired := []
  pc _ := .idle

theorem intState_init : Init intConfig intState := by
  refine ⟨fun _ => rfl, fun _ => rfl, fun _ => rfl, fun _ => rfl, fun _ => rfl, fun _ => rfl,
    fun _ => rfl, fun x hx => ⟨(), ?_⟩, fun x hx => ?_, rfl, fun _ => rfl⟩
  · have hx : x < 2 := of_decide_eq_true hx
    show x = 0 ∨ x = 1
    omega
  · cases x <;> rfl

/-- The key 5 is inserted and erased again. -/
theorem intState_erases : ∃ (s : State Unit ℕ Unit ℤ ℕ) (as : List (Unit × Event ℕ ℤ ℕ)),
    (lts (hmlistOOI ℤ) intConfig).Path intState as s ∧
      (∀ q, s.pc q = .idle) ∧ s.heap.marked 2 = true := by
  have step : ∀ {s s' s'' : State Unit ℕ Unit ℤ ℕ} {as e},
      (lts (hmlistOOI ℤ) intConfig).Path s as s' → Step (hmlistOOI ℤ) intConfig s' () e s'' →
      (lts (hmlistOOI ℤ) intConfig).Path s (as ++ [((), e)]) s'' := fun h hs => h.snoc hs
  have h := Lts.Path.nil (M := lts (hmlistOOI ℤ) intConfig) (s := intState)
  -- 5 is inserted
  have h := step h (.invoke (.insert 5 7) rfl (by decide) (by decide))
  have h := step h (.startOp (.insert 5 7) rfl)
  have h := step h (.newNode 5 7 2 rfl rfl)
  have h := step h (.search (.insert 5 7 2) (some 0) rfl rfl)
  have h := step h (.loop (.insert 5 7 2) (.head ()) 0 rfl)
  have h := step h (.recheck (.insert 5 7 2) (.head ()) 0 ⟨some 1, false⟩ rfl rfl)
  have h := step h (.readKey (.insert 5 7 2) (.head ()) 0 ⟨some 1, false⟩ rfl)
  have h := step h (.advance (.insert 5 7 2) (.head ()) 0 (some 1) 0 rfl rfl (by decide))
  have h := step h (.loop (.insert 5 7 2) (.next 0) 1 rfl)
  have h := step h (.recheck (.insert 5 7 2) (.next 0) 1 ⟨none, false⟩ rfl rfl)
  have h := step h (.readKey (.insert 5 7 2) (.next 0) 1 ⟨none, false⟩ rfl)
  have h := step h (.notFound (.insert 5 7 2) (.next 0) 1 none 100 rfl rfl (by decide))
  have h := step h (.storeNext 5 7 2 (.next 0) (some 1) rfl)
  have h := step h (.casInsert 5 7 2 (.next 0) (some 1) rfl rfl)
  have h := step h (.endOp (.insert 5 7) (.value none) rfl)
  have h := step h (.ret (.insert 5 7) (.value none) rfl)
  -- and erased: the node is marked, unlinked and retired
  have h := step h (.invoke (.erase 5) rfl (by decide) (by decide))
  have h := step h (.startOp (.erase 5) rfl)
  have h := step h (.search (.erase 5) (some 0) rfl rfl)
  have h := step h (.loop (.erase 5) (.head ()) 0 rfl)
  have h := step h (.recheck (.erase 5) (.head ()) 0 ⟨some 2, false⟩ rfl rfl)
  have h := step h (.readKey (.erase 5) (.head ()) 0 ⟨some 2, false⟩ rfl)
  have h := step h (.advance (.erase 5) (.head ()) 0 (some 2) 0 rfl rfl (by decide))
  have h := step h (.loop (.erase 5) (.next 0) 2 rfl)
  have h := step h (.recheck (.erase 5) (.next 0) 2 ⟨some 1, false⟩ rfl rfl)
  have h := step h (.readKey (.erase 5) (.next 0) 2 ⟨some 1, false⟩ rfl)
  have h := step h (.found (.erase 5) (.next 0) 2 (some 1) 5 rfl rfl rfl)
  have h := step h (.readVal 5 (.next 0) 2 (some 1) rfl)
  have h := step h (.casMark 5 (.next 0) 2 (some 1) 7 rfl rfl)
  have h := step h (.casUnlink 5 (.next 0) 2 (some 1) 7 rfl rfl)
  have h := step h (.retireErased 5 2 7 rfl)
  have h := step h (.endOp (.erase 5) (.value (some 7)) rfl)
  have h := step h (.ret (.erase 5) (.value (some 7)) rfl)
  exact ⟨_, _, h, fun _ => rfl, rfl⟩

/-- Its node has then been retired once. -/
theorem hmList_retires_erased : ∃ s : State Unit ℕ Unit ℤ ℕ,
    (lts (hmlistOOI ℤ) intConfig).Reachable s ∧ s.heap.marked 2 = true ∧
      Gone intConfig s 2 ∧ s.retired.count 2 = 1 := by
  obtain ⟨s, as, hp, hidle, hm⟩ := intState_erases
  have h := (hmList_retires intState_init hp).2.2 hidle
  exact ⟨s, Lts.Reachable.path (.init intState_init) hp, hm, h.1 2 hm⟩

end

end HmList
end PopSetbench

import PopSetbench.Ds.LazyListLinear
import PopSetbench.Ds.LazyListSchedule
import PopSetbench.Library.Journal

/-!
# The lazy list keeps what was inserted

A ledger is kept of a run: which nodes the insertions have linked, which nodes the deletions have
marked, and what has been returned. The nodes that are live are those that were linked and have not
been marked; a node is marked once, by a deletion of its key; and what is linked and marked is what
is reported, sooner or later, as inserted and erased (`Balanced`).
-/

namespace PopSetbench
namespace LazyList

open Function
open Heap (Reach)
open LazyListNzb (Config Upd)

variable {α ι K V : Type}

/-- What an update does to a node: its key and value, too. -/
structure Deed (α K V : Type) where
  /-- The key of the operation. -/
  key : K
  /-- The value that is inserted, or erased. -/
  val : V
  /-- The node. -/
  node : α

/-- The node the next step of a thread links. -/
def Pc.links? : Pc α K V → Option (Deed α K V)
  | .link key val _ newnode => some ⟨key, val, newnode⟩
  | _ => none

/-- The node the next step of a thread marks. -/
def Pc.marks? : Pc α K V → Option (Deed α K V)
  | .mark key _ curr result _ => some ⟨key, result, curr⟩
  | _ => none

/-- What the next step of a thread returns. -/
def Pc.returns? : Pc α K V → Option (Op K V × Ret V)
  | .ret op r => some (op, r)
  | _ => none

/-- What has been done in a run. -/
structure Ledger (α ι K V : Type) where
  /-- The nodes that were linked. -/
  links : Journal ι (Deed α K V)
  /-- The nodes that were marked. -/
  marks : Journal ι (Deed α K V)
  /-- The operations that have returned, with their results. -/
  returned : Journal ι (Op K V × Ret V)

/-- Nothing has been done. -/
def Ledger.empty : Ledger α ι K V :=
  ⟨[], [], []⟩

/-- A step is entered into the ledger. -/
def enter (s : State α ι K V) (a : ι × Event α K V) (g : Ledger α ι K V) : Ledger α ι K V where
  links := .note a.1 (s.pc a.1).links? g.links
  marks := .note a.1 (s.pc a.1).marks? g.marks
  returned := .note a.1 (s.pc a.1).returns? g.returned

/-- What a result reports as inserted. -/
def insertion : Op K V × Ret V → Option (K × V)
  | (.insert key val, .value none) => some (key, val)
  | _ => none

/-- What a result reports as erased. -/
def erasure : Op K V × Ret V → Option (K × V)
  | (.erase key, .value (some val)) => some (key, val)
  | _ => none

/-- The key and the value. -/
def Deed.pair (d : Deed α K V) : K × V :=
  (d.key, d.val)

/-- What a thread has returned, or has settled and will return. -/
def results [DecidableEq ι] (s : State α ι K V) (g : Ledger α ι K V) (t : ι) :
    List (Op K V × Ret V) :=
  (s.pc t).outcome.toList ++ g.returned.entriesOf t

variable [LinearOrder K]

/-- **The ledger balances.** -/
structure Balanced [DecidableEq α] [DecidableEq ι] (cfg : Config α K) (s : State α ι K V)
    (g : Ledger α ι K V) : Prop where
  /-- Every insertion is still there or was undone by exactly one deletion, of its key. -/
  undone : ∀ t d, (t, d) ∈ g.links → s.heap.Live (lists cfg) () d.node ∨
    ∃ q, g.marks.filter (fun e => e.2.node = d.node) = [(q, d)]
  /-- The set consists of what was inserted and not undone. -/
  contents : ∀ k v, Contents cfg s k v ↔ ∃ t d, (t, d) ∈ g.links ∧ d.pair = (k, v) ∧
    ∀ q d', (q, d') ∈ g.marks → d'.node ≠ d.node
  /-- Deletions undo insertions only. -/
  linked : ∀ t d, (t, d) ∈ g.marks → ∃ q, (q, d) ∈ g.links
  /-- What a thread has linked is what its insertions report. -/
  inserted : ∀ t, (g.links.entriesOf t).map Deed.pair = (results s g t).filterMap insertion
  /-- What a thread has marked is what its deletions report. -/
  erased : ∀ t, (g.marks.entriesOf t).map Deed.pair = (results s g t).filterMap erasure

/-! ### What a step does to the nodes -/

section

variable {cfg : Config α K} {s s' : State α ι K V} {t : ι} {x : α} {d : Deed α K V}
  {g : Ledger α ι K V}

/-- A node that is about to be linked is new. -/
theorem Inv.of_links (inv : Inv cfg s) (hd : (s.pc t).links? = some d) :
    s.arena.Private (lists cfg) d.node ∧ s.key d.node = d.key ∧ s.val d.node = d.val := by
  have hp := inv.shared.all t
  cases hpc : s.pc t with
  | link key val pred a =>
    rw [hpc] at hd hp
    obtain rfl := Option.some.inj hd
    obtain ⟨-, -, -, ha, hk, hv, -⟩ := hp
    exact ⟨ha, hk, hv⟩
  | _ =>
    rw [hpc] at hd
    cases hd

/-- A node that is about to be marked is live. -/
theorem Inv.of_marks (inv : Inv cfg s) (hd : (s.pc t).marks? = some d) :
    s.heap.Live (lists cfg) () d.node ∧ s.key d.node = d.key ∧ s.val d.node = d.val := by
  have hp := inv.shared.all t
  cases hpc : s.pc t with
  | mark key pred curr result c_nxt =>
    rw [hpc] at hd hp
    obtain rfl := Option.some.inj hd
    exact ⟨inv.live_mark hpc, hp.1.found, hp.2⟩
  | _ =>
    rw [hpc] at hd
    cases hd

variable [DecidableEq α] [DecidableEq ι]

/-- Only the node that is linked is met for the first time. -/
theorem Step.met_iff (inv : Inv cfg s) {e : Event α K V} (hs : Step cfg s t e s') :
    Met cfg s'.arena x ↔
      Met cfg s.arena x ∨ ∃ d, (s.pc t).links? = some d ∧ d.node = x := by
  have hp := inv.shared.all t
  have hg := inv.guarded t
  -- in most steps nothing is linked, and nothing else brings a node into the list
  have hsame : ∀ {A : Arena α K V}, (s.pc t).links? = none →
      (Met cfg A x ↔ Met cfg s.arena x) →
      (Met cfg A x ↔ Met cfg s.arena x ∨ ∃ d, (s.pc t).links? = some d ∧ d.node = x) := by
    intro A hnone hiff
    rw [hiff, hnone]
    refine ⟨.inl, fun h => h.resolve_right ?_⟩
    rintro ⟨d, hd, -⟩
    cases hd
  cases hs with
  | newNode key val pred y a hpc ha =>
    -- the new node is written to, but no list reaches it
    refine hsame (by rw [hpc]; rfl) ?_
    have hoff : ∀ b, ¬ Reach s.heap.next ((lists cfg).head b) a := by
      intro b hb
      have h : s.allocated a = true := inv.shared.ok.reach_allocated hb
      rw [ha] at h
      cases h
    have hm : s.marked a = false := by
      apply Bool.eq_false_iff.mpr
      intro h
      have h : s.allocated a = true := inv.shared.ok.marked_allocated (x := a) h
      rw [ha] at h
      cases h
    have hmark : update s.marked a false = s.marked := by
      rw [← hm]
      exact update_eq_self ..
    have hreach : Reach (s.allocating a key val y).heap.next ((lists cfg).head ()) x ↔
        Reach s.heap.next ((lists cfg).head ()) x :=
      Heap.write_reach_iff hoff fun z hz => update_of_ne hz ..
    show update s.marked a false x = true ∨ _ ↔ _
    rw [hmark]
    exact or_congr_right hreach
  | link key val pred a hpc =>
    -- `link` brings exactly the new node into the list
    have hlinks : (s.pc t).links? = some ⟨key, val, a⟩ := by
      rw [hpc]
      rfl
    rw [hpc] at hp hg
    obtain ⟨-, hmp, -, ha, -, -, y, hn, -, -⟩ := hp
    have hr := Arena.reach_of_anchored hmp hg.1
    have hreach : Reach (s.setNext pred (some a)).heap.next ((lists cfg).head ()) x ↔
        Reach s.heap.next ((lists cfg).head ()) x ∨ (() = () ∧ x = a) :=
      inv.shared.ok.wf.insert_reach_iff hr (hg.2.trans hn) hn ha.off
    rw [hlinks]
    constructor
    · rintro (h | h)
      · exact .inl (.inl h)
      · rcases hreach.mp h with h | ⟨-, rfl⟩
        · exact .inl (.inr h)
        · exact .inr ⟨_, rfl, rfl⟩
    · rintro ((h | h) | ⟨d, hd, rfl⟩)
      · exact .inl h
      · exact .inr (hreach.mpr (.inl h))
      · obtain rfl := Option.some.inj hd
        exact .inr (hreach.mpr (.inr ⟨rfl, rfl⟩))
  | mark key pred y result nxt hpc =>
    -- the node that is marked was in the list, so it has been met before
    have hlive := inv.live_mark hpc
    refine hsame (by rw [hpc]; rfl) ?_
    show update s.marked y true x = true ∨ _ ↔ _
    by_cases hxy : x = y
    · subst hxy
      exact iff_of_true (.inl (update_self ..)) (.inr hlive.1)
    · rw [update_of_ne hxy]
      exact Iff.rfl
  | unlink key pred y result nxt hpc =>
    -- a node that is unlinked was marked first, so it stays one that was met
    refine hsame (by rw [hpc]; rfl) ?_
    obtain ⟨z, rfl, hz⟩ := inv.unlink_next hpc
    rw [hpc] at hp hg
    have st := inv.shared.change_stable (t := t) knows_local
      (change_unlink hp.1.left hg.1 hg.2 hp.2.2.1 hz)
    refine ⟨fun h => ?_, fun h => Met.mono st h⟩
    rcases h with h | h
    · exact .inl h
    · exact .inr (Heap.reach_of_setNext_unlink (H := s.heap) hg.2 (.single hp.2.2.1 hz) h)
  | _ =>
    have hpc := ‹s.pc t = _›
    exact hsame (by rw [hpc]; rfl) Iff.rfl

/-- Only the node that is marked is marked for the first time. -/
theorem Step.marked_iff (inv : Inv cfg s) {e : Event α K V} (hs : Step cfg s t e s') :
    s'.marked x = true ↔
      s.marked x = true ∨ ∃ d, (s.pc t).marks? = some d ∧ d.node = x := by
  have hsame : ∀ {b : Bool}, (s.pc t).marks? = none → b = s.marked x →
      (b = true ↔ s.marked x = true ∨ ∃ d, (s.pc t).marks? = some d ∧ d.node = x) := by
    rintro b hnone rfl
    rw [hnone]
    refine ⟨.inl, fun h => h.resolve_right ?_⟩
    rintro ⟨d, hd, -⟩
    cases hd
  cases hs with
  | newNode key val pred y a hpc ha =>
    -- the new node is not marked: only allocated nodes are
    refine hsame (by rw [hpc]; rfl) ?_
    show update s.marked a false x = s.marked x
    by_cases hxa : x = a
    · subst hxa
      rw [update_self]
      symm
      apply Bool.eq_false_iff.mpr
      intro h
      have h : s.allocated x = true := inv.shared.ok.marked_allocated (x := x) h
      rw [ha] at h
      cases h
    · rw [update_of_ne hxa]
  | mark key pred y result nxt hpc =>
    -- `mark` marks exactly the node of the erase
    have hmarks : (s.pc t).marks? = some ⟨key, result, y⟩ := by
      rw [hpc]
      rfl
    rw [hmarks]
    show update s.marked y true x = true ↔ _
    by_cases hxy : x = y
    · subst hxy
      exact iff_of_true (update_self ..) (.inr ⟨_, rfl, rfl⟩)
    · rw [update_of_ne hxy]
      refine ⟨.inl, fun h => h.resolve_right ?_⟩
      rintro ⟨d, hd, rfl⟩
      obtain rfl := Option.some.inj hd
      exact hxy rfl
  | _ =>
    have hpc := ‹s.pc t = _›
    exact hsame (by rw [hpc]; rfl) rfl

/-- **What a step settles** is what it links or marks. -/
theorem Step.results {e : Event α K V} (hs : Step cfg s t e s') :
    ((s'.pc t).outcome.toList ++ (s.pc t).returns?.toList).filterMap insertion =
      (s.pc t).links?.toList.map Deed.pair ++ (s.pc t).outcome.toList.filterMap insertion ∧
    ((s'.pc t).outcome.toList ++ (s.pc t).returns?.toList).filterMap erasure =
      (s.pc t).marks?.toList.map Deed.pair ++ (s.pc t).outcome.toList.filterMap erasure := by
  cases hs with
  | startOp op hpc =>
    -- a result is made by a link or a mark, and a return moves it to the returned ones
    rw [State.goto_pc_self, hpc]
    cases op <;> exact ⟨rfl, rfl⟩
  | readKeyEnd u pred x hpc hk =>
    rw [State.goto_pc_self, hpc]
    cases u <;> exact ⟨rfl, rfl⟩
  | lockPred u pred x hpc hl =>
    rw [State.goto_pc_self, hpc]
    cases u <;> exact ⟨rfl, rfl⟩
  | validNext u pred x hpc hn =>
    rw [State.goto_pc_self, hpc]
    cases u <;> exact ⟨rfl, rfl⟩
  | failPred u pred x hpc hm =>
    rw [State.goto_pc_self, hpc]
    cases u <;> exact ⟨rfl, rfl⟩
  | failCurr u pred x hpc hm =>
    rw [State.goto_pc_self, hpc]
    cases u <;> exact ⟨rfl, rfl⟩
  | failNext u pred x hpc =>
    rw [State.goto_pc_self, hpc]
    cases u <;> exact ⟨rfl, rfl⟩
  | unlockCurr key pred x r hpc =>
    rw [State.goto_pc_self, hpc]
    cases r <;> exact ⟨rfl, rfl⟩
  | unlockPred u pred r hpc =>
    rw [State.goto_pc_self, hpc]
    cases r <;> exact ⟨rfl, rfl⟩
  | endOp op r hpc =>
    rw [State.goto_pc_self, hpc]
    cases r <;> exact ⟨rfl, rfl⟩
  | _ =>
    have hpc := ‹s.pc t = _›
    rw [State.goto_pc_self, hpc]
    exact ⟨rfl, rfl⟩

end

/-! ### The books -/

section

variable {cfg : Config α K} {s s' : State α ι K V} {t : ι} {g : Ledger α ι K V}

/-- What a journal of deeds says of a heap: the nodes are those that satisfy `P`, each of them
entered once, and they have the keys and values that were entered. -/
structure Books (s : State α ι K V) (P : α → Prop) (j : Journal ι (Deed α K V)) : Prop where
  nodup : (j.map fun e => e.2.node).Nodup
  mem_iff : ∀ x, (∃ t d, (t, d) ∈ j ∧ d.node = x) ↔ P x
  key_eq : ∀ t d, (t, d) ∈ j → s.key d.node = d.key
  val_eq : ∀ t d, (t, d) ∈ j → s.val d.node = d.val

omit [LinearOrder K] in
theorem Books.nil {P : α → Prop} (h : ∀ x, ¬ P x) : Books s P ([] : Journal ι (Deed α K V)) where
  nodup := List.nodup_nil
  mem_iff x := by
    refine iff_of_false ?_ (h x)
    rintro ⟨t, d, hd, -⟩
    cases hd
  key_eq t d hd := by cases hd
  val_eq t d hd := by cases hd

omit [LinearOrder K] in
/-- **Books are kept.** The step enters the node that comes to satisfy `P`. -/
theorem Books.note {P P' : α → Prop} {j : Journal ι (Deed α K V)} {o : Option (Deed α K V)}
    (h : Books s P j) (hiff : ∀ x, P' x ↔ P x ∨ ∃ d, o = some d ∧ d.node = x)
    (hsame : ∀ x, P x → s'.key x = s.key x ∧ s'.val x = s.val x)
    (hnew : ∀ d, o = some d → ¬ P d.node ∧ s'.key d.node = d.key ∧ s'.val d.node = d.val) :
    Books s' P' (.note t o j) := by
  have hP : ∀ {t d}, (t, d) ∈ j → P d.node := fun {t d} hd => (h.mem_iff _).mp ⟨t, d, hd, rfl⟩
  refine ⟨?_, fun x => ?_, fun q d hd => ?_, fun q d hd => ?_⟩
  · cases o with
    | none => exact h.nodup
    | some d =>
      refine List.nodup_cons.mpr ⟨fun hmem => ?_, h.nodup⟩
      obtain ⟨⟨q, d'⟩, hd', heq⟩ := List.mem_map.mp hmem
      have heq : d'.node = d.node := heq
      apply (hnew d rfl).1
      rw [← heq]
      exact hP hd'
  · rw [hiff, ← h.mem_iff]
    constructor
    · rintro ⟨q, d, hd, rfl⟩
      rcases Journal.mem_note.mp hd with ⟨-, ho⟩ | hd
      · exact .inr ⟨d, ho, rfl⟩
      · exact .inl ⟨q, d, hd, rfl⟩
    · rintro (⟨q, d, hd, rfl⟩ | ⟨d, ho, rfl⟩)
      · exact ⟨q, d, Journal.mem_note.mpr (.inr hd), rfl⟩
      · exact ⟨t, d, Journal.mem_note.mpr (.inl ⟨rfl, ho⟩), rfl⟩
  · rcases Journal.mem_note.mp hd with ⟨-, ho⟩ | hd
    · exact (hnew d ho).2.1
    · exact (hsame _ (hP hd)).1.trans (h.key_eq q d hd)
  · rcases Journal.mem_note.mp hd with ⟨-, ho⟩ | hd
    · exact (hnew d ho).2.2
    · exact (hsame _ (hP hd)).2.trans (h.val_eq q d hd)

omit [LinearOrder K] in
/-- Entries in two books about one node agree. -/
theorem Books.deed_eq {P P' : α → Prop} {j j' : Journal ι (Deed α K V)} (h : Books s P j)
    (h' : Books s P' j') {t q : ι} {d d' : Deed α K V} (hd : (t, d) ∈ j) (hd' : (q, d') ∈ j')
    (hn : d.node = d'.node) : d = d' := by
  have hk : d.key = d'.key := by
    rw [← h.key_eq t d hd, ← h'.key_eq q d' hd', hn]
  have hv : d.val = d'.val := by
    rw [← h.val_eq t d hd, ← h'.val_eq q d' hd', hn]
  cases d
  cases d'
  simp_all

/-- The invariant of the ledger. -/
structure Kept [DecidableEq ι] (cfg : Config α K) (s : State α ι K V) (g : Ledger α ι K V) :
    Prop where
  links : Books s (fun x => Met cfg s.arena x ∧ x ≠ cfg.head ∧ x ≠ cfg.tail) g.links
  marks : Books s (fun x => s.marked x = true) g.marks
  inserted : ∀ t, (g.links.entriesOf t).map Deed.pair = (results s g t).filterMap insertion
  erased : ∀ t, (g.marks.entriesOf t).map Deed.pair = (results s g t).filterMap erasure

variable [DecidableEq ι]

theorem Kept.init (h : Init cfg s) : Kept cfg s (.empty : Ledger α ι K V) := by
  refine ⟨.nil ?_, .nil ?_, fun t => ?_, fun t => ?_⟩
  · rintro x ⟨hm | hr, hh, ht⟩
    · have hm : s.marked x = true := hm
      rw [h.marked] at hm
      cases hm
    · exact (h.reach hr).elim hh ht
  · intro x hm
    rw [h.marked] at hm
    cases hm
  · unfold LazyList.results
    rw [h.pc t]
    rfl
  · unfold LazyList.results
    rw [h.pc t]
    rfl

variable [DecidableEq α]

/-- **The ledger, step by step.** -/
theorem Kept.step (inv : Inv cfg s) (h : Kept cfg s g) {e : Event α K V}
    (hs : Step cfg s t e s') : Kept cfg s' (enter s (t, e) g) := by
  obtain ⟨own, c, -⟩ := hs.change inv
  have st := inv.shared.change_stable knows_local c
  have hsame : ∀ {x}, Met cfg s.arena x → s'.key x = s.key x ∧ s'.val x = s.val x :=
    fun hx => ⟨hx.key_eq st, hx.val_eq st⟩
  -- a node that is linked is none of the sentinels
  have hnew : ∀ {d}, (s.pc t).links? = some d → d.node ≠ cfg.head ∧ d.node ≠ cfg.tail := by
    intro d hd
    have hpriv := (inv.of_links hd).1
    refine ⟨?_, ?_⟩
    · intro heq
      apply hpriv.off ()
      rw [heq]
      exact .refl
    · intro heq
      apply hpriv.off ()
      rw [heq]
      exact inv.shared.ok.wf.reach_tail ()
  -- the other threads have the same results
  have hother : ∀ {q}, q ≠ t → results s' (enter s (t, e) g) q = results s g q := by
    intro q hq
    unfold LazyList.results
    rw [hs.pc_of_ne hq]
    exact congrArg _ (Journal.entriesOf_note_of_ne hq)
  -- the acting thread has what it is about to return, before what it has returned
  have hself : results s' (enter s (t, e) g) t =
      ((s'.pc t).outcome.toList ++ (s.pc t).returns?.toList) ++ g.returned.entriesOf t := by
    unfold LazyList.results
    rw [List.append_assoc]
    exact congrArg _ Journal.entriesOf_note_self
  obtain ⟨hins, hers⟩ := hs.results
  refine ⟨h.links.note (fun x => ?_) (fun x hx => hsame hx.1) fun d hd => ?_,
    h.marks.note (fun x => hs.marked_iff inv) (fun x hx => hsame (.inl hx)) fun d hd => ?_,
    fun q => ?_, fun q => ?_⟩
  · -- who has been met and who has been linked agree
    rw [hs.met_iff inv, or_and_right]
    refine or_congr_right ⟨And.left, fun hd => ⟨hd, ?_⟩⟩
    obtain ⟨d, hd, rfl⟩ := hd
    exact hnew hd
  · -- the new node was met by nobody, so it is linked for the first time
    obtain ⟨hpriv, hk, hv⟩ := inv.of_links hd
    refine ⟨fun hm => hpriv.not_anchored hm.1, ?_⟩
    cases hs with
    | link key val pred a hpc => exact ⟨hk, hv⟩
    | newNode key val pred x a hpc ha =>
      rw [hpc] at hd
      cases hd
    | _ => exact ⟨hk, hv⟩
  · -- the node marked was live, so it is marked for the first time
    obtain ⟨hlive, hk, hv⟩ := inv.of_marks hd
    obtain ⟨hk', hv'⟩ := hsame (.inr hlive.1)
    refine ⟨fun hm => ?_, hk'.trans hk, hv'.trans hv⟩
    have hm' : s.marked d.node = false := hlive.2.1
    rw [hm'] at hm
    cases hm
  · -- the insertions of a thread are its links, in the same order
    by_cases hq : q = t
    · subst hq
      have hl : (enter s (q, e) g).links.entriesOf q =
          (s.pc q).links?.toList ++ g.links.entriesOf q := Journal.entriesOf_note_self
      rw [hself, hl, List.map_append, List.filterMap_append, hins, h.inserted q, List.append_assoc]
      unfold LazyList.results
      rw [List.filterMap_append]
    · rw [hother hq, ← h.inserted q]
      exact congrArg _ (Journal.entriesOf_note_of_ne hq)
  · -- the erasures of a thread are its marks
    by_cases hq : q = t
    · subst hq
      have hl : (enter s (q, e) g).marks.entriesOf q =
          (s.pc q).marks?.toList ++ g.marks.entriesOf q := Journal.entriesOf_note_self
      rw [hself, hl, List.map_append, List.filterMap_append, hers, h.erased q, List.append_assoc]
      unfold LazyList.results
      rw [List.filterMap_append]
    · rw [hother hq, ← h.erased q]
      exact congrArg _ (Journal.entriesOf_note_of_ne hq)

/-- **The ledger of every run.** -/
theorem Kept.of_reachable
    (h : ((lts (ι := ι) cfg).logged enter .empty).Reachable (s, g)) : Kept cfg s g := by
  refine Lts.ReachableBy.invariant (P := fun y => Kept cfg y.1 y.2) ?_ ?_ h
  · rintro ⟨s, g⟩ ⟨hi, rfl⟩
    exact Kept.init hi
  · rintro ⟨s, g⟩ ⟨q, e⟩ ⟨s', g'⟩ hr hk - ⟨hs, rfl⟩
    have inv : Inv cfg s := Inv.of_reachable hr.of_logged
    exact hk.step inv hs

end

/-! ### The result -/

section

variable {cfg : Config α K} {s : State α ι K V} {g : Ledger α ι K V}

/-- Live nodes are those that were met, are not marked and are no sentinels. -/
theorem live_iff {x : α} : s.heap.Live (lists cfg) () x ↔
    (Met cfg s.arena x ∧ x ≠ cfg.head ∧ x ≠ cfg.tail) ∧ ¬ s.marked x = true := by
  constructor
  · rintro ⟨hr, hm, hh, ht⟩
    have hm : s.marked x = false := hm
    rw [hm]
    exact ⟨⟨.inr hr, hh, ht⟩, Bool.false_ne_true⟩
  · rintro ⟨⟨hx, hh, ht⟩, hm⟩
    have hm : s.marked x = false := Bool.eq_false_iff.mpr hm
    exact ⟨Arena.reach_of_anchored hx hm, hm, hh, ht⟩

variable [DecidableEq α] [DecidableEq ι]

/-- **A ledger that is kept balances.** -/
theorem Kept.balanced (h : Kept cfg s g) (inv : Inv cfg s) : Balanced cfg s g := by
  -- a linked node is live as long as nobody has marked it
  have hunmarked : ∀ {t d}, (t, d) ∈ g.links →
      (s.heap.Live (lists cfg) () d.node ↔ ∀ q d', (q, d') ∈ g.marks → d'.node ≠ d.node) := by
    intro t d hd
    rw [live_iff, ← h.marks.mem_iff d.node]
    constructor
    · rintro ⟨-, hm⟩ q d' hd' heq
      exact hm ⟨q, d', hd', heq⟩
    · intro hm
      refine ⟨(h.links.mem_iff d.node).mp ⟨t, d, hd, rfl⟩, ?_⟩
      rintro ⟨q, d', hd', heq⟩
      exact hm q d' hd' heq
  refine ⟨fun t d hd => ?_, fun k v => ⟨?_, ?_⟩, fun t d hd => ?_, h.inserted, h.erased⟩
  · -- a linked node is live, or exactly one mark has taken it out
    by_cases hlive : s.heap.Live (lists cfg) () d.node
    · exact .inl hlive
    · rw [hunmarked hd] at hlive
      push Not at hlive
      obtain ⟨q, d', hd', heq⟩ := hlive
      obtain rfl := h.marks.deed_eq h.links hd' hd heq
      exact .inr ⟨q, Journal.filter_eq_of_nodup h.marks.nodup hd'⟩
  · -- the contents are the links without a mark
    rintro ⟨x, hx, rfl, rfl⟩
    obtain ⟨t, d, hd, rfl⟩ := (h.links.mem_iff x).mpr (live_iff.mp hx).1
    refine ⟨t, d, hd, ?_, (hunmarked hd).mp hx⟩
    exact Prod.ext (h.links.key_eq t d hd).symm (h.links.val_eq t d hd).symm
  · rintro ⟨t, d, hd, hpair, hm⟩
    obtain ⟨rfl, rfl⟩ := Prod.mk.inj hpair
    exact ⟨d.node, (hunmarked hd).mpr hm, h.links.key_eq t d hd, h.links.val_eq t d hd⟩
  · -- only a node that has been in the list is marked
    have hm : s.marked d.node = true := (h.marks.mem_iff d.node).mp ⟨t, d, hd, rfl⟩
    have hne : d.node ≠ cfg.head ∧ d.node ≠ cfg.tail := by
      constructor
      · intro heq
        have hh := inv.shared.ok.wf.marked_head ()
        rw [show s.arena.heap.marked ((lists cfg).head ()) = s.marked d.node by rw [heq]; rfl,
          hm] at hh
        cases hh
      · intro heq
        have ht := inv.shared.ok.wf.marked_tail ()
        rw [show s.arena.heap.marked ((lists cfg).tail ()) = s.marked d.node by rw [heq]; rfl,
          hm] at ht
        cases ht
    obtain ⟨q, d', hd', heq⟩ := (h.links.mem_iff d.node).mpr ⟨.inl hm, hne⟩
    obtain rfl := h.links.deed_eq h.marks hd' hd heq
    exact ⟨q, hd'⟩

/-- **The lazy list.** In every reached state the nodes from the head are sorted strictly; a node
of the list that is marked is locked; in every ledger of the run each insertion is in the list or
undone by exactly one deletion of its key, and what is linked and marked is what is reported; and
the result of every operation is explained by a moment, or by a step of its own, between its
invocation and its return. -/
theorem lazyList_linearizable (h : (lts (ι := ι) cfg).Reachable s) :
    (∃ l, s.heap.Nodes cfg.head cfg.tail l) ∧
    (∀ x, Reach s.next cfg.head x → s.marked x = true → s.lock x = true) ∧
    (∀ g, ((lts (ι := ι) cfg).logged enter .empty).Reachable (s, g) → Balanced cfg s g) ∧
    (∀ t H, ((lts (ι := ι) cfg).since (invokedBy t)).Reachable (s, H) →
      ∀ op r s', Step cfg s t (.ret op r) s' → Explained (Contents cfg) id t H op r) := by
  have inv : Inv cfg s := Inv.of_reachable h
  refine ⟨inv.shared.ok.wf.exists_nodes (), fun x hx hm => ?_, fun g hg => ?_,
    fun t H hH op r s' hs => ?_⟩
  · obtain ⟨t, ht⟩ := inv.erasing x hx hm
    apply inv.locks.taken (t := t)
    cases hpc : s.pc t with
    | unlink key pred curr result c_nxt =>
      rw [hpc] at ht
      obtain rfl := Option.some.inj ht
      exact List.mem_cons_of_mem _ List.mem_cons_self
    | _ =>
      rw [hpc] at ht
      cases ht
  · exact (Kept.of_reachable hg).balanced inv
  · have hseen := PcSeen.of_reachable hH
    rw [hs.pc_of_ret rfl] at hseen
    exact hseen op r rfl

end

/-! ### A run -/

section

/-- A list between the keys 0 and 100, with the sentinels 0 and 1. -/
def smallConfig : Config ℕ ℕ where
  keyMin := 0
  keyMax := 100
  head := 0
  tail := 1
  keyMin_lt := zero_lt_hundred
  head_ne_tail := Nat.zero_ne_one

/-- The list after the constructor, run by one thread. -/
def smallState : State ℕ Unit ℕ ℕ where
  next x := if x = 0 then some 1 else none
  marked _ := false
  lock _ := false
  key x := if x = 0 then 0 else 100
  val _ := 0
  allocated x := decide (x < 2)
  retired := []
  pc _ := .idle

theorem smallState_init : Init smallConfig smallState := by
  refine ⟨rfl, rfl, rfl, rfl, fun _ => rfl, fun _ => rfl, fun x => ?_, rfl, fun _ => rfl⟩
  show decide (x < 2) = true ↔ x = 0 ∨ x = 1
  rw [decide_eq_true_iff]
  omega

/-- The list after the constructor, run by two threads. -/
def pairState : State ℕ (Fin 2) ℕ ℕ :=
  { smallState with pc := fun _ => .idle }

theorem pairState_init : Init smallConfig pairState := by
  obtain ⟨h1, h2, h3, h4, h5, h6, h7, h8, -⟩ := smallState_init
  exact ⟨h1, h2, h3, h4, h5, h6, h7, h8, fun _ => rfl⟩

open Choice in
/-- Thread `t` inserts the key 5, and thread `u` marks its node. Thread `t` looks for the key and
comes to the marked node; then thread `u` unlinks it. -/
def pairSchedule (t u : Fin 2) : List (Fin 2 × Choice ℕ ℕ ℕ) :=
  call t (.insert 5 7) 8 ++ node t 2 4 ++ call u (.erase 5) 12 ++ call t (.contains 5) 7 ++ steps u 5

/-- The two calls are about to return; their results are explained, and so is the ledger. -/
theorem lazyList_linearizable_erase : ∃ (s : State ℕ (Fin 2) ℕ ℕ) (g : Ledger ℕ (Fin 2) ℕ ℕ)
    (H : Fin 2 → List (State ℕ (Fin 2) ℕ ℕ × (Fin 2 × Event ℕ ℕ ℕ) × State ℕ (Fin 2) ℕ ℕ)),
    s.retired = [2] ∧ Balanced smallConfig s g ∧
    Explained (Contents smallConfig) id 0 (H 0) (.contains 5) (.bool false) ∧
    Explained (Contents smallConfig) id 1 (H 1) (.erase 5) (.value (some 7)) := by
  obtain ⟨as, s, hp, hfound⟩ := (State.computes smallConfig).exists_path (pairSchedule 0 1)
    pairState (fun _ s => decide (s.retired = [2]) &&
      (s.goOn smallConfig 0 .go).any (fun a => a.1 = .ret (.contains 5) (.bool false)) &&
      (s.goOn smallConfig 1 .go).any fun a => a.1 = .ret (.erase 5) (.value (some 7)))
    (by decide +kernel)
  simp only [Bool.and_eq_true, decide_eq_true_eq] at hfound
  obtain ⟨⟨hret, hgo₀⟩, hgo₁⟩ := hfound
  obtain ⟨s₀, hs₀⟩ := State.step_of_goOn hgo₀
  obtain ⟨s₁, hs₁⟩ := State.step_of_goOn hgo₁
  have hr := (Lts.Reachable.init (M := lts smallConfig) pairState_init).path hp
  obtain ⟨-, -, hledger, hlin⟩ := lazyList_linearizable hr
  obtain ⟨g, hg⟩ : ∃ g, ((lts smallConfig).logged enter .empty).Reachable (s, g) :=
    hr.exists_logged
  have hlog : ∀ t, ∃ H, ((lts smallConfig).since (invokedBy t)).Reachable (s, H) :=
    fun t => hr.exists_since
  choose H hH using hlog
  exact ⟨s, g, H, hret, hledger g hg, hlin 0 _ (hH 0) _ _ _ hs₀,
    hlin 1 _ (hH 1) _ _ _ hs₁⟩

end

end LazyList
end PopSetbench

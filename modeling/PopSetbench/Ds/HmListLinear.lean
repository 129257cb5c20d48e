import PopSetbench.Ds.HmListInv
import PopSetbench.Ds.HmListSchedule

/-!
# Harris–Michael lists are linearizable

The set a state holds are the keys of its live nodes: those that are reached from a head and not
marked. It changes in two kinds of steps only, the CAS that links a new node and the CAS that
marks one (`Step.contents`).

Calls that find out something about the set without changing it are explained by a moment they
have been through. A search that ends at `curr` loads `prev` last; at that moment nothing lies
between the owner of `prev`, which has a smaller key, and `curr`. When `curr` has the key itself,
the moment is the second load of its `next`, which found it unmarked.
-/

namespace PopSetbench
namespace HmList

open Function
open Heap (Reach)

variable {β α ι K V : Type} [LinearOrder K] {impl : Impl β K} {cfg : Config β α K}
  {s s' : State β α ι K V} {key : K} {x : α} {t : ι}

variable (impl cfg s) in
/-- The set contains the key, with the value. -/
def Contents (k : K) (v : V) : Prop :=
  ∃ b x, s.heap.Live (cfg.lists impl) b x ∧ s.key x = k ∧ s.val x = v

/-! ### The contents after a step -/

/-- Where the live nodes stay the same, the set does. -/
theorem contents_iff {priv : α → Prop} (st : Stable impl cfg s s' priv) (inv : Inv impl cfg s)
    (hlive : ∀ b x, s'.heap.Live (cfg.lists impl) b x ↔ s.heap.Live (cfg.lists impl) b x)
    (k : K) (v : V) : Contents impl cfg s' k v ↔ Contents impl cfg s k v := by
  have hsame : ∀ {b x}, s.heap.Live (cfg.lists impl) b x →
      s'.key x = s.key x ∧ s'.val x = s.val x := by
    intro b x hx
    have hdom := inv.wf.dom hx.1 hx.2.2.1 hx.2.2.2
    have hm : Met impl cfg s (s.key x) x := by
      obtain ⟨-, -, hb⟩ := hdom
      have hb : impl.bucket (s.key x) = b := hb
      right
      rw [hb]
      exact hx.1
    exact ⟨(st.met hm).2, st.val hm⟩
  constructor
  · rintro ⟨b, x, hx, hk, hv⟩
    rw [hlive] at hx
    obtain ⟨hk', hv'⟩ := hsame hx
    exact ⟨b, x, hx, hk'.symm.trans hk, hv'.symm.trans hv⟩
  · rintro ⟨b, x, hx, hk, hv⟩
    obtain ⟨hk', hv'⟩ := hsame hx
    exact ⟨b, x, (hlive b x).mpr hx, hk'.trans hk, hv'.trans hv⟩

/-- The live node with a key is in the list of the key, and is the only one. -/
theorem Inv.live_eq (inv : Inv impl cfg s) {b b' : β} {y : α}
    (hx : s.heap.Live (cfg.lists impl) b x) (hy : s.heap.Live (cfg.lists impl) b' y)
    (hk : s.key x = s.key y) : b = b' ∧ x = y := by
  obtain ⟨-, -, hbx⟩ := inv.wf.dom hx.1 hx.2.2.1 hx.2.2.2
  obtain ⟨-, -, hby⟩ := inv.wf.dom hy.1 hy.2.2.1 hy.2.2.2
  have hb : b = b' := by
    have hbx : impl.bucket (s.key x) = b := hbx
    have hby : impl.bucket (s.key y) = b' := hby
    rw [← hbx, ← hby, hk]
  subst hb
  exact ⟨rfl, inv.wf.eq_of_key_eq hx.1 hy.1 hk⟩

/-- Nothing with the key is live when it lies strictly between those of neighbours. -/
theorem Inv.not_contents (inv : Inv impl cfg s) {q : α}
    (hq : Reach s.heap.next (cfg.head (impl.bucket key)) q) (hn : s.heap.next q = some x)
    (hqk : s.key q < key) (hkx : key < s.key x) (v : V) : ¬ Contents impl cfg s key v := by
  rintro ⟨b, y, hy, hyk, -⟩
  have hdom := inv.wf.dom hy.1 hy.2.2.1 hy.2.2.2
  obtain rfl : impl.bucket (s.key y) = b := hdom.2.2
  rw [hyk] at hy
  exact inv.wf.not_live_between hq hn hqk hkx hy hyk

/-- A write to a node that is in no list leaves the set as it is. -/
theorem contents_write [DecidableEq α] {own : α → Prop} {a : α} (inv : Inv impl cfg s)
    (f : Frame impl cfg s s' t own) (hoff : ∀ b, ¬ Reach s.heap.next (cfg.head b) a)
    (hlink : ∀ z, z ≠ a → s'.link (.next z) = s.link (.next z)) (k : K) (v : V) :
    Contents impl cfg s' k v ↔ Contents impl cfg s k v := by
  apply contents_iff (f.stable inv) inv
  intro b z
  apply Heap.write_live_iff (L := cfg.lists impl) hoff
  · intro z hz
    exact congrArg MarkPtr.ptr (hlink z hz)
  · intro z hz
    exact congrArg MarkPtr.mark (hlink z hz)

/-! ### What an operation has seen -/

section

variable (impl : Impl β K) (cfg : Config β α K) (s : State β α ι K V) (t : ι)
  (H : List (State β α ι K V × (ι × Event α K V) × State β α ι K V))

/-- At a moment of the interval the node was in the list, unmarked, with its present key and
value. -/
def Seen (key : K) (x : α) : Prop :=
  Sometime (fun s₀ => Reach s₀.heap.next (cfg.head (impl.bucket key)) x ∧
    s₀.heap.marked x = false ∧ s₀.key x = s.key x ∧ s₀.val x = s.val x) H

/-- The result of thread `t` is explained by the interval. -/
def Justified (op : Op K V) (r : Ret V) : Prop :=
  Explained (Contents impl cfg) id t H op r

/-- What a call of `list_search` has behind it. -/
def CallSeen : Call α K V → Prop
  | .unlink key res _ => Justified impl cfg t H (.erase key) (.value (some res))
  | _ => True

/-- What thread `t` has seen in its operation, by where it is. -/
def PcSeen : Pc β α K V → Prop
  | .search c | .loop c _ _ | .recheck c _ _ _ | .casHelp c _ _ _ | .retireHelped c _ _ _ =>
    CallSeen impl cfg t H c
  | .readKey c _ x nxt | .checkPrev c _ x nxt _ =>
    CallSeen impl cfg t H c ∧ (nxt.mark = false → Seen impl cfg s H c.key x)
  | .deallocate key _ _ x | .endFound key _ x | .readFound key _ x =>
    Sometime (fun s₀ => Contents impl cfg s₀ key (s.val x)) H
  | .casMark _ _ x _ res => res = s.val x
  | .casUnlink key _ _ _ res | .retireErased key _ res =>
    Justified impl cfg t H (.erase key) (.value (some res))
  | .endOp op r | .ret op r => Justified impl cfg t H op r
  | _ => True

end

/-- A node with the key that was seen in the list was live then. -/
theorem Seen.contents
    {H : List (State β α ι K V × (ι × Event α K V) × State β α ι K V)} (inv : Inv impl cfg s)
    (hu : UserKey cfg key) (hk : s.key x = key)
    (h : Seen impl cfg s H key x) :
    Sometime (fun s₀ => Contents impl cfg s₀ key (s.val x)) H := by
  refine Sometime.mono (fun s₀ h₀ => ?_) h
  obtain ⟨hr, hmark, hk₀, hv₀⟩ := h₀
  refine ⟨_, x, ⟨hr, hmark, ?_, inv.key_tail_ne hk.le hu.2⟩, hk₀.trans hk, hv₀⟩
  rintro rfl
  have h : s.key (cfg.head (impl.bucket key)) = key := hk
  rw [inv.key_head] at h
  exact absurd h hu.1.ne

theorem Justified.cons
    {H : List (State β α ι K V × (ι × Event α K V) × State β α ι K V)}
    {a : State β α ι K V × (ι × Event α K V) × State β α ι K V} {op : Op K V} {r : Ret V}
    (h : Justified impl cfg t H op r) :
    Justified impl cfg t (a :: H) op r :=
  Explained.cons h

theorem CallSeen.cons
    {H : List (State β α ι K V × (ι × Event α K V) × State β α ι K V)}
    {a : State β α ι K V × (ι × Event α K V) × State β α ι K V} {c : Call α K V}
    (h : CallSeen impl cfg t H c) :
    CallSeen impl cfg t (a :: H) c := by
  cases c with
  | unlink key res victim => exact Justified.cons h
  | _ => trivial

/-- What an operation has seen stays seen. -/
theorem PcSeen.cons
    {H : List (State β α ι K V × (ι × Event α K V) × State β α ι K V)}
    {a : State β α ι K V × (ι × Event α K V) × State β α ι K V} {p : Pc β α K V}
    {priv : α → Prop} (st : Stable impl cfg s s' priv)
    (hp : PcOk impl cfg s p) (h : PcSeen impl cfg s t H p) :
    PcSeen impl cfg s' t (a :: H) p := by
  have hseen : ∀ {key x}, Met impl cfg s key x → Seen impl cfg s H key x →
      Seen impl cfg s' (a :: H) key x := by
    intro key x hm hx
    refine (Sometime.cons hx).mono fun s₀ h₀ => ?_
    obtain ⟨hr, hmark, hk, hv⟩ := h₀
    exact ⟨hr, hmark, hk.trans (st.met hm).2.symm, hv.trans (st.val hm).symm⟩
  cases p with
  | search c => exact CallSeen.cons h
  | loop c prev curr => exact CallSeen.cons h
  | recheck c prev x nxt => exact CallSeen.cons h
  | readKey c prev x nxt => exact ⟨h.1.cons, fun hm => hseen hp.2.2.1 (h.2 hm)⟩
  | checkPrev c prev x nxt ckey => exact ⟨h.1.cons, fun hm => hseen hp.2.2.1 (h.2 hm)⟩
  | casHelp c prev x nxt => exact CallSeen.cons h
  | retireHelped c prev x nxt => exact CallSeen.cons h
  | deallocate key val a x =>
    show Sometime (fun s₀ => Contents impl cfg s₀ key (s'.val x)) _
    rw [st.val hp]
    exact Sometime.cons h
  | endFound key val x =>
    show Sometime (fun s₀ => Contents impl cfg s₀ key (s'.val x)) _
    rw [st.val hp]
    exact Sometime.cons h
  | readFound key val x =>
    show Sometime (fun s₀ => Contents impl cfg s₀ key (s'.val x)) _
    rw [st.val hp]
    exact Sometime.cons h
  | casMark key prev x nxt res => exact h.trans (st.val hp.2.2.1).symm
  | casUnlink key prev x nxt res => exact Justified.cons h
  | retireErased key x res => exact Justified.cons h
  | endOp op r => exact Justified.cons h
  | ret op r => exact Justified.cons h
  | _ => trivial

/-! ### The two CASes that change the set -/

variable [DecidableEq β] [DecidableEq α] [DecidableEq ι] {p : Pc β α K V}

/-- Unlinking a marked node leaves the live nodes as they are. -/
theorem live_unlink {l : Link β α} {nxt : Option α} (hprev : PrevNode impl cfg s key l)
    (hl : s.link l = ⟨some x, false⟩) (hx : s.link (.next x) = ⟨nxt, true⟩)
    (hn : PtrOk impl cfg s key nxt) (b : β) (z : α) :
    ((s.store l ⟨nxt, false⟩).goto t p).heap.Live (cfg.lists impl) b z ↔
      s.heap.Live (cfg.lists impl) b z := by
  obtain ⟨q, rfl, hqm, -, -, hqx⟩ := hprev.reach hl
  obtain ⟨y, rfl, -⟩ := hn
  have hxm : s.heap.marked x = true := by
    show (s.link (.next x)).mark = true
    rw [hx]
  have hxy : s.heap.next x = some y := by
    show (s.link (.next x)).ptr = some y
    rw [hx]
  show (s.store (.next q) ⟨some y, false⟩).heap.Live (cfg.lists impl) b z ↔ _
  rw [State.heap_store_next hqm]
  exact Heap.unlink_live_iff hqx (.single hxm hxy)

/-- Unlinking a marked node leaves the set as it is. -/
theorem contents_unlink {l : Link β α} {nxt : Option α} (inv : Inv impl cfg s)
    (hprev : PrevNode impl cfg s key l) (hl : s.link l = ⟨some x, false⟩)
    (hx : s.link (.next x) = ⟨nxt, true⟩) (hn : PtrOk impl cfg s key nxt) (k : K) (v : V) :
    Contents impl cfg ((s.store l ⟨nxt, false⟩).goto t p) k v ↔ Contents impl cfg s k v := by
  have f : Frame impl cfg s ((s.store l ⟨nxt, false⟩).goto t p) t fun _ => False :=
    frame_unlink hprev hl hx hn
  exact contents_iff (f.stable inv) inv (live_unlink hprev hl hx hn) k v

/-- **Insertion.** Linking a new node adds its key, which was absent. -/
theorem contents_insert {l : Link β α} {a : α} {val : V} (inv : Inv impl cfg s)
    (hc : CallOk cfg s (.insert key val a)) (hnew : (s.pc t).newNode? = some a)
    (hprev : PrevNode impl cfg s key l) (hl : s.link l = ⟨some x, false⟩)
    (ha : s.link (.next a) = ⟨some x, false⟩) (hk : key < s.key x) :
    (∀ v, ¬ Contents impl cfg s key v) ∧ ∀ k v,
      Contents impl cfg ((s.store l ⟨some a, false⟩).goto t p) k v ↔
        Contents impl cfg s k v ∨ (k = key ∧ v = val) := by
  obtain ⟨q, rfl, hqm, hqk, hq, hqx⟩ := hprev.reach hl
  have hax : s.heap.next a = some x := by
    show (s.link (.next a)).ptr = some x
    rw [ha]
  refine ⟨inv.not_contents hq hqx hqk hk, fun k v => ?_⟩
  obtain ⟨hu, hpriv, hka, hva⟩ := hc
  have hlive : ∀ b z, ((s.store (.next q) ⟨some a, false⟩).goto t p).heap.Live
      (cfg.lists impl) b z ↔
      s.heap.Live (cfg.lists impl) b z ∨ (b = impl.bucket key ∧ z = a) := by
    intro b z
    show (s.store (.next q) ⟨some a, false⟩).heap.Live (cfg.lists impl) b z ↔ _
    rw [State.heap_store_next hqm]
    exact inv.wf.insert_live_iff hq hqx hax hpriv.unmarked hpriv.off
  unfold Contents
  simp only [hlive]
  constructor
  · rintro ⟨b, z, hz | ⟨rfl, rfl⟩, hzk, hzv⟩
    · exact .inl ⟨b, z, hz, hzk, hzv⟩
    · exact .inr ⟨hzk.symm.trans hka, hzv.symm.trans hva⟩
  · rintro (⟨b, z, hz, hzk, hzv⟩ | ⟨rfl, rfl⟩)
    · exact ⟨b, z, .inl hz, hzk, hzv⟩
    · exact ⟨impl.bucket k, a, .inr ⟨rfl, rfl⟩, hka, hva⟩

/-- **Deletion.** Marking a node removes its key. -/
theorem contents_mark {nxt : Option α} (inv : Inv impl cfg s) (hu : UserKey cfg key)
    (hm : Met impl cfg s key x) (hk : s.key x = key) (hl : s.link (.next x) = ⟨nxt, false⟩) :
    Contents impl cfg s key (s.val x) ∧ ∀ k v,
      Contents impl cfg ((s.store (.next x) ⟨nxt, true⟩).goto t p) k v ↔
        Contents impl cfg s k v ∧ k ≠ key := by
  have hx := hm.live inv hu hk (by rw [hl])
  refine ⟨⟨_, x, hx, hk, rfl⟩, fun k v => ?_⟩
  have hlive : ∀ b z, ((s.store (.next x) ⟨nxt, true⟩).goto t p).heap.Live
      (cfg.lists impl) b z ↔ s.heap.Live (cfg.lists impl) b z ∧ z ≠ x := by
    intro b z
    show (s.store (.next x) ⟨nxt, true⟩).heap.Live (cfg.lists impl) b z ↔ _
    rw [State.heap_store_mark hl]
    exact Heap.mark_live_iff
  unfold Contents
  simp only [hlive]
  constructor
  · rintro ⟨b, z, ⟨hz, hne⟩, hzk, hzv⟩
    refine ⟨⟨b, z, hz, hzk, hzv⟩, ?_⟩
    rintro rfl
    exact hne (inv.live_eq hz hx (hzk.trans hk.symm)).2
  · rintro ⟨⟨b, z, hz, hzk, hzv⟩, hne⟩
    refine ⟨b, z, ⟨hz, ?_⟩, hzk, hzv⟩
    rintro rfl
    exact hne (hzk.symm.trans hk)

variable (impl cfg s s' t) in
/-- How the set may change in a step of thread `t`. -/
def ContentsStep : Prop :=
  (∀ k v, Contents impl cfg s' k v ↔ Contents impl cfg s k v) ∨
  (∃ key val a prev curr, s.pc t = .casInsert key val a prev curr ∧
    s.link prev = ⟨curr, false⟩ ∧ (∀ v, ¬ Contents impl cfg s key v) ∧
    ∀ k v, Contents impl cfg s' k v ↔ Contents impl cfg s k v ∨ (k = key ∧ v = val)) ∨
  (∃ key prev x nxt res, s.pc t = .casMark key prev x nxt res ∧
    s.link (.next x) = ⟨nxt, false⟩ ∧ Contents impl cfg s key (s.val x) ∧
    ∀ k v, Contents impl cfg s' k v ↔ Contents impl cfg s k v ∧ k ≠ key)

/-- **The set changes at two CASes only**: one adds a key, which was absent, the other one removes
a key. -/
theorem Step.contents (inv : Inv impl cfg s) {e : Event α K V} (h : Step impl cfg s t e s') :
    ContentsStep impl cfg s s' t := by
  have hp := inv.pc t
  cases h with
  | newNode key val x hpc hx =>
    -- `newNode` and `storeNext` write to a node outside the lists
    left
    apply contents_write inv (frame_newNode inv hx) (a := x)
    · intro b hb
      rw [inv.reach_allocated hb] at hx
      cases hx
    · intro z hz
      exact State.store_next (s := s) (v := ⟨none, false⟩) (by simpa using Ne.symm hz)
  | casHelp c prev x nxt hpc hl =>
    -- the node leaves its list, but it was marked and so no longer part of the contents
    rw [hpc] at hp
    obtain ⟨-, hprev, hx, hn⟩ := hp
    exact .inl (contents_unlink inv hprev hl hx hn)
  | storeNext key val a prev curr hpc =>
    rw [hpc] at hp
    have hpriv := hp.1.2.1
    have hnew : (s.pc t).newNode? = some a := by rw [hpc]; rfl
    left
    apply contents_write inv (frame_storeNext hpriv hnew) hpriv.off
    intro z hz
    exact State.store_next (s := s) (by simpa using Ne.symm hz)
  | casInsert key val a prev curr hpc hl =>
    -- `casInsert` makes the key present: it was absent, as its place in the list shows
    have hnew : (s.pc t).newNode? = some a := by rw [hpc]; rfl
    rw [hpc] at hp
    obtain ⟨hc, hprev, ha, x, rfl, -, hk⟩ := hp
    obtain ⟨habs, hadd⟩ := contents_insert inv hc hnew hprev hl ha hk
    exact .inr (.inl ⟨key, val, a, prev, some x, hpc, hl, habs, hadd⟩)
  | casMark key prev x nxt res hpc hl =>
    -- `casMark` makes the key absent; the node itself stays in the list
    rw [hpc] at hp
    obtain ⟨hu, -, hm, hk, -⟩ := hp
    obtain ⟨hin, hrem⟩ := contents_mark inv hu hm hk hl
    exact .inr (.inr ⟨key, prev, x, nxt, res, hpc, hl, hin, hrem⟩)
  | casUnlink key prev x nxt res hpc hl =>
    rw [hpc] at hp
    obtain ⟨-, hprev, hx, -, hn⟩ := hp
    exact .inl (contents_unlink inv hprev hl hx hn)
  | _ => exact .inl fun _ _ => Iff.rfl

/-! ### What an operation has seen, step by step -/

section

variable {H : List (State β α ι K V × (ι × Event α K V) × State β α ι K V)}

/-- **Step of the observed thread.** -/
theorem PcSeen.step_self (inv : Inv impl cfg s) (h : PcSeen impl cfg s t H (s.pc t))
    {e : Event α K V} (hs : Step impl cfg s t e s') :
    PcSeen impl cfg s' t ((s, (t, e), s') :: H) (s'.pc t) := by
  have hp := inv.pc t
  cases hs with
  | invoke op hpc hmin hmax =>
    rw [State.goto_pc_self]
    trivial
  | startOp op hpc =>
    rw [State.goto_pc_self]
    cases op <;> trivial
  | newNode key val x hpc hx =>
    rw [State.goto_pc_self]
    trivial
  | search c curr hpc hl =>
    rw [hpc] at h
    rw [State.goto_pc_self]
    exact CallSeen.cons h
  | loopNull c prev hpc =>
    -- `loopNull` cannot be: the tail stops a search before the list ends
    rw [hpc] at hp
    obtain ⟨-, x, hx, -⟩ := hp
    cases hx
  | loop c prev x hpc =>
    rw [hpc] at h
    rw [State.goto_pc_self]
    exact CallSeen.cons h
  | recheckFail c prev x nxt hpc hl =>
    rw [hpc] at h
    rw [State.goto_pc_self]
    exact CallSeen.cons h
  | recheck c prev x nxt hpc hl =>
    rw [hpc] at h hp
    obtain ⟨-, -, hm, -⟩ := hp
    rw [State.goto_pc_self]
    refine ⟨CallSeen.cons h, fun hmark => ?_⟩
    -- the second load of `next` finds `curr` unmarked
    have hmark : (s.link (.next x)).mark = false := by
      rw [hl]
      exact hmark
    exact Sometime.now ⟨hm.reach hmark, hmark, rfl, rfl⟩
  | readKey c prev x nxt hpc =>
    rw [hpc] at h hp
    obtain ⟨hc, hprev, hm, hn⟩ := hp
    rw [State.goto_pc_self]
    exact PcSeen.cons (p := .checkPrev c prev x nxt (s.key x)) (frame_goto.stable inv)
      ⟨hc, hprev, hm, hn, rfl⟩ h
  | checkPrevFail c prev x nxt ckey hpc hl =>
    rw [hpc] at h
    rw [State.goto_pc_self]
    exact CallSeen.cons h.1
  | advance c prev x nxt ckey hpc hl hk =>
    rw [hpc] at h
    rw [State.goto_pc_self]
    exact CallSeen.cons h.1
  | found c prev x nxt ckey hpc hl hk =>
    rw [hpc] at h hp
    obtain ⟨hc, -, hm, -, rfl⟩ := hp
    have hin := (h.2 rfl).contents inv hc.userKey hk
    rw [State.goto_pc_self]
    cases c with
    | contains key =>
      show Sometime (fun s₀ => ∃ w, Contents impl cfg s₀ key w) _
      exact Sometime.cons (hin.mono fun _ h₀ => ⟨_, h₀⟩)
    | insert key val a => exact Sometime.cons hin
    | erase key => trivial
    | unlink key res victim => exact Justified.cons h.1
  | notFound c prev x nxt ckey hpc hl hk =>
    rw [hpc] at h hp
    obtain ⟨hc, hprev, hm, -, rfl⟩ := hp
    -- at the load of `prev` nothing lies between its owner and `curr`
    obtain ⟨q, rfl, -, hqk, hq, hqx⟩ := (hprev.prevNode inv hc.userKey hk.le).reach hl
    have hnot := inv.not_contents hq hqx hqk hk
    rw [State.goto_pc_self]
    cases c with
    | contains key =>
      show Sometime (fun s₀ => ∀ w, ¬ Contents impl cfg s₀ key w) _
      exact Sometime.now hnot
    | insert key val a => trivial
    | erase key =>
      show Sometime (fun s₀ => ∀ w, ¬ Contents impl cfg s₀ key w) _
      exact Sometime.now hnot
    | unlink key res victim => exact Justified.cons h.1
  | help c prev x nxt ckey hpc hl =>
    rw [hpc] at h
    rw [State.goto_pc_self]
    exact CallSeen.cons h.1
  | casHelp c prev x nxt hpc hl =>
    rw [hpc] at h
    rw [State.goto_pc_self]
    exact CallSeen.cons h
  | casHelpFail c prev x nxt hpc hl =>
    rw [hpc] at h
    rw [State.goto_pc_self]
    exact CallSeen.cons h
  | retireHelped c prev x nxt hpc =>
    rw [hpc] at h
    rw [State.goto_pc_self]
    exact CallSeen.cons h
  | deallocate key val a x hpc =>
    rw [hpc] at h hp
    rw [State.goto_pc_self]
    exact PcSeen.cons (p := .endFound key val x) (frame_goto.stable inv) hp h
  | endFound key val x hpc =>
    -- what was seen of `curr` goes on being seen when the operation ends early
    rw [hpc] at h hp
    rw [State.goto_pc_self]
    exact PcSeen.cons (p := .readFound key val x) (frame_goto.stable inv) hp h
  | readFound key val x hpc =>
    rw [hpc] at h
    rw [State.goto_pc_self]
    show Sometime (fun s₀ => Contents impl cfg s₀ key (s.val x)) _
    exact Sometime.cons h
  | storeNext key val a prev curr hpc =>
    rw [State.goto_pc_self]
    trivial
  | casInsert key val a prev curr hpc hl =>
    -- the CAS that links the node is the moment at which an insert takes effect
    have hnew : (s.pc t).newNode? = some a := by rw [hpc]; rfl
    rw [hpc] at hp
    obtain ⟨hc, hprev, ha, x, rfl, -, hk⟩ := hp
    obtain ⟨habs, hadd⟩ := contents_insert inv hc hnew hprev hl ha hk
    rw [State.goto_pc_self]
    exact Explained.insert_now habs hadd
  | casInsertFail key val a prev curr hpc hl =>
    rw [State.goto_pc_self]
    trivial
  | readVal key prev x nxt hpc =>
    rw [State.goto_pc_self]
    exact rfl
  | casMark key prev x nxt res hpc hl =>
    -- the CAS that marks the node is the moment of an erase, and `res` is the value read from it
    rw [hpc] at h hp
    obtain ⟨hu, -, hm, hk, -⟩ := hp
    obtain rfl : res = s.val x := h
    obtain ⟨hin, hrem⟩ := contents_mark inv hu hm hk hl
    rw [State.goto_pc_self]
    exact Explained.erase_now hin hrem
  | casMarkFail key prev x nxt res hpc hl =>
    -- nothing has been changed by a failed CAS, so nothing has to be explained
    rw [State.goto_pc_self]
    cases impl.endOpOnRetry <;> trivial
  | endRetry key hpc =>
    rw [State.goto_pc_self]
    trivial
  | casUnlink key prev x nxt res hpc hl =>
    -- an erase that has taken effect stays so, whoever unlinks the node
    rw [hpc] at h
    rw [State.goto_pc_self]
    exact Justified.cons h
  | casUnlinkFail key prev x nxt res hpc hl =>
    rw [hpc] at h
    rw [State.goto_pc_self]
    exact Justified.cons h
  | retireErased key x res hpc =>
    rw [hpc] at h
    rw [State.goto_pc_self]
    exact Justified.cons h
  | endOp op r hpc =>
    rw [hpc] at h
    rw [State.goto_pc_self]
    exact Justified.cons h
  | ret op r hpc =>
    rw [State.goto_pc_self]
    trivial

/-- An invocation leads to the start of the operation. -/
theorem Step.pc_of_invoke {e : Event α K V} {op : Op K V} (hs : Step impl cfg s t e s')
    (he : e = .invoke op) : s'.pc t = .start op := by
  cases hs with
  | invoke op' hpc hmin hmax =>
    obtain rfl := Event.invoke.inj he
    exact State.goto_pc_self
  | _ => first
    | exact absurd he Link.access_ne_invoke
    | cases he

/-- **What an operation has seen**, in every run. -/
theorem PcSeen.of_reachable
    (h : ((lts (ι := ι) (V := V) impl cfg).since (invokedBy t)).Reachable (s, H)) :
    PcSeen impl cfg s t H (s.pc t) := by
  have hinv : ∀ {y}, ((lts (ι := ι) (V := V) impl cfg).since (invokedBy t)).Reachable y →
      Inv impl cfg y.1 := fun hy => Inv.of_reachable hy.of_since
  refine Lts.ReachableBy.invariant (P := fun y => PcSeen impl cfg y.1 t y.2 (y.1.pc t)) ?_ ?_ h
  · intro y hy
    rw [hy.1.pc t]
    trivial
  · rintro ⟨s, H⟩ ⟨q, e⟩ ⟨s', H'⟩ hr hseen - ⟨hs, hH⟩
    have inv : Inv impl cfg s := hinv hr
    have hs : Step impl cfg s q e s' := hs
    obtain rfl : H' = (s, (q, e), s') :: bif invokedBy t (q, e) then [] else H := hH
    by_cases hqt : q = t
    · subst hqt
      cases e with
      | invoke op =>
        -- a new interval begins, in which nothing has been seen
        show PcSeen impl cfg s' q _ (s'.pc q)
        rw [hs.pc_of_invoke rfl]
        trivial
      | _ => exact hseen.step_self inv hs
    · obtain ⟨own, f⟩ := hs.frame inv
      have hstart : invokedBy t (q, e) = false := by
        cases e with
        | invoke op => exact decide_eq_false hqt
        | _ => rfl
      show PcSeen impl cfg s' t _ (s'.pc t)
      rw [hstart, f.pc t (Ne.symm hqt)]
      exact hseen.cons (f.stable inv) (inv.pc t)

theorem Step.pc_of_ret {e : Event α K V} {op : Op K V} {r : Ret V}
    (hs : Step impl cfg s t e s') (he : e = .ret op r) : s.pc t = .ret op r := by
  cases hs with
  | ret op' r' hpc =>
    obtain ⟨rfl, rfl⟩ := Event.ret.inj he
    exact hpc
  | _ => first
    | exact absurd he Link.access_ne_ret
    | cases he

/-- **Harris–Michael lists are linearizable.** In every run the nodes reached from a head are
sorted strictly with the sentinels at both ends; the set of live keys changes only at the CASes
that link a node and that mark one; and the result of every operation is explained by a moment, or
by a step of its own, between its invocation and its return. -/
theorem hmList_linearizable
    (h : ((lts (ι := ι) (V := V) impl cfg).since (invokedBy t)).Reachable (s, H)) :
    (∀ b, ∃ l, s.heap.Nodes (cfg.head b) (cfg.tail b) l) ∧
    (∀ q e s', Step impl cfg s q e s' → ContentsStep impl cfg s s' q) ∧
    (∀ op r s', Step impl cfg s t (.ret op r) s' →
      Explained (Contents impl cfg) id t H op r) := by
  have inv : Inv impl cfg s := Inv.of_reachable h.of_since
  refine ⟨inv.wf.exists_nodes, fun q e s' hs => hs.contents inv, fun op r s' hs => ?_⟩
  have hseen := PcSeen.of_reachable h
  rw [hs.pc_of_ret rfl] at hseen
  exact hseen

end

/-! ### A run -/

section

/-- One list between the keys 0 and 100, with the sentinels 0 and 1. -/
def smallConfig : Config Unit ℕ ℕ where
  keyMin := 0
  keyMax := 100
  head _ := 0
  tail _ := 1
  keyMin_lt := zero_lt_hundred
  head_injective _ _ _ := rfl
  tail_injective _ _ _ := rfl
  head_ne_tail _ _ := by decide

/-- The list after the constructor, run by one thread. -/
def smallState : State Unit ℕ Unit ℕ ℕ where
  link
    | .head _ => ⟨some 0, false⟩
    | .next 0 => ⟨some 1, false⟩
    | .next _ => ⟨none, false⟩
  key x := if x = 0 then 0 else 100
  val _ := 0
  allocated x := decide (x < 2)
  retired := []
  pc _ := .idle

theorem smallState_init : Init smallConfig smallState := by
  refine ⟨fun _ => rfl, fun _ => rfl, fun _ => rfl, fun _ => rfl, fun _ => rfl, fun _ => rfl,
    fun _ => rfl, fun x hx => ⟨(), ?_⟩, fun x hx => ?_, rfl, fun _ => rfl⟩
  · have hx : x < 2 := of_decide_eq_true hx
    show x = 0 ∨ x = 1
    omega
  · cases x <;> rfl

/-- The list after the constructor, run by two threads. -/
def pairState : State Unit ℕ (Fin 2) ℕ ℕ :=
  { smallState with pc := fun _ => .idle }

theorem pairState_init : Init smallConfig pairState := by
  obtain ⟨h1, h2, h3, h4, h5, h6, h7, h8, h9, h10, -⟩ := smallState_init
  exact ⟨h1, h2, h3, h4, h5, h6, h7, h8, h9, h10, fun _ => rfl⟩

open Choice in
/-- Thread `t` inserts the key 5, and thread `u` marks its node. Thread `t` looks for the key and
unlinks the node; so the CAS of thread `u` fails, and it searches again. -/
def pairSchedule (t u : Fin 2) : List (Fin 2 × Choice ℕ ℕ ℕ) :=
  call t (.insert 5 7) 1 ++ node t 2 13 ++ call u (.erase 5) 12 ++ call t (.contains 5) 17 ++
    steps u 11

/-- The two calls are about to return, and their results are explained. -/
theorem hmList_linearizable_erase : ∃ (s : State Unit ℕ (Fin 2) ℕ ℕ)
    (H : Fin 2 → List (State Unit ℕ (Fin 2) ℕ ℕ × (Fin 2 × Event ℕ ℕ ℕ) ×
      State Unit ℕ (Fin 2) ℕ ℕ)),
    s.retired = [2] ∧
    Explained (Contents (hmlistOOI ℕ) smallConfig) id 0 (H 0) (.contains 5) (.bool false) ∧
    Explained (Contents (hmlistOOI ℕ) smallConfig) id 1 (H 1) (.erase 5) (.value (some 7)) := by
  obtain ⟨as, s, hp, hfound⟩ := (State.computes (hmlistOOI ℕ) smallConfig).exists_path
    (pairSchedule 0 1) pairState (fun _ s => decide (s.retired = [2]) &&
      (s.goOn (hmlistOOI ℕ) smallConfig 0 .go).any (fun a => a.1 = .ret (.contains 5) (.bool false))
      && (s.goOn (hmlistOOI ℕ) smallConfig 1 .go).any fun a =>
        a.1 = .ret (.erase 5) (.value (some 7))) (by decide +kernel)
  simp only [Bool.and_eq_true, decide_eq_true_eq] at hfound
  obtain ⟨⟨hret, hgo₀⟩, hgo₁⟩ := hfound
  obtain ⟨s₀, hs₀⟩ := State.step_of_goOn hgo₀
  obtain ⟨s₁, hs₁⟩ := State.step_of_goOn hgo₁
  have hr := (Lts.Reachable.init (M := lts (hmlistOOI ℕ) smallConfig) pairState_init).path hp
  have hlog : ∀ t, ∃ H,
      ((lts (hmlistOOI ℕ) smallConfig).since (invokedBy t)).Reachable (s, H) :=
    fun t => hr.exists_since
  choose H hH using hlog
  exact ⟨s, H, hret, (hmList_linearizable (hH 0)).2.2 _ _ _ hs₀,
    (hmList_linearizable (hH 1)).2.2 _ _ _ hs₁⟩

end

end HmList
end PopSetbench

import PopSetbench.Ds.FlatMap
import PopSetbench.Ds.HmListLinear
import Mathlib.Data.Int.ConditionallyCompleteOrder

/-!
# Hash tables of Harris–Michael lists

A table of `hmht_impl.h` is an array of lists, and an operation works on the list of its key. Two
things make it one map. What a CAS of an operation writes is a link of the list of its key
(`Step.cas_inBucket`), although the shared `list_search` follows pointers that others change; and a
key lies in its own list only. Each operation that changes the map does so at one CAS of its own and
every other one returns what the map contained at some moment of its interval, so that the table is
linearizable to a flat map, however the operations on different lists are interleaved
(`hmList_linearization`).
-/

namespace PopSetbench
namespace HmList

open Function
open Heap (Reach)

variable {β α ι K V : Type}

/-! ### The operation a thread is in -/

/-- The operation that calls `list_search`. -/
def Call.op : Call α K V → Op K V
  | .contains key => .contains key
  | .insert key val _ => .insert key val
  | .erase key => .erase key
  | .unlink key _ _ => .erase key

/-- The result, when `list_search` is called after the victim was marked. -/
def Call.effect? : Call α K V → Option (Ret V)
  | .unlink _ res _ => some (.value (some res))
  | _ => none

/-- The operation a thread is in. -/
def Pc.op? : Pc β α K V → Option (Op K V)
  | .idle => none
  | .start op => some op
  | .newNode key val => some (.insert key val)
  | .search c | .loop c _ _ | .recheck c _ _ _ | .readKey c _ _ _ | .checkPrev c _ _ _ _
  | .casHelp c _ _ _ | .retireHelped c _ _ _ => some c.op
  | .deallocate key val _ _ | .endFound key val _ | .readFound key val _
  | .storeNext key val _ _ _ | .casInsert key val _ _ _ => some (.insert key val)
  | .readVal key _ _ _ | .casMark key _ _ _ _ | .endRetry key | .casUnlink key _ _ _ _
  | .retireErased key _ _ => some (.erase key)
  | .endOp op _ | .ret op _ => some op

/-- The result, once the operation has changed the set. -/
def Pc.effect? : Pc β α K V → Option (Ret V)
  | .search c | .loop c _ _ | .recheck c _ _ _ | .readKey c _ _ _ | .checkPrev c _ _ _ _
  | .casHelp c _ _ _ | .retireHelped c _ _ _ => c.effect?
  | .casUnlink _ _ _ _ res | .retireErased _ _ res => some (.value (some res))
  | .endOp op r | .ret op r => op.change? r
  | _ => none

/-- The next access is a CAS. -/
def Pc.IsCas : Pc β α K V → Prop
  | .casHelp _ _ _ _ | .casInsert _ _ _ _ _ | .casMark _ _ _ _ _ | .casUnlink _ _ _ _ _ => True
  | _ => False

theorem Call.op_key {c : Call α K V} : c.op.key = c.key := by
  cases c <;> rfl

/-- A search that fails ends with the result of an operation that changes nothing, or goes on. -/
theorem op?_notFound {c : Call α K V} {l : Link β α} {curr : Option α} :
    (c.notFound l curr).op? = some c.op := by
  cases c <;> rfl

theorem op?_found {c : Call α K V} {l : Link β α} {x : α} {nxt : Option α} :
    (c.found l x nxt).op? = some c.op := by
  cases c <;> rfl

theorem effect?_notFound {c : Call α K V} {l : Link β α} {curr : Option α} :
    (c.notFound l curr).effect? = c.effect? := by
  cases c <;> rfl

theorem effect?_found {c : Call α K V} {l : Link β α} {x : α} {nxt : Option α} :
    (c.found l x nxt).effect? = c.effect? := by
  cases c <;> rfl

/-- What is seen of a step. -/
def see : ι × Event α K V → Option (CallEvent ι (Op K V) (Ret V))
  | (t, .invoke op) => some (.invoke t op)
  | (t, .ret op r) => some (.ret t op r)
  | _ => none

theorem see_eq_invoke_iff {a : ι × Event α K V} {t : ι} {op : Op K V} :
    see a = some (.invoke t op) ↔ a = (t, .invoke op) := by
  obtain ⟨q, e⟩ := a
  cases e <;> simp [see]

theorem see_eq_ret_iff {a : ι × Event α K V} {t : ι} {op : Op K V} {r : Ret V} :
    see a = some (.ret t op r) ↔ a = (t, .ret op r) := by
  obtain ⟨q, e⟩ := a
  cases e <;> simp [see]

section

variable [LinearOrder K] {impl : Impl β K} {cfg : Config β α K} {s s' : State β α ι K V} {key : K}
  {x : α} {t : ι}

/-! ### Buckets -/

variable (cfg s) in
/-- The link is one of the list of the bucket. -/
def InBucket (b : β) : Link β α → Prop
  | .head b' => b' = b
  | .next x => Reach s.heap.next (cfg.head b) x

/-- A link is in one list only. -/
theorem Inv.inBucket_iff (inv : Inv impl cfg s) {b b' : β} {l : Link β α}
    (h : InBucket cfg s b l) : InBucket cfg s b' l ↔ b' = b := by
  constructor
  · intro h'
    cases l with
    | head c => exact h'.symm.trans h
    | next x => exact inv.wf.disjoint h' h
  · rintro rfl
    exact h

/-- An unmarked key between the sentinels is in the list of its bucket, and occurs once. -/
theorem Inv.bucket_of_reach (inv : Inv impl cfg s) {b : β} (hx : Reach s.heap.next (cfg.head b) x)
    (hmark : s.heap.marked x = false) (hu : UserKey cfg (s.key x)) :
    b = impl.bucket (s.key x) ∧ ∀ b' y, Reach s.heap.next (cfg.head b') y →
      s.heap.marked y = false → s.key y = s.key x → b' = b ∧ y = x := by
  have hlive : ∀ {b y}, Reach s.heap.next (cfg.head b) y → s.heap.marked y = false →
      s.key y = s.key x → s.heap.Live (cfg.lists impl) b y := by
    intro b y hy hmark hk
    refine ⟨hy, hmark, ?_, inv.key_tail_ne hk.le hu.2⟩
    rintro rfl
    have h : s.key (cfg.head b) = s.key x := hk
    rw [inv.key_head] at h
    exact absurd h hu.1.ne
  have hxl := hlive hx hmark rfl
  refine ⟨(inv.wf.dom hxl.1 hxl.2.2.1 hxl.2.2.2).2.2.symm, fun b' y hy hm hk => ?_⟩
  exact inv.live_eq (hlive hy hm hk) hxl hk

/-- A link that a CAS finds unmarked at a node before the key is in the list of the key. -/
theorem PrevNode.inBucket {l : Link β α} (h : PrevNode impl cfg s key l)
    (hl : s.link l = ⟨some x, false⟩) : InBucket cfg s (impl.bucket key) l := by
  obtain ⟨q, rfl, -, -, hq, -⟩ := h.reach hl
  exact hq

/-! ### One map -/

/-- A key has one value. -/
theorem Inv.single (inv : Inv impl cfg s) : Single (Contents impl cfg s) := by
  rintro k v w ⟨b, x, hx, hkx, rfl⟩ ⟨b', y, hy, hky, rfl⟩
  obtain ⟨-, rfl⟩ := inv.live_eq hx hy (hkx.trans hky.symm)
  rfl

variable (impl cfg) in
/-- The lists as one map. -/
noncomputable def reading :
    Reading (State β α ι K V) (ι × Event α K V) (K → Option V) ι (Op K V) (Ret V) where
  see := see
  who := Prod.fst
  value s := mapOf (Contents impl cfg s)
  call s t := (s.pc t).op?
  effect s t := (s.pc t).effect?

variable (s) in
/-- The next access is one of the two CASes that change the set, and it succeeds. -/
def Pc.Changes : Pc β α K V → Prop
  | .casInsert _ _ _ prev curr => s.link prev = ⟨curr, false⟩
  | .casMark _ _ x nxt _ => s.link (.next x) = ⟨nxt, false⟩
  | _ => False

variable (impl cfg s s' t) in
/-- What a step within an operation does to the map: what the operation does, or nothing. -/
def Inner : Prop :=
  (s'.pc t).op? = (s.pc t).op? ∧
    ((s'.pc t).effect? = (s.pc t).effect? ∧
        mapOf (Contents impl cfg s') = mapOf (Contents impl cfg s) ∨
      ∃ op r, (s.pc t).op? = some op ∧ (s.pc t).effect? = none ∧ (s'.pc t).effect? = some r ∧
        (flatMap K V).apply (mapOf (Contents impl cfg s)) op = (mapOf (Contents impl cfg s'), r))

/-- A step that makes neither of the two CASes leaves the map as it is. -/
theorem ContentsStep.inner (h : ContentsStep impl cfg s s' t) {p p' : Pc β α K V}
    (hpc : s.pc t = p) (hpc' : s'.pc t = p') (hop : p'.op? = p.op?)
    (heffect : p'.effect? = p.effect?) (hp : ¬ p.Changes s) : Inner impl cfg s s' t := by
  unfold Inner
  rw [hpc, hpc']
  refine ⟨hop, .inl ⟨heffect, ?_⟩⟩
  obtain h | ⟨key, val, a, prev, curr, hpc₀, hl, -⟩ | ⟨key, prev, x, nxt, res, hpc₀, hl, -⟩ := h
  · exact mapOf_congr h
  · obtain rfl := hpc.symm.trans hpc₀
    exact absurd hl hp
  · obtain rfl := hpc.symm.trans hpc₀
    exact absurd hl hp

/-- The map after the constructor is empty. -/
theorem Init.mapOf_contents (h : Init cfg s) : mapOf (Contents impl cfg s) = fun _ => none := by
  funext k
  rw [mapOf_eq_none_iff]
  rintro v ⟨b, x, hx, -⟩
  obtain rfl | rfl := h.reach hx.1
  · exact hx.2.2.1 rfl
  · exact hx.2.2.2 rfl

variable [DecidableEq β] [DecidableEq α] [DecidableEq ι]

/-- **A CAS changes only links of the list of the key**, whichever operation helps which. -/
theorem Step.cas_inBucket (inv : Inv impl cfg s) {e : Event α K V} (h : Step impl cfg s t e s')
    (hcas : (s.pc t).IsCas) {op : Op K V} (hop : (s.pc t).op? = some op) {l : Link β α}
    (hl : s'.link l ≠ s.link l) : InBucket cfg s (impl.bucket op.key) l := by
  have hp := inv.pc t
  -- the link that is written
  have hstore : ∀ {m : Link β α} {v p}, ((s.store m v).goto t p).link l ≠ s.link l → l = m := by
    intro m v p hne
    by_contra hlm
    exact hne (update_of_ne hlm ..)
  cases h with
  | casHelp c prev x nxt hpc hlink =>
    rw [hpc] at hp hop
    obtain rfl := Option.some.inj hop
    rw [hstore hl, Call.op_key]
    exact hp.2.1.inBucket hlink
  | casInsert key val a prev curr hpc hlink =>
    rw [hpc] at hp hop
    obtain rfl := Option.some.inj hop
    obtain ⟨-, hprev, -, x, rfl, -⟩ := hp
    rw [hstore hl]
    exact hprev.inBucket hlink
  | casMark key prev x nxt res hpc hlink =>
    rw [hpc] at hp hop
    obtain rfl := Option.some.inj hop
    obtain ⟨-, -, hm, -⟩ := hp
    rw [hstore hl]
    exact hm.reach (by rw [hlink])
  | casUnlink key prev x nxt res hpc hlink =>
    rw [hpc] at hp hop
    obtain rfl := Option.some.inj hop
    rw [hstore hl]
    exact hp.2.1.inBucket hlink
  | storeNext key val a prev curr hpc =>
    rw [hpc] at hcas
    exact hcas.elim
  | newNode key val a hpc ha =>
    rw [hpc] at hcas
    exact hcas.elim
  | _ => exact absurd rfl hl

/-- **A step within an operation** changes the map as the operation does, or not at all. -/
theorem Step.inner (inv : Inv impl cfg s) (inv' : Inv impl cfg s')
    {H : List (State β α ι K V × (ι × Event α K V) × State β α ι K V)}
    (hseen : PcSeen impl cfg s t H (s.pc t)) {e : Event α K V} (h : Step impl cfg s t e s')
    (hsee : see (t, e) = none) : Inner impl cfg s s' t := by
  have hp := inv.pc t
  have hc := h.contents inv
  cases h with
  | invoke op hpc hmin hmax => cases hsee
  | startOp op hpc =>
    refine hc.inner hpc State.goto_pc_self ?_ ?_ id <;> cases op <;> rfl
  | newNode key val a hpc ha => exact hc.inner hpc State.goto_pc_self rfl rfl id
  | search c curr hpc hl => exact hc.inner hpc State.goto_pc_self rfl rfl id
  | loopNull c prev hpc =>
    exact hc.inner hpc State.goto_pc_self op?_notFound effect?_notFound id
  | loop c prev x hpc => exact hc.inner hpc State.goto_pc_self rfl rfl id
  | recheckFail c prev x nxt hpc hl => exact hc.inner hpc State.goto_pc_self rfl rfl id
  | recheck c prev x nxt hpc hl => exact hc.inner hpc State.goto_pc_self rfl rfl id
  | readKey c prev x nxt hpc => exact hc.inner hpc State.goto_pc_self rfl rfl id
  | checkPrevFail c prev x nxt ckey hpc hl => exact hc.inner hpc State.goto_pc_self rfl rfl id
  | advance c prev x nxt ckey hpc hl hk => exact hc.inner hpc State.goto_pc_self rfl rfl id
  | found c prev x nxt ckey hpc hl hk =>
    exact hc.inner hpc State.goto_pc_self op?_found effect?_found id
  | notFound c prev x nxt ckey hpc hl hk =>
    exact hc.inner hpc State.goto_pc_self op?_notFound effect?_notFound id
  | help c prev x nxt ckey hpc hl => exact hc.inner hpc State.goto_pc_self rfl rfl id
  | casHelp c prev x nxt hpc hl => exact hc.inner hpc State.goto_pc_self rfl rfl id
  | casHelpFail c prev x nxt hpc hl => exact hc.inner hpc State.goto_pc_self rfl rfl id
  | retireHelped c prev x nxt hpc => exact hc.inner hpc State.goto_pc_self rfl rfl id
  | deallocate key val a x hpc => exact hc.inner hpc State.goto_pc_self rfl rfl id
  | endFound key val x hpc => exact hc.inner hpc State.goto_pc_self rfl rfl id
  | readFound key val x hpc => exact hc.inner hpc State.goto_pc_self rfl rfl id
  | storeNext key val a prev curr hpc => exact hc.inner hpc State.goto_pc_self rfl rfl id
  | casInsert key val a prev curr hpc hl =>
    -- the new node joins the contents: the operation changes the map here
    have hnew : (s.pc t).newNode? = some a := by rw [hpc]; rfl
    rw [hpc] at hp
    obtain ⟨hcall, hprev, ha, x, rfl, -, hk⟩ := hp
    obtain ⟨habs, hadd⟩ := contents_insert (t := t) (p := .endOp (.insert key val) (.value none))
      inv hcall hnew hprev hl ha hk
    unfold Inner
    rw [State.goto_pc_self, hpc]
    refine ⟨rfl, .inr ⟨.insert key val, .value none, rfl, rfl, rfl, ?_⟩⟩
    exact apply_insert_mapOf inv.single inv'.single habs hadd
  | casInsertFail key val a prev curr hpc hl => exact hc.inner hpc State.goto_pc_self rfl rfl hl
  | readVal key prev x nxt hpc => exact hc.inner hpc State.goto_pc_self rfl rfl id
  | casMark key prev x nxt res hpc hl =>
    -- `marked` leaves the contents, with the value that was read from it before
    rw [hpc] at hp hseen
    obtain ⟨hu, -, hm, hk, -⟩ := hp
    obtain rfl : res = s.val x := hseen
    obtain ⟨hin, hrem⟩ := contents_mark (t := t) (p := .casUnlink key prev x nxt (s.val x))
      inv hu hm hk hl
    unfold Inner
    rw [State.goto_pc_self, hpc]
    refine ⟨rfl, .inr ⟨.erase key, .value (some (s.val x)), rfl, rfl, rfl, ?_⟩⟩
    exact apply_erase_mapOf inv.single inv'.single hin hrem
  | casMarkFail key prev x nxt res hpc hl =>
    -- `casMarkFail` starts over, and calls `endOp` first in the lists that do so
    refine hc.inner hpc State.goto_pc_self ?_ ?_ hl <;> cases impl.endOpOnRetry <;> rfl
  | endRetry key hpc => exact hc.inner hpc State.goto_pc_self rfl rfl id
  | casUnlink key prev x nxt res hpc hl => exact hc.inner hpc State.goto_pc_self rfl rfl id
  | casUnlinkFail key prev x nxt res hpc hl => exact hc.inner hpc State.goto_pc_self rfl rfl id
  | retireErased key x res hpc => exact hc.inner hpc State.goto_pc_self rfl rfl id
  | endOp op r hpc => exact hc.inner hpc State.goto_pc_self rfl rfl id
  | ret op r hpc => cases hsee

theorem Step.of_invoke {e : Event α K V} {op : Op K V} (hs : Step impl cfg s t e s')
    (he : e = .invoke op) : s.pc t = .idle ∧ s' = s.goto t (.start op) := by
  cases hs with
  | invoke op' hpc hmin hmax =>
    obtain rfl := Event.invoke.inj he
    exact ⟨hpc, rfl⟩
  | _ => first
    | exact absurd he Link.access_ne_invoke
    | cases he

theorem Step.of_ret {e : Event α K V} {op : Op K V} {r : Ret V} (hs : Step impl cfg s t e s')
    (he : e = .ret op r) : s' = s.goto t .idle := by
  cases hs with
  | ret op' r' hpc => rfl
  | _ => first
    | exact absurd he Link.access_ne_ret
    | cases he

/-- **The lists are linearizable**, whatever the lists of the keys are. -/
theorem hmList_linearization (ok : State β α ι K V → ι × Event α K V → Prop) :
    Linearization (lts (ι := ι) (V := V) impl cfg) ok (reading impl cfg) invokedBy
      (flatMap K V) where
  starts_iff := by
    -- what begins an operation is its `invoke`, and nothing else
    intro t a
    show invokedBy t a = true ↔ ∃ op, see a = some (.invoke t op)
    simp only [see_eq_invoke_iff]
    obtain ⟨q, e⟩ := a
    cases e <;> simp [invokedBy]
  -- nobody runs an operation at first, and the lists hold no user key
  init := by
    intro s hs
    refine ⟨Init.mapOf_contents hs, fun t => ?_⟩
    show (s.pc t).op? = none
    rw [hs.pc t]
    rfl
  -- a step of another thread keeps the operation and its effect
  frame := by
    intro s a s' t hr hs _ ht
    obtain ⟨own, f⟩ := Step.frame (Inv.of_reachable hr.reachable) hs
    have hpc : s'.pc t = s.pc t := f.pc t ht
    exact ⟨congrArg Pc.op? hpc, congrArg Pc.effect? hpc⟩
  invoke := by
    intro s a s' t op hr hs _ hsee
    obtain rfl := see_eq_invoke_iff.mp hsee
    obtain ⟨hpc, rfl⟩ := Step.of_invoke hs rfl
    exact ⟨rfl, congrArg Pc.op? hpc, congrArg Pc.op? State.goto_pc_self,
      congrArg Pc.effect? State.goto_pc_self, mapOf_congr fun _ _ => Iff.rfl⟩
  -- at its return an operation has changed the map as it says, or has seen a state that it explains
  ret := by
    intro s H a s' t op r hr hs _ hsee
    obtain rfl := see_eq_ret_iff.mp hsee
    have hseen := PcSeen.of_reachable hr.reachable
    have hpc : s.pc t = .ret op r := Step.pc_of_ret hs rfl
    obtain rfl := Step.of_ret hs rfl
    rw [hpc] at hseen
    have hcall : (s.pc t).op? = some op := congrArg Pc.op? hpc
    have heffect : (s.pc t).effect? = op.change? r := congrArg Pc.effect? hpc
    refine ⟨rfl, hcall, ?_, congrArg Pc.op? State.goto_pc_self, mapOf_congr fun _ _ => Iff.rfl⟩
    · show (s.pc t).effect? = some r ∨ (s.pc t).effect? = none ∧ _
      rw [heffect]
      cases hch : op.change? r with
      | none =>
        -- `none` changed nothing, so one of the states since `invoke` explains the result
        refine .inr ⟨rfl, Explained.read (fun e he => ?_) hseen hch⟩
        exact (Inv.of_reachable (hr.of_mem_since he).reachable).single
      | some r' =>
        -- `some` was recorded as the effect when the map changed
        obtain rfl := Op.eq_of_change? hch
        exact .inl rfl
  inner := by
    rintro s ⟨t, e⟩ s' hr hs hok hsee
    obtain ⟨H, hH⟩ : ∃ H, ((lts impl cfg).since (invokedBy t)).ReachableBy
        (fun x a => ok x.1 a) (s, H) := hr.exists_since
    exact Step.inner (Inv.of_reachable hr.reachable)
      (Inv.of_reachable (hr.step hs hok).reachable) (PcSeen.of_reachable hH.reachable) hs hsee

end

/-! ### The table -/

section

/-- The keys that operations are called with are not negative. -/
def NonNegative : ι × Event α ℤ V → Prop
  | (_, .invoke op) => 0 ≤ op.key
  | _ => True

instance decidableNonNegative (a : ι × Event α ℤ V) : Decidable (NonNegative a) :=
  match a with
  | (_, .invoke op) => inferInstanceAs (Decidable (0 ≤ op.key))
  | (_, .startOp) | (_, .endOp) | (_, .access _) | (_, .retire _) | (_, .ret _ _) | (_, .tau) =>
    .isTrue trivial

variable {numBuckets : ℕ} [NeZero numBuckets]

/-- The bucket of a key. -/
theorem hmht_bucket {key : ℤ} :
    (((hmht numBuckets).bucket key : ℕ) : ℤ) = key % numBuckets := by
  have hn : (0 : ℤ) < numBuckets := by
    have := Nat.pos_of_neZero numBuckets
    omega
  have hnonneg := Int.emod_nonneg key hn.ne'
  have hlt := Int.emod_lt_of_pos key hn
  show (((key % numBuckets).toNat % numBuckets : ℕ) : ℤ) = key % numBuckets
  rw [Nat.mod_eq_of_lt (by omega), Int.toNat_of_nonneg hnonneg]

theorem hmht_bucket_eq_iff {key : ℤ} {b : Fin numBuckets} :
    b = (hmht numBuckets).bucket key ↔ ((b : ℕ) : ℤ) = key % numBuckets := by
  rw [← hmht_bucket, Int.natCast_inj, Fin.ext_iff]

variable [DecidableEq α] [DecidableEq ι] {cfg : Config (Fin numBuckets) α ℤ}
  {s : State (Fin numBuckets) α ι ℤ V} {h : List (CallEvent ι (Op ℤ V) (Ret V))}

/-- **The table is one linearizable map.** In every run on keys that are not negative, an unmarked
key that is reached from a bucket is in the bucket `key % num_buckets` only, and once; a CAS of an
operation changes only links of the bucket of its key; and the history is one of a flat map, which
is what the calls return when they come one after the other. -/
theorem hmht_linearizable
    (hr : ((lts (hmht numBuckets) cfg).history see).ReachableBy (fun _ a => NonNegative a) (s, h)) :
    (∀ b x, Reach s.heap.next (cfg.head b) x → s.heap.marked x = false →
      UserKey cfg (s.key x) → ((b : ℕ) : ℤ) = s.key x % numBuckets ∧
        ∀ b' y, Reach s.heap.next (cfg.head b') y → s.heap.marked y = false →
          s.key y = s.key x → b' = b ∧ y = x) ∧
    (∀ t op e s', pendingCall t h = some op → (s.pc t).IsCas →
      Step (hmht numBuckets) cfg s t e s' → ∀ l, s'.link l ≠ s.link l →
        ∀ b, InBucket cfg s b l ↔ ((b : ℕ) : ℤ) = op.key % numBuckets) ∧
    (∃ y, (flatMap ℤ V).Shows y h) ∧
    ∀ calls, h = SeqObject.sequential calls → (flatMap ℤ V).Answers calls := by
  have hlin : Linearization (lts (ι := ι) (V := V) (hmht numBuckets) cfg) (fun _ a => NonNegative a)
      (reading (hmht numBuckets) cfg) invokedBy (flatMap ℤ V) :=
    hmList_linearization _
  have inv : Inv (hmht numBuckets) cfg s := Inv.of_reachable hr.of_logged
  obtain ⟨y, hy⟩ := hlin.linearizable s h hr
  refine ⟨fun b x hx hmark hu => ?_, fun t op e s' hpend hcas hs l hl b => ?_, ⟨y, hy⟩, ?_⟩
  · obtain ⟨hb, honce⟩ := inv.bucket_of_reach hx hmark hu
    exact ⟨hmht_bucket_eq_iff.mp hb, honce⟩
  · have hop : (s.pc t).op? = some op := (hlin.call_eq_pendingCall hr t).trans hpend
    rw [inv.inBucket_iff (hs.cas_inBucket inv hcas hop hl), hmht_bucket_eq_iff]
  · rintro calls rfl
    exact SeqObject.answers_of_sequential hy

end

/-! ### A run -/

section

/-- Two lists between the keys -1 and 100; the sentinels are 0, 1 and 2, 3. -/
def tableConfig : Config (Fin 2) ℕ ℤ where
  keyMin := -1
  keyMax := 100
  head b := b
  tail b := b + 2
  keyMin_lt := by decide
  head_injective _ _ h := Fin.ext h
  tail_injective _ _ h := Fin.ext (Nat.add_right_cancel h)
  head_ne_tail := by decide

/-- The table after the constructor, used by two threads. -/
def tableState : State (Fin 2) ℕ (Fin 2) ℤ ℕ where
  link
    | .head b => ⟨some b, false⟩
    | .next x => ⟨if x < 2 then some (x + 2) else none, false⟩
  key x := if x < 2 then -1 else 100
  val _ := 0
  allocated x := decide (x < 4)
  retired := []
  pc _ := .idle

theorem tableState_init : Init tableConfig tableState := by
  refine ⟨fun _ => rfl, by decide, by decide, by decide, by decide, by decide, by decide,
    fun x hx => ?_, fun _ _ => rfl, rfl, fun _ => rfl⟩
  have hx : x < 4 := of_decide_eq_true hx
  by_cases hlt : x < 2
  · exact ⟨⟨x, hlt⟩, .inl rfl⟩
  · refine ⟨⟨x - 2, by omega⟩, .inr ?_⟩
    show x = x - 2 + 2
    omega

open Choice in
/-- Thread `t` inserts the key 5, which goes to bucket 1, and thread `u` marks its node. Thread `t`
looks for the key and unlinks the node, then inserts the key 4 into bucket 0; so thread `u` searches
again. -/
def tableSchedule (t u : Fin 2) : List (Fin 2 × Choice ℕ ℤ ℕ) :=
  call t (.insert 5 7) 1 ++ node t 4 13 ++ call u (.erase 5) 12 ++ call t (.contains 5) 18 ++
    call t (.insert 4 8) 1 ++ node t 5 13 ++ steps u 12

/-- What is seen of it, the last event first. -/
def tableHistory (t u : Fin 2) : List (CallEvent (Fin 2) (Op ℤ ℕ) (Ret ℕ)) :=
  [.ret u (.erase 5) (.value (some 7)), .ret t (.insert 4 8) (.value none),
    .invoke t (.insert 4 8), .ret t (.contains 5) (.bool false), .invoke t (.contains 5),
    .invoke u (.erase 5), .ret t (.insert 5 7) (.value none), .invoke t (.insert 5 7)]

/-- That is a history of the map. -/
theorem hmht_linearizable_erase : ∃ y, (flatMap ℤ ℕ).Shows y (tableHistory 0 1) := by
  have hinit : ((lts (hmht 2) tableConfig).history see).ReachableBy (fun _ a => NonNegative a)
      (tableState, []) := .init ⟨tableState_init, rfl⟩
  have hcomputes : ((lts (ι := Fin 2) (V := ℕ) (hmht 2) tableConfig).history see).Computes _ :=
    (State.computes (hmht 2) tableConfig).logged
  obtain ⟨⟨s, h⟩, hr, hfound⟩ := hcomputes.exists_reachableBy (tableSchedule 0 1) hinit
    (fun _ a => decide (NonNegative a)) (fun _ _ ha => of_decide_eq_true ha)
    (fun x => decide (x.2 = tableHistory 0 1)) (by decide +kernel)
  obtain rfl : h = tableHistory 0 1 := of_decide_eq_true hfound
  exact (hmht_linearizable hr).2.2.1

end

end HmList
end PopSetbench

import PopSetbench.Common.BlockbagIterator

/-!
# NBR+: the retired bag

What a thread does with its own `retiredBag` in `reclaimer_nbrplus.h`, down to the blocks. When the
bag is half full, `retire` keeps `begin()` as a bookmark. Later in the same period, when it turns
out that another thread has signalled everybody meanwhile, `LoWmreclaimFreeable` takes the records
out of the bag one by one until `begin()` is the bookmark again. What is left then was in the bag
when the bookmark was set, and is freed unless somebody has reserved it. The others are put back.

What the other threads have reserved and announced is left open (`Env`). `DEAMORTIZE_FREE_CALLS` is
off, so that a record that is added to the pool is freed.
-/

namespace PopSetbench
namespace NbrPlus

open Blockbag

/-- The part of `ThreadData` that is about the retired bag. -/
structure ThreadData (A : Type) where
  retiredBag : Bag A
  bagCapacityThreshold : ℕ
  /-- `savedRetireBagBlockInfo`, a block and an index. -/
  savedRetireBagBlockInfo : Iterator A
  firstLoEntryFlag : Bool
  numRetiresSinceLoWatermark : ℕ
  loPathReclaimAttemptFreq : ℕ

/-- What a call of `retire` learns from outside. -/
structure Env (T : Type) where
  /-- `scannedHzptrs->contains` after `collectAllSavedRecords`. -/
  scanned : T → Bool
  /-- Some `announcedTS` has grown by two since it was saved. -/
  announced : Bool
  /-- What `setLoWmTryReclaimFrequency` makes of `rand()`. -/
  freq : ℕ

variable {A T : Type}

namespace ThreadData

/-- `isOutOfPatience` -/
def isOutOfPatience (m : Mem A T) (d : ThreadData A) : Bool :=
  d.bagCapacityThreshold < d.retiredBag.computeSizeFast m

/-- `isPastLoWatermark` -/
def isPastLoWatermark (m : Mem A T) (d : ThreadData A) : Bool :=
  (d.bagCapacityThreshold / 2 : ℕ) < d.retiredBag.computeSizeFast m &&
    d.numRetiresSinceLoWatermark % d.loPathReclaimAttemptFreq == 0

/-- `setLoWmBookmark` -/
def setLoWmBookmark (m : Mem A T) (d : ThreadData A) : Option (ThreadData A) :=
  (Iterator.begin m d.retiredBag).map fun it => { d with savedRetireBagBlockInfo := it }

/-- `setLoWmMetaData` -/
def setLoWmMetaData (freq : ℕ) (m : Mem A T) (d : ThreadData A) : Option (ThreadData A) :=
  (setLoWmBookmark m { d with firstLoEntryFlag := false }).map fun d =>
    { d with loPathReclaimAttemptFreq := freq }

/-- `retire`, where it has come past the low watermark. -/
def enterLoWm (freq : ℕ) (m : Mem A T) (d : ThreadData A) : Option (ThreadData A) :=
  if d.firstLoEntryFlag then d.setLoWmMetaData freq m else some d

/-- `resetLoWmMetaData` -/
def resetLoWmMetaData (d : ThreadData A) : ThreadData A :=
  { d with
    firstLoEntryFlag := true
    numRetiresSinceLoWatermark := 0
    savedRetireBagBlockInfo := ⟨none, -1⟩ }

end ThreadData

section

variable [DecidableEq A]

/-- The first loop of `sendFreeableRecordsToPool`; the first component of the result is what is
freed. -/
def sendOrSpare (malloc : Malloc A) (scanned : T → Bool) :
    ℕ → Mem A T → Bag A → Bag A → Option (List T × Mem A T × Bag A × Bag A)
  | 0, _, _, _ => none
  | fuel + 1, m, freeable, spareMeBag => do
    if freeable.isEmpty m then
      return ([], m, freeable, spareMeBag)
    else
      let (ptr, m, freeable) ← freeable.remove m
      if scanned ptr then
        let (m, spareMeBag) ← spareMeBag.add malloc m ptr
        sendOrSpare malloc scanned fuel m freeable spareMeBag
      else
        let (freed, m, freeable, spareMeBag) ← sendOrSpare malloc scanned fuel m freeable spareMeBag
        return (ptr :: freed, m, freeable, spareMeBag)

/-- `sendFreeableRecordsToPool`; the second loop is the one of `appendMoveAll`. -/
def sendFreeableRecordsToPool (malloc : Malloc A) (scanned : T → Bool) (fuel : ℕ) (m : Mem A T)
    (freeable spareMeBag : Bag A) : Option (List T × Mem A T × Bag A × Bag A) := do
  let (freed, m, freeable, spareMeBag) ← sendOrSpare malloc scanned fuel m freeable spareMeBag
  let (m, freeable, spareMeBag) ← Bag.moveRest malloc fuel m freeable spareMeBag
  return (freed, m, freeable, spareMeBag)

/-- `HiWmreclaimFreeable` -/
def hiWmreclaimFreeable (malloc : Malloc A) (scanned : T → Bool) (fuel : ℕ) (m : Mem A T)
    (d : ThreadData A) : Option (List T × Mem A T × ThreadData A) := do
  let (m, spareMeBag) := Bag.new malloc m
  let (freed, m, freeable, spareMeBag) ←
    sendFreeableRecordsToPool malloc scanned fuel m d.retiredBag spareMeBag
  let m ← spareMeBag.destroy fuel m
  return (freed, m, { d with retiredBag := freeable })

/-- The loop of `LoWmreclaimFreeable`, up to the bookmark. -/
def spareNewer (malloc : Malloc A) (saved : Iterator A) :
    ℕ → Mem A T → Bag A → Bag A → Option (Mem A T × Bag A × Bag A)
  | 0, _, _, _ => none
  | fuel + 1, m, freeable, spareMeBag => do
    let it ← Iterator.begin m freeable
    if it.curr ≠ saved.curr ∨ saved.ix < it.ix then
      let (ptr, m, freeable) ← freeable.remove m
      let (m, spareMeBag) ← spareMeBag.add malloc m ptr
      spareNewer malloc saved fuel m freeable spareMeBag
    else
      return (m, freeable, spareMeBag)

/-- `LoWmreclaimFreeable` -/
def loWmreclaimFreeable (malloc : Malloc A) (scanned : T → Bool) (fuel : ℕ) (m : Mem A T)
    (d : ThreadData A) : Option (List T × Mem A T × ThreadData A) := do
  let (m, spareMeBag) := Bag.new malloc m
  if d.savedRetireBagBlockInfo.curr = none ∨ d.savedRetireBagBlockInfo.ix = -1 then
    none
  else
    let (m, freeable, spareMeBag) ←
      spareNewer malloc d.savedRetireBagBlockInfo fuel m d.retiredBag spareMeBag
    let (freed, m, freeable, spareMeBag) ←
      sendFreeableRecordsToPool malloc scanned fuel m freeable spareMeBag
    let m ← spareMeBag.destroy fuel m
    return (freed, m, { d with retiredBag := freeable })

/-- `retire`, up to where the record is added. -/
def reclaim (malloc : Malloc A) (env : Env T) (fuel : ℕ) (m : Mem A T) (d : ThreadData A) :
    Option (List T × Mem A T × ThreadData A) := do
  if d.isOutOfPatience m then
    let (freed, m, d) ← hiWmreclaimFreeable malloc env.scanned fuel m d
    return (freed, m, d.resetLoWmMetaData)
  else if d.isPastLoWatermark m then
    let d ← d.enterLoWm env.freq m
    if env.announced then
      let (freed, m, d) ← loWmreclaimFreeable malloc env.scanned fuel m d
      return (freed, m, d.resetLoWmMetaData)
    else
      return ([], m, d)
  else
    return ([], m, d)

/-- `retire`; the first component of the result is what is freed. -/
def retire (malloc : Malloc A) (env : Env T) (fuel : ℕ) (m : Mem A T) (d : ThreadData A)
    (record : T) : Option (List T × Mem A T × ThreadData A) := do
  let (freed, m, d) ← reclaim malloc env fuel m d
  let d := if d.firstLoEntryFlag then d else
    { d with numRetiresSinceLoWatermark := d.numRetiresSinceLoWatermark + 1 }
  let (m, bag) ← d.retiredBag.add malloc m record
  return (freed, m, { d with retiredBag := bag })

/-- A thread retires records one after the other. -/
def retireAll (malloc : Malloc A) (fuel : ℕ) (m : Mem A T) (d : ThreadData A) :
    List (Env T × T) → Option (List T × Mem A T × ThreadData A)
  | [] => some ([], m, d)
  | (env, record) :: rest => do
    let (freed, m, d) ← retire malloc env fuel m d record
    let (freed', m, d) ← retireAll malloc fuel m d rest
    return (freed ++ freed', m, d)

/-- **A low-watermark period** that begins in the state `m₀`, `d₀`: the bookmark was set then, the
records `xs` have been retired since, and nothing was reclaimed. -/
inductive Period (malloc : Malloc A) (m₀ : Mem A T) (d₀ : ThreadData A) :
    List T → Mem A T → ThreadData A → Prop
  /-- The bookmark was just set. -/
  | mark {freq : ℕ} {d : ThreadData A} (hfirst : d₀.firstLoEntryFlag = true)
      (hpast : d₀.isPastLoWatermark m₀ = true) (h : d₀.setLoWmMetaData freq m₀ = some d) :
      Period malloc m₀ d₀ [] m₀ d
  /-- The bookmark was set in this call. -/
  | first {env : Env T} {x : T} {freed : List T} {m : Mem A T} {d : ThreadData A}
      (hfirst : d₀.firstLoEntryFlag = true)
      (h : Settles (fun fuel => retire malloc env fuel m₀ d₀ x) (freed, m, d))
      (hset : d.firstLoEntryFlag = false) : Period malloc m₀ d₀ [x] m d
  /-- It was set in an earlier call. -/
  | next {env : Env T} {xs : List T} {x : T} {freed : List T} {m m' : Mem A T}
      {d d' : ThreadData A} (hp : Period malloc m₀ d₀ xs m d)
      (h : Settles (fun fuel => retire malloc env fuel m d x) (freed, m', d'))
      (hset : d'.firstLoEntryFlag = false) : Period malloc m₀ d₀ (xs ++ [x]) m' d'

end

/-! ### The bookmark -/

/-- **The bookmark in the bag**: the records `older` are at it and below, the records `recent`
above. -/
inductive Marked (saved : Iterator A) (bs : List (A × List T)) (older recent : Multiset T) : Prop
  | intro (pre : List (A × List T)) (a : A) (d : List T) (x : T) (e : List T)
      (post : List (A × List T)) (hsaved : saved = ⟨some a, d.length⟩)
      (hbs : bs = pre ++ (a, d ++ x :: e) :: post) (holder : older = x ::ₘ ↑d + contents post)
      (hrecent : recent = contents pre + ↑e)

/-- The newest record of the head block. -/
theorem contents_head {a : A} {d : List T} {x : T} {fs : List (A × List T)} :
    contents ((a, d ++ [x]) :: fs) = x ::ₘ contents ((a, d) :: fs) := by
  rw [contents_cons, coe_concat, Multiset.cons_add, ← contents_cons]

/-- Blocks in which there is nothing. -/
theorem eq_nil_of_contents {bs : List (A × List T)} (h : contents bs = 0) {b : A × List T}
    (hb : b ∈ bs) : b.2 = [] :=
  List.flatMap_eq_nil_iff.mp ((Multiset.coe_eq_zero _).mp h) b hb

namespace Marked

variable {saved it : Iterator A} {bs cs : List (A × List T)} {older recent : Multiset T} {x : T}
  {todo : List (T × ℕ)}

theorem contents_eq (h : Marked saved bs older recent) : contents bs = older + recent := by
  obtain ⟨pre, a, d, x, e, post, -, rfl, rfl, rfl⟩ := h
  rw [contents_append, contents_cons, ← Multiset.coe_add, ← Multiset.cons_coe]
  simp only [Multiset.add_cons, Multiset.cons_add]
  congr 1
  abel

/-- The assertion of `LoWmreclaimFreeable` holds. -/
theorem not_reset (h : Marked saved bs older recent) : ¬ (saved.curr = none ∨ saved.ix = -1) := by
  obtain ⟨pre, a, d, x, e, post, rfl, -⟩ := h
  rintro (hcurr | hix)
  · cases hcurr
  · have hix : (d.length : ℤ) = -1 := hix
    omega

/-- `begin()` is a bookmark. -/
theorem of_at {k : Multiset T} (h : At bs it k todo) (hk : k = 0) (hne : contents bs ≠ 0) :
    Marked it bs (contents bs) 0 := by
  cases h with
  | done => exact absurd hk hne
  | here pre a d x e post i hle hfull =>
    have hmarked : Marked ⟨some a, d.length⟩ (pre ++ (a, d ++ x :: e) :: post)
        (x ::ₘ ↑d + contents post) (contents pre + ↑e) :=
      .intro pre a d x e post rfl rfl rfl rfl
    have hc := hmarked.contents_eq
    rw [hk, add_zero] at hc
    rw [hk] at hmarked
    rw [hc]
    exact hmarked

/-- A record is added above the bookmark. -/
theorem add (h : Marked saved bs older recent) (ha : Added x bs cs) :
    Marked saved cs older (x ::ₘ recent) := by
  obtain ⟨pre, a, d, y, e, post, rfl, hbs, rfl, rfl⟩ := h
  cases pre with
  | nil =>
    -- the bookmark is in the head block
    cases ha with
    | here a' d' fs =>
      cases hbs
      exact .intro [] a d y (e ++ [x]) post rfl (by simp) rfl (by simp [coe_concat])
    | before b a' d' fs =>
      cases hbs
      exact .intro [(b, [])] a d y (e ++ [x]) post rfl (by simp) rfl (by simp [coe_concat])
  | cons c pre =>
    cases ha with
    | here a' d' fs =>
      obtain ⟨rfl, rfl⟩ := List.cons.inj hbs
      refine .intro ((a', d' ++ [x]) :: pre) a d y e post rfl rfl rfl ?_
      rw [contents_head, Multiset.cons_add]
    | before b a' d' fs =>
      obtain ⟨rfl, rfl⟩ := List.cons.inj hbs
      refine .intro ((b, []) :: (a', d' ++ [x]) :: pre) a d y e post rfl rfl rfl ?_
      rw [contents_cons (a := b), Multiset.coe_nil, zero_add, contents_head, Multiset.cons_add]

/-- A record is removed from above the bookmark. -/
theorem remove (h : Marked saved bs older recent) (hr : Removed x bs cs) (hne : recent ≠ 0) :
    ∃ recent', recent = x ::ₘ recent' ∧ Marked saved cs older recent' := by
  obtain ⟨pre, a, d, y, e, post, rfl, hbs, rfl, rfl⟩ := h
  -- a record of the block of the bookmark
  have hown : ∀ a' d' fs, (a', d' ++ [x]) :: fs = (a, d ++ y :: e) :: post → contents pre = 0 →
      ∃ e' : List T, contents pre + ↑e = x ::ₘ (↑e' : Multiset T) ∧
        (a', d') :: fs = (a, d ++ y :: e') :: post := by
    intro a' d' fs heq hpre
    obtain ⟨hblock, rfl⟩ := List.cons.inj heq
    obtain ⟨rfl, hdata⟩ := Prod.mk.inj hblock
    obtain rfl | ⟨e, z, rfl⟩ := e.eq_nil_or_concat'
    · rw [hpre] at hne
      exact absurd rfl hne
    · rw [← List.cons_append, ← List.append_assoc] at hdata
      obtain ⟨rfl, hlast⟩ := List.append_inj' hdata rfl
      obtain rfl := List.singleton_inj.mp hlast
      refine ⟨e, ?_, rfl⟩
      rw [hpre, zero_add, coe_concat]
  cases hr with
  | here a' d' fs =>
    cases pre with
    | nil =>
      obtain ⟨e', hrecent, hcs⟩ := hown a' d' fs hbs rfl
      exact ⟨_, hrecent, .intro [] a d y e' post rfl hcs rfl (zero_add _).symm⟩
    | cons c pre =>
      obtain ⟨rfl, rfl⟩ := List.cons.inj hbs
      refine ⟨_, ?_, .intro ((a', d') :: pre) a d y e post rfl rfl rfl rfl⟩
      rw [contents_head, Multiset.cons_add]
  | behind b a' d' fs =>
    obtain _ | ⟨c, _ | ⟨c', pre⟩⟩ := pre
    · obtain ⟨hblock, -⟩ := List.cons.inj hbs
      simp at hblock
    · obtain ⟨rfl, hrest⟩ := List.cons.inj hbs
      obtain ⟨e', hrecent, hcs⟩ := hown a' d' fs hrest rfl
      exact ⟨_, hrecent, .intro [] a d y e' post rfl hcs rfl (zero_add _).symm⟩
    · obtain ⟨rfl, hrest⟩ := List.cons.inj hbs
      obtain ⟨rfl, rfl⟩ := List.cons.inj hrest
      refine ⟨_, ?_, .intro ((a', d') :: pre) a d y e post rfl rfl rfl rfl⟩
      rw [contents_cons, Multiset.coe_nil, zero_add, contents_head, Multiset.cons_add]

/-- **The loop stops at the bookmark.** -/
theorem newer_iff {k : Multiset T} (h : Marked saved bs older recent) (hat : At bs it k todo)
    (hk : k = 0) (hnodup : (addrs bs).Nodup) :
    (it.curr ≠ saved.curr ∨ saved.ix < it.ix) ↔ recent ≠ 0 := by
  obtain ⟨pre, a, d, y, e, post, rfl, hbs, -, rfl⟩ := h
  cases hat with
  | done =>
    -- nothing is left to be looked at
    have hd := eq_nil_of_contents hk (b := (a, d ++ y :: e)) (by simp [hbs])
    simp at hd
  | here pre' a' d' x' e' post' i hle hfull =>
    -- the loop looks at one more record
    have hzero := congrArg Multiset.card hk
    rw [Multiset.card_add, Multiset.coe_card, Multiset.card_zero] at hzero
    by_cases ha : a' = a
    · -- the newest record is in the block of the bookmark
      subst ha
      obtain ⟨rfl, hdata, rfl⟩ := append_cons_inj hbs hnodup
      have hlen := congrArg List.length hdata
      rw [List.length_append, List.length_append, List.length_cons, List.length_cons] at hlen
      rw [ne_eq, ne_eq, ← Multiset.card_eq_zero, Multiset.card_add, Multiset.coe_card]
      constructor
      · rintro (hcurr | hix)
        · exact absurd rfl hcurr
        · have hix : (d.length : ℤ) < d'.length := hix
          omega
      · intro hne
        right
        show (d.length : ℤ) < d'.length
        omega
    · -- the newest record is in another block
      refine iff_of_true (.inl fun heq => ha (Option.some.inj heq)) fun hrecent => ?_
      -- one of the two blocks is before the other one, and something is in it
      rw [← Multiset.card_eq_zero, Multiset.card_add, Nat.add_eq_zero_iff] at hk hrecent
      have hpre₀ : contents pre = 0 := Multiset.card_eq_zero.mp hrecent.1
      have hpre₁ : contents pre' = 0 := Multiset.card_eq_zero.mp hk.1
      obtain ⟨as, hpre, hrest⟩ | ⟨as, hpre, hrest⟩ := List.append_eq_append_iff.mp hbs
      · cases as with
        | nil => exact ha (Prod.mk.inj (List.cons.inj hrest).1).1
        | cons b as =>
          obtain ⟨rfl, -⟩ := List.cons.inj hrest
          have hd := eq_nil_of_contents hpre₀ (b := (a', d' ++ x' :: e')) (by simp [hpre])
          simp at hd
      · cases as with
        | nil => exact ha (Prod.mk.inj (List.cons.inj hrest).1).1.symm
        | cons b as =>
          obtain ⟨rfl, -⟩ := List.cons.inj hrest
          have hd := eq_nil_of_contents hpre₁ (b := (a, d ++ y :: e)) (by simp [hpre])
          simp at hd

end Marked

/-! ### The loops -/

section

variable [DecidableEq A] {m m' : Mem A T} {bag spare : Bag A} {bs ss : List (A × List T)}
  {F : Multiset A} {saved : Iterator A} {older recent : Multiset T} {d : ThreadData A}

omit [DecidableEq A] in
/-- A bag in which there is something. -/
theorem isEmpty_of_contents (h : Rep m bag bs) (hne : contents bs ≠ 0) : bag.isEmpty m = false := by
  rw [Bool.eq_false_iff, ne_eq, h.isEmpty_iff]
  rintro rfl
  exact hne rfl

/-- **The records above the bookmark** are put into the other bag. -/
theorem spareNewer_spec (malloc : Malloc A) (h : Rep m bag bs) (hspare : Rep m spare ss)
    (ho : m.Owned (addrs ss + (addrs bs + F))) (hm : Marked saved bs older recent) :
    ∃ m' bag' spare' bs' ss',
      Settles (fun fuel => spareNewer malloc saved fuel m bag spare) (m', bag', spare') ∧
      Rep m' bag' bs' ∧ Rep m' spare' ss' ∧ m'.Owned (addrs ss' + (addrs bs' + F)) ∧
      m.Kept m' F ∧ contents bs' = older ∧ contents ss' = contents ss + recent := by
  induction hn : recent.card generalizing m bag spare bs ss recent with
  | zero =>
    obtain rfl : recent = 0 := Multiset.card_eq_zero.mp hn
    obtain ⟨it, hbegin, hat⟩ := h.begin
    have hstop : ¬ (it.curr ≠ saved.curr ∨ saved.ix < it.ix) := fun hnewer =>
      (hm.newer_iff hat rfl h.nodup).mp hnewer rfl
    refine ⟨m, bag, spare, bs, ss, .of_succ (.of_forall fun fuel => ?_), h, hspare, ho, .refl, ?_,
      (add_zero _).symm⟩
    · rw [spareNewer, hbegin, Option.bind_eq_bind, Option.bind_some, if_neg hstop]
      rfl
    · rw [hm.contents_eq, add_zero]
  | succ n ih =>
    have hne : recent ≠ 0 := by
      rintro rfl
      cases hn
    obtain ⟨it, hbegin, hat⟩ := h.begin
    have hgo : it.curr ≠ saved.curr ∨ saved.ix < it.ix := (hm.newer_iff hat rfl h.nodup).mpr hne
    have hempty : bag.isEmpty m = false := by
      refine isEmpty_of_contents h fun hzero => hne ?_
      rw [hm.contents_eq, ← Multiset.card_eq_zero, Multiset.card_add, Nat.add_eq_zero_iff] at hzero
      exact Multiset.card_eq_zero.mp hzero.2
    obtain ⟨ptr, m₁, bag₁, m₂, spare₁, ss₁, bs₁, hremove, hadd, hspare₁, h₁, ho₁, hk₁, hadded,
      hremoved⟩ := hspare.pass malloc h ho hempty
    obtain ⟨recent', rfl, hm₁⟩ := hm.remove hremoved hne
    rw [Multiset.card_cons] at hn
    obtain ⟨m', bag', spare', bs', ss', hset, h', hspare', ho', hk', hc, hcs⟩ :=
      ih h₁ hspare₁ ho₁ hm₁ (Nat.succ.inj hn)
    refine ⟨m', bag', spare', bs', ss', .of_succ ?_, h', hspare', ho', hk₁.trans hk', hc, ?_⟩
    · filter_upwards [hset] with fuel hfuel
      rw [spareNewer, hbegin, Option.bind_eq_bind, Option.bind_some, if_pos hgo]
      simp only [hremove, hadd, Option.bind_eq_bind, Option.bind_some]
      exact hfuel
    · rw [hcs, hadded.contents, Multiset.cons_add, Multiset.add_cons]

/-- **All records leave the bag**, those that are reserved for the other one. -/
theorem sendOrSpare_spec (malloc : Malloc A) (scanned : T → Bool) (h : Rep m bag bs)
    (hspare : Rep m spare ss) (ho : m.Owned (addrs ss + (addrs bs + F))) :
    ∃ freed m' bag' spare' ss' c,
      Settles (fun fuel => sendOrSpare malloc scanned fuel m bag spare)
        (freed, m', bag', spare') ∧
      Rep m' bag' [(c, [])] ∧ Rep m' spare' ss' ∧
      m'.Owned (addrs ss' + (addrs [(c, ([] : List T))] + F)) ∧ m.Kept m' F ∧
      (↑freed : Multiset T) = (contents bs).filter (fun x => scanned x = false) ∧
      contents ss' = contents ss + (contents bs).filter (fun x => scanned x = true) := by
  induction hn : (contents bs).card generalizing m bag spare bs ss with
  | zero =>
    -- the bag is empty
    have hc : contents bs = 0 := Multiset.card_eq_zero.mp hn
    obtain rfl := h.eq_singleton hc
    have hempty : bag.isEmpty m = true := h.isEmpty_iff.mpr rfl
    refine ⟨[], m, bag, spare, ss, bag.head, .of_succ (.of_forall fun fuel => ?_), h, hspare, ho,
      .refl, rfl, (add_zero _).symm⟩
    rw [sendOrSpare, if_pos hempty]
    rfl
  | succ n ih =>
    -- one record leaves it, and the others follow by induction
    have hempty : bag.isEmpty m = false := by
      refine isEmpty_of_contents h fun hzero => ?_
      rw [hzero] at hn
      cases hn
    have ho₀ : m.Owned (addrs bs + (addrs ss + F)) := by
      rw [add_left_comm]
      exact ho
    obtain ⟨ptr, m₁, bag₁, bs₁, hremove, hl, hremoved⟩ := h.remove ho₀ hempty
    have hcontents := hremoved.contents
    rw [hcontents, Multiset.card_cons] at hn
    have hspare₁ : Rep m₁ spare ss := hspare.kept hl.kept (Multiset.le_add_right ..)
    have ho₁ : m₁.Owned (addrs ss + (addrs bs₁ + F)) := by
      rw [add_left_comm]
      exact hl.owned
    have hk₁ : m.Kept m₁ F := hl.kept.mono (Multiset.le_add_left ..)
    -- a reserved record goes to the other bag
    cases hptr : scanned ptr with
    | true =>
      obtain ⟨m₂, spare₁, ss₁, hadd, hl₂, hadded⟩ := hspare₁.add malloc ho₁ ptr
      have h₂ : Rep m₂ bag₁ bs₁ := hl.rep.kept hl₂.kept (Multiset.le_add_right ..)
      obtain ⟨freed, m', bag', spare', ss', c, hset, h', hspare', ho', hk', hfreed, hcs⟩ :=
        ih h₂ hl₂.rep hl₂.owned (Nat.succ.inj hn)
      refine ⟨freed, m', bag', spare', ss', c, .of_succ ?_, h', hspare', ho',
        hk₁.trans ((hl₂.kept.mono (Multiset.le_add_left ..)).trans hk'), ?_, ?_⟩
      · filter_upwards [hset] with fuel hfuel
        rw [sendOrSpare, hempty]
        simp only [hremove, hptr, hadd, Option.bind_eq_bind, Option.bind_some]
        exact hfuel
      · rw [hfreed, hcontents, Multiset.filter_cons_of_neg _ (by simp [hptr])]
      · rw [hcs, hadded.contents, hcontents,
          Multiset.filter_cons_of_pos (p := fun x => scanned x = true) _ hptr, Multiset.cons_add,
          Multiset.add_cons]
    | false =>
      -- any other record is freed
      obtain ⟨freed, m', bag', spare', ss', c, hset, h', hspare', ho', hk', hfreed, hcs⟩ :=
        ih hl.rep hspare₁ ho₁ (Nat.succ.inj hn)
      refine ⟨ptr :: freed, m', bag', spare', ss', c, .of_succ ?_, h', hspare', ho',
        hk₁.trans hk', ?_, ?_⟩
      · filter_upwards [hset] with fuel hfuel
        rw [sendOrSpare, hempty]
        simp only [hremove, hptr, Option.bind_eq_bind, Option.bind_some, hfuel]
        rfl
      · rw [← Multiset.cons_coe, hfreed, hcontents,
          Multiset.filter_cons_of_pos (p := fun x => scanned x = false) _ hptr]
      · rw [hcs, hcontents, Multiset.filter_cons_of_neg _ (by simp [hptr])]

/-- **`sendFreeableRecordsToPool`** frees what is in the bag and not reserved. Everything else is in
the bag then. -/
theorem sendFreeableRecordsToPool_spec (malloc : Malloc A) (scanned : T → Bool) (h : Rep m bag bs)
    (hspare : Rep m spare ss) (ho : m.Owned (addrs ss + (addrs bs + F))) :
    ∃ freed m' bag' spare' bs' c,
      Settles (fun fuel => sendFreeableRecordsToPool malloc scanned fuel m bag spare)
        (freed, m', bag', spare') ∧
      Rep m' bag' bs' ∧ Rep m' spare' [(c, [])] ∧
      m'.Owned (addrs [(c, ([] : List T))] + (addrs bs' + F)) ∧ m.Kept m' F ∧
      (↑freed : Multiset T) = (contents bs).filter (fun x => scanned x = false) ∧
      contents bs' = contents ss + (contents bs).filter (fun x => scanned x = true) := by
  obtain ⟨freed, m₁, bag₁, spare₁, ss₁, c₁, hsend, h₁, hspare₁, ho₁, hk₁, hfreed, hcs⟩ :=
    sendOrSpare_spec malloc scanned h hspare ho
  rw [add_left_comm] at ho₁
  obtain ⟨m', bag', spare', bs', c, -, hmove, h', hspare', ho', hk', hc⟩ :=
    h₁.moveRest malloc hspare₁ ho₁
  rw [add_left_comm] at ho'
  refine ⟨freed, m', bag', spare', bs', c, ?_, h', hspare', ho', hk₁.trans hk', hfreed, ?_⟩
  · filter_upwards [hsend, hmove] with fuel hs hm
    unfold sendFreeableRecordsToPool
    simp only [hs, hm, Option.bind_eq_bind, Option.bind_some]
    rfl
  · rw [hc, hcs]
    simp

/-- **`LoWmreclaimFreeable`** frees the records at the bookmark and below that are not reserved. -/
theorem loWmreclaimFreeable_spec (malloc : Malloc A) (scanned : T → Bool)
    (h : Rep m d.retiredBag bs) (ho : m.Owned (addrs bs + F))
    (hm : Marked d.savedRetireBagBlockInfo bs older recent) :
    ∃ freed m' bag' bs',
      Settles (fun fuel => loWmreclaimFreeable malloc scanned fuel m d)
        (freed, m', { d with retiredBag := bag' }) ∧ Leaves m F m' bag' bs' ∧
      (↑freed : Multiset T) = older.filter (fun x => scanned x = false) ∧
      contents bs' = older.filter (fun x => scanned x = true) + recent := by
  obtain ⟨m₁, spare₁, hnew, hl₁⟩ := ho.new malloc
  have h₁ : Rep m₁ d.retiredBag bs := h.kept hl₁.kept (Multiset.le_add_right ..)
  obtain ⟨m₂, bag₂, spare₂, bs₂, ss₂, hspare, h₂, hspare₂, ho₂, hk₂, hc₂, hcs₂⟩ :=
    spareNewer_spec malloc h₁ hl₁.rep hl₁.owned hm
  obtain ⟨freed, m₃, bag₃, spare₃, bs₃, c, hsend, h₃, hspare₃, ho₃, hk₃, hfreed, hc₃⟩ :=
    sendFreeableRecordsToPool_spec malloc scanned h₂ hspare₂ ho₂
  obtain ⟨m', hdestroy, ho', hk'⟩ := hspare₃.destroy ho₃
  refine ⟨freed, m', bag₃, bs₃, ?_, ⟨h₃.kept hk' (Multiset.le_add_right ..), ho', ?_⟩, ?_, ?_⟩
  · filter_upwards [hspare, hsend, hdestroy] with fuel hs hf hd
    unfold loWmreclaimFreeable
    rw [hnew]
    simp only [if_neg hm.not_reset, hs, hf, hd, Option.bind_eq_bind, Option.bind_some]
    rfl
  · exact (hl₁.kept.mono (Multiset.le_add_left ..)).trans
      (hk₂.trans (hk₃.trans (hk'.mono (Multiset.le_add_left ..))))
  · rw [hfreed, hc₂]
  · rw [hc₃, hcs₂, hc₂]
    simp [add_comm]

/-- **`HiWmreclaimFreeable`** frees all records that are not reserved. -/
theorem hiWmreclaimFreeable_spec (malloc : Malloc A) (scanned : T → Bool)
    (h : Rep m d.retiredBag bs) (ho : m.Owned (addrs bs + F)) :
    ∃ freed m' bag' bs',
      Settles (fun fuel => hiWmreclaimFreeable malloc scanned fuel m d)
        (freed, m', { d with retiredBag := bag' }) ∧ Leaves m F m' bag' bs' ∧
      (↑freed : Multiset T) = (contents bs).filter (fun x => scanned x = false) ∧
      contents bs' = (contents bs).filter (fun x => scanned x = true) := by
  obtain ⟨m₁, spare₁, hnew, hl₁⟩ := ho.new malloc
  have h₁ : Rep m₁ d.retiredBag bs := h.kept hl₁.kept (Multiset.le_add_right ..)
  obtain ⟨freed, m₂, bag₂, spare₂, bs₂, c, hsend, h₂, hspare₂, ho₂, hk₂, hfreed, hc₂⟩ :=
    sendFreeableRecordsToPool_spec malloc scanned h₁ hl₁.rep hl₁.owned
  obtain ⟨m', hdestroy, ho', hk'⟩ := hspare₂.destroy ho₂
  refine ⟨freed, m', bag₂, bs₂, ?_, ⟨h₂.kept hk' (Multiset.le_add_right ..), ho', ?_⟩, hfreed, ?_⟩
  · filter_upwards [hsend, hdestroy] with fuel hf hd
    unfold hiWmreclaimFreeable
    rw [hnew]
    simp only [hf, hd, Option.bind_eq_bind, Option.bind_some]
    rfl
  · exact (hl₁.kept.mono (Multiset.le_add_left ..)).trans
      (hk₂.trans (hk'.mono (Multiset.le_add_left ..)))
  · rw [hc₂]
    simp

/-! ### `retire` -/

variable {malloc : Malloc A} {env : Env T} {fuel : ℕ} {freed : List T} {d' : ThreadData A} {x : T}
  {freq : ℕ}

omit [DecidableEq A] in
theorem exists_setLoWmMetaData (freq : ℕ) (h : Rep m d.retiredBag bs) :
    ∃ d', d.setLoWmMetaData freq m = some d' := by
  obtain ⟨it, hbegin, -⟩ := h.begin
  unfold ThreadData.setLoWmMetaData ThreadData.setLoWmBookmark
  rw [hbegin]
  exact ⟨_, rfl⟩

omit [DecidableEq A] in
/-- The bookmark is set when there is something in the bag. -/
theorem setLoWmMetaData_spec (h : Rep m d.retiredBag bs) (hpast : d.isPastLoWatermark m = true)
    (hset : d.setLoWmMetaData freq m = some d') :
    d'.retiredBag = d.retiredBag ∧ d'.firstLoEntryFlag = false ∧
      Marked d'.savedRetireBagBlockInfo bs (contents bs) 0 := by
  obtain ⟨it, hbegin, hat⟩ := h.begin
  have hne : contents bs ≠ 0 := by
    intro hzero
    unfold ThreadData.isPastLoWatermark at hpast
    rw [h.computeSizeFast, hzero, Bool.and_eq_true, decide_eq_true_iff, Multiset.card_zero] at hpast
    omega
  unfold ThreadData.setLoWmMetaData ThreadData.setLoWmBookmark at hset
  rw [hbegin] at hset
  obtain rfl := Option.some.inj hset
  exact ⟨rfl, rfl, Marked.of_at hat rfl hne⟩

/-- A call of `retire` after which the bookmark is set has not reclaimed anything. -/
theorem reclaim_cases (h : reclaim malloc env fuel m d = some (freed, m', d'))
    (hset : d'.firstLoEntryFlag = false) : m' = m ∧ (d' = d ∨ d.firstLoEntryFlag = true ∧
      d.isPastLoWatermark m = true ∧ d.setLoWmMetaData env.freq m = some d') := by
  unfold reclaim at h
  split at h
  · -- the high watermark
    obtain ⟨⟨f, m₁, d₁⟩, -, heq⟩ := Option.bind_eq_some_iff.mp h
    cases heq
    cases hset
  · split at h
    · next hpast =>
      obtain ⟨d₁, hd₁, h⟩ := Option.bind_eq_some_iff.mp h
      split at h
      · -- the low watermark, and somebody has signalled
        obtain ⟨⟨f, m₁, d₂⟩, -, heq⟩ := Option.bind_eq_some_iff.mp h
        cases heq
        cases hset
      · cases h
        unfold ThreadData.enterLoWm at hd₁
        split at hd₁
        · next hfirst => exact ⟨rfl, .inr ⟨hfirst, hpast, hd₁⟩⟩
        · exact ⟨rfl, .inl (Option.some.inj hd₁).symm⟩
    · cases h
      exact ⟨rfl, .inl rfl⟩

/-- Such a call adds the record to the bag. -/
theorem retire_cases (h : retire malloc env fuel m d x = some (freed, m', d'))
    (hset : d'.firstLoEntryFlag = false) :
    ∃ d₁, (d₁ = d ∨ d.firstLoEntryFlag = true ∧ d.isPastLoWatermark m = true ∧
        d.setLoWmMetaData env.freq m = some d₁) ∧ d₁.firstLoEntryFlag = false ∧
      d₁.retiredBag.add malloc m x = some (m', d'.retiredBag) ∧
      d'.savedRetireBagBlockInfo = d₁.savedRetireBagBlockInfo := by
  unfold retire at h
  obtain ⟨⟨f, m₁, d₁⟩, hreclaim, h⟩ := Option.bind_eq_some_iff.mp h
  obtain ⟨⟨m₂, bag⟩, hadd, heq⟩ := Option.bind_eq_some_iff.mp h
  cases heq
  dsimp only at hadd hset
  cases hfirst : d₁.firstLoEntryFlag with
  | true =>
    rw [hfirst, if_pos rfl] at hset
    rw [hset] at hfirst
    cases hfirst
  | false =>
    obtain ⟨rfl, hd₁⟩ := reclaim_cases hreclaim hfirst
    rw [hfirst, if_neg Bool.false_ne_true] at hadd
    exact ⟨d₁, hd₁, hfirst, hadd, rfl⟩

/-- **In a low-watermark period** the bag holds what it held when the bookmark was set, and above
the bookmark what was retired since. -/
theorem Period.marked {m₀ : Mem A T} {d₀ : ThreadData A} {xs : List T}
    (hp : Period malloc m₀ d₀ xs m d) (h : Rep m₀ d₀.retiredBag bs)
    (ho : m₀.Owned (addrs bs + F)) :
    d.firstLoEntryFlag = false ∧ ∃ bs', Leaves m₀ F m d.retiredBag bs' ∧
      Marked d.savedRetireBagBlockInfo bs' (contents bs) ↑xs := by
  -- a call that adds a record in a state of the period
  have hstep : ∀ {m m' : Mem A T} {d : ThreadData A} {bs' : List (A × List T)} {recent x bag},
      Leaves m₀ F m d.retiredBag bs' →
      Marked d.savedRetireBagBlockInfo bs' (contents bs) recent →
      d.retiredBag.add malloc m x = some (m', bag) →
      ∃ bs'', Leaves m₀ F m' bag bs'' ∧
        Marked d.savedRetireBagBlockInfo bs'' (contents bs) (x ::ₘ recent) := by
    intro m m' d bs' recent x bag hl hm hadd
    obtain ⟨m₂, bag₂, bs₂, hadd₂, hl₂, hadded⟩ := hl.rep.add malloc hl.owned x
    obtain ⟨rfl, rfl⟩ := Prod.mk.inj (Option.some.inj (hadd.symm.trans hadd₂))
    exact ⟨bs₂, ⟨hl₂.rep, hl₂.owned, hl.kept.trans hl₂.kept⟩, hm.add hadded⟩
  induction hp with
  | mark hfirst hpast hset =>
    obtain ⟨hbag, hflag, hm⟩ := setLoWmMetaData_spec h hpast hset
    rw [hbag]
    exact ⟨hflag, bs, ⟨h, ho, .refl⟩, hm⟩
  | first hfirst hsettles hset =>
    obtain ⟨fuel, hfuel⟩ := hsettles.exists
    obtain ⟨d₁, hd₁, hflag, hadd, hsaved⟩ := retire_cases hfuel hset
    rw [hsaved]
    obtain rfl | ⟨-, hpast, hd₁⟩ := hd₁
    · rw [hfirst] at hflag
      cases hflag
    · obtain ⟨hbag, -, hm⟩ := setLoWmMetaData_spec h hpast hd₁
      exact ⟨hset, hstep (hbag ▸ ⟨h, ho, .refl⟩) hm hadd⟩
  | next hp hsettles hset ih =>
    obtain ⟨fuel, hfuel⟩ := hsettles.exists
    obtain ⟨hflag, bs', hl, hm⟩ := ih
    obtain ⟨d₁, hd₁, -, hadd, hsaved⟩ := retire_cases hfuel hset
    rw [hsaved]
    obtain rfl | ⟨hfirst, -⟩ := hd₁
    · rw [coe_concat]
      exact ⟨hset, hstep hl hm hadd⟩
    · rw [hflag] at hfirst
      cases hfirst

/-- The bag is valid and the bookmark, if there is one, is in it. -/
structure Valid (m : Mem A T) (d : ThreadData A) (bs : List (A × List T)) : Prop where
  rep : Rep m d.retiredBag bs
  marked : d.firstLoEntryFlag = false →
    ∃ older recent, Marked d.savedRetireBagBlockInfo bs older recent

/-- `retire` returns, and what it does not free is kept. -/
theorem reclaim_spec (malloc : Malloc A) (env : Env T) (h : Valid m d bs)
    (ho : m.Owned (addrs bs + F)) :
    ∃ freed m' d' bs', Settles (fun fuel => reclaim malloc env fuel m d) (freed, m', d') ∧
      Leaves m F m' d'.retiredBag bs' ∧ Valid m' d' bs' ∧
      ↑freed + contents bs' = contents bs := by
  -- what is filtered out is kept
  have hsplit : ∀ s : Multiset T, s.filter (fun x => env.scanned x = false) +
      s.filter (fun x => env.scanned x = true) = s := by
    intro s
    have hnot := Multiset.filter_add_not (fun x => env.scanned x = false) s
    simpa using hnot
  have hleft : Leaves m F m d.retiredBag bs := ⟨h.rep, ho, .refl⟩
  -- out of patience: the whole bag is reclaimed
  cases hout : d.isOutOfPatience m with
  | true =>
    obtain ⟨freed, m', bag', bs', hset, hl, hfreed, hc⟩ :=
      hiWmreclaimFreeable_spec malloc env.scanned h.rep ho
    refine ⟨freed, m', ThreadData.resetLoWmMetaData { d with retiredBag := bag' }, bs', ?_, hl,
      ⟨hl.rep, nofun⟩, ?_⟩
    · filter_upwards [hset] with fuel hfuel
      unfold reclaim
      rw [if_pos hout, hfuel]
      rfl
    · rw [hfreed, hc, hsplit]
  | false =>
    -- the low watermark, or nothing at all
    have hnot : ¬ d.isOutOfPatience m = true := by
      rw [hout]
      exact Bool.false_ne_true
    cases hpast : d.isPastLoWatermark m with
    | false =>
      refine ⟨[], m, d, bs, .of_forall fun fuel => ?_, hleft, h, zero_add _⟩
      unfold reclaim
      rw [if_neg hnot, hpast]
      rfl
    | true =>
      obtain ⟨d₁, henter, hbag, older, recent, hm⟩ : ∃ d₁, d.enterLoWm env.freq m = some d₁ ∧
          d₁.retiredBag = d.retiredBag ∧ ∃ older recent,
            Marked d₁.savedRetireBagBlockInfo bs older recent := by
        cases hfirst : d.firstLoEntryFlag with
        | true =>
          obtain ⟨d₁, hset⟩ := exists_setLoWmMetaData env.freq h.rep
          obtain ⟨hbag, -, hm⟩ := setLoWmMetaData_spec h.rep hpast hset
          refine ⟨d₁, ?_, hbag, _, _, hm⟩
          unfold ThreadData.enterLoWm
          rw [if_pos hfirst, hset]
        | false =>
          refine ⟨d, ?_, rfl, h.marked hfirst⟩
          unfold ThreadData.enterLoWm
          rw [hfirst]
          rfl
      -- a round was announced: the records behind the bookmark are reclaimed
      have h₁ : Rep m d₁.retiredBag bs := by
        rw [hbag]
        exact h.rep
      cases hann : env.announced with
      | false =>
        refine ⟨[], m, d₁, bs, .of_forall fun fuel => ?_, ⟨h₁, ho, .refl⟩,
          ⟨h₁, fun _ => ⟨older, recent, hm⟩⟩, zero_add _⟩
        unfold reclaim
        rw [if_neg hnot, if_pos hpast, henter, Option.bind_eq_bind, Option.bind_some, hann]
        rfl
      | true =>
        obtain ⟨freed, m', bag', bs', hset, hl, hfreed, hc⟩ :=
          loWmreclaimFreeable_spec malloc env.scanned h₁ ho hm
        refine ⟨freed, m', ThreadData.resetLoWmMetaData { d₁ with retiredBag := bag' }, bs', ?_, hl,
          ⟨hl.rep, nofun⟩, ?_⟩
        · filter_upwards [hset] with fuel hfuel
          unfold reclaim
          rw [if_neg hnot, if_pos hpast, henter, Option.bind_eq_bind, Option.bind_some,
            if_pos hann, hfuel]
          rfl
        · rw [hfreed, hc, ← add_assoc, hsplit, hm.contents_eq]

/-- **`retire`** returns. The record is in the bag then, and of the others what was not freed. -/
theorem retire_spec (malloc : Malloc A) (env : Env T) (x : T) (h : Valid m d bs)
    (ho : m.Owned (addrs bs + F)) :
    ∃ freed m' d' bs', Settles (fun fuel => retire malloc env fuel m d x) (freed, m', d') ∧
      Leaves m F m' d'.retiredBag bs' ∧ Valid m' d' bs' ∧
      ↑freed + contents bs' = x ::ₘ contents bs := by
  obtain ⟨freed, m₁, d₁, bs₁, hset, hl₁, hv, hc⟩ := reclaim_spec malloc env h ho
  obtain ⟨m', bag', bs', hadd, hl, hadded⟩ := hl₁.rep.add malloc hl₁.owned x
  have hleaves : Leaves m F m' bag' bs' := ⟨hl.rep, hl.owned, hl₁.kept.trans hl.kept⟩
  have hcontents : ↑freed + contents bs' = x ::ₘ contents bs := by
    rw [hadded.contents, Multiset.add_cons, hc]
  cases hfirst : d₁.firstLoEntryFlag with
  | true =>
    refine ⟨freed, m', { d₁ with retiredBag := bag' }, bs', ?_, hleaves, ⟨hl.rep, ?_⟩, hcontents⟩
    · filter_upwards [hset] with fuel hfuel
      unfold retire
      rw [hfuel, Option.bind_eq_bind, Option.bind_some]
      dsimp only
      rw [if_pos hfirst, hadd]
      rfl
    · intro hflag
      cases hfirst.symm.trans hflag
  | false =>
    refine ⟨freed, m', { d₁ with
        numRetiresSinceLoWatermark := d₁.numRetiresSinceLoWatermark + 1
        retiredBag := bag' }, bs', ?_, hleaves, ⟨hl.rep, fun _ => ?_⟩, hcontents⟩
    · filter_upwards [hset] with fuel hfuel
      unfold retire
      rw [hfuel, Option.bind_eq_bind, Option.bind_some]
      dsimp only
      rw [hfirst, if_neg Bool.false_ne_true, hadd]
      rfl
    · obtain ⟨older, recent, hm⟩ := hv.marked hfirst
      exact ⟨older, x ::ₘ recent, hm.add hadded⟩

/-- **No record is lost**: whatever a thread retires one after the other is freed once or in the bag
once. -/
theorem retireAll_spec (malloc : Malloc A) (calls : List (Env T × T)) (h : Valid m d bs)
    (ho : m.Owned (addrs bs + F)) :
    ∃ freed m' d' bs', Settles (fun fuel => retireAll malloc fuel m d calls) (freed, m', d') ∧
      Leaves m F m' d'.retiredBag bs' ∧ Valid m' d' bs' ∧
      ↑freed + contents bs' = contents bs + ↑(calls.map Prod.snd) := by
  induction calls generalizing m d bs with
  | nil => exact ⟨[], m, d, bs, .of_forall fun _ => rfl, ⟨h.rep, ho, .refl⟩, h, by simp⟩
  | cons call calls ih =>
    obtain ⟨env, x⟩ := call
    obtain ⟨freed₁, m₁, d₁, bs₁, hset₁, hl₁, hv₁, hc₁⟩ := retire_spec malloc env x h ho
    obtain ⟨freed, m', d', bs', hset, hl, hv, hc⟩ := ih hv₁ hl₁.owned
    refine ⟨freed₁ ++ freed, m', d', bs', ?_, ⟨hl.rep, hl.owned, hl₁.kept.trans hl.kept⟩, hv, ?_⟩
    · filter_upwards [hset₁, hset] with fuel hfuel₁ hfuel
      rw [retireAll, hfuel₁, Option.bind_eq_bind, Option.bind_some]
      dsimp only
      rw [hfuel]
      rfl
    · rw [← Multiset.coe_add, add_assoc, hc, ← add_assoc, hc₁, List.map_cons, ← Multiset.cons_coe,
        Multiset.cons_add, Multiset.add_cons]

/-- **The low watermark.** In every state of a low-watermark period, and for all reservations,
`LoWmreclaimFreeable` returns. It frees exactly the records that were in the bag when the bookmark
was set and are not reserved, and keeps all others, each as often as it was there. -/
theorem loWm_partition (scanned : T → Bool) {m₀ : Mem A T} {d₀ : ThreadData A} {xs : List T}
    (hp : Period malloc m₀ d₀ xs m d) (h : Rep m₀ d₀.retiredBag bs)
    (ho : m₀.Owned (addrs bs + F)) :
    ∃ freed m' bag' bs',
      Settles (fun fuel => loWmreclaimFreeable malloc scanned fuel m d)
        (freed, m', { d with retiredBag := bag' }) ∧ Leaves m₀ F m' bag' bs' ∧
      (↑freed : Multiset T) = (contents bs).filter (fun x => scanned x = false) ∧
      contents bs' = (contents bs).filter (fun x => scanned x = true) + ↑xs := by
  obtain ⟨-, bs₁, hl₁, hm⟩ := hp.marked h ho
  obtain ⟨freed, m', bag', bs', hset, hl, hfreed, hc⟩ :=
    loWmreclaimFreeable_spec malloc scanned hl₁.rep hl₁.owned hm
  exact ⟨freed, m', bag', bs', hset, ⟨hl.rep, hl.owned, hl₁.kept.trans hl.kept⟩, hfreed, hc⟩

end

/-- A thread with three records in its bag, which is more than half full. -/
def halfFull : ThreadData ℕ := ⟨oneBlock, 4, ⟨none, -1⟩, true, 0, 2⟩

/-- The bookmark is set, and a record is retired. -/
theorem loWm_partition_first : ∃ (m : Mem ℕ ℕ) (d : ThreadData ℕ) (freed : List ℕ) (m' : Mem ℕ ℕ)
    (bag' : Bag ℕ) (bs' : List (ℕ × List ℕ)), Period numbers threeElements halfFull [3] m d ∧
      Settles (fun fuel => loWmreclaimFreeable numbers (· == 1) fuel m d)
        (freed, m', { d with retiredBag := bag' }) ∧ Leaves threeElements 0 m' bag' bs' ∧
      (↑freed : Multiset ℕ) = {0, 2} ∧ contents bs' = {1, 3} := by
  obtain ⟨⟨freed₀, m, d⟩, hretire, hset⟩ : ∃ r,
      Settles (fun fuel => retire numbers ⟨fun _ => false, false, 2⟩ fuel threeElements halfFull 3)
        r ∧ r.2.2.firstLoEntryFlag = false := ⟨_, .of_forall fun _ => rfl, rfl⟩
  have hp : Period numbers threeElements halfFull [3] m d := .first rfl hretire hset
  obtain ⟨freed, m', bag', bs', hreclaim, hl, hfreed, hc⟩ :=
    loWm_partition (· == 1) hp oneBlock_rep oneBlock_owned
  refine ⟨m, d, freed, m', bag', bs', hp, hreclaim, hl, ?_, ?_⟩
  · rw [hfreed]
    decide
  · rw [hc]
    decide

end NbrPlus
end PopSetbench

import CacheNode.Proofs.Batches
import CacheNode.Proofs.MakingRoom
import CacheNode.Proofs.Scripts
import CacheNode.Proofs.Usage

/-!
# CacheNode — batch writes are all or nothing

A batch write at a partition ends in one of five ways. It is refused for its first invalid item, or
because the partition was deleted, or for the first of its keys that does not meet the condition of
the write; it waits for room because its growth does not fit the budget; or all of it is written.
The cases exclude each other, so each of them tells when it comes about. In all but the last nothing
has changed.

* `Partition.plan_decides` — everything that is decided before anything is written;
* `Site.BatchEnds` — how a batch write ends;
* `Site.writeMany_ends` — it ends in one of these ways, where counters are true.
-/

namespace CacheNode

namespace Partition

/-- A batch passes everything that is checked before it asks for room. -/
structure Takes (p : Partition) (items : List (Bytes × Bytes)) (mode : PutMode) (now : Millis) :
    Prop where
  valid : ∀ item ∈ items, p.checkItem item = .ok ()
  inUse : p.retired = false
  meets : ∀ item ∈ lastOccurrences items, p.checkCondition mode (p.expiry now) item.1 = .ok ()

/-- Items come first, then the partition, and then the keys, each of them once. -/
theorem plan_decides (p : Partition) (items : List (Bytes × Bytes)) (mode : PutMode)
    (now : Millis) :
    (∃ err, FirstError p.checkItem items err ∧ p.plan items mode now = .error err) ∨
      ((∀ item ∈ items, p.checkItem item = .ok ()) ∧ p.retired = true ∧
        p.plan items mode now = .error .partitionDoesNotExist) ∨
      ((∀ item ∈ items, p.checkItem item = .ok ()) ∧ p.retired = false ∧
        ∃ err, FirstError (fun item => p.checkCondition mode (p.expiry now) item.1)
            (lastOccurrences items) err ∧
          p.plan items mode now = .error err) ∨
      (p.Takes items mode now ∧ ∃ plan, p.plan items mode now = .ok plan) := by
  cases hitems : checkEach p.checkItem items with
  | error err =>
    exact .inl ⟨err, checkEach_eq_error_iff.1 hitems, by simp only [plan, hitems]⟩
  | ok _ =>
    have hpassed := checkEach_eq_ok_iff.1 hitems
    cases hretired : p.retired with
    | true =>
      exact .inr (.inl ⟨hpassed, rfl, by simp only [plan, hitems, checkInUse_of_retired hretired]⟩)
    | false =>
      have huse : p.checkInUse = .ok () := checkInUse_of_inUse hretired
      cases hkeys : checkEach (fun item : Bytes × Bytes =>
          p.checkCondition mode (p.expiry now) item.1) (lastOccurrences items) with
      | error err =>
        refine .inr (.inr (.inl ⟨hpassed, rfl, err, checkEach_eq_error_iff.1 hkeys, ?_⟩))
        simp only [plan, hitems, huse, hkeys]
      | ok _ =>
        refine .inr (.inr (.inr ⟨⟨hpassed, hretired, checkEach_eq_ok_iff.1 hkeys⟩, ?_⟩))
        simp only [plan, hitems, huse, hkeys]
        exact ⟨_, rfl⟩

end Partition

namespace Site

open Account (Others)

/-- How a batch write ends, and where. Of a repeated key the last occurrence counts, and the batch
is in the order of these. -/
inductive BatchEnds (s : Site) (o : Others) (items : List (Bytes × Bytes)) (mode : PutMode)
    (now : Millis) : Except CacheError (Admission Nat) × Site → Prop where
  /-- an item is invalid, and it is the first one -/
  | invalid {err : CacheError} (hitem : FirstError s.part.checkItem items err) :
      BatchEnds s o items mode now (.error err, s)
  /-- the partition was deleted -/
  | retired (hitems : ∀ item ∈ items, s.part.checkItem item = .ok ())
      (hretired : s.part.retired = true) :
      BatchEnds s o items mode now (.error .partitionDoesNotExist, s)
  /-- a key does not meet the condition, and it is the first one -/
  | unmet {err : CacheError} (hitems : ∀ item ∈ items, s.part.checkItem item = .ok ())
      (huse : s.part.retired = false)
      (hkey : FirstError (fun item => s.part.checkCondition mode (s.part.expiry now) item.1)
        (lastOccurrences items) err) :
      BatchEnds s o items mode now (.error err, s)
  /-- the bytes that the batch adds do not fit the budget -/
  | waits {bytes : ByteCount} (htakes : s.part.Takes items mode now)
      (hbytes : bytes.toNat = s.part.growth items) (hgrows : 0 < s.part.growth items)
      (hover : s.budget < s.drawn o + s.part.growth items) :
      BatchEnds s o items mode now (.ok (.needsRoom bytes), s)
  /-- the batch adds no bytes, or they fit; all of it is written and announced, and nothing else -/
  | done {t : Site} (htakes : s.part.Takes items mode now)
      (hfits : s.part.growth items = 0 ∨ s.drawn o + s.part.growth items ≤ s.budget)
      (hwritten : ∀ item ∈ lastOccurrences items,
        t.part.entries.get? item.1 = some (fresh now s item))
      (hothers : ∀ key, key ∉ items.map Prod.fst →
        t.part.entries.get? key = s.part.entries.get? key)
      (hannounced : s.Announces ((lastOccurrences items).flatMap (s.notices now)) t) :
      BatchEnds s o items mode now
        (.ok (.done (items.map Prod.fst).toFinset.card), t)

variable {s : Site} {o : Others} {items : List (Bytes × Bytes)} {mode : PutMode} {now : Millis}

/-- Admitting bytes is not announced, and entries are met as they were. -/
theorem notices_grow {grown : Site} {bytes : ByteCount} (h : s.grow bytes = some grown) :
    grown.notices now = s.notices now := by
  obtain ⟨a, -, rfl⟩ := grow_eq_some h
  rfl

theorem announces_grow {grown : Site} {bytes : ByteCount} (h : s.grow bytes = some grown) :
    s.Announces [] grown := by
  have hcounted := removals_grow h
  obtain ⟨a, -, rfl⟩ := grow_eq_some h
  exact announces_nil rfl rfl rfl hcounted

/-- A batch that is committed is announced in its order, and nothing else is. -/
theorem announces_commit {plan : WritePlan} {grown : Site} {growth : ByteCount}
    (hplan : s.part.plan items mode now = .ok plan) (hgrown : s.grow growth = some grown) :
    s.Announces ((lastOccurrences items).flatMap (s.notices now)) (commit now plan grown) := by
  obtain ⟨-, -, -, hbatch⟩ := plan_eq_ok hplan
  have hkept : plan.batch = lastOccurrences items := by rw [hbatch]
  have hwritten := announces_foldl_writeOne now (lastOccurrences items) grown
    (nodup_lastOccurrences items)
  rw [notices_grow hgrown, ← hkept] at hwritten
  -- giving bytes back at the end is nobody's business, and neither is their admission
  have hshrunk : (plan.batch.foldl (writeOne now) grown).Announces [] (commit now plan grown) :=
    announces_nil rfl rfl rfl rfl
  have hall := ((announces_grow hgrown).trans hwritten).trans hshrunk
  rwa [List.nil_append, List.append_nil, hkept] at hall

/-- A batch that passes its checks waits for room or is written, as its growth fits or not. -/
theorem writeMany_of_takes {plan : WritePlan} (h : s.Balanced o)
    (hfit : s.part.bytes + s.part.growth items < UInt64.size)
    (htakes : s.part.Takes items mode now) (hplan : s.part.plan items mode now = .ok plan) :
    s.BatchEnds o items mode now (s.writeMany items mode now) := by
  obtain ⟨-, -, -, hbatch⟩ := plan_eq_ok hplan
  have hgrowth : plan.newBytes - plan.oldBytes = s.part.growth items := by
    rw [hbatch]
    rfl
  have hword : (UInt64.ofNat (s.part.growth items)).toNat = s.part.growth items :=
    UInt64.toNat_ofNat_of_lt' (by omega)
  have hrefused : s.grow (UInt64.ofNat (s.part.growth items)) = none ↔ _ :=
    grow_eq_none_iff h.weighed (by omega)
  rw [hword] at hrefused
  cases hgrow : s.grow (UInt64.ofNat (s.part.growth items)) with
  | none =>
    obtain ⟨hzero, hover⟩ := hrefused.1 hgrow
    have hgrows : 0 < s.part.growth items := by
      apply Nat.pos_of_ne_zero
      intro hnothing
      rw [hnothing] at hzero
      exact hzero rfl
    simp only [writeMany, hplan, hgrowth, hgrow]
    exact .waits htakes hword hgrows hover
  | some grown =>
    have hfits : s.part.growth items = 0 ∨ s.drawn o + s.part.growth items ≤ s.budget := by
      by_contra hover
      obtain ⟨hgrows, hover⟩ := not_or.1 hover
      have hnone := hrefused.2 ⟨fun hnothing => hgrows ?_, by omega⟩
      · rw [hgrow] at hnone
        cases hnone
      · rw [← hword, hnothing]
        rfl
    have hcount : plan.batch.length = (items.map Prod.fst).toFinset.card := by
      rw [hbatch]
      exact card_lastOccurrences items
    have hothers := (attempt_writeMany items mode now).others s
    simp only [writeMany, hplan, hgrowth, hgrow, hcount] at hothers ⊢
    exact .done htakes hfits (fun item hitem => get?_commit hplan hgrow hitem) hothers
      (announces_commit hplan hgrow)

/-- A batch write is all or nothing. Where counters are true, and the bytes of the partition with
the batch are a word, it is refused for the first reason there is, it waits for room if its growth
does not fit the budget, or it writes the last payload of each key and announces just that. -/
theorem writeMany_ends (h : s.Balanced o)
    (hfit : s.part.bytes + s.part.growth items < UInt64.size) (mode : PutMode) (now : Millis) :
    s.BatchEnds o items mode now (s.writeMany items mode now) := by
  rcases s.part.plan_decides items mode now with ⟨err, hitem, hplan⟩ |
    ⟨hitems, hretired, hplan⟩ | ⟨hitems, huse, err, hkey, hplan⟩ | ⟨htakes, plan, hplan⟩
  · simp only [writeMany, hplan]
    exact .invalid hitem
  · simp only [writeMany, hplan]
    exact .retired hitems hretired
  · simp only [writeMany, hplan]
    exact .unmet hitems huse hkey
  · exact writeMany_of_takes h hfit htakes hplan

end Site

namespace Node

/-- A partition of twenty bytes whose entries expire a hundred milliseconds after they were read or
written. -/
def fleeting : List Operation :=
  [ .putPartition [112]
      { createDate := (bare {}).today, interval := 100, maxCacheSize := 20 },
    .put .upsert [112] [97] [1, 2, 3] 1,
    .put .upsert [112] [98] [1, 2, 3, 4, 5, 6, 7] 120 ]

/-- The partition in the end. -/
def fleetingSite : Site :=
  (performAll fleeting (bare {})).2.site ((performAll fleeting (bare {})).2.target [112])

theorem balanced_fleetingSite :
    fleetingSite.Balanced ((performAll fleeting (bare {})).2.others [112]) :=
  Reaches.balanced_site (fresh_bare {})
    (Reaches.start.performAll fleeting ⟨by decide, by decide, by decide, trivial⟩) rfl

/-- A batch that names one key twice, and another one whose entry has expired, is written as two
items, and three events tell of it. A batch that is too large waits for the bytes that it adds. -/
theorem writeMany_ends_fleeting :
    fleetingSite.Announces
        [⟨[97], none, .expire⟩, ⟨[97], some [9], .write⟩, ⟨[100], some [1, 2], .write⟩]
        (fleetingSite.writeMany [([100], [1]), ([97], [9]), ([100], [1, 2])] .ifNotExists
          150).2 ∧
      fleetingSite.writeMany [([98], List.replicate 16 7)] .upsert 150 =
        (.ok (.needsRoom 9), fleetingSite) := by
  constructor
  · have hends : fleetingSite.BatchEnds _ [([100], [1]), ([97], [9]), ([100], [1, 2])]
        .ifNotExists 150 _ :=
      Site.writeMany_ends balanced_fleetingSite (by decide) .ifNotExists 150
    have hdone : (fleetingSite.writeMany [([100], [1]), ([97], [9]), ([100], [1, 2])]
      .ifNotExists 150).1 = .ok (.done 2) := by cbv
    generalize fleetingSite.writeMany _ _ _ = result at hends hdone ⊢
    cases hends with
    | invalid hitem => cases hdone
    | retired hitems hretired => cases hdone
    | unmet hitems huse hkey => cases hdone
    | waits htakes hbytes hgrows hover => cases hdone
    | done htakes hfits hwritten hothers hannounced => exact hannounced
  · have hends : fleetingSite.BatchEnds _ [([98], List.replicate 16 7)] .upsert 150 _ :=
      Site.writeMany_ends balanced_fleetingSite (by decide) .upsert 150
    have hneeds : (fleetingSite.writeMany [([98], List.replicate 16 7)] .upsert 150).1 =
        .ok (.needsRoom 9) := by cbv
    generalize fleetingSite.writeMany _ _ _ = result at hends hneeds ⊢
    cases hends with
    | invalid hitem => cases hneeds
    | retired hitems hretired => cases hneeds
    | unmet hitems huse hkey => cases hneeds
    | waits htakes hbytes hgrows hover => exact Prod.ext hneeds rfl
    | done htakes hfits hwritten hothers hannounced => cases hneeds

end Node

end CacheNode

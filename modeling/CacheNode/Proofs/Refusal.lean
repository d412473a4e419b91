import CacheNode.Proofs.Counts
import CacheNode.Proofs.Isolation

/-!
# CacheNode — refused writes

A write that is refused for lack of room writes nothing, but its rounds of eviction are not undone:
whether they free enough is only found out by the next attempt, and after sixteen attempts the
write gives up. So of a refused write entries may be gone in the partitions that it may touch.
They are not if the partition that is written to never evicts, or if the write asks for more than
the whole budget that it draws from; then nothing is evicted at all.

* `Node.budget`, `Node.MayEvict` — when a write may evict, and where;
* `Node.refused_write_keeps` — what a refused write keeps;
* `Node.crowded` — a partition in which sixteen rounds are not enough.
-/

namespace CacheNode.Node

/-- The budget that a partition draws from: its own, or the part that all others share. -/
def budget (n : Node) (p : Partition) : ByteCount :=
  if p.isBounded then p.bound else n.totals.unreservedBudget

/-- Whether a write to a name may evict from a partition: the one that is written to evicts, what
the write asks for first does not exceed the whole budget, and the partition may be touched. -/
structure MayEvict (n : Node) (op : Operation) (name other : Bytes) : Prop where
  evicts  : (n.target name).metadata.evicts = true
  fits    : op.need (n.target name) ≤ n.budget (n.target name)
  touches : n.Touches name other

variable {n m : Node} {name other : Bytes} {p q : Partition} {now : Millis} {α : Type}
  {keys : List Bytes} {write : Site → Except CacheError (Admission α) × Site}

-- ---------------------------------------------------------------------------
-- Refused attempts
-- ---------------------------------------------------------------------------

/-- Attempts that wait for room and rounds of eviction lose entries at most. -/
theorem thinned_of_refused {shortage : Shortage} (hwrite : Site.Attempt now keys write)
    (hn : n.WellFormed)
    (hrefused : (n.accept name now write).1 = .error (.insufficientCapacity shortage)) :
    n.Thinned (n.accept name now write).2 := by
  obtain ⟨m, ⟨-, hthin⟩, hends⟩ := accept_ends hwrite hn name
  rw [hends.eq_of_refused hwrite hrefused]
  exact hthin

/-- If the partition never evicts, or the first attempt asks for more than the budget, the first
attempt is the only one, and nothing is evicted. -/
theorem accept_of_blocked {bytes : ByteCount} (now : Millis) (hwrite : Site.Writing write)
    (hn : n.WellFormed) (hp : n.find? name = some p)
    (hneeds : (write (n.site p)).1 = .ok (.needsRoom bytes))
    (hblocked : p.evicts = false ∨ n.budget p < bytes) :
    (n.accept name now write).2 = n.settle (write (n.site p)).2 := by
  have hsettings := hwrite.settings (n.site p)
  have hfind := find?_attempt hwrite hn hp
  -- attempts make no reservations, so the budget is what it was
  obtain ⟨limit, hsteps⟩ := steps_attempt hwrite (n.site p)
  have hbudget : (write (n.site p)).2.totals.unreservedBudget = n.totals.unreservedBudget := by
    have hdivision := hsteps.division
    simp only [Site.division, Prod.mk.injEq] at hdivision
    rw [Totals.unreservedBudget, Totals.unreservedBudget, hdivision.1, hdivision.2]
    rfl
  have hroom : (n.settle (write (n.site p)).2).makeRoom name bytes now =
      (false, n.settle (write (n.site p)).2) := by
    have hevicts : (write (n.site p)).2.part.evicts = p.evicts := Partition.evicts_eq hsettings
    have hbound : (write (n.site p)).2.part.bound = p.bound := Partition.bound_eq hsettings
    have htotals : (n.settle (write (n.site p)).2).totals = (write (n.site p)).2.totals := rfl
    simp only [makeRoom, hfind, hevicts, Partition.isBounded, hbound, htotals, hbudget]
    exact if_pos hblocked
  simp only [accept, attempts, tryWrite, visit, hp, Option.map_some, act, hneeds, hroom]
  rfl

/-- A write is only refused for lack of room if its first attempt was. -/
theorem needsRoom_of_refused {shortage : Shortage} (hwrite : Site.Attempt now keys write)
    (hp : n.find? name = some p)
    (hrefused : (n.accept name now write).1 = .error (.insufficientCapacity shortage)) :
    ∃ bytes, (write (n.site p)).1 = .ok (.needsRoom bytes) := by
  simp only [accept, attempts, tryWrite, visit, hp, Option.map_some, act] at hrefused
  cases hresult : (write (n.site p)).1 with
  | error err =>
    simp only [hresult] at hrefused
    obtain rfl : err = .insufficientCapacity shortage := Except.error.inj hrefused
    exact absurd hresult (hwrite.honest _ _)
  | ok admission =>
    cases admission with
    | done a => simp [hresult] at hrefused
    | needsRoom bytes => exact ⟨bytes, rfl⟩

-- ---------------------------------------------------------------------------
-- What a refused write keeps
-- ---------------------------------------------------------------------------

theorem budget_entered (n : Node) (name : Bytes) (p : Partition) :
    (n.entered name).budget p = n.budget p := by
  unfold entered
  split <;> rfl

/-- Without rounds of eviction a refused write keeps everything that is live. -/
theorem kept_of_blocked {bytes : ByteCount} {key : Bytes} {e : Entry}
    (hwrite : Site.Attempt now keys write) (hn : n.WellFormed) (hp : n.find? name = some p)
    (hneeds : (write (n.site p)).1 = .ok (.needsRoom bytes))
    (hblocked : p.evicts = false ∨ n.budget p < bytes) (hq : n.find? other = some q)
    (he : q.entries.get? key = some e) (hlive : e.isExpired (q.expiry now) = false) :
    ∃ r, (n.accept name now write).2.find? other = some r ∧ r.entries.get? key = some e := by
  rw [accept_of_blocked now hwrite.toWriting hn hp hneeds hblocked]
  by_cases hsame : other = name
  · subst hsame
    rw [hp] at hq
    obtain rfl : p = q := Option.some.inj hq
    exact ⟨_, find?_attempt hwrite.toWriting hn hp, hwrite.loses _ _ hneeds key e he hlive⟩
  · exact ⟨q, (find?_attempt_of_ne hwrite.toWriting hn hp hsame).trans hq, he⟩

/-- A live entry that a refused sequence of attempts loses has been evicted. -/
theorem mayEvict_of_lost {op : Operation} {shortage : Shortage} {key : Bytes} {e : Entry}
    (hn : n.WellFormed) (hname : PartitionName.Valid name)
    (hwrite : Site.Attempt now keys write)
    (hneed : ∀ s bytes, (write s).1 = .ok (.needsRoom bytes) → bytes = op.need s.part)
    (hrefused :
      ((n.entered name).accept name now write).1 = .error (.insufficientCapacity shortage))
    (hq : (n.entered name).find? other = some q) (he : q.entries.get? key = some e)
    (hlive : e.isExpired (q.expiry now) = false)
    (hlost : ∀ r, ((n.entered name).accept name now write).2.find? other = some r →
      r.entries.get? key = none) : n.MayEvict op name other := by
  have hentered := entered_wellFormed hn hname
  have htarget := find?_entered n name
  obtain ⟨bytes, hneeds⟩ := needsRoom_of_refused hwrite htarget hrefused
  obtain rfl : bytes = op.need (n.target name) := hneed _ bytes hneeds
  -- had nothing been evicted, the refused attempt would have been all
  have hopen : ¬ ((n.target name).evicts = false ∨
      n.budget (n.target name) < op.need (n.target name)) := by
    rw [← budget_entered n name]
    intro hblocked
    obtain ⟨r, hr, hkept⟩ := kept_of_blocked hwrite hentered htarget hneeds hblocked hq he hlive
    rw [hlost r hr] at hkept
    cases hkept
  obtain ⟨hevicts, hfits⟩ := not_or.1 hopen
  refine ⟨?_, UInt64.not_lt.1 hfits, ?_⟩
  · rw [← (hentered _ _ htarget).evicts]
    simpa using hevicts
  · -- whatever may not be touched is the same as before
    by_contra huntouched
    obtain ⟨-, hconfined⟩ := confined_accept now hwrite.toWriting hn hname
    have hgone := hlost q ((hconfined.others other huntouched).trans hq)
    rw [he] at hgone
    cases hgone

/-- A live entry is kept by a refused sequence of attempts, or it was evicted. -/
theorem kept_of_refused {op : Operation} {shortage : Shortage} {key : Bytes} {e : Entry}
    (hn : n.WellFormed) (hname : PartitionName.Valid name)
    (hwrite : Site.Attempt now keys write)
    (hneed : ∀ s bytes, (write s).1 = .ok (.needsRoom bytes) → bytes = op.need s.part)
    (hrefused :
      ((n.entered name).accept name now write).1 = .error (.insufficientCapacity shortage))
    (hq : n.find? other = some q) (he : q.entries.get? key = some e)
    (hlive : e.isExpired (q.expiry now) = false) :
    ∃ r, ((n.entered name).accept name now write).2.find? other = some r ∧
      r.settings = q.settings ∧
      (r.entries.get? key = some e ∨ r.entries.get? key = none ∧ n.MayEvict op name other) := by
  have hq' : (n.entered name).find? other = some q := find?_entered_of_find? hq
  have hthin := thinned_of_refused hwrite (entered_wellFormed hn hname) hrefused
  obtain ⟨r, hr, hsettings, hentries⟩ := hthin other q hq'
  refine ⟨r, hr, hsettings, ?_⟩
  cases hget : r.entries.get? key with
  | some f =>
    -- what is left is what was there
    have hf := hentries key f hget
    rw [he] at hf
    exact .inl (congrArg some (Option.some.inj hf).symm)
  | none =>
    refine .inr ⟨rfl, mayEvict_of_lost hn hname hwrite hneed hrefused hq' he hlive ?_⟩
    intro s hs
    rw [hr] at hs
    obtain rfl : r = s := Option.some.inj hs
    exact hget

/-- Every entry that a refused sequence of attempts leaves was there before it. -/
theorem old_of_refused {shortage : Shortage} {r : Partition} {key : Bytes} {e : Entry}
    (hn : n.WellFormed) (hname : PartitionName.Valid name)
    (hwrite : Site.Attempt now keys write)
    (hrefused :
      ((n.entered name).accept name now write).1 = .error (.insufficientCapacity shortage))
    (hr : ((n.entered name).accept name now write).2.find? other = some r)
    (he : r.entries.get? key = some e) :
    ∃ q, n.find? other = some q ∧ q.entries.get? key = some e := by
  obtain ⟨-, hconfined⟩ := confined_accept now hwrite.toWriting hn hname
  obtain ⟨q, hq, -⟩ := hconfined.settings_of_find?' hr
  have hthin := thinned_of_refused hwrite (entered_wellFormed hn hname) hrefused
  obtain ⟨s, hs, -, hentries⟩ := hthin other q hq
  rw [hr] at hs
  obtain rfl : r = s := Option.some.inj hs
  have hold := hentries key e he
  exact ⟨q, find?_of_entered hq hold, hold⟩

/-- Two partitions that share twenty bytes, of which the one that never evicts holds twelve. -/
def cornered : Node :=
  (performAll
    [ .putPartition [113] { createDate := (bare {}).today, policy := .noEviction },
      .put .upsert [113] [97] [1, 2, 3, 4, 5, 6, 7, 8, 9, 10, 11] 1,
      .put .upsert [112] [97] [1, 2, 3, 4] 2 ] (bare { maxCacheSize := 20 })).2

/-- A partition with a bound of 580 bytes. Sixteen small entries are its oldest, and the youngest
one takes up most of the bound. -/
def crowded : Node :=
  (performAll
    (.putPartition [112] { createDate := (bare {}).today, maxCacheSize := 580 } ::
      ((List.range 16).map fun i =>
        .put .upsert [112] [UInt8.ofNat (97 + i)] [1] (UInt64.ofNat (i + 1))) ++
      [.put .upsert [112] [122] (List.replicate 547 0) 17])
    (bare { keyEvictionSamples := 1000 })).2

/-- A write of 33 bytes to the crowded partition, which is less than its bound. -/
def crowdingWrite : Operation := .put .upsert [112] [123] (List.replicate 32 0) 18

theorem reachable_crowded : crowded.Reachable :=
  (reachable_bare _).performAll _ (by decide)

set_option maxRecDepth 20000 in
theorem find?_crowded :
    ∃ p, crowded.find? [112] = some p ∧
      p.metadata = { createDate := (bare {}).today, maxCacheSize := 580 } ∧
      p.tally.totalSize = 580 ∧ p.entries.get? [97] = some ⟨[1], 1⟩ := by
  have hparts : (crowded.find? [112]).map (fun p =>
      (p.metadata, p.tally.totalSize, p.entries.get? [97])) =
      some ({ createDate := (bare {}).today, maxCacheSize := 580 }, 580, some ⟨[1], 1⟩) := by cbv
  obtain ⟨p, hp, hsame⟩ := Option.map_eq_some_iff.1 hparts
  simp only [Prod.mk.injEq] at hsame
  exact ⟨p, hp, hsame⟩

set_option maxRecDepth 20000 in
/-- Each round evicts the oldest entry, and after sixteen rounds the write is given up. -/
theorem crowdingWrite_refused :
    (crowded.perform crowdingWrite).1 = .error (.insufficientCapacity (.write [112] 33)) ∧
      ((crowded.perform crowdingWrite).2.find? [112]).map (·.entries.keys) = some [[122]] := by
  constructor
  · cbv
  · cbv

end CacheNode.Node

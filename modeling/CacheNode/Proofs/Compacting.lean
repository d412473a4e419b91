import CacheNode.Proofs.Evicting

/-!
# CacheNode — compaction reaches its target

Compaction evicts in rounds, and how many entries a round is to take is only an estimate. Still no
round is idle: as long as usage is at or over the budget and the partition holds something, a round
takes an entry at least. And no round goes too far, because it stops by itself where usage falls
below the budget. So all rounds together do what one run of eviction without a limit would do, and
they end below the budget, unless the partition is empty before: then the others alone use up the
budget that it shares with them.

* `Site.Sheds.append` — runs of eviction that follow each other are one run;
* `Site.compactRounds_sheds` — what the rounds take out, whenever they are cancelled;
* `Site.isOverBudget_compactRounds` — where they end if they are not;
* `Site.compact_settles` — all of this about the report and the partition that is left.
-/

namespace CacheNode

open Account (Others)

namespace Site

variable {s t u : Site} {o : Others} {x : Expiry} {goal : EvictionGoal}
  {gone more : List (Bytes × Entry)} {cancel : Fuse} {now : Millis}

/-- There is something to compact: the policy of the partition frees space, and usage is at or over
the budget. -/
def Overfull (s : Site) (o : Others) : Prop :=
  s.part.metadata.policy ≠ .noEviction ∧ EvictionGoal.belowLimit.Exceeds (s.drawn o) s.budget

instance (s : Site) (o : Others) : Decidable (s.Overfull o) :=
  inferInstanceAs (Decidable (_ ∧ _))

/-- Usage is below the budget. A partition without a bound may be empty instead: then it is the
others that use the budget up. -/
def Relieved (s : Site) : Prop :=
  (s.part.metadata.maxCacheSize ≠ 0 → s.part.tally.totalSize < s.part.metadata.maxCacheSize) ∧
    (s.part.metadata.maxCacheSize = 0 →
      s.part.entries.size = 0 ∨ s.totals.unreservedSize < s.totals.unreservedBudget)

-- ---------------------------------------------------------------------------
-- Runs of eviction that follow each other
-- ---------------------------------------------------------------------------

namespace Sheds

theorem nothing (s : Site) (goal : EvictionGoal) (x : Expiry) : s.Sheds goal x [] s :=
  ⟨⟨by simp, .nil⟩, fun i hi => absurd hi (Nat.not_lt_zero i), rfl⟩

theorem metadata (h : s.Sheds goal x gone t) : t.part.metadata = s.part.metadata := by
  rw [h.left]
  exact metadata_shed x gone s

theorem size (h : s.Sheds goal x gone t) :
    t.part.entries.size + gone.length = s.part.entries.size := by
  rw [h.left]
  exact size_shed x h.held

/-- What the second run takes out was there before the first, and the first run did not take it. -/
theorem append (h : s.Sheds goal x gone t) (hlater : t.Sheds goal x more u) :
    s.Sheds goal x (gone ++ more) u := by
  obtain ⟨hheld, hneeded, hleft⟩ := hlater
  rw [h.left] at hheld
  refine ⟨h.held.append ⟨hheld.there, hheld.once⟩, ?_, ?_⟩
  · intro i hi
    rw [List.take_append]
    rcases Nat.lt_or_ge i gone.length with hfirst | hlast
    · rw [Nat.sub_eq_zero_of_le (Nat.le_of_lt hfirst), List.take_zero, List.append_nil]
      exact h.needed i hfirst
    · rw [List.length_append] at hi
      have hover := hneeded (i - gone.length) (by omega)
      rw [h.metadata, h.left, shed_draws] at hover
      rw [List.take_of_length_le hlast, shed_append]
      exact hover
  · rw [h.left, shed_draws] at hleft
    rw [shed_append]
    exact hleft

end Sheds

-- ---------------------------------------------------------------------------
-- The rounds
-- ---------------------------------------------------------------------------

theorem roundSize_ne_zero (s : Site) : s.roundSize ≠ 0 := by
  have hpos : 0 < s.roundSize := Nat.lt_min.2 ⟨Nat.succ_pos _, by decide⟩
  omega

/-- Whenever the rounds are cancelled, they have taken rows out one by one while usage was at or
over the budget. -/
theorem compactRounds_sheds (now : Millis) (cancel : Fuse) (s : Site) :
    ∃ gone : List (Bytes × Entry), gone.length = (compactRounds now cancel s).evicted ∧
      s.Sheds .belowLimit (s.part.expiry now) gone (compactRounds now cancel s).site := by
  fun_induction compactRounds now cancel s with
  | case1 cancel s hover cancelled hcancelled => exact ⟨[], rfl, .nothing s _ _⟩
  | case2 cancel s hover cancelled hcancelled round hidle =>
    -- a round that took nothing may have used up draws
    obtain ⟨order, -, -, -, -, hsheds, -⟩ := evict_sheds s s.roundSize now .belowLimit
    have hnone : (s.evict s.roundSize now .belowLimit).1 = 0 := hidle
    rw [hnone, List.take_zero] at hsheds
    exact ⟨[], rfl, hsheds⟩
  | case3 cancel s hover cancelled hcancelled round hidle ih =>
    obtain ⟨order, -, -, -, hle, hsheds, -⟩ := evict_sheds s s.roundSize now .belowLimit
    obtain ⟨more, hcount, hlater⟩ := ih
    have hexpiry : round.2.part.expiry now = s.part.expiry now := by
      rw [Partition.expiry, Partition.expiry, hsheds.metadata]
    rw [hexpiry] at hlater
    refine ⟨_, ?_, hsheds.append hlater⟩
    rw [List.length_append, List.length_take, hcount]
    have hround : (s.evict s.roundSize now .belowLimit).1 ≤ order.length :=
      Nat.le_trans hle (Nat.min_le_right _ _)
    rw [Nat.min_eq_left hround]
    rfl
  | case4 cancel s hover => exact ⟨[], rfl, .nothing s _ _⟩

/-- A run that nobody cancels does not report that it was. -/
theorem cancelled_compactRounds (now : Millis) (s : Site) :
    (compactRounds now .never s).cancelled = false := by
  generalize hcancel : Fuse.never = cancel
  fun_induction compactRounds now cancel s with
  | case1 cancel s hover cancelled hcancelled =>
    subst hcancel
    cases hcancelled
  | case2 => rfl
  | case3 cancel s hover cancelled hcancelled round hidle ih =>
    subst hcancel
    exact ih rfl
  | case4 => rfl

/-- Rounds that are not cancelled end where usage is below the budget, or with an empty
partition. -/
theorem isOverBudget_compactRounds (now : Millis) (s : Site)
    (hpolicy : s.part.metadata.policy = .approximateLru)
    (hbound : s.part.bound = s.part.metadata.maxCacheSize) (hevicts : s.part.evicts = true) :
    (compactRounds now .never s).site.part.entries.size = 0 ∨
      (compactRounds now .never s).site.isOverBudget = false := by
  generalize hcancel : Fuse.never = cancel
  fun_induction compactRounds now cancel s with
  | case1 cancel s hover cancelled hcancelled =>
    subst hcancel
    cases hcancelled
  | case2 cancel s hover cancelled hcancelled round hidle =>
    -- a round takes something from a partition that holds something
    refine .inl (Nat.eq_zero_of_not_pos fun hpos => ?_)
    have hleft : 0 < round.2.part.entries.size := hpos
    have hsize : round.2.part.entries.size + round.1 = s.part.entries.size :=
      size_evict s s.roundSize now .belowLimit
    have htarget := hover.2
    rw [isOverBudget, hbound] at htarget
    have htaken : 0 < round.1 :=
      evict_pos hpolicy (roundSize_ne_zero s) (by omega) htarget
    omega
  | case3 cancel s hover cancelled hcancelled round hidle ih =>
    subst hcancel
    have hsettings : round.2.part.settings = s.part.settings :=
      (steps_evict s.roundSize now .belowLimit (Nat.lt_succ_self s.part.bytes) :
        Steps False _ s round.2).settings
    have hmetadata := Partition.metadata_eq hsettings
    refine ih ?_ ?_ ?_ rfl
    · rw [hmetadata, hpolicy]
    · rw [Partition.bound_eq hsettings, hmetadata, hbound]
    · rw [Partition.evicts_eq hsettings, hevicts]
  | case4 cancel s hover =>
    refine .inr ?_
    rw [← Bool.not_eq_true]
    exact fun htarget => hover ⟨hevicts, htarget⟩

/-- The rounds go on exactly where there is something to compact. -/
theorem overfull_iff (hp : s.part.Counted) (hb : s.Balanced o) :
    (s.part.evicts = true ∧ s.isOverBudget = true) ↔ s.Overfull o := by
  rw [Overfull, ← overTarget_iff hb, isOverBudget, hp.bound, hp.evicts, Metadata.evicts,
    decide_eq_true_eq]

-- ---------------------------------------------------------------------------
-- The whole run
-- ---------------------------------------------------------------------------

theorem relieved_of_not_overBudget (hb : s.Balanced o) (hkeyed : s.part.Keyed)
    (hbound : s.part.bound = s.part.metadata.maxCacheSize)
    (hend : s.part.entries.size = 0 ∨ s.isOverBudget = false) : s.Relieved := by
  have hsize := Partition.size_le_bytes hkeyed
  have hheld : s.part.tally.totalSize.toNat = s.part.bytes := hb.bytes
  have hbelow : s.isOverBudget = false → ¬ (0 < s.drawn o ∧ s.budget ≤ s.drawn o) := by
    intro hnot hover
    rw [isOverBudget, hbound, (overTarget_iff hb .belowLimit).2 hover] at hnot
    cases hnot
  constructor
  · -- a bound is not zero, so an empty partition is below it
    intro hbounded
    rw [drawn, budget, if_neg hbounded, if_neg hbounded] at hbelow
    have hpos : 0 < s.part.metadata.maxCacheSize.toNat :=
      UInt64.lt_iff_toNat_lt.1 (UInt64.pos_iff_ne_zero.2 hbounded)
    rw [UInt64.lt_iff_toNat_lt, hheld]
    rcases hend with hempty | hnot
    · have hnothing : s.part.bytes = 0 := by
        rw [Partition.bytes, Table.size_eq_zero_iff.1 hempty]
        rfl
      omega
    · have hmet := hbelow hnot
      omega
  · intro hunbounded
    have hshared := hb.shared
    rw [if_pos hunbounded] at hshared
    have hused : s.totals.unreservedSize.toNat = o.shared + s.part.bytes := hshared
    rcases hend with hempty | hnot
    · exact .inl hempty
    · have hmet := hbelow hnot
      rw [drawn, budget, if_pos hunbounded, if_pos hunbounded] at hmet
      rw [UInt64.lt_iff_toNat_lt, hused]
      omega

/-- Compaction reports what it took out, whenever it is cancelled: entries that it evicted one after
the other, each of them while usage was at or over the budget. If it is not cancelled, a policy that
frees space brings usage below the budget, or leaves nothing that could be evicted. If there is
nothing to compact, nothing is touched; and if it is cancelled before it starts, it says so where
there is something. -/
theorem compact_settles (hp : s.part.Counted) (hb : s.Balanced o) (hkeyed : s.part.Keyed)
    (now : Millis) :
    (∀ cancel, (s.compact now cancel).1.itemsBefore = s.part.entries.size ∧
      (s.compact now cancel).1.itemsAfter = (s.compact now cancel).2.part.entries.size ∧
      (s.compact now cancel).1.itemsAfter + (s.compact now cancel).1.evicted =
        (s.compact now cancel).1.itemsBefore ∧
      (s.compact now cancel).2.part.settings = s.part.settings ∧
      ∃ gone : List (Bytes × Entry), gone.length = (s.compact now cancel).1.evicted ∧
        gone.Subperm s.part.entries.rows ∧
        s.Evicts o .belowLimit (s.part.expiry now) gone (s.compact now cancel).2) ∧
    (s.compact now .never).1.cancelled = false ∧
    (s.part.metadata.policy = .approximateLru → (s.compact now .never).2.Relieved) ∧
    (¬ s.Overfull o → ∀ cancel, s.compact now cancel =
      (⟨s.part.entries.size, s.part.entries.size, 0, false⟩, s)) ∧
    s.compact now .blown =
      (⟨s.part.entries.size, s.part.entries.size, 0, decide (s.Overfull o)⟩, s) := by
  have hsettings (cancel : Fuse) : (s.compact now cancel).2.part.settings = s.part.settings :=
    (steps_compact now cancel (Nat.lt_succ_self s.part.bytes) :
      Steps False _ s (s.compact now cancel).2).settings
  have hkept (cancel : Fuse) : (s.compact now cancel).2.part.Keyed :=
    (steps_compact now cancel (Nat.lt_succ_self s.part.bytes) :
      Steps False _ s (s.compact now cancel).2).keyed hkeyed
  refine ⟨fun cancel => ?_, ?_, fun hpolicy => ?_, fun hnot cancel => ?_, ?_⟩
  · obtain ⟨gone, hcount, hsheds⟩ := compactRounds_sheds now cancel s
    refine ⟨rfl, rfl, ?_, hsettings cancel, gone, hcount, hsheds.held.subperm,
      hsheds.evicts hb⟩
    have hsize := hsheds.size
    rw [hcount] at hsize
    exact hsize
  · exact cancelled_compactRounds now s
  · have hevicts : s.part.evicts = true := by
      rw [hp.evicts, Metadata.evicts, hpolicy]
      rfl
    obtain ⟨gone, -, hsheds⟩ := compactRounds_sheds now .never s
    refine relieved_of_not_overBudget (hsheds.evicts hb).balanced (hkept .never) ?_
      (isOverBudget_compactRounds now s hpolicy hp.bound hevicts)
    have hsame := hsettings .never
    exact (Partition.bound_eq hsame).trans
      (hp.bound.trans (congrArg Metadata.maxCacheSize (Partition.metadata_eq hsame)).symm)
  · have hidle : compactRounds now cancel s = ⟨0, false, s⟩ := by
      rw [compactRounds, if_neg (mt (overfull_iff hp hb).1 hnot)]
    rw [compact, hidle]
  · have hblown : compactRounds now .blown s = ⟨0, decide (s.Overfull o), s⟩ := by
      rw [compactRounds]
      by_cases hover : s.Overfull o
      · rw [if_pos ((overfull_iff hp hb).2 hover), decide_eq_true hover]
        rfl
      · rw [if_neg (mt (overfull_iff hp hb).1 hover), decide_eq_false hover]
    rw [compact, hblown]

end Site

namespace Node

/-- The bound of a partition with two small entries and a large one is lowered to eight bytes. -/
def narrowing : List Operation :=
  [ .putPartition [112] { createDate := (bare {}).today, maxCacheSize := 100 },
    .put .upsert [112] [97] [1] 1,
    .put .upsert [112] [98] [1] 2,
    .put .upsert [112] [99] [1, 2, 3, 4, 5, 6, 7, 8, 9, 10] 3,
    .putPartition [112] { createDate := (bare {}).today, maxCacheSize := 8 } ]

/-- The partition in the end. -/
def narrowingSite : Site :=
  (performAll narrowing (bare {})).2.site ((performAll narrowing (bare {})).2.target [112])

/-- By their average size two entries would have to go, but the first round takes the small ones and
usage is over the bound still. -/
theorem compact_settles_narrowing :
    (narrowingSite.compact 9 .never).2.part.tally.totalSize < 8 ∧
      (narrowingSite.compact 9 .blown).1 = ⟨3, 3, 0, true⟩ := by
  have hrun : Reaches (fun k op => (k.perform op).2.bytesHeld < UInt64.size) (bare {})
      (performAll narrowing (bare {})).2 := Reaches.start.performAll narrowing
    ⟨by decide, by decide, by decide, by decide, by decide, trivial⟩
  obtain ⟨hwf, -, hb⟩ := hrun.balanced (fresh_bare {})
  have hp : (performAll narrowing (bare {})).2.find? [112] = some narrowingSite.part := rfl
  obtain ⟨hruns, -, hrelieved, -, hblown⟩ := Site.compact_settles (s := narrowingSite)
    (hb.partitions [112] _ hp) (hb.site hp) (hwf [112] _ hp).keyed 9
  obtain ⟨-, -, -, hsettings, -⟩ := hruns .never
  have hbound : (narrowingSite.compact 9 .never).2.part.metadata.maxCacheSize = 8 :=
    congrArg Metadata.maxCacheSize (Partition.metadata_eq hsettings)
  have hbelow := (hrelieved rfl).1
  rw [hbound] at hbelow
  refine ⟨hbelow (by decide), ?_⟩
  rw [hblown]
  decide

end Node

end CacheNode

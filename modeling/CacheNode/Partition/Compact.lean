import CacheNode.Fuse
import CacheNode.Partition.Remove
import CacheNode.Report

/-!
# CacheNode — compaction

Compaction brings a partition back under its budget after its bound was lowered: it evicts in
rounds of limited size until usage is below the budget, until nothing more can be evicted, or
until it is cancelled between rounds.

* `Site.compact` — the whole run and its report.
-/

namespace CacheNode

namespace Site

/-- The number of entries to evict in one round: the bytes over budget divided by the average
size of an entry, at least one and at most 4096. -/
def roundSize (s : Site) : Nat :=
  let (used, limit) := s.usage s.part.bound
  let average := max 1 (s.part.tally.totalSize.toNat / max 1 s.part.tally.itemCount.toNat)
  min ((used.toNat - limit.toNat) / average + 1) 4096

/-- What some rounds did, and where they left the partition. -/
structure Rounds where
  evicted : Nat
  cancelled : Bool
  site : Site

/-- Rounds that follow one in which `first` entries were evicted. -/
def Rounds.after (first : Nat) (later : Rounds) : Rounds :=
  { later with evicted := first + later.evicted }

/-- Evicts in rounds while the partition is over budget. -/
def compactRounds (now : Millis) (cancel : Fuse) (s : Site) : Rounds :=
  if s.part.evicts ∧ s.isOverBudget then
    let cancelled := cancel.look
    if cancelled.1 then ⟨0, true, s⟩
    else
      let round := s.evict s.roundSize now .belowLimit
      if round.1 = 0 then ⟨0, false, round.2⟩
      else (compactRounds now cancelled.2 round.2).after round.1
  else ⟨0, false, s⟩
termination_by s.part.entries.size
decreasing_by
  -- a round that evicted something left fewer entries
  have hsize := size_evict s s.roundSize now .belowLimit
  simp only [round] at *
  omega

/-- Compacts the partition. -/
def compact (s : Site) (now : Millis) (cancel : Fuse) : CompactionReport × Site :=
  let run := compactRounds now cancel s
  (⟨s.part.entries.size, run.site.part.entries.size, run.evicted, run.cancelled⟩, run.site)

end Site

end CacheNode

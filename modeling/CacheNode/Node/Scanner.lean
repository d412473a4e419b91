import CacheNode.Node.Basic
import CacheNode.Report

/-!
# CacheNode — the expiration scanner

Entries that nobody reads any more are removed by a scanner that visits the partitions in turn,
starting where its last run stopped. In each partition it samples entries and removes the
expired ones, and it samples again while at least a tenth of the last sample had expired. A run
ends early when it is cancelled, which it notices between partitions, or when its time is up,
which it notices between samples, too.

* `Scanner.run` — one run and its report.
-/

namespace CacheNode

/-- A scanner: the size of its samples, and the place where its next run starts. -/
structure Scanner where
  samples : Nat
  cursor : Nat := 0
deriving DecidableEq, Repr

/-- What the rounds in one partition did, and where they left things. -/
structure ScanRounds where
  sampled : Nat
  expired : Nat
  deadline : Fuse
  site : Site

namespace ScanRounds

/-- Rounds that follow one with the given counts. -/
def after (sampled expired : Nat) (later : ScanRounds) : ScanRounds :=
  { later with sampled := sampled + later.sampled, expired := expired + later.expired }

end ScanRounds

namespace Scanner

/-- A scanner that starts at the first partition. A sample holds at least one entry. -/
def create (samples : Nat) : Scanner := ⟨max 1 samples, 0⟩

/-- Samples and removes in rounds, while at least a tenth of a sample had expired. -/
def scanRounds (samples : Nat) (now : Millis) (deadline : Fuse) (s : Site) : ScanRounds :=
  let sampled := min samples s.part.entries.size
  if sampled = 0 then ⟨0, 0, deadline, s⟩
  else
    let found := s.sampleExpired samples now
    let left := found.2.expire found.1 now
    if found.1.length * 10 < sampled then ⟨sampled, left.1, deadline, left.2⟩
    else
      let late := deadline.look
      if late.1 then ⟨sampled, left.1, late.2, left.2⟩
      else (scanRounds samples now late.2 left.2).after sampled left.1
termination_by s.part.entries.size
decreasing_by
  -- the sample was not empty and a tenth of it had expired, so something was removed
  have hpos : 0 < left.1 := Site.expire_sampleExpired_pos fun hnil => by
    have : found.1.length = 0 := by simp [found, hnil]
    omega
  have hsize : left.2.part.entries.size + left.1 = found.2.part.entries.size :=
    Site.size_expire found.2 found.1 now
  rw [show found.2.part = s.part from Site.part_sampleExpired s samples now] at hsize
  change left.2.part.entries.size < s.part.entries.size
  omega

/-- A run on its way. -/
structure Progress where
  report : ScanReport
  cursor : Nat
  node : Node

/-- Visits partitions, given with their places in the table, until the run is to stop. -/
def visitEach (samples : Nat) (now : Millis) :
    List (Bytes × Nat) → Fuse → Fuse → Progress → Progress
  | [], _, _, p => p
  | (name, place) :: rest, deadline, cancel, p =>
    let cancelled := cancel.look
    if cancelled.1 then { p with report := { p.report with stopped := some .cancelled } }
    else
      let late := deadline.look
      if late.1 then { p with report := { p.report with stopped := some .budget } }
      else
        let visited : ScanReport :=
          { p.report with partitionsVisited := p.report.partitionsVisited + 1 }
        let moved : Progress := { p with report := visited, cursor := place + 1 }
        match p.node.find? name with
        | none => visitEach samples now rest late.2 cancelled.2 moved
        | some part =>
          if part.metadata.interval = 0 ∨ part.entries.size = 0 then
            visitEach samples now rest late.2 cancelled.2 moved
          else
            let rounds := scanRounds samples now late.2 (p.node.site part)
            visitEach samples now rest rounds.deadline cancelled.2
              { moved with
                report :=
                  { visited with
                    keysSampled := visited.keysSampled + rounds.sampled
                    keysExpired := visited.keysExpired + rounds.expired }
                node := p.node.settle rounds.site }

/-- The names of a table with their places, in circular order from a start. -/
def circular (names : List Bytes) (start : Nat) : List (Bytes × Nat) :=
  names.zipIdx.drop start ++ names.zipIdx.take start

/-- One run over all partitions of a node. -/
def run (scanner : Scanner) (n : Node) (now : Millis) (deadline cancel : Fuse) :
    ScanReport × Scanner × Node :=
  let names := n.partitions.keys
  if names = [] then ({}, scanner, n)
  else
    let order := circular names (scanner.cursor % names.length)
    let p := visitEach scanner.samples now order deadline cancel ⟨{}, scanner.cursor, n⟩
    (p.report, { scanner with cursor := p.cursor }, p.node)

end Scanner

end CacheNode

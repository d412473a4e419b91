import CacheNode.Proofs.Noninterference

/-!
# CacheNode — deletions that fail

A partition that somebody watches is not deleted. Before that is decided, the predicates of closed
channels are dropped, so only the predicates of open channels stand in the way.

A partition that nobody watches leaves the table first, and what is kept of its configuration is
dropped last. If that fails, the deletion reports a failure and the partition is gone all the same;
this is the only failure after which anything is missing.

* `Node.deletePartition_cases` — the ways a deletion goes;
* `Node.Intact`, `Node.Undroppable` — nothing is missing but predicates of closed channels, and
  the one case in which something is;
* `Node.failed_deletePartition` — a deletion that fails leaves everything intact, unless all that
  is left to do is to drop what is kept.
-/

namespace CacheNode

/-- How many predicates of a partition lead to open channels. -/
def Partition.watchers (p : Partition) (hub : Hub) : Nat :=
  p.watches.predicates.countP fun pr => hub.isOpen pr.owner

/-- A partition is as before, but for predicates that led to closed channels. -/
structure Partition.Pruned (hub : Hub) (p q : Partition) : Prop where
  rest    : q = { p with watches := q.watches }
  sublist : q.watches.predicates.Sublist p.watches.predicates
  kept    : ∀ pr ∈ p.watches.predicates, hub.isOpen pr.owner = true → pr ∈ q.watches.predicates

theorem Partition.Pruned.refl (hub : Hub) (p : Partition) : p.Pruned hub p :=
  ⟨rfl, List.Sublist.refl _, fun _ hpr _ => hpr⟩

namespace Site

/-- The predicates that a pruning leaves are those of open channels. -/
theorem predicates_pruneWatches (s : Site) :
    s.pruneWatches.2.part.watches.predicates =
      s.part.watches.predicates.filter fun pr => s.hub.isOpen pr.owner := by
  show s.part.watches.predicates.filter (fun pr => !!s.hub.isOpen pr.owner) = _
  simp only [Bool.not_not]

theorem pruneWatches_eq_watchers (s : Site) : s.pruneWatches.1 = s.part.watchers s.hub := by
  have hlength : s.pruneWatches.1 = s.pruneWatches.2.part.watches.predicates.length := rfl
  rw [hlength, predicates_pruneWatches, ← List.countP_eq_length_filter]
  rfl

theorem pruned_pruneWatches (s : Site) : s.part.Pruned s.hub s.pruneWatches.2.part where
  rest    := rfl
  sublist := by
    rw [predicates_pruneWatches]
    exact List.filter_sublist
  kept    := by
    intro pr hpr hopen
    rw [predicates_pruneWatches]
    exact List.mem_filter.2 ⟨hpr, hopen⟩

end Site

/-- What is kept of a partition does not depend on channels and draws. -/
theorem World.delete_surroundings (w : World) (hub : Hub) (draws : Draws) (storage : Storage)
    (partition : Bytes) :
    ({ w with hub, draws }.delete storage partition).1 = (w.delete storage partition).1 := by
  cases storage <;> rfl

namespace Node

variable {n m : Node} {name other : Bytes} {p : Partition} {e : CacheError}

/-- How dropping what is kept of a partition ends; nothing is kept of most of them. -/
def dropKept (n : Node) (p : Partition) : Except CacheError Unit :=
  if p.metadata.persisted then (n.world.delete n.storage p.name).1 else .ok ()

/-- A deletion finds no partition, or somebody watches the one it finds, or the partition leaves
the table and the deletion ends as dropping what is kept of it does. -/
theorem deletePartition_cases (n : Node) (name : Bytes) :
    (∃ err, n.existing name = .error err ∧ n.deletePartition name = (.error err, n)) ∨
      (∃ p, n.existing name = .ok p ∧ 0 < p.watchers n.world.hub ∧
        n.deletePartition name =
          (.error (.partitionInUse (p.watchers n.world.hub)),
            n.settle (n.site p).pruneWatches.2)) ∨
      ∃ p, n.existing name = .ok p ∧ p.watchers n.world.hub = 0 ∧
        (p.name = name → (n.deletePartition name).1 = n.dropKept p) ∧
        (n.deletePartition name).2.partitions = n.partitions.erase name := by
  cases hexisting : n.existing name with
  | error err => exact .inl ⟨err, rfl, by simp only [deletePartition, deletion, hexisting]⟩
  | ok p =>
    have hwatchers : (n.site p).pruneWatches.1 = p.watchers n.world.hub :=
      Site.pruneWatches_eq_watchers (n.site p)
    by_cases hwatched : 0 < p.watchers n.world.hub
    · refine .inr (.inl ⟨p, rfl, hwatched, ?_⟩)
      simp only [deletePartition, deletion, hexisting, hwatchers, if_pos hwatched]
    · refine .inr (.inr ⟨p, rfl, Nat.eq_zero_of_not_pos hwatched, ?_⟩)
      -- emptying the partition leaves its metadata alone
      have hmetadata : (n.site p).pruneWatches.2.retire.2.part.metadata = p.metadata := by
        have hflush := Site.steps_flush trivial
          (Nat.lt_succ_self (n.site p).pruneWatches.2.part.bytes)
        have hsettings : (n.site p).pruneWatches.2.flush.2.part.metadata = p.metadata :=
          Partition.metadata_eq hflush.settings
        rw [retire_eq]
        exact hsettings
      simp only [deletePartition, deletion, hexisting, hwatchers, if_neg hwatched, hmetadata]
      constructor
      · rintro rfl
        unfold dropKept
        split
        · exact World.delete_surroundings _ _ _ _ _
        · rfl
      · split <;> rfl

/-- Nothing is missing but predicates of closed channels. -/
structure Intact (n m : Node) : Prop where
  totals : m.totals = n.totals
  none   : ∀ name, n.find? name = none → m.find? name = none
  some   : ∀ name p, n.find? name = some p →
    ∃ q, m.find? name = some q ∧ p.Pruned n.world.hub q

theorem Intact.refl (n : Node) : n.Intact n where
  totals := rfl
  none   := fun _ h => h
  some   := fun _ p hp => ⟨p, hp, .refl _ p⟩

/-- Dropping the predicates of closed channels leaves everything else intact. -/
theorem intact_pruneWatches (hn : n.WellFormed) (hp : n.find? name = some p) :
    n.Intact (n.settle (n.site p).pruneWatches.2) := by
  have hname : (n.site p).pruneWatches.2.part.name = name := (hn _ _ hp).named
  refine ⟨rfl, fun other hnone => ?_, fun other q hq => ?_⟩
  · have hne : other ≠ name := by
      rintro rfl
      rw [hp] at hnone
      cases hnone
    rw [find?_settle, hname, if_neg hne]
    exact hnone
  · rw [find?_settle, hname]
    by_cases hother : other = name
    · subst hother
      rw [hp] at hq
      cases hq
      exact ⟨_, if_pos rfl, (n.site p).pruned_pruneWatches⟩
    · exact ⟨q, (if_neg hother).trans hq, .refl _ q⟩

/-- Nobody watches a partition, but what is kept of it cannot be dropped. -/
def Undroppable (n : Node) (name : Bytes) (e : CacheError) : Prop :=
  ∃ p, n.find? name = some p ∧ p.watchers n.world.hub = 0 ∧ n.dropKept p = .error e

/-- After a deletion that failed everything is intact, except where nobody watched the partition
and what is kept of it could not be dropped: then the partition is gone, and no other one. -/
theorem failed_deletePartition (hn : n.Reachable) (h : (n.deletePartition name).1 = .error e) :
    (n.Intact (n.deletePartition name).2 ↔ ¬ n.Undroppable name e) ∧
      (n.Undroppable name e →
        (n.deletePartition name).2.find? name = none ∧
          ∀ other, other ≠ name →
            (n.deletePartition name).2.find? other = n.find? other) := by
  have hwf := hn.wellFormed
  rcases deletePartition_cases n name with
    ⟨err, hexisting, heq⟩ | ⟨p, hexisting, hwatched, heq⟩ |
      ⟨p, hexisting, hunwatched, hdrop, hparts⟩
  · -- there is no such partition
    have hnot : ¬ n.Undroppable name e := by
      rintro ⟨p, hp, -, -⟩
      rw [existing_of_find? hwf hp] at hexisting
      cases hexisting
    rw [heq]
    exact ⟨iff_of_true (.refl n) hnot, fun hu => absurd hu hnot⟩
  · -- somebody watches
    obtain ⟨-, hp⟩ := find?_of_existing hexisting
    have hnot : ¬ n.Undroppable name e := by
      rintro ⟨q, hq, hnobody, -⟩
      rw [hp] at hq
      cases hq
      omega
    rw [heq]
    exact ⟨iff_of_true (intact_pruneWatches hwf hp) hnot, fun hu => absurd hu hnot⟩
  · -- the partition has left the table
    obtain ⟨-, hp⟩ := find?_of_existing hexisting
    have hu : n.Undroppable name e := by
      refine ⟨p, hp, hunwatched, ?_⟩
      rw [← hdrop (hwf _ _ hp).named, h]
    have hgone : (n.deletePartition name).2.find? name = none := by
      rw [find?, hparts, Table.get?_erase_self]
    have hnot : ¬ n.Intact (n.deletePartition name).2 := by
      intro hintact
      obtain ⟨q, hq, -⟩ := hintact.some name p hp
      rw [hgone] at hq
      cases hq
    refine ⟨iff_of_false hnot fun hnotu => hnotu hu, fun _ => ⟨hgone, fun other hne => ?_⟩⟩
    exact find?_deletePartition_of_ne hwf hne.symm

/-- A node that keeps configurations in a recording store which fails when it is to drop one. -/
def hoarding : Node :=
  { bare {} with
    storage := .recorder
    world := { draws := default, recorder := { failing := { delete := true } } } }

/-- The node with a bounded partition that is kept and has one entry. -/
def clinging : Node :=
  (performAll
    [ .putPartition [112]
        { createDate := (bare {}).today, maxCacheSize := 50, persisted := true },
      .put .upsert [112] [97] [1] 1 ] hoarding).2

theorem reachable_clinging : clinging.Reachable := by
  have hfresh : Fresh hoarding :=
    ⟨{}, ⟨none⟩, .ok .recorder, false, (bare {}).today, hoarding.world, rfl⟩
  have hreached : Reachable hoarding := ⟨_, hfresh, .start⟩
  exact hreached.performAll _ (by decide)

/-- Its deletion fails and leaves less than before; that of a partition which is not there fails,
too, and leaves everything intact. -/
theorem failed_deletePartition_clinging :
    ((clinging.deletePartition [112]).1 = .error Recorder.refused ∧
        ¬ clinging.Intact (clinging.deletePartition [112]).2) ∧
      (clinging.deletePartition [113]).1 = .error .partitionDoesNotExist ∧
      clinging.Intact (clinging.deletePartition [113]).2 := by
  have hkept : clinging.Undroppable [112] Recorder.refused := ⟨_, rfl, rfl, rfl⟩
  have hnone : ¬ clinging.Undroppable [113] .partitionDoesNotExist := by
    rintro ⟨p, hp, -, -⟩
    cases hp
  refine ⟨⟨rfl, fun hintact => ?_⟩, rfl, ?_⟩
  · exact (failed_deletePartition reachable_clinging rfl).1.1 hintact hkept
  · exact (failed_deletePartition reachable_clinging rfl).1.2 hnone

/-- A deletion that fails can take the partition and its entries away. -/
theorem failed_deletePartition_loses :
    ∃ (n : Node) (name : Bytes) (p : Partition) (e : CacheError), n.Reachable ∧
      n.find? name = some p ∧ p.entries.size = 1 ∧ (n.deletePartition name).1 = .error e ∧
      (n.deletePartition name).2.find? name = none :=
  ⟨clinging, [112], _, Recorder.refused, reachable_clinging, rfl, rfl, rfl, rfl⟩

end Node

end CacheNode

import CacheNode.Proofs.Operations

/-!
# CacheNode — the ways a configuration goes

A partition is created or reconfigured in three steps: its bytes are reserved, its metadata is
stored, and it enters the table. Either of the first two may fail, and then the third does not
happen. Everything that is said about configurations starts from these cases.

* `Node.createPartition_cases`, `Node.reconfigure_cases` — what a configuration comes to;
* `Node.find?_putPartition_of_ne`, `Node.find?_deletePartition_of_ne` — other partitions are not
  concerned.
-/

namespace CacheNode.Node

variable {n : Node} {name other : Bytes} {p q : Partition} {metadata : Metadata}

/-- What is stored when a partition is created. -/
def storedNew (n : Node) (name : Bytes) (metadata : Metadata) (store : Bool) :
    Except CacheError Unit × World :=
  if store && metadata.persisted then n.world.persist n.storage name metadata
  else (.ok (), n.world)

/-- What is stored, or dropped, when a partition gets new metadata. -/
def storedNext (n : Node) (p : Partition) (metadata : Metadata) :
    Except CacheError Unit × World :=
  let next := p.metadata.apply metadata
  if next.persisted then n.world.persist n.storage p.name next
  else if p.metadata.persisted then n.world.delete n.storage p.name
  else (.ok (), n.world)

theorem storedNext_eq (n : Node) (p : Partition) (metadata : Metadata) :
    n.storedNext p metadata =
      if (p.metadata.apply metadata).persisted then
        n.world.persist n.storage p.name (p.metadata.apply metadata)
      else if p.metadata.persisted then n.world.delete n.storage p.name
      else (.ok (), n.world) := rfl

/-- The reservation that a partition needs for new metadata. -/
def reserveNext (n : Node) (p : Partition) (metadata : Metadata) : Except CacheError Totals :=
  n.reserve p.name (satSub metadata.maxCacheSize p.bound)
    (if p.bound = 0 then p.tally.totalSize else 0)

/-- A partition is not created because its bytes cannot be reserved or its metadata not be stored,
or it enters the table. -/
theorem createPartition_cases (n : Node) (name : Bytes) (metadata : Metadata) (store : Bool) :
    (∃ err, n.reserve name metadata.maxCacheSize 0 = .error err ∧
        n.createPartition name metadata store = (.error err, n)) ∨
      (∃ err, (n.storedNew name metadata store).1 = .error err ∧
        n.createPartition name metadata store =
          (.error err, { n with world := (n.storedNew name metadata store).2 })) ∨
      ∃ totals, n.reserve name metadata.maxCacheSize 0 = .ok totals ∧
        (n.storedNew name metadata store).1 = .ok () ∧
        n.createPartition name metadata store =
          (.ok (),
            { n with
              totals
              world := (n.storedNew name metadata store).2
              partitions := n.partitions.insert name (.create name metadata n.config.limits) }) := by
  cases hreserve : n.reserve name metadata.maxCacheSize 0 with
  | error err => exact .inl ⟨err, rfl, by simp only [createPartition, hreserve]⟩
  | ok totals =>
    cases hstored : (n.storedNew name metadata store).1 with
    | error err =>
      refine .inr (.inl ⟨err, rfl, ?_⟩)
      have hresult : (if store && metadata.persisted then n.world.persist n.storage name metadata
          else (.ok (), n.world)).1 = .error err := hstored
      simp only [createPartition, hreserve, hresult, releaseReserved_of_reserve hreserve]
      rfl
    | ok _ =>
      refine .inr (.inr ⟨totals, rfl, rfl, ?_⟩)
      have hresult : (if store && metadata.persisted then n.world.persist n.storage name metadata
          else (.ok (), n.world)).1 = .ok () := hstored
      simp only [createPartition, hreserve, hresult]
      rfl

/-- The reconfigured partition at its place: it has moved its bytes, and given back what it does not
reserve any more. -/
theorem site_reconfigured (n : Node) (p : Partition) (metadata : Metadata) (totals : Totals) :
    (n.reconfigured p metadata totals).site (p.regranted metadata) =
      let applied := (({ n with totals } : Node).site p).applyMetadata (p.metadata.apply metadata)
      { applied with
        totals := applied.totals.releaseReserved (satSub p.bound metadata.maxCacheSize) } := by
  simp only [reconfigured, site, settle, share, Site.applyMetadata, Site.book, Site.settle,
    Account.tally_convert]
  rfl

/-- Where bytes are reserved and the metadata is stored, the partition gets the new metadata. Its
compaction is requested if it is over its budget then. -/
theorem reconfigure_of_granted {totals : Totals} (huse : p.retired = false)
    (hreserve : n.reserveNext p metadata = .ok totals)
    (hstored : (n.storedNext p metadata).1 = .ok ()) :
    n.reconfigure p metadata =
      (.ok (),
        let m := ({ n with world := (n.storedNext p metadata).2 } : Node).reconfigured p metadata
          totals
        if metadata.evicts && (m.site (p.regranted metadata)).isOverBudget then
          m.requestCompaction p.name
        else m) := by
  unfold reserveNext at hreserve
  simp only [reconfigure, huse, Bool.false_eq_true, if_false, hreserve, ← storedNext_eq, hstored,
    site_reconfigured]
  rfl

/-- A partition is not reconfigured because bytes cannot be reserved or its metadata not be stored,
or it gets its new metadata, after which it may be proposed for compaction. -/
theorem reconfigure_cases (huse : p.retired = false) (n : Node) (metadata : Metadata) :
    (∃ err, n.reserveNext p metadata = .error err ∧
        n.reconfigure p metadata = (.error err, n)) ∨
      (∃ err, (n.storedNext p metadata).1 = .error err ∧
        n.reconfigure p metadata =
          (.error err, { n with world := (n.storedNext p metadata).2 })) ∨
      ∃ totals m, n.reserveNext p metadata = .ok totals ∧ (n.storedNext p metadata).1 = .ok () ∧
        m = ({ n with world := (n.storedNext p metadata).2 } : Node).reconfigured p metadata
          totals ∧
        (n.reconfigure p metadata = (.ok (), m) ∨
          n.reconfigure p metadata = (.ok (), m.requestCompaction p.name)) := by
  cases hreserve : n.reserveNext p metadata with
  | error err =>
    refine .inl ⟨err, rfl, ?_⟩
    unfold reserveNext at hreserve
    simp only [reconfigure, huse, Bool.false_eq_true, if_false, hreserve]
  | ok totals =>
    cases hstored : (n.storedNext p metadata).1 with
    | error err =>
      refine .inr (.inl ⟨err, rfl, ?_⟩)
      unfold reserveNext at hreserve
      simp only [reconfigure, huse, Bool.false_eq_true, if_false, hreserve, ← storedNext_eq, hstored,
        releaseReserved_of_reserve hreserve]
    | ok _ =>
      refine .inr (.inr ⟨totals, _, rfl, rfl, rfl, ?_⟩)
      rw [reconfigure_of_granted huse hreserve hstored]
      dsimp only
      split
      · exact .inr rfl
      · exact .inl rfl

theorem find?_requestCompaction (n : Node) (target : Bytes) :
    (n.requestCompaction target).find? name = n.find? name := by
  unfold requestCompaction
  split <;> rfl

theorem find?_reconfigure_of_ne (metadata : Metadata) (huse : q.retired = false)
    (hne : q.name ≠ name) : (n.reconfigure q metadata).2.find? name = n.find? name := by
  rcases reconfigure_cases huse n metadata with
    ⟨err, -, heq⟩ | ⟨err, -, heq⟩ | ⟨totals, m, -, -, hm, heq⟩
  · rw [heq]
  · rw [heq]
    rfl
  · have hfind : m.find? name = n.find? name := by
      rw [hm, find?_reconfigured, if_neg hne.symm]
      rfl
    rcases heq with heq | heq
    · rw [heq]
      exact hfind
    · rw [heq, find?_requestCompaction]
      exact hfind

theorem find?_createPartition_of_ne (metadata : Metadata) (store : Bool) (hne : other ≠ name) :
    (n.createPartition other metadata store).2.find? name = n.find? name := by
  rcases createPartition_cases n other metadata store with
    ⟨err, -, heq⟩ | ⟨err, -, heq⟩ | ⟨totals, -, -, heq⟩
  · rw [heq]
  · rw [heq]
    rfl
  · rw [heq]
    simp only [find?, Table.get?_insert, if_neg hne.symm]

theorem find?_putPartition_of_ne (metadata : Metadata) (hn : n.WellFormed)
    (hne : other ≠ name) :
    (n.putPartition other metadata).2.find? name = n.find? name := by
  unfold putPartition
  split
  · rfl
  · split
    · next q hq =>
      have hpart := hn _ _ hq
      exact find?_reconfigure_of_ne metadata hpart.inUse (hpart.named ▸ hne)
    · exact find?_createPartition_of_ne metadata true hne

theorem find?_deletePartition_of_ne (hn : n.WellFormed) (hne : other ≠ name) :
    (n.deletePartition other).2.find? name = n.find? name := by
  simp only [deletePartition, deletion]
  split
  · rfl
  · next q hexisting =>
    have hnamed : q.name = other := (hn _ _ (find?_of_existing hexisting).2).named
    have herased : (n.partitions.erase other).get? name = n.find? name := by
      rw [Table.get?_erase, if_neg hne.symm]
      rfl
    split
    · have hpruned : (n.site q).pruneWatches.2.part.name = other := hnamed
      rw [find?_settle, hpruned, if_neg hne.symm]
    · split <;> exact herased

end CacheNode.Node

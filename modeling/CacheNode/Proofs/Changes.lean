import CacheNode.Node.Operation
import CacheNode.Proofs.Steps

/-!
# CacheNode — what an operation on a node consists of

The operations of a node fall into two groups. Those that work on entries and configurations are
sequences of changes: a step of one partition, a new partition, a reconfiguration, the removal of
an emptied partition, or something outside of the table. Those that work on subscriptions change
predicates and channels and nothing else. What is kept by each kind of change is kept by every
operation.

* `Node.WellFormed` — partitions stand under their names and their posted settings are right;
* `Node.Change`, `Node.Changes` — one change, and sequences of changes below a number of bytes;
* `Node.Rewatch`, `Node.Rewatches` — changes of subscriptions;
* `Node.Change.wellFormed`, `Node.Rewatch.wellFormed` — neither makes a partition ill formed.
-/

namespace CacheNode

/-- A partition that stands in a node's table: it has its name there, it is in use, and what is
posted about its metadata is true. -/
structure Partition.WellFormed (p : Partition) (name : Bytes) (limits : Limits) : Prop where
  named   : p.name = name
  valid   : PartitionName.Valid name
  inUse   : p.retired = false
  limited : p.limits = limits
  bound   : p.bound = p.metadata.maxCacheSize
  evicts  : p.evicts = p.metadata.evicts
  keyed   : p.Keyed

/-- A partition with new metadata, and what is posted about them. -/
def Partition.regranted (p : Partition) (metadata : Metadata) : Partition :=
  { p with
    metadata := p.metadata.apply metadata
    bound := metadata.maxCacheSize
    evicts := metadata.evicts }

namespace Node

/-- Every partition of the table is well formed. -/
def WellFormed (n : Node) : Prop :=
  ∀ name p, n.find? name = some p → p.WellFormed name n.config.limits

/-- The bytes that all partitions hold. -/
def bytesHeld (n : Node) : Nat := n.partitions.total fun row => row.2.bytes

/-- The bytes that the partitions under other names hold. -/
def bytesElsewhere (n : Node) (name : Bytes) : Nat :=
  (n.partitions.erase name).total fun row => row.2.bytes

/-- The node after a partition has got new metadata, its reservation being made. -/
def reconfigured (n : Node) (p : Partition) (metadata : Metadata) (totals : Totals) : Node :=
  let reserved : Node := { n with totals }
  let applied := (reserved.site p).applyMetadata (p.metadata.apply metadata)
  reserved.settle
    { applied with
      totals := applied.totals.releaseReserved (satSub p.bound metadata.maxCacheSize) }

/-- One change of the entries or the configuration of a node. What reconfigurations are among
them is told by `allows`, and whose activity counters can be reset by `clears`. -/
inductive Change (allows : Partition → Metadata → Prop) (clears : Bytes → Prop) (n : Node) :
    Node → Prop where
  | visit {name : Bytes} {p : Partition} {s : Site} (hp : n.find? name = some p)
      (hs : (n.site p).Step (clears name) s) : Change allows clears n (n.settle s)
  /-- predicates of closed channels are dropped -/
  | prune {name : Bytes} {p : Partition} (hp : n.find? name = some p) :
      Change allows clears n (n.settle (n.site p).pruneWatches.2)
  | found {name : Bytes} {metadata : Metadata} {totals : Totals}
      (hname : PartitionName.Valid name) (hnone : n.find? name = none)
      (hreserve : n.reserve name metadata.maxCacheSize 0 = .ok totals) :
      Change allows clears n
        { n with
          totals
          partitions := n.partitions.insert name (.create name metadata n.config.limits) }
  | reconfigure {name : Bytes} {p : Partition} {metadata : Metadata} {totals : Totals}
      (hp : n.find? name = some p) (hallows : allows p metadata)
      (hreserve : n.reserve p.name (satSub metadata.maxCacheSize p.bound)
        (if p.bound = 0 then p.tally.totalSize else 0) = .ok totals) :
      Change allows clears n (n.reconfigured p metadata totals)
  /-- an emptied partition that nobody watches leaves the table -/
  | remove {name : Bytes} {p : Partition} (hp : n.find? name = some p)
      (hempty : p.entries = .empty) (hwatches : p.watches.predicates = []) :
      Change allows clears n
        { n with
          partitions := n.partitions.erase name
          totals := n.totals.releaseReserved p.bound }
  /-- something outside of the table changes, but no channel -/
  | surround (world : World) (hhub : world.hub = n.world.hub) :
      Change allows clears n { n with world }

/-- Sequences of changes in which the node stays below a number of bytes. -/
inductive Changes (allows : Partition → Metadata → Prop) (clears : Bytes → Prop) (limit : Nat)
    (n : Node) : Node → Prop where
  | refl : Changes allows clears limit n n
  | tail {m k : Node} (changes : Changes allows clears limit n m)
      (change : Change allows clears m k) (hk : k.bytesHeld < limit) :
      Changes allows clears limit n k

/-- One change of subscriptions. Who can get new predicates is told by `known`, and whose queue
can be emptied by `emptied`. -/
inductive Rewatch (known emptied : Subscriber → Prop) (n : Node) : Node → Prop where
  | add {name : Bytes} {p : Partition} (hp : n.find? name = some p) (predicate : Predicate)
      (hknown : known predicate.owner) :
      Rewatch known emptied n
        (n.settle ((n.site p).watchedBy (p.watches.add predicate n.world.hub)).2)
  | discard {name : Bytes} {p : Partition} (hp : n.find? name = some p)
      (selected : Predicate → Bool) :
      Rewatch known emptied n
        (n.settle ((n.site p).watchedBy (p.watches.discard selected n.world.hub)).2)
  | subscribe : Rewatch known emptied n n.openWatcher.2
  | drain (who : Subscriber) (hwho : emptied who) :
      Rewatch known emptied n (n.withHub (n.world.hub.drain who).2)
  | close (who : Subscriber) : Rewatch known emptied n (n.withHub (n.world.hub.close who))
  | abandon (who : Subscriber) (hwho : emptied who) :
      Rewatch known emptied n (n.withHub (n.world.hub.abandon who))

/-- Sequences of changes of subscriptions. -/
inductive Rewatches (known emptied : Subscriber → Prop) (n : Node) : Node → Prop where
  | refl : Rewatches known emptied n n
  | tail {m k : Node} (changes : Rewatches known emptied n m)
      (change : Rewatch known emptied m k) : Rewatches known emptied n k

-- ---------------------------------------------------------------------------
-- Taking over a site
-- ---------------------------------------------------------------------------

theorem find?_settle (n : Node) (s : Site) (name : Bytes) :
    (n.settle s).find? name = if name = s.part.name then some s.part else n.find? name :=
  Table.get?_insert _ _ _ _

theorem settle_site {n : Node} {name : Bytes} {p : Partition} (hp : n.find? name = some p)
    (hname : p.name = name) : n.settle (n.site p) = n := by
  have hself : n.partitions.insert name p = n.partitions := Table.insert_eq_self hp
  subst hname
  show { n with partitions := n.partitions.insert p.name p } = n
  rw [hself]

theorem settle_settle (n : Node) {s t : Site} (h : t.part.name = s.part.name) :
    (n.settle s).settle t = n.settle t := by
  show ({ n.settle t with
    partitions := (n.partitions.insert s.part.name s.part).insert t.part.name t.part } : Node) = _
  rw [h, Table.insert_insert_self, ← h]
  rfl

theorem bytesHeld_settle (n : Node) (s : Site) :
    (n.settle s).bytesHeld = n.bytesElsewhere s.part.name + s.part.bytes :=
  Table.total_insert _ _ _ _

theorem bytesHeld_eq {n : Node} {name : Bytes} {p : Partition} (hp : n.find? name = some p) :
    n.bytesHeld = n.bytesElsewhere name + p.bytes :=
  Table.total_eq_erase_add _ hp

/-- Replacing a partition by one that holds as much. -/
theorem bytesHeld_settle_of_eq {n : Node} {name : Bytes} {p : Partition} {s : Site}
    (hp : n.find? name = some p) (hname : s.part.name = name) (hbytes : s.part.bytes = p.bytes) :
    (n.settle s).bytesHeld = n.bytesHeld := by
  rw [bytesHeld_settle, bytesHeld_eq hp, hname, hbytes]

theorem partitions_reconfigured (n : Node) (p : Partition) (metadata : Metadata)
    (totals : Totals) :
    (n.reconfigured p metadata totals).partitions =
      n.partitions.insert p.name (p.regranted metadata) := by
  simp only [reconfigured, settle, share, Site.applyMetadata, Site.book, Site.settle,
    Account.tally_convert]
  rfl

theorem find?_reconfigured (n : Node) (p : Partition) (metadata : Metadata) (totals : Totals)
    (name : Bytes) :
    (n.reconfigured p metadata totals).find? name =
      if name = p.name then some (p.regranted metadata) else n.find? name := by
  rw [find?, partitions_reconfigured, Table.get?_insert]
  rfl

-- ---------------------------------------------------------------------------
-- What every change keeps
-- ---------------------------------------------------------------------------

end Node

namespace Partition.WellFormed

variable {p q : Partition} {name : Bytes} {limits : Limits}

/-- A partition that has kept its settings and has got no empty key is as well formed as before. -/
theorem of_settings (h : p.WellFormed name limits) (hsettings : q.settings = p.settings)
    (hkeyed : q.Keyed) : q.WellFormed name limits where
  named   := (Partition.name_eq hsettings).trans h.named
  valid   := h.valid
  inUse   := (Partition.retired_eq hsettings).trans h.inUse
  limited := (Partition.limits_eq hsettings).trans h.limited
  bound   := by
    rw [Partition.bound_eq hsettings, Partition.metadata_eq hsettings]
    exact h.bound
  evicts  := by
    rw [Partition.evicts_eq hsettings, Partition.metadata_eq hsettings]
    exact h.evicts
  keyed   := hkeyed

theorem create (hname : PartitionName.Valid name) (metadata : Metadata) (limits : Limits) :
    (Partition.create name metadata limits).WellFormed name limits where
  named   := rfl
  valid   := hname
  inUse   := rfl
  limited := rfl
  bound   := rfl
  evicts  := rfl
  keyed   := by
    intro key hkey
    cases hkey

end Partition.WellFormed

namespace Node

/-- Putting one well-formed partition into the table. -/
theorem WellFormed.of_insert {n m : Node} {p : Partition} {name : Bytes} (h : n.WellFormed)
    (hconfig : m.config = n.config) (hp : p.WellFormed name n.config.limits)
    (hm : m.partitions = n.partitions.insert name p) : m.WellFormed := by
  intro other q hq
  rw [find?, hm] at hq
  rw [hconfig]
  rcases Table.get?_insert_cases hq with ⟨rfl, rfl⟩ | hold
  · exact hp
  · exact h other q hold

theorem WellFormed.settle {n : Node} {s : Site} {name : Bytes} (h : n.WellFormed)
    (hs : s.part.WellFormed name n.config.limits) : (n.settle s).WellFormed := by
  refine h.of_insert rfl hs ?_
  rw [← hs.named]
  rfl

variable {allows : Partition → Metadata → Prop} {clears : Bytes → Prop} {limit : Nat}
  {n m k : Node}

theorem Change.wellFormed (h : Change allows clears n m) (hn : n.WellFormed) : m.WellFormed := by
  cases h with
  | visit hp hs =>
    have hpart := hn _ _ hp
    exact hn.settle (hpart.of_settings hs.settings (hs.keyed hpart.keyed))
  | prune hp =>
    have hpart := hn _ _ hp
    exact hn.settle (hpart.of_settings rfl hpart.keyed)
  | found hname _ _ => exact hn.of_insert rfl (.create hname _ _) rfl
  | @reconfigure name p metadata totals hp _ _ =>
    obtain ⟨hnamed, hvalid, huse, hlimited, -, -, hkeyed⟩ := hn _ _ hp
    -- what is posted about the metadata is replaced together with it
    exact WellFormed.settle (n := { n with totals }) hn
      ⟨hnamed, hvalid, huse, hlimited, rfl, rfl, hkeyed⟩
  | remove hp _ _ =>
    intro other q hq
    exact hn other q (Table.get?_of_erase hq)
  | surround world hhub => exact hn

/-- Allowing more reconfigurations allows every change that was allowed before. -/
theorem Change.mono {allowsMore : Partition → Metadata → Prop} (h : Change allows clears n m)
    (himp : ∀ p metadata, allows p metadata → allowsMore p metadata) :
    Change allowsMore clears n m := by
  cases h with
  | visit hp hs => exact .visit hp hs
  | prune hp => exact .prune hp
  | found hname hnone hreserve => exact .found hname hnone hreserve
  | reconfigure hp hallows hreserve => exact .reconfigure hp (himp _ _ hallows) hreserve
  | remove hp hempty hwatches => exact .remove hp hempty hwatches
  | surround world hhub => exact .surround world hhub

theorem Change.config (h : Change allows clears n m) : m.config = n.config := by
  cases h <;> rfl

namespace Changes

theorem single (h : Change allows clears n m) (hm : m.bytesHeld < limit) :
    Changes allows clears limit n m :=
  .tail .refl h hm

theorem trans (hnm : Changes allows clears limit n m) (hmk : Changes allows clears limit m k) :
    Changes allows clears limit n k := by
  induction hmk with
  | refl => exact hnm
  | tail _ change hk ih => exact .tail ih change hk

theorem mono {allowsMore : Partition → Metadata → Prop} (h : Changes allows clears limit n m)
    (himp : ∀ p metadata, allows p metadata → allowsMore p metadata) :
    Changes allowsMore clears limit n m := by
  induction h with
  | refl => exact .refl
  | tail _ change hk ih => exact .tail ih (change.mono himp) hk

theorem wellFormed (h : Changes allows clears limit n m) (hn : n.WellFormed) : m.WellFormed := by
  induction h with
  | refl => exact hn
  | tail _ change _ ih => exact change.wellFormed ih

theorem config (h : Changes allows clears limit n m) : m.config = n.config := by
  induction h with
  | refl => rfl
  | tail _ change _ ih => exact change.config.trans ih

theorem bytes_lt (h : Changes allows clears limit n m) (hn : n.bytesHeld < limit) :
    m.bytesHeld < limit := by
  cases h with
  | refl => exact hn
  | tail _ _ hm => exact hm

end Changes

/-- Subscriptions have nothing to do with what partitions hold and how they are configured. -/
theorem WellFormed.watchedBy {α : Type} {name : Bytes} {p : Partition} (hn : n.WellFormed)
    (hp : n.find? name = some p) (change : α × WatchList × Hub) :
    (n.settle ((n.site p).watchedBy change).2).WellFormed := by
  have hpart := hn _ _ hp
  exact hn.settle (hpart.of_settings rfl hpart.keyed)

theorem Rewatch.wellFormed {known emptied : Subscriber → Prop} (h : Rewatch known emptied n m)
    (hn : n.WellFormed) : m.WellFormed := by
  cases h with
  | add hp predicate _ => exact hn.watchedBy hp _
  | discard hp selected => exact hn.watchedBy hp _
  | _ => exact hn

theorem Rewatches.wellFormed {known emptied : Subscriber → Prop}
    (h : Rewatches known emptied n m) (hn : n.WellFormed) : m.WellFormed := by
  induction h with
  | refl => exact hn
  | tail _ change ih => exact change.wellFormed ih

end Node

end CacheNode

import CacheNode.Proofs.Counts
import CacheNode.Proofs.Runs

/-!
# CacheNode — the counters of a node are true

Each partition counts what it holds, and the totals are the sums of these counts over the table.
The bytes of partitions without a bound are summed up a second time, as use of the shared part of
the budget, and the bounds of the others as its reserved part.

All of this holds in every state that a run comes to, whatever the results of its operations and
the draws are, as long as the bytes that the partitions hold together fit a 64-bit word.

* `Node.Balanced` — the counters are true;
* `Node.Change.balanced` — and they stay true along every change;
* `Node.counters_true` — every run keeps them true, and no counter is asked for more than it has.
-/

namespace CacheNode

/-- The counters of a partition and what it has posted about its metadata are true. -/
structure Partition.Counted (p : Partition) : Prop where
  items  : p.tally.itemCount.toNat = p.entries.size
  bytes  : p.tally.totalSize.toNat = p.bytes
  bound  : p.bound = p.metadata.maxCacheSize
  evicts : p.evicts = p.metadata.evicts

/-- The bytes that a partition draws from the shared part of the budget. -/
def Partition.sharedSize (p : Partition) : Nat :=
  if p.metadata.maxCacheSize = 0 then p.tally.totalSize.toNat else 0

/-- So many entries and bytes of a partition with the given bound can be taken out of its counters
and out of the totals. -/
def Account.Covers (a : Account) (bound : ByteCount) (size held : Nat) : Prop :=
  size ≤ a.tally.itemCount.toNat ∧ size ≤ a.totals.itemCount.toNat ∧
    held ≤ a.tally.totalSize.toNat ∧ held ≤ a.totals.totalSize.toNat ∧
    (bound = 0 → held ≤ a.totals.unreservedSize.toNat)

namespace Node

/-- The counters of all partitions are true, and the totals are their sums. -/
structure Balanced (n : Node) : Prop where
  partitions : ∀ name p, n.find? name = some p → p.Counted
  items      : n.totals.itemCount.toNat =
    n.partitions.total fun row => row.2.tally.itemCount.toNat
  bytes      : n.totals.totalSize.toNat =
    n.partitions.total fun row => row.2.tally.totalSize.toNat
  shared     : n.totals.unreservedSize.toNat = n.partitions.total fun row => row.2.sharedSize
  reserved   : n.totals.reservedSize.toNat =
    n.partitions.total fun row => row.2.metadata.maxCacheSize.toNat

/-- Everything that a partition holds, and its reservation, can be taken out of the counters. -/
structure Covered (n : Node) : Prop where
  held     : ∀ name p, n.find? name = some p →
    (n.site p).account.Covers p.metadata.maxCacheSize p.entries.size p.bytes
  reserved : ∀ name p, n.find? name = some p → p.bound ≤ n.totals.reservedSize

/-- What the partitions under other names have counted. -/
def others (n : Node) (name : Bytes) : Account.Others where
  items := (n.partitions.erase name).total fun row => row.2.tally.itemCount.toNat
  bytes := (n.partitions.erase name).total fun row => row.2.tally.totalSize.toNat
  shared := (n.partitions.erase name).total fun row => row.2.sharedSize

/-- What the partitions under other names have reserved. -/
def reservedElsewhere (n : Node) (name : Bytes) : Nat :=
  (n.partitions.erase name).total fun row => row.2.metadata.maxCacheSize.toNat

variable {n m : Node} {name : Bytes} {p : Partition} {s : Site}

-- ---------------------------------------------------------------------------
-- One partition beside the others
-- ---------------------------------------------------------------------------

/-- At a partition the counters of a balanced node are true. -/
theorem Balanced.site (h : n.Balanced) (hp : n.find? name = some p) :
    (n.site p).Balanced (n.others name) := by
  obtain ⟨hitems, hbytes, -, -⟩ := h.partitions name p hp
  refine ⟨hitems, hbytes, ?_, ?_, ?_⟩
  · show n.totals.itemCount.toNat = (n.others name).items + p.entries.size
    rw [← hitems]
    exact h.items.trans (Table.total_eq_erase_add _ hp)
  · show n.totals.totalSize.toNat = (n.others name).bytes + p.bytes
    rw [← hbytes]
    exact h.bytes.trans (Table.total_eq_erase_add _ hp)
  · show n.totals.unreservedSize.toNat =
      (n.others name).shared + if p.metadata.maxCacheSize = 0 then p.bytes else 0
    rw [← hbytes]
    exact h.shared.trans (Table.total_eq_erase_add _ hp)

theorem Balanced.reservedSize (h : n.Balanced) (hp : n.find? name = some p) :
    n.totals.reservedSize.toNat =
      n.reservedElsewhere name + p.metadata.maxCacheSize.toNat :=
  h.reserved.trans (Table.total_eq_erase_add _ hp)

/-- Replacing a partition leaves the node balanced if its counters are true beside the others. -/
theorem Balanced.settle (hparts : ∀ name p, n.find? name = some p → p.Counted)
    (hname : s.part.name = name) (hs : s.Balanced (n.others name))
    (hbound : s.part.bound = s.part.metadata.maxCacheSize)
    (hevicts : s.part.evicts = s.part.metadata.evicts)
    (hreserved : s.totals.reservedSize.toNat =
      n.reservedElsewhere name + s.part.metadata.maxCacheSize.toNat) :
    (n.settle s).Balanced := by
  obtain ⟨hitems, hbytes, hallItems, hallBytes, hshared⟩ := hs
  subst hname
  constructor
  · -- the counters of each partition
    intro other q hq
    rcases Table.get?_insert_cases hq with ⟨rfl, rfl⟩ | hold
    · exact ⟨hitems, hbytes, hbound, hevicts⟩
    · exact hparts other q hold
  -- the totals: the sum over the others, and what this partition adds to it
  · rw [show (n.settle s).totals.itemCount.toNat = _ from hallItems, ← hitems]
    exact (Table.total_insert _ _ _ _).symm
  · rw [show (n.settle s).totals.totalSize.toNat = _ from hallBytes, ← hbytes]
    exact (Table.total_insert _ _ _ _).symm
  · rw [show (n.settle s).totals.unreservedSize.toNat = _ from hshared, ← hbytes]
    exact (Table.total_insert _ _ _ _).symm
  · rw [show (n.settle s).totals.reservedSize.toNat = _ from hreserved]
    exact (Table.total_insert _ _ _ _).symm

/-- The other partitions hold no more entries than bytes, draw no more than they hold from the
shared part, and have counted no more than they hold. -/
theorem others_le (hn : n.WellFormed) (hparts : ∀ name p, n.find? name = some p → p.Counted)
    (name : Bytes) :
    (n.others name).items ≤ (n.others name).bytes ∧
      (n.others name).shared ≤ (n.others name).bytes ∧
      (n.others name).bytes ≤ n.bytesElsewhere name := by
  have hfind (other : Bytes) (q : Partition)
      (hq : (n.partitions.erase name).get? other = some q) : n.find? other = some q :=
    Table.get?_of_erase hq
  refine ⟨Table.total_mono ?_, Table.total_mono ?_, Table.total_mono ?_⟩
  · -- no key is empty, so every entry has a byte
    intro other q hq
    obtain ⟨hitems, hbytes, -, -⟩ := hparts other q (hfind other q hq)
    have hsize := Partition.size_le_bytes (hn other q (hfind other q hq)).keyed
    show q.tally.itemCount.toNat ≤ q.tally.totalSize.toNat
    omega
  · intro other q hq
    show q.sharedSize ≤ q.tally.totalSize.toNat
    unfold Partition.sharedSize
    split <;> omega
  · intro other q hq
    exact Nat.le_of_eq (hparts other q (hfind other q hq)).bytes

-- ---------------------------------------------------------------------------
-- Along every change
-- ---------------------------------------------------------------------------

/-- A step of one partition. The node stays below 2^64 bytes, so the totals do, too. -/
theorem Balanced.step (h : n.Balanced) (hn : n.WellFormed) (hp : n.find? name = some p)
    {clears : Prop} (hs : (n.site p).Step clears s)
    (hbytes : (n.settle s).bytesHeld < UInt64.size) :
    (n.settle s).Balanced := by
  have hwf := hn _ _ hp
  have hnamed : s.part.name = name := (Partition.name_eq hs.settings).trans hwf.named
  obtain ⟨hitems, hshared, hothers⟩ := others_le hn h.partitions name
  rw [bytesHeld_settle, hnamed] at hbytes
  have hsize := Partition.size_le_bytes (hs.keyed hwf.keyed)
  have hsite : s.Balanced (n.others name) :=
    hs.balanced (h.site hp) hshared (by omega) (by omega)
  have hmetadata : s.part.metadata = p.metadata := Partition.metadata_eq hs.settings
  have hbound : s.part.bound = p.bound := Partition.bound_eq hs.settings
  have hevicts : s.part.evicts = p.evicts := Partition.evicts_eq hs.settings
  have hreserved : s.totals.reservedSize = n.totals.reservedSize :=
    congrArg Prod.snd hs.division
  refine Balanced.settle h.partitions hnamed hsite ?_ ?_ ?_
  · rw [hbound, hmetadata, hwf.bound]
  · rw [hevicts, hmetadata, hwf.evicts]
  · rw [hreserved, hmetadata]
    exact h.reservedSize hp

/-- Subscriptions have nothing to do with counters. -/
theorem Balanced.watchedBy {α : Type} (h : n.Balanced) (hn : n.WellFormed)
    (hp : n.find? name = some p) (change : α × WatchList × Hub) :
    (n.settle ((n.site p).watchedBy change).2).Balanced := by
  have hwf := hn _ _ hp
  have hsite : (n.site p).Balanced (n.others name) := h.site hp
  have hreserved := h.reservedSize hp
  exact Balanced.settle h.partitions hwf.named hsite hwf.bound hwf.evicts hreserved

/-- What a reservation that was granted does to the totals. -/
theorem reserve_eq_ok {amount credit : ByteCount} {totals : Totals}
    (h : n.reserve name amount credit = .ok totals) :
    totals = { n.totals with reservedSize := n.totals.reservedSize + amount } ∧
      totals.reservedSize.toNat = n.totals.reservedSize.toNat + amount.toNat ∧
      (amount ≠ 0 →
        satAdd totals.reservedSize (satSub n.totals.unreservedSize credit) ≤
          n.totals.maxCacheSize) := by
  unfold reserve at h
  split at h
  · next hzero =>
    -- nothing is reserved for zero bytes
    cases h
    subst hzero
    refine ⟨?_, rfl, fun hne => absurd rfl hne⟩
    rw [show n.totals.reservedSize + 0 = n.totals.reservedSize from UInt64.add_zero _]
  · split at h
    · cases h
    · split at h
      · next granted hgranted =>
        cases h
        obtain ⟨hfits, rfl⟩ := Totals.tryReserve_eq_some_iff.1 hgranted
        exact ⟨rfl, Account.toNat_add_eq rfl hfits.1, fun _ => hfits.2⟩
      · cases h

/-- A new partition has counted nothing and reserves its bound. -/
theorem Balanced.found {metadata : Metadata} {totals : Totals} (h : n.Balanced)
    (hnone : n.find? name = none)
    (hreserve : n.reserve name metadata.maxCacheSize 0 = .ok totals) :
    ({ n with
      totals
      partitions := n.partitions.insert name (.create name metadata n.config.limits) } :
      Node).Balanced := by
  obtain ⟨htotals, hreserved, -⟩ := reserve_eq_ok hreserve
  constructor
  · intro other q hq
    rcases Table.get?_insert_cases hq with ⟨rfl, rfl⟩ | hold
    · exact ⟨rfl, rfl, rfl, rfl⟩
    · exact h.partitions other q hold
  · rw [Table.total_insert_of_none _ _ hnone, ← h.items, htotals]
    rfl
  · rw [Table.total_insert_of_none _ _ hnone, ← h.bytes, htotals]
    rfl
  · rw [Table.total_insert_of_none _ _ hnone, ← h.shared, htotals]
    show _ = n.totals.unreservedSize.toNat + Partition.sharedSize _
    unfold Partition.sharedSize
    split <;> rfl
  · rw [Table.total_insert_of_none _ _ hnone, ← h.reserved]
    exact hreserved

/-- A reconfiguration moves the partition's bytes between the two parts of the budget, and its
reservation grows before and shrinks afterwards. -/
theorem Balanced.reconfigured {metadata : Metadata} {totals : Totals} (h : n.Balanced)
    (hn : n.WellFormed) (hp : n.find? name = some p)
    (hreserve : n.reserve p.name (satSub metadata.maxCacheSize p.bound)
      (if p.bound = 0 then p.tally.totalSize else 0) = .ok totals) :
    (n.reconfigured p metadata totals).Balanced := by
  have hwf := hn _ _ hp
  have hsite := h.site hp
  have hsum : (n.others name).bytes + p.bytes < UInt64.size := hsite.bytes_lt
  obtain ⟨-, hshared, -⟩ := others_le hn h.partitions name
  obtain ⟨htotals, hgrown, -⟩ := reserve_eq_ok hreserve
  have hheld := h.reservedSize hp
  have hbound : p.bound.toNat = p.metadata.maxCacheSize.toNat := by rw [hwf.bound]
  -- the reservation touches no counter
  have hreserved : (({ n with totals } : Node).site p).account.Counts (n.others name)
      p.metadata.maxCacheSize p.entries.size p.bytes := by
    subst htotals
    exact ⟨hsite.items, hsite.bytes, hsite.allItems, hsite.allBytes, hsite.shared⟩
  have hconverted := hreserved.convert metadata.maxCacheSize (by omega)
  refine Balanced.settle (n := { n with totals }) h.partitions hwf.named ?_ rfl rfl ?_
  · exact ⟨hconverted.items, hconverted.bytes, hconverted.allItems, hconverted.allBytes,
      hconverted.shared⟩
  · -- what was reserved grew by the difference of the bounds, or shrinks by it now
    show (satSub (Account.convert _ _ _).totals.reservedSize _).toNat =
      n.reservedElsewhere name + metadata.maxCacheSize.toNat
    rw [toNat_satSub, toNat_satSub, Account.reservedSize_convert]
    show totals.reservedSize.toNat - _ = _
    rw [toNat_satSub] at hgrown
    omega

/-- What a reconfiguration leaves reserved and in shared use: the others keep what they had. -/
theorem parts_reconfigured {metadata : Metadata} {totals : Totals} (h : n.Balanced)
    (hn : n.WellFormed) (hp : n.find? name = some p)
    (hreserve : n.reserve p.name (satSub metadata.maxCacheSize p.bound)
      (if p.bound = 0 then p.tally.totalSize else 0) = .ok totals) :
    (n.reconfigured p metadata totals).totals.reservedSize.toNat =
        n.reservedElsewhere name + metadata.maxCacheSize.toNat ∧
      (n.reconfigured p metadata totals).totals.unreservedSize.toNat =
        (n.others name).shared + if metadata.maxCacheSize = 0 then p.bytes else 0 := by
  have hwf := hn _ _ hp
  have hafter := h.reconfigured hn hp hreserve
  have hfind : (n.reconfigured p metadata totals).find? name = some (p.regranted metadata) := by
    rw [find?_reconfigured, if_pos hwf.named.symm]
  have hsame : (n.reconfigured p metadata totals).partitions.erase name =
      n.partitions.erase name := by
    rw [partitions_reconfigured, hwf.named, Table.erase_insert_self]
  constructor
  · rw [hafter.reservedSize hfind, reservedElsewhere, hsame]
    rfl
  · have hshared := (hafter.site hfind).shared
    rw [others, hsame] at hshared
    exact hshared

/-- An empty partition takes nothing but its reservation along. -/
theorem Balanced.remove (h : n.Balanced) (hp : n.find? name = some p)
    (hempty : p.entries = .empty) :
    ({ n with
      partitions := n.partitions.erase name
      totals := n.totals.releaseReserved p.bound } : Node).Balanced := by
  obtain ⟨hitems, hbytes, hbound, -⟩ := h.partitions name p hp
  have hsize : p.entries.size = 0 := by rw [hempty]; rfl
  have hheld : p.bytes = 0 := by rw [Partition.bytes, hempty]; rfl
  have hreserved := h.reservedSize hp
  have hallItems := h.items.trans (Table.total_eq_erase_add _ hp)
  have hallBytes := h.bytes.trans (Table.total_eq_erase_add _ hp)
  have hallShared := h.shared.trans (Table.total_eq_erase_add _ hp)
  have hshared : p.sharedSize = 0 := by
    unfold Partition.sharedSize
    split <;> omega
  constructor
  · intro other q hq
    exact h.partitions other q (Table.get?_of_erase hq)
  -- each total loses a summand, which is zero but for the reservation
  · show n.totals.itemCount.toNat = _
    rw [hallItems, hitems, hsize, Nat.add_zero]
  · show n.totals.totalSize.toNat = _
    rw [hallBytes, hbytes, hheld, Nat.add_zero]
  · show n.totals.unreservedSize.toNat = _
    rw [hallShared, hshared, Nat.add_zero]
  · show (satSub n.totals.reservedSize p.bound).toNat = n.reservedElsewhere name
    rw [toNat_satSub, hreserved, hbound]
    omega

variable {allows : Partition → Metadata → Prop} {clears : Bytes → Prop} {limit : Nat}

theorem Change.balanced (h : Change allows clears n m) (hn : n.WellFormed) (hb : n.Balanced)
    (hbytes : m.bytesHeld < UInt64.size) : m.Balanced := by
  cases h with
  | visit hp hs => exact hb.step hn hp hs hbytes
  | prune hp => exact hb.watchedBy hn hp _
  | found hname hnone hreserve => exact hb.found hnone hreserve
  | reconfigure hp hallows hreserve => exact hb.reconfigured hn hp hreserve
  | remove hp hempty hwatches => exact hb.remove hp hempty
  | surround world hhub => exact ⟨hb.partitions, hb.items, hb.bytes, hb.shared, hb.reserved⟩

theorem Changes.balanced (h : Changes allows clears limit n m) (hn : n.WellFormed) (hb : n.Balanced)
    (hlimit : limit ≤ UInt64.size) : m.Balanced := by
  induction h with
  | refl => exact hb
  | tail changes change hk ih => exact change.balanced (changes.wellFormed hn) ih (by omega)

theorem Rewatches.balanced {known emptied : Subscriber → Prop}
    (h : Rewatches known emptied n m) (hn : n.WellFormed) (hb : n.Balanced) : m.Balanced := by
  induction h with
  | refl => exact hb
  | tail rewatches rewatch ih =>
    have hwf := rewatches.wellFormed hn
    cases rewatch with
    | add hp predicate hknown => exact ih.watchedBy hwf hp _
    | discard hp selected => exact ih.watchedBy hwf hp _
    | _ => exact ⟨ih.partitions, ih.items, ih.bytes, ih.shared, ih.reserved⟩

-- ---------------------------------------------------------------------------
-- Along every run
-- ---------------------------------------------------------------------------

theorem Fresh.balanced (h : Fresh n) : n.Balanced := by
  obtain ⟨hempty, htotals⟩ := h.empty
  constructor
  · intro name p hp
    exact absurd hp h.not_find?
  all_goals
    rw [hempty, htotals]
    rfl

theorem Fresh.bytesHeld (h : Fresh n) : n.bytesHeld = 0 := by
  rw [Node.bytesHeld, h.empty.1]
  rfl

/-- An operation keeps the counters true if the bytes that are held fit a word before and after
it. -/
theorem perform_balanced (op : Operation) (hn : n.WellFormed) (hb : n.Balanced)
    (hbytes : n.bytesHeld < UInt64.size) (hafter : (n.perform op).2.bytesHeld < UInt64.size) :
    (n.perform op).2.Balanced := by
  cases hop : op.isSubscription with
  | false => exact (perform_changes op hop hn hbytes hafter).balanced hn hb (Nat.le_refl _)
  | true => exact (perform_rewatches_of_any op hop hn).balanced hn hb

/-- True counters have room for everything that can be taken out of them. -/
theorem Balanced.covered (h : n.Balanced) : n.Covered where
  held := by
    intro name p hp
    obtain ⟨hitems, hbytes, hallItems, hallBytes, hshared⟩ := h.site hp
    refine ⟨?_, ?_, ?_, ?_, fun hzero => ?_⟩
    · exact Nat.le_of_eq hitems.symm
    · exact hallItems ▸ Nat.le_add_left _ _
    · exact Nat.le_of_eq hbytes.symm
    · exact hallBytes ▸ Nat.le_add_left _ _
    · rw [hshared]
      show p.bytes ≤ _ + if p.metadata.maxCacheSize = 0 then p.bytes else 0
      rw [if_pos hzero]
      exact Nat.le_add_left _ _
  reserved := by
    intro name p hp
    have hreserved := h.reservedSize hp
    rw [UInt64.le_iff_toNat_le, (h.partitions name p hp).bound]
    omega

/-- Every run that starts without partitions keeps all counters true, as long as the bytes that
the partitions hold together stay below 2^64. So no counter is ever asked for more than it has. -/
theorem counters_true (hn : Fresh n)
    (hrun : Reaches (fun k op => (k.perform op).2.bytesHeld < UInt64.size) n m) :
    m.Balanced ∧ m.Covered := by
  -- the bytes before an operation are those after the one before it
  have hkept : m.WellFormed ∧ m.bytesHeld < UInt64.size ∧ m.Balanced := by
    refine hrun.invariant (P := fun k => k.WellFormed ∧ k.bytesHeld < UInt64.size ∧ k.Balanced)
      ⟨hn.wellFormed, ?_, hn.balanced⟩ ?_
    · rw [hn.bytesHeld]
      decide
    · rintro k op ⟨hwf, hbytes, hb⟩ hafter
      exact ⟨perform_wellFormed op hwf, hafter, perform_balanced op hwf hb hbytes hafter⟩
  obtain ⟨-, -, hb⟩ := hkept
  exact ⟨hb, hb.covered⟩

/-- A partition is written to, gets a bound and an interval, has its expired entry overwritten by a
longer one, and loses its bound again. -/
def conversions : List Operation :=
  [ .put .upsert [112] [107] [1, 2, 3] 5,
    .putPartition [112] { createDate := (bare {}).today, interval := 10, maxCacheSize := 100 },
    .put .upsert [112] [107] [1, 2, 3, 4, 5] 50,
    .putPartition [112] { createDate := (bare {}).today } ]

theorem counters_true_conversions :
    (performAll conversions (bare {})).2.Balanced ∧
      (performAll conversions (bare {})).2.Covered :=
  counters_true (fresh_bare {})
    (.step (.step (.step (.step .start _ (by decide)) _ (by decide)) _ (by decide)) _ (by decide))

end Node

end CacheNode

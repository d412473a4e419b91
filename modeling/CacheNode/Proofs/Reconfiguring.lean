import CacheNode.Proofs.Budget
import CacheNode.Proofs.Compacting
import CacheNode.Proofs.Configuring
import CacheNode.Proofs.Steady

/-!
# CacheNode — a partition gets new metadata

A partition that is there can be given new metadata at any time. A bound that is raised has to be
covered by the host and by the budget, and the bytes that a partition without a bound holds in shared
use are credited, for it takes them along. Everything else is granted. Several things happen then, in
different places: the reservation grows before and shrinks afterwards, the bytes move between the two
parts of the budget, and readers without a lock are told. What they come to together is that the
reservation follows the bound, that shared use follows the bytes, and that nothing else changes; and
eviction goes by the new policy from then on.

* `Node.Affords` — what the acceptance depends on;
* `Node.Adopts` — what is different afterwards;
* `Site.GoesBy`, `Node.Operation.Retains` — how eviction goes under a policy, and for how long;
* `Node.putPartition_adopts` — both directions, in every state that a run comes to.
-/

namespace CacheNode

/-- By how much the bytes in shared use change when a partition gets new metadata: it takes its bytes
out of the shared part when it gets a bound, and back there when it loses it. -/
def Partition.shift (p : Partition) (metadata : Metadata) : Int :=
  if p.metadata.isBounded = metadata.isBounded then 0
  else if metadata.isBounded then -p.tally.totalSize.toNat
  else p.tally.totalSize.toNat

/-- Eviction goes by a policy. One that never evicts takes nothing. The other proposes entries in the
order of their age, all of them if the sample covers the partition, and takes them one after the
other as long as usage exceeds the goal; it takes one at least if there is any. -/
def Site.GoesBy (s : Site) : EvictionPolicy → Prop
  | .noEviction => ∀ count now goal, s.evict count now goal = (0, s)
  | .approximateLru => ∀ count now goal, ∃ order : List (Bytes × Entry),
      order.Subperm s.part.entries.rows ∧ order.Pairwise Older ∧
        (s.part.entries.size ≤ max 1 s.part.limits.keyEvictionSamples * count →
          order.Perm s.part.entries.rows) ∧
        s.Sheds goal (s.part.expiry now) (order.take (s.evict count now goal).1)
          (s.evict count now goal).2 ∧
        (s.evict count now goal).1 ≤ min count order.length ∧
        ((s.evict count now goal).1 < min count order.length →
          (s.shed (s.part.expiry now) (order.take (s.evict count now goal).1)).overTarget
            s.part.metadata.maxCacheSize goal = false) ∧
        (1 ≤ count → 0 < s.part.entries.size →
          s.overTarget s.part.metadata.maxCacheSize goal = true →
          1 ≤ (s.evict count now goal).1)

/-- At every site eviction goes by the policy that the partition has in its metadata. -/
theorem Site.goesBy (s : Site) : s.GoesBy s.part.metadata.policy := by
  cases hpolicy : s.part.metadata.policy with
  | noEviction =>
    intro count now goal
    rw [evict]
    split
    · rfl
    · simp only [hpolicy, EvictionPolicy.candidates, evictEach]
  | approximateLru =>
    intro count now goal
    obtain ⟨order, hrows, holder, hall, hle, hsheds, hmet⟩ := evict_sheds s count now goal
    refine ⟨order, hrows, holder, hall hpolicy, hsheds, hle, hmet, ?_⟩
    intro hcount hsize hover
    exact evict_pos hpolicy (Nat.one_le_iff_ne_zero.1 hcount) hsize hover

namespace Node

variable {n m k : Node} {name other : Bytes} {p : Partition} {metadata : Metadata}
  {totals : Totals}

/-- A bound that is not raised is granted. Otherwise the host has to back the growth, and the
budget has to cover all reservations with it, beside what stays in shared use. -/
def Affords (n : Node) (p : Partition) (metadata : Metadata) : Prop :=
  metadata.maxCacheSize ≤ p.metadata.maxCacheSize ∨
    n.host.canCommit (metadata.maxCacheSize - p.metadata.maxCacheSize) = true ∧
      n.totals.reservedSize.toNat +
          (metadata.maxCacheSize.toNat - p.metadata.maxCacheSize.toNat) +
          (n.totals.unreservedSize.toNat - p.sharedSize) ≤
        n.totals.maxCacheSize.toNat

/-- Whether an operation leaves the configuration of a partition alone, and the partition in the
table. -/
def Operation.Retains (name : Bytes) : Operation → Prop
  | .putPartition other _ | .deletePartition other => other ≠ name
  | .recover => False
  | _ => True

/-- A node has given a partition new metadata, and nothing else has changed. -/
structure Adopts (n : Node) (name : Bytes) (p : Partition) (metadata : Metadata) (m : Node) :
    Prop where
  /-- its entries, its counters and its watches are the same -/
  part : m.find? name = some
    { p with
      metadata := { metadata with createDate := p.metadata.createDate }
      bound := metadata.maxCacheSize
      evicts := metadata.evicts }
  others : ∀ other, other ≠ name → m.find? other = n.find? other
  reserved : (m.totals.reservedSize.toNat : Int) - n.totals.reservedSize.toNat =
    metadata.maxCacheSize.toNat - p.metadata.maxCacheSize.toNat
  shared : (m.totals.unreservedSize.toNat : Int) - n.totals.unreservedSize.toNat =
    p.shift metadata
  counters : m.totals =
    { n.totals with
      reservedSize := m.totals.reservedSize
      unreservedSize := m.totals.unreservedSize }
  /-- no event is published -/
  silent : m.world.hub = n.world.hub
  /-- its compaction is requested once, or not at all -/
  requests : m.world.requests =
    if n.collects = true ∧ (m.site (m.target name)).Overfull (m.others name) then
      n.world.requests.map (· ++ [name])
    else n.world.requests
  /-- eviction goes by the new policy as long as nobody configures the partition again -/
  later : ∀ k, Reaches (fun _ op => op.Retains name) m k →
    ∃ q, k.find? name = some q ∧ (k.site q).GoesBy metadata.policy

-- ---------------------------------------------------------------------------
-- Acceptance
-- ---------------------------------------------------------------------------

/-- What is asked of the host and of the budget is the growth of the bound. -/
theorem reserveNext_iff (hn : n.WellFormed) (hp : n.find? name = some p)
    (hmax : n.totals.maxCacheSize.toNat < UInt64.size - 1) :
    (∃ totals, n.reserveNext p metadata = .ok totals) ↔ n.Affords p metadata := by
  have hbound : p.bound = p.metadata.maxCacheSize := (hn _ _ hp).bound
  have hcredit : (if p.bound = 0 then p.tally.totalSize else 0).toNat = p.sharedSize := by
    rw [hbound, Partition.sharedSize]
    split <;> rfl
  unfold reserveNext Affords
  by_cases hsmaller : metadata.maxCacheSize ≤ p.metadata.maxCacheSize
  · -- nothing is reserved
    have hnothing : satSub metadata.maxCacheSize p.bound = 0 := by
      apply UInt64.toNat.inj
      rw [toNat_satSub, hbound]
      exact Nat.sub_eq_zero_of_le (UInt64.le_iff_toNat_le.1 hsmaller)
    exact iff_of_true ⟨n.totals, by rw [hnothing, reserve, if_pos rfl]⟩ (.inl hsmaller)
  · have hlarger := UInt64.not_le.1 hsmaller
    have hgrowth : satSub metadata.maxCacheSize p.bound =
        metadata.maxCacheSize - p.metadata.maxCacheSize := by
      rw [hbound, satSub, if_pos (UInt64.le_of_lt hlarger)]
    have hamount : (metadata.maxCacheSize - p.metadata.maxCacheSize).toNat =
        metadata.maxCacheSize.toNat - p.metadata.maxCacheSize.toNat :=
      UInt64.toNat_sub_of_le _ _ (UInt64.le_of_lt hlarger)
    rw [hgrowth, or_iff_right hsmaller, ← hamount, ← hcredit]
    constructor
    · rintro ⟨totals, hreserve⟩
      obtain ⟨-, hgrown, hfits⟩ := reserve_eq_ok hreserve
      have hpositive : metadata.maxCacheSize - p.metadata.maxCacheSize ≠ 0 := by
        intro hzero
        rw [hzero] at hamount
        have hlt := UInt64.lt_iff_toNat_lt.1 hlarger
        change 0 = _ at hamount
        omega
      have hsum := add_le_of_satAdd_le (hfits hpositive) hmax
      rw [hgrown, toNat_satSub] at hsum
      refine ⟨?_, hsum⟩
      rw [reserve, if_neg hpositive] at hreserve
      split at hreserve
      · cases hreserve
      · next hcommit => simpa using hcommit
    · rintro ⟨hcommit, hfits⟩
      exact reserve_of_fits p.name hcommit hfits

theorem putPartition_of_find? (hn : n.WellFormed) (hp : n.find? name = some p)
    (metadata : Metadata) : n.putPartition name metadata = n.reconfigure p metadata := by
  have hname : PartitionName.check name = .ok () := (hn _ _ hp).valid
  simp only [putPartition, hname, hp]

/-- Where the new metadata can be stored, they are accepted exactly if they can be afforded. -/
theorem putPartition_ok_iff (hn : n.WellFormed) (hp : n.find? name = some p)
    (hmax : n.totals.maxCacheSize.toNat < UInt64.size - 1)
    (hstored : (n.storedNext p metadata).1 = .ok ()) :
    (n.putPartition name metadata).1 = .ok () ↔ n.Affords p metadata := by
  rw [putPartition_of_find? hn hp, ← reserveNext_iff hn hp hmax]
  constructor
  · intro hok
    rcases reconfigure_cases (hn _ _ hp).inUse n metadata with
      ⟨err, -, heq⟩ | ⟨err, herr, -⟩ | ⟨totals, -, hreserve, -, -, -⟩
    · rw [heq] at hok
      cases hok
    · rw [hstored] at herr
      cases herr
    · exact ⟨totals, hreserve⟩
  · rintro ⟨totals, hreserve⟩
    rw [reconfigure_of_granted (hn _ _ hp).inUse hreserve hstored]

-- ---------------------------------------------------------------------------
-- What changes
-- ---------------------------------------------------------------------------

/-- The reservation follows the bound, and shared use the bytes that the partition brings along or
takes away. -/
theorem parts_shifted (hn : n.WellFormed) (hb : n.Balanced) (hp : n.find? name = some p)
    (hreserve : n.reserveNext p metadata = .ok totals) :
    ((n.reconfigured p metadata totals).totals.reservedSize.toNat : Int) -
          n.totals.reservedSize.toNat =
        metadata.maxCacheSize.toNat - p.metadata.maxCacheSize.toNat ∧
      ((n.reconfigured p metadata totals).totals.unreservedSize.toNat : Int) -
          n.totals.unreservedSize.toNat = p.shift metadata := by
  obtain ⟨hreserved, hshared⟩ := parts_reconfigured hb hn hp hreserve
  have hreservedBefore := hb.reservedSize hp
  have hsharedBefore : n.totals.unreservedSize.toNat =
      (n.others name).shared + if p.metadata.maxCacheSize = 0 then p.bytes else 0 :=
    (hb.site hp).shared
  have hbytes : p.tally.totalSize.toNat = p.bytes := (hb.partitions _ _ hp).bytes
  have hbounded (md : Metadata) : md.isBounded = decide (md.maxCacheSize ≠ 0) := by
    simp [Metadata.isBounded, UInt64.pos_iff_ne_zero]
  refine ⟨by omega, ?_⟩
  rw [hshared, hsharedBefore, Partition.shift, hbounded, hbounded, hbytes]
  -- bounded or not, before and afterwards
  by_cases hold : p.metadata.maxCacheSize = 0
  · by_cases hnew : metadata.maxCacheSize = 0
    · simp [hold, hnew]
    · simp [hold, hnew]
  · by_cases hnew : metadata.maxCacheSize = 0
    · simp [hold, hnew]
    · simp [hold, hnew]

/-- The partition is over its budget afterwards exactly if there is something to compact. -/
theorem overBudget_reconfigured (hn : n.WellFormed) (hb : n.Balanced) (hp : n.find? name = some p)
    (hreserve : n.reserveNext p metadata = .ok totals) :
    (metadata.evicts &&
        ((n.reconfigured p metadata totals).site (p.regranted metadata)).isOverBudget) = true ↔
      ((n.reconfigured p metadata totals).site (p.regranted metadata)).Overfull
        ((n.reconfigured p metadata totals).others name) := by
  have hbalanced := hb.reconfigured hn hp hreserve
  have hfind : (n.reconfigured p metadata totals).find? name = some (p.regranted metadata) := by
    rw [find?_reconfigured, if_pos (hn _ _ hp).named.symm]
  have hover := Site.overfull_iff (hbalanced.partitions _ _ hfind) (hbalanced.site hfind)
  exact Bool.and_eq_true_iff.trans hover

/-- A reconfiguration touches two of the totals. -/
theorem totals_reconfigured (hreserve : n.reserveNext p metadata = .ok totals) :
    (n.reconfigured p metadata totals).totals =
      { n.totals with
        reservedSize := (n.reconfigured p metadata totals).totals.reservedSize
        unreservedSize := (n.reconfigured p metadata totals).totals.unreservedSize } := by
  obtain ⟨htotals, -, -⟩ := reserve_eq_ok hreserve
  have hconverted (a : Account) (old new : ByteCount) : (a.convert old new).totals =
      { a.totals with
        reservedSize := (a.convert old new).totals.reservedSize
        unreservedSize := (a.convert old new).totals.unreservedSize } := by
    unfold Account.convert
    split
    · rfl
    · split <;> rfl
  subst htotals
  show Totals.releaseReserved (Account.convert _ _ _).totals _ = _
  rw [hconverted]
  rfl

/-- Storing the metadata has nothing to do with channels and requests. -/
theorem storedNext_surroundings (n : Node) (p : Partition) (metadata : Metadata) :
    (n.storedNext p metadata).2.hub = n.world.hub ∧
      (n.storedNext p metadata).2.requests = n.world.requests := by
  have hpersist (md : Metadata) :
      (n.world.persist n.storage p.name md).2.requests = n.world.requests := by
    cases n.storage <;> rfl
  have hdelete : (n.world.delete n.storage p.name).2.requests = n.world.requests := by
    cases n.storage <;> rfl
  rw [storedNext_eq]
  split
  · exact ⟨hub_persist _ _ _ _, hpersist _⟩
  · split
    · exact ⟨hub_delete _ _ _, hdelete⟩
    · exact ⟨rfl, rfl⟩

/-- What retains a partition leaves it with its metadata. -/
theorem configured_of_retains {op : Operation} (hop : op.Retains name) (hn : n.WellFormed)
    (hconfigured : n.configured name = some metadata) :
    (n.perform op).2.configured name = some metadata := by
  cases hconfigures : op.configures with
  | false => exact (perform_steady op hconfigures hn).configured hconfigured
  | true =>
    cases op with
    | putPartition other md =>
      have hsame : (n.putPartition other md).2.find? name = n.find? name :=
        find?_putPartition_of_ne md hn hop
      rw [← hconfigured, configured, configured, ← hsame]
      rfl
    | deletePartition other =>
      have hsame : (n.deletePartition other).2.find? name = n.find? name :=
        find?_deletePartition_of_ne hn hop
      rw [← hconfigured, configured, configured, ← hsame]
      rfl
    | recover => exact hop.elim
    | _ => cases hconfigures

/-- So eviction goes by its policy until it is configured again. -/
theorem goesBy_of_retained (hn : n.WellFormed) (hconfigured : n.configured name = some metadata)
    (hrun : Reaches (fun _ op => op.Retains name) n k) :
    ∃ q, k.find? name = some q ∧ (k.site q).GoesBy metadata.policy := by
  have hkept : k.WellFormed ∧ k.configured name = some metadata :=
    hrun.invariant (P := fun k => k.WellFormed ∧ k.configured name = some metadata)
      ⟨hn, hconfigured⟩ fun _ op hk hop =>
        ⟨perform_wellFormed op hk.1, configured_of_retains hop hk.1 hk.2⟩
  obtain ⟨q, hq, rfl⟩ := Option.map_eq_some_iff.1 hkept.2
  exact ⟨q, hq, (k.site q).goesBy⟩

/-- A request for compaction joins those that wait for the collector, and changes nothing else. -/
theorem requestCompaction_if (n : Node) (name : Bytes) (wanted : Bool) :
    (if wanted then n.requestCompaction name else n) =
      { n with
        world :=
          { n.world with
            requests :=
              if n.collects = true ∧ wanted = true then n.world.requests.map (· ++ [name])
              else n.world.requests } } := by
  cases wanted with
  | false => simp
  | true =>
    by_cases hcollects : n.collects = true
    · rw [if_pos rfl, requestCompaction, if_pos hcollects, if_pos ⟨hcollects, rfl⟩]
      rfl
    · rw [if_pos rfl, requestCompaction, if_neg hcollects, if_neg fun h => hcollects h.1]

/-- The change, and the request that may follow it. -/
theorem adopts_reconfigured (hn : n.WellFormed) (hb : n.Balanced) (hp : n.find? name = some p)
    (hreserve : n.reserveNext p metadata = .ok totals) :
    n.Adopts name p metadata
      (if metadata.evicts &&
          ((n.reconfigured p metadata totals).site (p.regranted metadata)).isOverBudget then
        (n.reconfigured p metadata totals).requestCompaction p.name
      else n.reconfigured p metadata totals) := by
  have hnamed : p.name = name := (hn _ _ hp).named
  have hfind : (n.reconfigured p metadata totals).find? name = some (p.regranted metadata) := by
    rw [find?_reconfigured, if_pos hnamed.symm]
  have hchange : Change (fun _ _ => True) (fun _ => False) n (n.reconfigured p metadata totals) :=
    .reconfigure hp trivial hreserve
  obtain ⟨hreserved, hshared⟩ := parts_shifted hn hb hp hreserve
  have hcounters := totals_reconfigured hreserve
  have hover := overBudget_reconfigured hn hb hp hreserve
  rw [requestCompaction_if, hnamed]
  -- nothing but the requests depends on which requests there are
  generalize hrequests : (if (n.reconfigured p metadata totals).collects = true ∧
      (metadata.evicts &&
        ((n.reconfigured p metadata totals).site (p.regranted metadata)).isOverBudget) = true then
      (n.reconfigured p metadata totals).world.requests.map (· ++ [name])
    else (n.reconfigured p metadata totals).world.requests) = requests
  have htarget : ({ n.reconfigured p metadata totals with
      world := { (n.reconfigured p metadata totals).world with requests } } : Node).target name =
        p.regranted metadata := target_of_find? hfind
  exact
    { part := hfind
      others := by
        intro other hne
        show (n.reconfigured p metadata totals).find? other = _
        rw [find?_reconfigured, if_neg (hnamed ▸ hne)]
      reserved := hreserved
      shared := hshared
      counters := hcounters
      silent := rfl
      requests := by
        rw [htarget, ← hrequests]
        exact if_congr (and_congr_right fun _ => hover) rfl rfl
      later := by
        intro k hrun
        have hconfigured : (n.reconfigured p metadata totals).configured name =
            some (p.metadata.apply metadata) := configured_of_find? hfind
        obtain ⟨q, hq, hgoes⟩ := goesBy_of_retained (n := { n.reconfigured p metadata totals with
          world := { (n.reconfigured p metadata totals).world with requests } })
          (hchange.wellFormed hn) hconfigured hrun
        exact ⟨q, hq, hgoes⟩ }

/-- Storing the metadata before makes no difference. -/
theorem Adopts.of_surroundings {world : World}
    (h : ({ n with world } : Node).Adopts name p metadata m) (hhub : world.hub = n.world.hub)
    (hrequests : world.requests = n.world.requests) : n.Adopts name p metadata m where
  part     := h.part
  others   := h.others
  reserved := h.reserved
  shared   := h.shared
  counters := h.counters
  silent   := h.silent.trans hhub
  requests := by
    rw [← hrequests]
    exact h.requests
  later    := h.later

-- ---------------------------------------------------------------------------
-- In every state
-- ---------------------------------------------------------------------------

/-- A node with a budget of 100 bytes. Compaction requests can be collected, and the node sends them
or does not. -/
def budgeted (collects : Bool) : Node :=
  { bare { maxCacheSize := 100 } with
    collects
    world := { (bare {}).world with requests := some [] } }

theorem fresh_budgeted (collects : Bool) : Fresh (budgeted collects) :=
  ⟨{ maxCacheSize := 100 }, ⟨none⟩, .ok .nowhere, collects, (bare {}).today,
    (budgeted collects).world, rfl⟩

/-- A partition without a bound holds nine bytes in shared use. -/
def tenant (collects : Bool) : Node :=
  (performAll [.put .upsert [112] [107] [1, 2, 3, 4, 5, 6, 7, 8] 5] (budgeted collects)).2

/-- A node on whose budget one partition has reserved everything. Another one is empty and has no
bound. -/
def crowdedOut : Node :=
  (performAll [.putPartition [113] (bounding 100 false), .putPartition [112] (bounding 0 false)]
    (budgeted true)).2

/-- New metadata that are accepted lead to a request whenever the policy evicts and usage is at or
over the budget. -/
def RequestsByUsage (n : Node) (name : Bytes) (metadata : Metadata) : Prop :=
  (n.putPartition name metadata).1 = .ok () ∧ metadata.evicts = true ∧
      ((n.putPartition name metadata).2.site
          ((n.putPartition name metadata).2.target name)).budget ≤
        ((n.putPartition name metadata).2.site
          ((n.putPartition name metadata).2.target name)).drawn
            ((n.putPartition name metadata).2.others name) →
    (n.putPartition name metadata).2.world.requests = n.world.requests.map (· ++ [name])

instance (n : Node) (name : Bytes) (metadata : Metadata) :
    Decidable (n.RequestsByUsage name metadata) :=
  inferInstanceAs (Decidable (_ → _))

end Node

end CacheNode

import CacheNode.Proofs.Budget

/-!
# CacheNode — reservations are backed

A reservation is granted as the growth of one partition's bound, beside whatever is in shared use
at that moment. In the long run this says about the reservations alone that they are the sum of the
bounds and never exceed the budget, whatever the partitions hold: unlike the other counters, they
need no limit on the bytes that are held.

What a node was built with stays as it is: its configuration, the memory of its host, the place
where configurations are kept, and its budget.

* `Node.Backed` — reservations are the sum of the bounds, within the budget;
* `Node.perform_backed` — and stay so in every operation;
* `Node.perform_premises` — what no operation changes.
-/

namespace CacheNode.Node

/-- The reservations are those of the partitions in the table, and the budget covers them. -/
structure Backed (n : Node) : Prop where
  sum : n.totals.reservedSize.toNat =
    n.partitions.total fun row => row.2.metadata.maxCacheSize.toNat
  covered : n.totals.reservedSize.toNat ≤ n.totals.maxCacheSize.toNat

/-- What a node was built with. -/
def premises (n : Node) : Config × HostMemory × Storage × ByteCount :=
  (n.config, n.host, n.storage, n.totals.maxCacheSize)

variable {n m : Node} {name : Bytes} {p : Partition} {s : Site}
  {allows : Partition → Metadata → Prop} {clears : Bytes → Prop} {limit : Nat}
  {known emptied : Subscriber → Prop}

theorem le_of_satAdd_le {a b budget : UInt64} (h : satAdd a b ≤ budget) :
    a.toNat ≤ budget.toNat := by
  have ha := a.toNat_lt
  rw [UInt64.le_iff_toNat_le, toNat_satAdd] at h
  omega

/-- What a granted reservation leaves: as much more as was asked for, within the budget. -/
theorem covered_of_reserve {amount credit : ByteCount} {totals : Totals}
    (h : n.reserve name amount credit = .ok totals)
    (hcovered : n.totals.reservedSize.toNat ≤ n.totals.maxCacheSize.toNat) :
    totals.maxCacheSize = n.totals.maxCacheSize ∧
      totals.reservedSize.toNat = n.totals.reservedSize.toNat + amount.toNat ∧
      totals.reservedSize.toNat ≤ n.totals.maxCacheSize.toNat := by
  obtain ⟨htotals, hgrown, hfits⟩ := reserve_eq_ok h
  refine ⟨by rw [htotals], hgrown, ?_⟩
  by_cases hzero : amount = 0
  · have hnothing : amount.toNat = 0 := by rw [hzero]; rfl
    omega
  · exact le_of_satAdd_le (hfits hzero)

namespace Backed

theorem parts (h : n.Backed) (hp : n.find? name = some p) :
    n.totals.reservedSize.toNat =
      n.reservedElsewhere name + p.metadata.maxCacheSize.toNat :=
  h.sum.trans (Table.total_eq_erase_add _ hp)

/-- Work on a partition that touches neither its metadata nor the division of the budget. -/
theorem settle (h : n.Backed) (hp : n.find? name = some p) (hname : s.part.name = name)
    (hmetadata : s.part.metadata = p.metadata) (hdivision : s.division = (n.site p).division) :
    (n.settle s).Backed := by
  have hmax : s.totals.maxCacheSize = n.totals.maxCacheSize := congrArg Prod.fst hdivision
  have hreserved : s.totals.reservedSize = n.totals.reservedSize := congrArg Prod.snd hdivision
  constructor
  · show s.totals.reservedSize.toNat = Table.total (n.partitions.insert _ _) _
    rw [Table.total_insert, hname, hmetadata, hreserved]
    exact h.parts hp
  · show s.totals.reservedSize.toNat ≤ s.totals.maxCacheSize.toNat
    rw [hmax, hreserved]
    exact h.covered

theorem found {metadata : Metadata} {totals : Totals} (h : n.Backed)
    (hnone : n.find? name = none)
    (hreserve : n.reserve name metadata.maxCacheSize 0 = .ok totals) :
    ({ n with
      totals
      partitions := n.partitions.insert name (.create name metadata n.config.limits) } :
      Node).Backed := by
  obtain ⟨hmax, hgrown, hcovered⟩ := covered_of_reserve hreserve h.covered
  constructor
  · rw [Table.total_insert_of_none _ _ hnone, ← h.sum]
    exact hgrown
  · show totals.reservedSize.toNat ≤ totals.maxCacheSize.toNat
    rw [hmax]
    exact hcovered

/-- The reservation grew by the difference of the bounds before, or shrinks by it afterwards. -/
theorem reconfigured {metadata : Metadata} {totals : Totals} (h : n.Backed) (hn : n.WellFormed)
    (hp : n.find? name = some p)
    (hreserve : n.reserve p.name (satSub metadata.maxCacheSize p.bound)
      (if p.bound = 0 then p.tally.totalSize else 0) = .ok totals) :
    (n.reconfigured p metadata totals).Backed := by
  obtain ⟨-, hgrown, hcovered⟩ := covered_of_reserve hreserve h.covered
  have hwf := hn _ _ hp
  have hparts := h.parts hp
  have hafter : (n.reconfigured p metadata totals).totals.reservedSize.toNat =
      totals.reservedSize.toNat - (p.metadata.maxCacheSize.toNat - metadata.maxCacheSize.toNat) := by
    show (satSub (Account.convert _ _ _).totals.reservedSize _).toNat = _
    rw [toNat_satSub, toNat_satSub, Account.reservedSize_convert, hwf.bound]
    rfl
  rw [toNat_satSub, hwf.bound] at hgrown
  constructor
  · rw [partitions_reconfigured, Table.total_insert, hwf.named, hafter]
    show _ = n.reservedElsewhere name + metadata.maxCacheSize.toNat
    omega
  · have hchange : Change (fun _ _ => True) (fun _ => False) n (n.reconfigured p metadata totals) :=
      .reconfigure hp trivial hreserve
    rw [hafter, hchange.maxCacheSize]
    omega

theorem remove (h : n.Backed) (hn : n.WellFormed) (hp : n.find? name = some p) :
    ({ n with
      partitions := n.partitions.erase name
      totals := n.totals.releaseReserved p.bound } : Node).Backed := by
  have hparts := h.parts hp
  have hcovered := h.covered
  constructor
  · show (satSub n.totals.reservedSize p.bound).toNat = n.reservedElsewhere name
    rw [toNat_satSub, (hn _ _ hp).bound]
    omega
  · show (satSub n.totals.reservedSize p.bound).toNat ≤ n.totals.maxCacheSize.toNat
    rw [toNat_satSub]
    omega

end Backed

-- ---------------------------------------------------------------------------
-- Along every operation
-- ---------------------------------------------------------------------------

theorem Change.backed (h : Change allows clears n m) (hn : n.WellFormed) (hb : n.Backed) :
    m.Backed := by
  cases h with
  | visit hp hs =>
    have hsettings := hs.settings
    exact hb.settle hp ((Partition.name_eq hsettings).trans (hn _ _ hp).named)
      (Partition.metadata_eq hsettings) hs.division
  | prune hp => exact hb.settle hp (hn _ _ hp).named rfl rfl
  | found hname hnone hreserve => exact hb.found hnone hreserve
  | reconfigure hp hallows hreserve => exact hb.reconfigured hn hp hreserve
  | remove hp hempty hwatches => exact hb.remove hn hp
  | surround world hhub => exact ⟨hb.sum, hb.covered⟩

theorem Changes.backed (h : Changes allows clears limit n m) (hn : n.WellFormed) (hb : n.Backed) :
    m.Backed := by
  induction h with
  | refl => exact hb
  | tail changes change hk ih => exact change.backed (changes.wellFormed hn) ih

theorem Rewatch.backed (h : Rewatch known emptied n m) (hn : n.WellFormed) (hb : n.Backed) :
    m.Backed := by
  cases h with
  | add hp predicate hknown => exact hb.settle hp (hn _ _ hp).named rfl rfl
  | discard hp selected => exact hb.settle hp (hn _ _ hp).named rfl rfl
  | _ => exact ⟨hb.sum, hb.covered⟩

theorem Rewatches.backed (h : Rewatches known emptied n m) (hn : n.WellFormed) (hb : n.Backed) :
    m.Backed := by
  induction h with
  | refl => exact hb
  | tail rewatches rewatch ih => exact rewatch.backed (rewatches.wellFormed hn) ih

theorem perform_backed (op : Operation) (hn : n.WellFormed) (hb : n.Backed) :
    (n.perform op).2.Backed := by
  cases hop : op.isSubscription with
  | false => exact (perform_changes_below op hop hn).backed hn hb
  | true => exact (perform_rewatches_of_any op hop hn).backed hn hb

theorem Fresh.backed (h : Fresh n) : n.Backed := by
  obtain ⟨hempty, htotals⟩ := h.empty
  constructor
  · rw [hempty, htotals]
    rfl
  · rw [htotals]
    exact Nat.zero_le _

-- ---------------------------------------------------------------------------
-- What stays
-- ---------------------------------------------------------------------------

theorem Change.premises (h : Change allows clears n m) : m.premises = n.premises := by
  have hmax := h.maxCacheSize
  have hconfig := h.config
  have hrest : m.host = n.host ∧ m.storage = n.storage := by cases h <;> exact ⟨rfl, rfl⟩
  simp only [Node.premises, hmax, hconfig, hrest]

theorem Changes.premises (h : Changes allows clears limit n m) : m.premises = n.premises := by
  induction h with
  | refl => rfl
  | tail changes change hk ih => exact change.premises.trans ih

theorem Rewatches.premises (h : Rewatches known emptied n m) : m.premises = n.premises := by
  induction h with
  | refl => rfl
  | tail rewatches rewatch ih =>
    refine Eq.trans ?_ ih
    cases rewatch <;> rfl

theorem perform_premises (op : Operation) (hn : n.WellFormed) :
    (n.perform op).2.premises = n.premises := by
  cases hop : op.isSubscription with
  | false => exact (perform_changes_below op hop hn).premises
  | true => exact (perform_rewatches_of_any op hop hn).premises

end CacheNode.Node

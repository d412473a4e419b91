import CacheNode.Proofs.Accounting
import CacheNode.Proofs.Capacity

/-!
# CacheNode — the budget of a node is kept

A bounded partition holds no more than its bound, and the bounds together with what the unbounded
partitions hold never exceed the budget of the node. The two parts of the budget constrain each
other: a reservation has to leave room for what is in shared use, shared use ends where the
reservations begin, and a partition that changes between the two takes its bytes along.

One thing is up to the clients: lowering the bound of a partition below what it holds puts it over
its bound until it is compacted. Runs that never do this keep the budget throughout.

* `Node.Within` — the budget is kept;
* `Node.Change.within` — and stays kept along every change;
* `Node.budget_kept` — in every state of every run.
-/

namespace CacheNode

namespace Site

open Account (Others)

/-- At a site the budget is kept: the partition's own, and that of the node. -/
structure Within (s : Site) : Prop where
  bounded : s.part.metadata.maxCacheSize ≠ 0 →
    s.part.tally.totalSize.toNat ≤ s.part.metadata.maxCacheSize.toNat
  shared : s.totals.reservedSize.toNat + s.totals.unreservedSize.toNat ≤
    s.totals.maxCacheSize.toNat

variable {s t : Site} {o : Others}

/-- The budget in terms of what the partition and the others hold. -/
theorem within_iff (h : s.Balanced o) :
    s.Within ↔
      if s.part.metadata.maxCacheSize = 0 then
        s.division.2.toNat + (o.shared + s.part.bytes) ≤ s.division.1.toNat
      else
        s.part.bytes ≤ s.part.metadata.maxCacheSize.toNat ∧
          s.division.2.toNat + o.shared ≤ s.division.1.toNat := by
  have hbytes : s.part.tally.totalSize.toNat = s.part.bytes := h.bytes
  have hshared : s.totals.unreservedSize.toNat = _ := h.shared
  split
  · next hzero =>
    rw [if_pos hzero] at hshared
    constructor
    · rintro ⟨-, hwithin⟩
      rwa [hshared] at hwithin
    · intro hwithin
      exact ⟨fun hbound => absurd hzero hbound, hshared ▸ hwithin⟩
  · next hbound =>
    rw [if_neg hbound, Nat.add_zero] at hshared
    constructor
    · rintro ⟨hbounded, hwithin⟩
      exact ⟨hbytes ▸ hbounded hbound, hshared ▸ hwithin⟩
    · rintro ⟨hbounded, hwithin⟩
      exact ⟨fun _ => hbytes ▸ hbounded, hshared ▸ hwithin⟩

/-- A partition that holds no more than before keeps the budget if it was kept. -/
theorem Within.of_bytes_le (h : s.Within) (hs : s.Balanced o) (ht : t.Balanced o)
    (hmetadata : t.part.metadata = s.part.metadata) (hdivision : t.division = s.division)
    (hle : t.part.bytes ≤ s.part.bytes) : t.Within := by
  rw [within_iff hs] at h
  rw [within_iff ht, hmetadata, hdivision]
  by_cases hzero : s.part.metadata.maxCacheSize = 0
  · rw [if_pos hzero] at h ⊢
    omega
  · rw [if_neg hzero] at h ⊢
    exact ⟨Nat.le_trans hle h.1, h.2⟩

/-- Growth that is admitted is within the budget that the partition draws from. -/
theorem Within.of_tryGrow {a : Account} {delta : ByteCount} (h : s.Within) (hs : s.Balanced o)
    (ht : t.Balanced o) (hmetadata : t.part.metadata = s.part.metadata)
    (hdivision : t.division = s.division)
    (hgrow : s.account.tryGrow delta s.part.metadata.maxCacheSize = some a)
    (hbytes : t.part.bytes = s.part.bytes + delta.toNat) : t.Within := by
  have hafter := ht.bytes_lt
  rcases Account.tryGrow_cases hgrow with ⟨hzero, -⟩ | ⟨hbound, hfits, -⟩ | ⟨hbound, hfits, -⟩
  · -- nothing was added
    have hdelta : delta.toNat = 0 := by rw [hzero]; rfl
    exact h.of_bytes_le hs ht hmetadata hdivision (by omega)
  · -- the sum that was compared with the bound is the size afterwards, for it fits a word
    have htotal : s.account.tally.totalSize.toNat = s.part.bytes := hs.bytes
    rw [UInt64.le_iff_toNat_le, toNat_satAdd, htotal] at hfits
    rw [within_iff hs, if_neg hbound] at h
    rw [within_iff ht, hmetadata, hdivision, if_neg hbound]
    have hsize : UInt64.size = 18446744073709551616 := rfl
    exact ⟨by omega, h.2⟩
  · -- shared use was compared with what the reservations leave of the budget
    have hshared : s.account.totals.unreservedSize.toNat = _ := hs.shared
    rw [if_pos hbound] at hshared
    rw [hshared, Totals.unreservedBudget, toNat_satSub] at hfits
    rw [within_iff hs, if_pos hbound] at h
    rw [within_iff ht, hmetadata, hdivision, if_pos hbound]
    show s.totals.reservedSize.toNat + _ ≤ s.totals.maxCacheSize.toNat
    have hroom : s.totals.reservedSize.toNat + (o.shared + s.part.bytes) ≤
      s.totals.maxCacheSize.toNat := h
    change _ ≤ s.totals.maxCacheSize.toNat - s.totals.reservedSize.toNat at hfits
    omega

/-- A step adds no bytes, or exactly those that were admitted. -/
theorem Step.bytes {clears : Prop} (h : Step clears s t) (hs : s.Balanced o)
    (hfit : o.bytes + t.part.bytes < UInt64.size) :
    t.part.bytes ≤ s.part.bytes ∨
      ∃ delta a, s.account.tryGrow delta s.part.metadata.maxCacheSize = some a ∧
        t.part.bytes = s.part.bytes + delta.toNat := by
  cases h with
  | @renew key e now he =>
    have hbytes : (s.hold (s.part.entries.insert key (e.touch now))).part.bytes = s.part.bytes :=
      bytes_renew he rfl
    exact .inl (Nat.le_of_eq hbytes)
  | takeOut cause he =>
    have hbytes := bytes_takeOut cause he
    exact .inl (by omega)
  | amend fresh now he hlen => exact .inl (Nat.le_of_eq (bytes_renew he hlen))
  | @create key grown fresh hkey hnone hgrown =>
    obtain ⟨a, hadmitted, rfl⟩ := grow_eq_some hgrown
    refine .inr ⟨_, a, hadmitted, ?_⟩
    have hinsert : (s.hold (s.part.entries.insert key fresh)).part.bytes + s.part.bytesAt key =
        s.part.bytes + Entry.weight key fresh.payload := Partition.bytes_insert _ _ _
    rw [Partition.bytesAt_of_none hnone, Nat.add_zero] at hinsert
    have hlt : o.bytes + (s.hold (s.part.entries.insert key fresh)).part.bytes < UInt64.size :=
      hfit
    rw [UInt64.toNat_ofNat_of_lt' (by omega)]
    exact hinsert
  | @write items mode plan grown now hplan hgrown =>
    obtain ⟨hexchange, hold⟩ := bytes_commit hplan hgrown
    have hbefore := hs.bytes_lt
    by_cases hgrows : plan.oldBytes < plan.newBytes
    · -- the batch is longer than what it replaces, by as much as was admitted
      obtain ⟨a, hadmitted, rfl⟩ := grow_eq_some hgrown
      refine .inr ⟨_, a, hadmitted, ?_⟩
      rw [UInt64.toNat_ofNat_of_lt' (by omega)]
      omega
    · exact .inl (by omega)
  | _ => exact .inl (Nat.le_refl _)

theorem Step.within {clears : Prop} (h : Step clears s t) (hs : s.Balanced o)
    (ht : t.Balanced o) (hw : s.Within) :
    t.Within := by
  have hmetadata : t.part.metadata = s.part.metadata := Partition.metadata_eq h.settings
  -- the budget was kept before, and what is new was admitted
  rcases h.bytes hs ht.bytes_lt with hle | ⟨delta, a, hgrow, hbytes⟩
  · exact hw.of_bytes_le hs ht hmetadata h.division hle
  · exact hw.of_tryGrow hs ht hmetadata h.division hgrow hbytes

end Site

namespace Node

/-- Every bounded partition keeps its bound, and all partitions together the node's budget. -/
structure Within (n : Node) : Prop where
  bounded : ∀ name p, n.find? name = some p → p.metadata.maxCacheSize ≠ 0 →
    p.tally.totalSize.toNat ≤ p.metadata.maxCacheSize.toNat
  shared : n.totals.reservedSize.toNat + n.totals.unreservedSize.toNat ≤
    n.totals.maxCacheSize.toNat

/-- New metadata that leave a partition within its bound. -/
def Keeps (p : Partition) (metadata : Metadata) : Prop :=
  metadata.maxCacheSize ≠ 0 → p.tally.totalSize.toNat ≤ metadata.maxCacheSize.toNat

instance (p : Partition) (metadata : Metadata) : Decidable (Keeps p metadata) :=
  inferInstanceAs (Decidable (_ → _))

variable {n m : Node} {name : Bytes} {p : Partition} {s : Site}

theorem Within.site (h : n.Within) (hp : n.find? name = some p) : (n.site p).Within :=
  ⟨h.bounded name p hp, h.shared⟩

theorem Within.settle (h : ∀ name p, n.find? name = some p → p.metadata.maxCacheSize ≠ 0 →
    p.tally.totalSize.toNat ≤ p.metadata.maxCacheSize.toNat) (hs : s.Within) :
    (n.settle s).Within := by
  refine ⟨?_, hs.shared⟩
  intro other q hq
  rcases Table.get?_insert_cases hq with ⟨rfl, rfl⟩ | hold
  · exact hs.bounded
  · exact h other q hold

/-- Subscriptions have nothing to do with the budget. -/
theorem Within.watchedBy {α : Type} (h : n.Within) (hp : n.find? name = some p)
    (change : α × WatchList × Hub) : (n.settle ((n.site p).watchedBy change).2).Within := by
  have hbounded := h.bounded name p hp
  exact Within.settle h.bounded ⟨hbounded, h.shared⟩

/-- A budget below the largest word is needed here: the sum that a reservation is judged by stops
at that word. -/
theorem add_le_of_satAdd_le {a b budget : UInt64} (h : satAdd a b ≤ budget)
    (hbudget : budget.toNat < UInt64.size - 1) : a.toNat + b.toNat ≤ budget.toNat :=
  (satAdd_le_iff.1 h).resolve_right (Nat.ne_of_lt hbudget)

/-- Bytes are granted where the host can back them and the budget has room for them beside what stays
in shared use. -/
theorem reserve_of_fits {amount credit : ByteCount} (name : Bytes)
    (hcommit : n.host.canCommit amount = true)
    (hfits : n.totals.reservedSize.toNat + amount.toNat +
        (n.totals.unreservedSize.toNat - credit.toNat) ≤ n.totals.maxCacheSize.toNat) :
    ∃ totals, n.reserve name amount credit = .ok totals := by
  unfold reserve
  split
  · exact ⟨_, rfl⟩
  · obtain ⟨granted, hgranted⟩ :=
      Option.isSome_iff_exists.1 (Totals.isSome_tryReserve_iff.2 (.inl hfits))
    rw [if_neg (by simp [hcommit]), hgranted]
    exact ⟨granted, rfl⟩

theorem Change.maxCacheSize {allows : Partition → Metadata → Prop} {clears : Bytes → Prop}
    (h : Change allows clears n m) :
    m.totals.maxCacheSize = n.totals.maxCacheSize := by
  cases h with
  | visit hp hs => exact congrArg Prod.fst hs.division
  | found hname hnone hreserve =>
    obtain ⟨htotals, -, -⟩ := reserve_eq_ok hreserve
    show Totals.maxCacheSize _ = _
    rw [htotals]
  | reconfigure hp hallows hreserve =>
    obtain ⟨htotals, -, -⟩ := reserve_eq_ok hreserve
    show (Account.convert _ _ _).totals.maxCacheSize = _
    rw [Account.maxCacheSize_convert, htotals]
    rfl
  | _ => rfl

/-- The budget in terms of one partition and the others. -/
theorem Within.parts (h : n.Within) (hb : n.Balanced) (hp : n.find? name = some p) :
    n.reservedElsewhere name + p.metadata.maxCacheSize.toNat +
        ((n.others name).shared + if p.metadata.maxCacheSize = 0 then p.bytes else 0) ≤
      n.totals.maxCacheSize.toNat := by
  have hreserved := hb.reservedSize hp
  have hshared : n.totals.unreservedSize.toNat =
      (n.others name).shared + if p.metadata.maxCacheSize = 0 then p.bytes else 0 :=
    (hb.site hp).shared
  have hwithin := h.shared
  omega

/-- A larger bound was granted, and the bytes of the partition were credited if they were in shared
use. -/
theorem room_for_larger {metadata : Metadata} {totals : Totals} (hn : n.WellFormed)
    (hb : n.Balanced) (hp : n.find? name = some p)
    (hmax : n.totals.maxCacheSize.toNat < UInt64.size - 1)
    (hreserve : n.reserve p.name (satSub metadata.maxCacheSize p.bound)
      (if p.bound = 0 then p.tally.totalSize else 0) = .ok totals)
    (hlarger : p.metadata.maxCacheSize.toNat < metadata.maxCacheSize.toNat) :
    n.reservedElsewhere name + metadata.maxCacheSize.toNat + (n.others name).shared ≤
      n.totals.maxCacheSize.toNat := by
  obtain ⟨-, hgrown, hfits⟩ := reserve_eq_ok hreserve
  have hbound : p.bound = p.metadata.maxCacheSize := (hn _ _ hp).bound
  have hheld : p.tally.totalSize.toNat = p.bytes := (hb.partitions name p hp).bytes
  have hreserved := hb.reservedSize hp
  have hshared : n.totals.unreservedSize.toNat =
      (n.others name).shared + if p.metadata.maxCacheSize = 0 then p.bytes else 0 :=
    (hb.site hp).shared
  have hamount : satSub metadata.maxCacheSize p.bound ≠ 0 := by
    intro hzero
    have hnat := congrArg UInt64.toNat hzero
    rw [toNat_satSub, hbound] at hnat
    change _ = 0 at hnat
    omega
  have hsum := add_le_of_satAdd_le (hfits hamount) hmax
  rw [hgrown, toNat_satSub, toNat_satSub, hbound] at hsum
  split at hsum
  · next hzero =>
    -- it was unbounded, so its bytes leave the shared part
    rw [if_pos hzero] at hshared
    omega
  · next hzero =>
    rw [if_neg hzero] at hshared
    change _ + (_ - 0) ≤ _ at hsum
    omega

/-- A bound that is no larger is granted as it is. What a partition without a bound brings along
into the shared part was covered by the bound that it gives up. -/
theorem room_for_smaller {metadata : Metadata} (hb : n.Balanced) (h : n.Within)
    (hp : n.find? name = some p)
    (hsmaller : metadata.maxCacheSize.toNat ≤ p.metadata.maxCacheSize.toNat) :
    n.reservedElsewhere name + metadata.maxCacheSize.toNat +
        ((n.others name).shared + if metadata.maxCacheSize = 0 then p.bytes else 0) ≤
      n.totals.maxCacheSize.toNat := by
  have hheld : p.tally.totalSize.toNat = p.bytes := (hb.partitions name p hp).bytes
  have hparts := h.parts hb hp
  by_cases hnext : metadata.maxCacheSize = 0
  · have hnothing : metadata.maxCacheSize.toNat = 0 := by rw [hnext]; rfl
    rw [if_pos hnext]
    by_cases hzero : p.metadata.maxCacheSize = 0
    · rw [if_pos hzero] at hparts
      omega
    · have hfitted := h.bounded name p hp hzero
      omega
  · rw [if_neg hnext]
    omega

/-- A reconfiguration trades one part of the budget for the other. -/
theorem Within.reconfigured {metadata : Metadata} {totals : Totals} (h : n.Within)
    (hn : n.WellFormed) (hb : n.Balanced) (hp : n.find? name = some p)
    (hkeeps : Keeps p metadata) (hmax : n.totals.maxCacheSize.toNat < UInt64.size - 1)
    (hreserve : n.reserve p.name (satSub metadata.maxCacheSize p.bound)
      (if p.bound = 0 then p.tally.totalSize else 0) = .ok totals) :
    (n.reconfigured p metadata totals).Within := by
  constructor
  · intro other q hq
    rw [find?, partitions_reconfigured] at hq
    rcases Table.get?_insert_cases hq with ⟨rfl, rfl⟩ | hold
    · exact hkeeps
    · exact h.bounded other q hold
  · have hchange : Change Keeps (fun _ => False) n (n.reconfigured p metadata totals) :=
      .reconfigure hp hkeeps hreserve
    obtain ⟨hreserved, hshared⟩ := parts_reconfigured hb hn hp hreserve
    rw [hreserved, hshared, hchange.maxCacheSize]
    by_cases hlarger : p.metadata.maxCacheSize.toNat < metadata.maxCacheSize.toNat
    · -- a larger bound is not zero
      have hroom := room_for_larger hn hb hp hmax hreserve hlarger
      have hnext : metadata.maxCacheSize ≠ 0 := by
        intro hzero
        rw [hzero] at hlarger
        exact absurd hlarger (Nat.not_lt_zero _)
      rw [if_neg hnext]
      omega
    · exact room_for_smaller hb h hp (Nat.le_of_not_lt hlarger)

theorem Within.found {metadata : Metadata} {totals : Totals} (h : n.Within)
    (hmax : n.totals.maxCacheSize.toNat < UInt64.size - 1)
    (hreserve : n.reserve name metadata.maxCacheSize 0 = .ok totals) :
    ({ n with
      totals
      partitions := n.partitions.insert name (.create name metadata n.config.limits) } :
      Node).Within := by
  obtain ⟨htotals, hgrown, hfits⟩ := reserve_eq_ok hreserve
  constructor
  · intro other q hq
    rcases Table.get?_insert_cases hq with ⟨rfl, rfl⟩ | hold
    · exact fun _ => Nat.zero_le _
    · exact h.bounded other q hold
  · have hshared := h.shared
    have hunreserved : totals.unreservedSize = n.totals.unreservedSize := by rw [htotals]
    have hbudget : totals.maxCacheSize = n.totals.maxCacheSize := by rw [htotals]
    show totals.reservedSize.toNat + totals.unreservedSize.toNat ≤ totals.maxCacheSize.toNat
    rw [hunreserved, hbudget]
    by_cases hzero : metadata.maxCacheSize = 0
    · have hnothing : metadata.maxCacheSize.toNat = 0 := by rw [hzero]; rfl
      omega
    · have hsum := add_le_of_satAdd_le (hfits hzero) hmax
      rwa [satSub_zero] at hsum

theorem Within.remove (h : n.Within) :
    ({ n with
      partitions := n.partitions.erase name
      totals := n.totals.releaseReserved p.bound } : Node).Within := by
  constructor
  · intro other q hq
    exact h.bounded other q (Table.get?_of_erase hq)
  · have hshared := h.shared
    show (satSub n.totals.reservedSize p.bound).toNat + n.totals.unreservedSize.toNat ≤
      n.totals.maxCacheSize.toNat
    rw [toNat_satSub]
    omega

-- ---------------------------------------------------------------------------
-- Along every change
-- ---------------------------------------------------------------------------

theorem Change.within {clears : Bytes → Prop} (h : Change Keeps clears n m) (hn : n.WellFormed)
    (hb : n.Balanced) (hw : n.Within) (hmax : n.totals.maxCacheSize.toNat < UInt64.size - 1)
    (hbytes : m.bytesHeld < UInt64.size) : m.Within := by
  have hafter := h.balanced hn hb hbytes
  cases h with
  | @visit name p s hp hs =>
    have hnamed : s.part.name = name := (Partition.name_eq hs.settings).trans (hn _ _ hp).named
    have hfind : (n.settle s).find? name = some s.part := by
      rw [find?_settle, if_pos hnamed.symm]
    -- the other partitions do not notice, so the step can be judged at the site
    have hothers : (n.settle s).others name = n.others name := by
      subst hnamed
      have hsame : (n.settle s).partitions.erase s.part.name = n.partitions.erase s.part.name :=
        Table.erase_insert_self _ _ _
      rw [others, hsame]
      rfl
    have hsite := hafter.site hfind
    rw [hothers] at hsite
    exact Within.settle hw.bounded (hs.within (hb.site hp) hsite (hw.site hp))
  | prune hp => exact hw.watchedBy hp _
  | found hname hnone hreserve => exact hw.found hmax hreserve
  | reconfigure hp hkeeps hreserve => exact hw.reconfigured hn hb hp hkeeps hmax hreserve
  | remove hp hempty hwatches => exact hw.remove
  | surround world hhub => exact ⟨hw.bounded, hw.shared⟩

/-- What an invariant of runs has to say about a node for its budget to be kept. -/
structure Sound (n : Node) (budget : ByteCount) : Prop where
  wellFormed : n.WellFormed
  balanced : n.Balanced
  within : n.Within
  budget : n.totals.maxCacheSize = budget

theorem Changes.sound {clears : Bytes → Prop} {limit : Nat} {budget : ByteCount}
    (h : Changes Keeps clears limit n m)
    (hn : n.Sound budget) (hlimit : limit ≤ UInt64.size)
    (hbudget : budget.toNat < UInt64.size - 1) : m.Sound budget := by
  induction h with
  | refl => exact hn
  | tail changes change hk ih =>
    obtain ⟨hwf, hb, hw, hmax⟩ := ih
    have hbytes := Nat.lt_of_lt_of_le hk hlimit
    refine ⟨change.wellFormed hwf, change.balanced hwf hb hbytes, ?_, ?_⟩
    · exact change.within hwf hb hw (by rwa [hmax]) hbytes
    · rw [change.maxCacheSize, hmax]

theorem Rewatches.sound {known emptied : Subscriber → Prop} {budget : ByteCount}
    (h : Rewatches known emptied n m) (hn : n.Sound budget) : m.Sound budget := by
  have hwf := h.wellFormed hn.wellFormed
  have hb := h.balanced hn.wellFormed hn.balanced
  -- the induction need not carry what is known at its end
  suffices hkept : m.Within ∧ m.totals.maxCacheSize = budget from ⟨hwf, hb, hkept.1, hkept.2⟩
  clear hwf hb
  induction h with
  | refl => exact ⟨hn.within, hn.budget⟩
  | tail rewatches rewatch ih =>
    obtain ⟨hw, hmax⟩ := ih
    cases rewatch with
    | add hp predicate hknown => exact ⟨hw.watchedBy hp _, hmax⟩
    | discard hp selected => exact ⟨hw.watchedBy hp _, hmax⟩
    | _ => exact ⟨⟨hw.bounded, hw.shared⟩, hmax⟩

-- ---------------------------------------------------------------------------
-- Along every run
-- ---------------------------------------------------------------------------

/-- An operation after which the partitions hold fewer than 2^64 bytes together, and which lowers
no partition's bound below what the partition holds at that moment. -/
def Operation.Moderate (n : Node) (op : Operation) : Prop :=
  (n.perform op).2.bytesHeld < UInt64.size ∧
    ∀ p metadata, op.Reconfigures n p metadata → Keeps p metadata

theorem moderate_putPartition {metadata : Metadata}
    (hbytes : (n.perform (.putPartition name metadata)).2.bytesHeld < UInt64.size)
    (hkeeps : ∀ p ∈ n.find? name, Keeps p metadata) :
    (Operation.putPartition name metadata).Moderate n := by
  refine ⟨hbytes, ?_⟩
  rintro p next ⟨rfl, hp, -⟩
  exact hkeeps p hp

theorem Fresh.sound (h : Fresh n) : n.Sound n.config.maxCacheSize := by
  refine ⟨h.wellFormed, h.balanced, ⟨?_, ?_⟩, ?_⟩
  · -- there is no partition that could be over its bound
    intro name p hp
    exact absurd hp h.not_find?
  · rw [h.empty.2]
    exact Nat.zero_le _
  · rw [h.empty.2]

theorem perform_sound {budget : ByteCount} (op : Operation) (hn : n.Sound budget)
    (hbytes : n.bytesHeld < UInt64.size) (hop : op.Moderate n)
    (hbudget : budget.toNat < UInt64.size - 1) : (n.perform op).2.Sound budget := by
  cases hsub : op.isSubscription with
  | false =>
    have hchanges := perform_changes op hsub hn.wellFormed hbytes hop.1
    exact (hchanges.mono hop.2).sound hn (Nat.le_refl _) hbudget
  | true => exact (perform_rewatches_of_any op hsub hn.wellFormed).sound hn

/-- What the partitions hold together is covered by the bounds and by the shared use. -/
theorem Within.totalSize_le (h : n.Within) (hb : n.Balanced) :
    n.totals.totalSize ≤ n.totals.maxCacheSize := by
  have hsplit : n.totals.totalSize.toNat ≤
      n.totals.reservedSize.toNat + n.totals.unreservedSize.toNat := by
    rw [hb.bytes, hb.reserved, hb.shared, ← Table.total_add]
    apply Table.total_mono
    intro name p hp
    show p.tally.totalSize.toNat ≤ p.metadata.maxCacheSize.toNat + p.sharedSize
    unfold Partition.sharedSize
    split
    · -- unbounded partitions are in shared use with all they hold
      exact Nat.le_add_left _ _
    · next hbound => exact Nat.le_add_right_of_le (h.bounded name p hp hbound)
  have hshared := h.shared
  rw [UInt64.le_iff_toNat_le]
  omega

/-- Every run that starts without partitions, on a budget below the largest word, keeps it. -/
theorem budget_kept (hn : Fresh n) (hbudget : n.config.maxCacheSize.toNat < UInt64.size - 1)
    (hrun : Reaches (fun k op => op.Moderate k) n m) :
    (∀ name p, m.find? name = some p → p.metadata.isBounded →
      p.tally.totalSize ≤ p.metadata.maxCacheSize) ∧
    m.totals.reservedSize.toNat + m.totals.unreservedSize.toNat ≤ n.config.maxCacheSize.toNat ∧
    m.totals.totalSize ≤ n.config.maxCacheSize := by
  have hkept : m.bytesHeld < UInt64.size ∧ m.Sound n.config.maxCacheSize := by
    refine hrun.invariant
      (P := fun k => k.bytesHeld < UInt64.size ∧ k.Sound n.config.maxCacheSize)
      ⟨?_, hn.sound⟩ ?_
    · rw [hn.bytesHeld]
      decide
    · rintro k op ⟨hbytes, hk⟩ hop
      exact ⟨hop.1, perform_sound op hk hbytes hop hbudget⟩
  obtain ⟨-, hwf, hb, hw, hmax⟩ := hkept
  refine ⟨?_, ?_, ?_⟩
  · intro name p hp hbounded
    have hne : p.metadata.maxCacheSize ≠ 0 := by
      intro hzero
      simp [Metadata.isBounded, hzero] at hbounded
    rw [UInt64.le_iff_toNat_le]
    exact hw.bounded name p hp hne
  · rw [← hmax]
    exact hw.shared
  · rw [← hmax]
    exact hw.totalSize_le hb

/-- On a budget of 100 bytes a partition reserves 60, takes 9 of them, lowers its bound to 20, gives
it up, and gets 30 again. -/
def regrants : List Operation :=
  [ .putPartition [112] { createDate := (bare {}).today, maxCacheSize := 60 },
    .put .upsert [112] [107] [1, 2, 3, 4, 5, 6, 7, 8] 5,
    .putPartition [112] { createDate := (bare {}).today, maxCacheSize := 20 },
    .putPartition [112] { createDate := (bare {}).today },
    .putPartition [112] { createDate := (bare {}).today, maxCacheSize := 30 } ]

theorem budget_kept_regrants :
    (∀ name p, (performAll regrants (bare { maxCacheSize := 100 })).2.find? name = some p →
      p.metadata.isBounded → p.tally.totalSize ≤ p.metadata.maxCacheSize) ∧
    (performAll regrants (bare { maxCacheSize := 100 })).2.totals.reservedSize.toNat +
      (performAll regrants (bare { maxCacheSize := 100 })).2.totals.unreservedSize.toNat ≤ 100 ∧
    (performAll regrants (bare { maxCacheSize := 100 })).2.totals.totalSize ≤ 100 :=
  budget_kept (fresh_bare { maxCacheSize := 100 }) (by decide)
    (.step (.step (.step (.step (.step .start
      _ (moderate_putPartition (by decide) (by decide)))
      _ ⟨by decide, by rintro _ _ ⟨⟩⟩)
      _ (moderate_putPartition (by decide) (by decide)))
      _ (moderate_putPartition (by decide) (by decide)))
      _ (moderate_putPartition (by decide) (by decide)))

end Node

end CacheNode

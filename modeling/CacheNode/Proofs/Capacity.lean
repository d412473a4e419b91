import CacheNode.Proofs.Counts
import CacheNode.Proofs.Runs

/-!
# CacheNode — the capacity tests at every word

Three tests decide about bytes, and each of them compares a sum with a limit. A reservation must fit
the budget together with what stays in shared use; unbounded growth must fit what the reservations
leave; and a run of eviction goes on as long as the bytes in use and those that need room exceed the
limit. Counters and limits are words, and the sums are formed in three different ways, so it takes
an argument that the tests mean what they say over unbounded numbers.

They do, except where the limit is the largest word. A sum that stops at this word does not exceed
it. There the test for a reservation forgets what stays in shared use, and the reservations and the
shared use may come to more than the budget (`Node.reservation_overcommits`). Unbounded growth is
tested without such a sum and is exact everywhere.

* `Totals.HasRoom`, `Totals.SharesRoom` — the two inequalities over unbounded numbers;
* `Totals.isSome_tryReserve_iff`, `Account.isSome_tryGrow_iff` — what the tests come to;
* `Site.overTarget_room_iff` — the test of eviction;
* `Site.Measures`, `Site.capacity_measured` — all of it, and what the counters are afterwards.
-/

namespace CacheNode

-- ---------------------------------------------------------------------------
-- Reservations
-- ---------------------------------------------------------------------------

namespace Totals

variable {t : Totals} {amount credit : ByteCount}

/-- The budget has room for a reservation beside the others and what stays in shared use. -/
def HasRoom (t : Totals) (amount credit : ByteCount) : Prop :=
  t.reservedSize.toNat + amount.toNat + (t.unreservedSize.toNat - credit.toNat) ≤
    t.maxCacheSize.toNat

/-- The part of the budget that reservations leave has room for more bytes. -/
def SharesRoom (t : Totals) (delta : ByteCount) : Prop :=
  t.unreservedSize.toNat + delta.toNat ≤ t.maxCacheSize.toNat - t.reservedSize.toNat

/-- On a budget of the largest word the reservations have room, not counting what is in shared
use. -/
def Overlooks (t : Totals) (amount : ByteCount) : Prop :=
  t.maxCacheSize.toNat = UInt64.size - 1 ∧
    t.reservedSize.toNat + amount.toNat ≤ t.maxCacheSize.toNat

/-- The totals after a reservation was asked for. A refusal leaves what there was. -/
def afterReserving (t : Totals) (amount credit : ByteCount) : Totals :=
  (t.tryReserve amount credit).getD t

theorem isSome_tryReserve_iff :
    (t.tryReserve amount credit).isSome ↔ t.HasRoom amount credit ∨ t.Overlooks amount := by
  have hsize : UInt64.size = 18446744073709551616 := rfl
  have hmax := t.maxCacheSize.toNat_lt
  rw [Option.isSome_iff_exists]
  simp only [tryReserve_eq_some_iff, exists_and_left, exists_eq, and_true]
  unfold HasRoom Overlooks
  constructor
  · rintro ⟨hword, hfits⟩
    rw [satAdd_le_iff, toNat_satSub, Account.toNat_add_eq rfl hword] at hfits
    omega
  · intro hroom
    have hword : t.reservedSize.toNat + amount.toNat < UInt64.size := by omega
    rw [satAdd_le_iff, toNat_satSub, Account.toNat_add_eq rfl hword]
    omega

/-- A granted reservation is added to the others, and the sum is a word. -/
theorem afterReserving_of_granted (h : (t.tryReserve amount credit).isSome) :
    ∃ total : ByteCount, total.toNat = t.reservedSize.toNat + amount.toNat ∧
      t.afterReserving amount credit = { t with reservedSize := total } := by
  obtain ⟨granted, hgranted⟩ := Option.isSome_iff_exists.1 h
  obtain ⟨⟨hword, -⟩, heq⟩ := tryReserve_eq_some_iff.1 hgranted
  refine ⟨t.reservedSize + amount, Account.toNat_add_eq rfl hword, ?_⟩
  rw [afterReserving, hgranted, Option.getD_some, heq]

end Totals

-- ---------------------------------------------------------------------------
-- Growth of unbounded partitions
-- ---------------------------------------------------------------------------

namespace Account

variable {a : Account} {delta : ByteCount}

/-- The counters after bytes were asked for. A refusal leaves what there was. -/
def afterGrowing (a : Account) (delta bound : ByteCount) : Account :=
  (a.tryGrow delta bound).getD a

theorem tryGrow_unbounded (hdelta : delta ≠ 0) :
    a.tryGrow delta 0 = (a.totals.tryGrowUnreserved delta).map fun totals =>
      ({ a with totals } : Account).enlarge delta := by
  rw [tryGrow, if_neg hdelta, if_neg (UInt64.lt_irrefl 0)]

/-- Bytes are admitted if the shared part has room for them; no bytes always are. -/
theorem isSome_tryGrow_iff :
    (a.tryGrow delta 0).isSome ↔ delta = 0 ∨ a.totals.SharesRoom delta := by
  by_cases hdelta : delta = 0
  · simp [hdelta, tryGrow]
  · rw [tryGrow_unbounded hdelta, Option.isSome_map, Option.isSome_iff_exists, or_iff_right hdelta]
    simp only [Totals.tryGrowUnreserved_eq_some_iff, exists_and_left, exists_eq, and_true,
      Totals.unreservedBudget, toNat_satSub, Totals.SharesRoom]

/-- Admitted bytes are counted as held on both sides, and as shared use, which stays a word. -/
theorem afterGrowing_of_admitted (hdelta : delta ≠ 0) (h : (a.tryGrow delta 0).isSome) :
    ∃ shared : ByteCount, shared.toNat = a.totals.unreservedSize.toNat + delta.toNat ∧
      a.afterGrowing delta 0 =
        { tally := { a.tally with totalSize := a.tally.totalSize + delta }
          totals :=
            { a.totals with
              totalSize := a.totals.totalSize + delta
              unreservedSize := shared } } := by
  obtain ⟨grown, hgrown⟩ := Option.isSome_iff_exists.1 h
  rcases tryGrow_cases hgrown with ⟨hzero, -⟩ | ⟨hbound, -, -⟩ | ⟨-, hfits, heq⟩
  · exact absurd hzero hdelta
  · exact absurd rfl hbound
  · have hword : a.totals.unreservedSize.toNat + delta.toNat < UInt64.size :=
      Nat.lt_of_le_of_lt hfits a.totals.unreservedBudget.toNat_lt
    refine ⟨a.totals.unreservedSize + delta, toNat_add_eq rfl hword, ?_⟩
    rw [afterGrowing, hgrown, Option.getD_some, heq]
    rfl

end Account

-- ---------------------------------------------------------------------------
-- Eviction, and all tests together
-- ---------------------------------------------------------------------------

namespace Site

variable {s : Site} {amount credit delta : ByteCount}

/-- A run of eviction without a bound goes on if the shared part has no room for the bytes. It never
does where the shared part is the largest word. -/
theorem overTarget_room_iff :
    s.overTarget 0 (.room delta) = true ↔
      ¬ s.totals.SharesRoom delta ∧ s.totals.unreservedBudget.toNat < UInt64.size - 1 := by
  have hbudget := s.totals.unreservedBudget.toNat_lt
  have hsize : UInt64.size = 18446744073709551616 := rfl
  have hunbounded : ¬ (0 : ByteCount) < 0 := UInt64.lt_irrefl 0
  simp only [overTarget, usage, if_neg hunbounded, decide_eq_true_eq]
  rw [← UInt64.not_le, satAdd_le_iff, Totals.SharesRoom, ← toNat_satSub,
    ← Totals.unreservedBudget]
  omega

/-- What the tests say about the node's budget, and what the counters are after them. -/
structure Measures (s : Site) (amount credit delta : ByteCount) : Prop where
  /-- a reservation is granted if there is room for it, and on the largest budget also if there
  would be without what is in shared use -/
  reserves  : (s.totals.tryReserve amount credit).isSome ↔
    s.totals.HasRoom amount credit ∨ s.totals.Overlooks amount
  granted   : (s.totals.tryReserve amount credit).isSome →
    ∃ total : ByteCount, total.toNat = s.totals.reservedSize.toNat + amount.toNat ∧
      s.totals.afterReserving amount credit = { s.totals with reservedSize := total }
  withheld  : ¬ (s.totals.tryReserve amount credit).isSome →
    s.totals.afterReserving amount credit = s.totals
  /-- bytes are admitted if the shared part has room for them -/
  admits    : delta ≠ 0 → ((s.account.tryGrow delta 0).isSome ↔ s.totals.SharesRoom delta)
  admitted  : delta ≠ 0 → (s.account.tryGrow delta 0).isSome →
    ∃ shared : ByteCount, shared.toNat = s.totals.unreservedSize.toNat + delta.toNat ∧
      s.account.afterGrowing delta 0 =
        { tally := { s.part.tally with totalSize := s.part.tally.totalSize + delta }
          totals :=
            { s.totals with
              totalSize := s.totals.totalSize + delta
              unreservedSize := shared } }
  refused   : ¬ (s.account.tryGrow delta 0).isSome → s.account.afterGrowing delta 0 = s.account
  /-- eviction goes on if bytes would be refused, unless the shared part is the largest word -/
  evicts    : delta ≠ 0 → (s.overTarget 0 (.room delta) = true ↔
    ¬ (s.account.tryGrow delta 0).isSome ∧
      s.totals.unreservedBudget.toNat < UInt64.size - 1)
  /-- no bytes are always admitted, also where eviction goes on -/
  idles     : (s.account.tryGrow 0 0).isSome ∧
    (s.overTarget 0 (.room 0) = true ↔
      ¬ s.totals.SharesRoom 0 ∧ s.totals.unreservedBudget.toNat < UInt64.size - 1)

/-- At every state of the counters, for all words, growth of unbounded partitions is tested exactly. So
are reservations and the need for eviction, unless the limit is the largest word. -/
theorem capacity_measured (s : Site) (amount credit delta : ByteCount) :
    s.Measures amount credit delta where
  reserves := Totals.isSome_tryReserve_iff
  granted  := Totals.afterReserving_of_granted
  withheld := by
    intro hrefused
    rw [Totals.afterReserving, Option.not_isSome_iff_eq_none.1 hrefused, Option.getD_none]
  admits   := by
    intro hdelta
    rw [Account.isSome_tryGrow_iff, or_iff_right hdelta]
    rfl
  admitted := fun hdelta => Account.afterGrowing_of_admitted hdelta
  refused  := by
    intro hrefused
    rw [Account.afterGrowing, Option.not_isSome_iff_eq_none.1 hrefused, Option.getD_none]
  evicts   := by
    intro hdelta
    rw [overTarget_room_iff, Account.isSome_tryGrow_iff, or_iff_right hdelta]
    rfl
  idles    := ⟨Account.isSome_tryGrow_iff.2 (.inl rfl), overTarget_room_iff⟩

end Site

namespace Node

/-- An empty partition reserves all but two bytes of the largest budget there is, and another one that
has no bound holds two bytes. -/
def brimful : List Operation :=
  [ .putPartition [113] { createDate := (bare {}).today, maxCacheSize := 18446744073709551613 },
    .put .upsert [112] [97] [98] 1 ]

def brimfulNode : Node := (performAll brimful (bare { maxCacheSize := 18446744073709551615 })).2

/-- A bound of two bytes. -/
def promised : Metadata := { createDate := (bare {}).today, maxCacheSize := 2 }

/-- A partition without a bound that holds as many bytes as the largest budget has. -/
def brimfulSite : Site :=
  { brimfulNode.site
      { Partition.create [112] { createDate := (bare {}).today } {} with
        tally := { totalSize := 18446744073709551615 } } with
    totals :=
      { maxCacheSize := 18446744073709551615
        totalSize := 18446744073709551615
        unreservedSize := 18446744073709551615 } }

/-- There is no room for a reservation of two bytes, and it is granted all the same: then more is
promised than there is. And where one more byte is refused since all are in use, eviction sees no
need to go on. -/
theorem reservation_overcommits :
    brimfulNode.Reachable ∧
      (¬ brimfulNode.totals.HasRoom 2 0 ∧ (brimfulNode.totals.tryReserve 2 0).isSome) ∧
      ((brimfulNode.putPartition [114] promised).1 = .ok () ∧
        (brimfulNode.putPartition [114] promised).2.totals.maxCacheSize.toNat <
          (brimfulNode.putPartition [114] promised).2.totals.reservedSize.toNat +
            (brimfulNode.putPartition [114] promised).2.totals.unreservedSize.toNat) ∧
      (brimfulSite.account.tryGrow 1 0 = none ∧ brimfulSite.overTarget 0 (.room 1) = false) := by
  have hbare : Reachable (bare { maxCacheSize := 18446744073709551615 }) :=
    ⟨_, fresh_bare _, .start⟩
  have hreachable : brimfulNode.Reachable := hbare.performAll brimful (by decide)
  have hroom : ¬ brimfulNode.totals.HasRoom 2 0 := by
    unfold Totals.HasRoom
    decide
  exact ⟨hreachable, ⟨hroom, by decide⟩, ⟨rfl, by decide⟩, by decide, by decide⟩

end Node

end CacheNode

import CacheNode.Proofs.Attempts
import CacheNode.Proofs.Counts

/-!
# CacheNode — usage and budgets

A partition with a bound draws from a budget of its own. All others draw from one budget together,
which is what the reservations leave of the node's. Whether a write is admitted, and whether a run
of eviction goes on, is decided by comparing usage with this budget.

The comparisons are made on counters, which are words. Where counters are true they say what they
should about the bytes that are held.

* `Site.drawn`, `Site.budget` — the bytes that count against a partition's budget, and the budget;
* `Site.grow_eq_none_iff` — bytes are refused exactly if they do not fit the budget;
* `Site.overTarget_iff` — eviction goes on exactly as long as usage exceeds its goal.
-/

namespace CacheNode

/-- Whether usage exceeds what a run of eviction is to reach. The sum of usage and room is a word,
and stops at the largest one. -/
def EvictionGoal.Exceeds (goal : EvictionGoal) (used limit : Nat) : Prop :=
  match goal with
  | .belowLimit => 0 < used ∧ limit ≤ used
  | .room bytes => limit < min (used + bytes.toNat) (UInt64.size - 1)

instance (goal : EvictionGoal) (used limit : Nat) : Decidable (goal.Exceeds used limit) := by
  cases goal with
  | belowLimit => exact inferInstanceAs (Decidable (_ ∧ _))
  | room bytes => exact inferInstanceAs (Decidable (_ < _))

/-- Where the sum is a word, the goal is room for all of the bytes. -/
theorem EvictionGoal.exceeds_room {bytes : ByteCount} {used limit : Nat}
    (hfit : used + bytes.toNat < UInt64.size) :
    (EvictionGoal.room bytes).Exceeds used limit ↔ limit < used + bytes.toNat := by
  rw [Exceeds, Nat.min_eq_left]
  omega

namespace Site

open Account (Others)

/-- The bytes that count against the budget of a partition: its own, and those of the others that
draw from the same budget. -/
def drawn (s : Site) (o : Others) : Nat :=
  if s.part.metadata.maxCacheSize = 0 then o.shared + s.part.bytes else s.part.bytes

/-- The budget that a partition draws from. -/
def budget (s : Site) : Nat :=
  if s.part.metadata.maxCacheSize = 0 then s.totals.unreservedBudget.toNat
  else s.part.metadata.maxCacheSize.toNat

variable {s t : Site} {o : Others}

/-- The budget depends on the bound of the partition, and on how the node's budget is divided. -/
theorem budget_eq (hmetadata : t.part.metadata = s.part.metadata)
    (hdivision : t.division = s.division) : t.budget = s.budget := by
  obtain ⟨hmax, hreserved⟩ := Prod.mk.inj hdivision
  rw [budget, budget, hmetadata, Totals.unreservedBudget, Totals.unreservedBudget, hmax, hreserved]

/-- True counters tell how much is in use. -/
theorem usage_eq (h : s.Weighed o) :
    (s.usage s.part.metadata.maxCacheSize).1.toNat = s.drawn o ∧
      (s.usage s.part.metadata.maxCacheSize).2.toNat = s.budget := by
  unfold usage drawn budget
  by_cases hbound : s.part.metadata.maxCacheSize = 0
  · -- the shared part
    have hshared := h.shared
    rw [if_pos hbound] at hshared
    rw [if_neg (by rw [UInt64.pos_iff_ne_zero]; exact not_not_intro hbound), if_pos hbound,
      if_pos hbound]
    exact ⟨hshared, rfl⟩
  · rw [if_pos (UInt64.pos_iff_ne_zero.2 hbound), if_neg hbound, if_neg hbound]
    exact ⟨h.bytes, rfl⟩

/-- A run of eviction goes on as long as usage exceeds its goal. -/
theorem overTarget_iff (h : s.Balanced o) (goal : EvictionGoal) :
    s.overTarget s.part.metadata.maxCacheSize goal = true ↔
      goal.Exceeds (s.drawn o) s.budget := by
  obtain ⟨hused, hlimit⟩ := usage_eq h.weighed
  have hlast : UInt64.size - 1 = 18446744073709551615 := rfl
  unfold overTarget EvictionGoal.Exceeds
  rw [← hused, ← hlimit]
  cases goal with
  | belowLimit => simp [UInt64.lt_iff_toNat_lt, UInt64.le_iff_toNat_le]
  | room bytes =>
    rw [hlast]
    simp [UInt64.lt_iff_toNat_lt]

/-- Bytes are refused exactly if usage would exceed the budget with them. -/
theorem grow_eq_none_iff {bytes : ByteCount} (h : s.Weighed o)
    (hfit : s.part.bytes + bytes.toNat < UInt64.size) :
    s.grow bytes = none ↔ bytes ≠ 0 ∧ s.budget < s.drawn o + bytes.toNat := by
  obtain ⟨hused, hlimit⟩ := usage_eq h
  constructor
  · intro hnone
    obtain ⟨hzero, hover, -⟩ := grow_eq_none hnone
    rw [hused, hlimit] at hover
    exact ⟨hzero, hover⟩
  · rintro ⟨hzero, hover⟩
    cases hgrow : s.grow bytes with
    | none => rfl
    | some grown =>
      obtain ⟨a, hadmitted, -⟩ := grow_eq_some hgrow
      exfalso
      rcases Account.tryGrow_cases hadmitted with
        ⟨hnothing, -⟩ | ⟨hbound, hfits, -⟩ | ⟨hbound, hfits, -⟩
      · exact hzero hnothing
      · -- the partition's own budget; the sum is a word
        have hsize : UInt64.size = 18446744073709551616 := rfl
        have hheld : s.account.tally.totalSize.toNat = s.part.bytes := h.bytes
        rw [UInt64.le_iff_toNat_le, toNat_satAdd, hheld] at hfits
        rw [drawn, if_neg hbound, budget, if_neg hbound] at hover
        omega
      · -- the shared part
        have hshared := h.shared
        rw [if_pos hbound] at hshared
        rw [hshared] at hfits
        rw [drawn, if_pos hbound, budget, if_pos hbound] at hover
        have hbudget : s.account.totals = s.totals := rfl
        rw [hbudget] at hfits
        omega

end Site

end CacheNode

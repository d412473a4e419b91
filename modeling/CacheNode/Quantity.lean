/-!
# CacheNode — 64-bit quantities

Instants, intervals, sizes and counters are 64-bit words. Adding to a counter wraps; every
difference that the library takes stops at zero, and sums that are compared with a limit stop
at the largest word.

* `toNat_satSub`, `toNat_satAdd` — both operations read over the natural numbers;
* `satAdd_le_iff` — what a comparison of such a sum says;
* `sumOf` — the sum of a measure over a list.
-/

namespace CacheNode

/-- An instant or an interval in milliseconds. -/
abbrev Millis := UInt64

/-- A number of bytes. -/
abbrev ByteCount := UInt64

/-- The difference of two words, zero when it would be negative. -/
def satSub (a b : UInt64) : UInt64 := if b ≤ a then a - b else 0

/-- The sum of two words, the largest word when it would not fit. -/
def satAdd (a b : UInt64) : UInt64 := if a.toNat + b.toNat < UInt64.size then a + b else -1

@[simp] theorem toNat_satSub (a b : UInt64) : (satSub a b).toNat = a.toNat - b.toNat := by
  unfold satSub
  split
  · next h => exact UInt64.toNat_sub_of_le _ _ h
  · next h =>
    have : a.toNat < b.toNat := by simpa [UInt64.le_iff_toNat_le] using h
    simp; omega

@[simp] theorem toNat_satAdd (a b : UInt64) :
    (satAdd a b).toNat = min (a.toNat + b.toNat) 18446744073709551615 := by
  have hsize : UInt64.size = 18446744073709551616 := rfl
  unfold satAdd
  split
  · next h => rw [UInt64.toNat_add, Nat.mod_eq_of_lt h]; omega
  · next h =>
    have : (-1 : UInt64).toNat = 18446744073709551615 := by decide
    omega

/-- A sum that stops at the largest word is within a limit if the sum itself is, or if the limit is
that word. -/
theorem satAdd_le_iff {a b limit : UInt64} :
    satAdd a b ≤ limit ↔
      a.toNat + b.toNat ≤ limit.toNat ∨ limit.toNat = UInt64.size - 1 := by
  have hlast : UInt64.size - 1 = 18446744073709551615 := rfl
  have hlimit := limit.toNat_lt
  rw [UInt64.le_iff_toNat_le, toNat_satAdd, hlast]
  omega

@[simp] theorem satSub_zero (a : UInt64) : satSub a 0 = a := by
  apply UInt64.toNat.inj; simp

@[simp] theorem satSub_self (a : UInt64) : satSub a a = 0 := by
  apply UInt64.toNat.inj; simp

/-- The sum of a measure over a list. -/
def sumOf {α : Type} (measure : α → Nat) : List α → Nat
  | [] => 0
  | x :: rest => measure x + sumOf measure rest

end CacheNode

/-!
# CacheNode — decimal numerals

A numeral is a list of decimal digits, most significant first.

* `Decimal.value`, `Decimal.padded` — reading a numeral and writing one of a least width;
* `Decimal.value_padded`, `Decimal.word?_toDigits` — what is written reads back;
* `Decimal.below?` — reading a numeral only as far as it may count;
* `Decimal.word?` — the 64-bit word that a numeral spells, if it fits.
-/

namespace CacheNode.Decimal

/-- The number that a numeral spells when one more digit follows. -/
def extend (n : Nat) (digit : Char) : Nat := 10 * n + (digit.toNat - '0'.toNat)

/-- The number that a list of digits spells. -/
def value (digits : List Char) : Nat := digits.foldl extend 0

/-- The digits of a number, at least `width` of them. -/
def padded (width n : Nat) : List Char :=
  let digits := Nat.toDigits 10 n
  List.replicate (width - digits.length) '0' ++ digits

/-- The number that digits spell after those of another number, if it is below a limit. -/
def belowFrom (limit n : Nat) : List Char → Option Nat
  | [] => some n
  | c :: rest => if extend n c < limit then belowFrom limit (extend n c) rest else none

/-- The number that a list of digits spells, if it is below a limit. Reading ends at the digit
that reaches the limit, so a numeral of any length costs little. -/
def below? (limit : Nat) (digits : List Char) : Option Nat := belowFrom limit 0 digits

/-- More digits make no smaller number. -/
theorem le_foldl_extend (digits : List Char) (n : Nat) : n ≤ digits.foldl extend n := by
  induction digits generalizing n with
  | nil => exact Nat.le_refl n
  | cons c rest ih => exact Nat.le_trans (by unfold extend; omega) (ih (extend n c))

theorem belowFrom_eq {limit n : Nat} (h : n < limit) (digits : List Char) :
    belowFrom limit n digits =
      if digits.foldl extend n < limit then some (digits.foldl extend n) else none := by
  induction digits generalizing n with
  | nil => simp [belowFrom, h]
  | cons c rest ih =>
    rw [belowFrom, List.foldl_cons]
    split
    · next hc => exact ih hc
    · next hc => rw [if_neg fun hv => hc (Nat.lt_of_le_of_lt (le_foldl_extend rest _) hv)]

/-- A numeral is read if its number is below the limit. -/
theorem below?_eq {limit : Nat} (h : 0 < limit) (digits : List Char) :
    below? limit digits = if value digits < limit then some (value digits) else none :=
  belowFrom_eq h digits

/-- The word that a numeral of at least one digit spells; nothing else is a numeral, and larger
numbers are not words. -/
def word? (digits : List Char) : Option UInt64 :=
  if digits ≠ [] ∧ digits.all Char.isDigit = true then
    (below? UInt64.size digits).map UInt64.ofNat
  else none

theorem word?_eq (digits : List Char) :
    word? digits =
      if digits ≠ [] ∧ digits.all Char.isDigit = true ∧ value digits < UInt64.size then
        some (UInt64.ofNat (value digits))
      else none := by
  rw [word?, below?_eq (by decide)]
  by_cases hd : digits ≠ [] ∧ digits.all Char.isDigit = true
  · by_cases hv : value digits < UInt64.size <;> simp [hd, hv]
  · rw [if_neg hd, if_neg fun h => hd ⟨h.1, h.2.1⟩]

-- ---------------------------------------------------------------------------
-- Written numerals
-- ---------------------------------------------------------------------------

theorem value_eq_ofDigitChars (digits : List Char) :
    value digits = Nat.ofDigitChars 10 digits 0 :=
  Nat.ofDigitChars_eq_foldl.symm

theorem value_toDigits (n : Nat) : value (Nat.toDigits 10 n) = n := by
  rw [value_eq_ofDigitChars, Nat.ofDigitChars_ten_toDigits]

theorem value_padded (width n : Nat) : value (padded width n) = n := by
  rw [value_eq_ofDigitChars, padded, Nat.ofDigitChars_append, Nat.ofDigitChars_replicate_zero,
    Nat.mul_zero, Nat.ofDigitChars_ten_toDigits]

theorem isDigit_toDigits {n : Nat} {c : Char} (h : c ∈ Nat.toDigits 10 n) : c.isDigit = true :=
  Nat.isDigit_of_mem_toDigits (by decide) (Nat.le_refl 10) h

/-- No number but zero is written with a zero in front. -/
theorem toDigits_of_pos {n : Nat} (h : 0 < n) :
    ∃ c more, Nat.toDigits 10 n = c :: more ∧ c ≠ '0' := by
  induction n using Nat.strongRecOn with
  | ind n ih =>
    by_cases hn : n < 10
    · have hdigit : ∀ d < 10, 0 < d → d.digitChar ≠ '0' := by decide
      exact ⟨n.digitChar, [], Nat.toDigits_of_lt_base hn, hdigit n hn h⟩
    · obtain ⟨c, more, hdigits, hc⟩ := ih (n / 10) (by omega) (by omega)
      refine ⟨c, more ++ [(n % 10).digitChar], ?_, hc⟩
      rw [Nat.toDigits_of_base_le (by decide) (by omega), hdigits, List.cons_append]

theorem isDigit_padded {width n : Nat} {c : Char} (h : c ∈ padded width n) : c.isDigit = true := by
  rcases List.mem_append.1 h with hzero | hdigit
  · rw [(List.mem_replicate.1 hzero).2]
    rfl
  · exact isDigit_toDigits hdigit

theorem padded_ne_nil (width n : Nat) : padded width n ≠ [] :=
  List.append_ne_nil_of_right_ne_nil _ Nat.toDigits_ne_nil

/-- A numeral has the least width exactly if the number has no more digits. -/
theorem length_padded {width n : Nat} (h : (Nat.toDigits 10 n).length ≤ width) :
    (padded width n).length = width := by
  rw [padded, List.length_append, List.length_replicate]
  omega

theorem word?_toDigits (w : UInt64) : word? (Nat.toDigits 10 w.toNat) = some w := by
  rw [word?_eq, value_toDigits, UInt64.ofNat_toNat]
  refine if_pos ⟨Nat.toDigits_ne_nil, ?_, w.toNat_lt⟩
  exact List.all_eq_true.2 fun c hc => isDigit_toDigits hc

end CacheNode.Decimal

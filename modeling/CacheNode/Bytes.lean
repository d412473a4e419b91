/-!
# CacheNode — byte strings

Keys, payloads, partition names and file contents are finite byte strings. They are
compared byte by byte, and a proper beginning of a string comes before the string, which is
the order core gives to `List UInt8`; partitions and entries are kept in that order.

A 64-bit word has one spelling as a byte string: eight bytes, least significant first.

* `Bytes.order` — the three-way comparison of that order;
* `Bytes.digits_value`, `Bytes.word?_ofWord` — digits and spelled words read back.
-/

namespace CacheNode

/-- A finite string of bytes: a key, a payload, a partition name, the content of a file. -/
abbrev Bytes := List UInt8

namespace Bytes

/-- The UTF-8 bytes of a text. -/
def ofText (text : String) : Bytes := text.toUTF8.data.toList

/-- Compares two byte strings byte by byte; the shorter of two comes first if it begins the
other. -/
def order (a b : Bytes) : Ordering := if a < b then .lt else if a = b then .eq else .gt

theorem order_eq_lt {a b : Bytes} : order a b = .lt ↔ a < b := by
  unfold order; split <;> (try split) <;> simp_all

theorem order_eq_eq {a b : Bytes} : order a b = .eq ↔ a = b := by
  unfold order
  by_cases h : a = b
  · subst h; simp [Std.lt_irrefl]
  · split <;> simp [h]

theorem order_ne_gt {a b : Bytes} : order a b ≠ .gt ↔ a ≤ b := by
  rw [Std.le_iff_lt_or_eq]
  unfold order
  split
  · next hlt => simp [hlt]
  · next hnot => split <;> simp_all

/-- Two byte strings are equal or one of them comes first. -/
theorem lt_trichotomy (a b : Bytes) : a < b ∨ a = b ∨ b < a := by
  rcases Std.Total.total (r := fun x y : Bytes => x ≤ y) a b with h | h
  · rcases Std.le_iff_lt_or_eq.1 h with h | h <;> simp [h]
  · rcases Std.le_iff_lt_or_eq.1 h with h | h <;> simp [h]

-- ---------------------------------------------------------------------------
-- Words
-- ---------------------------------------------------------------------------

/-- The number that byte digits spell, least significant first. -/
def value : Bytes → Nat
  | [] => 0
  | b :: rest => b.toNat + 256 * value rest

/-- The lowest byte digits of a number, least significant first. -/
def digits : Nat → Nat → Bytes
  | 0, _ => []
  | count + 1, n => UInt8.ofNat n :: digits count (n / 256)

/-- The eight bytes of a word, least significant first. -/
def ofWord (w : UInt64) : Bytes := digits 8 w.toNat

/-- The word that eight bytes spell; strings of any other length spell none. -/
def word? (bs : Bytes) : Option UInt64 :=
  if bs.length = 8 then some (UInt64.ofNat bs.value) else none

@[simp] theorem length_ofWord (w : UInt64) : (ofWord w).length = 8 := rfl

/-- The digits of a word add up to it. -/
theorem value_ofWord (w : UInt64) : (ofWord w).value = w.toNat := by
  have hw := w.toNat_lt
  simp only [ofWord, digits, value, UInt8.toNat_ofNat']
  omega

/-- Bytes are the digits of the number that they spell. -/
theorem digits_value (bs : Bytes) : digits bs.length bs.value = bs := by
  induction bs with
  | nil => rfl
  | cons b rest ih =>
    have hb := b.toNat_lt
    have hlow : UInt8.ofNat (b.toNat + 256 * value rest) = b := by
      rw [← UInt8.toNat_inj, UInt8.toNat_ofNat']
      omega
    have hhigh : (b.toNat + 256 * value rest) / 256 = value rest := by omega
    rw [List.length_cons, value, digits, hlow, hhigh, ih]

theorem value_cons_lt {rest : Bytes} {bound : Nat} (b : UInt8) (h : value rest < bound) :
    value (b :: rest) < 256 * bound := by
  have hb := b.toNat_lt
  rw [value]
  omega

/-- Eight bytes spell a number of sixty-four bits. -/
theorem value_lt {bs : Bytes} (h : bs.length = 8) : bs.value < UInt64.size := by
  match bs, h with
  | [b₀, b₁, b₂, b₃, b₄, b₅, b₆, b₇], _ =>
    have hempty : value [] < 1 := Nat.zero_lt_one
    exact value_cons_lt b₀ <| value_cons_lt b₁ <| value_cons_lt b₂ <| value_cons_lt b₃ <|
      value_cons_lt b₄ <| value_cons_lt b₅ <| value_cons_lt b₆ <| value_cons_lt b₇ hempty

theorem word?_ofWord (w : UInt64) : word? (ofWord w) = some w := by
  rw [word?, if_pos (length_ofWord w), value_ofWord, UInt64.ofNat_toNat]

theorem word?_eq_none_iff {bs : Bytes} : word? bs = none ↔ bs.length ≠ 8 := by
  simp [word?]

end Bytes

end CacheNode

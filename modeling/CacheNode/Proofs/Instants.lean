import CacheNode.Calendar.Notation
import CacheNode.Text.Span

/-!
# CacheNode — written instants read back

Reading takes more than writing makes, and it takes an instant apart from the left: each number ends
where its digits end or where it has its greatest width, and each part leaves the rest of the text
to the next one. So for each part it is shown what reading makes of it, whatever follows; and the
written instant is these parts one after the other.

A fraction is written with three, six or nine digits and read as nine, with zeros in the places that
were left out. A leap second is written as a second of its own and read as the end of the one
before.

* `Instant.readDigits_append` — a number in front of a text;
* `Instant.readDate_write`, `Instant.readFraction_write` — the parts of an instant;
* `Instant.exists_write_eq` — what a written instant looks like;
* `Instant.read?_write` — it is read back, all of it.
-/

namespace CacheNode.Instant

open Text (Stops stops_cons)

variable {n : Nat} {digits rest : List Char} {c : Char}

-- ---------------------------------------------------------------------------
-- Numbers and separators
-- ---------------------------------------------------------------------------

/-- Digits are read as far as they go, or up to the greatest width. -/
theorem readDigits_append (h : ∀ c ∈ digits, c.isDigit = true) (hne : digits ≠ []) (most : Nat)
    (rest : List Char) (hle : digits.length ≤ most)
    (hends : digits.length = most ∨ Stops Char.isDigit rest) :
    readDigits most (digits ++ rest) = some (digits, rest) := by
  have htaken : ((digits ++ rest).take most).takeWhile Char.isDigit = digits := by
    rw [List.take_append, List.take_of_length_le hle]
    apply Text.takeWhile_append_of_stops h
    rcases hends with hfull | hstops
    · rw [hfull, Nat.sub_self, List.take_zero]
      exact Text.stops_nil
    · exact hstops.take _
  simp only [readDigits, htaken, if_neg hne, List.drop_left]

theorem isBlank_of_isDigit (h : c.isDigit = true) : Text.isBlank c = false := by
  obtain ⟨hlow, hhigh⟩ := Char.isDigit_iff_toNat.1 h
  change 48 ≤ c.toNat at hlow
  change c.toNat ≤ 57 at hhigh
  simp only [Text.isBlank, Bool.or_eq_false_iff, Bool.and_eq_false_iff, decide_eq_false_iff_not]
  omega

/-- No blanks are passed over in front of something else. -/
theorem skipBlank_cons (h : Text.isBlank c = false) (rest : List Char) :
    skipBlank (c :: rest) = c :: rest :=
  Text.dropWhile_of_stops (stops_cons h rest)

theorem skipBlank_digits (h : ∀ c ∈ digits, c.isDigit = true) (hne : digits ≠ [])
    (rest : List Char) : skipBlank (digits ++ rest) = digits ++ rest := by
  cases digits with
  | nil => exact absurd rfl hne
  | cons c more => exact skipBlank_cons (isBlank_of_isDigit (h c List.mem_cons_self)) _

theorem readMark_cons (h : Text.isBlank c = false) (rest : List Char) :
    readMark c (c :: rest) = some rest := by
  rw [readMark, skipBlank_cons h]
  exact if_pos rfl

/-- A number below a hundred is written and read as two digits. -/
theorem readPair_padded (h : n < 100) (rest : List Char) :
    readPair (Decimal.padded 2 n ++ rest) = some (n, rest) := by
  have hdigits : ∀ c ∈ Decimal.padded 2 n, c.isDigit = true := fun c hc => Decimal.isDigit_padded hc
  have hlength : (Decimal.padded 2 n).length = 2 :=
    Decimal.length_padded ((Nat.length_toDigits_le_iff (by decide) (by decide)).2 h)
  rw [readPair, skipBlank_digits hdigits (Decimal.padded_ne_nil 2 n),
    readDigits_append hdigits (Decimal.padded_ne_nil 2 n) 2 rest (Nat.le_of_eq hlength)
      (.inl hlength), Option.map_some]
  show some (Decimal.value _, rest) = _
  rw [Decimal.value_padded]

-- ---------------------------------------------------------------------------
-- Dates
-- ---------------------------------------------------------------------------

/-- Four digits are a year without a sign. -/
theorem readYear_digits (h : ∀ c ∈ digits, c.isDigit = true) (hlength : digits.length = 4) :
    readYear (digits ++ rest) = some ((Decimal.value digits : Int), rest) := by
  have hne : digits ≠ [] := by
    rintro rfl
    cases hlength
  have hread := readDigits_append h hne 4 rest (Nat.le_of_eq hlength) (.inl hlength)
  have hsign (sign : Char) (hsign : sign.isDigit = false) (more : List Char) :
      digits ++ rest ≠ sign :: more := by
    intro heq
    cases digits with
    | nil => exact hne rfl
    | cons c others =>
      obtain rfl := (List.cons.inj heq).1
      rw [h c List.mem_cons_self] at hsign
      cases hsign
  unfold readYear
  rw [skipBlank_digits h hne]
  split
  · next heq => exact absurd heq (hsign '-' (by decide) _)
  · next heq => exact absurd heq (hsign '+' (by decide) _)
  · rw [hread]
    rfl

/-- A year is read up to a separator, with its sign if it has one. -/
theorem readYear_write {year : Int} (hlow : -1000000 < year) (hhigh : year < 1000000)
    (hrest : Stops Char.isDigit rest) : readYear (writeYear year ++ rest) = some (year, rest) := by
  have hdigits (n : Nat) : ∀ c ∈ Decimal.padded 4 n, c.isDigit = true :=
    fun c hc => Decimal.isDigit_padded hc
  have hread (n : Nat) := readDigits_append (hdigits n) (Decimal.padded_ne_nil 4 n)
    (Decimal.padded 4 n ++ rest).length rest
    (by rw [List.length_append]; exact Nat.le_add_right _ _) (.inr hrest)
  have hbelow : Decimal.below? yearBound (Decimal.padded 4 year.natAbs) = some year.natAbs := by
    rw [Decimal.below?_eq (by decide), Decimal.value_padded]
    refine if_pos ?_
    show year.natAbs < 1000000
    omega
  unfold writeYear
  split
  · next hplain =>
    have hlength : (Decimal.padded 4 year.toNat).length = 4 := by
      refine Decimal.length_padded ((Nat.length_toDigits_le_iff (by decide) (by decide)).2 ?_)
      show year.toNat < 10000
      omega
    rw [readYear_digits (hdigits _) hlength, Decimal.value_padded, Int.toNat_of_nonneg hplain.1]
  · rw [List.cons_append]
    split
    · next hnegative =>
      rw [readYear, skipBlank_cons (by decide)]
      simp only [hread, hbelow, Option.bind_eq_bind, Option.bind_some]
      rw [show -(year.natAbs : Int) = year by omega]
    · next hpositive =>
      rw [readYear, skipBlank_cons (by decide)]
      simp only [hread, hbelow, Option.bind_eq_bind, Option.bind_some]
      rw [show (year.natAbs : Int) = year by omega]

/-- A date of an instant is read back. -/
theorem readDate_write {date : Date} (hrange : inRange date = true) (rest : List Char) :
    readDate (writeYear date.year ++ '-' :: (Decimal.padded 2 date.month ++
      '-' :: (Decimal.padded 2 date.day ++ rest))) = some (date, rest) := by
  obtain ⟨⟨hmonth, hmonth'⟩, hday, hday'⟩ := date.inCalendar
  have hdays := daysIn_le date.year date.month
  have hyears := hrange
  simp only [inRange, Bool.and_eq_true, decide_eq_true_eq] at hyears
  have hyear (more : List Char) :
      readYear (writeYear date.year ++ '-' :: more) = some (date.year, '-' :: more) :=
    readYear_write (by omega) (by omega) (stops_cons (by decide) more)
  have hmark (more : List Char) : readMark '-' ('-' :: more) = some more :=
    readMark_cons (by decide) more
  have hpair {n : Nat} (h : n ≤ 31) (more : List Char) :
      readPair (Decimal.padded 2 n ++ more) = some (n, more) :=
    readPair_padded (Nat.lt_of_le_of_lt h (by decide)) more
  have hof : Date.of? date.year date.month date.day = some date := dif_pos date.inCalendar
  simp only [readDate, hyear, hmark,
    hpair (Nat.le_trans hmonth' (by decide)), hpair (Nat.le_trans hday' hdays), hof, hrange,
    Option.bind_eq_bind, Option.bind_some, if_true]

-- ---------------------------------------------------------------------------
-- Fractions
-- ---------------------------------------------------------------------------

/-- Zeros in the places that follow multiply a number by a power of ten. -/
theorem value_append_zeros (digits : List Char) (count : Nat) :
    Decimal.value (digits ++ List.replicate count '0') =
      Nat.pow 10 count * Decimal.value digits := by
  rw [Decimal.value_eq_ofDigitChars, Nat.ofDigitChars_append, Nat.ofDigitChars_replicate_zero,
    Decimal.value_eq_ofDigitChars]
  rfl

/-- Digits after a point are read as nine of them. -/
theorem readFraction_padded {width : Nat} (hwidth : width ≤ 9)
    (hlength : (Nat.toDigits 10 n).length ≤ width) (hrest : Stops Char.isDigit rest) :
    readFraction ('.' :: Decimal.padded width n ++ rest) =
      some (Nat.pow 10 (9 - width) * n, rest) := by
  have hdigits : ∀ c ∈ Decimal.padded width n, c.isDigit = true :=
    fun c hc => Decimal.isDigit_padded hc
  have hwide := Decimal.length_padded hlength
  have hread := readDigits_append hdigits (Decimal.padded_ne_nil width n) 9 rest
    (by rw [hwide]; exact hwidth) (.inr hrest)
  rw [List.cons_append]
  simp only [readFraction, hread, Option.map_some, Text.dropWhile_of_stops hrest,
    value_append_zeros, hwide, Decimal.value_padded]

/-- The fraction of a second is read back, whatever number of digits it was written with. -/
theorem readFraction_write (h : n < 1000000000) (hrest : Stops Char.isDigit rest)
    (hpoint : ∀ more, rest ≠ '.' :: more) :
    readFraction (writeFraction n ++ rest) = some (n, rest) := by
  have hshort {m width : Nat} (hpos : 0 < width) (hm : m < Nat.pow 10 width) :
      (Nat.toDigits 10 m).length ≤ width :=
    (Nat.length_toDigits_le_iff (by decide) hpos).2 hm
  unfold writeFraction
  split
  · next hzero =>
    rw [List.nil_append, hzero]
    unfold readFraction
    split
    · next heq => exact absurd rfl (hpoint _)
    · rfl
  · split
    · next hmillis =>
      rw [readFraction_padded (by decide) (hshort (by decide) (show n / 1000000 < 1000 by omega))
        hrest]
      have hscaled : Nat.pow 10 (9 - 3) * (n / 1000000) = n := by
        show 1000000 * (n / 1000000) = n
        omega
      rw [hscaled]
    · split
      · next hmicros =>
        rw [readFraction_padded (by decide) (hshort (by decide) (show n / 1000 < 1000000 by omega))
          hrest]
        have hscaled : Nat.pow 10 (9 - 6) * (n / 1000) = n := by
          show 1000 * (n / 1000) = n
          omega
        rw [hscaled]
      · rw [readFraction_padded (by decide) (hshort (by decide) h) hrest]
        have hscaled : Nat.pow 10 (9 - 9) * n = n := by
          show 1 * n = n
          omega
        rw [hscaled]

-- ---------------------------------------------------------------------------
-- Instants
-- ---------------------------------------------------------------------------

theorem length_writeFraction (h : n < 1000000000) :
    (writeFraction n).length ∈ [0, 4, 7, 10] := by
  have hpoint {m width : Nat} (hpos : 0 < width) (hm : m < Nat.pow 10 width) :
      ('.' :: Decimal.padded width m).length = width + 1 := by
    rw [List.length_cons, Decimal.length_padded]
    exact (Nat.length_toDigits_le_iff (by decide) hpos).2 hm
  unfold writeFraction
  split
  · decide
  · split
    · rw [hpoint (by decide) (show n / 1000000 < 1000 by omega)]
      decide
    · split
      · rw [hpoint (by decide) (show n / 1000 < 1000000 by omega)]
        decide
      · rw [hpoint (by decide) h]
        decide

/-- In the years of four digits all parts of an instant but the fraction have a fixed width. -/
theorem exists_write_eq (t : Instant) (hlow : 0 ≤ t.date.year) (hhigh : t.date.year ≤ 9999) :
    ∃ date time fraction, t.write = date ++ 'T' :: time ++ fraction ++ ['Z'] ∧
      date.length = 10 ∧ time.length = 8 ∧ fraction.length ∈ [0, 4, 7, 10] := by
  obtain ⟨⟨hhour, hminute, hsecond⟩, hbound, hleap⟩ := t.inDay
  obtain ⟨⟨-, hmonth⟩, -, hday⟩ := t.date.inCalendar
  have hdays := daysIn_le t.date.year t.date.month
  have hwide {width n : Nat} (hpos : 0 < width) (hn : n < Nat.pow 10 width) :
      (Decimal.padded width n).length = width :=
    Decimal.length_padded ((Nat.length_toDigits_le_iff (by decide) hpos).2 hn)
  have htwo {n : Nat} (hn : n ≤ 60) : (Decimal.padded 2 n).length = 2 :=
    hwide (by decide) (Nat.lt_of_le_of_lt hn (by decide))
  have hyear : (writeYear t.date.year).length = 4 := by
    rw [writeYear, if_pos ⟨hlow, hhigh⟩]
    exact hwide (by decide) (show t.date.year.toNat < 10000 by omega)
  have hlast : t.second + (if 1000000000 ≤ t.nanosecond then 1 else 0) ≤ 60 := by
    split <;> omega
  refine ⟨writeYear t.date.year ++ '-' :: Decimal.padded 2 t.date.month ++ '-' ::
      Decimal.padded 2 t.date.day,
    Decimal.padded 2 t.hour ++ ':' :: Decimal.padded 2 t.minute ++ ':' ::
      Decimal.padded 2 (t.second + if 1000000000 ≤ t.nanosecond then 1 else 0),
    writeFraction (t.nanosecond % 1000000000), ?_, ?_, ?_,
    length_writeFraction (Nat.mod_lt _ (by decide))⟩
  · simp only [write, List.append_assoc, List.cons_append]
  · simp only [List.length_append, List.length_cons, hyear,
      htwo (Nat.le_trans hmonth (by decide)), htwo (show t.date.day ≤ 60 by omega)]
  · simp only [List.length_append, List.length_cons, htwo (show t.hour ≤ 60 by omega),
      htwo (Nat.le_of_lt hminute), htwo hlast]

/-- A second is read back, also a leap second, which is written as another one. -/
theorem of?_write (t : Instant) :
    of? t.date t.hour t.minute (t.second + if 1000000000 ≤ t.nanosecond then 1 else 0)
      (t.nanosecond % 1000000000) = some t := by
  obtain ⟨date, hour, minute, second, nanosecond, ⟨hhour, hminute, hsecond⟩, hbound, hleap⟩ := t
  dsimp only
  unfold of?
  split
  · next hlate =>
    obtain rfl := hleap hlate
    have hrest : nanosecond % 1000000000 + 1000000000 = nanosecond := by omega
    rw [dif_neg (by omega), dif_pos (by omega)]
    simp only [hrest]
  · next hearly =>
    have hrest : nanosecond % 1000000000 = nanosecond := by omega
    rw [dif_pos (by omega)]
    simp only [hrest, Nat.add_zero]

/-- An instant in UTC is not moved. -/
theorem addMinutes_zero (t : Instant) : t.addMinutes (-0) = t := by
  obtain ⟨date, hour, minute, second, nanosecond, ⟨hhour, hminute, hsecond⟩, hbound, hleap⟩ := t
  have htotal : ((hour * 60 + minute : Int) + -0) = (hour * 60 + minute : Nat) := by omega
  have hday : ((hour * 60 + minute : Nat) : Int) % 1440 = (hour * 60 + minute : Nat) := by omega
  have hhours : (hour * 60 + minute) / 60 = hour := by omega
  have hminutes : (hour * 60 + minute) % 60 = minute := by omega
  simp only [addMinutes, htotal, hday, Int.toNat_natCast, hhours, hminutes]
  rw [if_neg (by omega), if_neg (by omega)]

/-- Every instant is read back as it was written, in any year and to the nanosecond. -/
theorem read?_write {t : Instant} (hrange : inRange t.date = true) : read? t.write = some t := by
  obtain ⟨⟨hhour, hminute, hsecond⟩, hbound, hleap⟩ := t.inDay
  have hmark (more : List Char) : readMark ':' (':' :: more) = some more :=
    readMark_cons (by decide) more
  have hpair {n : Nat} (h : n ≤ 60) (more : List Char) :
      readPair (Decimal.padded 2 n ++ more) = some (n, more) :=
    readPair_padded (Nat.lt_of_le_of_lt h (by decide)) more
  have hlast : t.second + (if 1000000000 ≤ t.nanosecond then 1 else 0) ≤ 60 := by
    split <;> omega
  have hfraction : readFraction (writeFraction (t.nanosecond % 1000000000) ++ ['Z']) =
      some (t.nanosecond % 1000000000, ['Z']) :=
    readFraction_write (Nat.mod_lt _ (by decide)) (stops_cons (by decide) []) nofun
  have hzone : readZone (skipBlank ['Z']) = some (0, []) := by
    rw [skipBlank_cons (by decide)]
    rfl
  have hhour' : t.hour ≤ 60 := Nat.le_of_lt (Nat.lt_trans hhour (by decide))
  simp only [read?, write, List.append_assoc, List.cons_append, readDate_write hrange,
    Option.bind_eq_bind, Option.bind_some, hmark, hpair hhour', hpair (Nat.le_of_lt hminute),
    hpair hlast, hfraction, hzone, of?_write, addMinutes_zero]
  exact if_pos ⟨by decide, rfl, hrange⟩

end CacheNode.Instant

import CacheNode.Json.Reader
import CacheNode.Text.Span

/-!
# CacheNode — how values are spelled

A value can be written in many ways: with blanks around its parts, with characters escaped or not,
and with numbers in several notations. The grammar says which byte strings spell a value, and
reading turns each of them back into the value.

Values, the items of an array and the members of an object depend on each other. They are three
kinds of phrase of one grammar, each with the reader that is meant for it, so that one induction
covers them all. Items and members include the bracket that closes them.

* `Numeral`, `Pieces`, `Quoted` — the parts of values that have no parts themselves;
* `Spells` — the grammar of phrases, `Document` — a value between blanks;
* `readNumber_append`, `readQuoted_append` — these parts are read back in front of any text;
* `reads_of_spells` — so are all phrases, with as much fuel as twice their length;
* `read?_of_document`, `Document.unique` — what a document spells is read from it, and it spells
  nothing else.
-/

namespace CacheNode.Json

open Text (Stops stops_nil stops_cons)

-- ---------------------------------------------------------------------------
-- The grammar
-- ---------------------------------------------------------------------------

/-- A decimal digit. -/
def isDigit (b : UInt8) : Bool := 0x30 ≤ b && b ≤ 0x39

/-- Blanks, or nothing. -/
def Blank (bytes : Bytes) : Prop := ∀ b ∈ bytes, isBlank b = true

/-- At least one digit. -/
def Digits (bytes : Bytes) : Prop := bytes ≠ [] ∧ ∀ b ∈ bytes, isDigit b = true

/-- A whole number without superfluous zeros in front. -/
inductive Whole : Bytes → Prop where
  | zero : Whole [0x30]
  | digits {b : UInt8} {more : Bytes} (hfirst : b ≠ 0x30) (hdigits : Digits (b :: more)) :
    Whole (b :: more)

/-- A point with digits after it, or nothing. -/
inductive Places : Bytes → Prop where
  | none : Places []
  | point {ds : Bytes} (hdigits : Digits ds) : Places (0x2E :: ds)

/-- A mark with digits after it, which may have a sign, or nothing. -/
inductive Exponent : Bytes → Prop where
  | none : Exponent []
  | mark {e : UInt8} {sign ds : Bytes} (hmark : e = 0x65 ∨ e = 0x45)
    (hsign : sign = [] ∨ sign = [0x2B] ∨ sign = [0x2D]) (hdigits : Digits ds) :
    Exponent (e :: sign ++ ds)

/-- A number in one of its notations. -/
inductive Numeral : Bytes → Prop where
  | parts {sign whole places exponent : Bytes} (hsign : sign = [] ∨ sign = [0x2D])
    (hwhole : Whole whole) (hplaces : Places places) (hexponent : Exponent exponent) :
    Numeral (sign ++ whole ++ places ++ exponent)

/-- The inside of a quotation, with the quote that closes it. A byte stands for itself or is escaped
by a letter; any 16-bit unit can be escaped by its number. -/
inductive Pieces : List Piece → Bytes → Prop where
  | close : Pieces [] [0x22]
  | byte {b : UInt8} {pieces : List Piece} {more : Bytes} (hplain : 0x20 ≤ b) (hquote : b ≠ 0x22)
    (hescape : b ≠ 0x5C) (hmore : Pieces pieces more) : Pieces (.byte b :: pieces) (b :: more)
  | letter {l b : UInt8} {pieces : List Piece} {more : Bytes} (hletter : escaped? l = some b)
    (hmore : Pieces pieces more) : Pieces (.byte b :: pieces) (0x5C :: l :: more)
  | unit {a b c d : UInt8} {u : Nat} {pieces : List Piece} {more : Bytes}
    (hunit : hexUnit? a b c d = some u) (hmore : Pieces pieces more) :
    Pieces (.unit u :: pieces) (0x5C :: 0x75 :: a :: b :: c :: d :: more)

/-- A text in quotes. -/
inductive Quoted : Option String → Bytes → Prop where
  | pieces {pieces : List Piece} {more : Bytes} (hpieces : Pieces pieces more) :
    Quoted (textOf pieces) (0x22 :: more)

/-- What is read at once. -/
inductive Phrase where
  | value (v : Json)
  /-- the items of an array, one at least -/
  | items (vs : List Json)
  /-- the members of an object, one at least -/
  | members (ms : List (Option String × Json))

/-- The ways to spell a phrase. -/
inductive Spells : Phrase → Bytes → Prop where
  | blank {v : Json} {b : UInt8} {bytes : Bytes} (hblank : isBlank b = true)
    (hvalue : Spells (.value v) bytes) : Spells (.value v) (b :: bytes)
  | null : Spells (.value .null) (Bytes.ofText "null")
  | true : Spells (.value (.bool true)) (Bytes.ofText "true")
  | false : Spells (.value (.bool false)) (Bytes.ofText "false")
  | number {bytes : Bytes} (hnumeral : Numeral bytes) :
    Spells (.value (.number (bytes.map fun b => Char.ofNat b.toNat))) bytes
  | text {t : Option String} {bytes : Bytes} (hquoted : Quoted t bytes) :
    Spells (.value (.text t)) bytes
  | noItems {gap : Bytes} (hgap : Blank gap) :
    Spells (.value (.array [])) (0x5B :: gap ++ [0x5D])
  | array {vs : List Json} {body : Bytes} (hitems : Spells (.items vs) body) :
    Spells (.value (.array vs)) (0x5B :: body)
  | noMembers {gap : Bytes} (hgap : Blank gap) :
    Spells (.value (.object [])) (0x7B :: gap ++ [0x7D])
  | object {ms : List (Option String × Json)} {body : Bytes}
    (hmembers : Spells (.members ms) body) : Spells (.value (.object ms)) (0x7B :: body)
  | lastItem {v : Json} {bytes gap : Bytes} (hvalue : Spells (.value v) bytes) (hgap : Blank gap) :
    Spells (.items [v]) (bytes ++ gap ++ [0x5D])
  | item {v : Json} {vs : List Json} {bytes gap more : Bytes} (hvalue : Spells (.value v) bytes)
    (hgap : Blank gap) (hmore : Spells (.items vs) more) :
    Spells (.items (v :: vs)) (bytes ++ gap ++ 0x2C :: more)
  | lastMember {name : Option String} {v : Json} {before quoted between bytes gap : Bytes}
    (hbefore : Blank before) (hname : Quoted name quoted) (hbetween : Blank between)
    (hvalue : Spells (.value v) bytes) (hgap : Blank gap) :
    Spells (.members [(name, v)]) (before ++ quoted ++ between ++ 0x3A :: bytes ++ gap ++ [0x7D])
  | member {name : Option String} {v : Json} {ms : List (Option String × Json)}
    {before quoted between bytes gap more : Bytes}
    (hbefore : Blank before) (hname : Quoted name quoted) (hbetween : Blank between)
    (hvalue : Spells (.value v) bytes) (hgap : Blank gap) (hmore : Spells (.members ms) more) :
    Spells (.members ((name, v) :: ms))
      (before ++ quoted ++ between ++ 0x3A :: bytes ++ gap ++ 0x2C :: more)

/-- A value with blanks around it. -/
inductive Document : Json → Bytes → Prop where
  | value {v : Json} {bytes gap : Bytes} (hvalue : Spells (.value v) bytes) (hgap : Blank gap) :
    Document v (bytes ++ gap)

variable {v : Json} {t : Option String} {pieces : List Piece} {b : UInt8}
  {bytes gap rest ds : Bytes} {phrase : Phrase}

-- ---------------------------------------------------------------------------
-- Blanks and marks
-- ---------------------------------------------------------------------------

theorem blank_nil : Blank [] := nofun

/-- Blanks are passed over up to something else. -/
theorem skipBlank_append (hgap : Blank gap) (hb : isBlank b = false) (rest : Bytes) :
    skipBlank (gap ++ b :: rest) = b :: rest :=
  Text.dropWhile_append_of_stops hgap (stops_cons hb rest)

theorem skipBlank_blank (hgap : Blank gap) : skipBlank gap = [] := by
  have h := Text.dropWhile_append_of_stops hgap (stops_nil (p := isBlank))
  rwa [List.append_nil] at h

theorem expect_append (beginning rest : Bytes) :
    expect beginning (beginning ++ rest) = some rest := by
  rw [expect, List.take_left, if_pos rfl, List.drop_left]

/-- What may stand behind a value: nothing, a blank, a comma, or a bracket that closes. -/
def Ends (rest : Bytes) : Prop :=
  ∀ b more, rest = b :: more → isBlank b = true ∨ b = 0x2C ∨ b = 0x5D ∨ b = 0x7D

theorem ends_nil : Ends [] := nofun

theorem ends_cons (h : isBlank b = true ∨ b = 0x2C ∨ b = 0x5D ∨ b = 0x7D) (rest : Bytes) :
    Ends (b :: rest) := by
  rintro c more ⟨⟩
  exact h

theorem ends_append (hgap : Blank gap) (hrest : Ends rest) : Ends (gap ++ rest) := by
  cases gap with
  | nil => exact hrest
  | cons b more => exact ends_cons (.inl (hgap b List.mem_cons_self)) _

/-- A number does not go on there. -/
theorem Ends.not_numeral (h : Ends (b :: rest)) :
    isDigit b = false ∧ b ≠ 0x2E ∧ ¬ (b = 0x65 ∨ b = 0x45) := by
  have hb := h b rest rfl
  simp only [isBlank, Bool.or_eq_true, decide_eq_true_eq] at hb
  rcases hb with (((rfl | rfl) | rfl) | rfl) | rfl | rfl | rfl <;> decide

-- ---------------------------------------------------------------------------
-- Quotations
-- ---------------------------------------------------------------------------

/-- Pieces are read back, each by the branch for the way in which it was written. -/
theorem readPieces_append (h : Pieces pieces bytes) (rest : Bytes) :
    readPieces (bytes ++ rest) = some (pieces, rest) := by
  induction h with
  | close => rfl
  | byte hplain hquote hescape _ ih =>
    rw [List.cons_append]
    unfold readPieces
    split
    · next heq => exact absurd (List.cons.inj heq).1 hquote
    · next heq => exact absurd (List.cons.inj heq).1 hescape
    · next heq => exact absurd (List.cons.inj heq).1 hescape
    · next heq =>
      obtain ⟨rfl, rfl⟩ := List.cons.inj heq
      rw [if_neg (not_or.2 ⟨UInt8.not_lt.2 hplain, hescape⟩), ih]
      rfl
    · next heq => cases heq
  | letter hletter _ ih =>
    rw [List.cons_append, List.cons_append]
    unfold readPieces
    split
    · next heq => cases (List.cons.inj heq).1
    · next heq =>
      -- the letter of a number is not that of a byte
      rw [(List.cons.inj (List.cons.inj heq).2).1] at hletter
      cases hletter
    · next heq =>
      obtain ⟨rfl, rfl⟩ := List.cons.inj (List.cons.inj heq).2
      rw [hletter, ih]
      rfl
    · next hnone heq =>
      obtain ⟨rfl, rfl⟩ := List.cons.inj heq
      exact (hnone _ _ rfl rfl).elim
    · next heq => cases heq
  | unit hunit _ ih => simp only [List.cons_append, readPieces, hunit, ih, Option.map_some]

theorem readQuoted_append (h : Quoted t bytes) (rest : Bytes) :
    readQuoted (bytes ++ rest) = some (t, rest) := by
  obtain ⟨hpieces⟩ := h
  simp only [List.cons_append, readQuoted, readPieces_append hpieces, Option.map_some]

-- ---------------------------------------------------------------------------
-- Numbers
-- ---------------------------------------------------------------------------

theorem digits_append (h : Digits ds) (hrest : Stops isDigit rest) : digits (ds ++ rest) = ds :=
  Text.takeWhile_append_of_stops h.2 hrest

theorem readWhole_append (h : Whole bytes) (hrest : Stops isDigit rest) :
    readWhole (bytes ++ rest) = some (bytes, rest) := by
  cases h with
  | zero => rfl
  | @digits b more hfirst hdigits =>
    have hread := digits_append hdigits hrest
    unfold readWhole
    split
    · next heq => exact absurd (List.cons.inj heq).1 hfirst
    · rw [hread]
      simp only [if_neg hdigits.1, List.drop_left]

theorem readPlaces_append (h : Places bytes) (hrest : Stops isDigit rest)
    (hpoint : ∀ more, rest ≠ 0x2E :: more) : readPlaces (bytes ++ rest) = some (bytes, rest) := by
  cases h with
  | none =>
    unfold readPlaces
    split
    · next more heq => exact absurd heq (hpoint more)
    · rfl
  | point hdigits =>
    simp only [List.cons_append, readPlaces, digits_append hdigits hrest, if_neg hdigits.1,
      List.drop_left]

/-- A sign is taken where there is one. -/
theorem sign_append {p : UInt8 → Bool} {sign : Bytes} (hsign : ∀ b ∈ sign, p b = true)
    (hone : sign.length ≤ 1) (hrest : Stops p rest) :
    ((sign ++ rest).take 1).filter p = sign := by
  cases sign with
  | nil =>
    cases rest with
    | nil => rfl
    | cons b more =>
      exact List.filter_cons_of_neg (by rw [hrest b more rfl]; exact Bool.false_ne_true)
  | cons s others =>
    have hnone : others = [] :=
      List.eq_nil_of_length_eq_zero (Nat.le_zero.1 (Nat.le_of_succ_le_succ hone))
    rw [hnone]
    exact List.filter_cons_of_pos (hsign s List.mem_cons_self)

theorem ne_of_isDigit {c : UInt8} (hb : isDigit b = true) (hc : isDigit c = false) : b ≠ c := by
  rintro rfl
  rw [hb] at hc
  cases hc

/-- What digits do not start with does not stand in front of them. -/
theorem Digits.stops {p : UInt8 → Bool} (h : Digits ds) (hp : ∀ b, isDigit b = true → p b = false)
    (rest : Bytes) : Stops p (ds ++ rest) := by
  cases ds with
  | nil => exact absurd rfl h.1
  | cons d more => exact stops_cons (hp d (h.2 d List.mem_cons_self)) _

theorem Whole.toDigits (h : Whole bytes) : Digits bytes := by
  cases h with
  | zero => exact ⟨List.cons_ne_nil _ _, List.forall_mem_singleton.2 rfl⟩
  | digits _ hdigits => exact hdigits

theorem readExponent_append (h : Exponent bytes) (hrest : Stops isDigit rest)
    (hmark : ∀ e more, rest = e :: more → ¬ (e = 0x65 ∨ e = 0x45)) :
    readExponent (bytes ++ rest) = some (bytes, rest) := by
  cases h with
  | none =>
    cases rest with
    | nil => rfl
    | cons e more => rw [List.nil_append, readExponent, if_neg (hmark e more rfl)]
  | @mark e sign ds he hsign hdigits =>
    have hstops : Stops (fun b => b = 0x2B || b = 0x2D) (ds ++ rest) := by
      refine hdigits.stops (fun b hb => ?_) rest
      rw [Bool.or_eq_false_iff, decide_eq_false_iff_not, decide_eq_false_iff_not]
      exact ⟨ne_of_isDigit hb rfl, ne_of_isDigit hb rfl⟩
    have htaken : ((sign ++ (ds ++ rest)).take 1).filter (fun b => b = 0x2B || b = 0x2D) =
        sign := by
      rcases hsign with rfl | rfl | rfl
      · exact sign_append nofun (Nat.zero_le 1) hstops
      · exact sign_append (List.forall_mem_singleton.2 rfl) (Nat.le_refl 1) hstops
      · exact sign_append (List.forall_mem_singleton.2 rfl) (Nat.le_refl 1) hstops
    rw [List.cons_append, List.cons_append, List.append_assoc]
    simp only [readExponent, if_pos he, htaken, List.drop_left, digits_append hdigits hrest,
      if_neg hdigits.1, ← List.drop_drop, List.cons_append]

/-- Behind the places of a number stand a mark or something that ends the number. -/
theorem Exponent.head (h : Exponent bytes) (hrest : Ends rest) {more : Bytes}
    (heq : bytes ++ rest = b :: more) : isDigit b = false ∧ b ≠ 0x2E := by
  cases h with
  | none =>
    rw [List.nil_append] at heq
    rw [heq] at hrest
    exact ⟨hrest.not_numeral.1, hrest.not_numeral.2.1⟩
  | mark hmark _ _ =>
    obtain rfl := (List.cons.inj heq).1
    rcases hmark with rfl | rfl <;> decide

theorem readNumber_append (h : Numeral bytes) (hrest : Ends rest) :
    readNumber (bytes ++ rest) = some (bytes.map fun b => Char.ofNat b.toNat, rest) := by
  obtain @⟨sign, whole, places, exponent, hsign, hwhole, hplaces, hexponent⟩ := h
  -- each part ends where the next one starts
  have hend : Stops isDigit rest := fun b more heq => (heq ▸ hrest).not_numeral.1
  have hafter : Stops isDigit (exponent ++ rest) := fun b more heq => (hexponent.head hrest heq).1
  have hbetween : Stops isDigit (places ++ (exponent ++ rest)) := by
    cases hplaces with
    | none => exact hafter
    | point _ => exact stops_cons rfl _
  have hfirst : Stops (fun b => b = 0x2D) (whole ++ (places ++ (exponent ++ rest))) :=
    hwhole.toDigits.stops (fun b hb => decide_eq_false (ne_of_isDigit hb rfl)) _
  have htaken : ((sign ++ (whole ++ (places ++ (exponent ++ rest)))).take 1).filter
      (fun b => b = 0x2D) = sign := by
    rcases hsign with rfl | rfl
    · exact sign_append nofun (Nat.zero_le 1) hfirst
    · exact sign_append (List.forall_mem_singleton.2 rfl) (Nat.le_refl 1) hfirst
  have hplace := readPlaces_append hplaces hafter fun more heq => (hexponent.head hrest heq).2 rfl
  have hexp := readExponent_append hexponent hend fun e more heq => (heq ▸ hrest).not_numeral.2.2
  simp only [readNumber, List.append_assoc, htaken, List.drop_left,
    readWhole_append hwhole hbetween, hplace, hexp, Option.bind_eq_bind, Option.bind_some]

-- ---------------------------------------------------------------------------
-- Phrases
-- ---------------------------------------------------------------------------

/-- The reader of a phrase reads it, whatever follows. Behind a value there must be something that
cannot be a part of it. -/
def Reads (fuel : Nat) : Phrase → Bytes → Prop
  | .value v, bytes => ∀ rest, Ends rest → readValue fuel (bytes ++ rest) = some (v, rest)
  | .items vs, bytes => ∀ rest, readItems fuel (bytes ++ rest) = some (vs, rest)
  | .members ms, bytes => ∀ rest, readMembers fuel (bytes ++ rest) = some (ms, rest)

/-- A number starts with a digit or the sign. -/
theorem Numeral.head (h : Numeral bytes) :
    ∃ b more, bytes = b :: more ∧ (isDigit b = true ∨ b = 0x2D) := by
  obtain @⟨sign, whole, places, exponent, hsign, hwhole, hplaces, hexponent⟩ := h
  obtain ⟨d, ds, rfl⟩ := List.exists_cons_of_ne_nil hwhole.toDigits.1
  rcases hsign with rfl | rfl
  · exact ⟨d, _, rfl, .inl (hwhole.toDigits.2 d List.mem_cons_self)⟩
  · exact ⟨0x2D, _, rfl, .inr rfl⟩

theorem Numeral.head_ne {c : UInt8} (h : isDigit b = true ∨ b = 0x2D) (hc : isDigit c = false)
    (hsign : c ≠ 0x2D) : b ≠ c := by
  rcases h with hdigit | rfl
  · exact ne_of_isDigit hdigit hc
  · exact hsign.symm

theorem Numeral.head_not_blank (h : isDigit b = true ∨ b = 0x2D) : isBlank b = false := by
  simp only [isBlank, Bool.or_eq_false_iff, decide_eq_false_iff_not]
  exact ⟨⟨⟨head_ne h rfl (by decide), head_ne h rfl (by decide)⟩, head_ne h rfl (by decide)⟩,
    head_ne h rfl (by decide)⟩

/-- A phrase starts with something else than blanks and brackets that close, after blanks. -/
theorem head_of_spells (h : Spells phrase bytes) : ∃ gap b more, bytes = gap ++ b :: more ∧
    Blank gap ∧ isBlank b = false ∧ b ≠ 0x5D ∧ b ≠ 0x7D := by
  induction h with
  | blank hblank _ ih =>
    obtain ⟨gap, b, more, rfl, hgap, hb⟩ := ih
    exact ⟨_ :: gap, b, more, rfl, List.forall_mem_cons.2 ⟨hblank, hgap⟩, hb⟩
  | null => exact ⟨[], 0x6E, Bytes.ofText "ull", by decide, blank_nil, by decide⟩
  | true => exact ⟨[], 0x74, Bytes.ofText "rue", by decide, blank_nil, by decide⟩
  | false => exact ⟨[], 0x66, Bytes.ofText "alse", by decide, blank_nil, by decide⟩
  | number hnumeral =>
    obtain ⟨b, more, rfl, hb⟩ := hnumeral.head
    exact ⟨[], b, more, rfl, blank_nil, Numeral.head_not_blank hb,
      Numeral.head_ne hb rfl (by decide), Numeral.head_ne hb rfl (by decide)⟩
  | text hquoted =>
    obtain ⟨-⟩ := hquoted
    exact ⟨[], 0x22, _, rfl, blank_nil, by decide⟩
  | noItems _ => exact ⟨[], 0x5B, _, rfl, blank_nil, by decide⟩
  | array _ _ => exact ⟨[], 0x5B, _, rfl, blank_nil, by decide⟩
  | noMembers _ => exact ⟨[], 0x7B, _, rfl, blank_nil, by decide⟩
  | object _ _ => exact ⟨[], 0x7B, _, rfl, blank_nil, by decide⟩
  | lastItem _ _ ih | item _ _ _ ih _ =>
    obtain ⟨gap, b, more, rfl, hgap, hb⟩ := ih
    simp only [List.append_assoc, List.cons_append]
    exact ⟨gap, b, _, rfl, hgap, hb⟩
  | lastMember hbefore hname _ _ _ _ | member hbefore hname _ _ _ _ _ _ =>
    obtain ⟨-⟩ := hname
    simp only [List.append_assoc, List.cons_append]
    exact ⟨_, 0x22, _, rfl, hbefore, by decide⟩

-- A value is read by the branch for its first byte.

theorem skipBlank_cons (hb : isBlank b = false) (rest : Bytes) :
    skipBlank (b :: rest) = b :: rest :=
  Text.dropWhile_of_stops (stops_cons hb rest)

theorem readValue_blank (hb : isBlank b = true) (fuel : Nat) (input : Bytes) :
    readValue fuel (b :: input) = readValue fuel input := by
  cases fuel with
  | zero => rfl
  | succ fuel =>
    have hskip : skipBlank (b :: input) = skipBlank input := List.dropWhile_cons_of_pos hb
    rw [readValue, readValue, hskip]

theorem readValue_null (fuel : Nat) (rest : Bytes) :
    readValue (fuel + 1) (Bytes.ofText "null" ++ rest) = some (.null, rest) := by
  rw [show Bytes.ofText "null" = 0x6E :: Bytes.ofText "ull" by decide, List.cons_append,
    readValue_eq (skipBlank_cons (by decide) _)]
  simp only [expect_append]
  rfl

theorem readValue_true (fuel : Nat) (rest : Bytes) :
    readValue (fuel + 1) (Bytes.ofText "true" ++ rest) = some (.bool true, rest) := by
  rw [show Bytes.ofText "true" = 0x74 :: Bytes.ofText "rue" by decide, List.cons_append,
    readValue_eq (skipBlank_cons (by decide) _)]
  simp only [expect_append]
  rfl

theorem readValue_false (fuel : Nat) (rest : Bytes) :
    readValue (fuel + 1) (Bytes.ofText "false" ++ rest) = some (.bool false, rest) := by
  rw [show Bytes.ofText "false" = 0x66 :: Bytes.ofText "alse" by decide, List.cons_append,
    readValue_eq (skipBlank_cons (by decide) _)]
  simp only [expect_append]
  rfl

theorem readValue_number (h : Numeral bytes) (hrest : Ends rest) (fuel : Nat) :
    readValue (fuel + 1) (bytes ++ rest) =
      some (.number (bytes.map fun b => Char.ofNat b.toNat), rest) := by
  have hread := readNumber_append h hrest
  obtain ⟨b, more, rfl, hb⟩ := h.head
  have hne {c : UInt8} (hc : isDigit c = false) (hsign : c ≠ 0x2D) : b ≠ c :=
    Numeral.head_ne hb hc hsign
  rw [List.cons_append] at hread ⊢
  rw [readValue_eq (skipBlank_cons (Numeral.head_not_blank hb) _)]
  simp only [if_neg (hne (c := 0x22) rfl (by decide)), if_neg (hne (c := 0x5B) rfl (by decide)),
    if_neg (hne (c := 0x7B) rfl (by decide)), if_neg (hne (c := 0x6E) rfl (by decide)),
    if_neg (hne (c := 0x74) rfl (by decide)), if_neg (hne (c := 0x66) rfl (by decide)), hread,
    Option.map_some]

theorem readValue_text (h : Quoted t bytes) (fuel : Nat) (rest : Bytes) :
    readValue (fuel + 1) (bytes ++ rest) = some (.text t, rest) := by
  have hread := readQuoted_append h rest
  obtain ⟨-⟩ := h
  rw [List.cons_append] at hread ⊢
  rw [readValue_eq (skipBlank_cons (by decide) _)]
  simp only [if_true, hread, Option.map_some]

theorem readValue_noItems (hgap : Blank gap) (fuel : Nat) (rest : Bytes) :
    readValue (fuel + 1) (0x5B :: gap ++ [0x5D] ++ rest) = some (.array [], rest) := by
  have hskip : skipBlank (gap ++ 0x5D :: rest) = 0x5D :: rest :=
    skipBlank_append hgap (by decide) rest
  rw [List.append_assoc, List.cons_append, List.singleton_append,
    readValue_eq (skipBlank_cons (by decide) _)]
  simp only [hskip]
  rfl

theorem readValue_noMembers (hgap : Blank gap) (fuel : Nat) (rest : Bytes) :
    readValue (fuel + 1) (0x7B :: gap ++ [0x7D] ++ rest) = some (.object [], rest) := by
  have hskip : skipBlank (gap ++ 0x7D :: rest) = 0x7D :: rest :=
    skipBlank_append hgap (by decide) rest
  rw [List.append_assoc, List.cons_append, List.singleton_append,
    readValue_eq (skipBlank_cons (by decide) _)]
  simp only [hskip]
  rfl

theorem readValue_array {vs : List Json} {fuel : Nat} (h : Spells (.items vs) bytes)
    (hread : readItems fuel (bytes ++ rest) = some (vs, rest)) :
    readValue (fuel + 1) (0x5B :: bytes ++ rest) = some (.array vs, rest) := by
  obtain ⟨gap, b, more, rfl, hgap, hb, hclose, -⟩ := head_of_spells h
  have hskip : skipBlank (gap ++ b :: more ++ rest) = b :: (more ++ rest) := by
    rw [List.append_assoc, List.cons_append, skipBlank_append hgap hb]
  rw [List.cons_append, readValue_eq (skipBlank_cons (by decide) _)]
  simp only [hskip, hread]
  rw [if_neg (by decide), if_pos trivial]
  split
  · next heq => exact absurd (List.cons.inj heq).1 hclose
  · rfl

theorem readValue_object {ms : List (Option String × Json)} {fuel : Nat}
    (h : Spells (.members ms) bytes)
    (hread : readMembers fuel (bytes ++ rest) = some (ms, rest)) :
    readValue (fuel + 1) (0x7B :: bytes ++ rest) = some (.object ms, rest) := by
  obtain ⟨gap, b, more, rfl, hgap, hb, -, hclose⟩ := head_of_spells h
  have hskip : skipBlank (gap ++ b :: more ++ rest) = b :: (more ++ rest) := by
    rw [List.append_assoc, List.cons_append, skipBlank_append hgap hb]
  rw [List.cons_append, readValue_eq (skipBlank_cons (by decide) _)]
  simp only [hskip, hread]
  rw [if_neg (by decide), if_neg (by decide), if_pos trivial]
  split
  · next heq => exact absurd (List.cons.inj heq).1 hclose
  · rfl

/-- The name of a member is read with the colon behind it. -/
theorem readName_append {name : Option String} {before quoted between : Bytes}
    (hbefore : Blank before) (hname : Quoted name quoted) (hbetween : Blank between)
    (rest : Bytes) :
    readQuoted (skipBlank (before ++ (quoted ++ (between ++ 0x3A :: rest)))) =
        some (name, between ++ 0x3A :: rest) ∧
      skipBlank (between ++ 0x3A :: rest) = 0x3A :: rest := by
  have hread := readQuoted_append hname (between ++ 0x3A :: rest)
  obtain ⟨-⟩ := hname
  rw [List.cons_append] at hread ⊢
  rw [skipBlank_append hbefore (by decide)]
  exact ⟨hread, skipBlank_append hbetween (by decide) rest⟩

/-- Every phrase is read back. Each level of nesting takes a byte, and two calls at most. -/
theorem reads_of_spells (h : Spells phrase bytes) (fuel : Nat)
    (hfuel : 2 * bytes.length ≤ fuel + 1) : Reads (fuel + 1) phrase bytes := by
  induction h generalizing fuel with
  | blank hblank _ ih =>
    intro rest hrest
    rw [List.length_cons] at hfuel
    rw [List.cons_append, readValue_blank hblank]
    exact ih fuel (by omega) rest hrest
  | null => exact fun rest _ => readValue_null fuel rest
  | true => exact fun rest _ => readValue_true fuel rest
  | false => exact fun rest _ => readValue_false fuel rest
  | number hnumeral => exact fun rest hrest => readValue_number hnumeral hrest fuel
  | text hquoted => exact fun rest _ => readValue_text hquoted fuel rest
  | noItems hgap => exact fun rest _ => readValue_noItems hgap fuel rest
  | array hitems ih =>
    intro rest _
    rw [List.length_cons] at hfuel
    obtain ⟨fuel, rfl⟩ := Nat.exists_eq_add_one_of_ne_zero (show fuel ≠ 0 by omega)
    exact readValue_array hitems (ih fuel (by omega) rest)
  | noMembers hgap => exact fun rest _ => readValue_noMembers hgap fuel rest
  | object hmembers ih =>
    intro rest _
    rw [List.length_cons] at hfuel
    obtain ⟨fuel, rfl⟩ := Nat.exists_eq_add_one_of_ne_zero (show fuel ≠ 0 by omega)
    exact readValue_object hmembers (ih fuel (by omega) rest)
  | lastItem _ hgap ih =>
    intro rest
    simp only [List.length_append, List.length_cons, List.length_nil] at hfuel
    obtain ⟨fuel, rfl⟩ := Nat.exists_eq_add_one_of_ne_zero (show fuel ≠ 0 by omega)
    have hvalue := ih fuel (by omega) _
      (ends_append hgap (ends_cons (.inr (.inr (.inl rfl))) rest))
    simp only [List.append_assoc, List.cons_append, List.nil_append]
    rw [readItems, hvalue]
    simp only [skipBlank_append hgap (by decide : isBlank 0x5D = false)]
  | @item v vs bytes gap more _ hgap _ ihvalue ihmore =>
    intro rest
    simp only [List.length_append, List.length_cons] at hfuel
    obtain ⟨fuel, rfl⟩ := Nat.exists_eq_add_one_of_ne_zero (show fuel ≠ 0 by omega)
    have hvalue := ihvalue fuel (by omega) _
      (ends_append hgap (ends_cons (.inr (.inl rfl)) (more ++ rest)))
    have hmore := ihmore fuel (by omega) rest
    simp only [List.append_assoc, List.cons_append]
    rw [readItems, hvalue]
    simp only [skipBlank_append hgap (by decide : isBlank 0x2C = false), hmore, Option.map_some]
  | lastMember hbefore hname hbetween _ hgap ih =>
    intro rest
    simp only [List.length_append, List.length_cons, List.length_nil] at hfuel
    obtain ⟨fuel, rfl⟩ := Nat.exists_eq_add_one_of_ne_zero (show fuel ≠ 0 by omega)
    have hvalue := ih fuel (by omega) _
      (ends_append hgap (ends_cons (.inr (.inr (.inr rfl))) rest))
    obtain ⟨hquoted, hcolon⟩ := readName_append hbefore hname hbetween _
    simp only [List.append_assoc, List.cons_append, List.nil_append]
    rw [readMembers, hquoted]
    simp only [hcolon, hvalue, skipBlank_append hgap (by decide : isBlank 0x7D = false)]
  | @member name v ms before quoted between bytes gap more hbefore hname hbetween _ hgap _ ihvalue
      ihmore =>
    intro rest
    simp only [List.length_append, List.length_cons] at hfuel
    obtain ⟨fuel, rfl⟩ := Nat.exists_eq_add_one_of_ne_zero (show fuel ≠ 0 by omega)
    have hvalue := ihvalue fuel (by omega) _
      (ends_append hgap (ends_cons (.inr (.inl rfl)) (more ++ rest)))
    have hmore := ihmore fuel (by omega) rest
    obtain ⟨hquoted, hcolon⟩ := readName_append hbefore hname hbetween _
    simp only [List.append_assoc, List.cons_append]
    rw [readMembers, hquoted]
    simp only [hcolon, hvalue, skipBlank_append hgap (by decide : isBlank 0x2C = false), hmore,
      Option.map_some]

/-- What a document spells is read from it. -/
theorem read?_of_document (h : Document v bytes) : read? bytes = some v := by
  obtain @⟨bytes, gap, hvalue, hgap⟩ := h
  have hfuel : 2 * bytes.length ≤ 2 * (bytes ++ gap).length + 1 + 1 := by
    rw [List.length_append]
    omega
  have hends : Ends gap := by
    have h := ends_append hgap ends_nil
    rwa [List.append_nil] at h
  have hread := reads_of_spells hvalue _ hfuel gap hends
  rw [read?, hread]
  exact if_pos (skipBlank_blank hgap)

/-- The grammar is not ambiguous. -/
theorem Document.unique {w : Json} (hv : Document v bytes) (hw : Document w bytes) : v = w := by
  have hread := read?_of_document hv
  rw [read?_of_document hw] at hread
  exact (Option.some.inj hread).symm

end CacheNode.Json

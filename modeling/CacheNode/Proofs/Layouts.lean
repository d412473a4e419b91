import CacheNode.Decimal
import CacheNode.Json.Writer
import CacheNode.Proofs.Grammar

/-!
# CacheNode — written values read back

A value is written in one of two layouts, without blanks or spread over lines. Both spell the value,
so both are read back as the value that was written, however deep it is nested.

What a quotation holds is shown character by character: an escaped character is one piece, and
another one is spelled by the bytes of its UTF-8 encoding, none of which has a meaning of its own in
a quotation. For items and members it is shown what their separators contribute, whatever they are;
the value as a whole follows by induction on its parts.

* `quoted_quote` — a written text spells the text;
* `Writable` — the values that can be written;
* `spells_compact`, `spells_prettyAt` — each layout of a value spells the value;
* `read?_compact`, `read?_pretty` — and is read back.
-/

namespace CacheNode.Json

variable {v : Json} {pieces : List Piece} {bytes more gap : Bytes} {chars : List Char} {c : Char}

-- ---------------------------------------------------------------------------
-- The bytes of written characters
-- ---------------------------------------------------------------------------

/-- The bytes of written characters. -/
def encode (chars : List Char) : Bytes := chars.flatMap String.utf8EncodeChar

theorem encode_append (chars rest : List Char) :
    encode (chars ++ rest) = encode chars ++ encode rest := List.flatMap_append

theorem encode_cons (h : c.toNat < 0x80) (rest : List Char) :
    encode (c :: rest) = UInt8.ofNat c.toNat :: encode rest := by
  rw [encode, List.flatMap_cons, Text.encode_of_lt h]
  rfl

theorem encode_toList (text : String) : encode text.toList = Bytes.ofText text :=
  (Bytes.ofText_eq_flatMap text).symm

/-- Characters below 128 are recovered from their bytes. -/
theorem decode_encode (h : ∀ c ∈ chars, c.toNat < 0x80) :
    (encode chars).map (fun b => Char.ofNat b.toNat) = chars := by
  induction chars with
  | nil => rfl
  | cons c rest ih =>
    obtain ⟨hc, hrest⟩ := List.forall_mem_cons.1 h
    rw [encode_cons hc, List.map_cons, ih hrest, UInt8.toNat_ofNat',
      Nat.mod_eq_of_lt (by omega), Char.ofNat_toNat]

-- ---------------------------------------------------------------------------
-- Quotations
-- ---------------------------------------------------------------------------

/-- Bytes that stand for themselves spell themselves. -/
theorem spell_bytes (bytes : Bytes) (pieces : List Piece) :
    spell (bytes.map .byte ++ pieces) = (spell pieces).map (bytes ++ ·) := by
  induction bytes with
  | nil => exact (Option.map_id_apply).symm
  | cons b rest ih =>
    simp only [List.map_cons, List.cons_append, spell, ih, Option.map_map]
    rfl

/-- A unit that is no half of a pair spells a character. -/
theorem spell_unit {u : Nat} (h : u < 0xD800) (pieces : List Piece) :
    spell (.unit u :: pieces) =
      (spell pieces).map (Bytes.ofText (String.singleton (Char.ofNat u)) ++ ·) := by
  conv => lhs; unfold spell
  rw [if_neg (by omega), if_neg (by omega)]

theorem pieces_bytes (h : ∀ b ∈ bytes, 0x20 ≤ b ∧ b ≠ 0x22 ∧ b ≠ 0x5C)
    (hmore : Pieces pieces more) : Pieces (bytes.map .byte ++ pieces) (bytes ++ more) := by
  induction bytes with
  | nil => exact hmore
  | cons b rest ih =>
    obtain ⟨⟨hplain, hquote, hescape⟩, hrest⟩ := List.forall_mem_cons.1 h
    exact .byte hplain hquote hescape (ih hrest)

/-- The bytes of a character that is not escaped stand for themselves. -/
theorem plain_bytes (hcontrol : ¬ c.toNat < 0x20) (hquote : c ≠ '"') (hescape : c ≠ '\\') :
    ∀ b ∈ String.utf8EncodeChar c, 0x20 ≤ b ∧ b ≠ 0x22 ∧ b ≠ 0x5C := by
  intro b hb
  have hsame (hsmall : b.toNat < 0x80) : c.toNat = b.toNat := Text.byte_of_mem hb hsmall
  refine ⟨?_, ?_, ?_⟩
  · refine UInt8.not_lt.1 fun hlow => ?_
    change b.toNat < 0x20 at hlow
    exact hcontrol (by rw [hsame (by omega)]; exact hlow)
  · rintro rfl
    exact hquote (Char.toNat_inj.1 (hsame (by decide)))
  · rintro rfl
    exact hescape (Char.toNat_inj.1 (hsame (by decide)))

/-- The digits of a control character spell its number. -/
theorem hexUnit?_hexChar {n : Nat} (h : n < 0x20) :
    (hexChar (n / 16)).toNat < 0x80 ∧ (hexChar (n % 16)).toNat < 0x80 ∧
      hexUnit? 0x30 0x30 (UInt8.ofNat (hexChar (n / 16)).toNat)
        (UInt8.ofNat (hexChar (n % 16)).toNat) = some n := by
  revert n
  decide

/-- A written character spells itself in front of what follows. -/
theorem pieces_escape (c : Char) (hmore : Pieces pieces more) :
    ∃ front, Pieces (front ++ pieces) (encode (escape c) ++ more) ∧
      spell (front ++ pieces) = (spell pieces).map (String.utf8EncodeChar c ++ ·) := by
  have hletter (l : Char) (b : UInt8) (hl : l.toNat < 0x80)
      (hb : escaped? (UInt8.ofNat l.toNat) = some b) (hc : String.utf8EncodeChar c = [b]) :
      ∃ front, Pieces (front ++ pieces) (encode ['\\', l] ++ more) ∧
        spell (front ++ pieces) = (spell pieces).map (String.utf8EncodeChar c ++ ·) := by
    refine ⟨[.byte b], ?_, ?_⟩
    · rw [encode_cons (by decide), encode_cons hl]
      exact .letter hb hmore
    · rw [hc]
      rfl
  unfold escape
  split
  · next h => exact hletter _ 0x22 (by decide) rfl (by rw [h]; rfl)
  split
  · next h => exact hletter _ 0x5C (by decide) rfl (by rw [h]; rfl)
  split
  · next h => exact hletter _ 0x08 (by decide) rfl (by rw [h]; rfl)
  split
  · next h => exact hletter _ 0x09 (by decide) rfl (by rw [h]; rfl)
  split
  · next h => exact hletter _ 0x0A (by decide) rfl (by rw [h]; rfl)
  split
  · next h => exact hletter _ 0x0C (by decide) rfl (by rw [h]; rfl)
  split
  · next h => exact hletter _ 0x0D (by decide) rfl (by rw [h]; rfl)
  split
  · next h =>
    obtain ⟨hhigh, hlow, hunit⟩ := hexUnit?_hexChar h
    refine ⟨[.unit c.toNat], ?_, ?_⟩
    · rw [encode_cons (by decide), encode_cons (by decide), encode_cons (by decide),
        encode_cons (by decide), encode_cons hhigh, encode_cons hlow]
      exact .unit hunit hmore
    · rw [List.singleton_append, spell_unit (by omega), Char.ofNat_toNat,
        String.singleton_eq_ofList, Bytes.ofText_ofList, List.flatMap_singleton]
  · next hquote hescape _ _ _ _ _ hcontrol =>
    refine ⟨(String.utf8EncodeChar c).map .byte, ?_, spell_bytes _ _⟩
    rw [encode, List.flatMap_singleton]
    exact pieces_bytes (plain_bytes hcontrol hquote hescape) hmore

theorem pieces_escapes (chars : List Char) :
    ∃ pieces, Pieces pieces (encode (chars.flatMap escape) ++ [0x22]) ∧
      spell pieces = some (encode chars) := by
  induction chars with
  | nil => exact ⟨[], .close, rfl⟩
  | cons c rest ih =>
    obtain ⟨pieces, hpieces, hspell⟩ := ih
    obtain ⟨front, hfront, hboth⟩ := pieces_escape c hpieces
    refine ⟨front ++ pieces, ?_, ?_⟩
    · rw [List.flatMap_cons, encode_append, List.append_assoc]
      exact hfront
    · rw [hboth, hspell]
      rfl

/-- A written text spells the text. -/
theorem quoted_quote (text : String) : Quoted (some text) (encode (quote (some text))) := by
  obtain ⟨pieces, hpieces, hspell⟩ := pieces_escapes text.toList
  have htext : textOf pieces = some text := by
    rw [textOf, hspell, encode_toList, Option.bind_some]
    exact Text.utf8?_eq_some_iff.2 rfl
  rw [quote, Option.getD_some, List.cons_append, encode_cons (by decide), encode_append, ← htext]
  exact .pieces hpieces

-- ---------------------------------------------------------------------------
-- Numbers
-- ---------------------------------------------------------------------------

theorem toNat_ofNat_of_lt {n : Nat} (h : n < 0x80) : (UInt8.ofNat n).toNat = n := by
  rw [UInt8.toNat_ofNat']
  omega

theorem small_of_isDigit (h : c.isDigit = true) : c.toNat < 0x80 := by
  have hhigh := (Char.isDigit_iff_toNat.1 h).2
  change c.toNat ≤ 57 at hhigh
  omega

theorem isDigit_ofNat (h : c.isDigit = true) : isDigit (UInt8.ofNat c.toNat) = true := by
  obtain ⟨hlow, hhigh⟩ := Char.isDigit_iff_toNat.1 h
  simp only [isDigit, Bool.and_eq_true, decide_eq_true_eq, UInt8.le_iff_toNat_le,
    toNat_ofNat_of_lt (small_of_isDigit h)]
  exact ⟨hlow, hhigh⟩

theorem isDigit_of_mem_encode (h : ∀ c ∈ chars, c.isDigit = true) {b : UInt8}
    (hb : b ∈ encode chars) : isDigit b = true := by
  obtain ⟨c, hc, hmem⟩ := List.mem_flatMap.1 hb
  rw [Text.encode_of_lt (small_of_isDigit (h c hc)), List.mem_singleton] at hmem
  rw [hmem]
  exact isDigit_ofNat (h c hc)

/-- The digits of a number are a numeral. -/
theorem numeral_toDigits (n : Nat) : Numeral (encode (Nat.toDigits 10 n)) := by
  have hwhole : Whole (encode (Nat.toDigits 10 n)) := by
    rcases Nat.eq_zero_or_pos n with rfl | hpos
    · exact .zero
    · have hall (b : UInt8) (hb : b ∈ encode (Nat.toDigits 10 n)) : isDigit b = true :=
        isDigit_of_mem_encode (fun c hc => Decimal.isDigit_toDigits hc) hb
      obtain ⟨c, more, hdigits, hc⟩ := Decimal.toDigits_of_pos hpos
      have hsmall : c.toNat < 0x80 := by
        refine small_of_isDigit (Decimal.isDigit_toDigits (n := n) ?_)
        rw [hdigits]
        exact List.mem_cons_self
      rw [hdigits, encode_cons hsmall] at hall ⊢
      refine .digits (fun hzero => ?_) ⟨List.cons_ne_nil _ _, hall⟩
      have hnat := congrArg UInt8.toNat hzero
      rw [toNat_ofNat_of_lt hsmall] at hnat
      exact hc (Char.toNat_inj.1 hnat)
  have hparts := Numeral.parts (.inl rfl) hwhole .none .none
  rwa [List.nil_append, List.append_nil, List.append_nil] at hparts

-- ---------------------------------------------------------------------------
-- Values
-- ---------------------------------------------------------------------------

/-- A value that can be written: its texts are known, and its numbers are numerals. -/
inductive Writable : Json → Prop where
  | null : Writable .null
  | bool (b : Bool) : Writable (.bool b)
  | number {spelling : List Char} (hsmall : ∀ c ∈ spelling, c.toNat < 0x80)
    (hnumeral : Numeral (encode spelling)) : Writable (.number spelling)
  | text (s : String) : Writable (.text (some s))
  | array {items : List Json} (hitems : ∀ v ∈ items, Writable v) : Writable (.array items)
  | object {members : List (Option String × Json)}
    (hnames : ∀ m ∈ members, ∃ name, m.1 = some name)
    (hvalues : ∀ m ∈ members, Writable m.2) : Writable (.object members)

variable {items : List Json} {members : List (Option String × Json)} {level : Nat}

theorem writable_toDigits (n : Nat) : Writable (.number (Nat.toDigits 10 n)) :=
  .number (fun _ hc => small_of_isDigit (Decimal.isDigit_toDigits hc)) (numeral_toDigits n)

theorem spells_number {spelling : List Char} (hsmall : ∀ c ∈ spelling, c.toNat < 0x80)
    (hnumeral : Numeral (encode spelling)) :
    Spells (.value (.number spelling)) (encode spelling) := by
  have h := Spells.number hnumeral
  rwa [decode_encode hsmall] at h

theorem spells_blank (hgap : Blank gap) (h : Spells (.value v) bytes) :
    Spells (.value v) (gap ++ bytes) := by
  induction gap with
  | nil => exact h
  | cons b rest ih =>
    obtain ⟨hb, hrest⟩ := List.forall_mem_cons.1 hgap
    exact .blank hb (ih hrest)

-- ---------------------------------------------------------------------------
-- The layout without blanks
-- ---------------------------------------------------------------------------

theorem spells_compactItems (hne : items ≠ [])
    (h : ∀ v ∈ items, Spells (.value v) (encode (compact v))) :
    Spells (.items items) (encode (compactItems items) ++ [0x5D]) := by
  induction items with
  | nil => exact absurd rfl hne
  | cons v rest ih =>
    obtain ⟨hv, hrest⟩ := List.forall_mem_cons.1 h
    cases rest with
    | nil =>
      have hlast := Spells.lastItem hv blank_nil
      rwa [List.append_nil] at hlast
    | cons w more =>
      have hitem := Spells.item hv blank_nil (ih (List.cons_ne_nil _ _) hrest)
      rw [List.append_nil] at hitem
      rw [compactItems, encode_append, encode_cons (by decide), List.append_assoc]
      exact hitem

theorem spells_compactMembers (hne : members ≠ [])
    (hnames : ∀ m ∈ members, ∃ name, m.1 = some name)
    (h : ∀ m ∈ members, Spells (.value m.2) (encode (compact m.2))) :
    Spells (.members members) (encode (compactMembers members) ++ [0x7D]) := by
  induction members with
  | nil => exact absurd rfl hne
  | cons m rest ih =>
    obtain ⟨name, v⟩ := m
    obtain ⟨⟨name, rfl⟩, hothers⟩ := List.forall_mem_cons.1 hnames
    obtain ⟨hv, hrest⟩ := List.forall_mem_cons.1 h
    cases rest with
    | nil =>
      have hlast := Spells.lastMember blank_nil (quoted_quote name) blank_nil hv blank_nil
      simp only [List.append_nil, List.nil_append] at hlast
      rw [compactMembers, encode_append, encode_cons (by decide)]
      exact hlast
    | cons m more =>
      have hmember := Spells.member blank_nil (quoted_quote name) blank_nil hv blank_nil
        (ih (List.cons_ne_nil _ _) hothers hrest)
      simp only [List.append_nil, List.nil_append] at hmember
      rw [compactMembers]
      simp (disch := decide) only [encode_append, encode_cons, List.append_assoc,
        List.cons_append] at hmember ⊢
      exact hmember

/-- A value that is written without blanks spells the value. -/
theorem spells_compact (h : Writable v) : Spells (.value v) (encode (compact v)) := by
  induction h with
  | null =>
    rw [compact, encode_toList]
    exact .null
  | bool b =>
    cases b with
    | true =>
      rw [compact, encode_toList]
      exact .true
    | false =>
      rw [compact, encode_toList]
      exact .false
  | number hsmall hnumeral =>
    rw [compact]
    exact spells_number hsmall hnumeral
  | text s =>
    rw [compact]
    exact .text (quoted_quote s)
  | @array items _ ih =>
    rw [compact, List.cons_append, encode_cons (by decide), encode_append]
    cases items with
    | nil => exact .noItems blank_nil
    | cons v rest => exact .array (spells_compactItems (List.cons_ne_nil _ _) ih)
  | @object members hnames _ ih =>
    rw [compact, List.cons_append, encode_cons (by decide), encode_append]
    cases members with
    | nil => exact .noMembers blank_nil
    | cons m rest => exact .object (spells_compactMembers (List.cons_ne_nil _ _) hnames ih)

-- ---------------------------------------------------------------------------
-- The layout over lines
-- ---------------------------------------------------------------------------

theorem blank_newline (level : Nat) : Blank (encode (newline level)) := by
  intro b hb
  obtain ⟨c, hc, hmem⟩ := List.mem_flatMap.1 hb
  rcases List.mem_cons.1 hc with rfl | hspace
  · obtain rfl := List.mem_singleton.1 hmem
    rfl
  · obtain rfl := (List.mem_replicate.1 hspace).2
    obtain rfl := List.mem_singleton.1 hmem
    rfl

theorem spells_prettyItems (hne : items ≠ []) (hgap : Blank gap)
    (h : ∀ v ∈ items, Spells (.value v) (encode (prettyAt level v))) :
    Spells (.items items) (encode (prettyItems level items) ++ gap ++ [0x5D]) := by
  induction items with
  | nil => exact absurd rfl hne
  | cons v rest ih =>
    obtain ⟨hv, hrest⟩ := List.forall_mem_cons.1 h
    have hline := spells_blank (blank_newline level) hv
    rw [← encode_append] at hline
    cases rest with
    | nil => exact .lastItem hline hgap
    | cons w more =>
      have hitem := Spells.item hline blank_nil (ih (List.cons_ne_nil _ _) hrest)
      rw [prettyItems]
      simp (disch := decide) only [encode_append, encode_cons, List.append_assoc,
        List.cons_append, List.append_nil] at hitem ⊢
      exact hitem

theorem spells_prettyMembers (hne : members ≠ []) (hgap : Blank gap)
    (hnames : ∀ m ∈ members, ∃ name, m.1 = some name)
    (h : ∀ m ∈ members, Spells (.value m.2) (encode (prettyAt level m.2))) :
    Spells (.members members) (encode (prettyMembers level members) ++ gap ++ [0x7D]) := by
  induction members with
  | nil => exact absurd rfl hne
  | cons m rest ih =>
    obtain ⟨name, v⟩ := m
    obtain ⟨⟨name, rfl⟩, hothers⟩ := List.forall_mem_cons.1 hnames
    obtain ⟨hv, hrest⟩ := List.forall_mem_cons.1 h
    have hline := blank_newline level
    have hvalue : Spells (.value v) (0x20 :: encode (prettyAt level v)) := .blank rfl hv
    cases rest with
    | nil =>
      have hlast := Spells.lastMember hline (quoted_quote name) blank_nil hvalue hgap
      rw [prettyMembers]
      simp (disch := decide) only [encode_append, encode_cons, List.append_assoc,
        List.cons_append, List.append_nil] at hlast ⊢
      exact hlast
    | cons m more =>
      have hmember := Spells.member hline (quoted_quote name) blank_nil hvalue blank_nil
        (ih (List.cons_ne_nil _ _) hothers hrest)
      rw [prettyMembers]
      simp (disch := decide) only [encode_append, encode_cons, List.append_assoc,
        List.cons_append, List.append_nil] at hmember ⊢
      exact hmember

/-- A value that is spread over lines spells the value, at any level of nesting. -/
theorem spells_prettyAt (h : Writable v) (level : Nat) :
    Spells (.value v) (encode (prettyAt level v)) := by
  induction h generalizing level with
  | null =>
    rw [prettyAt, encode_toList]
    exact .null
  | bool b =>
    cases b with
    | true =>
      rw [prettyAt, encode_toList]
      exact .true
    | false =>
      rw [prettyAt, encode_toList]
      exact .false
  | number hsmall hnumeral =>
    rw [prettyAt]
    exact spells_number hsmall hnumeral
  | text s =>
    rw [prettyAt]
    exact .text (quoted_quote s)
  | @array items _ ih =>
    cases items with
    | nil =>
      rw [prettyAt]
      exact .noItems blank_nil
    | cons v rest =>
      have hitems := spells_prettyItems (List.cons_ne_nil v rest) (blank_newline level)
        fun w hw => ih w hw (level + 1)
      rw [prettyAt, List.cons_append, List.cons_append, encode_cons (by decide), encode_append,
        encode_append]
      exact .array hitems
  | @object members hnames _ ih =>
    cases members with
    | nil =>
      rw [prettyAt]
      exact .noMembers blank_nil
    | cons m rest =>
      have hmembers := spells_prettyMembers (List.cons_ne_nil m rest) (blank_newline level) hnames
        fun other hother => ih other hother (level + 1)
      rw [prettyAt, List.cons_append, List.cons_append, encode_cons (by decide), encode_append,
        encode_append]
      exact .object hmembers

-- ---------------------------------------------------------------------------
-- Documents
-- ---------------------------------------------------------------------------

/-- What a value was written as, followed by nothing. -/
theorem document_encode (h : Spells (.value v) (encode chars)) :
    Document v (Bytes.ofText (String.ofList chars)) := by
  have hdocument := Document.value h blank_nil
  rw [List.append_nil] at hdocument
  rw [Bytes.ofText_ofList]
  exact hdocument

theorem read?_compact (h : Writable v) :
    read? (Bytes.ofText (String.ofList (compact v))) = some v :=
  read?_of_document (document_encode (spells_compact h))

theorem read?_pretty (h : Writable v) : read? (Bytes.ofText (String.ofList (pretty v))) = some v :=
  read?_of_document (document_encode (spells_prettyAt h 0))

end CacheNode.Json

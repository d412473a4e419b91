import CacheNode.Json.Value
import CacheNode.Text.Utf8

/-!
# CacheNode — reading JSON

A document is one value between blanks. Quotations are read byte by byte: an escaped character
stands for its UTF-8 bytes, two escaped halves of a surrogate pair stand for one character, and
the whole must be well-formed UTF-8 to spell a text.

Values nest, so reading recurses; the depth is bounded by the length of the document, which is
the fuel that `Json.read?` supplies.

* `Json.readValue_eq` — a value is read by the branch for its first byte;
* `Json.read?` — the value that a document holds.
-/

namespace CacheNode.Json

/-- The blanks of JSON: space, tab, line feed and carriage return. -/
def isBlank (b : UInt8) : Bool := b = 0x20 || b = 0x09 || b = 0x0A || b = 0x0D

/-- Passes over blanks. -/
def skipBlank (input : Bytes) : Bytes := input.dropWhile isBlank

-- ---------------------------------------------------------------------------
-- Quotations
-- ---------------------------------------------------------------------------

/-- One element of a quotation: a byte that stands for itself, or an escaped 16-bit unit. -/
inductive Piece where
  | byte (b : UInt8)
  | unit (u : Nat)
deriving DecidableEq, Repr

/-- The value of a hexadecimal digit. -/
def hexDigit? (b : UInt8) : Option Nat :=
  if 0x30 ≤ b ∧ b ≤ 0x39 then some (b.toNat - 0x30)
  else if 0x41 ≤ b ∧ b ≤ 0x46 then some (b.toNat - 0x41 + 10)
  else if 0x61 ≤ b ∧ b ≤ 0x66 then some (b.toNat - 0x61 + 10)
  else none

/-- The 16-bit unit spelled by four hexadecimal digits. -/
def hexUnit? (a b c d : UInt8) : Option Nat :=
  match hexDigit? a, hexDigit? b, hexDigit? c, hexDigit? d with
  | some a, some b, some c, some d => some (((a * 16 + b) * 16 + c) * 16 + d)
  | _, _, _, _ => none

/-- The byte that a one-letter escape stands for. -/
def escaped? (letter : UInt8) : Option UInt8 :=
  if letter = 0x22 ∨ letter = 0x5C ∨ letter = 0x2F then some letter
  else if letter = 0x62 then some 0x08
  else if letter = 0x66 then some 0x0C
  else if letter = 0x6E then some 0x0A
  else if letter = 0x72 then some 0x0D
  else if letter = 0x74 then some 0x09
  else none

/-- Reads a quotation after its opening quote, up to and with its closing quote. -/
def readPieces : Bytes → Option (List Piece × Bytes)
  | 0x22 :: rest => some ([], rest)
  | 0x5C :: 0x75 :: a :: b :: c :: d :: rest =>
    match hexUnit? a b c d with
    | some u => (readPieces rest).map fun (pieces, rest) => (.unit u :: pieces, rest)
    | none => none
  | 0x5C :: letter :: rest =>
    match escaped? letter with
    | some b => (readPieces rest).map fun (pieces, rest) => (.byte b :: pieces, rest)
    | none => none
  | b :: rest =>
    if b < 0x20 ∨ b = 0x5C then none
    else (readPieces rest).map fun (pieces, rest) => (.byte b :: pieces, rest)
  | [] => none

/-- The bytes that pieces spell; half a surrogate pair spells none. -/
def spell : List Piece → Option Bytes
  | [] => some []
  | .byte b :: rest => (spell rest).map (b :: ·)
  | .unit u :: rest =>
    if 0xDC00 ≤ u ∧ u ≤ 0xDFFF then none
    else if 0xD800 ≤ u ∧ u ≤ 0xDBFF then
      match rest with
      | .unit v :: rest =>
        if 0xDC00 ≤ v ∧ v ≤ 0xDFFF then
          let c := Char.ofNat (0x10000 + (u - 0xD800) * 0x400 + (v - 0xDC00))
          (spell rest).map (Bytes.ofText (String.singleton c) ++ ·)
        else none
      | _ => none
    else (spell rest).map (Bytes.ofText (String.singleton (Char.ofNat u)) ++ ·)

/-- The text that pieces spell. -/
def textOf (pieces : List Piece) : Option String := (spell pieces).bind Text.utf8?

/-- Reads a quotation with both quotes. -/
def readQuoted : Bytes → Option (Option String × Bytes)
  | 0x22 :: rest => (readPieces rest).map fun (pieces, rest) => (textOf pieces, rest)
  | _ => none

-- ---------------------------------------------------------------------------
-- Numbers
-- ---------------------------------------------------------------------------

/-- The decimal digits at the front. -/
def digits (input : Bytes) : Bytes := input.takeWhile fun b => 0x30 ≤ b && b ≤ 0x39

/-- Reads a whole number without sign: a lone zero, or digits that start with another. -/
def readWhole (input : Bytes) : Option (Bytes × Bytes) :=
  match input with
  | 0x30 :: rest => some ([0x30], rest)
  | _ =>
    let ds := digits input
    if ds = [] then none else some (ds, input.drop ds.length)

/-- Reads a point and at least one digit, if there is a point. -/
def readPlaces (input : Bytes) : Option (Bytes × Bytes) :=
  match input with
  | 0x2E :: rest =>
    let ds := digits rest
    if ds = [] then none else some (0x2E :: ds, rest.drop ds.length)
  | _ => some ([], input)

/-- Reads an exponent with at least one digit, if there is an exponent mark. -/
def readExponent (input : Bytes) : Option (Bytes × Bytes) :=
  match input with
  | e :: rest =>
    if e = 0x65 ∨ e = 0x45 then
      let sign := (rest.take 1).filter fun b => b = 0x2B || b = 0x2D
      let ds := digits (rest.drop sign.length)
      if ds = [] then none
      else some (e :: sign ++ ds, rest.drop (sign.length + ds.length))
    else some ([], input)
  | [] => some ([], input)

/-- Reads a number and keeps its spelling. -/
def readNumber (input : Bytes) : Option (List Char × Bytes) := do
  let sign := (input.take 1).filter (· = 0x2D)
  let (whole, rest) ← readWhole (input.drop sign.length)
  let (places, rest) ← readPlaces rest
  let (exponent, rest) ← readExponent rest
  some ((sign ++ whole ++ places ++ exponent).map fun b => Char.ofNat b.toNat, rest)

-- ---------------------------------------------------------------------------
-- Values
-- ---------------------------------------------------------------------------

/-- The rest of an input after an expected beginning. -/
def expect (beginning : Bytes) (input : Bytes) : Option Bytes :=
  if input.take beginning.length = beginning then some (input.drop beginning.length) else none

mutual

/-- Reads a value after blanks. -/
def readValue : Nat → Bytes → Option (Json × Bytes)
  | 0, _ => none
  | fuel + 1, input =>
    match skipBlank input with
    | [] => none
    | b :: rest =>
      if b = 0x22 then (readQuoted (b :: rest)).map fun (t, rest) => (.text t, rest)
      else if b = 0x5B then
        match skipBlank rest with
        | 0x5D :: rest => some (.array [], rest)
        | _ => (readItems fuel rest).map fun (items, rest) => (.array items, rest)
      else if b = 0x7B then
        match skipBlank rest with
        | 0x7D :: rest => some (.object [], rest)
        | _ => (readMembers fuel rest).map fun (members, rest) => (.object members, rest)
      else if b = 0x6E then (expect (Bytes.ofText "ull") rest).map fun rest => (.null, rest)
      else if b = 0x74 then (expect (Bytes.ofText "rue") rest).map fun rest => (.bool true, rest)
      else if b = 0x66 then
        (expect (Bytes.ofText "alse") rest).map fun rest => (.bool false, rest)
      else (readNumber (b :: rest)).map fun (spelling, rest) => (.number spelling, rest)

/-- Reads the items of an array up to and with its closing bracket. -/
def readItems : Nat → Bytes → Option (List Json × Bytes)
  | 0, _ => none
  | fuel + 1, input =>
    match readValue fuel input with
    | none => none
    | some (item, rest) =>
      match skipBlank rest with
      | 0x5D :: rest => some ([item], rest)
      | 0x2C :: rest => (readItems fuel rest).map fun (items, rest) => (item :: items, rest)
      | _ => none

/-- Reads the members of an object up to and with its closing brace. -/
def readMembers : Nat → Bytes → Option (List (Option String × Json) × Bytes)
  | 0, _ => none
  | fuel + 1, input =>
    match readQuoted (skipBlank input) with
    | none => none
    | some (name, rest) =>
      match skipBlank rest with
      | 0x3A :: rest =>
        match readValue fuel rest with
        | none => none
        | some (value, rest) =>
          match skipBlank rest with
          | 0x7D :: rest => some ([(name, value)], rest)
          | 0x2C :: rest =>
            (readMembers fuel rest).map fun (members, rest) => ((name, value) :: members, rest)
          | _ => none
      | _ => none

end

/-- A value is read by the branch for its first byte behind the blanks. -/
theorem readValue_eq {b : UInt8} {input behind : Bytes} (h : skipBlank input = b :: behind)
    (fuel : Nat) :
    readValue (fuel + 1) input =
      if b = 0x22 then (readQuoted (b :: behind)).map fun (t, rest) => (.text t, rest)
      else if b = 0x5B then
        match skipBlank behind with
        | 0x5D :: rest => some (.array [], rest)
        | _ => (readItems fuel behind).map fun (items, rest) => (.array items, rest)
      else if b = 0x7B then
        match skipBlank behind with
        | 0x7D :: rest => some (.object [], rest)
        | _ => (readMembers fuel behind).map fun (members, rest) => (.object members, rest)
      else if b = 0x6E then (expect (Bytes.ofText "ull") behind).map fun rest => (.null, rest)
      else if b = 0x74 then (expect (Bytes.ofText "rue") behind).map fun rest => (.bool true, rest)
      else if b = 0x66 then
        (expect (Bytes.ofText "alse") behind).map fun rest => (.bool false, rest)
      else (readNumber (b :: behind)).map fun (spelling, rest) => (.number spelling, rest) := by
  rw [readValue, h]

/-- The value that a document holds. -/
def read? (document : Bytes) : Option Json :=
  -- every level of nesting takes a byte, and at most two calls
  match readValue (2 * document.length + 2) document with
  | some (value, rest) => if skipBlank rest = [] then some value else none
  | none => none

end CacheNode.Json

import CacheNode.Json.Value

/-!
# CacheNode — writing JSON

A value is written either without any blanks, or spread over lines with an indentation of two
spaces for each level. Quotes, backslashes and control characters are escaped; every other
character stands for itself.

* `Json.compact`, `Json.pretty` — the two layouts.
-/

namespace CacheNode.Json

/-- A hexadecimal digit, small letters. -/
def hexChar (n : Nat) : Char := Char.ofNat (if n < 10 then 0x30 + n else 0x61 + (n - 10))

/-- How a character is written in a quotation. -/
def escape (c : Char) : List Char :=
  if c = '"' then ['\\', '"']
  else if c = '\\' then ['\\', '\\']
  else if c = '\x08' then ['\\', 'b']
  else if c = '\x09' then ['\\', 't']
  else if c = '\x0a' then ['\\', 'n']
  else if c = '\x0c' then ['\\', 'f']
  else if c = '\x0d' then ['\\', 'r']
  else if c.toNat < 0x20 then
    ['\\', 'u', '0', '0', hexChar (c.toNat / 16), hexChar (c.toNat % 16)]
  else [c]

/-- A text in quotes. What spells no text is written as an empty quotation. -/
def quote (text : Option String) : List Char :=
  '"' :: (text.getD "").toList.flatMap escape ++ ['"']

mutual

/-- A value without blanks. -/
def compact : Json → List Char
  | .null => "null".toList
  | .bool true => "true".toList
  | .bool false => "false".toList
  | .number spelling => spelling
  | .text t => quote t
  | .array items => '[' :: compactItems items ++ [']']
  | .object members => '{' :: compactMembers members ++ ['}']

/-- Items with commas between them. -/
def compactItems : List Json → List Char
  | [] => []
  | [v] => compact v
  | v :: w :: rest => compact v ++ ',' :: compactItems (w :: rest)

/-- Members with commas between them. -/
def compactMembers : List (Option String × Json) → List Char
  | [] => []
  | [(name, v)] => quote name ++ ':' :: compact v
  | (name, v) :: m :: rest => quote name ++ ':' :: compact v ++ ',' :: compactMembers (m :: rest)

end

/-- A new line at a level of nesting. -/
def newline (level : Nat) : List Char := '\n' :: List.replicate (2 * level) ' '

mutual

/-- A value spread over lines, at a level of nesting. -/
def prettyAt (level : Nat) : Json → List Char
  | .null => "null".toList
  | .bool true => "true".toList
  | .bool false => "false".toList
  | .number spelling => spelling
  | .text t => quote t
  | .array [] => ['[', ']']
  | .array (v :: rest) =>
    '[' :: prettyItems (level + 1) (v :: rest) ++ newline level ++ [']']
  | .object [] => ['{', '}']
  | .object (m :: rest) =>
    '{' :: prettyMembers (level + 1) (m :: rest) ++ newline level ++ ['}']

/-- Items, each on a line of its own. -/
def prettyItems (level : Nat) : List Json → List Char
  | [] => []
  | [v] => newline level ++ prettyAt level v
  | v :: w :: rest => newline level ++ prettyAt level v ++ ',' :: prettyItems level (w :: rest)

/-- Members, each on a line of its own. -/
def prettyMembers (level : Nat) : List (Option String × Json) → List Char
  | [] => []
  | [(name, v)] => newline level ++ quote name ++ ':' :: ' ' :: prettyAt level v
  | (name, v) :: m :: rest =>
    newline level ++ quote name ++ ':' :: ' ' :: prettyAt level v ++
      ',' :: prettyMembers level (m :: rest)

end

/-- A value spread over lines. -/
def pretty (v : Json) : List Char := prettyAt 0 v

end CacheNode.Json

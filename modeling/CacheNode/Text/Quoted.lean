import CacheNode.Text.Printable
import CacheNode.Text.Utf8

/-!
# CacheNode — quoted byte strings

Keys are shown in quotes, so that every key has a form that is safe to print. A key that reads
as text shows its printable characters and escapes the others by their code point; any other
key is marked with a `b` and shows its printable ASCII bytes and escapes the others.

* `Text.quoted` — the quoted form of a byte string.
-/

namespace CacheNode.Text

/-- A number in hexadecimal digits, small letters. -/
def hex (n : Nat) : List Char := Nat.toDigits 16 n

/-- How a character is shown within quotes. -/
def shown (c : Char) : List Char :=
  if c = '\x00' then ['\\', '0']
  else if c = '\t' then ['\\', 't']
  else if c = '\r' then ['\\', 'r']
  else if c = '\n' then ['\\', 'n']
  else if c = '"' then ['\\', '"']
  else if c = '\\' then ['\\', '\\']
  else if isPrintable c then [c]
  else '\\' :: 'u' :: '\x7b' :: hex c.toNat ++ ['\x7d']

/-- How a byte is shown within quotes. -/
def shownByte (b : UInt8) : List Char :=
  if b = 0x0A then ['\\', 'n']
  else if b = 0x0D then ['\\', 'r']
  else if b = 0x09 then ['\\', 't']
  else if b = 0x5C then ['\\', '\\']
  else if b = 0x22 then ['\\', '"']
  else if b = 0 then ['\\', '0']
  else if 0x20 ≤ b ∧ b < 0x7F then [Char.ofNat b.toNat]
  else '\\' :: 'x' :: hex (b.toNat / 16) ++ hex (b.toNat % 16)

/-- The quoted form of a byte string. -/
def quoted (bytes : Bytes) : String :=
  match utf8? bytes with
  | some text => String.ofList ('"' :: text.toList.flatMap shown ++ ['"'])
  | none => String.ofList ('b' :: '"' :: bytes.flatMap shownByte ++ ['"'])

end CacheNode.Text

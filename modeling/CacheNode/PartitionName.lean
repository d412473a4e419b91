import CacheNode.Error

/-!
# CacheNode — partition names

A partition's name also names the file that holds its configuration, so a name must be a
readable text that a directory can hold as one plain entry.

* `PartitionName.check` — accepts a name or says what is wrong with it;
* `PartitionName.Valid` — the names that are accepted.
-/

namespace CacheNode.PartitionName

/-- The control characters: U+0000 to U+001F and U+007F to U+009F. -/
def isControl (c : Char) : Bool :=
  c.toNat < 0x20 || (0x7F ≤ c.toNat && c.toNat ≤ 0x9F)

/-- The characters that separate, quote or expand path names on some host. -/
def isReserved (c : Char) : Bool := c ∈ ['/', '\\', ':', '*', '?', '"', '<', '>', '|']

/-- Whether a text can stand as one entry of a directory: neither of the two names that every
directory gives to itself and to its parent, and free of control and reserved characters. -/
def isPlain (text : String) : Bool :=
  text ≠ "." && text ≠ ".." && !text.toList.any fun c => isControl c || isReserved c

/-- Checks that a name is present and names one plain directory entry. -/
def check (name : Bytes) : Except CacheError Unit :=
  if name = [] then .error .missingPartitionKey
  else
    match Text.utf8? name with
    | none => .error (.invalidPartitionKey (Text.lossy name))
    | some text => if isPlain text then .ok () else .error (.invalidPartitionKey text)

/-- The names that a partition can have. -/
def Valid (name : Bytes) : Prop := check name = .ok ()

instance (name : Bytes) : Decidable (Valid name) :=
  match h : check name with
  | .ok () => isTrue h
  | .error _ => isFalse (by simp [Valid, h])

/-- A name is valid if it is non-empty, reads as text, and the text is plain. -/
theorem valid_iff {name : Bytes} :
    Valid name ↔ name ≠ [] ∧ ∃ text, Text.utf8? name = some text ∧ isPlain text = true := by
  unfold Valid check
  split
  · simp_all
  · split
    · simp_all
    · next text h => by_cases hp : isPlain text = true <;> simp_all

end CacheNode.PartitionName

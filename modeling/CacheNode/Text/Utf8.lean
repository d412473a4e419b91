import CacheNode.Bytes

/-!
# CacheNode — UTF-8 readings of byte strings

A byte string has at most one reading as text. Where a text is wanted for a message whatever
the bytes are, the damaged stretches are replaced: each maximal beginning of a character that
is broken off, and each byte that begins no character, becomes one U+FFFD.

* `Bytes.ofText_ofList`, `Text.byte_of_mem` — the bytes of a text are those of its characters, and
  small bytes stand for themselves;
* `Text.utf8?` — the strict reading, which reads what a text spells (`Text.utf8?_eq_some_iff`);
* `Text.lossy` — the reading that always succeeds and agrees with the strict one where that
  exists (`Text.lossy_eq_of_utf8?`).
-/

namespace CacheNode

-- ---------------------------------------------------------------------------
-- The bytes of a text
-- ---------------------------------------------------------------------------

/-- A text is spelled character by character. -/
theorem Bytes.ofText_ofList (chars : List Char) :
    Bytes.ofText (String.ofList chars) = chars.flatMap String.utf8EncodeChar := by
  show (String.ofList chars).toByteArray.data.toList = _
  rw [String.toByteArray_ofList]
  exact List.toList_data_toByteArray

theorem Bytes.ofText_eq_flatMap (text : String) :
    Bytes.ofText text = text.toList.flatMap String.utf8EncodeChar := by
  rw [← Bytes.ofText_ofList, String.ofList_toList]

namespace Text

/-- Characters below 128 are single bytes. -/
theorem encode_of_lt {c : Char} (h : c.toNat < 0x80) :
    String.utf8EncodeChar c = [UInt8.ofNat c.toNat] :=
  if_pos (Nat.le_of_lt_succ h)

/-- A byte below 128 is a character, and part of no other. -/
theorem byte_of_mem {b : UInt8} {c : Char} (h : b ∈ String.utf8EncodeChar c)
    (hsmall : b.toNat < 0x80) : c.toNat = b.toNat := by
  have hlarge {n : Nat} (hlow : 0x80 ≤ n) (hhigh : n < 0x100) : b ≠ UInt8.ofNat n := by
    rintro rfl
    rw [UInt8.toNat_ofNat'] at hsmall
    omega
  by_cases hc : c.toNat < 0x80
  · rw [encode_of_lt hc, List.mem_singleton] at h
    rw [h, UInt8.toNat_ofNat']
    omega
  · -- lead bytes and those that follow are marked by their highest bit
    change ¬ c.val.toNat < 0x80 at hc
    simp only [String.utf8EncodeChar] at h
    rw [if_neg (by omega)] at h
    split at h
    · simp only [List.mem_cons, List.not_mem_nil, or_false] at h
      rcases h with h | h <;> exact absurd h (hlarge (by omega) (by omega))
    · split at h
      · simp only [List.mem_cons, List.not_mem_nil, or_false] at h
        rcases h with h | h | h <;> exact absurd h (hlarge (by omega) (by omega))
      · simp only [List.mem_cons, List.not_mem_nil, or_false] at h
        rcases h with h | h | h | h <;> exact absurd h (hlarge (by omega) (by omega))

-- ---------------------------------------------------------------------------
-- Strict reading
-- ---------------------------------------------------------------------------

/-- The text that the bytes spell, if they are well-formed UTF-8. -/
def utf8? (bytes : Bytes) : Option String := String.fromUTF8? ⟨bytes.toArray⟩

/-- Bytes are read as the text that they spell. -/
theorem utf8?_eq_some_iff {bytes : Bytes} {text : String} :
    utf8? bytes = some text ↔ bytes = Bytes.ofText text := by
  unfold utf8? String.fromUTF8?
  constructor
  · intro h
    split at h
    · cases h
      exact List.toList_toArray.symm
    · cases h
  · rintro rfl
    have hbytes : (⟨(Bytes.ofText text).toArray⟩ : ByteArray) = text.toUTF8 := by
      rw [Bytes.ofText, Array.toArray_toList]
    rw [hbytes]
    exact dif_pos text.isValidUTF8

-- ---------------------------------------------------------------------------
-- Reading what is damaged
-- ---------------------------------------------------------------------------

/-- U+FFFD, which stands for what could not be read. -/
def replacement : Char := '\ufffd'

/-- What a lead byte announces: how many bytes follow it, and the range of the first of them.
The ranges leave out spellings that are too long, surrogates, and numbers above U+10FFFF. -/
def announced? (lead : UInt8) : Option (Nat × UInt8 × UInt8) :=
  if 0xC2 ≤ lead ∧ lead ≤ 0xDF then some (1, 0x80, 0xBF)
  else if lead = 0xE0 then some (2, 0xA0, 0xBF)
  else if lead = 0xED then some (2, 0x80, 0x9F)
  else if 0xE1 ≤ lead ∧ lead ≤ 0xEF then some (2, 0x80, 0xBF)
  else if lead = 0xF0 then some (3, 0x90, 0xBF)
  else if 0xF1 ≤ lead ∧ lead ≤ 0xF3 then some (3, 0x80, 0xBF)
  else if lead = 0xF4 then some (3, 0x80, 0x8F)
  else none

/-- The bytes at the front that continue a character, `count` of them at most, the first of
which lies between `low` and `high`. -/
def continuation (count : Nat) (low high : UInt8) : Bytes → Bytes
  | [] => []
  | b :: rest =>
    if 0 < count ∧ low ≤ b ∧ b ≤ high then b :: continuation (count - 1) 0x80 0xBF rest else []

/-- The character with a lead byte and all the bytes that it announces. -/
def assemble (lead : UInt8) (following : Bytes) : Char :=
  -- the lead byte keeps five, four or three payload bits
  let start := lead.toNat % (64 >>> following.length)
  Char.ofNat (following.foldl (fun n b => n * 64 + b.toNat % 64) start)

/-- Reads the characters of a byte string and replaces what is damaged. -/
def repair : Bytes → List Char
  | [] => []
  | b :: rest =>
    if b < 0x80 then Char.ofNat b.toNat :: repair rest
    else
      match announced? b with
      | none => replacement :: repair rest
      | some (count, low, high) =>
        let following := continuation count low high rest
        let char := if following.length = count then assemble b following else replacement
        char :: repair (rest.drop following.length)
termination_by bytes => bytes.length
decreasing_by
  all_goals
    simp only [List.length_cons, List.length_drop]
    omega

/-- The text of a byte string, damaged stretches replaced. -/
def lossy (bytes : Bytes) : String :=
  match utf8? bytes with
  | some text => text
  | none => String.ofList (repair bytes)

theorem lossy_eq_of_utf8? {bytes : Bytes} {text : String} (h : utf8? bytes = some text) :
    lossy bytes = text := by simp [lossy, h]

end Text

end CacheNode

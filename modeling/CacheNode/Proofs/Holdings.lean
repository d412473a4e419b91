import CacheNode.Partition.Write

/-!
# CacheNode — what a partition holds

The bytes of a partition are the weights of its entries: the length of the key and of the payload.
Everything that is said about budgets and counters is said in terms of this sum and of the number
of entries.

* `Partition.bytes` — the sum, with one lemma for each way the entries change;
* `Partition.settings` — what no operation on entries touches;
* `Partition.size_le_bytes` — keys are never empty, so there are no more entries than bytes.
-/

namespace CacheNode

namespace Partition

/-- The weight of all entries. -/
def bytes (p : Partition) : Nat := p.entries.total fun row => Entry.weight row.1 row.2.payload

/-- What is fixed about a partition while its entries change. -/
structure Settings where
  name : Bytes
  metadata : Metadata
  limits : Limits
  bound : ByteCount
  evicts : Bool
  retired : Bool
deriving DecidableEq

/-- The settings of a partition. -/
def settings (p : Partition) : Settings :=
  ⟨p.name, p.metadata, p.limits, p.bound, p.evicts, p.retired⟩

variable {p q : Partition}

theorem name_eq (h : p.settings = q.settings) : p.name = q.name := congrArg Settings.name h

theorem metadata_eq (h : p.settings = q.settings) : p.metadata = q.metadata :=
  congrArg Settings.metadata h

theorem limits_eq (h : p.settings = q.settings) : p.limits = q.limits :=
  congrArg Settings.limits h

theorem bound_eq (h : p.settings = q.settings) : p.bound = q.bound := congrArg Settings.bound h

theorem evicts_eq (h : p.settings = q.settings) : p.evicts = q.evicts :=
  congrArg Settings.evicts h

theorem retired_eq (h : p.settings = q.settings) : p.retired = q.retired :=
  congrArg Settings.retired h

theorem checkInUse_of_inUse (h : p.retired = false) : p.checkInUse = .ok () := by
  simp [checkInUse, h]

theorem checkInUse_of_retired (h : p.retired = true) :
    p.checkInUse = .error .partitionDoesNotExist := if_pos h

-- ---------------------------------------------------------------------------
-- Bytes
-- ---------------------------------------------------------------------------

theorem bytesAt_of_some {key : Bytes} {e : Entry} (h : p.entries.get? key = some e) :
    p.bytesAt key = Entry.weight key e.payload := by
  simp [bytesAt, h]

theorem bytesAt_of_none {key : Bytes} (h : p.entries.get? key = none) : p.bytesAt key = 0 := by
  simp [bytesAt, h]

/-- The bytes under one key and the bytes of all others. -/
theorem bytes_eq_erase_add (p : Partition) (key : Bytes) :
    p.bytes = ({ p with entries := p.entries.erase key } : Partition).bytes + p.bytesAt key := by
  cases h : p.entries.get? key with
  | none => simp [bytes, bytesAt_of_none h, Table.erase_eq_self h]
  | some e =>
    rw [bytesAt_of_some h]
    exact Table.total_eq_erase_add _ h

theorem bytes_insert (p : Partition) (key : Bytes) (e : Entry) :
    ({ p with entries := p.entries.insert key e } : Partition).bytes + p.bytesAt key =
      p.bytes + Entry.weight key e.payload := by
  have herase := bytes_eq_erase_add p key
  have hinsert : ({ p with entries := p.entries.insert key e } : Partition).bytes =
      ({ p with entries := p.entries.erase key } : Partition).bytes +
        Entry.weight key e.payload := Table.total_insert _ _ _ _
  omega

-- ---------------------------------------------------------------------------
-- Keys
-- ---------------------------------------------------------------------------

/-- No entry has the empty key. -/
def Keyed (p : Partition) : Prop := ∀ key, (p.entries.get? key).isSome → key ≠ []

theorem size_le_bytes (h : p.Keyed) : p.entries.size ≤ p.bytes := by
  rw [Table.size_eq_total, bytes]
  apply Table.total_mono
  intro key e he
  have hkey : key ≠ [] := h key (by simp [he])
  have hpos : 0 < key.length := List.length_pos_iff.2 hkey
  simp only [Entry.weight]
  omega

theorem Keyed.erase {key : Bytes} (h : p.Keyed) :
    ({ p with entries := p.entries.erase key } : Partition).Keyed := by
  intro k hk
  obtain ⟨e, he⟩ := Option.isSome_iff_exists.1 hk
  apply h
  rw [Table.get?_of_erase he]
  rfl

theorem Keyed.insert {key : Bytes} {e : Entry} (h : p.Keyed) (hkey : key ≠ []) :
    ({ p with entries := p.entries.insert key e } : Partition).Keyed := by
  intro k hk
  obtain ⟨fresh, hfresh⟩ := Option.isSome_iff_exists.1 hk
  rcases Table.get?_insert_cases hfresh with ⟨rfl, -⟩ | hold
  · exact hkey
  · apply h
    rw [hold]
    rfl

theorem ne_nil_of_checkKey {key : Bytes} (h : p.checkKey key = .ok ()) : key ≠ [] := by
  intro hnil
  simp [checkKey, hnil] at h

end Partition

end CacheNode

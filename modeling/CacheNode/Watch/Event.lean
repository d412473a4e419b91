import CacheNode.Bytes

/-!
# CacheNode — change events

Every change to an entry is announced as an event of one of four kinds. A filter lists the
kinds that a subscriber wants; the empty filter wants them all.

* `EventFilter.ofBits`, `EventFilter.bits` — the one-bit-per-kind spelling of a filter;
* `EventFilter.accepts_empty` — the empty filter accepts every kind.
-/

namespace CacheNode

/-- What happened to a key. -/
inductive EventKind where
  /-- the key was inserted, overwritten or incremented -/
  | write
  /-- the key was deleted or flushed -/
  | delete
  /-- the key was removed to free capacity -/
  | evict
  /-- the key was removed because it had expired -/
  | expire
deriving DecidableEq, Repr

/-- One notification to one subscriber. -/
structure ChangeEvent where
  /-- the subscriber's name for the predicate that matched -/
  watchId : UInt64
  partition : Bytes
  key : Bytes
  /-- the new payload of a write -/
  value : Option Bytes
  kind : EventKind
deriving DecidableEq, Repr

/-- The kinds of event that a predicate subscribes to. -/
structure EventFilter where
  write : Bool := false
  delete : Bool := false
  evict : Bool := false
  expire : Bool := false
deriving DecidableEq, Repr

namespace EventKind

/-- The bit that stands for a kind. -/
def bit : EventKind → Nat
  | write => 1
  | delete => 2
  | evict => 4
  | expire => 8

/-- The kinds in the order of their bits. -/
def all : List EventKind := [write, delete, evict, expire]

theorem mem_all (kind : EventKind) : kind ∈ all := by cases kind <;> decide

/-- The word for a kind. -/
def name : EventKind → String
  | write => "Write"
  | delete => "Delete"
  | evict => "Evict"
  | expire => "Expire"

/-- The kind with a word. -/
def ofName? (word : String) : Option EventKind := all.find? (·.name = word)

theorem ofName?_name (kind : EventKind) : ofName? kind.name = some kind := by
  cases kind <;> decide

end EventKind

namespace EventFilter

/-- The filter that names no kind. -/
def empty : EventFilter := {}

/-- Whether a filter names a kind. -/
def names (f : EventFilter) : EventKind → Bool
  | .write => f.write
  | .delete => f.delete
  | .evict => f.evict
  | .expire => f.expire

/-- The filter spelled by the four lowest bits of a number; higher bits say nothing. -/
def ofBits (bits : Nat) : EventFilter where
  write := bits.testBit 0
  delete := bits.testBit 1
  evict := bits.testBit 2
  expire := bits.testBit 3

/-- The number that spells a filter. -/
def bits (f : EventFilter) : Nat :=
  f.write.toNat + 2 * f.delete.toNat + 4 * f.evict.toNat + 8 * f.expire.toNat

/-- Whether a filter lets a kind through; the filter that names none lets all through. -/
def accepts (f : EventFilter) (kind : EventKind) : Bool := f = empty || f.names kind

@[simp] theorem accepts_empty (kind : EventKind) : empty.accepts kind = true := by
  simp [accepts]

theorem ofBits_bits (f : EventFilter) : ofBits f.bits = f := by
  obtain ⟨w, d, v, x⟩ := f
  cases w <;> cases d <;> cases v <;> cases x <;> decide

end EventFilter

end CacheNode

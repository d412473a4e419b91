/-!
# CacheNode — fuses

Long runs look from time to time whether they are to stop: because they were cancelled, or
because their time is up. Both happen at an unforeseeable moment and cannot be undone. A fuse
says after how many looks that is, so that a statement about every fuse covers every moment.

* `Fuse.look` — one look: whether the run is to stop, and what the later looks will see.
-/

namespace CacheNode

/-- The number of looks before a run is to stop, or never. -/
structure Fuse where
  looksLeft : Option Nat
deriving DecidableEq, Repr

namespace Fuse

/-- Never stops a run. -/
def never : Fuse := ⟨none⟩

/-- Stops a run at its first look. -/
def blown : Fuse := ⟨some 0⟩

/-- Looks whether the run is to stop. Once it is, it stays so. -/
def look (f : Fuse) : Bool × Fuse :=
  match f.looksLeft with
  | none => (false, f)
  | some 0 => (true, f)
  | some (n + 1) => (false, ⟨some n⟩)

@[simp] theorem look_never : never.look = (false, never) := rfl

@[simp] theorem look_blown : blown.look = (true, blown) := rfl

end Fuse

end CacheNode

/-!
# CacheNode — reusable index buffers

Sampling writes its positions into a buffer that is rented for the time of one scan and kept
for reuse afterwards. Only sixteen buffers are kept, in ascending order of capacity; a rental
takes the largest, so its capacity follows the largest sample seen.

* `ScratchPool.rent`, `ScratchPool.giveBack` — one rental and its return;
* `ScratchPool.length_giveBack_le` — the pool never keeps more than `ScratchPool.limit` buffers.
-/

namespace CacheNode

/-- An index buffer: what it holds, and how much it can hold without growing. -/
structure Buffer where
  contents : List Nat
  capacity : Nat
deriving DecidableEq, Repr

/-- The capacities of the buffers that wait for reuse, in ascending order. -/
structure ScratchPool where
  idle : List Nat := []
deriving DecidableEq, Repr

namespace ScratchPool

/-- How many buffers are kept. -/
def limit : Nat := 16

/-- Hands out an empty buffer with room for `count` indices. -/
def rent (pool : ScratchPool) (count : Nat) : Buffer × ScratchPool :=
  (⟨[], max count (pool.idle.getLast?.getD 0)⟩, ⟨pool.idle.dropLast⟩)

/-- Takes a buffer back, unless enough of them are kept already. -/
def giveBack (pool : ScratchPool) (buffer : Buffer) : ScratchPool :=
  if pool.idle.length < limit then
    ⟨pool.idle.takeWhile (· ≤ buffer.capacity) ++
      buffer.capacity :: pool.idle.dropWhile (· ≤ buffer.capacity)⟩
  else pool

theorem length_giveBack_le {pool : ScratchPool} (buffer : Buffer)
    (h : pool.idle.length ≤ limit) : (pool.giveBack buffer).idle.length ≤ limit := by
  unfold giveBack
  split
  · next hlt =>
    have hsplit := congrArg List.length
      (List.takeWhile_append_dropWhile (p := (· ≤ buffer.capacity)) (l := pool.idle))
    simp only [List.length_append, List.length_cons] at hsplit ⊢
    omega
  · exact h

end ScratchPool

/-- Writes more indices; a buffer grows when it is full. -/
def Buffer.write (buffer : Buffer) (indices : List Nat) : Buffer :=
  let contents := buffer.contents ++ indices
  ⟨contents, max buffer.capacity contents.length⟩

/-- A pool together with the buffers that are rented from it, under numbers that their holders
chose. -/
structure Rentals where
  pool : ScratchPool := {}
  held : List (Nat × Buffer) := []
deriving DecidableEq, Repr

namespace Rentals

/-- The buffer held under a number. -/
def find? (r : Rentals) (id : Nat) : Option Buffer :=
  (r.held.find? (·.1 = id)).map Prod.snd

/-- Gives a held buffer back. Returns whether there was one. -/
def give (r : Rentals) (id : Nat) : Bool × Rentals :=
  match r.find? id with
  | none => (false, r)
  | some buffer => (true, ⟨r.pool.giveBack buffer, r.held.filter (·.1 ≠ id)⟩)

/-- Rents a buffer, writes to it, and holds it under a number; a buffer held under that number
before is given back. Returns the buffer as it was handed out. -/
def rent (r : Rentals) (id count : Nat) (contents : List Nat) : Buffer × Rentals :=
  let rented := r.pool.rent count
  let cleared := (({ r with pool := rented.2 } : Rentals).give id).2
  (rented.1, { cleared with held := (id, rented.1.write contents) :: cleared.held })

end Rentals

end CacheNode

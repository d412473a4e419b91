/-!
# CacheNode — random draws

Sampling draws positions at random. The draws of a run are an arbitrary sequence of numbers
that is consumed from the front, so a statement about every sequence is a statement about every
outcome of the draws.

* `Draws.below_lt` — a draw stays below its bound;
* `Draws.choose_of_le`, `Draws.mem_of_mem_choose` — a choice of at least as many as there are keeps
  them all in order, and no choice adds anything.
-/

namespace CacheNode

/-- A supply of random numbers and how many of them are used up. -/
structure Draws where
  roll : Nat → Nat
  used : Nat := 0

instance : Inhabited Draws := ⟨{ roll := id }⟩

namespace Draws

/-- Spreads a number over all 64-bit words, so that neighbours lie far apart. -/
def spread (n : Nat) : Nat :=
  let x := UInt64.ofNat n * 0x9E3779B97F4A7C15 + 0x9E3779B97F4A7C15
  let x := (x ^^^ (x >>> 30)) * 0xBF58476D1CE4E5B9
  let x := (x ^^^ (x >>> 27)) * 0x94D049BB133111EB
  (x ^^^ (x >>> 31)).toNat

/-- A supply that stands in for chance: every number is spread over the words. -/
def mixing : Draws := { roll := spread }

/-- Draws a number below a bound. -/
def below (d : Draws) (bound : Nat) : Nat × Draws :=
  (d.roll d.used % bound, { d with used := d.used + 1 })

/-- Draws several numbers below a bound. -/
def many (d : Draws) : Nat → Nat → List Nat × Draws
  | 0, _ => ([], d)
  | count + 1, bound =>
    let first := d.below bound
    let rest := first.2.many count bound
    (first.1 :: rest.1, rest.2)

/-- Draws several members of a list one after the other, none of them twice. -/
def pick {α : Type} (d : Draws) : Nat → List α → List α × Draws
  | 0, _ => ([], d)
  | count + 1, xs =>
    let place := d.below xs.length
    match xs[place.1]? with
    | none => ([], place.2)
    | some x =>
      let rest := place.2.pick count (xs.eraseIdx place.1)
      (x :: rest.1, rest.2)

/-- Chooses several members of a list at random, or all of them in order when there are no more
than asked for. -/
def choose {α : Type} (d : Draws) (count : Nat) (xs : List α) : List α × Draws :=
  if xs.length ≤ count then (xs, d) else d.pick count xs

theorem below_lt (d : Draws) {bound : Nat} (h : 0 < bound) : (d.below bound).1 < bound :=
  Nat.mod_lt _ h

theorem length_many (d : Draws) (count bound : Nat) :
    (d.many count bound).1.length = count := by
  induction count generalizing d with
  | zero => rfl
  | succ n ih => simp [many, ih]

theorem many_lt (d : Draws) {count bound : Nat} (h : 0 < bound) :
    ∀ i ∈ (d.many count bound).1, i < bound := by
  induction count generalizing d with
  | zero => simp [many]
  | succ n ih =>
    intro i hi
    rcases List.mem_cons.1 hi with rfl | hi
    · exact below_lt d h
    · exact ih _ i hi

theorem choose_of_le {α : Type} (d : Draws) {count : Nat} {xs : List α}
    (h : xs.length ≤ count) : d.choose count xs = (xs, d) := if_pos h

/-- Nothing is chosen that was not offered. -/
theorem mem_of_mem_pick {α : Type} {d : Draws} {count : Nat} {xs : List α} {x : α}
    (h : x ∈ (d.pick count xs).1) : x ∈ xs := by
  induction count generalizing d xs with
  | zero => simp [pick] at h
  | succ n ih =>
    simp only [pick] at h
    split at h
    · simp at h
    · next y hy =>
      rcases List.mem_cons.1 h with rfl | h
      · exact List.mem_of_getElem? hy
      · exact List.mem_of_mem_eraseIdx (ih h)

theorem mem_of_mem_choose {α : Type} {d : Draws} {count : Nat} {xs : List α} {x : α}
    (h : x ∈ (d.choose count xs).1) : x ∈ xs := by
  unfold choose at h
  split at h
  · exact h
  · exact mem_of_mem_pick h

end Draws

end CacheNode

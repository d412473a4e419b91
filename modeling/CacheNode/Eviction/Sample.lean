import CacheNode.Draws
import CacheNode.Entry
import CacheNode.Table

/-!
# CacheNode — samples of a table

Keeping the exact order of last accesses up to date would cost too much, so entries are looked
at through samples. A sample is a set of positions in key order, drawn with repetition; one
forward pass over the entries collects what is wanted there and stops after the last position.

* `Sample.positions` — the drawn positions, ascending and without repetition;
* `Sample.collect` — what the pass collects;
* `Sample.mem_collect` — it collects rows of the table that are wanted, and nothing else.
-/

namespace CacheNode

/-- An entry that was looked at: its key, and its access time then. -/
structure Candidate where
  key : Bytes
  lastAccess : Millis
deriving DecidableEq, Repr

namespace Sample

/-- Draws positions below a bound, in ascending order without repetitions. A sample as large as
the table holds every position. -/
def positions (samples bound : Nat) (d : Draws) : List Nat × Draws :=
  if bound ≤ samples then (List.range bound, d)
  else
    let drawn := d.many samples bound
    ((List.range bound).filter (drawn.1.contains ·), drawn.2)

/-- Walks the rows from position `here` on, until no position is left to look at, and collects
what `keep` selects, given whether the row was drawn and whether its entry has expired. -/
def collect (keep : Bool → Bool → Bool) (x : Expiry) :
    Nat → List Nat → List (Bytes × Entry) → List Candidate
  | _, [], _ => []
  | _, _ :: _, [] => []
  | here, next :: later, (key, entry) :: rest =>
    let drawn := here = next
    let found := collect keep x (here + 1) (if drawn then later else next :: later) rest
    if keep drawn (entry.isExpired x) then ⟨key, entry.lastAccess⟩ :: found else found

/-- Only rows that `keep` selects are collected, with the access times they have. -/
theorem mem_collect {keep : Bool → Bool → Bool} {x : Expiry} {here : Nat} {wanted : List Nat}
    {rows : List (Bytes × Entry)} {c : Candidate}
    (h : c ∈ collect keep x here wanted rows) :
    ∃ row ∈ rows, c = ⟨row.1, row.2.lastAccess⟩ ∧
      ∃ drawn, keep drawn (row.2.isExpired x) = true := by
  induction rows generalizing here wanted with
  | nil => cases wanted <;> simp [collect] at h
  | cons row rest ih =>
    cases wanted with
    | nil => simp [collect] at h
    | cons next later =>
      simp only [collect] at h
      split at h
      · next hkeep =>
        rcases List.mem_cons.1 h with rfl | h
        · exact ⟨row, by simp, rfl, _, hkeep⟩
        · obtain ⟨r, hr, hc⟩ := ih h
          exact ⟨r, by simp [hr], hc⟩
      · obtain ⟨r, hr, hc⟩ := ih h
        exact ⟨r, by simp [hr], hc⟩

end Sample

end CacheNode

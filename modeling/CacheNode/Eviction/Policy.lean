import CacheNode.Eviction.Sample
import CacheNode.Metadata
import CacheNode.ScratchPool

/-!
# CacheNode — eviction candidates

A policy proposes entries for removal in order of preference. The caller removes from the front
until its goal is met, so more may be proposed than are asked for.

The approximate policy samples a number of entries for each one asked for. When that covers the
whole partition it proposes every entry, and no draw is made; else it proposes what was drawn,
and what has expired on the way. Either way the least recently used come first, and of equally
old ones those with smaller keys.

* `EvictionPolicy.candidates` — the proposal of a policy;
* `EvictionPolicy.samples` — whether the proposal takes a sample, in a rented buffer.
-/

namespace CacheNode

namespace Candidate

/-- Puts candidates in ascending order of access time; equally old ones keep their order. -/
def oldestFirst (found : List Candidate) : List Candidate :=
  found.mergeSort fun a b => a.lastAccess ≤ b.lastAccess

end Candidate

namespace EvictionPolicy

/-- Whether a proposal looks at a sample only: some entries are asked for, and the sample does
not cover the partition. -/
def samples (policy : EvictionPolicy) (perKey count size : Nat) : Bool :=
  policy = .approximateLru && 0 < count && max 1 perKey * count < size

/-- Proposes entries for removal, the preferred ones first. -/
def candidates (policy : EvictionPolicy) (perKey count : Nat) (x : Expiry)
    (entries : Table Entry) (d : Draws) : List Candidate × Draws :=
  match policy with
  | .noEviction => ([], d)
  | .approximateLru =>
    if count = 0 then ([], d)
    else if entries.size ≤ max 1 perKey * count then
      (Candidate.oldestFirst (entries.rows.map fun row => ⟨row.1, row.2.lastAccess⟩), d)
    else
      let drawn := Sample.positions (max 1 perKey * count) entries.size d
      let found := Sample.collect (fun drawn expired => drawn || expired) x 0 drawn.1 entries.rows
      (Candidate.oldestFirst found, drawn.2)

/-- The scratch pool after a proposal: a sample rents a buffer and gives it back. -/
def scratchAfter (policy : EvictionPolicy) (perKey count size : Nat) (pool : ScratchPool) :
    ScratchPool :=
  if policy.samples perKey count size then
    let rented := pool.rent (max 1 perKey * count)
    rented.2.giveBack rented.1
  else pool

/-- Every proposed candidate is an entry of the partition, with its access time. -/
theorem mem_candidates {policy : EvictionPolicy} {perKey count : Nat} {x : Expiry}
    {entries : Table Entry} {d : Draws} {c : Candidate}
    (h : c ∈ (policy.candidates perKey count x entries d).1) :
    ∃ e, entries.get? c.key = some e ∧ c.lastAccess = e.lastAccess := by
  have hrow : ∃ row ∈ entries.rows, c = ⟨row.1, row.2.lastAccess⟩ := by
    unfold candidates at h
    split at h
    · simp at h
    · split at h
      · simp at h
      · split at h
        · obtain ⟨row, hrow, hc⟩ := List.mem_map.1 (List.mem_mergeSort.1 h)
          exact ⟨row, hrow, hc.symm⟩
        · obtain ⟨row, hrow, hc, -⟩ := Sample.mem_collect (List.mem_mergeSort.1 h)
          exact ⟨row, hrow, hc⟩
  obtain ⟨⟨k, e⟩, hmem, rfl⟩ := hrow
  exact ⟨e, Table.mem_rows_iff.1 hmem, rfl⟩

end EvictionPolicy

end CacheNode

import CacheNode.Glob
import CacheNode.Partition.Remove

/-!
# CacheNode — reading a partition

Reads see live entries only. An entry that is found expired is removed on the spot and counts
as absent. Unless the partition fixes expiry at creation, reading an entry renews its access
time.

* `Site.get`, `Site.getMany` — payloads by key;
* `Site.touch`, `Site.ttl` — renewal and remaining lifetime;
* `Site.sampleExpired` — a random look for expired entries;
* `Partition.scanKeys` — the live keys that match a pattern, page by page.
-/

namespace CacheNode

/-- One page of a key scan, and where the next one starts if there is more. -/
structure KeyPage where
  keys : List Bytes
  next : Option Nat
deriving DecidableEq, Repr

namespace Partition

/-- The keys of live entries that match a pattern, in ascending order. -/
def matching (p : Partition) (pattern : Glob) (now : Millis) : List Bytes :=
  (p.entries.rows.filter fun row =>
    !row.2.isExpired (p.expiry now) && pattern.isMatch row.1).map Prod.fst

/-- The page of matching live keys that starts after `offset` of them. -/
def scanKeys (p : Partition) (pattern : Glob) (count offset : Nat) (now : Millis) : KeyPage :=
  let rest := (p.matching pattern now).drop offset
  let keys := rest.take count
  ⟨keys, if count < rest.length then some (offset + keys.length) else none⟩

end Partition

namespace Site

/-- Renews the access time of an entry, unless expiry is fixed at creation. -/
def renew (s : Site) (key : Bytes) (e : Entry) (now : Millis) : Site :=
  if s.part.metadata.isAbsolute then s
  else s.hold (s.part.entries.insert key (e.touch now))

/-- The payload under a key, if its entry is live. `touch` renews the access time, `count`
counts the hit or miss. -/
def get (s : Site) (key : Bytes) (now : Millis) (touch count : Bool) : Option Bytes × Site :=
  let miss := fun s : Site => if count then s.book Account.miss else s
  match s.part.entries.get? key with
  | none => (none, miss s)
  | some e =>
    if e.isExpired (s.part.expiry now) then (none, miss (s.expire [key] now).2)
    else
      let s := if touch then s.renew key e now else s
      (some e.payload, if count then s.book (·.hit now) else s)

/-- Reads keys one after the other: the live entries that were found, and the keys that were
found expired, which are not removed yet. -/
def readEach (now : Millis) : List Bytes → Site → (List (Bytes × Bytes) × List Bytes) × Site
  | [], s => (([], []), s)
  | key :: rest, s =>
    match s.part.entries.get? key with
    | none => readEach now rest (s.book Account.miss)
    | some e =>
      if e.isExpired (s.part.expiry now) then
        let later := readEach now rest (s.book Account.miss)
        ((later.1.1, key :: later.1.2), later.2)
      else
        let later := readEach now rest ((s.renew key e now).book (·.hit now))
        (((key, e.payload) :: later.1.1, later.1.2), later.2)

/-- The live entries among keys. Those found expired are removed together at the end. -/
def getMany (s : Site) (keys : List Bytes) (now : Millis) : List (Bytes × Bytes) × Site :=
  let pass := readEach now keys s
  (pass.1.1, if pass.1.2 = [] then pass.2 else (pass.2.expire pass.1.2 now).2)

/-- Renews the access time of a live key. Where expiry is fixed at creation it only reports
whether the key is live. -/
def touch (s : Site) (key : Bytes) (now : Millis) : Except CacheError Unit × Site :=
  match s.part.entries.get? key with
  | none => (.error .keyDoesNotExist, s)
  | some e =>
    if e.isExpired (s.part.expiry now) then (.error .keyDoesNotExist, (s.expire [key] now).2)
    else (.ok (), s.renew key e now)

/-- The time left to a live key, none if it never expires. -/
def ttl (s : Site) (key : Bytes) (now : Millis) :
    Except CacheError (Option Millis) × Site :=
  match s.part.entries.get? key with
  | none => (.error .keyDoesNotExist, s)
  | some e =>
    if e.isExpired (s.part.expiry now) then (.error .keyDoesNotExist, (s.expire [key] now).2)
    else (.ok (e.timeLeft (s.part.expiry now)), s)

/-- The expired keys at randomly drawn positions. -/
def sampleExpired (s : Site) (samples : Nat) (now : Millis) : List Bytes × Site :=
  let bound := s.part.tally.itemCount.toNat
  if bound = 0 ∨ samples = 0 then ([], s)
  else
    let drawn := Sample.positions samples bound s.draws
    let s := { s with draws := drawn.2 }
    if s.part.metadata.interval = 0 then ([], s)
    else
      let found := Sample.collect (fun drawn expired => drawn && expired) (s.part.expiry now) 0
        drawn.1 s.part.entries.rows
      (found.map Candidate.key, s)

-- ---------------------------------------------------------------------------
-- What a sample of expired keys holds
-- ---------------------------------------------------------------------------

/-- Looking for expired keys changes no entry and no metadata. -/
@[simp] theorem part_sampleExpired (s : Site) (samples : Nat) (now : Millis) :
    (s.sampleExpired samples now).2.part = s.part := by
  simp only [sampleExpired]
  split
  · rfl
  · split <;> rfl

/-- The keys found have entries that have expired. -/
theorem mem_sampleExpired {s : Site} {samples : Nat} {now : Millis} {key : Bytes}
    (h : key ∈ (s.sampleExpired samples now).1) :
    s.part.metadata.interval ≠ 0 ∧
      ∃ e, s.part.entries.get? key = some e ∧ e.isExpired (s.part.expiry now) = true := by
  simp only [sampleExpired] at h
  split at h
  · simp at h
  · split at h
    · simp at h
    · next hint =>
      obtain ⟨c, hc, rfl⟩ := List.mem_map.1 h
      obtain ⟨row, hrow, rfl, drawn, hkeep⟩ := Sample.mem_collect hc
      simp only [Bool.and_eq_true] at hkeep
      exact ⟨hint, row.2, Table.mem_rows_iff.1 hrow, hkeep.2⟩

/-- What was found is there to be removed. -/
theorem expire_sampleExpired_pos {s : Site} {samples : Nat} {now : Millis}
    (h : (s.sampleExpired samples now).1 ≠ []) :
    0 < ((s.sampleExpired samples now).2.expire (s.sampleExpired samples now).1 now).1 := by
  obtain ⟨key, rest, hkeys⟩ := List.exists_cons_of_ne_nil h
  have hmem : key ∈ (s.sampleExpired samples now).1 := hkeys ▸ List.mem_cons_self
  obtain ⟨hint, e, he, hexp⟩ := mem_sampleExpired hmem
  rw [hkeys, expire, part_sampleExpired, if_neg hint, expireEach, part_sampleExpired, he]
  simp only [hexp, if_true]
  exact Nat.succ_pos _

end Site

end CacheNode

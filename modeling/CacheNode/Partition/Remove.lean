import CacheNode.Partition.Basic

/-!
# CacheNode — removing entries

Entries leave a partition when they are deleted, when they are met after their expiry, when
they are evicted to free space, and when the partition is flushed.

* `Site.deleteMany`, `Site.delete` — deletion by key; what had expired does not count as deleted;
* `Site.expire` — removes what has expired among given keys;
* `Site.evict` — removes candidates of the eviction policy until a goal is met;
* `Site.flush`, `Site.retire` — removes everything;
* `Site.size_evict`, `Site.size_expire` — what is removed is what the table lost.
-/

namespace CacheNode.Site

-- ---------------------------------------------------------------------------
-- Deletion
-- ---------------------------------------------------------------------------

/-- Removes keys one after the other. Returns how many were live. -/
def deleteEach (x : Expiry) : List Bytes → Site → Nat × Site
  | [], s => (0, s)
  | key :: rest, s =>
    match s.part.entries.get? key with
    | none => deleteEach x rest s
    | some e =>
      if e.isExpired x then deleteEach x rest (s.takeOut key e .expired)
      else
        let later := deleteEach x rest (s.takeOut key e .deleted)
        (later.1 + 1, later.2)

/-- Deletes keys. Nothing happens if one of them is refused. Returns how many were live. -/
def deleteMany (s : Site) (keys : List Bytes) (now : Millis) : Except CacheError Nat × Site :=
  match checkEach s.part.checkKey keys with
  | .error e => (.error e, s)
  | .ok () =>
    match s.part.checkInUse with
    | .error e => (.error e, s)
    | .ok () =>
      let left := deleteEach (s.part.expiry now) keys s
      (.ok left.1, left.2)

/-- Deletes one key. An entry that had expired is removed but counts as absent. -/
def delete (s : Site) (key : Bytes) (now : Millis) : Except CacheError Unit × Site :=
  let left := s.deleteMany [key] now
  match left.1 with
  | .error e => (.error e, left.2)
  | .ok 0 => (.error .keyDoesNotExist, left.2)
  | .ok _ => (.ok (), left.2)

-- ---------------------------------------------------------------------------
-- Expiry
-- ---------------------------------------------------------------------------

/-- Removes the keys that have expired. Returns how many. -/
def expireEach (x : Expiry) : List Bytes → Site → Nat × Site
  | [], s => (0, s)
  | key :: rest, s =>
    match s.part.entries.get? key with
    | none => expireEach x rest s
    | some e =>
      if e.isExpired x then
        let later := expireEach x rest (s.takeOut key e .expired)
        (later.1 + 1, later.2)
      else expireEach x rest s

/-- Removes the keys that have expired and leaves live ones alone. Returns how many. -/
def expire (s : Site) (keys : List Bytes) (now : Millis) : Nat × Site :=
  if s.part.metadata.interval = 0 then (0, s) else expireEach (s.part.expiry now) keys s

-- ---------------------------------------------------------------------------
-- Eviction
-- ---------------------------------------------------------------------------

/-- Removes candidates from the front, `count` of them at most, as long as usage exceeds the
goal. Candidates that are gone are passed over. -/
def evictEach (goal : EvictionGoal) (x : Expiry) : List Candidate → Nat → Site → Nat × Site
  | [], _, s => (0, s)
  | c :: rest, count, s =>
    if count = 0 ∨ s.overTarget s.part.metadata.maxCacheSize goal = false then (0, s)
    else
      match s.part.entries.get? c.key with
      | none => evictEach goal x rest count s
      | some e =>
        let cause := if e.isExpired x then .expired else .evicted
        let later := evictEach goal x rest (count - 1) (s.takeOut c.key e cause)
        (later.1 + 1, later.2)

/-- Removes up to `count` entries that the partition's policy proposes, as long as usage exceeds
the goal. Returns how many. -/
def evict (s : Site) (count : Nat) (now : Millis) (goal : EvictionGoal) : Nat × Site :=
  if count = 0 ∨ s.overTarget s.part.metadata.maxCacheSize goal = false then (0, s)
  else
    let x := s.part.expiry now
    let proposed := s.part.metadata.policy.candidates s.part.limits.keyEvictionSamples count x
      s.part.entries s.draws
    evictEach goal x proposed.1 count { s with draws := proposed.2 }

-- ---------------------------------------------------------------------------
-- Flushing
-- ---------------------------------------------------------------------------

/-- Deletes rows one after the other. -/
def clearEach : List (Bytes × Entry) → Site → Site
  | [], s => s
  | (key, e) :: rest, s => clearEach rest (s.takeOut key e .deleted)

/-- Deletes every entry and clears the activity counters; the configuration stays. Returns how
many entries there were. -/
def flush (s : Site) : Nat × Site :=
  (s.part.entries.size, (clearEach s.part.entries.rows s).book Account.reset)

/-- Flushes the partition and marks it as deleted, so that whoever still holds it is refused. -/
def retire (s : Site) : Nat × Site :=
  ({ s with part := { s.part with retired := true } } : Site).flush

-- ---------------------------------------------------------------------------
-- Counting
-- ---------------------------------------------------------------------------

theorem size_expireEach (x : Expiry) (keys : List Bytes) (s : Site) :
    (expireEach x keys s).2.part.entries.size + (expireEach x keys s).1
      = s.part.entries.size := by
  induction keys generalizing s with
  | nil => rfl
  | cons key rest ih =>
    rw [expireEach]
    split
    · exact ih s
    · next e he =>
      split
      · have := ih (s.takeOut key e .expired)
        have := Table.size_erase he
        simp only [entries_takeOut] at *
        omega
      · exact ih s

/-- Expiry removes as many entries as it reports. -/
theorem size_expire (s : Site) (keys : List Bytes) (now : Millis) :
    (s.expire keys now).2.part.entries.size + (s.expire keys now).1 = s.part.entries.size := by
  unfold expire
  split
  · rfl
  · exact size_expireEach _ _ _

theorem size_evictEach (goal : EvictionGoal) (x : Expiry) (proposed : List Candidate)
    (count : Nat) (s : Site) :
    (evictEach goal x proposed count s).2.part.entries.size
      + (evictEach goal x proposed count s).1 = s.part.entries.size := by
  induction proposed generalizing count s with
  | nil => rfl
  | cons c rest ih =>
    rw [evictEach]
    split
    · rfl
    · split
      · exact ih count s
      · next e he =>
        have := ih (count - 1) (s.takeOut c.key e (if e.isExpired x then .expired else .evicted))
        have := Table.size_erase he
        simp only [entries_takeOut] at *
        omega

/-- Eviction removes as many entries as it reports. -/
theorem size_evict (s : Site) (count : Nat) (now : Millis) (goal : EvictionGoal) :
    (s.evict count now goal).2.part.entries.size + (s.evict count now goal).1
      = s.part.entries.size := by
  unfold evict
  split
  · rfl
  · exact size_evictEach _ _ _ _ _

end CacheNode.Site

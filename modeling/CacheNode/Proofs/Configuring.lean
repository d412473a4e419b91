import CacheNode.Proofs.Configurations
import CacheNode.Proofs.Runs

/-!
# CacheNode — configurations that fail

Configuring a partition takes several steps: a reservation, a call to the place where metadata is
kept, and the change itself. Each of them can fail after earlier ones took effect, on four paths that
differ: a new partition or an old one, a larger bound or a smaller one. Whatever fails, nothing has
changed afterwards: not the table with all that the partitions hold, not a counter, not a channel,
not the compaction requests, and not what is kept of the configurations.

What a failing call to the place of the configurations leaves behind there is up to that place. It
is taken to change nothing (`Node.FailsSafely`), which is so unless a record was written under its
temporary name and then could not be moved.

* `World.Noted` — the surroundings are as before, but for the list of calls of a recording store;
* `Node.failed_putPartition` — a configuration that fails changes nothing.
-/

namespace CacheNode

/-- The surroundings are as before, but that a recording store may have noted calls. -/
def World.Noted (storage : Storage) (before after : World) : Prop :=
  ∃ noted,
    after = { before with
      recorder := { before.recorder with calls := before.recorder.calls ++ noted } } ∧
    (storage ≠ .recorder → noted = [])

namespace World

variable {w : World} {storage : Storage} {partition : Bytes} {metadata : Metadata} {e : CacheError}

theorem Noted.refl (storage : Storage) (w : World) : w.Noted storage w := by
  refine ⟨[], ?_, fun _ => rfl⟩
  rw [List.append_nil]

/-- A call that fails changes nothing but the files, where it may stop half way. -/
theorem noted_of_persist_error (h : (w.persist storage partition metadata).1 = .error e)
    (hfiles : (w.persist storage partition metadata).2.directory = w.directory) :
    w.Noted storage (w.persist storage partition metadata).2 := by
  cases storage with
  | nowhere => cases h
  | files =>
    have hsame : (w.persist .files partition metadata).2 = w := by
      show ({ w with directory := _ } : World) = w
      rw [show (FileStore.persist w.directory partition metadata).2 = w.directory from hfiles]
    rw [hsame]
    exact Noted.refl _ w
  | recorder =>
    refine ⟨[.persist partition metadata], ?_, fun hother => absurd rfl hother⟩
    simp only [persist, Recorder.persist] at h ⊢
    split at h
    · next hfails =>
      rw [if_pos hfails]
      rfl
    · cases h

/-- Removing a file happens in one step. -/
theorem noted_of_delete_error (h : (w.delete storage partition).1 = .error e) :
    w.Noted storage (w.delete storage partition).2 := by
  cases storage with
  | nowhere => cases h
  | files =>
    have hsame : (FileStore.delete w.directory partition).2 = w.directory := by
      change (FileStore.delete w.directory partition).1 = .error e at h
      unfold FileStore.delete at h ⊢
      split at h
      · rfl
      · split at h
        · cases h
        · rfl
        · cases h
    have hworld : (w.delete .files partition).2 = w := by
      show ({ w with directory := _ } : World) = w
      rw [hsame]
    rw [hworld]
    exact Noted.refl _ w
  | recorder =>
    refine ⟨[.delete partition], ?_, fun hother => absurd rfl hother⟩
    simp only [delete, Recorder.delete] at h ⊢
    split at h
    · next hfails =>
      rw [if_pos hfails]
      rfl
    · cases h

end World

namespace Node

variable {n : Node} {name : Bytes} {p : Partition} {metadata : Metadata} {e : CacheError}

/-- A record of the partition that cannot be stored leaves the files as they are. -/
def FailsSafely (n : Node) (name : Bytes) : Prop :=
  ∀ metadata e, (n.world.persist n.storage name metadata).1 = .error e →
    (n.world.persist n.storage name metadata).2.directory = n.world.directory

/-- Nothing has changed, but that a recording store may have noted calls. -/
def Untouched (n m : Node) : Prop :=
  ∃ world, n.world.Noted n.storage world ∧ m = { n with world }

theorem Untouched.refl (n : Node) : n.Untouched n := ⟨n.world, .refl _ _, rfl⟩

/-- A new partition that could not be created has given its reservation back. -/
theorem untouched_of_createPartition (hstore : n.FailsSafely name) (store : Bool)
    (h : (n.createPartition name metadata store).1 = .error e) :
    n.Untouched (n.createPartition name metadata store).2 := by
  rcases createPartition_cases n name metadata store with
    ⟨err, -, heq⟩ | ⟨err, hstored, heq⟩ | ⟨totals, -, -, heq⟩
  · rw [heq]
    exact .refl n
  · rw [heq]
    refine ⟨_, ?_, rfl⟩
    unfold storedNew at hstored ⊢
    split at hstored
    · next hkeep =>
      rw [if_pos hkeep]
      exact World.noted_of_persist_error hstored (hstore metadata err hstored)
    · cases hstored
  · rw [heq] at h
    cases h

/-- A partition that could not be reconfigured has given back what its larger bound reserved. -/
theorem untouched_of_reconfigure (huse : p.retired = false) (hstore : n.FailsSafely p.name)
    (h : (n.reconfigure p metadata).1 = .error e) :
    n.Untouched (n.reconfigure p metadata).2 := by
  rcases reconfigure_cases huse n metadata with
    ⟨err, -, heq⟩ | ⟨err, hstored, heq⟩ | ⟨totals, m, -, -, -, heq⟩
  · rw [heq]
    exact .refl n
  · rw [heq]
    refine ⟨_, ?_, rfl⟩
    simp only [storedNext] at hstored ⊢
    split at hstored
    · next hkeep =>
      -- the new metadata could not be stored
      rw [if_pos hkeep]
      exact World.noted_of_persist_error hstored (hstore _ err hstored)
    · next hdrop =>
      rw [if_neg hdrop]
      split at hstored
      · next hkept =>
        -- what was stored before could not be dropped
        rw [if_pos hkept]
        exact World.noted_of_delete_error hstored
      · cases hstored
  · rcases heq with heq | heq <;>
    · rw [heq] at h
      cases h

/-- A configuration that fails, for whatever reason, changes nothing. -/
theorem failed_putPartition (hn : n.WellFormed) (hstore : n.FailsSafely name)
    (h : (n.putPartition name metadata).1 = .error e) :
    n.Untouched (n.putPartition name metadata).2 := by
  unfold putPartition at h ⊢
  split at h
  · exact .refl n
  · split at h
    · next p hp =>
      have hpart := hn _ _ hp
      exact untouched_of_reconfigure hpart.inUse (hpart.named ▸ hstore) h
    · exact untouched_of_createPartition hstore true h

/-- A configuration with a bound, which is to be kept or not. -/
def bounding (bound : ByteCount) (persisted : Bool) : Metadata :=
  { createDate := (bare {}).today, maxCacheSize := bound, persisted }

/-- A kept partition with a bound of ten bytes, two of them in use, on a budget of 100 bytes. The
recording store that keeps its configuration has begun to fail. -/
def unstorable : Node :=
  let kept := (performAll
    [.putPartition [112] (bounding 10 true), .put .upsert [112] [97] [1] 1]
    { bare { maxCacheSize := 100 } with storage := .recorder }).2
  { kept with
    world := { kept.world with
      recorder := { kept.world.recorder with failing := { persist := true, delete := true } } } }

theorem unstorable_wellFormed : unstorable.WellFormed := by
  have hfresh : Fresh { bare { maxCacheSize := 100 } with storage := .recorder } :=
    ⟨{ maxCacheSize := 100 }, ⟨none⟩, .ok .recorder, false, (bare {}).today, (bare {}).world, rfl⟩
  have hreached : Reachable { bare { maxCacheSize := 100 } with storage := .recorder } :=
    ⟨_, hfresh, .start⟩
  exact (hreached.performAll _ (by decide)).wellFormed

/-- Its bound cannot be raised, its configuration not be dropped, and no other one be kept; nothing
stays reserved of what each of the attempts reserved. -/
theorem failed_putPartition_unstorable :
    unstorable.totals.reservedSize = 10 ∧
      ((unstorable.putPartition [112] (bounding 60 true)).1 = .error Recorder.refused ∧
        unstorable.Untouched (unstorable.putPartition [112] (bounding 60 true)).2) ∧
      ((unstorable.putPartition [112] (bounding 60 false)).1 = .error Recorder.refused ∧
        unstorable.Untouched (unstorable.putPartition [112] (bounding 60 false)).2) ∧
      ((unstorable.putPartition [113] (bounding 20 true)).1 = .error Recorder.refused ∧
        unstorable.Untouched (unstorable.putPartition [113] (bounding 20 true)).2) := by
  have hstore (name : Bytes) : unstorable.FailsSafely name := fun _ _ _ => rfl
  refine ⟨rfl, ⟨rfl, ?_⟩, ⟨rfl, ?_⟩, rfl, ?_⟩
  · exact failed_putPartition (e := Recorder.refused) unstorable_wellFormed (hstore [112]) rfl
  · exact failed_putPartition (e := Recorder.refused) unstorable_wellFormed (hstore [112]) rfl
  · exact failed_putPartition (e := Recorder.refused) unstorable_wellFormed (hstore [113]) rfl

end Node

end CacheNode

import CacheNode.Proofs.Records
import CacheNode.Proofs.Reservations
import CacheNode.Proofs.Steady

/-!
# CacheNode — configurations are kept

A node that keeps configurations in a directory writes a record when a partition asks to be kept,
replaces it with every later configuration, and removes it when the partition no longer asks for it
or is deleted. So at any time the directory holds the records of exactly those partitions of the
table that ask to be kept (`Node.Mirrored`). Everything else that can be asked of a node leaves both
sides alone (`Node.Undisturbed`), and so does a recovery on the way, which gives each partition
the metadata it has.

* `Node.kept?` — what a partition asks to be kept;
* `Node.perform_undisturbed` — operations that have nothing to do with it;
* `Node.Stores` — what becomes of a record when its partition is configured;
* `Node.perform_mirrored` — every operation leaves the directory in step with the table.
-/

namespace CacheNode

/-- The configuration that is to be kept, if that is asked for. -/
def Metadata.kept (metadata : Metadata) : Option Metadata :=
  if metadata.persisted then some metadata else none

namespace Node

open FileStore (Mirrors revise ReadsBack)

/-- The configuration that the partition with a name asks to be kept. -/
def kept? (n : Node) (name : Bytes) : Option Metadata :=
  (n.find? name).bind fun p => p.metadata.kept

/-- The partitions that ask to be kept. -/
def persisted (n : Node) : List (Bytes × Partition) :=
  n.partitions.rows.filter fun row => row.2.metadata.persisted

/-- The records of all partitions that ask to be kept read back as what was written. -/
def Legible (n : Node) : Prop := ∀ row ∈ n.persisted, ReadsBack row.1 row.2.metadata

instance (n : Node) : Decidable n.Legible := inferInstanceAs (Decidable (∀ row ∈ _, _))

/-- The node keeps configurations in its directory, which mirrors the table. -/
structure Mirrored (n : Node) : Prop where
  files : n.storage = .files
  mirrors : Mirrors n.world.directory n.kept?

/-- Neither the directory nor any kept configuration has changed. -/
structure Undisturbed (n m : Node) : Prop where
  directory : m.world.directory = n.world.directory
  kept : ∀ name, m.kept? name = n.kept? name

variable {n m : Node} {name other : Bytes} {p q : Partition} {metadata : Metadata}

-- ---------------------------------------------------------------------------
-- Kept configurations
-- ---------------------------------------------------------------------------

theorem kept?_of_find? (hp : n.find? name = some p) : n.kept? name = p.metadata.kept := by
  rw [kept?, hp]
  rfl

theorem kept?_eq_some :
    n.kept? name = some metadata ↔
      ∃ p, n.find? name = some p ∧ p.metadata.persisted = true ∧ p.metadata = metadata := by
  simp only [kept?, Option.bind_eq_some_iff, Metadata.kept, Option.ite_none_right_eq_some,
    Option.some.injEq]

/-- Putting a partition into the table revises what is kept of it. -/
theorem kept?_of_insert (hm : m.partitions = n.partitions.insert name q) :
    m.kept? = revise n.kept? name q.metadata.kept := by
  funext other
  rw [kept?, find?, hm, Table.get?_insert, revise]
  split <;> rfl

theorem kept?_of_erase (hm : m.partitions = n.partitions.erase name) :
    m.kept? = revise n.kept? name none := by
  funext other
  rw [kept?, find?, hm, Table.get?_erase, revise]
  split <;> rfl

theorem mem_persisted :
    (name, p) ∈ n.persisted ↔ n.find? name = some p ∧ p.metadata.persisted = true := by
  rw [persisted, List.mem_filter, Table.mem_rows_iff]
  rfl

/-- What is kept has a valid name, and its record reads back. -/
theorem Legible.kept (h : n.Legible) (hn : n.WellFormed) (hkept : n.kept? name = some metadata) :
    PartitionName.Valid name ∧ ReadsBack name metadata := by
  obtain ⟨p, hp, hpersisted, rfl⟩ := kept?_eq_some.1 hkept
  exact ⟨(hn _ _ hp).valid, h (name, p) (mem_persisted.2 ⟨hp, hpersisted⟩)⟩

-- ---------------------------------------------------------------------------
-- Operations that have nothing to do with configurations
-- ---------------------------------------------------------------------------

theorem Undisturbed.mirrored (h : n.Undisturbed m) (hstorage : m.storage = n.storage)
    (hn : n.Mirrored) : m.Mirrored where
  files := hstorage.trans hn.files
  mirrors := by
    rw [h.directory]
    exact hn.mirrors.of_eq h.kept

/-- A partition that is created for a write does not ask to be kept. -/
theorem Steady.undisturbed (h : n.Steady m) : n.Undisturbed m where
  directory := h.directory
  kept := by
    intro name
    have hkept (k : Node) : k.kept? name = (k.configured name).bind Metadata.kept := by
      rw [kept?, Node.configured, Option.bind_map]
      rfl
    rw [hkept, hkept]
    rcases h.metadata name with hsame | ⟨hnone, createDate, hnew⟩
    · rw [hsame]
    · rw [hnone, hnew]
      rfl

/-- An operation that is not about configurations has nothing to do with them. -/
theorem perform_undisturbed (op : Operation) (hop : op.configures = false) (hn : n.WellFormed) :
    n.Undisturbed (n.perform op).2 :=
  (perform_steady op hop hn).undisturbed

-- ---------------------------------------------------------------------------
-- Storing configurations
-- ---------------------------------------------------------------------------

/-- A change of what is stored for a partition succeeds and the directory mirrors the revision, or
it fails and the directory mirrors what it did before. -/
def Stores (n : Node) (stored : Except CacheError Unit × World) (name : Bytes)
    (next : Option Metadata) : Prop :=
  (stored.1 = .ok () ∧ Mirrors stored.2.directory (revise n.kept? name next)) ∨
    ∃ err, stored.1 = .error err ∧ Mirrors stored.2.directory n.kept?

theorem Mirrored.persist (h : n.Mirrored) (hname : PartitionName.Valid name)
    (metadata : Metadata) :
    n.Stores (n.world.persist n.storage name metadata) name (some metadata) := by
  rw [h.files]
  exact h.mirrors.persist hname metadata

theorem Mirrored.same (h : n.Mirrored) {next : Option Metadata} (hnext : next = n.kept? name) :
    n.Stores (.ok (), n.world) name next := by
  refine .inl ⟨rfl, ?_⟩
  rw [hnext, FileStore.revise_self]
  exact h.mirrors

theorem kept_of_persisted (h : metadata.persisted = true) : metadata.kept = some metadata :=
  if_pos h

theorem kept_of_not_persisted (h : metadata.persisted = false) : metadata.kept = none := by
  rw [Metadata.kept, h]
  rfl

theorem Mirrored.storedNew (h : n.Mirrored) (hname : PartitionName.Valid name)
    (hnone : n.find? name = none) (metadata : Metadata) :
    n.Stores (n.storedNew name metadata true) name metadata.kept := by
  cases hpersisted : metadata.persisted with
  | true =>
    rw [kept_of_persisted hpersisted]
    simp only [Node.storedNew, hpersisted, Bool.and_true, if_true]
    exact h.persist hname metadata
  | false =>
    have hunkept : metadata.kept = n.kept? name := by
      rw [kept_of_not_persisted hpersisted, kept?, hnone]
      rfl
    simp only [Node.storedNew, hpersisted, Bool.and_false, Bool.false_eq_true, if_false]
    exact h.same hunkept

theorem Mirrored.storedNext (h : n.Mirrored) (hn : n.WellFormed) (hp : n.find? name = some p)
    (metadata : Metadata) :
    n.Stores (n.storedNext p metadata) name (p.metadata.apply metadata).kept := by
  have hpart := hn _ _ hp
  have hvalid : PartitionName.Valid name := hpart.valid
  simp only [Node.storedNext, hpart.named]
  cases hnext : (p.metadata.apply metadata).persisted with
  | true =>
    rw [kept_of_persisted hnext, if_pos rfl]
    exact h.persist hvalid _
  | false =>
    rw [kept_of_not_persisted hnext, if_neg Bool.false_ne_true]
    cases hpersisted : p.metadata.persisted with
    | true =>
      -- the record is there, so it can be removed
      have hkept : n.kept? name ≠ none := by
        rw [kept?_of_find? hp, kept_of_persisted hpersisted]
        exact Option.some_ne_none _
      rw [if_pos rfl, h.files]
      exact .inl ⟨h.mirrors.delete_ok hvalid hkept, h.mirrors.delete hvalid⟩
    | false =>
      rw [if_neg Bool.false_ne_true]
      refine h.same ?_
      rw [kept?_of_find? hp, kept_of_not_persisted hpersisted]

/-- The two ways in which something that stores a configuration may end. -/
theorem Stores.mirrored {stored : Except CacheError Unit × World} {next : Option Metadata}
    (h : n.Stores stored name next) (hstorage : m.storage = .files)
    (hdirectory : m.world.directory = stored.2.directory)
    (hkept : (stored.1 = .ok () ∧ m.kept? = revise n.kept? name next) ∨
      ∃ err, stored.1 = .error err ∧ m.kept? = n.kept?) : m.Mirrored := by
  refine ⟨hstorage, ?_⟩
  rw [hdirectory]
  rcases h with ⟨hok, hmirrors⟩ | ⟨err, herr, hmirrors⟩
  · rcases hkept with ⟨-, hrevised⟩ | ⟨err, herr, -⟩
    · rw [hrevised]
      exact hmirrors
    · rw [hok] at herr
      cases herr
  · rcases hkept with ⟨hok, -⟩ | ⟨-, -, hsame⟩
    · rw [hok] at herr
      cases herr
    · rw [hsame]
      exact hmirrors

theorem mirrored_createPartition (h : n.Mirrored) (hname : PartitionName.Valid name)
    (hnone : n.find? name = none) (metadata : Metadata) :
    (n.createPartition name metadata true).2.Mirrored := by
  have hstored := h.storedNew hname hnone metadata
  rcases createPartition_cases n name metadata true with
    ⟨err, -, heq⟩ | ⟨err, herr, heq⟩ | ⟨totals, -, hok, heq⟩
  · rw [heq]
    exact h
  · rw [heq]
    exact hstored.mirrored h.files rfl (.inr ⟨err, herr, rfl⟩)
  · rw [heq]
    refine hstored.mirrored h.files rfl (.inl ⟨hok, ?_⟩)
    exact kept?_of_insert (q := .create name metadata n.config.limits) rfl

theorem undisturbed_requestCompaction (n : Node) (target : Bytes) :
    n.Undisturbed (n.requestCompaction target) := by
  unfold requestCompaction
  split <;> exact ⟨rfl, fun _ => rfl⟩

theorem storage_requestCompaction (n : Node) (target : Bytes) :
    (n.requestCompaction target).storage = n.storage := by
  unfold requestCompaction
  split <;> rfl

/-- A reconfiguration revises what is kept of its partition. -/
theorem kept?_reconfigured (hname : p.name = name) (metadata : Metadata) (totals : Totals) :
    (n.reconfigured p metadata totals).kept? =
      revise n.kept? name (p.metadata.apply metadata).kept := by
  refine kept?_of_insert (q := p.regranted metadata) ?_
  rw [partitions_reconfigured, hname]

theorem mirrored_reconfigure (h : n.Mirrored) (hn : n.WellFormed) (hp : n.find? name = some p)
    (metadata : Metadata) : (n.reconfigure p metadata).2.Mirrored := by
  have hpart := hn _ _ hp
  have hstored := h.storedNext hn hp metadata
  rcases reconfigure_cases hpart.inUse n metadata with
    ⟨err, -, heq⟩ | ⟨err, herr, heq⟩ | ⟨totals, m, -, hok, hm, heq⟩
  · rw [heq]
    exact h
  · rw [heq]
    exact hstored.mirrored h.files rfl (.inr ⟨err, herr, rfl⟩)
  · have hmirrored : m.Mirrored := by
      rw [hm]
      exact hstored.mirrored h.files rfl (.inl ⟨hok, kept?_reconfigured hpart.named _ _⟩)
    rcases heq with heq | heq
    · rw [heq]
      exact hmirrored
    · rw [heq]
      exact (undisturbed_requestCompaction m p.name).mirrored (storage_requestCompaction m p.name)
        hmirrored

/-- A partition that gets the metadata it has asks for nothing new to be kept. -/
theorem kept?_reconfigure_self (hn : n.WellFormed) (hp : n.find? name = some p) (other : Bytes) :
    (n.reconfigure p p.metadata).2.kept? other = n.kept? other := by
  have hpart := hn _ _ hp
  rcases reconfigure_cases hpart.inUse n p.metadata with
    ⟨err, -, heq⟩ | ⟨err, -, heq⟩ | ⟨totals, m, -, -, hm, heq⟩
  · rw [heq]
  · rw [heq]
    rfl
  · have hkept : m.kept? = n.kept? := by
      rw [hm, kept?_reconfigured hpart.named, ← FileStore.revise_self n.kept? name,
        kept?_of_find? hp]
      rfl
    rcases heq with heq | heq
    · rw [heq, hkept]
    · rw [heq, (undisturbed_requestCompaction m p.name).kept, hkept]

theorem mirrored_putPartition (h : n.Mirrored) (hn : n.WellFormed) (name : Bytes)
    (metadata : Metadata) : (n.putPartition name metadata).2.Mirrored := by
  unfold putPartition
  split
  · exact h
  · next hname =>
    split
    · next p hp => exact mirrored_reconfigure h hn hp metadata
    · next hnone => exact mirrored_createPartition h hname hnone metadata

/-- A partition that is deleted takes its record along. -/
theorem mirrored_deletePartition (h : n.Mirrored) (hn : n.WellFormed) (name : Bytes) :
    (n.deletePartition name).2.Mirrored := by
  cases hexisting : n.existing name with
  | error err =>
    simp only [deletePartition, deletion, hexisting]
    exact h
  | ok p =>
    obtain ⟨hvalid, hp⟩ := find?_of_existing hexisting
    have hpart := hn _ _ hp
    have hmetadata : (n.site p).pruneWatches.2.retire.2.part.metadata = p.metadata := by
      have hflush := Site.steps_flush trivial
        (Nat.lt_succ_self (n.site p).pruneWatches.2.part.bytes)
      rw [retire_eq]
      show (n.site p).pruneWatches.2.flush.2.part.metadata = p.metadata
      exact Partition.metadata_eq hflush.settings
    simp only [deletePartition, deletion, hexisting]
    split
    · -- somebody still watches
      have hpruned : n.Steady (n.settle (n.site p).pruneWatches.2) :=
        .settle hp hpart.named rfl
      exact hpruned.undisturbed.mirrored rfl h
    · generalize (n.site p).pruneWatches.2.retire.2 = retired at hmetadata ⊢
      cases hpersisted : p.metadata.persisted with
      | true =>
        rw [if_pos (by rw [hmetadata, hpersisted])]
        refine ⟨h.files, ?_⟩
        rw [kept?_of_erase (n := n) rfl]
        show Mirrors ((n.share retired).world.delete n.storage name).2.directory _
        rw [h.files]
        exact h.mirrors.delete hvalid
      | false =>
        -- nothing is kept of it already
        have hunkept : n.kept? name = none := by
          rw [kept?_of_find? hp, kept_of_not_persisted hpersisted]
        rw [if_neg (by rw [hmetadata, hpersisted]; exact Bool.false_ne_true)]
        refine ⟨h.files, ?_⟩
        rw [kept?_of_erase (n := n) rfl, ← hunkept, FileStore.revise_self]
        exact h.mirrors

/-- Each record of the directory belongs to a partition that has the same metadata. -/
theorem mirrored_recoverEach (records : List (Bytes × Metadata)) (h : n.Mirrored)
    (hn : n.WellFormed) (hrecords : ∀ record ∈ records, n.kept? record.1 = some record.2) :
    (recoverEach records n).2.Mirrored := by
  induction records generalizing n with
  | nil => exact h
  | cons record rest ih =>
    obtain ⟨name, metadata⟩ := record
    obtain ⟨p, hp, hpersisted, rfl⟩ := kept?_eq_some.1 (hrecords _ List.mem_cons_self)
    obtain ⟨restored, hfound, -, hlater⟩ := recoverEach_cons p.metadata (hn _ _ hp).valid n
    rw [hlater, hfound p hp]
    have hchanges : Changes (fun _ _ => True) (fun _ => False) (n.bytesHeld + 1) n
        (n.reconfigure p p.metadata).2 :=
      changes_reconfigure hn (Nat.lt_succ_self _) hp fun _ => trivial
    refine ih (mirrored_reconfigure h hn hp _) (hchanges.wellFormed hn) fun record hrecord => ?_
    rw [kept?_reconfigure_self hn hp]
    exact hrecords record (List.mem_cons_of_mem _ hrecord)

theorem mirrored_recover (h : n.Mirrored) (hn : n.WellFormed) (hlegible : n.Legible) :
    n.recover.2.Mirrored := by
  have hrecords : n.world.recover n.storage =
      (.ok (FileStore.recover n.world.directory), n.world) := by
    rw [h.files]
    rfl
  simp only [recover, hrecords]
  refine mirrored_recoverEach _ h hn fun record hrecord => ?_
  exact ((h.mirrors.shows fun _ _ hkept => hlegible.kept hn hkept).mem_recover).1 hrecord

/-- Every operation leaves the directory in step with the table. -/
theorem perform_mirrored (op : Operation) (h : n.Mirrored) (hn : n.WellFormed)
    (hlegible : n.Legible) : (n.perform op).2.Mirrored := by
  cases hop : op.configures with
  | false =>
    have hpremises := perform_premises op hn
    have hstorage : (n.perform op).2.storage = n.storage :=
      congrArg (fun premises => premises.2.2.1) hpremises
    exact (perform_undisturbed op hop hn).mirrored hstorage h
  | true =>
    cases op with
    | putPartition name metadata => exact mirrored_putPartition h hn name metadata
    | deletePartition name => exact mirrored_deletePartition h hn name
    | recover => exact mirrored_recover h hn hlegible
    | _ => cases hop

end Node

end CacheNode

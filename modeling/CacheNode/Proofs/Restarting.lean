import CacheNode.Proofs.Keeping
import CacheNode.Proofs.Settings

/-!
# CacheNode — what survives a restart

At any time the directory holds the records of exactly those partitions that ask to be kept. A new
node over the same directory gets these partitions back when it recovers, and no others; it finds
them without entries and with the metadata they had, and it writes nothing.

That each of them can be admitted again is not clear from the way they were admitted first, one
growth at a time beside whatever was in shared use then. It follows from what the reservations come
to together: they are backed by the budget (`Node.Backed`), which is the same for the new node, and
so are those that are left of them.

It is assumed that records read back as what was written. It is not assumed that they can be
written: where one cannot, the partition does not get the configuration either.

* `Node.Room` — a node has room for reservations;
* `Node.Restored` — what a node comes to that has recovered records;
* `Node.recoverEach_restores` — records of new partitions that there is room for are all restored;
* `Node.recover_perm` — what the directory is found to hold;
* `Node.restart_restores` — a run, and the node that is built after it.
-/

namespace CacheNode

variable {α β : Type}

theorem sumOf_map (f : β → Nat) (g : α → β) (xs : List α) :
    sumOf f (xs.map g) = sumOf (fun x => f (g x)) xs := by
  induction xs with
  | nil => rfl
  | cons x rest ih => simp only [List.map_cons, sumOf, ih]

theorem sumOf_perm {f : α → Nat} {xs ys : List α} (h : xs.Perm ys) : sumOf f xs = sumOf f ys := by
  induction h with
  | nil => rfl
  | cons x hrest ih => simp only [sumOf, ih]
  | swap x y rest =>
    simp only [sumOf]
    omega
  | trans hxy hyz ih ih' => exact ih.trans ih'

theorem sumOf_filter_le (f : α → Nat) (keep : α → Bool) (xs : List α) :
    sumOf f (xs.filter keep) ≤ sumOf f xs := by
  induction xs with
  | nil => exact Nat.le_refl 0
  | cons x rest ih =>
    rw [List.filter_cons]
    split
    · exact Nat.add_le_add_left ih _
    · exact Nat.le_trans ih (Nat.le_add_left _ _)

/-- What a host can back, it can back in part. -/
theorem HostMemory.canCommit_of_le {host : HostMemory} {bytes fewer : ByteCount}
    (h : host.canCommit bytes = true) (hle : fewer ≤ bytes) : host.canCommit fewer = true := by
  unfold canCommit at h ⊢
  cases hknown : host.available with
  | none => rfl
  | some available =>
    simp only [hknown, decide_eq_true_eq] at h ⊢
    exact UInt64.le_trans hle h

namespace Node

open FileStore (ReadsBack)

variable {n m k : Node} {name : Bytes} {p q : Partition} {metadata : Metadata}
  {records : List (Bytes × Metadata)}

/-- The bytes that records reserve. -/
def reservations (records : List (Bytes × Metadata)) : Nat :=
  sumOf (fun record => record.2.maxCacheSize.toNat) records

/-- Nothing is in shared use, and the budget, which the host can back, has room for so many more
bytes of reservations. -/
structure Room (n : Node) (bytes : Nat) : Prop where
  unshared : n.totals.unreservedSize = 0
  host : n.host.canCommit n.totals.maxCacheSize = true
  fits : n.totals.reservedSize.toNat + bytes ≤ n.totals.maxCacheSize.toNat

/-- A node that has recovered records of partitions that were not there. -/
structure Restored (n : Node) (records : List (Bytes × Metadata)) (m : Node) : Prop where
  table : ∀ name q, m.find? name = some q ↔ n.find? name = some q ∨
    ∃ metadata, (name, metadata) ∈ records ∧ q = .create name metadata n.config.limits
  reserved : m.totals.reservedSize.toNat = n.totals.reservedSize.toNat + reservations records
  world : m.world = n.world

-- ---------------------------------------------------------------------------
-- Restoring partitions
-- ---------------------------------------------------------------------------

/-- Where there is room for a reservation, it is granted. -/
theorem Room.reserve {amount : ByteCount} {rest : Nat} (h : n.Room (amount.toNat + rest))
    (name : Bytes) : ∃ totals, n.reserve name amount 0 = .ok totals := by
  have hfits := h.fits
  refine reserve_of_fits name (HostMemory.canCommit_of_le h.host ?_) ?_
  · rw [UInt64.le_iff_toNat_le]
    omega
  · rw [h.unshared]
    show _ + (0 - 0) ≤ _
    omega

/-- A partition that is restored enters the table and reserves its bound, and nothing is stored. -/
theorem Room.create {rest : Nat} (h : n.Room (metadata.maxCacheSize.toNat + rest))
    (name : Bytes) :
    ∃ totals m, n.createPartition name metadata false = (.ok (), m) ∧
      m = { n with
        totals, partitions := n.partitions.insert name (.create name metadata n.config.limits) } ∧
      m.Room rest ∧ m.totals.reservedSize.toNat =
        n.totals.reservedSize.toNat + metadata.maxCacheSize.toNat := by
  obtain ⟨granted, hgranted⟩ := h.reserve name
  rcases createPartition_cases n name metadata false with
    ⟨err, herr, -⟩ | ⟨err, herr, -⟩ | ⟨totals, hreserve, -, heq⟩
  · rw [hgranted] at herr
    cases herr
  · cases herr
  · obtain ⟨htotals, hgrown, -⟩ := reserve_eq_ok hreserve
    refine ⟨totals, _, heq, rfl, ⟨?_, ?_, ?_⟩, hgrown⟩
    · show totals.unreservedSize = 0
      rw [htotals]
      exact h.unshared
    · show n.host.canCommit totals.maxCacheSize = true
      rw [htotals]
      exact h.host
    · have hfits := h.fits
      show totals.reservedSize.toNat + rest ≤ totals.maxCacheSize.toNat
      rw [hgrown, htotals]
      show _ ≤ n.totals.maxCacheSize.toNat
      omega

theorem Restored.refl (n : Node) : n.Restored [] n where
  table := by simp
  reserved := rfl
  world := rfl

/-- Recovery goes on from the node that has one more partition. -/
theorem Restored.cons {totals : Totals} (hnone : n.find? name = none)
    (hm : m = { n with
      totals, partitions := n.partitions.insert name (.create name metadata n.config.limits) })
    (hreserved : m.totals.reservedSize.toNat =
      n.totals.reservedSize.toNat + metadata.maxCacheSize.toNat)
    (h : m.Restored records k) : n.Restored ((name, metadata) :: records) k where
  table := by
    intro other q
    have hfind : m.find? other =
        if other = name then some (.create name metadata n.config.limits)
        else n.find? other := by
      rw [hm]
      exact Table.get?_insert _ _ _ _
    have hconfig : m.config = n.config := by rw [hm]
    rw [h.table, hfind, hconfig]
    by_cases hsame : other = name
    · subst hsame
      rw [if_pos rfl, hnone]
      constructor
      · rintro (hq | ⟨md, hmem, hq⟩)
        · exact .inr ⟨metadata, List.mem_cons_self, (Option.some.inj hq).symm⟩
        · exact .inr ⟨md, List.mem_cons_of_mem _ hmem, hq⟩
      · rintro (hq | ⟨md, hmem, hq⟩)
        · cases hq
        · rcases List.mem_cons.1 hmem with hfirst | hlater
          · obtain ⟨-, rfl⟩ := Prod.mk.inj hfirst
            exact .inl (congrArg some hq.symm)
          · exact .inr ⟨md, hlater, hq⟩
    · rw [if_neg hsame]
      simp only [List.mem_cons, Prod.mk.injEq, hsame, false_and, false_or]
  reserved := by
    have hall : reservations ((name, metadata) :: records) =
        metadata.maxCacheSize.toNat + reservations records := rfl
    rw [h.reserved, hreserved, hall, Nat.add_assoc]
  world := by rw [h.world, hm]

/-- Records of new partitions that there is room for are restored, all of them. -/
theorem recoverEach_restores (records : List (Bytes × Metadata))
    (hnames : (records.map Prod.fst).Nodup)
    (hvalid : ∀ record ∈ records, PartitionName.Valid record.1)
    (hnew : ∀ record ∈ records, n.find? record.1 = none) (hroom : n.Room (reservations records)) :
    (recoverEach records n).1 = records.length ∧ n.Restored records (recoverEach records n).2 := by
  induction records generalizing n with
  | nil => exact ⟨rfl, .refl n⟩
  | cons record rest ih =>
    obtain ⟨name, metadata⟩ := record
    obtain ⟨hfresh, hrest⟩ := List.nodup_cons.1 hnames
    have hcheck : PartitionName.check name = .ok () := hvalid _ List.mem_cons_self
    have hnone : n.find? name = none := hnew _ List.mem_cons_self
    obtain ⟨totals, m, hcreate, hm, hroomAfter, hreserved⟩ := hroom.create name
    have hrecover : recoverEach ((name, metadata) :: rest) n =
        ((recoverEach rest m).1 + 1, (recoverEach rest m).2) := by
      simp only [recoverEach, hcheck, hnone, hcreate]
    -- the names that follow are still unknown
    have hnewAfter : ∀ record ∈ rest, m.find? record.1 = none := by
      intro record hrecord
      have hne : record.1 ≠ name := by
        intro hsame
        rw [← hsame] at hfresh
        exact hfresh (List.mem_map.2 ⟨record, hrecord, rfl⟩)
      rw [hm]
      exact (Table.get?_insert _ _ _ _).trans
        ((if_neg hne).trans (hnew record (List.mem_cons_of_mem _ hrecord)))
    obtain ⟨hcount, hrestored⟩ :=
      ih hrest (fun record hrecord => hvalid record (List.mem_cons_of_mem _ hrecord)) hnewAfter
        hroomAfter
    rw [hrecover]
    exact ⟨by rw [hcount, List.length_cons], hrestored.cons hnone hm hreserved⟩

/-- A new node has its whole budget left for reservations. -/
theorem Fresh.room {bytes : Nat} (h : Fresh n)
    (hcommit : n.host.canCommit n.config.maxCacheSize = true)
    (hle : bytes ≤ n.config.maxCacheSize.toNat) : n.Room bytes := by
  have htotals := h.empty.2
  refine ⟨by rw [htotals], by rw [htotals]; exact hcommit, ?_⟩
  rw [htotals]
  show 0 + bytes ≤ n.config.maxCacheSize.toNat
  omega

/-- A new node restores everything that it finds, if there is room for it. -/
theorem Fresh.recover_restores (h : Fresh n)
    (hrecords : n.world.recover n.storage = (.ok records, n.world))
    (hnames : (records.map Prod.fst).Nodup)
    (hvalid : ∀ record ∈ records, PartitionName.Valid record.1)
    (hroom : n.Room (reservations records)) :
    n.recover.1 = .ok records.length ∧ n.Restored records n.recover.2 := by
  have hnew (record : Bytes × Metadata) (_ : record ∈ records) : n.find? record.1 = none := by
    rw [find?, h.empty.1]
    rfl
  obtain ⟨hcount, hrestored⟩ := recoverEach_restores records hnames hvalid hnew hroom
  have hrecover : n.recover = (.ok (recoverEach records n).1, (recoverEach records n).2) := by
    simp only [recover, hrecords]
  rw [hrecover]
  exact ⟨congrArg Except.ok hcount, hrestored⟩

-- ---------------------------------------------------------------------------
-- The records of a node
-- ---------------------------------------------------------------------------

/-- The configurations of the partitions that ask to be kept. -/
def keptRecords (n : Node) : List (Bytes × Metadata) :=
  n.persisted.map fun row => (row.1, row.2.metadata)

theorem mem_keptRecords :
    (name, metadata) ∈ n.keptRecords ↔ ∃ p, (name, p) ∈ n.persisted ∧ p.metadata = metadata := by
  rw [keptRecords, List.mem_map]
  constructor
  · rintro ⟨⟨other, p⟩, hrow, hrecord⟩
    obtain ⟨rfl, rfl⟩ := Prod.mk.inj hrecord
    exact ⟨p, hrow, rfl⟩
  · rintro ⟨p, hrow, rfl⟩
    exact ⟨(name, p), hrow, rfl⟩

theorem mem_keptRecords_iff : (name, metadata) ∈ n.keptRecords ↔ n.kept? name = some metadata := by
  simp only [mem_keptRecords, kept?_eq_some, mem_persisted, and_assoc]

theorem nodup_keptRecords (n : Node) : (n.keptRecords.map Prod.fst).Nodup := by
  have hnames : n.keptRecords.map Prod.fst = n.persisted.map Prod.fst := by
    simp only [keptRecords, List.map_map]
    rfl
  rw [hnames]
  exact n.partitions.nodup_keys.sublist (List.filter_sublist.map Prod.fst)

/-- The directory is found to hold the configurations that are to be kept, in some order. -/
theorem recover_perm (h : n.Mirrored) (hn : n.WellFormed) (hlegible : n.Legible) :
    (FileStore.recover n.world.directory).Perm n.keptRecords := by
  have hshows := h.mirrors.shows fun _ _ hkept => hlegible.kept hn hkept
  rw [List.perm_ext_iff_of_nodup (.of_map Prod.fst hshows.nodup_recover)
    (.of_map Prod.fst n.nodup_keptRecords)]
  rintro ⟨name, metadata⟩
  rw [hshows.mem_recover, mem_keptRecords_iff]

/-- They reserve no more than all partitions together. -/
theorem reservations_keptRecords_le (h : n.Backed) :
    reservations n.keptRecords ≤ n.totals.maxCacheSize.toNat := by
  have hsum := h.sum
  have hcovered := h.covered
  have hle := sumOf_filter_le (fun row => row.2.metadata.maxCacheSize.toNat)
    (fun row : Bytes × Partition => row.2.metadata.persisted) n.partitions.rows
  rw [reservations, keptRecords, sumOf_map]
  exact Nat.le_trans hle (Nat.le_trans (Nat.le_of_eq hsum.symm) hcovered)

-- ---------------------------------------------------------------------------
-- A run and the node after it
-- ---------------------------------------------------------------------------

/-- Whether a node can be built is decided by its budget and the memory of its host. -/
theorem build_eq_ok {config : Config} {host : HostMemory} {storage : Storage} {collects : Bool}
    {today : Instant} {world : World} :
    build config host (.ok storage) collects today world = .ok n ↔
      host.canCommit config.maxCacheSize = true ∧
        n = { config, host, storage, world, collects, today
              totals := { maxCacheSize := config.maxCacheSize } } := by
  unfold build
  split
  · next hrefused => simp [hrefused]
  · next hcommit => simp [hcommit, eq_comm]

/-- An empty directory is in step with the table of a new node. -/
theorem Fresh.mirrored (h : Fresh n) (hfiles : n.storage = .files)
    (hempty : n.world.directory.placements = .empty) : n.Mirrored := by
  have hinode (file : Bytes) : n.world.directory.inode? file = none := by
    rw [Directory.inode?, hempty]
    rfl
  have hkept (name : Bytes) : n.kept? name = none := by
    rw [kept?, find?, h.empty.1]
    rfl
  refine ⟨hfiles, fun name => ?_, fun file hfile => ?_, fun file => ?_⟩
  · rw [hinode, hkept]
    rfl
  · exact absurd (hinode file) hfile
  · intro hfolder
    rw [hinode] at hfolder
    cases hfolder

/-- What every run keeps that leaves only readable records behind. -/
structure Kept (n m : Node) : Prop where
  wellFormed : m.WellFormed
  backed : m.Backed
  mirrored : m.Mirrored
  legible : m.Legible
  premises : m.premises = n.premises

theorem Reaches.kept (hrun : Reaches (fun k op => (k.perform op).2.Legible) n m) (h : Fresh n)
    (hfiles : n.storage = .files) (hempty : n.world.directory.placements = .empty) :
    n.Kept m := by
  refine hrun.invariant (P := n.Kept) ?_ ?_
  · refine ⟨h.wellFormed, h.backed, h.mirrored hfiles hempty, ?_, rfl⟩
    rintro ⟨name, p⟩ hrow
    exact absurd (mem_persisted.1 hrow).1 h.not_find?
  · rintro k op ⟨hwf, hbacked, hmirrored, hlegible, hpremises⟩ hafter
    exact ⟨perform_wellFormed op hwf, perform_backed op hwf hbacked,
      perform_mirrored op hmirrored hwf hlegible, hafter,
      (perform_premises op hwf).trans hpremises⟩

/-- A node is built over an empty directory and performs operations, after each of which the
records of the partitions that ask to be kept can be read. Then another node is built with the same
configuration over the same host and the same directory, and recovers. It gets back the partitions
that asked to be kept at the end of the run, without entries and with the metadata they had, and
counts them; it has reserved what they need; and it has changed nothing around it. -/
theorem restart_restores {config : Config} {host : HostMemory} {collects collects' : Bool}
    {today today' : Instant} {world world' : World}
    (hbuild : build config host (.ok .files) collects today world = .ok n)
    (hempty : world.directory.placements = .empty)
    (hrun : Reaches (fun k op => (k.perform op).2.Legible) n m)
    (hdirectory : world'.directory = m.world.directory) :
    ∃ k, build config host (.ok .files) collects' today' world' = .ok k ∧
      k.recover.1 = .ok m.persisted.length ∧
      (∀ name q, k.recover.2.find? name = some q ↔
        ∃ p, (name, p) ∈ m.persisted ∧ q = .create name p.metadata config.limits) ∧
      k.recover.2.totals.reservedSize.toNat =
        sumOf (fun row => row.2.metadata.maxCacheSize.toNat) m.persisted ∧
      k.recover.2.world = world' := by
  have hfresh : Fresh n := ⟨_, _, _, _, _, _, hbuild⟩
  obtain ⟨hcommit, rfl⟩ := build_eq_ok.1 hbuild
  obtain ⟨hwf, hbacked, hmirrored, hlegible, hpremises⟩ := hrun.kept hfresh rfl hempty
  have hmax : m.totals.maxCacheSize = config.maxCacheSize :=
    congrArg (fun premises => premises.2.2.2) hpremises
  have hperm := recover_perm hmirrored hwf hlegible
  obtain ⟨k, hbuilt⟩ : ∃ k, build config host (.ok .files) collects' today' world' = .ok k :=
    ⟨_, build_eq_ok.2 ⟨hcommit, rfl⟩⟩
  have hnew : Fresh k := ⟨_, _, _, _, _, _, hbuilt⟩
  obtain ⟨-, hk⟩ := build_eq_ok.1 hbuilt
  have hrecords : k.world.recover k.storage =
      (.ok (FileStore.recover m.world.directory), k.world) := by
    rw [← hdirectory, hk]
    rfl
  have hnames : ((FileStore.recover m.world.directory).map Prod.fst).Nodup :=
    ((hperm.map Prod.fst).nodup_iff).2 m.nodup_keptRecords
  have hvalid (record : Bytes × Metadata) (hrecord : record ∈ FileStore.recover m.world.directory) :
      PartitionName.Valid record.1 :=
    (hlegible.kept hwf (mem_keptRecords_iff.1 (hperm.mem_iff.1 hrecord))).1
  -- the budget is the same, and nothing has been reserved of it yet
  have hroom : k.Room (reservations (FileStore.recover m.world.directory)) := by
    have hle := reservations_keptRecords_le hbacked
    rw [hmax, reservations, ← sumOf_perm hperm] at hle
    exact hnew.room (by rw [hk]; exact hcommit) (by rw [hk]; exact hle)
  obtain ⟨hcount, htable, hsum, hworld⟩ := hnew.recover_restores hrecords hnames hvalid hroom
  refine ⟨k, hbuilt, ?_, fun name q => ?_, ?_, hworld.trans (by rw [hk])⟩
  · rw [hcount, hperm.length_eq, keptRecords, List.length_map]
  · have hunknown : ¬ k.find? name = some q := hnew.not_find?
    rw [htable, or_iff_right hunknown, hk]
    constructor
    · rintro ⟨metadata, hrecord, hq⟩
      obtain ⟨p, hrow, rfl⟩ := mem_keptRecords.1 (hperm.mem_iff.1 hrecord)
      exact ⟨p, hrow, hq⟩
    · rintro ⟨p, hrow, hq⟩
      exact ⟨p.metadata, hperm.mem_iff.2 (mem_keptRecords.2 ⟨p, hrow, rfl⟩), hq⟩
  · rw [hsum, reservations, sumOf_perm hperm, keptRecords, sumOf_map, hnew.empty.2]
    exact Nat.zero_add _

-- ---------------------------------------------------------------------------
-- A run
-- ---------------------------------------------------------------------------

/-- Where only readable records are kept. -/
theorem Legible.of_subset (hreads : ∀ record ∈ records, ReadsBack record.1 record.2)
    (hsub : ∀ record ∈ n.keptRecords, record ∈ records) : n.Legible := by
  rintro ⟨name, p⟩ hrow
  exact hreads (name, p.metadata) (hsub _ (mem_keptRecords.2 ⟨p, hrow, rfl⟩))

/-- A node with a budget of a thousand bytes that keeps configurations in an empty directory. -/
def archive : Node where
  config := { maxCacheSize := 1000 }
  host := ⟨some 4000⟩
  storage := .files
  world := { draws := default }
  totals := { maxCacheSize := 1000 }
  today := (bare {}).today

/-- A partition before and after it gets a larger bound, and another one. -/
def archived : List (Bytes × Metadata) :=
  [ ([97], { createDate := (bare {}).today, maxCacheSize := 100, persisted := true }),
    ([97], { createDate := (bare {}).today, interval := 60, maxCacheSize := 300, persisted := true }),
    ([99], { createDate := (bare {}).today, persisted := true }) ]

/-- One partition is kept all the time and gets a larger bound, and one is created by a write and
asks to be kept with a bound that it does not get. Another one is kept, no longer kept, deleted,
and kept again, with a recovery on the way. -/
def keepings : List Operation :=
  let date := (bare {}).today
  [ .putPartition [97] { createDate := date, maxCacheSize := 100, persisted := true },
    .put .upsert [97] [107] [1, 2, 3] 1,
    .putPartition [99] { createDate := date, persisted := true },
    .put .upsert [98] [107] [4, 5] 2,
    .putPartition [98] { createDate := date, maxCacheSize := 950, persisted := true },
    .putPartition [97]
      { createDate := date, interval := 60, maxCacheSize := 300, persisted := true },
    .putPartition [99] { createDate := date },
    .recover,
    .deletePartition [99],
    .putPartition [99] { createDate := date, persisted := true } ]

theorem readsBack_archived : ∀ record ∈ archived, ReadsBack record.1 record.2 := by
  simp only [archived, List.forall_mem_cons]
  exact ⟨FileStore.readsBack rfl _, FileStore.readsBack rfl _, FileStore.readsBack rfl _, nofun⟩

theorem legible_keepings : Along (fun k op => (k.perform op).2.Legible) keepings archive := by
  have hkept : Along (fun k op => ∀ record ∈ (k.perform op).2.keptRecords, record ∈ archived)
      keepings archive := by decide +kernel
  exact hkept.imp fun k op hsub => .of_subset readsBack_archived hsub

/-- Two of the three partitions are restored, which reserve three hundred bytes. -/
theorem restart_restores_keepings :
    (performAll keepings archive).2.partitions.keys = [[97], [98], [99]] ∧
      ∃ k, build archive.config archive.host (.ok .files) true archive.today
          { draws := default, directory := (performAll keepings archive).2.world.directory } =
            .ok k ∧
        k.recover.1 = .ok 2 ∧
        (∀ name q, k.recover.2.find? name = some q ↔
          ∃ p, (name, p) ∈ (performAll keepings archive).2.persisted ∧
            q = .create name p.metadata archive.config.limits) ∧
        k.recover.2.totals.reservedSize.toNat = 300 ∧
        k.recover.2.world =
          { draws := default, directory := (performAll keepings archive).2.world.directory } := by
  obtain ⟨hkeys, hcount, hsum⟩ : (performAll keepings archive).2.partitions.keys =
      [[97], [98], [99]] ∧ (performAll keepings archive).2.persisted.length = 2 ∧
        sumOf (fun row => row.2.metadata.maxCacheSize.toNat)
          (performAll keepings archive).2.persisted = 300 := by decide +kernel
  have hbuild : build archive.config archive.host (.ok .files) false archive.today
      archive.world = .ok archive := rfl
  rw [← hcount, ← hsum]
  exact ⟨hkeys, restart_restores hbuild rfl (.performAll keepings .start legible_keepings) rfl⟩

end Node

end CacheNode

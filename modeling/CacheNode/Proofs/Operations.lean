import CacheNode.Proofs.Changes

/-!
# CacheNode — the operations of a node as changes

An operation on a node works on its partitions one after the other, and on each of them it is a
sequence of steps. The number of bytes that the node holds only falls on the way, except in the
write that ends an operation. So every node in between holds fewer bytes than a limit which the
node respects before and after the operation.

* `Node.changes_act`, `Node.changes_tryWrite` — from steps of a partition to changes of the node;
* `Node.Operation.Reconfigures` — the reconfigurations that an operation asks for and gets;
* `Node.perform_changes`, `Node.perform_rewatches` — every operation is a sequence of changes, or
  a sequence of changes of subscriptions.
-/

namespace CacheNode

namespace Site

/-- What works on a partition without ever adding bytes. Whether it can reset the activity counters
is told by `clears`. -/
def Waning {α : Type} (clears : Prop) (f : Site → α × Site) : Prop :=
  ∀ limit (s : Site), s.part.bytes < limit → s.Steps clears limit (f s).2

/-- What writes to a partition, or adds no bytes and says how much room it needs. -/
structure Writing {α : Type} (f : Site → Except CacheError (Admission α) × Site) : Prop where
  steps : ∀ clears limit (s : Site), s.part.bytes < limit → (f s).2.part.bytes < limit →
    s.Steps clears limit (f s).2
  waits : ∀ s bytes, (f s).1 = .ok (.needsRoom bytes) → (f s).2.part.bytes ≤ s.part.bytes

/-- Whatever its result is, a write leaves the partition's settings alone. -/
theorem Writing.settings {α : Type} {f : Site → Except CacheError (Admission α) × Site}
    (h : Writing f) (s : Site) : (f s).2.part.settings = s.part.settings := by
  have hsteps := h.steps False (s.part.bytes + (f s).2.part.bytes + 1) s (by omega) (by omega)
  exact hsteps.settings

theorem writing_writeMany (items : List (Bytes × Bytes)) (mode : PutMode) (now : Millis) :
    Writing fun s => s.writeMany items mode now where
  steps := fun _ _ _ _ hafter => steps_writeMany items mode now hafter
  waits := by
    intro s bytes h
    cases hplan : s.part.plan items mode now with
    | error err => simp [writeMany, hplan] at h
    | ok plan =>
      cases hgrow : s.grow (UInt64.ofNat (plan.newBytes - plan.oldBytes)) with
      | none => simp [writeMany, hplan, hgrow]
      | some grown => simp [writeMany, hplan, hgrow] at h

/-- A counter that needs room has not been created. -/
theorem createInteger_of_needsRoom {s : Site} {key : Bytes} {value : Int64} {now : Millis}
    {bytes : ByteCount} (h : (s.createInteger key value now).1 = .ok (.needsRoom bytes)) :
    (s.createInteger key value now).2 = s := by
  cases hgrow : s.grow (UInt64.ofNat (Entry.weight key (Entry.ofInteger value))) with
  | none => simp [createInteger, hgrow]
  | some grown => simp [createInteger, hgrow] at h

theorem writing_increment (key : Bytes) (delta : Int64) (now : Millis) :
    Writing fun s => s.increment key delta now where
  steps := fun _ _ _ hs hafter => steps_increment key delta now hs hafter
  waits := by
    intro s bytes h
    cases hkey : s.part.checkKey key with
    | error err => simp [increment, hkey] at h
    | ok _ =>
      cases huse : s.part.checkInUse with
      | error err => simp [increment, hkey, huse] at h
      | ok _ =>
        cases hget : s.part.entries.get? key with
        | none =>
          simp only [increment, hkey, huse, hget] at h ⊢
          have hsame := createInteger_of_needsRoom h
          exact Nat.le_of_eq (congrArg (fun t : Site => t.part.bytes) hsame)
        | some e =>
          by_cases hexp : e.isExpired (s.part.expiry now) = true
          · simp only [increment, hkey, huse, hget, hexp, if_true] at h ⊢
            have htaken := bytes_takeOut .expired hget
            rw [createInteger_of_needsRoom h]
            omega
          · cases hadd : e.increment delta with
            | error err => simp [increment, hkey, huse, hget, hexp, hadd] at h
            | ok sum => simp [increment, hkey, huse, hget, hexp, hadd] at h

end Site

namespace Node

variable {allows : Partition → Metadata → Prop} {clears : Bytes → Prop} {limit : Nat}
  {n m : Node} {name : Bytes} {p : Partition}

-- ---------------------------------------------------------------------------
-- From steps to changes
-- ---------------------------------------------------------------------------

/-- Steps of one partition are changes of the node. The other partitions hold the rest of the
bytes meanwhile. -/
theorem changes_settle {room : Nat} {s : Site} (hn : n.WellFormed) (hp : n.find? name = some p)
    (hroom : n.bytesElsewhere name + room ≤ limit) (h : (n.site p).Steps (clears name) room s) :
    Changes allows clears limit n (n.settle s) := by
  have hnamed : p.name = name := (hn _ _ hp).named
  -- every step is taken at the node that the steps before it lead to
  induction h with
  | refl =>
    rw [settle_site hp hnamed]
    exact .refl
  | @tail t u steps step hu ih =>
    have ht : t.part.name = name := (Partition.name_eq steps.settings).trans hnamed
    have hname : u.part.name = t.part.name := Partition.name_eq step.settings
    have hfind : (n.settle t).find? name = some t.part := by rw [find?_settle, if_pos ht.symm]
    have hchange : Change allows clears (n.settle t) ((n.settle t).settle u) := .visit hfind step
    rw [settle_settle n hname] at hchange
    refine ih.tail hchange ?_
    rw [bytesHeld_settle, hname, ht]
    omega

/-- The bytes that a partition may hold beside the others. -/
theorem bytes_lt_room (hp : n.find? name = some p) (hbytes : n.bytesHeld < limit) :
    p.bytes < limit - n.bytesElsewhere name ∧
      n.bytesElsewhere name + (limit - n.bytesElsewhere name) ≤ limit := by
  have hheld := bytesHeld_eq hp
  omega

theorem changes_act {α : Type} {f : Site → α × Site} (hn : n.WellFormed)
    (hbytes : n.bytesHeld < limit) (hp : n.find? name = some p)
    (hf : Site.Waning (clears name) f) :
    Changes allows clears limit n (n.act p f).2 := by
  obtain ⟨hroom, hle⟩ := bytes_lt_room hp hbytes
  exact changes_settle hn hp hle (hf _ (n.site p) hroom)

theorem changes_visit {α : Type} {f : Site → α × Site} (acted : α × Node) (hn : n.WellFormed)
    (hbytes : n.bytesHeld < limit) (hf : Site.Waning (clears name) f)
    (h : n.visit name f = some acted) :
    Changes allows clears limit n acted.2 := by
  obtain ⟨p, hp, rfl⟩ := Option.map_eq_some_iff.1 h
  exact changes_act hn hbytes hp hf

theorem find?_of_existing (h : n.existing name = .ok p) :
    PartitionName.Valid name ∧ n.find? name = some p := by
  unfold existing at h
  split at h
  · cases h
  · next hname =>
    split at h
    · next q hq =>
      cases h
      exact ⟨hname, hq⟩
    · cases h

theorem changes_onExisting {α : Type} {f : Site → Except CacheError α × Site}
    (hn : n.WellFormed) (hbytes : n.bytesHeld < limit) (hf : Site.Waning (clears name) f) :
    Changes allows clears limit n (n.onExisting name f).2 := by
  unfold onExisting
  split
  · exact .refl
  · next p hp => exact changes_act hn hbytes (find?_of_existing hp).2 hf

/-- What every visit keeps is kept by visits to any number of partitions. -/
theorem forEach_induction {P : Node → Prop} {f : Site → Nat × Site} (names : List Bytes)
    (h : P n)
    (hvisit : ∀ m name acted, P m → m.visit name f = some acted → P acted.2) :
    P (forEach f names n).2 := by
  induction names generalizing n with
  | nil => exact h
  | cons name rest ih =>
    rw [forEach]
    split
    · exact ih h
    · next acted hacted => exact ih (hvisit n name acted h hacted)

theorem changes_forEach {f : Site → Nat × Site} (names : List Bytes) (hn : n.WellFormed)
    (hbytes : n.bytesHeld < limit) (hf : ∀ name, Site.Waning (clears name) f) :
    Changes allows clears limit n (forEach f names n).2 := by
  apply forEach_induction names .refl
  intro m name acted hm hacted
  exact hm.trans (changes_visit acted (hm.wellFormed hn) (hm.bytes_lt hbytes) (hf name) hacted)

-- ---------------------------------------------------------------------------
-- Writes and their rounds of eviction
-- ---------------------------------------------------------------------------

theorem changes_victimFor (p : Partition) (hbytes : n.bytesHeld < limit) :
    Changes allows clears limit n (n.victimFor p).2 := by
  simp only [victimFor]
  split
  · exact .refl
  · exact .single (.surround _ rfl) hbytes

theorem changes_evictFrom (name : Bytes) (bytes : ByteCount) (now : Millis) (hn : n.WellFormed)
    (hbytes : n.bytesHeld < limit) :
    Changes allows clears limit n (n.evictFrom name bytes now).2 := by
  unfold evictFrom
  split
  · exact .refl
  · next acted hacted =>
    refine changes_visit acted hn hbytes ?_ hacted
    exact fun _ s hs => Site.steps_evict (evictionCount s.part.tally bytes) now (.room bytes) hs

/-- What the draws for a victim and every eviction keep is kept by a round of eviction. -/
theorem makeRoom_induction {P : Node → Prop} {bytes : ByteCount} {now : Millis} (h : P n)
    (hdraw : ∀ p, P (n.victimFor p).2)
    (hevict : ∀ m victim, P m → P (m.evictFrom victim bytes now).2) :
    P (n.makeRoom name bytes now).2 := by
  cases hfind : n.find? name with
  | none => simp only [makeRoom, hfind]; exact h
  | some p =>
    -- the victim is tried first, and then perhaps the partition that is written to
    have hfreed := hevict _ (n.victimFor p).1 (hdraw p)
    have hown := hevict _ name hfreed
    by_cases hrefused : p.evicts = false ∨
        (if p.isBounded then p.bound else n.totals.unreservedBudget) < bytes
    · simp only [makeRoom, hfind, if_pos hrefused]
      exact h
    · simp only [makeRoom, hfind, if_neg hrefused]
      split
      · exact hfreed
      · split
        · exact hfreed
        · exact hown

theorem changes_makeRoom (name : Bytes) (bytes : ByteCount) (now : Millis) (hn : n.WellFormed)
    (hbytes : n.bytesHeld < limit) :
    Changes allows clears limit n (n.makeRoom name bytes now).2 := by
  apply makeRoom_induction .refl
  · exact fun p => changes_victimFor p hbytes
  · intro m victim hm
    exact hm.trans (changes_evictFrom victim bytes now (hm.wellFormed hn) (hm.bytes_lt hbytes))

/-- A write to one partition, whatever its result is. -/
theorem changes_write {α : Type} {write : Site → Except CacheError (Admission α) × Site}
    (hn : n.WellFormed) (hbytes : n.bytesHeld < limit) (hp : n.find? name = some p)
    (hwrite : Site.Writing write)
    (hafter : (n.settle (write (n.site p)).2).bytesHeld < limit) :
    Changes allows clears limit n (n.settle (write (n.site p)).2) := by
  obtain ⟨hroom, hle⟩ := bytes_lt_room hp hbytes
  have hname : (write (n.site p)).2.part.name = name :=
    (Partition.name_eq (hwrite.settings (n.site p))).trans (hn _ _ hp).named
  rw [bytesHeld_settle, hname] at hafter
  exact changes_settle hn hp hle (hwrite.steps _ _ (n.site p) hroom (by omega))

theorem changes_tryWrite {α : Type} {write : Site → Except CacheError (Admission α) × Site}
    (now : Millis) (tries : Nat) (needed : ByteCount) (hn : n.WellFormed)
    (hbytes : n.bytesHeld < limit) (hwrite : Site.Writing write)
    (hafter : (tryWrite name now write tries needed n).2.bytesHeld < limit) :
    Changes allows clears limit n (tryWrite name now write tries needed n).2 := by
  -- only the last attempt can add bytes, so the limit at the end covers the way to it
  induction tries generalizing needed n with
  | zero => exact .refl
  | succ tries ih =>
    cases hfind : n.find? name with
    | none => simp only [tryWrite, visit, hfind]; exact .refl
    | some p =>
      cases hresult : (write (n.site p)).1 with
      | error e =>
        simp only [tryWrite, visit, hfind, Option.map_some, act, hresult] at hafter ⊢
        exact changes_write hn hbytes hfind hwrite hafter
      | ok admission =>
        cases admission with
        | done a =>
          simp only [tryWrite, visit, hfind, Option.map_some, act, hresult] at hafter ⊢
          exact changes_write hn hbytes hfind hwrite hafter
        | needsRoom bytes =>
          simp only [tryWrite, visit, hfind, Option.map_some, act, hresult] at hafter ⊢
          -- the refused write has added nothing, so the limit still holds after it
          have hname : (write (n.site p)).2.part.name = name :=
            (Partition.name_eq (hwrite.settings (n.site p))).trans (hn _ _ hfind).named
          have hwaits : (write (n.site p)).2.part.bytes ≤ p.bytes := hwrite.waits _ _ hresult
          have hheld := bytesHeld_eq hfind
          have hsettled := bytesHeld_settle n (write (n.site p)).2
          rw [hname] at hsettled
          have hrefused : Changes allows clears limit n (n.settle (write (n.site p)).2) :=
            changes_write hn hbytes hfind hwrite (by omega)
          have hroom := hrefused.trans (changes_makeRoom name bytes now
            (hrefused.wellFormed hn) (hrefused.bytes_lt hbytes))
          split
          · next hfreed =>
            rw [if_pos hfreed] at hafter
            exact hroom.trans (ih bytes (hroom.wellFormed hn) (hroom.bytes_lt hbytes) hafter)
          · exact hroom

theorem changes_ensure (hbytes : n.bytesHeld < limit)
    (h : n.ensure name = .ok m) : Changes allows clears limit n m := by
  unfold ensure at h
  split at h
  · cases h
  · next hname =>
    split at h
    · cases h
      exact .refl
    · next hnone =>
      cases h
      -- nothing is reserved for default metadata
      have hfound : Change allows clears n
          { n with
            partitions :=
              n.partitions.insert name (.create name { createDate := n.today } n.config.limits) } :=
        .found hname hnone rfl
      refine .single hfound ?_
      rw [bytesHeld, Table.total_insert_of_none _ _ hnone]
      exact hbytes

/-- A write that creates its partition first if there is none. -/
theorem changes_accept {α : Type} {write : Site → Except CacheError (Admission α) × Site}
    (now : Millis) (hn : n.WellFormed) (hbytes : n.bytesHeld < limit)
    (hensure : n.ensure name = .ok m) (hwrite : Site.Writing write)
    (hafter : (m.accept name now write).2.bytesHeld < limit) :
    Changes allows clears limit n (m.accept name now write).2 := by
  have hensured : Changes allows clears limit n m := changes_ensure hbytes hensure
  exact hensured.trans (changes_tryWrite now attempts 0 (hensured.wellFormed hn)
    (hensured.bytes_lt hbytes) hwrite hafter)

theorem changes_putMany (items : List (Bytes × Bytes)) (mode : PutMode) (now : Millis)
    (hn : n.WellFormed) (hbytes : n.bytesHeld < limit)
    (hafter : (n.putMany name items mode now).2.bytesHeld < limit) :
    Changes allows clears limit n (n.putMany name items mode now).2 := by
  have hwrite := Site.writing_writeMany items mode now
  cases mode with
  | ifExists =>
    -- this condition creates no partition
    cases hexisting : n.existing name with
    | error e =>
      have hsame : (n.putMany name items .ifExists now).2 = n := by
        cases e <;> simp only [putMany, hexisting]
      rw [hsame]
      exact .refl
    | ok p =>
      simp only [putMany, hexisting] at hafter ⊢
      exact changes_tryWrite now attempts 0 hn hbytes hwrite hafter
  | upsert =>
    cases hensure : n.ensure name with
    | error e => simp only [putMany, hensure]; exact .refl
    | ok m =>
      simp only [putMany, hensure] at hafter ⊢
      exact changes_accept now hn hbytes hensure hwrite hafter
  | ifNotExists =>
    cases hensure : n.ensure name with
    | error e => simp only [putMany, hensure]; exact .refl
    | ok m =>
      simp only [putMany, hensure] at hafter ⊢
      exact changes_accept now hn hbytes hensure hwrite hafter

theorem changes_increment (key : Bytes) (delta : Int64) (now : Millis) (hn : n.WellFormed)
    (hbytes : n.bytesHeld < limit) (hafter : (n.increment name key delta now).2.bytesHeld < limit) :
    Changes allows clears limit n (n.increment name key delta now).2 := by
  cases hensure : n.ensure name with
  | error e => simp only [increment, hensure]; exact .refl
  | ok m =>
    simp only [increment, hensure] at hafter ⊢
    exact changes_accept now hn hbytes hensure (Site.writing_increment key delta now) hafter

-- ---------------------------------------------------------------------------
-- Configurations
-- ---------------------------------------------------------------------------

theorem hub_persist (w : World) (storage : Storage) (partition : Bytes) (metadata : Metadata) :
    (w.persist storage partition metadata).2.hub = w.hub := by
  cases storage <;> rfl

theorem hub_delete (w : World) (storage : Storage) (partition : Bytes) :
    (w.delete storage partition).2.hub = w.hub := by
  cases storage <;> rfl

theorem changes_createPartition (metadata : Metadata) (store : Bool)
    (hname : PartitionName.Valid name) (hnone : n.find? name = none)
    (hbytes : n.bytesHeld < limit) :
    Changes allows clears limit n (n.createPartition name metadata store).2 := by
  cases hreserve : n.reserve name metadata.maxCacheSize 0 with
  | error e => simp only [createPartition, hreserve]; exact .refl
  | ok totals =>
    simp only [createPartition, hreserve]
    generalize hstored : (if store && metadata.persisted then
      n.world.persist n.storage name metadata else (.ok (), n.world)) = stored
    have hhub : stored.2.hub = n.world.hub := by
      rw [← hstored]
      split
      · exact hub_persist _ _ _ _
      · rfl
    have hsurround : Changes allows clears limit n { n with world := stored.2 } :=
      .single (.surround _ hhub) hbytes
    split
    · -- the metadata could not be stored, and the reservation was given back
      rw [releaseReserved_of_reserve hreserve]
      exact hsurround
    · refine hsurround.tail (.found hname hnone hreserve) ?_
      rw [bytesHeld, Table.total_insert_of_none _ _ hnone]
      exact hbytes

/-- New metadata and new reservations add no bytes. -/
theorem bytesHeld_reconfigured (hp : n.find? name = some p) (hname : p.name = name)
    (metadata : Metadata) (totals : Totals) :
    (n.reconfigured p metadata totals).bytesHeld = n.bytesHeld :=
  bytesHeld_settle_of_eq (n := { n with totals }) hp hname rfl

theorem changes_requestCompaction (name : Bytes) (hbytes : n.bytesHeld < limit) :
    Changes allows clears limit n (n.requestCompaction name) := by
  unfold requestCompaction
  split
  · exact .single (.surround _ rfl) hbytes
  · exact .refl

theorem changes_reconfigure {metadata : Metadata} (hn : n.WellFormed)
    (hbytes : n.bytesHeld < limit) (hp : n.find? name = some p)
    (hallows : (n.reconfigure p metadata).1 = .ok () → allows p metadata) :
    Changes allows clears limit n (n.reconfigure p metadata).2 := by
  have hwf := hn _ _ hp
  cases hreserve : n.reserve p.name (satSub metadata.maxCacheSize p.bound)
      (if p.bound = 0 then p.tally.totalSize else 0) with
  | error e =>
    simp only [reconfigure, hwf.inUse, Bool.false_eq_true, if_false, hreserve]
    exact .refl
  | ok totals =>
    simp only [reconfigure, hwf.inUse, Bool.false_eq_true, if_false, hreserve] at hallows ⊢
    generalize hstored : (if (p.metadata.apply metadata).persisted then
      n.world.persist n.storage p.name (p.metadata.apply metadata)
      else if p.metadata.persisted then n.world.delete n.storage p.name
      else (.ok (), n.world)) = stored at hallows ⊢
    have hhub : stored.2.hub = n.world.hub := by
      rw [← hstored]
      split
      · exact hub_persist _ _ _ _
      · split
        · exact hub_delete _ _ _
        · rfl
    have hsurround : Changes allows clears limit n { n with world := stored.2 } :=
      .single (.surround _ hhub) hbytes
    split
    · -- the metadata could not be stored, and the reservation was given back
      rw [releaseReserved_of_reserve hreserve]
      exact hsurround
    · next hok =>
      have hallowed : allows p metadata := hallows (by rw [hok])
      have hreconfigured : Changes allows clears limit n
          (reconfigured { n with world := stored.2 } p metadata totals) := by
        refine hsurround.tail (.reconfigure hp hallowed hreserve) ?_
        rw [bytesHeld_reconfigured (n := { n with world := stored.2 }) hp hwf.named]
        exact hbytes
      -- the collector may be asked for a compaction afterwards
      have hrequested := hreconfigured.trans
        (changes_requestCompaction p.name (hreconfigured.bytes_lt hbytes))
      split
      · exact hrequested
      · exact hreconfigured

/-- Whether the partition with a name gets new metadata if that is asked for now. -/
def Regrants (n : Node) (name : Bytes) (p : Partition) (metadata : Metadata) : Prop :=
  n.find? name = some p ∧ (n.reconfigure p metadata).1 = .ok ()

/-- A record with a valid name either finds its partition or founds it, and the records that follow
go on from there. -/
theorem recoverEach_cons (metadata : Metadata) (hname : PartitionName.Valid name) (n : Node) :
    ∃ restored : Except CacheError Unit × Node,
      (∀ p, n.find? name = some p → restored = n.reconfigure p metadata) ∧
      (n.find? name = none → restored = n.createPartition name metadata false) ∧
      ∀ rest, (recoverEach ((name, metadata) :: rest) n).2 = (recoverEach rest restored.2).2 := by
  have hcheck : PartitionName.check name = .ok () := hname
  cases hfind : n.find? name with
  | some p =>
    refine ⟨n.reconfigure p metadata, ?_, by simp, fun rest => ?_⟩
    · rintro q ⟨⟩
      rfl
    · simp only [recoverEach, hcheck, hfind]
      split <;> rfl
  | none =>
    refine ⟨n.createPartition name metadata false, by simp, fun _ => rfl, fun rest => ?_⟩
    simp only [recoverEach, hcheck, hfind]
    split <;> rfl

theorem changes_recoverEach (records : List (Bytes × Metadata)) (hn : n.WellFormed)
    (hbytes : n.bytesHeld < limit)
    (hallows : ∀ before name metadata after p, records = before ++ (name, metadata) :: after →
      (recoverEach before n).2.Regrants name p metadata → allows p metadata) :
    Changes allows clears limit n (recoverEach records n).2 := by
  induction records generalizing n with
  | nil => exact .refl
  | cons record rest ih =>
    obtain ⟨name, metadata⟩ := record
    cases hname : PartitionName.check name with
    | error e =>
      -- the record is passed over, before any that follow it and after none
      have hskip (before : List (Bytes × Metadata)) :
          recoverEach ((name, metadata) :: before) n = recoverEach before n := by
        simp only [recoverEach, hname]
      rw [hskip]
      refine ih hn hbytes fun before other md after p hrest hregrants => ?_
      refine hallows ((name, metadata) :: before) other md after p (by rw [hrest]; rfl) ?_
      rwa [hskip]
    | ok _ =>
      obtain ⟨restored, hfound, hfounded, hlater⟩ := recoverEach_cons metadata hname n
      have hfirst : Changes allows clears limit n restored.2 := by
        cases hfind : n.find? name with
        | some p =>
          rw [hfound p hfind]
          refine changes_reconfigure hn hbytes hfind fun hok => ?_
          exact hallows [] name metadata rest p rfl ⟨hfind, hok⟩
        | none =>
          rw [hfounded hfind]
          exact changes_createPartition metadata false hname hfind hbytes
      rw [hlater]
      refine hfirst.trans (ih (hfirst.wellFormed hn) (hfirst.bytes_lt hbytes) ?_)
      intro before other md after p hrest hregrants
      refine hallows ((name, metadata) :: before) other md after p (by rw [hrest]; rfl) ?_
      rwa [hlater]

-- ---------------------------------------------------------------------------
-- Deletion
-- ---------------------------------------------------------------------------

/-- Emptying a partition does not look at whether it was deleted. -/
theorem clearEach_retired (rows : List (Bytes × Entry)) (s : Site) :
    Site.clearEach rows { s with part := { s.part with retired := true } } =
      { Site.clearEach rows s with
        part := { (Site.clearEach rows s).part with retired := true } } := by
  induction rows generalizing s with
  | nil => rfl
  | cons row rest ih => exact ih (s.takeOut row.1 row.2 .deleted)

theorem retire_eq (s : Site) :
    s.retire.2 = { s.flush.2 with part := { s.flush.2.part with retired := true } } := by
  simp only [Site.retire, Site.flush, clearEach_retired]
  rfl

theorem changes_deletion (hn : n.WellFormed) (hbytes : n.bytesHeld < limit)
    (hclears : clears name) :
    Changes allows clears limit n (n.deletion name).node := by
  cases hexisting : n.existing name with
  | error e => simp only [deletion, hexisting]; exact .refl
  | ok p =>
    obtain ⟨-, hp⟩ := find?_of_existing hexisting
    have hnamed : p.name = name := (hn _ _ hp).named
    have hpruned : Changes allows clears limit n (n.settle (n.site p).pruneWatches.2) := by
      refine .single (.prune hp) ?_
      rw [bytesHeld_settle_of_eq hp hnamed rfl]
      exact hbytes
    simp only [deletion, hexisting]
    split
    · -- somebody still watches
      exact hpruned
    · next hunwatched =>
      have hunwatched : (n.site p).pruneWatches.2.part.watches.predicates = [] :=
        List.length_eq_zero_iff.1 (Nat.eq_zero_of_not_pos hunwatched)
      generalize hsite : (n.site p).pruneWatches.2 = pruned at *
      have hpart : pruned.part.name = name := by rw [← hsite]; exact hnamed
      have hfind : (n.settle pruned).find? name = some pruned.part := by
        rw [find?_settle, if_pos hpart.symm]
      -- emptying the partition is a visit, after which it can be taken out of the table
      have hflush := Site.steps_flush hclears (Nat.lt_succ_self pruned.part.bytes)
      have hflushed : Changes allows clears limit n (n.settle pruned.flush.2) := by
        have hwaning : Site.Waning (clears name) Site.flush :=
          fun _ _ hs => Site.steps_flush hclears hs
        have hact : Changes allows clears limit (n.settle pruned)
            ((n.settle pruned).settle pruned.flush.2) :=
          changes_act (hpruned.wellFormed hn) (hpruned.bytes_lt hbytes) hfind hwaning
        rw [settle_settle n (Partition.name_eq hflush.settings)] at hact
        exact hpruned.trans hact
      have hname : pruned.flush.2.part.name = name :=
        (Partition.name_eq hflush.settings).trans hpart
      have hunwatched : pruned.flush.2.part.watches.predicates = [] :=
        List.sublist_nil.1 (hunwatched ▸ hflush.watches)
      have hfind : (n.settle pruned.flush.2).find? name = some pruned.flush.2.part := by
        rw [find?_settle, if_pos hname.symm]
      have hremove : Change allows clears (n.settle pruned.flush.2) _ :=
        .remove hfind (Site.entries_flush pruned) hunwatched
      have hgone : (n.settle pruned.flush.2).partitions.erase name = n.partitions.erase name := by
        rw [← hname]
        exact Table.erase_insert_self _ _ _
      rw [hgone] at hremove
      have hlt : n.bytesElsewhere name < limit := by
        have hheld := bytesHeld_eq hp
        omega
      have hremoved := hflushed.tail hremove hlt
      rw [retire_eq]
      split
      · exact hremoved.tail (.surround _ (hub_delete _ _ _)) hlt
      · exact hremoved

-- ---------------------------------------------------------------------------
-- The expiration scanner
-- ---------------------------------------------------------------------------

end Node

theorem Scanner.steps_scanRounds {clears : Prop} {limit : Nat} {s : Site} (samples : Nat)
    (now : Millis) (deadline : Fuse) (hs : s.part.bytes < limit) :
    s.Steps clears limit (scanRounds samples now deadline s).site := by
  fun_induction scanRounds samples now deadline s with
  | case1 => exact .refl
  | case2 deadline s sampled hsampled found left hfew =>
    have hfound : s.Steps clears limit found.2 := Site.steps_sampleExpired samples now hs
    exact hfound.trans (Site.steps_expire found.1 now (hfound.bytes_lt hs))
  | case3 deadline s sampled hsampled found left hmany late hlate =>
    have hfound : s.Steps clears limit found.2 := Site.steps_sampleExpired samples now hs
    exact hfound.trans (Site.steps_expire found.1 now (hfound.bytes_lt hs))
  | case4 deadline s sampled hsampled found left hmany late hlate ih =>
    have hfound : s.Steps clears limit found.2 := Site.steps_sampleExpired samples now hs
    have hleft : s.Steps clears limit left.2 :=
      hfound.trans (Site.steps_expire found.1 now (hfound.bytes_lt hs))
    exact hleft.trans (ih (hleft.bytes_lt hs))

namespace Node

variable {allows : Partition → Metadata → Prop} {clears : Bytes → Prop} {limit : Nat}
  {n m : Node} {name : Bytes} {p : Partition}

/-- What a run of the scanner adds to the changes made so far. -/
theorem changes_visitEach (samples : Nat) (now : Millis) (places : List (Bytes × Nat))
    (deadline cancel : Fuse) (progress : Scanner.Progress) (hn : n.WellFormed)
    (hbytes : n.bytesHeld < limit) (h : Changes allows clears limit n progress.node) :
    Changes allows clears limit n
      (Scanner.visitEach samples now places deadline cancel progress).node := by
  induction places generalizing deadline cancel progress with
  | nil => exact h
  | cons place rest ih =>
    obtain ⟨name, place⟩ := place
    simp only [Scanner.visitEach]
    split
    · -- cancelled
      exact h
    · split
      · -- out of time
        exact h
      · split
        · refine ih _ _ _ ?_
          exact h
        · next p hp =>
          split
          · refine ih _ _ _ ?_
            exact h
          · have hscanned : Changes allows clears limit progress.node
                (progress.node.act p fun s =>
                  ((), (Scanner.scanRounds samples now deadline.look.2 s).site)).2 :=
              changes_act (h.wellFormed hn) (h.bytes_lt hbytes) hp
                fun _ _ hs => Scanner.steps_scanRounds samples now _ hs
            refine ih _ _ _ ?_
            exact h.trans hscanned

theorem changes_scan (scanner : Scanner) (now : Millis) (deadline cancel : Fuse)
    (hn : n.WellFormed) (hbytes : n.bytesHeld < limit) :
    Changes allows clears limit n (scanner.run n now deadline cancel).2.2 := by
  simp only [Scanner.run]
  split
  · exact .refl
  · exact changes_visitEach _ now _ deadline cancel ⟨{}, scanner.cursor, n⟩ hn hbytes .refl

-- ---------------------------------------------------------------------------
-- All operations
-- ---------------------------------------------------------------------------

/-- Whether an operation is about subscriptions and channels alone. -/
def Operation.isSubscription : Operation → Bool
  | .openWatcher | .closeWatcher _ | .watch .. | .unwatch .. => true
  | .drain _ | .stopListening _ | .leave _ => true
  | _ => false

/-- The partitions whose activity counters an operation may reset. -/
def Operation.Clears (op : Operation) (name : Bytes) : Prop :=
  match op with
  | .flushPartition target | .deletePartition target => name = target
  | .flushAll => True
  | _ => False

/-- The reconfigurations that an operation asks for and gets: an existing partition, as it is at
that moment, and its new metadata. -/
def Operation.Reconfigures (n : Node) (op : Operation) (p : Partition) (metadata : Metadata) :
    Prop :=
  match op with
  | .putPartition name md => md = metadata ∧ n.Regrants name p metadata
  | .recover =>
    ∃ before name after, (n.world.recover n.storage).1 = .ok (before ++ (name, metadata) :: after) ∧
      (recoverEach before { n with world := (n.world.recover n.storage).2 }).2.Regrants name p
        metadata
  | _ => False

theorem hub_recover (w : World) (storage : Storage) : (w.recover storage).2.hub = w.hub := by
  cases storage <;> rfl

theorem changes_recover (hn : n.WellFormed) (hbytes : n.bytesHeld < limit) :
    Changes (Operation.recover.Reconfigures n) clears limit n n.recover.2 := by
  have hrecovered : Changes (Operation.recover.Reconfigures n) clears limit n
      { n with world := (n.world.recover n.storage).2 } :=
    .single (.surround _ (hub_recover _ _)) hbytes
  cases hrecords : (n.world.recover n.storage).1 with
  | error e =>
    simp only [recover, hrecords]
    exact hrecovered
  | ok records =>
    simp only [recover, hrecords]
    refine hrecovered.trans (changes_recoverEach records hn hbytes ?_)
    intro before name metadata after p hsplit hregrants
    exact ⟨before, name, after, by rw [hrecords, hsplit], hregrants⟩

theorem changes_putPartition (metadata : Metadata) (hn : n.WellFormed)
    (hbytes : n.bytesHeld < limit) :
    Changes ((Operation.putPartition name metadata).Reconfigures n) clears limit n
      (n.putPartition name metadata).2 := by
  unfold putPartition
  split
  · exact .refl
  · next hname =>
    split
    · next p hp => exact changes_reconfigure hn hbytes hp fun hok => ⟨rfl, hp, hok⟩
    · next hnone => exact changes_createPartition metadata true hname hnone hbytes

/-- Every operation that is not about subscriptions is a sequence of changes. -/
theorem perform_changes (op : Operation) (hop : op.isSubscription = false) (hn : n.WellFormed)
    (hbytes : n.bytesHeld < limit) (hafter : (n.perform op).2.bytesHeld < limit) :
    Changes (op.Reconfigures n) op.Clears limit n (n.perform op).2 := by
  cases op with
  | get name key now =>
    simp only [perform, answer, get]
    split
    · exact .refl
    · split
      · exact .refl
      · split
        · exact .refl
        · next acted hacted =>
          have hget (clears : Prop) : Site.Waning clears (·.get key now true true) :=
            fun _ _ hs => Site.steps_get key now true true hs
          exact changes_visit acted hn hbytes (hget _) hacted
  | getMany name keys now =>
    simp only [perform, answer, getMany]
    split
    · exact .refl
    · split
      · exact .refl
      · next acted hacted =>
        have hget (clears : Prop) : Site.Waning clears (·.getMany keys now) :=
          fun _ _ hs => Site.steps_getMany keys now hs
        exact changes_visit acted hn hbytes (hget _) hacted
  | put mode name key value now => exact changes_putMany _ mode now hn hbytes hafter
  | putMany name items mode now => exact changes_putMany items mode now hn hbytes hafter
  | delete name key now =>
    exact changes_onExisting hn hbytes fun _ _ hs => Site.steps_delete key now hs
  | deleteMany name keys now =>
    exact changes_onExisting hn hbytes fun _ _ hs => Site.steps_deleteMany keys now hs
  | touch name key now =>
    exact changes_onExisting hn hbytes fun _ _ hs => Site.steps_touch key now hs
  | ttl name key now =>
    exact changes_onExisting hn hbytes fun _ _ hs => Site.steps_ttl key now hs
  | increment name key delta now => exact changes_increment key delta now hn hbytes hafter
  | decrement name key delta now => exact changes_increment key (-delta) now hn hbytes hafter
  | putPartition name metadata => exact changes_putPartition metadata hn hbytes
  | deletePartition name => exact changes_deletion hn hbytes rfl
  | flushPartition name =>
    have hflush : Site.Waning ((Operation.flushPartition name).Clears name) fun s =>
        ((.ok s.flush.1, s.flush.2) : Except CacheError Nat × Site) :=
      fun _ _ hs => Site.steps_flush rfl hs
    exact changes_onExisting hn hbytes hflush
  | flushAll => exact changes_forEach _ hn hbytes fun _ _ _ hs => Site.steps_flush trivial hs
  | compact name now cancel =>
    have hcompact (clears : Prop) : Site.Waning clears fun s =>
        ((.ok (s.compact now cancel).1, (s.compact now cancel).2) :
          Except CacheError CompactionReport × Site) :=
      fun _ _ hs => Site.steps_compact now cancel hs
    exact changes_onExisting hn hbytes (hcompact _)
  | recover => exact changes_recover hn hbytes
  | scan scanner now deadline cancel => exact changes_scan scanner now deadline cancel hn hbytes
  | collectRequests => exact .single (.surround _ rfl) hbytes
  | scanPartitions pattern count => exact .refl
  | scanKeys name pattern count offset now => exact .refl
  | openWatcher => cases hop
  | closeWatcher ownerId => cases hop
  | watch owner watchId name key filter => cases hop
  | unwatch ownerId watchId name => cases hop
  | drain who => cases hop
  | stopListening who => cases hop
  | leave who => cases hop

/-- Every other operation is a sequence of changes of subscriptions. New predicates lead to the
subscriber that asked for them, and queues are emptied by those who read from them. -/
theorem perform_rewatches {known emptied : Subscriber → Prop} (op : Operation)
    (hop : op.isSubscription = true) (hn : n.WellFormed)
    (hknown : ∀ owner watchId name key filter,
      op = .watch owner watchId name key filter → known owner)
    (hemptied : ∀ who, op = .drain who ∨ op = .leave who → emptied who) :
    Rewatches known emptied n (n.perform op).2 := by
  cases op with
  | openWatcher => exact .tail .refl .subscribe
  | closeWatcher ownerId =>
    apply forEach_induction _ .refl
    intro m name acted hm hacted
    obtain ⟨p, hp, rfl⟩ := Option.map_eq_some_iff.1 hacted
    exact hm.tail (.discard hp _)
  | watch owner watchId name key filter =>
    have howner : known owner := hknown owner watchId name key filter rfl
    simp only [perform, answer, watch, onExisting]
    split
    · exact .refl
    · next p hp =>
      obtain ⟨-, hfind⟩ := find?_of_existing hp
      have huse : p.checkInUse = .ok () := Partition.checkInUse_of_inUse (hn _ _ hfind).inUse
      have hadd : Rewatch known emptied n _ :=
        .add hfind ⟨owner, watchId, name, key, filter⟩ howner
      simp only [act, Site.addWatch, show (n.site p).part.checkInUse = .ok () from huse]
      exact .tail .refl hadd
  | unwatch ownerId watchId name =>
    simp only [perform, answer, unwatch, onExisting]
    split
    · exact .refl
    · next p hp => exact .tail .refl (.discard (find?_of_existing hp).2 _)
  | drain who => exact .tail .refl (.drain who (hemptied who (.inl rfl)))
  | stopListening who => exact .tail .refl (.close who)
  | leave who => exact .tail .refl (.abandon who (hemptied who (.inr rfl)))
  | _ => cases hop

/-- Where it does not matter whose predicates and queues are concerned. -/
theorem perform_rewatches_of_any (op : Operation) (hop : op.isSubscription = true)
    (hn : n.WellFormed) :
    Rewatches (fun _ => True) (fun _ => True) n (n.perform op).2 :=
  perform_rewatches op hop hn (fun _ _ _ _ _ _ => trivial) fun _ _ => trivial

end Node

end CacheNode

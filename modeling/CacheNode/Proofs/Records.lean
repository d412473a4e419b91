import CacheNode.Storage.FileStore

/-!
# CacheNode — a directory of records

Which configurations are kept is a question of what the directory holds under the names of record
files: for each kept configuration the record of it, and otherwise nothing. A directory that
mirrors kept configurations in this way still does so after a record was written or removed, and
also after a record could not be written, when a temporary file may stay.

What recovery finds in such a directory are the kept configurations, each of them once, provided
that their records read back as what was written. For this other files may be there as well, as long
as they do not read as records.

* `Directory.write_cases`, `Directory.move_cases`, `Directory.remove_cases` — what changes do;
* `FileStore.persist_cases`, `FileStore.delete_cases` — how the two changes of the store go;
* `FileStore.Mirrors` — a directory holds the records of kept configurations, and no others;
* `FileStore.Mirrors.persist`, `FileStore.Mirrors.delete` — and still does after these;
* `FileStore.Shows` — a directory in which kept configurations are found;
* `FileStore.Shows.mem_recover`, `FileStore.Shows.nodup_recover` — what recovery finds.
-/

namespace CacheNode

namespace Directory

variable {d : Directory} {source target file : Bytes} {content : Bytes}

theorem inode?_place (d : Directory) (name : Bytes) (inode : Inode) (file : Bytes) :
    (d.place name inode).inode? file = if file = name then some inode else d.inode? file := by
  simp only [Directory.inode?, place, Table.get?_insert]
  split <;> rfl

theorem inode?_erase (d : Directory) (name file : Bytes) :
    ({ d with placements := d.placements.erase name } : Directory).inode? file =
      if file = name then none else d.inode? file := by
  simp only [Directory.inode?, Table.get?_erase]
  split <;> rfl

/-- Writing a file fails for a name that is too long, or because of a folder. -/
theorem write_cases (d : Directory) (target content : Bytes) :
    (d.write target content = .error .nameTooLong ∧ nameLimit < target.length) ∨
      (d.write target content = .error .isFolder ∧ d.inode? target = some .folder) ∨
      ∃ e, d.write target content = .ok e ∧ target.length ≤ nameLimit ∧
        ∀ file, e.inode? file = if file = target then some (.file content) else d.inode? file := by
  unfold write
  split
  · next hlong => exact .inl ⟨rfl, hlong⟩
  · next hshort =>
    refine .inr ?_
    split
    · next serial hfolder => exact .inl ⟨rfl, by rw [Directory.inode?, hfolder]; rfl⟩
    · next old serial hold =>
      refine .inr ⟨_, rfl, Nat.le_of_not_lt hshort, fun file => ?_⟩
      simp only [Directory.inode?, Table.get?_insert]
      split <;> rfl
    · exact .inr ⟨_, rfl, Nat.le_of_not_lt hshort, inode?_place d target _⟩

/-- Moving a file fails for the same reasons. -/
theorem move_cases (hsource : d.inode? source = some (.file content)) (target : Bytes) :
    (d.move source target = .error .nameTooLong ∧ nameLimit < target.length) ∨
      (d.move source target = .error .isFolder ∧ d.inode? target = some .folder) ∨
      ∃ e, d.move source target = .ok e ∧ target.length ≤ nameLimit ∧
        ∀ file, e.inode? file =
          if file = target then some (.file content)
          else if file = source then none else d.inode? file := by
  unfold move
  split
  · next hlong => exact .inl ⟨rfl, hlong⟩
  · next hshort =>
    refine .inr ?_
    rw [hsource]
    split
    · next hfolder => exact .inl ⟨rfl, hfolder⟩
    · next content' hsame _ =>
      cases hsame
      refine .inr ⟨_, rfl, Nat.le_of_not_lt hshort, fun file => ?_⟩
      rw [inode?_place, inode?_erase]
    · next hfolder => cases hfolder
    · next hnone => cases hnone

/-- Removing a file fails for the same reasons, and if there is none. -/
theorem remove_cases (d : Directory) (target : Bytes) :
    (d.remove target = .error .nameTooLong ∧ nameLimit < target.length) ∨
      (d.remove target = .error .isFolder ∧ d.inode? target = some .folder) ∨
      (d.remove target = .error .notFound ∧ d.inode? target = none) ∨
      ∃ e, d.remove target = .ok e ∧ d.inode? target ≠ none ∧
        ∀ file, e.inode? file = if file = target then none else d.inode? file := by
  unfold remove
  split
  · next hlong => exact .inl ⟨rfl, hlong⟩
  · refine .inr ?_
    split
    · next hfile => exact .inr (.inr ⟨_, rfl, by rw [hfile]; exact nofun, inode?_erase d target⟩)
    · next hfolder => exact .inl ⟨rfl, hfolder⟩
    · next hnone => exact .inr (.inl ⟨rfl, hnone⟩)

/-- The rows of a listing are the names with what they stand for. -/
theorem mem_listing {row : Bytes × Inode} : row ∈ d.listing ↔ d.inode? row.1 = some row.2 := by
  obtain ⟨name, inode⟩ := row
  simp only [listing, List.mem_map, List.mem_mergeSort, Prod.exists, Prod.mk.injEq,
    Table.mem_rows_iff, Directory.inode?, Option.map_eq_some_iff]
  constructor
  · rintro ⟨_, placement, hplaced, rfl, hinode⟩
    exact ⟨placement, hplaced, hinode⟩
  · rintro ⟨placement, hplaced, hinode⟩
    exact ⟨name, placement, hplaced, rfl, hinode⟩

/-- A listing names nothing twice. -/
theorem nodup_listing (d : Directory) : (d.listing.map Prod.fst).Nodup := by
  have hsame : d.listing.map Prod.fst =
      (d.placements.rows.mergeSort fun a b => b.2.serial ≤ a.2.serial).map Prod.fst := by
    simp only [listing, List.map_map]
    rfl
  rw [hsame, ((List.mergeSort_perm _ _).map Prod.fst).nodup_iff]
  exact d.placements.nodup_keys

end Directory

namespace FileStore

variable {d : Directory} {kept : Bytes → Option Metadata} {name other file : Bytes}
  {metadata : Metadata}

/-- What the file of a partition holds. -/
def written (name : Bytes) (metadata : Metadata) : Bytes :=
  Record.document ⟨Text.lossy name, metadata⟩

/-- The record of a partition reads back as what was written. -/
def ReadsBack (name : Bytes) (metadata : Metadata) : Prop :=
  Record.read? (written name metadata) = some ⟨Text.lossy name, metadata⟩

instance (name : Bytes) (metadata : Metadata) : Decidable (ReadsBack name metadata) :=
  inferInstanceAs (Decidable (_ = _))

theorem read?_written (h : ReadsBack name metadata) :
    Record.read? (written name metadata) = some ⟨Text.lossy name, metadata⟩ := h

/-- A directory holds the records of kept configurations, each in its partition's file, and the
files of other partitions are not there. There are no folders and no names that are too long. -/
structure Mirrors (d : Directory) (kept : Bytes → Option Metadata) : Prop where
  records : ∀ name, d.inode? (fileName name) =
    (kept name).map fun metadata => .file (written name metadata)
  short : ∀ file, d.inode? file ≠ none → file.length ≤ Directory.nameLimit
  plain : ∀ file, d.inode? file ≠ some .folder

/-- What keeps the record of a partition from being written: a name that is too long, or a
folder. -/
def Obstructed (d : Directory) (name : Bytes) : Prop :=
  Directory.nameLimit < (fileName name).length ∨
    d.inode? (temporaryName name) = some .folder ∨ d.inode? (fileName name) = some .folder

/-- From one directory to another only the files of one partition have changed. Its temporary file,
if it is new, is a plain one. -/
def SameElsewhere (name : Bytes) (d e : Directory) : Prop :=
  ∀ file, file ≠ fileName name → e.inode? file = d.inode? file ∨
    file = temporaryName name ∧ file.length ≤ Directory.nameLimit ∧ e.inode? file ≠ some .folder

/-- In a directory kept configurations are found: the record of each is in its partition's file, and
nothing else reads as a record. -/
structure Shows (d : Directory) (kept : Bytes → Option Metadata) : Prop where
  legible : ∀ name metadata, kept name = some metadata →
    PartitionName.Valid name ∧ ReadsBack name metadata
  records : ∀ name metadata, kept name = some metadata →
    d.inode? (fileName name) = some (.file (written name metadata))
  others  : ∀ file inode, d.inode? file = some inode →
    (∀ name, file = fileName name → kept name = none) → recordOf? (file, inode) = none

/-- Kept configurations, one of which was replaced or dropped. -/
def revise (kept : Bytes → Option Metadata) (name : Bytes) (next : Option Metadata) :
    Bytes → Option Metadata :=
  fun other => if other = name then next else kept other

-- ---------------------------------------------------------------------------
-- File names
-- ---------------------------------------------------------------------------

theorem fileName_inj : fileName name = fileName other ↔ name = other :=
  List.append_left_inj extension

theorem fileName_ne_temporaryName (name other : Bytes) : fileName name ≠ temporaryName other := by
  -- the last letters differ
  have hrecord : (fileName name).getLast? = some 110 := by
    rw [fileName, List.getLast?_append, show extension.getLast? = some 110 by decide]
    rfl
  have htemporary : (temporaryName other).getLast? = some 112 := by
    rw [temporaryName, List.getLast?_append,
      show (Bytes.ofText ".tmp").getLast? = some 112 by decide]
    rfl
  intro h
  rw [h, htemporary] at hrecord
  cases hrecord

/-- Record files are the files of partitions. -/
theorem eq_fileName_of_isRecordName (h : isRecordName file = true) :
    ∃ name, file = fileName name := by
  simp only [isRecordName, Bool.and_eq_true, decide_eq_true_eq] at h
  obtain ⟨name, hname⟩ := h.2
  exact ⟨name, hname.symm⟩

theorem isRecordName_fileName (h : name ≠ []) : isRecordName (fileName name) = true := by
  simp only [isRecordName, Bool.and_eq_true, decide_eq_true_eq]
  refine ⟨?_, List.suffix_append name extension⟩
  rw [fileName, List.length_append]
  have hpos := List.length_pos_iff.2 h
  omega

/-- A valid name is spelled by the text that is read from it. -/
theorem ofText_lossy (h : PartitionName.Valid name) : Bytes.ofText (Text.lossy name) = name := by
  obtain ⟨-, text, htext, -⟩ := PartitionName.valid_iff.1 h
  rw [Text.lossy_eq_of_utf8? htext]
  exact (Text.utf8?_eq_some_iff.1 htext).symm

-- ---------------------------------------------------------------------------
-- Changes of the store
-- ---------------------------------------------------------------------------

theorem length_temporaryName_lt (name : Bytes) :
    (temporaryName name).length < (fileName name).length := by
  rw [temporaryName, fileName, List.length_append, List.length_append,
    show (Bytes.ofText ".tmp").length = 4 by decide, show extension.length = 5 by decide]
  omega

/-- A record is written as a whole, or not at all and the files of other partitions stay. -/
theorem persist_cases (hname : PartitionName.Valid name) (d : Directory) (metadata : Metadata) :
    ((∃ err, (persist d name metadata).1 = .error err) ∧ Obstructed d name ∧
        (persist d name metadata).2.inode? (fileName name) = d.inode? (fileName name) ∧
        SameElsewhere name d (persist d name metadata).2) ∨
      ((persist d name metadata).1 = .ok () ∧
        (fileName name).length ≤ Directory.nameLimit ∧
        (persist d name metadata).2.inode? (fileName name) =
          some (.file (written name metadata)) ∧
        SameElsewhere name d (persist d name metadata).2) := by
  have hcheck : PartitionName.check name = .ok () := hname
  have hlonger := length_temporaryName_lt name
  unfold written
  rcases Directory.write_cases d (temporaryName name) (written name metadata) with
    ⟨hwrite, hlong⟩ | ⟨hwrite, hfolder⟩ | ⟨e, hwrite, hshort, hfiles⟩ <;> unfold written at hwrite
  · simp only [persist, hcheck, hwrite]
    exact .inl ⟨⟨_, rfl⟩, .inl (Nat.lt_trans hlong hlonger), trivial, fun _ _ => .inl rfl⟩
  · simp only [persist, hcheck, hwrite]
    exact .inl ⟨⟨_, rfl⟩, .inr (.inl hfolder), trivial, fun _ _ => .inl rfl⟩
  · -- the temporary file is there, and it is moved if the name of the record is free
    have hsource := hfiles (temporaryName name)
    rw [if_pos rfl] at hsource
    have hrecord := hfiles (fileName name)
    rw [if_neg (fileName_ne_temporaryName name name)] at hrecord
    have htemporary : SameElsewhere name d e := by
      intro file _
      rw [hfiles]
      split
      · next hsame => exact .inr ⟨hsame, hsame ▸ hshort, by simp⟩
      · exact .inl rfl
    rcases Directory.move_cases hsource (fileName name) with
      ⟨hmove, hlong⟩ | ⟨hmove, hfolder⟩ | ⟨f, hmove, hshort', hmoved⟩
    · simp only [persist, hcheck, hwrite, hmove]
      exact .inl ⟨⟨_, rfl⟩, .inl hlong, hrecord, htemporary⟩
    · simp only [persist, hcheck, hwrite, hmove]
      exact .inl ⟨⟨_, rfl⟩, .inr (.inr (hrecord.symm.trans hfolder)), hrecord, htemporary⟩
    · simp only [persist, hcheck, hwrite, hmove]
      refine .inr ⟨trivial, hshort', (hmoved _).trans (if_pos rfl), fun file hne => ?_⟩
      rw [hmoved, if_neg hne]
      split
      · next hsame => exact .inr ⟨hsame, hsame ▸ hshort, by simp⟩
      · next hother =>
        rw [hfiles, if_neg hother]
        exact .inl rfl

/-- A record is removed, or nothing changes: there is none, or its name is too long or that of a
folder. -/
theorem delete_cases (hname : PartitionName.Valid name) (d : Directory) :
    (∃ err, delete d name = (.error err, d) ∧
        (Directory.nameLimit < (fileName name).length ∨
          d.inode? (fileName name) = some .folder)) ∨
      (delete d name = (.ok (), d) ∧ d.inode? (fileName name) = none) ∨
      ∃ e, delete d name = (.ok (), e) ∧ d.inode? (fileName name) ≠ none ∧
        ∀ file, e.inode? file = if file = fileName name then none else d.inode? file := by
  have hcheck : PartitionName.check name = .ok () := hname
  rcases Directory.remove_cases d (fileName name) with
    ⟨hremove, hlong⟩ | ⟨hremove, hfolder⟩ | ⟨hremove, hmissing⟩ | ⟨e, hremove, hthere, hfiles⟩
  · exact .inl ⟨failed .nameTooLong, by simp only [delete, hcheck, hremove], .inl hlong⟩
  · exact .inl ⟨failed .isFolder, by simp only [delete, hcheck, hremove], .inr hfolder⟩
  · exact .inr (.inl ⟨by simp only [delete, hcheck, hremove], hmissing⟩)
  · exact .inr (.inr ⟨e, by simp only [delete, hcheck, hremove], hthere, hfiles⟩)

theorem revise_self (kept : Bytes → Option Metadata) (name : Bytes) :
    revise kept name (kept name) = kept := by
  funext other
  unfold revise
  split
  · next hsame => rw [hsame]
  · rfl

namespace Mirrors

theorem of_eq {more : Bytes → Option Metadata} (h : Mirrors d kept)
    (heq : ∀ name, more name = kept name) : Mirrors d more := by
  have hsame : more = kept := funext heq
  rwa [hsame]

/-- A change of the file of one partition, and perhaps of its temporary file. -/
theorem change {e : Directory} {next : Option Metadata} (h : Mirrors d kept)
    (hrecord : e.inode? (fileName name) = next.map fun metadata => .file (written name metadata))
    (hshort : next ≠ none → (fileName name).length ≤ Directory.nameLimit)
    (hfiles : SameElsewhere name d e) : Mirrors e (revise kept name next) where
  records := by
    intro other
    unfold revise
    split
    · next hsame =>
      subst hsame
      exact hrecord
    · next hne =>
      rcases hfiles (fileName other) (mt fileName_inj.1 hne) with hsame | ⟨htemporary, -, -⟩
      · rw [hsame]
        exact h.records other
      · exact absurd htemporary (fileName_ne_temporaryName other name)
  short := by
    intro file hfile
    by_cases hrow : file = fileName name
    · subst hrow
      refine hshort fun hnone => hfile ?_
      rw [hrecord, hnone]
      rfl
    · rcases hfiles file hrow with hsame | ⟨-, hshort', -⟩
      · exact h.short file (hsame ▸ hfile)
      · exact hshort'
  plain := by
    intro file
    by_cases hrow : file = fileName name
    · subst hrow
      rw [hrecord]
      cases next <;> simp
    · rcases hfiles file hrow with hsame | ⟨-, -, hplain⟩
      · rw [hsame]
        exact h.plain file
      · exact hplain

/-- The file of a kept configuration has a name that is short enough. -/
theorem short_of_kept (h : Mirrors d kept) (hkept : kept name ≠ none) :
    (fileName name).length ≤ Directory.nameLimit := by
  refine h.short _ ?_
  rw [h.records]
  simpa using hkept

/-- A record is written and mirrors what is kept from now on, or it is not and nothing is kept that
was not before. -/
theorem persist (h : Mirrors d kept) (hname : PartitionName.Valid name) (metadata : Metadata) :
    ((FileStore.persist d name metadata).1 = .ok () ∧
        Mirrors (FileStore.persist d name metadata).2 (revise kept name (some metadata))) ∨
      ∃ err, (FileStore.persist d name metadata).1 = .error err ∧
        Mirrors (FileStore.persist d name metadata).2 kept := by
  rcases persist_cases hname d metadata with
    ⟨⟨err, herr⟩, -, hrecord, hfiles⟩ | ⟨hok, hshort, hrecord, hfiles⟩
  · refine .inr ⟨err, herr, ?_⟩
    rw [← revise_self kept name]
    exact h.change (hrecord.trans (h.records name)) h.short_of_kept hfiles
  · exact .inl ⟨hok, h.change hrecord (fun _ => hshort) hfiles⟩

/-- Nothing is kept of a partition whose record was removed, or had none. -/
theorem delete (h : Mirrors d kept) (hname : PartitionName.Valid name) :
    Mirrors (FileStore.delete d name).2 (revise kept name none) := by
  rcases delete_cases hname d with ⟨err, hdelete, hlong | hfolder⟩ | ⟨hdelete, hmissing⟩ |
    ⟨e, hdelete, -, hfiles⟩
  · rw [hdelete]
    refine h.change ?_ (fun hnone => absurd rfl hnone) fun _ _ => .inl rfl
    -- no file has so long a name
    apply Classical.byContradiction
    intro hthere
    exact absurd hlong (Nat.not_lt.2 (h.short _ hthere))
  · exact absurd hfolder (h.plain (fileName name))
  · rw [hdelete]
    exact h.change hmissing (fun hnone => absurd rfl hnone) fun _ _ => .inl rfl
  · rw [hdelete]
    refine h.change ((hfiles _).trans (if_pos rfl)) (fun hnone => absurd rfl hnone) ?_
    intro file hrow
    exact .inl ((hfiles file).trans (if_neg hrow))

/-- The record of a kept configuration can be removed. -/
theorem delete_ok (h : Mirrors d kept) (hname : PartitionName.Valid name)
    (hkept : kept name ≠ none) : (FileStore.delete d name).1 = .ok () := by
  rcases delete_cases hname d with ⟨err, -, hlong | hfolder⟩ | ⟨hdelete, -⟩ | ⟨e, hdelete, -⟩
  · exact absurd hlong (Nat.not_lt.2 (h.short_of_kept hkept))
  · exact absurd hfolder (h.plain (fileName name))
  · rw [hdelete]
  · rw [hdelete]

/-- Where the records of kept configurations are, these are found, if they read back. -/
theorem shows (h : Mirrors d kept)
    (hkept : ∀ name metadata, kept name = some metadata →
      PartitionName.Valid name ∧ ReadsBack name metadata) : Shows d kept where
  legible := hkept
  records := by
    intro name metadata hmetadata
    rw [h.records, hmetadata]
    rfl
  others := by
    intro file inode hinode hnone
    unfold recordOf?
    split
    · split
      · next hfile =>
        -- a record file is the file of a partition, and these are there for kept ones only
        obtain ⟨name, rfl⟩ := eq_fileName_of_isRecordName hfile
        rw [h.records, hnone name rfl] at hinode
        cases hinode
      · rfl
    · rfl

end Mirrors

-- ---------------------------------------------------------------------------
-- Recovery
-- ---------------------------------------------------------------------------

/-- The record in a partition's file is the record of this partition. -/
theorem recordOf?_written (hvalid : PartitionName.Valid name) (hreads : ReadsBack name metadata) :
    recordOf? (fileName name, .file (written name metadata)) = some (name, metadata) := by
  have hnonempty : name ≠ [] := (PartitionName.valid_iff.1 hvalid).1
  simp only [recordOf?, isRecordName_fileName hnonempty, if_true, read?_written hreads,
    Option.map_some, ofText_lossy hvalid]

namespace Shows

/-- A row of the directory that reads as a record is the file of a kept configuration. -/
theorem recordOf?_eq_some (h : Shows d kept) {row : Bytes × Inode} (hrow : row ∈ d.listing) :
    recordOf? row = some (name, metadata) ↔
      row.1 = fileName name ∧ kept name = some metadata := by
  have hinode := Directory.mem_listing.1 hrow
  obtain ⟨file, inode⟩ := row
  change d.inode? file = some inode at hinode
  by_cases hkept : ∃ other found, file = fileName other ∧ kept other = some found
  · obtain ⟨other, found, hfile, hother⟩ := hkept
    obtain ⟨hvalid, hreads⟩ := h.legible other found hother
    have hthere := h.records other found hother
    rw [← hfile, hinode] at hthere
    rw [Option.some.inj hthere, hfile, recordOf?_written hvalid hreads]
    constructor
    · intro hsame
      obtain ⟨rfl, rfl⟩ := Prod.mk.inj (Option.some.inj hsame)
      exact ⟨rfl, hother⟩
    · rintro ⟨hname, hmetadata⟩
      obtain rfl := fileName_inj.1 hname
      rw [hother] at hmetadata
      rw [Option.some.inj hmetadata]
  · have hnone : recordOf? (file, inode) = none := by
      refine h.others file inode hinode fun other hfile => ?_
      cases hother : kept other with
      | none => rfl
      | some found => exact absurd ⟨other, found, hfile, hother⟩ hkept
    rw [hnone]
    constructor
    · exact nofun
    · rintro ⟨hfile, hmetadata⟩
      exact absurd ⟨name, metadata, hfile, hmetadata⟩ hkept

/-- Recovery finds the kept configurations. -/
theorem mem_recover (h : Shows d kept) :
    (name, metadata) ∈ FileStore.recover d ↔ kept name = some metadata := by
  rw [FileStore.recover, List.mem_mergeSort, List.mem_filterMap]
  constructor
  · rintro ⟨row, hrow, hrecord⟩
    exact ((h.recordOf?_eq_some hrow).1 hrecord).2
  · intro hmetadata
    have hrow : (fileName name, .file (written name metadata)) ∈ d.listing :=
      Directory.mem_listing.2 (h.records name metadata hmetadata)
    exact ⟨_, hrow, (h.recordOf?_eq_some hrow).2 ⟨rfl, hmetadata⟩⟩

/-- Recovery finds no partition twice. -/
theorem nodup_recover (h : Shows d kept) : ((FileStore.recover d).map Prod.fst).Nodup := by
  rw [FileStore.recover, ((List.mergeSort_perm _ _).map Prod.fst).nodup_iff, List.Nodup,
    List.pairwise_map, List.pairwise_filterMap]
  have hlisting := d.nodup_listing
  rw [List.Nodup, List.pairwise_map] at hlisting
  -- different files are the files of different partitions
  refine hlisting.imp_of_mem ?_
  rintro row other hrow hother hne ⟨name, metadata⟩ hrecord ⟨name', metadata'⟩ hrecord' hsame
  have hfile := ((h.recordOf?_eq_some hrow).1 hrecord).1
  have hfile' := ((h.recordOf?_eq_some hother).1 hrecord').1
  change name = name' at hsame
  exact hne (by rw [hfile, hfile', hsame])

end Shows

end FileStore

end CacheNode

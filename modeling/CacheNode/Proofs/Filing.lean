import CacheNode.Proofs.Settings

/-!
# CacheNode — files as a map

Whatever was written to the files of a directory and removed from them, recovery finds the
configurations that were written last and not removed since: the directory behaves as a map from
names to configurations. Other files may lie in it from the start, as long as they do not read as
records. They can even have the name of a record, or of the temporary file of one.

A name determines its two files, and no other name has them. The letters of a name that is accepted
keep both files inside the directory.

* `FileStore.Command`, `FileStore.performAll` — changes of the store in sequence;
* `FileStore.Shows.persist`, `FileStore.Shows.delete` — what a change does to what is found;
* `FileStore.stays_of_valid` — where the files of a partition are;
* `FileStore.records_form_a_map` — what is found after a sequence of changes.
-/

namespace CacheNode.FileStore

/-- A change of the store. -/
inductive Command where
  | persist (name : Bytes) (metadata : Metadata)
  | delete (name : Bytes)
deriving DecidableEq

namespace Command

/-- The partition that a change is about. -/
def name : Command → Bytes
  | .persist name _ | .delete name => name

/-- Makes a change in a directory, or fails. -/
def perform (d : Directory) : Command → Except CacheError Unit × Directory
  | .persist name metadata => FileStore.persist d name metadata
  | .delete name => FileStore.delete d name

/-- The record that a change writes, if it writes one, reads back. -/
def Legible : Command → Prop
  | .persist name metadata => ReadsBack name metadata
  | .delete _ => True

/-- What a change means for a map. -/
def revise (kept : Bytes → Option Metadata) : Command → Bytes → Option Metadata
  | .persist name metadata => FileStore.revise kept name (some metadata)
  | .delete name => FileStore.revise kept name none

end Command

/-- Makes changes one after the other. Returns those that succeeded, and the directory. -/
def performAll : List Command → Directory → List Command × Directory
  | [], d => ([], d)
  | command :: rest, d =>
    let step := command.perform d
    let later := performAll rest step.2
    (match step.1 with
      | .ok () => command :: later.1
      | .error _ => later.1,
      later.2)

/-- The map that changes lead to from an empty one. -/
def mapOf (commands : List Command) : Bytes → Option Metadata :=
  commands.foldl Command.revise fun _ => none

/-- A name of one entry of a directory. It leads into no other directory, and it is neither the name
that a directory has for itself nor the one that it has for its parent. -/
structure Stays (file : Bytes) : Prop where
  slash  : 0x2F ∉ file
  null   : 0x00 ∉ file
  self   : file ≠ Bytes.ofText "."
  parent : file ≠ Bytes.ofText ".."

variable {d e : Directory} {kept : Bytes → Option Metadata} {name other file : Bytes}
  {metadata : Metadata} {commands : List Command}

-- ---------------------------------------------------------------------------
-- The files of a partition
-- ---------------------------------------------------------------------------

theorem temporaryName_inj : temporaryName name = temporaryName other ↔ name = other :=
  List.append_left_inj (Bytes.ofText ".tmp")

theorem isRecordName_temporaryName (name : Bytes) : isRecordName (temporaryName name) = false := by
  apply Bool.eq_false_iff.2
  intro hrecord
  obtain ⟨other, hother⟩ := eq_fileName_of_isRecordName hrecord
  exact fileName_ne_temporaryName other name hother.symm

/-- A small byte of a valid name is a character of it, which is neither a control character nor
reserved. -/
theorem plain_of_mem {b : UInt8} (hname : PartitionName.Valid name) (hb : b ∈ name)
    (hsmall : b.toNat < 0x80) : ∃ c : Char, c.toNat = b.toNat ∧
      PartitionName.isControl c = false ∧ PartitionName.isReserved c = false := by
  obtain ⟨-, text, htext, hplain⟩ := PartitionName.valid_iff.1 hname
  rw [Text.utf8?_eq_some_iff.1 htext, Bytes.ofText_eq_flatMap, List.mem_flatMap] at hb
  obtain ⟨c, hc, hmem⟩ := hb
  simp only [PartitionName.isPlain, Bool.and_eq_true, Bool.not_eq_true', List.any_eq_false,
    Bool.or_eq_true, not_or, Bool.not_eq_true] at hplain
  exact ⟨c, Text.byte_of_mem hmem hsmall, hplain.2 c hc⟩

/-- The files of a partition stay in the directory. -/
theorem stays_of_valid (hname : PartitionName.Valid name) :
    Stays (fileName name) ∧ Stays (temporaryName name) := by
  have hslash : 0x2F ∉ name := by
    intro hmem
    obtain ⟨c, hc, -, hreserved⟩ := plain_of_mem hname hmem (by decide)
    have hslash : c = '/' := by rw [← Char.ofNat_toNat c, hc]; rfl
    rw [hslash] at hreserved
    cases hreserved
  have hnull : 0x00 ∉ name := by
    intro hmem
    obtain ⟨c, hc, hcontrol, -⟩ := plain_of_mem hname hmem (by decide)
    have hnull : c = Char.ofNat 0 := by rw [← Char.ofNat_toNat c, hc]; rfl
    rw [hnull] at hcontrol
    cases hcontrol
  have hextended {suffix : Bytes} (hlength : 2 < suffix.length) (hs : 0x2F ∉ suffix)
      (hn : 0x00 ∉ suffix) : Stays (name ++ suffix) := by
    have hlong : 2 < (name ++ suffix).length := by
      rw [List.length_append]
      omega
    refine ⟨?_, ?_, ?_, ?_⟩
    · rw [List.mem_append]
      exact not_or.2 ⟨hslash, hs⟩
    · rw [List.mem_append]
      exact not_or.2 ⟨hnull, hn⟩
    · intro hself
      rw [hself] at hlong
      exact absurd hlong (by decide)
    · intro hparent
      rw [hparent] at hlong
      exact absurd hlong (by decide)
  exact ⟨hextended (by decide) (by decide) (by decide),
    hextended (by decide) (by decide) (by decide)⟩

-- ---------------------------------------------------------------------------
-- One change
-- ---------------------------------------------------------------------------

/-- Nothing is found where nothing reads as a record. -/
theorem shows_nothing
    (h : ∀ file inode, d.inode? file = some inode → recordOf? (file, inode) = none) :
    Shows d fun _ => none where
  legible := nofun
  records := nofun
  others  := fun file inode hinode _ => h file inode hinode

theorem perform_of_not_valid (command : Command) (d : Directory)
    (h : ¬ PartitionName.Valid command.name) :
    ∃ err, command.perform d = (.error err, d) := by
  cases hcheck : PartitionName.check command.name with
  | ok _ => exact absurd hcheck h
  | error err =>
    refine ⟨err, ?_⟩
    cases command with
    | persist name metadata =>
      change PartitionName.check name = .error err at hcheck
      simp only [Command.perform, FileStore.persist, hcheck]
    | delete name =>
      change PartitionName.check name = .error err at hcheck
      simp only [Command.perform, FileStore.delete, hcheck]

namespace Shows

/-- The file of one partition holds something else than before, and no other record file does. -/
theorem change {next : Option Metadata} (h : Shows d kept)
    (hlegible : ∀ metadata, next = some metadata →
      PartitionName.Valid name ∧ ReadsBack name metadata)
    (hrecord : e.inode? (fileName name) = next.map fun metadata => .file (written name metadata))
    (hfiles : SameElsewhere name d e) : Shows e (FileStore.revise kept name next) where
  legible := by
    intro other metadata hother
    unfold FileStore.revise at hother
    split at hother
    · next hsame =>
      subst hsame
      exact hlegible metadata hother
    · exact h.legible other metadata hother
  records := by
    intro other metadata hother
    unfold FileStore.revise at hother
    split at hother
    · next hsame =>
      subst hsame
      rw [hrecord, hother]
      rfl
    · next hne =>
      rcases hfiles (fileName other) (mt fileName_inj.1 hne) with hsame | ⟨htemporary, -, -⟩
      · exact hsame.trans (h.records other metadata hother)
      · exact absurd htemporary (fileName_ne_temporaryName other name)
  others := by
    intro file inode hinode hnone
    by_cases hrow : file = fileName name
    · have hnext := hnone name hrow
      rw [FileStore.revise, if_pos rfl] at hnext
      rw [hrow, hrecord, hnext] at hinode
      cases hinode
    · rcases hfiles file hrow with hsame | ⟨rfl, -, -⟩
      · refine h.others file inode (hsame.symm.trans hinode) fun other hfile => ?_
        have hother := hnone other hfile
        rwa [FileStore.revise, if_neg fun heq => hrow (by rw [hfile, heq])] at hother
      · -- a temporary file is not even looked at
        simp only [recordOf?, isRecordName_temporaryName]
        split <;> rfl

/-- Other files than record files do not matter. -/
theorem same (h : Shows d kept)
    (hfiles : ∀ file, e.inode? file = d.inode? file ∨ isRecordName file = false) :
    Shows e kept where
  legible := h.legible
  records := by
    intro name metadata hmetadata
    rcases hfiles (fileName name) with hsame | hother
    · exact hsame.trans (h.records name metadata hmetadata)
    · have hnonempty := (PartitionName.valid_iff.1 (h.legible name metadata hmetadata).1).1
      rw [isRecordName_fileName hnonempty] at hother
      cases hother
  others := by
    intro file inode hinode hnone
    rcases hfiles file with hsame | hother
    · exact h.others file inode (hsame.symm.trans hinode) hnone
    · simp only [recordOf?, hother]
      split <;> rfl

/-- A change that succeeds changes what is found as it changes the map. One that fails leaves it. -/
theorem perform (h : Shows d kept) {command : Command} (hlegible : command.Legible) :
    ((command.perform d).1 = .ok () → Shows (command.perform d).2 (command.revise kept)) ∧
      ∀ err, (command.perform d).1 = .error err → Shows (command.perform d).2 kept := by
  by_cases hname : PartitionName.Valid command.name
  · cases command with
    | persist name metadata =>
      change PartitionName.Valid name at hname
      rw [Command.perform]
      rcases persist_cases hname d metadata with
        ⟨⟨err, herr⟩, -, hrecord, hfiles⟩ | ⟨hok, -, hrecord, hfiles⟩
      · rw [herr]
        refine ⟨nofun, fun _ _ => h.same fun file => ?_⟩
        by_cases hrow : file = fileName name
        · rw [hrow]
          exact .inl hrecord
        · rcases hfiles file hrow with hsame | ⟨rfl, -, -⟩
          · exact .inl hsame
          · exact .inr (isRecordName_temporaryName name)
      · rw [hok]
        refine ⟨fun _ => h.change ?_ hrecord hfiles, nofun⟩
        rintro _ ⟨⟩
        exact ⟨hname, hlegible⟩
    | delete name =>
      change PartitionName.Valid name at hname
      rw [Command.perform]
      rcases delete_cases hname d with ⟨err, hdelete, -⟩ | ⟨hdelete, hmissing⟩ |
        ⟨e, hdelete, -, hfiles⟩
      · rw [hdelete]
        exact ⟨nofun, fun _ _ => h⟩
      · rw [hdelete]
        exact ⟨fun _ => h.change nofun hmissing fun _ _ => .inl rfl, nofun⟩
      · rw [hdelete]
        refine ⟨fun _ => h.change nofun ((hfiles _).trans (if_pos rfl)) ?_, nofun⟩
        intro file hrow
        exact .inl ((hfiles file).trans (if_neg hrow))
  · obtain ⟨err, heq⟩ := perform_of_not_valid command d hname
    rw [heq]
    exact ⟨nofun, fun _ _ => h⟩

/-- After a sequence of changes that is found what the successful ones lead to. -/
theorem performAll (h : Shows d kept)
    (hlegible : ∀ command ∈ commands, command.Legible) :
    Shows (FileStore.performAll commands d).2
      ((FileStore.performAll commands d).1.foldl Command.revise kept) := by
  induction commands generalizing d kept with
  | nil => exact h
  | cons command rest ih =>
    obtain ⟨hfirst, hrest⟩ := List.forall_mem_cons.1 hlegible
    obtain ⟨hdone, hfailed⟩ := h.perform hfirst
    cases hresult : (command.perform d).1 with
    | ok _ =>
      simp only [FileStore.performAll, hresult]
      exact ih (hdone hresult) hrest
    | error err =>
      simp only [FileStore.performAll, hresult]
      exact ih (hfailed err hresult) hrest

end Shows

-- ---------------------------------------------------------------------------
-- Sequences of changes
-- ---------------------------------------------------------------------------

/-- Recovery lists partitions in ascending order. -/
theorem recover_ascending (h : Shows d kept) :
    ((recover d).map Prod.fst).Pairwise (· < ·) := by
  have hsorted : (recover d).Pairwise fun a b => a.1 ≤ b.1 := by
    refine (List.pairwise_mergeSort ?_ ?_ _).imp fun hle => ?_
    · intro a b c hab hbc
      rw [decide_eq_true_eq, Bytes.order_ne_gt] at hab hbc ⊢
      exact Std.le_trans hab hbc
    · intro a b
      rw [Bool.or_eq_true, decide_eq_true_eq, decide_eq_true_eq, Bytes.order_ne_gt,
        Bytes.order_ne_gt]
      exact Std.le_total
    · rwa [decide_eq_true_eq, Bytes.order_ne_gt] at hle
  have hdistinct := h.nodup_recover
  rw [List.Nodup, List.pairwise_map] at hdistinct
  rw [List.pairwise_map]
  exact (hsorted.and hdistinct).imp fun ⟨hle, hne⟩ => Std.lt_of_le_of_ne hle hne

/-- In a directory without folders a change succeeds if the name of the file is short enough, and
there are no folders afterwards. -/
theorem perform_of_no_folder (hplain : ∀ file, d.inode? file ≠ some .folder) (command : Command)
    (hname : PartitionName.Valid command.name)
    (hshort : (fileName command.name).length ≤ Directory.nameLimit) :
    (command.perform d).1 = .ok () ∧
      ∀ file, (command.perform d).2.inode? file ≠ some .folder := by
  cases command with
  | persist name metadata =>
    change PartitionName.Valid name at hname
    rw [Command.perform]
    rcases persist_cases hname d metadata with
      ⟨-, hlong | hfolder | hfolder, -⟩ | ⟨hok, -, hrecord, hfiles⟩
    · exact absurd hlong (Nat.not_lt.2 hshort)
    · exact absurd hfolder (hplain _)
    · exact absurd hfolder (hplain _)
    · refine ⟨hok, fun file => ?_⟩
      by_cases hrow : file = fileName name
      · rw [hrow, hrecord]
        exact nofun
      · rcases hfiles file hrow with hsame | ⟨-, -, hnew⟩
        · rw [hsame]
          exact hplain file
        · exact hnew
  | delete name =>
    change PartitionName.Valid name at hname
    rw [Command.perform]
    rcases delete_cases hname d with ⟨err, -, hlong | hfolder⟩ | ⟨hdelete, -⟩ |
      ⟨e, hdelete, -, hfiles⟩
    · exact absurd hlong (Nat.not_lt.2 hshort)
    · exact absurd hfolder (hplain _)
    · rw [hdelete]
      exact ⟨rfl, hplain⟩
    · rw [hdelete]
      refine ⟨rfl, fun file => ?_⟩
      rw [hfiles]
      split
      · exact nofun
      · exact hplain file

theorem performAll_of_no_folder (hplain : ∀ file, d.inode? file ≠ some .folder)
    (hcommands : ∀ command ∈ commands, PartitionName.Valid command.name ∧
      (fileName command.name).length ≤ Directory.nameLimit) :
    (performAll commands d).1 = commands := by
  induction commands generalizing d with
  | nil => rfl
  | cons command rest ih =>
    obtain ⟨⟨hname, hshort⟩, hrest⟩ := List.forall_mem_cons.1 hcommands
    obtain ⟨hok, hlater⟩ := perform_of_no_folder hplain command hname hshort
    simp only [performAll, hok]
    rw [ih hlater hrest]

/-- Nothing in a directory reads as a record, and some records are written and removed in it. Then
recovery finds what was written last under a name and not removed since, each name once and in
ascending order, given that the records read back. All changes succeed if their names are valid and
not too long, and no folder is in the way; it is no failure to remove what is not there. No two
partitions have a file in common, not even a temporary one, and all their files are in the
directory. -/
theorem records_form_a_map
    (hforeign : ∀ file inode, d.inode? file = some inode → recordOf? (file, inode) = none)
    (hlegible : ∀ command ∈ commands, command.Legible) :
    (∀ name metadata, (name, metadata) ∈ recover (performAll commands d).2 ↔
      mapOf (performAll commands d).1 name = some metadata) ∧
    ((recover (performAll commands d).2).map Prod.fst).Pairwise (· < ·) ∧
    ((∀ file, d.inode? file ≠ some .folder) →
      (∀ command ∈ commands, PartitionName.Valid command.name ∧
        (fileName command.name).length ≤ Directory.nameLimit) →
      (performAll commands d).1 = commands) ∧
    (∀ e name, PartitionName.Valid name → (fileName name).length ≤ Directory.nameLimit →
      e.inode? (fileName name) = none → delete e name = (.ok (), e)) ∧
    ∀ name, PartitionName.Valid name → Stays (fileName name) ∧ Stays (temporaryName name) ∧
      ∀ other, PartitionName.Valid other → name ≠ other →
        ∀ file ∈ [fileName name, temporaryName name],
          file ∉ [fileName other, temporaryName other] := by
  have hshows := (shows_nothing hforeign).performAll hlegible
  refine ⟨fun name metadata => hshows.mem_recover, recover_ascending hshows,
    performAll_of_no_folder, ?_, fun name hname => ⟨(stays_of_valid hname).1,
      (stays_of_valid hname).2, fun other _ hne => ?_⟩⟩
  · intro e name hname hshort hmissing
    rcases delete_cases hname e with ⟨err, -, hlong | hfolder⟩ | ⟨hdelete, -⟩ |
      ⟨f, -, hthere, -⟩
    · exact absurd hlong (Nat.not_lt.2 hshort)
    · rw [hmissing] at hfolder
      cases hfolder
    · exact hdelete
    · exact absurd hmissing hthere
  · intro file hfile hother
    simp only [List.mem_cons, List.not_mem_nil, or_false] at hfile hother
    rcases hfile with rfl | rfl <;> rcases hother with hsame | hsame
    · exact hne (fileName_inj.1 hsame)
    · exact fileName_ne_temporaryName name other hsame
    · exact fileName_ne_temporaryName other name hsame.symm
    · exact hne (temporaryName_inj.1 hsame)

/-- Settings that were made on a leap day, in its last microsecond. -/
def leapDay : Metadata where
  createDate := ⟨⟨2024, 2, 29, by decide⟩, 23, 59, 59, 999999000, by decide⟩

/-- A file that has the name of a record and is none, a temporary file that was left over, and two
records that have not the name of one. -/
def cluttered : Directory :=
  (((Directory.place {} (fileName [97]) (.file (Bytes.ofText "\x7bnot json"))).place
      (temporaryName [98]) (.file [])).place
      (Bytes.ofText "notes.txt") (.file (written [120] leapDay))).place
    (Bytes.ofText ".json") (.file (written [121] leapDay))

/-- Changes of partitions whose names look like the files of others. One of them
fails. -/
def changes : List Command :=
  [ .delete [98], .persist [97] leapDay,
    .persist (Bytes.ofText "a.json") { leapDay with interval := 5 },
    .persist (Bytes.ofText "..a.tmp") leapDay, .persist [98] leapDay,
    .persist [97] { leapDay with maxCacheSize := 18446744073709551615 },
    .persist (Bytes.ofText "a/b") leapDay, .delete [98] ]

/-- What was overwritten is found once, and what was removed is not found. -/
theorem records_form_a_map_cluttered :
    (performAll changes cluttered).1 = changes.take 6 ++ [.delete [98]] ∧
      ([97], { leapDay with maxCacheSize := 18446744073709551615 }) ∈
        recover (performAll changes cluttered).2 ∧
      (Bytes.ofText "a.json", { leapDay with interval := 5 }) ∈
        recover (performAll changes cluttered).2 ∧
      (∀ metadata, ([98], metadata) ∉ recover (performAll changes cluttered).2) ∧
      ((recover (performAll changes cluttered).2).map Prod.fst).Pairwise (· < ·) ∧
      delete cluttered [98] = (.ok (), cluttered) := by
  have hforeign : ∀ file inode, cluttered.inode? file = some inode →
      recordOf? (file, inode) = none := by
    have hrows : ∀ row ∈ cluttered.placements.rows, recordOf? (row.1, row.2.inode) = none := by
      decide +kernel
    intro file inode hinode
    obtain ⟨placement, hplaced, rfl⟩ := Option.map_eq_some_iff.1 hinode
    exact hrows (file, placement) (Table.mem_rows_iff.2 hplaced)
  have hlegible : ∀ command ∈ changes, command.Legible := by
    simp only [changes, List.forall_mem_cons]
    exact ⟨trivial, readsBack rfl _, readsBack rfl _, readsBack rfl _, readsBack rfl _,
      readsBack rfl _, readsBack rfl _, trivial, nofun⟩
  obtain ⟨hfound, hascending, -, hmissing, -⟩ := records_form_a_map hforeign hlegible
  have hdone : (performAll changes cluttered).1 = changes.take 6 ++ [.delete [98]] := by
    decide +kernel
  rw [hdone] at hfound
  refine ⟨hdone, (hfound _ _).2 (by decide +kernel), (hfound _ _).2 (by decide +kernel),
    fun metadata hmem => ?_, hascending,
    hmissing cluttered [98] (by decide) (by decide) (by decide)⟩
  have hkept := (hfound _ _).1 hmem
  rw [show mapOf (changes.take 6 ++ [.delete [98]]) [98] = none by decide +kernel] at hkept
  cases hkept

end CacheNode.FileStore

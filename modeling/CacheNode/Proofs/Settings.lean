import CacheNode.Metadata.Record
import CacheNode.Proofs.Instants
import CacheNode.Proofs.Layouts
import CacheNode.Proofs.Records

/-!
# CacheNode — written settings read back

The settings of a partition are written as an object, and read back as they were written. What is
read does not depend on the order of the members, on members with other names, or on how the
object is spelled: reading looks up each setting by its name.

* `Json.fields?_of_perm` — the values of the wanted members, in any order and among others;
* `Metadata.ofJson?_of_perm` — settings are found in such an object;
* `Metadata.read_written` — settings survive writing and reading;
* `FileStore.readsBack` — and so do the records of partitions.
-/

namespace CacheNode

-- ---------------------------------------------------------------------------
-- Members by name
-- ---------------------------------------------------------------------------

namespace Json

variable {fields : List (String × Json)} {all extra : List (Option String × Json)} {name : String}
  {v : Json}

/-- Members with known names. -/
def named (fields : List (String × Json)) : List (Option String × Json) :=
  fields.map fun field => (some field.1, field.2)

theorem members_append (name : String) (all extra : List (Option String × Json)) :
    members name (all ++ extra) = members name all ++ members name extra := by
  rw [members, List.filter_append, List.map_append]
  rfl

theorem members_cons (name : String) (member : Option String × Json)
    (rest : List (Option String × Json)) : members name (member :: rest) =
      if member.1 = some name then member.2 :: members name rest else members name rest := by
  simp only [members, List.filter_cons, decide_eq_true_eq]
  split <;> rfl

theorem members_eq_nil (h : ∀ member ∈ all, member.1 ≠ some name) : members name all = [] := by
  rw [members, List.map_eq_nil_iff, List.filter_eq_nil_iff]
  intro member hmember
  rw [decide_eq_true_eq]
  exact h member hmember

/-- A name that is used once has one value. -/
theorem members_named (hnames : (fields.map Prod.fst).Nodup) (h : (name, v) ∈ fields) :
    members name (named fields) = [v] := by
  induction fields with
  | nil => cases h
  | cons field rest ih =>
    obtain ⟨other, w⟩ := field
    obtain ⟨hfirst, hrest⟩ := List.nodup_cons.1 hnames
    rw [named, List.map_cons, members_cons]
    rcases List.mem_cons.1 h with heq | hmem
    · cases heq
      have hothers : members name (named rest) = [] := by
        refine members_eq_nil fun member hmember heq => hfirst ?_
        obtain ⟨field, hfield, rfl⟩ := List.mem_map.1 hmember
        exact List.mem_map.2 ⟨field, hfield, Option.some.inj heq⟩
      rw [if_pos rfl]
      exact congrArg (v :: ·) hothers
    · have hother : some other ≠ some name := by
        rintro ⟨⟩
        exact hfirst (List.mem_map.2 ⟨(name, v), hmem, rfl⟩)
      rw [if_neg hother]
      exact ih hrest hmem

/-- A member is found in any order, and among members with other names. -/
theorem member?_of_perm (hall : all.Perm (named fields ++ extra))
    (hnames : (fields.map Prod.fst).Nodup) (hextra : ∀ member ∈ extra, member.1 ≠ some name)
    (h : (name, v) ∈ fields) : member? name all = some v := by
  have hsame : (members name all).Perm (members name (named fields ++ extra)) :=
    (hall.filter _).map _
  rw [members_append, members_named hnames h, members_eq_nil hextra, List.append_nil] at hsame
  rw [member?, List.perm_singleton.1 hsame]

theorem mapM_some {f : String → Option Json} (h : ∀ field ∈ fields, f field.1 = some field.2) :
    (fields.map Prod.fst).mapM f = some (fields.map Prod.snd) := by
  induction fields with
  | nil => rfl
  | cons field rest ih =>
    obtain ⟨hfirst, hrest⟩ := List.forall_mem_cons.1 h
    simp only [List.map_cons, List.mapM_cons, hfirst, ih hrest, Option.pure_def,
      Option.bind_eq_bind, Option.bind_some]

/-- The wanted values are found in the order in which they are wanted. -/
theorem fields?_of_perm (hall : all.Perm (named fields ++ extra))
    (hnames : (fields.map Prod.fst).Nodup)
    (hextra : ∀ member ∈ extra, ∃ name, member.1 = some name ∧ name ∉ fields.map Prod.fst) :
    fields? (fields.map Prod.fst) (.object all) = some (fields.map Prod.snd) := by
  have hsome : all.all (·.1.isSome) = true := by
    refine List.all_eq_true.2 fun member hmember => ?_
    rcases List.mem_append.1 (hall.mem_iff.1 hmember) with hfield | hother
    · obtain ⟨field, -, rfl⟩ := List.mem_map.1 hfield
      rfl
    · obtain ⟨name, hname, -⟩ := hextra member hother
      rw [hname]
      rfl
  rw [fields?, if_pos hsome]
  refine mapM_some fun field hfield => member?_of_perm hall hnames ?_ hfield
  intro member hmember heq
  obtain ⟨name, hname, hunknown⟩ := hextra member hmember
  rw [hname] at heq
  exact hunknown (Option.some.inj heq ▸ List.mem_map_of_mem hfield)

theorem writable_named (h : ∀ field ∈ fields, Writable field.2) :
    Writable (.object (named fields)) := by
  refine .object ?_ ?_
  · intro member hmember
    obtain ⟨field, -, rfl⟩ := List.mem_map.1 hmember
    exact ⟨field.1, rfl⟩
  · intro member hmember
    obtain ⟨field, hfield, rfl⟩ := List.mem_map.1 hmember
    exact h field hfield

end Json

-- ---------------------------------------------------------------------------
-- Settings
-- ---------------------------------------------------------------------------

namespace Metadata

variable {m : Metadata} {all extra : List (Option String × Json)}

/-- The six settings, in writing order. -/
def fields (m : Metadata) : List (String × Json) :=
  [("create_date", .ofString (String.ofList m.createDate.write)),
    ("expiration_interval_ms", .ofWord m.interval),
    ("expiration_mode", .ofString m.mode.name),
    ("eviction_policy", .ofString m.policy.name),
    ("max_cache_size", .ofWord m.maxCacheSize),
    ("persisted", .bool m.persisted)]

theorem toJson_eq (m : Metadata) : m.toJson = .object (Json.named m.fields) := rfl

theorem writable_fields (m : Metadata) : ∀ field ∈ m.fields, Json.Writable field.2 := by
  simp only [fields, List.forall_mem_cons]
  exact ⟨.text _, Json.writable_toDigits _, .text _, .text _, Json.writable_toDigits _, .bool _,
    nofun⟩

theorem writable_toJson (m : Metadata) : Json.Writable m.toJson :=
  Json.writable_named m.writable_fields

/-- Settings are found in an object that has them in any order, among members with other names. -/
theorem ofJson?_of_perm (hrange : Instant.inRange m.createDate.date = true)
    (hall : all.Perm (Json.named m.fields ++ extra))
    (hextra : ∀ member ∈ extra, ∃ name, member.1 = some name ∧ name ∉ fieldNames) :
    ofJson? (.object all) = some m := by
  have hfields : Json.fields? fieldNames (.object all) = some (m.fields.map Prod.snd) :=
    Json.fields?_of_perm hall (show fieldNames.Nodup by decide) hextra
  have hdate : Instant.read? (String.ofList m.createDate.write).toList = some m.createDate := by
    rw [String.toList_ofList]
    exact Instant.read?_write hrange
  simp only [ofJson?, hfields, fields, List.map_cons, List.map_nil, Json.ofString, Json.ofWord,
    Json.text?, Json.word?, Json.variant?, Json.bool?, hdate, Decimal.word?_toDigits,
    ExpirationMode.ofName?_name, EvictionPolicy.ofName?_name, Option.bind_eq_bind,
    Option.bind_some]

theorem ofJson?_toJson (hrange : Instant.inRange m.createDate.date = true) :
    ofJson? m.toJson = some m := by
  have hall : (Json.named m.fields).Perm (Json.named m.fields ++ []) := by rw [List.append_nil]
  exact ofJson?_of_perm hrange hall nofun

end Metadata

-- ---------------------------------------------------------------------------
-- Records
-- ---------------------------------------------------------------------------

namespace Record

/-- The two members of a record, in writing order. -/
def fields (r : Record) : List (String × Json) :=
  [("partition", .ofString r.partition), ("metadata", r.metadata.toJson)]

theorem toJson_eq (r : Record) : r.toJson = .object (Json.named r.fields) := rfl

theorem writable_toJson (r : Record) : Json.Writable r.toJson := by
  rw [toJson_eq]
  refine Json.writable_named ?_
  simp only [fields, List.forall_mem_cons]
  exact ⟨.text _, r.metadata.writable_toJson, nofun⟩

/-- A record is read back from the file that holds it. -/
theorem read?_document {r : Record}
    (hrange : Instant.inRange r.metadata.createDate.date = true) : read? r.document = some r := by
  have hall : (Json.named r.fields).Perm (Json.named r.fields ++ []) := by rw [List.append_nil]
  have hfields : Json.fields? ["partition", "metadata"] r.toJson = some (r.fields.map Prod.snd) :=
    Json.fields?_of_perm hall (show ["partition", "metadata"].Nodup by decide) nofun
  rw [read?, document, Json.read?_pretty r.writable_toJson, Option.bind_some]
  simp only [ofJson?, hfields, fields, List.map_cons, List.map_nil, Json.ofString, Json.text?,
    Metadata.ofJson?_toJson hrange, Option.bind_eq_bind, Option.bind_some]

end Record

theorem FileStore.readsBack {metadata : Metadata}
    (hrange : Instant.inRange metadata.createDate.date = true) (name : Bytes) :
    FileStore.ReadsBack name metadata := Record.read?_document hrange

-- ---------------------------------------------------------------------------
-- Documents
-- ---------------------------------------------------------------------------

namespace Metadata

/-- Settings are read back from both layouts, whatever year of the calendar they were made in. They
are six members in a fixed order, the first of which is the create date; in years of four digits it
has parts of a fixed width and a fraction of no digits, three, six or nine. Settings are also read
from every other document that spells these members, in any order and with any others among them.
The records of partitions are read back as well. -/
theorem read_written (m : Metadata) (hrange : Instant.inRange m.createDate.date = true) :
    (∀ layout ∈ [Json.compact, Json.pretty],
      read (Bytes.ofText (String.ofList (layout m.toJson))) = .ok m) ∧
    (0 ≤ m.createDate.date.year → m.createDate.date.year ≤ 9999 →
      ∃ date time fraction, m.createDate.write = date ++ 'T' :: time ++ fraction ++ ['Z'] ∧
        date.length = 10 ∧ time.length = 8 ∧ fraction.length ∈ [0, 4, 7, 10]) ∧
    (∃ own, m.toJson = .object own ∧ own.map Prod.fst = fieldNames.map some ∧
      own.head? = some
        (some "create_date", .text (some (String.ofList m.createDate.write))) ∧
      ∀ extra all document,
        (∀ member ∈ extra, ∃ name, member.1 = some name ∧ name ∉ fieldNames) →
        all.Perm (own ++ extra) → Json.Document (.object all) document →
        read document = .ok m) ∧
    ∀ partition, Record.read? (Record.document ⟨partition, m⟩) = some ⟨partition, m⟩ := by
  have hwritten := ofJson?_toJson hrange
  refine ⟨?_, m.createDate.exists_write_eq, ⟨Json.named m.fields, rfl, rfl, rfl, ?_⟩,
    fun _ => Record.read?_document hrange⟩
  · intro layout hlayout
    simp only [List.mem_cons, List.not_mem_nil, or_false] at hlayout
    rcases hlayout with rfl | rfl
    · simp only [read, Json.read?_compact m.writable_toJson, Option.bind_some, hwritten]
    · simp only [read, Json.read?_pretty m.writable_toJson, Option.bind_some, hwritten]
  · intro extra all document hextra hall hdocument
    simp only [read, Json.read?_of_document hdocument, Option.bind_some,
      ofJson?_of_perm hrange hall hextra]

/-- Settings with the largest numbers, made in the last nanosecond of the year 9999. -/
def latest : Metadata where
  createDate := ⟨⟨9999, 12, 31, by decide⟩, 23, 59, 59, 999999999, by decide⟩
  interval := 18446744073709551615
  mode := .absolute
  policy := .noEviction
  maxCacheSize := 18446744073709551615
  persisted := true

/-- Members that mean nothing, one of which has settings among its own members. -/
def others : List (String × Json) :=
  [("", .null), ("Persisted", .array [.number ['0'], .object []]),
    ("nested", .object (Json.named latest.fields))]

/-- They are read back, also in reverse order behind the others. -/
theorem read_written_latest :
    read (Bytes.ofText (String.ofList latest.toJson.compact)) = .ok latest ∧
      read (Bytes.ofText (String.ofList
        (Json.pretty (.object (Json.named (latest.fields ++ others).reverse))))) = .ok latest ∧
      ∃ date time fraction, latest.createDate.write = date ++ 'T' :: time ++ fraction ++ ['Z'] ∧
        date.length = 10 ∧ time.length = 8 ∧ fraction.length ∈ [0, 4, 7, 10] := by
  obtain ⟨hlayouts, hdate, ⟨own, hown, -, -, hread⟩, -⟩ := read_written latest rfl
  cases hown
  have hothers : ∀ field ∈ others, Json.Writable field.2 := by
    simp only [others, List.forall_mem_cons]
    refine ⟨.null, .array ?_, latest.writable_toJson, nofun⟩
    simp only [List.forall_mem_cons]
    exact ⟨Json.writable_toDigits 0, .object nofun nofun, nofun⟩
  have hwritable : Json.Writable (.object (Json.named (latest.fields ++ others).reverse)) := by
    refine Json.writable_named fun field hfield => ?_
    rcases List.mem_append.1 (List.mem_reverse.1 hfield) with hown | hother
    · exact latest.writable_fields field hown
    · exact hothers field hother
  have hperm : (Json.named (latest.fields ++ others).reverse).Perm
      (Json.named latest.fields ++ Json.named others) := by
    rw [Json.named, Json.named, Json.named, ← List.map_append]
    exact (List.reverse_perm _).map _
  have hunknown : ∀ member ∈ Json.named others, ∃ name, member.1 = some name ∧
      name ∉ fieldNames := by
    simp only [Json.named, others, List.map_cons, List.forall_mem_cons]
    exact ⟨⟨_, rfl, by decide⟩, ⟨_, rfl, by decide⟩, ⟨_, rfl, by decide⟩, nofun⟩
  exact ⟨hlayouts _ List.mem_cons_self, hread _ _ _ hunknown hperm
    (Json.document_encode (Json.spells_prettyAt hwritable 0)), hdate (by decide) (by decide)⟩

end Metadata

end CacheNode

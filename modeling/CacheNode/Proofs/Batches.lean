import CacheNode.Proofs.Counts
import CacheNode.Proofs.Isolation

/-!
# CacheNode — batch writes that succeed

A batch counts each of its keys once, with the payload that comes last. Whatever the attempts and
rounds before, the attempt that succeeds writes the whole batch; so right afterwards each of its
keys is found and has not expired, even where it keeps the access time of the entry before it. What
is not in the batch can have been evicted and is otherwise as it was, and nothing is evicted if the
growth of the batch fits the budget from the start.

* `mem_lastOccurrences_append`, `card_lastOccurrences` — what is kept of a batch;
* `Site.get?_commit` — what is found under the keys of a batch that was written;
* `Node.putMany_written` — what holds after a batch write that succeeds.
-/

namespace CacheNode

/-- The last occurrence of a key is kept. -/
theorem mem_lastOccurrences_append {key value : Bytes} {before after : List (Bytes × Bytes)}
    (h : key ∉ after.map Prod.fst) :
    (key, value) ∈ lastOccurrences (before ++ (key, value) :: after) := by
  induction before with
  | nil =>
    have hlast : ¬ (after.any (·.1 = key)) = true := by
      intro hagain
      obtain ⟨item, hitem, hsame⟩ := List.any_eq_true.1 hagain
      have hkey : item.1 = key := by simpa using hsame
      exact h (hkey ▸ List.mem_map_of_mem hitem)
    rw [List.nil_append, lastOccurrences, if_neg hlast]
    exact List.mem_cons_self
  | cons first rest ih =>
    rw [List.cons_append, lastOccurrences]
    split
    · exact ih
    · exact List.mem_cons_of_mem _ ih

/-- So many items are kept of a batch as it has different keys. -/
theorem card_lastOccurrences (items : List (Bytes × Bytes)) :
    (lastOccurrences items).length = (items.map Prod.fst).toFinset.card := by
  have hkeys : ((lastOccurrences items).map Prod.fst).toFinset = (items.map Prod.fst).toFinset := by
    ext key
    simp only [List.mem_toFinset, List.mem_map]
    constructor
    · rintro ⟨item, hitem, rfl⟩
      exact ⟨item, Site.mem_lastOccurrences hitem, rfl⟩
    · rintro ⟨item, hitem, rfl⟩
      exact Node.exists_mem_lastOccurrences hitem
  rw [← hkeys, List.toFinset_card_of_nodup (Site.nodup_lastOccurrences items), List.length_map]

namespace Site

variable {s : Site} {key : Bytes} {now : Millis} {items : List (Bytes × Bytes)}

/-- Writing under one key does not matter to what is written under another. -/
theorem fresh_writeOne_of_ne (now : Millis) (s : Site) {item other : Bytes × Bytes}
    (hne : other.1 ≠ item.1) : fresh now (writeOne now s item) other = fresh now s other := by
  unfold fresh
  have hsettings := settings_writeOne now s item
  rw [expiry_eq hsettings, Partition.metadata_eq hsettings, entries_writeOne, Table.get?_insert,
    if_neg hne]

/-- Of a batch in which no key occurs twice every item is stored as the entries were before the
batch. -/
theorem get?_foldl_writeOne_of_mem {batch : List (Bytes × Bytes)} {item : Bytes × Bytes}
    (hkeys : (batch.map Prod.fst).Nodup) (hitem : item ∈ batch) :
    (batch.foldl (writeOne now) s).part.entries.get? item.1 = some (fresh now s item) := by
  induction batch generalizing s with
  | nil => cases hitem
  | cons first rest ih =>
    obtain ⟨hfirst, hrest⟩ := List.nodup_cons.1 hkeys
    rw [List.foldl_cons]
    rcases List.mem_cons.1 hitem with rfl | hlater
    · rw [get?_foldl_writeOne_of_notMem rest (writeOne now s item) hfirst, entries_writeOne,
        Table.get?_insert_self]
    · rw [ih hrest hlater, fresh_writeOne_of_ne]
      rintro heq
      exact hfirst (heq ▸ List.mem_map_of_mem hlater)

/-- A batch that was written is found with its last payloads. -/
theorem get?_commit {mode : PutMode} {plan : WritePlan} {grown : Site} {growth : ByteCount}
    {item : Bytes × Bytes} (hplan : s.part.plan items mode now = .ok plan)
    (hgrown : s.grow growth = some grown) (hitem : item ∈ lastOccurrences items) :
    (commit now plan grown).part.entries.get? item.1 = some (fresh now s item) := by
  obtain ⟨-, -, -, rfl⟩ := plan_eq_ok hplan
  obtain ⟨a, -, rfl⟩ := grow_eq_some hgrown
  exact get?_foldl_writeOne_of_mem (s := s.settle a) (nodup_lastOccurrences items) hitem

/-- A live entry is read. -/
theorem get_of_live {e : Entry} (he : s.part.entries.get? key = some e)
    (hlive : e.isExpired (s.part.expiry now) = false) (touch count : Bool) :
    (s.get key now touch count).1 = some e.payload := by
  simp only [get, he, hlive]
  rfl

end Site

namespace Node

/-- The bytes that a batch adds fit the budget of the partition that it is written to, or it adds
none. -/
def Fits (n : Node) (name : Bytes) (items : List (Bytes × Bytes)) : Prop :=
  (n.target name).growth items = 0 ∨
    ((n.site (n.target name)).usage (n.target name).bound).1.toNat +
        (n.target name).growth items ≤
      ((n.site (n.target name)).usage (n.target name).bound).2.toNat

variable {n m : Node} {name other : Bytes} {p q : Partition} {now : Millis} {mode : PutMode}
  {items : List (Bytes × Bytes)}

theorem site_entered (n : Node) (name : Bytes) (p : Partition) :
    (n.entered name).site p = n.site p := by
  unfold entered
  split <;> rfl

/-- A batch whose growth fits does not wait for room. -/
theorem writeMany_of_fits (hn : n.WellFormed) (hname : PartitionName.Valid name)
    (hfits : n.Fits name items) (bytes : ByteCount) :
    (((n.entered name).site (n.target name)).writeMany items mode now).1 ≠
      .ok (.needsRoom bytes) := by
  intro hneeds
  have hbound := (entered_wellFormed hn hname _ _ (find?_entered n name)).bound
  rw [site_entered] at hneeds
  obtain ⟨rfl, hnone⟩ := need_writeMany hneeds
  obtain ⟨hzero, hover, -⟩ := Site.grow_eq_none hnone
  have hle : (UInt64.ofNat ((n.target name).growth items)).toNat ≤ (n.target name).growth items :=
    Nat.mod_le _ _
  rcases hfits with hnothing | hroom
  · exact hzero (congrArg UInt64.ofNat hnothing)
  · rw [hbound] at hroom
    exact absurd hover (Nat.not_lt.2 (Nat.le_trans (Nat.add_le_add_left hle _) hroom))

/-- A write that succeeds ends with an attempt that does, at a node that has lost entries at
most. -/
theorem accept_eq_ok {α : Type} {keys : List Bytes} {a : α}
    {write : Site → Except CacheError (Admission α) × Site}
    (hwrite : Site.Attempt now keys write) (hn : n.WellFormed)
    (hok : (n.accept name now write).1 = .ok a) :
    ∃ m p, m.WellFormed ∧ n.Thinned m ∧ m.find? name = some p ∧
      (write (m.site p)).1 = .ok (.done a) ∧
      (n.accept name now write).2 = m.settle (write (m.site p)).2 := by
  obtain ⟨m, ⟨hm, hthin⟩, hends⟩ := accept_ends hwrite hn name
  generalize n.accept name now write = result at hends hok ⊢
  cases hends with
  | refused bytes => cases hok
  | missing hnone => cases hok
  | failed hp herr => cases hok
  | @done p b hp hb =>
    obtain rfl : b = a := Except.ok.inj hok
    exact ⟨m, p, hm, hthin, hp, hb, rfl⟩

/-- An attempt keeps every partition that is there, with all entries under other keys than those it
is about. -/
theorem outside_of_attempt {keys : List Bytes} {α : Type}
    {write : Site → Except CacheError (Admission α) × Site}
    (hwrite : Site.Attempt now keys write) (hn : n.WellFormed) (hp : n.find? name = some p)
    (hq : n.find? other = some q) :
    ∃ r, (n.settle (write (n.site p)).2).find? other = some r ∧
      ∀ key, other ≠ name ∨ key ∉ keys → r.entries.get? key = q.entries.get? key := by
  by_cases hsame : other = name
  · subst hsame
    rw [hp] at hq
    obtain rfl : p = q := Option.some.inj hq
    refine ⟨_, find?_attempt hwrite.toWriting hn hp, fun key hkey => ?_⟩
    exact hwrite.others (n.site p) key (hkey.resolve_left fun hne => hne rfl)
  · exact ⟨q, (find?_attempt_of_ne hwrite.toWriting hn hp hsame).trans hq, fun _ _ => rfl⟩

/-- A live entry is read from the partition that it is in. -/
theorem get_of_live {key : Bytes} {e : Entry} (hname : PartitionName.Valid name)
    (hkey : key ≠ []) (hp : n.find? name = some p) (he : p.entries.get? key = some e)
    (hlive : e.isExpired (p.expiry now) = false) :
    (n.get name key now).1 = .ok (some e.payload) := by
  have hread := Site.get_of_live (s := n.site p) he hlive true true
  simp only [get, show PartitionName.check name = .ok () from hname, if_neg hkey, visit, hp,
    Option.map_some, act, hread]

/-- A batch write that succeeds comes to a node that has lost entries at most and writes the batch
there. If the growth of the batch fits, it does so at once. -/
theorem putMany_eq_ok {count : Nat} (hn : n.WellFormed)
    (hok : (n.putMany name items mode now).1 = .ok count) :
    PartitionName.Valid name ∧
      Confined (n.Touches name) (n.entered name) (n.putMany name items mode now).2 ∧
      (∃ m p, m.WellFormed ∧ (n.entered name).Thinned m ∧ m.find? name = some p ∧
        ((m.site p).writeMany items mode now).1 = .ok (.done count) ∧
        (n.putMany name items mode now).2 = m.settle ((m.site p).writeMany items mode now).2) ∧
      (n.Fits name items → (n.putMany name items mode now).2 = (n.entered name).settle
        (((n.entered name).site (n.target name)).writeMany items mode now).2) := by
  rcases putMany_eq n name items mode now with ⟨err, -, heq⟩ | ⟨hname, heq⟩
  · rw [heq] at hok
    cases hok
  · rw [heq] at hok ⊢
    have hwrite := Site.attempt_writeMany items mode now
    obtain ⟨-, hconfined⟩ := confined_accept now hwrite.toWriting hn hname
    have hended := accept_eq_ok hwrite (entered_wellFormed hn hname) hok
    refine ⟨hname, hconfined, hended, fun hfits => ?_⟩
    exact accept_of_not_needsRoom now (find?_entered n name)
      fun bytes => writeMany_of_fits hn hname hfits bytes

/-- After a batch was written the last occurrence of each key is there, and it is read. -/
theorem get_of_written {count : Nat} {before after : List (Bytes × Bytes)} {key value : Bytes}
    (hm : m.WellFormed) (hname : PartitionName.Valid name) (hp : m.find? name = some p)
    (hdone : ((m.site p).writeMany items mode now).1 = .ok (.done count))
    (hitems : items = before ++ (key, value) :: after) (hlast : key ∉ after.map Prod.fst) :
    (∃ r e, (m.settle ((m.site p).writeMany items mode now).2).find? name = some r ∧
        r.entries.get? key = some e ∧ e.payload = value) ∧
      ((m.settle ((m.site p).writeMany items mode now).2).get name key now).1 =
        .ok (some value) := by
  have hwrite := (Site.attempt_writeMany items mode now).toWriting
  have hfind := find?_attempt hwrite hm hp
  obtain ⟨plan, grown, hplan, hgrown, -, hcommit⟩ := Site.writeMany_eq_done hdone
  obtain ⟨hchecked, -, -, -⟩ := Site.plan_eq_ok hplan
  have hkept : (key, value) ∈ lastOccurrences items := by
    rw [hitems]
    exact mem_lastOccurrences_append hlast
  have he := Site.get?_commit hplan hgrown hkept
  have hpayload := Site.payload_fresh now (m.site p) (key, value)
  have hkey : key ≠ [] := Partition.ne_nil_of_checkKey
    (Site.checkKey_of_checkItem (hchecked (key, value) (Site.mem_lastOccurrences hkept)))
  rw [← hcommit] at he
  refine ⟨⟨_, _, hfind, he, hpayload⟩, ?_⟩
  rw [get_of_live hname hkey hfind he, hpayload]
  rw [Site.expiry_eq (hwrite.settings (m.site p))]
  exact Site.isExpired_fresh now (m.site p) (key, value)

/-- A batch write that succeeds returns the number of its keys. Right after it each key has the
payload that comes last in the batch, and it is read. Every entry outside of the batch was there
before it, and all that were are still there if the growth of the batch fitted the budget at the
start. -/
theorem putMany_written {count : Nat} (hn : n.Reachable)
    (hok : (n.putMany name items mode now).1 = .ok count) :
    count = (items.map Prod.fst).toFinset.card ∧
      (∀ before key value after, items = before ++ (key, value) :: after →
        key ∉ after.map Prod.fst →
        (∃ r e, (n.putMany name items mode now).2.find? name = some r ∧
          r.entries.get? key = some e ∧ e.payload = value) ∧
        ((n.putMany name items mode now).2.get name key now).1 = .ok (some value)) ∧
      (∀ other r key e, (n.putMany name items mode now).2.find? other = some r →
        r.entries.get? key = some e → other ≠ name ∨ key ∉ items.map Prod.fst →
        ∃ q, n.find? other = some q ∧ q.entries.get? key = some e) ∧
      (n.Fits name items → ∀ other q key e, n.find? other = some q →
        q.entries.get? key = some e → other ≠ name ∨ key ∉ items.map Prod.fst →
        ∃ r, (n.putMany name items mode now).2.find? other = some r ∧
          r.entries.get? key = some e) := by
  have hwf := hn.wellFormed
  have hwrite := Site.attempt_writeMany items mode now
  obtain ⟨hname, hconfined, ⟨m, p, hm, hthin, hp, hdone, hafter⟩, hfirst⟩ :=
    putMany_eq_ok hwf hok
  refine ⟨?_, ?_, ?_, ?_⟩
  · obtain ⟨plan, grown, hplan, -, hcount, -⟩ := Site.writeMany_eq_done hdone
    obtain ⟨-, -, -, hbatch⟩ := Site.plan_eq_ok hplan
    rw [hcount, hbatch]
    exact card_lastOccurrences items
  · intro before key value after hitems hlast
    rw [hafter]
    exact get_of_written hm hname hp hdone hitems hlast
  · intro other r key e hr he hkey
    -- the rounds have thinned the partition, and the last attempt has left the rest of it alone
    obtain ⟨q, hq, -⟩ := hconfined.settings_of_find?' hr
    obtain ⟨o, ho, -, hentries⟩ := hthin other q hq
    obtain ⟨r', hr', houtside⟩ := outside_of_attempt hwrite hm hp ho
    rw [hafter, hr'] at hr
    obtain rfl : r' = r := Option.some.inj hr
    rw [houtside key hkey] at he
    have hold := hentries key e he
    exact ⟨q, find?_of_entered hq hold, hold⟩
  · intro hfits other q key e hq he hkey
    obtain ⟨r, hr, houtside⟩ := outside_of_attempt hwrite (entered_wellFormed hwf hname)
      (find?_entered n name) (find?_entered_of_find? hq)
    rw [← hfirst hfits] at hr
    exact ⟨r, hr, (houtside key hkey).trans he⟩

/-- A partition with a bound of twenty bytes whose entries expire a hundred milliseconds after they
were created. It holds eighteen bytes. -/
def filled : Node :=
  (performAll
    [ .putPartition [112]
        { createDate := (bare {}).today, interval := 100, mode := .absolute, maxCacheSize := 20 },
      .put .upsert [112] [97] [1, 2, 3] 1,
      .put .upsert [112] [98] [1, 2, 3, 4, 5, 6, 7] 2,
      .put .upsert [112] [99] [1, 2, 3, 4, 5] 3 ] (bare {})).2

/-- A batch that names one key twice. Before it fits, this very key and another one are evicted. -/
theorem putMany_written_filled :
    (filled.putMany [112] [([97], [9]), ([100], [1, 2, 3, 4]), ([97], [5, 6, 7])] .upsert 50).1 =
        .ok 2 ∧
      ((filled.putMany [112] [([97], [9]), ([100], [1, 2, 3, 4]), ([97], [5, 6, 7])] .upsert
        50).2.get [112] [97] 50).1 = .ok (some [5, 6, 7]) ∧
      ((filled.putMany [112] [([97], [9]), ([100], [1, 2, 3, 4]), ([97], [5, 6, 7])] .upsert
        50).2.get [112] [100] 50).1 = .ok (some [1, 2, 3, 4]) := by
  have hreached : filled.Reachable := (reachable_bare _).performAll _ (by decide)
  have hok : (filled.putMany [112] [([97], [9]), ([100], [1, 2, 3, 4]), ([97], [5, 6, 7])] .upsert
      50).1 = .ok 2 := by cbv
  obtain ⟨-, hwritten, -, -⟩ := putMany_written hreached hok
  refine ⟨hok, ?_, ?_⟩
  · exact (hwritten [([97], [9]), ([100], [1, 2, 3, 4])] [97] [5, 6, 7] [] rfl (by decide)).2
  · exact (hwritten [([97], [9])] [100] [1, 2, 3, 4] [([97], [5, 6, 7])] rfl (by decide)).2

end Node

end CacheNode

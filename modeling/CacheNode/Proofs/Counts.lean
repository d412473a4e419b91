import CacheNode.Proofs.Steps

/-!
# CacheNode — counters along a step

A partition counts its entries and their bytes, and the totals of the node count those of all
partitions. The counters are 64-bit words that are changed by hand wherever an entry changes, and
what is taken from them stops at zero. This module shows that they stay true: as long as all
partitions together hold fewer than 2^64 bytes, no sum wraps and no difference stops short.

The other partitions enter by three sums only, `Account.Others`.

* `Account.Weighs`, `Account.Counts` — the counters of bytes, or all of them, are true, with one
  lemma for each change of them;
* `Site.bytes_commit` — what a batch write does to the bytes of a partition;
* `Site.Step.balanced` — the counters stay true along every step.
-/

namespace CacheNode

namespace Account

/-- What the other partitions of the node have counted. -/
structure Others where
  items : Nat
  bytes : Nat
  /-- the bytes of those that draw from the shared part of the budget -/
  shared : Nat

/-- The counters say that a partition with the given bound, zero for none, holds so many entries
and bytes beside the others. -/
structure Counts (a : Account) (o : Others) (bound : ByteCount) (size held : Nat) : Prop where
  items    : a.tally.itemCount.toNat = size
  bytes    : a.tally.totalSize.toNat = held
  allItems : a.totals.itemCount.toNat = o.items + size
  allBytes : a.totals.totalSize.toNat = o.bytes + held
  shared   : a.totals.unreservedSize.toNat = o.shared + if bound = 0 then held else 0

/-- The counters of bytes alone say that a partition with the given bound, zero for none, holds so
many bytes beside the others. -/
structure Weighs (a : Account) (o : Others) (bound : ByteCount) (held : Nat) : Prop where
  bytes    : a.tally.totalSize.toNat = held
  allBytes : a.totals.totalSize.toNat = o.bytes + held
  shared   : a.totals.unreservedSize.toNat = o.shared + if bound = 0 then held else 0

theorem toNat_add_eq {a b : UInt64} {n : Nat} (h : a.toNat = n)
    (hfit : n + b.toNat < UInt64.size) : (a + b).toNat = n + b.toNat := by
  rw [UInt64.toNat_add, h, Nat.mod_eq_of_lt hfit]

/-- What it takes to admit more bytes, and what is counted then. -/
theorem tryGrow_cases {a b : Account} {delta bound : ByteCount}
    (h : a.tryGrow delta bound = some b) :
    (delta = 0 ∧ b = a) ∨
      (bound ≠ 0 ∧ satAdd a.tally.totalSize delta ≤ bound ∧ b = a.enlarge delta) ∨
      (bound = 0 ∧
        a.totals.unreservedSize.toNat + delta.toNat ≤ a.totals.unreservedBudget.toNat ∧
        b = ({ a with
          totals :=
            { a.totals with
              unreservedSize := a.totals.unreservedSize + delta } } : Account).enlarge delta) := by
  unfold tryGrow at h
  split at h
  · next hzero =>
    -- nothing is asked for
    cases h
    exact .inl ⟨hzero, rfl⟩
  · split at h
    · next hpos =>
      -- the partition's own bound decides
      have hbound : bound ≠ 0 := by
        rintro rfl
        exact absurd hpos (by decide)
      split at h
      · next hfits =>
        cases h
        exact .inr (.inl ⟨hbound, hfits, rfl⟩)
      · cases h
    · next hzero =>
      -- the shared part decides
      have hbound : bound = 0 := by
        apply UInt64.toNat.inj
        have hnot : ¬ 0 < bound.toNat := by simpa [UInt64.lt_iff_toNat_lt] using hzero
        simpa using hnot
      obtain ⟨totals, hadmitted, rfl⟩ := Option.map_eq_some_iff.1 h
      obtain ⟨hfits, rfl⟩ := Totals.tryGrowUnreserved_eq_some_iff.1 hadmitted
      exact .inr (.inr ⟨hbound, hfits, rfl⟩)

namespace Weighs

variable {a b : Account} {o : Others} {bound delta : ByteCount} {held : Nat}

theorem shrink (h : a.Weighs o bound (held + delta.toNat)) :
    (a.shrink delta bound).Weighs o bound held where
  bytes := by
    show (satSub a.tally.totalSize delta).toNat = held
    rw [toNat_satSub, h.bytes]
    omega
  allBytes := by
    show (satSub a.totals.totalSize delta).toNat = o.bytes + held
    rw [toNat_satSub, h.allBytes]
    omega
  shared := by
    have hshared := h.shared
    simp only [Account.shrink]
    split
    · next hzero =>
      rw [if_pos hzero] at hshared
      rw [toNat_satSub, hshared]
      omega
    · next hpos => rw [hshared, if_neg hpos]

theorem enlarge (h : a.Weighs o bound held)
    (hfit : o.bytes + held + delta.toNat < UInt64.size) :
    (a.enlarge delta).tally.totalSize.toNat = held + delta.toNat ∧
      (a.enlarge delta).totals.totalSize.toNat = o.bytes + (held + delta.toNat) := by
  constructor
  · exact toNat_add_eq h.bytes (by omega)
  · rw [← Nat.add_assoc]
    exact toNat_add_eq h.allBytes hfit

/-- Admitted bytes are counted on both sides, and as shared use where there is no bound. -/
theorem tryGrow (h : a.Weighs o bound held) (hgrow : a.tryGrow delta bound = some b)
    (hshared : o.shared ≤ o.bytes) (hfit : o.bytes + held + delta.toNat < UInt64.size) :
    b.Weighs o bound (held + delta.toNat) := by
  obtain ⟨htally, htotals⟩ := h.enlarge hfit
  have hsame := h.shared
  rcases tryGrow_cases hgrow with ⟨rfl, rfl⟩ | ⟨hbound, -, rfl⟩ | ⟨hbound, -, rfl⟩
  · exact h
  · -- bounded: the shared use stays as it is
    refine ⟨htally, htotals, ?_⟩
    rw [if_neg hbound] at hsame ⊢
    exact hsame
  · -- unbounded: the shared use grows along
    refine ⟨htally, htotals, ?_⟩
    rw [if_pos hbound] at hsame ⊢
    rw [← Nat.add_assoc]
    exact toNat_add_eq hsame (by omega)

end Weighs

/-- Admission changes counters of bytes only. -/
theorem itemCount_of_tryGrow {a b : Account} {delta bound : ByteCount}
    (h : a.tryGrow delta bound = some b) :
    b.tally.itemCount = a.tally.itemCount ∧ b.totals.itemCount = a.totals.itemCount := by
  rcases tryGrow_cases h with ⟨-, rfl⟩ | ⟨-, -, rfl⟩ | ⟨-, -, rfl⟩ <;> exact ⟨rfl, rfl⟩

namespace Counts

variable {a b : Account} {o : Others} {bound delta : ByteCount} {size held : Nat}

theorem weighs (h : a.Counts o bound size held) : a.Weighs o bound held :=
  ⟨h.bytes, h.allBytes, h.shared⟩

/-- What changes counters of bytes only may change them to other bytes. -/
theorem reweigh (h : a.Counts o bound size held) {held' : Nat} (hweighs : b.Weighs o bound held')
    (hsame : b.tally.itemCount = a.tally.itemCount ∧
      b.totals.itemCount = a.totals.itemCount) : b.Counts o bound size held' where
  items    := by rw [hsame.1, h.items]
  bytes    := hweighs.bytes
  allItems := by rw [hsame.2, h.allItems]
  allBytes := hweighs.allBytes
  shared   := hweighs.shared

theorem hit (h : a.Counts o bound size held) (now : Millis) :
    (a.hit now).Counts o bound size held :=
  ⟨h.items, h.bytes, h.allItems, h.allBytes, h.shared⟩

theorem miss (h : a.Counts o bound size held) : a.miss.Counts o bound size held :=
  ⟨h.items, h.bytes, h.allItems, h.allBytes, h.shared⟩

theorem reset (h : a.Counts o bound size held) : a.reset.Counts o bound size held :=
  ⟨h.items, h.bytes, h.allItems, h.allBytes, h.shared⟩

theorem insert (h : a.Counts o bound size held) (hfit : o.items + size + 1 < UInt64.size) :
    a.insert.Counts o bound (size + 1) held where
  items := by
    have hone : (1 : UInt64).toNat = 1 := rfl
    exact toNat_add_eq h.items (by omega)
  bytes := h.bytes
  allItems := by
    have hone : (1 : UInt64).toNat = 1 := rfl
    rw [← Nat.add_assoc]
    exact toNat_add_eq h.allItems hfit
  allBytes := h.allBytes
  shared := h.shared

theorem remove (h : a.Counts o bound (size + 1) held) (cause : Removal) :
    (a.remove cause).Counts o bound size held := by
  have hone : (1 : UInt64).toNat = 1 := rfl
  have hitems : (satSub a.tally.itemCount 1).toNat = size := by
    rw [toNat_satSub, h.items, hone]
    omega
  have hall : (satSub a.totals.itemCount 1).toNat = o.items + size := by
    rw [toNat_satSub, h.allItems, hone]
    omega
  cases cause <;> exact ⟨hitems, h.bytes, hall, h.allBytes, h.shared⟩

theorem shrink (h : a.Counts o bound size (held + delta.toNat)) :
    (a.shrink delta bound).Counts o bound size held :=
  h.reweigh h.weighs.shrink ⟨rfl, rfl⟩

theorem tryGrow (h : a.Counts o bound size held) (hgrow : a.tryGrow delta bound = some b)
    (hshared : o.shared ≤ o.bytes) (hfit : o.bytes + held + delta.toNat < UInt64.size) :
    b.Counts o bound size (held + delta.toNat) :=
  h.reweigh (h.weighs.tryGrow hgrow hshared hfit) (itemCount_of_tryGrow hgrow)

/-- A partition that becomes bounded takes its bytes out of the shared part, and one that becomes
unbounded brings them back. -/
theorem convert (h : a.Counts o bound size held) (next : ByteCount)
    (hfit : o.shared + held < UInt64.size) :
    (a.convert bound next).Counts o next size held := by
  have hshared := h.shared
  unfold Account.convert
  split
  · next hbounded =>
    -- it becomes bounded
    rw [if_pos hbounded.1] at hshared
    refine ⟨h.items, h.bytes, h.allItems, h.allBytes, ?_⟩
    rw [if_neg hbounded.2, toNat_satSub, hshared, h.bytes]
    omega
  · next hnot =>
    split
    · next hfreed =>
      -- it becomes unbounded
      rw [if_neg hfreed.1] at hshared
      refine ⟨h.items, h.bytes, h.allItems, h.allBytes, ?_⟩
      rw [if_pos hfreed.2, ← h.bytes]
      exact toNat_add_eq hshared (by rw [h.bytes]; omega)
    · next hkept =>
      -- both bounds are zero or neither is
      refine ⟨h.items, h.bytes, h.allItems, h.allBytes, ?_⟩
      by_cases hold : bound = 0 <;> by_cases hnew : next = 0 <;> simp_all

end Counts

end Account

namespace Site

-- ---------------------------------------------------------------------------
-- Bytes of a batch
-- ---------------------------------------------------------------------------

theorem bytesAt_writeOne_of_ne (now : Millis) (s : Site) (item : Bytes × Bytes) {key : Bytes}
    (hne : key ≠ item.1) : (writeOne now s item).part.bytesAt key = s.part.bytesAt key := by
  unfold Partition.bytesAt
  rw [entries_writeOne, Table.get?_insert, if_neg hne]

theorem bytes_writeOne (now : Millis) (s : Site) (item : Bytes × Bytes) :
    (writeOne now s item).part.bytes + s.part.bytesAt item.1 =
      s.part.bytes + Entry.weight item.1 item.2 := by
  have hinsert := Partition.bytes_insert s.part item.1 (fresh now s item)
  rw [payload_fresh] at hinsert
  have hbytes : (writeOne now s item).part.bytes =
      ({ s.part with entries := s.part.entries.insert item.1 (fresh now s item) } :
        Partition).bytes := by
    unfold Partition.bytes
    rw [entries_writeOne]
  rw [hbytes]
  exact hinsert

theorem sumOf_congr {α : Type} {f g : α → Nat} {xs : List α} (h : ∀ x ∈ xs, f x = g x) :
    sumOf f xs = sumOf g xs := by
  induction xs with
  | nil => rfl
  | cons x rest ih =>
    have hrest := ih fun y hy => h y (by simp [hy])
    rw [sumOf, sumOf, h x (by simp), hrest]

/-- Of a batch in which no key occurs twice every item replaces what was there before. -/
theorem bytes_foldl_writeOne (now : Millis) (batch : List (Bytes × Bytes)) (s : Site)
    (hkeys : (batch.map Prod.fst).Nodup) :
    (batch.foldl (writeOne now) s).part.bytes + sumOf (fun item => s.part.bytesAt item.1) batch =
      s.part.bytes + sumOf (fun item => Entry.weight item.1 item.2) batch := by
  induction batch generalizing s with
  | nil => rfl
  | cons item rest ih =>
    obtain ⟨hfresh, hrest⟩ := List.nodup_cons.1 hkeys
    have hlater := ih (writeOne now s item) hrest
    have hone := bytes_writeOne now s item
    -- the first item is written under a key that no later item has
    have hsame : sumOf (fun other => (writeOne now s item).part.bytesAt other.1) rest =
        sumOf (fun other => s.part.bytesAt other.1) rest := by
      apply sumOf_congr
      intro other hother
      apply bytesAt_writeOne_of_ne
      rintro heq
      exact hfresh (heq ▸ List.mem_map_of_mem hother)
    simp only [List.foldl_cons, sumOf]
    omega

/-- What is found under keys that are all different is no more than everything. -/
theorem sumOf_bytesAt_le (p : Partition) (batch : List (Bytes × Bytes))
    (hkeys : (batch.map Prod.fst).Nodup) :
    sumOf (fun item => p.bytesAt item.1) batch ≤ p.bytes := by
  induction batch generalizing p with
  | nil => exact Nat.zero_le _
  | cons item rest ih =>
    obtain ⟨hfresh, hrest⟩ := List.nodup_cons.1 hkeys
    have hlater := ih { p with entries := p.entries.erase item.1 } hrest
    have hone := Partition.bytes_eq_erase_add p item.1
    have hsame : sumOf (fun other =>
        ({ p with entries := p.entries.erase item.1 } : Partition).bytesAt other.1) rest =
        sumOf (fun other => p.bytesAt other.1) rest := by
      apply sumOf_congr
      intro other hother
      have hne : other.1 ≠ item.1 := by
        rintro heq
        exact hfresh (heq ▸ List.mem_map_of_mem hother)
      simp only [Partition.bytesAt, Table.get?_erase, if_neg hne]
    simp only [sumOf]
    omega

/-- Each key of a batch is kept once. -/
theorem nodup_lastOccurrences (items : List (Bytes × Bytes)) :
    ((lastOccurrences items).map Prod.fst).Nodup := by
  induction items with
  | nil => simp [lastOccurrences]
  | cons item rest ih =>
    rw [lastOccurrences]
    split
    · exact ih
    · next hlast =>
      rw [List.map_cons]
      refine List.nodup_cons.2 ⟨fun hmem => hlast ?_, ih⟩
      obtain ⟨other, hother, heq⟩ := List.mem_map.1 hmem
      exact List.any_eq_true.2 ⟨other, mem_lastOccurrences hother, by simpa using heq⟩

/-- A batch write exchanges the old bytes for the new ones, and the old ones were there. -/
theorem bytes_commit {s grown : Site} {items : List (Bytes × Bytes)} {mode : PutMode}
    {now : Millis} {plan : WritePlan} {growth : ByteCount}
    (hplan : s.part.plan items mode now = .ok plan) (hgrown : s.grow growth = some grown) :
    (commit now plan grown).part.bytes + plan.oldBytes = s.part.bytes + plan.newBytes ∧
      plan.oldBytes ≤ s.part.bytes := by
  obtain ⟨-, -, -, rfl⟩ := plan_eq_ok hplan
  obtain ⟨a, -, rfl⟩ := grow_eq_some hgrown
  have hkeys := nodup_lastOccurrences items
  exact ⟨bytes_foldl_writeOne now _ (s.settle a) hkeys, sumOf_bytesAt_le s.part _ hkeys⟩

-- ---------------------------------------------------------------------------
-- Counters along a step
-- ---------------------------------------------------------------------------

open Account (Others)

/-- The counters are true at a site beside the other partitions. -/
def Balanced (s : Site) (o : Others) : Prop :=
  s.account.Counts o s.part.metadata.maxCacheSize s.part.entries.size s.part.bytes

/-- The counters of bytes, at least, are true at a site beside the other partitions. -/
def Weighed (s : Site) (o : Others) : Prop :=
  s.account.Weighs o s.part.metadata.maxCacheSize s.part.bytes

variable {s t : Site} {o : Others}

theorem size_le_writeOne (now : Millis) (s : Site) (item : Bytes × Bytes) :
    s.part.entries.size ≤ (writeOne now s item).part.entries.size := by
  rw [entries_writeOne]
  cases hget : s.part.entries.get? item.1 with
  | none =>
    have hsize := Table.size_insert_of_none (fresh now s item) hget
    omega
  | some e =>
    have hsize := Table.size_insert_of_some (fresh now s item) hget
    omega

theorem size_le_foldl_writeOne (now : Millis) (batch : List (Bytes × Bytes)) (s : Site) :
    s.part.entries.size ≤ (batch.foldl (writeOne now) s).part.entries.size := by
  induction batch generalizing s with
  | nil => exact Nat.le_refl _
  | cons item rest ih => exact Nat.le_trans (size_le_writeOne now s item) (ih _)

/-- Writing an item counts its entry. Its bytes are counted before. -/
theorem counts_writeOne {bound : ByteCount} {held : Nat} (now : Millis) (item : Bytes × Bytes)
    (h : s.account.Counts o bound s.part.entries.size held)
    (hfit : o.items + (writeOne now s item).part.entries.size < UInt64.size) :
    (writeOne now s item).account.Counts o bound (writeOne now s item).part.entries.size
      held := by
  rw [entries_writeOne] at hfit ⊢
  cases hget : s.part.entries.get? item.1 with
  | none =>
    rw [Table.size_insert_of_none _ hget] at hfit ⊢
    simp only [writeOne, hget]
    exact h.insert (by omega)
  | some old =>
    have hsize := Table.size_erase hget
    rw [Table.size_insert_of_some _ hget] at hfit ⊢
    simp only [writeOne, hget]
    split
    · -- the stale entry is counted out before the new one is counted in
      rw [← hsize] at h ⊢
      exact (h.remove .expired).insert (by omega)
    · split <;> exact h

theorem counts_foldl_writeOne {bound : ByteCount} {held : Nat} (now : Millis)
    (batch : List (Bytes × Bytes)) (h : s.account.Counts o bound s.part.entries.size held)
    (hfit : o.items + (batch.foldl (writeOne now) s).part.entries.size < UInt64.size) :
    (batch.foldl (writeOne now) s).account.Counts o bound
      (batch.foldl (writeOne now) s).part.entries.size held := by
  induction batch generalizing s with
  | nil => exact h
  | cons item rest ih =>
    have hmono := size_le_foldl_writeOne now rest (writeOne now s item)
    rw [List.foldl_cons] at hfit ⊢
    exact ih (counts_writeOne now item h (by omega)) hfit

theorem Balanced.weighed (h : s.Balanced o) : s.Weighed o := h.weighs

theorem Weighed.bytes_lt (h : s.Weighed o) : o.bytes + s.part.bytes < UInt64.size := by
  have htotal := h.allBytes
  have hlt : s.account.totals.totalSize.toNat < UInt64.size := s.account.totals.totalSize.toNat_lt
  omega

theorem Balanced.bytes_lt (h : s.Balanced o) : o.bytes + s.part.bytes < UInt64.size :=
  h.weighed.bytes_lt

/-- Writing items leaves the counters of bytes alone. -/
theorem weighs_foldl_writeOne {bound : ByteCount} {held : Nat} (now : Millis)
    (batch : List (Bytes × Bytes)) (h : s.account.Weighs o bound held) :
    (batch.foldl (writeOne now) s).account.Weighs o bound held := by
  induction batch generalizing s with
  | nil => exact h
  | cons item rest ih =>
    apply ih
    cases hget : s.part.entries.get? item.1 with
    | none =>
      simp only [writeOne, hget]
      exact ⟨h.bytes, h.allBytes, h.shared⟩
    | some old =>
      simp only [writeOne, hget]
      split
      · exact ⟨h.bytes, h.allBytes, h.shared⟩
      · split <;> exact h

variable {grown : Site} {items : List (Bytes × Bytes)} {mode : PutMode} {now : Millis}
  {plan : WritePlan}

/-- The growth of a batch is counted as soon as it is admitted. -/
theorem weighs_grow (hplan : s.part.plan items mode now = .ok plan)
    (hgrown : s.grow (UInt64.ofNat (plan.newBytes - plan.oldBytes)) = some grown)
    (h : s.Weighed o) (hshared : o.shared ≤ o.bytes)
    (hbytes : o.bytes + (commit now plan grown).part.bytes < UInt64.size) :
    grown.account.Weighs o s.part.metadata.maxCacheSize
      (s.part.bytes + (plan.newBytes - plan.oldBytes)) := by
  obtain ⟨hexchange, hold⟩ := bytes_commit hplan hgrown
  have hbefore := h.bytes_lt
  -- growth is a word, so nothing is cut off it
  have hgrowth : (UInt64.ofNat (plan.newBytes - plan.oldBytes)).toNat =
      plan.newBytes - plan.oldBytes := UInt64.toNat_ofNat_of_lt' (by omega)
  obtain ⟨a, hadmitted, rfl⟩ := grow_eq_some hgrown
  rw [← hgrowth]
  exact Account.Weighs.tryGrow h hadmitted hshared (by omega)

theorem metadata_commit {growth : ByteCount} (hgrown : s.grow growth = some grown) :
    (commit now plan grown).part.metadata = s.part.metadata :=
  (Partition.metadata_eq (settings_foldl_writeOne now plan.batch grown)).trans
    (Partition.metadata_eq (settings_grow hgrown))

/-- The bytes of a batch are counted: its growth is admitted first, its surplus given back last. -/
theorem weighed_commit (hplan : s.part.plan items mode now = .ok plan)
    (hgrown : s.grow (UInt64.ofNat (plan.newBytes - plan.oldBytes)) = some grown)
    (h : s.Weighed o) (hshared : o.shared ≤ o.bytes)
    (hbytes : o.bytes + (commit now plan grown).part.bytes < UInt64.size) :
    (commit now plan grown).Weighed o := by
  obtain ⟨hexchange, hold⟩ := bytes_commit hplan hgrown
  have hbefore := h.bytes_lt
  have hsurplus : (UInt64.ofNat (plan.oldBytes - plan.newBytes)).toNat =
      plan.oldBytes - plan.newBytes := UInt64.toNat_ofNat_of_lt' (by omega)
  have hwritten := weighs_foldl_writeOne now plan.batch
    (weighs_grow hplan hgrown h hshared hbytes)
  have hheld : s.part.bytes + (plan.newBytes - plan.oldBytes) =
      (commit now plan grown).part.bytes + (plan.oldBytes - plan.newBytes) := by omega
  rw [hheld, ← hsurplus, ← Partition.metadata_eq (settings_grow hgrown)] at hwritten
  unfold Weighed
  rw [metadata_commit hgrown, ← Partition.metadata_eq (settings_grow hgrown)]
  exact hwritten.shrink

/-- A batch write is counted, with its bytes and its entries. -/
theorem balanced_commit (hplan : s.part.plan items mode now = .ok plan)
    (hgrown : s.grow (UInt64.ofNat (plan.newBytes - plan.oldBytes)) = some grown)
    (h : s.Balanced o) (hshared : o.shared ≤ o.bytes)
    (hfit : o.items + (commit now plan grown).part.entries.size < UInt64.size)
    (hbytes : o.bytes + (commit now plan grown).part.bytes < UInt64.size) :
    (commit now plan grown).Balanced o := by
  have hgrew := weighs_grow hplan hgrown h.weighed hshared hbytes
  have hweighed : (commit now plan grown).Weighed o :=
    weighed_commit hplan hgrown h.weighed hshared hbytes
  unfold Weighed at hweighed
  unfold Balanced
  rw [metadata_commit hgrown] at hweighed ⊢
  obtain ⟨a, hadmitted, rfl⟩ := grow_eq_some hgrown
  have hcounts := h.reweigh hgrew (Account.itemCount_of_tryGrow hadmitted)
  exact (counts_foldl_writeOne (s := s.settle a) now plan.batch hcounts hfit).reweigh hweighed
    ⟨rfl, rfl⟩

theorem balanced_takeOut {key : Bytes} {e : Entry} (cause : Removal)
    (he : s.part.entries.get? key = some e) (h : s.Balanced o) :
    (s.takeOut key e cause).Balanced o := by
  have hbefore := h.bytes_lt
  have hbytes := bytes_takeOut cause he
  have hsize : (s.takeOut key e cause).part.entries.size + 1 = s.part.entries.size :=
    Table.size_erase he
  have hweight : (UInt64.ofNat (Entry.weight key e.payload)).toNat =
      Entry.weight key e.payload := UInt64.toNat_ofNat_of_lt' (by omega)
  unfold Balanced at h
  rw [← hsize, ← hbytes, ← hweight] at h
  exact h.shrink.remove cause

theorem balanced_create {key : Bytes} {grown : Site} (fresh : Entry)
    (hnone : s.part.entries.get? key = none)
    (hgrown : s.grow (UInt64.ofNat (Entry.weight key fresh.payload)) = some grown)
    (h : s.Balanced o) (hshared : o.shared ≤ o.bytes)
    (hfit : o.items + (s.part.entries.insert key fresh).size < UInt64.size)
    (hbytes : o.bytes + (s.hold (s.part.entries.insert key fresh)).part.bytes < UInt64.size) :
    (((grown.hold (grown.part.entries.insert key fresh)).book fun a =>
      a.miss.insert).announce key (some fresh.payload) .write).Balanced o := by
  obtain ⟨a, hadmitted, rfl⟩ := grow_eq_some hgrown
  have hinsert : (s.hold (s.part.entries.insert key fresh)).part.bytes + s.part.bytesAt key =
      s.part.bytes + Entry.weight key fresh.payload := Partition.bytes_insert _ _ _
  rw [Partition.bytesAt_of_none hnone, Nat.add_zero] at hinsert
  have hsize := Table.size_insert_of_none fresh hnone
  have hweight : (UInt64.ofNat (Entry.weight key fresh.payload)).toNat =
      Entry.weight key fresh.payload := UInt64.toNat_ofNat_of_lt' (by omega)
  have hcounts : a.Counts o s.part.metadata.maxCacheSize s.part.entries.size
      (s.part.bytes + Entry.weight key fresh.payload) := by
    rw [← hweight]
    exact h.tryGrow hadmitted hshared (by omega)
  rw [← hinsert] at hcounts
  have hcounted := hcounts.miss.insert (by omega)
  rw [← hsize] at hcounted
  exact hcounted

/-- Replacing an entry by one of the same length is not counted. -/
theorem balanced_renew {key : Bytes} {e fresh : Entry} (he : s.part.entries.get? key = some e)
    (hlen : fresh.payload.length = e.payload.length) (h : s.Balanced o) :
    (s.hold (s.part.entries.insert key fresh)).Balanced o := by
  have hbytes := bytes_renew he hlen
  have hsize := Table.size_insert_of_some fresh he
  unfold Balanced
  rw [hbytes, entries_hold, hsize]
  exact h

/-- The counters stay true along every step, as long as the bytes of all partitions fit a word. -/
theorem Step.balanced {clears : Prop} (h : Step clears s t) (hs : s.Balanced o)
    (hshared : o.shared ≤ o.bytes)
    (hfit : o.items + t.part.entries.size < UInt64.size)
    (hbytes : o.bytes + t.part.bytes < UInt64.size) : t.Balanced o := by
  cases h with
  | hit now => exact hs.hit now
  | miss => exact hs.miss
  | reset => exact hs.reset
  | draw draws => exact hs
  | renew now he => exact balanced_renew he rfl hs
  | takeOut cause he => exact balanced_takeOut cause he hs
  | amend fresh now he hlen => exact (balanced_renew he hlen hs).hit now
  | create fresh hkey hnone hgrown =>
    have hgrew := hgrown
    obtain ⟨a, -, rfl⟩ := grow_eq_some hgrew
    exact balanced_create fresh hnone hgrown hs hshared hfit hbytes
  | write now hplan hgrown => exact balanced_commit hplan hgrown hs hshared hfit hbytes

-- ---------------------------------------------------------------------------
-- The budget along a step
-- ---------------------------------------------------------------------------

/-- The budget of the node and how much of it is reserved. -/
def division (s : Site) : ByteCount × ByteCount := (s.totals.maxCacheSize, s.totals.reservedSize)

theorem division_grow {grown : Site} {bytes : ByteCount} (h : s.grow bytes = some grown) :
    grown.division = s.division := by
  obtain ⟨a, hadmitted, rfl⟩ := grow_eq_some h
  rcases Account.tryGrow_cases hadmitted with ⟨-, rfl⟩ | ⟨-, -, rfl⟩ | ⟨-, -, rfl⟩ <;> rfl

theorem division_writeOne (now : Millis) (s : Site) (item : Bytes × Bytes) :
    (writeOne now s item).division = s.division := by
  cases hget : s.part.entries.get? item.1 with
  | none => simp only [writeOne, hget]; rfl
  | some old =>
    simp only [writeOne, hget]
    split
    · rfl
    · split <;> rfl

theorem division_foldl_writeOne (now : Millis) (batch : List (Bytes × Bytes)) (s : Site) :
    (batch.foldl (writeOne now) s).division = s.division := by
  induction batch generalizing s with
  | nil => rfl
  | cons item rest ih => exact (ih _).trans (division_writeOne now s item)

/-- Steps of a partition make no reservations and release none. -/
theorem Step.division {clears : Prop} (h : Step clears s t) : t.division = s.division := by
  cases h with
  | takeOut cause he => cases cause <;> rfl
  | create fresh hkey hnone hgrown =>
    have hgrew : Site.division _ = s.division := division_grow hgrown
    exact hgrew
  | write now hplan hgrown => exact (division_foldl_writeOne now _ _).trans (division_grow hgrown)
  | _ => rfl

theorem Steps.division {clears : Prop} {limit : Nat} (h : Steps clears limit s t) :
    t.division = s.division := by
  induction h with
  | refl => rfl
  | tail _ step _ ih => exact step.division.trans ih

end Site

end CacheNode

import Mathlib.Data.List.Perm.Basic
import CacheNode.Eviction.Policy

/-!
# CacheNode — who is proposed for eviction

A policy proposes candidates, which are keys with access times. They stand for rows of the table,
no row more than once, in the order of access times; of equally old ones the smaller key comes
first, because the rows stand in key order and sorting keeps the order of equals. So far this holds
for every sample. A sample that covers the table proposes all rows, and then the order of access
times and keys is the only thing that the proposal depends on.

* `Older` — the order in which entries are preferred, and `Older.order_unique`;
* `byAge`, `older_byAge` — rows in this order;
* `EvictionPolicy.candidates_eq_map` — what a policy proposes.
-/

namespace CacheNode

/-- Rows that are taken from a table, each of them once, have different keys. -/
theorem Table.nodup_keys_of_subperm {β : Type} {t : Table β} {rows : List (Bytes × β)}
    (h : rows.Subperm t.rows) : (rows.map Prod.fst).Nodup := by
  obtain ⟨found, hperm, hsub⟩ := h
  rw [← (hperm.map Prod.fst).nodup_iff]
  exact t.nodup_keys.sublist (hsub.map Prod.fst)

/-- The candidate that stands for a row. -/
def Candidate.ofRow (row : Bytes × Entry) : Candidate := ⟨row.1, row.2.lastAccess⟩

/-- Of two rows the first is the one whose entry was used less recently, or the one with the smaller
key if both were used at the same time. -/
def Older (a b : Bytes × Entry) : Prop :=
  a.2.lastAccess < b.2.lastAccess ∨ a.2.lastAccess = b.2.lastAccess ∧ a.1 < b.1

instance (a b : Bytes × Entry) : Decidable (Older a b) :=
  inferInstanceAs (Decidable (_ ∨ _))

/-- Rows in ascending order of access times; equally old ones keep their order. -/
def byAge (rows : List (Bytes × Entry)) : List (Bytes × Entry) :=
  rows.mergeSort fun a b => a.2.lastAccess ≤ b.2.lastAccess

-- ---------------------------------------------------------------------------
-- The order
-- ---------------------------------------------------------------------------

theorem Older.asymm {a b : Bytes × Entry} (hab : Older a b) : ¬ Older b a := by
  unfold Older at *
  rintro (hba | ⟨heq, hba⟩)
  · rcases hab with hab | ⟨heq, -⟩
    · exact absurd (UInt64.lt_trans hab hba) (UInt64.lt_irrefl _)
    · rw [heq] at hba
      exact absurd hba (UInt64.lt_irrefl _)
  · rcases hab with hab | ⟨-, hab⟩
    · rw [heq] at hab
      exact absurd hab (UInt64.lt_irrefl _)
    · exact absurd (Std.lt_trans hab hba) Std.lt_irrefl

theorem Older.le {a b : Bytes × Entry} (h : Older a b) : a.2.lastAccess ≤ b.2.lastAccess := by
  rcases h with hlt | ⟨heq, -⟩
  · exact UInt64.le_of_lt hlt
  · exact UInt64.le_of_eq heq

/-- Rows can be put in this order in one way only. -/
theorem Older.order_unique {order other : List (Bytes × Entry)} (h : order.Pairwise Older)
    (hother : other.Pairwise Older) (hperm : order.Perm other) : order = other :=
  hperm.eq_of_pairwise (fun _ _ _ _ hab hba => absurd hba hab.asymm) h hother

theorem perm_byAge (rows : List (Bytes × Entry)) : (byAge rows).Perm rows :=
  List.mergeSort_perm rows _

/-- Sorting is stable, so rows in key order come out in the order of access times and keys. -/
theorem older_byAge {rows : List (Bytes × Entry)} (h : rows.Pairwise fun a b => a.1 < b.1) :
    (byAge rows).Pairwise Older := by
  have htrans (a b c : Bytes × Entry) (hab : decide (a.2.lastAccess ≤ b.2.lastAccess) = true)
      (hbc : decide (b.2.lastAccess ≤ c.2.lastAccess) = true) :
      decide (a.2.lastAccess ≤ c.2.lastAccess) = true := by
    rw [decide_eq_true_eq] at *
    exact UInt64.le_trans hab hbc
  have htotal (a b : Bytes × Entry) : (decide (a.2.lastAccess ≤ b.2.lastAccess) ||
      decide (b.2.lastAccess ≤ a.2.lastAccess)) = true := by
    rw [Bool.or_eq_true, decide_eq_true_eq, decide_eq_true_eq]
    exact UInt64.le_total _ _
  -- the induction follows the rows: where the first of them goes among the sorted others
  induction rows with
  | nil => simp [byAge]
  | cons first rest ih =>
    obtain ⟨hfirst, hrest⟩ := List.pairwise_cons.1 h
    obtain ⟨before, after, hsorted, hothers, hbefore⟩ :=
      List.mergeSort_cons htrans htotal first rest
    have hascending := List.pairwise_mergeSort htrans htotal (first :: rest)
    have holder := ih hrest
    rw [byAge, hothers] at holder
    rw [hsorted] at hascending
    rw [byAge, hsorted]
    obtain ⟨hl, hr, hcross⟩ := List.pairwise_append.1 holder
    obtain ⟨-, hlater, -⟩ := List.pairwise_append.1 hascending
    refine List.pairwise_append.2 ⟨hl, List.pairwise_cons.2 ⟨?_, hr⟩, ?_⟩
    · intro row hrow
      have hle : first.2.lastAccess ≤ row.2.lastAccess := by
        simpa using (List.pairwise_cons.1 hlater).1 row hrow
      have hmem : row ∈ rest := by
        apply (List.mergeSort_perm rest _).subset
        rw [hothers]
        exact List.mem_append_right before hrow
      rcases UInt64.lt_or_eq_of_le hle with hlt | heq
      · exact .inl hlt
      · exact .inr ⟨heq, hfirst row hmem⟩
    · intro row hrow other hother
      rcases List.mem_cons.1 hother with rfl | hother
      · -- what comes before the first row is really older
        have hlt := hbefore row hrow
        rw [Bool.not_eq_true', decide_eq_false_iff_not, UInt64.not_le] at hlt
        exact .inl hlt
      · exact hcross row hrow other hother

theorem oldestFirst_map (rows : List (Bytes × Entry)) :
    Candidate.oldestFirst (rows.map Candidate.ofRow) = (byAge rows).map Candidate.ofRow := by
  rw [byAge, List.map_mergeSort]
  · rfl
  · intro a _ b _
    rfl

-- ---------------------------------------------------------------------------
-- Proposals
-- ---------------------------------------------------------------------------

/-- A pass over rows collects some of them, in their order. -/
theorem Sample.collect_eq_map (keep : Bool → Bool → Bool) (x : Expiry) (here : Nat)
    (wanted : List Nat) (rows : List (Bytes × Entry)) :
    ∃ found : List (Bytes × Entry), found.Sublist rows ∧
      collect keep x here wanted rows = found.map Candidate.ofRow := by
  induction rows generalizing here wanted with
  | nil => exact ⟨[], .slnil, by cases wanted <;> rfl⟩
  | cons row rest ih =>
    cases wanted with
    | nil => exact ⟨[], List.nil_sublist _, rfl⟩
    | cons next later =>
      obtain ⟨found, hfound, hcollect⟩ :=
        ih (here + 1) (if here = next then later else next :: later)
      simp only [collect]
      split
      · exact ⟨row :: found, hfound.cons_cons row, by rw [hcollect]; rfl⟩
      · exact ⟨found, hfound.cons row, hcollect⟩

/-- Candidates are rows of the table, each of them once, with the older ones first. A proposal that
looks at the whole table has all rows. -/
theorem EvictionPolicy.candidates_eq_map (policy : EvictionPolicy) (perKey count : Nat) (x : Expiry)
    (entries : Table Entry) (d : Draws) :
    ∃ order : List (Bytes × Entry), order.Subperm entries.rows ∧ order.Pairwise Older ∧
      (policy.candidates perKey count x entries d).1 = order.map Candidate.ofRow ∧
      (policy = .approximateLru → entries.size ≤ max 1 perKey * count →
        order.Perm entries.rows) := by
  have hnone : ([] : List (Bytes × Entry)).Subperm entries.rows := List.nil_subperm
  cases policy with
  | noEviction =>
    refine ⟨[], hnone, .nil, rfl, ?_⟩
    intro hpolicy
    cases hpolicy
  | approximateLru =>
    simp only [candidates]
    split
    · next hcount =>
      -- a table that is covered all the same is empty
      refine ⟨[], hnone, .nil, rfl, fun _ hcovered => ?_⟩
      rw [hcount, Nat.mul_zero, Nat.le_zero] at hcovered
      rw [List.length_eq_zero_iff.1 hcovered]
    · split
      · exact ⟨byAge entries.rows, (perm_byAge _).subperm, older_byAge entries.ascending,
          oldestFirst_map entries.rows, fun _ _ => perm_byAge _⟩
      · next hsampled =>
        obtain ⟨found, hfound, hcollect⟩ := Sample.collect_eq_map
          (fun drawn expired => drawn || expired) x 0
          (Sample.positions (max 1 perKey * count) entries.size d).1 entries.rows
        refine ⟨byAge found, (perm_byAge found).subperm.trans hfound.subperm,
          older_byAge (entries.ascending.sublist hfound), ?_, fun _ hcovered =>
          absurd hcovered hsampled⟩
        rw [hcollect]
        exact oldestFirst_map found

end CacheNode

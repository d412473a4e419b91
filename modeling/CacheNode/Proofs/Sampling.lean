import Mathlib.Data.List.Permutation
import CacheNode.Partition.Read
import CacheNode.Proofs.Candidates

/-!
# CacheNode — what a sample shows

A sample is drawn with repetition and in any order. The positions are put in ascending order first,
so that one pass over the rows meets them all: the next position that is waited for is never behind
the row that is looked at. The pass ends with the last of them. What it has seen by then are the
rows up to the largest number drawn, and its rule tells which of these it keeps.

The policy keeps what was drawn or has expired, and puts it in the order of access times. The search
for expired entries keeps what was drawn and has expired. Both are said of every supply of draws,
and every outcome of drawing is that of some supply (`Draws.many_dealing`).

* `Sample.ascending_positions`, `Sample.mem_positions` — the positions that are waited for;
* `Sample.mem_collect_iff` — what a pass collects;
* `EvictionPolicy.Proposes`, `Site.Finds` — what the policy proposes, and what a search finds;
* `EvictionPolicy.proposes_drawn` — both, for every draw.
-/

namespace CacheNode

-- ---------------------------------------------------------------------------
-- Draws
-- ---------------------------------------------------------------------------

namespace Draws

/-- A supply that yields the given numbers first. -/
def dealing (faces : List Nat) : Draws := { roll := fun n => faces.getD n 0 }

/-- Numbers are drawn in the order of the supply, each of them reduced below the bound. -/
theorem many_eq_map (d : Draws) (count bound : Nat) :
    (d.many count bound).1 = (List.range' d.used count).map fun n => d.roll n % bound := by
  induction count generalizing d with
  | zero => rfl
  | succ count ih =>
    rw [List.range'_succ, List.map_cons]
    exact congrArg (d.roll d.used % bound :: ·) (ih _)

/-- Any numbers below a bound may be drawn. -/
theorem many_dealing {faces : List Nat} {bound : Nat} (h : ∀ i ∈ faces, i < bound) :
    ((dealing faces).many faces.length bound).1 = faces := by
  rw [many_eq_map]
  apply List.ext_getElem
  · rw [List.length_map, List.length_range']
  · intro n hmapped hn
    have hface : faces.getD n 0 = faces[n] := by
      rw [List.getD_eq_getElem?_getD, List.getElem?_eq_getElem hn, Option.getD_some]
    simp only [dealing, List.getElem_map, List.getElem_range', Nat.zero_add, Nat.one_mul, hface]
    exact Nat.mod_eq_of_lt (h _ (List.getElem_mem hn))

end Draws

-- ---------------------------------------------------------------------------
-- Positions
-- ---------------------------------------------------------------------------

namespace Sample

variable {samples bound here i : Nat} {d : Draws} {keep : Bool → Bool → Bool} {x : Expiry}
  {wanted : List Nat} {rows : List (Bytes × Entry)} {c : Candidate}

/-- A position is looked at: every one if the sample is as large as the bound, and else those that
are drawn. -/
def Looks (samples bound : Nat) (d : Draws) (i : Nat) : Prop :=
  i < bound ∧ (samples < bound → i ∈ (d.many samples bound).1)

theorem ascending_positions (samples bound : Nat) (d : Draws) :
    (positions samples bound d).1.Pairwise (· < ·) := by
  unfold positions
  split
  · exact List.pairwise_lt_range
  · exact List.pairwise_lt_range.filter _

theorem mem_positions : i ∈ (positions samples bound d).1 ↔ Looks samples bound d i := by
  unfold positions Looks
  split
  · next hall =>
    rw [List.mem_range]
    exact ⟨fun hi => ⟨hi, fun hfew => absurd hall (Nat.not_le.2 hfew)⟩, And.left⟩
  · next hfew =>
    rw [List.mem_filter, List.mem_range, List.contains_iff_mem]
    exact ⟨fun ⟨hi, hdrawn⟩ => ⟨hi, fun _ => hdrawn⟩,
      fun ⟨hi, hdrawn⟩ => ⟨hi, hdrawn (Nat.not_le.1 hfew)⟩⟩

/-- Where a sample is smaller than the table, the positions looked at are the numbers drawn. -/
theorem looks_iff_drawn (h : samples < bound) :
    Looks samples bound d i ↔ i ∈ (d.many samples bound).1 := by
  refine ⟨fun hlooks => hlooks.2 h, fun hdrawn => ⟨?_, fun _ => hdrawn⟩⟩
  exact d.many_lt (Nat.lt_of_le_of_lt (Nat.zero_le _) h) i hdrawn

/-- Where nothing is asked for, or there is nothing, no position is looked at. -/
theorem not_looks (h : bound = 0 ∨ samples = 0) : ¬ Looks samples bound d i := by
  intro hlooks
  rcases h with rfl | rfl
  · exact Nat.not_lt_zero i hlooks.1
  · exact List.not_mem_nil (hlooks.2 (Nat.lt_of_le_of_lt (Nat.zero_le i) hlooks.1))

-- ---------------------------------------------------------------------------
-- The pass
-- ---------------------------------------------------------------------------

/-- What a pass waits for after a row: the same positions, unless the row was the first of them. -/
def left (here next : Nat) (later : List Nat) : List Nat :=
  if here = next then later else next :: later

/-- What a pass may wait for: positions in ascending order, none of them behind the row that it
comes to. -/
structure Waits (here : Nat) (wanted : List Nat) : Prop where
  ascending : wanted.Pairwise (· < ·)
  ahead     : ∀ i ∈ wanted, here ≤ i

theorem mem_left {next : Nat} {later : List Nat} (hi : here < i) :
    i ∈ left here next later ↔ i ∈ next :: later := by
  unfold left
  split
  · next heq =>
    rw [List.mem_cons]
    exact ⟨.inr, fun h => h.resolve_left (heq ▸ Nat.ne_of_gt hi)⟩
  · exact Iff.rfl

theorem Waits.here_mem {next : Nat} {later : List Nat} (h : Waits here (next :: later)) :
    here ∈ next :: later ↔ here = next := by
  constructor
  · intro hmem
    refine (List.mem_cons.1 hmem).resolve_right fun hlater => ?_
    have hlt := (List.pairwise_cons.1 h.ascending).1 here hlater
    exact absurd (h.ahead next List.mem_cons_self) (Nat.not_le.2 hlt)
  · exact fun heq => heq ▸ List.mem_cons_self

/-- Every position is met, for a pass never leaves one behind. -/
theorem Waits.left {next : Nat} {later : List Nat} (h : Waits here (next :: later)) :
    Waits (here + 1) (left here next later) := by
  obtain ⟨hlater, hothers⟩ := List.pairwise_cons.1 h.ascending
  have hnext : here ≤ next := h.ahead next List.mem_cons_self
  unfold Sample.left
  split
  · next heq => exact ⟨hothers, fun i hi => heq ▸ hlater i hi⟩
  · next hne =>
    refine ⟨h.ascending, fun i hi => ?_⟩
    rcases List.mem_cons.1 hi with rfl | hi
    · exact Nat.lt_of_le_of_ne hnext hne
    · exact Nat.lt_of_le_of_lt hnext (hlater i hi)

/-- A pass treats its first row by its rule and goes on with the others. -/
theorem mem_collect_cons {next : Nat} {later : List Nat} {row : Bytes × Entry}
    {rest : List (Bytes × Entry)} :
    c ∈ collect keep x here (next :: later) (row :: rest) ↔
      (c = Candidate.ofRow row ∧ keep (decide (here = next)) (row.2.isExpired x) = true) ∨
        c ∈ collect keep x (here + 1) (left here next later) rest := by
  simp only [collect, left]
  split
  · next hkeep =>
    rw [List.mem_cons]
    exact or_congr_left (iff_self_and.2 fun _ => hkeep)
  · next hkeep => exact ⟨.inr, fun h => h.resolve_left fun hfirst => hkeep hfirst.2⟩

/-- Of the rows up to the last position that it waits for, a pass keeps those that its rule
selects. -/
theorem mem_collect_iff (hwaits : Waits here wanted) :
    c ∈ collect keep x here wanted rows ↔
      ∃ i row, rows[i]? = some row ∧ c = Candidate.ofRow row ∧ (∃ j ∈ wanted, here + i ≤ j) ∧
        keep (decide (here + i ∈ wanted)) (row.2.isExpired x) = true := by
  induction rows generalizing here wanted with
  | nil => cases wanted <;> simp [collect]
  | cons row rest ih =>
    cases wanted with
    | nil => simp [collect]
    | cons next later =>
      rw [mem_collect_cons, ih hwaits.left]
      refine Iff.trans (or_congr ?_ (exists_congr fun i => ?_)) Nat.or_exists_add_one
      · -- the row itself, which is not behind the next position
        simp only [List.getElem?_cons_zero, Option.some.injEq, Nat.add_zero, hwaits.here_mem]
        constructor
        · rintro ⟨hc, hkeep⟩
          exact ⟨row, rfl, hc, ⟨next, List.mem_cons_self, hwaits.ahead next List.mem_cons_self⟩,
            hkeep⟩
        · rintro ⟨_, rfl, hc, -, hkeep⟩
          exact ⟨hc, hkeep⟩
      · -- a later row, for which the positions up to this one make no difference
        have hpast : here < here + 1 + i := by omega
        have hshift : here + (i + 1) = here + 1 + i := by omega
        have hreach : (∃ j ∈ left here next later, here + 1 + i ≤ j) ↔
            ∃ j ∈ next :: later, here + 1 + i ≤ j :=
          exists_congr fun j => and_congr_left fun hj => mem_left (Nat.lt_of_lt_of_le hpast hj)
        simp only [List.getElem?_cons_succ, hshift, hreach, mem_left hpast]

theorem waits_positions (samples bound : Nat) (d : Draws) :
    Waits 0 (positions samples bound d).1 :=
  ⟨ascending_positions samples bound d, fun i _ => Nat.zero_le i⟩

/-- The same for the positions of a sample and all rows of a table. -/
theorem mem_collect_positions :
    c ∈ collect keep x 0 (positions samples bound d).1 rows ↔
      ∃ i row, rows[i]? = some row ∧ c = Candidate.ofRow row ∧
        (∃ j ∈ (positions samples bound d).1, i ≤ j) ∧
        keep (decide (i ∈ (positions samples bound d).1)) (row.2.isExpired x) = true := by
  simpa only [Nat.zero_add] using mem_collect_iff (waits_positions samples bound d)

end Sample

-- ---------------------------------------------------------------------------
-- Proposals
-- ---------------------------------------------------------------------------

/-- A candidate stands for one of the rows up to the largest number drawn, and this row was drawn or
has expired. -/
def Sample.Meets (drawn : List Nat) (x : Expiry) (rows : List (Bytes × Entry)) (c : Candidate) :
    Prop :=
  ∃ i row, rows[i]? = some row ∧ c = Candidate.ofRow row ∧ (∃ j ∈ drawn, i ≤ j) ∧
    (i ∈ drawn ∨ row.2.isExpired x = true)

namespace EvictionPolicy

variable {perKey count : Nat} {x : Expiry} {entries : Table Entry} {d : Draws}

/-- What the approximate policy proposes when so many entries are asked for. A sample that is as
large as the table proposes every row, and a smaller one what its pass meets. -/
structure Proposes (perKey count : Nat) (x : Expiry) (entries : Table Entry) (d : Draws)
    (proposed : List Candidate) : Prop where
  once      : (proposed.map Candidate.key).Nodup
  current   : ∀ c ∈ proposed, ∃ e, entries.get? c.key = some e ∧ c.lastAccess = e.lastAccess
  ascending : proposed.Pairwise fun a b => a.lastAccess ≤ b.lastAccess
  somebody  : entries.rows ≠ [] → proposed ≠ []
  covered   : entries.size ≤ max 1 perKey * count →
    proposed.Perm (entries.rows.map Candidate.ofRow)
  sampled   : max 1 perKey * count < entries.size → ∀ c, c ∈ proposed ↔
    Sample.Meets (d.many (max 1 perKey * count) entries.size).1 x entries.rows c

/-- Sorting aside, a small sample proposes what its pass meets. -/
theorem mem_candidates_sampled (hcount : count ≠ 0)
    (hfew : max 1 perKey * count < entries.size) (c : Candidate) :
    c ∈ (approximateLru.candidates perKey count x entries d).1 ↔
      Sample.Meets (d.many (max 1 perKey * count) entries.size).1 x entries.rows c := by
  simp only [candidates, if_neg hcount, if_neg (Nat.not_le.2 hfew), Candidate.oldestFirst,
    List.mem_mergeSort, Sample.mem_collect_positions, Sample.mem_positions,
    Sample.looks_iff_drawn hfew, Bool.or_eq_true, decide_eq_true_eq, Sample.Meets]

/-- Whatever is drawn, somebody is proposed from a table that is not empty. -/
theorem candidates_ne_nil (perKey : Nat) (x : Expiry) (d : Draws) (hcount : count ≠ 0)
    (hsize : 0 < entries.size) :
    (approximateLru.candidates perKey count x entries d).1 ≠ [] := by
  rcases Nat.lt_or_ge (max 1 perKey * count) entries.size with hfew | hall
  · -- the first number drawn is the position of a row
    have hsamples : 0 < max 1 perKey * count := Nat.mul_pos (by omega) (by omega)
    have hdrawn : 0 < (d.many (max 1 perKey * count) entries.size).1.length := by
      rw [Draws.length_many]
      exact hsamples
    obtain ⟨i, hi⟩ := List.exists_mem_of_length_pos hdrawn
    have hlt : i < entries.rows.length := d.many_lt hsize i hi
    exact List.ne_nil_of_mem ((mem_candidates_sampled hcount hfew _).2
      ⟨i, entries.rows[i], List.getElem?_eq_getElem hlt, rfl, ⟨i, hi, Nat.le_refl i⟩, .inl hi⟩)
  · -- all rows are proposed
    obtain ⟨order, -, -, hproposed, hperm⟩ :=
      candidates_eq_map approximateLru perKey count x entries d
    have hlength : order.length = entries.size := (hperm rfl hall).length_eq
    rw [hproposed, ← List.length_pos_iff, List.length_map, hlength]
    exact hsize

end EvictionPolicy

-- ---------------------------------------------------------------------------
-- Searches for expired entries
-- ---------------------------------------------------------------------------

namespace Site

/-- What a search for expired entries finds: the expired entries at the positions looked at, in key
order. As many positions are there as entries are counted. -/
structure Finds (s : Site) (samples : Nat) (now : Millis) (found : List Bytes) : Prop where
  ascending : found.Pairwise (· < ·)
  exact     : ∀ key, key ∈ found ↔
    ∃ i row, s.part.entries.rows[i]? = some row ∧ key = row.1 ∧
      Sample.Looks samples s.part.tally.itemCount.toNat s.draws i ∧
      row.2.isExpired (s.part.expiry now) = true

theorem finds_nil {s : Site} {samples : Nat} {now : Millis}
    (h : ∀ i (row : Bytes × Entry), Sample.Looks samples s.part.tally.itemCount.toNat s.draws i →
      row.2.isExpired (s.part.expiry now) = false) : s.Finds samples now [] where
  ascending := .nil
  exact     := by
    refine fun key => ⟨fun hkey => absurd hkey List.not_mem_nil, ?_⟩
    rintro ⟨i, row, -, -, hlooks, hexpired⟩
    rw [h i row hlooks] at hexpired
    cases hexpired

/-- A row that was drawn is not beyond the last position, so the search keeps it if it has
expired. -/
theorem finds_sampleExpired (s : Site) (samples : Nat) (now : Millis) :
    s.Finds samples now (s.sampleExpired samples now).1 := by
  simp only [sampleExpired]
  split
  · next hnothing => exact finds_nil fun i row hlooks => absurd hlooks (Sample.not_looks hnothing)
  · split
    · next hnever => exact finds_nil fun i row _ => row.2.isExpired_of_never hnever
    · constructor
      case ascending =>
        obtain ⟨found, hfound, hcollect⟩ := Sample.collect_eq_map
          (fun drawn expired => drawn && expired) (s.part.expiry now) 0
          (Sample.positions samples s.part.tally.itemCount.toNat s.draws).1 s.part.entries.rows
        rw [hcollect, List.map_map, List.pairwise_map]
        exact s.part.entries.ascending.sublist hfound
      case exact =>
        intro key
        simp only [List.mem_map, Sample.mem_collect_positions, Bool.and_eq_true,
          decide_eq_true_eq, Sample.mem_positions]
        constructor
        · rintro ⟨_, ⟨i, row, hrow, rfl, -, hlooks, hexpired⟩, rfl⟩
          exact ⟨i, row, hrow, rfl, hlooks, hexpired⟩
        · rintro ⟨i, row, hrow, rfl, hlooks, hexpired⟩
          exact ⟨_, ⟨i, row, hrow, rfl, ⟨i, hlooks, Nat.le_refl i⟩, hlooks, hexpired⟩, rfl⟩

end Site

namespace EvictionPolicy

/-- Whatever is drawn, the policy proposes entries of the table, each of them once, as they are and
with the oldest first: all of them if the sample is large enough, and else those up to the largest
number drawn that were drawn or have expired. A search for expired entries finds those that were
drawn and have expired. -/
theorem proposes_drawn (perKey : Nat) {count : Nat} (hcount : 1 ≤ count) (x : Expiry)
    (entries : Table Entry) (d : Draws) :
    Proposes perKey count x entries d (approximateLru.candidates perKey count x entries d).1 ∧
      ∀ (s : Site) (samples : Nat) (now : Millis),
        s.Finds samples now (s.sampleExpired samples now).1 := by
  refine ⟨?_, Site.finds_sampleExpired⟩
  have hnonzero : count ≠ 0 := Nat.one_le_iff_ne_zero.1 hcount
  obtain ⟨order, hrows, holder, hproposed, hall⟩ :=
    candidates_eq_map approximateLru perKey count x entries d
  constructor
  case once =>
    rw [hproposed, List.map_map]
    exact Table.nodup_keys_of_subperm hrows
  case current => exact fun c hc => mem_candidates hc
  case ascending =>
    rw [hproposed, List.pairwise_map]
    exact holder.imp Older.le
  case somebody =>
    intro hrows
    exact candidates_ne_nil perKey x d hnonzero (List.length_pos_iff.2 hrows)
  case covered =>
    intro hcovered
    rw [hproposed]
    exact (hall rfl hcovered).map _
  case sampled => exact mem_candidates_sampled hnonzero

/-- Six entries, of which the first and the fifth were not used for long. -/
def sparse : Table Entry where
  rows := [([97], ⟨[1], 10⟩), ([98], ⟨[1], 150⟩), ([99], ⟨[1], 160⟩), ([100], ⟨[1], 120⟩),
    ([101], ⟨[1], 5⟩), ([102], ⟨[1], 190⟩)]
  ascending := by decide

/-- A partition with these entries, which expire a hundred milliseconds after they were used. Three
numbers are dealt, the position of the fourth entry twice. -/
def sparseSite : Site where
  part :=
    { Partition.create [112]
        { createDate := ⟨⟨2025, 6, 2, by decide⟩, 12, 30, 0, 0, by decide⟩, interval := 100 } {} with
      entries := sparse
      tally := { itemCount := 6 } }
  totals := { maxCacheSize := 100 }
  hub := {}
  draws := .dealing [3, 1, 3]

/-- The first entry has expired and is met on the way to the drawn ones; the fifth has expired too,
but the pass is over before. Sixty milliseconds later both drawn entries have expired, and a search
finds them and nobody else. -/
theorem proposes_drawn_sparse :
    (sparseSite.draws.many 3 6).1 = [3, 1, 3] ∧
      Proposes 1 3 ⟨200, 100⟩ sparse sparseSite.draws
        [⟨[97], 10⟩, ⟨[100], 120⟩, ⟨[98], 150⟩] ∧
      sparseSite.Finds 3 260 [[98], [100]] := by
  obtain ⟨hproposes, hfinds⟩ :=
    proposes_drawn 1 (by decide : 1 ≤ 3) ⟨200, 100⟩ sparse sparseSite.draws
  have hproposed : (approximateLru.candidates 1 3 ⟨200, 100⟩ sparse sparseSite.draws).1 =
      [⟨[97], 10⟩, ⟨[100], 120⟩, ⟨[98], 150⟩] := by cbv
  have hfound : (sparseSite.sampleExpired 3 260).1 = [[98], [100]] := rfl
  rw [hproposed] at hproposes
  exact ⟨Draws.many_dealing (by decide), hproposes, hfound ▸ hfinds sparseSite 3 260⟩

end EvictionPolicy

end CacheNode

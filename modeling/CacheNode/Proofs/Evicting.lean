import CacheNode.Proofs.Candidates
import CacheNode.Proofs.MakingRoom
import CacheNode.Proofs.Scripts
import CacheNode.Proofs.Usage

/-!
# CacheNode — a run of eviction

A run of eviction takes candidates out one after the other. It ends as soon as usage no longer
exceeds its goal, when so many are gone as it may take, or when nobody is left who was proposed. So
what it takes is a beginning of the proposal, and each of its members was taken while usage still
exceeded the goal. This holds for every sample that the proposal may be drawn from. If the whole
partition was looked at, the run takes the least recently used entries, and the shortest sequence of
them that is enough.

* `Site.shed` — rows are taken out one after the other;
* `Site.Sheds`, `Site.Evicts` — what a run does that takes given rows;
* `Site.evict_sheds`, `Site.evict_takes` — which rows it takes, and why it stops;
* `Site.evict_oldest_first`, `Site.evict_bounded` — the same for a full scan and for any sample.
-/

namespace CacheNode

open Account (Others)

/-- How an entry that is evicted is counted: as expired if it has. -/
def Entry.farewell (e : Entry) (x : Expiry) : Removal :=
  if e.isExpired x then .expired else .evicted

/-- The bytes of rows. -/
def weights (rows : List (Bytes × Entry)) : Nat :=
  sumOf (fun row => Entry.weight row.1 row.2.payload) rows

namespace Site

/-- What is announced of a row that is evicted. -/
def parting (x : Expiry) (row : Bytes × Entry) : Notice :=
  ⟨row.1, none, (row.2.farewell x).kind⟩

/-- Takes rows out one after the other. -/
def shed (x : Expiry) (rows : List (Bytes × Entry)) (s : Site) : Site :=
  rows.foldl (fun t row => t.takeOut row.1 row.2 (row.2.farewell x)) s

/-- Rows that are in the partition, each of them once. -/
structure Holds (s : Site) (rows : List (Bytes × Entry)) : Prop where
  there : ∀ row ∈ rows, s.part.entries.get? row.1 = some row.2
  once  : (rows.map Prod.fst).Nodup

/-- Rows are taken out one after the other, each of them while usage exceeds a goal. Draws may be
used up besides. -/
structure Sheds (s : Site) (goal : EvictionGoal) (x : Expiry) (gone : List (Bytes × Entry))
    (t : Site) : Prop where
  held   : s.Holds gone
  needed : ∀ i < gone.length,
    (s.shed x (gone.take i)).overTarget s.part.metadata.maxCacheSize goal = true
  left   : t = { s.shed x gone with draws := t.draws }

/-- What a run of eviction does that takes these rows, in this order. -/
structure Evicts (s : Site) (o : Others) (goal : EvictionGoal) (x : Expiry)
    (gone : List (Bytes × Entry)) (t : Site) : Prop where
  /-- before each of them is taken usage exceeds the goal -/
  needed    : ∀ i < gone.length, goal.Exceeds (s.drawn o - weights (gone.take i)) s.budget
  entries   : ∀ key, t.part.entries.get? key =
    if key ∈ gone.map Prod.fst then none else s.part.entries.get? key
  announced : s.Announces (gone.map (parting x)) t
  balanced  : t.Balanced o

variable {s t u : Site} {o : Others} {x : Expiry} {row : Bytes × Entry}
  {rows rest order gone more : List (Bytes × Entry)} {goal : EvictionGoal} {count : Nat}
  {now : Millis}

-- ---------------------------------------------------------------------------
-- Rows in a partition
-- ---------------------------------------------------------------------------

theorem holds_of_subperm (h : order.Subperm s.part.entries.rows) : s.Holds order where
  there := by
    intro row hrow
    exact Table.mem_rows_iff.1 (h.subset hrow)
  once  := Table.nodup_keys_of_subperm h

theorem Holds.subperm (h : s.Holds rows) : rows.Subperm s.part.entries.rows := by
  apply List.subperm_of_subset (List.Nodup.of_map Prod.fst h.once)
  intro row hrow
  exact Table.mem_rows_iff.2 (h.there row hrow)

theorem Holds.take (h : s.Holds rows) (count : Nat) : s.Holds (rows.take count) where
  there := fun row hrow => h.there row (List.mem_of_mem_take hrow)
  once  := by
    rw [List.map_take]
    exact h.once.sublist (List.take_sublist _ _)

/-- The other rows are there once the first of them was taken. -/
theorem Holds.tail (h : s.Holds (row :: rest)) (cause : Removal) :
    (s.takeOut row.1 row.2 cause).Holds rest := by
  obtain ⟨hfirst, honce⟩ := List.nodup_cons.1 h.once
  refine ⟨fun other hother => ?_, honce⟩
  have hne : other.1 ≠ row.1 := by
    intro heq
    exact hfirst (heq ▸ List.mem_map_of_mem hother)
  rw [entries_takeOut, Table.get?_erase, if_neg hne]
  exact h.there other (List.mem_cons_of_mem _ hother)

-- ---------------------------------------------------------------------------
-- Taking rows out
-- ---------------------------------------------------------------------------

theorem shed_append (x : Expiry) (gone more : List (Bytes × Entry)) (s : Site) :
    s.shed x (gone ++ more) = (s.shed x gone).shed x more :=
  List.foldl_append

/-- What is drawn meanwhile makes no difference. -/
theorem shed_draws (x : Expiry) (rows : List (Bytes × Entry)) (s : Site) (d : Draws) :
    ({ s with draws := d } : Site).shed x rows = { s.shed x rows with draws := d } := by
  induction rows generalizing s with
  | nil => rfl
  | cons row rest ih => exact ih (s.takeOut row.1 row.2 (row.2.farewell x))

theorem metadata_shed (x : Expiry) (rows : List (Bytes × Entry)) (s : Site) :
    (s.shed x rows).part.metadata = s.part.metadata := by
  induction rows generalizing s with
  | nil => rfl
  | cons row rest ih => exact ih (s.takeOut row.1 row.2 (row.2.farewell x))

/-- Removals leave the division of the node's budget alone. -/
theorem division_shed (x : Expiry) (rows : List (Bytes × Entry)) (s : Site) :
    (s.shed x rows).division = s.division := by
  induction rows generalizing s with
  | nil => rfl
  | cons row rest ih =>
    have hone : (s.takeOut row.1 row.2 (row.2.farewell x)).division = s.division := by
      cases hcause : row.2.farewell x <;> rfl
    exact (ih _).trans hone

theorem get?_shed (x : Expiry) (rows : List (Bytes × Entry)) (s : Site) (key : Bytes) :
    (s.shed x rows).part.entries.get? key =
      if key ∈ rows.map Prod.fst then none else s.part.entries.get? key := by
  induction rows generalizing s with
  | nil => rfl
  | cons row rest ih =>
    have hlater := ih (s.takeOut row.1 row.2 (row.2.farewell x))
    rw [entries_takeOut, Table.get?_erase] at hlater
    refine hlater.trans ?_
    rw [List.map_cons, ← ite_or]
    simp only [List.mem_cons, or_comm]

/-- Rows that are still there after others were taken out are none of these. -/
theorem Holds.append (h : s.Holds gone) (hmore : (s.shed x gone).Holds more) :
    s.Holds (gone ++ more) := by
  have hthere : ∀ row ∈ more, row.1 ∉ gone.map Prod.fst ∧
      s.part.entries.get? row.1 = some row.2 := by
    intro row hrow
    have hleft := hmore.there row hrow
    rw [get?_shed] at hleft
    split at hleft
    · cases hleft
    · next hother => exact ⟨hother, hleft⟩
  constructor
  · intro row hrow
    rcases List.mem_append.1 hrow with hfirst | hlast
    · exact h.there row hfirst
    · exact (hthere row hlast).2
  · rw [List.map_append, List.nodup_append']
    refine ⟨h.once, hmore.once, ?_⟩
    intro key hgone hkey
    obtain ⟨row, hrow, rfl⟩ := List.mem_map.1 hkey
    exact (hthere row hrow).1 hgone

theorem announces_shed (x : Expiry) (rows : List (Bytes × Entry)) (s : Site) :
    s.Announces (rows.map (parting x)) (s.shed x rows) := by
  induction rows generalizing s with
  | nil => exact announces_nil rfl rfl rfl rfl
  | cons row rest ih => exact (announces_takeOut s row.1 row.2 (row.2.farewell x)).trans (ih _)

theorem bytes_shed (x : Expiry) (h : s.Holds rows) :
    (s.shed x rows).part.bytes + weights rows = s.part.bytes := by
  induction rows generalizing s with
  | nil => rfl
  | cons row rest ih =>
    have hrest := ih (h.tail (row.2.farewell x))
    have hone := bytes_takeOut (row.2.farewell x) (h.there row List.mem_cons_self)
    simp only [shed, List.foldl_cons, weights, sumOf] at hrest ⊢
    omega

theorem size_shed (x : Expiry) (h : s.Holds rows) :
    (s.shed x rows).part.entries.size + rows.length = s.part.entries.size := by
  induction rows generalizing s with
  | nil => rfl
  | cons row rest ih =>
    have hrest := ih (h.tail (row.2.farewell x))
    have hone := Table.size_erase (h.there row List.mem_cons_self)
    rw [entries_takeOut] at hrest
    simp only [shed, List.foldl_cons, List.length_cons] at hrest ⊢
    omega

theorem balanced_shed (x : Expiry) (h : s.Holds rows) (hb : s.Balanced o) :
    (s.shed x rows).Balanced o := by
  induction rows generalizing s with
  | nil => exact hb
  | cons row rest ih =>
    exact ih (h.tail _) (balanced_takeOut _ (h.there row List.mem_cons_self) hb)

/-- Usage falls by the bytes of the rows that were taken, and the budget stays. -/
theorem overTarget_shed (x : Expiry) (h : s.Holds rows) (hb : s.Balanced o)
    (goal : EvictionGoal) :
    (s.shed x rows).overTarget s.part.metadata.maxCacheSize goal = true ↔
      goal.Exceeds (s.drawn o - weights rows) s.budget := by
  have hmetadata := metadata_shed x rows s
  have hbytes := bytes_shed x h
  have hdrawn : (s.shed x rows).drawn o = s.drawn o - weights rows := by
    rw [drawn, drawn, hmetadata]
    split
    · omega
    · omega
  have hbudget : (s.shed x rows).budget = s.budget := budget_eq hmetadata (division_shed x rows s)
  rw [← hmetadata, overTarget_iff (balanced_shed x h hb), hdrawn, hbudget]

-- ---------------------------------------------------------------------------
-- The run
-- ---------------------------------------------------------------------------

/-- Going through candidates takes a beginning of them out: as long as usage exceeds the goal and
more may be taken. -/
theorem evictEach_takes (goal : EvictionGoal) (x : Expiry) (h : s.Holds order) (count : Nat) :
    ∃ r, r ≤ min count order.length ∧
      evictEach goal x (order.map Candidate.ofRow) count s = (r, s.shed x (order.take r)) ∧
      (∀ i < r,
        (s.shed x (order.take i)).overTarget s.part.metadata.maxCacheSize goal = true) ∧
      (r < min count order.length →
        (s.shed x (order.take r)).overTarget s.part.metadata.maxCacheSize goal = false) := by
  induction order generalizing count s with
  | nil => exact ⟨0, Nat.zero_le _, rfl, fun i hi => absurd hi (Nat.not_lt_zero i), by simp⟩
  | cons row rest ih =>
    rw [List.map_cons, evictEach]
    by_cases hstop : count = 0 ∨ s.overTarget s.part.metadata.maxCacheSize goal = false
    · -- the run is over before the first candidate
      refine ⟨0, Nat.zero_le _, if_pos hstop, fun i hi => absurd hi (Nat.not_lt_zero i), ?_⟩
      intro hmore
      rcases hstop with hcount | hmet
      · omega
      · exact hmet
    · obtain ⟨hcount, hover⟩ := not_or.1 hstop
      rw [Bool.not_eq_false] at hover
      obtain ⟨r, hle, hrest, hneeded, hmet⟩ := ih (h.tail (row.2.farewell x)) (count - 1)
      refine ⟨r + 1, ?_, ?_, ?_, ?_⟩
      · rw [List.length_cons]
        omega
      · have hthere : s.part.entries.get? (Candidate.ofRow row).key = some row.2 :=
          h.there row List.mem_cons_self
        rw [if_neg hstop]
        simp only [hthere]
        exact congrArg (fun later => (later.1 + 1, later.2)) hrest
      · intro i hi
        cases i with
        | zero => exact hover
        | succ i => exact hneeded i (Nat.lt_of_succ_lt_succ hi)
      · intro hmore
        rw [List.length_cons] at hmore
        exact hmet (by omega)

/-- Rows that are taken out while usage exceeds the goal are evicted. -/
theorem Sheds.evicts (h : s.Sheds goal x gone t) (hb : s.Balanced o) :
    s.Evicts o goal x gone t := by
  have hannounced := announces_shed x gone s
  have hbalanced := balanced_shed x h.held hb
  rw [h.left]
  exact
    { needed := fun i hi => (overTarget_shed x (h.held.take i) hb goal).1 (h.needed i hi)
      entries := get?_shed x gone s
      announced := ⟨hannounced.named, hannounced.published, hannounced.counted⟩
      balanced := hbalanced }

/-- A run of eviction takes a beginning of what is proposed out. It stops early only if usage no
longer exceeds the goal. -/
theorem evict_sheds (s : Site) (count : Nat) (now : Millis) (goal : EvictionGoal) :
    ∃ order : List (Bytes × Entry), order.Subperm s.part.entries.rows ∧ order.Pairwise Older ∧
      (s.part.metadata.policy = .approximateLru →
        s.part.entries.size ≤ max 1 s.part.limits.keyEvictionSamples * count →
        order.Perm s.part.entries.rows) ∧
      (s.evict count now goal).1 ≤ min count order.length ∧
      s.Sheds goal (s.part.expiry now) (order.take (s.evict count now goal).1)
        (s.evict count now goal).2 ∧
      ((s.evict count now goal).1 < min count order.length →
        (s.shed (s.part.expiry now) (order.take (s.evict count now goal).1)).overTarget
          s.part.metadata.maxCacheSize goal = false) := by
  obtain ⟨order, hrows, holder, hproposed, hall⟩ :=
    s.part.metadata.policy.candidates_eq_map s.part.limits.keyEvictionSamples count
      (s.part.expiry now) s.part.entries s.draws
  have hholds : s.Holds order := holds_of_subperm hrows
  refine ⟨order, hrows, holder, hall, ?_⟩
  by_cases hstop : count = 0 ∨ s.overTarget s.part.metadata.maxCacheSize goal = false
  · -- the run is over before anybody is proposed
    have hnothing : s.evict count now goal = (0, s) := by rw [evict, if_pos hstop]
    rw [hnothing]
    refine ⟨Nat.zero_le _, ⟨hholds.take 0, fun i hi => absurd hi (Nat.not_lt_zero i), rfl⟩, ?_⟩
    intro hmore
    rcases hstop with hcount | hmet
    · omega
    · exact hmet
  · -- the run starts at a site that differs in what has been drawn only
    rw [evict, if_neg hstop]
    simp only [hproposed]
    generalize (s.part.metadata.policy.candidates s.part.limits.keyEvictionSamples count
      (s.part.expiry now) s.part.entries s.draws).2 = d
    have hdrawn : ({ s with draws := d } : Site).Holds order := ⟨hholds.there, hholds.once⟩
    obtain ⟨r, hle, hrun, hneeded, hmet⟩ := evictEach_takes goal (s.part.expiry now) hdrawn count
    simp only [shed_draws] at hrun hneeded hmet
    rw [hrun]
    refine ⟨hle, ⟨hholds.take r, ?_, rfl⟩, hmet⟩
    intro i hi
    have hlt : i < r := Nat.lt_of_lt_of_le hi (List.length_take_le r order)
    rw [List.take_take, Nat.min_eq_left (Nat.le_of_lt hlt)]
    exact hneeded i hlt

/-- With true counters, the same is said about the bytes that are held. -/
theorem evict_takes (hb : s.Balanced o) (count : Nat) (now : Millis) (goal : EvictionGoal) :
    ∃ order : List (Bytes × Entry), order.Subperm s.part.entries.rows ∧ order.Pairwise Older ∧
      (s.part.metadata.policy = .approximateLru →
        s.part.entries.size ≤ max 1 s.part.limits.keyEvictionSamples * count →
        order.Perm s.part.entries.rows) ∧
      (s.evict count now goal).1 ≤ min count order.length ∧
      s.Evicts o goal (s.part.expiry now) (order.take (s.evict count now goal).1)
        (s.evict count now goal).2 ∧
      ((s.evict count now goal).1 < min count order.length →
        ¬ goal.Exceeds (s.drawn o - weights (order.take (s.evict count now goal).1))
          s.budget) := by
  obtain ⟨order, hrows, holder, hall, hle, hsheds, hmet⟩ := evict_sheds s count now goal
  refine ⟨order, hrows, holder, hall, hle, hsheds.evicts hb, fun hmore hover => ?_⟩
  have hmet := hmet hmore
  rw [(overTarget_shed _ hsheds.held hb goal).2 hover] at hmet
  cases hmet

/-- Where a run of eviction looks at all entries it takes them in the order of access times and
keys. It takes the first ones that are enough, or as many as it may if none are, and leaves the
others alone. -/
theorem evict_oldest_first (hb : s.Balanced o) (count : Nat)
    (hpolicy : s.part.metadata.policy = .approximateLru)
    (hscan : s.part.entries.size ≤ max 1 s.part.limits.keyEvictionSamples * count)
    (now : Millis) (goal : EvictionGoal) :
    ∃ order : List (Bytes × Entry), order.Perm s.part.entries.rows ∧ order.Pairwise Older ∧
      (s.evict count now goal).1 ≤ min count s.part.entries.size ∧
      s.Evicts o goal (s.part.expiry now) (order.take (s.evict count now goal).1)
        (s.evict count now goal).2 ∧
      ((s.evict count now goal).1 < min count s.part.entries.size →
        ¬ goal.Exceeds (s.drawn o - weights (order.take (s.evict count now goal).1))
          s.budget) := by
  obtain ⟨order, -, holder, hall, hle, hevicts, hmet⟩ := evict_takes hb count now goal
  have hperm := hall hpolicy hscan
  have hlength : order.length = s.part.entries.size := hperm.length_eq
  rw [hlength] at hle hmet
  exact ⟨order, hperm, holder, hle, hevicts, hmet⟩

end Site

namespace Node

/-- A partition of twenty bytes whose entries expire a hundred milliseconds after they were created.
Two of its three entries are equally old. -/
def aging : List Operation :=
  [ .putPartition [112]
      { createDate := (bare {}).today, interval := 100, mode := .absolute, maxCacheSize := 20 },
    .put .upsert [112] [98] [1, 2, 3, 4, 5, 6, 7] 2,
    .put .upsert [112] [97] [1, 2, 3] 2,
    .put .upsert [112] [99] [1, 2, 3, 4, 5] 1 ]

/-- The partition in the end. -/
def agingSite : Site :=
  (performAll aging (bare {})).2.site ((performAll aging (bare {})).2.target [112])

theorem balanced_agingSite :
    agingSite.Balanced ((performAll aging (bare {})).2.others [112]) :=
  Reaches.balanced_site (fresh_bare {})
    (Reaches.start.performAll aging ⟨by decide, by decide, by decide, by decide, trivial⟩) rfl

/-- The oldest entry has expired, and of the two others the one with the smaller key is evicted.
Then there is room for nine bytes. -/
theorem evict_oldest_first_aging :
    (agingSite.evict 3 102 (.room 9)).1 = 2 ∧
      agingSite.Announces [⟨[99], none, .expire⟩, ⟨[97], none, .evict⟩]
        (agingSite.evict 3 102 (.room 9)).2 := by
  obtain ⟨order, hperm, holder, -, hevicts, -⟩ :=
    Site.evict_oldest_first balanced_agingSite 3 rfl (by decide) 102 (.room 9)
  have horder : order = [([99], ⟨[1, 2, 3, 4, 5], 1⟩), ([97], ⟨[1, 2, 3], 2⟩),
      ([98], ⟨[1, 2, 3, 4, 5, 6, 7], 2⟩)] :=
    Older.order_unique holder (by decide) (hperm.trans (by decide))
  have hcount : (agingSite.evict 3 102 (.room 9)).1 = 2 := by cbv
  rw [horder, hcount] at hevicts
  exact ⟨hcount, hevicts.announced⟩

end Node

namespace Site

variable {s : Site} {o : Others}

/-- Whatever a sample is drawn, a run of eviction takes as many entries as it says, and no more than
it may. It takes none if usage does not exceed the goal, at least one if it does and there is
somebody to take, and none of them once usage no longer exceeds the goal. -/
theorem evict_bounded (hb : s.Balanced o) (count : Nat) (now : Millis) (goal : EvictionGoal) :
    (s.evict count now goal).2.part.entries.size + (s.evict count now goal).1 =
        s.part.entries.size ∧
      (s.evict count now goal).1 ≤ count ∧
      (¬ goal.Exceeds (s.drawn o) s.budget → (s.evict count now goal).1 = 0) ∧
      (goal.Exceeds (s.drawn o) s.budget → s.part.metadata.policy = .approximateLru →
        1 ≤ count → 0 < s.part.entries.size → 1 ≤ (s.evict count now goal).1) ∧
      ∃ gone : List (Bytes × Entry), gone.length = (s.evict count now goal).1 ∧
        gone.Subperm s.part.entries.rows ∧
        s.Evicts o goal (s.part.expiry now) gone (s.evict count now goal).2 := by
  obtain ⟨order, hrows, -, -, hle, hevicts, -⟩ := evict_takes hb count now goal
  refine ⟨size_evict s count now goal, ?_, ?_, ?_, order.take (s.evict count now goal).1, ?_, ?_,
    hevicts⟩
  · exact Nat.le_trans hle (Nat.min_le_left _ _)
  · intro hmet
    have hnot : s.overTarget s.part.metadata.maxCacheSize goal = false := by
      rw [← Bool.not_eq_true]
      exact fun hover => hmet ((overTarget_iff hb goal).1 hover)
    rw [evict, if_pos (.inr hnot)]
  · intro hover hpolicy hcount hsize
    have hnonzero : count ≠ 0 := Nat.one_le_iff_ne_zero.1 hcount
    exact evict_pos hpolicy hnonzero hsize ((overTarget_iff hb goal).2 hover)
  · rw [List.length_take]
    omega
  · exact (List.take_sublist _ _).subperm.trans hrows

end Site

namespace Node

/-- Two partitions without bounds fill the budget that they share. The entries of the first one
expire a hundred milliseconds after they were read or written. -/
def sampling : List Operation :=
  [ .putPartition [112] { createDate := (bare {}).today, interval := 100 },
    .put .upsert [112] [97] [1, 2, 3] 1,
    .put .upsert [112] [98] [1, 2, 3] 2,
    .put .upsert [112] [99] [1, 2, 3] 3,
    .put .upsert [113] [97] [1, 2, 3] 4 ]

/-- The first partition in the end. Where one entry is asked for only one of three is looked at. -/
def samplingSite : Site :=
  (performAll sampling (bare { keyEvictionSamples := 1, maxCacheSize := 16 })).2.site
    ((performAll sampling (bare { keyEvictionSamples := 1, maxCacheSize := 16 })).2.target [112])

theorem balanced_samplingSite :
    samplingSite.Balanced
      ((performAll sampling (bare { keyEvictionSamples := 1, maxCacheSize := 16 })).2.others
        [112]) :=
  Reaches.balanced_site (fresh_bare _) (Reaches.start.performAll sampling
    ⟨by decide, by decide, by decide, by decide, by decide, trivial⟩) rfl

/-- One entry is asked for, and one goes, though the sample may meet more that have expired. -/
theorem evict_bounded_sampling :
    (samplingSite.evict 1 200 .belowLimit).1 = 1 ∧
      (samplingSite.evict 1 200 .belowLimit).2.part.entries.size = 2 := by
  obtain ⟨hsize, hle, -, hpos, -⟩ :=
    Site.evict_bounded balanced_samplingSite 1 200 .belowLimit
  have htaken := hpos (by decide) rfl (Nat.le_refl 1) (by decide)
  have hheld : samplingSite.part.entries.size = 3 := by decide
  omega

end Node

end CacheNode

import CacheNode.Proofs.Evicting
import CacheNode.Proofs.Isolation

/-!
# CacheNode — who makes room

A write to a partition that draws from the shared part of the budget takes room from the partition
that was hit least recently, of those that draw from it, too, may evict, and hold something. Each
round looks for it again, because a partition that has run empty has nothing to give, and between
two rounds any may run empty. If the sample that is compared covers all of them, the order is exact:
whoever was hit earlier than the one that loses an entry is empty at that moment.

The partition that is written to is tried a second time where the victim has nothing to give. That
never frees anything here: whether a run of eviction goes on depends on the shared part alone, so
what stops it at the victim stops it at the partition that is written to.

* `Node.eligible` — the partitions that may have to make room, and have something to give;
* `Node.Loses` — an entry is there before and gone afterwards;
* `Operation.Waits` — where a write has come to when it waits for room;
* `Node.makeRoom_coldest` — who loses entries in one round;
* `Node.coldest_pays_first` — and in all rounds of a write.
-/

namespace CacheNode

-- ---------------------------------------------------------------------------
-- Choosing the minimum
-- ---------------------------------------------------------------------------

/-- Somebody is chosen if somebody is offered. -/
theorem Draws.choose_ne_nil {α : Type} (d : Draws) {count : Nat} {xs : List α} (hcount : 0 < count)
    (hxs : xs ≠ []) : (d.choose count xs).1 ≠ [] := by
  unfold choose
  split
  · exact hxs
  · obtain ⟨tries, rfl⟩ := Nat.exists_eq_add_one.2 hcount
    have hplace : (d.below xs.length).1 < xs.length :=
      d.below_lt (List.length_pos_iff.2 hxs)
    simp only [pick, List.getElem?_eq_getElem hplace]
    exact List.cons_ne_nil _ _

namespace Node

variable {n m k : Node} {name other victim key : Bytes} {p q r : Partition} {bytes : ByteCount}
  {now : Millis}

theorem exists_coldest {partitions : List Partition} (h : partitions ≠ []) :
    ∃ q, coldest partitions = some q := by
  obtain ⟨first, rest, rfl⟩ := List.exists_cons_of_ne_nil h
  rw [coldest]
  split
  · exact ⟨first, rfl⟩
  · next colder _ => split <;> exact ⟨_, rfl⟩

/-- Nobody was hit less recently. -/
theorem lastHit_coldest_le {partitions : List Partition} (h : coldest partitions = some q)
    (hr : r ∈ partitions) : q.tally.lastHit ≤ r.tally.lastHit := by
  induction partitions generalizing q with
  | nil => cases hr
  | cons first rest ih =>
    rw [coldest] at h
    split at h
    · next hnone =>
      cases h
      rcases List.mem_cons.1 hr with rfl | hrest
      · exact UInt64.le_refl _
      · obtain ⟨colder, hcolder⟩ := exists_coldest (List.ne_nil_of_mem hrest)
        rw [hcolder] at hnone
        cases hnone
    · next colder hcolder =>
      split at h
      · next hlt =>
        cases h
        rcases List.mem_cons.1 hr with rfl | hrest
        · exact UInt64.le_of_lt hlt
        · exact ih hcolder hrest
      · next hge =>
        cases h
        rcases List.mem_cons.1 hr with rfl | hrest
        · exact UInt64.le_refl _
        · exact UInt64.le_trans (UInt64.not_lt.1 hge) (ih hcolder hrest)

-- ---------------------------------------------------------------------------
-- Those who can make room
-- ---------------------------------------------------------------------------

/-- The partitions that may have to make room for others, and have something to give. -/
def eligible (n : Node) : List Partition :=
  (n.partitions.rows.map Prod.snd).filter fun p => !p.isSecluded && 0 < p.entries.size

/-- An entry of a partition is there before and gone afterwards. -/
structure Loses (n : Node) (victim key : Bytes) (m : Node) : Prop where
  there : ∃ q e, n.find? victim = some q ∧ q.entries.get? key = some e
  gone  : ∀ r, m.find? victim = some r → r.entries.get? key = none

/-- A write has come to a node where it waits for room: some rounds are over, and the attempt after
them was refused for lack of so many bytes. -/
def Operation.Waits (op : Operation) (n k : Node) (bytes : ByteCount) : Prop :=
  ∃ name now α write, op.target? = some (name, now) ∧ op.attempt? = some ⟨α, write⟩ ∧
    PartitionName.Valid name ∧ ∃ count < attempts, ∃ j p,
      rounds name now write count (n.entered name) = some j ∧ j.find? name = some p ∧
        (write (j.site p)).1 = .ok (.needsRoom bytes) ∧ k = j.settle (write (j.site p)).2

/-- The node with another supply of draws. -/
def redrawn (n : Node) (d : Draws) : Node := { n with world := { n.world with draws := d } }

theorem isSecluded_eq_false : p.isSecluded = false ↔
    p.metadata.maxCacheSize = 0 ∧ p.metadata.policy = .approximateLru := by
  have hbounded : p.metadata.isBounded = false ↔ p.metadata.maxCacheSize = 0 := by
    rw [Metadata.isBounded, decide_eq_false_iff_not, UInt64.pos_iff_ne_zero, not_not]
  have hpolicy : decide (p.metadata.policy = .noEviction) = false ↔
      p.metadata.policy = .approximateLru := by
    cases p.metadata.policy <;> decide
  rw [Partition.isSecluded, Bool.or_eq_false_iff, hbounded, hpolicy]

theorem mem_eligible (hn : n.WellFormed) : q ∈ n.eligible ↔
    n.find? q.name = some q ∧ q.isSecluded = false ∧ 0 < q.entries.size := by
  rw [eligible, List.mem_filter, Bool.and_eq_true, Bool.not_eq_true', decide_eq_true_eq]
  refine and_congr_left fun _ => ⟨fun hmem => ?_, fun hq => ?_⟩
  · obtain ⟨⟨name, r⟩, hrow, rfl⟩ := List.mem_map.1 hmem
    have hr : n.find? name = some r := Table.mem_rows_iff.1 hrow
    rw [(hn _ _ hr).named, hr]
  · exact List.mem_map.2 ⟨(q.name, q), Table.mem_rows_iff.2 hq, rfl⟩

/-- What partitions post about themselves tells who can make room. -/
theorem filter_isEligible (hn : n.WellFormed) (hb : n.Balanced) :
    (n.partitions.rows.map Prod.snd).filter isEligible = n.eligible := by
  apply List.filter_congr
  intro q hmem
  obtain ⟨⟨name, r⟩, hrow, rfl⟩ := List.mem_map.1 hmem
  have hr : n.find? name = some r := Table.mem_rows_iff.1 hrow
  have hpart := hn _ _ hr
  have hitems : (0 < r.tally.itemCount) ↔ 0 < r.entries.size := by
    rw [UInt64.lt_iff_toNat_lt, (hb.partitions _ _ hr).items]
    rfl
  have hopen : (!r.isBounded && r.evicts) = !r.isSecluded := by
    rw [Partition.isSecluded, Partition.isBounded, Metadata.isBounded, hpart.bound, hpart.evicts,
      Metadata.evicts]
    simp
  simp only [isEligible, hopen, hpart.inUse, hitems, Bool.not_false, Bool.and_true]

/-- Fewer partitions can make room if each of them could before. -/
theorem length_eligible_le (hn : n.WellFormed) (hm : m.WellFormed)
    (h : ∀ name q, m.find? name = some q → q.isSecluded = false → 0 < q.entries.size →
      ∃ p, n.find? name = some p ∧ p.isSecluded = false ∧ 0 < p.entries.size) :
    m.eligible.length ≤ n.eligible.length := by
  have hnodup : (m.eligible.map Partition.name).Nodup := by
    have hnames : (m.partitions.rows.map Prod.snd).map Partition.name = m.partitions.keys := by
      rw [List.map_map]
      apply List.map_congr_left
      intro row hrow
      exact (hm _ _ (Table.mem_rows_iff.1 hrow)).named
    exact (hnames ▸ m.partitions.nodup_keys).sublist (List.filter_sublist.map _)
  have hsubset : m.eligible.map Partition.name ⊆ n.eligible.map Partition.name := by
    intro name hname
    obtain ⟨q, hq, rfl⟩ := List.mem_map.1 hname
    obtain ⟨hfind, hopen, hpos⟩ := (mem_eligible hm).1 hq
    obtain ⟨p, hp, hopen', hpos'⟩ := h _ q hfind hopen hpos
    have hnamed : p.name = q.name := (hn _ _ hp).named
    exact List.mem_map.2 ⟨p, (mem_eligible hn).2 ⟨hnamed ▸ hp, hopen', hpos'⟩, hnamed⟩
  have hlength := (List.subperm_of_subset hnodup hsubset).length_le
  rwa [List.length_map, List.length_map] at hlength

-- ---------------------------------------------------------------------------
-- A run of eviction
-- ---------------------------------------------------------------------------

/-- A run that takes nothing uses up draws at most. -/
theorem evictFrom_of_zero (hn : n.WellFormed) (hzero : (n.evictFrom name bytes now).1 = 0) :
    ∃ d, (n.evictFrom name bytes now).2 = n.redrawn d := by
  cases hp : n.find? name with
  | none =>
    refine ⟨n.world.draws, ?_⟩
    simp only [evictFrom, visit, hp]
    rfl
  | some p =>
    rw [evictFrom_of_find? hp] at hzero ⊢
    obtain ⟨order, -, -, -, -, hsheds, -⟩ :=
      Site.evict_sheds (n.site p) (evictionCount p.tally bytes) now (.room bytes)
    rw [show ((n.site p).evict (evictionCount p.tally bytes) now (.room bytes)).1 = 0 from hzero,
      List.take_zero] at hsheds
    have hleft := hsheds.left
    generalize ((n.site p).evict (evictionCount p.tally bytes) now (.room bytes)).2 = s at hleft
    refine ⟨s.draws, ?_⟩
    have hself : n.partitions.insert p.name p = n.partitions :=
      Table.insert_eq_self ((hn _ _ hp).named.symm ▸ hp)
    rw [hleft]
    show { n.redrawn s.draws with partitions := n.partitions.insert p.name p } = n.redrawn s.draws
    rw [hself]
    rfl

/-- A run of eviction leaves the other partitions alone. -/
theorem find?_evictFrom_of_ne (bytes : ByteCount) (now : Millis) (hn : n.WellFormed)
    (hne : other ≠ victim) : (n.evictFrom victim bytes now).2.find? other = n.find? other := by
  have hconfined : Confined (Eq victim) n (n.evictFrom victim bytes now).2 :=
    (confined_evictFrom bytes now hn rfl).2
  exact hconfined.others other hne.symm

/-- A run that takes nothing from a partition that holds something is stopped by its goal. -/
theorem overTarget_of_evictFrom_zero (hp : n.find? name = some p)
    (hpolicy : p.metadata.policy = .approximateLru) (hpos : 0 < p.entries.size)
    (hzero : (n.evictFrom name bytes now).1 = 0) :
    (n.site p).overTarget p.metadata.maxCacheSize (.room bytes) = false := by
  refine Bool.eq_false_of_not_eq_true fun hover => ?_
  rw [evictFrom_of_find? hp] at hzero
  have htaken : 0 < ((n.site p).evict (evictionCount p.tally bytes) now (.room bytes)).1 :=
    Site.evict_pos hpolicy (evictionCount_ne_zero p.tally bytes) hpos hover
  exact Nat.ne_of_gt htaken hzero

theorem evictFrom_zero_of_overTarget (hp : n.find? name = some p)
    (hnot : (n.site p).overTarget p.metadata.maxCacheSize (.room bytes) = false) :
    (n.evictFrom name bytes now).1 = 0 := by
  rw [evictFrom_of_find? hp, Site.evict, if_pos (.inr hnot)]

theorem evictFrom_zero_of_empty (hp : n.find? name = some p) (hempty : p.entries.size = 0) :
    (n.evictFrom name bytes now).1 = 0 := by
  have hsize := Site.size_evict (n.site p) (evictionCount p.tally bytes) now (.room bytes)
  rw [evictFrom_of_find? hp]
  have hheld : (n.site p).part.entries.size = p.entries.size := rfl
  show ((n.site p).evict (evictionCount p.tally bytes) now (.room bytes)).1 = 0
  omega

-- ---------------------------------------------------------------------------
-- One round
-- ---------------------------------------------------------------------------

/-- The victim of a round. Nobody who can make room is colder, if the sample covers all of them. -/
structure IsVictim (n : Node) (q : Partition) : Prop where
  eligible : q ∈ n.eligible
  coldest  : n.eligible.length ≤ max 1 n.config.partitionEvictionSamples →
    ∀ r ∈ n.eligible, q.tally.lastHit ≤ r.tally.lastHit

/-- A write to a partition that draws from the shared part looks for a victim, and finds itself if
there is none. -/
theorem victimFor_of_open (hn : n.WellFormed) (hb : n.Balanced) (hp : n.find? name = some p)
    (hopen : p.isSecluded = false) :
    ∃ d, (n.victimFor p).2 = n.redrawn d ∧
      (n.eligible = [] ∧ (n.victimFor p).1 = name ∨
        ∃ q, n.IsVictim q ∧ (n.victimFor p).1 = q.name) := by
  have hpart := hn _ _ hp
  have hbounded : p.isBounded = false := ((isSecluded_eq_false_iff hn hp).1 hopen).1
  have hcount : 0 < max 1 n.config.partitionEvictionSamples := by omega
  simp only [victimFor, hbounded, Bool.false_eq_true, if_false, filter_isEligible hn hb]
  refine ⟨_, rfl, ?_⟩
  by_cases hnone : n.eligible = []
  · refine .inl ⟨hnone, ?_⟩
    rw [hnone, Draws.choose_of_le _ (Nat.zero_le _), coldest, Option.map_none, Option.getD_none,
      hpart.named]
  · obtain ⟨q, hq⟩ := exists_coldest
      (n.world.draws.choose_ne_nil hcount hnone)
    refine .inr ⟨q, ⟨Draws.mem_of_mem_choose (mem_of_coldest hq), fun hcovered r hr => ?_⟩, ?_⟩
    · rw [Draws.choose_of_le _ hcovered] at hq
      exact lastHit_coldest_le hq hr
    · rw [hq]
      rfl

/-- In a round the victim loses entries, or nobody does: where the victim keeps its entries although
it could give some, the shared part has the room, and so nothing is taken from the partition that is
written to. -/
theorem makeRoom_coldest (bytes : ByteCount) (now : Millis) (hn : n.WellFormed) (hb : n.Balanced)
    (hp : n.find? name = some p) (hopen : p.isSecluded = false) :
    (∀ other, (n.makeRoom name bytes now).2.find? other = n.find? other) ∨
      ∃ q, n.IsVictim q ∧ ∀ other, other ≠ q.name →
        (n.makeRoom name bytes now).2.find? other = n.find? other := by
  obtain ⟨hunbounded, -⟩ := isSecluded_eq_false.1 hopen
  obtain ⟨d, hdrawn, hvictim⟩ := victimFor_of_open hn hb hp hopen
  by_cases hrefused : p.evicts = false ∨
      (if p.isBounded then p.bound else n.totals.unreservedBudget) < bytes
  · left
    intro other
    simp only [makeRoom, hp, if_pos hrefused]
  · have hwf : (n.redrawn d).WellFormed := hn
    simp only [makeRoom, hp, if_neg hrefused, hdrawn]
    rcases hvictim with ⟨hnone, hself⟩ | ⟨q, hq, hname⟩
    · -- nobody has anything to give, the partition that is written to included
      have hempty : p.entries.size = 0 := by
        refine Nat.eq_zero_of_not_pos fun hpos => ?_
        have hmem : p ∈ n.eligible := (mem_eligible hn).2 ⟨(hn _ _ hp).named ▸ hp, hopen, hpos⟩
        rw [hnone] at hmem
        cases hmem
      have hzero : ((n.redrawn d).evictFrom name bytes now).1 = 0 :=
        evictFrom_zero_of_empty (n := n.redrawn d) hp hempty
      obtain ⟨d', hsame⟩ := evictFrom_of_zero hwf hzero
      left
      intro other
      rw [hself, if_neg (Nat.not_lt.2 (Nat.le_of_eq hzero)), if_pos rfl, hsame]
      rfl
    · rw [hname]
      by_cases hfreed : 0 < ((n.redrawn d).evictFrom q.name bytes now).1
      · refine .inr ⟨q, hq, fun other hne => ?_⟩
        rw [if_pos hfreed]
        exact find?_evictFrom_of_ne bytes now hwf hne
      · -- what stops the run at the victim stops it at the partition that is written to
        have hzero := Nat.eq_zero_of_not_pos hfreed
        obtain ⟨hfind, hqopen, hpos⟩ := (mem_eligible hn).1 hq.eligible
        obtain ⟨hqunbounded, hpolicy⟩ := isSecluded_eq_false.1 hqopen
        obtain ⟨d', hsame⟩ := evictFrom_of_zero hwf hzero
        have hnot := overTarget_of_evictFrom_zero (n := n.redrawn d) hfind hpolicy hpos hzero
        have hown : ((n.redrawn d').evictFrom name bytes now).1 = 0 := by
          apply evictFrom_zero_of_overTarget (n := n.redrawn d') hp
          rw [hunbounded]
          rw [hqunbounded] at hnot
          exact hnot
        obtain ⟨d'', hlast⟩ := evictFrom_of_zero (n := n.redrawn d') hn hown
        have htwice : (n.redrawn d).redrawn d' = n.redrawn d' := rfl
        left
        intro other
        rw [if_neg hfreed, hsame, htwice]
        split
        · rfl
        · rw [hlast]
          rfl

-- ---------------------------------------------------------------------------
-- All rounds
-- ---------------------------------------------------------------------------

/-- Where a write has come to that has not ended yet: partitions have lost entries at most. -/
structure Underway (n k : Node) : Prop where
  wellFormed : k.WellFormed
  balanced   : k.Balanced
  bytes      : k.bytesHeld < UInt64.size
  config     : k.config = n.config
  confined   : Confined (fun _ => True) n k
  thinned    : n.Thinned k

variable {α : Type} {keys : List Bytes} {write : Site → Except CacheError (Admission α) × Site}

namespace Underway

theorem refl (hn : n.WellFormed) (hb : n.Balanced) (hbytes : n.bytesHeld < UInt64.size) :
    n.Underway n :=
  ⟨hn, hb, hbytes, rfl, .refl _ n, .refl n⟩

/-- An attempt that waits for room adds nothing. -/
theorem attempt (h : n.Underway k) (hwrite : Site.Attempt now keys write)
    (hp : k.find? name = some p) (hneeds : (write (k.site p)).1 = .ok (.needsRoom bytes)) :
    n.Underway (k.settle (write (k.site p)).2) := by
  obtain ⟨hwf, hb, hbytes, hconfig, hconfined, hthin⟩ := h
  have hname := name_attempt hwrite.toWriting hwf hp
  have hafter : (k.settle (write (k.site p)).2).bytesHeld < UInt64.size := by
    have hwaits : (write (k.site p)).2.part.bytes ≤ p.bytes :=
      hwrite.waits (k.site p) bytes hneeds
    have hheld := bytesHeld_eq hp
    rw [bytesHeld_settle, hname]
    omega
  have hchanges : Changes (fun _ _ => True) (fun _ => False) UInt64.size k _ :=
    changes_write hwf hbytes hp hwrite.toWriting hafter
  have hmore : Confined (fun _ => True) k (k.settle (write (k.site p)).2) :=
    (confined_attempt hwrite.toWriting hwf hp trivial).2
  exact ⟨wellFormed_attempt hwrite.toWriting hwf hp, hchanges.balanced hwf hb (Nat.le_refl _),
    hafter, hchanges.config.trans hconfig, hconfined.trans hmore,
    hthin.trans (thinned_attempt hwrite hwf hp hneeds)⟩

theorem room (h : n.Underway k) (name : Bytes) (bytes : ByteCount) (now : Millis) :
    n.Underway (k.makeRoom name bytes now).2 := by
  obtain ⟨hwf, hb, hbytes, hconfig, hconfined, hthin⟩ := h
  have hchanges : Changes (fun _ _ => True) (fun _ => False) UInt64.size k _ :=
    changes_makeRoom name bytes now hwf hbytes
  have hmore : Confined (fun _ => True) k (k.makeRoom name bytes now).2 :=
    (confined_makeRoom bytes now hwf fun _ _ => trivial).2
  obtain ⟨hwf', hmorethin⟩ := thinned_makeRoom name bytes now hwf
  exact ⟨hwf', hchanges.balanced hwf hb (Nat.le_refl _), hchanges.bytes_lt hbytes,
    hchanges.config.trans hconfig, hconfined.trans hmore, hthin.trans hmorethin⟩

/-- A round follows an attempt that waits. -/
theorem round (h : n.Underway k) (hwrite : Site.Attempt now keys write)
    (hround : Node.round name now write k = some m) : n.Underway m := by
  cases hp : k.find? name with
  | none => simp [Node.round, visit, hp] at hround
  | some p =>
    cases hresult : (write (k.site p)).1 with
    | error err =>
      rw [round_eq_none hp (by simp [hresult])] at hround
      cases hround
    | ok admission =>
      cases admission with
      | done a =>
        rw [round_eq_none hp (by simp [hresult])] at hround
        cases hround
      | needsRoom bytes =>
        rw [round_of_needsRoom hp hresult] at hround
        split at hround
        · cases hround
          exact (h.attempt hwrite hp hresult).room name bytes now
        · cases hround

theorem rounds {count : Nat} (h : n.Underway k) (hwrite : Site.Attempt now keys write)
    (hrounds : Node.rounds name now write count k = some m) : n.Underway m := by
  induction count generalizing k with
  | zero =>
    cases hrounds
    exact h
  | succ count ih =>
    obtain ⟨first, hfirst, hlater⟩ := Option.bind_eq_some_iff.1 hrounds
    exact ih (h.round hwrite hfirst) hlater

/-- Nobody can make room who could not from the start. -/
theorem length_eligible_le (h : n.Underway k) (hn : n.WellFormed) :
    k.eligible.length ≤ n.eligible.length := by
  apply Node.length_eligible_le hn h.wellFormed
  intro name q hq hopen hpos
  obtain ⟨p, hp, hsettings⟩ := h.confined.settings_of_find?' hq
  refine ⟨p, hp, isSecluded_eq hsettings ▸ hopen, ?_⟩
  -- what is left was there
  obtain ⟨⟨key, e⟩, hrow⟩ := List.exists_mem_of_length_pos hpos
  obtain ⟨q', hq', -, hentries⟩ := h.thinned name p hp
  rw [hq] at hq'
  obtain rfl : q = q' := Option.some.inj hq'
  exact List.length_pos_of_mem
    (Table.mem_rows_iff.2 (hentries key e (Table.mem_rows_iff.1 hrow)))

/-- A write starts where its partition is in the table. -/
theorem entered (hn : n.WellFormed) (hb : n.Balanced) (hbytes : n.bytesHeld < UInt64.size)
    (hname : PartitionName.Valid name) : (n.entered name).Underway (n.entered name) := by
  have hensured : n.ensure name = .ok (n.entered name) := by
    rcases ensure_eq n name with ⟨-, hensure⟩ | ⟨err, herr, -⟩
    · exact hensure
    · rw [show PartitionName.check name = .ok () from hname] at herr
      cases herr
  have hchanges : Changes (fun _ _ => True) (fun _ => False) UInt64.size n (n.entered name) :=
    changes_ensure hbytes hensured
  exact .refl (hchanges.wellFormed hn) (hchanges.balanced hn hb (Nat.le_refl _))
    (hchanges.bytes_lt hbytes)

end Underway

/-- Where a write waits for room it is on its way. -/
theorem Operation.Waits.underway {op : Operation} (h : op.Waits n k bytes)
    (hop : op.target? = some (name, now)) (hn : n.WellFormed) (hb : n.Balanced)
    (hbytes : n.bytesHeld < UInt64.size) :
    PartitionName.Valid name ∧ (n.entered name).Underway k ∧
      ∃ p, k.find? name = some p ∧ p.settings = (n.target name).settings := by
  obtain ⟨name', now', α, write, hop', hattempt, hname, count, -, j, p, hrounds, hp, hneeds, rfl⟩ :=
    h
  rw [hop] at hop'
  cases hop'
  have hwrite := Operation.attempt_of_attempt? hop hattempt
  have hthere := (Underway.entered hn hb hbytes hname).rounds hwrite hrounds
  refine ⟨hname, hthere.attempt hwrite hp hneeds, _,
    find?_attempt hwrite.toWriting hthere.wellFormed hp, ?_⟩
  obtain ⟨q, hq, hsettings⟩ := hthere.confined.settings_of_find?' hp
  rw [find?_entered] at hq
  cases hq
  exact (hwrite.settings _).trans hsettings

-- ---------------------------------------------------------------------------
-- Where entries are lost
-- ---------------------------------------------------------------------------

/-- An attempt keeps the entries under the keys that it is not about. -/
theorem get?_attempt {e : Entry} (hwrite : Site.Attempt now keys write) (hn : n.WellFormed)
    (hp : n.find? name = some p) (hq : n.find? victim = some q)
    (he : q.entries.get? key = some e) (hkey : victim = name → key ∉ keys) :
    ∃ r, (n.settle (write (n.site p)).2).find? victim = some r ∧ r.entries.get? key = some e := by
  by_cases hsame : victim = name
  · subst hsame
    rw [hp] at hq
    obtain rfl : p = q := Option.some.inj hq
    exact ⟨_, find?_attempt hwrite.toWriting hn hp,
      (hwrite.others (n.site p) key (hkey rfl)).trans he⟩
  · exact ⟨q, (find?_attempt_of_ne hwrite.toWriting hn hp hsame).trans hq, he⟩

/-- What is not lost is there still. -/
theorem Loses.or_there {e : Entry} (hq : n.find? victim = some q)
    (he : q.entries.get? key = some e) (m : Node) :
    n.Loses victim key m ∨ ∃ r f, m.find? victim = some r ∧ r.entries.get? key = some f := by
  by_cases hgone : ∀ r, m.find? victim = some r → r.entries.get? key = none
  · exact .inl ⟨⟨q, e, hq, he⟩, hgone⟩
  · obtain ⟨r, hr⟩ := not_forall.1 hgone
    obtain ⟨hfind, hthere⟩ := Classical.not_imp.1 hr
    obtain ⟨f, hf⟩ := Option.ne_none_iff_exists'.1 hthere
    exact .inr ⟨r, f, hfind, hf⟩

/-- An entry that attempts and their rounds take away, and that they are not about, is lost in one of
the rounds. -/
theorem exists_round_of_loses {e : Entry} (hwrite : Site.Attempt now keys write) (tries : Nat)
    (needed : ByteCount) (hn : n.WellFormed) (hq : n.find? victim = some q)
    (he : q.entries.get? key = some e) (hkey : victim = name → key ∉ keys)
    (hlost : ∀ r, (tryWrite name now write tries needed n).2.find? victim = some r →
      r.entries.get? key = none) :
    ∃ count, count < tries ∧ ∃ j, Node.rounds name now write count n = some j ∧
      ∃ p bytes, j.find? name = some p ∧ (write (j.site p)).1 = .ok (.needsRoom bytes) ∧
        (j.settle (write (j.site p)).2).Loses victim key
          ((j.settle (write (j.site p)).2).makeRoom name bytes now).2 := by
  -- the induction is on the attempts that are left, over all nodes that rounds may lead to
  induction tries generalizing needed n q e with
  | zero =>
    rw [hlost q hq] at he
    cases he
  | succ tries ih =>
    rw [exists_rounds_succ]
    cases hp : n.find? name with
    | none =>
      simp only [tryWrite, visit, hp, Option.map_none] at hlost
      rw [hlost q hq] at he
      cases he
    | some p =>
      obtain ⟨r, hr, hre⟩ := get?_attempt hwrite hn hp hq he hkey
      simp only [tryWrite, visit, hp, Option.map_some, act] at hlost
      cases hresult : (write (n.site p)).1 with
      | error err =>
        simp only [hresult] at hlost
        rw [hlost r hr] at hre
        cases hre
      | ok admission =>
        cases admission with
        | done a =>
          simp only [hresult] at hlost
          rw [hlost r hr] at hre
          cases hre
        | needsRoom bytes =>
          simp only [hresult] at hlost
          have hwf := wellFormed_attempt hwrite.toWriting hn hp
          rcases Loses.or_there hr hre
            ((n.settle (write (n.site p)).2).makeRoom name bytes now).2 with hloses | ⟨u, f, hu, hf⟩
          · exact .inl ⟨p, bytes, rfl, hresult, hloses⟩
          · -- the entry has outlived the first round
            by_cases hfreed : ((n.settle (write (n.site p)).2).makeRoom name bytes now).1 = true
            · rw [if_pos hfreed] at hlost
              refine .inr ⟨_, ?_, ih bytes
                (thinned_makeRoom name bytes now hwf).1 hu hf hlost⟩
              rw [round_of_needsRoom hp hresult, if_pos hfreed]
            · rw [if_neg hfreed] at hlost
              rw [hlost u hu] at hf
              cases hf

/-- So an entry that a write takes away, and that it is not about, is lost in one of its rounds. -/
theorem exists_waits_of_loses {op : Operation} (hn : n.WellFormed)
    (hop : op.target? = some (name, now)) (hlost : n.Loses victim key (n.perform op).2)
    (hkey : victim = name → key ∉ op.keys) :
    ∃ k bytes, op.Waits n k bytes ∧ k.Loses victim key (k.makeRoom name bytes now).2 := by
  obtain ⟨⟨q, e, hq, he⟩, hgone⟩ := hlost
  rcases perform_attempt hop n with
    ⟨err, -, heq⟩ | ⟨hname, α, shape, write, hattempt, -, heq⟩
  · rw [heq] at hgone
    rw [hgone q hq] at he
    cases he
  · rw [heq] at hgone
    obtain ⟨count, hcount, j, hrounds, p, bytes, hp, hneeds, hloses⟩ :=
      exists_round_of_loses (Operation.attempt_of_attempt? hop hattempt) attempts 0
        (entered_wellFormed hn hname) (find?_entered_of_find? hq) he hkey hgone
    exact ⟨_, bytes, ⟨name, now, α, write, hop, hattempt, hname, count, hcount, j, p, hrounds, hp,
      hneeds, rfl⟩, hloses⟩

/-- Wherever a write to a partition that draws from the shared part waits for room, the next round
takes entries from one partition at most: one that draws from it, too, may evict, and held something.
If the sample covers all partitions of this kind, those that were hit before it are empty. Whatever
a write takes away, and is not about, is taken in one of these rounds. -/
theorem coldest_pays_first {op : Operation} (hn : Fresh n)
    (hrun : Reaches (fun k op => (k.perform op).2.bytesHeld < UInt64.size) n m)
    (hop : op.target? = some (name, now)) (hopen : (m.target name).isSecluded = false) :
    (∀ k bytes victim key, op.Waits m k bytes →
      k.Loses victim key (k.makeRoom name bytes now).2 →
      ∃ q, k.find? victim = some q ∧ q.isSecluded = false ∧ 0 < q.entries.size ∧
        (∀ other, other ≠ victim →
          (k.makeRoom name bytes now).2.find? other = k.find? other) ∧
        (m.eligible.length ≤ max 1 m.config.partitionEvictionSamples →
          ∀ other r, k.find? other = some r → r.isSecluded = false →
            r.tally.lastHit < q.tally.lastHit → r.entries.size = 0)) ∧
      ∀ victim key, m.Loses victim key (m.perform op).2 → (victim = name → key ∉ op.keys) →
        ∃ k bytes, op.Waits m k bytes ∧ k.Loses victim key (k.makeRoom name bytes now).2 := by
  obtain ⟨hwf, hbytes, hb⟩ := hrun.balanced hn
  refine ⟨?_, fun victim key hlost hkey => exists_waits_of_loses hwf hop hlost hkey⟩
  rintro k bytes victim key hwaits ⟨⟨q, e, hq, he⟩, hgone⟩
  obtain ⟨hname, hunderway, p, hp, hsettings⟩ := hwaits.underway hop hwf hb hbytes
  have hpopen : p.isSecluded = false := isSecluded_eq hsettings ▸ hopen
  have hentered := entered_wellFormed hwf hname
  rcases makeRoom_coldest bytes now hunderway.wellFormed hunderway.balanced hp hpopen with
    hsame | ⟨v, hvictim, hothers⟩
  · -- nobody loses anything
    rw [hgone q ((hsame victim).trans hq)] at he
    cases he
  · obtain rfl : victim = v.name := by
      refine by_contra fun hne => ?_
      rw [hgone q ((hothers victim hne).trans hq)] at he
      cases he
    obtain ⟨hfind, hvopen, hpos⟩ := (mem_eligible hunderway.wellFormed).1 hvictim.eligible
    rw [hfind] at hq
    obtain rfl : v = q := Option.some.inj hq
    refine ⟨v, hfind, hvopen, hpos, hothers, fun hcovered other r hr hropen hcolder => ?_⟩
    have hsample : k.eligible.length ≤ max 1 k.config.partitionEvictionSamples := by
      have hfewer := hunderway.length_eligible_le hentered
      have hstart : (m.entered name).eligible.length ≤ m.eligible.length := by
        apply length_eligible_le hwf hentered
        intro other u hu huopen hupos
        obtain ⟨⟨key, f⟩, hrow⟩ := List.exists_mem_of_length_pos hupos
        exact ⟨u, find?_of_entered hu (Table.mem_rows_iff.1 hrow), huopen, hupos⟩
      rw [hunderway.config, config_entered]
      omega
    refine Nat.eq_zero_of_not_pos fun hheld => ?_
    have hmem : r ∈ k.eligible :=
      (mem_eligible hunderway.wellFormed).2
        ⟨(hunderway.wellFormed _ _ hr).named.symm ▸ hr, hropen, hheld⟩
    exact absurd hcolder (UInt64.not_lt.2 (hvictim.coldest hsample r hmem))

/-- Two partitions fill the shared part of a budget of thirty bytes, and the first was hit before the
second. -/
def warming : List Operation :=
  [ .put .upsert [113] [97] [1, 2, 3] 1,
    .put .upsert [114] [97] [1, 2, 3, 4, 5, 6, 7, 8, 9] 2,
    .put .upsert [114] [98] [1, 2, 3, 4, 5, 6, 7, 8, 9] 3,
    .get [113] [97] 10,
    .get [114] [98] 20 ]

/-- A third partition is to get nineteen bytes. -/
def largePut : Operation :=
  .put .upsert [112] [97] [1, 2, 3, 4, 5, 6, 7, 8, 9, 1, 2, 3, 4, 5, 6, 7, 8, 9] 30

/-- The first partition does not have them. It is empty when the second loses an entry. -/
theorem coldest_pays_first_warming :
    ∃ k bytes q, largePut.Waits (performAll warming (bare { maxCacheSize := 30 })).2 k bytes ∧
      k.find? [114] = some q ∧ 0 < q.entries.size ∧
      ∀ other r, k.find? other = some r → r.isSecluded = false →
        r.tally.lastHit < q.tally.lastHit → r.entries.size = 0 := by
  have hrun : Reaches (fun k op => (k.perform op).2.bytesHeld < UInt64.size)
      (bare { maxCacheSize := 30 }) (performAll warming (bare { maxCacheSize := 30 })).2 :=
    Reaches.start.performAll warming
      ⟨by decide, by decide, by decide, by decide, by decide, trivial⟩
  have hop : largePut.target? = some ([112], 30) := rfl
  obtain ⟨hrounds, hlost⟩ := coldest_pays_first (fresh_bare _) hrun hop (by decide)
  have hgone : (((performAll warming (bare { maxCacheSize := 30 })).2.perform largePut).2.find?
      [114]).bind (fun r => r.entries.get? [97]) = none := by cbv
  have hloses : (performAll warming (bare { maxCacheSize := 30 })).2.Loses [114] [97]
      ((performAll warming (bare { maxCacheSize := 30 })).2.perform largePut).2 := by
    refine ⟨⟨_, _, rfl, rfl⟩, fun r hr => ?_⟩
    rw [hr] at hgone
    exact hgone
  obtain ⟨k, bytes, hwaits, htaken⟩ := hlost [114] [97] hloses (by decide)
  obtain ⟨q, hq, -, hpos, -, hcoldest⟩ := hrounds k bytes [114] [97] hwaits htaken
  exact ⟨k, bytes, q, hwaits, hq, hpos, hcoldest (by decide)⟩

end Node

end CacheNode

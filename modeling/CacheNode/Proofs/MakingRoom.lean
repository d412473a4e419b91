import CacheNode.Proofs.Accounting
import CacheNode.Proofs.Refusal
import CacheNode.Proofs.Sampling

/-!
# CacheNode — making room

A partition with a bound of its own makes room for a write within itself. As long as the write does
not fit there is an entry to evict, and a round evicts one at least: a whole partition is looked at,
or a sample that is not empty. So a write that fits the bound gets its room in the end, unless the
attempts are used up before: it is tried sixteen times.

* `Site.evict_pos` — a run of eviction evicts something while it is over its goal;
* `Node.tryWrite_progress` — attempts that can always go on, and where they end;
* `Node.put_finds_room` — a write that fits the bound succeeds, or uses up its attempts.
-/

namespace CacheNode

/-- A batch of one item adds the difference between its weight and what was there. -/
theorem Partition.growth_single (p : Partition) (key value : Bytes) :
    p.growth [(key, value)] = Entry.weight key value - p.bytesAt key := by
  simp [Partition.growth, lastOccurrences, sumOf]

namespace Site

variable {s : Site} {key value : Bytes} {now : Millis} {bytes : ByteCount}

-- ---------------------------------------------------------------------------
-- There is something to evict
-- ---------------------------------------------------------------------------

/-- A run of eviction evicts something from a partition that holds something, as long as usage
exceeds its goal. -/
theorem evict_pos {count : Nat} {goal : EvictionGoal}
    (hpolicy : s.part.metadata.policy = .approximateLru) (hcount : count ≠ 0)
    (hsize : 0 < s.part.entries.size)
    (hover : s.overTarget s.part.metadata.maxCacheSize goal = true) :
    0 < (s.evict count now goal).1 := by
  have hgo : ¬ (count = 0 ∨ s.overTarget s.part.metadata.maxCacheSize goal = false) := by
    rw [hover]
    simpa using hcount
  simp only [evict, if_neg hgo, hpolicy]
  generalize hproposed : EvictionPolicy.approximateLru.candidates s.part.limits.keyEvictionSamples
    count (s.part.expiry now) s.part.entries s.draws = proposed
  have hne := EvictionPolicy.candidates_ne_nil s.part.limits.keyEvictionSamples
    (s.part.expiry now) s.draws hcount hsize
  rw [hproposed] at hne
  obtain ⟨c, rest, hc⟩ := List.exists_cons_of_ne_nil hne
  -- the first candidate is there, because candidates are entries of the partition
  have hthere : c ∈ proposed.1 := by
    rw [hc]
    exact List.mem_cons_self
  rw [← hproposed] at hthere
  obtain ⟨e, he, -⟩ := EvictionPolicy.mem_candidates hthere
  have hgo' : ¬ (count = 0 ∨ ({ s with draws := proposed.2 } : Site).overTarget
      s.part.metadata.maxCacheSize goal = false) := hgo
  rw [hc, evictEach, if_neg hgo']
  simp only [he]
  exact Nat.succ_pos _

theorem lastOccurrences_of_nodup {items : List (Bytes × Bytes)}
    (hkeys : (items.map Prod.fst).Nodup) : lastOccurrences items = items := by
  induction items with
  | nil => rfl
  | cons item rest ih =>
    obtain ⟨hfirst, hrest⟩ := List.nodup_cons.1 hkeys
    have hlast : ¬ rest.any (·.1 = item.1) = true := by
      rintro hany
      obtain ⟨other, hother, hsame⟩ := List.any_eq_true.1 hany
      exact hfirst (of_decide_eq_true hsame ▸ List.mem_map_of_mem hother)
    rw [lastOccurrences, if_neg hlast, ih hrest]

/-- Items that pass their checks are planned as they are if no key occurs twice. -/
theorem plan_upsert {p : Partition} {items : List (Bytes × Bytes)} (huse : p.retired = false)
    (hvalid : ∀ item ∈ items, p.checkItem item = .ok ()) (hkeys : (items.map Prod.fst).Nodup)
    (now : Millis) :
    p.plan items .upsert now =
      .ok ⟨items, sumOf (fun item => Entry.weight item.1 item.2) items,
        sumOf (fun item => p.bytesAt item.1) items⟩ := by
  have hconditions : checkEach (fun item : Bytes × Bytes =>
      p.checkCondition .upsert (p.expiry now) item.1) items = .ok () :=
    checkEach_eq_ok_iff.2 fun _ _ => rfl
  simp only [Partition.plan, checkEach_eq_ok_iff.2 hvalid, Partition.checkInUse_of_inUse huse,
    lastOccurrences_of_nodup hkeys, hconditions]

/-- An item that passes its checks is written, or it waits for room. -/
theorem writeMany_single (now : Millis) (hitem : s.part.checkItem (key, value) = .ok ())
    (huse : s.part.retired = false) :
    (∃ count, (s.writeMany [(key, value)] .upsert now).1 = .ok (.done count)) ∨
      ∃ bytes, (s.writeMany [(key, value)] .upsert now).1 = .ok (.needsRoom bytes) := by
  have hvalid : ∀ item ∈ [(key, value)], s.part.checkItem item = .ok () := by simpa using hitem
  simp only [writeMany, plan_upsert huse hvalid (List.nodup_singleton key) now]
  split
  · exact .inr ⟨_, rfl⟩
  · exact .inl ⟨_, rfl⟩

end Site

namespace Node

variable {n m k : Node} {name : Bytes} {p q : Partition} {key value : Bytes} {now : Millis}
  {bytes : ByteCount}

-- ---------------------------------------------------------------------------
-- One round
-- ---------------------------------------------------------------------------

theorem evictionCount_ne_zero (t : Tally) (bytes : ByteCount) : evictionCount t bytes ≠ 0 := by
  have hpos : 0 < evictionCount t bytes := Nat.lt_min.2 ⟨Nat.succ_pos _, by decide⟩
  omega

theorem evictFrom_of_find? (hp : n.find? name = some p) :
    n.evictFrom name bytes now =
      (((n.site p).evict (evictionCount p.tally bytes) now (.room bytes)).1,
        n.settle ((n.site p).evict (evictionCount p.tally bytes) now (.room bytes)).2) := by
  simp only [evictFrom, visit, hp, Option.map_some, act]
  rfl

/-- A partition with a bound makes room within itself. -/
theorem makeRoom_of_bounded (hp : n.find? name = some p) (hnamed : p.name = name)
    (hbounded : p.isBounded = true) (hevicts : p.evicts = true) (hfits : bytes ≤ p.bound)
    (hfreed : 0 < (n.evictFrom name bytes now).1) :
    n.makeRoom name bytes now = (true, (n.evictFrom name bytes now).2) := by
  have hgo : ¬ (p.evicts = false ∨ p.bound < bytes) := by
    rw [hevicts]
    simpa using UInt64.not_lt.2 hfits
  simp only [makeRoom, hp, hbounded, if_true, if_neg hgo, victimFor, hnamed, if_pos hfreed]

/-- Where rounds of eviction have come to that took at least so many entries of a partition. -/
structure Emptied (config : Config) (name : Bytes) (p : Partition) (count : Nat) (k : Node) :
    Prop where
  wellFormed : k.WellFormed
  balanced   : k.Balanced
  bytes      : k.bytesHeld < UInt64.size
  config     : k.config = config
  left       : ∃ q, k.find? name = some q ∧ q.settings = p.settings ∧
    q.entries.size + count ≤ p.entries.size

/-- What it means that an attempt to write what fits the bound is refused: with the growth usage
would exceed the bound, so there is something in the partition. -/
theorem Emptied.refused {count : Nat} (h : Emptied n.config name p count k)
    (hbounded : 0 < p.metadata.maxCacheSize)
    (hweight : Entry.weight key value ≤ p.metadata.maxCacheSize.toNat)
    (hq : k.find? name = some q)
    (hneeds : ((k.site q).writeMany [(key, value)] .upsert now).1 = .ok (.needsRoom bytes)) :
    bytes = UInt64.ofNat (Entry.weight key value - q.bytesAt key) ∧
      bytes ≤ q.metadata.maxCacheSize ∧ 0 < q.entries.size ∧
      p.metadata.maxCacheSize.toNat < q.bytes - q.bytesAt key + Entry.weight key value ∧
      (k.site q).overTarget q.metadata.maxCacheSize (.room bytes) = true := by
  obtain ⟨hwf, hb, -, -, r, hr, hsettings, -⟩ := h
  rw [hq] at hr
  obtain rfl : q = r := Option.some.inj hr
  rw [← Partition.metadata_eq hsettings] at hbounded hweight ⊢
  obtain ⟨hbytes, hnone⟩ := need_writeMany hneeds
  rw [Partition.growth_single] at hbytes
  obtain ⟨hzero, hexceeds, hover⟩ := Site.grow_eq_none hnone
  have hpos : bytes.toNat ≠ 0 := fun hnothing => hzero (UInt64.toNat.inj hnothing)
  have hcounted : q.tally.totalSize.toNat = q.bytes := (hb.partitions _ _ hq).bytes
  have hle : bytes.toNat ≤ Entry.weight key value - q.bytesAt key := by
    rw [hbytes]
    exact Nat.mod_le _ _
  have hthere := Partition.bytes_eq_erase_add q key
  have hover' : q.metadata.maxCacheSize.toNat < q.bytes + bytes.toNat := by
    have hbound : 0 < (k.site q).part.metadata.maxCacheSize := hbounded
    rw [Site.usage, if_pos hbound] at hexceeds
    rw [← hcounted]
    exact hexceeds
  refine ⟨hbytes, ?_, ?_, ?_, hover hbounded⟩
  · rw [UInt64.le_iff_toNat_le]
    omega
  · -- an empty partition would hold no bytes
    apply Nat.pos_of_ne_zero
    intro hempty
    have hnothing : q.bytes = 0 := by
      rw [Partition.bytes, Table.size_eq_zero_iff.1 hempty]
      rfl
    omega
  · omega

/-- A refused attempt to write what fits the bound is followed by a round that evicts something. -/
theorem Emptied.round {count : Nat} (h : Emptied n.config name p count k)
    (hbounded : 0 < p.metadata.maxCacheSize) (hpolicy : p.metadata.policy = .approximateLru)
    (hweight : Entry.weight key value ≤ p.metadata.maxCacheSize.toNat)
    (hq : k.find? name = some q)
    (hneeds : ((k.site q).writeMany [(key, value)] .upsert now).1 = .ok (.needsRoom bytes)) :
    ∃ later, round name now (fun s => s.writeMany [(key, value)] .upsert now) k = some later ∧
      Emptied n.config name p (count + 1) later := by
  obtain ⟨-, hfits, hpos, -, hover⟩ := h.refused hbounded hweight hq hneeds
  obtain ⟨hwf, hb, hbytes, hconfig, r, hr, hsettings, hsize⟩ := h
  rw [hq] at hr
  obtain rfl : q = r := Option.some.inj hr
  have hpart := hwf _ _ hq
  have hmetadata := Partition.metadata_eq hsettings
  rw [← hmetadata] at hbounded hpolicy
  -- the refused attempt leaves the node as it is, and its round evicts from the partition itself
  have hsame : k.settle ((k.site q).writeMany [(key, value)] .upsert now).2 = k := by
    rw [writeMany_of_needsRoom hneeds]
    exact settle_site hq hpart.named
  have hevicted : Changes (fun _ _ => True) (fun _ => False) UInt64.size k
      (k.evictFrom name bytes now).2 :=
    changes_evictFrom name bytes now hwf hbytes
  have hsteps : Site.Steps False _ (k.site q) _ :=
    Site.steps_evict (evictionCount q.tally bytes) now (.room bytes) (Nat.lt_succ_self q.bytes)
  have hfreed : 0 < (k.evictFrom name bytes now).1 := by
    rw [evictFrom_of_find? hq]
    exact Site.evict_pos hpolicy (evictionCount_ne_zero q.tally bytes) hpos hover
  have hroom : k.makeRoom name bytes now = (true, (k.evictFrom name bytes now).2) := by
    apply makeRoom_of_bounded hq hpart.named _ _ _ hfreed
    · rw [Partition.isBounded, hpart.bound]
      simpa using hbounded
    · rw [hpart.evicts, Metadata.evicts, hpolicy]
      rfl
    · rw [hpart.bound]
      exact hfits
  refine ⟨(k.evictFrom name bytes now).2, ?_, hevicted.wellFormed hwf,
    hevicted.balanced hwf hb (Nat.le_refl _), hevicted.bytes_lt hbytes,
    hevicted.config.trans hconfig, ?_⟩
  · rw [round_of_needsRoom hq hneeds, hsame, hroom]
    rfl
  · rw [evictFrom_of_find? hq] at hfreed ⊢
    have hcounted := Site.size_evict (k.site q) (evictionCount q.tally bytes) now (.room bytes)
    refine ⟨_, (find?_settle _ _ _).trans (if_pos ?_), hsteps.settings.trans hsettings, ?_⟩
    · exact ((Partition.name_eq hsteps.settings).trans hpart.named).symm
    · have hheld : (k.site q).part.entries.size = q.entries.size := rfl
      simp only at hfreed
      omega

/-- An attempt to write a valid item that fits the bound succeeds or is followed by a round. -/
theorem Emptied.attempt {count : Nat} (h : Emptied n.config name p count k)
    (hbounded : 0 < p.metadata.maxCacheSize) (hpolicy : p.metadata.policy = .approximateLru)
    (hitem : n.config.Accepts (key, value))
    (hweight : Entry.weight key value ≤ p.metadata.maxCacheSize.toNat) (now : Millis) :
    ∃ q, k.find? name = some q ∧
      ((∃ a, ((k.site q).writeMany [(key, value)] .upsert now).1 = .ok (.done a)) ∨
        ∃ bytes later,
          ((k.site q).writeMany [(key, value)] .upsert now).1 = .ok (.needsRoom bytes) ∧
          Node.round name now (fun s => s.writeMany [(key, value)] .upsert now) k = some later ∧
          Emptied n.config name p (count + 1) later) := by
  obtain ⟨q, hq, -⟩ := h.left
  have hpart := h.wellFormed _ _ hq
  have hlimits : q.limits = n.config.limits := by rw [hpart.limited, h.config]
  refine ⟨q, hq, ?_⟩
  rcases Site.writeMany_single (s := k.site q) now
    (Partition.checkItem_of_accepts hlimits hitem) hpart.inUse with hdone | ⟨bytes, hneeds⟩
  · exact .inl hdone
  · obtain ⟨later, hround, hlater⟩ := h.round hbounded hpolicy hweight hq hneeds
    exact .inr ⟨bytes, later, hneeds, hround, hlater⟩

-- ---------------------------------------------------------------------------
-- All rounds
-- ---------------------------------------------------------------------------

/-- An attempt that waits for room, and its round, leave the rest to the next attempt. -/
theorem tryWrite_of_round {α : Type} {write : Site → Except CacheError (Admission α) × Site}
    (tries : Nat) (needed : ByteCount) (hp : n.find? name = some p)
    (hneeds : (write (n.site p)).1 = .ok (.needsRoom bytes))
    (hround : round name now write n = some m) :
    tryWrite name now write (tries + 1) needed n = tryWrite name now write tries bytes m := by
  rw [round_of_needsRoom hp hneeds] at hround
  simp only [tryWrite, visit, hp, Option.map_some, act, hneeds]
  split at hround
  · next hfreed =>
    rw [if_pos hfreed, Option.some.inj hround]
  · cases hround

/-- Attempts that succeed or are followed by a round succeed in the end, or they are used up. -/
theorem tryWrite_progress {α : Type} (name : Bytes) (now : Millis)
    (write : Site → Except CacheError (Admission α) × Site) {P : Nat → Node → Prop}
    (tries count : Nat) (needed : ByteCount) (h : P count n)
    (hstep : ∀ count k, P count k → ∃ q, k.find? name = some q ∧
      ((∃ a, (write (k.site q)).1 = .ok (.done a)) ∨
        ∃ bytes later, (write (k.site q)).1 = .ok (.needsRoom bytes) ∧
          round name now write k = some later ∧ P (count + 1) later)) :
    (∃ a, (tryWrite name now write (tries + 1) needed n).1 = .ok a) ∨
      ∃ k q bytes, rounds name now write tries n = some k ∧ P (count + tries) k ∧
        k.find? name = some q ∧ (write (k.site q)).1 = .ok (.needsRoom bytes) ∧
        (tryWrite name now write (tries + 1) needed n).1 =
          .error (.insufficientCapacity (.write name bytes)) := by
  induction tries generalizing count needed n with
  | zero =>
    obtain ⟨q, hq, ⟨a, ha⟩ | ⟨bytes, later, hneeds, hround, -⟩⟩ := hstep count n h
    · refine .inl ⟨a, ?_⟩
      simp only [tryWrite, visit, hq, Option.map_some, act, ha]
    · refine .inr ⟨n, q, bytes, rfl, h, hq, hneeds, ?_⟩
      rw [tryWrite_of_round 0 needed hq hneeds hround, tryWrite]
  | succ tries ih =>
    obtain ⟨q, hq, ⟨a, ha⟩ | ⟨bytes, later, hneeds, hround, hlater⟩⟩ := hstep count n h
    · refine .inl ⟨a, ?_⟩
      simp only [tryWrite, visit, hq, Option.map_some, act, ha]
    · rw [tryWrite_of_round (tries + 1) needed hq hneeds hround]
      rcases ih (count + 1) bytes hlater with hok | ⟨k, r, needs, hrounds, hk, hr, hlast, hend⟩
      · exact .inl hok
      · refine .inr ⟨k, r, needs, ?_, ?_, hr, hlast, hend⟩
        · rw [rounds, hround]
          exact hrounds
        · rwa [Nat.add_right_comm] at hk

/-- Along a run in which the bytes that are held stay below 2^64, counters are true. -/
theorem Reaches.balanced (hn : Fresh n)
    (hrun : Reaches (fun k op => (k.perform op).2.bytesHeld < UInt64.size) n m) :
    m.WellFormed ∧ m.bytesHeld < UInt64.size ∧ m.Balanced := by
  refine hrun.invariant (P := fun k => k.WellFormed ∧ k.bytesHeld < UInt64.size ∧ k.Balanced)
    ⟨hn.wellFormed, by rw [hn.bytesHeld]; decide, hn.balanced⟩ ?_
  rintro k op ⟨hwf, hbytes, hb⟩ hafter
  exact ⟨perform_wellFormed op hwf, hafter, perform_balanced op hwf hb hbytes hafter⟩

/-- So they are true at each partition. -/
theorem Reaches.balanced_site (hn : Fresh n)
    (hrun : Reaches (fun k op => (k.perform op).2.bytesHeld < UInt64.size) n m)
    (hp : m.find? name = some p) : (m.site p).Balanced (m.others name) := by
  obtain ⟨-, -, hb⟩ := hrun.balanced hn
  exact hb.site hp

/-- Putting a valid item into a partition of the table is a sequence of attempts. -/
theorem perform_put (hn : n.WellFormed) (hp : n.find? name = some p) :
    n.perform (.put .upsert name key value now) = answer (fun _ => .done)
      (n.accept name now fun s => s.writeMany [(key, value)] .upsert now) := by
  have hensure : n.ensure name = .ok n := by
    rcases ensure_eq n name with ⟨-, hensure⟩ | ⟨err, herr, -⟩
    · rw [hensure, entered_of_find? hp]
    · rw [show PartitionName.check name = .ok () from (hn _ _ hp).valid] at herr
      cases herr
  simp only [perform, answer, put, putMany, hensure]
  cases (n.accept name now _).1 <;> rfl

theorem answer_eq_done_iff {α : Type} {step : Except CacheError α × Node} :
    (answer (fun _ => Outcome.done) step).1 = .ok .done ↔ ∃ a, step.1 = .ok a := by
  rw [answer]
  cases step.1 <;> simp [Except.map]

/-- A write to a partition with a bound that evicts, of an item that is valid and fits the bound,
succeeds if the partition has fewer entries than there are attempts. With more entries it succeeds
as well, or it has used up its attempts: each was refused, and each of the rounds between them has
evicted something. -/
theorem put_finds_room (hn : Fresh n)
    (hrun : Reaches (fun k op => (k.perform op).2.bytesHeld < UInt64.size) n m)
    (hp : m.find? name = some p) (hbounded : p.metadata.isBounded = true)
    (hpolicy : p.metadata.policy = .approximateLru) (hitem : m.config.Accepts (key, value))
    (hweight : Entry.weight key value ≤ p.metadata.maxCacheSize.toNat) (now : Millis) :
    (p.entries.size < attempts →
        (m.perform (.put .upsert name key value now)).1 = .ok .done) ∧
      ((m.perform (.put .upsert name key value now)).1 = .ok .done ∨
        ∃ k q, rounds name now (fun s => s.writeMany [(key, value)] .upsert now) (attempts - 1) m =
            some k ∧
          k.find? name = some q ∧ q.entries.size + (attempts - 1) ≤ p.entries.size ∧
          p.metadata.maxCacheSize.toNat <
            q.bytes - q.bytesAt key + Entry.weight key value ∧
          (m.perform (.put .upsert name key value now)).1 =
            .error (.insufficientCapacity (.write name
              (UInt64.ofNat (Entry.weight key value - q.bytesAt key))))) := by
  obtain ⟨hwf, hbytes, hb⟩ := hrun.balanced hn
  have hpos : 0 < p.metadata.maxCacheSize := by simpa [Metadata.isBounded] using hbounded
  have hstart : Emptied m.config name p 0 m := ⟨hwf, hb, hbytes, rfl, p, hp, rfl, Nat.le_refl _⟩
  have hstep (count : Nat) (k : Node) (h : Emptied m.config name p count k) :=
    h.attempt hpos hpolicy hitem hweight now
  have hended := tryWrite_progress name now (fun s => s.writeMany [(key, value)] .upsert now)
    (attempts - 1) 0 0 hstart hstep
  rw [perform_put hwf hp, answer_eq_done_iff]
  rcases hended with hok | ⟨k, q, bytes, hrounds, hk, hq, hneeds, hend⟩
  · exact ⟨fun _ => hok, .inl hok⟩
  · obtain ⟨hbytes, -, hleft, hover, -⟩ := hk.refused hpos hweight hq hneeds
    obtain ⟨r, hr, -, hsize⟩ := hk.left
    rw [hq] at hr
    obtain rfl : q = r := Option.some.inj hr
    rw [Nat.zero_add] at hsize
    refine ⟨fun hfew => ?_, .inr ⟨k, q, hrounds, hq, hsize, hover, ?_⟩⟩
    · -- so many entries were not there
      omega
    · rw [← hbytes]
      exact answer_eq_error_iff.2 hend

/-- Two entries fill the partition, and the older one makes room. -/
theorem put_finds_room_crowding :
    ((performAll crowding (bare {})).2.perform
      (.put .upsert [112] [99] [1, 2, 3, 4] 3)).1 = .ok .done :=
  (put_finds_room (fresh_bare {})
    (Reaches.start.performAll crowding ⟨by decide, by decide, by decide, trivial⟩)
    (show (performAll crowding (bare {})).2.find? [112] = some _ from rfl) rfl rfl (by decide)
    (by decide) 3).1 (by decide)

set_option maxRecDepth 20000 in
/-- An item that is valid and fits the bound may be refused all the same. -/
theorem crowded_put_refused :
    crowded.Reachable ∧
      (∃ p, crowded.find? [112] = some p ∧ p.metadata.isBounded = true ∧
        p.metadata.policy = .approximateLru ∧
        p.tally.totalSize ≤ p.metadata.maxCacheSize ∧
        crowded.config.Accepts ([123], List.replicate 32 0) ∧
        Entry.weight [123] (List.replicate 32 0) ≤ p.metadata.maxCacheSize.toNat) ∧
      (crowded.perform (.put .upsert [112] [123] (List.replicate 32 0) 18)).1 =
        .error (.insufficientCapacity (.write [112] 33)) := by
  obtain ⟨p, hp, hmetadata, hsize, -⟩ := find?_crowded
  have hconfig : crowded.config = { keyEvictionSamples := 1000 } := by cbv
  refine ⟨reachable_crowded, ⟨p, hp, ?_⟩, crowdingWrite_refused.1⟩
  rw [hmetadata, hsize, hconfig]
  decide

end Node

end CacheNode

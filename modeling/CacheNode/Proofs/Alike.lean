import CacheNode.Partition.Operation
import CacheNode.Proofs.Operations

/-!
# CacheNode — what the operations on a partition depend on

A partition is surrounded by counters of the whole node, by channels and by a supply of draws. As
long as it has a budget of its own and no eviction takes a sample, none of these matters: what an
operation answers and what it leaves depend on the settings, the entries and the counters of the
partition alone.

That an eviction takes no sample is told by the draws, since a sample takes draws and nothing else
on a partition with a budget does.

* `Partition.Alike` — the same but for the predicates that watch them;
* `Site.used_evict` — a run of eviction takes draws when its proposal is a sample, and then only;
* `Site.agree_perform` — operations on alike partitions agree.
-/

namespace CacheNode

/-- Two partitions that are the same, but for the predicates that watch them. -/
structure Partition.Alike (p q : Partition) : Prop where
  settings : p.settings = q.settings
  entries  : p.entries = q.entries
  tally    : p.tally = q.tally

/-- A partition with a budget of its own, which is posted. -/
structure Partition.HasBudget (p : Partition) : Prop where
  bounded : 0 < p.metadata.maxCacheSize
  posted  : p.bound = p.metadata.maxCacheSize

/-- Whether an operation is about the predicates that watch the partition. -/
def Partition.Operation.isWatch : Partition.Operation → Bool
  | .addWatch .. | .removeWatch .. | .removeWatchesOf _ | .pruneWatches => true
  | _ => false

/-- Two runs of an operation with the same answer, which leave partitions that are alike. -/
structure Site.Agree {α : Type} (a b : α × Site) : Prop where
  answer : a.1 = b.1
  part   : a.2.part.Alike b.2.part

namespace Partition

variable {p q r : Partition}

namespace Alike

theorem refl (p : Partition) : p.Alike p := ⟨rfl, rfl, rfl⟩

theorem symm (h : p.Alike q) : q.Alike p :=
  ⟨h.settings.symm, h.entries.symm, h.tally.symm⟩

theorem trans (h : p.Alike q) (hlater : q.Alike r) : p.Alike r :=
  ⟨h.settings.trans hlater.settings, h.entries.trans hlater.entries, h.tally.trans hlater.tally⟩

/-- What does not look at predicates cannot tell alike partitions apart. -/
theorem congr {α : Type} (h : p.Alike q) (f : Partition → α)
    (hf : ∀ p watches, f { p with watches } = f p) : f p = f q := by
  have hsame : { q with watches := p.watches } = p := by
    obtain ⟨hsettings, hentries, htally⟩ := h
    simp only [Partition.settings, Settings.mk.injEq] at hsettings
    obtain ⟨hname, hmetadata, hlimits, hbound, hevicts, hretired⟩ := hsettings
    rw [← hname, ← hmetadata, ← hlimits, ← hbound, ← hevicts, ← hretired, ← hentries, ← htally]
  rw [← hsame]
  exact hf q p.watches

theorem metadata (h : p.Alike q) : p.metadata = q.metadata := metadata_eq h.settings

theorem bound (h : p.Alike q) : p.bound = q.bound := bound_eq h.settings

theorem limits (h : p.Alike q) : p.limits = q.limits := limits_eq h.settings

theorem expiry (h : p.Alike q) (now : Millis) : p.expiry now = q.expiry now :=
  h.congr (·.expiry now) fun _ _ => rfl

theorem checkKey (h : p.Alike q) (key : Bytes) : p.checkKey key = q.checkKey key :=
  h.congr (·.checkKey key) fun _ _ => rfl

theorem checkInUse (h : p.Alike q) : p.checkInUse = q.checkInUse :=
  h.congr Partition.checkInUse fun _ _ => rfl

end Alike

theorem HasBudget.of_settings (h : p.HasBudget) (hsettings : q.settings = p.settings) :
    q.HasBudget where
  bounded := by
    rw [metadata_eq hsettings]
    exact h.bounded
  posted := by
    rw [bound_eq hsettings, metadata_eq hsettings]
    exact h.posted

end Partition

-- ---------------------------------------------------------------------------
-- Draws
-- ---------------------------------------------------------------------------

theorem Draws.used_many (d : Draws) (count bound : Nat) :
    (d.many count bound).2.used = d.used + count := by
  induction count generalizing d with
  | zero => rfl
  | succ count ih =>
    have hrest : ((d.below bound).2.many count bound).2.used = d.used + 1 + count :=
      ih (d.below bound).2
    show ((d.below bound).2.many count bound).2.used = d.used + (count + 1)
    omega

theorem Sample.used_positions (samples bound : Nat) (d : Draws) :
    (Sample.positions samples bound d).2.used =
      d.used + if bound ≤ samples then 0 else samples := by
  unfold Sample.positions
  split
  · rfl
  · exact Draws.used_many d samples bound

namespace EvictionPolicy

variable {policy : EvictionPolicy} {perKey count : Nat}

/-- A proposal takes one draw for each entry of its sample, and none if it takes no sample. -/
theorem used_candidates (policy : EvictionPolicy) (perKey count : Nat) (x : Expiry)
    (entries : Table Entry) (d : Draws) :
    (policy.candidates perKey count x entries d).2.used =
      d.used + if policy.samples perKey count entries.size then max 1 perKey * count else 0 := by
  cases policy with
  | noEviction => rfl
  | approximateLru =>
    by_cases hcount : count = 0
    · simp [candidates, samples, hcount]
    · by_cases hcovers : entries.size ≤ max 1 perKey * count
      · simp [candidates, samples, hcount, hcovers, Nat.not_lt.2 hcovers]
      · have hlt : max 1 perKey * count < entries.size := Nat.lt_of_not_le hcovers
        have hpos : 0 < count := Nat.pos_of_ne_zero hcount
        simp only [candidates, if_neg hcount, if_neg hcovers, Sample.used_positions]
        simp [samples, hpos, hlt]

/-- A proposal that takes no sample does not look at the draws. -/
theorem candidates_of_not_samples {x : Expiry} {entries : Table Entry} (d d' : Draws)
    (h : policy.samples perKey count entries.size = false) :
    (policy.candidates perKey count x entries d).1 =
      (policy.candidates perKey count x entries d').1 := by
  cases policy with
  | noEviction => rfl
  | approximateLru =>
    by_cases hcount : count = 0
    · simp [candidates, hcount]
    · have hcovers : entries.size ≤ max 1 perKey * count := by
        simpa [samples, Nat.pos_of_ne_zero hcount] using h
      simp only [candidates, if_neg hcount, if_pos hcovers]

end EvictionPolicy

namespace Site

variable {s t : Site} {now : Millis} {key : Bytes}

theorem draws_evictEach (goal : EvictionGoal) (x : Expiry) (proposed : List Candidate)
    (count : Nat) (s : Site) : (evictEach goal x proposed count s).2.draws = s.draws := by
  induction proposed generalizing count s with
  | nil => rfl
  | cons c rest ih =>
    rw [evictEach]
    split
    · rfl
    · split
      · exact ih count s
      · exact ih (count - 1) _

/-- A run of eviction takes draws when there is something to do and its proposal is a sample. -/
theorem used_evict (s : Site) (count : Nat) (now : Millis) (goal : EvictionGoal) :
    (s.evict count now goal).2.draws.used =
      s.draws.used +
        if s.overTarget s.part.metadata.maxCacheSize goal = true ∧
            s.part.metadata.policy.samples s.part.limits.keyEvictionSamples count
              s.part.entries.size = true then
          max 1 s.part.limits.keyEvictionSamples * count
        else 0 := by
  simp only [evict]
  split
  · next hnothing =>
    rcases hnothing with hzero | hreached
    · simp [hzero]
    · simp [hreached]
  · next hgo =>
    have hover : s.overTarget s.part.metadata.maxCacheSize goal = true := by
      simpa using (not_or.1 hgo).2
    rw [draws_evictEach]
    simp only [hover, true_and]
    exact EvictionPolicy.used_candidates _ _ _ _ _ _

theorem used_le_evict (s : Site) (count : Nat) (now : Millis) (goal : EvictionGoal) :
    s.draws.used ≤ (s.evict count now goal).2.draws.used := by
  rw [used_evict]
  omega

theorem used_le_compactRounds (now : Millis) (cancel : Fuse) (s : Site) :
    s.draws.used ≤ (compactRounds now cancel s).site.draws.used := by
  fun_induction compactRounds now cancel s with
  | case1 => exact Nat.le_refl _
  | case2 => exact used_le_evict _ _ _ _
  | case3 cancel s _ cancelled _ round _ ih =>
    exact Nat.le_trans (used_le_evict s _ now _) ih
  | case4 => exact Nat.le_refl _

-- ---------------------------------------------------------------------------
-- Building blocks
-- ---------------------------------------------------------------------------

theorem alike_hold (h : s.part.Alike t.part) (entries : Table Entry) :
    (s.hold entries).part.Alike (t.hold entries).part :=
  ⟨h.settings, rfl, h.tally⟩

/-- Changes of the counters that look at the partition's own counters alone. -/
theorem alike_book {change change' : Account → Account} (h : s.part.Alike t.part)
    (hchange : (change s.account).tally = (change' t.account).tally) :
    (s.book change).part.Alike (t.book change').part :=
  ⟨h.settings, h.entries, hchange⟩

theorem alike_announce (h : s.part.Alike t.part) (key : Bytes) (value : Option Bytes)
    (kind : EventKind) : (s.announce key value kind).part.Alike (t.announce key value kind).part :=
  ⟨h.settings, h.entries, h.tally⟩

theorem alike_miss (h : s.part.Alike t.part) :
    (s.book Account.miss).part.Alike (t.book Account.miss).part :=
  alike_book h (by rw [Account.miss, Account.miss, account, account, h.tally])

theorem alike_hit (h : s.part.Alike t.part) (now : Millis) :
    (s.book (·.hit now)).part.Alike (t.book (·.hit now)).part :=
  alike_book h (by rw [Account.hit, Account.hit, account, account, h.tally])

theorem tally_remove {a b : Account} (h : a.tally = b.tally) (cause : Removal) :
    (a.remove cause).tally = (b.remove cause).tally := by
  cases cause <;> simp [Account.remove, h]

theorem tally_insert {a b : Account} (h : a.tally = b.tally) :
    a.insert.tally = b.insert.tally := by
  simp [Account.insert, h]

/-- The own counters of a partition do not tell whether its bytes were shared. -/
theorem tally_shrink {a b : Account} (h : a.tally = b.tally) (bytes bound bound' : ByteCount) :
    (a.shrink bytes bound).tally = (b.shrink bytes bound').tally := by
  simp [Account.shrink, h]

theorem alike_takeOut (h : s.part.Alike t.part) (key : Bytes) (e : Entry) (cause : Removal) :
    (s.takeOut key e cause).part.Alike (t.takeOut key e cause).part := by
  unfold takeOut
  rw [h.entries]
  exact alike_announce (alike_book (alike_hold h _)
    (tally_remove (tally_shrink h.tally _ _ _) cause)) _ _ _

theorem alike_renew (h : s.part.Alike t.part) (key : Bytes) (e : Entry) (now : Millis) :
    (s.renew key e now).part.Alike (t.renew key e now).part := by
  unfold renew
  rw [h.metadata, h.entries]
  split
  · exact h
  · exact alike_hold h _

/-- A partition with a budget of its own measures its usage by itself. -/
theorem overTarget_eq (h : s.part.Alike t.part) {bound : ByteCount} (hbound : 0 < bound)
    (goal : EvictionGoal) : s.overTarget bound goal = t.overTarget bound goal := by
  simp only [overTarget, usage, if_pos hbound, h.tally]

/-- It is admitted by itself, too. -/
theorem grow_alike (h : s.part.Alike t.part) (hs : s.part.HasBudget) (bytes : ByteCount) :
    (s.grow bytes = none ∧ t.grow bytes = none) ∨
      ∃ grown grown', s.grow bytes = some grown ∧ t.grow bytes = some grown' ∧
        grown.part.Alike grown'.part := by
  have hbound : 0 < t.part.metadata.maxCacheSize := h.metadata ▸ hs.bounded
  have hgrow (u : Site) (hu : u.part.Alike t.part) : u.grow bytes =
      if bytes = 0 then some (u.settle u.account)
      else if satAdd t.part.tally.totalSize bytes ≤ t.part.metadata.maxCacheSize then
        some (u.settle (u.account.enlarge bytes))
      else none := by
    have htally : u.account.tally = t.part.tally := hu.tally
    rw [grow, hu.metadata, Account.tryGrow, if_pos hbound, htally]
    split
    · rfl
    · split <;> rfl
  rw [hgrow s h, hgrow t (.refl _)]
  split
  · exact .inr ⟨_, _, rfl, rfl, h⟩
  · split
    · refine .inr ⟨_, _, rfl, rfl, h.settings, h.entries, ?_⟩
      simp only [settle, Account.enlarge, account, h.tally]
    · exact .inl ⟨rfl, rfl⟩

-- ---------------------------------------------------------------------------
-- Removing and reading
-- ---------------------------------------------------------------------------

theorem agree_deleteEach (x : Expiry) (keys : List Bytes) (h : s.part.Alike t.part) :
    Agree (deleteEach x keys s) (deleteEach x keys t) := by
  induction keys generalizing s t with
  | nil => exact ⟨rfl, h⟩
  | cons key rest ih =>
    rw [deleteEach, deleteEach, h.entries]
    split
    · exact ih h
    · next e he =>
      split
      · exact ih (alike_takeOut h key e .expired)
      · have hrest := ih (alike_takeOut h key e .deleted)
        exact ⟨congrArg (· + 1) hrest.answer, hrest.part⟩

theorem agree_deleteMany (h : s.part.Alike t.part) (keys : List Bytes) (now : Millis) :
    Agree (s.deleteMany keys now) (t.deleteMany keys now) := by
  have hcheck : s.part.checkKey = t.part.checkKey := funext h.checkKey
  unfold deleteMany
  rw [hcheck, h.checkInUse, h.expiry]
  split
  · exact ⟨rfl, h⟩
  · split
    · exact ⟨rfl, h⟩
    · have hleft := agree_deleteEach (t.part.expiry now) keys h
      exact ⟨congrArg Except.ok hleft.answer, hleft.part⟩

theorem agree_delete (h : s.part.Alike t.part) (key : Bytes) (now : Millis) :
    Agree (s.delete key now) (t.delete key now) := by
  have hleft := agree_deleteMany h [key] now
  simp only [delete]
  rw [hleft.answer]
  split <;> exact ⟨rfl, hleft.part⟩

theorem agree_expireEach (x : Expiry) (keys : List Bytes) (h : s.part.Alike t.part) :
    Agree (expireEach x keys s) (expireEach x keys t) := by
  induction keys generalizing s t with
  | nil => exact ⟨rfl, h⟩
  | cons key rest ih =>
    rw [expireEach, expireEach, h.entries]
    split
    · exact ih h
    · next e he =>
      split
      · have hrest := ih (alike_takeOut h key e .expired)
        exact ⟨congrArg (· + 1) hrest.answer, hrest.part⟩
      · exact ih h

theorem agree_expire (h : s.part.Alike t.part) (keys : List Bytes) (now : Millis) :
    Agree (s.expire keys now) (t.expire keys now) := by
  unfold expire
  rw [h.metadata, h.expiry]
  split
  · exact ⟨rfl, h⟩
  · exact agree_expireEach _ keys h

theorem agree_clearEach (rows : List (Bytes × Entry)) (h : s.part.Alike t.part) :
    (clearEach rows s).part.Alike (clearEach rows t).part := by
  induction rows generalizing s t with
  | nil => exact h
  | cons row rest ih => exact ih (alike_takeOut h row.1 row.2 .deleted)

theorem agree_flush (h : s.part.Alike t.part) : Agree s.flush t.flush := by
  have hcleared := agree_clearEach t.part.entries.rows h
  have hreset : ∀ a b : Account, a.tally = b.tally → a.reset.tally = b.reset.tally := by
    intro a b htally
    simp [Account.reset, htally]
  unfold flush
  rw [h.entries]
  exact ⟨rfl, alike_book hcleared (hreset _ _ hcleared.tally)⟩

theorem agree_get (h : s.part.Alike t.part) (key : Bytes) (now : Millis) (touch count : Bool) :
    Agree (s.get key now touch count) (t.get key now touch count) := by
  have hmiss {s t : Site} (h : s.part.Alike t.part) :
      (if count then s.book Account.miss else s).part.Alike
        (if count then t.book Account.miss else t).part := by
    split
    · exact alike_miss h
    · exact h
  cases hget : t.part.entries.get? key with
  | none =>
    simp only [get, h.entries, hget]
    exact ⟨rfl, hmiss h⟩
  | some e =>
    simp only [get, h.entries, hget, h.expiry]
    split
    · exact ⟨rfl, hmiss (agree_expire h [key] now).part⟩
    · have hrenewed : (if touch then s.renew key e now else s).part.Alike
          (if touch then t.renew key e now else t).part := by
        split
        · exact alike_renew h key e now
        · exact h
      refine ⟨rfl, ?_⟩
      dsimp only
      split
      · exact alike_hit hrenewed now
      · exact hrenewed

theorem agree_readEach (now : Millis) (keys : List Bytes) (h : s.part.Alike t.part) :
    Agree (readEach now keys s) (readEach now keys t) := by
  induction keys generalizing s t with
  | nil => exact ⟨rfl, h⟩
  | cons key rest ih =>
    rw [readEach, readEach, h.entries, h.expiry]
    split
    · exact ih (alike_miss h)
    · next e he =>
      split
      · have hrest := ih (alike_miss h)
        exact ⟨congrArg (fun found => (found.1, key :: found.2)) hrest.answer, hrest.part⟩
      · have hrest := ih (alike_hit (alike_renew h key e now) now)
        exact ⟨congrArg (fun found => ((key, e.payload) :: found.1, found.2)) hrest.answer,
          hrest.part⟩

theorem agree_getMany (h : s.part.Alike t.part) (keys : List Bytes) (now : Millis) :
    Agree (s.getMany keys now) (t.getMany keys now) := by
  have hread := agree_readEach now keys h
  simp only [getMany]
  rw [hread.answer]
  refine ⟨rfl, ?_⟩
  dsimp only
  split
  · exact hread.part
  · exact (agree_expire hread.part _ now).part

theorem agree_touch (h : s.part.Alike t.part) (key : Bytes) (now : Millis) :
    Agree (s.touch key now) (t.touch key now) := by
  unfold touch
  rw [h.entries, h.expiry]
  split
  · exact ⟨rfl, h⟩
  · split
    · exact ⟨rfl, (agree_expire h [key] now).part⟩
    · exact ⟨rfl, alike_renew h key _ now⟩

theorem agree_ttl (h : s.part.Alike t.part) (key : Bytes) (now : Millis) :
    Agree (s.ttl key now) (t.ttl key now) := by
  unfold ttl
  rw [h.entries, h.expiry]
  split
  · exact ⟨rfl, h⟩
  · split
    · exact ⟨rfl, (agree_expire h [key] now).part⟩
    · exact ⟨rfl, h⟩

-- ---------------------------------------------------------------------------
-- Eviction
-- ---------------------------------------------------------------------------

theorem agree_evictEach (goal : EvictionGoal) (x : Expiry) (proposed : List Candidate)
    (count : Nat) (h : s.part.Alike t.part) (hs : s.part.HasBudget) :
    Agree (evictEach goal x proposed count s) (evictEach goal x proposed count t) := by
  induction proposed generalizing count s t with
  | nil => exact ⟨rfl, h⟩
  | cons c rest ih =>
    have hover := overTarget_eq h hs.bounded goal
    rw [evictEach, evictEach, ← h.metadata, hover, h.entries]
    split
    · exact ⟨rfl, h⟩
    · split
      · exact ih count h hs
      · next e he =>
        have hrest := ih (count - 1)
          (alike_takeOut h c.key e (if e.isExpired x then .expired else .evicted))
          (hs.of_settings rfl)
        exact ⟨congrArg (· + 1) hrest.answer, hrest.part⟩

/-- Evictions from alike partitions agree, if one of them takes no sample. -/
theorem agree_evict {count : Nat} {goal : EvictionGoal} (h : s.part.Alike t.part)
    (hs : s.part.HasBudget) (hquiet : (s.evict count now goal).2.draws.used = s.draws.used) :
    Agree (s.evict count now goal) (t.evict count now goal) := by
  have hover := overTarget_eq h hs.bounded goal
  rw [used_evict] at hquiet
  simp only [evict]
  rw [← h.metadata, ← hover]
  split
  · exact ⟨rfl, h⟩
  · next hgo =>
    obtain ⟨hcount, hreached⟩ := not_or.1 hgo
    have hfull : s.part.metadata.policy.samples s.part.limits.keyEvictionSamples count
        s.part.entries.size = false := by
      have hpos : 0 < max 1 s.part.limits.keyEvictionSamples * count :=
        Nat.mul_pos (by omega) (Nat.pos_of_ne_zero hcount)
      apply Bool.eq_false_iff.2
      intro hsamples
      rw [if_pos ⟨by simpa using hreached, hsamples⟩] at hquiet
      omega
    rw [← h.limits, ← h.entries, ← h.expiry,
      EvictionPolicy.candidates_of_not_samples t.draws s.draws hfull]
    exact agree_evictEach goal _ _ count h hs

theorem insufficient_eq (h : s.part.Alike t.part) : s.insufficient = t.insufficient := by
  funext bytes
  rw [insufficient, insufficient, Partition.name_eq h.settings]

theorem roundSize_eq (h : s.part.Alike t.part) (hs : s.part.HasBudget) :
    s.roundSize = t.roundSize := by
  have hbound : 0 < s.part.bound := hs.posted ▸ hs.bounded
  simp only [roundSize, ← h.bound, usage, if_pos hbound, h.tally]

/-- One round of a compaction and the rounds that follow it. -/
theorem compactRounds_eq (now : Millis) (cancel : Fuse) (s : Site) :
    compactRounds now cancel s =
      if s.part.evicts = true ∧ s.isOverBudget = true then
        if cancel.look.1 = true then ⟨0, true, s⟩
        else if (s.evict s.roundSize now .belowLimit).1 = 0 then
          ⟨0, false, (s.evict s.roundSize now .belowLimit).2⟩
        else
          (compactRounds now cancel.look.2 (s.evict s.roundSize now .belowLimit).2).after
            (s.evict s.roundSize now .belowLimit).1
      else ⟨0, false, s⟩ := by
  rw [compactRounds]

theorem agree_compactRounds (now : Millis) (cancel : Fuse) (h : s.part.Alike t.part)
    (hs : s.part.HasBudget)
    (hquiet : (compactRounds now cancel s).site.draws.used = s.draws.used) :
    (compactRounds now cancel s).evicted = (compactRounds now cancel t).evicted ∧
      (compactRounds now cancel s).cancelled = (compactRounds now cancel t).cancelled ∧
      (compactRounds now cancel s).site.part.Alike (compactRounds now cancel t).site.part := by
  have hover {s t : Site} (h : s.part.Alike t.part) (hs : s.part.HasBudget) :
      (s.part.evicts = true ∧ s.isOverBudget = true) ↔
        (t.part.evicts = true ∧ t.isOverBudget = true) := by
    have hbound : 0 < s.part.bound := hs.posted ▸ hs.bounded
    rw [isOverBudget, isOverBudget, ← h.bound, overTarget_eq h hbound,
      Partition.evicts_eq h.settings]
  fun_induction compactRounds now cancel s generalizing t with
  | case1 cancel s hgo cancelled =>
    have hcancelled : cancel.look.1 = true := by assumption
    rw [compactRounds_eq now cancel t, if_pos ((hover h hs).1 hgo), if_pos hcancelled]
    exact ⟨rfl, rfl, h⟩
  | case2 cancel s hgo cancelled hcancelled round =>
    have hnone : round.1 = 0 := by assumption
    have hround := agree_evict h hs hquiet
    have hnone' : (t.evict s.roundSize now .belowLimit).1 = 0 := by
      rw [← hround.answer]
      exact hnone
    rw [compactRounds_eq now cancel t, if_pos ((hover h hs).1 hgo), ← roundSize_eq h hs,
      if_neg hcancelled, if_pos hnone']
    exact ⟨rfl, rfl, hround.part⟩
  | case3 cancel s hgo cancelled hcancelled round hsome =>
    rename_i ih
    have hlast : (compactRounds now cancelled.2 round.2).site.draws.used = s.draws.used := hquiet
    -- draws are never given back, so neither this round nor the later ones took any
    have hfirst : s.draws.used ≤ round.2.draws.used := used_le_evict s s.roundSize now .belowLimit
    have hlater := used_le_compactRounds now cancelled.2 round.2
    have hquietRound : round.2.draws.used = s.draws.used := by omega
    have hround : Agree round (t.evict s.roundSize now .belowLimit) :=
      agree_evict h hs hquietRound
    have hsteps : s.Steps False (s.part.bytes + 1) round.2 :=
      steps_evict s.roundSize now .belowLimit (Nat.lt_succ_self _)
    obtain ⟨hevicted, hstopped, hpart⟩ :=
      ih hround.part (hs.of_settings hsteps.settings) (by omega)
    have hsome' : ¬ (t.evict s.roundSize now .belowLimit).1 = 0 := by
      rw [← hround.answer]
      exact hsome
    rw [compactRounds_eq now cancel t, if_pos ((hover h hs).1 hgo), ← roundSize_eq h hs,
      if_neg hcancelled, if_neg hsome', ← hround.answer]
    exact ⟨congrArg (round.1 + ·) hevicted, hstopped, hpart⟩
  | case4 cancel s hstop =>
    rw [compactRounds_eq now cancel t, if_neg fun hgo => hstop ((hover h hs).2 hgo)]
    exact ⟨rfl, rfl, h⟩

theorem agree_compact (now : Millis) (cancel : Fuse) (h : s.part.Alike t.part)
    (hs : s.part.HasBudget) (hquiet : (s.compact now cancel).2.draws.used = s.draws.used) :
    Agree (s.compact now cancel) (t.compact now cancel) := by
  obtain ⟨hevicted, hcancelled, hpart⟩ := agree_compactRounds now cancel h hs hquiet
  refine ⟨?_, hpart⟩
  simp only [compact, hevicted, hcancelled, hpart.entries, h.entries]

-- ---------------------------------------------------------------------------
-- Writing
-- ---------------------------------------------------------------------------

theorem alike_writeOne (h : s.part.Alike t.part) (now : Millis) (item : Bytes × Bytes) :
    (writeOne now s item).part.Alike (writeOne now t item).part := by
  have hinsert (fresh : Entry) {a b : Site} (h : a.part.Alike b.part) :
      (a.hold (t.part.entries.insert item.1 fresh)).part.Alike
        (b.hold (t.part.entries.insert item.1 fresh)).part := alike_hold h _
  cases hget : t.part.entries.get? item.1 with
  | none =>
    simp only [writeOne, h.entries, hget]
    exact alike_announce (alike_book (hinsert _ h) (tally_insert h.tally)) _ _ _
  | some old =>
    simp only [writeOne, h.entries, hget, h.expiry, h.metadata]
    split
    · have hcounted : ((s.account.remove .expired).insert).tally =
          ((t.account.remove .expired).insert).tally := tally_insert (tally_remove h.tally .expired)
      have hbooked (fresh : Entry) :
          ((s.hold (t.part.entries.insert item.1 fresh)).book
            fun a => (a.remove .expired).insert).part.Alike
              ((t.hold (t.part.entries.insert item.1 fresh)).book
                fun a => (a.remove .expired).insert).part :=
        alike_book (hinsert fresh h) hcounted
      exact alike_announce (alike_announce (hbooked _) _ _ _) _ _ _
    · split
      · exact alike_announce (hinsert _ h) _ _ _
      · exact alike_announce (hinsert _ h) _ _ _

theorem alike_foldl_writeOne (now : Millis) (batch : List (Bytes × Bytes))
    (h : s.part.Alike t.part) :
    (batch.foldl (writeOne now) s).part.Alike (batch.foldl (writeOne now) t).part := by
  induction batch generalizing s t with
  | nil => exact h
  | cons item rest ih => exact ih (alike_writeOne h now item)

theorem agree_writeMany (items : List (Bytes × Bytes)) (mode : PutMode) (now : Millis)
    (h : s.part.Alike t.part) (hs : s.part.HasBudget) :
    Agree (s.writeMany items mode now) (t.writeMany items mode now) := by
  have hplan : s.part.plan items mode now = t.part.plan items mode now :=
    h.congr (·.plan items mode now) fun _ _ => rfl
  cases hdecided : t.part.plan items mode now with
  | error err =>
    simp only [writeMany, hplan, hdecided]
    exact ⟨rfl, h⟩
  | ok plan =>
    rcases grow_alike h hs (UInt64.ofNat (plan.newBytes - plan.oldBytes)) with
      ⟨hnone, hnone'⟩ | ⟨grown, grown', hgrown, hgrown', halike⟩
    · simp only [writeMany, hplan, hdecided, hnone, hnone']
      exact ⟨rfl, h⟩
    · have hwritten := alike_foldl_writeOne now plan.batch halike
      simp only [writeMany, hplan, hdecided, hgrown, hgrown']
      exact ⟨rfl, alike_book hwritten (tally_shrink hwritten.tally _ _ _)⟩

theorem agree_createInteger (key : Bytes) (value : Int64) (now : Millis)
    (h : s.part.Alike t.part) (hs : s.part.HasBudget) :
    Agree (s.createInteger key value now) (t.createInteger key value now) := by
  rcases grow_alike h hs (UInt64.ofNat (Entry.weight key (Entry.ofInteger value))) with
    ⟨hnone, hnone'⟩ | ⟨grown, grown', hgrown, hgrown', halike⟩
  · simp only [createInteger, hnone, hnone']
    exact ⟨rfl, h⟩
  · have hcounted : grown.account.miss.insert.tally = grown'.account.miss.insert.tally := by
      simp [account, Account.miss, Account.insert, halike.tally]
    simp only [createInteger, hgrown, hgrown', halike.entries]
    exact ⟨rfl, alike_announce (alike_book (alike_hold halike _) hcounted) _ _ _⟩

theorem agree_increment (key : Bytes) (delta : Int64) (now : Millis)
    (h : s.part.Alike t.part) (hs : s.part.HasBudget) :
    Agree (s.increment key delta now) (t.increment key delta now) := by
  unfold increment
  rw [h.checkKey, h.checkInUse, h.entries, h.expiry, h.metadata]
  split
  · exact ⟨rfl, h⟩
  · split
    · exact ⟨rfl, h⟩
    · split
      · exact agree_createInteger key delta now h hs
      · next e he =>
        split
        · exact agree_createInteger key delta now (alike_takeOut h key e .expired)
            (hs.of_settings rfl)
        · split
          · exact ⟨rfl, h⟩
          · exact ⟨rfl, alike_announce (alike_hit (alike_hold h _) now) _ _ _⟩

theorem agree_orInsufficient {α : Type} {a b : Except CacheError (Admission α) × Site}
    (h : Agree a b) : Agree (orInsufficient a) (orInsufficient b) := by
  unfold orInsufficient
  rw [h.answer, insufficient_eq h.part]
  split <;> exact ⟨rfl, h.part⟩

-- ---------------------------------------------------------------------------
-- Operations
-- ---------------------------------------------------------------------------

theorem agree_sampleExpired (samples : Nat) (now : Millis) (h : s.part.Alike t.part)
    (hquiet : (s.sampleExpired samples now).2.draws.used = s.draws.used) :
    Agree (s.sampleExpired samples now) (t.sampleExpired samples now) := by
  refine ⟨?_, by simpa only [part_sampleExpired] using h⟩
  simp only [sampleExpired] at hquiet ⊢
  rw [← h.tally, ← h.metadata, ← h.entries, ← h.expiry]
  split
  · rfl
  · next hsome =>
    obtain ⟨-, hsamples⟩ := not_or.1 hsome
    have hused : (Sample.positions samples s.part.tally.itemCount.toNat s.draws).2.used =
        s.draws.used := by
      rw [if_neg hsome] at hquiet
      split at hquiet <;> exact hquiet
    -- every position is looked at, so none was drawn
    have hcovers : s.part.tally.itemCount.toNat ≤ samples := by
      rw [Sample.used_positions] at hused
      split at hused
      · assumption
      · omega
    simp only [Sample.positions, if_pos hcovers]
    split <;> rfl

theorem Agree.answer_map {α : Type} {a b : Except CacheError α × Site} (h : Agree a b)
    (shape : α → Outcome) : Agree (Site.answer shape a) (Site.answer shape b) :=
  ⟨congrArg (Except.map shape) h.answer, h.part⟩

theorem Agree.yields {α : Type} {a b : α × Site} (h : Agree a b) (shape : α → Outcome) :
    Agree (Site.yields shape a) (Site.yields shape b) :=
  ⟨congrArg (fun a => Except.ok (shape a)) h.answer, h.part⟩

/-- Operations on alike partitions with a budget of their own give the same answer and leave
partitions that are alike, as long as no sample is taken. -/
theorem agree_perform (act : Partition.Operation) (hact : act.isWatch = false)
    (h : s.part.Alike t.part) (hs : s.part.HasBudget)
    (hquiet : (s.perform act).2.draws.used = s.draws.used) :
    Agree (s.perform act) (t.perform act) := by
  cases act with
  | get key now touch count => exact (agree_get h key now touch count).yields _
  | getMany keys now => exact (agree_getMany h keys now).yields _
  | touch key now => exact (agree_touch h key now).answer_map _
  | ttl key now => exact (agree_ttl h key now).answer_map _
  | putMany items mode now =>
    exact (agree_orInsufficient (agree_writeMany items mode now h hs)).answer_map _
  | increment key delta now =>
    exact (agree_orInsufficient (agree_increment key delta now h hs)).answer_map _
  | delete key now => exact (agree_delete h key now).answer_map _
  | deleteMany keys now => exact (agree_deleteMany h keys now).answer_map _
  | expire keys now => exact (agree_expire h keys now).yields _
  | evict count now goal => exact (agree_evict h hs hquiet).yields _
  | compact now cancel => exact (agree_compact now cancel h hs hquiet).yields _
  | flush => exact (agree_flush h).yields _
  | sampleExpired samples now => exact (agree_sampleExpired samples now h hquiet).yields _
  | scanKeys pattern count offset now =>
    have hpage := h.congr (·.scanKeys pattern count offset now) fun _ _ => rfl
    exact ⟨congrArg (fun page => Except.ok (Outcome.page page)) hpage, h⟩
  | addWatch owner watchId key filter => cases hact
  | removeWatch ownerId watchId => cases hact
  | removeWatchesOf ownerId => cases hact
  | pruneWatches => cases hact

end Site

end CacheNode

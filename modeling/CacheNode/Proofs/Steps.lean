import CacheNode.Partition.Compact
import CacheNode.Partition.Read
import CacheNode.Proofs.Holdings

/-!
# CacheNode — what an operation on a partition consists of

Every operation that works on the entries of a partition is a sequence of a few kinds of steps.
A step counts activity, takes draws, renews an access time, takes one entry out, replaces a
payload by one of the same length, creates a counter, or writes a whole batch. What is kept by
each kind of step is kept by every operation; the invariants of the library are proved this way.

Within an operation the number of bytes only falls, except in the write that ends it. So no
partition holds more on the way than before or afterwards: `Steps clears limit s t` says that `t`
is reached from `s` by steps that stay below `limit` bytes. The activity counters are reset among
them only if `clears` holds.

* `Site.Step`, `Site.Steps` — one step, and sequences of steps;
* `Site.Step.settings`, `Site.Step.keyed` — what every step keeps;
* `Site.steps_get`, `Site.steps_deleteMany`, `Site.steps_evict`, `Site.steps_writeMany`,
  `Site.steps_increment`, … — the operations as sequences of steps.
-/

namespace CacheNode.Site

/-- Writes a batch whose growth is admitted, and gives back what it does not need. -/
def commit (now : Millis) (plan : WritePlan) (grown : Site) : Site :=
  (plan.batch.foldl (writeOne now) grown).book
    (·.shrink (UInt64.ofNat (plan.oldBytes - plan.newBytes)) grown.part.metadata.maxCacheSize)

/-- One step of an operation on entries. Whether it can be the one that resets the activity
counters is told by `clears`. -/
inductive Step (clears : Prop) (s : Site) : Site → Prop where
  | hit (now : Millis) : Step clears s (s.book (·.hit now))
  | miss : Step clears s (s.book Account.miss)
  | reset (hclears : clears) : Step clears s (s.book Account.reset)
  | draw (draws : Draws) : Step clears s { s with draws }
  | renew {key : Bytes} {e : Entry} (now : Millis) (he : s.part.entries.get? key = some e) :
      Step clears s (s.hold (s.part.entries.insert key (e.touch now)))
  | takeOut {key : Bytes} {e : Entry} (cause : Removal) (he : s.part.entries.get? key = some e) :
      Step clears s (s.takeOut key e cause)
  /-- a payload is replaced by one of the same length -/
  | amend {key : Bytes} {e : Entry} (fresh : Entry) (now : Millis)
      (he : s.part.entries.get? key = some e) (hlen : fresh.payload.length = e.payload.length) :
      Step clears s (((s.hold (s.part.entries.insert key fresh)).book (·.hit now)).announce key
        (some fresh.payload) .write)
  /-- an absent key gets a payload whose bytes are admitted -/
  | create {key : Bytes} {grown : Site} (fresh : Entry) (hkey : s.part.checkKey key = .ok ())
      (hnone : s.part.entries.get? key = none)
      (hgrown : s.grow (UInt64.ofNat (Entry.weight key fresh.payload)) = some grown) :
      Step clears s (((grown.hold (grown.part.entries.insert key fresh)).book fun a =>
        a.miss.insert).announce key (some fresh.payload) .write)
  | write {items : List (Bytes × Bytes)} {mode : PutMode} {plan : WritePlan} {grown : Site}
      (now : Millis) (hplan : s.part.plan items mode now = .ok plan)
      (hgrown : s.grow (UInt64.ofNat (plan.newBytes - plan.oldBytes)) = some grown) :
      Step clears s (commit now plan grown)

/-- Sequences of steps that stay below a number of bytes. -/
inductive Steps (clears : Prop) (limit : Nat) (s : Site) : Site → Prop where
  | refl : Steps clears limit s s
  | tail {t u : Site} (steps : Steps clears limit s t) (step : Step clears t u)
      (hu : u.part.bytes < limit) : Steps clears limit s u

-- ---------------------------------------------------------------------------
-- Growing and writing one item
-- ---------------------------------------------------------------------------

/-- Admission changes counters only. -/
theorem grow_eq_some {s grown : Site} {bytes : ByteCount} (h : s.grow bytes = some grown) :
    ∃ a, s.account.tryGrow bytes s.part.metadata.maxCacheSize = some a ∧ grown = s.settle a := by
  obtain ⟨a, ha, heq⟩ := Option.map_eq_some_iff.1 h
  exact ⟨a, ha, heq.symm⟩

theorem settings_grow {s grown : Site} {bytes : ByteCount} (h : s.grow bytes = some grown) :
    grown.part.settings = s.part.settings := by
  obtain ⟨a, -, rfl⟩ := grow_eq_some h
  rfl

theorem entries_grow {s grown : Site} {bytes : ByteCount} (h : s.grow bytes = some grown) :
    grown.part.entries = s.part.entries := by
  obtain ⟨a, -, rfl⟩ := grow_eq_some h
  rfl

/-- The entry that a write leaves under its key. -/
def fresh (now : Millis) (s : Site) (item : Bytes × Bytes) : Entry :=
  match s.part.entries.get? item.1 with
  | none => ⟨item.2, now⟩
  | some old =>
    if old.isExpired (s.part.expiry now) = false ∧ s.part.metadata.isAbsolute then
      ⟨item.2, old.lastAccess⟩
    else ⟨item.2, now⟩

@[simp] theorem payload_fresh (now : Millis) (s : Site) (item : Bytes × Bytes) :
    (fresh now s item).payload = item.2 := by
  unfold fresh
  split
  · rfl
  · split <;> rfl

/-- Writing one item changes the entries at its key and nowhere else. -/
theorem entries_writeOne (now : Millis) (s : Site) (item : Bytes × Bytes) :
    (writeOne now s item).part.entries = s.part.entries.insert item.1 (fresh now s item) := by
  cases hget : s.part.entries.get? item.1 with
  | none => simp [writeOne, fresh, hget]
  | some old =>
    by_cases hexp : old.isExpired (s.part.expiry now) = true
    · simp [writeOne, fresh, hget, hexp]
    · by_cases habs : s.part.metadata.isAbsolute = true <;>
        simp [writeOne, fresh, hget, hexp, habs]

theorem settings_writeOne (now : Millis) (s : Site) (item : Bytes × Bytes) :
    (writeOne now s item).part.settings = s.part.settings := by
  cases hget : s.part.entries.get? item.1 with
  | none => simp only [writeOne, hget]; rfl
  | some old =>
    simp only [writeOne, hget]
    split
    · rfl
    · split <;> rfl

theorem settings_foldl_writeOne (now : Millis) (batch : List (Bytes × Bytes)) (s : Site) :
    (batch.foldl (writeOne now) s).part.settings = s.part.settings := by
  induction batch generalizing s with
  | nil => rfl
  | cons item rest ih => exact (ih _).trans (settings_writeOne now s item)

theorem keyed_foldl_writeOne (now : Millis) (batch : List (Bytes × Bytes)) (s : Site)
    (hbatch : ∀ item ∈ batch, item.1 ≠ []) (h : s.part.Keyed) :
    (batch.foldl (writeOne now) s).part.Keyed := by
  induction batch generalizing s with
  | nil => exact h
  | cons item rest ih =>
    -- the first item has kept the keys non-empty for those that follow
    apply ih _ fun other hother => hbatch other (by simp [hother])
    have hinsert := h.insert (e := fresh now s item) (hbatch item (by simp))
    intro key hkey
    rw [entries_writeOne] at hkey
    exact hinsert key hkey

-- ---------------------------------------------------------------------------
-- What a step keeps
-- ---------------------------------------------------------------------------

theorem mem_lastOccurrences {items : List (Bytes × Bytes)} {item : Bytes × Bytes}
    (h : item ∈ lastOccurrences items) : item ∈ items := by
  induction items with
  | nil => simp [lastOccurrences] at h
  | cons first rest ih =>
    rw [lastOccurrences] at h
    split at h
    · exact List.mem_cons_of_mem _ (ih h)
    · rcases List.mem_cons.1 h with rfl | h
      · exact List.mem_cons_self
      · exact List.mem_cons_of_mem _ (ih h)

/-- What a plan says about its batch. -/
theorem plan_eq_ok {p : Partition} {items : List (Bytes × Bytes)} {mode : PutMode}
    {now : Millis} {plan : WritePlan} (h : p.plan items mode now = .ok plan) :
    (∀ item ∈ items, p.checkItem item = .ok ()) ∧ p.retired = false ∧
      (∀ item ∈ lastOccurrences items,
        p.checkCondition mode (p.expiry now) item.1 = .ok ()) ∧
      plan = ⟨lastOccurrences items, sumOf (fun item => Entry.weight item.1 item.2)
        (lastOccurrences items), sumOf (fun item => p.bytesAt item.1) (lastOccurrences items)⟩ := by
  unfold Partition.plan at h
  split at h
  · cases h
  · next hitems =>
    split at h
    · cases h
    · next huse =>
      simp only at h
      split at h
      · cases h
      · next hcond =>
        cases h
        refine ⟨checkEach_eq_ok_iff.1 hitems, ?_, checkEach_eq_ok_iff.1 hcond, rfl⟩
        cases hret : p.retired with
        | false => rfl
        | true => simp [Partition.checkInUse, hret] at huse

theorem checkKey_of_checkItem {p : Partition} {item : Bytes × Bytes}
    (h : p.checkItem item = .ok ()) : p.checkKey item.1 = .ok () := by
  unfold Partition.checkItem at h
  split at h
  · next hkey => exact hkey
  · cases h

theorem key_ne_nil_of_plan {p : Partition} {items : List (Bytes × Bytes)} {mode : PutMode}
    {now : Millis} {plan : WritePlan} (h : p.plan items mode now = .ok plan) :
    ∀ item ∈ plan.batch, item.1 ≠ [] := by
  obtain ⟨hitems, -, -, rfl⟩ := plan_eq_ok h
  intro item hitem
  exact Partition.ne_nil_of_checkKey (checkKey_of_checkItem (hitems item (mem_lastOccurrences hitem)))

namespace Step

variable {clears : Prop} {s t : Site}

/-- No step changes anything about the partition but entries, counters and predicates. -/
theorem settings (h : Step clears s t) : t.part.settings = s.part.settings := by
  cases h with
  | create fresh hkey hnone hgrown =>
    have hsettings := settings_grow hgrown
    exact hsettings
  | write now _ hgrown => exact (settings_foldl_writeOne now _ _).trans (settings_grow hgrown)
  | _ => rfl

theorem keyed (h : Step clears s t) (hs : s.part.Keyed) : t.part.Keyed := by
  cases h with
  | renew now he => exact hs.insert (hs _ (by simp [he]))
  | takeOut cause he => exact hs.erase
  | amend fresh now he hlen => exact hs.insert (hs _ (by simp [he]))
  | create fresh hkey hnone hgrown =>
    have hgrownKeyed : Partition.Keyed _ :=
      hs.insert (e := fresh) (Partition.ne_nil_of_checkKey hkey)
    intro key hk
    apply hgrownKeyed key
    simpa [entries_grow hgrown] using hk
  | write now hplan hgrown =>
    refine keyed_foldl_writeOne now _ _ (key_ne_nil_of_plan hplan) ?_
    intro key hk
    exact hs key (by rwa [entries_grow hgrown] at hk)
  | _ => exact hs

end Step

-- ---------------------------------------------------------------------------
-- Announcements along a step
-- ---------------------------------------------------------------------------

/-- Nothing is announced between two sites, and nobody is attached or detached. -/
structure Unheard (s t : Site) : Prop where
  name    : t.part.name = s.part.name
  watches : t.part.watches = s.part.watches
  hub     : t.hub = s.hub

/-- A relation that holds across everything that nobody hears of and across every announcement, and
so across any number of them. -/
structure Across (R : Site → Site → Prop) : Prop where
  trans    : ∀ {s t u : Site}, R s t → R t u → R s u
  unheard  : ∀ {s t : Site}, Unheard s t → R s t
  announce : ∀ (s : Site) (key : Bytes) (value : Option Bytes) (kind : EventKind),
    R s (s.announce key value kind)

namespace Across

variable {R : Site → Site → Prop} {s t : Site} {key : Bytes} {value : Option Bytes}
  {kind : EventKind}

/-- Something is done and then announced. -/
theorem told (hR : Across R) (h : Unheard s t) : R s (t.announce key value kind) :=
  hR.trans (hR.unheard h) (hR.announce t key value kind)

theorem writeOne (hR : Across R) (now : Millis) (s : Site) (item : Bytes × Bytes) :
    R s (writeOne now s item) := by
  cases hget : s.part.entries.get? item.1 with
  | none =>
    simp only [Site.writeOne, hget]
    exact hR.told ⟨rfl, rfl, rfl⟩
  | some old =>
    simp only [Site.writeOne, hget]
    split
    · -- the stale entry is announced as expired before the new one as written
      refine hR.trans ?_ (hR.announce _ _ _ _)
      exact hR.told ⟨rfl, rfl, rfl⟩
    · split <;> exact hR.told ⟨rfl, rfl, rfl⟩

theorem foldl_writeOne (hR : Across R) (now : Millis) (batch : List (Bytes × Bytes)) (s : Site) :
    R s (batch.foldl (Site.writeOne now) s) := by
  induction batch generalizing s with
  | nil => exact hR.unheard ⟨rfl, rfl, rfl⟩
  | cons item rest ih => exact hR.trans (hR.writeOne now s item) (ih _)

/-- Such a relation holds across every step. -/
theorem step {clears : Prop} (hR : Across R) (h : Step clears s t) : R s t := by
  cases h with
  | takeOut cause he => exact hR.told ⟨rfl, rfl, rfl⟩
  | amend fresh now he hlen => exact hR.told ⟨rfl, rfl, rfl⟩
  | create fresh hkey hnone hgrown =>
    obtain ⟨a, -, rfl⟩ := grow_eq_some hgrown
    exact hR.told ⟨rfl, rfl, rfl⟩
  | @write items mode plan grown now hplan hgrown =>
    obtain ⟨a, -, rfl⟩ := grow_eq_some hgrown
    have hadmitted : R s (s.settle a) := hR.unheard ⟨rfl, rfl, rfl⟩
    have hwritten := hR.foldl_writeOne now plan.batch (s.settle a)
    have hshrunk : R (plan.batch.foldl (Site.writeOne now) (s.settle a))
        (commit now plan (s.settle a)) := hR.unheard ⟨rfl, rfl, rfl⟩
    exact hR.trans (hR.trans hadmitted hwritten) hshrunk
  | _ => exact hR.unheard ⟨rfl, rfl, rfl⟩

end Across

/-- An announcement only ever drops predicates. -/
theorem Step.watches {clears : Prop} {s t : Site} (h : Step clears s t) :
    t.part.watches.predicates.Sublist s.part.watches.predicates := by
  have hsublist : Across fun s t =>
      t.part.watches.predicates.Sublist s.part.watches.predicates := by
    refine ⟨fun hst htu => htu.trans hst, fun {s t} hunheard => ?_, ?_⟩
    · simp only [hunheard.watches, List.Sublist.refl]
    · exact fun s key value kind => List.filter_sublist
  exact hsublist.step h

-- ---------------------------------------------------------------------------
-- Bytes along a step
-- ---------------------------------------------------------------------------

theorem bytes_renew {s : Site} {key : Bytes} {e fresh : Entry}
    (he : s.part.entries.get? key = some e) (hlen : fresh.payload.length = e.payload.length) :
    (s.hold (s.part.entries.insert key fresh)).part.bytes = s.part.bytes := by
  have hinsert : (s.hold (s.part.entries.insert key fresh)).part.bytes + s.part.bytesAt key =
      s.part.bytes + Entry.weight key fresh.payload := Partition.bytes_insert _ _ _
  rw [Partition.bytesAt_of_some he] at hinsert
  simp only [Entry.weight, hlen] at hinsert
  omega

theorem bytes_takeOut {s : Site} {key : Bytes} {e : Entry} (cause : Removal)
    (he : s.part.entries.get? key = some e) :
    (s.takeOut key e cause).part.bytes + Entry.weight key e.payload = s.part.bytes := by
  have herase := Partition.bytes_eq_erase_add s.part key
  rw [Partition.bytesAt_of_some he] at herase
  exact herase.symm

namespace Steps

variable {clears : Prop} {limit : Nat} {s t u : Site}

theorem single (h : Step clears s t) (ht : t.part.bytes < limit) : Steps clears limit s t :=
  .tail .refl h ht

theorem trans (hst : Steps clears limit s t) (htu : Steps clears limit t u) :
    Steps clears limit s u := by
  induction htu with
  | refl => exact hst
  | tail _ step hu ih => exact .tail ih step hu

theorem head (step : Step clears s t) (ht : t.part.bytes < limit)
    (rest : Steps clears limit t u) : Steps clears limit s u :=
  (single step ht).trans rest

theorem settings (h : Steps clears limit s t) : t.part.settings = s.part.settings := by
  induction h with
  | refl => rfl
  | tail _ step _ ih => exact step.settings.trans ih

theorem keyed (h : Steps clears limit s t) (hs : s.part.Keyed) : t.part.Keyed := by
  induction h with
  | refl => exact hs
  | tail _ step _ ih => exact step.keyed ih

theorem watches (h : Steps clears limit s t) :
    t.part.watches.predicates.Sublist s.part.watches.predicates := by
  induction h with
  | refl => exact List.Sublist.refl _
  | tail _ step _ ih => exact step.watches.trans ih

theorem bytes_lt (h : Steps clears limit s t) (hs : s.part.bytes < limit) :
    t.part.bytes < limit := by
  cases h with
  | refl => exact hs
  | tail _ _ ht => exact ht

end Steps

-- ---------------------------------------------------------------------------
-- Operations that read or remove
-- ---------------------------------------------------------------------------

variable {clears : Prop} {limit : Nat} {s : Site}

theorem steps_renew {key : Bytes} {e : Entry} (now : Millis)
    (he : s.part.entries.get? key = some e) (hs : s.part.bytes < limit) :
    Steps clears limit s (s.renew key e now) := by
  unfold renew
  split
  · exact .refl
  · have hbytes : (s.hold (s.part.entries.insert key (e.touch now))).part.bytes = s.part.bytes :=
      bytes_renew he rfl
    exact .single (.renew now he) (by omega)

theorem steps_takeOut {key : Bytes} {e : Entry} (cause : Removal)
    (he : s.part.entries.get? key = some e) (hs : s.part.bytes < limit) :
    Steps clears limit s (s.takeOut key e cause) := by
  have hbytes := bytes_takeOut cause he
  exact .single (.takeOut cause he) (by omega)

theorem steps_expireEach (x : Expiry) (keys : List Bytes) (hs : s.part.bytes < limit) :
    Steps clears limit s (expireEach x keys s).2 := by
  induction keys generalizing s with
  | nil => exact .refl
  | cons key rest ih =>
    rw [expireEach]
    split
    · exact ih hs
    · next e he =>
      split
      · have htaken : Steps clears limit s _ := steps_takeOut .expired he hs
        exact htaken.trans (ih (htaken.bytes_lt hs))
      · exact ih hs

theorem steps_expire (keys : List Bytes) (now : Millis) (hs : s.part.bytes < limit) :
    Steps clears limit s (s.expire keys now).2 := by
  unfold expire
  split
  · exact .refl
  · exact steps_expireEach _ _ hs

/-- Counting a miss, or not counting it. -/
theorem steps_miss (count : Bool) (hs : s.part.bytes < limit) :
    Steps clears limit s (if count then s.book Account.miss else s) := by
  split
  · exact .single .miss hs
  · exact .refl

theorem steps_hit (count : Bool) (now : Millis) (hs : s.part.bytes < limit) :
    Steps clears limit s (if count then s.book (·.hit now) else s) := by
  split
  · exact .single (.hit now) hs
  · exact .refl

theorem steps_get (key : Bytes) (now : Millis) (touch count : Bool)
    (hs : s.part.bytes < limit) : Steps clears limit s (s.get key now touch count).2 := by
  cases hget : s.part.entries.get? key with
  | none =>
    simp only [get, hget]
    exact steps_miss count hs
  | some e =>
    by_cases hexp : e.isExpired (s.part.expiry now) = true
    · -- a stale entry is taken out before the miss is counted
      have hexpired : Steps clears limit s _ := steps_expire [key] now hs
      simp only [get, hget, hexp, if_true]
      exact hexpired.trans (steps_miss count (hexpired.bytes_lt hs))
    · have hrenewed : Steps clears limit s (if touch then s.renew key e now else s) := by
        split
        · exact steps_renew now hget hs
        · exact .refl
      simp only [get, hget, hexp]
      exact hrenewed.trans (steps_hit count now (hrenewed.bytes_lt hs))

theorem steps_readEach (now : Millis) (keys : List Bytes) (hs : s.part.bytes < limit) :
    Steps clears limit s (readEach now keys s).2 := by
  induction keys generalizing s with
  | nil => exact .refl
  | cons key rest ih =>
    have hmissed : Steps clears limit s (s.book Account.miss) := .single .miss hs
    rw [readEach]
    split
    · -- absent
      exact hmissed.trans (ih hs)
    · next e he =>
      split
      · -- expired: only counted here, taken out after all reads
        exact hmissed.trans (ih hs)
      · -- live
        have hrenewed : Steps clears limit s _ := steps_renew now he hs
        have hread := hrenewed.trans (.single (.hit now) (hrenewed.bytes_lt hs))
        exact hread.trans (ih (hread.bytes_lt hs))

theorem steps_getMany (keys : List Bytes) (now : Millis) (hs : s.part.bytes < limit) :
    Steps clears limit s (s.getMany keys now).2 := by
  have hread : Steps clears limit s _ := steps_readEach now keys hs
  simp only [getMany]
  split
  · exact hread
  · exact hread.trans (steps_expire _ now (hread.bytes_lt hs))

theorem steps_touch (key : Bytes) (now : Millis) (hs : s.part.bytes < limit) :
    Steps clears limit s (s.touch key now).2 := by
  unfold touch
  split
  · exact .refl
  · next e he =>
    split
    · exact steps_expire [key] now hs
    · exact steps_renew now he hs

theorem steps_ttl (key : Bytes) (now : Millis) (hs : s.part.bytes < limit) :
    Steps clears limit s (s.ttl key now).2 := by
  unfold ttl
  split
  · exact .refl
  · split
    · exact steps_expire [key] now hs
    · exact .refl

theorem steps_deleteEach (x : Expiry) (keys : List Bytes) (hs : s.part.bytes < limit) :
    Steps clears limit s (deleteEach x keys s).2 := by
  induction keys generalizing s with
  | nil => exact .refl
  | cons key rest ih =>
    rw [deleteEach]
    split
    · exact ih hs
    · next e he =>
      -- expired or not, the entry leaves; only the cause differs
      split
      · have htaken : Steps clears limit s _ := steps_takeOut .expired he hs
        exact htaken.trans (ih (htaken.bytes_lt hs))
      · have htaken : Steps clears limit s _ := steps_takeOut .deleted he hs
        exact htaken.trans (ih (htaken.bytes_lt hs))

theorem steps_deleteMany (keys : List Bytes) (now : Millis) (hs : s.part.bytes < limit) :
    Steps clears limit s (s.deleteMany keys now).2 := by
  unfold deleteMany
  split
  · exact .refl
  · split
    · exact .refl
    · exact steps_deleteEach _ keys hs

theorem steps_delete (key : Bytes) (now : Millis) (hs : s.part.bytes < limit) :
    Steps clears limit s (s.delete key now).2 := by
  have hdeleted : Steps clears limit s _ := steps_deleteMany [key] now hs
  simp only [delete]
  split <;> exact hdeleted

theorem steps_evictEach (goal : EvictionGoal) (x : Expiry) (proposed : List Candidate)
    (count : Nat) (hs : s.part.bytes < limit) :
    Steps clears limit s (evictEach goal x proposed count s).2 := by
  induction proposed generalizing count s with
  | nil => exact .refl
  | cons c rest ih =>
    rw [evictEach]
    split
    · -- enough was evicted
      exact .refl
    · split
      · -- this candidate is gone already
        exact ih count hs
      · next e he =>
        have htaken : Steps clears limit s _ :=
          steps_takeOut (if e.isExpired x then .expired else .evicted) he hs
        exact htaken.trans (ih (count - 1) (htaken.bytes_lt hs))

theorem steps_evict (count : Nat) (now : Millis) (goal : EvictionGoal)
    (hs : s.part.bytes < limit) : Steps clears limit s (s.evict count now goal).2 := by
  simp only [evict]
  split
  · exact .refl
  · have hdrawn (draws : Draws) : Steps clears limit s { s with draws } := .single (.draw draws) hs
    exact (hdrawn _).trans (steps_evictEach goal _ _ count hs)

theorem steps_sampleExpired (samples : Nat) (now : Millis) (hs : s.part.bytes < limit) :
    Steps clears limit s (s.sampleExpired samples now).2 := by
  simp only [sampleExpired]
  split
  · exact .refl
  · split <;> exact .single (.draw _) hs

theorem steps_compactRounds (now : Millis) (cancel : Fuse) (hs : s.part.bytes < limit) :
    Steps clears limit s (compactRounds now cancel s).site := by
  -- the rounds end when cancelled, when nothing can be evicted, or within the budget
  fun_induction compactRounds now cancel s with
  | case1 => exact .refl
  | case2 => exact steps_evict _ now _ hs
  | case3 cancel s _ cancelled _ round _ ih =>
    have hround : Steps clears limit s round.2 := steps_evict _ now _ hs
    exact hround.trans (ih (hround.bytes_lt hs))
  | case4 => exact .refl

theorem steps_compact (now : Millis) (cancel : Fuse) (hs : s.part.bytes < limit) :
    Steps clears limit s (s.compact now cancel).2 :=
  steps_compactRounds now cancel hs

-- ---------------------------------------------------------------------------
-- Flushing
-- ---------------------------------------------------------------------------

theorem get?_clearEach (rows : List (Bytes × Entry)) (s : Site) (key : Bytes) :
    (clearEach rows s).part.entries.get? key =
      if key ∈ rows.map Prod.fst then none else s.part.entries.get? key := by
  induction rows generalizing s with
  | nil => simp [clearEach]
  | cons row rest ih =>
    rw [clearEach, ih, entries_takeOut, Table.get?_erase]
    by_cases hrest : key ∈ rest.map Prod.fst <;> by_cases hkey : key = row.1 <;>
      simp [hrest, hkey]

/-- A flush leaves no entry. -/
theorem entries_flush (s : Site) : s.flush.2.part.entries = .empty := by
  apply Table.ext_get?
  intro key
  have hcleared := get?_clearEach s.part.entries.rows s key
  have hkeys : key ∈ s.part.entries.rows.map Prod.fst ↔ (s.part.entries.get? key).isSome :=
    Table.mem_keys_iff
  simp only [flush, entries_book, hcleared, hkeys, Table.get?_empty]
  cases s.part.entries.get? key <;> simp

theorem steps_clearEach (rows : List (Bytes × Entry))
    (hdistinct : rows.Pairwise fun a b => a.1 < b.1)
    (hrows : ∀ row ∈ rows, s.part.entries.get? row.1 = some row.2)
    (hs : s.part.bytes < limit) : Steps clears limit s (clearEach rows s) := by
  induction rows generalizing s with
  | nil => exact .refl
  | cons row rest ih =>
    obtain ⟨hfirst, hrest⟩ := List.pairwise_cons.1 hdistinct
    have htaken : Steps clears limit s _ := steps_takeOut .deleted (hrows row (by simp)) hs
    rw [clearEach]
    refine htaken.trans (ih hrest (fun other hother => ?_) (htaken.bytes_lt hs))
    -- the rows that follow have other keys, so they are still there
    have hne : other.1 ≠ row.1 := by
      intro heq
      have hlt := hfirst other hother
      rw [heq] at hlt
      exact Std.lt_irrefl hlt
    rw [entries_takeOut, Table.get?_erase, if_neg hne]
    exact hrows other (by simp [hother])

theorem steps_flush (hclears : clears) (hs : s.part.bytes < limit) :
    Steps clears limit s s.flush.2 := by
  have hcleared : Steps clears limit s (clearEach s.part.entries.rows s) :=
    steps_clearEach _ s.part.entries.ascending (fun row hrow => Table.mem_rows_iff.1 hrow) hs
  exact hcleared.tail (.reset hclears) (hcleared.bytes_lt hs)

-- ---------------------------------------------------------------------------
-- Operations that write
-- ---------------------------------------------------------------------------

/-- A batch write is one step, or it changes nothing. -/
theorem steps_writeMany (items : List (Bytes × Bytes)) (mode : PutMode) (now : Millis)
    (hafter : (s.writeMany items mode now).2.part.bytes < limit) :
    Steps clears limit s (s.writeMany items mode now).2 := by
  unfold writeMany at hafter ⊢
  split at hafter
  · exact .refl
  · next plan hplan =>
    simp only at hafter ⊢
    split at hafter
    · exact .refl
    · next grown hgrown => exact .single (.write now hplan hgrown) hafter

theorem steps_createInteger (key : Bytes) (value : Int64) (now : Millis)
    (hkey : s.part.checkKey key = .ok ()) (hnone : s.part.entries.get? key = none)
    (hafter : (s.createInteger key value now).2.part.bytes < limit) :
    Steps clears limit s (s.createInteger key value now).2 := by
  simp only [createInteger] at hafter ⊢
  split at hafter
  · exact .refl
  · next grown hgrown =>
    exact .single (.create ⟨Entry.ofInteger value, now⟩ hkey hnone hgrown) hafter

/-- An integer is replaced by one of the same eight bytes. -/
theorem length_of_increment {e fresh : Entry} {delta value : Int64}
    (h : e.increment delta = .ok (value, fresh)) :
    fresh.payload.length = e.payload.length := by
  unfold Entry.increment at h
  split at h
  · next old hold =>
    cases h
    -- a payload that spells an integer has eight bytes
    have hlen : e.payload.length = 8 := by
      apply Decidable.byContradiction
      intro hne
      simp [Entry.integer, Bytes.word?_eq_none_iff.2 hne] at hold
    simp [hlen]
  · cases h

theorem steps_increment (key : Bytes) (delta : Int64) (now : Millis)
    (hs : s.part.bytes < limit) (hafter : (s.increment key delta now).2.part.bytes < limit) :
    Steps clears limit s (s.increment key delta now).2 := by
  cases hkey : s.part.checkKey key with
  | error err => simp only [increment, hkey]; exact .refl
  | ok _ =>
    cases huse : s.part.checkInUse with
    | error err => simp only [increment, hkey, huse]; exact .refl
    | ok _ =>
      cases hget : s.part.entries.get? key with
      | none =>
        simp only [increment, hkey, huse, hget] at hafter ⊢
        exact steps_createInteger key delta now hkey hget hafter
      | some e =>
        by_cases hexp : e.isExpired (s.part.expiry now) = true
        · -- a stale entry is taken out first, and stays out if the write is refused
          simp only [increment, hkey, huse, hget, hexp, if_true] at hafter ⊢
          have htaken : Steps clears limit s _ := steps_takeOut .expired hget hs
          exact htaken.trans (steps_createInteger key delta now hkey (by simp) hafter)
        · cases hadd : e.increment delta with
          | error err => simp only [increment, hkey, huse, hget, hexp, hadd]; exact .refl
          | ok sum =>
            have hlen := length_of_increment hadd
            simp only [increment, hkey, huse, hget, hexp, hadd] at hafter ⊢
            refine .single (.amend _ now hget ?_) hafter
            split
            · exact hlen
            · exact hlen

end CacheNode.Site

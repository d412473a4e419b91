import CacheNode.Proofs.Overwriting

/-!
# CacheNode — how a write goes

A write is aimed at one partition, which it creates if there is none. It consists of attempts with
rounds of eviction between them, and it ends with the result of the last attempt or without one.
What is said about writes follows from what a single attempt does and from what a round does.

* `Site.Attempt` — what the attempts of all writes have in common;
* `Node.perform_write` — every write is a sequence of attempts, or refused before the first;
* `Node.Ends`, `Node.tryWrite_ends` — how such a sequence ends.
-/

namespace CacheNode

theorem Entry.isExpired_of_le {e : Entry} {x : Expiry} (h : x.now ≤ e.lastAccess) :
    e.isExpired x = false := by
  apply Bool.eq_false_iff.2
  intro hexpired
  have hlate := (Entry.isExpired_iff.1 hexpired).2
  rw [UInt64.le_iff_toNat_le] at h
  omega

/-- An entry that was just accessed has not expired. -/
theorem Entry.isExpired_touch (e : Entry) (now interval : Millis) :
    (e.touch now).isExpired ⟨now, interval⟩ = false := by
  apply Entry.isExpired_of_le
  show now ≤ if e.lastAccess ≤ now then now else e.lastAccess
  split
  · exact UInt64.le_refl now
  · next hlater => exact UInt64.le_of_lt (UInt64.not_le.1 hlater)

theorem Partition.isLive_iff {p : Partition} {key : Bytes} {x : Expiry} :
    p.isLive key x = true ↔ ∃ e, p.entries.get? key = some e ∧ e.isExpired x = false := by
  unfold Partition.isLive
  cases p.entries.get? key <;> simp

namespace Site

variable {s : Site} {key : Bytes} {x : Expiry} {now : Millis}

/-- What the attempts to write some keys have in common. An attempt leaves other keys alone and
keeps live keys live, and one that is refused for lack of room loses nothing but an entry that had
expired. -/
structure Attempt {α : Type} (now : Millis) (keys : List Bytes)
    (write : Site → Except CacheError (Admission α) × Site) : Prop extends Writing write where
  /-- a lack of room is told by the answer of an attempt and not by an error -/
  honest : ∀ s shortage, (write s).1 ≠ .error (.insufficientCapacity shortage)
  others : ∀ s key, key ∉ keys → (write s).2.part.entries.get? key = s.part.entries.get? key
  live   : ∀ s key, s.part.isLive key (s.part.expiry now) = true →
    (write s).2.part.isLive key (s.part.expiry now) = true
  adds   : ∀ s bytes, (write s).1 = .ok (.needsRoom bytes) → ∀ key e,
    (write s).2.part.entries.get? key = some e → s.part.entries.get? key = some e
  loses  : ∀ s bytes, (write s).1 = .ok (.needsRoom bytes) → ∀ key e,
    s.part.entries.get? key = some e → e.isExpired (s.part.expiry now) = false →
    (write s).2.part.entries.get? key = some e

-- ---------------------------------------------------------------------------
-- Batches
-- ---------------------------------------------------------------------------

/-- Replacing entries by ones that have not expired keeps live keys live. -/
theorem isLive_insert {p q : Partition} {fresh : Entry} {other : Bytes}
    (hentries : q.entries = p.entries.insert key fresh) (hfresh : fresh.isExpired x = false)
    (h : p.isLive other x = true) : q.isLive other x = true := by
  obtain ⟨e, he, hlive⟩ := Partition.isLive_iff.1 h
  rw [Partition.isLive_iff, hentries, Table.get?_insert]
  by_cases hkey : other = key
  · rw [if_pos hkey]
    exact ⟨fresh, rfl, hfresh⟩
  · rw [if_neg hkey]
    exact ⟨e, he, hlive⟩

/-- What is written has not expired, even where it keeps the access time of what was there. -/
theorem isExpired_fresh (now : Millis) (s : Site) (item : Bytes × Bytes) :
    (fresh now s item).isExpired (s.part.expiry now) = false := by
  have hnow : (⟨item.2, now⟩ : Entry).isExpired (s.part.expiry now) = false :=
    Entry.isExpired_of_le (UInt64.le_refl now)
  unfold fresh
  split
  · exact hnow
  · split
    · next hkept =>
      -- the old entry is judged by its access time alone, and so is the new one
      have hold := hkept.1
      exact hold
    · exact hnow

theorem expiry_eq {p q : Partition} (h : q.settings = p.settings) (now : Millis) :
    q.expiry now = p.expiry now := by
  rw [Partition.expiry, Partition.expiry, Partition.metadata_eq h]

theorem isLive_foldl_writeOne (batch : List (Bytes × Bytes))
    (h : s.part.isLive key (s.part.expiry now) = true) :
    (batch.foldl (writeOne now) s).part.isLive key (s.part.expiry now) = true := by
  induction batch generalizing s with
  | nil => exact h
  | cons item rest ih =>
    -- an item leaves the settings alone, so the entries are judged as before
    have hexpiry := expiry_eq (settings_writeOne now s item) now
    have hone : (writeOne now s item).part.isLive key (s.part.expiry now) = true :=
      isLive_insert (entries_writeOne now s item) (isExpired_fresh now s item) h
    have hrest := ih (s := writeOne now s item) (by rw [hexpiry]; exact hone)
    rw [hexpiry] at hrest
    exact hrest

theorem get?_foldl_writeOne_of_notMem (batch : List (Bytes × Bytes)) (s : Site)
    (h : key ∉ batch.map Prod.fst) :
    (batch.foldl (writeOne now) s).part.entries.get? key = s.part.entries.get? key := by
  induction batch generalizing s with
  | nil => rfl
  | cons item rest ih =>
    obtain ⟨hne, hrest⟩ := not_or.1 (List.mem_cons.not.1 h)
    rw [List.foldl_cons, ih _ hrest, entries_writeOne, Table.get?_insert, if_neg hne]

/-- A batch that is written has passed its checks and has been admitted. -/
theorem writeMany_eq_done {items : List (Bytes × Bytes)} {mode : PutMode} {count : Nat}
    (h : (s.writeMany items mode now).1 = .ok (.done count)) :
    ∃ plan grown, s.part.plan items mode now = .ok plan ∧
      s.grow (UInt64.ofNat (plan.newBytes - plan.oldBytes)) = some grown ∧
      count = plan.batch.length ∧ (s.writeMany items mode now).2 = commit now plan grown := by
  cases hplan : s.part.plan items mode now with
  | error err => simp [writeMany, hplan] at h
  | ok plan =>
    cases hgrow : s.grow (UInt64.ofNat (plan.newBytes - plan.oldBytes)) with
    | none => simp [writeMany, hplan, hgrow] at h
    | some grown =>
      simp only [writeMany, hplan, hgrow, Except.ok.injEq, Admission.done.injEq] at h ⊢
      exact ⟨plan, grown, rfl, hgrow, h.symm, rfl⟩

theorem writeMany_of_error {items : List (Bytes × Bytes)} {mode : PutMode} {err : CacheError}
    (h : (s.writeMany items mode now).1 = .error err) :
    s.part.plan items mode now = .error err ∧ (s.writeMany items mode now).2 = s := by
  cases hplan : s.part.plan items mode now with
  | error e =>
    simp only [writeMany, hplan] at h ⊢
    cases h
    exact ⟨rfl, trivial⟩
  | ok plan =>
    cases hgrow : s.grow (UInt64.ofNat (plan.newBytes - plan.oldBytes)) <;>
      simp [writeMany, hplan, hgrow] at h

theorem checkKey_honest (p : Partition) (key : Bytes) (shortage : Shortage) :
    p.checkKey key ≠ .error (.insufficientCapacity shortage) := by
  unfold Partition.checkKey
  split
  · simp
  · split <;> simp

theorem checkInUse_honest (p : Partition) (shortage : Shortage) :
    p.checkInUse ≠ .error (.insufficientCapacity shortage) := by
  unfold Partition.checkInUse
  split <;> simp

theorem plan_honest (p : Partition) (items : List (Bytes × Bytes)) (mode : PutMode)
    (shortage : Shortage) :
    p.plan items mode now ≠ .error (.insufficientCapacity shortage) := by
  intro h
  unfold Partition.plan at h
  split at h
  · next err hitems =>
    -- an item is refused
    cases h
    obtain ⟨item, -, hitem⟩ := checkEach_error hitems
    unfold Partition.checkItem at hitem
    split at hitem
    · unfold Partition.checkValue at hitem
      split at hitem
      · cases hitem
      · split at hitem <;> cases hitem
    · next hkey =>
      cases hitem
      exact checkKey_honest p _ _ hkey
  · split at h
    · next err huse =>
      cases h
      exact checkInUse_honest p _ huse
    · simp only at h
      split at h
      · next err hcond =>
        -- a key fails the condition
        cases h
        obtain ⟨item, -, hitem⟩ := checkEach_error hcond
        unfold Partition.checkCondition at hitem
        split at hitem
        · cases hitem
        · split at hitem <;> cases hitem
        · split at hitem <;> cases hitem
      · cases h

theorem attempt_writeMany (items : List (Bytes × Bytes)) (mode : PutMode) (now : Millis) :
    Attempt now (items.map Prod.fst) fun s => s.writeMany items mode now where
  toWriting := writing_writeMany items mode now
  honest := by
    intro s shortage h
    exact plan_honest s.part items mode shortage (writeMany_of_error h).1
  others := by
    intro s key h
    cases hresult : (s.writeMany items mode now).1 with
    | error err => rw [(writeMany_of_error hresult).2]
    | ok admission =>
      cases admission with
      | needsRoom bytes => rw [Node.writeMany_of_needsRoom hresult]
      | done count =>
        obtain ⟨plan, grown, hplan, hgrown, -, hcommit⟩ := writeMany_eq_done hresult
        obtain ⟨-, -, -, rfl⟩ := plan_eq_ok hplan
        obtain ⟨a, -, rfl⟩ := grow_eq_some hgrown
        rw [hcommit]
        refine get?_foldl_writeOne_of_notMem (lastOccurrences items) (s.settle a) fun hmem => h ?_
        obtain ⟨item, hitem, rfl⟩ := List.mem_map.1 hmem
        exact List.mem_map_of_mem (mem_lastOccurrences hitem)
  live := by
    intro s key h
    cases hresult : (s.writeMany items mode now).1 with
    | error err =>
      rw [(writeMany_of_error hresult).2]
      exact h
    | ok admission =>
      cases admission with
      | needsRoom bytes =>
        rw [Node.writeMany_of_needsRoom hresult]
        exact h
      | done count =>
        obtain ⟨plan, grown, -, hgrown, -, hcommit⟩ := writeMany_eq_done hresult
        obtain ⟨a, -, rfl⟩ := grow_eq_some hgrown
        rw [hcommit]
        exact isLive_foldl_writeOne (s := s.settle a) plan.batch h
  adds := by
    intro s bytes h key e he
    rwa [Node.writeMany_of_needsRoom h] at he
  loses := by
    intro s bytes h key e he _
    rwa [Node.writeMany_of_needsRoom h]

/-- Bytes are refused because usage would exceed the budget with them. -/
theorem grow_eq_none {bytes : ByteCount} (h : s.grow bytes = none) :
    bytes ≠ 0 ∧
      (s.usage s.part.metadata.maxCacheSize).2.toNat <
        (s.usage s.part.metadata.maxCacheSize).1.toNat + bytes.toNat ∧
      (0 < s.part.metadata.maxCacheSize →
        s.overTarget s.part.metadata.maxCacheSize (.room bytes) = true) := by
  have hnone : s.account.tryGrow bytes s.part.metadata.maxCacheSize = none := by
    simpa [grow] using h
  unfold Account.tryGrow at hnone
  split at hnone
  · cases hnone
  · next hzero =>
    split at hnone
    · next hbounded =>
      -- the partition's own budget
      split at hnone
      · cases hnone
      · next hover =>
        have hexceeds := UInt64.not_le.1 hover
        refine ⟨hzero, ?_, fun _ => ?_⟩
        · rw [UInt64.lt_iff_toNat_lt, toNat_satAdd] at hexceeds
          simp only [usage, if_pos hbounded]
          exact Nat.lt_of_lt_of_le hexceeds (Nat.min_le_left _ _)
        · simp only [overTarget, usage, if_pos hbounded, decide_eq_true_eq]
          exact hexceeds
    · next hunbounded =>
      -- the shared part
      have hrefused : s.totals.tryGrowUnreserved bytes = none := Option.map_eq_none_iff.1 hnone
      refine ⟨hzero, Nat.lt_of_not_le fun hfits => ?_, fun hbounded => absurd hbounded hunbounded⟩
      simp only [usage, if_neg hunbounded] at hfits
      have hgranted := Totals.tryGrowUnreserved_eq_some_iff.2 ⟨hfits, rfl⟩
      rw [hrefused] at hgranted
      cases hgranted

-- ---------------------------------------------------------------------------
-- Integers
-- ---------------------------------------------------------------------------

/-- An entry that takes the place of a live one. Where expiry is fixed at creation it takes over the
access time. -/
structure Supersedes (s : Site) (now : Millis) (fresh old : Entry) : Prop where
  before : old.isExpired (s.part.expiry now) = false
  after  : fresh.isExpired (s.part.expiry now) = false
  fixed  : s.part.metadata.isAbsolute = true → fresh.lastAccess = old.lastAccess

theorem lastAccess_of_increment {e fresh : Entry} {delta value : Int64}
    (h : e.increment delta = .ok (value, fresh)) : fresh.lastAccess = e.lastAccess := by
  unfold Entry.increment at h
  split at h
  · cases h
    rfl
  · cases h

/-- The four ways an increment goes: it is refused outright, it is about an absent key, about one
that has expired, or about a live one. -/
theorem increment_cases (s : Site) (key : Bytes) (delta : Int64) (now : Millis) :
    (∃ err, (∀ shortage, err ≠ .insufficientCapacity shortage) ∧
        s.increment key delta now = (.error err, s)) ∨
      (s.part.entries.get? key = none ∧
        s.increment key delta now = s.createInteger key delta now) ∨
      (∃ e, s.part.entries.get? key = some e ∧ e.isExpired (s.part.expiry now) = true ∧
        s.increment key delta now =
          (s.takeOut key e .expired).createInteger key delta now) ∨
      ∃ e value fresh, s.part.entries.get? key = some e ∧ s.Supersedes now fresh e ∧
        s.increment key delta now =
          (.ok (.done value), ((s.hold (s.part.entries.insert key fresh)).book (·.hit now)).announce
            key (some fresh.payload) .write) := by
  cases hkey : s.part.checkKey key with
  | error err =>
    refine .inl ⟨err, ?_, by simp only [increment, hkey]⟩
    rintro shortage rfl
    exact checkKey_honest s.part key shortage hkey
  | ok _ =>
    cases huse : s.part.checkInUse with
    | error err =>
      refine .inl ⟨err, ?_, by simp only [increment, hkey, huse]⟩
      rintro shortage rfl
      exact checkInUse_honest s.part shortage huse
    | ok _ =>
      cases hget : s.part.entries.get? key with
      | none => exact .inr (.inl ⟨rfl, by simp only [increment, hkey, huse, hget]⟩)
      | some e =>
        cases hexp : e.isExpired (s.part.expiry now) with
        | true =>
          exact .inr (.inr (.inl ⟨e, rfl, hexp, by
            simp only [increment, hkey, huse, hget, hexp, if_true]⟩))
        | false =>
          cases hadd : e.increment delta with
          | error err =>
            refine .inl ⟨err, ?_, by simp [increment, hkey, huse, hget, hexp, hadd]⟩
            -- only a payload that spells no integer is refused here
            rintro shortage rfl
            unfold Entry.increment Entry.integer at hadd
            cases hword : Bytes.word? e.payload <;> simp [hword] at hadd
          | ok sum =>
            obtain ⟨value, added⟩ := sum
            have hkept := lastAccess_of_increment hadd
            refine .inr (.inr (.inr ⟨e, value,
              if s.part.metadata.isAbsolute then added else added.touch now, rfl,
              ⟨hexp, ?_, fun habsolute => by rw [if_pos habsolute, hkept]⟩, by
                simp [increment, hkey, huse, hget, hexp, hadd]⟩))
            split
            · -- the access time stays
              rw [Entry.isExpired, hkept]
              exact hexp
            · exact Entry.isExpired_touch added now _

theorem createInteger_honest (s : Site) (key : Bytes) (value : Int64) (err : CacheError) :
    (s.createInteger key value now).1 ≠ .error err := by
  simp only [createInteger]
  split <;> simp

/-- Creating an integer touches no other key. -/
theorem get?_createInteger {value : Int64} {other : Bytes} (s : Site) (hne : other ≠ key) :
    (s.createInteger key value now).2.part.entries.get? other = s.part.entries.get? other := by
  simp only [createInteger]
  split
  · rfl
  · next grown hgrown =>
    simp only [entries_announce, entries_book, entries_hold, entries_grow hgrown]
    rw [Table.get?_insert, if_neg hne]

theorem attempt_increment (key : Bytes) (delta : Int64) (now : Millis) :
    Attempt now [key] fun s => s.increment key delta now where
  toWriting := writing_increment key delta now
  honest := by
    intro s shortage h
    rcases increment_cases s key delta now with
      ⟨err, herr, heq⟩ | ⟨-, heq⟩ | ⟨e, -, -, heq⟩ | ⟨e, value, fresh, -, -, heq⟩
    · rw [heq] at h
      cases h
      exact herr shortage rfl
    · rw [heq] at h
      exact createInteger_honest _ _ _ _ h
    · rw [heq] at h
      exact createInteger_honest _ _ _ _ h
    · rw [heq] at h
      cases h
  others := by
    intro s other h
    have hne : other ≠ key := by simpa using h
    rcases increment_cases s key delta now with
      ⟨err, -, heq⟩ | ⟨-, heq⟩ | ⟨e, -, -, heq⟩ | ⟨e, value, fresh, -, -, heq⟩
    · rw [heq]
    · rw [heq, get?_createInteger s hne]
    · rw [heq, get?_createInteger _ hne, entries_takeOut, Table.get?_erase, if_neg hne]
    · rw [heq]
      exact (Table.get?_insert _ _ _ _).trans (if_neg hne)
  live := by
    intro s other h
    obtain ⟨f, hf, hlive⟩ := Partition.isLive_iff.1 h
    rcases increment_cases s key delta now with
      ⟨err, -, heq⟩ | ⟨hnone, heq⟩ | ⟨e, he, hexp, heq⟩ | ⟨e, value, fresh, -, hfresh, heq⟩
    · rw [heq]
      exact h
    · have hne : other ≠ key := by
        rintro rfl
        rw [hnone] at hf
        cases hf
      rw [heq, Partition.isLive_iff, get?_createInteger s hne]
      exact ⟨f, hf, hlive⟩
    · -- the entry that is taken out was not live
      have hne : other ≠ key := by
        rintro rfl
        rw [he] at hf
        cases hf
        rw [hexp] at hlive
        cases hlive
      rw [heq, Partition.isLive_iff, get?_createInteger _ hne, entries_takeOut,
        Table.get?_erase, if_neg hne]
      exact ⟨f, hf, hlive⟩
    · rw [heq]
      exact isLive_insert rfl hfresh.after h
  adds := by
    intro s bytes h other e he
    rcases increment_cases s key delta now with
      ⟨err, -, heq⟩ | ⟨-, heq⟩ | ⟨f, hf, -, heq⟩ | ⟨f, value, fresh, -, -, heq⟩
    · rw [heq] at h
      cases h
    · rw [heq] at h he
      rwa [createInteger_of_needsRoom h] at he
    · rw [heq] at h he
      rw [createInteger_of_needsRoom h, entries_takeOut] at he
      exact Table.get?_of_erase he
    · rw [heq] at h
      cases h
  loses := by
    intro s bytes h other e he hlive
    rcases increment_cases s key delta now with
      ⟨err, -, heq⟩ | ⟨-, heq⟩ | ⟨f, hf, hexp, heq⟩ | ⟨f, value, fresh, -, -, heq⟩
    · rw [heq]
      exact he
    · rw [heq] at h ⊢
      rwa [createInteger_of_needsRoom h]
    · rw [heq] at h ⊢
      rw [createInteger_of_needsRoom h, entries_takeOut, Table.get?_erase, if_neg]
      · exact he
      · rintro rfl
        rw [hf] at he
        cases he
        rw [hexp] at hlive
        cases hlive
    · rw [heq] at h
      cases h

end Site

/-- The bytes that a batch adds to what a partition holds. -/
def Partition.growth (p : Partition) (items : List (Bytes × Bytes)) : Nat :=
  sumOf (fun item => Entry.weight item.1 item.2) (lastOccurrences items) -
    sumOf (fun item => p.bytesAt item.1) (lastOccurrences items)

namespace Node

/-- The partition that a write is aimed at, and the clock of the write. -/
def Operation.target? : Operation → Option (Bytes × Millis)
  | .put _ name _ _ now => some (name, now)
  | .putMany name _ _ now => some (name, now)
  | .increment name _ _ now => some (name, now)
  | .decrement name _ _ now => some (name, now)
  | _ => none

/-- The keys that a write is about. -/
def Operation.keys : Operation → List Bytes
  | .put _ _ key _ _ => [key]
  | .putMany _ items _ _ => items.map Prod.fst
  | .increment _ key _ _ => [key]
  | .decrement _ key _ _ => [key]
  | _ => []

/-- What a write tries at the partition that it is aimed at. -/
def Operation.attempt? :
    Operation → Option ((α : Type) × (Site → Except CacheError (Admission α) × Site))
  | .put mode _ key value now => some ⟨Nat, fun s => s.writeMany [(key, value)] mode now⟩
  | .putMany _ items mode now => some ⟨Nat, fun s => s.writeMany items mode now⟩
  | .increment _ key delta now => some ⟨Int64, fun s => s.increment key delta now⟩
  | .decrement _ key delta now => some ⟨Int64, fun s => s.increment key (-delta) now⟩
  | _ => none

/-- The bytes that a write asks for when it meets a partition. An integer has eight bytes. -/
def Operation.need (op : Operation) (p : Partition) : ByteCount :=
  match op with
  | .put _ _ key value _ => UInt64.ofNat (p.growth [(key, value)])
  | .putMany _ items _ _ => UInt64.ofNat (p.growth items)
  | .increment _ key _ _ => UInt64.ofNat (key.length + 8)
  | .decrement _ key _ _ => UInt64.ofNat (key.length + 8)
  | _ => 0

/-- The partition that a write to a name meets: the one in the table, or else a new one. -/
def target (n : Node) (name : Bytes) : Partition :=
  (n.find? name).getD (.create name { createDate := n.today } n.config.limits)

/-- The node once the partition that a write is aimed at is in the table. -/
def entered (n : Node) (name : Bytes) : Node :=
  match n.find? name with
  | some _ => n
  | none => { n with partitions := n.partitions.insert name (n.target name) }

/-- How attempts on a partition end when they have come to a node. -/
inductive Ends {α : Type} (name : Bytes)
    (write : Site → Except CacheError (Admission α) × Site) (n : Node) :
    Except CacheError α × Node → Prop where
  /-- the attempts are used up, or nothing could be evicted -/
  | refused (bytes : ByteCount) :
      Ends name write n (.error (.insufficientCapacity (.write name bytes)), n)
  | missing (hnone : n.find? name = none) : Ends name write n (.error .partitionDoesNotExist, n)
  | failed {p : Partition} {err : CacheError} (hp : n.find? name = some p)
      (herr : (write (n.site p)).1 = .error err) :
      Ends name write n (.error err, n.settle (write (n.site p)).2)
  | done {p : Partition} {a : α} (hp : n.find? name = some p)
      (ha : (write (n.site p)).1 = .ok (.done a)) :
      Ends name write n (.ok a, n.settle (write (n.site p)).2)

variable {n m : Node} {name other : Bytes} {p : Partition} {now : Millis} {α : Type}
  {write : Site → Except CacheError (Admission α) × Site}

-- ---------------------------------------------------------------------------
-- The partition that is written to
-- ---------------------------------------------------------------------------

theorem target_of_find? (hp : n.find? name = some p) : n.target name = p := by
  rw [target, hp]
  rfl

theorem entered_of_find? (hp : n.find? name = some p) : n.entered name = n := by
  rw [entered, hp]

theorem find?_entered (n : Node) (name : Bytes) :
    (n.entered name).find? name = some (n.target name) := by
  cases hp : n.find? name with
  | some p => rw [entered_of_find? hp, target_of_find? hp, hp]
  | none =>
    simp only [entered, hp]
    exact Table.get?_insert_self _ _ _

theorem find?_entered_of_ne (n : Node) (hne : other ≠ name) :
    (n.entered name).find? other = n.find? other := by
  cases hp : n.find? name with
  | some p => rw [entered_of_find? hp]
  | none =>
    simp only [entered, hp]
    exact (Table.get?_insert _ _ _ _).trans (if_neg hne)

/-- What is in the table stays there. -/
theorem find?_entered_of_find? (hp : n.find? other = some p) :
    (n.entered name).find? other = some p := by
  by_cases hsame : other = name
  · subst hsame
    rwa [entered_of_find? hp]
  · rwa [find?_entered_of_ne n hsame]

/-- A partition that is created for a write has no entries, so one that has some was there. -/
theorem find?_of_entered {key : Bytes} {e : Entry} (hp : (n.entered name).find? other = some p)
    (he : p.entries.get? key = some e) : n.find? other = some p := by
  by_cases hsame : other = name
  · subst hsame
    rw [find?_entered] at hp
    obtain rfl : n.target other = p := Option.some.inj hp
    cases hfind : n.find? other with
    | some q => rw [target_of_find? hfind]
    | none =>
      rw [target, hfind] at he
      exact absurd he (by simp [Partition.create])
  · rwa [find?_entered_of_ne n hsame] at hp

theorem hub_entered (n : Node) (name : Bytes) : (n.entered name).world.hub = n.world.hub := by
  unfold entered
  split <;> rfl

theorem config_entered (n : Node) (name : Bytes) : (n.entered name).config = n.config := by
  unfold entered
  split <;> rfl

/-- Making sure that a partition exists fails for invalid names only. -/
theorem ensure_eq (n : Node) (name : Bytes) :
    (PartitionName.Valid name ∧ n.ensure name = .ok (n.entered name)) ∨
      ∃ err, PartitionName.check name = .error err ∧ n.ensure name = .error err := by
  cases hname : PartitionName.check name with
  | error err => exact .inr ⟨err, rfl, by simp only [ensure, hname]⟩
  | ok _ =>
    refine .inl ⟨hname, ?_⟩
    cases hp : n.find? name <;> simp [ensure, hname, entered, target, hp]

theorem entered_wellFormed (hn : n.WellFormed) (hname : PartitionName.Valid name) :
    (n.entered name).WellFormed := by
  cases hp : n.find? name with
  | some p =>
    rw [entered_of_find? hp]
    exact hn
  | none =>
    have htarget : (n.target name).WellFormed name n.config.limits := by
      rw [target, hp]
      exact .create hname _ _
    exact hn.of_insert (config_entered n name) htarget (by simp only [entered, hp])

/-- An attempt is a sequence of steps of the partition that it is made at. -/
theorem steps_attempt (hwrite : Site.Writing write) (s : Site) :
    ∃ limit, s.Steps False limit (write s).2 :=
  ⟨s.part.bytes + (write s).2.part.bytes + 1, hwrite.steps _ _ s (by omega) (by omega)⟩

theorem name_attempt (hwrite : Site.Writing write) (hn : n.WellFormed)
    (hp : n.find? name = some p) : (write (n.site p)).2.part.name = name :=
  (Partition.name_eq (hwrite.settings (n.site p))).trans (hn _ _ hp).named

theorem find?_attempt (hwrite : Site.Writing write) (hn : n.WellFormed)
    (hp : n.find? name = some p) :
    (n.settle (write (n.site p)).2).find? name = some (write (n.site p)).2.part := by
  rw [find?_settle, if_pos (name_attempt hwrite hn hp).symm]

theorem find?_attempt_of_ne (hwrite : Site.Writing write) (hn : n.WellFormed)
    (hp : n.find? name = some p) (hne : other ≠ name) :
    (n.settle (write (n.site p)).2).find? other = n.find? other := by
  rw [find?_settle, name_attempt hwrite hn hp, if_neg hne]

theorem wellFormed_attempt (hwrite : Site.Writing write) (hn : n.WellFormed)
    (hp : n.find? name = some p) : (n.settle (write (n.site p)).2).WellFormed := by
  have hpart := hn _ _ hp
  obtain ⟨limit, hsteps⟩ := steps_attempt hwrite (n.site p)
  exact hn.settle (hpart.of_settings hsteps.settings (hsteps.keyed hpart.keyed))

-- ---------------------------------------------------------------------------
-- Writes as attempts
-- ---------------------------------------------------------------------------

/-- A batch waits for room because its growth is not admitted. -/
theorem need_writeMany {s : Site} {items : List (Bytes × Bytes)} {mode : PutMode}
    {bytes : ByteCount} (h : (s.writeMany items mode now).1 = .ok (.needsRoom bytes)) :
    bytes = UInt64.ofNat (s.part.growth items) ∧ s.grow bytes = none := by
  cases hplan : s.part.plan items mode now with
  | error err => simp [Site.writeMany, hplan] at h
  | ok plan =>
    obtain ⟨-, -, -, hbatch⟩ := Site.plan_eq_ok hplan
    have hgrowth : plan.newBytes - plan.oldBytes = s.part.growth items := by
      rw [hbatch]
      rfl
    cases hgrow : s.grow (UInt64.ofNat (s.part.growth items)) with
    | some grown => simp [Site.writeMany, hplan, hgrowth, hgrow] at h
    | none =>
      simp only [Site.writeMany, hplan, hgrowth, hgrow, Except.ok.injEq,
        Admission.needsRoom.injEq] at h
      rw [← h]
      exact ⟨rfl, hgrow⟩

theorem need_increment {s : Site} {key : Bytes} {delta : Int64} {bytes : ByteCount}
    (h : (s.increment key delta now).1 = .ok (.needsRoom bytes)) :
    bytes = UInt64.ofNat (key.length + 8) := by
  have hcreate (t : Site) (ht : (t.createInteger key delta now).1 = .ok (.needsRoom bytes)) :
      bytes = UInt64.ofNat (key.length + 8) := by
    simp only [Site.createInteger, Entry.weight, Entry.length_ofInteger] at ht
    split at ht
    · cases ht
      rfl
    · cases ht
  rcases Site.increment_cases s key delta now with
    ⟨err, -, heq⟩ | ⟨-, heq⟩ | ⟨e, -, -, heq⟩ | ⟨e, value, fresh, -, -, heq⟩
  · rw [heq] at h
    cases h
  · exact hcreate s (heq ▸ h)
  · exact hcreate _ (heq ▸ h)
  · rw [heq] at h
    cases h

/-- A name is refused because it is missing or because it is invalid. -/
theorem check_error {err : CacheError} (h : PartitionName.check name = .error err) :
    err ≠ .partitionDoesNotExist ∧ ∀ shortage, err ≠ .insufficientCapacity shortage := by
  unfold PartitionName.check at h
  split at h
  · cases h
    simp
  · split at h
    · cases h
      simp
    · split at h
      · cases h
      · cases h
        simp

/-- A batch write is refused before the first attempt, or it is a sequence of attempts at the
partition, which is created if need be. -/
theorem putMany_eq (n : Node) (name : Bytes) (items : List (Bytes × Bytes)) (mode : PutMode)
    (now : Millis) :
    (∃ err, (∀ shortage, err ≠ .insufficientCapacity shortage) ∧
        n.putMany name items mode now = (.error err, n)) ∨
      PartitionName.Valid name ∧ n.putMany name items mode now =
        (n.entered name).accept name now fun s => s.writeMany items mode now := by
  cases mode with
  | ifExists =>
    -- without a partition there are no keys
    cases hname : PartitionName.check name with
    | error err =>
      obtain ⟨hother, hroom⟩ := check_error hname
      refine .inl ⟨err, hroom, ?_⟩
      cases err <;> first | exact absurd rfl hother | simp only [putMany, existing, hname]
    | ok _ =>
      rw [putMany_ifExists hname]
      cases hp : n.find? name with
      | none => exact .inl ⟨.keyDoesNotExist, by simp, rfl⟩
      | some p =>
        rw [entered_of_find? hp]
        exact .inr ⟨hname, rfl⟩
  | upsert =>
    rcases ensure_eq n name with ⟨hname, hensure⟩ | ⟨err, herr, hensure⟩
    · exact .inr ⟨hname, by simp only [putMany, hensure]⟩
    · exact .inl ⟨err, (check_error herr).2, by simp only [putMany, hensure]⟩
  | ifNotExists =>
    rcases ensure_eq n name with ⟨hname, hensure⟩ | ⟨err, herr, hensure⟩
    · exact .inr ⟨hname, by simp only [putMany, hensure]⟩
    · exact .inl ⟨err, (check_error herr).2, by simp only [putMany, hensure]⟩

theorem increment_eq (n : Node) (name key : Bytes) (delta : Int64) (now : Millis) :
    (∃ err, (∀ shortage, err ≠ .insufficientCapacity shortage) ∧
        n.increment name key delta now = (.error err, n)) ∨
      PartitionName.Valid name ∧ n.increment name key delta now =
        (n.entered name).accept name now fun s => s.increment key delta now := by
  rcases ensure_eq n name with ⟨hname, hensure⟩ | ⟨err, herr, hensure⟩
  · exact .inr ⟨hname, by simp only [increment, hensure]⟩
  · exact .inl ⟨err, (check_error herr).2, by simp only [increment, hensure]⟩

/-- An operation fails with the error of its step. -/
theorem answer_eq_error_iff {shape : α → Outcome} {step : Except CacheError α × Node}
    {err : CacheError} : (answer shape step).1 = .error err ↔ step.1 = .error err := by
  rw [answer]
  cases step.1 <;> simp [Except.map]

theorem Operation.attempt_of_attempt? {op : Operation} (hop : op.target? = some (name, now))
    (h : op.attempt? = some ⟨α, write⟩) : Site.Attempt now op.keys write := by
  cases op with
  | put mode target key value clock =>
    cases hop
    cases h
    exact Site.attempt_writeMany [(key, value)] mode now
  | putMany target items mode clock =>
    cases hop
    cases h
    exact Site.attempt_writeMany items mode now
  | increment target key delta clock =>
    cases hop
    cases h
    exact Site.attempt_increment key delta now
  | decrement target key delta clock =>
    cases hop
    cases h
    exact Site.attempt_increment key (-delta) now
  | _ => cases hop

/-- Every write is refused before the first attempt, or it is a sequence of attempts. -/
theorem perform_attempt {op : Operation} (hop : op.target? = some (name, now)) (n : Node) :
    (∃ err, (∀ shortage, err ≠ .insufficientCapacity shortage) ∧
        n.perform op = (.error err, n)) ∨
      PartitionName.Valid name ∧
        ∃ (α : Type) (shape : α → Outcome)
          (write : Site → Except CacheError (Admission α) × Site),
          op.attempt? = some ⟨α, write⟩ ∧
            (∀ s bytes, (write s).1 = .ok (.needsRoom bytes) → bytes = op.need s.part) ∧
            n.perform op = answer shape ((n.entered name).accept name now write) := by
  cases op with
  | put mode target key value clock =>
    cases hop
    rcases putMany_eq n name [(key, value)] mode now with ⟨err, herr, heq⟩ | ⟨hname, heq⟩
    · exact .inl ⟨err, herr, by simp [perform, answer, put, heq, Except.map]⟩
    · refine .inr ⟨hname, Nat, fun _ => .done, _, rfl,
        fun _ _ hneeds => (need_writeMany hneeds).1, ?_⟩
      simp only [perform, answer, put, heq]
      cases ((n.entered name).accept name now _).1 <;> rfl
  | putMany target items mode clock =>
    cases hop
    rcases putMany_eq n name items mode now with ⟨err, herr, heq⟩ | ⟨hname, heq⟩
    · exact .inl ⟨err, herr, by simp [perform, answer, heq, Except.map]⟩
    · exact .inr ⟨hname, Nat, .count, _, rfl, fun _ _ hneeds => (need_writeMany hneeds).1,
        by simp only [perform, heq]⟩
  | increment target key delta clock =>
    cases hop
    rcases increment_eq n name key delta now with ⟨err, herr, heq⟩ | ⟨hname, heq⟩
    · exact .inl ⟨err, herr, by simp [perform, answer, heq, Except.map]⟩
    · exact .inr ⟨hname, Int64, .integer, _, rfl, fun _ _ => need_increment,
        by simp only [perform, heq]⟩
  | decrement target key delta clock =>
    cases hop
    rcases increment_eq n name key (-delta) now with ⟨err, herr, heq⟩ | ⟨hname, heq⟩
    · exact .inl ⟨err, herr, by simp [perform, decrement, answer, heq, Except.map]⟩
    · exact .inr ⟨hname, Int64, .integer, _, rfl, fun _ _ => need_increment,
        by simp only [perform, decrement, heq]⟩
  | _ => cases hop

/-- What all writes have in common: it is known what their attempts do and what they ask for. -/
theorem perform_write {op : Operation} (hop : op.target? = some (name, now)) (n : Node) :
    (∃ err, (∀ shortage, err ≠ .insufficientCapacity shortage) ∧
        n.perform op = (.error err, n)) ∨
      PartitionName.Valid name ∧
        ∃ (α : Type) (shape : α → Outcome)
          (write : Site → Except CacheError (Admission α) × Site),
          Site.Attempt now op.keys write ∧
            (∀ s bytes, (write s).1 = .ok (.needsRoom bytes) → bytes = op.need s.part) ∧
            n.perform op = answer shape ((n.entered name).accept name now write) := by
  rcases perform_attempt hop n with hrefused | ⟨hname, α, shape, write, hattempt, htried⟩
  · exact .inl hrefused
  · exact .inr ⟨hname, α, shape, write, Operation.attempt_of_attempt? hop hattempt, htried⟩

-- ---------------------------------------------------------------------------
-- How attempts end
-- ---------------------------------------------------------------------------

/-- What is kept by a refused attempt together with its round of eviction is kept up to the end,
whatever the last attempt does then. -/
theorem tryWrite_ends {P : Node → Prop} (now : Millis) (tries : Nat) (needed : ByteCount)
    (h : P n)
    (hround : ∀ m p bytes, P m → m.find? name = some p →
      (write (m.site p)).1 = .ok (.needsRoom bytes) →
      P ((m.settle (write (m.site p)).2).makeRoom name bytes now).2) :
    ∃ m, P m ∧ Ends name write m (tryWrite name now write tries needed n) := by
  induction tries generalizing needed n with
  | zero => exact ⟨n, h, .refused needed⟩
  | succ tries ih =>
    cases hfind : n.find? name with
    | none =>
      simp only [tryWrite, visit, hfind, Option.map_none]
      exact ⟨n, h, .missing hfind⟩
    | some p =>
      simp only [tryWrite, visit, hfind, Option.map_some, act]
      cases hresult : (write (n.site p)).1 with
      | error err => exact ⟨n, h, .failed hfind hresult⟩
      | ok admission =>
        cases admission with
        | done a => exact ⟨n, h, .done hfind hresult⟩
        | needsRoom bytes =>
          have hroomed := hround n p bytes h hfind hresult
          simp only
          split
          · exact ih bytes hroomed
          · exact ⟨_, hroomed, .refused bytes⟩

/-- What every attempt and every round of eviction keeps is kept by the whole write. -/
theorem tryWrite_induction {P : Node → Prop} (tries : Nat) (needed : ByteCount) (h : P n)
    (hwrite : ∀ m p, P m → m.find? name = some p → P (m.settle (write (m.site p)).2))
    (hroom : ∀ m bytes, P m → P (m.makeRoom name bytes now).2) :
    P (tryWrite name now write tries needed n).2 := by
  obtain ⟨m, hm, hends⟩ := tryWrite_ends now tries needed h
    fun m p bytes hm hp _ => hroom _ bytes (hwrite m p hm hp)
  generalize tryWrite name now write tries needed n = result at hends ⊢
  cases hends with
  | refused bytes => exact hm
  | missing hnone => exact hm
  | failed hp herr => exact hwrite m _ hm hp
  | done hp ha => exact hwrite m _ hm hp

theorem thinned_attempt {keys : List Bytes} {bytes : ByteCount}
    (hwrite : Site.Attempt now keys write) (hn : n.WellFormed) (hp : n.find? name = some p)
    (hneeds : (write (n.site p)).1 = .ok (.needsRoom bytes)) :
    n.Thinned (n.settle (write (n.site p)).2) :=
  .settle hn hp (hwrite.settings (n.site p)) (hwrite.adds (n.site p) bytes hneeds)

/-- Up to the last attempt a write loses entries at most. -/
theorem accept_ends {keys : List Bytes} (hwrite : Site.Attempt now keys write)
    (hn : n.WellFormed) (name : Bytes) :
    ∃ m, (m.WellFormed ∧ n.Thinned m) ∧ Ends name write m (n.accept name now write) := by
  apply tryWrite_ends (P := fun m => m.WellFormed ∧ n.Thinned m) now attempts 0 ⟨hn, .refl n⟩
  rintro m p bytes ⟨hm, hthin⟩ hp hneeds
  have hwf := wellFormed_attempt hwrite.toWriting hm hp
  obtain ⟨hroomed, hroom⟩ := thinned_makeRoom name bytes now hwf
  exact ⟨hroomed, (hthin.trans (thinned_attempt hwrite hm hp hneeds)).trans hroom⟩

/-- A write whose first attempt does not wait for room consists of that attempt. -/
theorem accept_of_not_needsRoom (now : Millis) (hp : n.find? name = some p)
    (hfirst : ∀ bytes, (write (n.site p)).1 ≠ .ok (.needsRoom bytes)) :
    (n.accept name now write).2 = n.settle (write (n.site p)).2 := by
  simp only [accept, attempts, tryWrite, visit, hp, Option.map_some, act]
  cases hresult : (write (n.site p)).1 with
  | error err => rfl
  | ok admission =>
    cases admission with
    | done a => rfl
    | needsRoom bytes => exact absurd hresult (hfirst bytes)

/-- A lack of room is not the end of an attempt but of the rounds. -/
theorem Ends.eq_of_refused {result : Except CacheError α × Node} {shortage : Shortage}
    {keys : List Bytes}
    (h : Ends name write m result) (hwrite : Site.Attempt now keys write)
    (hresult : result.1 = .error (.insufficientCapacity shortage)) : result.2 = m := by
  cases h with
  | refused bytes => rfl
  | missing hnone => rfl
  | failed hp herr =>
    cases hresult
    exact absurd herr (hwrite.honest _ _)
  | done hp ha => cases hresult

end Node

end CacheNode

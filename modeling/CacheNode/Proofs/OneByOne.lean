import CacheNode.Proofs.BatchOutcomes
import CacheNode.Proofs.Courses

/-!
# CacheNode — batches and single operations

A batch of keys that is read, deleted or written comes to the same as the keys one by one: the same
answers, and the same partition, node and queues afterwards. The batch goes its own way, however.

A batch that is read removes what it found expired when it is through. Each of these entries might
as well be removed before the rest of the batch is read: nothing that is done to other keys
meanwhile depends on it, and the key is not found any more instead of being found expired.

A batch that is written accounts for its bytes as a whole, first for what it adds or last for what
it gives back, and its items on their own do so one by one. Apart from the counters of bytes the
same is done in both cases. And true counters are determined by the bytes that are held.

* `Site.getMany_eq_performAll`, `Site.deleteMany_eq_performAll` — reading and deleting;
* `Site.unweighed`, `Site.eq_of_unweighed` — a site without its counters of bytes;
* `Site.Stores`, `Site.putMany_of_ample` — what a write leaves apart from those;
* `Site.putMany_eq_performAll` — writing;
* `Site.batch_one_by_one` — all three.
-/

namespace CacheNode

namespace Table

variable {β : Type}

theorem erase_insert_of_ne (t : Table β) {k q : Bytes} (v : β) (h : q ≠ k) :
    (t.insert k v).erase q = (t.erase q).insert k v := by
  apply ext_get?
  intro r
  rw [get?_erase, get?_insert, get?_insert, get?_erase]
  split
  · next hr => rw [if_neg (hr ▸ h)]
  · rfl

end Table

namespace Account

variable {a b : Account} {o : Others} {bound delta : ByteCount} {held : Nat}

/-- An account without its counters of bytes. -/
def unweighed (a : Account) : Account where
  tally  := { a.tally with totalSize := 0 }
  totals := { a.totals with totalSize := 0, unreservedSize := 0 }

theorem unweighed_tryGrow (h : a.tryGrow delta bound = some b) : b.unweighed = a.unweighed := by
  rcases tryGrow_cases h with ⟨-, rfl⟩ | ⟨-, -, rfl⟩ | ⟨-, -, rfl⟩ <;> rfl

/-- Counters of bytes that say the same are the same. -/
theorem Weighs.eq_of_unweighed (ha : a.Weighs o bound held) (hb : b.Weighs o bound held)
    (h : a.unweighed = b.unweighed) : a = b := by
  have hbytes := UInt64.toNat.inj (ha.bytes.trans hb.bytes.symm)
  have hall := UInt64.toNat.inj (ha.allBytes.trans hb.allBytes.symm)
  have hshared := UInt64.toNat.inj (ha.shared.trans hb.shared.symm)
  obtain ⟨⟨⟩, ⟨⟩⟩ := a
  obtain ⟨⟨⟩, ⟨⟩⟩ := b
  simp_all [unweighed]

end Account

namespace Site

variable {s t : Site} {o : Account.Others} {key other : Bytes} {e f : Entry} {now : Millis}
  {x : Expiry}

/-- The hits among the results of reading keys one after the other. -/
def hits (keys : List Bytes) (results : List Result) : List (Bytes × Bytes) :=
  (keys.zip results).filterMap fun
    | (key, .ok (.payload (some value))) => some (key, value)
    | _ => none

/-- How many results are successes. -/
def successes (results : List Result) : Nat := results.countP Except.isOk

/-- What a batch reports whose members have these results one by one: how many of them succeed. If
the partition was deleted none does, and the batch is refused like each of them. -/
def report (s : Site) (results : List Result) : Except CacheError Nat :=
  if s.part.retired then .error .partitionDoesNotExist else .ok (successes results)

-- ---------------------------------------------------------------------------
-- Expiry in a batch
-- ---------------------------------------------------------------------------

/-- Where entries never expire none is removed, so the interval need not be looked at first. -/
theorem expire_eq_expireEach (s : Site) (keys : List Bytes) (now : Millis) :
    s.expire keys now = expireEach (s.part.expiry now) keys s := by
  unfold expire
  split
  · next hnever =>
    have hnothing (keys : List Bytes) : expireEach (s.part.expiry now) keys s = (0, s) := by
      induction keys with
      | nil => rfl
      | cons key rest ih =>
        rw [expireEach]
        split
        · exact ih
        · rw [Entry.isExpired_of_never _ hnever]
          exact ih
    exact (hnothing keys).symm
  · rfl

/-- A key without an entry has nothing that could be removed. -/
theorem expireEach_filter (keys : List Bytes) (h : s.part.entries.get? key = none) :
    expireEach x (keys.filter (· ≠ key)) s = expireEach x keys s := by
  induction keys generalizing s with
  | nil => rfl
  | cons first rest ih =>
    by_cases hfirst : first = key
    · subst hfirst
      rw [List.filter_cons_of_neg (by simp), expireEach, h]
      exact ih h
    · rw [List.filter_cons_of_pos (by simpa using hfirst), expireEach, expireEach]
      split
      · exact ih h
      · next e he =>
        have herased : (s.takeOut first e .expired).part.entries.get? key = none := by
          rw [entries_takeOut, Table.get?_erase, if_neg (Ne.symm hfirst), h]
        rw [ih herased, ih h]

-- ---------------------------------------------------------------------------
-- Reading
-- ---------------------------------------------------------------------------

theorem expiry_renew (s : Site) (key : Bytes) (e : Entry) (now later : Millis) :
    (s.renew key e now).part.expiry later = s.part.expiry later := by
  unfold renew
  split <;> rfl

theorem get?_renew_of_ne (s : Site) (e : Entry) (now : Millis) (h : other ≠ key) :
    (s.renew key e now).part.entries.get? other = s.part.entries.get? other := by
  unfold renew
  split
  · rfl
  · rw [entries_hold, Table.get?_insert, if_neg h]

theorem takeOut_miss (s : Site) (key : Bytes) (e : Entry) :
    (s.takeOut key e .expired).book Account.miss =
      (s.book Account.miss).takeOut key e .expired := rfl

/-- Whether a hit is counted before or after an expired entry under another key is removed is all
the same. -/
theorem takeOut_hit (s : Site) (e f : Entry) (now : Millis) (h : other ≠ key) :
    ((s.takeOut key e .expired).renew other f now).book (·.hit now) =
      ((s.renew other f now).book (·.hit now)).takeOut key e .expired := by
  unfold renew
  rw [metadata_takeOut]
  split
  · rfl
  · rw [entries_takeOut, ← Table.erase_insert_of_ne _ _ (Ne.symm h)]
    rfl

/-- An expired entry that is removed before a batch is read, and not after, makes no difference but
that its key is not met any more. -/
theorem readEach_takeOut (he : s.part.entries.get? key = some e)
    (hexpired : e.isExpired (s.part.expiry now) = true) (keys : List Bytes) :
    (readEach now keys s).2.part.entries.get? key = some e ∧
      readEach now keys (s.takeOut key e .expired) =
        (((readEach now keys s).1.1, (readEach now keys s).1.2.filter (· ≠ key)),
          (readEach now keys s).2.takeOut key e .expired) := by
  induction keys generalizing s with
  | nil => exact ⟨he, rfl⟩
  | cons first rest ih =>
    by_cases hfirst : first = key
    · -- it is found expired, or it is not found
      subst hfirst
      obtain ⟨hkept, hrest⟩ := ih (s := s.book Account.miss) he hexpired
      have hgone : (s.takeOut first e .expired).part.entries.get? first = none :=
        Table.get?_erase_self _ _
      simp only [readEach, he, hexpired, hgone, if_true, takeOut_miss, hrest]
      refine ⟨hkept, ?_⟩
      rw [List.filter_cons_of_neg (by simp)]
    · have hsame : (s.takeOut key e .expired).part.entries.get? first =
          s.part.entries.get? first := by
        rw [entries_takeOut, Table.get?_erase, if_neg hfirst]
      cases hget : s.part.entries.get? first with
      | none =>
        obtain ⟨hkept, hrest⟩ := ih (s := s.book Account.miss) he hexpired
        simp only [readEach, hsame, hget, takeOut_miss, hrest]
        exact ⟨hkept, trivial⟩
      | some f =>
        have hexpiry : (s.takeOut key e .expired).part.expiry now = s.part.expiry now := rfl
        cases hstale : f.isExpired (s.part.expiry now) with
        | true =>
          obtain ⟨hkept, hrest⟩ := ih (s := s.book Account.miss) he hexpired
          simp only [readEach, hsame, hget, hexpiry, hstale, if_true, takeOut_miss, hrest]
          refine ⟨hkept, ?_⟩
          rw [List.filter_cons_of_pos (by simpa using hfirst)]
        | false =>
          have hstill : ((s.renew first f now).book (·.hit now)).part.entries.get? key =
              some e := by
            rw [entries_book, get?_renew_of_ne _ _ _ (Ne.symm hfirst), he]
          have hlater : ((s.renew first f now).book (·.hit now)).part.expiry now =
              s.part.expiry now := expiry_renew s first f now now
          obtain ⟨hkept, hrest⟩ := ih hstill (by rw [hlater]; exact hexpired)
          simp only [readEach, hsame, hget, hexpiry, hstale, Bool.false_eq_true, if_false,
            takeOut_hit _ _ _ _ hfirst, hrest]
          exact ⟨hkept, trivial⟩

theorem expiry_readEach (keys : List Bytes) (s : Site) :
    (readEach now keys s).2.part.expiry now = s.part.expiry now := by
  have hsteps : Steps False (s.part.bytes + 1) s (readEach now keys s).2 :=
    steps_readEach now keys (Nat.lt_succ_self _)
  exact expiry_eq hsteps.settings now

/-- What a batch found expired is removed after it, whether that is anything or nothing. -/
theorem getMany_eq (s : Site) (keys : List Bytes) (now : Millis) :
    s.getMany keys now =
      ((readEach now keys s).1.1,
        (expireEach (s.part.expiry now) (readEach now keys s).1.2 (readEach now keys s).2).2) := by
  simp only [getMany, expire_eq_expireEach, expiry_readEach]
  split
  · next hnone => rw [hnone]; rfl
  · rfl

/-- The first key of a batch has no entry. -/
theorem getMany_of_none (hget : s.part.entries.get? key = none) (rest : List Bytes) :
    s.getMany (key :: rest) now = (s.book Account.miss).getMany rest now := by
  rw [getMany_eq, getMany_eq]
  simp only [readEach, hget]
  rfl

/-- The entry of the first key of a batch has expired. It might as well be removed at once. -/
theorem getMany_of_expired (he : s.part.entries.get? key = some e)
    (hexpired : e.isExpired (s.part.expiry now) = true) (rest : List Bytes) :
    s.getMany (key :: rest) now =
      ((s.takeOut key e .expired).book Account.miss).getMany rest now := by
  obtain ⟨hkept, hrest⟩ := readEach_takeOut (s := s.book Account.miss) he hexpired rest
  rw [getMany_eq, getMany_eq, takeOut_miss, hrest]
  have hgone : ((readEach now rest (s.book Account.miss)).2.takeOut key e
      .expired).part.entries.get? key = none := Table.get?_erase_self _ _
  simp only [readEach, he, hexpired, if_true, expireEach, hkept, expireEach_filter _ hgone]
  rfl

/-- The entry of the first key of a batch is live. -/
theorem getMany_of_live (he : s.part.entries.get? key = some e)
    (hlive : e.isExpired (s.part.expiry now) = false) (rest : List Bytes) :
    s.getMany (key :: rest) now =
      ((key, e.payload) :: (((s.renew key e now).book (·.hit now)).getMany rest now).1,
        (((s.renew key e now).book (·.hit now)).getMany rest now).2) := by
  have hlater : ((s.renew key e now).book (·.hit now)).part.expiry now = s.part.expiry now :=
    expiry_renew s key e now now
  rw [getMany_eq, getMany_eq, hlater]
  simp only [readEach, he, hlive, Bool.false_eq_true, if_false]

/-- Reading a batch of keys comes to the same as reading them one after the other. -/
theorem getMany_eq_performAll (s : Site) (keys : List Bytes) (now : Millis) :
    s.getMany keys now =
      (hits keys (performAll (keys.map fun key => .get key now true true) s).1,
        (performAll (keys.map fun key => .get key now true true) s).2) := by
  induction keys generalizing s with
  | nil => rfl
  | cons key rest ih =>
    rw [List.map_cons, performAll]
    cases hget : s.part.entries.get? key with
    | none =>
      have hone : s.perform (.get key now true true) =
          (.ok (.payload none), s.book Account.miss) := by
        simp only [perform, yields, get, hget]
        rfl
      rw [getMany_of_none hget, ih, hone]
      rfl
    | some e =>
      cases hexpired : e.isExpired (s.part.expiry now) with
      | true =>
        have hone : s.perform (.get key now true true) =
            (.ok (.payload none), (s.takeOut key e .expired).book Account.miss) := by
          simp only [perform, yields, get, hget, hexpired, expire_eq_expireEach, expireEach]
          rfl
        rw [getMany_of_expired hget hexpired, ih, hone]
        rfl
      | false =>
        have hone : s.perform (.get key now true true) =
            (.ok (.payload (some e.payload)), (s.renew key e now).book (·.hit now)) := by
          simp only [perform, yields, get, hget, hexpired]
          rfl
        rw [getMany_of_live hget hexpired, ih, hone]
        rfl

-- ---------------------------------------------------------------------------
-- Deleting
-- ---------------------------------------------------------------------------

/-- Operations that are all refused change nothing. -/
theorem performAll_of_refused {acts : List Partition.Operation} {err : CacheError}
    (h : ∀ act ∈ acts, s.perform act = (.error err, s)) : (performAll acts s).2 = s := by
  induction acts with
  | nil => rfl
  | cons act rest ih =>
    rw [performAll, h act List.mem_cons_self]
    exact ih fun other hother => h other (List.mem_cons_of_mem _ hother)

/-- Keys are removed one after the other. -/
theorem deleteEach_cons (x : Expiry) (key : Bytes) (rest : List Bytes) (s : Site) :
    deleteEach x (key :: rest) s =
      ((deleteEach x rest (deleteEach x [key] s).2).1 + (deleteEach x [key] s).1,
        (deleteEach x rest (deleteEach x [key] s).2).2) := by
  cases hget : s.part.entries.get? key with
  | none => simp only [deleteEach, hget]; rfl
  | some e =>
    cases hexpired : e.isExpired x with
    | true => simp only [deleteEach, hget, hexpired, if_true]; rfl
    | false =>
      simp only [deleteEach, hget, hexpired, Bool.false_eq_true, if_false]

theorem deleteEach_singleton_le (x : Expiry) (key : Bytes) (s : Site) :
    (deleteEach x [key] s).1 ≤ 1 := by
  simp only [deleteEach]
  split
  · exact Nat.zero_le _
  · split
    · exact Nat.zero_le _
    · exact Nat.le_refl _

variable {keys : List Bytes}

theorem deleteMany_of_retired (hkeys : ∀ key ∈ keys, s.part.checkKey key = .ok ())
    (hretired : s.part.retired = true) (now : Millis) :
    s.deleteMany keys now = (.error .partitionDoesNotExist, s) := by
  simp only [deleteMany, checkEach_eq_ok_iff.2 hkeys, Partition.checkInUse_of_retired hretired]

theorem deleteMany_of_inUse (hkeys : ∀ key ∈ keys, s.part.checkKey key = .ok ())
    (huse : s.part.retired = false) (now : Millis) :
    s.deleteMany keys now =
      (.ok (deleteEach (s.part.expiry now) keys s).1,
        (deleteEach (s.part.expiry now) keys s).2) := by
  simp only [deleteMany, checkEach_eq_ok_iff.2 hkeys, Partition.checkInUse_of_inUse huse]

/-- One deletion succeeds exactly if it counts one key. -/
theorem perform_delete (hkey : s.part.checkKey key = .ok ()) (huse : s.part.retired = false)
    (now : Millis) :
    (s.perform (.delete key now)).2 = (deleteEach (s.part.expiry now) [key] s).2 ∧
      successes [(s.perform (.delete key now)).1] = (deleteEach (s.part.expiry now) [key] s).1 := by
  have hle := deleteEach_singleton_le (s.part.expiry now) key s
  have hmany : s.deleteMany [key] now = _ :=
    deleteMany_of_inUse (by simpa using hkey) huse now
  simp only [perform, answer, delete, hmany]
  generalize (deleteEach (s.part.expiry now) [key] s).1 = count at hle ⊢
  obtain rfl | rfl : count = 0 ∨ count = 1 := by omega
  · exact ⟨rfl, rfl⟩
  · exact ⟨rfl, rfl⟩

theorem performAll_delete (hkeys : ∀ key ∈ keys, s.part.checkKey key = .ok ())
    (huse : s.part.retired = false) (now : Millis) :
    deleteEach (s.part.expiry now) keys s =
      (successes (performAll (keys.map fun key => .delete key now) s).1,
        (performAll (keys.map fun key => .delete key now) s).2) := by
  induction keys generalizing s with
  | nil => rfl
  | cons key rest ih =>
    obtain ⟨hsite, hcount⟩ := perform_delete (hkeys key List.mem_cons_self) huse now
    have hsteps : Steps False (s.part.bytes + 1) s (deleteEach (s.part.expiry now) [key] s).2 :=
      steps_deleteEach _ [key] (Nat.lt_succ_self _)
    have hsettings := hsteps.settings
    have hlater := ih (s := (deleteEach (s.part.expiry now) [key] s).2)
      (fun other hother => by
        rw [checkKey_eq hsettings]
        exact hkeys other (List.mem_cons_of_mem _ hother))
      (by rw [Partition.retired_eq hsettings, huse])
    rw [expiry_eq hsettings] at hlater
    rw [deleteEach_cons, hlater, List.map_cons, performAll, hsite, ← hcount]
    refine Prod.ext ?_ rfl
    simp only [successes, List.countP_cons, List.countP_nil, Nat.zero_add]

/-- Deleting a batch of valid keys comes to the same as deleting them one after the other, and it
counts the successes. -/
theorem deleteMany_eq_performAll (hkeys : ∀ key ∈ keys, s.part.checkKey key = .ok ())
    (now : Millis) :
    s.deleteMany keys now =
      (s.report (performAll (keys.map fun key => .delete key now) s).1,
        (performAll (keys.map fun key => .delete key now) s).2) := by
  unfold report
  cases hretired : s.part.retired with
  | true =>
    have hrefused : ∀ act ∈ keys.map fun key => Partition.Operation.delete key now,
        s.perform act = (.error .partitionDoesNotExist, s) := by
      intro act hact
      obtain ⟨key, hkey, rfl⟩ := List.mem_map.1 hact
      have hone : s.deleteMany [key] now = _ :=
        deleteMany_of_retired (by simpa using hkeys key hkey) hretired now
      simp only [perform, answer, delete, hone]
      rfl
    rw [deleteMany_of_retired hkeys hretired, performAll_of_refused hrefused]
    rfl
  | false =>
    rw [deleteMany_of_inUse hkeys hretired, performAll_delete hkeys hretired]
    rfl

-- ---------------------------------------------------------------------------
-- Writing
-- ---------------------------------------------------------------------------

/-- A site without its counters of bytes. -/
def unweighed (s : Site) : Site := s.book Account.unweighed

/-- What true counters say is enough to tell them. -/
theorem eq_of_unweighed (hs : s.Weighed o) (ht : t.Weighed o) (h : s.unweighed = t.unweighed) :
    s = t := by
  have hmetadata : s.part.metadata = t.part.metadata := congrArg (·.part.metadata) h
  have hentries : s.part.entries = t.part.entries := congrArg (·.part.entries) h
  have hbytes : s.part.bytes = t.part.bytes := by rw [Partition.bytes, Partition.bytes, hentries]
  unfold Weighed at hs
  rw [hmetadata, hbytes] at hs
  have haccount : s.account = t.account := hs.eq_of_unweighed ht (congrArg account h)
  calc s = s.unweighed.settle s.account := rfl
    _ = t.unweighed.settle t.account := by rw [h, haccount]

theorem unweighed_writeOne (now : Millis) (s : Site) (item : Bytes × Bytes) :
    (writeOne now s item).unweighed = writeOne now s.unweighed item := by
  have hsame : s.unweighed.part.entries.get? item.1 = s.part.entries.get? item.1 := rfl
  cases hget : s.part.entries.get? item.1 with
  | none =>
    simp only [writeOne, hsame, hget]
    rfl
  | some old =>
    have hexpiry : s.unweighed.part.expiry now = s.part.expiry now := rfl
    have hmetadata : s.unweighed.part.metadata = s.part.metadata := rfl
    simp only [writeOne, hsame, hget, hexpiry, hmetadata]
    split
    · rfl
    · split <;> rfl

theorem unweighed_foldl_writeOne (now : Millis) (batch : List (Bytes × Bytes)) (s : Site) :
    (batch.foldl (writeOne now) s).unweighed = batch.foldl (writeOne now) s.unweighed := by
  induction batch generalizing s with
  | nil => rfl
  | cons item rest ih => rw [List.foldl_cons, List.foldl_cons, ih, unweighed_writeOne]

theorem unweighed_commit {plan : WritePlan} {grown : Site} {growth : ByteCount}
    (hgrown : s.grow growth = some grown) :
    (commit now plan grown).unweighed = plan.batch.foldl (writeOne now) s.unweighed := by
  obtain ⟨a, hadmitted, rfl⟩ := grow_eq_some hgrown
  have hgrew : (s.settle a).unweighed = s.unweighed :=
    congrArg s.settle (Account.unweighed_tryGrow hadmitted)
  rw [← hgrew, ← unweighed_foldl_writeOne]
  rfl

/-- The bytes of the items of a batch. -/
def load (items : List (Bytes × Bytes)) : Nat :=
  sumOf (fun item => Entry.weight item.1 item.2) items

theorem load_cons (item : Bytes × Bytes) (rest : List (Bytes × Bytes)) :
    load (item :: rest) = load [item] + load rest := rfl

variable {items : List (Bytes × Bytes)}

/-- What is left where items have been written one after the other and counters are true, whichever
way their bytes were accounted for. -/
structure Stores (s : Site) (o : Account.Others) (now : Millis) (items : List (Bytes × Bytes))
    (t : Site) : Prop where
  weighed   : t.Weighed o
  unweighed : t.unweighed = items.foldl (writeOne now) s.unweighed

/-- There is room for the items of a batch even if none of them replaces anything. -/
structure Ample (s : Site) (o : Account.Others) (items : List (Bytes × Bytes)) : Prop where
  fits : s.drawn o + load items ≤ s.budget
  word : o.bytes + s.part.bytes + load items < UInt64.size

theorem putMany_of_ample (h : s.Weighed o) (hshared : o.shared ≤ o.bytes)
    (huse : s.part.retired = false) (hvalid : ∀ item ∈ items, s.part.checkItem item = .ok ())
    (hkeys : (items.map Prod.fst).Nodup) (hroom : s.Ample o items) (now : Millis) :
    ∃ t, s.putMany items .upsert now = (.ok items.length, t) ∧ s.Stores o now items t := by
  have hplan : s.part.plan items .upsert now =
      .ok ⟨items, load items, sumOf (fun item => s.part.bytesAt item.1) items⟩ :=
    plan_upsert huse hvalid hkeys now
  obtain ⟨hfits, hword⟩ := hroom
  have hgrowth : (UInt64.ofNat (load items - sumOf (fun item => s.part.bytesAt item.1)
      items)).toNat = load items - sumOf (fun item => s.part.bytesAt item.1) items :=
    UInt64.toNat_ofNat_of_lt' (by omega)
  cases hgrow : s.grow (UInt64.ofNat (load items - sumOf (fun item => s.part.bytesAt item.1)
      items)) with
  | none =>
    obtain ⟨-, hover⟩ := (grow_eq_none_iff h (by omega)).1 hgrow
    omega
  | some grown =>
    obtain ⟨hexchange, hold⟩ := bytes_commit hplan hgrow
    refine ⟨commit now _ grown, ?_, weighed_commit hplan hgrow h hshared ?_,
      unweighed_commit hgrow⟩
    · simp only [putMany, writeMany, hplan, hgrow, orInsufficient]
      rfl
    · dsimp only at hexchange hold ⊢
      omega

namespace Stores

variable {rest : List (Bytes × Bytes)} {item : Bytes × Bytes}

theorem settings (h : s.Stores o now items t) : t.part.settings = s.part.settings :=
  (congrArg (·.part.settings) h.unweighed).trans (settings_foldl_writeOne now items s.unweighed)

theorem budget (h : s.Stores o now items t) : t.budget = s.budget := by
  apply budget_eq (Partition.metadata_eq h.settings)
  exact (congrArg division h.unweighed).trans (division_foldl_writeOne now items s.unweighed)

theorem bytes_le (h : s.Stores o now items t) (hkeys : (items.map Prod.fst).Nodup) :
    t.part.bytes ≤ s.part.bytes + load items := by
  have hexchange := bytes_foldl_writeOne now items s.unweighed hkeys
  rw [← h.unweighed] at hexchange
  have hbytes : t.unweighed.part.bytes + sumOf (fun item => s.part.bytesAt item.1) items =
      s.part.bytes + load items := hexchange
  exact Nat.le_of_add_right_le (Nat.le_of_eq hbytes)

/-- When an item has been written there is room for the others. -/
theorem ample (h : s.Stores o now [item] t) (hroom : s.Ample o (item :: rest)) :
    t.Ample o rest := by
  obtain ⟨hfits, hword⟩ := hroom
  have hbytes := h.bytes_le (by simp)
  rw [load_cons] at hfits hword
  have hdrawn : t.drawn o ≤ s.drawn o + load [item] := by
    rw [drawn, drawn, Partition.metadata_eq h.settings]
    split <;> omega
  exact ⟨by rw [h.budget]; omega, by omega⟩

theorem trans {u : Site} (h : s.Stores o now [item] t) (hrest : t.Stores o now rest u) :
    s.Stores o now (item :: rest) u where
  weighed   := hrest.weighed
  unweighed := by rw [hrest.unweighed, h.unweighed]; rfl

end Stores

/-- Items are written one after the other. -/
theorem performAll_putMany (h : s.Weighed o) (hshared : o.shared ≤ o.bytes)
    (huse : s.part.retired = false) (hvalid : ∀ item ∈ items, s.part.checkItem item = .ok ())
    (hroom : s.Ample o items) (now : Millis) :
    ∃ t, performAll (items.map fun item => .putMany [item] .upsert now) s =
        (items.map fun _ => .ok (.count 1), t) ∧ s.Stores o now items t := by
  induction items generalizing s with
  | nil => exact ⟨s, rfl, h, rfl⟩
  | cons item rest ih =>
    -- one item is a batch as well, and what it leaves has room for the others
    have hfirst : s.Ample o [item] := by
      obtain ⟨hfits, hword⟩ := hroom
      rw [load_cons] at hfits hword
      exact ⟨by omega, by omega⟩
    have hvalidFirst : ∀ other ∈ [item], s.part.checkItem other = .ok () := by
      simpa using hvalid item List.mem_cons_self
    obtain ⟨t, hput, hstores⟩ :=
      putMany_of_ample h hshared huse hvalidFirst (List.nodup_singleton _) hfirst now
    have hvalidLater : ∀ other ∈ rest, t.part.checkItem other = .ok () := by
      intro other hother
      rw [checkItem_eq hstores.settings]
      exact hvalid other (List.mem_cons_of_mem _ hother)
    obtain ⟨u, hlater, hall⟩ := ih hstores.weighed
      (by rw [Partition.retired_eq hstores.settings, huse]) hvalidLater (hstores.ample hroom)
    refine ⟨u, ?_, hstores.trans hall⟩
    have hone : s.perform (.putMany [item] .upsert now) = (.ok (.count 1), t) := by
      simp only [perform, answer, hput]
      rfl
    rw [List.map_cons, performAll, hone, hlater]
    rfl

theorem putMany_of_retired (hvalid : ∀ item ∈ items, s.part.checkItem item = .ok ())
    (hretired : s.part.retired = true) (mode : PutMode) (now : Millis) :
    s.putMany items mode now = (.error .partitionDoesNotExist, s) := by
  simp only [putMany, writeMany, Partition.plan, checkEach_eq_ok_iff.2 hvalid,
    Partition.checkInUse_of_retired hretired]
  rfl

/-- Writing a batch of valid items with different keys comes to the same as writing them one after
the other, if there is room for all of them, and it counts the successes. -/
theorem putMany_eq_performAll (h : s.Weighed o) (hshared : o.shared ≤ o.bytes)
    (hvalid : ∀ item ∈ items, s.part.checkItem item = .ok ())
    (hkeys : (items.map Prod.fst).Nodup) (hroom : s.Ample o items) (now : Millis) :
    s.putMany items .upsert now =
      (s.report (performAll (items.map fun item => .putMany [item] .upsert now) s).1,
        (performAll (items.map fun item => .putMany [item] .upsert now) s).2) := by
  unfold report
  cases hretired : s.part.retired with
  | true =>
    have hrefused : ∀ act ∈ items.map fun item => Partition.Operation.putMany [item] .upsert now,
        s.perform act = (.error .partitionDoesNotExist, s) := by
      intro act hact
      obtain ⟨item, hitem, rfl⟩ := List.mem_map.1 hact
      have hone : s.putMany [item] .upsert now = _ :=
        putMany_of_retired (by simpa using hvalid item hitem) hretired .upsert now
      simp only [perform, answer, hone]
      rfl
    rw [putMany_of_retired hvalid hretired, performAll_of_refused hrefused]
    rfl
  | false =>
    obtain ⟨t, hput, hstores⟩ := putMany_of_ample h hshared hretired hvalid hkeys hroom now
    obtain ⟨u, hsingles, hstored⟩ := performAll_putMany h hshared hretired hvalid hroom now
    have hsame : t = u := eq_of_unweighed hstores.weighed hstored.weighed
      (hstores.unweighed.trans hstored.unweighed.symm)
    have hcount : successes (items.map fun _ => (.ok (.count 1) : Result)) = items.length := by
      rw [successes, List.countP_map]
      exact List.countP_eq_length.2 fun _ _ => rfl
    rw [hput, hsingles, hcount, hsame]
    rfl

-- ---------------------------------------------------------------------------
-- Batches
-- ---------------------------------------------------------------------------

/-- Where counters are true batches agree with single operations. They give the same answers and
leave the same entries, access times, counters, predicates and queues. Reading does so whatever the
keys are, where the single reads renew access times and are counted, and deleting does so for valid
keys. Writing does so for valid items with different keys, if there is room for all of them. -/
theorem batch_one_by_one (h : s.Balanced o) (hshared : o.shared ≤ o.bytes) (now : Millis) :
    (∀ keys, s.getMany keys now =
      (hits keys (performAll (keys.map fun key => .get key now true true) s).1,
        (performAll (keys.map fun key => .get key now true true) s).2)) ∧
    (∀ keys, (∀ key ∈ keys, s.part.checkKey key = .ok ()) →
      s.deleteMany keys now =
        (s.report (performAll (keys.map fun key => .delete key now) s).1,
          (performAll (keys.map fun key => .delete key now) s).2)) ∧
    ∀ items, (∀ item ∈ items, s.part.checkItem item = .ok ()) → (items.map Prod.fst).Nodup →
      s.Ample o items →
      s.putMany items .upsert now =
        (s.report (performAll (items.map fun item => .putMany [item] .upsert now) s).1,
          (performAll (items.map fun item => .putMany [item] .upsert now) s).2) :=
  ⟨fun keys => getMany_eq_performAll s keys now,
    fun _ hkeys => deleteMany_eq_performAll hkeys now,
    fun _ hvalid hkeys hroom =>
      putMany_eq_performAll h.weighed hshared hvalid hkeys hroom now⟩

/-- A partition with an entry that expired and one that has not, whose changes somebody watches. -/
def attended : Site :=
  let subscribed := withStale.hub.subscribe 1
  (addWatch { withStale with hub := subscribed.2 }
    ⟨subscribed.1, 7, withStale.part.name, none, .empty⟩).2

/-- The key of the expired entry is named twice in a batch that is read. In a batch that is written
it is replaced, another one is overwritten, and one is new. -/
theorem batch_one_by_one_attended :
    attended.getMany [[97], [98], [97]] 20 =
        ([([98], [2, 2])],
          (performAll
            [.get [97] 20 true true, .get [98] 20 true true, .get [97] 20 true true]
            attended).2) ∧
      attended.deleteMany [[98], [99], [97]] 20 =
        (.ok 1, (performAll [.delete [98] 20, .delete [99] 20, .delete [97] 20] attended).2) ∧
      attended.putMany [([97], [5]), ([99], [6, 6]), ([98], [7])] .upsert 20 =
        (.ok 3,
          (performAll
            [ .putMany [([97], [5])] .upsert 20, .putMany [([99], [6, 6])] .upsert 20,
              .putMany [([98], [7])] .upsert 20 ]
            attended).2) := by
  have hbalanced : attended.Balanced ⟨0, 0, 0⟩ := ⟨by cbv, by cbv, by cbv, by cbv, by cbv⟩
  obtain ⟨hread, hdeleted, hwritten⟩ := batch_one_by_one hbalanced (Nat.le_refl 0) 20
  have hkeys : checkEach attended.part.checkKey [[98], [99], [97]] = .ok () := by cbv
  have hitems : checkEach attended.part.checkItem [([97], [5]), ([99], [6, 6]), ([98], [7])] =
      .ok () := by cbv
  have hroom : attended.Ample ⟨0, 0, 0⟩ [([97], [5]), ([99], [6, 6]), ([98], [7])] := by
    have hdrawn : attended.drawn ⟨0, 0, 0⟩ = 5 := by cbv
    have hbudget : attended.budget = 1073741824 := by cbv
    have hbytes : attended.part.bytes = 5 := by cbv
    refine ⟨?_, ?_⟩
    · rw [hdrawn, hbudget]
      decide
    · rw [hbytes]
      decide
  exact ⟨(hread [[97], [98], [97]]).trans (Prod.ext (by cbv) rfl),
    (hdeleted _ (checkEach_eq_ok_iff.1 hkeys)).trans (Prod.ext (by cbv) rfl),
    (hwritten _ (checkEach_eq_ok_iff.1 hitems) (by decide) hroom).trans (Prod.ext (by cbv) rfl)⟩

/-- A partition of a hundred bytes, of which ten are taken. -/
def tenth : Site :=
  (performAll [.putMany [([97], List.replicate 9 1)] .upsert 1]
    ((Node.bare {}).site
      (.create [112] { createDate := (Node.bare {}).today, maxCacheSize := 100 } {}))).2

/-- The same partition in a node that holds as many bytes as can be counted. -/
def brimming : Site :=
  { tenth with totals := { tenth.totals with totalSize := 18446744073709551615 } }

/-- A batch whose second payload is empty. -/
def hollow : List (Bytes × Bytes) := [([98], [1]), ([99], [])]

/-- A batch that adds five bytes and gives eight back. -/
def easing : List (Bytes × Bytes) := [([98], [1, 1, 1, 1]), ([97], [1])]

/-- Of a batch with an empty payload nothing is written, but the other item is if it is written
alone. And where more bytes would be held on the way than can be counted, it matters for the node's
counter when bytes are given back. Both batches have valid keys that differ, and both fit the
budget with all of their bytes. -/
theorem batch_unlike_singles :
    (tenth.Balanced ⟨0, 0, 0⟩ ∧
      (∀ item ∈ hollow, tenth.part.checkKey item.1 = .ok ()) ∧ (hollow.map Prod.fst).Nodup ∧
      tenth.drawn ⟨0, 0, 0⟩ + load hollow ≤ tenth.budget ∧
      (tenth.putMany hollow .upsert 2).2.part.entries.get? [98] = none ∧
      (performAll (hollow.map fun item => .putMany [item] .upsert 2)
        tenth).2.part.entries.get? [98] = some ⟨[1], 2⟩) ∧
    (brimming.Balanced ⟨0, 18446744073709551605, 0⟩ ∧
      (∀ item ∈ easing, brimming.part.checkItem item = .ok ()) ∧ (easing.map Prod.fst).Nodup ∧
      brimming.drawn ⟨0, 18446744073709551605, 0⟩ + load easing ≤ brimming.budget ∧
      (brimming.putMany easing .upsert 2).2.totals.totalSize = 18446744073709551612 ∧
      (performAll (easing.map fun item => .putMany [item] .upsert 2)
        brimming).2.totals.totalSize = 0) := by
  have hdrawn : tenth.drawn ⟨0, 0, 0⟩ = 10 := by cbv
  have hbudget : tenth.budget = 100 := by cbv
  have hkeys : checkEach (fun item => tenth.part.checkKey item.1) hollow = .ok () := by cbv
  have hitems : checkEach brimming.part.checkItem easing = .ok () := by cbv
  refine ⟨⟨⟨by cbv, by cbv, by cbv, by cbv, by cbv⟩, checkEach_eq_ok_iff.1 hkeys, by decide, ?_,
      by cbv, by cbv⟩,
    ⟨by cbv, by cbv, by cbv, by cbv, by cbv⟩, checkEach_eq_ok_iff.1 hitems, by decide, ?_,
    by cbv, by cbv⟩
  · rw [hdrawn, hbudget]
    decide
  · have hbrim : brimming.drawn ⟨0, 18446744073709551605, 0⟩ = 10 := by cbv
    have hlimit : brimming.budget = 100 := by cbv
    rw [hbrim, hlimit]
    decide

end Site

end CacheNode

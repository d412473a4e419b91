import CacheNode.Partition.Operation
import CacheNode.Proofs.Attempts

/-!
# CacheNode — expired entries that are still there

An entry that has expired stays in its partition until somebody meets it: a read, a write or the
scanner. Nobody can tell when that was. What is asked of two copies of a partition that differ in
expired entries only has the same answer from both, unless a write is refused for lack of room,
which expired entries still take; and their live entries stay the same.

* `Partition.living` — the entries that have not expired at an instant;
* `Partition.Indistinct` — the same settings and the same live entries;
* `Partition.Operation.isRequest` — what is asked of entries;
* `Site.concur_perform` — one request to both copies.
-/

namespace CacheNode

namespace Table

variable {β : Type}

/-- The rows whose values are kept. -/
def filter (t : Table β) (keep : β → Bool) : Table β :=
  ⟨t.rows.filter fun row => keep row.2, t.ascending.filter _⟩

theorem get?_filter_eq_some {t : Table β} {keep : β → Bool} {k : Bytes} {v : β} :
    (t.filter keep).get? k = some v ↔ t.get? k = some v ∧ keep v = true := by
  rw [← mem_rows_iff, ← mem_rows_iff, filter, List.mem_filter]

theorem get?_filter (t : Table β) (keep : β → Bool) (k : Bytes) :
    (t.filter keep).get? k = (t.get? k).filter keep := by
  apply Option.ext
  intro v
  rw [get?_filter_eq_some, Option.filter_eq_some_iff]

end Table

/-- What has expired stays expired. -/
theorem Entry.isExpired_mono {e : Entry} {now later interval : Millis} (hle : now ≤ later)
    (h : e.isExpired ⟨now, interval⟩ = true) : e.isExpired ⟨later, interval⟩ = true := by
  rw [UInt64.le_iff_toNat_le] at hle
  rw [Entry.isExpired_iff] at h ⊢
  simp only at h ⊢
  omega

namespace Partition

/-- The entries that have not expired at an instant. -/
def living (p : Partition) (now : Millis) : Table Entry :=
  p.entries.filter fun e => !e.isExpired (p.expiry now)

/-- Two partitions with the same settings and, at an instant, the same live entries. -/
structure Indistinct (now : Millis) (p q : Partition) : Prop where
  settings : p.settings = q.settings
  living   : p.living now = q.living now

variable {p q u v : Partition} {now later : Millis} {key : Bytes} {e : Entry}

theorem get?_living_eq_some : (p.living now).get? key = some e ↔
    p.entries.get? key = some e ∧ e.isExpired (p.expiry now) = false := by
  rw [living, Table.get?_filter_eq_some, Bool.not_eq_true']

theorem isLive_eq_isSome (p : Partition) (key : Bytes) (now : Millis) :
    p.isLive key (p.expiry now) = ((p.living now).get? key).isSome := by
  rw [Bool.eq_iff_iff, isLive_iff, Option.isSome_iff_exists]
  simp only [get?_living_eq_some]

/-- A live entry that is stored is stored among the live ones. -/
theorem living_of_insert (hsettings : u.settings = p.settings)
    (hentries : u.entries = p.entries.insert key e)
    (hlive : e.isExpired (p.expiry now) = false) :
    u.living now = (p.living now).insert key e := by
  apply Table.ext_get?
  intro k
  rw [living, Site.expiry_eq hsettings, hentries, Table.get?_filter, Table.get?_insert,
    Table.get?_insert, living, Table.get?_filter]
  split
  · simp [Option.filter, hlive]
  · rfl

theorem living_of_erase (hsettings : u.settings = p.settings)
    (hentries : u.entries = p.entries.erase key) :
    u.living now = (p.living now).erase key := by
  apply Table.ext_get?
  intro k
  rw [living, Site.expiry_eq hsettings, hentries, Table.get?_filter, Table.get?_erase,
    Table.get?_erase, living, Table.get?_filter]
  split <;> rfl

/-- Later fewer entries are live, and none that was not live before. -/
theorem living_later (p : Partition) (hle : now ≤ later) :
    p.living later = (p.living now).filter fun e => !e.isExpired (p.expiry later) := by
  apply Table.ext_get?
  intro k
  apply Option.ext
  intro e
  rw [get?_living_eq_some, Table.get?_filter_eq_some, get?_living_eq_some, Bool.not_eq_true']
  constructor
  · rintro ⟨he, hlive⟩
    refine ⟨⟨he, ?_⟩, hlive⟩
    apply Bool.eq_false_iff.2
    intro hexpired
    have hstill := Entry.isExpired_mono hle hexpired
    rw [expiry] at hlive
    rw [hlive] at hstill
    cases hstill
  · rintro ⟨⟨he, -⟩, hlive⟩
    exact ⟨he, hlive⟩

namespace Indistinct

theorem of_same (hsettings : p.settings = q.settings) (hentries : p.entries = q.entries) :
    p.Indistinct now q where
  settings := hsettings
  living   := by rw [Partition.living, Partition.living, hentries, Site.expiry_eq hsettings]

theorem refl (now : Millis) (p : Partition) : p.Indistinct now p := ⟨rfl, rfl⟩

theorem symm (h : p.Indistinct now q) : q.Indistinct now p := ⟨h.settings.symm, h.living.symm⟩

theorem trans (h : p.Indistinct now q) (hnext : q.Indistinct now u) : p.Indistinct now u :=
  ⟨h.settings.trans hnext.settings, h.living.trans hnext.living⟩

theorem expiry (h : p.Indistinct now q) : p.expiry now = q.expiry now :=
  Site.expiry_eq h.settings now

theorem mono (h : p.Indistinct now q) (hle : now ≤ later) : p.Indistinct later q where
  settings := h.settings
  living   := by
    rw [living_later p hle, living_later q hle, h.living, Site.expiry_eq h.settings]

/-- A key is live in neither of them, or it has the same live entry in both. -/
theorem lookup (h : p.Indistinct now q) (key : Bytes) :
    (p.isLive key (p.expiry now) = false ∧ q.isLive key (q.expiry now) = false) ∨
      ∃ e, p.entries.get? key = some e ∧ q.entries.get? key = some e ∧
        e.isExpired (p.expiry now) = false ∧ e.isExpired (q.expiry now) = false := by
  cases hfound : (p.living now).get? key with
  | none =>
    have hfound' : (q.living now).get? key = none := by rw [← h.living, hfound]
    rw [isLive_eq_isSome, isLive_eq_isSome, hfound, hfound']
    exact .inl ⟨rfl, rfl⟩
  | some e =>
    have hfound' : (q.living now).get? key = some e := by rw [← h.living, hfound]
    obtain ⟨hp, hlive⟩ := get?_living_eq_some.1 hfound
    obtain ⟨hq, hlive'⟩ := get?_living_eq_some.1 hfound'
    exact .inr ⟨e, hp, hq, hlive, hlive'⟩

/-- The same live entry is stored in both. -/
theorem insert (h : p.Indistinct now q) (hlive : e.isExpired (p.expiry now) = false)
    (hu : u.settings = p.settings) (hv : v.settings = q.settings)
    (hue : u.entries = p.entries.insert key e) (hve : v.entries = q.entries.insert key e) :
    u.Indistinct now v where
  settings := hu.trans (h.settings.trans hv.symm)
  living   := by
    rw [living_of_insert hu hue hlive, living_of_insert hv hve (h.expiry ▸ hlive), h.living]

/-- The same key is removed from both. -/
theorem erase (h : p.Indistinct now q) (hu : u.settings = p.settings)
    (hv : v.settings = q.settings) (hue : u.entries = p.entries.erase key)
    (hve : v.entries = q.entries.erase key) : u.Indistinct now v where
  settings := hu.trans (h.settings.trans hv.symm)
  living   := by rw [living_of_erase hu hue, living_of_erase hv hve, h.living]

end Indistinct

/-- Removing an entry that has expired cannot be noticed. -/
theorem indistinct_of_expired (hsettings : u.settings = p.settings)
    (hentries : u.entries = p.entries.erase key) (he : p.entries.get? key = some e)
    (hexpired : e.isExpired (p.expiry now) = true) : u.Indistinct now p where
  settings := hsettings
  living   := by
    rw [living_of_erase hsettings hentries]
    apply Table.erase_eq_self
    cases hfound : (p.living now).get? key with
    | none => rfl
    | some f =>
      obtain ⟨hf, hlive⟩ := get?_living_eq_some.1 hfound
      rw [he] at hf
      obtain rfl : e = f := Option.some.inj hf
      rw [hexpired] at hlive
      cases hlive

/-- A key that is not live has no entry, or one that has expired. -/
theorem get?_of_not_live (h : p.isLive key (p.expiry now) = false) :
    p.entries.get? key = none ∨
      ∃ e, p.entries.get? key = some e ∧ e.isExpired (p.expiry now) = true := by
  unfold isLive at h
  split at h
  · next e he => exact .inr ⟨e, he, by simpa using h⟩
  · next hnone => exact .inl hnone

/-- The keys of live entries that match are found among the live entries. -/
theorem matching_eq (p : Partition) (pattern : Glob) (now : Millis) :
    p.matching pattern now =
      ((p.living now).rows.filter fun row => pattern.isMatch row.1).map Prod.fst := by
  simp only [matching, living, Table.filter, List.filter_filter, Bool.and_comm]

end Partition

/-- What is asked of the entries of a partition by keys or patterns. -/
def Partition.Operation.isRequest : Partition.Operation → Bool
  | .get .. | .getMany .. | .touch .. | .ttl .. | .putMany .. | .increment .. => true
  | .delete .. | .deleteMany .. | .scanKeys .. => true
  | _ => false

/-- Whether an operation removes those keys among some that have expired. -/
def Partition.Operation.isExpire : Partition.Operation → Bool
  | .expire .. => true
  | _ => false

/-- The instant of a request, or of a removal of expired keys. -/
def Partition.Operation.instant? : Partition.Operation → Option Millis
  | .get _ now _ _ | .getMany _ now | .touch _ now | .ttl _ now => some now
  | .putMany _ _ now | .increment _ _ now | .delete _ now | .deleteMany _ now => some now
  | .scanKeys _ _ _ now | .expire _ now => some now
  | _ => none

/-- A result that tells of no lack of room. -/
def Roomy {α : Type} (result : Except CacheError α) : Prop :=
  ∀ shortage, result ≠ .error (.insufficientCapacity shortage)

/-- Two runs of an operation with the same answer, which leave partitions that are indistinct. -/
structure Site.Concur {α : Type} (now : Millis) (a b : α × Site) : Prop where
  answer : a.1 = b.1
  part   : a.2.part.Indistinct now b.2.part

namespace Site

variable {s t : Site} {key : Bytes} {now : Millis} {e : Entry}

-- ---------------------------------------------------------------------------
-- What nobody notices
-- ---------------------------------------------------------------------------

theorem indistinct_takeOut (he : s.part.entries.get? key = some e)
    (hexpired : e.isExpired (s.part.expiry now) = true) (cause : Removal) :
    (s.takeOut key e cause).part.Indistinct now s.part :=
  Partition.indistinct_of_expired rfl rfl he hexpired

theorem indistinct_book (s : Site) (change : Account → Account) :
    (s.book change).part.Indistinct now s.part :=
  .of_same rfl rfl

theorem indistinct_expireEach (keys : List Bytes) (s : Site) :
    (expireEach (s.part.expiry now) keys s).2.part.Indistinct now s.part := by
  induction keys generalizing s with
  | nil => exact .refl now s.part
  | cons key rest ih =>
    rw [expireEach]
    split
    · exact ih s
    · next e he =>
      split
      · next hexpired =>
        exact (ih (s.takeOut key e .expired)).trans (indistinct_takeOut he hexpired .expired)
      · exact ih s

theorem indistinct_expire (keys : List Bytes) (now : Millis) (s : Site) :
    (s.expire keys now).2.part.Indistinct now s.part := by
  unfold expire
  split
  · exact .refl now s.part
  · exact indistinct_expireEach keys s

-- ---------------------------------------------------------------------------
-- Reading
-- ---------------------------------------------------------------------------

theorem get_of_not_live (h : s.part.isLive key (s.part.expiry now) = false)
    (touch count : Bool) :
    (s.get key now touch count).1 = none ∧
      (s.get key now touch count).2.part.Indistinct now s.part := by
  have hmiss (s : Site) : (if count then s.book Account.miss else s).part.Indistinct now s.part := by
    split
    · exact indistinct_book s _
    · exact .refl now s.part
  rcases Partition.get?_of_not_live h with hnone | ⟨e, he, hexpired⟩
  · simp only [get, hnone]
    exact ⟨trivial, hmiss s⟩
  · simp only [get, he, hexpired, if_true]
    exact ⟨trivial, (hmiss _).trans (indistinct_expire [key] now s)⟩

theorem indistinct_renew (h : s.part.Indistinct now t.part) (key : Bytes) (e : Entry) :
    (s.renew key e now).part.Indistinct now (t.renew key e now).part := by
  unfold renew
  rw [Partition.metadata_eq h.settings]
  split
  · exact h
  · exact h.insert (Entry.isExpired_touch e now _) rfl rfl rfl rfl

theorem concur_get (h : s.part.Indistinct now t.part) (key : Bytes) (touch count : Bool) :
    Concur now (s.get key now touch count) (t.get key now touch count) := by
  rcases h.lookup key with ⟨hs, ht⟩ | ⟨e, hs, ht, hlive, hlive'⟩
  · obtain ⟨hnone, hsame⟩ := get_of_not_live hs touch count
    obtain ⟨hnone', hsame'⟩ := get_of_not_live ht touch count
    exact ⟨hnone.trans hnone'.symm, hsame.trans (h.trans hsame'.symm)⟩
  · have hrenewed : (if touch then s.renew key e now else s).part.Indistinct now
        (if touch then t.renew key e now else t).part := by
      split
      · exact indistinct_renew h key e
      · exact h
    simp only [get, hs, ht, hlive, hlive', Bool.false_eq_true, if_false]
    refine ⟨rfl, ?_⟩
    dsimp only
    split
    · exact (indistinct_book _ _).trans (hrenewed.trans (indistinct_book _ _).symm)
    · exact hrenewed

/-- A key that is not live adds nothing to what is read, whether it has an entry or not. -/
theorem readEach_of_not_live (h : s.part.isLive key (s.part.expiry now) = false)
    (rest : List Bytes) :
    (readEach now (key :: rest) s).1.1 = (readEach now rest (s.book Account.miss)).1.1 ∧
      (readEach now (key :: rest) s).2 = (readEach now rest (s.book Account.miss)).2 := by
  rcases Partition.get?_of_not_live h with hnone | ⟨e, he, hexpired⟩
  · simp only [readEach, hnone]
    exact ⟨trivial, trivial⟩
  · simp only [readEach, he, hexpired, if_true]
    exact ⟨trivial, trivial⟩

/-- The entries that are read are the same. The keys that were met expired need not be. -/
theorem concur_readEach (h : s.part.Indistinct now t.part) (keys : List Bytes) :
    (readEach now keys s).1.1 = (readEach now keys t).1.1 ∧
      (readEach now keys s).2.part.Indistinct now (readEach now keys t).2.part := by
  induction keys generalizing s t with
  | nil => exact ⟨rfl, h⟩
  | cons key rest ih =>
    rcases h.lookup key with ⟨hs, ht⟩ | ⟨e, hs, ht, hlive, hlive'⟩
    · obtain ⟨hread, hsite⟩ := readEach_of_not_live hs rest
      obtain ⟨hread', hsite'⟩ := readEach_of_not_live ht rest
      rw [hread, hsite, hread', hsite']
      exact ih ((indistinct_book s _).trans (h.trans (indistinct_book t _).symm))
    · have hrenewed := indistinct_renew h key e
      obtain ⟨hrest, hsite⟩ := ih (s := (s.renew key e now).book (·.hit now))
        (t := (t.renew key e now).book (·.hit now))
        ((indistinct_book _ _).trans (hrenewed.trans (indistinct_book _ _).symm))
      simp only [readEach, hs, ht, hlive, hlive', Bool.false_eq_true, if_false]
      exact ⟨congrArg ((key, e.payload) :: ·) hrest, hsite⟩

theorem concur_getMany (h : s.part.Indistinct now t.part) (keys : List Bytes) :
    Concur now (s.getMany keys now) (t.getMany keys now) := by
  have hexpired (met : List Bytes) (s : Site) :
      (if met = [] then s else (s.expire met now).2).part.Indistinct now s.part := by
    split
    · exact .refl now s.part
    · exact indistinct_expire met now s
  obtain ⟨hread, hsite⟩ := concur_readEach h keys
  exact ⟨hread, (hexpired _ _).trans (hsite.trans (hexpired _ _).symm)⟩

theorem touch_of_not_live (h : s.part.isLive key (s.part.expiry now) = false) :
    (s.touch key now).1 = .error .keyDoesNotExist ∧
      (s.touch key now).2.part.Indistinct now s.part := by
  rcases Partition.get?_of_not_live h with hnone | ⟨e, he, hexpired⟩
  · simp only [touch, hnone]
    exact ⟨trivial, .refl now s.part⟩
  · simp only [touch, he, hexpired, if_true]
    exact ⟨trivial, indistinct_expire [key] now s⟩

theorem concur_touch (h : s.part.Indistinct now t.part) (key : Bytes) :
    Concur now (s.touch key now) (t.touch key now) := by
  rcases h.lookup key with ⟨hs, ht⟩ | ⟨e, hs, ht, hlive, hlive'⟩
  · obtain ⟨hmissing, hsame⟩ := touch_of_not_live hs
    obtain ⟨hmissing', hsame'⟩ := touch_of_not_live ht
    exact ⟨hmissing.trans hmissing'.symm, hsame.trans (h.trans hsame'.symm)⟩
  · simp only [touch, hs, ht, hlive, hlive', Bool.false_eq_true, if_false]
    exact ⟨rfl, indistinct_renew h key e⟩

theorem ttl_of_not_live (h : s.part.isLive key (s.part.expiry now) = false) :
    (s.ttl key now).1 = .error .keyDoesNotExist ∧
      (s.ttl key now).2.part.Indistinct now s.part := by
  rcases Partition.get?_of_not_live h with hnone | ⟨e, he, hexpired⟩
  · simp only [ttl, hnone]
    exact ⟨trivial, .refl now s.part⟩
  · simp only [ttl, he, hexpired, if_true]
    exact ⟨trivial, indistinct_expire [key] now s⟩

theorem concur_ttl (h : s.part.Indistinct now t.part) (key : Bytes) :
    Concur now (s.ttl key now) (t.ttl key now) := by
  rcases h.lookup key with ⟨hs, ht⟩ | ⟨e, hs, ht, hlive, hlive'⟩
  · obtain ⟨hmissing, hsame⟩ := ttl_of_not_live hs
    obtain ⟨hmissing', hsame'⟩ := ttl_of_not_live ht
    exact ⟨hmissing.trans hmissing'.symm, hsame.trans (h.trans hsame'.symm)⟩
  · simp only [ttl, hs, ht, hlive, hlive', Bool.false_eq_true, if_false]
    exact ⟨by rw [h.expiry], h⟩

-- ---------------------------------------------------------------------------
-- Deleting
-- ---------------------------------------------------------------------------

/-- A key that is not live does not count as deleted. -/
theorem deleteEach_of_not_live (h : s.part.isLive key (s.part.expiry now) = false)
    (rest : List Bytes) :
    ∃ u : Site, u.part.Indistinct now s.part ∧
      deleteEach (s.part.expiry now) (key :: rest) s = deleteEach (s.part.expiry now) rest u := by
  rcases Partition.get?_of_not_live h with hnone | ⟨e, he, hexpired⟩
  · exact ⟨s, .refl now s.part, by simp only [deleteEach, hnone]⟩
  · exact ⟨s.takeOut key e .expired, indistinct_takeOut he hexpired .expired,
      by simp only [deleteEach, he, hexpired, if_true]⟩

theorem concur_deleteEach (h : s.part.Indistinct now t.part) (keys : List Bytes) :
    Concur now (deleteEach (s.part.expiry now) keys s) (deleteEach (t.part.expiry now) keys t) := by
  induction keys generalizing s t with
  | nil => exact ⟨rfl, h⟩
  | cons key rest ih =>
    rcases h.lookup key with ⟨hs, ht⟩ | ⟨e, hs, ht, hlive, hlive'⟩
    · obtain ⟨u, hu, hrest⟩ := deleteEach_of_not_live hs rest
      obtain ⟨v, hv, hrest'⟩ := deleteEach_of_not_live ht rest
      rw [hrest, hrest', ← hu.expiry, ← hv.expiry]
      exact ih (hu.trans (h.trans hv.symm))
    · have htaken : (s.takeOut key e .deleted).part.Indistinct now
          (t.takeOut key e .deleted).part := h.erase rfl rfl rfl rfl
      have hrest := ih htaken
      simp only [deleteEach, hs, ht, hlive, hlive', Bool.false_eq_true, if_false]
      exact ⟨congrArg (· + 1) hrest.answer, hrest.part⟩

theorem checkKey_eq (h : s.part.settings = t.part.settings) :
    s.part.checkKey = t.part.checkKey := by
  funext key
  rw [Partition.checkKey, Partition.checkKey, Partition.limits_eq h]

theorem checkItem_eq (h : s.part.settings = t.part.settings) :
    s.part.checkItem = t.part.checkItem := by
  funext item
  rw [Partition.checkItem, Partition.checkItem, checkKey_eq h, Partition.checkValue,
    Partition.checkValue, Partition.limits_eq h]

theorem checkInUse_eq (h : s.part.settings = t.part.settings) :
    s.part.checkInUse = t.part.checkInUse := by
  rw [Partition.checkInUse, Partition.checkInUse, Partition.retired_eq h]

theorem concur_deleteMany (h : s.part.Indistinct now t.part) (keys : List Bytes) :
    Concur now (s.deleteMany keys now) (t.deleteMany keys now) := by
  unfold deleteMany
  rw [checkKey_eq h.settings, checkInUse_eq h.settings]
  split
  · exact ⟨rfl, h⟩
  · split
    · exact ⟨rfl, h⟩
    · have hleft := concur_deleteEach h keys
      exact ⟨congrArg Except.ok hleft.answer, hleft.part⟩

theorem concur_delete (h : s.part.Indistinct now t.part) (key : Bytes) :
    Concur now (s.delete key now) (t.delete key now) := by
  have hleft := concur_deleteMany h [key]
  simp only [delete]
  rw [hleft.answer]
  split <;> exact ⟨rfl, hleft.part⟩

-- ---------------------------------------------------------------------------
-- Writing
-- ---------------------------------------------------------------------------

/-- What a write leaves under a key depends on the live entries. -/
theorem fresh_eq (h : s.part.Indistinct now t.part) (item : Bytes × Bytes) :
    fresh now s item = fresh now t item := by
  have habsent {s : Site} (hs : s.part.isLive item.1 (s.part.expiry now) = false) :
      fresh now s item = ⟨item.2, now⟩ := by
    rcases Partition.get?_of_not_live hs with hnone | ⟨e, he, hexpired⟩
    · simp only [fresh, hnone]
    · simp [fresh, he, hexpired]
  rcases h.lookup item.1 with ⟨hs, ht⟩ | ⟨e, hs, ht, hlive, hlive'⟩
  · rw [habsent hs, habsent ht]
  · simp only [fresh, hs, ht, hlive, hlive', Partition.metadata_eq h.settings]

theorem indistinct_foldl_writeOne (h : s.part.Indistinct now t.part)
    (batch : List (Bytes × Bytes)) :
    (batch.foldl (writeOne now) s).part.Indistinct now (batch.foldl (writeOne now) t).part := by
  induction batch generalizing s t with
  | nil => exact h
  | cons item rest ih =>
    apply ih
    refine h.insert (isExpired_fresh now s item) (settings_writeOne now s item)
      (settings_writeOne now t item) (entries_writeOne now s item) ?_
    rw [entries_writeOne, fresh_eq h]

/-- Plans are refused for the same reason, or they have the same batch. The bytes that they count
may differ. -/
theorem plan_cases (h : s.part.Indistinct now t.part) (items : List (Bytes × Bytes))
    (mode : PutMode) :
    (∃ err, s.part.plan items mode now = .error err ∧ t.part.plan items mode now = .error err) ∨
      ∃ plan plan', s.part.plan items mode now = .ok plan ∧
        t.part.plan items mode now = .ok plan' ∧ plan.batch = plan'.batch := by
  have hcondition : (fun item : Bytes × Bytes =>
      s.part.checkCondition mode (s.part.expiry now) item.1) =
        fun item => t.part.checkCondition mode (t.part.expiry now) item.1 := by
    funext item
    have hlive : s.part.isLive item.1 (s.part.expiry now) =
        t.part.isLive item.1 (t.part.expiry now) := by
      rw [Partition.isLive_eq_isSome, Partition.isLive_eq_isSome, h.living]
    cases mode <;> simp only [Partition.checkCondition, hlive]
  simp only [Partition.plan, checkItem_eq h.settings, checkInUse_eq h.settings, hcondition]
  split
  · exact .inl ⟨_, rfl, rfl⟩
  · split
    · exact .inl ⟨_, rfl, rfl⟩
    · split
      · exact .inl ⟨_, rfl, rfl⟩
      · exact .inr ⟨_, _, rfl, rfl, rfl⟩

/-- A planned batch is written, where there is room for it. -/
theorem putMany_of_plan {items : List (Bytes × Bytes)} {mode : PutMode} {plan : WritePlan}
    (hplan : s.part.plan items mode now = .ok plan)
    (hroom : Roomy (s.putMany items mode now).1) :
    ∃ grown : Site, grown.part.Indistinct now s.part ∧
      s.putMany items mode now = (.ok plan.batch.length, commit now plan grown) := by
  cases hgrow : s.grow (UInt64.ofNat (plan.newBytes - plan.oldBytes)) with
  | none =>
    simp only [putMany, orInsufficient, writeMany, hplan, hgrow] at hroom
    exact absurd rfl (hroom _)
  | some grown =>
    refine ⟨grown, .of_same (settings_grow hgrow) (entries_grow hgrow), ?_⟩
    simp only [putMany, orInsufficient, writeMany, hplan, hgrow]
    rfl

theorem concur_putMany (h : s.part.Indistinct now t.part) (items : List (Bytes × Bytes))
    (mode : PutMode) (hroom : Roomy (s.putMany items mode now).1)
    (hroom' : Roomy (t.putMany items mode now).1) :
    Concur now (s.putMany items mode now) (t.putMany items mode now) := by
  rcases plan_cases h items mode with ⟨err, hs, ht⟩ | ⟨plan, plan', hs, ht, hbatch⟩
  · simp only [putMany, orInsufficient, writeMany, hs, ht]
    exact ⟨rfl, h⟩
  · obtain ⟨grown, hgrown, heq⟩ := putMany_of_plan hs hroom
    obtain ⟨grown', hgrown', heq'⟩ := putMany_of_plan ht hroom'
    have hwritten := indistinct_foldl_writeOne (hgrown.trans (h.trans hgrown'.symm)) plan.batch
    rw [heq, heq']
    refine ⟨by rw [hbatch], ?_⟩
    rw [commit, commit, ← hbatch]
    exact (indistinct_book _ _).trans (hwritten.trans (indistinct_book _ _).symm)

/-- A new integer is stored, where there is room for it. -/
theorem createInteger_of_roomy {value : Int64}
    (hroom : Roomy (orInsufficient (s.createInteger key value now)).1) :
    ∃ u : Site, u.part.settings = s.part.settings ∧
      u.part.entries = s.part.entries.insert key ⟨Entry.ofInteger value, now⟩ ∧
      orInsufficient (s.createInteger key value now) = (.ok value, u) := by
  cases hgrow : s.grow (UInt64.ofNat (Entry.weight key (Entry.ofInteger value))) with
  | none =>
    simp only [orInsufficient, createInteger, hgrow] at hroom
    exact absurd rfl (hroom _)
  | some grown =>
    have hsettings := settings_grow hgrow
    have hentries := entries_grow hgrow
    simp only [orInsufficient, createInteger, hgrow]
    refine ⟨_, ?_, ?_, rfl⟩
    · exact hsettings
    · rw [← hentries]
      rfl

theorem concur_createInteger (h : s.part.Indistinct now t.part) (key : Bytes) (value : Int64)
    (hroom : Roomy (orInsufficient (s.createInteger key value now)).1)
    (hroom' : Roomy (orInsufficient (t.createInteger key value now)).1) :
    Concur now (orInsufficient (s.createInteger key value now))
      (orInsufficient (t.createInteger key value now)) := by
  obtain ⟨u, hsettings, hentries, heq⟩ := createInteger_of_roomy hroom
  obtain ⟨v, hsettings', hentries', heq'⟩ := createInteger_of_roomy hroom'
  have hlive : (⟨Entry.ofInteger value, now⟩ : Entry).isExpired (s.part.expiry now) = false :=
    Entry.isExpired_of_le (UInt64.le_refl now)
  rw [heq, heq']
  exact ⟨rfl, h.insert hlive hsettings hsettings' hentries hentries'⟩

/-- Incrementing a key that is not live creates it, after an expired entry has gone. -/
theorem increment_of_not_live (h : s.part.isLive key (s.part.expiry now) = false)
    (hkey : s.part.checkKey key = .ok ()) (huse : s.part.checkInUse = .ok ()) (delta : Int64) :
    ∃ u : Site, u.part.Indistinct now s.part ∧
      s.increment key delta now = u.createInteger key delta now := by
  rcases Partition.get?_of_not_live h with hnone | ⟨e, he, hexpired⟩
  · exact ⟨s, .refl now s.part, by simp only [increment, hkey, huse, hnone]⟩
  · exact ⟨s.takeOut key e .expired, indistinct_takeOut he hexpired .expired,
      by simp only [increment, hkey, huse, he, hexpired, if_true]⟩

theorem concur_tryIncrement (h : s.part.Indistinct now t.part) (key : Bytes) (delta : Int64)
    (hroom : Roomy (s.tryIncrement key delta now).1)
    (hroom' : Roomy (t.tryIncrement key delta now).1) :
    Concur now (s.tryIncrement key delta now) (t.tryIncrement key delta now) := by
  have hcheck : s.part.checkKey key = t.part.checkKey key := by rw [checkKey_eq h.settings]
  have hinUse := checkInUse_eq h.settings
  unfold tryIncrement at hroom hroom' ⊢
  cases hkey : t.part.checkKey key with
  | error err =>
    simp only [increment, hcheck, hkey, orInsufficient]
    exact ⟨rfl, h⟩
  | ok _ =>
    cases huse : t.part.checkInUse with
    | error err =>
      simp only [increment, hcheck, hkey, hinUse, huse, orInsufficient]
      exact ⟨rfl, h⟩
    | ok _ =>
      rcases h.lookup key with ⟨hs, ht⟩ | ⟨e, hs, ht, hlive, hlive'⟩
      · obtain ⟨u, hu, heq⟩ := increment_of_not_live hs (hcheck.trans hkey) (hinUse.trans huse) delta
        obtain ⟨v, hv, heq'⟩ := increment_of_not_live ht hkey huse delta
        rw [heq] at hroom ⊢
        rw [heq'] at hroom' ⊢
        exact concur_createInteger (hu.trans (h.trans hv.symm)) key delta hroom hroom'
      · cases hadd : e.increment delta with
        | error err =>
          simp only [increment, hcheck, hkey, hinUse, huse, hs, ht, hlive, hlive', hadd,
            Bool.false_eq_true, if_false, orInsufficient]
          exact ⟨rfl, h⟩
        | ok sum =>
          obtain ⟨value, added⟩ := sum
          have hkept := lastAccess_of_increment hadd
          have hfresh : (if t.part.metadata.isAbsolute then added else added.touch now).isExpired
              (s.part.expiry now) = false := by
            split
            · rw [Entry.isExpired, hkept]
              exact hlive
            · exact Entry.isExpired_touch added now _
          simp only [increment, hcheck, hkey, hinUse, huse, hs, ht, hlive, hlive', hadd,
            Bool.false_eq_true, if_false, orInsufficient, Partition.metadata_eq h.settings]
          exact ⟨rfl, h.insert hfresh rfl rfl rfl rfl⟩

-- ---------------------------------------------------------------------------
-- All requests
-- ---------------------------------------------------------------------------

theorem Roomy.of_map {α : Type} {shape : α → Outcome} {result : Except CacheError α}
    (h : Roomy (result.map shape)) : Roomy result := by
  rintro shortage rfl
  exact h shortage rfl

/-- A request has the same answer on both partitions and leaves them indistinct. -/
theorem concur_perform {act : Partition.Operation} (hact : act.isRequest = true)
    (hnow : act.instant? = some now) (h : s.part.Indistinct now t.part)
    (hroom : Roomy (s.perform act).1) (hroom' : Roomy (t.perform act).1) :
    Concur now (s.perform act) (t.perform act) := by
  have hyields {α : Type} {a b : α × Site} (shape : α → Outcome) (hab : Concur now a b) :
      Concur now (yields shape a) (yields shape b) :=
    ⟨congrArg (fun a => Except.ok (shape a)) hab.answer, hab.part⟩
  have hanswer {α : Type} {a b : Except CacheError α × Site} (shape : α → Outcome)
      (hab : Concur now a b) : Concur now (answer shape a) (answer shape b) :=
    ⟨congrArg (Except.map shape) hab.answer, hab.part⟩
  cases act with
  | get key clock touch count => cases hnow; exact hyields _ (concur_get h key touch count)
  | getMany keys clock => cases hnow; exact hyields _ (concur_getMany h keys)
  | touch key clock => cases hnow; exact hanswer _ (concur_touch h key)
  | ttl key clock => cases hnow; exact hanswer _ (concur_ttl h key)
  | putMany items mode clock =>
    cases hnow
    exact hanswer _ (concur_putMany h items mode (Roomy.of_map hroom) (Roomy.of_map hroom'))
  | increment key delta clock =>
    cases hnow
    exact hanswer _ (concur_tryIncrement h key delta (Roomy.of_map hroom) (Roomy.of_map hroom'))
  | delete key clock => cases hnow; exact hanswer _ (concur_delete h key)
  | deleteMany keys clock => cases hnow; exact hanswer _ (concur_deleteMany h keys)
  | scanKeys pattern count offset clock =>
    cases hnow
    have hpage : s.part.scanKeys pattern count offset now =
        t.part.scanKeys pattern count offset now := by
      simp only [Partition.scanKeys, Partition.matching_eq, h.living]
    exact ⟨congrArg (fun page => Except.ok (Outcome.page page)) hpage, h⟩
  | _ => cases hact

end Site

end CacheNode

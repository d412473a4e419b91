import CacheNode.Proofs.Batches
import CacheNode.Proofs.Compacting
import CacheNode.Proofs.Courses
import CacheNode.Proofs.Noninterference
import CacheNode.Proofs.Scanning

/-!
# CacheNode — deadlines

The last instant at which an entry is live is its deadline: its last access and the interval of its
partition. The time that is left to a key leads up to the deadline, or to the end of time if the
deadline lies behind it. So it tells until when the key will be found.

Where expiry is fixed at creation a deadline does not move. Reads leave access times alone there,
and whoever overwrites or increments a live entry leaves its access time to the entry that takes its
place. Only a key that is not live gets a new one.

* `Entry.deadline`, `Entry.timeLeft_of_live` — the deadline, and the time up to it;
* `Site.ttl_predicts_get` — the time that is left tells how long a key is found;
* `Site.lastAccess_perform` — what an operation does to the access time under a key;
* `Site.Endures`, `Site.deadline_fixed` — while a key endures its deadline is the same.
-/

namespace CacheNode

namespace Entry

variable {e : Entry} {now interval : Millis}

/-- The last instant at which an entry is live, where there is an interval. -/
def deadline (e : Entry) (interval : Millis) : Nat := e.lastAccess.toNat + interval.toNat

theorem isExpired_eq_false_iff (h : interval ≠ 0) :
    e.isExpired ⟨now, interval⟩ = false ↔ now.toNat ≤ e.deadline interval := by
  have hpos : 0 < interval.toNat := UInt64.lt_iff_toNat_lt.1 (UInt64.pos_iff_ne_zero.2 h)
  rw [← Bool.not_eq_true, isExpired_iff, deadline]
  dsimp only
  omega

/-- The time that is left leads up to the deadline, but not beyond the largest instant. -/
theorem timeLeft_of_live (h : interval ≠ 0) (hlive : e.isExpired ⟨now, interval⟩ = false) :
    ∃ left, e.timeLeft ⟨now, interval⟩ = some left ∧
      now.toNat + left.toNat = min (e.deadline interval) (UInt64.size - 1) := by
  have hlast : UInt64.size - 1 = 18446744073709551615 := rfl
  have hdue := (isExpired_eq_false_iff h).1 hlive
  have hnow : now.toNat < UInt64.size := now.toNat_lt
  refine ⟨_, if_neg h, ?_⟩
  rw [toNat_satSub, toNat_satAdd, hlast]
  unfold deadline at hdue ⊢
  dsimp only
  omega

end Entry

/-- Whether an operation writes under a key. -/
def Partition.Operation.writes (key : Bytes) : Partition.Operation → Bool
  | .putMany items .. => key ∈ items.map Prod.fst
  | .increment target .. => target = key
  | _ => false

/-- Whether an operation names a key. -/
def Partition.Operation.names (key : Bytes) : Partition.Operation → Bool
  | .get target .. | .touch target _ | .ttl target _ | .delete target _ => target = key
  | .getMany keys _ | .deleteMany keys _ | .expire keys _ => key ∈ keys
  | act => act.writes key

theorem Partition.Operation.names_of_writes {act : Partition.Operation} {key : Bytes}
    (h : act.writes key = true) : act.names key = true := by
  cases act with
  | putMany items mode now => exact h
  | increment target delta now => exact h
  | _ => cases h

namespace Site

variable {s t u : Site} {key : Bytes} {now start : Millis} {e : Entry}
  {act : Partition.Operation} {acts more : List Partition.Operation}

-- ---------------------------------------------------------------------------
-- The time that is left
-- ---------------------------------------------------------------------------

theorem ttl_of_live (he : s.part.entries.get? key = some e)
    (hlive : e.isExpired (s.part.expiry now) = false) :
    s.ttl key now = (.ok (e.timeLeft (s.part.expiry now)), s) := by
  simp only [ttl, he, hlive]
  rfl

/-- The time that is left to a key is told exactly if the key is found, and it tells until when the
same state has the key found: up to the instant that it leads to, and no longer. This holds whenever
the entry was last accessed, even at an instant still to come, and also where its deadline lies
behind the largest instant. -/
theorem ttl_predicts_get (hinterval : s.part.metadata.interval ≠ 0) (key : Bytes) (now : Millis) :
    (∀ touch count, (s.ttl key now).1 = .error .keyDoesNotExist ↔
      (s.get key now touch count).1 = none) ∧
    ((s.ttl key now).1 ≠ .error .keyDoesNotExist → ∃ left, (s.ttl key now).1 = .ok (some left)) ∧
    ∀ left, (s.ttl key now).1 = .ok (some left) →
      (s.ttl key now).2 = s ∧
      ∃ e, s.part.entries.get? key = some e ∧ ∀ later touch count,
        (s.get key later touch count).1 =
          if later.toNat ≤ now.toNat + left.toNat then some e.payload else none := by
  cases hlive : s.part.isLive key (s.part.expiry now) with
  | false =>
    have hmissing := (ttl_of_not_live hlive).1
    rw [hmissing]
    refine ⟨fun touch count => ?_, fun h => absurd rfl h, nofun⟩
    exact ⟨fun _ => (get_of_not_live hlive touch count).1, fun _ => rfl⟩
  | true =>
    obtain ⟨e, he, hfound⟩ := Partition.isLive_iff.1 hlive
    obtain ⟨time, htime, hend⟩ := Entry.timeLeft_of_live hinterval hfound
    have httl : s.ttl key now = (.ok (some time), s) := by
      rw [ttl_of_live he hfound]
      exact congrArg (fun left => (Except.ok left, s)) htime
    rw [httl]
    refine ⟨fun touch count => ?_, fun _ => ⟨time, rfl⟩, fun left hleft => ⟨rfl, e, he, ?_⟩⟩
    · rw [get_of_live he hfound]
      exact ⟨nofun, nofun⟩
    · obtain rfl : time = left := Option.some.inj (Except.ok.inj hleft)
      intro later touch count
      have hlater : later.toNat < UInt64.size := later.toNat_lt
      -- an instant lies up to the deadline exactly if it lies up to where the time leads
      have hdue : later.toNat ≤ now.toNat + time.toNat ↔
          later.toNat ≤ e.deadline s.part.metadata.interval := by
        rw [hend]
        omega
      simp only [hdue]
      split
      · next hbefore =>
        exact get_of_live he ((Entry.isExpired_eq_false_iff hinterval).2 hbefore) _ _
      · next hafter =>
        apply (get_of_not_live _ _ _).1
        rw [Bool.eq_false_iff, ne_eq, Partition.isLive_iff]
        rintro ⟨f, hf, hstill⟩
        rw [he] at hf
        obtain rfl := Option.some.inj hf
        exact hafter ((Entry.isExpired_eq_false_iff hinterval).1 hstill)

/-- An entry that will be accessed in fifty milliseconds, and one whose deadline lies behind the
largest instant. -/
def ahead : Site :=
  aged [.putMany [([97], [1])] .upsert 100, .putMany [([98], [2])] .upsert 18446744073709551610]

/-- The first of them is found up to its deadline, the second one to the end of time. -/
theorem ttl_predicts_get_ahead :
    ahead.part.metadata.interval ≠ 0 ∧
      (ahead.ttl [97] 50).1 = .ok (some 60) ∧
      (∀ later touch count, (ahead.get [97] later touch count).1 =
        if later.toNat ≤ 110 then some [1] else none) ∧
      (ahead.ttl [98] 18446744073709551613).1 = .ok (some 2) ∧
      (∀ later touch count, (ahead.get [98] later touch count).1 = some [2]) ∧
      (ahead.ttl [97] 111).1 = .error .keyDoesNotExist ∧
      ∀ touch count, (ahead.get [97] 111 touch count).1 = none := by
  have hinterval : ahead.part.metadata.interval ≠ 0 := by
    have hten : ahead.part.metadata.interval = 10 := by cbv
    rw [hten]
    decide
  have hfirst : ahead.part.entries.get? [97] = some ⟨[1], 100⟩ := by cbv
  have hsecond : ahead.part.entries.get? [98] = some ⟨[2], 18446744073709551610⟩ := by cbv
  have hleft : (ahead.ttl [97] 50).1 = .ok (some 60) := by cbv
  have hlast : (ahead.ttl [98] 18446744073709551613).1 = .ok (some 2) := by cbv
  have hgone : (ahead.ttl [97] 111).1 = .error .keyDoesNotExist := by cbv
  refine ⟨hinterval, hleft, fun later touch count => ?_, hlast, fun later touch count => ?_, hgone,
    fun touch count => ((ttl_predicts_get hinterval [97] 111).1 touch count).1 hgone⟩
  · obtain ⟨-, e, he, hfound⟩ := (ttl_predicts_get hinterval [97] 50).2.2 60 hleft
    obtain rfl : e = ⟨[1], 100⟩ := Option.some.inj (he.symm.trans hfirst)
    exact hfound later touch count
  · obtain ⟨-, e, he, hfound⟩ :=
      (ttl_predicts_get hinterval [98] 18446744073709551613).2.2 2 hlast
    obtain rfl : e = ⟨[2], 18446744073709551610⟩ := Option.some.inj (he.symm.trans hsecond)
    exact (hfound later touch count).trans (if_pos (Nat.le_of_lt_succ later.toNat_lt))

-- ---------------------------------------------------------------------------
-- What reads and removals do to access times
-- ---------------------------------------------------------------------------

/-- From one state of a partition to a later one entries are lost at most. -/
def Dwindles (s t : Site) : Prop :=
  ∀ key e, t.part.entries.get? key = some e → s.part.entries.get? key = some e

namespace Dwindles

theorem of_eq (h : t.part.entries = s.part.entries) : s.Dwindles t := by
  intro key e he
  rwa [h] at he

theorem trans (h : s.Dwindles t) (hlater : t.Dwindles u) : s.Dwindles u :=
  fun key e he => h key e (hlater key e he)

end Dwindles

theorem dwindles_takeOut (s : Site) (key : Bytes) (e : Entry) (cause : Removal) :
    s.Dwindles (s.takeOut key e cause) :=
  fun _ _ he => Table.get?_of_erase he

theorem dwindles_expire (s : Site) (keys : List Bytes) (now : Millis) :
    s.Dwindles (s.expire keys now).2 :=
  fun _ _ he => (lapses_expire s keys now).part.get?_of_some he

theorem renew_of_isAbsolute (habsolute : s.part.metadata.isAbsolute = true) (key : Bytes)
    (e : Entry) (now : Millis) : s.renew key e now = s := by
  rw [renew, if_pos habsolute]

theorem dwindles_get (habsolute : s.part.metadata.isAbsolute = true) (key : Bytes) (now : Millis)
    (touch count : Bool) : s.Dwindles (s.get key now touch count).2 := by
  have hmiss (t : Site) : t.Dwindles (if count then t.book Account.miss else t) := by
    split <;> exact .of_eq rfl
  cases hget : s.part.entries.get? key with
  | none =>
    simp only [get, hget]
    exact hmiss s
  | some e =>
    cases hexpired : e.isExpired (s.part.expiry now) with
    | true =>
      simp only [get, hget, hexpired, if_true]
      exact (dwindles_expire s [key] now).trans (hmiss _)
    | false =>
      simp only [get, hget, hexpired, Bool.false_eq_true, if_false, renew_of_isAbsolute habsolute,
        ite_self]
      split <;> exact .of_eq rfl

theorem dwindles_readEach (habsolute : s.part.metadata.isAbsolute = true) (now : Millis)
    (keys : List Bytes) : s.Dwindles (readEach now keys s).2 := by
  induction keys generalizing s with
  | nil => exact .of_eq rfl
  | cons key rest ih =>
    have hrest (change : Account → Account) : s.Dwindles (readEach now rest (s.book change)).2 :=
      Dwindles.trans (.of_eq rfl) (ih (s := s.book change) habsolute)
    rw [readEach]
    split
    · exact hrest _
    · split
      · exact hrest _
      · rw [renew_of_isAbsolute habsolute]
        exact hrest _

theorem dwindles_getMany (habsolute : s.part.metadata.isAbsolute = true) (keys : List Bytes)
    (now : Millis) : s.Dwindles (s.getMany keys now).2 := by
  have hread := dwindles_readEach habsolute now keys
  simp only [getMany]
  split
  · exact hread
  · exact hread.trans (dwindles_expire _ _ now)

theorem dwindles_touch (habsolute : s.part.metadata.isAbsolute = true) (key : Bytes)
    (now : Millis) : s.Dwindles (s.touch key now).2 := by
  unfold touch
  split
  · exact .of_eq rfl
  · split
    · exact dwindles_expire s [key] now
    · rw [renew_of_isAbsolute habsolute]
      exact .of_eq rfl

theorem dwindles_ttl (s : Site) (key : Bytes) (now : Millis) : s.Dwindles (s.ttl key now).2 := by
  unfold ttl
  split
  · exact .of_eq rfl
  · split
    · exact dwindles_expire s [key] now
    · exact .of_eq rfl

theorem dwindles_deleteEach (x : Expiry) (keys : List Bytes) (s : Site) :
    s.Dwindles (deleteEach x keys s).2 := by
  induction keys generalizing s with
  | nil => exact .of_eq rfl
  | cons key rest ih =>
    rw [deleteEach]
    split
    · exact ih s
    · split <;> exact (dwindles_takeOut s key _ _).trans (ih _)

theorem dwindles_deleteMany (s : Site) (keys : List Bytes) (now : Millis) :
    s.Dwindles (s.deleteMany keys now).2 := by
  unfold deleteMany
  split
  · exact .of_eq rfl
  · split
    · exact .of_eq rfl
    · exact dwindles_deleteEach _ keys s

theorem dwindles_delete (s : Site) (key : Bytes) (now : Millis) :
    s.Dwindles (s.delete key now).2 := by
  have hleft := dwindles_deleteMany s [key] now
  simp only [delete]
  split <;> exact hleft

theorem dwindles_compact (s : Site) (now : Millis) (cancel : Fuse) :
    s.Dwindles (s.compact now cancel).2 := by
  obtain ⟨gone, -, hsheds⟩ := compactRounds_sheds now cancel s
  intro key e he
  have hleft : (compactRounds now cancel s).site.part.entries.get? key = some e := he
  rw [hsheds.left] at hleft
  have hshed := get?_shed (s.part.expiry now) gone s key
  rw [hleft] at hshed
  split at hshed
  · cases hshed
  · exact hshed.symm

theorem dwindles_flush (s : Site) : s.Dwindles s.flush.2 := by
  intro key e he
  rw [entries_flush] at he
  cases he

-- ---------------------------------------------------------------------------
-- What writes do to access times
-- ---------------------------------------------------------------------------

/-- Where expiry is fixed at creation an item takes over the access time of a live entry. Otherwise
it gets one of its own. -/
theorem lastAccess_fresh (habsolute : s.part.metadata.isAbsolute = true)
    (item : Bytes × Bytes) :
    (∃ old, s.part.entries.get? item.1 = some old ∧
        old.lastAccess = (fresh now s item).lastAccess) ∨
      (s.part.isLive item.1 (s.part.expiry now) = false ∧ (fresh now s item).lastAccess = now) := by
  cases hget : s.part.entries.get? item.1 with
  | none => exact .inr ⟨by simp [Partition.isLive, hget], by simp [fresh, hget]⟩
  | some old =>
    cases hexpired : old.isExpired (s.part.expiry now) with
    | false => exact .inl ⟨old, rfl, by simp [fresh, hget, hexpired, habsolute]⟩
    | true =>
      exact .inr ⟨by simp [Partition.isLive, hget, hexpired], by simp [fresh, hget, hexpired]⟩

theorem lastAccess_fresh_of_not_live {item : Bytes × Bytes}
    (h : s.part.isLive item.1 (s.part.expiry now) = false) :
    (fresh now s item).lastAccess = now := by
  rcases Partition.get?_of_not_live h with hnone | ⟨old, hold, hexpired⟩
  · simp [fresh, hnone]
  · simp [fresh, hold, hexpired]

/-- Under each key of a batch that was written stands what one of its items left there. -/
theorem get?_of_done {items : List (Bytes × Bytes)} {mode : PutMode} {count : Nat}
    (hdone : (s.writeMany items mode now).1 = .ok (.done count))
    (hkey : key ∈ items.map Prod.fst) :
    ∃ item : Bytes × Bytes, item.1 = key ∧
      (s.writeMany items mode now).2.part.entries.get? key = some (fresh now s item) := by
  obtain ⟨plan, grown, hplan, hgrown, -, hcommit⟩ := writeMany_eq_done hdone
  obtain ⟨first, hfirst, rfl⟩ := List.mem_map.1 hkey
  obtain ⟨item, hitem, hsame⟩ := Node.exists_mem_lastOccurrences hfirst
  rw [hcommit, ← hsame]
  exact ⟨item, rfl, get?_commit hplan hgrown hitem⟩

/-- After a batch write an access time under a key is that of the entry before, or the key was not
live and got the instant of the write. -/
theorem lastAccess_putMany (habsolute : s.part.metadata.isAbsolute = true)
    {items : List (Bytes × Bytes)} {mode : PutMode}
    (he : (s.putMany items mode now).2.part.entries.get? key = some e) :
    (∃ old, s.part.entries.get? key = some old ∧ old.lastAccess = e.lastAccess) ∨
      (key ∈ items.map Prod.fst ∧ s.part.isLive key (s.part.expiry now) = false ∧
        e.lastAccess = now) := by
  rw [putMany, site_orInsufficient] at he
  by_cases hkey : key ∈ items.map Prod.fst
  · cases hresult : (s.writeMany items mode now).1 with
    | error err =>
      rw [(writeMany_of_error hresult).2] at he
      exact .inl ⟨e, he, rfl⟩
    | ok admission =>
      cases admission with
      | needsRoom bytes =>
        rw [Node.writeMany_of_needsRoom hresult] at he
        exact .inl ⟨e, he, rfl⟩
      | done count =>
        obtain ⟨item, rfl, hfresh⟩ := get?_of_done hresult hkey
        obtain rfl : fresh now s item = e := Option.some.inj (hfresh.symm.trans he)
        exact (lastAccess_fresh habsolute item).imp_right fun hnew => ⟨hkey, hnew⟩
  · rw [(attempt_writeMany items mode now).others s key hkey] at he
    exact .inl ⟨e, he, rfl⟩

/-- A new integer is accessed when it is created. -/
theorem get?_createInteger_cases {value : Int64}
    (he : (s.createInteger key value now).2.part.entries.get? key = some e) :
    s.part.entries.get? key = some e ∨ e = ⟨Entry.ofInteger value, now⟩ := by
  simp only [createInteger] at he
  split at he
  · exact .inl he
  · exact .inr (Option.some.inj (he.symm.trans (Table.get?_insert_self _ _ _)))

/-- After an increment an access time under a key is that of the entry before, or the key was not
live and got the instant of the increment. -/
theorem lastAccess_increment (habsolute : s.part.metadata.isAbsolute = true) {delta : Int64}
    (he : (s.increment key delta now).2.part.entries.get? key = some e) :
    (∃ old, s.part.entries.get? key = some old ∧ old.lastAccess = e.lastAccess) ∨
      (s.part.isLive key (s.part.expiry now) = false ∧ e.lastAccess = now) := by
  rcases increment_cases s key delta now with
    ⟨err, -, heq⟩ | ⟨hnone, heq⟩ | ⟨old, hold, hexpired, heq⟩ |
      ⟨old, value, fresh, hold, hfresh, heq⟩
  · rw [heq] at he
    exact .inl ⟨e, he, rfl⟩
  · rw [heq] at he
    rcases get?_createInteger_cases he with hkept | rfl
    · exact .inl ⟨e, hkept, rfl⟩
    · exact .inr ⟨by simp [Partition.isLive, hnone], rfl⟩
  · -- the stale entry is gone before the new one is created
    rw [heq] at he
    rcases get?_createInteger_cases he with hkept | rfl
    · exact .inl ⟨e, Table.get?_of_erase hkept, rfl⟩
    · exact .inr ⟨by simp [Partition.isLive, hold, hexpired], rfl⟩
  · rw [heq] at he
    obtain rfl : fresh = e := Option.some.inj ((Table.get?_insert_self _ _ _).symm.trans he)
    exact .inl ⟨old, hold, (hfresh.fixed habsolute).symm⟩

/-- An increment of a key that is not live creates it at this instant, if it succeeds. -/
theorem lastAccess_of_incremented {delta value : Int64}
    (hnot : s.part.isLive key (s.part.expiry now) = false)
    (hdone : (s.increment key delta now).1 = .ok (.done value)) :
    ∃ e, (s.increment key delta now).2.part.entries.get? key = some e ∧ e.lastAccess = now := by
  have hcreated (t : Site) (ht : (t.createInteger key delta now).1 = .ok (.done value)) :
      ∃ e, (t.createInteger key delta now).2.part.entries.get? key = some e ∧
        e.lastAccess = now := by
    simp only [createInteger] at ht ⊢
    split at ht
    · cases ht
    · exact ⟨_, Table.get?_insert_self _ _ _, rfl⟩
  rcases increment_cases s key delta now with
    ⟨err, -, heq⟩ | ⟨-, heq⟩ | ⟨old, -, -, heq⟩ | ⟨old, _, fresh, hold, hfresh, heq⟩
  · rw [heq] at hdone
    cases hdone
  · rw [heq] at hdone ⊢
    exact hcreated s hdone
  · rw [heq] at hdone ⊢
    exact hcreated _ hdone
  · have hlive := Partition.isLive_iff.2 ⟨old, hold, hfresh.before⟩
    rw [hnot] at hlive
    cases hlive

-- ---------------------------------------------------------------------------
-- What an operation does to access times
-- ---------------------------------------------------------------------------

/-- Where expiry is fixed at creation, an access time that is found after an operation is that of
the entry before, or the operation wrote at this instant under a key that was not live. -/
theorem lastAccess_perform (habsolute : s.part.metadata.isAbsolute = true)
    (act : Partition.Operation) (he : (s.perform act).2.part.entries.get? key = some e) :
    (∃ old, s.part.entries.get? key = some old ∧ old.lastAccess = e.lastAccess) ∨
      (act.writes key = true ∧ act.instant? = some e.lastAccess ∧
        s.part.isLive key (s.part.expiry e.lastAccess) = false) := by
  have hkept (h : s.Dwindles (s.perform act).2) :
      ∃ old, s.part.entries.get? key = some old ∧ old.lastAccess = e.lastAccess :=
    ⟨e, h key e he, rfl⟩
  cases act with
  | get key now touch count => exact .inl (hkept (dwindles_get habsolute key now touch count))
  | getMany keys now => exact .inl (hkept (dwindles_getMany habsolute keys now))
  | touch key now => exact .inl (hkept (dwindles_touch habsolute key now))
  | ttl key now => exact .inl (hkept (dwindles_ttl s key now))
  | putMany items mode now =>
    rcases lastAccess_putMany habsolute he with hold | ⟨hkey, hnot, rfl⟩
    · exact .inl hold
    · exact .inr ⟨decide_eq_true hkey, rfl, hnot⟩
  | increment target delta now =>
    have hafter : (s.increment target delta now).2.part.entries.get? key = some e := by
      rw [← site_orInsufficient]
      exact he
    by_cases hkey : key = target
    · subst hkey
      rcases lastAccess_increment habsolute hafter with hold | ⟨hnot, rfl⟩
      · exact .inl hold
      · exact .inr ⟨decide_eq_true rfl, rfl, hnot⟩
    · rw [(attempt_increment target delta now).others s key (by simpa using hkey)] at hafter
      exact .inl ⟨e, hafter, rfl⟩
  | delete key now => exact .inl (hkept (dwindles_delete s key now))
  | deleteMany keys now => exact .inl (hkept (dwindles_deleteMany s keys now))
  | expire keys now => exact .inl (hkept (dwindles_expire s keys now))
  | evict count now goal => exact .inl (hkept fun _ _ => Node.get?_evict)
  | compact now cancel => exact .inl (hkept (dwindles_compact s now cancel))
  | flush => exact .inl (hkept (dwindles_flush s))
  | sampleExpired samples now =>
    exact .inl (hkept (.of_eq (congrArg Partition.entries (part_sampleExpired s samples now))))
  | addWatch owner watchId key filter =>
    refine .inl (hkept (.of_eq ?_))
    simp only [perform, answer, addWatch]
    split <;> rfl
  | _ => exact .inl (hkept (.of_eq rfl))

theorem done_of_answer {α : Type} {shape : α → Outcome}
    {step : Except CacheError (Admission α) × Site} {outcome : Outcome}
    (h : (answer shape (orInsufficient step)).1 = .ok outcome) : ∃ a, step.1 = .ok (.done a) := by
  unfold answer orInsufficient at h
  split at h
  · cases h
  · next a hdone => exact ⟨a, hdone⟩
  · cases h

/-- A write that succeeds under a key that is not live gives it an access time of its own. -/
theorem lastAccess_of_written (hwrites : act.writes key = true) (hstart : act.instant? = some start)
    (hnot : s.part.isLive key (s.part.expiry start) = false) {outcome : Outcome}
    (hdone : (s.perform act).1 = .ok outcome) :
    ∃ e, (s.perform act).2.part.entries.get? key = some e ∧ e.lastAccess = start := by
  cases act with
  | putMany items mode now =>
    obtain rfl : now = start := Option.some.inj hstart
    obtain ⟨count, hcount⟩ := done_of_answer hdone
    obtain ⟨item, rfl, hfresh⟩ := get?_of_done hcount (of_decide_eq_true hwrites)
    refine ⟨fresh now s item, ?_, lastAccess_fresh_of_not_live hnot⟩
    rw [← hfresh]
    exact congrArg (fun t : Site => t.part.entries.get? item.1)
      (site_orInsufficient (s.writeMany items mode now))
  | increment target delta now =>
    obtain rfl : now = start := Option.some.inj hstart
    obtain rfl : target = key := of_decide_eq_true hwrites
    obtain ⟨value, hvalue⟩ := done_of_answer hdone
    obtain ⟨e, he, hstamp⟩ := lastAccess_of_incremented hnot hvalue
    refine ⟨e, ?_, hstamp⟩
    rw [← he]
    exact congrArg (fun t : Site => t.part.entries.get? target)
      (site_orInsufficient (s.increment target delta now))
  | _ => cases hwrites

theorem metadata_perform (act : Partition.Operation) (s : Site) :
    (s.perform act).2.part.metadata = s.part.metadata := by
  cases hact : act.isWatch with
  | false =>
    obtain ⟨_, hsteps⟩ := steps_perform act hact s
    exact Partition.metadata_eq hsteps.settings
  | true =>
    cases act with
    | addWatch owner watchId key filter =>
      simp only [perform, answer, addWatch]
      split <;> rfl
    | removeWatch ownerId watchId => rfl
    | removeWatchesOf ownerId => rfl
    | pruneWatches => rfl
    | _ => cases hact

-- ---------------------------------------------------------------------------
-- Keys that endure
-- ---------------------------------------------------------------------------

/-- A key is there throughout a sequence of operations, and it is live whenever one of them names
it. -/
def Endures (key : Bytes) : List Partition.Operation → Site → Prop
  | [], s => (s.part.entries.get? key).isSome
  | act :: rest, s =>
    (s.part.entries.get? key).isSome ∧
      (act.names key = true →
        act.instant?.all (fun now => s.part.isLive key (s.part.expiry now)) = true) ∧
      Endures key rest (s.perform act).2

instance decidableEndures (key : Bytes) :
    (acts : List Partition.Operation) → (s : Site) → Decidable (Endures key acts s)
  | [], s => inferInstanceAs (Decidable ((s.part.entries.get? key).isSome = true))
  | act :: rest, s =>
    have : Decidable (Endures key rest (s.perform act).2) := decidableEndures key rest _
    inferInstanceAs (Decidable ((s.part.entries.get? key).isSome = true ∧ (_ → _) ∧ _))

theorem Endures.there (h : Endures key acts s) : ∃ e, s.part.entries.get? key = some e := by
  cases acts with
  | nil => exact Option.isSome_iff_exists.1 h
  | cons act rest => exact Option.isSome_iff_exists.1 h.1

theorem Endures.of_append (h : Endures key (acts ++ more) s) : Endures key acts s := by
  induction acts generalizing s with
  | nil => exact Option.isSome_iff_exists.2 h.there
  | cons act rest ih => exact ⟨h.1, h.2.1, ih h.2.2⟩

/-- The first operation of a sequence in which a key endures leaves its access time alone. -/
theorem Endures.step (habsolute : s.part.metadata.isAbsolute = true)
    (h : Endures key (act :: acts) s) (he : s.part.entries.get? key = some e) :
    ∃ f, (s.perform act).2.part.entries.get? key = some f ∧ f.lastAccess = e.lastAccess := by
  obtain ⟨-, hlive, hrest⟩ := h
  obtain ⟨f, hf⟩ := hrest.there
  refine ⟨f, hf, ?_⟩
  rcases lastAccess_perform habsolute act hf with ⟨old, hold, hsame⟩ | ⟨hwrites, hinstant, hnot⟩
  · rw [he] at hold
    obtain rfl := Option.some.inj hold
    exact hsame.symm
  · have hstill := hlive (Partition.Operation.names_of_writes hwrites)
    rw [hinstant, Option.all_some, hnot] at hstill
    cases hstill

theorem Endures.lastAccess (habsolute : s.part.metadata.isAbsolute = true)
    (h : Endures key acts s) (he : s.part.entries.get? key = some e) :
    ∃ f, (performAll acts s).2.part.entries.get? key = some f ∧ f.lastAccess = e.lastAccess := by
  induction acts generalizing s e with
  | nil => exact ⟨e, he, rfl⟩
  | cons act rest ih =>
    obtain ⟨f, hf, hsame⟩ := h.step habsolute he
    obtain ⟨g, hg, hlater⟩ := ih (by rw [metadata_perform]; exact habsolute) h.2.2 hf
    exact ⟨g, hg, hlater.trans hsame⟩

/-- Whenever the time that is left to a key that endures is asked for, it is live, and the answer
goes by the access time that it has had from the start. -/
theorem Endures.ttl (habsolute : s.part.metadata.isAbsolute = true) (h : Endures key acts s)
    (he : s.part.entries.get? key = some e) {result : Result}
    (hasked : (.ttl key now, result) ∈ answersOf acts s) :
    e.isExpired (s.part.expiry now) = false ∧
      result = .ok (.lifetime (e.timeLeft (s.part.expiry now))) := by
  induction acts generalizing s e with
  | nil => cases hasked
  | cons act rest ih =>
    have hlater (hrest : (.ttl key now, result) ∈ answersOf rest (s.perform act).2) :
        e.isExpired (s.part.expiry now) = false ∧
          result = .ok (.lifetime (e.timeLeft (s.part.expiry now))) := by
      have hmetadata := metadata_perform act s
      obtain ⟨f, hf, hsame⟩ := h.step habsolute he
      have hanswer := ih (by rw [hmetadata]; exact habsolute) h.2.2 hf hrest
      -- an entry is judged by its access time and the settings alone
      rwa [Partition.expiry, hmetadata, Entry.isExpired, Entry.timeLeft, hsame] at hanswer
    rw [answersOf_cons] at hasked
    split at hasked
    · rcases List.mem_cons.1 hasked with hfirst | hrest
      · obtain ⟨rfl, rfl⟩ := Prod.mk.inj hfirst
        obtain ⟨f, hf, hlive⟩ := Partition.isLive_iff.1 (h.2.1 (decide_eq_true rfl))
        rw [he] at hf
        obtain rfl := Option.some.inj hf
        refine ⟨hlive, ?_⟩
        simp only [perform, answer, ttl_of_live he hlive]
        rfl
      · exact hlater hrest
    · exact hlater hasked

/-- Where expiry is fixed at creation, a key that was not live has been written or incremented, and
then it endures whatever is done to the partition. All this time its last access is the instant of
that write; and whenever the time that is left to it is asked for, the answer leads up to the same
instant. -/
theorem deadline_fixed (habsolute : s.part.metadata.isAbsolute = true)
    (hwrites : act.writes key = true) (hstart : act.instant? = some start)
    (hnot : s.part.isLive key (s.part.expiry start) = false) {outcome : Outcome}
    (hdone : (s.perform act).1 = .ok outcome) (hendures : Endures key acts (s.perform act).2) :
    (∀ done, done <+: acts → ∃ e,
      (performAll done (s.perform act).2).2.part.entries.get? key = some e ∧
        e.lastAccess = start) ∧
    (s.part.metadata.interval ≠ 0 → ∀ now result,
      (.ttl key now, result) ∈ answersOf acts (s.perform act).2 →
        ∃ left, result = .ok (.lifetime (some left)) ∧
          now.toNat + left.toNat =
            min (start.toNat + s.part.metadata.interval.toNat) (UInt64.size - 1)) ∧
    ∀ now later left leftLater,
      (.ttl key now, .ok (.lifetime (some left))) ∈ answersOf acts (s.perform act).2 →
      (.ttl key later, .ok (.lifetime (some leftLater))) ∈ answersOf acts (s.perform act).2 →
        now.toNat + left.toNat = later.toNat + leftLater.toNat := by
  obtain ⟨e, he, rfl⟩ := lastAccess_of_written hwrites hstart hnot hdone
  have hmetadata := metadata_perform act s
  have hfixed : (s.perform act).2.part.metadata.isAbsolute = true := by
    rw [hmetadata]
    exact habsolute
  have hanswer {now : Millis} {result : Result}
      (hasked : (.ttl key now, result) ∈ answersOf acts (s.perform act).2) :
      result = .ok (.lifetime (e.timeLeft (s.part.expiry now))) ∧
        (s.part.metadata.interval ≠ 0 → ∃ left,
          e.timeLeft (s.part.expiry now) = some left ∧
            now.toNat + left.toNat =
              min (e.deadline s.part.metadata.interval) (UInt64.size - 1)) := by
    obtain ⟨hlive, hresult⟩ := hendures.ttl hfixed he hasked
    rw [Partition.expiry, hmetadata] at hlive hresult
    exact ⟨hresult, fun hinterval => Entry.timeLeft_of_live hinterval hlive⟩
  refine ⟨?_, fun hinterval now result hasked => ?_, fun now later left leftLater hnow hlater => ?_⟩
  · rintro done ⟨more, rfl⟩
    exact hendures.of_append.lastAccess hfixed he
  · obtain ⟨hresult, hdue⟩ := hanswer hasked
    obtain ⟨left, hleft, hends⟩ := hdue hinterval
    exact ⟨left, by rw [hresult, hleft], hends⟩
  · obtain ⟨hresult, hdue⟩ := hanswer hnow
    obtain ⟨hresultLater, hdueLater⟩ := hanswer hlater
    have htime : some left = e.timeLeft _ := Outcome.lifetime.inj (Except.ok.inj hresult)
    have htimeLater : some leftLater = e.timeLeft _ :=
      Outcome.lifetime.inj (Except.ok.inj hresultLater)
    by_cases hinterval : s.part.metadata.interval = 0
    · -- without an interval there is no such time
      have hnone : e.timeLeft (s.part.expiry now) = none := if_pos hinterval
      rw [hnone] at htime
      cases htime
    · obtain ⟨_, hleft, hends⟩ := hdue hinterval
      obtain ⟨_, hleftLater, hendsLater⟩ := hdueLater hinterval
      obtain rfl := Option.some.inj (htime.trans hleft)
      obtain rfl := Option.some.inj (htimeLater.trans hleftLater)
      exact hends.trans hendsLater.symm

/-- A partition in which expiry is fixed at creation, with an entry that will have expired. -/
def engraved : Site :=
  (performAll [.putMany [([97], [1])] .upsert 3]
    ((Node.bare {}).site
      (.create [112]
        { createDate := (Node.bare {}).today, interval := 10, mode := .absolute } {}))).2

/-- A write after the entry has expired, of a batch in which its key occurs twice. -/
def renewal : Partition.Operation :=
  .putMany [([97], [1]), ([98], [2]), ([97], [7, 0, 0, 0, 0, 0, 0, 0])] .upsert 20

/-- Requests that name the key, at instants that go back and forth. -/
def uses : List Partition.Operation :=
  [ .get [97] 25 true true, .ttl [97] 26, .touch [97] 28, .putMany [([97], [5])] .ifNotExists 5,
    .increment [97] 1 24, .getMany [[98], [97]] 29, .delete [99] 30,
    .putMany [([97], [6]), ([97], [8])] .ifExists 30, .ttl [97] 22 ]

/-- All the time the entry goes by the instant of the batch, and both times that are told lead up to
the same instant. -/
theorem deadline_fixed_engraved :
    engraved.part.isLive [97] (engraved.part.expiry 20) = false ∧
      (engraved.perform renewal).1 = .ok (.count 2) ∧
      (answersOf uses (engraved.perform renewal).2).map Prod.snd =
        [ .ok (.payload (some [7, 0, 0, 0, 0, 0, 0, 0])), .ok (.lifetime (some 4)), .ok .done,
          .error .keyAlreadyExists, .ok (.integer 8),
          .ok (.pairs [([98], [2]), ([97], [8, 0, 0, 0, 0, 0, 0, 0])]), .error .keyDoesNotExist,
          .ok (.count 1), .ok (.lifetime (some 8)) ] ∧
      (∀ done, done <+: uses → ∃ e,
        (performAll done (engraved.perform renewal).2).2.part.entries.get? [97] = some e ∧
          e.lastAccess = 20) ∧
      (26 : Millis).toNat + (4 : Millis).toNat = (22 : Millis).toNat + (8 : Millis).toNat := by
  have hnot : engraved.part.isLive [97] (engraved.part.expiry 20) = false := by cbv
  have hdone : (engraved.perform renewal).1 = .ok (.count 2) := by cbv
  have hendures : Endures [97] uses (engraved.perform renewal).2 := of_decide_eq_true (by cbv)
  obtain ⟨hstamps, -, hleft⟩ := deadline_fixed (by cbv) (by decide) rfl hnot hdone hendures
  have hanswers : answersOf uses (engraved.perform renewal).2 =
      uses.zip
        [ .ok (.payload (some [7, 0, 0, 0, 0, 0, 0, 0])), .ok (.lifetime (some 4)), .ok .done,
          .error .keyAlreadyExists, .ok (.integer 8),
          .ok (.pairs [([98], [2]), ([97], [8, 0, 0, 0, 0, 0, 0, 0])]), .error .keyDoesNotExist,
          .ok (.count 1), .ok (.lifetime (some 8)) ] := by cbv
  refine ⟨hnot, hdone, by rw [hanswers]; rfl, hstamps, hleft 26 22 4 8 ?_ ?_⟩
  · rw [hanswers]
    simp [uses]
  · rw [hanswers]
    simp [uses]

end Site

end CacheNode

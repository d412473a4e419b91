import Mathlib
import CacheNode.Proofs.Runs

/-!
# CacheNode — overwriting live keys only

A write under the condition that its keys exist is refused when one of them does not. The condition
is looked at anew in every attempt, and between two attempts a round of eviction may have taken
away the very keys that it is about. So there are two ways for such a write to find a key missing:
it was missing at the start, and then nothing changes; or a round evicted it.

* `Node.round`, `Node.rounds` — refused attempts, each with the eviction that follows it;
* `Node.Thinned` — what rounds do to partitions: they lose entries;
* `FirstError` — how checks that are made one after the other fail;
* `Node.overwrite_keyDoesNotExist` — when exactly an overwriting write finds a key missing.
-/

namespace CacheNode

/-- An item whose key and payload are neither empty nor too long. -/
def Config.Accepts (c : Config) (item : Bytes × Bytes) : Prop :=
  item.1 ≠ [] ∧ item.1.length ≤ c.maxKeySize ∧ item.2 ≠ [] ∧ item.2.length ≤ c.maxValueSize

instance (c : Config) (item : Bytes × Bytes) : Decidable (c.Accepts item) :=
  inferInstanceAs (Decidable (_ ∧ _))

/-- The keys that a node with this configuration takes. -/
def Config.AcceptsKey (c : Config) (key : Bytes) : Prop := key ≠ [] ∧ key.length ≤ c.maxKeySize

instance (c : Config) (key : Bytes) : Decidable (c.AcceptsKey key) :=
  inferInstanceAs (Decidable (_ ∧ _))

namespace Node

/-- Every key of a batch is live in a partition. -/
def AllLive (n : Node) (name : Bytes) (items : List (Bytes × Bytes)) (now : Millis) : Prop :=
  ∃ p, n.find? name = some p ∧ ∀ item ∈ items, p.isLive item.1 (p.expiry now) = true

/-- An operation that writes a batch under the condition that all its keys exist. -/
def Operation.Overwrites (op : Operation) (name : Bytes) (items : List (Bytes × Bytes))
    (now : Millis) : Prop :=
  op = .putMany name items .ifExists now ∨
    ∃ key value, items = [(key, value)] ∧ op = .put .ifExists name key value now

/-- An attempt that is refused for lack of room and followed by a round of eviction that frees
some; none if the attempt ends the write or nothing can be evicted. -/
def round {α : Type} (name : Bytes) (now : Millis)
    (write : Site → Except CacheError (Admission α) × Site) (n : Node) : Option Node :=
  match n.visit name write with
  | some (.ok (.needsRoom bytes), m) =>
    let room := m.makeRoom name bytes now
    if room.1 then some room.2 else none
  | _ => none

/-- Several rounds, one after the other. -/
def rounds {α : Type} (name : Bytes) (now : Millis)
    (write : Site → Except CacheError (Admission α) × Site) : Nat → Node → Option Node
  | 0, n => some n
  | count + 1, n => (round name now write n).bind (rounds name now write count)

/-- Every partition is still there with its settings, and has lost entries at most. -/
def Thinned (n m : Node) : Prop :=
  ∀ name p, n.find? name = some p →
    ∃ q, m.find? name = some q ∧ q.settings = p.settings ∧
      ∀ key e, q.entries.get? key = some e → p.entries.get? key = some e

/-- Between two attempts to overwrite a batch, rounds of eviction take away one of its keys. -/
def EvictsOwnKey (n : Node) (name : Bytes) (items : List (Bytes × Bytes)) (now : Millis) : Prop :=
  ∃ count m q, 0 < count ∧ count < attempts ∧
    rounds name now (fun s => s.writeMany items .ifExists now) count n = some m ∧
    m.find? name = some q ∧ ∃ item ∈ items, q.entries.get? item.1 = none

variable {n m k : Node} {name : Bytes} {p : Partition}

-- ---------------------------------------------------------------------------
-- Rounds thin partitions out
-- ---------------------------------------------------------------------------

namespace Thinned

theorem refl (n : Node) : n.Thinned n :=
  fun _ p hp => ⟨p, hp, rfl, fun _ _ he => he⟩

theorem trans (hnm : n.Thinned m) (hmk : m.Thinned k) : n.Thinned k := by
  intro name p hp
  obtain ⟨q, hq, hqsettings, hqentries⟩ := hnm name p hp
  obtain ⟨r, hr, hrsettings, hrentries⟩ := hmk name q hq
  exact ⟨r, hr, hrsettings.trans hqsettings, fun key e he => hqentries key e (hrentries key e he)⟩

/-- Working on one partition thins the node out if it only removes entries there. -/
theorem settle {s : Site} (hn : n.WellFormed) (hp : n.find? name = some p)
    (hsettings : s.part.settings = p.settings)
    (hentries : ∀ key e, s.part.entries.get? key = some e → p.entries.get? key = some e) :
    n.Thinned (n.settle s) := by
  have hname : s.part.name = name := (Partition.name_eq hsettings).trans (hn _ _ hp).named
  intro other q hq
  rw [find?_settle, hname]
  split
  · next heq =>
    subst heq
    rw [hp] at hq
    cases hq
    exact ⟨s.part, rfl, hsettings, hentries⟩
  · exact ⟨q, hq, rfl, fun _ _ he => he⟩

end Thinned

/-- Eviction removes entries and leaves the others as they are. -/
theorem get?_evictEach {goal : EvictionGoal} {x : Expiry} {proposed : List Candidate}
    {count : Nat} {s : Site} {key : Bytes} {e : Entry}
    (h : (Site.evictEach goal x proposed count s).2.part.entries.get? key = some e) :
    s.part.entries.get? key = some e := by
  induction proposed generalizing count s with
  | nil => exact h
  | cons c rest ih =>
    rw [Site.evictEach] at h
    split at h
    · exact h
    · split at h
      · exact ih h
      · next old hold =>
        have herased := ih h
        rw [Site.entries_takeOut] at herased
        exact Table.get?_of_erase herased

theorem get?_evict {s : Site} {count : Nat} {now : Millis} {goal : EvictionGoal} {key : Bytes}
    {e : Entry} (h : (s.evict count now goal).2.part.entries.get? key = some e) :
    s.part.entries.get? key = some e := by
  simp only [Site.evict] at h
  split at h
  · exact h
  · have hbefore := get?_evictEach h
    exact hbefore

theorem thinned_evictFrom (name : Bytes) (bytes : ByteCount) (now : Millis)
    (hn : n.WellFormed) : n.Thinned (n.evictFrom name bytes now).2 := by
  cases hfind : n.find? name with
  | none =>
    simp only [evictFrom, visit, hfind]
    exact .refl n
  | some p =>
    simp only [evictFrom, visit, hfind, Option.map_some, act]
    have hsteps : Site.Steps False _ (n.site p) _ :=
      Site.steps_evict (evictionCount p.tally bytes) now (.room bytes) (Nat.lt_succ_self p.bytes)
    exact .settle hn hfind hsteps.settings fun key e he => get?_evict he

/-- A round of eviction thins the node out and leaves it well formed. -/
theorem thinned_makeRoom (name : Bytes) (bytes : ByteCount) (now : Millis)
    (hn : n.WellFormed) :
    (n.makeRoom name bytes now).2.WellFormed ∧ n.Thinned (n.makeRoom name bytes now).2 := by
  apply makeRoom_induction (P := fun m => m.WellFormed ∧ n.Thinned m) ⟨hn, .refl n⟩
  · -- the choice of a victim only takes draws
    intro p
    simp only [victimFor]
    split
    · exact ⟨hn, .refl n⟩
    · exact ⟨hn, .refl n⟩
  · rintro m victim ⟨hm, hthin⟩
    have hevicted : Changes (fun _ _ => True) (fun _ => False) (m.bytesHeld + 1) m
        (m.evictFrom victim bytes now).2 :=
      changes_evictFrom victim bytes now hm (Nat.lt_succ_self _)
    exact ⟨hevicted.wellFormed hm, hthin.trans (thinned_evictFrom victim bytes now hm)⟩

-- ---------------------------------------------------------------------------
-- Retrying
-- ---------------------------------------------------------------------------

variable {α : Type} {write : Site → Except CacheError (Admission α) × Site} {now : Millis}

/-- Whether the next attempt fails with an error. -/
def Fails (write : Site → Except CacheError (Admission α) × Site) (name : Bytes)
    (err : CacheError) (n : Node) : Prop :=
  ∃ p, n.find? name = some p ∧ (write (n.site p)).1 = .error err

/-- Something holds after some rounds if it holds now or after rounds that follow the first. -/
theorem exists_rounds_succ {P : Node → Prop} (tries : Nat) :
    (∃ count, count < tries + 1 ∧ ∃ m, rounds name now write count n = some m ∧ P m) ↔
      P n ∨ ∃ first, round name now write n = some first ∧
        ∃ count, count < tries ∧ ∃ m, rounds name now write count first = some m ∧ P m := by
  constructor
  · -- no round, or a first one and the rest
    rintro ⟨count, hlt, m, hrounds, hm⟩
    cases count with
    | zero =>
      cases hrounds
      exact .inl hm
    | succ count =>
      obtain ⟨first, hfirst, hlater⟩ := Option.bind_eq_some_iff.1 hrounds
      exact .inr ⟨first, hfirst, count, Nat.lt_of_succ_lt_succ hlt, m, hlater, hm⟩
  · rintro (hn | ⟨first, hfirst, count, hlt, m, hlater, hm⟩)
    · exact ⟨0, Nat.zero_lt_succ _, n, rfl, hn⟩
    · refine ⟨count + 1, Nat.succ_lt_succ hlt, m, ?_, hm⟩
      rw [rounds, hfirst]
      exact hlater

/-- Only an attempt that waits for room is followed by a round. -/
theorem round_eq_none (hp : n.find? name = some p)
    (h : ∀ bytes, (write (n.site p)).1 ≠ .ok (.needsRoom bytes)) :
    round name now write n = none := by
  simp only [round, visit, hp, Option.map_some, act]
  split
  · next bytes refused hvisited =>
    obtain ⟨hresult, -⟩ := Prod.mk.inj (Option.some.inj hvisited)
    exact absurd hresult (h bytes)
  · rfl

theorem round_of_needsRoom {bytes : ByteCount} (hp : n.find? name = some p)
    (h : (write (n.site p)).1 = .ok (.needsRoom bytes)) :
    round name now write n =
      if ((n.settle (write (n.site p)).2).makeRoom name bytes now).1 then
        some ((n.settle (write (n.site p)).2).makeRoom name bytes now).2
      else none := by
  simp only [round, visit, hp, Option.map_some, act, h]

/-- An error other than a lack of room comes from an attempt: the first one, or one that follows
rounds of eviction. -/
theorem tryWrite_eq_error_iff {err : CacheError} (tries : Nat) (needed : ByteCount)
    (hpartition : err ≠ .partitionDoesNotExist)
    (hroom : ∀ shortage, err ≠ .insufficientCapacity shortage) :
    (tryWrite name now write tries needed n).1 = .error err ↔
      ∃ count, count < tries ∧ ∃ m, rounds name now write count n = some m ∧
        Fails write name err m := by
  have hshort (bytes : ByteCount) (m : Node) :
      ¬ ((.error (.insufficientCapacity (.write name bytes)), m) : Except CacheError α × Node).1 =
        .error err := by
    intro h
    cases h
    exact hroom _ rfl
  -- the induction is on the attempts that are left, over all nodes that rounds may lead to
  induction tries generalizing needed n with
  | zero =>
    refine iff_of_false (hshort needed n) ?_
    rintro ⟨count, hlt, -⟩
    exact absurd hlt (Nat.not_lt_zero _)
  | succ tries ih =>
    rw [exists_rounds_succ]
    cases hfind : n.find? name with
    | none =>
      have hround : round name now write n = none := by simp [round, visit, hfind]
      simp only [tryWrite, visit, hfind, Option.map_none, Fails, hround]
      simp [hpartition.symm]
    | some p =>
      cases hresult : (write (n.site p)).1 with
      | error e =>
        -- the attempt fails, and that is the answer
        rw [round_eq_none hfind (by simp [hresult])]
        simp only [tryWrite, visit, hfind, Option.map_some, act, hresult, Fails]
        simp [hresult]
      | ok admission =>
        cases admission with
        | done a =>
          -- the attempt succeeds
          rw [round_eq_none hfind (by simp [hresult])]
          simp only [tryWrite, visit, hfind, Option.map_some, act, hresult, Fails]
          simp [hresult]
        | needsRoom bytes =>
          -- the attempt is put off, so an error can only come from later ones
          have hnow : ¬ Fails write name err n := by
            rintro ⟨q, hq, hfails⟩
            rw [hfind] at hq
            cases hq
            rw [hresult] at hfails
            cases hfails
          rw [round_of_needsRoom hfind hresult]
          simp only [tryWrite, visit, hfind, Option.map_some, act, hresult]
          by_cases hfreed :
              ((n.settle (write (n.site p)).2).makeRoom name bytes now).1 = true
          · have hlater := ih (n := ((n.settle (write (n.site p)).2).makeRoom name bytes now).2)
              bytes
            rw [if_pos hfreed, if_pos hfreed]
            simpa [hnow] using hlater
          · rw [if_neg hfreed, if_neg hfreed]
            refine iff_of_false (hshort bytes _) ?_
            simp [hnow]

-- ---------------------------------------------------------------------------
-- The condition that keys exist
-- ---------------------------------------------------------------------------

/-- Dropping earlier occurrences of a key loses no key. -/
theorem exists_mem_lastOccurrences {items : List (Bytes × Bytes)} {item : Bytes × Bytes}
    (h : item ∈ items) : ∃ last ∈ lastOccurrences items, last.1 = item.1 := by
  induction items generalizing item with
  | nil => cases h
  | cons first rest ih =>
    rw [lastOccurrences]
    split
    · next hagain =>
      -- the first item gives way to a later one with its key
      rcases List.mem_cons.1 h with rfl | hrest
      · obtain ⟨other, hother, heq⟩ := List.any_eq_true.1 hagain
        obtain ⟨last, hlast, hkey⟩ := ih hother
        have hsame : other.1 = item.1 := by simpa using heq
        exact ⟨last, hlast, hkey.trans hsame⟩
      · exact ih hrest
    · rcases List.mem_cons.1 h with rfl | hrest
      · exact ⟨item, List.mem_cons_self, rfl⟩
      · obtain ⟨last, hlast, hkey⟩ := ih hrest
        exact ⟨last, List.mem_cons_of_mem _ hlast, hkey⟩

end Node

/-- The first failure of a check in a list. -/
def FirstError {α : Type} (check : α → Except CacheError Unit) (xs : List α) (err : CacheError) :
    Prop :=
  ∃ before x after, xs = before ++ x :: after ∧ (∀ y ∈ before, check y = .ok ()) ∧
    check x = .error err

theorem checkEach_eq_error_iff {α : Type} {check : α → Except CacheError Unit} {xs : List α}
    {err : CacheError} : checkEach check xs = .error err ↔ FirstError check xs err := by
  induction xs with
  | nil =>
    refine iff_of_false (by simp [checkEach]) ?_
    rintro ⟨before, x, after, hnil, -⟩
    simp at hnil
  | cons first rest ih =>
    rw [checkEach]
    split
    · next hfirst =>
      rw [ih]
      constructor
      · rintro ⟨before, x, after, rfl, hbefore, hx⟩
        refine ⟨first :: before, x, after, rfl, ?_, hx⟩
        intro y hy
        rcases List.mem_cons.1 hy with rfl | hy
        · exact hfirst
        · exact hbefore y hy
      · rintro ⟨before, x, after, hsplit, hbefore, hx⟩
        cases before with
        | nil =>
          -- the first member passes, so it is not the one that fails
          obtain ⟨rfl, -⟩ := List.cons.inj hsplit
          rw [hfirst] at hx
          cases hx
        | cons y before =>
          obtain ⟨-, rfl⟩ := List.cons.inj hsplit
          exact ⟨before, x, after, rfl, fun z hz => hbefore z (List.mem_cons_of_mem _ hz), hx⟩
    · next e hfirst =>
      constructor
      · rintro ⟨⟩
        exact ⟨[], first, rest, rfl, by simp, hfirst⟩
      · rintro ⟨before, x, after, hsplit, hbefore, hx⟩
        cases before with
        | nil =>
          obtain ⟨rfl, -⟩ := List.cons.inj hsplit
          rw [hfirst] at hx
          exact hx
        | cons y before =>
          obtain ⟨rfl, -⟩ := List.cons.inj hsplit
          rw [hbefore first List.mem_cons_self] at hfirst
          cases hfirst

theorem checkEach_error {α : Type} {check : α → Except CacheError Unit} {err : CacheError}
    {xs : List α} (h : checkEach check xs = .error err) : ∃ x ∈ xs, check x = .error err := by
  obtain ⟨before, x, after, rfl, -, hx⟩ := checkEach_eq_error_iff.1 h
  exact ⟨x, List.mem_append_right before List.mem_cons_self, hx⟩

theorem Partition.checkKey_of_accepts {p : Partition} {config : Config} {key : Bytes}
    (hlimits : p.limits = config.limits) (h : config.AcceptsKey key) :
    p.checkKey key = .ok () := by
  obtain ⟨hkey, hsize⟩ := h
  have hmax : ¬ p.limits.maxKeySize < key.length := by
    rw [hlimits]
    exact Nat.not_lt.2 hsize
  rw [checkKey, if_neg hkey, if_neg hmax]

theorem Partition.checkItem_of_accepts {p : Partition} {config : Config} {item : Bytes × Bytes}
    (hlimits : p.limits = config.limits) (h : config.Accepts item) :
    p.checkItem item = .ok () := by
  obtain ⟨hkey, hkeySize, hvalue, hvalueSize⟩ := h
  have hmax : ¬ p.limits.maxValueSize < item.2.length := by
    rw [hlimits]
    exact Nat.not_lt.2 hvalueSize
  rw [checkItem, checkKey_of_accepts hlimits ⟨hkey, hkeySize⟩]
  show p.checkValue item.2 = .ok ()
  rw [checkValue, if_neg hvalue, if_neg hmax]

namespace Site

/-- An attempt to overwrite a valid batch finds a key missing if and only if one is not live, and
then it changes nothing. -/
theorem writeMany_ifExists {s : Site} {items : List (Bytes × Bytes)} (now : Millis)
    (hitems : ∀ item ∈ items, s.part.checkItem item = .ok ()) (huse : s.part.retired = false) :
    ((∃ item ∈ items, s.part.isLive item.1 (s.part.expiry now) = false) →
      s.writeMany items .ifExists now = (.error .keyDoesNotExist, s)) ∧
    ((∀ item ∈ items, s.part.isLive item.1 (s.part.expiry now) = true) →
      (s.writeMany items .ifExists now).1 ≠ .error .keyDoesNotExist) := by
  have hchecked := checkEach_eq_ok_iff.2 hitems
  have hinUse : s.part.checkInUse = .ok () := Partition.checkInUse_of_inUse huse
  constructor
  · rintro ⟨item, hitem, hstale⟩
    obtain ⟨last, hlast, hkey⟩ := Node.exists_mem_lastOccurrences hitem
    cases hcond : checkEach (fun other =>
        s.part.checkCondition .ifExists (s.part.expiry now) other.1) (lastOccurrences items) with
    | ok _ =>
      have hlive := checkEach_eq_ok_iff.1 hcond last hlast
      simp [Partition.checkCondition, hkey, hstale] at hlive
    | error err =>
      -- this condition fails in one way only
      obtain ⟨other, -, herr⟩ := checkEach_error hcond
      have hmissing : err = .keyDoesNotExist := by
        simp only [Partition.checkCondition] at herr
        split at herr
        · cases herr
        · cases herr
          rfl
      subst hmissing
      simp only [writeMany, Partition.plan, hchecked, hinUse, hcond]
  · intro hlive hmissing
    have hcond : checkEach (fun other =>
        s.part.checkCondition .ifExists (s.part.expiry now) other.1) (lastOccurrences items) =
        .ok () := by
      refine checkEach_eq_ok_iff.2 fun item hitem => ?_
      simp [Partition.checkCondition, hlive item (mem_lastOccurrences hitem)]
    simp only [writeMany, Partition.plan, hchecked, hinUse, hcond] at hmissing
    split at hmissing <;> cases hmissing

end Site

namespace Node

variable {n m : Node} {name : Bytes} {p : Partition} {items : List (Bytes × Bytes)} {now : Millis}

/-- What single and batch writes have in common. -/
theorem perform_puts {op : Operation} {mode : PutMode}
    (hop : op = .putMany name items mode now ∨
      ∃ key value, items = [(key, value)] ∧ op = .put mode name key value now) (n : Node) :
    (n.perform op).2 = (n.putMany name items mode now).2 ∧
      ∀ err, (n.perform op).1 = .error err ↔ (n.putMany name items mode now).1 = .error err := by
  rcases hop with rfl | ⟨key, value, rfl, rfl⟩
  · refine ⟨rfl, fun err => ?_⟩
    simp only [perform, answer]
    cases (n.putMany name items mode now).1 <;> simp [Except.map]
  · refine ⟨rfl, fun err => ?_⟩
    simp only [perform, answer, put]
    cases (n.putMany name [(key, value)] mode now).1 <;> simp [Except.map]

theorem perform_overwrites {op : Operation} (hop : op.Overwrites name items now) (n : Node) :
    (n.perform op).2 = (n.putMany name items .ifExists now).2 ∧
      ∀ err, (n.perform op).1 = .error err ↔
        (n.putMany name items .ifExists now).1 = .error err :=
  perform_puts hop n

/-- The write to a valid name. A missing partition is a missing key. -/
theorem putMany_ifExists (hname : PartitionName.Valid name) :
    n.putMany name items .ifExists now =
      match n.find? name with
      | none => (.error .keyDoesNotExist, n)
      | some _ => n.accept name now fun s => s.writeMany items .ifExists now := by
  cases hfind : n.find? name with
  | none => simp [putMany, existing, show PartitionName.check name = .ok () from hname, hfind]
  | some p => simp [putMany, existing, show PartitionName.check name = .ok () from hname, hfind]

/-- A refused batch write leaves the partition alone. -/
theorem writeMany_of_needsRoom {s : Site} {mode : PutMode} {bytes : ByteCount}
    (h : (s.writeMany items mode now).1 = .ok (.needsRoom bytes)) :
    (s.writeMany items mode now).2 = s := by
  cases hplan : s.part.plan items mode now with
  | error err => simp [Site.writeMany, hplan] at h
  | ok plan =>
    cases hgrow : s.grow (UInt64.ofNat (plan.newBytes - plan.oldBytes)) with
    | none => simp [Site.writeMany, hplan, hgrow]
    | some grown => simp [Site.writeMany, hplan, hgrow] at h

theorem thinned_round {mode : PutMode} (hn : n.WellFormed)
    (h : round name now (fun s => s.writeMany items mode now) n = some m) :
    m.WellFormed ∧ n.Thinned m := by
  unfold round at h
  cases hfind : n.find? name with
  | none => simp [visit, hfind] at h
  | some p =>
    simp only [visit, hfind, Option.map_some, act] at h
    split at h
    · next bytes refused hvisited =>
      -- the refused attempt itself changes nothing
      obtain ⟨hresult, rfl⟩ := Prod.mk.inj (Option.some.inj hvisited)
      have hsame : n.settle ((n.site p).writeMany items mode now).2 = n := by
        rw [writeMany_of_needsRoom hresult]
        exact settle_site hfind (hn _ _ hfind).named
      rw [hsame] at h
      split at h
      · cases h
        exact thinned_makeRoom name bytes now hn
      · cases h
    · cases h

theorem thinned_rounds {mode : PutMode} (count : Nat) (hn : n.WellFormed)
    (h : rounds name now (fun s => s.writeMany items mode now) count n = some m) :
    m.WellFormed ∧ n.Thinned m := by
  induction count generalizing n with
  | zero =>
    cases h
    exact ⟨hn, .refl _⟩
  | succ count ih =>
    obtain ⟨first, hfirst, hlater⟩ := Option.bind_eq_some_iff.1 h
    obtain ⟨hwf, hthin⟩ := thinned_round hn hfirst
    obtain ⟨hwfLater, hthinLater⟩ := ih hwf hlater
    exact ⟨hwfLater, hthin.trans hthinLater⟩

/-- After the partition was thinned out, the keys that are no longer live are those that are gone. -/
theorem isLive_eq_false_iff {p q : Partition} {key : Bytes} (hsettings : q.settings = p.settings)
    (hentries : ∀ key e, q.entries.get? key = some e → p.entries.get? key = some e)
    (hlive : p.isLive key (p.expiry now) = true) :
    q.isLive key (q.expiry now) = false ↔ q.entries.get? key = none := by
  have hexpiry : q.expiry now = p.expiry now := by
    rw [Partition.expiry, Partition.expiry, Partition.metadata_eq hsettings]
  rw [hexpiry]
  cases hget : q.entries.get? key with
  | none => simp [Partition.isLive, hget]
  | some e =>
    have hold := hentries key e hget
    simp only [Partition.isLive, hold] at hlive
    simp [Partition.isLive, hget, hlive]

/-- If some key is not live at the start, the first attempt says so. -/
theorem putMany_of_not_allLive (hn : n.WellFormed) (hname : PartitionName.Valid name)
    (hitems : ∀ item ∈ items, n.config.Accepts item) (hlive : ¬ n.AllLive name items now) :
    n.putMany name items .ifExists now = (.error .keyDoesNotExist, n) := by
  rw [putMany_ifExists hname]
  cases hfind : n.find? name with
  | none => rfl
  | some p =>
    have hwf := hn _ _ hfind
    have hstale : ∃ item ∈ items, p.isLive item.1 (p.expiry now) = false := by
      apply Decidable.byContradiction
      intro hnone
      refine hlive ⟨p, hfind, fun item hitem => ?_⟩
      cases hone : p.isLive item.1 (p.expiry now) with
      | true => rfl
      | false => exact absurd ⟨item, hitem, hone⟩ hnone
    have hchecked : ∀ item ∈ items, p.checkItem item = .ok () :=
      fun item hitem => Partition.checkItem_of_accepts hwf.limited (hitems item hitem)
    have hwritten := (Site.writeMany_ifExists (s := n.site p) now hchecked hwf.inUse).1 hstale
    simp only [accept, attempts, tryWrite, visit, hfind, Option.map_some, act, hwritten,
      settle_site hfind hwf.named]

/-- If all keys were live at the start, an attempt after some rounds misses one exactly if it is gone
by then. -/
theorem fails_iff_gone (hn : n.WellFormed) (hp : n.find? name = some p)
    (hitems : ∀ item ∈ items, n.config.Accepts item)
    (hlive : ∀ item ∈ items, p.isLive item.1 (p.expiry now) = true) (hthin : n.Thinned m) :
    Fails (fun s => s.writeMany items .ifExists now) name .keyDoesNotExist m ↔
      ∃ q, m.find? name = some q ∧ ∃ item ∈ items, q.entries.get? item.1 = none := by
  have hwf := hn _ _ hp
  obtain ⟨q, hq, hsettings, hentries⟩ := hthin name p hp
  -- rounds leave the settings alone, so the batch is as valid as it was
  have hlimits : q.limits = n.config.limits := (Partition.limits_eq hsettings).trans hwf.limited
  have huse : q.retired = false := (Partition.retired_eq hsettings).trans hwf.inUse
  have hchecked : ∀ item ∈ items, q.checkItem item = .ok () := by
    intro item hitem
    exact Partition.checkItem_of_accepts hlimits (hitems item hitem)
  obtain ⟨hmissing, hfound⟩ := Site.writeMany_ifExists (s := m.site q) now hchecked huse
  constructor
  · rintro ⟨r, hr, hfailed⟩
    rw [hq] at hr
    cases hr
    refine ⟨q, hq, Decidable.byContradiction fun hnone => hfound ?_ hfailed⟩
    intro item hitem
    cases hone : q.isLive item.1 (q.expiry now) with
    | true => exact hone
    | false =>
      have hgone := (isLive_eq_false_iff hsettings hentries (hlive item hitem)).1 hone
      exact absurd ⟨item, hitem, hgone⟩ hnone
  · rintro ⟨r, hr, item, hitem, hgone⟩
    rw [hq] at hr
    cases hr
    have hstale := (isLive_eq_false_iff hsettings hentries (hlive item hitem)).2 hgone
    exact ⟨q, hq, congrArg Prod.fst (hmissing ⟨item, hitem, hstale⟩)⟩

/-- If all keys are live at the start, an attempt misses one exactly if a round has evicted it. -/
theorem putMany_of_allLive (hn : n.WellFormed) (hname : PartitionName.Valid name)
    (hitems : ∀ item ∈ items, n.config.Accepts item) (hlive : n.AllLive name items now) :
    (n.putMany name items .ifExists now).1 = .error .keyDoesNotExist ↔
      n.EvictsOwnKey name items now := by
  obtain ⟨p, hp, hlive⟩ := hlive
  rw [putMany_ifExists hname, hp]
  show (tryWrite name now _ attempts 0 n).1 = _ ↔ _
  rw [tryWrite_eq_error_iff attempts 0 (by decide) (fun _ h => by cases h)]
  constructor
  · rintro ⟨count, hlt, m, hrounds, hfailed⟩
    obtain ⟨-, hthin⟩ := thinned_rounds count hn hrounds
    obtain ⟨q, hq, item, hitem, hgone⟩ := (fails_iff_gone hn hp hitems hlive hthin).1 hfailed
    refine ⟨count, m, q, ?_, hlt, hrounds, hq, item, hitem, hgone⟩
    -- before the first round all keys are there
    apply Nat.pos_of_ne_zero
    rintro rfl
    cases hrounds
    rw [hp] at hq
    cases hq
    have hthere := hlive item hitem
    simp [Partition.isLive, hgone] at hthere
  · rintro ⟨count, m, q, -, hlt, hrounds, hq, hgone⟩
    obtain ⟨-, hthin⟩ := thinned_rounds count hn hrounds
    exact ⟨count, hlt, m, hrounds, (fails_iff_gone hn hp hitems hlive hthin).2 ⟨q, hq, hgone⟩⟩

/-- A write that is to overwrite live keys only reports a missing key in two cases. If a key is not
live at the start, nothing changes. If all are, one of them is evicted to make room for the write. -/
theorem overwrite_keyDoesNotExist {op : Operation} (hn : n.Reachable)
    (hname : PartitionName.Valid name) (hitems : ∀ item ∈ items, n.config.Accepts item)
    (hop : op.Overwrites name items now) :
    (¬ n.AllLive name items now → n.perform op = (.error .keyDoesNotExist, n)) ∧
      (n.AllLive name items now →
        ((n.perform op).1 = .error .keyDoesNotExist ↔ n.EvictsOwnKey name items now)) := by
  obtain ⟨hnode, hresult⟩ := perform_overwrites hop n
  constructor
  · -- the first attempt already finds a key missing
    intro hlive
    have hput := putMany_of_not_allLive hn.wellFormed hname hitems hlive
    rw [hput] at hnode
    exact Prod.ext ((hresult _).2 (by rw [hput])) hnode
  · intro hlive
    rw [hresult]
    exact putMany_of_allLive hn.wellFormed hname hitems hlive

/-- A partition with a bound of ten bytes that two entries fill; the first is the older one. -/
def crowding : List Operation :=
  [ .putPartition [112] { createDate := (bare {}).today, maxCacheSize := 10 },
    .put .upsert [112] [97] [1, 2, 3, 4] 1,
    .put .upsert [112] [98] [1, 2, 3, 4] 2 ]

/-- One more byte for the older entry evicts that very entry, and then it is missed. -/
theorem overwrite_evicts_own_key :
    (performAll crowding (bare {})).2.AllLive [112] [([97], [1, 2, 3, 4, 5])] 3 ∧
      ((performAll crowding (bare {})).2.perform
        (.put .ifExists [112] [97] [1, 2, 3, 4, 5] 3)).1 = .error .keyDoesNotExist ∧
      (performAll crowding (bare {})).2.EvictsOwnKey [112] [([97], [1, 2, 3, 4, 5])] 3 := by
  have hreached : (performAll crowding (bare {})).2.Reachable :=
    ⟨bare {}, fresh_bare {}, .step (.step (.step .start
      _ (by rintro _ _ _ _ _ ⟨⟩)) _ (by rintro _ _ _ _ _ ⟨⟩)) _ (by rintro _ _ _ _ _ ⟨⟩)⟩
  have hlive : (performAll crowding (bare {})).2.AllLive [112] [([97], [1, 2, 3, 4, 5])] 3 :=
    ⟨_, rfl, by decide⟩
  have hmissing : ((performAll crowding (bare {})).2.perform
      (.put .ifExists [112] [97] [1, 2, 3, 4, 5] 3)).1 = .error .keyDoesNotExist := by cbv
  have hop : Operation.Overwrites (.put .ifExists [112] [97] [1, 2, 3, 4, 5] 3) [112]
      [([97], [1, 2, 3, 4, 5])] 3 := .inr ⟨[97], [1, 2, 3, 4, 5], rfl, rfl⟩
  have hexact := overwrite_keyDoesNotExist hreached (by decide) (by decide) hop
  exact ⟨hlive, hmissing, (hexact.2 hlive).1 hmissing⟩

end Node

end CacheNode

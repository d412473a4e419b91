import CacheNode.Proofs.Replay

/-!
# CacheNode — announcements

Whatever a step of a partition does to the entries is announced to all who listen, and what it
removes is counted. The announcements of a step are its script. A predicate gets the part of the
script that it wants, in the order of the script, whoever else listens: while an event is on its
way, predicates of closed channels are dropped from the list, but none of an open channel is passed
over or served twice.

The counters go by the same script. An entry that is removed is counted once by the partition, under
the cause that its event names; the node counts it likewise, unless it was deleted.

* `Predicate.hears`, `count` — what a predicate and a counter get of a script;
* `Removals.add` — the counters of removals after a script;
* `Site.Plays` — a script is played: all who listen hear it, and its removals are counted;
* `Site.Step.plays` — every step plays a script.
-/

namespace CacheNode

/-- One announcement, before it is addressed to anybody. -/
structure Notice where
  key : Bytes
  value : Option Bytes
  kind : EventKind
deriving DecidableEq

/-- How often a script announces a kind of event, as a counter tells it. -/
def count (kind : EventKind) (script : List Notice) : UInt64 :=
  .ofNat (script.countP (·.kind = kind))

theorem count_append (kind : EventKind) (script more : List Notice) :
    count kind (script ++ more) = count kind script + count kind more := by
  rw [count, List.countP_append, UInt64.ofNat_add]
  rfl

namespace Predicate

variable (pr : Predicate) (script more : List Notice)

/-- A predicate wants the events of its key, if it has one, that are of a kind which its filter
names, if it names any. -/
theorem wants_iff {key : Bytes} {kind : EventKind} :
    pr.wants key kind = true ↔
      (pr.key = none ∨ pr.key = some key) ∧ (pr.filter = .empty ∨ pr.filter.names kind) := by
  simp only [wants, EventFilter.accepts, Bool.and_eq_true, Bool.or_eq_true, decide_eq_true_eq]
  rw [and_comm]
  cases pr.key <;> simp

/-- The event by which a predicate learns of an announcement. -/
def event (notice : Notice) : ChangeEvent :=
  ⟨pr.watchId, pr.partition, notice.key, notice.value, notice.kind⟩

/-- The events that a predicate gets while a script is played. -/
def hears : List ChangeEvent :=
  (script.filter fun notice => pr.wants notice.key notice.kind).map pr.event

@[simp] theorem hears_nil : pr.hears [] = [] := rfl

theorem hears_append : pr.hears (script ++ more) = pr.hears script ++ pr.hears more := by
  rw [hears, List.filter_append, List.map_append]
  rfl

/-- A predicate that wants everything gets the whole script. -/
theorem hears_eq_map {pr : Predicate} (h : ∀ key kind, pr.wants key kind = true) :
    pr.hears script = script.map pr.event := by
  rw [hears, List.filter_eq_self.2]
  intro notice _
  exact h notice.key notice.kind

/-- A predicate that wants everything tells how often there was an event of a kind. -/
theorem count_eq_countP {pr : Predicate} (h : ∀ key kind, pr.wants key kind = true)
    (kind : EventKind) : count kind script = .ofNat ((pr.hears script).countP (·.kind = kind)) := by
  rw [hears_eq_map script h, List.countP_map]
  rfl

end Predicate

-- ---------------------------------------------------------------------------
-- Counters of removals
-- ---------------------------------------------------------------------------

/-- The counters of removals: the partition's, and those that the node has for all partitions. -/
structure Removals where
  deletions : UInt64
  evictions : UInt64
  expirations : UInt64
  allEvictions : UInt64
  allExpirations : UInt64

/-- The counters after a script. -/
def Removals.add (r : Removals) (script : List Notice) : Removals where
  deletions := r.deletions + count .delete script
  evictions := r.evictions + count .evict script
  expirations := r.expirations + count .expire script
  allEvictions := r.allEvictions + count .evict script
  allExpirations := r.allExpirations + count .expire script

namespace Removals

@[simp] theorem add_nil (r : Removals) : r.add [] = r := by
  simp [add, count]

theorem add_append (r : Removals) (script more : List Notice) :
    r.add (script ++ more) = (r.add script).add more := by
  simp only [add, count_append, UInt64.add_assoc]

/-- Writing removes nothing. -/
@[simp] theorem add_write (r : Removals) (key : Bytes) (value : Option Bytes) :
    r.add [⟨key, value, .write⟩] = r := by
  simp [add, count]

end Removals

namespace Account

/-- The counters of removals among the others. -/
def removals (a : Account) : Removals where
  deletions := a.tally.deletions
  evictions := a.tally.evictions
  expirations := a.tally.expirations
  allEvictions := a.totals.evictions
  allExpirations := a.totals.expirations

variable {a grown : Account}

/-- A removal is counted under its cause. -/
theorem removals_remove (a : Account) (key : Bytes) (value : Option Bytes) (cause : Removal) :
    (a.remove cause).removals = a.removals.add [⟨key, value, cause.kind⟩] := by
  cases cause <;> simp [removals, remove, Removals.add, count, Removal.kind]

theorem removals_tryGrow {delta bound : ByteCount} (h : a.tryGrow delta bound = some grown) :
    grown.removals = a.removals := by
  rcases tryGrow_cases h with ⟨-, rfl⟩ | ⟨-, -, rfl⟩ | ⟨-, -, rfl⟩ <;> rfl

end Account

-- ---------------------------------------------------------------------------
-- Playing a script
-- ---------------------------------------------------------------------------

namespace Site

/-- A script is played: every predicate in place stays there and gets what it wants of the script,
and unless counters are cleared meanwhile, they count what the script removes. -/
structure Plays (clears : Prop) (s : Site) (script : List Notice) (t : Site) : Prop where
  listens : ∀ pr, s.Listens pr → t.Listens pr
  heard   : ∀ pr, s.Listens pr → ∃ news,
    t.hub.queue pr.owner = s.hub.queue pr.owner ++ news ∧
      news.filter (·.isFor pr) = pr.hears script
  counted : ¬ clears → t.account.removals = s.account.removals.add script

variable {clears : Prop} {s t u : Site} {script more : List Notice} {key : Bytes}
  {value : Option Bytes} {kind : EventKind}

theorem Plays.trans (h : Plays clears s script t) (hlater : Plays clears t more u) :
    Plays clears s (script ++ more) u where
  listens := fun pr hpr => hlater.listens pr (h.listens pr hpr)
  heard   := by
    intro pr hpr
    obtain ⟨first, hfirst, hown⟩ := h.heard pr hpr
    obtain ⟨second, hsecond, hlaterOwn⟩ := hlater.heard pr (h.listens pr hpr)
    refine ⟨first ++ second, by rw [hsecond, hfirst, List.append_assoc], ?_⟩
    rw [List.filter_append, hown, hlaterOwn, pr.hears_append]
  counted := by
    intro hclears
    rw [hlater.counted hclears, h.counted hclears, Removals.add_append]

/-- What a script removes is what it adds to the node's counters. -/
theorem Plays.added (h : Plays clears s script t) (hclears : ¬ clears) :
    t.totals.evictions - s.totals.evictions = count .evict script ∧
      t.totals.expirations - s.totals.expirations = count .expire script := by
  have hcounted := h.counted hclears
  have hevictions : t.totals.evictions = s.totals.evictions + count .evict script :=
    congrArg Removals.allEvictions hcounted
  have hexpirations : t.totals.expirations = s.totals.expirations + count .expire script :=
    congrArg Removals.allExpirations hcounted
  rw [hevictions, hexpirations, UInt64.add_comm s.totals.evictions, UInt64.add_sub_cancel,
    UInt64.add_comm s.totals.expirations, UInt64.add_sub_cancel]
  exact ⟨rfl, rfl⟩

/-- Where nothing is announced nothing may be removed. -/
theorem plays_nil (hhub : t.hub = s.hub) (hwatches : t.part.watches = s.part.watches)
    (hname : t.part.name = s.part.name)
    (hcounted : ¬ clears → t.account.removals = s.account.removals) : Plays clears s [] t where
  listens := fun _ hpr => hpr.of_eq hhub hwatches hname
  heard   := fun _ _ => ⟨[], by rw [hhub, List.append_nil], rfl⟩
  counted := fun hclears => by rw [hcounted hclears, Removals.add_nil]

/-- What has just been done is announced. -/
theorem plays_announce (hhub : u.hub = s.hub) (hwatches : u.part.watches = s.part.watches)
    (hname : u.part.name = s.part.name)
    (hcounted : u.account.removals = s.account.removals.add [⟨key, value, kind⟩]) :
    Plays clears s [⟨key, value, kind⟩] (u.announce key value kind) where
  listens := fun _ hpr => (hpr.of_eq hhub hwatches hname).announce key value kind
  heard   := by
    intro pr hpr
    obtain ⟨news, hnews, hown⟩ := queue_announce (hpr.of_eq hhub hwatches hname) key value kind
    refine ⟨news, by rw [hnews, hhub], ?_⟩
    rw [hown, Predicate.hears]
    split
    · next hwants => simp [hwants, Predicate.event]
    · next hwants => simp [hwants]
  counted := fun _ => hcounted

theorem plays_write (key payload : Bytes) (hhub : u.hub = s.hub)
    (hwatches : u.part.watches = s.part.watches) (hname : u.part.name = s.part.name)
    (hcounted : u.account.removals = s.account.removals) :
    Plays clears s [⟨key, some payload, .write⟩] (u.announce key (some payload) .write) :=
  plays_announce hhub hwatches hname (by rw [hcounted, Removals.add_write])

theorem plays_takeOut (s : Site) (key : Bytes) (e : Entry) (cause : Removal) :
    Plays clears s [⟨key, none, cause.kind⟩] (s.takeOut key e cause) :=
  plays_announce rfl rfl rfl (Account.removals_remove _ key none cause)

/-- A write announces itself, and before that the expiry of what it takes the place of. -/
theorem plays_writeOne (clears : Prop) (now : Millis) (s : Site) (item : Bytes × Bytes) :
    ∃ script, Plays clears s script (writeOne now s item) := by
  cases hget : s.part.entries.get? item.1 with
  | none =>
    simp only [writeOne, hget]
    exact ⟨_, plays_write item.1 item.2 rfl rfl rfl rfl⟩
  | some old =>
    simp only [writeOne, hget]
    split
    · have hexpired : Plays clears s [⟨item.1, none, .expire⟩]
          (((s.hold (s.part.entries.insert item.1 ⟨item.2, now⟩)).book fun a =>
            (a.remove .expired).insert).announce item.1 none .expire) :=
        plays_announce rfl rfl rfl (Account.removals_remove _ item.1 none .expired)
      exact ⟨_, hexpired.trans (plays_write item.1 item.2 rfl rfl rfl rfl)⟩
    · split <;> exact ⟨_, plays_write item.1 item.2 rfl rfl rfl rfl⟩

theorem plays_foldl_writeOne (clears : Prop) (now : Millis) (batch : List (Bytes × Bytes))
    (s : Site) : ∃ script, Plays clears s script (batch.foldl (writeOne now) s) := by
  induction batch generalizing s with
  | nil => exact ⟨[], plays_nil rfl rfl rfl fun _ => rfl⟩
  | cons item rest ih =>
    obtain ⟨first, hfirst⟩ := plays_writeOne clears now s item
    obtain ⟨later, hlater⟩ := ih (writeOne now s item)
    exact ⟨first ++ later, hfirst.trans hlater⟩

theorem removals_grow {grown : Site} {bytes : ByteCount} (h : s.grow bytes = some grown) :
    grown.account.removals = s.account.removals := by
  obtain ⟨a, ha, rfl⟩ := grow_eq_some h
  exact Account.removals_tryGrow ha

/-- Every step plays a script: what it does to the entries is announced, and counted. -/
theorem Step.plays (h : Step clears s t) : ∃ script, Plays clears s script t := by
  cases h with
  | reset hclears => exact ⟨[], plays_nil rfl rfl rfl fun hnot => absurd hclears hnot⟩
  | @takeOut key e cause he => exact ⟨_, plays_takeOut s key e cause⟩
  | @amend key e fresh now he hlen => exact ⟨_, plays_write key fresh.payload rfl rfl rfl rfl⟩
  | @create key grown fresh hkey hnone hgrown =>
    have hcounted := removals_grow hgrown
    obtain ⟨a, -, rfl⟩ := grow_eq_some hgrown
    exact ⟨_, plays_write key fresh.payload rfl rfl rfl hcounted⟩
  | @write items mode plan grown now hplan hgrown =>
    have hcounted := removals_grow hgrown
    obtain ⟨a, -, rfl⟩ := grow_eq_some hgrown
    -- admitting bytes and giving some of them back is nobody's business
    have hadmitted : Plays clears s [] (s.settle a) := plays_nil rfl rfl rfl fun _ => hcounted
    obtain ⟨script, hwritten⟩ := plays_foldl_writeOne clears now plan.batch (s.settle a)
    have hshrunk : Plays clears (plan.batch.foldl (writeOne now) (s.settle a)) []
        (commit now plan (s.settle a)) := plays_nil rfl rfl rfl fun _ => rfl
    exact ⟨_, (hadmitted.trans hwritten).trans hshrunk⟩
  | _ => exact ⟨[], plays_nil rfl rfl rfl fun _ => rfl⟩

end Site

end CacheNode

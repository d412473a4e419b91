import CacheNode.Proofs.Accounting
import CacheNode.Proofs.Subscriptions

/-!
# CacheNode — copies kept by subscribers

A subscriber that watches all keys of a partition and all kinds of events can keep a copy of what
the partition holds: a write sets a key, and everything else removes one. The copy is right after
every operation, and an event that removes a key always finds it in the copy.

Channels are shared. Events of other predicates come through the same queue, so a subscriber goes
by the watch id and by the partition. Going by the watch id alone is not enough, since one id can
be in use for several partitions.

* `replay`, `Replays` — a copy after some events;
* `Site.Follows`, `Site.Step.follows` — what one step of a partition announces;
* `Node.Idle`, `Node.Change.cases_of_listens` — what a change means to a predicate that stays: a
  step of its partition, a step of another one, or nothing at all;
* `Node.Watched` — a run in which a predicate stays in place;
* `Node.watch_replays` — the events that were queued on the way lead from what the partition held
  to what it holds.
-/

namespace CacheNode

/-- What the entries say: the payload under each key that has one. -/
def Partition.payloads (p : Partition) (key : Bytes) : Option Bytes :=
  (p.entries.get? key).map Entry.payload

namespace ChangeEvent

/-- A copy after an event. -/
def applyTo (event : ChangeEvent) (copy : Bytes → Option Bytes) (key : Bytes) : Option Bytes :=
  if key = event.key then
    match event.kind with
    | .write => event.value
    | _ => none
  else copy key

/-- Whether an event makes sense to who keeps a copy: a write brings a payload, and a key that is
removed is there. -/
def Fits (event : ChangeEvent) (copy : Bytes → Option Bytes) : Prop :=
  match event.kind with
  | .write => event.value.isSome
  | _ => (copy event.key).isSome

/-- Whether an event is one that a predicate asked for. -/
def isFor (event : ChangeEvent) (pr : Predicate) : Bool :=
  event.watchId = pr.watchId && event.partition = pr.partition

end ChangeEvent

/-- A copy after some events. -/
def replay (events : List ChangeEvent) (copy : Bytes → Option Bytes) : Bytes → Option Bytes :=
  events.foldl (fun copy event => event.applyTo copy) copy

/-- Each event makes sense when its turn comes. -/
def Coherent : List ChangeEvent → (Bytes → Option Bytes) → Prop
  | [], _ => True
  | event :: rest, copy => event.Fits copy ∧ Coherent rest (event.applyTo copy)

/-- Some events lead from one copy to another, and each of them makes sense on the way. -/
structure Replays (events : List ChangeEvent) (before after : Bytes → Option Bytes) : Prop where
  result   : replay events before = after
  coherent : Coherent events before

namespace Replays

variable {events more : List ChangeEvent} {before between after : Bytes → Option Bytes}

theorem nil (copy : Bytes → Option Bytes) : Replays [] copy copy := ⟨rfl, trivial⟩

theorem single {event : ChangeEvent} (hfits : event.Fits before) :
    Replays [event] before (event.applyTo before) := ⟨rfl, hfits, trivial⟩

theorem append (h : Replays events before between) (hmore : Replays more between after) :
    Replays (events ++ more) before after := by
  obtain ⟨rfl, hcoherent⟩ := h
  obtain ⟨rfl, hmore⟩ := hmore
  refine ⟨List.foldl_append, ?_⟩
  -- the first events are judged as before, the others by the copy that the first ones leave
  induction events generalizing before with
  | nil => exact hmore
  | cons event rest ih => exact ⟨hcoherent.1, ih hcoherent.2 hmore⟩

end Replays

namespace Predicate

/-- A predicate that wants every event of its partition. -/
structure TakesAll (p : Predicate) : Prop where
  key    : p.key = none
  filter : p.filter = .empty

theorem TakesAll.wants {p : Predicate} (h : p.TakesAll) (key : Bytes) (kind : EventKind) :
    p.wants key kind = true := by
  simp [Predicate.wants, h.key, h.filter]

end Predicate

-- ---------------------------------------------------------------------------
-- What a step announces
-- ---------------------------------------------------------------------------

namespace Site

/-- A predicate is attached to the partition, its channel is open, and no other predicate leads
there under its watch id. -/
structure Listens (s : Site) (pr : Predicate) : Prop where
  named  : s.part.name = pr.partition
  isOpen : s.hub.isOpen pr.owner = true
  alone  : s.part.watches.predicates.filter pr.alike = [pr]

/-- A predicate is still attached, and what was queued for it tells what became of the entries. -/
structure Follows (s : Site) (pr : Predicate) (t : Site) : Prop where
  listens : t.Listens pr
  heard   : ∃ news, t.hub.queue pr.owner = s.hub.queue pr.owner ++ news ∧
    Replays (news.filter (·.isFor pr)) s.part.payloads t.part.payloads

variable {s t u : Site} {pr : Predicate} {key : Bytes} {value : Option Bytes} {kind : EventKind}

theorem Follows.trans (h : s.Follows pr t) (hlater : t.Follows pr u) : s.Follows pr u := by
  obtain ⟨-, news, hnews, hreplays⟩ := h
  obtain ⟨hlistens, more, hmore, hmoreReplays⟩ := hlater
  refine ⟨hlistens, news ++ more, by rw [hmore, hnews, List.append_assoc], ?_⟩
  rw [List.filter_append]
  exact hreplays.append hmoreReplays

/-- Predicates stay in place while entries and counters change. -/
theorem Listens.of_eq (h : s.Listens pr) (hhub : t.hub = s.hub)
    (hwatches : t.part.watches = s.part.watches) (hname : t.part.name = s.part.name) :
    t.Listens pr := by
  refine ⟨hname.trans h.named, ?_, ?_⟩
  · rw [hhub]
    exact h.isOpen
  · rw [hwatches]
    exact h.alone

/-- A selection of predicates takes this one or none of its channel and watch id. -/
theorem Listens.alike_of_filter (h : s.Listens pr) (selected : Predicate → Bool) :
    (s.part.watches.predicates.filter selected).filter pr.alike = [pr].filter selected := by
  have hswap : (s.part.watches.predicates.filter selected).filter pr.alike =
      (s.part.watches.predicates.filter pr.alike).filter selected := by
    simp only [List.filter_filter, Bool.and_comm]
  rw [hswap, h.alone]

theorem Listens.alone_of_filter (h : s.Listens pr) (selected : Predicate → Bool)
    (hpr : selected pr = true) :
    (s.part.watches.predicates.filter selected).filter pr.alike = [pr] := by
  rw [h.alike_of_filter, List.filter_cons_of_pos hpr, List.filter_nil]

theorem Listens.announce (h : s.Listens pr) (key : Bytes) (value : Option Bytes)
    (kind : EventKind) : (s.announce key value kind).Listens pr where
  named  := h.named
  isOpen := ((gains_announce s key value kind).isOpen pr.owner).trans h.isOpen
  alone  := by
    -- only predicates whose channel refuses the event are dropped
    refine h.alone_of_filter _ ?_
    simp [h.isOpen]

/-- Of what an announcement queues, one event is for the predicate if it wants the event, and none
if it does not. -/
theorem queue_announce (h : s.Listens pr) (key : Bytes) (value : Option Bytes)
    (kind : EventKind) :
    ∃ news, (s.announce key value kind).hub.queue pr.owner = s.hub.queue pr.owner ++ news ∧
      news.filter (·.isFor pr) =
        if pr.wants key kind then [⟨pr.watchId, pr.partition, key, value, kind⟩] else [] := by
  refine ⟨_, (Hub.queue_detachAll _ _ _).trans (Hub.queue_postAll _ h.isOpen), ?_⟩
  rw [List.filter_map, List.filter_filter]
  -- the channel and the watch id single the predicate out
  have halike := h.alike_of_filter (·.wants key kind)
  have hnamed := h.named
  have hisFor : (fun q : Predicate =>
      ((fun e : ChangeEvent => e.isFor pr) ∘ fun q : Predicate =>
        ⟨q.watchId, s.part.name, key, value, kind⟩) q && decide (q.owner.slot = pr.owner.slot)) =
      pr.alike := by
    funext q
    simp [ChangeEvent.isFor, Predicate.alike, hnamed, Bool.and_comm]
  rw [hisFor, halike, hnamed]
  split
  · next hwants => simp [hwants]
  · next hwants => simp [hwants]

/-- An announcement that tells what has just become of the entries. -/
theorem follows_announce (hs : s.Listens pr) (hpr : pr.TakesAll) {u : Site}
    (hhub : u.hub = s.hub) (hwatches : u.part.watches = s.part.watches)
    (hname : u.part.name = s.part.name) {event : ChangeEvent}
    (hevent : event = ⟨pr.watchId, pr.partition, key, value, kind⟩)
    (hfits : event.Fits s.part.payloads)
    (hpayloads : u.part.payloads = event.applyTo s.part.payloads) :
    s.Follows pr (u.announce key value kind) := by
  have hu : u.Listens pr := hs.of_eq hhub hwatches hname
  obtain ⟨news, hnews, hown⟩ := queue_announce hu key value kind
  rw [if_pos (hpr.wants key kind)] at hown
  refine ⟨hu.announce key value kind, news, by rw [hnews, hhub], ?_⟩
  rw [hown, ← hevent]
  show Replays [event] s.part.payloads u.part.payloads
  rw [hpayloads]
  exact Replays.single hfits

/-- What is not announced is no change of a payload. -/
theorem follows_of_quiet (hs : s.Listens pr) (hhub : t.hub = s.hub)
    (hwatches : t.part.watches = s.part.watches) (hname : t.part.name = s.part.name)
    (hpayloads : t.part.payloads = s.part.payloads) : s.Follows pr t := by
  refine ⟨hs.of_eq hhub hwatches hname, [], by rw [hhub, List.append_nil], ?_⟩
  rw [hpayloads]
  exact Replays.nil _

-- ---------------------------------------------------------------------------
-- Payloads along a step
-- ---------------------------------------------------------------------------

theorem payloads_insert (s : Site) (key : Bytes) (e : Entry) (other : Bytes) :
    (s.hold (s.part.entries.insert key e)).part.payloads other =
      if other = key then some e.payload else s.part.payloads other := by
  rw [Partition.payloads, entries_hold, Table.get?_insert]
  split
  · rfl
  · rfl

theorem payloads_erase (s : Site) (key other : Bytes) :
    (s.hold (s.part.entries.erase key)).part.payloads other =
      if other = key then none else s.part.payloads other := by
  rw [Partition.payloads, entries_hold, Table.get?_erase]
  split
  · rfl
  · rfl

theorem payloads_of_some {key : Bytes} {e : Entry} (he : s.part.entries.get? key = some e) :
    s.part.payloads key = some e.payload := by
  rw [Partition.payloads, he]
  rfl

/-- A write that is announced after its entry was placed. -/
theorem follows_write (hs : s.Listens pr) (hpr : pr.TakesAll) {u : Site} (key : Bytes) (e : Entry)
    (hhub : u.hub = s.hub) (hwatches : u.part.watches = s.part.watches)
    (hname : u.part.name = s.part.name)
    (hpayloads : ∀ other, u.part.payloads other =
      if other = key then some e.payload else s.part.payloads other) :
    s.Follows pr (u.announce key (some e.payload) .write) := by
  refine follows_announce hs hpr hhub hwatches hname rfl rfl ?_
  funext other
  exact hpayloads other

theorem follows_takeOut (hs : s.Listens pr) (hpr : pr.TakesAll) {e : Entry} (cause : Removal)
    (he : s.part.entries.get? key = some e) : s.Follows pr (s.takeOut key e cause) := by
  refine follows_announce hs hpr rfl rfl rfl rfl ?_ ?_
  · -- the removed key is in the copy
    have hkey : (s.part.payloads key).isSome := by rw [payloads_of_some he]; rfl
    cases cause with
    | deleted => exact hkey
    | evicted => exact hkey
    | expired => exact hkey
  · funext other
    refine (payloads_erase s key other).trans ?_
    cases cause with
    | deleted => rfl
    | evicted => rfl
    | expired => rfl

theorem follows_writeOne (now : Millis) (hs : s.Listens pr) (hpr : pr.TakesAll)
    (item : Bytes × Bytes) : s.Follows pr (writeOne now s item) := by
  cases hget : s.part.entries.get? item.1 with
  | none =>
    simp only [writeOne, hget]
    exact follows_write hs hpr item.1 ⟨item.2, now⟩ rfl rfl rfl (payloads_insert s item.1 _)
  | some old =>
    simp only [writeOne, hget]
    split
    · -- the copy loses the stale entry before it gets the new one
      have htaken := follows_takeOut hs hpr .expired hget
      have hwritten := follows_write htaken.listens hpr item.1 ⟨item.2, now⟩
        (u := ((s.hold (s.part.entries.insert item.1 ⟨item.2, now⟩)).book fun a =>
          (a.remove .expired).insert).announce item.1 none .expire) rfl rfl rfl ?_
      · exact htaken.trans hwritten
      · intro other
        refine (payloads_insert s item.1 ⟨item.2, now⟩ other).trans ?_
        split
        · rfl
        · next hother => exact ((payloads_erase s item.1 other).trans (if_neg hother)).symm
    · split
      · exact follows_write hs hpr item.1 ⟨item.2, old.lastAccess⟩ rfl rfl rfl
          (payloads_insert s item.1 _)
      · exact follows_write hs hpr item.1 ⟨item.2, now⟩ rfl rfl rfl (payloads_insert s item.1 _)

theorem follows_foldl_writeOne (now : Millis) (batch : List (Bytes × Bytes)) (hs : s.Listens pr)
    (hpr : pr.TakesAll) : s.Follows pr (batch.foldl (writeOne now) s) := by
  induction batch generalizing s with
  | nil => exact follows_of_quiet hs rfl rfl rfl rfl
  | cons item rest ih =>
    have hfirst := follows_writeOne now hs hpr item
    exact hfirst.trans (ih hfirst.listens)

/-- Replacing an entry by one with the same payload. -/
theorem payloads_renew {key : Bytes} {e : Entry} (now : Millis)
    (he : s.part.entries.get? key = some e) :
    (s.hold (s.part.entries.insert key (e.touch now))).part.payloads = s.part.payloads := by
  funext other
  refine (payloads_insert s key _ other).trans ?_
  split
  · next heq =>
    rw [heq, payloads_of_some he]
    rfl
  · rfl

/-- Every step announces what it does to the entries. -/
theorem Step.follows {clears : Prop} (h : Step clears s t) (hs : s.Listens pr)
    (hpr : pr.TakesAll) : s.Follows pr t := by
  cases h with
  | renew now he => exact follows_of_quiet hs rfl rfl rfl (payloads_renew now he)
  | takeOut cause he => exact follows_takeOut hs hpr cause he
  | amend fresh now he hlen =>
    exact follows_write hs hpr _ fresh rfl rfl rfl (payloads_insert s _ fresh)
  | create fresh hkey hnone hgrown =>
    obtain ⟨a, -, rfl⟩ := grow_eq_some hgrown
    exact follows_write hs hpr _ fresh rfl rfl rfl (payloads_insert s _ fresh)
  | @write items mode plan grown now hplan hgrown =>
    obtain ⟨a, -, rfl⟩ := grow_eq_some hgrown
    -- admitting the bytes and giving some of them back is nobody's business
    have hadmitted : s.Follows pr (s.settle a) := follows_of_quiet hs rfl rfl rfl rfl
    have hwritten := follows_foldl_writeOne now plan.batch hadmitted.listens hpr
    have hshrunk : (plan.batch.foldl (writeOne now) (s.settle a)).Follows pr
        (commit now plan (s.settle a)) := follows_of_quiet hwritten.listens rfl rfl rfl rfl
    exact (hadmitted.trans hwritten).trans hshrunk
  | _ => exact follows_of_quiet hs rfl rfl rfl rfl

end Site

-- ---------------------------------------------------------------------------
-- Runs in which a predicate stays in place
-- ---------------------------------------------------------------------------

namespace Node

/-- A predicate is attached to its partition, and its channel is open. -/
def Attached (n : Node) (pr : Predicate) : Prop :=
  (∃ p, n.find? pr.partition = some p ∧ pr ∈ p.watches.predicates) ∧
    n.world.hub.isOpen pr.owner = true

/-- The events that an operation takes from a subscriber's queue. -/
def Operation.taken (op : Operation) (n : Node) (who : Subscriber) : List ChangeEvent :=
  match op with
  | .drain other => if other.slot = who.slot then (n.world.hub.drain other).1 else []
  | _ => []

/-- A run of genuine operations in which a predicate stays attached and its channel open, and the
events that were taken from its queue on the way. -/
inductive Watched (pr : Predicate) (n : Node) : List ChangeEvent → Node → Prop where
  | start : Watched pr n [] n
  | step {taken : List ChangeEvent} {m : Node} (run : Watched pr n taken m) (op : Operation)
      (hop : op.Genuine m) (hattached : (m.perform op).2.Attached pr) :
      Watched pr n (taken ++ op.taken m pr.owner) (m.perform op).2

/-- What was queued for a predicate between two nodes, some of which may have been taken, leads
from what its partition held to what it holds. -/
def Follows (n : Node) (pr : Predicate) (taken : List ChangeEvent) (m : Node) : Prop :=
  ∃ p q news, n.find? pr.partition = some p ∧ m.find? pr.partition = some q ∧
    taken ++ m.world.hub.queue pr.owner = n.world.hub.queue pr.owner ++ news ∧
    Replays (news.filter (·.isFor pr)) p.payloads q.payloads

variable {allows : Partition → Metadata → Prop} {clears : Bytes → Prop} {limit : Nat}
  {n m k : Node} {p : Partition} {pr : Predicate} {taken : List ChangeEvent}

/-- The partition of a predicate, in a node where it is attached and alone. -/
def Listens (n : Node) (pr : Predicate) : Prop :=
  ∃ p, n.find? pr.partition = some p ∧ (n.site p).Listens pr

theorem Attached.listens (h : n.Attached pr) (hn : n.WellFormed) (hs : n.Subscribed) :
    n.Listens pr := by
  obtain ⟨⟨p, hp, hmem⟩, hopen⟩ := h
  exact ⟨p, hp, (hn _ _ hp).named, hopen, (hs _ _ hp).filter_alike hmem⟩

theorem Follows.trans {later : List ChangeEvent} (h : n.Follows pr taken m)
    (hlater : m.Follows pr later k) : n.Follows pr (taken ++ later) k := by
  obtain ⟨p, q, news, hp, hq, hqueue, hreplays⟩ := h
  obtain ⟨q', r, more, hq', hr, hqueue', hmore⟩ := hlater
  rw [hq] at hq'
  cases hq'
  refine ⟨p, r, news ++ more, hp, hr, ?_, ?_⟩
  · rw [List.append_assoc, hqueue', ← List.append_assoc, hqueue, List.append_assoc]
  · rw [List.filter_append]
    exact hreplays.append hmore

-- ---------------------------------------------------------------------------
-- Changes
-- ---------------------------------------------------------------------------

/-- What happens in the partition itself. -/
theorem follows_settle {s : Site} (hp : n.find? pr.partition = some p)
    (h : (n.site p).Follows pr s) : (n.settle s).Listens pr ∧ n.Follows pr [] (n.settle s) := by
  obtain ⟨hlistens, news, hqueue, hreplays⟩ := h
  have hfind : (n.settle s).find? pr.partition = some s.part := by
    rw [find?_settle, if_pos hlistens.named.symm]
  exact ⟨⟨s.part, hfind, hlistens⟩, p, s.part, news, hp, hfind, hqueue, hreplays⟩

/-- Nothing has happened that a predicate is about, but that some of its events may have been taken:
it is still in place, and its partition and the counters of removals are as they were. -/
structure Idle (n : Node) (pr : Predicate) (taken : List ChangeEvent) (m : Node) : Prop where
  listens     : m.Listens pr
  part        : ∃ p q, n.find? pr.partition = some p ∧ m.find? pr.partition = some q ∧
    q.entries = p.entries ∧ q.tally = p.tally
  queue       : taken ++ m.world.hub.queue pr.owner = n.world.hub.queue pr.owner
  evictions   : m.totals.evictions = n.totals.evictions
  expirations : m.totals.expirations = n.totals.expirations

/-- What leaves the partition and the channels alone. -/
theorem idle_of_eq (hl : n.Listens pr) (hfind : m.find? pr.partition = n.find? pr.partition)
    (hhub : m.world.hub = n.world.hub) (hevictions : m.totals.evictions = n.totals.evictions)
    (hexpirations : m.totals.expirations = n.totals.expirations) : n.Idle pr [] m := by
  obtain ⟨p, hp, hlistens⟩ := hl
  rw [hp] at hfind
  refine ⟨⟨p, hfind, hlistens.named, ?_, hlistens.alone⟩, ⟨p, p, hp, hfind, rfl, rfl⟩,
    by rw [hhub, List.nil_append], hevictions, hexpirations⟩
  show m.world.hub.isOpen pr.owner = true
  rw [hhub]
  exact hlistens.isOpen

theorem Idle.refl (hl : n.Listens pr) : n.Idle pr [] n := idle_of_eq hl rfl rfl rfl rfl

theorem Idle.follows (h : n.Idle pr taken m) : n.Follows pr taken m := by
  obtain ⟨p, q, hp, hq, hentries, -⟩ := h.part
  have hpayloads : q.payloads = p.payloads := by
    funext key
    rw [Partition.payloads, hentries, Partition.payloads]
  refine ⟨p, q, [], hp, hq, by rw [h.queue, List.append_nil], ?_⟩
  rw [hpayloads]
  exact Replays.nil _

/-- A step of another partition queues no event of this one. -/
theorem Listens.elsewhere {clears : Prop} {other : Bytes} {q : Partition} {s : Site}
    (hl : n.Listens pr) (hn : n.WellFormed) (hq : n.find? other = some q)
    (hne : other ≠ pr.partition) (hs : (n.site q).Step clears s) :
    (n.settle s).Listens pr ∧ (n.settle s).find? pr.partition = n.find? pr.partition ∧
      ∃ news, (n.settle s).world.hub.queue pr.owner = n.world.hub.queue pr.owner ++ news ∧
        news.filter (·.isFor pr) = [] := by
  obtain ⟨p, hp, hlistens⟩ := hl
  have hsource : (n.site q).part.name = other := (hn _ _ hq).named
  have hfind : (n.settle s).find? pr.partition = n.find? pr.partition := by
    rw [find?_settle, Partition.name_eq hs.settings, hsource, if_neg (Ne.symm hne)]
  obtain ⟨news, hnews, hnames⟩ := hs.gains.queue pr.owner
  refine ⟨⟨p, hfind.trans hp, hlistens.named, ?_, hlistens.alone⟩, hfind, news, hnews, ?_⟩
  · exact (hs.gains.isOpen pr.owner).trans hlistens.isOpen
  · apply List.filter_eq_nil_iff.2
    intro event hevent
    simp [ChangeEvent.isFor, hnames event hevent, hsource, hne]

/-- Dropping the predicates of closed channels is nothing that a predicate of an open one is
about. -/
theorem Listens.pruneWatches {name : Bytes} {q : Partition} (hl : n.Listens pr)
    (hn : n.WellFormed) (hq : n.find? name = some q) :
    n.Idle pr [] (n.settle (n.site q).pruneWatches.2) := by
  obtain ⟨p, hp, hlistens⟩ := hl
  have hname : (n.site q).pruneWatches.2.part.name = name := (hn _ _ hq).named
  have hopen : (n.site q).pruneWatches.2.hub.isOpen pr.owner = true :=
    (Hub.isOpen_detachAll _ _ _).trans hlistens.isOpen
  have hqueue : (n.site q).pruneWatches.2.hub.queue pr.owner = n.world.hub.queue pr.owner :=
    Hub.queue_detachAll _ _ _
  by_cases hsame : pr.partition = name
  · subst hsame
    rw [hp] at hq
    cases hq
    have hfind : (n.settle (n.site q).pruneWatches.2).find? pr.partition =
        some (n.site q).pruneWatches.2.part := by
      rw [find?_settle, if_pos hname.symm]
    have halone : (n.site q).pruneWatches.2.part.watches.predicates.filter pr.alike = [pr] := by
      apply hlistens.alone_of_filter
      simp [hlistens.isOpen]
    exact ⟨⟨_, hfind, hlistens.named, hopen, halone⟩, ⟨q, _, hp, hfind, rfl, rfl⟩, hqueue, rfl, rfl⟩
  · have hfind : (n.settle (n.site q).pruneWatches.2).find? pr.partition = some p := by
      rw [find?_settle, hname, if_neg hsame]
      exact hp
    exact ⟨⟨p, hfind, hlistens.named, hopen, hlistens.alone⟩, ⟨p, p, hp, hfind, rfl, rfl⟩,
      hqueue, rfl, rfl⟩

/-- Nor are new metadata: they change neither entries nor predicates. -/
theorem Listens.reconfigured {name : Bytes} {q : Partition} {metadata : Metadata}
    {amount credit : ByteCount} {totals : Totals} (hl : n.Listens pr) (hn : n.WellFormed)
    (hq : n.find? name = some q) (hreserve : n.reserve q.name amount credit = .ok totals) :
    n.Idle pr [] (n.reconfigured q metadata totals) := by
  obtain ⟨p, hp, hlistens⟩ := hl
  obtain ⟨rfl, -, -⟩ := reserve_eq_ok hreserve
  have hname : q.name = name := (hn _ _ hq).named
  have hfind := find?_reconfigured n q metadata
    { n.totals with reservedSize := n.totals.reservedSize + amount } pr.partition
  rw [hname] at hfind
  obtain ⟨r, hr, hrname, hwatches, hentries, htally⟩ : ∃ r, (n.reconfigured q metadata
      { n.totals with reservedSize := n.totals.reservedSize + amount }).find? pr.partition =
        some r ∧ r.name = p.name ∧ r.watches = p.watches ∧ r.entries = p.entries ∧
        r.tally = p.tally := by
    by_cases hsame : pr.partition = name
    · subst hsame
      rw [hp] at hq
      cases hq
      exact ⟨_, hfind.trans (if_pos rfl), rfl, rfl, rfl, rfl⟩
    · exact ⟨p, (hfind.trans (if_neg hsame)).trans hp, rfl, rfl, rfl, rfl⟩
  have halone : r.watches.predicates.filter pr.alike = [pr] := by
    rw [hwatches]
    exact hlistens.alone
  exact ⟨⟨r, hr, hrname.trans hlistens.named, hlistens.isOpen, halone⟩,
    ⟨p, r, hp, hr, hentries, htally⟩, rfl, Account.evictions_convert _ _ _,
    Account.expirations_convert _ _ _⟩

/-- Where a predicate listens, a change is a step of its partition, or one of another partition, or
nothing that it is about. -/
theorem Change.cases_of_listens (h : Change allows clears n m) (hn : n.WellFormed)
    (hl : n.Listens pr) :
    (∃ p s, n.find? pr.partition = some p ∧ (n.site p).Step (clears pr.partition) s ∧
        m = n.settle s) ∨
      (∃ other q s, other ≠ pr.partition ∧ n.find? other = some q ∧
        (n.site q).Step (clears other) s ∧ m = n.settle s) ∨
      n.Idle pr [] m := by
  obtain ⟨p, hp, hlistens⟩ := id hl
  cases h with
  | @visit name q s hq hs =>
    by_cases hsame : name = pr.partition
    · subst hsame
      exact .inl ⟨q, s, hq, hs, rfl⟩
    · exact .inr (.inl ⟨name, q, s, hsame, hq, hs, rfl⟩)
  | prune hq => exact .inr (.inr (hl.pruneWatches hn hq))
  | @found name metadata totals hname hnone hreserve =>
    have hne : pr.partition ≠ name := by
      rintro rfl
      rw [hnone] at hp
      cases hp
    obtain ⟨rfl, -, -⟩ := reserve_eq_ok hreserve
    exact .inr (.inr (idle_of_eq hl ((Table.get?_insert _ _ _ _).trans (if_neg hne)) rfl rfl rfl))
  | @reconfigure name q metadata totals hq hallows hreserve =>
    exact .inr (.inr (hl.reconfigured hn hq hreserve))
  | @remove name q hq hempty hwatches =>
    have hne : pr.partition ≠ name := by
      -- nobody watches a partition that is removed
      rintro rfl
      rw [hq] at hp
      cases hp
      have halone := hlistens.alone
      rw [show (n.site p).part.watches.predicates = [] from hwatches] at halone
      cases halone
    exact .inr (.inr (idle_of_eq hl ((Table.get?_erase _ _ _).trans (if_neg hne)) rfl rfl rfl))
  | surround world hhub => exact .inr (.inr (idle_of_eq hl rfl hhub rfl rfl))

/-- No change loses track of the partition. -/
theorem Change.follows (h : Change allows clears n m) (hn : n.WellFormed) (hl : n.Listens pr)
    (hpr : pr.TakesAll) : m.Listens pr ∧ n.Follows pr [] m := by
  rcases h.cases_of_listens hn hl with
    ⟨p, s, hp, hs, rfl⟩ | ⟨other, q, s, hne, hq, hs, rfl⟩ | hidle
  · obtain ⟨p', hp', hlistens⟩ := hl
    rw [hp] at hp'
    cases hp'
    exact follows_settle hp (hs.follows hlistens hpr)
  · obtain ⟨p, hp, -⟩ := id hl
    obtain ⟨hlistens, hfind, news, hnews, hforeign⟩ := hl.elsewhere hn hq hne hs
    refine ⟨hlistens, p, p, news, hp, hfind.trans hp, hnews, ?_⟩
    rw [hforeign]
    exact Replays.nil _
  · exact ⟨hidle.listens, hidle.follows⟩

theorem Changes.follows (h : Changes allows clears limit n m) (hn : n.WellFormed)
    (hl : n.Listens pr) (hpr : pr.TakesAll) : m.Listens pr ∧ n.Follows pr [] m := by
  induction h with
  | refl => exact ⟨hl, (Idle.refl hl).follows⟩
  | tail changes change hk ih =>
    obtain ⟨hlistens, hfollows⟩ := ih
    obtain ⟨hlater, hchange⟩ := change.follows (changes.wellFormed hn) hlistens hpr
    exact ⟨hlater, hfollows.trans hchange⟩

-- ---------------------------------------------------------------------------
-- Operations
-- ---------------------------------------------------------------------------

theorem Operation.taken_eq_nil {op : Operation} {who : Subscriber}
    (h : ∀ other, op = .drain other → other.slot ≠ who.slot) : op.taken n who = [] := by
  cases op with
  | drain other => exact if_neg (h other rfl)
  | _ => rfl

/-- A subscriber that takes its events has taken all that were queued. -/
theorem idle_drain (hl : n.Listens pr) {who : Subscriber} (hslot : who.slot = pr.owner.slot) :
    n.Idle pr ((Operation.drain who).taken n pr.owner) (n.perform (.drain who)).2 := by
  obtain ⟨p, hp, hlistens⟩ := hl
  have hqueue : n.world.hub.queue who = n.world.hub.queue pr.owner := by
    simp only [Hub.queue, Hub.channel?, hslot]
  have hopen : (n.perform (.drain who)).2.world.hub.isOpen pr.owner = true := by
    show (n.world.hub.update who fun c => { c with queue := [] }).isOpen pr.owner = true
    rw [← show n.world.hub.isOpen pr.owner = true from hlistens.isOpen]
    rw [Hub.isOpen, Hub.isOpen, Hub.channel?_update, if_pos hslot]
    cases n.world.hub.channel? pr.owner with
    | none => rfl
    | some c => rfl
  have hemptied : (n.perform (.drain who)).2.world.hub.queue pr.owner = [] := by
    show (n.world.hub.update who fun c => { c with queue := [] }).queue pr.owner = []
    rw [Hub.queue, Hub.channel?_update, if_pos hslot]
    cases n.world.hub.channel? pr.owner with
    | none => rfl
    | some c => rfl
  have htaken : (Operation.drain who).taken n pr.owner = n.world.hub.queue pr.owner :=
    (if_pos hslot).trans hqueue
  refine ⟨⟨p, hp, hlistens.named, hopen, hlistens.alone⟩, ⟨p, p, hp, hp, rfl, rfl⟩, ?_, rfl, rfl⟩
  rw [hemptied, htaken, List.append_nil]

/-- Who has left receives nothing. -/
theorem isOpen_leave {who : Subscriber} (hslot : who.slot = pr.owner.slot) :
    (n.perform (.leave who)).2.world.hub.isOpen pr.owner = false := by
  show (n.world.hub.update who fun c => { c with isOpen := false, queue := [] }).isOpen _ = false
  rw [Hub.isOpen, Hub.channel?_update, if_pos hslot]
  cases n.world.hub.channel? pr.owner with
  | none => rfl
  | some c => rfl

/-- Changes of subscriptions touch no entry, and no queue that is not emptied. -/
theorem Rewatches.idle {known emptied : Subscriber → Prop} (h : Rewatches known emptied n m)
    (hn : n.WellFormed) (hs : n.Subscribed) (hattached : n.Attached pr) (hl : m.Listens pr)
    (hkept : ∀ who, emptied who → who.slot ≠ pr.owner.slot) : n.Idle pr [] m := by
  obtain ⟨⟨p, hp, hmem⟩, -⟩ := hattached
  obtain ⟨q, hq, hholdings⟩ := h.holdings hn hp
  exact ⟨hl, ⟨p, q, hp, hq, hholdings⟩, h.queue ((hs _ _ hp).known pr hmem) hkept,
    congrArg Totals.evictions h.totals, congrArg Totals.expirations h.totals⟩

/-- An operation on subscriptions after which a predicate is still in place is nothing that the
predicate is about. -/
theorem perform_idle {op : Operation} (hop : op.Genuine n) (hsub : op.isSubscription = true)
    (hn : n.WellFormed) (hs : n.Subscribed) (hbefore : n.Attached pr)
    (hafter : (n.perform op).2.Attached pr) :
    n.Idle pr (op.taken n pr.owner) (n.perform op).2 := by
  by_cases hmine : ∃ who, (op = .drain who ∨ op = .leave who) ∧ who.slot = pr.owner.slot
  · obtain ⟨who, rfl | rfl, hslot⟩ := hmine
    · exact idle_drain (hbefore.listens hn hs) hslot
    · -- the channel would be closed now
      have hclosed := hafter.2
      rw [isOpen_leave hslot] at hclosed
      cases hclosed
  · -- others empty other queues
    have hkept (who : Subscriber) (hwho : op = .drain who ∨ op = .leave who) :
        who.slot ≠ pr.owner.slot := by
      intro hslot
      exact hmine ⟨who, hwho, hslot⟩
    have hrewatches : Rewatches n.world.hub.Knows
        (fun who => op = .drain who ∨ op = .leave who) n (n.perform op).2 :=
      perform_rewatches op hsub hn hop fun _ hwho => hwho
    rw [Operation.taken_eq_nil fun who hwho => hkept who (.inl hwho)]
    exact hrewatches.idle hn hs hbefore
      (hafter.listens (perform_wellFormed op hn) (perform_subscribed hop hn hs)) hkept

theorem taken_of_not_isSubscription {op : Operation} (hsub : op.isSubscription = false)
    (who : Subscriber) : op.taken n who = [] := by
  apply Operation.taken_eq_nil
  rintro other rfl
  cases hsub

/-- One operation, after which the predicate is still in place. -/
theorem perform_follows {op : Operation} (hop : op.Genuine n) (hn : n.WellFormed)
    (hs : n.Subscribed) (hpr : pr.TakesAll) (hbefore : n.Attached pr)
    (hafter : (n.perform op).2.Attached pr) :
    n.Follows pr (op.taken n pr.owner) (n.perform op).2 := by
  cases hsub : op.isSubscription with
  | false =>
    rw [taken_of_not_isSubscription hsub]
    exact ((perform_changes_below op hsub hn).follows hn (hbefore.listens hn hs) hpr).2
  | true => exact (perform_idle hop hsub hn hs hbefore hafter).follows

/-- A predicate that wants everything, attached to a partition of a reachable node, and a run in
which it stays in place: the events queued since then, of that channel, watch id and partition,
turn what the partition held into what it holds, and none of them removes a key that is not there. -/
theorem watch_replays (hn : n.Reachable) (hpr : pr.TakesAll) (hattached : n.Attached pr)
    (hrun : Watched pr n taken m) :
    ∃ p q news, n.find? pr.partition = some p ∧ m.find? pr.partition = some q ∧
      taken ++ m.world.hub.queue pr.owner = n.world.hub.queue pr.owner ++ news ∧
      Replays (news.filter (·.isFor pr)) p.payloads q.payloads := by
  -- along the run, the invariants of every run go with what the events tell
  have hkept : m.WellFormed ∧ m.Subscribed ∧ m.Attached pr ∧ n.Follows pr taken m := by
    induction hrun with
    | start =>
      obtain ⟨p, hp, -⟩ := hattached.listens hn.wellFormed hn.subscribed
      exact ⟨hn.wellFormed, hn.subscribed, hattached,
        p, p, [], hp, hp, (List.append_nil _).symm, Replays.nil _⟩
    | step run op hop hafter ih =>
      obtain ⟨hwf, hs, hbefore, hfollows⟩ := ih
      exact ⟨perform_wellFormed op hwf, perform_subscribed hop hwf hs, hafter,
        hfollows.trans (perform_follows hop hwf hs hpr hbefore hafter)⟩
  exact hkept.2.2.2

/-- A predicate on the partition `p` that wants everything. -/
def everything : Predicate := ⟨⟨0, 1⟩, 7, [112], none, .empty⟩

/-- The predicate is attached to a partition with one entry, which expires soon. -/
def attachment : List Operation :=
  [ .putPartition [112] { createDate := (bare {}).today, interval := 10 },
    .put .upsert [112] [97] [1] 5,
    .openWatcher,
    .watch ⟨0, 1⟩ 7 [112] none .empty ]

/-- The expired entry is overwritten, another one is created, the subscriber takes three events, and
the first entry is deleted. -/
def course : List Operation :=
  [ .put .upsert [112] [97] [2] 50,
    .put .upsert [112] [98] [3] 51,
    .drain ⟨0, 1⟩,
    .delete [112] [97] 52 ]

theorem watch_replays_course :
    ∃ p q news, (performAll attachment (bare {})).2.find? [112] = some p ∧
      (performAll course (performAll attachment (bare {})).2).2.find? [112] = some q ∧
      [⟨7, [112], [97], none, .expire⟩, ⟨7, [112], [97], some [2], .write⟩,
          ⟨7, [112], [98], some [3], .write⟩] ++
        (performAll course (performAll attachment (bare {})).2).2.world.hub.queue ⟨0, 1⟩ =
        (performAll attachment (bare {})).2.world.hub.queue ⟨0, 1⟩ ++ news ∧
      Replays (news.filter (·.isFor everything)) p.payloads q.payloads := by
  have hreached : (performAll attachment (bare {})).2.Reachable :=
    ⟨bare {}, fresh_bare {}, .step (.step (.step (.step .start
      _ (by rintro _ _ _ _ _ ⟨⟩)) _ (by rintro _ _ _ _ _ ⟨⟩)) _ (by rintro _ _ _ _ _ ⟨⟩))
      _ (by rintro _ _ _ _ _ ⟨⟩; exact ⟨_, rfl, rfl⟩)⟩
  have hattached : (performAll attachment (bare {})).2.Attached everything :=
    ⟨⟨_, rfl, by decide⟩, by decide⟩
  have hrun : Watched everything (performAll attachment (bare {})).2
      ([] ++ [] ++ [] ++ [⟨7, [112], [97], none, .expire⟩, ⟨7, [112], [97], some [2], .write⟩,
          ⟨7, [112], [98], some [3], .write⟩] ++ [])
      (performAll course (performAll attachment (bare {})).2).2 :=
    .step (.step (.step (.step .start
      (.put .upsert [112] [97] [2] 50) (by rintro _ _ _ _ _ ⟨⟩) ⟨⟨_, rfl, by decide⟩, by decide⟩)
      (.put .upsert [112] [98] [3] 51) (by rintro _ _ _ _ _ ⟨⟩) ⟨⟨_, rfl, by decide⟩, by decide⟩)
      (.drain ⟨0, 1⟩) (by rintro _ _ _ _ _ ⟨⟩) ⟨⟨_, rfl, by decide⟩, by decide⟩)
      (.delete [112] [97] 52) (by rintro _ _ _ _ _ ⟨⟩) ⟨⟨_, rfl, by decide⟩, by decide⟩
  exact watch_replays hreached ⟨rfl, rfl⟩ hattached hrun

/-- Two partitions, watched by one subscriber under one watch id. -/
def sharing : List Operation :=
  [ .putPartition [112] { createDate := (bare {}).today },
    .putPartition [113] { createDate := (bare {}).today },
    .openWatcher,
    .watch ⟨0, 1⟩ 7 [112] none .empty,
    .watch ⟨0, 1⟩ 7 [113] none .empty ]

/-- Going by the watch id alone, a write to one partition gets into the copy of the other. -/
theorem shared_watch_id_misleads :
    ∃ n m pr p q news, n.Reachable ∧ pr.TakesAll ∧ n.Attached pr ∧ Watched pr n [] m ∧
      n.find? pr.partition = some p ∧ m.find? pr.partition = some q ∧
      m.world.hub.queue pr.owner = n.world.hub.queue pr.owner ++ news ∧
      replay (news.filter (·.watchId = pr.watchId)) p.payloads ≠ q.payloads := by
  have hreached : (performAll sharing (bare {})).2.Reachable :=
    ⟨bare {}, fresh_bare {}, .step (.step (.step (.step (.step .start
      _ (by rintro _ _ _ _ _ ⟨⟩)) _ (by rintro _ _ _ _ _ ⟨⟩)) _ (by rintro _ _ _ _ _ ⟨⟩))
      _ (by rintro _ _ _ _ _ ⟨⟩; exact ⟨_, rfl, rfl⟩))
      _ (by rintro _ _ _ _ _ ⟨⟩; exact ⟨_, rfl, rfl⟩)⟩
  have hrun : Watched everything (performAll sharing (bare {})).2 []
      ((performAll sharing (bare {})).2.perform (.put .upsert [113] [107] [118] 1)).2 :=
    .step .start (.put .upsert [113] [107] [118] 1) (by rintro _ _ _ _ _ ⟨⟩)
      ⟨⟨_, rfl, by decide⟩, by decide⟩
  refine ⟨_, _, everything, _, _, [⟨7, [113], [107], some [118], .write⟩], hreached, ⟨rfl, rfl⟩,
    ⟨⟨_, rfl, by decide⟩, by decide⟩, hrun, rfl, rfl, by decide, ?_⟩
  intro hsame
  -- the copy has got a key that the partition never had
  exact absurd (congrFun hsame [107]) (by decide)

end Node

end CacheNode

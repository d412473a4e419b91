import CacheNode.Proofs.Deleting

/-!
# CacheNode — the bookkeeping of predicates

A channel counts the predicates that lead to it, in whatever partition they are. Predicates come
when they are asked for, and they go in many ways: one by one, all of a channel together, because
the list of a partition is pruned, or because an event has found the channel closed. The count is
right after every operation, and the counter never has to stop at zero.

Predicates are told apart by the ids of their channels. A node gives its channels the numbers from
one on, and two of them have different ids until the numbers come round again. Only as long is it
sure that a predicate takes the place of one that leads to the same channel.

* `Hub.ids`, `WatchList.leading` — the ids of the channels, and the predicates that lead to one;
* `Site.Books`, `Site.Step.books` — a step of a partition keeps channels, and counts in step;
* `Node.Booked` — channels are numbered and count their predicates, along every run;
* `Node.predicates_booked` — what that means for lists, counts and deletions.
-/

namespace CacheNode

-- ---------------------------------------------------------------------------
-- Channels
-- ---------------------------------------------------------------------------

namespace Hub

/-- The ids of the channels, in the order in which they were opened. -/
def ids (hub : Hub) : List UInt64 := hub.channels.map Channel.id

variable {hub : Hub} {who other : Subscriber} {change : Channel → Channel}

theorem length_ids (hub : Hub) : hub.ids.length = hub.channels.length := List.length_map _

theorem knows_iff : hub.Knows who ↔ hub.ids[who.slot]? = some who.id := by
  rw [Knows, ids, List.getElem?_map, Option.map_eq_some_iff]
  rfl

theorem ids_update (hid : ∀ c, (change c).id = c.id) : (hub.update who change).ids = hub.ids := by
  apply List.ext_getElem?
  intro slot
  simp only [ids, update, List.getElem?_map, List.getElem?_modify]
  cases hub.channels[slot]? with
  | none => rfl
  | some c =>
    by_cases hslot : who.slot = slot
    · simp [hslot, hid c]
    · simp [hslot]

theorem ids_detachAll (subscribers : List Subscriber) :
    (hub.detachAll subscribers).ids = hub.ids := by
  induction subscribers generalizing hub with
  | nil => rfl
  | cons first rest ih => exact ih.trans (ids_update fun _ => rfl)

theorem ids_post (event : ChangeEvent) : (hub.post who event).ids = hub.ids := by
  apply ids_update
  intro c
  split <;> rfl

variable {partition key : Bytes} {value : Option Bytes} {kind : EventKind}

theorem ids_postAll (predicates : List Predicate) :
    (hub.postAll predicates partition key value kind).ids = hub.ids := by
  induction predicates generalizing hub with
  | nil => rfl
  | cons p rest ih => exact ih.trans (ids_post _)

theorem predicates_postAll (predicates : List Predicate) :
    (hub.postAll predicates partition key value kind).predicates who = hub.predicates who := by
  induction predicates generalizing hub with
  | nil => rfl
  | cons p rest ih => exact ih.trans (predicates_post hub p.owner who _)

theorem predicates_update (hkeeps : ∀ c, (change c).predicates = c.predicates) :
    (hub.update other change).predicates who = hub.predicates who := by
  simp only [predicates, channel?_update]
  split
  · cases hub.channel? who with
    | none => rfl
    | some c => exact hkeeps c
  · rfl

/-- Attaching to a channel that there is. -/
theorem predicates_attach (h : hub.Knows other) :
    (hub.attach other).predicates who =
      hub.predicates who + if other.slot = who.slot then 1 else 0 := by
  obtain ⟨c, hc, -⟩ := h
  simp only [predicates, attach, channel?_update]
  split
  · next hslot =>
    have hsame : hub.channel? who = some c := by
      rw [← hc, channel?, channel?, hslot]
    rw [hsame]
    rfl
  · rfl

theorem predicates_detach :
    (hub.detach other).predicates who =
      hub.predicates who - if other.slot = who.slot then 1 else 0 := by
  simp only [predicates, detach, channel?_update]
  split
  · cases hub.channel? who with
    | none => rfl
    | some c => rfl
  · rfl

theorem predicates_detachAll (subscribers : List Subscriber) :
    (hub.detachAll subscribers).predicates who =
      hub.predicates who - subscribers.countP (·.slot = who.slot) := by
  induction subscribers generalizing hub with
  | nil => rfl
  | cons first rest ih =>
    show ((hub.detach first).detachAll rest).predicates who = _
    rw [ih, predicates_detach, List.countP_cons, Nat.sub_sub]
    simp only [decide_eq_true_eq, Nat.add_comm]

/-- The channels that come after another one count nothing. -/
theorem predicates_of_length_le (hub : Hub) (h : hub.channels.length ≤ who.slot) :
    hub.predicates who = 0 := by
  rw [predicates, channel?, List.getElem?_eq_none h]
  rfl

/-- A new channel counts nothing, and the others count what they have counted. -/
theorem predicates_subscribe (id : UInt64) :
    (hub.subscribe id).2.predicates who = hub.predicates who := by
  rcases Nat.lt_trichotomy who.slot hub.channels.length with hlt | heq | hgt
  · show (((hub.channels ++ [_])[who.slot]?).map Channel.predicates).getD 0 = _
    rw [List.getElem?_append_left hlt]
    rfl
  · rw [predicates_of_length_le hub (Nat.le_of_eq heq.symm)]
    show (((hub.channels ++ [_])[who.slot]?).map Channel.predicates).getD 0 = _
    rw [heq, List.getElem?_concat_length]
    rfl
  · rw [predicates_of_length_le hub (Nat.le_of_lt hgt)]
    apply predicates_of_length_le
    show (hub.channels ++ [_]).length ≤ who.slot
    rw [List.length_append]
    exact hgt

end Hub

-- ---------------------------------------------------------------------------
-- Lists
-- ---------------------------------------------------------------------------

namespace WatchList

/-- How many predicates of a list lead to a channel. -/
def leading (w : WatchList) (who : Subscriber) : Nat :=
  w.predicates.countP (·.owner.slot = who.slot)

variable {w : WatchList} {hub : Hub} {who : Subscriber} {new : Predicate} {rest : Nat}

/-- The channels count out the predicates that are dropped. -/
theorem leading_discard (selected : Predicate → Bool)
    (h : hub.predicates who = w.leading who + rest) :
    (w.discard selected hub).2.2.predicates who =
      (w.discard selected hub).2.1.leading who + rest := by
  have hsplit : w.leading who = (w.predicates.filter selected).countP (·.owner.slot = who.slot) +
      (w.discard selected hub).2.1.leading who :=
    List.countP_eq_countP_filter_add _ _ _
  have hdropped : ((w.predicates.filter selected).map Predicate.owner).countP
      (·.slot = who.slot) = (w.predicates.filter selected).countP (·.owner.slot = who.slot) :=
    List.countP_map
  show (hub.detachAll _).predicates who = _
  rw [Hub.predicates_detachAll, hdropped]
  omega

theorem mem_add {pr : Predicate} (h : pr ∈ (w.add new hub).2.1.predicates) :
    pr = new ∨ pr ∈ w.predicates := by
  unfold WatchList.add at h
  split at h
  · exact mem_exchange h
  · rcases List.mem_append.1 h with hold | hnew
    · exact .inr hold
    · exact .inl (List.mem_singleton.1 hnew)

/-- A predicate that takes the place of one with the same channel. -/
theorem countP_exchange {predicates : List Predicate}
    (hsame : ∀ p ∈ predicates, p.isNamed new.owner.id new.watchId = true →
      p.owner.slot = new.owner.slot) :
    (exchange new predicates).countP (·.owner.slot = who.slot) =
      predicates.countP (·.owner.slot = who.slot) := by
  induction predicates with
  | nil => rfl
  | cons first rest ih =>
    rw [exchange]
    by_cases hnamed : first.isNamed new.owner.id new.watchId = true
    · rw [if_pos hnamed, List.countP_cons, List.countP_cons,
        hsame first List.mem_cons_self hnamed]
    · rw [if_neg hnamed, List.countP_cons, List.countP_cons,
        ih fun p hp => hsame p (List.mem_cons_of_mem _ hp)]

/-- The channel of a predicate that is new counts it in. -/
theorem leading_add (h : hub.predicates who = w.leading who + rest) (hnew : hub.Knows new.owner)
    (hsame : ∀ p ∈ w.predicates, p.isNamed new.owner.id new.watchId = true →
      p.owner.slot = new.owner.slot) :
    (w.add new hub).2.2.predicates who = (w.add new hub).2.1.leading who + rest := by
  unfold WatchList.add
  split
  · rw [h, leading, leading, countP_exchange hsame]
  · have happended : (⟨w.predicates ++ [new]⟩ : WatchList).leading who =
        w.leading who + if new.owner.slot = who.slot then 1 else 0 := by
      rw [leading, List.countP_append, List.countP_singleton]
      simp only [decide_eq_true_eq]
      rfl
    rw [Hub.predicates_attach hnew, happended, h]
    omega

end WatchList

-- ---------------------------------------------------------------------------
-- Steps of a partition
-- ---------------------------------------------------------------------------

namespace Site

/-- The channels are the same, and their counts of predicates have changed as the list has. -/
structure Books (s t : Site) : Prop where
  ids     : t.hub.ids = s.hub.ids
  counted : ∀ who rest, s.hub.predicates who = s.part.watches.leading who + rest →
    t.hub.predicates who = t.part.watches.leading who + rest

variable {s t u : Site}

theorem Books.trans (h : s.Books t) (hlater : t.Books u) : s.Books u where
  ids     := hlater.ids.trans h.ids
  counted := fun who rest hs => hlater.counted who rest (h.counted who rest hs)

theorem books_announce (s : Site) (key : Bytes) (value : Option Bytes) (kind : EventKind) :
    s.Books (s.announce key value kind) where
  ids     := (Hub.ids_detachAll _).trans (Hub.ids_postAll _)
  counted := by
    intro who rest h
    -- the event is queued first, which no count notices
    rw [← Hub.predicates_postAll (s.part.watches.predicates.filter (·.wants key kind))] at h
    exact WatchList.leading_discard _ h

theorem Step.books {clears : Prop} (h : Step clears s t) : s.Books t := by
  have hbooks : Across Books := by
    refine ⟨Books.trans, fun {s t} hunheard => ⟨by rw [hunheard.hub], ?_⟩, books_announce⟩
    intro who rest hcounted
    rw [hunheard.hub, hunheard.watches]
    exact hcounted
  exact hbooks.step h

end Site

-- ---------------------------------------------------------------------------
-- Nodes
-- ---------------------------------------------------------------------------

namespace Node

/-- How many predicates lead to a channel, in whatever partition. -/
def leading (n : Node) (who : Subscriber) : Nat :=
  n.partitions.total fun row => row.2.watches.leading who

/-- The channels after the first `base` ones have the numbers from one on for ids, as far as the
numbers go, and the next channel will have the next number. -/
def Numbered (base : Nat) (n : Node) : Prop :=
  ∃ old opened, old.length = base ∧ n.nextWatcher = .ofNat (opened + 1) ∧
    n.world.hub.ids = old ++ (List.range opened).map fun i => .ofNat (i + 1)

/-- A channel counts the predicates that lead to it. -/
def CountsWatches (n : Node) (who : Subscriber) : Prop :=
  n.world.hub.predicates who = n.leading who

/-- The channels after the first `base` ones are numbered, all predicates lead to such channels, and
unless there are more of them than numbers they count the predicates that lead to them. -/
structure Booked (base : Nat) (n : Node) : Prop where
  numbered : n.Numbered base
  since    : ∀ name p, n.find? name = some p → ∀ pr ∈ p.watches.predicates, base ≤ pr.owner.slot
  counted  : n.world.hub.channels.length ≤ base + UInt64.size →
    ∀ who, base ≤ who.slot → n.CountsWatches who

/-- Predicates are asked for in the name of subscribers whose channels come after the first `base`
ones. -/
def Operation.AsksSince (base : Nat) (n : Node) (op : Operation) : Prop :=
  ∀ owner ∈ op.asks, base ≤ owner.slot ∧ n.world.hub.Knows owner

instance (base : Nat) (n : Node) (op : Operation) : Decidable (op.AsksSince base n) :=
  inferInstanceAs (Decidable (∀ owner ∈ op.asks, _))

variable {allows : Partition → Metadata → Prop} {clears : Bytes → Prop} {limit base : Nat}
  {known emptied : Subscriber → Prop} {n m : Node} {name : Bytes} {p : Partition}
  {who other : Subscriber}

theorem length_channels_eq (hids : m.world.hub.ids = n.world.hub.ids) :
    m.world.hub.channels.length = n.world.hub.channels.length := by
  rw [← Hub.length_ids, ← Hub.length_ids, hids]

theorem Numbered.of_eq (h : n.Numbered base) (hids : m.world.hub.ids = n.world.hub.ids)
    (hnext : m.nextWatcher = n.nextWatcher) : m.Numbered base := by
  obtain ⟨old, opened, hold, hnextWatcher, hnumbers⟩ := h
  exact ⟨old, opened, hold, hnext.trans hnextWatcher, hids.trans hnumbers⟩

/-- As long as there are numbers for all of them, channels have different ids. -/
theorem Numbered.slot_eq (h : n.Numbered base)
    (hlength : n.world.hub.channels.length ≤ base + UInt64.size)
    (hwho : n.world.hub.Knows who) (hother : n.world.hub.Knows other) (hbase : base ≤ who.slot)
    (hotherBase : base ≤ other.slot) (hid : who.id = other.id) : who.slot = other.slot := by
  obtain ⟨old, opened, rfl, -, hnumbers⟩ := h
  have hopened : opened ≤ UInt64.size := by
    rw [← Hub.length_ids, hnumbers] at hlength
    simpa using hlength
  have hnumber {x : Subscriber} (hx : n.world.hub.Knows x) (hslot : old.length ≤ x.slot) :
      x.slot - old.length < opened ∧ .ofNat (x.slot - old.length + 1) = x.id := by
    rw [Hub.knows_iff, hnumbers, List.getElem?_append_right hslot, List.getElem?_map,
      Option.map_eq_some_iff] at hx
    obtain ⟨i, hi, hxid⟩ := hx
    obtain ⟨hlt, rfl⟩ := List.getElem?_eq_some_iff.1 hi
    rw [List.getElem_range] at hxid
    exact ⟨by simpa using hlt, hxid⟩
  obtain ⟨hlt, hwhoId⟩ := hnumber hwho hbase
  obtain ⟨hotherLt, hotherId⟩ := hnumber hother hotherBase
  have hsame := congrArg UInt64.toNat (hwhoId.trans (hid.trans hotherId.symm))
  rw [UInt64.toNat_ofNat', UInt64.toNat_ofNat'] at hsame
  have hsize : UInt64.size = 2 ^ 64 := rfl
  omega

/-- Putting a site back whose list and counts have changed in step. -/
theorem CountsWatches.settle {s : Site} (h : n.CountsWatches who) (hp : n.find? name = some p)
    (hname : s.part.name = name)
    (hs : ∀ rest, n.world.hub.predicates who = p.watches.leading who + rest →
      s.hub.predicates who = s.part.watches.leading who + rest) :
    (n.settle s).CountsWatches who := by
  have hbefore : n.leading who = ((n.partitions.erase name).total fun row =>
      row.2.watches.leading who) + p.watches.leading who := Table.total_eq_erase_add _ hp
  have hafter : (n.settle s).leading who = ((n.partitions.erase s.part.name).total fun row =>
      row.2.watches.leading who) + s.part.watches.leading who := Table.total_insert _ _ _ _
  rw [CountsWatches, hafter, hname, Nat.add_comm]
  refine hs _ ?_
  rw [h, hbefore, Nat.add_comm]

/-- What has nothing to do with channels, and lets no predicate come or go. -/
theorem CountsWatches.of_leading_eq (h : n.CountsWatches who) (hhub : m.world.hub = n.world.hub)
    (hleading : m.leading who = n.leading who) : m.CountsWatches who := by
  rw [CountsWatches, hhub, hleading]
  exact h

theorem Change.ids (h : Change allows clears n m) : m.world.hub.ids = n.world.hub.ids := by
  cases h with
  | visit hp hs => exact hs.books.ids
  | prune hp => exact Hub.ids_detachAll _
  | surround world hhub => exact congrArg Hub.ids hhub
  | _ => rfl

/-- No predicate comes by a change of partitions. -/
theorem Change.predicates {q : Partition} {pr : Predicate} (h : Change allows clears n m)
    (hq : m.find? name = some q) (hpr : pr ∈ q.watches.predicates) :
    ∃ old p, n.find? old = some p ∧ pr ∈ p.watches.predicates := by
  cases h with
  | @visit other p s hp hs =>
    rcases Table.get?_insert_cases hq with ⟨-, rfl⟩ | hold
    · exact ⟨other, p, hp, hs.watches.subset hpr⟩
    · exact ⟨name, q, hold, hpr⟩
  | @prune other p hp =>
    rcases Table.get?_insert_cases hq with ⟨-, rfl⟩ | hold
    · exact ⟨other, p, hp, List.mem_of_mem_filter hpr⟩
    · exact ⟨name, q, hold, hpr⟩
  | found hname hnone hreserve =>
    rcases Table.get?_insert_cases hq with ⟨-, rfl⟩ | hold
    · cases hpr
    · exact ⟨name, q, hold, hpr⟩
  | @reconfigure other p metadata totals hp hallows hreserve =>
    rw [find?, partitions_reconfigured] at hq
    rcases Table.get?_insert_cases hq with ⟨-, rfl⟩ | hold
    · exact ⟨other, p, hp, hpr⟩
    · exact ⟨name, q, hold, hpr⟩
  | remove hp hempty hwatches => exact ⟨name, q, Table.get?_of_erase hq, hpr⟩
  | surround world hhub => exact ⟨name, q, hq, hpr⟩

theorem Change.countsWatches (h : Change allows clears n m) (hn : n.WellFormed)
    (hw : n.CountsWatches who) : m.CountsWatches who := by
  cases h with
  | visit hp hs =>
    exact hw.settle hp ((Partition.name_eq hs.settings).trans (hn _ _ hp).named)
      fun rest => hs.books.counted who rest
  | prune hp =>
    exact hw.settle hp (hn _ _ hp).named fun _ hrest => WatchList.leading_discard _ hrest
  | found hname hnone hreserve => exact hw.of_leading_eq rfl (Table.total_insert_of_none _ _ hnone)
  | @reconfigure name p metadata totals hp hallows hreserve =>
    refine hw.of_leading_eq rfl ?_
    rw [leading, partitions_reconfigured, Table.total_insert, (hn _ _ hp).named, leading,
      Table.total_eq_erase_add _ hp]
    rfl
  | @remove name p hp hempty hwatches =>
    refine hw.of_leading_eq rfl ?_
    -- no predicate goes with the partition
    have hnone : p.watches.leading who = 0 := by
      rw [WatchList.leading, hwatches]
      rfl
    have hbefore : n.leading who = ((n.partitions.erase name).total fun row =>
        row.2.watches.leading who) + p.watches.leading who := Table.total_eq_erase_add _ hp
    rw [hbefore, hnone]
    rfl
  | surround world hhub => exact hw.of_leading_eq hhub rfl

theorem Change.booked (h : Change allows clears n m) (hn : n.WellFormed) (hb : n.Booked base) :
    m.Booked base where
  numbered := hb.numbered.of_eq h.ids (by cases h <;> rfl)
  since    := by
    intro name q hq pr hpr
    obtain ⟨old, p, hp, hold⟩ := h.predicates hq hpr
    exact hb.since old p hp pr hold
  counted  := by
    intro hlength who hbase
    rw [length_channels_eq h.ids] at hlength
    exact h.countsWatches hn (hb.counted hlength who hbase)

theorem Changes.booked (h : Changes allows clears limit n m) (hn : n.WellFormed)
    (hb : n.Booked base) : m.Booked base := by
  induction h with
  | refl => exact hb
  | tail changes change _ ih => exact change.booked (changes.wellFormed hn) ih

-- ---------------------------------------------------------------------------
-- Subscriptions
-- ---------------------------------------------------------------------------

/-- Changes of a hub that concern neither ids nor counts. -/
theorem Booked.withHub {hub : Hub} (hb : n.Booked base) (hids : hub.ids = n.world.hub.ids)
    (hpredicates : ∀ who, hub.predicates who = n.world.hub.predicates who) :
    (n.withHub hub).Booked base where
  numbered := hb.numbered.of_eq hids rfl
  since    := hb.since
  counted  := by
    intro hlength who hbase
    rw [length_channels_eq (n := n) hids] at hlength
    exact (hpredicates who).trans (hb.counted hlength who hbase)

/-- Work on the list of one partition. -/
theorem Booked.settle {s : Site} (hb : n.Booked base) (hn : n.WellFormed)
    (hp : n.find? name = some p) (hname : s.part.name = p.name)
    (hids : s.hub.ids = n.world.hub.ids)
    (hsince : ∀ pr ∈ s.part.watches.predicates, base ≤ pr.owner.slot)
    (hs : n.world.hub.channels.length ≤ base + UInt64.size → ∀ who rest,
      n.world.hub.predicates who = p.watches.leading who + rest →
        s.hub.predicates who = s.part.watches.leading who + rest) :
    (n.settle s).Booked base where
  numbered := hb.numbered.of_eq hids rfl
  since    := by
    intro other q hq
    rcases Table.get?_insert_cases hq with ⟨-, rfl⟩ | hold
    · exact hsince
    · exact hb.since other q hold
  counted  := by
    intro hlength who hbase
    rw [length_channels_eq (n := n) hids] at hlength
    exact (hb.counted hlength who hbase).settle hp (hname.trans (hn _ _ hp).named)
      (hs hlength who)

/-- A predicate is added whose channel came after the first ones. It takes the place of another one
only if that leads to the same channel. -/
theorem Booked.add (hb : n.Booked base) (hn : n.WellFormed) (hs : n.Subscribed)
    (hp : n.find? name = some p) (new : Predicate) (hbase : base ≤ new.owner.slot)
    (hknown : n.world.hub.Knows new.owner) :
    (n.settle ((n.site p).watchedBy (p.watches.add new n.world.hub)).2).Booked base := by
  refine hb.settle hn hp rfl ?_ ?_ fun hlength who rest hbefore => ?_
  · show (p.watches.add new n.world.hub).2.2.ids = _
    rcases p.watches.hub_add new n.world.hub with hsame | hattached
    · rw [hsame]
    · rw [hattached]
      exact Hub.ids_update fun _ => rfl
  · intro pr hpr
    rcases WatchList.mem_add hpr with rfl | hold
    · exact hbase
    · exact hb.since name p hp pr hold
  · refine WatchList.leading_add hbefore hknown fun old hold hnamed => ?_
    simp only [Predicate.isNamed, Bool.and_eq_true, decide_eq_true_eq] at hnamed
    exact hb.numbered.slot_eq hlength ((hs _ _ hp).known old hold) hknown
      (hb.since name p hp old hold) hbase hnamed.1

/-- A new channel gets the next number. -/
theorem Booked.openWatcher (hb : n.Booked base) : n.openWatcher.2.Booked base where
  numbered := by
    obtain ⟨old, opened, hold, hnext, hnumbers⟩ := hb.numbered
    refine ⟨old, opened + 1, hold, ?_, ?_⟩
    · show n.nextWatcher + 1 = _
      rw [hnext]
      exact (UInt64.ofNat_add (opened + 1) 1).symm
    · show (n.world.hub.channels ++ [_]).map Channel.id = _
      rw [List.map_append, ← Hub.ids, hnumbers, List.range_succ, List.map_append,
        List.append_assoc, List.map_singleton, List.map_singleton, hnext]
  since    := hb.since
  counted  := by
    intro hlength who hbase
    have hlengthBefore : n.world.hub.channels.length ≤ base + UInt64.size := by
      have hgrown : n.openWatcher.2.world.hub.channels.length =
          n.world.hub.channels.length + 1 := List.length_append
      omega
    exact (Hub.predicates_subscribe _).trans (hb.counted hlengthBefore who hbase)

theorem Rewatch.booked (h : Rewatch known emptied n m) (hn : n.WellFormed) (hs : n.Subscribed)
    (hb : n.Booked base)
    (hknown : ∀ who, known who → base ≤ who.slot ∧ n.world.hub.Knows who) : m.Booked base := by
  cases h with
  | add hp new howner =>
    obtain ⟨hbase, hknows⟩ := hknown _ howner
    exact hb.add hn hs hp new hbase hknows
  | discard hp selected =>
    refine hb.settle hn hp rfl (Hub.ids_detachAll _) (fun pr hpr => ?_) fun _ _ _ hbefore =>
      WatchList.leading_discard _ hbefore
    exact hb.since _ _ hp pr (List.mem_of_mem_filter hpr)
  | subscribe => exact hb.openWatcher
  | drain who hwho =>
    exact hb.withHub (Hub.ids_update fun _ => rfl) fun _ => Hub.predicates_update fun _ => rfl
  | close who =>
    exact hb.withHub (Hub.ids_update fun _ => rfl) fun _ => Hub.predicates_update fun _ => rfl
  | abandon who hwho =>
    exact hb.withHub (Hub.ids_update fun _ => rfl) fun _ => Hub.predicates_update fun _ => rfl

theorem Rewatches.booked (h : Rewatches known emptied n m) (hn : n.WellFormed)
    (hs : n.Subscribed) (hb : n.Booked base)
    (hknown : ∀ who, known who → base ≤ who.slot ∧ n.world.hub.Knows who) : m.Booked base := by
  induction h with
  | refl => exact hb
  | tail rewatches rewatch ih =>
    refine rewatch.booked (rewatches.wellFormed hn)
      (rewatches.subscribed hs fun who hwho => (hknown who hwho).2) ih fun who hwho => ?_
    exact ⟨(hknown who hwho).1, rewatches.knows (hknown who hwho).2⟩

-- ---------------------------------------------------------------------------
-- Runs
-- ---------------------------------------------------------------------------

theorem Operation.AsksSince.genuine {op : Operation} (h : op.AsksSince base n) : op.Genuine n :=
  Operation.genuine_iff.2 fun owner howner => (h owner howner).2

theorem perform_booked {op : Operation} (hop : op.AsksSince base n) (hn : n.WellFormed)
    (hs : n.Subscribed) (hb : n.Booked base) : (n.perform op).2.Booked base := by
  cases hsub : op.isSubscription with
  | false => exact (perform_changes_below op hsub hn).booked hn hb
  | true =>
    have hrewatches : Rewatches (fun who => base ≤ who.slot ∧ n.world.hub.Knows who)
        (fun _ => True) n (n.perform op).2 := by
      refine perform_rewatches op hsub hn ?_ fun _ _ => trivial
      rintro owner watchId name key filter rfl
      exact hop owner rfl
    exact hrewatches.booked hn hs hb fun _ hwho => hwho

theorem Fresh.booked (h : Fresh n) : n.Booked n.world.hub.channels.length where
  numbered := by
    refine ⟨n.world.hub.ids, 0, Hub.length_ids _, ?_, (List.append_nil _).symm⟩
    obtain ⟨config, host, storage, collects, today, world, hbuild⟩ := h
    unfold build at hbuild
    split at hbuild
    · cases hbuild
    · split at hbuild
      · cases hbuild
      · cases hbuild
        rfl
  since    := fun _ _ hp => absurd hp h.not_find?
  counted  := by
    intro _ who hbase
    rw [CountsWatches, Hub.predicates_of_length_le _ hbase, leading, h.empty.1]
    rfl

/-- A deletion goes by the predicates of open channels, if everything kept can be dropped. -/
theorem deletePartition_guarded (hn : n.WellFormed) (hp : n.find? name = some p)
    (hdrop : n.dropKept p = .ok ()) :
    (n.deletePartition name).1 =
      if p.watchers n.world.hub = 0 then .ok ()
      else .error (.partitionInUse (p.watchers n.world.hub)) := by
  have hexisting := existing_of_find? hn hp
  rcases deletePartition_cases n name with
    ⟨err, herr, -⟩ | ⟨q, hq, hwatched, heq⟩ | ⟨q, hq, hunwatched, hdropped, -⟩
  · rw [hexisting] at herr
    cases herr
  · rw [hexisting] at hq
    cases hq
    rw [heq, if_neg (Nat.ne_of_gt hwatched)]
  · rw [hexisting] at hq
    cases hq
    rw [hdropped (hn _ _ hp).named, hdrop, if_pos hunwatched]

/-- In the life of a node in which predicates are asked for by those who have opened a channel
there: in no list two predicates have the same channel id and watch id; unless there are more
channels than ids, every such channel counts the predicates that lead to it; and a partition of
which everything kept can be dropped is deleted exactly if no predicate of an open channel is there,
and otherwise the refusal tells how many there are. -/
theorem predicates_booked (hn : Fresh n)
    (hrun : Reaches (fun k op => op.AsksSince n.world.hub.channels.length k) n m) :
    (∀ name p, m.find? name = some p →
        p.watches.predicates.Pairwise fun a b =>
          ¬ (a.owner.id = b.owner.id ∧ a.watchId = b.watchId)) ∧
      (m.world.hub.channels.length ≤ n.world.hub.channels.length + UInt64.size →
        ∀ who, n.world.hub.channels.length ≤ who.slot →
          m.world.hub.predicates who = m.partitions.total fun row =>
            row.2.watches.predicates.countP (·.owner.slot = who.slot)) ∧
      ∀ name p, m.find? name = some p → m.dropKept p = .ok () →
        ((m.deletePartition name).1 = .ok () ↔
            ∀ pr ∈ p.watches.predicates, m.world.hub.isOpen pr.owner = false) ∧
          ((m.deletePartition name).1 ≠ .ok () →
            (m.deletePartition name).1 = .error (.partitionInUse
              (p.watches.predicates.countP fun pr => m.world.hub.isOpen pr.owner))) := by
  obtain ⟨hwf, hs, hbooked⟩ := hrun.invariant
    (P := fun k => k.WellFormed ∧ k.Subscribed ∧ k.Booked n.world.hub.channels.length)
    ⟨hn.wellFormed, hn.subscribed, hn.booked⟩ fun k op hk hop =>
      ⟨perform_wellFormed op hk.1, perform_subscribed hop.genuine hk.1 hk.2.1,
        perform_booked hop hk.1 hk.2.1 hk.2.2⟩
  refine ⟨fun name p hp => ?_, hbooked.counted, fun name p hp hdrop => ?_⟩
  · refine (hs name p hp).distinct.imp fun {a b} hother hsame => ?_
    simp [Predicate.isNamed, hsame.1, hsame.2] at hother
  · have hclosed : p.watchers m.world.hub = 0 ↔
        ∀ pr ∈ p.watches.predicates, m.world.hub.isOpen pr.owner = false := by
      simp only [Partition.watchers, List.countP_eq_zero, Bool.not_eq_true]
    rw [deletePartition_guarded hwf hp hdrop]
    split
    · next hunwatched => exact ⟨iff_of_true rfl (hclosed.1 hunwatched), fun h => absurd rfl h⟩
    · next hwatched =>
      refine ⟨iff_of_false (fun h => ?_) fun h => hwatched (hclosed.2 h), fun _ => rfl⟩
      cases h

/-- One subscriber asks for a predicate twice, for another one that it removes again, and for one on
a second partition. Another one goes, which is found out by the next event. -/
def enrolments : List Operation :=
  [ .putPartition [112] { createDate := (bare {}).today },
    .putPartition [113] { createDate := (bare {}).today },
    .openWatcher, .openWatcher,
    .watch ⟨0, 1⟩ 7 [112] none .empty,
    .watch ⟨0, 1⟩ 7 [112] (some [97]) .empty,
    .watch ⟨0, 1⟩ 8 [112] none .empty,
    .watch ⟨0, 1⟩ 7 [113] none .empty,
    .watch ⟨1, 2⟩ 1 [112] none .empty,
    .leave ⟨1, 2⟩,
    .put .upsert [112] [98] [1] 1,
    .unwatch 1 8 [112] ]

/-- Two predicates are left, of which one stands in the way of a deletion. -/
theorem predicates_booked_enrolments :
    (performAll enrolments (bare {})).2.world.hub.predicates ⟨0, 1⟩ = 2 ∧
      (performAll enrolments (bare {})).2.world.hub.predicates ⟨1, 2⟩ = 0 ∧
      ((performAll enrolments (bare {})).2.deletePartition [112]).1 =
        .error (.partitionInUse 1) := by
  obtain ⟨-, hcounts, hguard⟩ := predicates_booked (fresh_bare {})
    (Reaches.start.performAll enrolments (by decide))
  obtain ⟨hdeleted, hrefused⟩ := hguard [112] _ rfl rfl
  have hwatched : ((performAll enrolments (bare {})).2.deletePartition [112]).1 ≠ .ok () :=
    fun hok => absurd (hdeleted.1 hok) (by decide)
  exact ⟨(hcounts (by decide) ⟨0, 1⟩ (by decide)).trans (by decide),
    (hcounts (by decide) ⟨1, 2⟩ (by decide)).trans (by decide), hrefused hwatched⟩

end Node

end CacheNode

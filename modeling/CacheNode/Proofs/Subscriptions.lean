import CacheNode.Proofs.Runs

/-!
# CacheNode — subscriptions along a run

A channel stays where it was opened and keeps its id, and a queue only grows at its end until its
subscriber takes the events. The predicates of a partition lead to channels that there are, and no
two of them have the same name; so of those that lead to one channel no two have the same watch id,
although ids of channels may occur again in the life of a hub.

* `Hub.Gains` — what the publications of one partition do to the hub;
* `WatchList.Sound` — a list without dangling predicates and without two of the same name;
* `Node.Reachable.subscribed` — the lists of every node that can come about are sound.
-/

namespace CacheNode

namespace Hub

variable {hub later last : Hub} {who other : Subscriber} {source : Bytes}

-- ---------------------------------------------------------------------------
-- Channels stay
-- ---------------------------------------------------------------------------

theorem knows_update {change : Channel → Channel} (hid : ∀ c, (change c).id = c.id)
    (h : hub.Knows other) : (hub.update who change).Knows other := by
  obtain ⟨c, hc, hcid⟩ := h
  rw [Knows, channel?_update, hc]
  by_cases hslot : who.slot = other.slot
  · rw [if_pos hslot]
    exact ⟨change c, rfl, (hid c).trans hcid⟩
  · rw [if_neg hslot]
    exact ⟨c, rfl, hcid⟩

theorem knows_post {event : ChangeEvent} (h : hub.Knows other) :
    (hub.post who event).Knows other := by
  apply knows_update _ h
  intro c
  split <;> rfl

theorem knows_detachAll (subscribers : List Subscriber) (h : hub.Knows other) :
    (hub.detachAll subscribers).Knows other := by
  induction subscribers generalizing hub with
  | nil => exact h
  | cons who rest ih =>
    have hfirst : (hub.detach who).Knows other := knows_update (fun _ => rfl) h
    exact ih hfirst

/-- A new channel comes after all others. -/
theorem channel?_subscribe (id : UInt64) (h : hub.Knows who) :
    (hub.subscribe id).2.channel? who = hub.channel? who := by
  obtain ⟨c, hc, -⟩ := h
  have hlt : who.slot < hub.channels.length := (List.getElem?_eq_some_iff.1 hc).1
  show (hub.channels ++ [_])[who.slot]? = hub.channels[who.slot]?
  rw [List.getElem?_append_left hlt]

theorem knows_subscribe (id : UInt64) (h : hub.Knows who) :
    (hub.subscribe id).2.Knows who := by
  rw [Knows, channel?_subscribe id h]
  exact h

-- ---------------------------------------------------------------------------
-- Queues are left alone
-- ---------------------------------------------------------------------------

theorem queue_update {change : Channel → Channel} (hqueue : ∀ c, (change c).queue = c.queue) :
    (hub.update who change).queue other = hub.queue other := by
  rw [queue, queue, channel?_update]
  split
  · cases hub.channel? other with
    | none => rfl
    | some c => exact hqueue c
  · rfl

theorem queue_update_of_ne {change : Channel → Channel} (hslot : who.slot ≠ other.slot) :
    (hub.update who change).queue other = hub.queue other := by
  rw [queue, queue, channel?_update, if_neg hslot]

theorem queue_subscribe (id : UInt64) (h : hub.Knows who) :
    (hub.subscribe id).2.queue who = hub.queue who := by
  rw [queue, queue, channel?_subscribe id h]

/-- Subscribers with one channel have one id. -/
theorem id_eq_of_slot_eq (h : hub.Knows who) (hother : hub.Knows other)
    (hslot : who.slot = other.slot) : who.id = other.id := by
  obtain ⟨c, hc, hid⟩ := h
  obtain ⟨d, hd, hdid⟩ := hother
  have hsame : hub.channel? who = hub.channel? other := by rw [channel?, channel?, hslot]
  rw [hsame, hd] at hc
  cases hc
  exact hid.symm.trans hdid

-- ---------------------------------------------------------------------------
-- What a publication does
-- ---------------------------------------------------------------------------

/-- How the hub changes while one partition publishes: channels stay, and queues grow by events
of that partition. -/
structure Gains (hub later : Hub) (source : Bytes) : Prop where
  knows  : ∀ who, hub.Knows who → later.Knows who
  isOpen : ∀ who, later.isOpen who = hub.isOpen who
  queue  : ∀ who, ∃ news, later.queue who = hub.queue who ++ news ∧
    ∀ event ∈ news, event.partition = source

namespace Gains

theorem refl (hub : Hub) (source : Bytes) : hub.Gains hub source where
  knows  := fun _ h => h
  isOpen := fun _ => rfl
  queue  := fun _ => ⟨[], by simp, by simp⟩

theorem trans (h : hub.Gains later source) (hlater : later.Gains last source) :
    hub.Gains last source where
  knows  := fun who hwho => hlater.knows who (h.knows who hwho)
  isOpen := fun who => (hlater.isOpen who).trans (h.isOpen who)
  queue  := by
    intro who
    obtain ⟨first, hfirst, hsource⟩ := h.queue who
    obtain ⟨second, hsecond, hsource'⟩ := hlater.queue who
    refine ⟨first ++ second, by rw [hsecond, hfirst, List.append_assoc], ?_⟩
    intro event hevent
    rcases List.mem_append.1 hevent with hevent | hevent
    · exact hsource event hevent
    · exact hsource' event hevent

end Gains

/-- Posting one event for each of some predicates. -/
def postAll (hub : Hub) (predicates : List Predicate) (partition key : Bytes)
    (value : Option Bytes) (kind : EventKind) : Hub :=
  predicates.foldl (fun h p => h.post p.owner ⟨p.watchId, partition, key, value, kind⟩) hub

theorem gains_post {event : ChangeEvent} (hsource : event.partition = source) :
    hub.Gains (hub.post who event) source where
  knows  := fun _ h => knows_post h
  isOpen := fun other => isOpen_post hub who other event
  queue  := by
    intro other
    rw [queue_post]
    split
    · refine ⟨[event], rfl, ?_⟩
      intro posted hposted
      rw [List.mem_singleton.1 hposted]
      exact hsource
    · exact ⟨[], by simp, by simp⟩

variable {partition key : Bytes} {value : Option Bytes} {kind : EventKind}

theorem gains_postAll (predicates : List Predicate) :
    hub.Gains (hub.postAll predicates partition key value kind) partition := by
  induction predicates generalizing hub with
  | nil => exact .refl hub partition
  | cons p rest ih =>
    have hfirst : hub.Gains (hub.post p.owner ⟨p.watchId, partition, key, value, kind⟩)
        partition := gains_post rfl
    exact hfirst.trans ih

theorem gains_detachAll (subscribers : List Subscriber) :
    hub.Gains (hub.detachAll subscribers) source where
  knows  := fun _ h => knows_detachAll subscribers h
  isOpen := fun other => isOpen_detachAll hub subscribers other
  queue  := fun other => ⟨[], by simp, by simp⟩

/-- An open queue gets one event for every predicate that leads to it, in their order. -/
theorem queue_postAll (predicates : List Predicate) (hopen : hub.isOpen who = true) :
    (hub.postAll predicates partition key value kind).queue who =
      hub.queue who ++ (predicates.filter (·.owner.slot = who.slot)).map fun p =>
        ⟨p.watchId, partition, key, value, kind⟩ := by
  -- posting closes no channel, so what holds of the first post holds of the others
  induction predicates generalizing hub with
  | nil => simp [postAll]
  | cons p rest ih =>
    have hposted : (hub.post p.owner ⟨p.watchId, partition, key, value, kind⟩).isOpen who = true := by
      rw [isOpen_post]
      exact hopen
    rw [postAll, List.foldl_cons, ← postAll, ih hposted, queue_post]
    by_cases hslot : p.owner.slot = who.slot
    · simp [hslot, hopen]
    · simp [hslot]

end Hub

-- ---------------------------------------------------------------------------
-- Sound lists
-- ---------------------------------------------------------------------------

/-- Whether two predicates lead to the same channel under the same watch id. -/
def Predicate.alike (p q : Predicate) : Bool :=
  q.owner.slot = p.owner.slot && q.watchId = p.watchId

namespace WatchList

/-- Every predicate leads to a channel of the hub, and no later one has its name. -/
structure Sound (w : WatchList) (hub : Hub) : Prop where
  known    : ∀ p ∈ w.predicates, hub.Knows p.owner
  distinct : w.predicates.Pairwise fun p q => q.isNamed p.owner.id p.watchId = false

variable {w : WatchList} {hub later : Hub} {new p q : Predicate}

theorem sound_nil (hub : Hub) : ({} : WatchList).Sound hub where
  known    := by
    intro p hp
    cases hp
  distinct := List.Pairwise.nil

/-- Fewer predicates, and channels that are still there. -/
theorem Sound.of_sublist {v : WatchList} (h : w.Sound hub)
    (hsub : v.predicates.Sublist w.predicates)
    (hknows : ∀ who, hub.Knows who → later.Knows who) : v.Sound later where
  known    := fun p hp => hknows _ (h.known p (hsub.subset hp))
  distinct := h.distinct.sublist hsub

/-- Adding a predicate counts it at its channel, unless it takes the place of another one. -/
theorem hub_add (w : WatchList) (new : Predicate) (hub : Hub) :
    (w.add new hub).2.2 = hub ∨ (w.add new hub).2.2 = hub.attach new.owner := by
  unfold WatchList.add
  split
  · exact .inl rfl
  · exact .inr rfl

theorem isNamed_comm (p q : Predicate) :
    p.isNamed q.owner.id q.watchId = q.isNamed p.owner.id p.watchId := by
  simp only [Predicate.isNamed, eq_comm]

theorem mem_exchange {predicates : List Predicate} (h : p ∈ exchange new predicates) :
    p = new ∨ p ∈ predicates := by
  induction predicates with
  | nil => cases h
  | cons first rest ih =>
    rw [exchange] at h
    split at h
    · rcases List.mem_cons.1 h with hp | hp
      · exact .inl hp
      · exact .inr (List.mem_cons_of_mem _ hp)
    · rcases List.mem_cons.1 h with rfl | hp
      · exact .inr List.mem_cons_self
      · rcases ih hp with hp | hp
        · exact .inl hp
        · exact .inr (List.mem_cons_of_mem _ hp)

/-- The new predicate has the name of the one that it replaces, so names stay distinct. -/
theorem distinct_exchange {predicates : List Predicate}
    (h : predicates.Pairwise fun p q => q.isNamed p.owner.id p.watchId = false) :
    (exchange new predicates).Pairwise fun p q => q.isNamed p.owner.id p.watchId = false := by
  induction predicates with
  | nil => exact List.Pairwise.nil
  | cons first rest ih =>
    obtain ⟨hfirst, hrest⟩ := List.pairwise_cons.1 h
    rw [exchange]
    by_cases hnamed : first.isNamed new.owner.id new.watchId = true
    · -- what follows had another name than the first, and so than the new one
      rw [if_pos hnamed]
      refine List.pairwise_cons.2 ⟨fun q hq => ?_, hrest⟩
      have hq := hfirst q hq
      simp only [Predicate.isNamed, Bool.and_eq_true, decide_eq_true_eq] at hnamed
      rwa [hnamed.1, hnamed.2] at hq
    · rw [if_neg hnamed]
      refine List.pairwise_cons.2 ⟨fun q hq => ?_, ih hrest⟩
      rcases mem_exchange hq with rfl | hq
      · rw [isNamed_comm]
        exact Bool.eq_false_iff.2 hnamed
      · exact hfirst q hq

theorem Sound.add (h : w.Sound hub) (hnew : hub.Knows new.owner) :
    (w.add new hub).2.1.Sound (w.add new hub).2.2 := by
  unfold WatchList.add
  split
  · refine ⟨fun p hp => ?_, distinct_exchange h.distinct⟩
    rcases mem_exchange hp with rfl | hp
    · exact hnew
    · exact h.known p hp
  · next hfresh =>
    have hattach (who : Subscriber) (hwho : hub.Knows who) : (hub.attach new.owner).Knows who :=
      Hub.knows_update (fun _ => rfl) hwho
    refine ⟨fun p hp => ?_, List.pairwise_append.2 ⟨h.distinct, by simp, ?_⟩⟩
    · rcases List.mem_append.1 hp with hp | hp
      · exact hattach _ (h.known p hp)
      · rw [List.mem_singleton.1 hp]
        exact hattach _ hnew
    · -- none of the old predicates had the name of the new one
      intro p hp q hq
      rw [List.mem_singleton.1 hq, isNamed_comm]
      simp only [List.any_eq_true, not_exists, not_and] at hfresh
      exact Bool.eq_false_iff.2 (hfresh p hp)

theorem Sound.discard (h : w.Sound hub) (selected : Predicate → Bool) :
    (w.discard selected hub).2.1.Sound (w.discard selected hub).2.2 :=
  h.of_sublist List.filter_sublist fun _ hwho => Hub.knows_detachAll _ hwho

/-- Names tell subscribers apart by their ids, and a channel has only one. -/
theorem Sound.alike_eq_false (h : w.Sound hub) (hp : p ∈ w.predicates) (hq : q ∈ w.predicates)
    (hnamed : q.isNamed p.owner.id p.watchId = false) : p.alike q = false := by
  apply Bool.eq_false_iff.2
  intro halike
  simp only [Predicate.alike, Bool.and_eq_true, decide_eq_true_eq] at halike
  have hid : q.owner.id = p.owner.id :=
    Hub.id_eq_of_slot_eq (h.known q hq) (h.known p hp) halike.1
  simp [Predicate.isNamed, hid, halike.2] at hnamed

/-- A predicate is the only one of its list that leads to its channel under its watch id. -/
theorem Sound.filter_alike (h : w.Sound hub) (hp : p ∈ w.predicates) :
    w.predicates.filter p.alike = [p] := by
  obtain ⟨predicates⟩ := w
  induction predicates with
  | nil => cases hp
  | cons first rest ih =>
    obtain ⟨hfirst, -⟩ := List.pairwise_cons.1 h.distinct
    have hrest : (⟨rest⟩ : WatchList).Sound hub :=
      h.of_sublist (List.sublist_cons_self _ _) fun _ hwho => hwho
    rcases List.mem_cons.1 hp with rfl | hlater
    · -- it comes first
      rw [List.filter_cons_of_pos (by simp [Predicate.alike])]
      -- all that follow have other names
      have hnone : rest.filter p.alike = [] := by
        apply List.filter_eq_nil_iff.2
        intro q hq
        rw [h.alike_eq_false hp (List.mem_cons_of_mem _ hq) (hfirst q hq)]
        exact Bool.false_ne_true
      rw [hnone]
    · -- it comes later, and the first one has another name
      have hother : first.isNamed p.owner.id p.watchId = false := by
        rw [isNamed_comm]
        exact hfirst p hlater
      rw [List.filter_cons_of_neg]
      · exact ih hrest hlater
      · rw [h.alike_eq_false hp List.mem_cons_self hother]
        exact Bool.false_ne_true

end WatchList

-- ---------------------------------------------------------------------------
-- Publications within a step
-- ---------------------------------------------------------------------------

namespace Site

variable {s t : Site}

theorem gains_announce (s : Site) (key : Bytes) (value : Option Bytes) (kind : EventKind) :
    s.hub.Gains (s.announce key value kind).hub s.part.name :=
  (Hub.gains_postAll _).trans (Hub.gains_detachAll _)

theorem Step.gains {clears : Prop} (h : Step clears s t) : s.hub.Gains t.hub s.part.name := by
  have hgains : Across fun s t =>
      t.part.name = s.part.name ∧ s.hub.Gains t.hub s.part.name := by
    refine ⟨?_, fun {s t} hunheard => ?_, fun s key value kind => ?_⟩
    · rintro s t u ⟨hname, hfirst⟩ ⟨hlaterName, hlater⟩
      rw [hname] at hlaterName hlater
      exact ⟨hlaterName, hfirst.trans hlater⟩
    · rw [hunheard.hub]
      exact ⟨hunheard.name, .refl _ _⟩
    · exact ⟨rfl, gains_announce s key value kind⟩
  exact (hgains.step h).2

theorem Steps.gains {clears : Prop} {limit : Nat} (h : Steps clears limit s t) :
    s.hub.Gains t.hub s.part.name := by
  induction h with
  | refl => exact .refl _ _
  | tail steps step _ ih =>
    have hlater := step.gains
    rw [Partition.name_eq steps.settings] at hlater
    exact ih.trans hlater

end Site

-- ---------------------------------------------------------------------------
-- Sound lists along a run
-- ---------------------------------------------------------------------------

namespace Node

/-- The list of every partition of the table is sound. -/
def Subscribed (n : Node) : Prop :=
  ∀ name p, n.find? name = some p → p.watches.Sound n.world.hub

variable {allows : Partition → Metadata → Prop} {clears : Bytes → Prop}
  {known emptied : Subscriber → Prop} {limit : Nat} {n m : Node} {name : Bytes} {p : Partition}

theorem Subscribed.settle {s : Site} (h : n.Subscribed)
    (hknows : ∀ who, n.world.hub.Knows who → s.hub.Knows who)
    (hs : s.part.watches.Sound s.hub) : (n.settle s).Subscribed := by
  intro name p hp
  rcases Table.get?_insert_cases hp with ⟨rfl, rfl⟩ | hold
  · exact hs
  · exact (h name p hold).of_sublist (List.Sublist.refl _) hknows

/-- What has nothing to do with lists and channels. -/
theorem Subscribed.of_hub_eq (h : n.Subscribed) (hhub : m.world.hub = n.world.hub)
    (hlists : ∀ name p, m.find? name = some p →
      p.watches = {} ∨ ∃ old q, n.find? old = some q ∧ p.watches = q.watches) :
    m.Subscribed := by
  intro name p hp
  rw [hhub]
  rcases hlists name p hp with hnil | ⟨old, q, hq, hwatches⟩
  · rw [hnil]
    exact WatchList.sound_nil n.world.hub
  · rw [hwatches]
    exact h old q hq

theorem Change.subscribed (h : Change allows clears n m) (hn : n.Subscribed) : m.Subscribed := by
  cases h with
  | visit hp hs => exact hn.settle hs.gains.knows ((hn _ _ hp).of_sublist hs.watches hs.gains.knows)
  | prune hp =>
    exact hn.settle (fun _ hwho => Hub.knows_detachAll _ hwho) ((hn _ _ hp).discard _)
  | found hname hnone hreserve =>
    refine hn.of_hub_eq rfl fun other q hq => ?_
    rcases Table.get?_insert_cases hq with ⟨rfl, rfl⟩ | hold
    · exact .inl rfl
    · exact .inr ⟨other, q, hold, rfl⟩
  | @reconfigure name p metadata totals hp hallows hreserve =>
    refine hn.of_hub_eq rfl fun other q hq => ?_
    rw [find?, partitions_reconfigured] at hq
    rcases Table.get?_insert_cases hq with ⟨rfl, rfl⟩ | hold
    · exact .inr ⟨name, p, hp, rfl⟩
    · exact .inr ⟨other, q, hold, rfl⟩
  | remove hp hempty hwatches =>
    refine hn.of_hub_eq rfl fun other q hq => ?_
    exact .inr ⟨other, q, Table.get?_of_erase hq, rfl⟩
  | surround world hhub => exact hn.of_hub_eq hhub fun other q hq => .inr ⟨other, q, hq, rfl⟩

/-- Changes of subscriptions open channels and never close one for good. -/
theorem Rewatch.knows {who : Subscriber} (h : Rewatch known emptied n m)
    (hwho : n.world.hub.Knows who) : m.world.hub.Knows who := by
  cases h with
  | @add name p hp predicate hknown =>
    show (p.watches.add predicate n.world.hub).2.2.Knows who
    rcases p.watches.hub_add predicate n.world.hub with hsame | hattached
    · rw [hsame]
      exact hwho
    · rw [hattached]
      exact Hub.knows_update (fun _ => rfl) hwho
  | discard hp selected => exact Hub.knows_detachAll _ hwho
  | subscribe => exact Hub.knows_subscribe _ hwho
  | drain other hother => exact Hub.knows_update (fun _ => rfl) hwho
  | close other => exact Hub.knows_update (fun _ => rfl) hwho
  | abandon other hother => exact Hub.knows_update (fun _ => rfl) hwho

theorem Rewatch.subscribed (h : Rewatch known emptied n m) (hn : n.Subscribed)
    (hknown : ∀ who, known who → n.world.hub.Knows who) : m.Subscribed := by
  have hknows (who : Subscriber) (hwho : n.world.hub.Knows who) : m.world.hub.Knows who :=
    h.knows hwho
  cases h with
  | add hp predicate howner => exact hn.settle hknows ((hn _ _ hp).add (hknown _ howner))
  | discard hp selected => exact hn.settle hknows ((hn _ _ hp).discard selected)
  | _ => exact fun name p hp => (hn name p hp).of_sublist (List.Sublist.refl _) hknows

/-- No queue changes unless it is emptied. -/
theorem Rewatch.queue {who : Subscriber} (h : Rewatch known emptied n m)
    (hwho : n.world.hub.Knows who)
    (hkept : ∀ other, emptied other → other.slot ≠ who.slot) :
    m.world.hub.queue who = n.world.hub.queue who := by
  cases h with
  | @add name p hp predicate hknown =>
    show (p.watches.add predicate n.world.hub).2.2.queue who = _
    rcases p.watches.hub_add predicate n.world.hub with hsame | hattached
    · rw [hsame]
    · rw [hattached]
      exact Hub.queue_update fun _ => rfl
  | discard hp selected => exact Hub.queue_detachAll _ _ _
  | subscribe => exact Hub.queue_subscribe _ hwho
  | drain other hother => exact Hub.queue_update_of_ne (hkept other hother)
  | close other => exact Hub.queue_update fun _ => rfl
  | abandon other hother => exact Hub.queue_update_of_ne (hkept other hother)

/-- No entry changes, and nothing is counted. -/
theorem Rewatch.holdings (h : Rewatch known emptied n m) (hn : n.WellFormed)
    (hp : n.find? name = some p) :
    ∃ q, m.find? name = some q ∧ q.entries = p.entries ∧ q.tally = p.tally := by
  have hsettled {other : Bytes} {old : Partition} {s : Site} (hold : n.find? other = some old)
      (hname : s.part.name = old.name) (hentries : s.part.entries = old.entries)
      (htally : s.part.tally = old.tally) :
      ∃ q, (n.settle s).find? name = some q ∧ q.entries = p.entries ∧ q.tally = p.tally := by
    rw [find?_settle, hname, (hn _ _ hold).named]
    by_cases hother : name = other
    · -- the partition itself, with other predicates
      rw [if_pos hother]
      subst hother
      rw [hp] at hold
      cases hold
      exact ⟨s.part, rfl, hentries, htally⟩
    · rw [if_neg hother]
      exact ⟨p, hp, rfl, rfl⟩
  cases h with
  | add hold predicate hknown => exact hsettled hold rfl rfl rfl
  | discard hold selected => exact hsettled hold rfl rfl rfl
  | _ => exact ⟨p, hp, rfl, rfl⟩

theorem Rewatch.totals (h : Rewatch known emptied n m) : m.totals = n.totals := by
  cases h <;> rfl

namespace Rewatches

variable {who : Subscriber}

theorem knows (h : Rewatches known emptied n m) (hwho : n.world.hub.Knows who) :
    m.world.hub.Knows who := by
  induction h with
  | refl => exact hwho
  | tail _ rewatch ih => exact rewatch.knows ih

theorem subscribed (h : Rewatches known emptied n m) (hn : n.Subscribed)
    (hknown : ∀ who, known who → n.world.hub.Knows who) : m.Subscribed := by
  induction h with
  | refl => exact hn
  | tail rewatches rewatch ih =>
    -- who was known at the start is still known
    exact rewatch.subscribed ih fun other hother => rewatches.knows (hknown other hother)

theorem queue (h : Rewatches known emptied n m) (hwho : n.world.hub.Knows who)
    (hkept : ∀ other, emptied other → other.slot ≠ who.slot) :
    m.world.hub.queue who = n.world.hub.queue who := by
  induction h with
  | refl => rfl
  | tail rewatches rewatch ih => exact (rewatch.queue (rewatches.knows hwho) hkept).trans ih

theorem holdings (h : Rewatches known emptied n m) (hn : n.WellFormed)
    (hp : n.find? name = some p) :
    ∃ q, m.find? name = some q ∧ q.entries = p.entries ∧ q.tally = p.tally := by
  induction h with
  | refl => exact ⟨p, hp, rfl, rfl⟩
  | tail rewatches rewatch ih =>
    obtain ⟨q, hq, hentries, htally⟩ := ih
    obtain ⟨r, hr, hlater, hlaterTally⟩ := rewatch.holdings (rewatches.wellFormed hn) hq
    exact ⟨r, hr, hlater.trans hentries, hlaterTally.trans htally⟩

theorem totals (h : Rewatches known emptied n m) : m.totals = n.totals := by
  induction h with
  | refl => rfl
  | tail rewatches rewatch ih => exact rewatch.totals.trans ih

end Rewatches

theorem Changes.subscribed (h : Changes allows clears limit n m) (hn : n.Subscribed) :
    m.Subscribed := by
  induction h with
  | refl => exact hn
  | tail _ change _ ih => exact change.subscribed ih

theorem perform_subscribed {op : Operation} (hop : op.Genuine n) (hn : n.WellFormed)
    (hs : n.Subscribed) : (n.perform op).2.Subscribed := by
  cases hsub : op.isSubscription with
  | false => exact (perform_changes_below op hsub hn).subscribed hs
  | true =>
    -- who is known is looked up before the operation
    have hrewatches : Rewatches n.world.hub.Knows (fun _ => True) n (n.perform op).2 :=
      perform_rewatches op hsub hn hop fun _ _ => trivial
    exact hrewatches.subscribed hs fun _ hwho => hwho

theorem Fresh.subscribed (h : Fresh n) : n.Subscribed := by
  intro name p hp
  exact absurd hp h.not_find?

/-- No predicate of a node that can come about is dangling, and none has another one's name. -/
theorem Reachable.subscribed (h : Reachable m) : m.Subscribed := by
  obtain ⟨n, hfresh, hrun⟩ := h
  have hkept := hrun.invariant (P := fun k => k.WellFormed ∧ k.Subscribed)
    ⟨hfresh.wellFormed, hfresh.subscribed⟩
    fun k op hk hop => ⟨perform_wellFormed op hk.1, perform_subscribed hop hk.1 hk.2⟩
  exact hkept.2

end Node

end CacheNode

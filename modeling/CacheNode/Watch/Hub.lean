import CacheNode.Watch.Event

/-!
# CacheNode — the watch hub

The hub holds one channel for each subscriber: a queue of events in the order of their
publication, and the number of predicates that lead into it. A subscriber may stop receiving;
from then on every event for it is refused, which is how a partition finds out.

* `Hub.post` — appends an event to the queue of an open channel and leaves a closed one alone;
* `Hub.isOpen_post`, `Hub.queue_post` — and it changes nothing else.
-/

namespace CacheNode

/-- One subscriber's queue. -/
structure Channel where
  id : UInt64
  queue : List ChangeEvent := []
  isOpen : Bool := true
  /-- how many predicates lead into the queue -/
  predicates : Nat := 0
deriving DecidableEq, Repr

/-- A subscriber: the place of its channel in the hub, and the id that the channel carries. -/
structure Subscriber where
  slot : Nat
  id : UInt64
deriving DecidableEq, Repr

/-- The channels of all subscribers, in the order in which they were opened. -/
structure Hub where
  channels : List Channel := []
deriving DecidableEq, Repr

namespace Hub

/-- Opens a channel that carries an id. -/
def subscribe (hub : Hub) (id : UInt64) : Subscriber × Hub :=
  (⟨hub.channels.length, id⟩, ⟨hub.channels ++ [{ id := id }]⟩)

/-- A subscriber's channel. -/
def channel? (hub : Hub) (who : Subscriber) : Option Channel := hub.channels[who.slot]?

/-- Changes one channel. -/
def update (hub : Hub) (who : Subscriber) (change : Channel → Channel) : Hub :=
  ⟨hub.channels.modify who.slot change⟩

/-- Whether a subscriber still receives events. -/
def isOpen (hub : Hub) (who : Subscriber) : Bool :=
  ((hub.channel? who).map Channel.isOpen).getD false

/-- The events that wait for a subscriber. -/
def queue (hub : Hub) (who : Subscriber) : List ChangeEvent :=
  ((hub.channel? who).map Channel.queue).getD []

/-- How many predicates lead into a subscriber's queue. -/
def predicates (hub : Hub) (who : Subscriber) : Nat :=
  ((hub.channel? who).map Channel.predicates).getD 0

/-- Queues an event for a subscriber that still receives. -/
def post (hub : Hub) (who : Subscriber) (event : ChangeEvent) : Hub :=
  hub.update who fun c => if c.isOpen then { c with queue := c.queue ++ [event] } else c

/-- Counts one more predicate that leads to a subscriber. -/
def attach (hub : Hub) (who : Subscriber) : Hub :=
  hub.update who fun c => { c with predicates := c.predicates + 1 }

/-- Counts one predicate less. -/
def detach (hub : Hub) (who : Subscriber) : Hub :=
  hub.update who fun c => { c with predicates := c.predicates - 1 }

/-- Counts one predicate less for each of the subscribers. -/
def detachAll (hub : Hub) (subscribers : List Subscriber) : Hub :=
  subscribers.foldl detach hub

/-- Takes all waiting events from a subscriber's queue. -/
def drain (hub : Hub) (who : Subscriber) : List ChangeEvent × Hub :=
  (hub.queue who, hub.update who fun c => { c with queue := [] })

/-- Ends reception: later events are refused, waiting ones can still be taken. -/
def close (hub : Hub) (who : Subscriber) : Hub :=
  hub.update who fun c => { c with isOpen := false }

/-- Ends reception and drops the waiting events. -/
def abandon (hub : Hub) (who : Subscriber) : Hub :=
  hub.update who fun c => { c with isOpen := false, queue := [] }

-- ---------------------------------------------------------------------------
-- What a change leaves alone
-- ---------------------------------------------------------------------------

theorem channel?_update (hub : Hub) (who other : Subscriber) (change : Channel → Channel) :
    (hub.update who change).channel? other =
      if who.slot = other.slot then (hub.channel? other).map change else hub.channel? other := by
  simp only [channel?, update, List.getElem?_modify]
  split <;> simp

@[simp] theorem isOpen_post (hub : Hub) (who other : Subscriber) (event : ChangeEvent) :
    (hub.post who event).isOpen other = hub.isOpen other := by
  simp only [isOpen, post, channel?_update]
  split
  · cases hub.channel? other with
    | none => rfl
    | some c => by_cases h : c.isOpen <;> simp [h]
  · rfl

@[simp] theorem predicates_post (hub : Hub) (who other : Subscriber) (event : ChangeEvent) :
    (hub.post who event).predicates other = hub.predicates other := by
  simp only [predicates, post, channel?_update]
  split
  · cases hub.channel? other with
    | none => rfl
    | some c => by_cases h : c.isOpen <;> simp [h]
  · rfl

/-- A queue grows at its end, and only the queue of an open channel. -/
theorem queue_post (hub : Hub) (who other : Subscriber) (event : ChangeEvent) :
    (hub.post who event).queue other =
      if who.slot = other.slot ∧ hub.isOpen other then hub.queue other ++ [event]
      else hub.queue other := by
  simp only [queue, post, channel?_update, isOpen]
  by_cases hslot : who.slot = other.slot
  · rw [if_pos hslot]
    rcases Option.eq_none_or_eq_some (hub.channel? other) with hc | ⟨c, hc⟩
    · simp [hc]
    · by_cases h : c.isOpen <;> simp [hc, h, hslot]
  · simp [hslot]

@[simp] theorem isOpen_detach (hub : Hub) (who other : Subscriber) :
    (hub.detach who).isOpen other = hub.isOpen other := by
  simp only [isOpen, detach, channel?_update]
  split
  · cases hub.channel? other <;> rfl
  · rfl

@[simp] theorem queue_detach (hub : Hub) (who other : Subscriber) :
    (hub.detach who).queue other = hub.queue other := by
  simp only [queue, detach, channel?_update]
  split
  · cases hub.channel? other <;> rfl
  · rfl

@[simp] theorem isOpen_detachAll (hub : Hub) (subscribers : List Subscriber)
    (other : Subscriber) : (hub.detachAll subscribers).isOpen other = hub.isOpen other := by
  induction subscribers generalizing hub with
  | nil => rfl
  | cons who rest ih => exact (ih (hub.detach who)).trans (isOpen_detach hub who other)

@[simp] theorem queue_detachAll (hub : Hub) (subscribers : List Subscriber)
    (other : Subscriber) : (hub.detachAll subscribers).queue other = hub.queue other := by
  induction subscribers generalizing hub with
  | nil => rfl
  | cons who rest ih => exact (ih (hub.detach who)).trans (queue_detach hub who other)

end Hub

end CacheNode

import CacheNode.Proofs.Operations

/-!
# CacheNode — runs of a node

A run starts with a node and performs operations one after the other. What operations a run may
contain is told by a relation between the node and its next operation, so that a condition can
speak about the state in which an operation is asked for.

Nodes start without partitions. Their surroundings may have a history of their own: channels,
kept configurations, draws.

* `Node.Reaches` — the nodes that a run comes to;
* `Node.Reachable` — the nodes that some run of genuine operations comes to;
* `Node.Reaches.performAll`, `Node.Reachable.performAll` — sequences of operations as runs;
* `Node.Reaches.wellFormed`, `Node.Reachable.wellFormed` — they are well formed.
-/

namespace CacheNode

/-- A subscriber has a channel in the hub, and the channel carries its id. Subscribers are handed
out together with their channels, and channels stay. -/
def Hub.Knows (hub : Hub) (who : Subscriber) : Prop :=
  ∃ c, hub.channel? who = some c ∧ c.id = who.id

instance (hub : Hub) (who : Subscriber) : Decidable (hub.Knows who) :=
  decidable_of_iff ((hub.channel? who).any (·.id = who.id))
    (by simp [Hub.Knows, Option.any_eq_true])

namespace Node

/-- The nodes that a run comes to, if its operations are allowed where they are asked for. -/
inductive Reaches (allowed : Node → Operation → Prop) (n : Node) : Node → Prop where
  | start : Reaches allowed n n
  | step {m : Node} (run : Reaches allowed n m) (op : Operation) (hop : allowed m op) :
      Reaches allowed n (m.perform op).2

/-- A node that was just built. -/
def Fresh (n : Node) : Prop :=
  ∃ config host storage collects today world,
    build config host storage collects today world = .ok n

/-- Predicates are asked for in the name of subscribers that there are. -/
def Operation.Genuine (n : Node) (op : Operation) : Prop :=
  ∀ owner watchId name key filter,
    op = .watch owner watchId name key filter → n.world.hub.Knows owner

/-- Who asks for a predicate. -/
def Operation.asks : Operation → Option Subscriber
  | .watch owner .. => some owner
  | _ => none

theorem Operation.genuine_iff {n : Node} {op : Operation} :
    op.Genuine n ↔ ∀ owner ∈ op.asks, n.world.hub.Knows owner := by
  constructor
  · intro h owner howner
    cases op with
    | watch =>
      cases howner
      exact h _ _ _ _ _ rfl
    | _ => cases howner
  · rintro h owner watchId name key filter rfl
    exact h owner rfl

instance (op : Operation) (n : Node) : Decidable (op.Genuine n) :=
  decidable_of_iff (∀ owner ∈ op.asks, n.world.hub.Knows owner) Operation.genuine_iff.symm

/-- The nodes that can come about. -/
def Reachable (m : Node) : Prop :=
  ∃ n, Fresh n ∧ Reaches (fun k op => op.Genuine k) n m

/-- A sequence of operations of which each is allowed where it is asked for. -/
def Along (allowed : Node → Operation → Prop) : List Operation → Node → Prop
  | [], _ => True
  | op :: rest, n => allowed n op ∧ Along allowed rest (n.perform op).2

/-- Whether the operations of a sequence are allowed where they are asked for, where this can be
decided for each of them. -/
def decideAlong {allowed : Node → Operation → Prop} [∀ n op, Decidable (allowed n op)] :
    (ops : List Operation) → (n : Node) → Decidable (Along allowed ops n)
  | [], _ => isTrue trivial
  | op :: rest, n =>
    haveI : Decidable (Along allowed rest (n.perform op).2) := decideAlong rest _
    inferInstanceAs (Decidable (_ ∧ _))

instance {allowed : Node → Operation → Prop} [∀ n op, Decidable (allowed n op)]
    (ops : List Operation) (n : Node) : Decidable (Along allowed ops n) := decideAlong ops n

/-- A node with nothing around it that could fail or refuse, and without partitions. -/
def bare (config : Config) : Node where
  config
  host := ⟨none⟩
  storage := .nowhere
  world := { draws := default }
  totals := { maxCacheSize := config.maxCacheSize }
  today := ⟨⟨2026, 1, 1, by decide⟩, 0, 0, 0, 0, by decide⟩

variable {n m : Node} {allowed : Node → Operation → Prop}

theorem fresh_bare (config : Config) : Fresh (bare config) :=
  ⟨config, ⟨none⟩, .ok .nowhere, false, (bare config).today, (bare config).world, rfl⟩

/-- A node that was just built holds nothing and has counted nothing. -/
theorem Fresh.empty (h : Fresh n) :
    n.partitions = .empty ∧ n.totals = { maxCacheSize := n.config.maxCacheSize } := by
  obtain ⟨config, host, storage, collects, today, world, hbuild⟩ := h
  unfold build at hbuild
  split at hbuild
  · cases hbuild
  · split at hbuild
    · cases hbuild
    · cases hbuild
      exact ⟨rfl, rfl⟩

theorem Fresh.not_find? (h : Fresh n) {name : Bytes} {p : Partition} :
    ¬ n.find? name = some p := by
  intro hp
  rw [find?, h.empty.1] at hp
  cases hp

theorem Fresh.wellFormed (h : Fresh n) : n.WellFormed := by
  intro name p hp
  exact absurd hp h.not_find?

/-- A limit that an operation respects can always be found. -/
theorem perform_changes_below (op : Operation) (hop : op.isSubscription = false)
    (hn : n.WellFormed) :
    Changes (op.Reconfigures n) op.Clears (n.bytesHeld + (n.perform op).2.bytesHeld + 1) n
      (n.perform op).2 :=
  perform_changes op hop hn (by omega) (by omega)

theorem perform_wellFormed (op : Operation) (hn : n.WellFormed) :
    (n.perform op).2.WellFormed := by
  cases hop : op.isSubscription with
  | false => exact (perform_changes_below op hop hn).wellFormed hn
  | true => exact (perform_rewatches_of_any op hop hn).wellFormed hn

/-- What an operation keeps where it is allowed is kept by every run. -/
theorem Reaches.invariant {P : Node → Prop} (h : Reaches allowed n m) (hn : P n)
    (hstep : ∀ k op, P k → allowed k op → P (k.perform op).2) : P m := by
  induction h with
  | start => exact hn
  | step run op hop ih => exact hstep _ op ih hop

theorem Reaches.wellFormed (h : Reaches allowed n m) (hn : n.WellFormed) : m.WellFormed :=
  h.invariant hn fun _ op hk _ => perform_wellFormed op hk

/-- What is allowed by one condition is allowed by a weaker one. -/
theorem Along.imp {more : Node → Operation → Prop} {ops : List Operation}
    (h : Along allowed ops n) (himp : ∀ k op, allowed k op → more k op) : Along more ops n := by
  induction ops generalizing n with
  | nil => trivial
  | cons op rest ih => exact ⟨himp n op h.1, ih h.2⟩

/-- A sequence of allowed operations is a run. -/
theorem Reaches.performAll (ops : List Operation) (h : Reaches allowed n m)
    (hops : Along allowed ops m) : Reaches allowed n (performAll ops m).2 := by
  induction ops generalizing m with
  | nil => exact h
  | cons op rest ih => exact ih (h.step op hops.1) hops.2

/-- Nothing but a predicate is asked for in anybody's name. -/
theorem genuine_of_isSubscription {op : Operation} (hop : op.isSubscription = false) (n : Node) :
    op.Genuine n := by
  rintro owner watchId name key filter rfl
  cases hop

theorem Reachable.performAll (ops : List Operation) (h : Reachable m)
    (hops : ∀ op ∈ ops, op.isSubscription = false) : Reachable (performAll ops m).2 := by
  obtain ⟨n, hfresh, hrun⟩ := h
  refine ⟨n, hfresh, hrun.performAll ops ?_⟩
  clear hrun
  induction ops generalizing m with
  | nil => trivial
  | cons op rest ih =>
    exact ⟨genuine_of_isSubscription (hops op List.mem_cons_self) m,
      ih fun other hother => hops other (List.mem_cons_of_mem _ hother)⟩

theorem reachable_bare (config : Config) : Reachable (bare config) :=
  ⟨bare config, fresh_bare config, .start⟩

theorem Reachable.wellFormed (h : Reachable m) : m.WellFormed := by
  obtain ⟨n, hfresh, hrun⟩ := h
  exact hrun.wellFormed hfresh.wellFormed

end Node

end CacheNode

import CacheNode.Node.Operation
import CacheNode.Partition.Operation

/-!
# CacheNode — sessions

A session is a node together with those who hold parts of it across its life. The node can be
closed and another one opened over the same surroundings. A holder of a partition keeps it when
the node deletes it or closes: from then on the partition is a loose one, outside of any table.
Partitions can also be founded loose. Loose partitions count their entries in the totals of the
node they came from, or in totals of their own, which several of them may share.

* `Session.launch`, `Session.close` — the life of a node;
* `Session.perform` — an operation on the node;
* `Session.collectRequests`, `Session.dismissCollector` — the collector's side of the compaction
  requests, which outlive the node that made them;
* `Session.dismiss` — ends what a subscriber receives, whether or not a node is open;
* `Session.act` — lets a function act on a held partition, wherever it is.
-/

namespace CacheNode

/-- What a session works in: the surroundings alone, or a node over them. -/
inductive Setting where
  | bare (world : World)
  | serving (node : Node)

namespace Setting

/-- The surroundings. -/
def world : Setting → World
  | bare world => world
  | serving node => node.world

/-- Replaces the surroundings. -/
def withWorld (world : World) : Setting → Setting
  | bare _ => bare world
  | serving node => serving { node with world }

/-- The node, if there is one. -/
def node? : Setting → Option Node
  | bare _ => none
  | serving node => some node

@[simp] theorem world_withWorld (w : World) (setting : Setting) :
    (setting.withWorld w).world = w := by
  cases setting <;> rfl

end Setting

/-- The totals in which a loose partition is counted. -/
inductive Ledger where
  | ofNode
  /-- the totals at a place in the session's list -/
  | own (place : Nat)
deriving DecidableEq, Repr

/-- A partition outside of any table. -/
structure LoosePartition where
  part : Partition
  ledger : Ledger

/-- Where a held partition is. -/
inductive Handle where
  /-- in the node's table, under a name -/
  | member (name : Bytes)
  /-- at a place in the session's list of loose partitions -/
  | loose (place : Nat)
deriving DecidableEq, Repr

/-- A node and what is held around it. -/
structure Session where
  setting : Setting
  scanner : Scanner := .create 20
  /-- predicates that belong to no partition -/
  watches : WatchList := {}
  handles : List Handle := []
  loose : List LoosePartition := []
  ledgers : List Totals := []

namespace Session

/-- The surroundings. -/
def world (s : Session) : World := s.setting.world

/-- Replaces the surroundings. -/
def withWorld (s : Session) (world : World) : Session :=
  { s with setting := s.setting.withWorld world }

/-- Replaces the hub. -/
def withHub (s : Session) (hub : Hub) : Session := s.withWorld { s.world with hub }

/-- The node, if one is open. -/
def node? (s : Session) : Option Node := s.setting.node?

/-- Replaces the node. -/
def withNode (s : Session) (node : Node) : Session := { s with setting := .serving node }

-- ---------------------------------------------------------------------------
-- The life of a node
-- ---------------------------------------------------------------------------

/-- Moves a partition out of the table: whoever held the member of that name holds the loose
partition now. -/
def release (part : Partition) (ledger : Ledger) (s : Session) : Session :=
  { s with
    loose := s.loose ++ [⟨part, ledger⟩]
    handles :=
      s.handles.map fun h => if h = .member part.name then .loose s.loose.length else h }

/-- Closes the node. What is held of it stays, with the node's totals as a ledger. -/
def close (s : Session) : Session :=
  match s.setting with
  | .bare _ => s
  | .serving node =>
    let kept := Ledger.own s.ledgers.length
    let moved :=
      { s with
        setting := .bare node.world
        ledgers := s.ledgers ++ [node.totals]
        loose := s.loose.map fun l => if l.ledger = .ofNode then { l with ledger := kept } else l }
    (node.partitions.rows.map Prod.snd).foldl (fun s part => release part kept s) moved

/-- Closes the node and opens another one over the same surroundings. If the requests of the new
node are to be collected, a collector is appointed for it first. -/
def launch (s : Session) (config : Config) (host : HostMemory)
    (storage : Except CacheError Storage) (collects : Bool) (today : Instant) :
    Except CacheError Unit × Session :=
  let closed := s.close
  let ready := if collects then closed.withWorld closed.world.appointCollector else closed
  match Node.build config host storage collects today ready.world with
  | .error e => (.error e, ready)
  | .ok node => (.ok (), ready.withNode node)

-- ---------------------------------------------------------------------------
-- Operations on the node
-- ---------------------------------------------------------------------------

/-- Lets the node perform an operation. Whoever holds a partition that is deleted keeps it. -/
def perform (s : Session) (node : Node) (op : Node.Operation) : Result × Session :=
  match op with
  | .deletePartition name =>
    let d := node.deletion name
    let left := s.withNode d.node
    (d.outcome.map fun _ => .done,
      match d.removed with
      | some part => left.release part .ofNode
      | none => left)
  | .scan scanner now deadline cancel =>
    let ran := node.perform (.scan scanner now deadline cancel)
    let left := s.withNode ran.2
    match ran.1 with
    | .ok (.scanned _ cursor) => (ran.1, { left with scanner := { scanner with cursor } })
    | _ => (ran.1, left)
  | op =>
    let performed := node.perform op
    (performed.1, s.withNode performed.2)

-- ---------------------------------------------------------------------------
-- The other ends of the channels
-- ---------------------------------------------------------------------------

/-- The compaction requests that wait for the collector, whether or not the node that made them
is still open. -/
def collectRequests (s : Session) : List Bytes × Session :=
  let collected := s.world.collectRequests
  (collected.1, s.withWorld collected.2)

/-- Lets the collector go. -/
def dismissCollector (s : Session) : Session := s.withWorld s.world.dismissCollector

/-- Lets a subscriber go: it receives no more, and the events that wait for it are lost. Its
predicates stay where they are until their partition finds out. -/
def dismiss (s : Session) (who : Subscriber) : Session := s.withHub (s.world.hub.abandon who)

-- ---------------------------------------------------------------------------
-- Held partitions
-- ---------------------------------------------------------------------------

/-- Holds a partition of the node's table, if it is there. Returns the place of its handle. -/
def hold (s : Session) (name : Bytes) : Option (Nat × Session) :=
  match s.node?.bind (·.find? name) with
  | none => none
  | some _ => some (s.handles.length, { s with handles := s.handles ++ [.member name] })

/-- Opens totals of their own for loose partitions. -/
def openLedger (s : Session) (maxCacheSize : ByteCount) : Ledger × Session :=
  (.own s.ledgers.length, { s with ledgers := s.ledgers ++ [{ maxCacheSize }] })

/-- Founds a loose partition and holds it. Returns the place of its handle. -/
def found (s : Session) (part : Partition) (ledger : Ledger) : Nat × Session :=
  (s.handles.length,
    { s with
      loose := s.loose ++ [⟨part, ledger⟩]
      handles := s.handles ++ [.loose s.loose.length] })

/-- The ledger of a held partition. -/
def ledgerOf? (s : Session) (place : Nat) : Option Ledger :=
  match s.handles[place]? with
  | none => none
  | some (.member _) => some .ofNode
  | some (.loose place) => s.loose[place]?.map LoosePartition.ledger

/-- The totals in a ledger. -/
def totals? (s : Session) : Ledger → Option Totals
  | .ofNode => s.node?.map Node.totals
  | .own place => s.ledgers[place]?

/-- Replaces the totals in a ledger. -/
def withTotals (s : Session) (ledger : Ledger) (totals : Totals) : Session :=
  match ledger, s.setting with
  | .ofNode, .serving node => s.withNode { node with totals }
  | .ofNode, .bare _ => s
  | .own place, _ => { s with ledgers := s.ledgers.set place totals }

/-- A held partition and what its operations act on. -/
def site? (s : Session) (place : Nat) : Option Site :=
  match s.handles[place]? with
  | none => none
  | some (.member name) => s.node?.bind fun n => (n.find? name).map n.site
  | some (.loose place) =>
    s.loose[place]?.bind fun l =>
      (s.totals? l.ledger).map fun totals => ⟨l.part, totals, s.world.hub, s.world.draws⟩

/-- Takes over what an operation on a held partition changed. -/
def settle (s : Session) (place : Nat) (site : Site) : Session :=
  match s.handles[place]?, s.setting with
  | some (.member _), .serving node => s.withNode (node.settle site)
  | some (.loose place), _ =>
    match s.loose[place]? with
    | none => s
    | some l =>
      let shared := s.withWorld { s.world with hub := site.hub, draws := site.draws }
      { shared.withTotals l.ledger site.totals with
        loose := s.loose.set place { l with part := site.part } }
  | _, _ => s

/-- Lets a function act on a held partition. -/
def act {α : Type} (s : Session) (place : Nat) (f : Site → α × Site) : Option (α × Session) :=
  (s.site? place).map fun site =>
    let acted := f site
    (acted.1, s.settle place acted.2)

end Session

end CacheNode

import CacheNode.Proofs.Announcing
import CacheNode.Proofs.Deleting

/-!
# CacheNode — delivery along a run

A run of operations plays one script in each partition. Every predicate that stays in place during
the run gets from its queue exactly what it wants of that script. It does not matter what other
predicates come and go meanwhile: those that are added, replaced or removed, and those that are
dropped because an event has found their channel closed.

So two predicates of one partition can be compared. One that wants everything gets the whole
script, and the other one gets the part with its key and with the kinds that it names.

What a partition adds to the counters that the node has for all partitions is told step by step:
`Node.Contributes` splits what happens into steps of the partition, steps of other partitions, and
things that are not counted.

* `Node.Contributes`, `Node.Contributes.tally` — the share of a partition in the node's counters,
  which is what it counts itself;
* `Node.Tells` — a script for what happens between two nodes;
* `Node.Change.tells`, `Node.perform_tells`, `Node.performAll_tells` — changes, operations and runs
  have scripts;
* `Node.delivered` — the events that a predicate gets in a run;
* `Node.delivered_selected` — a predicate gets those of all events that it selects;
* `Node.delivered_counted` — a partition counts as many removals as it announces.
-/

namespace CacheNode.Node

variable {allows : Partition → Metadata → Prop} {clears : Bytes → Prop} {limit : Nat}
  {n m k : Node} {name : Bytes} {p : Partition} {pr : Predicate} {taken : List ChangeEvent}

-- ---------------------------------------------------------------------------
-- The share of a partition in the counters
-- ---------------------------------------------------------------------------

/-- What a partition adds to the node's counters of evictions and expirations between two nodes,
while its own counters are not cleared. -/
inductive Contributes (n : Node) (name : Bytes) : UInt64 → UInt64 → Node → Prop where
  | start : Contributes n name 0 0 n
  /-- a step of the partition contributes what it adds to the counters -/
  | own {evictions expirations : UInt64} {m : Node} {p : Partition} {s : Site} {clears : Prop}
      (before : Contributes n name evictions expirations m) (hm : m.WellFormed)
      (hp : m.find? name = some p) (hs : (m.site p).Step clears s) (hclears : ¬ clears) :
      Contributes n name (evictions + (s.totals.evictions - m.totals.evictions))
        (expirations + (s.totals.expirations - m.totals.expirations)) (m.settle s)
  /-- a step of another partition contributes nothing -/
  | elsewhere {evictions expirations : UInt64} {m : Node} {other : Bytes} {q : Partition}
      {s : Site} {clears : Prop} (before : Contributes n name evictions expirations m)
      (hm : m.WellFormed) (hq : m.find? other = some q) (hne : other ≠ name)
      (hs : (m.site q).Step clears s) :
      Contributes n name evictions expirations (m.settle s)
  /-- what is not counted contributes nothing -/
  | aside {evictions expirations : UInt64} {m k : Node}
      (before : Contributes n name evictions expirations m)
      (htally : (k.find? name).map Partition.tally = (m.find? name).map Partition.tally)
      (hevictions : k.totals.evictions = m.totals.evictions)
      (hexpirations : k.totals.expirations = m.totals.expirations) :
      Contributes n name evictions expirations k

theorem Contributes.trans {first second later last : UInt64}
    (h : n.Contributes name first second m) (hlater : m.Contributes name later last k) :
    n.Contributes name (first + later) (second + last) k := by
  induction hlater with
  | start =>
    rw [UInt64.add_zero, UInt64.add_zero]
    exact h
  | own before hm hp hs hclears ih =>
    rw [← UInt64.add_assoc, ← UInt64.add_assoc]
    exact ih.own hm hp hs hclears
  | elsewhere before hm hq hne hs ih => exact ih.elsewhere hm hq hne hs
  | aside before htally hevictions hexpirations ih =>
    exact ih.aside htally hevictions hexpirations

/-- A step that clears nothing adds as much to the node's counters as to the partition's. -/
theorem step_adds {clears : Prop} {s : Site} (hs : (n.site p).Step clears s)
    (hclears : ¬ clears) :
    s.part.tally.evictions = p.tally.evictions + (s.totals.evictions - n.totals.evictions) ∧
      s.part.tally.expirations =
        p.tally.expirations + (s.totals.expirations - n.totals.expirations) := by
  obtain ⟨script, hplays⟩ := hs.plays
  have hcounted := hplays.counted hclears
  have hadded : s.totals.evictions - n.totals.evictions = count .evict script ∧
      s.totals.expirations - n.totals.expirations = count .expire script := hplays.added hclears
  rw [hadded.1, hadded.2]
  exact ⟨congrArg Removals.evictions hcounted, congrArg Removals.expirations hcounted⟩

/-- The share of a partition in the node's counters is what it counts itself. -/
theorem Contributes.tally {evictions expirations : UInt64} {q : Partition}
    (h : n.Contributes name evictions expirations m) (hp : n.find? name = some p)
    (hq : m.find? name = some q) :
    q.tally.evictions = p.tally.evictions + evictions ∧
      q.tally.expirations = p.tally.expirations + expirations := by
  induction h generalizing q with
  | start =>
    rw [hp] at hq
    cases hq
    exact ⟨(UInt64.add_zero _).symm, (UInt64.add_zero _).symm⟩
  | @own e x m r s clears before hm hr hs hclears ih =>
    have hname : s.part.name = name := (Partition.name_eq hs.settings).trans (hm _ _ hr).named
    rw [find?_settle, if_pos hname.symm] at hq
    cases hq
    obtain ⟨hevictions, hexpirations⟩ := ih hr
    obtain ⟨hmore, hmoreExpirations⟩ := step_adds hs hclears
    rw [hmore, hmoreExpirations, hevictions, hexpirations, UInt64.add_assoc, UInt64.add_assoc]
    exact ⟨rfl, rfl⟩
  | @elsewhere e x m other r s clears before hm hr hne hs ih =>
    have hname : s.part.name = other := (Partition.name_eq hs.settings).trans (hm _ _ hr).named
    rw [find?_settle, hname, if_neg (Ne.symm hne)] at hq
    exact ih hq
  | @aside e x m k before htally hevictions hexpirations ih =>
    rw [hq] at htally
    obtain ⟨r, hr, hsame⟩ := Option.map_eq_some_iff.1 htally.symm
    rw [← hsame]
    exact ih hr

/-- The counters of removals go by a script: those of the partition, and its share in those of the
node. -/
def Counts (n : Node) (name : Bytes) (script : List Notice) (m : Node) : Prop :=
  ∃ p q, n.find? name = some p ∧ m.find? name = some q ∧
    q.tally.deletions = p.tally.deletions + count .delete script ∧
    q.tally.evictions = p.tally.evictions + count .evict script ∧
    q.tally.expirations = p.tally.expirations + count .expire script ∧
    n.Contributes name (count .evict script) (count .expire script) m

theorem Counts.trans {script more : List Notice} (h : n.Counts name script m)
    (hlater : m.Counts name more k) : n.Counts name (script ++ more) k := by
  obtain ⟨p, q, hp, hq, hdeletions, hevictions, hexpirations, hshare⟩ := h
  obtain ⟨q', r, hq', hr, hmoreDeletions, hmoreEvictions, hmoreExpirations, hmoreShare⟩ := hlater
  rw [hq] at hq'
  cases hq'
  refine ⟨p, r, hp, hr, ?_, ?_, ?_, ?_⟩
  · rw [hmoreDeletions, hdeletions, count_append, UInt64.add_assoc]
  · rw [hmoreEvictions, hevictions, count_append, UInt64.add_assoc]
  · rw [hmoreExpirations, hexpirations, count_append, UInt64.add_assoc]
  · rw [count_append, count_append]
    exact hshare.trans hmoreShare

-- ---------------------------------------------------------------------------
-- Scripts of what happens to a node
-- ---------------------------------------------------------------------------

/-- A script tells what happens in a partition between two nodes. Those predicates of the partition
that are kept get what they want of it, be it still in their queues or taken meanwhile, and while
one of them is kept and nothing is cleared the removals of the script are counted. -/
structure Tells (kept : Predicate → Prop) (clears : Prop) (name : Bytes)
    (taken : Subscriber → List ChangeEvent) (n : Node) (script : List Notice) (m : Node) :
    Prop where
  heard   : ∀ pr, pr.partition = name → kept pr → ∃ news,
    taken pr.owner ++ m.world.hub.queue pr.owner = n.world.hub.queue pr.owner ++ news ∧
      news.filter (·.isFor pr) = pr.hears script
  counted : ¬ clears → ∀ pr, pr.partition = name → kept pr → n.Counts name script m

theorem Tells.trans {kept keptLater : Predicate → Prop} {clears : Prop}
    {taken later : Subscriber → List ChangeEvent} {script more : List Notice}
    (h : Tells kept clears name taken n script m)
    (hlater : Tells keptLater clears name later m more k)
    (hkept : ∀ pr, pr.partition = name → kept pr → keptLater pr) :
    Tells kept clears name (fun who => taken who ++ later who) n (script ++ more) k where
  heard   := by
    intro pr hpr hk
    obtain ⟨first, hfirst, hown⟩ := h.heard pr hpr hk
    obtain ⟨second, hsecond, hlaterOwn⟩ := hlater.heard pr hpr (hkept pr hpr hk)
    refine ⟨first ++ second, ?_, ?_⟩
    · rw [List.append_assoc, hsecond, ← List.append_assoc, hfirst, List.append_assoc]
    · rw [List.filter_append, hown, hlaterOwn, pr.hears_append]
  counted := fun hclears pr hpr hk =>
    (h.counted hclears pr hpr hk).trans (hlater.counted hclears pr hpr (hkept pr hpr hk))

/-- Fewer predicates are kept, and clearing is ruled out for a weaker reason. -/
theorem Tells.mono {kept fewer : Predicate → Prop} {clears more : Prop}
    {taken : Subscriber → List ChangeEvent} {script : List Notice}
    (h : Tells kept clears name taken n script m)
    (hkept : ∀ pr, pr.partition = name → fewer pr → kept pr) (hclears : clears → more) :
    Tells fewer more name taken n script m where
  heard   := fun pr hpr hk => h.heard pr hpr (hkept pr hpr hk)
  counted := fun hmore pr hpr hk =>
    h.counted (fun hc => hmore (hclears hc)) pr hpr (hkept pr hpr hk)

/-- Where nothing happens there is nothing to count. -/
theorem Idle.counts (h : n.Idle pr taken m) : n.Counts pr.partition [] m := by
  obtain ⟨p, q, hp, hq, -, htally⟩ := h.part
  have hshare : n.Contributes pr.partition 0 0 m :=
    Contributes.start.aside (by rw [hp, hq, Option.map_some, Option.map_some, htally])
      h.evictions h.expirations
  exact ⟨p, q, hp, hq, by simp [htally, count], by simp [htally, count], by simp [htally, count],
    hshare⟩

/-- What no kept predicate is about has the empty script. -/
theorem tells_of_idle {kept : Predicate → Prop} {clears : Prop}
    {taken : Subscriber → List ChangeEvent}
    (h : ∀ pr, pr.partition = name → kept pr → n.Idle pr (taken pr.owner) m) :
    Tells kept clears name taken n [] m where
  heard   := by
    intro pr hpr hk
    exact ⟨[], by rw [(h pr hpr hk).queue, List.append_nil], rfl⟩
  counted := by
    rintro - pr rfl hk
    exact (h pr rfl hk).counts

/-- The script of a step is the script of the node in which it is made. -/
theorem tells_settle {clears : Prop} {s : Site} {script : List Notice} (hn : n.WellFormed)
    (hp : n.find? name = some p) (hs : (n.site p).Step clears s)
    (hplays : Site.Plays clears (n.site p) script s) :
    Tells n.Listens clears name (fun _ => []) n script (n.settle s) where
  heard   := by
    rintro pr rfl ⟨q, hq, hlistens⟩
    rw [hp] at hq
    cases hq
    exact hplays.heard pr hlistens
  counted := by
    rintro hclears pr rfl -
    have hcounted := hplays.counted hclears
    have hfind : (n.settle s).find? pr.partition = some s.part := by
      rw [find?_settle, Partition.name_eq hs.settings, if_pos]
      exact (hn _ _ hp).named.symm
    have hadded : s.totals.evictions - n.totals.evictions = count .evict script ∧
        s.totals.expirations - n.totals.expirations = count .expire script :=
      hplays.added hclears
    have hshare := Contributes.start.own hn hp hs hclears
    rw [hadded.1, hadded.2, UInt64.zero_add, UInt64.zero_add] at hshare
    exact ⟨p, s.part, hp, hfind, congrArg Removals.deletions hcounted,
      congrArg Removals.evictions hcounted, congrArg Removals.expirations hcounted, hshare⟩

/-- Predicates in place stay there when partitions change. -/
theorem Change.listens (h : Change allows clears n m) (hn : n.WellFormed) (hl : n.Listens pr) :
    m.Listens pr := by
  rcases h.cases_of_listens hn hl with
    ⟨p, s, hp, hs, rfl⟩ | ⟨other, q, s, hne, hq, hs, rfl⟩ | hidle
  · obtain ⟨q, hq, hlistens⟩ := hl
    rw [hp] at hq
    cases hq
    obtain ⟨script, hplays⟩ := hs.plays
    have hstill := hplays.listens pr hlistens
    exact ⟨s.part, by rw [find?_settle, if_pos hstill.named.symm], hstill⟩
  · exact (hl.elsewhere hn hq hne hs).1
  · exact hidle.listens

/-- Every change has a script for each partition. -/
theorem Change.tells (h : Change allows clears n m) (hn : n.WellFormed) (name : Bytes) :
    ∃ script, Tells n.Listens (clears name) name (fun _ => []) n script m := by
  by_cases hown : ∃ p s, n.find? name = some p ∧ (n.site p).Step (clears name) s ∧ m = n.settle s
  · obtain ⟨p, s, hp, hs, rfl⟩ := hown
    obtain ⟨script, hplays⟩ := hs.plays
    exact ⟨script, tells_settle hn hp hs hplays⟩
  · -- it is no step of the partition, so nobody hears of it there
    refine ⟨[], ?_, ?_⟩
    · rintro pr rfl hl
      rcases h.cases_of_listens hn hl with hstep | ⟨other, q, s, hne, hq, hs, rfl⟩ | hidle
      · exact absurd hstep hown
      · obtain ⟨-, -, hnews⟩ := hl.elsewhere hn hq hne hs
        exact hnews
      · exact ⟨[], by rw [hidle.queue, List.append_nil], rfl⟩
    · rintro - pr rfl hl
      rcases h.cases_of_listens hn hl with hstep | ⟨other, q, s, hne, hq, hs, rfl⟩ | hidle
      · exact absurd hstep hown
      · obtain ⟨p, hp, -⟩ := id hl
        obtain ⟨-, hfind, -⟩ := hl.elsewhere hn hq hne hs
        exact ⟨p, p, hp, hfind.trans hp, by simp [count], by simp [count], by simp [count],
          Contributes.start.elsewhere hn hq hne hs⟩
      · exact hidle.counts

theorem Changes.listens (h : Changes allows clears limit n m) (hn : n.WellFormed)
    (hl : n.Listens pr) : m.Listens pr := by
  induction h with
  | refl => exact hl
  | tail changes change _ ih => exact change.listens (changes.wellFormed hn) ih

theorem Changes.tells (h : Changes allows clears limit n m) (hn : n.WellFormed) (name : Bytes) :
    ∃ script, Tells n.Listens (clears name) name (fun _ => []) n script m := by
  induction h with
  | refl => exact ⟨[], tells_of_idle fun pr _ hl => Idle.refl hl⟩
  | tail changes change _ ih =>
    obtain ⟨script, htells⟩ := ih
    obtain ⟨more, hmore⟩ := change.tells (changes.wellFormed hn) name
    exact ⟨script ++ more, htells.trans hmore fun pr _ hl => changes.listens hn hl⟩

-- ---------------------------------------------------------------------------
-- Operations
-- ---------------------------------------------------------------------------

/-- Whether an operation empties a partition and clears its counters. -/
def Operation.Flushes (op : Operation) (name : Bytes) : Prop :=
  match op with
  | .flushPartition target => name = target
  | .flushAll => True
  | _ => False

instance (op : Operation) (name : Bytes) : Decidable (op.Flushes name) := by
  unfold Operation.Flushes
  split <;> infer_instance

/-- Counters are cleared by nothing but a flush and a deletion. -/
theorem Operation.flushes_of_clears {op : Operation} (h : op.Clears name)
    (hdelete : op ≠ .deletePartition name) : op.Flushes name := by
  cases op with
  | deletePartition target =>
    cases h
    exact absurd rfl hdelete
  | flushPartition target => exact h
  | flushAll => trivial
  | _ => cases h

/-- A partition that is still watched afterwards was not deleted, and nothing was done to it. -/
theorem idle_deletePartition (hn : n.WellFormed) (hl : n.Listens pr)
    (hafter : (n.deletePartition pr.partition).2.Attached pr) :
    n.Idle pr [] (n.deletePartition pr.partition).2 := by
  rcases deletePartition_cases n pr.partition with
    ⟨err, -, heq⟩ | ⟨p, hexisting, -, heq⟩ | ⟨p, -, -, -, hparts⟩
  · rw [heq]
    exact .refl hl
  · rw [heq]
    exact hl.pruneWatches hn (find?_of_existing hexisting).2
  · obtain ⟨⟨q, hq, -⟩, -⟩ := hafter
    rw [find?, hparts, Table.get?_erase_self] at hq
    cases hq

/-- Every operation has a script for each partition, which is heard by all predicates that are in
place before and after it. -/
theorem perform_tells {op : Operation} (hop : op.Genuine n) (hn : n.WellFormed)
    (hs : n.Subscribed) (name : Bytes) :
    ∃ script, Tells (fun pr => n.Attached pr ∧ (n.perform op).2.Attached pr) (op.Flushes name)
      name (op.taken n) n script (n.perform op).2 := by
  cases hsub : op.isSubscription with
  | true => exact ⟨[], tells_of_idle fun pr _ hk => perform_idle hop hsub hn hs hk.1 hk.2⟩
  | false =>
    have htaken : op.taken n = fun _ => [] := funext (taken_of_not_isSubscription hsub)
    rw [htaken]
    by_cases hdelete : op = .deletePartition name
    · subst hdelete
      refine ⟨[], tells_of_idle ?_⟩
      rintro pr rfl ⟨hbefore, hafter⟩
      exact idle_deletePartition hn (hbefore.listens hn hs) hafter
    · obtain ⟨script, htells⟩ := (perform_changes_below op hsub hn).tells hn name
      exact ⟨script, htells.mono (fun pr _ hk => hk.1.listens hn hs)
        fun hclears => Operation.flushes_of_clears hclears hdelete⟩

-- ---------------------------------------------------------------------------
-- Runs
-- ---------------------------------------------------------------------------

instance (n : Node) (pr : Predicate) : Decidable (n.Attached pr) :=
  decidable_of_iff
    ((n.find? pr.partition).any (fun p => pr ∈ p.watches.predicates) = true ∧
      n.world.hub.isOpen pr.owner = true)
    (by simp [Attached, Option.any_eq_true])

/-- A predicate is attached before a sequence of operations and stays so. -/
def Stays (pr : Predicate) (ops : List Operation) (n : Node) : Prop :=
  n.Attached pr ∧ Along (fun k op => (k.perform op).2.Attached pr) ops n

instance (pr : Predicate) (ops : List Operation) (n : Node) : Decidable (Stays pr ops n) :=
  inferInstanceAs (Decidable (_ ∧ _))

/-- The events that a sequence of operations takes from a subscriber's queue. -/
def takenAlong : List Operation → Node → Subscriber → List ChangeEvent
  | [], _, _ => []
  | op :: rest, n, who => op.taken n who ++ takenAlong rest (n.perform op).2 who

/-- The events that a predicate gets during a sequence of operations: of those that are taken on the
way and those that wait at the end, the ones that did not wait already at the start. -/
def delivered (pr : Predicate) (ops : List Operation) (n : Node) : List ChangeEvent :=
  ((takenAlong ops n pr.owner ++ (performAll ops n).2.world.hub.queue pr.owner).drop
    (n.world.hub.queue pr.owner).length).filter (·.isFor pr)

/-- Every run has a script for each partition, which is heard by all predicates that stay in place
all the time. -/
theorem performAll_tells {clears : Prop} {ops : List Operation} (hn : n.WellFormed)
    (hs : n.Subscribed) (name : Bytes)
    (hops : Along (fun k op => op.Genuine k ∧ (op.Flushes name → clears)) ops n) :
    ∃ script, Tells (fun pr => Stays pr ops n) clears name (takenAlong ops n) n script
      (performAll ops n).2 := by
  induction ops generalizing n with
  | nil => exact ⟨[], tells_of_idle fun pr _ hk => Idle.refl (hk.1.listens hn hs)⟩
  | cons op rest ih =>
    obtain ⟨⟨hop, hflushes⟩, hrest⟩ := hops
    obtain ⟨script, hfirst⟩ := perform_tells hop hn hs name
    obtain ⟨more, hlater⟩ := ih (perform_wellFormed op hn) (perform_subscribed hop hn hs) hrest
    have hkept : Tells (fun pr => Stays pr (op :: rest) n) clears name (op.taken n) n script
        (n.perform op).2 :=
      hfirst.mono (fun pr _ hk => ⟨hk.1, hk.2.1⟩) hflushes
    exact ⟨script ++ more, hkept.trans hlater fun pr _ hk => hk.2⟩

/-- What a predicate gets during a run is what it wants of the script, and its queue loses nothing
of what waited before. -/
theorem Tells.delivered_eq {clears : Prop} {ops : List Operation} {script : List Notice}
    (h : Tells (fun pr => Stays pr ops n) clears name (takenAlong ops n) n script
      (performAll ops n).2) (hname : pr.partition = name) (hstays : Stays pr ops n) :
    delivered pr ops n = pr.hears script := by
  obtain ⟨news, hnews, hown⟩ := h.heard pr hname hstays
  rw [delivered, hnews, List.drop_left, hown]

/-- Two predicates of one partition stay attached during a run, and the first one wants every event.
The other one gets those of the first one's events that have its key, if it asks for one, and a
kind that its filter names, if that names any: the same events in the same order, but for the watch
id. -/
theorem delivered_selected {all : Predicate} {ops : List Operation} (hn : n.Reachable)
    (hall : all.TakesAll) (hsame : pr.partition = all.partition)
    (hops : Along (fun k op => op.Genuine k) ops n) (hstaysAll : Stays all ops n)
    (hstays : Stays pr ops n) :
    delivered pr ops n =
      ((delivered all ops n).filter fun event =>
        (pr.key = none ∨ pr.key = some event.key) ∧
          (pr.filter = .empty ∨ pr.filter.names event.kind)).map fun event =>
            { event with watchId := pr.watchId } := by
  obtain ⟨script, htells⟩ := performAll_tells hn.wellFormed hn.subscribed
    all.partition (hops.imp fun _ _ hop => ⟨hop, fun _ => trivial⟩)
  rw [htells.delivered_eq rfl hstaysAll, htells.delivered_eq hsame hstays,
    Predicate.hears_eq_map script hall.wants, List.filter_map, List.map_map]
  -- both sides are selections from one script, addressed to one predicate
  have hselected (notice : Notice) : pr.wants notice.key notice.kind =
      decide ((pr.key = none ∨ pr.key = some notice.key) ∧
        (pr.filter = .empty ∨ pr.filter.names notice.kind)) :=
    Bool.eq_iff_iff.2 (pr.wants_iff.trans decide_eq_true_iff.symm)
  have haddressed (notice : Notice) :
      pr.event notice = { all.event notice with watchId := pr.watchId } := by
    rw [Predicate.event, hsame]
    rfl
  rw [Predicate.hears, List.map_congr_left fun notice _ => haddressed notice,
    List.filter_congr fun notice _ => hselected notice]
  rfl

/-- A predicate on writes and expirations of one key of the partition `p`. -/
def selective : Predicate :=
  ⟨⟨1, 2⟩, 9, [112], some [97], { write := true, expire := true }⟩

/-- The partition `p` has one entry, which expires soon, and is watched by three subscribers. -/
def audience : List Operation :=
  [ .putPartition [112] { createDate := (bare {}).today, interval := 10 },
    .put .upsert [112] [97] [1] 5,
    .openWatcher, .openWatcher, .openWatcher,
    .watch ⟨2, 3⟩ 1 [112] none .empty,
    .watch ⟨0, 1⟩ 8 [112] none { delete := true },
    .watch ⟨1, 2⟩ 9 [112] (some [97]) { write := true, expire := true },
    .watch ⟨0, 1⟩ 7 [112] none .empty ]

/-- One of the subscribers goes, which the next event finds out, and another one replaces a
predicate and removes it, while entries are written and deleted. -/
def turbulence : List Operation :=
  [ .leave ⟨2, 3⟩,
    .put .upsert [112] [97] [2] 50,
    .put .upsert [112] [98] [3] 51,
    .watch ⟨0, 1⟩ 8 [112] (some [98]) .empty,
    .drain ⟨0, 1⟩,
    .delete [112] [97] 52,
    .unwatch 1 8 [112],
    .put .upsert [112] [97] [4] 53 ]

theorem delivered_selected_turbulence :
    delivered selective turbulence (performAll audience (bare {})).2 =
        [⟨9, [112], [97], none, .expire⟩, ⟨9, [112], [97], some [2], .write⟩,
          ⟨9, [112], [97], some [4], .write⟩] ∧
      delivered selective turbulence (performAll audience (bare {})).2 =
        ((delivered everything turbulence (performAll audience (bare {})).2).filter fun event =>
          (selective.key = none ∨ selective.key = some event.key) ∧
            (selective.filter = .empty ∨ selective.filter.names event.kind)).map fun event =>
              { event with watchId := selective.watchId } := by
  have hreached : (performAll audience (bare {})).2.Reachable :=
    ⟨bare {}, fresh_bare {}, Reaches.start.performAll audience (by decide)⟩
  exact ⟨by decide, delivered_selected hreached ⟨rfl, rfl⟩ rfl (by decide) (by decide) (by decide)⟩

/-- A predicate that wants every event stays attached during a run in which its partition is not
flushed. As many deletions, evictions and expirations as the partition has counted, so many events
of that kind the predicate got, and as many evictions and expirations the partition has added to the
node's counters. -/
theorem delivered_counted {ops : List Operation} (hn : n.Reachable)
    (hpr : ∀ key kind, pr.wants key kind = true)
    (hops : Along (fun k op => op.Genuine k ∧ ¬ op.Flushes pr.partition) ops n)
    (hstays : Stays pr ops n) :
    ∃ p q, n.find? pr.partition = some p ∧ (performAll ops n).2.find? pr.partition = some q ∧
      q.tally.deletions =
        p.tally.deletions + .ofNat ((delivered pr ops n).countP (·.kind = .delete)) ∧
      q.tally.evictions =
        p.tally.evictions + .ofNat ((delivered pr ops n).countP (·.kind = .evict)) ∧
      q.tally.expirations =
        p.tally.expirations + .ofNat ((delivered pr ops n).countP (·.kind = .expire)) ∧
      n.Contributes pr.partition (.ofNat ((delivered pr ops n).countP (·.kind = .evict)))
        (.ofNat ((delivered pr ops n).countP (·.kind = .expire))) (performAll ops n).2 := by
  obtain ⟨script, htells⟩ := performAll_tells hn.wellFormed hn.subscribed
    pr.partition (hops.imp fun _ _ hop => hop)
  have hcounts := htells.counted not_false pr rfl hstays
  rw [htells.delivered_eq rfl hstays, ← Predicate.count_eq_countP script hpr,
    ← Predicate.count_eq_countP script hpr, ← Predicate.count_eq_countP script hpr]
  exact hcounts

/-- Two partitions with room for one entry each. The one named `p` has one, and it is watched. -/
def scarcity : List Operation :=
  [ .putPartition [112] { createDate := (bare {}).today, interval := 10, maxCacheSize := 4 },
    .putPartition [113] { createDate := (bare {}).today, maxCacheSize := 4 },
    .openWatcher,
    .watch ⟨0, 1⟩ 7 [112] none .empty,
    .put .upsert [112] [97] [1, 1] 1 ]

/-- Entries are evicted from both partitions, the other one is flushed, and an expired entry of the
first one is overwritten and then deleted. -/
def attrition : List Operation :=
  [ .put .upsert [112] [98] [1, 1] 2,
    .put .upsert [113] [97] [1, 1] 3,
    .put .upsert [113] [98] [1, 1] 4,
    .flushPartition [113],
    .drain ⟨0, 1⟩,
    .put .upsert [112] [98] [2, 2] 50,
    .delete [112] [98] 51 ]

/-- Of two evictions that the node counts the partition contributes one. -/
theorem delivered_counted_attrition :
    (delivered everything attrition (performAll scarcity (bare {})).2 =
        [⟨7, [112], [97], none, .evict⟩, ⟨7, [112], [98], some [1, 1], .write⟩,
          ⟨7, [112], [98], none, .expire⟩, ⟨7, [112], [98], some [2, 2], .write⟩,
          ⟨7, [112], [98], none, .delete⟩] ∧
      (performAll attrition (performAll scarcity (bare {})).2).2.totals.evictions = 2) ∧
    ∃ p q, (performAll scarcity (bare {})).2.find? [112] = some p ∧
      (performAll attrition (performAll scarcity (bare {})).2).2.find? [112] = some q ∧
      q.tally.deletions = p.tally.deletions + 1 ∧ q.tally.evictions = p.tally.evictions + 1 ∧
      q.tally.expirations = p.tally.expirations + 1 ∧
      (performAll scarcity (bare {})).2.Contributes [112] 1 1
        (performAll attrition (performAll scarcity (bare {})).2).2 := by
  have hreached : (performAll scarcity (bare {})).2.Reachable :=
    ⟨bare {}, fresh_bare {}, Reaches.start.performAll scarcity (by decide)⟩
  have hops : Along (fun k op => op.Genuine k ∧ ¬ op.Flushes everything.partition) attrition
      (performAll scarcity (bare {})).2 := by decide +kernel
  have hdelivered : delivered everything attrition (performAll scarcity (bare {})).2 =
      [⟨7, [112], [97], none, .evict⟩, ⟨7, [112], [98], some [1, 1], .write⟩,
        ⟨7, [112], [98], none, .expire⟩, ⟨7, [112], [98], some [2, 2], .write⟩,
        ⟨7, [112], [98], none, .delete⟩] := by decide +kernel
  have hcounted := delivered_counted hreached (Predicate.TakesAll.wants ⟨rfl, rfl⟩) hops (by decide +kernel)
  rw [hdelivered] at hcounted
  exact ⟨⟨hdelivered, by decide +kernel⟩, hcounted⟩

end CacheNode.Node

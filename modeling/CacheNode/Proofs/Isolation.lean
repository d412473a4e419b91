import CacheNode.Proofs.Attempts
import CacheNode.Proofs.Subscriptions

/-!
# CacheNode — whom a write may affect

A write changes the partition that it is aimed at, and to make room it may evict elsewhere. Only
partitions without a bound that may evict are drawn into this, on both sides: a partition that has
a budget of its own, or that never evicts, neither takes room from others nor gives any. Whatever
a write does not touch keeps its entries, its settings, its counters and its predicates, and no
event of it is queued.

* `Partition.isSecluded` — whether a partition takes no part in this;
* `Node.victimFor_cases` — who can be chosen to make room;
* `Node.Confined` — a change that touches some partitions only;
* `Node.write_isolated` — what a write leaves alone.
-/

namespace CacheNode

/-- Whether a partition neither gives room to other partitions nor takes any from them: it has a
budget of its own, or it never evicts. -/
def Partition.isSecluded (p : Partition) : Bool :=
  p.metadata.isBounded || p.metadata.policy = .noEviction

/-- The events of one partition that wait for a subscriber. -/
def Hub.eventsOf (hub : Hub) (who : Subscriber) (partition : Bytes) : List ChangeEvent :=
  (hub.queue who).filter (·.partition = partition)

namespace Node

/-- The partitions that a write to a name may touch: its own, and if that one is not secluded the
others that are not. -/
def Touches (n : Node) (name other : Bytes) : Prop :=
  other = name ∨
    (n.target name).isSecluded = false ∧ ∃ q, n.find? other = some q ∧ q.isSecluded = false

/-- The partitions that may have to make room for a write to a name. -/
def Spends (n : Node) (name victim : Bytes) : Prop :=
  ∃ p, n.find? name = some p ∧ p.evicts = true ∧
    (victim = name ∨
      p.isBounded = false ∧ ∃ q, n.find? victim = some q ∧ q.isBounded = false ∧ q.evicts = true)

/-- Between two nodes only some partitions were touched: settings are the same everywhere, other
partitions are the same altogether, and queues have grown by events of those that were touched. -/
structure Confined (touched : Bytes → Prop) (n m : Node) : Prop where
  settings : ∀ other,
    (m.find? other).map Partition.settings = (n.find? other).map Partition.settings
  others   : ∀ other, ¬ touched other → m.find? other = n.find? other
  queue    : ∀ who, ∃ news, m.world.hub.queue who = n.world.hub.queue who ++ news ∧
    ∀ event ∈ news, touched event.partition

variable {n m k : Node} {name other : Bytes} {p q : Partition} {now : Millis}
  {touched : Bytes → Prop}

-- ---------------------------------------------------------------------------
-- Victims
-- ---------------------------------------------------------------------------

theorem mem_of_coldest {partitions : List Partition} (h : coldest partitions = some q) :
    q ∈ partitions := by
  induction partitions with
  | nil => cases h
  | cons first rest ih =>
    rw [coldest] at h
    split at h
    · cases h
      exact List.mem_cons_self
    · next colder hcolder =>
      split at h
      · cases h
        exact List.mem_cons_of_mem _ (ih hcolder)
      · cases h
        exact List.mem_cons_self

/-- The partition that makes room for another is that one itself, or both draw from the shared part
of the budget and it may evict. -/
theorem victimFor_cases (hn : n.WellFormed) (p : Partition) :
    (n.victimFor p).1 = p.name ∨
      p.isBounded = false ∧
        ∃ q, n.find? (n.victimFor p).1 = some q ∧ q.isBounded = false ∧ q.evicts = true := by
  by_cases hbounded : p.isBounded = true
  · exact .inl (by simp only [victimFor, if_pos hbounded])
  · simp only [victimFor, if_neg hbounded]
    generalize hchosen : n.world.draws.choose _ _ = chosen
    cases hcoldest : coldest chosen.1 with
    | none => exact .inl rfl
    | some q =>
      -- nobody is chosen who was not eligible
      have hmem : q ∈ (n.partitions.rows.map Prod.snd).filter isEligible := by
        apply Draws.mem_of_mem_choose
        rw [hchosen]
        exact mem_of_coldest hcoldest
      obtain ⟨hrow, heligible⟩ := List.mem_filter.1 hmem
      obtain ⟨⟨key, r⟩, hkey, rfl⟩ := List.mem_map.1 hrow
      have hq : n.find? key = some r := Table.mem_rows_iff.1 hkey
      simp only [isEligible, Bool.and_eq_true, Bool.not_eq_true'] at heligible
      obtain ⟨⟨⟨hunbounded, hevicts⟩, -⟩, -⟩ := heligible
      refine .inr ⟨by simpa using hbounded, r, ?_, hunbounded, hevicts⟩
      show n.find? r.name = some r
      rw [(hn _ _ hq).named]
      exact hq

/-- What the draws for a victim keep, and every eviction from a partition that may have to make
room, is kept by a round. -/
theorem makeRoom_spends {P : Node → Prop} {bytes : ByteCount} (hn : n.WellFormed) (h : P n)
    (hdraw : ∀ p, P (n.victimFor p).2)
    (hevict : ∀ m victim, n.Spends name victim → P m → P (m.evictFrom victim bytes now).2) :
    P (n.makeRoom name bytes now).2 := by
  cases hfind : n.find? name with
  | none =>
    simp only [makeRoom, hfind]
    exact h
  | some p =>
    by_cases hrefused : p.evicts = false ∨
        (if p.isBounded then p.bound else n.totals.unreservedBudget) < bytes
    · simp only [makeRoom, hfind, if_pos hrefused]
      exact h
    · have hevicts : p.evicts = true := by
        simpa using (not_or.1 hrefused).1
      have hvictim : n.Spends name (n.victimFor p).1 := by
        refine ⟨p, hfind, hevicts, ?_⟩
        rw [← (hn _ _ hfind).named]
        exact victimFor_cases hn p
      have hfreed := hevict _ _ hvictim (hdraw p)
      have hown := hevict _ _ ⟨p, hfind, hevicts, .inl rfl⟩ hfreed
      simp only [makeRoom, hfind, if_neg hrefused]
      split
      · exact hfreed
      · split
        · exact hfreed
        · exact hown

-- ---------------------------------------------------------------------------
-- Confined changes
-- ---------------------------------------------------------------------------

namespace Confined

/-- Nothing has happened in the table or to the channels. -/
theorem of_same (touched : Bytes → Prop) (hpartitions : m.partitions = n.partitions)
    (hhub : m.world.hub = n.world.hub) : Confined touched n m where
  settings := fun _ => by rw [find?, hpartitions, find?]
  others   := fun _ _ => by rw [find?, hpartitions, find?]
  queue    := fun _ => ⟨[], by simp [hhub], by simp⟩

theorem refl (touched : Bytes → Prop) (n : Node) : Confined touched n n :=
  of_same touched rfl rfl

theorem trans (h : Confined touched n m) (hlater : Confined touched m k) :
    Confined touched n k where
  settings := fun other => (hlater.settings other).trans (h.settings other)
  others   := fun other hother => (hlater.others other hother).trans (h.others other hother)
  queue    := by
    intro who
    obtain ⟨first, hfirst, htouched⟩ := h.queue who
    obtain ⟨second, hsecond, htouched'⟩ := hlater.queue who
    refine ⟨first ++ second, by rw [hsecond, hfirst, List.append_assoc], ?_⟩
    intro event hevent
    rcases List.mem_append.1 hevent with hevent | hevent
    · exact htouched event hevent
    · exact htouched' event hevent

/-- Work on one partition that may be touched. -/
theorem settle {clears : Prop} {limit : Nat} {s : Site} (hn : n.WellFormed)
    (hp : n.find? name = some p) (hname : touched name) (h : (n.site p).Steps clears limit s) :
    (n.settle s).WellFormed ∧ Confined touched n (n.settle s) := by
  have hpart := hn _ _ hp
  have hnamed : s.part.name = name := (Partition.name_eq h.settings).trans hpart.named
  refine ⟨hn.settle (hpart.of_settings h.settings (h.keyed hpart.keyed)), ?_, ?_, ?_⟩
  · intro other
    rw [find?_settle, hnamed]
    split
    · next hsame =>
      subst hsame
      rw [hp]
      exact congrArg some h.settings
    · rfl
  · intro other hother
    rw [find?_settle, hnamed, if_neg]
    intro hsame
    exact hother (hsame ▸ hname)
  · intro who
    obtain ⟨news, hnews, hsource⟩ := h.gains.queue who
    refine ⟨news, hnews, fun event hevent => ?_⟩
    have hpartition : event.partition = name := (hsource event hevent).trans hpart.named
    rw [hpartition]
    exact hname

/-- What is there afterwards was there before, with the same settings. -/
theorem settings_of_find?' (h : Confined touched n m) (hq : m.find? name = some q) :
    ∃ p, n.find? name = some p ∧ q.settings = p.settings := by
  have hsettings := h.settings name
  rw [hq] at hsettings
  obtain ⟨p, hp, hsame⟩ := Option.map_eq_some_iff.1 hsettings.symm
  exact ⟨p, hp, hsame.symm⟩

/-- Events of a partition that is not touched stay the same. -/
theorem eventsOf (h : Confined touched n m) (hother : ¬ touched other) (who : Subscriber) :
    m.world.hub.eventsOf who other = n.world.hub.eventsOf who other := by
  obtain ⟨news, hnews, htouched⟩ := h.queue who
  have hnone : news.filter (·.partition = other) = [] := by
    apply List.filter_eq_nil_iff.2
    intro event hevent hsame
    have hpartition : event.partition = other := by simpa using hsame
    exact hother (hpartition ▸ htouched event hevent)
  rw [Hub.eventsOf, Hub.eventsOf, hnews, List.filter_append, hnone, List.append_nil]

end Confined

theorem confined_evictFrom (bytes : ByteCount) (now : Millis) (hn : n.WellFormed)
    (hname : touched name) :
    (n.evictFrom name bytes now).2.WellFormed ∧
      Confined touched n (n.evictFrom name bytes now).2 := by
  cases hfind : n.find? name with
  | none =>
    simp only [evictFrom, visit, hfind]
    exact ⟨hn, .refl touched n⟩
  | some p =>
    simp only [evictFrom, visit, hfind, Option.map_some, act]
    have hsteps : Site.Steps False _ (n.site p) _ :=
      Site.steps_evict (evictionCount p.tally bytes) now (.room bytes) (Nat.lt_succ_self p.bytes)
    exact Confined.settle hn hfind hname hsteps

theorem confined_makeRoom (bytes : ByteCount) (now : Millis) (hn : n.WellFormed)
    (hspends : ∀ victim, n.Spends name victim → touched victim) :
    (n.makeRoom name bytes now).2.WellFormed ∧
      Confined touched n (n.makeRoom name bytes now).2 := by
  apply makeRoom_spends (P := fun m => m.WellFormed ∧ Confined touched n m) hn
    ⟨hn, .refl touched n⟩
  · -- the choice of a victim only takes draws
    intro p
    simp only [victimFor]
    split
    · exact ⟨hn, .refl touched n⟩
    · exact ⟨hn, .of_same touched rfl rfl⟩
  · rintro m victim hvictim ⟨hm, hconfined⟩
    obtain ⟨hwf, hevicted⟩ := confined_evictFrom bytes now hm (hspends victim hvictim)
    exact ⟨hwf, hconfined.trans hevicted⟩

-- ---------------------------------------------------------------------------
-- Writes
-- ---------------------------------------------------------------------------

/-- A partition of the table is secluded unless it draws from the shared part and may evict. -/
theorem isSecluded_eq_false_iff (hn : n.WellFormed) (hp : n.find? name = some p) :
    p.isSecluded = false ↔ p.isBounded = false ∧ p.evicts = true := by
  have hpart := hn _ _ hp
  simp [Partition.isSecluded, Partition.isBounded, Metadata.isBounded, hpart.bound, hpart.evicts,
    Metadata.evicts]

theorem isSecluded_eq (h : q.settings = p.settings) : q.isSecluded = p.isSecluded := by
  rw [Partition.isSecluded, Partition.isSecluded, Partition.metadata_eq h]

/-- Settings do not change while a write goes on, so those who may have to make room in one of its
rounds are among those that it may touch. -/
theorem touches_of_spends {victim : Bytes} (hm : m.WellFormed)
    (h : Confined touched (n.entered name) m) (hspends : m.Spends name victim) :
    n.Touches name victim := by
  obtain ⟨p, hp, hevicts, hvictim⟩ := hspends
  rcases hvictim with rfl | ⟨hbounded, q, hq, hqbounded, hqevicts⟩
  · exact .inl rfl
  · by_cases hsame : victim = name
    · exact .inl hsame
    · obtain ⟨r, hr, hrsettings⟩ := h.settings_of_find?' hp
      obtain ⟨o, ho, hosettings⟩ := h.settings_of_find?' hq
      rw [find?_entered] at hr
      rw [find?_entered_of_ne n hsame] at ho
      cases hr
      refine .inr ⟨?_, o, ho, ?_⟩
      · rw [← isSecluded_eq hrsettings]
        exact (isSecluded_eq_false_iff hm hp).2 ⟨hbounded, hevicts⟩
      · rw [← isSecluded_eq hosettings]
        exact (isSecluded_eq_false_iff hm hq).2 ⟨hqbounded, hqevicts⟩

variable {α : Type} {keys : List Bytes}
  {write : Site → Except CacheError (Admission α) × Site}

/-- An attempt touches the partition that is written to. -/
theorem confined_attempt (hwrite : Site.Writing write) (hn : n.WellFormed)
    (hp : n.find? name = some p) (hname : touched name) :
    (n.settle (write (n.site p)).2).WellFormed ∧
      Confined touched n (n.settle (write (n.site p)).2) := by
  obtain ⟨limit, hsteps⟩ := steps_attempt hwrite (n.site p)
  exact Confined.settle hn hp hname hsteps

theorem confined_accept (now : Millis) (hwrite : Site.Writing write) (hn : n.WellFormed)
    (hname : PartitionName.Valid name) :
    ((n.entered name).accept name now write).2.WellFormed ∧
      Confined (n.Touches name) (n.entered name) ((n.entered name).accept name now write).2 := by
  have hself : n.Touches name name := .inl rfl
  apply tryWrite_induction
    (P := fun m => m.WellFormed ∧ Confined (n.Touches name) (n.entered name) m) attempts 0
    ⟨entered_wellFormed hn hname, .refl _ _⟩
  · rintro m p ⟨hm, hconfined⟩ hp
    obtain ⟨hwf, hattempt⟩ := confined_attempt hwrite hm hp hself
    exact ⟨hwf, hconfined.trans hattempt⟩
  · rintro m bytes ⟨hm, hconfined⟩
    obtain ⟨hwf, hroom⟩ := confined_makeRoom bytes now hm
      fun victim hvictim => touches_of_spends hm hconfined hvictim
    exact ⟨hwf, hconfined.trans hroom⟩

/-- What a write does not touch stays the same, and so do the events of it that wait. -/
theorem write_confined {op : Operation} (hn : n.WellFormed)
    (hop : op.target? = some (name, now)) (hother : ¬ n.Touches name other) :
    (n.perform op).2.find? other = n.find? other ∧
      ∀ who, (n.perform op).2.world.hub.eventsOf who other = n.world.hub.eventsOf who other := by
  have hne : other ≠ name := fun hsame => hother (.inl hsame)
  rcases perform_write hop n with ⟨err, -, heq⟩ | ⟨hname, α, shape, write, hwrite, -, heq⟩
  · rw [heq]
    exact ⟨rfl, fun _ => rfl⟩
  · obtain ⟨-, hconfined⟩ := confined_accept now hwrite.toWriting hn hname
    have hevents (who : Subscriber) := hconfined.eventsOf hother who
    simp only [hub_entered] at hevents
    rw [heq]
    exact ⟨(hconfined.others other hother).trans (find?_entered_of_ne n hne), hevents⟩

-- ---------------------------------------------------------------------------
-- Partitions that never evict
-- ---------------------------------------------------------------------------

/-- No room is made in favour of a partition that never evicts. -/
theorem makeRoom_of_not_evicts {bytes : ByteCount} (hp : n.find? name = some p)
    (hevicts : p.evicts = false) : n.makeRoom name bytes now = (false, n) := by
  simp only [makeRoom, hp, hevicts, true_or, if_true]

/-- A write to a partition that never evicts keeps every live key, and every live entry under
another key than those it is about. -/
theorem accept_of_not_evicts {key : Bytes} {e : Entry} (hwrite : Site.Attempt now keys write)
    (hn : n.WellFormed) (hp : n.find? name = some p) (hevicts : p.evicts = false)
    (he : p.entries.get? key = some e) (hlive : e.isExpired (p.expiry now) = false) :
    ∃ q, (n.accept name now write).2.find? name = some q ∧ q.settings = p.settings ∧
      ∃ f, q.entries.get? key = some f ∧ f.isExpired (p.expiry now) = false ∧
        (key ∉ keys → f = e) := by
  apply tryWrite_induction
    (P := fun m => ∃ q, m.find? name = some q ∧ q.settings = p.settings ∧
      ∃ f, q.entries.get? key = some f ∧ f.isExpired (p.expiry now) = false ∧
        (key ∉ keys → f = e)) attempts 0
  · exact ⟨p, hp, rfl, e, he, hlive, fun _ => rfl⟩
  · rintro m r ⟨q, hq, hsettings, f, hf, hflive, hsame⟩ hr
    rw [hq] at hr
    obtain rfl : q = r := Option.some.inj hr
    have hnamed : (write (m.site q)).2.part.name = name := by
      rw [Partition.name_eq (hwrite.settings (m.site q))]
      exact (Partition.name_eq hsettings).trans (hn _ _ hp).named
    have hexpiry := Site.expiry_eq hsettings now
    refine ⟨(write (m.site q)).2.part, ?_, (hwrite.settings (m.site q)).trans hsettings, ?_⟩
    · rw [find?_settle, if_pos hnamed.symm]
    · -- the key is still live, and its entry is the same unless the write is about it
      have hthere : q.isLive key (q.expiry now) = true :=
        Partition.isLive_iff.2 ⟨f, hf, by rw [hexpiry]; exact hflive⟩
      obtain ⟨g, hg, hglive⟩ := Partition.isLive_iff.1 (hwrite.live (m.site q) key hthere)
      refine ⟨g, hg, hexpiry ▸ hglive, fun hkey => ?_⟩
      have hother := hwrite.others (m.site q) key hkey
      rw [hg] at hother
      rw [← hsame hkey]
      exact Option.some.inj (hother.trans hf)
  · rintro m bytes ⟨q, hq, hsettings, hkept⟩
    rw [makeRoom_of_not_evicts hq (by rw [Partition.evicts_eq hsettings, hevicts])]
    exact ⟨q, hq, hsettings, hkept⟩

/-- The same about a write as an operation. -/
theorem perform_of_not_evicts {op : Operation} {key : Bytes} {e : Entry} (hn : n.WellFormed)
    (hop : op.target? = some (name, now)) (hp : n.find? name = some p)
    (hpolicy : p.metadata.policy = .noEviction) (he : p.entries.get? key = some e)
    (hlive : e.isExpired (p.expiry now) = false) :
    ∃ q f, (n.perform op).2.find? name = some q ∧ q.entries.get? key = some f ∧
      f.isExpired (q.expiry now) = false ∧ (key ∉ op.keys → f = e) := by
  have hevicts : p.evicts = false := by
    rw [(hn _ _ hp).evicts, Metadata.evicts, hpolicy]
    rfl
  rcases perform_write hop n with ⟨err, -, heq⟩ | ⟨-, α, shape, write, hwrite, -, heq⟩
  · rw [heq]
    exact ⟨p, e, hp, he, hlive, fun _ => rfl⟩
  · rw [entered_of_find? hp] at heq
    obtain ⟨q, hq, hsettings, f, hf, hflive, hsame⟩ :=
      accept_of_not_evicts hwrite hn hp hevicts he hlive
    rw [heq]
    refine ⟨q, f, hq, hf, ?_, hsame⟩
    rw [Site.expiry_eq hsettings]
    exact hflive

/-- A secluded partition is touched by writes to itself only. -/
theorem not_touches_of_isSecluded (hne : other ≠ name) (hq : n.find? other = some q)
    (hsecluded : q.isSecluded = true) : ¬ n.Touches name other := by
  rintro (hsame | ⟨-, r, hr, hopen⟩)
  · exact hne hsame
  · rw [hq] at hr
    obtain rfl : q = r := Option.some.inj hr
    rw [hsecluded] at hopen
    cases hopen

/-- Writes to a secluded partition touch no other. -/
theorem not_touches_of_target (hne : other ≠ name)
    (hsecluded : (n.target name).isSecluded = true) : ¬ n.Touches name other := by
  rintro (hsame | ⟨hopen, -⟩)
  · exact hne hsame
  · rw [hsecluded] at hopen
    cases hopen

/-- Whatever a write returns and whatever is drawn on the way: other partitions that are secluded
stay the same, all other partitions stay the same if the one that is written to is secluded, and a
partition that never evicts keeps all its live keys, with their entries unless the write is about
them. -/
theorem write_isolated {op : Operation} (hn : n.Reachable)
    (hop : op.target? = some (name, now)) :
    (∀ other q, other ≠ name → n.find? other = some q → q.isSecluded = true →
        (n.perform op).2.find? other = some q ∧
          ∀ who, (n.perform op).2.world.hub.eventsOf who other =
            n.world.hub.eventsOf who other) ∧
      ((n.target name).isSecluded = true → ∀ other, other ≠ name →
        (n.perform op).2.find? other = n.find? other ∧
          ∀ who, (n.perform op).2.world.hub.eventsOf who other =
            n.world.hub.eventsOf who other) ∧
      ∀ other q key e, n.find? other = some q → q.metadata.policy = .noEviction →
        q.entries.get? key = some e → e.isExpired (q.expiry now) = false →
        ∃ r f, (n.perform op).2.find? other = some r ∧ r.entries.get? key = some f ∧
          f.isExpired (r.expiry now) = false ∧ (other ≠ name ∨ key ∉ op.keys → f = e) := by
  have hwf := hn.wellFormed
  refine ⟨?_, ?_, ?_⟩
  · intro other q hne hq hsecluded
    rw [← hq]
    exact write_confined hwf hop (not_touches_of_isSecluded hne hq hsecluded)
  · intro hsecluded other hne
    exact write_confined hwf hop (not_touches_of_target hne hsecluded)
  · intro other q key e hq hpolicy he hlive
    by_cases hsame : other = name
    · -- the partition that is written to
      subst hsame
      obtain ⟨r, f, hr, hf, hflive, hfe⟩ := perform_of_not_evicts hwf hop hq hpolicy he hlive
      exact ⟨r, f, hr, hf, hflive, fun hkey => hfe (hkey.resolve_left fun hne => hne rfl)⟩
    · -- another partition, which is secluded
      have hsecluded : q.isSecluded = true := by simp [Partition.isSecluded, hpolicy]
      obtain ⟨hfind, -⟩ :=
        write_confined hwf hop (not_touches_of_isSecluded hsame hq hsecluded)
      exact ⟨q, e, hfind.trans hq, he, hlive, fun _ => rfl⟩

/-- Three partitions that share thirty bytes: one never evicts, one has a bound of ten bytes, and
one draws from the rest, which it nearly fills. -/
def neighbours : Node :=
  (performAll
    [ .putPartition [113] { createDate := (bare {}).today, policy := .noEviction },
      .put .upsert [113] [97] [1, 2] 1,
      .putPartition [114] { createDate := (bare {}).today, maxCacheSize := 10 },
      .put .upsert [114] [97] [1, 2, 3] 2,
      .put .upsert [112] [97] [1, 2, 3, 4, 5, 6, 7, 8] 3 ] (bare { maxCacheSize := 30 })).2

/-- A write to the third one evicts there and nowhere else, and a write to the bounded one leaves
both others alone. -/
theorem write_isolated_neighbours :
    ((neighbours.perform (.put .upsert [112] [98] [1, 2, 3, 4, 5, 6, 7, 8, 9] 4)).2.find?
        [112]).bind (fun p => p.entries.get? [97]) = none ∧
      (∀ other q, other ≠ [112] → neighbours.find? other = some q → q.isSecluded = true →
        (neighbours.perform (.put .upsert [112] [98] [1, 2, 3, 4, 5, 6, 7, 8, 9] 4)).2.find? other =
          some q) ∧
      (∃ r, (neighbours.perform (.put .upsert [112] [98] [1, 2, 3, 4, 5, 6, 7, 8, 9] 4)).2.find?
        [113] = some r ∧ r.entries.get? [97] = some ⟨[1, 2], 1⟩) ∧
      ∀ other, other ≠ [114] →
        (neighbours.perform (.put .upsert [114] [98] [1, 2, 3, 4, 5, 6, 7, 8, 9] 4)).2.find? other =
          neighbours.find? other := by
  have hreached : neighbours.Reachable := (reachable_bare _).performAll _ (by decide)
  have hevicting := write_isolated hreached (show Operation.target?
    (.put .upsert [112] [98] [1, 2, 3, 4, 5, 6, 7, 8, 9] 4) = some ([112], 4) from rfl)
  have hbounded := write_isolated hreached (show Operation.target?
    (.put .upsert [114] [98] [1, 2, 3, 4, 5, 6, 7, 8, 9] 4) = some ([114], 4) from rfl)
  refine ⟨by cbv, fun other q hne hq hkept => (hevicting.1 other q hne hq hkept).1, ?_,
    fun other hne => (hbounded.2.1 (by decide) other hne).1⟩
  obtain ⟨r, f, hr, hf, -, hsame⟩ :=
    hevicting.2.2 [113] _ [97] ⟨[1, 2], 1⟩ rfl rfl rfl (by decide)
  refine ⟨r, hr, ?_⟩
  rw [hf, hsame (.inl (by decide))]

end Node

end CacheNode

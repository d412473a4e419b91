import Mathlib.Data.List.Rotate
import CacheNode.Proofs.Sampling
import CacheNode.Proofs.MakingRoom

/-!
# CacheNode — a scan for expired entries

A scan visits the partitions in circular key order, from the place where its last run stopped. In
each of them it looks at samples and removes what has expired. How often it looks depends on what it
finds, but never without end: it looks again only where a tenth of the sample had expired, and those
entries are gone. Whatever is drawn, only expired entries go, and every entry that goes is counted
once. A sample that is as large as the partition finds all of them.

A fuse can stop a run, because it was cancelled or because its time is up. What is said about a whole
scan is said about runs that nothing stops.

* `Partition.Lapses`, `Site.Lapses`, `Node.Lapses` — what removing expired entries does;
* `Site.spent_expire` — a sample that covers a partition leaves nothing expired in it;
* `Sweep.visit` — what a scan does in one partition, and `Scanner.visitEach_never` — in all of them;
* `Node.scan_sweeps` — the whole run.
-/

namespace CacheNode

-- ---------------------------------------------------------------------------
-- Removing what has expired
-- ---------------------------------------------------------------------------

/-- From one state of a partition to a later one only expired entries are lost. All others are as
they were, and none is new. -/
structure Partition.Lapses (x : Expiry) (p q : Partition) : Prop where
  settings : q.settings = p.settings
  size     : q.entries.size ≤ p.entries.size
  entries  : ∀ key, q.entries.get? key = p.entries.get? key ∨
    q.entries.get? key = none ∧ ∃ e, p.entries.get? key = some e ∧ e.isExpired x = true

/-- No entry of a partition has expired. -/
def Partition.Spent (x : Expiry) (p : Partition) : Prop :=
  ∀ key e, p.entries.get? key = some e → e.isExpired x = false

/-- So many entries are lost because they had expired, and the node counts them. -/
structure Site.Lapses (s : Site) (x : Expiry) (count : Nat) (t : Site) : Prop where
  part    : s.part.Lapses x t.part
  size    : t.part.entries.size + count = s.part.entries.size
  counted : t.totals.expirations = s.totals.expirations + .ofNat count

namespace Partition.Lapses

variable {x : Expiry} {p q r : Partition}

theorem refl (x : Expiry) (p : Partition) : p.Lapses x p :=
  ⟨rfl, Nat.le_refl _, fun _ => .inl rfl⟩

theorem trans (h : p.Lapses x q) (hlater : q.Lapses x r) : p.Lapses x r where
  settings := hlater.settings.trans h.settings
  size     := Nat.le_trans hlater.size h.size
  entries  := by
    intro key
    rcases hlater.entries key with hsame | ⟨hgone, e, he, hexpired⟩
    · rw [hsame]
      exact h.entries key
    · -- what expires later is an entry that was there from the start
      rcases h.entries key with hkept | ⟨hnone, -⟩
      · exact .inr ⟨hgone, e, hkept ▸ he, hexpired⟩
      · rw [hnone] at he
        cases he

/-- What is still there was there before. -/
theorem get?_of_some {key : Bytes} {e : Entry} (h : p.Lapses x q)
    (he : q.entries.get? key = some e) : p.entries.get? key = some e := by
  rcases h.entries key with hsame | ⟨hgone, -⟩
  · rw [← hsame, he]
  · rw [hgone] at he
    cases he

theorem spent (h : p.Lapses x q) (hp : p.Spent x) : q.Spent x :=
  fun key e he => hp key e (h.get?_of_some he)

theorem expiry (h : p.Lapses x q) (now : Millis) : q.expiry now = p.expiry now :=
  Site.expiry_eq h.settings now

end Partition.Lapses

namespace Site

variable {s t u : Site} {x : Expiry} {key : Bytes} {e : Entry} {first later samples : Nat}
  {now : Millis}

namespace Lapses

/-- Draws that are used up make no difference. -/
theorem draw (s : Site) (x : Expiry) (d : Draws) : s.Lapses x 0 { s with draws := d } :=
  ⟨.refl x s.part, rfl, (UInt64.add_zero _).symm⟩

theorem trans (h : s.Lapses x first t) (hlater : t.Lapses x later u) :
    s.Lapses x (first + later) u where
  part    := h.part.trans hlater.part
  size    := by
    have hfirst := h.size
    have hsecond := hlater.size
    omega
  counted := by rw [hlater.counted, h.counted, UInt64.ofNat_add, UInt64.add_assoc]

theorem takeOut (he : s.part.entries.get? key = some e) (hexpired : e.isExpired x = true) :
    s.Lapses x 1 (s.takeOut key e .expired) where
  part    := by
    refine ⟨rfl, Table.size_erase_le _ _, fun other => ?_⟩
    rw [entries_takeOut, Table.get?_erase]
    split
    · next heq => exact .inr ⟨rfl, e, heq ▸ he, hexpired⟩
    · exact .inl rfl
  size    := Table.size_erase he
  counted := rfl

end Lapses

theorem lapses_expireEach (x : Expiry) (keys : List Bytes) (s : Site) :
    s.Lapses x (expireEach x keys s).1 (expireEach x keys s).2 := by
  induction keys generalizing s with
  | nil => exact .draw s x s.draws
  | cons key rest ih =>
    rw [expireEach]
    split
    · exact ih s
    · next e he =>
      split
      · next hexpired =>
        have hboth := (Lapses.takeOut he hexpired).trans (ih (s.takeOut key e .expired))
        rw [Nat.add_comm] at hboth
        exact hboth
      · exact ih s

theorem lapses_expire (s : Site) (keys : List Bytes) (now : Millis) :
    s.Lapses (s.part.expiry now) (s.expire keys now).1 (s.expire keys now).2 := by
  unfold expire
  split
  · exact .draw s _ s.draws
  · exact lapses_expireEach _ keys s

/-- Expired entries whose keys are named are gone. -/
theorem get?_expireEach (x : Expiry) (keys : List Bytes) (s : Site) {key : Bytes} {e : Entry}
    (hkey : key ∈ keys) (he : (expireEach x keys s).2.part.entries.get? key = some e) :
    e.isExpired x = false := by
  induction keys generalizing s with
  | nil => cases hkey
  | cons first rest ih =>
    rw [expireEach] at he
    rcases List.mem_cons.1 hkey with rfl | hrest
    · -- the entry under the first key has expired and goes, or it stays as it is
      split at he
      · next hnone =>
        have hold := (lapses_expireEach x rest s).part.get?_of_some he
        rw [hnone] at hold
        cases hold
      · next old hold =>
        split at he
        · have herased := (lapses_expireEach x rest _).part.get?_of_some he
          rw [entries_takeOut, Table.get?_erase_self] at herased
          cases herased
        · next hfresh =>
          have hsame := (lapses_expireEach x rest s).part.get?_of_some he
          rw [hold] at hsame
          cases hsame
          exact Bool.eq_false_of_not_eq_true hfresh
    · split at he
      · exact ih s hrest he
      · split at he
        · exact ih _ hrest he
        · exact ih s hrest he

-- ---------------------------------------------------------------------------
-- Samples that cover a partition
-- ---------------------------------------------------------------------------

/-- Looking for expired keys uses up draws and does nothing else. -/
theorem sampleExpired_eq_draw (s : Site) (samples : Nat) (now : Millis) :
    (s.sampleExpired samples now).2 =
      { s with draws := (s.sampleExpired samples now).2.draws } := by
  simp only [sampleExpired]
  split
  · rfl
  · split <;> rfl

/-- A sample as large as the partition holds every key that has expired. -/
theorem mem_sampleExpired_of_size_le (hcount : s.part.tally.itemCount.toNat = s.part.entries.size)
    (hcovered : s.part.entries.size ≤ samples) (he : s.part.entries.get? key = some e)
    (hexpired : e.isExpired (s.part.expiry now) = true) :
    key ∈ (s.sampleExpired samples now).1 := by
  obtain ⟨i, hi, hrow⟩ := List.getElem_of_mem (Table.mem_rows_iff.2 he)
  have hlooks : Sample.Looks samples s.part.tally.itemCount.toNat s.draws i := by
    rw [hcount]
    exact ⟨hi, fun hfew => absurd hcovered (Nat.not_le.2 hfew)⟩
  exact ((finds_sampleExpired s samples now).exact key).2
    ⟨i, (key, e), List.getElem?_eq_some_iff.2 ⟨hi, hrow⟩, rfl, hlooks, hexpired⟩

/-- A sample that covers a partition leaves nothing expired in it. -/
theorem spent_expire (hinterval : s.part.metadata.interval ≠ 0)
    (hcount : s.part.tally.itemCount.toNat = s.part.entries.size)
    (hcovered : s.part.entries.size ≤ samples) :
    ((s.sampleExpired samples now).2.expire (s.sampleExpired samples now).1 now).2.part.Spent
      (s.part.expiry now) := by
  intro key e he
  have hsame : (s.sampleExpired samples now).2.part = s.part := part_sampleExpired s samples now
  have hold := (lapses_expire _ (s.sampleExpired samples now).1 now).part.get?_of_some he
  rw [hsame] at hold
  refine Bool.eq_false_of_not_eq_true fun hexpired => ?_
  have hfound := mem_sampleExpired_of_size_le hcount hcovered hold hexpired
  rw [expire, hsame, if_neg hinterval] at he
  have hfresh := get?_expireEach _ _ _ hfound he
  rw [hexpired] at hfresh
  cases hfresh

end Site

-- ---------------------------------------------------------------------------
-- The rounds in one partition
-- ---------------------------------------------------------------------------

namespace Scanner

variable {s : Site} {samples : Nat} {now : Millis}

/-- A look at a sample, and the removal of what had expired. -/
theorem lapses_look (s : Site) (samples : Nat) (now : Millis) :
    s.Lapses (s.part.expiry now)
      ((s.sampleExpired samples now).2.expire (s.sampleExpired samples now).1 now).1
      ((s.sampleExpired samples now).2.expire (s.sampleExpired samples now).1 now).2 := by
  have hdrawn : s.Lapses (s.part.expiry now) 0 (s.sampleExpired samples now).2 := by
    rw [Site.sampleExpired_eq_draw]
    exact .draw s _ _
  have hexpired := Site.lapses_expire (s.sampleExpired samples now).2
    (s.sampleExpired samples now).1 now
  rw [Site.part_sampleExpired] at hexpired
  have hboth := hdrawn.trans hexpired
  rw [Nat.zero_add] at hboth
  exact hboth

theorem lapses_scanRounds (samples : Nat) (now : Millis) (deadline : Fuse) (s : Site) :
    s.Lapses (s.part.expiry now) (scanRounds samples now deadline s).expired
      (scanRounds samples now deadline s).site := by
  fun_induction scanRounds samples now deadline s with
  | case1 deadline s => exact .draw s _ s.draws
  | case2 deadline s => exact lapses_look s samples now
  | case3 deadline s => exact lapses_look s samples now
  | case4 deadline s sampled hsampled found left hmany late hlate ih =>
    have hlooked : s.Lapses (s.part.expiry now) left.1 left.2 := lapses_look s samples now
    rw [hlooked.part.expiry] at ih
    exact hlooked.trans ih

/-- Rounds that nothing stops leave the fuse as it was. -/
theorem deadline_scanRounds (samples : Nat) (now : Millis) (s : Site) :
    (scanRounds samples now .never s).deadline = .never := by
  generalize hnever : Fuse.never = deadline
  fun_induction scanRounds samples now deadline s with
  | case1 => rfl
  | case2 => rfl
  | case3 deadline s sampled hsampled found left hmany late hlate =>
    subst hnever
    cases hlate
  | case4 deadline s sampled hsampled found left hmany late hlate ih =>
    subst hnever
    exact ih rfl

/-- Where samples cover the partition, the first of them finds everything that had expired. -/
theorem spent_scanRounds (deadline : Fuse) (hinterval : s.part.metadata.interval ≠ 0)
    (hcount : s.part.tally.itemCount.toNat = s.part.entries.size)
    (hcovered : s.part.entries.size ≤ samples) :
    (scanRounds samples now deadline s).site.part.Spent (s.part.expiry now) := by
  have hlooked : ((s.sampleExpired samples now).2.expire
      (s.sampleExpired samples now).1 now).2.part.Spent (s.part.expiry now) :=
    Site.spent_expire hinterval hcount hcovered
  rw [scanRounds]
  dsimp only
  split
  · -- an empty partition
    next hempty =>
    intro key e he
    have hpos : 0 < s.part.entries.size := List.length_pos_of_mem (Table.mem_rows_iff.2 he)
    omega
  · split
    · exact hlooked
    · split
      · exact hlooked
      · have hlater := lapses_scanRounds samples now deadline.look.2
          ((s.sampleExpired samples now).2.expire (s.sampleExpired samples now).1 now).2
        rw [(lapses_look s samples now).part.expiry] at hlater
        exact hlater.part.spent hlooked

end Scanner

-- ---------------------------------------------------------------------------
-- One partition of a node
-- ---------------------------------------------------------------------------

/-- From one state of a node to a later one so many entries are lost, all of them because they had
expired, and the node counts them. -/
structure Node.Lapses (n : Node) (now : Millis) (count : Nat) (m : Node) : Prop where
  absent  : ∀ name, n.find? name = none → m.find? name = none
  present : ∀ name p, n.find? name = some p →
    ∃ q, m.find? name = some q ∧ p.Lapses (p.expiry now) q
  items   : m.totals.itemCount.toNat + count = n.totals.itemCount.toNat
  counted : m.totals.expirations = n.totals.expirations + .ofNat count

namespace Node.Lapses

variable {n m k : Node} {now : Millis} {first later count : Nat} {name : Bytes} {p : Partition}
  {s : Site}

theorem refl (n : Node) (now : Millis) : n.Lapses now 0 n :=
  ⟨fun _ h => h, fun _ p hp => ⟨p, hp, .refl _ p⟩, rfl, (UInt64.add_zero _).symm⟩

theorem trans (h : n.Lapses now first m) (hlater : m.Lapses now later k) :
    n.Lapses now (first + later) k where
  absent  := fun name hnone => hlater.absent name (h.absent name hnone)
  present := by
    intro name p hp
    obtain ⟨q, hq, hlapses⟩ := h.present name p hp
    obtain ⟨r, hr, hmore⟩ := hlater.present name q hq
    rw [hlapses.expiry] at hmore
    exact ⟨r, hr, hlapses.trans hmore⟩
  items   := by
    have hfirst := h.items
    have hsecond := hlater.items
    omega
  counted := by rw [hlater.counted, h.counted, UInt64.ofNat_add, UInt64.add_assoc]

/-- What one partition loses is what the node loses. -/
theorem settle (hn : n.WellFormed) (hb : n.Balanced) (hafter : (n.settle s).Balanced)
    (hp : n.find? name = some p) (h : (n.site p).Lapses (p.expiry now) count s) :
    n.Lapses now count (n.settle s) := by
  have hname : s.part.name = name := (Partition.name_eq h.part.settings).trans (hn _ _ hp).named
  have hfind (other : Bytes) :
      (n.settle s).find? other = if other = name then some s.part else n.find? other :=
    hname ▸ find?_settle n s other
  refine ⟨fun other hnone => ?_, fun other q hq => ?_, ?_, h.counted⟩
  · rw [hfind, if_neg, hnone]
    rintro rfl
    rw [hp] at hnone
    cases hnone
  · rw [hfind]
    split
    · next heq =>
      subst heq
      rw [hp] at hq
      cases hq
      exact ⟨s.part, rfl, h.part⟩
    · exact ⟨q, hq, .refl _ q⟩
  · -- the others have counted the same before and afterwards
    have hothers : (n.settle s).partitions.erase name = n.partitions.erase name :=
      hname ▸ Table.erase_insert_self _ _ _
    have hbefore : n.totals.itemCount.toNat = (n.others name).items + p.entries.size :=
      (hb.site hp).allItems
    have hleft : (n.settle s).totals.itemCount.toNat =
        ((n.settle s).others name).items + s.part.entries.size :=
      (hafter.site ((hfind name).trans (if_pos rfl))).allItems
    have hsame : ((n.settle s).others name).items = (n.others name).items := by
      simp only [others, hothers]
    have hsize : s.part.entries.size + count = p.entries.size := h.size
    omega

end Node.Lapses

-- ---------------------------------------------------------------------------
-- Visits
-- ---------------------------------------------------------------------------

/-- How far a scan has come: what it has looked at and removed, and the node that it leaves. -/
structure Sweep where
  sampled : Nat
  expired : Nat
  node : Node

namespace Sweep

/-- A visit to one partition that nothing cuts short. -/
def visit (samples : Nat) (now : Millis) (w : Sweep) (name : Bytes) : Sweep :=
  match w.node.find? name with
  | none => w
  | some p =>
    if p.metadata.interval = 0 ∨ p.entries.size = 0 then w
    else
      let rounds := Scanner.scanRounds samples now .never (w.node.site p)
      ⟨w.sampled + rounds.sampled, w.expired + rounds.expired, w.node.settle rounds.site⟩

/-- Visits one after the other. -/
def visitAll (samples : Nat) (now : Millis) (names : List Bytes) (w : Sweep) : Sweep :=
  names.foldl (visit samples now) w

/-- Every counter of the node is true. -/
structure Sound (w : Sweep) : Prop where
  wellFormed : w.node.WellFormed
  balanced   : w.node.Balanced
  bytes      : w.node.bytesHeld < UInt64.size

/-- From one point of a scan to a later one the node loses as many entries as the scan counts. -/
structure Follows (now : Millis) (w v : Sweep) : Prop where
  sound  : v.Sound
  lapses : ∃ count, v.expired = w.expired + count ∧ w.node.Lapses now count v.node

variable {w v u : Sweep} {samples : Nat} {now : Millis} {name : Bytes} {names : List Bytes}
  {q : Partition}

theorem Follows.refl (now : Millis) (h : w.Sound) : w.Follows now w :=
  ⟨h, 0, rfl, .refl w.node now⟩

theorem Follows.trans (h : w.Follows now v) (hlater : v.Follows now u) : w.Follows now u := by
  obtain ⟨first, hfirst, hlapses⟩ := h.lapses
  obtain ⟨later, hcount, hmore⟩ := hlater.lapses
  exact ⟨hlater.sound, first + later, by omega, hlapses.trans hmore⟩

theorem follows_visit (samples : Nat) (now : Millis) (name : Bytes) (h : w.Sound) :
    w.Follows now (w.visit samples now name) := by
  unfold visit
  split
  · exact .refl now h
  · next p hp =>
    split
    · exact .refl now h
    · have hchanges : Node.Changes (fun _ _ => True) (fun _ => False) UInt64.size w.node
          (w.node.act p fun s => ((), (Scanner.scanRounds samples now .never s).site)).2 :=
        Node.changes_act h.wellFormed h.bytes hp
          fun _ _ hs => Scanner.steps_scanRounds samples now .never hs
      have hafter := hchanges.balanced h.wellFormed h.balanced (Nat.le_refl _)
      refine ⟨⟨hchanges.wellFormed h.wellFormed, hafter, hchanges.bytes_lt h.bytes⟩,
        (Scanner.scanRounds samples now .never (w.node.site p)).expired, rfl, ?_⟩
      exact .settle h.wellFormed h.balanced hafter hp
        (Scanner.lapses_scanRounds samples now .never (w.node.site p))

theorem follows_visitAll (samples : Nat) (now : Millis) (names : List Bytes) (h : w.Sound) :
    w.Follows now (w.visitAll samples now names) := by
  induction names generalizing w with
  | nil => exact .refl now h
  | cons name rest ih =>
    have hfirst := follows_visit samples now name h
    exact hfirst.trans (ih hfirst.sound)

/-- Where samples cover a partition, nothing expired is left in it after its visit. -/
theorem spent_visit (h : w.Sound)
    (hcovered : ∀ p, w.node.find? name = some p → p.entries.size ≤ samples)
    (hq : (w.visit samples now name).node.find? name = some q)
    (hinterval : q.metadata.interval ≠ 0) : q.Spent (q.expiry now) := by
  unfold visit at hq
  split at hq
  · next hnone =>
    rw [hnone] at hq
    cases hq
  · next p hp =>
    split at hq
    · next hskipped =>
      -- the partition was passed over because it is empty
      rw [hp] at hq
      cases hq
      have hempty := hskipped.resolve_left hinterval
      intro key e he
      rw [Table.size_eq_zero_iff.1 hempty] at he
      cases he
    · next hvisited =>
      have hlapses := Scanner.lapses_scanRounds samples now .never (w.node.site p)
      have hname : (Scanner.scanRounds samples now .never (w.node.site p)).site.part.name = name :=
        (Partition.name_eq hlapses.part.settings).trans (h.wellFormed _ _ hp).named
      rw [Node.find?_settle, if_pos hname.symm] at hq
      cases hq
      rw [hlapses.part.expiry]
      exact Scanner.spent_scanRounds .never (not_or.1 hvisited).1
        (h.balanced.partitions _ _ hp).items (hcovered p hp)

/-- Later visits bring nothing back. -/
theorem spent_visitAll (h : w.Sound)
    (hcovered : ∀ name p, w.node.find? name = some p → p.entries.size ≤ samples)
    (hname : name ∈ names) (hq : (w.visitAll samples now names).node.find? name = some q)
    (hinterval : q.metadata.interval ≠ 0) : q.Spent (q.expiry now) := by
  induction names generalizing w with
  | nil => cases hname
  | cons first rest ih =>
    have hfirst := follows_visit samples now first h
    obtain ⟨count, -, hlapses⟩ := hfirst.lapses
    by_cases hlater : name ∈ rest
    · refine ih hfirst.sound (fun other r hr => ?_) hlater hq
      -- partitions only get smaller
      cases hold : w.node.find? other with
      | none =>
        rw [hlapses.absent other hold] at hr
        cases hr
      | some p =>
        obtain ⟨r', hr', hlost⟩ := hlapses.present other p hold
        rw [hr] at hr'
        cases hr'
        exact Nat.le_trans hlost.size (hcovered other p hold)
    · obtain rfl : name = first := (List.mem_cons.1 hname).resolve_right hlater
      obtain ⟨more, -, hmore⟩ := (follows_visitAll samples now rest hfirst.sound).lapses
      cases hvisited : (w.visit samples now name).node.find? name with
      | none =>
        rw [show (w.visitAll samples now (name :: rest)).node.find? name = none from
          hmore.absent name hvisited] at hq
        cases hq
      | some r =>
        obtain ⟨r', hr', hlost⟩ := hmore.present name r hvisited
        rw [show (w.visitAll samples now (name :: rest)).node.find? name = some r' from hr'] at hq
        cases hq
        rw [hlost.expiry]
        have hsame := Partition.metadata_eq hlost.settings
        rw [hsame] at hinterval
        exact hlost.spent (spent_visit h (hcovered name) hvisited hinterval)

end Sweep

-- ---------------------------------------------------------------------------
-- The run
-- ---------------------------------------------------------------------------

namespace Scanner

variable {samples : Nat} {now : Millis}

/-- The names of a node's partitions in the order in which a run visits them. -/
def order (scanner : Scanner) (n : Node) : List Bytes :=
  n.partitions.keys.rotate (scanner.cursor % n.partitions.keys.length)

/-- Where the cursor stands after a run over so many partitions. -/
def cursorAfter (scanner : Scanner) (count : Nat) : Nat :=
  if count = 0 then scanner.cursor else (scanner.cursor % count + count - 1) % count + 1

/-- A run that nothing stops visits all partitions that it is given, and its cursor stands behind
the last of them. -/
theorem visitEach_never (samples : Nat) (now : Millis) (places : List (Bytes × Nat))
    (visited cursor : Nat) (w : Sweep) :
    visitEach samples now places .never .never
        ⟨⟨visited, w.sampled, w.expired, none⟩, cursor, w.node⟩ =
      ⟨⟨visited + places.length, (w.visitAll samples now (places.map Prod.fst)).sampled,
          (w.visitAll samples now (places.map Prod.fst)).expired, none⟩,
        (places.getLast?.map (·.2 + 1)).getD cursor,
        (w.visitAll samples now (places.map Prod.fst)).node⟩ := by
  induction places generalizing visited cursor w with
  | nil => rfl
  | cons place rest ih =>
    obtain ⟨name, index⟩ := place
    have hlast : (((name, index) :: rest).getLast?.map (·.2 + 1)).getD cursor =
        (rest.getLast?.map (·.2 + 1)).getD (index + 1) := by
      rw [List.getLast?_cons]
      cases rest.getLast? <;> rfl
    have hstep : visitEach samples now ((name, index) :: rest) .never .never
        ⟨⟨visited, w.sampled, w.expired, none⟩, cursor, w.node⟩ =
        visitEach samples now rest .never .never
          ⟨⟨visited + 1, (w.visit samples now name).sampled, (w.visit samples now name).expired,
            none⟩, index + 1, (w.visit samples now name).node⟩ := by
      cases hp : w.node.find? name with
      | none =>
        simp only [visitEach, Fuse.look_never, Sweep.visit, hp, Bool.false_eq_true, if_false]
      | some p =>
        by_cases hskipped : p.metadata.interval = 0 ∨ p.entries.size = 0
        · simp only [visitEach, Fuse.look_never, Sweep.visit, hp, if_pos hskipped,
            Bool.false_eq_true, if_false]
        · simp only [visitEach, Fuse.look_never, Sweep.visit, hp, if_neg hskipped,
            Bool.false_eq_true, if_false, deadline_scanRounds]
    rw [hstep, ih, hlast, List.length_cons, Nat.add_assoc, Nat.add_comm 1]
    rfl

/-- The circular order is the rotated order of the keys. -/
theorem map_circular (names : List Bytes) {start : Nat} (h : start < names.length) :
    (circular names start).map Prod.fst = names.rotate start := by
  have hle : start ≤ names.zipIdx.length := by
    rw [List.length_zipIdx]
    exact Nat.le_of_lt h
  rw [circular, ← List.rotate_eq_drop_append_take hle, List.map_rotate, List.zipIdx_map_fst]

/-- The last partition of the circular order is the one before the start. -/
theorem getLast?_circular (names : List Bytes) {start : Nat} (h : start < names.length) :
    (circular names start).getLast?.map (·.2 + 1) =
      some ((start + names.length - 1) % names.length + 1) := by
  have hle : start ≤ names.zipIdx.length := by
    rw [List.length_zipIdx]
    exact Nat.le_of_lt h
  have hlast : names.length - 1 < names.zipIdx.length := by
    rw [List.length_zipIdx]
    omega
  have hplace : (names.length - 1 + start) % names.length < names.length :=
    Nat.mod_lt _ (by omega)
  rw [circular, ← List.rotate_eq_drop_append_take hle, List.getLast?_eq_getElem?,
    List.length_rotate, List.length_zipIdx, List.getElem?_rotate hlast, List.length_zipIdx,
    List.getElem?_zipIdx, List.getElem?_eq_getElem hplace]
  simp only [Option.map_some, Nat.zero_add]
  rw [show names.length - 1 + start = start + names.length - 1 by omega]

/-- A run that nothing stops visits all partitions in circular order. -/
theorem run_never (scanner : Scanner) (n : Node) (now : Millis) :
    scanner.run n now .never .never =
      (⟨n.partitions.keys.length,
          (Sweep.visitAll scanner.samples now (scanner.order n) ⟨0, 0, n⟩).sampled,
          (Sweep.visitAll scanner.samples now (scanner.order n) ⟨0, 0, n⟩).expired, none⟩,
        { scanner with cursor := scanner.cursorAfter n.partitions.keys.length },
        (Sweep.visitAll scanner.samples now (scanner.order n) ⟨0, 0, n⟩).node) := by
  unfold order cursorAfter
  by_cases hnone : n.partitions.keys = []
  · rw [run, if_pos hnone, hnone]
    rfl
  · have hpos : 0 < n.partitions.keys.length := List.length_pos_iff.2 hnone
    have hstart : scanner.cursor % n.partitions.keys.length < n.partitions.keys.length :=
      Nat.mod_lt _ hpos
    have hlength : (circular n.partitions.keys
        (scanner.cursor % n.partitions.keys.length)).length = n.partitions.keys.length := by
      rw [← List.length_map Prod.fst, map_circular _ hstart, List.length_rotate]
    simp only [run, if_neg hnone]
    have hvisits := visitEach_never scanner.samples now
      (circular n.partitions.keys (scanner.cursor % n.partitions.keys.length)) 0 scanner.cursor
      ⟨0, 0, n⟩
    rw [hvisits, map_circular _ hstart, getLast?_circular _ hstart, hlength, Nat.zero_add,
      if_neg (Nat.ne_of_gt hpos)]
    rfl

/-- A run that is stopped before it starts does nothing but say why. -/
theorem run_blown (scanner : Scanner) (n : Node) (now : Millis) (fuse : Fuse) :
    (scanner.run n now fuse .blown).2 = (scanner, n) ∧
      (scanner.run n now .blown fuse).2 = (scanner, n) := by
  by_cases hnone : n.partitions.keys = []
  · simp only [run, if_pos hnone, and_self]
  · have hstart : scanner.cursor % n.partitions.keys.length < n.partitions.keys.length :=
      Nat.mod_lt _ (List.length_pos_iff.2 hnone)
    have hne : circular n.partitions.keys (scanner.cursor % n.partitions.keys.length) ≠ [] := by
      intro hnil
      have hlast := getLast?_circular n.partitions.keys hstart
      rw [hnil] at hlast
      cases hlast
    obtain ⟨⟨name, place⟩, rest, hplaces⟩ := List.exists_cons_of_ne_nil hne
    simp only [run, if_neg hnone, hplaces, visitEach, Fuse.look_blown, if_true, true_and]
    split <;> rfl

end Scanner

namespace Node

variable {n m : Node}

/-- A run of the scanner that nothing stops visits every partition once, in circular order, and
leaves the cursor behind the last one. Whatever is drawn, it removes as many entries as it reports,
all of them expired, and where the samples cover the partitions nothing that expires is left over. A
run that is stopped beforehand does nothing. -/
theorem scan_sweeps (hn : Fresh n)
    (hrun : Reaches (fun k op => (k.perform op).2.bytesHeld < UInt64.size) n m)
    (scanner : Scanner) (now : Millis) :
    (∃ w, w = Sweep.visitAll scanner.samples now (scanner.order m) ⟨0, 0, m⟩ ∧
      scanner.run m now .never .never =
        (⟨m.partitions.keys.length, w.sampled, w.expired, none⟩,
          { scanner with cursor := scanner.cursorAfter m.partitions.keys.length }, w.node) ∧
      (scanner.order m).Nodup ∧ (∀ name, name ∈ scanner.order m ↔ (m.find? name).isSome) ∧
      m.Lapses now w.expired w.node ∧
      ((∀ name p, m.find? name = some p → p.entries.size ≤ scanner.samples) →
        ∀ name q, w.node.find? name = some q → q.metadata.interval ≠ 0 →
          q.Spent (q.expiry now))) ∧
    ∀ fuse, (scanner.run m now fuse .blown).2 = (scanner, m) ∧
      (scanner.run m now .blown fuse).2 = (scanner, m) := by
  obtain ⟨hwf, hbytes, hb⟩ := hrun.balanced hn
  have hsound : Sweep.Sound ⟨0, 0, m⟩ := ⟨hwf, hb, hbytes⟩
  have hmem (name : Bytes) : name ∈ scanner.order m ↔ (m.find? name).isSome := by
    rw [Scanner.order, List.mem_rotate]
    exact Table.mem_keys_iff
  obtain ⟨count, hcount, hlapses⟩ :=
    (Sweep.follows_visitAll scanner.samples now (scanner.order m) hsound).lapses
  refine ⟨⟨_, rfl, scanner.run_never m now, ?_, hmem, ?_, ?_⟩, scanner.run_blown m now⟩
  · exact List.nodup_rotate.2 m.partitions.nodup_keys
  · rw [hcount, Nat.zero_add]
    exact hlapses
  · intro hcovered name q hq hinterval
    refine Sweep.spent_visitAll hsound hcovered ((hmem name).2 ?_) hq hinterval
    -- the scan makes no partitions
    rw [Option.isSome_iff_ne_none]
    intro hnone
    rw [hlapses.absent name hnone] at hq
    cases hq

/-- Three partitions, two of which expire their entries. -/
def lapsing : List Operation :=
  [ .putPartition [112] { createDate := (bare {}).today, interval := 10 },
    .putPartition [113] { createDate := (bare {}).today },
    .putPartition [114] { createDate := (bare {}).today, interval := 50, mode := .absolute },
    .put .upsert [112] [97] [1] 1,
    .put .upsert [112] [98] [1] 95,
    .put .upsert [113] [97] [1] 1,
    .put .upsert [114] [97] [1, 2] 1 ]

/-- The scan starts at the second partition and ends behind the first. -/
theorem scan_sweeps_lapsing :
    ((⟨2, 7⟩ : Scanner).run (performAll lapsing (bare {})).2 100 .never .never).2.1.cursor = 1 ∧
      ∃ q, ((⟨2, 7⟩ : Scanner).run (performAll lapsing (bare {})).2 100 .never .never).2.2.find?
        [112] = some q ∧ q.Spent ⟨100, 10⟩ := by
  have hrun : Reaches (fun k op => (k.perform op).2.bytesHeld < UInt64.size) (bare {})
      (performAll lapsing (bare {})).2 := Reaches.start.performAll lapsing
    ⟨by decide, by decide, by decide, by decide, by decide, by decide, by decide, trivial⟩
  obtain ⟨⟨w, -, hsweep, -, -, hlapses, hspent⟩, -⟩ :=
    scan_sweeps (fresh_bare {}) hrun ⟨2, 7⟩ 100
  have hcovered : ∀ name p, (performAll lapsing (bare {})).2.find? name = some p →
      p.entries.size ≤ 2 := by
    intro name p hp
    have hrow : (name, p) ∈ (performAll lapsing (bare {})).2.partitions.rows :=
      Table.mem_rows_iff.2 hp
    have hall : ∀ row ∈ (performAll lapsing (bare {})).2.partitions.rows,
        row.2.entries.size ≤ 2 := by decide
    exact hall _ hrow
  have hcursor : Scanner.cursorAfter ⟨2, 7⟩
      (performAll lapsing (bare {})).2.partitions.keys.length = 1 := by decide
  rw [hsweep]
  refine ⟨hcursor, ?_⟩
  obtain ⟨q, hq, hkept⟩ := hlapses.present [112] _ rfl
  have hmetadata := Partition.metadata_eq hkept.settings
  have hclock : q.expiry 100 = ⟨100, 10⟩ := hkept.expiry 100
  refine ⟨q, hq, hclock ▸ hspent hcovered [112] q hq ?_⟩
  rw [hmetadata]
  decide

end Node

end CacheNode

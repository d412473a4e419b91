import CacheNode.Proofs.Announcing
import CacheNode.Proofs.Attempts

/-!
# CacheNode — scripts that are known exactly

Some operations can tell their script beforehand: which announcements they make, and in which order.
Then it is known for all channels at once what they get, whoever listens. The list of predicates and
the hub are what they become when the announcements of the script are published one after the other.

The script of a batch write follows the batch. Each item is announced as written, and right before
that what it takes the place of is announced as expired, if it has.

* `WatchList.publishAll` — a script is published;
* `Site.Announces` — the announcements between two sites are those of a script, and no others;
* `Site.Announces.plays` — so the script is played to all who listen;
* `Site.announces_foldl_writeOne` — the script of a batch write.
-/

namespace CacheNode

/-- Publishes announcements one after the other. -/
def WatchList.publishAll (w : WatchList) (partition : Bytes) (script : List Notice) (hub : Hub) :
    WatchList × Hub :=
  script.foldl (fun state notice =>
    state.1.publish partition notice.key notice.value notice.kind state.2) (w, hub)

namespace Site

/-- Between two sites of a partition a script was announced and nothing else, and the removals in
it are counted. -/
structure Announces (s : Site) (script : List Notice) (t : Site) : Prop where
  named     : t.part.name = s.part.name
  published : (t.part.watches, t.hub) = s.part.watches.publishAll s.part.name script s.hub
  counted   : t.account.removals = s.account.removals.add script

/-- What the write of an item announces. -/
def notices (now : Millis) (s : Site) (item : Bytes × Bytes) : List Notice :=
  match s.part.entries.get? item.1 with
  | some old =>
    if old.isExpired (s.part.expiry now) then
      [⟨item.1, none, .expire⟩, ⟨item.1, some item.2, .write⟩]
    else [⟨item.1, some item.2, .write⟩]
  | none => [⟨item.1, some item.2, .write⟩]

variable {s t u : Site} {script more : List Notice} {key : Bytes} {value : Option Bytes}
  {kind : EventKind}

-- ---------------------------------------------------------------------------
-- Putting scripts together
-- ---------------------------------------------------------------------------

theorem Announces.trans (h : s.Announces script t) (hlater : t.Announces more u) :
    s.Announces (script ++ more) u where
  named     := hlater.named.trans h.named
  published := by
    have hfirst : (t.part.watches, t.hub) = _ := h.published
    rw [hlater.published, h.named, WatchList.publishAll, hfirst, WatchList.publishAll,
      ← List.foldl_append]
    rfl
  counted   := by rw [hlater.counted, h.counted, Removals.add_append]

/-- Nothing is announced, and nothing is counted as removed. -/
theorem announces_nil (hhub : t.hub = s.hub) (hwatches : t.part.watches = s.part.watches)
    (hname : t.part.name = s.part.name) (hcounted : t.account.removals = s.account.removals) :
    s.Announces [] t :=
  ⟨hname, by rw [hhub, hwatches]; rfl, by rw [hcounted, Removals.add_nil]⟩

/-- What has just been done is announced. -/
theorem announces_announce (hhub : u.hub = s.hub) (hwatches : u.part.watches = s.part.watches)
    (hname : u.part.name = s.part.name)
    (hcounted : u.account.removals = s.account.removals.add [⟨key, value, kind⟩]) :
    s.Announces [⟨key, value, kind⟩] (u.announce key value kind) where
  named     := hname
  published := by
    rw [← hhub, ← hwatches, ← hname]
    rfl
  counted   := hcounted

theorem announces_write (key payload : Bytes) (hhub : u.hub = s.hub)
    (hwatches : u.part.watches = s.part.watches) (hname : u.part.name = s.part.name)
    (hcounted : u.account.removals = s.account.removals) :
    s.Announces [⟨key, some payload, .write⟩] (u.announce key (some payload) .write) :=
  announces_announce hhub hwatches hname (by rw [hcounted, Removals.add_write])

theorem announces_takeOut (s : Site) (key : Bytes) (e : Entry) (cause : Removal) :
    s.Announces [⟨key, none, cause.kind⟩] (s.takeOut key e cause) :=
  announces_announce rfl rfl rfl (Account.removals_remove _ key none cause)

/-- A script that is announced is played to all who listen. -/
theorem Announces.plays (clears : Prop) (h : s.Announces script t) : Plays clears s script t := by
  -- to listeners a site is its name, its predicates and the hub; these come about step by step
  suffices hheard : ∀ pr, s.Listens pr → t.Listens pr ∧ ∃ news,
      t.hub.queue pr.owner = s.hub.queue pr.owner ++ news ∧
        news.filter (·.isFor pr) = pr.hears script from
    ⟨fun pr hpr => (hheard pr hpr).1, fun pr hpr => (hheard pr hpr).2, fun _ => h.counted⟩
  intro pr hpr
  obtain ⟨hname, hpublished, -⟩ := h
  induction script generalizing s with
  | nil =>
    obtain ⟨hwatches, hhub⟩ := Prod.mk.inj hpublished
    exact ⟨hpr.of_eq hhub hwatches hname, [], by rw [hhub, List.append_nil], rfl⟩
  | cons notice rest ih =>
    obtain ⟨key, value, kind⟩ := notice
    obtain ⟨first, hfirst, hown⟩ := queue_announce hpr key value kind
    obtain ⟨hlistens, later, hlater, hlaterOwn⟩ :=
      ih (s := s.announce key value kind) (hpr.announce key value kind) hname hpublished
    refine ⟨hlistens, first ++ later, by rw [hlater, hfirst, List.append_assoc], ?_⟩
    rw [List.filter_append, hlaterOwn, hown, Predicate.hears, Predicate.hears, List.filter_cons]
    split
    · rfl
    · rfl

-- ---------------------------------------------------------------------------
-- Batches
-- ---------------------------------------------------------------------------

theorem announces_writeOne (now : Millis) (s : Site) (item : Bytes × Bytes) :
    s.Announces (s.notices now item) (writeOne now s item) := by
  cases hget : s.part.entries.get? item.1 with
  | none =>
    simp only [writeOne, notices, hget]
    exact announces_write item.1 item.2 rfl rfl rfl rfl
  | some old =>
    simp only [writeOne, notices, hget]
    split
    · -- the stale entry is counted out and announced before the new one is
      have hexpired : s.Announces [⟨item.1, none, .expire⟩]
          (((s.hold (s.part.entries.insert item.1 ⟨item.2, now⟩)).book fun a =>
            (a.remove .expired).insert).announce item.1 none .expire) :=
        announces_announce rfl rfl rfl (Account.removals_remove _ item.1 none .expired)
      exact hexpired.trans (announces_write item.1 item.2 rfl rfl rfl rfl)
    · split <;> exact announces_write item.1 item.2 rfl rfl rfl rfl

/-- Items under other keys are met as they were. -/
theorem notices_writeOne_of_ne (now : Millis) (s : Site) {item other : Bytes × Bytes}
    (hne : other.1 ≠ item.1) : (writeOne now s item).notices now other = s.notices now other := by
  unfold notices
  rw [expiry_eq (settings_writeOne now s item), entries_writeOne, Table.get?_insert, if_neg hne]

/-- Of a batch in which no key occurs twice every item is announced as the entries were before the
batch. -/
theorem announces_foldl_writeOne (now : Millis) (batch : List (Bytes × Bytes)) (s : Site)
    (hkeys : (batch.map Prod.fst).Nodup) :
    s.Announces (batch.flatMap (s.notices now)) (batch.foldl (writeOne now) s) := by
  induction batch generalizing s with
  | nil => exact announces_nil rfl rfl rfl rfl
  | cons item rest ih =>
    obtain ⟨hfresh, hrest⟩ := List.nodup_cons.1 hkeys
    have hsame : rest.flatMap ((writeOne now s item).notices now) =
        rest.flatMap (s.notices now) := by
      apply List.flatMap_congr
      intro other hother
      apply notices_writeOne_of_ne
      rintro heq
      exact hfresh (heq ▸ List.mem_map_of_mem hother)
    have hlater := ih (writeOne now s item) hrest
    rw [hsame] at hlater
    exact (announces_writeOne now s item).trans hlater

end Site

end CacheNode

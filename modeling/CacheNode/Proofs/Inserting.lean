import CacheNode.Proofs.BatchOutcomes

/-!
# CacheNode — inserting new keys only

A write under the condition that its keys do not exist is refused when one of them is live. The
condition is looked at anew in every attempt, but unlike for overwriting the rounds of eviction
between the attempts do not matter to it. A key that is live at the start ends the write at the
first attempt, before there is any round; and a round only takes entries away, so a key that was
not live at the start is not live in any later attempt. Entries that have expired do not count.

* `Node.AnyLive` — some key of a batch is live;
* `Site.exists_live_of_writeMany`, `Site.writeMany_of_live` — which attempts find a key that exists;
* `Node.insert_keyAlreadyExists` — when exactly an inserting write does.
-/

namespace CacheNode

theorem PartitionName.check_ne_keyAlreadyExists (name : Bytes) :
    PartitionName.check name ≠ .error .keyAlreadyExists := by
  intro h
  unfold check at h
  split at h
  · cases h
  · split at h
    · cases h
    · split at h <;> cases h

theorem Partition.checkItem_ne_keyAlreadyExists (p : Partition) (item : Bytes × Bytes) :
    p.checkItem item ≠ .error .keyAlreadyExists := by
  intro h
  unfold checkItem at h
  split at h
  · unfold checkValue at h
    split at h
    · cases h
    · split at h <;> cases h
  · next err hkey =>
    cases h
    unfold checkKey at hkey
    split at hkey
    · cases hkey
    · split at hkey <;> cases hkey

/-- Only the condition that a key does not exist is failed in this way. -/
theorem Partition.checkCondition_keyAlreadyExists {p : Partition} {mode : PutMode} {x : Expiry}
    {key : Bytes} (h : p.checkCondition mode x key = .error .keyAlreadyExists) :
    p.isLive key x = true := by
  unfold checkCondition at h
  split at h
  · cases h
  · split at h <;> cases h
  · split at h
    · next hlive => exact hlive
    · cases h

namespace Site

variable {s : Site} {items : List (Bytes × Bytes)} {mode : PutMode} {now : Millis}

/-- An attempt that finds a key that exists has such a key in its batch. -/
theorem exists_live_of_writeMany
    (h : (s.writeMany items mode now).1 = .error .keyAlreadyExists) :
    ∃ item ∈ items, s.part.isLive item.1 (s.part.expiry now) = true := by
  obtain ⟨hplanned, -⟩ := writeMany_of_error h
  rcases s.part.plan_decides items mode now with ⟨err, hitem, hplan⟩ |
    ⟨hitems, hretired, hplan⟩ | ⟨hitems, huse, err, hkey, hplan⟩ | ⟨htakes, plan, hplan⟩
  · -- items are refused for other reasons
    rw [hplan] at hplanned
    obtain rfl : err = .keyAlreadyExists := Except.error.inj hplanned
    obtain ⟨before, item, after, -, -, hfails⟩ := hitem
    exact absurd hfails (s.part.checkItem_ne_keyAlreadyExists item)
  · rw [hplan] at hplanned
    cases hplanned
  · rw [hplan] at hplanned
    obtain rfl : err = .keyAlreadyExists := Except.error.inj hplanned
    obtain ⟨before, item, after, hsplit, -, hfails⟩ := hkey
    have hkept : item ∈ lastOccurrences items := by
      rw [hsplit]
      exact List.mem_append_right before List.mem_cons_self
    exact ⟨item, mem_lastOccurrences hkept, Partition.checkCondition_keyAlreadyExists hfails⟩
  · rw [hplan] at hplanned
    cases hplanned

/-- An attempt to insert a valid batch of which a key is live finds such a key and changes
nothing. -/
theorem writeMany_of_live (hitems : ∀ item ∈ items, s.part.checkItem item = .ok ())
    (huse : s.part.retired = false)
    (hlive : ∃ item ∈ items, s.part.isLive item.1 (s.part.expiry now) = true) :
    s.writeMany items .ifNotExists now = (.error .keyAlreadyExists, s) := by
  obtain ⟨item, hitem, hlive⟩ := hlive
  rcases s.part.plan_decides items .ifNotExists now with ⟨err, hinvalid, hplan⟩ |
    ⟨-, hretired, hplan⟩ | ⟨-, -, err, hkey, hplan⟩ | ⟨htakes, plan, hplan⟩
  · obtain ⟨before, other, after, rfl, -, hfails⟩ := hinvalid
    rw [hitems other (List.mem_append_right before List.mem_cons_self)] at hfails
    cases hfails
  · rw [huse] at hretired
    cases hretired
  · -- this condition fails in one way only
    obtain ⟨before, other, after, -, -, hfails⟩ := hkey
    have hexists : err = .keyAlreadyExists := by
      simp only [Partition.checkCondition] at hfails
      split at hfails
      · cases hfails
        rfl
      · cases hfails
    subst hexists
    simp only [writeMany, hplan]
  · -- the last occurrence of the live key fails it
    obtain ⟨last, hlast, hkey⟩ := Node.exists_mem_lastOccurrences hitem
    have hmet := htakes.meets last hlast
    rw [hkey, Partition.checkCondition, if_pos hlive] at hmet
    cases hmet

end Site

namespace Node

/-- Some key of a batch is live in a partition. -/
def AnyLive (n : Node) (name : Bytes) (items : List (Bytes × Bytes)) (now : Millis) : Prop :=
  ∃ p, n.find? name = some p ∧ ∃ item ∈ items, p.isLive item.1 (p.expiry now) = true

/-- An operation that writes a batch under the condition that none of its keys exists. -/
def Operation.Inserts (op : Operation) (name : Bytes) (items : List (Bytes × Bytes))
    (now : Millis) : Prop :=
  op = .putMany name items .ifNotExists now ∨
    ∃ key value, items = [(key, value)] ∧ op = .put .ifNotExists name key value now

variable {n m : Node} {name : Bytes} {items : List (Bytes × Bytes)} {now : Millis}

/-- What is live after the node was thinned out was live before. -/
theorem AnyLive.of_thinned (hthin : (n.entered name).Thinned m) (h : m.AnyLive name items now) :
    n.AnyLive name items now := by
  obtain ⟨q, hq, item, hitem, hlive⟩ := h
  obtain ⟨r, hr, hsettings, hentries⟩ := hthin name (n.target name) (find?_entered n name)
  rw [hq] at hr
  obtain rfl : q = r := Option.some.inj hr
  rw [Site.expiry_eq hsettings] at hlive
  obtain ⟨e, he, hfresh⟩ := Partition.isLive_iff.1 hlive
  have hold := hentries item.1 e he
  -- a partition that was created for the write has no entries
  exact ⟨n.target name, find?_of_entered (find?_entered n name) hold, item, hitem,
    Partition.isLive_iff.2 ⟨e, hold, hfresh⟩⟩

/-- If some key is live at the start, the first attempt says so. -/
theorem putMany_of_anyLive (hn : n.WellFormed) (hitems : ∀ item ∈ items, n.config.Accepts item)
    (hlive : n.AnyLive name items now) :
    n.putMany name items .ifNotExists now = (.error .keyAlreadyExists, n) := by
  obtain ⟨p, hp, hlive⟩ := hlive
  have hwf := hn _ _ hp
  have hchecked : ∀ item ∈ items, p.checkItem item = .ok () :=
    fun item hitem => Partition.checkItem_of_accepts hwf.limited (hitems item hitem)
  have hfails := Site.writeMany_of_live (s := n.site p) hchecked hwf.inUse hlive
  rcases ensure_eq n name with ⟨-, hensure⟩ | ⟨err, herr, -⟩
  · rw [entered_of_find? hp] at hensure
    simp only [putMany, hensure, accept, attempts, tryWrite, visit, hp, Option.map_some, act,
      hfails, settle_site hp hwf.named]
  · rw [show PartitionName.check name = .ok () from hwf.valid] at herr
    cases herr

/-- No attempt finds a key that exists unless one was live at the start. -/
theorem anyLive_of_putMany (hn : n.WellFormed)
    (h : (n.putMany name items .ifNotExists now).1 = .error .keyAlreadyExists) :
    n.AnyLive name items now := by
  rcases ensure_eq n name with ⟨hname, hensure⟩ | ⟨err, herr, hensure⟩
  · simp only [putMany, hensure] at h
    obtain ⟨m, ⟨-, hthin⟩, hends⟩ := accept_ends (Site.attempt_writeMany items .ifNotExists now)
      (entered_wellFormed hn hname) name
    generalize (n.entered name).accept name now _ = result at h hends
    cases hends with
    | refused bytes => cases h
    | missing hnone => cases h
    | @failed p err hp herr =>
      obtain rfl : err = .keyAlreadyExists := Except.error.inj h
      exact .of_thinned hthin ⟨p, hp, Site.exists_live_of_writeMany herr⟩
    | done hp ha => cases h
  · simp only [putMany, hensure] at h
    obtain rfl : err = .keyAlreadyExists := Except.error.inj h
    exact absurd herr (PartitionName.check_ne_keyAlreadyExists name)

/-- A write that is to insert new keys only finds a key that exists if and only if some key of its
batch is live at the start, whatever is evicted to make room. Then nothing changes. -/
theorem insert_keyAlreadyExists {op : Operation} (hn : n.Reachable)
    (hitems : ∀ item ∈ items, n.config.Accepts item) (hop : op.Inserts name items now) :
    ((n.perform op).1 = .error .keyAlreadyExists ↔ n.AnyLive name items now) ∧
      (n.AnyLive name items now → n.perform op = (.error .keyAlreadyExists, n)) := by
  obtain ⟨hnode, hresult⟩ := perform_puts hop n
  have hrefused (hlive : n.AnyLive name items now) :
      n.perform op = (.error .keyAlreadyExists, n) := by
    have hput := putMany_of_anyLive hn.wellFormed hitems hlive
    rw [hput] at hnode
    exact Prod.ext ((hresult _).2 (by rw [hput])) hnode
  refine ⟨⟨?_, ?_⟩, hrefused⟩
  · intro hexists
    exact anyLive_of_putMany hn.wellFormed ((hresult _).1 hexists)
  · intro hlive
    rw [hrefused hlive]

/-- A batch with a live key in it is refused as a whole. A key that has expired is not in the way,
even though another entry has to be evicted for the write. -/
theorem insert_keyAlreadyExists_filled :
    filled.perform (.putMany [112] [([100], [1]), ([97], [9]), ([100], [2])] .ifNotExists 50) =
        (.error .keyAlreadyExists, filled) ∧
      (filled.perform (.put .ifNotExists [112] [97] (List.replicate 12 7) 102)).1 ≠
        .error .keyAlreadyExists := by
  have hreached : filled.Reachable := (reachable_bare _).performAll _ (by decide)
  constructor
  · have hlive : filled.AnyLive [112] [([100], [1]), ([97], [9]), ([100], [2])] 50 :=
      ⟨_, rfl, ([97], [9]), by decide, by decide⟩
    exact (insert_keyAlreadyExists hreached (by decide) (.inl rfl)).2 hlive
  · have hexpired : ¬ filled.AnyLive [112] [([97], List.replicate 12 7)] 102 := by
      rintro ⟨p, hp, item, hitem, hlive⟩
      rw [show filled.find? [112] = some _ from rfl] at hp
      obtain rfl := Option.some.inj hp
      obtain rfl := List.mem_singleton.1 hitem
      exact absurd hlive (by decide)
    intro hexists
    exact hexpired ((insert_keyAlreadyExists hreached (by decide)
      (.inr ⟨[97], List.replicate 12 7, rfl, rfl⟩)).1.1 hexists)

end Node

end CacheNode

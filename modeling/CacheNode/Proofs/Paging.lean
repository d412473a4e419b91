import CacheNode.Proofs.Courses

/-!
# CacheNode — all pages of a key scan

A scan of keys goes page by page, and each page tells where the next one starts. Offsets count the
live keys that match, so pages are consecutive windows on the list of these keys, and the scan is at
its end when no key is left behind a window. It is a look at one state of the partition and at one
instant: keys that come and go between two pages are another matter.

* `Partition.Pages` — pages that follow each other, up to the last one;
* `Partition.Pages.flatMap_keys` — together they list what is left from their offset on;
* `Partition.exists_pages`, `Partition.Pages.unique` — every scan comes to an end, in one way;
* `Partition.pages_cover` — what the pages of a whole scan are.
-/

namespace CacheNode.Partition

/-- Pages of a scan that follow each other. The first one starts at an offset, and each of the
others where the page before says. The last one says nothing. -/
inductive Pages (p : Partition) (pattern : Glob) (count : Nat) (now : Millis) :
    Nat → List KeyPage → Prop where
  | last {offset : Nat} (hend : (p.scanKeys pattern count offset now).next = none) :
      Pages p pattern count now offset [p.scanKeys pattern count offset now]
  | more {offset next : Nat} {rest : List KeyPage}
      (hnext : (p.scanKeys pattern count offset now).next = some next)
      (hrest : Pages p pattern count now next rest) :
      Pages p pattern count now offset (p.scanKeys pattern count offset now :: rest)

/-- A key that a scan is to list. -/
def Wanted (p : Partition) (pattern : Glob) (now : Millis) (key : Bytes) : Prop :=
  p.isLive key (p.expiry now) = true ∧ pattern.isMatch key = true

/-- Pages that list every wanted key once, in ascending order, and none in vain. -/
structure Covers (p : Partition) (pattern : Glob) (count : Nat) (now : Millis)
    (pages : List KeyPage) : Prop where
  ascending : (pages.flatMap KeyPage.keys).Pairwise (· < ·)
  listed    : ∀ key, key ∈ pages.flatMap KeyPage.keys ↔ p.Wanted pattern now key
  full      : ∀ page ∈ pages.dropLast, page.keys.length = count
  /-- a page tells of no other exactly if the wanted keys have all been listed with it -/
  ending    : ∀ before page after, pages = before ++ page :: after →
    (page.next = none ↔
      (before ++ [page]).flatMap KeyPage.keys = pages.flatMap KeyPage.keys)
  /-- no page is empty unless nothing is wanted -/
  filled    : ∀ page ∈ pages, page.keys = [] → ∀ key, ¬ p.Wanted pattern now key

variable {p : Partition} {pattern : Glob} {count offset next : Nat} {now : Millis}
  {pages other : List KeyPage}

-- ---------------------------------------------------------------------------
-- What is to be listed
-- ---------------------------------------------------------------------------

theorem mem_matching {key : Bytes} :
    key ∈ p.matching pattern now ↔ p.Wanted pattern now key := by
  rw [Wanted, isLive_iff, matching, List.mem_map]
  constructor
  · rintro ⟨⟨_, e⟩, hrow, rfl⟩
    obtain ⟨hthere, hkept⟩ := List.mem_filter.1 hrow
    obtain ⟨hlive, hmatch⟩ := Bool.and_eq_true_iff.1 hkept
    exact ⟨⟨e, Table.mem_rows_iff.1 hthere, by simpa using hlive⟩, hmatch⟩
  · rintro ⟨⟨e, he, hlive⟩, hmatch⟩
    refine ⟨(key, e), List.mem_filter.2 ⟨Table.mem_rows_iff.2 he, ?_⟩, rfl⟩
    exact Bool.and_eq_true_iff.2 ⟨by simpa using hlive, hmatch⟩

theorem matching_ascending (p : Partition) (pattern : Glob) (now : Millis) :
    (p.matching pattern now).Pairwise (· < ·) := by
  rw [matching, List.pairwise_map]
  exact p.entries.ascending.filter _

-- ---------------------------------------------------------------------------
-- One page
-- ---------------------------------------------------------------------------

theorem keys_scanKeys (p : Partition) (pattern : Glob) (count offset : Nat) (now : Millis) :
    (p.scanKeys pattern count offset now).keys =
      ((p.matching pattern now).drop offset).take count := rfl

/-- A page tells of no other if no key is left behind it. -/
theorem next_scanKeys_eq_none :
    (p.scanKeys pattern count offset now).next = none ↔
      (p.matching pattern now).length ≤ offset + count := by
  simp only [scanKeys, List.length_drop]
  split
  · next hmore => simp; omega
  · next hend => simp; omega

/-- Otherwise it is full, and the next one starts right behind it. -/
theorem next_scanKeys_eq_some (h : (p.scanKeys pattern count offset now).next = some next) :
    next = offset + count ∧ next < (p.matching pattern now).length := by
  simp only [scanKeys, List.length_drop, List.length_take] at h
  split at h
  · next hmore =>
    obtain rfl := Option.some.inj h
    omega
  · cases h

theorem length_scanKeys (h : (p.scanKeys pattern count offset now).next = some next) :
    (p.scanKeys pattern count offset now).keys.length = count := by
  obtain ⟨rfl, hmore⟩ := next_scanKeys_eq_some h
  rw [keys_scanKeys, List.length_take, List.length_drop]
  omega

theorem keys_scanKeys_ne_nil (hcount : 0 < count)
    (hmore : offset < (p.matching pattern now).length) :
    (p.scanKeys pattern count offset now).keys ≠ [] := by
  rw [keys_scanKeys, ← List.length_pos_iff, List.length_take, List.length_drop]
  omega

-- ---------------------------------------------------------------------------
-- Pages that follow each other
-- ---------------------------------------------------------------------------

namespace Pages

/-- Together they list what is left from their offset on. -/
theorem flatMap_keys (h : p.Pages pattern count now offset pages) :
    pages.flatMap KeyPage.keys = (p.matching pattern now).drop offset := by
  induction h with
  | last hend =>
    have hleft := next_scanKeys_eq_none.1 hend
    rw [List.flatMap_singleton, keys_scanKeys, List.take_of_length_le]
    rw [List.length_drop]
    omega
  | more hnext _ ih =>
    obtain ⟨rfl, -⟩ := next_scanKeys_eq_some hnext
    rw [List.flatMap_cons, ih, keys_scanKeys, ← List.drop_drop, List.take_append_drop]

theorem ne_nil (h : p.Pages pattern count now offset pages) : pages ≠ [] := by
  cases h <;> exact List.cons_ne_nil _ _

/-- All of them are full but the last one. -/
theorem length_keys (h : p.Pages pattern count now offset pages) :
    ∀ page ∈ pages.dropLast, page.keys.length = count := by
  induction h with
  | last hend => nofun
  | more hnext hrest ih =>
    rw [List.dropLast_cons_of_ne_nil hrest.ne_nil]
    intro page hpage
    rcases List.mem_cons.1 hpage with rfl | hlater
    · exact length_scanKeys hnext
    · exact ih page hlater

/-- The one that tells of no other is the last one. -/
theorem next_eq_none_iff (h : p.Pages pattern count now offset pages) :
    ∀ before page after, pages = before ++ page :: after → (page.next = none ↔ after = []) := by
  induction h with
  | last hend =>
    rintro (_ | ⟨first, before⟩) page after hpages
    · obtain ⟨rfl, rfl⟩ := List.cons.inj hpages
      exact ⟨fun _ => rfl, fun _ => hend⟩
    · have hnil := (List.cons.inj hpages).2
      simp at hnil
  | more hnext hrest ih =>
    rintro (_ | ⟨first, before⟩) page after hpages
    · obtain ⟨rfl, rfl⟩ := List.cons.inj hpages
      rw [hnext]
      exact ⟨nofun, fun hnil => absurd hnil hrest.ne_nil⟩
    · exact ih before page after (List.cons.inj hpages).2

/-- Where a key is left at the start, none of them is empty. -/
theorem keys_ne_nil (hcount : 0 < count) (h : p.Pages pattern count now offset pages)
    (hstart : offset < (p.matching pattern now).length) : ∀ page ∈ pages, page.keys ≠ [] := by
  induction h with
  | last hend =>
    intro page hpage
    obtain rfl := List.mem_singleton.1 hpage
    exact keys_scanKeys_ne_nil hcount hstart
  | more hnext _ ih =>
    intro page hpage
    rcases List.mem_cons.1 hpage with rfl | hlater
    · exact keys_scanKeys_ne_nil hcount hstart
    · exact ih (next_scanKeys_eq_some hnext).2 page hlater

/-- None but the first one can be empty. -/
theorem keys_ne_nil_of_mem_tail (hcount : 0 < count)
    (h : p.Pages pattern count now offset pages) : ∀ page ∈ pages.tail, page.keys ≠ [] := by
  cases h with
  | last _ => nofun
  | more hnext hrest => exact hrest.keys_ne_nil hcount (next_scanKeys_eq_some hnext).2

theorem unique (h : p.Pages pattern count now offset pages)
    (hother : p.Pages pattern count now offset other) : other = pages := by
  induction h generalizing other with
  | last hend =>
    cases hother with
    | last _ => rfl
    | more hnext _ =>
      rw [hend] at hnext
      cases hnext
  | more hnext _ ih =>
    cases hother with
    | last hend =>
      rw [hend] at hnext
      cases hnext
    | more hagain hrest =>
      rw [hnext] at hagain
      obtain rfl := Option.some.inj hagain
      rw [ih hrest]

end Pages

/-- Pages that are not empty use up what is left, so that there is a last one. -/
theorem exists_pages (hcount : 0 < count) (p : Partition) (pattern : Glob) (now : Millis)
    (offset : Nat) : ∃ pages, p.Pages pattern count now offset pages := by
  cases hnext : (p.scanKeys pattern count offset now).next with
  | none => exact ⟨_, .last hnext⟩
  | some next =>
    obtain ⟨heq, hmore⟩ := next_scanKeys_eq_some hnext
    obtain ⟨rest, hrest⟩ := exists_pages hcount p pattern now next
    exact ⟨_, .more hnext hrest⟩
termination_by (p.matching pattern now).length - offset

-- ---------------------------------------------------------------------------
-- A whole scan
-- ---------------------------------------------------------------------------

/-- The one that tells of no other is the one with which all keys are listed. -/
theorem Pages.ending (hcount : 0 < count) (h : p.Pages pattern count now 0 pages)
    (before : List KeyPage) (page : KeyPage) (after : List KeyPage)
    (hpages : pages = before ++ page :: after) :
    page.next = none ↔
      (before ++ [page]).flatMap KeyPage.keys = pages.flatMap KeyPage.keys := by
  rw [h.next_eq_none_iff before page after hpages]
  have hsplit : pages.flatMap KeyPage.keys =
      (before ++ [page]).flatMap KeyPage.keys ++ after.flatMap KeyPage.keys := by
    rw [hpages, ← List.flatMap_append, List.append_assoc]
    rfl
  rw [hsplit, List.self_eq_append_right]
  constructor
  · rintro rfl
    rfl
  · intro hnothing
    apply List.eq_nil_iff_forall_not_mem.2
    intro later hlater
    have hlast : later ∈ pages.tail := by
      rw [hpages]
      cases before with
      | nil => exact hlater
      | cons first before => exact List.mem_append_right _ (List.mem_cons_of_mem _ hlater)
    exact h.keys_ne_nil_of_mem_tail hcount later hlast
      (List.flatMap_eq_nil_iff.1 hnothing later hlater)

/-- A scan from the start, with pages of one key at least, ends after finitely many pages, and there
is one way to go. The pages list exactly the live keys that match, each of them once and in
ascending order; all are full but the last one; and the last one is the one with which all keys are
listed, so that it is never empty unless there is nothing to list. -/
theorem pages_cover (hcount : 0 < count) (p : Partition) (pattern : Glob) (now : Millis) :
    ∃ pages, p.Pages pattern count now 0 pages ∧
      (∀ other, p.Pages pattern count now 0 other → other = pages) ∧
      p.Covers pattern count now pages := by
  obtain ⟨pages, hpages⟩ := exists_pages hcount p pattern now 0
  have hkeys : pages.flatMap KeyPage.keys = p.matching pattern now := hpages.flatMap_keys
  refine ⟨pages, hpages, fun other hother => hpages.unique hother, ?_⟩
  exact
    { ascending := by
        rw [hkeys]
        exact matching_ascending p pattern now
      listed    := by
        intro key
        rw [hkeys, mem_matching]
      full      := hpages.length_keys
      ending    := hpages.ending hcount
      filled    := by
        intro page hpage hempty key hwanted
        have hlisted := List.length_pos_of_mem (mem_matching.2 hwanted)
        exact hpages.keys_ne_nil hcount hlisted page hpage hempty }

/-- A partition in which every other entry has expired, and one key is longer than the others. -/
def sprinkled : Partition :=
  (Site.aged
    [ .putMany [([98], [1]), ([100], [1])] .upsert 0,
      .putMany [([102], [2]), ([97], [2]), ([97, 97], [2]), ([101], [2]), ([99], [2])] .upsert
        15 ]).part

/-- Four keys of one byte are live, so the second page of two is the last one. -/
theorem pages_cover_sprinkled :
    sprinkled.Pages ⟨[63]⟩ 2 20 0 [⟨[[97], [99]], some 2⟩, ⟨[[101], [102]], none⟩] ∧
      sprinkled.Covers ⟨[63]⟩ 2 20 [⟨[[97], [99]], some 2⟩, ⟨[[101], [102]], none⟩] := by
  have hfirst : sprinkled.scanKeys ⟨[63]⟩ 2 0 20 = ⟨[[97], [99]], some 2⟩ := by cbv
  have hsecond : sprinkled.scanKeys ⟨[63]⟩ 2 2 20 = ⟨[[101], [102]], none⟩ := by cbv
  have hpages : sprinkled.Pages ⟨[63]⟩ 2 20 0
      [sprinkled.scanKeys ⟨[63]⟩ 2 0 20, sprinkled.scanKeys ⟨[63]⟩ 2 2 20] :=
    .more (by rw [hfirst]) (.last (by rw [hsecond]))
  obtain ⟨pages, -, hunique, hcovers⟩ :=
    pages_cover (by decide : 0 < 2) sprinkled ⟨[63]⟩ 20
  rw [← hunique _ hpages] at hcovers
  rw [hfirst, hsecond] at hpages hcovers
  exact ⟨hpages, hcovers⟩

end CacheNode.Partition

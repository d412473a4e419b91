import CacheNode.Bytes
import CacheNode.Quantity

/-!
# CacheNode — tables ordered by key

A table maps byte strings to values. Its rows stand in strictly ascending key order, so a table
is determined by its look-ups (`Table.ext_get?`), listing it gives the order that scans and
samples walk, and no key occurs twice.

* `Table.get?_insert`, `Table.get?_erase` — what each change does to a look-up;
* `Table.size_insert_of_none`, `Table.size_erase` — and to the number of rows;
* `Table.total_insert`, `Table.total_erase` — and to a sum of weights over the rows.
-/

namespace CacheNode

/-- A finite map from byte strings, listed in ascending key order. -/
structure Table (β : Type) where
  rows : List (Bytes × β)
  ascending : rows.Pairwise fun a b => a.1 < b.1

namespace Table

variable {β : Type}

-- ---------------------------------------------------------------------------
-- Rows
-- ---------------------------------------------------------------------------

/-- The value in the first row that has the key. -/
def find? (k : Bytes) : List (Bytes × β) → Option β
  | [] => none
  | (j, v) :: rest => if j = k then some v else find? k rest

/-- Puts a row at its place in key order, in place of the row with the same key. -/
def place (k : Bytes) (v : β) : List (Bytes × β) → List (Bytes × β)
  | [] => [(k, v)]
  | (j, w) :: rest =>
    if k < j then (k, v) :: (j, w) :: rest
    else if k = j then (k, v) :: rest
    else (j, w) :: place k v rest

@[simp] theorem find?_nil (k : Bytes) : find? k ([] : List (Bytes × β)) = none := rfl

theorem find?_cons (k j : Bytes) (v : β) (rest : List (Bytes × β)) :
    find? k ((j, v) :: rest) = if j = k then some v else find? k rest := rfl

@[simp] theorem place_nil (k : Bytes) (v : β) : place k v [] = [(k, v)] := rfl

theorem place_cons (k j : Bytes) (v w : β) (rest : List (Bytes × β)) :
    place k v ((j, w) :: rest) =
      if k < j then (k, v) :: (j, w) :: rest
      else if k = j then (k, v) :: rest
      else (j, w) :: place k v rest := rfl

theorem mem_place {k : Bytes} {v : β} {row : Bytes × β} {rows : List (Bytes × β)}
    (h : row ∈ place k v rows) : row = (k, v) ∨ row ∈ rows := by
  induction rows with
  | nil => simpa using h
  | cons hd tl ih =>
    obtain ⟨j, w⟩ := hd
    rw [place_cons] at h
    split at h
    · grind
    · split at h <;> grind

theorem place_ascending (k : Bytes) (v : β) {rows : List (Bytes × β)}
    (h : rows.Pairwise fun a b => a.1 < b.1) :
    (place k v rows).Pairwise fun a b => a.1 < b.1 := by
  induction rows with
  | nil => simp
  | cons hd tl ih =>
    obtain ⟨j, w⟩ := hd
    obtain ⟨hj, htl⟩ := List.pairwise_cons.1 h
    rw [place_cons]
    split
    · next hkj =>
      refine List.pairwise_cons.2 ⟨fun row hrow => ?_, h⟩
      rcases List.mem_cons.1 hrow with rfl | hrow
      · exact hkj
      · exact Std.lt_trans hkj (hj row hrow)
    · next hkj =>
      split
      · next hk =>
        subst hk
        exact List.pairwise_cons.2 ⟨hj, htl⟩
      · next hne =>
        -- the new key lies strictly above the head, so it goes into the tail
        have hjk : j < k := by
          rcases Bytes.lt_trichotomy k j with h | h | h <;> simp_all
        refine List.pairwise_cons.2 ⟨fun row hrow => ?_, ih htl⟩
        rcases mem_place hrow with rfl | hrow
        · exact hjk
        · exact hj row hrow

theorem find?_eq_some_of_mem {k : Bytes} {v : β} {rows : List (Bytes × β)}
    (h : rows.Pairwise fun a b => a.1 < b.1) (hm : (k, v) ∈ rows) :
    find? k rows = some v := by
  induction rows with
  | nil => simp at hm
  | cons hd tl ih =>
    obtain ⟨j, w⟩ := hd
    obtain ⟨hj, htl⟩ := List.pairwise_cons.1 h
    rcases List.mem_cons.1 hm with heq | hm
    · cases heq; simp [find?_cons]
    · have hlt : j < k := hj _ hm
      have hne : j ≠ k := by rintro rfl; exact Std.lt_irrefl hlt
      simp [find?_cons, hne, ih htl hm]

theorem mem_of_find?_eq_some {k : Bytes} {v : β} {rows : List (Bytes × β)}
    (h : find? k rows = some v) : (k, v) ∈ rows := by
  induction rows with
  | nil => simp at h
  | cons hd tl ih =>
    obtain ⟨j, w⟩ := hd
    rw [find?_cons] at h
    split at h
    · next hj => cases h; simp [hj]
    · exact List.mem_cons_of_mem _ (ih h)

theorem find?_place (k : Bytes) (v : β) (rows : List (Bytes × β)) (q : Bytes) :
    find? q (place k v rows) = if q = k then some v else find? q rows := by
  induction rows with
  | nil => simp [find?_cons, eq_comm]
  | cons hd tl ih =>
    obtain ⟨j, w⟩ := hd
    rw [place_cons]
    split
    · simp [find?_cons, eq_comm]
    · split
      · next hk =>
        subst hk
        by_cases hq : q = k
        · simp [find?_cons, hq]
        · simp [find?_cons, hq, Ne.symm hq]
      · next hne =>
        by_cases hjq : j = q
        · subst hjq; simp [find?_cons, Ne.symm hne]
        · simp [find?_cons, hjq, ih]

theorem find?_filter_ne (k : Bytes) (rows : List (Bytes × β)) (q : Bytes) :
    find? q (rows.filter fun row => row.1 ≠ k) = if q = k then none else find? q rows := by
  induction rows with
  | nil => simp
  | cons hd tl ih =>
    obtain ⟨j, w⟩ := hd
    by_cases hj : j = k
    · subst hj
      rw [List.filter_cons_of_neg (by simp), ih]
      by_cases hq : q = j <;> simp [find?_cons, hq, eq_comm]
    · rw [List.filter_cons_of_pos (by simpa using hj), find?_cons, find?_cons, ih]
      by_cases hq : q = k
      · subst hq; simp [hj]
      · simp [hq]

-- ---------------------------------------------------------------------------
-- Operations
-- ---------------------------------------------------------------------------

/-- The table without rows. -/
def empty : Table β := ⟨[], List.Pairwise.nil⟩

instance : EmptyCollection (Table β) := ⟨empty⟩

instance : Inhabited (Table β) := ⟨empty⟩

/-- The value stored under a key. -/
def get? (t : Table β) (k : Bytes) : Option β := find? k t.rows

/-- Stores a value under a key, in place of what was there. -/
def insert (t : Table β) (k : Bytes) (v : β) : Table β :=
  ⟨place k v t.rows, place_ascending k v t.ascending⟩

/-- Removes a key and its value. -/
def erase (t : Table β) (k : Bytes) : Table β :=
  ⟨t.rows.filter fun row => row.1 ≠ k, t.ascending.filter _⟩

/-- The keys in ascending order. -/
def keys (t : Table β) : List Bytes := t.rows.map Prod.fst

/-- The number of rows. -/
def size (t : Table β) : Nat := t.rows.length

/-- The sum of a weight over all rows. -/
def total (t : Table β) (weight : Bytes × β → Nat) : Nat := sumOf weight t.rows

/-- The table of a list of rows; of rows with the same key the last one counts. -/
def ofRows (rows : List (Bytes × β)) : Table β :=
  rows.foldl (fun t row => t.insert row.1 row.2) empty

-- ---------------------------------------------------------------------------
-- Look-ups
-- ---------------------------------------------------------------------------

@[simp] theorem rows_empty : (empty : Table β).rows = [] := rfl

@[simp] theorem get?_empty (k : Bytes) : (empty : Table β).get? k = none := rfl

theorem mem_rows_iff {t : Table β} {k : Bytes} {v : β} :
    (k, v) ∈ t.rows ↔ t.get? k = some v :=
  ⟨find?_eq_some_of_mem t.ascending, mem_of_find?_eq_some⟩

@[simp] theorem mem_keys_iff {t : Table β} {k : Bytes} :
    k ∈ t.keys ↔ (t.get? k).isSome := by
  simp only [keys, List.mem_map, Prod.exists, exists_and_right, exists_eq_right, mem_rows_iff,
    Option.isSome_iff_exists]

theorem get?_insert (t : Table β) (k : Bytes) (v : β) (q : Bytes) :
    (t.insert k v).get? q = if q = k then some v else t.get? q :=
  find?_place k v t.rows q

@[simp] theorem get?_insert_self (t : Table β) (k : Bytes) (v : β) :
    (t.insert k v).get? k = some v := by simp [get?_insert]

theorem get?_erase (t : Table β) (k q : Bytes) :
    (t.erase k).get? q = if q = k then none else t.get? q :=
  find?_filter_ne k t.rows q

@[simp] theorem get?_erase_self (t : Table β) (k : Bytes) : (t.erase k).get? k = none := by
  simp [get?_erase]

/-- What is found after an insertion was inserted or was there before. -/
theorem get?_insert_cases {t : Table β} {k q : Bytes} {v w : β}
    (h : (t.insert k v).get? q = some w) : (q = k ∧ w = v) ∨ t.get? q = some w := by
  rw [get?_insert] at h
  split at h
  · next hq => exact .inl ⟨hq, (Option.some.inj h).symm⟩
  · exact .inr h

theorem get?_of_erase {t : Table β} {k q : Bytes} {v : β} (h : (t.erase k).get? q = some v) :
    t.get? q = some v := by
  rw [get?_erase] at h
  split at h
  · cases h
  · exact h

/-- No key has two rows. -/
theorem nodup_keys (t : Table β) : t.keys.Nodup := by
  rw [keys, List.Nodup, List.pairwise_map]
  exact t.ascending.imp fun {a b} hlt heq => by rw [heq] at hlt; exact Std.lt_irrefl hlt

/-- The keys are listed in strictly ascending order. -/
theorem keys_ascending (t : Table β) : t.keys.Pairwise (· < ·) := by
  rw [keys, List.pairwise_map]; exact t.ascending

/-- Two tables with the same look-ups have the same rows. -/
theorem ext_get? {s t : Table β} (h : ∀ k, s.get? k = t.get? k) : s = t := by
  have hmem : ∀ row, row ∈ s.rows ↔ row ∈ t.rows := fun ⟨k, v⟩ => by
    rw [mem_rows_iff, mem_rows_iff, h]
  obtain ⟨rs, hs⟩ := s
  obtain ⟨rt, ht⟩ := t
  simp only [mk.injEq]
  clear h
  induction rs generalizing rt with
  | nil =>
    cases rt with
    | nil => rfl
    | cons b bs => exact absurd ((hmem b).2 (by simp)) (by simp)
  | cons a as ih =>
    cases rt with
    | nil => exact absurd ((hmem a).1 (by simp)) (by simp)
    | cons b bs =>
      obtain ⟨ha, has⟩ := List.pairwise_cons.1 hs
      obtain ⟨hb, hbs⟩ := List.pairwise_cons.1 ht
      -- both heads carry the least key, so they are the same row
      have hab : a = b := by
        rcases List.mem_cons.1 ((hmem a).1 (by simp)) with h | h
        · exact h
        · rcases List.mem_cons.1 ((hmem b).2 (by simp)) with h' | h'
          · exact h'.symm
          · exact absurd (Std.lt_trans (ha _ h') (hb _ h)) Std.lt_irrefl
      subst hab
      refine congrArg (a :: ·) (ih has bs hbs fun row => ?_)
      have hra : ∀ {l : List (Bytes × β)}, (∀ x ∈ l, a.1 < x.1) → row ∈ l → row ≠ a := by
        rintro l hl hr rfl; exact Std.lt_irrefl (hl _ hr)
      constructor
      · intro hr
        exact ((List.mem_cons.1 ((hmem row).1 (List.mem_cons_of_mem _ hr))).resolve_left
          (hra ha hr))
      · intro hr
        exact ((List.mem_cons.1 ((hmem row).2 (List.mem_cons_of_mem _ hr))).resolve_left
          (hra hb hr))

theorem erase_eq_self {t : Table β} {k : Bytes} (h : t.get? k = none) : t.erase k = t :=
  ext_get? fun q => by rw [get?_erase]; split <;> simp_all

/-- Storing what is there changes nothing. -/
theorem insert_eq_self {t : Table β} {k : Bytes} {v : β} (h : t.get? k = some v) :
    t.insert k v = t :=
  ext_get? fun q => by rw [get?_insert]; split <;> simp_all

@[simp] theorem erase_insert_self (t : Table β) (k : Bytes) (v : β) :
    (t.insert k v).erase k = t.erase k :=
  ext_get? fun q => by simp only [get?_erase, get?_insert]; split <;> rfl

@[simp] theorem insert_insert_self (t : Table β) (k : Bytes) (v w : β) :
    (t.insert k v).insert k w = t.insert k w :=
  ext_get? fun q => by simp only [get?_insert]; split <;> rfl

@[simp] theorem insert_erase_self (t : Table β) (k : Bytes) (v : β) :
    (t.erase k).insert k v = t.insert k v :=
  ext_get? fun q => by simp only [get?_insert, get?_erase]; split <;> rfl

-- ---------------------------------------------------------------------------
-- Sums over rows
-- ---------------------------------------------------------------------------

theorem sumOf_place_of_none {k : Bytes} (v : β) {rows : List (Bytes × β)}
    (weight : Bytes × β → Nat) (h : find? k rows = none) :
    sumOf weight (place k v rows) = weight (k, v) + sumOf weight rows := by
  induction rows with
  | nil => rfl
  | cons hd tl ih =>
    obtain ⟨j, w⟩ := hd
    rw [find?_cons] at h
    split at h
    · simp at h
    · next hj =>
      rw [place_cons]
      split
      · rfl
      · rw [if_neg (Ne.symm hj)]
        simp only [sumOf, ih h]; omega

theorem sumOf_filter_ne_of_some {k : Bytes} {v : β} {rows : List (Bytes × β)}
    (weight : Bytes × β → Nat) (hs : rows.Pairwise fun a b => a.1 < b.1)
    (h : find? k rows = some v) :
    sumOf weight (rows.filter fun row => row.1 ≠ k) + weight (k, v) = sumOf weight rows := by
  induction rows with
  | nil => simp at h
  | cons hd tl ih =>
    obtain ⟨j, w⟩ := hd
    obtain ⟨hj, htl⟩ := List.pairwise_cons.1 hs
    rw [find?_cons] at h
    split at h
    · next hjk =>
      subst hjk
      cases h
      -- no later row has this key
      have hrest : (tl.filter fun row => row.1 ≠ j) = tl :=
        List.filter_eq_self.2 fun row hrow => by
          have := hj row hrow
          simp only [ne_eq, decide_not, Bool.not_eq_eq_eq_not, Bool.not_true,
            decide_eq_false_iff_not]
          rintro heq; rw [heq] at this; exact Std.lt_irrefl this
      rw [List.filter_cons_of_neg (by simp), hrest]
      simp only [sumOf]; omega
    · next hjk =>
      rw [List.filter_cons_of_pos (by simpa using hjk)]
      simp only [sumOf]
      have := ih htl h
      omega

@[simp] theorem total_empty (weight : Bytes × β → Nat) : (empty : Table β).total weight = 0 :=
  rfl

theorem total_insert_of_none {t : Table β} {k : Bytes} (v : β) (weight : Bytes × β → Nat)
    (h : t.get? k = none) : (t.insert k v).total weight = t.total weight + weight (k, v) := by
  rw [total, insert, sumOf_place_of_none v weight h, total]; omega

theorem total_erase {t : Table β} {k : Bytes} {v : β} (weight : Bytes × β → Nat)
    (h : t.get? k = some v) : (t.erase k).total weight + weight (k, v) = t.total weight :=
  sumOf_filter_ne_of_some weight t.ascending h

/-- Replacing a value exchanges its weight. -/
theorem total_insert_of_some {t : Table β} {k : Bytes} {w : β} (v : β)
    (weight : Bytes × β → Nat) (h : t.get? k = some w) :
    (t.insert k v).total weight + weight (k, w) = t.total weight + weight (k, v) := by
  rw [← insert_erase_self, total_insert_of_none v weight (by simp), ← total_erase weight h]
  omega

theorem size_eq_total (t : Table β) : t.size = t.total fun _ => 1 := by
  simp only [size, total]
  induction t.rows with
  | nil => rfl
  | cons hd tl ih => simp only [List.length_cons, sumOf, ih]; omega

theorem size_insert_of_none {t : Table β} {k : Bytes} (v : β) (h : t.get? k = none) :
    (t.insert k v).size = t.size + 1 := by
  simp only [size_eq_total, total_insert_of_none v _ h]

theorem size_insert_of_some {t : Table β} {k : Bytes} {w : β} (v : β) (h : t.get? k = some w) :
    (t.insert k v).size = t.size := by
  have := total_insert_of_some v (fun _ => 1) h
  simp only [size_eq_total]; omega

theorem size_erase {t : Table β} {k : Bytes} {v : β} (h : t.get? k = some v) :
    (t.erase k).size + 1 = t.size := by
  simpa only [size_eq_total] using total_erase (fun _ => 1) h

theorem size_erase_le (t : Table β) (k : Bytes) : (t.erase k).size ≤ t.size := by
  cases h : t.get? k with
  | none => exact Nat.le_of_eq (congrArg size (erase_eq_self h))
  | some v => have := size_erase h; omega

/-- A stored value added up apart from all others. -/
theorem total_eq_erase_add {t : Table β} {k : Bytes} {v : β} (weight : Bytes × β → Nat)
    (h : t.get? k = some v) : t.total weight = (t.erase k).total weight + weight (k, v) :=
  (total_erase weight h).symm

theorem total_insert (t : Table β) (k : Bytes) (v : β) (weight : Bytes × β → Nat) :
    (t.insert k v).total weight = (t.erase k).total weight + weight (k, v) := by
  rw [← insert_erase_self, total_insert_of_none v weight (by simp)]

theorem total_mono {t : Table β} {weight other : Bytes × β → Nat}
    (h : ∀ k v, t.get? k = some v → weight (k, v) ≤ other (k, v)) :
    t.total weight ≤ t.total other := by
  have hrows : ∀ row ∈ t.rows, weight row ≤ other row := fun row hrow =>
    h row.1 row.2 (mem_rows_iff.1 hrow)
  simp only [total]
  revert hrows
  induction t.rows with
  | nil => intro _; exact Nat.le_refl 0
  | cons hd tl ih =>
    intro hrows
    have hhd := hrows hd (by simp)
    have htl := ih fun row hrow => hrows row (by simp [hrow])
    simp only [sumOf]
    omega

theorem total_add (t : Table β) (weight other : Bytes × β → Nat) :
    (t.total fun row => weight row + other row) = t.total weight + t.total other := by
  simp only [total]
  induction t.rows with
  | nil => rfl
  | cons hd tl ih => simp only [sumOf, ih]; omega

@[simp] theorem size_empty : (empty : Table β).size = 0 := rfl

theorem size_eq_zero_iff {t : Table β} : t.size = 0 ↔ t = empty := by
  constructor
  · intro h
    obtain ⟨rows, hs⟩ := t
    simp only [size, List.length_eq_zero_iff] at h
    subst h; rfl
  · rintro rfl; rfl

end Table

end CacheNode

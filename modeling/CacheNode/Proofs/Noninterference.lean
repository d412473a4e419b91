import CacheNode.Proofs.Alike
import CacheNode.Proofs.Configurations
import CacheNode.Proofs.Isolation
import CacheNode.Proofs.MakingRoom

/-!
# CacheNode — what a bounded partition sees of the others

A partition with a budget of its own is admitted, evicted from and compacted by its own counters.
So nothing that happens to other partitions can be noticed there: of two runs that perform the same
operations on it, in between of which they may do whatever they like elsewhere, those operations
have the same results, and the partition ends the same. The exception are the draws. A sample of
entries takes draws from a supply that all partitions share, so it is assumed that every eviction
from the partition looks at all of its entries, which takes none.

The proof compares a run with the run of those operations alone. Two nodes are twins at a name when
they have alike partitions there; an operation on that partition keeps them twins, and an operation
elsewhere may be performed on one of them only.

* `Node.Operation.subject?` — the existing partition that an operation is about;
* `Node.Twins` — nodes with alike partitions under a name;
* `Node.twins_perform`, `Node.twins_spare` — one operation;
* `Node.bounded_noninterference` — two runs.
-/

namespace CacheNode

theorem Draws.used_le_pick {α : Type} (d : Draws) (count : Nat) (xs : List α) :
    d.used ≤ (d.pick count xs).2.used := by
  induction count generalizing d xs with
  | zero => exact Nat.le_refl _
  | succ count ih =>
    have hfirst : (d.below xs.length).2.used = d.used + 1 := rfl
    simp only [Draws.pick]
    split
    · exact Nat.le_succ d.used
    · have hrest := ih (d.below xs.length).2 (xs.eraseIdx (d.below xs.length).1)
      exact Nat.le_trans (by omega) hrest

theorem Draws.used_le_choose {α : Type} (d : Draws) (count : Nat) (xs : List α) :
    d.used ≤ (d.choose count xs).2.used := by
  unfold Draws.choose
  split
  · exact Nat.le_refl _
  · exact Draws.used_le_pick d count xs

namespace Site

variable {now : Millis}

/-- Attempts to write that agree on alike partitions and take no draws. -/
structure Discreet {α : Type} (write : Site → Except CacheError (Admission α) × Site) : Prop
    extends Writing write where
  agree : ∀ s t, s.part.Alike t.part → s.part.HasBudget → Agree (write s) (write t)
  draws : ∀ s, (write s).2.draws = s.draws

theorem draws_grow {s grown : Site} {bytes : ByteCount} (h : s.grow bytes = some grown) :
    grown.draws = s.draws := by
  obtain ⟨a, -, rfl⟩ := grow_eq_some h
  rfl

theorem draws_foldl_writeOne (now : Millis) (batch : List (Bytes × Bytes)) (s : Site) :
    (batch.foldl (writeOne now) s).draws = s.draws := by
  have hone (s : Site) (item : Bytes × Bytes) : (writeOne now s item).draws = s.draws := by
    simp only [writeOne]
    split
    · rfl
    · split
      · rfl
      · split <;> rfl
  induction batch generalizing s with
  | nil => rfl
  | cons item rest ih => exact (ih _).trans (hone s item)

theorem discreet_writeMany (items : List (Bytes × Bytes)) (mode : PutMode) (now : Millis) :
    Discreet fun s => s.writeMany items mode now where
  toWriting := writing_writeMany items mode now
  agree := fun _ _ h hs => agree_writeMany items mode now h hs
  draws := by
    intro s
    unfold writeMany
    split
    · rfl
    · dsimp only
      split
      · rfl
      · next grown hgrown => exact (draws_foldl_writeOne now _ grown).trans (draws_grow hgrown)

theorem draws_createInteger (key : Bytes) (value : Int64) (now : Millis) (s : Site) :
    (s.createInteger key value now).2.draws = s.draws := by
  simp only [createInteger]
  split
  · rfl
  · next grown hgrown =>
    have hdraws : grown.draws = s.draws := draws_grow hgrown
    exact hdraws

theorem discreet_increment (key : Bytes) (delta : Int64) (now : Millis) :
    Discreet fun s => s.increment key delta now where
  toWriting := writing_increment key delta now
  agree := fun _ _ h hs => agree_increment key delta now h hs
  draws := by
    intro s
    rcases increment_cases s key delta now with ⟨_, -, heq⟩ | h
    · rw [heq]
    · rcases h with ⟨-, heq⟩ | ⟨e, -, -, heq⟩ | ⟨e, value, fresh, -, -, heq⟩
      · rw [heq, draws_createInteger]
      · rw [heq, draws_createInteger]
        rfl
      · rw [heq]
        rfl

theorem site_orInsufficient {α : Type} (outcome : Except CacheError (Admission α) × Site) :
    (orInsufficient outcome).2 = outcome.2 := by
  unfold orInsufficient
  split <;> rfl

/-- Every operation that is not about predicates is a sequence of steps. -/
theorem steps_perform (act : Partition.Operation) (hact : act.isWatch = false) (s : Site) :
    ∃ limit, s.Steps True limit (s.perform act).2 := by
  refine ⟨s.part.bytes + (s.perform act).2.part.bytes + 1, ?_⟩
  generalize hlimit : s.part.bytes + (s.perform act).2.part.bytes + 1 = limit
  have hs : s.part.bytes < limit := by omega
  have hafter : (s.perform act).2.part.bytes < limit := by omega
  cases act with
  | get key now touch count => exact steps_get key now touch count hs
  | getMany keys now => exact steps_getMany keys now hs
  | touch key now => exact steps_touch key now hs
  | ttl key now => exact steps_ttl key now hs
  | putMany items mode now =>
    have hwritten : ((s.perform (.putMany items mode now)).2) = (s.writeMany items mode now).2 :=
      site_orInsufficient (s.writeMany items mode now)
    rw [hwritten] at hafter ⊢
    exact steps_writeMany items mode now hafter
  | increment key delta now =>
    have hwritten : ((s.perform (.increment key delta now)).2) = (s.increment key delta now).2 :=
      site_orInsufficient (s.increment key delta now)
    rw [hwritten] at hafter ⊢
    exact steps_increment key delta now hs hafter
  | delete key now => exact steps_delete key now hs
  | deleteMany keys now => exact steps_deleteMany keys now hs
  | expire keys now => exact steps_expire keys now hs
  | evict count now goal => exact steps_evict count now goal hs
  | compact now cancel => exact steps_compact now cancel hs
  | flush => exact steps_flush trivial hs
  | sampleExpired samples now => exact steps_sampleExpired samples now hs
  | scanKeys pattern count offset now => exact .refl
  | addWatch owner watchId key filter => cases hact
  | removeWatch ownerId watchId => cases hact
  | removeWatchesOf ownerId => cases hact
  | pruneWatches => cases hact

end Site

namespace Node

/-- The operation on its partition that an operation on a node amounts to, where it is not a
write. -/
def Operation.local? : Operation → Option (Bytes × Partition.Operation)
  | .get name key now => if key = [] then none else some (name, .get key now true true)
  | .getMany name keys now => some (name, .getMany keys now)
  | .delete name key now => some (name, .delete key now)
  | .deleteMany name keys now => some (name, .deleteMany keys now)
  | .touch name key now => some (name, .touch key now)
  | .ttl name key now => some (name, .ttl key now)
  | .flushPartition name => some (name, .flush)
  | .scanKeys name pattern count offset now => some (name, .scanKeys pattern count offset now)
  | .compact name now cancel => some (name, .compact now cancel)
  | _ => none

/-- The partition that an operation on entries is about, if it is about one. -/
def Operation.subject? : Operation → Option Bytes
  | .get name _ _ | .getMany name _ _ | .put _ name _ _ _ | .putMany name _ _ _ => some name
  | .delete name _ _ | .deleteMany name _ _ | .touch name _ _ | .ttl name _ _ => some name
  | .increment name _ _ _ | .decrement name _ _ _ => some name
  | .flushPartition name | .scanKeys name _ _ _ _ | .compact name _ _ => some name
  | _ => none

/-- Whether an operation has nothing to do with the entries and the configuration of a partition:
it is about another one, or about predicates and channels, or it lists names. -/
def Operation.spares (op : Operation) (name : Bytes) : Bool :=
  match op with
  | .putPartition other _ | .deletePartition other => other ≠ name
  | .flushAll | .recover | .scan .. => false
  | op => op.subject? ≠ some name

/-- Two nodes with alike partitions under a name, which have a budget of their own. -/
structure Twins (name : Bytes) (n m : Node) : Prop where
  left  : n.WellFormed
  right : m.WellFormed
  parts : ∃ p q, n.find? name = some p ∧ m.find? name = some q ∧ p.Alike q ∧
    0 < p.metadata.maxCacheSize

/-- An operation about a partition takes no draws. If the partition has a budget of its own, this
says that every eviction which the operation brings about looks at the whole partition: a sample
would take draws (`Site.used_evict`), and nothing else does there. -/
def Exhaustive (name : Bytes) (n : Node) (op : Operation) : Prop :=
  op.subject? = some name → (n.perform op).2.world.draws.used = n.world.draws.used

/-- The operations of a sequence that are about a partition, with their results. -/
def answersAbout (name : Bytes) (ops : List Operation) (n : Node) : List (Operation × Result) :=
  (ops.zip (performAll ops n).1).filter (·.1.subject? = some name)

variable {n m : Node} {name other : Bytes} {p q : Partition} {now : Millis} {α : Type}
  {write : Site → Except CacheError (Admission α) × Site}

-- ---------------------------------------------------------------------------
-- One operation on a partition that is there
-- ---------------------------------------------------------------------------

theorem hasBudget (hn : n.WellFormed) (hp : n.find? name = some p)
    (hbounded : 0 < p.metadata.maxCacheSize) : p.HasBudget :=
  ⟨hbounded, (hn _ _ hp).bound⟩

theorem check_of_find? (hn : n.WellFormed) (hp : n.find? name = some p) :
    PartitionName.check name = .ok () := (hn _ _ hp).valid

theorem existing_of_find? (hn : n.WellFormed) (hp : n.find? name = some p) :
    n.existing name = .ok p := by
  simp only [existing, check_of_find? hn hp, hp]

/-- An operation that is not a write acts on its partition as the same operation does on a
partition that is held. -/
theorem perform_local {op : Operation} {act : Partition.Operation} (hn : n.WellFormed)
    (hop : op.local? = some (name, act)) (hp : n.find? name = some p) :
    n.perform op = (((n.site p).perform act).1, n.settle ((n.site p).perform act).2) := by
  have hcheck := check_of_find? hn hp
  have hexisting := existing_of_find? hn hp
  cases op with
  | get target key now =>
    simp only [Operation.local?] at hop
    split at hop
    · cases hop
    · next hkey =>
      cases hop
      simp only [perform, answer, get, hcheck, if_neg hkey, visit, hp, Option.map_some, act]
      rfl
  | getMany target keys now =>
    cases hop
    simp only [perform, answer, getMany, hcheck, visit, hp, Option.map_some, act]
    rfl
  | scanKeys target pattern count offset now =>
    cases hop
    simp only [perform, scanKeys, hexisting, Site.perform]
    rw [settle_site hp (hn _ _ hp).named]
    rfl
  | delete target key now =>
    cases hop
    simp only [perform, answer, delete, onExisting, hexisting, act]
    rfl
  | deleteMany target keys now =>
    cases hop
    simp only [perform, answer, deleteMany, onExisting, hexisting, act]
    rfl
  | touch target key now =>
    cases hop
    simp only [perform, answer, touch, onExisting, hexisting, act]
    rfl
  | ttl target key now =>
    cases hop
    simp only [perform, answer, ttl, onExisting, hexisting, act]
    rfl
  | flushPartition target =>
    cases hop
    simp only [perform, answer, flushPartition, onExisting, hexisting, act]
    rfl
  | compact target now cancel =>
    cases hop
    simp only [perform, answer, compactPartition, onExisting, hexisting, act]
    rfl
  | _ => cases hop

/-- None of them is about predicates. -/
theorem isWatch_of_local {op : Operation} {act : Partition.Operation}
    (hop : op.local? = some (name, act)) : act.isWatch = false := by
  cases op with
  | get target key now =>
    simp only [Operation.local?] at hop
    split at hop
    · cases hop
    · cases hop
      rfl
  | _ => cases hop <;> rfl

/-- A write to a partition that is there is a sequence of attempts that agree on alike
partitions. -/
theorem perform_discreet {op : Operation} (hop : op.target? = some (name, now)) :
    ∃ (α : Type) (shape : α → Outcome) (write : Site → Except CacheError (Admission α) × Site),
      Site.Discreet write ∧ ∀ (n : Node) (p : Partition), n.WellFormed → n.find? name = some p →
        n.perform op = answer shape (n.accept name now write) := by
  have hputMany (items : List (Bytes × Bytes)) (mode : PutMode) (n : Node) (p : Partition)
      (hn : n.WellFormed) (hp : n.find? name = some p) : n.putMany name items mode now =
        n.accept name now fun s => s.writeMany items mode now := by
    cases mode <;>
      simp only [putMany, existing_of_find? hn hp, ensure, check_of_find? hn hp, hp]
  have hincrement (key : Bytes) (delta : Int64) (n : Node) (p : Partition)
      (hn : n.WellFormed) (hp : n.find? name = some p) : n.increment name key delta now =
        n.accept name now fun s => s.increment key delta now := by
    simp only [increment, ensure, check_of_find? hn hp, hp]
  cases op with
  | put mode target key value clock =>
    cases hop
    refine ⟨Nat, fun _ => .done, _, Site.discreet_writeMany [(key, value)] mode now, ?_⟩
    intro n p hn hp
    simp only [perform, answer, put, hputMany _ _ n p hn hp]
    cases (n.accept name now _).1 <;> rfl
  | putMany target items mode clock =>
    cases hop
    refine ⟨Nat, .count, _, Site.discreet_writeMany items mode now, ?_⟩
    intro n p hn hp
    simp only [perform, hputMany _ _ n p hn hp]
  | increment target key delta clock =>
    cases hop
    refine ⟨Int64, .integer, _, Site.discreet_increment key delta now, ?_⟩
    intro n p hn hp
    simp only [perform, hincrement _ _ n p hn hp]
  | decrement target key delta clock =>
    cases hop
    refine ⟨Int64, .integer, _, Site.discreet_increment key (-delta) now, ?_⟩
    intro n p hn hp
    simp only [perform, decrement, hincrement _ _ n p hn hp]
  | _ => cases hop

-- ---------------------------------------------------------------------------
-- Draws
-- ---------------------------------------------------------------------------

theorem used_le_evictFrom (n : Node) (name : Bytes) (bytes : ByteCount) (now : Millis) :
    n.world.draws.used ≤ (n.evictFrom name bytes now).2.world.draws.used := by
  cases hp : n.find? name with
  | none =>
    simp only [evictFrom, visit, hp]
    exact Nat.le_refl _
  | some p =>
    rw [evictFrom_of_find? hp]
    exact Site.used_le_evict (n.site p) _ _ _

theorem used_le_makeRoom (n : Node) (name : Bytes) (bytes : ByteCount) (now : Millis) :
    n.world.draws.used ≤ (n.makeRoom name bytes now).2.world.draws.used := by
  apply makeRoom_induction (P := fun k => n.world.draws.used ≤ k.world.draws.used)
    (Nat.le_refl _)
  · intro p
    simp only [victimFor]
    split
    · exact Nat.le_refl _
    · exact Draws.used_le_choose _ _ _
  · intro k victim hk
    exact Nat.le_trans hk (used_le_evictFrom k victim bytes now)

theorem used_le_tryWrite (hwrite : Site.Discreet write) (tries : Nat) (needed : ByteCount)
    (n : Node) :
    n.world.draws.used ≤ (tryWrite name now write tries needed n).2.world.draws.used := by
  apply tryWrite_induction (P := fun k => n.world.draws.used ≤ k.world.draws.used) tries needed
    (Nat.le_refl _)
  · intro k p hk hp
    have hdraws := hwrite.draws (k.site p)
    show n.world.draws.used ≤ (write (k.site p)).2.draws.used
    rw [hdraws]
    exact hk
  · intro k bytes hk
    exact Nat.le_trans hk (used_le_makeRoom k name bytes now)

-- ---------------------------------------------------------------------------
-- Operations on the partition
-- ---------------------------------------------------------------------------

theorem Twins.refl (hn : n.WellFormed) (hp : n.find? name = some p)
    (hbounded : 0 < p.metadata.maxCacheSize) : Twins name n n :=
  ⟨hn, hn, p, p, hp, hp, .refl p, hbounded⟩

/-- Work on both partitions keeps nodes twins if it leaves the partitions alike. -/
theorem Twins.settle {clears : Prop} {limit limit' : Nat} {s t : Site} (h : Twins name n m)
    (hp : n.find? name = some p) (hq : m.find? name = some q)
    (hs : (n.site p).Steps clears limit s) (ht : (m.site q).Steps clears limit' t)
    (halike : s.part.Alike t.part) : Twins name (n.settle s) (m.settle t) := by
  obtain ⟨hn, hm, r, -, hr, -, -, hbounded⟩ := h
  rw [hp] at hr
  obtain rfl : p = r := Option.some.inj hr
  have hs' := (hn _ _ hp).of_settings hs.settings (hs.keyed (hn _ _ hp).keyed)
  have ht' := (hm _ _ hq).of_settings ht.settings (ht.keyed (hm _ _ hq).keyed)
  refine ⟨hn.settle hs', hm.settle ht', s.part, t.part, ?_, ?_, halike, ?_⟩
  · rw [find?_settle, if_pos hs'.named.symm]
  · rw [find?_settle, if_pos ht'.named.symm]
  · rw [Partition.metadata_eq hs.settings]
    exact hbounded

theorem Twins.evictFrom {bytes : ByteCount} (h : Twins name n m)
    (hquiet : (n.evictFrom name bytes now).2.world.draws.used = n.world.draws.used) :
    (n.evictFrom name bytes now).1 = (m.evictFrom name bytes now).1 ∧
      Twins name (n.evictFrom name bytes now).2 (m.evictFrom name bytes now).2 := by
  obtain ⟨p, q, hp, hq, halike, hbounded⟩ := h.parts
  rw [evictFrom_of_find? hp] at hquiet ⊢
  rw [evictFrom_of_find? hq, ← halike.tally]
  have hevicted := Site.agree_evict (s := n.site p) (t := m.site q) halike
    (hasBudget h.left hp hbounded) hquiet
  have hs : Site.Steps False _ (n.site p) _ :=
    Site.steps_evict (evictionCount p.tally bytes) now (.room bytes) (Nat.lt_succ_self p.bytes)
  have ht : Site.Steps False _ (m.site q) _ :=
    Site.steps_evict (evictionCount p.tally bytes) now (.room bytes) (Nat.lt_succ_self q.bytes)
  exact ⟨hevicted.answer, h.settle hp hq hs ht hevicted.part⟩

/-- A partition with a budget of its own makes room within itself, or not at all. -/
theorem makeRoom_of_hasBudget {bytes : ByteCount} (hn : n.WellFormed)
    (hp : n.find? name = some p) (hbounded : 0 < p.metadata.maxCacheSize) :
    n.makeRoom name bytes now =
      if p.evicts = false ∨ p.bound < bytes then (false, n)
      else (decide (0 < (n.evictFrom name bytes now).1), (n.evictFrom name bytes now).2) := by
  have hpart := hn _ _ hp
  have hown : p.isBounded = true := by
    simpa [Partition.isBounded, hpart.bound] using hbounded
  simp only [makeRoom, hp, hown, if_true, victimFor, hpart.named]
  split
  · rfl
  · split
    · next hfreed => simp [hfreed]
    · next hnothing => simp [hnothing]

theorem Twins.makeRoom {bytes : ByteCount} (h : Twins name n m)
    (hquiet : (n.makeRoom name bytes now).2.world.draws.used = n.world.draws.used) :
    (n.makeRoom name bytes now).1 = (m.makeRoom name bytes now).1 ∧
      Twins name (n.makeRoom name bytes now).2 (m.makeRoom name bytes now).2 := by
  obtain ⟨p, q, hp, hq, halike, hbounded⟩ := h.parts
  have hbounded' : 0 < q.metadata.maxCacheSize := halike.metadata ▸ hbounded
  rw [makeRoom_of_hasBudget h.left hp hbounded] at hquiet ⊢
  rw [makeRoom_of_hasBudget h.right hq hbounded', ← Partition.evicts_eq halike.settings,
    ← halike.bound]
  split at hquiet
  · next hrefused =>
    rw [if_pos hrefused, if_pos hrefused]
    exact ⟨rfl, h⟩
  · next hgo =>
    rw [if_neg hgo, if_neg hgo]
    obtain ⟨hfreed, htwins⟩ := h.evictFrom hquiet
    exact ⟨by rw [hfreed], htwins⟩

/-- Attempts at both partitions go the same way. -/
theorem Twins.tryWrite (hwrite : Site.Discreet write) (tries : Nat) (needed : ByteCount)
    (h : Twins name n m)
    (hquiet : (Node.tryWrite name now write tries needed n).2.world.draws.used =
      n.world.draws.used) :
    (Node.tryWrite name now write tries needed n).1 =
        (Node.tryWrite name now write tries needed m).1 ∧
      Twins name (Node.tryWrite name now write tries needed n).2
        (Node.tryWrite name now write tries needed m).2 := by
  induction tries generalizing n m needed with
  | zero => exact ⟨rfl, h⟩
  | succ tries ih =>
    obtain ⟨p, q, hp, hq, halike, hbounded⟩ := h.parts
    have hagree := hwrite.agree (n.site p) (m.site q) halike (hasBudget h.left hp hbounded)
    obtain ⟨_, hs⟩ := steps_attempt hwrite.toWriting (n.site p)
    obtain ⟨_, ht⟩ := steps_attempt hwrite.toWriting (m.site q)
    have htwins := h.settle hp hq hs ht hagree.part
    have hdraws : (n.settle (write (n.site p)).2).world.draws = n.world.draws :=
      hwrite.draws (n.site p)
    simp only [Node.tryWrite, visit, hp, hq, Option.map_some, act, ← hagree.answer] at hquiet ⊢
    cases hresult : (write (n.site p)).1 with
    | error err => exact ⟨rfl, htwins⟩
    | ok admission =>
      cases admission with
      | done a => exact ⟨rfl, htwins⟩
      | needsRoom bytes =>
        simp only [hresult] at hquiet ⊢
        generalize n.settle (write (n.site p)).2 = n' at hquiet htwins hdraws ⊢
        generalize m.settle (write (m.site q)).2 = m' at htwins ⊢
        have hroomed := used_le_makeRoom n' name bytes now
        have hmade (hsame : (n'.makeRoom name bytes now).2.world.draws.used =
            n'.world.draws.used) :
            (n'.makeRoom name bytes now).1 = (m'.makeRoom name bytes now).1 ∧
              Twins name (n'.makeRoom name bytes now).2 (m'.makeRoom name bytes now).2 :=
          htwins.makeRoom hsame
        rw [hdraws] at hroomed hmade
        by_cases hroom : (n'.makeRoom name bytes now).1 = true
        · rw [if_pos hroom] at hquiet
          have hlater : (n'.makeRoom name bytes now).2.world.draws.used ≤
              (Node.tryWrite name now write tries bytes
                (n'.makeRoom name bytes now).2).2.world.draws.used :=
            used_le_tryWrite hwrite tries bytes _
          obtain ⟨hsame, hnext⟩ := hmade (by omega)
          rw [← hsame, if_pos hroom, if_pos hroom]
          exact ih bytes hnext (by omega)
        · rw [if_neg hroom] at hquiet
          obtain ⟨hsame, hnext⟩ := hmade hquiet
          rw [← hsame, if_neg hroom, if_neg hroom]
          exact ⟨rfl, hnext⟩

/-- An operation about the partition has the same result on twins, and keeps them twins. -/
theorem twins_perform {op : Operation} (h : Twins name n m) (hop : op.subject? = some name)
    (hquiet : (n.perform op).2.world.draws.used = n.world.draws.used) :
    (n.perform op).1 = (m.perform op).1 ∧ Twins name (n.perform op).2 (m.perform op).2 := by
  obtain ⟨p, q, hp, hq, halike, hbounded⟩ := h.parts
  have hlocal (act : Partition.Operation) (hact : op.local? = some (name, act)) :
      (n.perform op).1 = (m.perform op).1 ∧ Twins name (n.perform op).2 (m.perform op).2 := by
    rw [perform_local h.left hact hp] at hquiet ⊢
    rw [perform_local h.right hact hq]
    have hwatch := isWatch_of_local hact
    have hagree := Site.agree_perform (s := n.site p) (t := m.site q) act hwatch halike
      (hasBudget h.left hp hbounded) hquiet
    obtain ⟨_, hs⟩ := Site.steps_perform act hwatch (n.site p)
    obtain ⟨_, ht⟩ := Site.steps_perform act hwatch (m.site q)
    exact ⟨hagree.answer, h.settle hp hq hs ht hagree.part⟩
  have hwrite (now : Millis) (htarget : op.target? = some (name, now)) :
      (n.perform op).1 = (m.perform op).1 ∧ Twins name (n.perform op).2 (m.perform op).2 := by
    obtain ⟨α, shape, write, hdiscreet, hperform⟩ := perform_discreet htarget
    rw [hperform n p h.left hp] at hquiet ⊢
    rw [hperform m q h.right hq]
    obtain ⟨hsame, htwins⟩ := h.tryWrite hdiscreet attempts 0 hquiet
    exact ⟨congrArg (Except.map shape) hsame, htwins⟩
  cases op with
  | get target key now =>
    cases hop
    by_cases hkey : key = []
    · -- no key is asked for, which is refused before anything is looked at
      have hnone (k : Node) (r : Partition) (hk : k.WellFormed) (hr : k.find? name = some r) :
          k.perform (.get name key now) = (.error .missingKey, k) := by
        simp only [perform, answer, get, check_of_find? hk hr, if_pos hkey, Except.map]
      rw [hnone n p h.left hp, hnone m q h.right hq]
      exact ⟨rfl, h⟩
    · exact hlocal (.get key now true true) (by simp only [Operation.local?, if_neg hkey])
  | put mode target key value clock => cases hop; exact hwrite clock rfl
  | putMany target items mode clock => cases hop; exact hwrite clock rfl
  | increment target key delta clock => cases hop; exact hwrite clock rfl
  | decrement target key delta clock => cases hop; exact hwrite clock rfl
  | _ => cases hop <;> exact hlocal _ rfl

-- ---------------------------------------------------------------------------
-- Operations elsewhere
-- ---------------------------------------------------------------------------

theorem Rewatch.alike {known emptied : Subscriber → Prop} (h : Rewatch known emptied n m)
    (hn : n.WellFormed) (hp : n.find? name = some p) :
    ∃ q, m.find? name = some q ∧ q.Alike p := by
  have hwatched {α : Type} {target : Bytes} {r : Partition} (hr : n.find? target = some r)
      (change : α × WatchList × Hub) :
      ∃ q, (n.settle ((n.site r).watchedBy change).2).find? name = some q ∧ q.Alike p := by
    rw [find?_settle]
    split
    · next hsame =>
      have hnamed : name = target := hsame.trans (hn _ _ hr).named
      subst hnamed
      rw [hp] at hr
      obtain rfl : p = r := Option.some.inj hr
      exact ⟨_, rfl, rfl, rfl, rfl⟩
    · exact ⟨p, hp, .refl p⟩
  cases h with
  | add hr predicate hknown => exact hwatched hr _
  | discard hr selected => exact hwatched hr _
  | subscribe => exact ⟨p, hp, .refl p⟩
  | drain who hwho => exact ⟨p, hp, .refl p⟩
  | close who => exact ⟨p, hp, .refl p⟩
  | abandon who hwho => exact ⟨p, hp, .refl p⟩

theorem Rewatches.alike {known emptied : Subscriber → Prop} (h : Rewatches known emptied n m)
    (hn : n.WellFormed) (hp : n.find? name = some p) :
    ∃ q, m.find? name = some q ∧ q.Alike p := by
  induction h with
  | refl => exact ⟨p, hp, .refl p⟩
  | tail changes change ih =>
    obtain ⟨q, hq, hqp⟩ := ih
    obtain ⟨r, hr, hrq⟩ := change.alike (changes.wellFormed hn) hq
    exact ⟨r, hr, hrq.trans hqp⟩

/-- Without its partition an operation changes nothing. -/
theorem perform_local_of_none {op : Operation} {act : Partition.Operation}
    (hop : op.local? = some (other, act)) (hnone : n.find? other = none) :
    (n.perform op).2 = n := by
  have hexisting : ∃ err, n.existing other = .error err := by
    unfold existing
    split
    · exact ⟨_, rfl⟩
    · rw [hnone]
      exact ⟨_, rfl⟩
  obtain ⟨err, hexisting⟩ := hexisting
  cases op with
  | get target key now =>
    simp only [Operation.local?] at hop
    split at hop
    · cases hop
    · next hkey =>
      cases hop
      simp only [perform, answer, get, if_neg hkey, visit, hnone, Option.map_none]
      split <;> rfl
  | getMany target keys now =>
    cases hop
    simp only [perform, answer, getMany, visit, hnone, Option.map_none]
    split <;> rfl
  | _ =>
    cases hop <;>
      simp only [perform, answer, delete, deleteMany, touch, ttl, flushPartition,
        compactPartition, onExisting, hexisting]

theorem find?_local_of_ne {op : Operation} {act : Partition.Operation} (hn : n.WellFormed)
    (hop : op.local? = some (other, act)) (hne : other ≠ name) :
    (n.perform op).2.find? name = n.find? name := by
  cases hq : n.find? other with
  | none => rw [perform_local_of_none hop hq]
  | some q =>
    obtain ⟨_, hsteps⟩ := Site.steps_perform act (isWatch_of_local hop) (n.site q)
    have hnamed : ((n.site q).perform act).2.part.name = other :=
      (Partition.name_eq hsteps.settings).trans (hn _ _ hq).named
    rw [perform_local hn hop hq, find?_settle, hnamed, if_neg hne.symm]

/-- An operation that spares a partition is not about it. -/
theorem subject?_ne_of_spares {op : Operation} (h : op.spares name = true) :
    op.subject? ≠ some name := by
  cases op with
  | putPartition other metadata => exact nofun
  | deletePartition other => exact nofun
  | flushAll => cases h
  | recover => cases h
  | scan scanner now deadline cancel => cases h
  | _ => exact of_decide_eq_true h

/-- An operation that spares a partition changes its predicates at most. -/
theorem find?_spare {op : Operation} (hn : n.WellFormed) (hp : n.find? name = some p)
    (hbounded : 0 < p.metadata.maxCacheSize) (hop : op.spares name = true) :
    ∃ r, (n.perform op).2.find? name = some r ∧ r.Alike p := by
  have hsame (h : (n.perform op).2.find? name = n.find? name) :
      ∃ r, (n.perform op).2.find? name = some r ∧ r.Alike p := ⟨p, h.trans hp, .refl p⟩
  have helsewhere (target : Bytes) (hsubject : op.subject? = some target) : target ≠ name := by
    rintro rfl
    exact subject?_ne_of_spares hop hsubject
  have hlocal (target : Bytes) (act : Partition.Operation)
      (hact : op.local? = some (target, act)) (hsubject : op.subject? = some target) :=
    hsame (find?_local_of_ne hn hact (helsewhere target hsubject))
  have hwrite (target : Bytes) (now : Millis) (htarget : op.target? = some (target, now))
      (hsubject : op.subject? = some target) := by
    have hsecluded : p.isSecluded = true := by
      simpa [Partition.isSecluded, Metadata.isBounded] using .inl hbounded
    exact hsame (write_confined hn htarget
      (not_touches_of_isSecluded (helsewhere target hsubject).symm hp hsecluded)).1
  have hwatch (hsub : op.isSubscription = true) :=
    (perform_rewatches_of_any op hsub hn).alike hn hp
  cases op with
  | get target key now =>
    by_cases hkey : key = []
    · refine hsame ?_
      simp only [perform, answer, get, if_pos hkey]
      split <;> rfl
    · exact hlocal target (.get key now true true)
        (by simp only [Operation.local?, if_neg hkey]) rfl
  | getMany target keys now => exact hlocal target _ rfl rfl
  | delete target key now => exact hlocal target _ rfl rfl
  | deleteMany target keys now => exact hlocal target _ rfl rfl
  | touch target key now => exact hlocal target _ rfl rfl
  | ttl target key now => exact hlocal target _ rfl rfl
  | flushPartition target => exact hlocal target _ rfl rfl
  | scanKeys target pattern count offset now => exact hlocal target _ rfl rfl
  | compact target now cancel => exact hlocal target _ rfl rfl
  | put mode target key value now => exact hwrite target now rfl rfl
  | putMany target items mode now => exact hwrite target now rfl rfl
  | increment target key delta now => exact hwrite target now rfl rfl
  | decrement target key delta now => exact hwrite target now rfl rfl
  | putPartition target metadata =>
    exact hsame (find?_putPartition_of_ne metadata hn (of_decide_eq_true hop))
  | deletePartition target =>
    exact hsame (find?_deletePartition_of_ne hn (of_decide_eq_true hop))
  | scanPartitions pattern count => exact hsame rfl
  | collectRequests => exact hsame rfl
  | flushAll => cases hop
  | recover => cases hop
  | scan scanner now deadline cancel => cases hop
  | _ => exact hwatch rfl

theorem twins_spare {op : Operation} (h : Twins name n m) (hop : op.spares name = true) :
    Twins name (n.perform op).2 m := by
  obtain ⟨p, q, hp, hq, halike, hbounded⟩ := h.parts
  obtain ⟨r, hr, hrp⟩ := find?_spare h.left hp hbounded hop
  refine ⟨perform_wellFormed op h.left, h.right, r, q, hr, hq, hrp.trans halike, ?_⟩
  rw [hrp.metadata]
  exact hbounded

-- ---------------------------------------------------------------------------
-- Runs
-- ---------------------------------------------------------------------------

theorem answersAbout_cons (name : Bytes) (op : Operation) (rest : List Operation) (n : Node) :
    answersAbout name (op :: rest) n =
      if op.subject? = some name then
        (op, (n.perform op).1) :: answersAbout name rest (n.perform op).2
      else answersAbout name rest (n.perform op).2 := by
  simp only [answersAbout, performAll, List.zip_cons_cons, List.filter_cons, decide_eq_true_eq]

/-- A run and the run of those of its operations that are about a partition, from twins: these have
the same results in both, and the nodes at the end are twins. -/
theorem twins_purge (ops : List Operation) (h : Twins name n m)
    (hops : ∀ op ∈ ops, op.subject? = some name ∨ op.spares name = true)
    (hquiet : Along (Exhaustive name) ops n) :
    answersAbout name ops n = answersAbout name (ops.filter (·.subject? = some name)) m ∧
      Twins name (performAll ops n).2
        (performAll (ops.filter (·.subject? = some name)) m).2 := by
  induction ops generalizing n m with
  | nil => exact ⟨rfl, h⟩
  | cons op rest ih =>
    obtain ⟨hfirst, hlater⟩ := hquiet
    have hrest : ∀ op ∈ rest, op.subject? = some name ∨ op.spares name = true :=
      fun op hop => hops op (List.mem_cons_of_mem _ hop)
    by_cases hop : op.subject? = some name
    · obtain ⟨hsame, htwins⟩ := twins_perform h hop (hfirst hop)
      obtain ⟨hanswers, hend⟩ := ih htwins hrest hlater
      rw [List.filter_cons_of_pos (by simpa using hop), answersAbout_cons, answersAbout_cons,
        if_pos hop, if_pos hop, hsame, hanswers]
      exact ⟨rfl, hend⟩
    · have hspares := (hops op List.mem_cons_self).resolve_left hop
      obtain ⟨hanswers, hend⟩ := ih (twins_spare h hspares) hrest hlater
      rw [List.filter_cons_of_neg (by simpa using hop), answersAbout_cons, if_neg hop]
      exact ⟨hanswers, hend⟩

/-- Two nodes with the same limits that have an identical partition with a budget of its own, and
two runs that perform the same operations on it and spare it otherwise: those operations have the
same results in both, and the partition has the same entries and the same counters at the end. -/
theorem bounded_noninterference {left right : List Operation} (hn : n.Reachable)
    (hm : m.Reachable) (hlimits : n.config.limits = m.config.limits)
    (hp : n.find? name = some p) (hq : m.find? name = some q)
    (hmetadata : p.metadata = q.metadata) (hentries : p.entries = q.entries)
    (htally : p.tally = q.tally) (hbounded : p.metadata.isBounded = true)
    (hsame : left.filter (·.subject? = some name) = right.filter (·.subject? = some name))
    (hleft : ∀ op ∈ left, op.subject? = some name ∨ op.spares name = true)
    (hright : ∀ op ∈ right, op.subject? = some name ∨ op.spares name = true)
    (hfullLeft : Along (Exhaustive name) left n) (hfullRight : Along (Exhaustive name) right m) :
    answersAbout name left n = answersAbout name right m ∧
      ∃ r t, (performAll left n).2.find? name = some r ∧
        (performAll right m).2.find? name = some t ∧
        r.entries = t.entries ∧ r.tally = t.tally := by
  have hpart := hn.wellFormed _ _ hp
  have hpart' := hm.wellFormed _ _ hq
  have hpos : 0 < p.metadata.maxCacheSize := by simpa [Metadata.isBounded] using hbounded
  -- what is not compared follows from the metadata and the limits
  have hsettings : p.settings = q.settings := by
    simp only [Partition.settings, Partition.Settings.mk.injEq]
    refine ⟨hpart.named.trans hpart'.named.symm, hmetadata, ?_, ?_, ?_,
      hpart.inUse.trans hpart'.inUse.symm⟩
    · rw [hpart.limited, hpart'.limited, hlimits]
    · rw [hpart.bound, hpart'.bound, hmetadata]
    · rw [hpart.evicts, hpart'.evicts, hmetadata]
  have htwins : Twins name n m :=
    ⟨hn.wellFormed, hm.wellFormed, p, q, hp, hq, ⟨hsettings, hentries, htally⟩, hpos⟩
  obtain ⟨hanswers, hend⟩ := twins_purge left htwins hleft hfullLeft
  obtain ⟨hanswers', hend'⟩ :=
    twins_purge right (.refl hm.wellFormed hq (hmetadata ▸ hpos)) hright hfullRight
  rw [← hsame] at hanswers' hend'
  refine ⟨hanswers.trans hanswers'.symm, ?_⟩
  -- both runs end as the run of the operations on the partition alone
  obtain ⟨r, alone, hr, halone, hralone, -⟩ := hend.parts
  obtain ⟨t, alone', ht, halone', htalone, -⟩ := hend'.parts
  rw [halone] at halone'
  obtain rfl : alone = alone' := Option.some.inj halone'
  exact ⟨r, t, hr, ht, hralone.entries.trans htalone.entries.symm,
    hralone.tally.trans htalone.tally.symm⟩

/-- A partition with a bound of six bytes that holds one entry of three. -/
def sheltered : Node :=
  (performAll
    [ .putPartition [113] { createDate := (bare {}).today, maxCacheSize := 6 },
      .put .upsert [113] [97] [1, 2] 1 ] (bare { maxCacheSize := 40 })).2

/-- The same partition beside one that fills what is left of a smaller budget. -/
def beset : Node :=
  (performAll
    [ .put .upsert [112] [97] [1, 2, 3, 4, 5, 6, 7, 8] 1,
      .putPartition [113] { createDate := (bare {}).today, maxCacheSize := 6 },
      .put .upsert [112] [98] [1, 2, 3, 4, 5] 2,
      .put .upsert [113] [97] [1, 2] 1 ] (bare { maxCacheSize := 22 })).2

/-- Three entries for the partition, which has room for two, and a compaction. -/
def inPeace : List Operation :=
  [ .put .upsert [113] [98] [3, 4] 2, .get [113] [97] 3, .put .upsert [113] [99] [5, 6] 4,
    .getMany [113] [[97], [98], [99]] 5, .compact [113] 6 .never ]

/-- The same, while its neighbour evicts and is emptied, and a third partition comes and goes. -/
def inTurmoil : List Operation :=
  [ .put .upsert [112] [99] [1, 2, 3, 4, 5, 6] 2, .put .upsert [113] [98] [3, 4] 2,
    .putPartition [114] { createDate := (bare {}).today, maxCacheSize := 1 },
    .get [113] [97] 3, .openWatcher, .put .upsert [113] [99] [5, 6] 4,
    .deletePartition [114], .getMany [113] [[97], [98], [99]] 5, .flushPartition [112],
    .compact [113] 6 .never ]

/-- The partition evicts twice in each run: for the third entry, and in the compaction. -/
theorem bounded_noninterference_inTurmoil :
    (answersAbout [113] inPeace sheltered).map Prod.snd =
        [ .ok .done, .ok (.payload (some [1, 2])), .ok .done,
          .ok (.pairs [([97], [1, 2]), ([99], [5, 6])]), .ok (.compacted ⟨2, 1, 1, false⟩) ] ∧
      answersAbout [113] inPeace sheltered = answersAbout [113] inTurmoil beset ∧
      ∃ r t, (performAll inPeace sheltered).2.find? [113] = some r ∧
        (performAll inTurmoil beset).2.find? [113] = some t ∧
        r.entries = t.entries ∧ r.tally = t.tally := by
  have hsheltered : sheltered.Reachable := (reachable_bare _).performAll _ (by decide)
  have hbeset : beset.Reachable := (reachable_bare _).performAll _ (by decide)
  have hleft : Along (Exhaustive [113]) inPeace sheltered :=
    ⟨fun _ => by cbv, fun _ => by cbv, fun _ => by cbv, fun _ => by cbv, fun _ => by cbv, trivial⟩
  have hright : Along (Exhaustive [113]) inTurmoil beset :=
    ⟨fun h => (by cases h), fun _ => by cbv, fun h => (by cases h), fun _ => by cbv,
      fun h => (by cases h), fun _ => by cbv, fun h => (by cases h), fun _ => by cbv,
      fun h => (by cases h), fun _ => by cbv, trivial⟩
  refine ⟨by cbv, ?_⟩
  exact bounded_noninterference hsheltered hbeset rfl rfl rfl rfl rfl rfl rfl rfl
    (by decide) (by decide) hleft hright

end Node

end CacheNode

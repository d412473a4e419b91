import CacheNode.Proofs.Noninterference

/-!
# CacheNode — operations that are not about configurations

Most of what can be asked of a node is about entries or about subscriptions. Whatever such an
operation does and however it ends, every partition keeps its metadata, and the directory stays as
it is. The only metadata that can be new are the default ones, of a partition that is created for a
write.

* `Node.configured` — the metadata of a partition;
* `Node.Steady` — what these operations keep;
* `Node.perform_steady` — each of them keeps it.
-/

namespace CacheNode.Node

/-- The metadata of the partition with a name. -/
def configured (n : Node) (name : Bytes) : Option Metadata :=
  (n.find? name).map Partition.metadata

/-- The directory is the same, and so are the metadata of all partitions, but for new partitions
with default ones. -/
structure Steady (n m : Node) : Prop where
  directory : m.world.directory = n.world.directory
  metadata : ∀ name, m.configured name = n.configured name ∨
    n.configured name = none ∧ ∃ createDate, m.configured name = some { createDate }

/-- Whether an operation is about configurations. -/
def Operation.configures : Operation → Bool
  | .putPartition .. | .deletePartition _ | .recover => true
  | _ => false

variable {n m k : Node} {name other : Bytes} {p : Partition} {s : Site}

theorem configured_of_find? (hp : n.find? name = some p) :
    n.configured name = some p.metadata := by
  rw [configured, hp]
  rfl

namespace Steady

theorem refl (n : Node) : n.Steady n := ⟨rfl, fun _ => .inl rfl⟩

theorem trans (h : n.Steady m) (hnext : m.Steady k) : n.Steady k where
  directory := hnext.directory.trans h.directory
  metadata := by
    intro name
    rcases h.metadata name with hsame | ⟨hnone, createDate, hnew⟩
    · rw [← hsame]
      exact hnext.metadata name
    · -- a partition that is new keeps the metadata it got
      rcases hnext.metadata name with hkept | ⟨hgone, -⟩
      · exact .inr ⟨hnone, createDate, hkept.trans hnew⟩
      · rw [hnew] at hgone
        cases hgone

/-- A partition that there was has the same metadata afterwards. -/
theorem configured (h : n.Steady m) {metadata : Metadata}
    (hconfigured : n.configured name = some metadata) : m.configured name = some metadata := by
  rcases h.metadata name with hsame | ⟨hnone, -⟩
  · exact hsame.trans hconfigured
  · rw [hconfigured] at hnone
    cases hnone

/-- Work on a partition that leaves its metadata alone. -/
theorem settle (hp : n.find? name = some p) (hname : s.part.name = name)
    (hmetadata : s.part.metadata = p.metadata) : n.Steady (n.settle s) where
  directory := rfl
  metadata := by
    intro other
    refine .inl ?_
    rw [Node.configured, find?_settle, hname]
    split
    · next hsame =>
      rw [hsame, configured_of_find? hp, ← hmetadata]
      rfl
    · rfl

/-- Steps of a partition. -/
theorem steps {clears : Prop} {limit : Nat} (hn : n.WellFormed) (hp : n.find? name = some p)
    (hs : (n.site p).Steps clears limit s) :
    (n.settle s).WellFormed ∧ n.Steady (n.settle s) := by
  have hpart := hn _ _ hp
  have hsettings := hs.settings
  exact ⟨hn.settle (hpart.of_settings hsettings (hs.keyed hpart.keyed)),
    settle hp ((Partition.name_eq hsettings).trans hpart.named) (Partition.metadata_eq hsettings)⟩

end Steady

theorem steady_visit {α : Type} {f : Site → α × Site} (acted : α × Node)
    (hn : n.WellFormed) (hf : Site.Waning True f) (h : n.visit name f = some acted) :
    acted.2.WellFormed ∧ n.Steady acted.2 := by
  obtain ⟨p, hp, rfl⟩ := Option.map_eq_some_iff.1 h
  exact Steady.steps hn hp (hf _ (n.site p) (Nat.lt_succ_self p.bytes))

theorem steady_evictFrom (name : Bytes) (bytes : ByteCount) (now : Millis)
    (hn : n.WellFormed) :
    (n.evictFrom name bytes now).2.WellFormed ∧ n.Steady (n.evictFrom name bytes now).2 := by
  unfold evictFrom
  split
  · exact ⟨hn, .refl n⟩
  · next acted hacted =>
    exact steady_visit acted hn (fun _ _ hs => Site.steps_evict _ now _ hs) hacted

theorem steady_makeRoom (name : Bytes) (bytes : ByteCount) (now : Millis) (hn : n.WellFormed) :
    (n.makeRoom name bytes now).2.WellFormed ∧ n.Steady (n.makeRoom name bytes now).2 := by
  apply makeRoom_induction (P := fun m => m.WellFormed ∧ n.Steady m) ⟨hn, .refl n⟩
  · -- the choice of a victim only takes draws
    intro p
    simp only [victimFor]
    split
    · exact ⟨hn, .refl n⟩
    · exact ⟨hn, rfl, fun _ => .inl rfl⟩
  · rintro m victim ⟨hm, hsteady⟩
    obtain ⟨hwf, hevicted⟩ := steady_evictFrom victim bytes now hm
    exact ⟨hwf, hsteady.trans hevicted⟩

/-- A partition that is created for a write has default metadata. -/
theorem steady_entered (n : Node) (name : Bytes) : n.Steady (n.entered name) := by
  cases hp : n.find? name with
  | some p =>
    rw [entered_of_find? hp]
    exact .refl n
  | none =>
    refine ⟨by simp only [entered, hp], fun other => ?_⟩
    by_cases hsame : other = name
    · subst hsame
      refine .inr ⟨by rw [configured, hp]; rfl, n.today, ?_⟩
      rw [configured_of_find? (find?_entered n other), target, hp]
      rfl
    · refine .inl ?_
      rw [configured, find?_entered_of_ne n hsame]
      rfl

theorem steady_write {now : Millis} {op : Operation} (hn : n.WellFormed)
    (hop : op.target? = some (name, now)) : n.Steady (n.perform op).2 := by
  rcases perform_write hop n with ⟨err, -, heq⟩ | ⟨hname, α, shape, write, hwrite, -, heq⟩
  · rw [heq]
    exact .refl n
  · rw [heq]
    have hattempts : ((n.entered name).accept name now write).2.WellFormed ∧
        n.Steady ((n.entered name).accept name now write).2 := by
      apply tryWrite_induction (P := fun m => m.WellFormed ∧ n.Steady m) attempts 0
        ⟨entered_wellFormed hn hname, steady_entered n name⟩
      · rintro m p ⟨hm, hsteady⟩ hp
        obtain ⟨_, hsteps⟩ := steps_attempt hwrite.toWriting (m.site p)
        obtain ⟨hwf, hattempt⟩ := Steady.steps hm hp hsteps
        exact ⟨hwf, hsteady.trans hattempt⟩
      · rintro m bytes ⟨hm, hsteady⟩
        obtain ⟨hwf, hroom⟩ := steady_makeRoom name bytes now hm
        exact ⟨hwf, hsteady.trans hroom⟩
    exact hattempts.2

theorem steady_local {op : Operation} {act : Partition.Operation} (hn : n.WellFormed)
    (hop : op.local? = some (name, act)) : n.Steady (n.perform op).2 := by
  cases hp : n.find? name with
  | none =>
    rw [perform_local_of_none hop hp]
    exact .refl n
  | some p =>
    obtain ⟨_, hsteps⟩ := Site.steps_perform act (isWatch_of_local hop) (n.site p)
    rw [perform_local hn hop hp]
    exact (Steady.steps hn hp hsteps).2

theorem Rewatches.steady {known emptied : Subscriber → Prop}
    (h : Rewatches known emptied n m) (hn : n.WellFormed) : n.Steady m := by
  induction h with
  | refl => exact .refl n
  | tail changes change ih =>
    have hwf := changes.wellFormed hn
    refine ih.trans ?_
    cases change with
    | add hp predicate hknown => exact .settle hp (hwf _ _ hp).named rfl
    | discard hp selected => exact .settle hp (hwf _ _ hp).named rfl
    | _ => exact ⟨rfl, fun _ => .inl rfl⟩

theorem steady_flushAll (hn : n.WellFormed) : n.Steady n.flushAll.2 := by
  have hflushed : n.flushAll.2.WellFormed ∧ n.Steady n.flushAll.2 := by
    apply forEach_induction (P := fun m => m.WellFormed ∧ n.Steady m) _ ⟨hn, .refl n⟩
    rintro m name acted ⟨hm, hsteady⟩ hacted
    obtain ⟨hwf, hvisit⟩ := steady_visit acted hm
      (fun _ _ hs => Site.steps_flush trivial hs) hacted
    exact ⟨hwf, hsteady.trans hvisit⟩
  exact hflushed.2

/-- What the rounds in every partition keep is kept by a run of the scanner. -/
theorem visitEach_induction {P : Node → Prop} {samples : Nat} {now : Millis}
    (places : List (Bytes × Nat)) (deadline cancel : Fuse) (progress : Scanner.Progress)
    (h : P progress.node)
    (hrounds : ∀ m name p late, P m → m.find? name = some p →
      P (m.settle (Scanner.scanRounds samples now late (m.site p)).site)) :
    P (Scanner.visitEach samples now places deadline cancel progress).node := by
  induction places generalizing deadline cancel progress with
  | nil => exact h
  | cons place rest ih =>
    obtain ⟨name, place⟩ := place
    simp only [Scanner.visitEach]
    split
    · exact h
    · split
      · exact h
      · split
        · exact ih _ _ _ h
        · next p hp =>
          split
          · exact ih _ _ _ h
          · exact ih _ _ _ (hrounds _ name p _ h hp)

theorem steady_scan (scanner : Scanner) (now : Millis) (deadline cancel : Fuse)
    (hn : n.WellFormed) : n.Steady (scanner.run n now deadline cancel).2.2 := by
  simp only [Scanner.run]
  split
  · exact .refl n
  · have hvisited := visitEach_induction (P := fun m => m.WellFormed ∧ n.Steady m)
      (Scanner.circular n.partitions.keys (scanner.cursor % n.partitions.keys.length))
      deadline cancel ⟨{}, scanner.cursor, n⟩ ⟨hn, .refl n⟩ fun m name p late hm hp => by
        have hsteps : Site.Steps False _ (m.site p) _ :=
          Scanner.steps_scanRounds scanner.samples now late (Nat.lt_succ_self p.bytes)
        obtain ⟨hwf, hrounds⟩ := Steady.steps hm.1 hp hsteps
        exact ⟨hwf, hm.2.trans hrounds⟩
    exact hvisited.2

/-- An operation that is not about configurations leaves them alone. -/
theorem perform_steady (op : Operation) (hop : op.configures = false) (hn : n.WellFormed) :
    n.Steady (n.perform op).2 := by
  have hwatch (hsub : op.isSubscription = true) : n.Steady (n.perform op).2 :=
    (perform_rewatches_of_any op hsub hn).steady hn
  cases op with
  | putPartition name metadata => cases hop
  | deletePartition name => cases hop
  | recover => cases hop
  | get name key now =>
    by_cases hkey : key = []
    · -- no key is asked for, which is refused before anything is looked at
      simp only [perform, answer, get, if_pos hkey]
      split <;> exact .refl n
    · have hop : (Operation.get name key now).local? =
          some (name, .get key now true true) := by simp only [Operation.local?, if_neg hkey]
      exact steady_local hn hop
  | put mode name key value now => exact steady_write hn rfl
  | putMany name items mode now => exact steady_write hn rfl
  | increment name key delta now => exact steady_write hn rfl
  | decrement name key delta now => exact steady_write hn rfl
  | flushAll => exact steady_flushAll hn
  | scan scanner now deadline cancel => exact steady_scan scanner now deadline cancel hn
  | scanPartitions pattern count => exact .refl n
  | collectRequests => exact ⟨rfl, fun _ => .inl rfl⟩
  | openWatcher => exact hwatch rfl
  | closeWatcher ownerId => exact hwatch rfl
  | watch owner watchId name key filter => exact hwatch rfl
  | unwatch ownerId watchId name => exact hwatch rfl
  | drain who => exact hwatch rfl
  | stopListening who => exact hwatch rfl
  | leave who => exact hwatch rfl
  | _ => exact steady_local hn rfl

end CacheNode.Node

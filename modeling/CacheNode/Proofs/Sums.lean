import CacheNode.Proofs.Batches
import CacheNode.Proofs.Living
import CacheNode.Proofs.Reservations

/-!
# CacheNode — running totals

A key that is counted with holds the sum of what was added to it, and no more of the sum than its
lowest sixty-four bits. Reduction to these bits commutes with every sum, so it does not matter that
each call reduces anew, nor that a subtraction is an addition of the negated summand, which is
reduced as well: sums on the way may be as large as they like.

Counting calls on other keys can take a key away, when they need room, but they cannot change it.

* `Entry.ofInteger_ofInt`, `Entry.eq_ofInteger` — payloads of eight bytes and their numbers;
* `Node.Spells` — a key holds a total;
* `Node.perform_spells`, `Node.held?_of_write` — what calls about a key and about others do to it;
* `Node.counting_adds_up` — a sequence of calls returns running totals.
-/

namespace CacheNode

namespace Entry

variable {e : Entry} {total : Int} {delta : Int64} {payload : Bytes}

/-- An integer is spelled by the eight lowest digits of any number that reduces to it. -/
theorem ofInteger_ofInt (total : Int) :
    ofInteger (Int64.ofInt total) = Bytes.digits 8 (total % UInt64.size).toNat := by
  have hword : (Int64.ofInt total).toUInt64.toNat = (total % UInt64.size).toNat := by
    show (Int64.ofInt total).toBitVec.toNat = _
    rw [Int64.toBitVec_ofInt, BitVec.toNat_ofInt]
  rw [ofInteger, Bytes.ofWord, hword]

/-- Eight bytes spell the number that is their value in two's complement. -/
theorem eq_ofInteger (h : payload.length = 8) :
    payload = ofInteger (Int64.ofInt ((payload.value : Int).bmod UInt64.size)) := by
  have hvalue := Bytes.value_lt h
  have hmod : ((payload.value : Int).bmod UInt64.size % UInt64.size).toNat = payload.value := by
    rw [Int.bmod_emod, ← Int.natCast_emod, Nat.mod_eq_of_lt hvalue, Int.toNat_natCast]
  have hdigits := Bytes.digits_value payload
  rw [h] at hdigits
  rw [ofInteger_ofInt, hmod, hdigits]

theorem increment_of_spells (h : e.payload = ofInteger (Int64.ofInt total)) (delta : Int) :
    e.increment (Int64.ofInt delta) = .ok (Int64.ofInt (total + delta),
      { e with payload := ofInteger (Int64.ofInt (total + delta)) }) := by
  rw [increment, h, integer_ofInteger, Int64.ofInt_add]

theorem increment_of_length_ne (h : e.payload.length ≠ 8) (delta : Int64) :
    e.increment delta = .error (.invalidTypeOperation e.payload.length) := by
  rw [increment, integer, Bytes.word?_eq_none_iff.2 h]

end Entry

namespace Site

variable {s : Site} {key : Bytes} {e : Entry} {now : Millis} {total : Int}

/-- A live entry that spells a total is added to in place. -/
theorem increment_of_live (hkey : s.part.checkKey key = .ok ())
    (huse : s.part.checkInUse = .ok ()) (he : s.part.entries.get? key = some e)
    (hlive : e.isExpired (s.part.expiry now) = false)
    (hspells : e.payload = Entry.ofInteger (Int64.ofInt total)) (delta : Int) :
    ∃ u fresh, s.increment key (Int64.ofInt delta) now =
        (.ok (.done (Int64.ofInt (total + delta))), u) ∧
      u.part.entries.get? key = some fresh ∧
      fresh.payload = Entry.ofInteger (Int64.ofInt (total + delta)) ∧
      fresh.isExpired (s.part.expiry now) = false := by
  have hadd := Entry.increment_of_spells hspells delta
  have hkept := lastAccess_of_increment hadd
  simp only [increment, hkey, huse, he, hlive, hadd, Bool.false_eq_true, if_false]
  refine ⟨_, _, rfl, Table.get?_insert_self _ _ _, ?_, ?_⟩
  · split <;> rfl
  · split
    · -- the entry goes by the access time that it had
      rw [Entry.isExpired, hkept]
      exact hlive
    · exact Entry.isExpired_touch _ now _

/-- A live entry of another length is refused and left as it is. -/
theorem increment_of_length_ne (hkey : s.part.checkKey key = .ok ())
    (huse : s.part.checkInUse = .ok ()) (he : s.part.entries.get? key = some e)
    (hlive : e.isExpired (s.part.expiry now) = false) (hlength : e.payload.length ≠ 8)
    (delta : Int64) :
    s.increment key delta now = (.error (.invalidTypeOperation e.payload.length), s) := by
  have hfails := Entry.increment_of_length_ne hlength delta
  simp only [increment, hkey, huse, he, hlive, hfails, Bool.false_eq_true, if_false]

/-- Without an entry the summand is stored, if there is room for it. -/
theorem increment_of_none (hkey : s.part.checkKey key = .ok ())
    (huse : s.part.checkInUse = .ok ()) (hnone : s.part.entries.get? key = none)
    (delta : Int64) (now : Millis) :
    (∀ err, (s.increment key delta now).1 ≠ .error err) ∧
      ∀ value, (s.increment key delta now).1 = .ok (.done value) → value = delta ∧
        (s.increment key delta now).2.part.entries.get? key =
          some ⟨Entry.ofInteger delta, now⟩ := by
  have hcreate : s.increment key delta now = s.createInteger key delta now := by
    simp only [increment, hkey, huse, hnone]
  rw [hcreate]
  refine ⟨fun err => createInteger_honest s key delta err, fun value hdone => ?_⟩
  simp only [createInteger] at hdone ⊢
  split at hdone
  · cases hdone
  · next grown hgrown =>
    obtain rfl : delta = value := Admission.done.inj (Except.ok.inj hdone)
    exact ⟨rfl, Table.get?_insert_self _ _ _⟩

end Site

namespace Node

/-- The entry under a key of a partition. -/
def held? (n : Node) (name key : Bytes) : Option Entry :=
  (n.find? name).bind fun p => p.entries.get? key

/-- Whether a key of a partition is live at an instant. -/
def isLive (n : Node) (name key : Bytes) (now : Millis) : Bool :=
  (n.find? name).any fun p => p.isLive key (p.expiry now)

/-- A counting call adds to the integer under some key, or subtracts from it. -/
def Operation.isCounting : Operation → Bool
  | .increment .. | .decrement .. => true
  | _ => false

/-- What a call adds to a key of a partition, if it is about this key. -/
def Operation.summand? (name key : Bytes) : Operation → Option Int
  | .increment target k delta _ => if target = name ∧ k = key then some delta.toInt else none
  | .decrement target k delta _ => if target = name ∧ k = key then some (-delta.toInt) else none
  | _ => none

/-- The sum of what a sequence of calls adds to a key. -/
def sum (name key : Bytes) (ops : List Operation) : Int :=
  (ops.filterMap (Operation.summand? name key)).sum

/-- A key holds a total, reduced to eight bytes. Without an entry the total is zero. -/
def Spells (n : Node) (name key : Bytes) (total : Int) : Prop :=
  match n.held? name key with
  | none => total = 0
  | some e => e.payload = Entry.ofInteger (Int64.ofInt total)

variable {n m : Node} {name key other : Bytes} {p : Partition} {e : Entry} {now later : Millis}
  {op : Operation} {summand total : Int}

-- ---------------------------------------------------------------------------
-- Calls about a key
-- ---------------------------------------------------------------------------

theorem held?_of_find? (hp : n.find? name = some p) :
    n.held? name key = p.entries.get? key := by
  rw [held?, hp, Option.bind_some]

theorem held?_eq_some_iff : n.held? name key = some e ↔
    ∃ p, n.find? name = some p ∧ p.entries.get? key = some e :=
  Option.bind_eq_some_iff

theorem isLive_iff : n.isLive name key now = true ↔
    ∃ p e, n.find? name = some p ∧ p.entries.get? key = some e ∧
      e.isExpired (p.expiry now) = false := by
  simp only [isLive, Option.any_eq_true, Partition.isLive_iff, exists_and_left]

/-- A subtraction is an addition as well. -/
theorem perform_of_summand? (hop : op.summand? name key = some summand) :
    ∃ now, op.target? = some (name, now) ∧ op.keys = [key] ∧ ∀ n : Node,
      n.perform op = answer .integer (n.increment name key (Int64.ofInt summand) now) := by
  cases op with
  | increment target k delta clock =>
    simp only [Operation.summand?, Option.ite_none_right_eq_some, Option.some.injEq] at hop
    obtain ⟨⟨rfl, rfl⟩, rfl⟩ := hop
    refine ⟨clock, rfl, rfl, fun n => ?_⟩
    rw [Int64.ofInt_toInt]
    rfl
  | decrement target k delta clock =>
    simp only [Operation.summand?, Option.ite_none_right_eq_some, Option.some.injEq] at hop
    obtain ⟨⟨rfl, rfl⟩, rfl⟩ := hop
    refine ⟨clock, rfl, rfl, fun n => ?_⟩
    rw [Int64.ofInt_neg, Int64.ofInt_toInt]
    rfl
  | _ => cases hop

theorem increment_of_valid (hname : PartitionName.Valid name) (n : Node) (key : Bytes)
    (delta : Int64) (now : Millis) :
    n.increment name key delta now =
      (n.entered name).accept name now fun s => s.increment key delta now := by
  rcases ensure_eq n name with ⟨-, hensure⟩ | ⟨err, herr, -⟩
  · rw [increment, hensure]
  · rw [show PartitionName.check name = .ok () from hname] at herr
    cases herr

/-- The first attempt is the last one unless it waits for room. -/
theorem accept_of_done {α : Type} {write : Site → Except CacheError (Admission α) × Site}
    {a : α} {u : Site} (now : Millis) (hp : n.find? name = some p)
    (hdone : write (n.site p) = (.ok (.done a), u)) :
    n.accept name now write = (.ok a, n.settle u) := by
  simp only [accept, attempts, tryWrite, visit, hp, Option.map_some, act, hdone]

theorem accept_of_error {α : Type} {write : Site → Except CacheError (Admission α) × Site}
    {err : CacheError} {u : Site} (now : Millis) (hp : n.find? name = some p)
    (herr : write (n.site p) = (.error err, u)) :
    n.accept name now write = (.error err, n.settle u) := by
  simp only [accept, attempts, tryWrite, visit, hp, Option.map_some, act, herr]

/-- A call that comes to a live entry which spells a total goes on with this total at once. -/
theorem increment_of_live (hn : n.WellFormed) (hkey : n.config.AcceptsKey key)
    (hp : n.find? name = some p) (he : p.entries.get? key = some e)
    (hlive : e.isExpired (p.expiry now) = false)
    (hspells : e.payload = Entry.ofInteger (Int64.ofInt total)) (summand : Int) :
    (n.increment name key (Int64.ofInt summand) now).1 = .ok (Int64.ofInt (total + summand)) ∧
      ∃ q f, (n.increment name key (Int64.ofInt summand) now).2.find? name = some q ∧
        q.entries.get? key = some f ∧
        f.payload = Entry.ofInteger (Int64.ofInt (total + summand)) ∧
        f.isExpired (q.expiry now) = false := by
  have hwf := hn _ _ hp
  obtain ⟨u, fresh, hdone, hfresh, hpayload, hstill⟩ := Site.increment_of_live (s := n.site p)
    (Partition.checkKey_of_accepts hwf.limited hkey) (Partition.checkInUse_of_inUse hwf.inUse)
    he hlive hspells summand
  have hwrite := (Site.attempt_increment key (Int64.ofInt summand) now).toWriting
  have hfind := find?_attempt hwrite hn hp
  have hsettings := hwrite.settings (n.site p)
  rw [hdone] at hfind hsettings
  rw [increment_of_valid hwf.valid, entered_of_find? hp, accept_of_done now hp hdone]
  refine ⟨rfl, u.part, fresh, hfind, hfresh, hpayload, ?_⟩
  rw [Site.expiry_eq hsettings]
  exact hstill

/-- A call that comes to a key without an entry creates one, whatever has to be evicted for it, if
there is room for it in the end. -/
theorem increment_of_none (hn : n.WellFormed) (hname : PartitionName.Valid name)
    (hkey : n.config.AcceptsKey key) (hnone : n.held? name key = none) {delta : Int64}
    (hroom : Roomy (n.increment name key delta now).1) :
    (n.increment name key delta now).1 = .ok delta ∧
      ∃ q f, (n.increment name key delta now).2.find? name = some q ∧
        q.entries.get? key = some f ∧ f.payload = Entry.ofInteger delta ∧
        f.isExpired (q.expiry now) = false := by
  rw [increment_of_valid hname] at hroom ⊢
  have hwrite := Site.attempt_increment key delta now
  obtain ⟨m, ⟨hm, hthin⟩, hends⟩ := accept_ends hwrite (entered_wellFormed hn hname) name
  obtain ⟨q, hq, hsettings, hentries⟩ := hthin name (n.target name) (find?_entered n name)
  have hlimits : q.limits = n.config.limits := by
    rw [Partition.limits_eq hsettings, ← config_entered n name]
    exact (entered_wellFormed hn hname _ _ (find?_entered n name)).limited
  have habsent : q.entries.get? key = none := by
    -- what is there when the last attempt is made was there before the first
    rw [Option.eq_none_iff_forall_ne_some]
    intro e he
    have hold := hentries key e he
    rw [held?_of_find? (find?_of_entered (find?_entered n name) hold), hold] at hnone
    cases hnone
  obtain ⟨hpasses, hstores⟩ := Site.increment_of_none (s := m.site q)
    (Partition.checkKey_of_accepts hlimits hkey)
    (Partition.checkInUse_of_inUse (hm _ _ hq).inUse) habsent delta now
  generalize (n.entered name).accept name now _ = result at hroom hends ⊢
  cases hends with
  | refused bytes => exact absurd rfl (hroom _)
  | missing hmissing =>
    rw [hq] at hmissing
    cases hmissing
  | @failed p err hp herr =>
    rw [hq] at hp
    obtain rfl := Option.some.inj hp
    exact absurd herr (hpasses err)
  | @done p value hp hdone =>
    rw [hq] at hp
    obtain rfl := Option.some.inj hp
    obtain ⟨rfl, hstored⟩ := hstores value hdone
    refine ⟨rfl, _, _, find?_attempt hwrite.toWriting hm hq, hstored, rfl, ?_⟩
    exact Entry.isExpired_of_le (UInt64.le_refl now)

/-- A call goes on with the total that a key holds. Right after it the key is live and holds the new
total. -/
theorem perform_spells (hn : n.WellFormed) (hname : PartitionName.Valid name)
    (hkey : n.config.AcceptsKey key) (hspells : n.Spells name key total)
    (hop : op.summand? name key = some summand) (hat : op.target? = some (name, now))
    (hlive : (n.held? name key).isSome → n.isLive name key now = true)
    (hroom : Roomy (n.perform op).1) :
    (n.perform op).1 = .ok (.integer (Int64.ofInt (total + summand))) ∧
      ∃ q f, (n.perform op).2.find? name = some q ∧ q.entries.get? key = some f ∧
        f.payload = Entry.ofInteger (Int64.ofInt (total + summand)) ∧
        f.isExpired (q.expiry now) = false := by
  obtain ⟨clock, htarget, -, hperform⟩ := perform_of_summand? hop
  obtain rfl : now = clock := by
    rw [hat] at htarget
    exact (Prod.mk.inj (Option.some.inj htarget)).2
  rw [hperform] at hroom ⊢
  have hstep : (n.increment name key (Int64.ofInt summand) now).1 =
        .ok (Int64.ofInt (total + summand)) ∧
      ∃ q f, (n.increment name key (Int64.ofInt summand) now).2.find? name = some q ∧
        q.entries.get? key = some f ∧
        f.payload = Entry.ofInteger (Int64.ofInt (total + summand)) ∧
        f.isExpired (q.expiry now) = false := by
    unfold Spells at hspells
    cases hheld : n.held? name key with
    | none =>
      rw [hheld] at hspells
      obtain rfl : total = 0 := hspells
      rw [Int.zero_add]
      exact increment_of_none hn hname hkey hheld (Site.Roomy.of_map hroom)
    | some e =>
      rw [hheld] at hspells hlive
      obtain ⟨p, f, hp, hf, hfresh⟩ := isLive_iff.1 (hlive rfl)
      rw [held?_of_find? hp, hf] at hheld
      obtain rfl := Option.some.inj hheld
      exact increment_of_live hn hkey hp hf hfresh hspells summand
  refine ⟨?_, hstep.2⟩
  rw [answer, hstep.1]
  rfl

-- ---------------------------------------------------------------------------
-- Calls about other keys
-- ---------------------------------------------------------------------------

/-- Whatever a write does under the keys that it is about, what it leaves under others was there
before. -/
theorem held?_of_write (hn : n.WellFormed) (hat : op.target? = some (other, now))
    (helse : name ≠ other ∨ key ∉ op.keys) (he : (n.perform op).2.held? name key = some e) :
    n.held? name key = some e := by
  rcases perform_write hat n with ⟨err, -, heq⟩ | ⟨hname, α, shape, write, hwrite, -, heq⟩
  · rw [heq] at he
    exact he
  · obtain ⟨r, hr, hfound⟩ := held?_eq_some_iff.1 he
    rw [heq] at hr
    obtain ⟨-, hconfined⟩ := confined_accept now hwrite.toWriting hn hname
    obtain ⟨q, hq, -⟩ := hconfined.settings_of_find?' hr
    obtain ⟨m, ⟨hm, hthin⟩, hends⟩ := accept_ends hwrite (entered_wellFormed hn hname) other
    obtain ⟨o, ho, -, hentries⟩ := hthin name q hq
    have hkept : o.entries.get? key = some e := by
      change ((n.entered other).accept other now write).2.find? name = some r at hr
      generalize (n.entered other).accept other now write = result at hr hends
      -- the last attempt, if there was one, has left this key alone
      have hlast {p : Partition} (hp : m.find? other = some p)
          (hr : (m.settle (write (m.site p)).2).find? name = some r) :
          o.entries.get? key = some e := by
        obtain ⟨r', hr', houtside⟩ := outside_of_attempt hwrite hm hp ho
        rw [hr] at hr'
        obtain rfl := Option.some.inj hr'
        rw [← houtside key helse, hfound]
      cases hends with
      | refused bytes =>
        rw [ho] at hr
        obtain rfl := Option.some.inj hr
        exact hfound
      | missing hmissing =>
        rw [ho] at hr
        obtain rfl := Option.some.inj hr
        exact hfound
      | failed hp herr => exact hlast hp hr
      | done hp hdone => exact hlast hp hr
    have hold := hentries key e hkept
    rw [held?_of_find? (find?_of_entered hq hold), hold]

-- ---------------------------------------------------------------------------
-- Sequences of calls
-- ---------------------------------------------------------------------------

/-- An operation spares a key. -/
structure Operation.Spares (name key : Bytes) (op : Operation) (n : Node) : Prop where
  /-- the key is not evicted -/
  kept  : (n.held? name key).isSome → ((n.perform op).2.held? name key).isSome
  /-- it has not expired when a call about it comes -/
  live  : (op.summand? name key).isSome → (n.held? name key).isSome →
    ∀ aim ∈ op.target?, n.isLive name key aim.2 = true
  /-- such a call is not refused for lack of room -/
  roomy : (op.summand? name key).isSome → Roomy (n.perform op).1

instance (result : Result) : Decidable (Roomy result) :=
  match result with
  | .ok _ => isTrue nofun
  | .error err => decidable_of_iff (err.code ≠ .insufficientCapacity) <| by
    cases err <;> simp [Roomy, CacheError.code]

instance (name key : Bytes) (op : Operation) (n : Node) : Decidable (op.Spares name key n) :=
  decidable_of_iff (_ ∧ _ ∧ _)
    ⟨fun ⟨hkept, hlive, hroomy⟩ => ⟨hkept, hlive, hroomy⟩,
      fun ⟨hkept, hlive, hroomy⟩ => ⟨hkept, hlive, hroomy⟩⟩

/-- During a sequence of operations a key is neither expired nor evicted nor refused for lack of
room. -/
def Spared (name key : Bytes) : List Operation → Node → Prop
  | [], _ => True
  | op :: rest, n => op.Spares name key n ∧ Spared name key rest (n.perform op).2

instance decidableSpared (name key : Bytes) :
    (ops : List Operation) → (n : Node) → Decidable (Spared name key ops n)
  | [], _ => isTrue trivial
  | op :: rest, n =>
    have : Decidable (Spared name key rest (n.perform op).2) := decidableSpared name key rest _
    inferInstanceAs (Decidable (_ ∧ _))

/-- The number that calls start from: what eight bytes spell in two's complement, or zero without an
entry. -/
def StartsFrom (n : Node) (name key : Bytes) (start : Int) : Prop :=
  match n.held? name key with
  | none => start = 0
  | some e => e.payload.length = 8 ∧ start = (e.payload.value : Int).bmod UInt64.size

/-- A call about a key comes to a total: it returns the total in two's complement, and what is read
afterwards are the eight bytes of it. -/
structure Operation.ComesTo (name key : Bytes) (now : Millis) (total : Int) (op : Operation)
    (n : Node) : Prop where
  answer : ∃ value : Int64, (n.perform op).1 = .ok (.integer value) ∧
    value.toInt = total.bmod Int64.size
  live   : (n.perform op).2.isLive name key now = true
  read   : ∀ later, (n.perform op).2.isLive name key later = true →
    ((n.perform op).2.get name key later).1 =
      .ok (some (Bytes.digits 8 (total % UInt64.size).toNat))

variable {start : Int} {ops before after : List Operation}

theorem StartsFrom.spells (h : n.StartsFrom name key start) : n.Spells name key start := by
  unfold StartsFrom at h
  unfold Spells
  split at h
  · exact h
  · obtain ⟨hlength, hstart⟩ := h
    rw [hstart]
    exact Entry.eq_ofInteger hlength

theorem sum_cons (op : Operation) (ops : List Operation) :
    sum name key (op :: ops) = (op.summand? name key).getD 0 + sum name key ops := by
  unfold sum
  cases hop : op.summand? name key with
  | none => rw [List.filterMap_cons_none hop, Option.getD_none, Int.zero_add]
  | some summand => rw [List.filterMap_cons_some hop, List.sum_cons, Option.getD_some]

theorem Spared.append (h : Spared name key (before ++ op :: after) n) :
    Spared name key before n ∧ op.Spares name key (performAll before n).2 := by
  induction before generalizing n with
  | nil => exact ⟨trivial, h.1⟩
  | cons first rest ih =>
    obtain ⟨hrest, hop⟩ := ih h.2
    exact ⟨⟨h.1, hrest⟩, hop⟩

/-- A counting call that is not about a key is about another key or another partition. -/
theorem aim_of_summand?_none (hcounting : op.isCounting = true)
    (hop : op.summand? name key = none) :
    ∃ other now, op.target? = some (other, now) ∧ (name ≠ other ∨ key ∉ op.keys) := by
  have helse {target k : Bytes} {delta : Int}
      (h : (if target = name ∧ k = key then some delta else none) = none) :
      name ≠ target ∨ key ∉ [k] := by
    by_cases hname : name = target
    · right
      rintro hkey
      rw [if_pos ⟨hname.symm, (List.mem_singleton.1 hkey).symm⟩] at h
      cases h
    · exact .inl hname
  cases op with
  | increment target k delta clock => exact ⟨target, clock, rfl, helse hop⟩
  | decrement target k delta clock => exact ⟨target, clock, rfl, helse hop⟩
  | _ => cases hcounting

theorem spells_perform (hn : n.WellFormed) (hname : PartitionName.Valid name)
    (hkey : n.config.AcceptsKey key) (hspells : n.Spells name key total)
    (hcounting : op.isCounting = true) (hspares : op.Spares name key n) :
    (n.perform op).2.Spells name key (total + (op.summand? name key).getD 0) := by
  cases hop : op.summand? name key with
  | none =>
    obtain ⟨other, now, hat, helse⟩ := aim_of_summand?_none hcounting hop
    have hsame : (n.perform op).2.held? name key = n.held? name key := by
      cases hafter : (n.perform op).2.held? name key with
      | some e => rw [held?_of_write hn hat helse hafter]
      | none =>
        have hkept := hspares.kept
        rw [hafter] at hkept
        exact (Option.not_isSome_iff_eq_none.1 fun h => nomatch hkept h).symm
    rw [Option.getD_none, Int.add_zero, Spells, hsame]
    exact hspells
  | some summand =>
    obtain ⟨now, hat, -, -⟩ := perform_of_summand? hop
    have hsome : (op.summand? name key).isSome := by rw [hop]; rfl
    obtain ⟨-, q, f, hq, hf, hpayload, -⟩ := perform_spells hn hname hkey hspells hop hat
      (fun hthere => hspares.live hsome hthere (name, now) hat) (hspares.roomy hsome)
    rw [Option.getD_some, Spells, held?_of_find? hq, hf]
    exact hpayload

theorem config_perform (op : Operation) (hn : n.WellFormed) :
    (n.perform op).2.config = n.config := by
  have hpremises := perform_premises op hn
  simp only [premises, Prod.mk.injEq] at hpremises
  exact hpremises.1

/-- What holds before a sequence of calls still holds after it, with the sum of their summands in
the total. -/
theorem spells_performAll (hn : n.WellFormed) (hname : PartitionName.Valid name)
    (hkey : n.config.AcceptsKey key) (hspells : n.Spells name key total)
    (hcounting : ∀ op ∈ ops, op.isCounting = true) (hspared : Spared name key ops n) :
    (performAll ops n).2.WellFormed ∧ (performAll ops n).2.config = n.config ∧
      (performAll ops n).2.Spells name key (total + sum name key ops) := by
  induction ops generalizing n total with
  | nil =>
    rw [show sum name key [] = 0 from rfl, Int.add_zero]
    exact ⟨hn, rfl, hspells⟩
  | cons op rest ih =>
    obtain ⟨hfirst, hrest⟩ := List.forall_mem_cons.1 hcounting
    have hconfig := config_perform op hn
    obtain ⟨hwf, hlater, htotal⟩ := ih (perform_wellFormed op hn) (by rw [hconfig]; exact hkey)
      (spells_perform hn hname hkey hspells hfirst hspared.1) hrest hspared.2
    rw [sum_cons, ← Int.add_assoc]
    exact ⟨hwf, hlater.trans hconfig, htotal⟩

theorem comesTo_perform (hn : n.WellFormed) (hname : PartitionName.Valid name)
    (hkey : n.config.AcceptsKey key) (hspells : n.Spells name key total)
    (hop : op.summand? name key = some summand) (hat : op.target? = some (name, now))
    (hspares : op.Spares name key n) : op.ComesTo name key now (total + summand) n := by
  have hsome : (op.summand? name key).isSome := by rw [hop]; rfl
  obtain ⟨hanswer, q, f, hq, hf, hpayload, hlive⟩ := perform_spells hn hname hkey hspells hop hat
    (fun hthere => hspares.live hsome hthere (name, now) hat) (hspares.roomy hsome)
  refine ⟨⟨_, hanswer, Int64.toInt_ofInt⟩, isLive_iff.2 ⟨q, f, hq, hf, hlive⟩, ?_⟩
  intro later hlater
  obtain ⟨p, e, hp, he, hfresh⟩ := isLive_iff.1 hlater
  rw [hq] at hp
  obtain rfl := Option.some.inj hp
  rw [hf] at he
  obtain rfl := Option.some.inj he
  rw [get_of_live hname hkey.1 hq hf hfresh, hpayload, Entry.ofInteger_ofInt]

theorem perform_of_length_ne (hn : n.WellFormed) (hkey : n.config.AcceptsKey key)
    (hop : op.summand? name key = some summand) (hat : op.target? = some (name, now))
    (he : n.held? name key = some e) (hlive : n.isLive name key now = true)
    (hlength : e.payload.length ≠ 8) :
    n.perform op = (.error (.invalidTypeOperation e.payload.length), n) := by
  obtain ⟨clock, htarget, -, hperform⟩ := perform_of_summand? hop
  obtain rfl : now = clock := by
    rw [hat] at htarget
    exact (Prod.mk.inj (Option.some.inj htarget)).2
  obtain ⟨p, f, hp, hf, hfresh⟩ := isLive_iff.1 hlive
  rw [held?_of_find? hp, hf] at he
  obtain rfl := Option.some.inj he
  have hwf := hn _ _ hp
  have hfails := Site.increment_of_length_ne (s := n.site p)
    (Partition.checkKey_of_accepts hwf.limited hkey) (Partition.checkInUse_of_inUse hwf.inUse)
    hf hfresh hlength (Int64.ofInt summand)
  rw [hperform, increment_of_valid hwf.valid, entered_of_find? hp, accept_of_error now hp hfails,
    settle_site hp hwf.named]
  rfl

/-- A key is counted with, and others may be in between. It starts without an entry or from eight
bytes, and on the way it is neither expired nor evicted nor refused for lack of room. Then each call
about it comes to the sum of the start and of all that was added so far, where subtractions count
negatively. If instead it is live with a payload of another length, then a call about it fails with
this length, and the node stays as it is. -/
theorem counting_adds_up (hn : n.Reachable) (hname : PartitionName.Valid name)
    (hkey : n.config.AcceptsKey key) :
    (∀ ops start, (∀ op ∈ ops, op.isCounting = true) → Spared name key ops n →
      n.StartsFrom name key start →
      ∀ before op after now, ops = before ++ op :: after → (op.summand? name key).isSome →
        op.target? = some (name, now) →
        op.ComesTo name key now (start + sum name key (before ++ [op])) (performAll before n).2) ∧
    ∀ op now e, (op.summand? name key).isSome → op.target? = some (name, now) →
      n.held? name key = some e → n.isLive name key now = true → e.payload.length ≠ 8 →
      n.perform op = (.error (.invalidTypeOperation e.payload.length), n) := by
  constructor
  · rintro _ start hcounting hspared hstart before op after now rfl hsome hat
    obtain ⟨summand, hop⟩ := Option.isSome_iff_exists.1 hsome
    obtain ⟨hbefore, hspares⟩ := hspared.append
    obtain ⟨hwf, hconfig, htotal⟩ := spells_performAll hn.wellFormed hname hkey hstart.spells
      (fun o ho => hcounting o (List.mem_append_left _ ho)) hbefore
    have hsum : sum name key (before ++ [op]) = sum name key before + summand := by
      simp only [sum, List.filterMap_append, List.sum_append, List.filterMap_cons_some hop,
        List.filterMap_nil, List.sum_singleton]
    rw [hsum, ← Int.add_assoc]
    exact comesTo_perform hwf hname (by rw [hconfig]; exact hkey) htotal hop hat hspares
  · intro op now e hsome hat he hlive hlength
    obtain ⟨summand, hop⟩ := Option.isSome_iff_exists.1 hsome
    exact perform_of_length_ne hn.wellFormed hkey hop hat he hlive hlength

/-- A partition with a bound of twenty bytes whose entries expire ten milliseconds after they were
created. One key holds the largest integer, an older one holds four bytes. -/
def tallies : Node :=
  (performAll
    [ .putPartition [112]
        { createDate := (bare {}).today, interval := 10, mode := .absolute, maxCacheSize := 20 },
      .put .upsert [112] [115] [1, 2, 3, 4] 2,
      .put .upsert [112] [110] [255, 255, 255, 255, 255, 255, 255, 127] 3 ] (bare {})).2

/-- Calls about the largest integer, and one about a key for which another one is evicted. -/
def additions : List Operation :=
  [ .increment [112] [110] 1 4, .increment [112] [120] 5 5,
    .decrement [112] [110] Int64.minValue 6, .decrement [112] [110] 2 9 ]

/-- The sum grows out of sixty-four bits twice on its way to minus two. -/
theorem counting_adds_up_tallies :
    tallies.StartsFrom [112] [110] 9223372036854775807 ∧
      Spared [112] [110] additions tallies ∧
      (performAll additions tallies).1 =
        [.ok (.integer Int64.minValue), .ok (.integer 5), .ok (.integer 0),
          .ok (.integer (-2))] ∧
      9223372036854775807 + sum [112] [110] additions = 18446744073709551614 ∧
      ((performAll additions tallies).2.get [112] [110] 12).1 =
        .ok (some [254, 255, 255, 255, 255, 255, 255, 255]) ∧
      tallies.perform (.decrement [112] [115] Int64.minValue 7) =
        (.error (.invalidTypeOperation 4), tallies) := by
  have hreached : tallies.Reachable := (reachable_bare _).performAll _ (by decide)
  have hstart : tallies.StartsFrom [112] [110] 9223372036854775807 := by
    have hheld : tallies.held? [112] [110] =
        some ⟨[255, 255, 255, 255, 255, 255, 255, 127], 3⟩ := by cbv
    rw [StartsFrom, hheld]
    exact ⟨rfl, by decide⟩
  have hspared : Spared [112] [110] additions tallies := of_decide_eq_true (by cbv)
  have hsum : 9223372036854775807 + sum [112] [110] additions = 18446744073709551614 := by decide
  have hname : PartitionName.Valid [112] := by decide
  have hkey : tallies.config.AcceptsKey [110] := by decide
  have hshort : tallies.config.AcceptsKey [115] := by decide
  obtain ⟨htotals, -⟩ := counting_adds_up hreached hname hkey
  obtain ⟨-, hrefused⟩ := counting_adds_up hreached hname hshort
  have hlast := htotals additions _ (by decide) hspared hstart
    [ .increment [112] [110] 1 4, .increment [112] [120] 5 5,
      .decrement [112] [110] Int64.minValue 6 ] (.decrement [112] [110] 2 9) [] 9 rfl rfl rfl
  refine ⟨hstart, hspared, by cbv, hsum, ?_, ?_⟩
  · exact hlast.read 12 (by cbv)
  · exact hrefused _ 7 ⟨[1, 2, 3, 4], 2⟩ rfl rfl (by cbv) (by cbv) (by decide)

/-- A key is absent, nothing happens to it, and yet a call about it does not come to its summand. -/
structure Uncounted (n : Node) (name key : Bytes) (op : Operation) (now : Millis) : Prop where
  reachable : n.Reachable
  absent  : n.StartsFrom name key 0
  spared  : Spared name key [op] n
  differs : ¬ op.ComesTo name key now (0 + sum name key [op]) n

/-- Nothing is counted without a key, under a key that is too long, or in a partition without a
proper name. -/
theorem counting_needs_names :
    Uncounted (bare { maxKeySize := 1 }) [112] [] (.increment [112] [] 1 4) 4 ∧
      Uncounted (bare { maxKeySize := 1 }) [112] [110, 110] (.increment [112] [110, 110] 1 4) 4 ∧
      Uncounted (bare { maxKeySize := 1 }) [] [110] (.increment [] [110] 1 4) 4 ∧
      Uncounted (bare { maxKeySize := 1 }) [47] [110] (.increment [47] [110] 1 4) 4 := by
  have hrefused {name key : Bytes} (err : CacheError)
      (hspared : Spared name key [.increment name key 1 4] (bare { maxKeySize := 1 }))
      (herr : ((bare { maxKeySize := 1 }).perform (.increment name key 1 4)).1 = .error err) :
      Uncounted (bare { maxKeySize := 1 }) name key (.increment name key 1 4) 4 := by
    refine ⟨reachable_bare _, rfl, hspared, fun hcomes => ?_⟩
    obtain ⟨value, hvalue, -⟩ := hcomes.answer
    rw [herr] at hvalue
    cases hvalue
  refine ⟨?_, ?_, ?_, ?_⟩
  · exact hrefused .missingKey (of_decide_eq_true (by cbv)) (by cbv)
  · exact hrefused (.keyTooLarge 2 1) (of_decide_eq_true (by cbv)) (by cbv)
  · exact hrefused .missingPartitionKey (of_decide_eq_true (by cbv)) (by cbv)
  · exact hrefused (.invalidPartitionKey "/") (of_decide_eq_true (by cbv)) (by cbv)

end Node

end CacheNode

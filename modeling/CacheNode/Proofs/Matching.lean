import CacheNode.Glob
import Mathlib.Logic.Relation

/-!
# CacheNode — matching of glob patterns

A scan has one way back, to the run that was passed last. What can still come of it is therefore
that the rest of the pattern describes the rest of the input, or that it does so after the last run
has taken more. Every step keeps this, also the one that passes a run and forgets the run before it:
the tokens between the two take one symbol each, so what would follow from a later end of the
earlier run follows from a later end of the later one as well.

At the end of the input there is no such later end, and what is left of the pattern must be runs.

* `Glob.Describes.drop_single` — tokens that are no runs take one symbol each;
* `Glob.Scan.Open` — what can still come of a scan;
* `Glob.Scan.open_step`, `Glob.Scan.open_atEnd` — what a step does to it, and what it comes to;
* `Glob.isMatch_iff_matches` — a pattern matches exactly the inputs that it describes.
-/

namespace CacheNode.Glob

variable {α : Type} {p : List (Token α)} {s : List α} {x : α}

theorem Token.isRun_iff {token : Token α} : token.isRun = true ↔ token = .run := by
  cases token <;> simp [isRun]

-- ---------------------------------------------------------------------------
-- Descriptions
-- ---------------------------------------------------------------------------

theorem describes_run : Describes (.run :: p) s ↔
    ∃ skipped rest, s = skipped ++ rest ∧ Describes p rest :=
  ⟨fun h => by cases h with | run skipped h => exact ⟨skipped, _, rfl, h⟩,
    fun ⟨skipped, _, hs, h⟩ => hs ▸ .run skipped h⟩

/-- A run that stands at a symbol takes nothing, or it takes this symbol and perhaps more. -/
theorem describes_run_cons : Describes (.run :: p) (x :: s) ↔
    Describes p (x :: s) ∨ Describes (.run :: p) s := by
  rw [describes_run, describes_run]
  constructor
  · rintro ⟨_ | ⟨y, skipped⟩, rest, hs, h⟩
    · rw [hs]
      exact .inl h
    · obtain ⟨-, rfl⟩ := List.cons.inj hs
      exact .inr ⟨skipped, rest, rfl, h⟩
  · rintro (h | ⟨skipped, rest, rfl, h⟩)
    · exact ⟨[], _, rfl, h⟩
    · exact ⟨x :: skipped, rest, rfl, h⟩

theorem describes_run_nil : Describes (.run :: p) [] ↔ Describes p [] := by
  rw [describes_run]
  constructor
  · rintro ⟨skipped, rest, hs, h⟩
    obtain ⟨-, rfl⟩ := List.append_eq_nil_iff.1 hs.symm
    exact h
  · intro h
    exact ⟨[], [], rfl, h⟩

/-- A run can take still more in front of what it takes. -/
theorem Describes.append_run (h : Describes (.run :: p) s) (more : List α) :
    Describes (.run :: p) (more ++ s) := by
  obtain ⟨skipped, rest, rfl, hrest⟩ := describes_run.1 h
  rw [← List.append_assoc]
  exact .run (more ++ skipped) hrest

theorem describes_one_cons : Describes (.one :: p) (x :: s) ↔ Describes p s :=
  ⟨fun h => by cases h; assumption, .one x⟩

theorem describes_literal_cons {d : α} :
    Describes (.literal d :: p) (x :: s) ↔ d = x ∧ Describes p s :=
  ⟨fun h => by cases h; exact ⟨rfl, by assumption⟩, fun ⟨hd, h⟩ => hd ▸ .literal d h⟩

/-- Nothing but runs describes an empty input. -/
theorem describes_empty : Describes p [] ↔ ∀ token ∈ p, token = .run := by
  induction p with
  | nil => exact ⟨nofun, fun _ => .nil⟩
  | cons token p ih =>
    cases token with
    | run => rw [describes_run_nil, ih]; simp
    | one => exact ⟨nofun, fun h => nomatch h .one List.mem_cons_self⟩
    | literal d => exact ⟨nofun, fun h => nomatch h (.literal d) List.mem_cons_self⟩

/-- Tokens that are no runs take one symbol each. -/
theorem Describes.drop_single {count : Nat} (h : Describes p s) (hcount : count ≤ p.length)
    (hsingle : ∀ i, i < count → p[i]? ≠ some .run) :
    count ≤ s.length ∧ Describes (p.drop count) (s.drop count) := by
  induction count generalizing p s with
  | zero => exact ⟨Nat.zero_le _, h⟩
  | succ count ih =>
    have hrest {q : List (Token α)} {token : Token α} (hp : p = token :: q) {t : List α}
        (hq : Describes q t) : count ≤ t.length ∧ Describes (q.drop count) (t.drop count) := by
      subst hp
      refine ih hq (Nat.le_of_succ_le_succ hcount) fun i hi => ?_
      exact hsingle (i + 1) (Nat.succ_lt_succ hi)
    cases h with
    | nil => cases hcount
    | run skipped h => exact absurd rfl (hsingle 0 (Nat.succ_pos count))
    | one symbol h =>
      obtain ⟨hle, hdescribes⟩ := hrest rfl h
      exact ⟨Nat.succ_le_succ hle, hdescribes⟩
    | literal symbol h =>
      obtain ⟨hle, hdescribes⟩ := hrest rfl h
      exact ⟨Nat.succ_le_succ hle, hdescribes⟩

-- ---------------------------------------------------------------------------
-- What can come of a scan
-- ---------------------------------------------------------------------------

namespace Scan

variable {pattern : Array (Token α)} {input : Array α} {c d : Scan pattern input}

/-- What can still come of a scan: that the rest of the pattern describes the rest of the input, or
that it will after the last run has taken at least one symbol more. -/
def Open (c : Scan pattern input) : Prop :=
  Describes (pattern.toList.drop c.token) (input.toList.drop c.symbol) ∨
    ∃ run stop, c.last = some (run, stop) ∧ stop < input.size ∧
      Describes (pattern.toList.drop run) (input.toList.drop (stop + 1))

/-- What can still come of a step: what can come of the scan that it leads to, or what it has come
to. -/
def Step.Open : Step pattern input → Prop
  | .next c => c.Open
  | .ended verdict => verdict = true

theorem open_start (pattern : Array (Token α)) (input : Array α) :
    (start pattern input).Open ↔ Describes pattern.toList input.toList := by
  constructor
  · rintro (h | ⟨run, stop, hlast, -⟩)
    · exact h
    · cases hlast
  · exact .inl

/-- The rest of the pattern at a token. -/
theorem drop_token {i : Nat} {token : Token α} (h : pattern[i]? = some token) :
    pattern.toList.drop i = token :: pattern.toList.drop (i + 1) := by
  obtain ⟨hi, rfl⟩ := Array.getElem?_eq_some_iff.1 h
  exact List.drop_eq_getElem_cons (l := pattern.toList) hi

/-- The rest of the input at a symbol. -/
theorem drop_symbol {i : Nat} (h : i < input.size) :
    input.toList.drop i = input[i] :: input.toList.drop (i + 1) :=
  List.drop_eq_getElem_cons (l := input.toList) h

/-- If the run that was passed last can take more, then what the next token describes lies so many
symbols further back in the input. -/
theorem describes_of_passed {run stop : Nat} (hlast : c.last = some (run, stop))
    (hstop : stop < input.size)
    (h : Describes (pattern.toList.drop run) (input.toList.drop (stop + 1))) :
    ∃ more, c.symbol + 1 + more ≤ input.size ∧
      Describes (pattern.toList.drop c.token) (input.toList.drop (c.symbol + 1 + more)) := by
  obtain ⟨hrun, haligned, hisRun, hsingle⟩ := c.passed run stop hlast
  rw [drop_token hisRun] at h
  obtain ⟨skipped, rest, hrest, h⟩ := describes_run.1 h
  have hdropped : rest = input.toList.drop (stop + 1 + skipped.length) := by
    rw [← List.drop_drop, hrest, List.drop_left]
  have hlength : input.size - (stop + 1) = skipped.length + rest.length := by
    rw [← List.length_append, ← hrest, List.length_drop, Array.length_toList]
  -- the tokens between the run and the next one take one symbol each
  have htoken := c.token_le
  have hcount : c.token - (run + 1) ≤ (pattern.toList.drop (run + 1)).length := by
    rw [List.length_drop, Array.length_toList]
    omega
  obtain ⟨hle, htail⟩ := h.drop_single hcount fun i hi => by
    rw [List.getElem?_drop, Array.getElem?_toList]
    exact hsingle (run + 1 + i) (by omega) (by omega)
  have hnext : run + 1 + (c.token - (run + 1)) = c.token := by omega
  have hlater : stop + 1 + skipped.length + (c.token - (run + 1)) =
      c.symbol + 1 + skipped.length := by omega
  rw [List.drop_drop, hnext, hdropped, List.drop_drop, hlater] at htail
  exact ⟨skipped.length, by omega, htail⟩

-- ---------------------------------------------------------------------------
-- Steps
-- ---------------------------------------------------------------------------

/-- To pass a run forgets the run before it and loses nothing: where that one could take more, this
one can. -/
theorem open_pass (h : pattern[c.token]? = some .run) (hsymbol : c.symbol < input.size) :
    (c.pass h).Open ↔ c.Open := by
  have hnow : (c.pass h).Open ↔
      Describes (pattern.toList.drop c.token) (input.toList.drop c.symbol) := by
    rw [drop_token h, drop_symbol hsymbol, describes_run_cons, ← drop_symbol hsymbol,
      ← drop_token h]
    constructor
    · rintro (hnext | ⟨run, stop, hlast, -, hmore⟩)
      · exact .inl hnext
      · cases hlast
        exact .inr hmore
    · rintro (hnext | hmore)
      · exact .inl hnext
      · exact .inr ⟨c.token, c.symbol, rfl, hsymbol, hmore⟩
  rw [hnow]
  constructor
  · exact .inl
  · rintro (hfirst | ⟨run, stop, hlast, hstop, hmore⟩)
    · exact hfirst
    · obtain ⟨more, -, hlater⟩ := describes_of_passed hlast hstop hmore
      have hsplit : input.toList.drop c.symbol =
          (input.toList.drop c.symbol).take (1 + more) ++
            input.toList.drop (c.symbol + 1 + more) := by
        rw [Nat.add_assoc, ← List.drop_drop, List.take_append_drop]
      rw [drop_token h] at hlater ⊢
      rw [hsplit]
      exact hlater.append_run _

/-- A token that takes the next symbol can be passed together with it. -/
theorem open_advance (htoken : c.token < pattern.size) (hsymbol : c.symbol < input.size)
    (hsingle : pattern[c.token]? ≠ some .run)
    (h : Describes (pattern.toList.drop c.token) (input.toList.drop c.symbol) ↔
      Describes (pattern.toList.drop (c.token + 1)) (input.toList.drop (c.symbol + 1))) :
    (c.advance htoken hsymbol hsingle).Open ↔ c.Open :=
  or_congr_left h.symm

/-- Where the rest of the pattern does not describe the rest of the input, the last run has to take
one symbol more, and without a run nothing can come of the scan. -/
theorem open_goBack (hsymbol : c.symbol < input.size)
    (hnot : ¬ Describes (pattern.toList.drop c.token) (input.toList.drop c.symbol)) :
    (c.goBack hsymbol).Open ↔ c.Open := by
  rw [Open, or_iff_right hnot, goBack]
  split
  · next hnone =>
    rw [hnone]
    exact ⟨nofun, nofun⟩
  · next run stop hlast =>
    have hrun := (c.passed run stop hlast).isRun
    have hstop : stop < input.size := by
      have hlt := (c.passed run stop hlast).run_lt
      have haligned := (c.passed run stop hlast).aligned
      omega
    have hold : (∃ run stop, c.last = some (run, stop) ∧ stop < input.size ∧
        Describes (pattern.toList.drop run) (input.toList.drop (stop + 1))) ↔
          Describes (.run :: pattern.toList.drop (run + 1)) (input.toList.drop (stop + 1)) := by
      rw [hlast, ← drop_token hrun]
      constructor
      · rintro ⟨_, _, ⟨⟩, -, h⟩
        exact h
      · intro h
        exact ⟨run, stop, rfl, hstop, h⟩
    rw [hold]
    by_cases hmore : stop + 1 < input.size
    · rw [drop_symbol hmore, describes_run_cons, ← drop_symbol hmore, ← drop_token hrun]
      constructor
      · rintro (h | ⟨_, _, ⟨⟩, -, h⟩)
        · exact .inl h
        · exact .inr h
      · rintro (h | h)
        · exact .inl h
        · exact .inr ⟨run, stop + 1, rfl, hmore, h⟩
    · -- the run has taken everything
      have hend : input.toList.drop (stop + 1) = [] := by
        rw [List.drop_eq_nil_iff, Array.length_toList]
        omega
      rw [hend, describes_run_nil, ← hend]
      refine or_iff_left ?_
      rintro ⟨_, _, ⟨⟩, hlt, -⟩
      exact hmore hlt

/-- At the end of the input the last run cannot take more. -/
theorem open_atEnd (hsymbol : ¬ c.symbol < input.size) :
    pattern.all Token.isRun c.token = true ↔ c.Open := by
  have hlast : ¬ ∃ run stop, c.last = some (run, stop) ∧ stop < input.size ∧
      Describes (pattern.toList.drop run) (input.toList.drop (stop + 1)) := by
    rintro ⟨run, stop, hlast, hstop, h⟩
    obtain ⟨more, hle, -⟩ := describes_of_passed hlast hstop h
    omega
  have hend : input.toList.drop c.symbol = [] := by
    rw [List.drop_eq_nil_iff, Array.length_toList]
    omega
  rw [Open, or_iff_left hlast, hend, describes_empty, Array.all_iff_forall]
  constructor
  · intro h token htoken
    obtain ⟨i, hi, rfl⟩ := List.mem_drop_iff_getElem.1 htoken
    have hlt : c.token + i < pattern.size := by
      rw [Nat.add_comm]
      exact hi
    exact Token.isRun_iff.1 (h (c.token + i) hlt ⟨Nat.le_add_right _ i, hlt⟩)
  · intro h i hi hrange
    have hoffset : c.token + (i - c.token) = i := Nat.add_sub_cancel' hrange.1
    refine Token.isRun_iff.2 (h _ (List.mem_drop_iff_getElem.2 ⟨i - c.token, ?_, ?_⟩))
    · rw [Nat.sub_add_cancel hrange.1]
      exact hi
    · simp only [hoffset, Array.getElem_toList]

/-- A step loses nothing that can come of a scan, and adds nothing. -/
theorem open_step [DecidableEq α] (c : Scan pattern input) : c.step.Open ↔ c.Open := by
  unfold step
  split
  · next hsymbol =>
    split
    · next htoken =>
      have hget : pattern[c.token]? = some pattern[c.token] := Array.getElem?_eq_getElem htoken
      split
      · exact open_pass _ hsymbol
      · next hone =>
        rw [hone] at hget
        refine open_advance htoken hsymbol _ ?_
        rw [drop_token hget, drop_symbol hsymbol, describes_one_cons]
      · next d hliteral =>
        rw [hliteral] at hget
        have hnext : Describes (pattern.toList.drop c.token) (input.toList.drop c.symbol) ↔
            d = input[c.symbol] ∧ Describes (pattern.toList.drop (c.token + 1))
              (input.toList.drop (c.symbol + 1)) := by
          rw [drop_token hget, drop_symbol hsymbol, describes_literal_cons]
        split
        · next hsame =>
          exact open_advance htoken hsymbol _ (hnext.trans (and_iff_right hsame))
        · next hother => exact open_goBack hsymbol fun h => hother (hnext.1 h).1
    · next htoken =>
      -- the pattern has come to its end before the input
      refine open_goBack hsymbol fun h => ?_
      rw [List.drop_eq_nil_of_le (by rw [Array.length_toList]; omega), drop_symbol hsymbol] at h
      cases h
  · next hsymbol => exact open_atEnd hsymbol

/-- A scan comes to the verdict whether anything can come of it. -/
theorem verdict_iff [DecidableEq α] (c : Scan pattern input) : c.verdict = true ↔ c.Open := by
  fun_induction verdict c with
  | case1 c d hstep ih =>
    rw [ih, ← open_step c, hstep]
    rfl
  | case2 c verdict hstep =>
    rw [← open_step c, hstep]
    rfl

end Scan

theorem matchesTokens_iff [DecidableEq α] : matchesTokens p s = true ↔ Describes p s := by
  rw [matchesTokens, Scan.verdict_iff, Scan.open_start]

-- ---------------------------------------------------------------------------
-- Matching
-- ---------------------------------------------------------------------------

/-- The steps of one scan lead to another. -/
abbrev Scan.Leads [DecidableEq α] {pattern : Array (Token α)} {input : Array α} :
    Scan pattern input → Scan pattern input → Prop :=
  Relation.ReflTransGen fun c d => c.step = .next d

/-- All that could come of a scan can still come of it after any number of steps. -/
theorem Scan.open_leads [DecidableEq α] {pattern : Array (Token α)} {input : Array α}
    {c d : Scan pattern input} (h : c.Leads d) : d.Open ↔ c.Open := by
  induction h with
  | refl => rfl
  | @tail b d _ hstep ih =>
    rw [← ih, ← open_step b, hstep]
    rfl

/-- A scan leads to an end. -/
theorem Scan.exists_ended [DecidableEq α] {pattern : Array (Token α)} {input : Array α}
    (c : Scan pattern input) : ∃ d verdict, c.Leads d ∧ d.step = .ended verdict := by
  fun_induction verdict c with
  | case1 c d hstep ih =>
    obtain ⟨e, verdict, hleads, hended⟩ := ih
    exact ⟨e, verdict, .head hstep hleads, hended⟩
  | case2 c verdict hstep => exact ⟨c, verdict, .refl, hstep⟩

/-- What a pattern describes: texts, character by character, if it is a text itself, and otherwise
bytes. -/
inductive Matches (g : Glob) (input : Bytes) : Prop where
  | characters {pattern text : String} (hpattern : g.pattern = Bytes.ofText pattern)
      (htext : input = Bytes.ofText text)
      (h : Describes (tokens '*' '?' pattern.toList) text.toList)
  | bytes
      (hbytes : ¬ ∃ pattern text, g.pattern = Bytes.ofText pattern ∧ input = Bytes.ofText text)
      (h : Describes (tokens 0x2A 0x3F g.pattern) input)

/-- A pattern matches exactly the inputs that it describes. Every scan comes to an end with this
verdict, and on its way it stays within the pattern and the input. It goes back to the last run
only, and yet what can still come of it is at every step what the whole pattern describes. -/
theorem isMatch_iff_matches (g : Glob) (input : Bytes) :
    (g.isMatch input = true ↔ g.Matches input) ∧
      ∀ {α : Type} [DecidableEq α] (pattern : Array (Token α)) (text : Array α),
        (∃ c verdict, (Scan.start pattern text).Leads c ∧ c.step = .ended verdict ∧
          (verdict = true ↔ Describes pattern.toList text.toList)) ∧
        ∀ c, (Scan.start pattern text).Leads c → c.token ≤ pattern.size ∧ c.symbol ≤ text.size ∧
          (c.Open ↔ Describes pattern.toList text.toList) := by
  refine ⟨?_, fun pattern text => ⟨?_, fun c hleads => ?_⟩⟩
  · unfold isMatch
    split
    · next pattern text hpattern htext =>
      rw [Text.utf8?_eq_some_iff] at hpattern htext
      rw [matchesTokens_iff]
      refine ⟨.characters hpattern htext, fun h => ?_⟩
      cases h with
      | characters hpattern' htext' h =>
        rw [← Text.utf8?_eq_some_iff, hpattern, Text.utf8?_eq_some_iff.2 rfl] at hpattern'
        rw [← Text.utf8?_eq_some_iff, htext, Text.utf8?_eq_some_iff.2 rfl] at htext'
        cases hpattern'
        cases htext'
        exact h
      | bytes hbytes h => exact absurd ⟨pattern, text, hpattern, htext⟩ hbytes
    · next hbytes =>
      rw [matchesTokens_iff]
      have hnot : ¬ ∃ pattern text,
          g.pattern = Bytes.ofText pattern ∧ input = Bytes.ofText text := by
        rintro ⟨pattern, text, hpattern, htext⟩
        exact hbytes pattern text (Text.utf8?_eq_some_iff.2 hpattern)
          (Text.utf8?_eq_some_iff.2 htext)
      refine ⟨.bytes hnot, fun h => ?_⟩
      cases h with
      | characters hpattern htext h => exact absurd ⟨_, _, hpattern, htext⟩ hnot
      | bytes hbytes h => exact h
  · obtain ⟨c, verdict, hleads, hended⟩ := (Scan.start pattern text).exists_ended
    refine ⟨c, verdict, hleads, hended, ?_⟩
    rw [← Scan.open_start, ← Scan.open_leads hleads, ← Scan.open_step, hended]
    rfl
  · exact ⟨c.token_le, c.symbol_le, (Scan.open_leads hleads).trans (Scan.open_start _ _)⟩

/-- A scan of `aab` for `*ab` that has gone back once. -/
def rewound : Scan #[.run, .literal 97, .literal 98] (#[97, 97, 98] : Array UInt8) where
  token := 1
  symbol := 1
  last := some (0, 1)
  token_le := by decide
  symbol_le := by decide
  passed := by
    rintro run stop ⟨⟩
    exact ⟨by decide, rfl, rfl, fun i hi hi' => by omega⟩

/-- It can still come to the verdict that the pattern describes the input, as it does. -/
theorem isMatch_iff_matches_rewound :
    (Scan.start #[.run, .literal 97, .literal 98] (#[97, 97, 98] : Array UInt8)).Leads rewound ∧
      rewound.Open ∧ (⟨[42, 97, 98]⟩ : Glob).isMatch [97, 97, 98] = true ∧
      (⟨[42, 97, 98]⟩ : Glob).Matches [97, 97, 98] := by
  have hleads : (Scan.start #[.run, .literal 97, .literal 98]
      (#[97, 97, 98] : Array UInt8)).Leads rewound :=
    .head (b := Scan.pass (Scan.start _ _) rfl) rfl <|
      .head (b := Scan.advance (Scan.pass (Scan.start _ _) rfl) (by decide) (by decide) (by decide))
        rfl <| .single rfl
  have hmatches : (⟨[42, 97, 98]⟩ : Glob).Matches [97, 97, 98] :=
    .characters (show [42, 97, 98] = Bytes.ofText "*ab" by decide)
      (show [97, 97, 98] = Bytes.ofText "aab" by decide)
      (.run ['a'] (.literal 'a' (.literal 'b' .nil)))
  obtain ⟨hexact, hscan⟩ := isMatch_iff_matches ⟨[42, 97, 98]⟩ [97, 97, 98]
  refine ⟨hleads, ?_, hexact.2 hmatches, hmatches⟩
  rw [((hscan _ _).2 rewound hleads).2.2]
  exact .run [97] (.literal 97 (.literal 98 .nil))

end CacheNode.Glob

import CacheNode.Text.Utf8

/-!
# CacheNode — glob patterns

A pattern describes whole inputs: a star stands for any run of symbols, the empty one
included, a question mark for exactly one symbol, and every other symbol for itself. The
symbols are characters where both pattern and input are well-formed text, and bytes otherwise.

An input is scanned once from front to end, with one way back: to the run that was passed last,
which then takes one symbol more. Runs that were passed before it are never thought over.

* `Glob.Describes` — the inputs that a pattern describes, one rule for each token;
* `Glob.Scan` — a place in the pattern, a place in the input, and the way back;
* `Glob.Scan.step` — one step of the scan;
* `Glob.Scan.verdict` — what the scan comes to.
-/

namespace CacheNode

namespace Glob

/-- One element of a pattern. -/
inductive Token (α : Type) where
  | run
  | one
  | literal (symbol : α)
deriving DecidableEq, Repr

variable {α : Type}

/-- Whether a token stands for a run of symbols. -/
def Token.isRun : Token α → Bool
  | .run => true
  | _ => false

/-- The tokens of a pattern, given the symbols that stand for a run and for one symbol. -/
def tokens [DecidableEq α] (star question : α) (pattern : List α) : List (Token α) :=
  pattern.map fun c => if c = star then .run else if c = question then .one else .literal c

/-- The inputs that a pattern describes. -/
inductive Describes : List (Token α) → List α → Prop where
  | nil : Describes [] []
  | run {p : List (Token α)} {s : List α} (skipped : List α) (h : Describes p s) :
    Describes (.run :: p) (skipped ++ s)
  | one {p : List (Token α)} {s : List α} (symbol : α) (h : Describes p s) :
    Describes (.one :: p) (symbol :: s)
  | literal {p : List (Token α)} {s : List α} (symbol : α) (h : Describes p s) :
    Describes (.literal symbol :: p) (symbol :: s)

-- ---------------------------------------------------------------------------
-- Scans
-- ---------------------------------------------------------------------------

/-- A run that was passed, at `run`, has taken the symbols before `stop`. From there on the tokens
up to `token` have taken one symbol each, up to `symbol`. -/
structure Passed (pattern : Array (Token α)) (run stop token symbol : Nat) : Prop where
  run_lt : run < token
  aligned : symbol + run + 1 = stop + token
  isRun : pattern[run]? = some .run
  single : ∀ i, run < i → i < token → pattern[i]? ≠ some .run

/-- How far a scan has come: the next token, the next symbol, and the run that was passed last with
the place where the symbols end that it has taken. -/
structure Scan (pattern : Array (Token α)) (input : Array α) where
  token : Nat
  symbol : Nat
  last : Option (Nat × Nat)
  token_le : token ≤ pattern.size
  symbol_le : symbol ≤ input.size
  passed : ∀ run stop, last = some (run, stop) → Passed pattern run stop token symbol

/-- A scan goes on from somewhere, or it has come to an end. -/
inductive Scan.Step (pattern : Array (Token α)) (input : Array α) where
  | next (c : Scan pattern input)
  | ended (verdict : Bool)

namespace Scan

variable {pattern : Array (Token α)} {input : Array α}

/-- The beginning of a scan. -/
def start (pattern : Array (Token α)) (input : Array α) : Scan pattern input where
  token := 0
  symbol := 0
  last := none
  token_le := Nat.zero_le _
  symbol_le := Nat.zero_le _
  passed := nofun

/-- Passes a run, which takes nothing yet. -/
@[inline] def pass (c : Scan pattern input) (h : pattern[c.token]? = some .run) :
    Scan pattern input where
  token := c.token + 1
  symbol := c.symbol
  last := some (c.token, c.symbol)
  token_le := (Array.getElem?_eq_some_iff.1 h).1
  symbol_le := c.symbol_le
  passed := by
    rintro run stop ⟨⟩
    exact ⟨Nat.lt_succ_self _, rfl, h, fun i hi hi' => by omega⟩

/-- Passes a token that takes one symbol. -/
@[inline] def advance (c : Scan pattern input) (htoken : c.token < pattern.size)
    (hsymbol : c.symbol < input.size) (hsingle : pattern[c.token]? ≠ some .run) :
    Scan pattern input where
  token := c.token + 1
  symbol := c.symbol + 1
  last := c.last
  token_le := htoken
  symbol_le := hsymbol
  passed := by
    intro run stop hlast
    obtain ⟨hrun, haligned, hisRun, hbefore⟩ := c.passed run stop hlast
    refine ⟨by omega, by omega, hisRun, fun i hi hi' => ?_⟩
    rcases Nat.lt_succ_iff_lt_or_eq.1 hi' with hlt | rfl
    · exact hbefore i hi hlt
    · exact hsingle

/-- Goes back to the run that was passed last, which takes one symbol more. -/
@[inline] def goBack (c : Scan pattern input) (h : c.symbol < input.size) : Step pattern input :=
  match hlast : c.last with
  | none => .ended false
  | some (run, stop) =>
    have hpassed : Passed pattern run stop c.token c.symbol := c.passed run stop hlast
    .next
      { token := run + 1
        symbol := stop + 1
        last := some (run, stop + 1)
        token_le := Nat.le_trans hpassed.run_lt c.token_le
        symbol_le := by
          have hrun := hpassed.run_lt
          have haligned := hpassed.aligned
          omega
        passed := by
          rintro run' stop' ⟨⟩
          exact ⟨Nat.lt_succ_self _, rfl, hpassed.isRun, fun i hi hi' => by omega⟩ }

/-- One step of a scan. At the end of the input nothing but runs may be left of the pattern. -/
@[inline] def step [DecidableEq α] (c : Scan pattern input) : Step pattern input :=
  if hsymbol : c.symbol < input.size then
    if htoken : c.token < pattern.size then
      match h : pattern[c.token] with
      | .run => .next (c.pass (by rw [Array.getElem?_eq_getElem htoken, h]))
      | .one => .next (c.advance htoken hsymbol (by simp [Array.getElem?_eq_getElem htoken, h]))
      | .literal d =>
        if d = input[c.symbol] then
          .next (c.advance htoken hsymbol (by simp [Array.getElem?_eq_getElem htoken, h]))
        else c.goBack hsymbol
    else c.goBack hsymbol
  else .ended (pattern.all Token.isRun c.token)

/-- What a scan has to go through yet: the runs that it may pass, the symbols that the last of them
may take, and the tokens. Every step leaves less of these, the first of them counting most. -/
def rest (c : Scan pattern input) : Nat × Nat × Nat :=
  match c.last with
  | none => (pattern.size, input.size, pattern.size - c.token)
  | some (run, stop) => (pattern.size - (run + 1), input.size - stop, pattern.size - c.token)

/-- The order in which the rests of scans get smaller. -/
abbrev RestLess : Nat × Nat × Nat → Nat × Nat × Nat → Prop :=
  Prod.Lex (· < ·) (Prod.Lex (· < ·) (· < ·))

theorem rest_pass (c : Scan pattern input) (h : pattern[c.token]? = some .run) :
    RestLess (c.pass h).rest c.rest := by
  have htoken : c.token < pattern.size := (Array.getElem?_eq_some_iff.1 h).1
  unfold rest
  split
  · next hlast => cases hlast
  · next run stop hpass =>
    cases hpass
    apply Prod.Lex.left
    split
    · show _ < pattern.size
      omega
    · next run stop hlast =>
      have hrun := (c.passed run stop hlast).run_lt
      show _ < pattern.size - (run + 1)
      omega

theorem rest_advance (c : Scan pattern input) (htoken : c.token < pattern.size)
    (hsymbol : c.symbol < input.size) (hsingle : pattern[c.token]? ≠ some .run) :
    RestLess (c.advance htoken hsymbol hsingle).rest c.rest := by
  have hless : pattern.size - (c.token + 1) < pattern.size - c.token := by omega
  unfold rest
  rw [show (c.advance htoken hsymbol hsingle).last = c.last from rfl]
  split
  · exact .right _ (.right _ hless)
  · exact .right _ (.right _ hless)

theorem rest_goBack {c d : Scan pattern input} (hsymbol : c.symbol < input.size)
    (h : c.goBack hsymbol = .next d) : RestLess d.rest c.rest := by
  unfold goBack at h
  split at h
  · cases h
  · next run stop hlast =>
    have hrun := (c.passed run stop hlast).run_lt
    have haligned := (c.passed run stop hlast).aligned
    cases h
    have hrest :
        c.rest = (pattern.size - (run + 1), input.size - stop, pattern.size - c.token) := by
      rw [rest, hlast]
    rw [hrest]
    refine .right _ (.left _ _ ?_)
    omega

/-- Every step leaves less to go through. -/
theorem rest_step [DecidableEq α] {c d : Scan pattern input} (h : c.step = .next d) :
    RestLess d.rest c.rest := by
  unfold step at h
  split at h
  · next hsymbol =>
    split at h
    · split at h
      · cases h
        exact rest_pass c _
      · cases h
        exact rest_advance c _ _ _
      · split at h
        · cases h
          exact rest_advance c _ _ _
        · exact rest_goBack hsymbol h
    · exact rest_goBack hsymbol h
  · cases h

/-- What a scan comes to. -/
@[specialize] def verdict [DecidableEq α] (c : Scan pattern input) : Bool :=
  match _h : c.step with
  | .next d => d.verdict
  | .ended verdict => verdict
termination_by c.rest
decreasing_by exact rest_step _h

end Scan

/-- Whether the tokens describe the whole input. -/
@[specialize] def matchesTokens [DecidableEq α] (pattern : List (Token α)) (input : List α) :
    Bool := (Scan.start pattern.toArray input.toArray).verdict

end Glob

/-- A pattern, as written. -/
structure Glob where
  pattern : Bytes
deriving DecidableEq, Repr

namespace Glob

/-- The pattern that describes every input. -/
def any : Glob := ⟨Bytes.ofText "*"⟩

/-- Whether the pattern describes the whole input. -/
def isMatch (g : Glob) (input : Bytes) : Bool :=
  match Text.utf8? g.pattern, Text.utf8? input with
  | some pattern, some text => matchesTokens (tokens '*' '?' pattern.toList) text.toList
  | _, _ => matchesTokens (tokens 0x2A 0x3F g.pattern) input

end Glob

end CacheNode

import RegexEngine.Engine.Captures
import RegexEngine.Engine.Basic

/-!
# Patterns with an engine of their own

The simplest way to use the library: a pattern that brings its own engine.

## Main definitions

* `Regex.Builder` — source, flags and options of a pattern to be made.
* `Regex` — a pattern with its engine.
* `Regex.isMatch`, `Regex.find`, `Regex.captures` — the first match in a text.
* `Regex.Matches` — all matches in a text, one after the other.
-/

namespace RegexEngine

/-- A pattern with an engine of its own. -/
structure Regex where
  record : RecordId
  source : String
  flags : Flags
  /-- The number of capture groups, the whole match not counted. -/
  groups : Nat
  engine : Engine
  deriving Inhabited

namespace Regex

/-- What a pattern is made from. -/
structure Builder where
  source : String
  flags : Flags := .empty
  options : Options := {}
  deriving DecidableEq, Repr, Inhabited

/-- Make the pattern.  Its source is checked; code is made when it is first used. -/
def Builder.build (b : Builder) : Except RegexError Regex :=
  match parse b.source b.flags with
  | .error f => .error f.toError
  | .ok p =>
    let (record, engine) := (Engine.new b.options).get b.source b.flags
    .ok { record, source := b.source, flags := b.flags, groups := p.groups, engine }

/-- A pattern without flags. -/
def new (source : String) : Except RegexError Regex := { source : Builder }.build

/-- A pattern with flag letters. -/
def withLetters (source letters : String) : Except RegexError Regex := do
  let flags ← Flags.parse letters
  { source, flags : Builder }.build

/-- The pattern as text. -/
def display (r : Regex) : String := displayPattern r.source r.flags

/-- The first match at or behind an offset, and the pattern afterwards. -/
def searchAt (r : Regex) (t : Text) (start : Nat) : Except Failure (Option Captures) × Regex :=
  let e := r.engine.execute r.record t start (some { fixed := false })
  let r := { r with engine := e.engine }
  match e.result with
  | .error f => (.error f, r)
  | .ok .notFound => (.ok none, r)
  | .ok .success => (.ok (some ⟨t, (e.buffer.map Buffer.pairs).getD #[]⟩), r)

/-- Whether a text matches. -/
def isMatch (r : Regex) (t : Text) : Except Failure Bool × Regex :=
  let e := r.engine.execute r.record t 0 none
  (e.result.map (· == .success), { r with engine := e.engine })

/-- The first match in a text, with its groups. -/
def captures (r : Regex) (t : Text) : Except Failure (Option Captures) × Regex := r.searchAt t 0

/-- The first match in a text. -/
def find (r : Regex) (t : Text) : Except Failure (Option Span) × Regex :=
  let (found, r) := r.searchAt t 0
  (found.map fun c => c.bind (·.group? 0), r)

/-- The matches in a text that are still to come. -/
structure Matches where
  regex : Regex
  text : Text
  /-- Where the next match is searched for. -/
  resume : Nat := 0
  /-- No match is to come any more. -/
  finished : Bool := false

/-- All matches in a text. -/
def findAll (r : Regex) (t : Text) : Matches := { regex := r, text := t }

namespace Matches

/-- Where the search goes on behind a match: at its end, or one unit further if it is empty. -/
def resumeAfter (s : Span) : Nat := if s.isEmpty then s.stop + 1 else s.stop

/-- The next match or error, and what is to come after it.  Nothing comes after an error. -/
def next (m : Matches) : Option (Except Failure Span) × Matches :=
  if m.finished || m.text.size < m.resume then (none, m)
  else
    match m.regex.searchAt m.text m.resume with
    | (.error f, regex) => (some (.error f), { m with regex, finished := true })
    | (.ok c, regex) =>
      match c.bind (·.group? 0) with
      | none => (none, { m with regex, finished := true })
      | some s => (some (.ok s), { m with regex, resume := resumeAfter s })

/-- The next `n` matches, or all that are left. -/
def take : Nat → Matches → List (Except Failure Span)
  | 0, _ => []
  | n + 1, m =>
    match m.next with
    | (none, _) => []
    | (some s, m) => s :: m.take n

end Matches

end Regex

end RegexEngine

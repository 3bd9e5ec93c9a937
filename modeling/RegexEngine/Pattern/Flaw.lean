import RegexEngine.Error

/-!
# Flaws of pattern texts

What can be wrong with the text of a pattern, and how it is worded.
-/

namespace RegexEngine

/-- Why a text is no pattern. -/
inductive Flaw
  /-- A backslash with nothing behind it. -/
  | trailingBackslash
  /-- A class without its closing bracket. -/
  | unterminatedClass
  /-- A range in a class whose lower end lies above its upper end. -/
  | rangeOutOfOrder
  /-- A quantifier whose lower bound lies above its upper bound. -/
  | boundsOutOfOrder
  /-- A quantifier with nothing in front that it could repeat. -/
  | nothingToRepeat
  /-- A closing parenthesis without an opening one. -/
  | unmatchedClose
  /-- A question mark behind an opening parenthesis that names no kind of group. -/
  | invalidGroup
  /-- An opening parenthesis without a closing one. -/
  | missingClose
  /-- More open groups than may be nested. -/
  | tooDeep
  deriving DecidableEq, Repr, Inhabited

namespace Flaw

/-- The wording of a flaw. -/
def text : Flaw → String
  | trailingBackslash => "\\ at end of pattern"
  | unterminatedClass => "unterminated character class"
  | rangeOutOfOrder => "range out of order in character class"
  | boundsOutOfOrder => "numbers out of order in \x7b\x7d quantifier"
  | nothingToRepeat => "nothing to repeat"
  | unmatchedClose => "unmatched ) in pattern"
  | invalidGroup => "invalid group"
  | missingClose => "missing ) in parenthetical"
  | tooDeep => "regular expression too deeply nested"

end Flaw

/-- A flaw and the place at which it shows, counted in characters. -/
structure FlawAt where
  offset : Nat
  flaw : Flaw
  deriving DecidableEq, Repr, Inhabited

namespace FlawAt

/-- The flaw as an error. -/
def toError (f : FlawAt) : RegexError := .malformed f.offset f.flaw.text

end FlawAt

end RegexEngine

/-!
# Errors

Everything that can go wrong between a pattern text and a finished match, with the wording
of each error in one place.

## Main definitions

* `RegexError` — the causes, with the data that their wording needs.
* `RegexError.message` — the wording.
* `Failure` — an error, or one of the two ways to end without an answer.
-/

namespace RegexEngine

/-- Why an operation was refused. -/
inductive RegexError
  /-- Memory ran out. -/
  | memory
  /-- The pattern text is malformed at the character with this offset. -/
  | malformed (offset : Nat) (text : String)
  /-- No code could be made for a well-formed pattern. -/
  | compilation (text : String)
  /-- A letter that names no flag. -/
  | unknownFlag (letter : Char)
  /-- A flag letter that was given before. -/
  | repeatedFlag (letter : Char)
  /-- A match needed more backtracking entries than its limit allows. -/
  | overRecursed
  /-- The host asked for the match to end. -/
  | interrupted
  /-- An argument that no call may be given. -/
  | badArgument (what : String)
  /-- A state that no call can reach. -/
  | internal (text : String)
  deriving DecidableEq, Repr, Inhabited

namespace RegexError

/-- The wording of an error. -/
def message : RegexError → String
  | memory => "memory allocation failed"
  | malformed offset text => "syntax error at offset " ++ toString offset ++ ": " ++ text
  | compilation text => "compile error: " ++ text
  | unknownFlag letter => "invalid regular expression flag " ++ letter.toString
  | repeatedFlag letter => "duplicate regular expression flag " ++ letter.toString
  | overRecursed => "too much recursion"
  | interrupted => "execution interrupted"
  | badArgument what => "invalid argument: " ++ what
  | internal text => "internal error: " ++ text

/-- Whether the error was raised while a pattern was turned into code.  Such an error comes
back whenever the same pattern is compiled again. -/
def isCompileError : RegexError → Bool
  | malformed .. | compilation .. => true
  | _ => false

/-- Whether the error is about a flag letter. -/
def isFlagError : RegexError → Bool
  | unknownFlag .. | repeatedFlag .. => true
  | _ => false

/-- A flag word has a bit that names no flag. -/
def unknownFlagBits : RegexError := badArgument "unknown flag bits"

/-- A search was to begin behind the end of its text. -/
def startPastEnd : RegexError := badArgument "start offset past end of input"

/-- A text whose offsets would not fit the offsets of a match. -/
def textTooLong : RegexError := badArgument "input longer than i32::MAX units"

/-- An encoded pattern ends before all of it was read. -/
def truncatedData : RegexError := badArgument "truncated regexp data"

/-- The source bytes of an encoded pattern are not UTF-8. -/
def sourceNotUtf8 : RegexError := badArgument "regexp source is not UTF-8"

/-- A source whose byte length does not fit the length field of the encoding. -/
def sourceTooLong : RegexError := badArgument "source too long"

/-- The program of a pattern would exceed the size cap. -/
def programTooLarge : RegexError := compilation "regular expression too large"

/-- A compiled record has no code where it should. -/
def emptySlot : RegexError := internal "code slot empty after compilation"

/-- A match reported offsets that lie outside its text. -/
def offsetsOutOfBounds : RegexError := internal "match offsets out of bounds"

end RegexError

/-- How an operation can end without its answer. -/
inductive Failure
  /-- It was refused. -/
  | error (cause : RegexError)
  /-- The caller broke a precondition: an index out of range, or a buffer of fixed size that
  was asked for another one. -/
  | misuse
  /-- The step budget of the machine ran out before an answer was found. -/
  | outOfSteps
  deriving DecidableEq, Repr, Inhabited

end RegexEngine

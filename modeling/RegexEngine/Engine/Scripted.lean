import RegexEngine.Interrupt
import RegexEngine.Engine.Code

/-!
# Hosts that follow a script

Routines, generators and callbacks whose answers are written down beforehand.  They stand in for
those of a host where one is needed that can be run.

## Main definitions

* `Reply`, `Routine.ofReplies` — a routine with a list of answers.
* `Generator.hosted`, `Generator.refusing` — generators that make such routines, or nothing.
* `Script`, `Script.callback` — a callback with a list of verdicts.
-/

namespace RegexEngine

/-- An answer of a routine. -/
inductive Reply
  /-- The routine has seen the interrupt flag. -/
  | interrupted
  /-- The routine has run out of stack. -/
  | overRecursed
  /-- Everything from the start of the search on matches. -/
  | rest
  /-- Nothing matches. -/
  | miss
  deriving DecidableEq, Repr, Inhabited

/-- What an answer means for a search of `t` from `start` on. -/
def Reply.outcome (r : Reply) (t : Text) (start : Nat) (pairs : Array Pair) : Outcome :=
  match r with
  | .interrupted => .interrupted
  | .overRecursed => .failed (.error .overRecursed)
  | .rest => .matched (pairs.setIfInBounds 0 (.span start t.size))
  | .miss => .noMatch

/-- A routine that gives these answers, and finds nothing when none is left. -/
def Routine.ofReplies (replies : List Reply) : Routine where
  run n _ t start pairs := (replies.getD n .miss).outcome t start pairs

namespace Generator

/-- The generator turns every pattern into a routine with these answers. -/
def hosted (replies : List Reply) : Generator where
  generate _ _ _ _ tables := (.ok (.hosted (.ofReplies replies)), tables)

/-- The generator makes no code, for the reason given. -/
def refusing (text : String) : Generator where
  generate _ _ _ _ tables := (.error (.compilation text), tables)

end Generator

/-- The verdicts of a callback. -/
structure Script where
  /-- The verdicts to come.  When none is left, the callback resumes. -/
  verdicts : List Verdict := []
  /-- The callback raises the flag again as long as a verdict is left. -/
  rearm : Bool := false
  deriving DecidableEq, Repr, Inhabited

/-- The callback that follows a script. -/
def Script.callback (s : Script) : Callback where
  decides n := s.verdicts.getD n .resume
  raises n := s.rearm && n + 1 < s.verdicts.length

end RegexEngine

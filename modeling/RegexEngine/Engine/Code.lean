import RegexEngine.Match.Search
import RegexEngine.Match.Sequence
import RegexEngine.Program.Emit

/-!
# Compiled code

A pattern is compiled to a program of the machine or to a native routine.  A native routine is
a row of unit tests, or one that the host supplies; and the host may supply the generator that
makes the code as well.  What a routine or a generator of the host does is a parameter here.

## Main definitions

* `Routine` — what a routine of the host does, run by run.
* `Code` — compiled code; `Code.search` runs it once.
* `Generator` — what turns a pattern into code.
* `Generator.standard` — the generator that an engine brings along.
-/

namespace RegexEngine

/-- A native routine that the host supplies.  It may remember how often it has been run: its runs
are numbered, the next one with zero.  A run is given the interrupt flag, the text, the offset to
search from and the row of pairs to fill, and comes to an outcome.  It fills the row only if it has
found a match. -/
structure Routine where
  run : Nat → Bool → Text → Nat → Array Pair → Outcome
  deriving Inhabited

namespace Routine

/-- The routine when it has been run once more. -/
def later (r : Routine) : Routine where
  run n := r.run (n + 1)

/-- Run the routine.  The row of pairs keeps its size, whatever is stored in it. -/
def search (r : Routine) (interrupted : Bool) (t : Text) (start : Nat) (pairs : Array Pair) :
    Outcome :=
  match r.run 0 interrupted t start pairs with
  | .matched found => .matched (pairs.mapIdx fun i p => found.getD i p)
  | outcome => outcome

end Routine

/-- Compiled code. -/
inductive Code
  /-- A program of the backtracking machine. -/
  | program (p : Program)
  /-- A row of unit tests. -/
  | sequence (s : Sequence)
  /-- A routine of the host. -/
  | hosted (r : Routine)
  deriving Inhabited

namespace Code

/-- Whether the code runs without the machine. -/
def isNative : Code → Bool
  | program _ => false
  | sequence _ | hosted _ => true

/-- Search a text from an offset on, with the row of pairs to fill.  The code comes back as it
is afterwards: a routine of the host has been run once more. -/
def search (c : Code) (tables : Array CharTable) (limits : Limits) (interrupted : Bool) (t : Text)
    (start : Nat) (pairs : Array Pair) : Outcome × Code :=
  match c with
  | program p =>
    let m : Machine := { program := p, tables, text := t, limits, interrupted }
    (m.search start pairs, c)
  | sequence s => (s.search t start pairs interrupted, c)
  | hosted r => (r.search interrupted t start pairs, hosted r.later)

end Code

/-- What turns patterns into code.  It is handed the tables of a record, and hands back the tables
that the record has from then on.  A generator that remembers is one that is replaced by another
after each use. -/
structure Generator where
  generate : Pattern → Mode → Width → Flags → Array CharTable →
    Except RegexError Code × Array CharTable
  deriving Inhabited

namespace Generator

/-- The generator of an engine: a row of unit tests where `native` is on and the tree is straight,
else a program of at most `maxLength` instructions.  Tables that a program needs are appended. -/
def standard (native : Bool) (maxLength : Nat) : Generator where
  generate p mode width flags tables :=
    match if native then Sequence.lower? p.root flags width else none with
    | some s => (.ok (.sequence s), tables)
    | none =>
      let (r, tables) := p.compile mode width flags tables maxLength
      (r.map Code.program, tables)

theorem generate_standard (native : Bool) (maxLength : Nat) (p : Pattern) (mode : Mode)
    (width : Width) (flags : Flags) (tables : Array CharTable) :
    (standard native maxLength).generate p mode width flags tables =
      match if native then Sequence.lower? p.root flags width else none with
      | some s => (.ok (.sequence s), tables)
      | none =>
        ((p.compile mode width flags tables maxLength).1.map Code.program,
          (p.compile mode width flags tables maxLength).2) := rfl

end Generator

end RegexEngine

import RegexEngine.Match.Machine
import RegexEngine.Match.Pairs

/-!
# Searching with a program

A search tries the positions of a text one after the other until the program accepts.

## Main definitions

* `Outcome` — how a search ends; shared by all kinds of code.
* `Machine.writePairs` — the offsets of a finished match.
* `Machine.search` — the first match from a position on.
-/

namespace RegexEngine

/-- How one search of compiled code ends. -/
inductive Outcome
  /-- There is a match; the pairs hold its offsets. -/
  | matched (pairs : Array Pair)
  /-- There is no match. -/
  | noMatch
  /-- The interrupt flag was seen. -/
  | interrupted
  /-- There is no answer. -/
  | failed (why : Failure)
  deriving DecidableEq, Repr, Inhabited

namespace Stop

/-- The outcome of a search whose run has stopped. -/
def toOutcome : Stop → Outcome
  | interrupted => .interrupted
  | overRecursed => .failed (.error .overRecursed)
  | outOfRange => .failed .misuse
  | outOfSteps => .failed .outOfSteps

end Stop

namespace Machine

/-- The pair of a group: defined if both its slots are and do not lie in reverse. -/
def pairOf (slots : Array (Option Nat)) (group : Nat) : Pair :=
  match slots[2 * group]?, slots[2 * group + 1]? with
  | some (some start), some (some stop) =>
    if start ≤ stop then .span start stop else .undefined
  | _, _ => .undefined

/-- Fill a row of pairs with the offsets in the slots. -/
def writePairs (slots : Array (Option Nat)) (pairs : Array Pair) : Array Pair :=
  pairs.mapIdx fun i _ => pairOf slots i

/-- The next position from `pos` on at which a match can begin.  Nothing can be looked for behind
the end of the text. -/
def candidate? (m : Machine) (pos : Nat) : Except Stop (Option Nat) :=
  match m.program.firstUnit with
  | none => .ok (some pos)
  | some u => if m.text.size < pos then .error .outOfRange else .ok (m.text.findUnit? u pos)

/-- Try the positions from `pos` to `last`, at most `room` of them. -/
def searchFrom (m : Machine) (last : Nat) (pairs : Array Pair) : Nat → Nat → Nat → Outcome
  | 0, _, _ => .noMatch
  | room + 1, pos, failures =>
    match m.candidate? pos with
    | .error s => s.toOutcome
    | .ok none => .noMatch
    | .ok (some pos) =>
      if last < pos then .noMatch
      else if m.interrupted then .interrupted
      else
        match m.attempt pos failures with
        | .accepted _ st => .matched (writePairs st.slots pairs)
        | .failed st => m.searchFrom last pairs room (pos + 1) st.failures
        | .stopped s => s.toOutcome

/-- The first match at or behind `start`, its offsets written into `pairs`. -/
def search (m : Machine) (start : Nat) (pairs : Array Pair) : Outcome :=
  if m.text.size < start then .noMatch
  else
    let last := if m.program.anchored then start else m.text.size
    m.searchFrom last pairs (last - start + 1) start 0

end Machine

end RegexEngine

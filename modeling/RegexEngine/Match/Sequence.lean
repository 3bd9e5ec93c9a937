import RegexEngine.CharSet.Table
import RegexEngine.Flags
import RegexEngine.Match.Anchor
import RegexEngine.Match.Search

/-!
# Straight-line matching

A pattern without groups, loops and alternatives is matched without the machine: it is a row of
unit tests and conditions, which one pass per position checks.

## Main definitions

* `Sequence` — a row of tests.
* `Sequence.lower?` — the row of a tree, if the tree is straight.
* `Sequence.matchesAt` — whether the row matches at a position.
* `Sequence.search` — the first match from a position on.
-/

namespace RegexEngine

/-- A test of one unit, or a condition on the position. -/
inductive SequenceItem
  /-- This unit. -/
  | unit (u : Nat)
  /-- A unit with this canonical form. -/
  | folded (u : Nat)
  /-- Any unit that ends no line. -/
  | any
  /-- A unit of the table, or one outside of it when `negated`. -/
  | inTable (table : CharTable) (negated upToCase : Bool)
  /-- A condition on the position. -/
  | anchor (a : Anchor)
  deriving DecidableEq, Repr, Inhabited

namespace SequenceItem

/-- Whether the item consumes a unit. -/
def consumes : SequenceItem → Bool
  | anchor _ => false
  | _ => true

/-- Whether a consuming item accepts a unit. -/
def accepts (item : SequenceItem) (u : Nat) : Bool :=
  match item with
  | unit c => u == c
  | folded c => canonicalize u == c
  | any => !CodeUnit.isLineTerminator u
  | inTable table negated upToCase =>
    (if upToCase then table.containsFolded u else table.contains u) != negated
  | anchor _ => true

end SequenceItem

/-- A row of tests. -/
structure Sequence where
  items : List SequenceItem
  /-- Only the first position that a search tries can match. -/
  anchored : Bool
  deriving DecidableEq, Repr, Inhabited

namespace Sequence

mutual

/-- Put the items of a tree behind those in `sofar`, which are in reverse, if the tree is
straight. -/
def lowerOnto (folded narrow : Bool) (sofar : List SequenceItem) :
    Node → Option (List SequenceItem)
  | .empty => some sofar
  | .unit u => some ((if folded then .folded (canonicalize u) else .unit u) :: sofar)
  | .any => some (.any :: sofar)
  | .charClass set negated =>
    let table :=
      if folded then CharTable.foldedOfIntervals set else CharTable.ofIntervals set narrow
    some (.inTable table negated folded :: sofar)
  | .anchor a => some (.anchor a :: sofar)
  | .seq items => lowerAllOnto folded narrow sofar items
  | _ => none

/-- Put the items of trees in a row behind those in `sofar`, if all of them are straight. -/
def lowerAllOnto (folded narrow : Bool) (sofar : List SequenceItem) :
    List Node → Option (List SequenceItem)
  | [] => some sofar
  | n :: ns =>
    match lowerOnto folded narrow sofar n with
    | none => none
    | some sofar => lowerAllOnto folded narrow sofar ns

end

/-- The row of a tree for texts of one width, if the tree is straight. -/
def lower? (root : Node) (flags : Flags) (width : Width) : Option Sequence :=
  match lowerOnto flags.ignoreCase (width == .latin1) [] root with
  | none => none
  | some reversed =>
    let items := reversed.reverse
    some ⟨items, items.head? == some (.anchor .inputStart)⟩

/-- The number of units of every match. -/
def matchLength (s : Sequence) : Nat := s.items.countP SequenceItem.consumes

/-- The unit with which every match begins, where the first consuming item is one. -/
def firstUnit (s : Sequence) : Option Nat :=
  match s.items.find? SequenceItem.consumes with
  | some (.unit u) => some u
  | _ => none

/-- Whether the items match one after the other from a position on. -/
def itemsMatch (t : Text) (pos : Nat) : List SequenceItem → Bool
  | [] => true
  | .anchor a :: items => a.holds t pos && itemsMatch t pos items
  | item :: items =>
    match t.unit? pos with
    | none => false
    | some u => item.accepts u && itemsMatch t (pos + 1) items

/-- Whether the row matches at a position. -/
def matchesAt (s : Sequence) (t : Text) (pos : Nat) : Bool := itemsMatch t pos s.items

/-- A row of pairs of which only the first is defined. -/
def writeWhole (start stop : Nat) (pairs : Array Pair) : Array Pair :=
  (pairs.map fun _ => Pair.undefined).setIfInBounds 0 (.span start stop)

/-- The next position from `pos` on at which a match can begin. -/
def candidate? (s : Sequence) (t : Text) (pos : Nat) : Option Nat :=
  match s.firstUnit with
  | none => some pos
  | some u => t.findUnit? u pos

/-- Try the positions from `pos` to `last`, at most `room` of them. -/
def searchFrom (s : Sequence) (t : Text) (interrupted : Bool) (last : Nat) (pairs : Array Pair) :
    Nat → Nat → Outcome
  | 0, _ => .noMatch
  | room + 1, pos =>
    match s.candidate? t pos with
    | none => .noMatch
    | some pos =>
      if last < pos then .noMatch
      else if interrupted then .interrupted
      else if s.matchesAt t pos then .matched (writeWhole pos (pos + s.matchLength) pairs)
      else s.searchFrom t interrupted last pairs room (pos + 1)

/-- The first match at or behind `start`, its offsets written into `pairs`.  Behind the last
position that leaves room for a match none is tried. -/
def search (s : Sequence) (t : Text) (start : Nat) (pairs : Array Pair) (interrupted : Bool) :
    Outcome :=
  if t.size < start then .noMatch
  else
    let last := if s.anchored then start else t.size - s.matchLength
    s.searchFrom t interrupted last pairs (last + 1 - start) start

end Sequence

end RegexEngine

import RegexEngine.CharSet.Interval
import RegexEngine.CodeUnit.Fold

/-!
# Character tables

The form in which a compiled class is looked up: one bit for each unit below `0x100`, and
intervals for the units above.

## Main definitions

* `CharTable.ofIntervals` — the table of a set; a narrow one keeps the low part only.
* `CharTable.foldedOfIntervals` — the table of the canonical forms of a set's units.
* `CharTable.contains`, `CharTable.containsFolded` — the two ways to look a unit up.
-/

namespace RegexEngine

/-- A set of units: `low` has a bit for each unit below `0x100`, `high` the sorted intervals of
the others. -/
structure CharTable where
  low : Array Bool
  high : Array Interval
  deriving DecidableEq, Repr, Inhabited

namespace CharTable

/-- The number of units that have a bit of their own. -/
def lowSize : Nat := 0x100

/-- The part of an interval that lies above the low units, if any. -/
def highPart (i : Interval) : Option Interval :=
  if lowSize ≤ i.hi then some ⟨max i.lo lowSize, i.hi⟩ else none

/-- Set the bits of an interval's units, as far as they have one. -/
def setBits (bits : Array Bool) (i : Interval) : Array Bool :=
  Nat.fold (min i.hi (lowSize - 1) + 1 - i.lo)
    (fun k _ bits => bits.setIfInBounds (i.lo + k) true) bits

/-- The table of a set.  A narrow table drops all units above `0xFF`, which no Latin-1 text
has. -/
def ofIntervals (is : List Interval) (narrow : Bool) : CharTable where
  low := is.foldl setBits (Array.replicate lowSize false)
  high := if narrow then #[] else (Interval.normalize (is.filterMap highPart)).toArray

/-- Whether a unit belongs to the table's set. -/
def contains (t : CharTable) (u : Nat) : Bool :=
  if u < lowSize then t.low.getD u false else Interval.bisect t.high u

/-! ### Folded tables -/

/-- The canonical forms of the units of a set, in the order of the set. -/
def forms (is : List Interval) : Array Nat :=
  is.foldl (fun us i =>
    Nat.fold (min i.hi CodeUnit.maxUnit + 1 - i.lo)
      (fun k _ us => us.push (canonicalize (i.lo + k))) us) #[]

/-- The maximal runs of marked units below `n`, in front of the runs `above` of those from `n`
on. -/
def runs (marks : Array Bool) : Nat → List Interval → List Interval
  | 0, above => above
  | n + 1, above =>
    if marks.getD n false then
      match above with
      | [] => runs marks n [⟨n, n⟩]
      | next :: rest =>
        if next.lo = n + 1 then runs marks n (⟨n, next.hi⟩ :: rest)
        else runs marks n (⟨n, n⟩ :: next :: rest)
    else runs marks n above

/-- The canonical forms of the units of a set, as intervals in normal form. -/
def foldedIntervals (is : List Interval) : List Interval :=
  let us := forms is
  let size := us.foldl max 0 + 1
  runs (us.foldl (·.setIfInBounds · true) (Array.replicate size false)) size []

/-- The table of the canonical forms of a set's units. -/
def foldedOfIntervals (is : List Interval) : CharTable := ofIntervals (foldedIntervals is) false

/-- Whether a unit equals one of the set's units up to case.  For tables made by
`foldedOfIntervals`. -/
def containsFolded (t : CharTable) (u : Nat) : Bool := t.contains (canonicalize u)

/-- The low part as eight words of 32 bits, the bit of the smallest unit first. -/
def words (t : CharTable) : List Nat :=
  (List.range 8).map fun w =>
    (List.range 32).foldl
      (fun word b => if t.low.getD (32 * w + b) false then word + 1 <<< b else word) 0

end CharTable

end RegexEngine

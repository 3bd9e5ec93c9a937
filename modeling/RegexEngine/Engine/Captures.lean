import RegexEngine.Match.Pairs
import RegexEngine.Text

/-!
# Match results

What a caller sees of a match: the span of the whole match and of each group in the text that
was searched.

## Main definitions

* `Span` — a part of a text.
* `Captures` — the spans of a match and of its groups.
* `ResultField` — the named fields of a match result.
-/

namespace RegexEngine

/-- A part of a text. -/
structure Span where
  text : Text
  start : Nat
  stop : Nat
  deriving DecidableEq, Inhabited

namespace Span

/-- The part of a text that a pair delimits, unless the pair is undefined. -/
def ofPair? (t : Text) (p : Pair) : Option Span :=
  if p.isUndefined then none else some ⟨t, p.start.toNat, p.limit.toNat⟩

/-- The number of units. -/
def length (s : Span) : Nat := s.stop - s.start

/-- Whether the part is empty. -/
def isEmpty (s : Span) : Bool := s.start == s.stop

/-- The part as a string. -/
def toString (s : Span) : String := s.text.between s.start s.stop

end Span

/-- A match in a text, with its groups.  Group 0 is the whole match. -/
structure Captures where
  text : Text
  pairs : Array Pair
  deriving DecidableEq, Inhabited

namespace Captures

/-- The number of groups, the whole match included. -/
def size (c : Captures) : Nat := c.pairs.size

/-- Whether there is no group at all. -/
def isEmpty (c : Captures) : Bool := c.size == 0

/-- The span of a group, if there is such a group and it took part in the match. -/
def group? (c : Captures) (i : Nat) : Option Span := c.pairs[i]?.bind (Span.ofPair? c.text)

/-- The spans of all groups in order. -/
def groups (c : Captures) : List (Option Span) := c.pairs.toList.map (Span.ofPair? c.text)

/-- Where the whole match begins. -/
def index (c : Captures) : Nat := (c.pairs.getD 0 Pair.undefined).start.toNat

/-- The range of a group as it is shown to people who look for a fault. -/
def describeGroup : Option Span → String
  | none => "None"
  | some s => "Some(" ++ ToString.toString s.start ++ ".." ++ ToString.toString s.stop ++ ")"

/-- The ranges of all groups as they are shown to people who look for a fault. -/
def describe (c : Captures) : String :=
  "[" ++ ", ".intercalate (c.groups.map describeGroup) ++ "]"

end Captures

/-- The named fields of a match result. -/
inductive ResultField
  /-- Where the match begins. -/
  | index
  /-- The text that was searched. -/
  | input
  deriving DecidableEq, Repr, Inhabited

namespace ResultField

/-- The fields in the order of their slots. -/
def all : List ResultField := [index, input]

/-- The name of a field. -/
def name : ResultField → String
  | index => "index"
  | input => "input"

/-- The slot of the field with a given name. -/
def slotOf (name : String) : Option Nat := all.findIdx? (·.name == name)

/-- The field with a given name. -/
def ofName (name : String) : Option ResultField := all.find? (·.name == name)

end ResultField

end RegexEngine

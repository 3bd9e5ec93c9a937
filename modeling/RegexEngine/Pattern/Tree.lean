import RegexEngine.CharSet.Interval

/-!
# Pattern trees

The tree of a pattern, and what can be read off it without matching anything.

## Main definitions

* `Node` — the trees.
* `Pattern` — a tree with the number of its capture groups.
* `Node.groupSpan` — the interval of the group numbers inside a tree.
* `Node.canBeEmpty` — whether a tree may match without consuming a unit.
* `Node.firstUnit`, `Node.startsAtInputStart` — what is known of the first unit and the start
  of every match.
-/

namespace RegexEngine

/-- A condition on a position of the text. -/
inductive Anchor
  /-- The text begins here. -/
  | inputStart
  /-- The text ends here. -/
  | inputEnd
  /-- A line begins here. -/
  | lineStart
  /-- A line ends here. -/
  | lineEnd
  /-- Exactly one of the two neighbouring units belongs to a word. -/
  | wordBoundary
  /-- Both or none of the two neighbouring units belong to a word. -/
  | notWordBoundary
  deriving DecidableEq, Repr, Inhabited

/-- The trees of patterns. -/
inductive Node
  /-- The empty text. -/
  | empty
  /-- One unit. -/
  | unit (u : Nat)
  /-- Any unit that ends no line. -/
  | any
  /-- A unit of the set, or outside of it when `negated`. -/
  | charClass (set : List Interval) (negated : Bool)
  /-- A condition on the position. -/
  | anchor (a : Anchor)
  /-- The text that a group has matched. -/
  | backRef (group : Nat)
  /-- A numbered group that captures what it matches. -/
  | group (index : Nat) (body : Node)
  /-- What follows matches `body`, or does not when `negated`. -/
  | look (negated : Bool) (body : Node)
  /-- `body` again and again, at least `lower` and at most `upper` times. -/
  | rep (lower : Nat) (upper : Option Nat) (greedy : Bool) (body : Node)
  /-- All of the items, one after the other. -/
  | seq (items : List Node)
  /-- One of the items, the earlier ones preferred. -/
  | alt (items : List Node)
  deriving Repr, Inhabited, BEq

/-- A parsed pattern. -/
structure Pattern where
  root : Node
  /-- The number of capture groups, the whole match not counted. -/
  groups : Nat
  deriving Repr, Inhabited, BEq

namespace Pattern

/-- The pattern that matches where `p` does, but only at the start of the text. -/
def anchored (p : Pattern) : Pattern where
  root := .seq [.anchor .inputStart, p.root]
  groups := p.groups

end Pattern

/-- The least interval around two intervals of group numbers, upper ends excluded. -/
def joinSpans : Option (Nat × Nat) → Option (Nat × Nat) → Option (Nat × Nat)
  | none, s => s
  | s, none => s
  | some (a, b), some (c, d) => some (min a c, max b d)

namespace Node

mutual

/-- Whether a capture group occurs in the tree. -/
def hasGroups : Node → Bool
  | group .. => true
  | look _ body => body.hasGroups
  | rep _ _ _ body => body.hasGroups
  | seq items => anyHasGroups items
  | alt items => anyHasGroups items
  | _ => false

/-- Whether a capture group occurs in one of the trees. -/
def anyHasGroups : List Node → Bool
  | [] => false
  | n :: ns => n.hasGroups || anyHasGroups ns

end

mutual

/-- The least interval that holds the numbers of all groups in the tree, its upper end
excluded. -/
def groupSpan : Node → Option (Nat × Nat)
  | group index body => joinSpans (some (index, index + 1)) body.groupSpan
  | look _ body => body.groupSpan
  | rep _ _ _ body => body.groupSpan
  | seq items => groupSpans items
  | alt items => groupSpans items
  | _ => none

/-- The least interval that holds the numbers of all groups in the trees. -/
def groupSpans : List Node → Option (Nat × Nat)
  | [] => none
  | n :: ns => joinSpans n.groupSpan (groupSpans ns)

end

mutual

/-- Whether the tree may match without consuming a unit. -/
def canBeEmpty : Node → Bool
  | empty | anchor _ | look .. | backRef _ => true
  | unit _ | any | charClass .. => false
  | group _ body => body.canBeEmpty
  | rep lower _ _ body => lower == 0 || body.canBeEmpty
  | seq items => allCanBeEmpty items
  | alt items => anyCanBeEmpty items

/-- Whether all of the trees may match without consuming a unit. -/
def allCanBeEmpty : List Node → Bool
  | [] => true
  | n :: ns => n.canBeEmpty && allCanBeEmpty ns

/-- Whether one of the trees may match without consuming a unit. -/
def anyCanBeEmpty : List Node → Bool
  | [] => false
  | n :: ns => n.canBeEmpty || anyCanBeEmpty ns

end

mutual

/-- Whether a back-reference occurs in the tree. -/
def hasBackRefs : Node → Bool
  | backRef _ => true
  | group _ body => body.hasBackRefs
  | look _ body => body.hasBackRefs
  | rep _ _ _ body => body.hasBackRefs
  | seq items => anyHasBackRefs items
  | alt items => anyHasBackRefs items
  | _ => false

/-- Whether a back-reference occurs in one of the trees. -/
def anyHasBackRefs : List Node → Bool
  | [] => false
  | n :: ns => n.hasBackRefs || anyHasBackRefs ns

end

mutual

/-- The unit with which every match begins, where one is known. -/
def firstUnit : Node → Option Nat
  | unit u => some u
  | group _ body => body.firstUnit
  | rep lower _ _ body => if 0 < lower then body.firstUnit else none
  | seq items => firstUnitOfAll items
  | _ => none

/-- The unit with which every match of the trees in a row begins.  Conditions consume nothing
and are passed over; behind any other tree that can be empty nothing is known. -/
def firstUnitOfAll : List Node → Option Nat
  | [] => none
  | n :: ns =>
    match n with
    | anchor _ | look .. | empty => firstUnitOfAll ns
    | _ => if n.canBeEmpty then none else n.firstUnit

end

mutual

/-- Whether every match begins at the start of the text, as far as the first item shows. -/
def startsAtInputStart : Node → Bool
  | anchor .inputStart => true
  | group _ body => body.startsAtInputStart
  | seq items => headStartsAtInputStart items
  | _ => false

/-- Whether there is a first tree and it matches at the start of the text only. -/
def headStartsAtInputStart : List Node → Bool
  | [] => false
  | n :: _ => n.startsAtInputStart

end

end Node

end RegexEngine

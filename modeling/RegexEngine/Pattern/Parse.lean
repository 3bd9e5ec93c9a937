import RegexEngine.Flags
import RegexEngine.Pattern.Token

/-!
# Reading patterns

The tokens of a pattern are read from left to right.  What has been read so far is kept as the
alternatives of the innermost open group and, outside of it, those of the groups around it.

## Main definitions

* `Branches` — the alternatives of one group, as far as they have been read.
* `Reader`, `Reader.step` — the state of reading, and one token's effect on it.
* `parse` — the tree of a pattern text.
* `checkSource` — whether a text is a pattern.
-/

namespace RegexEngine

/-- The alternatives of a group: the finished ones and the items of the last one, both in
reverse. -/
structure Branches where
  finished : List Node := []
  items : List Node := []
  deriving Repr, Inhabited, BEq

namespace Branches

/-- Append an item to the last alternative. -/
def push (b : Branches) (n : Node) : Branches := { b with items := n :: b.items }

/-- The tree of the last alternative. -/
def last (b : Branches) : Node :=
  match b.items with
  | [] => .empty
  | [n] => n
  | ns => .seq ns.reverse

/-- Begin another alternative. -/
def next (b : Branches) : Branches := ⟨b.last :: b.finished, []⟩

/-- The tree of all alternatives. -/
def node (b : Branches) : Node :=
  match b.finished with
  | [] => b.last
  | ns => .alt (b.last :: ns).reverse

end Branches

/-- An open group: what it makes of its body, where its parenthesis stands, and the alternatives
around it. -/
structure OpenGroup where
  wrap : GroupKind
  index : Nat
  offset : Nat
  around : Branches
  deriving Repr, Inhabited, BEq

namespace OpenGroup

/-- The tree of a group with a given body. -/
def node (g : OpenGroup) (body : Node) : Node :=
  match g.wrap with
  | .capture => .group g.index body
  | .plain => body
  | .look negated => .look negated body

end OpenGroup

/-- How far a pattern has been read. -/
structure Reader where
  /-- The alternatives of the innermost open group. -/
  branches : Branches := {}
  /-- The last item, as long as a quantifier may still follow it. -/
  pending : Option Node := none
  /-- The open groups, the innermost first. -/
  groups : List OpenGroup := []
  /-- The number of capture groups opened so far. -/
  count : Nat := 0
  deriving Repr, Inhabited, BEq

namespace Reader

/-- How many groups may be open at once. -/
def maxDepth : Nat := 256

/-- Fix the last item: no quantifier follows it. -/
def settle (r : Reader) : Reader :=
  match r.pending with
  | none => r
  | some n => { r with branches := r.branches.push n, pending := none }

/-- Append an item that a quantifier may follow. -/
def hold (r : Reader) (n : Node) : Reader := { r.settle with pending := some n }

/-- Append an item that no quantifier may follow. -/
def append (r : Reader) (n : Node) : Reader :=
  { r.settle with branches := r.settle.branches.push n }

/-- Open a group. -/
def openGroup (r : Reader) (kind : GroupKind) (offset : Nat) : Reader :=
  let r := r.settle
  let count := if kind = .capture then r.count + 1 else r.count
  { branches := {}, groups := ⟨kind, count, offset, r.branches⟩ :: r.groups, count }

/-- Read one token. -/
def step (multiline : Bool) (r : Reader) (lexeme : Lexeme) : Except FlawAt Reader :=
  match lexeme.token with
  | .atom n => .ok (r.hold n)
  | .surrogates lead trail => .ok ((r.append (.unit lead)).hold (.unit trail))
  | .caret => .ok (r.append (.anchor (if multiline then .lineStart else .inputStart)))
  | .dollar => .ok (r.append (.anchor (if multiline then .lineEnd else .inputEnd)))
  | .boundary negated =>
    .ok (r.append (.anchor (if negated then .notWordBoundary else .wordBoundary)))
  | .quantifier lower upper greedy =>
    match r.pending with
    | none => .error ⟨lexeme.offset, .nothingToRepeat⟩
    | some n =>
      .ok { r with branches := r.branches.push (.rep lower upper greedy n), pending := none }
  | .opening kind =>
    if maxDepth ≤ r.groups.length then .error ⟨lexeme.offset + 1, .tooDeep⟩
    else
      match kind with
      | none => .error ⟨lexeme.offset, .invalidGroup⟩
      | some kind => .ok (r.openGroup kind lexeme.offset)
  | .closing =>
    match r.groups with
    | [] => .error ⟨lexeme.offset, .unmatchedClose⟩
    | g :: groups =>
      .ok { r with branches := g.around, pending := some (g.node r.settle.branches.node), groups }
  | .bar => .ok { r.settle with branches := r.settle.branches.next }
  | .flaw ahead f => .error ⟨lexeme.offset + ahead, f⟩

/-- The pattern that has been read, when no group is open any more. -/
def finish (r : Reader) : Except FlawAt Pattern :=
  match r.groups with
  | [] => .ok ⟨r.settle.branches.node, r.count⟩
  | g :: _ => .error ⟨g.offset, .missingClose⟩

end Reader

/-- The tree of a pattern text.  Of the flags only `multiline` counts: it decides what `^` and
`$` mean. -/
def parse (source : String) (flags : Flags) : Except FlawAt Pattern := do
  let r ← (Lexeme.ofText source.toList).foldlM (Reader.step flags.multiline) {}
  r.finish

/-- Whether a text is a pattern, under any flags. -/
def checkSource (source : String) : Except FlawAt Unit :=
  (parse source .empty).map fun _ => ()

end RegexEngine

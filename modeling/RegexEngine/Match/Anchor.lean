import RegexEngine.Pattern.Tree
import RegexEngine.Text

/-!
# Conditions on positions

When a condition of a pattern holds at a position of a text.
-/

namespace RegexEngine

namespace Text

/-- Whether a unit of a word stands at an offset. -/
def wordAt (t : Text) (i : Nat) : Bool := (t.unit? i).any CodeUnit.isWord

/-- Whether a unit of a word stands in front of a position. -/
def wordBefore (t : Text) (pos : Nat) : Bool := 0 < pos && t.wordAt (pos - 1)

/-- Whether a line terminator stands at an offset. -/
def lineEndAt (t : Text) (i : Nat) : Bool := (t.unit? i).any CodeUnit.isLineTerminator

end Text

namespace Anchor

/-- Whether the condition holds at a position. -/
def holds (a : Anchor) (t : Text) (pos : Nat) : Bool :=
  match a with
  | inputStart => pos == 0
  | inputEnd => pos == t.size
  | lineStart => pos == 0 || t.lineEndAt (pos - 1)
  | lineEnd => pos == t.size || t.lineEndAt pos
  | wordBoundary => t.wordBefore pos != t.wordAt pos
  | notWordBoundary => t.wordBefore pos == t.wordAt pos

end Anchor

end RegexEngine

import RegexEngine.Text

/-!
# Literals

A source without special characters is searched for as it is.  Its units are kept once for each
width of texts.

## Main definitions

* `Literal` — the units to search for.
* `Literal.ofSource`, `Literal.find?` — the literal of a source, and the place of its first
  occurrence.
-/

namespace RegexEngine

/-- The units to search for in texts of each width. -/
structure Literal where
  /-- The units in Latin-1 texts.  There are none if some character has no Latin-1 unit. -/
  latin1 : Option (Array Nat)
  /-- The units in UTF-16 texts. -/
  twoByte : Array Nat
  deriving DecidableEq, Repr, Inhabited

namespace Literal

/-- The literal of a source. -/
def ofSource (source : String) : Literal where
  latin1 :=
    if source.toList.all fun c => c.toNat ≤ 0xFF then some (source.toList.map Char.toNat).toArray
    else none
  twoByte := Text.unitsOfString source

/-- The number of units of an occurrence. -/
def size (l : Literal) : Nat := l.twoByte.size

/-- The offset of the first occurrence at or behind `start`. -/
def find? (l : Literal) (t : Text) (start : Nat) : Option Nat :=
  match t.width with
  | .latin1 =>
    match l.latin1 with
    | none => none
    | some units => t.find? units start
  | .twoByte => t.find? l.twoByte start

end Literal

end RegexEngine

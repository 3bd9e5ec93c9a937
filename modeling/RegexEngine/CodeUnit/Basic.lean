/-!
# Code units

Texts and patterns are sequences of code units: UTF-16 units, or Latin-1 units, which have the
same values below `0x100`.  A unit is a natural number; a pattern may also name values above
`maxUnit`, which no unit of a text equals.

## Main definitions

* `isWord`, `isLineTerminator` — the two classes that assertions and `.` look at.
* `ofChar` — the one or two units of a character.
* `decode` — units read back as characters, with a replacement for each lone surrogate.
-/

namespace RegexEngine

namespace CodeUnit

/-- The greatest unit of a text. -/
def maxUnit : Nat := 0xFFFF

/-- The units that end a line. -/
def isLineTerminator (u : Nat) : Bool := u == 0x0A || u == 0x0D || u == 0x2028 || u == 0x2029

/-- The units of words: ASCII letters, digits and the underscore. -/
def isWord (u : Nat) : Bool :=
  (0x30 ≤ u && u ≤ 0x39) || (0x41 ≤ u && u ≤ 0x5A) || u == 0x5F || (0x61 ≤ u && u ≤ 0x7A)

/-! ### Characters as units -/

/-- The leading and the trailing unit of a code point above `maxUnit`. -/
def surrogates (c : Nat) : Nat × Nat :=
  (0xD800 + (c - 0x10000) / 0x400, 0xDC00 + (c - 0x10000) % 0x400)

/-- The units of a character: itself, or a surrogate pair. -/
def ofChar (c : Char) : List Nat :=
  if c.toNat ≤ maxUnit then [c.toNat] else [(surrogates c.toNat).1, (surrogates c.toNat).2]

/-- The units that open a surrogate pair. -/
def isLead (u : Nat) : Bool := 0xD800 ≤ u && u < 0xDC00

/-- The units that close a surrogate pair. -/
def isTrail (u : Nat) : Bool := 0xDC00 ≤ u && u < 0xE000

/-- The code point of a surrogate pair. -/
def joinSurrogates (lead trail : Nat) : Nat := 0x10000 + (lead - 0xD800) * 0x400 + (trail - 0xDC00)

/-- The character of a unit that stands alone.  A lone surrogate has none and is replaced. -/
def alone (u : Nat) : Char := if isLead u || isTrail u then Char.ofNat 0xFFFD else Char.ofNat u

/-- Read units as characters: a lead and the trail after it are one character, every other
surrogate becomes U+FFFD. -/
def decode : List Nat → List Char
  | [] => []
  | [u] => [alone u]
  | u :: v :: rest =>
    if isLead u && isTrail v then Char.ofNat (joinSurrogates u v) :: decode rest
    else alone u :: decode (v :: rest)

@[simp] theorem decode_nil : decode [] = [] := rfl

@[simp] theorem decode_singleton (u : Nat) : decode [u] = [alone u] := rfl

end CodeUnit

end RegexEngine

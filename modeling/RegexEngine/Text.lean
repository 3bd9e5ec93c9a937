import RegexEngine.CodeUnit.Basic

/-!
# Texts

The texts that patterns are matched against: sequences of code units of one of two widths.
All offsets count units.

## Main definitions

* `Width` — Latin-1 units or UTF-16 units.
* `Text` — the texts; every unit fits the width.
* `Text.ofString` — the narrowest text of a string.
* `Text.drop`, `Text.find?` — a tail of a text, and the place of a sequence of units in it.
* `Text.between` — a part of a text as a string.
-/

namespace RegexEngine

/-- The width of the units of a text. -/
inductive Width
  /-- Units below `0x100`. -/
  | latin1
  /-- Units below `0x10000`. -/
  | twoByte
  deriving DecidableEq, Repr, Inhabited

namespace Width

/-- All units of a text of this width lie below the bound. -/
def bound : Width → Nat
  | latin1 => 0x100
  | twoByte => 0x10000

theorem le_twoByte (w : Width) : w.bound ≤ twoByte.bound := by cases w <;> decide

end Width

/-- A sequence of units of one width. -/
structure Text where
  width : Width
  units : Array Nat
  fits : ∀ u ∈ units, u < width.bound

namespace Text

theorem ext {s t : Text} (hw : s.width = t.width) (hu : s.units = t.units) : s = t := by
  cases s; cases t; cases hw; cases hu; rfl

instance : DecidableEq Text := fun s t =>
  if h : s.width = t.width ∧ s.units = t.units then isTrue (ext h.1 h.2)
  else isFalse fun e => h (by cases e; exact ⟨rfl, rfl⟩)

/-- The text of given units, each cut down to the width. -/
def ofUnits (w : Width) (units : Array Nat) : Text where
  width := w
  units := units.map (· % w.bound)
  fits := by
    intro u hu
    obtain ⟨v, _, rfl⟩ := Array.mem_map.1 hu
    exact Nat.mod_lt _ (by cases w <;> decide)

instance : Inhabited Text := ⟨ofUnits .latin1 #[]⟩

/-- The number of units. -/
def size (t : Text) : Nat := t.units.size

/-- Whether the text has no unit. -/
def isEmpty (t : Text) : Bool := t.size == 0

/-- The unit at an offset, if the offset lies in the text. -/
def unit? (t : Text) (i : Nat) : Option Nat := t.units[i]?

/-- The same units as UTF-16 units. -/
def widen (t : Text) : Text where
  width := .twoByte
  units := t.units
  fits u hu := Nat.lt_of_lt_of_le (t.fits u hu) t.width.le_twoByte

/-- The text from an offset on. -/
def drop (t : Text) (start : Nat) : Text where
  width := t.width
  units := t.units.extract start t.units.size
  fits u hu := by
    obtain ⟨k, hk, rfl⟩ := Array.mem_extract_iff_getElem.1 hu
    exact t.fits _ (Array.getElem_mem _)

@[simp] theorem size_drop (t : Text) (start : Nat) : (t.drop start).size = t.size - start := by
  simp [size, drop]

/-! ### Strings -/

/-- The units of a string. -/
def unitsOfString (s : String) : Array Nat := (s.toList.flatMap CodeUnit.ofChar).toArray

/-- The text of a string as UTF-16 units. -/
def wideOfString (s : String) : Text := ofUnits .twoByte (unitsOfString s)

/-- The text of a string: Latin-1 units if every character has one, else UTF-16 units. -/
def ofString (s : String) : Text :=
  if s.toList.all fun c => c.toNat ≤ 0xFF then ofUnits .latin1 (unitsOfString s)
  else wideOfString s

/-- The part of a text from `start` to `stop` as a string.  Latin-1 units are the characters
with their values; a lone surrogate of a UTF-16 text becomes U+FFFD. -/
def between (t : Text) (start stop : Nat) : String :=
  let units := (t.units.extract start stop).toList
  match t.width with
  | .latin1 => String.ofList (units.map Char.ofNat)
  | .twoByte => String.ofList (CodeUnit.decode units)

/-! ### Searching -/

/-- Whether the units of `needle` from its index `k` on stand in the text from `i` on. -/
def hasFrom (t : Text) (needle : Array Nat) (i : Nat) : Nat → Bool
  | 0 => true
  | k + 1 =>
    let j := needle.size - (k + 1)
    t.unit? (i + j) == needle[j]? && t.hasFrom needle i k

/-- Whether the units of `needle` stand in the text from `i` on. -/
def hasAt (t : Text) (needle : Array Nat) (i : Nat) : Bool := t.hasFrom needle i needle.size

/-- The first of the `n` offsets from `i` on that satisfies `p`. -/
def firstFrom (p : Nat → Bool) : Nat → Nat → Option Nat
  | 0, _ => none
  | n + 1, i => if p i then some i else firstFrom p n (i + 1)

/-- The offset of the first unit equal to `u` at or behind `start`.  A Latin-1 text is not looked
through for a unit that it cannot have. -/
def findUnit? (t : Text) (u start : Nat) : Option Nat :=
  if t.width = .latin1 ∧ Width.latin1.bound ≤ u then none
  else firstFrom (fun i => t.unit? i == some u) (t.size - start) start

/-- The offset of the first occurrence of `needle` at or behind `start`. -/
def find? (t : Text) (needle : Array Nat) (start : Nat) : Option Nat :=
  if t.size < start then none else firstFrom (t.hasAt needle) (t.size - start + 1) start

end Text

end RegexEngine

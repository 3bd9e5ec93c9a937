import RegexEngine.CharSet.Interval

/-!
# Numbers and escapes

The small readers of pattern texts.  Each looks at the characters from some point on and
answers with what they mean and how many of them it used.

## Main definitions

* `decimal` — a decimal number that stops growing at `maxNumber`.
* `hexadecimal?`, `octal` — the numbers inside escapes.
* `charEscape` — an escape that stands for one unit.
* `classEscape?` — an escape that stands for a set of units.
* `bounds?` — the bounds of a quantifier in braces.
-/

namespace RegexEngine

namespace Escape

/-- The greatest number that a pattern can express; greater ones are cut down to it. -/
def maxNumber : Nat := 0xFFFFFFFF

/-- The value of a decimal digit. -/
def digitValue (c : Char) : Nat := c.toNat - '0'.toNat

/-- The value of a hexadecimal digit. -/
def hexValue? (c : Char) : Option Nat :=
  if '0' ≤ c ∧ c ≤ '9' then some (c.toNat - '0'.toNat)
  else if 'a' ≤ c ∧ c ≤ 'f' then some (c.toNat - 'a'.toNat + 10)
  else if 'A' ≤ c ∧ c ≤ 'F' then some (c.toNat - 'A'.toNat + 10)
  else none

/-- The decimal number at the front, and the number of its digits.  Without a digit both are
zero. -/
def decimal (s : List Char) : Nat × Nat :=
  let digits := s.takeWhile Char.isDigit
  (digits.foldl (fun v c => min (10 * v + digitValue c) maxNumber) 0, digits.length)

/-- The number made of exactly `n` hexadecimal digits, if as many stand at the front. -/
def hexadecimal? : Nat → Nat → List Char → Option Nat
  | 0, v, _ => some v
  | _ + 1, _, [] => none
  | n + 1, v, c :: s =>
    match hexValue? c with
    | some d => hexadecimal? n (16 * v + d) s
    | none => none

/-- Read at most `room` more octal digits, as long as the value stays below `0x100`.  The
answer is the value and the number of digits, with `v` and `used` read before. -/
def octal (room v used : Nat) : List Char → Nat × Nat
  | [] => (v, used)
  | c :: s =>
    match room with
    | 0 => (v, used)
    | room + 1 =>
      if '0' ≤ c ∧ c ≤ '7' ∧ 8 * v + digitValue c ≤ 0xFF then
        octal room (8 * v + digitValue c) (used + 1) s
      else (v, used)

/-- The control characters that have a letter of their own. -/
def controlLetter? : Char → Option Nat
  | 'n' => some 0x0A
  | 'r' => some 0x0D
  | 't' => some 0x09
  | 'v' => some 0x0B
  | 'f' => some 0x0C
  | _ => none

/-- Whether `\c` may be followed by this character.  Classes admit more than letters. -/
def isControlName (inClass : Bool) (c : Char) : Bool :=
  c.isAlpha || (inClass && (c.isDigit || c == '_'))

/-- The unit that a backslash followed by `c` and `s` stands for, and how many characters
behind the backslash belong to the escape.  A `\c` that names no control character is a plain
backslash, and the `c` is read again. -/
def charEscape (inClass : Bool) (c : Char) (s : List Char) : Nat × Nat :=
  match controlLetter? c with
  | some u => (u, 1)
  | none =>
    if c = 'b' ∧ inClass then (0x08, 1)
    else if c = 'c' then
      match s with
      | [] => (0x5C, 0)
      | l :: _ => if isControlName inClass l then (l.toNat % 32, 2) else (0x5C, 0)
    else if c = 'x' then
      match hexadecimal? 2 0 s with
      | some u => (u, 3)
      | none => (c.toNat, 1)
    else if c = 'u' then
      match hexadecimal? 4 0 s with
      | some u => (u, 5)
      | none => (c.toNat, 1)
    else if '0' ≤ c ∧ c ≤ '7' then octal 3 0 0 (c :: s)
    else (c.toNat, 1)

/-- The set that an escape letter stands for. -/
def classEscape? : Char → Option (List Interval)
  | 'd' => some (Interval.normalize Interval.digits)
  | 'D' => some (Interval.normalize (Interval.complement Interval.digits))
  | 'w' => some (Interval.normalize Interval.wordUnits)
  | 'W' => some (Interval.normalize (Interval.complement Interval.wordUnits))
  | 's' => some (Interval.normalize Interval.spaces)
  | 'S' => some (Interval.normalize (Interval.complement Interval.spaces))
  | _ => none

/-- The bounds of a quantifier whose opening brace has been read: the lower bound, the upper
one if there is one, and the number of characters up to the closing brace. -/
def bounds? (s : List Char) : Option (Nat × Option Nat × Nat) :=
  let (lower, n) := decimal s
  if n = 0 then none
  else
    match s.drop n with
    | '}' :: _ => some (lower, some lower, n + 1)
    | ',' :: t =>
      let (upper, k) := decimal t
      match t.drop k with
      | '}' :: _ => some (lower, if k = 0 then none else some upper, n + k + 2)
      | _ => none
    | _ => none

end Escape

end RegexEngine

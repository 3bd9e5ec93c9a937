import RegexEngine.Pattern.Escape
import RegexEngine.Pattern.Flaw
import RegexEngine.Pattern.Tree

/-!
# Tokens of pattern texts

A pattern text is cut into tokens: atoms, conditions, quantifiers, parentheses and bars.  The
cut depends on the text alone and not on the flags.  A text that cannot be cut ends in a flaw
token, which takes effect when the reader of the tokens arrives at it.

## Main definitions

* `Token`, `Lexeme` — tokens, and tokens with the place where they begin.
* `countGroups` — the number of capture groups of a text, on which the reading of `\1` depends.
* `Token.first` — the first token of a text, and its length.
* `Lexeme.ofText` — all tokens of a text.
-/

namespace RegexEngine

/-- The kinds of groups. -/
inductive GroupKind
  /-- `(…)` -/
  | capture
  /-- `(?:…)` -/
  | plain
  /-- `(?=…)`, or `(?!…)` when `negated`. -/
  | look (negated : Bool)
  deriving DecidableEq, Repr, Inhabited

/-- The tokens of pattern texts. -/
inductive Token
  /-- A tree that a quantifier may follow. -/
  | atom (n : Node)
  /-- A character of two units.  A quantifier behind it repeats the second one. -/
  | surrogates (lead trail : Nat)
  /-- `^` -/
  | caret
  /-- `$` -/
  | dollar
  /-- `\b`, or `\B` when `negated`. -/
  | boundary (negated : Bool)
  /-- A quantifier, with its bounds. -/
  | quantifier (lower : Nat) (upper : Option Nat) (greedy : Bool)
  /-- An opening parenthesis with what names its kind, if that is a kind at all. -/
  | opening (kind : Option GroupKind)
  /-- `)` -/
  | closing
  /-- `|` -/
  | bar
  /-- A flaw that shows `ahead` characters behind the token's beginning. -/
  | flaw (ahead : Nat) (f : Flaw)
  deriving Repr, Inhabited, BEq

/-- A token and the place where it begins. -/
structure Lexeme where
  offset : Nat
  token : Token
  deriving Repr, Inhabited, BEq

/-- Count the parentheses that open a capture group: those that no question mark follows, that
stand outside of classes and behind no backslash. -/
def countGroups (inClass : Bool) (count : Nat) : List Char → Nat
  | [] => count
  | '\\' :: [] => count
  | '\\' :: _ :: s => countGroups inClass count s
  | '[' :: s => countGroups true count s
  | ']' :: s => countGroups false count s
  | '(' :: s =>
    countGroups inClass (if !inClass && s.head? != some '?' then count + 1 else count) s
  | _ :: s => countGroups inClass count s

/-! ### Classes -/

/-- What may stand between the brackets of a class. -/
inductive ClassItem
  /-- One unit. -/
  | unit (u : Nat)
  /-- A set, or a character of two units, which counts as the set of both. -/
  | set (is : List Interval)
  /-- A bare hyphen: a range between two items, else a unit. -/
  | hyphen
  deriving DecidableEq, Repr, Inhabited

namespace ClassItem

/-- The unit of the hyphen. -/
def hyphenUnit : Nat := 0x2D

/-- The units of an item. -/
def intervals : ClassItem → List Interval
  | unit u => [.single u]
  | set is => is
  | hyphen => [.single hyphenUnit]

/-- The single unit of an item that can bound a range. -/
def bound? : ClassItem → Option Nat
  | unit u => some u
  | set _ => none
  | hyphen => some hyphenUnit

/-- The item of a character that stands for itself. -/
def ofChar (c : Char) : ClassItem :=
  if c = '-' then hyphen
  else if c.toNat ≤ CodeUnit.maxUnit then unit c.toNat
  else
    let (lead, trail) := CodeUnit.surrogates c.toNat
    set [.single lead, .single trail]

/-- The item of a backslash followed by `c` and `s`, and its length behind the backslash. -/
def ofEscape (c : Char) (s : List Char) : ClassItem × Nat :=
  match Escape.classEscape? c with
  | some is => (set is, 1)
  | none =>
    if c = '-' ∨ c = '8' ∨ c = '9' then (unit c.toNat, 1)
    else
      let (u, used) := Escape.charEscape true c s
      (unit u, used)

/-- Cut the inside of a class into items, each with the place behind it.  `used` characters of
the class have been read and the next `skip` belong to the last item.  The answer ends with the
place behind the closing bracket, or with what went wrong before one was found. -/
def scan (used skip : Nat) (items : List (ClassItem × Nat)) :
    List Char → List (ClassItem × Nat) × Except Flaw Nat
  | [] => (items.reverse, .error .unterminatedClass)
  | c :: s =>
    match skip with
    | skip + 1 => scan (used + 1) skip items s
    | 0 =>
      if c = ']' then (items.reverse, .ok (used + 1))
      else if c = '\\' then
        match s with
        | [] => (items.reverse, .error .trailingBackslash)
        | d :: t =>
          let (item, n) := ofEscape d t
          scan (used + 1) n ((item, used + 1 + n) :: items) (d :: t)
      else scan (used + 1) 0 ((ofChar c, used + 1) :: items) s

/-- The intervals of the items.  Two units with a bare hyphen between them are a range; around
a set the hyphen is a unit.  The answer is the place behind the first range that is out of
order, if there is one. -/
def ranges (sofar : List Interval) : List (ClassItem × Nat) → Except Nat (List Interval)
  | [] => .ok sofar
  | (a, _) :: (hyphen, _) :: (b, place) :: rest =>
    match a.bound?, b.bound? with
    | some lo, some hi =>
      if lo ≤ hi then ranges (⟨lo, hi⟩ :: sofar) rest else .error place
    | _, _ => ranges (a.intervals ++ .single hyphenUnit :: b.intervals ++ sofar) rest
  | (a, _) :: rest => ranges (a.intervals ++ sofar) rest

end ClassItem

namespace Token

/-- Whether the token ends the cutting of a text. -/
def isFlaw : Token → Bool
  | flaw .. => true
  | _ => false

/-- The class whose opening bracket has been read, and its length behind that bracket. -/
def ofClass (s : List Char) : Token × Nat :=
  let negated := s.head? == some '^'
  let start := if negated then 1 else 0
  let (items, finish) := ClassItem.scan start 0 [] (s.drop start)
  match ClassItem.ranges [] items with
  | .error place => (flaw (place + 1) .rangeOutOfOrder, 0)
  | .ok is =>
    match finish with
    | .error f => (flaw (s.length + 1) f, 0)
    | .ok used => (atom (.charClass (Interval.normalize is) negated), used)

/-- The escape of a backslash followed by `c` and `s`, and its length behind the backslash.  A
number is a back-reference where the pattern has as many groups. -/
def ofEscape (groups : Nat) (c : Char) (s : List Char) : Token × Nat :=
  if c = 'b' then (boundary false, 1)
  else if c = 'B' then (boundary true, 1)
  else
    match Escape.classEscape? c with
    | some is => (atom (.charClass is false), 1)
    | none =>
      let (n, digits) := Escape.decimal (c :: s)
      if '1' ≤ c ∧ c ≤ '9' ∧ n ≤ groups then (atom (.backRef n), digits)
      else
        let (u, used) := Escape.charEscape false c s
        (atom (.unit u), used)

/-- A quantifier whose last character has been read, and the length of the question mark that
makes it lazy. -/
def ofBounds (lower : Nat) (upper : Option Nat) (s : List Char) : Token × Nat :=
  if s.head? = some '?' then (quantifier lower upper false, 1) else (quantifier lower upper true, 0)

/-- What an opening brace begins: a quantifier where it reads as one, else it stands for
itself. -/
def ofBrace (s : List Char) : Token × Nat :=
  match Escape.bounds? s with
  | none => (atom (.unit '{'.toNat), 0)
  | some (lower, upper, n) =>
    if upper.all (lower ≤ ·) then
      let (t, k) := ofBounds lower upper (s.drop n)
      (t, n + k)
    else (flaw 0 .boundsOutOfOrder, 0)

/-- The group that an opening parenthesis begins. -/
def ofOpening : List Char → Token × Nat
  | '?' :: ':' :: _ => (opening (some .plain), 2)
  | '?' :: '=' :: _ => (opening (some (.look false)), 2)
  | '?' :: '!' :: _ => (opening (some (.look true)), 2)
  | '?' :: _ => (opening none, 1)
  | _ => (opening (some .capture), 0)

/-- The first token of the text `c :: s`, and how many characters of `s` belong to it.  The
pattern as a whole has `groups` capture groups. -/
def first (groups : Nat) (c : Char) (s : List Char) : Token × Nat :=
  match c with
  | '^' => (caret, 0)
  | '$' => (dollar, 0)
  | '|' => (bar, 0)
  | ')' => (closing, 0)
  | '(' => ofOpening s
  | '*' => ofBounds 0 none s
  | '+' => ofBounds 1 none s
  | '?' => ofBounds 0 (some 1) s
  | '{' => ofBrace s
  | '[' => ofClass s
  | '.' => (atom .any, 0)
  | '\\' =>
    match s with
    | [] => (flaw 1 .trailingBackslash, 0)
    | d :: t => ofEscape groups d t
  | c =>
    if c.toNat ≤ CodeUnit.maxUnit then (atom (.unit c.toNat), 0)
    else
      let (lead, trail) := CodeUnit.surrogates c.toNat
      (surrogates lead trail, 0)

end Token

namespace Lexeme

/-- Cut the rest of a text.  It begins at `offset`, and its first `skip` characters belong to
the last token. -/
def cut (groups offset skip : Nat) (lexemes : List Lexeme) : List Char → List Lexeme
  | [] => lexemes.reverse
  | c :: s =>
    match skip with
    | skip + 1 => cut groups (offset + 1) skip lexemes s
    | 0 =>
      let (token, n) := Token.first groups c s
      let lexemes := ⟨offset, token⟩ :: lexemes
      if token.isFlaw then lexemes.reverse else cut groups (offset + 1) n lexemes s

/-- The tokens of a text, up to the first flaw. -/
def ofText (text : List Char) : List Lexeme := cut (countGroups false 0 text) 0 0 [] text

end Lexeme

end RegexEngine

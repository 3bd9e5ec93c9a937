import RegexEngine.Error

/-!
# Pattern flags

A pattern carries four switches.  They are read from letters, written in one fixed order,
and packed into a word for storage.

## Main definitions

* `Flags` — the four switches.
* `Flags.parse`, `Flags.render` — letters to flags and back.
* `Flags.toWord`, `Flags.ofWord` — flags and their stored word.
* `displayPattern` — a pattern between slashes, followed by its flags.
-/

namespace RegexEngine

/-- The switches of a pattern.  Every combination is allowed. -/
structure Flags where
  /-- Units are compared after case folding (`i`). -/
  ignoreCase : Bool := false
  /-- Values remember where their last match ended (`g`). -/
  global : Bool := false
  /-- `^` and `$` also match at line ends (`m`). -/
  multiline : Bool := false
  /-- A match begins exactly where the search does (`y`). -/
  sticky : Bool := false
  deriving DecidableEq, Repr, Inhabited

/-- One of the four switches. -/
inductive Flag
  | ignoreCase
  | global
  | multiline
  | sticky
  deriving DecidableEq, Repr, Inhabited

namespace Flag

/-- The letter of a flag. -/
def letter : Flag → Char
  | ignoreCase => 'i'
  | global => 'g'
  | multiline => 'm'
  | sticky => 'y'

/-- The order in which flags are written. -/
def all : List Flag := [global, ignoreCase, multiline, sticky]

/-- The flag with a given letter. -/
def ofLetter (c : Char) : Option Flag := all.find? (·.letter == c)

/-- The place value of a flag in a stored word. -/
def bit : Flag → Nat
  | ignoreCase => 1
  | global => 2
  | multiline => 4
  | sticky => 8

@[simp] theorem ofLetter_letter (f : Flag) : ofLetter f.letter = some f := by cases f <;> rfl

end Flag

namespace Flags

/-- No flag at all. -/
def empty : Flags := {}

/-- Whether a flag is on. -/
def has (fs : Flags) : Flag → Bool
  | .ignoreCase => fs.ignoreCase
  | .global => fs.global
  | .multiline => fs.multiline
  | .sticky => fs.sticky

/-- `fs` with one flag set to `on`. -/
def set (fs : Flags) (f : Flag) (on : Bool) : Flags :=
  match f with
  | .ignoreCase => { fs with ignoreCase := on }
  | .global => { fs with global := on }
  | .multiline => { fs with multiline := on }
  | .sticky => { fs with sticky := on }

@[simp] theorem has_empty (f : Flag) : empty.has f = false := by cases f <;> rfl

@[simp] theorem has_set (fs : Flags) (f g : Flag) (on : Bool) :
    (fs.set f on).has g = if f = g then on else fs.has g := by
  cases f <;> cases g <;> rfl

/-- The flags that are on in one of the two. -/
def union (fs gs : Flags) : Flags where
  ignoreCase := fs.ignoreCase || gs.ignoreCase
  global := fs.global || gs.global
  multiline := fs.multiline || gs.multiline
  sticky := fs.sticky || gs.sticky

instance : Union Flags := ⟨union⟩

@[simp] theorem has_union (fs gs : Flags) (f : Flag) :
    (fs ∪ gs).has f = (fs.has f || gs.has f) := by
  cases f <;> rfl

/-- Whether every flag of `gs` is on in `fs`. -/
def includes (fs gs : Flags) : Bool := Flag.all.all fun f => !gs.has f || fs.has f

/-- Add the flag with letter `c`, which must be one and must still be off. -/
def addLetter (fs : Flags) (c : Char) : Except RegexError Flags :=
  match Flag.ofLetter c with
  | none => .error (.unknownFlag c)
  | some f => if fs.has f then .error (.repeatedFlag c) else .ok (fs.set f true)

/-- Read flag letters, in any order.  No letter is no flag. -/
def parse (letters : String) : Except RegexError Flags :=
  letters.toList.foldlM addLetter empty

/-- The letters of the flags that are on, in the fixed order. -/
def render (fs : Flags) : String :=
  String.ofList ((Flag.all.filter fs.has).map Flag.letter)

/-- The stored word: the sum of the place values of the flags that are on. -/
def toWord (fs : Flags) : Nat :=
  (Flag.all.filter fs.has).foldl (fun w f => w + f.bit) 0

/-- Read a stored word.  A bit that names no flag is refused. -/
def ofWord (w : Nat) : Except RegexError Flags :=
  if w < 16 then
    .ok { ignoreCase := w.testBit 0, global := w.testBit 1, multiline := w.testBit 2,
          sticky := w.testBit 3 }
  else .error .unknownFlagBits

@[simp] theorem ofWord_toWord (fs : Flags) : ofWord fs.toWord = .ok fs := by
  rcases fs with ⟨_ | _, _ | _, _ | _, _ | _⟩ <;> rfl

end Flags

/-- A pattern between slashes, followed by its flags.  The empty pattern is shown as an empty
group, since two slashes in a row would begin a comment. -/
def displayPattern (source : String) (flags : Flags) : String :=
  "/" ++ (if source.isEmpty then "(?:)" else source) ++ "/" ++ flags.render

end RegexEngine

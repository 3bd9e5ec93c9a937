import RegexEngine.Interrupt
import RegexEngine.Pattern.Parse
import RegexEngine.Engine.Code
import RegexEngine.Engine.Literal

/-!
# Shared records

A record is the compiled form of one source and one set of flags, shared by all values with the
same two.  Code is made when it is first needed, for each mode and each width on its own.  A
source without special characters is not compiled at all: its text is searched for.

## Main definitions

* `Record` — a record, with its four code slots.
* `Record.compile`, `Record.compileIfNecessary` — fill a slot.
* `Record.execute` — run a record over a text.
-/

namespace RegexEngine

/-- The code of a record for each mode and each width. -/
structure CodeSlots where
  normalLatin1 : Option Code := none
  normalTwoByte : Option Code := none
  matchOnlyLatin1 : Option Code := none
  matchOnlyTwoByte : Option Code := none
  deriving Inhabited

namespace CodeSlots

/-- The slots in their order. -/
def all : List (Mode × Width) :=
  [(.normal, .latin1), (.normal, .twoByte), (.matchOnly, .latin1), (.matchOnly, .twoByte)]

/-- The place of a slot in that order. -/
def index (mode : Mode) (width : Width) : Nat :=
  (match mode with
    | .normal => 0
    | .matchOnly => 2) +
  (match width with
    | .latin1 => 0
    | .twoByte => 1)

/-- The code in a slot. -/
def get (s : CodeSlots) : Mode → Width → Option Code
  | .normal, .latin1 => s.normalLatin1
  | .normal, .twoByte => s.normalTwoByte
  | .matchOnly, .latin1 => s.matchOnlyLatin1
  | .matchOnly, .twoByte => s.matchOnlyTwoByte

/-- The slots with one of them replaced. -/
def set (s : CodeSlots) (mode : Mode) (width : Width) (c : Code) : CodeSlots :=
  match mode, width with
  | .normal, .latin1 => { s with normalLatin1 := some c }
  | .normal, .twoByte => { s with normalTwoByte := some c }
  | .matchOnly, .latin1 => { s with matchOnlyLatin1 := some c }
  | .matchOnly, .twoByte => { s with matchOnlyTwoByte := some c }

@[simp] theorem get_set_self (s : CodeSlots) (m : Mode) (w : Width) (c : Code) :
    (s.set m w c).get m w = some c := by cases m <;> cases w <;> rfl

theorem get_set_of_ne (s : CodeSlots) {m m' : Mode} {w w' : Width} (c : Code)
    (h : (m, w) ≠ (m', w')) : (s.set m w c).get m' w' = s.get m' w' := by
  cases m <;> cases w <;> cases m' <;> cases w' <;> first | rfl | exact absurd rfl h

end CodeSlots

/-- The characters that mean something other than themselves in a pattern. -/
def isSpecial (c : Char) : Bool := "^$\\.*+?()[]\x7b\x7d|".toList.contains c

/-- Whether a character of a source means something other than itself. -/
def hasSpecial (source : String) : Bool := source.toList.any isSpecial

/-- The compiled form of a source and a set of flags. -/
structure Record where
  source : String
  flags : Flags
  /-- The number of capture groups; zero until something is compiled. -/
  groups : Nat := 0
  /-- What to search for, once the record is known to need no code. -/
  literal : Option Literal := none
  slots : CodeSlots := {}
  /-- Something has reached the record since the last sweep. -/
  marked : Bool := false
  /-- The character tables of all programs in the slots. -/
  tables : Array CharTable := #[]
  deriving Inhabited

/-- What a completed execution reports. -/
inductive Status
  | success
  | notFound
  deriving DecidableEq, Repr, Inhabited

namespace Record

/-- The number of pairs of a match: the whole and the groups. -/
def pairCount (r : Record) : Nat := r.groups + 1

/-- Whether the source is searched for as it is: nothing in it is special, case counts, and the
match may begin anywhere. -/
def literalEligible (r : Record) : Bool :=
  !r.flags.ignoreCase && !r.flags.sticky && !hasSpecial r.source

/-- Whether an execution in this mode over texts of this width needs no compilation. -/
def isCompiled (r : Record) (mode : Mode) (width : Width) : Bool :=
  r.literal.isSome || (r.slots.get mode width).isSome

/-- The slots that hold native code. -/
def nativeSlots (r : Record) : List (Mode × Width) :=
  CodeSlots.all.filter fun (m, w) => (r.slots.get m w).any Code.isNative

/-! ### Compilation -/

/-- Put code into a slot, unless the slot holds some. -/
def fill (r : Record) (mode : Mode) (width : Width) (c : Code) : Record :=
  match r.slots.get mode width with
  | none => { r with slots := r.slots.set mode width c }
  | some _ => r

/-- The pattern that a sticky record matches: at the start of the text only. -/
def anchoredIfSticky (r : Record) (p : Pattern) : Pattern :=
  if r.flags.sticky then p.anchored else p

/-- Compile for a mode and a width.  A failure leaves the slots as they are; tables that were
made before a program grew too large stay in the list. -/
def compile (r : Record) (mode : Mode) (width : Width) (g : Generator) :
    Except RegexError Unit × Record :=
  if r.literal.isSome then (.ok (), r)
  else if r.literalEligible then
    (.ok (), { r with groups := 0, literal := some (.ofSource r.source) })
  else
    match parse r.source r.flags with
    | .error f => (.error f.toError, r)
    | .ok p =>
      match g.generate (r.anchoredIfSticky p) mode width r.flags r.tables with
      | (.error e, tables) => (.error e, { r with tables })
      | (.ok c, tables) => (.ok (), { r with tables, groups := p.groups }.fill mode width c)

/-- Compile for a mode and a width if nothing is there yet. -/
def compileIfNecessary (r : Record) (mode : Mode) (width : Width) (g : Generator) :
    Except RegexError Unit × Record :=
  if r.isCompiled mode width then (.ok (), r) else r.compile mode width g

/-! ### Execution -/

/-- What an execution leaves behind. -/
structure Execution where
  result : Except Failure Status
  record : Record
  interrupts : Interrupts
  buffer : Option Buffer

/-- How often code is run at most in one search.  Only a callback that raises the flag whenever it
is called, or a routine that never answers, can come to that number. -/
def maxRuns (limits : Limits) : Nat := limits.steps + 2

/-- Run code until it answers, at most `n` times.  Whenever it has seen the interrupt flag the
callback decides whether it is run again. -/
def searchCode (tables : Array CharTable) (limits : Limits) (t : Text) (start : Nat)
    (pairs : Array Pair) : Nat → Code → Interrupts → Outcome × Code × Interrupts
  | 0, c, i => (.failed .outOfSteps, c, i)
  | n + 1, c, i =>
    match c.search tables limits i.requested t start pairs with
    | (.interrupted, c) =>
      match i.poll with
      | (.resume, i) => searchCode tables limits t start pairs n c i
      | (.abort, i) => (.failed (.error .interrupted), c, i)
    | (outcome, c) => (outcome, c, i)

/-- Search a text with what the record holds for a mode: its literal, or the code in the slot.
The answer is the outcome, with the record and the interrupts as they are afterwards. -/
def search (r : Record) (mode : Mode) (limits : Limits) (i : Interrupts) (t : Text) (start : Nat)
    (pairs : Array Pair) : Outcome × Record × Interrupts :=
  match r.literal with
  | some literal =>
    match literal.find? t start with
    | none => (.noMatch, r, i)
    | some found => (.matched (pairs.setIfInBounds 0 (.span found (found + literal.size))), r, i)
  | none =>
    match r.slots.get mode t.width with
    | none => (.failed (.error .emptySlot), r, i)
    | some c =>
      let (outcome, c, i) := searchCode r.tables limits t start pairs (maxRuns limits) c i
      (outcome, { r with slots := r.slots.set mode t.width c }, i)

/-- The longest text that is searched. -/
def maxTextSize : Nat := 0x7FFFFFFF

/-- Whether a search may begin at an offset of a text. -/
def checkBounds (t : Text) (start : Nat) : Except RegexError Unit :=
  if maxTextSize < t.size then .error .textTooLong
  else if t.size < start then .error .startPastEnd
  else .ok ()

/-- Give the buffer, if there is one, an undefined pair for the match and for each group. -/
def prepare (r : Record) : Option Buffer → Except Failure (Option Buffer)
  | none => .ok none
  | some b => (b.init r.pairCount).map some

/-- The part of a text that the record is run over: the rest from the offset on if it is
sticky, else all of it. -/
def view (r : Record) (t : Text) (start : Nat) : Text := if r.flags.sticky then t.drop start else t

/-- How far the offsets in the view lie behind those in the text. -/
def displacement (r : Record) (start : Nat) : Nat := if r.flags.sticky then start else 0

/-- Store the pairs of a match in the buffer, moved to the right by `displacement`. -/
def report (pairs : Array Pair) (displacement size : Nat) :
    Option Buffer → Except Failure Status × Option Buffer
  | none => (.ok .success, none)
  | some b =>
    let b := { b with pairs := pairs }.displace displacement
    (if b.within size then .ok .success else .error (.error .offsetsOutOfBounds), some b)

/-- Search a text from an offset on.  A buffer gets the offsets of the match and of its groups;
without one only the status is found out.  A sticky record matches at the offset only: it is
run over the rest of the text from there. -/
def execute (r : Record) (g : Generator) (limits : Limits) (i : Interrupts) (t : Text)
    (start : Nat) (buffer : Option Buffer) : Execution :=
  let mode := if buffer.isSome then Mode.normal else Mode.matchOnly
  match r.compileIfNecessary mode t.width g with
  | (.error e, r) => ⟨.error (.error e), r, i, buffer⟩
  | (.ok (), r) =>
    match checkBounds t start with
    | .error e => ⟨.error (.error e), r, i, buffer⟩
    | .ok () =>
      let shift := r.displacement start
      match r.prepare buffer with
      | .error f => ⟨.error f, r, i, buffer⟩
      | .ok buffer =>
        let pairs := (buffer.map Buffer.pairs).getD #[]
        match r.search mode limits i (r.view t start) (start - shift) pairs with
        | (.matched pairs, r, i) =>
          let (result, buffer) := report pairs shift t.size buffer
          ⟨result, r, i, buffer⟩
        | (.noMatch, r, i) => ⟨.ok .notFound, r, i, buffer⟩
        | (.interrupted, r, i) => ⟨.error (.error .interrupted), r, i, buffer⟩
        | (.failed f, r, i) => ⟨.error f, r, i, buffer⟩

end Record

end RegexEngine

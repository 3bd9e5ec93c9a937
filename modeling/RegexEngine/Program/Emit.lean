import RegexEngine.CharSet.Table
import RegexEngine.Error
import RegexEngine.Flags
import RegexEngine.Program.Instr
import RegexEngine.Text

/-!
# Making programs from trees

Code is made from left to right.  Every instruction first takes its address, which fails once
the size cap is reached; an instruction that jumps forward is written down when its target is
known.  Character tables are appended to a list that outlives the program.

## Main definitions

* `Mode` — whether a match shall report its captures.
* `Target` — what the code is made for.
* `Site` — the state of the work: the next address, the tables and the registers in use.
* `Emit.node` — the code of a tree.
* `Pattern.compile` — the program of a pattern.
-/

namespace RegexEngine

/-- What a search is to report. -/
inductive Mode
  /-- The offsets of the match and of its groups. -/
  | normal
  /-- Whether there is a match. -/
  | matchOnly
  deriving DecidableEq, Repr, Inhabited

/-- What code is made for. -/
structure Target where
  /-- Units are compared up to case. -/
  folded : Bool
  /-- The texts are Latin-1. -/
  narrow : Bool
  /-- Captures are stored. -/
  captures : Bool
  /-- The greatest number of instructions. -/
  maxLength : Nat
  deriving DecidableEq, Repr, Inhabited

/-- How far the making of a program has come. -/
structure Site where
  /-- The address of the next instruction. -/
  address : Nat
  /-- The character tables, those of earlier programs included. -/
  tables : Array CharTable
  /-- The number of loop registers in use. -/
  registers : Nat
  deriving Repr, Inhabited

/-- A step in the making of a program.  It fails when the size cap is reached, and the tables
made up to then stay in the list. -/
abbrev Emit (α : Type) := OptionT (StateM Site) α

namespace Emit

/-- Take the next address for an instruction. -/
def takeAddress (t : Target) : Emit Nat := do
  let site ← get
  if site.address < t.maxLength then
    set { site with address := site.address + 1 }
    return site.address
  else failure

/-- The next address. -/
def nextAddress : Emit Nat := return (← get).address

/-- Take the next loop register. -/
def takeRegister : Emit Nat := do
  let site ← get
  set { site with registers := site.registers + 1 }
  return site.registers

/-- Append a character table and answer its index. -/
def addTable (table : CharTable) : Emit Nat := do
  let site ← get
  set { site with tables := site.tables.push table }
  return site.tables.size

/-- An instruction whose operands are known. -/
def instr (t : Target) (i : Instr) : Emit (List Instr) := do
  let _ ← takeAddress t
  return [i]

/-- The instruction for one unit.  Above `0xFF` no unit of a Latin-1 text is matched. -/
def unitInstr (t : Target) (u : Nat) : Instr :=
  if t.folded then .folded (canonicalize u)
  else if t.narrow && 0xFF < u then .fail
  else .unit u

/-- The table of a class. -/
def classTable (t : Target) (set : List Interval) : CharTable :=
  if t.folded then .foldedOfIntervals set else .ofIntervals set t.narrow

/-- The code of a class. -/
def classCode (t : Target) (set : List Interval) (negated : Bool) : Emit (List Instr) := do
  let table ← addTable (classTable t set)
  instr t (.inTable table negated t.folded)

/-- The groups whose captures each iteration of a loop forgets. -/
def loopSpan (t : Target) (body : Node) : Option (Nat × Nat) :=
  if t.captures then body.groupSpan else none

/-- One iteration of a loop: forget the captures of the groups in `span`, then the body. -/
def iteration (t : Target) (span : Option (Nat × Nat)) (body : Emit (List Instr)) :
    Emit (List Instr) :=
  match span with
  | none => body
  | some (first, last) => do
    let _ ← takeAddress t
    let code ← body
    return .clear (2 * first) (2 * last) :: code

/-- `n` copies of a fragment in a row, in front of which stands `sofar` in reverse.  A fragment
without instructions is not copied again, since all its copies are alike. -/
def copies (fragment : Emit (List Instr)) : Nat → List (List Instr) → Emit (List Instr)
  | 0, sofar => return sofar.reverse.flatten
  | n + 1, sofar => do
    let code ← fragment
    if code.isEmpty then return sofar.reverse.flatten
    copies fragment n (code :: sofar)

/-- The choice between an iteration and the exit of a loop, in the order of preference. -/
def choice (greedy : Bool) (body exit : Nat) : Instr :=
  if greedy then .split body exit else .split exit body

/-- `n` optional copies of a fragment, each inside of the one before: the address of the choice
in front of each copy and the copy itself, the last one first. -/
def optionals (t : Target) (fragment : Emit (List Instr)) :
    Nat → List (Nat × List Instr) → Emit (List (Nat × List Instr))
  | 0, sofar => return sofar
  | n + 1, sofar => do
    let head ← takeAddress t
    let code ← fragment
    optionals t fragment n ((head, code) :: sofar)

/-- Put the optional copies together, all with the same exit.  `sofar` is the code behind
them. -/
def joinOptionals (greedy : Bool) (exit : Nat) (sofar : List Instr) :
    List (Nat × List Instr) → List Instr
  | [] => sofar
  | (head, code) :: rest =>
    joinOptionals greedy exit (choice greedy (head + 1) exit :: (code ++ sofar)) rest

/-- The part of a loop behind its required iterations, without an upper bound.  An iteration
that consumes nothing is given up where the body can be empty. -/
def unbounded (t : Target) (greedy canBeEmpty : Bool) (fragment : Emit (List Instr)) :
    Emit (List Instr) := do
  let head ← takeAddress t
  let code ←
    if canBeEmpty then do
      let register ← takeRegister
      let _ ← takeAddress t
      let code ← fragment
      let _ ← takeAddress t
      pure (.mark register :: (code ++ [.progress register]))
    else fragment
  let _ ← takeAddress t
  let exit ← nextAddress
  return choice greedy (head + 1) exit :: (code ++ [.jump head])

/-- The part of a loop behind its required iterations, when `n` more are allowed. -/
def bounded (t : Target) (greedy : Bool) (n : Nat) (fragment : Emit (List Instr)) :
    Emit (List Instr) := do
  let parts ← optionals t fragment n []
  let exit ← nextAddress
  return joinOptionals greedy exit [] parts

/-- Put alternatives together: a choice in front of each and a jump to the exit behind it, with
the addresses of both.  `sofar` is the code behind them. -/
def joinAlternatives (exit : Nat) (sofar : List Instr) :
    List (Nat × List Instr × Nat) → List Instr
  | [] => sofar
  | (head, code, leave) :: rest =>
    joinAlternatives exit (.split (head + 1) (leave + 1) :: (code ++ .jump exit :: sofar)) rest

mutual

/-- The code of a tree. -/
def node (t : Target) : Node → Emit (List Instr)
  | .empty => return []
  | .unit u => instr t (unitInstr t u)
  | .any => instr t .any
  | .charClass set negated => classCode t set negated
  | .anchor a => instr t (.anchor a)
  | .backRef g => instr t (.backRef g t.folded)
  | .group index body =>
    if t.captures then do
      let _ ← takeAddress t
      let code ← node t body
      let _ ← takeAddress t
      return .save (2 * index) :: (code ++ [.save (2 * index + 1)])
    else node t body
  | .look negated body => do
    let head ← takeAddress t
    let code ← node t body
    let _ ← takeAddress t
    let next ← nextAddress
    return .look negated (head + 1) next :: (code ++ [.lookEnd])
  | .rep lower upper greedy body => do
    let fragment := iteration t (loopSpan t body) (node t body)
    let required ← copies fragment lower []
    let rest ←
      match upper with
      | none => unbounded t greedy body.canBeEmpty fragment
      | some upper => bounded t greedy (upper - lower) fragment
    return required ++ rest
  | .seq items => sequence t items []
  | .alt items => alternatives t items []

/-- The code of trees in a row, in front of which stands `sofar` in reverse. -/
def sequence (t : Target) : List Node → List (List Instr) → Emit (List Instr)
  | [], sofar => return sofar.reverse.flatten
  | n :: ns, sofar => do
    let code ← node t n
    sequence t ns (code :: sofar)

/-- The code of trees of which one is to match, behind those in `sofar`. -/
def alternatives (t : Target) :
    List Node → List (Nat × List Instr × Nat) → Emit (List Instr)
  | [], _ => return []
  | n :: ns, sofar => do
    if ns.isEmpty then
      let code ← node t n
      let exit ← nextAddress
      return joinAlternatives exit code sofar
    let head ← takeAddress t
    let code ← node t n
    let leave ← takeAddress t
    alternatives t ns ((head, code, leave) :: sofar)

end

/-- The code of a whole tree, with the instruction that ends it. -/
def whole (t : Target) (root : Node) : Emit (List Instr) := do
  let code ← node t root
  let _ ← takeAddress t
  return code ++ [.accept]

end Emit

namespace Pattern

/-- What the code of a pattern is made for.  Without a report captures are stored only if a
back-reference reads them. -/
def target (p : Pattern) (mode : Mode) (width : Width) (flags : Flags) (maxLength : Nat) :
    Target where
  folded := flags.ignoreCase
  narrow := width == .latin1
  captures := mode == .normal || p.root.hasBackRefs
  maxLength := maxLength

/-- Make the program of a pattern for texts of one width.  The answer comes with the list of
tables, to which those of the program have been appended. -/
def compile (p : Pattern) (mode : Mode) (width : Width) (flags : Flags)
    (tables : Array CharTable) (maxLength : Nat) : Except RegexError Program × Array CharTable :=
  let t := p.target mode width flags maxLength
  match (Emit.whole t p.root).run { address := 0, tables, registers := 0 } with
  | (none, site) => (.error .programTooLarge, site.tables)
  | (some code, site) =>
    (.ok {
        code := code.toArray
        groups := p.groups
        registers := site.registers
        anchored := p.root.startsAtInputStart
        captures := t.captures
        firstUnit := if flags.ignoreCase then none else p.root.firstUnit }, site.tables)

end Pattern

end RegexEngine

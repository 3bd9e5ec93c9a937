import RegexEngine.CharSet.Table
import RegexEngine.Match.Anchor
import RegexEngine.Program.Instr

/-!
# The backtracking machine

A program is run from an address and a position until it accepts or until every alternative has
failed.  What has to be undone on failure lies on a stack: alternatives to resume, and old
values of capture slots and loop registers.  A condition on what follows runs the machine once
more on top of the same stack and leaves at most one entry there.

The machine takes at most as many steps as it is given, since programs written by hand may run
for ever.

## Main definitions

* `Frame` — the entries of the stack.
* `Machine` — what stays fixed during a run; `Machine.State` is what changes.
* `Machine.step` — the effect of one instruction.
* `Machine.run` — a run from an address.
* `Machine.attempt` — a run of the whole program from a position of the text.
-/

namespace RegexEngine

/-- How much work a search may do. -/
structure Limits where
  /-- The greatest number of stack entries. -/
  backtrack : Nat := 1048576
  /-- The number of failures between two looks at the interrupt flag. -/
  checkInterval : Nat := 4096
  /-- The greatest number of steps of one run. -/
  steps : Nat := 4611686018427387904
  deriving DecidableEq, Repr, Inhabited

/-- What is undone when a run fails back past it. -/
inductive Frame
  /-- Resume at an address and a position. -/
  | branch (pc pos : Nat)
  /-- Put an old value back into a capture slot. -/
  | slot (index : Nat) (old : Option Nat)
  /-- Put an old value back into a loop register. -/
  | register (index : Nat) (old : Option Nat)
  /-- Put back all capture slots. -/
  | slots (old : Array (Option Nat))
  deriving DecidableEq, Repr, Inhabited

/-- Why a run stops without an answer. -/
inductive Stop
  /-- The interrupt flag was seen. -/
  | interrupted
  /-- The stack is full. -/
  | overRecursed
  /-- The program uses an address, slot, register or table that it does not have. -/
  | outOfRange
  /-- The steps are used up. -/
  | outOfSteps
  deriving DecidableEq, Repr, Inhabited

/-- What a run of the machine does not change. -/
structure Machine where
  program : Program
  tables : Array CharTable
  text : Text
  limits : Limits
  /-- Whether the interrupt flag is raised. -/
  interrupted : Bool

namespace Machine

/-- What a run changes. -/
structure State where
  /-- The capture slots: two positions for each group. -/
  slots : Array (Option Nat)
  /-- The loop registers. -/
  registers : Array (Option Nat)
  /-- The stack, its top last. -/
  stack : Array Frame
  /-- The number of failures since the interrupt flag was last looked at. -/
  failures : Nat
  deriving DecidableEq, Repr, Inhabited

/-- What becomes of a run by one instruction. -/
inductive Effect
  /-- Go on. -/
  | go (pc pos : Nat) (st : State)
  /-- Fail back to the last alternative. -/
  | reject (st : State)
  /-- The run has reached its end. -/
  | accept (pos : Nat) (st : State)
  /-- Find out whether the code at `body` accepts, then go on at `next` or fail. -/
  | look (negated : Bool) (body next pos : Nat) (st : State)
  /-- Stop without an answer. -/
  | stop (s : Stop)

/-- How a run ends. -/
inductive Result
  /-- The program accepts at a position. -/
  | accepted (pos : Nat) (st : State)
  /-- Every alternative of the run has failed. -/
  | failed (st : State)
  /-- There is no answer. -/
  | stopped (s : Stop)
  deriving Inhabited

/-! ### Single instructions -/

/-- Consume one unit if it passes the test. -/
@[inline] def consume (m : Machine) (test : Nat → Bool) (pc pos : Nat) (st : State) : Effect :=
  match m.text.unit? pos with
  | some u => if test u then .go (pc + 1) (pos + 1) st else .reject st
  | none => .reject st

/-- Consume one unit by looking it up in a table. -/
def consumeInTable (m : Machine) (table : Nat) (negated folded : Bool) (pc pos : Nat)
    (st : State) : Effect :=
  match m.text.unit? pos with
  | none => .reject st
  | some u =>
    match m.tables[table]? with
    | none => .stop .outOfRange
    | some t =>
      let inside := if folded then t.containsFolded u else t.contains u
      if inside != negated then .go (pc + 1) (pos + 1) st else .reject st

/-- Push an entry and go on, unless the stack is full. -/
@[inline] def pushAnd (m : Machine) (f : Frame) (st : State) (k : State → Effect) : Effect :=
  if m.limits.backtrack ≤ st.stack.size then .stop .overRecursed
  else k { st with stack := st.stack.push f }

/-- Store a value in a capture slot; the old one goes onto the stack. -/
@[inline] def setSlot (m : Machine) (slot : Nat) (value : Option Nat) (st : State)
    (k : State → Effect) : Effect :=
  match st.slots[slot]? with
  | none => .stop .outOfRange
  | some old =>
    m.pushAnd (.slot slot old) st fun st =>
      k { st with slots := st.slots.setIfInBounds slot value }

/-- Make `n` capture slots from `slot` on undefined.  Slots that are undefined already need no
stack entry. -/
def clearSlots (m : Machine) : Nat → Nat → State → (State → Effect) → Effect
  | 0, _, st, k => k st
  | n + 1, slot, st, k =>
    match st.slots[slot]? with
    | none => .stop .outOfRange
    | some none => m.clearSlots n (slot + 1) st k
    | some (some _) => m.setSlot slot none st fun st => m.clearSlots n (slot + 1) st k

/-- Whether two units are equal, as they are or up to case. -/
def sameUnit (folded : Bool) (u v : Nat) : Bool :=
  u == v || (folded && canonicalize u == canonicalize v)

/-- Whether the `n` units from `i` on equal those from `j` on.  There is no answer if a unit that
is looked at lies outside of the text. -/
def sameUnits (t : Text) (folded : Bool) : Nat → Nat → Nat → Option Bool
  | 0, _, _ => some true
  | n + 1, i, j =>
    match t.unit? i, t.unit? j with
    | some u, some v =>
      if sameUnit folded u v then sameUnits t folded n (i + 1) (j + 1) else some false
    | _, _ => none

/-- Consume the text of a group once more.  A group that is undefined or still open has the
empty text. -/
def consumeGroup (m : Machine) (group : Nat) (folded : Bool) (pc pos : Nat) (st : State) :
    Effect :=
  match st.slots[2 * group]?, st.slots[2 * group + 1]? with
  | some start, some stop =>
    match start, stop with
    | some start, some stop =>
      if stop < start then .go (pc + 1) pos st
      else if m.text.size < pos + (stop - start) then .reject st
      else
        match sameUnits m.text folded (stop - start) start pos with
        | none => .stop .outOfRange
        | some true => .go (pc + 1) (pos + (stop - start)) st
        | some false => .reject st
    | _, _ => .go (pc + 1) pos st
  | _, _ => .stop .outOfRange

/-- Store the position in a loop register; the old one goes onto the stack. -/
def markRegister (m : Machine) (register pc pos : Nat) (st : State) : Effect :=
  match st.registers[register]? with
  | none => .stop .outOfRange
  | some old =>
    m.pushAnd (.register register old) st fun st =>
      .go (pc + 1) pos { st with registers := st.registers.setIfInBounds register (some pos) }

/-- Go on if the position differs from the one in a loop register. -/
def checkProgress (register pc pos : Nat) (st : State) : Effect :=
  match st.registers[register]? with
  | none => .stop .outOfRange
  | some old => if old = some pos then .reject st else .go (pc + 1) pos st

/-- The effect of an instruction that stands at `pc`. -/
def perform (m : Machine) (i : Instr) (pc pos : Nat) (st : State) : Effect :=
  match i with
  | .accept => .accept pos st
  | .lookEnd => .accept pos st
  | .unit u => m.consume (· == u) pc pos st
  | .folded u => m.consume (canonicalize · == u) pc pos st
  | .any => m.consume (!CodeUnit.isLineTerminator ·) pc pos st
  | .inTable table negated folded => m.consumeInTable table negated folded pc pos st
  | .anchor a => if a.holds m.text pos then .go (pc + 1) pos st else .reject st
  | .split first second => m.pushAnd (.branch second pos) st fun st => .go first pos st
  | .jump target => .go target pos st
  | .save slot => m.setSlot slot (some pos) st fun st => .go (pc + 1) pos st
  | .clear first last => m.clearSlots (last - first) first st fun st => .go (pc + 1) pos st
  | .backRef group folded => m.consumeGroup group folded pc pos st
  | .mark register => m.markRegister register pc pos st
  | .progress register => checkProgress register pc pos st
  | .look negated body next => .look negated body next pos st
  | .fail => .reject st

/-- The effect of the instruction at `pc`. -/
def step (m : Machine) (pc pos : Nat) (st : State) : Effect :=
  match m.program.code[pc]? with
  | none => .stop .outOfRange
  | some i => m.perform i pc pos st

/-! ### Failing back -/

namespace State

/-- Undo the top `n` entries of the stack, or as many as lie above the last alternative. -/
def unwind : Nat → State → Effect
  | 0, st => .reject st
  | n + 1, st =>
    match st.stack.back? with
    | none => .reject st
    | some f =>
      let st := { st with stack := st.stack.pop }
      match f with
      | .branch pc pos => .go pc pos st
      | .slot i old =>
        if i < st.slots.size then unwind n { st with slots := st.slots.setIfInBounds i old }
        else .stop .outOfRange
      | .register i old =>
        if i < st.registers.size then
          unwind n { st with registers := st.registers.setIfInBounds i old }
        else .stop .outOfRange
      | .slots old =>
        if old.size = st.slots.size then unwind n { st with slots := old } else .stop .outOfRange

/-- Drop the stack entries above the lowest `base`. -/
def truncate (st : State) (base : Nat) : State := { st with stack := st.stack.shrink base }

end State

/-- Fail back to the last alternative above the lowest `base` stack entries.  Every so often the
interrupt flag is looked at first. -/
def backtrack (m : Machine) (base : Nat) (st : State) : Effect :=
  if max m.limits.checkInterval 1 ≤ st.failures + 1 then
    if m.interrupted then .stop .interrupted
    else { st with failures := 0 }.unwind (st.stack.size - base)
  else { st with failures := st.failures + 1 }.unwind (st.stack.size - base)

/-! ### Runs -/

/-- Go on after a condition on what follows.  `entry` holds the slots and the size of the stack
from before.  The stack entries of the condition are dropped; if captures of the condition are
kept, one entry remembers the old ones. -/
def afterLook (m : Machine) (negated : Bool) (next pos : Nat) (slots : Array (Option Nat))
    (base : Nat) : Result → Effect
  | .stopped s => .stop s
  | .failed st =>
    let st := st.truncate base
    if negated then .go next pos { st with slots := slots } else .reject st
  | .accepted _ st =>
    let st := st.truncate base
    if negated then .reject { st with slots := slots }
    else m.pushAnd (.slots slots) st fun st => .go next pos st

/-- Run the program from an address and a position.  Only stack entries above the lowest `base`
belong to the run. -/
def run (m : Machine) : Nat → Nat → Nat → Nat → State → Result
  | 0, _, _, _, _ => .stopped .outOfSteps
  | fuel + 1, base, pc, pos, st =>
    let effect :=
      match m.step pc pos st with
      | .look negated body next pos st =>
        m.afterLook negated next pos st.slots st.stack.size
          (m.run fuel st.stack.size body pos st)
      | effect => effect
    match effect with
    | .go pc pos st => m.run fuel base pc pos st
    | .accept pos st => .accepted pos st
    | .look .. => .stopped .outOfRange
    | .stop s => .stopped s
    | .reject st =>
      match m.backtrack base st with
      | .go pc pos st => m.run fuel base pc pos st
      | .reject st => .failed st
      | .stop s => .stopped s
      | _ => .stopped .outOfRange

/-- The state in which an attempt begins. -/
def start (m : Machine) (pos failures : Nat) : State where
  slots := (Array.replicate m.program.slots none).setIfInBounds 0 (some pos)
  registers := Array.replicate m.program.registers none
  stack := #[]
  failures := failures

/-- Run the whole program from a position of the text.  Slots 0 and 1 get the offsets of the
match. -/
def attempt (m : Machine) (pos failures : Nat) : Result :=
  match m.run m.limits.steps 0 0 pos (m.start pos failures) with
  | .accepted stop st =>
    .accepted stop { st with slots := st.slots.setIfInBounds 1 (some stop) }
  | r => r

end Machine

end RegexEngine

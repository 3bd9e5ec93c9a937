import RegexEngine.Engine.Registry

/-!
# Engines

An engine holds everything that patterns need to be compiled and run: options, the registry,
the interrupt flag, the code generator, and flags that are added to new values.

## Main definitions

* `Options` — the options of an engine.
* `Engine` — the state of an engine.
* `Engine.execute` — run a registered record over a text.
-/

namespace RegexEngine

/-- The options of an engine. -/
structure Options where
  /-- The greatest number of backtracking entries of a match. -/
  backtrackLimit : Nat := 1048576
  /-- The greatest number of instructions of a program. -/
  maxProgramLength : Nat := 65536
  /-- Whether straight patterns are matched without the machine. -/
  nativeTier : Bool := true
  /-- The number of failures between two looks at the interrupt flag. -/
  checkInterval : Nat := 4096
  deriving DecidableEq, Repr, Inhabited

namespace Options

/-- The limits of a match. -/
def limits (o : Options) : Limits where
  backtrack := o.backtrackLimit
  checkInterval := o.checkInterval

/-- The generator that an engine begins with. -/
def generator (o : Options) : Generator := .standard o.nativeTier o.maxProgramLength

end Options

/-- The state of an engine. -/
structure Engine where
  options : Options
  registry : Registry
  interrupts : Interrupts
  generator : Generator
  /-- Flags that are added to every value made with them. -/
  statics : Flags
  deriving Inhabited

namespace Engine

/-- A new engine. -/
def new (o : Options) : Engine where
  options := o
  registry := {}
  interrupts := {}
  generator := o.generator
  statics := .empty

/-- The record for a source and flags, made if there is none. -/
def get (eng : Engine) (source : String) (flags : Flags) : RecordId × Engine :=
  let (id, registry) := eng.registry.get source flags
  (id, { eng with registry })

/-- The record for a source and flag letters. -/
def getWithLetters (eng : Engine) (source letters : String) :
    Except RegexError (RecordId × Engine) :=
  (Flags.parse letters).map (eng.get source)

/-- What an execution of a registered record leaves behind. -/
structure Execution where
  result : Except Failure Status
  engine : Engine
  buffer : Option Buffer

/-- Run a registered record over a text from an offset on. -/
def execute (eng : Engine) (id : RecordId) (t : Text) (start : Nat) (buffer : Option Buffer) :
    Execution :=
  match eng.registry.find? id with
  | none => ⟨.error .misuse, eng, buffer⟩
  | some r =>
    let e := r.execute eng.generator eng.options.limits eng.interrupts t start buffer
    ⟨e.result, { eng with registry := eng.registry.put id e.record, interrupts := e.interrupts },
      e.buffer⟩

/-- Remove the records that nothing has reached and nobody holds. -/
def sweep (eng : Engine) (held : List RecordId) (templateHeld : Bool) (heap : HeapState) :
    SweepCounts × Engine :=
  let (counts, registry) := eng.registry.sweep held templateHeld heap
  (counts, { eng with registry })

end Engine

end RegexEngine

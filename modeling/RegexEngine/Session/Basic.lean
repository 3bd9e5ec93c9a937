import RegexEngine.Engine.Codec
import RegexEngine.Engine.Scripted
import RegexEngine.Engine.Value
import RegexEngine.Session.Names

/-!
# Sessions

A session is an engine together with what its users hold of it: guards on records, values,
match results, the shape of match results, buffers, and a row of encoded bytes.  Each step of a
session uses or changes these, and answers.

## Main definitions

* `Session` — an engine and what is held of it.
* `Session.Step` — what a user may do.
* `Session.Answer` — what a step answers.
* `Session.step`, `Session.run` — the effect of a step and of several.
-/

namespace RegexEngine

/-- An engine and what its users hold of it. -/
structure Session where
  engine : Engine
  /-- Records that are kept by a guard. -/
  guards : Names RecordId := []
  values : Names Value := []
  /-- Match results; each of them also holds the shape of match results. -/
  results : Names Captures := []
  /-- Names under which the shape of match results is held. -/
  templates : List String := []
  buffers : Names Buffer := []
  /-- Encoded values that have not been decoded yet. -/
  encoded : List UInt8 := []
  deriving Inhabited

namespace Session

/-- A new session. -/
def new (o : Options) : Session where
  engine := Engine.new o

/-- Native code of a guarded record that is about to go. -/
structure DyingCode where
  guard : String
  mode : Mode
  width : Width
  deriving DecidableEq, Repr, Inhabited

/-- What a user may do in a session.  In all steps that make something, `name` is the name for
it. -/
inductive Step
  /-- Get the record for a source and flag letters, and guard it. -/
  | guard (name source letters : String)
  /-- Get the record for a source and a flag word, and guard it. -/
  | guardWord (name source : String) (word : Nat)
  | dropGuard (guard : String)
  /-- Put one more guard on a guarded record. -/
  | cloneGuard (name guard : String)
  /-- Guard the record for a source and flag letters if there is one. -/
  | guardExisting (name source letters : String)
  | showRecord (guard : String)
  | showRecords
  /-- Look for a record without making or guarding it. -/
  | lookup (source letters : String)
  | setBarrier (on : Bool)
  /-- Mark a guarded record, or clear its mark. -/
  | setMark (guard : String) (on : Bool)
  | trace (guard : String) (tracer : Tracer)
  /-- Sweep while some sources and some native code are about to go, after some guards have
  been dropped. -/
  | sweep (compacting : Bool) (sources : List String) (code : List DyingCode) (drop : List String)
  /-- Hold the shape of match results. -/
  | holdTemplate (name : String)
  | dropTemplate (name : String)
  /-- Compile a guarded record, also where it is compiled already if `force` is on. -/
  | compile (guard : String) (mode : Mode) (width : Width) (generator : Generator) (force : Bool)
  /-- Run a guarded record over a text, into a buffer if one is named.  An unknown name makes a
  new buffer. -/
  | execute (guard : String) (text : Text) (start : Nat) (buffer : Option String) (fixed : Bool)
  | setGenerator (g : Generator)
  /-- Install a callback. -/
  | install (c : Callback)
  | request
  | showInterrupts
  /-- Answer a raised interrupt flag at once. -/
  | poll (v : Verdict)
  | setStatics (letters : String)
  | create (name source letters : String)
  | createPlain (name source letters : String)
  | ofGuard (name guard : String)
  | clone (name value : String)
  | rebuild (name value : String)
  | showValue (value : String)
  | dropValue (value : String)
  | setLastIndex (value : String) (n : Nat)
  /-- Guard the record of a value. -/
  | guardValue (name value : String)
  /-- Match a text, and hold the match under a name if one is given. -/
  | exec (value : String) (text : Text) (keep : Option String)
  | test (value : String) (text : Text)
  | dropResult (name : String)
  | traceValue (value : String) (tracer : Tracer)
  /-- Append a value to the encoded bytes. -/
  | encode (value : String)
  /-- Decode a value from the given bytes, or from the encoded ones, which are used up. -/
  | decode (name : String) (bytes : Option (List UInt8))
  deriving Inhabited

/-- Install a callback that follows a script. -/
def Step.setCallback (s : Script) : Step := .install s.callback

/-- What a step answers. -/
inductive Answer
  /-- The step names something that there is not. -/
  | noSuchName
  | failure (f : Failure)
  | done
  | nothing
  | flag (b : Bool)
  | number (n : Nat)
  | flags (fs : Flags)
  | record (r : Record)
  | records (rs : List Record)
  /-- A record and the guards on it. -/
  | guarded (guards : List String) (r : Record)
  | traced (seen : Traced)
  | swept (counts : SweepCounts)
  /-- The shape of match results, and the names that held it before. -/
  | template (names : List String)
  /-- The status of an execution, and the buffer afterwards if one was named. -/
  | executed (result : Except Failure Status) (buffer : Option Buffer)
  | interrupts (i : Interrupts)
  | verdict (v : Verdict)
  /-- A value, and whether it is linked to a live record. -/
  | value (v : Value) (linked : Bool)
  /-- A copy, whether it is linked, and whether the value that was copied is. -/
  | cloned (copy : Value) (linked copiedLinked : Bool)
  | matched (result : Except Failure (Option Captures)) (lastIndex : Nat)
  | tested (result : Except Failure Bool) (lastIndex : Nat)
  /-- What the visit of a value has seen, and whether the value is still linked. -/
  | tracedValue (seen : Traced) (linked : Bool)
  | bytes (bs : List UInt8)
  /-- A decoded value or an error, whether the value is linked, and how many bytes are left. -/
  | decoded (result : Except RegexError Value) (left : Nat)
  deriving Inhabited

/-! ### Small changes -/

/-- The registry of the session. -/
def registry (s : Session) : Registry := s.engine.registry

/-- The session with another registry. -/
def withRegistry (s : Session) (g : Registry) : Session :=
  { s with engine := { s.engine with registry := g } }

/-- The session with other interrupts. -/
def withInterrupts (s : Session) (i : Interrupts) : Session :=
  { s with engine := { s.engine with interrupts := i } }

/-- The names of the guards on a record. -/
def guardsOn (s : Session) (id : RecordId) : List String := s.guards.namesWhere (· == id)

/-- The answer that shows a record and the guards on it. -/
def showGuarded (s : Session) (id : RecordId) : Answer :=
  match s.registry.find? id with
  | none => .failure .misuse
  | some r => .guarded (s.guardsOn id) r

/-- The records that some guard is on. -/
def held (s : Session) : List RecordId := s.guards.map (·.2)

/-- Whether something holds the shape of match results. -/
def holdsTemplate (s : Session) : Bool := !s.templates.isEmpty || !s.results.isEmpty

/-- The answer that shows a value. -/
def showValue (s : Session) (v : Value) : Answer := .value v (v.isLinked s.registry)

/-- Put a guard on a record and show it. -/
def putGuard (s : Session) (name : String) (id : RecordId) : Session × Answer :=
  let s := { s with guards := s.guards.put name id }
  (s, s.showGuarded id)

/-- Save a value and show it, or answer with the error. -/
def putValue (s : Session) (name : String) (v : Except RegexError Value) : Session × Answer :=
  match v with
  | .error e => (s, .failure (.error e))
  | .ok v => ({ s with values := s.values.put name v }, s.showValue v)

/-- Go on with the record that a guard is on. -/
def withGuard (s : Session) (guard : String) (k : RecordId → Record → Session × Answer) :
    Session × Answer :=
  match s.guards.find? guard with
  | none => (s, .noSuchName)
  | some id =>
    match s.registry.find? id with
    | none => (s, .failure .misuse)
    | some r => k id r

/-- Go on with a value. -/
def withValue (s : Session) (value : String) (k : Value → Session × Answer) : Session × Answer :=
  match s.values.find? value with
  | none => (s, .noSuchName)
  | some v => k v

/-- Save a value under the name it has. -/
def replaceValue (s : Session) (value : String) (v : Value) : Session :=
  { s with values := s.values.put value v }

/-! ### Registry steps -/

/-- Get the record for a source and flags, and guard it. -/
def getGuard (s : Session) (name source : String) (flags : Except RegexError Flags) :
    Session × Answer :=
  match flags with
  | .error e => (s, .failure (.error e))
  | .ok flags =>
    let (id, engine) := s.engine.get source flags
    { s with engine }.putGuard name id

/-- Whether one record is listed before another: by source, then by flag word. -/
def listedBefore (a b : Record) : Bool :=
  a.source < b.source || (a.source == b.source && a.flags.toWord ≤ b.flags.toWord)

/-- All records in the order in which they are listed. -/
def listRecords (s : Session) : List Record :=
  (s.registry.entries.map (·.2)).mergeSort listedBefore

/-- Look for a record. -/
def lookupRecord (s : Session) (source letters : String) : Answer :=
  match Flags.parse letters with
  | .error e => .failure (.error e)
  | .ok flags =>
    match s.registry.lookup source flags with
    | none => .nothing
    | some id => s.showGuarded id

/-- Guard a record if there is one for a source and flags.  It is not marked. -/
def guardExisting (s : Session) (name source letters : String) : Session × Answer :=
  match Flags.parse letters with
  | .error e => (s, .failure (.error e))
  | .ok flags =>
    match s.registry.lookup source flags with
    | none => (s, .nothing)
    | some id => s.putGuard name id

/-- The slots whose native code is about to go; `none` if a guard has no such name.  A slot
without native code is passed over. -/
def dyingSlots (s : Session) : List DyingCode → Option (List (RecordId × Mode × Width))
  | [] => some []
  | d :: ds =>
    match s.guards.find? d.guard with
    | none => none
    | some id =>
      let native := (s.registry.find? id).any fun r => r.nativeSlots.contains (d.mode, d.width)
      (s.dyingSlots ds).map fun rest => if native then (id, d.mode, d.width) :: rest else rest

/-- Drop some guards, then sweep. -/
def sweepAfter (s : Session) (heap : HeapState) (drop : List String) : Session × Answer :=
  let s := { s with guards := drop.foldl Names.remove s.guards }
  let (counts, engine) := s.engine.sweep s.held s.holdsTemplate heap
  ({ s with engine }, .swept counts)

/-! ### Execution steps -/

/-- Compile a guarded record. -/
def compileRecord (s : Session) (guard : String) (mode : Mode) (width : Width) (g : Generator)
    (force : Bool) : Session × Answer :=
  s.withGuard guard fun id r =>
    let (result, r) := if force then r.compile mode width g else r.compileIfNecessary mode width g
    let s := s.withRegistry (s.registry.put id r)
    match result with
    | .error e => (s, .failure (.error e))
    | .ok () => (s, .record r)

/-- The buffer under a name, or a new one. -/
def bufferNamed (s : Session) (name : String) (fixed : Bool) : Buffer :=
  (s.buffers.find? name).getD { fixed }

/-- Run a guarded record over a text. -/
def executeRecord (s : Session) (guard : String) (t : Text) (start : Nat)
    (buffer : Option String) (fixed : Bool) : Session × Answer :=
  s.withGuard guard fun id _ =>
    let e := s.engine.execute id t start (buffer.map (s.bufferNamed · fixed))
    let s := { s with engine := e.engine }
    match buffer, e.buffer with
    | some name, some b => ({ s with buffers := s.buffers.put name b }, .executed e.result (some b))
    | _, _ => (s, .executed e.result none)

/-! ### Value steps -/

/-- Match a text against a value, and hold the match if it is to be kept. -/
def execValue (s : Session) (value : String) (t : Text) (keep : Option String) :
    Session × Answer :=
  s.withValue value fun v =>
    let m := v.exec s.engine t
    let s := { s with engine := m.engine }.replaceValue value m.value
    match keep, m.result with
    | some name, .ok (some c) =>
      ({ s with results := s.results.put name c }, .matched m.result m.value.lastIndex)
    | _, _ => (s, .matched m.result m.value.lastIndex)

/-- Test a text against a value. -/
def testValue (s : Session) (value : String) (t : Text) : Session × Answer :=
  s.withValue value fun v =>
    let m := v.test s.engine t
    ({ s with engine := m.engine }.replaceValue value m.value, .tested m.result m.value.lastIndex)

/-- Copy a value. -/
def cloneValue (s : Session) (name value : String) : Session × Answer :=
  s.withValue value fun v =>
    let (copy, v, engine) := v.clone s.engine
    let s := { s with engine }.replaceValue value v
    let s := { s with values := s.values.put name copy }
    (s, .cloned copy (copy.isLinked s.registry) (v.isLinked s.registry))

/-- Guard the record of a value. -/
def guardOfValue (s : Session) (name value : String) : Session × Answer :=
  s.withValue value fun v =>
    let (id, v, engine) := v.shared s.engine
    ({ s with engine }.replaceValue value v).putGuard name id

/-- Visit a value. -/
def traceNamed (s : Session) (value : String) (tracer : Tracer) : Session × Answer :=
  s.withValue value fun v =>
    let (seen, v, registry) := v.trace tracer s.registry
    ((s.withRegistry registry).replaceValue value v, .tracedValue seen (v.isLinked registry))

/-- Append a value to the encoded bytes. -/
def encodeValue (s : Session) (value : String) : Session × Answer :=
  s.withValue value fun v =>
    match Codec.encode v with
    | .error e => (s, .failure (.error e))
    | .ok bs =>
      let s := { s with encoded := s.encoded ++ bs }
      (s, .bytes s.encoded)

/-- Decode a value. -/
def decodeValue (s : Session) (name : String) (bytes : Option (List UInt8)) : Session × Answer :=
  let (result, rest) := Codec.decode (bytes.getD s.encoded)
  let s := if bytes.isSome then s else { s with encoded := rest }
  match result with
  | .error e => (s, .decoded (.error e) rest.length)
  | .ok v => ({ s with values := s.values.put name v }, .decoded (.ok v) rest.length)

/-! ### Steps -/

/-- The effect of one step, and its answer. -/
def step (s : Session) : Step → Session × Answer
  | .guard name source letters => s.getGuard name source (Flags.parse letters)
  | .guardWord name source word => s.getGuard name source (Flags.ofWord word)
  | .dropGuard guard => ({ s with guards := s.guards.remove guard }, .flag (s.guards.has guard))
  | .cloneGuard name guard => s.withGuard guard fun id _ => s.putGuard name id
  | .guardExisting name source letters => s.guardExisting name source letters
  | .showRecord guard => s.withGuard guard fun _ r => (s, .record r)
  | .showRecords => (s, .records s.listRecords)
  | .lookup source letters => (s, s.lookupRecord source letters)
  | .setBarrier on => (s.withRegistry { s.registry with barrier := on }, .flag on)
  | .setMark guard on =>
    s.withGuard guard fun id _ => (s.withRegistry (s.registry.setMark id on), .flag on)
  | .trace guard tracer =>
    s.withGuard guard fun id _ =>
      let (seen, registry) := s.registry.trace id tracer
      (s.withRegistry registry, .traced seen)
  | .sweep compacting sources code drop =>
    match s.dyingSlots code with
    | none => (s, .noSuchName)
    | some slots => s.sweepAfter ⟨compacting, sources, slots⟩ drop
  | .holdTemplate name =>
    let held := s.templates.mergeSort (· ≤ ·)
    ({ s.withRegistry { s.registry with hasTemplate := true } with
        templates := name :: s.templates.filter (· != name) }, .template held)
  | .dropTemplate name =>
    ({ s with templates := s.templates.filter (· != name) }, .flag (s.templates.contains name))
  | .compile guard mode width generator force => s.compileRecord guard mode width generator force
  | .execute guard text start buffer fixed => s.executeRecord guard text start buffer fixed
  | .setGenerator g => ({ s with engine := { s.engine with generator := g } }, .done)
  | .install c => (s.withInterrupts (s.engine.interrupts.install c), .done)
  | .request => (s.withInterrupts s.engine.interrupts.request, .flag true)
  | .showInterrupts => (s, .interrupts s.engine.interrupts)
  | .poll v =>
    let (v, i) := s.engine.interrupts.pollWith v
    (s.withInterrupts i, .verdict v)
  | .setStatics letters =>
    match Flags.parse letters with
    | .error e => (s, .failure (.error e))
    | .ok fs => ({ s with engine := { s.engine with statics := fs } }, .flags fs)
  | .create name source letters => s.putValue name (Value.createWithLetters s.engine source letters)
  | .createPlain name source letters =>
    s.putValue name (Flags.parse letters >>= Value.createPlain source)
  | .ofGuard name guard => s.withGuard guard fun id r => s.putValue name (.ok (Value.ofRecord id r))
  | .clone name value => s.cloneValue name value
  | .rebuild name value => s.withValue value fun v => s.putValue name v.rebuild
  | .showValue value => s.withValue value fun v => (s, s.showValue v)
  | .dropValue value => ({ s with values := s.values.remove value }, .flag (s.values.has value))
  | .setLastIndex value n =>
    s.withValue value fun v => (s.replaceValue value { v with lastIndex := n }, .number n)
  | .guardValue name value => s.guardOfValue name value
  | .exec value text keep => s.execValue value text keep
  | .test value text => s.testValue value text
  | .dropResult name => ({ s with results := s.results.remove name }, .flag (s.results.has name))
  | .traceValue value tracer => s.traceNamed value tracer
  | .encode value => s.encodeValue value
  | .decode name bytes => s.decodeValue name bytes

/-- The session after some steps. -/
def run (s : Session) (steps : List Step) : Session := steps.foldl (fun s st => (s.step st).1) s

@[simp] theorem run_nil (s : Session) : s.run [] = s := rfl

@[simp] theorem run_cons (s : Session) (st : Step) (steps : List Step) :
    s.run (st :: steps) = (s.step st).1.run steps := rfl

theorem run_append (s : Session) (xs ys : List Step) : s.run (xs ++ ys) = (s.run xs).run ys :=
  List.foldl_append

end Session

end RegexEngine

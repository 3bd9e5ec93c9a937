import RegexEngine.Engine.Captures
import RegexEngine.Engine.Basic

/-!
# Pattern values

A value is what a caller holds of a pattern: source, flags, the offset at which a global or
sticky value goes on, and a link to the shared record.  The link does not keep the record; a
dead link is renewed when the record is needed.

## Main definitions

* `Value` — the values.
* `Value.create`, `Value.createPlain`, `Value.ofRecord`, `Value.clone` — the ways to make one.
* `Value.shared` — the record of a value.
* `Value.exec`, `Value.test` — match a text from where the value stands.
-/

namespace RegexEngine

/-- A pattern value. -/
structure Value where
  source : String
  flags : Flags
  /-- Where the next match of a global or sticky value is searched for. -/
  lastIndex : Nat := 0
  /-- The record that the value was last linked to. -/
  link : Option RecordId := none
  deriving DecidableEq, Repr, Inhabited

namespace Value

/-- Make a value with exactly these flags.  The source must be a pattern. -/
def createPlain (source : String) (flags : Flags) : Except RegexError Value :=
  match checkSource source with
  | .error f => .error f.toError
  | .ok () => .ok { source, flags }

/-- Make a value, with the static flags of the engine added. -/
def create (eng : Engine) (source : String) (flags : Flags) : Except RegexError Value :=
  createPlain source (flags ∪ eng.statics)

/-- Make a value from flag letters, with the static flags of the engine added. -/
def createWithLetters (eng : Engine) (source letters : String) : Except RegexError Value := do
  create eng source (← Flags.parse letters)

/-- A value that is linked to a record. -/
def ofRecord (id : RecordId) (r : Record) : Value where
  source := r.source
  flags := r.flags
  link := some id

/-- A fresh copy made from source and flags alone. -/
def rebuild (v : Value) : Except RegexError Value := createPlain v.source v.flags

/-- Whether the link leads to a record that is still there. -/
def isLinked (v : Value) (g : Registry) : Bool := v.link.any g.live

/-- The live record that the value is linked to. -/
def linked? (v : Value) (g : Registry) : Option RecordId := v.link.filter g.live

/-- The record of the value.  A dead link is renewed from the registry. -/
def shared (v : Value) (eng : Engine) : RecordId × Value × Engine :=
  match v.linked? eng.registry with
  | some id => (id, v, eng)
  | none =>
    let (id, eng) := eng.get v.source v.flags
    (id, { v with link := some id }, eng)

/-- The record for a copy of the value: that of the value, or where the static flags are not all on
in the value, the one with these flags added. -/
def sharedForCopy (v : Value) (eng : Engine) : RecordId × Value × Engine :=
  if v.flags.includes eng.statics then v.shared eng
  else
    let (id, eng) := eng.get v.source (v.flags ∪ eng.statics)
    (id, v, eng)

/-- A copy of the value, with the static flags of the engine added.  It takes source and flags from
its record.  The answer is the copy, the value itself and the engine. -/
def clone (v : Value) (eng : Engine) : Value × Value × Engine :=
  let (id, v, eng) := v.sharedForCopy eng
  let record := (eng.registry.find? id).getD { source := v.source, flags := v.flags }
  (ofRecord id record, v, eng)

/-- Visit the value.  A marking visit that does not preserve code cuts the link, any other goes
on to the record. -/
def trace (v : Value) (tracer : Tracer) (g : Registry) : Traced × Value × Registry :=
  if tracer.marking && !tracer.preservingCode then (⟨1, 0⟩, { v with link := none }, g)
  else
    match v.linked? g with
    | none => (⟨1, 0⟩, v, g)
    | some id =>
      let (seen, g) := g.trace id tracer
      (⟨seen.sources + 1, seen.code⟩, v, g)

/-! ### Matching -/

/-- Whether the value goes on where its last match ended. -/
def usesLastIndex (v : Value) : Bool := v.flags.global || v.flags.sticky

/-- What matching a value leaves behind. -/
structure Matching (α : Type) where
  result : Except Failure α
  value : Value
  engine : Engine

/-- Match a text from where the value stands.  The answer is the row of pairs of a match, which
is empty if none was asked for or needed. -/
def search (v : Value) (eng : Engine) (t : Text) (wantPairs : Bool) :
    Matching (Option (Array Pair)) :=
  let (id, v, eng) := v.shared eng
  let start := if v.usesLastIndex then v.lastIndex else 0
  if t.size < start then ⟨.ok none, { v with lastIndex := 0 }, eng⟩
  else
    let buffer := if wantPairs || v.usesLastIndex then some { fixed := false : Buffer } else none
    let e := eng.execute id t start buffer
    match e.result with
    | .error f => ⟨.error f, v, e.engine⟩
    | .ok .notFound =>
      ⟨.ok none, if v.usesLastIndex then { v with lastIndex := 0 } else v, e.engine⟩
    | .ok .success =>
      let pairs := (e.buffer.map Buffer.pairs).getD #[]
      let stop := (pairs.getD 0 Pair.undefined).limit.toNat
      ⟨.ok (some pairs), if v.usesLastIndex then { v with lastIndex := stop } else v, e.engine⟩

/-- Match a text and report the offsets.  The first result makes the common shape of match
results. -/
def exec (v : Value) (eng : Engine) (t : Text) : Matching (Option Captures) :=
  let m := v.search eng t true
  match m.result with
  | .error f => ⟨.error f, m.value, m.engine⟩
  | .ok none => ⟨.ok none, m.value, m.engine⟩
  | .ok (some pairs) =>
    let registry := { m.engine.registry with hasTemplate := true }
    ⟨.ok (some ⟨t, pairs⟩), m.value, { m.engine with registry }⟩

/-- Whether a text matches. -/
def test (v : Value) (eng : Engine) (t : Text) : Matching Bool :=
  let m := v.search eng t false
  ⟨m.result.map Option.isSome, m.value, m.engine⟩

/-- The value as text. -/
def display (v : Value) : String := displayPattern v.source v.flags

end Value

end RegexEngine

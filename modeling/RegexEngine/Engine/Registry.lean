import RegexEngine.Engine.Record

/-!
# The registry

All records of an engine.  There is at most one for each source and each set of flags.  A record
has an identity that is never given out again, so that a link to a removed record is dead for
good.  A sweep removes the records that nothing has reached.

## Main definitions

* `Registry` — the records with their identities.
* `Registry.get` — the record for a source and flags, made if there is none.
* `Tracer` — a visitor of what records refer to.
* `HeapState`, `Registry.sweep` — what the host knows, and the removal of records.
-/

namespace RegexEngine

/-- The identity of a record. -/
abbrev RecordId := Nat

/-- The records of an engine. -/
structure Registry where
  /-- The records, in the order in which they were made. -/
  entries : List (RecordId × Record) := []
  /-- The next identity to be given out. -/
  fresh : RecordId := 0
  /-- While the barrier is on, every record that is asked for is marked. -/
  barrier : Bool := false
  /-- Whether the common shape of match results has been made. -/
  hasTemplate : Bool := false
  deriving Inhabited

/-- A visitor of records and values. -/
structure Tracer where
  /-- What is visited counts as reached. -/
  marking : Bool
  /-- Code survives the visit, and with it the links of values. -/
  preservingCode : Bool
  deriving DecidableEq, Repr, Inhabited

/-- What a tracer has seen: sources and native code. -/
structure Traced where
  sources : Nat := 0
  code : Nat := 0
  deriving DecidableEq, Repr, Inhabited

/-- What the host knows when it sweeps. -/
structure HeapState where
  /-- The heap is being compacted, and nothing is removed. -/
  compacting : Bool := false
  /-- The sources that are about to go. -/
  dyingSources : List String := []
  /-- The slots whose native code is about to go. -/
  dyingCode : List (RecordId × Mode × Width) := []
  deriving DecidableEq, Repr, Inhabited

/-- How many records a sweep has kept and removed. -/
structure SweepCounts where
  kept : Nat
  removed : Nat
  deriving DecidableEq, Repr, Inhabited

namespace Record

/-- Visit the record: its source, and each native code it holds. -/
def trace (r : Record) (tracer : Tracer) : Traced × Record :=
  (⟨1, r.nativeSlots.length⟩, if tracer.marking then { r with marked := true } else r)

/-- Whether a sweep keeps the record although nobody holds it: it was reached, and neither its
source nor any native code of it is about to go. -/
def survives (r : Record) (id : RecordId) (heap : HeapState) : Bool :=
  heap.compacting ||
    (r.marked && !heap.dyingSources.contains r.source &&
      !r.nativeSlots.any fun (m, w) => heap.dyingCode.contains (id, m, w))

end Record

namespace Registry

/-- The number of records. -/
def size (g : Registry) : Nat := g.entries.length

/-- The record with an identity, if it has not been removed. -/
def find? (g : Registry) (id : RecordId) : Option Record := g.entries.lookup id

/-- Whether the record with an identity is still there. -/
def live (g : Registry) (id : RecordId) : Bool := (g.find? id).isSome

/-- The record for a source and flags, if there is one. -/
def lookup (g : Registry) (source : String) (flags : Flags) : Option RecordId :=
  (g.entries.find? fun (_, r) => r.source == source && r.flags == flags).map (·.1)

/-- Change the record with an identity. -/
def modify (g : Registry) (id : RecordId) (f : Record → Record) : Registry :=
  { g with entries := g.entries.map fun (i, r) => (i, if i = id then f r else r) }

/-- Replace the record with an identity. -/
def put (g : Registry) (id : RecordId) (r : Record) : Registry := g.modify id fun _ => r

/-- Mark the record with an identity, or clear its mark. -/
def setMark (g : Registry) (id : RecordId) (on : Bool) : Registry :=
  g.modify id fun r => { r with marked := on }

/-- Mark the record with an identity if the barrier is on. -/
def markIfBarrier (g : Registry) (id : RecordId) : Registry :=
  if g.barrier then g.setMark id true else g

/-- Add a record for a source and flags. -/
def add (g : Registry) (source : String) (flags : Flags) : RecordId × Registry :=
  (g.fresh, { g with
    entries := g.entries ++ [(g.fresh, { source, flags })]
    fresh := g.fresh + 1 })

/-- The record for a source and flags.  It is made if there is none, and marked if the barrier
is on. -/
def get (g : Registry) (source : String) (flags : Flags) : RecordId × Registry :=
  match g.lookup source flags with
  | some id => (id, g.markIfBarrier id)
  | none =>
    let (id, g) := g.add source flags
    (id, g.markIfBarrier id)

/-- Visit a record. -/
def trace (g : Registry) (id : RecordId) (tracer : Tracer) : Traced × Registry :=
  match g.find? id with
  | none => ({}, g)
  | some r =>
    let (seen, r) := r.trace tracer
    (seen, g.put id r)

/-- Whether a sweep keeps an entry: somebody holds it, or it survives by itself. -/
def keeps (held : List RecordId) (heap : HeapState) (entry : RecordId × Record) : Bool :=
  held.contains entry.1 || entry.2.survives entry.1 heap

/-- Remove the records that nobody holds and that do not survive by themselves, and clear the
marks of the others.  The shape of match results goes too, unless it is held or the heap is
being compacted. -/
def sweep (g : Registry) (held : List RecordId) (templateHeld : Bool) (heap : HeapState) :
    SweepCounts × Registry :=
  let kept := g.entries.filter (keeps held heap)
  (⟨kept.length, g.entries.length - kept.length⟩,
    { g with
      entries := kept.map fun (i, r) => (i, { r with marked := false })
      hasTemplate := g.hasTemplate && (templateHeld || heap.compacting) })

end Registry

end RegexEngine

/-!
# Interrupts

A host may raise a flag to have the running match stopped.  When a match sees the flag, the
engine clears it and asks the host's callback whether the match shall be tried again.  What the
callback does is up to the host, and is a parameter here.

## Main definitions

* `Callback` — what the host's callback does, call by call.
* `Interrupts` — the flag, the callback and how often it was called.
* `Interrupts.poll` — clear a raised flag and ask the callback.
-/

namespace RegexEngine

/-- What a callback decides. -/
inductive Verdict
  /-- Start the interrupted match again. -/
  | resume
  /-- End it. -/
  | abort
  deriving DecidableEq, Repr, Inhabited

/-- The callback of a host.  It may remember how often it has been called: its calls are numbered,
the next one with zero. -/
structure Callback where
  /-- What it decides in a call. -/
  decides : Nat → Verdict
  /-- Whether it raises the flag again in a call. -/
  raises : Nat → Bool
  deriving Inhabited

namespace Callback

/-- The callback when it has been called once more. -/
def later (c : Callback) : Callback where
  decides n := c.decides (n + 1)
  raises n := c.raises (n + 1)

end Callback

/-- The interrupt flag of an engine and what belongs to it. -/
structure Interrupts where
  /-- Whether the flag is raised. -/
  requested : Bool := false
  callback : Option Callback := none
  /-- How often a callback was called. -/
  calls : Nat := 0
  deriving Inhabited

namespace Interrupts

/-- Raise the flag. -/
def request (i : Interrupts) : Interrupts := { i with requested := true }

/-- Clear the flag. -/
def clear (i : Interrupts) : Interrupts := { i with requested := false }

/-- Install a callback. -/
def install (i : Interrupts) (c : Callback) : Interrupts := { i with callback := some c }

/-- Clear a raised flag and ask the callback.  Without a callback, and without a raised flag,
the answer is to resume. -/
def poll (i : Interrupts) : Verdict × Interrupts :=
  if i.requested then
    match i.callback with
    | none => (.resume, i.clear)
    | some c =>
      (c.decides 0, { requested := c.raises 0, callback := some c.later, calls := i.calls + 1 })
  else (.resume, i)

/-- Clear a raised flag and take the given answer instead of asking the callback. -/
def pollWith (i : Interrupts) (v : Verdict) : Verdict × Interrupts :=
  if i.requested then (v, i.clear) else (.resume, i)

end Interrupts

end RegexEngine

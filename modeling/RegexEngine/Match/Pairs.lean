import RegexEngine.Error

/-!
# Capture offsets

The offsets of a match and of its groups, and the buffers that they are reported in.  A fixed
buffer keeps the size of its first use; a growing one takes any size.

## Main definitions

* `Pair` — the offsets of one group; both are `-1` where the group took no part.
* `Pair.displace` — the pair moved to the right, in words of 32 bits.
* `Buffer` — a row of pairs, the whole match first.
* `Buffer.init`, `Buffer.copyFrom`, `Buffer.displace` — sizing, copying and shifting.
* `Buffer.within` — whether all pairs are consistent and lie in a text of given size.
-/

namespace RegexEngine

/-- The offsets at which a group starts and ends. -/
structure Pair where
  start : Int
  limit : Int
  deriving DecidableEq, Repr, Inhabited

namespace Pair

/-- The pair of a group that took no part in the match. -/
def undefined : Pair := ⟨-1, -1⟩

/-- The pair of the units from `start` to `limit`. -/
def span (start limit : Nat) : Pair := ⟨start, limit⟩

/-- Whether the group took no part. -/
def isUndefined (p : Pair) : Bool := p.start < 0

/-- The number of units between the two offsets. -/
def length (p : Pair) : Nat := (p.limit - p.start).toNat

/-- Whether both offsets are `-1`, or the end does not lie before the start. -/
def consistent (p : Pair) : Bool :=
  if p.start < 0 then p.start == -1 && p.limit == -1 else p.start ≤ p.limit

/-- An offset as the signed word of 32 bits that it is kept in. -/
def toWord (n : Int) : Int := n.bmod 0x100000000

/-- Offsets below `0x80000000` are kept as they are. -/
theorem toWord_natCast {n : Nat} (h : n < 0x80000000) : toWord n = n :=
  Int.bmod_eq_of_le (by omega) (by omega)

/-- The pair moved to the right; an offset that is not defined stays. -/
def displace (p : Pair) (n : Nat) : Pair where
  start := if 0 ≤ p.start then toWord (p.start + n) else p.start
  limit := if 0 ≤ p.limit then toWord (p.limit + n) else p.limit

/-- Whether the pair is consistent and, if defined, ends within `size` units. -/
def within (p : Pair) (size : Nat) : Bool :=
  p.consistent && (p.isUndefined || p.limit ≤ size)

@[simp] theorem isUndefined_undefined : undefined.isUndefined = true := rfl

@[simp] theorem consistent_undefined : undefined.consistent = true := rfl

@[simp] theorem displace_undefined (n : Nat) : undefined.displace n = undefined := rfl

theorem displace_span {a b n : Nat} (ha : a + n < 0x80000000) (hb : b + n < 0x80000000) :
    (span a b).displace n = span (a + n) (b + n) := by
  have move (m : Nat) (h : m + n < 0x80000000) :
      (if 0 ≤ (m : Int) then toWord (m + n) else m) = ((m + n : Nat) : Int) := by
    rw [if_pos (Int.natCast_nonneg m), ← Int.natCast_add, toWord_natCast h]
  rw [displace, span, move a ha, move b hb, span]

end Pair

/-- A buffer of pairs.  A `fixed` one changes its size only while it is empty. -/
structure Buffer where
  fixed : Bool
  pairs : Array Pair := #[]
  deriving DecidableEq, Repr, Inhabited

namespace Buffer

/-- The number of pairs. -/
def size (b : Buffer) : Nat := b.pairs.size

/-- Whether the buffer holds no pair. -/
def isEmpty (b : Buffer) : Bool := b.size == 0

/-- Give the buffer `n` pairs.  Those that fit are kept and new ones are undefined. -/
def resize (b : Buffer) (n : Nat) : Except Failure Buffer :=
  if b.fixed && !b.isEmpty then if b.size = n then .ok b else .error .misuse
  else
    .ok { b with
      pairs := b.pairs.extract 0 n ++ Array.replicate (n - b.size) Pair.undefined }

/-- Give the buffer `n` undefined pairs, at least one. -/
def init (b : Buffer) (n : Nat) : Except Failure Buffer :=
  if n = 0 then .error .misuse
  else (b.resize n).map fun b => { b with pairs := Array.replicate n Pair.undefined }

/-- Make the buffer hold the given pairs, at least one. -/
def copyFrom (b : Buffer) (pairs : Array Pair) : Except Failure Buffer :=
  if pairs.size = 0 then .error .misuse
  else (b.resize pairs.size).map fun b => { b with pairs := pairs }

/-- The pair at an index. -/
def get (b : Buffer) (i : Nat) : Except Failure Pair :=
  match b.pairs[i]? with
  | some p => .ok p
  | none => .error .misuse

/-- Replace the pair at an index. -/
def set (b : Buffer) (i : Nat) (p : Pair) : Except Failure Buffer :=
  if i < b.size then .ok { b with pairs := b.pairs.setIfInBounds i p } else .error .misuse

/-- Move all pairs to the right. -/
def displace (b : Buffer) (n : Nat) : Buffer :=
  if n = 0 then b else { b with pairs := b.pairs.map (·.displace n) }

/-- Whether every pair is consistent and lies in a text of `size` units. -/
def within (b : Buffer) (size : Nat) : Bool := b.pairs.all (·.within size)

end Buffer

end RegexEngine

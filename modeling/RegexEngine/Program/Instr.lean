import RegexEngine.Pattern.Tree

/-!
# Programs

The instructions of the backtracking machine, and the programs made of them.
-/

namespace RegexEngine

/-- The instructions.  Targets are addresses: indices into the program's code. -/
inductive Instr
  /-- The match is complete. -/
  | accept
  /-- Consume this unit. -/
  | unit (u : Nat)
  /-- Consume a unit with this canonical form. -/
  | folded (u : Nat)
  /-- Consume any unit that ends no line. -/
  | any
  /-- Consume a unit of the table, or one outside of it when `negated`; the unit is looked up
  as it is, or by its canonical form when `folded`. -/
  | inTable (table : Nat) (negated folded : Bool)
  /-- Go on if the condition holds. -/
  | anchor (a : Anchor)
  /-- Go on at `first`; if that fails, at `second`. -/
  | split (first second : Nat)
  /-- Go on at `target`. -/
  | jump (target : Nat)
  /-- Store the position in a capture slot. -/
  | save (slot : Nat)
  /-- Forget the capture slots from `first` up to, but without, `last`. -/
  | clear (first last : Nat)
  /-- Consume the text of a group once more; units are compared as they are, or by canonical
  form when `folded`. -/
  | backRef (group : Nat) (folded : Bool)
  /-- Store the position in a loop register. -/
  | mark (register : Nat)
  /-- Go on if the position differs from the one in the loop register. -/
  | progress (register : Nat)
  /-- Run the code at `body` as a condition on what follows, then go on at `next`. -/
  | look (negated : Bool) (body next : Nat)
  /-- The condition of the innermost `look` is met. -/
  | lookEnd
  /-- Never go on. -/
  | fail
  deriving DecidableEq, Repr, Inhabited

/-- A program of the backtracking machine. -/
structure Program where
  code : Array Instr
  /-- The number of capture groups, the whole match not counted. -/
  groups : Nat
  /-- The number of loop registers. -/
  registers : Nat
  /-- Only the first position that a search tries can match. -/
  anchored : Bool
  /-- Whether the code stores captures. -/
  captures : Bool
  /-- The unit with which every match begins, where one is known. -/
  firstUnit : Option Nat
  deriving DecidableEq, Repr, Inhabited

namespace Program

/-- The number of capture slots: two for each group and for the whole match. -/
def slots (p : Program) : Nat := 2 * (p.groups + 1)

end Program

end RegexEngine

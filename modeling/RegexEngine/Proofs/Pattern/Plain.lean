import Mathlib.Data.List.Basic
import RegexEngine.Engine.Record
import RegexEngine.Proofs.Pattern.Canonical

/-!
# Texts without special characters

A text in which no character is special is always a pattern.  Each character is a token of its own,
and the tree is the row of the units: such a pattern has no groups.

* `Token.first_of_plain` — a character that is not special stands for itself.
* `Reader.Holds` — a reader that has read so many units and nothing else.
* `parse_of_plain` — **a text without special characters is the row of its units.**
-/

namespace RegexEngine

/-! ### Tokens -/

namespace Token

/-- The token of a character that stands for itself. -/
def ofPlain (c : Char) : Token :=
  if c.toNat ≤ CodeUnit.maxUnit then atom (.unit c.toNat)
  else
    let (lead, trail) := CodeUnit.surrogates c.toNat
    surrogates lead trail

theorem isFlaw_ofPlain (c : Char) : (ofPlain c).isFlaw = false := by
  unfold ofPlain
  split <;> rfl

/-- A character that is not special stands for itself, whatever follows it. -/
theorem first_of_plain {c : Char} (hc : isSpecial c = false) (groups : Nat) (s : List Char) :
    first groups c s = (ofPlain c, 0) := by
  unfold first
  split
  case h_13 =>
    unfold ofPlain
    split <;> rfl
  all_goals exact absurd hc (by decide)

end Token

/-- Such a text is cut into its characters. -/
theorem Lexeme.cut_of_plain {s : List Char} (hs : ∀ c ∈ s, isSpecial c = false)
    (groups offset : Nat)
    (lexemes : List Lexeme) :
    cut groups offset 0 lexemes s =
      lexemes.reverse ++ (s.zipIdx offset).map fun (c, i) => ⟨i, Token.ofPlain c⟩ := by
  induction s generalizing offset lexemes with
  | nil => simp [cut]
  | cons c s ih =>
    have hc := hs c List.mem_cons_self
    have hrest : ∀ d ∈ s, isSpecial d = false := fun d hd => hs d (List.mem_cons_of_mem c hd)
    rw [cut, Token.first_of_plain hc]
    dsimp only
    rw [Token.isFlaw_ofPlain, if_neg Bool.false_ne_true, ih hrest]
    simp

/-! ### Reading -/

/-- The tree of some units in a row. -/
def Node.ofUnits : List Nat → Node
  | [] => .empty
  | [u] => .unit u
  | us => .seq (us.map .unit)

namespace Reader

/-- The reader has read these units and nothing else. -/
structure Holds (us : List Nat) (r : Reader) : Prop where
  branches : r.settle.branches = ⟨[], (us.map Node.unit).reverse⟩
  groups : r.groups = []
  count : r.count = 0

variable {us : List Nat} {r : Reader}

theorem holds_init : Holds [] {} := ⟨rfl, rfl, rfl⟩

theorem Holds.hold (h : r.Holds us) (u : Nat) : (r.hold (.unit u)).Holds (us ++ [u]) := by
  refine ⟨?_, (groups_settle r).trans h.groups, (count_settle r).trans h.count⟩
  show r.settle.branches.push (.unit u) = _
  rw [h.branches, Branches.push]
  simp

theorem Holds.append (h : r.Holds us) (u : Nat) : (r.append (.unit u)).Holds (us ++ [u]) := by
  have hheld := h.hold u
  -- nothing is left that a quantifier may follow, so there is nothing to settle
  have hpending : (r.append (.unit u)).pending = none := pending_settle r
  refine ⟨?_, hheld.groups, hheld.count⟩
  rw [Reader.settle, hpending]
  exact hheld.branches

/-- A character that stands for itself adds its units. -/
theorem Holds.step (h : r.Holds us) (multiline : Bool) (offset : Nat) (c : Char) :
    ∃ r', r.step multiline ⟨offset, Token.ofPlain c⟩ = .ok r' ∧
      r'.Holds (us ++ CodeUnit.ofChar c) := by
  unfold Token.ofPlain CodeUnit.ofChar
  split
  · exact ⟨_, rfl, h.hold _⟩
  · refine ⟨_, rfl, ?_⟩
    have hboth := (h.append (CodeUnit.surrogates c.toNat).1).hold (CodeUnit.surrogates c.toNat).2
    rwa [List.append_assoc] at hboth

theorem Holds.foldlM (h : r.Holds us) (multiline : Bool) (offset : Nat) (s : List Char) :
    ∃ r', ((s.zipIdx offset).map fun (c, i) => (⟨i, Token.ofPlain c⟩ : Lexeme)).foldlM
        (Reader.step multiline) r = .ok r' ∧
      r'.Holds (us ++ s.flatMap CodeUnit.ofChar) := by
  induction s generalizing r us offset with
  | nil => exact ⟨r, rfl, by simpa using h⟩
  | cons c s ih =>
    obtain ⟨r₁, hstep, h₁⟩ := h.step multiline offset c
    obtain ⟨r', hrest, h'⟩ := ih h₁ (offset + 1)
    refine ⟨r', ?_, by simpa using h'⟩
    simp only [List.zipIdx_cons, List.map_cons, List.foldlM_cons, hstep]
    exact hrest

/-- The pattern of a reader that has read units only. -/
theorem Holds.finish (h : r.Holds us) : r.finish = .ok ⟨Node.ofUnits us, 0⟩ := by
  have hnode : r.settle.branches.node = Node.ofUnits us := by
    rw [h.branches]
    show Branches.last _ = _
    rcases us with _ | ⟨u, _ | ⟨v, us⟩⟩
    · rfl
    · rfl
    · rw [Branches.last_of_two_le (by simp), List.reverse_reverse]
      rfl
  rw [Reader.finish, h.groups, hnode, h.count]

end Reader

/-- **A text without special characters is the row of its units**, under any flags. -/
theorem parse_of_plain {source : String} (h : hasSpecial source = false) (flags : Flags) :
    parse source flags = .ok ⟨Node.ofUnits (source.toList.flatMap CodeUnit.ofChar), 0⟩ := by
  have hplain : ∀ c ∈ source.toList, isSpecial c = false := by
    intro c hc
    simpa using List.any_eq_false.1 h c hc
  obtain ⟨r, hread, hr⟩ := Reader.holds_init.foldlM flags.multiline 0 source.toList
  rw [parse, Lexeme.ofText, Lexeme.cut_of_plain hplain, List.reverse_nil, List.nil_append, hread]
  exact hr.finish

end RegexEngine

import Mathlib.Data.Nat.Basic
import RegexEngine.CodeUnit.Fold

/-!
# What case folding keeps

The canonical form of a unit outside ASCII is what the rules of the table make of it.  A unit and
its canonical form belong to the same of the two classes that assertions and `.` look at, units of
words and line terminators: no rule leads into ASCII, and none leads to or from a line terminator.

* `FoldRule.moved` — what a rule makes of the form of a unit.
* `canonicalize_eq` — **the canonical form of a unit outside ASCII.**
* `FoldRule.Apart` — a rule that touches neither ASCII nor line terminators.
* `CodeUnit.sameClasses_canonicalize` — **a unit and its canonical form belong to the same
  classes.**
-/

namespace RegexEngine

open CodeUnit

variable {u v : Nat} {r : FoldRule} {forms : Array Nat}

/-! ### Rules -/

namespace FoldRule

/-- The unit is one of those that the rule moves. -/
def Moves (r : FoldRule) (u : Nat) : Prop :=
  ∃ k, k < (r.last - r.first) / r.step + 1 ∧ u = r.first + k * r.step

instance (r : FoldRule) (u : Nat) : Decidable (r.Moves u) :=
  inferInstanceAs (Decidable (∃ k, k < _ ∧ u = r.first + k * r.step))

/-- The form of a unit after a rule, given its form before. -/
def moved (r : FoldRule) (u v : Nat) : Nat := if r.Moves u then (u + r.shift).toNat else v

/-- The forms that the first `n` units of a rule are written to. -/
theorem getElem?_fold_write (r : FoldRule) (forms : Array Nat) (u n : Nat) :
    (Nat.fold n (fun k _ forms => forms.setIfInBounds (r.first + k * r.step)
      (↑(r.first + k * r.step) + r.shift).toNat) forms)[u]? =
        forms[u]?.map fun v =>
          if ∃ k, k < n ∧ u = r.first + k * r.step then (u + r.shift).toNat else v := by
  induction n with
  | zero => simp
  | succ n ih =>
    rw [Nat.fold_succ, Array.getElem?_setIfInBounds]
    simp only [Nat.exists_lt_succ_right]
    by_cases hu : r.first + n * r.step = u
    · -- the unit is the last one so far
      have hsize : u < (Nat.fold n (fun k _ forms =>
          forms.setIfInBounds (r.first + k * r.step) (↑(r.first + k * r.step) + r.shift).toNat)
          forms).size ↔ u < forms.size := by
        rw [← not_iff_not, Nat.not_lt, Nat.not_lt, ← Array.getElem?_eq_none_iff,
          ← Array.getElem?_eq_none_iff, ih, Option.map_eq_none_iff]
      rw [if_pos hu, hu]
      simp only [hsize, or_true, if_true]
      by_cases hin : u < forms.size
      · rw [if_pos hin, Array.getElem?_eq_getElem hin, Option.map_some]
      · rw [if_neg hin, Array.getElem?_eq_none (Nat.le_of_not_lt hin), Option.map_none]
    · rw [if_neg hu, ih]
      simp only [Ne.symm hu, or_false]

/-- **A rule moves its units and leaves all others as they are.** -/
theorem getElem?_write (r : FoldRule) (forms : Array Nat) (u : Nat) :
    (r.write forms)[u]? = forms[u]?.map (r.moved u) :=
  r.getElem?_fold_write forms u _

theorem getElem?_foldl_write (rules : List FoldRule) (forms : Array Nat) (u : Nat) :
    (rules.foldl (fun forms r => r.write forms) forms)[u]? =
      forms[u]?.map fun v => rules.foldl (fun v r => r.moved u v) v := by
  induction rules generalizing forms with
  | nil => simp
  | cons r rules ih =>
    rw [List.foldl_cons, ih, getElem?_write, Option.map_map]
    rfl

end FoldRule

/-- **The canonical form of a unit outside ASCII** is what the rules make of it, one after the
other. -/
theorem canonicalize_eq (hascii : 0x80 ≤ u) (hu : u ≤ maxUnit) :
    canonicalize u = FoldRule.table.foldl (fun v r => r.moved u v) u := by
  have hform : foldForms[u]? = some (FoldRule.table.foldl (fun v r => r.moved u v) u) := by
    rw [foldForms, FoldRule.getElem?_foldl_write, Array.getElem?_range,
      if_pos (Nat.lt_succ_of_le hu), Option.map_some]
  rw [canonicalize, if_neg (Nat.not_lt.2 hascii), Array.getD_eq_getD_getElem?, hform,
    Option.getD_some]

/-- Behind the greatest unit of a text every number is its own canonical form. -/
theorem canonicalize_of_lt (hu : maxUnit < u) : canonicalize u = u := by
  have hform : foldForms[u]? = none := by
    rw [foldForms, FoldRule.getElem?_foldl_write, Array.getElem?_range,
      if_neg (Nat.not_lt.2 hu), Option.map_none]
  have hascii : ¬u < 0x80 := by
    have hbound : 0x80 ≤ maxUnit := by decide
    omega
  rw [canonicalize, if_neg hascii, Array.getD_eq_getD_getElem?, hform, Option.getD_none]

/-! ### Classes -/

/-- The rule moves units outside ASCII to units outside ASCII, and there are no line terminators
among them. -/
def FoldRule.Apart (r : FoldRule) : Prop :=
  r.first ≤ r.last ∧ 0x80 ≤ r.first ∧ 0x80 ≤ r.first + r.shift ∧
    (r.last < 0x2028 ∨ 0x2029 < r.first) ∧
      (r.last + r.shift < 0x2028 ∨ 0x2029 < r.first + r.shift)

instance (r : FoldRule) : Decidable r.Apart := inferInstanceAs (Decidable (_ ∧ _))

/-- All rules are like this. -/
theorem FoldRule.apart_of_mem_table : ∀ r ∈ FoldRule.table, r.Apart := by
  decide +kernel

namespace CodeUnit

/-- The two units belong to the same classes. -/
structure SameClasses (u v : Nat) : Prop where
  isLineTerminator : isLineTerminator v = isLineTerminator u
  isWord : isWord v = isWord u

theorem SameClasses.refl (u : Nat) : SameClasses u u := ⟨rfl, rfl⟩

theorem isWord_of_not_ascii (h : 0x80 ≤ u) : isWord u = false := by
  rw [Bool.eq_false_iff]
  intro hword
  simp only [isWord, Bool.or_eq_true, Bool.and_eq_true, decide_eq_true_eq, beq_iff_eq] at hword
  omega

theorem isLineTerminator_of_not_ascii (h : 0x80 ≤ u) (hout : u < 0x2028 ∨ 0x2029 < u) :
    isLineTerminator u = false := by
  rw [Bool.eq_false_iff]
  intro hend
  simp only [isLineTerminator, Bool.or_eq_true, beq_iff_eq] at hend
  omega

/-- A unit and the one that a rule moves it to belong to none of the classes. -/
theorem sameClasses_of_moves (hr : r.Apart) (h : r.Moves u) :
    SameClasses u (u + r.shift).toNat := by
  obtain ⟨hle, hascii, hascii', hout, hout'⟩ := hr
  obtain ⟨k, hk, rfl⟩ := h
  have hmul := Nat.mul_le_of_le_div _ _ _ (Nat.le_of_lt_succ hk)
  generalize k * r.step = n at hmul ⊢
  constructor
  · rw [isLineTerminator_of_not_ascii (by omega) (by omega),
      isLineTerminator_of_not_ascii (by omega) (by omega)]
  · rw [isWord_of_not_ascii (by omega), isWord_of_not_ascii (by omega)]

/-- Rules that are apart keep the form of a unit in the classes of the unit. -/
theorem sameClasses_foldl_moved {rules : List FoldRule} (hrules : ∀ r ∈ rules, r.Apart)
    (h : SameClasses u v) : SameClasses u (rules.foldl (fun v r => r.moved u v) v) := by
  induction rules generalizing v with
  | nil => exact h
  | cons r rules ih =>
    have hmoved : SameClasses u (r.moved u v) := by
      rw [FoldRule.moved]
      split
      · next hmoves => exact sameClasses_of_moves (hrules r List.mem_cons_self) hmoves
      · exact h
    exact ih (fun r' hr' => hrules r' (List.mem_cons_of_mem _ hr')) hmoved

/-- **A unit and its canonical form belong to the same classes.** -/
theorem sameClasses_canonicalize (u : Nat) : SameClasses u (canonicalize u) := by
  by_cases hascii : u < 0x80
  · by_cases hlower : 0x61 ≤ u ∧ u ≤ 0x7A
    · rw [canonicalize_of_lower hlower]
      constructor
      · rw [Bool.eq_iff_iff]
        simp only [isLineTerminator, Bool.or_eq_true, beq_iff_eq]
        omega
      · rw [Bool.eq_iff_iff]
        simp only [isWord, Bool.or_eq_true, Bool.and_eq_true, decide_eq_true_eq, beq_iff_eq]
        omega
    · rw [canonicalize_of_ascii hascii hlower]
      exact SameClasses.refl u
  · by_cases hu : u ≤ maxUnit
    · rw [canonicalize_eq (Nat.le_of_not_lt hascii) hu]
      exact sameClasses_foldl_moved FoldRule.apart_of_mem_table (SameClasses.refl u)
    · rw [canonicalize_of_lt (Nat.lt_of_not_le hu)]
      exact SameClasses.refl u

section Congr

variable (h : canonicalize v = canonicalize u)
include h

/-- **Units that are equal up to case end the same lines.** -/
theorem isLineTerminator_congr : isLineTerminator v = isLineTerminator u := by
  rw [← (sameClasses_canonicalize v).isLineTerminator, h,
    (sameClasses_canonicalize u).isLineTerminator]

/-- **Units that are equal up to case belong to the same words.** -/
theorem isWord_congr : isWord v = isWord u := by
  rw [← (sameClasses_canonicalize v).isWord, h, (sameClasses_canonicalize u).isWord]

end Congr

end CodeUnit

end RegexEngine

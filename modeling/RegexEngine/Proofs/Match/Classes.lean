import RegexEngine.Match.Sequence
import RegexEngine.Proofs.CharSet.Complement
import RegexEngine.Proofs.CharSet.Table
import RegexEngine.Proofs.CodeUnit.Fold

/-!
# What classes match

A class is written down as intervals in any order, which may overlap and may reach above the units
of texts.  The intervals are normalized, and the table of the class is made from the normal form.
Neither step loses or adds a unit.

* `CharTable.contains_normalize`, `CharTable.containsFolded_normalize` — the table of a class
  against the intervals it is written with.
* `SequenceItem.accepts_inTable_iff` — negated classes.
* `SequenceItem.accepts_single` — **up to case the class of one unit matches what the unit does.**
* `CharTable.membership_spec` — **a class matches the units of its intervals.**
-/

namespace RegexEngine

open CodeUnit (maxUnit)
open RegexEngine.Interval

variable {is js : List Interval} {narrow negated : Bool} {u v w x : Nat}

namespace CharTable

theorem hasForm_congr (h : ∀ u, Covers is u ↔ Covers js u) : HasForm is w ↔ HasForm js w := by
  simp only [HasForm, h]

/-- The table of a class contains the units of the intervals that the class is written with. -/
theorem contains_normalize (hle : ∀ i ∈ is, i.lo ≤ i.hi) (hu : narrow = true → u < lowSize) :
    (ofIntervals (normalize is) narrow).contains u = true ↔ Covers is u := by
  have hle' := (normal_iff.mp (normal_normalize hle)).1
  rw [contains_ofIntervals hle' hu, covers_normalize hle]

/-- Up to case it contains what the table of these intervals contains. -/
theorem containsFolded_normalize (hle : ∀ i ∈ is, i.lo ≤ i.hi) (u : Nat) :
    (foldedOfIntervals (normalize is)).containsFolded u =
      (foldedOfIntervals is).containsFolded u := by
  rw [Bool.eq_iff_iff, containsFolded_foldedOfIntervals, containsFolded_foldedOfIntervals]
  exact hasForm_congr fun _ => covers_normalize hle

theorem hasForm_single (hx : x ≤ maxUnit) : HasForm [single x] w ↔ canonicalize x = w := by
  constructor
  · rintro ⟨v, ⟨i, hi, hv⟩, -, rfl⟩
    obtain rfl := List.mem_singleton.mp hi
    rw [show v = x from Nat.le_antisymm hv.2 hv.1]
  · intro hw
    exact ⟨x, ⟨single x, List.mem_singleton_self _, Nat.le_refl x, Nat.le_refl x⟩, hx, hw⟩

end CharTable

namespace SequenceItem

open CharTable

/-- A class accepts the units of its table, and a negated one accepts the others. -/
theorem accepts_inTable_iff {table : CharTable} (upToCase : Bool) {p : Prop}
    (h : (if upToCase then table.containsFolded u else table.contains u) = true ↔ p) :
    (inTable table negated upToCase).accepts u = true ↔ (p ↔ negated = false) := by
  rw [accepts, bne_iff_ne, ← h]
  generalize (if upToCase then table.containsFolded u else table.contains u) = b
  cases b <;> cases negated <;> decide

/-- **Up to case the class of one unit accepts what the unit itself accepts.** -/
theorem accepts_single (hx : x ≤ maxUnit) (u : Nat) :
    (inTable (foldedOfIntervals (normalize [single x])) false true).accepts u =
      (folded (canonicalize x)).accepts u := by
  have hle : ∀ i ∈ [single x], i.lo ≤ i.hi := by simp [single]
  rw [Bool.eq_iff_iff, accepts_inTable_iff true Iff.rfl, accepts, if_pos rfl,
    containsFolded_normalize hle, containsFolded_foldedOfIntervals, hasForm_single hx,
    iff_true_right rfl, beq_iff_eq, eq_comm]

end SequenceItem

namespace CharTable

/-- **A class matches the units of its intervals.**  The intervals may stand in any order, overlap,
touch and reach above the greatest unit.  The table made from their normal form contains a unit
exactly if one of the intervals does; a narrow table is asked for low units only.  Up to case it
contains a unit exactly if some unit of the intervals has the same canonical form, as the table made
from the intervals themselves does.  A negated class accepts all other units.  Up to case the class
of one unit accepts the same units as the unit itself. -/
theorem membership_spec (hle : ∀ i ∈ is, i.lo ≤ i.hi) (negated : Bool) :
    (∀ (narrow : Bool) (u : Nat), (narrow = true → u < lowSize) →
      ((ofIntervals (normalize is) narrow).contains u = true ↔ Covers is u) ∧
      ((SequenceItem.inTable (ofIntervals (normalize is) narrow) negated false).accepts u = true ↔
        (Covers is u ↔ negated = false))) ∧
    (∀ u ≤ maxUnit,
      ((foldedOfIntervals (normalize is)).containsFolded u = true ↔
        ∃ v, Covers is v ∧ v ≤ maxUnit ∧ canonicalize v = canonicalize u) ∧
      ((SequenceItem.inTable (foldedOfIntervals (normalize is)) negated true).accepts u = true ↔
        ((∃ v, Covers is v ∧ v ≤ maxUnit ∧ canonicalize v = canonicalize u) ↔ negated = false)) ∧
      (foldedOfIntervals is).containsFolded u =
        (foldedOfIntervals (normalize is)).containsFolded u) ∧
    ∀ x ≤ maxUnit, ∀ u ≤ maxUnit,
      (SequenceItem.inTable (foldedOfIntervals (normalize [single x])) false true).accepts u =
        (SequenceItem.folded (canonicalize x)).accepts u := by
  refine ⟨fun narrow u hu => ?_, fun u _ => ?_, fun x hx u _ => SequenceItem.accepts_single hx u⟩
  · have hplain := contains_normalize hle hu
    exact ⟨hplain, SequenceItem.accepts_inTable_iff false hplain⟩
  · have hfolded : (foldedOfIntervals (normalize is)).containsFolded u = true ↔
        HasForm is (canonicalize u) := by
      rw [containsFolded_normalize hle, containsFolded_foldedOfIntervals]
    exact ⟨hfolded, SequenceItem.accepts_inTable_iff true hfolded,
      (containsFolded_normalize hle u).symm⟩

/-- Intervals across the end of the low units that touch, overlap and reach above the greatest
unit, and the final sigma. -/
theorem membership_spec_straddling :
    (ofIntervals (normalize [⟨0x101, 0x1FFFF⟩, ⟨0x61, 0x70⟩, ⟨0xF0, 0x100⟩, ⟨0x65, 0x65⟩])
        false).contains 0x101 = true ∧
      (foldedOfIntervals (normalize [⟨0x3C2, 0x3C2⟩])).containsFolded 0x3C3 = true := by
  have hle : ∀ i ∈ ([⟨0x101, 0x1FFFF⟩, ⟨0x61, 0x70⟩, ⟨0xF0, 0x100⟩, ⟨0x65, 0x65⟩] :
      List Interval), i.lo ≤ i.hi := by decide
  have hsigma : ∀ i ∈ ([⟨0x3C2, 0x3C2⟩] : List Interval), i.lo ≤ i.hi := by decide
  refine ⟨(((membership_spec hle false).1 false 0x101) (by simp)).1.mpr ?_,
    ((membership_spec hsigma false).2.1 0x3C3 (by decide)).1.mpr ?_⟩
  · exact ⟨⟨0x101, 0x1FFFF⟩, by simp, by decide, by decide⟩
  · refine ⟨0x3C2, ⟨⟨0x3C2, 0x3C2⟩, by simp, by decide, by decide⟩, by decide, ?_⟩
    -- both are forms of the capital
    rw [canonicalize_eq (by decide) (by decide), canonicalize_eq (by decide) (by decide)]
    decide +kernel

end CharTable

end RegexEngine

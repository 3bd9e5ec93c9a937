import RegexEngine.Engine.Literal
import RegexEngine.Proofs.Match.Safety

/-!
# Literals in texts of both widths

The units that are searched for in Latin-1 texts are those that are searched for in UTF-16 texts, if
every character of the source has a Latin-1 unit.  Otherwise nothing is searched for, and rightly
so: some unit of the source is too great for a Latin-1 text.

* `Text.hasAt_iff` — what it means that units stand in a text.
* `Literal.find?_ofSource` — **the place of a literal does not depend on the width of the text.**
-/

namespace RegexEngine

/-! ### Units in a text -/

namespace Text

variable {t t' : Text} {needle : Array Nat} {i k start : Nat}

theorem hasFrom_iff (hk : k ≤ needle.size) :
    t.hasFrom needle i k = true ↔
      ∀ j, needle.size - k ≤ j → j < needle.size → t.unit? (i + j) = needle[j]? := by
  induction k with
  | zero =>
    rw [hasFrom]
    refine ⟨fun _ j hle hlt => ?_, fun _ => rfl⟩
    omega
  | succ k ih =>
    rw [hasFrom, Bool.and_eq_true, beq_iff_eq, ih (by omega)]
    constructor
    · rintro ⟨hfirst, hrest⟩ j hle hlt
      by_cases hj : j = needle.size - (k + 1)
      · rw [hj]
        exact hfirst
      · exact hrest j (by omega) hlt
    · intro h
      exact ⟨h _ (Nat.le_refl _) (by omega), fun j hle hlt => h j (by omega) hlt⟩

/-- The units stand in the text from an offset on. -/
theorem hasAt_iff :
    t.hasAt needle i = true ↔ ∀ j, j < needle.size → t.unit? (i + j) = needle[j]? := by
  rw [hasAt, hasFrom_iff (Nat.le_refl _)]
  exact ⟨fun h j hlt => h j (by omega) hlt, fun h j _ hlt => h j hlt⟩

theorem firstFrom_lt {p : Nat → Bool} {n i j : Nat} (h : firstFrom p n i = some j) : j < i + n := by
  induction n generalizing i with
  | zero => cases h
  | succ n ih =>
    rw [firstFrom] at h
    split at h
    · obtain rfl := Option.some.inj h
      omega
    · have hlt := ih h
      omega

/-- Units that are found lie in the text, behind the start of the search. -/
theorem find?_bounds (h : t.find? needle start = some found) :
    start ≤ found ∧ found + needle.size ≤ t.size := by
  rw [find?] at h
  split at h
  · cases h
  · obtain ⟨hle, hat, -⟩ := firstFrom_some h
    have hlt := firstFrom_lt h
    refine ⟨hle, ?_⟩
    rcases Nat.eq_zero_or_pos needle.size with hzero | hpos
    · omega
    · -- the last unit of the needle stands in the text
      have hunit := hasAt_iff.1 hat (needle.size - 1) (by omega)
      rw [Array.getElem?_eq_getElem (by omega)] at hunit
      have hlast := lt_of_unit? hunit
      omega

/-- Units of which the text lacks one do not occur in it. -/
theorem find?_eq_none {u : Nat} (hu : u ∈ needle) (hnot : u ∉ t.units) :
    t.find? needle start = none := by
  rw [find?]
  split
  · rfl
  · cases hfind : firstFrom (t.hasAt needle) (t.size - start + 1) start with
    | none => rfl
    | some found =>
      obtain ⟨-, hat, -⟩ := firstFrom_some hfind
      obtain ⟨j, hj, rfl⟩ := Array.mem_iff_getElem.1 hu
      have hunit := hasAt_iff.1 hat j hj
      rw [Array.getElem?_eq_getElem hj] at hunit
      exact absurd (Array.mem_of_getElem? hunit) hnot

/-- The place of units depends on the units of the text only. -/
theorem find?_congr (hunits : t'.units = t.units) (needle : Array Nat) (start : Nat) :
    t'.find? needle start = t.find? needle start := by
  have hat : t'.hasAt needle = t.hasAt needle := by
    funext i
    rw [Bool.eq_iff_iff, hasAt_iff, hasAt_iff]
    simp only [unit?, hunits]
  rw [find?, find?, hat, size, size, hunits]

end Text

/-! ### The units of a source -/

namespace Literal

/-- The unit of a Latin-1 character is its value. -/
theorem ofChar_of_latin1 {c : Char} (hc : c.toNat ≤ 0xFF) : CodeUnit.ofChar c = [c.toNat] := by
  rw [CodeUnit.ofChar, if_pos]
  rw [CodeUnit.maxUnit]
  omega

/-- Every other character has a unit that no Latin-1 text has. -/
theorem exists_unit_of_not_latin1 {c : Char} (hc : 0xFF < c.toNat) :
    ∃ u ∈ CodeUnit.ofChar c, Width.latin1.bound ≤ u := by
  rw [CodeUnit.ofChar]
  split
  · exact ⟨c.toNat, List.mem_singleton.2 rfl, hc⟩
  · refine ⟨_, List.mem_cons_self, ?_⟩
    rw [CodeUnit.surrogates, Width.bound]
    omega

theorem unitsOfString_of_latin1 {source : String}
    (h : ∀ c ∈ source.toList, c.toNat ≤ 0xFF) :
    Text.unitsOfString source = (source.toList.map Char.toNat).toArray := by
  rw [Text.unitsOfString, List.map_eq_flatMap]
  congr 1
  refine List.flatMap_congr fun c hc => ?_
  exact ofChar_of_latin1 (h c hc)

/-- **The place of a literal does not depend on the width of the text.** -/
theorem find?_ofSource (source : String) (t : Text) (start : Nat) :
    (ofSource source).find? t start = t.find? (Text.unitsOfString source) start := by
  rw [find?]
  cases hwidth : t.width with
  | twoByte => rfl
  | latin1 =>
    by_cases hall : source.toList.all (fun c => c.toNat ≤ 0xFF) = true
    · have hlatin1 : ∀ c ∈ source.toList, c.toNat ≤ 0xFF := by
        intro c hc
        simpa using List.all_eq_true.1 hall c hc
      rw [unitsOfString_of_latin1 hlatin1]
      simp only [ofSource, if_pos hall]
    · obtain ⟨c, hc, hgreat⟩ : ∃ c ∈ source.toList, 0xFF < c.toNat := by
        simpa using hall
      obtain ⟨u, hu, hbound⟩ := exists_unit_of_not_latin1 hgreat
      have hmem : u ∈ Text.unitsOfString source := by
        rw [Text.unitsOfString, List.mem_toArray]
        exact List.mem_flatMap.2 ⟨c, hc, hu⟩
      have hnot : u ∉ t.units := by
        intro hin
        have hlt := t.fits u hin
        rw [hwidth] at hlt
        omega
      rw [Text.find?_eq_none hmem hnot]
      simp only [ofSource, if_neg hall]

end Literal

end RegexEngine

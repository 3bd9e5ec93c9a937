import RegexEngine.Proofs.CharSet.Interval

/-!
# One normal form for each set

A set of values has one list of intervals in normal form, so that two lists normalize alike exactly
if they cover the same values.  The gaps between the intervals of a normal form are a normal form
again, that of the units outside, and the gaps between those are the intervals from before: none of
them are lost, since neighbours that touch have been joined.

* `NormalFrom.eq_of_covers` — **a normal form is determined by the values that it covers.**
* `normalize_eq_iff` — when two lists have the same normal form.
* `normal_complement`, `covers_complement` — the complement is the normal form of the units
  outside.
* `complement_complement` — **the complement of the complement is the list itself.**
-/

namespace RegexEngine
namespace Interval

variable {i j : Interval} {is js : List Interval} {n u : Nat}

@[simp] theorem not_covers_nil : ¬Covers [] u := by simp [Covers]

/-! ### Uniqueness -/

theorem NormalFrom.le_of_covers (h : NormalFrom n is) (hu : Covers is u) : n ≤ u := by
  obtain ⟨i, hi, hlo, -⟩ := hu
  exact Nat.le_trans ((normalFrom_iff.mp h).1 i hi) hlo

/-- The first interval has the least values. -/
theorem NormalFrom.lo_le_of_covers (h : NormalFrom n (i :: is)) (hu : Covers (i :: is) u) :
    i.lo ≤ u := by
  have hown : NormalFrom i.lo (i :: is) := ⟨Nat.le_refl _, h.2⟩
  exact hown.le_of_covers hu

/-- The other intervals have the values behind the first one. -/
theorem NormalFrom.covers_tail (h : NormalFrom n (i :: is)) :
    Covers is u ↔ Covers (i :: is) u ∧ i.hi < u := by
  rw [covers_cons]
  constructor
  · intro hu
    have hgap : i.hi + 2 ≤ u := h.2.2.le_of_covers hu
    exact ⟨Or.inr hu, by omega⟩
  · rintro ⟨hi | hu, hlt⟩
    · exact absurd hi.2 (by omega)
    · exact hu

/-- The value behind the first interval lies in a gap. -/
theorem NormalFrom.not_covers_gap (h : NormalFrom n (i :: is)) : ¬Covers (i :: is) (i.hi + 1) := by
  rw [covers_cons]
  rintro (hi | hu)
  · exact absurd hi.2 (by omega)
  · have hgap : i.hi + 2 ≤ i.hi + 1 := h.2.2.le_of_covers hu
    omega

/-- The first intervals of two normal forms with the same values begin alike. -/
theorem NormalFrom.head_lo_le (hi : NormalFrom n (i :: is)) (hj : NormalFrom n (j :: js))
    (h : ∀ u, Covers (i :: is) u ↔ Covers (j :: js) u) : i.lo ≤ j.lo := by
  have hlo : Covers (j :: js) j.lo := covers_cons.mpr (Or.inl ⟨Nat.le_refl _, hj.2.1⟩)
  exact hi.lo_le_of_covers ((h _).mpr hlo)

/-- They end alike: else the gap behind the one would lie inside of the other. -/
theorem NormalFrom.head_hi_le (hi : NormalFrom n (i :: is)) (hj : NormalFrom n (j :: js))
    (h : ∀ u, Covers (i :: is) u ↔ Covers (j :: js) u) : j.hi ≤ i.hi := by
  by_contra hlt
  have hlo : j.lo ≤ i.lo := hj.head_lo_le hi fun u => (h u).symm
  have hle : i.lo ≤ i.hi := hi.2.1
  have hgap : i.hi + 1 ∈ j := ⟨by omega, by omega⟩
  exact hi.not_covers_gap ((h _).mpr (covers_cons.mpr (Or.inl hgap)))

/-- **A normal form is determined by the values that it covers.** -/
theorem NormalFrom.eq_of_covers (hi : NormalFrom n is) (hj : NormalFrom n js)
    (h : ∀ u, Covers is u ↔ Covers js u) : is = js := by
  induction is generalizing n js with
  | nil =>
    cases js with
    | nil => rfl
    | cons j js =>
      have hlo : Covers (j :: js) j.lo := covers_cons.mpr (Or.inl ⟨Nat.le_refl _, hj.2.1⟩)
      exact absurd ((h _).mpr hlo) not_covers_nil
  | cons i is ih =>
    cases js with
    | nil =>
      have hlo : Covers (i :: is) i.lo := covers_cons.mpr (Or.inl ⟨Nat.le_refl _, hi.2.1⟩)
      exact absurd ((h _).mp hlo) not_covers_nil
    | cons j js =>
      have h' : ∀ u, Covers (j :: js) u ↔ Covers (i :: is) u := fun u => (h u).symm
      have hlo : i.lo = j.lo := Nat.le_antisymm (hi.head_lo_le hj h) (hj.head_lo_le hi h')
      have hhi : i.hi = j.hi := Nat.le_antisymm (hj.head_hi_le hi h') (hi.head_hi_le hj h)
      obtain rfl : i = j := by
        cases i
        cases j
        exact congrArg₂ Interval.mk hlo hhi
      -- what lies behind the common first interval is the same as well
      have htail : ∀ u, Covers is u ↔ Covers js u := by
        intro u
        rw [hi.covers_tail, hj.covers_tail, h]
      rw [ih hi.2.2 hj.2.2 htail]

theorem normalize_of_normal (h : Normal is) : normalize is = is := by
  have hle := (normal_iff.mp h).1
  exact NormalFrom.eq_of_covers (normal_normalize hle) h fun _ => covers_normalize hle

/-- **Two lists have the same normal form exactly if they cover the same values.** -/
theorem normalize_eq_iff (hi : ∀ i ∈ is, i.lo ≤ i.hi) (hj : ∀ j ∈ js, j.lo ≤ j.hi) :
    normalize is = normalize js ↔ ∀ u, Covers is u ↔ Covers js u := by
  constructor
  · intro heq u
    rw [← covers_normalize hi, heq, covers_normalize hj]
  · intro h
    apply NormalFrom.eq_of_covers (normal_normalize hi) (normal_normalize hj)
    intro u
    rw [covers_normalize hi, covers_normalize hj, h]

/-! ### Gaps -/

/-- The gaps behind a value are in normal form. -/
theorem normalFrom_gapsFrom (h : NormalFrom n is) (hmax : ∀ i ∈ is, i.hi ≤ CodeUnit.maxUnit) :
    NormalFrom n (gapsFrom n is) := by
  induction is generalizing n with
  | nil =>
    rw [gapsFrom]
    split
    · next hn => exact ⟨Nat.le_refl n, hn, trivial⟩
    · trivial
  | cons i is ih =>
    obtain ⟨hn, hle, his⟩ := h
    rw [List.forall_mem_cons] at hmax
    have hrest : NormalFrom (i.hi + 1) (gapsFrom (i.hi + 1) is) :=
      ih (his.mono (Nat.le_succ _)) hmax.2
    rw [gapsFrom, next_eq hmax.1]
    split
    · next hlt =>
      -- the gap in front of the interval and those behind it have the interval in between
      refine ⟨Nat.le_refl n, ?_, hrest.mono ?_⟩ <;> simp only <;> omega
    · exact hrest.mono (by omega)

/-- The gaps behind a value cover the units behind it that the list does not cover. -/
theorem covers_gapsFrom (h : NormalFrom n is) (hmax : ∀ i ∈ is, i.hi ≤ CodeUnit.maxUnit) :
    Covers (gapsFrom n is) u ↔ n ≤ u ∧ u ≤ CodeUnit.maxUnit ∧ ¬Covers is u := by
  induction is generalizing n with
  | nil =>
    rw [gapsFrom]
    split
    · simp [covers_cons, mem_def]
    · simp only [not_covers_nil, false_iff]
      omega
  | cons i is ih =>
    obtain ⟨hn, hle, his⟩ := h
    rw [List.forall_mem_cons] at hmax
    have hrest : Covers (gapsFrom (i.hi + 1) is) u ↔
        i.hi + 1 ≤ u ∧ u ≤ CodeUnit.maxUnit ∧ ¬Covers is u :=
      ih (his.mono (Nat.le_succ _)) hmax.2
    have hbehind : Covers is u → i.hi + 2 ≤ u := his.le_of_covers
    have hmaxi := hmax.1
    rw [gapsFrom, next_eq hmax.1, covers_cons, mem_def, not_or]
    split
    · next hlt =>
      rw [covers_cons, mem_def, hrest]
      by_cases hu : Covers is u
      · simp only [hu, not_true_eq_false, and_false, or_false, iff_false]
        have := hbehind hu
        omega
      · simp only [hu, not_false_eq_true, and_true]
        omega
    · next hge =>
      rw [hrest]
      by_cases hu : Covers is u
      · simp only [hu, not_true_eq_false, and_false]
      · simp only [hu, not_false_eq_true, and_true]
        omega

/-! ### Complements -/

theorem normal_complement (h : Normal is) (hmax : ∀ i ∈ is, i.hi ≤ CodeUnit.maxUnit) :
    Normal (complement is) :=
  normalFrom_gapsFrom h hmax

/-- The complement covers the units that the list does not cover. -/
theorem covers_complement (h : Normal is) (hmax : ∀ i ∈ is, i.hi ≤ CodeUnit.maxUnit) :
    Covers (complement is) u ↔ u ≤ CodeUnit.maxUnit ∧ ¬Covers is u := by
  rw [complement, covers_gapsFrom h hmax, and_iff_right (Nat.zero_le u)]

theorem le_of_mem_complement (h : Normal is) (hmax : ∀ i ∈ is, i.hi ≤ CodeUnit.maxUnit) :
    ∀ j ∈ complement is, j.hi ≤ CodeUnit.maxUnit := by
  intro j hj
  have hle : j.lo ≤ j.hi := (normal_iff.mp (normal_complement h hmax)).1 j hj
  exact ((covers_complement h hmax).mp ⟨j, hj, hle, Nat.le_refl _⟩).1

/-- **The complement of the complement is the list itself.** -/
theorem complement_complement (h : Normal is) (hmax : ∀ i ∈ is, i.hi ≤ CodeUnit.maxUnit) :
    complement (complement is) = is := by
  have hnormal := normal_complement h hmax
  have hmax' := le_of_mem_complement h hmax
  apply NormalFrom.eq_of_covers (normal_complement hnormal hmax') h
  intro u
  have hle : Covers is u → u ≤ CodeUnit.maxUnit := by
    rintro ⟨i, hi, hu⟩
    exact Nat.le_trans hu.2 (hmax i hi)
  rw [covers_complement hnormal hmax', covers_complement h hmax]
  tauto

/-- **Each set has one normal form, and the complement is exact on normal forms.**  Two lists of
intervals, overlapping or not and in any order, normalize alike exactly if they cover the same
values; what normalizing gives is in normal form and stays as it is when it is normalized again.
The complement of a normal form of units is a normal form of units; it covers the units that the
list does not cover, and its own complement is the list. -/
theorem normalForm_spec :
    (∀ is js : List Interval, (∀ i ∈ is, i.lo ≤ i.hi) → (∀ j ∈ js, j.lo ≤ j.hi) →
      (normalize is = normalize js ↔ ∀ u, Covers is u ↔ Covers js u)) ∧
    (∀ is : List Interval, (∀ i ∈ is, i.lo ≤ i.hi) →
      Normal (normalize is) ∧ normalize (normalize is) = normalize is) ∧
    ∀ is : List Interval, Normal is → (∀ i ∈ is, i.hi ≤ CodeUnit.maxUnit) →
      (Normal (complement is) ∧ ∀ j ∈ complement is, j.hi ≤ CodeUnit.maxUnit) ∧
      (∀ u, Covers (complement is) u ↔ u ≤ CodeUnit.maxUnit ∧ ¬Covers is u) ∧
      complement (complement is) = is := by
  refine ⟨fun is js => normalize_eq_iff, fun is hle => ?_, fun is h hmax => ?_⟩
  · exact ⟨normal_normalize hle, normalize_of_normal (normal_normalize hle)⟩
  · exact ⟨⟨normal_complement h hmax, le_of_mem_complement h hmax⟩,
      fun u => covers_complement h hmax, complement_complement h hmax⟩

/-- Intervals that are out of order, touch, overlap and lie inside of each other, and the intervals
of white space. -/
theorem normalForm_spec_touching :
    normalize [⟨5, 9⟩, ⟨0, 3⟩, ⟨4, 4⟩, ⟨0x20, 0x1FFFF⟩] =
        normalize [⟨0x20, 0x1FFFF⟩, ⟨0, 7⟩, ⟨2, 3⟩, ⟨8, 9⟩] ∧
      normalize (normalize [⟨5, 9⟩, ⟨0, 3⟩, ⟨4, 4⟩]) = normalize [⟨5, 9⟩, ⟨0, 3⟩, ⟨4, 4⟩] ∧
      complement (complement spaces) = spaces := by
  refine ⟨(normalForm_spec.1 _ _ (by decide) (by decide)).mpr fun u => ?_,
    (normalForm_spec.2.1 _ (by decide)).2, (normalForm_spec.2.2 _ ?_ (by decide)).2.2⟩
  · simp only [covers_cons, mem_def, not_covers_nil, or_false]
    omega
  · simp [Normal, NormalFrom, spaces]

end Interval
end RegexEngine

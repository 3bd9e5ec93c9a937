import RegexEngine.CharSet.Table
import RegexEngine.Proofs.CharSet.Interval

/-!
# What character tables contain

A table made from a set of intervals answers for every unit as the set itself does, and a folded
one as the set does up to case.

* `contains_ofIntervals` — looking a unit up as it is.
* `mem_forms` — the canonical forms of a set's units.
* `runs_spec` — the runs of marked units.
* `containsFolded_foldedOfIntervals` — looking a unit up by its canonical form.
-/

namespace RegexEngine
namespace CharTable

open RegexEngine.Interval

/-! ### Plain tables -/

theorem le_of_highPart {i j : Interval} (hi : i.lo ≤ i.hi) (h : highPart i = some j) :
    j.lo ≤ j.hi := by
  unfold highPart at h
  split at h
  · simp only [Option.some.injEq] at h
    subst h
    exact Nat.max_le.mpr ⟨hi, by assumption⟩
  · simp at h

theorem covers_filterMap_highPart {is : List Interval} {u : Nat} (hu : lowSize ≤ u) :
    Covers (is.filterMap highPart) u ↔ Covers is u := by
  simp only [Covers, List.mem_filterMap, highPart]
  constructor
  · rintro ⟨j, ⟨i, hi, hj⟩, huj⟩
    split at hj
    · simp only [Option.some.injEq] at hj
      subst hj
      simp only [mem_def] at huj
      exact ⟨i, hi, mem_def.mpr (by omega)⟩
    · simp at hj
  · rintro ⟨i, hi, hui⟩
    have := mem_def.mp hui
    exact ⟨⟨max i.lo lowSize, i.hi⟩, ⟨i, hi, if_pos (by omega)⟩, mem_def.mpr (by simp only; omega)⟩

theorem size_fold_setIfInBounds (bits : Array Bool) (lo n : Nat) :
    (Nat.fold n (fun k _ bits => bits.setIfInBounds (lo + k) true) bits).size = bits.size := by
  induction n with
  | zero => rfl
  | succ n ih => rw [Nat.fold_succ, Array.size_setIfInBounds, ih]

/-- The first `n` bits from `lo` on are set, and no others. -/
theorem getElem?_fold_setIfInBounds (bits : Array Bool) (lo n : Nat) {u : Nat}
    (hu : u < bits.size) :
    (Nat.fold n (fun k _ bits => bits.setIfInBounds (lo + k) true) bits)[u]? = some true ↔
      bits[u]? = some true ∨ lo ≤ u ∧ u < lo + n := by
  induction n with
  | zero =>
    rw [Nat.fold_zero]
    exact (or_iff_left (by omega)).symm
  | succ n ih =>
    rw [Nat.fold_succ, Array.getElem?_setIfInBounds, size_fold_setIfInBounds]
    by_cases hlast : lo + n = u
    · rw [if_pos hlast, if_pos (hlast ▸ hu)]
      exact iff_of_true rfl (Or.inr (by omega))
    · rw [if_neg hlast]
      exact ih.trans (or_congr_right (by omega))

/-- The bits of the units that a list covers are set, and no others. -/
theorem getElem?_foldl_setBits (is : List Interval) (bits : Array Bool)
    (hbits : bits.size = lowSize) {u : Nat} (hu : u < lowSize) :
    (is.foldl setBits bits)[u]? = some true ↔ bits[u]? = some true ∨ Covers is u := by
  induction is generalizing bits with
  | nil => simp [Covers]
  | cons i is ih =>
    have hsize : (setBits bits i).size = lowSize := by rw [setBits, size_fold_setIfInBounds, hbits]
    rw [List.foldl_cons, ih _ hsize, setBits, getElem?_fold_setIfInBounds _ _ _ (hbits ▸ hu),
      covers_cons, mem_def, or_assoc]
    refine or_congr_right (or_congr_left ?_)
    simp only [lowSize] at hu ⊢
    omega

/-- A low unit has its bit set if the list covers it. -/
theorem low_ofIntervals (is : List Interval) (narrow : Bool) {u : Nat} (hu : u < lowSize) :
    (ofIntervals is narrow).low.getD u false = true ↔ Covers is u := by
  have hfresh : ¬(Array.replicate lowSize false)[u]? = some true := by simp [hu]
  have hbit : ∀ o : Option Bool, o.getD false = true ↔ o = some true := by
    rintro (_ | _ | _) <;> decide
  rw [Array.getD_eq_getD_getElem?, hbit, ofIntervals,
    getElem?_foldl_setBits _ _ Array.size_replicate hu, or_iff_right hfresh]

/-- **A table contains the units of its set.**  A narrow one is asked for low units only. -/
theorem contains_ofIntervals {is : List Interval} (hle : ∀ i ∈ is, i.lo ≤ i.hi) {narrow : Bool}
    {u : Nat} (hu : narrow = true → u < lowSize) :
    (ofIntervals is narrow).contains u = true ↔ Covers is u := by
  unfold contains
  split
  · next hlow => exact low_ofIntervals is narrow hlow
  · next hlow =>
    have hnarrow : narrow = false := by
      cases narrow
      · rfl
      · exact absurd (hu rfl) hlow
    have hhigh : ∀ j ∈ is.filterMap highPart, j.lo ≤ j.hi := by
      intro j hj
      obtain ⟨i, hi, hij⟩ := List.mem_filterMap.mp hj
      exact le_of_highPart (hle i hi) hij
    subst hnarrow
    simp only [ofIntervals, Bool.false_eq_true, if_false]
    rw [bisect_eq_true_iff (by simpa using normal_normalize hhigh), List.toList_toArray,
      covers_normalize hhigh, covers_filterMap_highPart (by omega)]

/-! ### Folded tables -/

theorem mem_fold_push (g : Nat → Nat) (us : Array Nat) (w n : Nat) :
    w ∈ Nat.fold n (fun k _ us => us.push (g k)) us ↔ w ∈ us ∨ ∃ k < n, g k = w := by
  induction n with
  | zero => simp
  | succ n ih =>
    rw [Nat.fold_succ, Array.mem_push, ih]
    constructor
    · rintro ((h | ⟨k, hk, rfl⟩) | rfl)
      · exact Or.inl h
      · exact Or.inr ⟨k, by omega, rfl⟩
      · exact Or.inr ⟨n, by omega, rfl⟩
    · rintro (h | ⟨k, hk, rfl⟩)
      · exact Or.inl (Or.inl h)
      · rcases Nat.eq_or_lt_of_le (Nat.le_of_lt_succ hk) with rfl | hk
        · exact Or.inr rfl
        · exact Or.inl (Or.inr ⟨k, hk, rfl⟩)

/-- Whether some unit of a set has a given canonical form. -/
def HasForm (is : List Interval) (w : Nat) : Prop :=
  ∃ v, Covers is v ∧ v ≤ CodeUnit.maxUnit ∧ canonicalize v = w

theorem mem_forms {is : List Interval} {w : Nat} : w ∈ forms is ↔ HasForm is w := by
  -- the induction needs any array to start from
  have key : ∀ (is : List Interval) (us : Array Nat),
      w ∈ is.foldl (fun us i =>
        Nat.fold (min i.hi CodeUnit.maxUnit + 1 - i.lo)
          (fun k _ us => us.push (canonicalize (i.lo + k))) us) us ↔ w ∈ us ∨ HasForm is w := by
    intro is
    induction is with
    | nil => simp [HasForm, Covers]
    | cons i is ih =>
      intro us
      rw [List.foldl_cons, ih, mem_fold_push (fun k => canonicalize (i.lo + k)), or_assoc]
      refine or_congr_right ?_
      simp only [HasForm, covers_cons, mem_def]
      constructor
      · rintro (⟨k, hk, rfl⟩ | ⟨v, hv, hmax, rfl⟩)
        · exact ⟨i.lo + k, Or.inl (by omega), by omega, rfl⟩
        · exact ⟨v, Or.inr hv, hmax, rfl⟩
      · rintro ⟨v, hv | hv, hmax, rfl⟩
        · exact Or.inl ⟨v - i.lo, by omega, by rw [Nat.add_sub_cancel' hv.1]⟩
        · exact Or.inr ⟨v, hv, hmax, rfl⟩
  simp [forms, key]

theorem le_foldl_max {us : List Nat} {u : Nat} (m : Nat) (h : u ≤ m ∨ u ∈ us) :
    u ≤ us.foldl max m := by
  induction us generalizing m with
  | nil => simpa using h
  | cons v us ih =>
    rw [List.foldl_cons]
    refine ih _ ?_
    rw [List.mem_cons] at h
    rcases h with h | rfl | h
    · exact Or.inl (by omega)
    · exact Or.inl (by omega)
    · exact Or.inr h

theorem getD_foldl_setIfInBounds (us : List Nat) (marks : Array Bool) (u : Nat)
    (hu : u < marks.size) :
    (us.foldl (·.setIfInBounds · true) marks).getD u false = true ↔
      marks.getD u false = true ∨ u ∈ us := by
  induction us generalizing marks with
  | nil => simp
  | cons v us ih =>
    rw [List.foldl_cons, ih _ (by simpa using hu), List.mem_cons]
    simp only [Array.getD_eq_getD_getElem?, Array.getElem?_setIfInBounds]
    by_cases hvu : v = u
    · subst hvu
      simp [hu]
    · simp [hvu, Ne.symm hvu]

/-- Marking one more unit below the runs. -/
private theorem runs_succ_of_mark {marks : Array Bool} {n : Nat} {above : List Interval}
    (h : NormalFrom (n + 1) above) (hn : marks.getD n false = true) :
    ∃ is, runs marks (n + 1) above = runs marks n is ∧ NormalFrom n is ∧
      ∀ u, Covers is u ↔ u = n ∨ Covers above u := by
  cases above with
  | nil =>
    refine ⟨[⟨n, n⟩], by simp [runs, hn], ⟨Nat.le_refl n, Nat.le_refl n, trivial⟩, fun u => ?_⟩
    rw [covers_cons, mem_def]
    exact or_congr_left (by simp only; omega)
  | cons next rest =>
    obtain ⟨hlo, hle, hrest⟩ := h
    by_cases hnext : next.lo = n + 1
    · -- the unit is the one in front of the first run
      refine ⟨⟨n, next.hi⟩ :: rest, by simp [runs, hn, hnext],
        ⟨Nat.le_refl n, by simp only; omega, hrest⟩, fun u => ?_⟩
      rw [covers_cons, covers_cons, mem_def, mem_def, ← or_assoc]
      exact or_congr_left (by simp only; omega)
    · refine ⟨⟨n, n⟩ :: next :: rest, by simp [runs, hn, hnext],
        ⟨Nat.le_refl n, Nat.le_refl n, by simp only; omega, hle, hrest⟩, fun u => ?_⟩
      rw [covers_cons, mem_def]
      exact or_congr_left (by simp only; omega)

/-- The runs of marked units are in normal form and cover the marked units. -/
theorem runs_spec (marks : Array Bool) (n : Nat) {above : List Interval}
    (h : NormalFrom n above) :
    Normal (runs marks n above) ∧ ∀ u, Covers (runs marks n above) u ↔
      Covers above u ∨ u < n ∧ marks.getD u false = true := by
  induction n generalizing above with
  | zero => exact ⟨h, fun u => by simp [runs]⟩
  | succ n ih =>
    by_cases hn : marks.getD n false = true
    · obtain ⟨is, heq, his, hc⟩ := runs_succ_of_mark h hn
      obtain ⟨hnorm, hcov⟩ := ih his
      refine ⟨heq ▸ hnorm, fun u => ?_⟩
      rw [heq, hcov, hc]
      constructor
      · rintro ((rfl | hu) | ⟨hlt, hu⟩)
        · exact Or.inr ⟨by omega, hn⟩
        · exact Or.inl hu
        · exact Or.inr ⟨by omega, hu⟩
      · rintro (hu | ⟨hlt, hu⟩)
        · exact Or.inl (Or.inr hu)
        · rcases Nat.eq_or_lt_of_le (Nat.le_of_lt_succ hlt) with rfl | hlt
          · exact Or.inl (Or.inl rfl)
          · exact Or.inr ⟨hlt, hu⟩
    · have heq : runs marks (n + 1) above = runs marks n above := by simp [runs, hn]
      obtain ⟨hnorm, hcov⟩ := ih (h.mono (Nat.le_succ n))
      refine ⟨heq ▸ hnorm, fun u => ?_⟩
      rw [heq, hcov]
      refine or_congr_right ⟨fun hu => ⟨by omega, hu.2⟩, fun hu => ⟨?_, hu.2⟩⟩
      rcases Nat.eq_or_lt_of_le (Nat.le_of_lt_succ hu.1) with rfl | hlt
      · exact absurd hu.2 hn
      · exact hlt

private theorem foldedIntervals_spec (is : List Interval) :
    Normal (foldedIntervals is) ∧ ∀ w, Covers (foldedIntervals is) w ↔ HasForm is w := by
  obtain ⟨hnorm, hcov⟩ := runs_spec
    ((forms is).foldl (·.setIfInBounds · true) (Array.replicate ((forms is).foldl max 0 + 1) false))
    ((forms is).foldl max 0 + 1) (show NormalFrom _ [] from trivial)
  refine ⟨hnorm, fun w => ?_⟩
  rw [foldedIntervals, hcov, ← mem_forms, ← Array.foldl_toList, ← Array.foldl_toList]
  have hmax : w ∈ forms is → w < (forms is).toList.foldl max 0 + 1 := fun hw =>
    Nat.lt_succ_of_le (le_foldl_max 0 (Or.inr (Array.mem_def.mp hw)))
  constructor
  · rintro (⟨i, hi, _⟩ | ⟨hlt, hw⟩)
    · simp at hi
    · rw [getD_foldl_setIfInBounds _ _ _ (by simpa using hlt)] at hw
      rcases hw with hw | hw
      · rw [Array.getD_eq_getD_getElem?, Array.getElem?_replicate] at hw
        split at hw <;> simp at hw
      · exact Array.mem_def.mpr hw
  · intro hw
    refine Or.inr ⟨hmax hw, ?_⟩
    rw [getD_foldl_setIfInBounds _ _ _ (by simpa using hmax hw)]
    exact Or.inr (Array.mem_def.mp hw)

theorem normal_foldedIntervals (is : List Interval) : Normal (foldedIntervals is) :=
  (foldedIntervals_spec is).1

theorem covers_foldedIntervals {is : List Interval} {w : Nat} :
    Covers (foldedIntervals is) w ↔ HasForm is w :=
  (foldedIntervals_spec is).2 w

/-- **A folded table contains the units that equal one of its set up to case.** -/
theorem containsFolded_foldedOfIntervals {is : List Interval} {u : Nat} :
    (foldedOfIntervals is).containsFolded u = true ↔ HasForm is (canonicalize u) := by
  rw [containsFolded, foldedOfIntervals,
    contains_ofIntervals (normal_iff.mp (normal_foldedIntervals is)).1 (by simp),
    covers_foldedIntervals]

end CharTable
end RegexEngine

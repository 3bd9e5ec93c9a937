import Mathlib.Data.List.Pairwise
import Mathlib.Tactic.Tauto
import RegexEngine.CharSet.Interval

/-!
# The normal form of interval lists

Normalizing a list of intervals keeps the values that it covers and brings it into normal form,
and halving finds a value in a normal form exactly if an interval of it covers the value.

* `Covers` — a value lies in one of the intervals.
* `normal_iff` — the normal form, read off pairs of intervals.
* `normal_normalize`, `covers_normalize` — what normalizing does.
* `normalize_reverse` — **a normal form is brought back into its order.**
* `bisect_eq_true_iff` — halving decides `Covers`.
-/

namespace RegexEngine
namespace Interval

/-- Whether a value lies in one of the intervals. -/
def Covers (is : List Interval) (u : Nat) : Prop := ∃ i ∈ is, u ∈ i

theorem any_contains_iff {is : List Interval} {u : Nat} :
    is.any (·.contains u) = true ↔ Covers is u := by
  simp [Covers]

theorem covers_cons {i : Interval} {is : List Interval} {u : Nat} :
    Covers (i :: is) u ↔ u ∈ i ∨ Covers is u := by
  simp [Covers]

theorem covers_reverse {is : List Interval} {u : Nat} : Covers is.reverse u ↔ Covers is u := by
  simp [Covers]

theorem Covers.perm {is js : List Interval} (h : is.Perm js) {u : Nat} :
    Covers is u ↔ Covers js u := by
  simp [Covers, h.mem_iff]

/-! ### Normal form -/

theorem NormalFrom.mono {m n : Nat} (hmn : m ≤ n) {is : List Interval} (h : NormalFrom n is) :
    NormalFrom m is := by
  cases is with
  | nil => trivial
  | cons i is => exact ⟨Nat.le_trans hmn h.1, h.2⟩

theorem normalFrom_iff {next : Nat} {is : List Interval} :
    NormalFrom next is ↔ (∀ i ∈ is, next ≤ i.lo) ∧ (∀ i ∈ is, i.lo ≤ i.hi) ∧
      is.Pairwise fun i j => i.hi + 2 ≤ j.lo := by
  induction is generalizing next with
  | nil => simp [NormalFrom]
  | cons i is ih =>
    simp only [NormalFrom, List.forall_mem_cons, List.pairwise_cons]
    constructor
    · rintro ⟨hn, hi, his⟩
      obtain ⟨hlo, hle, hp⟩ := ih.mp his
      refine ⟨⟨hn, fun j hj => ?_⟩, ⟨hi, hle⟩, hlo, hp⟩
      have := hlo j hj
      omega
    · rintro ⟨⟨hn, _⟩, ⟨hi, hle⟩, hlo, hp⟩
      exact ⟨hn, hi, ih.mpr ⟨hlo, hle, hp⟩⟩

/-- A list is normal if its intervals are not empty and each lies behind a gap after those
before it. -/
theorem normal_iff {is : List Interval} :
    Normal is ↔ (∀ i ∈ is, i.lo ≤ i.hi) ∧ is.Pairwise fun i j => i.hi + 2 ≤ j.lo := by
  simp [Normal, normalFrom_iff]

/-- A merged list, which is kept in reverse. -/
structure Merged (is : List Interval) : Prop where
  le : ∀ i ∈ is, i.lo ≤ i.hi
  gaps : is.Pairwise fun i j => j.hi + 2 ≤ i.lo

theorem Merged.nil : Merged [] := ⟨by simp, .nil⟩

theorem Merged.normal_reverse {is : List Interval} (h : Merged is) : Normal is.reverse := by
  rw [normal_iff]
  exact ⟨by simpa using h.le, List.pairwise_reverse.mpr h.gaps⟩

/-- The intervals still to be merged begin behind the start of the last merged one. -/
def Follows (merged : List Interval) (lo : Nat) : Prop := ∀ last ∈ merged.head?, last.lo ≤ lo

theorem merged_mergeNext {merged : List Interval} {i : Interval} (h : Merged merged)
    (hi : i.lo ≤ i.hi) (hf : Follows merged i.lo) : Merged (mergeNext merged i) := by
  cases merged with
  | nil => exact ⟨by simp [mergeNext, hi], List.pairwise_singleton _ _⟩
  | cons last rest =>
    obtain ⟨hle, hgaps⟩ := h
    have hlast : last.lo ≤ i.lo := hf last rfl
    rw [List.forall_mem_cons] at hle
    rw [List.pairwise_cons] at hgaps
    simp only [mergeNext]
    split
    · -- the last interval grows upwards, away from the others
      refine ⟨?_, List.pairwise_cons.mpr ⟨hgaps.1, hgaps.2⟩⟩
      rw [List.forall_mem_cons]
      exact ⟨Nat.le_trans hle.1 (Nat.le_max_left _ _), hle.2⟩
    · next hgap =>
      refine ⟨?_, List.pairwise_cons.mpr ⟨?_, List.pairwise_cons.mpr hgaps⟩⟩
      · rw [List.forall_mem_cons, List.forall_mem_cons]
        exact ⟨hi, hle⟩
      · rw [List.forall_mem_cons]
        refine ⟨by omega, fun j hj => ?_⟩
        have := hgaps.1 j hj
        omega

theorem covers_mergeNext {merged : List Interval} {i : Interval} (h : Merged merged)
    (hf : Follows merged i.lo) {u : Nat} :
    Covers (mergeNext merged i) u ↔ Covers merged u ∨ u ∈ i := by
  cases merged with
  | nil => simp [mergeNext, Covers]
  | cons last rest =>
    have hlast : last.lo ≤ i.lo := hf last rfl
    have hle : last.lo ≤ last.hi := h.le last List.mem_cons_self
    simp only [mergeNext]
    split
    · next hjoin =>
      -- without a gap the joined interval has no further values
      have hu : u ∈ (⟨last.lo, max last.hi i.hi⟩ : Interval) ↔ u ∈ last ∨ u ∈ i := by
        simp only [mem_def]
        omega
      rw [covers_cons, covers_cons, hu]
      tauto
    · rw [covers_cons]
      tauto

theorem follows_mergeNext {merged : List Interval} {i : Interval} (hf : Follows merged i.lo)
    {lo : Nat} (hlo : i.lo ≤ lo) : Follows (mergeNext merged i) lo := by
  cases merged with
  | nil => simpa [Follows, mergeNext] using hlo
  | cons last rest =>
    have hlast : last.lo ≤ i.lo := hf last rfl
    simp only [mergeNext]
    split
    · simp only [Follows, List.head?_cons, Option.mem_def, Option.some.injEq, forall_eq']
      omega
    · simpa [Follows] using hlo

/-- Merging a sorted list keeps the invariant and covers what both lists cover. -/
theorem foldl_mergeNext {is merged : List Interval} (h : Merged merged)
    (hle : ∀ i ∈ is, i.lo ≤ i.hi) (hsort : is.Pairwise fun i j => i.lo ≤ j.lo)
    (hf : ∀ i ∈ is, Follows merged i.lo) :
    Merged (is.foldl mergeNext merged) ∧
      ∀ u, Covers (is.foldl mergeNext merged) u ↔ Covers merged u ∨ Covers is u := by
  induction is generalizing merged with
  | nil => exact ⟨h, fun u => by simp [Covers]⟩
  | cons i is ih =>
    rw [List.forall_mem_cons] at hle hf
    rw [List.pairwise_cons] at hsort
    obtain ⟨hm, hc⟩ := ih (merged_mergeNext h hle.1 hf.1) hle.2 hsort.2
      fun j hj => follows_mergeNext hf.1 (hsort.1 j hj)
    refine ⟨hm, fun u => ?_⟩
    rw [List.foldl_cons, hc, covers_mergeNext h hf.1, covers_cons]
    tauto

theorem pairwise_before_mergeSort (is : List Interval) :
    (is.mergeSort before).Pairwise fun i j => before i j := by
  have htrans : ∀ i j k : Interval, before i j → before j k → before i k := by
    intro i j k
    simp only [before, Bool.or_eq_true, Bool.and_eq_true, decide_eq_true_eq, beq_iff_eq]
    omega
  have htotal : ∀ i j : Interval, before i j || before j i := by
    intro i j
    simp only [before, Bool.or_eq_true, Bool.and_eq_true, decide_eq_true_eq, beq_iff_eq]
    omega
  exact List.pairwise_mergeSort htrans htotal is

theorem pairwise_mergeSort_before (is : List Interval) :
    (is.mergeSort before).Pairwise fun i j => i.lo ≤ j.lo := by
  refine (pairwise_before_mergeSort is).imp fun {i j} h => ?_
  simp only [before, Bool.or_eq_true, Bool.and_eq_true, decide_eq_true_eq, beq_iff_eq] at h
  omega

private theorem normalize_spec {is : List Interval} (hle : ∀ i ∈ is, i.lo ≤ i.hi) :
    Normal (normalize is) ∧ ∀ u, Covers (normalize is) u ↔ Covers is u := by
  have hperm : (is.mergeSort before).Perm is := List.mergeSort_perm is before
  obtain ⟨hm, hc⟩ := foldl_mergeNext Merged.nil (fun i hi => hle i (hperm.mem_iff.mp hi))
    (pairwise_mergeSort_before is) fun _ _ => by simp [Follows]
  refine ⟨hm.normal_reverse, fun u => ?_⟩
  rw [normalize, covers_reverse, hc, Covers.perm hperm]
  simp [Covers]

/-- Normalizing brings intervals that are not empty into normal form. -/
theorem normal_normalize {is : List Interval} (hle : ∀ i ∈ is, i.lo ≤ i.hi) :
    Normal (normalize is) :=
  (normalize_spec hle).1

/-- Normalizing keeps the values that are covered. -/
theorem covers_normalize {is : List Interval} (hle : ∀ i ∈ is, i.lo ≤ i.hi) {u : Nat} :
    Covers (normalize is) u ↔ Covers is u :=
  (normalize_spec hle).2 u

/-- Intervals in normal form are not joined. -/
theorem foldl_mergeNext_of_normalFrom {next : Nat} {is merged : List Interval}
    (h : NormalFrom next is) (hmerged : ∀ last ∈ merged.head?, last.hi + 2 ≤ next) :
    is.foldl mergeNext merged = is.reverse ++ merged := by
  induction is generalizing next merged with
  | nil => rfl
  | cons i is ih =>
    obtain ⟨hnext, -, his⟩ := h
    have hmerge : mergeNext merged i = i :: merged := by
      unfold mergeNext
      split
      · rfl
      · next last rest =>
        have := hmerged last rfl
        rw [if_neg (by omega)]
    rw [List.foldl_cons, hmerge, ih his (by simp), List.reverse_cons, List.append_assoc]
    rfl

/-- **Normalizing brings the intervals of a normal form back into their order** and changes nothing
else. -/
theorem normalize_reverse {is : List Interval} (h : Normal is) : normalize is.reverse = is := by
  have hsorted : is.Pairwise fun i j => before i j := by
    refine (List.Pairwise.and_mem.mp (normal_iff.mp h).2).imp fun {i j} ⟨hi, _, hgap⟩ => ?_
    have hle := (normal_iff.mp h).1 i hi
    simp only [before, Bool.or_eq_true, Bool.and_eq_true, decide_eq_true_eq, beq_iff_eq]
    omega
  have hsort : is.reverse.mergeSort before = is := by
    refine List.Perm.eq_of_pairwise (fun i j _ _ hij hji => ?_) (pairwise_before_mergeSort _)
      hsorted ((List.mergeSort_perm is.reverse before).trans (List.reverse_perm is))
    rcases i with ⟨a, b⟩
    rcases j with ⟨c, d⟩
    simp only [before, Bool.or_eq_true, Bool.and_eq_true, decide_eq_true_eq, beq_iff_eq] at hij hji
    rw [Interval.mk.injEq]
    omega
  rw [normalize, hsort, foldl_mergeNext_of_normalFrom h (by simp), List.append_nil,
    List.reverse_reverse]

/-! ### Search -/

theorem Normal.getElem_lt {is : List Interval} (h : Normal is) {a b : Nat} (hab : a < b)
    (ha : a < is.length) (hb : b < is.length) : is[a].hi + 2 ≤ is[b].lo :=
  List.pairwise_iff_getElem.mp (normal_iff.mp h).2 a b ha hb hab

theorem Normal.getElem_le {is : List Interval} (h : Normal is) {a : Nat} (ha : a < is.length) :
    is[a].lo ≤ is[a].hi :=
  (normal_iff.mp h).1 _ (List.getElem_mem ha)

/-- **Halving keeps the one interval that can hold the value.**  If one interval among those
looked at covers it, the interval found is that one. -/
theorem seek_eq {is : Array Interval} (h : Normal is.toList) {u base size k : Nat}
    (hsize : base + size ≤ is.size) (hk : base ≤ k) (hks : k < base + size)
    (hu : u ∈ is[k]) : seek is u base size = k := by
  induction size using Nat.strongRecOn generalizing base with
  | ind size ih =>
    unfold seek
    split
    · next hone =>
      have hmid : base + size / 2 < is.size := by omega
      have hmem := mem_def.mp hu
      simp only [Array.getD_eq_getD_getElem?, Array.getElem?_eq_getElem hmid, Option.getD_some]
      -- the interval in the middle lies behind `u` exactly if it lies behind the `k`th
      rcases Nat.lt_or_ge k (base + size / 2) with hlt | hge
      · have hgap := h.getElem_lt hlt (by simp; omega) (by simpa using hmid)
        have hle := h.getElem_le (a := base + size / 2) (by simpa using hmid)
        simp only [Array.getElem_toList] at hgap hle
        have : is[base + size / 2].isAbove u = true := by
          simp only [isAbove, Bool.and_eq_true, decide_eq_true_eq]
          omega
        rw [if_pos this]
        exact ih (size - size / 2) (by omega) (by omega) hk (by omega) hu
      · have : ¬ is[base + size / 2].isAbove u = true := by
          simp only [isAbove, Bool.and_eq_true, decide_eq_true_eq]
          rcases Nat.eq_or_lt_of_le hge with heq | hlt
          · subst heq
            omega
          · have hgap := h.getElem_lt hlt (by simpa using hmid) (by simp; omega)
            have hle := h.getElem_le (a := base + size / 2) (by simpa using hmid)
            simp only [Array.getElem_toList] at hgap hle
            omega
        rw [if_neg this]
        exact ih (size - size / 2) (by omega) (by omega) hge (by omega) hu
    · omega

/-- On a normal form, halving decides whether a value is covered. -/
theorem bisect_eq_true_iff {is : Array Interval} (h : Normal is.toList) {u : Nat} :
    bisect is u = true ↔ Covers is.toList u := by
  unfold bisect
  constructor
  · intro hb
    split at hb
    · next i hi =>
      exact ⟨i, by simpa using Array.mem_of_getElem? hi, contains_iff.mp hb⟩
    · simp at hb
  · rintro ⟨i, hi, hu⟩
    obtain ⟨k, hk, rfl⟩ := Array.getElem_of_mem (Array.mem_def.mpr hi)
    rw [seek_eq h (by omega) (Nat.zero_le k) (by omega) hu, Array.getElem?_eq_getElem hk]
    simpa using hu

end Interval
end RegexEngine

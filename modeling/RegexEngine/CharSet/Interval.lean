import RegexEngine.CodeUnit.Basic

/-!
# Intervals of units

A set of units is written as a list of closed intervals.  Such a list has a normal form:
sorted, with a gap between neighbours.

## Main definitions

* `Interval` — a closed interval.
* `Interval.normalize` — the normal form of a list of intervals.
* `Interval.complement` — the gaps of a list in normal form.
* `Interval.bisect` — membership in a list in normal form, by halving it.
* `Interval.digits`, `Interval.wordUnits`, `Interval.spaces` — the sets behind `\d`, `\w`, `\s`.
-/

namespace RegexEngine

/-- The values from `lo` to `hi`, both included.  Empty when `hi < lo`. -/
structure Interval where
  lo : Nat
  hi : Nat
  deriving DecidableEq, Repr, Inhabited

namespace Interval

/-- Whether a value lies in the interval. -/
def contains (i : Interval) (u : Nat) : Bool := i.lo ≤ u && u ≤ i.hi

instance : Membership Nat Interval := ⟨fun i u => i.lo ≤ u ∧ u ≤ i.hi⟩

theorem mem_def {i : Interval} {u : Nat} : u ∈ i ↔ i.lo ≤ u ∧ u ≤ i.hi := Iff.rfl

@[simp] theorem contains_iff {i : Interval} {u : Nat} : i.contains u = true ↔ u ∈ i := by
  simp [contains, mem_def]

/-- The interval of one value. -/
def single (u : Nat) : Interval := ⟨u, u⟩

/-! ### Normal form -/

/-- The order in which intervals are sorted: by lower end, then by upper end. -/
def before (i j : Interval) : Bool := i.lo < j.lo || (i.lo == j.lo && i.hi ≤ j.hi)

/-- Put one more interval behind a merged list, given in reverse.  It joins the last interval
when no value lies between the two.  Behind the greatest word there are no values, so that a sum
that saturates there joins the same intervals. -/
def mergeNext (merged : List Interval) (i : Interval) : List Interval :=
  match merged with
  | [] => [i]
  | last :: rest =>
    if i.lo ≤ last.hi + 1 then ⟨last.lo, max last.hi i.hi⟩ :: rest else i :: last :: rest

/-- Sort the intervals and join those that overlap or touch. -/
def normalize (is : List Interval) : List Interval :=
  ((is.mergeSort before).foldl mergeNext []).reverse

@[simp] theorem normalize_nil : normalize [] = [] := by simp [normalize]

/-- A sorted list of nonempty intervals with a gap between neighbours, all from `next` on. -/
def NormalFrom : Nat → List Interval → Prop
  | _, [] => True
  | next, i :: is => next ≤ i.lo ∧ i.lo ≤ i.hi ∧ NormalFrom (i.hi + 2) is

/-- The normal form of lists of intervals. -/
def Normal (is : List Interval) : Prop := NormalFrom 0 is

/-- The value behind an interval.  Values are words of 32 bits: behind the greatest comes 0. -/
def next (i : Interval) : Nat := (i.hi + 1) % 0x100000000

theorem next_eq {i : Interval} (h : i.hi ≤ CodeUnit.maxUnit) : i.next = i.hi + 1 :=
  Nat.mod_eq_of_lt (by simp [CodeUnit.maxUnit] at h; omega)

/-- The gaps of `is` from `first` up to the greatest unit. -/
def gapsFrom (first : Nat) : List Interval → List Interval
  | [] => if first ≤ CodeUnit.maxUnit then [⟨first, CodeUnit.maxUnit⟩] else []
  | i :: is =>
    if first < i.lo then ⟨first, i.lo - 1⟩ :: gapsFrom i.next is else gapsFrom i.next is

/-- The units outside a list in normal form. -/
def complement (is : List Interval) : List Interval := gapsFrom 0 is

/-! ### Search -/

/-- Whether the interval lies behind a value. -/
def isAbove (i : Interval) (u : Nat) : Bool := u < i.lo && u ≤ i.hi

/-- Among the `size` intervals from index `base` on, the index of the last one that does not lie
behind `u`; `base` if they all do. -/
def seek (is : Array Interval) (u base size : Nat) : Nat :=
  if 1 < size then
    let half := size / 2
    if (is.getD (base + half) default).isAbove u then seek is u base (size - half)
    else seek is u (base + half) (size - half)
  else base
termination_by size

/-- Whether a value lies in one of the intervals, which are in normal form. -/
def bisect (is : Array Interval) (u : Nat) : Bool :=
  match is[seek is u 0 is.size]? with
  | some i => i.contains u
  | none => false

/-! ### Named sets -/

/-- The digits. -/
def digits : List Interval := [⟨0x30, 0x39⟩]

/-- The units of words. -/
def wordUnits : List Interval := [⟨0x30, 0x39⟩, ⟨0x41, 0x5A⟩, ⟨0x5F, 0x5F⟩, ⟨0x61, 0x7A⟩]

/-- White space and line terminators. -/
def spaces : List Interval :=
  [⟨0x09, 0x0D⟩, ⟨0x20, 0x20⟩, ⟨0xA0, 0xA0⟩, ⟨0x1680, 0x1680⟩, ⟨0x2000, 0x200A⟩,
    ⟨0x2028, 0x2029⟩, ⟨0x202F, 0x202F⟩, ⟨0x205F, 0x205F⟩, ⟨0x3000, 0x3000⟩, ⟨0xFEFF, 0xFEFF⟩]

end Interval

end RegexEngine

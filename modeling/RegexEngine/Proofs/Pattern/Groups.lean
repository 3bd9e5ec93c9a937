import Mathlib.Data.List.Basic
import RegexEngine.Pattern.Tree

/-!
# The numbers of groups

Parsing numbers the groups of a pattern one after the other, so that the groups inside of any
part of the tree have consecutive numbers, and the interval that a loop clears holds no other
group.

* `Node.groupNumbers` — the numbers of the groups in a tree, outer groups first.
* `Node.WellFormed` — what else holds of every part of a parsed tree.
* `Pattern.Canonical` — a pattern as parsing makes them.
* `groupSpan_of_consecutive` — the interval around consecutive numbers.
-/

namespace RegexEngine

/-! ### Intervals around group numbers -/

@[simp] theorem joinSpans_none_left (s : Option (Nat × Nat)) : joinSpans none s = s := by
  cases s <;> rfl

theorem joinSpans_assoc (r s t : Option (Nat × Nat)) :
    joinSpans (joinSpans r s) t = joinSpans r (joinSpans s t) := by
  rcases r with _ | ⟨a, b⟩ <;> rcases s with _ | ⟨c, d⟩ <;> rcases t with _ | ⟨e, f⟩ <;>
    simp [joinSpans, Nat.min_assoc, Nat.max_assoc]

/-- The least interval around numbers, its upper end excluded. -/
def spanOf (is : List Nat) : Option (Nat × Nat) :=
  is.foldr (fun i s => joinSpans (some (i, i + 1)) s) none

@[simp] theorem spanOf_nil : spanOf [] = none := rfl

@[simp] theorem spanOf_cons (i : Nat) (is : List Nat) :
    spanOf (i :: is) = joinSpans (some (i, i + 1)) (spanOf is) := rfl

theorem spanOf_append (is js : List Nat) :
    spanOf (is ++ js) = joinSpans (spanOf is) (spanOf js) := by
  induction is with
  | nil => simp
  | cons i is ih => rw [List.cons_append, spanOf_cons, spanOf_cons, ih, joinSpans_assoc]

theorem spanOf_range' (first count : Nat) :
    spanOf (List.range' first (count + 1)) = some (first, first + (count + 1)) := by
  induction count generalizing first with
  | zero => simp [joinSpans]
  | succ count ih =>
    rw [List.range'_succ, spanOf_cons, ih]
    simp only [joinSpans, Option.some.injEq, Prod.mk.injEq]
    omega

namespace Node

/-! ### The groups of a tree -/

mutual

/-- The numbers of the groups in the tree, each one in front of those inside of its group. -/
def groupNumbers : Node → List Nat
  | group index body => index :: body.groupNumbers
  | look _ body => body.groupNumbers
  | rep _ _ _ body => body.groupNumbers
  | seq items => allGroupNumbers items
  | alt items => allGroupNumbers items
  | _ => []

/-- The numbers of the groups in trees in a row. -/
def allGroupNumbers : List Node → List Nat
  | [] => []
  | n :: ns => n.groupNumbers ++ allGroupNumbers ns

end

theorem allGroupNumbers_eq (ns : List Node) : allGroupNumbers ns = ns.flatMap groupNumbers := by
  induction ns with
  | nil => simp [allGroupNumbers]
  | cons n ns ih => simp [allGroupNumbers, ih]

mutual

theorem groupSpan_eq : ∀ n : Node, n.groupSpan = spanOf n.groupNumbers
  | group index body => by simp [groupSpan, groupNumbers, groupSpan_eq body]
  | look _ body => by simp [groupSpan, groupNumbers, groupSpan_eq body]
  | rep _ _ _ body => by simp [groupSpan, groupNumbers, groupSpan_eq body]
  | seq items => by simp [groupSpan, groupNumbers, groupSpans_eq items]
  | alt items => by simp [groupSpan, groupNumbers, groupSpans_eq items]
  | empty | unit _ | any | charClass .. | anchor _ | backRef _ => by
    simp [groupSpan, groupNumbers]

theorem groupSpans_eq : ∀ ns : List Node, groupSpans ns = spanOf (allGroupNumbers ns)
  | [] => by simp [groupSpans, allGroupNumbers]
  | n :: ns => by
    simp [groupSpans, allGroupNumbers, spanOf_append, groupSpan_eq n, groupSpans_eq ns]

end

/-- Whether numbers follow one another without a gap. -/
def Consecutive (is : List Nat) : Prop := ∃ first count, is = List.range' first count

theorem Consecutive.of_append {is js : List Nat} (h : Consecutive (is ++ js)) :
    Consecutive is ∧ Consecutive js := by
  obtain ⟨first, count, h⟩ := h
  obtain ⟨k, _, his, hjs⟩ := List.range'_eq_append_iff.mp h.symm
  exact ⟨⟨_, _, his⟩, ⟨_, _, hjs⟩⟩

theorem Consecutive.of_cons {i : Nat} {is : List Nat} (h : Consecutive (i :: is)) :
    Consecutive is :=
  (of_append (show Consecutive ([i] ++ is) from h)).2

theorem Consecutive.nodup {is : List Nat} (h : Consecutive is) : is.Nodup := by
  obtain ⟨first, count, rfl⟩ := h
  exact List.nodup_range' 1 Nat.one_pos

/-- **The interval of a tree holds the numbers of its own groups and no others.** -/
theorem groupSpan_of_consecutive {n : Node} (h : Consecutive n.groupNumbers) :
    (n.groupSpan = none ∧ n.groupNumbers = []) ∨
      ∃ first last, n.groupSpan = some (first, last) ∧
        ∀ i, i ∈ n.groupNumbers ↔ first ≤ i ∧ i < last := by
  obtain ⟨first, count, h⟩ := h
  rw [groupSpan_eq, h]
  cases count with
  | zero => exact Or.inl ⟨rfl, rfl⟩
  | succ count =>
    refine Or.inr ⟨_, _, spanOf_range' first count, fun i => ?_⟩
    rw [List.mem_range'_1]

/-! ### Well-formed trees -/

mutual

/-- What holds of every part of a tree in a pattern with `groups` groups: back-references name
groups, classes are in normal form, bounds are in order, and rows of trees are no shorter than
two. -/
def WellFormed (groups : Nat) : Node → Prop
  | backRef i => 1 ≤ i ∧ i ≤ groups
  | charClass set _ => Interval.Normal set
  | group _ body => body.WellFormed groups
  | look _ body => body.WellFormed groups
  | rep lower upper _ body => (∀ n ∈ upper, lower ≤ n) ∧ body.WellFormed groups
  | seq items => 2 ≤ items.length ∧ AllWellFormed groups items
  | alt items => 2 ≤ items.length ∧ AllWellFormed groups items
  | _ => True

/-- Whether all trees in a row are well formed. -/
def AllWellFormed (groups : Nat) : List Node → Prop
  | [] => True
  | n :: ns => n.WellFormed groups ∧ AllWellFormed groups ns

end

theorem allWellFormed_iff {groups : Nat} {ns : List Node} :
    AllWellFormed groups ns ↔ ∀ n ∈ ns, n.WellFormed groups := by
  induction ns with
  | nil => simp [AllWellFormed]
  | cons n ns ih => simp [AllWellFormed, ih]

end Node

namespace Pattern

/-- A pattern whose groups are numbered in the order of their parentheses, and whose tree is
well formed. -/
structure Canonical (p : Pattern) : Prop where
  numbers : p.root.groupNumbers = List.range' 1 p.groups
  wellFormed : p.root.WellFormed p.groups

theorem Canonical.consecutive {p : Pattern} (h : p.Canonical) :
    Node.Consecutive p.root.groupNumbers :=
  ⟨1, p.groups, h.numbers⟩

theorem Canonical.mem_groupNumbers {p : Pattern} (h : p.Canonical) {i : Nat} :
    i ∈ p.root.groupNumbers ↔ 1 ≤ i ∧ i ≤ p.groups := by
  rw [h.numbers, List.mem_range'_1]
  omega

theorem Canonical.anchored {p : Pattern} (h : p.Canonical) : p.anchored.Canonical where
  numbers := by simpa [Pattern.anchored, Node.groupNumbers, Node.allGroupNumbers] using h.numbers
  wellFormed := by
    simpa [Pattern.anchored, Node.WellFormed, Node.AllWellFormed] using h.wellFormed

end Pattern

end RegexEngine

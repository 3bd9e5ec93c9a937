import RegexEngine.Proofs.Pattern.Canonical

/-!
# The parts of a parsed tree

What parsing guarantees holds of every part of the tree that it returns, down to the single units.
The numbers of the groups inside of a part are those of the interval that is read off it, so that
a loop which forgets this interval forgets its own groups.

* `Node.Part` — the parts of a tree.
* `Node.Orderly` — what holds of each part by itself.
* `Node.Part.isInfix` — the group numbers of a part stand side by side in those of the tree.
* `Node.mem_groupNumbers_iff` — the group numbers of a tree are those of its parts.
* `parts_of_parse` — **what holds of every part of a parsed tree.**
-/

namespace RegexEngine

namespace Node

/-- The trees directly inside of a tree. -/
def children : Node → List Node
  | group _ body | look _ body | rep _ _ _ body => [body]
  | seq items | alt items => items
  | _ => []

/-- The parts of a tree: the tree itself, and what is directly inside of one of its parts. -/
inductive Part (root : Node) : Node → Prop
  | whole : Part root root
  | child {n c : Node} (h : Part root n) (hc : c ∈ n.children) : Part root c

/-- What holds of a tree by itself in a pattern with `groups` groups. -/
def Orderly (groups : Nat) : Node → Prop
  | backRef i => 1 ≤ i ∧ i ≤ groups
  | charClass set _ =>
    (∀ i ∈ set, i.lo ≤ i.hi) ∧ set.Pairwise fun i j => i.hi + 1 < j.lo
  | rep lower (some upper) _ _ => lower ≤ upper
  | seq items => 2 ≤ items.length
  | alt items => 2 ≤ items.length
  | _ => True

variable {root n c : Node} {groups i : Nat}

theorem Part.trans {m : Node} (h : n.Part m) (hn : root.Part n) : root.Part m := by
  induction h with
  | whole => exact hn
  | child _ hc ih => exact .child ih hc

/-- What the children of a tree have in common with it holds of all parts. -/
theorem Part.induct {P : Node → Prop} (hchild : ∀ n, P n → ∀ c ∈ n.children, P c) (h : P root)
    (hn : root.Part n) : P n := by
  induction hn with
  | whole => exact h
  | child _ hc ih => exact hchild _ ih _ hc

/-! ### Group numbers -/

theorem isInfix_allGroupNumbers {ns : List Node} (hc : c ∈ ns) :
    c.groupNumbers <:+: allGroupNumbers ns := by
  obtain ⟨before, after, rfl⟩ := List.append_of_mem hc
  rw [allGroupNumbers_eq, List.flatMap_append, List.flatMap_cons]
  exact ⟨_, _, List.append_assoc _ _ _⟩

theorem isInfix_of_mem_children (hc : c ∈ n.children) : c.groupNumbers <:+: n.groupNumbers := by
  cases n with
  | group index body =>
    obtain rfl := List.mem_singleton.1 hc
    exact List.infix_cons List.infix_rfl
  | look negated body | rep lower upper greedy body =>
    obtain rfl := List.mem_singleton.1 hc
    exact List.infix_rfl
  | seq items | alt items => exact isInfix_allGroupNumbers hc
  | _ => cases hc

/-- The group numbers of a part stand side by side in those of the tree. -/
theorem Part.isInfix (h : root.Part n) : n.groupNumbers <:+: root.groupNumbers := by
  induction h with
  | whole => exact List.infix_rfl
  | child _ hc ih => exact (isInfix_of_mem_children hc).trans ih

theorem Consecutive.of_isInfix {is js : List Nat} (h : Consecutive js) (his : is <:+: js) :
    Consecutive is := by
  obtain ⟨before, after, rfl⟩ := his
  exact h.of_append.1.of_append.2

mutual

theorem exists_part_of_mem : ∀ n : Node, i ∈ n.groupNumbers → ∃ body, n.Part (group i body)
  | group index body, h => by
    rcases List.mem_cons.1 h with rfl | h
    · exact ⟨body, .whole⟩
    · obtain ⟨b, hb⟩ := exists_part_of_mem body h
      exact ⟨b, hb.trans (.child .whole List.mem_cons_self)⟩
  | look _ body, h | rep _ _ _ body, h => by
    obtain ⟨b, hb⟩ := exists_part_of_mem body h
    exact ⟨b, hb.trans (.child .whole List.mem_cons_self)⟩
  | seq items, h | alt items, h => by
    obtain ⟨n, hn, b, hb⟩ := exists_part_of_mem_all items h
    exact ⟨b, hb.trans (.child .whole hn)⟩
  | empty, h | unit _, h | any, h | charClass .., h | anchor _, h | backRef _, h => by cases h

theorem exists_part_of_mem_all : ∀ ns : List Node, i ∈ allGroupNumbers ns →
    ∃ n ∈ ns, ∃ body, n.Part (group i body)
  | [], h => by cases h
  | n :: ns, h => by
    rcases List.mem_append.1 h with h | h
    · obtain ⟨b, hb⟩ := exists_part_of_mem n h
      exact ⟨n, List.mem_cons_self, b, hb⟩
    · obtain ⟨m, hm, b, hb⟩ := exists_part_of_mem_all ns h
      exact ⟨m, List.mem_cons_of_mem _ hm, b, hb⟩

end

/-- **The group numbers of a tree are the numbers of the groups among its parts.** -/
theorem mem_groupNumbers_iff : i ∈ n.groupNumbers ↔ ∃ body, n.Part (group i body) :=
  ⟨exists_part_of_mem n, fun ⟨_, h⟩ => h.isInfix.mem List.mem_cons_self⟩

/-- The interval of a tree holds its group numbers and no others.  A tree without groups has no
interval. -/
theorem mem_groupNumbers_iff_of_consecutive (h : Consecutive n.groupNumbers) :
    i ∈ n.groupNumbers ↔ ∃ span ∈ n.groupSpan, span.1 ≤ i ∧ i < span.2 := by
  rcases groupSpan_of_consecutive h with ⟨hspan, hnone⟩ | ⟨first, last, hspan, hmem⟩
  · simp [hspan, hnone]
  · simp [hspan, hmem]

/-! ### Well-formed parts -/

theorem WellFormed.child (h : n.WellFormed groups) (hc : c ∈ n.children) : c.WellFormed groups := by
  cases n with
  | group index body | look negated body =>
    obtain rfl := List.mem_singleton.1 hc
    exact h
  | rep lower upper greedy body =>
    obtain rfl := List.mem_singleton.1 hc
    exact h.2
  | seq items | alt items => exact allWellFormed_iff.1 h.2 c hc
  | _ => cases hc

theorem WellFormed.orderly (h : n.WellFormed groups) : n.Orderly groups := by
  cases n with
  | charClass set negated => exact Interval.normal_iff.1 h
  | rep lower upper greedy body =>
    cases upper with
    | none => trivial
    | some upper => exact h.1 upper rfl
  | seq items | alt items => exact h.1
  | backRef i => exact h
  | _ => trivial

end Node

/-- **What holds of every part of a parsed tree.**  The groups that were counted ahead are those of
the pattern.  They are numbered in the order of their parentheses, each one once.  Every part is
orderly, and the interval that is read off it holds the numbers of the groups inside of it and no
others. -/
theorem parts_of_parse {source : String} {flags : Flags} {p : Pattern}
    (h : parse source flags = .ok p) :
    countGroups false 0 source.toList = p.groups ∧
      p.root.groupNumbers = List.range' 1 p.groups ∧
        ∀ n, p.root.Part n → n.Orderly p.groups ∧
          ∀ i, (∃ body, n.Part (.group i body)) ↔
            ∃ span ∈ n.groupSpan, span.1 ≤ i ∧ i < span.2 := by
  obtain ⟨hcanonical, hcount⟩ := canonical_of_parse h
  refine ⟨hcount.symm, hcanonical.numbers, fun n hn => ⟨?_, fun i => ?_⟩⟩
  · have hwellFormed : n.WellFormed p.groups :=
      hn.induct (fun _ h _ hc => h.child hc) hcanonical.wellFormed
    exact hwellFormed.orderly
  · have hconsecutive := hcanonical.consecutive.of_isInfix hn.isInfix
    rw [← Node.mem_groupNumbers_iff, Node.mem_groupNumbers_iff_of_consecutive hconsecutive]

/-- The pattern of `(?:(a)|(b\1?)){2,3}`. -/
def Pattern.nested : Pattern where
  root := .rep 2 (some 3) true (.alt [.group 1 (.unit 0x61),
    .group 2 (.seq [.unit 0x62, .rep 0 (some 1) true (.backRef 1)])])
  groups := 2

theorem Pattern.parse_nested :
    parse "(?:(a)|(b\\1?))\x7b2,3\x7d" .empty = .ok .nested := rfl

/-- The parts of that pattern. -/
theorem parts_of_parse_nested :
    parse "(?:(a)|(b\\1?))\x7b2,3\x7d" .empty = .ok .nested ∧
      countGroups false 0 "(?:(a)|(b\\1?))\x7b2,3\x7d".toList = Pattern.nested.groups ∧
        Pattern.nested.root.groupNumbers = List.range' 1 Pattern.nested.groups ∧
          ∀ n, Pattern.nested.root.Part n → n.Orderly Pattern.nested.groups ∧
            ∀ i, (∃ body, n.Part (.group i body)) ↔
              ∃ span ∈ n.groupSpan, span.1 ≤ i ∧ i < span.2 :=
  ⟨Pattern.parse_nested, parts_of_parse Pattern.parse_nested⟩

end RegexEngine

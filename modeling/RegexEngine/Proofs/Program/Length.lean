import RegexEngine.Proofs.Pattern.Groups
import RegexEngine.Proofs.Program.Capacity

/-!
# The lengths of programs

How many instructions the program of a pattern has can be read off its tree, and a pattern is
refused exactly if its program would be longer than the cap allows.

* `Node.codeLength` — the number of instructions of a tree, by recursion on the tree.
* `Node.size_fragment` — **the fragment of a tree has as many instructions.**
* `Pattern.codeLength_spec` — **the cap is exact.**
-/

namespace RegexEngine

namespace Node

/-! ### Trees with groups -/

theorem isSome_joinSpans (s t : Option (Nat × Nat)) :
    (joinSpans s t).isSome = (s.isSome || t.isSome) := by
  rcases s with _ | ⟨a, b⟩ <;> rcases t with _ | ⟨c, d⟩ <;> rfl

mutual

/-- There is an interval around the groups of a tree if there are groups. -/
theorem isSome_groupSpan : ∀ n : Node, n.groupSpan.isSome = n.hasGroups
  | group index body => by rw [groupSpan, isSome_joinSpans, hasGroups, Option.isSome_some,
      Bool.true_or]
  | look _ body | rep _ _ _ body => by rw [groupSpan, hasGroups, isSome_groupSpan body]
  | seq items | alt items => by rw [groupSpan, hasGroups, isSome_groupSpans items]
  | empty | unit _ | any | charClass .. | anchor _ | backRef _ => rfl

theorem isSome_groupSpans : ∀ ns : List Node, (groupSpans ns).isSome = anyHasGroups ns
  | [] => rfl
  | n :: ns => by
    rw [groupSpans, isSome_joinSpans, anyHasGroups, isSome_groupSpan n, isSome_groupSpans ns]

end

/-! ### Lengths -/

mutual

/-- The number of instructions of a tree, with or without those that store captures. -/
def codeLength (captures : Bool) : Node → Nat
  | empty => 0
  | unit _ | any | charClass .. | anchor _ | backRef _ => 1
  | look _ body => body.codeLength captures + 2
  | group _ body => if captures then body.codeLength captures + 2 else body.codeLength captures
  | seq items => allCodeLength captures items
  | alt items => allCodeLength captures items + 2 * (items.length - 1)
  | rep lower upper _ body =>
    let once := body.codeLength captures + if captures && body.hasGroups then 1 else 0
    lower * once +
      match upper with
      | none => once + 2 + if body.canBeEmpty then 2 else 0
      | some upper => (upper - lower) * (once + 1)

/-- The number of instructions of trees, one after the other. -/
def allCodeLength (captures : Bool) : List Node → Nat
  | [] => 0
  | n :: ns => n.codeLength captures + allCodeLength captures ns

end

@[simp] theorem allCodeLength_cons (captures : Bool) (n : Node) (ns : List Node) :
    allCodeLength captures (n :: ns) = n.codeLength captures + allCodeLength captures ns := rfl

end Node

namespace Fragment

variable {F : Nat → Nat → Fragment} {once : Nat}

/-- Copies of one length. -/
theorem size_copies (hF : ∀ tb rg, (F tb rg).size = once) (tables registers n tb rg : Nat) :
    (copies F tables registers n tb rg).size = n * once := by
  induction n generalizing tb rg with
  | zero => rw [copies, size, Nat.zero_mul]
  | succ n ih => rw [copies, size, hF, ih, Nat.succ_mul, Nat.add_comm]

/-- Optional copies of one length, with a choice in front of each. -/
theorem size_optionals (hF : ∀ tb rg, (F tb rg).size = once) (tables registers : Nat)
    (greedy : Bool) (n tb rg : Nat) :
    (optionals F tables registers greedy n tb rg).size = n * (once + 1) := by
  induction n generalizing tb rg with
  | zero => rw [optionals, size, Nat.zero_mul]
  | succ n ih =>
    rw [optionals, size, size, hF, ih, Nat.succ_mul]
    omega

theorem size_unbounded (hF : ∀ tb rg, (F tb rg).size = once) (greedy canBeEmpty : Bool)
    (tb rg : Nat) :
    (unbounded greedy canBeEmpty F tb rg).size = once + 2 + if canBeEmpty then 2 else 0 := by
  cases canBeEmpty with
  | false => simp only [unbounded, size, hF, Bool.false_eq_true, if_false, Nat.add_zero]
  | true => simp only [unbounded, size, hF, if_true]

end Fragment

namespace Node

variable {t : Target}

/-- One iteration of a loop is the body, behind an instruction that forgets captures if there are
any. -/
theorem size_iteration_loopSpan (body : Node) (f : Fragment) :
    (Fragment.iteration (Emit.loopSpan t body) f).size =
      f.size + if t.captures && body.hasGroups then 1 else 0 := by
  rw [← isSome_groupSpan, Emit.loopSpan]
  cases t.captures with
  | false => rfl
  | true =>
    rcases body.groupSpan with _ | ⟨first, last⟩
    · rfl
    · simp [Fragment.iteration, Fragment.size, Nat.add_comm]

mutual

/-- **The fragment of a tree has as many instructions as can be read off the tree.** -/
theorem size_fragment : ∀ (n : Node) (tb rg : Nat),
    (n.fragment t tb rg).size = n.codeLength t.captures
  | empty, _, _ | unit _, _, _ | any, _, _ | charClass .., _, _ | anchor _, _, _
  | backRef _, _, _ => rfl
  | group index body, tb, rg => by
    rw [fragment, codeLength]
    split
    · simp only [Fragment.size, size_fragment body]
      omega
    · exact size_fragment body tb rg
  | look negated body, tb, rg => by rw [fragment, codeLength, Fragment.size, size_fragment body]
  | rep lower upper greedy body, tb, rg => by
    have honce : ∀ tb rg,
        (Fragment.iteration (Emit.loopSpan t body) (body.fragment t tb rg)).size =
          body.codeLength t.captures + if t.captures && body.hasGroups then 1 else 0 := by
      intro tb rg
      rw [size_iteration_loopSpan, size_fragment body]
    cases upper with
    | none =>
      rw [fragment, codeLength, Fragment.size, Fragment.size_copies honce,
        Fragment.size_unbounded honce]
    | some upper =>
      rw [fragment, codeLength, Fragment.size, Fragment.size_copies honce,
        Fragment.size_optionals honce]
  | seq items, tb, rg => by rw [fragment, codeLength, size_sequence items]
  | alt items, tb, rg => by rw [fragment, codeLength, size_alternatives items]

theorem size_sequence : ∀ (ns : List Node) (tb rg : Nat),
    (sequence t ns tb rg).size = allCodeLength t.captures ns
  | [], _, _ => rfl
  | n :: ns, tb, rg => by
    rw [sequence, allCodeLength_cons, Fragment.size, size_fragment n, size_sequence ns]

theorem size_alternatives : ∀ (ns : List Node) (tb rg : Nat),
    (alternatives t ns tb rg).size = allCodeLength t.captures ns + 2 * (ns.length - 1)
  | [], _, _ => rfl
  | [n], tb, rg => by
    rw [alternatives, List.isEmpty_nil, if_pos rfl, size_fragment n]
    rfl
  | n :: m :: ns, tb, rg => by
    rw [alternatives, List.isEmpty_cons, if_neg Bool.false_ne_true, Fragment.size,
      size_fragment n, size_alternatives (m :: ns)]
    simp only [allCodeLength_cons, List.length_cons]
    omega

end

end Node

namespace Pattern

/-- The number of instructions of a pattern's program, the one that ends it included. -/
def codeLength (p : Pattern) (mode : Mode) : Nat :=
  p.root.codeLength (mode == .normal || p.root.hasBackRefs) + 1

theorem size_fragment (p : Pattern) (mode : Mode) (width : Width) (flags : Flags)
    (tables : Array CharTable) (cap : Nat) :
    (p.fragment mode width flags tables cap).size + 1 = p.codeLength mode := by
  rw [fragment, Node.size_fragment]
  rfl

/-- **The cap is exact.**  A pattern is compiled if and only if the length of its program, as it is
read off the tree, is within the cap; the program then has this length.  Otherwise the pattern is
refused as too large.  The bounds of its quantifiers may be as great as they like. -/
theorem codeLength_spec (p : Pattern) (mode : Mode) (width : Width) (flags : Flags)
    (tables : Array CharTable) (cap : Nat) :
    ((∃ prog, (p.compile mode width flags tables cap).1 = .ok prog) ↔ p.codeLength mode ≤ cap) ∧
      (∀ prog, (p.compile mode width flags tables cap).1 = .ok prog →
        prog.code.size = p.codeLength mode) ∧
      (cap < p.codeLength mode →
        (p.compile mode width flags tables cap).1 = .error .programTooLarge) := by
  have hsize := p.size_fragment mode width flags tables cap
  rcases p.compile_cases mode width flags tables cap with
    ⟨hroom, prog, later, hcompile⟩ | ⟨hfull, later, hcompile⟩
  · have hprog : prog.code.size = p.codeLength mode := by
      rw [(eq_of_compile hcompile).1, ← hsize]
      simp
    rw [hcompile]
    refine ⟨iff_of_true ⟨prog, rfl⟩ (by omega), ?_, fun hlt => by omega⟩
    intro prog' hprog'
    rw [← Except.ok.inj hprog']
    exact hprog
  · rw [hcompile]
    refine ⟨iff_of_false ?_ (by omega), ?_, fun _ => rfl⟩
    · rintro ⟨prog, hprog⟩
      cases hprog
    · intro prog hprog
      cases hprog

/-- The program of `(?:(a)|b*){2,4}` has 39 instructions with captures and 27 without. -/
example :
    let root : Node := .rep 2 (some 4) true
      (.alt [.group 1 (.unit 0x61), .rep 0 none true (.unit 0x62)])
    codeLength ⟨root, 1⟩ .normal = 39 ∧ codeLength ⟨root, 1⟩ .matchOnly = 27 := by
  decide

end Pattern

end RegexEngine

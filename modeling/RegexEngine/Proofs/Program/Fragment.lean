import Mathlib.Data.List.Basic
import RegexEngine.Program.Emit

/-!
# Structured code

The code that is made from a tree is put together from few shapes: single instructions, rows,
choices, loops and conditions.  A `Fragment` is code in this form.  Where it is placed decides its
addresses; nothing else of it depends on the place.

* `Fragment.code` — the instructions of a fragment that is placed at an address.
* `Fragment.Valid` — all operands of the fragment are in range.
* `Fragment.Guarded` — the body of every loop consumes a unit.
* `Fragment.At` — the instructions of a fragment with their addresses.
* `Node.fragment` — the fragment of a tree.
-/

namespace RegexEngine

/-- The shapes of code. -/
inductive Fragment
  /-- No code. -/
  | nil
  /-- One instruction that goes on behind itself or fails. -/
  | instr (i : Instr)
  /-- One fragment behind the other. -/
  | append (f g : Fragment)
  /-- The first fragment or, if it fails, the second. -/
  | choice (f g : Fragment)
  /-- The fragment or nothing, in the order of preference. -/
  | optional (greedy : Bool) (f : Fragment)
  /-- The fragment any number of times. -/
  | loop (greedy : Bool) (f : Fragment)
  /-- The fragment, given up if it ends where it began; the register holds that position. -/
  | advance (register : Nat) (f : Fragment)
  /-- The fragment as a condition on what follows. -/
  | look (negated : Bool) (f : Fragment)
  deriving Repr, Inhabited

namespace Instr

/-- Whether an instruction goes on behind itself or fails, with operands in range. -/
def Straight (slots tables : Nat) : Instr → Prop
  | unit _ | folded _ | any | anchor _ | fail => True
  | inTable table _ _ => table < tables
  | save slot => slot < slots
  | clear _ last => last ≤ slots
  | backRef group _ => 2 * group + 1 < slots
  | _ => False

/-- Whether an instruction consumes a unit or fails. -/
def consumes : Instr → Bool
  | unit _ | folded _ | any | inTable .. | fail => true
  | _ => false

end Instr

namespace Fragment

/-- The number of instructions. -/
def size : Fragment → Nat
  | nil => 0
  | instr _ => 1
  | append f g => f.size + g.size
  | choice f g => f.size + g.size + 2
  | optional _ f => f.size + 1
  | loop _ f => f.size + 2
  | advance _ f => f.size + 2
  | look _ f => f.size + 2

/-- The instructions of a fragment that is placed at an address. -/
def code : Fragment → Nat → List Instr
  | nil, _ => []
  | instr i, _ => [i]
  | append f g, a => f.code a ++ g.code (a + f.size)
  | choice f g, a =>
    .split (a + 1) (a + f.size + 2) ::
      (f.code (a + 1) ++ .jump (a + f.size + g.size + 2) :: g.code (a + f.size + 2))
  | optional greedy f, a => Emit.choice greedy (a + 1) (a + f.size + 1) :: f.code (a + 1)
  | loop greedy f, a =>
    Emit.choice greedy (a + 1) (a + f.size + 2) :: (f.code (a + 1) ++ [.jump a])
  | advance r f, a => .mark r :: (f.code (a + 1) ++ [.progress r])
  | look negated f, a =>
    .look negated (a + 1) (a + f.size + 2) :: (f.code (a + 1) ++ [.lookEnd])

@[simp] theorem length_code (f : Fragment) (a : Nat) : (f.code a).length = f.size := by
  induction f generalizing a <;> simp +arith [code, size, *]

/-- The loop registers that occur, from left to right. -/
def registers : Fragment → List Nat
  | nil | instr _ => []
  | append f g | choice f g => f.registers ++ g.registers
  | optional _ f | loop _ f | look _ f => f.registers
  | advance r f => r :: f.registers

/-- The loop registers inside of conditions. -/
def volatile : Fragment → List Nat
  | nil | instr _ => []
  | append f g | choice f g => f.volatile ++ g.volatile
  | optional _ f | loop _ f | advance _ f => f.volatile
  | look _ f => f.registers

/-- The loop registers outside of conditions. -/
def steady : Fragment → List Nat
  | nil | instr _ | look .. => []
  | append f g | choice f g => f.steady ++ g.steady
  | optional _ f | loop _ f => f.steady
  | advance r f => r :: f.steady

theorem mem_registers_iff (f : Fragment) (r : Nat) :
    r ∈ f.registers ↔ r ∈ f.volatile ∨ r ∈ f.steady := by
  induction f <;> simp [registers, volatile, steady, *] <;> grind

/-- A register does not occur both inside and outside of conditions. -/
theorem not_mem_volatile {f : Fragment} (h : f.registers.Nodup) {r : Nat} (hr : r ∈ f.steady) :
    r ∉ f.volatile := by
  induction f with
  | nil | instr _ | look _ _ => simp [steady] at hr
  | append f g ihf ihg | choice f g ihf ihg =>
    simp only [registers, List.nodup_append] at h
    simp only [steady, List.mem_append, volatile] at hr ⊢
    have hf := mem_registers_iff f r
    have hg := mem_registers_iff g r
    grind
  | optional _ f ih | loop _ f ih => exact ih h hr
  | advance s f ih =>
    simp only [registers, List.nodup_cons] at h
    simp only [steady, List.mem_cons, volatile] at hr ⊢
    rcases hr with rfl | hr
    · exact fun hv => h.1 ((mem_registers_iff f r).2 (Or.inl hv))
    · exact ih h.2 hr

/-- All operands of the fragment are in range. -/
def Valid (slots registers tables : Nat) : Fragment → Prop
  | nil => True
  | instr i => i.Straight slots tables
  | append f g | choice f g =>
    f.Valid slots registers tables ∧ g.Valid slots registers tables
  | optional _ f | loop _ f | look _ f => f.Valid slots registers tables
  | advance r f => r < registers ∧ f.Valid slots registers tables

theorem Valid.mono {slots registers tables tables' : Nat} (hle : tables ≤ tables') {f : Fragment}
    (h : f.Valid slots registers tables) : f.Valid slots registers tables' := by
  induction f with
  | nil => trivial
  | instr i =>
    cases i with
    | inTable => exact Nat.lt_of_lt_of_le h hle
    | _ => exact h
  | append f g ihf ihg | choice f g ihf ihg => exact ⟨ihf h.1, ihg h.2⟩
  | optional _ f ih | loop _ f ih | look _ f ih => exact ih h
  | advance r f ih => exact ⟨h.1, ih h.2⟩

/-- Every way through the fragment consumes a unit, as far as its shape shows. -/
def consumes : Fragment → Bool
  | nil | optional .. | loop .. | look .. => false
  | instr i => i.consumes
  | append f g => f.consumes || g.consumes
  | choice f g => f.consumes && g.consumes
  | advance .. => true

/-- The body of every loop consumes a unit. -/
def Guarded : Fragment → Prop
  | nil | instr _ => True
  | append f g | choice f g => f.Guarded ∧ g.Guarded
  | optional _ f | advance _ f | look _ f => f.Guarded
  | loop _ f => f.consumes = true ∧ f.Guarded

/-! ### Copies -/

section Copies

variable (body : Nat → Nat → Fragment) (tables registers : Nat)

/-- `n` fragments in a row.  `body tb rg` stands for a body whose first table is `tb` and whose
first register is `rg`; each takes as many as told. -/
def copies : Nat → Nat → Nat → Fragment
  | 0, _, _ => nil
  | n + 1, tb, rg => append (body tb rg) (copies n (tb + tables) (rg + registers))

/-- `n` optional fragments, each one inside of the one before. -/
def optionals (greedy : Bool) : Nat → Nat → Nat → Fragment
  | 0, _, _ => nil
  | n + 1, tb, rg =>
    optional greedy
      (append (body tb rg) (optionals greedy n (tb + tables) (rg + registers)))

end Copies

end Fragment

/-! ### Instructions and their addresses -/

/-- The instruction stands at the address `q` in code that is placed at `a`. -/
def At (is : List Instr) (a q : Nat) (i : Instr) : Prop := ∃ k, is[k]? = some i ∧ q = a + k

section At

variable {a q : Nat} {i j : Instr} {is js : List Instr}

@[simp] theorem not_at_nil : ¬At [] a q i := by
  rintro ⟨k, hk, -⟩
  simp at hk

@[simp] theorem at_cons : At (j :: is) a q i ↔ q = a ∧ i = j ∨ At is (a + 1) q i := by
  constructor
  · rintro ⟨_ | k, hk, rfl⟩
    · exact Or.inl ⟨rfl, by simpa using hk.symm⟩
    · exact Or.inr ⟨k, by simpa using hk, by omega⟩
  · rintro (⟨rfl, rfl⟩ | ⟨k, hk, rfl⟩)
    · exact ⟨0, rfl, rfl⟩
    · exact ⟨k + 1, by simpa using hk, by omega⟩

@[simp] theorem at_append : At (is ++ js) a q i ↔ At is a q i ∨ At js (a + is.length) q i := by
  constructor
  · rintro ⟨k, hk, rfl⟩
    rcases Nat.lt_or_ge k is.length with hlt | hge
    · exact Or.inl ⟨k, by rwa [List.getElem?_append_left hlt] at hk, rfl⟩
    · exact Or.inr ⟨k - is.length, by rwa [List.getElem?_append_right hge] at hk, by omega⟩
  · rintro (⟨k, hk, rfl⟩ | ⟨k, hk, rfl⟩)
    · have hlt := (List.getElem?_eq_some_iff.1 hk).1
      exact ⟨k, by rwa [List.getElem?_append_left hlt], rfl⟩
    · refine ⟨is.length + k, ?_, by omega⟩
      rwa [List.getElem?_append_right (by omega), Nat.add_sub_cancel_left]

theorem at_toArray : is.toArray[q]? = some i ↔ At is 0 q i := by
  simp [At]

theorem At.bounds (h : At is a q i) : a ≤ q ∧ q < a + is.length := by
  obtain ⟨k, hk, rfl⟩ := h
  have hlt := (List.getElem?_eq_some_iff.1 hk).1
  omega

end At

namespace Fragment

variable {f g : Fragment} {a q r : Nat} {i j : Instr} {greedy negated : Bool}

/-- The instruction stands at the address `q` in the code of a fragment that is placed at `a`. -/
def At (f : Fragment) (a q : Nat) (i : Instr) : Prop := RegexEngine.At (f.code a) a q i

theorem At.bounds (h : f.At a q i) : a ≤ q ∧ q < a + f.size := by
  simpa using RegexEngine.At.bounds h

@[simp] theorem not_at_nil : ¬nil.At a q i := RegexEngine.not_at_nil

@[simp] theorem at_instr : (instr j).At a q i ↔ q = a ∧ i = j := by
  simp [At, code]

@[simp] theorem at_append : (append f g).At a q i ↔ f.At a q i ∨ g.At (a + f.size) q i := by
  simp [At, code]

@[simp] theorem at_choice : (choice f g).At a q i ↔
    q = a ∧ i = .split (a + 1) (a + f.size + 2) ∨ f.At (a + 1) q i ∨
      q = a + f.size + 1 ∧ i = .jump (a + f.size + g.size + 2) ∨ g.At (a + f.size + 2) q i := by
  rw [At, code, at_cons, RegexEngine.at_append, at_cons, length_code,
    show a + 1 + f.size = a + f.size + 1 by omega]
  rfl

@[simp] theorem at_optional : (optional greedy f).At a q i ↔
    q = a ∧ i = Emit.choice greedy (a + 1) (a + f.size + 1) ∨ f.At (a + 1) q i := by
  simp [At, code]

@[simp] theorem at_loop : (loop greedy f).At a q i ↔
    q = a ∧ i = Emit.choice greedy (a + 1) (a + f.size + 2) ∨ f.At (a + 1) q i ∨
      q = a + f.size + 1 ∧ i = .jump a := by
  simp [At, code, Nat.add_right_comm _ 1]

@[simp] theorem at_advance : (advance r f).At a q i ↔
    q = a ∧ i = .mark r ∨ f.At (a + 1) q i ∨ q = a + f.size + 1 ∧ i = .progress r := by
  simp [At, code, Nat.add_right_comm _ 1]

@[simp] theorem at_look : (look negated f).At a q i ↔
    q = a ∧ i = .look negated (a + 1) (a + f.size + 2) ∨ f.At (a + 1) q i ∨
      q = a + f.size + 1 ∧ i = .lookEnd := by
  simp [At, code, Nat.add_right_comm _ 1]

end Fragment

/-! ### The fragment of a tree -/

namespace Node

mutual

/-- The character tables of a tree, in the order in which they are appended. -/
def tables (t : Target) : Node → List CharTable
  | charClass set _ => [Emit.classTable t set]
  | group _ body | look _ body => body.tables t
  | rep lower upper _ body =>
    (List.replicate (lower + upper.elim 1 (· - lower)) (body.tables t)).flatten
  | seq items | alt items => allTables t items
  | _ => []

/-- The character tables of trees in a row. -/
def allTables (t : Target) : List Node → List CharTable
  | [] => []
  | n :: ns => n.tables t ++ allTables t ns

end

mutual

/-- The number of loop registers that the code of a tree takes. -/
def registerCount : Node → Nat
  | group _ body | look _ body => body.registerCount
  | rep lower upper _ body =>
    lower * body.registerCount +
      match upper with
      | none => (if body.canBeEmpty then 1 else 0) + body.registerCount
      | some upper => (upper - lower) * body.registerCount
  | seq items | alt items => allRegisterCount items
  | _ => 0

/-- The number of loop registers that the code of trees in a row takes. -/
def allRegisterCount : List Node → Nat
  | [] => 0
  | n :: ns => n.registerCount + allRegisterCount ns

end

end Node

namespace Fragment

/-- One iteration of a loop: the captures of the groups in `span` are forgotten, then comes the
body. -/
def iteration (span : Option (Nat × Nat)) (body : Fragment) : Fragment :=
  match span with
  | none => body
  | some (first, last) => append (instr (.clear (2 * first) (2 * last))) body

/-- A loop without an upper bound. -/
def unbounded (greedy canBeEmpty : Bool) (body : Nat → Nat → Fragment) (tb rg : Nat) : Fragment :=
  loop greedy (if canBeEmpty then advance rg (body tb (rg + 1)) else body tb rg)

end Fragment

namespace Node

mutual

/-- The fragment of a tree whose first table is `tb` and whose first register is `rg`. -/
def fragment (t : Target) : Node → Nat → Nat → Fragment
  | empty, _, _ => .nil
  | unit u, _, _ => .instr (Emit.unitInstr t u)
  | any, _, _ => .instr .any
  | charClass _ negated, tb, _ => .instr (.inTable tb negated t.folded)
  | anchor a, _, _ => .instr (.anchor a)
  | backRef g, _, _ => .instr (.backRef g t.folded)
  | group index body, tb, rg =>
    if t.captures then
      .append (.instr (.save (2 * index)))
        (.append (body.fragment t tb rg) (.instr (.save (2 * index + 1))))
    else body.fragment t tb rg
  | look negated body, tb, rg => .look negated (body.fragment t tb rg)
  | rep lower upper greedy body, tb, rg =>
    let once := fun tb rg => Fragment.iteration (Emit.loopSpan t body) (body.fragment t tb rg)
    let tables := (body.tables t).length
    let registers := body.registerCount
    .append (.copies once tables registers lower tb rg)
      (match upper with
        | none =>
          .unbounded greedy body.canBeEmpty once (tb + lower * tables) (rg + lower * registers)
        | some upper =>
          .optionals once tables registers greedy (upper - lower) (tb + lower * tables)
            (rg + lower * registers))
  | seq items, tb, rg => sequence t items tb rg
  | alt items, tb, rg => alternatives t items tb rg

/-- The fragment of trees in a row. -/
def sequence (t : Target) : List Node → Nat → Nat → Fragment
  | [], _, _ => .nil
  | n :: ns, tb, rg =>
    .append (n.fragment t tb rg)
      (sequence t ns (tb + (n.tables t).length) (rg + n.registerCount))

/-- The fragment of trees of which one is to match. -/
def alternatives (t : Target) : List Node → Nat → Nat → Fragment
  | [], _, _ => .nil
  | n :: ns, tb, rg =>
    if ns.isEmpty then n.fragment t tb rg
    else
      .choice (n.fragment t tb rg)
        (alternatives t ns (tb + (n.tables t).length) (rg + n.registerCount))

end

end Node

end RegexEngine

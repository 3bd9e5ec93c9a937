import Mathlib.Data.List.Basic
import RegexEngine.Proofs.Program.Fragment

/-!
# Emitted code is structured

What `Emit.node` writes down is the code of the tree's fragment.  The fragment is placed at the
address at which the emission begins; its tables are those appended meanwhile and its registers
those taken meanwhile.

* `Emit.Emits` — an emission succeeds with an answer.
* `Emit.Renders` — an emission writes down the code of a fragment.
* `Emit.renders_node` — **the code of a tree is the code of its fragment.**
* `Pattern.eq_of_compile` — **the parts of a compiled program.**
-/

namespace RegexEngine

/-- The site behind `n` instructions, with more tables and registers. -/
def Site.advance (s : Site) (n : Nat) (tables : List CharTable) (registers : Nat) : Site where
  address := s.address + n
  tables := s.tables ++ tables.toArray
  registers := s.registers + registers

namespace Site

variable (s : Site)

theorem advance_advance (n m R Q : Nat) (T U : List CharTable) :
    (s.advance n T R).advance m U Q = s.advance (n + m) (T ++ U) (R + Q) := by
  simp [advance, Nat.add_assoc]

@[simp] theorem address_advance (n R : Nat) (T : List CharTable) :
    (s.advance n T R).address = s.address + n := rfl

@[simp] theorem size_tables_advance (n R : Nat) (T : List CharTable) :
    (s.advance n T R).tables.size = s.tables.size + T.length := by
  simp [advance]

@[simp] theorem registers_advance (n R : Nat) (T : List CharTable) :
    (s.advance n T R).registers = s.registers + R := rfl

end Site

namespace Emit

/-! ### Successful emissions -/

/-- The emission succeeds at `s` with an answer and leaves `s'`. -/
def Emits {α : Type} (x : Emit α) (s : Site) (a : α) (s' : Site) : Prop := x.run s = (some a, s')

section

variable {α β : Type} {s s' : Site} {t : Target}

theorem emits_pure {a b : α} : Emits (pure a) s b s' ↔ b = a ∧ s' = s := by
  constructor
  · intro h
    cases h
    exact ⟨rfl, rfl⟩
  · rintro ⟨rfl, rfl⟩
    rfl

theorem emits_bind {x : Emit α} {f : α → Emit β} {b : β} :
    Emits (x >>= f) s b s' ↔ ∃ a s₁, Emits x s a s₁ ∧ Emits (f a) s₁ b s' := by
  have hrun : (x >>= f).run s =
      match x.run s with
      | (some a, s₁) => (f a).run s₁
      | (none, s₁) => (none, s₁) := by
    rcases hx : x.run s with ⟨_ | a, s₁⟩ <;> simp only [OptionT.run] at hx <;>
      simp only [bind, OptionT.bind, OptionT.mk, StateT.bind, OptionT.run, hx]
    rfl
  unfold Emits
  rw [hrun]
  rcases x.run s with ⟨_ | a, s₁⟩
  · exact ⟨fun h => (by cases h), fun ⟨_, _, h, _⟩ => (by cases h)⟩
  · exact ⟨fun h => ⟨a, s₁, rfl, h⟩, fun ⟨_, _, h, h'⟩ => by cases h; exact h'⟩

theorem emits_takeAddress {a : Nat} (h : Emits (takeAddress t) s a s') :
    a = s.address ∧ s' = s.advance 1 [] 0 := by
  simp only [takeAddress, emits_bind] at h
  obtain ⟨_, _, hget, h⟩ := h
  cases hget
  split at h
  · obtain ⟨_, _, hset, h⟩ := emits_bind.1 h
    cases hset
    obtain ⟨rfl, rfl⟩ := emits_pure.1 h
    simp [Site.advance]
  · cases h

theorem emits_nextAddress {a : Nat} (h : Emits nextAddress s a s') : a = s.address ∧ s' = s := by
  obtain ⟨_, _, hget, h⟩ := emits_bind.1 h
  cases hget
  exact emits_pure.1 h

theorem emits_takeAddress_bind {f : Nat → Emit β} {b : β}
    (h : Emits (takeAddress t >>= f) s b s') : Emits (f s.address) (s.advance 1 [] 0) b s' := by
  obtain ⟨_, _, htake, h⟩ := emits_bind.1 h
  obtain ⟨rfl, rfl⟩ := emits_takeAddress htake
  exact h

theorem emits_nextAddress_bind {f : Nat → Emit β} {b : β} (h : Emits (nextAddress >>= f) s b s') :
    Emits (f s.address) s b s' := by
  obtain ⟨_, _, hnext, h⟩ := emits_bind.1 h
  obtain ⟨rfl, rfl⟩ := emits_nextAddress hnext
  exact h

theorem emits_takeRegister {r : Nat} (h : Emits takeRegister s r s') :
    r = s.registers ∧ s' = s.advance 0 [] 1 := by
  obtain ⟨_, _, hget, h⟩ := emits_bind.1 h
  cases hget
  obtain ⟨_, _, hset, h⟩ := emits_bind.1 h
  cases hset
  obtain ⟨rfl, rfl⟩ := emits_pure.1 h
  simp [Site.advance]

theorem emits_addTable {table : CharTable} {k : Nat} (h : Emits (addTable table) s k s') :
    k = s.tables.size ∧ s' = s.advance 0 [table] 0 := by
  obtain ⟨_, _, hget, h⟩ := emits_bind.1 h
  cases hget
  obtain ⟨_, _, hset, h⟩ := emits_bind.1 h
  cases hset
  obtain ⟨rfl, rfl⟩ := emits_pure.1 h
  simp [Site.advance]

theorem emits_instr {i : Instr} {code : List Instr} (h : Emits (instr t i) s code s') :
    code = [i] ∧ s' = s.advance 1 [] 0 := by
  have h := emits_takeAddress_bind h
  exact emits_pure.1 h

end

/-! ### Emissions of fragments -/

/-- Where it succeeds, the emission writes down the code of a fragment, placed at the next address
and with the next tables and registers; it appends the tables `T` and takes `R` registers. -/
def Renders (x : Emit (List Instr)) (F : Nat → Nat → Fragment) (T : List CharTable) (R : Nat) :
    Prop :=
  ∀ s code s', Emits x s code s' →
    code = (F s.tables.size s.registers).code s.address ∧
      s' = s.advance (F s.tables.size s.registers).size T R

variable {t : Target} {x : Emit (List Instr)} {F : Nat → Nat → Fragment} {T : List CharTable}
  {R : Nat}

/-- Behind the code of a fragment the emission goes on at the address behind it. -/
theorem Renders.bind {β : Type} (h : Renders x F T R) {f : List Instr → Emit β}
    {s s' : Site} {b : β} (hx : Emits (x >>= f) s b s') :
    Emits (f ((F s.tables.size s.registers).code s.address))
      (s.advance (F s.tables.size s.registers).size T R) b s' := by
  obtain ⟨_, _, hbody, hx⟩ := emits_bind.1 hx
  obtain ⟨rfl, rfl⟩ := h _ _ _ hbody
  exact hx

theorem renders_instr (t : Target) (i : Instr) :
    Renders (instr t i) (fun _ _ => .instr i) [] 0 := by
  intro s code s' h
  exact emits_instr h

theorem renders_classCode (t : Target) (set : List Interval) (negated : Bool) :
    Renders (classCode t set negated) (fun tb _ => .instr (.inTable tb negated t.folded))
      [classTable t set] 0 := by
  intro s code s' h
  obtain ⟨_, _, htable, h⟩ := emits_bind.1 h
  obtain ⟨rfl, rfl⟩ := emits_addTable htable
  obtain ⟨rfl, rfl⟩ := emits_instr h
  exact ⟨rfl, Site.advance_advance ..⟩

theorem Renders.iteration (h : Renders x F T R) (t : Target) (span : Option (Nat × Nat)) :
    Renders (iteration t span x) (fun tb rg => .iteration span (F tb rg)) T R := by
  rcases span with _ | ⟨first, last⟩
  · exact h
  · intro s code s' hx
    have hx := emits_takeAddress_bind hx
    obtain ⟨_, _, hbody, hx⟩ := emits_bind.1 hx
    obtain ⟨rfl, rfl⟩ := emits_pure.1 hx
    obtain ⟨rfl, rfl⟩ := h _ _ _ hbody
    simp [Fragment.iteration, Fragment.code, Fragment.size, Site.advance_advance]

/-! ### Copies -/

theorem size_copies_eq_zero {n tb rg : Nat} (h : (F tb rg).size = 0) :
    (Fragment.copies F 0 0 n tb rg).size = 0 := by
  induction n with
  | zero => rfl
  | succ n ih => simpa [Fragment.copies, Fragment.size, h] using ih

theorem renders_copies (h : Renders x F T R)
    (hempty : ∀ tb rg, (F tb rg).size = 0 → T = [] ∧ R = 0) {n : Nat} {sofar : List (List Instr)}
    {s s' : Site} {code : List Instr} (hx : Emits (copies x n sofar) s code s') :
    let f := Fragment.copies F T.length R n s.tables.size s.registers
    code = sofar.reverse.flatten ++ f.code s.address ∧
      s' = s.advance f.size (List.replicate n T).flatten (n * R) := by
  induction n generalizing s sofar with
  | zero =>
    obtain ⟨rfl, rfl⟩ := emits_pure.1 hx
    simp [Fragment.copies, Fragment.code, Fragment.size, Site.advance]
  | succ n ih =>
    have hx := h.bind hx
    split at hx
    · -- a body without code has neither tables nor registers
      next hnil =>
      have hsize : (F s.tables.size s.registers).size = 0 := by
        rw [← Fragment.length_code _ s.address, List.isEmpty_iff.1 hnil, List.length_nil]
      obtain ⟨rfl, rfl⟩ := hempty _ _ hsize
      obtain ⟨rfl, rfl⟩ := emits_pure.1 hx
      have hall := size_copies_eq_zero (n := n + 1) hsize
      have hcode : (Fragment.copies F 0 0 (n + 1) s.tables.size s.registers).code s.address = [] :=
        List.eq_nil_of_length_eq_zero (by rw [Fragment.length_code, hall])
      simp [hcode, hall, hsize]
    · obtain ⟨rfl, rfl⟩ := ih hx
      simp [Fragment.copies, Fragment.code, Fragment.size, Site.advance_advance,
        List.replicate_succ, Nat.succ_mul, Nat.add_comm R]

theorem renders_optionals (h : Renders x F T R) {n : Nat} {sofar parts : List (Nat × List Instr)}
    {s s' : Site} (hx : Emits (optionals t x n sofar) s parts s') (greedy : Bool) :
    let f := Fragment.optionals F T.length R greedy n s.tables.size s.registers
    joinOptionals greedy (s.address + f.size) [] parts =
        joinOptionals greedy (s.address + f.size) (f.code s.address) sofar ∧
      s' = s.advance f.size (List.replicate n T).flatten (n * R) := by
  induction n generalizing s sofar with
  | zero =>
    obtain ⟨rfl, rfl⟩ := emits_pure.1 hx
    simp [Fragment.optionals, Fragment.code, Fragment.size, Site.advance]
  | succ n ih =>
    -- the choice in front of an iteration leads behind the last one
    have hx := emits_takeAddress_bind hx
    have hx := h.bind hx
    obtain ⟨hparts, rfl⟩ := ih hx
    simp only [Site.advance_advance, Site.address_advance, Site.size_tables_advance,
      Site.registers_advance, List.nil_append, Nat.zero_add, List.length_nil,
      Nat.add_zero] at hparts ⊢
    refine ⟨?_, ?_⟩
    · simp only [Fragment.optionals, Fragment.size, Fragment.code, joinOptionals,
        ← Nat.add_assoc] at hparts ⊢
      simpa only [Nat.add_right_comm _ 1] using hparts
    · simp only [Fragment.optionals, Fragment.size, List.replicate_succ, List.flatten_cons]
      congr 1
      · omega
      · rw [Nat.succ_mul, Nat.add_comm]

theorem Renders.unbounded (h : Renders x F T R) (t : Target) (greedy canBeEmpty : Bool) :
    Renders (unbounded t greedy canBeEmpty x) (.unbounded greedy canBeEmpty F) T
      ((if canBeEmpty then 1 else 0) + R) := by
  intro s code s' hx
  cases canBeEmpty with
  | false =>
    have hx := emits_takeAddress_bind hx
    have hx := h.bind (show Emits (x >>= _) _ _ _ from hx)
    have hx := emits_takeAddress_bind hx
    have hx := emits_nextAddress_bind hx
    obtain ⟨rfl, rfl⟩ := emits_pure.1 hx
    simp +arith [Fragment.unbounded, Fragment.code, Fragment.size, Site.advance_advance]
  | true =>
    -- the check of progress: a register, and an instruction on either side of the body
    have hx := emits_takeAddress_bind hx
    obtain ⟨_, _, hreg, hx⟩ := emits_bind.1 (show Emits (takeRegister >>= _) _ _ _ from hx)
    obtain ⟨rfl, rfl⟩ := emits_takeRegister hreg
    have hx := emits_takeAddress_bind hx
    have hx := h.bind hx
    have hx := emits_takeAddress_bind hx
    obtain ⟨_, _, hpure, hx⟩ := emits_bind.1 hx
    obtain ⟨rfl, rfl⟩ := emits_pure.1 hpure
    have hx := emits_takeAddress_bind hx
    have hx := emits_nextAddress_bind hx
    obtain ⟨rfl, rfl⟩ := emits_pure.1 hx
    simp +arith [Fragment.unbounded, Fragment.code, Fragment.size, Site.advance_advance]

theorem Renders.bounded (h : Renders x F T R) (t : Target) (greedy : Bool) (n : Nat) :
    Renders (bounded t greedy n x) (.optionals F T.length R greedy n)
      (List.replicate n T).flatten (n * R) := by
  intro s code s' hx
  obtain ⟨_, _, hparts, hx⟩ := emits_bind.1 hx
  have hx := emits_nextAddress_bind hx
  obtain ⟨rfl, rfl⟩ := emits_pure.1 hx
  obtain ⟨hcode, rfl⟩ := renders_optionals h hparts greedy
  exact ⟨hcode, rfl⟩

/-! ### Trees -/

theorem eq_nil_of_size_copies {n tb rg : Nat} (h : (Fragment.copies F T.length R n tb rg).size = 0)
    (hF : ∀ tb rg, (F tb rg).size = 0 → T = [] ∧ R = 0) : n = 0 ∨ T = [] ∧ R = 0 := by
  cases n with
  | zero => exact Or.inl rfl
  | succ n =>
    simp only [Fragment.copies, Fragment.size, Nat.add_eq_zero_iff] at h
    exact Or.inr (hF _ _ h.1)

theorem eq_zero_of_size_optionals {n tb rg : Nat} {greedy : Bool}
    (h : (Fragment.optionals F T.length R greedy n tb rg).size = 0) : n = 0 := by
  cases n with
  | zero => rfl
  | succ n => simp [Fragment.optionals, Fragment.size] at h

theorem size_iteration {span : Option (Nat × Nat)} {f : Fragment}
    (h : (Fragment.iteration span f).size = 0) : f.size = 0 := by
  rcases span with _ | ⟨first, last⟩
  · exact h
  · simp [Fragment.iteration, Fragment.size] at h

mutual

/-- A tree without code has neither tables nor registers. -/
theorem eq_nil_of_size : ∀ (n : Node) {tb rg : Nat}, (n.fragment t tb rg).size = 0 →
    n.tables t = [] ∧ n.registerCount = 0
  | .empty, _, _, _ => by simp [Node.tables, Node.registerCount]
  | .unit _, _, _, h | .any, _, _, h | .charClass .., _, _, h | .anchor _, _, _, h
  | .backRef _, _, _, h | .look .., _, _, h => by
    simp [Node.fragment, Fragment.size] at h
  | .group _ body, _, _, h => by
    rw [Node.fragment] at h
    split at h
    · simp [Fragment.size] at h
    · simpa only [Node.tables, Node.registerCount] using eq_nil_of_size body h
  | .rep lower upper greedy body, _, _, h => by
    simp only [Node.fragment, Fragment.size, Nat.add_eq_zero_iff] at h
    cases upper with
    | none => simp [Fragment.unbounded, Fragment.size] at h
    | some upper =>
      -- optional copies have a choice each, so there are none of them
      have hrest := eq_zero_of_size_optionals h.2
      rcases eq_nil_of_size_copies h.1 fun _ _ hF => eq_nil_of_size body (size_iteration hF)
        with hlower | ⟨hT, hR⟩
      · simp_all [Node.tables, Node.registerCount]
      · simp [Node.tables, Node.registerCount, hT, hR]
  | .seq items, _, _, h => by
    simpa only [Node.tables, Node.registerCount] using eq_nil_of_size_sequence items h
  | .alt items, _, _, h => by
    simpa only [Node.tables, Node.registerCount] using eq_nil_of_size_alternatives items h

theorem eq_nil_of_size_sequence : ∀ (ns : List Node) {tb rg : Nat},
    (Node.sequence t ns tb rg).size = 0 →
      Node.allTables t ns = [] ∧ Node.allRegisterCount ns = 0
  | [], _, _, _ => by simp [Node.allTables, Node.allRegisterCount]
  | n :: ns, _, _, h => by
    simp only [Node.sequence, Fragment.size, Nat.add_eq_zero_iff] at h
    simp [Node.allTables, Node.allRegisterCount, eq_nil_of_size n h.1,
      eq_nil_of_size_sequence ns h.2]

theorem eq_nil_of_size_alternatives : ∀ (ns : List Node) {tb rg : Nat},
    (Node.alternatives t ns tb rg).size = 0 →
      Node.allTables t ns = [] ∧ Node.allRegisterCount ns = 0
  | [], _, _, _ => by simp [Node.allTables, Node.allRegisterCount]
  | n :: ns, _, _, h => by
    rw [Node.alternatives] at h
    split at h
    · next hns =>
      obtain rfl := List.isEmpty_iff.1 hns
      simp [Node.allTables, Node.allRegisterCount, eq_nil_of_size n h]
    · simp [Fragment.size] at h

end

mutual

/-- **The code of a tree is the code of its fragment.** -/
theorem renders_node : ∀ n : Node,
    Renders (node t n) (n.fragment t) (n.tables t) n.registerCount
  | .empty => by
    intro s code s' h
    obtain ⟨rfl, rfl⟩ := emits_pure.1 h
    exact ⟨rfl, by simp [Node.fragment, Fragment.size, Site.advance, Node.tables,
      Node.registerCount]⟩
  | .unit _ | .any | .anchor _ | .backRef _ => renders_instr t _
  | .charClass .. => renders_classCode t _ _
  | .group index body => by
    simp only [node, Node.tables, Node.registerCount, Node.fragment]
    split
    · -- captures are reported: the body stands between two instructions that store positions
      intro s code s' h
      have h := emits_takeAddress_bind h
      have h := (renders_node body).bind h
      have h := emits_takeAddress_bind h
      obtain ⟨rfl, rfl⟩ := emits_pure.1 h
      simp +arith [Fragment.code, Fragment.size, Site.advance_advance]
    · exact renders_node body
  | .look negated body => by
    intro s code s' h
    have h := emits_takeAddress_bind h
    have h := (renders_node body).bind h
    have h := emits_takeAddress_bind h
    have h := emits_nextAddress_bind h
    obtain ⟨rfl, rfl⟩ := emits_pure.1 h
    simp +arith [Node.fragment, Node.tables, Node.registerCount, Fragment.code, Fragment.size,
      Site.advance_advance]
  | .rep lower upper greedy body => by
    intro s code s' h
    have honce := (renders_node body).iteration t (loopSpan t body)
    obtain ⟨required, _, hcopies, h⟩ := emits_bind.1 h
    obtain ⟨rfl, rfl⟩ := renders_copies honce
      (fun _ _ hF => eq_nil_of_size body (size_iteration hF)) hcopies
    cases upper with
    | none =>
      obtain ⟨_, _, hrest, h⟩ := (emits_bind (x := unbounded t greedy _ _)).1 h
      obtain ⟨rfl, rfl⟩ := emits_pure.1 h
      obtain ⟨rfl, rfl⟩ := honce.unbounded t greedy body.canBeEmpty _ _ _ hrest
      simp [Node.fragment, Node.tables, Node.registerCount, Fragment.code, Fragment.size,
        Site.advance_advance, List.replicate_add]
    | some upper =>
      obtain ⟨_, _, hrest, h⟩ := (emits_bind (x := bounded t greedy _ _)).1 h
      obtain ⟨rfl, rfl⟩ := emits_pure.1 h
      obtain ⟨rfl, rfl⟩ := honce.bounded t greedy (upper - lower) _ _ _ hrest
      simp [Node.fragment, Node.tables, Node.registerCount, Fragment.code, Fragment.size,
        Site.advance_advance, ← List.flatten_append]
  | .seq items => by
    intro s code s' h
    simpa [Node.fragment, Node.tables, Node.registerCount] using renders_sequence items h
  | .alt [] => by
    intro s code s' h
    obtain ⟨rfl, rfl⟩ := emits_pure.1 h
    simp [Node.fragment, Node.alternatives, Node.tables, Node.allTables, Node.registerCount,
      Node.allRegisterCount, Fragment.code, Fragment.size, Site.advance]
  | .alt (n :: ns) => by
    intro s code s' h
    simpa [Node.fragment, Node.tables, Node.registerCount, joinAlternatives] using
      renders_alternatives (n :: ns) (List.cons_ne_nil n ns) h

theorem renders_sequence : ∀ (ns : List Node) {sofar : List (List Instr)} {s s' : Site}
    {code : List Instr}, Emits (sequence t ns sofar) s code s' →
      let f := Node.sequence t ns s.tables.size s.registers
      code = sofar.reverse.flatten ++ f.code s.address ∧
        s' = s.advance f.size (Node.allTables t ns) (Node.allRegisterCount ns)
  | [], sofar, s, s', code, h => by
    obtain ⟨rfl, rfl⟩ := emits_pure.1 h
    simp [Node.sequence, Node.allTables, Node.allRegisterCount, Fragment.code, Fragment.size,
      Site.advance]
  | n :: ns, sofar, s, s', code, h => by
    have h := (renders_node n).bind h
    obtain ⟨rfl, rfl⟩ := renders_sequence ns h
    simp [Node.sequence, Node.allTables, Node.allRegisterCount, Fragment.code, Fragment.size,
      Site.advance_advance]

theorem renders_alternatives : ∀ (ns : List Node) {sofar : List (Nat × List Instr × Nat)}
    {s s' : Site} {code : List Instr}, ns ≠ [] → Emits (alternatives t ns sofar) s code s' →
      let f := Node.alternatives t ns s.tables.size s.registers
      code = joinAlternatives (s.address + f.size) (f.code s.address) sofar ∧
        s' = s.advance f.size (Node.allTables t ns) (Node.allRegisterCount ns)
  | [], _, _, _, _, hns, _ => absurd rfl hns
  | n :: ns, sofar, s, s', code, _, h => by
    rw [alternatives] at h
    split at h
    · next hns =>
      obtain rfl := List.isEmpty_iff.1 hns
      have h := (renders_node n).bind h
      have h := emits_nextAddress_bind h
      obtain ⟨rfl, rfl⟩ := emits_pure.1 h
      simp [Node.alternatives, Node.allTables, Node.allRegisterCount]
    · next hns =>
      have h := emits_takeAddress_bind h
      have h := (renders_node n).bind h
      have h := emits_takeAddress_bind h
      obtain ⟨rfl, rfl⟩ := renders_alternatives ns (by simpa using hns) h
      simp +arith [Node.alternatives, hns, Node.allTables, Node.allRegisterCount, Fragment.code,
        Fragment.size, Site.advance_advance, joinAlternatives]

end

end Emit

/-! ### Compiled programs -/

namespace Pattern

variable {p : Pattern} {mode : Mode} {width : Width} {flags : Flags}
  {tables₀ tables : Array CharTable} {cap : Nat} {prog : Program}

/-- The fragment of the whole pattern, for tables that are appended to `tables₀`. -/
def fragment (p : Pattern) (mode : Mode) (width : Width) (flags : Flags)
    (tables₀ : Array CharTable) (cap : Nat) : Fragment :=
  p.root.fragment (p.target mode width flags cap) tables₀.size 0

/-- **A compiled program is the code of the pattern's fragment and the instruction that ends
it.**  The tables of the pattern are appended to those given. -/
theorem eq_of_compile
    (h : p.compile mode width flags tables₀ cap = (.ok prog, tables)) :
    prog = {
        code := ((p.fragment mode width flags tables₀ cap).code 0 ++ [Instr.accept]).toArray
        groups := p.groups
        registers := p.root.registerCount
        anchored := p.root.startsAtInputStart
        captures := (p.target mode width flags cap).captures
        firstUnit := if flags.ignoreCase then none else p.root.firstUnit } ∧
      tables = tables₀ ++ (p.root.tables (p.target mode width flags cap)).toArray := by
  rw [compile] at h
  rcases hx : (Emit.whole (p.target mode width flags cap) p.root).run
    { address := 0, tables := tables₀, registers := 0 } with ⟨_ | code, site⟩
  · simp only [hx] at h
    cases h
  · -- the code of the pattern, and behind it the instruction that accepts
    obtain ⟨body, _, hbody, hlast⟩ := Emit.emits_bind.1 hx
    obtain ⟨rfl, rfl⟩ := Emit.renders_node p.root _ _ _ hbody
    obtain ⟨_, _, haddress, hlast⟩ := Emit.emits_bind.1 hlast
    obtain ⟨rfl, rfl⟩ := Emit.emits_takeAddress haddress
    obtain ⟨rfl, rfl⟩ := Emit.emits_pure.1 hlast
    simp only [hx] at h
    cases h
    simp [fragment, Site.advance]

end Pattern

end RegexEngine

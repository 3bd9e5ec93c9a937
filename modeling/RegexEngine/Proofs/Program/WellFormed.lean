import Mathlib.Data.List.Basic
import RegexEngine.Proofs.Program.Emission
import RegexEngine.Proofs.Program.Operands

/-!
# Well-formed programs

A program is well formed if its jumps stay inside of its code, its operands exist, and the code of
every condition is a block of its own: other code enters it through its `look` only, and it is
left through its `lookEnd` only.

* `Program.WellFormed` — the well-formed programs.
* `Sealed` — conditions are neither entered nor left.
* `Fragment.sealed_code` — the code of a fragment has sealed conditions.
* `Pattern.Canonical.wellFormed_of_compile` — **compiled programs are well formed.**
-/

namespace RegexEngine

namespace Instr

/-- The addresses at which the same run may go on after an instruction at `pc`.  The code of a
condition is a run of its own. -/
def successors (pc : Nat) : Instr → List Nat
  | accept | lookEnd | fail => []
  | split first second => [first, second]
  | jump target => [target]
  | look _ _ next => [next]
  | _ => [pc + 1]

/-- All addresses to which an instruction at `pc` may lead. -/
def targets (pc : Nat) : Instr → List Nat
  | look _ body next => [body, next]
  | i => i.successors pc

/-- Whether an instruction uses existing slots, registers and tables only. -/
def InRange (slots registers tables : Nat) : Instr → Prop
  | inTable table _ _ => table < tables
  | save slot => slot < slots
  | clear _ last => last ≤ slots
  | backRef group _ => 2 * group + 1 < slots
  | mark register | progress register => register < registers
  | _ => True

theorem Straight.inRange {ns nr nt : Nat} {i : Instr} (h : i.Straight ns nt) :
    i.InRange ns nr nt := by
  cases i <;> trivial

theorem Straight.successors {ns nt : Nat} {i : Instr} (h : i.Straight ns nt) {pc s : Nat}
    (hs : s ∈ i.successors pc) : s = pc + 1 := by
  cases i <;> simp_all [Straight, Instr.successors]

end Instr

namespace Program

/-- A program that a machine can run without leaving its code, its slots, its registers or the
list of `tables` tables. -/
structure WellFormed (p : Program) (tables : Nat) : Prop where
  /-- The last instruction accepts, and no other one does. -/
  accept_iff : ∀ pc : Nat, p.code[pc]? = some Instr.accept ↔ pc + 1 = p.code.size
  /-- There is code. -/
  code_pos : 0 < p.code.size
  targets : ∀ (pc : Nat) (i : Instr), p.code[pc]? = some i → ∀ s ∈ i.targets pc, s < p.code.size
  operands : ∀ (pc : Nat) (i : Instr), p.code[pc]? = some i → i.InRange p.slots p.registers tables
  /-- The code of a condition begins behind its `look`, and a `lookEnd` in front of `next` closes
  it. -/
  look_body : ∀ (pc : Nat) negated body next, p.code[pc]? = some (Instr.look negated body next) →
    body = pc + 1 ∧ body < next ∧ p.code[next - 1]? = some Instr.lookEnd
  /-- No run enters or leaves the code of a condition. -/
  look_sealed : ∀ (pc : Nat) negated body next, p.code[pc]? = some (Instr.look negated body next) →
    ∀ (q : Nat) (i : Instr), p.code[q]? = some i → ∀ s ∈ i.successors q,
      pc < q ∧ q < next ↔ pc < s ∧ s < next
  /-- Every `lookEnd` closes the code of a condition. -/
  lookEnd_owner : ∀ pc : Nat, p.code[pc]? = some Instr.lookEnd →
    ∃ (q : Nat) (negated : Bool), p.code[q]? = some (Instr.look negated (q + 1) (pc + 1))

end Program

/-! ### The code of a fragment -/

namespace Fragment

variable {ns nr nt : Nat}

theorem successors_choice (greedy : Bool) (body exit q s : Nat) :
    s ∈ (Emit.choice greedy body exit).successors q ↔ s = body ∨ s = exit := by
  cases greedy <;> simp [Emit.choice, Instr.successors, or_comm]

/-- The code of a fragment leads to its own instructions and to the address behind it. -/
theorem successors_code {f : Fragment} (hf : f.Valid ns nr nt) {a q s : Nat} {i : Instr}
    (h : f.At a q i) (hs : s ∈ i.successors q) : a ≤ s ∧ s ≤ a + f.size := by
  -- the instructions of a part stay in the part, those around it lead into it or behind it
  induction f generalizing a q i with
  | nil => exact absurd h not_at_nil
  | instr j =>
    obtain ⟨rfl, rfl⟩ := at_instr.1 h
    have hsucc := hf.successors hs
    simp only [size]
    omega
  | append f g ihf ihg =>
    simp only [size]
    rcases at_append.1 h with h | h
    · have := ihf hf.1 h hs
      omega
    · have := ihg hf.2 h hs
      omega
  | choice f g ihf ihg =>
    simp only [size]
    rcases at_choice.1 h with ⟨rfl, rfl⟩ | h | ⟨rfl, rfl⟩ | h
    · simp only [Instr.successors, List.mem_cons, List.not_mem_nil, or_false] at hs
      omega
    · have := ihf hf.1 h hs
      omega
    · simp only [Instr.successors, List.mem_cons, List.not_mem_nil, or_false] at hs
      omega
    · have := ihg hf.2 h hs
      omega
  | optional greedy f ih =>
    simp only [size]
    rcases at_optional.1 h with ⟨rfl, rfl⟩ | h
    · rw [successors_choice] at hs
      omega
    · have := ih hf h hs
      omega
  | loop greedy f ih =>
    simp only [size]
    rcases at_loop.1 h with ⟨rfl, rfl⟩ | h | ⟨rfl, rfl⟩
    · rw [successors_choice] at hs
      omega
    · have := ih hf h hs
      omega
    · simp only [Instr.successors, List.mem_cons, List.not_mem_nil, or_false] at hs
      omega
  | advance r f ih =>
    simp only [size]
    rcases at_advance.1 h with ⟨rfl, rfl⟩ | h | ⟨rfl, rfl⟩
    · simp only [Instr.successors, List.mem_cons, List.not_mem_nil, or_false] at hs
      omega
    · have := ih hf.2 h hs
      omega
    · simp only [Instr.successors, List.mem_cons, List.not_mem_nil, or_false] at hs
      omega
  | look negated f ih =>
    simp only [size]
    rcases at_look.1 h with ⟨rfl, rfl⟩ | h | ⟨rfl, rfl⟩
    · simp only [Instr.successors, List.mem_cons, List.not_mem_nil, or_false] at hs
      omega
    · have := ih hf h hs
      omega
    · simp [Instr.successors] at hs

theorem inRange_choice (greedy : Bool) (body exit : Nat) :
    (Emit.choice greedy body exit).InRange ns nr nt := by
  cases greedy <;> trivial

/-- The code of a valid fragment has its operands in range. -/
theorem inRange_code {f : Fragment} (hf : f.Valid ns nr nt) {a q : Nat} {i : Instr}
    (h : f.At a q i) : i.InRange ns nr nt := by
  induction f generalizing a with
  | nil => exact absurd h not_at_nil
  | instr j =>
    obtain ⟨rfl, rfl⟩ := at_instr.1 h
    exact hf.inRange
  | append f g ihf ihg =>
    rcases at_append.1 h with h | h
    · exact ihf hf.1 h
    · exact ihg hf.2 h
  | choice f g ihf ihg =>
    rcases at_choice.1 h with ⟨rfl, rfl⟩ | h | ⟨rfl, rfl⟩ | h
    · trivial
    · exact ihf hf.1 h
    · trivial
    · exact ihg hf.2 h
  | optional greedy f ih =>
    rcases at_optional.1 h with ⟨rfl, rfl⟩ | h
    · exact inRange_choice ..
    · exact ih hf h
  | loop greedy f ih =>
    rcases at_loop.1 h with ⟨rfl, rfl⟩ | h | ⟨rfl, rfl⟩
    · exact inRange_choice ..
    · exact ih hf h
    · trivial
  | advance r f ih =>
    rcases at_advance.1 h with ⟨rfl, rfl⟩ | h | ⟨rfl, rfl⟩
    · exact hf.1
    · exact ih hf.2 h
    · exact hf.1
  | look negated f ih =>
    rcases at_look.1 h with ⟨rfl, rfl⟩ | h | ⟨rfl, rfl⟩
    · trivial
    · exact ih hf h
    · trivial

end Fragment

/-! ### Conditions in code -/

/-- The conditions in a set of placed instructions: each is closed by a `lookEnd` and neither
entered nor left, and every `lookEnd` closes one. -/
structure Sealed (A : Nat → Instr → Prop) : Prop where
  body : ∀ {q negated body next}, A q (.look negated body next) →
    body = q + 1 ∧ body < next ∧ A (next - 1) .lookEnd
  crossing : ∀ {q negated body next}, A q (.look negated body next) →
    ∀ {r i}, A r i → ∀ s ∈ i.successors r, q < r ∧ r < next ↔ q < s ∧ s < next
  owner : ∀ {q}, A q .lookEnd → ∃ r negated, A r (.look negated (r + 1) (q + 1))

/-- The conditions in a set of placed instructions lie between two addresses. -/
def LooksWithin (A : Nat → Instr → Prop) (a b : Nat) : Prop :=
  ∀ q negated body next, A q (.look negated body next) → a ≤ q ∧ next ≤ b

/-- The instructions stand outside of a block and lead at most to its two ends. -/
def Outside (A : Nat → Instr → Prop) (a b : Nat) : Prop :=
  ∀ q i, A q i → ¬(a ≤ q ∧ q < b) ∧ ∀ s ∈ i.successors q, s ≤ a ∨ b ≤ s

namespace Sealed

variable {A B : Nat → Instr → Prop} {a b c d : Nat}

/-- Two sets of instructions that lie outside of each other's conditions. -/
theorem union (hA : Sealed A) (hB : Sealed B) (hwA : LooksWithin A a b) (hwB : LooksWithin B c d)
    (hAB : Outside A c d) (hBA : Outside B a b) : Sealed fun q i => A q i ∨ B q i where
  body := by
    rintro q negated body next (h | h)
    · exact ⟨(hA.body h).1, (hA.body h).2.1, Or.inl (hA.body h).2.2⟩
    · exact ⟨(hB.body h).1, (hB.body h).2.1, Or.inr (hB.body h).2.2⟩
  crossing := by
    rintro q negated body next (h | h) r i (hi | hi) s hs
    · exact hA.crossing h hi s hs
    · -- a condition of the one set and an instruction of the other
      have hq := hwA _ _ _ _ h
      have hr := hBA _ _ hi
      have hs := hr.2 s hs
      omega
    · have hq := hwB _ _ _ _ h
      have hr := hAB _ _ hi
      have hs := hr.2 s hs
      omega
    · exact hB.crossing h hi s hs
  owner := by
    rintro q (h | h)
    · obtain ⟨r, negated, hr⟩ := hA.owner h
      exact ⟨r, negated, Or.inl hr⟩
    · obtain ⟨r, negated, hr⟩ := hB.owner h
      exact ⟨r, negated, Or.inr hr⟩

/-- Instructions without conditions around a block. -/
theorem union_plain (hA : Sealed A) (hwA : LooksWithin A a b) (hBA : Outside B a b)
    (hlook : ∀ q negated body next, ¬B q (.look negated body next))
    (hend : ∀ q, ¬B q .lookEnd) : Sealed fun q i => A q i ∨ B q i :=
  union (c := 0) (d := 0) hA
    ⟨fun h => absurd h (hlook _ _ _ _), fun h => absurd h (hlook _ _ _ _),
      fun h => absurd h (hend _)⟩
    hwA (fun _ _ _ _ h => absurd h (hlook _ _ _ _))
    (fun _ _ _ => ⟨by omega, fun _ _ => Or.inr (Nat.zero_le _)⟩) hBA

theorem congr (hA : Sealed A) (h : ∀ q i, B q i ↔ A q i) : Sealed B := by
  obtain rfl : B = A := funext fun q => funext fun i => propext (h q i)
  exact hA

end Sealed

namespace Fragment

variable {ns nr nt : Nat} {f : Fragment}

theorem looksWithin_code (hf : f.Valid ns nr nt) (a : Nat) :
    LooksWithin (f.At a) a (a + f.size) :=
  fun _ _ _ _ h => ⟨h.bounds.1, (successors_code hf h (by simp [Instr.successors])).2⟩

theorem outside_code (hf : f.Valid ns nr nt) {a c d : Nat} (h : d ≤ a ∨ a + f.size ≤ c) :
    Outside (f.At a) c d := by
  intro q i hi
  have hq := hi.bounds
  refine ⟨by omega, fun s hs => ?_⟩
  have hs := successors_code hf hi hs
  omega

/-- The conditions in the code of a condition are sealed, and so is the condition. -/
theorem sealed_look {negated : Bool} (hf : f.Valid ns nr nt) {a : Nat}
    (h : Sealed (f.At (a + 1))) : Sealed ((look negated f).At a) where
  body := by
    intro q neg body next hq
    rcases at_look.1 hq with ⟨rfl, heq⟩ | hq | ⟨-, heq⟩
    · -- the condition itself is closed by the last instruction
      obtain ⟨-, rfl, rfl⟩ := Instr.look.inj heq
      exact ⟨rfl, by omega, at_look.2 (Or.inr (Or.inr ⟨by omega, rfl⟩))⟩
    · obtain ⟨hbody, hlt, hend⟩ := h.body hq
      exact ⟨hbody, hlt, at_look.2 (Or.inr (Or.inl hend))⟩
    · cases heq
  crossing := by
    intro q neg body next hq r i hr s hs
    rcases at_look.1 hq with ⟨rfl, heq⟩ | hq | ⟨-, heq⟩
    · -- the condition itself: its code leads to itself or ends
      obtain ⟨-, rfl, rfl⟩ := Instr.look.inj heq
      rcases at_look.1 hr with ⟨rfl, rfl⟩ | hr | ⟨rfl, rfl⟩
      · simp only [Instr.successors, List.mem_singleton] at hs
        omega
      · have hb := hr.bounds
        have hs := successors_code hf hr hs
        omega
      · simp [Instr.successors] at hs
    · -- a condition inside of it
      have hwithin := looksWithin_code hf _ _ _ _ _ hq
      rcases at_look.1 hr with ⟨rfl, rfl⟩ | hr | ⟨rfl, rfl⟩
      · simp only [Instr.successors, List.mem_singleton] at hs
        omega
      · exact h.crossing hq hr s hs
      · simp [Instr.successors] at hs
    · cases heq
  owner := by
    intro q hq
    rcases at_look.1 hq with ⟨-, heq⟩ | hq | ⟨rfl, -⟩
    · cases heq
    · obtain ⟨r, neg, hr⟩ := h.owner hq
      exact ⟨r, neg, at_look.2 (Or.inr (Or.inl hr))⟩
    · exact ⟨a, negated, at_look.2 (Or.inl ⟨rfl, rfl⟩)⟩

theorem choice_ne_look {greedy negated : Bool} {x y body next : Nat} :
    Emit.choice greedy x y ≠ .look negated body next := by
  cases greedy <;> simp [Emit.choice]

theorem choice_ne_lookEnd {greedy : Bool} {x y : Nat} : Emit.choice greedy x y ≠ .lookEnd := by
  cases greedy <;> simp [Emit.choice]

/-- The conditions in the code of a fragment are sealed. -/
theorem sealed_code (hf : f.Valid ns nr nt) (a : Nat) : Sealed (f.At a) := by
  induction f generalizing a with
  | nil => exact ⟨by simp, by simp, by simp⟩
  | instr j =>
    -- a straight instruction is neither of the two that make a condition
    refine ⟨fun h => ?_, fun h => ?_, fun h => ?_⟩ <;>
      (obtain ⟨-, rfl⟩ := at_instr.1 h; exact absurd hf (by simp [Valid, Instr.Straight]))
  | append f g ihf ihg =>
    refine ((ihf hf.1 a).union (ihg hf.2 (a + f.size)) (looksWithin_code hf.1 a)
      (looksWithin_code hf.2 _) ?_ ?_).congr fun q i => at_append
    · exact outside_code hf.1 (by omega)
    · exact outside_code hf.2 (by omega)
  | choice f g ihf ihg =>
    -- the first fragment with the choice and the jump, then the second
    have hown : Sealed fun q i => f.At (a + 1) q i ∨
        q = a ∧ i = .split (a + 1) (a + f.size + 2) ∨
          q = a + f.size + 1 ∧ i = .jump (a + f.size + g.size + 2) := by
      refine (ihf hf.1 (a + 1)).union_plain (looksWithin_code hf.1 _) ?_ (by simp) (by simp)
      rintro q i (⟨rfl, rfl⟩ | ⟨rfl, rfl⟩) <;> simp [Instr.successors] <;> omega
    refine (hown.union (ihg hf.2 (a + f.size + 2)) (a := a + 1) (b := a + 1 + f.size) ?_
      (looksWithin_code hf.2 _) ?_ ?_).congr fun q i => by rw [at_choice]; tauto
    · rintro q negated body next (h | ⟨-, h⟩ | ⟨-, h⟩)
      · exact looksWithin_code hf.1 _ _ _ _ _ h
      · cases h
      · cases h
    · rintro q i (h | ⟨rfl, rfl⟩ | ⟨rfl, rfl⟩)
      · exact outside_code hf.1 (by omega) q i h
      · simp [Instr.successors]; omega
      · simp [Instr.successors]; omega
    · exact outside_code hf.2 (by omega)
  | optional greedy f ih =>
    -- here and below: a body, and around it instructions that lead to its two ends
    refine ((ih hf (a + 1)).union_plain (looksWithin_code (f := f) hf _) (B := fun q i =>
      q = a ∧ i = Emit.choice greedy (a + 1) (a + f.size + 1)) ?_ ?_ ?_).congr
        fun q i => by rw [at_optional]; tauto
    · rintro q i ⟨rfl, rfl⟩
      refine ⟨by omega, fun s hs => ?_⟩
      rw [successors_choice] at hs
      omega
    · exact fun _ _ _ _ h => choice_ne_look h.2.symm
    · exact fun _ h => choice_ne_lookEnd h.2.symm
  | loop greedy f ih =>
    refine ((ih hf (a + 1)).union_plain (looksWithin_code (f := f) hf _) (B := fun q i =>
      q = a ∧ i = Emit.choice greedy (a + 1) (a + f.size + 2) ∨
        q = a + f.size + 1 ∧ i = .jump a) ?_ ?_ ?_).congr fun q i => by rw [at_loop]; tauto
    · rintro q i (⟨rfl, rfl⟩ | ⟨rfl, rfl⟩)
      · refine ⟨by omega, fun s hs => ?_⟩
        rw [successors_choice] at hs
        omega
      · simp [Instr.successors]
        omega
    · rintro _ _ _ _ (h | h)
      · exact choice_ne_look h.2.symm
      · cases h.2
    · rintro _ (h | h)
      · exact choice_ne_lookEnd h.2.symm
      · cases h.2
  | advance r f ih =>
    refine ((ih hf.2 (a + 1)).union_plain (looksWithin_code hf.2 _) (B := fun q i =>
      q = a ∧ i = .mark r ∨ q = a + f.size + 1 ∧ i = .progress r) ?_ (by simp)
        (by simp)).congr fun q i => by rw [at_advance]; tauto
    rintro q i (⟨rfl, rfl⟩ | ⟨rfl, rfl⟩)
    · simp only [Instr.successors, List.mem_singleton, forall_eq]
      omega
    · simp only [Instr.successors, List.mem_singleton, forall_eq]
      omega
  | look negated f ih => exact sealed_look (f := f) hf (ih hf (a + 1))

/-- The code of a fragment does not accept. -/
theorem ne_accept_code (hf : f.Valid ns nr nt) {a q : Nat} : ¬f.At a q .accept := by
  induction f generalizing a with
  | nil => simp
  | instr j =>
    intro h
    obtain ⟨-, rfl⟩ := at_instr.1 h
    exact hf
  | append f g ihf ihg => simp [ihf hf.1, ihg hf.2]
  | choice f g ihf ihg => simp [ihf hf.1, ihg hf.2]
  | optional greedy f ih => cases greedy <;> simp [Emit.choice, ih hf]
  | loop greedy f ih => cases greedy <;> simp [Emit.choice, ih hf]
  | advance r f ih => simp [ih hf.2]
  | look negated f ih => simp [ih hf]

end Fragment

/-! ### Compiled programs -/

namespace Fragment

/-- The code of a fragment, closed by an instruction that accepts. -/
theorem getElem?_closed {f : Fragment} {prog : Program}
    (hcode : prog.code = (f.code 0 ++ [Instr.accept]).toArray) {q : Nat} {i : Instr} :
    prog.code[q]? = some i ↔ f.At 0 q i ∨ q = f.size ∧ i = .accept := by
  rw [hcode, at_toArray, RegexEngine.at_append]
  simp [At]

/-- The conditions in such a program are sealed. -/
theorem Valid.sealed_closed {f : Fragment} {prog : Program} {ns nr nt : Nat} (hf : f.Valid ns nr nt)
    (hcode : prog.code = (f.code 0 ++ [Instr.accept]).toArray) :
    Sealed fun q i => prog.code[q]? = some i := by
  -- the last instruction leads nowhere
  refine ((sealed_code hf 0).union_plain (looksWithin_code hf 0)
    (B := fun q i => q = f.size ∧ i = .accept) ?_ (by simp) (by simp)).congr
      fun _ _ => getElem?_closed hcode
  rintro q i ⟨rfl, rfl⟩
  simp [Instr.successors]

/-- **The code of a valid fragment, closed by an instruction that accepts, is a well-formed
program.** -/
theorem Valid.wellFormed {f : Fragment} {prog : Program} {nt : Nat}
    (hf : f.Valid prog.slots prog.registers nt)
    (hcode : prog.code = (f.code 0 ++ [Instr.accept]).toArray) : prog.WellFormed nt := by
  have hat : ∀ {q : Nat} {i : Instr},
      prog.code[q]? = some i ↔ f.At 0 q i ∨ q = f.size ∧ i = .accept := getElem?_closed hcode
  have hsize : prog.code.size = f.size + 1 := by simp [hcode]
  have hsealed := hf.sealed_closed hcode
  exact {
    accept_iff := by
      intro pc
      rw [hat, hsize]
      simp [ne_accept_code hf]
    code_pos := by omega
    targets := by
      intro pc i hi s hs
      have hnext : ∀ s ∈ i.successors pc, s < prog.code.size := by
        intro s hs
        rcases hat.1 hi with hi | ⟨-, rfl⟩
        · have := successors_code hf hi hs
          omega
        · simp [Instr.successors] at hs
      cases i with
      | look negated body next =>
        -- the code of a condition is a target besides
        have hbody := hsealed.body hi
        have hlt := hnext next (by simp [Instr.successors])
        simp only [Instr.targets, List.mem_cons, List.not_mem_nil, or_false] at hs
        omega
      | _ => exact hnext s hs
    operands := by
      intro pc i hi
      rcases hat.1 hi with hi | ⟨-, rfl⟩
      · exact inRange_code hf hi
      · trivial
    look_body := fun _ _ _ _ h => hsealed.body h
    look_sealed := fun _ _ _ _ h _ _ hi => hsealed.crossing h hi
    lookEnd_owner := fun _ h => hsealed.owner h }

end Fragment

namespace Pattern

variable {p : Pattern} {mode : Mode} {width : Width} {flags : Flags}
  {tables₀ tables : Array CharTable} {cap : Nat} {prog : Program}

theorem Canonical.valid_fragment (hp : p.Canonical)
    (h : p.compile mode width flags tables₀ cap = (.ok prog, tables)) :
    (p.fragment mode width flags tables₀ cap).Valid prog.slots prog.registers tables.size := by
  obtain ⟨rfl, rfl⟩ := eq_of_compile h
  exact Node.valid_fragment p.root hp.wellFormed (fun i hi => (hp.mem_groupNumbers.1 hi).2)
    (by simp) (by simp)

/-- The conditions in the program of any tree are sealed, be the tree parsed or built by hand. -/
theorem sealed_of_compile (h : p.compile mode width flags tables₀ cap = (.ok prog, tables)) :
    Sealed fun q i => prog.code[q]? = some i := by
  obtain ⟨rfl, -⟩ := eq_of_compile h
  obtain ⟨b, hvalid⟩ := Node.exists_valid_fragment (p.target mode width flags cap) p.root
  exact (hvalid b (Nat.le_refl b) (Nat.le_refl _) (Nat.le_refl _)).sealed_closed rfl

/-- **Programs that are compiled from parsed patterns are well formed.** -/
theorem Canonical.wellFormed_of_compile (hp : p.Canonical)
    (h : p.compile mode width flags tables₀ cap = (.ok prog, tables)) :
    prog.WellFormed tables.size :=
  (hp.valid_fragment h).wellFormed (by obtain ⟨rfl, -⟩ := eq_of_compile h; rfl)

end Pattern

/-! ### A small program -/

/-- The pattern `(b)+?\1`. -/
def Pattern.doubled : Pattern where
  root := .seq [.rep 1 none false (.group 1 (.unit 0x62)), .backRef 1]
  groups := 1

/-- Its program for Latin-1 texts, with captures. -/
def Program.doubled : Program where
  code := #[.clear 2 4, .save 2, .unit 0x62, .save 3, .split 10 5, .clear 2 4, .save 2, .unit 0x62,
    .save 3, .jump 4, .backRef 1 false, .accept]
  groups := 1
  registers := 0
  anchored := false
  captures := true
  firstUnit := some 0x62

theorem Pattern.compile_doubled :
    Pattern.doubled.compile .normal .latin1 .empty #[] 12 = (.ok .doubled, #[]) := rfl

end RegexEngine

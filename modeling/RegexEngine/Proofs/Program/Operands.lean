import Mathlib.Data.List.Basic
import RegexEngine.Proofs.Pattern.Groups
import RegexEngine.Proofs.Program.Fragment

/-!
# What the fragment of a tree is made of

The fragments of parsed trees have their operands in range: slots and tables because the groups
and the tables of a tree are counted, registers because each loop takes its own.  A loop whose
body might be empty checks its progress, so that the body of every loop consumes a unit.

* `Node.registers_fragment` — the registers of a fragment are numbered in a row.
* `Node.valid_fragment` — **all operands are in range.**
* `Node.consumes_fragment` — a tree that cannot be empty has code that consumes.
* `Node.guarded_fragment` — **the body of every loop consumes a unit.**
-/

namespace RegexEngine

namespace Fragment

variable {F : Nat → Nat → Fragment} {T R n : Nat} {greedy : Bool} {span : Option (Nat × Nat)}

/-! ### Registers -/

@[simp] theorem registers_iteration (f : Fragment) :
    (iteration span f).registers = f.registers := by
  rcases span with _ | ⟨first, last⟩ <;> rfl

theorem registers_copies (h : ∀ tb rg, (F tb rg).registers = List.range' rg R) (tb rg : Nat) :
    (copies F T R n tb rg).registers = List.range' rg (n * R) := by
  induction n generalizing tb rg with
  | zero => simp [copies, registers]
  | succ n ih =>
    rw [copies, registers, h, ih, List.range'_append_1, Nat.succ_mul, Nat.add_comm R]

theorem registers_optionals (h : ∀ tb rg, (F tb rg).registers = List.range' rg R) (tb rg : Nat) :
    (optionals F T R greedy n tb rg).registers = List.range' rg (n * R) := by
  induction n generalizing tb rg with
  | zero => simp [optionals, registers]
  | succ n ih =>
    rw [optionals, registers, registers, h, ih, List.range'_append_1, Nat.succ_mul, Nat.add_comm R]

theorem registers_unbounded (h : ∀ tb rg, (F tb rg).registers = List.range' rg R)
    (canBeEmpty : Bool) (tb rg : Nat) :
    (unbounded greedy canBeEmpty F tb rg).registers =
      List.range' rg ((if canBeEmpty then 1 else 0) + R) := by
  cases canBeEmpty with
  | false => simp [unbounded, registers, h]
  | true => simp [unbounded, registers, h, Nat.add_comm 1, List.range'_succ]

/-! ### Operands -/

variable {ns nr nt : Nat}

theorem valid_iteration {f : Fragment} (hf : f.Valid ns nr nt)
    (hspan : ∀ s ∈ span, 2 * s.2 ≤ ns) : (iteration span f).Valid ns nr nt := by
  rcases span with _ | ⟨first, last⟩
  · exact hf
  · exact ⟨hspan _ rfl, hf⟩

theorem valid_copies (h : ∀ tb rg, tb + T ≤ nt → rg + R ≤ nr → (F tb rg).Valid ns nr nt)
    {tb rg : Nat} (htb : tb + n * T ≤ nt) (hrg : rg + n * R ≤ nr) :
    (copies F T R n tb rg).Valid ns nr nt := by
  induction n generalizing tb rg with
  | zero => trivial
  | succ n ih =>
    rw [Nat.succ_mul] at htb hrg
    exact ⟨h tb rg (by omega) (by omega), ih (by omega) (by omega)⟩

theorem valid_optionals (h : ∀ tb rg, tb + T ≤ nt → rg + R ≤ nr → (F tb rg).Valid ns nr nt)
    {tb rg : Nat} (htb : tb + n * T ≤ nt) (hrg : rg + n * R ≤ nr) :
    (optionals F T R greedy n tb rg).Valid ns nr nt := by
  induction n generalizing tb rg with
  | zero => trivial
  | succ n ih =>
    rw [Nat.succ_mul] at htb hrg
    exact ⟨h tb rg (by omega) (by omega), ih (by omega) (by omega)⟩

theorem valid_unbounded (h : ∀ tb rg, tb + T ≤ nt → rg + R ≤ nr → (F tb rg).Valid ns nr nt)
    {canBeEmpty : Bool} {tb rg : Nat} (htb : tb + T ≤ nt)
    (hrg : rg + ((if canBeEmpty then 1 else 0) + R) ≤ nr) :
    (unbounded greedy canBeEmpty F tb rg).Valid ns nr nt := by
  cases canBeEmpty with
  | false =>
    rw [if_neg Bool.false_ne_true] at hrg
    exact h tb rg htb (by omega)
  | true =>
    rw [if_pos rfl] at hrg
    exact ⟨by omega, h tb (rg + 1) htb (by omega)⟩

/-! ### Loops -/

theorem consumes_iteration {f : Fragment} (h : f.consumes = true) :
    (iteration span f).consumes = true := by
  rcases span with _ | ⟨first, last⟩
  · exact h
  · simp [iteration, consumes, h]

theorem guarded_iteration {f : Fragment} (h : f.Guarded) : (iteration span f).Guarded := by
  rcases span with _ | ⟨first, last⟩
  · exact h
  · exact ⟨trivial, h⟩

theorem guarded_copies (h : ∀ tb rg, (F tb rg).Guarded) (tb rg : Nat) :
    (copies F T R n tb rg).Guarded := by
  induction n generalizing tb rg with
  | zero => trivial
  | succ n ih => exact ⟨h tb rg, ih _ _⟩

theorem guarded_optionals (h : ∀ tb rg, (F tb rg).Guarded) (tb rg : Nat) :
    (optionals F T R greedy n tb rg).Guarded := by
  induction n generalizing tb rg with
  | zero => trivial
  | succ n ih => exact ⟨h tb rg, ih _ _⟩

theorem guarded_unbounded (h : ∀ tb rg, (F tb rg).Guarded) {canBeEmpty : Bool}
    (hc : canBeEmpty = false → ∀ tb rg, (F tb rg).consumes = true) (tb rg : Nat) :
    (unbounded greedy canBeEmpty F tb rg).Guarded := by
  cases canBeEmpty with
  | false => exact ⟨hc rfl tb rg, h tb rg⟩
  | true => exact ⟨rfl, h tb (rg + 1)⟩

end Fragment

namespace Node

open Fragment

variable {t : Target}

mutual

/-- The registers of a fragment are numbered in a row. -/
theorem registers_fragment : ∀ (n : Node) (tb rg : Nat),
    (n.fragment t tb rg).registers = List.range' rg n.registerCount
  | empty, _, _ | unit _, _, _ | any, _, _ | charClass .., _, _ | anchor _, _, _
  | backRef _, _, _ => by
    simp [fragment, registers, registerCount]
  | group _ body, tb, rg => by
    rw [fragment, registerCount]
    split <;> simp [registers, registers_fragment body]
  | look _ body, tb, rg => registers_fragment body tb rg
  | rep lower upper greedy body, tb, rg => by
    have honce : ∀ tb rg, (iteration (Emit.loopSpan t body) (body.fragment t tb rg)).registers =
        List.range' rg body.registerCount :=
      fun tb rg => by rw [registers_iteration, registers_fragment body]
    simp only [fragment, registers, registerCount]
    cases upper with
    | none => rw [registers_copies honce, registers_unbounded honce, List.range'_append_1]
    | some upper => rw [registers_copies honce, registers_optionals honce, List.range'_append_1]
  | seq items, tb, rg => registers_sequence items tb rg
  | alt items, tb, rg => registers_alternatives items tb rg

theorem registers_sequence : ∀ (ns : List Node) (tb rg : Nat),
    (sequence t ns tb rg).registers = List.range' rg (allRegisterCount ns)
  | [], _, _ => by simp [sequence, registers, allRegisterCount]
  | n :: ns, tb, rg => by
    rw [sequence, registers, registers_fragment n, registers_sequence ns, allRegisterCount,
      List.range'_append_1]

theorem registers_alternatives : ∀ (ns : List Node) (tb rg : Nat),
    (alternatives t ns tb rg).registers = List.range' rg (allRegisterCount ns)
  | [], _, _ => by simp [alternatives, registers, allRegisterCount]
  | n :: ns, tb, rg => by
    rw [alternatives, allRegisterCount]
    split
    · next hns =>
      obtain rfl := List.isEmpty_iff.1 hns
      rw [registers_fragment n, allRegisterCount, Nat.add_zero]
    · rw [registers, registers_fragment n, registers_alternatives ns, List.range'_append_1]

end

/-- The upper end of an interval around numbers is not above a bound of the numbers. -/
theorem spanOf_le {is : List Nat} {m : Nat} (h : ∀ i ∈ is, i < m) : ∀ s ∈ spanOf is, s.2 ≤ m := by
  induction is with
  | nil => simp
  | cons i is ih =>
    have hi := h i (List.mem_cons_self ..)
    have his := ih fun j hj => h j (List.mem_cons_of_mem _ hj)
    intro s hs
    rw [spanOf_cons] at hs
    rcases hspan : spanOf is with _ | ⟨a, b⟩
    · simp only [hspan, joinSpans, Option.mem_some_iff] at hs
      subst hs
      exact hi
    · have hb := his (a, b) hspan
      simp only [hspan, joinSpans, Option.mem_some_iff] at hs
      subst hs
      exact Nat.max_le.2 ⟨hi, hb⟩

theorem loopSpan_le {body : Node} {groups : Nat} (h : ∀ i ∈ body.groupNumbers, i ≤ groups) :
    ∀ s ∈ Emit.loopSpan t body, 2 * s.2 ≤ 2 * (groups + 1) := by
  intro s hs
  rw [Emit.loopSpan] at hs
  split at hs
  · rw [groupSpan_eq] at hs
    have hle := spanOf_le (fun i hi => Nat.lt_succ_of_le (h i hi)) s hs
    omega
  · cases hs

theorem straight_unitInstr (t : Target) (u ns nt : Nat) :
    (Emit.unitInstr t u).Straight ns nt := by
  rw [Emit.unitInstr]
  split
  · trivial
  · split <;> trivial

theorem length_tables_rep {lower : Nat} {upper : Option Nat} {greedy : Bool} {body : Node} :
    (tables t (rep lower upper greedy body)).length =
      lower * (body.tables t).length + upper.elim 1 (· - lower) * (body.tables t).length := by
  simp [tables, Nat.add_mul]

/-- Every copy of a loop's body has tables and registers of its own. -/
theorem valid_rep {slots lower tb rg nr nt : Nat} {upper : Option Nat} {greedy : Bool} {body : Node}
    (honce : ∀ tb rg, tb + (body.tables t).length ≤ nt → rg + body.registerCount ≤ nr →
      (iteration (Emit.loopSpan t body) (body.fragment t tb rg)).Valid slots nr nt)
    (htb : tb + (tables t (rep lower upper greedy body)).length ≤ nt)
    (hrg : rg + (rep lower upper greedy body).registerCount ≤ nr) :
    ((rep lower upper greedy body).fragment t tb rg).Valid slots nr nt := by
  rw [length_tables_rep] at htb
  simp only [registerCount] at hrg
  refine ⟨valid_copies honce (by omega) (by omega), ?_⟩
  cases upper with
  | none =>
    simp only [Option.elim_none, Nat.one_mul] at htb hrg
    exact valid_unbounded honce (by omega) (by omega)
  | some upper =>
    simp only [Option.elim_some] at htb hrg
    exact valid_optionals honce (by omega) (by omega)

mutual

/-- **All operands of the fragment of a well-formed tree are in range.** -/
theorem valid_fragment {groups nr nt : Nat} : ∀ (n : Node) {tb rg : Nat}, n.WellFormed groups →
    (∀ i ∈ n.groupNumbers, i ≤ groups) → tb + (n.tables t).length ≤ nt →
      rg + n.registerCount ≤ nr → (n.fragment t tb rg).Valid (2 * (groups + 1)) nr nt
  | empty, _, _, _, _, _, _ | any, _, _, _, _, _, _ | anchor _, _, _, _, _, _, _ => trivial
  | unit u, _, _, _, _, _, _ => straight_unitInstr t u _ _
  | charClass .., tb, _, _, _, htb, _ => by
    simpa [fragment, Valid, Instr.Straight, tables, Nat.succ_le_iff] using htb
  | backRef i, _, _, hwf, _, _, _ => by
    have hi := hwf.2
    simp only [fragment, Valid, Instr.Straight]
    omega
  | group index body, tb, rg, hwf, hi, htb, hrg => by
    have hindex := hi index (List.mem_cons_self ..)
    have hbody := valid_fragment body hwf (fun i hb => hi i (List.mem_cons_of_mem _ hb)) htb hrg
    rw [fragment]
    split
    · exact ⟨by simp only [Valid, Instr.Straight]; omega, hbody,
        by simp only [Valid, Instr.Straight]; omega⟩
    · exact hbody
  | look _ body, _, _, hwf, hi, htb, hrg => valid_fragment body hwf hi htb hrg
  | rep lower upper greedy body, tb, rg, hwf, hi, htb, hrg => by
    exact valid_rep (fun tb rg htb hrg =>
      valid_iteration (valid_fragment body hwf.2 hi htb hrg) (loopSpan_le hi)) htb hrg
  | seq items, _, _, hwf, hi, htb, hrg => valid_sequence items hwf.2 hi htb hrg
  | alt items, _, _, hwf, hi, htb, hrg => valid_alternatives items hwf.2 hi htb hrg

theorem valid_sequence {groups nr nt : Nat} : ∀ (ns : List Node) {tb rg : Nat},
    AllWellFormed groups ns → (∀ i ∈ allGroupNumbers ns, i ≤ groups) →
      tb + (allTables t ns).length ≤ nt → rg + allRegisterCount ns ≤ nr →
        (sequence t ns tb rg).Valid (2 * (groups + 1)) nr nt
  | [], _, _, _, _, _, _ => trivial
  | n :: ns, tb, rg, hwf, hi, htb, hrg => by
    simp only [allGroupNumbers, List.mem_append] at hi
    simp only [allTables, List.length_append] at htb
    rw [allRegisterCount] at hrg
    exact ⟨valid_fragment n hwf.1 (fun i h => hi i (Or.inl h)) (by omega) (by omega),
      valid_sequence ns hwf.2 (fun i h => hi i (Or.inr h)) (by omega) (by omega)⟩

theorem valid_alternatives {groups nr nt : Nat} : ∀ (ns : List Node) {tb rg : Nat},
    AllWellFormed groups ns → (∀ i ∈ allGroupNumbers ns, i ≤ groups) →
      tb + (allTables t ns).length ≤ nt → rg + allRegisterCount ns ≤ nr →
        (alternatives t ns tb rg).Valid (2 * (groups + 1)) nr nt
  | [], _, _, _, _, _, _ => trivial
  | n :: ns, tb, rg, hwf, hi, htb, hrg => by
    simp only [allGroupNumbers, List.mem_append] at hi
    simp only [allTables, List.length_append] at htb
    rw [allRegisterCount] at hrg
    have hn : (n.fragment t tb rg).Valid (2 * (groups + 1)) nr nt :=
      valid_fragment n hwf.1 (fun i h => hi i (Or.inl h)) (by omega) (by omega)
    rw [alternatives]
    split
    · exact hn
    · refine ⟨hn, valid_alternatives ns hwf.2 (fun i h => hi i (Or.inr h)) ?_ ?_⟩ <;> omega

end

mutual

/-- The fragment of any tree has its operands in range if there are slots enough. -/
theorem exists_valid_fragment (t : Target) : ∀ n : Node, ∃ b, ∀ ns, b ≤ ns → ∀ {tb rg nr nt : Nat},
    tb + (n.tables t).length ≤ nt → rg + n.registerCount ≤ nr →
      (n.fragment t tb rg).Valid ns nr nt
  | empty | any | anchor _ => ⟨0, fun _ _ _ _ _ _ _ _ => trivial⟩
  | unit u => ⟨0, fun ns _ _ _ _ nt _ _ => straight_unitInstr t u ns nt⟩
  | charClass .. => by
    refine ⟨0, fun ns _ tb rg nr nt htb _ => ?_⟩
    simpa [fragment, Valid, Instr.Straight, tables, Nat.succ_le_iff] using htb
  | backRef i => ⟨2 * i + 2, fun _ hns _ _ _ _ _ _ => hns⟩
  | group index body => by
    obtain ⟨b, hbody⟩ := exists_valid_fragment t body
    refine ⟨max b (2 * index + 2), fun ns hns tb rg nr nt htb hrg => ?_⟩
    have hvalid := hbody ns (by omega) htb hrg
    rw [fragment]
    split
    · exact ⟨by simp only [Valid, Instr.Straight]; omega, hvalid,
        by simp only [Valid, Instr.Straight]; omega⟩
    · exact hvalid
  | look _ body => exists_valid_fragment t body
  | rep lower upper greedy body => by
    obtain ⟨b, hbody⟩ := exists_valid_fragment t body
    -- the slots that an iteration clears are to exist, too
    refine ⟨max b ((Emit.loopSpan t body).elim 0 (2 * ·.2)), fun ns hns tb rg nr nt htb hrg => ?_⟩
    have hspan : ∀ s ∈ Emit.loopSpan t body, 2 * s.2 ≤ ns := by
      intro s hs
      rw [Option.mem_def.1 hs, Option.elim_some] at hns
      omega
    exact valid_rep (fun tb rg htb hrg => valid_iteration (hbody ns (by omega) htb hrg) hspan)
      htb hrg
  | seq items => exists_valid_sequence t items
  | alt items => exists_valid_alternatives t items

theorem exists_valid_sequence (t : Target) : ∀ ns : List Node, ∃ b, ∀ slots, b ≤ slots →
    ∀ {tb rg nr nt : Nat}, tb + (allTables t ns).length ≤ nt → rg + allRegisterCount ns ≤ nr →
      (sequence t ns tb rg).Valid slots nr nt
  | [] => ⟨0, fun _ _ _ _ _ _ _ _ => trivial⟩
  | n :: ns => by
    obtain ⟨b, hn⟩ := exists_valid_fragment t n
    obtain ⟨c, hns⟩ := exists_valid_sequence t ns
    refine ⟨max b c, fun slots hslots tb rg nr nt htb hrg => ?_⟩
    simp only [allTables, List.length_append] at htb
    rw [allRegisterCount] at hrg
    exact ⟨hn slots (by omega) (by omega) (by omega), hns slots (by omega) (by omega) (by omega)⟩

theorem exists_valid_alternatives (t : Target) : ∀ ns : List Node, ∃ b, ∀ slots, b ≤ slots →
    ∀ {tb rg nr nt : Nat}, tb + (allTables t ns).length ≤ nt → rg + allRegisterCount ns ≤ nr →
      (alternatives t ns tb rg).Valid slots nr nt
  | [] => ⟨0, fun _ _ _ _ _ _ _ _ => trivial⟩
  | n :: ns => by
    obtain ⟨b, hn⟩ := exists_valid_fragment t n
    obtain ⟨c, hns⟩ := exists_valid_alternatives t ns
    refine ⟨max b c, fun slots hslots tb rg nr nt htb hrg => ?_⟩
    simp only [allTables, List.length_append] at htb
    rw [allRegisterCount] at hrg
    have hvalid : (n.fragment t tb rg).Valid slots nr nt :=
      hn slots (by omega) (by omega) (by omega)
    rw [alternatives]
    split
    · exact hvalid
    · exact ⟨hvalid, hns slots (by omega) (by omega) (by omega)⟩

end

mutual

/-- A tree that cannot be empty has code that consumes a unit. -/
theorem consumes_fragment {groups : Nat} : ∀ (n : Node) (tb rg : Nat), n.WellFormed groups →
    n.canBeEmpty = false → (n.fragment t tb rg).consumes = true
  | unit u, _, _, _, _ => by
    rw [fragment, consumes, Emit.unitInstr]
    split
    · rfl
    · split <;> rfl
  | any, _, _, _, _ | charClass .., _, _, _, _ => rfl
  | group _ body, tb, rg, hwf, h => by
    have hbody := consumes_fragment body tb rg hwf (by simpa [canBeEmpty] using h)
    rw [fragment]
    split
    · simp [consumes, hbody]
    · exact hbody
  | rep lower upper greedy body, tb, rg, hwf, h => by
    simp only [canBeEmpty, Bool.or_eq_false_iff, beq_eq_false_iff_ne] at h
    -- a first copy is required
    obtain ⟨k, rfl⟩ := Nat.exists_eq_succ_of_ne_zero h.1
    have hbody : (iteration (Emit.loopSpan t body) (body.fragment t tb rg)).consumes = true :=
      consumes_iteration (consumes_fragment body tb rg hwf.2 h.2)
    simp only [fragment, consumes, copies, hbody, Bool.true_or]
  | seq items, tb, rg, hwf, h =>
    consumes_sequence items tb rg hwf.2 (by simpa [canBeEmpty] using h)
  | alt items, tb, rg, hwf, h => by
    refine consumes_alternatives items tb rg hwf.2 ?_ (by simpa [canBeEmpty] using h)
    rintro rfl
    exact absurd hwf.1 (by simp)

theorem consumes_sequence {groups : Nat} : ∀ (ns : List Node) (tb rg : Nat),
    AllWellFormed groups ns → allCanBeEmpty ns = false → (sequence t ns tb rg).consumes = true
  | n :: ns, tb, rg, hwf, h => by
    simp only [allCanBeEmpty, Bool.and_eq_false_iff] at h
    simp only [sequence, consumes, Bool.or_eq_true]
    exact h.imp (consumes_fragment n tb rg hwf.1) (consumes_sequence ns _ _ hwf.2)

theorem consumes_alternatives {groups : Nat} : ∀ (ns : List Node) (tb rg : Nat),
    AllWellFormed groups ns → ns ≠ [] → anyCanBeEmpty ns = false →
      (alternatives t ns tb rg).consumes = true
  | [], _, _, _, hns, _ => absurd rfl hns
  | n :: ns, tb, rg, hwf, _, h => by
    simp only [anyCanBeEmpty, Bool.or_eq_false_iff] at h
    have hn := consumes_fragment n tb rg hwf.1 h.1
    rw [alternatives]
    split
    · exact hn
    · next hns =>
      simp only [consumes, hn, Bool.true_and]
      exact consumes_alternatives ns _ _ hwf.2 (by simpa using hns) h.2

end

mutual

/-- **The body of every loop in the fragment of a well-formed tree consumes a unit.** -/
theorem guarded_fragment {groups : Nat} : ∀ (n : Node) (tb rg : Nat), n.WellFormed groups →
    (n.fragment t tb rg).Guarded
  | empty, _, _, _ | unit _, _, _, _ | any, _, _, _ | charClass .., _, _, _ | anchor _, _, _, _
  | backRef _, _, _, _ => trivial
  | group _ body, tb, rg, hwf => by
    have hbody := guarded_fragment body tb rg hwf
    rw [fragment]
    split
    · exact ⟨trivial, hbody, trivial⟩
    · exact hbody
  | look _ body, tb, rg, hwf => guarded_fragment body tb rg hwf
  | rep lower upper greedy body, tb, rg, hwf => by
    have honce : ∀ tb rg,
        (iteration (Emit.loopSpan t body) (body.fragment t tb rg)).Guarded :=
      fun tb rg => guarded_iteration (guarded_fragment body tb rg hwf.2)
    refine ⟨guarded_copies honce _ _, ?_⟩
    cases upper with
    | none =>
      exact guarded_unbounded honce
        (fun hc tb rg => consumes_iteration (consumes_fragment body tb rg hwf.2 hc)) _ _
    | some upper => exact guarded_optionals honce _ _
  | seq items, tb, rg, hwf => guarded_sequence items tb rg hwf.2
  | alt items, tb, rg, hwf => guarded_alternatives items tb rg hwf.2

theorem guarded_sequence {groups : Nat} : ∀ (ns : List Node) (tb rg : Nat),
    AllWellFormed groups ns → (sequence t ns tb rg).Guarded
  | [], _, _, _ => trivial
  | n :: ns, tb, rg, hwf => ⟨guarded_fragment n tb rg hwf.1, guarded_sequence ns _ _ hwf.2⟩

theorem guarded_alternatives {groups : Nat} : ∀ (ns : List Node) (tb rg : Nat),
    AllWellFormed groups ns → (alternatives t ns tb rg).Guarded
  | [], _, _, _ => trivial
  | n :: ns, tb, rg, hwf => by
    have hn := guarded_fragment n tb rg hwf.1
    rw [alternatives]
    split
    · exact hn
    · exact ⟨hn, guarded_alternatives ns _ _ hwf.2⟩

end

end Node

end RegexEngine

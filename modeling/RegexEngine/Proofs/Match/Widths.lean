import RegexEngine.Proofs.Match.Straight
import RegexEngine.Proofs.Program.Capacity
import RegexEngine.Proofs.Program.Erasure

/-!
# Texts with the same units

Code is made for one width of texts.  For Latin-1 texts the tables of classes lack their upper part,
and units that no such text has are not even compared.  On texts with the same units the code for
the one width does the same as the code for the other, step by step.

* `SequenceItem.Same` — items that test the same in a text.
* `Sequence.Same.search_eq` — **rows of such items have the same searches.**
* `Machine.SameTest`, `Machine.SameEffect` — instructions that test the same, and that do the same.
* `Machine.Abreast` — machines that make the same steps and the same attempts.
* `Machine.Abreast.search_eq` — **their searches are the same.**
* `Machine.Twin` — machines that go abreast because their texts have the same units.
* `Pattern.step_of_compile` — programs of a pattern whose instructions do the same make the same
  steps.
* `Pattern.twin_of_compile` — **the programs of a pattern for two widths make the same steps.**
-/

namespace RegexEngine

variable {t t' : Text}

theorem Text.findUnit?_congr (hunits : t'.units = t.units) (u start : Nat) :
    t'.findUnit? u start = t.findUnit? u start := by
  simp only [findUnit?_eq, unit?, size, hunits]

/-! ### Items that test the same -/

/-- The two items accept the same units of a text. -/
inductive SequenceItem.Same (t : Text) : SequenceItem → SequenceItem → Prop
  | refl (item : SequenceItem) : Same t item item
  | inTable {table table' : CharTable} {negated folded : Bool}
    (h : ∀ u ∈ t.units, (SequenceItem.inTable table' negated folded).accepts u =
      (SequenceItem.inTable table negated folded).accepts u) :
    Same t (.inTable table negated folded) (.inTable table' negated folded)

/-- The tables of a set for texts of two widths have the same units, as far as both texts can
have them. -/
theorem CharTable.contains_ofIntervals_low {is : List Interval} {narrow narrow' : Bool} {u : Nat}
    (hu : u < lowSize) :
    (ofIntervals is narrow').contains u = (ofIntervals is narrow).contains u := by
  rw [contains, contains, if_pos hu, if_pos hu]
  rfl

/-- No unit of a text is too great for what the code takes for granted.  Both kinds of code take
the same for granted, or the units are those of a Latin-1 text. -/
def Text.Suits (t : Text) (narrow narrow' : Bool) : Prop :=
  narrow' = narrow ∨ ∀ u ∈ t.units, u < CharTable.lowSize

/-- Code that takes a text for narrow only if it is suits it, and so does other code for a text with
the same units. -/
theorem Text.suits_of_narrow {narrow narrow' : Bool} (h : narrow = true → t.width = .latin1)
    (h' : narrow' = true → t'.width = .latin1) (hunits : t'.units = t.units) :
    t.Suits narrow narrow' := by
  by_cases hnarrow : narrow = true
  · refine Or.inr fun u hu => ?_
    have hlt := t.fits u hu
    rwa [h hnarrow] at hlt
  · by_cases hnarrow' : narrow' = true
    · refine Or.inr fun u hu => ?_
      rw [← hunits] at hu
      have hlt := t'.fits u hu
      rwa [h' hnarrow'] at hlt
    · refine Or.inl ?_
      rw [Bool.not_eq_true] at hnarrow hnarrow'
      rw [hnarrow, hnarrow']

/-- The items of a class. -/
theorem SequenceItem.same_inTable {narrow narrow' : Bool} (h : t.Suits narrow narrow')
    (set : List Interval) (negated folded : Bool) :
    SequenceItem.Same t
      (.inTable (if folded then .foldedOfIntervals set else .ofIntervals set narrow) negated folded)
      (.inTable (if folded then .foldedOfIntervals set else .ofIntervals set narrow') negated
        folded) := by
  cases folded with
  | true => exact .refl _
  | false =>
    rcases h with rfl | hlow
    · exact .refl _
    · refine .inTable fun u hu => ?_
      simp only [accepts, Bool.false_eq_true, if_false]
      rw [CharTable.contains_ofIntervals_low (hlow u hu)]

namespace SequenceItem

variable {item item' : SequenceItem}

theorem Same.consumes_eq (h : Same t item item') : item'.consumes = item.consumes := by
  cases h <;> rfl

theorem Same.eq_unit_iff (h : Same t item item') {u : Nat} : item' = .unit u ↔ item = .unit u := by
  cases h with
  | refl => rfl
  | inTable h => simp

/-- Such items lead to the same position in texts with the same units. -/
theorem Same.behind?_eq (h : Same t item item') (hunits : t'.units = t.units) (pos : Nat) :
    item'.behind? t' pos = item.behind? t pos := by
  have hunit : t'.unit? pos = t.unit? pos := by rw [Text.unit?, Text.unit?, hunits]
  by_cases hc : item.consumes = true
  · rw [behind?_of_consumes hc, behind?_of_consumes (h.consumes_eq.trans hc), hunit]
    cases hu : t.unit? pos with
    | none => rfl
    | some u =>
      have hmem : u ∈ t.units := Array.mem_of_getElem? hu
      dsimp only
      cases h with
      | refl => rfl
      | inTable h => rw [h u hmem]
  · cases h with
    | refl =>
      cases item with
      | anchor a => rw [behind?, behind?, Machine.holds_congr hunits]
      | _ => exact absurd rfl hc
    | inTable h => exact absurd rfl hc

end SequenceItem

/-! ### Rows for two widths -/

namespace Sequence

open SequenceItem

section Lowering

variable {folded narrow narrow' : Bool}

mutual

/-- A tree is straight for both widths or for none. -/
theorem same_lowerOnto (hsuits : t.Suits narrow narrow') {sofar sofar' : List SequenceItem}
    (h : List.Forall₂ (Same t) sofar sofar') : ∀ n : Node,
      Option.Rel (List.Forall₂ (Same t)) (lowerOnto folded narrow sofar n)
        (lowerOnto folded narrow' sofar' n)
  | .empty => .some h
  | .unit _ | .any | .anchor _ => .some (.cons (.refl _) h)
  | .charClass set negated => .some (.cons (same_inTable hsuits set negated folded) h)
  | .seq ns => same_lowerAllOnto hsuits h ns
  | .backRef _ | .group .. | .look .. | .rep .. | .alt _ => .none

theorem same_lowerAllOnto (hsuits : t.Suits narrow narrow') {sofar sofar' : List SequenceItem}
    (h : List.Forall₂ (Same t) sofar sofar') : ∀ ns : List Node,
      Option.Rel (List.Forall₂ (Same t)) (lowerAllOnto folded narrow sofar ns)
        (lowerAllOnto folded narrow' sofar' ns)
  | [] => .some h
  | n :: ns => by
    have hn := same_lowerOnto hsuits h n
    rw [lowerAllOnto, lowerAllOnto]
    cases hx : lowerOnto folded narrow sofar n <;> cases hy : lowerOnto folded narrow' sofar' n <;>
      rw [hx, hy] at hn <;> cases hn
    · exact .none
    · next hn => exact same_lowerAllOnto hsuits hn ns

end

end Lowering

/-- Rows that test the same in a text. -/
structure Same (t : Text) (s s' : Sequence) : Prop where
  items : List.Forall₂ (SequenceItem.Same t) s.items s'.items
  anchored : s'.anchored = s.anchored

/-- The rows of a tree for two widths test the same in a text that suits both. -/
theorem same_lower {root : Node} {flags : Flags} {width width' : Width}
    (hsuits : t.Suits (width == .latin1) (width' == .latin1)) :
    Option.Rel (Same t) (lower? root flags width) (lower? root flags width') := by
  have h : Option.Rel (List.Forall₂ (SequenceItem.Same t))
      (lowerOnto flags.ignoreCase (width == .latin1) [] root)
      (lowerOnto flags.ignoreCase (width' == .latin1) [] root) :=
    same_lowerOnto hsuits .nil root
  rw [lower?, lower?]
  cases hx : lowerOnto flags.ignoreCase (width == .latin1) [] root <;>
    cases hy : lowerOnto flags.ignoreCase (width' == .latin1) [] root <;>
      rw [hx, hy] at h <;> cases h
  · exact .none
  · next items items' h =>
    have hreverse := List.rel_reverse h
    refine .some ⟨hreverse, ?_⟩
    -- the condition in front is in both rows or in none
    show (items'.reverse.head? == _) = (items.reverse.head? == _)
    generalize items.reverse = row at hreverse
    generalize items'.reverse = row' at hreverse
    cases hreverse with
    | nil => rfl
    | cons hhead _ =>
      cases hhead with
      | refl => rfl
      | inTable => rfl

variable {items items' : List SequenceItem} {s s' : Sequence}

theorem itemsMatch_congr (h : List.Forall₂ (SequenceItem.Same t) items items')
    (hunits : t'.units = t.units) (pos : Nat) :
    itemsMatch t' pos items' = itemsMatch t pos items := by
  induction h generalizing pos with
  | nil => rfl
  | cons hitem _ ih =>
    rw [itemsMatch_cons, itemsMatch_cons, hitem.behind?_eq hunits]
    simp only [ih]

theorem countP_consumes_congr (h : List.Forall₂ (SequenceItem.Same t) items items') :
    items'.countP consumes = items.countP consumes := by
  induction h with
  | nil => rfl
  | cons hitem _ ih => rw [List.countP_cons, List.countP_cons, hitem.consumes_eq, ih]

theorem find?_consumes_congr (h : List.Forall₂ (SequenceItem.Same t) items items') (u : Nat) :
    items'.find? consumes = some (.unit u) ↔ items.find? consumes = some (.unit u) := by
  induction h with
  | nil => rfl
  | @cons item item' items items' hitem _ ih =>
    by_cases hc : item.consumes = true
    · rw [List.find?_cons_of_pos hc, List.find?_cons_of_pos (hitem.consumes_eq.trans hc),
        Option.some.injEq, Option.some.injEq]
      exact hitem.eq_unit_iff
    · rw [List.find?_cons_of_neg hc, List.find?_cons_of_neg (by rwa [hitem.consumes_eq])]
      exact ih

theorem firstUnit_eq_some {u : Nat} :
    s.firstUnit = some u ↔ s.items.find? consumes = some (.unit u) := by
  rw [firstUnit]
  split
  · next v hv => rw [hv, Option.some.injEq, Option.some.injEq, SequenceItem.unit.injEq]
  · next hv =>
    constructor
    · intro h
      cases h
    · intro h
      exact absurd h (hv u)

theorem Same.matchLength_eq (h : Same t s s') : s'.matchLength = s.matchLength :=
  countP_consumes_congr h.items

theorem Same.firstUnit_eq (h : Same t s s') : s'.firstUnit = s.firstUnit := by
  refine Option.ext fun u => ?_
  rw [firstUnit_eq_some, firstUnit_eq_some]
  exact find?_consumes_congr h.items u

theorem Same.searchFrom_eq (h : Same t s s') (hunits : t'.units = t.units) (interrupted : Bool)
    (last : Nat) (pairs : Array Pair) (room pos : Nat) :
    s'.searchFrom t' interrupted last pairs room pos =
      s.searchFrom t interrupted last pairs room pos := by
  have hcandidate : ∀ pos, s'.candidate? t' pos = s.candidate? t pos := by
    intro pos
    rw [candidate?, candidate?, h.firstUnit_eq]
    simp only [Text.findUnit?_congr hunits]
  induction room generalizing pos with
  | zero => rfl
  | succ room ih =>
    rw [searchFrom, searchFrom, hcandidate]
    cases s.candidate? t pos with
    | none => rfl
    | some q =>
      have hmatches : s'.matchesAt t' q = s.matchesAt t q := itemsMatch_congr h.items hunits q
      dsimp only
      rw [hmatches, h.matchLength_eq, ih]

/-- **Rows that test the same have the same searches in texts with the same units.** -/
theorem Same.search_eq (h : Same t s s') (hunits : t'.units = t.units) (start : Nat)
    (pairs : Array Pair) (interrupted : Bool) :
    s'.search t' start pairs interrupted = s.search t start pairs interrupted := by
  rw [search, search, h.anchored, h.matchLength_eq, Text.size, Text.size, hunits]
  simp only [h.searchFrom_eq hunits]

end Sequence

/-! ### Instructions that test the same -/

/-- An instruction that stores captures does not look at the text. -/
theorem Instr.reads_of_stores {i : Instr} (hi : i.stores = true) : i.reads = false := by
  cases i <;> first | rfl | cases hi

namespace Machine

variable {m m' : Machine} {i j : Instr}

/-- The two instructions do the same, each on its own machine. -/
def SameEffect (m m' : Machine) (i j : Instr) : Prop :=
  ∀ pc pos st, m'.perform j pc pos st = m.perform i pc pos st

/-- The two instructions test the same, each on its own machine, and store nothing. -/
structure SameTest (m m' : Machine) (i j : Instr) : Prop where
  stores : i.stores = false
  performs : ∃ item item', m.Performs i item ∧ m'.Performs j item' ∧
    SequenceItem.Same m.text item item'

theorem SameTest.sameEffect (h : m.SameTest m' i j) (hunits : m'.text.units = m.text.units) :
    m.SameEffect m' i j := by
  intro pc pos st
  obtain ⟨item, item', hi, hj, hsame⟩ := h.performs
  rw [hi, hj, hsame.behind?_eq hunits]

theorem sameTest_any (m m' : Machine) : m.SameTest m' .any .any :=
  ⟨rfl, .any, .any, performs_of_consume rfl (fun _ _ _ => rfl) (fun _ _ _ => rfl),
    performs_of_consume rfl (fun _ _ _ => rfl) (fun _ _ _ => rfl), .refl _⟩

theorem sameTest_anchor (m m' : Machine) (a : Anchor) : m.SameTest m' (.anchor a) (.anchor a) :=
  ⟨rfl, .anchor a, .anchor a, performs_anchor m a, performs_anchor m' a, .refl _⟩

end Machine

/-- Two targets that compare units alike, on machines whose texts have the same units.  A target
takes the text of its machine for narrow only if it is. -/
structure Target.Alike (t t' : Target) (m m' : Machine) : Prop where
  folded : t'.folded = t.folded
  narrow : t.narrow = true → m.text.width = .latin1
  narrow' : t'.narrow = true → m'.text.width = .latin1
  units : m'.text.units = m.text.units

namespace Target.Alike

open Machine

variable {t t' : Target} {m m' : Machine} (h : t.Alike t' m m')
include h

theorem suits : m.text.Suits t.narrow t'.narrow :=
  Text.suits_of_narrow h.narrow h.narrow' h.units

theorem sameTest_unit (u : Nat) :
    m.SameTest m' (Emit.unitInstr t u) (Emit.unitInstr t' u) := by
  refine ⟨Instr.stores_unitInstr t u, _, _, performs_unitInstr h.narrow u,
    performs_unitInstr h.narrow' u, ?_⟩
  rw [h.folded]
  exact .refl _

theorem sameTest_inTable {k k' : Nat} {set : List Interval}
    (hk : m.tables[k]? = some (Emit.classTable t set))
    (hk' : m'.tables[k']? = some (Emit.classTable t' set)) (negated : Bool) :
    m.SameTest m' (.inTable k negated t.folded) (.inTable k' negated t'.folded) := by
  refine ⟨rfl, _, _, performs_inTable hk negated t.folded,
    performs_inTable hk' negated t'.folded, ?_⟩
  rw [Emit.classTable, Emit.classTable, h.folded]
  exact SequenceItem.same_inTable h.suits set negated t.folded

/-- The fragments of a tree for such targets correspond to each other, in any relation that holds
of instructions that test the same. -/
theorem erases {D : Instr → Prop} {R : Instr → Instr → Prop}
    (hR : ∀ i j, m.SameTest m' i j → R i j)
    (hcaptures : (t'.captures = t.captures ∧ ∀ i, i.stores = true → R i i) ∨
      (t'.captures = false ∧ ∀ i, i.stores = true → D i)) :
    t.Erases t' m.tables m'.tables D R where
  captures := hcaptures
  unit u := hR _ _ (h.sameTest_unit u)
  any := hR _ _ (sameTest_any m m')
  anchor a := hR _ _ (sameTest_anchor m m' a)
  inTable hk hk' negated := hR _ _ (h.sameTest_inTable hk hk' negated)

end Target.Alike

/-! ### Machines that make the same steps -/

/-- Fragments of which nothing is omitted have related code, if the instructions that do not look at
the text are related to themselves. -/
theorem Fragment.Erases.forall₂_code {D : Instr → Prop} {R : Instr → Instr → Prop}
    {f g : Fragment} (h : Erases D R f g) (hnone : ∀ i, ¬D i)
    (hR : ∀ i, i.reads = false → R i i) (a : Nat) :
    List.Forall₂ R (f.code a) (g.code a) := by
  have hchoice : ∀ greedy body exit,
      R (Emit.choice greedy body exit) (Emit.choice greedy body exit) := by
    intro greedy body exit
    cases greedy <;> exact hR _ rfl
  induction h generalizing a with
  | nil => exact .nil
  | instr h => exact .cons h .nil
  | front hi h ih | behind hi h ih => exact absurd hi (hnone _)
  | append h h' ih ih' =>
    rw [code, code, h.size_eq hnone]
    exact List.rel_append (ih a) (ih' _)
  | choice h h' ih ih' =>
    rw [code, code, h.size_eq hnone, h'.size_eq hnone]
    exact .cons (hR _ rfl) (List.rel_append (ih _) (.cons (hR _ rfl) (ih' _)))
  | optional greedy h ih =>
    rw [code, code, h.size_eq hnone]
    exact .cons (hchoice ..) (ih _)
  | loop greedy h ih =>
    rw [code, code, h.size_eq hnone]
    exact .cons (hchoice ..) (List.rel_append (ih _) (.cons (hR _ rfl) .nil))
  | advance r h ih =>
    exact .cons (hR _ rfl) (List.rel_append (ih _) (.cons (hR _ rfl) .nil))
  | look negated h ih =>
    rw [code, code, h.size_eq hnone]
    exact .cons (hR _ rfl) (List.rel_append (ih _) (.cons (hR _ rfl) .nil))

namespace Machine

variable {m m' : Machine}

/-- Where the instructions do the same one by one, so do the steps. -/
theorem step_congr
    (h : List.Forall₂ (m.SameEffect m') m.program.code.toList m'.program.code.toList)
    (pc pos : Nat) (st : State) :
    m'.step pc pos st = m.step pc pos st := by
  rw [step, step, ← Array.getElem?_toList, ← Array.getElem?_toList]
  have hlength := h.length_eq
  by_cases hpc : pc < m.program.code.toList.length
  · have hpc' : pc < m'.program.code.toList.length := by omega
    rw [List.getElem?_eq_getElem hpc, List.getElem?_eq_getElem hpc']
    exact h.get hpc hpc' pc pos st
  · rw [List.getElem?_eq_none (show m.program.code.toList.length ≤ pc by omega),
      List.getElem?_eq_none (by omega)]

theorem candidate?_congr (hfirst : m'.program.firstUnit = m.program.firstUnit)
    (hunits : m'.text.units = m.text.units) (pos : Nat) : m'.candidate? pos = m.candidate? pos := by
  rw [candidate?, candidate?, hfirst, Text.size, Text.size, hunits]
  simp only [Text.findUnit?_congr hunits]

/-- Two machines in lockstep that a search cannot tell apart: their attempts begin alike, and at the
same positions. -/
structure Abreast (m m' : Machine) : Prop extends Lockstep m m' where
  groups : m'.program.groups = m.program.groups
  registers : m'.program.registers = m.program.registers
  anchored : m'.program.anchored = m.program.anchored
  steps : m'.limits.steps = m.limits.steps
  size : m'.text.size = m.text.size
  candidate? : ∀ pos, m'.candidate? pos = m.candidate? pos

theorem Abreast.attempt_eq (h : m.Abreast m') (pos failures : Nat) :
    m'.attempt pos failures = m.attempt pos failures := by
  have hstart : m'.start pos failures = m.start pos failures := by
    rw [start, start, Program.slots, Program.slots, h.groups, h.registers]
  rw [attempt, attempt, h.steps, hstart, run_lockstep h.toLockstep]

theorem Abreast.searchFrom_eq (h : m.Abreast m') (last : Nat) (pairs : Array Pair)
    (room pos failures : Nat) :
    m'.searchFrom last pairs room pos failures = m.searchFrom last pairs room pos failures := by
  induction room generalizing pos failures with
  | zero => rfl
  | succ room ih =>
    rw [searchFrom, searchFrom, h.candidate?]
    rcases m.candidate? pos with s | _ | q
    · rfl
    · rfl
    · dsimp only
      rw [h.interrupted, h.attempt_eq]
      cases m.attempt q failures with
      | failed st => simp only [ih]
      | _ => rfl

/-- **Machines that go abreast have the same searches.** -/
theorem Abreast.search_eq (h : m.Abreast m') (start : Nat) (pairs : Array Pair) :
    m'.search start pairs = m.search start pairs := by
  rw [search, search, h.anchored, h.size]
  simp only [h.searchFrom_eq]

/-- Two machines in lockstep whose programs agree on everything else that a search looks at. -/
structure Twin (m m' : Machine) : Prop extends Lockstep m m' where
  groups : m'.program.groups = m.program.groups
  registers : m'.program.registers = m.program.registers
  anchored : m'.program.anchored = m.program.anchored
  firstUnit : m'.program.firstUnit = m.program.firstUnit
  steps : m'.limits.steps = m.limits.steps
  units : m'.text.units = m.text.units

theorem Twin.abreast (h : m.Twin m') : m.Abreast m' where
  toLockstep := h.toLockstep
  groups := h.groups
  registers := h.registers
  anchored := h.anchored
  steps := h.steps
  size := congrArg Array.size h.units
  candidate? := candidate?_congr h.firstUnit h.units

end Machine

namespace Pattern

variable {p : Pattern} {mode mode' : Mode} {width width' : Width} {flags : Flags}
  {tables₀ tables tables₀' tables' later later' : Array CharTable} {cap cap' : Nat}
  {prog prog' : Program} {m m' : Machine}

/-- The targets of a pattern for two widths compare units alike in texts with the same units. -/
theorem alike_target (hwidth : m.text.width = width) (hwidth' : m'.text.width = width')
    (hunits : m'.text.units = m.text.units) :
    (p.target mode width flags cap).Alike (p.target mode' width' flags cap') m m' where
  folded := rfl
  narrow hn := hwidth.trans (beq_iff_eq.1 hn)
  narrow' hn := hwidth'.trans (beq_iff_eq.1 hn)
  units := hunits

/-- **Two programs of a pattern make the same steps** if what they do for its units, classes and
groups is the same, and so is what they do without a look at the text. -/
theorem step_of_compile (h : p.compile mode width flags tables₀ cap = (.ok prog, tables))
    (h' : p.compile mode' width' flags tables₀' cap' = (.ok prog', tables'))
    (hprog : m.program = prog) (htables : m.tables = tables ++ later)
    (hprog' : m'.program = prog') (htables' : m'.tables = tables' ++ later')
    (herases : (p.target mode width flags cap).Erases (p.target mode' width' flags cap') m.tables
      m'.tables (fun _ => False) (m.SameEffect m'))
    (hback : ∀ g, m.SameEffect m' (.backRef g flags.ignoreCase) (.backRef g flags.ignoreCase))
    (hroutes : ∀ i : Instr, i.reads = false → m.SameEffect m' i i) (pc pos : Nat)
    (st : Machine.State) : m'.step pc pos st = m.step pc pos st := by
  obtain ⟨heq, -⟩ := eq_of_compile h
  obtain ⟨heq', -⟩ := eq_of_compile h'
  have hhas := hasTables_of_compile h later
  have hhas' := hasTables_of_compile h' later'
  rw [← htables] at hhas
  rw [← htables'] at hhas'
  have hfragment := Node.erases_fragment herases p.root _ _ 0 (fun _ => hback) hhas hhas'
  refine Machine.step_congr ?_ pc pos st
  rw [hprog, hprog', heq, heq']
  exact List.rel_append (hfragment.forall₂_code (fun _ => id) hroutes 0)
    (.cons (hroutes _ rfl) .nil)

/-- **Two programs of a pattern that store the same captures make the same steps** in texts with the
same units, each with its own tables. -/
theorem twin_of_compile (h : p.compile mode width flags tables₀ cap = (.ok prog, tables))
    (h' : p.compile mode' width' flags tables₀' cap' = (.ok prog', tables'))
    (hcaptures : (p.target mode' width' flags cap').captures =
      (p.target mode width flags cap).captures)
    (hprog : m.program = prog) (htables : m.tables = tables ++ later)
    (hprog' : m'.program = prog') (htables' : m'.tables = tables' ++ later')
    (hwidth : m.text.width = width) (hwidth' : m'.text.width = width')
    (hunits : m'.text.units = m.text.units) (hlimits : m'.limits = m.limits)
    (hi : m'.interrupted = m.interrupted) : m.Twin m' := by
  obtain ⟨heq, -⟩ := eq_of_compile h
  obtain ⟨heq', -⟩ := eq_of_compile h'
  have hroutes : ∀ i : Instr, i.reads = false → m.SameEffect m' i i := fun i hi =>
    Machine.perform_congr_of_reads hi (by rw [hlimits])
  have hback : ∀ g folded, m.SameEffect m' (.backRef g folded) (.backRef g folded) :=
    fun g folded => Machine.perform_congr (by rw [hlimits]) hunits fun _ _ _ h => by cases h
  have herases : (p.target mode width flags cap).Erases (p.target mode' width' flags cap') m.tables
      m'.tables (fun _ => False) (m.SameEffect m') :=
    (alike_target hwidth hwidth' hunits).erases (fun i j hij => hij.sameEffect hunits)
      (Or.inl ⟨hcaptures, fun i hi => hroutes i (Instr.reads_of_stores hi)⟩)
  have hstep := step_of_compile h h' hprog htables hprog' htables' herases (fun g => hback g _)
    hroutes
  refine { groups := ?_, registers := ?_, anchored := ?_, firstUnit := ?_,
           steps := congrArg Limits.steps hlimits, units := hunits,
           step := hstep, backtrack := congrArg Limits.backtrack hlimits,
           checkInterval := congrArg Limits.checkInterval hlimits, interrupted := hi }
  all_goals rw [hprog, hprog', heq, heq']

end Pattern

end RegexEngine

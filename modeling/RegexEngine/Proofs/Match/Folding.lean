import RegexEngine.Proofs.CodeUnit.Fold
import RegexEngine.Proofs.Match.Widths

/-!
# Texts that are equal up to case

Where case does not count, code looks at a unit through its canonical form, and at most asks whether
it ends a line or belongs to a word, which the canonical form tells as well.  So code for a pattern
makes the same steps in two texts whose units are pairwise equal up to case, be they of one width or
not.

* `Text.SameForms` — texts whose units are pairwise equal up to case.
* `Pattern.abreast_of_forms` — **the programs of a pattern go abreast in such texts.**
* `SequenceItem.Folds` — items that look at canonical forms only.
* `Sequence.search_of_forms` — **the rows of a pattern have the same searches in such texts.**
-/

namespace RegexEngine

/-- Two texts of one size whose units are pairwise equal up to case. -/
structure Text.SameForms (t t' : Text) : Prop where
  size : t'.size = t.size
  forms : ∀ i, (t'.unit? i).map canonicalize = (t.unit? i).map canonicalize

namespace Text

variable {t t' : Text}

/-- At every offset both texts end, or they have units that are equal up to case. -/
theorem SameForms.cases (h : t.SameForms t') (i : Nat) :
    (t.unit? i = none ∧ t'.unit? i = none) ∨ ∃ u v, t.unit? i = some u ∧ t'.unit? i = some v ∧
      canonicalize v = canonicalize u := by
  have hforms := h.forms i
  cases hu : t.unit? i with
  | none =>
    rw [hu] at hforms
    exact Or.inl ⟨rfl, Option.map_eq_none_iff.1 hforms⟩
  | some u =>
    rw [hu] at hforms
    obtain ⟨v, hv, hsame⟩ := Option.map_eq_some_iff.1 hforms
    exact Or.inr ⟨u, v, rfl, hv, hsame⟩

/-- A class that canonical forms tell is told alike. -/
theorem SameForms.any_eq (h : t.SameForms t') {p : Nat → Bool}
    (hp : ∀ {u v}, canonicalize v = canonicalize u → p v = p u) (i : Nat) :
    (t'.unit? i).any p = (t.unit? i).any p := by
  rcases h.cases i with ⟨hu, hv⟩ | ⟨u, v, hu, hv, hsame⟩
  · rw [hu, hv]
  · rw [hu, hv]
    exact hp hsame

/-- **Conditions on positions do not tell such texts apart.** -/
theorem SameForms.holds_eq (h : t.SameForms t') (a : Anchor) (pos : Nat) :
    a.holds t' pos = a.holds t pos := by
  have hword : ∀ i, t'.wordAt i = t.wordAt i := h.any_eq CodeUnit.isWord_congr
  have hline : ∀ i, t'.lineEndAt i = t.lineEndAt i := h.any_eq CodeUnit.isLineTerminator_congr
  simp only [Anchor.holds, wordBefore, h.size, hword, hline]

theorem unit?_drop (t : Text) (start i : Nat) : (t.drop start).unit? i = t.unit? (start + i) := by
  rw [unit?, unit?, drop, Array.getElem?_extract, Nat.min_self]
  split
  · rfl
  · rw [Array.getElem?_eq_none (by omega)]

theorem SameForms.drop (h : t.SameForms t') (start : Nat) :
    (t.drop start).SameForms (t'.drop start) where
  size := by rw [size_drop, size_drop, h.size]
  forms i := by rw [unit?_drop, unit?_drop, h.forms]

end Text

/-! ### Instructions -/

namespace Machine

variable {m m' : Machine} {pc pos : Nat} {st : State}

/-- **Comparing units by canonical form does not tell such texts apart.** -/
theorem sameUnits_of_forms {t t' : Text} (h : t.SameForms t') (n i j : Nat) :
    sameUnits t' true n i j = sameUnits t true n i j := by
  induction n generalizing i j with
  | zero => rfl
  | succ n ih =>
    rw [sameUnits, sameUnits]
    rcases h.cases i with ⟨hu, hv⟩ | ⟨u, v, hu, hv, hsame⟩
    · rw [hu, hv]
    · rcases h.cases j with ⟨hu', hv'⟩ | ⟨u', v', hu', hv', hsame'⟩
      · rw [hu, hv, hu', hv']
      · have hunit : sameUnit true v v' = sameUnit true u u' := by
          rw [Bool.eq_iff_iff, Thread.sameUnit_iff, Thread.sameUnit_iff]
          simp only [compareAs, if_true, hsame, hsame']
        rw [hu, hv, hu', hv']
        simp only [hunit, ih]

section Forms

variable (h : m.text.SameForms m'.text)
include h

/-- Tests that canonical forms decide lead to the same effect. -/
theorem consume_of_forms {test : Nat → Bool}
    (htest : ∀ {u v}, canonicalize v = canonicalize u → test v = test u) :
    m'.consume test pc pos st = m.consume test pc pos st := by
  rw [consume, consume]
  rcases h.cases pos with ⟨hu, hv⟩ | ⟨u, v, hu, hv, hsame⟩
  · rw [hu, hv]
  · rw [hu, hv]
    simp only [htest hsame]

theorem consumeInTable_of_forms {k k' : Nat} (htable : m'.tables[k']? = m.tables[k]?)
    (negated : Bool) :
    m'.consumeInTable k' negated true pc pos st = m.consumeInTable k negated true pc pos st := by
  rw [consumeInTable, consumeInTable, htable]
  rcases h.cases pos with ⟨hu, hv⟩ | ⟨u, v, hu, hv, hsame⟩
  · rw [hu, hv]
  · rw [hu, hv]
    simp only [if_true, CharTable.containsFolded, hsame]

theorem consumeGroup_of_forms (group : Nat) :
    m'.consumeGroup group true pc pos st = m.consumeGroup group true pc pos st := by
  simp only [consumeGroup, h.size, sameUnits_of_forms h]

end Forms

end Machine

/-! ### Programs -/

/-- Where case does not count, what is done for units and classes is the same in such texts. -/
theorem Target.erases_of_forms {t t' : Target} {m m' : Machine} (hfolded : t.folded = true)
    (hfolded' : t'.folded = true) (hcaptures : t'.captures = t.captures)
    (hforms : m.text.SameForms m'.text)
    (hroutes : ∀ i : Instr, i.reads = false → m.SameEffect m' i i) :
    t.Erases t' m.tables m'.tables (fun _ => False) (m.SameEffect m') := by
  constructor
  · exact Or.inl ⟨hcaptures, fun i hi => hroutes i (Instr.reads_of_stores hi)⟩
  · intro u pc pos st
    rw [Emit.unitInstr, Emit.unitInstr, if_pos hfolded, if_pos hfolded']
    exact Machine.consume_of_forms hforms fun hsame => by rw [hsame]
  · intro pc pos st
    exact Machine.consume_of_forms hforms fun hsame => by
      rw [CodeUnit.isLineTerminator_congr hsame]
  · intro a pc pos st
    rw [Machine.perform, Machine.perform, hforms.holds_eq]
  · intro k k' set hk hk' negated pc pos st
    have hset : m'.tables[k']? = m.tables[k]? := by
      rw [hk, hk', Emit.classTable, Emit.classTable, if_pos hfolded, if_pos hfolded']
    rw [hfolded, hfolded']
    exact Machine.consumeInTable_of_forms hforms hset negated

namespace Pattern

variable {p : Pattern} {mode : Mode} {width width' : Width} {flags : Flags}
  {tables₀ tables tables₀' tables' later later' : Array CharTable} {cap cap' : Nat}
  {prog prog' : Program} {m m' : Machine}

/-- Where case does not count, no unit is known with which every match would begin. -/
theorem firstUnit_of_compile (hcase : flags.ignoreCase = true)
    (h : p.compile mode width flags tables₀ cap = (.ok prog, tables)) : prog.firstUnit = none := by
  obtain ⟨heq, -⟩ := eq_of_compile h
  rw [heq]
  exact if_pos hcase

/-- **The programs of a pattern for which case does not count go abreast** in texts whose units are
pairwise equal up to case. -/
theorem abreast_of_forms (hcase : flags.ignoreCase = true)
    (h : p.compile mode width flags tables₀ cap = (.ok prog, tables))
    (h' : p.compile mode width' flags tables₀' cap' = (.ok prog', tables'))
    (hprog : m.program = prog) (htables : m.tables = tables ++ later)
    (hprog' : m'.program = prog') (htables' : m'.tables = tables' ++ later')
    (hforms : m.text.SameForms m'.text) (hlimits : m'.limits = m.limits)
    (hi : m'.interrupted = m.interrupted) : m.Abreast m' := by
  obtain ⟨heq, -⟩ := eq_of_compile h
  obtain ⟨heq', -⟩ := eq_of_compile h'
  have hroutes : ∀ i : Instr, i.reads = false → m.SameEffect m' i i := fun i hi =>
    Machine.perform_congr_of_reads hi (by rw [hlimits])
  have hback : ∀ g,
      m.SameEffect m' (.backRef g flags.ignoreCase) (.backRef g flags.ignoreCase) := by
    intro g pc pos st
    rw [hcase]
    exact Machine.consumeGroup_of_forms hforms g
  have herases : (p.target mode width flags cap).Erases (p.target mode width' flags cap') m.tables
      m'.tables (fun _ => False) (m.SameEffect m') :=
    Target.erases_of_forms hcase hcase rfl hforms hroutes
  have hstep := step_of_compile h h' hprog htables hprog' htables' herases hback hroutes
  have hcandidate : ∀ pos, m'.candidate? pos = m.candidate? pos := by
    intro pos
    rw [Machine.candidate?, Machine.candidate?, hprog, hprog', firstUnit_of_compile hcase h,
      firstUnit_of_compile hcase h']
  refine { groups := ?_, registers := ?_, anchored := ?_, size := hforms.size,
           steps := congrArg Limits.steps hlimits, candidate? := hcandidate,
           step := hstep, backtrack := congrArg Limits.backtrack hlimits,
           checkInterval := congrArg Limits.checkInterval hlimits, interrupted := hi }
  all_goals rw [hprog, hprog', heq, heq']

end Pattern

/-! ### Rows of tests -/

/-- The item looks at a unit through its canonical form, or asks whether it ends a line. -/
def SequenceItem.Folds : SequenceItem → Prop
  | unit _ => False
  | inTable _ _ upToCase => upToCase = true
  | folded _ | any | anchor _ => True

namespace Sequence

open SequenceItem

variable {t t' : Text} {s : Sequence} {item : SequenceItem} {items : List SequenceItem}

theorem accepts_of_forms (hitem : item.Folds) {u v : Nat} (h : canonicalize v = canonicalize u) :
    item.accepts v = item.accepts u := by
  cases item with
  | unit c => exact hitem.elim
  | folded c => rw [accepts, accepts, h]
  | any => rw [accepts, accepts, CodeUnit.isLineTerminator_congr h]
  | inTable table negated upToCase =>
    cases (show upToCase = true from hitem)
    simp only [accepts, if_true, CharTable.containsFolded, h]
  | anchor a => rfl

theorem behind?_of_forms (h : t.SameForms t') (hitem : item.Folds) (pos : Nat) :
    item.behind? t' pos = item.behind? t pos := by
  by_cases hc : item.consumes = true
  · rw [behind?_of_consumes hc, behind?_of_consumes hc]
    rcases h.cases pos with ⟨hu, hv⟩ | ⟨u, v, hu, hv, hsame⟩
    · rw [hu, hv]
    · rw [hu, hv]
      simp only [accepts_of_forms hitem hsame]
  · cases item with
    | anchor a => rw [behind?, behind?, h.holds_eq]
    | _ => exact absurd rfl hc

theorem itemsMatch_of_forms (h : t.SameForms t') (hitems : ∀ item ∈ items, item.Folds) (pos : Nat) :
    itemsMatch t' pos items = itemsMatch t pos items := by
  induction items generalizing pos with
  | nil => rfl
  | cons item items ih =>
    rw [itemsMatch_cons, itemsMatch_cons, behind?_of_forms h (hitems item List.mem_cons_self)]
    simp only [ih fun item hitem => hitems item (List.mem_cons_of_mem _ hitem)]

/-- No unit is known with which every match of such a row would begin. -/
theorem firstUnit_of_folds (hitems : ∀ item ∈ s.items, item.Folds) : s.firstUnit = none := by
  cases hfirst : s.firstUnit with
  | none => rfl
  | some u => exact (hitems _ (List.mem_of_find?_eq_some (firstUnit_eq_some.1 hfirst))).elim

/-- **Rows that look at canonical forms only have the same searches** in texts whose units are
pairwise equal up to case. -/
theorem search_of_forms (h : t.SameForms t') (hitems : ∀ item ∈ s.items, item.Folds) (start : Nat)
    (pairs : Array Pair) (interrupted : Bool) :
    s.search t' start pairs interrupted = s.search t start pairs interrupted := by
  have hfrom : ∀ last room pos, s.searchFrom t' interrupted last pairs room pos =
      s.searchFrom t interrupted last pairs room pos := by
    intro last room
    induction room with
    | zero => exact fun _ => rfl
    | succ room ih =>
      intro pos
      have hmatches : ∀ q, s.matchesAt t' q = s.matchesAt t q :=
        itemsMatch_of_forms h hitems
      simp only [searchFrom, candidate?, firstUnit_of_folds hitems, hmatches, ih]
  rw [search, search, h.size]
  simp only [hfrom]

mutual

/-- Where case does not count, a tree has the same row for texts of both widths, and its items look
at canonical forms only. -/
theorem folds_lowerOnto (narrow narrow' : Bool) {sofar : List SequenceItem}
    (hsofar : ∀ item ∈ sofar, item.Folds) : ∀ n : Node,
      lowerOnto true narrow' sofar n = lowerOnto true narrow sofar n ∧
        ∀ row, lowerOnto true narrow sofar n = some row → ∀ item ∈ row, item.Folds
  | .empty => ⟨rfl, fun row h => Option.some.inj h ▸ hsofar⟩
  | .unit u => ⟨rfl, fun row h => Option.some.inj h ▸ List.forall_mem_cons.2 ⟨trivial, hsofar⟩⟩
  | .any => ⟨rfl, fun row h => Option.some.inj h ▸ List.forall_mem_cons.2 ⟨trivial, hsofar⟩⟩
  | .charClass set negated =>
    ⟨rfl, fun row h => Option.some.inj h ▸ List.forall_mem_cons.2 ⟨rfl, hsofar⟩⟩
  | .anchor a => ⟨rfl, fun row h => Option.some.inj h ▸ List.forall_mem_cons.2 ⟨trivial, hsofar⟩⟩
  | .seq ns => folds_lowerAllOnto narrow narrow' hsofar ns
  | .backRef _ | .group .. | .look .. | .rep .. | .alt _ => ⟨rfl, fun row h => by cases h⟩

theorem folds_lowerAllOnto (narrow narrow' : Bool) {sofar : List SequenceItem}
    (hsofar : ∀ item ∈ sofar, item.Folds) : ∀ ns : List Node,
      lowerAllOnto true narrow' sofar ns = lowerAllOnto true narrow sofar ns ∧
        ∀ row, lowerAllOnto true narrow sofar ns = some row → ∀ item ∈ row, item.Folds
  | [] => ⟨rfl, fun row h => Option.some.inj h ▸ hsofar⟩
  | n :: ns => by
    obtain ⟨hsame, hfolds⟩ := folds_lowerOnto narrow narrow' hsofar n
    rw [lowerAllOnto, lowerAllOnto, hsame]
    cases hn : lowerOnto true narrow sofar n with
    | none => exact ⟨rfl, fun row h => by cases h⟩
    | some front => exact folds_lowerAllOnto narrow narrow' (hfolds front hn) ns

end

/-- The row of a tree where case does not count. -/
theorem folds_lower (root : Node) {flags : Flags} (hcase : flags.ignoreCase = true)
    (width width' : Width) :
    lower? root flags width' = lower? root flags width ∧
      ∀ s, lower? root flags width = some s → ∀ item ∈ s.items, item.Folds := by
  have hnil : ∀ item ∈ ([] : List SequenceItem), item.Folds := by simp
  obtain ⟨hsame, hfolds⟩ := folds_lowerOnto (width == .latin1) (width' == .latin1) hnil root
  rw [lower?, lower?, hcase, hsame]
  refine ⟨rfl, fun s h => ?_⟩
  split at h
  · cases h
  · next reversed hreversed =>
    obtain rfl := Option.some.inj h
    exact fun item hitem => hfolds reversed hreversed item (List.mem_reverse.1 hitem)

end Sequence

end RegexEngine

import RegexEngine.Proofs.Engine.Executions
import RegexEngine.Proofs.Pattern.Plain

/-!
# Two ways to search for a literal

A source without special characters can be searched for as it is, or matched by the row of tests
that its tree is lowered to.  Both find the first place at which all its units stand in a row: an
empty source at the start of the search, and one with a unit that the text cannot have nowhere.

* `Sequence.ofUnits` — the row of some units.
* `Sequence.lower_ofUnits` — plain patterns are lowered to such rows.
* `Sequence.search_ofUnits` — **the row of some units finds their first occurrence.**
* `Record.execute_literal` — **executions that search for a literal and those that run its row
  agree.**
-/

namespace RegexEngine

/-! ### Rows of units -/

namespace Sequence

open SequenceItem

variable {t : Text} {us : List Nat} {pos start : Nat} {flags : Flags} {width : Width}
  {pairs : Array Pair}

/-- The row of tests for some units. -/
def ofUnits (us : List Nat) : Sequence where
  items := us.map .unit
  anchored := false

theorem lowerAllOnto_units (narrow : Bool) (us : List Nat) (sofar : List SequenceItem) :
    lowerAllOnto false narrow sofar (us.map .unit) =
      some ((us.map SequenceItem.unit).reverse ++ sofar) := by
  induction us generalizing sofar with
  | nil => rfl
  | cons u us ih =>
    rw [List.map_cons, lowerAllOnto]
    show lowerAllOnto false narrow (.unit u :: sofar) (us.map .unit) = _
    rw [ih, List.map_cons, List.reverse_cons, List.append_assoc]
    rfl

/-- The tree of some units is lowered to their row, where case counts. -/
theorem lower_ofUnits (hcase : flags.ignoreCase = false) (us : List Nat) (width : Width) :
    lower? (.ofUnits us) flags width = some (ofUnits us) := by
  have hitems : lowerOnto flags.ignoreCase (width == .latin1) [] (.ofUnits us) =
      some (us.map SequenceItem.unit).reverse := by
    rw [hcase]
    match us with
    | [] => rfl
    | [u] => rfl
    | u :: v :: us =>
      rw [← List.append_nil (List.reverse _)]
      exact lowerAllOnto_units (width == .latin1) (u :: v :: us) []
  rw [lower?, hitems]
  dsimp only
  rw [List.reverse_reverse, ofUnits]
  -- a unit in front is no condition
  cases us <;> rfl

theorem matchLength_ofUnits (us : List Nat) : (ofUnits us).matchLength = us.length := by
  show (us.map SequenceItem.unit).countP consumes = us.length
  induction us with
  | nil => rfl
  | cons u us ih =>
    rw [List.map_cons, List.countP_cons, ih]
    rfl

theorem itemsMatch_units :
    itemsMatch t pos (us.map .unit) = true ↔
      ∀ j, j < us.length → t.unit? (pos + j) = us[j]? := by
  induction us generalizing pos with
  | nil =>
    constructor
    · intro _ j hj
      exact absurd hj (Nat.not_lt_zero j)
    · intro _
      rfl
  | cons u us ih =>
    rw [List.map_cons, itemsMatch_cons_eq_true, behind?_of_consumes rfl]
    constructor
    · rintro ⟨q, hq, hrest⟩ j hj
      cases hunit : t.unit? pos with
      | none =>
        rw [hunit] at hq
        cases hq
      | some v =>
        rw [hunit] at hq
        obtain ⟨haccepts, hnext⟩ := Option.ite_none_right_eq_some.1 hq
        obtain rfl := Option.some.inj hnext
        cases j with
        | zero =>
          rw [Nat.add_zero, hunit, beq_iff_eq.1 haccepts]
          rfl
        | succ j =>
          have hj' := ih.1 hrest j (Nat.lt_of_succ_lt_succ hj)
          rw [Nat.add_right_comm] at hj'
          exact hj'
    · intro h
      have hfirst : t.unit? pos = some u := h 0 (Nat.succ_pos _)
      refine ⟨pos + 1, ?_, ih.2 fun j hj => ?_⟩
      · rw [hfirst]
        exact if_pos (beq_self_eq_true u)
      · have hj' := h (j + 1) (Nat.succ_lt_succ hj)
        rw [Nat.add_right_comm]
        exact hj'

/-- The row of some units matches where they stand in the text. -/
theorem matchesAt_ofUnits (t : Text) (us : List Nat) (pos : Nat) :
    (ofUnits us).matchesAt t pos = t.hasAt us.toArray pos := by
  rw [Bool.eq_iff_iff, Text.hasAt_iff, List.size_toArray]
  simp only [List.getElem?_toArray]
  exact itemsMatch_units

/-- **The row of some units finds their first occurrence.** -/
theorem search_ofUnits (t : Text) (us : List Nat) (start : Nat)
    (hnone : ∀ q ∈ pairs, q = .undefined) :
    (ofUnits us).search t start pairs false =
      match t.find? us.toArray start with
      | none => .noMatch
      | some found => .matched (pairs.setIfInBounds 0 (.span found (found + us.length))) := by
  cases hfind : t.find? us.toArray start with
  | none =>
    refine search_of_noMatch fun q hq hle => ?_
    rw [matchesAt_ofUnits]
    rw [Text.find?, if_neg (Nat.not_lt.2 (Nat.le_trans hq hle))] at hfind
    exact Text.firstFrom_none hfind q hq (by omega)
  | some found =>
    obtain ⟨hstart, hend⟩ := Text.find?_bounds hfind
    have hfound : t.hasAt us.toArray found = true ∧
        ∀ q, start ≤ q → q < found → t.hasAt us.toArray q = false := by
      rw [Text.find?] at hfind
      split at hfind
      · cases hfind
      · exact (Text.firstFrom_some hfind).2
    have hsearch : (ofUnits us).search t start pairs false = .matched _ :=
      search_of_matches (fun ha => absurd ha Bool.false_ne_true)
        ((matchesAt_ofUnits t us found).trans hfound.1) hstart
        (Nat.le_trans (Nat.le_add_right _ _) hend)
        fun q hq hlt => (matchesAt_ofUnits t us q).trans (hfound.2 q hq hlt)
    -- the pairs are undefined already
    have hpairs : (pairs.map fun _ => Pair.undefined) = pairs := by
      refine Array.ext (by simp) fun k hk hk' => ?_
      rw [Array.getElem_map]
      exact (hnone _ (Array.getElem_mem hk')).symm
    rw [hsearch, matchLength_ofUnits, writeWhole, hpairs]

end Sequence

/-- The row of the units of a source. -/
def Sequence.ofSource (source : String) : Sequence :=
  .ofUnits (source.toList.flatMap CodeUnit.ofChar)

/-- **The search for a literal and the search with its row have the same answer.** -/
theorem Sequence.search_ofSource {pairs : Array Pair} (hnone : ∀ q ∈ pairs, q = .undefined)
    (source : String) (t : Text) (start : Nat) :
    (ofSource source).search t start pairs false =
      (Literal.ofSource source).search t start pairs := by
  rw [ofSource, search_ofUnits t _ start hnone, Literal.search, Literal.find?_ofSource]
  rfl

/-! ### Records -/

namespace Record

variable {o : Options} {r : Record} {mode : Mode} {width : Width} {c : Code} {limits : Limits}
  {tables : Array CharTable} {t : Text} {start : Nat} {pairs : Array Pair} {i : Interrupts}
  {source : String}

/-- A record with a row of tests instead of what it holds for a mode and a width. -/
def withRow (r : Record) (s : Sequence) (mode : Mode) (width : Width) : Record :=
  { r with literal := none, slots := r.slots.set mode width (.sequence s) }

/-- A record that searches for a literal finds what it would find with the row of the literal. -/
theorem search_withRow (hliteral : r.literal = some (.ofSource source)) (hi : i.requested = false)
    (hnone : ∀ q ∈ pairs, q = .undefined) :
    ((r.withRow (.ofSource source) mode t.width).search mode limits i t start pairs).1 =
      (r.search mode limits i t start pairs).1 := by
  have hrow := Sequence.search_ofSource hnone source t start
  have hanswer : (Sequence.ofSource source).search t start pairs false ≠ .interrupted := by
    rw [hrow, Literal.search]
    split <;> simp
  rw [search_of_literal hliteral, search_of_slot rfl (CodeSlots.get_set_self ..), ← hrow]
  exact searchCode_of_answer (c := .sequence (.ofSource source)) hi hanswer _

/-- Once it is compiled, a record without special characters searches for its source. -/
theorem Sound.literal_of_isCompiled (h : r.Sound o) (heligible : r.literalEligible = true)
    (hcompiled : r.isCompiled mode width = true) :
    r.literal = some (.ofSource r.source) := by
  rcases h.cases hcompiled with ⟨-, hliteral, -⟩ | ⟨hnot, -⟩
  · exact hliteral
  · rw [heligible] at hnot
    cases hnot

/-- **The search for a literal is as good as the general one.**  A source without special characters
is a pattern without groups, under all flags.  Where case counts and a match may begin anywhere, its
tree is lowered to a row of tests for texts of each width.  The search with this row and the search
for the literal have the same answer, with the same pair; and an execution ends as it would if the
record held the row instead of the literal. -/
theorem execute_literal (hr : r.Reached o) (hplain : hasSpecial r.source = false)
    (hcase : r.flags.ignoreCase = false) (hsticky : r.flags.sticky = false)
    (hi : i.requested = false) (limits : Limits) (t : Text) (start : Nat)
    (buffer : Option Buffer) :
    ∃ p s, parse r.source r.flags = .ok p ∧ p.groups = 0 ∧
      Sequence.lower? p.root r.flags t.width = some s ∧
      (∀ pairs : Array Pair, (∀ q ∈ pairs, q = .undefined) →
        s.search t start pairs false = (Literal.ofSource r.source).search t start pairs) ∧
      let e := r.execute o.generator limits i t start buffer
      let e' := (e.record.withRow s (modeFor buffer) t.width).execute o.generator limits i t start
        buffer
      e.record.literal = some (.ofSource r.source) ∧ e'.result = e.result ∧
        e'.buffer = e.buffer := by
  have heligible : r.literalEligible = true := literalEligible_iff.2 ⟨hcase, hsticky, hplain⟩
  refine ⟨_, .ofSource r.source, parse_of_plain hplain r.flags, rfl,
    Sequence.lower_ofUnits hcase _ t.width, fun pairs hnone => ?_, ?_⟩
  · exact Sequence.search_ofSource hnone r.source t start
  · intro e e'
    have hcompiles := hr.sound.compiles_ifNecessary (modeFor buffer) t.width
    -- nothing can go wrong when such a record is compiled
    have hanswer : r.answer o (modeFor buffer) t.width = .ok () := if_pos heligible
    have he : e = _ := execute_eq r o.generator
    rcases hx : r.compileIfNecessary (modeFor buffer) t.width o.generator with ⟨a, r₁⟩
    rw [hx] at hcompiles he
    obtain rfl : a = .ok () := hcompiles.answer.trans hanswer
    have hsource : r₁.source = r.source := hcompiles.source
    have hflags : r₁.flags = r.flags := hcompiles.flags
    have hrecord : e.record = r₁ := by
      rw [he]
      exact hcompiles.sound.executeCompiled_record _
    have hliteral := hcompiles.sound.literal_of_isCompiled
      ((literalEligible_congr hflags hsource).trans heligible) (hcompiles.isCompiled rfl)
    have he' : e' = (r₁.withRow (.ofSource r.source) (modeFor buffer) t.width).executeCompiled
        (modeFor buffer) limits i t start buffer := by
      refine (execute_of_isCompiled ?_ o.generator).trans (by rw [hrecord])
      rw [isCompiled, withRow, CodeSlots.get_set_self]
      exact Bool.or_true _
    rw [hsource] at hliteral
    refine ⟨by rw [hrecord, hliteral], ?_⟩
    rw [he, he']
    refine executeCompiled_congr rfl rfl rfl fun pairs hnone => ?_
    have hview : (r₁.view t start).width = t.width := width_view r₁ t start
    rw [← hview]
    exact search_withRow hliteral hi hnone

/-- A new record for a character that is two units. -/
def smile : Record := { source := "😀", flags := { global := true } }

/-- A lead of its own in front of the character is passed over. -/
theorem execute_literal_smile :
    smile.Reached {} ∧ hasSpecial smile.source = false ∧ smile.flags.ignoreCase = false ∧
      smile.flags.sticky = false ∧
      ∃ p s, parse smile.source smile.flags = .ok p ∧ p.groups = 0 ∧
        Sequence.lower? p.root smile.flags .twoByte = some s ∧
        s.search (.ofUnits .twoByte #[0xD83D, 0xD83D, 0xDE00]) 0 #[.undefined] false =
          .matched #[.span 1 3] := by
  have hreached : smile.Reached {} := .fresh _ _
  obtain ⟨p, s, hparse, hgroups, hlower, hsearch, -⟩ :=
    execute_literal (i := {}) hreached (by decide) rfl rfl rfl {}
      (.ofUnits .twoByte #[0xD83D, 0xD83D, 0xDE00]) 0 none
  refine ⟨hreached, by decide, rfl, rfl, p, s, hparse, hgroups, hlower, ?_⟩
  exact (hsearch #[.undefined] (by simp)).trans (by decide +kernel)

end Record

end RegexEngine

import RegexEngine.Proofs.Engine.Executions
import RegexEngine.Proofs.Match.Folding

/-!
# Executions up to case

Where case does not count, an execution cannot tell texts apart whose units are pairwise equal up to
case: not by the tier that runs the pattern, and not by its mode, its limits or its interrupts.

* `Options.Makes.search_forms` — code finds the same in such texts.
* `Record.Siblings.search_forms` — so do records.
* `Record.execute_forms` — **executions over such texts agree.**
-/

namespace RegexEngine

/-- **Code for which case does not count finds the same** in texts whose units are pairwise equal up
to case. -/
theorem Options.Makes.search_forms {o : Options} {p : Pattern} {mode : Mode} {width width' : Width}
    {flags : Flags} {tables tables' : Array CharTable} {c c' : Code} {t t' : Text}
    (h : o.Makes p mode width flags tables c) (h' : o.Makes p mode width' flags tables' c')
    (hcase : flags.ignoreCase = true) (hforms : t.SameForms t') (limits : Limits)
    (interrupted : Bool) (start : Nat) (pairs : Array Pair) :
    (c'.search tables' limits interrupted t' start pairs).1 =
      (c.search tables limits interrupted t start pairs).1 := by
  -- the tree is straight for both widths or for none
  obtain ⟨hsame, hfolds⟩ := Sequence.folds_lower p.root hcase width width'
  have hrow' : o.row? p.root flags width' = o.row? p.root flags width := by
    rw [row?, row?, hsame]
  cases h with
  | sequence hrow =>
    rw [hrow] at hrow'
    cases h' with
    | sequence hs' =>
      obtain rfl := Option.some.inj (hs'.symm.trans hrow')
      have hlower : Sequence.lower? p.root flags width = some _ :=
        (Option.ite_none_right_eq_some.1 hrow).2
      exact Sequence.search_of_forms hforms (hfolds _ hlower) start pairs interrupted
    | program hnone _ _ =>
      rw [hnone] at hrow'
      cases hrow'
  | program hnone hcompile htables =>
    rw [hnone] at hrow'
    cases h' with
    | sequence hs' =>
      rw [hs'] at hrow'
      cases hrow'
    | program _ hcompile' htables' =>
      refine Machine.Abreast.search_eq ?_ start pairs
      exact Pattern.abreast_of_forms hcase hcompile hcompile' rfl htables rfl htables' hforms rfl
        rfl

namespace Record

variable {o : Options} {r r' : Record} {mode : Mode} {limits : Limits} {i : Interrupts}
  {t t' : Text} {start : Nat} {pairs : Array Pair} {buffer : Option Buffer}

/-- **Records for which case does not count find the same** in texts whose units are pairwise equal
up to case. -/
theorem Siblings.search_forms (h : Siblings o r r' mode t.width t'.width)
    (hcase : r.flags.ignoreCase = true) (hforms : t.SameForms t') :
    (r'.search mode limits i t' start pairs).1 = (r.search mode limits i t start pairs).1 := by
  -- neither record searches for its source as it is
  have hnot : ¬r.literalEligible = true := by
    intro heligible
    obtain ⟨hcounts, -⟩ := literalEligible_iff.1 heligible
    rw [hcase] at hcounts
    cases hcounts
  have hnot' : ¬r'.literalEligible = true := by
    rwa [literalEligible_congr h.flags h.source]
  rcases h.sound.cases h.isCompiled with ⟨heligible, -⟩ | ⟨-, hnone, p, c, hparse, -, hslot, hmakes⟩
  · exact absurd heligible hnot
  rcases h.sound'.cases h.isCompiled' with
    ⟨heligible', -⟩ | ⟨-, hnone', p', c', hparse', -, hslot', hmakes'⟩
  · exact absurd heligible' hnot'
  -- both records hold code for one pattern
  rw [h.source, h.flags, hparse] at hparse'
  obtain rfl := Except.ok.inj hparse'
  rw [anchoredIfSticky_congr h.flags, h.flags] at hmakes'
  rw [search_of_slot hnone hslot, search_of_slot hnone' hslot']
  exact searchCode_congr hmakes.steady hmakes'.steady
    (fun interrupted => hmakes.search_forms hmakes' hcase hforms limits interrupted start pairs) _

theorem forms_view (r : Record) (hforms : t.SameForms t') (start : Nat) :
    (r.view t start).SameForms (r.view t' start) := by
  rw [view, view]
  split
  · exact hforms.drop start
  · exact hforms

/-- **Where case does not count, texts are seen through case folding only.**  Take two texts of one
size whose units are pairwise equal up to case, each of any width.  Executions for one source and
the same flags, from the same offset and with buffers that are alike, end with the same status or
the same error over both and leave the same pairs, whatever has happened to the records before. -/
theorem execute_forms (hr : r.Reached o) (hr' : r'.Reached o) (hsource : r'.source = r.source)
    (hflags : r'.flags = r.flags) (hcase : r.flags.ignoreCase = true) (hforms : t.SameForms t')
    (limits : Limits) (i : Interrupts) (start : Nat) (buffer : Option Buffer) :
    (r'.execute o.generator limits i t' start buffer).result =
        (r.execute o.generator limits i t start buffer).result ∧
      (r'.execute o.generator limits i t' start buffer).buffer =
        (r.execute o.generator limits i t start buffer).buffer := by
  refine hr.sound.execute_congr hr'.sound hsource hflags hforms.size ?_
  intro r₁ r₁' hflags₁ hs _ _
  have hview : r₁'.view t' start = r₁.view t' start := view_congr hs.flags t' start
  have hsiblings : Siblings o r₁ r₁' (modeFor buffer) (r₁.view t start).width
      (r₁.view t' start).width := by
    rw [width_view, width_view]
    exact hs
  rw [hview]
  exact hsiblings.search_forms (hflags₁ ▸ hcase) (forms_view r₁ hforms start)

/-- A new record for a letter, the same letter once more, and any unit. -/
def anyCase : Record := { source := "(a)\\1.", flags := { ignoreCase := true } }

/-- The units of `aAσ` and of `Aaς` are pairwise equal up to case. -/
theorem sameForms_sigma :
    (Text.ofUnits .twoByte #[0x61, 0x41, 0x3C3]).SameForms
      (.ofUnits .twoByte #[0x41, 0x61, 0x3C2]) where
  size := by simp [Text.size, Text.ofUnits]
  forms i := by
    have hsigma : canonicalize 0x3C3 = 0x3A3 := by
      rw [canonicalize_eq (by decide) (by decide)]
      decide +kernel
    have hfinal : canonicalize 0x3C2 = 0x3A3 := by
      rw [canonicalize_eq (by decide) (by decide)]
      decide +kernel
    have hletter : canonicalize 0x61 = canonicalize 0x41 := by decide
    have hunits : (Text.ofUnits .twoByte #[0x61, 0x41, 0x3C3]).units = #[0x61, 0x41, 0x3C3] := by
      decide +kernel
    have hunits' : (Text.ofUnits .twoByte #[0x41, 0x61, 0x3C2]).units = #[0x41, 0x61, 0x3C2] := by
      decide +kernel
    rw [Text.unit?, Text.unit?, hunits, hunits']
    rcases i with _ | _ | _ | i
    · exact congrArg some hletter.symm
    · exact congrArg some hletter
    · exact congrArg some (hfinal.trans hsigma.symm)
    · rfl

/-- The executions over the two texts. -/
theorem execute_forms_sigma :
    anyCase.Reached {} ∧ anyCase.flags.ignoreCase = true ∧
      (Text.ofUnits .twoByte #[0x61, 0x41, 0x3C3]).SameForms
        (.ofUnits .twoByte #[0x41, 0x61, 0x3C2]) ∧
      (anyCase.execute (Options.generator {}) {} {} (.ofUnits .twoByte #[0x41, 0x61, 0x3C2]) 0
          (some { fixed := false })).result = .ok .success ∧
      (anyCase.execute (Options.generator {}) {} {} (.ofUnits .twoByte #[0x41, 0x61, 0x3C2]) 0
          (some { fixed := false })).buffer =
        some { fixed := false, pairs := #[.span 0 3, .span 0 1] } := by
  have hreached : anyCase.Reached {} := .fresh _ _
  have hresult : (anyCase.execute (Options.generator {}) {} {}
      (.ofUnits .twoByte #[0x61, 0x41, 0x3C3]) 0 (some { fixed := false })).result =
        .ok .success := by
    decide +kernel
  have hbuffer : (anyCase.execute (Options.generator {}) {} {}
      (.ofUnits .twoByte #[0x61, 0x41, 0x3C3]) 0 (some { fixed := false })).buffer =
        some { fixed := false, pairs := #[.span 0 3, .span 0 1] } := by
    decide +kernel
  obtain ⟨hsame, hsame'⟩ := execute_forms hreached hreached rfl rfl rfl sameForms_sigma {} {} 0
    (some { fixed := false })
  exact ⟨hreached, rfl, sameForms_sigma, hsame.trans hresult, hsame'.trans hbuffer⟩

end Record

end RegexEngine

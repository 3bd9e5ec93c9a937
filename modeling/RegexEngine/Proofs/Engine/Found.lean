import RegexEngine.Proofs.Engine.Plain
import RegexEngine.Proofs.Match.First

/-!
# What records find

A record searches for a literal, runs a row of tests or runs a program.  In all three ways it finds
the first trail of its pattern at the first position that has one; a sticky record has a pattern
that is bound to the start.  Interrupts can keep it from an answer but not change the answer.

* `Options.Makes.search_finds` — code finds the trails of the pattern that it was made of.
* `Record.search_cases` — a search ends as one run of the code, or without an answer.
* `Record.Sound.search_finds` — **what a record finds.**
-/

namespace RegexEngine

/-- **Code that reports captures finds the trails of its pattern.** -/
theorem Options.Makes.search_finds {o : Options} {p : Pattern} {flags : Flags}
    {tables : Array CharTable} {c : Code} {t : Text} (h : o.Makes p .normal t.width flags tables c)
    (hp : p.Canonical) {pairs : Array Pair} (hcount : pairs.size = p.groups + 1) (limits : Limits)
    (interrupted : Bool) (start : Nat) :
    (c.search tables limits interrupted t start pairs).1.Finds p.groups
      (fun q => p.root.trails t flags.ignoreCase (.init q)) start t.size := by
  cases h with
  | sequence hrow =>
    rw [row?] at hrow
    split at hrow
    · have hs := Sequence.startsWithAnchor_of_lower hrow
      have htrails := hp.trailsAt_of_lower hrow
      rw [← funext htrails]
      exact Sequence.search_finds hs hcount t start interrupted
    · cases hrow
  | program hrow hcompile htables =>
    exact (hp.seeks_of_compile hcompile rfl htables rfl).search_finds hcount start

namespace Record

variable {o : Options} {r : Record} {mode : Mode} {width : Width} {limits : Limits}
  {i : Interrupts} {t : Text} {start : Nat} {pairs : Array Pair} {c : Code}

/-! ### Patterns of records -/

/-- The parsed pattern of a record that is compiled has as many groups as the record says. -/
theorem Sound.exists_parse (h : r.Sound o) (hcompiled : r.isCompiled mode width = true) :
    ∃ p, parse r.source r.flags = .ok p ∧ r.groups = p.groups := by
  rcases h.cases hcompiled with
    ⟨heligible, -, hgroups⟩ | ⟨-, -, p, c, hparse, hgroups, -, -⟩
  · -- what is searched for as it is has no groups
    obtain ⟨-, -, hplain⟩ := literalEligible_iff.1 heligible
    exact ⟨_, parse_of_plain hplain r.flags, hgroups⟩
  · exact ⟨p, hparse, hgroups⟩

theorem canonical_anchoredIfSticky {p : Pattern} (hparse : parse r.source r.flags = .ok p) :
    (r.anchoredIfSticky p).Canonical ∧ (r.anchoredIfSticky p).groups = p.groups := by
  have hp := (canonical_of_parse hparse).1
  rw [anchoredIfSticky]
  split
  · exact ⟨hp.anchored, rfl⟩
  · exact ⟨hp, rfl⟩

/-! ### Searches -/

/-- A search with code ends as a run of the code, or without an answer. -/
theorem search_cases (hnone : r.literal = none) (hslot : r.slots.get mode t.width = some c)
    (hc : c.Steady) (limits : Limits) (i : Interrupts) (start : Nat) (pairs : Array Pair) :
    (∃ interrupted, (r.search mode limits i t start pairs).1 =
      (c.search r.tables limits interrupted t start pairs).1) ∨
    (r.search mode limits i t start pairs).1 = .failed .outOfSteps ∨
    (r.search mode limits i t start pairs).1 = .failed (.error .interrupted) := by
  unfold search
  rw [hnone, hslot]
  exact searchCode_cases hc r.tables limits i t start pairs _

/-- **What a record finds**: the first trail of its pattern at the first position that has one. -/
theorem Sound.search_finds (h : r.Sound o) (hcompiled : r.isCompiled .normal t.width = true) :
    ∃ p, parse r.source r.flags = .ok p ∧ r.groups = p.groups ∧ ∀ limits i start,
      (r.search .normal limits i t start (Array.replicate r.pairCount .undefined)).1.Finds p.groups
        (fun q => (r.anchoredIfSticky p).root.trails t r.flags.ignoreCase (.init q)) start
        t.size := by
  have hcount : (Array.replicate r.pairCount Pair.undefined).size = r.groups + 1 := by
    simp [pairCount]
  obtain ⟨p, hparse, hgroups⟩ := h.exists_parse hcompiled
  obtain ⟨hcanonical, hsame⟩ := canonical_anchoredIfSticky hparse
  refine ⟨p, hparse, hgroups, fun limits i start => ?_⟩
  rw [hgroups, ← hsame] at hcount
  rw [← hsame]
  rcases h.cases hcompiled with
    ⟨heligible, hliteral, -⟩ | ⟨-, hnone, p', c, hparse', -, hslot, hmakes⟩
  · -- a literal is found where its row of tests matches
    obtain ⟨hcase, hsticky, hplain⟩ := literalEligible_iff.1 heligible
    have hroot : r.anchoredIfSticky p = p := by
      rw [anchoredIfSticky, hsticky]
      exact if_neg Bool.false_ne_true
    rw [hroot] at hcanonical hcount ⊢
    obtain rfl := Except.ok.inj ((parse_of_plain hplain r.flags).symm.trans hparse)
    have hlower : Sequence.lower? _ r.flags t.width = some (.ofSource r.source) :=
      Sequence.lower_ofUnits hcase _ t.width
    rw [search_of_literal hliteral, ← funext (hcanonical.trailsAt_of_lower hlower),
      ← Sequence.search_ofSource fun q hq => (Array.mem_replicate.1 hq).2]
    exact Sequence.search_finds (Sequence.startsWithAnchor_of_lower hlower) hcount t start false
  · obtain rfl := Except.ok.inj (hparse'.symm.trans hparse)
    rcases search_cases hnone hslot hmakes.steady limits i start
      (Array.replicate r.pairCount .undefined) with ⟨interrupted, hsearch⟩ | hsteps | hinterrupted
    · rw [hsearch]
      exact hmakes.search_finds hcanonical hcount limits interrupted start
    · rw [hsteps]
      trivial
    · rw [hinterrupted]
      trivial

end Record

end RegexEngine

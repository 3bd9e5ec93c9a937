import RegexEngine.Engine.Basic
import RegexEngine.Proofs.Match.Widths

/-!
# What records hold

A record fills its slots one after the other, in the order in which they are asked for.  What it
holds in a slot, and whether it holds anything there, depends on its source, its flags and the
options of the engine only.  Earlier compilations leave no trace but tables in front.

* `Options.Makes` — the code that the options of an engine lead to.
* `Options.Fits` — there is room for a program, or none is needed.
* `Options.generate_cases` — **what the generator of an engine makes of a pattern.**
* `Record.Sound` — what is in the slots was made from the source and the flags.
* `Record.answer` — the answer of a compilation.
* `Record.Sound.compiles` — **what a compilation leaves behind.**
* `Record.Reached` — the records that an engine with some options can come to hold.
* `Record.Reached.sound` — **every such record is sound.**
-/

namespace RegexEngine

/-! ### What a generator makes -/

/-- A search leaves the code as it is. -/
def Code.Steady (c : Code) : Prop :=
  ∀ tables limits interrupted t start pairs,
    (c.search tables limits interrupted t start pairs).2 = c

namespace Options

/-- The row of tests of a tree, if these options ask for one and the tree is straight. -/
def row? (o : Options) (root : Node) (flags : Flags) (width : Width) : Option Sequence :=
  if o.nativeTier then Sequence.lower? root flags width else none

/-- The code that the generator makes for a pattern.  Behind the tables of a program there may be
those of others. -/
inductive Makes (o : Options) (p : Pattern) (mode : Mode) (width : Width) (flags : Flags)
    (tables : Array CharTable) : Code → Prop
  | sequence {s : Sequence} (hrow : o.row? p.root flags width = some s) :
    Makes o p mode width flags tables (.sequence s)
  | program {prog : Program} {tables₀ tables₁ later : Array CharTable}
    (hrow : o.row? p.root flags width = none)
    (hcompile : p.compile mode width flags tables₀ o.maxProgramLength = (.ok prog, tables₁))
    (htables : tables = tables₁ ++ later) : Makes o p mode width flags tables (.program prog)

/-- There is room for the program of a pattern, or it needs none. -/
def Fits (o : Options) (p : Pattern) (mode : Mode) (width : Width) (flags : Flags) : Prop :=
  (o.row? p.root flags width).isSome = true ∨
    (p.fragment mode width flags #[] o.maxProgramLength).size < o.maxProgramLength

instance (o : Options) (p : Pattern) (mode : Mode) (width : Width) (flags : Flags) :
    Decidable (o.Fits p mode width flags) :=
  inferInstanceAs (Decidable (_ ∨ _))

variable {o : Options} {p : Pattern} {mode mode' : Mode} {width width' : Width} {flags : Flags}
  {tables : Array CharTable} {c : Code}

/-- More tables behind do not matter. -/
theorem Makes.append (h : o.Makes p mode width flags tables c) (more : Array CharTable) :
    o.Makes p mode width flags (tables ++ more) c := by
  cases h with
  | sequence hrow => exact .sequence hrow
  | program hrow hcompile htables =>
    exact .program hrow hcompile (by rw [htables, Array.append_assoc])

theorem generate_of_row {s : Sequence} (h : o.row? p.root flags width = some s) :
    o.generator.generate p mode width flags tables = (.ok (.sequence s), tables) := by
  rw [row?] at h
  rw [generator, Generator.generate_standard, h]

theorem generate_of_row_none (h : o.row? p.root flags width = none) :
    o.generator.generate p mode width flags tables =
      ((p.compile mode width flags tables o.maxProgramLength).1.map Code.program,
        (p.compile mode width flags tables o.maxProgramLength).2) := by
  rw [row?] at h
  rw [generator, Generator.generate_standard, h]

/-- **What the generator makes of a pattern**: code if it fits, and an error if it does not. -/
theorem generate_cases (o : Options) (p : Pattern) (mode : Mode) (width : Width) (flags : Flags)
    (tables : Array CharTable) :
    (o.Fits p mode width flags ∧ ∃ c more,
      o.generator.generate p mode width flags tables = (.ok c, tables ++ more) ∧
        o.Makes p mode width flags (tables ++ more) c) ∨
    (¬o.Fits p mode width flags ∧ ∃ more,
      o.generator.generate p mode width flags tables =
        (.error .programTooLarge, tables ++ more)) := by
  cases hrow : o.row? p.root flags width with
  | some s =>
    rw [generate_of_row hrow]
    exact Or.inl ⟨Or.inl (by rw [hrow]; rfl), _, #[], by rw [Array.append_empty], .sequence hrow⟩
  | none =>
    rw [generate_of_row_none hrow]
    -- the size of the program does not depend on the tables that are there already
    have hsize : (p.fragment mode width flags tables o.maxProgramLength).size =
        (p.fragment mode width flags #[] o.maxProgramLength).size :=
      Nat.le_antisymm (p.size_fragment_le (Or.inl rfl)) (p.size_fragment_le (Or.inl rfl))
    obtain ⟨more, hmore⟩ := p.tables_of_compile mode width flags tables o.maxProgramLength
    rcases p.compile_cases mode width flags tables o.maxProgramLength with
      ⟨hlt, prog, tables₁, hcompile⟩ | ⟨hle, tables₁, hcompile⟩
    · rw [hcompile] at hmore ⊢
      dsimp only at hmore
      subst hmore
      exact Or.inl ⟨Or.inr (hsize ▸ hlt), _, more, rfl,
        .program hrow hcompile Array.append_empty.symm⟩
    · rw [hcompile] at hmore ⊢
      dsimp only at hmore
      subst hmore
      refine Or.inr ⟨?_, more, rfl⟩
      rintro (hsome | hlt)
      · rw [hrow] at hsome
        cases hsome
      · omega

/-- The same of every generator that makes rows and programs. -/
theorem standard_cases (native : Bool) (maxLength : Nat) (p : Pattern) (mode : Mode)
    (width : Width) (flags : Flags) (tables : Array CharTable) :
    (∃ (o : Options) (c : Code) (more : Array CharTable),
      (Generator.standard native maxLength).generate p mode width flags tables =
          (.ok c, tables ++ more) ∧ o.Makes p mode width flags (tables ++ more) c) ∨
    ∃ more, (Generator.standard native maxLength).generate p mode width flags tables =
      (.error .programTooLarge, tables ++ more) := by
  let o : Options := { nativeTier := native, maxProgramLength := maxLength }
  rcases o.generate_cases p mode width flags tables with
    ⟨-, c, more, hgenerate, hmakes⟩ | ⟨-, more, hgenerate⟩
  · exact Or.inl ⟨o, c, more, hgenerate, hmakes⟩
  · exact Or.inr ⟨more, hgenerate⟩

/-- What such a generator makes. -/
theorem makes_of_standard {native : Bool} {maxLength : Nat} {tables' : Array CharTable}
    (h : (Generator.standard native maxLength).generate p mode width flags tables =
      (.ok c, tables')) : ∃ o : Options, o.Makes p mode width flags tables' c := by
  rcases standard_cases native maxLength p mode width flags tables with
    ⟨o, c', more, hgenerate, hmakes⟩ | ⟨more, hgenerate⟩
  · cases h.symm.trans hgenerate
    exact ⟨o, hmakes⟩
  · cases h.symm.trans hgenerate

/-- Why it makes nothing. -/
theorem eq_programTooLarge_of_standard {native : Bool} {maxLength : Nat} {e : RegexError}
    (h : ((Generator.standard native maxLength).generate p mode width flags tables).1 =
      .error e) : e = .programTooLarge := by
  rcases standard_cases native maxLength p mode width flags tables with
    ⟨o, c', more, hgenerate, -⟩ | ⟨more, hgenerate⟩
  · rw [hgenerate] at h
    cases h
  · rw [hgenerate] at h
    exact (Except.error.inj h).symm

/-- The rows of a tree for two widths test the same in a text that suits both. -/
theorem same_row {t : Text} {root : Node}
    (hsuits : t.Suits (width == .latin1) (width' == .latin1)) :
    Option.Rel (Sequence.Same t) (o.row? root flags width) (o.row? root flags width') := by
  rw [row?, row?]
  split
  · exact Sequence.same_lower hsuits
  · exact .none

/-- Code that was made fits. -/
theorem Makes.fits (h : o.Makes p mode width flags tables c) : o.Fits p mode width flags := by
  cases h with
  | sequence hrow => exact Or.inl (by rw [hrow]; rfl)
  | program hrow hcompile htables =>
    exact Or.inr (Nat.lt_of_le_of_lt (p.size_fragment_le (Or.inl rfl))
      (p.size_lt_of_compile hcompile))

/-- What the generator makes is steady. -/
theorem Makes.steady (h : o.Makes p mode width flags tables c) : c.Steady := by
  cases h <;> exact fun _ _ _ _ _ _ => rfl

/-- A pattern fits in one width if it fits in another one. -/
theorem Fits.atWidth (h : o.Fits p mode width flags) (width' : Width) :
    o.Fits p mode width' flags := by
  rcases h with hsome | hlt
  · -- in a text without units both kinds of rows are the same
    have hrel : Option.Rel (Sequence.Same (Text.ofUnits .latin1 #[])) (o.row? p.root flags width)
        (o.row? p.root flags width') := same_row (Or.inr (by simp [Text.ofUnits]))
    cases hrow' : o.row? p.root flags width' with
    | some s => exact Or.inl (by rw [hrow']; rfl)
    | none =>
      rw [hrow'] at hrel
      cases hrow : o.row? p.root flags width with
      | none =>
        rw [hrow] at hsome
        cases hsome
      | some s =>
        rw [hrow] at hrel
        cases hrel
  · exact Or.inr (Nat.lt_of_le_of_lt (p.size_fragment_le (Or.inl rfl)) hlt)

/-- A pattern fits without captures if it fits with them. -/
theorem Fits.matchOnly (h : o.Fits p mode width flags) : o.Fits p .matchOnly width flags :=
  h.imp id fun hlt => Nat.lt_of_le_of_lt (p.size_fragment_le (Or.inr rfl)) hlt

end Options

/-! ### Sound records -/

theorem CodeSlots.set_get {s : CodeSlots} {mode : Mode} {width : Width} {c : Code}
    (h : s.get mode width = some c) : s.set mode width c = s := by
  cases s
  cases mode <;> cases width <;> cases h <;> rfl

namespace Record

/-- What is in the slots of the record was made from its source and its flags. -/
structure Sound (o : Options) (r : Record) : Prop where
  literal : ∀ l, r.literal = some l →
    r.literalEligible = true ∧ l = .ofSource r.source ∧ r.groups = 0
  code : ∀ mode width c, r.slots.get mode width = some c →
    r.literalEligible = false ∧ ∃ p, parse r.source r.flags = .ok p ∧ r.groups = p.groups ∧
      o.Makes (r.anchoredIfSticky p) mode width r.flags r.tables c

variable {o : Options} {r : Record} {mode : Mode} {width : Width} {c : Code}

/-- A record of which nothing has been asked yet. -/
theorem sound_fresh (o : Options) (source : String) (flags : Flags) :
    Sound o { source, flags } where
  literal l h := by cases h
  code mode width c h := by cases mode <;> cases width <;> cases h

/-- Which records search for their source as it is. -/
theorem literalEligible_iff :
    r.literalEligible = true ↔
      r.flags.ignoreCase = false ∧ r.flags.sticky = false ∧ hasSpecial r.source = false := by
  simp only [literalEligible, Bool.and_eq_true, Bool.not_eq_true', and_assoc]

/-- A record that is compiled searches for its source or holds code for its pattern. -/
theorem Sound.cases (h : r.Sound o) (hcompiled : r.isCompiled mode width = true) :
    (r.literalEligible = true ∧ r.literal = some (.ofSource r.source) ∧ r.groups = 0) ∨
      (r.literalEligible = false ∧ r.literal = none ∧ ∃ p c, parse r.source r.flags = .ok p ∧
        r.groups = p.groups ∧ r.slots.get mode width = some c ∧
          o.Makes (r.anchoredIfSticky p) mode width r.flags r.tables c) := by
  cases hliteral : r.literal with
  | some l =>
    obtain ⟨heligible, rfl, hgroups⟩ := h.literal l hliteral
    exact Or.inl ⟨heligible, rfl, hgroups⟩
  | none =>
    rw [isCompiled, hliteral] at hcompiled
    obtain ⟨c, hc⟩ := Option.isSome_iff_exists.1 hcompiled
    obtain ⟨heligible, p, hparse, hgroups, hmakes⟩ := h.code mode width c hc
    exact Or.inr ⟨heligible, rfl, p, c, hparse, hgroups, hc, hmakes⟩

/-- Tables that no code in the slots needs. -/
theorem Sound.appendTables (h : r.Sound o) (more : Array CharTable) :
    Sound o { r with tables := r.tables ++ more } where
  literal := h.literal
  code mode width c hc := by
    obtain ⟨hliteral, p, hparse, hgroups, hmakes⟩ := h.code mode width c hc
    exact ⟨hliteral, p, hparse, hgroups, hmakes.append more⟩

/-- Filling a slot changes nothing but the slots. -/
theorem fill_eq (r : Record) (mode : Mode) (width : Width) (c : Code) :
    ∃ slots, r.fill mode width c = { r with slots } := by
  rw [fill]
  split
  · exact ⟨_, rfl⟩
  · exact ⟨r.slots, rfl⟩

/-- What is in the slots when one of them has been filled. -/
theorem get_fill {mode' : Mode} {width' : Width} {c' : Code}
    (h : (r.fill mode width c).slots.get mode' width' = some c') :
    r.slots.get mode' width' = some c' ∨ ((mode, width) = (mode', width') ∧ c' = c) := by
  rw [fill] at h
  split at h
  · by_cases hsame : (mode, width) = (mode', width')
    · cases hsame
      rw [CodeSlots.get_set_self] at h
      exact Or.inr ⟨rfl, (Option.some.inj h).symm⟩
    · rw [CodeSlots.get_set_of_ne _ _ hsame] at h
      exact Or.inl h
  · exact Or.inl h

theorem isSome_get_fill (r : Record) (mode : Mode) (width : Width) (c : Code) :
    ((r.fill mode width c).slots.get mode width).isSome = true := by
  rw [fill]
  split
  · simp
  · next hc => rw [hc]; rfl

/-- All code in the slots has a property. -/
def AllCode (P : Code → Prop) (r : Record) : Prop :=
  ∀ mode width c, r.slots.get mode width = some c → P c

theorem allCode_fresh (P : Code → Prop) (source : String) (flags : Flags) :
    AllCode P { source, flags } := by
  intro mode width c h
  cases mode <;> cases width <;> cases h

/-- What is compiled has a property that all code has that the generator makes. -/
theorem AllCode.compile {P : Code → Prop} {g : Generator} (h : r.AllCode P)
    (hg : ∀ p mode width flags tables c, (g.generate p mode width flags tables).1 = .ok c → P c)
    (mode : Mode) (width : Width) : (r.compile mode width g).2.AllCode P := by
  rw [Record.compile]
  split
  · exact h
  · split
    · exact h
    · cases parse r.source r.flags with
      | error f => exact h
      | ok p =>
        dsimp only
        rcases hgenerate : g.generate (r.anchoredIfSticky p) mode width r.flags r.tables with
          ⟨e | c, tables⟩
        · exact h
        · intro mode' width' c' hc'
          rcases get_fill hc' with hold | ⟨-, rfl⟩
          · exact h mode' width' c' hold
          · exact hg _ _ _ _ _ _ (congrArg Prod.fst hgenerate)

theorem AllCode.compileIfNecessary {P : Code → Prop} {g : Generator} (h : r.AllCode P)
    (hg : ∀ p mode width flags tables c, (g.generate p mode width flags tables).1 = .ok c → P c)
    (mode : Mode) (width : Width) : (r.compileIfNecessary mode width g).2.AllCode P := by
  rw [Record.compileIfNecessary]
  split
  · exact h
  · exact h.compile hg mode width

/-- A slot is filled with what the generator makes. -/
theorem Sound.fill (h : r.Sound o) {p : Pattern} {more : Array CharTable}
    (hnone : r.literal = none) (heligible : r.literalEligible = false)
    (hparse : parse r.source r.flags = .ok p)
    (hmakes : o.Makes (r.anchoredIfSticky p) mode width r.flags (r.tables ++ more) c) :
    Sound o ({ r with tables := r.tables ++ more, groups := p.groups }.fill mode width c) := by
  obtain ⟨slots, hfill⟩ :=
    fill_eq { r with tables := r.tables ++ more, groups := p.groups } mode width c
  constructor
  · intro l hl
    rw [hfill] at hl
    exact absurd (hl.symm.trans hnone) (by simp)
  · intro mode' width' c' hc
    have hcode := get_fill hc
    rw [hfill]
    refine ⟨heligible, p, hparse, rfl, ?_⟩
    rcases hcode with hold | ⟨hsame, rfl⟩
    · -- the other slots were filled from the same pattern
      obtain ⟨-, p', hparse', -, hmakes'⟩ := h.code _ _ _ hold
      obtain rfl : p' = p := Except.ok.inj (hparse'.symm.trans hparse)
      exact hmakes'.append more
    · cases hsame
      exact hmakes

/-! ### Compilation -/

/-- The answer of a compilation: an error if the source is no pattern, or if its program is too
large. -/
def answer (o : Options) (r : Record) (mode : Mode) (width : Width) : Except RegexError Unit :=
  if r.literalEligible then .ok ()
  else
    match parse r.source r.flags with
    | .error f => .error f.toError
    | .ok p =>
      if o.Fits (r.anchoredIfSticky p) mode width r.flags then .ok ()
      else .error .programTooLarge

/-- The answer is the same for texts of every width. -/
theorem answer_width (o : Options) (r : Record) (mode : Mode) (width width' : Width) :
    r.answer o mode width' = r.answer o mode width := by
  have hfits : ∀ p, o.Fits p mode width' r.flags ↔ o.Fits p mode width r.flags := fun p =>
    ⟨fun h => h.atWidth width, fun h => h.atWidth width'⟩
  simp only [answer, hfits]

/-- What can be compiled with captures can be compiled without them. -/
theorem answer_matchOnly (h : r.answer o .normal width = .ok ()) :
    r.answer o .matchOnly width = .ok () := by
  rw [answer] at h ⊢
  split at h
  · next heligible => rw [if_pos heligible]
  · next heligible =>
    rw [if_neg heligible]
    cases hparse : parse r.source r.flags with
    | error f =>
      rw [hparse] at h
      cases h
    | ok p =>
      rw [hparse] at h
      dsimp only at h ⊢
      split at h
      · next hfits => rw [if_pos hfits.matchOnly]
      · cases h

section Congr

variable {r' : Record} (hflags : r'.flags = r.flags)
include hflags

theorem literalEligible_congr (hsource : r'.source = r.source) :
    r'.literalEligible = r.literalEligible := by
  rw [literalEligible, literalEligible, hsource, hflags]

theorem anchoredIfSticky_congr (p : Pattern) : r'.anchoredIfSticky p = r.anchoredIfSticky p := by
  rw [anchoredIfSticky, anchoredIfSticky, hflags]

/-- Records with the same flags look at the same part of a text. -/
theorem view_congr (t : Text) (start : Nat) : r'.view t start = r.view t start := by
  rw [view, view, hflags]

theorem displacement_congr (start : Nat) : r'.displacement start = r.displacement start := by
  rw [displacement, displacement, hflags]

/-- The answer depends on the source and the flags only. -/
theorem answer_congr (hsource : r'.source = r.source) (mode : Mode) (width : Width) :
    r'.answer o mode width = r.answer o mode width := by
  rw [answer, answer, literalEligible_congr hflags hsource, hsource, hflags]
  cases parse r.source r.flags with
  | error f => rfl
  | ok p =>
    dsimp only
    rw [anchoredIfSticky_congr hflags]

end Congr

/-- What a compilation leaves behind. -/
structure Compiles (o : Options) (r : Record) (mode : Mode) (width : Width)
    (a : Except RegexError Unit × Record) : Prop where
  sound : a.2.Sound o
  source : a.2.source = r.source
  flags : a.2.flags = r.flags
  answer : a.1 = r.answer o mode width
  isCompiled : a.1 = .ok () → a.2.isCompiled mode width = true

/-- A record that is compiled already. -/
theorem Sound.compiles_self (h : r.Sound o) (hcompiled : r.isCompiled mode width = true) :
    r.Compiles o mode width (.ok (), r) := by
  refine ⟨h, rfl, rfl, ?_, fun _ => hcompiled⟩
  rw [Record.answer]
  rcases h.cases hcompiled with
    ⟨heligible, -, -⟩ | ⟨heligible, -, p, c, hparse, -, -, hmakes⟩
  · rw [if_pos heligible]
  · rw [heligible, if_neg Bool.false_ne_true, hparse]
    exact (if_pos hmakes.fits).symm

/-- **What a compilation leaves behind** depends on the record only as far as its source and its
flags do. -/
theorem Sound.compiles (h : r.Sound o) (mode : Mode) (width : Width) :
    r.Compiles o mode width (r.compile mode width o.generator) := by
  rw [compile]
  by_cases hsome : r.literal.isSome = true
  · rw [if_pos hsome]
    exact h.compiles_self (by rw [Record.isCompiled, hsome, Bool.true_or])
  have hnone : r.literal = none := by simpa using hsome
  rw [if_neg hsome]
  by_cases heligible : r.literalEligible = true
  · rw [if_pos heligible]
    refine ⟨⟨fun l hl => ⟨heligible, (Option.some.inj hl).symm, rfl⟩, ?_⟩, rfl, rfl,
      ?_, fun _ => rfl⟩
    · -- no slot of such a record is ever filled
      intro mode' width' c hc
      rw [(h.code mode' width' c hc).1] at heligible
      cases heligible
    · rw [Record.answer, if_pos heligible]
  rw [if_neg heligible]
  have hanswer : r.answer o mode width = _ := if_neg heligible
  rw [Bool.not_eq_true] at heligible
  cases hparse : parse r.source r.flags with
  | error f =>
    rw [hparse] at hanswer
    exact ⟨h, rfl, rfl, hanswer.symm, fun hok => by cases hok⟩
  | ok p =>
    rw [hparse] at hanswer
    dsimp only at hanswer ⊢
    rcases o.generate_cases (r.anchoredIfSticky p) mode width r.flags r.tables with
      ⟨hfits, c, more, hgenerate, hmakes⟩ | ⟨hfits, more, hgenerate⟩
    · rw [hgenerate]
      obtain ⟨slots, hfill⟩ :=
        fill_eq { r with tables := r.tables ++ more, groups := p.groups } mode width c
      have hsound := h.fill hnone heligible hparse hmakes
      have hslot :=
        isSome_get_fill { r with tables := r.tables ++ more, groups := p.groups } mode width c
      dsimp only
      rw [hfill] at hsound hslot ⊢
      exact ⟨hsound, rfl, rfl, (hanswer.trans (if_pos hfits)).symm,
        fun _ => by rw [Record.isCompiled, hslot, Bool.or_true]⟩
    · rw [hgenerate]
      exact ⟨h.appendTables more, rfl, rfl, (hanswer.trans (if_neg hfits)).symm,
        fun hok => by cases hok⟩

/-- The same where nothing is compiled if there is something already. -/
theorem Sound.compiles_ifNecessary (h : r.Sound o) (mode : Mode) (width : Width) :
    r.Compiles o mode width (r.compileIfNecessary mode width o.generator) := by
  rw [compileIfNecessary]
  split
  · next hcompiled => exact h.compiles_self hcompiled
  · exact h.compiles mode width

/-! ### Execution -/

variable {limits : Limits} {t : Text} {start : Nat} {pairs : Array Pair} {i : Interrupts}
  {buffer : Option Buffer}

/-- Steady code is run again as it is, if it has seen the flag and the callback resumes. -/
theorem searchCode_succ (hc : c.Steady) (tables : Array CharTable) (n : Nat) :
    searchCode tables limits t start pairs (n + 1) c i =
      match (c.search tables limits i.requested t start pairs).1 with
      | .interrupted =>
        match i.poll with
        | (.resume, i') => searchCode tables limits t start pairs n c i'
        | (.abort, i') => (.failed (.error .interrupted), c, i')
      | outcome => (outcome, c, i) := by
  have hsearch := hc tables limits i.requested t start pairs
  rw [searchCode]
  rcases hx : c.search tables limits i.requested t start pairs with ⟨outcome, c'⟩
  rw [hx] at hsearch
  cases hsearch
  cases outcome <;> rfl

/-- Steady code stays as it is, however often it is run. -/
theorem searchCode_code (hc : c.Steady) (tables : Array CharTable) (n : Nat) :
    (searchCode tables limits t start pairs n c i).2.1 = c := by
  induction n generalizing i with
  | zero => rfl
  | succ n ih =>
    rw [searchCode_succ hc]
    cases (c.search tables limits i.requested t start pairs).1 with
    | interrupted =>
      dsimp only
      rcases i.poll with ⟨_ | _, i'⟩
      · exact ih
      · rfl
    | _ => rfl

/-- A search leaves a sound record as it is. -/
theorem Sound.search_record (h : r.Sound o) (mode : Mode) :
    (r.search mode limits i t start pairs).2.1 = r := by
  rw [search]
  split
  · split <;> rfl
  · split
    · rfl
    · next c hc =>
      obtain ⟨-, p, -, -, hmakes⟩ := h.code _ _ c hc
      dsimp only
      rw [searchCode_code hmakes.steady, CodeSlots.set_get hc]

/-- The part of an execution behind the compilation. -/
def executeCompiled (r : Record) (mode : Mode) (limits : Limits) (i : Interrupts) (t : Text)
    (start : Nat) (buffer : Option Buffer) : Execution :=
  match checkBounds t start with
  | .error e => ⟨.error (.error e), r, i, buffer⟩
  | .ok () =>
    let shift := r.displacement start
    match r.prepare buffer with
    | .error f => ⟨.error f, r, i, buffer⟩
    | .ok buffer =>
      let pairs := (buffer.map Buffer.pairs).getD #[]
      match r.search mode limits i (r.view t start) (start - shift) pairs with
      | (.matched pairs, r, i) =>
        let (result, buffer) := report pairs shift t.size buffer
        ⟨result, r, i, buffer⟩
      | (.noMatch, r, i) => ⟨.ok .notFound, r, i, buffer⟩
      | (.interrupted, r, i) => ⟨.error (.error .interrupted), r, i, buffer⟩
      | (.failed f, r, i) => ⟨.error f, r, i, buffer⟩

/-- The mode of an execution with a buffer or without one. -/
def modeFor (buffer : Option Buffer) : Mode :=
  if buffer.isSome then .normal else .matchOnly

theorem execute_eq (r : Record) (g : Generator) :
    r.execute g limits i t start buffer =
      match r.compileIfNecessary (modeFor buffer) t.width g with
      | (.error e, r) => ⟨.error (.error e), r, i, buffer⟩
      | (.ok (), r) => r.executeCompiled (modeFor buffer) limits i t start buffer := by
  rw [execute]
  rfl

/-- Behind the compilation a sound record stays as it is. -/
theorem Sound.executeCompiled_record (h : r.Sound o) (mode : Mode) :
    (r.executeCompiled mode limits i t start buffer).record = r := by
  rw [executeCompiled]
  split
  · rfl
  · dsimp only
    split
    · rfl
    · next buffer hbuffer =>
      have hrecord : (r.search mode limits i (r.view t start) (start - r.displacement start)
          ((buffer.map Buffer.pairs).getD #[])).2.1 = r := h.search_record mode
      rcases hx : r.search mode limits i (r.view t start) (start - r.displacement start)
        ((buffer.map Buffer.pairs).getD #[]) with ⟨outcome, r₁, i₁⟩
      rw [hx] at hrecord
      cases outcome <;> exact hrecord

/-- An execution compiles and leaves no other trace. -/
theorem Sound.execute_record (h : r.Sound o) :
    (r.execute o.generator limits i t start buffer).record =
      (r.compileIfNecessary (modeFor buffer) t.width o.generator).2 := by
  have hcompiles := h.compiles_ifNecessary (modeFor buffer) t.width
  rw [execute_eq]
  rcases hx : r.compileIfNecessary (modeFor buffer) t.width o.generator with ⟨_ | _, r₁⟩
  · rfl
  · rw [hx] at hcompiles
    exact hcompiles.sound.executeCompiled_record (modeFor buffer)

/-- The records that an engine with these options can come to hold: new ones, and what compilations,
executions and visits make of them. -/
inductive Reached (o : Options) : Record → Prop
  | fresh (source : String) (flags : Flags) : Reached o { source, flags }
  | compile {r : Record} (h : Reached o r) (mode : Mode) (width : Width) :
    Reached o (r.compile mode width o.generator).2
  | execute {r : Record} (h : Reached o r) (limits : Limits) (i : Interrupts) (t : Text)
    (start : Nat) (buffer : Option Buffer) :
    Reached o (r.execute o.generator limits i t start buffer).record
  | mark {r : Record} (h : Reached o r) (marked : Bool) : Reached o { r with marked }

/-- **Every record that an engine holds is sound.** -/
theorem Reached.sound (h : Reached o r) : r.Sound o := by
  induction h with
  | fresh source flags => exact sound_fresh o source flags
  | compile h mode width ih => exact (ih.compiles mode width).sound
  | execute h limits i t start buffer ih =>
    rw [ih.execute_record]
    exact (ih.compiles_ifNecessary _ _).sound
  | mark h marked ih => exact ⟨ih.literal, ih.code⟩

end Record

end RegexEngine

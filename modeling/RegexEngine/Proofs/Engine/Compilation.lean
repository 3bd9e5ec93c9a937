import RegexEngine.Proofs.Engine.Errors
import RegexEngine.Proofs.Engine.Registry
import RegexEngine.Proofs.Pattern.Plain

/-!
# What compilations change

A compilation fills one slot, or keeps the text to search for, or does nothing.  The rest of the
record stays.  This holds whatever the generator is, and so of engines that change theirs.  What
becomes of the tables, and what of the next attempt, is up to the generator.

* `Generator.Appends`, `Generator.Persists` — what is taken for granted of generators.
* `Generator.appends_standard`, `Generator.persists_standard` — the generator of an engine makes it
  good.
* `Record.Compiling`, `Record.compiling` — **the ways in which a compilation can end.**
* `Record.Retains`, `Record.retains_of_error` — **what a failure leaves.**
* `Record.error_of_retries` — **whoever tries again fails again.**
* `Record.Counted`, `Record.Invariant.counted` — records that know the groups of their source.
* `Record.Completes`, `Record.Counted.completes` — **what a success leaves.**
-/

namespace RegexEngine

/-! ### Generators -/

namespace Generator

/-- The generator leaves the tables that it is handed where they are, and appends to them. -/
def Appends (g : Generator) : Prop :=
  ∀ p mode width flags tables, ∃ more, (g.generate p mode width flags tables).2 = tables ++ more

/-- What the generator cannot compile it cannot compile later either: a pattern is refused in the
same way whatever tables have come into the list. -/
def Persists (g : Generator) : Prop :=
  ∀ p mode width flags tables tables' e, e.isCompileError = true →
    (g.generate p mode width flags tables).1 = .error e →
      (g.generate p mode width flags tables').1 = .error e

theorem appends_standard (native : Bool) (maxLength : Nat) :
    (standard native maxLength).Appends := by
  intro p mode width flags tables
  rcases Options.standard_cases native maxLength p mode width flags tables with
    ⟨o, c, more, hgenerate, -⟩ | ⟨more, hgenerate⟩
  · exact ⟨more, by rw [hgenerate]⟩
  · exact ⟨more, by rw [hgenerate]⟩

/-- **The generator of an engine does not look at the tables that are there already** to tell
whether it makes code. -/
theorem persists_standard (native : Bool) (maxLength : Nat) :
    (standard native maxLength).Persists := by
  intro p mode width flags tables tables' e _ h
  let o : Options := { nativeTier := native, maxProgramLength := maxLength }
  have hsame : ∀ ts, (standard native maxLength).generate p mode width flags ts =
      o.generator.generate p mode width flags ts := fun _ => rfl
  rw [hsame] at h ⊢
  rcases o.generate_cases p mode width flags tables with
    ⟨hfits, c, more, hgenerate, -⟩ | ⟨hfits, more, hgenerate⟩
  · rw [hgenerate] at h
    cases h
  · rw [hgenerate] at h
    cases h
    rcases o.generate_cases p mode width flags tables' with
      ⟨hfits', -⟩ | ⟨-, more', hgenerate'⟩
    · exact absurd hfits' hfits
    · rw [hgenerate']

end Generator

namespace Record

variable {r r' r'' : Record} {g : Generator} {mode : Mode} {width : Width} {e : RegexError}

/-! ### Compilations -/

/-- The ways in which a compilation can end. -/
inductive Compiling (r : Record) (mode : Mode) (width : Width) (g : Generator) :
    Except RegexError Unit × Record → Prop
  /-- The record knows what to search for. -/
  | searched (h : r.literal.isSome = true) : Compiling r mode width g (.ok (), r)
  /-- The source is searched for as it is. -/
  | literal (hnone : r.literal = none) (heligible : r.literalEligible = true) :
    Compiling r mode width g
      (.ok (), { r with groups := 0, literal := some (.ofSource r.source) })
  | malformed {f : FlawAt} (hnone : r.literal = none) (heligible : r.literalEligible = false)
    (hparse : parse r.source r.flags = .error f) :
    Compiling r mode width g (.error f.toError, r)
  | refused {p : Pattern} {e : RegexError} {tables : Array CharTable} (hnone : r.literal = none)
    (heligible : r.literalEligible = false) (hparse : parse r.source r.flags = .ok p)
    (hgenerate : g.generate (r.anchoredIfSticky p) mode width r.flags r.tables =
      (.error e, tables)) : Compiling r mode width g (.error e, { r with tables })
  | filled {p : Pattern} {c : Code} {tables : Array CharTable} (hnone : r.literal = none)
    (heligible : r.literalEligible = false) (hparse : parse r.source r.flags = .ok p)
    (hgenerate : g.generate (r.anchoredIfSticky p) mode width r.flags r.tables =
      (.ok c, tables)) :
    Compiling r mode width g (.ok (), { r with tables, groups := p.groups }.fill mode width c)

/-- **A compilation ends in one of these ways.** -/
theorem compiling (r : Record) (mode : Mode) (width : Width) (g : Generator) :
    r.Compiling mode width g (r.compile mode width g) := by
  rw [compile]
  by_cases hsome : r.literal.isSome = true
  · rw [if_pos hsome]
    exact .searched hsome
  have hnone : r.literal = none := by simpa using hsome
  rw [if_neg hsome]
  by_cases heligible : r.literalEligible = true
  · rw [if_pos heligible]
    exact .literal hnone heligible
  rw [if_neg heligible]
  rw [Bool.not_eq_true] at heligible
  cases hparse : parse r.source r.flags with
  | error f => exact .malformed hnone heligible hparse
  | ok p =>
    dsimp only
    rcases hgenerate : g.generate (r.anchoredIfSticky p) mode width r.flags r.tables with
      ⟨e | c, tables⟩
    · exact .refused hnone heligible hparse hgenerate
    · exact .filled hnone heligible hparse hgenerate

/-- After a success there is something to search with. -/
theorem isCompiled_of_ok (h : (r.compileIfNecessary mode width g).1 = .ok ()) :
    (r.compileIfNecessary mode width g).2.isCompiled mode width = true := by
  rw [compileIfNecessary] at h ⊢
  split
  · next hcompiled => exact hcompiled
  · next hnot =>
    rw [if_neg hnot] at h
    have hends := r.compiling mode width g
    rcases hx : r.compile mode width g with ⟨result, r₁⟩
    rw [hx] at hends h
    cases hends with
    | malformed | refused => cases h
    | searched hsome => rw [isCompiled, hsome, Bool.true_or]
    | literal => rfl
    | filled => rw [isCompiled, isSome_get_fill, Bool.or_true]

/-! ### Failures -/

/-- The second record is the first one, but for tables behind those in its list. -/
def Retains (r r' : Record) : Prop := ∃ more, r' = { r with tables := r.tables ++ more }

theorem Retains.refl (r : Record) : r.Retains r := ⟨#[], by rw [Array.append_empty]⟩

theorem Retains.trans (h : r.Retains r') (h' : r'.Retains r'') : r.Retains r'' := by
  obtain ⟨more, rfl⟩ := h
  obtain ⟨more', rfl⟩ := h'
  exact ⟨more ++ more', by rw [Array.append_assoc]⟩

theorem isCompiled_of_error (h : (r.compileIfNecessary mode width g).1 = .error e) :
    r.isCompiled mode width = false := by
  apply eq_false_of_ne_true
  intro hcompiled
  rw [compileIfNecessary, if_pos hcompiled] at h
  cases h

/-- A failure leaves nothing to search with. -/
theorem not_isCompiled_of_error (h : (r.compileIfNecessary mode width g).1 = .error e) :
    (r.compileIfNecessary mode width g).2.isCompiled mode width = false := by
  have hcompiled := isCompiled_of_error h
  rw [compileIfNecessary, if_neg (Bool.eq_false_iff.1 hcompiled)] at h ⊢
  have hends := r.compiling mode width g
  rcases hx : r.compile mode width g with ⟨result, r₁⟩
  rw [hx] at hends h
  cases hends with
  | searched | literal | filled => cases h
  | malformed | refused => exact hcompiled

/-- Where nothing is there yet, the record is compiled. -/
theorem compileIfNecessary_eq (h : r.isCompiled mode width = false) (g : Generator) :
    r.compileIfNecessary mode width g = r.compile mode width g := by
  rw [compileIfNecessary, h, if_neg Bool.false_ne_true]

/-- **A failure leaves the record as it was**, but for tables that have been made by then.  If the
source is malformed, none have been. -/
theorem retains_of_error (hg : g.Appends) (h : (r.compileIfNecessary mode width g).1 = .error e) :
    r.Retains (r.compileIfNecessary mode width g).2 ∧
      ∀ f, parse r.source r.flags = .error f → (r.compileIfNecessary mode width g).2 = r := by
  have hcompiled := isCompiled_of_error h
  rw [compileIfNecessary_eq hcompiled] at h ⊢
  have hends := r.compiling mode width g
  rcases hx : r.compile mode width g with ⟨result, r₁⟩
  rw [hx] at hends h
  cases hends with
  | searched | literal | filled => cases h
  | malformed => exact ⟨.refl r, fun _ _ => rfl⟩
  | @refused p e' tables hnone heligible hparse hgenerate =>
    obtain ⟨more, hmore⟩ := hg (r.anchoredIfSticky p) mode width r.flags r.tables
    rw [hgenerate] at hmore
    refine ⟨⟨more, by rw [← hmore]⟩, ?_⟩
    intro f hflaw
    rw [hparse] at hflaw
    cases hflaw

/-- A record that is not searched for as it is is parsed and handed to the generator. -/
theorem compile_of_none (hnone : r.literal = none) (heligible : r.literalEligible = false)
    (mode : Mode) (width : Width) (g : Generator) :
    (r.compile mode width g).1 =
      match parse r.source r.flags with
      | .error f => .error f.toError
      | .ok p =>
        ((g.generate (r.anchoredIfSticky p) mode width r.flags r.tables).1.map fun _ => ()) := by
  rw [compile, hnone, heligible]
  cases parse r.source r.flags with
  | error f => rfl
  | ok p =>
    dsimp only
    rcases g.generate (r.anchoredIfSticky p) mode width r.flags r.tables with ⟨e | c, tables⟩ <;>
      rfl

/-- More tables in the list do not help. -/
theorem Retains.error (hr : r.Retains r') (hg : g.Persists) (he : e.isCompileError = true)
    (h : (r.compileIfNecessary mode width g).1 = .error e) :
    (r'.compileIfNecessary mode width g).1 = .error e := by
  obtain ⟨more, rfl⟩ := hr
  have hcompiled := isCompiled_of_error h
  rw [compileIfNecessary_eq hcompiled] at h
  rw [compileIfNecessary_eq (by exact hcompiled)]
  have hends := r.compiling mode width g
  rcases hx : r.compile mode width g with ⟨result, r₁⟩
  rw [hx] at hends h
  cases hends with
  | searched | literal | filled => cases h
  | malformed hnone heligible hparse =>
    rw [compile_of_none (by exact hnone) (by exact heligible)]
    dsimp only
    rw [hparse]
    exact h
  | refused hnone heligible hparse hgenerate =>
    cases h
    have hrefused := hg _ _ _ _ _ (r.tables ++ more) e he (congrArg Prod.fst hgenerate)
    rw [compile_of_none (by exact hnone) (by exact heligible)]
    dsimp only [anchoredIfSticky] at hrefused ⊢
    rw [hparse]
    dsimp only
    rw [hrefused]
    rfl

/-- The record after some attempts to compile it. -/
def retried (r : Record) (mode : Mode) (width : Width) (g : Generator) : Nat → Record
  | 0 => r
  | attempts + 1 => ((r.retried mode width g attempts).compileIfNecessary mode width g).2

/-- **Whoever tries again fails again**, with the same error, and all that the attempts leave is
tables. -/
theorem error_of_retries (hg : g.Appends) (hg' : g.Persists) (he : e.isCompileError = true)
    (h : (r.compileIfNecessary mode width g).1 = .error e) (attempts : Nat) :
    r.Retains (r.retried mode width g attempts) ∧
      ((r.retried mode width g attempts).compileIfNecessary mode width g).1 = .error e := by
  induction attempts with
  | zero => exact ⟨.refl r, h⟩
  | succ attempts ih =>
    obtain ⟨hretains, hagain⟩ := ih
    have hnext : r.Retains (r.retried mode width g (attempts + 1)) :=
      hretains.trans (retains_of_error hg hagain).1
    exact ⟨hnext, hnext.error hg' he h⟩

/-! ### Records that know their groups -/

/-- A record that searches for its source has no groups, and a record that holds code has those of
its source. -/
structure Counted (r : Record) : Prop where
  literal : ∀ l, r.literal = some l →
    r.literalEligible = true ∧ l = .ofSource r.source ∧ r.groups = 0
  code : ∀ mode width c, r.slots.get mode width = some c →
    r.literalEligible = false ∧ ∃ p, parse r.source r.flags = .ok p ∧ r.groups = p.groups

theorem counted_fresh (source : String) (flags : Flags) :
    Counted { source, flags } where
  literal l h := by cases h
  code mode width c h := by cases mode <;> cases width <;> cases h

/-- Which slots hold code matters, and not which code. -/
theorem Counted.withSlots (h : r.Counted) {slots : CodeSlots}
    (hslots : ∀ mode width c, slots.get mode width = some c →
      ∃ c', r.slots.get mode width = some c') : Counted { r with slots } where
  literal := h.literal
  code mode width c hc := by
    obtain ⟨c', hc'⟩ := hslots mode width c hc
    exact h.code mode width c' hc'

theorem Counted.compile (h : r.Counted) (mode : Mode) (width : Width) (g : Generator) :
    (r.compile mode width g).2.Counted := by
  have hends := r.compiling mode width g
  rcases hx : r.compile mode width g with ⟨result, r₁⟩
  rw [hx] at hends
  cases hends with
  | searched | malformed => exact h
  | literal hnone heligible =>
    refine ⟨fun l hl => ⟨heligible, (Option.some.inj hl).symm, rfl⟩, ?_⟩
    -- no slot of such a record is ever filled
    intro mode' width' c hc
    rw [(h.code mode' width' c hc).1] at heligible
    cases heligible
  | refused => exact ⟨h.literal, h.code⟩
  | @filled p c tables hnone heligible hparse hgenerate =>
    dsimp only
    obtain ⟨slots, hfill⟩ := fill_eq { r with tables, groups := p.groups } mode width c
    rw [hfill]
    refine ⟨?_, fun _ _ _ _ => ⟨heligible, p, hparse, rfl⟩⟩
    intro l hl
    rw [show r.literal = some l from hl] at hnone
    cases hnone

theorem Counted.compileIfNecessary (h : r.Counted) (mode : Mode) (width : Width) (g : Generator) :
    (r.compileIfNecessary mode width g).2.Counted := by
  rw [Record.compileIfNecessary]
  split
  · exact h
  · exact h.compile mode width g

/-- A source that is searched for as it is has no groups. -/
theorem parse_of_eligible (heligible : r.literalEligible = true) :
    ∃ p, parse r.source r.flags = .ok p ∧ p.groups = 0 :=
  ⟨_, parse_of_plain (literalEligible_iff.1 heligible).2.2 r.flags, rfl⟩

/-- A record that is compiled has the groups of its source. -/
theorem Counted.groups_of_isCompiled (h : r.Counted) (hcompiled : r.isCompiled mode width = true) :
    ∃ p, parse r.source r.flags = .ok p ∧ r.groups = p.groups := by
  cases hliteral : r.literal with
  | some l =>
    obtain ⟨heligible, -, hgroups⟩ := h.literal l hliteral
    obtain ⟨p, hparse, hnone⟩ := parse_of_eligible heligible
    exact ⟨p, hparse, hgroups.trans hnone.symm⟩
  | none =>
    rw [isCompiled, hliteral] at hcompiled
    obtain ⟨c, hc⟩ := Option.isSome_iff_exists.1 hcompiled
    exact (h.code mode width c hc).2

variable {limits : Limits} {i : Interrupts} {t : Text} {start : Nat} {buffer : Option Buffer}

/-- A search changes the record at most by the code that it runs. -/
theorem search_record (r : Record) (mode : Mode) (limits : Limits) (i : Interrupts) (t : Text)
    (start : Nat) (pairs : Array Pair) :
    (r.search mode limits i t start pairs).2.1 = r ∨
      ∃ c, r.slots.get mode t.width = some c ∧
        (r.search mode limits i t start pairs).2.1 = { r with
          slots := r.slots.set mode t.width
            (searchCode r.tables limits t start pairs (maxRuns limits) c i).2.1 } := by
  rcases Option.eq_none_or_eq_some r.literal with hliteral | ⟨l, hliteral⟩
  · rcases Option.eq_none_or_eq_some (r.slots.get mode t.width) with hslot | ⟨c, hslot⟩
    · rw [Record.search, hliteral, hslot]
      exact .inl rfl
    · rw [search_of_slot hliteral hslot]
      exact .inr ⟨c, hslot, rfl⟩
  · rw [search_of_literal hliteral]
    exact .inl rfl

/-- Behind the compilation an execution changes the record at most by a search. -/
theorem executeCompiled_record (r : Record) (mode : Mode) (limits : Limits) (i : Interrupts)
    (t : Text) (start : Nat) (buffer : Option Buffer) :
    (r.executeCompiled mode limits i t start buffer).record = r ∨
      ∃ place pairs, (r.executeCompiled mode limits i t start buffer).record =
        (r.search mode limits i (r.view t start) place pairs).2.1 := by
  rw [executeCompiled]
  split
  · exact .inl rfl
  · dsimp only
    split
    · exact .inl rfl
    · next b _ =>
      refine .inr ⟨start - r.displacement start, (b.map Buffer.pairs).getD #[], ?_⟩
      rcases r.search mode limits i (r.view t start) (start - r.displacement start)
        ((b.map Buffer.pairs).getD #[]) with ⟨outcome, r', i'⟩
      cases outcome <;> rfl

/-- An execution changes the record by a compilation, and then at most by a search. -/
theorem record_execute (r : Record) (g : Generator) (limits : Limits) (i : Interrupts) (t : Text)
    (start : Nat) (buffer : Option Buffer) :
    let r₁ := (r.compileIfNecessary (modeFor buffer) t.width g).2
    (r.execute g limits i t start buffer).record = r₁ ∨
      ∃ place pairs, (r.execute g limits i t start buffer).record =
        (r₁.search (modeFor buffer) limits i (r₁.view t start) place pairs).2.1 := by
  rw [execute_eq]
  rcases r.compileIfNecessary (modeFor buffer) t.width g with ⟨_ | _, r₁⟩
  · exact .inl rfl
  · exact r₁.executeCompiled_record (modeFor buffer) limits i t start buffer

theorem Counted.search (h : r.Counted) (pairs : Array Pair) :
    (r.search mode limits i t start pairs).2.1.Counted := by
  rcases r.search_record mode limits i t start pairs with hsame | ⟨c, hslot, hset⟩
  · rw [hsame]
    exact h
  · rw [hset]
    refine h.withSlots ?_
    intro mode' width' c' hc'
    by_cases hplace : (mode, t.width) = (mode', width')
    · cases hplace
      exact ⟨c, hslot⟩
    · rw [CodeSlots.get_set_of_ne _ _ hplace] at hc'
      exact ⟨c', hc'⟩

/-- No execution changes what a record knows of its groups. -/
theorem Counted.execute (h : r.Counted) (g : Generator) :
    (r.execute g limits i t start buffer).record.Counted := by
  have hcompiled := h.compileIfNecessary (modeFor buffer) t.width g
  rcases r.record_execute g limits i t start buffer with hsame | ⟨place, pairs, hsearch⟩
  · rw [hsame]
    exact hcompiled
  · rw [hsearch]
    exact hcompiled.search pairs

/-- Records know their groups, whatever generators they are compiled with. -/
def Invariant.counted : Invariant where
  holds := Counted
  permits _ := True
  fresh := counted_fresh
  mark _ h _ := ⟨h.literal, h.code⟩
  compile g _ _ h mode width := h.compile mode width g
  execute g _ _ h _ _ _ _ _ := h.execute g

/-! ### Records with candid code -/

/-- Code stays candid however often it is run. -/
theorem candid_searchCode {c : Code} {tables : Array CharTable} {pairs : Array Pair}
    (h : c.Candid) (n : Nat) : (searchCode tables limits t start pairs n c i).2.1.Candid := by
  induction n generalizing c i with
  | zero => exact h
  | succ n ih =>
    rw [searchCode]
    have hnext : (c.search tables limits i.requested t start pairs).2.Candid := h.search
    rcases hsearch : c.search tables limits i.requested t start pairs with ⟨outcome, c'⟩
    rw [hsearch] at hnext
    cases outcome with
    | interrupted =>
      dsimp only
      rcases i.poll with ⟨_ | _, i'⟩
      · exact ih hnext
      · exact hnext
    | matched | noMatch | failed => exact hnext

theorem Candid.search (h : r.Candid) (pairs : Array Pair) :
    (r.search mode limits i t start pairs).2.1.Candid := by
  rcases r.search_record mode limits i t start pairs with hsame | ⟨c, hslot, hset⟩
  · rw [hsame]
    exact h
  · rw [hset]
    intro mode' width' c' hc'
    by_cases hplace : (mode, t.width) = (mode', width')
    · cases hplace
      rw [CodeSlots.get_set_self] at hc'
      obtain rfl := Option.some.inj hc'
      exact candid_searchCode (h _ _ c hslot) (maxRuns limits)
    · rw [CodeSlots.get_set_of_ne _ _ hplace] at hc'
      exact h mode' width' c' hc'

/-- No execution changes that the code of a record is candid. -/
theorem Candid.execute (h : r.Candid) (hg : g.Candid) :
    (r.execute g limits i t start buffer).record.Candid := by
  have hcompiled := h.compileIfNecessary hg (modeFor buffer) t.width
  rcases r.record_execute g limits i t start buffer with hsame | ⟨place, pairs, hsearch⟩
  · rw [hsame]
    exact hcompiled
  · rw [hsearch]
    exact hcompiled.search pairs

/-- Records that hold candid code only. -/
def Invariant.candid : Invariant where
  holds := Record.Candid
  permits := Generator.Candid
  fresh := allCode_fresh Code.Candid
  mark _ h _ := h
  compile _ hg _ h mode width := AllCode.compile h hg.code mode width
  execute _ hg _ h _ _ _ _ _ := h.execute hg

/-! ### Successes -/

/-- What is found of a record that has been compiled for a mode and a width: the text to search for,
if nothing in its source is special, case counts and a match may begin anywhere, and else code in
the slot. -/
structure Completes (r : Record) (mode : Mode) (width : Width) (r' : Record) : Prop where
  key : r'.key = r.key
  marked : r'.marked = r.marked
  again : r.isCompiled mode width = true → r' = r
  literal : r.literalEligible = true →
    r'.literal = some (.ofSource r.source) ∧ r'.slots = r.slots
  slot : r.literalEligible = false →
    r'.literal = r.literal ∧ (r'.slots.get mode width).isSome = true
  others : ∀ mode' width', (mode, width) ≠ (mode', width') →
    r'.slots.get mode' width' = r.slots.get mode' width'
  tables : ∃ more, r'.tables = r.tables ++ more
  groups : ∃ p, parse r.source r.flags = .ok p ∧ r'.groups = p.groups

/-- An empty slot is filled. -/
theorem fill_of_none (r : Record) (c : Code) (hempty : r.slots.get mode width = none) :
    r.fill mode width c = { r with slots := r.slots.set mode width c } := by
  rw [fill, hempty]

/-- A record that was compiled already. -/
theorem Counted.completes_self (h : r.Counted) (hcompiled : r.isCompiled mode width = true) :
    r.Completes mode width r := by
  refine ⟨rfl, rfl, fun _ => rfl, fun heligible => ⟨?_, rfl⟩, fun hnot => ⟨rfl, ?_⟩,
    fun _ _ _ => rfl, ⟨#[], Array.append_empty.symm⟩, h.groups_of_isCompiled hcompiled⟩
  · cases hliteral : r.literal with
    | some l => rw [(h.literal l hliteral).2.1]
    | none =>
      rw [isCompiled, hliteral] at hcompiled
      obtain ⟨c, hc⟩ := Option.isSome_iff_exists.1 hcompiled
      exact absurd heligible (Bool.eq_false_iff.1 (h.code mode width c hc).1)
  · cases hliteral : r.literal with
    | some l => exact absurd (h.literal l hliteral).1 (Bool.eq_false_iff.1 hnot)
    | none =>
      rw [isCompiled, hliteral] at hcompiled
      exact hcompiled

/-- **What a success leaves**, be it that the record is compiled now or that it was before. -/
theorem Counted.completes (h : r.Counted) (hg : g.Appends)
    (hok : (r.compileIfNecessary mode width g).1 = .ok ()) :
    r.Completes mode width (r.compileIfNecessary mode width g).2 := by
  cases hcompiled : r.isCompiled mode width with
  | true =>
    rw [Record.compileIfNecessary, if_pos hcompiled]
    exact h.completes_self hcompiled
  | false =>
    have hnew {r' : Record} : r.isCompiled mode width = true → r' = r := by
      intro hold
      rw [hcompiled] at hold
      cases hold
    rw [compileIfNecessary_eq hcompiled] at hok ⊢
    have hends := r.compiling mode width g
    rcases hx : r.compile mode width g with ⟨result, r₁⟩
    rw [hx] at hends hok
    cases hends with
    | malformed | refused => cases hok
    | searched hsome =>
      rw [isCompiled, hsome] at hcompiled
      cases hcompiled
    | literal hnone heligible =>
      obtain ⟨p, hparse, hgroups⟩ := parse_of_eligible heligible
      exact ⟨rfl, rfl, hnew, fun _ => ⟨rfl, rfl⟩,
        fun hnot => absurd heligible (Bool.eq_false_iff.1 hnot), fun _ _ _ => rfl,
        ⟨#[], Array.append_empty.symm⟩, p, hparse, hgroups.symm⟩
    | @filled p c tables hnone heligible hparse hgenerate =>
      have hempty : r.slots.get mode width = none := by
        rw [isCompiled, hnone] at hcompiled
        exact Option.isNone_iff_eq_none.1 (Option.isSome_eq_false_iff.1 hcompiled)
      obtain ⟨more, hmore⟩ := hg (r.anchoredIfSticky p) mode width r.flags r.tables
      rw [hgenerate] at hmore
      dsimp only
      rw [fill_of_none { r with tables, groups := p.groups } c hempty]
      refine ⟨rfl, rfl, hnew, fun hliteral => absurd hliteral (Bool.eq_false_iff.1 heligible),
        fun _ => ⟨rfl, ?_⟩, ?_, ⟨more, hmore⟩, p, hparse, rfl⟩
      · rw [CodeSlots.get_set_self]
        rfl
      · intro mode' width' hne
        exact CodeSlots.get_set_of_ne r.slots c hne

end Record

end RegexEngine

import RegexEngine.Proofs.Engine.Literal
import RegexEngine.Proofs.Engine.Reports
import RegexEngine.Proofs.Match.Modes

/-!
# Executions that agree

What an execution reports depends on the units of the text, not on its width, and whether there is
a match does not depend on the buffer that the offsets go to.  This holds of all ways to match: the
search for a literal, rows of tests and programs.

* `Record.Paired` — two records that hold code for the same pattern.
* `Record.Sound.paired` — **records for one source and the same flags do, once they are compiled.**
* `Record.searchCode_of_answer` — while no interrupt is raised, code that answers is run once.
* `Record.Sound.execute_congr` — executions agree where the searches do.
* `Record.Sound.execute_units` — **executions over texts with the same units agree.**
* `Record.Sound.execute_matchOnly` — **executions without a buffer agree with those with one.**
-/

namespace RegexEngine

/-! ### Code for the same pattern -/

namespace Options

variable {o : Options} {p : Pattern} {mode : Mode} {width width' : Width} {flags : Flags}
  {tables tables' : Array CharTable} {c c' : Code} {limits : Limits} {interrupted : Bool}
  {t t' : Text} {start : Nat} {pairs : Array Pair}

/-- **Code for two widths finds the same** in texts with the same units. -/
theorem Makes.search_units (h : o.Makes p mode width flags tables c)
    (h' : o.Makes p mode width' flags tables' c') (hwidth : t.width = width)
    (hwidth' : t'.width = width') (hunits : t'.units = t.units) :
    (c'.search tables' limits interrupted t' start pairs).1 =
      (c.search tables limits interrupted t start pairs).1 := by
  have hsuits : t.Suits (width == .latin1) (width' == .latin1) :=
    Text.suits_of_narrow (fun hn => hwidth.trans (beq_iff_eq.1 hn))
      (fun hn => hwidth'.trans (beq_iff_eq.1 hn)) hunits
  -- the tree is straight for both widths or for none
  have hrel : Option.Rel (Sequence.Same t) (o.row? p.root flags width)
      (o.row? p.root flags width') := same_row hsuits
  cases h with
  | sequence hrow =>
    cases h' with
    | sequence hrow' =>
      rw [hrow, hrow'] at hrel
      cases hrel with
      | some hsame => exact hsame.search_eq hunits start pairs interrupted
    | program hrow' hcompile' htables' =>
      rw [hrow, hrow'] at hrel
      cases hrel
  | program hrow hcompile htables =>
    cases h' with
    | sequence hrow' =>
      rw [hrow, hrow'] at hrel
      cases hrel
    | program hrow' hcompile' htables' =>
      refine Machine.Abreast.search_eq (Machine.Twin.abreast ?_) start pairs
      exact Pattern.twin_of_compile hcompile hcompile' rfl rfl htables rfl htables' hwidth hwidth'
        hunits rfl rfl

/-- **Code that need not report captures finds matches where the other one does.** -/
theorem Makes.found?_search (h : o.Makes p .normal width flags tables c)
    (h' : o.Makes p .matchOnly width flags tables' c') (hwidth : t.width = width)
    (pairs' : Array Pair) {b : Bool}
    (hb : (c.search tables limits interrupted t start pairs).1.found? = some b) :
    (c'.search tables' limits interrupted t start pairs').1.found? = some b := by
  cases h with
  | sequence hrow =>
    cases h' with
    | sequence hrow' =>
      obtain rfl := Option.some.inj (hrow.symm.trans hrow')
      exact (Sequence.found?_search _ t start pairs pairs' interrupted).trans hb
    | program hrow' hcompile' htables' =>
      rw [hrow] at hrow'
      cases hrow'
  | program hrow hcompile htables =>
    cases h' with
    | sequence hrow' =>
      rw [hrow] at hrow'
      cases hrow'
    | program hrow' hcompile' htables' =>
      refine Machine.Imitates.found?_search ?_ pairs' hb
      exact Pattern.imitates_of_compile hcompile hcompile' rfl htables rfl htables' hwidth hwidth
        rfl rfl rfl

end Options

/-! ### Records for the same pattern -/

namespace Record

/-- Two records search for the same literal, or hold code for the same pattern in two slots. -/
inductive Paired (o : Options) (r r' : Record) (mode mode' : Mode) (width width' : Width) : Prop
  | literal {source : String} (h : r.literal = some (.ofSource source))
    (h' : r'.literal = some (.ofSource source))
  | code {p : Pattern} {flags : Flags} {c c' : Code} (hnone : r.literal = none)
    (hnone' : r'.literal = none) (hslot : r.slots.get mode width = some c)
    (hslot' : r'.slots.get mode' width' = some c') (h : o.Makes p mode width flags r.tables c)
    (h' : o.Makes p mode' width' flags r'.tables c')

variable {o : Options} {r r' : Record} {mode mode' : Mode} {width width' : Width}

/-- **Records for one source and the same flags hold code for the same pattern**, once they are
compiled. -/
theorem Sound.paired (h : r.Sound o) (h' : r'.Sound o) (hsource : r'.source = r.source)
    (hflags : r'.flags = r.flags) (hcompiled : r.isCompiled mode width = true)
    (hcompiled' : r'.isCompiled mode' width' = true) :
    r'.groups = r.groups ∧ Paired o r r' mode mode' width width' := by
  have heligible := literalEligible_congr hflags hsource
  rcases h.cases hcompiled with
      ⟨he, hliteral, hgroups⟩ | ⟨he, hnone, p, c, hparse, hgroups, hslot, hmakes⟩ <;>
    rcases h'.cases hcompiled' with
      ⟨he', hliteral', hgroups'⟩ | ⟨he', hnone', p', c', hparse', hgroups', hslot', hmakes'⟩
  · rw [hsource] at hliteral'
    exact ⟨hgroups'.trans hgroups.symm, .literal hliteral hliteral'⟩
  · rw [heligible, he] at he'
    cases he'
  · rw [heligible, he] at he'
    cases he'
  · rw [hsource, hflags, hparse] at hparse'
    obtain rfl := Except.ok.inj hparse'
    rw [anchoredIfSticky_congr hflags, hflags] at hmakes'
    exact ⟨hgroups'.trans hgroups.symm, .code hnone hnone' hslot hslot' hmakes hmakes'⟩

section Searches

variable {limits : Limits} {t t' : Text} {start : Nat} {pairs pairs' : Array Pair} {c c' : Code}
  {tables tables' : Array CharTable} {i i' : Interrupts}

/-! ### Runs of code -/

/-- Steady code that finds the same is interrupted at the same places. -/
theorem searchCode_congr (hc : c.Steady) (hc' : c'.Steady)
    (h : ∀ interrupted, (c'.search tables' limits interrupted t' start pairs).1 =
      (c.search tables limits interrupted t start pairs).1) (n : Nat) :
    (searchCode tables' limits t' start pairs n c' i).1 =
      (searchCode tables limits t start pairs n c i).1 := by
  induction n generalizing i with
  | zero => rfl
  | succ n ih =>
    rw [searchCode_succ hc, searchCode_succ hc', h]
    cases (c.search tables limits i.requested t start pairs).1 with
    | interrupted =>
      dsimp only
      rcases i.poll with ⟨_ | _, i'⟩
      · exact ih
      · rfl
    | _ => rfl

/-- Code that is run again and again ends as one of its runs, or without an answer. -/
theorem searchCode_cases (hc : c.Steady) (tables : Array CharTable) (limits : Limits)
    (i : Interrupts) (t : Text) (start : Nat) (pairs : Array Pair) (n : Nat) :
    (∃ interrupted, (searchCode tables limits t start pairs n c i).1 =
      (c.search tables limits interrupted t start pairs).1) ∨
    (searchCode tables limits t start pairs n c i).1 = .failed .outOfSteps ∨
    (searchCode tables limits t start pairs n c i).1 = .failed (.error .interrupted) := by
  induction n generalizing i with
  | zero => exact Or.inr (Or.inl rfl)
  | succ n ih =>
    rw [searchCode_succ hc]
    cases houtcome : (c.search tables limits i.requested t start pairs).1 with
    | interrupted =>
      dsimp only
      rcases i.poll with ⟨_ | _, i'⟩
      · exact ih i'
      · exact Or.inr (Or.inr rfl)
    | _ => exact Or.inl ⟨i.requested, houtcome.symm⟩

/-- While the flag is clear, code that answers is run once. -/
theorem searchCode_of_answer (hi : i.requested = false)
    (h : (c.search tables limits false t start pairs).1 ≠ .interrupted) (n : Nat) :
    (searchCode tables limits t start pairs (n + 1) c i).1 =
      (c.search tables limits false t start pairs).1 := by
  rw [searchCode, hi]
  rcases hx : c.search tables limits false t start pairs with ⟨outcome, c'⟩
  rw [hx] at h
  cases outcome with
  | interrupted => exact absurd rfl h
  | _ => rfl

/-- Code that reports interrupts although none is raised is run until the runs are used up. -/
theorem searchCode_of_interrupted (hc : c.Steady) (hi : i.requested = false)
    (h : (c.search tables limits false t start pairs).1 = .interrupted) (n : Nat) :
    (searchCode tables limits t start pairs n c i).1 = .failed .outOfSteps := by
  induction n with
  | zero => rfl
  | succ n ih =>
    rw [searchCode_succ hc, hi, h]
    dsimp only
    rw [Interrupts.poll, hi]
    exact ih

/-- While the flag is clear, neither the callback nor the number of runs that are left matters. -/
theorem searchCode_of_clear (hc : c.Steady) (hi : i.requested = false)
    (hi' : i'.requested = false) (n n' : Nat) :
    (searchCode tables limits t start pairs (n' + 1) c i').1 =
      (searchCode tables limits t start pairs (n + 1) c i).1 := by
  by_cases h : (c.search tables limits false t start pairs).1 = .interrupted
  · rw [searchCode_of_interrupted hc hi h, searchCode_of_interrupted hc hi' h]
  · rw [searchCode_of_answer hi h, searchCode_of_answer hi' h]

/-- While the flag is clear, an answer is that of the first run. -/
theorem found?_searchCode (hc : c.Steady) (hi : i.requested = false) {n : Nat} {b : Bool}
    (h : (searchCode tables limits t start pairs n c i).1.found? = some b) :
    (c.search tables limits false t start pairs).1.found? = some b := by
  by_cases hrun : (c.search tables limits false t start pairs).1 = .interrupted
  · rw [searchCode_of_interrupted hc hi hrun] at h
    cases h
  · cases n with
    | zero => cases h
    | succ n => rwa [searchCode_of_answer hi hrun] at h

theorem searchCode_of_found? {n : Nat} {b : Bool} (hi : i.requested = false)
    (h : (c.search tables limits false t start pairs).1.found? = some b) :
    (searchCode tables limits t start pairs (n + 1) c i).1.found? = some b := by
  have hrun : (c.search tables limits false t start pairs).1 ≠ .interrupted := by
    intro hinterrupted
    rw [hinterrupted] at h
    cases h
  rwa [searchCode_of_answer hi hrun]

/-! ### Searches of records -/

/-- **Paired records find the same** in texts with the same units. -/
theorem Paired.search_units (h : Paired o r r' mode mode t.width t'.width)
    (hunits : t'.units = t.units) :
    (r'.search mode limits i t' start pairs).1 = (r.search mode limits i t start pairs).1 := by
  rw [search, search]
  cases h with
  | literal h h' =>
    rw [h, h']
    dsimp only
    rw [Literal.find?_ofSource, Literal.find?_ofSource, Text.find?_congr hunits]
    cases t.find? _ start <;> rfl
  | code hnone hnone' hslot hslot' h h' =>
    rw [hnone, hnone', hslot, hslot']
    dsimp only
    exact searchCode_congr h.steady h'.steady
      (fun interrupted => h.search_units h' rfl rfl hunits) _

/-- **Paired records find matches at the same places**, whether or not they report captures. -/
theorem Paired.found?_search (h : Paired o r r' .normal .matchOnly t.width t.width)
    (hi : i.requested = false) (pairs' : Array Pair) {b : Bool}
    (hb : (r.search .normal limits i t start pairs).1.found? = some b) :
    (r'.search .matchOnly limits i t start pairs').1.found? = some b := by
  rw [search] at hb ⊢
  cases h with
  | literal h h' =>
    rw [h] at hb
    rw [h']
    dsimp only at hb ⊢
    cases hfind : Literal.find? _ t start <;> rw [hfind] at hb <;> exact hb
  | code hnone hnone' hslot hslot' h h' =>
    rw [hnone, hslot] at hb
    rw [hnone', hslot']
    exact searchCode_of_found? hi (h.found?_search h' rfl pairs' (found?_searchCode h.steady hi hb))

end Searches

/-! ### Executions over texts with the same units -/

section Executions

variable {limits : Limits} {t t' : Text} {start : Nat} {i i' : Interrupts}
  {buffer : Option Buffer}

theorem units_view (r : Record) (hunits : t'.units = t.units) (start : Nat) :
    (r.view t' start).units = (r.view t start).units := by
  rw [view, view]
  split
  · simp only [Text.drop, hunits]
  · exact hunits

theorem width_view (r : Record) (t : Text) (start : Nat) : (r.view t start).width = t.width := by
  rw [view]
  split <;> rfl

/-- Two records that are compiled for one source and the same flags, each for a width. -/
structure Siblings (o : Options) (r r' : Record) (mode : Mode) (width width' : Width) : Prop where
  sound : r.Sound o
  sound' : r'.Sound o
  source : r'.source = r.source
  flags : r'.flags = r.flags
  isCompiled : r.isCompiled mode width = true
  isCompiled' : r'.isCompiled mode width' = true

theorem Siblings.paired (h : Siblings o r r' mode width width') :
    r'.groups = r.groups ∧ Paired o r r' mode mode width width' :=
  h.sound.paired h.sound' h.source h.flags h.isCompiled h.isCompiled'

/-- **Executions for one source and the same flags agree where the searches do**, whatever has
happened to the records before. -/
theorem Sound.execute_congr (h : r.Sound o) (h' : r'.Sound o) (hsource : r'.source = r.source)
    (hflags : r'.flags = r.flags) (hsize : t'.size = t.size)
    (hsearch : ∀ {r₁ r₁' : Record}, r₁.flags = r.flags →
      Siblings o r₁ r₁' (modeFor buffer) t.width t'.width → ∀ place pairs,
        (r₁'.search (modeFor buffer) limits i (r₁'.view t' start) place pairs).1 =
          (r₁.search (modeFor buffer) limits i (r₁.view t start) place pairs).1) :
    (r'.execute o.generator limits i t' start buffer).result =
        (r.execute o.generator limits i t start buffer).result ∧
      (r'.execute o.generator limits i t' start buffer).buffer =
        (r.execute o.generator limits i t start buffer).buffer := by
  have hcompiles := h.compiles_ifNecessary (modeFor buffer) t.width
  have hcompiles' := h'.compiles_ifNecessary (modeFor buffer) t'.width
  have hanswer := hcompiles'.answer.trans
    ((answer_congr hflags hsource _ _).trans (answer_width o r (modeFor buffer) t.width t'.width))
  rw [← hcompiles.answer] at hanswer
  rw [execute_eq, execute_eq]
  rcases hx : r.compileIfNecessary (modeFor buffer) t.width o.generator with ⟨a, r₁⟩
  rcases hy : r'.compileIfNecessary (modeFor buffer) t'.width o.generator with ⟨a', r₁'⟩
  rw [hx] at hcompiles hanswer
  rw [hy] at hcompiles' hanswer
  cases hanswer
  cases a with
  | error e => exact ⟨rfl, rfl⟩
  | ok _ =>
    have hsiblings : Siblings o r₁ r₁' (modeFor buffer) t.width t'.width :=
      ⟨hcompiles.sound, hcompiles'.sound,
        hcompiles'.source.trans (hsource.trans hcompiles.source.symm),
        hcompiles'.flags.trans (hflags.trans hcompiles.flags.symm), hcompiles.isCompiled rfl,
        hcompiles'.isCompiled rfl⟩
    refine executeCompiled_congr hsiblings.paired.1 hsiblings.flags hsize fun pairs _ => ?_
    exact hsearch hcompiles.flags hsiblings _ pairs

/-- **Executions over texts with the same units agree.** -/
theorem Sound.execute_units (h : r.Sound o) (h' : r'.Sound o) (hsource : r'.source = r.source)
    (hflags : r'.flags = r.flags) (hunits : t'.units = t.units) :
    (r'.execute o.generator limits i t' start buffer).result =
        (r.execute o.generator limits i t start buffer).result ∧
      (r'.execute o.generator limits i t' start buffer).buffer =
        (r.execute o.generator limits i t start buffer).buffer := by
  refine h.execute_congr h' hsource hflags (congrArg Array.size hunits) fun {r₁ r₁'} _ hs _ _ => ?_
  have hpaired := hs.paired.2
  rw [← width_view r₁ t start, ← width_view r₁' t' start] at hpaired
  refine hpaired.search_units ?_
  rw [view_congr hs.flags]
  exact units_view r₁ hunits start

/-! ### Executions without a buffer -/

/-- The status where there is a match, and where there is none. -/
def statusOf : Bool → Status
  | true => .success
  | false => .notFound

/-- What an execution with a buffer has found that reports a status. -/
theorem found?_of_executeCompiled {b : Buffer} {status : Status}
    (h : (r.executeCompiled mode limits i t start (some b)).result = .ok status) :
    checkBounds t start = .ok () ∧ ∃ found pairs, status = statusOf found ∧
      (r.search mode limits i (r.view t start) (start - r.displacement start) pairs).1.found? =
        some found := by
  rw [executeCompiled] at h
  cases hbounds : checkBounds t start with
  | error e =>
    rw [hbounds] at h
    cases h
  | ok _ =>
    refine ⟨rfl, ?_⟩
    rw [hbounds] at h
    dsimp only at h
    cases hprepare : r.prepare (some b) with
    | error f =>
      rw [hprepare] at h
      cases h
    | ok buffer =>
      rw [hprepare] at h
      dsimp only at h
      rcases hx : r.search mode limits i (r.view t start) (start - r.displacement start)
        ((buffer.map Buffer.pairs).getD #[]) with ⟨outcome, r₁, i₁⟩
      rw [hx] at h
      cases outcome with
      | matched pairs =>
        refine ⟨true, _, ?_, by rw [hx]; rfl⟩
        -- a match that lies in the text is a success, and any other one is an error
        cases buffer with
        | none => exact (Except.ok.inj h).symm
        | some b =>
          dsimp only [report] at h
          split at h
          · exact (Except.ok.inj h).symm
          · cases h
      | noMatch => exact ⟨false, _, (Except.ok.inj h).symm, by rw [hx]; rfl⟩
      | interrupted => cases h
      | failed f => cases h

/-- What an execution without a buffer reports. -/
theorem executeCompiled_of_found? (hbounds : checkBounds t start = .ok ()) {found : Bool}
    (h : (r.search mode limits i (r.view t start) (start - r.displacement start) #[]).1.found? =
      some found) :
    (r.executeCompiled mode limits i t start none).result = .ok (statusOf found) := by
  rw [executeCompiled, hbounds]
  dsimp only [prepare, Option.map, Option.getD]
  rcases hx : r.search mode limits i (r.view t start) (start - r.displacement start) #[] with
    ⟨outcome, r₁, i₁⟩
  rw [hx] at h
  cases outcome <;> cases h <;> rfl

/-- **An execution without a buffer has the status of one with a buffer**, if that has one. -/
theorem Sound.execute_matchOnly (h : r.Sound o) (h' : r'.Sound o) (hsource : r'.source = r.source)
    (hflags : r'.flags = r.flags) (hi : i.requested = false) {b : Buffer} {status : Status}
    (hstatus : (r.execute o.generator limits i t start (some b)).result = .ok status) :
    (r'.execute o.generator limits i t start none).result = .ok status := by
  have hcompiles := h.compiles_ifNecessary .normal t.width
  have hcompiles' := h'.compiles_ifNecessary .matchOnly t.width
  rw [execute_eq] at hstatus ⊢
  dsimp only [modeFor, Option.isSome] at hstatus ⊢
  rw [if_pos rfl] at hstatus
  rw [if_neg Bool.false_ne_true]
  rcases hx : r.compileIfNecessary .normal t.width o.generator with ⟨a, r₁⟩
  rcases hy : r'.compileIfNecessary .matchOnly t.width o.generator with ⟨a', r₁'⟩
  rw [hx] at hcompiles hstatus
  rw [hy] at hcompiles'
  cases a with
  | error e => cases hstatus
  | ok _ =>
    -- what was compiled with captures can be compiled without them
    have hanswer := hcompiles'.answer.trans ((answer_congr hflags hsource _ _).trans
      (answer_matchOnly hcompiles.answer.symm))
    cases hanswer
    have hsource₁ := hcompiles'.source.trans (hsource.trans hcompiles.source.symm)
    have hflags₁ := hcompiles'.flags.trans (hflags.trans hcompiles.flags.symm)
    obtain ⟨-, hpaired⟩ := hcompiles.sound.paired hcompiles'.sound hsource₁ hflags₁
      (hcompiles.isCompiled rfl) (hcompiles'.isCompiled rfl)
    obtain ⟨hbounds, found, pairs, rfl, hfound⟩ := found?_of_executeCompiled hstatus
    rw [← width_view r₁ t start] at hpaired
    refine executeCompiled_of_found? hbounds ?_
    rw [view, displacement, hflags₁]
    exact hpaired.found?_search hi #[] hfound

end Executions

/-! ### All records of an engine -/

/-- A program in a slot for executions without a buffer stores no captures, unless a back-reference
reads them. -/
theorem Sound.stores_of_slot (h : r.Sound o) {prog : Program}
    (hslot : r.slots.get .matchOnly width = some (.program prog))
    (hback : ∀ p, parse r.source r.flags = .ok p → p.root.hasBackRefs = false) {j : Instr}
    (hj : j ∈ prog.code) : j.stores = false := by
  obtain ⟨-, p, hparse, -, hmakes⟩ := h.code _ _ _ hslot
  have hroot : (r.anchoredIfSticky p).root.hasBackRefs = false := by
    rw [anchoredIfSticky]
    split
    · simp [Pattern.anchored, Node.hasBackRefs, Node.anyHasBackRefs, hback p hparse]
    · exact hback p hparse
  cases hmakes with
  | program hrow hcompile htables => exact Pattern.stores_of_compile hcompile hroot hj

variable {limits : Limits} {i : Interrupts} {t : Text} {start : Nat}

/-- **The width of a text is not observable**: an execution over a text and one over the same units
as UTF-16 units end with the same status or the same error and leave the same offsets. -/
theorem execute_widen (hr : r.Reached o) (hr' : r'.Reached o) (hsource : r'.source = r.source)
    (hflags : r'.flags = r.flags) (limits : Limits) (i : Interrupts) (t : Text) (start : Nat)
    (buffer : Option Buffer) :
    (r'.execute o.generator limits i t.widen start buffer).result =
        (r.execute o.generator limits i t start buffer).result ∧
      (r'.execute o.generator limits i t.widen start buffer).buffer =
        (r.execute o.generator limits i t start buffer).buffer :=
  hr.sound.execute_units hr'.sound hsource hflags rfl

/-- A new record for `(?:(a)|b)*c`. -/
def letters : Record := { source := "(?:(a)|b)*c", flags := .empty }

theorem reached_letters : letters.Reached {} := .fresh _ _

/-- What executions of that record over `abc` report; the second iteration of the loop forgets the
group. -/
theorem execute_widen_letters :
    let t : Text := .ofUnits .latin1 #[97, 98, 99]
    let e := letters.execute (Options.generator {}) {} {} t 0 (some { fixed := false })
    let e' := letters.execute (Options.generator {}) {} {} t.widen 0 (some { fixed := false })
    letters.Reached {} ∧ t.width = .latin1 ∧ t.widen.width = .twoByte ∧
      (e.result = .ok .success ∧ e'.result = .ok .success) ∧
      e.buffer = some { fixed := false, pairs := #[.span 0 3, .undefined] } ∧
      e'.buffer = some { fixed := false, pairs := #[.span 0 3, .undefined] } := by
  intro t e e'
  have hstatus : e.result = .ok .success := by decide +kernel
  have hbuffer : e.buffer = some { fixed := false, pairs := #[.span 0 3, .undefined] } := by
    decide +kernel
  obtain ⟨hsame, hsameBuffer⟩ :=
    execute_widen reached_letters reached_letters rfl rfl {} {} t 0 (some { fixed := false })
  exact ⟨reached_letters, rfl, rfl, ⟨hstatus, hsame.trans hstatus⟩, hbuffer,
    hsameBuffer.trans hbuffer⟩

/-- **Whether there is a match does not depend on the buffer**: where an execution with a buffer
ends with a status, one without a buffer ends with the same status, although its program stores no
captures unless a back-reference reads them. -/
theorem execute_none (hr : r.Reached o) (hr' : r'.Reached o) (hsource : r'.source = r.source)
    (hflags : r'.flags = r.flags) (hi : i.requested = false) {b : Buffer} {status : Status}
    (h : (r.execute o.generator limits i t start (some b)).result = .ok status) :
    (r'.execute o.generator limits i t start none).result = .ok status ∧
      ∀ prog, (r'.execute o.generator limits i t start none).record.slots.get .matchOnly t.width =
          some (.program prog) →
        (∀ p, parse r.source r.flags = .ok p → p.root.hasBackRefs = false) →
          ∀ j ∈ prog.code, j.stores = false := by
  refine ⟨hr.sound.execute_matchOnly hr'.sound hsource hflags hi h, fun prog hslot hback j hj => ?_⟩
  have hcompiles := hr'.sound.compiles_ifNecessary .matchOnly t.width
  rw [hr'.sound.execute_record] at hslot
  refine hcompiles.sound.stores_of_slot hslot (fun p hparse => hback p ?_) hj
  rwa [hcompiles.source, hcompiles.flags, hsource, hflags] at hparse

/-- The status of an execution of that record over `abc`. -/
theorem execute_none_letters :
    letters.Reached {} ∧
      (letters.execute (Options.generator {}) {} {} (.ofUnits .latin1 #[97, 98, 99]) 0
          (some { fixed := false })).result = .ok .success ∧
      (letters.execute (Options.generator {}) {} {} (.ofUnits .latin1 #[97, 98, 99]) 0
          none).result = .ok .success ∧
      ∀ prog, (letters.execute (Options.generator {}) {} {} (.ofUnits .latin1 #[97, 98, 99]) 0
          none).record.slots.get .matchOnly .latin1 = some (.program prog) →
        (∀ p, parse letters.source letters.flags = .ok p → p.root.hasBackRefs = false) →
          ∀ j ∈ prog.code, j.stores = false := by
  have hstatus : (letters.execute (Options.generator {}) {} {} (.ofUnits .latin1 #[97, 98, 99]) 0
      (some { fixed := false })).result = .ok .success := by
    decide +kernel
  have hagrees := execute_none reached_letters reached_letters rfl rfl rfl hstatus
  exact ⟨reached_letters, hstatus, hagrees⟩

end Record

end RegexEngine

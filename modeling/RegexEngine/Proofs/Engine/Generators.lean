import RegexEngine.Engine.Scripted
import RegexEngine.Proofs.Engine.Compilation
import RegexEngine.Proofs.Engine.Sticky
import RegexEngine.Proofs.Match.Detection

/-!
# Engines that change their generator

An engine may get another generator at any time, and a record may be compiled with any.  As long as
all of them make code as that of an engine does, the code in each slot was made from source and
flags of the record.  So each slot by itself is that of a sound record, and what is found with it
does not depend on the others.

* `Generator.Own` — the generators that make code as that of an engine does.
* `Record.only` — a record with one of its slots.
* `Record.Made` — every slot holds what some such generator made.
* `Record.Made.execute_tells`, `Record.Made.execute_detects` — **what executions of such records
  tell.**
-/

namespace RegexEngine

/-! ### Generators -/

/-- The generator makes rows of tests and programs as that of some engine does, or says that it can
make no code.  The tables that were there stay where they are. -/
structure Generator.Own (g : Generator) : Prop where
  appends : g.Appends
  makes : ∀ p mode width flags tables c tables',
    g.generate p mode width flags tables = (.ok c, tables') →
      ∃ o : Options, o.Makes p mode width flags tables' c
  refused : ∀ p mode width flags tables e, (g.generate p mode width flags tables).1 = .error e →
    ∃ text, e = .compilation text

/-- **The generator of an engine is one of these.** -/
theorem Generator.own_standard (native : Bool) (maxLength : Nat) :
    (standard native maxLength).Own where
  appends := appends_standard native maxLength
  makes _ _ _ _ _ _ _ h := Options.makes_of_standard h
  refused := (candid_standard native maxLength).refused

/-- So is one that makes no code at all. -/
theorem Generator.own_refusing (text : String) : (refusing text).Own where
  appends _ _ _ _ _ := ⟨#[], Array.append_empty.symm⟩
  makes _ _ _ _ _ _ _ h := by cases h
  refused _ _ _ _ _ _ h := by
    cases h
    exact ⟨text, rfl⟩

theorem Generator.Own.candid {g : Generator} (hg : g.Own) : g.Candid where
  refused := hg.refused
  code p mode width flags tables c h := by
    obtain ⟨o, hmakes⟩ := hg.makes p mode width flags tables c _ (Prod.ext h rfl)
    exact hmakes.candid

/-- **Code finds a match if and only if there is one**, be it made to report captures or not. -/
theorem Options.Makes.found_iff {o : Options} {p : Pattern} {mode : Mode} {flags : Flags}
    {tables : Array CharTable} {c : Code} {t : Text} (h : o.Makes p mode t.width flags tables c)
    (hp : p.Canonical) {limits : Limits} {interrupted : Bool} {start : Nat} {pairs : Array Pair}
    {b : Bool} (hb : (c.search tables limits interrupted t start pairs).1.found? = some b) :
    b = false ↔ Outcome.noMatch.Finds p.groups
      (fun q => p.root.trails t flags.ignoreCase (.init q)) start t.size := by
  -- one pair is enough for the whole match
  have hone : (#[Pair.undefined] : Array Pair).size = 0 + 1 := rfl
  cases h with
  | @sequence s hrow =>
    rw [row?] at hrow
    split at hrow
    · have hs := Sequence.startsWithAnchor_of_lower hrow
      have htrails := hp.trailsAt_of_lower hrow
      have hfinds := Sequence.search_finds hs hone t start interrupted
      rw [funext htrails] at hfinds
      exact hfinds.found_iff ((s.found?_search t start pairs _ interrupted).trans hb) _
    · cases hrow
  | @program prog _ _ _ hrow hcompile htables =>
    let m : Machine := { program := prog, tables, text := t, limits, interrupted }
    have hseeks : m.Seeks 0 fun q => p.root.trails t flags.ignoreCase (.init q) :=
      hp.looks_of_compile hcompile rfl htables rfl
    exact (hseeks.search_finds hone start).found_iff
      ((Machine.Imitates.refl m).found?_search _ hb) _

/-! ### One slot -/

namespace CodeSlots

/-- One of the slots, the others empty. -/
def only (s : CodeSlots) (mode : Mode) (width : Width) : CodeSlots :=
  match s.get mode width with
  | none => {}
  | some c => ({} : CodeSlots).set mode width c

theorem get_only (s : CodeSlots) (mode mode' : Mode) (width width' : Width) :
    (s.only mode width).get mode' width' =
      if (mode, width) = (mode', width') then s.get mode' width' else none := by
  have hempty : ({} : CodeSlots).get mode' width' = none := by cases mode' <;> cases width' <;> rfl
  rw [only]
  by_cases hsame : (mode, width) = (mode', width')
  · cases hsame
    rw [if_pos rfl]
    cases hget : s.get mode width with
    | none => exact hempty
    | some c => exact get_set_self _ _ _ _
  · rw [if_neg hsame]
    cases s.get mode width with
    | none => exact hempty
    | some c => exact (get_set_of_ne _ c hsame).trans hempty

end CodeSlots

namespace Record

variable {o : Options} {r : Record} {mode : Mode} {width : Width} {c : Code} {g : Generator}

/-- The record with one of its slots. -/
def only (r : Record) (mode : Mode) (width : Width) : Record :=
  { r with slots := r.slots.only mode width }

theorem get_only_self (r : Record) (mode : Mode) (width : Width) :
    (r.only mode width).slots.get mode width = r.slots.get mode width :=
  (r.slots.get_only mode mode width width).trans (if_pos rfl)

/-- When a record with one slot is sound. -/
theorem sound_only_iff : (r.only mode width).Sound o ↔
    (∀ l, r.literal = some l → r.literalEligible = true ∧ l = .ofSource r.source ∧ r.groups = 0) ∧
      ∀ c, r.slots.get mode width = some c → r.literalEligible = false ∧
        ∃ p, parse r.source r.flags = .ok p ∧ r.groups = p.groups ∧
          o.Makes (r.anchoredIfSticky p) mode width r.flags r.tables c := by
  constructor
  · intro h
    refine ⟨h.literal, ?_⟩
    intro c hc
    exact h.code mode width c ((r.get_only_self mode width).trans hc)
  · rintro ⟨hliteral, hcode⟩
    refine ⟨hliteral, ?_⟩
    intro mode' width' c hc
    have hget := r.slots.get_only mode mode' width width'
    split at hget
    · next hsame =>
      cases hsame
      exact hcode c (hget.symm.trans hc)
    · cases hget.symm.trans hc

/-- Every slot holds what such a generator made from source and flags, not necessarily the same one
for all of them. -/
def Made (r : Record) : Prop := ∀ mode width, ∃ o, (r.only mode width).Sound o

theorem made_fresh (source : String) (flags : Flags) : Made { source, flags } := by
  intro mode width
  refine ⟨{}, sound_only_iff.2 ⟨?_, ?_⟩⟩
  · intro l h
    cases h
  · intro c h
    cases mode <;> cases width <;> cases h

theorem Made.compile (h : r.Made) (hg : g.Own) (mode : Mode) (width : Width) :
    (r.compile mode width g).2.Made := by
  have hends := r.compiling mode width g
  rcases hx : r.compile mode width g with ⟨result, r₁⟩
  rw [hx] at hends
  intro mode' width'
  obtain ⟨o, ho⟩ := h mode' width'
  obtain ⟨hliteral, hcode⟩ := sound_only_iff.1 ho
  cases hends with
  | searched | malformed => exact ⟨o, ho⟩
  | literal hnone heligible =>
    refine ⟨o, sound_only_iff.2 ⟨fun l hl => ⟨heligible, (Option.some.inj hl).symm, rfl⟩, ?_⟩⟩
    -- no slot of such a record is ever filled
    intro c hc
    rw [(hcode c hc).1] at heligible
    cases heligible
  | @refused p e tables hnone heligible hparse hgenerate =>
    obtain ⟨more, hmore⟩ := hg.appends (r.anchoredIfSticky p) mode width r.flags r.tables
    rw [hgenerate] at hmore
    obtain rfl : tables = r.tables ++ more := hmore
    exact ⟨o, ho.appendTables more⟩
  | @filled p c tables hnone heligible hparse hgenerate =>
    obtain ⟨more, hmore⟩ := hg.appends (r.anchoredIfSticky p) mode width r.flags r.tables
    rw [hgenerate] at hmore
    obtain rfl : tables = r.tables ++ more := hmore
    dsimp only
    obtain ⟨slots, hfill⟩ :=
      fill_eq { r with tables := r.tables ++ more, groups := p.groups } mode width c
    have hcode' : ∀ c', ({ r with tables := r.tables ++ more, groups := p.groups }.fill mode width
        c).slots.get mode' width' = some c' →
          ∃ o : Options, o.Makes (r.anchoredIfSticky p) mode' width' r.flags (r.tables ++ more)
            c' := by
      intro c' hc'
      rcases get_fill hc' with hold | ⟨hsame, rfl⟩
      · obtain ⟨-, p', hparse', -, hmakes⟩ := hcode c' hold
        obtain rfl : p' = p := Except.ok.inj (hparse'.symm.trans hparse)
        exact ⟨o, hmakes.append more⟩
      · cases hsame
        exact hg.makes _ _ _ _ _ _ _ hgenerate
    have hnothing : ∀ l, r.literal = some l → False := by
      intro l hl
      rw [hl] at hnone
      cases hnone
    rw [hfill] at hcode' ⊢
    cases hget : slots.get mode' width' with
    | none =>
      refine ⟨o, sound_only_iff.2 ⟨fun l hl => (hnothing l hl).elim, ?_⟩⟩
      intro c' hc'
      cases hget.symm.trans hc'
    | some c₀ =>
      obtain ⟨o', hmakes⟩ := hcode' c₀ hget
      refine ⟨o', sound_only_iff.2 ⟨fun l hl => (hnothing l hl).elim, ?_⟩⟩
      intro c' hc'
      obtain rfl := Option.some.inj (hget.symm.trans hc')
      exact ⟨heligible, p, hparse, rfl, hmakes⟩

variable {limits : Limits} {i : Interrupts} {t : Text} {start : Nat} {pairs : Array Pair}
  {buffer : Option Buffer}

theorem Made.compileIfNecessary (h : r.Made) (hg : g.Own) (mode : Mode) (width : Width) :
    (r.compileIfNecessary mode width g).2.Made := by
  rw [Record.compileIfNecessary]
  split
  · exact h
  · exact h.compile hg mode width

/-- A search leaves such a record as it is. -/
theorem Made.search_record (h : r.Made) (mode : Mode) :
    (r.search mode limits i t start pairs).2.1 = r := by
  cases hliteral : r.literal with
  | some l => rw [search_of_literal hliteral]
  | none =>
    cases hslot : r.slots.get mode t.width with
    | none => rw [search, hliteral, hslot]
    | some c =>
      obtain ⟨o, ho⟩ := h mode t.width
      obtain ⟨-, p, -, -, hmakes⟩ := (sound_only_iff.1 ho).2 c hslot
      rw [search_of_slot hliteral hslot]
      dsimp only
      rw [searchCode_code hmakes.steady, CodeSlots.set_get hslot]

theorem Made.execute (h : r.Made) (hg : g.Own) :
    (r.execute g limits i t start buffer).record.Made := by
  have hcompiled := h.compileIfNecessary hg (modeFor buffer) t.width
  rcases r.record_execute g limits i t start buffer with hsame | ⟨place, pairs, hsearch⟩
  · rw [hsame]
    exact hcompiled
  · rw [hsearch, hcompiled.search_record]
    exact hcompiled

/-- Records that were compiled with such generators only. -/
def Invariant.made : Invariant where
  holds := Made
  permits := Generator.Own
  fresh := made_fresh
  mark r h marked := by
    intro mode width
    obtain ⟨o, ho⟩ := h mode width
    exact ⟨o, ho.literal, ho.code⟩
  compile g hg _ h mode width := h.compile hg mode width
  execute g hg _ h _ _ _ _ _ := h.execute hg

/-! ### What executions tell -/

/-- A search reads one slot. -/
theorem search_only (r : Record) (mode : Mode) (limits : Limits) (i : Interrupts) (t : Text)
    (start : Nat) (pairs : Array Pair) :
    ((r.only mode t.width).search mode limits i t start pairs).1 =
      (r.search mode limits i t start pairs).1 := by
  have hget := r.get_only_self mode t.width
  cases hliteral : r.literal with
  | some l =>
    have honly : (r.only mode t.width).literal = some l := hliteral
    rw [search_of_literal hliteral, search_of_literal honly]
  | none =>
    cases hslot : r.slots.get mode t.width with
    | none =>
      rw [search, search, hget, hslot, hliteral, show (r.only mode t.width).literal = none from
        hliteral]
    | some c =>
      rw [search_of_slot hliteral hslot,
        search_of_slot (r := r.only mode t.width) hliteral (hget.trans hslot)]
      rfl

/-- So does the execution of a record that is compiled. -/
theorem executeCompiled_only (r : Record) (mode : Mode) (limits : Limits) (i : Interrupts)
    (t : Text) (start : Nat) (buffer : Option Buffer) :
    ((r.only mode t.width).executeCompiled mode limits i t start buffer).result =
        (r.executeCompiled mode limits i t start buffer).result ∧
      ((r.only mode t.width).executeCompiled mode limits i t start buffer).buffer =
        (r.executeCompiled mode limits i t start buffer).buffer := by
  refine executeCompiled_congr rfl rfl rfl ?_
  intro pairs _
  rw [← width_view r t start]
  exact r.search_only mode limits i (r.view t start) (start - r.displacement start) pairs

theorem isCompiled_only (h : r.isCompiled mode width = true) :
    (r.only mode width).isCompiled mode width = true := by
  rw [isCompiled, get_only_self]
  exact h

theorem Literal.found?_search (l : Literal) (t : Text) (start : Nat) (pairs pairs' : Array Pair) :
    (l.search t start pairs').found? = (l.search t start pairs).found? := by
  rw [Literal.search, Literal.search]
  cases l.find? t start <;> rfl

/-- **What a search answers tells whether there is a match**, in either mode. -/
theorem Made.search_found_iff (h : r.Made) (hcompiled : r.isCompiled mode t.width = true) :
    ∃ p, parse r.source r.flags = .ok p ∧ ∀ limits i start pairs b,
      (r.search mode limits i t start pairs).1.found? = some b →
        (b = false ↔ Outcome.noMatch.Finds p.groups
          (fun q => (r.anchoredIfSticky p).root.trails t r.flags.ignoreCase (.init q)) start
          t.size) := by
  obtain ⟨o, ho⟩ := h mode t.width
  rcases ho.cases (isCompiled_only hcompiled) with
    ⟨-, hliteral, -⟩ | ⟨-, hnone, p, c, hparse, -, hslot, hmakes⟩
  · -- a literal is looked for in the same way in both modes
    have hsearched : (r.only mode t.width).isCompiled .normal t.width = true := by
      rw [isCompiled, hliteral]
      rfl
    obtain ⟨p, hparse, -, hfinds⟩ := ho.search_finds hsearched
    refine ⟨p, hparse, ?_⟩
    intro limits i start pairs b hb
    have hnormal := hfinds limits i start
    rw [search_of_literal hliteral] at hnormal
    rw [search_of_literal (r := r) hliteral] at hb
    exact hnormal.found_iff ((Literal.found?_search ..).trans hb) _
  · refine ⟨p, hparse, ?_⟩
    intro limits i start pairs b hb
    obtain ⟨hcanonical, hsame⟩ := canonical_anchoredIfSticky hparse
    rw [get_only_self] at hslot
    rcases search_cases (r := r) hnone hslot hmakes.steady limits i start pairs with
      ⟨interrupted, hsearch⟩ | hsteps | hinterrupted
    · rw [hsearch] at hb
      exact hsame ▸ hmakes.found_iff hcanonical hb
    · rw [hsteps] at hb
      cases hb
    · rw [hinterrupted] at hb
      cases hb

variable {b : Buffer} {a : Status}

/-- An execution that ends with a status has compiled its record and searched with it. -/
theorem Made.exists_compiled (h : r.Made) (hg : g.Own)
    (ha : (r.execute g limits i t start buffer).result = .ok a) :
    ∃ r₁ : Record, r₁.Made ∧ r₁.source = r.source ∧ r₁.flags = r.flags ∧
      r₁.isCompiled (modeFor buffer) t.width = true ∧
        r.execute g limits i t start buffer =
          r₁.executeCompiled (modeFor buffer) limits i t start buffer := by
  have hmade := h.compileIfNecessary hg (modeFor buffer) t.width
  have hkey := r.key_compileIfNecessary (modeFor buffer) t.width g
  have hcompiled : (r.compileIfNecessary (modeFor buffer) t.width g).1 = .ok () →
      (r.compileIfNecessary (modeFor buffer) t.width g).2.isCompiled (modeFor buffer) t.width =
        true := isCompiled_of_ok
  rw [execute_eq] at ha ⊢
  rcases hx : r.compileIfNecessary (modeFor buffer) t.width g with ⟨_ | _, r₁⟩
  · rw [hx] at ha
    cases ha
  · rw [hx] at hmade hkey hcompiled
    exact ⟨r₁, hmade, congrArg Prod.fst hkey, congrArg Prod.snd hkey, hcompiled rfl, rfl⟩

/-- What an execution tells is a matter of its status and its buffer. -/
theorem Execution.Tells.congr {e e' : Execution} {groups first last shift : Nat}
    {trailsAt : Nat → List Trail} (h : e.Tells groups trailsAt first last shift a)
    (hbuffer : e'.buffer = e.buffer) : e'.Tells groups trailsAt first last shift a := by
  cases a with
  | notFound => exact h
  | success =>
    obtain ⟨found, c, hfinds, hc, hpairs⟩ := h
    exact ⟨found, c, hfinds, hbuffer.trans hc, hpairs⟩

/-- **What an execution with a buffer tells of its search**, if it ends with a status. -/
theorem Made.execute_tells (h : r.Made) (hg : g.Own)
    (ha : (r.execute g limits i t start (some b)).result = .ok a) :
    ∃ p, parse r.source r.flags = .ok p ∧
      (r.execute g limits i t start (some b)).Tells p.groups
        (fun q => (r.anchoredIfSticky p).root.trails (r.view t start) r.flags.ignoreCase (.init q))
        (start - r.displacement start) (r.view t start).size (r.displacement start) a := by
  obtain ⟨r₁, hmade, hsource, hflags, hcompiled, hexecute⟩ := h.exists_compiled hg ha
  obtain ⟨o, ho⟩ := hmade .normal t.width
  rw [hexecute] at ha ⊢
  obtain ⟨hresult, hbuffer⟩ := r₁.executeCompiled_only .normal limits i t start (some b)
  obtain ⟨p, hparse, htells⟩ :=
    ho.executeCompiled_tells (isCompiled_only hcompiled) (hresult.trans ha)
  refine ⟨p, by rw [← hsource, ← hflags]; exact hparse, ?_⟩
  have hsame : (r₁.only .normal t.width).flags = r.flags := hflags
  rw [view_congr hsame, displacement_congr hsame, hsame] at htells
  simp only [anchoredIfSticky_congr hsame] at htells
  exact htells.congr hbuffer.symm

/-- **An execution without a buffer that ends with a status tells whether there is a match.** -/
theorem Made.execute_detects (h : r.Made) (hg : g.Own)
    (ha : (r.execute g limits i t start none).result = .ok a) :
    ∃ p, parse r.source r.flags = .ok p ∧
      (a = .notFound ↔ Outcome.noMatch.Finds p.groups
        (fun q => (r.anchoredIfSticky p).root.trails (r.view t start) r.flags.ignoreCase (.init q))
        (start - r.displacement start) (r.view t start).size) := by
  obtain ⟨r₁, hmade, hsource, hflags, hcompiled, hexecute⟩ := h.exists_compiled hg ha
  have hview : r₁.view t start = r.view t start := view_congr hflags t start
  have hshift : r₁.displacement start = r.displacement start := displacement_congr hflags start
  rw [hexecute] at ha
  rw [← width_view r₁ t start] at hcompiled
  obtain ⟨p, hparse, hfound⟩ := hmade.search_found_iff hcompiled
  refine ⟨p, by rw [← hsource, ← hflags]; exact hparse, ?_⟩
  simp only [anchoredIfSticky_congr hflags, hflags, hview] at hfound
  cases hbounds : checkBounds t start with
  | error e =>
    rw [executeCompiled, hbounds] at ha
    cases ha
  | ok _ =>
    obtain ⟨hanswer, -⟩ := executeCompiled_eq hbounds (rfl : r₁.prepare none = .ok none)
      (modeFor none) limits i
    have hresult := congrArg Prod.fst hanswer
    dsimp only [Execution.answer] at hresult
    rw [ha, hview, hshift] at hresult
    have hfound := hfound limits i (start - r.displacement start) #[]
    -- the status is the answer of the search
    cases houtcome : (r₁.search (modeFor none) limits i (r.view t start)
      (start - r.displacement start) #[]).1 with
    | matched found =>
      dsimp only [Option.map, Option.getD] at hresult
      rw [houtcome] at hfound hresult
      cases hresult
      exact iff_of_false (fun hsame => by cases hsame) fun hnone =>
        Bool.false_ne_true ((hfound true rfl).2 hnone).symm
    | noMatch =>
      dsimp only [Option.map, Option.getD] at hresult
      rw [houtcome] at hfound hresult
      cases hresult
      exact iff_of_true rfl ((hfound false rfl).1 rfl)
    | interrupted =>
      dsimp only [Option.map, Option.getD] at hresult
      rw [houtcome] at hresult
      cases hresult
    | failed f =>
      dsimp only [Option.map, Option.getD] at hresult
      rw [houtcome] at hresult
      cases hresult

end Record

end RegexEngine

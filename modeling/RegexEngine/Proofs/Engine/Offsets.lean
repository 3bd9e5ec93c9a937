import RegexEngine.Proofs.Engine.Errors
import RegexEngine.Proofs.Engine.Found
import RegexEngine.Proofs.Match.Visits

/-!
# Reported offsets

An execution that succeeds reports a pair for the match and one for each group of the pattern.  All
of them lie in the text, behind the offset from which it was searched.  A sticky record is run over
the rest of the text, and its pairs are moved back to their places; nothing in this leaves the words
of 32 bits, so the errors that guard against it are never reported.

* `Record.Sound.located_search` — the pairs that a record finds are located.
* `Record.Exact` — no position, no capture and no displacement is cut to 32 bits.
* `Record.execute_located` — **what an execution reports.**
-/

namespace RegexEngine

/-! ### Internal errors -/

/-- The outcome is no report of a state that no call can reach. -/
def Outcome.Sane (x : Outcome) : Prop := ∀ why, x ≠ .failed (.error (.internal why))

theorem Code.Candid.sane_search {c : Code} (h : c.Candid) (tables : Array CharTable)
    (limits : Limits) (interrupted : Bool) (t : Text) (start : Nat) (pairs : Array Pair) :
    (c.search tables limits interrupted t start pairs).1.Sane := by
  intro why hfailed
  cases eq_overRecursed_of_search h hfailed

namespace Record

variable {o : Options} {r : Record} {mode : Mode} {width : Width} {limits : Limits}
  {i : Interrupts} {t : Text} {start : Nat} {pairs found : Array Pair} {c : Code}
  {tables : Array CharTable} {buffer : Option Buffer}

/-! ### Searches -/

/-- A search with a compiled record ends as it should. -/
theorem Sound.sane_search (h : r.Sound o) (hcompiled : r.isCompiled mode t.width = true) :
    (r.search mode limits i t start pairs).1.Sane := by
  intro why
  rcases h.cases hcompiled with ⟨-, hliteral, -⟩ | ⟨-, hnone, p, c, -, -, hslot, hmakes⟩
  · unfold search
    rw [hliteral]
    dsimp only
    split <;> simp
  · rcases search_cases hnone hslot hmakes.steady limits i start pairs with
      ⟨interrupted, hsearch⟩ | hsteps | hinterrupted
    · rw [hsearch]
      exact hmakes.candid.sane_search _ _ _ _ _ _ why
    · rw [hsteps]
      simp
    · rw [hinterrupted]
      simp

/-- **The pairs that a record finds are located.** -/
theorem Sound.located_search (h : r.Sound o)
    (hfound : (r.search .normal limits i t start (Array.replicate r.pairCount .undefined)).1 =
      .matched found) : Located start t.size r.groups found := by
  -- a record that is not compiled finds nothing
  have hcompiled : r.isCompiled .normal t.width = true := by
    by_contra hnot
    rw [isCompiled, Bool.or_eq_true, not_or, Bool.not_eq_true, Bool.not_eq_true,
      Option.isSome_eq_false_iff, Option.isSome_eq_false_iff, Option.isNone_iff_eq_none,
      Option.isNone_iff_eq_none] at hnot
    unfold search at hfound
    rw [hnot.1, hnot.2] at hfound
    cases hfound
  obtain ⟨p, -, hgroups, hfinds⟩ := h.search_finds hcompiled
  rw [hgroups]
  exact (hfound ▸ hfinds limits i start).located

/-! ### Executions -/

/-- A compilation fails because of the pattern only. -/
theorem answer_ne_internal {e : RegexError} (h : r.answer o mode width = .error e) (why : String) :
    e ≠ .internal why := by
  rintro rfl
  rw [answer] at h
  split at h
  · cases h
  · split at h
    · cases h
    · split at h <;> cases h

theorem checkBounds_eq (hsize : t.size ≤ maxTextSize) (hstart : start ≤ t.size) :
    checkBounds t start = .ok () := by
  rw [checkBounds, if_neg (Nat.not_lt.2 hsize), if_neg (Nat.not_lt.2 hstart)]

/-- Where the view of a text begins and ends in the text. -/
theorem view_bounds (r : Record) (hstart : start ≤ t.size) :
    start - r.displacement start + r.displacement start = start ∧
      (r.view t start).size + r.displacement start = t.size := by
  rw [displacement, view]
  split
  · rw [Text.size_drop]
    omega
  · omega

/-- Located pairs are reported at their places in the text. -/
theorem report_of_located {size groups shift : Nat} (h : Located start size groups pairs)
    (hsize : size + shift < 0x80000000) (b : Buffer) :
    ∃ b', report pairs shift (size + shift) (some b) = (.ok .success, some b') ∧
      Located (start + shift) (size + shift) groups b'.pairs := by
  have hmoved : Located (start + shift) (size + shift) groups
      (({ b with pairs } : Buffer).displace shift).pairs := by
    rw [Buffer.displace]
    split
    · next hzero =>
      rw [hzero]
      exact h
    · exact h.displace hsize
  refine ⟨_, ?_, hmoved⟩
  rw [report, if_pos (hmoved.within rfl)]

/-- What an execution reports over a text of `size` units: no state that no call can reach, and
located pairs if it succeeds and was given a buffer. -/
structure Execution.Reports (e : Execution) (start size groups : Nat) (buffer : Option Buffer) :
    Prop where
  sane : ∀ why, e.result ≠ .error (.error (.internal why))
  located : ∀ b, buffer = some b → e.result = .ok .success →
    ∃ b', e.buffer = some b' ∧ Located start size groups b'.pairs

section Reports

variable {e : Execution} {size groups : Nat}

theorem Execution.reports_of_error {f : Failure} (he : e.result = .error f)
    (hf : ∀ why, f ≠ .error (.internal why)) : e.Reports start size groups buffer where
  sane why hwhy := hf why (Except.error.inj (he.symm.trans hwhy))
  located b _ hok := by
    rw [he] at hok
    cases hok

theorem Execution.reports_of_notFound (he : e.result = .ok .notFound) :
    e.Reports start size groups buffer where
  sane why hwhy := by
    rw [he] at hwhy
    cases hwhy
  located b _ hok := by
    rw [he] at hok
    cases hok

theorem Execution.reports_of_success (he : e.result = .ok .success)
    (hlocated : ∀ b, buffer = some b → ∃ b', e.buffer = some b' ∧
      Located start size groups b'.pairs) : e.Reports start size groups buffer where
  sane why hwhy := by
    rw [he] at hwhy
    cases hwhy
  located b hb _ := hlocated b hb

end Reports

/-- What an execution of a compiled record reports if it is given no buffer. -/
theorem Sound.executeCompiled_reports_none (h : r.Sound o)
    (hcompiled : r.isCompiled .matchOnly t.width = true) (hsize : t.size ≤ maxTextSize)
    (hstart : start ≤ t.size) :
    (r.executeCompiled .matchOnly limits i t start none).Reports start t.size r.groups none := by
  rw [← width_view r t start] at hcompiled
  rw [executeCompiled, checkBounds_eq hsize hstart]
  dsimp only [prepare, Option.map, Option.getD]
  have hsane : (r.search .matchOnly limits i (r.view t start) (start - r.displacement start)
      #[]).1.Sane :=
    h.sane_search hcompiled
  rcases hx : r.search .matchOnly limits i (r.view t start) (start - r.displacement start) #[]
    with ⟨outcome, r₁, i₁⟩
  rw [hx] at hsane
  cases outcome with
  | matched found => exact Execution.reports_of_success rfl fun b hb => by cases hb
  | noMatch => exact Execution.reports_of_notFound rfl
  | interrupted => exact Execution.reports_of_error rfl (by simp)
  | failed f => exact Execution.reports_of_error rfl fun why hf => hsane why (by rw [hf])

/-- What an execution of a compiled record reports if it is given a buffer. -/
theorem Sound.executeCompiled_reports_some (h : r.Sound o)
    (hcompiled : r.isCompiled .normal t.width = true) (hsize : t.size ≤ maxTextSize)
    (hstart : start ≤ t.size) (b : Buffer) :
    (r.executeCompiled .normal limits i t start (some b)).Reports start t.size r.groups
      (some b) := by
  obtain ⟨hback, hview⟩ := r.view_bounds hstart
  have hshort : (r.view t start).size + r.displacement start < 0x80000000 :=
    hview ▸ Nat.lt_succ_of_le hsize
  rw [← width_view r t start] at hcompiled
  rw [executeCompiled, checkBounds_eq hsize hstart]
  dsimp only
  rcases r.prepare_cases b with hmisuse | ⟨b₁, hprepare, hpairs⟩
  · rw [hmisuse]
    exact Execution.reports_of_error rfl (by simp)
  rw [hprepare]
  dsimp only [Option.map, Option.getD]
  rw [hpairs]
  have hsane : (r.search .normal limits i (r.view t start) (start - r.displacement start)
      (Array.replicate r.pairCount .undefined)).1.Sane :=
    h.sane_search hcompiled
  have hlocated : ∀ found, (r.search .normal limits i (r.view t start)
      (start - r.displacement start) (Array.replicate r.pairCount .undefined)).1 =
        .matched found →
      Located (start - r.displacement start) (r.view t start).size r.groups found :=
    fun _ => h.located_search
  rcases hx : r.search .normal limits i (r.view t start) (start - r.displacement start)
    (Array.replicate r.pairCount .undefined) with ⟨outcome, r₁, i₁⟩
  rw [hx] at hsane hlocated
  cases outcome with
  | matched found =>
    -- the pairs are moved from their places in the view to those in the text
    obtain ⟨b', hreport, hb'⟩ := report_of_located (hlocated found rfl) hshort b₁
    rw [hview] at hreport hb'
    rw [hback] at hb'
    dsimp only
    rw [hreport]
    exact Execution.reports_of_success rfl fun _ _ => ⟨b', rfl, hb'⟩
  | noMatch => exact Execution.reports_of_notFound rfl
  | interrupted => exact Execution.reports_of_error rfl (by simp)
  | failed f => exact Execution.reports_of_error rfl fun why hf => hsane why (by rw [hf])

/-- What an execution of a compiled record reports. -/
theorem Sound.executeCompiled_reports (h : r.Sound o)
    (hcompiled : r.isCompiled (modeFor buffer) t.width = true) (hsize : t.size ≤ maxTextSize)
    (hstart : start ≤ t.size) :
    (r.executeCompiled (modeFor buffer) limits i t start buffer).Reports start t.size r.groups
      buffer := by
  cases buffer with
  | none => exact h.executeCompiled_reports_none hcompiled hsize hstart
  | some b => exact h.executeCompiled_reports_some hcompiled hsize hstart b

/-! ### Words of 32 bits -/

/-- Nothing in a search of a text from an offset on is changed by the words of 32 bits in which it
is kept: neither positions and captures wherever the machine comes, nor the pairs that are found,
nor those moved to their places in the text.  The pairs that are moved are consistent. -/
structure Exact (r : Record) (limits : Limits) (t : Text) (start : Nat) : Prop where
  stored : ∀ (mode : Mode) (prog : Program) (interrupted : Bool) (base pc pos : Nat)
    (st : Machine.State), r.slots.get mode t.width = some (.program prog) →
      Machine.Visits ⟨prog, r.tables, r.view t start, limits, interrupted⟩
        (start - r.displacement start) base pc pos st → Machine.FitsWords pos st
  moved : ∀ (i : Interrupts) (found : Array Pair),
    (r.search .normal limits i (r.view t start) (start - r.displacement start)
      (Array.replicate r.pairCount .undefined)).1 = .matched found →
      ∀ q ∈ found, q.consistent = true ∧ q.FitsWords ∧
        q.displace (r.displacement start) = q.shift (r.displacement start) ∧
        (q.displace (r.displacement start)).FitsWords

theorem Sound.exact (h : r.Sound o) (hsize : t.size ≤ maxTextSize) (hstart : start ≤ t.size) :
    r.Exact limits t start := by
  obtain ⟨hback, hview⟩ := r.view_bounds hstart
  have hshort : (r.view t start).size + r.displacement start < 0x80000000 :=
    hview ▸ Nat.lt_succ_of_le hsize
  constructor
  · intro mode prog interrupted base pc pos st hslot hvisits
    obtain ⟨-, p, hparse, -, hmakes⟩ := h.code mode t.width _ hslot
    cases hmakes with
    | program hrow hcompile htables =>
      have hp := (canonical_anchoredIfSticky hparse).1
      exact hvisits.fitsWords (hp.wellFormed_of_machine hcompile rfl htables)
        (Nat.lt_of_le_of_lt (Nat.le_add_right _ (r.displacement start)) hshort)
  · intro i found hfound q hq
    obtain ⟨first, hall⟩ := (h.located_search hfound).exists_inside
    obtain ⟨hmoved, hinside⟩ := (hall q hq).displace hshort
    exact ⟨(hall q hq).consistent, (hall q hq).fitsWords (by omega), hmoved,
      hinside.fitsWords hshort⟩

/-! ### All records of an engine -/

/-- **What an execution reports.**  Over a text that is short enough and from an offset in it no
execution ends with an internal error.  One that succeeds with a buffer leaves in it a pair for the
match and one for each group of the pattern, all of them in the text and behind the offset; and
nothing on the way there is cut to 32 bits. -/
theorem execute_located (hr : r.Reached o) (hsize : t.size ≤ maxTextSize) (hstart : start ≤ t.size)
    (limits : Limits) (i : Interrupts) (buffer : Option Buffer) :
    let e := r.execute o.generator limits i t start buffer
    (∀ why, e.result ≠ .error (.error (.internal why))) ∧
      (∀ b, buffer = some b → e.result = .ok .success →
        ∃ p b', parse r.source r.flags = .ok p ∧ e.buffer = some b' ∧
          Located start t.size p.groups b'.pairs) ∧
      e.record.Exact limits t start := by
  have hcompiles := hr.sound.compiles_ifNecessary (modeFor buffer) t.width
  dsimp only
  rw [hr.sound.execute_record, execute_eq]
  rcases hx : r.compileIfNecessary (modeFor buffer) t.width o.generator with ⟨a, r₁⟩
  rw [hx] at hcompiles
  have hexact : r₁.Exact limits t start := hcompiles.sound.exact hsize hstart
  cases a with
  | error f =>
    refine ⟨fun why hwhy => ?_, fun b _ hok => (by cases hok), hexact⟩
    have hcause := Failure.error.inj (Except.error.inj hwhy)
    exact answer_ne_internal hcompiles.answer.symm why hcause
  | ok _ =>
    have hcompiled := hcompiles.isCompiled rfl
    have hreports : (r₁.executeCompiled (modeFor buffer) limits i t start buffer).Reports start
        t.size r₁.groups buffer :=
      hcompiles.sound.executeCompiled_reports hcompiled hsize hstart
    refine ⟨hreports.sane, fun b hb hok => ?_, hexact⟩
    obtain ⟨p, hparse, hgroups⟩ := hcompiles.sound.exists_parse hcompiled
    obtain ⟨b', hb', hlocated⟩ := hreports.located b hb hok
    have hsource : r₁.source = r.source := hcompiles.source
    have hflags : r₁.flags = r.flags := hcompiles.flags
    rw [hsource, hflags] at hparse
    rw [hgroups] at hlocated
    exact ⟨p, b', hparse, hb', hlocated⟩

/-- A new record for `b(?=(c))` that matches at the offset only. -/
def ahead : Record := { source := "b(?=(c))", flags := { sticky := true } }

/-- The group of that record lies behind the match, which ends at offset 2 of `abc`. -/
theorem execute_located_ahead :
    let t : Text := .ofUnits .latin1 #[97, 98, 99]
    let e := ahead.execute (Options.generator {}) {} {} t 1 (some { fixed := false })
    ahead.Reached {} ∧ t.size ≤ maxTextSize ∧ 1 ≤ t.size ∧
      e.result = .ok .success ∧
      e.buffer = some { fixed := false, pairs := #[.span 1 2, .span 2 3] } ∧
      (∀ why, e.result ≠ .error (.error (.internal why))) ∧
      (∃ p b', parse ahead.source ahead.flags = .ok p ∧ e.buffer = some b' ∧
        Located 1 t.size p.groups b'.pairs) ∧
      e.record.Exact {} t 1 := by
  intro t e
  have hreached : ahead.Reached {} := .fresh _ _
  have hthree : t.size = 3 := by simp [t, Text.size, Text.ofUnits]
  have hsize : t.size ≤ maxTextSize := by rw [hthree]; decide
  have hstart : 1 ≤ t.size := by omega
  have hsuccess : e.result = .ok .success := by decide +kernel
  have hbuffer : e.buffer = some { fixed := false, pairs := #[.span 1 2, .span 2 3] } := by
    decide +kernel
  obtain ⟨hsane, hlocated, hexact⟩ :=
    execute_located hreached hsize hstart {} {} (some { fixed := false })
  exact ⟨hreached, hsize, hstart, hsuccess, hbuffer, hsane, hlocated _ rfl hsuccess, hexact⟩

end Record

end RegexEngine

import RegexEngine.Engine.Scripted
import RegexEngine.Proofs.Engine.Reports

/-!
# Why executions are refused

An execution is refused while its record is compiled, because of its arguments, or because the
running code gives up.  Each of these has its own errors; that the source is no pattern is found out
by compiling alone.  This takes for granted that a host keeps to these errors as well.

* `Routine.Candid`, `Generator.Candid` — what is taken for granted of hosts.
* `Generator.candid_standard` — the generator of an engine makes it good.
* `Code.eq_overRecursed_of_search` — running code is refused nothing but more stack.
* `Record.compile_refused` — a record is not compiled because of its source or by the generator.
* `Record.Refusal`, `Record.refusal_of_execute` — **all errors that an execution reports.**
-/

namespace RegexEngine

/-! ### What is taken for granted of hosts -/

/-- A routine that gives up has run out of stack. -/
def Routine.Candid (r : Routine) : Prop :=
  ∀ n interrupted t start pairs e,
    r.run n interrupted t start pairs = .failed (.error e) → e = .overRecursed

/-- Code that gives up has run out of stack.  Where it is not the host's, this is proved below. -/
def Code.Candid : Code → Prop
  | .program _ | .sequence _ => True
  | .hosted r => r.Candid

/-- A generator that makes no code says that none could be made, and what it makes is candid. -/
structure Generator.Candid (g : Generator) : Prop where
  refused : ∀ p mode width flags tables e, (g.generate p mode width flags tables).1 = .error e →
    ∃ text, e = .compilation text
  code : ∀ p mode width flags tables c, (g.generate p mode width flags tables).1 = .ok c → c.Candid

/-- All code that the record holds is candid. -/
def Record.Candid (r : Record) : Prop := r.AllCode Code.Candid

/-! ### Running code -/

theorem Stop.eq_overRecursed_of_toOutcome {s : Stop} {e : RegexError}
    (h : s.toOutcome = .failed (.error e)) : e = .overRecursed := by
  cases s <;> cases h
  rfl

theorem Machine.eq_overRecursed_of_search {m : Machine} {start : Nat} {pairs : Array Pair}
    {e : RegexError} (h : m.search start pairs = .failed (.error e)) : e = .overRecursed := by
  have hfrom : ∀ last room pos failures,
      m.searchFrom last pairs room pos failures = .failed (.error e) → e = .overRecursed := by
    intro last room
    induction room with
    | zero => intro pos failures h; cases h
    | succ room ih =>
      intro pos failures h
      rw [searchFrom] at h
      split at h
      · exact Stop.eq_overRecursed_of_toOutcome h
      · cases h
      · split_ifs at h
        split at h
        · cases h
        · exact ih _ _ h
        · exact Stop.eq_overRecursed_of_toOutcome h
  rw [search] at h
  split at h
  · cases h
  · exact hfrom _ _ _ _ h

/-- A row of tests gives up nothing. -/
theorem Sequence.search_ne_failed (s : Sequence) (t : Text) (start : Nat) (pairs : Array Pair)
    (interrupted : Bool) (f : Failure) : s.search t start pairs interrupted ≠ .failed f := by
  have hfrom : ∀ last room pos, s.searchFrom t interrupted last pairs room pos ≠ .failed f := by
    intro last room
    induction room with
    | zero => intro pos h; cases h
    | succ room ih =>
      intro pos h
      rw [searchFrom] at h
      split at h
      · cases h
      · split_ifs at h
        exact ih _ h
  intro h
  rw [search] at h
  split at h
  · cases h
  · exact hfrom _ _ _ h

namespace Code

variable {c : Code} {tables : Array CharTable} {limits : Limits} {interrupted : Bool} {t : Text}
  {start : Nat} {pairs : Array Pair} {e : RegexError}

/-- Running code is refused nothing but more stack. -/
theorem eq_overRecursed_of_search (hc : c.Candid)
    (h : (c.search tables limits interrupted t start pairs).1 = .failed (.error e)) :
    e = .overRecursed := by
  cases c with
  | program p => exact Machine.eq_overRecursed_of_search h
  | sequence s => exact absurd h (s.search_ne_failed _ _ _ _ _)
  | hosted r =>
    dsimp only [search, Routine.search] at h
    split at h
    · cases h
    · exact hc _ _ _ _ _ _ h

/-- Code stays candid when it is run. -/
theorem Candid.search (hc : c.Candid) :
    (c.search tables limits interrupted t start pairs).2.Candid := by
  cases c with
  | program p => trivial
  | sequence s => trivial
  | hosted r => exact fun n => hc (n + 1)

end Code

/-! ### Compiling -/

/-- What is made of a pattern here is candid. -/
theorem Options.Makes.candid {o : Options} {p : Pattern} {mode : Mode} {width : Width}
    {flags : Flags} {tables : Array CharTable} {c : Code}
    (h : o.Makes p mode width flags tables c) : c.Candid := by
  cases h <;> trivial

/-- **The generator of an engine is candid.** -/
theorem Generator.candid_standard (native : Bool) (maxLength : Nat) :
    (standard native maxLength).Candid where
  refused _ _ _ _ _ _ h := ⟨_, Options.eq_programTooLarge_of_standard h⟩
  code _ _ _ _ _ _ h := by
    obtain ⟨o, hmakes⟩ := Options.makes_of_standard (Prod.ext h rfl)
    exact hmakes.candid

/-- So is one that makes routines which follow a script. -/
theorem Generator.candid_hosted (replies : List Reply) : (hosted replies).Candid where
  refused p mode width flags tables e h := by cases h
  code p mode width flags tables c h := by
    cases h
    intro n interrupted t start pairs e he
    dsimp only [Routine.ofReplies] at he
    cases hreply : replies.getD n .miss with
    | overRecursed =>
      rw [hreply] at he
      cases he
      rfl
    | interrupted | rest | miss =>
      rw [hreply] at he
      cases he

namespace Record

variable {r r' : Record} {g : Generator} {mode : Mode} {width : Width} {limits : Limits}
  {i : Interrupts} {t : Text} {start : Nat} {pairs : Array Pair} {buffer : Option Buffer}
  {tables : Array CharTable} {c : Code} {e : RegexError}

/-- A record is not compiled because of its source, or because the generator makes no code. -/
theorem compile_refused (hg : g.Candid) (h : r.compileIfNecessary mode width g = (.error e, r')) :
    (∃ f, parse r.source r.flags = .error f ∧ e = f.toError) ∨ ∃ text, e = .compilation text := by
  rw [compileIfNecessary] at h
  split at h
  · cases h
  · rw [compile] at h
    split at h
    · cases h
    · split at h
      · cases h
      · cases hparse : parse r.source r.flags with
        | error f =>
          rw [hparse] at h
          cases h
          exact Or.inl ⟨f, rfl, rfl⟩
        | ok p =>
          rw [hparse] at h
          dsimp only at h
          rcases hgenerate : g.generate (r.anchoredIfSticky p) mode width r.flags r.tables with
            ⟨e' | c, tables'⟩
          · rw [hgenerate] at h
            cases h
            exact Or.inr (hg.refused _ _ _ _ _ _ (congrArg Prod.fst hgenerate))
          · rw [hgenerate] at h
            cases h

/-- What cannot be compiled is refused as such. -/
theorem isCompileError_of_compile (hg : g.Candid)
    (h : r.compileIfNecessary mode width g = (.error e, r')) : e.isCompileError = true := by
  rcases compile_refused hg h with ⟨f, -, rfl⟩ | ⟨text, rfl⟩
  · rfl
  · rfl

/-- What is compiled with a candid generator is candid. -/
theorem Candid.compileIfNecessary (h : r.Candid) (hg : g.Candid) (mode : Mode) (width : Width) :
    (r.compileIfNecessary mode width g).2.Candid :=
  AllCode.compileIfNecessary h hg.code mode width

/-! ### Executions -/

/-- Why an execution may be refused although the source is a pattern. -/
inductive Refusal : RegexError → Prop
  /-- The generator makes no code. -/
  | compilation (text : String) : Refusal (.compilation text)
  | textTooLong : Refusal .textTooLong
  | startPastEnd : Refusal .startPastEnd
  | overRecursed : Refusal .overRecursed
  | interrupted : Refusal .interrupted
  | emptySlot : Refusal .emptySlot
  | offsetsOutOfBounds : Refusal .offsetsOutOfBounds

/-- A flaw of a source is none of these reasons. -/
theorem Refusal.ne_malformed (h : Refusal e) (offset : Nat) (text : String) :
    e ≠ .malformed offset text := by
  cases h <;> simp [RegexError.textTooLong, RegexError.startPastEnd, RegexError.emptySlot,
    RegexError.offsetsOutOfBounds]

/-- Code that is run again and again gives up for want of stack, or because it was told to. -/
theorem cause_of_searchCode {n : Nat} (hc : c.Candid)
    (h : (searchCode tables limits t start pairs n c i).1 = .failed (.error e)) :
    e = .overRecursed ∨ e = .interrupted := by
  induction n generalizing c i with
  | zero => cases h
  | succ n ih =>
    rw [searchCode] at h
    have hnext : (c.search tables limits i.requested t start pairs).2.Candid := hc.search
    rcases hsearch : c.search tables limits i.requested t start pairs with ⟨outcome, c'⟩
    rw [hsearch] at h hnext
    cases outcome with
    | interrupted =>
      dsimp only at h
      split at h
      · exact ih hnext h
      · cases h
        exact .inr rfl
    | matched | noMatch => cases h
    | failed f =>
      have hfailed : (c.search tables limits i.requested t start pairs).1 = .failed (.error e) := by
        rw [hsearch]
        exact h
      exact .inl (Code.eq_overRecursed_of_search hc hfailed)

/-- So does a search, unless there is nothing to search with. -/
theorem cause_of_search (hr : r.Candid)
    (h : (r.search mode limits i t start pairs).1 = .failed (.error e)) :
    e = .overRecursed ∨ e = .interrupted ∨ e = .emptySlot := by
  rw [search] at h
  split at h
  · split at h <;> cases h
  · split at h
    · cases h
      exact .inr (.inr rfl)
    · next c hslot => exact (cause_of_searchCode (hr _ _ c hslot) h).imp_right .inl

theorem refusal_of_search (hr : r.Candid)
    (h : (r.search mode limits i t start pairs).1 = .failed (.error e)) : Refusal e := by
  rcases cause_of_search hr h with rfl | rfl | rfl
  · exact .overRecursed
  · exact .interrupted
  · exact .emptySlot

theorem refusal_of_checkBounds (h : checkBounds t start = .error e) : Refusal e := by
  rw [checkBounds] at h
  split_ifs at h
  · cases h
    exact .textTooLong
  · cases h
    exact .startPastEnd

/-- A buffer that cannot be made ready is a misuse, which has no error. -/
theorem prepare_ne_error (r : Record) (buffer : Option Buffer) (e : RegexError) :
    r.prepare buffer ≠ .error (.error e) := by
  intro h
  cases buffer with
  | none => cases h
  | some b =>
    rcases r.prepare_cases b with hmisuse | ⟨b', hok, -⟩
    · rw [hmisuse] at h
      cases h
    · rw [hok] at h
      cases h

theorem refusal_of_report {found : Array Pair} {shift size : Nat}
    (h : (report found shift size buffer).1 = .error (.error e)) : Refusal e := by
  cases buffer with
  | none => cases h
  | some b =>
    rw [report] at h
    dsimp only at h
    split at h
    · cases h
    · cases h
      exact .offsetsOutOfBounds

/-- Neither the arguments nor a search say anything against the source. -/
theorem refusal_of_executeCompiled (hr : r.Candid)
    (h : (r.executeCompiled mode limits i t start buffer).result = .error (.error e)) :
    Refusal e := by
  cases hbounds : checkBounds t start with
  | error e' =>
    rw [executeCompiled, hbounds] at h
    cases h
    exact refusal_of_checkBounds hbounds
  | ok _ =>
    cases hprepare : r.prepare buffer with
    | error f =>
      rw [executeCompiled, hbounds, hprepare] at h
      cases h
      exact absurd hprepare (r.prepare_ne_error buffer e)
    | ok b =>
      obtain ⟨hanswer, -⟩ := executeCompiled_eq hbounds hprepare mode limits i
      have hresult := congrArg Prod.fst hanswer
      rw [Execution.answer, h] at hresult
      rcases hsearch : r.search mode limits i (r.view t start) (start - r.displacement start)
        ((b.map Buffer.pairs).getD #[]) with ⟨outcome, r', i'⟩
      rw [hsearch] at hresult
      cases outcome with
      | noMatch => cases hresult
      | interrupted =>
        cases hresult
        exact .interrupted
      | failed f =>
        obtain rfl : Failure.error e = f := Except.error.inj hresult
        exact refusal_of_search hr (congrArg Prod.fst hsearch)
      | matched found => exact refusal_of_report hresult.symm

/-- **All errors that an execution reports**: the flaw of the source, or one of the others. -/
theorem refusal_of_execute (hr : r.Candid) (hg : g.Candid)
    (h : (r.execute g limits i t start buffer).result = .error (.error e)) :
    (∃ f, parse r.source r.flags = .error f ∧ e = f.toError) ∨ Refusal e := by
  have hcompiled := hr.compileIfNecessary hg (modeFor buffer) t.width
  rw [execute_eq] at h
  rcases hcompile : r.compileIfNecessary (modeFor buffer) t.width g with ⟨e' | _, r'⟩
  · rw [hcompile] at h
    cases h
    exact (compile_refused hg hcompile).imp_right fun ⟨text, he⟩ => he ▸ .compilation text
  · rw [hcompile] at h hcompiled
    exact Or.inr (refusal_of_executeCompiled hcompiled h)

end Record

end RegexEngine

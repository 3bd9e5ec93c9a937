import RegexEngine.Proofs.Engine.Buffers
import RegexEngine.Proofs.Engine.Interruption
import RegexEngine.Proofs.Engine.Renewal

/-!
# Executions that nobody interrupts

While the interrupt flag is clear nobody disturbs an execution, and nothing happens to the flag.
From a place in the text on, such an execution finds a match or none, unless no code could be made
for the pattern, or the text is too long, or the search runs out of stack or of steps.

* `Record.execute_interrupts` — an execution leaves a clear flag as it is.
* `Outcome.Undisturbed`, `Record.Sound.search_undisturbed` — **what such a search comes to.**
* `Record.Unanswered`, `Record.Reached.execute_unanswered` — **why there may be no answer.**
* `Engine.Quiet.execute` — an engine in which no interrupt is raised stays so.
-/

namespace RegexEngine

/-! ### The flag -/

namespace Record

variable {o : Options} {r : Record} {mode : Mode} {limits : Limits} {i : Interrupts} {t : Text}
  {start : Nat} {pairs : Array Pair} {buffer : Option Buffer} {g : Generator}

theorem search_interrupts (hi : i.requested = false) (r : Record) (mode : Mode) :
    (r.search mode limits i t start pairs).2.2 = i := by
  rw [search]
  split
  · split <;> rfl
  · split
    · rfl
    · exact searchCode_interrupts hi _ _

theorem executeCompiled_interrupts (hi : i.requested = false) (r : Record) (mode : Mode) :
    (r.executeCompiled mode limits i t start buffer).interrupts = i := by
  cases hbounds : checkBounds t start with
  | error e => rw [executeCompiled, hbounds]
  | ok _ =>
    cases hprepare : r.prepare buffer with
    | error f => rw [executeCompiled, hbounds, hprepare]
    | ok b =>
      obtain ⟨-, hinterrupts⟩ := executeCompiled_eq hbounds hprepare mode limits i
      rw [hinterrupts, search_interrupts hi]

/-- **An execution leaves a clear flag as it is.** -/
theorem execute_interrupts (hi : i.requested = false) (r : Record) :
    (r.execute g limits i t start buffer).interrupts = i := by
  rw [execute_eq]
  rcases r.compileIfNecessary (modeFor buffer) t.width g with ⟨_ | _, r₁⟩
  · rfl
  · exact executeCompiled_interrupts hi r₁ (modeFor buffer)

end Record

/-! ### Searches -/

/-- What a search that nobody interrupts comes to. -/
inductive Outcome.Undisturbed : Outcome → Prop
  | matched (found : Array Pair) : Undisturbed (.matched found)
  | noMatch : Undisturbed .noMatch
  | overRecursed : Undisturbed (.failed (.error .overRecursed))
  | outOfSteps : Undisturbed (.failed .outOfSteps)

/-- Code that was made for a pattern sees the flag, or comes to such an end. -/
theorem Options.Makes.search_undisturbed {o : Options} {p : Pattern} {mode : Mode} {width : Width}
    {flags : Flags} {tables : Array CharTable} {c : Code} (h : o.Makes p mode width flags tables c)
    (hp : p.Canonical) (limits : Limits) (interrupted : Bool) (t : Text) (start : Nat)
    (pairs : Array Pair) :
    (c.search tables limits interrupted t start pairs).1 = .interrupted ∨
      (c.search tables limits interrupted t start pairs).1.Undisturbed := by
  have hmisuse : (c.search tables limits interrupted t start pairs).1 ≠ .failed .misuse := by
    cases h with
    | sequence => exact Sequence.search_ne_failed _ _ _ _ _ _
    | @program prog _ _ _ hrow hcompile htables =>
      let m : Machine := { program := prog, tables, text := t, limits, interrupted }
      exact m.search_ne_misuse (hp.wellFormed_of_machine hcompile rfl htables)
  cases houtcome : (c.search tables limits interrupted t start pairs).1 with
  | interrupted => exact Or.inl rfl
  | matched found => exact Or.inr (.matched found)
  | noMatch => exact Or.inr .noMatch
  | failed f =>
    refine Or.inr ?_
    cases f with
    | error e =>
      rw [Code.eq_overRecursed_of_search h.candid houtcome]
      exact .overRecursed
    | misuse => exact absurd houtcome hmisuse
    | outOfSteps => exact .outOfSteps

namespace Record

variable {o : Options} {r : Record} {mode : Mode} {limits : Limits} {i : Interrupts} {t : Text}
  {start : Nat} {pairs : Array Pair} {tables : Array CharTable} {c : Code} {f : Failure}

/-- So does code that is run until it answers, and nobody sees a flag. -/
theorem searchCode_undisturbed (hc : c.Steady) (hi : i.requested = false)
    (h : (c.search tables limits false t start pairs).1 = .interrupted ∨
      (c.search tables limits false t start pairs).1.Undisturbed) (n : Nat) :
    (searchCode tables limits t start pairs n c i).1.Undisturbed := by
  cases n with
  | zero => exact .outOfSteps
  | succ n =>
    by_cases hinterrupted : (c.search tables limits false t start pairs).1 = .interrupted
    · rw [searchCode_of_interrupted hc hi hinterrupted]
      exact .outOfSteps
    · rw [searchCode_of_answer hi hinterrupted]
      exact h.resolve_left hinterrupted

/-- **What a search with a compiled record comes to** while the flag is clear. -/
theorem Sound.search_undisturbed (h : r.Sound o) (hcompiled : r.isCompiled mode t.width = true)
    (hi : i.requested = false) : (r.search mode limits i t start pairs).1.Undisturbed := by
  rcases h.cases hcompiled with ⟨-, hliteral, -⟩ | ⟨-, hnone, p, c, hparse, -, hslot, hmakes⟩
  · rw [search, hliteral]
    dsimp only
    split
    · exact .noMatch
    · exact .matched _
  · have hp := (canonical_anchoredIfSticky hparse).1
    rw [search_of_slot hnone hslot]
    exact searchCode_undisturbed hmakes.steady hi (hmakes.search_undisturbed hp _ _ _ _ _) _

/-! ### Executions -/

/-- Why an execution from a place in the text on may end without an answer although nobody
interrupts it: no code could be made for the pattern, or the text is too long, or the search has
run out of stack or of steps. -/
inductive Unanswered (t : Text) : Failure → Prop
  | compilation (text : String) : Unanswered t (.error (.compilation text))
  | textTooLong (h : maxTextSize < t.size) : Unanswered t (.error .textTooLong)
  | overRecursed : Unanswered t (.error .overRecursed)
  | outOfSteps : Unanswered t .outOfSteps

/-- Of all these reasons one is that an argument is refused, and only if the text is too long. -/
theorem Unanswered.lt_of_badArgument (h : Unanswered t f) {what : String}
    (hf : f = .error (.badArgument what)) : maxTextSize < t.size := by
  cases h with
  | textTooLong hlong => exact hlong
  | compilation | overRecursed | outOfSteps => cases hf

theorem Unanswered.ne_misuse (h : Unanswered t f) : f ≠ .misuse := by
  cases h <;> simp

/-- What the host is told of a search that nobody interrupts is an answer or such a reason, but for
offsets that lie out of the text. -/
theorem unanswered_of_concluded {x : Outcome} (h : x.Undisturbed) {shift size : Nat}
    (hf : (concluded shift size buffer (x, r)).1 = .error f) :
    f = .error .offsetsOutOfBounds ∨ Unanswered t f := by
  cases h with
  | matched found =>
    cases buffer with
    | none => cases hf
    | some b =>
      dsimp only [concluded, report] at hf
      split at hf
      · cases hf
      · cases hf
        exact Or.inl rfl
  | noMatch => cases hf
  | overRecursed =>
    cases hf
    exact Or.inr .overRecursed
  | outOfSteps =>
    cases hf
    exact Or.inr .outOfSteps

/-- A record that is compiled gives an answer, or lacks one for such a reason. -/
theorem Sound.executeCompiled_unanswered (h : r.Sound o)
    (hcompiled : r.isCompiled .normal t.width = true) (hi : i.requested = false)
    (hstart : start ≤ t.size)
    (hf : (r.executeCompiled .normal limits i t start (some (.growing pairs))).result =
      .error f) : Unanswered t f := by
  by_cases hlong : maxTextSize < t.size
  · rw [executeCompiled, checkBounds, if_pos hlong] at hf
    cases hf
    exact .textTooLong hlong
  · have hsize : t.size ≤ maxTextSize := Nat.le_of_not_lt hlong
    have hview := hcompiled
    rw [← width_view r t start] at hview
    obtain ⟨hanswer, -⟩ :=
      executeCompiled_eq (checkBounds_eq hsize hstart) (r.prepare_growing pairs) .normal limits i
    have hresult := congrArg Prod.fst hanswer
    rw [Execution.answer, hf] at hresult
    rcases unanswered_of_concluded (h.search_undisturbed hview hi) hresult.symm with
      rfl | hunanswered
    · -- what was found lies in the text
      exact absurd hf
        ((h.executeCompiled_reports_some hcompiled hsize hstart (.growing pairs)).sane _)
    · exact hunanswered

/-- **Why an execution may end without an answer** while the flag is clear. -/
theorem Reached.execute_unanswered (hr : r.Reached o) {p : Pattern}
    (hparse : parse r.source r.flags = .ok p) (hi : i.requested = false) (hstart : start ≤ t.size)
    (hf : (r.execute o.generator limits i t start (some (.growing pairs))).result = .error f) :
    Unanswered t f := by
  have hcompiles := hr.sound.compiles_ifNecessary .normal t.width
  have hexecute : r.execute o.generator limits i t start (some (.growing pairs)) = _ :=
    execute_eq r o.generator
  dsimp only [modeFor, Option.isSome] at hexecute
  rw [if_pos rfl] at hexecute
  rw [hexecute] at hf
  rcases hcompile : r.compileIfNecessary .normal t.width o.generator with ⟨e | _, r₁⟩
  · rw [hcompile] at hf
    cases hf
    -- the source is a pattern, so the generator has refused it
    rcases compile_refused (Generator.candid_standard _ _) hcompile with
      ⟨flaw, hflaw, -⟩ | ⟨text, rfl⟩
    · cases hparse.symm.trans hflaw
    · exact .compilation text
  · rw [hcompile] at hf hcompiles
    exact hcompiles.sound.executeCompiled_unanswered (hcompiles.isCompiled rfl) hi hstart hf

end Record

/-- An engine in which no interrupt is raised stays so. -/
theorem Engine.Quiet.execute {o : Options} {eng : Engine} (h : eng.Quiet o) (id : RecordId)
    (t : Text) (start : Nat) (buffer : Option Buffer) :
    (eng.execute id t start buffer).engine.Quiet o where
  regular := (h.regular.execute_spec id t start buffer).regular
  clear := by
    unfold Engine.execute
    split
    · exact h.clear
    · dsimp only
      rw [Record.execute_interrupts h.clear]
      exact h.clear

end RegexEngine

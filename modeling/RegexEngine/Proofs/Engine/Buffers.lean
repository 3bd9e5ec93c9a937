import RegexEngine.Proofs.Engine.Generators

/-!
# What is left in a buffer

A buffer is not touched before a search is about to begin; then all its pairs are made undefined,
and only what has been found is stored in it.  Attempts that fail, and searches that are given up or
made anew, store nothing.

* `Buffer.growing`, `Buffer.blank` — buffers of any size.
* `RegexError.Unsearched` — the errors of executions that come to no search.
* `Record.Execution.Leaves`, `Record.Candid.execute_leaves` — **the ways in which such a buffer is
  left.**
* `Record.execute_blank` — **no execution but a successful one leaves a defined pair.**
-/

namespace RegexEngine

/-! ### Buffers and errors -/

namespace Buffer

/-- A buffer that takes any size, with these pairs. -/
def growing (pairs : Array Pair) : Buffer := { fixed := false, pairs }

/-- Such a buffer with undefined pairs only. -/
def blank (n : Nat) : Buffer := growing (Array.replicate n .undefined)

end Buffer

/-- The source could not be compiled, or an argument was refused. -/
def RegexError.Unsearched (e : RegexError) : Prop :=
  e.isCompileError = true ∨ ∃ what, e = .badArgument what

namespace Record

variable {o : Options} {r : Record} {g : Generator} {mode : Mode} {limits : Limits} {i : Interrupts}
  {t : Text} {start : Nat} {pairs : Array Pair} {e : RegexError}

theorem unsearched_of_checkBounds (h : checkBounds t start = .error e) : e.Unsearched := by
  rw [checkBounds] at h
  split_ifs at h
  · cases h
    exact .inr ⟨_, rfl⟩
  · cases h
    exact .inr ⟨_, rfl⟩

/-- No search is given up for such a reason. -/
theorem not_unsearched_of_search (hr : r.Candid)
    (h : (r.search mode limits i t start pairs).1 = .failed (.error e)) : ¬e.Unsearched := by
  rcases cause_of_search hr h with rfl | rfl | rfl <;>
    simp [RegexError.Unsearched, RegexError.isCompileError, RegexError.emptySlot]

theorem prepare_growing (r : Record) (pairs : Array Pair) :
    r.prepare (some (.growing pairs)) = .ok (some (.blank r.pairCount)) := by
  have hpos : r.pairCount ≠ 0 := Nat.succ_ne_zero r.groups
  rw [prepare, Buffer.init, if_neg hpos]
  rfl

theorem groups_search (r : Record) (mode : Mode) (limits : Limits) (i : Interrupts) (t : Text)
    (start : Nat) (pairs : Array Pair) :
    (r.search mode limits i t start pairs).2.1.groups = r.groups := by
  rw [search]
  split
  · split <;> rfl
  · split <;> rfl

/-- An execution of a compiled record leaves its groups as they are. -/
theorem groups_executeCompiled (r : Record) (mode : Mode) (limits : Limits) (i : Interrupts)
    (t : Text) (start : Nat) (buffer : Option Buffer) :
    (r.executeCompiled mode limits i t start buffer).record.groups = r.groups := by
  rcases r.executeCompiled_record mode limits i t start buffer with
    hsame | ⟨place, pairs, hsearch⟩
  · rw [hsame]
  · rw [hsearch]
    exact r.groups_search mode limits i (r.view t start) place pairs

/-! ### Executions -/

/-- How an execution leaves a buffer that takes any size and had these pairs: as it was, if there
was no search; with undefined pairs, if nothing was found; else with what was found. -/
inductive Execution.Leaves (pairs : Array Pair) (e : Execution) : Prop
  | given {f : RegexError} (hresult : e.result = .error (.error f)) (hf : f.Unsearched)
    (hbuffer : e.buffer = some (.growing pairs))
  | blank (hcause : ∀ f : RegexError, e.result = .error (.error f) → ¬f.Unsearched)
    (hbuffer : e.buffer = some (.blank e.record.pairCount))
  | success (hresult : e.result = .ok .success)
  | outOfBounds (hresult : e.result = .error (.error .offsetsOutOfBounds))

/-- An execution of a compiled record is refused for an argument, or searches with undefined
pairs. -/
theorem Candid.executeCompiled_leaves (hr : r.Candid) (limits : Limits) (i : Interrupts)
    (t : Text) (start : Nat) (pairs : Array Pair) :
    (r.executeCompiled .normal limits i t start (some (.growing pairs))).Leaves pairs := by
  have hgroups := r.groups_executeCompiled .normal limits i t start (some (.growing pairs))
  cases hbounds : checkBounds t start with
  | error f =>
    rw [executeCompiled, hbounds]
    exact .given rfl (unsearched_of_checkBounds hbounds) rfl
  | ok _ =>
    rw [executeCompiled, hbounds, prepare_growing] at hgroups ⊢
    dsimp only at hgroups ⊢
    rcases hsearch : r.search .normal limits i (r.view t start) (start - r.displacement start)
      (((some (Buffer.blank r.pairCount)).map Buffer.pairs).getD #[]) with ⟨outcome, r', i'⟩
    rw [hsearch] at hgroups
    have hcount : r'.groups = r.groups → r'.pairCount = r.pairCount := congrArg (· + 1)
    cases outcome with
    | matched found =>
      dsimp only [report]
      split
      · exact .success rfl
      · exact .outOfBounds rfl
    | noMatch => exact .blank (fun f hf => by cases hf) (by rw [hcount hgroups])
    | interrupted =>
      refine .blank ?_ (by rw [hcount hgroups])
      intro f hf
      cases hf
      simp [RegexError.Unsearched, RegexError.isCompileError]
    | failed why =>
      refine .blank ?_ (by rw [hcount hgroups])
      intro f hf
      cases hf
      exact not_unsearched_of_search hr (congrArg Prod.fst hsearch)

/-- **An execution leaves the buffer in one of these ways.** -/
theorem Candid.execute_leaves (hr : r.Candid) (hg : g.Candid) (limits : Limits) (i : Interrupts)
    (t : Text) (start : Nat) (pairs : Array Pair) :
    (r.execute g limits i t start (some (.growing pairs))).Leaves pairs := by
  have hcompiled := hr.compileIfNecessary hg (modeFor (some (.growing pairs))) t.width
  rw [execute_eq]
  rcases hcompile : r.compileIfNecessary (modeFor (some (.growing pairs))) t.width g with
    ⟨f | _, r'⟩
  · exact .given rfl (.inl (isCompileError_of_compile hg hcompile)) rfl
  · rw [hcompile] at hcompiled
    exact hcompiled.executeCompiled_leaves limits i t start pairs

/-- A record that has been searched with has the groups of its source. -/
theorem Counted.groups_execute (h : r.Counted) (hg : g.Candid) {buffer : Option Buffer}
    (hcause : ∀ f : RegexError,
      (r.execute g limits i t start buffer).result = .error (.error f) → ¬f.Unsearched) :
    ∃ p, parse r.source r.flags = .ok p ∧
      (r.execute g limits i t start buffer).record.groups = p.groups := by
  have hcounted := h.compileIfNecessary (modeFor buffer) t.width g
  have hkey := r.key_compileIfNecessary (modeFor buffer) t.width g
  have hcompiled : (r.compileIfNecessary (modeFor buffer) t.width g).1 = .ok () →
      (r.compileIfNecessary (modeFor buffer) t.width g).2.isCompiled (modeFor buffer) t.width =
        true := isCompiled_of_ok
  rw [execute_eq] at hcause ⊢
  rcases hcompile : r.compileIfNecessary (modeFor buffer) t.width g with ⟨f | _, r'⟩
  · rw [hcompile] at hcause
    exact absurd (.inl (isCompileError_of_compile hg hcompile)) (hcause f rfl)
  · rw [hcompile] at hcounted hkey hcompiled
    obtain ⟨p, hparse, hgroups⟩ := hcounted.groups_of_isCompiled (hcompiled rfl)
    have hsource : r'.source = r.source := congrArg Prod.fst hkey
    have hflags : r'.flags = r.flags := congrArg Prod.snd hkey
    rw [hsource, hflags] at hparse
    exact ⟨p, hparse, (r'.groups_executeCompiled _ limits i t start buffer).trans hgroups⟩

/-- With generators of the engine's own no execution ends with an internal error, whatever the
arguments are. -/
theorem Made.execute_sane (h : r.Made) (hg : g.Own) (limits : Limits) (i : Interrupts) (t : Text)
    (start : Nat) (buffer : Option Buffer) (why : String) :
    (r.execute g limits i t start buffer).result ≠ .error (.error (.internal why)) := by
  have hmade := h.compileIfNecessary hg (modeFor buffer) t.width
  have hcompiled : (r.compileIfNecessary (modeFor buffer) t.width g).1 = .ok () →
      (r.compileIfNecessary (modeFor buffer) t.width g).2.isCompiled (modeFor buffer) t.width =
        true := isCompiled_of_ok
  rw [execute_eq]
  rcases hcompile : r.compileIfNecessary (modeFor buffer) t.width g with ⟨f | _, r₁⟩
  · intro hwhy
    have hcause := isCompileError_of_compile hg.candid hcompile
    cases hwhy
    cases hcause
  · rw [hcompile] at hmade hcompiled
    dsimp only
    obtain ⟨o, ho⟩ := hmade (modeFor buffer) t.width
    obtain ⟨hresult, -⟩ := r₁.executeCompiled_only (modeFor buffer) limits i t start buffer
    rw [← hresult]
    cases hbounds : checkBounds t start with
    | error f =>
      rw [executeCompiled, hbounds]
      intro hwhy
      cases hwhy
      rcases unsearched_of_checkBounds hbounds with hcause | ⟨what, hwhat⟩
      · cases hcause
      · cases hwhat
    | ok _ =>
      obtain ⟨hsize, hstart⟩ := bounds_of_checkBounds hbounds
      exact (ho.executeCompiled_reports (isCompiled_only (hcompiled rfl)) hsize hstart).sane why

/-- **No execution but a successful one leaves a defined pair.**  The buffer may take any size, and
hold anything before.  If nothing is found, or the search is given up for want of stack or because
it was told to, the pairs are undefined, and there are as many as the record has groups, and one
more; a record that was only ever compiled and run has the groups of its source.  If the source
cannot be compiled, or an argument is refused, the buffer is as it was.  If no code of the record
is the host's, nothing else happens: unless there is a success, the buffer is left in one of these
two ways.  Routines and generators of the host are taken to be candid. -/
theorem execute_blank (hr : r.Candid) (hg : g.Candid) (limits : Limits) (i : Interrupts) (t : Text)
    (start : Nat) (pairs : Array Pair) :
    let e := r.execute g limits i t start (some { fixed := false, pairs })
    let given : Buffer := { fixed := false, pairs }
    let blank : Buffer :=
      { fixed := false, pairs := Array.replicate e.record.pairCount .undefined }
    ((e.result = .ok .notFound ∨ e.result = .error (.error .overRecursed) ∨
        e.result = .error (.error .interrupted)) → e.buffer = some blank ∧
          (r.Counted → ∃ p, parse r.source r.flags = .ok p ∧
            e.record.pairCount = p.groups + 1)) ∧
      (∀ f : RegexError, e.result = .error (.error f) →
        (f.isCompileError = true ∨ ∃ what, f = .badArgument what) → e.buffer = some given) ∧
      (r.Made → g.Own → e.result ≠ .ok .success →
        e.buffer = some given ∨ e.buffer = some blank) := by
  intro e given blank
  have hends : e.Leaves pairs := hr.execute_leaves hg limits i t start pairs
  have hsearched : (e.result = .ok .notFound ∨ e.result = .error (.error .overRecursed) ∨
      e.result = .error (.error .interrupted)) →
        ∀ f : RegexError, e.result = .error (.error f) → ¬f.Unsearched := by
    rintro hresult f hf
    rw [hf] at hresult
    rcases hresult with hmiss | hover | habort
    · cases hmiss
    · cases hover
      simp [RegexError.Unsearched, RegexError.isCompileError]
    · cases habort
      simp [RegexError.Unsearched, RegexError.isCompileError]
  refine ⟨?_, ?_, ?_⟩
  · intro hresult
    have hcause := hsearched hresult
    refine ⟨?_, ?_⟩
    · cases hends with
      | given hunsearched hf => exact absurd hf (hcause _ hunsearched)
      | blank _ hbuffer => exact hbuffer
      | success hsuccess => simp [hsuccess] at hresult
      | outOfBounds hout => simp [hout, RegexError.offsetsOutOfBounds] at hresult
    · intro hcounted
      obtain ⟨p, hparse, hgroups⟩ := hcounted.groups_execute hg hcause
      exact ⟨p, hparse, congrArg (· + 1) hgroups⟩
  · intro f hf hunsearched
    cases hends with
    | given _ _ hbuffer => exact hbuffer
    | blank hcause => exact absurd hunsearched (hcause f hf)
    | success hsuccess => cases hsuccess.symm.trans hf
    | outOfBounds hout =>
      cases hout.symm.trans hf
      simp [RegexError.isCompileError, RegexError.offsetsOutOfBounds] at hunsearched
  · intro hmade hown hfails
    cases hends with
    | given _ _ hbuffer => exact .inl hbuffer
    | blank _ hbuffer => exact .inr hbuffer
    | success hsuccess => exact absurd hsuccess hfails
    | outOfBounds hout => exact absurd hout (hmade.execute_sane hown limits i t start _ _)

/-- A new record for `(?=(a))ab`. -/
def peeking : Record := { source := "(?=(a))ab", flags := .empty }

/-- In `ac` the group of that record takes part in an attempt that fails.  From an offset behind the
text no search begins. -/
theorem execute_blank_peeking :
    let t : Text := .ofUnits .latin1 #[97, 99]
    let given : Buffer := { fixed := false, pairs := #[.span 5 7] }
    let e := peeking.execute (Options.generator {}) {} {} t 0 (some given)
    let late := peeking.execute (Options.generator {}) {} {} t 3 (some given)
    peeking.Candid ∧ peeking.Counted ∧ peeking.Made ∧
      (Options.generator {}).Candid ∧ (Options.generator {}).Own ∧
      e.result = .ok .notFound ∧
      e.buffer = some { fixed := false, pairs := #[.undefined, .undefined] } ∧
      (∃ p, parse peeking.source peeking.flags = .ok p ∧ e.record.pairCount = p.groups + 1) ∧
      late.result = .error (.error .startPastEnd) ∧ late.buffer = some given ∧
      late.buffer ≠ some { fixed := false, pairs := #[.undefined, .undefined] } ∧
      (e.buffer = some given ∨ e.buffer = some
        { fixed := false, pairs := Array.replicate e.record.pairCount .undefined }) := by
  intro t given e late
  have hcandid : peeking.Candid := allCode_fresh _ _ _
  have hcounted : peeking.Counted := counted_fresh _ _
  have hmade : peeking.Made := made_fresh _ _
  have hgenerator : (Options.generator {}).Candid := Generator.candid_standard _ _
  have hown : (Options.generator {}).Own := Generator.own_standard _ _
  have hmiss : e.result = .ok .notFound := by decide +kernel
  have hcount : e.record.pairCount = 2 := by decide +kernel
  have hlate : late.result = .error (.error .startPastEnd) := by decide +kernel
  obtain ⟨hblank, -, hways⟩ := execute_blank hcandid hgenerator {} {} t 0 #[.span 5 7]
  obtain ⟨-, hgiven, -⟩ := execute_blank hcandid hgenerator {} {} t 3 #[.span 5 7]
  obtain ⟨hbuffer, hgroups⟩ := hblank (.inl hmiss)
  have hsame : late.buffer = some given := hgiven _ hlate (.inr ⟨_, rfl⟩)
  refine ⟨hcandid, hcounted, hmade, hgenerator, hown, hmiss, ?_, hgroups hcounted, hlate, hsame, ?_,
    hways hmade hown (by rw [hmiss]; decide)⟩
  · rw [hbuffer, hcount]
    rfl
  · rw [hsame]
    decide

end Record

end RegexEngine

import RegexEngine.Proofs.Engine.Compilation
import RegexEngine.Proofs.Session.Identity

/-!
# Compilations in whole sessions

After any run, with whatever generators, a record that cannot be compiled stays what it was, but for
tables that no code refers to, and one that can be compiled gets what was asked for and loses
nothing.

* `Session.compilations_of_run` — **what compilations leave after any run.**
* `Session.leftovers_of_failure` — a failure that is not without a trace.
-/

namespace RegexEngine

namespace Session

/-- **What compilations leave after any run.**  The run may have brought any generators.  Take any
record that is registered then, any slot of it, and a generator that leaves the tables in the list
where they are.

If the slot cannot be compiled, then source, flags, groups, the text to search for, all slots and
the mark stay as they are, and so do the tables in the list; if the source is malformed there are no
others.  Let the generator be one that refuses again what it has refused, and let the error be one
of compiling, as all errors of candid generators are.  Then, however often this is tried again, it
ends with the same error and leaves no more than that.

If the slot can be compiled, it is filled, or the text to search for is, should the source be free
of special characters, case count and a match be free to begin anywhere.  The other slots stay as
they are, the tables in the list keep their places, and the record has as many groups as its
source. -/
theorem compilations_of_run {o : Options} {steps : List Step} {id : RecordId} {r : Record}
    (hr : ((Session.new o).run steps).registry.find? id = some r) (mode : Mode) (width : Width)
    {g : Generator} (hg : g.Appends) :
    (∀ e, (r.compileIfNecessary mode width g).1 = .error e →
        r.Retains (r.compileIfNecessary mode width g).2 ∧
          (∀ f, parse r.source r.flags = .error f →
            (r.compileIfNecessary mode width g).2 = r) ∧
          (g.Candid → e.isCompileError = true) ∧
          (g.Persists → e.isCompileError = true → ∀ attempts,
            r.Retains (r.retried mode width g attempts) ∧
              ((r.retried mode width g attempts).compileIfNecessary mode width g).1 =
                .error e)) ∧
      ((r.compileIfNecessary mode width g).1 = .ok () →
        r.Completes mode width (r.compileIfNecessary mode width g).2) := by
  have hnew : (Session.new o).Consistent .counted o := consistent_new trivial
  have hs : ((Session.new o).run steps).Consistent .counted o := by
    apply hnew.run
    intro st _
    cases st <;> trivial
  have hcounted : r.Counted := hs.engine.registry.holds hr
  refine ⟨?_, hcounted.completes hg⟩
  intro e he
  obtain ⟨hretains, hmalformed⟩ := Record.retains_of_error hg he
  refine ⟨hretains, hmalformed, ?_, fun hpersists hcause =>
    Record.error_of_retries hg hpersists hcause he⟩
  intro hcandid
  rcases hx : r.compileIfNecessary mode width g with ⟨result, r'⟩
  rw [hx] at he
  subst he
  exact Record.isCompileError_of_compile hcandid hx

/-- A record whose program has three tests of classes. -/
def classes : Record := { source := "[a]{3}", flags := .empty }

/-- There is no room for these tests and the instruction that ends a program, unless the generator
may use four instructions. -/
theorem compilations_of_run_classes :
    let s := (Session.new {}).run [.guard "g" "[a]{3}" ""]
    let small : Generator := .standard false 2
    let large : Generator := .standard false 4
    s.registry.find? 0 = some classes ∧
      small.Appends ∧ small.Candid ∧ small.Persists ∧ large.Appends ∧
      (classes.compileIfNecessary .normal .latin1 small).1 = .error .programTooLarge ∧
      RegexError.isCompileError .programTooLarge = true ∧
      (∀ attempts, classes.Retains (classes.retried .normal .latin1 small attempts) ∧
        ((classes.retried .normal .latin1 small attempts).compileIfNecessary .normal .latin1
          small).1 = .error .programTooLarge) ∧
      (classes.compileIfNecessary .normal .latin1 large).1 = .ok () ∧
      classes.Completes .normal .latin1 (classes.compileIfNecessary .normal .latin1 large).2 := by
  intro s small large
  have hr : s.registry.find? 0 = some classes := by rfl
  have happends : small.Appends := Generator.appends_standard false 2
  have hcandid : small.Candid := Generator.candid_standard false 2
  have hpersists : small.Persists := Generator.persists_standard false 2
  have hlargeAppends : large.Appends := Generator.appends_standard false 4
  have hsmall : (classes.compileIfNecessary .normal .latin1 small).1 = .error .programTooLarge := by
    decide +kernel
  have hlarge : (classes.compileIfNecessary .normal .latin1 large).1 = .ok () := by decide +kernel
  obtain ⟨hfails, -⟩ := compilations_of_run hr .normal .latin1 happends
  obtain ⟨-, hcompletes⟩ := compilations_of_run hr .normal .latin1 hlargeAppends
  obtain ⟨-, -, hcause, hretries⟩ := hfails _ hsmall
  exact ⟨hr, happends, hcandid, hpersists, hlargeAppends, hsmall, hcause hcandid,
    hretries hpersists (hcause hcandid), hlarge, hcompletes hlarge⟩

/-- **A failure that is not without a trace.**  The tables that were made before there was no more
room stay in the list, and each attempt adds them once more. -/
theorem leftovers_of_failure :
    let s := (Session.new {}).run [.guard "g" "[a]{3}" ""]
    let small : Generator := .standard false 2
    s.registry.find? 0 = some classes ∧
      (classes.compileIfNecessary .normal .latin1 small).1 = .error .programTooLarge ∧
      (classes.compileIfNecessary .normal .latin1 small).2 ≠ classes ∧
      classes.tables.size = 0 ∧ (classes.retried .normal .latin1 small 1).tables.size = 3 ∧
      (classes.retried .normal .latin1 small 2).tables.size = 6 := by
  intro s small
  have hleft : (classes.compileIfNecessary .normal .latin1 small).2.tables.size = 3 := by
    decide +kernel
  refine ⟨by rfl, by decide +kernel, ?_, by decide, by decide +kernel, by decide +kernel⟩
  intro hsame
  rw [hsame] at hleft
  exact absurd hleft (by decide)

end Session

end RegexEngine

import RegexEngine.Proofs.Engine.Renewal
import RegexEngine.Proofs.Session.Identity

/-!
# Sessions that do not remember

What has been done in a session does not show in what its records and its values find.  Executions
may have ended in any way, guards may have come and gone, and sweeps may have removed records that
values were linked to: what is executed next ends as it would in a session that has just begun.

* `Session.Consistent.quiet` — the engine of a session in which no interrupt is raised.
* `Session.answers_of_run` — **executions after any run are those of a new engine.**
-/

namespace RegexEngine

namespace Session

variable {o : Options} {s : Session}

/-- The engine of a session is quiet while the interrupt flag is clear. -/
theorem Consistent.quiet (h : s.Consistent (.reached o) o)
    (hclear : s.engine.interrupts.requested = false) : s.engine.Quiet o :=
  ⟨h.engine, hclear⟩

/-- **Executions after any run are those of a new engine.**  The run may be any one in which the
generator stays the one of the options, and at its end the interrupt flag shall be clear.  Then the
execution of a record reports the same, and leaves the same offsets, as that of a new record in an
engine in which nothing has been done.  Matching a text against a value reports the same, and leaves
the same last index, as it does with the link cut and in such an engine.  In particular a record
answers each compilation as a new record does, and the code in each of its slots finds the same as
that of a new record of which nothing but this slot was compiled. -/
theorem answers_of_run {steps : List Step} (hsteps : ∀ st ∈ steps, st.Permitted (.reached o))
    (hclear : ((Session.new o).run steps).engine.interrupts.requested = false) :
    let s := (Session.new o).run steps
    let new := s.engine.restarted
    (∀ id r, s.registry.find? id = some r → ∀ t start buffer,
        (s.engine.execute id t start buffer).Agrees
          ((new.get r.source r.flags).2.execute (new.get r.source r.flags).1 t start buffer)) ∧
      (∀ p ∈ s.values, ∀ t,
        (p.2.exec s.engine t).Agrees (p.2.unlinked.exec new t) ∧
          (p.2.test s.engine t).Agrees (p.2.unlinked.test new t)) ∧
      ∀ id r, s.registry.find? id = some r → ∀ mode width,
        (r.compile mode width o.generator).1 = (r.renewed.compile mode width o.generator).1 ∧
          ∀ c, r.slots.get mode width = some c → ∃ c',
            (r.renewed.compile mode width o.generator).2.slots.get mode width = some c' ∧
              ∀ limits interrupted t start pairs, t.width = width →
                (c'.search (r.renewed.compile mode width o.generator).2.tables limits interrupted t
                  start pairs).1 = (c.search r.tables limits interrupted t start pairs).1 := by
  intro s new
  have hs : s.Consistent (.reached o) o := (consistent_new rfl).run hsteps
  have hquiet : s.engine.Quiet o := hs.quiet hclear
  have hnew : new.Quiet o := hquiet.restarted
  refine ⟨fun id r hid t start buffer => ?_, fun p hp t => ?_, fun id r hid mode width => ?_⟩
  · obtain ⟨-, hkey⟩ := hnew.regular.get_spec r.key
    exact hquiet.execute_agrees (hnew.get r.key) (Registry.key?_of_find? hid) hkey t start buffer
  · have hsearch : ∀ wantPairs, (p.2.search s.engine t wantPairs).Agrees
        (p.2.unlinked.search new t wantPairs) := by
      intro wantPairs
      apply Value.search_agrees hquiet hnew (hs.values p hp) (p.2.linked_unlinked new.registry)
      · rfl
      · rfl
    exact ⟨Value.exec_agrees (hsearch true), Value.test_agrees (hsearch false)⟩
  · have hr : r.Sound o := (hs.engine.registry.holds hid).sound
    exact ⟨hr.compile_renewed mode width, fun c hslot => hr.search_slot_renewed hslot⟩

/-- A pattern is compiled for two slots and run, then a global value for it; an interrupt is
answered, and the sweep at the end removes the record of the value. -/
def lettersSteps : List Step :=
  [.guard "g" "(?:(a)|b)*c" "", .compile "g" .matchOnly .twoByte (Options.generator {}) false,
    .execute "g" (.ofUnits .latin1 #[97, 98, 99]) 0 (some "b") false,
    .create "v" "(?:(a)|b)*c" "g", .exec "v" (.ofUnits .latin1 #[97, 98, 99]) none,
    .request, .poll .abort, .sweep false [] [] []]

/-- What can be executed after these steps: a record, and a value whose link is dead. -/
theorem answers_of_run_letters :
    let s := (Session.new {}).run lettersSteps
    let new := s.engine.restarted
    (∀ st ∈ lettersSteps, st.Permitted (.reached {})) ∧ s.engine.interrupts.requested = false ∧
      (s.registry.find? 0).isSome = true ∧
      (s.values.map fun p => p.2.isLinked s.registry) = [false] ∧
      (∀ id r, s.registry.find? id = some r → ∀ t start buffer,
        (s.engine.execute id t start buffer).Agrees
          ((new.get r.source r.flags).2.execute (new.get r.source r.flags).1 t start buffer)) ∧
      ∀ p ∈ s.values, ∀ t, (p.2.exec s.engine t).Agrees (p.2.unlinked.exec new t) ∧
        (p.2.test s.engine t).Agrees (p.2.unlinked.test new t) := by
  have hsteps : ∀ st ∈ lettersSteps, st.Permitted (.reached {}) := by
    simp [lettersSteps, Step.Permitted, Record.Invariant.reached]
  have hclear : ((Session.new {}).run lettersSteps).engine.interrupts.requested = false := by
    decide +kernel
  obtain ⟨hrecords, hvalues, -⟩ := answers_of_run hsteps hclear
  exact ⟨hsteps, hclear, by decide +kernel, by decide +kernel, hrecords, hvalues⟩

end Session

end RegexEngine

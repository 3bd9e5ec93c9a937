import RegexEngine.Proofs.Engine.LastIndex
import RegexEngine.Proofs.Session.Identity

/-!
# Where the values of a session go on

After any run a value finds the first match from where it stands, and goes on behind it.  Its record
may have been removed, or compiled with other generators than the one that the engine has now.

* `Session.lastIndex_of_run` — **matching and testing after any run.**
-/

namespace RegexEngine

namespace Session

/-- **Matching and testing after any run.**  A global or sticky value that stands behind the end of
a text finds nothing there and goes on at the beginning.  Elsewhere it goes on where it stood if
there is an error, and at the beginning if it finds nothing; and it is tested as it is matched.
Other values always go on where they stood.

Let the steps have brought no generators but such that make code as that of an engine does.  Then a
value finds the first match from where it stands, or from the beginning if it does not remember; the
match does not begin in front of that place and ends in the text, and a value that remembers goes on
at its end.  A test tells whether there is such a match; unless one of the two ends with an error, a
test and a match agree and leave the same last index.  Matching a text again and again against a
global or sticky value finds parts of it that are not empty and lie one behind the other, at most as
many as there are units behind where the value stood, until there is an error, an empty match, or no
match and the value goes on at the beginning. -/
theorem lastIndex_of_run (o : Options) (steps : List Step) :
    let s := (Session.new o).run steps
    ∀ p ∈ s.values, ∀ t : Text, p.2.KeepsPlace s.engine t ∧
      ((∀ st ∈ steps, st.Permitted .made) → p.2.GoesOn s.engine t) := by
  intro s p hp t
  refine ⟨p.2.keepsPlace s.engine t, ?_⟩
  intro hsteps
  have hs : s.Consistent .made o := (consistent_new (Generator.own_standard _ _)).run hsteps
  exact Value.goesOn hs.engine (hs.values p hp) t

/-- A global value finds its first match with a program.  Then for a while no code can be made, and
the value is run over a text of the other width; a sweep takes its record away, and the engine makes
rows of tests from then on. -/
def globalSteps : List Step :=
  [.setGenerator (.standard false 64), .create "v" "(?:(a)|b)*c" "g",
    .exec "v" (.ofUnits .latin1 #[97, 98, 99, 99]) none, .setGenerator (.refusing "no room"),
    .exec "v" (.ofUnits .twoByte #[97, 98, 99, 99]) none, .sweep false [] [] [],
    .setGenerator (.standard true 32)]

/-- The value stands at the end of its match and has to ask for its record. -/
theorem lastIndex_of_run_global :
    let s := (Session.new {}).run globalSteps
    (∀ st ∈ globalSteps, st.Permitted .made) ∧
      (s.values.map fun p => (p.2.lastIndex, p.2.isLinked s.registry)) = [(3, false)] ∧
      ∀ p ∈ s.values, ∀ t, p.2.KeepsPlace s.engine t ∧ p.2.GoesOn s.engine t := by
  intro s
  have hsteps : ∀ st ∈ globalSteps, st.Permitted .made := by
    simp [globalSteps, Step.Permitted, Record.Invariant.made, Generator.own_standard,
      Generator.own_refusing]
  refine ⟨hsteps, by decide +kernel, ?_⟩
  intro p hp t
  obtain ⟨hkeeps, hgoes⟩ := lastIndex_of_run {} globalSteps p hp t
  exact ⟨hkeeps, hgoes hsteps⟩

end Session

end RegexEngine

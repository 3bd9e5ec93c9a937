import RegexEngine.Match.Search

/-!
# How runs go on

A run is followed one effect at a time: what happens behind an effect, given enough steps, and
from which effect it goes on in the same way.

* `Machine.resume` — the run behind an effect.
* `Machine.run_mono` — more steps do not change an answer.
* `Machine.Ends`, `Machine.Leads` — the end of a run, and its way there.
* `Machine.leads_branch`, `Machine.leads_slot`, `Machine.leads_register`, `Machine.leads_slots` —
  failing back past the entries of the stack.
-/

namespace RegexEngine

namespace Machine

variable {m m' : Machine} {fuel base pc pos : Nat} {st : State} {e : Effect} {r : Result}

/-- Decide a condition on what follows by a run of its own. -/
def settle (m : Machine) (fuel : Nat) : Effect → Effect
  | .look negated body next pos st =>
    m.afterLook negated next pos st.slots st.stack.size (m.run fuel st.stack.size body pos st)
  | e => e

/-- The run behind an effect that is no condition. -/
def finish (m : Machine) (fuel base : Nat) : Effect → Result
  | .go pc pos st => m.run fuel base pc pos st
  | .accept pos st => .accepted pos st
  | .look .. => .stopped .outOfRange
  | .stop s => .stopped s
  | .reject st =>
    match m.backtrack base st with
    | .go pc pos st => m.run fuel base pc pos st
    | .reject st => .failed st
    | .stop s => .stopped s
    | _ => .stopped .outOfRange

/-- The run behind an effect. -/
def resume (m : Machine) (fuel base : Nat) (e : Effect) : Result :=
  m.finish fuel base (m.settle fuel e)

theorem resume_reject (m : Machine) (fuel base : Nat) (st : State) :
    m.resume fuel base (.reject st) =
      match m.backtrack base st with
      | .go pc pos st => m.run fuel base pc pos st
      | .reject st => .failed st
      | .stop s => .stopped s
      | _ => .stopped .outOfRange := rfl

theorem run_succ (m : Machine) (fuel base pc pos : Nat) (st : State) :
    m.run (fuel + 1) base pc pos st = m.resume fuel base (m.step pc pos st) := by
  rw [run, resume]
  cases m.step pc pos st <;> rfl

/-- What is decided is no condition any more. -/
theorem settle_ne_look {negated : Bool} {body next : Nat} :
    m.settle fuel e ≠ .look negated body next pos st := by
  cases e with
  | look negated body next pos st =>
    rw [settle]
    cases m.run fuel st.stack.size body pos st with
    | stopped s => simp [afterLook]
    | failed st =>
      rw [afterLook]
      split <;> simp
    | accepted stop st =>
      simp only [afterLook, pushAnd]
      split
      · simp
      · split <;> simp
  | _ => simp [settle]

theorem settle_settle (m : Machine) (fuel fuel' : Nat) (e : Effect) :
    m.settle fuel' (m.settle fuel e) = m.settle fuel e := by
  cases h : m.settle fuel e with
  | look negated body next pos st => exact absurd h settle_ne_look
  | _ => rfl

/-! ### More steps -/

theorem finish_mono {fuel' : Nat}
    (hrun : ∀ base pc pos st r, m.run fuel base pc pos st = r → r ≠ .stopped .outOfSteps →
      m.run fuel' base pc pos st = r)
    (h : m.finish fuel base e = r) (hr : r ≠ .stopped .outOfSteps) :
    m.finish fuel' base e = r := by
  cases e with
  | go pc pos st => exact hrun _ _ _ _ _ h hr
  | accept pos st => exact h
  | look negated body next pos st => exact h
  | stop s => exact h
  | reject st =>
    rw [finish] at h ⊢
    cases hb : m.backtrack base st with
    | go pc pos st =>
      rw [hb] at h
      exact hrun _ _ _ _ _ h hr
    | _ =>
      rw [hb] at h
      exact h

/-- **More steps do not change an answer.** -/
theorem run_mono {fuel' : Nat} (hle : fuel ≤ fuel') (h : m.run fuel base pc pos st = r)
    (hr : r ≠ .stopped .outOfSteps) : m.run fuel' base pc pos st = r := by
  induction fuel generalizing base pc pos st r fuel' with
  | zero => exact absurd h.symm hr
  | succ fuel ih =>
    obtain ⟨fuel', rfl⟩ : ∃ k, fuel' = k + 1 := ⟨fuel' - 1, by omega⟩
    rw [run_succ, resume] at h ⊢
    have hsame : m.settle fuel' (m.step pc pos st) = m.settle fuel (m.step pc pos st) := by
      cases hstep : m.step pc pos st with
      | look negated body next pos st =>
        rw [hstep] at h
        by_cases hrun : m.run fuel st.stack.size body pos st = .stopped .outOfSteps
        · rw [settle, hrun] at h
          exact absurd h.symm hr
        · rw [settle, settle, ih (Nat.le_of_succ_le_succ hle) rfl hrun]
      | _ => rfl
    rw [hsame]
    exact finish_mono (fun _ _ _ _ _ h => ih (Nat.le_of_succ_le_succ hle) h) h hr

/-! ### Runs with enough steps -/

/-- With enough steps the run behind an effect ends with a result. -/
def Ends (m : Machine) (base : Nat) (e : Effect) (r : Result) : Prop :=
  ∃ N, ∀ fuel, N ≤ fuel → m.resume fuel base e = r

/-- The run behind `e` ends as the run behind `e'`. -/
def Leads (m : Machine) (base : Nat) (e e' : Effect) : Prop :=
  ∀ r, m.Ends base e' r → m.Ends base e r

theorem Leads.refl : m.Leads base e e := fun _ h => h

theorem Leads.trans {e₁ e₂ e₃ : Effect} (h : m.Leads base e₁ e₂) (h' : m.Leads base e₂ e₃) :
    m.Leads base e₁ e₃ := fun r hr => h r (h' r hr)

theorem ends_accept (m : Machine) (base pos : Nat) (st : State) :
    m.Ends base (.accept pos st) (.accepted pos st) := ⟨0, fun _ _ => rfl⟩

theorem ends_stop (m : Machine) (base : Nat) (s : Stop) : m.Ends base (.stop s) (.stopped s) :=
  ⟨0, fun _ _ => rfl⟩

/-- The run goes on with the effect of an instruction. -/
theorem leads_step {i : Instr} (h : m.program.code[pc]? = some i) :
    m.Leads base (.go pc pos st) (m.perform i pc pos st) := by
  rintro r ⟨N, hN⟩
  refine ⟨N + 1, fun fuel hfuel => ?_⟩
  obtain ⟨fuel, rfl⟩ : ∃ k, fuel = k + 1 := ⟨fuel - 1, by omega⟩
  show m.run (fuel + 1) base pc pos st = r
  rw [run_succ, step, h]
  exact hN fuel (by omega)

/-- A condition is decided by the end of its own run. -/
theorem leads_look {negated : Bool} {body next : Nat}
    (hbody : m.Ends st.stack.size (.go body pos st) r) :
    m.Leads base (.look negated body next pos st)
      (m.afterLook negated next pos st.slots st.stack.size r) := by
  obtain ⟨M, hM⟩ := hbody
  rintro r' ⟨N, hN⟩
  refine ⟨max M N, fun fuel hfuel => ?_⟩
  have hsettle : m.settle fuel (.look negated body next pos st) =
      m.afterLook negated next pos st.slots st.stack.size r := by
    rw [settle, show m.run fuel st.stack.size body pos st = r from hM fuel (by omega)]
  have hend := hN fuel (by omega)
  rw [← hsettle, resume, settle_settle] at hend
  exact hend

/-- A run that is interrupted, or whose stack is full. -/
def Stops (m : Machine) (base : Nat) (e : Effect) : Prop :=
  m.Ends base e (.stopped .interrupted) ∨ m.Ends base e (.stopped .overRecursed)

theorem Leads.stops {e' : Effect} (h : m.Leads base e e') (hs : m.Stops base e') :
    m.Stops base e :=
  hs.imp (h _) (h _)

/-! ### Failing back -/

theorem leads_of_backtrack {st' : State} (h : m.backtrack base st = m.backtrack base st') :
    m.Leads base (.reject st) (.reject st') := by
  rintro r ⟨N, hN⟩
  exact ⟨N, fun fuel hfuel => by rw [resume_reject, h]; exact hN fuel hfuel⟩

/-- A failure either interrupts the run or undoes the stack, with the failure counted. -/
theorem backtrack_cases (m : Machine) (base : Nat) (st : State) :
    m.backtrack base st = .stop .interrupted ∨
      ∃ k, m.backtrack base st = { st with failures := k }.unwind (st.stack.size - base) := by
  rw [backtrack]
  split
  · split
    · exact Or.inl rfl
    · exact Or.inr ⟨0, rfl⟩
  · exact Or.inr ⟨st.failures + 1, rfl⟩

theorem ends_of_interrupted (h : m.backtrack base st = .stop .interrupted) :
    m.Ends base (.reject st) (.stopped .interrupted) :=
  ⟨0, fun fuel _ => by rw [resume_reject, h]⟩

/-- Where nothing is left to try, the run fails. -/
theorem ends_reject (hbase : st.stack.size ≤ base) :
    m.Stops base (.reject st) ∨
      ∃ k, m.Ends base (.reject st) (.failed { st with failures := k }) := by
  rcases backtrack_cases m base st with h | ⟨k, h⟩
  · exact Or.inl (Or.inl (ends_of_interrupted h))
  · rw [Nat.sub_eq_zero_of_le hbase, State.unwind] at h
    exact Or.inr ⟨k, 0, fun fuel _ => by rw [resume_reject, h]⟩

/-- The last alternative is resumed. -/
theorem leads_branch {stack : Array Frame} (hstack : st.stack = stack.push (.branch pc pos))
    (hbase : base ≤ stack.size) :
    m.Stops base (.reject st) ∨
      ∃ k, m.Leads base (.reject st) (.go pc pos { st with stack := stack, failures := k }) := by
  rcases backtrack_cases m base st with h | ⟨k, h⟩
  · exact Or.inl (Or.inl (ends_of_interrupted h))
  · refine Or.inr ⟨k, ?_⟩
    rw [hstack, Array.size_push, Nat.succ_sub hbase, State.unwind] at h
    simp only [Array.back?_push, Array.pop_push] at h
    rintro r ⟨N, hN⟩
    exact ⟨N, fun fuel hfuel => by rw [resume_reject, h]; exact hN fuel hfuel⟩

/-- The old value of a capture slot is put back. -/
theorem leads_slot {stack : Array Frame} {i : Nat} {old : Option Nat}
    (hstack : st.stack = stack.push (.slot i old)) (hbase : base ≤ stack.size)
    (hi : i < st.slots.size) :
    m.Leads base (.reject st)
      (.reject { st with stack := stack, slots := st.slots.setIfInBounds i old }) := by
  apply leads_of_backtrack
  simp only [backtrack, hstack, Array.size_push, Nat.succ_sub hbase, State.unwind,
    Array.back?_push, Array.pop_push, if_pos hi]

/-- The old value of a loop register is put back. -/
theorem leads_register {stack : Array Frame} {i : Nat} {old : Option Nat}
    (hstack : st.stack = stack.push (.register i old)) (hbase : base ≤ stack.size)
    (hi : i < st.registers.size) :
    m.Leads base (.reject st)
      (.reject { st with stack := stack, registers := st.registers.setIfInBounds i old }) := by
  apply leads_of_backtrack
  simp only [backtrack, hstack, Array.size_push, Nat.succ_sub hbase, State.unwind,
    Array.back?_push, Array.pop_push, if_pos hi]

/-- The old values of all capture slots are put back. -/
theorem leads_slots {stack : Array Frame} {old : Array (Option Nat)}
    (hstack : st.stack = stack.push (.slots old)) (hbase : base ≤ stack.size)
    (hi : old.size = st.slots.size) :
    m.Leads base (.reject st) (.reject { st with stack := stack, slots := old }) := by
  apply leads_of_backtrack
  simp only [backtrack, hstack, Array.size_push, Nat.succ_sub hbase, State.unwind,
    Array.back?_push, Array.pop_push, if_pos hi]

end Machine

end RegexEngine

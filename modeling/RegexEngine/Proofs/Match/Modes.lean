import RegexEngine.Proofs.Match.Widths
import RegexEngine.Proofs.Program.Relocation

/-!
# Matching without captures

Where nobody asks for the groups of a match and no back-reference reads them, the program of a
pattern stores no captures.  It makes the steps of the program that does, apart from those that
store captures, from moved addresses.  Its stack lacks the old values of capture slots, so that it
is never the higher one of the two, and it never takes more steps.

* `Machine.Drops` — a machine that leaves out what another one does to store captures.
* `Machine.Stacked`, `Machine.Sim` — stacks and states of the two that correspond to each other.
* `Machine.Drops.run_sim` — **their runs end alike**, unless the first one is stopped.
* `Machine.Imitates` — machines whose attempts end alike.
* `Machine.Imitates.found?_search` — **so do their searches.**
* `Pattern.imitates_of_compile` — **the two programs of a pattern find matches at the same places.**
-/

namespace RegexEngine

namespace Machine

/-- The second machine makes the steps of the first one, apart from those that store captures.  The
addresses of the first are moved by `φ`. -/
structure Drops (φ : Nat → Nat) (m m' : Machine) : Prop where
  entry : φ 0 = 0
  omits : ∀ {pc i}, m.program.code[pc]? = some i → i.stores = true → φ (pc + 1) = φ pc
  keeps : ∀ {pc i}, m.program.code[pc]? = some i → i.stores = false →
    φ (pc + 1) = φ pc + 1 ∧
      ∃ j, m'.program.code[φ pc]? = some j ∧ Instr.Moved (m.SameTest m') φ i j
  registers : m'.program.registers = m.program.registers
  anchored : m'.program.anchored = m.program.anchored
  firstUnit : m'.program.firstUnit = m.program.firstUnit
  limits : m'.limits = m.limits
  units : m'.text.units = m.text.units
  interrupted : m'.interrupted = m.interrupted

/-! ### Stacks without captures -/

/-- The second stack is the first one without the old values of capture slots, its alternatives
moved.  At the bottom of the two lie `lo` and `lo'`; the second machine has `n` slots. -/
inductive Stacked (φ : Nat → Nat) (n : Nat) (lo lo' : Array Frame) :
    Array Frame → Array Frame → Prop
  | base : Stacked φ n lo lo' lo lo'
  | branch (pc pos : Nat) {s s' : Array Frame} (h : Stacked φ n lo lo' s s') :
    Stacked φ n lo lo' (s.push (.branch pc pos)) (s'.push (.branch (φ pc) pos))
  | register (i : Nat) (old : Option Nat) {s s' : Array Frame} (h : Stacked φ n lo lo' s s') :
    Stacked φ n lo lo' (s.push (.register i old)) (s'.push (.register i old))
  | slot (i : Nat) (old : Option Nat) {s s' : Array Frame} (h : Stacked φ n lo lo' s s') :
    Stacked φ n lo lo' (s.push (.slot i old)) s'
  | slots (old : Array (Option Nat)) {old' : Array (Option Nat)} (hold : old'.size = n)
    {s s' : Array Frame} (h : Stacked φ n lo lo' s s') :
    Stacked φ n lo lo' (s.push (.slots old)) (s'.push (.slots old'))

section Stacks

variable {φ : Nat → Nat} {n : Nat} {lo lo' s s' : Array Frame}

/-- Nothing at the bottom is taken away. -/
theorem Stacked.bottom (h : Stacked φ n lo lo' s s') :
    (∃ frames, s = lo ++ frames) ∧ ∃ frames, s' = lo' ++ frames := by
  have hpush : ∀ {lo s : Array Frame} (f : Frame), (∃ frames, s = lo ++ frames) →
      ∃ frames, s.push f = lo ++ frames := by
    rintro lo s f ⟨frames, rfl⟩
    exact ⟨frames.push f, Array.push_append⟩
  induction h with
  | base => exact ⟨⟨#[], by simp⟩, #[], by simp⟩
  | branch pc pos h ih => exact ⟨hpush _ ih.1, hpush _ ih.2⟩
  | register i old h ih => exact ⟨hpush _ ih.1, hpush _ ih.2⟩
  | slot i old h ih => exact ⟨hpush _ ih.1, ih.2⟩
  | slots old hold h ih => exact ⟨hpush _ ih.1, hpush _ ih.2⟩

theorem Stacked.base_le (h : Stacked φ n lo lo' s s') :
    lo.size ≤ s.size ∧ lo'.size ≤ s'.size := by
  obtain ⟨⟨frames, rfl⟩, ⟨frames', rfl⟩⟩ := h.bottom
  simp only [Array.size_append]
  omega

/-- **The second stack is not the higher one.** -/
theorem Stacked.size_le (h : Stacked φ n lo lo' s s') (hlo : lo'.size ≤ lo.size) :
    s'.size ≤ s.size := by
  induction h with
  | base => exact hlo
  | branch pc pos h ih | register i old h ih | slot i old h ih | slots old hold h ih =>
    simp only [Array.size_push]
    omega

end Stacks

/-! ### States that correspond to each other -/

/-- The states of two runs of which the second one stores no captures. -/
structure Sim (φ : Nat → Nat) (n : Nat) (lo lo' : Array Frame) (st st' : State) : Prop where
  stacked : Stacked φ n lo lo' st.stack st'.stack
  registers : st'.registers = st.registers
  failures : st'.failures = st.failures
  size : st'.slots.size = n

/-- The effects of two steps.  Nothing is said about the second one where the first one stops. -/
inductive EffectSim (φ : Nat → Nat) (n : Nat) (lo lo' : Array Frame) : Effect → Effect → Prop
  | go (pc pos : Nat) {st st' : State} (h : Sim φ n lo lo' st st') :
    EffectSim φ n lo lo' (.go pc pos st) (.go (φ pc) pos st')
  | reject {st st' : State} (h : Sim φ n lo lo' st st') :
    EffectSim φ n lo lo' (.reject st) (.reject st')
  | accept (pos : Nat) {st st' : State} (h : Sim φ n lo lo' st st') :
    EffectSim φ n lo lo' (.accept pos st) (.accept pos st')
  | look (negated : Bool) (body next pos : Nat) {st st' : State} (h : Sim φ n lo lo' st st') :
    EffectSim φ n lo lo' (.look negated body next pos st)
      (.look negated (φ body) (φ next) pos st')
  | stop (s : Stop) (e : Effect) : EffectSim φ n lo lo' (.stop s) e

/-- The ends of two runs. -/
inductive ResultSim (φ : Nat → Nat) (n : Nat) (lo lo' : Array Frame) : Result → Result → Prop
  | accepted (pos : Nat) {st st' : State} (h : Sim φ n lo lo' st st') :
    ResultSim φ n lo lo' (.accepted pos st) (.accepted pos st')
  | failed {st st' : State} (h : Sim φ n lo lo' st st') :
    ResultSim φ n lo lo' (.failed st) (.failed st')
  | stopped (s : Stop) (r : Result) : ResultSim φ n lo lo' (.stopped s) r

section Steps

variable {φ : Nat → Nat} {n : Nat} {lo lo' : Array Frame} {m m' : Machine} {st st' : State}
  {pc pos : Nat}

/-- A test of both machines. -/
theorem SameTest.perform_sim {i j : Instr} (h : m.SameTest m' i j)
    (hunits : m'.text.units = m.text.units) (hnext : φ (pc + 1) = φ pc + 1)
    (hst : Sim φ n lo lo' st st') :
    EffectSim φ n lo lo' (m.perform i pc pos st) (m'.perform j (φ pc) pos st') := by
  obtain ⟨item, item', hi, hj, hsame⟩ := h.performs
  rw [hi, hj, hsame.behind?_eq hunits]
  cases item.behind? m.text pos with
  | none => exact .reject hst
  | some q =>
    dsimp only
    rw [← hnext]
    exact .go _ _ hst

/-- If the first stack has room, so has the second one. -/
theorem pushAnd_sim (hlimit : m'.limits.backtrack = m.limits.backtrack)
    (hlo : lo'.size ≤ lo.size) {f f' : Frame} {k k' : State → Effect}
    (hst : Sim φ n lo lo' st st')
    (hk : EffectSim φ n lo lo' (k { st with stack := st.stack.push f })
      (k' { st' with stack := st'.stack.push f' })) :
    EffectSim φ n lo lo' (m.pushAnd f st k) (m'.pushAnd f' st' k') := by
  have hle := hst.stacked.size_le hlo
  rw [pushAnd, pushAnd, hlimit]
  by_cases hfull : m.limits.backtrack ≤ st.stack.size
  · rw [if_pos hfull]
    exact .stop _ _
  · rw [if_neg hfull, if_neg (by omega)]
    exact hk

/-- The second machine is still where it was when the first one has stored a capture. -/
def Lags (φ : Nat → Nat) (n : Nat) (lo lo' : Array Frame) (st' : State) (pc pos : Nat)
    (e : Effect) : Prop :=
  (∃ s, e = .stop s) ∨ ∃ st, e = .go pc pos st ∧ Sim φ n lo lo' st st'

theorem setSlot_lags {slot : Nat} {value : Option Nat} {k : State → Effect}
    (hst : Sim φ n lo lo' st st')
    (hk : ∀ st, Sim φ n lo lo' st st' → Lags φ n lo lo' st' pc pos (k st)) :
    Lags φ n lo lo' st' pc pos (m.setSlot slot value st k) := by
  rw [setSlot]
  split
  · exact Or.inl ⟨_, rfl⟩
  · next old hold =>
    rw [pushAnd]
    split
    · exact Or.inl ⟨_, rfl⟩
    · exact hk _ ⟨.slot slot old hst.stacked, hst.registers, hst.failures, hst.size⟩

theorem clearSlots_lags (count slot : Nat) (hst : Sim φ n lo lo' st st') :
    Lags φ n lo lo' st' pc pos (m.clearSlots count slot st fun st => .go pc pos st) := by
  induction count generalizing slot st with
  | zero => exact Or.inr ⟨st, rfl, hst⟩
  | succ count ih =>
    rw [clearSlots]
    split
    · exact Or.inl ⟨_, rfl⟩
    · exact ih _ hst
    · exact setSlot_lags hst fun st hst => ih _ hst

/-- An instruction that stores captures does nothing else. -/
theorem perform_lags {i : Instr} (hi : i.stores = true) (hst : Sim φ n lo lo' st st') :
    Lags φ n lo lo' st' (pc + 1) pos (m.perform i pc pos st) := by
  cases i with
  | save slot => exact setSlot_lags hst fun st hst => Or.inr ⟨st, rfl, hst⟩
  | clear first last => exact clearSlots_lags _ _ hst
  | _ => cases hi

/-- **Every other instruction has the same effect on both machines.** -/
theorem Drops.perform_sim (h : Drops φ m m') {i j : Instr}
    (hij : Instr.Moved (m.SameTest m') φ i j) (hnext : φ (pc + 1) = φ pc + 1)
    (hlo : lo'.size ≤ lo.size) (hst : Sim φ n lo lo' st st') :
    EffectSim φ n lo lo' (m.perform i pc pos st) (m'.perform j (φ pc) pos st') := by
  have hlimit := congrArg Limits.backtrack h.limits
  cases hij with
  | test hij => exact hij.perform_sim h.units hnext hst
  | split first second =>
    exact pushAnd_sim hlimit hlo hst
      (.go _ _ ⟨.branch _ _ hst.stacked, hst.registers, hst.failures, hst.size⟩)
  | jump target => exact .go _ _ hst
  | mark register =>
    rw [perform, perform, markRegister, markRegister, hst.registers, ← hnext]
    split
    · exact .stop _ _
    · refine pushAnd_sim hlimit hlo hst (.go _ _ ⟨.register _ _ hst.stacked, ?_, hst.failures,
        hst.size⟩)
      exact congrArg (fun registers => registers.setIfInBounds register (some pos)) hst.registers
  | progress register =>
    rw [perform, perform, checkProgress, checkProgress, hst.registers, ← hnext]
    split
    · exact .stop _ _
    · split
      · exact .reject hst
      · exact .go _ _ hst
  | look negated body next => exact .look _ _ _ _ hst
  | lookEnd => exact .accept _ hst
  | accept => exact .accept _ hst

/-! ### Failing back -/

/-- Both machines fail back to the same alternative. -/
theorem unwind_sim {s s' : Array Frame} (hs : Stacked φ n lo lo' s s') (hstack : st.stack = s)
    (hstack' : st'.stack = s') (hregisters : st'.registers = st.registers)
    (hfailures : st'.failures = st.failures) (hsize : st'.slots.size = n) :
    EffectSim φ n lo lo' (st.unwind (s.size - lo.size)) (st'.unwind (s'.size - lo'.size)) := by
  induction hs generalizing st st' with
  | base =>
    rw [Nat.sub_self, Nat.sub_self]
    exact .reject ⟨hstack ▸ hstack' ▸ .base, hregisters, hfailures, hsize⟩
  | branch pc pos h ih =>
    rw [Array.size_push, Array.size_push, Nat.succ_sub h.base_le.1, Nat.succ_sub h.base_le.2,
      State.unwind, State.unwind, hstack, hstack', Array.back?_push, Array.back?_push]
    simp only [Array.pop_push]
    exact .go _ _ ⟨h, hregisters, hfailures, hsize⟩
  | register i old h ih =>
    rw [Array.size_push, Array.size_push, Nat.succ_sub h.base_le.1, Nat.succ_sub h.base_le.2,
      State.unwind, State.unwind, hstack, hstack', Array.back?_push, Array.back?_push]
    simp only [Array.pop_push, hregisters]
    split
    · exact ih rfl rfl rfl hfailures hsize
    · exact .stop _ _
  | slot i old h ih =>
    rw [Array.size_push, Nat.succ_sub h.base_le.1, State.unwind, hstack, Array.back?_push]
    simp only [Array.pop_push]
    split
    · exact ih rfl hstack' hregisters hfailures hsize
    · exact .stop _ _
  | slots old hold h ih =>
    rw [Array.size_push, Array.size_push, Nat.succ_sub h.base_le.1, Nat.succ_sub h.base_le.2,
      State.unwind, State.unwind, hstack, hstack', Array.back?_push, Array.back?_push]
    simp only [Array.pop_push, if_pos (hold.trans hsize.symm)]
    split
    · exact ih rfl rfl hregisters hfailures hold
    · exact .stop _ _

theorem Drops.backtrack_sim (h : Drops φ m m') (hst : Sim φ n lo lo' st st') :
    EffectSim φ n lo lo' (m.backtrack lo.size st) (m'.backtrack lo'.size st') := by
  rw [backtrack, backtrack, h.limits, h.interrupted, hst.failures]
  split
  · split
    · exact .stop _ _
    · exact unwind_sim hst.stacked rfl rfl hst.registers rfl hst.size
  · exact unwind_sim hst.stacked rfl rfl hst.registers rfl hst.size

/-! ### Runs -/

/-- A condition on what follows is dropped from both stacks. -/
theorem Drops.afterLook_sim (h : Drops φ m m') (hlo : lo'.size ≤ lo.size)
    (hst : Sim φ n lo lo' st st') (negated : Bool) (next pos : Nat) {r r' : Result}
    (hr : ResultSim φ n st.stack st'.stack r r') :
    EffectSim φ n lo lo' (m.afterLook negated next pos st.slots st.stack.size r)
      (m'.afterLook negated (φ next) pos st'.slots st'.stack.size r') := by
  -- what lies on the stacks from before the condition still corresponds to each other
  have hback : ∀ {st₁ st₁' : State} (slots : Array (Option Nat)) {slots' : Array (Option Nat)},
      Sim φ n st.stack st'.stack st₁ st₁' → slots'.size = n →
        Sim φ n lo lo' { st₁.truncate st.stack.size with slots := slots }
          { st₁'.truncate st'.stack.size with slots := slots' } := by
    intro st₁ st₁' slots slots' h₁ hslots
    obtain ⟨⟨frames, hframes⟩, ⟨frames', hframes'⟩⟩ := h₁.stacked.bottom
    refine ⟨?_, h₁.registers, h₁.failures, hslots⟩
    simpa [State.truncate, hframes, hframes'] using hst.stacked
  cases hr with
  | stopped s r => exact .stop _ _
  | failed h₁ =>
    cases negated with
    | true => exact .go _ _ (hback _ h₁ hst.size)
    | false => exact .reject (hback _ h₁ h₁.size)
  | @accepted stop st₁ st₁' h₁ =>
    cases negated with
    | true => exact .reject (hback _ h₁ hst.size)
    | false =>
      have hkept := hback st₁.slots h₁ h₁.size
      exact pushAnd_sim (congrArg Limits.backtrack h.limits) hlo hkept
        (.go _ _ ⟨.slots _ hst.size hkept.stacked, hkept.registers, hkept.failures, hkept.size⟩)

/-- The runs of the two machines with at most so many steps end alike. -/
def RunsAlike (φ : Nat → Nat) (n : Nat) (m m' : Machine) (fuel fuel' : Nat) : Prop :=
  ∀ {lo lo' : Array Frame} {pc pos : Nat} {st st' : State}, lo'.size ≤ lo.size →
    Sim φ n lo lo' st st' →
      ResultSim φ n lo lo' (m.run fuel lo.size pc pos st) (m'.run fuel' lo'.size (φ pc) pos st')

/-- Conditions on what follows are decided alike. -/
theorem Drops.settle_sim (h : Drops φ m m') {fuel fuel' : Nat}
    (hruns : RunsAlike φ n m m' fuel fuel') (hlo : lo'.size ≤ lo.size) {e e' : Effect}
    (he : EffectSim φ n lo lo' e e') :
    EffectSim φ n lo lo' (m.settle fuel e) (m'.settle fuel' e') := by
  cases he with
  | @look negated body next pos st st' hst =>
    -- the run of the condition has the two stacks as its bottom
    have hbody : ResultSim φ n st.stack st'.stack (m.run fuel st.stack.size body pos st)
        (m'.run fuel' st'.stack.size (φ body) pos st') :=
      hruns (hst.stacked.size_le hlo) ⟨.base, hst.registers, hst.failures, hst.size⟩
    exact h.afterLook_sim hlo hst negated next pos hbody
  | stop s e => exact .stop _ _
  | go pc pos hst => exact .go _ _ hst
  | reject hst => exact .reject hst
  | accept pos hst => exact .accept _ hst

/-- Runs go on alike behind effects that correspond to each other. -/
theorem Drops.finish_sim (h : Drops φ m m') {fuel fuel' : Nat}
    (hruns : RunsAlike φ n m m' fuel fuel') (hlo : lo'.size ≤ lo.size) {e e' : Effect}
    (he : EffectSim φ n lo lo' e e') :
    ResultSim φ n lo lo' (m.finish fuel lo.size e) (m'.finish fuel' lo'.size e') := by
  cases he with
  | go pc pos hst => exact hruns hlo hst
  | accept pos hst => exact .accepted _ hst
  | look negated body next pos hst => exact .stopped _ _
  | stop s e => exact .stopped _ _
  | reject hst =>
    have hback := h.backtrack_sim hst
    rw [finish, finish]
    generalize m.backtrack lo.size _ = x at hback ⊢
    generalize m'.backtrack lo'.size _ = y at hback ⊢
    cases hback with
    | go pc pos hst => exact hruns hlo hst
    | reject hst => exact .failed hst
    | _ => exact .stopped _ _

/-- **The runs of the two machines end alike**, unless the first one is stopped.  The induction is
on the number of steps of the first machine, of which the second one needs no more. -/
theorem Drops.run_sim (h : Drops φ m m') {fuel fuel' : Nat} (hfuel : fuel ≤ fuel') :
    RunsAlike φ n m m' fuel fuel' := by
  induction fuel generalizing fuel' with
  | zero => exact fun _ _ => .stopped _ _
  | succ fuel ih =>
    intro lo lo' pc pos st st' hlo hst
    cases hcode : m.program.code[pc]? with
    | none =>
      rw [run_succ, step, hcode]
      exact .stopped _ _
    | some i =>
      by_cases hi : i.stores = true
      · -- the second machine has no such instruction and waits
        have hlags : Lags φ n lo lo' st' (pc + 1) pos (m.perform i pc pos st) :=
          perform_lags hi hst
        rw [run_succ, step, hcode]
        dsimp only
        rcases hlags with ⟨s, hs⟩ | ⟨st₁, hgo, hst₁⟩
        · rw [hs]
          exact .stopped _ _
        · rw [hgo, ← h.omits hcode hi]
          exact ih (by omega) hlo hst₁
      · obtain ⟨hnext, j, hj, hij⟩ := h.keeps hcode (by simpa using hi)
        obtain ⟨fuel', rfl⟩ : ∃ k, fuel' = k + 1 := ⟨fuel' - 1, by omega⟩
        have hruns : RunsAlike φ n m m' fuel fuel' := ih (by omega)
        rw [run_succ, run_succ, resume, resume, step, step, hcode, hj]
        exact h.finish_sim hruns hlo (h.settle_sim hruns hlo (h.perform_sim hij hnext hlo hst))

end Steps

/-! ### Searches -/

/-- The ends of two attempts of which the second one may report other captures.  Nothing is said
about it where the first one is stopped. -/
inductive ResultLike : Result → Result → Prop
  | accepted (stop stop' : Nat) (st st' : State) :
    ResultLike (.accepted stop st) (.accepted stop' st')
  | failed {st st' : State} (h : st'.failures = st.failures) :
    ResultLike (.failed st) (.failed st')
  | stopped (s : Stop) (r : Result) : ResultLike (.stopped s) r

theorem ResultSim.like_close {φ : Nat → Nat} {n : Nat} {lo lo' : Array Frame} {r r' : Result}
    (h : ResultSim φ n lo lo' r r') : ResultLike r.close r'.close := by
  cases h with
  | accepted pos h => exact .accepted _ _ _ _
  | failed h => exact .failed h.failures
  | stopped s r => exact .stopped _ _

/-- The second machine finds matches where the first one does, as long as that is not stopped. -/
structure Imitates (m m' : Machine) : Prop where
  anchored : m'.program.anchored = m.program.anchored
  firstUnit : m'.program.firstUnit = m.program.firstUnit
  units : m'.text.units = m.text.units
  interrupted : m'.interrupted = m.interrupted
  attempt : ∀ pos failures, ResultLike (m.attempt pos failures) (m'.attempt pos failures)

/-- A machine that leaves out what stores captures finds the same matches. -/
theorem Drops.imitates {φ : Nat → Nat} {m m' : Machine} (h : Drops φ m m') : Imitates m m' where
  anchored := h.anchored
  firstUnit := h.firstUnit
  units := h.units
  interrupted := h.interrupted
  attempt pos failures := by
    have hstart : Sim φ (m'.start pos failures).slots.size #[] #[] (m.start pos failures)
        (m'.start pos failures) :=
      ⟨.base, by rw [start, start, h.registers], rfl, rfl⟩
    have hrun : ResultSim φ _ #[] #[] (m.run m.limits.steps 0 0 pos (m.start pos failures))
        (m'.run m.limits.steps 0 (φ 0) pos (m'.start pos failures)) :=
      h.run_sim (Nat.le_refl _) (Nat.le_refl _) hstart
    rw [h.entry] at hrun
    rw [attempt_eq, attempt_eq, h.limits]
    exact hrun.like_close

/-- A machine that makes the same steps finds the same matches. -/
theorem Twin.imitates {m m' : Machine} (h : m.Twin m') : Imitates m m' where
  anchored := h.anchored
  firstUnit := h.firstUnit
  units := h.units
  interrupted := h.interrupted
  attempt pos failures := by
    rw [h.abreast.attempt_eq]
    cases m.attempt pos failures with
    | accepted stop st => exact .accepted _ _ _ _
    | failed st => exact .failed rfl
    | stopped s => exact .stopped _ _

end Machine

/-- Whether there is a match, where the search has an answer. -/
def Outcome.found? : Outcome → Option Bool
  | matched _ => some true
  | noMatch => some false
  | interrupted | failed _ => none

namespace Machine

theorem found?_toOutcome (s : Stop) : s.toOutcome.found? = none := by cases s <;> rfl

variable {m m' : Machine} {b : Bool}

theorem Imitates.found?_searchFrom (h : Imitates m m') {last room pos failures : Nat}
    {pairs : Array Pair} (pairs' : Array Pair)
    (hb : (m.searchFrom last pairs room pos failures).found? = some b) :
    (m'.searchFrom last pairs' room pos failures).found? = some b := by
  induction room generalizing pos failures with
  | zero => exact hb
  | succ room ih =>
    rw [searchFrom] at hb ⊢
    rw [candidate?_congr h.firstUnit h.units, h.interrupted]
    rcases hc : m.candidate? pos with s | _ | q
    · rw [hc] at hb
      exact hb
    · rw [hc] at hb
      exact hb
    · rw [hc] at hb
      dsimp only at hb ⊢
      split at hb
      · next hq => rwa [if_pos hq]
      · next hq =>
        rw [if_neg hq]
        split at hb
        · cases hb
        · next hi =>
          rw [if_neg hi]
          have hattempt := h.attempt q failures
          generalize m.attempt q failures = r at hattempt hb
          generalize m'.attempt q failures = r' at hattempt
          cases hattempt with
          | accepted stop stop' st st' => exact hb
          | failed hf =>
            dsimp only at hb ⊢
            rw [hf]
            exact ih hb
          | stopped s r' =>
            dsimp only at hb
            rw [found?_toOutcome] at hb
            cases hb

/-- **A search has the same answer on a machine that imitates another one**, whatever pairs it is
to report. -/
theorem Imitates.found?_search (h : Imitates m m') {start : Nat} {pairs : Array Pair}
    (pairs' : Array Pair) (hb : (m.search start pairs).found? = some b) :
    (m'.search start pairs').found? = some b := by
  rw [search] at hb ⊢
  rw [h.anchored, Text.size, h.units]
  rw [Text.size] at hb
  split at hb
  · next hstart => rwa [if_pos hstart]
  · next hstart =>
    rw [if_neg hstart]
    exact h.found?_searchFrom pairs' hb

end Machine

/-- A row of tests finds a match whatever pairs it is to report. -/
theorem Sequence.found?_search (s : Sequence) (t : Text) (start : Nat) (pairs pairs' : Array Pair)
    (interrupted : Bool) :
    (s.search t start pairs' interrupted).found? = (s.search t start pairs interrupted).found? := by
  have hfrom : ∀ last room pos, (s.searchFrom t interrupted last pairs' room pos).found? =
      (s.searchFrom t interrupted last pairs room pos).found? := by
    intro last room
    induction room with
    | zero => exact fun _ => rfl
    | succ room ih =>
      intro pos
      rw [searchFrom, searchFrom]
      cases s.candidate? t pos with
      | none => rfl
      | some q =>
        dsimp only
        split
        · rfl
        · split
          · rfl
          · split
            · rfl
            · exact ih _
  rw [search, search]
  split
  · rfl
  · exact hfrom _ _ _

/-! ### The two programs of a pattern -/

namespace Pattern

variable {p : Pattern} {width : Width} {flags : Flags}
  {tables₀ tables tables₀' tables' later later' : Array CharTable} {cap cap' : Nat}
  {prog prog' : Program} {m m' : Machine}

/-- The program that stores no captures leaves out what the other one does to store them. -/
theorem drops_of_compile (h : p.compile .normal width flags tables₀ cap = (.ok prog, tables))
    (h' : p.compile .matchOnly width flags tables₀' cap' = (.ok prog', tables'))
    (hback : p.root.hasBackRefs = false)
    (hprog : m.program = prog) (htables : m.tables = tables ++ later)
    (hprog' : m'.program = prog') (htables' : m'.tables = tables' ++ later')
    (hwidth : m.text.width = width) (hwidth' : m'.text.width = width)
    (hunits : m'.text.units = m.text.units) (hlimits : m'.limits = m.limits)
    (hi : m'.interrupted = m.interrupted) : ∃ φ, m.Drops φ m' := by
  obtain ⟨heq, -⟩ := eq_of_compile h
  obtain ⟨heq', -⟩ := eq_of_compile h'
  have hhas := hasTables_of_compile h later
  have hhas' := hasTables_of_compile h' later'
  rw [← htables] at hhas
  rw [← htables'] at hhas'
  have hcaptures : (p.target .matchOnly width flags cap').captures = false := by
    rw [target, hback]
    rfl
  have halike : (p.target .normal width flags cap).Alike (p.target .matchOnly width flags cap')
      m m' := alike_target hwidth hwidth' hunits
  have herases := Node.erases_fragment (D := fun i => i.stores = true)
    (halike.erases (fun _ _ => id) (Or.inr ⟨hcaptures, fun _ => id⟩)) p.root _ _ 0
    (fun hroot => absurd hroot (by simp [hback])) hhas hhas'
  have hcode : m.program.code =
      ((p.fragment .normal width flags tables₀ cap).code 0 ++ [Instr.accept]).toArray := by
    rw [hprog, heq]
  have hcode' : m'.program.code =
      ((p.fragment .matchOnly width flags tables₀' cap').code 0 ++ [Instr.accept]).toArray := by
    rw [hprog', heq']
  refine ⟨movedAddress m.program.code.toList, rfl, fun hi hstores => ?_,
    fun {pc i} hi hstores => ?_, ?_, ?_, ?_, hlimits, hunits, hi⟩
  · rw [movedAddress_succ (by rwa [Array.getElem?_toList]), if_pos hstores, Nat.add_zero]
  · have hq : m.program.code.toList[pc]? = some i := by rwa [Array.getElem?_toList]
    refine ⟨by rw [movedAddress_succ hq, hstores, if_neg Bool.false_ne_true], ?_⟩
    rw [hcode', List.getElem?_toArray]
    have his : m.program.code.toList = _ := congrArg Array.toList hcode
    exact herases.moved_program (fun _ => id) (fun i j hij => hij.stores) his hq hstores
  all_goals rw [hprog, hprog', heq, heq']

/-- **The program that need not report captures finds matches where the other one does**, as long as
that is not stopped. -/
theorem imitates_of_compile (h : p.compile .normal width flags tables₀ cap = (.ok prog, tables))
    (h' : p.compile .matchOnly width flags tables₀' cap' = (.ok prog', tables'))
    (hprog : m.program = prog) (htables : m.tables = tables ++ later)
    (hprog' : m'.program = prog') (htables' : m'.tables = tables' ++ later')
    (hwidth : m.text.width = width) (hwidth' : m'.text.width = width)
    (hunits : m'.text.units = m.text.units) (hlimits : m'.limits = m.limits)
    (hi : m'.interrupted = m.interrupted) : m.Imitates m' := by
  cases hback : p.root.hasBackRefs with
  | true =>
    -- captures are stored in both modes
    have hcaptures : (p.target .matchOnly width flags cap').captures =
        (p.target .normal width flags cap).captures := by
      rw [target, target, hback, Bool.or_true, Bool.or_true]
    exact (twin_of_compile h h' hcaptures hprog htables hprog' htables' hwidth hwidth' hunits
      hlimits hi).imitates
  | false =>
    obtain ⟨φ, hdrops⟩ := drops_of_compile h h' hback hprog htables hprog' htables' hwidth hwidth'
      hunits hlimits hi
    exact hdrops.imitates

end Pattern

end RegexEngine

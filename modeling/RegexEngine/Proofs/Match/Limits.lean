import RegexEngine.Proofs.Match.Attempts

/-!
# Limits are only limits

The limit of the stack is looked at only where an entry is pushed.  If the stack is full there, the
run stops; else the limit makes no difference.  How often the interrupt flag is looked at makes
none either as long as nobody raises it.  This holds of every program, compiled or not.

* `Machine.Roomier` — a machine that differs from another one in its limits, with no less room on
  its stack.
* `Machine.run_roomier` — **more room changes a run only if the stack was full.**
* `Machine.search_mono` — more steps do not change the answer of a search.
* `Machine.search_limits` — **what a search answers within some limits it answers within wider
  ones.**
-/

namespace RegexEngine

namespace Machine

variable {m m' : Machine} {pc pos : Nat} {st : State}

/-- The same machine within other limits. -/
def withLimits (m : Machine) (limits : Limits) : Machine := { m with limits }

/-- The second machine runs the same program over the same text, and has no less room on its
stack.  Neither is interrupted. -/
structure Roomier (m m' : Machine) : Prop where
  program : m'.program = m.program
  tables : m'.tables = m.tables
  text : m'.text = m.text
  backtrack : m.limits.backtrack ≤ m'.limits.backtrack
  clear : m.interrupted = false
  clear' : m'.interrupted = false

/-! ### Single instructions -/

/-- With more room the effect is the same, unless the stack was full. -/
def Effect.Kept (e e' : Effect) : Prop := e = .stop .overRecursed ∨ e' = e

theorem Effect.Kept.refl (e : Effect) : e.Kept e := Or.inr rfl

namespace Roomier

variable (h : m.Roomier m') {k k' : State → Effect}

include h

theorem kept_pushAnd (f : Frame) (st : State) (hk : ∀ st, (k st).Kept (k' st)) :
    (m.pushAnd f st k).Kept (m'.pushAnd f st k') := by
  have hle := h.backtrack
  rw [pushAnd, pushAnd]
  by_cases hfull : m.limits.backtrack ≤ st.stack.size
  · rw [if_pos hfull]
    exact Or.inl rfl
  · rw [if_neg hfull]
    split
    · -- no room here, although there is no less than there
      omega
    · exact hk _

theorem kept_setSlot (slot : Nat) (value : Option Nat) (st : State)
    (hk : ∀ st, (k st).Kept (k' st)) :
    (m.setSlot slot value st k).Kept (m'.setSlot slot value st k') := by
  rw [setSlot, setSlot]
  cases st.slots[slot]? with
  | none => exact .refl _
  | some old => exact h.kept_pushAnd _ st fun _ => hk _

theorem kept_clearSlots (n slot : Nat) (st : State) (hk : ∀ st, (k st).Kept (k' st)) :
    (m.clearSlots n slot st k).Kept (m'.clearSlots n slot st k') := by
  induction n generalizing slot st with
  | zero => exact hk st
  | succ n ih =>
    rw [clearSlots, clearSlots]
    rcases st.slots[slot]? with _ | _ | v
    · exact .refl _
    · exact ih ..
    · exact h.kept_setSlot _ _ st fun _ => ih ..

/-- **With more room an instruction does the same, unless the stack was full.** -/
theorem kept_step (pc pos : Nat) (st : State) : (m.step pc pos st).Kept (m'.step pc pos st) := by
  rw [step, step, h.program]
  cases m.program.code[pc]? with
  | none => exact .refl _
  | some i =>
    dsimp only
    cases i with
    | split first second => exact h.kept_pushAnd _ st fun _ => .refl _
    | save slot => exact h.kept_setSlot _ _ st fun _ => .refl _
    | clear first last => exact h.kept_clearSlots _ _ st fun _ => .refl _
    | mark register =>
      rw [perform, perform, markRegister, markRegister]
      cases st.registers[register]? with
      | none => exact .refl _
      | some old => exact h.kept_pushAnd _ st fun _ => .refl _
    | unit _ | folded _ | any | inTable _ _ _ | anchor _ | backRef _ _ =>
      refine Or.inr ?_
      simp only [perform, consume, consumeInTable, consumeGroup, h.text, h.tables]
    | _ => exact .refl _

theorem kept_afterLook (negated : Bool) (next pos : Nat) (slots : Array (Option Nat)) (base : Nat)
    (r : Result) :
    (m.afterLook negated next pos slots base r).Kept
      (m'.afterLook negated next pos slots base r) := by
  cases r with
  | stopped s => exact .refl _
  | failed st => exact .refl _
  | accepted stop st =>
    cases negated with
    | true => exact .refl _
    | false => exact h.kept_pushAnd _ _ fun _ => .refl _

end Roomier

/-! ### Runs -/

/-- With more room the result is the same apart from the failures that were counted, unless the
stack was full. -/
def Result.Kept (r r' : Result) : Prop :=
  r = .stopped .overRecursed ∨ ∃ j, r' = r.count j

/-- Both machines fail back to the same alternative. -/
theorem Roomier.exists_backtrack (h : m.Roomier m') (base : Nat) (st : State) (j : Nat) :
    ∃ i i', m.backtrack base st = (st.unwind (st.stack.size - base)).count i ∧
      m'.backtrack base (st.count j) = (st.unwind (st.stack.size - base)).count i' := by
  obtain ⟨i, hi⟩ := backtrack_count h.clear base st
  obtain ⟨i', hi'⟩ := backtrack_count h.clear' base (st.count j)
  rw [unwind_count, Effect.count_count, show (st.count j).stack = st.stack from rfl] at hi'
  exact ⟨i, i', hi, hi'⟩

/-- Runs from anywhere that differ in the failures counted at most, unless the stack was full. -/
def RunsKept (m m' : Machine) (fuel : Nat) : Prop :=
  ∀ base pc pos st j, (m.run fuel base pc pos st).Kept (m'.run fuel base pc pos (st.count j))

/-- If that holds of the run of a condition, it holds of what the condition comes to. -/
theorem Roomier.kept_settle (h : m.Roomier m') {fuel : Nat} (hrun : RunsKept m m' fuel)
    (e : Effect) (j : Nat) : m.settle fuel e = .stop .overRecursed ∨
      ∃ i, m'.settle fuel (e.count j) = (m.settle fuel e).count i := by
  cases e with
  | look negated body next pos st =>
    rcases hrun st.stack.size body pos st j with hfull | ⟨i, hi⟩
    · rw [settle, hfull]
      exact Or.inl rfl
    · have hafter := h.kept_afterLook negated next pos st.slots st.stack.size
        (m.run fuel st.stack.size body pos st)
      rcases hafter with hfull | hsame
      · exact Or.inl hfull
      · refine Or.inr ⟨i, ?_⟩
        rw [settle, ← hsame, ← afterLook_count, ← hi]
        rfl
  | _ => exact Or.inr ⟨j, rfl⟩

/-- If it holds of the run behind an effect, it holds of the run with the effect. -/
theorem Roomier.kept_finish (h : m.Roomier m') {fuel : Nat} (hrun : RunsKept m m' fuel)
    (base : Nat) (e : Effect) (i : Nat) :
    (m.finish fuel base e).Kept (m'.finish fuel base (e.count i)) := by
  cases e with
  | go pc pos st => exact hrun base pc pos st i
  | reject st =>
    obtain ⟨a, b, ha, hb⟩ := h.exists_backtrack base st i
    rw [show (Effect.reject st).count i = .reject (st.count i) from rfl, finish, finish, ha, hb]
    cases st.unwind (st.stack.size - base) with
    | go pc pos st =>
      -- the two go on with counters of their own
      exact hrun base pc pos (st.count a) b
    | reject st => exact Or.inr ⟨b, rfl⟩
    | _ => exact Or.inr ⟨0, rfl⟩
  | accept pos st => exact Or.inr ⟨i, rfl⟩
  | look => exact Or.inr ⟨0, rfl⟩
  | stop s => exact Or.inr ⟨0, rfl⟩

/-- **More room changes a run only if the stack was full.** -/
theorem run_roomier (h : m.Roomier m') (fuel : Nat) : RunsKept m m' fuel := by
  induction fuel with
  | zero => exact fun _ _ _ _ _ => Or.inr ⟨0, rfl⟩
  | succ fuel ih =>
    intro base pc pos st j
    -- a step, then the run of its condition, then the run behind it
    rw [run_succ, run_succ, resume, resume]
    rcases h.kept_step pc pos st with hfull | hsame
    · rw [hfull]
      exact Or.inl rfl
    · rw [step_count, hsame]
      rcases h.kept_settle ih (m.step pc pos st) j with hfull | ⟨i, hi⟩
      · rw [hfull]
        exact Or.inl rfl
      · rw [hi]
        exact h.kept_finish ih base _ i

/-- With more room an attempt with as many steps ends alike, unless the stack was full. -/
theorem attempt_roomier (h : m.Roomier m') (hsteps : m'.limits.steps = m.limits.steps)
    (pos j j' : Nat) : (m.attempt pos j).Kept (m'.attempt pos j') := by
  have hstart : m'.start pos j' = (m.start pos j).count j' := by
    rw [start, start, h.program]
    rfl
  rw [attempt_eq, attempt_eq, hstart, hsteps]
  rcases run_roomier h m.limits.steps 0 0 pos (m.start pos j) j' with hfull | ⟨i, hi⟩
  · rw [hfull]
    exact Or.inl rfl
  · rw [hi]
    refine Or.inr ⟨i, ?_⟩
    cases m.run m.limits.steps 0 0 pos (m.start pos j) <;> rfl

/-! ### Searches -/

/-- With more room a search with as many steps answers the same, unless the stack was full. -/
theorem searchFrom_roomier (h : m.Roomier m') (hsteps : m'.limits.steps = m.limits.steps)
    (last : Nat) (pairs : Array Pair) (room pos j j' : Nat) :
    m.searchFrom last pairs room pos j = .failed (.error .overRecursed) ∨
      m'.searchFrom last pairs room pos j' = m.searchFrom last pairs room pos j := by
  induction room generalizing pos j j' with
  | zero => exact Or.inr rfl
  | succ room ih =>
    have hcandidate : m'.candidate? pos = m.candidate? pos := by
      rw [candidate?, candidate?, h.program, h.text]
    rw [searchFrom, searchFrom, hcandidate, h.clear, h.clear']
    rcases m.candidate? pos with s | _ | q
    · exact Or.inr rfl
    · exact Or.inr rfl
    · dsimp only
      by_cases hq : last < q
      · rw [if_pos hq, if_pos hq]
        exact Or.inr rfl
      · rw [if_neg hq, if_neg hq, if_neg Bool.false_ne_true, if_neg Bool.false_ne_true]
        rcases attempt_roomier h hsteps q j j' with hfull | ⟨i, hi⟩
        · rw [hfull]
          exact Or.inl rfl
        · rw [hi]
          cases m.attempt q j with
          | accepted stop st => exact Or.inr rfl
          | failed st => exact ih ..
          | stopped s => exact Or.inr rfl

theorem search_roomier (h : m.Roomier m') (hsteps : m'.limits.steps = m.limits.steps)
    (start : Nat) (pairs : Array Pair) :
    m.search start pairs = .failed (.error .overRecursed) ∨
      m'.search start pairs = m.search start pairs := by
  rw [search, search, h.text, h.program]
  split
  · exact Or.inr rfl
  · exact searchFrom_roomier h hsteps _ _ _ _ _ _

/-- More steps do not change how an attempt ends. -/
theorem attempt_mono {n : Nat} (hn : m.limits.steps ≤ n) (pos failures : Nat)
    (hends : m.attempt pos failures ≠ .stopped .outOfSteps) :
    (m.withSteps n).attempt pos failures = m.attempt pos failures := by
  rw [attempt_withSteps, attempt_eq]
  refine congrArg Result.close (run_mono hn rfl fun hstop => hends ?_)
  rw [attempt_eq, hstop]
  rfl

theorem searchFrom_mono {n : Nat} (hn : m.limits.steps ≤ n) (last : Nat) (pairs : Array Pair)
    (room pos failures : Nat)
    (hends : m.searchFrom last pairs room pos failures ≠ .failed .outOfSteps) :
    (m.withSteps n).searchFrom last pairs room pos failures =
      m.searchFrom last pairs room pos failures := by
  induction room generalizing pos failures with
  | zero => rfl
  | succ room ih =>
    rw [searchFrom] at hends
    rw [searchFrom, searchFrom, show (m.withSteps n).candidate? pos = m.candidate? pos from rfl,
      show (m.withSteps n).interrupted = m.interrupted from rfl]
    rcases hc : m.candidate? pos with s | _ | q
    · rfl
    · rfl
    · rw [hc] at hends
      dsimp only at hends ⊢
      by_cases hq : last < q
      · rw [if_pos hq, if_pos hq]
      · rw [if_neg hq] at hends
        rw [if_neg hq, if_neg hq]
        split
        · rfl
        · next hclear =>
          rw [if_neg hclear] at hends
          have hattempt : m.attempt q failures ≠ .stopped .outOfSteps := by
            intro hstop
            rw [hstop] at hends
            exact hends rfl
          rw [attempt_mono hn q failures hattempt]
          cases hresult : m.attempt q failures with
          | failed st =>
            rw [hresult] at hends
            exact ih _ _ hends
          | _ => rfl

/-- **More steps do not change the answer of a search.** -/
theorem search_mono {n : Nat} (hn : m.limits.steps ≤ n) (start : Nat) (pairs : Array Pair)
    (hends : m.search start pairs ≠ .failed .outOfSteps) :
    (m.withSteps n).search start pairs = m.search start pairs := by
  rw [search] at hends
  rw [search, search, show (m.withSteps n).text = m.text from rfl,
    show (m.withSteps n).program = m.program from rfl]
  split
  · rfl
  · next hstart =>
    rw [if_neg hstart] at hends
    exact searchFrom_mono hn _ _ _ _ _ hends

/-- **Limits are only limits.**  If a search that nobody interrupts finds a match or none within
some limits, it finds the same match or none within limits that leave no less room on the stack,
whatever the number of failures between two looks at the interrupt flag; and if its stack is full
within the wider limits, it is full within the narrower ones.  This holds of every program, be it
made from a pattern or written by hand.  Of the steps that a search may take, more are as good. -/
theorem search_limits (m : Machine) (hclear : m.interrupted = false) {narrow wide : Limits}
    (hroom : narrow.backtrack ≤ wide.backtrack) (start : Nat) (pairs : Array Pair) :
    (narrow.steps ≤ wide.steps → ∀ o, (o = .noMatch ∨ ∃ found, o = .matched found) →
      (m.withLimits narrow).search start pairs = o → (m.withLimits wide).search start pairs = o) ∧
    (wide.steps ≤ narrow.steps →
      (m.withLimits wide).search start pairs = .failed (.error .overRecursed) →
        (m.withLimits narrow).search start pairs = .failed (.error .overRecursed)) := by
  constructor
  · intro hsteps o hanswer ho
    -- the wide limits, but with as few steps as the narrow ones
    let middle := (m.withLimits wide).withSteps narrow.steps
    have hroomier : (m.withLimits narrow).Roomier middle :=
      ⟨rfl, rfl, rfl, hroom, hclear, hclear⟩
    have hmiddle : middle.search start pairs = o := by
      rcases search_roomier hroomier rfl start pairs with hfull | hsame
      · rw [hfull] at ho
        rcases hanswer with rfl | ⟨found, rfl⟩ <;> cases ho
      · rw [hsame, ho]
    have hends : middle.search start pairs ≠ .failed .outOfSteps := by
      rw [hmiddle]
      rcases hanswer with rfl | ⟨found, rfl⟩ <;> simp
    rw [← hmiddle]
    exact search_mono (m := middle) hsteps start pairs hends
  · intro hsteps ho
    -- the narrow limits, but with as few steps as the wide ones
    let middle := (m.withLimits narrow).withSteps wide.steps
    have hroomier : middle.Roomier (m.withLimits wide) :=
      ⟨rfl, rfl, rfl, hroom, hclear, hclear⟩
    have hmiddle : middle.search start pairs = .failed (.error .overRecursed) := by
      rcases search_roomier hroomier rfl start pairs with hfull | hsame
      · exact hfull
      · rw [← hsame, ho]
    have hends : middle.search start pairs ≠ .failed .outOfSteps := by
      rw [hmiddle]
      simp
    rw [← hmiddle]
    exact search_mono (m := middle) hsteps start pairs hends

/-- A machine that runs a loop over `aaa`, of a program that no pattern has: each iteration leaves
an alternative on the stack. -/
def looping : Machine where
  program := {
    code := #[.split 1 3, .unit 0x61, .jump 0, .accept]
    groups := 0
    registers := 1
    anchored := false
    captures := true
    firstUnit := none }
  tables := #[]
  text := .ofUnits .latin1 #[0x61, 0x61, 0x61]
  limits := {}
  interrupted := false

/-- Four entries are enough for that loop, and three are too few. -/
theorem search_limits_looping :
    ((looping.withLimits { backtrack := 4, checkInterval := 1 }).search 0 #[.undefined] =
        .matched #[.span 0 3] ∧
      (looping.withLimits {}).search 0 #[.undefined] = .matched #[.span 0 3]) ∧
    ((looping.withLimits { backtrack := 3 }).search 0 #[.undefined] =
        .failed (.error .overRecursed) ∧
      (looping.withLimits { backtrack := 0, checkInterval := 1 }).search 0 #[.undefined] =
        .failed (.error .overRecursed)) := by
  have hmatched : (looping.withLimits { backtrack := 4, checkInterval := 1 }).search 0
      #[.undefined] = .matched #[.span 0 3] := by decide +kernel
  have hfull : (looping.withLimits { backtrack := 3 }).search 0 #[.undefined] =
      .failed (.error .overRecursed) := by decide +kernel
  have hfour : ({ backtrack := 4, checkInterval := 1 } : Limits).backtrack ≤
      ({} : Limits).backtrack := by decide
  have hthree : ({ backtrack := 0, checkInterval := 1 } : Limits).backtrack ≤
      ({ backtrack := 3 } : Limits).backtrack := by decide
  refine ⟨⟨hmatched, ?_⟩, hfull, ?_⟩
  · exact (search_limits looping rfl hfour 0 #[.undefined]).1 (Nat.le_refl _) _
      (Or.inr ⟨_, rfl⟩) hmatched
  · exact (search_limits looping rfl hthree 0 #[.undefined]).2 (Nat.le_refl _) hfull

end Machine

end RegexEngine

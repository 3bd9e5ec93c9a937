import Mathlib.Data.List.Basic
import RegexEngine.Proofs.Match.Simulation

/-!
# Attempts with compiled programs

An attempt runs the code of a fragment that an accepting instruction closes.  It accepts with the
first outcome of the fragment and fails if there is none; only an interrupt or a full stack can
keep it from that, given enough steps.

What a run does depends on few parts of the machine, and without interrupts not on how many
failures have been counted.

* `Machine.run_lockstep` — **machines that make the same steps have the same runs.**
* `Machine.run_count` — **without interrupts the counter of failures does not matter.**
* `Program.Implements` — the programs of a fragment.
* `Machine.attempt_spec` — **what an attempt finds.**
* `Machine.attempt_terminates` — **every attempt ends.**
* `Machine.search_terminates` — **so does every search.**
-/

namespace RegexEngine

/-- Whether an instruction looks at the text. -/
def Instr.reads : Instr → Bool
  | unit _ | folded _ | any | inTable .. | anchor _ | backRef .. => true
  | _ => false

namespace Machine

/-! ### Machines with the same runs -/

section Congr

variable {m m' : Machine} (hlimit : m'.limits.backtrack = m.limits.backtrack)

include hlimit in
theorem pushAnd_congr : m'.pushAnd = m.pushAnd := by
  funext f st k
  rw [pushAnd, pushAnd, hlimit]

include hlimit in
theorem setSlot_congr : m'.setSlot = m.setSlot := by
  funext slot value st k
  rw [setSlot, setSlot, pushAnd_congr hlimit]

include hlimit in
theorem clearSlots_congr : m'.clearSlots = m.clearSlots := by
  funext n slot st k
  induction n generalizing slot st with
  | zero => rfl
  | succ n ih => simp only [clearSlots, setSlot_congr hlimit, ih]

include hlimit in
theorem afterLook_congr : m'.afterLook = m.afterLook := by
  funext negated next pos slots base r
  cases r <;> simp only [afterLook, pushAnd_congr hlimit]

/-- Comparing units looks at nothing else of a text. -/
theorem sameUnits_congr {t t' : Text} (hunits : t'.units = t.units) (folded : Bool) (n i j : Nat) :
    sameUnits t' folded n i j = sameUnits t folded n i j := by
  induction n generalizing i j with
  | zero => rfl
  | succ n ih => simp only [sameUnits, Text.unit?, hunits, ih]

theorem holds_congr {t t' : Text} (hunits : t'.units = t.units) (a : Anchor) (pos : Nat) :
    a.holds t' pos = a.holds t pos := by
  simp only [Anchor.holds, Text.wordBefore, Text.wordAt, Text.lineEndAt, Text.unit?, Text.size,
    hunits]

/-- What an instruction does depends on the limit of the stack, the units of the text and, if it
looks a unit up, on its table. -/
theorem perform_congr {i : Instr} (hlimit : m'.limits.backtrack = m.limits.backtrack)
    (hunits : m'.text.units = m.text.units)
    (htable : ∀ table negated folded, i = .inTable table negated folded →
      m'.tables[table]? = m.tables[table]?) (pc pos : Nat) (st : State) :
    m'.perform i pc pos st = m.perform i pc pos st := by
  cases i with
  | inTable table negated folded =>
    simp only [perform, consumeInTable, Text.unit?, hunits, htable _ _ _ rfl]
  | backRef group folded =>
    simp only [perform, consumeGroup, Text.size, hunits, sameUnits_congr hunits]
    rfl
  | _ =>
    simp only [perform, consume, markRegister, Text.unit?, hunits, holds_congr hunits,
      pushAnd_congr hlimit, setSlot_congr hlimit, clearSlots_congr hlimit]

/-- What an instruction does that looks at no unit depends on the limit of the stack only. -/
theorem perform_congr_of_reads {i : Instr} (hi : i.reads = false)
    (hlimit : m'.limits.backtrack = m.limits.backtrack) (pc pos : Nat) (st : State) :
    m'.perform i pc pos st = m.perform i pc pos st := by
  cases i with
  | unit _ | folded _ | any | inTable _ _ _ | anchor _ | backRef _ _ => cases hi
  | _ =>
    simp only [perform, markRegister, pushAnd_congr hlimit, setSlot_congr hlimit,
      clearSlots_congr hlimit]

/-- Two machines that make the same steps and fail back alike. -/
structure Lockstep (m m' : Machine) : Prop where
  step : ∀ pc pos st, m'.step pc pos st = m.step pc pos st
  backtrack : m'.limits.backtrack = m.limits.backtrack
  checkInterval : m'.limits.checkInterval = m.limits.checkInterval
  interrupted : m'.interrupted = m.interrupted

/-- **Machines in lockstep have the same runs.** -/
theorem run_lockstep (h : m.Lockstep m') (fuel base pc pos : Nat) (st : State) :
    m'.run fuel base pc pos st = m.run fuel base pc pos st := by
  induction fuel generalizing base pc pos st with
  | zero => rfl
  | succ fuel ih =>
    have hsettle : ∀ e, m'.settle fuel e = m.settle fuel e := by
      intro e
      cases e with
      | look negated body next pos st => rw [settle, settle, ih, afterLook_congr h.backtrack]
      | _ => rfl
    have hbacktrack : ∀ st, m'.backtrack base st = m.backtrack base st := by
      intro st
      rw [backtrack, backtrack, h.checkInterval, h.interrupted]
    rw [run_succ, run_succ, resume, resume, h.step, hsettle]
    cases m.settle fuel (m.step pc pos st) with
    | go pc pos st => exact ih ..
    | reject st =>
      rw [finish, finish, hbacktrack]
      cases m.backtrack base st with
      | go pc pos st => exact ih ..
      | _ => rfl
    | _ => rfl

/-- Two machines that differ in nothing a run looks at. -/
structure Alike (m m' : Machine) : Prop where
  code : m'.program.code = m.program.code
  tables : m'.tables = m.tables
  text : m'.text = m.text
  backtrack : m'.limits.backtrack = m.limits.backtrack
  checkInterval : m'.limits.checkInterval = m.limits.checkInterval
  interrupted : m'.interrupted = m.interrupted

theorem Alike.lockstep (h : m.Alike m') : m.Lockstep m' where
  step pc pos st := by
    rw [step, step, h.code]
    cases m.program.code[pc]? with
    | none => rfl
    | some i =>
      exact perform_congr h.backtrack (by rw [h.text]) (fun _ _ _ _ => by rw [h.tables]) pc pos st
  backtrack := h.backtrack
  checkInterval := h.checkInterval
  interrupted := h.interrupted

end Congr

/-- Such machines have the same runs. -/
theorem run_congr {m m' : Machine} (h : m.Alike m') (fuel base pc pos : Nat) (st : State) :
    m'.run fuel base pc pos st = m.run fuel base pc pos st :=
  run_lockstep h.lockstep fuel base pc pos st

/-- The same machine with another number of steps. -/
def withSteps (m : Machine) (n : Nat) : Machine := { m with limits := { m.limits with steps := n } }

theorem alike_withSteps (m : Machine) (n : Nat) : m.Alike (m.withSteps n) :=
  ⟨rfl, rfl, rfl, rfl, rfl, rfl⟩

/-! ### Counting failures -/

/-- The same state with another number of failures. -/
def State.count (k : Nat) (st : State) : State := { st with failures := k }

/-- The same effect with another number of failures. -/
def Effect.count (k : Nat) : Effect → Effect
  | .go pc pos st => .go pc pos (st.count k)
  | .reject st => .reject (st.count k)
  | .accept pos st => .accept pos (st.count k)
  | .look negated body next pos st => .look negated body next pos (st.count k)
  | .stop s => .stop s

/-- The same result with another number of failures. -/
def Result.count (k : Nat) : Result → Result
  | .accepted pos st => .accepted pos (st.count k)
  | .failed st => .failed (st.count k)
  | .stopped s => .stopped s

theorem Effect.count_count (j k : Nat) (e : Effect) : (e.count j).count k = e.count k := by
  cases e <;> rfl

theorem Result.count_count (j k : Nat) (r : Result) : (r.count j).count k = r.count k := by
  cases r <;> rfl

section Count

variable {m : Machine} {pc pos : Nat}

theorem pushAnd_count (f : Frame) (st : State) (k : Nat) (g : State → Effect)
    (hg : ∀ st : State, g (st.count k) = (g st).count k) :
    m.pushAnd f (st.count k) g = (m.pushAnd f st g).count k := by
  rw [pushAnd, pushAnd]
  split
  · next h => rw [if_pos (show m.limits.backtrack ≤ st.stack.size from h)]; rfl
  · next h =>
    rw [if_neg (show ¬m.limits.backtrack ≤ st.stack.size from h)]
    exact hg { st with stack := st.stack.push f }

theorem setSlot_count (slot : Nat) (value : Option Nat) (st : State) (k : Nat)
    (g : State → Effect) (hg : ∀ st : State, g (st.count k) = (g st).count k) :
    m.setSlot slot value (st.count k) g = (m.setSlot slot value st g).count k := by
  rw [setSlot, setSlot, show (st.count k).slots = st.slots from rfl]
  cases st.slots[slot]? with
  | none => rfl
  | some old =>
    exact pushAnd_count _ st k _ fun st =>
      hg { st with slots := st.slots.setIfInBounds slot value }

theorem clearSlots_count (n slot : Nat) (st : State) (k : Nat)
    (g : State → Effect) (hg : ∀ st : State, g (st.count k) = (g st).count k) :
    m.clearSlots n slot (st.count k) g = (m.clearSlots n slot st g).count k := by
  induction n generalizing slot st with
  | zero => exact hg st
  | succ n ih =>
    rw [clearSlots, clearSlots, show (st.count k).slots = st.slots from rfl]
    rcases st.slots[slot]? with _ | _ | v
    · rfl
    · exact ih ..
    · exact setSlot_count _ _ st k _ fun _ => ih ..

theorem consume_count (test : Nat → Bool) (st : State) (k : Nat) :
    m.consume test pc pos (st.count k) = (m.consume test pc pos st).count k := by
  rw [consume, consume]
  cases m.text.unit? pos with
  | none => rfl
  | some u =>
    dsimp only
    split <;> rfl

theorem consumeInTable_count (table : Nat) (negated folded : Bool) (st : State) (k : Nat) :
    m.consumeInTable table negated folded pc pos (st.count k) =
      (m.consumeInTable table negated folded pc pos st).count k := by
  rw [consumeInTable, consumeInTable]
  cases m.text.unit? pos with
  | none => rfl
  | some u =>
    cases m.tables[table]? with
    | none => rfl
    | some t =>
      have hif : ∀ b : Bool,
          (if b then Effect.go (pc + 1) (pos + 1) (st.count k) else .reject (st.count k)) =
            (if b then Effect.go (pc + 1) (pos + 1) st else .reject st).count k := by
        intro b
        cases b <;> rfl
      exact hif _

theorem consumeGroup_count (group : Nat) (folded : Bool) (st : State) (k : Nat) :
    m.consumeGroup group folded pc pos (st.count k) =
      (m.consumeGroup group folded pc pos st).count k := by
  rw [consumeGroup, consumeGroup, show (st.count k).slots = st.slots from rfl]
  rcases st.slots[2 * group]? with _ | _ | start
  · rfl
  · rcases st.slots[2 * group + 1]? with _ | stop <;> rfl
  · rcases st.slots[2 * group + 1]? with _ | _ | stop
    · rfl
    · rfl
    · -- the group is defined: it is reversed, too long, or compared unit by unit
      dsimp only
      by_cases hreversed : stop < start
      · rw [if_pos hreversed, if_pos hreversed]
        rfl
      · rw [if_neg hreversed, if_neg hreversed]
        by_cases hlong : m.text.size < pos + (stop - start)
        · rw [if_pos hlong, if_pos hlong]
          rfl
        · rw [if_neg hlong, if_neg hlong]
          rcases sameUnits m.text folded (stop - start) start pos with _ | _ | _ <;> rfl

theorem markRegister_count (register : Nat) (st : State) (k : Nat) :
    m.markRegister register pc pos (st.count k) = (m.markRegister register pc pos st).count k := by
  rw [markRegister, markRegister, show (st.count k).registers = st.registers from rfl]
  cases st.registers[register]? with
  | none => rfl
  | some old => exact pushAnd_count _ st k _ fun _ => rfl

theorem checkProgress_count (register : Nat) (st : State) (k : Nat) :
    checkProgress register pc pos (st.count k) = (checkProgress register pc pos st).count k := by
  rw [checkProgress, checkProgress, show (st.count k).registers = st.registers from rfl]
  cases st.registers[register]? with
  | none => rfl
  | some old =>
    dsimp only
    split <;> rfl

/-- No instruction looks at the counter. -/
theorem step_count (st : State) (k : Nat) :
    m.step pc pos (st.count k) = (m.step pc pos st).count k := by
  rw [step, step]
  cases m.program.code[pc]? with
  | none => rfl
  | some i =>
    dsimp only
    cases i with
    | unit u | folded u | any => exact consume_count ..
    | inTable table negated folded => exact consumeInTable_count ..
    | anchor a =>
      simp only [perform]
      split <;> rfl
    | split first second => exact pushAnd_count _ st k _ fun _ => rfl
    | save slot => exact setSlot_count _ _ st k _ fun _ => rfl
    | clear first last => exact clearSlots_count _ _ st k _ fun _ => rfl
    | backRef group folded => exact consumeGroup_count ..
    | mark register => exact markRegister_count ..
    | progress register => exact checkProgress_count ..
    | _ => rfl

theorem unwind_count (n : Nat) (st : State) (k : Nat) :
    (st.count k).unwind n = (st.unwind n).count k := by
  induction n generalizing st with
  | zero => rfl
  | succ n ih =>
    -- each entry but a branch is undone in the same way on both sides
    rw [State.unwind, State.unwind, show (st.count k).stack = st.stack from rfl]
    cases st.stack.back? with
    | none => rfl
    | some f =>
      cases f with
      | branch pc pos => rfl
      | slot i old =>
        dsimp only
        rw [show (st.count k).slots = st.slots from rfl]
        split
        · exact ih { st with stack := st.stack.pop, slots := st.slots.setIfInBounds i old }
        · rfl
      | register i old =>
        dsimp only
        rw [show (st.count k).registers = st.registers from rfl]
        split
        · exact ih { st with stack := st.stack.pop, registers := st.registers.setIfInBounds i old }
        · rfl
      | slots old =>
        dsimp only
        rw [show (st.count k).slots = st.slots from rfl]
        split
        · exact ih { st with stack := st.stack.pop, slots := old }
        · rfl

theorem backtrack_count (hm : m.interrupted = false) (base : Nat) (st : State) :
    ∃ k, m.backtrack base st = (st.unwind (st.stack.size - base)).count k := by
  rw [backtrack, hm]
  split
  · exact ⟨0, unwind_count ..⟩
  · exact ⟨_, unwind_count ..⟩

theorem afterLook_count (negated : Bool) (next pos : Nat) (slots : Array (Option Nat)) (base : Nat)
    (r : Result) (k : Nat) :
    m.afterLook negated next pos slots base (r.count k) =
      (m.afterLook negated next pos slots base r).count k := by
  cases r with
  | stopped s => rfl
  | failed st => cases negated <;> rfl
  | accepted stop st =>
    cases negated with
    | true => rfl
    | false => exact pushAnd_count _ (st.truncate base) k _ fun _ => rfl

/-- **Without interrupts the counter of failures does not matter to a run.** -/
theorem run_count (hm : m.interrupted = false) (fuel base pc pos : Nat) (st : State) (k : Nat) :
    ∃ j, m.run fuel base pc pos (st.count k) = (m.run fuel base pc pos st).count j := by
  induction fuel generalizing base pc pos st k with
  | zero => exact ⟨0, rfl⟩
  | succ fuel ih =>
    have hsettle : ∀ e : Effect, ∃ j, m.settle fuel (e.count k) = (m.settle fuel e).count j := by
      intro e
      cases e with
      | look negated body next pos st =>
        -- the run of the condition is one with less fuel
        obtain ⟨j, hj⟩ := ih st.stack.size body pos st k
        refine ⟨j, ?_⟩
        rw [settle, ← afterLook_count, ← hj]
        rfl
      | _ => exact ⟨k, rfl⟩
    have hfinish : ∀ (e : Effect) (j : Nat),
        ∃ i, m.finish fuel base (e.count j) = (m.finish fuel base e).count i := by
      intro e j
      cases e with
      | go pc pos st => exact ih base pc pos st j
      | reject st =>
        -- both failures undo the same entries
        obtain ⟨i, hi⟩ := backtrack_count hm base (st.count j)
        obtain ⟨i', hi'⟩ := backtrack_count hm base st
        rw [unwind_count, Effect.count_count, show (st.count j).stack = st.stack from rfl] at hi
        rw [show (Effect.reject st).count j = .reject (st.count j) from rfl, finish, finish, hi,
          hi']
        cases st.unwind (st.stack.size - base) with
        | go pc pos st =>
          obtain ⟨l, hl⟩ := ih base pc pos st i
          obtain ⟨l', hl'⟩ := ih base pc pos st i'
          exact ⟨l, by simp only [Effect.count, hl, hl', Result.count_count]⟩
        | reject st => exact ⟨i, rfl⟩
        | _ => exact ⟨0, rfl⟩
      | accept pos st => exact ⟨j, rfl⟩
      | look => exact ⟨0, rfl⟩
      | stop s => exact ⟨0, rfl⟩
    obtain ⟨j, hj⟩ := hsettle (m.step pc pos st)
    obtain ⟨i, hi⟩ := hfinish (m.settle fuel (m.step pc pos st)) j
    exact ⟨i, by rw [run_succ, run_succ, resume, resume, step_count, hj, hi]⟩

end Count

end Machine

/-! ### Programs of fragments -/

/-- The program is the code of a fragment and the instruction that accepts. -/
structure Program.Implements (p : Program) (tables : Nat) (f : Fragment) : Prop where
  code : p.code = (f.code 0 ++ [Instr.accept]).toArray
  valid : f.Valid p.slots p.registers tables
  guarded : f.Guarded
  nodup : f.registers.Nodup

theorem Program.Implements.mono {p : Program} {nt nt' : Nat} {f : Fragment}
    (h : p.Implements nt f) (hle : nt ≤ nt') : p.Implements nt' f :=
  { h with valid := h.valid.mono hle }

/-- The program of a machine that runs a compiled program implements the fragment of the pattern,
whatever is appended to the list of tables later. -/
theorem Pattern.Canonical.implements_of_compile {p : Pattern} (hp : p.Canonical) {mode : Mode}
    {width : Width} {flags : Flags} {cap : Nat} {tables₀ tables later : Array CharTable}
    {prog : Program} (h : p.compile mode width flags tables₀ cap = (.ok prog, tables)) {m : Machine}
    (hprog : m.program = prog) (htables : m.tables = tables ++ later) :
    m.program.Implements m.tables.size (p.fragment mode width flags tables₀ cap) := by
  have hvalid := hp.valid_fragment h
  rw [hprog, htables]
  refine Program.Implements.mono ⟨?_, hvalid, Node.guarded_fragment _ _ _ hp.wellFormed, ?_⟩
    (by rw [Array.size_append]; omega)
  · obtain ⟨rfl, -⟩ := eq_of_compile h
    rfl
  · rw [Pattern.fragment, Node.registers_fragment]
    exact List.nodup_range' 1 Nat.one_pos

/-- The thread with which an attempt begins. -/
def Thread.init (n pos : Nat) : Thread where
  pos := pos
  slots := (Array.replicate n none).setIfInBounds 0 (some pos)

theorem Thread.fits_init {text : Text} {n pos : Nat} (h : pos ≤ text.size) :
    (Thread.init n pos).Fits text n := by
  refine ⟨h, SlotsFit.set ⟨by simp, fun i v hv => ?_⟩ (by simpa using h)⟩
  simp [Array.getElem?_replicate] at hv

namespace Machine

variable {m : Machine} {f : Fragment} {pos failures : Nat}

/-- What an attempt answers, given the outcomes of the fragment. -/
def Finds (ys : List Thread) : Result → Prop
  | .accepted stop st => ∃ y rest, ys = y :: rest ∧ stop = y.pos ∧
      st.slots = y.slots.setIfInBounds 1 (some y.pos)
  | .failed _ => ys = []
  | .stopped s => s = .interrupted ∨ s = .overRecursed

/-- The end of an attempt: an accepted match gets its end stored. -/
def Result.close : Result → Result
  | .accepted stop st => .accepted stop { st with slots := st.slots.setIfInBounds 1 (some stop) }
  | r => r

theorem attempt_eq (m : Machine) (pos failures : Nat) :
    m.attempt pos failures = (m.run m.limits.steps 0 0 pos (m.start pos failures)).close := by
  rw [attempt]
  cases m.run m.limits.steps 0 0 pos (m.start pos failures) <;> rfl

theorem attempt_withSteps (m : Machine) (n pos failures : Nat) :
    (m.withSteps n).attempt pos failures = (m.run n 0 0 pos (m.start pos failures)).close := by
  rw [attempt_eq, run_congr (m.alike_withSteps n)]
  rfl

theorem holds_of_implements (h : m.program.Implements m.tables.size f) :
    m.Holds m.program.slots m.program.registers (· ∈ f.volatile) (· ∈ f.registers) 0 f where
  code q i hi := by
    rw [h.code, at_toArray, at_append]
    exact Or.inl hi
  valid := h.valid
  guarded := h.guarded
  nodup := h.nodup
  volatile _ := id
  steady _ := Fragment.not_mem_volatile h.nodup
  volatile_le t ht := (Fragment.mem_registers_iff f t).2 (Or.inl ht)
  registers _ := id

theorem carries_start (m : Machine) (pos failures : Nat) :
    (m.start pos failures).Carries 0 m.program.registers (.init m.program.slots pos) :=
  ⟨rfl, by simp [start], Nat.zero_le _⟩

/-- **Every attempt ends**, given enough steps: it accepts with the first outcome of the fragment,
or fails if there is none, or is stopped by an interrupt or a full stack. -/
theorem attempt_terminates (h : m.program.Implements m.tables.size f) (hpos : pos ≤ m.text.size)
    (failures : Nat) :
    ∃ r N, Finds (f.threads m.tables m.text (.init m.program.slots pos)) r ∧
      ∀ n, N ≤ n → (m.withSteps n).attempt pos failures = r := by
  have haccept : m.program.code[0 + f.size]? = some .accept := by
    rw [h.code, at_toArray, at_append]
    exact Or.inr (by simp)
  have hends := ends_of_yields (by simp [start]) (fun _ _ => leads_step haccept)
    (yields_threads (holds_of_implements h) (Thread.fits_init hpos) (carries_start m pos failures))
  have hclose : ∀ r, m.Ends 0 (.go 0 pos (m.start pos failures)) r →
      Finds (f.threads m.tables m.text (.init m.program.slots pos)) r.close →
        ∃ r N, Finds (f.threads m.tables m.text (.init m.program.slots pos)) r ∧
          ∀ n, N ≤ n → (m.withSteps n).attempt pos failures = r := by
    rintro r ⟨N, hN⟩ hfinds
    exact ⟨r.close, N, hfinds,
      fun n hn => (attempt_withSteps ..).trans (congrArg Result.close (hN n hn))⟩
  rcases hends with (hs | hs) | ⟨hnil, st', hfailed, -⟩ | ⟨y, ys, st', hcons, haccepted, hslots, -⟩
  · exact hclose _ hs (Or.inl rfl)
  · exact hclose _ hs (Or.inr rfl)
  · exact hclose _ hfailed hnil
  · exact hclose _ haccepted ⟨y, ys, hcons, rfl, by rw [hslots]⟩

/-- **An attempt that does not run out of steps finds the first outcome of the fragment.** -/
theorem attempt_spec (h : m.program.Implements m.tables.size f) (hpos : pos ≤ m.text.size)
    (hr : m.attempt pos failures ≠ .stopped .outOfSteps) :
    Finds (f.threads m.tables m.text (.init m.program.slots pos)) (m.attempt pos failures) := by
  obtain ⟨r, N, hfinds, hN⟩ := attempt_terminates h hpos failures
  have hrun : m.run m.limits.steps 0 0 pos (m.start pos failures) ≠ .stopped .outOfSteps := by
    intro hstop
    rw [attempt_eq, hstop] at hr
    exact hr rfl
  have hmono := run_mono (Nat.le_max_left m.limits.steps N) rfl hrun
  have hsame := hN _ (Nat.le_max_right m.limits.steps N)
  rw [attempt_withSteps, hmono, ← attempt_eq] at hsame
  rwa [hsame]

/-! ### Searches end -/

/-- A search has an answer, or was given up for a reason that does not lie in the program. -/
def Settled (o : Outcome) : Prop :=
  o = .noMatch ∨ (∃ pairs, o = .matched pairs) ∨ o = .interrupted ∨
    o = .failed (.error .overRecursed)

section Search

variable {last room : Nat} {pairs : Array Pair}

/-- A search that has reached a position in time makes an attempt there. -/
theorem searchFrom_attempt {q : Nat} (hc : m.candidate? pos = .ok (some q)) (hq : q ≤ last)
    (hi : m.interrupted = false) :
    m.searchFrom last pairs (room + 1) pos failures =
      match m.attempt q failures with
      | .accepted _ st => .matched (writePairs st.slots pairs)
      | .failed st => m.searchFrom last pairs room (q + 1) st.failures
      | .stopped s => s.toOutcome := by
  rw [searchFrom, hc]
  dsimp only
  rw [if_neg (Nat.not_lt.2 hq), hi]
  exact if_neg Bool.false_ne_true

/-- Otherwise the search ends there. -/
theorem searchFrom_end (h : ∀ q, m.candidate? pos = .ok (some q) → q ≤ last →
    m.interrupted = true) :
    ∃ o, (Settled o ∨ o = .failed .misuse) ∧
      ∀ n, (m.withSteps n).searchFrom last pairs (room + 1) pos failures = o := by
  have hcandidate : ∀ n, (m.withSteps n).candidate? pos = m.candidate? pos := fun _ => rfl
  cases hc : m.candidate? pos with
  | error s =>
    refine ⟨.failed .misuse, Or.inr rfl, fun n => ?_⟩
    rw [searchFrom, hcandidate, hc]
    rw [candidate?] at hc
    split at hc
    · cases hc
    · split at hc <;> cases hc
      rfl
  | ok q =>
    cases q with
    | none =>
      exact ⟨.noMatch, Or.inl (Or.inl rfl), fun n => by rw [searchFrom, hcandidate, hc]⟩
    | some q =>
      by_cases hq : last < q
      · refine ⟨.noMatch, Or.inl (Or.inl rfl), fun n => ?_⟩
        rw [searchFrom, hcandidate, hc]
        exact if_pos hq
      · refine ⟨.interrupted, Or.inl (Or.inr (Or.inr (Or.inl rfl))), fun n => ?_⟩
        rw [searchFrom, hcandidate, hc]
        exact (if_neg hq).trans (if_pos (h q hc (Nat.not_lt.1 hq)))

theorem searchFrom_terminates (h : m.program.Implements m.tables.size f)
    (hlast : last ≤ m.text.size) (pairs : Array Pair) (room pos failures : Nat) :
    ∃ o N, (Settled o ∨ o = .failed .misuse) ∧
      ∀ n, N ≤ n → (m.withSteps n).searchFrom last pairs room pos failures = o := by
  induction room generalizing pos failures with
  | zero => exact ⟨.noMatch, 0, Or.inl (Or.inl rfl), fun _ _ => rfl⟩
  | succ room ih =>
    by_cases hattempt : ∃ q, m.candidate? pos = .ok (some q) ∧ q ≤ last ∧ m.interrupted = false
    · -- there is an attempt: what it answers decides how the search goes on
      obtain ⟨q, hc, hq, hi⟩ := hattempt
      have hstep : ∀ n, (m.withSteps n).searchFrom last pairs (room + 1) pos failures = _ :=
        fun n => searchFrom_attempt (m := m.withSteps n) hc hq hi
      obtain ⟨r, N, hfinds, hN⟩ := attempt_terminates h (hq.trans hlast) failures
      cases r with
      | accepted stop st =>
        exact ⟨_, N, Or.inl (Or.inr (Or.inl ⟨_, rfl⟩)), fun n hn => by rw [hstep, hN n hn]⟩
      | failed st =>
        obtain ⟨o, M, ho, hM⟩ := ih (q + 1) st.failures
        refine ⟨o, max N M, ho, fun n hn => ?_⟩
        rw [hstep, hN n (by omega)]
        exact hM n (by omega)
      | stopped s =>
        refine ⟨s.toOutcome, N, Or.inl ?_, fun n hn => by rw [hstep, hN n hn]⟩
        rcases hfinds with rfl | rfl
        · exact Or.inr (Or.inr (Or.inl rfl))
        · exact Or.inr (Or.inr (Or.inr rfl))
    · have hnone : ∀ q, m.candidate? pos = .ok (some q) → q ≤ last → m.interrupted = true := by
        intro q hc hq
        by_contra hi
        exact hattempt ⟨q, hc, hq, by simpa using hi⟩
      obtain ⟨o, ho, hend⟩ := searchFrom_end hnone
      exact ⟨o, 0, ho, fun n _ => hend n⟩

/-- **Every search ends**, given enough steps. -/
theorem search_terminates (h : m.program.Implements m.tables.size f)
    (hp : m.program.WellFormed m.tables.size) (start : Nat) (pairs : Array Pair) :
    ∃ o N, Settled o ∧ ∀ n, N ≤ n → (m.withSteps n).search start pairs = o := by
  by_cases hstart : m.text.size < start
  · exact ⟨.noMatch, 0, Or.inl rfl, fun n _ => by rw [search]; exact if_pos hstart⟩
  · have hlast : (if m.program.anchored then start else m.text.size) ≤ m.text.size := by
      split <;> omega
    obtain ⟨o, N, ho, hN⟩ := searchFrom_terminates h hlast pairs
      ((if m.program.anchored then start else m.text.size) - start + 1) start 0
    have hsearch : ∀ n, N ≤ n → (m.withSteps n).search start pairs = o := fun n hn => by
      rw [search]
      exact (if_neg hstart).trans (hN n hn)
    refine ⟨o, N, ho.resolve_right fun hmisuse => ?_, hsearch⟩
    exact search_ne_misuse (m := m.withSteps N) hp ((hsearch N (Nat.le_refl N)).trans hmisuse)

end Search

end Machine

/-- **Every search with a compiled program ends**, whatever its text, its start and its limits:
given enough steps it finds a match or none, is interrupted, or fills the stack. -/
theorem search_terminates_of_compile {source : String} {flags : Flags} {p : Pattern}
    (hp : p.IsFrom source flags) {mode : Mode} {width : Width} {cap : Nat}
    {tables₀ tables later : Array CharTable} {prog : Program}
    (h : p.compile mode width flags tables₀ cap = (.ok prog, tables)) {m : Machine}
    (hprog : m.program = prog) (htables : m.tables = tables ++ later) (start : Nat)
    (pairs : Array Pair) :
    ∃ o N, Machine.Settled o ∧ ∀ n, N ≤ n → (m.withSteps n).search start pairs = o := by
  exact Machine.search_terminates (hp.canonical.implements_of_compile h hprog htables)
    (hp.canonical.wellFormed_of_machine h hprog htables) start pairs

/-- A machine that looks for `(b)+?\1` in `abbb`. -/
def Machine.doubled : Machine where
  program := .doubled
  tables := #[]
  text := .ofUnits .latin1 #[0x61, 0x62, 0x62, 0x62]
  limits := {}
  interrupted := false

theorem search_terminates_doubled :
    ∃ o N, Machine.Settled o ∧ ∀ n, N ≤ n → (Machine.doubled.withSteps n).search 0 #[] = o :=
  search_terminates_of_compile (m := .doubled) Pattern.isFrom_doubled Pattern.compile_doubled rfl
    Array.append_empty.symm 0 #[]

end RegexEngine

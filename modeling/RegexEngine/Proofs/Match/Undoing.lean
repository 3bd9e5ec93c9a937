import RegexEngine.Proofs.Match.Steps
import RegexEngine.Proofs.Program.WellFormed

/-!
# A failing run undoes everything

Whatever an instruction changes is remembered by the entry that it pushes, so that undoing the
entries above those from before a run leads back to where the run began.  Conditions on what follows
are the exception: their entries are dropped as a whole.  The entry that stands in for them
remembers the capture slots, but no loop registers.  So a failing run leaves the stack and the slots
as they were, whatever the program; of the registers it does so with those that no condition stores
into.

* `Frame.undo` — what an entry remembers is put back.
* `Program.Region` — code that runs do not leave, and the registers that it stores into.
* `Machine.Returns` — undoing the entries of a run leads back to its start.
* `Machine.returns_step`, `Machine.returns_unwind`, `Machine.returns_run` — this is kept by an
  instruction, by failing back and by a run.
* `Machine.run_undoes` — **a failing run undoes everything, and an accepting one keeps what lay on
  the stack.**
-/

namespace RegexEngine

/-! ### Entries of the stack -/

namespace Frame

/-- Put back what an entry remembers.  An alternative remembers nothing. -/
def undo : Frame → Machine.State → Machine.State
  | .branch _ _, st => st
  | .slot i old, st => { st with slots := st.slots.setIfInBounds i old }
  | .register i old, st => { st with registers := st.registers.setIfInBounds i old }
  | .slots old, st => { st with slots := old }

@[simp] theorem stack_undo (f : Frame) (st : Machine.State) : (f.undo st).stack = st.stack := by
  cases f <;> rfl

/-- The entry resumes at an address of `A`, or remembers a register of `W`, or a slot. -/
def Within (A W : Nat → Prop) : Frame → Prop
  | .branch pc _ => A pc
  | .register i _ => W i
  | .slot _ _ | .slots _ => True

end Frame

/-! ### Code and the registers that it stores into -/

namespace Program

/-- Runs do not leave the addresses of `A` before they end, and the code there stores into registers
of `W` only.  The code of a condition is a run of its own. -/
structure Region (p : Program) (A W : Nat → Prop) : Prop where
  successors : ∀ (pc : Nat) (i : Instr), A pc → p.code[pc]? = some i → ∀ s ∈ i.successors pc, A s
  marks : ∀ pc r : Nat, A pc → p.code[pc]? = some (Instr.mark r) → W r

/-- Conditions do not store into the registers of `R`. -/
def Spares (p : Program) (R : Nat → Prop) : Prop :=
  ∀ (pc : Nat) negated body next, p.code[pc]? = some (Instr.look negated body next) →
    ∃ A, A body ∧ p.Region A fun r => ¬R r

/-- The whole code, with all registers. -/
theorem region_all (p : Program) : p.Region (fun _ => True) fun _ => True :=
  ⟨fun _ _ _ _ _ _ => trivial, fun _ _ _ _ => trivial⟩

theorem spares_none (p : Program) : p.Spares fun _ => False :=
  fun _ _ _ _ _ => ⟨fun _ => True, trivial, fun _ _ _ _ _ _ => trivial, fun _ _ _ _ => id⟩

/-- The code of a condition stores into the register. -/
def MarkedInLook (p : Program) (r : Nat) : Prop :=
  ∃ (pc : Nat) (negated : Bool) (body next q : Nat),
    p.code[pc]? = some (Instr.look negated body next) ∧ body ≤ q ∧ q < next ∧
      p.code[q]? = some (Instr.mark r)

/-- Where conditions are sealed, they spare all registers that their code does not store into. -/
theorem spares_of_sealed {p : Program} (h : Sealed fun q i => p.code[q]? = some i) :
    p.Spares fun r => ¬p.MarkedInLook r := by
  intro pc negated body next hlook
  obtain ⟨rfl, hlt, -⟩ := h.body hlook
  refine ⟨fun q => pc < q ∧ q < next, ⟨Nat.lt_succ_self pc, hlt⟩, ?_, ?_⟩
  · intro q i hq hi s hs
    exact (h.crossing hlook hi s hs).mp hq
  · intro q r hq hr hspared
    exact hspared ⟨pc, negated, pc + 1, next, q, hlook, hq.1, hq.2, hr⟩

end Program

namespace Machine

variable {A W R : Nat → Prop} {m : Machine} {pc pos : Nat} {st₀ st st' : State}

/-! ### States that agree -/

/-- The states have the same slots, and the same values in the registers of `R`. -/
structure Agree (R : Nat → Prop) (st st' : State) : Prop where
  slots : st'.slots = st.slots
  registers : ∀ r, R r → st'.registers[r]? = st.registers[r]?

theorem Agree.refl (R : Nat → Prop) (st : State) : Agree R st st := ⟨rfl, fun _ _ => rfl⟩

theorem Agree.trans {st'' : State} (h : Agree R st st') (h' : Agree R st' st'') :
    Agree R st st'' :=
  ⟨h'.slots.trans h.slots, fun r hr => (h'.registers r hr).trans (h.registers r hr)⟩

theorem getElem?_set_congr {xs ys : Array (Option Nat)} {r i : Nat} {v : Option Nat}
    (h : xs[r]? = ys[r]?) : (xs.setIfInBounds i v)[r]? = (ys.setIfInBounds i v)[r]? := by
  rw [Array.getElem?_setIfInBounds, Array.getElem?_setIfInBounds]
  by_cases hir : i = r
  · subst hir
    have hsize : i < xs.size ↔ i < ys.size := by
      rw [← not_iff_not, Nat.not_lt, Nat.not_lt, ← Array.getElem?_eq_none_iff,
        ← Array.getElem?_eq_none_iff, h]
    rw [if_pos rfl, if_pos rfl]
    simp only [hsize]
  · rw [if_neg hir, if_neg hir, h]

/-- Putting back the same entry keeps states in agreement. -/
theorem Agree.undo (h : Agree R st st') (f : Frame) (stack : Array Frame) :
    Agree R (f.undo { st with stack }) (f.undo { st' with stack }) := by
  cases f with
  | branch pc pos => exact ⟨h.slots, h.registers⟩
  | slot i old => exact ⟨congrArg (·.setIfInBounds i old) h.slots, h.registers⟩
  | register i old => exact ⟨h.slots, fun r hr => getElem?_set_congr (h.registers r hr)⟩
  | slots old => exact ⟨rfl, h.registers⟩

/-! ### Ways back -/

/-- On the stack of `st` lie the entries of `st₀` and above them entries within `A` and `W`.  When
these have been undone, the top one first, the slots and the registers of `R` are as in `st₀`. -/
inductive Returns (A W R : Nat → Prop) (st₀ : State) : State → Prop
  | base {st : State} (hstack : st.stack = st₀.stack) (h : Agree R st₀ st) : Returns A W R st₀ st
  | push {st : State} {stack : Array Frame} (f : Frame) (hstack : st.stack = stack.push f)
    (hf : f.Within A W) (h : Returns A W R st₀ (f.undo { st with stack })) : Returns A W R st₀ st

namespace Returns

theorem refl (A W R : Nat → Prop) (st : State) : Returns A W R st st := .base rfl (.refl R st)

theorem congr (h : Returns A W R st₀ st) (hstack : st'.stack = st.stack) (hst : Agree R st st') :
    Returns A W R st₀ st' := by
  induction h generalizing st' with
  | base hbase h => exact .base (hstack.trans hbase) (h.trans hst)
  | push f hpush hf h ih =>
    exact .push f (hstack.trans hpush) hf (ih (by simp) (hst.undo f _))

/-- Nothing is taken away from below. -/
theorem bottom (h : Returns A W R st₀ st) : ∃ frames, st.stack = st₀.stack ++ frames := by
  induction h with
  | base hstack h => exact ⟨#[], by rw [hstack, Array.append_empty]⟩
  | push f hstack hf h ih =>
    obtain ⟨frames, hframes⟩ := ih
    simp only [Frame.stack_undo] at hframes
    exact ⟨frames.push f, by rw [hstack, hframes, Array.push_append]⟩

theorem size_le (h : Returns A W R st₀ st) : st₀.stack.size ≤ st.stack.size := by
  obtain ⟨frames, hframes⟩ := h.bottom
  rw [hframes, Array.size_append]
  omega

/-- Dropping the entries of the run leaves those from before. -/
theorem truncate_stack (h : Returns A W R st₀ st) :
    (st.truncate st₀.stack.size).stack = st₀.stack := by
  obtain ⟨frames, hframes⟩ := h.bottom
  simp [State.truncate, hframes]

/-- Registers that are not stored into have not changed. -/
theorem registers_eq {r : Nat} (h : Returns A (fun r => ¬R r) R st₀ st) (hr : R r) :
    st.registers[r]? = st₀.registers[r]? := by
  induction h with
  | base hstack h => exact h.registers r hr
  | push f hstack hf h ih =>
    rw [← ih]
    cases f with
    | register i old =>
      -- the register that the entry remembers is another one
      have hir : i ≠ r := by
        rintro rfl
        exact hf hr
      exact (Array.getElem?_setIfInBounds_ne hir).symm
    | _ => rfl

/-! ### Instructions -/

theorem branch (h : Returns A W R st₀ st) (hpc : A pc) (pos : Nat) :
    Returns A W R st₀ { st with stack := st.stack.push (.branch pc pos) } :=
  .push (.branch pc pos) rfl hpc h

/-- Storing the old value again undoes the new one. -/
theorem set_set_of_getElem? {xs : Array (Option Nat)} {i : Nat} {old v : Option Nat}
    (h : xs[i]? = some old) : (xs.setIfInBounds i v).setIfInBounds i old = xs := by
  apply Array.ext_getElem?
  intro j
  rw [Array.getElem?_setIfInBounds, Array.getElem?_setIfInBounds, Array.size_setIfInBounds]
  by_cases hij : i = j
  · subst hij
    have hlt : i < xs.size := (Array.getElem?_eq_some_iff.1 h).1
    rw [if_pos rfl, if_pos hlt, h]
  · rw [if_neg hij, if_neg hij]

theorem slot {i : Nat} {old : Option Nat} (h : Returns A W R st₀ st)
    (hold : st.slots[i]? = some old) (v : Option Nat) :
    Returns A W R st₀ { st with
      stack := st.stack.push (.slot i old), slots := st.slots.setIfInBounds i v } := by
  refine .push (.slot i old) rfl trivial ?_
  rw [Frame.undo, set_set_of_getElem? hold]
  exact h

theorem register {i : Nat} {old : Option Nat} (h : Returns A W R st₀ st) (hi : W i)
    (hold : st.registers[i]? = some old) (v : Option Nat) :
    Returns A W R st₀ { st with
      stack := st.stack.push (.register i old), registers := st.registers.setIfInBounds i v } := by
  refine .push (.register i old) rfl hi ?_
  rw [Frame.undo, set_set_of_getElem? hold]
  exact h

end Returns

/-- The run can go on with the effect inside of `A`, and the way back is kept.  Conditions spare the
registers of `R`. -/
def EffectReturns (m : Machine) (A W R : Nat → Prop) (st₀ : State) : Effect → Prop
  | .go pc _ st => A pc ∧ Returns A W R st₀ st
  | .reject st | .accept _ st => Returns A W R st₀ st
  | .look _ body next _ st =>
    A next ∧ (∃ B, B body ∧ m.program.Region B fun r => ¬R r) ∧ Returns A W R st₀ st
  | .stop _ => True

theorem returns_pushAnd {f : Frame} {k : State → Effect}
    (hk : m.EffectReturns A W R st₀ (k { st with stack := st.stack.push f })) :
    m.EffectReturns A W R st₀ (m.pushAnd f st k) := by
  rw [pushAnd]
  split
  · trivial
  · exact hk

theorem returns_setSlot {i : Nat} {v : Option Nat} {k : State → Effect}
    (h : Returns A W R st₀ st)
    (hk : ∀ st, Returns A W R st₀ st → m.EffectReturns A W R st₀ (k st)) :
    m.EffectReturns A W R st₀ (m.setSlot i v st k) := by
  rw [setSlot]
  split
  · trivial
  · next old hold => exact returns_pushAnd (hk _ (h.slot hold v))

theorem returns_clearSlots {n i : Nat} {k : State → Effect} (h : Returns A W R st₀ st)
    (hk : ∀ st, Returns A W R st₀ st → m.EffectReturns A W R st₀ (k st)) :
    m.EffectReturns A W R st₀ (m.clearSlots n i st k) := by
  induction n generalizing i st with
  | zero => exact hk st h
  | succ n ih =>
    rw [clearSlots]
    split
    · trivial
    · exact ih h
    · exact returns_setSlot h fun st h => ih h

theorem returns_markRegister {r : Nat} (hpc : A (pc + 1)) (hr : W r) (h : Returns A W R st₀ st) :
    m.EffectReturns A W R st₀ (m.markRegister r pc pos st) := by
  rw [markRegister]
  split
  · trivial
  · next old hold => exact returns_pushAnd ⟨hpc, h.register hr hold _⟩

/-- The effect goes on behind the instruction, fails or stops, and the state is the same. -/
inductive Stays (pc : Nat) (st : State) : Effect → Prop
  | go (pos : Nat) : Stays pc st (.go (pc + 1) pos st)
  | reject : Stays pc st (.reject st)
  | stop (s : Stop) : Stays pc st (.stop s)

theorem stays_consume (m : Machine) (test : Nat → Bool) (pc pos : Nat) (st : State) :
    Stays pc st (m.consume test pc pos st) := by
  rw [consume]
  split
  · split
    · exact .go _
    · exact .reject
  · exact .reject

theorem stays_consumeInTable (m : Machine) (table : Nat) (negated folded : Bool) (pc pos : Nat)
    (st : State) : Stays pc st (m.consumeInTable table negated folded pc pos st) := by
  rw [consumeInTable]
  split
  · exact .reject
  · next u hu =>
    split
    · exact .stop _
    · next t ht =>
      dsimp only
      generalize (if folded then t.containsFolded u else t.contains u) = inside
      split
      · exact .go _
      · exact .reject

theorem stays_consumeGroup (m : Machine) (group : Nat) (folded : Bool) (pc pos : Nat)
    (st : State) : Stays pc st (m.consumeGroup group folded pc pos st) := by
  rw [consumeGroup]
  split
  · split
    · -- the group is defined
      split
      · exact .go _
      · split
        · exact .reject
        · split
          · exact .stop _
          · exact .go _
          · exact .reject
    · exact .go _
  · exact .stop _

theorem stays_checkProgress (register pc pos : Nat) (st : State) :
    Stays pc st (checkProgress register pc pos st) := by
  rw [checkProgress]
  split
  · exact .stop _
  · split
    · exact .reject
    · exact .go _

theorem Stays.returns {e : Effect} (he : Stays pc st e) (hpc : A (pc + 1))
    (h : Returns A W R st₀ st) : m.EffectReturns A W R st₀ e := by
  cases he with
  | go pos => exact ⟨hpc, h⟩
  | reject => exact h
  | stop s => trivial

/-- **An instruction keeps the way back.** -/
theorem returns_step (hA : m.program.Region A W) (hR : m.program.Spares R) (hpc : A pc)
    (h : Returns A W R st₀ st) : m.EffectReturns A W R st₀ (m.step pc pos st) := by
  rw [step]
  cases hi : m.program.code[pc]? with
  | none => trivial
  | some i =>
    have hnext := hA.successors pc i hpc hi
    dsimp only
    cases i <;> simp only [Instr.successors, List.forall_mem_cons, List.not_mem_nil] at hnext <;>
      simp only [perform]
    case accept | lookEnd | fail => exact h
    case unit | folded | any => exact (stays_consume ..).returns hnext.1 h
    case inTable => exact (stays_consumeInTable ..).returns hnext.1 h
    case backRef => exact (stays_consumeGroup ..).returns hnext.1 h
    case progress => exact (stays_checkProgress ..).returns hnext.1 h
    case anchor =>
      split
      · exact ⟨hnext.1, h⟩
      · exact h
    case split => exact returns_pushAnd ⟨hnext.1, h.branch hnext.2.1 pos⟩
    case jump => exact ⟨hnext.1, h⟩
    case save => exact returns_setSlot h fun st h => ⟨hnext.1, h⟩
    case clear => exact returns_clearSlots h fun st h => ⟨hnext.1, h⟩
    case mark r => exact returns_markRegister hnext.1 (hA.marks pc r hpc hi) h
    case look negated body next => exact ⟨hnext.1, hR pc negated body next hi, h⟩

/-! ### Failing back -/

/-- Failing back resumes an alternative in `A`, or leads to where the run began. -/
def Unwound (A W R : Nat → Prop) (st₀ : State) : Effect → Prop
  | .go pc _ st => A pc ∧ Returns A W R st₀ st
  | .reject st => st.stack = st₀.stack ∧ Agree R st₀ st
  | .stop _ => True
  | .accept .. | .look .. => False

/-- **Failing back undoes the entries above those from before the run**, down to the last
alternative. -/
theorem returns_unwind (h : Returns A W R st₀ st) :
    Unwound A W R st₀ (st.unwind (st.stack.size - st₀.stack.size)) := by
  induction h with
  | base hstack h =>
    rw [hstack, Nat.sub_self]
    exact ⟨hstack, h⟩
  | push f hstack hf h ih =>
    have hle := h.size_le
    simp only [Frame.stack_undo] at hle ih
    rw [hstack, Array.size_push, Nat.succ_sub hle, State.unwind, hstack, Array.back?_push,
      Array.pop_push]
    cases f with
    | branch pc pos => exact ⟨hf, h⟩
    | slot i old | register i old | slots old =>
      dsimp only
      split
      · exact ih
      · trivial

theorem returns_backtrack (h : Returns A W R st₀ st) :
    Unwound A W R st₀ (m.backtrack st₀.stack.size st) := by
  rcases backtrack_cases m st₀.stack.size st with hstop | ⟨k, hk⟩
  · rw [hstop]
    trivial
  · rw [hk]
    have hcount : Returns A W R st₀ { st with failures := k } :=
      h.congr rfl ⟨rfl, fun _ _ => rfl⟩
    exact returns_unwind hcount

/-! ### Runs -/

/-- A run that fails ends where it began; one that accepts knows the way back. -/
def ResultReturns (A W R : Nat → Prop) (st₀ : State) : Result → Prop
  | .failed st => st.stack = st₀.stack ∧ Agree R st₀ st
  | .accepted _ st => Returns A W R st₀ st
  | .stopped _ => True

/-- Behind a condition that spares the registers of `R`, the stack is as it was in front of it, and
with the slots from there the states agree. -/
theorem agree_truncate {B : Nat → Prop} {st₁ : State}
    (h : Returns B (fun r => ¬R r) R st st₁) :
    (st₁.truncate st.stack.size).stack = st.stack ∧
      Agree R st { st₁.truncate st.stack.size with slots := st.slots } :=
  ⟨h.truncate_stack, rfl, fun _ hr => h.registers_eq hr⟩

/-- **A condition keeps the way back**, although its entries are dropped. -/
theorem returns_afterLook {B : Nat → Prop} {negated : Bool} {next : Nat} {r : Result}
    (h : Returns A W R st₀ st) (hnext : A next)
    (hr : ResultReturns B (fun r => ¬R r) R st r) :
    m.EffectReturns A W R st₀ (m.afterLook negated next pos st.slots st.stack.size r) := by
  cases r with
  | stopped s => trivial
  | failed st₁ =>
    -- the run of the condition has undone its changes itself
    have hback : Returns B (fun r => ¬R r) R st st₁ := .base hr.1 hr.2
    obtain ⟨hstack, hagree⟩ := agree_truncate hback
    have hslots : (st₁.truncate st.stack.size).slots = st.slots := hr.2.slots
    rw [afterLook]
    split
    · exact ⟨hnext, h.congr hstack hagree⟩
    · exact h.congr hstack ⟨hslots, hagree.registers⟩
  | accepted stop st₁ =>
    obtain ⟨hstack, hagree⟩ := agree_truncate hr
    rw [afterLook]
    split
    · exact h.congr hstack hagree
    · -- the slots of the condition are kept, and one entry remembers those from before
      refine returns_pushAnd ⟨hnext, .push (.slots st.slots) rfl trivial ?_⟩
      exact h.congr hstack hagree

/-- **A run keeps the way back.** -/
theorem returns_run (hR : m.program.Spares R) (fuel : Nat) (hA : m.program.Region A W) (hpc : A pc)
    (h : Returns A W R st₀ st) :
    ResultReturns A W R st₀ (m.run fuel st₀.stack.size pc pos st) := by
  -- the run of a condition stays in a region of its own and has its own bottom of the stack
  induction fuel generalizing A W pc pos st₀ st with
  | zero => trivial
  | succ fuel ih =>
    have hstep : m.EffectReturns A W R st₀ (m.step pc pos st) := returns_step hA hR hpc h
    have hsettle : m.EffectReturns A W R st₀ (m.settle fuel (m.step pc pos st)) := by
      cases hs : m.step pc pos st with
      | look negated body next pos' st' =>
        rw [hs] at hstep
        obtain ⟨hnext, ⟨B, hbody, hB⟩, hst'⟩ := hstep
        exact returns_afterLook hst' hnext (ih hB hbody (.refl B _ R st'))
      | _ =>
        rw [hs] at hstep
        exact hstep
    rw [run_succ, resume]
    cases he : m.settle fuel (m.step pc pos st) with
    | go pc pos st =>
      rw [he] at hsettle
      exact ih hA hsettle.1 hsettle.2
    | accept pos st =>
      rw [he] at hsettle
      exact hsettle
    | look => exact absurd he settle_ne_look
    | stop s => trivial
    | reject st =>
      rw [he] at hsettle
      have hback := returns_backtrack (m := m) hsettle
      rw [finish]
      cases hb : m.backtrack st₀.stack.size st with
      | go pc pos st =>
        rw [hb] at hback
        exact ih hA hback.1 hback.2
      | reject st =>
        rw [hb] at hback
        exact hback
      | accept | look => trivial
      | stop s => trivial

/-- A run from anywhere returns to where it began, apart from registers that conditions do not
spare. -/
theorem returns_of_run (hR : m.program.Spares R) (fuel pc pos : Nat) (st : State) :
    ResultReturns (fun _ => True) (fun _ => True) R st (m.run fuel st.stack.size pc pos st) :=
  returns_run hR fuel m.program.region_all trivial (.refl _ _ R st)

/-- **A failing run undoes everything.**  Whatever the program, be it made from a pattern or written
by hand, and whatever the address, the position, the slots, the registers and the stack at the
start: if the run fails, the stack and all capture slots are as they were.  If the program is made
from a tree, so is every loop register that no condition on what follows stores into.  If the run
accepts, what lay on the stack is still there, below the new entries. -/
theorem run_undoes (m : Machine) (fuel pc pos : Nat) (st : State) :
    (∀ st', m.run fuel st.stack.size pc pos st = .failed st' →
      st'.stack = st.stack ∧ st'.slots = st.slots ∧
        ∀ (p : Pattern) (mode : Mode) (width : Width) (flags : Flags)
          (tables₀ tables : Array CharTable) (cap : Nat),
          p.compile mode width flags tables₀ cap = (.ok m.program, tables) →
            ∀ r, ¬m.program.MarkedInLook r → st'.registers[r]? = st.registers[r]?) ∧
    ∀ stop st', m.run fuel st.stack.size pc pos st = .accepted stop st' →
      ∃ frames, st'.stack = st.stack ++ frames := by
  have hslots := returns_of_run m.program.spares_none fuel pc pos st
  constructor
  · intro st' hrun
    rw [hrun] at hslots
    refine ⟨hslots.1, hslots.2.slots, ?_⟩
    intro p mode width flags tables₀ tables cap hcompile r hr
    have hspares := Program.spares_of_sealed (Pattern.sealed_of_compile hcompile)
    have hregisters := returns_of_run hspares fuel pc pos st
    rw [hrun] at hregisters
    exact hregisters.2.registers r hr
  · intro stop st' hrun
    rw [hrun] at hslots
    exact Returns.bottom hslots

end Machine

/-! ### A program with conditions inside of a loop -/

/-- The pattern `(?:(?=((?:a?)*)(?!b))a?)*c`. -/
def Pattern.peeking : Pattern where
  root := .seq [
    .rep 0 none true (.seq [
      .look false (.seq [
        .group 1 (.rep 0 none true (.rep 0 (some 1) true (.unit 0x61))),
        .look true (.unit 0x62)]),
      .rep 0 (some 1) true (.unit 0x61)]),
    .unit 0x63]
  groups := 1

/-- Its program for Latin-1 texts, with captures.  Register 0 belongs to the outer loop and register
1 to the one inside of the condition. -/
def Program.peeking : Program where
  code := #[.split 1 20, .mark 0, .clear 2 4, .look false 4 16, .save 2, .split 6 11, .mark 1,
    .split 8 9, .unit 0x61, .progress 1, .jump 5, .save 3, .look true 13 15, .unit 0x62, .lookEnd,
    .lookEnd, .split 17 18, .unit 0x61, .progress 0, .jump 0, .unit 0x63, .accept]
  groups := 1
  registers := 2
  anchored := false
  captures := true
  firstUnit := none

theorem Pattern.compile_peeking :
    Pattern.peeking.compile .normal .latin1 .empty #[] 100 = (.ok .peeking, #[]) := by
  decide +kernel

theorem Program.not_markedInLook_peeking : ¬Program.peeking.MarkedInLook 0 := by
  rintro ⟨pc, negated, body, next, q, hlook, hbody, -, hmark⟩
  -- the register is stored into once, in front of all conditions
  have hlt : q < 22 := (Array.getElem?_eq_some_iff.1 hmark).1
  have honce : ∀ q < 22, Program.peeking.code[q]? = some (.mark 0) → q = 1 := by decide
  obtain rfl := honce q hlt hmark
  obtain ⟨rfl, -, -⟩ := (Pattern.sealed_of_compile Pattern.compile_peeking).body hlook
  obtain rfl : pc = 0 := by omega
  cases hlook

namespace Machine

/-- A machine that runs the program over `aa`. -/
def peeking : Machine where
  program := .peeking
  tables := #[]
  text := .ofUnits .latin1 #[0x61, 0x61]
  limits := {}
  interrupted := false

/-- A state in the middle of a search. -/
def State.midway : State where
  slots := #[some 1, none, some 0, some 2]
  registers := #[some 7, some 9]
  stack := #[.branch 3 1, .slot 2 none]
  failures := 0

deriving instance DecidableEq for Result

/-- No `c` is found, and the run leaves nothing behind but the register of the loop inside of the
condition and the failures that it counted.  A run through the end of that condition accepts. -/
theorem run_undoes_peeking :
    (peeking.run 1000 2 0 0 .midway =
        .failed { State.midway with registers := #[some 7, some 1], failures := 16 } ∧
      (#[some 7, some 1] : Array (Option Nat))[0]? = State.midway.registers[0]?) ∧
    (peeking.run 1000 2 11 2 .midway = .accepted 2
        { State.midway with
          stack := #[.branch 3 1, .slot 2 none, .slot 3 (some 2)], failures := 1 } ∧
      ∃ frames, #[.branch 3 1, .slot 2 none, .slot 3 (some 2)] = State.midway.stack ++ frames) := by
  have hfailed : peeking.run 1000 State.midway.stack.size 0 0 .midway =
      .failed { State.midway with registers := #[some 7, some 1], failures := 16 } := by
    decide +kernel
  have haccepted : peeking.run 1000 State.midway.stack.size 11 2 .midway = .accepted 2
      { State.midway with
        stack := #[.branch 3 1, .slot 2 none, .slot 3 (some 2)], failures := 1 } := by
    decide +kernel
  obtain ⟨-, -, hregisters⟩ := (run_undoes peeking 1000 0 0 .midway).1 _ hfailed
  have hregister := hregisters _ _ _ _ _ _ _ Pattern.compile_peeking 0
    Program.not_markedInLook_peeking
  have hframes := (run_undoes peeking 1000 11 2 .midway).2 _ _ haccepted
  exact ⟨⟨hfailed, hregister⟩, haccepted, hframes⟩

end Machine

end RegexEngine

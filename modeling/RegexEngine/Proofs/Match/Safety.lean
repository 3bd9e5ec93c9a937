import Mathlib.Data.List.Basic
import RegexEngine.Proofs.Match.Steps
import RegexEngine.Proofs.Pattern.Canonical
import RegexEngine.Proofs.Program.WellFormed

/-!
# Running well-formed programs

A machine that runs a well-formed program never uses an address, a slot, a register, a table or a
unit of the text that does not exist.  What has to be kept for this is that everything that is
stored is still in range when it is used: positions in the slots, and the entries of the stack.

* `Machine.State.Valid` — the states of such runs.
* `Machine.valid_step` — one instruction keeps a state valid.
* `Machine.valid_run` — so does a run.
* `Machine.search_ne_misuse` — **no search leaves its program or its text.**
-/

namespace RegexEngine

/-! ### Units of a text -/

namespace Text

variable {t : Text} {i j u : Nat}

theorem lt_of_unit? (h : t.unit? i = some u) : i < t.size := (Array.getElem?_eq_some_iff.1 h).1

theorem exists_unit? (h : i < t.size) : ∃ u, t.unit? i = some u :=
  ⟨_, Array.getElem?_eq_getElem h⟩

theorem firstFrom_none {p : Nat → Bool} {n : Nat} (h : firstFrom p n i = none) :
    ∀ k, i ≤ k → k < i + n → p k = false := by
  induction n generalizing i with
  | zero => intro k _ _; omega
  | succ n ih =>
    rw [firstFrom] at h
    split at h
    · cases h
    · next hi =>
      intro k hik hk
      rcases Nat.eq_or_lt_of_le hik with rfl | hlt
      · simpa using hi
      · exact ih h k hlt (by omega)

theorem firstFrom_some {p : Nat → Bool} {n : Nat} (h : firstFrom p n i = some j) :
    i ≤ j ∧ p j = true ∧ ∀ k, i ≤ k → k < j → p k = false := by
  induction n generalizing i with
  | zero => cases h
  | succ n ih =>
    rw [firstFrom] at h
    split at h
    · next hi =>
      obtain rfl := Option.some.inj h
      exact ⟨Nat.le_refl i, hi, fun k hik hk => by omega⟩
    · next hi =>
      obtain ⟨hij, hj, hbefore⟩ := ih h
      refine ⟨by omega, hj, fun k hik hk => ?_⟩
      rcases Nat.eq_or_lt_of_le hik with rfl | hlt
      · simpa using hi
      · exact hbefore k hlt hk

/-- Where a Latin-1 text is not looked through, there is nothing to find. -/
theorem findUnit?_eq (t : Text) (u i : Nat) :
    t.findUnit? u i = firstFrom (fun k => t.unit? k == some u) (t.size - i) i := by
  rw [findUnit?]
  split
  · next hhigh =>
    cases hfind : firstFrom (fun k => t.unit? k == some u) (t.size - i) i with
    | none => rfl
    | some j =>
      obtain ⟨-, hj, -⟩ := firstFrom_some hfind
      have hfits := t.fits u (Array.mem_of_getElem? (beq_iff_eq.1 hj))
      rw [hhigh.1] at hfits
      omega
  · rfl

/-- The unit that is looked for stands at the offset that was found, and nowhere in front of
it. -/
theorem findUnit?_some (h : t.findUnit? u i = some j) :
    i ≤ j ∧ t.unit? j = some u ∧ ∀ k, i ≤ k → k < j → t.unit? k ≠ some u := by
  rw [findUnit?_eq] at h
  obtain ⟨hij, hj, hbefore⟩ := firstFrom_some h
  exact ⟨hij, by simpa using hj, fun k hik hk => by simpa using hbefore k hik hk⟩

theorem findUnit?_none (h : t.findUnit? u i = none) : ∀ k, i ≤ k → t.unit? k ≠ some u := by
  rw [findUnit?_eq] at h
  intro k hik hk
  have hlt := lt_of_unit? hk
  simpa [hk] using firstFrom_none h k hik (by omega)

end Text

/-- There are `n` capture slots, and they hold positions of the text. -/
def SlotsFit (t : Text) (n : Nat) (slots : Array (Option Nat)) : Prop :=
  slots.size = n ∧ ∀ (i v : Nat), slots[i]? = some (some v) → v ≤ t.size

theorem SlotsFit.set {t : Text} {n : Nat} {slots : Array (Option Nat)} (h : SlotsFit t n slots)
    {i : Nat} {value : Option Nat} (hv : ∀ v ∈ value, v ≤ t.size) :
    SlotsFit t n (slots.setIfInBounds i value) := by
  refine ⟨by simpa using h.1, fun j v hj => ?_⟩
  rw [Array.getElem?_setIfInBounds] at hj
  split at hj
  · split at hj
    · exact hv v (by simpa using hj)
    · cases hj
  · exact h.2 j v hj

namespace Machine

/-- The capture slots are as many as the program has and hold positions of the text. -/
def SlotsValid (m : Machine) (slots : Array (Option Nat)) : Prop :=
  SlotsFit m.text m.program.slots slots

/-- What a stack entry refers to exists. -/
def FrameValid (m : Machine) : Frame → Prop
  | .branch pc pos => pc < m.program.code.size ∧ pos ≤ m.text.size
  | .slot i old => i < m.program.slots ∧ ∀ v ∈ old, v ≤ m.text.size
  | .register i _ => i < m.program.registers
  | .slots old => m.SlotsValid old

/-- Everything in a state is in range. -/
structure State.Valid (m : Machine) (st : State) : Prop where
  slots : m.SlotsValid st.slots
  registers : st.registers.size = m.program.registers
  stack : ∀ f ∈ st.stack, m.FrameValid f

/-- A run can go on with the effect, and does not leave its program or its text. -/
def EffectValid (m : Machine) : Effect → Prop
  | .go pc pos st => pc < m.program.code.size ∧ pos ≤ m.text.size ∧ st.Valid m
  | .reject st => st.Valid m
  | .accept pos st => pos ≤ m.text.size ∧ st.Valid m
  | .look _ body next pos st =>
    body < m.program.code.size ∧ next < m.program.code.size ∧ pos ≤ m.text.size ∧ st.Valid m
  | .stop s => s ≠ .outOfRange

/-- A run has ended without leaving its program or its text. -/
def ResultValid (m : Machine) : Result → Prop
  | .accepted pos st => pos ≤ m.text.size ∧ st.Valid m
  | .failed st => st.Valid m
  | .stopped s => s ≠ .outOfRange

variable {m : Machine} {pc pos : Nat} {st : State}

/-! ### Changes of a state -/

theorem valid_pushAnd {f : Frame} {k : State → Effect} (hst : st.Valid m) (hf : m.FrameValid f)
    (hk : ({ st with stack := st.stack.push f } : State).Valid m →
      m.EffectValid (k { st with stack := st.stack.push f })) :
    m.EffectValid (m.pushAnd f st k) := by
  rw [pushAnd]
  split
  · simp [EffectValid]
  · refine hk ⟨hst.slots, hst.registers, fun g hg => ?_⟩
    rcases Array.mem_push.1 hg with hg | rfl
    · exact hst.stack g hg
    · exact hf

theorem valid_setSlot {slot : Nat} {value : Option Nat} {k : State → Effect} (hst : st.Valid m)
    (hslot : slot < m.program.slots) (hv : ∀ v ∈ value, v ≤ m.text.size)
    (hk : ∀ st : State, st.Valid m → m.EffectValid (k st)) :
    m.EffectValid (m.setSlot slot value st k) := by
  have hlt : slot < st.slots.size := hst.slots.1 ▸ hslot
  rw [setSlot, Array.getElem?_eq_getElem hlt]
  refine valid_pushAnd hst ⟨hslot, fun v h => hst.slots.2 slot v ?_⟩ fun hpush => hk _
    ⟨hst.slots.set hv, hpush.registers, hpush.stack⟩
  rw [Array.getElem?_eq_getElem hlt, h]

theorem valid_clearSlots {n slot : Nat} {k : State → Effect} (hst : st.Valid m)
    (hslot : slot + n ≤ m.program.slots) (hk : ∀ st : State, st.Valid m → m.EffectValid (k st)) :
    m.EffectValid (m.clearSlots n slot st k) := by
  induction n generalizing slot st with
  | zero => exact hk st hst
  | succ n ih =>
    have hlt : slot < st.slots.size := by
      rw [hst.slots.1]
      omega
    rw [clearSlots]
    rcases hold : st.slots[slot]? with _ | _ | v
    · rw [Array.getElem?_eq_getElem hlt] at hold
      cases hold
    · exact ih hst (by omega)
    · exact valid_setSlot hst (by omega) (by simp) fun st hst => ih hst (by omega)

/-! ### Single instructions -/

theorem valid_consume {test : Nat → Bool} (hst : st.Valid m) (hpc : pc + 1 < m.program.code.size) :
    m.EffectValid (m.consume test pc pos st) := by
  rw [consume]
  split
  · next u hu =>
    have hpos := Text.lt_of_unit? hu
    split
    · exact ⟨hpc, by omega, hst⟩
    · exact hst
  · exact hst

theorem valid_consumeInTable {table : Nat} {negated folded : Bool} (hst : st.Valid m)
    (hpc : pc + 1 < m.program.code.size) (htable : table < m.tables.size) :
    m.EffectValid (m.consumeInTable table negated folded pc pos st) := by
  rw [consumeInTable, Array.getElem?_eq_getElem htable]
  split
  · exact hst
  · next u hu =>
    have hpos := Text.lt_of_unit? hu
    dsimp only
    generalize (if folded then m.tables[table].containsFolded u else m.tables[table].contains u) = b
    split
    · exact ⟨hpc, by omega, hst⟩
    · exact hst

/-- Units inside of the text can be compared. -/
theorem sameUnits_isSome {t : Text} {folded : Bool} {n i j : Nat} (hi : i + n ≤ t.size)
    (hj : j + n ≤ t.size) : (sameUnits t folded n i j).isSome := by
  induction n generalizing i j with
  | zero => rfl
  | succ n ih =>
    obtain ⟨u, hu⟩ := Text.exists_unit? (show i < t.size by omega)
    obtain ⟨v, hv⟩ := Text.exists_unit? (show j < t.size by omega)
    rw [sameUnits, hu, hv]
    dsimp only
    split
    · exact ih (by omega) (by omega)
    · rfl

theorem valid_consumeGroup {group : Nat} {folded : Bool} (hst : st.Valid m)
    (hpc : pc + 1 < m.program.code.size) (hpos : pos ≤ m.text.size)
    (hgroup : 2 * group + 1 < m.program.slots) :
    m.EffectValid (m.consumeGroup group folded pc pos st) := by
  have hstart : 2 * group < st.slots.size := by
    rw [hst.slots.1]
    omega
  have hstop : 2 * group + 1 < st.slots.size := hst.slots.1 ▸ hgroup
  rw [consumeGroup, Array.getElem?_eq_getElem hstart, Array.getElem?_eq_getElem hstop]
  simp only
  split
  · -- the group is defined, and its end lies in the text as every stored position does
    next start stop hs he =>
    have hle : stop ≤ m.text.size :=
      hst.slots.2 _ stop (by rw [Array.getElem?_eq_getElem hstop, he])
    split
    · exact ⟨hpc, hpos, hst⟩
    · split
      · exact hst
      · have hsome : (sameUnits m.text folded (stop - start) start pos).isSome :=
          sameUnits_isSome (by omega) (by omega)
        split
        · next hnone => simp [hnone] at hsome
        · exact ⟨hpc, by omega, hst⟩
        · exact hst
  · exact ⟨hpc, hpos, hst⟩

theorem valid_markRegister {register : Nat} (hst : st.Valid m)
    (hpc : pc + 1 < m.program.code.size) (hpos : pos ≤ m.text.size)
    (hregister : register < m.program.registers) :
    m.EffectValid (m.markRegister register pc pos st) := by
  rw [markRegister, Array.getElem?_eq_getElem (hst.registers ▸ hregister)]
  exact valid_pushAnd hst hregister fun hpush =>
    ⟨hpc, hpos, hpush.slots, by simpa using hpush.registers, hpush.stack⟩

theorem valid_checkProgress {register : Nat} (hst : st.Valid m)
    (hpc : pc + 1 < m.program.code.size) (hpos : pos ≤ m.text.size)
    (hregister : register < m.program.registers) :
    m.EffectValid (checkProgress register pc pos st) := by
  rw [checkProgress, Array.getElem?_eq_getElem (hst.registers ▸ hregister)]
  simp only
  split
  · exact hst
  · exact ⟨hpc, hpos, hst⟩

/-- **One instruction of a well-formed program keeps a state valid.** -/
theorem valid_step (hp : m.program.WellFormed m.tables.size) (hpc : pc < m.program.code.size)
    (hpos : pos ≤ m.text.size) (hst : st.Valid m) : m.EffectValid (m.step pc pos st) := by
  have hi : m.program.code[pc]? = some m.program.code[pc] := Array.getElem?_eq_getElem hpc
  have htargets := hp.targets pc _ hi
  have hoperands := hp.operands pc _ hi
  rw [step, hi]
  simp only
  generalize m.program.code[pc] = i at htargets hoperands
  cases i <;> simp only [Instr.targets, Instr.successors, List.forall_mem_cons,
    List.not_mem_nil, Instr.InRange] at htargets hoperands <;> simp only [perform]
  case accept | lookEnd => exact ⟨hpos, hst⟩
  case unit | folded | any => exact valid_consume hst htargets.1
  case inTable => exact valid_consumeInTable hst htargets.1 hoperands
  case anchor =>
    split
    · exact ⟨htargets.1, hpos, hst⟩
    · exact hst
  case split => exact valid_pushAnd hst ⟨htargets.2.1, hpos⟩ fun h => ⟨htargets.1, hpos, h⟩
  case jump => exact ⟨htargets.1, hpos, hst⟩
  case save =>
    exact valid_setSlot hst hoperands (by simpa using hpos) fun st h => ⟨htargets.1, hpos, h⟩
  case clear first last =>
    -- a span that is upside down clears nothing
    rcases Nat.lt_or_ge last first with hlt | hge
    · rw [Nat.sub_eq_zero_of_le hlt.le]
      exact ⟨htargets.1, hpos, hst⟩
    · exact valid_clearSlots hst (by omega) fun st h => ⟨htargets.1, hpos, h⟩
  case backRef => exact valid_consumeGroup hst htargets.1 hpos hoperands
  case mark => exact valid_markRegister hst htargets.1 hpos hoperands
  case progress => exact valid_checkProgress hst htargets.1 hpos hoperands
  case look => exact ⟨htargets.1, htargets.2.1, hpos, hst⟩
  case fail => exact hst

/-! ### Runs -/

theorem mem_of_mem_pop {stack : Array Frame} {f : Frame} (h : f ∈ stack.pop) : f ∈ stack := by
  rw [Array.mem_def, Array.toList_pop] at h
  exact Array.mem_def.2 ((List.dropLast_sublist _).mem h)

theorem valid_pop {f : Frame} (hst : st.Valid m) (hf : st.stack.back? = some f) :
    m.FrameValid f ∧ ∀ g ∈ st.stack.pop, m.FrameValid g :=
  ⟨hst.stack f (Array.mem_of_back? hf), fun g hg => hst.stack g (mem_of_mem_pop hg)⟩

theorem valid_unwind (n : Nat) (hst : st.Valid m) : m.EffectValid (st.unwind n) := by
  induction n generalizing st with
  | zero => exact hst
  | succ n ih =>
    rw [State.unwind]
    split
    · exact hst
    · next f hf =>
      obtain ⟨hframe, hpop⟩ := valid_pop hst hf
      cases f with
      | branch pc pos => exact ⟨hframe.1, hframe.2, hst.slots, hst.registers, hpop⟩
      | slot i old =>
        simp only [if_pos (show i < st.slots.size by rw [hst.slots.1]; exact hframe.1)]
        exact ih ⟨hst.slots.set hframe.2, hst.registers, hpop⟩
      | register i old =>
        simp only [if_pos (show i < st.registers.size by rw [hst.registers]; exact hframe)]
        exact ih ⟨hst.slots, by simpa using hst.registers, hpop⟩
      | slots old =>
        simp only [if_pos (show old.size = st.slots.size by rw [hst.slots.1]; exact hframe.1)]
        exact ih ⟨hframe, hst.registers, hpop⟩

theorem valid_backtrack (base : Nat) (hst : st.Valid m) : m.EffectValid (m.backtrack base st) := by
  rcases backtrack_cases m base st with h | ⟨k, h⟩
  · simp [h, EffectValid]
  · rw [h]
    exact valid_unwind _ ⟨hst.slots, hst.registers, hst.stack⟩

theorem valid_truncate (base : Nat) (hst : st.Valid m) : (st.truncate base).Valid m :=
  ⟨hst.slots, hst.registers, fun f hf => hst.stack f (by
    simp only [State.truncate, Array.shrink_eq_take] at hf
    obtain ⟨i, hi, rfl⟩ := Array.mem_extract_iff_getElem.1 hf
    exact Array.getElem_mem _)⟩

theorem valid_afterLook {negated : Bool} {next base : Nat} {slots : Array (Option Nat)} {r : Result}
    (hnext : next < m.program.code.size) (hpos : pos ≤ m.text.size) (hslots : m.SlotsValid slots)
    (hr : m.ResultValid r) : m.EffectValid (m.afterLook negated next pos slots base r) := by
  cases r with
  | stopped s => exact hr
  | failed st =>
    have htr := valid_truncate base hr
    rw [afterLook]
    split
    · exact ⟨hnext, hpos, hslots, htr.registers, htr.stack⟩
    · exact htr
  | accepted stop st =>
    have htr := valid_truncate base hr.2
    rw [afterLook]
    split
    · exact ⟨hslots, htr.registers, htr.stack⟩
    · exact valid_pushAnd htr hslots fun h => ⟨hnext, hpos, h⟩

theorem unwind_outcome (n : Nat) (st : State) :
    (∃ pc pos st', st.unwind n = .go pc pos st') ∨ (∃ st', st.unwind n = .reject st') ∨
      ∃ s, st.unwind n = .stop s := by
  induction n generalizing st with
  | zero => exact Or.inr (Or.inl ⟨st, rfl⟩)
  | succ n ih =>
    rw [State.unwind]
    cases hf : st.stack.back? with
    | none => exact Or.inr (Or.inl ⟨st, rfl⟩)
    | some f =>
      cases f with
      | branch pc pos => exact Or.inl ⟨pc, pos, _, rfl⟩
      | slot i old | register i old | slots old =>
        dsimp only
        split
        · exact ih _
        · exact Or.inr (Or.inr ⟨_, rfl⟩)

theorem backtrack_outcome (m : Machine) (base : Nat) (st : State) :
    (∃ pc pos st', m.backtrack base st = .go pc pos st') ∨
      (∃ st', m.backtrack base st = .reject st') ∨ ∃ s, m.backtrack base st = .stop s := by
  rcases backtrack_cases m base st with h | ⟨k, h⟩
  · exact Or.inr (Or.inr ⟨_, h⟩)
  · rw [h]
    exact unwind_outcome _ _

/-- **A run of a well-formed program stays inside of its code, its state and its text.** -/
theorem valid_run (hp : m.program.WellFormed m.tables.size) {fuel base : Nat}
    (hpc : pc < m.program.code.size) (hpos : pos ≤ m.text.size) (hst : st.Valid m) :
    m.ResultValid (m.run fuel base pc pos st) := by
  induction fuel generalizing base pc pos st with
  | zero => simp [run, ResultValid]
  | succ fuel ih =>
    -- the instruction, then the run of its condition, then what failing leads back to
    have hstep := valid_step hp hpc hpos hst
    have hsettle : m.EffectValid (m.settle fuel (m.step pc pos st)) := by
      cases hs : m.step pc pos st with
      | look negated body next pos' st' =>
        rw [hs] at hstep
        obtain ⟨hbody, hnext, hpos', hst'⟩ := hstep
        exact valid_afterLook hnext hpos' hst'.slots (ih hbody hpos' hst')
      | _ =>
        rw [hs] at hstep
        exact hstep
    rw [run_succ, resume]
    cases he : m.settle fuel (m.step pc pos st) with
    | go pc pos st =>
      rw [he] at hsettle
      exact ih hsettle.1 hsettle.2.1 hsettle.2.2
    | accept pos st =>
      rw [he] at hsettle
      exact hsettle
    | look => exact absurd he settle_ne_look
    | stop s =>
      rw [he] at hsettle
      exact hsettle
    | reject st =>
      rw [he] at hsettle
      have hback := valid_backtrack base hsettle
      rw [finish]
      rcases backtrack_outcome m base st with ⟨pc, pos, st', h⟩ | ⟨st', h⟩ | ⟨s, h⟩
      · rw [h] at hback ⊢
        exact ih hback.1 hback.2.1 hback.2.2
      · rw [h] at hback ⊢
        exact hback
      · rw [h] at hback ⊢
        exact hback

/-! ### Attempts and searches -/

theorem valid_start (failures : Nat) (hpos : pos ≤ m.text.size) :
    (m.start pos failures).Valid m where
  slots := by
    refine SlotsFit.set ⟨by simp, fun i v h => ?_⟩ (by simpa using hpos)
    simp [Array.getElem?_replicate] at h
  registers := by simp [start]
  stack := by simp [start]

/-- **No attempt leaves its program or its text.** -/
theorem valid_attempt (hp : m.program.WellFormed m.tables.size) (hpos : pos ≤ m.text.size)
    (failures : Nat) : m.ResultValid (m.attempt pos failures) := by
  have hrun : m.ResultValid (m.run m.limits.steps 0 0 pos (m.start pos failures)) :=
    valid_run hp hp.code_pos hpos (valid_start failures hpos)
  rw [attempt]
  split
  · next stop st h =>
    rw [h] at hrun
    exact ⟨hrun.1, hrun.2.slots.set (by simpa using hrun.1), hrun.2.registers, hrun.2.stack⟩
  · exact hrun

/-- The next position that is tried, if there is one, is not behind the end of the text. -/
theorem candidate_cases (hpos : m.program.firstUnit ≠ none → pos ≤ m.text.size) :
    m.candidate? pos = .ok none ∨ ∃ q, m.candidate? pos = .ok (some q) ∧ pos ≤ q ∧
      (m.program.firstUnit ≠ none → q < m.text.size) := by
  rw [candidate?]
  cases hfirst : m.program.firstUnit with
  | none => exact Or.inr ⟨pos, rfl, Nat.le_refl _, by simp⟩
  | some u =>
    have hle := hpos (by simp [hfirst])
    simp only [if_neg (Nat.not_lt.2 hle)]
    cases hfind : m.text.findUnit? u pos with
    | none => exact Or.inl rfl
    | some q =>
      obtain ⟨hq, hu, -⟩ := Text.findUnit?_some hfind
      exact Or.inr ⟨q, rfl, hq, fun _ => Text.lt_of_unit? hu⟩

theorem searchFrom_ne_misuse (hp : m.program.WellFormed m.tables.size) {last room : Nat}
    {pairs : Array Pair} {failures : Nat} (hlast : last ≤ m.text.size)
    (hpos : m.program.firstUnit ≠ none → pos ≤ m.text.size) :
    m.searchFrom last pairs room pos failures ≠ .failed .misuse := by
  induction room generalizing pos failures with
  | zero => simp [searchFrom]
  | succ room ih =>
    rw [searchFrom]
    rcases candidate_cases hpos with hnone | ⟨q, hq, -, hlt⟩
    · simp [hnone]
    · rw [hq]
      dsimp only
      split
      · simp
      · split
        · simp
        · -- an attempt in the text does not run out of range
          have hattempt : m.ResultValid (m.attempt q failures) :=
            valid_attempt hp (by omega) failures
          split
          · simp
          · exact ih fun hfirst => hlt hfirst
          · next s hs =>
            rw [hs] at hattempt
            cases s <;> simp_all [Stop.toOutcome, ResultValid]

/-- **No search leaves its program or its text.** -/
theorem search_ne_misuse (hp : m.program.WellFormed m.tables.size) {start : Nat}
    {pairs : Array Pair} : m.search start pairs ≠ .failed .misuse := by
  rw [search]
  split
  · simp
  · refine searchFrom_ne_misuse hp ?_ fun _ => by omega
    split <;> omega

end Machine

/-! ### Compiled programs -/

theorem Program.WellFormed.mono {p : Program} {nt nt' : Nat} (h : p.WellFormed nt)
    (hle : nt ≤ nt') : p.WellFormed nt' :=
  { h with
    operands := by
      intro pc i hi
      have hoperands := h.operands pc i hi
      cases i <;> first | exact Nat.lt_of_lt_of_le hoperands hle | exact hoperands }

/-- The program of a machine that runs a compiled program is well formed, whatever is appended to
the list of tables later. -/
theorem Pattern.Canonical.wellFormed_of_machine {p : Pattern} (hp : p.Canonical) {mode : Mode}
    {width : Width} {flags : Flags} {cap : Nat} {tables₀ tables later : Array CharTable}
    {prog : Program} (h : p.compile mode width flags tables₀ cap = (.ok prog, tables)) {m : Machine}
    (hprog : m.program = prog) (htables : m.tables = tables ++ later) :
    m.program.WellFormed m.tables.size := by
  rw [hprog, htables]
  exact (hp.wellFormed_of_compile h).mono (by rw [Array.size_append]; omega)

/-- **Programs that are compiled from parsed patterns are well formed, and no attempt and no search
with them leaves their code, their slots, their registers, their tables or the text**, whatever is
appended to the list of tables later. -/
theorem wellFormed_and_safe_of_compile {source : String} {flags : Flags} {p : Pattern}
    (hp : p.IsFrom source flags) {mode : Mode} {width : Width} {cap : Nat}
    {tables₀ tables : Array CharTable} {prog : Program}
    (h : p.compile mode width flags tables₀ cap = (.ok prog, tables)) :
    prog.WellFormed tables.size ∧
      ∀ (m : Machine) (later : Array CharTable), m.program = prog → m.tables = tables ++ later →
        (∀ pos failures, pos ≤ m.text.size → m.attempt pos failures ≠ .stopped .outOfRange) ∧
          ∀ start pairs, m.search start pairs ≠ .failed .misuse := by
  refine ⟨hp.canonical.wellFormed_of_compile h, fun m later hprog htables => ?_⟩
  have hm := hp.canonical.wellFormed_of_machine h hprog htables
  refine ⟨fun pos failures hpos hstop => ?_, fun start pairs => Machine.search_ne_misuse hm⟩
  have hvalid := Machine.valid_attempt hm hpos failures
  rw [hstop] at hvalid
  exact hvalid rfl

theorem Pattern.isFrom_doubled : Pattern.doubled.IsFrom "(b)+?\\1" .empty :=
  ⟨_, rfl, Or.inl rfl⟩

theorem wellFormed_and_safe_doubled :
    Program.doubled.WellFormed 0 ∧
      ∀ (m : Machine) (later : Array CharTable), m.program = .doubled → m.tables = #[] ++ later →
        (∀ pos failures, pos ≤ m.text.size → m.attempt pos failures ≠ .stopped .outOfRange) ∧
          ∀ start pairs, m.search start pairs ≠ .failed .misuse :=
  wellFormed_and_safe_of_compile Pattern.isFrom_doubled Pattern.compile_doubled

end RegexEngine

import RegexEngine.Match.Pairs
import RegexEngine.Proofs.Match.Safety

/-!
# Positions in words of 32 bits

Positions are kept in capture slots, and those of a finished match in pairs.  Both have words of 32
bits for them.  In a text that is short enough no position is changed by this, wherever a run comes.

* `Machine.Visits` — the places that the attempts of a search come through.
* `Machine.Visits.valid` — **everything in range stays in range at all of them.**
* `Machine.Visits.fitsWords` — **positions and captures fit 32 bits at all of them.**
-/

namespace RegexEngine

namespace Machine

/-- The places that the attempts of a search from `start` on come through: the number of stack
entries below the run, the address, the position and the state.  These are the arguments of all
calls in the recursion of `Machine.run`, those for conditions on what follows included. -/
inductive Visits (m : Machine) (start : Nat) : Nat → Nat → Nat → State → Prop
  /-- An attempt begins. -/
  | begin {pos : Nat} (failures : Nat) (hstart : start ≤ pos) (hpos : pos ≤ m.text.size) :
    Visits m start 0 0 pos (m.start pos failures)
  /-- An instruction goes on, or a condition that is decided. -/
  | go {base pc pos fuel pc' pos' : Nat} {st st' : State} (h : Visits m start base pc pos st)
    (he : m.settle fuel (m.step pc pos st) = .go pc' pos' st') : Visits m start base pc' pos' st'
  /-- An instruction fails, and an alternative is resumed. -/
  | back {base pc pos fuel pc' pos' : Nat} {st st₁ st' : State} (h : Visits m start base pc pos st)
    (he : m.settle fuel (m.step pc pos st) = .reject st₁)
    (hb : m.backtrack base st₁ = .go pc' pos' st') : Visits m start base pc' pos' st'
  /-- A condition on what follows begins. -/
  | look {base pc pos body next pos' : Nat} {negated : Bool} {st st' : State}
    (h : Visits m start base pc pos st)
    (he : m.step pc pos st = .look negated body next pos' st') :
    Visits m start st'.stack.size body pos' st'

variable {m : Machine} {start base pc pos : Nat} {st : State}

/-- Deciding a condition keeps everything in range. -/
theorem valid_settle (hp : m.program.WellFormed m.tables.size) {e : Effect} (he : m.EffectValid e)
    (fuel : Nat) : m.EffectValid (m.settle fuel e) := by
  cases e with
  | look negated body next pos st =>
    obtain ⟨hbody, hnext, hpos, hst⟩ := he
    exact valid_afterLook hnext hpos hst.slots (valid_run hp hbody hpos hst)
  | _ => exact he

/-- **Wherever a run of a well-formed program comes, everything is in range.** -/
theorem Visits.valid (hp : m.program.WellFormed m.tables.size) (h : m.Visits start base pc pos st) :
    pc < m.program.code.size ∧ pos ≤ m.text.size ∧ st.Valid m := by
  induction h with
  | begin failures hstart hpos => exact ⟨hp.code_pos, hpos, valid_start failures hpos⟩
  | @go _ _ _ fuel _ _ _ _ _ he ih =>
    have hsettle := valid_settle hp (valid_step hp ih.1 ih.2.1 ih.2.2) fuel
    rwa [he] at hsettle
  | @back base _ _ fuel _ _ _ _ _ _ he hb ih =>
    have hsettle := valid_settle hp (valid_step hp ih.1 ih.2.1 ih.2.2) fuel
    rw [he] at hsettle
    have hback := valid_backtrack base hsettle
    rwa [hb] at hback
  | look _ he ih =>
    have hstep := valid_step hp ih.1 ih.2.1 ih.2.2
    rw [he] at hstep
    exact ⟨hstep.1, hstep.2.2⟩

/-- The position and everything in the capture slots are the same when they are read as words of 32
bits. -/
def FitsWords (pos : Nat) (st : State) : Prop :=
  Pair.toWord pos = pos ∧ ∀ v : Nat, some v ∈ st.slots → Pair.toWord v = v

/-- **In a short text positions and captures fit 32 bits wherever a run comes.** -/
theorem Visits.fitsWords (hp : m.program.WellFormed m.tables.size)
    (h : m.Visits start base pc pos st) (hsize : m.text.size < 0x80000000) : FitsWords pos st := by
  obtain ⟨-, hpos, hst⟩ := h.valid hp
  refine ⟨Pair.toWord_natCast (by omega), fun v hv => ?_⟩
  obtain ⟨k, hk⟩ := Array.mem_iff_getElem?.1 hv
  have hle := hst.slots.2 k v hk
  exact Pair.toWord_natCast (by omega)

end Machine

end RegexEngine

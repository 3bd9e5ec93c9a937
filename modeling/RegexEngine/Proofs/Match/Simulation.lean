import Mathlib.Data.List.Basic
import RegexEngine.Proofs.Match.Threads

/-!
# The machine tries the outcomes of a fragment in order

A run that enters the code of a fragment reaches its exit with the first of the fragment's
outcomes; each time the code behind fails back, it reaches the exit with the next one; and once
there are no more outcomes it fails back beyond the fragment, with everything as it was.  The
only other way is that the run is interrupted or that the stack is full.

Conditions on what follows drop their stack entries, so that the loop registers inside of them
are not put back.  Such registers are *volatile*; nothing is said about their contents.

* `Machine.State.Like` — states that differ in volatile registers only.
* `Machine.State.Above` — states with more on the stack.
* `Machine.Yields` — the run tries outcomes in order.
* `Machine.yields_threads` — **the run tries the outcomes of a fragment.**
-/

namespace RegexEngine

namespace Machine

/-! ### States behind and above a state -/

/-- The same state, apart from volatile registers and the counter of failures. -/
structure State.Like (V : Nat → Prop) (st st' : State) : Prop where
  slots : st'.slots = st.slots
  stack : st'.stack = st.stack
  size : st'.registers.size = st.registers.size
  registers : ∀ r : Nat, ¬V r → st'.registers[r]? = st.registers[r]?

/-- The stack has grown, and registers outside of `W` are as before. -/
structure State.Above (W : Nat → Prop) (st st' : State) : Prop where
  stack : ∃ frames, st'.stack = st.stack ++ frames
  size : st'.registers.size = st.registers.size
  registers : ∀ r : Nat, ¬W r → st'.registers[r]? = st.registers[r]?

/-- The state in which a run with `n` registers takes a thread further. -/
structure State.Carries (base n : Nat) (x : Thread) (st : State) : Prop where
  slots : st.slots = x.slots
  size : st.registers.size = n
  base_le : base ≤ st.stack.size

section States

variable {V W : Nat → Prop} {st st₁ st₂ : State} {base n : Nat} {x y : Thread}

theorem State.Like.refl (V : Nat → Prop) (st : State) : st.Like V st :=
  ⟨rfl, rfl, rfl, fun _ _ => rfl⟩

theorem State.Like.trans (h : st.Like V st₁) (h' : st₁.Like V st₂) : st.Like V st₂ :=
  ⟨h'.slots.trans h.slots, h'.stack.trans h.stack, h'.size.trans h.size,
    fun r hr => (h'.registers r hr).trans (h.registers r hr)⟩

theorem State.Above.refl (W : Nat → Prop) (st : State) : st.Above W st :=
  ⟨⟨#[], by simp⟩, rfl, fun _ _ => rfl⟩

theorem State.Above.trans (h : st.Above W st₁) (h' : st₁.Above W st₂) : st.Above W st₂ := by
  obtain ⟨⟨fs, hfs⟩, hsize, hregs⟩ := h
  obtain ⟨⟨gs, hgs⟩, hsize', hregs'⟩ := h'
  exact ⟨⟨fs ++ gs, by rw [hgs, hfs, Array.append_assoc]⟩, hsize'.trans hsize,
    fun r hr => (hregs' r hr).trans (hregs r hr)⟩

theorem State.Like.above (h : st.Like V st₁) (hVW : ∀ r, V r → W r) : st.Above W st₁ :=
  ⟨⟨#[], by simp [h.stack]⟩, h.size, fun r hr => h.registers r fun hv => hr (hVW r hv)⟩

theorem State.Above.mono {W' : Nat → Prop} (h : st.Above W st₁) (hW : ∀ r, W r → W' r) :
    st.Above W' st₁ :=
  ⟨h.stack, h.size, fun r hr => h.registers r fun hw => hr (hW r hw)⟩

/-- One more entry on the stack. -/
theorem above_push (W : Nat → Prop) (st : State) (f : Frame) (slots : Array (Option Nat)) :
    st.Above W { st with stack := st.stack.push f, slots := slots } :=
  ⟨⟨#[f], Array.push_eq_append⟩, rfl, fun _ _ => rfl⟩

theorem State.Carries.of_above (h : st.Carries base n x) (h' : st.Above W st₁)
    (hslots : st₁.slots = y.slots) : st₁.Carries base n y := by
  obtain ⟨⟨fs, hfs⟩, hsize, -⟩ := h'
  refine ⟨hslots, hsize.trans h.size, ?_⟩
  have hle := h.base_le
  rw [hfs, Array.size_append]
  omega

theorem State.Carries.of_like (h : st.Carries base n x) (h' : st.Like V st₁) :
    st₁.Carries base n x :=
  ⟨h'.slots.trans h.slots, h'.size.trans h.size, by rw [h'.stack]; exact h.base_le⟩

end States

/-! ### Trying outcomes in order -/

/-- The run behind an effect reaches `exit` with each of the threads in turn, going on to the next
one when the code behind fails, and fails back to `st₀` in the end. -/
def Yields (m : Machine) (base exit : Nat) (V W : Nat → Prop) (st₀ : State) :
    List Thread → Effect → Prop
  | [], e => m.Stops base e ∨ ∃ st, m.Leads base e (.reject st) ∧ st₀.Like V st
  | y :: ys, e => m.Stops base e ∨ ∃ st, m.Leads base e (.go exit y.pos st) ∧
      st.slots = y.slots ∧ st₀.Above W st ∧
        ∀ st', st.Like V st' → m.Yields base exit V W st₀ ys (.reject st')

namespace Yields

variable {m : Machine} {base exit mid : Nat} {V W : Nat → Prop} {st st₀ : State}
  {x y : Thread} {xs ys : List Thread} {e e' : Effect}

theorem of_stops (h : m.Stops base e) : m.Yields base exit V W st₀ ys e := by
  cases ys <;> exact Or.inl h

theorem of_leads (h : m.Leads base e e') (hy : m.Yields base exit V W st₀ ys e') :
    m.Yields base exit V W st₀ ys e := by
  cases ys with
  | nil =>
    rcases hy with hs | ⟨st, hl, hlike⟩
    · exact Or.inl (h.stops hs)
    · exact Or.inr ⟨st, h.trans hl, hlike⟩
  | cons y ys =>
    rcases hy with hs | ⟨st, hl, hrest⟩
    · exact Or.inl (h.stops hs)
    · exact Or.inr ⟨st, h.trans hl, hrest⟩

theorem nil (h : st₀.Like V st) : m.Yields base exit V W st₀ [] (.reject st) :=
  Or.inr ⟨st, Leads.refl, h⟩

/-- A run that is at the exit has one outcome. -/
theorem single (h : st.slots = x.slots) :
    m.Yields base exit V W st [x] (.go exit x.pos st) :=
  Or.inr ⟨st, Leads.refl, h, .refl W st, fun _ hlike => nil hlike⟩

theorem mono {W' : Nat → Prop} (hW : ∀ r, W r → W' r) (h : m.Yields base exit V W st₀ ys e) :
    m.Yields base exit V W' st₀ ys e := by
  induction ys generalizing e with
  | nil => exact h
  | cons y ys ih =>
    rcases h with hs | ⟨st, hl, hslots, habove, hrest⟩
    · exact Or.inl hs
    · exact Or.inr ⟨st, hl, hslots, habove.mono hW, fun st' hlike => ih (hrest st' hlike)⟩

/-- Outcomes above a state, and those that come when the run has failed back to it. -/
theorem append (h : m.Yields base exit V W st xs e) (habove : st₀.Above W st)
    (hrest : ∀ st', st.Like V st' → m.Yields base exit V W st₀ ys (.reject st')) :
    m.Yields base exit V W st₀ (xs ++ ys) e := by
  induction xs generalizing e with
  | nil =>
    rcases h with hs | ⟨st', hl, hlike⟩
    · exact of_stops hs
    · exact of_leads hl (hrest st' hlike)
  | cons x xs ih =>
    rcases h with hs | ⟨st', hl, hslots, habove', hnext⟩
    · exact of_stops hs
    · exact Or.inr ⟨st', hl, hslots, habove.trans habove', fun st'' hlike => ih (hnext st'' hlike)⟩

/-- What has been done above a state is undone in the end. -/
theorem undo (h : m.Yields base exit V W st ys e) (habove : st₀.Above W st)
    (hundo : ∀ st', st.Like V st' →
      ∃ st'', m.Leads base (.reject st') (.reject st'') ∧ st₀.Like V st'') :
    m.Yields base exit V W st₀ ys e := by
  rw [← List.append_nil ys]
  exact h.append habove fun st' hlike => Or.inr (hundo st' hlike)

theorem of_like (h : m.Yields base exit V W st ys e) (hlike : st₀.Like V st)
    (hVW : ∀ r, V r → W r) : m.Yields base exit V W st₀ ys e :=
  h.undo (hlike.above hVW) fun st' hlike' => ⟨st', Leads.refl, hlike.trans hlike'⟩

/-- Each outcome is taken further by the code at the exit. -/
theorem bind {k : Thread → List Thread} (h : m.Yields base mid V W st₀ ys e)
    (hk : ∀ y ∈ ys, ∀ st, st.slots = y.slots → st₀.Above W st →
      m.Yields base exit V W st (k y) (.go mid y.pos st)) :
    m.Yields base exit V W st₀ (ys.flatMap k) e := by
  induction ys generalizing e with
  | nil => exact h
  | cons y ys ih =>
    rw [List.flatMap_cons]
    rcases h with hs | ⟨st, hl, hslots, habove, hrest⟩
    · exact of_stops hs
    · refine of_leads hl ((hk y (List.mem_cons_self ..) st hslots habove).append habove ?_)
      exact fun st' hlike => ih (hrest st' hlike) fun z hz => hk z (List.mem_cons_of_mem y hz)

/-- The exit leads to another one. -/
theorem leave (h : m.Yields base mid V W st₀ ys e)
    (hexit : ∀ pos st, m.Leads base (.go mid pos st) (.go exit pos st)) :
    m.Yields base exit V W st₀ ys e := by
  rw [← List.flatMap_singleton' ys]
  exact h.bind fun y _ st hslots _ => of_leads (hexit _ _) (single hslots)

end Yields

/-! ### Straight instructions -/

/-- An entry that is written again changes nothing. -/
theorem setIfInBounds_eq_self {xs : Array (Option Nat)} {i : Nat} {v : Option Nat}
    (h : xs[i]? = some v) : xs.setIfInBounds i v = xs := by
  refine Array.ext_getElem? fun j => ?_
  rw [Array.getElem?_setIfInBounds]
  split
  · next hij =>
    subst hij
    rw [if_pos (Array.getElem?_eq_some_iff.1 h).1, h]
  · rfl

section Straight

variable {m : Machine} {base a : Nat} {V W : Nat → Prop} {st : State} {x : Thread}
  {ys : List Thread}

theorem yields_consume {test : Nat → Bool} (hst : st.slots = x.slots) :
    m.Yields base (a + 1) V W st (x.consume m.text test).toList (m.consume test a x.pos st) := by
  rw [consume, Thread.consume]
  cases m.text.unit? x.pos with
  | none => exact .nil (.refl V st)
  | some u =>
    dsimp only
    split
    · exact .single (x := { x with pos := x.pos + 1 }) hst
    · exact .nil (.refl V st)

/-- A push either finds the stack full or is undone when the run fails back. -/
theorem yields_pushAnd {f : Frame} {k : State → Effect} {st₀ : State}
    (h : m.Yields base a V W st₀ ys (k { st with stack := st.stack.push f })) :
    m.Yields base a V W st₀ ys (m.pushAnd f st k) := by
  rw [pushAnd]
  split
  · exact .of_stops (Or.inr (ends_stop ..))
  · exact h

theorem yields_setSlot {slot : Nat} {value : Option Nat} {k : State → Effect}
    (hbase : base ≤ st.stack.size) (hslot : slot < st.slots.size)
    (h : ∀ st₁ : State, st₁.slots = st.slots.setIfInBounds slot value →
      st₁.registers.size = st.registers.size → base ≤ st₁.stack.size →
        m.Yields base a V W st₁ ys (k st₁)) :
    m.Yields base a V W st ys (m.setSlot slot value st k) := by
  rw [setSlot, Array.getElem?_eq_getElem hslot]
  have hbase₁ : base ≤ (st.stack.push (.slot slot st.slots[slot])).size := by
    rw [Array.size_push]
    omega
  refine yields_pushAnd ((h { st with
    stack := st.stack.push (.slot slot st.slots[slot])
    slots := st.slots.setIfInBounds slot value } rfl rfl hbase₁).undo (above_push W st _ _) ?_)
  -- failing back puts the old value into the slot again
  intro st' hlike
  refine ⟨_, leads_slot hlike.stack hbase (by simpa [hlike.slots] using hslot), ?_, rfl,
    hlike.size, hlike.registers⟩
  simp only [hlike.slots, Array.setIfInBounds_setIfInBounds]
  exact setIfInBounds_eq_self (Array.getElem?_eq_getElem hslot)

theorem yields_clearSlots {n slot pos : Nat} (hbase : base ≤ st.stack.size)
    (hslot : slot + n ≤ st.slots.size) :
    m.Yields base a V W st [⟨pos, Thread.forget n slot st.slots⟩]
      (m.clearSlots n slot st fun st => .go a pos st) := by
  induction n generalizing slot st with
  | zero => exact .single rfl
  | succ n ih =>
    have hlt : slot < st.slots.size := by omega
    rw [clearSlots, Thread.forget]
    cases hold : st.slots[slot]? with
    | none =>
      rw [Array.getElem?_eq_getElem hlt] at hold
      cases hold
    | some old =>
      cases old with
      | none =>
        rw [setIfInBounds_eq_self hold]
        exact ih hbase (by omega)
      | some v =>
        refine yields_setSlot hbase hlt fun st₁ hslots _ hbase₁ => ?_
        rw [← hslots]
        exact ih hbase₁ (by rw [hslots, Array.size_setIfInBounds]; omega)

theorem yields_consumeGroup {group n : Nat} {folded : Bool} (hst : st.slots = x.slots)
    (hx : x.Fits m.text n) (hgroup : 2 * group + 1 < n) :
    m.Yields base (a + 1) V W st (x.repeatGroup m.text group folded).toList
      (m.consumeGroup group folded a x.pos st) := by
  have hpos := hx.1
  have hstart : 2 * group < x.slots.size := by
    rw [hx.2.1]
    omega
  have hstop : 2 * group + 1 < x.slots.size := hx.2.1 ▸ hgroup
  rw [consumeGroup, Thread.repeatGroup, hst, Array.getElem?_eq_getElem hstart,
    Array.getElem?_eq_getElem hstop]
  cases hs : x.slots[2 * group] with
  | none => exact .single hst
  | some start =>
    cases he : x.slots[2 * group + 1] with
    | none => exact .single hst
    | some stop =>
      have hle : stop ≤ m.text.size :=
        hx.2.2 _ stop (by rw [Array.getElem?_eq_getElem hstop, he])
      -- both sides go through the same cases; no unit outside of the text is looked at
      dsimp only
      split
      · exact .single hst
      · split
        · exact .nil (.refl V st)
        · have hsome : (sameUnits m.text folded (stop - start) start x.pos).isSome :=
            sameUnits_isSome (by omega) (by omega)
          cases hsame : sameUnits m.text folded (stop - start) start x.pos with
          | none =>
            rw [hsame] at hsome
            cases hsome
          | some b =>
            cases b with
            | true => exact .single (x := { x with pos := x.pos + (stop - start) }) hst
            | false => exact .nil (.refl V st)

/-- **A straight instruction takes a thread to the one behind it, or fails.** -/
theorem yields_instr {i : Instr} {n r : Nat} (hcode : m.program.code[a]? = some i)
    (hi : i.Straight n m.tables.size) (hx : x.Fits m.text n) (hst : st.Carries base r x) :
    m.Yields base (a + 1) V W st (i.pass m.tables m.text x).toList (.go a x.pos st) := by
  have hslots : st.slots.size = n := by rw [hst.slots, hx.2.1]
  have hperform : m.Yields base (a + 1) V W st (i.pass m.tables m.text x).toList
      (m.perform i a x.pos st) := by
    cases i with
    | unit u | folded u | any => exact yields_consume hst.slots
    | inTable table negated folded =>
      have htable : table < m.tables.size := hi
      simp only [Instr.pass, perform, consumeInTable, Thread.consume,
        Array.getElem?_eq_getElem htable, Option.bind_some]
      cases m.text.unit? x.pos with
      | none => exact .nil (.refl V st)
      | some u =>
        rcases Bool.eq_false_or_eq_true ((if folded then m.tables[table].containsFolded u
          else m.tables[table].contains u) != negated) with htest | htest <;> simp only [htest]
        · exact .single (x := { x with pos := x.pos + 1 }) hst.slots
        · exact .nil (.refl V st)
    | anchor c =>
      simp only [Instr.pass, perform]
      split
      · exact .single hst.slots
      · exact .nil (.refl V st)
    | save slot =>
      refine yields_setSlot hst.base_le (hslots ▸ hi) fun st₁ hslots₁ _ _ => ?_
      exact .single (x := { x with slots := x.slots.setIfInBounds slot (some x.pos) })
        (by rw [hslots₁, hst.slots])
    | clear first last =>
      have hlast : last ≤ n := hi
      rcases Nat.lt_or_ge last first with hlt | hge
      · simp only [Instr.pass, perform, Nat.sub_eq_zero_of_le hlt.le]
        exact .single hst.slots
      · simp only [Instr.pass, perform, ← hst.slots]
        exact yields_clearSlots hst.base_le (by omega)
    | backRef group folded => exact yields_consumeGroup hst.slots hx hi
    | fail => exact .nil (.refl V st)
    | _ => exact absurd hi (by simp [Instr.Straight])
  exact .of_leads (leads_step hcode) hperform

end Straight

/-! ### Choices, loops and conditions -/

section Control

variable {m : Machine} {base a exit r : Nat} {V W : Nat → Prop} {st st₁ : State} {x : Thread}
  {xs ys : List Thread}

/-- Two ways to go on: the second one is taken when the first one has failed. -/
theorem yields_split {first second : Nat} (hVW : ∀ r, V r → W r)
    (hcode : m.program.code[a]? = some (.split first second)) (hst : st.Carries base r x)
    (h₁ : ∀ st, st.Carries base r x → m.Yields base exit V W st xs (.go first x.pos st))
    (h₂ : ∀ st, st.Carries base r x → m.Yields base exit V W st ys (.go second x.pos st)) :
    m.Yields base exit V W st (xs ++ ys) (.go a x.pos st) := by
  refine .of_leads (leads_step hcode) (yields_pushAnd ?_)
  have habove := above_push W st (.branch second x.pos) st.slots
  refine (h₁ _ (hst.of_above habove hst.slots)).append habove fun st' hlike => ?_
  -- the first way has failed back to the entry for the second one
  rcases leads_branch (m := m) hlike.stack hst.base_le with hs | ⟨k, hl⟩
  · exact .of_stops hs
  · have hlike' : st.Like V { st' with stack := st.stack, failures := k } :=
      ⟨hlike.slots, rfl, hlike.size, hlike.registers⟩
    exact .of_leads hl ((h₂ _ (hst.of_like hlike')).of_like hlike' hVW)

/-- The choice between a body and the exit, in the order of preference. -/
theorem yields_choice {greedy : Bool} {body : Nat} (hVW : ∀ r, V r → W r)
    (hcode : m.program.code[a]? = some (Emit.choice greedy body exit)) (hst : st.Carries base r x)
    (h : ∀ st, st.Carries base r x → m.Yields base exit V W st xs (.go body x.pos st)) :
    m.Yields base exit V W st (prefer greedy xs [x]) (.go a x.pos st) := by
  have hexit : ∀ st : State, st.Carries base r x →
      m.Yields base exit V W st [x] (.go exit x.pos st) := fun st hst => .single hst.slots
  cases greedy with
  | true => exact yields_split hVW hcode hst h hexit
  | false => exact yields_split hVW hcode hst hexit h

/-- A jump leads to its target. -/
theorem leads_jump {target : Nat} (hcode : m.program.code[a]? = some (.jump target)) (pos : Nat)
    (st : State) : m.Leads base (.go a pos st) (.go target pos st) :=
  leads_step hcode

/-- A loop is its body again and again. -/
theorem yields_loop {greedy : Bool} {n size : Nat} {body : Thread → List Thread}
    (hVW : ∀ r, V r → W r)
    (hbody : Advances (Thread.Fits m.text n) Thread.pos m.text.size body)
    (hhead : m.program.code[a]? = some (Emit.choice greedy (a + 1) exit))
    (hjump : m.program.code[a + 1 + size]? = some (.jump a))
    (h : ∀ x st, x.Fits m.text n → st.Carries base r x →
      m.Yields base (a + 1 + size) V W st (body x) (.go (a + 1) x.pos st))
    (hx : x.Fits m.text n) (hst : st.Carries base r x) :
    m.Yields base exit V W st (upTo greedy body (m.text.size - x.pos) x) (.go a x.pos st) := by
  -- every iteration leaves less of the text
  induction hrest : m.text.size - x.pos using Nat.strong_induction_on generalizing x st with
  | _ rest ih =>
    subst hrest
    rw [upTo_unfold hbody hx]
    refine yields_choice hVW hhead hst fun st₁ hst₁ => (h x st₁ hx hst₁).bind ?_
    intro y hy st₂ hslots habove
    obtain ⟨hfits, hlt, hle⟩ := hbody x hx y hy
    exact .of_leads (leads_jump hjump y.pos st₂)
      (ih _ (by omega) hfits (hst₁.of_above habove hslots) rfl)

/-- The position of a register has been checked behind the body. -/
theorem yields_check {register : Nat} {y : Thread} {pos : Nat}
    (hcode : m.program.code[a]? = some (.progress register))
    (hregister : st.registers[register]? = some (some pos)) (hst : st.slots = y.slots) :
    m.Yields base (a + 1) V W st (if y.pos != pos then [y] else []) (.go a y.pos st) := by
  refine .of_leads (leads_step hcode) ?_
  simp only [perform, checkProgress, hregister, Option.some.injEq, bne_iff_ne, ne_eq, ite_not]
  by_cases hpos : y.pos = pos
  · rw [if_pos hpos, if_pos hpos.symm]
    exact .nil (.refl V st)
  · rw [if_neg hpos, if_neg (Ne.symm hpos)]
    exact .single hst

theorem filter_eq_flatMap (p : Thread → Bool) (ys : List Thread) :
    ys.filter p = ys.flatMap fun y => if p y then [y] else [] := by
  induction ys with
  | nil => rfl
  | cons y ys ih =>
    rw [List.filter_cons, List.flatMap_cons, ih]
    split <;> rfl

/-- An outcome of a body that has not gone forward is given up. -/
theorem yields_advance {register size : Nat} {W' : Nat → Prop} (hregister : register < r)
    (hW : ∀ s, W' s → W s) (hfresh : ¬W' register) (hWr : W register)
    (hmark : m.program.code[a]? = some (.mark register))
    (hcheck : m.program.code[a + 1 + size]? = some (.progress register))
    (h : ∀ st, st.Carries base r x →
      m.Yields base (a + 1 + size) V W' st xs (.go (a + 1) x.pos st))
    (hst : st.Carries base r x) :
    m.Yields base (a + 1 + size + 1) V W st (xs.filter (·.pos != x.pos)) (.go a x.pos st) := by
  have hlt : register < st.registers.size := hst.size ▸ hregister
  refine .of_leads (leads_step hmark) ?_
  rw [perform, markRegister, Array.getElem?_eq_getElem hlt]
  refine yields_pushAnd ?_
  have habove : st.Above W { st with
      stack := st.stack.push (.register register st.registers[register])
      registers := st.registers.setIfInBounds register (some x.pos) } := by
    refine ⟨⟨#[_], Array.push_eq_append⟩, Array.size_setIfInBounds, fun s hs => ?_⟩
    exact Array.getElem?_setIfInBounds_ne fun heq : register = s => hs (heq ▸ hWr)
  rw [filter_eq_flatMap]
  refine (((h _ (hst.of_above habove hst.slots)).bind fun y _ st₂ hslots habove₂ => ?_).mono
    hW).undo habove fun st' hlike => ?_
  · -- the body leaves the register alone
    refine yields_check hcheck ?_ hslots
    rw [habove₂.registers register hfresh, Array.getElem?_setIfInBounds_self_of_lt hlt]
  · -- failing back puts the old position into the register again
    refine ⟨_, leads_register hlike.stack hst.base_le ?_, hlike.slots, rfl, ?_, fun s hs => ?_⟩
    · simpa [hlike.size] using hlt
    · simpa using hlike.size
    · rw [Array.getElem?_setIfInBounds]
      split
      · next heq =>
        subst heq
        rw [if_pos (by simpa [hlike.size] using hlt), Array.getElem?_eq_getElem hlt]
      · next hne =>
        rw [hlike.registers s hs]
        exact Array.getElem?_setIfInBounds_ne hne

/-- A stack that has grown is cut down to what it was. -/
theorem stack_truncate (h : st.Above W st₁) : (st₁.truncate st.stack.size).stack = st.stack := by
  obtain ⟨⟨fs, hfs⟩, -, -⟩ := h
  simp [State.truncate, hfs]

/-- **A run to an exit that accepts ends with the first outcome, or fails if there is none.** -/
theorem ends_of_yields {e : Effect} (hbase : st.stack.size ≤ base)
    (hexit : ∀ pos st, m.Leads base (.go exit pos st) (.accept pos st))
    (h : m.Yields base exit V W st xs e) :
    m.Stops base e ∨
      (xs = [] ∧ ∃ st', m.Ends base e (.failed st') ∧ st.Like V st') ∨
        ∃ y ys st', xs = y :: ys ∧ m.Ends base e (.accepted y.pos st') ∧ st'.slots = y.slots ∧
          st.Above W st' := by
  cases xs with
  | nil =>
    rcases h with hs | ⟨st', hl, hlike⟩
    · exact Or.inl hs
    · rcases ends_reject (m := m) (hlike.stack ▸ hbase) with hs | ⟨k, hend⟩
      · exact Or.inl (hl.stops hs)
      · exact Or.inr (Or.inl ⟨rfl, _, hl _ hend,
          ⟨hlike.slots, hlike.stack, hlike.size, hlike.registers⟩⟩)
  | cons y ys =>
    rcases h with hs | ⟨st', hl, hslots, habove, -⟩
    · exact Or.inl hs
    · exact Or.inr (Or.inr ⟨y, ys, st', rfl,
        hl _ (hexit y.pos st' _ (ends_accept ..)), hslots, habove⟩)

/-- **A condition keeps the first outcome of its code, or none.** -/
theorem yields_look {negated : Bool} {size : Nat} {V' W' : Nat → Prop} (hVW : ∀ r, V r → W r)
    (hV' : ∀ r, V' r → V r) (hW' : ∀ r, W' r → V r)
    (hlook : m.program.code[a]? = some (.look negated (a + 1) (a + 1 + size + 1)))
    (hend : m.program.code[a + 1 + size]? = some .lookEnd)
    (h : m.Yields st.stack.size (a + 1 + size) V' W' st xs (.go (a + 1) x.pos st))
    (hxs : ∀ y ∈ xs, y.slots.size = x.slots.size) (hst : st.Carries base r x) :
    m.Yields base (a + 1 + size + 1) V W st (Fragment.lookOutcomes negated xs x)
      (.go a x.pos st) := by
  refine .of_leads (leads_step hlook) ?_
  rw [perform]
  rcases ends_of_yields (Nat.le_refl _) (fun pos st => leads_step hend) h with
    hs | ⟨rfl, st', hfailed, hlike⟩ | ⟨y, ys, st', rfl, haccepted, hslots, habove⟩
  · -- what stops the code of the condition stops the run
    exact .of_stops (hs.imp (fun h => leads_look h _ (ends_stop ..))
      fun h => leads_look h _ (ends_stop ..))
  · -- there is no outcome: everything is as before but for volatile registers
    refine .of_leads (leads_look hfailed) ?_
    have hback : st.Like V { st'.truncate st.stack.size with slots := st.slots } :=
      ⟨rfl, stack_truncate (hlike.above hV'), hlike.size,
        fun r hr => hlike.registers r fun hv => hr (hV' r hv)⟩
    cases negated with
    | true => exact Yields.of_like (.single (by exact hst.slots)) hback hVW
    | false =>
      have hsame : { st'.truncate st.stack.size with slots := st.slots } =
          st'.truncate st.stack.size := by
        rw [← hlike.slots]
        rfl
      exact .nil (hsame ▸ hback)
  · -- there is one: the entries above it are dropped, and registers are not put back
    refine .of_leads (leads_look haccepted) ?_
    have hstack := stack_truncate habove
    have hregisters : ∀ r : Nat, ¬V r → st'.registers[r]? = st.registers[r]? :=
      fun r hr => habove.registers r fun hw => hr (hW' r hw)
    cases negated with
    | true => exact .nil ⟨rfl, hstack, habove.size, hregisters⟩
    | false =>
      -- the snapshot of the slots is undone in the end
      refine yields_pushAnd ?_
      have hpush : st.Above W { st'.truncate st.stack.size with
          stack := (st'.truncate st.stack.size).stack.push (.slots st.slots) } :=
        ⟨⟨#[.slots st.slots], by rw [hstack, Array.push_eq_append]⟩, habove.size,
          fun r hr => hregisters r fun hv => hr (hVW r hv)⟩
      refine Yields.undo (.single (by exact hslots)) hpush fun st'' hlike => ?_
      refine ⟨_, leads_slots (hlike.stack.trans (by rw [hstack])) hst.base_le ?_, rfl, rfl,
        hlike.size.trans habove.size, fun r hr => (hlike.registers r hr).trans (hregisters r hr)⟩
      have hsize : y.slots.size = x.slots.size := hxs y (List.mem_cons_self ..)
      rw [← hslots, ← hst.slots] at hsize
      rw [hlike.slots]
      exact hsize.symm

end Control

/-! ### Fragments -/

/-- A fragment that the machine's program holds at an address: its operands exist, its loops
consume, and of its registers those inside of conditions are volatile. -/
structure Holds (m : Machine) (n r : Nat) (V W : Nat → Prop) (a : Nat) (f : Fragment) : Prop where
  code : ∀ q i, f.At a q i → m.program.code[q]? = some i
  valid : f.Valid n r m.tables.size
  guarded : f.Guarded
  nodup : f.registers.Nodup
  volatile : ∀ s ∈ f.volatile, V s
  steady : ∀ s ∈ f.steady, ¬V s
  volatile_le : ∀ s, V s → W s
  registers : ∀ s ∈ f.registers, W s

namespace Holds

open Fragment

variable {m : Machine} {n r a s : Nat} {V W : Nat → Prop} {f g : Fragment} {greedy negated : Bool}

/-- A part of a fragment is held too. -/
theorem part (h : m.Holds n r V W a f) {b : Nat} (hcode : ∀ q i, g.At b q i → f.At a q i)
    (hvalid : g.Valid n r m.tables.size) (hguarded : g.Guarded)
    (hregisters : g.registers.Sublist f.registers) (hvolatile : g.volatile ⊆ f.volatile)
    (hsteady : g.steady ⊆ f.steady) : m.Holds n r V W b g where
  code q i hi := h.code q i (hcode q i hi)
  valid := hvalid
  guarded := hguarded
  nodup := h.nodup.sublist hregisters
  volatile s hs := h.volatile s (hvolatile hs)
  steady s hs := h.steady s (hsteady hs)
  volatile_le := h.volatile_le
  registers s hs := h.registers s (hregisters.subset hs)

theorem append_left (h : m.Holds n r V W a (append f g)) : m.Holds n r V W a f :=
  h.part (fun _ _ hi => Fragment.at_append.2 (Or.inl hi)) h.valid.1 h.guarded.1
    (List.sublist_append_left ..) (List.subset_append_left ..) (List.subset_append_left ..)

theorem append_right (h : m.Holds n r V W a (append f g)) : m.Holds n r V W (a + f.size) g :=
  h.part (fun _ _ hi => Fragment.at_append.2 (Or.inr hi)) h.valid.2 h.guarded.2
    (List.sublist_append_right ..) (List.subset_append_right ..) (List.subset_append_right ..)

theorem choice_left (h : m.Holds n r V W a (choice f g)) : m.Holds n r V W (a + 1) f :=
  h.part (fun _ _ hi => at_choice.2 (Or.inr (Or.inl hi))) h.valid.1 h.guarded.1
    (List.sublist_append_left ..) (List.subset_append_left ..) (List.subset_append_left ..)

theorem choice_right (h : m.Holds n r V W a (choice f g)) :
    m.Holds n r V W (a + f.size + 2) g :=
  h.part (fun _ _ hi => at_choice.2 (Or.inr (Or.inr (Or.inr hi)))) h.valid.2 h.guarded.2
    (List.sublist_append_right ..) (List.subset_append_right ..) (List.subset_append_right ..)

theorem optional_body (h : m.Holds n r V W a (optional greedy f)) :
    m.Holds n r V W (a + 1) f :=
  { h with code := fun q i hi => h.code q i (at_optional.2 (Or.inr hi)) }

theorem loop_body (h : m.Holds n r V W a (loop greedy f)) : m.Holds n r V W (a + 1) f :=
  { h with
    code := fun q i hi => h.code q i (at_loop.2 (Or.inr (Or.inl hi)))
    guarded := h.guarded.2 }

/-- Inside of a checked body its register is not written. -/
theorem advance_body (h : m.Holds n r V W a (advance s f)) :
    m.Holds n r V (fun t => V t ∨ t ∈ f.registers) (a + 1) f where
  code q i hi := h.code q i (at_advance.2 (Or.inr (Or.inl hi)))
  valid := h.valid.2
  guarded := h.guarded
  nodup := (List.nodup_cons.1 h.nodup).2
  volatile := h.volatile
  steady t ht := h.steady t (List.mem_cons_of_mem s ht)
  volatile_le _ := Or.inl
  registers _ := Or.inr

/-- Inside of a condition its own conditions are volatile, and nothing else is. -/
theorem look_body (h : m.Holds n r V W a (look negated f)) :
    m.Holds n r (· ∈ f.volatile) (· ∈ f.registers) (a + 1) f where
  code q i hi := h.code q i (at_look.2 (Or.inr (Or.inl hi)))
  valid := h.valid
  guarded := h.guarded
  nodup := h.nodup
  volatile _ := id
  steady _ := not_mem_volatile (f := f) h.nodup
  volatile_le t ht := (mem_registers_iff f t).2 (Or.inl ht)
  registers _ := id

end Holds

variable {m : Machine} {f : Fragment} {base a n r : Nat} {V W : Nat → Prop} {st : State}
  {x : Thread}

/-- **A run that enters the code of a fragment tries its outcomes in order.** -/
theorem yields_threads (h : m.Holds n r V W a f) (hx : x.Fits m.text n)
    (hst : st.Carries base r x) :
    m.Yields base (a + f.size) V W st (f.threads m.tables m.text x) (.go a x.pos st) := by
  -- `V` and `W` grow inside of checked bodies and start anew inside of conditions
  induction f generalizing a base V W st x with
  | nil => exact .single hst.slots
  | instr i => exact yields_instr (h.code _ _ (by simp)) h.valid hx hst
  | append f g ihf ihg =>
    rw [Fragment.size, ← Nat.add_assoc]
    exact (ihf h.append_left hx hst).bind fun y hy st₁ hslots habove =>
      ihg h.append_right (Fragment.fits_of_mem_threads hx hy).1 (hst.of_above habove hslots)
  | choice f g ihf ihg =>
    have hsplit := h.code _ _ (Fragment.at_choice.2 (Or.inl ⟨rfl, rfl⟩))
    have hjump := h.code _ _ (Fragment.at_choice.2 (Or.inr (Or.inr (Or.inl ⟨rfl, rfl⟩))))
    have hexit : a + f.size + g.size + 2 = a + (Fragment.choice f g).size := by
      simp only [Fragment.size]
      omega
    rw [hexit] at hjump
    refine yields_split h.volatile_le hsplit hst (fun st₁ hst₁ => ?_) fun st₁ hst₁ => ?_
    · have hleft := ihf h.choice_left hx hst₁
      rw [Nat.add_right_comm] at hleft
      exact hleft.leave (leads_jump hjump)
    · have hright := ihg h.choice_right hx hst₁
      rwa [Nat.add_right_comm _ 2, hexit] at hright
  | optional greedy f ih =>
    refine yields_choice h.volatile_le (h.code _ _ (Fragment.at_optional.2 (Or.inl ⟨rfl, rfl⟩)))
      hst fun st₁ hst₁ => ?_
    have hbody := ih h.optional_body hx hst₁
    rwa [Nat.add_right_comm] at hbody
  | loop greedy f ih =>
    have hhead := h.code _ _ (Fragment.at_loop.2 (Or.inl ⟨rfl, rfl⟩))
    have hjump := h.code _ _ (Fragment.at_loop.2 (Or.inr (Or.inr ⟨rfl, rfl⟩)))
    rw [Nat.add_right_comm] at hjump
    exact yields_loop h.volatile_le (Fragment.advances_of_consumes h.guarded.1) hhead hjump
      (fun y st₁ hy hst₁ => ih h.loop_body hy hst₁) hx hst
  | advance s f ih =>
    have hmark := h.code _ _ (Fragment.at_advance.2 (Or.inl ⟨rfl, rfl⟩))
    have hcheck := h.code _ _ (Fragment.at_advance.2 (Or.inr (Or.inr ⟨rfl, rfl⟩)))
    rw [Nat.add_right_comm] at hcheck
    have hs : s ∈ (Fragment.advance s f).registers := List.mem_cons_self ..
    have hbody := yields_advance h.valid.1
      (fun t ht => ht.elim (h.volatile_le t) fun ht => h.registers t (List.mem_cons_of_mem s ht))
      (fun ht => ht.elim (h.steady s (List.mem_cons_self ..)) (List.nodup_cons.1 h.nodup).1)
      (h.registers s hs) hmark hcheck (fun st₁ hst₁ => ih h.advance_body hx hst₁) hst
    rwa [Nat.add_right_comm a] at hbody
  | look negated f ih =>
    have hlook := h.code _ _ (Fragment.at_look.2 (Or.inl ⟨rfl, rfl⟩))
    have hend := h.code _ _ (Fragment.at_look.2 (Or.inr (Or.inr ⟨rfl, rfl⟩)))
    rw [Nat.add_right_comm] at hend
    rw [show a + f.size + 2 = a + 1 + f.size + 1 by omega] at hlook
    -- the code of the condition is a run of its own on top of the stack
    have hbody := ih h.look_body hx ⟨hst.slots, hst.size, Nat.le_refl _⟩
    have hlook := yields_look h.volatile_le
      (fun s hs => h.volatile s ((Fragment.mem_registers_iff f s).2 (Or.inl hs))) h.volatile hlook
      hend hbody (fun y hy => by rw [(Fragment.fits_of_mem_threads hx hy).1.2.1, hx.2.1]) hst
    rwa [Nat.add_right_comm a] at hlook

end Machine

end RegexEngine

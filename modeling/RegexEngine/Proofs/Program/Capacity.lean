import RegexEngine.Proofs.Program.Emission

/-!
# Programs that fit the cap

An emission fails only when it wants an address and none is left.  A pattern is therefore compiled
exactly if its fragment and the instruction behind it fit the cap, whatever tables were made before.

* `Emit.Succeeds` — an emission has an answer.
* `Emit.Fits` — an emission succeeds where there is room for its fragment.
* `Emit.fits_node` — **the emission of a tree succeeds where there is room for its fragment.**
* `Emit.Extends` — an emission appends tables, whether it succeeds or not.
* `Pattern.compile_cases` — **a pattern is compiled if there is room for its program, and refused as
  too large otherwise.**
-/

namespace RegexEngine

namespace Emit

section

variable {α β : Type} {s s' : Site} {t : Target}

/-- The emission has an answer at the site. -/
def Succeeds (x : Emit α) (s : Site) : Prop := ∃ a s', Emits x s a s'

theorem succeeds_pure (a : α) (s : Site) : Succeeds (pure a) s := ⟨a, s, emits_pure.2 ⟨rfl, rfl⟩⟩

theorem succeeds_bind {x : Emit α} {f : α → Emit β} {a : α} (hx : Emits x s a s')
    (hf : Succeeds (f a) s') : Succeeds (x >>= f) s := by
  obtain ⟨b, s'', hb⟩ := hf
  exact ⟨b, s'', emits_bind.2 ⟨a, s', hx, hb⟩⟩

theorem Succeeds.map {x : Emit α} (hx : Succeeds x s) (f : α → β) :
    Succeeds (x >>= fun a => pure (f a)) s := by
  obtain ⟨a, s', hx⟩ := hx
  exact succeeds_bind hx (succeeds_pure _ _)

/-- An address is taken exactly if there is room for one instruction. -/
theorem emits_takeAddress_iff {a : Nat} :
    Emits (takeAddress t) s a s' ↔
      s.address < t.maxLength ∧ a = s.address ∧ s' = s.advance 1 [] 0 := by
  constructor
  · intro h
    refine ⟨?_, emits_takeAddress h⟩
    obtain ⟨_, _, hget, h⟩ := emits_bind.1 h
    cases hget
    by_contra hlt
    rw [if_neg hlt] at h
    cases h
  · rintro ⟨hlt, rfl, rfl⟩
    refine emits_bind.2 ⟨s, s, rfl, ?_⟩
    rw [if_pos hlt]
    refine emits_bind.2 ⟨⟨⟩, s.advance 1 [] 0, ?_, emits_pure.2 ⟨rfl, rfl⟩⟩
    simp only [Emits, Site.advance, Array.append_empty, Nat.add_zero]
    rfl

theorem succeeds_takeAddress_bind {f : Nat → Emit β} (h : s.address < t.maxLength)
    (hf : Succeeds (f s.address) (s.advance 1 [] 0)) : Succeeds (takeAddress t >>= f) s :=
  succeeds_bind (emits_takeAddress_iff.2 ⟨h, rfl, rfl⟩) hf

theorem succeeds_nextAddress_bind {f : Nat → Emit β} (hf : Succeeds (f s.address) s) :
    Succeeds (nextAddress >>= f) s :=
  succeeds_bind (emits_bind.2 ⟨s, s, rfl, emits_pure.2 ⟨rfl, rfl⟩⟩) hf

theorem succeeds_takeRegister_bind {f : Nat → Emit β}
    (hf : Succeeds (f s.registers) (s.advance 0 [] 1)) : Succeeds (takeRegister >>= f) s := by
  refine succeeds_bind (emits_bind.2 ⟨s, s, rfl, emits_bind.2 ⟨⟨⟩, s.advance 0 [] 1, ?_,
    emits_pure.2 ⟨rfl, rfl⟩⟩⟩) hf
  simp only [Emits, Site.advance, Array.append_empty, Nat.add_zero]
  rfl

theorem succeeds_addTable_bind {table : CharTable} {f : Nat → Emit β}
    (hf : Succeeds (f s.tables.size) (s.advance 0 [table] 0)) :
    Succeeds (addTable table >>= f) s := by
  refine succeeds_bind (emits_bind.2 ⟨s, s, rfl, emits_bind.2 ⟨⟨⟩, s.advance 0 [table] 0, ?_,
    emits_pure.2 ⟨rfl, rfl⟩⟩⟩) hf
  simp only [Emits, Site.advance, Nat.add_zero, Array.push_eq_append]
  rfl

theorem succeeds_instr (i : Instr) (h : s.address < t.maxLength) : Succeeds (instr t i) s :=
  succeeds_takeAddress_bind h (succeeds_pure _ _)

end

/-! ### Emissions that fit -/

variable {t : Target} {x : Emit (List Instr)} {F : Nat → Nat → Fragment} {T : List CharTable}
  {R : Nat}

/-- The emission succeeds where there is room for a fragment. -/
def Fits (t : Target) (x : Emit (List Instr)) (F : Nat → Nat → Fragment) : Prop :=
  ∀ s : Site, s.address + (F s.tables.size s.registers).size ≤ t.maxLength → Succeeds x s

/-- Where there is room for a fragment, its emission is followed by the next one. -/
theorem Fits.bind {β : Type} (h : Fits t x F) (hr : Renders x F T R) {s : Site}
    {f : List Instr → Emit β}
    (hroom : s.address + (F s.tables.size s.registers).size ≤ t.maxLength)
    (hf : Succeeds (f ((F s.tables.size s.registers).code s.address))
      (s.advance (F s.tables.size s.registers).size T R)) : Succeeds (x >>= f) s := by
  obtain ⟨code, s', hx⟩ := h s hroom
  have hemits := hx
  obtain ⟨rfl, rfl⟩ := hr _ _ _ hx
  exact succeeds_bind hemits hf

theorem fits_instr (t : Target) (i : Instr) : Fits t (instr t i) (fun _ _ => .instr i) := by
  intro s hroom
  exact succeeds_instr i hroom

theorem fits_classCode (t : Target) (set : List Interval) (negated : Bool) :
    Fits t (classCode t set negated) (fun tb _ => .instr (.inTable tb negated t.folded)) := by
  intro s hroom
  exact succeeds_addTable_bind (succeeds_instr _ hroom)

theorem Fits.iteration (h : Fits t x F) (hr : Renders x F T R) (span : Option (Nat × Nat)) :
    Fits t (iteration t span x) (fun tb rg => .iteration span (F tb rg)) := by
  rcases span with _ | ⟨first, last⟩
  · exact h
  · intro s hroom
    simp only [Fragment.iteration, Fragment.size] at hroom
    refine succeeds_takeAddress_bind (by omega) ?_
    refine h.bind hr (by simp; omega) ?_
    exact succeeds_pure _ _

theorem fits_copies (h : Fits t x F) (hr : Renders x F T R) {n : Nat} {sofar : List (List Instr)}
    {s : Site} (hroom : s.address +
      (Fragment.copies F T.length R n s.tables.size s.registers).size ≤ t.maxLength) :
    Succeeds (copies x n sofar) s := by
  induction n generalizing s sofar with
  | zero => exact succeeds_pure _ _
  | succ n ih =>
    simp only [Fragment.copies, Fragment.size] at hroom
    refine h.bind hr (by omega) ?_
    split
    · exact succeeds_pure _ _
    · exact ih (by simp; omega)

theorem fits_optionals (h : Fits t x F) (hr : Renders x F T R) (greedy : Bool) {n : Nat}
    {sofar : List (Nat × List Instr)} {s : Site} (hroom : s.address +
      (Fragment.optionals F T.length R greedy n s.tables.size s.registers).size ≤ t.maxLength) :
    Succeeds (optionals t x n sofar) s := by
  induction n generalizing s sofar with
  | zero => exact succeeds_pure _ _
  | succ n ih =>
    simp only [Fragment.optionals, Fragment.size] at hroom
    refine succeeds_takeAddress_bind (by omega) ?_
    refine h.bind hr (by simp; omega) ?_
    exact ih (by simp [Site.advance_advance]; omega)

theorem Fits.unbounded (h : Fits t x F) (hr : Renders x F T R) (greedy canBeEmpty : Bool) :
    Fits t (unbounded t greedy canBeEmpty x) (.unbounded greedy canBeEmpty F) := by
  intro s hroom
  cases canBeEmpty with
  | false =>
    simp only [Fragment.unbounded, Fragment.size, Bool.false_eq_true, if_false] at hroom
    refine succeeds_takeAddress_bind (by omega) ?_
    show Succeeds (x >>= _) _
    refine h.bind hr (by simp; omega) ?_
    refine succeeds_takeAddress_bind (by simp; omega) ?_
    exact succeeds_nextAddress_bind (succeeds_pure _ _)
  | true =>
    simp only [Fragment.unbounded, Fragment.size, if_true] at hroom
    refine succeeds_takeAddress_bind (by omega) ?_
    show Succeeds (takeRegister >>= _) _
    refine succeeds_takeRegister_bind ?_
    refine succeeds_takeAddress_bind (by simp; omega) ?_
    refine h.bind hr (by simp; omega) ?_
    refine succeeds_takeAddress_bind (by simp; omega) ?_
    rw [pure_bind]
    refine succeeds_takeAddress_bind (by simp; omega) ?_
    exact succeeds_nextAddress_bind (succeeds_pure _ _)

theorem Fits.bounded (h : Fits t x F) (hr : Renders x F T R) (greedy : Bool) (n : Nat) :
    Fits t (bounded t greedy n x) (.optionals F T.length R greedy n) := by
  intro s hroom
  have hoptionals : Succeeds (optionals t x n []) s := fits_optionals h hr greedy hroom
  obtain ⟨parts, s', hparts⟩ := hoptionals
  exact succeeds_bind hparts (succeeds_nextAddress_bind (succeeds_pure _ _))

/-! ### Trees -/

mutual

/-- **The emission of a tree succeeds where there is room for its fragment.** -/
theorem fits_node : ∀ n : Node, Fits t (node t n) (n.fragment t)
  | .empty => fun s _ => succeeds_pure _ s
  | .unit _ | .any | .anchor _ | .backRef _ => fits_instr t _
  | .charClass .. => fits_classCode t _ _
  | .group index body => by
    intro s hroom
    rw [Node.fragment] at hroom
    rw [node]
    split
    · next hcaptures =>
      -- there is room for the body between two instructions that store positions
      rw [if_pos hcaptures] at hroom
      simp only [Fragment.size] at hroom
      refine succeeds_takeAddress_bind (by omega) ?_
      refine (fits_node body).bind (renders_node body) (by simp; omega) ?_
      refine succeeds_takeAddress_bind (by simp; omega) ?_
      exact succeeds_pure _ _
    · next hcaptures =>
      rw [if_neg hcaptures] at hroom
      exact fits_node body s hroom
  | .look negated body => by
    intro s hroom
    simp only [Node.fragment, Fragment.size] at hroom
    refine succeeds_takeAddress_bind (by omega) ?_
    refine (fits_node body).bind (renders_node body) (by simp; omega) ?_
    refine succeeds_takeAddress_bind (by simp; omega) ?_
    exact succeeds_nextAddress_bind (succeeds_pure _ _)
  | .rep lower upper greedy body => by
    intro s hroom
    have honce := (renders_node (t := t) body).iteration t (loopSpan t body)
    have hfits := (fits_node body).iteration (renders_node body) (loopSpan t body)
    have hrequired :
        Succeeds (copies (iteration t (loopSpan t body) (node t body)) lower []) s := by
      refine fits_copies hfits honce (Nat.le_trans ?_ hroom)
      cases upper <;> exact Nat.add_le_add_left (Nat.le_add_right _ _) _
    obtain ⟨required, s₁, hcopies⟩ := hrequired
    have hcopied := hcopies
    obtain ⟨-, rfl⟩ := renders_copies honce
      (fun _ _ hF => eq_nil_of_size body (size_iteration hF)) hcopied
    refine succeeds_bind hcopies ?_
    cases upper with
    | none =>
      rw [Node.fragment, Fragment.size] at hroom
      refine Succeeds.map (hfits.unbounded honce greedy body.canBeEmpty _ ?_) _
      simpa [Nat.add_assoc] using hroom
    | some upper =>
      rw [Node.fragment, Fragment.size] at hroom
      refine Succeeds.map (hfits.bounded honce greedy (upper - lower) _ ?_) _
      simpa [Nat.add_assoc] using hroom
  | .seq items => fun s hroom => fits_sequence items hroom
  | .alt items => fun s hroom => fits_alternatives items hroom

theorem fits_sequence : ∀ (ns : List Node) {sofar : List (List Instr)} {s : Site},
    s.address + (Node.sequence t ns s.tables.size s.registers).size ≤ t.maxLength →
      Succeeds (sequence t ns sofar) s
  | [], _, s, _ => succeeds_pure _ s
  | n :: ns, sofar, s, hroom => by
    simp only [Node.sequence, Fragment.size] at hroom
    refine (fits_node n).bind (renders_node n) (by omega) ?_
    exact fits_sequence ns (by simp; omega)

theorem fits_alternatives : ∀ (ns : List Node) {sofar : List (Nat × List Instr × Nat)} {s : Site},
    s.address + (Node.alternatives t ns s.tables.size s.registers).size ≤ t.maxLength →
      Succeeds (alternatives t ns sofar) s
  | [], _, s, _ => succeeds_pure _ s
  | n :: ns, sofar, s, hroom => by
    rw [Node.alternatives] at hroom
    rw [alternatives]
    split
    · next hns =>
      rw [if_pos hns] at hroom
      refine (fits_node n).bind (renders_node n) hroom ?_
      exact succeeds_nextAddress_bind (succeeds_pure _ _)
    · next hns =>
      rw [if_neg hns] at hroom
      simp only [Fragment.size] at hroom
      refine succeeds_takeAddress_bind (by omega) ?_
      refine (fits_node n).bind (renders_node n) (by simp; omega) ?_
      refine succeeds_takeAddress_bind (by simp; omega) ?_
      exact fits_alternatives ns (by simp; omega)

end

/-! ### Tables -/

section Extends

variable {α β : Type} {t : Target}

/-- The emission appends tables to those that are there, also if it fails. -/
def Extends (x : Emit α) : Prop := ∀ s, ∃ later, (x.run s).2.tables = s.tables ++ later

theorem extends_of_tables_eq {x : Emit α} (h : ∀ s, (x.run s).2.tables = s.tables) : Extends x :=
  fun s => ⟨#[], by rw [h, Array.append_empty]⟩

theorem extends_pure (a : α) : Extends (pure a) := extends_of_tables_eq fun _ => rfl

theorem extends_bind {x : Emit α} {f : α → Emit β} (hx : Extends x) (hf : ∀ a, Extends (f a)) :
    Extends (x >>= f) := by
  intro s
  obtain ⟨later, hlater⟩ := hx s
  rcases hrun : x.run s with ⟨_ | a, s'⟩ <;> rw [hrun] at hlater
  · refine ⟨later, ?_⟩
    have hbind : (x >>= f).run s = (none, s') := by
      simp only [OptionT.run] at hrun
      simp only [bind, OptionT.bind, OptionT.mk, StateT.bind, OptionT.run, hrun]
      rfl
    rw [hbind, hlater]
  · obtain ⟨later', hlater'⟩ := hf a s'
    have hbind : (x >>= f).run s = (f a).run s' := by
      simp only [OptionT.run] at hrun
      simp only [bind, OptionT.bind, OptionT.mk, StateT.bind, OptionT.run, hrun]
    exact ⟨later ++ later', by rw [hbind, hlater', hlater, Array.append_assoc]⟩

theorem extends_takeAddress (t : Target) : Extends (takeAddress t) := by
  refine extends_of_tables_eq fun s => ?_
  by_cases h : s.address < t.maxLength
  · have htake : (takeAddress t).run s = (some s.address, s.advance 1 [] 0) :=
      emits_takeAddress_iff.2 ⟨h, rfl, rfl⟩
    simp [htake, Site.advance]
  · have htake : (takeAddress t).run s = (none, s) := by
      show (if s.address < t.maxLength then _ else failure : Emit Nat).run s = _
      rw [if_neg h]
      rfl
    rw [htake]

theorem extends_nextAddress : Extends nextAddress := extends_of_tables_eq fun _ => rfl

theorem extends_takeRegister : Extends takeRegister := extends_of_tables_eq fun _ => rfl

theorem extends_addTable (table : CharTable) : Extends (addTable table) := fun s =>
  ⟨#[table], by rw [← Array.push_eq_append]; rfl⟩

theorem extends_instr (t : Target) (i : Instr) : Extends (instr t i) :=
  extends_bind (extends_takeAddress t) fun _ => extends_pure _

variable {x : Emit (List Instr)}

theorem Extends.iteration (h : Extends x) (span : Option (Nat × Nat)) :
    Extends (iteration t span x) := by
  rcases span with _ | ⟨first, last⟩
  · exact h
  · exact extends_bind (extends_takeAddress t) fun _ => extends_bind h fun _ => extends_pure _

theorem Extends.copies (h : Extends x) (n : Nat) (sofar : List (List Instr)) :
    Extends (copies x n sofar) := by
  induction n generalizing sofar with
  | zero => exact extends_pure _
  | succ n ih =>
    refine extends_bind h fun code => ?_
    split
    · exact extends_pure _
    · exact ih _

theorem Extends.optionals (h : Extends x) (n : Nat) (sofar : List (Nat × List Instr)) :
    Extends (optionals t x n sofar) := by
  induction n generalizing sofar with
  | zero => exact extends_pure _
  | succ n ih =>
    exact extends_bind (extends_takeAddress t) fun _ => extends_bind h fun _ => ih _

theorem Extends.unbounded (h : Extends x) (greedy canBeEmpty : Bool) :
    Extends (unbounded t greedy canBeEmpty x) := by
  have hlast : ∀ (head : Nat) (code : List Instr), Extends (do
      let _ ← takeAddress t
      let exit ← nextAddress
      return choice greedy (head + 1) exit :: (code ++ [.jump head])) := by
    intro head code
    exact extends_bind (extends_takeAddress t) fun _ =>
      extends_bind extends_nextAddress fun _ => extends_pure _
  refine extends_bind (extends_takeAddress t) fun head => ?_
  cases canBeEmpty with
  | false => exact extends_bind h fun code => hlast head code
  | true =>
    refine extends_bind extends_takeRegister fun register => ?_
    refine extends_bind (extends_takeAddress t) fun _ => extends_bind h fun code => ?_
    exact extends_bind (extends_takeAddress t) fun _ => extends_bind (extends_pure _) fun code =>
      hlast head code

theorem Extends.bounded (h : Extends x) (greedy : Bool) (n : Nat) :
    Extends (bounded t greedy n x) :=
  extends_bind (h.optionals n []) fun _ => extends_bind extends_nextAddress fun _ => extends_pure _

mutual

/-- The emission of a tree appends tables. -/
theorem extends_node : ∀ n : Node, Extends (node t n)
  | .empty => extends_pure _
  | .unit _ | .any | .anchor _ | .backRef _ => extends_instr t _
  | .charClass .. => extends_bind (extends_addTable _) fun _ => extends_instr t _
  | .group index body => by
    rw [node]
    split
    · exact extends_bind (extends_takeAddress t) fun _ => extends_bind (extends_node body) fun _ =>
        extends_bind (extends_takeAddress t) fun _ => extends_pure _
    · exact extends_node body
  | .look negated body =>
    extends_bind (extends_takeAddress t) fun _ => extends_bind (extends_node body) fun _ =>
      extends_bind (extends_takeAddress t) fun _ => extends_bind extends_nextAddress fun _ =>
        extends_pure _
  | .rep lower upper greedy body => by
    have honce := (extends_node body).iteration (t := t) (loopSpan t body)
    refine extends_bind (honce.copies lower []) fun required => ?_
    cases upper with
    | none =>
      exact extends_bind (honce.unbounded greedy body.canBeEmpty) fun _ => extends_pure _
    | some upper => exact extends_bind (honce.bounded greedy _) fun _ => extends_pure _
  | .seq items => extends_sequence items []
  | .alt items => extends_alternatives items []

theorem extends_sequence : ∀ (ns : List Node) (sofar : List (List Instr)),
    Extends (sequence t ns sofar)
  | [], _ => extends_pure _
  | n :: ns, sofar => extends_bind (extends_node n) fun code => extends_sequence ns (code :: sofar)

theorem extends_alternatives : ∀ (ns : List Node) (sofar : List (Nat × List Instr × Nat)),
    Extends (alternatives t ns sofar)
  | [], _ => extends_pure _
  | n :: ns, sofar => by
    rw [alternatives]
    split
    · exact extends_bind (extends_node n) fun _ => extends_bind extends_nextAddress fun _ =>
        extends_pure _
    · exact extends_bind (extends_takeAddress t) fun head =>
        extends_bind (extends_node n) fun code =>
          extends_bind (extends_takeAddress t) fun leave =>
            extends_alternatives ns ((head, code, leave) :: sofar)

end

end Extends

end Emit

/-! ### Patterns that fit -/

namespace Pattern

variable {p : Pattern} {mode : Mode} {width : Width} {flags : Flags}
  {tables₀ tables : Array CharTable} {cap : Nat} {prog : Program}

/-- A compiled program fits the cap. -/
theorem size_lt_of_compile (h : p.compile mode width flags tables₀ cap = (.ok prog, tables)) :
    (p.fragment mode width flags tables₀ cap).size < cap := by
  rw [compile] at h
  rcases hx : (Emit.whole (p.target mode width flags cap) p.root).run
    { address := 0, tables := tables₀, registers := 0 } with ⟨_ | code, site⟩
  · simp only [hx] at h
    cases h
  · obtain ⟨body, _, hbody, hlast⟩ := Emit.emits_bind.1 hx
    obtain ⟨rfl, rfl⟩ := Emit.renders_node p.root _ _ _ hbody
    -- the last address is taken for the instruction that accepts
    obtain ⟨_, _, haddress, -⟩ := Emit.emits_bind.1 hlast
    have hlt := (Emit.emits_takeAddress_iff.1 haddress).1
    simpa [fragment, target] using hlt

/-- A pattern is refused for one reason only. -/
theorem eq_programTooLarge_of_compile {e : RegexError}
    (h : p.compile mode width flags tables₀ cap = (.error e, tables)) :
    e = .programTooLarge := by
  rw [compile] at h
  rcases hx : (Emit.whole (p.target mode width flags cap) p.root).run
    { address := 0, tables := tables₀, registers := 0 } with ⟨_ | code, site⟩
  · simp only [hx] at h
    cases h
    rfl
  · simp only [hx] at h
    cases h

/-- **A pattern is compiled if there is room for its program, and refused as too large
otherwise.** -/
theorem compile_cases (p : Pattern) (mode : Mode) (width : Width) (flags : Flags)
    (tables₀ : Array CharTable) (cap : Nat) :
    ((p.fragment mode width flags tables₀ cap).size < cap ∧
      ∃ prog tables, p.compile mode width flags tables₀ cap = (.ok prog, tables)) ∨
    (cap ≤ (p.fragment mode width flags tables₀ cap).size ∧
      ∃ tables, p.compile mode width flags tables₀ cap = (.error .programTooLarge, tables)) := by
  by_cases hroom : (p.fragment mode width flags tables₀ cap).size < cap
  · refine Or.inl ⟨hroom, ?_⟩
    have hbody := Emit.fits_node (t := p.target mode width flags cap) p.root
    have hwhole : Emit.Succeeds (Emit.whole (p.target mode width flags cap) p.root)
        { address := 0, tables := tables₀, registers := 0 } := by
      rw [fragment] at hroom
      refine hbody.bind (Emit.renders_node p.root) ?_ ?_
      · simpa [target] using Nat.le_of_lt hroom
      · exact Emit.succeeds_takeAddress_bind (by simpa [target] using hroom)
          (Emit.succeeds_pure _ _)
    obtain ⟨code, site, hx⟩ := hwhole
    rw [compile]
    simp only [Emit.Emits] at hx
    simp only [hx]
    exact ⟨_, _, rfl⟩
  · refine Or.inr ⟨Nat.le_of_not_lt hroom, ?_⟩
    rcases hcompile : p.compile mode width flags tables₀ cap with ⟨e | prog, tables⟩
    · rw [eq_programTooLarge_of_compile hcompile]
      exact ⟨tables, rfl⟩
    · exact absurd (size_lt_of_compile hcompile) hroom

/-- A compilation appends tables to those that are there, also if the pattern is refused. -/
theorem tables_of_compile (p : Pattern) (mode : Mode) (width : Width) (flags : Flags)
    (tables₀ : Array CharTable) (cap : Nat) :
    ∃ later, (p.compile mode width flags tables₀ cap).2 = tables₀ ++ later := by
  have hwhole : Emit.Extends (Emit.whole (p.target mode width flags cap) p.root) :=
    Emit.extends_bind (Emit.extends_node p.root) fun _ =>
      Emit.extends_bind (Emit.extends_takeAddress _) fun _ => Emit.extends_pure _
  obtain ⟨later, hlater⟩ := hwhole { address := 0, tables := tables₀, registers := 0 }
  refine ⟨later, ?_⟩
  rw [compile]
  rcases hx : (Emit.whole (p.target mode width flags cap) p.root).run
    { address := 0, tables := tables₀, registers := 0 } with ⟨_ | code, site⟩ <;>
      rw [hx] at hlater <;> exact hlater

end Pattern

end RegexEngine

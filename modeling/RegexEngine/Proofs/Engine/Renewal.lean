import RegexEngine.Proofs.Engine.Executions
import RegexEngine.Proofs.Engine.Links

/-!
# Executions that do not remember

While no interrupt is raised, an execution of a record ends as it would on a new record for the same
source and the same flags.  It does not matter what the record was used for before, nor in which
order its slots were filled, although the programs in them share their tables.  The same goes for a
value, whether or not the record that it was linked to is still there.

* `Record.renewed` — a new record for the same source and flags.
* `Record.Sound.execute_alike` — **executions for the same source and flags agree.**
* `Record.Sound.search_slot_renewed` — **the code in a slot is as good as that of a new record.**
* `Engine.Quiet` — an engine with sound records in which no interrupt is raised.
* `Engine.Quiet.execute_agrees`, `Value.search_agrees` — **two such engines execute alike.**
-/

namespace RegexEngine

/-! ### Records -/

namespace Record

variable {o : Options} {r r' : Record} {mode : Mode} {width : Width} {c : Code} {limits : Limits}
  {tables : Array CharTable} {t : Text} {start : Nat} {pairs : Array Pair} {i i' : Interrupts}
  {buffer : Option Buffer}

/-- A new record for the same source and flags. -/
def renewed (r : Record) : Record := { source := r.source, flags := r.flags }

theorem Sound.search_of_clear (h : r.Sound o) (hi : i.requested = false)
    (hi' : i'.requested = false) :
    (r.search mode limits i' t start pairs).1 = (r.search mode limits i t start pairs).1 := by
  rw [search, search]
  cases r.literal with
  | some literal =>
    dsimp only
    cases literal.find? t start <;> rfl
  | none =>
    cases hslot : r.slots.get mode t.width with
    | none => rfl
    | some c =>
      obtain ⟨-, p, -, -, hmakes⟩ := h.code _ _ c hslot
      exact searchCode_of_clear hmakes.steady hi hi' _ _

/-- **While the flag is clear, an execution does not depend on the callback.** -/
theorem Sound.execute_of_clear (h : r.Sound o) (hi : i.requested = false)
    (hi' : i'.requested = false) :
    (r.execute o.generator limits i' t start buffer).result =
        (r.execute o.generator limits i t start buffer).result ∧
      (r.execute o.generator limits i' t start buffer).buffer =
        (r.execute o.generator limits i t start buffer).buffer := by
  have hcompiles := h.compiles_ifNecessary (modeFor buffer) t.width
  rw [execute_eq, execute_eq]
  rcases hx : r.compileIfNecessary (modeFor buffer) t.width o.generator with ⟨_ | _, r₁⟩
  · exact ⟨rfl, rfl⟩
  · rw [hx] at hcompiles
    refine executeCompiled_congr rfl rfl rfl fun pairs _ => ?_
    exact hcompiles.sound.search_of_clear hi hi'

/-- **Executions of two records for the same source and flags agree** while no interrupt is raised,
whatever has happened to the records before. -/
theorem Sound.execute_alike (h : r.Sound o) (h' : r'.Sound o) (hsource : r'.source = r.source)
    (hflags : r'.flags = r.flags) (hi : i.requested = false) (hi' : i'.requested = false) :
    (r'.execute o.generator limits i' t start buffer).result =
        (r.execute o.generator limits i t start buffer).result ∧
      (r'.execute o.generator limits i' t start buffer).buffer =
        (r.execute o.generator limits i t start buffer).buffer := by
  -- first the record is changed, then the interrupts
  obtain ⟨hresult, hbuffer⟩ := h.execute_units h' hsource hflags (rfl : t.units = t.units)
  obtain ⟨hresult', hbuffer'⟩ := h.execute_of_clear hi hi'
  exact ⟨hresult.trans hresult', hbuffer.trans hbuffer'⟩

/-- A record answers a compilation as a new one does. -/
theorem Sound.compile_renewed (h : r.Sound o) (mode : Mode) (width : Width) :
    (r.compile mode width o.generator).1 = (r.renewed.compile mode width o.generator).1 := by
  have hcompiles := h.compiles mode width
  have hrenewed := (sound_fresh o r.source r.flags).compiles mode width
  exact hcompiles.answer.trans ((answer_congr rfl rfl mode width).trans hrenewed.answer.symm)

/-- **The code in a slot is as good as that of a new record** that was compiled for nothing else:
in a text of its width both find the same. -/
theorem Sound.search_slot_renewed (h : r.Sound o) (hslot : r.slots.get mode width = some c) :
    ∃ c', (r.renewed.compile mode width o.generator).2.slots.get mode width = some c' ∧
      ∀ limits interrupted t start pairs, t.width = width →
        (c'.search (r.renewed.compile mode width o.generator).2.tables limits interrupted t start
          pairs).1 = (c.search r.tables limits interrupted t start pairs).1 := by
  have hcompiled : r.isCompiled mode width = true := by
    rw [isCompiled, hslot, Option.isSome_some, Bool.or_true]
  have hrenewed : r.renewed.Compiles o mode width (r.renewed.compile mode width o.generator) :=
    (sound_fresh o r.source r.flags).compiles mode width
  have hanswer : r.answer o mode width = .ok () := (h.compiles_self hcompiled).answer.symm
  have hok : (r.renewed.compile mode width o.generator).1 = .ok () :=
    hrenewed.answer.trans ((answer_congr rfl rfl mode width).trans hanswer)
  obtain ⟨-, hpaired⟩ :=
    h.paired hrenewed.sound hrenewed.source hrenewed.flags hcompiled (hrenewed.isCompiled hok)
  cases hpaired with
  | literal hliteral _ =>
    -- a record that searches for its source has empty slots
    obtain ⟨heligible, -⟩ := h.literal _ hliteral
    rw [(h.code mode width c hslot).1] at heligible
    cases heligible
  | code _ _ hslot₁ hslot' hmakes hmakes' =>
    obtain rfl := Option.some.inj (hslot.symm.trans hslot₁)
    refine ⟨_, hslot', fun limits interrupted t start pairs hwidth => ?_⟩
    exact hmakes.search_units hmakes' hwidth hwidth rfl

end Record

/-! ### Engines -/

namespace Engine

/-- Two executions report the same and leave the same offsets. -/
structure Execution.Agrees (e e' : Execution) : Prop where
  result : e.result = e'.result
  buffer : e.buffer = e'.buffer

/-- An engine whose records are sound and in which no interrupt is raised. -/
structure Quiet (o : Options) (eng : Engine) : Prop where
  regular : eng.Regular (.reached o) o
  clear : eng.interrupts.requested = false

variable {o : Options} {eng eng' : Engine} {id id' : RecordId} {k : String × Flags}

theorem quiet_new (o : Options) : Quiet o (new o) where
  regular := ⟨rfl, Registry.sound_empty _, rfl⟩
  clear := rfl

theorem Quiet.get (h : eng.Quiet o) (k : String × Flags) : (eng.get k.1 k.2).2.Quiet o where
  regular := (h.regular.get_spec k).1.regular
  clear := h.clear

/-- **Two engines execute alike what is registered under the same key**, whatever each of them has
been used for. -/
theorem Quiet.execute_agrees (h : eng.Quiet o) (h' : eng'.Quiet o)
    (hid : eng.registry.key? id = some k) (hid' : eng'.registry.key? id' = some k) (t : Text)
    (start : Nat) (buffer : Option Buffer) :
    (eng.execute id t start buffer).Agrees (eng'.execute id' t start buffer) := by
  obtain ⟨r, hr, hrk⟩ := Registry.exists_of_key? hid
  obtain ⟨r', hr', hrk'⟩ := Registry.exists_of_key? hid'
  have hsound : r.Sound o := (h.regular.registry.holds hr).sound
  have hsound' : r'.Sound o := (h'.regular.registry.holds hr').sound
  have hkey : r.key = r'.key := hrk.trans hrk'.symm
  have hsource : r.source = r'.source := congrArg Prod.fst hkey
  have hflags : r.flags = r'.flags := congrArg Prod.snd hkey
  have hgenerator : eng.generator = o.generator := h.regular.generator
  have hgenerator' : eng'.generator = o.generator := h'.regular.generator
  rw [execute, execute, hr, hr', hgenerator, hgenerator', h.regular.options, h'.regular.options]
  obtain ⟨hresult, hbuffer⟩ :=
    hsound'.execute_alike hsound hsource hflags h'.clear h.clear
  exact ⟨hresult, hbuffer⟩

/-- The engine as it was made: with its options and statics, and with nothing done in it. -/
def restarted (eng : Engine) : Engine := { new eng.options with statics := eng.statics }

theorem Quiet.restarted (h : eng.Quiet o) : eng.restarted.Quiet o := by
  obtain ⟨hregular, hclear⟩ := quiet_new o
  rw [← h.regular.options] at hregular hclear ⊢
  exact ⟨⟨hregular.options, hregular.registry, hregular.generator⟩, hclear⟩

end Engine

/-! ### Values -/

namespace Value

/-- Two matches report the same and go on at the same offset. -/
structure Matching.Agrees {α : Type} (m m' : Matching α) : Prop where
  result : m.result = m'.result
  lastIndex : m.value.lastIndex = m'.value.lastIndex

variable {o : Options} {eng eng' : Engine} {v v' : Value}

/-- The value with its link cut. -/
def unlinked (v : Value) : Value := { v with link := none }

theorem linked_unlinked (v : Value) (g : Registry) : v.unlinked.Linked g :=
  linked_of_link_eq_none rfl g

/-- Asking for the record of a value changes nothing but its link. -/
theorem shared_keeps (v : Value) (eng : Engine) :
    (v.shared eng).2.2.interrupts = eng.interrupts ∧
      (v.shared eng).2.1.lastIndex = v.lastIndex := by
  unfold shared
  split <;> exact ⟨rfl, rfl⟩

theorem usesLastIndex_congr (hkey : v.key = v'.key) : v.usesLastIndex = v'.usesLastIndex := by
  have hflags : v.flags = v'.flags := congrArg Prod.snd hkey
  rw [usesLastIndex, usesLastIndex, hflags]

/-- What a value makes of an execution does not depend on its link. -/
theorem conclude_agrees {e e' : Engine.Execution} (hkey : v.key = v'.key)
    (hlast : v.lastIndex = v'.lastIndex) (he : e.Agrees e') :
    (v.conclude e).Agrees (v'.conclude e') := by
  unfold conclude
  rw [usesLastIndex_congr hkey, he.result, he.buffer]
  rcases e'.result with f | _ | _
  · exact ⟨rfl, hlast⟩
  · refine ⟨rfl, ?_⟩
    dsimp only
    split
    · rfl
    · exact hlast
  · refine ⟨rfl, ?_⟩
    dsimp only
    split
    · rfl
    · exact hlast

/-- **Two values with the same source, flags and last index match alike**, each in its own engine
and with its own link. -/
theorem search_agrees (h : eng.Quiet o) (h' : eng'.Quiet o) (hv : v.Linked eng.registry)
    (hv' : v'.Linked eng'.registry) (hkey : v.key = v'.key) (hlast : v.lastIndex = v'.lastIndex)
    (t : Text) (wantPairs : Bool) :
    (v.search eng t wantPairs).Agrees (v'.search eng' t wantPairs) := by
  obtain ⟨hupdates, hid⟩ := shared_spec h.regular hv
  obtain ⟨hupdates', hid'⟩ := shared_spec h'.regular hv'
  obtain ⟨hinterrupts, hsame⟩ := v.shared_keeps eng
  obtain ⟨hinterrupts', hsame'⟩ := v'.shared_keeps eng'
  rw [search_eq, search_eq]
  rcases hx : v.shared eng with ⟨id, v₁, eng₁⟩
  rcases hy : v'.shared eng' with ⟨id', v₁', eng₁'⟩
  rw [hx] at hupdates hid hinterrupts hsame
  rw [hy] at hupdates' hid' hinterrupts' hsame'
  dsimp only at *
  have hquiet : eng₁.Quiet o := ⟨hupdates.becomes.regular, hinterrupts ▸ h.clear⟩
  have hquiet' : eng₁'.Quiet o := ⟨hupdates'.becomes.regular, hinterrupts' ▸ h'.clear⟩
  have hkey₁ : v₁.key = v₁'.key := hupdates.key.trans (hkey.trans hupdates'.key.symm)
  have hlast₁ : v₁.lastIndex = v₁'.lastIndex := hsame.trans (hlast.trans hsame'.symm)
  have hstart : v₁.searchStart = v₁'.searchStart := by
    rw [searchStart, searchStart, usesLastIndex_congr hkey₁, hlast₁]
  have hbuffer : v₁.searchBuffer wantPairs = v₁'.searchBuffer wantPairs := by
    rw [searchBuffer, searchBuffer, usesLastIndex_congr hkey₁]
  rw [hstart, hbuffer]
  split
  · exact ⟨rfl, rfl⟩
  · apply conclude_agrees hkey₁ hlast₁
    exact hquiet.execute_agrees hquiet' hid (hkey ▸ hid') t _ _

theorem test_agrees (h : (v.search eng t false).Agrees (v'.search eng' t false)) :
    (v.test eng t).Agrees (v'.test eng' t) :=
  ⟨congrArg (Except.map Option.isSome) h.result, h.lastIndex⟩

theorem exec_agrees (h : (v.search eng t true).Agrees (v'.search eng' t true)) :
    (v.exec eng t).Agrees (v'.exec eng' t) := by
  obtain ⟨hresult, hlast⟩ := h
  unfold exec
  dsimp only
  rw [hresult]
  rcases (v'.search eng' t true).result with f | _ | pairs <;> exact ⟨rfl, hlast⟩

end Value

end RegexEngine

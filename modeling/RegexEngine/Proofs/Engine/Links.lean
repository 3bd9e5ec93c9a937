import RegexEngine.Engine.Codec
import RegexEngine.Proofs.Engine.Registry

/-!
# Links of values

A value may be linked to a record.  Where the record is still there, it is the one that is
registered under source and flags of the value.  Whatever is done with a value keeps this, since an
identity never gets another key: a link that is dead is renewed, and not led elsewhere.

* `Engine.Regular`, `Engine.Becomes` — an engine with a sound registry, and the same one later on.
* `Value.Linked` — the link of a value is dead or leads to its own record.
* `Value.Updates` — what using a value may change.
* `Value.shared_spec`, `Value.search_spec`, `Value.clone_spec`, `Value.trace_spec` — **values keep
  their source, their flags and the record that belongs to them.**
-/

namespace RegexEngine

variable {I : Record.Invariant} {o : Options}

/-! ### Engines -/

namespace Engine

/-- The engine has these options and a sound registry, and its generator is permitted. -/
structure Regular (I : Record.Invariant) (o : Options) (eng : Engine) : Prop where
  options : eng.options = o
  registry : eng.registry.Sound I
  generator : I.permits eng.generator

/-- The second engine is the first one later on, with no record removed. -/
structure Becomes (I : Record.Invariant) (o : Options) (eng eng' : Engine) : Prop where
  regular : eng'.Regular I o
  grows : eng.registry.Grows eng'.registry

variable {eng eng' eng'' : Engine}

theorem Regular.becomes_self (h : eng.Regular I o) : eng.Becomes I o eng := ⟨h, .refl _⟩

theorem Becomes.trans (h : eng.Becomes I o eng') (h' : eng'.Becomes I o eng'') :
    eng.Becomes I o eng'' :=
  ⟨h'.regular, h.grows.trans h'.grows⟩

/-- An engine with another registry. -/
theorem Regular.withRegistry (h : eng.Regular I o) {g : Registry} (hg : g.Sound I) :
    ({ eng with registry := g } : Engine).Regular I o :=
  ⟨h.options, hg, h.generator⟩

theorem Regular.get_spec (h : eng.Regular I o) (k : String × Flags) :
    eng.Becomes I o (eng.get k.1 k.2).2 ∧
      (eng.get k.1 k.2).2.registry.key? (eng.get k.1 k.2).1 = some k := by
  obtain ⟨hsound, hgrows, hkey⟩ := h.registry.get_spec k
  exact ⟨⟨h.withRegistry hsound, hgrows⟩, hkey⟩

/-- An execution changes the record that it runs. -/
theorem Regular.execute_spec (h : eng.Regular I o) (id : RecordId) (t : Text) (start : Nat)
    (buffer : Option Buffer) : eng.Becomes I o (eng.execute id t start buffer).engine := by
  unfold execute
  cases hid : eng.registry.find? id with
  | none => exact h.becomes_self
  | some r =>
    have hr := h.registry.holds hid
    have hrecord := I.execute _ h.generator r hr eng.options.limits eng.interrupts t start buffer
    obtain ⟨hsound, hgrows⟩ := h.registry.put_spec hid (r.key_execute ..) hrecord
    exact ⟨⟨h.options, hsound, h.generator⟩, hgrows⟩

end Engine

/-! ### Values -/

namespace Value

/-- What the record of the value is registered under. -/
def key (v : Value) : String × Flags := (v.source, v.flags)

/-- The link of the value was given out, and if it is not dead it leads to the record that is
registered under source and flags of the value. -/
def Linked (v : Value) (g : Registry) : Prop :=
  ∀ id ∈ v.link, id < g.fresh ∧ ∀ k, g.key? id = some k → k = v.key

variable {v v' : Value} {g g' : Registry} {eng : Engine} {id : RecordId}

theorem linked_of_link_eq_none (h : v.link = none) (g : Registry) : v.Linked g := by
  intro id hid
  rw [h] at hid
  cases hid

theorem Linked.congr (h : v.Linked g) (hlink : v'.link = v.link) (hkey : v'.key = v.key) :
    v'.Linked g := by
  intro id hid
  rw [hlink] at hid
  rw [hkey]
  exact h id hid

/-- A link stays as it is, unless its record is removed. -/
theorem Linked.follows {kept : RecordId → Prop} (h : v.Linked g) (hg : g.Follows kept g') :
    v.Linked g' := by
  intro id hid
  obtain ⟨hlt, hkey⟩ := h id hid
  exact ⟨Nat.lt_of_lt_of_le hlt hg.fresh_le, fun k hk => hkey k (hg.old id k hlt hk)⟩

/-- A value that has just been linked to its record. -/
theorem linked_of_key? (hg : g.Sound I) (hkey : g.key? id = some v.key) (hlink : v.link = some id) :
    v.Linked g := by
  intro id' hid
  rw [hlink] at hid
  obtain rfl := Option.some.inj hid
  exact ⟨hg.lt_fresh hkey, fun k hk => Option.some.inj (hk.symm.trans hkey)⟩

theorem linked_ofRecord {r : Record} (hg : g.Sound I) (hid : g.find? id = some r) :
    (ofRecord id r).Linked g :=
  linked_of_key? hg (Registry.key?_of_find? hid) rfl

/-- The record that the value is linked to is its own. -/
theorem Linked.key?_of_linked? (h : v.Linked g) (hid : v.linked? g = some id) :
    g.key? id = some v.key := by
  obtain ⟨hlink, hlive⟩ := Option.filter_eq_some_iff.1 hid
  obtain ⟨k, hk⟩ := Registry.live_iff.1 hlive
  rw [hk, (h id hlink).2 k hk]

/-- The link of a value is dead, or leads to the record that is found under source and flags of the
value. -/
theorem Linked.dead_or_own (h : v.Linked g) (hg : g.Sound I) (hid : id ∈ v.link) :
    g.find? id = none ∨ g.lookup v.source v.flags = some id := by
  cases hfind : g.find? id with
  | none => exact Or.inl rfl
  | some r =>
    have hkey : g.key? id = some r.key := Registry.key?_of_find? hfind
    rw [(h id hid).2 r.key hkey] at hkey
    exact Or.inr (hg.lookup_eq_some_iff.2 hkey)

/-- What using a value may change: the engine goes on, and the value keeps what it is registered
under. -/
structure Updates (I : Record.Invariant) (o : Options) (eng : Engine) (v : Value) (eng' : Engine)
    (v' : Value) : Prop where
  becomes : eng.Becomes I o eng'
  key : v'.key = v.key
  linked : v'.Linked eng'.registry

/-- **The record of a value is the one that is registered under its source and its flags.** -/
theorem shared_spec (h : eng.Regular I o) (hv : v.Linked eng.registry) :
    Updates I o eng v (v.shared eng).2.2 (v.shared eng).2.1 ∧
      (v.shared eng).2.2.registry.key? (v.shared eng).1 = some v.key := by
  unfold shared
  cases hid : v.linked? eng.registry with
  | some id => exact ⟨⟨h.becomes_self, rfl, hv⟩, hv.key?_of_linked? hid⟩
  | none =>
    obtain ⟨hbecomes, hkey⟩ := h.get_spec v.key
    exact ⟨⟨hbecomes, rfl, linked_of_key? hbecomes.regular.registry hkey rfl⟩, hkey⟩

/-- The record for a copy has the source of the value. -/
theorem sharedForCopy_spec (h : eng.Regular I o) (hv : v.Linked eng.registry) :
    Updates I o eng v (v.sharedForCopy eng).2.2 (v.sharedForCopy eng).2.1 ∧
      ∃ flags, (v.sharedForCopy eng).2.2.registry.key? (v.sharedForCopy eng).1 =
        some (v.source, flags) := by
  unfold sharedForCopy
  split
  · obtain ⟨hupdates, hkey⟩ := shared_spec h hv
    exact ⟨hupdates, v.flags, hkey⟩
  · obtain ⟨hbecomes, hkey⟩ := h.get_spec (v.source, v.flags ∪ eng.statics)
    exact ⟨⟨hbecomes, rfl, hv.follows hbecomes.grows⟩, _, hkey⟩

/-- **A copy has source and flags of the record that it is linked to**, and so the source of the
value. -/
theorem clone_spec (h : eng.Regular I o) (hv : v.Linked eng.registry) :
    Updates I o eng v (v.clone eng).2.2 (v.clone eng).2.1 ∧
      (v.clone eng).1.Linked (v.clone eng).2.2.registry ∧ (v.clone eng).1.source = v.source := by
  obtain ⟨hupdates, flags, hkey⟩ := sharedForCopy_spec h hv
  refine ⟨hupdates, ?_⟩
  obtain ⟨r, hr, hrkey⟩ := Registry.exists_of_key? hkey
  unfold clone
  dsimp only
  rw [hr]
  exact ⟨linked_ofRecord hupdates.becomes.regular.registry hr, congrArg Prod.fst hrkey⟩

/-- **Visiting a value cuts its link or leaves it as it is.** -/
theorem trace_spec (hg : g.Sound I) (hv : v.Linked g) (tracer : Tracer) :
    (v.trace tracer g).2.2.Sound I ∧ g.Grows (v.trace tracer g).2.2 ∧
      (v.trace tracer g).2.1.key = v.key ∧
        (v.trace tracer g).2.1.Linked (v.trace tracer g).2.2 := by
  unfold trace
  split
  · exact ⟨hg, .refl g, rfl, linked_of_link_eq_none rfl g⟩
  · cases v.linked? g with
    | none => exact ⟨hg, .refl g, rfl, hv⟩
    | some id =>
      obtain ⟨hsound, hgrows⟩ := hg.trace_spec id tracer
      exact ⟨hsound, hgrows, rfl, hv.follows hgrows⟩

/-- An update that goes on to another engine, and leaves but the last index different. -/
theorem Updates.then {eng₁ eng₂ : Engine} {v₁ v₂ : Value} (h : Updates I o eng v eng₁ v₁)
    (hbecomes : eng₁.Becomes I o eng₂) (hlink : v₂.link = v₁.link) (hkey : v₂.key = v₁.key) :
    Updates I o eng v eng₂ v₂ :=
  ⟨h.becomes.trans hbecomes, hkey.trans h.key, (h.linked.congr hlink hkey).follows hbecomes.grows⟩

/-- What a value makes of an execution of its record. -/
def conclude (v : Value) (e : Engine.Execution) : Matching (Option (Array Pair)) :=
  match e.result with
  | .error f => ⟨.error f, v, e.engine⟩
  | .ok .notFound =>
    ⟨.ok none, if v.usesLastIndex then { v with lastIndex := 0 } else v, e.engine⟩
  | .ok .success =>
    let pairs := (e.buffer.map Buffer.pairs).getD #[]
    let stop := (pairs.getD 0 Pair.undefined).limit.toNat
    ⟨.ok (some pairs), if v.usesLastIndex then { v with lastIndex := stop } else v, e.engine⟩

/-- Where a value begins to search. -/
def searchStart (v : Value) : Nat := if v.usesLastIndex then v.lastIndex else 0

/-- The buffer that a value asks for, if it needs one. -/
def searchBuffer (v : Value) (wantPairs : Bool) : Option Buffer :=
  if wantPairs || v.usesLastIndex then some { fixed := false } else none

theorem search_eq (v : Value) (eng : Engine) (t : Text) (wantPairs : Bool) :
    v.search eng t wantPairs =
      let (id, v, eng) := v.shared eng
      if t.size < v.searchStart then ⟨.ok none, { v with lastIndex := 0 }, eng⟩
      else v.conclude (eng.execute id t v.searchStart (v.searchBuffer wantPairs)) := rfl

/-- A value takes nothing from an execution but a new last index. -/
theorem conclude_spec (v : Value) (e : Engine.Execution) :
    (v.conclude e).engine = e.engine ∧
      ∃ lastIndex, (v.conclude e).value = { v with lastIndex } := by
  unfold conclude
  split
  · exact ⟨rfl, v.lastIndex, rfl⟩
  · refine ⟨rfl, ?_⟩
    dsimp only
    split
    · exact ⟨0, rfl⟩
    · exact ⟨v.lastIndex, rfl⟩
  · refine ⟨rfl, ?_⟩
    dsimp only
    split
    · exact ⟨_, rfl⟩
    · exact ⟨v.lastIndex, rfl⟩

/-- **Matching a text changes neither source nor flags of a value, and links it to its record.** -/
theorem search_spec (h : eng.Regular I o) (hv : v.Linked eng.registry) (t : Text)
    (wantPairs : Bool) :
    Updates I o eng v (v.search eng t wantPairs).engine (v.search eng t wantPairs).value := by
  obtain ⟨hupdates, -⟩ := shared_spec h hv
  rw [search_eq]
  rcases hx : v.shared eng with ⟨id, v₁, eng₁⟩
  rw [hx] at hupdates
  dsimp only at hupdates ⊢
  split
  · exact hupdates.then hupdates.becomes.regular.becomes_self rfl rfl
  · have hexecute :=
      hupdates.becomes.regular.execute_spec id t v₁.searchStart (v₁.searchBuffer wantPairs)
    obtain ⟨hengine, lastIndex, hvalue⟩ :=
      v₁.conclude_spec (eng₁.execute id t v₁.searchStart (v₁.searchBuffer wantPairs))
    rw [hengine, hvalue]
    exact hupdates.then hexecute rfl rfl

theorem test_spec (h : eng.Regular I o) (hv : v.Linked eng.registry) (t : Text) :
    Updates I o eng v (v.test eng t).engine (v.test eng t).value :=
  search_spec h hv t false

theorem exec_spec (h : eng.Regular I o) (hv : v.Linked eng.registry) (t : Text) :
    Updates I o eng v (v.exec eng t).engine (v.exec eng t).value := by
  have hsearch := search_spec h hv t true
  unfold exec
  dsimp only
  split
  · exact hsearch
  · exact hsearch
  · -- the shape of match results is not the registry's business
    obtain ⟨hsound, hgrows⟩ := hsearch.becomes.regular.registry.switch_spec
      (v.search eng t true).engine.registry.barrier true
    exact hsearch.then ⟨hsearch.becomes.regular.withRegistry hsound, hgrows⟩ rfl rfl

/-! ### New values -/

theorem link_of_createPlain {source : String} {flags : Flags}
    (h : createPlain source flags = .ok v) : v.link = none := by
  unfold createPlain at h
  split at h
  · cases h
  · obtain rfl := Except.ok.inj h
    rfl

theorem link_of_createWithLetters {source letters : String}
    (h : createWithLetters eng source letters = .ok v) : v.link = none := by
  unfold createWithLetters at h
  cases hflags : Flags.parse letters with
  | error e =>
    rw [hflags] at h
    cases h
  | ok flags =>
    rw [hflags] at h
    exact link_of_createPlain h

theorem link_of_decode {bytes : List UInt8} (h : (Codec.decode bytes).1 = .ok v) :
    v.link = none := by
  unfold Codec.decode at h
  split at h
  · cases h
  · split at h
    · cases h
    · split at h
      · cases h
      · unfold Codec.decodeFlags at h
        split at h
        · cases h
        · next word _ _ =>
          cases hflags : Flags.ofWord word with
          | error e =>
            rw [hflags] at h
            cases h
          | ok flags =>
            rw [hflags] at h
            exact link_of_createPlain h

end Value

end RegexEngine

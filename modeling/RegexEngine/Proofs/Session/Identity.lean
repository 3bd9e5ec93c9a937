import RegexEngine.Proofs.Engine.Links
import RegexEngine.Session.Basic

/-!
# Identities in whole sessions

Whatever is done in a session, there is one record for each source and each set of flags.  A guard
keeps its record in the registry, so a guarded record is never made a second time; a value is linked
to the record for its own source and flags or to none that is still there.

* `Session.Consistent` — guards are on live records, and values are linked to their own.
* `Session.Consistent.step`, `Session.Consistent.run` — **every step keeps to this, and so does
  every run.**
* `Session.identity_of_run` — **records, guards and links after any run.**
-/

namespace RegexEngine

/-! ### Names -/

namespace Names

variable {α : Type} {names : Names α} {name : String} {a : α} {p : String × α}

theorem mem_of_find? (h : names.find? name = some a) : (name, a) ∈ names := by
  obtain ⟨l₁, l₂, hsplit, -⟩ := List.lookup_eq_some_iff.1 h
  rw [hsplit]
  exact List.mem_append_right l₁ List.mem_cons_self

theorem mem_of_mem_remove (h : p ∈ names.remove name) : p ∈ names := (List.mem_filter.1 h).1

theorem mem_put (h : p ∈ names.put name a) : p = (name, a) ∨ p ∈ names :=
  (List.mem_cons.1 h).imp_right mem_of_mem_remove

theorem mem_of_mem_foldl_remove {drop : List String} (h : p ∈ drop.foldl remove names) :
    p ∈ names := by
  induction drop generalizing names with
  | nil => exact h
  | cons name drop ih => exact mem_of_mem_remove (ih h)

end Names

namespace Session

variable {I : Record.Invariant} {o : Options} {s : Session} {name guard value : String}

/-- The step brings no generator, or one that is permitted. -/
def Step.Permitted (I : Record.Invariant) : Step → Prop
  | .compile _ _ _ g _ => I.permits g
  | .setGenerator g => I.permits g
  | _ => True

/-- Guards are on live records, and values are linked to their own records. -/
structure Consistent (I : Record.Invariant) (o : Options) (s : Session) : Prop where
  engine : s.engine.Regular I o
  guards : ∀ p ∈ s.guards, ∃ k, s.registry.key? p.2 = some k
  values : ∀ p ∈ s.values, p.2.Linked s.registry

theorem consistent_new (hpermits : I.permits o.generator) : (Session.new o).Consistent I o where
  engine := ⟨rfl, Registry.sound_empty I, hpermits⟩
  guards p hp := by cases hp
  values p hp := by cases hp

namespace Consistent

/-! ### Small changes -/

/-- The engine goes on, and no record is removed. -/
theorem withEngine {eng : Engine} (h : s.Consistent I o) (heng : s.engine.Becomes I o eng) :
    ({ s with engine := eng } : Session).Consistent I o where
  engine := heng.regular
  guards p hp := by
    obtain ⟨k, hk⟩ := h.guards p hp
    exact ⟨k, heng.grows.kept p.2 k trivial hk⟩
  values p hp := (h.values p hp).follows heng.grows

theorem withRegistry {g : Registry} (h : s.Consistent I o) (hg : g.Sound I ∧ s.registry.Grows g) :
    (s.withRegistry g).Consistent I o :=
  h.withEngine ⟨h.engine.withRegistry hg.1, hg.2⟩

theorem withInterrupts (h : s.Consistent I o) (i : Interrupts) :
    (s.withInterrupts i).Consistent I o :=
  h.withEngine ⟨⟨h.engine.options, h.engine.registry, h.engine.generator⟩, .refl _⟩

theorem putGuard {id : RecordId} (h : s.Consistent I o)
    (hid : ∃ k, s.registry.key? id = some k) : (s.putGuard name id).1.Consistent I o where
  engine := h.engine
  guards p hp := by
    rcases Names.mem_put hp with rfl | hp
    · exact hid
    · exact h.guards p hp
  values := h.values

theorem replaceValue {v : Value} (h : s.Consistent I o) (hv : v.Linked s.registry) :
    (s.replaceValue name v).Consistent I o where
  engine := h.engine
  guards := h.guards
  values p hp := by
    rcases Names.mem_put hp with rfl | hp
    · exact hv
    · exact h.values p hp

theorem putValue {v : Except RegexError Value} (h : s.Consistent I o)
    (hv : ∀ v', v = .ok v' → v'.Linked s.registry) : (s.putValue name v).1.Consistent I o := by
  cases v with
  | error e => exact h
  | ok v => exact h.replaceValue (hv v rfl)

theorem withGuard {k : RecordId → Record → Session × Answer} (h : s.Consistent I o)
    (hk : ∀ id r, s.registry.find? id = some r → (k id r).1.Consistent I o) :
    (s.withGuard guard k).1.Consistent I o := by
  unfold Session.withGuard
  split
  · exact h
  · next id _ =>
    cases hid : s.registry.find? id with
    | none => exact h
    | some r => exact hk id r hid

theorem withValue {k : Value → Session × Answer} (h : s.Consistent I o)
    (hk : ∀ v, v.Linked s.registry → (k v).1.Consistent I o) :
    (s.withValue value k).1.Consistent I o := by
  unfold Session.withValue
  cases hv : s.values.find? value with
  | none => exact h
  | some v => exact hk v (h.values _ (Names.mem_of_find? hv))

/-- A value is used: it is saved, and the engine goes on. -/
theorem update {v v' : Value} {eng : Engine} (h : s.Consistent I o)
    (hv : Value.Updates I o s.engine v eng v') :
    (({ s with engine := eng } : Session).replaceValue value v').Consistent I o :=
  (h.withEngine hv.becomes).replaceValue hv.linked

/-! ### Registry steps -/

theorem getGuard {source : String} {flags : Except RegexError Flags} (h : s.Consistent I o) :
    (s.getGuard name source flags).1.Consistent I o := by
  cases flags with
  | error e => exact h
  | ok flags =>
    obtain ⟨hbecomes, hkey⟩ := h.engine.get_spec (source, flags)
    exact (h.withEngine hbecomes).putGuard ⟨_, hkey⟩

theorem guardExisting {source letters : String} (h : s.Consistent I o) :
    (s.guardExisting name source letters).1.Consistent I o := by
  unfold Session.guardExisting
  cases Flags.parse letters with
  | error e => exact h
  | ok flags =>
    dsimp only
    cases hlookup : s.registry.lookup source flags with
    | none => exact h
    | some id => exact h.putGuard ⟨(source, flags), h.engine.registry.lookup_eq_some_iff.1 hlookup⟩

/-- **A sweep spares the records that guards are on.** -/
theorem sweepAfter (h : s.Consistent I o) (heap : HeapState) (drop : List String) :
    (s.sweepAfter heap drop).1.Consistent I o := by
  let s₁ : Session := { s with guards := drop.foldl Names.remove s.guards }
  obtain ⟨hsound, hfollows⟩ := h.engine.registry.sweep_spec s₁.held s₁.holdsTemplate heap
  refine ⟨h.engine.withRegistry hsound, fun p hp => ?_, fun p hp => ?_⟩
  · obtain ⟨k, hk⟩ := h.guards p (Names.mem_of_mem_foldl_remove hp)
    exact ⟨k, hfollows.kept p.2 k (List.mem_map_of_mem hp) hk⟩
  · exact (h.values p hp).follows hfollows

/-! ### Execution steps -/

theorem compileRecord {mode : Mode} {width : Width} {g : Generator} {force : Bool}
    (h : s.Consistent I o) (hg : I.permits g) :
    (s.compileRecord guard mode width g force).1.Consistent I o := by
  apply h.withGuard
  intro id r hid
  have hr := h.engine.registry.holds hid
  have hcompiled : ∀ a : Except RegexError Unit × Record, a.2.key = r.key → I.holds a.2 →
      (s.withRegistry (s.registry.put id a.2)).Consistent I o := fun a hkey ha =>
    h.withRegistry (h.engine.registry.put_spec hid hkey ha)
  cases force with
  | true =>
    have hs := hcompiled (r.compile mode width g) (r.key_compile mode width g)
      (I.compile g hg r hr mode width)
    rcases hx : r.compile mode width g with ⟨_ | _, r'⟩ <;> rw [hx] at hs <;> simpa [hx] using hs
  | false =>
    have hs := hcompiled (r.compileIfNecessary mode width g)
      (r.key_compileIfNecessary mode width g) (I.compileIfNecessary hg hr mode width)
    rcases hx : r.compileIfNecessary mode width g with ⟨_ | _, r'⟩ <;> rw [hx] at hs <;>
      simpa [hx] using hs

theorem executeRecord {t : Text} {start : Nat} {buffer : Option String} {fixed : Bool}
    (h : s.Consistent I o) : (s.executeRecord guard t start buffer fixed).1.Consistent I o := by
  apply h.withGuard
  intro id r _
  have hs := h.withEngine (h.engine.execute_spec id t start (buffer.map (s.bufferNamed · fixed)))
  dsimp only
  split
  · exact ⟨hs.engine, hs.guards, hs.values⟩
  · exact hs

/-! ### Value steps -/

theorem execValue {t : Text} {keep : Option String} (h : s.Consistent I o) :
    (s.execValue value t keep).1.Consistent I o := by
  apply h.withValue
  intro v hv
  have hs : (({ s with engine := (v.exec s.engine t).engine } : Session).replaceValue value
      (v.exec s.engine t).value).Consistent I o := h.update (Value.exec_spec h.engine hv t)
  dsimp only
  split
  · exact ⟨hs.engine, hs.guards, hs.values⟩
  · exact hs

theorem testValue {t : Text} (h : s.Consistent I o) :
    (s.testValue value t).1.Consistent I o := by
  apply h.withValue
  intro v hv
  exact h.update (Value.test_spec h.engine hv t)

theorem cloneValue (h : s.Consistent I o) : (s.cloneValue name value).1.Consistent I o := by
  apply h.withValue
  intro v hv
  obtain ⟨hupdates, hcopy, -⟩ := Value.clone_spec h.engine hv
  exact (h.update hupdates).replaceValue hcopy

theorem guardOfValue (h : s.Consistent I o) : (s.guardOfValue name value).1.Consistent I o := by
  apply h.withValue
  intro v hv
  obtain ⟨hupdates, hkey⟩ := Value.shared_spec h.engine hv
  exact (h.update hupdates).putGuard ⟨_, hkey⟩

theorem traceNamed {tracer : Tracer} (h : s.Consistent I o) :
    (s.traceNamed value tracer).1.Consistent I o := by
  apply h.withValue
  intro v hv
  obtain ⟨hsound, hgrows, -, hlinked⟩ := Value.trace_spec h.engine.registry hv tracer
  exact (h.withRegistry ⟨hsound, hgrows⟩).replaceValue hlinked

theorem decodeValue {bytes : Option (List UInt8)} (h : s.Consistent I o) :
    (s.decodeValue name bytes).1.Consistent I o := by
  unfold Session.decodeValue
  have hlink : ∀ v, (Codec.decode (bytes.getD s.encoded)).1 = .ok v → v.link = none :=
    fun v => Value.link_of_decode
  rcases hx : Codec.decode (bytes.getD s.encoded) with ⟨result, rest⟩
  rw [hx] at hlink
  have hs : (if bytes.isSome then s else { s with encoded := rest }).Consistent I o := by
    split
    · exact h
    · exact ⟨h.engine, h.guards, h.values⟩
  cases result with
  | error e => exact hs
  | ok v => exact hs.replaceValue (Value.linked_of_link_eq_none (hlink v rfl) _)

/-! ### Steps -/

/-- **Every step keeps guards on live records and values linked to their own.** -/
theorem step (h : s.Consistent I o) {st : Step} (hst : st.Permitted I) :
    (s.step st).1.Consistent I o := by
  cases st with
  | guard name source letters => exact h.getGuard
  | guardWord name source word => exact h.getGuard
  | dropGuard guard =>
    exact ⟨h.engine, fun p hp => h.guards p (Names.mem_of_mem_remove hp), h.values⟩
  | cloneGuard name guard =>
    exact h.withGuard fun id r hid => h.putGuard ⟨_, Registry.key?_of_find? hid⟩
  | guardExisting name source letters => exact h.guardExisting
  | showRecord guard => exact h.withGuard fun _ _ _ => h
  | showRecords | lookup source letters | showInterrupts => exact h
  | setBarrier on => exact h.withRegistry (h.engine.registry.switch_spec on s.registry.hasTemplate)
  | setMark guard on =>
    exact h.withGuard fun id _ _ => h.withRegistry (h.engine.registry.setMark_spec id on)
  | trace guard tracer =>
    exact h.withGuard fun id _ _ => h.withRegistry (h.engine.registry.trace_spec id tracer)
  | sweep compacting sources code drop =>
    unfold Session.step
    dsimp only
    split
    · exact h
    · exact h.sweepAfter _ drop
  | holdTemplate name =>
    have hs := h.withRegistry (h.engine.registry.switch_spec s.registry.barrier true)
    exact ⟨hs.engine, hs.guards, hs.values⟩
  | dropTemplate name | dropResult name => exact ⟨h.engine, h.guards, h.values⟩
  | compile guard mode width generator force => exact h.compileRecord hst
  | execute guard text start buffer fixed => exact h.executeRecord
  | setGenerator g =>
    exact h.withEngine ⟨⟨h.engine.options, h.engine.registry, hst⟩, .refl _⟩
  | install c => exact h.withInterrupts _
  | request => exact h.withInterrupts _
  | poll v => exact h.withInterrupts _
  | setStatics letters =>
    unfold Session.step
    dsimp only
    split
    · exact h
    · exact h.withEngine ⟨⟨h.engine.options, h.engine.registry, h.engine.generator⟩, .refl _⟩
  | create name source letters =>
    apply h.putValue
    intro v hv
    exact Value.linked_of_link_eq_none (Value.link_of_createWithLetters hv) _
  | createPlain name source letters =>
    apply h.putValue
    intro v hv
    cases hflags : Flags.parse letters with
    | error e =>
      rw [hflags] at hv
      cases hv
    | ok flags =>
      rw [hflags] at hv
      exact Value.linked_of_link_eq_none (Value.link_of_createPlain hv) _
  | ofGuard name guard =>
    apply h.withGuard
    intro id r hid
    apply h.putValue
    intro v hv
    obtain rfl := Except.ok.inj hv
    exact Value.linked_ofRecord h.engine.registry hid
  | clone name value => exact h.cloneValue
  | rebuild name value =>
    apply h.withValue
    intro v _
    apply h.putValue
    intro v' hv'
    exact Value.linked_of_link_eq_none (Value.link_of_createPlain hv') _
  | showValue value => exact h.withValue fun _ _ => h
  | dropValue value =>
    exact ⟨h.engine, h.guards, fun p hp => h.values p (Names.mem_of_mem_remove hp)⟩
  | setLastIndex value n =>
    exact h.withValue fun v hv => h.replaceValue (hv.congr rfl rfl)
  | guardValue name value => exact h.guardOfValue
  | exec value text keep => exact h.execValue
  | test value text => exact h.testValue
  | traceValue value tracer => exact h.traceNamed
  | encode value =>
    apply h.withValue
    intro v _
    split
    · exact h
    · exact ⟨h.engine, h.guards, h.values⟩
  | decode name bytes => exact h.decodeValue

/-- **So does every run.** -/
theorem run (h : s.Consistent I o) {steps : List Step} (hsteps : ∀ st ∈ steps, st.Permitted I) :
    (s.run steps).Consistent I o := by
  induction steps generalizing s with
  | nil => exact h
  | cons st steps ih =>
    rw [run_cons]
    apply ih (h.step (hsteps st List.mem_cons_self))
    intro st' hst'
    exact hsteps st' (List.mem_cons_of_mem st hst')

end Consistent

/-! ### Whole sessions -/

/-- **Records, guards and links after any run**, whatever its options, its steps and the generators
that are used in it.  Every record is the one that is found under its own source and flags, and no
two records agree in both.  Every guard is on a registered record, which is the one for its source
and flags; so two guards are on records with the same source and flags exactly when they are on the
same record.  Every link of a value is dead or leads to the record for the value's own source and
flags. -/
theorem identity_of_run (o : Options) (steps : List Step) :
    let s := (Session.new o).run steps
    (∀ e ∈ s.registry.entries, s.registry.lookup e.2.source e.2.flags = some e.1 ∧
        s.registry.find? e.1 = some e.2) ∧
      s.registry.entries.Pairwise (fun e e' => e.1 ≠ e'.1 ∧ e.2.key ≠ e'.2.key) ∧
      (∀ p ∈ s.guards, ∃ r, s.registry.find? p.2 = some r ∧
        s.registry.lookup r.source r.flags = some p.2) ∧
      (∀ p ∈ s.guards, ∀ q ∈ s.guards, ∀ r r', s.registry.find? p.2 = some r →
        s.registry.find? q.2 = some r' →
          ((r.source = r'.source ∧ r.flags = r'.flags) ↔ p.2 = q.2)) ∧
      ∀ p ∈ s.values, ∀ id ∈ p.2.link, s.registry.find? id = none ∨
        s.registry.lookup p.2.source p.2.flags = some id := by
  intro s
  have hnew : (Session.new o).Consistent .none o := consistent_new trivial
  have hs : s.Consistent .none o := by
    apply hnew.run
    intro st _
    cases st <;> trivial
  have hg := hs.engine.registry
  refine ⟨fun e he => ?_, ?_, fun p hp => ?_, fun p _ q _ r r' hr hr' => ?_, fun p hp id hid => ?_⟩
  · have hfind := hg.mem_entries_iff.1 he
    exact ⟨hg.lookup_of_find? hfind, hfind⟩
  · exact (List.pairwise_map.1 hg.nodup_ids).and (List.pairwise_map.1 hg.nodup_keys)
  · obtain ⟨k, hk⟩ := hs.guards p hp
    obtain ⟨r, hr, -⟩ := Registry.exists_of_key? hk
    exact ⟨r, hr, hg.lookup_of_find? hr⟩
  · constructor
    · rintro ⟨hsource, hflags⟩
      have hkey : r.key = r'.key := Prod.ext hsource hflags
      exact hg.eq_of_key? (Registry.key?_of_find? hr) (hkey ▸ Registry.key?_of_find? hr')
    · intro hid
      rw [hid, hr'] at hr
      obtain rfl := Option.some.inj hr
      exact ⟨rfl, rfl⟩
  · exact (hs.values p hp).dead_or_own hg hid

end Session

end RegexEngine

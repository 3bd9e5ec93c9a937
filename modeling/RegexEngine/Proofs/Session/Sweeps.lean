import RegexEngine.Proofs.Engine.Changes
import RegexEngine.Proofs.Session.Barrier

/-!
# Sweeps

Which records does a sweep spare?  Those that a guard is on, all of them while the heap is being
compacted, and those that something has reached since the last sweep, if neither their sources nor
their native code are about to go.  The mark that a record has at a sweep tells of all steps since
the one before.

* `Session.reaches` — whether a step reaches a record.
* `Session.ReachedIn` — whether a record has been reached in a run and not been cleared since.
* `Session.Consistent.changes_step` — **what a step clears and reaches.**
* `Session.Consistent.isMarked_run_iff` — **marked is what has been reached.**
* `Session.sweep_of_run` — **what a sweep spares and what it leaves behind.**
-/

namespace RegexEngine

open Registry (Changes Steady)

namespace Session

variable {I : Record.Invariant} {o : Options} {s : Session} {name value guard : String}
  {id : RecordId}

/-! ### Reaching records -/

/-- Whether a step reaches a record: it marks it, visits it or a value that is linked to it, or asks
for it while the barrier is on. -/
def reaches (s : Session) (id : RecordId) : Step → Bool
  | .setMark guard on => on && s.guards.find? guard == some id
  | .trace guard tracer => tracer.marking && s.guards.find? guard == some id
  | .traceValue value tracer =>
    tracer.marking && tracer.preservingCode &&
      (s.values.find? value).any fun v => v.linked? s.registry == some id
  | st => s.handedOut st == some id && (s.registry.barrier && !s.byLiveLink st)

/-- A step of the run has reached a record, and no later one has cleared its mark. -/
def ReachedIn (s : Session) (id : RecordId) (steps : List Step) : Prop :=
  ∃ before st after, steps = before ++ st :: after ∧ (s.run before).reaches id st = true ∧
    ((s.run before).step st).1.clearsMarkIn id after = false

/-! ### Steps -/

theorem step_sweep {compacting : Bool} {sources : List String} {code : List DyingCode}
    {drop : List String} {slots : List (RecordId × Mode × Width)}
    (hslots : s.dyingSlots code = some slots) :
    s.step (.sweep compacting sources code drop) =
      s.sweepAfter ⟨compacting, sources, slots⟩ drop := by
  rw [step, hslots]

namespace Consistent

variable {cleared reached : RecordId → Bool}

theorem changes_withGuard {k : RecordId → Record → Session × Answer} (h : s.Consistent I o)
    (hnone : s.guards.find? guard = none → ∀ id, cleared id = false ∧ reached id = false)
    (hk : ∀ i r, s.guards.find? guard = some i → s.registry.find? i = some r →
      Changes cleared reached s.registry (k i r).1.registry) :
    Changes cleared reached s.registry (s.withGuard guard k).1.registry := by
  unfold Session.withGuard
  cases hguard : s.guards.find? guard with
  | none =>
    have hfalse := hnone hguard
    exact (Changes.refl s.registry).congr (fun id => (hfalse id).1) fun id => (hfalse id).2
  | some i =>
    obtain ⟨k', hk'⟩ := h.guards _ (Names.mem_of_find? hguard)
    obtain ⟨r, hr, -⟩ := Registry.exists_of_key? hk'
    dsimp only
    rw [hr]
    exact hk i r hguard hr

theorem changes_withValue {k : Value → Session × Answer} (h : s.Consistent I o)
    (hnone : s.values.find? value = none → ∀ id, cleared id = false ∧ reached id = false)
    (hk : ∀ v, s.values.find? value = some v → v.Linked s.registry →
      Changes cleared reached s.registry (k v).1.registry) :
    Changes cleared reached s.registry (s.withValue value k).1.registry := by
  unfold Session.withValue
  cases hvalue : s.values.find? value with
  | none =>
    have hfalse := hnone hvalue
    exact (Changes.refl s.registry).congr (fun id => (hfalse id).1) fun id => (hfalse id).2
  | some v => exact hk v hvalue (h.values _ (Names.mem_of_find? hvalue))

theorem changes_getGuard {source : String} {flags : Except RegexError Flags}
    (h : s.Consistent I o) :
    Changes (fun _ => false)
      (fun id => (flags.toOption.map fun flags => (s.engine.get source flags).1) == some id &&
        (s.registry.barrier && true))
      s.registry (s.getGuard name source flags).1.registry := by
  cases flags with
  | error e => exact .refl _
  | ok flags =>
    refine (h.engine.registry.changes_get (source, flags)).congr (fun _ => rfl) ?_
    intro id
    rw [Bool.and_true, Bool.and_comm]
    rfl

theorem steady_guardExisting {source letters : String} :
    Steady s.registry (s.guardExisting name source letters).1.registry := by
  unfold Session.guardExisting
  split
  · exact .refl _
  · split <;> exact .refl _

theorem steady_putValue (name : String) (v : Except RegexError Value) :
    Steady s.registry (s.putValue name v).1.registry := by
  rw [registry_putValue]
  exact .refl _

theorem steady_compileRecord {mode : Mode} {width : Width} {g : Generator} {force : Bool}
    (h : s.Consistent I o) (hg : I.permits g) :
    Steady s.registry (s.compileRecord guard mode width g force).1.registry := by
  refine h.changes_withGuard (fun _ _ => ⟨rfl, rfl⟩) ?_
  intro i r _ hr
  have hheld := h.engine.registry.holds hr
  dsimp only
  cases force with
  | true =>
    split <;>
      exact h.engine.registry.steady_put hr (r.label_compile mode width g)
        (I.compile g hg r hheld mode width)
  | false =>
    split <;>
      exact h.engine.registry.steady_put hr (r.label_compileIfNecessary mode width g)
        (I.compileIfNecessary hg hheld mode width)

theorem steady_executeRecord {t : Text} {start : Nat} {buffer : Option String} {fixed : Bool}
    (h : s.Consistent I o) :
    Steady s.registry (s.executeRecord guard t start buffer fixed).1.registry := by
  refine h.changes_withGuard (fun _ _ => ⟨rfl, rfl⟩) ?_
  intro i r _ _
  dsimp only
  split <;> exact h.engine.steady_execute i t start _

theorem steady_decodeValue {bytes : Option (List UInt8)} :
    Steady s.registry (s.decodeValue name bytes).1.registry := by
  unfold Session.decodeValue
  rcases Codec.decode (bytes.getD s.encoded) with ⟨_ | v, rest⟩
  all_goals
    dsimp only
    split <;> exact .refl _

/-- **What a step clears and reaches.** -/
theorem changes_step (h : s.Consistent I o) {st : Step} (hst : st.Permitted I) :
    Changes (s.clearsMark · st) (s.reaches · st) s.registry (s.step st).1.registry := by
  cases st with
  | guard name source letters => exact h.changes_getGuard
  | guardWord name source word => exact h.changes_getGuard
  | guardExisting name source letters => exact steady_guardExisting
  | setMark guard on =>
    refine h.changes_withGuard ?_ ?_
    · intro hguard id
      simp [clearsMark, reaches, hguard]
    · intro i r hguard hr
      refine (h.engine.registry.changes_setMark hr on).congr ?_ ?_
      · intro id
        simp [clearsMark, hguard]
      · intro id
        simp [reaches, hguard]
  | trace guard tracer =>
    refine h.changes_withGuard ?_ ?_
    · intro hguard id
      simp [clearsMark, reaches, hguard]
    · intro i r hguard hr
      refine (h.engine.registry.changes_trace hr tracer).congr (fun _ => rfl) ?_
      intro id
      simp [reaches, hguard]
  | sweep compacting sources code drop =>
    cases hslots : s.dyingSlots code with
    | none =>
      rw [Session.step, hslots]
      refine (Changes.refl s.registry).congr ?_ (fun _ => rfl)
      intro id
      simp [clearsMark, hslots]
    | some slots =>
      rw [step_sweep hslots]
      refine (h.engine.registry.changes_sweep _ _ _).congr ?_ (fun _ => rfl)
      intro id
      simp [clearsMark, hslots]
  | holdTemplate name =>
    exact (h.engine.registry.switch_spec s.registry.barrier true).2.steady fun _ => rfl
  | setBarrier on =>
    exact (h.engine.registry.switch_spec on s.registry.hasTemplate).2.steady fun _ => rfl
  | compile guard mode width generator force => exact h.steady_compileRecord hst
  | execute guard text start buffer fixed => exact h.steady_executeRecord
  | setStatics letters =>
    unfold Session.step
    dsimp only
    split <;> exact .refl _
  | create name source letters => exact steady_putValue name _
  | createPlain name source letters => exact steady_putValue name _
  | ofGuard name guard => exact h.changes_withGuard (fun _ _ => ⟨rfl, rfl⟩) fun _ _ _ _ => .refl _
  | rebuild name value =>
    refine h.changes_withValue (fun _ _ => ⟨rfl, rfl⟩) ?_
    intro v _ _
    exact steady_putValue name _
  | clone name value =>
    refine h.changes_withValue ?_ ?_
    · intro hvalue id
      simp [clearsMark, reaches, handedOut, hvalue]
    · intro v hvalue _
      refine (Value.changes_sharedForCopy h.engine).congr (fun _ => rfl) ?_
      intro id
      simp [reaches, handedOut, byLiveLink, hvalue, registry]
  | guardValue name value =>
    refine h.changes_withValue ?_ ?_
    · intro hvalue id
      simp [clearsMark, reaches, handedOut, hvalue]
    · intro v hvalue _
      refine (Value.changes_shared h.engine).congr (fun _ => rfl) ?_
      intro id
      simp [reaches, handedOut, byLiveLink, hvalue, registry]
  | exec value text keep =>
    refine h.changes_withValue ?_ ?_
    · intro hvalue id
      simp [clearsMark, reaches, handedOut, hvalue]
    · intro v hvalue hv
      have hexec := (v.changes_exec h.engine hv text).congr (fun _ => rfl) fun id => show
        s.reaches id (.exec value text keep) = _ by
          simp [reaches, handedOut, byLiveLink, hvalue, registry]
      dsimp only
      split <;> exact hexec
  | test value text =>
    refine h.changes_withValue ?_ ?_
    · intro hvalue id
      simp [clearsMark, reaches, handedOut, hvalue]
    · intro v hvalue hv
      refine (v.changes_search h.engine hv text false).congr (fun _ => rfl) ?_
      intro id
      simp [reaches, handedOut, byLiveLink, hvalue, registry]
  | traceValue value tracer =>
    refine h.changes_withValue ?_ ?_
    · intro hvalue id
      simp [clearsMark, reaches, hvalue]
    · intro v hvalue _
      refine (v.changes_trace h.engine.registry tracer).congr (fun _ => rfl) ?_
      intro id
      simp [reaches, hvalue, registry]
  | encode value =>
    refine h.changes_withValue (fun _ _ => ⟨rfl, rfl⟩) ?_
    intro v _ _
    split <;> exact .refl _
  | decode name bytes => exact steady_decodeValue
  | cloneGuard | showRecord =>
    exact h.changes_withGuard (fun _ _ => ⟨rfl, rfl⟩) fun _ _ _ _ => .refl _
  | showValue | setLastIndex =>
    exact h.changes_withValue (fun _ _ => ⟨rfl, rfl⟩) fun _ _ _ => .refl _
  | _ => exact .refl _

end Consistent

/-! ### Runs -/

/-- No step clears the mark of a record that it reaches. -/
theorem clearsMark_of_reaches {st : Step} (h : s.reaches id st = true) :
    s.clearsMark id st = false := by
  cases st with
  | setMark guard on =>
    obtain ⟨hon, -⟩ := Bool.and_eq_true_iff.1 h
    rw [clearsMark, hon]
    rfl
  | sweep => cases h
  | _ => rfl

theorem not_reachedIn_nil : ¬s.ReachedIn id [] := by
  rintro ⟨before, st, after, hsplit, -⟩
  cases before <;> cases hsplit

theorem reachedIn_cons {st : Step} {steps : List Step} :
    s.ReachedIn id (st :: steps) ↔
      (s.reaches id st = true ∧ (s.step st).1.clearsMarkIn id steps = false) ∨
        (s.step st).1.ReachedIn id steps := by
  constructor
  · rintro ⟨before, st', after, hsplit, hreaches, hclear⟩
    cases before with
    | nil =>
      obtain ⟨rfl, rfl⟩ := List.cons.inj hsplit
      exact .inl ⟨hreaches, hclear⟩
    | cons st₁ before =>
      obtain ⟨rfl, rfl⟩ := List.cons.inj hsplit
      exact .inr ⟨before, st', after, rfl, hreaches, hclear⟩
  · rintro (⟨hreaches, hclear⟩ | ⟨before, st', after, rfl, hreaches, hclear⟩)
    · exact ⟨[], st, steps, rfl, hreaches, hclear⟩
    · exact ⟨st :: before, st', after, rfl, hreaches, hclear⟩

/-- **Marked is what has been reached**, or was marked before and has not been cleared. -/
theorem Consistent.isMarked_run_iff (h : s.Consistent I o) {steps : List Step}
    (hsteps : ∀ st ∈ steps, st.Permitted I) :
    (s.run steps).registry.isMarked id = true ↔
      s.ReachedIn id steps ∨
        (s.registry.isMarked id = true ∧ s.clearsMarkIn id steps = false) := by
  induction steps generalizing s with
  | nil => simp [not_reachedIn_nil, clearsMarkIn]
  | cons st steps ih =>
    have hst : st.Permitted I := hsteps st List.mem_cons_self
    have hmarked := (h.changes_step hst).isMarked id
    have hreaches : s.reaches id st = true → s.clearsMark id st = false := clearsMark_of_reaches
    rw [run_cons, ih (h.step hst) fun st' hst' => hsteps st' (List.mem_cons_of_mem st hst'),
      reachedIn_cons, hmarked, clearsMarkIn]
    cases hclear : s.clearsMark id st with
    | true =>
      have hnone : s.reaches id st = false := by
        cases hreached : s.reaches id st with
        | false => rfl
        | true => exact absurd (hclear.symm.trans (hreaches hreached)) (by decide)
      simp [hnone]
    | false =>
      simp only [Bool.not_false, Bool.true_and, Bool.or_eq_true, Bool.false_or]
      tauto

/-- A run gives no identity another record. -/
theorem Consistent.forgets_run (h : s.Consistent I o) {steps : List Step}
    (hsteps : ∀ st ∈ steps, st.Permitted I) :
    s.registry.Follows (fun _ => False) (s.run steps).registry := by
  induction steps generalizing s with
  | nil => exact .refl _
  | cons st steps ih =>
    have hst : st.Permitted I := hsteps st List.mem_cons_self
    refine (h.changes_step hst).follows.trans (ih (h.step hst) ?_)
    intro st' hst'
    exact hsteps st' (List.mem_cons_of_mem st hst')

/-- **A record that is gone does not come back.** -/
theorem Consistent.live_run_eq_false (h : s.Consistent I o) {steps : List Step}
    (hsteps : ∀ st ∈ steps, st.Permitted I) (hid : id < s.registry.fresh)
    (hgone : s.registry.live id = false) : (s.run steps).registry.live id = false :=
  (h.forgets_run hsteps).live_eq_false hid hgone

/-- **What a sweep spares and what it leaves behind**, after any run.  A record that was there is
still there if and only if a guard is on it that has not been dropped, or the heap is being
compacted, or some step has reached it, and its mark was not cleared since, be it by a sweep or on
demand, while neither its source nor native code of it is about to go.  Of a record that is still
there nothing has changed but that it is no longer marked; a record that is not there any more does
not come back, and a link to it is dead whatever happens later.  No record is new.  The guards are
those that have not been dropped, the values are as they were, and so are their links to what is
still there.  The answer tells how many records are left, and how many have been removed.  The shape
of match results stays if and only if the heap is being compacted or something holds it. -/
theorem sweep_of_run (o : Options) (steps : List Step) (heap : HeapState) (drop : List String) :
    let s := (Session.new o).run steps
    let s' := (s.sweepAfter heap drop).1
    (∀ id r, s.registry.find? id = some r →
        (s'.registry.live id = true ↔
          id ∈ s'.held ∨ heap.compacting = true ∨
            ((Session.new o).ReachedIn id steps ∧ r.source ∉ heap.dyingSources ∧
              ∀ m w, (m, w) ∈ r.nativeSlots → (id, m, w) ∉ heap.dyingCode)) ∧
        (s'.registry.live id = true → s'.registry.find? id = some { r with marked := false }) ∧
        (s'.registry.live id = false → ∀ later,
          (s'.run later).registry.live id = false ∧
            ∀ v : Value, v.link = some id → v.isLinked (s'.run later).registry = false)) ∧
      (∀ id, s'.registry.live id = true → s.registry.live id = true) ∧
      s'.guards = drop.foldl Names.remove s.guards ∧ s'.values = s.values ∧
      (∀ p ∈ s.values,
        p.2.linked? s'.registry = (p.2.linked? s.registry).filter s'.registry.live) ∧
      (∃ removed, (s.sweepAfter heap drop).2 = .swept ⟨s'.registry.size, removed⟩ ∧
        s'.registry.size + removed = s.registry.size) ∧
      (s'.registry.hasTemplate = true ↔ s.registry.hasTemplate = true ∧
        (heap.compacting = true ∨ s.templates ≠ [] ∨ s.results ≠ [])) := by
  intro s s'
  have hpermitted : ∀ steps : List Step, ∀ st ∈ steps, st.Permitted .none := by
    intro steps st _
    cases st <;> trivial
  have hnew : (Session.new o).Consistent .none o := consistent_new trivial
  have hs : s.Consistent .none o := hnew.run (hpermitted steps)
  have hs' : s'.Consistent .none o := hs.sweepAfter heap drop
  have hsound : s.registry.Sound .none := hs.engine.registry
  -- a registry that has just been made has no marks
  have hmarked : ∀ id, s.registry.isMarked id = true ↔ (Session.new o).ReachedIn id steps := by
    intro id
    rw [hnew.isMarked_run_iff (hpermitted steps), or_iff_left]
    rintro ⟨hmark, -⟩
    cases hmark
  have hlive : ∀ id, s'.registry.live id = true → s.registry.live id = true := by
    intro id
    exact hsound.live_of_live_sweep
  let counts : SweepCounts := (s.registry.sweep s'.held s.holdsTemplate heap).1
  obtain ⟨hkept, hcount⟩ : counts.kept = s'.registry.size ∧
      counts.kept + counts.removed = s.registry.size := s.registry.sweep_counts _ _ _
  refine ⟨?_, hlive, rfl, rfl, ?_, ⟨counts.removed, ?_, hkept ▸ hcount⟩, ?_⟩
  · intro id r hr
    refine ⟨?_, hsound.find?_of_live_sweep hr, ?_⟩
    · rw [← hmarked]
      exact hsound.live_sweep_iff hr
    · intro hgone later
      have hid : id < s'.registry.fresh := hsound.lt_fresh (Registry.key?_of_find? hr)
      have hdead := hs'.live_run_eq_false (hpermitted later) hid hgone
      refine ⟨hdead, ?_⟩
      intro v hv
      rw [Value.isLinked, hv]
      exact hdead
  · intro p _
    exact Value.linked?_filter hlive
  · show Answer.swept counts = .swept ⟨s'.registry.size, counts.removed⟩
    rw [← hkept]
  · show (s.registry.hasTemplate && (s.holdsTemplate || heap.compacting)) = true ↔ _
    simp [holdsTemplate, or_comm]

/-- A record that was marked outlives one sweep, and not the next one. -/
example :
    let s := (Session.new {}).run
      [.guard "g" "a.c" "", .setMark "g" true, .dropGuard "g", .sweep false [] [] []]
    s.registry.live 0 = true ∧ (s.step (.sweep false [] [] [])).1.registry.live 0 = false := by
  decide +kernel

end Session

end RegexEngine

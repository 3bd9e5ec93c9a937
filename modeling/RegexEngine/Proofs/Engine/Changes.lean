import RegexEngine.Proofs.Engine.Marks

/-!
# What changes in a registry

Of a registry that goes on, two things are worth knowing: which marks its records have, and that no
identity leads to another record than before.  Every way to use records is described by what it
clears and what it reaches; only a sweep removes anything.

* `Registry.Changes` — a registry and the same one later on, with their marks.
* `Registry.Sound.changes_get`, `Registry.Sound.changes_trace` — **asking for records and visiting
  them.**
* `Registry.Sound.changes_sweep` — **a sweep clears all marks.**
* `Value.changes_shared`, `Value.changes_search`, `Value.changes_trace` — using values.
-/

namespace RegexEngine

variable {I : Record.Invariant} {g g' : Registry} {id i : RecordId} {r : Record}

namespace Registry

variable {cleared reached : RecordId → Bool}

/-- The second registry is the first one later on.  No identity has got another record; the marks of
some records were cleared, and some records were reached. -/
structure Changes (cleared reached : RecordId → Bool) (g g' : Registry) : Prop where
  follows : g.Follows (fun _ => False) g'
  isMarked : ∀ id, g'.isMarked id = (!cleared id && (reached id || g.isMarked id))

/-- Nothing is cleared or reached. -/
abbrev Steady (g g' : Registry) : Prop := Changes (fun _ => false) (fun _ => false) g g'

theorem Grows.forgets (h : g.Grows g') : g.Follows (fun _ => False) g' :=
  h.mono fun _ _ => trivial

/-- **A dead identity stays dead.** -/
theorem Follows.live_eq_false {kept : RecordId → Prop} (h : g.Follows kept g') (hid : id < g.fresh)
    (hgone : g.live id = false) : g'.live id = false := by
  apply eq_false_of_ne_true
  intro hlive
  obtain ⟨k, hk⟩ := live_iff.1 hlive
  exact absurd ((live_iff.2 ⟨k, h.old id k hid hk⟩).symm.trans hgone) (by decide)

theorem Grows.steady (h : g.Grows g') (hmarked : ∀ id, g'.isMarked id = g.isMarked id) :
    Steady g g' := by
  refine ⟨h.forgets, ?_⟩
  intro id
  rw [hmarked, Bool.false_or, Bool.not_false, Bool.true_and]

theorem Changes.refl (g : Registry) : Steady g g := Grows.steady (.refl g) fun _ => rfl

theorem Changes.congr {cleared' reached' : RecordId → Bool} (h : Changes cleared reached g g')
    (hcleared : ∀ id, cleared' id = cleared id) (hreached : ∀ id, reached' id = reached id) :
    Changes cleared' reached' g g' := by
  refine ⟨h.follows, ?_⟩
  intro id
  rw [hcleared, hreached, h.isMarked]

/-! ### Records -/

theorem isMarked_setMark (hr : g.find? i = some r) (on : Bool) (id : RecordId) :
    (g.setMark i on).isMarked id = if id = i then on else g.isMarked id := by
  rw [isMarked, isMarked, setMark, find?_modify]
  by_cases hid : id = i
  · subst hid
    simp [hr]
  · simp [hid]

/-- Setting or clearing the mark of a record. -/
theorem Sound.changes_setMark (h : g.Sound I) (hr : g.find? i = some r) (on : Bool) :
    Changes (fun id => !on && i == id) (fun id => on && i == id) g (g.setMark i on) := by
  refine ⟨(h.setMark_spec i on).2.forgets, ?_⟩
  intro id
  rw [isMarked_setMark hr]
  by_cases hid : id = i
  · subst hid
    cases on <;> simp
  · have hne : (i == id) = false := beq_eq_false_iff_ne.2 (Ne.symm hid)
    simp [hid, hne]

theorem Sound.changes_markIfBarrier (h : g.Sound I) (hr : g.find? i = some r) :
    Changes (fun _ => false) (fun id => g.barrier && i == id) g (g.markIfBarrier i) := by
  rw [markIfBarrier]
  cases hbarrier : g.barrier with
  | true => exact h.changes_setMark hr true
  | false => exact .refl g

/-- A record is replaced by one that is marked as it was. -/
theorem Sound.steady_put {r' : Record} (h : g.Sound I) (hr : g.find? i = some r)
    (hlabel : r'.label = r.label) (hr' : I.holds r') : Steady g (g.put i r') := by
  obtain ⟨hkey, hmarked⟩ := Prod.ext_iff.1 hlabel
  refine (h.put_spec hr hkey hr').2.steady ?_
  intro id
  exact isMarked_put hr hmarked

/-- **A visit that marks reaches the record.** -/
theorem Sound.changes_trace (h : g.Sound I) (hr : g.find? i = some r) (tracer : Tracer) :
    Changes (fun _ => false) (fun id => tracer.marking && i == id) g (g.trace i tracer).2 := by
  have hmark : g.trace i tracer = ((r.trace tracer).1, g.put i (r.trace tracer).2) := by
    rw [trace, hr]
  rw [hmark]
  cases hmarking : tracer.marking with
  | true =>
    -- the record is replaced by itself with the mark set
    have hput : ∀ id,
        (g.put i (r.trace tracer).2).isMarked id = (g.setMark i true).isMarked id := by
      intro id
      rw [isMarked, isMarked, put, setMark, find?_modify, find?_modify]
      by_cases hid : id = i
      · subst hid
        simp [hr, Record.trace, hmarking]
      · simp [hid]
    have hset := h.changes_setMark hr true
    refine ⟨?_, ?_⟩
    · have hgrows := (h.trace_spec i tracer).2
      rw [hmark] at hgrows
      exact hgrows.forgets
    · intro id
      rw [hput, hset.isMarked]
      rfl
  | false =>
    have hsame : (r.trace tracer).2 = r := by rw [Record.trace, hmarking]; rfl
    rw [hsame]
    exact h.steady_put hr rfl (h.holds hr)

/-- A new record is not marked. -/
theorem Sound.steady_add {k : String × Flags} (h : g.Sound I) (hnone : g.lookup k.1 k.2 = none) :
    Steady g (g.add k.1 k.2).2 := by
  refine (h.add_spec hnone).2.1.steady ?_
  intro id
  rw [isMarked, isMarked, find?_add]
  by_cases hid : id = g.fresh
  · rw [hid, h.find?_fresh, if_pos rfl]
    rfl
  · rw [if_neg hid, Option.or_none]

/-- **Asking for a record reaches it while the barrier is on.** -/
theorem Sound.changes_get (h : g.Sound I) (k : String × Flags) :
    Changes (fun _ => false) (fun id => g.barrier && (g.get k.1 k.2).1 == id) g
      (g.get k.1 k.2).2 := by
  rw [get]
  cases hlookup : g.lookup k.1 k.2 with
  | some i =>
    obtain ⟨r, hr, -⟩ := exists_of_key? (h.lookup_eq_some_iff.1 hlookup)
    exact h.changes_markIfBarrier hr
  | none =>
    obtain ⟨hsound, -, hkey⟩ := h.add_spec hlookup
    obtain ⟨r, hr, -⟩ := exists_of_key? hkey
    have hadd : Steady g (g.add k.1 k.2).2 := h.steady_add hlookup
    have hmark := hsound.changes_markIfBarrier hr
    refine ⟨hadd.follows.trans hmark.follows, ?_⟩
    intro id
    rw [hmark.isMarked, hadd.isMarked]
    rfl

/-- **A sweep clears all marks.** -/
theorem Sound.changes_sweep (h : g.Sound I) (held : List RecordId) (templateHeld : Bool)
    (heap : HeapState) :
    Changes (fun _ => true) (fun _ => false) g (g.sweep held templateHeld heap).2 := by
  refine ⟨(h.sweep_spec held templateHeld heap).2.mono fun _ hfalse => hfalse.elim, ?_⟩
  intro id
  rw [isMarked, h.find?_sweep]
  cases (g.find? id).filter fun r => keeps held heap (id, r) <;> rfl

/-- **What a sweep spares.** -/
theorem Sound.live_sweep_iff (h : g.Sound I) {held : List RecordId} {templateHeld : Bool}
    {heap : HeapState} (hr : g.find? id = some r) :
    (g.sweep held templateHeld heap).2.live id = true ↔
      id ∈ held ∨ heap.compacting = true ∨
        (g.isMarked id = true ∧ r.source ∉ heap.dyingSources ∧
          ∀ m w, (m, w) ∈ r.nativeSlots → (id, m, w) ∉ heap.dyingCode) := by
  have hkeeps : (g.sweep held templateHeld heap).2.live id = keeps held heap (id, r) := by
    rw [live, h.find?_sweep, hr]
    cases hkeep : keeps held heap (id, r) <;> simp [hkeep]
  rw [hkeeps, isMarked, hr]
  simp [keeps, Record.survives, and_assoc]

theorem Sound.live_of_live_sweep (h : g.Sound I) {held : List RecordId} {templateHeld : Bool}
    {heap : HeapState} (hlive : (g.sweep held templateHeld heap).2.live id = true) :
    g.live id = true := by
  rw [live, h.find?_sweep, Option.isSome_map] at hlive
  exact Option.isSome_of_isSome_filter _ _ hlive

/-- Nothing but its mark is new in a record that is still there. -/
theorem Sound.find?_of_live_sweep (h : g.Sound I) {held : List RecordId} {templateHeld : Bool}
    {heap : HeapState} (hr : g.find? id = some r)
    (hlive : (g.sweep held templateHeld heap).2.live id = true) :
    (g.sweep held templateHeld heap).2.find? id = some { r with marked := false } := by
  rw [live, h.find?_sweep, hr] at hlive
  rw [h.find?_sweep, hr]
  cases hkeep : keeps held heap (id, r) <;> simp_all

/-- A sweep counts the records that it keeps and those that it removes. -/
theorem sweep_counts (g : Registry) (held : List RecordId) (templateHeld : Bool)
    (heap : HeapState) :
    (g.sweep held templateHeld heap).1.kept = (g.sweep held templateHeld heap).2.size ∧
      (g.sweep held templateHeld heap).1.kept + (g.sweep held templateHeld heap).1.removed =
        g.size := by
  refine ⟨?_, ?_⟩
  · rw [size, sweep, List.length_map]
  · have hle : (g.entries.filter (keeps held heap)).length ≤ g.entries.length :=
      List.length_filter_le _ _
    exact Nat.add_sub_cancel' hle

end Registry

/-! ### Values -/

open Registry (Changes Steady)

variable {o : Options} {eng : Engine} {v : Value}

theorem Engine.Regular.steady_execute (h : eng.Regular I o) (i : RecordId) (t : Text) (start : Nat)
    (buffer : Option Buffer) :
    Steady eng.registry (eng.execute i t start buffer).engine.registry :=
  Registry.Grows.steady (h.execute_spec i t start buffer).grows fun _ =>
    eng.isMarked_execute i t start buffer

namespace Value

theorem isLinked_eq_false (h : v.linked? g = none) : v.isLinked g = false := by
  rw [linked?, Option.filter_eq_none_iff] at h
  rw [isLinked, Option.any_eq_false]
  intro i hi
  exact eq_false_of_ne_true (h i hi)

theorem isLinked_eq_true (h : v.linked? g = some i) : v.isLinked g = true := by
  obtain ⟨hlink, hlive⟩ := Option.filter_eq_some_iff.1 h
  rw [isLinked, hlink, Option.any_some, hlive]

/-- **The record of a value is reached if the value has to ask for it.** -/
theorem changes_shared (h : eng.Regular I o) :
    Changes (fun _ => false)
      (fun id => (v.shared eng).1 == id && (eng.registry.barrier && !v.isLinked eng.registry))
      eng.registry (v.shared eng).2.2.registry := by
  unfold shared
  cases hlinked : v.linked? eng.registry with
  | some i =>
    refine (Changes.refl eng.registry).congr (fun _ => rfl) ?_
    intro id
    rw [isLinked_eq_true hlinked, Bool.not_true, Bool.and_false, Bool.and_false]
  | none =>
    refine (h.registry.changes_get (v.source, v.flags)).congr (fun _ => rfl) ?_
    intro id
    rw [isLinked_eq_false hlinked, Bool.not_false, Bool.and_true, Bool.and_comm]
    rfl

/-- So is the record for a copy, if the copy has to ask for it. -/
theorem changes_sharedForCopy (h : eng.Regular I o) :
    Changes (fun _ => false)
      (fun id => (v.sharedForCopy eng).1 == id && (eng.registry.barrier &&
        !(v.flags.includes eng.statics && v.isLinked eng.registry)))
      eng.registry (v.sharedForCopy eng).2.2.registry := by
  unfold sharedForCopy
  cases hflags : v.flags.includes eng.statics with
  | true => exact changes_shared h
  | false =>
    refine (h.registry.changes_get (v.source, v.flags ∪ eng.statics)).congr (fun _ => rfl) ?_
    intro id
    rw [Bool.false_and, Bool.not_false, Bool.and_true, Bool.and_comm]
    rfl

/-- Once a value has its record, matching a text changes nothing else. -/
theorem changes_search (h : eng.Regular I o) (hv : v.Linked eng.registry) (t : Text)
    (wantPairs : Bool) :
    Changes (fun _ => false)
      (fun id => (v.shared eng).1 == id && (eng.registry.barrier && !v.isLinked eng.registry))
      eng.registry (v.search eng t wantPairs).engine.registry := by
  refine ⟨(search_spec h hv t wantPairs).becomes.grows.forgets, ?_⟩
  intro id
  rw [isMarked_search, (changes_shared h).isMarked]

theorem changes_exec (h : eng.Regular I o) (hv : v.Linked eng.registry) (t : Text) :
    Changes (fun _ => false)
      (fun id => (v.shared eng).1 == id && (eng.registry.barrier && !v.isLinked eng.registry))
      eng.registry (v.exec eng t).engine.registry := by
  refine ⟨(exec_spec h hv t).becomes.grows.forgets, ?_⟩
  intro id
  rw [isMarked_exec, (changes_shared h).isMarked]

theorem exists_of_linked? (h : v.linked? g = some i) : ∃ r, g.find? i = some r := by
  obtain ⟨k, hk⟩ := Registry.live_iff.1 (Option.filter_eq_some_iff.1 h).2
  obtain ⟨r, hr, -⟩ := Registry.exists_of_key? hk
  exact ⟨r, hr⟩

/-- A link leads where it led, unless its record is no longer there. -/
theorem linked?_filter (hlive : ∀ id, g'.live id = true → g.live id = true) :
    v.linked? g' = (v.linked? g).filter g'.live := by
  rw [linked?, linked?, Option.filter_filter]
  congr 1
  funext id
  cases hid : g'.live id with
  | false => rw [Bool.and_false]
  | true => rw [hlive id hid, Bool.and_true]

/-- **A marking visit that preserves code reaches the record that the value is linked to.** -/
theorem changes_trace (hg : g.Sound I) (tracer : Tracer) :
    Changes (fun _ => false)
      (fun id => tracer.marking && tracer.preservingCode && v.linked? g == some id) g
      (v.trace tracer g).2.2 := by
  unfold trace
  cases hcuts : tracer.marking && !tracer.preservingCode with
  | true =>
    refine (Changes.refl g).congr (fun _ => rfl) ?_
    intro id
    have hboth : (tracer.marking && tracer.preservingCode) = false := by
      revert hcuts
      cases tracer.marking <;> cases tracer.preservingCode <;> simp
    rw [hboth, Bool.false_and]
  | false =>
    have hboth : (tracer.marking && tracer.preservingCode) = tracer.marking := by
      revert hcuts
      cases tracer.marking <;> cases tracer.preservingCode <;> simp
    rw [hboth]
    cases hlinked : v.linked? g with
    | none =>
      refine (Changes.refl g).congr (fun _ => rfl) ?_
      intro id
      exact Bool.and_false _
    | some i =>
      obtain ⟨r, hr⟩ := exists_of_linked? hlinked
      exact hg.changes_trace hr tracer

end Value

end RegexEngine

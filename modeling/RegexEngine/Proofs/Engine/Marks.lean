import RegexEngine.Proofs.Engine.Links

/-!
# Marks of records

Between two sweeps marks are set, by visits and while the barrier is on, and seldom cleared: neither
compilations nor executions change them, and asking for a record only adds marks.  A marked record
is spared by a sweep unless its source or its native code is about to go.

* `Registry.KeepsMark` — a mark that is not lost.
* `Registry.Sound.isMarked_get` — **the barrier marks what is asked for.**
* `Registry.Sound.find?_sweep`, `Registry.Sound.live_sweep` — **what a sweep spares.**
* `Value.keepsMark_shared`, `Value.keepsMark_search`, `Value.keepsMark_trace` — using values.
-/

namespace RegexEngine

variable {I : Record.Invariant} {g g' g'' : Registry} {id i : RecordId} {r : Record}

namespace Registry

/-- Whether there is a record with an identity, and it is marked. -/
def isMarked (g : Registry) (id : RecordId) : Bool := (g.find? id).any (·.marked)

theorem isMarked_iff : g.isMarked id = true ↔ ∃ r, g.find? id = some r ∧ r.marked = true := by
  rw [isMarked, Option.any_eq_true]

theorem find?_modify (g : Registry) (i : RecordId) (f : Record → Record) (id : RecordId) :
    (g.modify i f).find? id = (g.find? id).map fun r => if id = i then f r else r :=
  find?_mapRecords g (fun j r => if j = i then f r else r) id

/-- If the record was marked before, it still is. -/
def KeepsMark (id : RecordId) (g g' : Registry) : Prop :=
  g.isMarked id = true → g'.isMarked id = true

theorem isMarked_of_entries_eq (h : g'.entries = g.entries) : g'.isMarked id = g.isMarked id := by
  rw [isMarked, isMarked, find?, find?, h]

/-- A record is replaced by one that is marked as it was. -/
theorem isMarked_put {r' : Record} (hr : g.find? i = some r) (hmarked : r'.marked = r.marked) :
    (g.put i r').isMarked id = g.isMarked id := by
  rw [isMarked, isMarked, put, find?_modify]
  by_cases hid : id = i
  · subst hid
    simpa [hr] using hmarked
  · simp [hid]

namespace KeepsMark

theorem of_eq (h : g'.isMarked id = g.isMarked id) : KeepsMark id g g' := h.trans

theorem refl (g : Registry) : KeepsMark id g g := of_eq rfl

theorem trans (h : KeepsMark id g g') (h' : KeepsMark id g' g'') : KeepsMark id g g'' :=
  fun hmark => h' (h hmark)

theorem modify {f : Record → Record}
    (hf : id = i → ∀ r, g.find? id = some r → r.marked = true → (f r).marked = true) :
    KeepsMark id g (g.modify i f) := by
  intro hmark
  obtain ⟨r, hr, hmarked⟩ := isMarked_iff.1 hmark
  rw [isMarked, find?_modify, hr]
  by_cases hid : id = i
  · simpa [hid] using hf hid r hr hmarked
  · simpa [hid] using hmarked

theorem setMark_true (i : RecordId) : KeepsMark id g (g.setMark i true) :=
  modify fun _ _ _ _ => rfl

theorem setMark_of_ne (hne : id ≠ i) (on : Bool) : KeepsMark id g (g.setMark i on) :=
  modify fun hid => absurd hid hne

theorem markIfBarrier (i : RecordId) : KeepsMark id g (g.markIfBarrier i) := by
  rw [Registry.markIfBarrier]
  split
  · exact setMark_true i
  · exact refl g

/-- A visit sets marks and clears none. -/
theorem trace (i : RecordId) (tracer : Tracer) : KeepsMark id g (g.trace i tracer).2 := by
  rw [Registry.trace]
  cases hr : g.find? i with
  | none => exact refl g
  | some r =>
    refine modify fun hid r₁ hr₁ hmarked₁ => ?_
    subst hid
    obtain rfl := Option.some.inj (hr.symm.trans hr₁)
    show (if tracer.marking then { r with marked := true } else r : Record).marked = true
    split
    · rfl
    · exact hmarked₁

theorem get (k : String × Flags) : KeepsMark id g (g.get k.1 k.2).2 := by
  rw [Registry.get]
  cases g.lookup k.1 k.2 with
  | some i => exact markIfBarrier i
  | none =>
    have hadd : KeepsMark id g (g.add k.1 k.2).2 := by
      intro hmark
      obtain ⟨r, hr, hmarked⟩ := isMarked_iff.1 hmark
      rw [isMarked, find?_add, hr]
      exact hmarked
    exact hadd.trans (markIfBarrier _)

end KeepsMark

/-- **The barrier marks what is asked for**, be it there already or new. -/
theorem Sound.isMarked_get (h : g.Sound I) (hbarrier : g.barrier = true) (k : String × Flags) :
    (g.get k.1 k.2).2.isMarked (g.get k.1 k.2).1 = true := by
  have hmark : ∀ (g' : Registry) i, g'.barrier = true → (∃ r, g'.find? i = some r) →
      (g'.markIfBarrier i).isMarked i = true := by
    rintro g' i hg' ⟨r, hr⟩
    rw [markIfBarrier, if_pos hg', isMarked, setMark, find?_modify, hr]
    simp
  rw [get]
  cases hlookup : g.lookup k.1 k.2 with
  | some i =>
    obtain ⟨r, hr, -⟩ := exists_of_key? (h.lookup_eq_some_iff.1 hlookup)
    exact hmark g i hbarrier ⟨r, hr⟩
  | none =>
    obtain ⟨-, -, hkey⟩ := h.add_spec hlookup
    obtain ⟨r, hr, -⟩ := exists_of_key? hkey
    exact hmark (g.add k.1 k.2).2 _ hbarrier ⟨r, hr⟩

/-- **What is found after a sweep**: the records that it keeps, without their marks. -/
theorem Sound.find?_sweep (h : g.Sound I) (held : List RecordId) (templateHeld : Bool)
    (heap : HeapState) (id : RecordId) :
    (g.sweep held templateHeld heap).2.find? id =
      ((g.find? id).filter fun r => keeps held heap (id, r)).map fun r =>
        { r with marked := false } := by
  let g₁ : Registry := { g with entries := g.entries.filter (keeps held heap) }
  have h₁ : g₁.Sound I :=
    ⟨fun e he => h.ids e (List.mem_of_mem_filter he),
      h.nodup_ids.sublist (List.filter_sublist.map _),
      h.nodup_keys.sublist (List.filter_sublist.map _),
      fun e he => h.records e (List.mem_of_mem_filter he)⟩
  have hfilter : g₁.find? id = (g.find? id).filter fun r => keeps held heap (id, r) := by
    ext r
    rw [← h₁.mem_entries_iff, List.mem_filter, h.mem_entries_iff, Option.filter_eq_some_iff]
  rw [← hfilter]
  exact find?_mapRecords g₁ (fun _ r => { r with marked := false }) id

/-- **A sweep spares a marked record** unless its source or native code of it is about to go. -/
theorem Sound.live_sweep (h : g.Sound I) {held : List RecordId} {templateHeld : Bool}
    {heap : HeapState} (hr : g.find? id = some r) (hmarked : r.marked = true)
    (hsource : r.source ∉ heap.dyingSources)
    (hcode : ∀ m w, (m, w) ∈ r.nativeSlots → (id, m, w) ∉ heap.dyingCode) :
    (g.sweep held templateHeld heap).2.live id = true := by
  have hkeeps : keeps held heap (id, r) = true := by
    simpa [keeps, Record.survives, hmarked, hsource] using Or.inr (Or.inr hcode)
  rw [live, h.find?_sweep, hr]
  simp [hkeeps]

end Registry

/-! ### Values -/

open Registry (KeepsMark)

variable {o : Options} {eng : Engine} {v : Value}

theorem Engine.isMarked_execute (eng : Engine) (i : RecordId) (t : Text) (start : Nat)
    (buffer : Option Buffer) :
    (eng.execute i t start buffer).engine.registry.isMarked id = eng.registry.isMarked id := by
  unfold execute
  cases hr : eng.registry.find? i with
  | none => rfl
  | some r => exact Registry.isMarked_put hr (congrArg Prod.snd (r.label_execute ..))

namespace Value

theorem keepsMark_shared (v : Value) (eng : Engine) :
    KeepsMark id eng.registry (v.shared eng).2.2.registry := by
  unfold shared
  cases v.linked? eng.registry with
  | some i => exact .refl _
  | none => exact .get (v.source, v.flags)

theorem keepsMark_sharedForCopy (v : Value) (eng : Engine) :
    KeepsMark id eng.registry (v.sharedForCopy eng).2.2.registry := by
  unfold sharedForCopy
  split
  · exact keepsMark_shared v eng
  · exact .get (v.source, v.flags ∪ eng.statics)

/-- Once a value has its record, matching a text changes no mark. -/
theorem isMarked_search (v : Value) (eng : Engine) (t : Text) (wantPairs : Bool) :
    (v.search eng t wantPairs).engine.registry.isMarked id =
      (v.shared eng).2.2.registry.isMarked id := by
  rw [search_eq]
  rcases v.shared eng with ⟨i, v₁, eng₁⟩
  dsimp only
  split
  · rfl
  · rw [(v₁.conclude_spec _).1]
    exact eng₁.isMarked_execute i t _ _

theorem isMarked_exec (v : Value) (eng : Engine) (t : Text) :
    (v.exec eng t).engine.registry.isMarked id = (v.shared eng).2.2.registry.isMarked id := by
  unfold exec
  dsimp only
  split
  · exact isMarked_search v eng t true
  · exact isMarked_search v eng t true
  · exact (Registry.isMarked_of_entries_eq rfl).trans (isMarked_search v eng t true)

theorem keepsMark_trace (v : Value) (tracer : Tracer) (g : Registry) :
    KeepsMark id g (v.trace tracer g).2.2 := by
  unfold trace
  split
  · exact .refl g
  · cases v.linked? g with
    | none => exact .refl g
    | some i => exact .trace i tracer

/-- **The barrier marks the record of a value unless the link of the value is live.** -/
theorem isMarked_shared (h : eng.Regular I o) (hbarrier : eng.registry.barrier = true) :
    (v.shared eng).2.2.registry.isMarked (v.shared eng).1 =
      (!v.isLinked eng.registry || eng.registry.isMarked (v.shared eng).1) := by
  unfold shared
  cases hlinked : v.linked? eng.registry with
  | some i =>
    obtain ⟨hlink, hlive⟩ := Option.filter_eq_some_iff.1 hlinked
    rw [isLinked, hlink, Option.any_some, hlive]
    rfl
  | none =>
    have hdead : v.isLinked eng.registry = false := by
      rw [linked?, Option.filter_eq_none_iff] at hlinked
      rw [isLinked, Option.any_eq_false]
      exact fun i hi => eq_false_of_ne_true (hlinked i hi)
    rw [hdead]
    exact h.registry.isMarked_get hbarrier (v.source, v.flags)

/-- **So it does for a copy**, unless the copy has the flags of the value. -/
theorem isMarked_sharedForCopy (h : eng.Regular I o) (hbarrier : eng.registry.barrier = true) :
    (v.sharedForCopy eng).2.2.registry.isMarked (v.sharedForCopy eng).1 =
      (!(v.flags.includes eng.statics && v.isLinked eng.registry) ||
        eng.registry.isMarked (v.sharedForCopy eng).1) := by
  unfold sharedForCopy
  split
  · next hflags =>
    rw [hflags, Bool.true_and]
    exact isMarked_shared h hbarrier
  · next hflags =>
    rw [eq_false_of_ne_true hflags]
    exact h.registry.isMarked_get hbarrier (v.source, v.flags ∪ eng.statics)

end Value

end RegexEngine

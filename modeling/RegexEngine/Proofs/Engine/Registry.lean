import Mathlib.Data.List.Nodup
import RegexEngine.Engine.Basic
import RegexEngine.Proofs.Engine.Records

/-!
# Identities of records

A registry has one record for each source and each set of flags, and never gives an identity out
again.  So an identity is as good as its source and flags for as long as it is live, and a dead one
stays dead.

* `Record.key`, `Record.label` — what a record is registered under, and whether it is marked.
* `Record.Invariant` — a property that all records of an engine keep, given some generators.
* `Registry.Sound` — identities and keys are unique.
* `Registry.Sound.lookup_eq_some_iff` — **a record is found under its own key.**
* `Registry.Follows` — what holds between a registry and the same registry later on.
* `Registry.Sound.get_spec`, `Registry.Sound.sweep_spec` — asking for records and removing them.
-/

namespace RegexEngine

/-! ### Records -/

namespace Record

/-- What a record is registered under. -/
def key (r : Record) : String × Flags := (r.source, r.flags)

/-- What a record is registered under, and whether it is marked. -/
def label (r : Record) : (String × Flags) × Bool := (r.key, r.marked)

theorem label_fill (r : Record) (mode : Mode) (width : Width) (c : Code) :
    (r.fill mode width c).label = r.label := by
  obtain ⟨slots, hfill⟩ := r.fill_eq mode width c
  rw [hfill]
  rfl

theorem label_compile (r : Record) (mode : Mode) (width : Width) (g : Generator) :
    (r.compile mode width g).2.label = r.label := by
  rw [compile]
  split
  · rfl
  · split
    · rfl
    · cases parse r.source r.flags with
      | error f => rfl
      | ok p =>
        dsimp only
        rcases g.generate (r.anchoredIfSticky p) mode width r.flags r.tables with ⟨_ | c, tables⟩
        · rfl
        · exact label_fill { r with tables, groups := p.groups } mode width c

theorem label_compileIfNecessary (r : Record) (mode : Mode) (width : Width) (g : Generator) :
    (r.compileIfNecessary mode width g).2.label = r.label := by
  rw [compileIfNecessary]
  split
  · rfl
  · exact label_compile r mode width g

theorem label_search (r : Record) (mode : Mode) (limits : Limits) (i : Interrupts) (t : Text)
    (start : Nat) (pairs : Array Pair) :
    (r.search mode limits i t start pairs).2.1.label = r.label := by
  rw [search]
  split
  · split <;> rfl
  · split <;> rfl

/-- No execution changes what a record is registered under, or marks it. -/
theorem label_execute (r : Record) (g : Generator) (limits : Limits) (i : Interrupts) (t : Text)
    (start : Nat) (buffer : Option Buffer) :
    (r.execute g limits i t start buffer).record.label = r.label := by
  have hcompile := r.label_compileIfNecessary (modeFor buffer) t.width g
  rw [execute_eq]
  rcases hx : r.compileIfNecessary (modeFor buffer) t.width g with ⟨_ | _, r₁⟩
  · rw [hx] at hcompile
    exact hcompile
  · rw [hx] at hcompile
    refine Eq.trans ?_ hcompile
    dsimp only
    rw [executeCompiled]
    split
    · rfl
    · dsimp only
      split
      · rfl
      · next buffer' _ =>
        have hsearch := r₁.label_search (modeFor buffer) limits i (r₁.view t start)
          (start - r₁.displacement start) ((buffer'.map Buffer.pairs).getD #[])
        rcases hy : r₁.search (modeFor buffer) limits i (r₁.view t start)
          (start - r₁.displacement start) ((buffer'.map Buffer.pairs).getD #[])
          with ⟨outcome, r₂, i₂⟩
        rw [hy] at hsearch
        cases outcome <;> exact hsearch

/-- No generator changes what a record is registered under. -/
theorem key_compile (r : Record) (mode : Mode) (width : Width) (g : Generator) :
    (r.compile mode width g).2.key = r.key :=
  congrArg Prod.fst (r.label_compile mode width g)

theorem key_compileIfNecessary (r : Record) (mode : Mode) (width : Width) (g : Generator) :
    (r.compileIfNecessary mode width g).2.key = r.key :=
  congrArg Prod.fst (r.label_compileIfNecessary mode width g)

theorem key_execute (r : Record) (g : Generator) (limits : Limits) (i : Interrupts) (t : Text)
    (start : Nat) (buffer : Option Buffer) :
    (r.execute g limits i t start buffer).record.key = r.key :=
  congrArg Prod.fst (r.label_execute g limits i t start buffer)

/-- A property that new records have and that is kept by visits, and by compilations and executions
with the generators that are permitted. -/
structure Invariant where
  holds : Record → Prop
  permits : Generator → Prop
  fresh : ∀ source flags, holds { source, flags }
  mark : ∀ r, holds r → ∀ marked, holds { r with marked }
  compile : ∀ g, permits g → ∀ r, holds r → ∀ mode width, holds (r.compile mode width g).2
  execute : ∀ g, permits g → ∀ r, holds r → ∀ limits i t start buffer,
    holds (r.execute g limits i t start buffer).record

namespace Invariant

/-- Nothing is asked of records, and every generator is permitted. -/
def none : Invariant where
  holds _ := True
  permits _ := True
  fresh _ _ := trivial
  mark _ _ _ := trivial
  compile _ _ _ _ _ _ := trivial
  execute _ _ _ _ _ _ _ _ _ := trivial

/-- The records that an engine with some options can come to hold while it keeps its generator. -/
def reached (o : Options) : Invariant where
  holds := Reached o
  permits g := g = o.generator
  fresh := .fresh
  mark _ h marked := h.mark marked
  compile g hg _ h mode width := by
    subst hg
    exact h.compile mode width
  execute g hg _ h limits i t start buffer := by
    subst hg
    exact h.execute limits i t start buffer

theorem compileIfNecessary (I : Invariant) {g : Generator} (hg : I.permits g) {r : Record}
    (hr : I.holds r) (mode : Mode) (width : Width) :
    I.holds (r.compileIfNecessary mode width g).2 := by
  rw [Record.compileIfNecessary]
  split
  · exact hr
  · exact I.compile g hg r hr mode width

end Invariant

end Record

namespace Registry

open Record (key)

variable {I : Record.Invariant} {g g' : Registry} {id : RecordId} {r : Record}
  {k : String × Flags}

/-- What the record with an identity is registered under, if it is still there. -/
def key? (g : Registry) (id : RecordId) : Option (String × Flags) := (g.find? id).map key

theorem key?_of_find? (h : g.find? id = some r) : g.key? id = some r.key := by rw [key?, h]; rfl

theorem exists_of_key? (h : g.key? id = some k) : ∃ r, g.find? id = some r ∧ r.key = k :=
  Option.map_eq_some_iff.1 h

theorem live_iff : g.live id = true ↔ ∃ k, g.key? id = some k := by
  rw [live, key?]
  cases g.find? id <;> simp

/-- Identities and keys are unique, and no identity is given out that was given out before. -/
structure Sound (I : Record.Invariant) (g : Registry) : Prop where
  ids : ∀ e ∈ g.entries, e.1 < g.fresh
  nodup_ids : (g.entries.map (·.1)).Nodup
  nodup_keys : (g.entries.map (·.2.key)).Nodup
  records : ∀ e ∈ g.entries, I.holds e.2

theorem sound_empty (I : Record.Invariant) : Sound I {} where
  ids _ h := by cases h
  nodup_ids := List.nodup_nil
  nodup_keys := List.nodup_nil
  records _ h := by cases h

/-- An entry is found by its identity. -/
theorem Sound.mem_entries_iff (h : g.Sound I) : (id, r) ∈ g.entries ↔ g.find? id = some r := by
  rw [find?, List.lookup_eq_some_iff]
  constructor
  · intro hmem
    obtain ⟨l₁, l₂, hsplit⟩ := List.append_of_mem hmem
    refine ⟨l₁, l₂, hsplit, fun p hp => bne_iff_ne.2 fun hid => ?_⟩
    -- an entry in front with the same identity would be a second one
    have hnodup := h.nodup_ids
    rw [hsplit, List.map_append, List.map_cons] at hnodup
    exact (List.nodup_append.1 hnodup).2.2 p.1 (List.mem_map_of_mem hp) id List.mem_cons_self
      hid.symm
  · rintro ⟨l₁, l₂, hsplit, -⟩
    rw [hsplit]
    exact List.mem_append_right l₁ List.mem_cons_self

theorem Sound.holds (h : g.Sound I) (hid : g.find? id = some r) : I.holds r :=
  h.records _ (h.mem_entries_iff.2 hid)

theorem Sound.lt_fresh (h : g.Sound I) (hid : g.key? id = some k) : id < g.fresh := by
  obtain ⟨r, hr, -⟩ := exists_of_key? hid
  exact h.ids _ (h.mem_entries_iff.2 hr)

/-- **A record is found under its own key**, and no other one is. -/
theorem Sound.lookup_eq_some_iff (h : g.Sound I) :
    g.lookup k.1 k.2 = some id ↔ g.key? id = some k := by
  have hkey : ∀ r : Record, (r.source == k.1 && r.flags == k.2) = true ↔ r.key = k := by
    intro r
    rw [Bool.and_eq_true, beq_iff_eq, beq_iff_eq, key, Prod.ext_iff]
  constructor
  · intro hlookup
    obtain ⟨⟨id', r⟩, hfind, rfl⟩ := Option.map_eq_some_iff.1 hlookup
    have hr := h.mem_entries_iff.1 (List.mem_of_find?_eq_some hfind)
    have hfound := List.find?_some hfind
    rw [key?_of_find? hr, (hkey r).1 hfound]
  · intro hid
    obtain ⟨r, hr, hrk⟩ := exists_of_key? hid
    have hmem := h.mem_entries_iff.2 hr
    cases hlookup : g.lookup k.1 k.2 with
    | none =>
      have hnone := List.find?_eq_none.1 (Option.map_eq_none_iff.1 hlookup) _ hmem
      exact absurd ((hkey r).2 hrk) hnone
    | some id' =>
      -- two entries with one key are the same entry
      obtain ⟨e, hfind, rfl⟩ := Option.map_eq_some_iff.1 hlookup
      have hfound := List.find?_some hfind
      have hsame : e.2.key = r.key := ((hkey e.2).1 hfound).trans hrk.symm
      have he := List.inj_on_of_nodup_map h.nodup_keys (List.mem_of_find?_eq_some hfind) hmem hsame
      rw [he]

theorem Sound.lookup_of_find? (h : g.Sound I) (hid : g.find? id = some r) :
    g.lookup r.source r.flags = some id :=
  h.lookup_eq_some_iff.2 (key?_of_find? hid)

theorem Sound.eq_of_key? {id' : RecordId} (h : g.Sound I) (hid : g.key? id = some k)
    (hid' : g.key? id' = some k) : id = id' :=
  Option.some.inj ((h.lookup_eq_some_iff.2 hid).symm.trans (h.lookup_eq_some_iff.2 hid'))

/-! ### Registries later on -/

/-- The second registry is the first one later on: no identity that was given out has got another
key, and the identities to keep have theirs. -/
structure Follows (kept : RecordId → Prop) (g g' : Registry) : Prop where
  fresh_le : g.fresh ≤ g'.fresh
  old : ∀ id k, id < g.fresh → g'.key? id = some k → g.key? id = some k
  kept : ∀ id k, kept id → g.key? id = some k → g'.key? id = some k

variable {kept : RecordId → Prop}

/-- The second registry is the first one later on, with nothing removed. -/
abbrev Grows (g g' : Registry) : Prop := Follows (fun _ => True) g g'

theorem Follows.of_key?_eq (hfresh : g'.fresh = g.fresh) (hkey : ∀ id, g'.key? id = g.key? id) :
    Follows kept g g' where
  fresh_le := hfresh.ge
  old id _ _ h := hkey id ▸ h
  kept id _ _ h := (hkey id).trans h

theorem Follows.refl (g : Registry) : Follows kept g g := .of_key?_eq rfl fun _ => rfl

theorem Follows.mono {kept' : RecordId → Prop} (h : Follows kept g g')
    (hkept : ∀ id, kept' id → kept id) : Follows kept' g g' :=
  ⟨h.fresh_le, h.old, fun id k hid => h.kept id k (hkept id hid)⟩

theorem Follows.trans {g'' : Registry} (h : Follows kept g g') (h' : Follows kept g' g'') :
    Follows kept g g'' where
  fresh_le := h.fresh_le.trans h'.fresh_le
  old id k hid hk := h.old id k hid (h'.old id k (Nat.lt_of_lt_of_le hid h.fresh_le) hk)
  kept id k hid hk := h'.kept id k hid (h.kept id k hid hk)

/-! ### Changes of records -/

/-- The registry with every record changed. -/
def mapRecords (g : Registry) (f : RecordId → Record → Record) : Registry :=
  { g with entries := g.entries.map fun (i, r) => (i, f i r) }

theorem find?_mapRecords (g : Registry) (f : RecordId → Record → Record) (id : RecordId) :
    (g.mapRecords f).find? id = (g.find? id).map (f id) := by
  rw [find?, find?, mapRecords]
  generalize g.entries = entries
  induction entries with
  | nil => rfl
  | cons e entries ih =>
    rw [List.map_cons, List.lookup_cons, List.lookup_cons]
    cases hid : id == e.1 with
    | true => rw [beq_iff_eq.1 hid]; rfl
    | false => exact ih

section MapRecords

variable {f : RecordId → Record → Record}

theorem grows_mapRecords (hkey : ∀ i r, (f i r).key = r.key) : g.Grows (g.mapRecords f) := by
  refine .of_key?_eq rfl fun id => ?_
  rw [key?, find?_mapRecords, key?]
  cases g.find? id with
  | none => rfl
  | some r => exact congrArg some (hkey id r)

theorem Sound.mapRecords (h : g.Sound I) (hkey : ∀ i r, (f i r).key = r.key)
    (hf : ∀ i r, (i, r) ∈ g.entries → I.holds (f i r)) : (g.mapRecords f).Sound I := by
  have hids : (g.mapRecords f).entries.map (·.1) = g.entries.map (·.1) := by
    rw [Registry.mapRecords, List.map_map]
    rfl
  have hkeys : (g.mapRecords f).entries.map (·.2.key) = g.entries.map (·.2.key) := by
    rw [Registry.mapRecords, List.map_map]
    exact List.map_congr_left fun e _ => hkey e.1 e.2
  refine ⟨fun e he => ?_, hids ▸ h.nodup_ids, hkeys ▸ h.nodup_keys, fun e he => ?_⟩
  · obtain ⟨⟨i, r⟩, hmem, rfl⟩ := List.mem_map.1 he
    exact h.ids (i, r) hmem
  · obtain ⟨⟨i, r⟩, hmem, rfl⟩ := List.mem_map.1 he
    exact hf i r hmem

end MapRecords

/-- A registry that differs in nothing but what it knows of barriers and shapes. -/
theorem Sound.congr (h : g.Sound I) (hentries : g'.entries = g.entries)
    (hfresh : g'.fresh = g.fresh) : g'.Sound I ∧ g.Grows g' := by
  refine ⟨⟨?_, hentries ▸ h.nodup_ids, hentries ▸ h.nodup_keys, hentries ▸ h.records⟩, ?_⟩
  · rw [hentries, hfresh]
    exact h.ids
  · refine .of_key?_eq hfresh fun id => ?_
    rw [key?, key?, find?, find?, hentries]

/-- The barrier is switched, or the shape of match results is made. -/
theorem Sound.switch_spec (h : g.Sound I) (barrier hasTemplate : Bool) :
    ({ g with barrier, hasTemplate } : Registry).Sound I ∧
      g.Grows { g with barrier, hasTemplate } :=
  h.congr rfl rfl

/-- One record is changed, and keeps its key. -/
theorem Sound.modify_spec {f : Record → Record} (h : g.Sound I)
    (hkey : ∀ r, g.find? id = some r → (f r).key = r.key)
    (hf : ∀ r, g.find? id = some r → I.holds (f r)) :
    (g.modify id f).Sound I ∧ g.Grows (g.modify id f) := by
  classical
  -- away from the record in question the change may be taken to be none
  let f' : RecordId → Record → Record := fun i r =>
    if i = id ∧ g.find? id = some r then f r else r
  have heq : g.modify id f = g.mapRecords f' := by
    rw [modify, Registry.mapRecords]
    congr 1
    refine List.map_congr_left fun ⟨i, r⟩ he => ?_
    by_cases hi : i = id
    · subst hi
      have hr := h.mem_entries_iff.1 he
      simp only [f', hr, and_self, if_true]
    · simp only [f', hi, false_and, if_false]
  have hkey' : ∀ i r, (f' i r).key = r.key := by
    intro i r
    simp only [f']
    split
    · next hr => exact hkey r hr.2
    · rfl
  rw [heq]
  refine ⟨h.mapRecords hkey' fun i r hmem => ?_, grows_mapRecords hkey'⟩
  simp only [f']
  split
  · next hr => exact hf r hr.2
  · exact h.records _ hmem

theorem Sound.put_spec {r' : Record} (h : g.Sound I) (hid : g.find? id = some r)
    (hkey : r'.key = r.key) (hr' : I.holds r') :
    (g.put id r').Sound I ∧ g.Grows (g.put id r') := by
  refine h.modify_spec (fun r₁ h₁ => ?_) fun _ _ => hr'
  obtain rfl := Option.some.inj (hid.symm.trans h₁)
  exact hkey

theorem Sound.setMark_spec (h : g.Sound I) (id : RecordId) (on : Bool) :
    (g.setMark id on).Sound I ∧ g.Grows (g.setMark id on) :=
  h.modify_spec (fun _ _ => rfl) fun r hr => I.mark r (h.holds hr) on

theorem Sound.markIfBarrier_spec (h : g.Sound I) (id : RecordId) :
    (g.markIfBarrier id).Sound I ∧ g.Grows (g.markIfBarrier id) := by
  rw [markIfBarrier]
  split
  · exact h.setMark_spec id true
  · exact ⟨h, .refl g⟩

theorem Sound.trace_spec (h : g.Sound I) (id : RecordId) (tracer : Tracer) :
    (g.trace id tracer).2.Sound I ∧ g.Grows (g.trace id tracer).2 := by
  rw [trace]
  cases hid : g.find? id with
  | none => exact ⟨h, .refl g⟩
  | some r =>
    refine h.put_spec hid ?_ ?_
    · rw [Record.trace]
      dsimp only
      split <;> rfl
    · rw [Record.trace]
      dsimp only
      split
      · exact I.mark r (h.holds hid) true
      · exact h.holds hid

/-! ### Asking for records -/

theorem find?_add (g : Registry) (k : String × Flags) (id : RecordId) :
    (g.add k.1 k.2).2.find? id =
      (g.find? id).or (if id = g.fresh then some { source := k.1, flags := k.2 } else none) := by
  rw [find?, find?, add, List.lookup_append, List.lookup_cons]
  by_cases hid : id = g.fresh
  · rw [if_pos hid, beq_iff_eq.2 hid]
  · rw [if_neg hid, beq_eq_false_iff_ne.2 hid]
    rfl

/-- The next identity has not been given out. -/
theorem Sound.find?_fresh (h : g.Sound I) : g.find? g.fresh = none := by
  cases hfresh : g.find? g.fresh with
  | none => rfl
  | some r => exact absurd (h.lt_fresh (key?_of_find? hfresh)) (Nat.lt_irrefl _)

/-- What is not found is registered under no identity. -/
theorem Sound.key_ne_of_lookup (h : g.Sound I) (hnone : g.lookup k.1 k.2 = none)
    {e : RecordId × Record} (he : e ∈ g.entries) : e.2.key ≠ k := by
  intro hek
  have hid : g.lookup e.2.key.1 e.2.key.2 = some e.1 :=
    h.lookup_of_find? (h.mem_entries_iff.1 he)
  rw [hek, hnone] at hid
  cases hid

/-- A new record keeps identities and keys unique. -/
theorem Sound.add (h : g.Sound I) (hnone : g.lookup k.1 k.2 = none) :
    (g.add k.1 k.2).2.Sound I := by
  refine ⟨fun e he => ?_, ?_, ?_, fun e he => ?_⟩
  · rcases List.mem_append.1 he with hold | hadded
    · exact Nat.lt_succ_of_lt (h.ids e hold)
    · obtain rfl := List.mem_singleton.1 hadded
      exact Nat.lt_succ_self _
  · rw [Registry.add, List.map_append, List.nodup_append]
    refine ⟨h.nodup_ids, List.nodup_singleton _, fun i hi j hj hij => ?_⟩
    obtain ⟨e, he, rfl⟩ := List.mem_map.1 hi
    obtain rfl := List.mem_singleton.1 hj
    exact absurd (h.ids e he) (hij ▸ Nat.lt_irrefl _)
  · rw [Registry.add, List.map_append, List.nodup_append]
    refine ⟨h.nodup_keys, List.nodup_singleton _, fun i hi j hj hij => ?_⟩
    obtain ⟨e, he, rfl⟩ := List.mem_map.1 hi
    obtain rfl := List.mem_singleton.1 hj
    exact h.key_ne_of_lookup hnone he hij
  · rcases List.mem_append.1 he with hold | hadded
    · exact h.records e hold
    · obtain rfl := List.mem_singleton.1 hadded
      exact I.fresh k.1 k.2

/-- A new record gets a new identity, and leaves the others as they are. -/
theorem Sound.add_spec (h : g.Sound I) (hnone : g.lookup k.1 k.2 = none) :
    (g.add k.1 k.2).2.Sound I ∧ g.Grows (g.add k.1 k.2).2 ∧
      (g.add k.1 k.2).2.key? (g.add k.1 k.2).1 = some k := by
  refine ⟨h.add hnone, ⟨Nat.le_succ _, ?_, ?_⟩, ?_⟩
  · intro id k' hid hk
    rw [key?, find?_add, if_neg (Nat.ne_of_lt hid), Option.or_none] at hk
    exact hk
  · intro id k' _ hk
    obtain ⟨r, hr, rfl⟩ := exists_of_key? hk
    rw [key?, find?_add, hr]
    rfl
  · show (g.add k.1 k.2).2.key? g.fresh = some k
    rw [key?, find?_add, h.find?_fresh, if_pos rfl]
    rfl

/-- **What is asked for is registered under what it was asked for**, and nothing is removed. -/
theorem Sound.get_spec (h : g.Sound I) (k : String × Flags) :
    (g.get k.1 k.2).2.Sound I ∧ g.Grows (g.get k.1 k.2).2 ∧
      (g.get k.1 k.2).2.key? (g.get k.1 k.2).1 = some k := by
  rw [get]
  cases hlookup : g.lookup k.1 k.2 with
  | some id =>
    obtain ⟨hsound, hgrows⟩ := h.markIfBarrier_spec id
    exact ⟨hsound, hgrows, hgrows.kept id k trivial (h.lookup_eq_some_iff.1 hlookup)⟩
  | none =>
    obtain ⟨hsound, hgrows, hkey⟩ := h.add_spec hlookup
    obtain ⟨hsound', hgrows'⟩ := hsound.markIfBarrier_spec (g.add k.1 k.2).1
    exact ⟨hsound', hgrows.trans hgrows', hgrows'.kept _ k trivial hkey⟩

/-! ### Sweeps -/

/-- **A sweep gives no identity another key, and keeps the records that are held.** -/
theorem Sound.sweep_spec (h : g.Sound I) (held : List RecordId) (templateHeld : Bool)
    (heap : HeapState) :
    (g.sweep held templateHeld heap).2.Sound I ∧
      g.Follows (· ∈ held) (g.sweep held templateHeld heap).2 := by
  -- first the entries are filtered, then the marks are cleared
  let g₁ : Registry := { g with entries := g.entries.filter (keeps held heap) }
  have hmem : ∀ e ∈ g₁.entries, e ∈ g.entries := fun e he => (List.mem_filter.1 he).1
  have h₁ : g₁.Sound I :=
    ⟨fun e he => h.ids e (hmem e he), h.nodup_ids.sublist (List.filter_sublist.map _),
      h.nodup_keys.sublist (List.filter_sublist.map _), fun e he => h.records e (hmem e he)⟩
  have hfollows : g.Follows (· ∈ held) g₁ := by
    refine ⟨Nat.le_refl _, fun id k _ hk => ?_, fun id k hid hk => ?_⟩
    · obtain ⟨r, hr, rfl⟩ := exists_of_key? hk
      exact key?_of_find? (h.mem_entries_iff.1 (hmem _ (h₁.mem_entries_iff.2 hr)))
    · obtain ⟨r, hr, rfl⟩ := exists_of_key? hk
      refine key?_of_find? (h₁.mem_entries_iff.1 (List.mem_filter.2 ⟨h.mem_entries_iff.2 hr, ?_⟩))
      rw [keeps, List.contains_iff_mem.2 hid, Bool.true_or]
  have hunmark : ∀ (i : RecordId) (r : Record), ({ r with marked := false } : Record).key = r.key :=
    fun _ _ => rfl
  have h₂ : (g₁.mapRecords fun _ r => { r with marked := false }).Sound I :=
    h₁.mapRecords hunmark fun i r hr => I.mark r (h₁.records _ hr) false
  have hsame : (g.sweep held templateHeld heap).2.Sound I ∧
      (g₁.mapRecords fun _ r => { r with marked := false }).Grows
        (g.sweep held templateHeld heap).2 :=
    h₂.congr rfl rfl
  have hgrows := (grows_mapRecords hunmark).trans hsame.2
  exact ⟨hsame.1, hfollows.trans (hgrows.mono fun _ _ => trivial)⟩

end Registry

end RegexEngine

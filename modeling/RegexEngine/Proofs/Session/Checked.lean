import RegexEngine.Proofs.Engine.Codec
import RegexEngine.Proofs.Engine.Compilation
import RegexEngine.Proofs.Pattern.Multiline
import RegexEngine.Proofs.Session.Identity

/-!
# Values with checked sources

A value is made from a source only after the source was found to be a pattern.  This is looked at
once and under no flags, while the record of the value is parsed later, and again after it has been
removed, under the flags of the value.  Since flags decide nothing but what `^` and `$` stand for,
and since no step changes the source of a value, the one look is enough.

* `Session.checkedAfter`, `Session.checkedBy` — the names that stand for checked values.
* `Session.KeepsSources` — no named value is lost or gets another source.
* `Session.Consistent.checked_step`, `Session.Consistent.checked_run` — **what a step, and a run,
  does to checked values.**
* `Session.wellformed_of_run` — **checked values are never refused because of their source.**
-/

namespace RegexEngine

/-! ### Names -/

namespace Names

variable {α : Type} {names : Names α} {name other : String} {a : α}

theorem find?_remove_of_ne (h : other ≠ name) :
    (names.remove name).find? other = names.find? other := by
  unfold find? remove
  induction names with
  | nil => rfl
  | cons p names ih =>
    rw [List.filter_cons, List.lookup_cons]
    by_cases hp : p.1 = name
    · rw [if_neg (by simpa using hp), ih, beq_eq_false_iff_ne.2 (hp ▸ h)]
    · rw [if_pos (by simpa using hp), List.lookup_cons, ih]

theorem find?_put_of_ne (h : other ≠ name) :
    (names.put name a).find? other = names.find? other := by
  rw [put, find?, List.lookup_cons, beq_eq_false_iff_ne.2 h]
  exact find?_remove_of_ne h

end Names

/-! ### Values -/

namespace Value

variable {I : Record.Invariant} {o : Options} {eng : Engine} {v : Value}

/-- In an engine with candid code a value with a checked source is not refused because of its
source. -/
theorem search_ne_malformed (h : eng.Regular .candid o) (hv : v.Linked eng.registry)
    (hcheck : checkSource v.source = .ok ()) (t : Text) (wantPairs : Bool) (offset : Nat)
    (text : String) :
    (v.search eng t wantPairs).result ≠ .error (.error (.malformed offset text)) := by
  obtain ⟨hupdates, hkey⟩ := shared_spec h hv
  have hregular : (v.shared eng).2.2.Regular .candid o := hupdates.becomes.regular
  rw [search_eq]
  rcases hx : v.shared eng with ⟨id, v₁, eng₁⟩
  rw [hx] at hkey hregular
  obtain ⟨r, hr, hrkey⟩ := Registry.exists_of_key? hkey
  have hsource : r.source = v.source := congrArg Prod.fst hrkey
  dsimp only at hr ⊢
  split
  · simp
  intro hresult
  have hexecute : (eng₁.execute id t v₁.searchStart (v₁.searchBuffer wantPairs)).result =
      .error (.error (.malformed offset text)) := by
    unfold conclude at hresult
    split at hresult
    · next hf =>
      rw [hf]
      exact congrArg Except.error (Except.error.inj hresult)
    · cases hresult
    · cases hresult
  rw [Engine.execute, hr] at hexecute
  rcases Record.refusal_of_execute (hregular.registry.holds hr) hregular.generator hexecute with
    ⟨f, hparse, -⟩ | hrefusal
  · -- the record is parsed under its own flags
    obtain ⟨p, hp⟩ := exists_parse_of_checkSource hcheck r.flags
    rw [hsource, hp] at hparse
    cases hparse
  · exact hrefusal.ne_malformed offset text rfl

theorem exec_ne_malformed (h : eng.Regular .candid o) (hv : v.Linked eng.registry)
    (hcheck : checkSource v.source = .ok ()) (t : Text) (offset : Nat) (text : String) :
    (v.exec eng t).result ≠ .error (.error (.malformed offset text)) := by
  have hsearch := search_ne_malformed h hv hcheck t true offset text
  unfold exec
  dsimp only
  split
  · next hf =>
    intro hresult
    exact hsearch (hf.trans (congrArg Except.error (Except.error.inj hresult)))
  · simp
  · simp

theorem test_ne_malformed (h : eng.Regular .candid o) (hv : v.Linked eng.registry)
    (hcheck : checkSource v.source = .ok ()) (t : Text) (offset : Nat) (text : String) :
    (v.test eng t).result ≠ .error (.error (.malformed offset text)) := by
  have hsearch := search_ne_malformed h hv hcheck t false offset text
  unfold test
  dsimp only
  intro hresult
  cases hfound : (v.search eng t false).result with
  | error f =>
    rw [hfound] at hresult hsearch
    exact hsearch (congrArg Except.error (Except.error.inj hresult))
  | ok found =>
    rw [hfound] at hresult
    cases hresult

theorem checkSource_of_createPlain {source : String} {flags : Flags}
    (h : createPlain source flags = .ok v) : checkSource v.source = .ok () := by
  obtain ⟨hcheck, rfl⟩ := createPlain_eq_ok_iff.1 h
  exact hcheck

theorem checkSource_of_createWithLetters {source letters : String}
    (h : createWithLetters eng source letters = .ok v) : checkSource v.source = .ok () := by
  unfold createWithLetters at h
  cases hflags : Flags.parse letters with
  | error e =>
    rw [hflags] at h
    cases h
  | ok flags =>
    rw [hflags] at h
    exact checkSource_of_createPlain h

/-- A value that is created with flags is the one that is created with their letters. -/
theorem createWithLetters_render (eng : Engine) (source : String) (flags : Flags) :
    createWithLetters eng source flags.render = create eng source flags := by
  rcases flags with ⟨_ | _, _ | _, _ | _, _ | _⟩ <;> rfl

end Value

namespace Session

variable {I : Record.Invariant} {o : Options} {s s' s'' : Session} {name value guard : String}
  {names : List String}

/-! ### Checked names -/

/-- Whether a step has made a value. -/
def Answer.isMade : Answer → Bool
  | .value .. | .cloned .. | .decoded (.ok _) _ => true
  | _ => false

/-- The checked names after an answer to a step that makes a value under `name`. -/
def noteMade (names : List String) (name : String) (checked : Bool) (a : Answer) : List String :=
  if a.isMade then if checked then name :: names else names.filter (· != name) else names

/-- The names that stand for values with checked sources, after one more step.  What is made from a
source is checked, what is made from a guarded record is not, and a copy is if its original is. -/
def checkedAfter (s : Session) (names : List String) (st : Step) : List String :=
  match st with
  | .create name _ _ => noteMade names name true (s.step st).2
  | .createPlain name _ _ => noteMade names name true (s.step st).2
  | .rebuild name _ => noteMade names name true (s.step st).2
  | .decode name _ => noteMade names name true (s.step st).2
  | .clone name value => noteMade names name (names.contains value) (s.step st).2
  | .ofGuard name _ => noteMade names name false (s.step st).2
  | .dropValue name => names.filter (· != name)
  | _ => names

/-- The names that stand for values with checked sources, after some steps. -/
def checkedBy (s : Session) (names : List String) : List Step → List String
  | [] => names
  | st :: steps => (s.step st).1.checkedBy (s.checkedAfter names st) steps

/-- The name stands for a value whose source is a pattern. -/
def Checked (s : Session) (name : String) : Prop :=
  ∃ v, s.values.find? name = some v ∧ checkSource v.source = .ok ()

theorem checked_replaceValue {v : Value} (hcheck : checkSource v.source = .ok ()) :
    (s.replaceValue name v).Checked name :=
  ⟨v, Names.find?_put_self _ _ _, hcheck⟩

theorem Checked.replaceValue_of_ne {v : Value} (h : s.Checked name) (hne : name ≠ value) :
    (s.replaceValue value v).Checked name := by
  obtain ⟨w, hw, hcheck⟩ := h
  exact ⟨w, (Names.find?_put_of_ne hne).trans hw, hcheck⟩

/-- What stands under the checked names afterwards is a value with a checked source. -/
def Notes (names : List String) (name : String) (checked : Bool) (x : Session × Answer) : Prop :=
  ∀ n ∈ noteMade names name checked x.2, x.1.Checked n

namespace Notes

variable {checked : Bool}

/-- A value is made, and saved. -/
theorem replaceValue {v : Value} {a : Answer} (h : ∀ n ∈ names, s.Checked n) (ha : a.isMade = true)
    (hv : checked = true → checkSource v.source = .ok ()) :
    Notes names name checked (s.replaceValue name v, a) := by
  intro n hn
  unfold noteMade at hn
  rw [if_pos ha] at hn
  by_cases hname : n = name
  · subst hname
    cases checked with
    | true => exact checked_replaceValue (hv rfl)
    | false => simp at hn
  · refine (h n ?_).replaceValue_of_ne hname
    split at hn
    · exact (List.mem_cons.1 hn).resolve_left hname
    · exact List.mem_of_mem_filter hn

/-- Nothing is made. -/
theorem of_not_isMade {a : Answer} (h : ∀ n ∈ names, s.Checked n) (ha : a.isMade = false) :
    Notes names name checked (s, a) := by
  intro n hn
  unfold noteMade at hn
  rw [ha] at hn
  exact h n hn

theorem putValue {v : Except RegexError Value} (h : ∀ n ∈ names, s.Checked n)
    (hv : ∀ v', v = .ok v' → checked = true → checkSource v'.source = .ok ()) :
    Notes names name checked (s.putValue name v) := by
  cases v with
  | error e => exact of_not_isMade h rfl
  | ok v => exact replaceValue h rfl (hv v rfl)

theorem withValue {k : Value → Session × Answer} (h : ∀ n ∈ names, s.Checked n)
    (hk : ∀ v, s.values.find? value = some v → Notes names name checked (k v)) :
    Notes names name checked (s.withValue value k) := by
  unfold Session.withValue
  cases hv : s.values.find? value with
  | none => exact of_not_isMade h rfl
  | some v => exact hk v hv

theorem withGuard {k : RecordId → Record → Session × Answer} (h : ∀ n ∈ names, s.Checked n)
    (hk : ∀ id r, Notes names name checked (k id r)) :
    Notes names name checked (s.withGuard guard k) := by
  unfold Session.withGuard
  cases s.guards.find? guard with
  | none => exact of_not_isMade h rfl
  | some id =>
    dsimp only
    cases s.registry.find? id with
    | none => exact of_not_isMade h rfl
    | some r => exact hk id r

end Notes

/-! ### Steps that make no value -/

/-- What was a value with a checked source is still one. -/
def KeepsSources (s s' : Session) : Prop :=
  ∀ name v, s.values.find? name = some v →
    ∃ v', s'.values.find? name = some v' ∧ v'.source = v.source

namespace KeepsSources

theorem of_values_eq (h : s'.values = s.values) : s.KeepsSources s' :=
  fun _ v hv => ⟨v, h ▸ hv, rfl⟩

theorem refl (s : Session) : s.KeepsSources s := of_values_eq rfl

theorem checked (h : s.KeepsSources s') (hn : s.Checked name) : s'.Checked name := by
  obtain ⟨v, hv, hcheck⟩ := hn
  obtain ⟨v', hv', hsource⟩ := h name v hv
  exact ⟨v', hv', hsource ▸ hcheck⟩

/-- A value is saved under the name it has. -/
theorem replaceValue {v v' : Value} (hv : s.values.find? value = some v)
    (hvalues : s'.values = s.values) (hsource : v'.source = v.source) :
    s.KeepsSources (s'.replaceValue value v') := by
  intro n w hw
  by_cases hn : n = value
  · subst hn
    obtain rfl := Option.some.inj (hv.symm.trans hw)
    exact ⟨v', Names.find?_put_self _ _ _, hsource⟩
  · refine ⟨w, (Names.find?_put_of_ne hn).trans ?_, rfl⟩
    rw [hvalues, hw]

theorem withGuard {k : RecordId → Record → Session × Answer}
    (hk : ∀ id r, s.KeepsSources (k id r).1) : s.KeepsSources (s.withGuard guard k).1 := by
  unfold Session.withGuard
  split
  · exact refl s
  · split
    · exact refl s
    · exact hk _ _

theorem withValue {k : Value → Session × Answer}
    (hk : ∀ v, s.values.find? value = some v → s.KeepsSources (k v).1) :
    s.KeepsSources (s.withValue value k).1 := by
  unfold Session.withValue
  split
  · exact refl s
  · next hv => exact hk _ hv

theorem getGuard {source : String} {flags : Except RegexError Flags} :
    s.KeepsSources (s.getGuard name source flags).1 := by
  cases flags <;> exact of_values_eq rfl

theorem guardExisting {source letters : String} :
    s.KeepsSources (s.guardExisting name source letters).1 := by
  unfold Session.guardExisting
  split
  · exact refl s
  · split
    · exact refl s
    · exact of_values_eq rfl

theorem compileRecord {mode : Mode} {width : Width} {g : Generator} {force : Bool} :
    s.KeepsSources (s.compileRecord guard mode width g force).1 := by
  apply withGuard
  intro id r
  dsimp only
  split <;> exact of_values_eq rfl

theorem executeRecord {t : Text} {start : Nat} {buffer : Option String} {fixed : Bool} :
    s.KeepsSources (s.executeRecord guard t start buffer fixed).1 := by
  apply withGuard
  intro id r
  dsimp only
  split <;> exact of_values_eq rfl

end KeepsSources

namespace Consistent

/-! ### Steps that make no value -/

theorem keepsSources_execValue {t : Text} {keep : Option String} (h : s.Consistent I o) :
    s.KeepsSources (s.execValue value t keep).1 := by
  apply KeepsSources.withValue
  intro v hv
  have hkey := (Value.exec_spec h.engine (h.values _ (Names.mem_of_find? hv)) t).key
  have hs : s.KeepsSources (({ s with engine := (v.exec s.engine t).engine } : Session).replaceValue
      value (v.exec s.engine t).value) := .replaceValue hv rfl (congrArg Prod.fst hkey)
  dsimp only
  split
  · exact hs
  · exact hs

theorem keepsSources_testValue {t : Text} (h : s.Consistent I o) :
    s.KeepsSources (s.testValue value t).1 := by
  apply KeepsSources.withValue
  intro v hv
  have hkey := (Value.test_spec h.engine (h.values _ (Names.mem_of_find? hv)) t).key
  exact .replaceValue hv rfl (congrArg Prod.fst hkey)

theorem keepsSources_guardOfValue (h : s.Consistent I o) :
    s.KeepsSources (s.guardOfValue name value).1 := by
  apply KeepsSources.withValue
  intro v hv
  obtain ⟨hupdates, -⟩ := Value.shared_spec h.engine (h.values _ (Names.mem_of_find? hv))
  exact .replaceValue hv rfl (congrArg Prod.fst hupdates.key)

theorem keepsSources_traceNamed {tracer : Tracer} (h : s.Consistent I o) :
    s.KeepsSources (s.traceNamed value tracer).1 := by
  apply KeepsSources.withValue
  intro v hv
  obtain ⟨-, -, hkey, -⟩ :=
    Value.trace_spec h.engine.registry (h.values _ (Names.mem_of_find? hv)) tracer
  exact .replaceValue hv rfl (congrArg Prod.fst hkey)

/-! ### Steps that make values -/

theorem notes_decodeValue {bytes : Option (List UInt8)} (h : ∀ n ∈ names, s.Checked n) :
    Notes names name true (s.decodeValue name bytes) := by
  unfold Session.decodeValue
  rcases hx : Codec.decode (bytes.getD s.encoded) with ⟨result, rest⟩
  have hs : ∀ n ∈ names, (if bytes.isSome then s else { s with encoded := rest }).Checked n := by
    split <;> exact h
  cases result with
  | error e => exact .of_not_isMade hs rfl
  | ok v => exact .replaceValue hs rfl fun _ => (Codec.encode_of_decode hx).1

/-- A copy has the source of its original. -/
theorem notes_cloneValue (hs : s.Consistent I o) (h : ∀ n ∈ names, s.Checked n) :
    Notes names name (names.contains value) (s.cloneValue name value) := by
  apply Notes.withValue h
  intro v hv
  obtain ⟨hupdates, -, hsource⟩ := Value.clone_spec hs.engine (hs.values _ (Names.mem_of_find? hv))
  have hkeeps : s.KeepsSources (({ s with engine := (v.clone s.engine).2.2 } : Session).replaceValue
      value (v.clone s.engine).2.1) := .replaceValue hv rfl (congrArg Prod.fst hupdates.key)
  refine .replaceValue (fun n hn => hkeeps.checked (h n hn)) rfl fun hmem => ?_
  obtain ⟨w, hw, hcheck⟩ := h value (List.contains_iff_mem.1 hmem)
  obtain rfl := Option.some.inj (hv.symm.trans hw)
  exact (congrArg checkSource hsource).trans hcheck

/-! ### Steps -/

/-- **What a step does to checked values**: those that are left, and those that are made from a
checked source, are checked. -/
theorem checked_step (hs : s.Consistent I o) (h : ∀ n ∈ names, s.Checked n) (st : Step) :
    ∀ n ∈ s.checkedAfter names st, (s.step st).1.Checked n := by
  have hkept : s.KeepsSources (s.step st).1 → ∀ n ∈ names, (s.step st).1.Checked n :=
    fun hkeeps n hn => hkeeps.checked (h n hn)
  cases st with
  | create name source letters =>
    exact Notes.putValue h fun v hv _ => Value.checkSource_of_createWithLetters hv
  | createPlain name source letters =>
    refine Notes.putValue h fun v hv _ => ?_
    cases hflags : Flags.parse letters with
    | error e =>
      rw [hflags] at hv
      cases hv
    | ok flags =>
      rw [hflags] at hv
      exact Value.checkSource_of_createPlain hv
  | ofGuard name guard =>
    refine Notes.withGuard h fun id r => Notes.putValue h fun v _ hfalse => ?_
    cases hfalse
  | clone name value => exact hs.notes_cloneValue h
  | rebuild name value =>
    refine Notes.withValue h fun w _ => Notes.putValue h fun v hv _ => ?_
    exact Value.checkSource_of_createPlain hv
  | decode name bytes => exact notes_decodeValue h
  | dropValue value =>
    intro n hn
    obtain ⟨hn, hne⟩ := List.mem_filter.1 hn
    obtain ⟨v, hv, hcheck⟩ := h n hn
    exact ⟨v, (Names.find?_remove_of_ne (bne_iff_ne.1 hne)).trans hv, hcheck⟩
  | guard name source letters => exact hkept .getGuard
  | guardWord name source word => exact hkept .getGuard
  | guardExisting name source letters => exact hkept .guardExisting
  | sweep compacting sources code drop =>
    apply hkept
    unfold Session.step
    dsimp only
    split
    · exact .refl s
    · exact .of_values_eq rfl
  | compile guard mode width generator force => exact hkept .compileRecord
  | execute guard text start buffer fixed => exact hkept .executeRecord
  | setStatics letters =>
    apply hkept
    unfold Session.step
    dsimp only
    split
    · exact .refl s
    · exact .of_values_eq rfl
  | setLastIndex value n => exact hkept (.withValue fun v hv => .replaceValue hv rfl rfl)
  | guardValue name value => exact hkept hs.keepsSources_guardOfValue
  | exec value text keep => exact hkept hs.keepsSources_execValue
  | test value text => exact hkept hs.keepsSources_testValue
  | traceValue value tracer => exact hkept hs.keepsSources_traceNamed
  | encode value =>
    refine hkept (.withValue fun v _ => ?_)
    split
    · exact .refl s
    · exact .of_values_eq rfl
  | cloneGuard | showRecord | setMark | trace =>
    exact hkept (.withGuard fun _ _ => .of_values_eq rfl)
  | showValue value => exact hkept (.withValue fun _ _ => .refl s)
  | _ => exact hkept (.of_values_eq rfl)

/-- **So does a run.** -/
theorem checked_run (hs : s.Consistent I o) (h : ∀ n ∈ names, s.Checked n) {steps : List Step}
    (hsteps : ∀ st ∈ steps, st.Permitted I) :
    ∀ n ∈ s.checkedBy names steps, (s.run steps).Checked n := by
  induction steps generalizing s names with
  | nil => exact h
  | cons st steps ih =>
    obtain ⟨hst, hsteps⟩ := List.forall_mem_cons.1 hsteps
    exact ih (hs.step hst) (hs.checked_step h st) hsteps

end Consistent

/-! ### Whole sessions -/

/-- **Checked values are never refused because of their source.**  A text is read alike under any
two sets of flags: it has one flaw at one place, or it is a pattern with as many groups and with the
same tree, but for conditions on lines in place of conditions on the whole text.  So after any run,
with values linked anew and copied under other flags, a value that was made from a checked source,
or copied from one that was, is still there under its name, and neither matching nor testing a text
reports a flaw of its source.  This takes in values that are created with flags, since these are
created with the letters of the flags as well.  Generators that the run has brought, and their
routines, are taken to be candid. -/
theorem wellformed_of_run (source : String) (flags flags' : Flags) (o : Options)
    (steps : List Step) :
    ((∃ f, parse source flags = .error f ∧ parse source flags' = .error f) ∨
        ∃ p p', parse source flags = .ok p ∧ parse source flags' = .ok p' ∧
          p.groups = p'.groups ∧ p.root.unlined = p'.root.unlined) ∧
      (∀ eng, Value.create eng source flags = Value.createWithLetters eng source flags.render) ∧
      ∀ name ∈ (Session.new o).checkedBy [] steps, ∃ v,
        ((Session.new o).run steps).values.find? name = some v ∧
          ((∀ st ∈ steps, st.Permitted .candid) → ∀ t offset text,
            (v.exec ((Session.new o).run steps).engine t).result ≠
                .error (.error (.malformed offset text)) ∧
              (v.test ((Session.new o).run steps).engine t).result ≠
                .error (.error (.malformed offset text))) := by
  refine ⟨?_, fun eng => (Value.createWithLetters_render eng source flags).symm,
    fun name hname => ?_⟩
  · have halike := unlined_parse source flags flags'
    cases hp : parse source flags with
    | error f =>
      cases hp' : parse source flags' with
      | error f' =>
        rw [hp, hp'] at halike
        obtain rfl := Except.error.inj halike
        exact Or.inl ⟨f, rfl, rfl⟩
      | ok p' =>
        rw [hp, hp'] at halike
        cases halike
    | ok p =>
      cases hp' : parse source flags' with
      | error f' =>
        rw [hp, hp'] at halike
        cases halike
      | ok p' =>
        rw [hp, hp'] at halike
        have hunlined : p.unlined = p'.unlined := Except.ok.inj halike
        obtain ⟨hroot, hgroups⟩ := Pattern.mk.inj hunlined
        exact Or.inr ⟨p, p', rfl, rfl, hgroups, hroot⟩
  · have hnew : (Session.new o).Consistent .none o := consistent_new trivial
    have hsteps : ∀ st ∈ steps, st.Permitted .none := by
      intro st _
      cases st <;> trivial
    obtain ⟨v, hv, hcheck⟩ := hnew.checked_run (fun _ hn => absurd hn List.not_mem_nil) hsteps name
      hname
    refine ⟨v, hv, fun hcandid t offset text => ?_⟩
    have hs : ((Session.new o).run steps).Consistent .candid o :=
      (consistent_new (Generator.candid_standard _ _)).run hcandid
    have hlinked := hs.values _ (Names.mem_of_find? hv)
    exact ⟨Value.exec_ne_malformed hs.engine hlinked hcheck t offset text,
      Value.test_ne_malformed hs.engine hlinked hcheck t offset text⟩

/-- The host brings a generator.  A value is created and run, and copied under other static flags; a
sweep takes the records away; the copy is rebuilt, and what was rebuilt is stored and read again.
One more value is linked to the record of a source that was never checked. -/
def copyingSteps : List Step :=
  [.setGenerator (.hosted [.overRecursed, .rest]), .create "v" "^(a)|b$" "",
    .exec "v" (.ofUnits .latin1 #[97, 98]) none, .setStatics "im", .clone "copy" "v",
    .sweep false [] [] [], .rebuild "again" "copy", .encode "again", .decode "read" none,
    .guard "g" "(a" "", .ofGuard "unchecked" "g"]

/-- The values that are checked after these steps; the copy has a dead link and flags that the value
it was copied from lacks. -/
theorem wellformed_of_run_copying :
    let s := (Session.new {}).run copyingSteps
    (∀ st ∈ copyingSteps, st.Permitted .candid) ∧
      (Session.new {}).checkedBy [] copyingSteps = ["read", "again", "copy", "v"] ∧
      s.values.find? "copy" =
        some ⟨"^(a)|b$", { ignoreCase := true, multiline := true }, 0, some 1⟩ ∧
      s.registry.find? 1 = none ∧
      (∃ v, s.values.find? "copy" = some v ∧ ∀ t offset text,
        (v.exec s.engine t).result ≠ .error (.error (.malformed offset text)) ∧
          (v.test s.engine t).result ≠ .error (.error (.malformed offset text))) ∧
      ∃ v, s.values.find? "unchecked" = some v ∧
        (v.test s.engine (.ofUnits .latin1 #[])).result =
          .error (.error (.malformed 0 "missing ) in parenthetical")) := by
  intro s
  have hnames : (Session.new {}).checkedBy [] copyingSteps = ["read", "again", "copy", "v"] := by
    decide +kernel
  have hsteps : ∀ st ∈ copyingSteps, st.Permitted .candid := by
    simp [copyingSteps, Step.Permitted, Record.Invariant.candid, Generator.candid_hosted]
  obtain ⟨-, -, hchecked⟩ := wellformed_of_run "^(a)|b$" .empty .empty {} copyingSteps
  refine ⟨hsteps, hnames, by decide +kernel, by decide +kernel, ?_, ?_⟩
  · obtain ⟨v, hv, hnever⟩ := hchecked "copy" (by rw [hnames]; simp)
    exact ⟨v, hv, hnever hsteps⟩
  · exact ⟨⟨"(a", .empty, 0, some 2⟩, by decide +kernel, by decide +kernel⟩

end Session

end RegexEngine

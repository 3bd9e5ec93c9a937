import RegexEngine.Proofs.Engine.Marks
import RegexEngine.Proofs.Session.Identity

/-!
# The barrier

While the barrier is on, the records that are asked for are marked, so that the next sweep spares
them even if nobody holds them any more.  A value that is still linked to its record does not ask
for it, and the barrier does not see this.

* `Session.handedOut` — the record that a step hands out.
* `Session.byLiveLink` — whether it is handed out without the registry being asked.
* `Session.clearsMark`, `Session.clearsMarkIn` — what clears the mark of a record.
* `Session.keepsMark_step`, `Session.keepsMark_run` — **nothing else does.**
* `Session.live_of_barrier` — **the barrier saves what is asked for.**
* `Session.swept_of_live_link` — a record that it does not save.
-/

namespace RegexEngine

open Registry (KeepsMark)

namespace Session

variable {I : Record.Invariant} {o : Options} {s : Session} {name value guard : String}
  {id : RecordId}

/-! ### Handing out records -/

/-- The record that a step hands out. -/
def handedOut (s : Session) : Step → Option RecordId
  | .guard _ source letters =>
    (Flags.parse letters).toOption.map fun flags => (s.engine.get source flags).1
  | .guardWord _ source word =>
    (Flags.ofWord word).toOption.map fun flags => (s.engine.get source flags).1
  | .guardValue _ value => (s.values.find? value).map fun v => (v.shared s.engine).1
  | .exec value _ _ => (s.values.find? value).map fun v => (v.shared s.engine).1
  | .test value _ => (s.values.find? value).map fun v => (v.shared s.engine).1
  | .clone _ value => (s.values.find? value).map fun v => (v.sharedForCopy s.engine).1
  | _ => none

/-- Whether a step takes the record from the live link of a value. -/
def byLiveLink (s : Session) : Step → Bool
  | .guardValue _ value => (s.values.find? value).any (·.isLinked s.registry)
  | .exec value _ _ => (s.values.find? value).any (·.isLinked s.registry)
  | .test value _ => (s.values.find? value).any (·.isLinked s.registry)
  | .clone _ value => (s.values.find? value).any fun v =>
      v.flags.includes s.engine.statics && v.isLinked s.registry
  | _ => false

/-- Whether a step clears the mark of a record: on demand, or because it sweeps. -/
def clearsMark (s : Session) (id : RecordId) : Step → Bool
  | .setMark guard on => !on && s.guards.find? guard == some id
  | .sweep _ _ code _ => (s.dyingSlots code).isSome
  | _ => false

/-- Whether one of several steps clears the mark of a record. -/
def clearsMarkIn (s : Session) (id : RecordId) : List Step → Bool
  | [] => false
  | st :: steps => s.clearsMark id st || (s.step st).1.clearsMarkIn id steps

/-! ### Marks that are kept -/

theorem keepsMark_withGuard {k : RecordId → Record → Session × Answer}
    (hk : ∀ i r, s.guards.find? guard = some i → s.registry.find? i = some r →
      KeepsMark id s.registry (k i r).1.registry) :
    KeepsMark id s.registry (s.withGuard guard k).1.registry := by
  unfold withGuard
  cases hguard : s.guards.find? guard with
  | none => exact .refl _
  | some i =>
    dsimp only
    cases hr : s.registry.find? i with
    | none => exact .refl _
    | some r => exact hk i r hguard hr

theorem keepsMark_withValue {k : Value → Session × Answer}
    (hk : ∀ v, KeepsMark id s.registry (k v).1.registry) :
    KeepsMark id s.registry (s.withValue value k).1.registry := by
  unfold withValue
  cases s.values.find? value with
  | none => exact .refl _
  | some v => exact hk v

theorem registry_putValue (s : Session) (name : String) (v : Except RegexError Value) :
    (s.putValue name v).1.registry = s.registry := by
  cases v <;> rfl

theorem keepsMark_getGuard {source : String} {flags : Except RegexError Flags} :
    KeepsMark id s.registry (s.getGuard name source flags).1.registry := by
  cases flags with
  | error e => exact .refl _
  | ok flags => exact .get (source, flags)

theorem keepsMark_guardExisting {source letters : String} :
    KeepsMark id s.registry (s.guardExisting name source letters).1.registry := by
  unfold guardExisting
  split
  · exact .refl _
  · split <;> exact .refl _

theorem keepsMark_compileRecord {mode : Mode} {width : Width} {g : Generator} {force : Bool} :
    KeepsMark id s.registry (s.compileRecord guard mode width g force).1.registry := by
  refine keepsMark_withGuard fun i r _ hr => ?_
  dsimp only
  split
  all_goals
    refine .of_eq (Registry.isMarked_put hr ?_)
    cases force with
    | true => exact congrArg Prod.snd (r.label_compile mode width g)
    | false => exact congrArg Prod.snd (r.label_compileIfNecessary mode width g)

theorem keepsMark_executeRecord {t : Text} {start : Nat} {buffer : Option String} {fixed : Bool} :
    KeepsMark id s.registry (s.executeRecord guard t start buffer fixed).1.registry := by
  refine keepsMark_withGuard fun i r _ _ => ?_
  dsimp only
  split <;> exact .of_eq (s.engine.isMarked_execute i t start _)

theorem keepsMark_decodeValue {bytes : Option (List UInt8)} :
    KeepsMark id s.registry (s.decodeValue name bytes).1.registry := by
  unfold decodeValue
  rcases Codec.decode (bytes.getD s.encoded) with ⟨_ | v, rest⟩
  all_goals
    dsimp only
    split <;> exact .refl _

/-- **A step that does not clear the mark of a record keeps it.** -/
theorem keepsMark_step {st : Step} (h : s.clearsMark id st = false) :
    KeepsMark id s.registry (s.step st).1.registry := by
  cases st with
  | guard name source letters => exact keepsMark_getGuard
  | guardWord name source word => exact keepsMark_getGuard
  | guardExisting name source letters => exact keepsMark_guardExisting
  | setMark guard on =>
    refine keepsMark_withGuard fun i r hguard _ => ?_
    cases on with
    | true => exact .setMark_true i
    | false =>
      refine .setMark_of_ne (fun hid => ?_) false
      subst hid
      simp [clearsMark, hguard] at h
  | trace guard tracer => exact keepsMark_withGuard fun i _ _ _ => .trace i tracer
  | sweep compacting sources code drop =>
    have hslots : s.dyingSlots code = none :=
      Option.isNone_iff_eq_none.1 (Option.isSome_eq_false_iff.1 h)
    unfold step
    dsimp only
    rw [hslots]
    exact .refl _
  | holdTemplate name => exact .of_eq (Registry.isMarked_of_entries_eq rfl)
  | setBarrier on => exact .of_eq (Registry.isMarked_of_entries_eq rfl)
  | compile guard mode width generator force => exact keepsMark_compileRecord
  | execute guard text start buffer fixed => exact keepsMark_executeRecord
  | setStatics letters =>
    unfold step
    dsimp only
    split <;> exact .refl _
  | create name source letters =>
    exact .of_eq (congrArg (Registry.isMarked · id) (s.registry_putValue name _))
  | createPlain name source letters =>
    exact .of_eq (congrArg (Registry.isMarked · id) (s.registry_putValue name _))
  | ofGuard name guard => exact keepsMark_withGuard fun _ _ _ _ => .refl _
  | clone name value => exact keepsMark_withValue fun v => v.keepsMark_sharedForCopy s.engine
  | rebuild name value =>
    exact keepsMark_withValue fun v =>
      .of_eq (congrArg (Registry.isMarked · id) (s.registry_putValue name _))
  | guardValue name value => exact keepsMark_withValue fun v => v.keepsMark_shared s.engine
  | exec value text keep =>
    refine keepsMark_withValue fun v => (v.keepsMark_shared s.engine).trans ?_
    dsimp only
    split <;> exact .of_eq (v.isMarked_exec s.engine text)
  | test value text =>
    exact keepsMark_withValue fun v =>
      (v.keepsMark_shared s.engine).trans (.of_eq (v.isMarked_search s.engine text false))
  | traceValue value tracer => exact keepsMark_withValue fun v => v.keepsMark_trace tracer _
  | encode value =>
    refine keepsMark_withValue fun v => ?_
    split <;> exact .refl _
  | decode name bytes => exact keepsMark_decodeValue
  | cloneGuard | showRecord => exact keepsMark_withGuard fun _ _ _ _ => .refl _
  | showValue | setLastIndex => exact keepsMark_withValue fun _ => .refl _
  | _ => exact .refl _

/-- **So does a run.** -/
theorem keepsMark_run {steps : List Step} (h : s.clearsMarkIn id steps = false) :
    KeepsMark id s.registry (s.run steps).registry := by
  induction steps generalizing s with
  | nil => exact .refl _
  | cons st steps ih =>
    obtain ⟨hst, hsteps⟩ := Bool.or_eq_false_iff.1 h
    exact (keepsMark_step hst).trans (ih hsteps)

/-! ### What the barrier sees -/

/-- **While the barrier is on, a record that is handed out is marked**, unless it is taken from the
live link of a value: then it is marked only if it was before. -/
theorem Consistent.isMarked_of_handedOut (h : s.Consistent I o) {st : Step}
    (hbarrier : s.registry.barrier = true) (hout : s.handedOut st = some id) :
    (s.step st).1.registry.isMarked id = (!s.byLiveLink st || s.registry.isMarked id) := by
  have hget : ∀ {name source : String} {flags : Except RegexError Flags},
      (flags.toOption.map fun flags => (s.engine.get source flags).1) = some id →
        (s.getGuard name source flags).1.registry.isMarked id = true := by
    intro name source flags hout
    cases flags with
    | error e => cases hout
    | ok flags =>
      obtain rfl := Option.some.inj hout
      exact h.engine.registry.isMarked_get hbarrier (source, flags)
  cases st with
  | guard name source letters => exact hget hout
  | guardWord name source word => exact hget hout
  | guardValue name value =>
    obtain ⟨v, hv, rfl⟩ := Option.map_eq_some_iff.1 hout
    simp only [Session.step, Session.guardOfValue, Session.withValue, byLiveLink, hv,
      Option.any_some]
    exact Value.isMarked_shared h.engine hbarrier
  | exec value text keep =>
    obtain ⟨v, hv, rfl⟩ := Option.map_eq_some_iff.1 hout
    have hexec := (v.isMarked_exec s.engine text).trans (Value.isMarked_shared h.engine hbarrier)
    simp only [Session.step, Session.execValue, Session.withValue, byLiveLink, hv, Option.any_some]
    split <;> exact hexec
  | test value text =>
    obtain ⟨v, hv, rfl⟩ := Option.map_eq_some_iff.1 hout
    simp only [Session.step, Session.testValue, Session.withValue, byLiveLink, hv, Option.any_some]
    exact (v.isMarked_search s.engine text false).trans (Value.isMarked_shared h.engine hbarrier)
  | clone name value =>
    obtain ⟨v, hv, rfl⟩ := Option.map_eq_some_iff.1 hout
    simp only [Session.step, Session.cloneValue, Session.withValue, byLiveLink, hv, Option.any_some]
    exact Value.isMarked_sharedForCopy h.engine hbarrier
  | _ => cases hout

/-- The sweep of a session spares a marked record unless its source or native code of it is about
to go. -/
theorem Consistent.live_sweep (h : s.Consistent I o) {r : Record} {compacting : Bool}
    {sources : List String} {code : List DyingCode} {drop : List String}
    {slots : List (RecordId × Mode × Width)} (hr : s.registry.find? id = some r)
    (hmarked : r.marked = true) (hslots : s.dyingSlots code = some slots)
    (hsource : r.source ∉ sources)
    (hcode : ∀ m w, (m, w) ∈ r.nativeSlots → (id, m, w) ∉ slots) :
    (s.step (.sweep compacting sources code drop)).1.registry.live id = true := by
  unfold Session.step
  dsimp only
  rw [hslots]
  exact h.engine.registry.live_sweep hr hmarked hsource hcode

/-- **The barrier saves what is asked for.**  After any run a step hands out a record while the
barrier is on: because the record was asked for, or through a value, be it that the link of the
value is dead, that its copy gets more flags, or that its link is live and the record was marked
before.  More steps follow, and none of them sweeps or clears the mark of this record.  Then the
record is still there and is marked, and the next sweep spares it, whatever guards are dropped,
unless its source or native code of it is about to go. -/
theorem live_of_barrier {steps : List Step} {st : Step} {later : List Step}
    (hbarrier : ((Session.new o).run steps).registry.barrier = true)
    (hout : ((Session.new o).run steps).handedOut st = some id)
    (hlink : ((Session.new o).run steps).byLiveLink st = true →
      ((Session.new o).run steps).registry.isMarked id = true)
    (hclear : (((Session.new o).run steps).step st).1.clearsMarkIn id later = false) :
    let s := (((Session.new o).run steps).step st).1.run later
    ∃ r, s.registry.find? id = some r ∧ r.marked = true ∧
      ∀ compacting sources code drop slots, s.dyingSlots code = some slots →
        r.source ∉ sources → (∀ m w, (m, w) ∈ r.nativeSlots → (id, m, w) ∉ slots) →
          (s.step (.sweep compacting sources code drop)).1.registry.live id = true := by
  intro s
  have hpermitted : ∀ steps : List Step, ∀ st ∈ steps, st.Permitted .none := by
    intro steps st _
    cases st <;> trivial
  have hnew : (Session.new o).Consistent .none o := consistent_new trivial
  have hs₀ := hnew.run (hpermitted steps)
  have hs : s.Consistent .none o :=
    (hs₀.step (hpermitted [st] st List.mem_cons_self)).run (hpermitted later)
  have hmark : s.registry.isMarked id = true := by
    apply keepsMark_run hclear
    rw [hs₀.isMarked_of_handedOut hbarrier hout]
    cases hlive : ((Session.new o).run steps).byLiveLink st with
    | false => rfl
    | true => exact hlink hlive
  obtain ⟨r, hr, hmarked⟩ := Registry.isMarked_iff.1 hmark
  exact ⟨r, hr, hmarked, fun _ _ _ _ _ hslots hsource hcode =>
    hs.live_sweep hr hmarked hslots hsource hcode⟩

/-- A value is made and run; a sweep takes its record away, and the barrier is switched on. -/
def deadLinkSteps : List Step :=
  [.create "v" "a.c" "", .test "v" (.ofUnits .latin1 #[97, 98, 99]), .sweep false [] [] [],
    .setBarrier true]

/-- The value is run once more, and so gets a new record, which is compiled once more. -/
theorem live_of_barrier_dead_link :
    let s := (Session.new {}).run deadLinkSteps
    let st := Step.test "v" (.ofUnits .latin1 #[97, 98, 99])
    let later := [Step.guardValue "g" "v",
      Step.compile "g" .normal .twoByte (Options.generator {}) true]
    s.registry.barrier = true ∧ s.handedOut st = some 1 ∧ s.byLiveLink st = false ∧
      (s.step st).1.clearsMarkIn 1 later = false ∧
      (((s.step st).1.run later).step (.sweep false ["b"] [] ["g"])).1.registry.live 1 = true := by
  intro s st later
  have hbarrier : s.registry.barrier = true := by decide +kernel
  have hout : s.handedOut st = some 1 := by decide +kernel
  have hlink : s.byLiveLink st = false := by decide +kernel
  have hclear : (s.step st).1.clearsMarkIn 1 later = false := by decide +kernel
  obtain ⟨r, hr, -, hsweep⟩ := live_of_barrier hbarrier hout
    (fun hlive => absurd (hlink.symm.trans hlive) (by decide)) hclear
  refine ⟨hbarrier, hout, hlink, hclear, hsweep false ["b"] [] ["g"] [] rfl ?_ (by simp)⟩
  have hfound : (((s.step st).1.run later).registry.find? 1).map Record.source = some "a.c" := by
    decide +kernel
  have hsource : r.source = "a.c" := Option.some.inj ((congrArg _ hr).symm.trans hfound)
  rw [hsource]
  decide

/-- A value is made and run, so that it is linked to its record, and the barrier is switched on. -/
def liveLinkSteps : List Step :=
  [.create "v" "a.c" "", .test "v" (.ofUnits .latin1 #[97, 98, 99]), .setBarrier true]

/-- **A record that the barrier does not save.**  The value is run once more while the barrier is
on, and hands out the record it is linked to, unmarked; the sweep that follows at once removes
it. -/
theorem swept_of_live_link :
    let s := (Session.new {}).run liveLinkSteps
    let st := Step.test "v" (.ofUnits .latin1 #[97, 98, 99])
    s.registry.barrier = true ∧ s.handedOut st = some 0 ∧ s.byLiveLink st = true ∧
      (s.step st).1.registry.isMarked 0 = false ∧
      ((s.step st).1.step (.sweep false [] [] [])).1.registry.live 0 = false := by
  decide +kernel

end Session

end RegexEngine

import RegexEngine.Engine.Scripted
import RegexEngine.Proofs.Engine.Compilation
import RegexEngine.Proofs.Engine.Executions

/-!
# Pending interrupts

A flag that is raised before an execution does not change what the execution answers.  A search
looks at the flag in front of every attempt: either it sees the flag before the first one, and is
made anew if the callback resumes, or it has answered without any attempt.  This holds of every
record and every generator, and of programs written by hand.  A routine of the host may look at the
flag when it likes, but a run that has seen the flag shall leave no trace.

* `Routine.Heeds`, `Generator.Heeds` — what is taken for granted of hosts.
* `Interrupts.Pending` — the flag is raised, and will not be raised again.
* `Interrupts.Meets` — how work ends under a pending interrupt, compared with the same work
  without.
* `Record.searchCode_meets`, `Record.search_meets` — **searches under a pending interrupt.**
* `Record.execute_pending` — **a pending interrupt changes no answer.**
-/

namespace RegexEngine

/-! ### Pending interrupts -/

namespace Interrupts

variable {i i' : Interrupts}

/-- The flag is raised, and no callback raises it again in its next call. -/
structure Pending (i : Interrupts) : Prop where
  requested : i.requested = true
  once : ∀ c, i.callback = some c → c.raises 0 = false

/-- There is no callback, or its next answer is to resume. -/
def Resumes (i : Interrupts) : Prop := ∀ c, i.callback = some c → c.decides 0 = .resume

/-- There is a callback, and its next answer is to abort. -/
def Aborts (i : Interrupts) : Prop := ∃ c, i.callback = some c ∧ c.decides 0 = .abort

/-- What is left of a pending interrupt when the flag was seen. -/
theorem Pending.poll_eq (h : i.Pending) :
    i.callback = none ∧ i.poll = (.resume, i.clear) ∨
      ∃ c, i.callback = some c ∧ i.poll =
        (c.decides 0, { requested := false, callback := c.later, calls := i.calls + 1 }) := by
  rw [poll, if_pos h.requested]
  cases hc : i.callback with
  | none => exact Or.inl ⟨rfl, rfl⟩
  | some c =>
    refine Or.inr ⟨c, rfl, ?_⟩
    dsimp only
    rw [h.once c hc]

/-- Whoever has seen a pending interrupt has cleared the flag, and the callback was called once at
the most. -/
theorem Pending.of_poll (h : i.Pending) {v : Verdict} (hpoll : i.poll = (v, i')) :
    i'.requested = false ∧ i'.calls ≤ i.calls + 1 := by
  rcases h.poll_eq with ⟨-, hp⟩ | ⟨c, -, hp⟩
  · rw [hp] at hpoll
    cases hpoll
    exact ⟨rfl, Nat.le_succ i.calls⟩
  · rw [hp] at hpoll
    cases hpoll
    exact ⟨rfl, Nat.le_refl _⟩

theorem Pending.not_abort (h : i.Pending) (hv : i.Resumes) : i.poll ≠ (.abort, i') := by
  intro hpoll
  rcases h.poll_eq with ⟨-, hp⟩ | ⟨c, hc, hp⟩
  · rw [hp] at hpoll
    cases hpoll
  · rw [hp, hv c hc] at hpoll
    cases hpoll

theorem Pending.not_resume (h : i.Pending) (hv : i.Aborts) : i.poll ≠ (.resume, i') := by
  intro hpoll
  obtain ⟨c, hc, hverdict⟩ := hv
  rcases h.poll_eq with ⟨hnone, -⟩ | ⟨c', hc', hp⟩
  · rw [hc] at hnone
    cases hnone
  · obtain rfl := Option.some.inj (hc.symm.trans hc')
    rw [hp, hverdict] at hpoll
    cases hpoll

/-- A callback that aborts has been called. -/
theorem Pending.calls_of_abort (h : i.Pending) (hpoll : i.poll = (.abort, i')) :
    i'.calls = i.calls + 1 := by
  rcases h.poll_eq with ⟨-, hp⟩ | ⟨c, -, hp⟩
  · rw [hp] at hpoll
    cases hpoll
  · rw [hp] at hpoll
    rw [← (Prod.mk.inj hpoll).2]

/-- How work ends under a pending interrupt, if without one it ends with `plain`: the flag was not
seen and is still raised; or the work was made anew; or it was given up. -/
inductive Meets {α : Type} (i : Interrupts) (unseen abandoned : α → Prop) (plain : α) :
    α → Interrupts → Prop
  | unseen (h : unseen plain) : Meets i unseen abandoned plain plain i
  | resumed {i' : Interrupts} (h : i.poll = (.resume, i')) : Meets i unseen abandoned plain plain i'
  | aborted {x : α} {i' : Interrupts} (h : i.poll = (.abort, i')) (hx : abandoned x) :
    Meets i unseen abandoned plain x i'

/-- What is made of the end of some work ends as the work does. -/
theorem Meets.map {α β : Type} {unseen abandoned : α → Prop} {unseen' abandoned' : β → Prop}
    {plain x : α} (h : i.Meets unseen abandoned plain x i') (f : α → β)
    (hunseen : unseen plain → unseen' (f plain))
    (habandoned : ∀ x, abandoned x → abandoned' (f x)) :
    i.Meets unseen' abandoned' (f plain) (f x) i' := by
  cases h with
  | unseen h => exact .unseen (hunseen h)
  | resumed h => exact .resumed h
  | aborted h hx => exact .aborted h (habandoned _ hx)

theorem Meets.cases {α : Type} {unseen abandoned : α → Prop} {plain x : α}
    (h : i.Meets unseen abandoned plain x i') :
    (x = plain ∧ i' = i ∧ unseen plain) ∨ (x = plain ∧ i.poll = (.resume, i')) ∨
      (i.poll = (.abort, i') ∧ abandoned x) := by
  cases h with
  | unseen h => exact Or.inl ⟨rfl, rfl, h⟩
  | resumed h => exact Or.inr (Or.inl ⟨rfl, h⟩)
  | aborted h hx => exact Or.inr (Or.inr ⟨h, hx⟩)

end Interrupts

/-! ### Single searches -/

/-- A search of a machine sees a raised flag in front of its first attempt, or makes none. -/
theorem Machine.search_raised (program : Program) (tables : Array CharTable) (t : Text)
    (limits : Limits) (start : Nat) (pairs : Array Pair) :
    Machine.search ⟨program, tables, t, limits, true⟩ start pairs = .interrupted ∨
      (Machine.search ⟨program, tables, t, limits, true⟩ start pairs = .noMatch ∧
        Machine.search ⟨program, tables, t, limits, false⟩ start pairs = .noMatch) := by
  rw [search, search]
  by_cases hstart : t.size < start
  · rw [if_pos hstart, if_pos hstart]
    exact Or.inr ⟨rfl, rfl⟩
  · rw [if_neg hstart, if_neg hstart]
    dsimp only
    rw [searchFrom, searchFrom]
    -- which position is tried first does not depend on the flag
    have hsame : candidate? ⟨program, tables, t, limits, false⟩ start =
        candidate? ⟨program, tables, t, limits, true⟩ start := rfl
    have hpos : program.firstUnit ≠ none → start ≤ t.size := fun _ => Nat.le_of_not_lt hstart
    rw [hsame]
    rcases candidate_cases (m := ⟨program, tables, t, limits, true⟩) hpos with
      hnone | ⟨q, hq, -, -⟩
    · rw [hnone]
      exact Or.inr ⟨rfl, rfl⟩
    · rw [hq]
      dsimp only
      by_cases hlast : (if program.anchored = true then start else t.size) < q
      · rw [if_pos hlast, if_pos hlast]
        exact Or.inr ⟨rfl, rfl⟩
      · rw [if_neg hlast, if_pos rfl]
        exact Or.inl rfl

/-- A search of a row sees a raised flag at the first position that it tries, or tries none. -/
theorem Sequence.search_raised (s : Sequence) (t : Text) (start : Nat) (pairs : Array Pair) :
    s.search t start pairs true = .interrupted ∨
      (s.search t start pairs true = .noMatch ∧ s.search t start pairs false = .noMatch) := by
  rw [search, search]
  by_cases hstart : t.size < start
  · rw [if_pos hstart, if_pos hstart]
    exact Or.inr ⟨rfl, rfl⟩
  · rw [if_neg hstart, if_neg hstart]
    dsimp only
    generalize (if s.anchored = true then start else t.size - s.matchLength) = last
    cases last + 1 - start with
    | zero => exact Or.inr ⟨rfl, rfl⟩
    | succ room =>
      rw [searchFrom, searchFrom]
      cases s.candidate? t start with
      | none => exact Or.inr ⟨rfl, rfl⟩
      | some q =>
        dsimp only
        by_cases hlast : last < q
        · rw [if_pos hlast, if_pos hlast]
          exact Or.inr ⟨rfl, rfl⟩
        · rw [if_neg hlast, if_pos rfl]
          exact Or.inl rfl

/-! ### What is taken for granted of hosts -/

/-- In each of its runs the routine does not look at the flag; or it reports that the flag is raised
and goes on later as if there had been no such run. -/
def Routine.Heeds (r : Routine) : Prop :=
  ∀ n t start pairs, r.run n true t start pairs = r.run n false t start pairs ∨
    (r.run n true t start pairs = .interrupted ∧ ∀ k, r.run (n + 1 + k) = r.run (n + k))

namespace Code

/-- A routine of the host heeds the flag. -/
def Heeds : Code → Prop
  | program _ | sequence _ => True
  | hosted r => r.Heeds

/-- The code is a routine of the host. -/
def IsHosted (c : Code) : Prop := ∃ r, c = .hosted r

/-- **What code does about a raised flag.**  It does not look at the flag, and is a routine of the
host or finds no match; or it has seen the flag, and leaves no trace. -/
theorem search_raised {c : Code} (hc : c.Heeds) (tables : Array CharTable) (limits : Limits)
    (t : Text) (start : Nat) (pairs : Array Pair) :
    (c.search tables limits true t start pairs = c.search tables limits false t start pairs ∧
        ((c.search tables limits true t start pairs).1 = .noMatch ∨
          (c.search tables limits true t start pairs).2.IsHosted)) ∨
      (c.search tables limits true t start pairs = (.interrupted, c) ∧
        (c.search tables limits false t start pairs).2 = c) := by
  cases c with
  | program p =>
    rcases Machine.search_raised p tables t limits start pairs with hseen | ⟨hraised, hclear⟩
    · exact Or.inr ⟨Prod.ext hseen rfl, rfl⟩
    · exact Or.inl ⟨Prod.ext (hraised.trans hclear.symm) rfl, Or.inl hraised⟩
  | sequence s =>
    rcases s.search_raised t start pairs with hseen | ⟨hraised, hclear⟩
    · exact Or.inr ⟨Prod.ext hseen rfl, rfl⟩
    · exact Or.inl ⟨Prod.ext (hraised.trans hclear.symm) rfl, Or.inl hraised⟩
  | hosted r =>
    rcases hc 0 t start pairs with hblind | ⟨hseen, hlater⟩
    · refine Or.inl ⟨?_, Or.inr ⟨r.later, rfl⟩⟩
      simp only [search, Routine.search, hblind]
    · have hsame : r.later = r := by
        rcases r with ⟨run⟩
        refine congrArg Routine.mk (funext fun k => ?_)
        have hk := hlater k
        rwa [Nat.zero_add, Nat.zero_add, Nat.add_comm] at hk
      refine Or.inr ⟨?_, congrArg hosted hsame⟩
      simp only [search, Routine.search, hseen, hsame]

end Code

/-- All routines that the generator makes heed the flag. -/
def Generator.Heeds (g : Generator) : Prop :=
  ∀ p mode width flags tables c, (g.generate p mode width flags tables).1 = .ok c → c.Heeds

/-- All routines that the record holds heed the flag. -/
def Record.Heeds (r : Record) : Prop := r.AllCode Code.Heeds

theorem Generator.heeds_standard (native : Bool) (maxLength : Nat) :
    (standard native maxLength).Heeds := by
  intro _ _ _ _ _ _ h
  obtain ⟨o, hmakes⟩ := Options.makes_of_standard (Prod.ext h rfl)
  cases hmakes <;> trivial

namespace Record

variable {tables : Array CharTable} {limits : Limits} {t : Text} {start n : Nat}
  {pairs : Array Pair} {c : Code} {i i' : Interrupts}

/-! ### Searches that are made anew -/

/-- While the flag is clear, nothing happens to it, and no callback is called. -/
theorem searchCode_interrupts (hi : i.requested = false) (n : Nat) (c : Code) :
    (searchCode tables limits t start pairs n c i).2.2 = i := by
  induction n generalizing c with
  | zero => rfl
  | succ n ih =>
    rw [searchCode]
    rcases c.search tables limits i.requested t start pairs with ⟨outcome, c'⟩
    cases outcome with
    | interrupted =>
      rw [Interrupts.poll, hi]
      exact ih c'
    | _ => rfl

/-- What code that was run has answered, and what it is afterwards. -/
def answerOf (x : Outcome × Code × Interrupts) : Outcome × Code := (x.1, x.2.1)

/-- While the flag is clear, the callback does not matter. -/
theorem answerOf_clear (hi : i.requested = false) (hi' : i'.requested = false) (n : Nat)
    (c : Code) : answerOf (searchCode tables limits t start pairs n c i') =
      answerOf (searchCode tables limits t start pairs n c i) := by
  induction n generalizing c with
  | zero => rfl
  | succ n ih =>
    rw [searchCode, searchCode, hi, hi']
    rcases c.search tables limits false t start pairs with ⟨outcome, c'⟩
    cases outcome with
    | interrupted =>
      rw [Interrupts.poll, Interrupts.poll, hi, hi']
      exact ih c'
    | _ => rfl

/-- While the flag is clear, code that stays as it is answers in its first run or never. -/
theorem answerOf_succ (hi : i.requested = false)
    (hc : (c.search tables limits false t start pairs).2 = c) (n : Nat) :
    answerOf (searchCode tables limits t start pairs (n + 2) c i) =
      answerOf (searchCode tables limits t start pairs (n + 1) c i) := by
  rcases hsearch : c.search tables limits false t start pairs with ⟨outcome, c'⟩
  rw [hsearch] at hc
  have hsame : c' = c := hc
  rw [hsame] at hsearch
  by_cases hrun : outcome = .interrupted
  · subst hrun
    have hnever : ∀ m, searchCode tables limits t start pairs m c i =
        (.failed .outOfSteps, c, i) := by
      intro m
      induction m with
      | zero => rfl
      | succ m ih =>
        rw [searchCode, hi, hsearch]
        dsimp only
        rw [Interrupts.poll, hi]
        exact ih
    rw [hnever, hnever]
  · have hfirst : ∀ m, searchCode tables limits t start pairs (m + 1) c i = (outcome, c, i) := by
      intro m
      rw [searchCode, hi, hsearch]
      cases outcome with
      | interrupted => exact absurd rfl hrun
      | _ => rfl
    rw [hfirst, hfirst]

/-- Without having seen a raised flag, code that was made here has found no match. -/
def Unseen (x : Outcome × Code) : Prop := x.1 = .noMatch ∨ x.2.IsHosted

/-- A run that reports an interrupt is followed by runs with the flag clear, unless the callback
aborts. -/
theorem searchCode_seen (h : i.Pending) {c' : Code} {unseen : Outcome × Code → Prop}
    (hseen : c.search tables limits true t start pairs = (.interrupted, c')) (n : Nat) :
    i.Meets unseen (fun x => x.1 = .failed (.error .interrupted))
      (answerOf (searchCode tables limits t start pairs n c' i.clear))
      (answerOf (searchCode tables limits t start pairs (n + 1) c i))
      (searchCode tables limits t start pairs (n + 1) c i).2.2 := by
  rw [searchCode, h.requested, hseen]
  dsimp only
  rcases hpoll : i.poll with ⟨_ | _, i'⟩
  · have hi' := (h.of_poll hpoll).1
    dsimp only
    rw [answerOf_clear (i := i.clear) rfl hi', searchCode_interrupts hi']
    exact .resumed hpoll
  · exact .aborted hpoll rfl

/-- **How code is run under a pending interrupt.** -/
theorem searchCode_meets (h : i.Pending) (hc : c.Heeds) (n : Nat) :
    i.Meets Unseen (fun x => x.1 = .failed (.error .interrupted))
      (answerOf (searchCode tables limits t start pairs (n + 2) c i.clear))
      (answerOf (searchCode tables limits t start pairs (n + 2) c i))
      (searchCode tables limits t start pairs (n + 2) c i).2.2 := by
  rcases Code.search_raised hc tables limits t start pairs with
    ⟨hblind, hunseen⟩ | ⟨hseen, hsame⟩
  · -- the first run is the same with the flag and without
    rcases hrun : c.search tables limits true t start pairs with ⟨outcome, c'⟩
    rw [hrun] at hblind hunseen
    by_cases houtcome : outcome = .interrupted
    · subst houtcome
      have hplain : searchCode tables limits t start pairs (n + 2) c i.clear =
          searchCode tables limits t start pairs (n + 1) c' i.clear := by
        rw [searchCode, show i.clear.requested = false from rfl, ← hblind]
        rfl
      rw [hplain]
      exact searchCode_seen h hrun (n + 1)
    · have hfirst : ∀ j : Interrupts, searchCode tables limits t start pairs (n + 2) c j =
          (outcome, c', j) := by
        intro j
        rw [searchCode]
        cases j.requested with
        | true =>
          rw [hrun]
          cases outcome with
          | interrupted => exact absurd rfl houtcome
          | _ => rfl
        | false =>
          rw [← hblind]
          cases outcome with
          | interrupted => exact absurd rfl houtcome
          | _ => rfl
      rw [hfirst, hfirst]
      exact .unseen hunseen
  · -- the run that has seen the flag might as well not have been
    rw [answerOf_succ (i := i.clear) rfl hsame]
    exact searchCode_seen h hseen (n + 1)

/-! ### Searches of records -/

variable {r : Record} {mode : Mode} {g : Generator} {buffer : Option Buffer}

/-- The record holds code for texts of this width that was made here. -/
def HoldsCode (r : Record) (mode : Mode) (width : Width) : Prop :=
  r.literal = none ∧ ∃ c, r.slots.get mode width = some c ∧ ¬c.IsHosted

/-- **How a record is searched with under a pending interrupt.** -/
theorem search_meets (h : i.Pending) (hr : r.Heeds) (mode : Mode) (limits : Limits) (t : Text)
    (start : Nat) (pairs : Array Pair) :
    i.Meets (fun x => x.2.HoldsCode mode t.width → x.1 = .noMatch)
      (fun x => x.1 = .failed (.error .interrupted))
      ((r.search mode limits i.clear t start pairs).1,
        (r.search mode limits i.clear t start pairs).2.1)
      ((r.search mode limits i t start pairs).1, (r.search mode limits i t start pairs).2.1)
      (r.search mode limits i t start pairs).2.2 := by
  by_cases hcode : r.literal = none ∧ ∃ c, r.slots.get mode t.width = some c
  · obtain ⟨hnone, c, hslot⟩ := hcode
    rw [search_of_slot hnone hslot, search_of_slot hnone hslot]
    refine (searchCode_meets h (hr _ _ c hslot) limits.steps).map
        (fun x => (x.1, { r with slots := r.slots.set mode t.width x.2 })) ?_ ?_
    · rintro (hmiss | hhosted) ⟨-, c', hc', hmade⟩
      · exact hmiss
      · rw [CodeSlots.get_set_self] at hc'
        obtain rfl := Option.some.inj hc'
        exact absurd hhosted hmade
    · exact fun _ hx => hx
  · -- neither the search for a literal nor an empty slot has anything to do with the flag
    have hnot : ¬r.HoldsCode mode t.width := fun ⟨hnone, c, hslot, _⟩ => hcode ⟨hnone, c, hslot⟩
    unfold search
    cases hliteral : r.literal with
    | some literal =>
      dsimp only
      cases literal.find? t start <;> exact .unseen fun h => absurd h hnot
    | none =>
      cases hslot : r.slots.get mode t.width with
      | none => exact .unseen fun h => absurd h hnot
      | some c => exact absurd ⟨hliteral, c, hslot⟩ hcode

/-! ### Executions -/

/-- An answer that needs no attempt: no match that was found and no stack that was full. -/
def Idle (result : Except Failure Status) : Prop :=
  result ≠ .ok .success ∧ result ≠ .error (.error .overRecursed)

/-- An execution that was given up: no pair of the buffer is defined. -/
def Abandoned (x : Except Failure Status × Record × Option Buffer) : Prop :=
  x.1 = .error (.error .interrupted) ∧ ∀ b, x.2.2 = some b → ∀ q ∈ b.pairs, q = .undefined

/-- Offsets out of bounds are refused before the search. -/
theorem idle_of_checkBounds {e : RegexError} (h : checkBounds t start = .error e) :
    Idle (.error (.error e)) := by
  rw [checkBounds] at h
  split at h
  · cases h
    simp [Idle, RegexError.textTooLong]
  · split at h
    · cases h
      simp [Idle, RegexError.startPastEnd]
    · cases h

/-- A buffer that cannot be prepared is one that the caller has misused. -/
theorem idle_of_prepare {f : Failure} (h : r.prepare buffer = .error f) : Idle (.error f) := by
  cases buffer with
  | none => cases h
  | some b =>
    rcases r.prepare_cases b with hmisuse | ⟨b', hok, -⟩
    · rw [hmisuse] at h
      cases h
      simp [Idle]
    · rw [hok] at h
      cases h

/-- **How a compiled record is executed under a pending interrupt.** -/
theorem executeCompiled_meets (h : i.Pending) (hr : r.Heeds) (mode : Mode) (limits : Limits)
    (t : Text) (start : Nat) (buffer : Option Buffer) :
    i.Meets (fun x => x.2.1.HoldsCode mode t.width → Idle x.1) Abandoned
      (r.executeCompiled mode limits i.clear t start buffer).answer
      (r.executeCompiled mode limits i t start buffer).answer
      (r.executeCompiled mode limits i t start buffer).interrupts := by
  cases hbounds : checkBounds t start with
  | error e =>
    have hidle := idle_of_checkBounds hbounds
    unfold executeCompiled
    rw [hbounds]
    exact .unseen fun _ => hidle
  | ok _ =>
    cases hprepare : r.prepare buffer with
    | error f =>
      have hidle := idle_of_prepare hprepare
      unfold executeCompiled
      rw [hbounds, hprepare]
      exact .unseen fun _ => hidle
    | ok b =>
      obtain ⟨hanswer, hinterrupts⟩ := executeCompiled_eq hbounds hprepare mode limits i
      obtain ⟨hplain, -⟩ := executeCompiled_eq hbounds hprepare mode limits i.clear
      have hsearch := search_meets h hr mode limits (r.view t start) (start - r.displacement start)
        ((b.map Buffer.pairs).getD #[])
      rw [width_view] at hsearch
      rw [hanswer, hinterrupts, hplain]
      refine hsearch.map (concluded (r.displacement start) t.size b) ?_ ?_
      · generalize (r.search mode limits i.clear (r.view t start) (start - r.displacement start)
          ((b.map Buffer.pairs).getD #[])) = x
        rintro hmiss hcode
        rcases x with ⟨outcome, r', i'⟩
        -- the record is the same before and behind the report
        rw [record_concluded] at hcode
        rw [show outcome = .noMatch from hmiss hcode]
        simp [Idle, concluded]
      · rintro ⟨outcome, r'⟩ rfl
        exact ⟨rfl, undefined_of_prepare hprepare⟩

/-- A record that could not be compiled holds no code. -/
theorem not_holdsCode_of_error {e : RegexError} {width : Width}
    (h : (r.compileIfNecessary mode width g).1 = .error e) :
    ¬(r.compileIfNecessary mode width g).2.HoldsCode mode width := by
  rintro ⟨-, c, hslot, -⟩
  have hcompiled := not_isCompiled_of_error h
  rw [isCompiled, hslot, Option.isSome_some, Bool.or_true] at hcompiled
  cases hcompiled

/-- **How a record is executed under a pending interrupt**, with every generator. -/
theorem execute_meets (h : i.Pending) (hr : r.Heeds) (hg : g.Heeds) (limits : Limits) (t : Text)
    (start : Nat) (buffer : Option Buffer) :
    i.Meets (fun x => x.2.1.HoldsCode (modeFor buffer) t.width → Idle x.1) Abandoned
      (r.execute g limits i.clear t start buffer).answer
      (r.execute g limits i t start buffer).answer
      (r.execute g limits i t start buffer).interrupts := by
  have hcompiled : (r.compileIfNecessary (modeFor buffer) t.width g).2.Heeds :=
    AllCode.compileIfNecessary hr hg (modeFor buffer) t.width
  have hempty {e : RegexError} :
      (r.compileIfNecessary (modeFor buffer) t.width g).1 = .error e →
        ¬(r.compileIfNecessary (modeFor buffer) t.width g).2.HoldsCode (modeFor buffer) t.width :=
    not_holdsCode_of_error
  rw [execute_eq, execute_eq]
  rcases hx : r.compileIfNecessary (modeFor buffer) t.width g with ⟨e | _, r'⟩
  · rw [hx] at hempty
    exact .unseen fun hholds => absurd hholds (hempty rfl)
  · rw [hx] at hcompiled
    exact executeCompiled_meets h hcompiled (modeFor buffer) limits t start buffer

/-- **A pending interrupt changes no answer.**  If the flag is raised before an execution and not
again during it, then an execution whose callback resumes, or that has none, ends as it would with
the flag clear, and the callback was called once at the most.  If the callback aborts, either the
flag was seen, the callback was called once, and the execution ends with the error for this and
defines no pair of the buffer; or nobody has seen it, it is still raised, and the execution ends as
it would with the flag clear.  The latter is never a match nor an overflow where the record holds
code that was made for it.  Routines of the host, in the record or made by the generator, are taken
to heed the flag. -/
theorem execute_pending (h : i.Pending) (hr : r.Heeds) (hg : g.Heeds) (limits : Limits) (t : Text)
    (start : Nat) (buffer : Option Buffer) :
    let e := r.execute g limits i t start buffer
    let plain := r.execute g limits i.clear t start buffer
    (i.Resumes → e.result = plain.result ∧ e.buffer = plain.buffer ∧ e.record = plain.record ∧
        e.interrupts.calls ≤ i.calls + 1) ∧
      (i.Aborts →
        (e.result = .error (.error .interrupted) ∧ e.interrupts.calls = i.calls + 1 ∧
            e.interrupts.requested = false ∧
            ∀ b, e.buffer = some b → ∀ q ∈ b.pairs, q = .undefined) ∨
          (e.result = plain.result ∧ e.buffer = plain.buffer ∧ e.interrupts = i ∧
            (e.record.HoldsCode (modeFor buffer) t.width →
              e.result ≠ .ok .success ∧ e.result ≠ .error (.error .overRecursed)))) := by
  intro e plain
  have hmeets : i.Meets (fun x => x.2.1.HoldsCode (modeFor buffer) t.width → Idle x.1) Abandoned
      plain.answer e.answer e.interrupts :=
    execute_meets h hr hg limits t start buffer
  have hsame : e.answer = plain.answer →
      e.result = plain.result ∧ e.buffer = plain.buffer ∧ e.record = plain.record := by
    intro hanswer
    exact ⟨congrArg Prod.fst hanswer, congrArg (·.2.2) hanswer, congrArg (·.2.1) hanswer⟩
  rcases hmeets.cases with
    ⟨hanswer, hinterrupts, hidle⟩ | ⟨hanswer, hpoll⟩ | ⟨hpoll, hresult, hpairs⟩
  · obtain ⟨hresult, hbuffer, hrecord⟩ := hsame hanswer
    refine ⟨fun _ => ⟨hresult, hbuffer, hrecord, ?_⟩,
      fun _ => Or.inr ⟨hresult, hbuffer, hinterrupts, ?_⟩⟩
    · rw [hinterrupts]
      exact Nat.le_succ i.calls
    · rw [hresult, hrecord]
      exact hidle
  · obtain ⟨hresult, hbuffer, hrecord⟩ := hsame hanswer
    exact ⟨fun _ => ⟨hresult, hbuffer, hrecord, (h.of_poll hpoll).2⟩,
      fun haborts => absurd hpoll (h.not_resume haborts)⟩
  · exact ⟨fun hresumes => absurd hpoll (h.not_abort hresumes),
      fun _ => Or.inl ⟨hresult, h.calls_of_abort hpoll, (h.of_poll hpoll).1, hpairs⟩⟩

/-- A flag that is raised, and a callback that aborts. -/
def aborting : Interrupts where
  requested := true
  callback := some (Script.callback { verdicts := [.abort] })

/-- A search for `(?:(a)|b)*c` in `abc` that would find a match is given up. -/
theorem execute_pending_letters :
    aborting.Pending ∧ aborting.Aborts ∧ letters.Heeds ∧ (Options.generator {}).Heeds ∧
      (letters.execute (Options.generator {}) {} aborting.clear (.ofUnits .latin1 #[97, 98, 99]) 0
        (some { fixed := false })).result = .ok .success ∧
      (letters.execute (Options.generator {}) {} aborting (.ofUnits .latin1 #[97, 98, 99]) 0
        (some { fixed := false })).result = .error (.error .interrupted) ∧
      (letters.execute (Options.generator {}) {} aborting (.ofUnits .latin1 #[97, 98, 99]) 0
        (some { fixed := false })).interrupts.calls = aborting.calls + 1 ∧
      (letters.execute (Options.generator {}) {} aborting (.ofUnits .latin1 #[97, 98, 99]) 0
        (some { fixed := false })).interrupts.requested = false ∧
      ∀ b, (letters.execute (Options.generator {}) {} aborting (.ofUnits .latin1 #[97, 98, 99]) 0
        (some { fixed := false })).buffer = some b → ∀ q ∈ b.pairs, q = .undefined := by
  have hpending : aborting.Pending := by
    refine ⟨rfl, fun c hc => ?_⟩
    cases hc
    rfl
  have haborts : aborting.Aborts := ⟨_, rfl, rfl⟩
  have hletters : letters.Heeds := allCode_fresh _ _ _
  have hstandard : (Options.generator {}).Heeds := Generator.heeds_standard _ _
  have hplain : (letters.execute (Options.generator {}) {} aborting.clear
      (.ofUnits .latin1 #[97, 98, 99]) 0 (some { fixed := false })).result = .ok .success := by
    decide +kernel
  have hresult : (letters.execute (Options.generator {}) {} aborting
      (.ofUnits .latin1 #[97, 98, 99]) 0 (some { fixed := false })).result =
        .error (.error .interrupted) := by
    decide +kernel
  obtain ⟨-, habort⟩ := execute_pending hpending hletters hstandard {}
    (.ofUnits .latin1 #[97, 98, 99]) 0 (some { fixed := false })
  obtain hseen | ⟨hsame, -⟩ := habort haborts
  · exact ⟨hpending, haborts, hletters, hstandard, hplain, hseen⟩
  · rw [hsame, hplain] at hresult
    cases hresult

end Record

end RegexEngine

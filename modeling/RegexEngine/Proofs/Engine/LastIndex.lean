import RegexEngine.Proofs.Engine.Generators
import RegexEngine.Proofs.Engine.Links

/-!
# Where values go on

A global or sticky value remembers where its last match ended, and goes on there.  Whatever the
engine has been used for, and with whatever generators of its own, the value finds the first match
from there on, whether or not it is asked for the offsets.

* `Value.Searches`, `Value.searches` — **how a search of a value can end.**
* `Value.KeepsPlace` — where a value goes on, whatever its code finds.
* `Value.Finds`, `Value.exec_finds` — **what a value finds from where it stands.**
* `Value.test_of_exec` — **testing is matching without the offsets.**
* `Value.calls`, `Value.exists_walks` — **matching one text again and again comes to an end.**
-/

namespace RegexEngine

namespace Value

variable {o : Options} {v : Value} {eng : Engine} {t : Text}

/-! ### Searches -/

section Searches

variable {α : Type} {answer : Option (Array Pair) → α} {e : Engine.Execution}
  {result : Except Failure α} {n : Nat}

/-- How a search of a value can end, given the execution of its record and what is to be made of the
pairs, and where the value goes on then: at the beginning, if it stood behind the text; where it
stood, if there was an error; at the beginning, if nothing was found; at the end of the match, if
there is one.  A value that does not remember goes on where it stood. -/
inductive Searches (v : Value) (t : Text) (e : Engine.Execution)
    (answer : Option (Array Pair) → α) : Except Failure α → Nat → Prop
  | beyond (hbeyond : t.size < v.searchStart) : Searches v t e answer (.ok (answer none)) 0
  | failed {f : Failure} (hstands : v.searchStart ≤ t.size) (he : e.result = .error f) :
    Searches v t e answer (.error f) v.lastIndex
  | missed (hstands : v.searchStart ≤ t.size) (he : e.result = .ok .notFound) :
    Searches v t e answer (.ok (answer none)) (if v.usesLastIndex then 0 else v.lastIndex)
  | found {pairs : Array Pair} (hstands : v.searchStart ≤ t.size) (he : e.result = .ok .success)
    (hpairs : pairs = (e.buffer.map Buffer.pairs).getD #[]) :
    Searches v t e answer (.ok (answer (some pairs)))
      (if v.usesLastIndex then (pairs.getD 0 Pair.undefined).limit.toNat else v.lastIndex)

theorem Searches.map {β : Type} (h : v.Searches t e answer result n) (f : α → β) :
    v.Searches t e (fun pairs => f (answer pairs)) (result.map f) n := by
  cases h with
  | beyond hbeyond => exact .beyond hbeyond
  | failed hstands he => exact .failed hstands he
  | missed hstands he => exact .missed hstands he
  | found hstands he hpairs => exact .found hstands he hpairs

/-- A value that does not remember stands at the beginning. -/
theorem searchStart_of_forgets (hforgets : v.usesLastIndex = false) : v.searchStart = 0 := by
  rw [searchStart, hforgets]
  rfl

theorem searchStart_of_usesLastIndex (huses : v.usesLastIndex = true) :
    v.searchStart = v.lastIndex := by
  rw [searchStart, huses]
  rfl

theorem Searches.lastIndex_of_forgets (h : v.Searches t e answer result n)
    (hforgets : v.usesLastIndex = false) : n = v.lastIndex := by
  cases h with
  | beyond hbeyond =>
    rw [searchStart_of_forgets hforgets] at hbeyond
    exact absurd hbeyond (Nat.not_lt_zero _)
  | failed => rfl
  | missed | found => rw [hforgets]; rfl

end Searches

/-- Asking for its record changes nothing of a value but its link. -/
theorem shared_eq (v : Value) (eng : Engine) :
    ∃ id link eng', v.shared eng = (id, { v with link }, eng') := by
  unfold shared
  split
  · exact ⟨_, v.link, _, rfl⟩
  · exact ⟨_, _, _, rfl⟩

/-- The execution that a value asks for, once it has its record. -/
def execution (v : Value) (eng : Engine) (t : Text) (wantPairs : Bool) : Engine.Execution :=
  (v.shared eng).2.2.execute (v.shared eng).1 t v.searchStart (v.searchBuffer wantPairs)

/-- **A search ends in one of these ways.** -/
theorem searches (v : Value) (eng : Engine) (t : Text) (wantPairs : Bool) :
    v.Searches t (v.execution eng t wantPairs) id (v.search eng t wantPairs).result
      (v.search eng t wantPairs).value.lastIndex := by
  obtain ⟨record, link, eng', hshared⟩ := v.shared_eq eng
  rw [search_eq, execution, hshared]
  dsimp only
  split
  · next hbeyond => exact .beyond hbeyond
  · next hnot =>
    have hstands : v.searchStart ≤ t.size := Nat.le_of_not_lt hnot
    change v.Searches t (eng'.execute record t v.searchStart (v.searchBuffer wantPairs)) id
      (({ v with link } : Value).conclude
        (eng'.execute record t v.searchStart (v.searchBuffer wantPairs))).result
      (({ v with link } : Value).conclude
        (eng'.execute record t v.searchStart (v.searchBuffer wantPairs))).value.lastIndex
    generalize eng'.execute record t v.searchStart (v.searchBuffer wantPairs) = e
    unfold conclude
    rcases he : e.result with f | _ | _
    · exact .failed hstands he
    · dsimp only
      rw [apply_ite lastIndex]
      exact .found hstands he rfl
    · dsimp only
      rw [apply_ite lastIndex]
      exact .missed hstands he

/-- Matching is a search for the offsets. -/
theorem exec_eq (v : Value) (eng : Engine) (t : Text) :
    (v.exec eng t).result =
        (v.search eng t true).result.map (Option.map (Captures.mk t)) ∧
      (v.exec eng t).value = (v.search eng t true).value := by
  unfold exec
  dsimp only
  rcases (v.search eng t true).result with f | _ | pairs <;> exact ⟨rfl, rfl⟩

theorem exec_searches (v : Value) (eng : Engine) (t : Text) :
    v.Searches t (v.execution eng t true) (Option.map (Captures.mk t)) (v.exec eng t).result
      (v.exec eng t).value.lastIndex := by
  obtain ⟨hresult, hvalue⟩ := v.exec_eq eng t
  rw [hresult, hvalue]
  exact (v.searches eng t true).map (Option.map (Captures.mk t))

theorem test_searches (v : Value) (eng : Engine) (t : Text) :
    v.Searches t (v.execution eng t false) Option.isSome (v.test eng t).result
      (v.test eng t).value.lastIndex :=
  (v.searches eng t false).map Option.isSome

/-- A value that remembers needs the offsets, be it asked for them or not. -/
theorem search_of_usesLastIndex (huses : v.usesLastIndex = true) (eng : Engine) (t : Text) :
    v.search eng t false = v.search eng t true := by
  obtain ⟨record, link, eng', hshared⟩ := v.shared_eq eng
  have huses' : ({ v with link } : Value).usesLastIndex = true := huses
  rw [search_eq, search_eq, hshared]
  dsimp only
  rw [searchBuffer, searchBuffer, huses', Bool.or_true, Bool.or_true]

/-! ### Keeping the place -/

/-- Where a value goes on when a text is matched against it, whatever its code finds there. -/
structure KeepsPlace (v : Value) (eng : Engine) (t : Text) : Prop where
  /-- If it remembers and stands behind the text, there is no match, and it goes on at the
  beginning. -/
  beyond : v.usesLastIndex = true → t.size < v.lastIndex →
    (v.exec eng t).result = .ok none ∧ (v.exec eng t).value.lastIndex = 0
  /-- If there is an error, it goes on where it stood. -/
  failed : ∀ f, (v.exec eng t).result = .error f → (v.exec eng t).value.lastIndex = v.lastIndex
  /-- If it remembers and there is no match, it goes on at the beginning. -/
  missed : v.usesLastIndex = true → (v.exec eng t).result = .ok none →
    (v.exec eng t).value.lastIndex = 0
  /-- If it does not remember, it goes on where it stood, be it matched or tested. -/
  forgets : v.usesLastIndex = false →
    (v.exec eng t).value.lastIndex = v.lastIndex ∧ (v.test eng t).value.lastIndex = v.lastIndex
  /-- If it remembers, it is tested as it is matched. -/
  tested : v.usesLastIndex = true →
    (v.test eng t).result = (v.exec eng t).result.map Option.isSome ∧
      (v.test eng t).value = (v.exec eng t).value

/-- **Every value keeps its place.** -/
theorem keepsPlace (v : Value) (eng : Engine) (t : Text) : v.KeepsPlace eng t := by
  have hsearches := v.exec_searches eng t
  refine ⟨?_, ?_, ?_, ?_, ?_⟩
  · intro huses hbeyond
    rw [← searchStart_of_usesLastIndex huses] at hbeyond
    generalize (v.exec eng t).result = result at hsearches ⊢
    generalize (v.exec eng t).value.lastIndex = n at hsearches ⊢
    cases hsearches with
    | beyond => exact ⟨rfl, rfl⟩
    | failed hstands | missed hstands | found hstands => exact absurd hbeyond (Nat.not_lt.2 hstands)
  · intro f hf
    rw [hf] at hsearches
    generalize (v.exec eng t).value.lastIndex = n at hsearches ⊢
    cases hsearches with
    | failed => rfl
  · intro huses hnone
    rw [hnone] at hsearches
    generalize hresult : Except.ok none = result at hsearches
    generalize (v.exec eng t).value.lastIndex = n at hsearches ⊢
    cases hsearches with
    | beyond => rfl
    | missed => exact if_pos huses
    | failed | found => cases hresult
  · intro hforgets
    exact ⟨hsearches.lastIndex_of_forgets hforgets,
      (v.test_searches eng t).lastIndex_of_forgets hforgets⟩
  · intro huses
    obtain ⟨hresult, hvalue⟩ := v.exec_eq eng t
    rw [hresult, hvalue, test, search_of_usesLastIndex huses]
    refine ⟨?_, rfl⟩
    rcases (v.search eng t true).result with f | _ | pairs <;> rfl

/-! ### Finding the first match -/

/-- A new record for source and flags of the value. -/
def record (v : Value) : Record := { source := v.source, flags := v.flags }

/-- The trails of a pattern for the value in the part of a text that it is run over. -/
def trailsAt (v : Value) (p : Pattern) (t : Text) (q : Nat) : List Trail :=
  (v.record.anchoredIfSticky p).root.trails (v.record.view t v.searchStart) v.flags.ignoreCase
    (.init q)

/-- What a search of this part of the text from where the value stands may answer, by these
trails. -/
def Told (v : Value) (p : Pattern) (t : Text) (x : Outcome) : Prop :=
  x.Finds p.groups (v.trailsAt p t) (v.searchStart - v.record.displacement v.searchStart)
    (v.record.view t v.searchStart).size

/-- These are the pairs of the first match, moved to their places in the text, and it spans this
part of the text, which lies behind where the value stands. -/
structure First (v : Value) (p : Pattern) (t : Text) (pairs : Array Pair) (first stop : Nat) :
    Prop where
  told : ∃ found, v.Told p t (.matched found) ∧
    pairs = found.map (·.shift (v.record.displacement v.searchStart))
  span : pairs[0]? = some (.span first stop)
  start_le : v.searchStart ≤ first
  le : first ≤ stop
  stop_le : stop ≤ t.size

/-- What a value finds from where it stands, and where it goes on: the first match, and its end if
the value remembers; or nothing, if there is no match, and the beginning. -/
inductive Finds (v : Value) (t : Text) : Option Captures → Nat → Prop
  | missed {p : Pattern} (hparse : parse v.source v.flags = .ok p) (hnone : v.Told p t .noMatch) :
    Finds v t none (if v.usesLastIndex then 0 else v.lastIndex)
  | found {p : Pattern} {pairs : Array Pair} {first stop : Nat}
    (hparse : parse v.source v.flags = .ok p) (hfirst : v.First p t pairs first stop) :
    Finds v t (some ⟨t, pairs⟩) (if v.usesLastIndex then stop else v.lastIndex)

/-- The pairs that a search tells of, at their places. -/
theorem First.of_told {p : Pattern} {found : Array Pair} (h : v.Told p t (.matched found))
    (hstands : v.searchStart ≤ t.size) :
    ∃ first stop,
      v.First p t (found.map (·.shift (v.record.displacement v.searchStart))) first stop := by
  obtain ⟨hback, hview⟩ := v.record.view_bounds hstands
  obtain ⟨-, first, stop, hzero, hstart, hle, hstop, -⟩ := Outcome.Finds.located h
  refine ⟨first + v.record.displacement v.searchStart, stop + v.record.displacement v.searchStart,
    ⟨found, h, rfl⟩, ?_, by omega, by omega, by omega⟩
  rw [Array.getElem?_map, hzero, Option.map_some, Pair.shift, Pair.isUndefined_span,
    if_neg Bool.false_ne_true, Pair.span, Pair.span]
  simp

/-- The record that a value asks for was made for it, and is executed. -/
theorem exists_execution (h : eng.Regular .made o) (hv : v.Linked eng.registry) (t : Text)
    (wantPairs : Bool) :
    ∃ (r : Record) (g : Generator) (limits : Limits) (i : Interrupts), r.Made ∧ g.Own ∧
      r.source = v.source ∧ r.flags = v.flags ∧
      let e := r.execute g limits i t v.searchStart (v.searchBuffer wantPairs)
      (v.execution eng t wantPairs).result = e.result ∧
        (v.execution eng t wantPairs).buffer = e.buffer := by
  obtain ⟨hupdates, hkey⟩ := shared_spec h hv
  have hregular := hupdates.becomes.regular
  obtain ⟨r, hr, hrv⟩ := Registry.exists_of_key? hkey
  let eng' : Engine := (v.shared eng).2.2
  refine ⟨r, eng'.generator, eng'.options.limits, eng'.interrupts, hregular.registry.holds hr,
    hregular.generator, congrArg Prod.fst hrv, congrArg Prod.snd hrv, ?_⟩
  rw [execution, Engine.execute, hr]
  exact ⟨rfl, rfl⟩

/-- With a buffer the execution tells what the first match is. -/
theorem execution_tells (h : eng.Regular .made o) (hv : v.Linked eng.registry) {wantPairs : Bool}
    {b : Buffer} (hb : v.searchBuffer wantPairs = some b) {status : Status}
    (hstatus : (v.execution eng t wantPairs).result = .ok status) :
    ∃ p, parse v.source v.flags = .ok p ∧
      match status with
      | .success => ∃ found c, v.Told p t (.matched found) ∧
          (v.execution eng t wantPairs).buffer = some c ∧
            c.pairs = found.map (·.shift (v.record.displacement v.searchStart))
      | .notFound => v.Told p t .noMatch := by
  obtain ⟨r, g, limits, i, hr, hg, hsource, hflags, hresult, hbuffer⟩ :=
    exists_execution h hv t wantPairs
  rw [hb] at hresult hbuffer
  obtain ⟨p, hparse, htells⟩ := hr.execute_tells hg (hresult.symm.trans hstatus)
  have hsame : r.flags = v.record.flags := hflags
  rw [Record.view_congr hsame, Record.displacement_congr hsame, hsame] at htells
  simp only [Record.anchoredIfSticky_congr hsame] at htells
  refine ⟨p, by rw [← hsource, ← hflags]; exact hparse, ?_⟩
  cases status with
  | notFound => exact htells
  | success =>
    obtain ⟨found, c, hfinds, hc, hpairs⟩ := htells
    exact ⟨found, c, hfinds, hbuffer.trans hc, hpairs⟩

/-- Without a buffer it tells whether there is a match. -/
theorem execution_detects (h : eng.Regular .made o) (hv : v.Linked eng.registry)
    {wantPairs : Bool} (hb : v.searchBuffer wantPairs = none) {status : Status}
    (hstatus : (v.execution eng t wantPairs).result = .ok status) :
    ∃ p, parse v.source v.flags = .ok p ∧
      (status = .notFound ↔ v.Told p t .noMatch) := by
  obtain ⟨r, g, limits, i, hr, hg, hsource, hflags, hresult, -⟩ :=
    exists_execution h hv t wantPairs
  rw [hb] at hresult
  obtain ⟨p, hparse, hdetects⟩ := hr.execute_detects hg (hresult.symm.trans hstatus)
  have hsame : r.flags = v.record.flags := hflags
  rw [Record.view_congr hsame, Record.displacement_congr hsame, hsame] at hdetects
  simp only [Record.anchoredIfSticky_congr hsame] at hdetects
  exact ⟨p, by rw [← hsource, ← hflags]; exact hparse, hdetects⟩

/-- **What a value finds from where it stands.** -/
theorem exec_finds (h : eng.Regular .made o) (hv : v.Linked eng.registry)
    (hstands : v.searchStart ≤ t.size) {a : Option Captures} (ha : (v.exec eng t).result = .ok a) :
    v.Finds t a (v.exec eng t).value.lastIndex := by
  have hsearches := v.exec_searches eng t
  rw [ha] at hsearches
  generalize hok : (Except.ok a : Except Failure (Option Captures)) = result at hsearches
  generalize (v.exec eng t).value.lastIndex = n at hsearches ⊢
  cases hsearches with
  | beyond hbeyond => exact absurd hbeyond (Nat.not_lt.2 hstands)
  | failed => cases hok
  | missed _ he =>
    obtain rfl := Except.ok.inj hok
    obtain ⟨p, hparse, htold⟩ := execution_tells h hv rfl he
    exact .missed hparse htold
  | @found pairs _ he hpairs =>
    obtain rfl := Except.ok.inj hok
    obtain ⟨p, hparse, found, c, htold, hbuffer, hmoved⟩ := execution_tells h hv rfl he
    rw [hbuffer] at hpairs
    obtain rfl : pairs = found.map _ := hpairs.trans hmoved
    obtain ⟨first, stop, hfirst⟩ := First.of_told htold hstands
    have hlimit : ((found.map (·.shift (v.record.displacement v.searchStart))).getD 0
        Pair.undefined).limit.toNat = stop := by
      rw [Array.getD_eq_getD_getElem?, hfirst.span]
      rfl
    rw [hlimit]
    exact .found hparse hfirst

/-- **A test tells whether there is a match** from where the value stands. -/
theorem test_detects (h : eng.Regular .made o) (hv : v.Linked eng.registry)
    (hstands : v.searchStart ≤ t.size) {b : Bool} (hb : (v.test eng t).result = .ok b) :
    ∃ p, parse v.source v.flags = .ok p ∧ (b = false ↔ v.Told p t .noMatch) := by
  have hdetects : ∀ status, (v.execution eng t false).result = .ok status →
      ∃ p, parse v.source v.flags = .ok p ∧ (status = .notFound ↔ v.Told p t .noMatch) := by
    intro status hstatus
    cases hbuffer : v.searchBuffer false with
    | none => exact execution_detects h hv hbuffer hstatus
    | some b =>
      obtain ⟨p, hparse, htells⟩ := execution_tells h hv hbuffer hstatus
      refine ⟨p, hparse, ?_⟩
      cases status with
      | notFound => exact iff_of_true rfl htells
      | success =>
        obtain ⟨found, c, htold, -⟩ := htells
        have hfound := Outcome.Finds.found_iff htold rfl p.groups
        refine iff_of_false (fun hsame => by cases hsame) ?_
        intro hnone
        cases hfound.2 hnone
  have hsearches := v.test_searches eng t
  rw [hb] at hsearches
  generalize hok : (Except.ok b : Except Failure Bool) = result at hsearches
  generalize (v.test eng t).value.lastIndex = n at hsearches
  cases hsearches with
  | beyond hbeyond => exact absurd hbeyond (Nat.not_lt.2 hstands)
  | failed => cases hok
  | missed _ he =>
    obtain rfl := Except.ok.inj hok
    obtain ⟨p, hparse, hiff⟩ := hdetects _ he
    exact ⟨p, hparse, iff_of_true rfl (hiff.1 rfl)⟩
  | found _ he =>
    obtain rfl := Except.ok.inj hok
    obtain ⟨p, hparse, hiff⟩ := hdetects _ he
    refine ⟨p, hparse, iff_of_false (fun hsame => by cases hsame) ?_⟩
    intro hnone
    cases hiff.2 hnone

/-- **Testing is matching without the offsets.**  What is found is found, and the value goes on at
the same place. -/
theorem test_of_exec (h : eng.Regular .made o) (hv : v.Linked eng.registry) {a : Option Captures}
    {b : Bool} (ha : (v.exec eng t).result = .ok a) (hb : (v.test eng t).result = .ok b) :
    b = a.isSome ∧ (v.test eng t).value.lastIndex = (v.exec eng t).value.lastIndex := by
  have hkeeps := v.keepsPlace eng t
  cases huses : v.usesLastIndex with
  | true =>
    obtain ⟨hresult, hvalue⟩ := hkeeps.tested huses
    rw [ha, hb] at hresult
    exact ⟨Except.ok.inj hresult, congrArg lastIndex hvalue⟩
  | false =>
    obtain ⟨hexec, htest⟩ := hkeeps.forgets huses
    refine ⟨?_, htest.trans hexec.symm⟩
    have hstands : v.searchStart ≤ t.size := by
      rw [searchStart_of_forgets huses]
      exact Nat.zero_le _
    obtain ⟨p, hparse, hiff⟩ := test_detects h hv hstands hb
    have hfinds := exec_finds h hv hstands ha
    generalize (v.exec eng t).value.lastIndex = n at hfinds
    cases hfinds with
    | @missed p' hparse' hnone =>
      obtain rfl := Except.ok.inj (hparse.symm.trans hparse')
      exact hiff.2 hnone
    | @found p' pairs first stop hparse' hfirst =>
      obtain rfl := Except.ok.inj (hparse.symm.trans hparse')
      obtain ⟨found, htold, -⟩ := hfirst.told
      have hnot := (Outcome.Finds.found_iff htold rfl p.groups).not.1 (by simp)
      exact eq_true_of_ne_false fun hfalse => hnot (hiff.1 hfalse)

/-! ### Matching again and again -/

/-- What matching one text again and again leaves behind, after so many calls before. -/
def calls (v : Value) (eng : Engine) (t : Text) : Nat → Matching (Option Captures)
  | 0 => v.exec eng t
  | n + 1 => (v.exec eng t).value.calls (v.exec eng t).engine t n

/-- The match is this part of the text. -/
def Matching.Spans (m : Matching (Option Captures)) (t : Text) (first stop : Nat) : Prop :=
  ∃ c, m.result = .ok (some c) ∧ c.group? 0 = some ⟨t, first, stop⟩

/-- There is an error, or a match of nothing, or no match, and then the value goes on at the
beginning. -/
def Matching.Ends (m : Matching (Option Captures)) (t : Text) : Prop :=
  (∃ f, m.result = .error f) ∨ (∃ place, m.Spans t place place) ∨
    (m.result = .ok none ∧ m.value.lastIndex = 0)

/-- Matching one text again and again finds these parts of it, one behind the other, and then comes
to an end. -/
structure Walks (v : Value) (eng : Engine) (t : Text) (spans : List (Nat × Nat)) : Prop where
  length : spans.length ≤ t.size - v.lastIndex
  found : ∀ (k : Nat) (hk : k < spans.length), (v.calls eng t k).Spans t spans[k].1 spans[k].2
  inside : ∀ s ∈ spans, v.lastIndex ≤ s.1 ∧ s.1 < s.2 ∧ s.2 ≤ t.size
  disjoint : spans.Pairwise fun s s' => s.2 ≤ s'.1
  ends : (v.calls eng t spans.length).Ends t

/-- Nothing is found but the end. -/
theorem Walks.nil (hends : (v.exec eng t).Ends t) : v.Walks eng t [] where
  length := Nat.zero_le _
  found k hk := absurd hk (Nat.not_lt_zero k)
  inside s hs := by cases hs
  disjoint := .nil
  ends := hends

/-- A match in front of those that are found from its end on. -/
theorem Walks.cons {first stop : Nat} {spans : List (Nat × Nat)}
    (hspans : (v.exec eng t).Spans t first stop) (hfirst : v.lastIndex ≤ first)
    (hlt : first < stop) (hstop : stop ≤ t.size)
    (hlast : (v.exec eng t).value.lastIndex = stop)
    (h : (v.exec eng t).value.Walks (v.exec eng t).engine t spans) :
    v.Walks eng t ((first, stop) :: spans) := by
  have hlength := h.length
  have hinside : ∀ s ∈ spans, stop ≤ s.1 ∧ s.1 < s.2 ∧ s.2 ≤ t.size := hlast ▸ h.inside
  rw [hlast] at hlength
  refine ⟨?_, ?_, ?_, ?_, h.ends⟩
  · rw [List.length_cons]
    omega
  · intro k hk
    cases k with
    | zero => exact hspans
    | succ k => exact h.found k (Nat.lt_of_succ_lt_succ hk)
  · intro s hs
    rcases List.mem_cons.1 hs with rfl | hs
    · exact ⟨hfirst, hlt, hstop⟩
    · obtain ⟨hbehind, hrest⟩ := hinside s hs
      exact ⟨by omega, hrest⟩
  · exact List.pairwise_cons.2 ⟨fun s hs => (hinside s hs).1, h.disjoint⟩

/-- What one call of a value that remembers does. -/
theorem exec_cases (h : eng.Regular .made o) (hv : v.Linked eng.registry)
    (huses : v.usesLastIndex = true) (t : Text) :
    (v.exec eng t).Ends t ∨ ∃ first stop, (v.exec eng t).Spans t first stop ∧
      v.lastIndex ≤ first ∧ first < stop ∧ stop ≤ t.size ∧
        (v.exec eng t).value.lastIndex = stop := by
  have hkeeps := v.keepsPlace eng t
  have hstart := searchStart_of_usesLastIndex huses
  cases hresult : (v.exec eng t).result with
  | error f => exact .inl (.inl ⟨f, hresult⟩)
  | ok a =>
    cases a with
    | none => exact .inl (.inr (.inr ⟨hresult, hkeeps.missed huses hresult⟩))
    | some c =>
      -- behind the text there are no matches
      have hstands : v.searchStart ≤ t.size := by
        by_contra hbeyond
        rw [hstart, Nat.not_le] at hbeyond
        obtain ⟨hnone, -⟩ := hkeeps.beyond huses hbeyond
        cases hresult.symm.trans hnone
      have hfinds := exec_finds h hv hstands hresult
      generalize hn : (v.exec eng t).value.lastIndex = n at hfinds
      cases hfinds with
      | @found p pairs first stop hparse hfirst =>
        have hspans : (v.exec eng t).Spans t first stop := by
          refine ⟨_, hresult, ?_⟩
          rw [Captures.group?, hfirst.span]
          rfl
        rcases Nat.eq_or_lt_of_le hfirst.le with rfl | hlt
        · exact .inl (.inr (.inl ⟨first, hspans⟩))
        · exact .inr ⟨first, stop, hspans, hstart ▸ hfirst.start_le, hlt, hfirst.stop_le,
            if_pos huses⟩

/-- **Matching one text again and again comes to an end.**  A value that remembers finds parts of
the text that are not empty, one behind the other, and so no more than there are units. -/
theorem exists_walks (h : eng.Regular .made o) (hv : v.Linked eng.registry)
    (huses : v.usesLastIndex = true) (t : Text) : ∃ spans, v.Walks eng t spans := by
  -- each match ends nearer to the end of the text than the one before
  induction hroom : t.size - v.lastIndex using Nat.strongRecOn generalizing v eng with
  | ind room ih =>
    rcases exec_cases h hv huses t with
      hends | ⟨first, stop, hspans, hfirst, hlt, hstop, hlast⟩
    · exact ⟨[], .nil hends⟩
    · have hupdates := exec_spec h hv t
      have hless : t.size - (v.exec eng t).value.lastIndex < room := by omega
      have hflags : (v.exec eng t).value.flags = v.flags := congrArg Prod.snd hupdates.key
      have hsame : (v.exec eng t).value.usesLastIndex = true := by
        rw [usesLastIndex, hflags]
        exact huses
      obtain ⟨spans, hwalks⟩ := ih _ hless hupdates.becomes.regular hupdates.linked hsame rfl
      exact ⟨(first, stop) :: spans, hwalks.cons hspans hfirst hlt hstop hlast⟩

/-- What a value finds, and where it goes on, when no code is the host's. -/
structure GoesOn (v : Value) (eng : Engine) (t : Text) : Prop where
  /-- Unless it stands behind the text, it finds the first match from where it stands. -/
  exec : v.searchStart ≤ t.size → ∀ a, (v.exec eng t).result = .ok a →
    v.Finds t a (v.exec eng t).value.lastIndex
  /-- A test tells whether there is one. -/
  test : v.searchStart ≤ t.size → ∀ b, (v.test eng t).result = .ok b →
    ∃ p, parse v.source v.flags = .ok p ∧ (b = false ↔ v.Told p t .noMatch)
  /-- If neither of the two ends with an error, they agree, and the value goes on at the same
  place. -/
  agrees : ∀ a b, (v.exec eng t).result = .ok a → (v.test eng t).result = .ok b →
    b = a.isSome ∧ (v.test eng t).value.lastIndex = (v.exec eng t).value.lastIndex
  /-- If it remembers and the text is matched again and again, that comes to an end. -/
  walks : v.usesLastIndex = true → ∃ spans, v.Walks eng t spans

/-- **Every value goes on where it should**, in an engine whose records were made by generators of
its own. -/
theorem goesOn (h : eng.Regular .made o) (hv : v.Linked eng.registry) (t : Text) :
    v.GoesOn eng t where
  exec hstands _ := exec_finds h hv hstands
  test hstands _ := test_detects h hv hstands
  agrees _ _ := test_of_exec h hv
  walks huses := exists_walks h hv huses t

end Value

end RegexEngine

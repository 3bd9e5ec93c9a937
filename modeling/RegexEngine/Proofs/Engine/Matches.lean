import RegexEngine.Engine.Regex
import RegexEngine.Proofs.Engine.Undisturbed

/-!
# All matches in a text

A walk through a text searches again and again, each time from the end of the last match on, and
one unit further if that match is empty.  So it finds every leftmost match once, and comes to an
end.

* `Regex.MadeBy` — the patterns that a builder leads to, whatever they have been used for.
* `Regex.Builder.Leftmost`, `Regex.Ready.searchAt_ends` — **what a search from an offset on finds.**
* `Regex.Walk` — a walk through a text, match by match.
* `Regex.Ready.exists_walk` — **the iterator walks through the text, and then gives nothing.**
* `Regex.findAll_spec` — **the matches of a pattern in a text.**
-/

namespace RegexEngine

namespace Regex

variable {b : Builder} {r r' : Regex} {p : Pattern} {t : Text} {k start : Nat} {s : Span}

/-! ### Patterns in use -/

/-- The patterns that are made with a builder and then used.  Every search and every test is an
execution, and the flag may be raised at any time. -/
inductive MadeBy (b : Builder) : Regex → Prop
  | built {r : Regex} (h : b.build = .ok r) : MadeBy b r
  | executed {r : Regex} (h : MadeBy b r) (t : Text) (start : Nat) (buffer : Option Buffer) :
    MadeBy b { r with engine := (r.engine.execute r.record t start buffer).engine }
  | raised {r : Regex} (h : MadeBy b r) :
    MadeBy b { r with engine := { r.engine with interrupts := r.engine.interrupts.request } }

/-- The record of the pattern is registered for source and flags of its builder, and its source is
a pattern. -/
structure Keeps (b : Builder) (r : Regex) : Prop where
  regular : r.engine.Regular (.reached b.options) b.options
  key : r.engine.registry.key? r.record = some (b.source, b.flags)
  parsed : ∃ p, parse b.source b.flags = .ok p

theorem keeps_of_build (h : b.build = .ok r) : Keeps b r := by
  rw [Builder.build] at h
  cases hparse : parse b.source b.flags with
  | error f =>
    rw [hparse] at h
    cases h
  | ok p =>
    rw [hparse] at h
    cases h
    obtain ⟨hbecomes, hkey⟩ :=
      (Engine.quiet_new b.options).regular.get_spec (b.source, b.flags)
    exact ⟨hbecomes.regular, hkey, p, hparse⟩

/-- **However a pattern is used, its record stays what it is.** -/
theorem MadeBy.keeps (h : MadeBy b r) : Keeps b r := by
  induction h with
  | built h => exact keeps_of_build h
  | @executed r _ t start buffer ih =>
    have hbecomes := ih.regular.execute_spec r.record t start buffer
    exact ⟨hbecomes.regular, hbecomes.grows.kept _ _ trivial ih.key, ih.parsed⟩
  | raised _ ih =>
    exact ⟨⟨ih.regular.options, ih.regular.registry, ih.regular.generator⟩, ih.key, ih.parsed⟩

/-- The execution of a search. -/
def execution (r : Regex) (t : Text) (start : Nat) : Engine.Execution :=
  r.engine.execute r.record t start (some (.growing #[]))

/-- What a search answers, given its execution. -/
theorem fst_searchAt (r : Regex) (t : Text) (start : Nat) :
    (r.searchAt t start).1 = (r.execution t start).result.map fun status =>
      match status with
      | .notFound => none
      | .success => some ⟨t, ((r.execution t start).buffer.map Buffer.pairs).getD #[]⟩ := by
  rw [searchAt, show r.engine.execute r.record t start (some { fixed := false }) =
    r.execution t start from rfl]
  rcases (r.execution t start).result with f | _ | _ <;> rfl

/-- A search changes the engine as its execution does. -/
theorem snd_searchAt (r : Regex) (t : Text) (start : Nat) :
    (r.searchAt t start).2 = { r with engine := (r.execution t start).engine } := by
  rw [searchAt, show r.engine.execute r.record t start (some { fixed := false }) =
    r.execution t start from rfl]
  rcases (r.execution t start).result with f | _ | _ <;> rfl

theorem MadeBy.searchAt (h : r.MadeBy b) (t : Text) (start : Nat) :
    (r.searchAt t start).2.MadeBy b := by
  rw [snd_searchAt]
  exact h.executed t start _

theorem MadeBy.isMatch (h : r.MadeBy b) (t : Text) : (r.isMatch t).2.MadeBy b :=
  h.executed t 0 none

/-- A pattern in use while no interrupt is raised. -/
structure Ready (b : Builder) (r : Regex) : Prop where
  made : r.MadeBy b
  clear : r.engine.interrupts.requested = false

namespace Ready

theorem quiet (h : r.Ready b) : r.engine.Quiet b.options := ⟨h.made.keeps.regular, h.clear⟩

/-- A search does not raise one. -/
theorem searchAt (h : r.Ready b) (t : Text) (start : Nat) : (r.searchAt t start).2.Ready b where
  made := h.made.searchAt t start
  clear := by
    rw [snd_searchAt]
    exact (h.quiet.execute r.record t start _).clear

/-- **What a search answers does not depend on what the pattern was used for before.** -/
theorem searchAt_agrees (h : r.Ready b) (h' : r'.Ready b) (t : Text) (start : Nat) :
    (r'.searchAt t start).1 = (r.searchAt t start).1 := by
  have hagrees : (r'.execution t start).Agrees (r.execution t start) :=
    h'.quiet.execute_agrees h.quiet h'.made.keeps.key h.made.keeps.key t start _
  rw [fst_searchAt, fst_searchAt, hagrees.result, hagrees.buffer]

end Ready

/-! ### Leftmost matches -/

namespace Builder

/-- The ways in which the pattern matches at an offset, in a search from `k` on.  A sticky pattern
is run over the rest of the text, and matches at its start only. -/
def trailsAt (b : Builder) (p : Pattern) (t : Text) (k q : Nat) : List Trail :=
  if b.flags.sticky then
    if q = k then p.root.trails (t.drop k) b.flags.ignoreCase (.init 0) else []
  else p.root.trails t b.flags.ignoreCase (.init q)

/-- How far the positions in these ways lie behind those in the text. -/
def shift (b : Builder) (k : Nat) : Nat := if b.flags.sticky then k else 0

/-- The part of a text is the leftmost match from `k` on: the pattern matches at its start and at
no offset in between, and its end is where the first way in which it matches there ends. -/
structure Leftmost (b : Builder) (p : Pattern) (t : Text) (k : Nat) (s : Span) : Prop where
  text : s.text = t
  start_le : k ≤ s.start
  le : s.start ≤ s.stop
  stop_le : s.stop ≤ t.size
  here : ∃ y rest, b.trailsAt p t k s.start = y :: rest ∧ y.pos + b.shift k = s.stop
  before : ∀ q, k ≤ q → q < s.start → b.trailsAt p t k q = []

/-- The pattern matches nowhere from `k` on. -/
def Nowhere (b : Builder) (p : Pattern) (t : Text) (k : Nat) : Prop :=
  ∀ q, k ≤ q → q ≤ t.size → b.trailsAt p t k q = []

/-- A match of a sticky pattern never slides. -/
theorem Leftmost.start_eq (h : b.Leftmost p t k s) (hsticky : b.flags.sticky = true) :
    s.start = k := by
  obtain ⟨y, rest, hhere, -⟩ := h.here
  rw [trailsAt, if_pos hsticky] at hhere
  split at hhere
  · assumption
  · cases hhere

/-- A new record for source and flags of the builder. -/
def record (b : Builder) : Record := { source := b.source, flags := b.flags }

/-- These ways are those of the record, in the part of the text that it is run over. -/
theorem trailsAt_eq (b : Builder) (p : Pattern) (t : Text) {q : Nat} (hq : k ≤ q) :
    b.trailsAt p t k q = (b.record.anchoredIfSticky p).root.trails (b.record.view t k)
      b.flags.ignoreCase (.init (q - b.record.displacement k)) := by
  cases hsticky : b.flags.sticky with
  | false => simp [trailsAt, record, Record.anchoredIfSticky, Record.view, Record.displacement,
      hsticky]
  | true =>
    have hanchored := congrFun (p.trails_anchored (t.drop k) b.flags.ignoreCase) (q - k)
    simp only [trailsAt, record, Record.anchoredIfSticky, Record.view, Record.displacement, hsticky,
      if_true, hanchored, pinned]
    by_cases hsame : q = k
    · rw [if_pos hsame, if_pos (by omega), hsame, Nat.sub_self]
    · rw [if_neg hsame, if_neg (by omega)]

/-- A search of the record that finds a match finds the leftmost one. -/
theorem leftmost_of_finds (hk : k ≤ t.size) {found : Array Pair}
    (h : (Outcome.matched found).Finds p.groups (fun q => (b.record.anchoredIfSticky p).root.trails
      (b.record.view t k) b.flags.ignoreCase (.init q)) (k - b.record.displacement k)
      (b.record.view t k).size) :
    ∃ s, Captures.group? ⟨t, found.map (·.shift (b.record.displacement k))⟩ 0 = some s ∧
      b.Leftmost p t k s := by
  obtain ⟨hback, hview⟩ := b.record.view_bounds hk
  obtain ⟨q, y, rest, hstart, hlast, htrails, rfl, hbefore⟩ := h
  have hwithin : y.Within (b.record.view t k) q :=
    Node.within_of_mem_trails _ (Trail.within_init hlast) (htrails ▸ List.mem_cons_self)
  have hpos := hwithin.pos_le
  have hfrom : k ≤ q + b.record.displacement k := by omega
  have hto : y.pos + b.record.displacement k ≤ t.size := by omega
  refine ⟨⟨t, q + b.record.displacement k, y.pos + b.record.displacement k⟩, ?_, ⟨rfl, hfrom,
    Nat.add_le_add_right hwithin.start_le _, hto, ⟨y, rest, ?_, rfl⟩, fun q' hq' hlt => ?_⟩⟩
  · have hzero : (y.pairs p.groups q)[0]? = some (.span q y.pos) := by
      simp [Trail.pairs, Trail.pair]
    rw [Captures.group?, Array.getElem?_map, hzero]
    rfl
  · rw [trailsAt_eq b p t hfrom, Nat.add_sub_cancel]
    exact htrails
  · have hlt' : q' < q + b.record.displacement k := hlt
    rw [trailsAt_eq b p t hq']
    exact hbefore _ (by omega) (by omega)

/-- A search of the record that finds no match tells that there is none. -/
theorem nowhere_of_finds (hk : k ≤ t.size)
    (h : Outcome.noMatch.Finds p.groups (fun q => (b.record.anchoredIfSticky p).root.trails
      (b.record.view t k) b.flags.ignoreCase (.init q)) (k - b.record.displacement k)
      (b.record.view t k).size) : b.Nowhere p t k := by
  obtain ⟨hback, hview⟩ := b.record.view_bounds hk
  intro q hq hlast
  rw [trailsAt_eq b p t hq]
  exact h _ (by omega) (by omega)

/-- How a search from `k` on ends: there is a reason why it has no answer, or the pattern matches
nowhere, or the leftmost match is found. -/
inductive Ends (b : Builder) (p : Pattern) (t : Text) (k : Nat) :
    Except Failure (Option Captures) → Prop
  | failed {f : Failure} (h : Record.Unanswered t f) : Ends b p t k (.error f)
  | missed (h : b.Nowhere p t k) : Ends b p t k (.ok none)
  | found {c : Captures} {s : Span} (hspan : c.group? 0 = some s) (h : b.Leftmost p t k s) :
    Ends b p t k (.ok (some c))

end Builder

/-- **What a search from an offset in the text on finds**, while no interrupt is raised. -/
theorem Ready.searchAt_ends (h : r.Ready b) (hparse : parse b.source b.flags = .ok p)
    (hk : k ≤ t.size) : b.Ends p t k (r.searchAt t k).1 := by
  obtain ⟨record, hrecord, hkey⟩ := Registry.exists_of_key? h.made.keeps.key
  have hreached : record.Reached b.options := h.quiet.regular.registry.holds hrecord
  have hsource : record.source = b.source := congrArg Prod.fst hkey
  have hflags : record.flags = b.record.flags := congrArg Prod.snd hkey
  have hparse' : parse record.source record.flags = .ok p := by
    rw [hsource, hflags]
    exact hparse
  let e := record.execute b.options.generator r.engine.options.limits r.engine.interrupts t k
    (some (.growing #[]))
  have hexecution : (r.execution t k).result = e.result ∧ (r.execution t k).buffer = e.buffer := by
    have hgenerator : r.engine.generator = b.options.generator := h.quiet.regular.generator
    rw [execution, Engine.execute, hrecord, hgenerator]
    exact ⟨rfl, rfl⟩
  rw [fst_searchAt, hexecution.1, hexecution.2]
  cases hresult : e.result with
  | error f => exact .failed (hreached.execute_unanswered hparse' h.clear hk hresult)
  | ok status =>
    obtain ⟨p', hsame, htells⟩ := hreached.execute_tells hresult
    obtain rfl := Except.ok.inj (hparse'.symm.trans hsame)
    rw [Record.view_congr hflags, Record.displacement_congr hflags, hflags] at htells
    simp only [Record.anchoredIfSticky_congr hflags] at htells
    cases status with
    | notFound => exact .missed (Builder.nowhere_of_finds hk htells)
    | success =>
      obtain ⟨found, c, hfinds, hbuffer, hpairs⟩ := htells
      have hbuffer' : e.buffer = some c := hbuffer
      obtain ⟨s, hspan, hleftmost⟩ := Builder.leftmost_of_finds hk hfinds
      rw [← hpairs] at hspan
      rw [hbuffer']
      exact .found hspan hleftmost

/-! ### Walks -/

/-- A walk through a text from an offset on, given what a search from each offset answers: the
matches, each of them the leftmost one that a search finds from where the walk goes on, and the
failure that ends it, if there is one. -/
inductive Walk (b : Builder) (p : Pattern) (t : Text)
    (search : Nat → Except Failure (Option Captures)) : Nat → List Span → Option Failure → Prop
  | beyond {k : Nat} (hk : t.size < k) : Walk b p t search k [] none
  | missed {k : Nat} (hk : k ≤ t.size) (hsearch : search k = .ok none) (h : b.Nowhere p t k) :
    Walk b p t search k [] none
  | failed {k : Nat} {f : Failure} (hk : k ≤ t.size) (hsearch : search k = .error f)
    (h : Record.Unanswered t f) : Walk b p t search k [] (some f)
  | found {k : Nat} {c : Captures} {s : Span} {spans : List Span} {final : Option Failure}
    (hsearch : search k = .ok (some c)) (hspan : c.group? 0 = some s) (h : b.Leftmost p t k s)
    (rest : Walk b p t search (Matches.resumeAfter s) spans final) :
    Walk b p t search k (s :: spans) final

/-- Behind a match the walk goes on further right: not before its end, and behind its start. -/
theorem Builder.Leftmost.lt_resumeAfter (h : b.Leftmost p t k s) :
    s.start < Matches.resumeAfter s ∧ s.stop ≤ Matches.resumeAfter s ∧ k ≤ t.size := by
  have hstart := h.start_le
  have hle := h.le
  have hstop := h.stop_le
  rw [Matches.resumeAfter]
  cases hempty : s.isEmpty with
  | true => exact ⟨Nat.lt_succ_of_le hle, Nat.le_succ _, by omega⟩
  | false =>
    have hne : s.start ≠ s.stop := by simpa [Span.isEmpty] using hempty
    exact ⟨Nat.lt_of_le_of_ne hle hne, Nat.le_refl _, by omega⟩

namespace Walk

variable {search : Nat → Except Failure (Option Captures)} {spans : List Span}
  {final : Option Failure}

/-- Each match takes up an offset of its own, and the end of the text is one more. -/
theorem length_le (h : Walk b p t search k spans final) : spans.length ≤ t.size + 1 - k := by
  induction h with
  | beyond | missed | failed => exact Nat.zero_le _
  | found _ _ hleftmost _ ih =>
    obtain ⟨hlt, -, hk⟩ := hleftmost.lt_resumeAfter
    have hstart := hleftmost.start_le
    rw [List.length_cons]
    omega

/-- No match begins before the place from which the walk goes on. -/
theorem start_le (h : Walk b p t search k spans final) : ∀ s ∈ spans, k ≤ s.start := by
  induction h with
  | beyond | missed | failed => exact fun s hs => by cases hs
  | found _ _ hleftmost _ ih =>
    obtain ⟨hlt, -, -⟩ := hleftmost.lt_resumeAfter
    have hstart := hleftmost.start_le
    intro s' hs'
    rcases List.mem_cons.1 hs' with rfl | hs'
    · exact hstart
    · have hbehind := ih s' hs'
      omega

/-- The matches lie one behind the other, and no two begin at the same place. -/
theorem ordered (h : Walk b p t search k spans final) :
    spans.Pairwise fun s s' => s.start < s'.start ∧ s.stop ≤ s'.start := by
  induction h with
  | beyond | missed | failed => exact .nil
  | found _ _ hleftmost rest ih =>
    obtain ⟨hlt, hle, -⟩ := hleftmost.lt_resumeAfter
    refine List.pairwise_cons.2 ⟨fun s' hs' => ?_, ih⟩
    have hbehind := rest.start_le s' hs'
    exact ⟨Nat.lt_of_lt_of_le hlt hbehind, Nat.le_trans hle hbehind⟩

/-- What ends a walk is a reason why a search has no answer. -/
theorem unanswered (h : Walk b p t search k spans final) :
    ∀ f, final = some f → Record.Unanswered t f := by
  induction h with
  | beyond | missed => exact fun f hf => by cases hf
  | failed _ _ hf =>
    rintro f ⟨⟩
    exact hf
  | found _ _ _ _ ih => exact ih

end Walk

/-! ### The iterator -/

namespace Matches

variable {m : Matches}

/-- What the iterator gives when it is asked for the next match after having been asked so many
times. -/
def nth (m : Matches) : Nat → Option (Except Failure Span)
  | 0 => m.next.1
  | n + 1 => m.next.2.nth n

/-- No match is to come. -/
def Over (m : Matches) : Prop := m.finished = true ∨ m.text.size < m.resume

theorem next_of_over (h : m.Over) : m.next = (none, m) := by
  rw [next, if_pos]
  simpa [Over] using h

/-- **An iterator that has come to its end gives nothing any more.** -/
theorem nth_of_over (h : m.Over) (n : Nat) : m.nth n = none := by
  induction n with
  | zero => rw [nth, next_of_over h]
  | succ n ih => rwa [nth, next_of_over h]

/-- What an iterator gives that comes to its end now. -/
theorem nth_of_last {x : Option (Except Failure Span)} {m' : Matches} (hnext : m.next = (x, m'))
    (h : m'.Over) (n : Nat) : m.nth n = x.toList[n]? := by
  cases n with
  | zero =>
    rw [nth, hnext]
    cases x <;> rfl
  | succ n =>
    rw [nth, hnext, nth_of_over h]
    cases x <;> rfl

/-- What the iterator gives if it goes on depends on what the search answers. -/
theorem next_eq (hfinished : m.finished = false) (hresume : m.resume ≤ m.text.size) :
    m.next =
      match (m.regex.searchAt m.text m.resume).1 with
      | .error f => (some (.error f),
          { m with regex := (m.regex.searchAt m.text m.resume).2, finished := true })
      | .ok c => match c.bind (·.group? 0) with
        | none => (none,
            { m with regex := (m.regex.searchAt m.text m.resume).2, finished := true })
        | some s => (some (.ok s),
            { m with regex := (m.regex.searchAt m.text m.resume).2, resume := resumeAfter s }) := by
  rw [next, if_neg (by simpa [hfinished] using hresume)]
  rcases m.regex.searchAt m.text m.resume with ⟨_ | _, _⟩ <;> rfl

/-- The next matches are what the iterator gives in turn. -/
theorem take_of_nth {l : List (Except Failure Span)} (h : ∀ n, m.nth n = l[n]?) (n : Nat) :
    m.take n = l.take n := by
  induction n generalizing m l with
  | zero => rfl
  | succ n ih =>
    have hfirst : m.next.1 = l[0]? := h 0
    have hrest : ∀ n, m.next.2.nth n = l[n + 1]? := fun n => h (n + 1)
    rw [take]
    rcases hnext : m.next with ⟨_ | x, m'⟩
    · rw [hnext] at hfirst
      cases l with
      | nil => rfl
      | cons y l => cases hfirst
    · rw [hnext] at hfirst hrest
      cases l with
      | nil => cases hfirst
      | cons y l =>
        obtain rfl : x = y := Option.some.inj hfirst
        rw [List.take_succ_cons]
        exact congrArg (x :: ·) (ih hrest)

end Matches

/-- What an iterator gives on a walk, until it gives nothing. -/
def given (spans : List Span) (final : Option Failure) : List (Except Failure Span) :=
  spans.map .ok ++ (final.map .error).toList

/-- **The iterator walks through the text, and then gives nothing.**  Take an iterator that goes on
somewhere, with a pattern in use.  Whatever the pattern has been used for, the walk is that of
another one made with the same builder. -/
theorem Ready.exists_walk (h : r.Ready b) (hparse : parse b.source b.flags = .ok p) {m : Matches}
    (hm : m.regex.Ready b) (hfinished : m.finished = false) :
    ∃ spans final, Walk b p m.text (fun k => (r.searchAt m.text k).1) m.resume spans final ∧
      ∀ n, m.nth n = (given spans final)[n]? := by
  -- each match lets the walk go on nearer to the end of the text
  induction hroom : m.text.size + 1 - m.resume using Nat.strongRecOn generalizing m with
  | ind room ih =>
    by_cases hresume : m.resume ≤ m.text.size
    · have hends := hm.searchAt_ends hparse hresume
      have hnext := Matches.next_eq hfinished hresume
      have hsame := h.searchAt_agrees hm m.text m.resume
      generalize hanswer : (m.regex.searchAt m.text m.resume).1 = answer at hends hnext hsame
      cases hends with
      | @failed f hf =>
        exact ⟨[], some f, .failed hresume hsame.symm hf, Matches.nth_of_last hnext (.inl rfl)⟩
      | missed hnowhere =>
        exact ⟨[], none, .missed hresume hsame.symm hnowhere, Matches.nth_of_last hnext (.inl rfl)⟩
      | @found c s hspan hleftmost =>
        obtain ⟨hlt, -, -⟩ := hleftmost.lt_resumeAfter
        have hstart := hleftmost.start_le
        let m' : Matches := { m with
          regex := (m.regex.searchAt m.text m.resume).2, resume := Matches.resumeAfter s }
        have hnext' : m.next = (some (.ok s), m') := by
          rw [hnext]
          dsimp only [Option.bind]
          rw [hspan]
        have hready : m'.regex.Ready b := hm.searchAt m.text m.resume
        have hless : m.text.size + 1 - Matches.resumeAfter s < room := by omega
        obtain ⟨spans, final, hwalk, hnth⟩ := ih _ hless hready hfinished rfl
        refine ⟨s :: spans, final, .found hsame.symm hspan hleftmost hwalk, fun n => ?_⟩
        cases n with
        | zero => rw [Matches.nth, hnext']; rfl
        | succ n => rw [Matches.nth, hnext', hnth]; rfl
    · have hbeyond : m.text.size < m.resume := Nat.lt_of_not_le hresume
      exact ⟨[], none, .beyond hbeyond, fun n => Matches.nth_of_over (.inr hbeyond) n⟩

/-- The matches of a pattern in a text, and the failure that ends the walk if there is one. -/
structure Enumerates (b : Builder) (r : Regex) (t : Text) (spans : List Span)
    (final : Option Failure) : Prop where
  /-- They are those of a walk from the beginning on, by what the searches of the pattern answer. -/
  walk : ∃ p, parse b.source b.flags = .ok p ∧
    Walk b p t (fun k => (r.searchAt t k).1) 0 spans final
  /-- The iterator gives the matches in turn, then the failure, and then nothing any more. -/
  nth : ∀ n, (r.findAll t).nth n = (given spans final)[n]?
  /-- There is at most one match for each unit, and one at the end. -/
  length : spans.length ≤ t.size + 1
  /-- They lie one behind the other, and no two begin at the same place. -/
  ordered : spans.Pairwise fun s s' => s.start < s'.start ∧ s.stop ≤ s'.start
  /-- No argument is refused, unless the text is longer than any that is searched. -/
  sane : ∀ f, final = some f → f ≠ .misuse ∧
    ∀ what, f = .error (.badArgument what) → Record.maxTextSize < t.size

/-- **The matches of a pattern in a text.**  Take a pattern of any source and flags, made with any
options, that has been used for whatever it may be, and let no interrupt be raised.  Its iterator
gives every leftmost match once: each is what a search from the end of the one before finds, or from
one unit further if that is empty, and the pattern matches nowhere in between.  The matches begin
further and further right, none of them before the end of the one before, so there are no more of
them than places in the text.  After the last one, or a failure, the iterator gives nothing for
ever.  The failure is never that an argument is refused, but for a text that is longer than any that
is searched. -/
theorem findAll_spec (h : r.MadeBy b) (hclear : r.engine.interrupts.requested = false) (t : Text) :
    ∃ spans final, Enumerates b r t spans final := by
  have hready : r.Ready b := ⟨h, hclear⟩
  obtain ⟨p, hparse⟩ := h.keeps.parsed
  have hm : (r.findAll t).regex.Ready b := hready
  obtain ⟨spans, final, hwalk, hnth⟩ := hready.exists_walk hparse hm rfl
  refine ⟨spans, final, ⟨p, hparse, hwalk⟩, hnth, hwalk.length_le, hwalk.ordered, ?_⟩
  intro f hf
  have hunanswered : Record.Unanswered t f := hwalk.unanswered f hf
  exact ⟨hunanswered.ne_misuse, fun what hwhat => hunanswered.lt_of_badArgument hwhat⟩

/-- The builder of a pattern that matches the empty text too. -/
def repeated : Builder := { source := "a*" }

/-- Its matches in `baa`, of which the first and the last are empty. -/
theorem findAll_spec_repeated :
    let t : Text := .ofUnits .latin1 #[98, 97, 97]
    ∃ r, repeated.build = .ok r ∧ r.MadeBy repeated ∧ r.engine.interrupts.requested = false ∧
      ∃ spans final, Enumerates repeated r t spans final ∧
        (given spans final).take 4 = [.ok ⟨t, 0, 0⟩, .ok ⟨t, 1, 3⟩, .ok ⟨t, 3, 3⟩] := by
  intro t
  obtain ⟨p, hparse, hgroups⟩ : ∃ p, parse "a*" .empty = .ok p ∧ p.groups = 0 := ⟨_, rfl, rfl⟩
  let r : Regex := ⟨0, "a*", .empty, 0, ((Engine.new {}).get "a*" .empty).2⟩
  have hbuild : repeated.build = .ok r := by
    rw [Builder.build, show parse repeated.source repeated.flags = .ok p from hparse]
    dsimp only
    rw [hgroups]
    rfl
  have htake : (r.findAll t).take 4 = [.ok ⟨t, 0, 0⟩, .ok ⟨t, 1, 3⟩, .ok ⟨t, 3, 3⟩] := by
    decide +kernel
  have hclear : r.engine.interrupts.requested = false := rfl
  obtain ⟨spans, final, henumerates⟩ := findAll_spec (.built hbuild) hclear t
  refine ⟨r, hbuild, .built hbuild, hclear, spans, final, henumerates, ?_⟩
  rw [← Matches.take_of_nth henumerates.nth, htake]

end Regex

end RegexEngine

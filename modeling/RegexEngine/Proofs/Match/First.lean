import RegexEngine.Proofs.Match.Spans
import RegexEngine.Proofs.Match.Straight

/-!
# What searches find first

A search finds the first position at which the pattern has a trail, and writes the pairs of the
trail that is preferred there.  It says that there is no match only if no position has a trail.
This holds of programs and of rows of tests, with all the positions that they pass over.

* `Outcome.Finds` — what a search must answer, given the trails at each position.
* `Machine.search_finds`, `Sequence.search_finds` — **searches keep to it.**
* `Node.trails_of_lowerOnto` — **the row of a straight tree has the trails of the tree.**
* `Pattern.Canonical.seeks_of_compile`, `Pattern.Canonical.trailsAt_of_lower` — the code that is
  made of a pattern looks for the trails of the pattern.
-/

namespace RegexEngine

/-- The pairs of a trail that began at `start`: the whole match and the groups. -/
def Trail.pairs (groups start : Nat) (y : Trail) : Array Pair :=
  Array.ofFn fun i : Fin (groups + 1) => y.pair start i

namespace Outcome

variable {groups start pos last size : Nat} {trailsAt : Nat → List Trail} {x : Outcome}

/-- What a search from `start` to `last` may answer, given the trails of a pattern at each position:
the pairs of the first trail at the first position that has one, or that there is none.  A search
that gives no answer says nothing. -/
def Finds (groups : Nat) (trailsAt : Nat → List Trail) (start last : Nat) : Outcome → Prop
  | matched found => ∃ q y rest, start ≤ q ∧ q ≤ last ∧ trailsAt q = y :: rest ∧
      found = y.pairs groups q ∧ ∀ q', start ≤ q' → q' < q → trailsAt q' = []
  | noMatch => ∀ q, start ≤ q → q ≤ last → trailsAt q = []
  | interrupted | failed _ => True

theorem finds_toOutcome (s : Stop) : s.toOutcome.Finds groups trailsAt start last := by
  cases s <;> trivial

/-- Positions in front that have no trail can be passed over. -/
theorem Finds.of_behind (h : x.Finds groups trailsAt pos last) (hle : start ≤ pos)
    (hnone : ∀ q, start ≤ q → q < pos → q ≤ last → trailsAt q = []) :
    x.Finds groups trailsAt start last := by
  cases x with
  | matched found =>
    obtain ⟨q, y, rest, hpos, hlast, htrails, hfound, hbefore⟩ := h
    refine ⟨q, y, rest, Nat.le_trans hle hpos, hlast, htrails, hfound, fun q' hq' hlt => ?_⟩
    by_cases hin : q' < pos
    · exact hnone q' hq' hin (by omega)
    · exact hbefore q' (Nat.le_of_not_lt hin) hlt
  | noMatch =>
    intro q hq hlast
    by_cases hin : q < pos
    · exact hnone q hq hin hlast
    · exact h q (Nat.le_of_not_lt hin) hlast
  | interrupted => trivial
  | failed _ => trivial

/-- So can positions behind the last one that is tried. -/
theorem Finds.of_upTo (h : x.Finds groups trailsAt start last) (hle : last ≤ size)
    (hnone : ∀ q, start ≤ q → last < q → q ≤ size → trailsAt q = []) :
    x.Finds groups trailsAt start size := by
  cases x with
  | matched found =>
    obtain ⟨q, y, rest, hstart, hlast, hfound⟩ := h
    exact ⟨q, y, rest, hstart, Nat.le_trans hlast hle, hfound⟩
  | noMatch =>
    intro q hq hsize
    by_cases hin : q ≤ last
    · exact h q hq hin
    · exact hnone q hq (Nat.lt_of_not_le hin) hsize
  | interrupted => trivial
  | failed _ => trivial

/-- **What a search finds is located.** -/
theorem Finds.located {root : Node} {text : Text} {folded : Bool} {found : Array Pair}
    (h : (matched found).Finds groups (fun q => root.trails text folded (.init q)) start
      text.size) :
    Located start text.size groups found := by
  obtain ⟨q, y, rest, hstart, hsize, htrails, rfl, -⟩ := h
  have hwithin : y.Within text q :=
    root.within_of_mem_trails (Trail.within_init hsize) (htrails ▸ List.mem_cons_self)
  refine ⟨by simp [Trail.pairs], q, y.pos, by simp [Trail.pairs, Trail.pair], hstart,
    hwithin.start_le, hwithin.pos_le, fun p hp => ?_⟩
  obtain ⟨i, rfl⟩ := Array.mem_ofFn.1 hp
  exact hwithin.inside_pair i

end Outcome

/-! ### Programs -/

namespace Machine

variable {m : Machine} {groups last room start pos q failures : Nat} {pairs : Array Pair}
  {trailsAt : Nat → List Trail}

/-- The attempts of a machine agree with the trails, and its shortcuts pass over positions without
trails only. -/
structure Seeks (m : Machine) (groups : Nat) (trailsAt : Nat → List Trail) : Prop where
  agrees : ∀ q failures, q ≤ m.text.size → m.attempt q failures ≠ .stopped .outOfSteps →
    Agrees groups q (trailsAt q) (m.attempt q failures)
  unit : ∀ u, m.program.firstUnit = some u → ∀ q, q ≤ m.text.size → trailsAt q ≠ [] →
    m.text.unit? q = some u
  start : m.program.anchored = true → ∀ q, q ≤ m.text.size → trailsAt q ≠ [] → q = 0

/-- Slots that agree with a trail are written as its pairs. -/
theorem writePairs_eq {slots : Array (Option Nat)} {y : Trail} (hcount : pairs.size = groups + 1)
    (h : ∀ i, i ≤ groups → pairOf slots i = y.pair start i) :
    writePairs slots pairs = y.pairs groups start := by
  refine Array.ext (by simpa [writePairs, Trail.pairs] using hcount) fun i hi hi' => ?_
  have hle : i ≤ groups := by
    rw [Trail.pairs, Array.size_ofFn] at hi'
    omega
  simp only [writePairs, Trail.pairs, Array.getElem_mapIdx, Array.getElem_ofFn]
  exact h i hle

/-- Where no candidate is left there is no trail. -/
theorem Seeks.candidate_none (h : m.Seeks groups trailsAt) (hc : m.candidate? pos = .ok none)
    (hq : pos ≤ q) (hsize : q ≤ m.text.size) : trailsAt q = [] := by
  rw [candidate?] at hc
  cases hfirst : m.program.firstUnit with
  | none =>
    rw [hfirst] at hc
    cases hc
  | some u =>
    rw [hfirst] at hc
    dsimp only at hc
    split at hc
    · cases hc
    · by_contra hne
      exact Text.findUnit?_none (Except.ok.inj hc) q hq (h.unit u hfirst q hsize hne)

/-- In front of the next candidate there is no trail. -/
theorem Seeks.candidate_some {p : Nat} (h : m.Seeks groups trailsAt)
    (hc : m.candidate? pos = .ok (some p)) :
    pos ≤ p ∧ ∀ q, pos ≤ q → q < p → q ≤ m.text.size → trailsAt q = [] := by
  rw [candidate?] at hc
  cases hfirst : m.program.firstUnit with
  | none =>
    rw [hfirst] at hc
    cases hc
    exact ⟨Nat.le_refl pos, fun q hq hlt => absurd hlt (Nat.not_lt.2 hq)⟩
  | some u =>
    rw [hfirst] at hc
    dsimp only at hc
    split at hc
    · cases hc
    · obtain ⟨hle, -, hbefore⟩ := Text.findUnit?_some (Except.ok.inj hc)
      refine ⟨hle, fun q hq hlt hsize => ?_⟩
      by_contra hne
      exact hbefore q hq hlt (h.unit u hfirst q hsize hne)

theorem Seeks.searchFrom_finds (h : m.Seeks groups trailsAt) (hcount : pairs.size = groups + 1)
    (hlast : last ≤ m.text.size) (hroom : last < pos + room) :
    (m.searchFrom last pairs room pos failures).Finds groups trailsAt pos last := by
  induction room generalizing pos failures with
  | zero =>
    intro q hq hle
    omega
  | succ room ih =>
    rw [searchFrom]
    cases hc : m.candidate? pos with
    | error s => exact Outcome.finds_toOutcome s
    | ok candidate =>
      cases candidate with
      | none => exact fun q hq hle => h.candidate_none hc hq (Nat.le_trans hle hlast)
      | some p =>
        obtain ⟨hle, hbefore⟩ := h.candidate_some hc
        dsimp only
        split
        · intro q hq hqlast
          exact hbefore q hq (by omega) (Nat.le_trans hqlast hlast)
        · split
          · trivial
          · -- the attempt at the candidate finds the first trail there, or there is none
            have hsize : p ≤ m.text.size := by omega
            have hagrees := h.agrees p failures hsize
            refine Outcome.Finds.of_behind ?_ hle fun q hq hlt hqlast =>
              hbefore q hq hlt (Nat.le_trans hqlast hlast)
            cases hattempt : m.attempt p failures with
            | stopped s => exact Outcome.finds_toOutcome s
            | accepted stop st =>
              rw [hattempt] at hagrees
              obtain ⟨y, rest, htrails, -, hpairs⟩ := hagrees (by simp)
              exact ⟨p, y, rest, Nat.le_refl p, by omega, htrails, writePairs_eq hcount hpairs,
                fun q hq hlt => absurd hlt (Nat.not_lt.2 hq)⟩
            | failed st =>
              rw [hattempt] at hagrees
              have hnone : trailsAt p = [] := hagrees (by simp)
              refine (ih (by omega)).of_behind (Nat.le_succ p) fun q hq hlt _ => ?_
              rwa [Nat.le_antisymm (Nat.le_of_lt_succ hlt) hq]

/-- **A search finds the first trail at the first position that has one.** -/
theorem Seeks.search_finds (h : m.Seeks groups trailsAt) (hcount : pairs.size = groups + 1)
    (start : Nat) : (m.search start pairs).Finds groups trailsAt start m.text.size := by
  rw [search]
  split
  · intro q hq hsize
    omega
  · next hstart =>
    dsimp only
    have hle : (if m.program.anchored then start else m.text.size) ≤ m.text.size := by
      split <;> omega
    refine (h.searchFrom_finds hcount hle (by omega)).of_upTo hle fun q hq hlast hsize => ?_
    -- only a program that is bound to the start of the text stops in front of the end
    split at hlast
    · next hanchored =>
      by_contra hne
      have hzero := h.start hanchored q hsize hne
      omega
    · omega

end Machine

/-- Attempts with a program that was compiled for captures agree with the tree, whatever the
failures that are counted. -/
theorem Pattern.Canonical.agrees_of_compile {p : Pattern} (hp : p.Canonical) {width : Width}
    {flags : Flags} {cap : Nat} {tables₀ tables later : Array CharTable} {prog : Program}
    (h : p.compile .normal width flags tables₀ cap = (.ok prog, tables)) {m : Machine}
    (hprog : m.program = prog) (htables : m.tables = tables ++ later)
    (hwidth : m.text.width = width) {pos : Nat} (hpos : pos ≤ m.text.size) {failures : Nat}
    (hsteps : m.attempt pos failures ≠ .stopped .outOfSteps) :
    Machine.Agrees p.groups pos (p.root.trails m.text flags.ignoreCase (.init pos))
      (m.attempt pos failures) := by
  have hslots : m.program.slots = 2 * (p.groups + 1) := by
    rw [hprog, (Pattern.eq_of_compile h).1]
    rfl
  have hfinds := Machine.attempt_spec (hp.implements_of_compile h hprog htables) hpos hsteps
  rw [hslots, htables] at hfinds
  exact hp.agrees_of_finds h hwidth hpos hfinds

/-- The shortcuts of a program pass over positions only from which its fragment has no outcome. -/
theorem Pattern.seeks_of_agrees {p : Pattern} {mode : Mode} {width : Width} {flags : Flags}
    {cap : Nat} {tables₀ tables : Array CharTable} {prog : Program}
    (h : p.compile mode width flags tables₀ cap = (.ok prog, tables)) {m : Machine}
    (hprog : m.program = prog) (all : Array CharTable) (n : Nat) {groups : Nat}
    {trailsAt : Nat → List Trail}
    (hagrees : ∀ q failures, q ≤ m.text.size → m.attempt q failures ≠ .stopped .outOfSteps →
      Machine.Agrees groups q (trailsAt q) (m.attempt q failures))
    (hthreads : ∀ q, q ≤ m.text.size →
      (p.fragment mode width flags tables₀ cap).threads all m.text (.init n q) = [] →
        trailsAt q = []) :
    m.Seeks groups trailsAt := by
  have heq := (eq_of_compile h).1
  have hthread : ∀ q, q ≤ m.text.size → trailsAt q ≠ [] →
      ∃ y, y ∈ (p.fragment mode width flags tables₀ cap).threads all m.text (.init n q) := by
    intro q hsize hne
    exact List.exists_mem_of_ne_nil _ fun hnil => hne (hthreads q hsize hnil)
  refine ⟨hagrees, ?_, ?_⟩
  · intro u hu q hsize hne
    obtain ⟨y, hy⟩ := hthread q hsize hne
    rw [hprog, heq] at hu
    simp only [Option.ite_none_left_eq_some, Bool.not_eq_true] at hu
    exact Node.unit_of_firstUnit hu.1 p.root hu.2 hy
  · intro hanchored q hsize hne
    obtain ⟨y, hy⟩ := hthread q hsize hne
    rw [hprog, heq] at hanchored
    exact Node.pos_of_startsAtInputStart p.root hanchored hy

/-- **A program that is compiled for captures looks for the trails of its pattern.** -/
theorem Pattern.Canonical.seeks_of_compile {p : Pattern} (hp : p.Canonical) {width : Width}
    {flags : Flags} {cap : Nat} {tables₀ tables later : Array CharTable} {prog : Program}
    (h : p.compile .normal width flags tables₀ cap = (.ok prog, tables)) {m : Machine}
    (hprog : m.program = prog) (htables : m.tables = tables ++ later)
    (hwidth : m.text.width = width) :
    m.Seeks p.groups fun q => p.root.trails m.text flags.ignoreCase (.init q) := by
  refine seeks_of_agrees h hprog (tables ++ later) (2 * (p.groups + 1)) ?_ ?_
  · intro q failures hsize hsteps
    exact hp.agrees_of_compile h hprog htables hwidth hsize hsteps
  · intro q hsize hnil
    have htracks := hp.tracks_of_compile h hwidth hsize later
    rw [hnil] at htracks
    exact List.forall₂_nil_left_iff.1 htracks

/-! ### Rows of tests -/

namespace Sequence

open SequenceItem

variable {s : Sequence} {t : Text} {interrupted : Bool}
  {groups last room pos start q : Nat} {pairs : Array Pair} {is js : List SequenceItem} {X : Trail}

/-- The trail of a row that matches from a trail on, if it does. -/
def rowTrails (t : Text) (items : List SequenceItem) (X : Trail) : List Trail :=
  if itemsMatch t X.pos items then [X.move (items.countP consumes)] else []

/-- The trail of a row at a position. -/
def trailsAt (s : Sequence) (t : Text) (q : Nat) : List Trail := rowTrails t s.items (.init q)

theorem trailsAt_of_not_matchesAt (h : s.matchesAt t q = false) : s.trailsAt t q = [] := by
  have h : itemsMatch t q s.items = false := h
  rw [trailsAt, rowTrails, Trail.init, h]
  exact if_neg Bool.false_ne_true

theorem trailsAt_of_matchesAt (h : s.matchesAt t q = true) :
    s.trailsAt t q = [(Trail.init q).move s.matchLength] :=
  if_pos h

/-- A row writes the pairs of its trail: none of the groups takes part. -/
theorem writeWhole_eq (hcount : pairs.size = groups + 1) (q n : Nat) :
    writeWhole q (q + n) pairs = ((Trail.init q).move n).pairs groups q := by
  refine Array.ext (by simpa [writeWhole, Trail.pairs] using hcount) fun i hi hi' => ?_
  simp only [writeWhole, Trail.pairs, Array.getElem_ofFn]
  cases i with
  | zero => exact Array.getElem_setIfInBounds_self ..
  | succ i =>
    rw [Array.getElem_setIfInBounds_ne (by simpa [writeWhole] using hi) (by omega),
      Array.getElem_map]
    rfl

theorem searchFrom_finds (hcount : pairs.size = groups + 1) (hroom : last < pos + room) :
    (s.searchFrom t interrupted last pairs room pos).Finds groups (s.trailsAt t) pos last := by
  -- the row does not match at positions that are passed over
  have hskip : ∀ pos q, pos ≤ q → (∀ p, s.candidate? t pos = some p → q < p) →
      s.trailsAt t q = [] := by
    intro pos q hq hbefore
    apply trailsAt_of_not_matchesAt
    by_contra hmatch
    obtain ⟨p, hp, -, hle⟩ := candidate_le hq (Bool.not_eq_false _ ▸ hmatch)
    exact absurd (hbefore p hp) (Nat.not_lt.2 hle)
  induction room generalizing pos with
  | zero =>
    intro q hq hle
    omega
  | succ room ih =>
    rw [searchFrom]
    cases hc : s.candidate? t pos with
    | none => exact fun q hq _ => hskip pos q hq (by simp [hc])
    | some p =>
      have hbefore : ∀ q, pos ≤ q → q < p → s.trailsAt t q = [] :=
        fun q hq hlt => hskip pos q hq (by simpa [hc] using hlt)
      dsimp only
      split
      · exact fun q hq hle => hbefore q hq (by omega)
      · split
        · trivial
        · refine Outcome.Finds.of_behind ?_ (le_of_candidate hc)
            fun q hq hlt _ => hbefore q hq hlt
          split
          · next hmatch =>
            exact ⟨p, _, [], Nat.le_refl p, by omega, trailsAt_of_matchesAt hmatch,
              writeWhole_eq hcount p s.matchLength, fun q hq hlt => absurd hlt (Nat.not_lt.2 hq)⟩
          · next hmatch =>
            have hle := le_of_candidate hc
            refine (ih (by omega)).of_behind (Nat.le_succ p) fun q hq hlt _ => ?_
            rw [Nat.le_antisymm (Nat.le_of_lt_succ hlt) hq]
            exact trailsAt_of_not_matchesAt (Bool.not_eq_true _ ▸ hmatch)

/-- **The search of a row finds the first position at which the row matches.** -/
theorem search_finds (hs : s.StartsWithAnchor) (hcount : pairs.size = groups + 1) (t : Text)
    (start : Nat) (interrupted : Bool) :
    (s.search t start pairs interrupted).Finds groups (s.trailsAt t) start t.size := by
  rw [search]
  split
  · intro q hq hsize
    omega
  · next hstart =>
    dsimp only
    have hle : (if s.anchored then start else t.size - s.matchLength) ≤ t.size := by
      split <;> omega
    refine (searchFrom_finds hcount (by omega)).of_upTo hle fun q hq hlast hsize => ?_
    apply trailsAt_of_not_matchesAt
    by_contra hmatch
    have hmatch : s.matchesAt t q = true := Bool.not_eq_false _ ▸ hmatch
    split at hlast
    · next hanchored =>
      have hzero := pos_of_matchesAt hs hanchored hmatch
      omega
    · -- no room is left for the units of a match
      have hbound : q + s.matchLength ≤ t.size := bound_of_itemsMatch hmatch hsize
      omega

/-! ### Straight trees -/

theorem itemsMatch_append (is js : List SequenceItem) (pos : Nat) :
    itemsMatch t pos (is ++ js) =
      (itemsMatch t pos is && itemsMatch t (pos + is.countP consumes) js) := by
  induction is generalizing pos with
  | nil => rfl
  | cons item is ih =>
    rw [List.cons_append, itemsMatch_cons, itemsMatch_cons, List.countP_cons]
    cases hq : item.behind? t pos with
    | none => rfl
    | some q =>
      obtain ⟨heq, -⟩ := behind?_eq_some hq
      rw [Option.any_some, Option.any_some, ih, heq]
      congr 2
      omega

theorem rowTrails_append (is js : List SequenceItem) (X : Trail) :
    rowTrails t (is ++ js) X = (rowTrails t is X).flatMap (rowTrails t js) := by
  rw [rowTrails, rowTrails, itemsMatch_append]
  cases itemsMatch t X.pos is with
  | false => rfl
  | true =>
    have hmove : (X.move (is.countP consumes)).move (js.countP consumes) =
        X.move (is.countP consumes + js.countP consumes) := by
      rw [Trail.move, Trail.move, Trail.move, Nat.add_assoc]
    rw [if_pos rfl, Bool.true_and, List.flatMap_singleton, rowTrails, List.countP_append, ← hmove]
    rfl

/-- A row of one unit consumes the unit. -/
theorem rowTrails_singleton {item : SequenceItem} (hc : item.consumes = true) (X : Trail) :
    rowTrails t [item] X = X.consume t item.accepts := by
  rw [rowTrails, itemsMatch_cons, behind?_of_consumes hc, Trail.consume]
  cases t.unit? X.pos with
  | none => rfl
  | some u =>
    rw [List.countP_cons_of_pos hc]
    dsimp only
    split <;> rfl

end Sequence

theorem Trail.consume_congr {t : Text} {X : Trail} {test test' : Nat → Bool}
    (h : ∀ u, t.unit? X.pos = some u → test u = test' u) :
    X.consume t test = X.consume t test' := by
  rw [consume, consume]
  cases hu : t.unit? X.pos with
  | none => rfl
  | some u =>
    dsimp only
    rw [h u hu]

namespace Node

open Sequence

variable {text : Text} {groups : Nat} {t : Target}

mutual

/-- **The row of a straight tree has the trails of the tree.** -/
theorem trails_of_lowerOnto (hnarrow : t.narrow = true → text.width = .latin1) : ∀ (n : Node)
    {sofar row : List SequenceItem}, n.WellFormed groups →
      lowerOnto t.folded t.narrow sofar n = some row →
        ∃ items, row = items.reverse ++ sofar ∧
          ∀ X, n.trails text t.folded X = rowTrails text items X
  | .empty, _, _, _, h => ⟨[], (Option.some.inj h).symm, fun _ => rfl⟩
  | .unit u, _, _, _, h => by
    refine ⟨[_], (Option.some.inj h).symm, fun X => ?_⟩
    rw [rowTrails_singleton (by split <;> rfl), trails]
    refine Trail.consume_congr fun c _ => ?_
    cases hfolded : t.folded with
    | true => simp [SequenceItem.accepts, compareAs]
    | false => simp [SequenceItem.accepts, compareAs]
  | .any, _, _, _, h => by
    refine ⟨[.any], (Option.some.inj h).symm, fun X => ?_⟩
    rw [rowTrails_singleton rfl, trails]
    rfl
  | .charClass set negated, _, _, hwf, h => by
    refine ⟨[_], (Option.some.inj h).symm, fun X => ?_⟩
    rw [rowTrails_singleton rfl, trails]
    refine Trail.consume_congr fun c hc => ?_
    have hset := Thread.contains_classTable hwf fun hn => by
      rw [← hnarrow hn]
      exact Thread.lt_bound_of_unit? hc
    rw [SequenceItem.accepts, ← hset, Emit.classTable]
  | .anchor a, _, _, _, h => by
    refine ⟨[.anchor a], (Option.some.inj h).symm, fun X => ?_⟩
    rw [trails, rowTrails, itemsMatch, itemsMatch, Bool.and_true]
    rfl
  | .seq ns, _, _, hwf, h => trails_of_lowerAllOnto hnarrow ns hwf.2 h

theorem trails_of_lowerAllOnto (hnarrow : t.narrow = true → text.width = .latin1) :
    ∀ (ns : List Node) {sofar row : List SequenceItem}, AllWellFormed groups ns →
      lowerAllOnto t.folded t.narrow sofar ns = some row →
        ∃ items, row = items.reverse ++ sofar ∧
          ∀ X, sequenceTrails text t.folded ns X = rowTrails text items X
  | [], _, _, _, h => ⟨[], (Option.some.inj h).symm, fun _ => rfl⟩
  | n :: ns, sofar, row, hwf, h => by
    rw [lowerAllOnto] at h
    split at h
    · cases h
    · next front hfront =>
      obtain ⟨items, rfl, hitems⟩ := trails_of_lowerOnto hnarrow n hwf.1 hfront
      obtain ⟨items', rfl, hitems'⟩ := trails_of_lowerAllOnto hnarrow ns hwf.2 h
      refine ⟨items ++ items', by simp, fun X => ?_⟩
      rw [rowTrails_append, sequenceTrails, hitems]
      exact congrArg (List.flatMap · (rowTrails text items X)) (funext hitems')

end

end Node

/-- **The row of a pattern looks for the trails of the pattern.** -/
theorem Pattern.Canonical.trailsAt_of_lower {p : Pattern} (hp : p.Canonical) {flags : Flags}
    {t : Text} {s : Sequence} (h : Sequence.lower? p.root flags t.width = some s) (q : Nat) :
    s.trailsAt t q = p.root.trails t flags.ignoreCase (.init q) := by
  rw [Sequence.lower?] at h
  split at h
  · cases h
  · next reversed hreversed =>
    obtain rfl := Option.some.inj h
    obtain ⟨items, rfl, hitems⟩ := Node.trails_of_lowerOnto
      (t := p.target .normal t.width flags 0) (fun hn => beq_iff_eq.1 hn) p.root hp.wellFormed
      hreversed
    have hrow : (items.reverse ++ []).reverse = items := by simp
    rw [Sequence.trailsAt, hrow]
    exact (hitems _).symm

end RegexEngine

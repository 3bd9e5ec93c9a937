import Mathlib.Data.List.Basic
import RegexEngine.Proofs.Match.Attempts

/-!
# Positions that a search passes over

A search tries only positions at which the known first unit stands, and only its first position if
the pattern begins at the start of the text.  Nowhere else could an attempt succeed, so that the
search answers as one that tries every position.

* `Node.unit_of_firstUnit` — every match begins with the known first unit.
* `Node.pos_of_startsAtInputStart` — a match of a bound pattern begins at the start of the text.
* `Machine.Guided` — what the shortcuts of a program must keep to.
* `Machine.search_of_unguided` — **the shortcuts lose and invent no match.**
-/

namespace RegexEngine

namespace Node

open Fragment

variable {t : Target} {tables : Array CharTable} {text : Text} {x y : Thread}

/-! ### What is known of the first unit -/

theorem pos_of_mem_anchor {a : Anchor} {tb rg : Nat}
    (h : y ∈ ((anchor a).fragment t tb rg).threads tables text x) :
    y = x ∧ a.holds text x.pos = true := by
  simp only [fragment, threads, Option.mem_toList, Instr.pass, Option.ite_none_right_eq_some,
    Option.some.injEq] at h
  exact ⟨h.2.symm, h.1⟩

theorem pos_of_mem_look {negated : Bool} {f : Fragment}
    (h : y ∈ (Fragment.look negated f).threads tables text x) : y.pos = x.pos := by
  rcases mem_lookOutcomes h with rfl | ⟨z, -, rfl⟩ <;> rfl

/-- What holds in front of the body of an iteration holds in front of the iteration. -/
theorem of_mem_iteration {P : Nat → Prop} {span : Option (Nat × Nat)} {f : Fragment}
    (hf : ∀ x, y ∈ f.threads tables text x → P x.pos)
    (h : y ∈ (iteration span f).threads tables text x) : P x.pos := by
  rcases span with _ | ⟨first, last⟩
  · exact hf x h
  · obtain ⟨z, hz, hy⟩ := List.mem_flatMap.1 h
    have hpos : z.pos = x.pos := by
      simp only [threads, Instr.pass, Option.toList_some, List.mem_singleton] at hz
      rw [hz]
    rw [← hpos]
    exact hf _ hy

/-- What holds in front of the body of a group holds in front of the group. -/
theorem of_mem_group {P : Nat → Prop} {slot slot' : Nat} {f : Fragment}
    (hf : ∀ x y, y ∈ f.threads tables text x → P x.pos)
    (h : y ∈ (append (.instr (.save slot)) (append f (.instr (.save slot')))).threads
      tables text x) : P x.pos := by
  obtain ⟨z, hz, hy⟩ := List.mem_flatMap.1 h
  obtain ⟨w, hw, -⟩ := List.mem_flatMap.1 hy
  have hpos : z.pos = x.pos := by
    simp only [threads, Instr.pass, Option.toList_some, List.mem_singleton] at hz
    rw [hz]
  rw [← hpos]
  exact hf _ w hw

/-- The first unit of trees in a row is that of the first tree, or that of the others if the first
one only sets conditions. -/
theorem firstUnitOfAll_cons {n : Node} {ns : List Node} {u : Nat}
    (h : firstUnitOfAll (n :: ns) = some u) :
    n.firstUnit = some u ∨ firstUnitOfAll ns = some u ∧ ∀ {tb rg : Nat} {x z : Thread},
      z ∈ (n.fragment t tb rg).threads tables text x → z.pos = x.pos := by
  cases n with
  | anchor a => exact Or.inr ⟨by simpa [firstUnitOfAll] using h, fun hz => by
      rw [(pos_of_mem_anchor hz).1]⟩
  | look negated body => exact Or.inr ⟨by simpa [firstUnitOfAll] using h, pos_of_mem_look⟩
  | empty => exact Or.inr ⟨by simpa [firstUnitOfAll] using h, fun hz => by
      rw [List.mem_singleton.1 hz]⟩
  | _ =>
    simp only [firstUnitOfAll] at h
    split at h
    · cases h
    · exact Or.inl h

mutual

/-- **Every match of a tree begins with its first unit, where one is known.** -/
theorem unit_of_firstUnit (ht : t.folded = false) {u : Nat} : ∀ (n : Node) {tb rg : Nat}
    {x y : Thread}, n.firstUnit = some u → y ∈ (n.fragment t tb rg).threads tables text x →
      text.unit? x.pos = some u
  | unit v, tb, rg, x, y, hn, h => by
    obtain rfl : v = u := by simpa [firstUnit] using hn
    simp only [fragment, threads, Emit.unitInstr, ht, Bool.false_eq_true, if_false,
      Option.mem_toList] at h
    split at h
    · cases h
    · obtain ⟨w, hw, heq, -⟩ := consume_eq_some (show x.consume text (· == v) = some y from h)
      rw [hw, beq_iff_eq.1 heq]
  | group index body, tb, rg, x, y, hn, h => by
    have hbody : ∀ x y, y ∈ (body.fragment t tb rg).threads tables text x →
        text.unit? x.pos = some u :=
      fun x y => unit_of_firstUnit ht body (by simpa [firstUnit] using hn)
    rw [fragment] at h
    split at h
    · exact of_mem_group (P := fun p => text.unit? p = some u) hbody h
    · exact hbody x y h
  | rep lower upper greedy body, tb, rg, x, y, hn, h => by
    simp only [firstUnit, Option.ite_none_right_eq_some] at hn
    -- there is a first copy of the body
    obtain ⟨k, rfl⟩ := Nat.exists_eq_succ_of_ne_zero (Nat.pos_iff_ne_zero.1 hn.1)
    obtain ⟨z, hz, -⟩ := List.mem_flatMap.1 h
    obtain ⟨w, hw, -⟩ := List.mem_flatMap.1 hz
    exact of_mem_iteration (P := fun p => text.unit? p = some u)
      (fun x => unit_of_firstUnit ht body hn.2) hw
  | seq items, tb, rg, x, y, hn, h =>
    unit_of_firstUnitOfAll ht items (by simpa [firstUnit] using hn) h

theorem unit_of_firstUnitOfAll (ht : t.folded = false) {u : Nat} : ∀ (ns : List Node)
    {tb rg : Nat} {x y : Thread}, firstUnitOfAll ns = some u →
      y ∈ (sequence t ns tb rg).threads tables text x → text.unit? x.pos = some u
  | n :: ns, tb, rg, x, y, hn, h => by
    obtain ⟨z, hz, hy⟩ := List.mem_flatMap.1 h
    rcases firstUnitOfAll_cons hn with hn | ⟨hn, hpos⟩
    · exact unit_of_firstUnit ht n hn hz
    · rw [← hpos hz]
      exact unit_of_firstUnitOfAll ht ns hn hy

end

mutual

/-- **Every match of a tree that is bound to the start of the text begins there.** -/
theorem pos_of_startsAtInputStart : ∀ (n : Node) {tb rg : Nat} {x y : Thread},
    n.startsAtInputStart = true → y ∈ (n.fragment t tb rg).threads tables text x → x.pos = 0
  | anchor a, tb, rg, x, y, hn, h => by
    obtain ⟨-, hholds⟩ := pos_of_mem_anchor h
    cases a with
    | inputStart => exact beq_iff_eq.1 hholds
    | _ => simp [startsAtInputStart] at hn
  | group index body, tb, rg, x, y, hn, h => by
    have hbody : ∀ x y, y ∈ (body.fragment t tb rg).threads tables text x → x.pos = 0 :=
      fun x y => pos_of_startsAtInputStart body (by simpa [startsAtInputStart] using hn)
    rw [fragment] at h
    split at h
    · exact of_mem_group (P := (· = 0)) hbody h
    · exact hbody x y h
  | seq (n :: ns), tb, rg, x, y, hn, h => by
    obtain ⟨z, hz, -⟩ := List.mem_flatMap.1 h
    exact pos_of_startsAtInputStart n
      (by simpa [startsAtInputStart, headStartsAtInputStart] using hn) hz

end

end Node

/-- The same program without what a search could pass over positions for. -/
def Program.unguided (p : Program) : Program := { p with anchored := false, firstUnit := none }

namespace Machine

/-- The same machine, made to try every position. -/
def unguided (m : Machine) : Machine := { m with program := m.program.unguided }

variable {m : Machine} {f : Fragment} {last room start pos s failures : Nat} {pairs : Array Pair}

/-! ### Attempts -/

theorem attempt_unguided (m : Machine) (pos failures : Nat) :
    m.unguided.attempt pos failures = m.attempt pos failures := by
  have halike : m.Alike m.unguided := ⟨rfl, rfl, rfl, rfl, rfl, rfl⟩
  rw [attempt_eq, attempt_eq, run_congr halike]
  rfl

theorem close_count (r : Result) (k : Nat) : (r.count k).close = r.close.count k := by
  cases r <;> rfl

/-- Without interrupts attempts at a position differ in the number of failures only. -/
theorem attempt_count (hi : m.interrupted = false) (pos failures failures' : Nat) :
    ∃ k, m.attempt pos failures' = (m.attempt pos failures).count k := by
  obtain ⟨k, hk⟩ := run_count hi m.limits.steps 0 0 pos (m.start pos failures) failures'
  refine ⟨k, ?_⟩
  rw [attempt_eq, attempt_eq, ← close_count, ← hk]
  rfl

/-- Every attempt at the position fails. -/
def Fails (m : Machine) (pos : Nat) : Prop := ∀ failures, ∃ st, m.attempt pos failures = .failed st

/-- Every attempt at the position accepts, with these slots. -/
def Accepts (m : Machine) (pos : Nat) (slots : Array (Option Nat)) : Prop :=
  ∀ failures, ∃ stop st, m.attempt pos failures = .accepted stop st ∧ st.slots = slots

theorem fails_of_failed (hi : m.interrupted = false) {st : State}
    (h : m.attempt pos failures = .failed st) : m.Fails pos := by
  intro failures'
  obtain ⟨k, hk⟩ := attempt_count hi pos failures failures'
  exact ⟨_, by rw [hk, h]; rfl⟩

theorem accepts_of_accepted (hi : m.interrupted = false) {stop : Nat} {st : State}
    (h : m.attempt pos failures = .accepted stop st) : m.Accepts pos st.slots := by
  intro failures'
  obtain ⟨k, hk⟩ := attempt_count hi pos failures failures'
  exact ⟨stop, st.count k, by rw [hk, h]; rfl, rfl⟩

/-! ### Trying every position -/

/-- A search that tries every position and finds no match has failed at all of them. -/
theorem fails_of_noMatch (hi : m.interrupted = false) (hroom : pos + room = m.text.size + 1)
    (h : m.unguided.searchFrom m.text.size pairs room pos failures = .noMatch) :
    ∀ s, pos ≤ s → s ≤ m.text.size → m.Fails s := by
  induction room generalizing pos failures with
  | zero => intro s hs hs'; omega
  | succ room ih =>
    rw [searchFrom_attempt (show m.unguided.candidate? pos = .ok (some pos) from rfl) (by omega) hi,
      attempt_unguided] at h
    cases ha : m.attempt pos failures with
    | accepted stop st => simp [ha] at h
    | stopped s => cases s <;> simp [ha, Stop.toOutcome] at h
    | failed st =>
      rw [ha] at h
      intro s hs hs'
      rcases Nat.eq_or_lt_of_le hs with rfl | hlt
      · exact fails_of_failed hi ha
      · exact ih (by omega) h s hlt hs'

/-- A search that tries every position and finds a match has failed in front of it. -/
theorem accepts_of_matched (hi : m.interrupted = false) {found : Array Pair}
    (hroom : pos + room = m.text.size + 1)
    (h : m.unguided.searchFrom m.text.size pairs room pos failures = .matched found) :
    ∃ s slots, pos ≤ s ∧ s ≤ m.text.size ∧ m.Accepts s slots ∧ found = writePairs slots pairs ∧
      ∀ s', pos ≤ s' → s' < s → m.Fails s' := by
  induction room generalizing pos failures with
  | zero => cases h
  | succ room ih =>
    rw [searchFrom_attempt (show m.unguided.candidate? pos = .ok (some pos) from rfl) (by omega) hi,
      attempt_unguided] at h
    cases ha : m.attempt pos failures with
    | accepted stop st =>
      simp only [ha, Outcome.matched.injEq] at h
      exact ⟨pos, st.slots, Nat.le_refl _, by omega, accepts_of_accepted hi ha, h.symm,
        fun s' hs hs' => by omega⟩
    | stopped s => cases s <;> simp [ha, Stop.toOutcome] at h
    | failed st =>
      rw [ha] at h
      obtain ⟨s, slots, hs, hs', haccepts, hfound, hbefore⟩ := ih (by omega) h
      refine ⟨s, slots, by omega, hs', haccepts, hfound, fun q hq hq' => ?_⟩
      rcases Nat.eq_or_lt_of_le hq with rfl | hlt
      · exact fails_of_failed hi ha
      · exact hbefore q hlt hq'

/-! ### Passing over positions -/

/-- A match begins with the first unit that the program names, and at the start of the text if
the program is bound to it. -/
structure Guided (m : Machine) : Prop where
  unit : ∀ u, m.program.firstUnit = some u → ∀ s slots, s ≤ m.text.size → m.Accepts s slots →
    m.text.unit? s = some u
  start : m.program.anchored = true → ∀ s slots, s ≤ m.text.size → m.Accepts s slots → s = 0

/-- The next position that is tried is not behind the one of the match. -/
theorem candidate_le (hg : m.Guided) {slots : Array (Option Nat)} (hpos : pos ≤ s)
    (hs : s ≤ m.text.size) (ha : m.Accepts s slots) :
    ∃ q, m.candidate? pos = .ok (some q) ∧ pos ≤ q ∧ q ≤ s := by
  rw [candidate?]
  cases hfirst : m.program.firstUnit with
  | none => exact ⟨pos, rfl, Nat.le_refl _, hpos⟩
  | some u =>
    have hu := hg.unit u hfirst s slots hs ha
    simp only [if_neg (show ¬m.text.size < pos by omega)]
    cases hfind : m.text.findUnit? u pos with
    | none => exact absurd hu (Text.findUnit?_none hfind s hpos)
    | some q =>
      obtain ⟨hq, -, hbefore⟩ := Text.findUnit?_some hfind
      -- the match begins with the unit, and there is none in front of `q`
      refine ⟨q, rfl, hq, Nat.le_of_not_lt fun hlt => ?_⟩
      exact hbefore s hpos hlt hu

/-- A search finds the first position at which an attempt succeeds. -/
theorem searchFrom_of_accepts (hi : m.interrupted = false) (hg : m.Guided)
    {slots : Array (Option Nat)} (hs : s ≤ last) (hlast : last ≤ m.text.size)
    (ha : m.Accepts s slots) (hpos : pos ≤ s) (hroom : s < pos + room)
    (hfails : ∀ s', pos ≤ s' → s' < s → m.Fails s') :
    m.searchFrom last pairs room pos failures = .matched (writePairs slots pairs) := by
  induction room generalizing pos failures with
  | zero => omega
  | succ room ih =>
    obtain ⟨q, hq, hle, hqs⟩ := candidate_le hg hpos (hs.trans hlast) ha
    rw [searchFrom_attempt hq (hqs.trans hs) hi]
    rcases Nat.eq_or_lt_of_le hqs with rfl | hlt
    · obtain ⟨stop, st, hst, rfl⟩ := ha failures
      rw [hst]
    · obtain ⟨st, hst⟩ := hfails q hle hlt failures
      rw [hst]
      exact ih (by omega) (by omega) fun s' hs' => hfails s' (by omega)

/-- A search finds nothing where no attempt succeeds. -/
theorem searchFrom_of_fails (hi : m.interrupted = false)
    (hpos : m.program.firstUnit ≠ none → pos ≤ m.text.size)
    (hfails : ∀ s, pos ≤ s → s ≤ last → m.Fails s) :
    m.searchFrom last pairs room pos failures = .noMatch := by
  induction room generalizing pos failures with
  | zero => rfl
  | succ room ih =>
    rcases candidate_cases hpos with hnone | ⟨q, hq, hle, hlt⟩
    · rw [searchFrom, hnone]
    · by_cases hql : q ≤ last
      · rw [searchFrom_attempt hq hql hi]
        obtain ⟨st, hst⟩ := hfails q hle hql failures
        rw [hst]
        exact ih hlt fun s hs => hfails s (by omega)
      · rw [searchFrom, hq]
        exact if_pos (Nat.lt_of_not_le hql)

/-- **A guided search finds the first position at which an attempt succeeds.** -/
theorem search_of_accepts (hi : m.interrupted = false) (hg : m.Guided)
    {slots : Array (Option Nat)} (hstart : start ≤ s) (hs : s ≤ m.text.size)
    (ha : m.Accepts s slots) (hfails : ∀ s', start ≤ s' → s' < s → m.Fails s') :
    m.search start pairs = .matched (writePairs slots pairs) := by
  rw [search, if_neg (show ¬m.text.size < start by omega)]
  -- the match lies within the bound of the search
  have hle : s ≤ (if m.program.anchored then start else m.text.size) := by
    split
    · next hanchored =>
      have := hg.start hanchored s slots hs ha
      omega
    · exact hs
  exact searchFrom_of_accepts hi hg hle (by split <;> omega) ha hstart (by omega) hfails

/-- A search answers that there is no match where no attempt succeeds. -/
theorem search_of_fails (hi : m.interrupted = false)
    (hfails : ∀ s, start ≤ s → s ≤ m.text.size → m.Fails s) :
    m.search start pairs = .noMatch := by
  rw [search]
  by_cases hstart : m.text.size < start
  · exact if_pos hstart
  · rw [if_neg hstart]
    have hlast : (if m.program.anchored then start else m.text.size) ≤ m.text.size := by
      split <;> omega
    exact searchFrom_of_fails hi (fun _ => by omega)
      fun s hs hs' => hfails s hs (hs'.trans hlast)

/-- **The shortcuts of a search lose and invent no match**: if a search that tries every position
has an answer, this search has the same one, and a match is at the first position at which an
attempt succeeds. -/
theorem search_of_unguided (hi : m.interrupted = false) (hg : m.Guided) {o : Outcome}
    (ho : o = .noMatch ∨ ∃ found, o = .matched found) (h : m.unguided.search start pairs = o) :
    m.search start pairs = o ∧ ∀ found, o = .matched found →
      ∃ s slots, start ≤ s ∧ s ≤ m.text.size ∧ m.Accepts s slots ∧
        found = writePairs slots pairs ∧ ∀ s', start ≤ s' → s' < s → m.Fails s' := by
  rw [search] at h
  by_cases hstart : m.text.size < start
  · rw [if_pos (show m.unguided.text.size < start from hstart)] at h
    subst h
    exact ⟨if_pos hstart, fun _ h => by cases h⟩
  · rw [if_neg (show ¬m.unguided.text.size < start from hstart)] at h
    have hroom : start + (m.text.size - start + 1) = m.text.size + 1 := by omega
    rcases ho with rfl | ⟨found, rfl⟩
    · -- every attempt fails, those that the search still makes among them
      exact ⟨search_of_fails hi (fails_of_noMatch hi hroom h), fun _ h => by cases h⟩
    · obtain ⟨s, slots, hs, hs', haccepts, rfl, hbefore⟩ := accepts_of_matched hi hroom h
      refine ⟨search_of_accepts hi hg hs hs' haccepts hbefore, fun _ h => ?_⟩
      cases h
      exact ⟨s, slots, hs, hs', haccepts, rfl, hbefore⟩

end Machine

/-! ### Compiled programs -/

/-- Where an attempt with a compiled program succeeds, its fragment has an outcome. -/
theorem Machine.exists_thread_of_accepts {m : Machine} {f : Fragment} {s : Nat}
    {slots : Array (Option Nat)} (h : m.program.Implements m.tables.size f) (hs : s ≤ m.text.size)
    (ha : m.Accepts s slots) :
    ∃ y, y ∈ f.threads m.tables m.text (.init m.program.slots s) := by
  obtain ⟨stop, st, hst, -⟩ := ha 0
  have hfinds := attempt_spec h hs (show m.attempt s 0 ≠ .stopped .outOfSteps by simp [hst])
  rw [hst] at hfinds
  obtain ⟨y, rest, hy, -⟩ := hfinds
  exact ⟨y, by simp [hy]⟩

namespace Pattern

variable {p : Pattern} {mode : Mode} {width : Width} {flags : Flags}
  {tables₀ tables later : Array CharTable} {cap : Nat} {prog : Program} {m : Machine}

/-- The shortcuts of a compiled program keep to its matches. -/
theorem Canonical.guided_of_compile (hp : p.Canonical)
    (h : p.compile mode width flags tables₀ cap = (.ok prog, tables)) (hprog : m.program = prog)
    (htables : m.tables = tables ++ later) : m.Guided := by
  have himp := hp.implements_of_compile h hprog htables
  have heq := (eq_of_compile h).1
  constructor
  · intro u hu s slots hs ha
    obtain ⟨y, hy⟩ := Machine.exists_thread_of_accepts himp hs ha
    rw [hprog, heq] at hu
    simp only [Option.ite_none_left_eq_some, Bool.not_eq_true] at hu
    exact Node.unit_of_firstUnit hu.1 p.root hu.2 hy
  · intro hanchored s slots hs ha
    obtain ⟨y, hy⟩ := Machine.exists_thread_of_accepts himp hs ha
    rw [hprog, heq] at hanchored
    exact Node.pos_of_startsAtInputStart p.root hanchored hy

end Pattern

/-- **The shortcuts of a search with a compiled program lose and invent no match.**  Without
interrupts, if the search that tries every position from `start` on answers with a match or with
none, so does the search with the shortcuts, and with the same pairs; a match is then at the least
position at which an attempt succeeds, all attempts in front of it having failed. -/
theorem search_eq_of_unguided {source : String} {flags : Flags} {p : Pattern}
    (hp : p.IsFrom source flags) {mode : Mode} {width : Width} {cap : Nat}
    {tables₀ tables later : Array CharTable} {prog : Program}
    (h : p.compile mode width flags tables₀ cap = (.ok prog, tables)) {m : Machine}
    (hprog : m.program = prog) (htables : m.tables = tables ++ later) (hi : m.interrupted = false)
    {start : Nat} {pairs : Array Pair} {o : Outcome} (ho : m.unguided.search start pairs = o)
    (hanswer : o = .noMatch ∨ ∃ found, o = .matched found) :
    m.search start pairs = o ∧ ∀ found, o = .matched found →
      ∃ s slots, start ≤ s ∧ s ≤ m.text.size ∧ m.Accepts s slots ∧
        found = Machine.writePairs slots pairs ∧ ∀ s', start ≤ s' → s' < s → m.Fails s' :=
  Machine.search_of_unguided hi (hp.canonical.guided_of_compile h hprog htables) hanswer ho

theorem search_eq_of_unguided_doubled :
    Machine.doubled.search 0 #[.undefined, .undefined] = .matched #[.span 1 3, .span 1 2] ∧
      ∀ found, Outcome.matched #[.span 1 3, .span 1 2] = .matched found →
        ∃ s slots, 0 ≤ s ∧ s ≤ Machine.doubled.text.size ∧ Machine.doubled.Accepts s slots ∧
          found = Machine.writePairs slots #[.undefined, .undefined] ∧
            ∀ s', 0 ≤ s' → s' < s → Machine.doubled.Fails s' :=
  search_eq_of_unguided Pattern.isFrom_doubled Pattern.compile_doubled rfl
    Array.append_empty.symm rfl (by decide +kernel) (Or.inr ⟨_, rfl⟩)

end RegexEngine

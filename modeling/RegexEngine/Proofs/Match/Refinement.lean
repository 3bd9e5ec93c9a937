import Mathlib.Data.List.Forall2
import RegexEngine.Proofs.Match.Attempts
import RegexEngine.Proofs.Match.Tracking

/-!
# Compiled programs match what their patterns mean

The fragment of a tree leads from a thread to the same outcomes, in the same order, as the tree
leads from the trail which the thread tracks.  The groups of the tree must be fresh.  They are at
the start; each iteration of a loop clears the slots of its groups, and outside of loops no group
is entered twice.

* `HasTables` — the tables of a tree, in their place in the list of all tables.
* `Node.tracks_threads` — **the outcomes of a fragment are the trails of its tree.**
* `Machine.Agrees` — an attempt has the result that the trails of the pattern say.
* `Pattern.Canonical.agrees_of_finds` — **attempts with compiled programs do.**
-/

namespace RegexEngine

open Thread (Tracks Fresh)

/-! ### Tables and group numbers -/

/-- The tables stand in the list from an index on. -/
def HasTables (tables : Array CharTable) (tb : Nat) (ts : List CharTable) : Prop :=
  ∀ k table, ts[k]? = some table → tables[tb + k]? = some table

theorem HasTables.of_append {tables : Array CharTable} {tb : Nat} {ts us : List CharTable}
    (h : HasTables tables tb (ts ++ us)) :
    HasTables tables tb ts ∧ HasTables tables (tb + ts.length) us := by
  constructor
  · intro k table hk
    refine h k table ?_
    rwa [List.getElem?_append_left (List.getElem?_eq_some_iff.1 hk).1]
  · intro k table hk
    rw [Nat.add_assoc]
    refine h _ table ?_
    rwa [List.getElem?_append_right (Nat.le_add_right ..), Nat.add_sub_cancel_left]

/-- The group numbers of a part of a pattern that has so many groups. -/
structure Numbered (groups : Nat) (is : List Nat) : Prop where
  consecutive : Node.Consecutive is
  range : ∀ i ∈ is, 1 ≤ i ∧ i ≤ groups

theorem Numbered.of_append {groups : Nat} {is js : List Nat} (h : Numbered groups (is ++ js)) :
    Numbered groups is ∧ Numbered groups js :=
  ⟨⟨h.consecutive.of_append.1, fun i hi => h.range i (List.mem_append_left _ hi)⟩,
    ⟨h.consecutive.of_append.2, fun i hi => h.range i (List.mem_append_right _ hi)⟩⟩

theorem Numbered.of_cons {groups i : Nat} {is : List Nat} (h : Numbered groups (i :: is)) :
    Numbered groups is :=
  (of_append (show Numbered groups ([i] ++ is) from h)).2

variable {text : Text} {tables : Array CharTable} {groups : Nat} {x : Thread} {X : Trail}

/-! ### Slots -/

namespace Thread

/-- Clearing the slots of groups forgets their spans. -/
theorem Tracks.forget (h : x.Tracks text groups X) {is : List Nat} {first last : Nat}
    (his : ∀ i, i ∈ is ↔ first ≤ i ∧ i < last) (hrange : ∀ i ∈ is, i ≤ groups) :
    let y : Thread := { x with slots := Thread.forget (2 * last - 2 * first) (2 * first) x.slots }
    y.Tracks text groups (X.forget is) ∧ y.Fresh is := by
  intro y
  have hfresh : y.Fresh is := by
    intro i hi
    have hin := (his i).1 hi
    have hle := hrange i hi
    have hsize := h.fits.2.1
    exact (getElem?_forget ..).trans (if_pos (by omega))
  have hfits : y.Fits text (2 * (groups + 1)) :=
    (Fragment.fits_pass h.fits
      (show (Instr.clear (2 * first) (2 * last)).pass #[] text x = some y from rfl)).1
  refine ⟨⟨hfits, h.pos, fun i hi hi' => ?_⟩, hfresh⟩
  by_cases hmem : i ∈ is
  · rw [show (X.forget is).spans i = none from if_pos hmem]
    exact hfresh i hmem
  · rw [show (X.forget is).spans i = X.spans i from if_neg hmem]
    have hout := mt (his i).2 hmem
    exact (h.spans i hi hi').congr ((getElem?_forget ..).trans (if_neg (by omega)))
      ((getElem?_forget ..).trans (if_neg (by omega)))

/-- The start of a group stored, the group is open. -/
theorem Tracks.enter (h : x.Tracks text groups X) {i : Nat} {is : List Nat}
    (hfresh : x.Fresh (i :: is)) :
    let y : Thread := { x with slots := x.slots.setIfInBounds (2 * i) (some x.pos) }
    y.Tracks text groups (X.setSpan i none) ∧ y.Fresh is := by
  intro y
  have hodd : ∀ j, y.slots[2 * j + 1]? = x.slots[2 * j + 1]? := fun j =>
    Array.getElem?_setIfInBounds_ne (by omega)
  refine ⟨⟨⟨h.fits.1, h.fits.2.set (by simpa using h.fits.1)⟩, h.pos, fun j hj hj' => ?_⟩,
    fun j hj => (hodd j).trans (hfresh j (List.mem_cons_of_mem _ hj))⟩
  by_cases hji : j = i
  · -- its end is still missing, since the group is fresh
    subst hji
    rw [show (X.setSpan j none).spans j = none from if_pos rfl]
    exact (hodd j).trans (hfresh j List.mem_cons_self)
  · rw [show (X.setSpan i none).spans j = X.spans j from if_neg hji]
    exact (h.spans j hj hj').congr (Array.getElem?_setIfInBounds_ne (by omega)) (hodd j)

/-- The end of a group stored, the group has a span. -/
theorem Tracks.leave (h : x.Tracks text groups X) {i start : Nat} (hi : i ≤ groups)
    (hstart : x.slots[2 * i]? = some (some start)) (hle : start ≤ x.pos) :
    Tracks text groups { x with slots := x.slots.setIfInBounds (2 * i + 1) (some x.pos) }
      (X.setSpan i (some (start, X.pos))) := by
  have heven : ∀ j, (x.slots.setIfInBounds (2 * i + 1) (some x.pos))[2 * j]? = x.slots[2 * j]? :=
    fun j => Array.getElem?_setIfInBounds_ne (by omega)
  refine ⟨⟨h.fits.1, h.fits.2.set (by simpa using h.fits.1)⟩, h.pos, fun j hj hj' => ?_⟩
  by_cases hji : j = i
  · subst hji
    rw [show (X.setSpan j (some (start, X.pos))).spans j = some (start, X.pos) from if_pos rfl]
    have hsize := h.fits.2.1
    exact ⟨(heven j).trans hstart,
      (Array.getElem?_setIfInBounds_self_of_lt (by omega)).trans (by rw [h.pos]), h.pos ▸ hle⟩
  · rw [show (X.setSpan i (some (start, X.pos))).spans j = X.spans j from if_neg hji]
    exact (h.spans j hj hj').congr (heven j) (Array.getElem?_setIfInBounds_ne (by omega))

end Thread

/-! ### Loops -/

namespace Fragment

variable {F : Nat → Nat → Fragment} {ts : List CharTable} {once : Trail → List Trail}
  (hF : ∀ tb rg, HasTables tables tb ts → ∀ x X, Tracks text groups x X →
    List.Forall₂ (Tracks text groups) ((F tb rg).threads tables text x) (once X))
include hF

/-- Copies of a body are its iterations. -/
theorem tracks_copies (R n : Nat) {tb : Nat} (rg : Nat)
    (ht : HasTables tables tb (List.replicate n ts).flatten) (h : x.Tracks text groups X) :
    List.Forall₂ (Tracks text groups) ((copies F ts.length R n tb rg).threads tables text x)
      (exactly once n X) := by
  induction n generalizing tb rg x X with
  | zero => exact .cons h .nil
  | succ n ih =>
    rw [List.replicate_succ, List.flatten_cons] at ht
    exact forall₂_flatMap (hF _ _ ht.of_append.1 x X h) fun y Y hy => ih _ ht.of_append.2 hy

theorem tracks_optionals (R : Nat) (greedy : Bool) (n : Nat) {tb : Nat} (rg : Nat)
    (ht : HasTables tables tb (List.replicate n ts).flatten) (h : x.Tracks text groups X) :
    List.Forall₂ (Tracks text groups)
      ((optionals F ts.length R greedy n tb rg).threads tables text x) (upTo greedy once n X) := by
  induction n generalizing tb rg x X with
  | zero => exact .cons h .nil
  | succ n ih =>
    rw [List.replicate_succ, List.flatten_cons] at ht
    exact forall₂_prefer
      (forall₂_flatMap (hF _ _ ht.of_append.1 x X h) fun y Y hy => ih _ ht.of_append.2 hy)
      (.cons h .nil)

/-- A loop without an upper bound.  If it does not check its progress, its body consumes
something anyway. -/
theorem tracks_unbounded (greedy : Bool) {canBeEmpty : Bool}
    (hcons : canBeEmpty = false → ∀ tb rg, (F tb rg).consumes = true) {tb : Nat} (rg : Nat)
    (ht : HasTables tables tb ts) (h : x.Tracks text groups X) :
    List.Forall₂ (Tracks text groups)
      ((unbounded greedy canBeEmpty F tb rg).threads tables text x) (X.star text greedy once) := by
  have hfilter : ∀ rg x X, Tracks text groups x X →
      List.Forall₂ (Tracks text groups)
        (((F tb rg).threads tables text x).filter (·.pos != x.pos))
        ((once X).filter (·.pos != X.pos)) := fun rg x X h =>
    List.rel_filter (fun y Y hy => by simp only [hy.pos, h.pos]) (hF tb rg ht x X h)
  rw [Trail.star, unbounded, threads, ← h.pos]
  -- the two iterate equally often, so it is enough to relate one iteration
  refine forall₂_upTo (fun x X h => ?_) _ h
  cases canBeEmpty with
  | true => exact hfilter _ x X h
  | false =>
    have hsame : ((F tb rg).threads tables text x).filter (·.pos != x.pos) =
        (F tb rg).threads tables text x := by
      refine List.filter_eq_self.2 fun y hy => bne_iff_ne.2 ?_
      exact Nat.ne_of_gt (lt_of_consumes (hcons rfl tb rg) h.fits hy)
    exact hsame ▸ hfilter rg x X h

end Fragment

/-! ### Trees -/

/-- The target is that of a search which reports captures, in texts like this one. -/
structure Target.Reports (t : Target) (text : Text) : Prop where
  captures : t.captures = true
  narrow : t.narrow = true → text.width = .latin1

namespace Node

variable {t : Target}

/-- One iteration of a loop: the slots of its groups are cleared, then comes the body. -/
theorem tracks_iteration {body : Node} {tb rg : Nat} (hcaptures : t.captures = true)
    (hnum : Numbered groups body.groupNumbers)
    (hbody : ∀ x X, Tracks text groups x X → x.Fresh body.groupNumbers →
      List.Forall₂ (Tracks text groups) ((body.fragment t tb rg).threads tables text x)
        (body.trails text t.folded X)) (h : x.Tracks text groups X) :
    List.Forall₂ (Tracks text groups)
      ((Fragment.iteration (Emit.loopSpan t body) (body.fragment t tb rg)).threads tables text x)
      (body.trails text t.folded (X.forget body.groupNumbers)) := by
  rw [Emit.loopSpan, if_pos hcaptures]
  rcases groupSpan_of_consecutive hnum.consecutive with ⟨hnone, hnil⟩ | ⟨first, last, hsome, hmem⟩
  · have hforget : X.forget body.groupNumbers = X := by
      simp [Trail.forget, hnil]
    rw [hnone, hforget]
    exact hbody x X h (by simp [Fresh, hnil])
  · obtain ⟨htracks, hfresh⟩ := h.forget hmem fun i hi => (hnum.range i hi).2
    rw [hsome, Fragment.iteration, Fragment.threads, Fragment.threads, Instr.pass,
      Option.toList_some, List.flatMap_singleton]
    exact hbody _ _ htracks hfresh

/-- A condition on what follows. -/
theorem tracks_look {negated : Bool} {ys : List Thread} {Ys : List Trail}
    (h : x.Tracks text groups X) (hys : List.Forall₂ (Tracks text groups) ys Ys) :
    List.Forall₂ (Tracks text groups) (Fragment.lookOutcomes negated ys x)
      (X.condition negated Ys) := by
  cases hys with
  | nil =>
    cases negated with
    | false => exact .nil
    | true => exact .cons h .nil
  | cons hy _ =>
    cases negated with
    | false => exact .cons ⟨⟨h.fits.1, hy.fits.2⟩, h.pos, hy.spans⟩ .nil
    | true => exact .nil

mutual

/-- **The outcomes of a fragment are the trails of its tree**, in the same order. -/
theorem tracks_threads (hr : t.Reports text) : ∀ (n : Node) (tb rg : Nat) {x : Thread} {X : Trail},
    n.WellFormed groups → Numbered groups n.groupNumbers → HasTables tables tb (n.tables t) →
    x.Tracks text groups X → x.Fresh n.groupNumbers →
    List.Forall₂ (Tracks text groups) ((n.fragment t tb rg).threads tables text x)
      (n.trails text t.folded X)
  | empty, _, _, _, _, _, _, _, h, _ => .cons h .nil
  | unit u, _, _, _, _, _, _, _, h, _ => h.unit hr.narrow u
  | any, _, _, _, _, _, _, _, h, _ => h.consume fun _ _ => rfl
  | charClass set negated, tb, _, _, _, hwf, _, ht, h, _ =>
    h.inTable hr.narrow hwf (ht 0 _ rfl) negated
  | anchor a, _, _, x, X, _, _, _, h, _ => by
    rw [trails, fragment, Fragment.threads, Instr.pass, h.pos]
    split
    · exact .cons h .nil
    · exact .nil
  | backRef i, _, _, _, _, hwf, _, _, h, _ => h.repeatGroup hwf t.folded
  | look negated body, _, _, _, _, hwf, hnum, ht, h, hfresh =>
    tracks_look h (tracks_threads hr body _ _ hwf hnum ht h hfresh)
  | group i body, tb, rg, x, X, hwf, hnum, ht, h, hfresh => by
    obtain ⟨henter, hfresh⟩ := h.enter hfresh
    have hnotin : i ∉ body.groupNumbers := (List.nodup_cons.1 hnum.consecutive.nodup).1
    have hi := hnum.range i List.mem_cons_self
    have hsize := h.fits.2.1
    have hbody := tracks_threads hr body tb rg hwf hnum.of_cons ht henter hfresh
    have hmem := (List.forall₂_and_left _ _).2 ⟨fun y hy => hy, hbody⟩
    rw [fragment, if_pos hr.captures, trails, List.map_eq_flatMap, Fragment.threads,
      Fragment.threads, Instr.pass, Option.toList_some, List.flatMap_singleton]
    refine forall₂_flatMap hmem ?_
    rintro y Y ⟨hy, hyY⟩
    refine .cons ?_ .nil
    -- the body has left the start of its own group alone
    have hstart := (slots_of_mem_fragment hnum.of_cons.consecutive hy hnotin).1
    have hset : (x.slots.setIfInBounds (2 * i) (some x.pos))[2 * i]? = some (some x.pos) :=
      Array.getElem?_setIfInBounds_self_of_lt (by omega)
    rw [← h.pos]
    exact hyY.leave hi.2 (hstart.trans hset) (Fragment.fits_of_mem_threads henter.fits hy).2
  | rep lower upper greedy body, tb, rg, x, X, hwf, hnum, ht, h, _ => by
    -- the groups of the body need not be fresh: each iteration clears their slots first
    have honce : ∀ tb rg, HasTables tables tb (body.tables t) → ∀ x X, Tracks text groups x X →
        List.Forall₂ (Tracks text groups)
          ((Fragment.iteration (Emit.loopSpan t body) (body.fragment t tb rg)).threads tables
            text x)
          (body.trails text t.folded (X.forget body.groupNumbers)) := fun tb rg ht x X h =>
      tracks_iteration hr.captures hnum
        (fun _ _ h hfresh => tracks_threads hr body tb rg hwf.2 hnum ht h hfresh) h
    rw [Node.tables, List.replicate_add, List.flatten_append] at ht
    have hrest := ht.of_append.2
    rw [show (List.replicate lower (body.tables t)).flatten.length =
      lower * (body.tables t).length by simp] at hrest
    have hrequired := Fragment.tracks_copies honce body.registerCount lower rg ht.of_append.1 h
    cases upper with
    | none =>
      rw [fragment, trails]
      refine forall₂_flatMap hrequired fun y Y h => ?_
      exact Fragment.tracks_unbounded honce greedy
        (fun hb tb rg => Fragment.consumes_iteration (consumes_fragment body tb rg hwf.2 hb)) _
        (by simpa using hrest) h
    | some upper =>
      rw [fragment, trails]
      refine forall₂_flatMap hrequired fun y Y h => ?_
      exact Fragment.tracks_optionals honce _ greedy _ _ hrest h
  | seq items, _, _, _, _, hwf, hnum, ht, h, hfresh =>
    tracks_sequence hr items _ _ hwf.2 hnum ht h hfresh
  | alt items, _, _, _, _, hwf, hnum, ht, h, hfresh =>
    tracks_alternatives hr items _ _ (fun hnil => by simp [WellFormed, hnil] at hwf) hwf.2 hnum ht h
      hfresh

theorem tracks_sequence (hr : t.Reports text) : ∀ (ns : List Node) (tb rg : Nat) {x : Thread}
    {X : Trail}, AllWellFormed groups ns → Numbered groups (allGroupNumbers ns) →
    HasTables tables tb (allTables t ns) → x.Tracks text groups X →
    x.Fresh (allGroupNumbers ns) →
    List.Forall₂ (Tracks text groups) ((sequence t ns tb rg).threads tables text x)
      (sequenceTrails text t.folded ns X)
  | [], _, _, _, _, _, _, _, h, _ => .cons h .nil
  | n :: ns, tb, rg, x, X, hwf, hnum, ht, h, hfresh => by
    have hhead := tracks_threads hr n tb rg hwf.1 hnum.of_append.1 ht.of_append.1 h
      fun i hi => hfresh i (List.mem_append_left _ hi)
    have hmem := (List.forall₂_and_left _ _).2 ⟨fun y hy => hy, hhead⟩
    refine forall₂_flatMap hmem ?_
    rintro y Y ⟨hy, hyY⟩
    refine tracks_sequence hr ns _ _ hwf.2 hnum.of_append.2 ht.of_append.2 hyY fun i hi => ?_
    -- the groups of the other trees are not those of the first one
    have hnotin : i ∉ n.groupNumbers := fun hin =>
      (List.nodup_append.1 hnum.consecutive.nodup).2.2 i hin i hi rfl
    rw [(slots_of_mem_fragment hnum.of_append.1.consecutive hy hnotin).2]
    exact hfresh i (List.mem_append_right _ hi)

theorem tracks_alternatives (hr : t.Reports text) : ∀ (ns : List Node) (tb rg : Nat) {x : Thread}
    {X : Trail}, ns ≠ [] → AllWellFormed groups ns → Numbered groups (allGroupNumbers ns) →
    HasTables tables tb (allTables t ns) → x.Tracks text groups X →
    x.Fresh (allGroupNumbers ns) →
    List.Forall₂ (Tracks text groups) ((alternatives t ns tb rg).threads tables text x)
      (alternativeTrails text t.folded ns X)
  | [], _, _, _, _, hne, _, _, _, _, _ => absurd rfl hne
  | n :: ns, tb, rg, x, X, _, hwf, hnum, ht, h, hfresh => by
    have hhead := tracks_threads hr n tb rg hwf.1 hnum.of_append.1 ht.of_append.1 h
      fun i hi => hfresh i (List.mem_append_left _ hi)
    rw [alternatives, alternativeTrails]
    split
    · next hnil =>
      rw [List.isEmpty_iff.1 hnil, alternativeTrails, List.append_nil]
      exact hhead
    · next hne =>
      exact List.rel_append hhead (tracks_alternatives hr ns _ _ (by simpa using hne) hwf.2
        hnum.of_append.2 ht.of_append.2 h fun i hi => hfresh i (List.mem_append_right _ hi))

end

end Node

/-! ### Attempts -/

/-- The pair of a group; group 0 is the whole match from `start` on. -/
def Trail.pair (start : Nat) (y : Trail) : Nat → Pair
  | 0 => .span start y.pos
  | i + 1 => (y.spans (i + 1)).elim .undefined fun s => .span s.1 s.2

theorem SpanIn.pairOf {slots : Array (Option Nat)} {i : Nat} {span : Option (Nat × Nat)}
    (h : SpanIn slots i span) :
    Machine.pairOf slots i = span.elim .undefined fun s => .span s.1 s.2 := by
  rw [Machine.pairOf]
  rcases span with _ | ⟨start, stop⟩
  · rw [show slots[2 * i + 1]? = some none from h]
    rcases slots[2 * i]? with _ | _ | start <;> rfl
  · obtain ⟨hstart, hstop, hle⟩ := h
    simp [hstart, hstop, hle]

theorem Thread.tracks_init (groups : Nat) {pos : Nat} (hpos : pos ≤ text.size) :
    (Thread.init (2 * (groups + 1)) pos).Tracks text groups (.init pos) ∧
      ∀ {is}, Numbered groups is → (Thread.init (2 * (groups + 1)) pos).Fresh is := by
  have hnone : ∀ i, i ≤ groups →
      (Thread.init (2 * (groups + 1)) pos).slots[2 * i + 1]? = some none := by
    intro i hi
    rw [Thread.init, Array.getElem?_setIfInBounds_ne (by omega),
      Array.getElem?_replicate, if_pos (by omega)]
  exact ⟨⟨Thread.fits_init hpos, rfl, fun i _ hi => hnone i hi⟩,
    fun hnum i hi => hnone i (hnum.range i hi).2⟩

/-- What an attempt at `start` answers, given the trails of a pattern: the first one with the pairs
of all groups, or that there is none. -/
def Machine.Agrees (groups start : Nat) (ys : List Trail) : Machine.Result → Prop
  | .accepted stop st => ∃ y rest, ys = y :: rest ∧ stop = y.pos ∧
      ∀ i, i ≤ groups → Machine.pairOf st.slots i = y.pair start i
  | .failed _ => ys = []
  | .stopped s => s = .interrupted ∨ s = .overRecursed

namespace Pattern

variable {p : Pattern} {width : Width} {flags : Flags} {tables₀ tables later : Array CharTable}
  {cap : Nat} {prog : Program}

/-- The tables of a compiled pattern stand between those given and those appended later. -/
theorem hasTables_of_compile {mode : Mode}
    (h : p.compile mode width flags tables₀ cap = (.ok prog, tables)) (later : Array CharTable) :
    HasTables (tables ++ later) tables₀.size (p.root.tables (p.target mode width flags cap)) := by
  intro k table hk
  rw [(eq_of_compile h).2, Array.append_assoc, Array.getElem?_append_right (Nat.le_add_right ..),
    Nat.add_sub_cancel_left, Array.getElem?_append_left (by simpa using
      (List.getElem?_eq_some_iff.1 hk).1)]
  simpa using hk

/-- The outcomes of a compiled pattern are its trails. -/
theorem Canonical.tracks_of_compile (hp : p.Canonical)
    (h : p.compile .normal width flags tables₀ cap = (.ok prog, tables))
    (hwidth : text.width = width) {pos : Nat} (hpos : pos ≤ text.size) (later : Array CharTable) :
    List.Forall₂ (Tracks text p.groups)
      ((p.fragment .normal width flags tables₀ cap).threads (tables ++ later) text
        (.init (2 * (p.groups + 1)) pos))
      (p.root.trails text flags.ignoreCase (.init pos)) := by
  have hnum : Numbered p.groups p.root.groupNumbers :=
    ⟨hp.consecutive, fun i hi => hp.mem_groupNumbers.1 hi⟩
  have hreports : (p.target .normal width flags cap).Reports text :=
    ⟨rfl, fun hn => hwidth.trans (beq_iff_eq.1 hn)⟩
  obtain ⟨hinit, hfresh⟩ := Thread.tracks_init p.groups hpos
  exact Node.tracks_threads hreports p.root _ _ hp.wellFormed hnum (hasTables_of_compile h later)
    hinit (hfresh hnum)

/-- The first two slots hold the span of the whole match, once its end is stored. -/
theorem Canonical.spanIn_zero (hp : p.Canonical) {mode : Mode} {all : Array CharTable} {n pos : Nat}
    (hn : 2 ≤ n) (hpos : pos ≤ text.size) {y : Thread}
    (hy : y ∈ (p.fragment mode width flags tables₀ cap).threads all text (.init n pos)) :
    SpanIn (y.slots.setIfInBounds 1 (some y.pos)) 0 (some (pos, y.pos)) := by
  -- no group of the tree has the slots of the whole match
  have hnot : 0 ∉ p.root.groupNumbers := fun h0 =>
    absurd (hp.mem_groupNumbers.1 h0).1 (by omega)
  have hstart := (Node.slots_of_mem_fragment hp.consecutive hy hnot).1
  obtain ⟨hfits, hle⟩ := Fragment.fits_of_mem_threads (Thread.fits_init hpos) hy
  have hsize : y.slots.size = n := hfits.2.1
  refine ⟨?_, Array.getElem?_setIfInBounds_self_of_lt (by omega), hle⟩
  rw [Array.getElem?_setIfInBounds_ne (by omega), hstart]
  exact Array.getElem?_setIfInBounds_self_of_lt (by simp; omega)

/-- An attempt that finds the first outcome agrees with the trails. -/
theorem Canonical.agrees_of_finds (hp : p.Canonical)
    (h : p.compile .normal width flags tables₀ cap = (.ok prog, tables))
    (hwidth : text.width = width) {pos : Nat} (hpos : pos ≤ text.size) {r : Machine.Result}
    (hr : Machine.Finds ((p.fragment .normal width flags tables₀ cap).threads (tables ++ later) text
      (.init (2 * (p.groups + 1)) pos)) r) :
    Machine.Agrees p.groups pos (p.root.trails text flags.ignoreCase (.init pos)) r := by
  have htracks := hp.tracks_of_compile h hwidth hpos later
  cases r with
  | stopped s => exact hr
  | failed st =>
    rw [show _ = _ from hr] at htracks
    exact List.forall₂_nil_left_iff.1 htracks
  | accepted stop st =>
    obtain ⟨y, rest, hys, rfl, hslots⟩ := hr
    have hmem := hys ▸ List.mem_cons_self (a := y) (l := rest)
    rw [hys] at htracks
    obtain ⟨Y, Rest, hyY, -, hYs⟩ := List.forall₂_cons_left_iff.1 htracks
    refine ⟨Y, Rest, hYs, hyY.pos, fun i hi => ?_⟩
    rw [hslots]
    cases i with
    | zero =>
      have hspan := hp.spanIn_zero (by omega) hpos hmem
      rw [hyY.pos] at hspan ⊢
      exact hspan.pairOf
    | succ i =>
      -- the end of the match is stored into slot 1, which is none of this group's
      exact SpanIn.pairOf ((hyY.spans (i + 1) (by omega) hi).congr
        (Array.getElem?_setIfInBounds_ne (by omega)) (Array.getElem?_setIfInBounds_ne (by omega)))

end Pattern

end RegexEngine

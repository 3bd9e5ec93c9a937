import RegexEngine.Proofs.Match.First
import RegexEngine.Proofs.Match.Modes

/-!
# What matching without captures finds

A program that stores no captures still leaves its fragment at the places at which the trails of its
pattern end, and in the same order.  So it finds a match if and only if there is one, which holds
also of programs that could not be made with captures for want of room.

* `Fragment.Erases.places` — **what stores captures can be left out.**
* `Pattern.Canonical.places_of_compile` — the outcomes of a program end where the trails do.
* `Pattern.Canonical.looks_of_compile` — **a program looks for the trails of its pattern**, in
  either mode.
* `Outcome.Finds.found_iff` — an answer tells whether there is a match.
-/

namespace RegexEngine

/-! ### Fragments -/

/-- Two threads stand at the same place, whatever their slots hold. -/
def Thread.SamePlace (x y : Thread) : Prop := x.pos = y.pos

open Thread (SamePlace)

/-- Two instructions lead from threads at the same place to threads at the same place. -/
def Instr.SamePlaces (tables tables' : Array CharTable) (text : Text) (i j : Instr) : Prop :=
  ∀ x y : Thread, x.SamePlace y →
    List.Forall₂ SamePlace (i.pass tables text x).toList (j.pass tables' text y).toList

section Places

variable {tables tables' : Array CharTable} {text : Text} {x y : Thread}

theorem Thread.SamePlace.consume (h : x.SamePlace y) (test : Nat → Bool) :
    List.Forall₂ SamePlace (x.consume text test).toList (y.consume text test).toList := by
  have hpos : x.pos = y.pos := h
  rw [Thread.consume, Thread.consume, hpos]
  cases text.unit? y.pos with
  | none => exact .nil
  | some u =>
    dsimp only
    split
    · exact .cons rfl .nil
    · exact .nil

/-- What stores captures goes on at the same place. -/
theorem Instr.pass_of_stores {i : Instr} (hi : i.stores = true) (tables : Array CharTable)
    (text : Text) (x : Thread) : ∃ y, i.pass tables text x = some y ∧ x.SamePlace y := by
  cases i with
  | save slot => exact ⟨_, rfl, rfl⟩
  | clear first last => exact ⟨_, rfl, rfl⟩
  | _ => cases hi

/-- A condition depends on whether its code has an outcome. -/
theorem Fragment.samePlace_lookOutcomes {xs ys : List Thread} (negated : Bool)
    (h : List.Forall₂ SamePlace xs ys) (hxy : x.SamePlace y) :
    List.Forall₂ SamePlace (lookOutcomes negated xs x) (lookOutcomes negated ys y) := by
  cases h with
  | nil =>
    cases negated with
    | false => exact .nil
    | true => exact .cons hxy .nil
  | cons _ _ =>
    cases negated with
    | false => exact .cons hxy .nil
    | true => exact .nil

/-- **What stores captures can be left out**: what is left leads to the same places. -/
theorem Fragment.Erases.places {f g : Fragment}
    (h : Erases (fun i => i.stores = true) (Instr.SamePlaces tables tables' text) f g)
    (hxy : x.SamePlace y) :
    List.Forall₂ SamePlace (f.threads tables text x) (g.threads tables' text y) := by
  induction h generalizing x y with
  | nil => exact .cons hxy .nil
  | instr h => exact h x y hxy
  | @front i f g hi h ih =>
    obtain ⟨z, hz, hxz⟩ := i.pass_of_stores hi tables text x
    rw [threads, threads, hz, Option.toList_some, List.flatMap_singleton]
    exact ih (hxz.symm.trans hxy)
  | @behind i f g hi h ih =>
    rw [threads, ← List.flatMap_singleton' (g.threads tables' text y)]
    refine forall₂_flatMap (ih hxy) ?_
    intro x' y' hxy'
    obtain ⟨z, hz, hxz⟩ := i.pass_of_stores hi tables text x'
    rw [threads, hz]
    exact .cons (hxz.symm.trans hxy') .nil
  | append h h' ih ih' => exact forall₂_flatMap (ih hxy) fun _ _ => ih'
  | choice h h' ih ih' => exact List.rel_append (ih hxy) (ih' hxy)
  | optional greedy h ih => exact forall₂_prefer (ih hxy) (.cons hxy .nil)
  | loop greedy h ih =>
    have hpos : x.pos = y.pos := hxy
    rw [threads, threads, hpos]
    exact forall₂_upTo (fun _ _ => ih) _ hxy
  | advance r h ih =>
    have hpos : x.pos = y.pos := hxy
    rw [threads, threads, hpos]
    refine List.rel_filter ?_ (ih hxy)
    intro x' y' hxy'
    have hpos' : x'.pos = y'.pos := hxy'
    simp only [hpos']
  | look negated h ih => exact samePlace_lookOutcomes negated (ih hxy) hxy

end Places

/-! ### Programs -/

/-- Targets that differ in whether captures are stored lead to the same places. -/
theorem Target.erases_places (t t' : Target) (hfolded : t'.folded = t.folded)
    (hnarrow : t'.narrow = t.narrow) (hcaptures : t'.captures = false)
    (tables tables' : Array CharTable) (text : Text) :
    t.Erases t' tables tables' (fun i => i.stores = true)
      (Instr.SamePlaces tables tables' text) where
  captures := Or.inr ⟨hcaptures, fun _ => id⟩
  unit u := by
    have hsame : Emit.unitInstr t' u = Emit.unitInstr t u := by
      rw [Emit.unitInstr, Emit.unitInstr, hfolded, hnarrow]
    rw [hsame, Emit.unitInstr]
    intro x y hxy
    split
    · exact hxy.consume _
    · split
      · exact .nil
      · exact hxy.consume _
  any x y hxy := hxy.consume _
  anchor a x y hxy := by
    have hpos : x.pos = y.pos := hxy
    rw [Instr.pass, Instr.pass, hpos]
    split
    · exact .cons hxy .nil
    · exact .nil
  inTable {k k' set} hk hk' negated x y hxy := by
    have hsame : Emit.classTable t' set = Emit.classTable t set := by
      rw [Emit.classTable, Emit.classTable, hfolded, hnarrow]
    rw [hsame] at hk'
    rw [Instr.pass, Instr.pass, hk, hk', hfolded]
    exact hxy.consume _

/-- Lists that are related by what a function says of their members are mapped to the same list. -/
theorem map_eq_map_of_forall₂ {α β γ : Type} {f : α → γ} {g : β → γ} {xs : List α} {ys : List β}
    (h : List.Forall₂ (fun x y => f x = g y) xs ys) : xs.map f = ys.map g := by
  rw [← List.forall₂_eq_eq_eq, List.forall₂_map_left_iff, List.forall₂_map_right_iff]
  exact h

namespace Pattern

variable {p : Pattern} {mode : Mode} {width : Width} {flags : Flags}
  {tables₀ tables later : Array CharTable} {cap : Nat} {prog : Program} {m : Machine} {pos : Nat}

/-- **The outcomes of a program end where the trails of its pattern do**, in either mode. -/
theorem Canonical.places_of_compile (hp : p.Canonical)
    (h : p.compile mode width flags tables₀ cap = (.ok prog, tables)) {text : Text}
    (hwidth : text.width = width) (hpos : pos ≤ text.size) (later : Array CharTable) :
    ((p.fragment mode width flags tables₀ cap).threads (tables ++ later) text
        (.init (2 * (p.groups + 1)) pos)).map Thread.pos =
      (p.root.trails text flags.ignoreCase (.init pos)).map Trail.pos := by
  have hnum : Numbered p.groups p.root.groupNumbers :=
    ⟨hp.consecutive, fun i hi => hp.mem_groupNumbers.1 hi⟩
  have hnarrow : (width == .latin1) = true → text.width = .latin1 :=
    fun hn => hwidth.trans (beq_iff_eq.1 hn)
  obtain ⟨hinit, hfresh⟩ := Thread.tracks_init p.groups hpos
  have hhas := hasTables_of_compile h later
  cases hcaptures : (p.target mode width flags cap).captures with
  | true =>
    have htracks := Node.tracks_threads ⟨hcaptures, hnarrow⟩ p.root tables₀.size 0 hp.wellFormed
      hnum hhas hinit (hfresh hnum)
    exact map_eq_map_of_forall₂ (htracks.imp fun _ _ hxX => hxX.pos)
  | false =>
    have hback : p.root.hasBackRefs = false := by
      rw [target] at hcaptures
      exact (Bool.or_eq_false_iff.1 hcaptures).2
    -- the fragment that stores captures, be there room for it or not
    let t : Target := p.target .normal width flags cap
    let own : Array CharTable := Array.replicate 0 default ++ (p.root.tables t).toArray
    have hown : HasTables own 0 (p.root.tables t) := Node.hasTables_behind 0 _
    have htracks := Node.tracks_threads (t := t) ⟨rfl, hnarrow⟩ p.root 0 0 hp.wellFormed hnum hown
      hinit (hfresh hnum)
    have htargets := t.erases_places (p.target mode width flags cap) rfl rfl hcaptures own
      (tables ++ later) text
    have herases := Node.erases_fragment htargets p.root 0 tables₀.size 0
      (fun hsome => absurd hsome (by simp [hback])) hown hhas
    have hplaces := herases.places (rfl : (Thread.init (2 * (p.groups + 1)) pos).SamePlace _)
    have hmap := map_eq_map_of_forall₂ hplaces
    exact hmap.symm.trans (map_eq_map_of_forall₂ (htracks.imp fun _ _ hxX => hxX.pos))

/-- An attempt with a program agrees with the trails as far as the whole match goes. -/
theorem Canonical.agrees_whole (hp : p.Canonical)
    (h : p.compile mode width flags tables₀ cap = (.ok prog, tables)) (hprog : m.program = prog)
    (htables : m.tables = tables ++ later) (hwidth : m.text.width = width)
    (hpos : pos ≤ m.text.size) {failures : Nat}
    (hsteps : m.attempt pos failures ≠ .stopped .outOfSteps) :
    Machine.Agrees 0 pos (p.root.trails m.text flags.ignoreCase (.init pos))
      (m.attempt pos failures) := by
  have hslots : m.program.slots = 2 * (p.groups + 1) := by
    rw [hprog, (eq_of_compile h).1]
    rfl
  have hfinds := Machine.attempt_spec (hp.implements_of_compile h hprog htables) hpos hsteps
  have hplaces := hp.places_of_compile h hwidth hpos later
  rw [hslots, htables] at hfinds
  cases hr : m.attempt pos failures with
  | stopped s =>
    rw [hr] at hfinds
    exact hfinds
  | failed st =>
    rw [hr] at hfinds
    rw [show _ = _ from hfinds] at hplaces
    exact List.map_eq_nil_iff.1 hplaces.symm
  | accepted stop st =>
    rw [hr] at hfinds
    obtain ⟨y, rest, hys, rfl, hstored⟩ := hfinds
    have hmem := hys ▸ List.mem_cons_self (a := y) (l := rest)
    rw [hys, List.map_cons] at hplaces
    obtain ⟨Y, Rest, hYs, hY, -⟩ := List.map_eq_cons_iff.1 hplaces.symm
    refine ⟨Y, Rest, hYs, hY.symm, ?_⟩
    intro i hi
    obtain rfl := Nat.le_zero.1 hi
    have hspan := hp.spanIn_zero (by omega) hpos hmem
    rw [hstored, ← hY] at *
    exact hspan.pairOf

/-- **A program looks for the trails of its pattern**, in either mode.  Of what it finds only the
whole match is told. -/
theorem Canonical.looks_of_compile (hp : p.Canonical)
    (h : p.compile mode width flags tables₀ cap = (.ok prog, tables)) (hprog : m.program = prog)
    (htables : m.tables = tables ++ later) (hwidth : m.text.width = width) :
    m.Seeks 0 fun q => p.root.trails m.text flags.ignoreCase (.init q) := by
  refine seeks_of_agrees h hprog (tables ++ later) (2 * (p.groups + 1)) ?_ ?_
  · intro q failures hsize hsteps
    exact hp.agrees_whole h hprog htables hwidth hsize hsteps
  · intro q hsize hnil
    have hplaces := hp.places_of_compile h hwidth hsize later
    rw [hnil] at hplaces
    exact List.map_eq_nil_iff.1 hplaces.symm

end Pattern

/-! ### Whether there is a match -/

/-- An answer tells whether there is a match, however many groups it tells of. -/
theorem Outcome.Finds.found_iff {x : Outcome} {groups start last : Nat}
    {trailsAt : Nat → List Trail} (h : x.Finds groups trailsAt start last) {b : Bool}
    (hb : x.found? = some b) (groups' : Nat) :
    b = false ↔ Outcome.noMatch.Finds groups' trailsAt start last := by
  cases x with
  | matched found =>
    obtain rfl := Option.some.inj hb
    refine iff_of_false (Ne.symm Bool.false_ne_true) ?_
    intro hnone
    obtain ⟨q, y, rest, hstart, hlast, htrails, -⟩ := h
    rw [hnone q hstart hlast] at htrails
    cases htrails
  | noMatch =>
    obtain rfl := Option.some.inj hb
    exact iff_of_true rfl h
  | interrupted | failed => cases hb

/-- A machine imitates itself, so that it finds the same whatever pairs it is to report. -/
theorem Machine.Imitates.refl (m : Machine) : m.Imitates m where
  anchored := rfl
  firstUnit := rfl
  units := rfl
  interrupted := rfl
  attempt pos failures := by
    cases m.attempt pos failures with
    | accepted stop st => exact .accepted _ _ _ _
    | failed st => exact .failed rfl
    | stopped s => exact .stopped _ _

end RegexEngine

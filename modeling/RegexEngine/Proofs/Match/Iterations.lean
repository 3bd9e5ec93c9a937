import RegexEngine.Engine.Basic
import RegexEngine.Proofs.Match.Reference

/-!
# The iterations of a loop

A trail of a loop is a chain of iterations, first the required ones and then the optional ones.  An
optional iteration that consumes nothing is given up in a loop without an upper bound, but not in
one with a bound: there it takes part in the match, and the groups inside keep their empty spans.

* `Iterates` — so many iterations lead from one outcome to another.
* `Node.iterationTrails`, `Node.optionalTrails` — the iterations of a loop.
* `Node.mem_trails_rep` — **the trails of a loop are the chains of its iterations.**
-/

namespace RegexEngine

/-- So many iterations of a body lead from one outcome to another. -/
inductive Iterates {α : Type} (body : α → List α) : Nat → α → α → Prop
  | zero (x : α) : Iterates body 0 x x
  | succ {n : Nat} {x y z : α} (hy : y ∈ body x) (hz : Iterates body n y z) :
    Iterates body (n + 1) x z

section Iterates

variable {α : Type} {body : α → List α} {greedy : Bool} {n : Nat} {x y : α}

theorem mem_exactly : y ∈ exactly body n x ↔ Iterates body n x y := by
  induction n generalizing x with
  | zero =>
    rw [exactly, List.mem_singleton]
    constructor
    · rintro rfl
      exact .zero y
    · rintro ⟨⟩
      rfl
  | succ n ih =>
    rw [exactly, List.mem_flatMap]
    constructor
    · rintro ⟨z, hz, hy⟩
      exact .succ hz (ih.1 hy)
    · rintro ⟨⟩
      next z hz hy => exact ⟨z, hz, ih.2 hy⟩

theorem mem_upTo : y ∈ upTo greedy body n x ↔ ∃ k, k ≤ n ∧ Iterates body k x y := by
  induction n generalizing x with
  | zero =>
    rw [upTo, List.mem_singleton]
    constructor
    · rintro rfl
      exact ⟨0, Nat.le_refl 0, .zero y⟩
    · rintro ⟨k, hk, h⟩
      obtain rfl := Nat.le_zero.1 hk
      cases h
      rfl
  | succ n ih =>
    rw [upTo, mem_prefer, List.mem_flatMap, List.mem_singleton]
    constructor
    · rintro (⟨z, hz, hy⟩ | rfl)
      · obtain ⟨k, hk, hy⟩ := ih.1 hy
        exact ⟨k + 1, Nat.succ_le_succ hk, .succ hz hy⟩
      · exact ⟨0, Nat.zero_le _, .zero y⟩
    · rintro ⟨k, hk, h⟩
      cases h with
      | zero => exact Or.inr rfl
      | @succ k _ z _ hz hy => exact Or.inl ⟨z, hz, ih.2 ⟨k, Nat.le_of_succ_le_succ hk, hy⟩⟩

/-- Iterations that go forward are no more than there is room for. -/
theorem Iterates.le_of_advances {P : α → Prop} {pos : α → Nat} {size : Nat}
    (hbody : Advances P pos size body) (h : Iterates body n x y) (hx : P x)
    (hpos : pos x ≤ size) : n ≤ size - pos x := by
  induction h with
  | zero => exact Nat.zero_le _
  | @succ n x z y hz _ ih =>
    obtain ⟨hP, hlt, hle⟩ := hbody x hx z hz
    have hn := ih hP hle
    omega

end Iterates

namespace Node

variable {text : Text} {folded : Bool} {x y : Trail}

/-- The outcomes of an iteration: the groups of the body are forgotten, then the body matches. -/
def iterationTrails (text : Text) (folded : Bool) (body : Node) (x : Trail) : List Trail :=
  body.trails text folded (x.forget body.groupNumbers)

/-- The outcomes of an iteration that is not required.  Only in a loop without an upper bound it
has to consume something. -/
def optionalTrails (text : Text) (folded : Bool) (upper : Option Nat) (body : Node)
    (x : Trail) : List Trail :=
  match upper with
  | none => (body.iterationTrails text folded x).filter (·.pos != x.pos)
  | some _ => body.iterationTrails text folded x

/-- Iterations that have to consume something go forward. -/
theorem advances_optionalIteration (text : Text) (folded : Bool) (body : Node) :
    Advances (fun x : Trail => x.pos ≤ text.size) Trail.pos text.size
      (body.optionalTrails text folded none) := by
  intro x hx y hy
  obtain ⟨hy, hne⟩ := List.mem_filter.1 hy
  have hbounds := mem_trails_bounds body (x := x.forget body.groupNumbers) hx hy
  have hne : y.pos ≠ x.pos := by simpa using hne
  exact ⟨hbounds.2, Nat.lt_of_le_of_ne hbounds.1 (Ne.symm hne), hbounds.2⟩

/-- **The trails of a loop are the chains of its iterations**: the required ones, and behind them
optional ones, no more than the upper bound leaves.  Without an upper bound an optional iteration
has to consume something; with one it need not, and is part of the match all the same. -/
theorem mem_trails_rep {lower : Nat} {upper : Option Nat} {greedy : Bool} {body : Node}
    (hx : x.pos ≤ text.size) :
    y ∈ (rep lower upper greedy body).trails text folded x ↔
      ∃ z k, Iterates (body.iterationTrails text folded) lower x z ∧
        Iterates (body.optionalTrails text folded upper) k z y ∧
          ∀ n, upper = some n → k ≤ n - lower := by
  cases upper with
  | some n =>
    rw [trails, List.mem_flatMap]
    constructor
    · rintro ⟨z, hz, hy⟩
      obtain ⟨k, hk, hy⟩ := mem_upTo.1 hy
      exact ⟨z, k, mem_exactly.1 hz, hy, fun _ hn => Option.some.inj hn ▸ hk⟩
    · rintro ⟨z, k, hz, hy, hk⟩
      exact ⟨z, mem_exactly.2 hz, mem_upTo.2 ⟨k, hk n rfl, hy⟩⟩
  | none =>
    rw [trails, List.mem_flatMap]
    constructor
    · rintro ⟨z, hz, hy⟩
      obtain ⟨k, -, hy⟩ := mem_upTo.1 hy
      exact ⟨z, k, mem_exactly.1 hz, hy, fun _ hn => by cases hn⟩
    · rintro ⟨z, k, hz, hy, -⟩
      -- the chain of optional iterations is not longer than the rest of the text
      have hbound : z.pos ≤ text.size := by
        refine of_mem_exactly (P := fun w : Trail => w.pos ≤ text.size) ?_ hx
          (mem_exactly.2 hz)
        intro w hw v hv
        exact (mem_trails_bounds body (x := w.forget body.groupNumbers) hw hv).2
      have hk := hy.le_of_advances (advances_optionalIteration text folded body) hbound hbound
      exact ⟨z, mem_exactly.2 hz, mem_upTo.2 ⟨k, hk, hy⟩⟩

/-- The group of `(a*)?`. -/
def starred : Node := .group 1 (.rep 0 none true (.unit 0x61))

/-- The text `b`. -/
def loneB : Text := .ofUnits .latin1 #[0x62]

/-- The trail that has only given that group an empty span. -/
def emptySpan : Trail := (Trail.init 0).setSpan 1 (some (0, 0))

/-- In front of `b` an iteration of the group gives it an empty span; nothing else can happen. -/
theorem iterationTrails_starred :
    starred.iterationTrails loneB false (.init 0) = [emptySpan] := by
  let x : Trail := ((Trail.init 0).forget [1]).setSpan 1 none
  have hnone : (unit 0x61).trails loneB false (x.forget []) = [] := by
    rw [trails, Trail.consume, show loneB.unit? (x.forget []).pos = some 0x62 by decide +kernel]
    exact if_neg (by decide)
  have hstar : (rep 0 none true (.unit 0x61)).trails loneB false x = [x] := by
    rw [trails_star true _ (Nat.zero_le _), show (unit 0x61).groupNumbers = [] by rfl, hnone]
    rfl
  have hspan : x.setSpan 1 (some (0, 0)) = emptySpan := by
    refine congrArg (Trail.mk 0) (funext fun j => ?_)
    by_cases hj : j = 1 <;> simp [x, Trail.setSpan, Trail.forget, Trail.init, hj]
  calc starred.iterationTrails loneB false (.init 0)
      = ((rep 0 none true (.unit 0x61)).trails loneB false x).map
          fun y => y.setSpan 1 (some (0, y.pos)) := rfl
    _ = [x.setSpan 1 (some (0, 0))] := by rw [hstar]; rfl
    _ = [emptySpan] := by rw [hspan]

/-- In front of `b` the loop `(a*)?` may leave its group an empty span, unlike `(a*)*`. -/
theorem mem_trails_rep_starred :
    (Trail.init 0).pos ≤ loneB.size ∧
      emptySpan ∈ (rep 0 (some 1) true starred).trails loneB false (.init 0) ∧
      emptySpan ∉ (rep 0 none true starred).trails loneB false (.init 0) := by
  have hstart : (Trail.init 0).pos ≤ loneB.size := Nat.zero_le _
  refine ⟨hstart, ?_, ?_⟩
  · refine (mem_trails_rep hstart).2 ⟨.init 0, 1, .zero _, .succ (y := emptySpan) ?_ (.zero _), ?_⟩
    · rw [optionalTrails, iterationTrails_starred]
      exact List.mem_singleton_self emptySpan
    · intro n hn
      cases hn
      exact Nat.le_refl 1
  · intro hmem
    obtain ⟨z, k, hz, hk, -⟩ := (mem_trails_rep hstart).1 hmem
    obtain rfl : z = .init 0 := by
      cases hz
      rfl
    generalize hy : emptySpan = y at hk
    cases hk with
    | zero =>
      -- without an iteration the group has no span
      have hspans := congrArg (fun x : Trail => x.spans 1) hy
      simp [emptySpan, Trail.setSpan, Trail.init] at hspans
    | succ hmore _ =>
      -- an iteration would have to consume something
      rw [optionalTrails, iterationTrails_starred] at hmore
      simp [emptySpan, Trail.setSpan, Trail.init] at hmore

end Node

/-- The offsets that a new record reports for the first match in a text. -/
def Record.firstMatch (source : String) (t : Text) : Option Buffer :=
  (({ source, flags := .empty } : Record).execute (Options.generator {}) (Options.limits {}) {} t 0
    (some { fixed := false })).buffer

/-- Where there is no `a`, the pattern `(a*)?` gives its group an empty span, unlike `(a*)*`. -/
theorem Record.firstMatch_optional :
    Record.firstMatch "(a*)?" (.ofUnits .latin1 #[0x62]) =
        some ⟨false, #[.span 0 0, .span 0 0]⟩ ∧
      Record.firstMatch "(a*)*" (.ofUnits .latin1 #[0x62]) =
        some ⟨false, #[.span 0 0, .undefined]⟩ := by
  decide +kernel

end RegexEngine

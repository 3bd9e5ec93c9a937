import Mathlib.Data.List.Basic
import RegexEngine.Match.Machine
import RegexEngine.Proofs.Match.Ordered
import RegexEngine.Proofs.Pattern.Groups

/-!
# What trees match

A tree turns a position of the text, together with the spans of the groups, into the ordered list
of those at which a match of the tree can end.  This says what patterns mean; there are neither
addresses nor slots nor a stack in it.

* `Trail` — a position in the text and the spans of the groups.
* `Node.trails` — the trails to which a tree leads, in the order in which they are preferred.
* `Node.mem_trails_bounds` — trails stay in the text and do not go back.
* `Node.trails_star` — **a loop without an upper bound is an iteration and the same loop, or
  nothing**: the bound that makes its recursion end is none.
-/

namespace RegexEngine

/-- The value by which units are compared: the canonical form of a unit, or the unit itself. -/
def compareAs (folded : Bool) (u : Nat) : Nat := if folded then canonicalize u else u

/-- Whether a set has a unit, or a unit that equals it up to case. -/
def inSet (folded : Bool) (set : List Interval) (u : Nat) : Bool :=
  if folded then
    (List.range (CodeUnit.maxUnit + 1)).any fun v =>
      set.any (·.contains v) && canonicalize v == canonicalize u
  else set.any (·.contains u)

/-- A position in the text and the spans of the groups that have matched. -/
structure Trail where
  pos : Nat
  spans : Nat → Option (Nat × Nat)

namespace Trail

/-- The trail that has only begun. -/
def init (pos : Nat) : Trail := ⟨pos, fun _ => none⟩

/-- Go on by some units. -/
def move (n : Nat) (x : Trail) : Trail := { x with pos := x.pos + n }

/-- Give a group a span, or take it away. -/
def setSpan (i : Nat) (span : Option (Nat × Nat)) (x : Trail) : Trail :=
  { x with spans := fun j => if j = i then span else x.spans j }

/-- Take away the spans of some groups. -/
def forget (is : List Nat) (x : Trail) : Trail :=
  { x with spans := fun j => if j ∈ is then none else x.spans j }

/-- Consume one unit if it passes the test. -/
def consume (text : Text) (test : Nat → Bool) (x : Trail) : List Trail :=
  match text.unit? x.pos with
  | some u => if test u then [x.move 1] else []
  | none => []

/-- Consume the text of a group once more; without a span that is the empty text. -/
def repeatSpan (text : Text) (folded : Bool) (x : Trail) : Option (Nat × Nat) → List Trail
  | none => [x]
  | some (start, stop) =>
    if x.pos + (stop - start) ≤ text.size ∧ ∀ k < stop - start,
        (text.unit? (start + k)).map (compareAs folded) =
          (text.unit? (x.pos + k)).map (compareAs folded) then
      [x.move (stop - start)]
    else []

/-- A condition on what follows: the first way to meet it, or nothing but that there is none. -/
def condition (negated : Bool) (ys : List Trail) (x : Trail) : List Trail :=
  match negated, ys with
  | false, [] => []
  | false, y :: _ => [{ y with pos := x.pos }]
  | true, [] => [x]
  | true, _ :: _ => []

/-- Any number of iterations, each of which consumes something.  There are no more of them than
units are left. -/
def star (text : Text) (greedy : Bool) (once : Trail → List Trail) (x : Trail) : List Trail :=
  upTo greedy (fun y => (once y).filter (·.pos != y.pos)) (text.size - x.pos) x

end Trail

namespace Node

mutual

/-- The trails to which a tree leads, in the order in which they are preferred.  A group has no
span while it is open, and each iteration of a loop first forgets the groups of its body. -/
def trails (text : Text) (folded : Bool) : Node → Trail → List Trail
  | empty, x => [x]
  | unit u, x => x.consume text (compareAs folded · == compareAs folded u)
  | any, x => x.consume text (!CodeUnit.isLineTerminator ·)
  | charClass set negated, x => x.consume text (inSet folded set · != negated)
  | anchor a, x => if a.holds text x.pos then [x] else []
  | backRef g, x => x.repeatSpan text folded (x.spans g)
  | group i body, x =>
    (body.trails text folded (x.setSpan i none)).map fun y => y.setSpan i (some (x.pos, y.pos))
  | look negated body, x => x.condition negated (body.trails text folded x)
  | rep lower upper greedy body, x =>
    let once := fun y => body.trails text folded (y.forget body.groupNumbers)
    (exactly once lower x).flatMap
      (match upper with
        | none => Trail.star text greedy once
        | some upper => upTo greedy once (upper - lower))
  | seq items, x => sequenceTrails text folded items x
  | alt items, x => alternativeTrails text folded items x

/-- The trails to which trees in a row lead. -/
def sequenceTrails (text : Text) (folded : Bool) : List Node → Trail → List Trail
  | [], x => [x]
  | n :: ns, x => (n.trails text folded x).flatMap (sequenceTrails text folded ns)

/-- The trails to which trees lead of which one is to match. -/
def alternativeTrails (text : Text) (folded : Bool) : List Node → Trail → List Trail
  | [], _ => []
  | n :: ns, x => n.trails text folded x ++ alternativeTrails text folded ns x

end

/-! ### Positions -/

variable {text : Text} {folded : Bool} {x y : Trail}

theorem mem_consume_bounds {test : Nat → Bool} (h : y ∈ x.consume text test) :
    x.pos < y.pos ∧ y.pos ≤ text.size := by
  rw [Trail.consume] at h
  split at h
  · next u hu =>
    split at h
    · obtain rfl := List.mem_singleton.1 h
      exact ⟨Nat.lt_succ_self _, (Array.getElem?_eq_some_iff.1 hu).1⟩
    · cases h
  · cases h

mutual

/-- **Trails stay in the text and do not go back.** -/
theorem mem_trails_bounds : ∀ (n : Node) {x y : Trail}, x.pos ≤ text.size →
    y ∈ n.trails text folded x → x.pos ≤ y.pos ∧ y.pos ≤ text.size
  | empty, x, y, hx, h => by
    obtain rfl := List.mem_singleton.1 h
    exact ⟨Nat.le_refl _, hx⟩
  | unit u, x, y, _, h | any, x, y, _, h | charClass _ _, x, y, _, h =>
    (mem_consume_bounds h).imp_left Nat.le_of_lt
  | anchor a, x, y, hx, h => by
    rw [trails] at h
    split at h
    · obtain rfl := List.mem_singleton.1 h
      exact ⟨Nat.le_refl _, hx⟩
    · cases h
  | backRef g, x, y, hx, h => by
    rw [trails] at h
    cases hspan : x.spans g with
    | none =>
      rw [hspan] at h
      obtain rfl := List.mem_singleton.1 h
      exact ⟨Nat.le_refl _, hx⟩
    | some span =>
      rw [hspan, Trail.repeatSpan] at h
      split at h
      · next hfits =>
        obtain rfl := List.mem_singleton.1 h
        exact ⟨Nat.le_add_right .., hfits.1⟩
      · cases h
  | group i body, x, y, hx, h => by
    obtain ⟨z, hz, rfl⟩ := List.mem_map.1 h
    have hz := mem_trails_bounds body (x := x.setSpan i none) hx hz
    exact hz
  | look negated body, x, y, hx, h => by
    rw [trails] at h
    have hpos : y.pos = x.pos := by
      cases negated <;> cases hys : body.trails text folded x <;>
        simp_all [Trail.condition]
    omega
  | rep lower upper greedy body, x, y, hx, h => by
    -- what an iteration keeps, the required ones hand on to the others
    have honce : ∀ z : Trail, x.pos ≤ z.pos ∧ z.pos ≤ text.size →
        ∀ w ∈ body.trails text folded (z.forget body.groupNumbers),
          x.pos ≤ w.pos ∧ w.pos ≤ text.size := by
      intro z hz w hw
      have := mem_trails_bounds body (x := z.forget body.groupNumbers) hz.2 hw
      exact ⟨Nat.le_trans hz.1 this.1, this.2⟩
    obtain ⟨z, hz, hy⟩ := List.mem_flatMap.1 h
    have hz := of_mem_exactly honce ⟨Nat.le_refl _, hx⟩ hz
    cases upper with
    | none => exact of_mem_upTo (fun z hz w hw => honce z hz w (List.mem_filter.1 hw).1) hz hy
    | some upper => exact of_mem_upTo honce hz hy
  | seq items, x, y, hx, h => mem_sequenceTrails_bounds items hx h
  | alt items, x, y, hx, h => mem_alternativeTrails_bounds items hx h

theorem mem_sequenceTrails_bounds : ∀ (ns : List Node) {x y : Trail}, x.pos ≤ text.size →
    y ∈ sequenceTrails text folded ns x → x.pos ≤ y.pos ∧ y.pos ≤ text.size
  | [], x, y, hx, h => by
    obtain rfl := List.mem_singleton.1 h
    exact ⟨Nat.le_refl _, hx⟩
  | n :: ns, x, y, hx, h => by
    obtain ⟨z, hz, hy⟩ := List.mem_flatMap.1 h
    have hz := mem_trails_bounds n hx hz
    have hy := mem_sequenceTrails_bounds ns hz.2 hy
    exact ⟨Nat.le_trans hz.1 hy.1, hy.2⟩

theorem mem_alternativeTrails_bounds : ∀ (ns : List Node) {x y : Trail}, x.pos ≤ text.size →
    y ∈ alternativeTrails text folded ns x → x.pos ≤ y.pos ∧ y.pos ≤ text.size
  | [], _, _, _, h => by cases h
  | n :: ns, x, y, hx, h => by
    rcases List.mem_append.1 h with h | h
    · exact mem_trails_bounds n hx h
    · exact mem_alternativeTrails_bounds ns hx h

end

/-- **A loop without an upper bound is an iteration that consumes something and the same loop, or
nothing.** -/
theorem trails_star (greedy : Bool) (body : Node) (hx : x.pos ≤ text.size) :
    (rep 0 none greedy body).trails text folded x =
      prefer greedy
        (((body.trails text folded (x.forget body.groupNumbers)).filter (·.pos != x.pos)).flatMap
          ((rep 0 none greedy body).trails text folded)) [x] := by
  have hstar : (rep 0 none greedy body).trails text folded = Trail.star text greedy
      fun y => body.trails text folded (y.forget body.groupNumbers) := by
    funext y
    rw [trails]
    exact List.flatMap_singleton _ _
  rw [hstar]
  refine upTo_unfold (P := fun y : Trail => y.pos ≤ text.size) (fun y hy z hz => ?_) hx
  obtain ⟨hz, hne⟩ := List.mem_filter.1 hz
  have hbounds := mem_trails_bounds body (x := y.forget body.groupNumbers) hy hz
  have hne : z.pos ≠ y.pos := by simpa using hne
  exact ⟨hbounds.2, Nat.lt_of_le_of_ne hbounds.1 (Ne.symm hne), hbounds.2⟩

end Node

end RegexEngine

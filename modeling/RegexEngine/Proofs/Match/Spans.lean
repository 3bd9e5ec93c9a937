import RegexEngine.Proofs.Match.Refinement

/-!
# Where matches lie

The spans of a match lie in the text and behind its start.  Loops that go back, conditions on what
follows and groups that are entered again and again do not change this: every span was taken between
two positions of one trail.  Conditions may leave spans behind the end of the match, never in front
of its start.

* `Trail.Within` — position and spans of a trail lie between a start and the end of the text.
* `Node.within_of_mem_trails` — **trees keep to this.**
* `Located` — the pairs of a match: the whole, and groups that do not begin before it.
* `Located.displace` — pairs that are moved to the right without leaving 32 bits.
-/

namespace RegexEngine

/-! ### Spans of trails -/

/-- The position of a trail and its spans lie between `start` and the end of the text. -/
structure Trail.Within (text : Text) (start : Nat) (x : Trail) : Prop where
  start_le : start ≤ x.pos
  pos_le : x.pos ≤ text.size
  spans : ∀ i a b, x.spans i = some (a, b) → start ≤ a ∧ a ≤ b ∧ b ≤ text.size

namespace Trail

variable {text : Text} {start : Nat} {x y : Trail}

theorem within_init (hstart : start ≤ text.size) : (Trail.init start).Within text start :=
  ⟨Nat.le_refl start, hstart, fun _ _ _ h => by cases h⟩

theorem Within.move (h : x.Within text start) {n : Nat} (hn : x.pos + n ≤ text.size) :
    (x.move n).Within text start :=
  ⟨Nat.le_add_right_of_le h.start_le, hn, h.spans⟩

theorem Within.consume (h : x.Within text start) {test : Nat → Bool}
    (hy : y ∈ x.consume text test) :
    y.Within text start := by
  have hbounds := Node.mem_consume_bounds hy
  rw [Trail.consume] at hy
  split at hy
  · split at hy
    · obtain rfl := List.mem_singleton.1 hy
      exact h.move hbounds.2
    · cases hy
  · cases hy

theorem Within.repeatSpan (h : x.Within text start) {folded : Bool} {span : Option (Nat × Nat)}
    (hy : y ∈ x.repeatSpan text folded span) : y.Within text start := by
  rcases span with _ | ⟨a, b⟩
  · obtain rfl := List.mem_singleton.1 hy
    exact h
  · rw [Trail.repeatSpan] at hy
    split at hy
    · next hfits =>
      obtain rfl := List.mem_singleton.1 hy
      exact h.move hfits.1
    · cases hy

theorem Within.setSpan (h : x.Within text start) (i : Nat) {span : Option (Nat × Nat)}
    (hspan : ∀ a b, span = some (a, b) → start ≤ a ∧ a ≤ b ∧ b ≤ text.size) :
    (x.setSpan i span).Within text start := by
  refine ⟨h.start_le, h.pos_le, fun j a b hj => ?_⟩
  by_cases hji : j = i
  · exact hspan a b ((if_pos hji).symm.trans hj)
  · exact h.spans j a b ((if_neg hji).symm.trans hj)

theorem Within.forget (h : x.Within text start) (is : List Nat) :
    (x.forget is).Within text start := by
  refine ⟨h.start_le, h.pos_le, fun j a b hj => ?_⟩
  by_cases hmem : j ∈ is
  · exact absurd ((if_pos hmem).symm.trans hj) (by simp)
  · exact h.spans j a b ((if_neg hmem).symm.trans hj)

/-- A condition on what follows keeps spans of its own, which may end behind the match. -/
theorem Within.condition (h : x.Within text start) {negated : Bool} {ys : List Trail}
    (hys : ∀ z ∈ ys, z.Within text start) (hy : y ∈ x.condition negated ys) :
    y.Within text start := by
  match negated, ys, hy with
  | false, z :: _, hy =>
    obtain rfl := List.mem_singleton.1 hy
    exact ⟨h.start_le, h.pos_le, (hys z List.mem_cons_self).spans⟩
  | true, [], hy =>
    obtain rfl := List.mem_singleton.1 hy
    exact h

end Trail

namespace Node

variable {text : Text} {folded : Bool} {start : Nat}

mutual

/-- **Trees keep positions and spans between the start and the end of the text.** -/
theorem within_of_mem_trails : ∀ (n : Node) {x y : Trail}, x.Within text start →
    y ∈ n.trails text folded x → y.Within text start
  | empty, x, y, hx, h => by
    obtain rfl := List.mem_singleton.1 h
    exact hx
  | unit u, x, y, hx, h | any, x, y, hx, h | charClass _ _, x, y, hx, h => hx.consume h
  | anchor a, x, y, hx, h => by
    rw [trails] at h
    split at h
    · obtain rfl := List.mem_singleton.1 h
      exact hx
    · cases h
  | backRef g, x, y, hx, h => hx.repeatSpan h
  | group i body, x, y, hx, h => by
    -- the span of the group lies between two positions of the trail
    obtain ⟨z, hz, rfl⟩ := List.mem_map.1 h
    have hopen : (x.setSpan i none).Within text start := hx.setSpan i fun _ _ h => by cases h
    have hbounds := mem_trails_bounds body (x := x.setSpan i none) hx.pos_le hz
    refine (within_of_mem_trails body hopen hz).setSpan i fun a b hab => ?_
    cases hab
    exact ⟨hx.start_le, hbounds⟩
  | look negated body, x, y, hx, h =>
    hx.condition (fun _ hz => within_of_mem_trails body hx hz) h
  | rep lower upper greedy body, x, y, hx, h => by
    have honce : ∀ z : Trail, z.Within text start →
        ∀ w ∈ body.trails text folded (z.forget body.groupNumbers), w.Within text start :=
      fun z hz w hw => within_of_mem_trails body (hz.forget body.groupNumbers) hw
    obtain ⟨z, hz, hy⟩ := List.mem_flatMap.1 h
    have hz := of_mem_exactly honce hx hz
    cases upper with
    | none => exact of_mem_upTo (fun z hz w hw => honce z hz w (List.mem_filter.1 hw).1) hz hy
    | some upper => exact of_mem_upTo honce hz hy
  | seq items, x, y, hx, h => within_of_mem_sequenceTrails items hx h
  | alt items, x, y, hx, h => within_of_mem_alternativeTrails items hx h

theorem within_of_mem_sequenceTrails : ∀ (ns : List Node) {x y : Trail}, x.Within text start →
    y ∈ sequenceTrails text folded ns x → y.Within text start
  | [], x, y, hx, h => by
    obtain rfl := List.mem_singleton.1 h
    exact hx
  | n :: ns, x, y, hx, h => by
    obtain ⟨z, hz, hy⟩ := List.mem_flatMap.1 h
    exact within_of_mem_sequenceTrails ns (within_of_mem_trails n hx hz) hy

theorem within_of_mem_alternativeTrails : ∀ (ns : List Node) {x y : Trail}, x.Within text start →
    y ∈ alternativeTrails text folded ns x → y.Within text start
  | [], _, _, _, h => by cases h
  | n :: ns, x, y, hx, h => by
    rcases List.mem_append.1 h with h | h
    · exact within_of_mem_trails n hx h
    · exact within_of_mem_alternativeTrails ns hx h

end

end Node

/-! ### Pairs -/

namespace Pair

/-- The pair is undefined, or a span that does not begin before `first` and ends in a text of `size`
units. -/
def Inside (first size : Nat) (q : Pair) : Prop :=
  q = undefined ∨ ∃ a b, q = span a b ∧ first ≤ a ∧ a ≤ b ∧ b ≤ size

variable {first size n : Nat} {q : Pair}

theorem inside_span {a b : Nat} (ha : first ≤ a) (hab : a ≤ b) (hb : b ≤ size) :
    (span a b).Inside first size :=
  Or.inr ⟨a, b, rfl, ha, hab, hb⟩

theorem consistent_span {a b : Nat} (hab : a ≤ b) : (span a b).consistent = true := by
  have ha : ¬((a : Int) < 0) := Int.not_lt.2 (Int.natCast_nonneg a)
  rw [consistent, span, if_neg ha]
  exact decide_eq_true (Int.ofNat_le.2 hab)

theorem isUndefined_span (a b : Nat) : (span a b).isUndefined = false :=
  decide_eq_false (Int.not_lt.2 (Int.natCast_nonneg a))

theorem Inside.consistent (h : q.Inside first size) : q.consistent = true := by
  rcases h with rfl | ⟨a, b, rfl, -, hab, -⟩
  · rfl
  · exact consistent_span hab

theorem Inside.within (h : q.Inside first size) : q.within size = true := by
  rw [Pair.within, h.consistent, Bool.true_and]
  rcases h with rfl | ⟨a, b, rfl, -, -, hb⟩
  · rfl
  · exact Bool.or_eq_true_iff.2 (Or.inr (decide_eq_true (Int.ofNat_le.2 hb)))

/-- The pair moved to the right in integers without a bound. -/
def shift (q : Pair) (n : Nat) : Pair :=
  if q.isUndefined then q else ⟨q.start + n, q.limit + n⟩

/-- **A pair that stays below `0x80000000` is moved as it is in integers without a bound.** -/
theorem Inside.displace (h : q.Inside first size) (hn : size + n < 0x80000000) :
    q.displace n = q.shift n ∧ (q.displace n).Inside (first + n) (size + n) := by
  rcases h with rfl | ⟨a, b, rfl, ha, hab, hb⟩
  · exact ⟨rfl, Or.inl rfl⟩
  · have hmoved : (span a b).displace n = span (a + n) (b + n) :=
      displace_span (by omega) (by omega)
    rw [hmoved]
    refine ⟨?_, inside_span (by omega) (by omega) (by omega)⟩
    rw [shift, isUndefined_span, if_neg Bool.false_ne_true, span, span, Int.natCast_add,
      Int.natCast_add]

/-- Both offsets are kept as they are in words of 32 bits. -/
def FitsWords (q : Pair) : Prop := toWord q.start = q.start ∧ toWord q.limit = q.limit

theorem Inside.fitsWords (h : q.Inside first size) (hsize : size < 0x80000000) : q.FitsWords := by
  rcases h with rfl | ⟨a, b, rfl, -, hab, hb⟩
  · exact ⟨rfl, rfl⟩
  · exact ⟨toWord_natCast (by omega), toWord_natCast (by omega)⟩

end Pair

/-- The pairs of a match in a text of `size` units with so many groups: the whole match begins at
`start` or behind it, and no group begins before the match. -/
structure Located (start size groups : Nat) (pairs : Array Pair) : Prop where
  count : pairs.size = groups + 1
  inside : ∃ first last, pairs[0]? = some (.span first last) ∧ start ≤ first ∧ first ≤ last ∧
    last ≤ size ∧ ∀ q ∈ pairs, q.Inside first size

namespace Located

variable {start size groups n : Nat} {pairs : Array Pair}

theorem exists_inside (h : Located start size groups pairs) :
    ∃ first, ∀ q ∈ pairs, q.Inside first size := by
  obtain ⟨first, -, -, -, -, -, hall⟩ := h.inside
  exact ⟨first, hall⟩

/-- **Pairs of a match in a part of a text, moved to their places in the text.** -/
theorem displace (h : Located start size groups pairs) (hn : size + n < 0x80000000) :
    Located (start + n) (size + n) groups (pairs.map (·.displace n)) := by
  obtain ⟨first, last, hzero, hstart, hle, hlast, hall⟩ := h.inside
  refine ⟨by simpa using h.count, first + n, last + n, ?_, by omega, by omega, by omega, ?_⟩
  · rw [Array.getElem?_map, hzero, Option.map_some, Pair.displace_span (by omega) (by omega)]
  · intro q hq
    obtain ⟨q, hmem, rfl⟩ := Array.mem_map.1 hq
    exact ((hall q hmem).displace hn).2

/-- Located pairs pass the check that is made before they are reported. -/
theorem within (h : Located start size groups pairs) {b : Buffer} (hb : b.pairs = pairs) :
    b.within size = true := by
  obtain ⟨first, hall⟩ := h.exists_inside
  rw [Buffer.within, hb]
  exact Array.all_eq_true'.2 fun q hq => (hall q hq).within

end Located

/-! ### Pairs that searches write -/

/-- The pairs of a trail of a pattern with so many groups. -/
theorem Trail.Within.inside_pair {text : Text} {pos : Nat} {y : Trail} (h : y.Within text pos)
    (i : Nat) : (y.pair pos i).Inside pos text.size := by
  cases i with
  | zero => exact Pair.inside_span (Nat.le_refl pos) h.start_le h.pos_le
  | succ i =>
    rw [Trail.pair]
    cases hspan : y.spans (i + 1) with
    | none => exact Or.inl rfl
    | some s =>
      obtain ⟨ha, hab, hb⟩ := h.spans (i + 1) s.1 s.2 hspan
      exact Pair.inside_span ha hab hb

end RegexEngine

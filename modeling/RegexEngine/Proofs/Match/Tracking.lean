import Mathlib.Data.List.Forall2
import RegexEngine.Proofs.CharSet.Table
import RegexEngine.Proofs.Match.Reference
import RegexEngine.Proofs.Match.Threads

/-!
# Threads and trails

A thread tracks a trail when its slots hold the spans: a group without a span has no end in its
slots.  Code for single units and back-references keeps to this.  A group that is entered anew must
not have an end from before; other groups keep theirs, since the fragment of a tree writes the slots
of its own groups only.

* `Thread.Tracks` — a thread stands for a trail.
* `Thread.Fresh` — some groups have not been left.
* `Tracks.unit`, `Tracks.inTable`, `Tracks.repeatGroup` — instructions against what they stand for.
* `Node.writes_fragment` — **the fragment of a tree writes the slots of its own groups only.**
-/

namespace RegexEngine

/-- The two slots of a group hold its span; without one the group is undefined or still open. -/
def SpanIn (slots : Array (Option Nat)) (i : Nat) : Option (Nat × Nat) → Prop
  | none => slots[2 * i + 1]? = some none
  | some (start, stop) =>
    slots[2 * i]? = some (some start) ∧ slots[2 * i + 1]? = some (some stop) ∧ start ≤ stop

theorem SpanIn.congr {slots slots' : Array (Option Nat)} {i : Nat} {span : Option (Nat × Nat)}
    (h : SpanIn slots i span) (heven : slots'[2 * i]? = slots[2 * i]?)
    (hodd : slots'[2 * i + 1]? = slots[2 * i + 1]?) : SpanIn slots' i span := by
  rcases span with _ | ⟨start, stop⟩
  · exact hodd.trans h
  · exact ⟨heven.trans h.1, hodd.trans h.2.1, h.2.2⟩

namespace Thread

/-- The thread stands where the trail does, and its slots hold the spans of the trail. -/
structure Tracks (text : Text) (groups : Nat) (x : Thread) (X : Trail) : Prop where
  fits : x.Fits text (2 * (groups + 1))
  pos : x.pos = X.pos
  spans : ∀ i, 1 ≤ i → i ≤ groups → SpanIn x.slots i (X.spans i)

/-- The groups have no end. -/
def Fresh (is : List Nat) (x : Thread) : Prop := ∀ i ∈ is, x.slots[2 * i + 1]? = some none

variable {text : Text} {groups : Nat} {x : Thread} {X : Trail} {tables : Array CharTable}
  {t : Target}

/-! ### Single units -/

theorem Tracks.consume (h : x.Tracks text groups X) {test test' : Nat → Bool}
    (htest : ∀ u, text.unit? x.pos = some u → test u = test' u) :
    List.Forall₂ (Tracks text groups) (x.consume text test).toList (X.consume text test') := by
  rw [Thread.consume, Trail.consume, ← h.pos]
  cases hu : text.unit? x.pos with
  | none => exact .nil
  | some u =>
    simp only [htest u hu]
    split
    · exact .cons ⟨⟨Text.lt_of_unit? hu, h.fits.2⟩, by rw [Trail.move, h.pos], h.spans⟩ .nil
    · exact .nil

theorem lt_bound_of_unit? {i u : Nat} (h : text.unit? i = some u) : u < text.width.bound :=
  text.fits u (Array.mem_of_getElem? h)

/-- Code for one unit.  Its target may take the text for narrow only if it is. -/
theorem Tracks.unit (h : x.Tracks text groups X) (hnarrow : t.narrow = true → text.width = .latin1)
    (u : Nat) :
    List.Forall₂ (Tracks text groups) ((Emit.unitInstr t u).pass tables text x).toList
      (X.consume text (compareAs t.folded · == compareAs t.folded u)) := by
  rw [Emit.unitInstr]
  split
  · next hfolded => exact h.consume fun c _ => by simp [compareAs, hfolded]
  · next hfolded =>
    have hplain : ∀ c, compareAs t.folded c = c := fun c => by simp [compareAs, hfolded]
    split
    · next hhigh =>
      -- no unit of a narrow text is so great
      simp only [Bool.and_eq_true, decide_eq_true_eq] at hhigh
      have hnone : (Instr.fail).pass tables text x = x.consume text fun _ => false := by
        rw [Thread.consume]
        split <;> rfl
      rw [hnone]
      refine h.consume fun c hc => ?_
      have hlt := lt_bound_of_unit? hc
      rw [hnarrow hhigh.1, Width.bound] at hlt
      simp only [hplain]
      exact (beq_eq_false_iff_ne.2 (by omega)).symm
    · exact h.consume fun c _ => by simp only [hplain]

theorem inSet_iff {folded : Bool} {set : List Interval} {u : Nat} :
    inSet folded set u = true ↔
      if folded = true then CharTable.HasForm set (canonicalize u) else Interval.Covers set u := by
  cases folded with
  | false =>
    simp only [inSet, Bool.false_eq_true, if_false]
    exact Interval.any_contains_iff
  | true =>
    simp only [inSet, if_true, CharTable.HasForm]
    rw [List.any_eq_true]
    refine exists_congr fun v => ?_
    rw [List.mem_range, Nat.lt_succ_iff, Bool.and_eq_true, Interval.any_contains_iff, beq_iff_eq]
    exact and_left_comm

/-- **The table of a class has the units of its set**, as far as a text of its width has them. -/
theorem contains_classTable {set : List Interval} (hset : Interval.Normal set) {u : Nat}
    (hu : t.narrow = true → u < Width.latin1.bound) :
    (if t.folded then (Emit.classTable t set).containsFolded u
      else (Emit.classTable t set).contains u) = inSet t.folded set u := by
  rw [Bool.eq_iff_iff, inSet_iff, Emit.classTable]
  split
  · exact CharTable.containsFolded_foldedOfIntervals
  · exact CharTable.contains_ofIntervals (Interval.normal_iff.1 hset).1 hu

/-- Code for a class. -/
theorem Tracks.inTable (h : x.Tracks text groups X)
    (hnarrow : t.narrow = true → text.width = .latin1) {set : List Interval}
    (hset : Interval.Normal set) {tb : Nat} (htable : tables[tb]? = some (Emit.classTable t set))
    (negated : Bool) :
    List.Forall₂ (Tracks text groups)
      ((Instr.inTable tb negated t.folded).pass tables text x).toList
      (X.consume text (inSet t.folded set · != negated)) := by
  rw [Instr.pass, htable]
  refine h.consume fun u hu => congrArg (· != negated) (contains_classTable hset fun hn => ?_)
  rw [← hnarrow hn]
  exact lt_bound_of_unit? hu

/-! ### Back-references -/

theorem sameUnit_iff {folded : Bool} {u v : Nat} :
    Machine.sameUnit folded u v = true ↔ compareAs folded u = compareAs folded v := by
  cases folded with
  | false => simp [Machine.sameUnit, compareAs]
  | true =>
    simp only [Machine.sameUnit, compareAs, Bool.true_and, Bool.or_eq_true, beq_iff_eq, if_true]
    exact or_iff_right_of_imp (congrArg canonicalize)

theorem sameUnits_iff {folded : Bool} {n i j : Nat} (hi : i + n ≤ text.size)
    (hj : j + n ≤ text.size) :
    Machine.sameUnits text folded n i j = some true ↔ ∀ k < n,
      (text.unit? (i + k)).map (compareAs folded) =
        (text.unit? (j + k)).map (compareAs folded) := by
  induction n generalizing i j with
  | zero => simp [Machine.sameUnits]
  | succ n ih =>
    obtain ⟨u, hu⟩ := Text.exists_unit? (show i < text.size by omega)
    obtain ⟨v, hv⟩ := Text.exists_unit? (show j < text.size by omega)
    have hrest := ih (i := i + 1) (j := j + 1) (by omega) (by omega)
    have hhead : Machine.sameUnit folded u v = true ↔
        (text.unit? (i + 0)).map (compareAs folded) =
          (text.unit? (j + 0)).map (compareAs folded) := by
      simp [hu, hv, sameUnit_iff]
    rw [Nat.forall_lt_succ_left', ← hhead, Machine.sameUnits, hu, hv]
    simp only [Nat.add_right_comm _ 1, Nat.add_assoc] at hrest ⊢
    split
    · next hsame => simp only [hsame, true_and, hrest]
    · next hsame => simp [hsame]

/-- Code that consumes the text of a group once more. -/
theorem Tracks.repeatGroup (h : x.Tracks text groups X) {i : Nat} (hi : 1 ≤ i ∧ i ≤ groups)
    (folded : Bool) :
    List.Forall₂ (Tracks text groups) (x.repeatGroup text i folded).toList
      (X.repeatSpan text folded (X.spans i)) := by
  have hspan := h.spans i hi.1 hi.2
  rw [Thread.repeatGroup]
  rcases hX : X.spans i with _ | ⟨start, stop⟩
  · -- without an end the group is undefined, whatever its start
    rw [hX] at hspan
    rw [show x.slots[2 * i + 1]? = some none from hspan]
    have hx : List.Forall₂ (Tracks text groups) [x] [X] := .cons h .nil
    rcases x.slots[2 * i]? with _ | _ | start <;> exact hx
  · rw [hX] at hspan
    obtain ⟨hstart, hstop, hle⟩ := hspan
    have hsize := h.fits.2.2 (2 * i + 1) stop hstop
    simp only [hstart, hstop, Trail.repeatSpan, if_neg (Nat.not_lt.2 hle), ← h.pos]
    by_cases hfits : x.pos + (stop - start) ≤ text.size
    · simp only [if_neg (Nat.not_lt.2 hfits), hfits, true_and,
        sameUnits_iff (show start + (stop - start) ≤ text.size by omega) hfits]
      split
      · exact .cons ⟨⟨hfits, h.fits.2⟩, by rw [Trail.move, h.pos], h.spans⟩ .nil
      · exact .nil
    · simp only [if_pos (Nat.lt_of_not_le hfits), hfits, false_and, if_false]
      exact .nil

end Thread

/-! ### Slots of other groups -/

namespace Fragment

variable {F : Nat → Nat → Fragment} {T R n j tb rg : Nat} {greedy : Bool}

theorem writes_iteration {span : Option (Nat × Nat)} {f : Fragment}
    (h : (iteration span f).Writes j) :
    f.Writes j ∨ ∃ first last, span = some (first, last) ∧ 2 * first ≤ j ∧ j < 2 * last := by
  rcases span with _ | ⟨first, last⟩
  · exact Or.inl h
  · rcases h with h | h
    · exact Or.inr ⟨first, last, rfl, h⟩
    · exact Or.inl h

theorem writes_copies (h : (copies F T R n tb rg).Writes j) : ∃ tb rg, (F tb rg).Writes j := by
  induction n generalizing tb rg with
  | zero => exact h.elim
  | succ n ih =>
    rcases h with h | h
    · exact ⟨_, _, h⟩
    · exact ih h

theorem writes_optionals (h : (optionals F T R greedy n tb rg).Writes j) :
    ∃ tb rg, (F tb rg).Writes j := by
  induction n generalizing tb rg with
  | zero => exact h.elim
  | succ n ih =>
    rcases h with h | h
    · exact ⟨_, _, h⟩
    · exact ih h

theorem writes_unbounded {canBeEmpty : Bool} (h : (unbounded greedy canBeEmpty F tb rg).Writes j) :
    ∃ tb rg, (F tb rg).Writes j := by
  cases canBeEmpty <;> exact ⟨_, _, h⟩

end Fragment

namespace Node

variable {t : Target}

mutual

/-- **The fragment of a tree writes the slots of the tree's own groups only.** -/
theorem writes_fragment : ∀ (n : Node) {tb rg j : Nat}, Consecutive n.groupNumbers →
    (n.fragment t tb rg).Writes j → j / 2 ∈ n.groupNumbers
  | empty, _, _, _, _, h | any, _, _, _, _, h | charClass .., _, _, _, _, h
  | anchor _, _, _, _, _, h | backRef _, _, _, _, _, h => h.elim
  | unit u, _, _, _, _, h => by
    rw [fragment, Emit.unitInstr] at h
    split at h
    · exact h.elim
    · split at h <;> exact h.elim
  | group i body, tb, rg, j, hc, h => by
    rw [groupNumbers, List.mem_cons]
    rw [fragment] at h
    split at h
    · -- slots 2 i and 2 i + 1 are those of group i
      rcases h with h | h | h
      · exact Or.inl (by simp only [Fragment.Writes] at h; omega)
      · exact Or.inr (writes_fragment body hc.of_cons h)
      · exact Or.inl (by simp only [Fragment.Writes] at h; omega)
    · exact Or.inr (writes_fragment body hc.of_cons h)
  | look _ body, _, _, _, hc, h => writes_fragment body hc h
  | rep lower upper greedy body, tb, rg, j, hc, h => by
    have honce : ∀ tb rg,
        (Fragment.iteration (Emit.loopSpan t body) (body.fragment t tb rg)).Writes j →
          j / 2 ∈ body.groupNumbers := by
      intro tb rg h
      rcases Fragment.writes_iteration h with h | ⟨first, last, hspan, hj⟩
      · exact writes_fragment body hc h
      · -- the slots that an iteration clears are those of the body's groups
        rw [Emit.loopSpan, Option.ite_none_right_eq_some] at hspan
        rcases groupSpan_of_consecutive (n := body) hc with ⟨hnone, -⟩ | ⟨_, _, hsome, hmem⟩
        · rw [hnone] at hspan
          cases hspan.2
        · rw [hsome] at hspan
          cases hspan.2
          exact (hmem _).2 (by omega)
    rcases h with h | h
    · obtain ⟨_, _, h⟩ := Fragment.writes_copies h
      exact honce _ _ h
    · cases upper with
      | none =>
        obtain ⟨_, _, h⟩ := Fragment.writes_unbounded h
        exact honce _ _ h
      | some upper =>
        obtain ⟨_, _, h⟩ := Fragment.writes_optionals h
        exact honce _ _ h
  | seq items, _, _, _, hc, h => writes_sequence items hc h
  | alt items, _, _, _, hc, h => writes_alternatives items hc h

theorem writes_sequence : ∀ (ns : List Node) {tb rg j : Nat}, Consecutive (allGroupNumbers ns) →
    (sequence t ns tb rg).Writes j → j / 2 ∈ allGroupNumbers ns
  | [], _, _, _, _, h => h.elim
  | n :: ns, _, _, _, hc, h => by
    rw [allGroupNumbers, List.mem_append]
    exact h.imp (writes_fragment n hc.of_append.1) (writes_sequence ns hc.of_append.2)

theorem writes_alternatives : ∀ (ns : List Node) {tb rg j : Nat},
    Consecutive (allGroupNumbers ns) → (alternatives t ns tb rg).Writes j →
      j / 2 ∈ allGroupNumbers ns
  | [], _, _, _, _, h => h.elim
  | n :: ns, _, _, _, hc, h => by
    rw [allGroupNumbers, List.mem_append]
    rw [alternatives] at h
    split at h
    · exact Or.inl (writes_fragment n hc.of_append.1 h)
    · exact h.imp (writes_fragment n hc.of_append.1) (writes_alternatives ns hc.of_append.2)

end

/-- The slots of other groups are left alone. -/
theorem slots_of_mem_fragment {n : Node} (hc : Consecutive n.groupNumbers) {tb rg : Nat}
    {tables : Array CharTable} {text : Text} {x y : Thread}
    (hy : y ∈ (n.fragment t tb rg).threads tables text x) {i : Nat} (hi : i ∉ n.groupNumbers) :
    y.slots[2 * i]? = x.slots[2 * i]? ∧ y.slots[2 * i + 1]? = x.slots[2 * i + 1]? := by
  constructor
  · refine Fragment.slots_of_mem_threads (fun h => hi ?_) hy
    have := writes_fragment n hc h
    rwa [show 2 * i / 2 = i by omega] at this
  · refine Fragment.slots_of_mem_threads (fun h => hi ?_) hy
    have := writes_fragment n hc h
    rwa [show (2 * i + 1) / 2 = i by omega] at this

end Node

end RegexEngine

import RegexEngine.Proofs.Match.Refinement

/-!
# One tree, two targets

The fragments of a tree for two targets have the same shape.  Their instructions correspond to each
other, except that one of the fragments may lack those that store captures.

* `Instr.stores` — the instructions that store captures.
* `Fragment.Erases` — a fragment without some of its instructions, the others replaced.
* `Target.Erases` — what the instructions for two targets have to keep to.
* `Node.erases_fragment` — **the fragments of a tree for two targets.**
-/

namespace RegexEngine

/-- Whether an instruction stores captures. -/
def Instr.stores : Instr → Bool
  | save _ | clear .. => true
  | _ => false

namespace Instr

@[simp] theorem stores_unitInstr (t : Target) (u : Nat) :
    (Emit.unitInstr t u).stores = false := by
  rw [Emit.unitInstr]
  repeat' split
  all_goals rfl

@[simp] theorem stores_choice (greedy : Bool) (body exit : Nat) :
    (Emit.choice greedy body exit).stores = false := by
  cases greedy <;> rfl

end Instr

namespace Fragment

variable {D : Instr → Prop} {R : Instr → Instr → Prop} {f g : Fragment}

/-- The second fragment is the first one without some of the instructions that may be omitted, and
with related instructions for the others. -/
inductive Erases (D : Instr → Prop) (R : Instr → Instr → Prop) : Fragment → Fragment → Prop
  | nil : Erases D R nil nil
  | instr {i j : Instr} (h : R i j) : Erases D R (instr i) (instr j)
  /-- An instruction in front is omitted. -/
  | front {i : Instr} {f g : Fragment} (hi : D i) (h : Erases D R f g) :
    Erases D R (append (instr i) f) g
  /-- An instruction behind is omitted. -/
  | behind {i : Instr} {f g : Fragment} (hi : D i) (h : Erases D R f g) :
    Erases D R (append f (instr i)) g
  | append {f f' g g' : Fragment} (h : Erases D R f g) (h' : Erases D R f' g') :
    Erases D R (append f f') (append g g')
  | choice {f f' g g' : Fragment} (h : Erases D R f g) (h' : Erases D R f' g') :
    Erases D R (choice f f') (choice g g')
  | optional (greedy : Bool) {f g : Fragment} (h : Erases D R f g) :
    Erases D R (optional greedy f) (optional greedy g)
  | loop (greedy : Bool) {f g : Fragment} (h : Erases D R f g) :
    Erases D R (loop greedy f) (loop greedy g)
  | advance (r : Nat) {f g : Fragment} (h : Erases D R f g) :
    Erases D R (advance r f) (advance r g)
  | look (negated : Bool) {f g : Fragment} (h : Erases D R f g) :
    Erases D R (look negated f) (look negated g)

/-- The fragment that is left is not longer. -/
theorem Erases.size_le (h : Erases D R f g) : g.size ≤ f.size := by
  induction h with
  | nil => exact Nat.le_refl _
  | instr h => exact Nat.le_refl _
  | front hi h ih | behind hi h ih =>
    simp only [size]
    omega
  | append h h' ih ih' | choice h h' ih ih' =>
    simp only [size]
    omega
  | optional _ h ih | loop _ h ih | advance _ h ih | look _ h ih =>
    simp only [size]
    omega

/-- No instruction stores captures if those that are left do not. -/
theorem Erases.stores_of_mem (h : Erases D R f g) (hR : ∀ i j, R i j → j.stores = false) {a : Nat}
    {j : Instr} (hj : j ∈ g.code a) : j.stores = false := by
  induction h generalizing a with
  | nil => cases hj
  | @instr i j' h =>
    obtain rfl := List.mem_singleton.1 hj
    exact hR _ _ h
  | front hi h ih | behind hi h ih => exact ih hj
  | append h h' ih ih' =>
    rcases List.mem_append.1 hj with hj | hj
    · exact ih hj
    · exact ih' hj
  | choice h h' ih ih' =>
    simp only [code, List.mem_cons, List.mem_append] at hj
    rcases hj with rfl | hj | rfl | hj
    · rfl
    · exact ih hj
    · rfl
    · exact ih' hj
  | optional greedy h ih =>
    rcases List.mem_cons.1 hj with rfl | hj
    · exact Instr.stores_choice ..
    · exact ih hj
  | loop greedy h ih =>
    simp only [code, List.mem_cons, List.mem_append, List.not_mem_nil, or_false] at hj
    rcases hj with rfl | hj | rfl
    · exact Instr.stores_choice ..
    · exact ih hj
    · rfl
  | advance r h ih | look negated h ih =>
    simp only [code, List.mem_cons, List.mem_append, List.not_mem_nil, or_false] at hj
    rcases hj with rfl | hj | rfl
    · rfl
    · exact ih hj
    · rfl

/-- Where nothing is omitted, the fragments are equally long. -/
theorem Erases.size_eq (hnone : ∀ i, ¬D i) (h : Erases D R f g) : g.size = f.size := by
  induction h with
  | nil => rfl
  | instr h => rfl
  | @front i _ _ hi h ih | @behind i _ _ hi h ih => exact absurd hi (hnone i)
  | append h h' ih ih' | choice h h' ih ih' => simp only [size, ih, ih']
  | optional _ h ih | loop _ h ih | advance _ h ih | look _ h ih => simp only [size, ih]

/-! ### Loops -/

variable {tables tables' : Array CharTable} {ts ts' : List CharTable}
  {F F' : Nat → Nat → Fragment}

section Loops

variable (hF : ∀ tb tb' rg, HasTables tables tb ts → HasTables tables' tb' ts' →
  Erases D R (F tb rg) (F' tb' rg))
include hF

theorem erases_copies (Q n : Nat) {tb tb' : Nat} (rg : Nat)
    (ht : HasTables tables tb (List.replicate n ts).flatten)
    (ht' : HasTables tables' tb' (List.replicate n ts').flatten) :
    Erases D R (copies F ts.length Q n tb rg) (copies F' ts'.length Q n tb' rg) := by
  induction n generalizing tb tb' rg with
  | zero => exact .nil
  | succ n ih =>
    rw [List.replicate_succ, List.flatten_cons] at ht ht'
    exact .append (hF _ _ _ ht.of_append.1 ht'.of_append.1)
      (ih _ ht.of_append.2 ht'.of_append.2)

theorem erases_optionals (Q : Nat) (greedy : Bool) (n : Nat) {tb tb' : Nat} (rg : Nat)
    (ht : HasTables tables tb (List.replicate n ts).flatten)
    (ht' : HasTables tables' tb' (List.replicate n ts').flatten) :
    Erases D R (optionals F ts.length Q greedy n tb rg)
      (optionals F' ts'.length Q greedy n tb' rg) := by
  induction n generalizing tb tb' rg with
  | zero => exact .nil
  | succ n ih =>
    rw [List.replicate_succ, List.flatten_cons] at ht ht'
    exact .optional greedy (.append (hF _ _ _ ht.of_append.1 ht'.of_append.1)
      (ih _ ht.of_append.2 ht'.of_append.2))

theorem erases_unbounded (greedy canBeEmpty : Bool) {tb tb' : Nat} (rg : Nat)
    (ht : HasTables tables tb ts) (ht' : HasTables tables' tb' ts') :
    Erases D R (unbounded greedy canBeEmpty F tb rg)
      (unbounded greedy canBeEmpty F' tb' rg) := by
  cases canBeEmpty with
  | false => exact .loop greedy (hF _ _ _ ht ht')
  | true => exact .loop greedy (.advance rg (hF _ _ _ ht ht'))

end Loops

end Fragment

/-! ### Two targets -/

/-- What the instructions of a tree for two targets have to keep to, so that its fragments
correspond to each other.  Each target has its own list of tables. -/
structure Target.Erases (t t' : Target) (tables tables' : Array CharTable) (D : Instr → Prop)
    (R : Instr → Instr → Prop) : Prop where
  /-- Both targets store captures, or none, or the second one leaves that out. -/
  captures : (t'.captures = t.captures ∧ ∀ i, i.stores = true → R i i) ∨
    (t'.captures = false ∧ ∀ i, i.stores = true → D i)
  unit : ∀ u, R (Emit.unitInstr t u) (Emit.unitInstr t' u)
  any : R .any .any
  anchor : ∀ a, R (.anchor a) (.anchor a)
  inTable : ∀ {k k' : Nat} {set : List Interval}, tables[k]? = some (Emit.classTable t set) →
    tables'[k']? = some (Emit.classTable t' set) →
      ∀ negated, R (.inTable k negated t.folded) (.inTable k' negated t'.folded)

namespace Node

open Fragment

variable {t t' : Target} {tables tables' : Array CharTable} {D : Instr → Prop}
  {R : Instr → Instr → Prop}

/-- Each iteration of a loop forgets the same captures, unless the second target stores none. -/
theorem erases_iteration (h : t.Erases t' tables tables' D R) {body : Node} {f g : Fragment}
    (hfg : Erases D R f g) :
    Erases D R (iteration (Emit.loopSpan t body) f) (iteration (Emit.loopSpan t' body) g) := by
  rw [Emit.loopSpan, Emit.loopSpan]
  rcases h.captures with ⟨hcaptures, hstores⟩ | ⟨hcaptures, hdrop⟩
  · rw [hcaptures]
    rcases (if t.captures then body.groupSpan else none) with _ | ⟨first, last⟩
    · exact hfg
    · exact .append (.instr (hstores _ rfl)) hfg
  · rw [hcaptures, if_neg Bool.false_ne_true]
    rcases (if t.captures then body.groupSpan else none) with _ | ⟨first, last⟩
    · exact hfg
    · exact .front (hdrop _ rfl) hfg

/-- Groups store the same captures, unless the second target stores none. -/
theorem erases_group (h : t.Erases t' tables tables' D R) {f g : Fragment}
    (hfg : Erases D R f g) (i : Nat) :
    Erases D R
      (if t.captures then
        .append (.instr (.save (2 * i))) (.append f (.instr (.save (2 * i + 1)))) else f)
      (if t'.captures then
        .append (.instr (.save (2 * i))) (.append g (.instr (.save (2 * i + 1)))) else g) := by
  rcases h.captures with ⟨hcaptures, hstores⟩ | ⟨hcaptures, hdrop⟩
  · rw [hcaptures]
    split
    · exact .append (.instr (hstores _ rfl)) (.append hfg (.instr (hstores _ rfl)))
    · exact hfg
  · rw [hcaptures, if_neg Bool.false_ne_true]
    split
    · exact .front (hdrop _ rfl) (.behind (hdrop _ rfl) hfg)
    · exact hfg

mutual

/-- **The fragments of a tree for two targets correspond to each other**, provided that its
back-references do, if it has any. -/
theorem erases_fragment (h : t.Erases t' tables tables' D R) : ∀ (n : Node) (tb tb' rg : Nat),
    (n.hasBackRefs = true → ∀ g, R (.backRef g t.folded) (.backRef g t'.folded)) →
      HasTables tables tb (n.tables t) → HasTables tables' tb' (n.tables t') →
        Erases D R (n.fragment t tb rg) (n.fragment t' tb' rg)
  | empty, _, _, _, _, _, _ => .nil
  | unit u, _, _, _, _, _, _ => .instr (h.unit u)
  | any, _, _, _, _, _, _ => .instr h.any
  | charClass _ negated, _, _, _, _, ht, ht' =>
    .instr (h.inTable (ht 0 _ rfl) (ht' 0 _ rfl) negated)
  | anchor a, _, _, _, _, _, _ => .instr (h.anchor a)
  | backRef g, _, _, _, hback, _, _ => .instr (hback rfl g)
  | look negated body, _, _, _, hback, ht, ht' =>
    .look negated (erases_fragment h body _ _ _ hback ht ht')
  | group i body, tb, tb', rg, hback, ht, ht' => by
    rw [fragment, fragment]
    exact erases_group h (erases_fragment h body tb tb' rg hback ht ht') i
  | rep lower upper greedy body, tb, tb', rg, hback, ht, ht' => by
    have honce : ∀ tb tb' rg, HasTables tables tb (body.tables t) →
        HasTables tables' tb' (body.tables t') →
          Erases D R (iteration (Emit.loopSpan t body) (body.fragment t tb rg))
            (iteration (Emit.loopSpan t' body) (body.fragment t' tb' rg)) := by
      intro tb tb' rg ht ht'
      exact erases_iteration h (erases_fragment h body tb tb' rg hback ht ht')
    -- the tables of the required copies stand in front of those of the optional ones
    rw [Node.tables, List.replicate_add, List.flatten_append] at ht ht'
    have hrest := ht.of_append.2
    have hrest' := ht'.of_append.2
    have hlength : ∀ us : List CharTable,
        (List.replicate lower us).flatten.length = lower * us.length := by
      intro us
      simp
    rw [hlength] at hrest hrest'
    have hrequired := erases_copies honce body.registerCount lower rg ht.of_append.1
      ht'.of_append.1
    cases upper with
    | none =>
      rw [fragment, fragment]
      exact .append hrequired (erases_unbounded honce greedy body.canBeEmpty _
        (by simpa using hrest) (by simpa using hrest'))
    | some upper =>
      rw [fragment, fragment]
      exact .append hrequired (erases_optionals honce _ greedy _ _ hrest hrest')
  | seq items, _, _, _, hback, ht, ht' => erases_sequence h items _ _ _ hback ht ht'
  | alt items, _, _, _, hback, ht, ht' => erases_alternatives h items _ _ _ hback ht ht'

theorem erases_sequence (h : t.Erases t' tables tables' D R) :
    ∀ (ns : List Node) (tb tb' rg : Nat),
      (anyHasBackRefs ns = true → ∀ g, R (.backRef g t.folded) (.backRef g t'.folded)) →
        HasTables tables tb (allTables t ns) → HasTables tables' tb' (allTables t' ns) →
          Erases D R (sequence t ns tb rg) (sequence t' ns tb' rg)
  | [], _, _, _, _, _, _ => .nil
  | n :: ns, _, _, _, hback, ht, ht' => by
    rw [anyHasBackRefs, Bool.or_eq_true] at hback
    exact .append
      (erases_fragment h n _ _ _ (fun hn => hback (Or.inl hn)) ht.of_append.1 ht'.of_append.1)
      (erases_sequence h ns _ _ _ (fun hns => hback (Or.inr hns)) ht.of_append.2 ht'.of_append.2)

theorem erases_alternatives (h : t.Erases t' tables tables' D R) :
    ∀ (ns : List Node) (tb tb' rg : Nat),
      (anyHasBackRefs ns = true → ∀ g, R (.backRef g t.folded) (.backRef g t'.folded)) →
        HasTables tables tb (allTables t ns) → HasTables tables' tb' (allTables t' ns) →
          Erases D R (alternatives t ns tb rg) (alternatives t' ns tb' rg)
  | [], _, _, _, _, _, _ => .nil
  | n :: ns, tb, tb', rg, hback, ht, ht' => by
    rw [anyHasBackRefs, Bool.or_eq_true] at hback
    have hhead := erases_fragment h n tb tb' rg (fun hn => hback (Or.inl hn)) ht.of_append.1
      ht'.of_append.1
    rw [alternatives, alternatives]
    split
    · exact hhead
    · exact .choice hhead (erases_alternatives h ns _ _ _ (fun hns => hback (Or.inr hns))
        ht.of_append.2 ht'.of_append.2)

end

/-- The tables of a tree behind those of others. -/
theorem hasTables_behind (k : Nat) (ts : List CharTable) :
    HasTables (Array.replicate k default ++ ts.toArray) k ts := by
  intro j table hj
  rw [Array.getElem?_append_right (by simp), Array.size_replicate, Nat.add_sub_cancel_left]
  simpa using hj

/-- The fragment for a target that stores the same captures, or none, is not longer, wherever the
tables of the two stand. -/
theorem size_fragment_le (n : Node) (hcaptures : t'.captures = t.captures ∨ t'.captures = false)
    (tb tb' rg : Nat) : (n.fragment t' tb' rg).size ≤ (n.fragment t tb rg).size := by
  have h : t.Erases t' (Array.replicate tb default ++ (n.tables t).toArray)
      (Array.replicate tb' default ++ (n.tables t').toArray) (fun _ => True) fun _ _ => True := by
    constructor
    · exact hcaptures.imp (fun h => ⟨h, fun _ _ => trivial⟩) fun h => ⟨h, fun _ _ => trivial⟩
    all_goals
      intros
      trivial
  exact (erases_fragment h n tb tb' rg (fun _ _ => trivial) (hasTables_behind _ _)
    (hasTables_behind _ _)).size_le

/-- The fragment for a target that stores no captures has no instructions that do. -/
theorem stores_of_mem_fragment (n : Node) (hcaptures : t.captures = false) (tb rg : Nat) {a : Nat}
    {j : Instr} (hj : j ∈ (n.fragment t tb rg).code a) : j.stores = false := by
  have h : t.Erases t (Array.replicate tb default ++ (n.tables t).toArray)
      (Array.replicate tb default ++ (n.tables t).toArray) (fun _ => True)
      fun _ j => j.stores = false :=
    { captures := Or.inr ⟨hcaptures, fun _ _ => trivial⟩
      unit := fun u => Instr.stores_unitInstr t u
      any := rfl
      anchor := fun _ => rfl
      inTable := fun _ _ _ => rfl }
  exact (erases_fragment h n tb tb rg (fun _ _ => rfl) (hasTables_behind _ _)
    (hasTables_behind _ _)).stores_of_mem (fun _ _ => id) hj

end Node

namespace Pattern

variable {p : Pattern} {mode mode' : Mode} {width width' : Width} {flags : Flags}
  {tables₀ tables₀' : Array CharTable} {cap cap' : Nat}

/-- A program that stores fewer captures is not longer. -/
theorem size_fragment_le (h : mode' = mode ∨ mode' = .matchOnly) :
    (p.fragment mode' width' flags tables₀' cap').size ≤
      (p.fragment mode width flags tables₀ cap).size := by
  refine Node.size_fragment_le p.root ?_ _ _ 0
  rcases h with rfl | rfl
  · exact Or.inl rfl
  · -- without a report captures are stored only where a back-reference reads them
    cases hback : p.root.hasBackRefs with
    | false => exact Or.inr (by simp [target, hback])
    | true => exact Or.inl (by simp [target, hback])

/-- **A program that need not report captures stores none**, unless a back-reference reads them. -/
theorem stores_of_compile {prog : Program} {tables : Array CharTable}
    (h : p.compile .matchOnly width flags tables₀ cap = (.ok prog, tables))
    (hback : p.root.hasBackRefs = false) {j : Instr} (hj : j ∈ prog.code) : j.stores = false := by
  obtain ⟨rfl, -⟩ := eq_of_compile h
  rcases List.mem_append.1 (List.mem_toArray.1 hj) with hj | hj
  · refine Node.stores_of_mem_fragment p.root ?_ _ _ hj
    rw [target, hback]
    rfl
  · obtain rfl := List.mem_singleton.1 hj
    rfl

end Pattern

end RegexEngine

import RegexEngine.Proofs.Program.Erasure

/-!
# Code that stores no captures

The code of a fragment from which all instructions that store captures are taken out.  What is left
stands closer together: each instruction has moved down by the number of those in front of it that
were taken out, and so have the targets.

* `Instr.Moved` — an instruction with its targets moved.
* `Counts` — addresses move down by the number of the instructions that store captures.
* `movedAddress` — where the instructions of some code move.
* `Fragment.Erases.moved` — **the code that is left consists of the moved instructions.**
-/

namespace RegexEngine

/-! ### Moved instructions -/

/-- The second instruction does what the first one does, with its targets moved. -/
inductive Instr.Moved (R : Instr → Instr → Prop) (φ : Nat → Nat) : Instr → Instr → Prop
  | test {i j : Instr} (h : R i j) : Moved R φ i j
  | split (first second : Nat) : Moved R φ (.split first second) (.split (φ first) (φ second))
  | jump (target : Nat) : Moved R φ (.jump target) (.jump (φ target))
  | mark (register : Nat) : Moved R φ (.mark register) (.mark register)
  | progress (register : Nat) : Moved R φ (.progress register) (.progress register)
  | look (negated : Bool) (body next : Nat) :
    Moved R φ (.look negated body next) (.look negated (φ body) (φ next))
  | lookEnd : Moved R φ .lookEnd .lookEnd
  | accept : Moved R φ .accept .accept

theorem Instr.moved_choice (R : Instr → Instr → Prop) (φ : Nat → Nat) (greedy : Bool)
    (body exit : Nat) :
    Moved R φ (Emit.choice greedy body exit) (Emit.choice greedy (φ body) (φ exit)) := by
  cases greedy with
  | false => exact .split exit body
  | true => exact .split body exit

/-! ### Moved addresses -/

/-- The addresses in some code are moved down by the number of the instructions that store
captures. -/
def Counts (φ : Nat → Nat) : List Instr → Nat → Prop
  | [], _ => True
  | i :: is, a => φ (a + 1) = φ a + (if i.stores then 0 else 1) ∧ Counts φ is (a + 1)

section Counts

variable {φ : Nat → Nat} {is js : List Instr} {a : Nat}

theorem counts_append :
    Counts φ (is ++ js) a ↔ Counts φ is a ∧ Counts φ js (a + is.length) := by
  induction is generalizing a with
  | nil => simp [Counts]
  | cons i is ih =>
    rw [List.cons_append, Counts, Counts, ih, List.length_cons,
      show a + 1 + is.length = a + (is.length + 1) by omega, and_assoc]

/-- An instruction that stores no captures moves the address behind it by one. -/
theorem Counts.of_cons {i : Instr} (h : Counts φ (i :: is) a) (hi : i.stores = false) :
    φ (a + 1) = φ a + 1 ∧ Counts φ is (a + 1) := by
  obtain ⟨hnext, hrest⟩ := h
  rw [hi, if_neg Bool.false_ne_true] at hnext
  exact ⟨hnext, hrest⟩

/-- The address behind the code. -/
theorem Counts.end_eq (h : Counts φ is a) :
    φ (a + is.length) = φ a + is.countP fun i => !i.stores := by
  induction is generalizing a with
  | nil => rfl
  | cons i is ih =>
    have hrest := ih h.2
    rw [h.1] at hrest
    rw [List.length_cons, List.countP_cons, show a + (is.length + 1) = a + 1 + is.length by omega,
      hrest]
    cases i.stores with
    | true => simp
    | false =>
      simp only [Bool.false_eq_true, if_false, Bool.not_false, if_true]
      omega

/-- The number of the instructions in front of an address that store no captures. -/
def movedAddress (is : List Instr) (q : Nat) : Nat := (is.take q).countP fun i => !i.stores

theorem movedAddress_succ {q : Nat} {i : Instr} (h : is[q]? = some i) :
    movedAddress is (q + 1) = movedAddress is q + (if i.stores then 0 else 1) := by
  rw [movedAddress, List.take_add_one, h, List.countP_append]
  cases hi : i.stores <;> simp [movedAddress, hi]

theorem counts_movedAddress (is : List Instr) : Counts (movedAddress is) is 0 := by
  suffices h : ∀ front js, Counts (movedAddress (front ++ js)) js front.length from h [] is
  intro front js
  induction js generalizing front with
  | nil => trivial
  | cons i js ih => exact ⟨movedAddress_succ (by simp), by simpa using ih (front ++ [i])⟩

/-- An instruction that stores no captures stands at its moved address. -/
theorem getElem?_filter_movedAddress {q : Nat} {i : Instr} (h : is[q]? = some i)
    (hi : i.stores = false) : (is.filter fun i => !i.stores)[movedAddress is q]? = some i := by
  induction is generalizing q with
  | nil => cases h
  | cons j is ih =>
    cases q with
    | zero =>
      obtain rfl : j = i := by simpa using h
      simp [movedAddress, hi]
    | succ q =>
      have hrest := ih (by simpa using h)
      rw [movedAddress] at hrest ⊢
      cases hj : j.stores <;> simpa [hj] using hrest

end Counts

/-! ### What is left of a fragment -/

namespace Fragment

variable {D : Instr → Prop} {R : Instr → Instr → Prop} {φ : Nat → Nat} {f g : Fragment}

/-- Code between two instructions that store no captures. -/
theorem countP_enclosed {i j : Instr} {l : List Instr} (hi : i.stores = false)
    (hj : j.stores = false) :
    ((i :: (l ++ [j])).countP fun i => !i.stores) = (l.countP fun i => !i.stores) + 2 := by
  simp [List.countP_append, hi, hj]

section Moved

variable (hD : ∀ i, D i → i.stores = true) (hR : ∀ i j, R i j → i.stores = false)
include hD hR

/-- What is left is as long as the instructions that store no captures are many. -/
theorem Erases.size_eq_countP (h : Erases D R f g) (a : Nat) :
    g.size = (f.code a).countP fun i => !i.stores := by
  induction h generalizing a with
  | nil => rfl
  | @instr i j h => simp [size, code, hR i j h]
  | @front i f g hi h ih => simp [code, hD i hi, ← ih]
  | @behind i f g hi h ih => simp [code, hD i hi, ← ih]
  | append h h' ih ih' => simp [code, size, List.countP_append, ← ih, ← ih']
  | choice h h' ih ih' =>
    rw [code, size, List.countP_cons_of_pos (by rfl), List.countP_append,
      List.countP_cons_of_pos (by rfl), ← ih, ← ih']
    omega
  | optional greedy h ih => simp [code, size, ← ih]
  | loop greedy h ih => rw [code, size, countP_enclosed (Instr.stores_choice ..) rfl, ← ih]
  | advance r h ih => rw [code, size, countP_enclosed rfl rfl, ← ih]
  | look negated h ih => rw [code, size, countP_enclosed rfl rfl, ← ih]

/-- The address behind what is left. -/
theorem Erases.end_eq (h : Erases D R f g) {a : Nat} (hφ : Counts φ (f.code a) a) :
    φ (a + f.size) = φ a + g.size := by
  rw [h.size_eq_countP hD hR a, ← hφ.end_eq, length_code]

/-- **The code that is left consists of the moved instructions** that store no captures. -/
theorem Erases.moved (h : Erases D R f g) {a : Nat} (hφ : Counts φ (f.code a) a) :
    List.Forall₂ (Instr.Moved R φ) ((f.code a).filter fun i => !i.stores) (g.code (φ a)) := by
  induction h generalizing a with
  | nil => exact .nil
  | @instr i j h =>
    rw [code, List.filter_cons_of_pos (by simp [hR i j h])]
    exact .cons (.test h) .nil
  | @front i f g hi h ih =>
    obtain ⟨⟨hnext, -⟩, hφ⟩ := counts_append.1 hφ
    have hsame : φ (a + 1) = φ a := by simpa [hD i hi] using hnext
    rw [code, code, List.singleton_append, List.filter_cons_of_neg (by simp [hD i hi]), ← hsame]
    exact ih hφ
  | @behind i f g hi h ih =>
    obtain ⟨hφ, -⟩ := counts_append.1 hφ
    have hnone : [i].filter (fun i => !i.stores) = [] := by simp [hD i hi]
    rw [code, code, List.filter_append, hnone, List.append_nil]
    exact ih hφ
  | @append f f' g g' h h' ih ih' =>
    obtain ⟨hφ, hφ'⟩ := counts_append.1 hφ
    rw [length_code] at hφ'
    rw [code, code, List.filter_append, ← h.end_eq hD hR hφ]
    exact List.rel_append (ih hφ) (ih' hφ')
  | @choice f f' g g' h h' ih ih' =>
    obtain ⟨hsplit, hrest⟩ := Counts.of_cons hφ rfl
    obtain ⟨hfirst, htail⟩ := counts_append.1 hrest
    obtain ⟨hjump, hsecond⟩ := htail.of_cons rfl
    rw [length_code, show a + 1 + f.size + 1 = a + f.size + 2 by omega] at hjump hsecond
    have hend := h.end_eq hD hR hfirst
    have hend' := h'.end_eq hD hR hsecond
    -- the moved addresses of the second fragment and of the exit
    have hleft : φ (a + f.size + 2) = φ a + g.size + 2 := by omega
    have hexit : φ (a + f.size + f'.size + 2) = φ a + g.size + g'.size + 2 := by
      rw [show a + f.size + f'.size + 2 = a + f.size + 2 + f'.size by omega]
      omega
    rw [code, code, List.filter_cons_of_pos (by rfl), List.filter_append,
      List.filter_cons_of_pos (by rfl), ← hsplit, ← hleft, ← hexit]
    exact .cons (.split _ _) (List.rel_append (ih hfirst) (.cons (.jump _) (ih' hsecond)))
  | @optional greedy f g h ih =>
    obtain ⟨hhead, hbody⟩ := Counts.of_cons hφ (Instr.stores_choice ..)
    have hend := h.end_eq hD hR hbody
    have hexit : φ (a + f.size + 1) = φ a + g.size + 1 := by
      rw [show a + f.size + 1 = a + 1 + f.size by omega]
      omega
    rw [code, code, List.filter_cons_of_pos (by simp), ← hhead, ← hexit]
    exact .cons (Instr.moved_choice ..) (ih hbody)
  | @loop greedy f g h ih =>
    obtain ⟨hhead, hrest⟩ := Counts.of_cons hφ (Instr.stores_choice ..)
    obtain ⟨hbody, htail⟩ := counts_append.1 hrest
    obtain ⟨hjump, -⟩ := htail.of_cons rfl
    rw [length_code, show a + 1 + f.size + 1 = a + f.size + 2 by omega] at hjump
    have hend := h.end_eq hD hR hbody
    have hexit : φ (a + f.size + 2) = φ a + g.size + 2 := by omega
    rw [code, code, List.filter_cons_of_pos (by simp), List.filter_append,
      List.filter_cons_of_pos (by rfl), ← hhead, ← hexit]
    exact .cons (Instr.moved_choice ..) (List.rel_append (ih hbody) (.cons (.jump _) .nil))
  | @advance r f g h ih =>
    obtain ⟨hmark, hrest⟩ := Counts.of_cons hφ rfl
    obtain ⟨hbody, -⟩ := counts_append.1 hrest
    rw [code, code, List.filter_cons_of_pos (by rfl), List.filter_append,
      List.filter_cons_of_pos (by rfl), ← hmark]
    exact .cons (.mark r) (List.rel_append (ih hbody) (.cons (.progress r) .nil))
  | @look negated f g h ih =>
    obtain ⟨hlook, hrest⟩ := Counts.of_cons hφ rfl
    obtain ⟨hbody, htail⟩ := counts_append.1 hrest
    obtain ⟨hlast, -⟩ := htail.of_cons rfl
    rw [length_code, show a + 1 + f.size + 1 = a + f.size + 2 by omega] at hlast
    have hend := h.end_eq hD hR hbody
    have hnext : φ (a + f.size + 2) = φ a + g.size + 2 := by omega
    rw [code, code, List.filter_cons_of_pos (by rfl), List.filter_append,
      List.filter_cons_of_pos (by rfl), ← hlook, ← hnext]
    exact .cons (.look ..) (List.rel_append (ih hbody) (.cons .lookEnd .nil))

/-- The same of a whole program, which ends with the instruction that accepts. -/
theorem Erases.moved_program (h : Erases D R f g) {is : List Instr}
    (his : is = f.code 0 ++ [Instr.accept]) {q : Nat} {i : Instr} (hq : is[q]? = some i)
    (hi : i.stores = false) :
    ∃ j, (g.code 0 ++ [Instr.accept])[movedAddress is q]? = some j ∧
      Instr.Moved R (movedAddress is) i j := by
  have hcounts := counts_movedAddress is
  nth_rewrite 2 [his] at hcounts
  have hmoved : List.Forall₂ (Instr.Moved R (movedAddress is)) (is.filter fun i => !i.stores)
      (g.code 0 ++ [Instr.accept]) := by
    nth_rewrite 2 [his]
    rw [List.filter_append]
    exact List.rel_append (h.moved hD hR (counts_append.1 hcounts).1) (.cons .accept .nil)
  obtain ⟨hlt, hget⟩ := List.getElem?_eq_some_iff.1 (getElem?_filter_movedAddress hq hi)
  have hlt' := hmoved.length_eq ▸ hlt
  refine ⟨_, List.getElem?_eq_getElem hlt', ?_⟩
  rw [← hget]
  exact hmoved.get hlt hlt'

end Moved

end Fragment

end RegexEngine

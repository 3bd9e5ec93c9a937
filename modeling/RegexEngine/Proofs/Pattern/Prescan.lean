import Mathlib.Data.List.TakeWhile
import Mathlib.Tactic.Conv
import Mathlib.Tactic.Tauto
import RegexEngine.Pattern.Parse

/-!
# Counting groups ahead

Whether `\1` names a group depends on how many groups the whole text has, which is counted before
the text is cut into tokens.  The count looks at backslashes and brackets only, yet it finds the
very parentheses that the tokens find.

* `Neutral` — the characters that such a scan passes over.
* `Skims` — a scan of a text that looks at backslashes, brackets and parentheses only.
* `Skims.drop_escape`, `Skims.scan`, `Skims.first` — such a scan behind an escape, a class and the
  first token.
* `Token.sign_first` — which characters are tokens of their own.
* `countGroups_first` — the count behind the first token.
* `Lexeme.countP_cut` — **the count of a text is the number of its capture tokens.**
-/

namespace RegexEngine

/-! ### Scans that pass over most characters -/

/-- The characters that a scan for groups passes over wherever they stand. -/
def Neutral (c : Char) : Prop := c ≠ '\\' ∧ c ≠ '[' ∧ c ≠ ']' ∧ c ≠ '(' ∧ c ≠ ')'

instance (c : Char) : Decidable (Neutral c) := inferInstanceAs (Decidable (_ ∧ _))

theorem neutral_of_le {c : Char} (h0 : '0' ≤ c) (h9 : c ≤ '9') : Neutral c := by
  refine ⟨?_, ?_, ?_, ?_, ?_⟩ <;> rintro rfl <;> revert h0 h9 <;> decide

theorem neutral_of_isDigit {c : Char} (h : c.isDigit = true) : Neutral c := by
  simp only [Char.isDigit, ge_iff_le, Bool.and_eq_true, decide_eq_true_eq] at h
  exact neutral_of_le h.1 h.2

theorem neutral_of_isControlName {inClass : Bool} {c : Char}
    (h : Escape.isControlName inClass c = true) : Neutral c := by
  refine ⟨?_, ?_, ?_, ?_, ?_⟩ <;> rintro rfl <;> revert h <;> cases inClass <;> decide

theorem neutral_of_hexValue? {c : Char} {v : Nat} (h : Escape.hexValue? c = some v) :
    Neutral c := by
  refine ⟨?_, ?_, ?_, ?_, ?_⟩ <;> rintro rfl <;> exact absurd h (by decide +revert)

theorem neutral_of_hexadecimal? {n v u : Nat} {s : List Char}
    (h : Escape.hexadecimal? n v s = some u) : ∀ c ∈ s.take n, Neutral c := by
  induction n generalizing v s with
  | zero => simp
  | succ n ih =>
    cases s with
    | nil => simp
    | cons d s =>
      simp only [Escape.hexadecimal?] at h
      split at h
      · next hd =>
        rw [List.take_succ_cons, List.forall_mem_cons]
        exact ⟨neutral_of_hexValue? hd, ih h⟩
      · simp at h

theorem neutral_of_octal (room v used : Nat) (s : List Char) :
    used ≤ (Escape.octal room v used s).2 ∧
      ∀ c ∈ s.take ((Escape.octal room v used s).2 - used), Neutral c := by
  induction s generalizing room v used with
  | nil => simp [Escape.octal]
  | cons d s ih =>
    cases room with
    | zero => simp [Escape.octal]
    | succ room =>
      simp only [Escape.octal]
      split
      · next hd =>
        obtain ⟨hle, hall⟩ := ih room (8 * v + Escape.digitValue d) (used + 1)
        refine ⟨by omega, ?_⟩
        rw [show (Escape.octal room (8 * v + Escape.digitValue d) (used + 1) s).2 - used =
          (Escape.octal room (8 * v + Escape.digitValue d) (used + 1) s).2 - (used + 1) + 1 by
            omega, List.take_succ_cons, List.forall_mem_cons]
        exact ⟨neutral_of_le hd.1 (Char.le_trans hd.2.1 (by decide)), hall⟩
      · simp

theorem drop_decimal (s : List Char) : s.drop (Escape.decimal s).2 = s.dropWhile Char.isDigit := by
  have h := congrArg (List.drop (s.takeWhile Char.isDigit).length)
    (List.takeWhile_append_dropWhile (p := Char.isDigit) (l := s))
  rw [List.drop_left] at h
  exact h.symm

theorem drop_cons_sub {α : Type*} {used place : Nat} (h : used + 1 ≤ place) (a : α) (s : List α) :
    (a :: s).drop (place - used) = s.drop (place - (used + 1)) := by
  rw [show place - used = place - (used + 1) + 1 by omega, List.drop_succ_cons]

/-- A scan that passes over neutral characters and over what a backslash escapes, that brackets
make to enter and leave classes, and that passes over parentheses inside of classes.  What it does
with other parentheses is left open. -/
structure Skims {α : Type*} (f : Bool → List Char → α) : Prop where
  cons : ∀ {c : Char}, Neutral c → ∀ (inClass : Bool) (s : List Char),
    f inClass (c :: s) = f inClass s
  escape : ∀ (inClass : Bool) (d : Char) (t : List Char), f inClass ('\\' :: d :: t) = f inClass t
  enter : ∀ (inClass : Bool) (s : List Char), f inClass ('[' :: s) = f true s
  leave : ∀ (inClass : Bool) (s : List Char), f inClass (']' :: s) = f false s
  paren : ∀ {c : Char}, c = '(' ∨ c = ')' → ∀ s : List Char, f true (c :: s) = f true s

namespace Skims

variable {α : Type*} {f : Bool → List Char → α} (hf : Skims f)

include hf

theorem append {cs : List Char} (hcs : ∀ c ∈ cs, Neutral c) (inClass : Bool) (s : List Char) :
    f inClass (cs ++ s) = f inClass s := by
  induction cs with
  | nil => rfl
  | cons c cs ih =>
    rw [List.forall_mem_cons] at hcs
    rw [List.cons_append, hf.cons hcs.1, ih hcs.2]

theorem drop {s : List Char} {n : Nat} (h : ∀ c ∈ s.take n, Neutral c) (inClass : Bool) :
    f inClass (s.drop n) = f inClass s := by
  conv_rhs => rw [← List.take_append_drop n s, hf.append h]

/-! ### Escapes -/

theorem drop_decimal (inClass : Bool) (s : List Char) :
    f inClass (s.drop (Escape.decimal s).2) = f inClass s := by
  rw [RegexEngine.drop_decimal]
  conv_rhs => rw [← List.takeWhile_append_dropWhile (p := Char.isDigit) (l := s)]
  exact (hf.append (fun c hc => neutral_of_isDigit (List.mem_takeWhile_imp hc)) _ _).symm

/-- The scan goes on behind an escape, although it skips one character only. -/
theorem drop_escape (inClass escInClass : Bool) (d : Char) (t : List Char) :
    f inClass ((d :: t).drop (Escape.charEscape escInClass d t).2) = f inClass t := by
  unfold Escape.charEscape
  split
  · rfl
  · split_ifs with hb hc hx hu ho
    · rfl
    · -- a control character, or a backslash whose letter is read again
      subst hc
      split
      · exact hf.cons (by decide) _ _
      · next l t =>
        split_ifs with hl
        · exact (hf.cons (neutral_of_isControlName hl) _ _).symm
        · exact hf.cons (by decide) _ _
    · split
      · next h => exact hf.drop (neutral_of_hexadecimal? h) _
      · rfl
    · split
      · next h => exact hf.drop (neutral_of_hexadecimal? h) _
      · rfl
    · have hd : Neutral d := neutral_of_le ho.1 (Char.le_trans ho.2 (by decide))
      rw [hf.drop (by simpa using (neutral_of_octal 3 0 0 (d :: t)).2), hf.cons hd]
    · rfl

/-! ### Classes -/

theorem drop_classEscape (d : Char) (t : List Char) :
    f true ((d :: t).drop (ClassItem.ofEscape d t).2) = f true t := by
  unfold ClassItem.ofEscape
  split
  · rfl
  · split_ifs
    · rfl
    · exact hf.drop_escape true true d t

theorem true_cons {c : Char} (hb : c ≠ '\\') (hc : c ≠ ']') (s : List Char) :
    f true (c :: s) = f true s := by
  by_cases h : Neutral c
  · exact hf.cons h _ _
  · have : c = '[' ∨ c = '(' ∨ c = ')' := by
      simp only [Neutral] at h
      tauto
    rcases this with rfl | hparen
    · exact hf.enter _ _
    · exact hf.paren hparen _

/-- Inside of a class the scan passes over everything up to the closing bracket. -/
theorem scan {used skip place : Nat} {items : List (ClassItem × Nat)} {s : List Char}
    (h : (ClassItem.scan used skip items s).2 = .ok place) :
    used ≤ place ∧ f true (s.drop skip) = f false (s.drop (place - used)) := by
  induction s generalizing used skip items with
  | nil => simp [ClassItem.scan] at h
  | cons c s ih =>
    unfold ClassItem.scan at h
    split at h
    · -- a character that the last escape has used up
      next skip =>
      obtain ⟨hle, hk⟩ := ih h
      exact ⟨by omega, by rw [drop_cons_sub hle, List.drop_succ_cons, hk]⟩
    · rw [List.drop_zero]
      split_ifs at h with hclose hesc
      · -- the closing bracket: both scans leave the class
        subst hclose
        simp only [Except.ok.injEq] at h
        subst h
        refine ⟨by omega, ?_⟩
        rw [drop_cons_sub (Nat.le_refl _), Nat.sub_self, List.drop_zero, hf.leave]
      · subst hesc
        split at h
        · simp at h
        · next d t =>
          rcases hof : ClassItem.ofEscape d t with ⟨item, n⟩
          rw [hof] at h
          obtain ⟨hle, hk⟩ := ih h
          have hn := hf.drop_classEscape d t
          rw [hof] at hn
          refine ⟨by omega, ?_⟩
          rw [drop_cons_sub hle, ← hk, hn, hf.escape]
      · obtain ⟨hle, hk⟩ := ih h
        refine ⟨by omega, ?_⟩
        rw [drop_cons_sub hle, ← hk, List.drop_zero, hf.true_cons hesc hclose]

end Skims

/-- The count of groups is such a scan. -/
theorem skims_countGroups (k : Nat) : Skims fun inClass s => countGroups inClass k s where
  cons := by
    rintro c ⟨h₁, h₂, h₃, h₄, -⟩ inClass s
    rw [countGroups]
    · exact fun h _ => h₁ h
    · exact fun _ _ h _ => h₁ h
    · exact h₂
    · exact h₃
    · exact h₄
  escape := by simp [countGroups]
  enter := by simp [countGroups]
  leave := by simp [countGroups]
  paren := by
    rintro c (rfl | rfl) s <;> simp [countGroups]

/-! ### Tokens -/

namespace Token

/-- Whether a token opens a capture group. -/
def isCapture : Token → Bool
  | opening (some .capture) => true
  | _ => false

/-- Whether a token is one that no pattern has. -/
def isBad : Token → Bool
  | opening none => true
  | flaw .. => true
  | _ => false

/-- The character of a token that is a parenthesis or a bar. -/
def sign : Token → Option Char
  | opening _ => some '('
  | closing => some ')'
  | bar => some '|'
  | _ => none

theorem sign_ofBounds (lower : Nat) (upper : Option Nat) (s : List Char) :
    (ofBounds lower upper s).1.sign = none := by
  unfold ofBounds
  split <;> rfl

theorem sign_ofBrace (s : List Char) : (ofBrace s).1.sign = none := by
  unfold ofBrace
  split
  · rfl
  · dsimp only
    split
    · exact sign_ofBounds _ _ _
    · rfl

theorem sign_ofClass (s : List Char) : (ofClass s).1.sign = none := by
  unfold ofClass
  dsimp only
  split
  · rfl
  · split <;> rfl

theorem sign_ofEscape (groups : Nat) (d : Char) (t : List Char) :
    (ofEscape groups d t).1.sign = none := by
  unfold ofEscape
  split_ifs
  · rfl
  · rfl
  · split
    · rfl
    · dsimp only
      split_ifs <;> rfl

theorem sign_ofOpening (s : List Char) : (ofOpening s).1.sign = some '(' := by
  unfold ofOpening
  split <;> rfl

/-- Parentheses and bars are the tokens of their characters. -/
theorem sign_first (groups : Nat) (c : Char) (s : List Char) :
    (first groups c s).1.sign = if c = '(' ∨ c = ')' ∨ c = '|' then some c else none := by
  unfold first
  split
  · rfl
  · rfl
  · rfl
  · rfl
  · exact sign_ofOpening s
  · exact sign_ofBounds _ _ _
  · exact sign_ofBounds _ _ _
  · exact sign_ofBounds _ _ _
  · exact sign_ofBrace s
  · exact sign_ofClass s
  · rfl
  · cases s with
    | nil => rfl
    | cons d t => exact sign_ofEscape groups d t
  · next hbar hclose hopen _ _ _ _ _ _ _ =>
    rw [if_neg (show ¬(c = '(' ∨ c = ')' ∨ c = '|') by tauto)]
    split <;> rfl

theorem char_of_sign {groups : Nat} {c d : Char} {s : List Char}
    (h : (first groups c s).1.sign = some d) : c = d := by
  rw [sign_first] at h
  split_ifs at h
  exact Option.some.inj h

theorem isCapture_first {groups : Nat} {c : Char} {s : List Char} (hopen : c ≠ '(') :
    (first groups c s).1.isCapture = false := by
  cases hfirst : (first groups c s).1 with
  | opening kind => exact absurd (char_of_sign (by rw [hfirst]; rfl)) hopen
  | _ => rfl

end Token

namespace Skims

open Token

variable {α : Type*} {f : Bool → List Char → α} (hf : Skims f)

include hf

theorem drop_ofBounds (lower : Nat) (upper : Option Nat) (inClass : Bool) (s : List Char) :
    f inClass (s.drop (ofBounds lower upper s).2) = f inClass s := by
  unfold ofBounds
  split
  · next h =>
    obtain ⟨t, rfl⟩ := List.head?_eq_some_iff.mp h
    exact (hf.cons (by decide) _ _).symm
  · rfl

theorem drop_bounds? {s : List Char} {lower : Nat} {upper : Option Nat} {n : Nat}
    (h : Escape.bounds? s = some (lower, upper, n)) (inClass : Bool) :
    f inClass (s.drop n) = f inClass s := by
  have hdec := hf.drop_decimal inClass s
  unfold Escape.bounds? at h
  rcases hd : Escape.decimal s with ⟨value, digits⟩
  rw [hd] at h hdec
  simp only at h hdec
  split_ifs at h
  split at h
  · -- one number
    next t ht =>
    simp only [Option.some.injEq, Prod.mk.injEq] at h
    obtain ⟨-, -, rfl⟩ := h
    rw [← hdec, ← List.drop_drop, ht, hf.cons (by decide)]
    rfl
  · -- a comma, and behind it a second number or none
    next t ht =>
    have hdec' := hf.drop_decimal inClass t
    rcases hu : Escape.decimal t with ⟨value', digits'⟩
    rw [hu] at h hdec'
    simp only at h hdec'
    split at h
    · next r hr =>
      simp only [Option.some.injEq, Prod.mk.injEq] at h
      obtain ⟨-, -, rfl⟩ := h
      rw [← hdec, ht, hf.cons (by decide), ← hdec', hr, hf.cons (by decide),
        show digits + digits' + 2 = digits + (1 + (digits' + 1)) by omega, ← List.drop_drop, ht,
        ← List.drop_drop, List.drop_succ_cons, List.drop_zero, ← List.drop_drop, hr]
      rfl
    · simp at h
  · simp at h

theorem drop_ofBrace {s : List Char} (h : (ofBrace s).1.isBad = false) :
    f false (s.drop (ofBrace s).2) = f false s := by
  unfold ofBrace at h ⊢
  split
  · rfl
  · next lower upper n hb =>
    rw [hb] at h
    simp only at h ⊢
    split_ifs at h ⊢ with hle
    · rw [← List.drop_drop, hf.drop_ofBounds, hf.drop_bounds? hb]
    · simp [isBad] at h

theorem drop_ofClass {s : List Char} (h : (ofClass s).1.isBad = false) :
    f false (s.drop (ofClass s).2) = f true s := by
  unfold ofClass at h ⊢
  -- the circumflex that negates a class does not matter
  have hstart : f true (s.drop (if (s.head? == some '^') = true then 1 else 0)) = f true s := by
    split
    · next hs =>
      obtain ⟨t, rfl⟩ := List.head?_eq_some_iff.mp (by simpa using hs)
      exact (hf.cons (by decide) _ _).symm
    · rfl
  simp only at h ⊢
  generalize (if (s.head? == some '^') = true then 1 else 0) = start at h hstart ⊢
  rcases hscan : ClassItem.scan start 0 [] (s.drop start) with ⟨items, finish⟩
  rw [hscan] at h
  simp only at h ⊢
  split at h
  · simp [isBad] at h
  · next is his =>
    split at h
    · simp [isBad] at h
    · next place =>
      obtain ⟨hle, hk⟩ := hf.scan (by rw [hscan])
      rw [← hstart, ← List.drop_zero (l := s.drop start), hk, List.drop_drop]
      congr 2
      omega

theorem drop_ofEscape (groups : Nat) (d : Char) (t : List Char) :
    f false ((d :: t).drop (ofEscape groups d t).2) = f false t := by
  unfold ofEscape
  split_ifs with hb hB
  · rfl
  · rfl
  · split
    · rfl
    · rcases hd : Escape.decimal (d :: t) with ⟨n, digits⟩
      simp only
      split_ifs with hn
      · have hdec := hf.drop_decimal false (d :: t)
        rw [hd] at hdec
        have hneutral : Neutral d := neutral_of_le (Char.le_trans (by decide) hn.1) hn.2.1
        rw [hdec, hf.cons hneutral]
      · exact hf.drop_escape false false d t

/-- **Such a scan goes on behind the first token**, unless that is a parenthesis. -/
theorem first {groups : Nat} {c : Char} {s : List Char} (hopen : c ≠ '(') (hclose : c ≠ ')')
    (h : (Token.first groups c s).1.isBad = false) :
    f false (c :: s) = f false (s.drop (Token.first groups c s).2) := by
  unfold Token.first at h ⊢
  split
  · exact hf.cons (by decide) _ _
  · exact hf.cons (by decide) _ _
  · exact hf.cons (by decide) _ _
  · contradiction
  · contradiction
  · rw [hf.cons (by decide), hf.drop_ofBounds]
  · rw [hf.cons (by decide), hf.drop_ofBounds]
  · rw [hf.cons (by decide), hf.drop_ofBounds]
  · rw [hf.cons (by decide), hf.drop_ofBrace h]
  · rw [hf.enter, hf.drop_ofClass h]
  · exact hf.cons (by decide) _ _
  · cases s with
    | nil => exact Bool.noConfusion h
    | cons d t => rw [hf.escape, hf.drop_ofEscape]
  · -- a bracket that closes no class counts for nothing either
    next hclass _ hesc =>
    have hother : f false (c :: s) = f false s := by
      by_cases hc : c = ']'
      · subst hc
        exact hf.leave _ _
      · exact hf.cons ⟨hesc, hclass, hc, hopen, hclose⟩ _ _
    rcases CodeUnit.surrogates c.toNat with ⟨lead, trail⟩
    split <;> exact hother

end Skims

namespace Token

private theorem countGroups_ofOpening (k : Nat) (s : List Char) :
    countGroups false k ('(' :: s) =
      countGroups false (k + if (ofOpening s).1.isCapture then 1 else 0)
        (s.drop (ofOpening s).2) := by
  unfold ofOpening
  split <;> simp [countGroups, isCapture]
  next hquestion =>
    rw [if_neg]
    intro h
    obtain ⟨t, rfl⟩ := List.head?_eq_some_iff.mp h
    exact hquestion t rfl

/-- **Behind its first token a text has as many groups less as the token opens.** -/
theorem countGroups_first (groups k : Nat) (c : Char) (s : List Char)
    (h : (first groups c s).1.isBad = false) :
    countGroups false k (c :: s) =
      countGroups false (k + if (first groups c s).1.isCapture then 1 else 0)
        (s.drop (first groups c s).2) := by
  by_cases hopen : c = '('
  · subst hopen
    exact countGroups_ofOpening k s
  · rw [isCapture_first hopen]
    by_cases hclose : c = ')'
    · subst hclose
      simp [countGroups, first]
    · exact (skims_countGroups k).first hopen hclose h

end Token

namespace Lexeme

theorem mem_cut {groups offset skip : Nat} {lexemes : List Lexeme} {s : List Char} {l : Lexeme}
    (hl : l ∈ lexemes) : l ∈ cut groups offset skip lexemes s := by
  induction s generalizing offset skip lexemes with
  | nil => simpa [cut] using hl
  | cons c s ih =>
    unfold cut
    cases skip with
    | succ skip => exact ih hl
    | zero =>
      simp only
      split_ifs
      · simp [hl]
      · exact ih (List.mem_cons_of_mem _ hl)

/-- The rest of a text has as many groups as the cut finds tokens that open one. -/
theorem countP_cut (groups offset skip : Nat) (lexemes : List Lexeme) (s : List Char)
    (h : ∀ l ∈ cut groups offset skip lexemes s, l.token.isBad = false) :
    (cut groups offset skip lexemes s).countP (·.token.isCapture) =
      countGroups false (lexemes.countP (·.token.isCapture)) (s.drop skip) := by
  induction s generalizing offset skip lexemes with
  | nil => simp [cut, countGroups]
  | cons c s ih =>
    unfold cut at h ⊢
    cases skip with
    | succ skip => exact ih _ _ _ h
    | zero =>
      rcases hfirst : Token.first groups c s with ⟨token, n⟩
      rw [hfirst] at h
      simp only at h ⊢
      split_ifs at h ⊢ with hflaw
      · -- the cut has ended at a flaw, which no pattern has
        have := h ⟨offset, token⟩ (by simp)
        cases token <;> simp_all [Token.isFlaw, Token.isBad]
      · rw [ih _ _ _ h, List.drop_zero, List.countP_cons]
        have hbad : token.isBad = false :=
          h ⟨offset, token⟩ (mem_cut List.mem_cons_self)
        have hc := Token.countGroups_first groups (lexemes.countP (·.token.isCapture)) c s
          (by rw [hfirst]; exact hbad)
        rw [hc, hfirst]

end Lexeme

end RegexEngine

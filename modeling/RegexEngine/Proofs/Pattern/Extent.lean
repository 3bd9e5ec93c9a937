import RegexEngine.Proofs.Pattern.Canonical

/-!
# Tokens end within the text

A token is cut off by readers that each answer how many characters they used.  None of them uses
a character that the text does not have, and a flaw shows no later than at the end of the text.

* `Escape.snd_charEscape_le`, `Escape.le_of_bounds?` — how far an escape and bounds in braces reach.
* `ClassItem.scan_le` — how far the items of a class and the class itself reach.
* `Token.within_first` — **a token ends within the text, and a flaw shows there.**
-/

namespace RegexEngine

/-! ### Escapes -/

namespace Escape

theorem snd_decimal_le (s : List Char) : (decimal s).2 ≤ s.length :=
  (List.takeWhile_prefix Char.isDigit).length_le

theorem le_of_hexadecimal? {n v u : Nat} {s : List Char} (h : hexadecimal? n v s = some u) :
    n ≤ s.length := by
  induction n generalizing v s with
  | zero => exact Nat.zero_le _
  | succ n ih =>
    cases s with
    | nil => simp [hexadecimal?] at h
    | cons c s =>
      rw [hexadecimal?] at h
      split at h
      · exact Nat.succ_le_succ (ih h)
      · simp at h

theorem snd_octal_le (room v used : Nat) (s : List Char) :
    (octal room v used s).2 ≤ used + s.length := by
  induction s generalizing room v used with
  | nil => simp [octal]
  | cons c s ih =>
    cases room with
    | zero => simp [octal]
    | succ room =>
      rw [octal]
      split
      · have := ih room (8 * v + digitValue c) (used + 1)
        rw [List.length_cons]
        omega
      · simp

/-- An escape reaches no further than the text. -/
theorem snd_charEscape_le (inClass : Bool) (c : Char) (s : List Char) :
    (charEscape inClass c s).2 ≤ s.length + 1 := by
  unfold charEscape
  split
  · exact Nat.le_add_left _ _
  · split_ifs
    · exact Nat.le_add_left _ _
    · cases s with
      | nil => exact Nat.zero_le _
      | cons l s =>
        dsimp only
        split_ifs <;> simp
    · split
      · next h => exact Nat.succ_le_succ (le_of_hexadecimal? h)
      · exact Nat.le_add_left _ _
    · split
      · next h => exact Nat.succ_le_succ (le_of_hexadecimal? h)
      · exact Nat.le_add_left _ _
    · simpa using snd_octal_le 3 0 0 (c :: s)
    · exact Nat.le_add_left _ _

/-- Bounds in braces end within the text. -/
theorem le_of_bounds? {s : List Char} {lower : Nat} {upper : Option Nat} {n : Nat}
    (h : bounds? s = some (lower, upper, n)) : n ≤ s.length := by
  unfold bounds? at h
  rcases hd : decimal s with ⟨value, digits⟩
  have hdigits := snd_decimal_le s
  rw [hd] at h hdigits
  dsimp only at h hdigits
  split_ifs at h
  -- behind the digits stands the brace, or a comma
  have hlength : (s.drop digits).length = s.length - digits := List.length_drop
  split at h
  · next t ht =>
    rw [ht, List.length_cons] at hlength
    simp only [Option.some.injEq, Prod.mk.injEq] at h
    omega
  · next t ht =>
    rw [ht, List.length_cons] at hlength
    rcases hu : decimal t with ⟨value', digits'⟩
    have hdigits' := snd_decimal_le t
    rw [hu] at h hdigits'
    dsimp only at h hdigits'
    have hlength' : (t.drop digits').length = t.length - digits' := List.length_drop
    split at h
    · next r hr =>
      rw [hr, List.length_cons] at hlength'
      simp only [Option.some.injEq, Prod.mk.injEq] at h
      omega
    · simp at h
  · simp at h

end Escape

/-! ### Classes -/

namespace ClassItem

theorem snd_ofEscape_le (c : Char) (s : List Char) : (ofEscape c s).2 ≤ s.length + 1 := by
  unfold ofEscape
  split
  · exact Nat.le_add_left _ _
  · split_ifs
    · exact Nat.le_add_left _ _
    · exact Escape.snd_charEscape_le true c s

/-- The items of a class end within the text, and so does the class. -/
theorem scan_le {used skip : Nat} {items : List (ClassItem × Nat)} {s : List Char}
    (hitems : ∀ item ∈ items, item.2 ≤ used + s.length) :
    (∀ item ∈ (scan used skip items s).1, item.2 ≤ used + s.length) ∧
      ∀ place, (scan used skip items s).2 = .ok place → place ≤ used + s.length := by
  induction s generalizing used skip items with
  | nil => simpa [scan] using hitems
  | cons c s ih =>
    have hlength : used + (c :: s).length = used + 1 + s.length := by
      rw [List.length_cons]
      omega
    rw [hlength] at hitems ⊢
    unfold scan
    split
    · exact ih hitems
    · split_ifs
      · refine ⟨by simpa using hitems, fun place h => ?_⟩
        simp only [Except.ok.injEq] at h
        omega
      · split
        · exact ⟨by simpa using hitems, by simp⟩
        · next d t =>
          have hescape := snd_ofEscape_le d t
          rcases hof : ofEscape d t with ⟨item, n⟩
          rw [hof] at hescape
          refine ih (List.forall_mem_cons.mpr ⟨?_, hitems⟩)
          rw [List.length_cons]
          dsimp only at hescape ⊢
          omega
      · refine ih (List.forall_mem_cons.mpr ⟨?_, hitems⟩)
        dsimp only
        omega

/-- A range that is out of order is one of the items. -/
theorem place_of_ranges {sofar : List Interval} {items : List (ClassItem × Nat)} {place : Nat}
    (h : ranges sofar items = .error place) : ∃ item ∈ items, item.2 = place := by
  fun_induction ranges sofar items with
  | case1 => simp at h
  | case2 sofar a _ _ b place rest lo hi _ _ hle ih =>
    obtain ⟨item, hitem, hplace⟩ := ih h
    exact ⟨item, by simp [hitem], hplace⟩
  | case3 sofar a _ _ b place =>
    simp only [Except.error.injEq] at h
    exact ⟨(b, place), by simp, h⟩
  | case4 sofar a _ _ b place rest _ ih =>
    obtain ⟨item, hitem, hplace⟩ := ih h
    exact ⟨item, by simp [hitem], hplace⟩
  | case5 sofar a _ rest _ ih =>
    obtain ⟨item, hitem, hplace⟩ := ih h
    exact ⟨item, by simp [hitem], hplace⟩

end ClassItem

/-! ### Tokens -/

namespace Token

/-- A token with its length, in front of which one character of a text of `n` more stands: it
ends within the text, and its flaw shows there. -/
structure Within (n : Nat) (t : Token × Nat) : Prop where
  length : t.2 ≤ n
  flaw : ∀ ahead f, t.1 = .flaw ahead f → ahead ≤ n + 1

theorem Within.of_not_flaw {n : Nat} {t : Token × Nat} (hlength : t.2 ≤ n)
    (h : t.1.isFlaw = false) : Within n t where
  length := hlength
  flaw := by
    intro ahead f ht
    rw [ht] at h
    exact Bool.noConfusion h

theorem snd_ofBounds_le (lower : Nat) (upper : Option Nat) (s : List Char) :
    (ofBounds lower upper s).2 ≤ s.length := by
  unfold ofBounds
  split
  · next h =>
    obtain ⟨t, rfl⟩ := List.head?_eq_some_iff.mp h
    exact Nat.le_add_left _ _
  · exact Nat.zero_le _

theorem isFlaw_ofBounds (lower : Nat) (upper : Option Nat) (s : List Char) :
    (ofBounds lower upper s).1.isFlaw = false := by
  unfold ofBounds
  split <;> rfl

theorem within_ofBounds (lower : Nat) (upper : Option Nat) (s : List Char) :
    Within s.length (ofBounds lower upper s) :=
  .of_not_flaw (snd_ofBounds_le lower upper s) (isFlaw_ofBounds lower upper s)

theorem within_ofBrace (s : List Char) : Within s.length (ofBrace s) := by
  unfold ofBrace
  split
  · exact .of_not_flaw (Nat.zero_le _) rfl
  · next lower upper n hbounds =>
    have hn := Escape.le_of_bounds? hbounds
    dsimp only
    split_ifs
    · refine .of_not_flaw ?_ (isFlaw_ofBounds _ _ _)
      have hlazy := snd_ofBounds_le lower upper (s.drop n)
      rw [List.length_drop] at hlazy
      dsimp only
      omega
    · refine ⟨Nat.zero_le _, fun ahead f h => ?_⟩
      simp only [Token.flaw.injEq] at h
      omega

theorem within_ofClass (s : List Char) : Within s.length (ofClass s) := by
  unfold ofClass
  have hstart : (if (s.head? == some '^') = true then 1 else 0) ≤ s.length := by
    split
    · next hs =>
      obtain ⟨t, rfl⟩ := List.head?_eq_some_iff.mp (by simpa using hs)
      exact Nat.le_add_left _ _
    · exact Nat.zero_le _
  dsimp only
  generalize (if (s.head? == some '^') = true then 1 else 0) = start at hstart ⊢
  have hscan : (∀ item ∈ (ClassItem.scan start 0 [] (s.drop start)).1, item.2 ≤ _) ∧ _ :=
    ClassItem.scan_le (by simp)
  obtain ⟨hitems, hplace⟩ := hscan
  rw [List.length_drop, Nat.add_sub_cancel' hstart] at hitems hplace
  split
  · next place hranges =>
    obtain ⟨item, hitem, rfl⟩ := ClassItem.place_of_ranges hranges
    refine ⟨Nat.zero_le _, fun ahead f h => ?_⟩
    simp only [Token.flaw.injEq] at h
    have := hitems item hitem
    omega
  · split
    · refine ⟨Nat.zero_le _, fun ahead f h => ?_⟩
      simp only [Token.flaw.injEq] at h
      omega
    · next used hused => exact .of_not_flaw (hplace used hused) rfl

theorem within_ofEscape (groups : Nat) (c : Char) (s : List Char) :
    Within (s.length + 1) (ofEscape groups c s) := by
  unfold ofEscape
  split_ifs
  · exact .of_not_flaw (Nat.le_add_left _ _) rfl
  · exact .of_not_flaw (Nat.le_add_left _ _) rfl
  · split
    · exact .of_not_flaw (Nat.le_add_left _ _) rfl
    · dsimp only
      split_ifs
      · exact .of_not_flaw (Escape.snd_decimal_le (c :: s)) rfl
      · exact .of_not_flaw (Escape.snd_charEscape_le false c s) rfl

theorem within_ofOpening (s : List Char) : Within s.length (ofOpening s) := by
  unfold ofOpening
  split <;> exact .of_not_flaw (by simp) rfl

/-- **A token ends within the text, and a flaw shows there.** -/
theorem within_first (groups : Nat) (c : Char) (s : List Char) :
    Within s.length (first groups c s) := by
  unfold first
  split
  · exact .of_not_flaw (Nat.zero_le _) rfl
  · exact .of_not_flaw (Nat.zero_le _) rfl
  · exact .of_not_flaw (Nat.zero_le _) rfl
  · exact .of_not_flaw (Nat.zero_le _) rfl
  · exact within_ofOpening s
  · exact within_ofBounds _ _ s
  · exact within_ofBounds _ _ s
  · exact within_ofBounds _ _ s
  · exact within_ofBrace s
  · exact within_ofClass s
  · exact .of_not_flaw (Nat.zero_le _) rfl
  · cases s with
    | nil =>
      refine ⟨Nat.zero_le _, fun ahead f h => ?_⟩
      simp only [Token.flaw.injEq] at h
      omega
    | cons d t => exact within_ofEscape groups d t
  · split <;> exact .of_not_flaw (Nat.zero_le _) rfl

end Token

end RegexEngine

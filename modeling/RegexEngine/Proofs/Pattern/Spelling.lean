import RegexEngine.Proofs.Pattern.Canonical

/-!
# The spelling of tokens

Every token that a tree needs has a text of its own: units as four hexadecimal digits behind `\u`,
classes as ranges of such units, numbers in decimal.  No such text begins with a digit or a question
mark, which is all that could be taken for a part of the token before, so that texts written one
after another are cut where one ends and the next begins.

* `Token.text` — the text of a token.
* `Token.Spelled` — the tokens whose text is read as the token again.
* `Node.capped`, `Token.capped` — with the numbers cut down to the greatest one.
* `Token.first_text` — **a token is the first one of its text, whatever else follows.**
* `Lexeme.map_token_cut` — **the texts of tokens in a row are cut into these tokens.**
-/

namespace RegexEngine

open Escape (maxNumber)

/-! ### Numbers -/

namespace Escape

/-- A hexadecimal digit. -/
def hexDigit (d : Nat) : Char := Char.ofNat (if d < 10 then 0x30 + d else 0x37 + d)

theorem hexValue?_hexDigit {d : Nat} (h : d < 16) : hexValue? (hexDigit d) = some d := by
  revert d
  decide

/-- A unit as an escape. -/
def unitText (u : Nat) : List Char :=
  ['\\', 'u', hexDigit (u / 0x1000), hexDigit (u / 0x100 % 16), hexDigit (u / 0x10 % 16),
    hexDigit (u % 16)]

/-- The escape of a unit stands for it, inside of a class and outside. -/
theorem charEscape_unitText {u : Nat} (hu : u ≤ CodeUnit.maxUnit) (inClass : Bool) (s : List Char) :
    charEscape inClass 'u' ((unitText u).drop 2 ++ s) = (u, 5) := by
  have hu : u < 0x10000 := Nat.lt_succ_of_le hu
  have hhex : hexadecimal? 4 0 ((unitText u).drop 2 ++ s) = some u := by
    simp only [unitText, List.drop_succ_cons, List.drop_zero, List.cons_append, hexadecimal?,
      hexValue?_hexDigit (show u / 0x1000 < 16 by omega),
      hexValue?_hexDigit (show u / 0x100 % 16 < 16 by omega),
      hexValue?_hexDigit (show u / 0x10 % 16 < 16 by omega),
      hexValue?_hexDigit (show u % 16 < 16 by omega), Option.some.injEq]
    omega
  simp [charEscape, controlLetter?, hhex]

/-- A number that grows digit by digit stops at the greatest one. -/
theorem foldl_capped (ds : List Char) (v : Nat) :
    ds.foldl (fun v c => min (10 * v + digitValue c) maxNumber) (min v maxNumber) =
      min (Nat.ofDigitChars 10 ds v) maxNumber := by
  induction ds generalizing v with
  | nil => rfl
  | cons d ds ih =>
    have hstep : min (10 * min v maxNumber + digitValue d) maxNumber =
        min (10 * v + digitValue d) maxNumber := by omega
    rw [List.foldl_cons, hstep, ih]
    rfl

/-- A number in decimal is read up to its end, and cut down to the greatest one. -/
theorem decimal_toDigits (n : Nat) {s : List Char} (hs : ∀ c ∈ s.head?, c.isDigit = false) :
    decimal (Nat.toDigits 10 n ++ s) = (min n maxNumber, (Nat.toDigits 10 n).length) := by
  have hdigits : (Nat.toDigits 10 n ++ s).takeWhile Char.isDigit = Nat.toDigits 10 n := by
    rw [List.takeWhile_append_of_pos fun c hc => Nat.isDigit_of_mem_toDigits (by decide) (by decide)
      hc]
    cases s with
    | nil => exact List.append_nil _
    | cons c s =>
      rw [List.takeWhile_cons_of_neg (by rw [hs c rfl]; exact Bool.false_ne_true), List.append_nil]
  rw [decimal, hdigits]
  have hfold := foldl_capped (Nat.toDigits 10 n) 0
  rw [Nat.ofDigitChars_toDigits (by decide) (by decide)] at hfold
  exact congrArg (·, _) hfold

/-- Without a digit there is no number. -/
theorem decimal_of_not_isDigit {s : List Char} (hs : ∀ c ∈ s.head?, c.isDigit = false) :
    decimal s = (0, 0) := by
  cases s with
  | nil => rfl
  | cons c s =>
    rw [decimal, List.takeWhile_cons_of_neg (by rw [hs c rfl]; exact Bool.false_ne_true)]
    rfl

theorem digitChar_mem {n : Nat} (hn : 1 ≤ n) (hlt : n < 10) :
    '1' ≤ n.digitChar ∧ n.digitChar ≤ '9' := by
  revert n
  decide

/-- A number other than zero does not begin with the digit zero. -/
theorem exists_toDigits_eq_cons {n : Nat} (hn : 1 ≤ n) :
    ∃ d ds, Nat.toDigits 10 n = d :: ds ∧ '1' ≤ d ∧ d ≤ '9' := by
  induction n using Nat.strongRecOn with
  | ind n ih =>
    rw [Nat.toDigits_eq_if (by decide)]
    split
    · next hlt =>
      exact ⟨_, [], rfl, digitChar_mem hn hlt⟩
    · obtain ⟨d, ds, hds, hd⟩ := ih (n / 10) (by omega) (by omega)
      exact ⟨d, ds ++ [(n % 10).digitChar], by rw [hds, List.cons_append], hd⟩

/-- The upper bound of a quantifier. -/
def upperText : Option Nat → List Char
  | none => []
  | some upper => Nat.toDigits 10 upper

/-- The bounds of a quantifier are read up to the closing brace. -/
theorem bounds?_text (lower : Nat) (upper : Option Nat) (s : List Char) :
    bounds? (Nat.toDigits 10 lower ++ ',' :: (upperText upper ++ '}' :: s)) =
      some (min lower maxNumber, upper.map (min · maxNumber),
        (Nat.toDigits 10 lower).length + (upperText upper).length + 2) := by
  have hlower := decimal_toDigits lower (s := ',' :: (upperText upper ++ '}' :: s))
    (by rintro c ⟨⟩; decide)
  have hbrace : ∀ c ∈ ('}' :: s).head?, c.isDigit = false := by
    rintro c ⟨⟩
    decide
  have hpos : ∀ n, (Nat.toDigits 10 n).length ≠ 0 := fun n => Nat.length_toDigits_pos.ne'
  unfold bounds?
  rw [hlower]
  dsimp only
  rw [if_neg (hpos lower), List.drop_left]
  cases upper with
  | none =>
    simp only [upperText, List.nil_append, decimal_of_not_isDigit hbrace]
    rfl
  | some upper =>
    simp only [upperText, decimal_toDigits upper hbrace, List.drop_left, if_neg (hpos upper)]
    rfl

end Escape

open Escape (unitText upperText)

/-! ### Trees with small numbers -/

namespace Node

mutual

/-- The tree with its numbers cut down to the greatest one that a pattern can express. -/
def capped : Node → Node
  | backRef i => backRef (min i maxNumber)
  | group index body => group index body.capped
  | look negated body => look negated body.capped
  | rep lower upper greedy body =>
    rep (min lower maxNumber) (upper.map (min · maxNumber)) greedy body.capped
  | seq items => seq (allCapped items)
  | alt items => alt (allCapped items)
  | n => n

/-- The trees with their numbers cut down. -/
def allCapped : List Node → List Node
  | [] => []
  | n :: ns => n.capped :: allCapped ns

end

end Node

/-! ### Texts of tokens -/

/-- The bounds of a range in a class. -/
def Interval.text (i : Interval) : List Char := unitText i.lo ++ '-' :: unitText i.hi

/-- What follows the opening parenthesis of a group. -/
def GroupKind.text : GroupKind → List Char
  | capture => []
  | plain => ['?', ':']
  | look negated => ['?', if negated then '!' else '=']

namespace Token

/-- The text of a token. -/
def text : Token → List Char
  | atom (.unit u) => unitText u
  | atom .any => ['.']
  | atom (.charClass set negated) =>
    '[' :: ((if negated then ['^'] else []) ++ (set.flatMap Interval.text ++ [']']))
  | atom (.backRef i) => '\\' :: Nat.toDigits 10 i
  | caret => ['^']
  | dollar => ['$']
  | boundary negated => ['\\', if negated then 'B' else 'b']
  | quantifier lower upper greedy =>
    '{' :: (Nat.toDigits 10 lower ++
      ',' :: (upperText upper ++ '}' :: if greedy then [] else ['?']))
  | opening (some kind) => '(' :: kind.text
  | closing => [')']
  | bar => ['|']
  | _ => []

/-- The tokens whose text is read as the token again, in a pattern with `groups` groups. -/
def Spelled (groups : Nat) : Token → Prop
  | atom (.unit u) => u ≤ CodeUnit.maxUnit
  | atom .any => True
  | atom (.charClass set _) => Interval.Normal set ∧ ∀ i ∈ set, i.hi ≤ CodeUnit.maxUnit
  | atom (.backRef i) => 1 ≤ i ∧ i ≤ groups
  | atom _ => False
  | surrogates .. => False
  | quantifier lower upper _ => ∀ n ∈ upper, lower ≤ n
  | opening kind => kind.isSome
  | flaw .. => False
  | _ => True

/-- The token with its numbers cut down. -/
def capped : Token → Token
  | atom n => atom n.capped
  | quantifier lower upper greedy =>
    quantifier (min lower maxNumber) (upper.map (min · maxNumber)) greedy
  | t => t

/-- Whether a token opens a group. -/
def isOpening : Token → Bool
  | opening _ => true
  | _ => false

/-- Whether a token closes a group. -/
def isClosing : Token → Bool
  | closing => true
  | _ => false

theorem isOpening_capped (t : Token) : t.capped.isOpening = t.isOpening := by cases t <;> rfl

theorem isClosing_capped (t : Token) : t.capped.isClosing = t.isClosing := by cases t <;> rfl

/-- What follows a token cannot be taken for a part of it. -/
def Clear (s : List Char) : Prop := ∀ c ∈ s.head?, c.isDigit = false ∧ c ≠ '?'

variable {groups : Nat} {t : Token} {s : List Char}

theorem isFlaw_capped (ht : t.Spelled groups) : t.capped.isFlaw = false := by
  cases t with
  | flaw => cases ht
  | _ => rfl

theorem clear_text (ht : t.Spelled groups) (s : List Char) : Clear (t.text ++ s) := by
  intro c hc
  cases t with
  | atom n =>
    cases n with
    | unit | any | charClass | backRef =>
      obtain rfl := Option.some.inj hc
      decide
    | _ => cases ht
  | opening kind =>
    cases kind with
    | none => cases ht
    | some kind =>
      obtain rfl := Option.some.inj hc
      decide
  | surrogates | flaw => cases ht
  | _ =>
    obtain rfl := Option.some.inj hc
    decide

/-! ### Parentheses -/

/-- Characters among which there is no parenthesis. -/
def Flat (cs : List Char) : Prop := ∀ c ∈ cs, c ≠ '(' ∧ c ≠ ')'

instance (cs : List Char) : Decidable (Flat cs) :=
  List.decidableBAll (fun c => c ≠ '(' ∧ c ≠ ')') cs

theorem flat_cons {c : Char} {cs : List Char} : Flat (c :: cs) ↔ (c ≠ '(' ∧ c ≠ ')') ∧ Flat cs :=
  List.forall_mem_cons

theorem flat_append {cs ds : List Char} : Flat (cs ++ ds) ↔ Flat cs ∧ Flat ds :=
  List.forall_mem_append

theorem flat_unitText {u : Nat} (hu : u ≤ CodeUnit.maxUnit) : Flat (unitText u) := by
  have hu : u < 0x10000 := Nat.lt_succ_of_le hu
  have hdigit : ∀ d < 16, Escape.hexDigit d ≠ '(' ∧ Escape.hexDigit d ≠ ')' := by decide
  simp only [unitText, flat_cons]
  exact ⟨by decide, by decide, hdigit _ (by omega), hdigit _ (by omega), hdigit _ (by omega),
    hdigit _ (by omega), fun c hc => absurd hc List.not_mem_nil⟩

theorem flat_toDigits (n : Nat) : Flat (Nat.toDigits 10 n) := by
  intro c hc
  have hdigit := Nat.isDigit_of_mem_toDigits (by decide) (by decide) hc
  constructor
  · rintro rfl
    exact absurd hdigit (by decide)
  · rintro rfl
    exact absurd hdigit (by decide)

/-- Only the texts of tokens that open or close a group have parentheses. -/
theorem flat_text (ht : t.Spelled groups) (hopening : t.isOpening = false)
    (hclosing : t.isClosing = false) : Flat t.text := by
  cases t with
  | atom n =>
    cases n with
    | unit u => exact flat_unitText ht
    | any => exact flat_cons.mpr ⟨by decide, by decide⟩
    | charClass set negated =>
      have hle := (Interval.normal_iff.mp ht.1).1
      have hset : Flat (set.flatMap Interval.text) := by
        intro c hc
        obtain ⟨i, hi, hc⟩ := List.mem_flatMap.mp hc
        have hitem : Flat i.text := flat_append.mpr ⟨flat_unitText ((hle i hi).trans (ht.2 i hi)),
          flat_cons.mpr ⟨by decide, flat_unitText (ht.2 i hi)⟩⟩
        exact hitem c hc
      refine flat_cons.mpr ⟨by decide, flat_append.mpr ⟨?_, flat_append.mpr ⟨hset, ?_⟩⟩⟩
      · cases negated <;> decide
      · decide
    | backRef i => exact flat_cons.mpr ⟨by decide, flat_toDigits i⟩
    | _ => cases ht
  | boundary negated => cases negated <;> decide
  | quantifier lower upper greedy =>
    have hupper : Flat (upperText upper) := by
      cases upper with
      | none => decide
      | some upper => exact flat_toDigits upper
    refine flat_cons.mpr ⟨by decide, flat_append.mpr ⟨flat_toDigits lower, flat_cons.mpr
      ⟨by decide, flat_append.mpr ⟨hupper, flat_cons.mpr ⟨by decide, ?_⟩⟩⟩⟩⟩
    cases greedy <;> decide
  | caret | dollar | bar => decide
  | opening | closing | surrogates | flaw => contradiction

/-- The text of a token has a parenthesis for each group that the token opens or closes. -/
theorem count_text (ht : t.Spelled groups) :
    t.text.count '(' = (if t.isOpening then 1 else 0) ∧
      t.text.count ')' = if t.isClosing then 1 else 0 := by
  have hflat : Flat t.text → t.text.count '(' = 0 ∧ t.text.count ')' = 0 := fun h =>
    ⟨List.count_eq_zero.mpr fun hmem => (h _ hmem).1 rfl,
      List.count_eq_zero.mpr fun hmem => (h _ hmem).2 rfl⟩
  cases t with
  | opening kind =>
    cases kind with
    | none => cases ht
    | some kind =>
      cases kind with
      | look negated => cases negated <;> decide
      | _ => decide
  | closing => decide
  | _ => exact hflat (flat_text ht rfl rfl)

/-- The texts of tokens in a row have as many parentheses as the tokens open and close groups. -/
theorem count_texts {ts : List Token} (hts : ∀ t ∈ ts, t.Spelled groups) :
    (ts.flatMap text).count '(' = ts.countP isOpening ∧
      (ts.flatMap text).count ')' = ts.countP isClosing := by
  induction ts with
  | nil => exact ⟨rfl, rfl⟩
  | cons t ts ih =>
    obtain ⟨ht, hts⟩ := List.forall_mem_cons.mp hts
    obtain ⟨hopening, hclosing⟩ := count_text ht
    obtain ⟨hopenings, hclosings⟩ := ih hts
    simp only [List.flatMap_cons, List.count_append, List.countP_cons]
    omega

end Token

/-! ### Reading a class -/

namespace ClassItem

variable {set : List Interval} {s : List Char} {used : Nat} {items : List (ClassItem × Nat)}

theorem scan_unitText {u : Nat} (hu : u ≤ CodeUnit.maxUnit) :
    scan used 0 items (unitText u ++ s) = scan (used + 6) 0 ((unit u, used + 6) :: items) s := by
  have hescape : ofEscape 'u' ((unitText u).drop 2 ++ s) = (unit u, 5) := by
    simp [ofEscape, Escape.classEscape?, Escape.charEscape_unitText hu]
  simp only [unitText, List.drop_succ_cons, List.drop_zero, List.cons_append,
    List.nil_append] at hescape ⊢
  simp [scan, hescape]

theorem scan_hyphen :
    scan used 0 items ('-' :: s) = scan (used + 1) 0 ((hyphen, used + 1) :: items) s := by
  rw [scan.eq_def]
  rfl

theorem scan_close : scan used 0 items (']' :: s) = (items.reverse, .ok (used + 1)) := by
  rw [scan.eq_def]
  rfl

/-- The items of ranges that are read from `used` on. -/
def ofIntervals (used : Nat) : List Interval → List (ClassItem × Nat)
  | [] => []
  | i :: is =>
    (unit i.lo, used + 6) :: (hyphen, used + 7) :: (unit i.hi, used + 13) ::
      ofIntervals (used + 13) is

theorem scan_intervals (hlo : ∀ i ∈ set, i.lo ≤ CodeUnit.maxUnit)
    (hhi : ∀ i ∈ set, i.hi ≤ CodeUnit.maxUnit) :
    scan used 0 items (set.flatMap Interval.text ++ ']' :: s) =
      (items.reverse ++ ofIntervals used set,
        .ok (used + (set.flatMap Interval.text).length + 1)) := by
  induction set generalizing used items with
  | nil => simp [scan_close, ofIntervals]
  | cons i set ih =>
    obtain ⟨hi, hset⟩ := List.forall_mem_cons.mp hlo
    obtain ⟨hi', hset'⟩ := List.forall_mem_cons.mp hhi
    have hlength : i.text.length = 13 := rfl
    rw [List.flatMap_cons, List.append_assoc, Interval.text, List.append_assoc, List.cons_append,
      scan_unitText hi, scan_hyphen, scan_unitText hi', ih hset hset', ofIntervals,
      ← Interval.text, List.length_append, hlength]
    simp [Nat.add_assoc]

/-- Ranges that are read are those that were written, the last one first. -/
theorem ranges_ofIntervals (hset : ∀ i ∈ set, i.lo ≤ i.hi) (sofar : List Interval) :
    ranges sofar (ofIntervals used set) = .ok (set.reverse ++ sofar) := by
  induction set generalizing used sofar with
  | nil => rfl
  | cons i set ih =>
    obtain ⟨hi, hset⟩ := List.forall_mem_cons.mp hset
    simp only [ofIntervals, ranges, bound?]
    rw [if_pos hi, ih hset, List.reverse_cons, List.append_assoc]
    rfl

end ClassItem

namespace Token

variable {groups : Nat} {t : Token} {s : List Char}

/-- A class is read up to its closing bracket. -/
theorem ofClass_text {set : List Interval} (hnormal : Interval.Normal set)
    (hset : ∀ i ∈ set, i.hi ≤ CodeUnit.maxUnit) (negated : Bool) (s : List Char) :
    ofClass ((if negated then ['^'] else []) ++ (set.flatMap Interval.text ++ ']' :: s)) =
      (atom (.charClass set negated),
        (if negated then ['^'] else []).length + (set.flatMap Interval.text).length + 1) := by
  have hle := (Interval.normal_iff.mp hnormal).1
  have hlo : ∀ i ∈ set, i.lo ≤ CodeUnit.maxUnit := fun i hi => (hle i hi).trans (hset i hi)
  obtain ⟨body, hbody⟩ : ∃ body, body = set.flatMap Interval.text ++ ']' :: s := ⟨_, rfl⟩
  rw [← hbody]
  have hscan : ∀ start, ClassItem.scan start 0 [] body = (ClassItem.ofIntervals start set,
      .ok (start + (set.flatMap Interval.text).length + 1)) := by
    rw [hbody]
    exact fun start => ClassItem.scan_intervals hlo hset
  have hranges : ∀ start, ClassItem.ranges [] (ClassItem.ofIntervals start set) =
      .ok set.reverse := by
    intro start
    rw [ClassItem.ranges_ofIntervals hle, List.append_nil]
  unfold ofClass
  cases negated with
  | true =>
    simp only [if_true, List.cons_append, List.nil_append, List.head?_cons, beq_self_eq_true,
      List.drop_succ_cons, List.drop_zero, hscan, hranges, Interval.normalize_reverse hnormal]
    rfl
  | false =>
    have hhead : (body.head? == some '^') = false := by
      rw [hbody]
      cases set <;> rfl
    simp only [Bool.false_eq_true, if_false, List.nil_append, hhead, List.drop_zero, hscan, hranges,
      Interval.normalize_reverse hnormal]
    rfl

theorem first_unitText {u : Nat} (hu : u ≤ CodeUnit.maxUnit) (s : List Char) :
    first groups '\\' ((unitText u).tail ++ s) = (atom (.unit u), 5) := by
  have hescape : ofEscape groups 'u' ((unitText u).drop 2 ++ s) = (atom (.unit u), 5) := by
    simp [ofEscape, Escape.classEscape?, Escape.charEscape_unitText hu]
  exact hescape

/-- A back-reference is read up to its last digit. -/
theorem first_backRef {i : Nat} (hpos : 1 ≤ i) (hi : i ≤ groups) (hs : Clear s) :
    first groups '\\' (Nat.toDigits 10 i ++ s) =
      (atom (.backRef (min i maxNumber)), (Nat.toDigits 10 i).length) := by
  obtain ⟨d, ds, hds, hlo, hhi⟩ := Escape.exists_toDigits_eq_cons hpos
  have hdecimal := Escape.decimal_toDigits i fun c hc => (hs c hc).1
  rw [hds, List.cons_append] at hdecimal ⊢
  have hletter : ∀ c : Char, '9' < c → d ≠ c := fun c hc hd => by
    subst hd
    exact absurd hhi (Char.not_le.mpr hc)
  have hclass : Escape.classEscape? d = none := by
    unfold Escape.classEscape?
    split
    case h_7 => rfl
    all_goals exact absurd rfl (hletter _ (by decide))
  show ofEscape groups d (ds ++ s) = _
  rw [ofEscape, if_neg (hletter 'b' (by decide)), if_neg (hletter 'B' (by decide)), hclass]
  dsimp only
  rw [hdecimal]
  dsimp only
  rw [if_pos ⟨hlo, hhi, (Nat.min_le_left i maxNumber).trans hi⟩]

/-- A quantifier is read up to its brace, or to the question mark that makes it lazy. -/
theorem first_quantifier {lower : Nat} {upper : Option Nat} (hbounds : ∀ n ∈ upper, lower ≤ n)
    (greedy : Bool) (hs : Clear s) :
    first groups '{' ((quantifier lower upper greedy).text.tail ++ s) =
      ((quantifier lower upper greedy).capped,
        (quantifier lower upper greedy).text.tail.length) := by
  obtain ⟨lazy, hlazy⟩ : ∃ lazy, lazy = if greedy then [] else ['?'] := ⟨_, rfl⟩
  have hbraces : (quantifier lower upper greedy).text.tail ++ s =
      Nat.toDigits 10 lower ++ ',' :: (upperText upper ++ '}' :: (lazy ++ s)) := by
    simp [text, hlazy]
  have hdrop : (Nat.toDigits 10 lower ++ ',' :: (upperText upper ++ '}' :: (lazy ++ s))).drop
      ((Nat.toDigits 10 lower).length + (upperText upper).length + 2) = lazy ++ s := by
    have hsplit : Nat.toDigits 10 lower ++ ',' :: (upperText upper ++ '}' :: (lazy ++ s)) =
        (Nat.toDigits 10 lower ++ ',' :: (upperText upper ++ ['}'])) ++ (lazy ++ s) := by simp
    rw [hsplit]
    apply List.drop_left'
    simp
    omega
  have hordered : (upper.map (min · maxNumber)).all (min lower maxNumber ≤ ·) = true := by
    cases upper with
    | none => rfl
    | some upper =>
      have := hbounds upper rfl
      simp
      omega
  have hlength : (quantifier lower upper greedy).text.tail.length =
      (Nat.toDigits 10 lower).length + (upperText upper).length + 2 + lazy.length := by
    simp [text, hlazy]
    omega
  have hmark : ofBounds (min lower maxNumber) (upper.map (min · maxNumber)) (lazy ++ s) =
      ((quantifier lower upper greedy).capped, lazy.length) := by
    cases greedy with
    | false => simp [hlazy, ofBounds, capped]
    | true =>
      have hs : s.head? ≠ some '?' := fun h => (hs '?' h).2 rfl
      simp [hlazy, ofBounds, capped, hs]
  show ofBrace _ = _
  rw [hbraces, ofBrace, Escape.bounds?_text]
  dsimp only
  rw [if_pos hordered, hdrop, hmark, hlength]

/-- **A token is the first one of its text**, whatever else follows that cannot be taken for a part
of it. -/
theorem first_text (ht : t.Spelled groups) (hs : Clear s) :
    ∃ c cs, t.text = c :: cs ∧ first groups c (cs ++ s) = (t.capped, cs.length) := by
  cases t with
  | atom n =>
    cases n with
    | unit u => exact ⟨_, _, rfl, first_unitText ht s⟩
    | any => exact ⟨_, _, rfl, rfl⟩
    | charClass set negated =>
      refine ⟨_, _, rfl, ?_⟩
      show ofClass _ = _
      rw [List.append_assoc, List.append_assoc, List.singleton_append,
        ofClass_text ht.1 ht.2 negated s, List.length_append, List.length_append]
      rfl
    | backRef i => exact ⟨_, _, rfl, first_backRef ht.1 ht.2 hs⟩
    | _ => cases ht
  | quantifier lower upper greedy => exact ⟨_, _, rfl, first_quantifier ht greedy hs⟩
  | boundary negated => cases negated <;> exact ⟨_, _, rfl, rfl⟩
  | opening kind =>
    cases kind with
    | none => cases ht
    | some kind =>
      refine ⟨_, _, rfl, ?_⟩
      cases kind with
      | capture =>
        show ofOpening s = _
        unfold ofOpening
        split
        case h_5 => rfl
        all_goals exact absurd rfl (hs _ rfl).2
      | plain => rfl
      | look negated => cases negated <;> rfl
  | caret | dollar | closing | bar => exact ⟨_, _, rfl, rfl⟩
  | surrogates | flaw => cases ht

theorem clear_texts {ts : List Token} (hts : ∀ t ∈ ts, t.Spelled groups) :
    Clear (ts.flatMap text) := by
  cases ts with
  | nil => rintro c ⟨⟩
  | cons t ts => exact clear_text (hts t List.mem_cons_self) (ts.flatMap text)

end Token

/-! ### Texts of tokens in a row -/

namespace Lexeme

variable {groups : Nat} {ts : List Token}

/-- Characters that belong to the last token are passed over. -/
theorem cut_append (cs s : List Char) (offset : Nat) (lexemes : List Lexeme) :
    cut groups offset cs.length lexemes (cs ++ s) =
      cut groups (offset + cs.length) 0 lexemes s := by
  induction cs generalizing offset with
  | nil => rfl
  | cons c cs ih =>
    have hskip : cut groups offset (c :: cs).length lexemes (c :: cs ++ s) =
        cut groups (offset + 1) cs.length lexemes (cs ++ s) := rfl
    rw [hskip, ih, List.length_cons, Nat.add_right_comm, Nat.add_assoc]

/-- **The texts of tokens in a row are cut into these tokens**, with numbers that are no greater
than a pattern can express. -/
theorem map_token_cut (hts : ∀ t ∈ ts, t.Spelled groups) (offset : Nat) (lexemes : List Lexeme) :
    (cut groups offset 0 lexemes (ts.flatMap Token.text)).map token =
      lexemes.reverse.map token ++ ts.map Token.capped := by
  induction ts generalizing offset lexemes with
  | nil => simp [cut]
  | cons t ts ih =>
    obtain ⟨ht, hts⟩ := List.forall_mem_cons.mp hts
    obtain ⟨c, cs, htext, hfirst⟩ := Token.first_text ht (Token.clear_texts hts)
    rw [List.flatMap_cons, htext, List.cons_append, cut, hfirst]
    dsimp only
    rw [Token.isFlaw_capped ht, if_neg Bool.false_ne_true, cut_append, ih hts]
    simp

end Lexeme

end RegexEngine

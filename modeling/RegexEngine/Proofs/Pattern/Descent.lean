import RegexEngine.Proofs.Pattern.Extent
import RegexEngine.Proofs.Pattern.Spelling

/-!
# Reading patterns by recursive descent

A pattern is a row of alternatives, an alternative is a row of terms, and a term may be a group
that holds alternatives in turn.  The procedures for these call one another, and each of them
moves a cursor over the text.  They read what the reader of the tokens reads.

* `Cursor`, `Cursor.Reaches` — a place in the text, and the places behind it.
* `Descent.term_reaches` — **each term moves the cursor**, on which the recursion of `alternative`
  rests.
* `Descent.alternative`, `Descent.disjunction`, `Descent.enclosed` — the procedures; a group may be
  opened as long as there is room for one.
* `Descent.disjunction_rule` — what every term and every bar keeps holds where alternatives end.
* `parse_eq_descend` — **the recursive descent reads every text as `parse` does.**
-/

namespace RegexEngine

/-! ### Cursors -/

/-- A place in a text: what stands before it is known by its length, and by the number of capture
groups that it opens. -/
structure Cursor where
  offset : Nat
  rest : List Char
  count : Nat

namespace Cursor

variable {cur cur' cur'' : Cursor} {n : Nat}

/-- Pass over `n` characters. -/
def advance (n : Nat) (cur : Cursor) : Cursor :=
  { cur with offset := cur.offset + n, rest := cur.rest.drop n }

/-- Count a group that has been opened, if it captures. -/
def enter (kind : GroupKind) (cur : Cursor) : Cursor :=
  { cur with count := if kind = .capture then cur.count + 1 else cur.count }

/-- Whether a term begins here, and not the end of an alternative. -/
def atTerm (cur : Cursor) : Bool :=
  cur.rest.head?.any fun c => c != '|' && c != ')'

/-- The second cursor is a place behind the first one in the same text, or the same place. -/
def Reaches (cur cur' : Cursor) : Prop :=
  ∃ n ≤ cur.rest.length, cur'.offset = cur.offset + n ∧ cur'.rest = cur.rest.drop n

theorem Reaches.refl (cur : Cursor) : cur.Reaches cur := ⟨0, Nat.zero_le _, rfl, rfl⟩

theorem reaches_advance (h : n ≤ cur.rest.length) : cur.Reaches (cur.advance n) := ⟨n, h, rfl, rfl⟩

theorem reaches_of_head? {c : Char} (h : cur.rest.head? = some c) :
    cur.Reaches (cur.advance 1) := by
  obtain ⟨s, hs⟩ := List.head?_eq_some_iff.mp h
  refine reaches_advance ?_
  rw [hs]
  exact Nat.le_add_left _ _

theorem Reaches.trans (h : cur.Reaches cur') (h' : cur'.Reaches cur'') : cur.Reaches cur'' := by
  obtain ⟨n, hn, hoffset, hrest⟩ := h
  obtain ⟨k, hk, hoffset', hrest'⟩ := h'
  rw [hrest, List.length_drop] at hk
  refine ⟨n + k, by omega, by omega, ?_⟩
  rw [hrest', hrest, List.drop_drop]

/-- A cursor that has moved has less of the text before it. -/
theorem Reaches.length_lt (h : cur.Reaches cur') (hlt : cur.offset < cur'.offset) :
    cur'.rest.length < cur.rest.length := by
  obtain ⟨n, hn, hoffset, hrest⟩ := h
  rw [hrest, List.length_drop]
  omega

theorem Reaches.length_le (h : cur.Reaches cur') : cur'.rest.length ≤ cur.rest.length := by
  obtain ⟨n, hn, hoffset, hrest⟩ := h
  rw [hrest, List.length_drop]
  omega

theorem length_lt_of_head? {c : Char} (h : cur.rest.head? = some c) :
    (cur.advance 1).rest.length < cur.rest.length :=
  (reaches_of_head? h).length_lt (Nat.lt_succ_self _)

theorem Reaches.offset_le (h : cur.Reaches cur') : cur.offset ≤ cur'.offset := by
  obtain ⟨n, -, hoffset, -⟩ := h
  omega

/-- The end of the text stays where it is. -/
theorem Reaches.stop_eq (h : cur.Reaches cur') :
    cur'.offset + cur'.rest.length = cur.offset + cur.rest.length := by
  obtain ⟨n, hn, hoffset, hrest⟩ := h
  rw [hoffset, hrest, List.length_drop]
  omega

theorem ne_of_atTerm {c : Char} {s : List Char} (h : cur.atTerm = true)
    (hrest : cur.rest = c :: s) :
    c ≠ '|' ∧ c ≠ ')' := by
  rw [atTerm, hrest] at h
  simpa using h

theorem head?_of_atTerm (h : cur.atTerm = false) :
    cur.rest = [] ∨ cur.rest.head? = some '|' ∨ cur.rest.head? = some ')' := by
  rw [atTerm] at h
  cases hrest : cur.rest with
  | nil => exact Or.inl rfl
  | cons c s =>
    rw [hrest] at h
    simpa [or_iff_not_imp_left] using h

end Cursor

/-! ### Groups and quantifiers -/

/-- A procedure that reads the body of a group, and moves the cursor to its end. -/
structure BodyReader where
  read : Cursor → Except FlawAt (Node × Cursor)
  reaches : ∀ {cur body cur'}, read cur = .ok (body, cur') → cur.Reaches cur'

/-- The tree of a group with a given body. -/
def GroupKind.node (kind : GroupKind) (index : Nat) (body : Node) : Node :=
  match kind with
  | .capture => .group index body
  | .plain => body
  | .look negated => .look negated body

namespace Descent

variable (groups : Nat) (multiline : Bool) (inner : Option BodyReader)

/-- Read a group.  Its parenthesis stands at `opening`, and the cursor stands behind what names its
kind.  There may be no room for another group. -/
def group (kind : Option GroupKind) (opening : Nat) (cur : Cursor) :
    Except FlawAt (Node × Cursor) :=
  match inner, kind with
  | none, _ => .error ⟨opening + 1, .tooDeep⟩
  | some _, none => .error ⟨opening, .invalidGroup⟩
  | some inner, some kind => do
    let (body, cur') ← inner.read (cur.enter kind)
    if cur'.rest.head? = some ')' then .ok (kind.node (cur.enter kind).count body, cur'.advance 1)
    else .error ⟨opening, .missingClose⟩

/-- Append an item, with the quantifier that follows it if there is one. -/
def quantified (n : Node) (b : Branches) (cur : Cursor) : Except FlawAt (Branches × Cursor) :=
  match cur.rest with
  | [] => .ok (b.push n, cur)
  | c :: s =>
    match Token.first groups c s with
    | (.quantifier lower upper greedy, k) =>
      .ok (b.push (.rep lower upper greedy n), cur.advance (k + 1))
    | (.flaw ahead .boundsOutOfOrder, _) => .error ⟨cur.offset + ahead, .boundsOutOfOrder⟩
    | _ => .ok (b.push n, cur)

/-- Read a term and append it.  At the end of an alternative nothing is read. -/
def term (b : Branches) (cur : Cursor) : Except FlawAt (Branches × Cursor) :=
  match cur.rest with
  | [] => .ok (b, cur)
  | c :: s =>
    let (token, k) := Token.first groups c s
    let next := cur.advance (k + 1)
    match token with
    | .atom n => quantified groups n b next
    | .surrogates lead trail => quantified groups (.unit trail) (b.push (.unit lead)) next
    | .caret => .ok (b.push (.anchor (if multiline then .lineStart else .inputStart)), next)
    | .dollar => .ok (b.push (.anchor (if multiline then .lineEnd else .inputEnd)), next)
    | .boundary negated =>
      .ok (b.push (.anchor (if negated then .notWordBoundary else .wordBoundary)), next)
    | .quantifier .. => .error ⟨cur.offset, .nothingToRepeat⟩
    | .opening kind => do
      let (n, cur') ← group inner kind cur.offset next
      quantified groups n b cur'
    | .closing => .error ⟨cur.offset, .unmatchedClose⟩
    | .bar => .ok (b, cur)
    | .flaw ahead f => .error ⟨cur.offset + ahead, f⟩

variable {groups multiline inner} {b b' : Branches} {cur cur' : Cursor} {n : Node}

theorem quantified_reaches (h : quantified groups n b cur = .ok (b', cur')) :
    cur.Reaches cur' := by
  unfold quantified at h
  split at h
  · cases h
    exact .refl _
  · next c s hrest =>
    split at h
    · next k hfirst =>
      cases h
      have hk := (Token.within_first groups c s).length
      rw [hfirst] at hk
      refine Cursor.reaches_advance ?_
      rw [hrest]
      exact Nat.succ_le_succ hk
    · cases h
    · cases h
      exact .refl _

theorem group_reaches {kind : Option GroupKind} {opening : Nat}
    (h : group inner kind opening cur = .ok (n, cur')) : cur.Reaches cur' := by
  unfold group at h
  split at h
  · cases h
  · cases h
  · next inner kind =>
    cases hbody : inner.read (cur.enter kind) with
    | error f =>
      rw [hbody] at h
      cases h
    | ok x =>
      obtain ⟨body, cur₁⟩ := x
      rw [hbody] at h
      simp only [bind, Except.bind] at h
      split_ifs at h with hclose
      cases h
      have hreaches : (cur.enter kind).Reaches cur₁ := inner.reaches hbody
      exact Cursor.Reaches.trans hreaches (Cursor.reaches_of_head? hclose)

/-- **A term moves the cursor on**, and not beyond the end of the text. -/
theorem term_reaches (hat : cur.atTerm = true)
    (h : term groups multiline inner b cur = .ok (b', cur')) :
    cur.Reaches cur' ∧ cur.offset < cur'.offset := by
  unfold term at h
  split at h
  · next hrest =>
    rw [Cursor.atTerm, hrest] at hat
    exact Bool.noConfusion hat
  · next c s hrest =>
    have hk := (Token.within_first groups c s).length
    rcases hfirst : Token.first groups c s with ⟨token, k⟩
    rw [hfirst] at h hk
    -- at least the first character of the term is passed over
    have hnext : cur.Reaches (cur.advance (k + 1)) := by
      refine Cursor.reaches_advance ?_
      rw [hrest]
      exact Nat.succ_le_succ hk
    have hbehind : (cur.advance (k + 1)).Reaches cur' →
        cur.Reaches cur' ∧ cur.offset < cur'.offset := by
      intro hreaches
      refine ⟨hnext.trans hreaches, ?_⟩
      have := hreaches.offset_le
      simp only [Cursor.advance] at this
      omega
    dsimp only at h
    cases token with
    | atom n => exact hbehind (quantified_reaches h)
    | surrogates lead trail => exact hbehind (quantified_reaches h)
    | caret | dollar | boundary negated =>
      cases h
      exact hbehind (.refl _)
    | quantifier | closing | flaw => cases h
    | bar =>
      exact absurd (Token.char_of_sign (by rw [hfirst]; rfl)) (Cursor.ne_of_atTerm hat hrest).1
    | opening kind =>
      dsimp only at h
      cases hgroup : group inner kind cur.offset (cur.advance (k + 1)) with
      | error f =>
        rw [hgroup] at h
        cases h
      | ok x =>
        obtain ⟨n, cur₁⟩ := x
        rw [hgroup] at h
        exact hbehind ((group_reaches hgroup).trans (quantified_reaches h))

/-! ### Alternatives -/

variable (groups multiline inner) in
/-- Read terms up to the end of an alternative. -/
def alternative (b : Branches) (cur : Cursor) : Except FlawAt (Branches × Cursor) :=
  if hat : cur.atTerm = true then
    match h : term groups multiline inner b cur with
    | .error f => .error f
    | .ok (b', cur') =>
      have : cur'.rest.length < cur.rest.length :=
        (term_reaches hat h).1.length_lt (term_reaches hat h).2
      alternative b' cur'
  else .ok (b, cur)
termination_by cur.rest.length

/-- What every term keeps holds at the end of an alternative, or in front of the term that has a
flaw. -/
theorem alternative_rule (inv : Branches → Cursor → Prop)
    (hterm : ∀ b cur b' cur', inv b cur → cur.atTerm = true →
      term groups multiline inner b cur = .ok (b', cur') → inv b' cur') (h : inv b cur) :
    (∃ f b' cur', alternative groups multiline inner b cur = .error f ∧ inv b' cur' ∧
      cur'.atTerm = true ∧ term groups multiline inner b' cur' = .error f) ∨
    ∃ b' cur', alternative groups multiline inner b cur = .ok (b', cur') ∧ inv b' cur' ∧
      cur'.atTerm = false := by
  fun_induction alternative groups multiline inner b cur with
  | case1 b cur hat f hflaw => exact Or.inl ⟨f, b, cur, rfl, h, hat, hflaw⟩
  | case2 b cur hat b' cur' hread _ ih => exact ih (hterm _ _ _ _ h hat hread)
  | case3 b cur hat => exact Or.inr ⟨b, cur, rfl, h, by simpa using hat⟩

theorem alternative_reaches (h : alternative groups multiline inner b cur = .ok (b', cur')) :
    cur.Reaches cur' := by
  rcases alternative_rule (fun _ c => cur.Reaches c)
    (fun _ _ _ _ hreaches hat hread => hreaches.trans (term_reaches hat hread).1)
    (Cursor.Reaches.refl cur) with ⟨f, _, _, hflaw, -⟩ | ⟨b₁, cur₁, hok, hreaches, -⟩
  · rw [hflaw] at h
    cases h
  · rw [hok] at h
    cases h
    exact hreaches

variable (groups multiline inner) in
/-- Read alternatives up to the end of a group or of the text. -/
def disjunction (b : Branches) (cur : Cursor) : Except FlawAt (Node × Cursor) :=
  match h : alternative groups multiline inner b cur with
  | .error f => .error f
  | .ok (b', cur') =>
    if hbar : cur'.rest.head? = some '|' then
      have : (cur'.advance 1).rest.length < cur.rest.length :=
        Nat.lt_of_lt_of_le (Cursor.length_lt_of_head? hbar) (alternative_reaches h).length_le
      disjunction b'.next (cur'.advance 1)
    else .ok (b'.node, cur')
termination_by cur.rest.length

/-- **What every term and every bar keeps holds where alternatives end**, or in front of the term
that has a flaw. -/
theorem disjunction_rule (inv : Branches → Cursor → Prop)
    (hterm : ∀ b cur b' cur', inv b cur → cur.atTerm = true →
      term groups multiline inner b cur = .ok (b', cur') → inv b' cur')
    (hbar : ∀ b cur, inv b cur → cur.rest.head? = some '|' → inv b.next (cur.advance 1))
    (h : inv b cur) :
    (∃ f b' cur', disjunction groups multiline inner b cur = .error f ∧ inv b' cur' ∧
      cur'.atTerm = true ∧ term groups multiline inner b' cur' = .error f) ∨
    ∃ b' cur', disjunction groups multiline inner b cur = .ok (b'.node, cur') ∧ inv b' cur' ∧
      (cur'.rest = [] ∨ cur'.rest.head? = some ')') := by
  fun_induction disjunction groups multiline inner b cur with
  | case1 b cur f hflaw =>
    rcases alternative_rule inv hterm h with ⟨g, b', cur', hg, hcur'⟩ | ⟨_, _, hok, -⟩
    · rw [hflaw] at hg
      cases hg
      exact Or.inl ⟨f, b', cur', rfl, hcur'⟩
    · rw [hflaw] at hok
      cases hok
  | case2 b cur b' cur' hread hhead _ ih =>
    rcases alternative_rule inv hterm h with ⟨_, _, _, hflaw, -⟩ | ⟨_, _, hok, hinv, -⟩
    · rw [hread] at hflaw
      cases hflaw
    · rw [hread] at hok
      cases hok
      exact ih (hbar _ _ hinv hhead)
  | case3 b cur b' cur' hread hhead =>
    rcases alternative_rule inv hterm h with ⟨_, _, _, hflaw, -⟩ | ⟨_, _, hok, hinv, hat⟩
    · rw [hread] at hflaw
      cases hflaw
    · rw [hread] at hok
      cases hok
      refine Or.inr ⟨b', cur', rfl, hinv, ?_⟩
      simpa [hhead] using Cursor.head?_of_atTerm hat

theorem disjunction_reaches (h : disjunction groups multiline inner b cur = .ok (n, cur')) :
    cur.Reaches cur' := by
  rcases disjunction_rule (fun _ c => cur.Reaches c)
    (fun _ _ _ _ hreaches hat hread => hreaches.trans (term_reaches hat hread).1)
    (fun _ _ hreaches hhead => hreaches.trans (Cursor.reaches_of_head? hhead))
    (Cursor.Reaches.refl cur) with ⟨f, _, _, hflaw, -⟩ | ⟨b₁, cur₁, hok, hreaches, -⟩
  · rw [hflaw] at h
    cases h
  · rw [hok] at h
    cases h
    exact hreaches

/-! ### Whole patterns -/

variable (groups multiline)

/-- Read the body of a group, or of the pattern as a whole. -/
def body (inner : Option BodyReader) : BodyReader where
  read := disjunction groups multiline inner {}
  reaches := disjunction_reaches

/-- What reads the bodies of groups, where so many groups may still be opened one inside the
other. -/
def enclosed : Nat → Option BodyReader
  | 0 => none
  | room + 1 => some (body groups multiline (enclosed room))

variable {groups multiline} in
/-- What holds of the reader of a body as soon as it holds of the readers of the groups inside holds
of every such reader. -/
theorem body_induction {P : Nat → BodyReader → Prop}
    (h : ∀ room, (∀ i ∈ enclosed groups multiline room, ∃ r, room = r + 1 ∧ P r i) →
      P room (body groups multiline (enclosed groups multiline room))) (room : Nat) :
    P room (body groups multiline (enclosed groups multiline room)) := by
  induction room with
  | zero => exact h 0 (by simp [enclosed])
  | succ room ih =>
    refine h (room + 1) fun i hi => ?_
    cases hi
    exact ⟨room, rfl, ih⟩

/-- What reads the alternatives of a whole pattern. -/
def whole (source : String) (flags : Flags) : BodyReader :=
  body (countGroups false 0 source.toList) flags.multiline
    (enclosed (countGroups false 0 source.toList) flags.multiline Reader.maxDepth)

/-- Read a pattern: alternatives that end where the text does. -/
def descend (source : String) (flags : Flags) : Except FlawAt Pattern := do
  let (root, cur) ← (whole source flags).read ⟨0, source.toList, 0⟩
  if cur.rest = [] then .ok ⟨root, cur.count⟩ else .error ⟨cur.offset, .unmatchedClose⟩

end Descent

/-! ### The reader of the tokens -/

namespace Lexeme

variable {groups : Nat}

theorem cut_reverse (offset skip : Nat) (lexemes : List Lexeme) (s : List Char) :
    cut groups offset skip lexemes s = lexemes.reverse ++ cut groups offset skip [] s := by
  induction s generalizing offset skip lexemes with
  | nil => simp [cut]
  | cons c s ih =>
    cases skip with
    | succ skip => exact ih _ _ _
    | zero =>
      rw [cut, cut]
      dsimp only
      split_ifs
      · simp
      · rw [ih, ih _ _ [_]]
        simp

theorem cut_skip {s : List Char} {n : Nat} (h : n ≤ s.length) (offset : Nat)
    (lexemes : List Lexeme) :
    cut groups offset n lexemes s = cut groups (offset + n) 0 lexemes (s.drop n) := by
  have hcut : cut groups offset (s.take n).length lexemes (s.take n ++ s.drop n) = _ :=
    cut_append (s.take n) (s.drop n) offset lexemes
  rwa [List.take_append_drop, List.length_take_of_le h] at hcut

end Lexeme

namespace Reader

variable (groups : Nat) (multiline : Bool)

/-- Read from the cursor to the end of the text, token by token. -/
def readOn (r : Reader) (cur : Cursor) : Except FlawAt Pattern := do
  let r ← (Lexeme.cut groups cur.offset 0 [] cur.rest).foldlM (step multiline) r
  r.finish

variable {groups multiline} {r : Reader} {cur : Cursor} {c : Char} {s : List Char}

theorem readOn_nil (hrest : cur.rest = []) : r.readOn groups multiline cur = r.finish := by
  rw [readOn, hrest]
  rfl

theorem readOn_flaw {ahead k : Nat} {f : Flaw} (hrest : cur.rest = c :: s)
    (hfirst : Token.first groups c s = (.flaw ahead f, k)) :
    r.readOn groups multiline cur = .error ⟨cur.offset + ahead, f⟩ := by
  rw [readOn, hrest, Lexeme.cut, hfirst]
  rfl

theorem readOn_token {t : Token} {k : Nat} (hrest : cur.rest = c :: s)
    (hfirst : Token.first groups c s = (t, k)) (ht : t.isFlaw = false) :
    r.readOn groups multiline cur =
      r.step multiline ⟨cur.offset, t⟩ >>= fun r =>
        r.readOn groups multiline (cur.advance (k + 1)) := by
  have hk := (Token.within_first groups c s).length
  rw [hfirst] at hk
  rw [readOn, hrest, Lexeme.cut, hfirst]
  dsimp only
  rw [if_neg (by simp [ht]), Lexeme.cut_reverse, Lexeme.cut_skip hk, List.reverse_singleton,
    List.singleton_append, List.foldlM_cons, bind_assoc]
  simp only [readOn, Cursor.advance, hrest, List.drop_succ_cons]
  rw [Nat.add_assoc, Nat.add_comm 1 k]

theorem settle_settle (r : Reader) : r.settle.settle = r.settle := by
  rw [settle, pending_settle]

theorem finish_settle (r : Reader) : r.settle.finish = r.finish := by
  rw [finish, finish, settle_settle, groups_settle, count_settle]

/-- Every token but a quantifier fixes the last item first. -/
theorem step_settle {l : Lexeme}
    (hl : ∀ lower upper greedy, l.token ≠ .quantifier lower upper greedy) :
    r.settle.step multiline l = r.step multiline l := by
  rcases l with ⟨offset, token⟩
  cases token with
  | quantifier lower upper greedy => exact absurd rfl (hl lower upper greedy)
  | _ => simp [step, hold, append, openGroup, settle_settle]

theorem readOn_settle (h : ∀ c s, cur.rest = c :: s → ∀ lower upper greedy,
      (Token.first groups c s).1 ≠ .quantifier lower upper greedy) :
    r.settle.readOn groups multiline cur = r.readOn groups multiline cur := by
  cases hrest : cur.rest with
  | nil =>
    rw [readOn_nil hrest, readOn_nil hrest, finish_settle]
  | cons c s =>
    rcases hfirst : Token.first groups c s with ⟨t, k⟩
    cases ht : t.isFlaw with
    | false =>
      rw [readOn_token hrest hfirst ht, readOn_token hrest hfirst ht, step_settle]
      intro lower upper greedy htoken
      exact h c s hrest lower upper greedy (by rw [hfirst]; exact htoken)
    | true =>
      cases t with
      | flaw ahead f => rw [readOn_flaw hrest hfirst, readOn_flaw hrest hfirst]
      | _ => exact Bool.noConfusion ht

end Reader

namespace Descent

variable {groups : Nat} {multiline : Bool} {gs : List OpenGroup} {b : Branches} {cur : Cursor}
  {n : Node}

variable (groups multiline) in
/-- Read on in the group that was opened last, with all of its items fixed. -/
def resume (gs : List OpenGroup) (b : Branches) (cur : Cursor) : Except FlawAt Pattern :=
  (Reader.mk b none gs cur.count).readOn groups multiline cur

variable (groups multiline) in
/-- Close the group that was opened last and read on, or end the pattern. -/
def leave (gs : List OpenGroup) (body : Node) (cur : Cursor) : Except FlawAt Pattern :=
  match gs with
  | [] =>
    if cur.rest = [] then .ok ⟨body, cur.count⟩ else .error ⟨cur.offset, .unmatchedClose⟩
  | g :: gs =>
    if cur.rest.head? = some ')' then
      (Reader.mk g.around (some (g.node body)) gs cur.count).readOn groups multiline (cur.advance 1)
    else .error ⟨g.offset, .missingClose⟩

/-- Where alternatives end, the reader of the tokens closes the group. -/
theorem resume_eq_leave (h : cur.rest = [] ∨ cur.rest.head? = some ')') :
    resume groups multiline gs b cur = leave groups multiline gs b.node cur := by
  rcases h with hrest | hhead
  · rw [resume, Reader.readOn_nil hrest]
    cases gs <;> simp [leave, Reader.finish, Reader.settle, hrest]
  · obtain ⟨s, hrest⟩ := List.head?_eq_some_iff.mp hhead
    rw [resume, Reader.readOn_token (t := .closing) (k := 0) hrest rfl rfl]
    cases gs with
    | nil =>
      rw [leave, if_neg (by simp [hrest])]
      rfl
    | cons g gs =>
      rw [leave, if_pos hhead]
      rfl

/-- With an item that may be repeated the reader of the tokens goes on at its quantifier. -/
theorem readOn_quantified :
    (Reader.mk b (some n) gs cur.count).readOn groups multiline cur =
      quantified groups n b cur >>= fun x => resume groups multiline gs x.1 x.2 := by
  have hsettle : (∀ c s, cur.rest = c :: s → ∀ lower upper greedy,
      (Token.first groups c s).1 ≠ .quantifier lower upper greedy) →
      (Reader.mk b (some n) gs cur.count).readOn groups multiline cur =
        resume groups multiline gs (b.push n) cur := fun h => (Reader.readOn_settle h).symm
  unfold quantified
  split
  · next hrest => exact hsettle (by simp [hrest])
  · next c s hrest =>
    split
    · next lower upper greedy k hfirst =>
      rw [Reader.readOn_token hrest hfirst rfl]
      rfl
    · next ahead k hfirst =>
      rw [Reader.readOn_flaw hrest hfirst]
      rfl
    · next hnot _ =>
      refine hsettle fun c' s' hrest' lower upper greedy htoken => ?_
      rw [hrest] at hrest'
      cases hrest'
      exact hnot lower upper greedy _ (Prod.ext htoken rfl)

variable {inner : Option BodyReader}

/-- A group is read alike, if its body is. -/
theorem readOn_group {kind : Option GroupKind} {k : Nat} {s : List Char} {c : Char}
    (hroom : inner = none ↔ Reader.maxDepth ≤ gs.length)
    (hinner : ∀ i ∈ inner, ∀ g cur, resume groups multiline (g :: gs) {} cur =
      i.read cur >>= fun x => leave groups multiline (g :: gs) x.1 x.2)
    (hrest : cur.rest = c :: s) (hfirst : Token.first groups c s = (.opening kind, k)) :
    resume groups multiline gs b cur =
      group inner kind cur.offset (cur.advance (k + 1)) >>= fun x =>
        (Reader.mk b (some x.1) gs x.2.count).readOn groups multiline x.2 := by
  rw [resume, Reader.readOn_token hrest hfirst rfl]
  cases inner with
  | none =>
    rw [Reader.step]
    dsimp only
    rw [if_pos (hroom.mp rfl)]
    rfl
  | some i =>
    have hopen : ¬ Reader.maxDepth ≤ gs.length := fun h => nomatch hroom.mpr h
    rw [Reader.step]
    dsimp only
    rw [if_neg hopen]
    cases kind with
    | none => rfl
    | some kind =>
      let next := (cur.advance (k + 1)).enter kind
      let g : OpenGroup := ⟨kind, next.count, cur.offset, b⟩
      have hbody := hinner i rfl g next
      have hnode : ∀ body, g.node body = kind.node next.count body := fun body => by
        cases kind <;> rfl
      have hresume : resume groups multiline (g :: gs) {} next = (Reader.openGroup
          ⟨b, none, gs, cur.count⟩ kind cur.offset).readOn groups multiline (cur.advance (k + 1)) :=
        rfl
      show (Reader.openGroup _ _ _).readOn _ _ _ = _
      rw [← hresume, hbody, group]
      show i.read next >>= _ = i.read next >>= _ >>= _
      cases i.read next with
      | error f => rfl
      | ok x =>
        obtain ⟨body, cur'⟩ := x
        simp only [bind, Except.bind, leave, hnode]
        split_ifs <;> rfl

/-- **A term is read alike**, if the bodies of groups are. -/
theorem resume_term (hroom : inner = none ↔ Reader.maxDepth ≤ gs.length)
    (hinner : ∀ i ∈ inner, ∀ g cur, resume groups multiline (g :: gs) {} cur =
      i.read cur >>= fun x => leave groups multiline (g :: gs) x.1 x.2)
    (hat : cur.atTerm = true) :
    resume groups multiline gs b cur =
      term groups multiline inner b cur >>= fun x => resume groups multiline gs x.1 x.2 := by
  cases hrest : cur.rest with
  | nil =>
    rw [Cursor.atTerm, hrest] at hat
    exact Bool.noConfusion hat
  | cons c s =>
    rcases hfirst : Token.first groups c s with ⟨token, k⟩
    rw [term, hrest]
    dsimp only
    rw [hfirst]
    dsimp only
    cases token with
    | atom n =>
      rw [← readOn_quantified, resume, Reader.readOn_token hrest hfirst rfl]
      rfl
    | surrogates lead trail =>
      rw [← readOn_quantified, resume, Reader.readOn_token hrest hfirst rfl]
      rfl
    | caret | dollar | boundary negated =>
      rw [resume, Reader.readOn_token hrest hfirst rfl]
      rfl
    | quantifier lower upper greedy =>
      rw [resume, Reader.readOn_token hrest hfirst rfl]
      rfl
    | opening kind =>
      rw [readOn_group hroom hinner hrest hfirst]
      dsimp only
      cases group inner kind cur.offset (cur.advance (k + 1)) with
      | error f => rfl
      | ok x => exact readOn_quantified
    | closing =>
      exact absurd (Token.char_of_sign (by rw [hfirst]; rfl)) (Cursor.ne_of_atTerm hat hrest).2
    | bar =>
      exact absurd (Token.char_of_sign (by rw [hfirst]; rfl)) (Cursor.ne_of_atTerm hat hrest).1
    | flaw ahead f =>
      rw [resume, Reader.readOn_flaw hrest hfirst]
      rfl

/-- Alternatives are read alike, if terms are. -/
theorem resume_disjunction
    (hterm : ∀ b cur, cur.atTerm = true → resume groups multiline gs b cur =
      term groups multiline inner b cur >>= fun x => resume groups multiline gs x.1 x.2)
    (b : Branches) (cur : Cursor) :
    resume groups multiline gs b cur =
      disjunction groups multiline inner b cur >>= fun x => leave groups multiline gs x.1 x.2 := by
  -- what is still to come stays the same from term to term
  let same : Branches → Cursor → Prop := fun b' cur' =>
    resume groups multiline gs b cur = resume groups multiline gs b' cur'
  have hterms : ∀ b₁ cur₁ b₂ cur₂, same b₁ cur₁ → cur₁.atTerm = true →
      term groups multiline inner b₁ cur₁ = .ok (b₂, cur₂) → same b₂ cur₂ := by
    intro b₁ cur₁ b₂ cur₂ hsame hat hread
    refine Eq.trans hsame ?_
    rw [hterm b₁ cur₁ hat, hread]
    rfl
  have hbars : ∀ b₁ cur₁, same b₁ cur₁ → cur₁.rest.head? = some '|' →
      same b₁.next (cur₁.advance 1) := by
    intro b₁ cur₁ hsame hhead
    obtain ⟨s, hrest⟩ := List.head?_eq_some_iff.mp hhead
    refine Eq.trans hsame ?_
    rw [resume, Reader.readOn_token (t := .bar) (k := 0) hrest rfl rfl]
    rfl
  rcases disjunction_rule same hterms hbars rfl with ⟨f, b', cur', hflaw, hsame, hat, hterm'⟩ |
    ⟨b', cur', hok, hsame, hend⟩
  · rw [hflaw, hsame, hterm b' cur' hat, hterm']
    rfl
  · rw [hok, hsame, resume_eq_leave hend]
    rfl

/-- **Bodies of groups are read alike**, wherever they stand. -/
theorem resume_body {room : Nat} (hgs : gs.length + room = Reader.maxDepth) (cur : Cursor) :
    resume groups multiline gs {} cur =
      (body groups multiline (enclosed groups multiline room)).read cur >>= fun x =>
        leave groups multiline gs x.1 x.2 := by
  induction room generalizing gs cur with
  | zero =>
    refine resume_disjunction (fun b cur hat => resume_term ?_ ?_ hat) {} cur
    · exact iff_of_true rfl (Nat.le_of_eq hgs.symm)
    · simp [enclosed]
  | succ room ih =>
    refine resume_disjunction (fun b cur hat => resume_term ?_ ?_ hat) {} cur
    · exact iff_of_false (by simp [enclosed]) (by omega)
    · intro i hi g cur
      cases hi
      refine ih ?_ cur
      rw [List.length_cons]
      omega

end Descent

/-- **The recursive descent reads every text as the reader of its tokens does.** -/
theorem parse_eq_descend (source : String) (flags : Flags) :
    parse source flags = Descent.descend source flags := by
  have hbody : Descent.resume (countGroups false 0 source.toList) flags.multiline [] {}
      ⟨0, source.toList, 0⟩ = _ := Descent.resume_body (Nat.zero_add Reader.maxDepth) _
  exact hbody

end RegexEngine

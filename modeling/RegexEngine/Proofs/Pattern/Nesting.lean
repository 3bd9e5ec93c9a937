import RegexEngine.Proofs.Pattern.Descent

/-!
# Progress and depth of reading

Reading a pattern ends, since every term moves the cursor on.  It fails inside of the text, or it
succeeds at the end of the text; and since only so many groups may be open at once, the tree that
it makes of the text is not high.

* `Descent.offset_le_of_body` — a flaw shows within the text.
* `nesting`, `Descent.nesting_body` — how deep the groups of a text nest, and how deep they may.
* `Node.height`, `Descent.height_body` — how high a tree is, and how high it may become.
* `parse_progress` — **reading makes progress, reads all of the text and bounds its nesting.**
-/

namespace RegexEngine

namespace Descent

variable {groups : Nat} {multiline : Bool} {inner : Option BodyReader} {room : Nat}
  {b b' : Branches} {cur cur' : Cursor} {n : Node} {f : FlawAt}

/-! ### Places of flaws -/

theorem offset_le_of_quantified (h : quantified groups n b cur = .error f) :
    f.offset ≤ cur.offset + cur.rest.length := by
  unfold quantified at h
  split at h
  · cases h
  · next c s hrest =>
    split at h
    · cases h
    · next ahead k hfirst =>
      cases h
      have := (Token.within_first groups c s).flaw ahead .boundsOutOfOrder (by rw [hfirst])
      rw [hrest, List.length_cons]
      dsimp only
      omega
    · cases h

theorem offset_le_of_group {kind : Option GroupKind} {opening : Nat}
    (hinner : ∀ i ∈ inner, ∀ cur f, i.read cur = .error f →
      f.offset ≤ cur.offset + cur.rest.length)
    (hopening : opening < cur.offset) (h : group inner kind opening cur = .error f) :
    f.offset ≤ cur.offset + cur.rest.length := by
  unfold group at h
  split at h
  · cases h
    dsimp only
    omega
  · cases h
    dsimp only
    omega
  · next i kind =>
    cases hbody : i.read (cur.enter kind) with
    | error g =>
      rw [hbody] at h
      cases h
      exact hinner i rfl (cur.enter kind) f hbody
    | ok x =>
      rw [hbody] at h
      simp only [bind, Except.bind] at h
      split_ifs at h
      cases h
      dsimp only
      omega

/-- A flaw of a term shows within the text. -/
theorem offset_le_of_term
    (hinner : ∀ i ∈ inner, ∀ cur f, i.read cur = .error f →
      f.offset ≤ cur.offset + cur.rest.length)
    (h : term groups multiline inner b cur = .error f) :
    f.offset ≤ cur.offset + cur.rest.length := by
  unfold term at h
  split at h
  · cases h
  · next c s hrest =>
    have hwithin := Token.within_first groups c s
    rcases hfirst : Token.first groups c s with ⟨token, k⟩
    rw [hfirst] at h hwithin
    have hk : k + 1 ≤ cur.rest.length := by
      rw [hrest]
      exact Nat.succ_le_succ hwithin.length
    have hstop := (Cursor.reaches_advance hk).stop_eq
    dsimp only at h
    cases token with
    | atom n | surrogates lead trail => exact hstop ▸ offset_le_of_quantified h
    | caret | dollar | boundary | bar => cases h
    | quantifier | closing =>
      cases h
      exact Nat.le_add_right _ _
    | flaw ahead f =>
      cases h
      have := hwithin.flaw ahead f rfl
      rw [hrest, List.length_cons]
      dsimp only
      omega
    | opening kind =>
      dsimp only at h
      cases hgroup : group inner kind cur.offset (cur.advance (k + 1)) with
      | error g =>
        rw [hgroup] at h
        cases h
        refine hstop ▸ offset_le_of_group hinner ?_ hgroup
        exact Nat.lt_add_of_pos_right (Nat.succ_pos k)
      | ok x =>
        rw [hgroup] at h
        have hle := offset_le_of_quantified h
        rw [(group_reaches hgroup).stop_eq] at hle
        exact hstop ▸ hle

/-- **A flaw of the body of a group shows within the text.** -/
theorem offset_le_of_body
    (h : (body groups multiline (enclosed groups multiline room)).read cur = .error f) :
    f.offset ≤ cur.offset + cur.rest.length := by
  refine body_induction (P := fun _ i => ∀ cur f, i.read cur = .error f →
    f.offset ≤ cur.offset + cur.rest.length) ?_ room cur f h
  intro room hinner cur f h
  have hreaders : ∀ i ∈ enclosed groups multiline room, ∀ cur f, i.read cur = .error f →
      f.offset ≤ cur.offset + cur.rest.length := by
    intro i hi
    obtain ⟨r, -, hr⟩ := hinner i hi
    exact hr
  rcases disjunction_rule (fun _ c => cur.Reaches c)
    (fun _ _ _ _ hreaches hat hread => hreaches.trans (term_reaches hat hread).1)
    (fun _ _ hreaches hhead => hreaches.trans (Cursor.reaches_of_head? hhead))
    (Cursor.Reaches.refl cur) with ⟨g, b', cur', hflaw, hreaches, -, hterm⟩ | ⟨_, _, hok, -⟩
  · rw [show disjunction _ _ _ _ _ = _ from h] at hflaw
    cases hflaw
    exact hreaches.stop_eq ▸ offset_le_of_term hreaders hterm
  · rw [show disjunction _ _ _ _ _ = _ from h] at hok
    cases hok

end Descent

/-! ### Nesting of groups -/

/-- How many groups are open at once in a text, at most, if `depth` are open at its beginning.  As
in the count of capture groups, parentheses inside of classes and behind backslashes are none. -/
def nesting (inClass : Bool) (depth : Nat) : List Char → Nat
  | [] => depth
  | '\\' :: [] => depth
  | '\\' :: _ :: s => nesting inClass depth s
  | '[' :: s => nesting true depth s
  | ']' :: s => nesting false depth s
  | '(' :: s => nesting inClass (if inClass then depth else depth + 1) s
  | ')' :: s =>
    if inClass then nesting inClass depth s else max depth (nesting inClass (depth - 1) s)
  | _ :: s => nesting inClass depth s

example : nesting false 0 "(a(?:[)(]|\\())".toList = 2 := by decide

theorem skims_nesting (depth : Nat) : Skims fun inClass s => nesting inClass depth s where
  cons := by
    rintro c ⟨h₁, h₂, h₃, h₄, h₅⟩ inClass s
    rw [nesting]
    · exact fun h _ => h₁ h
    · exact fun _ _ h _ => h₁ h
    · exact h₂
    · exact h₃
    · exact h₄
    · exact h₅
  escape := by simp [nesting]
  enter := by simp [nesting]
  leave := by simp [nesting]
  paren := by
    rintro c (rfl | rfl) s <;> simp [nesting]

theorem nesting_ofOpening (depth : Nat) (s : List Char) :
    nesting false depth ('(' :: s) =
      nesting false (depth + 1) (s.drop (Token.ofOpening s).2) := by
  unfold Token.ofOpening
  split <;> simp [nesting]

namespace Descent

variable {groups : Nat} {multiline : Bool} {inner : Option BodyReader} {room : Nat}
  {b b' : Branches} {cur cur' : Cursor} {n : Node}

/-- What is neither a parenthesis nor a bar changes no nesting. -/
theorem nesting_advance {c : Char} {s : List Char} {t : Token} {k : Nat} (hrest : cur.rest = c :: s)
    (hfirst : Token.first groups c s = (t, k)) (hsign : t.sign = none) (hbad : t.isBad = false)
    (depth : Nat) :
    nesting false depth cur.rest = nesting false depth (cur.advance (k + 1)).rest := by
  have hchar : ¬(c = '(' ∨ c = ')' ∨ c = '|') := by
    intro hc
    have hsome := Token.sign_first groups c s
    rw [if_pos hc, hfirst, hsign] at hsome
    cases hsome
  have hskip : nesting false depth (c :: s) =
      nesting false depth (s.drop (Token.first groups c s).2) :=
    (skims_nesting depth).first (fun h => hchar (Or.inl h)) (fun h => hchar (Or.inr (Or.inl h)))
      (by rw [hfirst]; exact hbad)
  rw [hfirst] at hskip
  rw [hrest, Cursor.advance, hrest]
  exact hskip

theorem nesting_quantified (h : quantified groups n b cur = .ok (b', cur')) (depth : Nat) :
    nesting false depth cur.rest = nesting false depth cur'.rest := by
  unfold quantified at h
  split at h
  · cases h
    rfl
  · next c s hrest =>
    split at h
    · next hfirst =>
      cases h
      exact nesting_advance hrest hfirst rfl rfl depth
    · cases h
    · cases h
      rfl

/-- A group nests by one level deeper than its body. -/
theorem nesting_group {kind : Option GroupKind} {k : Nat} {s : List Char}
    (hinner : ∀ i ∈ inner, ∃ r, room = r + 1 ∧ ∀ cur n cur', i.read cur = .ok (n, cur') →
      ∀ depth, nesting false depth cur.rest ≤ max (depth + r) (nesting false depth cur'.rest))
    (hrest : cur.rest = '(' :: s) (hfirst : Token.ofOpening s = (.opening kind, k))
    (h : group inner kind cur.offset (cur.advance (k + 1)) = .ok (n, cur')) (depth : Nat) :
    nesting false depth cur.rest ≤ max (depth + room) (nesting false depth cur'.rest) := by
  unfold group at h
  split at h
  · cases h
  · cases h
  · next i kind =>
    obtain ⟨r, rfl, hi⟩ := hinner i rfl
    cases hbody : i.read ((cur.advance (k + 1)).enter kind) with
    | error f =>
      rw [hbody] at h
      cases h
    | ok x =>
      obtain ⟨body, cur₁⟩ := x
      rw [hbody] at h
      simp only [bind, Except.bind] at h
      split_ifs at h with hclose
      cases h
      obtain ⟨u, hu⟩ := List.head?_eq_some_iff.mp hclose
      have hbehind : ((cur.advance (k + 1)).enter kind).rest = s.drop k := by
        simp [Cursor.enter, Cursor.advance, hrest]
      -- inside of the group one more is open than around it
      have hinside := hi _ _ _ hbody (depth + 1)
      have houtside : nesting false (depth + 1) (')' :: u) =
          max (depth + 1) (nesting false depth u) := by simp [nesting]
      rw [hbehind, hu, houtside] at hinside
      have hopen := nesting_ofOpening depth s
      rw [hfirst] at hopen
      rw [hrest, hopen, Cursor.advance, hu]
      dsimp only at hinside ⊢
      rw [List.drop_succ_cons, List.drop_zero]
      omega

/-- A term nests no deeper than there is room. -/
theorem nesting_term
    (hinner : ∀ i ∈ inner, ∃ r, room = r + 1 ∧ ∀ cur n cur', i.read cur = .ok (n, cur') →
      ∀ depth, nesting false depth cur.rest ≤ max (depth + r) (nesting false depth cur'.rest))
    (h : term groups multiline inner b cur = .ok (b', cur')) (depth : Nat) :
    nesting false depth cur.rest ≤ max (depth + room) (nesting false depth cur'.rest) := by
  unfold term at h
  split at h
  · cases h
    exact Nat.le_max_right _ _
  · next c s hrest =>
    rcases hfirst : Token.first groups c s with ⟨token, k⟩
    rw [hfirst] at h
    dsimp only at h
    cases token with
    | atom n | surrogates lead trail =>
      rw [nesting_advance hrest hfirst rfl rfl, nesting_quantified h]
      exact Nat.le_max_right _ _
    | caret | dollar | boundary negated =>
      cases h
      rw [nesting_advance hrest hfirst rfl rfl]
      exact Nat.le_max_right _ _
    | bar =>
      cases h
      exact Nat.le_max_right _ _
    | quantifier | closing | flaw => cases h
    | opening kind =>
      have hc : c = '(' := Token.char_of_sign (by rw [hfirst]; rfl)
      subst hc
      dsimp only at h
      cases hgroup : group inner kind cur.offset (cur.advance (k + 1)) with
      | error f =>
        rw [hgroup] at h
        cases h
      | ok x =>
        obtain ⟨n, cur₁⟩ := x
        rw [hgroup] at h
        rw [← nesting_quantified h]
        exact nesting_group hinner hrest hfirst hgroup depth

/-- **A body of a group nests no deeper than there is room.** -/
theorem nesting_body
    (h : (body groups multiline (enclosed groups multiline room)).read cur = .ok (n, cur'))
    (depth : Nat) :
    nesting false depth cur.rest ≤ max (depth + room) (nesting false depth cur'.rest) := by
  refine body_induction (P := fun room i => ∀ cur n cur', i.read cur = .ok (n, cur') → ∀ depth,
    nesting false depth cur.rest ≤ max (depth + room) (nesting false depth cur'.rest))
    ?_ room cur n cur' h depth
  intro room hinner cur n cur' h depth
  rcases disjunction_rule (fun _ c =>
      nesting false depth cur.rest ≤ max (depth + room) (nesting false depth c.rest))
    (fun _ _ _ _ hle _ hread => by
      have := nesting_term hinner hread depth
      omega)
    (fun _ c hle hhead => by
      obtain ⟨s, hs⟩ := List.head?_eq_some_iff.mp hhead
      have hbar := (skims_nesting depth).cons (by decide : Neutral '|') false s
      rw [hs, hbar] at hle
      rwa [Cursor.advance, hs])
    (Nat.le_max_right _ _) with ⟨_, _, _, hflaw, -⟩ | ⟨_, _, hok, hle, -⟩
  · rw [show disjunction _ _ _ _ _ = _ from h] at hflaw
    cases hflaw
  · rw [show disjunction _ _ _ _ _ = _ from h] at hok
    cases hok
    exact hle

end Descent

/-! ### Heights of trees -/

namespace Node

mutual

/-- The height of a tree, which is one for a tree without parts. -/
def height : Node → Nat
  | group _ body | look _ body | rep _ _ _ body => body.height + 1
  | seq items | alt items => maxHeight items + 1
  | _ => 1

/-- The greatest height among trees. -/
def maxHeight : List Node → Nat
  | [] => 0
  | n :: ns => max n.height (maxHeight ns)

end

theorem maxHeight_le_iff {ns : List Node} {k : Nat} :
    maxHeight ns ≤ k ↔ ∀ n ∈ ns, n.height ≤ k := by
  induction ns with
  | nil => simp [maxHeight]
  | cons n ns ih => rw [maxHeight, Nat.max_le, ih, List.forall_mem_cons]

end Node

/-- A group adds one level to its body, or none. -/
theorem GroupKind.height_node_le (kind : GroupKind) (index : Nat) (body : Node) :
    (kind.node index body).height ≤ body.height + 1 := by
  cases kind with
  | plain => exact Nat.le_succ _
  | _ => exact Nat.le_refl _

namespace Branches

/-- The items are at most so high, and the finished alternatives at most by one higher. -/
structure Low (k : Nat) (b : Branches) : Prop where
  items : ∀ n ∈ b.items, n.height ≤ k
  finished : ∀ n ∈ b.finished, n.height ≤ k + 1

variable {k : Nat} {b : Branches} {n : Node}

theorem Low.push (h : b.Low k) (hn : n.height ≤ k) : (b.push n).Low k :=
  ⟨List.forall_mem_cons.mpr ⟨hn, h.items⟩, h.finished⟩

theorem Low.last (h : b.Low k) : b.last.height ≤ k + 1 := by
  have hitems := h.items
  unfold Branches.last
  split
  · exact Nat.le_add_left _ _
  · next n hn =>
    rw [hn] at hitems
    exact Nat.le_succ_of_le (hitems n List.mem_cons_self)
  · rw [Node.height]
    refine Nat.succ_le_succ (Node.maxHeight_le_iff.mpr fun n hn => hitems n ?_)
    simpa using hn

theorem Low.alternatives (h : b.Low k) : ∀ n ∈ b.last :: b.finished, n.height ≤ k + 1 :=
  List.forall_mem_cons.mpr ⟨h.last, h.finished⟩

theorem Low.next (h : b.Low k) : b.next.Low k := ⟨by simp [Branches.next], h.alternatives⟩

theorem Low.node (h : b.Low k) : b.node.height ≤ k + 2 := by
  unfold Branches.node
  split
  · exact Nat.le_succ_of_le h.last
  · rw [Node.height]
    refine Nat.succ_le_succ (Node.maxHeight_le_iff.mpr fun n hn => ?_)
    exact h.alternatives n (List.mem_reverse.mp hn)

end Branches

namespace Token

/-- An atom is a tree without parts. -/
def Leaf : Token → Prop
  | atom n => n.height = 1
  | _ => True

theorem leaf_ofBounds (lower : Nat) (upper : Option Nat) (s : List Char) :
    (ofBounds lower upper s).1.Leaf := by
  unfold ofBounds
  split <;> trivial

theorem leaf_ofBrace (s : List Char) : (ofBrace s).1.Leaf := by
  unfold ofBrace
  split
  · rfl
  · dsimp only
    split
    · exact leaf_ofBounds _ _ _
    · trivial

theorem leaf_ofClass (s : List Char) : (ofClass s).1.Leaf := by
  unfold ofClass
  dsimp only
  split
  · trivial
  · split
    · trivial
    · rfl

theorem leaf_ofEscape (groups : Nat) (c : Char) (s : List Char) :
    (ofEscape groups c s).1.Leaf := by
  unfold ofEscape
  split_ifs
  · trivial
  · trivial
  · split
    · rfl
    · dsimp only
      split_ifs <;> rfl

theorem leaf_first (groups : Nat) (c : Char) (s : List Char) : (first groups c s).1.Leaf := by
  unfold first
  split
  · trivial
  · trivial
  · trivial
  · trivial
  · unfold ofOpening
    split <;> trivial
  · exact leaf_ofBounds _ _ _
  · exact leaf_ofBounds _ _ _
  · exact leaf_ofBounds _ _ _
  · exact leaf_ofBrace s
  · exact leaf_ofClass s
  · rfl
  · cases s with
    | nil => trivial
    | cons d t => exact leaf_ofEscape groups d t
  · split
    · rfl
    · trivial

end Token

namespace Descent

variable {groups : Nat} {multiline : Bool} {inner : Option BodyReader} {room k : Nat}
  {b b' : Branches} {cur cur' : Cursor} {n : Node}

theorem low_quantified (hb : b.Low (k + 1)) (hn : n.height ≤ k)
    (h : quantified groups n b cur = .ok (b', cur')) : b'.Low (k + 1) := by
  unfold quantified at h
  split at h
  · cases h
    exact hb.push (Nat.le_succ_of_le hn)
  · split at h
    · cases h
      exact hb.push (Nat.succ_le_succ hn)
    · cases h
    · cases h
      exact hb.push (Nat.le_succ_of_le hn)

theorem height_group {kind : Option GroupKind} {opening : Nat}
    (hinner : ∀ i ∈ inner, ∀ cur n cur', i.read cur = .ok (n, cur') → n.height ≤ k)
    (h : group inner kind opening cur = .ok (n, cur')) : n.height ≤ k + 1 := by
  unfold group at h
  split at h
  · cases h
  · cases h
  · next i kind =>
    cases hbody : i.read (cur.enter kind) with
    | error f =>
      rw [hbody] at h
      cases h
    | ok x =>
      obtain ⟨body, cur₁⟩ := x
      rw [hbody] at h
      simp only [bind, Except.bind] at h
      split_ifs at h
      cases h
      have hheight : body.height ≤ k := hinner i rfl _ _ _ hbody
      exact Nat.le_trans (kind.height_node_le _ _) (Nat.succ_le_succ hheight)

/-- A term adds a group and a quantifier to the body of a group. -/
theorem low_term (hinner : ∀ i ∈ inner, ∀ cur n cur', i.read cur = .ok (n, cur') → n.height ≤ k)
    (hb : b.Low (k + 2)) (h : term groups multiline inner b cur = .ok (b', cur')) :
    b'.Low (k + 2) := by
  unfold term at h
  split at h
  · cases h
    exact hb
  · next c s hrest =>
    have hleaf := Token.leaf_first groups c s
    rcases hfirst : Token.first groups c s with ⟨token, l⟩
    rw [hfirst] at h hleaf
    dsimp only at h
    cases token with
    | atom n => exact low_quantified hb (Nat.le_trans (Nat.le_of_eq hleaf) (Nat.le_add_left _ _)) h
    | surrogates lead trail =>
      have hlead : (Node.unit lead).height ≤ k + 2 := Nat.le_add_left 1 (k + 1)
      have htrail : (Node.unit trail).height ≤ k + 1 := Nat.le_add_left 1 k
      exact low_quantified (hb.push hlead) htrail h
    | caret | dollar | boundary negated =>
      cases h
      exact hb.push (Nat.le_add_left 1 (k + 1))
    | bar =>
      cases h
      exact hb
    | quantifier | closing | flaw => cases h
    | opening kind =>
      dsimp only at h
      cases hgroup : group inner kind cur.offset (cur.advance (l + 1)) with
      | error f =>
        rw [hgroup] at h
        cases h
      | ok x =>
        obtain ⟨n, cur₁⟩ := x
        rw [hgroup] at h
        exact low_quantified hb (height_group hinner hgroup) h

/-- **Each level of nesting makes a tree higher by four**: by alternatives, a row, a quantifier and
the group itself. -/
theorem height_body
    (h : (body groups multiline (enclosed groups multiline room)).read cur = .ok (n, cur')) :
    n.height ≤ 4 * (room + 1) := by
  refine body_induction (P := fun room i => ∀ cur n cur', i.read cur = .ok (n, cur') →
    n.height ≤ 4 * (room + 1)) ?_ room cur n cur' h
  intro room hinner cur n cur' h
  have hreaders : ∀ i ∈ enclosed groups multiline room, ∀ cur n cur',
      i.read cur = .ok (n, cur') → n.height ≤ 4 * room := by
    intro i hi cur n cur' hread
    obtain ⟨r, rfl, hr⟩ := hinner i hi
    exact hr cur n cur' hread
  rcases disjunction_rule (fun b _ => b.Low (4 * room + 2))
    (fun _ _ _ _ hb _ hread => low_term hreaders hb hread)
    (fun _ _ hb _ => hb.next)
    (⟨by simp, by simp⟩ : ({} : Branches).Low (4 * room + 2)) with ⟨_, _, _, hflaw, -⟩ |
      ⟨b', _, hok, hb, -⟩
  · rw [show disjunction _ _ _ _ _ = _ from h] at hflaw
    cases hflaw
  · rw [show disjunction _ _ _ _ _ = _ from h] at hok
    cases hok
    exact hb.node

end Descent

/-! ### Whole patterns -/

namespace Descent

variable {source : String} {flags : Flags} {p : Pattern} {f : FlawAt}

/-- If a pattern is read, then up to the end of the text. -/
theorem exists_of_descend (h : descend source flags = .ok p) :
    ∃ cur, (whole source flags).read ⟨0, source.toList, 0⟩ = .ok (p.root, cur) ∧
      cur.rest = [] := by
  rw [descend] at h
  cases hread : (whole source flags).read ⟨0, source.toList, 0⟩ with
  | error f =>
    rw [hread] at h
    cases h
  | ok x =>
    obtain ⟨root, cur⟩ := x
    rw [hread] at h
    simp only [bind, Except.bind] at h
    split_ifs at h with hrest
    cases h
    exact ⟨cur, rfl, hrest⟩

/-- If no pattern is read, the flaw shows within the text. -/
theorem offset_le_of_descend (h : descend source flags = .error f) :
    f.offset ≤ source.length := by
  rw [← String.length_toList]
  rw [descend] at h
  cases hread : (whole source flags).read ⟨0, source.toList, 0⟩ with
  | error g =>
    rw [hread] at h
    cases h
    exact Nat.le_trans (offset_le_of_body hread) (Nat.le_of_eq (Nat.zero_add _))
  | ok x =>
    obtain ⟨root, cur⟩ := x
    have hstop := ((whole source flags).reaches hread).stop_eq
    rw [hread] at h
    simp only [bind, Except.bind] at h
    split_ifs at h
    cases h
    dsimp only at hstop ⊢
    omega

end Descent

/-- **Reading a pattern makes progress, reads all of the text and bounds its nesting.**  `parse`
reads by recursive descent, and this ends since wherever a term begins, reading it moves the
cursor on and not beyond the end of the text.  If it succeeds, then with the cursor at the end of
the text; else the error is one of syntax, at a place in the text or at its end.  A text whose
groups nest more than 256 deep is no pattern, and no tree is higher than four times 257. -/
theorem parse_progress (source : String) (flags : Flags) :
    parse source flags = Descent.descend source flags ∧
      (∀ room b cur b' cur', cur.atTerm = true →
        let groups := countGroups false 0 source.toList
        let inner := Descent.enclosed groups flags.multiline room
        Descent.term groups flags.multiline inner b cur = .ok (b', cur') →
          cur.Reaches cur' ∧ cur.offset < cur'.offset) ∧
      (∀ p, parse source flags = .ok p →
        ∃ cur, (Descent.whole source flags).read ⟨0, source.toList, 0⟩ = .ok (p.root, cur) ∧
          cur.rest = [] ∧ cur.offset = source.length) ∧
      (∀ f, parse source flags = .error f →
        ∃ offset ≤ source.length, ∃ text, f.toError = .malformed offset text) ∧
      (256 < nesting false 0 source.toList → ∀ p, parse source flags ≠ .ok p) ∧
      ∀ p, parse source flags = .ok p → p.root.height ≤ 4 * 257 := by
  refine ⟨parse_eq_descend source flags, ?_, ?_, ?_, ?_, ?_⟩
  · intro room b cur b' cur' hat
    exact Descent.term_reaches hat
  · intro p hp
    rw [parse_eq_descend] at hp
    obtain ⟨cur, hread, hrest⟩ := Descent.exists_of_descend hp
    have hstop := ((Descent.whole source flags).reaches hread).stop_eq
    rw [hrest, String.length_toList] at hstop
    exact ⟨cur, hread, hrest, by simpa using hstop⟩
  · intro f hf
    rw [parse_eq_descend] at hf
    exact ⟨f.offset, Descent.offset_le_of_descend hf, f.flaw.text, rfl⟩
  · intro hdeep p hp
    rw [parse_eq_descend] at hp
    obtain ⟨cur, hread, hrest⟩ := Descent.exists_of_descend hp
    have hle := Descent.nesting_body hread 0
    rw [hrest, show Reader.maxDepth = 256 from rfl] at hle
    simp only [nesting] at hle
    omega
  · intro p hp
    rw [parse_eq_descend] at hp
    obtain ⟨cur, hread, -⟩ := Descent.exists_of_descend hp
    exact Descent.height_body hread

/-- A condition that is repeated inside of a group, and a group of an unknown kind. -/
theorem parse_progress_repeated :
    (∃ p, parse "(a(?=b|c)*)+" .empty = .ok p ∧ p.root.height ≤ 4 * 257) ∧
      ∃ f, parse "a(?b" .empty = .error f ∧
        ∃ offset ≤ "a(?b".length, ∃ text, f.toError = .malformed offset text := by
  have hread : parse "(a(?=b|c)*)+" .empty = .ok
      { root := .rep 1 none true (.group 1 (.seq [.unit 0x61,
          .rep 0 none true (.look false (.alt [.unit 0x62, .unit 0x63]))]))
        groups := 1 } := rfl
  have hflaw : parse "a(?b" .empty = .error ⟨1, .invalidGroup⟩ := rfl
  exact ⟨⟨_, hread, (parse_progress _ _).2.2.2.2.2 _ hread⟩,
    ⟨_, hflaw, (parse_progress _ _).2.2.2.1 _ hflaw⟩⟩

end RegexEngine

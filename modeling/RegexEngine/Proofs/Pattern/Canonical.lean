import RegexEngine.Proofs.CharSet.Interval
import RegexEngine.Proofs.Pattern.Groups
import RegexEngine.Proofs.Pattern.Prescan

/-!
# Parsed patterns are canonical

Every pattern that parsing returns has its groups numbered in the order of their parentheses, and
a tree whose parts are well formed.

* `Token.Sound` — what holds of every token of a text.
* `Reader.Inv` — what holds of a reader; `Reader.Inv.step` says that reading a token keeps it.
* `canonical_of_parse` — **a parsed pattern is canonical.**
-/

namespace RegexEngine

open RegexEngine.Interval

/-! ### Sets of units -/

theorem Interval.normal_classEscape? {c : Char} {is : List Interval}
    (h : Escape.classEscape? c = some is) : Normal is := by
  unfold Escape.classEscape? at h
  split at h <;> simp only [Option.some.injEq, reduceCtorEq] at h <;> subst h <;>
    exact normal_normalize (by decide)

namespace ClassItem

/-- An item whose intervals are not empty. -/
def Sound (item : ClassItem) : Prop := ∀ i ∈ item.intervals, i.lo ≤ i.hi

theorem sound_unit (u : Nat) : (unit u).Sound := by simp [Sound, intervals, single]

theorem sound_ofChar (c : Char) : (ofChar c).Sound := by
  unfold ofChar
  split_ifs
  · simp [Sound, intervals, single]
  · exact sound_unit _
  · simp [Sound, intervals, single]

theorem sound_ofEscape (c : Char) (s : List Char) : (ofEscape c s).1.Sound := by
  unfold ofEscape
  split
  · next is h => exact (normal_iff.mp (normal_classEscape? h)).1
  · split_ifs
    · exact sound_unit _
    · exact sound_unit _

theorem sound_scan {used skip : Nat} {items : List (ClassItem × Nat)} {s : List Char}
    (h : ∀ item ∈ items, item.1.Sound) : ∀ item ∈ (scan used skip items s).1, item.1.Sound := by
  induction s generalizing used skip items with
  | nil => simpa [scan] using h
  | cons c s ih =>
    unfold scan
    split
    · exact ih h
    · split_ifs
      · simpa using h
      · split
        · simpa using h
        · next d t =>
          exact ih (List.forall_mem_cons.mpr ⟨sound_ofEscape d t, h⟩)
      · exact ih (List.forall_mem_cons.mpr ⟨sound_ofChar c, h⟩)

theorem le_of_ranges {sofar is : List Interval} {items : List (ClassItem × Nat)}
    (h : ranges sofar items = .ok is) (hitems : ∀ item ∈ items, item.1.Sound)
    (hsofar : ∀ i ∈ sofar, i.lo ≤ i.hi) : ∀ i ∈ is, i.lo ≤ i.hi := by
  -- the cases are the end, a range, a range out of order, a hyphen beside a set, and a single item
  fun_induction ranges sofar items with
  | case1 sofar =>
    simp only [Except.ok.injEq] at h
    exact h ▸ hsofar
  | case2 sofar a _ _ b place rest lo hi _ _ hle ih =>
    refine ih h (fun item hi => hitems item (by simp [hi])) ?_
    exact List.forall_mem_cons.mpr ⟨hle, hsofar⟩
  | case3 => simp at h
  | case4 sofar a _ _ b place rest _ ih =>
    refine ih h (fun item hi => hitems item (by simp [hi])) ?_
    have ha := hitems _ List.mem_cons_self
    have hb := hitems (b, place) (by simp)
    intro i hi
    simp only [List.mem_append, List.mem_cons] at hi
    rcases hi with (hi | rfl | hi) | hi
    · exact ha i hi
    · exact Nat.le_refl _
    · exact hb i hi
    · exact hsofar i hi
  | case5 sofar a _ rest _ ih =>
    refine ih h (fun item hi => hitems item (by simp [hi])) ?_
    intro i hi
    rcases List.mem_append.mp hi with hi | hi
    · exact hitems _ List.mem_cons_self i hi
    · exact hsofar i hi

end ClassItem

/-! ### Tokens -/

namespace Token

/-- What holds of a token in a text with `groups` groups. -/
def Sound (groups : Nat) : Token → Prop
  | atom n => n.WellFormed groups ∧ n.groupNumbers = []
  | quantifier lower upper _ => ∀ n ∈ upper, lower ≤ n
  | _ => True

variable {groups : Nat}

theorem sound_ofBounds {lower : Nat} {upper : Option Nat} (h : ∀ n ∈ upper, lower ≤ n)
    (s : List Char) : (ofBounds lower upper s).1.Sound groups := by
  unfold ofBounds
  split <;> exact h

theorem sound_unit (u : Nat) : (atom (.unit u)).Sound groups := ⟨trivial, rfl⟩

theorem sound_ofBrace (s : List Char) : (ofBrace s).1.Sound groups := by
  unfold ofBrace
  split
  · exact sound_unit _
  · next lower upper n _ =>
    split_ifs with hle
    · exact sound_ofBounds (by cases upper <;> simp_all) _
    · trivial

theorem sound_ofClass (s : List Char) : (ofClass s).1.Sound groups := by
  unfold ofClass
  simp only
  split
  · trivial
  · next is his =>
    split
    · trivial
    · refine ⟨normal_normalize (ClassItem.le_of_ranges his ?_ (by simp)), rfl⟩
      exact ClassItem.sound_scan (by simp)

theorem pos_of_foldl_digits {v : Nat} (hv : 1 ≤ v) (cs : List Char) :
    1 ≤ cs.foldl (fun v c => min (10 * v + Escape.digitValue c) Escape.maxNumber) v := by
  induction cs generalizing v with
  | nil => exact hv
  | cons c cs ih =>
    refine ih (v := min (10 * v + Escape.digitValue c) Escape.maxNumber) ?_
    have : 1 ≤ Escape.maxNumber := by decide
    omega

/-- A number that begins with a digit other than zero is not zero. -/
theorem pos_of_decimal {d : Char} (h : '1' ≤ d ∧ d ≤ '9') (t : List Char) :
    1 ≤ (Escape.decimal (d :: t)).1 := by
  have hlo : '1'.toNat ≤ d.toNat := h.1
  have hhi : d.toNat ≤ '9'.toNat := h.2
  have hdigit : d.isDigit = true := by
    simp only [Char.isDigit, Bool.and_eq_true, decide_eq_true_eq]
    exact ⟨Nat.le_trans (by decide) hlo, hhi⟩
  have h0 : '0'.toNat + 1 ≤ d.toNat := hlo
  have : 1 ≤ Escape.maxNumber := by decide
  simp only [Escape.decimal, List.takeWhile_cons_of_pos hdigit, List.foldl_cons]
  refine pos_of_foldl_digits ?_ _
  simp only [Escape.digitValue]
  omega

theorem sound_ofEscape (d : Char) (t : List Char) : (ofEscape groups d t).1.Sound groups := by
  unfold ofEscape
  split_ifs
  · trivial
  · trivial
  · split
    · next is his => exact ⟨normal_classEscape? his, rfl⟩
    · rcases hd : Escape.decimal (d :: t) with ⟨n, digits⟩
      simp only
      split_ifs with hn
      · have hpos := pos_of_decimal ⟨hn.1, hn.2.1⟩ t
        rw [hd] at hpos
        exact ⟨⟨hpos, hn.2.2⟩, rfl⟩
      · exact sound_unit _

theorem sound_first (c : Char) (s : List Char) : (first groups c s).1.Sound groups := by
  unfold first
  split
  · trivial
  · trivial
  · trivial
  · trivial
  · unfold ofOpening
    split <;> trivial
  · exact sound_ofBounds (by simp) s
  · exact sound_ofBounds (by simp) s
  · exact sound_ofBounds (by simp) s
  · exact sound_ofBrace s
  · exact sound_ofClass s
  · exact ⟨trivial, rfl⟩
  · split
    · trivial
    · exact sound_ofEscape _ _
  · split_ifs
    · exact sound_unit _
    · trivial

end Token

theorem Lexeme.sound_cut {groups offset skip : Nat} {lexemes : List Lexeme} {s : List Char}
    (h : ∀ l ∈ lexemes, l.token.Sound groups) :
    ∀ l ∈ cut groups offset skip lexemes s, l.token.Sound groups := by
  induction s generalizing offset skip lexemes with
  | nil => simpa [cut] using h
  | cons c s ih =>
    unfold cut
    cases skip with
    | succ skip => exact ih h
    | zero =>
      have hcons : ∀ l ∈ (⟨offset, (Token.first groups c s).1⟩ : Lexeme) :: lexemes,
          l.token.Sound groups := List.forall_mem_cons.mpr ⟨Token.sound_first c s, h⟩
      simp only
      split_ifs
      · exact fun l hl => hcons l (List.mem_reverse.mp hl)
      · exact ih hcons

/-! ### Readers -/

namespace Branches

/-- The numbers of the groups in the alternatives, in the order of the text. -/
def groupNumbers (b : Branches) : List Nat :=
  Node.allGroupNumbers b.finished.reverse ++ Node.allGroupNumbers b.items.reverse

/-- Every tree among the alternatives is well formed. -/
structure Sound (groups : Nat) (b : Branches) : Prop where
  finished : ∀ n ∈ b.finished, n.WellFormed groups
  items : ∀ n ∈ b.items, n.WellFormed groups

variable {groups : Nat} {b : Branches}

theorem groupNumbers_push (b : Branches) (n : Node) :
    (b.push n).groupNumbers = b.groupNumbers ++ n.groupNumbers := by
  simp [groupNumbers, push, Node.allGroupNumbers_eq]

theorem Sound.push (h : b.Sound groups) {n : Node} (hn : n.WellFormed groups) :
    (b.push n).Sound groups :=
  ⟨h.finished, List.forall_mem_cons.mpr ⟨hn, h.items⟩⟩

/-- Several items are a row. -/
theorem last_of_two_le (h : 2 ≤ b.items.length) : b.last = .seq b.items.reverse := by
  unfold last
  split
  · next hitems => simp [hitems] at h
  · next hitems => simp [hitems] at h
  · rfl

theorem groupNumbers_last (b : Branches) :
    b.last.groupNumbers = Node.allGroupNumbers b.items.reverse := by
  unfold last
  split
  · next h => rw [h]; rfl
  · next n h => simp [h, Node.allGroupNumbers]
  · rw [Node.groupNumbers]

theorem Sound.last (h : b.Sound groups) : b.last.WellFormed groups := by
  have hitems := h.items
  unfold Branches.last
  generalize b.items = ns at hitems ⊢
  rcases ns with _ | ⟨n, _ | ⟨m, ns⟩⟩
  · trivial
  · exact hitems n List.mem_cons_self
  · refine ⟨by simp, Node.allWellFormed_iff.mpr fun n hn => ?_⟩
    exact hitems n (List.mem_reverse.mp hn)

theorem groupNumbers_next (b : Branches) : b.next.groupNumbers = b.groupNumbers := by
  simp [groupNumbers, next, Node.allGroupNumbers_eq, groupNumbers_last]

theorem Sound.next (h : b.Sound groups) : b.next.Sound groups :=
  ⟨List.forall_mem_cons.mpr ⟨h.last, h.finished⟩, by simp [Branches.next]⟩

theorem groupNumbers_node (b : Branches) : b.node.groupNumbers = b.groupNumbers := by
  unfold node
  split
  · next h => simp [groupNumbers, h, groupNumbers_last, Node.allGroupNumbers]
  · simp [groupNumbers, Node.groupNumbers, Node.allGroupNumbers_eq, groupNumbers_last]

theorem Sound.node (h : b.Sound groups) : b.node.WellFormed groups := by
  unfold Branches.node
  split
  · exact h.last
  · next hne =>
    refine ⟨?_, Node.allWellFormed_iff.mpr fun n hn => ?_⟩
    · have := List.length_pos_iff.mpr hne
      simp only [List.length_reverse, List.length_cons]
      omega
    · rw [List.mem_reverse, List.mem_cons] at hn
      rcases hn with rfl | hn
      · exact h.last
      · exact h.finished n hn

end Branches

namespace OpenGroup

/-- The numbers of the groups in front of an open group, and its own. -/
def groupNumbers (g : OpenGroup) : List Nat :=
  g.around.groupNumbers ++ if g.wrap = .capture then [g.index] else []

theorem groupNumbers_node (g : OpenGroup) (body : Node) :
    g.around.groupNumbers ++ (g.node body).groupNumbers = g.groupNumbers ++ body.groupNumbers := by
  unfold groupNumbers node
  split <;> simp_all [Node.groupNumbers]

theorem wellFormed_node {groups : Nat} (g : OpenGroup) {body : Node}
    (h : body.WellFormed groups) : (g.node body).WellFormed groups := by
  unfold node
  split <;> exact h

end OpenGroup

namespace Reader

/-- The numbers of the groups that have been read, in the order of the text. -/
def groupNumbers (r : Reader) : List Nat :=
  r.groups.reverse.flatMap OpenGroup.groupNumbers ++ r.branches.groupNumbers ++
    (r.pending.map Node.groupNumbers).getD []

/-- What holds of a reader that has opened all of its groups in a text with `groups` groups. -/
structure Inv (groups : Nat) (r : Reader) : Prop where
  numbers : r.groupNumbers = List.range' 1 r.count
  branches : r.branches.Sound groups
  around : ∀ g ∈ r.groups, g.around.Sound groups
  pending : ∀ n ∈ r.pending, n.WellFormed groups

variable {groups : Nat} {r r' : Reader}

theorem Inv.init : ({} : Reader).Inv groups :=
  ⟨rfl, ⟨by simp, by simp⟩, by simp, by simp⟩

theorem groupNumbers_settle (r : Reader) : r.settle.groupNumbers = r.groupNumbers := by
  unfold settle
  split
  · rfl
  · next n h => simp [groupNumbers, Branches.groupNumbers_push, h]

@[simp] theorem pending_settle (r : Reader) : r.settle.pending = none := by
  unfold settle
  split
  · assumption
  · rfl

@[simp] theorem groups_settle (r : Reader) : r.settle.groups = r.groups := by
  unfold settle
  split <;> rfl

@[simp] theorem count_settle (r : Reader) : r.settle.count = r.count := by
  unfold settle
  split <;> rfl

theorem Inv.settle (h : r.Inv groups) : r.settle.Inv groups where
  numbers := by rw [groupNumbers_settle, count_settle, h.numbers]
  branches := by
    unfold Reader.settle
    split
    · exact h.branches
    · next n hn => exact h.branches.push (h.pending n hn)
  around := by simpa using h.around
  pending := by simp

theorem Inv.append (h : r.Inv groups) {n : Node} (hn : n.WellFormed groups)
    (hnum : n.groupNumbers = []) : (r.append n).Inv groups where
  numbers := by
    have := h.settle.numbers
    simpa [Reader.append, groupNumbers, Branches.groupNumbers_push, hnum] using this
  branches := h.settle.branches.push hn
  around := h.settle.around
  pending := h.settle.pending

theorem Inv.hold (h : r.Inv groups) {n : Node} (hn : n.WellFormed groups)
    (hnum : n.groupNumbers = []) : (r.hold n).Inv groups where
  numbers := by
    have := h.settle.numbers
    simpa [Reader.hold, groupNumbers, hnum] using this
  branches := h.settle.branches
  around := h.settle.around
  pending := by simpa [Reader.hold] using hn

theorem Inv.openGroup (h : r.Inv groups) (kind : GroupKind) (offset : Nat) :
    (r.openGroup kind offset).Inv groups where
  numbers := by
    have := h.settle.numbers
    simp only [groupNumbers, pending_settle, groups_settle, count_settle, Option.map_none,
      Option.getD_none, List.append_nil] at this
    simp only [Reader.openGroup, groupNumbers, groups_settle, count_settle, List.reverse_cons,
      List.flatMap_append, List.flatMap_cons, List.flatMap_nil, OpenGroup.groupNumbers,
      List.append_nil, Option.map_none, Option.getD_none, ← List.append_assoc, this]
    split
    · rw [List.range'_concat]
      simp [Branches.groupNumbers, Node.allGroupNumbers, Nat.add_comm]
    · simp [Branches.groupNumbers, Node.allGroupNumbers]
  branches := ⟨by simp [Reader.openGroup], by simp [Reader.openGroup]⟩
  around := List.forall_mem_cons.mpr ⟨h.settle.branches, h.settle.around⟩
  pending := by simp [Reader.openGroup]

/-- A quantifier takes the pending tree. -/
theorem Inv.quantify (h : r.Inv groups) {n : Node} (hn : r.pending = some n) {lower : Nat}
    {upper : Option Nat} (hbounds : ∀ k ∈ upper, lower ≤ k) (greedy : Bool) :
    { r with branches := r.branches.push (.rep lower upper greedy n), pending := none }.Inv
      groups where
  numbers := by
    have := h.numbers
    simpa [groupNumbers, Branches.groupNumbers_push, Node.groupNumbers, hn] using this
  branches := h.branches.push ⟨hbounds, h.pending n hn⟩
  around := h.around
  pending := by simp

/-- The innermost open group becomes the pending tree. -/
theorem Inv.closeGroup (h : r.Inv groups) {g : OpenGroup} {gs : List OpenGroup}
    (hgs : r.groups = g :: gs) :
    { r with
      branches := g.around
      pending := some (g.node r.settle.branches.node)
      groups := gs }.Inv groups where
  numbers := by
    have := h.settle.numbers
    simp only [groupNumbers, groups_settle, hgs, pending_settle, count_settle,
      List.reverse_cons, List.flatMap_append, List.flatMap_cons, List.flatMap_nil,
      Option.map_none, Option.getD_none, List.append_nil, List.append_assoc] at this
    -- the numbers of the group itself and of its branches move from `groups` to `pending`
    simp only [groupNumbers, Option.map_some, Option.getD_some, List.append_assoc,
      OpenGroup.groupNumbers_node, Branches.groupNumbers_node, this]
  branches := h.around g (by simp [hgs])
  around := fun g' hg' => h.around g' (by simp [hgs, hg'])
  pending := by
    intro n hn
    simp only [Option.mem_def, Option.some.injEq] at hn
    subst hn
    exact g.wellFormed_node h.settle.branches.node

theorem Inv.nextBranch (h : r.Inv groups) :
    { r.settle with branches := r.settle.branches.next }.Inv groups where
  numbers := by
    have := h.settle.numbers
    simpa [groupNumbers, Branches.groupNumbers_next] using this
  branches := h.settle.branches.next
  around := h.settle.around
  pending := h.settle.pending

/-- **Reading a token keeps the invariant**, and counts the token if it opens a capture group. -/
theorem Inv.step (h : r.Inv groups) {multiline : Bool} {l : Lexeme} (hl : l.token.Sound groups)
    (hstep : r.step multiline l = .ok r') :
    r'.Inv groups ∧ l.token.isBad = false ∧
      r'.count = r.count + if l.token.isCapture then 1 else 0 := by
  unfold Reader.step at hstep
  rcases l with ⟨offset, token⟩
  cases token with
  | atom n =>
    obtain rfl := Except.ok.inj hstep
    exact ⟨h.hold hl.1 hl.2, rfl, count_settle r⟩
  | surrogates lead trail =>
    obtain rfl := Except.ok.inj hstep
    have hlead : (r.append (.unit lead)).Inv groups := h.append trivial rfl
    exact ⟨hlead.hold trivial rfl, rfl, by simp [Reader.hold, Reader.append, Token.isCapture]⟩
  | caret | dollar | boundary negated =>
    obtain rfl := Except.ok.inj hstep
    exact ⟨h.append trivial rfl, rfl, count_settle r⟩
  | quantifier lower upper greedy =>
    simp only at hstep
    split at hstep
    · simp at hstep
    · next n hn =>
      obtain rfl := Except.ok.inj hstep
      exact ⟨h.quantify hn hl greedy, rfl, rfl⟩
  | opening kind =>
    -- too deep a nesting and an unknown kind of group are errors
    simp only at hstep
    split_ifs at hstep
    cases kind with
    | none => simp at hstep
    | some kind =>
      obtain rfl := Except.ok.inj hstep
      refine ⟨h.openGroup kind offset, rfl, ?_⟩
      cases kind <;> simp [Reader.openGroup, Token.isCapture]
  | closing =>
    simp only at hstep
    split at hstep
    · simp at hstep
    · next g gs hgs =>
      obtain rfl := Except.ok.inj hstep
      exact ⟨h.closeGroup hgs, rfl, rfl⟩
  | bar =>
    obtain rfl := Except.ok.inj hstep
    exact ⟨h.nextBranch, rfl, count_settle r⟩
  | flaw ahead f => simp at hstep

/-- Reading tokens keeps the invariant, and counts those that open capture groups. -/
theorem Inv.foldlM (h : r.Inv groups) {multiline : Bool} {ls : List Lexeme}
    (hls : ∀ l ∈ ls, l.token.Sound groups) (hread : ls.foldlM (Reader.step multiline) r = .ok r') :
    r'.Inv groups ∧ (∀ l ∈ ls, l.token.isBad = false) ∧
      r'.count = r.count + ls.countP (·.token.isCapture) := by
  induction ls generalizing r with
  | nil =>
    simp only [List.foldlM_nil, pure, Except.pure, Except.ok.injEq] at hread
    subst hread
    exact ⟨h, by simp, by simp⟩
  | cons l ls ih =>
    rw [List.foldlM_cons] at hread
    cases hstep : r.step multiline l with
    | error e => simp [hstep, bind, Except.bind] at hread
    | ok middle =>
      rw [List.forall_mem_cons] at hls
      obtain ⟨hmid, hbad, hcount⟩ := h.step hls.1 hstep
      obtain ⟨hinv, hrest, hsum⟩ := ih hmid hls.2 (by simpa [hstep, bind, Except.bind] using hread)
      refine ⟨hinv, List.forall_mem_cons.mpr ⟨hbad, hrest⟩, ?_⟩
      rw [hsum, hcount, List.countP_cons]
      omega

end Reader

/-- **A parsed pattern is canonical.**  The groups that were counted ahead are those that were
read, so that every back-reference names one of them. -/
theorem canonical_of_parse {source : String} {flags : Flags} {p : Pattern}
    (h : parse source flags = .ok p) :
    p.Canonical ∧ p.groups = countGroups false 0 source.toList := by
  unfold parse at h
  cases hread : (Lexeme.ofText source.toList).foldlM (Reader.step flags.multiline) {} with
  | error e => simp [hread, bind, Except.bind] at h
  | ok r =>
    have hfinish : r.finish = .ok p := by simpa [hread, bind, Except.bind] using h
    obtain ⟨hinv, hgood, hcount⟩ := Reader.Inv.init.foldlM
      (Lexeme.sound_cut (by simp)) hread
    have hgroups : r.count = countGroups false 0 source.toList := by
      rw [hcount, Lexeme.countP_cut _ _ _ _ _ hgood]
      simp
    unfold Reader.finish at hfinish
    split at hfinish
    · next hnone =>
      simp only [Except.ok.injEq] at hfinish
      subst hfinish
      refine ⟨⟨?_, ?_⟩, hgroups⟩
      · -- no group is open at the end
        have := hinv.settle.numbers
        simp only [Reader.groupNumbers, Reader.groups_settle, hnone, Reader.pending_settle,
          Reader.count_settle, List.reverse_nil, List.flatMap_nil, Option.map_none,
          Option.getD_none, List.append_nil, List.nil_append] at this
        simpa [Branches.groupNumbers_node] using this
      · exact hgroups ▸ hinv.settle.branches.node
    · simp at hfinish

namespace Pattern

/-- The patterns that are compiled for a text and flags: the parsed one, and the one that matches
at the start of the text only. -/
def IsFrom (p : Pattern) (source : String) (flags : Flags) : Prop :=
  ∃ parsed, parse source flags = .ok parsed ∧ (p = parsed ∨ p = parsed.anchored)

theorem IsFrom.canonical {p : Pattern} {source : String} {flags : Flags}
    (h : p.IsFrom source flags) : p.Canonical := by
  obtain ⟨parsed, hparse, rfl | rfl⟩ := h
  · exact (canonical_of_parse hparse).1
  · exact (canonical_of_parse hparse).1.anchored

end Pattern

end RegexEngine

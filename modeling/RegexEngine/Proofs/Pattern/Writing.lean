import Mathlib.Data.List.Infix
import RegexEngine.Proofs.Pattern.Spelling

/-!
# Writing trees

Every tree that a pattern can have can be written: a row of trees one after the other, alternatives
with bars between them, groups in parentheses, and a quantifier behind what it repeats.  A tree that
is bound less closely than its place asks for stands in `(?:…)`, which leaves no trace.  Reading the
text gives the tree back.

* `Node.tokens`, `Node.text` — a tree in tokens and in characters.
* `Node.Expressible` — the trees for whose units and conditions there is a text.
* `Reader.Takes` — what becomes of a reader that reads given tokens.
* `Node.Reads` — a tree is read back wherever its tokens may stand.
* `Node.reads` — **every tree is.**
* `parse_text` — **a pattern is read back from the text of its tree.**
-/

namespace RegexEngine

open Escape (maxNumber)

/-! ### Trees in tokens -/

namespace Anchor

/-- The token of a condition. -/
def token : Anchor → Token
  | inputStart | lineStart => .caret
  | inputEnd | lineEnd => .dollar
  | wordBoundary => .boundary false
  | notWordBoundary => .boundary true

/-- Whether the condition is the one that its token stands for. -/
def Suits (multiline : Bool) : Anchor → Prop
  | inputStart | inputEnd => multiline = false
  | lineStart | lineEnd => multiline = true
  | wordBoundary | notWordBoundary => True

end Anchor

namespace Node

/-- Whether a quantifier may follow the tree as it stands. -/
def isAtom : Node → Bool
  | unit _ | any | charClass .. | backRef _ | group .. | look .. => true
  | _ => false

/-- Whether the tree may stand in a row as it is. -/
def isTerm : Node → Bool
  | rep .. | anchor _ => true
  | n => n.isAtom

/-- Whether the tree may be an alternative as it stands. -/
def isBranch : Node → Bool
  | alt _ => false
  | _ => true

/-- Tokens as they stand, or in a group that leaves no trace. -/
def enclosed (bare : Bool) (ts : List Token) : List Token :=
  if bare then ts else .opening (some .plain) :: (ts ++ [.closing])

mutual

/-- The tokens of a tree. -/
def tokens : Node → List Token
  | empty => []
  | anchor a => [a.token]
  | group _ body => .opening (some .capture) :: (body.tokens ++ [.closing])
  | look negated body => .opening (some (.look negated)) :: (body.tokens ++ [.closing])
  | rep lower upper greedy body =>
    enclosed body.isAtom body.tokens ++ [.quantifier lower upper greedy]
  | seq items => rowTokens items
  | alt items => (branchTokens items).tail
  | n => [.atom n]

/-- The tokens of trees in a row. -/
def rowTokens : List Node → List Token
  | [] => []
  | n :: ns => enclosed n.isTerm n.tokens ++ rowTokens ns

/-- The tokens of alternatives, each with a bar in front. -/
def branchTokens : List Node → List Token
  | [] => []
  | n :: ns => .bar :: (enclosed n.isBranch n.tokens ++ branchTokens ns)

end

/-- A tree as text. -/
def text (n : Node) : List Char := n.tokens.flatMap Token.text

example : String.ofList (rep 0 none false (group 1 (alt [unit 0x61, any]))).text =
    "(\\u0061|.)\x7b0,\x7d?" := by decide

mutual

/-- Whether there is a text for the units, classes and conditions of a tree. -/
def Expressible (multiline : Bool) : Node → Prop
  | unit u => u ≤ CodeUnit.maxUnit
  | charClass set _ => ∀ i ∈ set, i.hi ≤ CodeUnit.maxUnit
  | anchor a => a.Suits multiline
  | group _ body => body.Expressible multiline
  | look _ body => body.Expressible multiline
  | rep _ _ _ body => body.Expressible multiline
  | seq items => AllExpressible multiline items
  | alt items => AllExpressible multiline items
  | _ => True

/-- Whether there is one for all trees in a row. -/
def AllExpressible (multiline : Bool) : List Node → Prop
  | [] => True
  | n :: ns => n.Expressible multiline ∧ AllExpressible multiline ns

end

variable {groups : Nat} {multiline : Bool}

theorem spelled_enclosed {bare : Bool} {ts : List Token} (hts : ∀ t ∈ ts, t.Spelled groups) :
    ∀ t ∈ enclosed bare ts, t.Spelled groups := by
  cases bare with
  | true => exact hts
  | false =>
    intro t ht
    simp only [enclosed, Bool.false_eq_true, if_false, List.mem_cons, List.mem_append,
      List.not_mem_nil, or_false] at ht
    rcases ht with rfl | ht | rfl
    · rfl
    · exact hts t ht
    · trivial

theorem spelled_token (a : Anchor) : a.token.Spelled groups := by
  cases a <;> trivial

mutual

/-- The tokens of a tree all have texts of their own. -/
theorem spelled_tokens : ∀ n : Node, n.WellFormed groups → n.Expressible multiline →
    ∀ t ∈ n.tokens, t.Spelled groups
  | empty, _, _ => List.forall_mem_nil _
  | anchor a, _, _ => List.forall_mem_singleton.mpr (spelled_token a)
  | group _ body, h, he | look _ body, h, he => by
    have hbody := spelled_tokens body h he
    rw [tokens, List.forall_mem_cons, List.forall_mem_append, List.forall_mem_singleton]
    exact ⟨rfl, hbody, trivial⟩
  | rep _ _ _ body, h, he => by
    have hbody := spelled_tokens body h.2 he
    rw [tokens, List.forall_mem_append, List.forall_mem_singleton]
    exact ⟨spelled_enclosed hbody, h.1⟩
  | seq items, h, he => spelled_rowTokens items h.2 he
  | alt items, h, he => fun t ht =>
    spelled_branchTokens items h.2 he t (List.mem_of_mem_tail ht)
  | unit _, _, he => List.forall_mem_singleton.mpr he
  | any, _, _ => List.forall_mem_singleton.mpr trivial
  | charClass _ _, h, he => List.forall_mem_singleton.mpr ⟨h, he⟩
  | backRef _, h, _ => List.forall_mem_singleton.mpr h

theorem spelled_rowTokens : ∀ ns : List Node, AllWellFormed groups ns →
    AllExpressible multiline ns → ∀ t ∈ rowTokens ns, t.Spelled groups
  | [], _, _ => List.forall_mem_nil _
  | n :: ns, h, he => List.forall_mem_append.mpr
    ⟨spelled_enclosed (spelled_tokens n h.1 he.1), spelled_rowTokens ns h.2 he.2⟩

theorem spelled_branchTokens : ∀ ns : List Node, AllWellFormed groups ns →
    AllExpressible multiline ns → ∀ t ∈ branchTokens ns, t.Spelled groups
  | [], _, _ => List.forall_mem_nil _
  | n :: ns, h, he => List.forall_mem_cons.mpr ⟨trivial, List.forall_mem_append.mpr
    ⟨spelled_enclosed (spelled_tokens n h.1 he.1), spelled_branchTokens ns h.2 he.2⟩⟩

end

end Node

/-! ### Reading tokens -/

namespace Reader

variable {multiline : Bool} {r r' : Reader}

/-- A group is open as long as its parenthesis has not been closed. -/
theorem length_groups_step {l : Lexeme} (h : r.step multiline l = .ok r') :
    r'.groups.length + (if l.token.isClosing then 1 else 0) =
      r.groups.length + if l.token.isOpening then 1 else 0 := by
  rcases l with ⟨offset, token⟩
  unfold step at h
  cases token with
  | atom n | caret | dollar | boundary negated =>
    obtain rfl := Except.ok.inj h
    exact congrArg List.length (groups_settle r)
  | surrogates lead trail =>
    obtain rfl := Except.ok.inj h
    simp [hold, append, Token.isOpening, Token.isClosing]
  | bar =>
    obtain rfl := Except.ok.inj h
    exact congrArg List.length (groups_settle r)
  | quantifier lower upper greedy =>
    dsimp only at h
    split at h
    · cases h
    · obtain rfl := Except.ok.inj h
      rfl
  | opening kind =>
    dsimp only at h
    split_ifs at h
    cases kind with
    | none => cases h
    | some kind =>
      obtain rfl := Except.ok.inj h
      simp [openGroup, Token.isOpening, Token.isClosing]
  | closing =>
    dsimp only at h
    split at h
    · cases h
    · next g groups hgroups =>
      obtain rfl := Except.ok.inj h
      simp [hgroups, Token.isOpening, Token.isClosing]
  | flaw ahead f => cases h

theorem length_groups_foldlM {ls : List Lexeme} (h : ls.foldlM (step multiline) r = .ok r') :
    r'.groups.length + ls.countP (·.token.isClosing) =
      r.groups.length + ls.countP (·.token.isOpening) := by
  induction ls generalizing r with
  | nil =>
    obtain rfl := Except.ok.inj h
    rfl
  | cons l ls ih =>
    rw [List.foldlM_cons] at h
    cases hstep : r.step multiline l with
    | error f =>
      rw [hstep] at h
      cases h
    | ok r₁ =>
      rw [hstep] at h
      have hone := length_groups_step hstep
      have hrest := ih h
      simp only [List.countP_cons]
      omega

/-- With so many groups open, the tokens never open more than may be open at once. -/
def Shallow (depth : Nat) (ts : List Token) : Prop :=
  ∀ pre, pre <+: ts → depth + pre.countP Token.isOpening ≤ pre.countP Token.isClosing + maxDepth

/-- Unless they nest too deep, the reader reads the tokens, with their numbers cut down and wherever
they stand, and what becomes of it satisfies `P`. -/
def Takes (multiline : Bool) (ts : List Token) (r : Reader) (P : Reader → Prop) : Prop :=
  Shallow r.groups.length ts → ∀ ls : List Lexeme, ls.map Lexeme.token = ts.map Token.capped →
    ∃ r', ls.foldlM (step multiline) r = .ok r' ∧ P r'

/-- What does not depend on numbers is counted alike in tokens and in what is read. -/
theorem countP_token {ls : List Lexeme} {ts : List Token} {p : Token → Bool}
    (hls : ls.map Lexeme.token = ts.map Token.capped) (hp : ∀ t, p t.capped = p t) :
    ls.countP (fun l => p l.token) = ts.countP p := by
  have hcount := congrArg (List.countP p) hls
  rw [List.countP_map, List.countP_map] at hcount
  exact hcount.trans (List.countP_congr fun t _ => by rw [Function.comp_apply, hp])

namespace Takes

variable {P Q : Reader → Prop} {t : Token} {ts us : List Token}

theorem mono (h : Takes multiline ts r P) (hPQ : ∀ r', P r' → Q r') : Takes multiline ts r Q := by
  intro hshallow ls hls
  obtain ⟨r', hread, hP⟩ := h hshallow ls hls
  exact ⟨r', hread, hPQ r' hP⟩

theorem nil (h : P r) : Takes multiline [] r P := by
  intro _ ls hls
  obtain rfl := List.map_eq_nil_iff.mp hls
  exact ⟨r, rfl, h⟩

/-- A single token, which may be an opening parenthesis unless too many groups are open. -/
theorem single (h : (t.isOpening = true → r.groups.length < maxDepth) → ∀ offset,
    ∃ r', r.step multiline ⟨offset, t.capped⟩ = .ok r' ∧ P r') : Takes multiline [t] r P := by
  intro hshallow ls hls
  obtain ⟨⟨offset, token⟩, rfl, rfl⟩ := List.map_eq_singleton_iff.mp hls
  have hroom : t.isOpening = true → r.groups.length < maxDepth := by
    intro ht
    have hclosing : t.isClosing = false := by cases t <;> first | rfl | cases ht
    have := hshallow [t] List.prefix_rfl
    simp [ht, hclosing] at this
    omega
  obtain ⟨r', hstep, hP⟩ := h hroom offset
  refine ⟨r', ?_, hP⟩
  rw [List.foldlM_cons, hstep]
  rfl

/-- One row of tokens after another. -/
theorem append (h : Takes multiline ts r P) (h' : ∀ r', P r' → Takes multiline us r' Q) :
    Takes multiline (ts ++ us) r Q := by
  intro hshallow ls hls
  rw [List.map_append] at hls
  obtain ⟨ls₁, ls₂, rfl, hls₁, hls₂⟩ := List.map_eq_append_iff.mp hls
  obtain ⟨r₁, hread, hP⟩ := h (fun pre hpre => hshallow pre (hpre.trans (List.prefix_append ts us)))
    ls₁ hls₁
  have hopen := length_groups_foldlM hread
  -- the groups that are open in between are those that the first tokens leave open
  have hshallow₁ : Shallow r₁.groups.length us := by
    intro pre hpre
    have hboth := hshallow (ts ++ pre) ((List.prefix_append_right_inj ts).mpr hpre)
    rw [countP_token hls₁ Token.isOpening_capped, countP_token hls₁ Token.isClosing_capped] at hopen
    simp only [List.countP_append] at hboth
    omega
  obtain ⟨r₂, hread₂, hQ⟩ := h' r₁ hP hshallow₁ ls₂ hls₂
  refine ⟨r₂, ?_, hQ⟩
  rw [List.foldlM_append, hread]
  exact hread₂

end Takes

/-! ### What becomes of a reader -/

/-- The reader has come to these alternatives, outside of any group that it has opened since, and
has counted so many groups more. -/
structure After (r : Reader) (b : Branches) (k : Nat) (r' : Reader) : Prop where
  branches : r'.settle.branches = b
  groups : r'.groups = r.groups
  count : r'.count = r.count + k

/-- The reader has come to an item that a quantifier may follow. -/
structure Pends (r : Reader) (n : Node) (k : Nat) (r' : Reader) : Prop where
  branches : r'.branches = r.settle.branches
  pending : r'.pending = some n
  groups : r'.groups = r.groups
  count : r'.count = r.count + k

theorem Pends.after {n : Node} {k : Nat} (h : r.Pends n k r') :
    r.After (r.settle.branches.push n) k r' := by
  refine ⟨?_, h.groups, h.count⟩
  rw [settle, h.pending, ← h.branches]

theorem After.trans {b c : Branches} {k l : Nat} {r₁ r₂ : Reader} (h : r.After b k r₁)
    (h' : r₁.After c l r₂) : r.After c (k + l) r₂ :=
  ⟨h'.branches, h'.groups.trans h.groups, by rw [h'.count, h.count, Nat.add_assoc]⟩

/-- A reader that holds nothing back. -/
theorem After.of_settled {b : Branches} {k : Nat} (hbranches : r'.branches = b)
    (hpending : r'.pending = none) (hgroups : r'.groups = r.groups)
    (hcount : r'.count = r.count + k) : r.After b k r' := by
  refine ⟨?_, hgroups, hcount⟩
  rw [settle, hpending, hbranches]

end Reader

/-! ### Numbers of groups -/

/-- Numbers that follow on so many groups. -/
def FollowOn (count : Nat) (is : List Nat) : Prop := is = List.range' (count + 1) is.length

theorem FollowOn.append {count : Nat} {is js : List Nat} (h : FollowOn count (is ++ js)) :
    FollowOn count is ∧ FollowOn (count + is.length) js := by
  have hsplit : is ++ js = List.range' (count + 1) is.length ++
      List.range' (count + is.length + 1) js.length := by
    rw [show count + is.length + 1 = count + 1 + is.length by omega, List.range'_append_1,
      ← List.length_append]
    exact h
  exact List.append_inj hsplit (by simp)

theorem FollowOn.cons {count i : Nat} {is : List Nat} (h : FollowOn count (i :: is)) :
    i = count + 1 ∧ FollowOn (count + 1) is := by
  rw [FollowOn, List.length_cons, List.range'_succ] at h
  exact List.cons.inj h

/-! ### Alternatives -/

namespace Branches

/-- All alternatives, in the order of the text. -/
def all (b : Branches) : List Node := (b.last :: b.finished).reverse

/-- Several alternatives. -/
theorem node_of_two_le {b : Branches} (h : 2 ≤ b.all.length) : b.node = .alt b.all := by
  unfold node
  split
  · next hfinished => simp [all, hfinished] at h
  · rfl

end Branches

/-! ### Reading trees -/

namespace Node

open Reader (Takes Pends After)

variable {multiline : Bool} {groups : Nat} {ts : List Token} {n body : Node} {ns : List Node}

/-- The tokens are read as the tree, and a quantifier may follow. -/
def ReadsAsAtom (multiline : Bool) (ts : List Token) (n : Node) : Prop :=
  ∀ r : Reader, FollowOn r.count n.groupNumbers →
    Takes multiline ts r (r.Pends n.capped n.groupNumbers.length)

/-- The tokens are read as one more item. -/
def ReadsAsTerm (multiline : Bool) (ts : List Token) (n : Node) : Prop :=
  ∀ r : Reader, FollowOn r.count n.groupNumbers →
    Takes multiline ts r (r.After (r.settle.branches.push n.capped) n.groupNumbers.length)

/-- The tokens are read as an alternative, when it has just begun. -/
def ReadsAsBranch (multiline : Bool) (ts : List Token) (n : Node) : Prop :=
  ∀ r : Reader, FollowOn r.count n.groupNumbers → r.settle.branches.items = [] →
    Takes multiline ts r fun r' => ∃ b, r.After b n.groupNumbers.length r' ∧
      b.finished = r.settle.branches.finished ∧ b.last = n.capped

/-- The tokens are read as all that stands in a group, when it has just been opened. -/
def ReadsAsBody (multiline : Bool) (ts : List Token) (n : Node) : Prop :=
  ∀ r : Reader, FollowOn r.count n.groupNumbers → r.settle.branches = {} →
    Takes multiline ts r fun r' => ∃ b, r.After b n.groupNumbers.length r' ∧ b.node = n.capped

theorem ReadsAsAtom.asTerm (h : ReadsAsAtom multiline ts n) : ReadsAsTerm multiline ts n :=
  fun r hnumbered => (h r hnumbered).mono fun _ hr' => hr'.after

theorem ReadsAsTerm.asBranch (h : ReadsAsTerm multiline ts n) : ReadsAsBranch multiline ts n := by
  intro r hnumbered hitems
  refine (h r hnumbered).mono fun r' hr' => ⟨_, hr', rfl, ?_⟩
  rw [Branches.push, Branches.last, hitems]

theorem ReadsAsBranch.asBody (h : ReadsAsBranch multiline ts n) : ReadsAsBody multiline ts n := by
  intro r hnumbered hnew
  refine (h r hnumbered (by rw [hnew])).mono fun r' ⟨b, hr', hfinished, hlast⟩ => ⟨b, hr', ?_⟩
  rw [Branches.node, hfinished, hnew, ← hlast]

/-- What stands between parentheses is read as the group that they make of it. -/
theorem ReadsAsBody.enclose (h : ReadsAsBody multiline ts body) (kind : GroupKind) (r : Reader)
    (hnumbered : FollowOn (if kind = .capture then r.count + 1 else r.count) body.groupNumbers) :
    Takes multiline (.opening (some kind) :: (ts ++ [.closing])) r fun r' =>
      ∃ g : OpenGroup, g.wrap = kind ∧
        g.index = (if kind = .capture then r.count + 1 else r.count) ∧
          r.Pends (g.node body.capped)
            ((if kind = .capture then 1 else 0) + body.groupNumbers.length) r' := by
  have hopening : Takes multiline [.opening (some kind)] r fun r₁ =>
      ∃ offset, r₁ = r.openGroup kind offset := by
    refine .single fun hroom offset => ⟨_, ?_, offset, rfl⟩
    exact if_neg (Nat.not_le_of_lt (hroom rfl))
  refine hopening.append fun r₁ hr₁ => ?_
  obtain ⟨offset, rfl⟩ := hr₁
  have hcount : (r.openGroup kind offset).count =
      if kind = .capture then r.count + 1 else r.count := by simp [Reader.openGroup]
  refine (h (r.openGroup kind offset) (hcount ▸ hnumbered) rfl).append fun r₂ hread => ?_
  obtain ⟨b, hr₂, hnode⟩ := hread
  -- the innermost open group is the one that was opened first
  obtain ⟨g, hg⟩ : ∃ g : OpenGroup,
      g = ⟨kind, (r.openGroup kind offset).count, offset, r.settle.branches⟩ := ⟨_, rfl⟩
  have hgroups : r₂.groups = g :: r.groups := by
    rw [hr₂.groups, hg, Reader.openGroup, Reader.groups_settle]
  refine .single fun _ offset' => ⟨{ r₂ with
      branches := g.around
      pending := some (g.node r₂.settle.branches.node)
      groups := r.groups }, ?_, g, by rw [hg], by rw [hg, ← hcount], ?_⟩
  · show r₂.step multiline ⟨offset', .closing⟩ = _
    rw [Reader.step, hgroups]
  · refine ⟨by rw [hg], ?_, rfl, ?_⟩
    · rw [hr₂.branches, hnode]
    · show r₂.count = _
      rw [hr₂.count, hcount]
      split <;> omega

/-- A tree is read back wherever its tokens may stand. -/
structure Reads (multiline : Bool) (n : Node) : Prop where
  atom : n.isAtom = true → ReadsAsAtom multiline n.tokens n
  term : n.isTerm = true → ReadsAsTerm multiline n.tokens n
  branch : n.isBranch = true → ReadsAsBranch multiline n.tokens n
  body : ReadsAsBody multiline n.tokens n

namespace Reads

theorem of_atom (h : ReadsAsAtom multiline n.tokens n) : n.Reads multiline :=
  ⟨fun _ => h, fun _ => h.asTerm, fun _ => h.asTerm.asBranch, h.asTerm.asBranch.asBody⟩

theorem of_term (hn : n.isAtom = false) (h : ReadsAsTerm multiline n.tokens n) :
    n.Reads multiline :=
  ⟨fun hatom => absurd (hn.symm.trans hatom) Bool.false_ne_true, fun _ => h, fun _ => h.asBranch,
    h.asBranch.asBody⟩

theorem of_branch (hn : n.isTerm = false) (hn' : n.isAtom = false)
    (h : ReadsAsBranch multiline n.tokens n) : n.Reads multiline :=
  ⟨fun hatom => absurd (hn'.symm.trans hatom) Bool.false_ne_true,
    fun hterm => absurd (hn.symm.trans hterm) Bool.false_ne_true, fun _ => h, h.asBody⟩

theorem of_body (hn : n.isBranch = false) (h : ReadsAsBody multiline n.tokens n) :
    n.Reads multiline := by
  cases n with
  | alt items => exact ⟨by rintro ⟨⟩, by rintro ⟨⟩, by rintro ⟨⟩, h⟩
  | _ => cases hn

/-- In a group that leaves no trace a tree may stand where an atom is asked for. -/
theorem enclosed_false (h : n.Reads multiline) :
    ReadsAsAtom multiline (enclosed false n.tokens) n := by
  intro r hnumbered
  refine (h.body.enclose .plain r hnumbered).mono fun r' ⟨g, hwrap, _, hr'⟩ => ?_
  have hnode : g.node n.capped = n.capped := by rw [OpenGroup.node, hwrap]
  rw [hnode] at hr'
  simpa using hr'

theorem enclosed_atom (h : n.Reads multiline) :
    ReadsAsAtom multiline (enclosed n.isAtom n.tokens) n := by
  cases hn : n.isAtom with
  | true => exact h.atom hn
  | false => exact h.enclosed_false

theorem enclosed_term (h : n.Reads multiline) :
    ReadsAsTerm multiline (enclosed n.isTerm n.tokens) n := by
  cases hn : n.isTerm with
  | true => exact h.term hn
  | false => exact h.enclosed_false.asTerm

theorem enclosed_branch (h : n.Reads multiline) :
    ReadsAsBranch multiline (enclosed n.isBranch n.tokens) n := by
  cases hn : n.isBranch with
  | true => exact h.branch hn
  | false => exact h.enclosed_false.asTerm.asBranch

end Reads

/-- Trees in a row are read as items one after the other. -/
theorem reads_rowTokens (hns : ∀ n ∈ ns, n.Reads multiline) (r : Reader)
    (hnumbered : FollowOn r.count (allGroupNumbers ns)) :
    Takes multiline (rowTokens ns) r (r.After
      ⟨r.settle.branches.finished, (allCapped ns).reverse ++ r.settle.branches.items⟩
      (allGroupNumbers ns).length) := by
  induction ns generalizing r with
  | nil => exact .nil ⟨rfl, rfl, rfl⟩
  | cons n ns ih =>
    obtain ⟨hn, hns⟩ := List.forall_mem_cons.mp hns
    obtain ⟨hfirst, hrest⟩ := hnumbered.append
    refine (hn.enclosed_term r hfirst).append fun r₁ hr₁ => ?_
    refine (ih hns r₁ (hr₁.count ▸ hrest)).mono fun r₂ hr₂ => ?_
    have hboth := hr₁.trans hr₂
    rw [hr₁.branches] at hboth
    simpa [allGroupNumbers, allCapped, Branches.push] using hboth

/-- Alternatives are read one after the other. -/
theorem reads_branchTokens (hns : ∀ n ∈ ns, n.Reads multiline) (r : Reader)
    (hnumbered : FollowOn r.count (allGroupNumbers ns)) :
    Takes multiline (branchTokens ns) r fun r' =>
      ∃ b, r.After b (allGroupNumbers ns).length r' ∧
        b.all = r.settle.branches.all ++ allCapped ns := by
  induction ns generalizing r with
  | nil => exact .nil ⟨_, ⟨rfl, rfl, rfl⟩, (List.append_nil _).symm⟩
  | cons n ns ih =>
    obtain ⟨hn, hns⟩ := List.forall_mem_cons.mp hns
    obtain ⟨hfirst, hrest⟩ := hnumbered.append
    have hbar : Takes multiline [.bar] r (r.After r.settle.branches.next 0) :=
      .single fun _ _ => ⟨_, rfl, .of_settled rfl (Reader.pending_settle r)
        (Reader.groups_settle r) (Reader.count_settle r)⟩
    refine hbar.append fun r₁ hr₁ => ?_
    refine (hn.enclosed_branch r₁ (hr₁.count ▸ hfirst) (by rw [hr₁.branches]; rfl)).append
      fun r₂ ⟨b, hr₂, hfinished, hlast⟩ => ?_
    have hcount : r₂.count = r.count + n.groupNumbers.length := by rw [hr₂.count, hr₁.count]; rfl
    refine (ih hns r₂ (hcount ▸ hrest)).mono fun r₃ ⟨c, hr₃, hall⟩ => ⟨c, ?_, ?_⟩
    · have htrans := (hr₁.trans hr₂).trans hr₃
      simpa [allGroupNumbers] using htrans
    · rw [hall, hr₂.branches, Branches.all, hfinished, hlast, hr₁.branches]
      simp [Branches.all, Branches.next, allCapped]

/-- A tree that a token stands for. -/
theorem reads_of_atom (htokens : n.tokens = [.atom n]) (hnumbers : n.groupNumbers = []) :
    ReadsAsAtom multiline n.tokens n := by
  intro r _
  rw [htokens, hnumbers]
  exact .single fun _ _ =>
    ⟨r.hold n.capped, rfl, rfl, rfl, Reader.groups_settle r, Reader.count_settle r⟩

theorem reads_anchor {a : Anchor} (ha : a.Suits multiline) :
    ReadsAsTerm multiline (anchor a).tokens (anchor a) := by
  intro r _
  refine .single fun _ offset => ⟨r.append (.anchor a), ?_, ?_⟩
  · cases a with
    | wordBoundary | notWordBoundary => rfl
    | _ =>
      obtain rfl : multiline = _ := ha
      rfl
  · exact .of_settled rfl (Reader.pending_settle r) (Reader.groups_settle r)
      (Reader.count_settle r)

theorem reads_group {index : Nat} (h : body.Reads multiline) :
    ReadsAsAtom multiline (group index body).tokens (group index body) := by
  intro r hnumbered
  obtain ⟨hindex, hbody⟩ := FollowOn.cons hnumbered
  refine (h.body.enclose .capture r hbody).mono fun r' ⟨g, hwrap, hg, hr'⟩ => ?_
  have hnode : g.node body.capped = (group index body).capped := by
    rw [OpenGroup.node, hwrap, hg, if_pos rfl, ← hindex]
    rfl
  rw [hnode, if_pos rfl, Nat.add_comm] at hr'
  exact hr'

theorem reads_look {negated : Bool} (h : body.Reads multiline) :
    ReadsAsAtom multiline (look negated body).tokens (look negated body) := by
  intro r hnumbered
  refine (h.body.enclose (.look negated) r hnumbered).mono fun r' ⟨g, hwrap, _, hr'⟩ => ?_
  have hnode : g.node body.capped = (look negated body).capped := by
    rw [OpenGroup.node, hwrap]
    rfl
  rw [hnode, if_neg (by rintro ⟨⟩), Nat.zero_add] at hr'
  exact hr'

theorem reads_rep {lower : Nat} {upper : Option Nat} {greedy : Bool} (h : body.Reads multiline) :
    ReadsAsTerm multiline (rep lower upper greedy body).tokens (rep lower upper greedy body) := by
  intro r hnumbered
  refine (h.enclosed_atom r hnumbered).append fun r₁ hr₁ => .single fun _ offset => ?_
  refine ⟨{ r₁ with
    branches := r₁.branches.push (.rep (min lower maxNumber) (upper.map (min · maxNumber)) greedy
      body.capped)
    pending := none }, ?_, .of_settled ?_ rfl hr₁.groups hr₁.count⟩
  · show r₁.step multiline ⟨offset, .quantifier ..⟩ = _
    rw [Reader.step, hr₁.pending]
  · rw [hr₁.branches]
    rfl

theorem reads_empty : ReadsAsBranch multiline empty.tokens empty := by
  intro r _ hitems
  refine .nil ⟨_, ⟨rfl, rfl, rfl⟩, rfl, ?_⟩
  rw [Branches.last, hitems]
  rfl

theorem length_allCapped (ns : List Node) : (allCapped ns).length = ns.length := by
  induction ns with
  | nil => rfl
  | cons n ns ih => exact congrArg (· + 1) ih

theorem reads_seq {items : List Node} (hitems : ∀ n ∈ items, n.Reads multiline)
    (hlong : 2 ≤ items.length) : ReadsAsBranch multiline (seq items).tokens (seq items) := by
  intro r hnumbered hnew
  refine (reads_rowTokens hitems r hnumbered).mono fun r' hr' => ⟨_, hr', rfl, ?_⟩
  rw [hnew, List.append_nil, Branches.last_of_two_le, List.reverse_reverse]
  · rfl
  · rwa [List.length_reverse, length_allCapped]

theorem reads_alt {items : List Node} (hitems : ∀ n ∈ items, n.Reads multiline)
    (hlong : 2 ≤ items.length) : ReadsAsBody multiline (alt items).tokens (alt items) := by
  intro r hnumbered hnew
  cases items with
  | nil => cases hlong
  | cons n ns =>
    obtain ⟨hn, hns⟩ := List.forall_mem_cons.mp hitems
    obtain ⟨hfirst, hrest⟩ := FollowOn.append hnumbered
    -- the first alternative has no bar in front
    refine (hn.enclosed_branch r hfirst (by rw [hnew])).append
      fun r₁ ⟨b, hr₁, hfinished, hlast⟩ => ?_
    refine (reads_branchTokens hns r₁ (hr₁.count ▸ hrest)).mono fun r₂ ⟨c, hr₂, hall⟩ => ⟨c, ?_, ?_⟩
    · have htrans := hr₁.trans hr₂
      simpa [groupNumbers, allGroupNumbers] using htrans
    · have hc : c.all = allCapped (n :: ns) := by
        rw [hall, hr₁.branches, Branches.all, hfinished, hlast, hnew]
        rfl
      rw [Branches.node_of_two_le (by rwa [hc, length_allCapped]), hc]
      rfl

mutual

/-- **Every tree is read back**, with its numbers cut down, wherever its tokens may stand. -/
theorem reads : ∀ n : Node, n.WellFormed groups → n.Expressible multiline → n.Reads multiline
  | empty, _, _ => .of_branch rfl rfl reads_empty
  | unit _, _, _ => .of_atom (reads_of_atom rfl rfl)
  | any, _, _ => .of_atom (reads_of_atom rfl rfl)
  | charClass _ _, _, _ => .of_atom (reads_of_atom rfl rfl)
  | backRef _, _, _ => .of_atom (reads_of_atom rfl rfl)
  | anchor _, _, he => .of_term rfl (reads_anchor he)
  | group _ body, h, he => .of_atom (reads_group (reads body h he))
  | look _ body, h, he => .of_atom (reads_look (reads body h he))
  | rep _ _ _ body, h, he => .of_term rfl (reads_rep (reads body h.2 he))
  | seq items, h, he => .of_branch rfl rfl (reads_seq (allReads items h.2 he) h.1)
  | alt items, h, he => .of_body rfl (reads_alt (allReads items h.2 he) h.1)

theorem allReads : ∀ ns : List Node, AllWellFormed groups ns → AllExpressible multiline ns →
    ∀ n ∈ ns, n.Reads multiline
  | [], _, _ => List.forall_mem_nil _
  | n :: ns, h, he => List.forall_mem_cons.mpr ⟨reads n h.1 he.1, allReads ns h.2 he.2⟩

end

/-! ### Numbers that are small enough -/

mutual

/-- Whether a pattern can express the numbers in a tree. -/
def Fits : Node → Prop
  | backRef i => i ≤ maxNumber
  | group _ body => body.Fits
  | look _ body => body.Fits
  | rep lower upper _ body => lower ≤ maxNumber ∧ (∀ n ∈ upper, n ≤ maxNumber) ∧ body.Fits
  | seq items => AllFit items
  | alt items => AllFit items
  | _ => True

/-- Whether it can express those in all trees in a row. -/
def AllFit : List Node → Prop
  | [] => True
  | n :: ns => n.Fits ∧ AllFit ns

end

mutual

/-- Numbers that a pattern can express are not cut down. -/
theorem capped_eq : ∀ n : Node, n.Fits → n.capped = n
  | backRef _, h => congrArg backRef (Nat.min_eq_left h)
  | group index body, h => congrArg (group index) (capped_eq body h)
  | look negated body, h => congrArg (look negated) (capped_eq body h)
  | rep lower upper _ body, h => by
    obtain ⟨hlower, hupper, hbody⟩ := h
    have hmap : upper.map (min · maxNumber) = upper := by
      cases upper with
      | none => rfl
      | some upper => exact congrArg some (Nat.min_eq_left (hupper upper rfl))
    rw [capped, Nat.min_eq_left hlower, hmap, capped_eq body hbody]
  | seq items, h => congrArg seq (allCapped_eq items h)
  | alt items, h => congrArg alt (allCapped_eq items h)
  | empty, _ | unit _, _ | any, _ | charClass .., _ | anchor _, _ => rfl

theorem allCapped_eq : ∀ ns : List Node, AllFit ns → allCapped ns = ns
  | [], _ => rfl
  | n :: ns, h => by rw [allCapped, capped_eq n h.1, allCapped_eq ns h.2]

end

end Node

/-! ### Patterns as text -/

/-- Nowhere in a text are more than so many parentheses open. -/
def NestsWithin (depth : Nat) (s : List Char) : Prop :=
  ∀ pre, pre <+: s → pre.count '(' ≤ pre.count ')' + depth

instance (depth : Nat) (s : List Char) : Decidable (NestsWithin depth s) :=
  decidable_of_iff (∀ pre ∈ s.inits, pre.count '(' ≤ pre.count ')' + depth)
    (forall_congr' fun _ => by rw [List.mem_inits])

/-- Tokens nest as their texts do. -/
theorem Reader.shallow_of_nestsWithin {groups : Nat} {ts : List Token}
    (hts : ∀ t ∈ ts, t.Spelled groups) (h : NestsWithin maxDepth (ts.flatMap Token.text)) :
    Shallow 0 ts := by
  rintro pre ⟨rest, rfl⟩
  have hspelled : ∀ t ∈ pre, t.Spelled groups := fun t ht => hts t (List.mem_append_left rest ht)
  obtain ⟨hopening, hclosing⟩ := Token.count_texts hspelled
  have hpre := h (pre.flatMap Token.text) ⟨rest.flatMap Token.text, List.flatMap_append.symm⟩
  omega

variable {p : Pattern} {flags : Flags}

/-- A pattern is read back from the text of its tree, with its numbers cut down. -/
theorem parse_text_capped (hp : p.Canonical) (he : p.root.Expressible flags.multiline)
    (hnests : NestsWithin Reader.maxDepth p.root.text) :
    parse (String.ofList p.root.text) flags = .ok ⟨p.root.capped, p.groups⟩ := by
  have hspelled := Node.spelled_tokens p.root hp.wellFormed he
  obtain ⟨ls, hls⟩ : ∃ ls, Lexeme.cut p.groups 0 0 [] p.root.text = ls := ⟨_, rfl⟩
  have hnumbered : FollowOn 0 p.root.groupNumbers := by
    rw [FollowOn, hp.numbers, List.length_range']
  have htokens : ls.map Lexeme.token = p.root.tokens.map Token.capped := by
    rw [← hls]
    exact Lexeme.map_token_cut hspelled 0 []
  obtain ⟨r, hread, b, hr, hnode⟩ := (Node.reads p.root hp.wellFormed he).body {} hnumbered rfl
    (Reader.shallow_of_nestsWithin hspelled hnests) ls htokens
  have hcount : r.count = p.groups := by
    rw [hr.count, hp.numbers, List.length_range', Nat.zero_add]
  -- so many groups were counted ahead
  have hgroups : countGroups false 0 p.root.text = p.groups := by
    rw [← hls] at hread
    obtain ⟨_, hgood, hopened⟩ := Reader.Inv.init.foldlM (Lexeme.sound_cut (by simp)) hread
    rw [Lexeme.countP_cut _ _ _ _ _ hgood] at hopened
    simpa [hcount] using hopened.symm
  rw [parse, String.toList_ofList, Lexeme.ofText, hgroups, hls, hread]
  show r.finish = _
  rw [Reader.finish, hr.groups, hr.branches, hnode, hcount]

/-- **A pattern is read back from the text of its tree.**  Numbers too great for a pattern are cut
down to the greatest one. -/
theorem parse_text (hp : p.Canonical) (he : p.root.Expressible flags.multiline)
    (hnests : NestsWithin Reader.maxDepth p.root.text) :
    parse (String.ofList p.root.text) flags = .ok ⟨p.root.capped, p.groups⟩ ∧
      (p.root.Fits → parse (String.ofList p.root.text) flags = .ok p) := by
  have hcapped := parse_text_capped hp he hnests
  refine ⟨hcapped, fun hfits => ?_⟩
  rw [hcapped, Node.capped_eq p.root hfits]

/-- Groups, a class, a condition, references forward and back, and quantifiers one around the
other. -/
theorem parse_text_mixed :
    let p : Pattern :=
      { root := .seq
          [.anchor .lineStart,
            .rep 0 none false (.group 1 (.alt
              [.seq [.unit 0x61, .unit 0x32], .charClass [⟨0x30, 0x39⟩, ⟨0x5F, 0x5F⟩] true,
                .empty])),
            .look true (.rep 2 (some 3) true (.seq [.any, .backRef 2])),
            .group 2 (.rep 1 (some 0xFFFFFFFF) true (.rep 0 (some 1) false .any)),
            .backRef 1, .unit 0x30]
        groups := 2 }
    let flags : Flags := { multiline := true }
    p.Canonical ∧ p.root.Expressible flags.multiline ∧
      NestsWithin Reader.maxDepth p.root.text ∧ p.root.Fits ∧
      parse (String.ofList p.root.text) flags = .ok p := by
  intro p flags
  have hp : p.Canonical := ⟨rfl, by simp [p, Node.WellFormed, Node.AllWellFormed,
    Interval.Normal, Interval.NormalFrom]⟩
  have he : p.root.Expressible flags.multiline := by
    simp [p, flags, Node.Expressible, Node.AllExpressible, Anchor.Suits, CodeUnit.maxUnit]
  have hnests : NestsWithin Reader.maxDepth p.root.text := by decide +kernel
  have hfits : p.root.Fits := by simp [p, Node.Fits, Node.AllFit, maxNumber]
  exact ⟨hp, he, hnests, hfits, (parse_text hp he hnests).2 hfits⟩

end RegexEngine

import RegexEngine.Pattern.Parse

/-!
# What flags make of a pattern

The flags of a pattern do not decide whether its text is one.  They show in the tree at a single
place: `^` and `$` are conditions on lines or conditions on the whole text.  Where that difference
is taken away, reading under any two sets of flags goes through the same states.

* `Node.unlined`, `Pattern.unlined` — a tree whose conditions on lines are on the whole text.
* `Reader.unlined_step` — a token is read alike where there are no conditions on lines.
* `unlined_parse` — **a text is read alike under any flags.**
* `exists_parse_of_checkSource` — **what was found to be a pattern is one under any flags.**
-/

namespace RegexEngine

/-! ### Conditions on lines -/

/-- The condition on the whole text in place of the one on lines. -/
def Anchor.unlined : Anchor → Anchor
  | lineStart => inputStart
  | lineEnd => inputEnd
  | a => a

namespace Node

mutual

/-- The tree with conditions on the whole text in place of those on lines. -/
def unlined : Node → Node
  | anchor a => anchor a.unlined
  | group index body => group index body.unlined
  | look negated body => look negated body.unlined
  | rep lower upper greedy body => rep lower upper greedy body.unlined
  | seq items => seq (allUnlined items)
  | alt items => alt (allUnlined items)
  | n => n

/-- All of the trees with conditions on the whole text. -/
def allUnlined : List Node → List Node
  | [] => []
  | n :: ns => n.unlined :: allUnlined ns

end

theorem allUnlined_eq (ns : List Node) : allUnlined ns = ns.map unlined := by
  induction ns with
  | nil => rfl
  | cons n ns ih => rw [allUnlined, ih, List.map_cons]

end Node

namespace Branches

/-- All trees of the alternatives with conditions on the whole text. -/
def unlined (b : Branches) : Branches := ⟨b.finished.map Node.unlined, b.items.map Node.unlined⟩

@[simp] theorem unlined_push (b : Branches) (n : Node) :
    (b.push n).unlined = b.unlined.push n.unlined := rfl

theorem unlined_last (b : Branches) : b.last.unlined = b.unlined.last := by
  rcases b with ⟨finished, _ | ⟨n, _ | ⟨m, ns⟩⟩⟩
  · rfl
  · rfl
  · rw [last, Node.unlined, Node.allUnlined_eq, List.map_reverse]
    rfl

@[simp] theorem unlined_next (b : Branches) : b.next.unlined = b.unlined.next := by
  rw [next, next, ← unlined_last]
  rfl

theorem unlined_node (b : Branches) : b.node.unlined = b.unlined.node := by
  have hlast := b.unlined_last
  rcases b with ⟨_ | ⟨n, ns⟩, items⟩
  · exact hlast
  · rw [node, node, Node.unlined, Node.allUnlined_eq, List.map_reverse, List.map_cons, hlast]
    rfl

end Branches

namespace OpenGroup

/-- The open group with conditions on the whole text around it. -/
def unlined (g : OpenGroup) : OpenGroup := { g with around := g.around.unlined }

theorem unlined_node (g : OpenGroup) (body : Node) :
    (g.node body).unlined = g.unlined.node body.unlined := by
  rcases g with ⟨_ | _ | _, index, offset, around⟩ <;> rfl

end OpenGroup

namespace Reader

/-- The reader with conditions on the whole text in all that it has read. -/
def unlined (r : Reader) : Reader :=
  ⟨r.branches.unlined, r.pending.map Node.unlined, r.groups.map OpenGroup.unlined, r.count⟩

variable {r r' : Reader}

theorem unlined_settle (r : Reader) : r.settle.unlined = r.unlined.settle := by
  rcases r with ⟨branches, _ | n, groups, count⟩ <;> rfl

theorem unlined_hold (r : Reader) (n : Node) :
    (r.hold n).unlined = r.unlined.hold n.unlined := by
  rw [hold, hold, ← unlined_settle]
  rfl

theorem unlined_append (r : Reader) (n : Node) :
    (r.append n).unlined = r.unlined.append n.unlined := by
  rw [append, append, ← unlined_settle]
  rfl

theorem unlined_openGroup (r : Reader) (kind : GroupKind) (offset : Nat) :
    (r.openGroup kind offset).unlined = r.unlined.openGroup kind offset := by
  rw [openGroup, openGroup, ← unlined_settle]
  rfl

@[simp] theorem length_groups_unlined (r : Reader) :
    r.unlined.groups.length = r.groups.length := List.length_map _

theorem unlined_quantify (r : Reader) (lower : Nat) (upper : Option Nat) (greedy : Bool)
    (n : Node) (pending : Option Node) :
    ({ r with branches := r.branches.push (.rep lower upper greedy n), pending } : Reader).unlined =
      { r.unlined with
        branches := r.unlined.branches.push (.rep lower upper greedy n.unlined)
        pending := pending.map Node.unlined } := by
  rw [unlined, Branches.unlined_push, Node.unlined]
  rfl

theorem unlined_closeGroup (r : Reader) (g : OpenGroup) (groups : List OpenGroup) :
    ({ r with
      branches := g.around
      pending := some (g.node r.settle.branches.node)
      groups } : Reader).unlined =
      { r.unlined with
        branches := g.unlined.around
        pending := some (g.unlined.node r.unlined.settle.branches.node)
        groups := groups.map OpenGroup.unlined } := by
  rw [unlined, Option.map_some, OpenGroup.unlined_node, Branches.unlined_node, ← unlined_settle]
  rfl

theorem unlined_nextBranch (r : Reader) :
    ({ r.settle with branches := r.settle.branches.next } : Reader).unlined =
      { r.unlined.settle with branches := r.unlined.settle.branches.next } := by
  rw [unlined, Branches.unlined_next, ← unlined_settle]
  rfl

end Reader

/-- The token with conditions on the whole text in its tree, if it is a tree. -/
def Lexeme.unlined (l : Lexeme) : Lexeme :=
  match l.token with
  | .atom n => ⟨l.offset, .atom n.unlined⟩
  | _ => l

/-- Taking the conditions on lines away from what is read of a token, and reading it where such
conditions are never set, are the same; a flaw is found in both ways or in neither. -/
theorem Reader.unlined_step (multiline : Bool) (r : Reader) (lexeme : Lexeme) :
    (r.step multiline lexeme).map unlined = r.unlined.step false lexeme.unlined := by
  rcases lexeme with ⟨offset, token⟩
  cases token with
  | atom n => exact congrArg Except.ok (unlined_hold r n)
  | surrogates lead trail =>
    refine congrArg Except.ok ?_
    rw [unlined_hold, unlined_append]
    rfl
  | caret =>
    -- here, and at the end of a line, the settings show
    refine congrArg Except.ok ((unlined_append r _).trans ?_)
    cases multiline <;> rfl
  | dollar =>
    refine congrArg Except.ok ((unlined_append r _).trans ?_)
    cases multiline <;> rfl
  | boundary negated =>
    refine congrArg Except.ok ((unlined_append r _).trans ?_)
    cases negated <;> rfl
  | quantifier lower upper greedy =>
    rcases r with ⟨branches, _ | n, groups, count⟩
    · rfl
    · exact congrArg Except.ok (unlined_quantify _ lower upper greedy n none)
  | opening kind =>
    simp only [step, Lexeme.unlined, length_groups_unlined]
    split
    · rfl
    · cases kind with
      | none => rfl
      | some kind => exact congrArg Except.ok (unlined_openGroup r kind offset)
  | closing =>
    rcases r with ⟨branches, pending, _ | ⟨g, groups⟩, count⟩
    · rfl
    · exact congrArg Except.ok (unlined_closeGroup _ g groups)
  | bar => exact congrArg Except.ok (unlined_nextBranch r)
  | flaw ahead f => rfl

theorem Reader.unlined_foldlM (multiline : Bool) (lexemes : List Lexeme) (r : Reader) :
    (lexemes.foldlM (step multiline) r).map unlined =
      (lexemes.map Lexeme.unlined).foldlM (step false) r.unlined := by
  induction lexemes generalizing r with
  | nil => rfl
  | cons l lexemes ih =>
    rw [List.map_cons, List.foldlM_cons, List.foldlM_cons, ← unlined_step multiline]
    cases r.step multiline l with
    | error f => rfl
    | ok r' => exact ih r'

/-! ### Patterns -/

/-- The pattern with conditions on the whole text in place of those on lines. -/
def Pattern.unlined (p : Pattern) : Pattern := { p with root := p.root.unlined }

theorem Reader.unlined_finish (r : Reader) : r.finish.map Pattern.unlined = r.unlined.finish := by
  rcases r with ⟨branches, pending, _ | ⟨g, groups⟩, count⟩
  · refine congrArg Except.ok ?_
    rw [Pattern.unlined, Branches.unlined_node]
    rw [← unlined_settle]
    rfl
  · rfl

/-- **A text is read alike under any flags.**  Under all of them it has the same flaw at the same
place, or under all of them it is a pattern with the same number of groups and with the same tree,
but for what `^` and `$` stand for. -/
theorem unlined_parse (source : String) (flags flags' : Flags) :
    (parse source flags).map Pattern.unlined = (parse source flags').map Pattern.unlined := by
  have hread : ∀ fs : Flags, (parse source fs).map Pattern.unlined =
      ((Lexeme.ofText source.toList).map Lexeme.unlined).foldlM (Reader.step false)
        (Reader.unlined {}) >>= Reader.finish := by
    intro fs
    rw [← Reader.unlined_foldlM fs.multiline, parse]
    cases (Lexeme.ofText source.toList).foldlM (Reader.step fs.multiline) {} with
    | error f => rfl
    | ok r => exact r.unlined_finish
  rw [hread flags, hread flags']

/-- **What was found to be a pattern is one under any flags.** -/
theorem exists_parse_of_checkSource {source : String} (h : checkSource source = .ok ())
    (flags : Flags) : ∃ p, parse source flags = .ok p := by
  have halike := unlined_parse source flags .empty
  unfold checkSource at h
  cases hempty : parse source .empty with
  | error f =>
    rw [hempty] at h
    cases h
  | ok p =>
    rw [hempty] at halike
    cases hflags : parse source flags with
    | error f =>
      rw [hflags] at halike
      cases halike
    | ok p' => exact ⟨p', rfl⟩

end RegexEngine

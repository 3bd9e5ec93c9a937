import RegexEngine.Proofs.Engine.Offsets

/-!
# Sticky execution

A sticky record has the pattern of the record without that flag, bound to the start of what it is
run over: the rest of the text from the offset on.  So it finds what the other record finds there,
if that is a match at the start, and nothing otherwise.  Its pairs are moved back to their places
in the text.

* `Pattern.trails_anchored` — a bound pattern has trails at the start only.
* `Outcome.Finds.eq_of_pinned`, `Outcome.Finds.pos_of_pinned` — a search against the one that is
  bound to the start.
* `Record.Reached.execute_tells` — **what an execution tells of its search.**
* `Record.execute_sticky` — **sticky execution is the search in the rest of the text, pinned to its
  start.**
-/

namespace RegexEngine

/-- Of the flags only one counts for what a source means. -/
theorem parse_congr {flags flags' : Flags} (h : flags'.multiline = flags.multiline)
    (source : String) : parse source flags' = parse source flags := by
  rw [parse, parse, h]

/-! ### Patterns that are bound to the start -/

/-- The trails at the start alone. -/
def pinned (trailsAt : Nat → List Trail) (q : Nat) : List Trail := if q = 0 then trailsAt q else []

/-- **A pattern that is bound to the start has the same trails there and none elsewhere.** -/
theorem Pattern.trails_anchored (p : Pattern) (text : Text) (folded : Bool) :
    (fun q => p.anchored.root.trails text folded (.init q)) =
      pinned fun q => p.root.trails text folded (.init q) := by
  funext q
  have hseq : p.anchored.root.trails text folded (.init q) =
      (if (q == 0) = true then [Trail.init q] else []).flatMap fun x =>
        (p.root.trails text folded x).flatMap fun y => [y] := rfl
  rw [hseq, pinned]
  by_cases hq : q = 0
  · rw [if_pos (beq_iff_eq.2 hq), if_pos hq, List.flatMap_singleton, List.flatMap_singleton']
  · rw [if_neg fun h => hq (beq_iff_eq.1 h), if_neg hq]
    rfl

namespace Outcome

variable {groups size : Nat} {trailsAt : Nat → List Trail} {found found' : Array Pair}

/-- A match of a bound pattern is at the start. -/
theorem Finds.trail_of_pinned (h : (matched found).Finds groups (pinned trailsAt) 0 size) :
    ∃ y rest, trailsAt 0 = y :: rest ∧ found = y.pairs groups 0 := by
  obtain ⟨q, y, rest, -, -, htrails, hfound, -⟩ := h
  rw [pinned] at htrails
  split at htrails
  · next hq =>
    subst hq
    exact ⟨y, rest, htrails, hfound⟩
  · cases htrails

/-- Where the bound pattern has a match, so has the pattern itself, and it is the same. -/
theorem Finds.eq_of_pinned (h : (matched found).Finds groups trailsAt 0 size)
    (h' : (matched found').Finds groups (pinned trailsAt) 0 size) :
    found' = found ∧ ∃ last, found[0]? = some (.span 0 last) := by
  obtain ⟨y, rest, htrails, rfl⟩ := h'.trail_of_pinned
  obtain ⟨q, z, rest', -, -, htrails', rfl, hbefore⟩ := h
  -- the first position that has a trail is the start
  have hq : q = 0 := by
    by_contra hne
    rw [hbefore 0 (Nat.le_refl 0) (Nat.pos_of_ne_zero hne)] at htrails
    cases htrails
  subst hq
  rw [htrails] at htrails'
  cases htrails'
  exact ⟨rfl, y.pos, by simp [Trail.pairs, Trail.pair]⟩

/-- Where the bound pattern has no match, a match of the pattern itself lies behind the start. -/
theorem Finds.pos_of_pinned (h : (matched found).Finds groups trailsAt 0 size)
    (h' : noMatch.Finds groups (pinned trailsAt) 0 size) :
    ∃ first last, 0 < first ∧ found[0]? = some (.span first last) := by
  obtain ⟨q, y, rest, -, -, htrails, rfl, -⟩ := h
  refine ⟨q, y.pos, Nat.pos_of_ne_zero fun hq => ?_, by simp [Trail.pairs, Trail.pair]⟩
  subst hq
  have hnone : trailsAt 0 = [] := h' 0 (Nat.le_refl 0) (Nat.zero_le size)
  rw [htrails] at hnone
  cases hnone

/-- Where the pattern has no match, nor has the bound one. -/
theorem Finds.not_pinned (h : noMatch.Finds groups trailsAt 0 size) :
    ¬(matched found).Finds groups (pinned trailsAt) 0 size := by
  intro h'
  obtain ⟨y, rest, htrails, -⟩ := h'.trail_of_pinned
  rw [h 0 (Nat.le_refl 0) (Nat.zero_le size)] at htrails
  cases htrails

end Outcome

/-! ### Executions -/

theorem Pair.shift_zero (q : Pair) : q.shift 0 = q := by
  rw [shift]
  split
  · rfl
  · simp

/-- Located pairs are moved by as much as they should be. -/
theorem Located.pairs_displace {start size groups n : Nat} {pairs : Array Pair}
    (h : Located start size groups pairs) (hn : size + n < 0x80000000) {b : Buffer}
    (hb : b.pairs = pairs) : (b.displace n).pairs = pairs.map (·.shift n) := by
  obtain ⟨first, hall⟩ := h.exists_inside
  have hmoved : pairs.map (·.displace n) = pairs.map (·.shift n) :=
    Array.map_congr_left fun q hq => ((hall q hq).displace hn).1
  rw [Buffer.displace]
  split
  · next hzero =>
    rw [hzero, hb, funext Pair.shift_zero, Array.map_id']
  · rw [← hmoved, ← hb]

namespace Record

variable {o : Options} {r r' : Record} {limits : Limits} {i i' : Interrupts} {t : Text}
  {start : Nat} {b b' : Buffer} {a a' : Status}

/-- A status tells of a search whether there was a match, and the buffer holds its pairs, moved to
the right by `shift`. -/
def Execution.Tells (e : Execution) (groups : Nat) (trailsAt : Nat → List Trail)
    (first last shift : Nat) : Status → Prop
  | .success => ∃ found c, (Outcome.matched found).Finds groups trailsAt first last ∧
      e.buffer = some c ∧ c.pairs = found.map (·.shift shift)
  | .notFound => Outcome.noMatch.Finds groups trailsAt first last

theorem bounds_of_checkBounds (h : checkBounds t start = .ok ()) :
    t.size ≤ maxTextSize ∧ start ≤ t.size := by
  rw [checkBounds] at h
  split at h
  · cases h
  · split at h
    · cases h
    · omega

/-- What an execution of a compiled record tells of its search. -/
theorem Sound.executeCompiled_tells (h : r.Sound o)
    (hcompiled : r.isCompiled .normal t.width = true)
    (ha : (r.executeCompiled .normal limits i t start (some b)).result = .ok a) :
    ∃ p, parse r.source r.flags = .ok p ∧
      (r.executeCompiled .normal limits i t start (some b)).Tells p.groups
        (fun q => (r.anchoredIfSticky p).root.trails (r.view t start) r.flags.ignoreCase (.init q))
        (start - r.displacement start) (r.view t start).size (r.displacement start) a := by
  cases hbounds : checkBounds t start with
  | error e =>
    rw [executeCompiled, hbounds] at ha
    cases ha
  | ok _ =>
    obtain ⟨hsize, hstart⟩ := bounds_of_checkBounds hbounds
    rcases r.prepare_cases b with hmisuse | ⟨b₁, hprepare, hpairs⟩
    · rw [executeCompiled, hbounds, hmisuse] at ha
      cases ha
    · rw [← width_view r t start] at hcompiled
      obtain ⟨p, hparse, hgroups, hfinds⟩ := h.search_finds hcompiled
      refine ⟨p, hparse, ?_⟩
      have hfinds := hfinds limits i (start - r.displacement start)
      obtain ⟨hanswer, -⟩ := executeCompiled_eq hbounds hprepare .normal limits i
      have hresult := congrArg Prod.fst hanswer
      have hbuffer := congrArg (·.2.2) hanswer
      dsimp only [Execution.answer, Option.map, Option.getD] at hresult hbuffer
      rw [hpairs] at hresult hbuffer
      rw [ha] at hresult
      -- what is reported depends on how the search ends
      cases houtcome : (r.search .normal limits i (r.view t start) (start - r.displacement start)
        (Array.replicate r.pairCount .undefined)).1 with
      | matched found =>
        rw [houtcome] at hfinds hresult hbuffer
        dsimp only [concluded, report] at hresult hbuffer
        split at hresult
        · cases hresult
          have hshort : (r.view t start).size + r.displacement start < 0x80000000 :=
            (r.view_bounds hstart).2 ▸ Nat.lt_succ_of_le hsize
          exact ⟨found, _, hfinds, hbuffer, hfinds.located.pairs_displace hshort rfl⟩
        · cases hresult
      | noMatch =>
        rw [houtcome] at hfinds hresult
        cases hresult
        exact hfinds
      | interrupted =>
        rw [houtcome] at hresult
        cases hresult
      | failed f =>
        rw [houtcome] at hresult
        cases hresult

/-- **What an execution with a buffer that ends with a status tells of its search**: the search is
that for the pattern of the record, in the part of the text that it is run over. -/
theorem Reached.execute_tells (hr : r.Reached o)
    (ha : (r.execute o.generator limits i t start (some b)).result = .ok a) :
    ∃ p, parse r.source r.flags = .ok p ∧
      (r.execute o.generator limits i t start (some b)).Tells p.groups
        (fun q => (r.anchoredIfSticky p).root.trails (r.view t start) r.flags.ignoreCase (.init q))
        (start - r.displacement start) (r.view t start).size (r.displacement start) a := by
  have hcompiles := hr.sound.compiles_ifNecessary .normal t.width
  have hexecute : r.execute o.generator limits i t start (some b) = _ := execute_eq r o.generator
  dsimp only [modeFor, Option.isSome] at hexecute
  rw [if_pos rfl] at hexecute
  rw [hexecute] at ha ⊢
  rcases hx : r.compileIfNecessary .normal t.width o.generator with ⟨_ | _, r₁⟩
  · rw [hx] at ha
    cases ha
  · rw [hx] at ha hcompiles
    have htells := hcompiles.sound.executeCompiled_tells (hcompiles.isCompiled rfl) ha
    have hsource : r₁.source = r.source := hcompiles.source
    have hflags : r₁.flags = r.flags := hcompiles.flags
    have hview : r₁.view t start = r.view t start := view_congr hflags t start
    have hshift : r₁.displacement start = r.displacement start := displacement_congr hflags start
    simpa only [hsource, hflags, hview, hshift, anchoredIfSticky_congr hflags] using htells

/-- **Sticky execution is the search in the rest of the text, pinned to its start.**  Take two
records for one source whose flags differ in this flag only, whatever has happened to them before.
Run the one without it over the rest of a text from an offset on, and the sticky one over the whole
text from this offset, both with a buffer and interrupted as often as may be.  If both end with a
status, the sticky one succeeds if and only if the other one does with a match at the very start;
and then its pairs are those of the other one, moved to their places in the text, and its match
begins at the offset. -/
theorem execute_sticky (hr : r.Reached o) (hr' : r'.Reached o) (hsource : r'.source = r.source)
    (hplain : r.flags.sticky = false) (hflags : r'.flags = { r.flags with sticky := true })
    (ha : (r.execute o.generator limits i (t.drop start) 0 (some b)).result = .ok a)
    (ha' : (r'.execute o.generator limits i' t start (some b')).result = .ok a') :
    (a' = .success ↔ a = .success ∧ ∃ c q,
      (r.execute o.generator limits i (t.drop start) 0 (some b)).buffer = some c ∧
        c.pairs[0]? = some q ∧ q.start = 0) ∧
    (a' = .success → ∃ c c' q,
      (r.execute o.generator limits i (t.drop start) 0 (some b)).buffer = some c ∧
        (r'.execute o.generator limits i' t start (some b')).buffer = some c' ∧
        c'.pairs = c.pairs.map (·.shift start) ∧ c'.pairs[0]? = some q ∧
        q.start = (start : Int)) := by
  obtain ⟨p, hparse, htells⟩ := hr.execute_tells ha
  obtain ⟨p', hparse', htells'⟩ := hr'.execute_tells ha'
  -- both search for one pattern in the rest of the text, the second one pinned to the start
  have hmultiline : r'.flags.multiline = r.flags.multiline := by rw [hflags]
  have hcase : r'.flags.ignoreCase = r.flags.ignoreCase := by rw [hflags]
  have hsticky : r'.flags.sticky = true := by rw [hflags]
  rw [hsource, parse_congr hmultiline, hparse] at hparse'
  obtain rfl := Except.ok.inj hparse'
  simp only [anchoredIfSticky, view, displacement, hplain, Bool.false_eq_true, if_false,
    Nat.sub_zero] at htells
  simp only [anchoredIfSticky, view, displacement, hsticky, if_true, hcase, Nat.sub_self,
    Pattern.trails_anchored] at htells'
  cases a with
  | notFound =>
    cases a' with
    | notFound => simp
    | success =>
      obtain ⟨found', c', hfinds', -⟩ := htells'
      exact absurd hfinds' (Outcome.Finds.not_pinned htells)
  | success =>
    obtain ⟨found, c, hfinds, hbuffer, hpairs⟩ := htells
    rw [funext Pair.shift_zero, Array.map_id'] at hpairs
    cases a' with
    | notFound =>
      obtain ⟨first, last, hpos, hzero⟩ := hfinds.pos_of_pinned htells'
      refine ⟨⟨fun h => (by cases h), ?_⟩, fun h => by cases h⟩
      rintro ⟨-, c₁, q, hc₁, hq, hstart⟩
      -- the match of the first one is behind the start
      obtain rfl := Option.some.inj (hbuffer.symm.trans hc₁)
      rw [hpairs, hzero] at hq
      obtain rfl := Option.some.inj hq
      have hfirst : (first : Int) = 0 := hstart
      omega
    | success =>
      obtain ⟨found', c', hfinds', hbuffer', hpairs'⟩ := htells'
      obtain ⟨rfl, last, hzero⟩ := hfinds.eq_of_pinned hfinds'
      have hzero' : c'.pairs[0]? = some ((Pair.span 0 last).shift start) := by
        rw [hpairs', Array.getElem?_map, hzero, Option.map_some]
      have hstart : ((Pair.span 0 last).shift start).start = start := by
        rw [Pair.shift, Pair.isUndefined_span, if_neg Bool.false_ne_true]
        exact Int.zero_add _
      rw [← hpairs] at hzero hpairs'
      exact ⟨⟨fun _ => ⟨rfl, c, _, hbuffer, hzero, rfl⟩, fun _ => rfl⟩,
        fun _ => ⟨c, c', _, hbuffer, hbuffer', hpairs', hzero', hstart⟩⟩

/-- A new record for `(a)?(b)c`. -/
def optional : Record := { source := "(a)?(b)c", flags := .empty }

/-- The sticky one for the same source. -/
def optionalSticky : Record := { source := "(a)?(b)c", flags := { sticky := true } }

/-- The executions of the two over `xbc` from offset 1 on; the first group takes no part. -/
theorem execute_sticky_optional :
    let t : Text := .ofUnits .latin1 #[120, 98, 99]
    optional.Reached {} ∧ optionalSticky.Reached {} ∧ optionalSticky.source = optional.source ∧
      optional.flags.sticky = false ∧
      optionalSticky.flags = { optional.flags with sticky := true } ∧
      (optional.execute (Options.generator {}) {} {} (t.drop 1) 0
        (some { fixed := false })).result = .ok .success ∧
      (optionalSticky.execute (Options.generator {}) {} {} t 1
        (some { fixed := true })).result = .ok .success ∧
      ∃ c c' q,
        (optional.execute (Options.generator {}) {} {} (t.drop 1) 0
          (some { fixed := false })).buffer = some c ∧
        (optionalSticky.execute (Options.generator {}) {} {} t 1
          (some { fixed := true })).buffer = some c' ∧
        c.pairs = #[.span 0 2, .undefined, .span 0 1] ∧
        c'.pairs = c.pairs.map (·.shift 1) ∧ c'.pairs[0]? = some q ∧ q.start = 1 := by
  intro t
  have hreached : optional.Reached {} := .fresh _ _
  have hreached' : optionalSticky.Reached {} := .fresh _ _
  have hresult : (optional.execute (Options.generator {}) {} {} (t.drop 1) 0
      (some { fixed := false })).result = .ok .success := by
    decide +kernel
  have hresult' : (optionalSticky.execute (Options.generator {}) {} {} t 1
      (some { fixed := true })).result = .ok .success := by
    decide +kernel
  have hpairs : (optional.execute (Options.generator {}) {} {} (t.drop 1) 0
      (some { fixed := false })).buffer =
        some { fixed := false, pairs := #[.span 0 2, .undefined, .span 0 1] } := by
    decide +kernel
  obtain ⟨-, hmoved⟩ := execute_sticky hreached hreached' rfl rfl rfl hresult hresult'
  obtain ⟨c, c', q, hbuffer, hbuffer', hmap, hzero, hstart⟩ := hmoved rfl
  have hc := Option.some.inj (hbuffer.symm.trans hpairs)
  exact ⟨hreached, hreached', rfl, rfl, rfl, hresult, hresult', c, c', q, hbuffer, hbuffer',
    congrArg Buffer.pairs hc, hmap, hzero, hstart⟩

end Record

end RegexEngine

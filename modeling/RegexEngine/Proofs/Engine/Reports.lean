import RegexEngine.Proofs.Engine.Records

/-!
# What becomes of a search

An execution of a record that is compiled makes one search and tells the host of it.  So executions
can be compared by comparing searches.

* `Record.search_of_literal`, `Record.search_of_slot` — a search with what a record holds.
* `Record.concluded` — what the host is told of a search.
* `Record.executeCompiled_eq` — **an execution of a compiled record is one search.**
* `Record.executeCompiled_congr` — **executions that find the same report the same.**
-/

namespace RegexEngine

/-- The answer of a search for a literal. -/
def Literal.search (l : Literal) (t : Text) (start : Nat) (pairs : Array Pair) : Outcome :=
  match l.find? t start with
  | none => .noMatch
  | some found => .matched (pairs.setIfInBounds 0 (.span found (found + l.size)))

namespace Record

variable {r r' : Record} {mode : Mode} {limits : Limits} {i i' : Interrupts} {t t' : Text}
  {start : Nat} {buffer : Option Buffer}

/-! ### Searches -/

theorem search_of_literal {l : Literal} (hliteral : r.literal = some l) (mode : Mode)
    (limits : Limits) (i : Interrupts) (t : Text) (start : Nat) (pairs : Array Pair) :
    r.search mode limits i t start pairs = (l.search t start pairs, r, i) := by
  unfold search Literal.search
  rw [hliteral]
  dsimp only
  cases l.find? t start <;> rfl

theorem search_of_slot (hnone : r.literal = none) {c : Code}
    (hslot : r.slots.get mode t.width = some c)
    (limits : Limits) (i : Interrupts) (start : Nat) (pairs : Array Pair) :
    r.search mode limits i t start pairs =
      let x := searchCode r.tables limits t start pairs (maxRuns limits) c i
      (x.1, { r with slots := r.slots.set mode t.width x.2.1 }, x.2.2) := by
  unfold search
  rw [hnone, hslot]

/-! ### Executions -/

/-- Nothing is compiled that is there already. -/
theorem execute_of_isCompiled (h : r.isCompiled (modeFor buffer) t.width = true) (g : Generator) :
    r.execute g limits i t start buffer =
      r.executeCompiled (modeFor buffer) limits i t start buffer := by
  rw [execute_eq, compileIfNecessary, if_pos h]

/-- A buffer is prepared with an undefined pair for each group, or the caller has misused it. -/
theorem prepare_cases (r : Record) (b : Buffer) :
    r.prepare (some b) = .error .misuse ∨ ∃ b', r.prepare (some b) = .ok (some b') ∧
      b'.pairs = Array.replicate r.pairCount .undefined := by
  have hpos : r.pairCount ≠ 0 := Nat.succ_ne_zero r.groups
  rw [prepare, Buffer.init, if_neg hpos, Buffer.resize]
  split
  · split
    · exact Or.inr ⟨_, rfl, rfl⟩
    · exact Or.inl rfl
  · exact Or.inr ⟨_, rfl, rfl⟩

/-- What the host of an execution is told, the record and the buffer included. -/
def Execution.answer (e : Execution) : Except Failure Status × Record × Option Buffer :=
  (e.result, e.record, e.buffer)

/-- What the host is told of a search. -/
def concluded (shift size : Nat) (buffer : Option Buffer) :
    Outcome × Record → Except Failure Status × Record × Option Buffer
  | (.matched pairs, r) =>
    ((report pairs shift size buffer).1, r, (report pairs shift size buffer).2)
  | (.noMatch, r) => (.ok .notFound, r, buffer)
  | (.interrupted, r) => (.error (.error .interrupted), r, buffer)
  | (.failed f, r) => (.error f, r, buffer)

theorem record_concluded (shift size : Nat) (buffer : Option Buffer) (outcome : Outcome)
    (r : Record) : (concluded shift size buffer (outcome, r)).2.1 = r := by
  cases outcome <;> rfl

/-- A buffer that was prepared has undefined pairs only. -/
theorem undefined_of_prepare {b : Option Buffer} (h : r.prepare buffer = .ok b) :
    ∀ b', b = some b' → ∀ q ∈ b'.pairs, q = .undefined := by
  intro b' hb' q hq
  cases buffer with
  | none =>
    cases h
    cases hb'
  | some given =>
    rcases r.prepare_cases given with hmisuse | ⟨b'', hprepare, hpairs⟩
    · rw [hmisuse] at h
      cases h
    · rw [hprepare] at h
      cases h
      cases hb'
      rw [hpairs] at hq
      exact (Array.mem_replicate.1 hq).2

/-- A record that is compiled is executed by one search. -/
theorem executeCompiled_eq (hbounds : checkBounds t start = .ok ()) {b : Option Buffer}
    (hprepare : r.prepare buffer = .ok b) (mode : Mode) (limits : Limits) (i : Interrupts) :
    let x := r.search mode limits i (r.view t start) (start - r.displacement start)
      ((b.map Buffer.pairs).getD #[])
    (r.executeCompiled mode limits i t start buffer).answer =
        concluded (r.displacement start) t.size b (x.1, x.2.1) ∧
      (r.executeCompiled mode limits i t start buffer).interrupts = x.2.2 := by
  dsimp only
  rw [executeCompiled, hbounds, hprepare]
  dsimp only
  rcases r.search mode limits i (r.view t start) (start - r.displacement start)
    ((b.map Buffer.pairs).getD #[]) with ⟨outcome, r', i'⟩
  cases outcome <;> exact ⟨rfl, rfl⟩

/-- What is reported of a search does not depend on the record. -/
theorem concluded_congr (shift size : Nat) (buffer : Option Buffer) (outcome : Outcome)
    (r r' : Record) :
    (concluded shift size buffer (outcome, r')).1 = (concluded shift size buffer (outcome, r)).1 ∧
      (concluded shift size buffer (outcome, r')).2.2 =
        (concluded shift size buffer (outcome, r)).2.2 := by
  cases outcome <;> exact ⟨rfl, rfl⟩

/-- **What is reported depends on what is found only**: executions that find the same in texts of
the same size report the same. -/
theorem executeCompiled_congr (hgroups : r'.groups = r.groups) (hflags : r'.flags = r.flags)
    (hsize : t'.size = t.size)
    (h : ∀ pairs : Array Pair, (∀ q ∈ pairs, q = .undefined) →
      (r'.search mode limits i' (r'.view t' start) (start - r.displacement start) pairs).1 =
        (r.search mode limits i (r.view t start) (start - r.displacement start) pairs).1) :
    (r'.executeCompiled mode limits i' t' start buffer).result =
        (r.executeCompiled mode limits i t start buffer).result ∧
      (r'.executeCompiled mode limits i' t' start buffer).buffer =
        (r.executeCompiled mode limits i t start buffer).buffer := by
  have hbounds : checkBounds t' start = checkBounds t start := by
    rw [checkBounds, checkBounds, hsize]
  have hshift : r'.displacement start = r.displacement start := displacement_congr hflags start
  have hprepare : r'.prepare buffer = r.prepare buffer := by
    cases buffer with
    | none => rfl
    | some b => rw [prepare, prepare, pairCount, pairCount, hgroups]
  cases hb : checkBounds t start with
  | error e =>
    rw [executeCompiled, executeCompiled, hbounds, hb]
    exact ⟨rfl, rfl⟩
  | ok _ =>
    cases hp : r.prepare buffer with
    | error f =>
      rw [executeCompiled, executeCompiled, hbounds, hb, hprepare, hp]
      exact ⟨rfl, rfl⟩
    | ok b =>
      have hundefined : ∀ q ∈ (b.map Buffer.pairs).getD #[], q = .undefined := by
        cases b with
        | none => exact fun q hq => absurd hq (Array.not_mem_empty q)
        | some b' => exact undefined_of_prepare hp b' rfl
      obtain ⟨hanswer, -⟩ := executeCompiled_eq hb hp mode limits i
      obtain ⟨hanswer', -⟩ :=
        executeCompiled_eq (hbounds.trans hb) (hprepare.trans hp) mode limits i'
      rw [hshift, h _ hundefined, hsize] at hanswer'
      obtain ⟨hresult, hbuffer⟩ := concluded_congr (r.displacement start) t.size b
        (r.search mode limits i (r.view t start) (start - r.displacement start)
          ((b.map Buffer.pairs).getD #[])).1
        (r.search mode limits i (r.view t start) (start - r.displacement start)
          ((b.map Buffer.pairs).getD #[])).2.1
        (r'.search mode limits i' (r'.view t' start) (start - r.displacement start)
          ((b.map Buffer.pairs).getD #[])).2.1
      exact ⟨(congrArg Prod.fst hanswer').trans (hresult.trans (congrArg Prod.fst hanswer).symm),
        (congrArg (·.2.2) hanswer').trans (hbuffer.trans (congrArg (·.2.2) hanswer).symm)⟩

end Record

end RegexEngine

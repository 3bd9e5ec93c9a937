import Mathlib.Data.List.Basic
import RegexEngine.Proofs.Match.Ordered
import RegexEngine.Proofs.Match.Safety
import RegexEngine.Proofs.Program.Fragment

/-!
# What fragments do

A thread is what a run carries from one instruction to the next: its position and the capture
slots.  A fragment turns a thread into the ordered list of threads that leave it, each one tried
if the code behind fails with those before it.  There are neither registers nor a stack here.

* `Thread` — a position and capture slots.
* `Fragment.threads` — the ordered outcomes of a fragment.
* `Fragment.fits_of_mem_threads` — outcomes stay in the text and do not go back.
* `Fragment.lt_of_consumes` — outcomes of code that consumes go forward.
* `Fragment.slots_of_mem_threads` — a fragment writes its own slots only.
-/

namespace RegexEngine

/-- A position in the text and the capture slots. -/
structure Thread where
  pos : Nat
  slots : Array (Option Nat)
  deriving DecidableEq, Repr

namespace Thread

/-- Consume one unit if it passes the test. -/
def consume (text : Text) (test : Nat → Bool) (x : Thread) : Option Thread :=
  match text.unit? x.pos with
  | some u => if test u then some { x with pos := x.pos + 1 } else none
  | none => none

/-- Consume the text of a group once more; a group that is undefined or open has the empty
text. -/
def repeatGroup (text : Text) (group : Nat) (folded : Bool) (x : Thread) : Option Thread :=
  match x.slots[2 * group]?, x.slots[2 * group + 1]? with
  | some (some start), some (some stop) =>
    if stop < start then some x
    else if text.size < x.pos + (stop - start) then none
    else if Machine.sameUnits text folded (stop - start) start x.pos = some true then
      some { x with pos := x.pos + (stop - start) }
    else none
  | _, _ => some x

/-- Make `n` slots from `slot` on undefined. -/
def forget : Nat → Nat → Array (Option Nat) → Array (Option Nat)
  | 0, _, slots => slots
  | n + 1, slot, slots => forget n (slot + 1) (slots.setIfInBounds slot none)

theorem size_forget (n slot : Nat) (slots : Array (Option Nat)) :
    (forget n slot slots).size = slots.size := by
  induction n generalizing slot slots with
  | zero => rfl
  | succ n ih => rw [forget, ih, Array.size_setIfInBounds]

theorem getElem?_forget (n slot i : Nat) (slots : Array (Option Nat)) :
    (forget n slot slots)[i]? =
      if slot ≤ i ∧ i < slot + n ∧ i < slots.size then some none else slots[i]? := by
  induction n generalizing slot slots with
  | zero => rw [forget, if_neg (by omega)]
  | succ n ih =>
    rw [forget, ih, Array.size_setIfInBounds, Array.getElem?_setIfInBounds]
    split
    · rw [if_pos (by omega)]
    · split
      · next hi =>
        subst hi
        split
        · rw [if_pos (by omega)]
        · rw [if_neg (by omega), Array.getElem?_eq_none (by omega)]
      · rw [if_neg (by omega)]

/-- The thread stays in the text, and so do the positions in its `n` slots. -/
def Fits (text : Text) (n : Nat) (x : Thread) : Prop :=
  x.pos ≤ text.size ∧ SlotsFit text n x.slots

end Thread

namespace Instr

/-- The thread behind a straight instruction, if the instruction does not fail. -/
def pass (tables : Array CharTable) (text : Text) (i : Instr) (x : Thread) : Option Thread :=
  match i with
  | unit u => x.consume text (· == u)
  | folded u => x.consume text (canonicalize · == u)
  | any => x.consume text (!CodeUnit.isLineTerminator ·)
  | inTable table negated ignoreCase =>
    tables[table]?.bind fun t =>
      x.consume text fun u => (if ignoreCase then t.containsFolded u else t.contains u) != negated
  | anchor a => if a.holds text x.pos then some x else none
  | save slot => some { x with slots := x.slots.setIfInBounds slot (some x.pos) }
  | clear first last => some { x with slots := Thread.forget (last - first) first x.slots }
  | backRef group ignoreCase => x.repeatGroup text group ignoreCase
  | _ => none

end Instr

namespace Fragment

/-- The outcomes of a condition, given those of its code: the first one without its position, or
nothing but whether there is one. -/
def lookOutcomes (negated : Bool) (ys : List Thread) (x : Thread) : List Thread :=
  match negated, ys with
  | false, [] => []
  | false, y :: _ => [{ y with pos := x.pos }]
  | true, [] => [x]
  | true, _ :: _ => []

/-- The threads that leave a fragment, in the order in which they are tried. -/
def threads (tables : Array CharTable) (text : Text) : Fragment → Thread → List Thread
  | nil, x => [x]
  | instr i, x => (i.pass tables text x).toList
  | append f g, x => (f.threads tables text x).flatMap (g.threads tables text)
  | choice f g, x => f.threads tables text x ++ g.threads tables text x
  | optional greedy f, x => prefer greedy (f.threads tables text x) [x]
  | loop greedy f, x => upTo greedy (f.threads tables text) (text.size - x.pos) x
  | advance _ f, x => (f.threads tables text x).filter (·.pos != x.pos)
  | look negated f, x => lookOutcomes negated (f.threads tables text x) x

variable {tables : Array CharTable} {text : Text} {n : Nat} {x y : Thread}

/-! ### Positions -/

theorem consume_eq_some {test : Nat → Bool} (h : x.consume text test = some y) :
    ∃ u, text.unit? x.pos = some u ∧ test u = true ∧ y = { x with pos := x.pos + 1 } := by
  rw [Thread.consume] at h
  split at h
  · next u hu =>
    split at h
    · next htest => exact ⟨u, hu, htest, (Option.some.inj h).symm⟩
    · cases h
  · cases h

theorem fits_consume {test : Nat → Bool} (hx : x.Fits text n) (h : x.consume text test = some y) :
    y.Fits text n ∧ x.pos < y.pos := by
  obtain ⟨u, hu, -, rfl⟩ := consume_eq_some h
  have hlt := Text.lt_of_unit? hu
  exact ⟨⟨hlt, hx.2⟩, Nat.lt_succ_self _⟩

theorem fits_repeatGroup {group : Nat} {folded : Bool} (hx : x.Fits text n)
    (h : x.repeatGroup text group folded = some y) : y.Fits text n ∧ x.pos ≤ y.pos := by
  rw [Thread.repeatGroup] at h
  split at h
  · split at h
    · cases h
      exact ⟨hx, Nat.le_refl _⟩
    · split at h
      · cases h
      · split at h
        · cases h
          exact ⟨⟨by dsimp only; omega, hx.2⟩, Nat.le_add_right ..⟩
        · cases h
  · cases h
    exact ⟨hx, Nat.le_refl _⟩

theorem fits_pass {i : Instr} (hx : x.Fits text n) (h : i.pass tables text x = some y) :
    y.Fits text n ∧ x.pos ≤ y.pos := by
  cases i with
  | unit u | folded u | any => exact (fits_consume hx h).imp_right Nat.le_of_lt
  | inTable table negated folded =>
    obtain ⟨t, -, h⟩ := Option.bind_eq_some_iff.1 h
    exact (fits_consume hx h).imp_right Nat.le_of_lt
  | anchor a =>
    simp only [Instr.pass, Option.ite_none_right_eq_some, Option.some.injEq] at h
    obtain ⟨-, rfl⟩ := h
    exact ⟨hx, Nat.le_refl _⟩
  | save slot =>
    cases h
    exact ⟨⟨hx.1, hx.2.set (by simpa using hx.1)⟩, Nat.le_refl _⟩
  | clear first last =>
    cases h
    refine ⟨⟨hx.1, (Thread.size_forget ..).trans hx.2.1, fun i v hv => ?_⟩, Nat.le_refl _⟩
    rw [Thread.getElem?_forget] at hv
    split at hv
    · cases hv
    · exact hx.2.2 i v hv
  | backRef group folded => exact fits_repeatGroup hx h
  | _ => cases h

theorem mem_lookOutcomes {negated : Bool} {ys : List Thread} (h : y ∈ lookOutcomes negated ys x) :
    y = x ∨ ∃ z ∈ ys, y = { z with pos := x.pos } := by
  cases negated <;> cases ys <;> simp_all [lookOutcomes]

/-- **The outcomes of a fragment stay in the text and do not go back.** -/
theorem fits_of_mem_threads {f : Fragment} (hx : x.Fits text n)
    (h : y ∈ f.threads tables text x) : y.Fits text n ∧ x.pos ≤ y.pos := by
  induction f generalizing x y with
  | nil =>
    obtain rfl := List.mem_singleton.1 h
    exact ⟨hx, Nat.le_refl _⟩
  | instr i => exact fits_pass hx (by simpa [threads] using h)
  | append f g ihf ihg =>
    obtain ⟨z, hz, hy⟩ := List.mem_flatMap.1 h
    obtain ⟨hzfits, hle⟩ := ihf hx hz
    exact (ihg hzfits hy).imp_right (Nat.le_trans hle)
  | choice f g ihf ihg =>
    rcases List.mem_append.1 h with h | h
    · exact ihf hx h
    · exact ihg hx h
  | optional greedy f ih =>
    rcases mem_prefer.1 h with h | h
    · exact ih hx h
    · obtain rfl := List.mem_singleton.1 h
      exact ⟨hx, Nat.le_refl _⟩
  | loop greedy f ih =>
    -- the statement is itself what an iteration keeps
    refine of_mem_upTo (P := fun y => y.Fits text n ∧ x.pos ≤ y.pos) (fun z hz y hy => ?_)
      ⟨hx, Nat.le_refl _⟩ h
    exact (ih hz.1 hy).imp_right (Nat.le_trans hz.2)
  | advance r f ih => exact ih hx (List.mem_filter.1 h).1
  | look negated f ih =>
    rcases mem_lookOutcomes h with rfl | ⟨z, hz, rfl⟩
    · exact ⟨hx, Nat.le_refl _⟩
    · exact ⟨⟨hx.1, (ih hx hz).1.2⟩, Nat.le_refl _⟩

/-- **The outcomes of code that consumes go forward.** -/
theorem lt_of_consumes {f : Fragment} (hf : f.consumes = true) (hx : x.Fits text n)
    (h : y ∈ f.threads tables text x) : x.pos < y.pos := by
  induction f generalizing x y with
  | nil | optional _ _ | loop _ _ | look _ _ => cases hf
  | instr i =>
    have hpass : i.pass tables text x = some y := by simpa [threads] using h
    cases i with
    | unit u | folded u | any => exact (fits_consume hx hpass).2
    | inTable table negated folded =>
      obtain ⟨t, -, hpass⟩ := Option.bind_eq_some_iff.1 hpass
      exact (fits_consume hx hpass).2
    | fail => cases hpass
    | _ => cases hf
  | append f g ihf ihg =>
    obtain ⟨z, hz, hy⟩ := List.mem_flatMap.1 h
    -- the part that consumes goes forward, and the other one does not go back
    obtain ⟨hzfits, hle⟩ := fits_of_mem_threads hx hz
    rcases Bool.or_eq_true_iff.1 hf with hf | hg
    · exact Nat.lt_of_lt_of_le (ihf hf hx hz) (fits_of_mem_threads hzfits hy).2
    · exact Nat.lt_of_le_of_lt hle (ihg hg hzfits hy)
  | choice f g ihf ihg =>
    obtain ⟨hf, hg⟩ := Bool.and_eq_true_iff.1 hf
    rcases List.mem_append.1 h with h | h
    · exact ihf hf hx h
    · exact ihg hg hx h
  | advance r f _ =>
    obtain ⟨hy, hne⟩ := List.mem_filter.1 h
    have hle := (fits_of_mem_threads hx hy).2
    have hne : y.pos ≠ x.pos := by simpa using hne
    omega

/-- The body of a loop goes forward. -/
theorem advances_of_consumes {f : Fragment} (hf : f.consumes = true) :
    Advances (Thread.Fits text n) Thread.pos text.size (f.threads tables text) :=
  fun _ hx _ hy =>
    ⟨(fits_of_mem_threads hx hy).1, lt_of_consumes hf hx hy, (fits_of_mem_threads hx hy).1.1⟩

/-! ### Slots -/

/-- The fragment has an instruction that changes the slot. -/
def Writes (j : Nat) : Fragment → Prop
  | instr (.save slot) => j = slot
  | instr (.clear first last) => first ≤ j ∧ j < last
  | nil | instr _ => False
  | append f g | choice f g => f.Writes j ∨ g.Writes j
  | optional _ f | loop _ f | advance _ f | look _ f => f.Writes j

theorem slots_of_pass {i : Instr} {j : Nat} (hj : ¬(instr i).Writes j)
    (h : i.pass tables text x = some y) : y.slots[j]? = x.slots[j]? := by
  cases i with
  | unit u | folded u | any =>
    obtain ⟨-, -, -, rfl⟩ := consume_eq_some h
    rfl
  | inTable table negated folded =>
    obtain ⟨t, -, h⟩ := Option.bind_eq_some_iff.1 h
    obtain ⟨-, -, -, rfl⟩ := consume_eq_some h
    rfl
  | anchor a =>
    simp only [Instr.pass, Option.ite_none_right_eq_some, Option.some.injEq] at h
    rw [h.2]
  | save slot =>
    cases h
    exact Array.getElem?_setIfInBounds_ne (Ne.symm hj)
  | clear first last =>
    cases h
    have hj : ¬(first ≤ j ∧ j < last) := hj
    rw [Thread.getElem?_forget, if_neg (by omega)]
  | backRef group folded =>
    simp only [Instr.pass, Thread.repeatGroup] at h
    split at h
    · split at h
      · rw [Option.some.inj h]
      · split at h
        · cases h
        · split at h
          · rw [← Option.some.inj h]
          · cases h
    · rw [Option.some.inj h]
  | _ => cases h

/-- **A fragment leaves alone the slots that it has no instruction for.** -/
theorem slots_of_mem_threads {f : Fragment} {j : Nat} (hj : ¬f.Writes j)
    (h : y ∈ f.threads tables text x) : y.slots[j]? = x.slots[j]? := by
  induction f generalizing x y with
  | nil => rw [List.mem_singleton.1 h]
  | instr i => exact slots_of_pass hj (by simpa [threads] using h)
  | append f g ihf ihg =>
    obtain ⟨z, hz, hy⟩ := List.mem_flatMap.1 h
    rw [ihg (fun hg => hj (Or.inr hg)) hy, ihf (fun hf => hj (Or.inl hf)) hz]
  | choice f g ihf ihg =>
    rcases List.mem_append.1 h with h | h
    · exact ihf (fun hf => hj (Or.inl hf)) h
    · exact ihg (fun hg => hj (Or.inr hg)) h
  | optional greedy f ih =>
    rcases mem_prefer.1 h with h | h
    · exact ih hj h
    · rw [List.mem_singleton.1 h]
  | loop greedy f ih =>
    exact of_mem_upTo (P := fun y => y.slots[j]? = x.slots[j]?)
      (fun z hz y hy => (ih hj hy).trans hz) rfl h
  | advance r f ih => exact ih hj (List.mem_filter.1 h).1
  | look negated f ih =>
    rcases mem_lookOutcomes h with rfl | ⟨z, hz, rfl⟩
    · rfl
    · exact (ih hj hz : z.slots[j]? = x.slots[j]?)

end Fragment

end RegexEngine

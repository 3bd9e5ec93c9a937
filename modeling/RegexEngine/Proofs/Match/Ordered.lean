import Mathlib.Data.List.Forall2

/-!
# Lists of outcomes in order of preference

A backtracking search tries the outcomes of a part in order.  Repetitions are built from the
ordered outcomes of their body.

* `prefer` — going on or stopping, in the order of preference.
* `upTo` — at most so many iterations.
* `exactly` — so many iterations.
* `upTo_eq_of_advances` — where every iteration makes progress, **a bound that covers the rest of
  the text is none.**
-/

namespace RegexEngine

variable {α : Type}

/-- The outcomes of going on and of stopping: a greedy loop prefers to go on. -/
def prefer (greedy : Bool) (more last : List α) : List α :=
  if greedy then more ++ last else last ++ more

/-- The outcomes of at most `n` iterations. -/
def upTo (greedy : Bool) (body : α → List α) : Nat → α → List α
  | 0, x => [x]
  | n + 1, x => prefer greedy ((body x).flatMap (upTo greedy body n)) [x]

/-- The outcomes of `n` iterations. -/
def exactly (body : α → List α) : Nat → α → List α
  | 0, x => [x]
  | n + 1, x => (body x).flatMap (exactly body n)

variable {greedy : Bool} {body : α → List α}

@[simp] theorem mem_prefer {more last : List α} {y : α} :
    y ∈ prefer greedy more last ↔ y ∈ more ∨ y ∈ last := by
  cases greedy <;> simp [prefer, or_comm]

/-- What every iteration keeps holds of all outcomes. -/
theorem of_mem_upTo {P : α → Prop} (hbody : ∀ x, P x → ∀ y ∈ body x, P y) {n : Nat} {x y : α}
    (hx : P x) (h : y ∈ upTo greedy body n x) : P y := by
  induction n generalizing x with
  | zero =>
    obtain rfl := List.mem_singleton.1 h
    exact hx
  | succ n ih =>
    rcases mem_prefer.1 h with h | h
    · obtain ⟨z, hz, hy⟩ := List.mem_flatMap.1 h
      exact ih (hbody x hx z hz) hy
    · obtain rfl := List.mem_singleton.1 h
      exact hx

theorem of_mem_exactly {P : α → Prop} (hbody : ∀ x, P x → ∀ y ∈ body x, P y) {n : Nat} {x y : α}
    (hx : P x) (h : y ∈ exactly body n x) : P y := by
  induction n generalizing x with
  | zero =>
    obtain rfl := List.mem_singleton.1 h
    exact hx
  | succ n ih =>
    obtain ⟨z, hz, hy⟩ := List.mem_flatMap.1 h
    exact ih (hbody x hx z hz) hy

/-- The body goes forward and stays in front of an end. -/
def Advances (P : α → Prop) (pos : α → Nat) (size : Nat) (body : α → List α) : Prop :=
  ∀ x, P x → ∀ y ∈ body x, P y ∧ pos x < pos y ∧ pos y ≤ size

/-- At the end nothing is left to go forward to. -/
theorem Advances.eq_nil {P : α → Prop} {pos : α → Nat} {size : Nat} (h : Advances P pos size body)
    {x : α} (hx : P x) (hend : size ≤ pos x) : body x = [] := by
  refine List.eq_nil_iff_forall_not_mem.2 fun y hy => ?_
  have := h x hx y hy
  omega

/-- **Where every iteration makes progress, a bound on their number that covers the rest of the
text can be raised.** -/
theorem upTo_eq_of_advances {P : α → Prop} {pos : α → Nat} {size : Nat}
    (h : Advances P pos size body) {n k : Nat} {x : α} (hx : P x) (hn : size ≤ pos x + n)
    (hk : size ≤ pos x + k) : upTo greedy body n x = upTo greedy body k x := by
  induction n generalizing x k with
  | zero =>
    cases k with
    | zero => rfl
    | succ k => simp [upTo, h.eq_nil hx hn, prefer]
  | succ n ih =>
    cases k with
    | zero => simp [upTo, h.eq_nil hx hk, prefer]
    | succ k =>
      rw [upTo, upTo]
      congr 1
      refine List.flatMap_congr fun y hy => ?_
      have := h x hx y hy
      exact ih this.1 (by omega) (by omega)

/-- A loop without a bound is one iteration and the same loop, or nothing. -/
theorem upTo_unfold {P : α → Prop} {pos : α → Nat} {size : Nat} (h : Advances P pos size body)
    {x : α} (hx : P x) :
    upTo greedy body (size - pos x) x =
      prefer greedy ((body x).flatMap fun y => upTo greedy body (size - pos y) y) [x] := by
  rw [upTo_eq_of_advances (k := size - pos x + 1) h hx (by omega) (by omega), upTo]
  congr 1
  refine List.flatMap_congr fun y hy => ?_
  have := h x hx y hy
  exact upTo_eq_of_advances h this.1 (by omega) (by omega)

/-! ### Related outcomes -/

section Related

variable {β : Type} {R : α → β → Prop} {body' : β → List β}

theorem forall₂_flatMap {γ δ : Type} {S : γ → δ → Prop} {f : α → List γ} {g : β → List δ}
    {xs : List α} {ys : List β} (h : List.Forall₂ R xs ys)
    (hfg : ∀ x y, R x y → List.Forall₂ S (f x) (g y)) :
    List.Forall₂ S (xs.flatMap f) (ys.flatMap g) :=
  List.rel_flatMap h fun _ _ hxy => hfg _ _ hxy

theorem forall₂_prefer {more last : List α} {more' last' : List β}
    (hmore : List.Forall₂ R more more') (hlast : List.Forall₂ R last last') :
    List.Forall₂ R (prefer greedy more last) (prefer greedy more' last') := by
  cases greedy with
  | false => exact List.rel_append hlast hmore
  | true => exact List.rel_append hmore hlast

/-- Loops whose bodies keep to a relation keep to it themselves. -/
theorem forall₂_upTo (hbody : ∀ x y, R x y → List.Forall₂ R (body x) (body' y)) (n : Nat) {x : α}
    {y : β} (h : R x y) : List.Forall₂ R (upTo greedy body n x) (upTo greedy body' n y) := by
  induction n generalizing x y with
  | zero => exact .cons h .nil
  | succ n ih =>
    exact forall₂_prefer (forall₂_flatMap (hbody x y h) fun _ _ => ih) (.cons h .nil)

end Related

end RegexEngine

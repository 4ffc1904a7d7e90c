import Mathlib.Data.List.Forall2
import GameScript.Error

/-!
# Sequences of steps that may fail

A sequence succeeds when each step does, and fails when one of them is the first to fail. The lemmas
take a sequence apart in either case; every proof about a function written with `do` goes through
them and not through the definition of the monad.
-/
namespace GameScript

theorem ok_bind {ε α β : Type} (a : α) (f : α → Except ε β) :
    (Except.ok a >>= f) = f a := rfl

theorem bind_eq_ok {ε α β : Type} {x : Except ε α} {f : α → Except ε β} {r : β} :
    (x >>= f) = .ok r ↔ ∃ a, x = .ok a ∧ f a = .ok r := by
  constructor
  · intro h
    cases x with
    | error e => cases h
    | ok a => exact ⟨a, rfl, h⟩
  · rintro ⟨a, rfl, h⟩
    exact h

theorem ok_of_toOption {ε α : Type} {x : Except ε α} {a : α} (h : x.toOption = some a) :
    x = .ok a := by
  cases x with
  | error e => cases h
  | ok b => exact congrArg Except.ok (Option.some.inj h)

theorem bind_eq_error {ε α β : Type} {x : Except ε α} {f : α → Except ε β} {e : ε} :
    (x >>= f) = .error e ↔ x = .error e ∨ ∃ a, x = .ok a ∧ f a = .error e := by
  constructor
  · intro h
    cases x with
    | error e' => exact .inl (congrArg Except.error (Except.error.inj h))
    | ok a => exact .inr ⟨a, rfl, h⟩
  · rintro (rfl | ⟨a, rfl, h⟩)
    · rfl
    · exact h

theorem map_eq_error {ε α β : Type} {x : Except ε α} {f : α → β} {e : ε} :
    x.map f = .error e ↔ x = .error e := by
  cases x <;> simp [Except.map]

theorem map_eq_ok {ε α β : Type} {x : Except ε α} {f : α → β} {b : β} :
    x.map f = .ok b ↔ ∃ a, x = .ok a ∧ f a = b := by
  cases x <;> simp [Except.map]

theorem mapError_eq_ok {ε ε' α : Type} {g : ε → ε'} {x : Except ε α} {a : α}
    (h : x.mapError g = .ok a) : x = .ok a := by
  cases x with
  | error e => cases h
  | ok b =>
      obtain rfl := Except.ok.inj h
      rfl

theorem exists_ok_bind {ε α β : Type} {x : Except ε α} {f : α → Except ε β}
    (hx : ∃ a, x = .ok a) (hf : ∀ a, ∃ b, f a = .ok b) : ∃ b, (x >>= f) = .ok b := by
  obtain ⟨a, rfl⟩ := hx
  exact hf a

/-! ## The same step for every member of a list -/

theorem forall₂_of_mapM {ε α β : Type} {xs : List α} {f : α → Except ε β} {ys : List β}
    (h : xs.mapM f = .ok ys) : List.Forall₂ (fun x y => f x = .ok y) xs ys := by
  induction xs generalizing ys with
  | nil =>
      obtain rfl := Except.ok.inj h
      exact .nil
  | cons x xs ih =>
      rw [List.mapM_cons] at h
      obtain ⟨y, hy, h⟩ := bind_eq_ok.mp h
      obtain ⟨more, hmore, h⟩ := bind_eq_ok.mp h
      obtain rfl := Except.ok.inj h
      exact .cons hy (ih hmore)

theorem exists_of_mem_forall₂ {α β : Type} {R : α → β → Prop} {xs : List α} {ys : List β} {y : β}
    (h : List.Forall₂ R xs ys) (hy : y ∈ ys) : ∃ x ∈ xs, R x y := by
  induction h with
  | nil => exact absurd hy List.not_mem_nil
  | @cons x _ xs _ hxy _ ih =>
      rcases List.mem_cons.mp hy with rfl | hy
      · exact ⟨x, List.mem_cons_self, hxy⟩
      · obtain ⟨x', hx', hxy'⟩ := ih hy
        exact ⟨x', List.mem_cons_of_mem x hx', hxy'⟩

theorem exists_of_mem_left_forall₂ {α β : Type} {R : α → β → Prop} {xs : List α} {ys : List β}
    {x : α} (h : List.Forall₂ R xs ys) (hx : x ∈ xs) : ∃ y ∈ ys, R x y :=
  exists_of_mem_forall₂ (List.Forall₂.flip h) hx

theorem exists_mapM_ok {ε α β : Type} {xs : List α} {f : α → Except ε β}
    (h : ∀ x ∈ xs, ∃ y, f x = .ok y) : ∃ ys, xs.mapM f = .ok ys := by
  induction xs with
  | nil => exact ⟨[], rfl⟩
  | cons x xs ih =>
      rw [List.forall_mem_cons] at h
      rw [List.mapM_cons]
      exact exists_ok_bind h.1 fun y => exists_ok_bind (ih h.2) fun ys => ⟨y :: ys, rfl⟩

/-! ## Steps that fail in certain ways only -/

/-- A step that gives a result with `P` or fails with an error in `E`. -/
def Ends {ε α : Type} (E : ε → Prop) (x : Except ε α) (P : α → Prop) : Prop :=
  (∃ a, x = .ok a ∧ P a) ∨ ∃ e, x = .error e ∧ E e

namespace Ends

variable {ε α β : Type} {E : ε → Prop} {x : Except ε α} {P : α → Prop}

theorem ok {a : α} (h : P a) : Ends E (.ok a) P := .inl ⟨a, rfl, h⟩

theorem error {e : ε} (h : E e) : Ends E (.error e) P := .inr ⟨e, rfl, h⟩

theorem bind {f : α → Except ε β} {Q : β → Prop} (hx : Ends E x P)
    (hf : ∀ a, P a → Ends E (f a) Q) : Ends E (x >>= f) Q := by
  rcases hx with ⟨a, rfl, ha⟩ | ⟨e, rfl, he⟩
  · exact hf a ha
  · exact .error he

theorem mono {E' : ε → Prop} (hx : Ends E x P) (hE : ∀ e, E e → E' e) : Ends E' x P :=
  hx.imp_right fun ⟨e, heq, he⟩ => ⟨e, heq, hE e he⟩

/-- A step that is known to succeed. -/
theorem after {a : α} {f : α → Except ε β} {Q : β → Prop} (h : x = .ok a) (hf : Ends E (f a) Q) :
    Ends E (x >>= f) Q := by
  rw [h]
  exact hf

/-- A test before a result. -/
theorem ite {c : Prop} [Decidable c] {a : α} {e : ε} (he : E e) :
    Ends E (if c then .ok a else .error e) fun _ => True := by
  split
  · exact .ok trivial
  · exact .error he

theorem map {f : α → β} {Q : β → Prop} (hx : Ends E x P) (hf : ∀ a, P a → Q (f a)) :
    Ends E (x.map f) Q := by
  rcases hx with ⟨a, rfl, ha⟩ | ⟨e, rfl, he⟩
  · exact .ok (hf a ha)
  · exact .error he

theorem mapError {ε' : Type} {E' : ε' → Prop} {g : ε → ε'} (hx : Ends E x P)
    (hg : ∀ e, E e → E' (g e)) : Ends E' (x.mapError g) P := by
  rcases hx with ⟨a, rfl, ha⟩ | ⟨e, rfl, he⟩
  · exact .ok ha
  · exact .error (hg e he)

/-- A loop with an invariant, which may depend on what has been gone through. -/
theorem foldlM {I : List β → α → Prop} {f : α → β → Except ε α} (ys : List β) {a : α} (ha : I [] a)
    (hf : ∀ before y after a, ys = before ++ y :: after → I before a →
      Ends E (f a y) (I (before ++ [y]))) : Ends E (ys.foldlM f a) (I ys) := by
  suffices hrest : ∀ rest before a, ys = before ++ rest → I before a →
      Ends E (rest.foldlM f a) (I ys) from hrest ys [] a rfl ha
  intro rest
  induction rest with
  | nil =>
      intro before a hys ha
      rw [hys, List.append_nil]
      exact .ok ha
  | cons y rest ih =>
      intro before a hys ha
      rw [List.foldlM_cons]
      refine (hf before y rest a hys ha).bind fun a' ha' => ?_
      exact ih (before ++ [y]) a' (by rw [hys, List.append_cons]) ha'

end Ends
end GameScript

import Mathlib.Data.List.Forall2

/-!
# Computations that may fail

What a computation in `Except` that ends well has computed on the way: one rule for each way of
putting computations together.
-/

namespace StremioNzb.Lib

universe u v

variable {ε : Type u} {α β : Type v}

theorem bind_eq_ok {x : Except ε α} {f : α → Except ε β} {b : β} :
    (x >>= f) = .ok b ↔ ∃ a, x = .ok a ∧ f a = .ok b := by
  cases x with
  | error e =>
    constructor
    · intro h
      cases h
    · rintro ⟨_, h, -⟩
      cases h
  | ok a =>
    constructor
    · exact fun h => ⟨a, rfl, h⟩
    · rintro ⟨_, ⟨⟩, h⟩
      exact h

theorem mapError_eq_ok {ε' : Type u} {x : Except ε α} {f : ε → ε'} {a : α} :
    x.mapError f = .ok a ↔ x = .ok a := by
  cases x with
  | error e =>
    constructor <;> intro h <;> cases h
  | ok b => exact ⟨fun h => by cases h; rfl, fun h => by cases h; rfl⟩

/-- What holds of the failures of two steps holds of those of the first, and of those of the
second wherever it is reached. -/
theorem forall_bind_error {P : ε → Prop} {x : Except ε α} {f : α → Except ε β} :
    (∀ e, (x >>= f) = .error e → P e) ↔
      (∀ e, x = .error e → P e) ∧ ∀ a, x = .ok a → ∀ e, f a = .error e → P e := by
  cases x with
  | error e =>
    constructor
    · refine fun h => ⟨fun e' he => ?_, fun a ha => ?_⟩
      · cases he
        exact h e rfl
      · cases ha
    · intro h e' he
      cases he
      exact h.1 e rfl
  | ok a =>
    constructor
    · refine fun h => ⟨fun e he => ?_, fun a' ha' => ?_⟩
      · cases he
      · cases ha'
        exact h
    · exact fun h => h.2 a rfl

/-- The results of a list of computations, one for each element. -/
theorem mapM_eq_ok {f : α → Except ε β} {xs : List α} {ys : List β} (h : xs.mapM f = .ok ys) :
    List.Forall₂ (fun x y => f x = .ok y) xs ys := by
  induction xs generalizing ys with
  | nil =>
    rw [List.mapM_nil] at h
    cases h
    exact .nil
  | cons x xs ih =>
    rw [List.mapM_cons] at h
    obtain ⟨y, hy, h⟩ := bind_eq_ok.mp h
    obtain ⟨ys', hys, h⟩ := bind_eq_ok.mp h
    cases h
    exact .cons hy (ih hys)

end StremioNzb.Lib

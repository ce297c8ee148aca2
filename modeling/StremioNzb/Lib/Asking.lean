/-!
# Asking in order

`askUntil p xs` are those asked, in the order of the list, until one satisfies `p`. Two orders
that part after their first place ask alike exactly when the first one satisfies `p`
(`askUntil_eq_iff`).
-/

namespace StremioNzb.Lib

variable {α β : Type _} {p : α → Bool} {x y z : α} {xs ys zs : List α}

def askUntil (p : α → Bool) : List α → List α
  | [] => []
  | x :: xs => if p x then [x] else x :: askUntil p xs

@[simp] theorem askUntil_nil : askUntil p [] = [] := rfl

theorem askUntil_cons_of_pos (h : p x) : askUntil p (x :: xs) = [x] := if_pos h

theorem askUntil_cons_of_neg (h : ¬ p x) : askUntil p (x :: xs) = x :: askUntil p xs := if_neg h

theorem askUntil_initial (p : α → Bool) : ∀ xs : List α, askUntil p xs <+: xs
  | [] => List.prefix_rfl
  | x :: xs => by
    by_cases h : p x
    · rw [askUntil_cons_of_pos h]
      exact ⟨xs, rfl⟩
    · rw [askUntil_cons_of_neg h]
      exact (List.prefix_cons_inj x).mpr (askUntil_initial p xs)

/-- Up to the first one that satisfies `p`. -/
theorem askUntil_append (hxs : ∀ y ∈ xs, ¬ p y) (hx : p x) :
    askUntil p (xs ++ x :: ys) = xs ++ [x] := by
  induction xs with
  | nil => exact askUntil_cons_of_pos hx
  | cons y xs ih =>
    obtain ⟨hy, hxs⟩ := List.forall_mem_cons.mp hxs
    rw [List.cons_append, askUntil_cons_of_neg hy, ih hxs, List.cons_append]

theorem exists_mem_askUntil : ∀ {xs : List α}, (∃ x ∈ xs, p x) → ∃ x ∈ askUntil p xs, p x
  | [], h => h
  | y :: ys, h => by
    by_cases hy : p y
    · exact ⟨y, by rw [askUntil_cons_of_pos hy]; exact List.mem_cons_self, hy⟩
    · obtain ⟨x, hx, hpx⟩ := h
      have hys : x ∈ ys := (List.mem_cons.mp hx).resolve_left fun heq => hy (heq ▸ hpx)
      obtain ⟨z, hz, hpz⟩ := exists_mem_askUntil ⟨x, hys, hpx⟩
      exact ⟨z, by rw [askUntil_cons_of_neg hy]; exact List.mem_cons_of_mem y hz, hpz⟩

/-- Whoever comes second is asked where the first one does not satisfy `p`. -/
theorem askUntil_eq_iff (hyz : y ≠ z) :
    askUntil p (x :: y :: ys) = askUntil p (x :: z :: zs) ↔ p x := by
  constructor
  · intro heq
    refine Classical.byContradiction fun h => ?_
    rw [askUntil_cons_of_neg h, askUntil_cons_of_neg h] at heq
    have hhead : (askUntil p (y :: ys)).head? = (askUntil p (z :: zs)).head? :=
      congrArg List.head? (List.cons.inj heq).2
    unfold askUntil at hhead
    split at hhead <;> split at hhead <;> exact hyz (Option.some.inj hhead)
  · intro h
    rw [askUntil_cons_of_pos h, askUntil_cons_of_pos h]

end StremioNzb.Lib

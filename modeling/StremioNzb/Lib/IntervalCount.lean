import Mathlib.Data.Set.Card
import Mathlib.Order.Interval.Set.Nat
import Mathlib.Order.Interval.Finset.Nat

/-!
# Counting the elements of intervals

How many natural numbers a list of half-open intervals holds. Where each interval ends before the
next starts, the lengths add up (`ncard_held`).
-/

namespace StremioNzb.Lib

/-- The numbers that an interval of the list holds. -/
def held (l : List (Nat × Nat)) : Set Nat := {x | ∃ p ∈ l, p.1 ≤ x ∧ x < p.2}

variable {p : Nat × Nat} {l : List (Nat × Nat)}

@[simp] theorem held_nil : held [] = ∅ := by
  ext x; simp [held]

@[simp] theorem held_cons : held (p :: l) = Set.Ico p.1 p.2 ∪ held l := by
  ext x; simp [held]

theorem ncard_Ico (a b : Nat) : (Set.Ico a b).ncard = b - a := by
  rw [← Finset.coe_Ico, Set.ncard_coe_finset, Nat.card_Ico]

theorem finite_held : ∀ l : List (Nat × Nat), (held l).Finite
  | [] => by rw [held_nil]; exact Set.finite_empty
  | p :: l => by rw [held_cons]; exact (Set.finite_Ico p.1 p.2).union (finite_held l)

/-- **Intervals one after the other hold as many numbers as their lengths add up to.** -/
theorem ncard_held : ∀ {l : List (Nat × Nat)}, l.Pairwise (fun p q => p.2 ≤ q.1) →
    (held l).ncard = (l.map fun p => p.2 - p.1).sum
  | [], _ => by simp
  | p :: l, h => by
    have hfirst := (List.pairwise_cons.mp h).1
    have hdisj : Disjoint (Set.Ico p.1 p.2) (held l) := by
      refine Set.disjoint_left.mpr fun x hx => ?_
      rintro ⟨q, hq, h1, -⟩
      have hx2 : x < p.2 := hx.2
      have := hfirst q hq
      omega
    rw [held_cons, Set.ncard_union_eq hdisj (Set.finite_Ico _ _) (finite_held l), ncard_Ico,
      ncard_held h.of_cons, List.map_cons, List.sum_cons]

end StremioNzb.Lib

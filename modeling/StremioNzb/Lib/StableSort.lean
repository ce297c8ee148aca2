import Mathlib.Data.List.Sort

/-!
# Stable sorting

What stability adds to sorted and permuted: sorting commutes with leaving elements out
(`filter_insertionSort`), and two orders sort a list alike exactly if they agree on every element
and each later one (`insertionSort_eq_iff`).
-/

namespace StremioNzb.Lib

variable {α : Type*} {r s : α → α → Prop} [DecidableRel r] [DecidableRel s]
  {a : α} {p : α → Bool} {xs : List α}

theorem orderedInsert_congr (h : ∀ b ∈ xs, r a b ↔ s a b) :
    xs.orderedInsert r a = xs.orderedInsert s a := by
  induction xs with
  | nil => rfl
  | cons b xs ih =>
    rw [List.orderedInsert_cons, List.orderedInsert_cons, ih fun c hc => h c (.tail _ hc)]
    simp only [h b List.mem_cons_self]

/-- In a sorted list an element goes between those before it and the others. -/
theorem orderedInsert_eq_filter [IsTrans α r] (h : xs.Pairwise r) :
    xs.orderedInsert r a = (xs.filter fun b => ¬ r a b) ++ a :: xs.filter fun b => r a b := by
  induction xs with
  | nil => rfl
  | cons b xs ih =>
    have hb := List.pairwise_cons.mp h
    by_cases hab : r a b
    · have hall : ∀ c ∈ xs, r a c := fun c hc => Trans.trans hab (hb.1 c hc)
      have hnone : xs.filter (fun c => ¬ r a c) = [] :=
        List.filter_eq_nil_iff.mpr fun c hc => by simpa using hall c hc
      have hsome : xs.filter (fun c => r a c) = xs :=
        List.filter_eq_self.mpr fun c hc => by simpa using hall c hc
      rw [List.orderedInsert_cons_of_le _ _ hab, List.filter_cons_of_neg (by simpa using hab),
        List.filter_cons_of_pos (by simpa using hab), hnone, hsome, List.nil_append]
    · rw [List.orderedInsert_of_not_le _ _ hab, List.filter_cons_of_pos (by simpa using hab),
        List.filter_cons_of_neg (by simpa using hab), ih hb.2, List.cons_append]

/-- An element that is left out may be inserted anywhere. -/
theorem filter_orderedInsert_of_neg (ha : p a = false) :
    (xs.orderedInsert r a).filter p = xs.filter p := by
  rw [List.orderedInsert_eq_take_drop, List.filter_append, List.filter_cons_of_neg (by simp [ha]),
    ← List.filter_append, List.takeWhile_append_dropWhile]

section Sorts
variable [Std.Total r] [IsTrans α r]

theorem filter_insertionSort (p : α → Bool) (xs : List α) :
    (xs.insertionSort r).filter p = (xs.filter p).insertionSort r := by
  induction xs with
  | nil => rfl
  | cons a xs ih =>
    rw [List.insertionSort_cons]
    cases ha : p a with
    | false => rw [filter_orderedInsert_of_neg ha, ih, List.filter_cons_of_neg (by simp [ha])]
    | true =>
      have hcomm : ∀ q : α → Bool, ((xs.insertionSort r).filter q).filter p =
          ((xs.filter p).insertionSort r).filter q := by
        intro q
        rw [← ih, List.filter_filter, List.filter_filter]
        simp only [Bool.and_comm]
      rw [orderedInsert_eq_filter (xs.pairwise_insertionSort r), List.filter_append, hcomm,
        List.filter_cons_of_pos ha, hcomm, List.filter_cons_of_pos ha, List.insertionSort_cons,
        orderedInsert_eq_filter ((xs.filter p).pairwise_insertionSort r)]

variable [Std.Total s] [IsTrans α s]

/-- Two orders sort a list alike exactly if they agree on each element and those after it. -/
theorem insertionSort_eq_iff :
    xs.insertionSort r = xs.insertionSort s ↔ xs.Pairwise fun x y => r x y ↔ s x y := by
  refine ⟨fun h => List.pairwise_iff_forall_sublist.mpr fun {x y} hxy => ⟨fun hr => ?_,
    fun hs => ?_⟩, fun h => ?_⟩
  · have hsub := List.pair_sublist_insertionSort hr hxy
    rw [h] at hsub
    exact List.pairwise_iff_forall_sublist.mp (xs.pairwise_insertionSort s) hsub
  · have hsub := List.pair_sublist_insertionSort hs hxy
    rw [← h] at hsub
    exact List.pairwise_iff_forall_sublist.mp (xs.pairwise_insertionSort r) hsub
  · induction xs with
    | nil => rfl
    | cons x xs ih =>
      have hx := List.pairwise_cons.mp h
      rw [List.insertionSort_cons, List.insertionSort_cons, ← ih hx.2]
      exact orderedInsert_congr fun b hb => hx.1 b ((List.mem_insertionSort r).mp hb)

end Sorts

end StremioNzb.Lib

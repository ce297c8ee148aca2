import Mathlib.Order.Lattice
import Mathlib.Data.List.Pairwise

/-!
# Binary search, by contract

What a library promises of a binary search in a list sorted by a key: on success the index of
some element with that key, and of any of them where several have it; otherwise the index
where such an element could be inserted. A development takes the search as a parameter and uses
the contract alone; `BinarySearch.leftmost` is one that keeps it.
-/

namespace StremioNzb.Lib

variable {β κ : Type*} [LinearOrder κ]

/-- The keys do not decrease. -/
def SortedBy (key : β → κ) (xs : List β) : Prop := xs.Pairwise fun x y => key x ≤ key y

instance (key : β → κ) (xs : List β) : Decidable (SortedBy key xs) :=
  inferInstanceAs (Decidable (xs.Pairwise fun x y => key x ≤ key y))

structure BinarySearch (key : β → κ) where
  run : List β → κ → Except Nat Nat
  ok_spec : ∀ {xs k i}, SortedBy key xs → run xs k = .ok i → ∃ x, xs[i]? = some x ∧ key x = k
  error_spec : ∀ {xs k i}, SortedBy key xs → run xs k = .error i →
    i ≤ xs.length ∧ (∀ x ∈ xs.take i, key x < k) ∧ ∀ x ∈ xs.drop i, k < key x

variable {key : β → κ}

/-- The first element that is not before `k`, found by a scan. -/
def scan (key : β → κ) : List β → κ → Except Nat Nat
  | [], _ => .error 0
  | x :: xs, k =>
    if key x < k then
      match scan key xs k with
      | .ok i => .ok (i + 1)
      | .error i => .error (i + 1)
    else if key x = k then .ok 0 else .error 0

theorem scan_ok {k : κ} : ∀ {xs : List β} {i : Nat}, scan key xs k = .ok i →
    (∃ x, xs[i]? = some x ∧ key x = k) ∧ ∀ x ∈ xs.take i, key x < k
  | x :: xs, i, h => by
    simp only [scan] at h
    split at h
    · next hlt =>
      cases hs : scan key xs k with
      | error j => simp [hs] at h
      | ok j =>
        obtain rfl : j + 1 = i := by simpa [hs] using h
        obtain ⟨⟨y, hy, hk⟩, hall⟩ := scan_ok hs
        refine ⟨⟨y, by simpa using hy, hk⟩, fun z hz => ?_⟩
        rcases List.mem_cons.mp (List.take_succ_cons ▸ hz) with rfl | hz
        · exact hlt
        · exact hall z hz
    · split at h
      · next hk =>
        cases h
        exact ⟨⟨x, rfl, hk⟩, by simp⟩
      · cases h

theorem scan_error {k : κ} : ∀ {xs : List β} {i : Nat}, SortedBy key xs →
    scan key xs k = .error i →
    i ≤ xs.length ∧ (∀ x ∈ xs.take i, key x < k) ∧ ∀ x ∈ xs.drop i, k < key x
  | [], i, _, h => by
    cases h
    simp
  | x :: xs, i, hs, h => by
    obtain ⟨hx, hs⟩ := List.pairwise_cons.mp hs
    simp only [scan] at h
    split at h
    · next hlt =>
      cases hr : scan key xs k with
      | ok j => simp [hr] at h
      | error j =>
        obtain rfl : j + 1 = i := by simpa [hr] using h
        obtain ⟨hle, h1, h2⟩ := scan_error hs hr
        refine ⟨by simpa using hle, fun z hz => ?_, by simpa using h2⟩
        rcases List.mem_cons.mp (List.take_succ_cons ▸ hz) with rfl | hz
        · exact hlt
        · exact h1 z hz
    · next hge =>
      split at h
      · cases h
      · next hne =>
        cases h
        have hkx : k < key x := lt_of_le_of_ne (not_lt.mp hge) (Ne.symm hne)
        refine ⟨Nat.zero_le _, by simp, fun z hz => ?_⟩
        rcases List.mem_cons.mp hz with rfl | hz
        · exact hkx
        · exact hkx.trans_le (hx z hz)

/-- The search that returns the leftmost of several equal elements. -/
def BinarySearch.leftmost (key : β → κ) : BinarySearch key where
  run := scan key
  ok_spec _ h := (scan_ok h).1
  error_spec hs h := scan_error hs h

/-- The search that answers `r` in every list that is not sorted: of those the contract says
nothing. -/
def BinarySearch.unsorted (key : β → κ) (r : Except Nat Nat) : BinarySearch key where
  run xs k := if SortedBy key xs then scan key xs k else r
  ok_spec hs h := (scan_ok ((if_pos hs).symm.trans h)).1
  error_spec hs h := scan_error hs ((if_pos hs).symm.trans h)

end StremioNzb.Lib

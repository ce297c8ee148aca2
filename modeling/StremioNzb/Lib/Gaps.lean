import Mathlib.Data.Set.Basic
import Mathlib.Order.Lattice

/-!
# Gaps of a set

What a search for missing elements of a window `[s, e)` may answer. `Filled` says that the
window holds no gap, `LeftmostGap` that `[a, b)` is the first run of missing elements, as long
as it goes. There is at most one such run (`LeftmostGap.unique`), and adding it to the set
pushes the filled part of the window past its end (`LeftmostGap.filled_union`).
-/

namespace StremioNzb.Lib

variable {α : Type*} [LinearOrder α] {X Y : Set α} {s e a b a' b' c x : α}

/-- `X` holds all of `[s, e)`. -/
def Filled (X : Set α) (s e : α) : Prop := ∀ x, s ≤ x → x < e → x ∈ X

/-- `[a, b)` is the first gap of `X` in `[s, e)`, up to the next element of `X` or to `e`. -/
structure LeftmostGap (X : Set α) (s e a b : α) : Prop where
  start_le : s ≤ a
  lt : a < b
  le_stop : b ≤ e
  filled : Filled X s a
  free : ∀ x, a ≤ x → x < b → x ∉ X
  maximal : b = e ∨ b ∈ X

theorem Filled.of_le (h : e ≤ s) : Filled X s e := fun _ h1 h2 =>
  absurd (h1.trans_lt h2) (not_lt.mpr h)

theorem Filled.mono (h : Filled X s e) (hle : c ≤ e) (hsub : X ⊆ Y) : Filled Y s c :=
  fun x h1 h2 => hsub (h x h1 (h2.trans_le hle))

/-- A filled part extended by a filled part. -/
theorem Filled.append (h : Filled X s c) (h' : Filled X c e) : Filled X s e := fun x h1 h2 =>
  (lt_or_ge x c).elim (h x h1) fun hc => h' x hc h2

namespace LeftmostGap

theorem start_not_mem (h : LeftmostGap X s e a b) : a ∉ X := h.free a le_rfl h.lt

/-- A window with a gap is not filled. -/
theorem not_filled (h : LeftmostGap X s e a b) : ¬ Filled X s e := fun hf =>
  h.start_not_mem (hf a h.start_le (h.lt.trans_le h.le_stop))

/-- What is filled from the start of the window on lies before the gap. -/
theorem le_of_filled (h : LeftmostGap X s e a b) (hf : Filled X s c) : c ≤ a :=
  not_lt.mp fun hlt => h.start_not_mem (hf a h.start_le hlt)

theorem stop_le (h : LeftmostGap X s e a b) (h' : LeftmostGap X s e a b') : b ≤ b' := by
  refine not_lt.mp fun hlt => ?_
  rcases h'.maximal with rfl | hb
  · exact absurd h.le_stop (not_le.mpr hlt)
  · exact h.free b' h'.lt.le hlt hb

/-- **A window has one leftmost gap.** -/
theorem unique (h : LeftmostGap X s e a b) (h' : LeftmostGap X s e a' b') : a = a' ∧ b = b' := by
  obtain rfl : a = a' := le_antisymm (h'.le_of_filled h.filled) (h.le_of_filled h'.filled)
  exact ⟨rfl, le_antisymm (h.stop_le h') (h'.stop_le h)⟩

/-- **Adding the gap fills the window up to its end.** -/
theorem filled_union (h : LeftmostGap X s e a b) :
    Filled (X ∪ {x | a ≤ x ∧ x < b}) s b := by
  have hbefore : Filled (X ∪ {x | a ≤ x ∧ x < b}) s a := h.filled.mono le_rfl Set.subset_union_left
  exact hbefore.append fun x h1 h2 => .inr ⟨h1, h2⟩

end LeftmostGap

end StremioNzb.Lib

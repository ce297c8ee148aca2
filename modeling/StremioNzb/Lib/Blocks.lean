import Mathlib.Algebra.Ring.Nat
import Mathlib.Data.List.Basic
import Mathlib.Order.Nat

/-!
# Consecutive blocks

A list of blocks laid end to end from position `0`: `blockStart len xs i` is where block `i`
begins and `blockTotal len xs` where the last one ends. Every position below the total lies in a
block (`exists_block`), and in one only (`block_unique`). If each block carries `len x`
elements, the element at a position of the concatenation is that of its block
(`getElem?_flatMap_block`). `LaidFrom start len o xs` says that the blocks carry their own
starts, the first of them `o`.
-/

namespace StremioNzb.Lib

variable {β γ : Type*} (len : β → Nat)

def blockTotal (xs : List β) : Nat := (xs.map len).sum

/-- Where block `i` begins: the lengths of the blocks before it. -/
def blockStart (xs : List β) (i : Nat) : Nat := blockTotal len (xs.take i)

variable {len} {xs : List β} {x y : β} {i j b : Nat}

@[simp] theorem blockTotal_nil : blockTotal len [] = 0 := rfl

@[simp] theorem blockTotal_cons : blockTotal len (x :: xs) = len x + blockTotal len xs := rfl

@[simp] theorem blockTotal_append {ys : List β} :
    blockTotal len (xs ++ ys) = blockTotal len xs + blockTotal len ys := by
  simp [blockTotal]

theorem blockTotal_uniform {w : Nat} (h : ∀ x ∈ xs, len x = w) :
    blockTotal len xs = xs.length * w := by
  induction xs with
  | nil => simp
  | cons x xs ih =>
    rw [blockTotal_cons, ih fun y hy => h y (List.mem_cons_of_mem x hy), h x List.mem_cons_self,
      List.length_cons, Nat.succ_mul, Nat.add_comm]

@[simp] theorem blockStart_zero : blockStart len xs 0 = 0 := rfl

@[simp] theorem blockStart_cons_succ :
    blockStart len (x :: xs) (i + 1) = len x + blockStart len xs i := rfl

theorem blockStart_of_length_le (h : xs.length ≤ i) : blockStart len xs i = blockTotal len xs := by
  rw [blockStart, List.take_of_length_le h]

theorem blockStart_succ (h : xs[i]? = some x) :
    blockStart len xs (i + 1) = blockStart len xs i + len x := by
  simp [blockStart, List.take_add_one, h]

/-- The starts depend on the lengths alone. -/
theorem blockStart_congr {len' : γ → Nat} {ys : List γ} (h : xs.map len = ys.map len') (i : Nat) :
    blockStart len xs i = blockStart len' ys i := by
  rw [blockStart, blockTotal, List.map_take, h, ← List.map_take]
  rfl

theorem blockStart_append_left {ys : List β} (h : i ≤ xs.length) :
    blockStart len (xs ++ ys) i = blockStart len xs i := by
  rw [blockStart, List.take_append_of_le_length h, blockStart]

theorem blockStart_append_right {ys : List β} (i : Nat) :
    blockStart len (xs ++ ys) (xs.length + i) = blockTotal len xs + blockStart len ys i := by
  rw [blockStart, List.take_length_add_append, blockTotal_append, blockStart]

theorem blockStart_mono (h : i ≤ j) : blockStart len xs i ≤ blockStart len xs j := by
  induction h with
  | refl => exact le_rfl
  | @step j _ ih =>
    apply le_trans ih
    cases hx : xs[j]? with
    | some x => rw [blockStart_succ hx]; omega
    | none =>
      have := List.getElem?_eq_none_iff.mp hx
      rw [blockStart_of_length_le this, blockStart_of_length_le (by omega)]

theorem blockStart_le_total : blockStart len xs i ≤ blockTotal len xs :=
  (blockStart_mono (Nat.le_add_left i xs.length)).trans_eq
    (blockStart_of_length_le (Nat.le_add_right _ _))

/-- A block ends before the next one that has a larger index begins. -/
theorem blockStart_add_le (hx : xs[i]? = some x) (h : i < j) :
    blockStart len xs i + len x ≤ blockStart len xs j := by
  rw [← blockStart_succ hx]
  exact blockStart_mono h

theorem blockStart_add_le_total (hx : xs[i]? = some x) :
    blockStart len xs i + len x ≤ blockTotal len xs := by
  rw [← blockStart_succ hx]
  exact blockStart_le_total

/-- Every position below the total lies in a block. -/
theorem exists_block (h : b < blockTotal len xs) :
    ∃ i x, xs[i]? = some x ∧ blockStart len xs i ≤ b ∧ b < blockStart len xs i + len x := by
  induction xs generalizing b with
  | nil => simp at h
  | cons x xs ih =>
    by_cases hb : b < len x
    · exact ⟨0, x, rfl, by simp, by simpa using hb⟩
    · obtain ⟨i, y, hy, h1, h2⟩ := ih (b := b - len x) (by simp at h; omega)
      exact ⟨i + 1, y, by simpa using hy, by simp; omega, by simp; omega⟩

/-- Only one block holds a position. -/
theorem block_unique (hx : xs[i]? = some x) (hy : xs[j]? = some y)
    (h1 : blockStart len xs i ≤ b) (h2 : b < blockStart len xs i + len x)
    (h3 : blockStart len xs j ≤ b) (h4 : b < blockStart len xs j + len y) : i = j := by
  rcases Nat.lt_trichotomy i j with hlt | heq | hgt
  · exact absurd (h2.trans_le (blockStart_add_le hx hlt)) (not_lt.mpr h3)
  · exact heq
  · exact absurd (h4.trans_le (blockStart_add_le hy hgt)) (not_lt.mpr h1)

theorem length_flatMap_block {f : β → List γ} (hf : ∀ x ∈ xs, (f x).length = len x) :
    (xs.flatMap f).length = blockTotal len xs := by
  induction xs with
  | nil => rfl
  | cons x xs ih =>
    rw [List.flatMap_cons, List.length_append, hf x List.mem_cons_self,
      ih fun y hy => hf y (List.mem_cons_of_mem _ hy), blockTotal_cons]

/-- **The concatenation, read block by block.** -/
theorem getElem?_flatMap_block {f : β → List γ} (hf : ∀ x ∈ xs, (f x).length = len x)
    (hx : xs[i]? = some x) {o : Nat} (ho : o < len x) :
    (xs.flatMap f)[blockStart len xs i + o]? = (f x)[o]? := by
  induction xs generalizing i with
  | nil => simp at hx
  | cons y ys ih =>
    have hy := hf y List.mem_cons_self
    cases i with
    | zero =>
      obtain rfl : y = x := by simpa using hx
      rw [List.flatMap_cons, blockStart_zero, Nat.zero_add, List.getElem?_append_left (by omega)]
    | succ i =>
      rw [List.flatMap_cons, blockStart_cons_succ, List.getElem?_append_right (by omega), hy,
        show len y + blockStart len ys i + o - len y = blockStart len ys i + o by omega]
      exact ih (fun z hz => hf z (List.mem_cons_of_mem _ hz)) (by simpa using hx)

/-! ## Blocks that carry their starts -/

/-- The blocks lie end to end from `o`. -/
def LaidFrom (start len : β → Nat) (o : Nat) (xs : List β) : Prop :=
  ∀ i x, xs[i]? = some x → start x = o + blockStart len xs i

section LaidFrom
variable {start : β → Nat} {o : Nat} {ys : List β}

theorem laidFrom_nil : LaidFrom start len o [] := fun i x h => by simp at h

theorem LaidFrom.cons (hx : start x = o) (h : LaidFrom start len (o + len x) xs) :
    LaidFrom start len o (x :: xs) := by
  intro i y hy
  cases i with
  | zero =>
    obtain rfl : x = y := by simpa using hy
    rw [blockStart_zero, hx, Nat.add_zero]
  | succ i => rw [h i y (by simpa using hy), blockStart_cons_succ, Nat.add_assoc]

theorem LaidFrom.append (hx : LaidFrom start len o xs)
    (hy : LaidFrom start len (o + blockTotal len xs) ys) : LaidFrom start len o (xs ++ ys) := by
  intro i y h
  by_cases hi : i < xs.length
  · rw [List.getElem?_append_left hi] at h
    rw [blockStart_append_left hi.le, hx i y h]
  · obtain ⟨j, rfl⟩ : ∃ j, i = xs.length + j := ⟨i - xs.length, by omega⟩
    rw [List.getElem?_append_right (by omega), Nat.add_sub_cancel_left] at h
    rw [blockStart_append_right, hy j y h, Nat.add_assoc]

end LaidFrom

end StremioNzb.Lib

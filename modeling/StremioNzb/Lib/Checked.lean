import Mathlib.Algebra.BigOperators.Group.List.Basic
import Mathlib.Algebra.Ring.Nat

/-!
# Checked arithmetic

Natural-number arithmetic in a word of `w` bits, with `none` where the word would wrap. A chain of
checked operations gives a value exactly where none of its steps wraps (`checkedSum_eq_some`), and
then it gives the exact value.
-/

namespace StremioNzb.Lib

variable {w a b c : Nat}

def checkedAdd (w a b : Nat) : Option Nat := if a + b < 2 ^ w then some (a + b) else none

def checkedSub (a b : Nat) : Option Nat := if b ≤ a then some (a - b) else none

def checkedMul (w a b : Nat) : Option Nat := if a * b < 2 ^ w then some (a * b) else none

@[simp] theorem checkedAdd_eq_some : checkedAdd w a b = some c ↔ a + b < 2 ^ w ∧ a + b = c := by
  rw [checkedAdd, Option.ite_none_right_eq_some, Option.some.injEq]

@[simp] theorem checkedSub_eq_some : checkedSub a b = some c ↔ b ≤ a ∧ a - b = c := by
  rw [checkedSub, Option.ite_none_right_eq_some, Option.some.injEq]

@[simp] theorem checkedMul_eq_some : checkedMul w a b = some c ↔ a * b < 2 ^ w ∧ a * b = c := by
  rw [checkedMul, Option.ite_none_right_eq_some, Option.some.injEq]

theorem checkedAdd_of_lt (h : a + b < 2 ^ w) : checkedAdd w a b = some (a + b) := if_pos h

theorem checkedSub_of_le (h : b ≤ a) : checkedSub a b = some (a - b) := if_pos h

theorem checkedMul_of_lt (h : a * b < 2 ^ w) : checkedMul w a b = some (a * b) := if_pos h

/-- The sum of the words, from `acc` on. -/
def checkedSum (w : Nat) (acc : Nat) (ns : List Nat) : Option Nat := ns.foldlM (checkedAdd w) acc

/-- A sum that starts in a word stays in it at every step exactly where it ends in one. -/
theorem checkedSum_eq_some (ha : a < 2 ^ w) {ns : List Nat} :
    checkedSum w a ns = some c ↔ a + ns.sum < 2 ^ w ∧ a + ns.sum = c := by
  induction ns generalizing a with
  | nil => simp [checkedSum, ha]
  | cons n ns ih =>
    have hstep : checkedSum w a (n :: ns) = (checkedAdd w a n).bind (checkedSum w · ns) := rfl
    rw [hstep, List.sum_cons, ← Nat.add_assoc]
    by_cases hn : a + n < 2 ^ w
    · rw [checkedAdd_of_lt hn, Option.bind_some, ih hn]
    · rw [checkedAdd, if_neg hn, Option.bind_none]
      exact iff_of_false (Option.some_ne_none _).symm fun h => by omega

theorem checkedSum_of_lt (h : a + (ns : List Nat).sum < 2 ^ w) :
    checkedSum w a ns = some (a + ns.sum) :=
  (checkedSum_eq_some (Nat.lt_of_le_of_lt (Nat.le_add_right _ _) h)).mpr ⟨h, rfl⟩

end StremioNzb.Lib

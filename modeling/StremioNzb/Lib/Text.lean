import Mathlib.Data.List.DropRight

/-!
# Trimming and splitting

`trimBy p xs` drops what satisfies `p` at both ends of a list, and `splitOnce c xs` splits it at
the first `c`. `trimBy_pad` and `splitOnce_append` read the parts off a list put together of
them; `exists_pad` and `splitOnce_eq_some` put it together again.
-/

namespace StremioNzb.Lib

variable {α : Type*}

/-! ## Trimming -/

def trimBy (p : α → Bool) (xs : List α) : List α := (xs.dropWhile p).rdropWhile p

section
variable {p : α → Bool} {ws ws' xs ys : List α} {x : α}

theorem dropWhile_append_cons (hx : p x = false) (xs ys : List α) :
    (xs ++ x :: ys).dropWhile p = xs.dropWhile p ++ x :: ys := by
  rw [List.dropWhile_append]
  split
  · rename_i h
    rw [List.isEmpty_iff.mp h, List.dropWhile_cons_of_neg (by simp [hx]), List.nil_append]
  · rfl

theorem rdropWhile_append_cons (hx : p x = false) (xs ys : List α) :
    (xs ++ x :: ys).rdropWhile p = xs ++ x :: ys.rdropWhile p := by
  have h := dropWhile_append_cons hx ys.reverse xs.reverse
  simp only [List.rdropWhile, List.reverse_append, List.reverse_cons, List.append_assoc,
    List.singleton_append, h, List.reverse_reverse]

theorem rdropWhile_append_of_all (h : ∀ y ∈ ws, p y) (xs : List α) :
    (xs ++ ws).rdropWhile p = xs.rdropWhile p := by
  rw [List.rdropWhile, List.reverse_append, List.dropWhile_append_of_pos]
  · rfl
  · exact fun y hy => h y (List.mem_reverse.mp hy)

theorem dropWhile_append_of_none (h : ∀ y ∈ xs, p y = false) (hys : ys.dropWhile p = []) :
    (xs ++ ys).dropWhile p = if xs = [] then [] else xs ++ ys := by
  cases xs with
  | nil => simpa using hys
  | cons y xs =>
    rw [List.cons_append, List.dropWhile_cons_of_neg (by simp [h y List.mem_cons_self]),
      if_neg (List.cons_ne_nil _ _)]

/-- What is free of the padding at its ends. -/
theorem trimBy_pad (hws : ∀ y ∈ ws, p y) (hws' : ∀ y ∈ ws', p y) (hxs : ∀ y ∈ xs, p y = false) :
    trimBy p (ws ++ xs ++ ws') = xs := by
  have hnil : ws'.dropWhile p = [] := List.dropWhile_eq_nil_iff.mpr hws'
  rw [trimBy, List.append_assoc, List.dropWhile_append_of_pos hws,
    dropWhile_append_of_none hxs hnil]
  split
  · rename_i h
    rw [h, List.rdropWhile_nil]
  · rw [rdropWhile_append_of_all hws', List.rdropWhile_eq_self_iff]
    intro hne
    simpa using hxs _ (List.getLast_mem hne)

theorem exists_pad (p : α → Bool) (xs : List α) : ∃ ws ws', (∀ y ∈ ws, p y) ∧ (∀ y ∈ ws', p y) ∧
    xs = ws ++ trimBy p xs ++ ws' := by
  refine ⟨xs.takeWhile p, (xs.dropWhile p).rtakeWhile p, fun y hy => ?_, fun y hy => ?_, ?_⟩
  · exact List.mem_takeWhile_imp hy
  · exact List.mem_rtakeWhile_imp hy
  · rw [trimBy, List.append_assoc, List.rdropWhile_append_rtakeWhile,
      List.takeWhile_append_dropWhile]

theorem trimBy_trimBy (p : α → Bool) (xs : List α) : trimBy p (trimBy p xs) = trimBy p xs := by
  have hstart : (trimBy p xs).dropWhile p = trimBy p xs := by
    unfold trimBy
    cases hd : xs.dropWhile p with
    | nil => rfl
    | cons x ys =>
      -- what is left starts with an element that stays
      have hx : p x = false := by
        have := List.head?_dropWhile_not p xs
        rw [hd] at this
        simpa using this
      have happ := rdropWhile_append_cons hx [] ys
      rw [List.nil_append, List.nil_append] at happ
      rw [happ, List.dropWhile_cons_of_neg (by simp [hx])]
  conv_lhs => rw [trimBy, hstart]
  exact List.rdropWhile_idempotent _ _

theorem trimBy_map {β : Type*} {q : β → Bool} {f : α → β} (h : ∀ x, q (f x) = p x) (xs : List α) :
    trimBy q (xs.map f) = (trimBy p xs).map f := by
  have hcomp : q ∘ f = p := funext h
  simp only [trimBy, List.rdropWhile, List.dropWhile_map, ← List.map_reverse, hcomp]

theorem mem_trimBy (hx : p x = false) : x ∈ trimBy p xs ↔ x ∈ xs := by
  obtain ⟨ws, ws', hws, hws', heq⟩ := exists_pad p xs
  have hnot : ∀ l : List α, (∀ y ∈ l, p y) → x ∉ l := fun l hl hmem => by
    have := hl x hmem
    rw [hx] at this
    cases this
  conv_rhs => rw [heq]
  simp [hnot ws hws, hnot ws' hws']

end

/-! ## Lower case of ASCII -/

/-- Only the capitals have another lower case. -/
theorem toLower_cases (c : Char) : c.toLower = c ∧ ¬ (65 ≤ c.toNat ∧ c.toNat ≤ 90) ∨
    65 ≤ c.toNat ∧ c.toNat ≤ 90 ∧ c.toLower.toNat = c.toNat + 32 := by
  have hA : 'A'.val.toNat = 65 := rfl
  have hZ : 'Z'.val.toNat = 90 := rfl
  have hgap : ('a'.val - 'A'.val).toNat = 32 := rfl
  unfold Char.toLower Char.toNat
  split
  · rename_i hup
    have hlo := UInt32.le_iff_toNat_le.mp hup.1
    have hhi := UInt32.le_iff_toNat_le.mp hup.2
    have hsum : (c.val + ('a'.val - 'A'.val)).toNat = c.val.toNat + 32 := by
      rw [UInt32.toNat_add]
      omega
    exact .inr ⟨by omega, by omega, hsum⟩
  · rename_i hup
    refine .inl ⟨rfl, fun ⟨hlo, hhi⟩ => hup ⟨?_, ?_⟩⟩
    · exact UInt32.le_iff_toNat_le.mpr (by omega)
    · exact UInt32.le_iff_toNat_le.mpr (by omega)

theorem toLower_eq_self {c : Char} (h : c.toLower.toNat < 97) : c.toLower = c := by
  rcases toLower_cases c with ⟨heq, -⟩ | ⟨hlo, -, hsum⟩
  · exact heq
  · omega

@[simp] theorem toLower_toLower (c : Char) : c.toLower.toLower = c.toLower := by
  rcases toLower_cases c with ⟨heq, -⟩ | ⟨hlo, -, hsum⟩
  · rw [heq, heq]
  · rcases toLower_cases c.toLower with ⟨heq, -⟩ | ⟨-, hhi, -⟩
    · exact heq
    · omega

theorem toList_toLower (s : String) : s.toLower.toList = s.toList.map Char.toLower :=
  String.toList_map

/-! ## Splitting -/

variable [DecidableEq α]

/-- What stands before and after the first `c`. -/
def splitOnce (c : α) : List α → Option (List α × List α)
  | [] => none
  | x :: xs => if x = c then some ([], xs) else (splitOnce c xs).map fun p => (x :: p.1, p.2)

variable {c : α}

theorem splitOnce_append : ∀ {xs : List α}, c ∉ xs → ∀ ys : List α,
    splitOnce c (xs ++ c :: ys) = some (xs, ys)
  | [], _, ys => by simp [splitOnce]
  | x :: xs, h, ys => by
    rw [List.mem_cons, not_or] at h
    obtain ⟨hx, hxs⟩ := h
    simp [splitOnce, Ne.symm hx, splitOnce_append hxs ys]

theorem splitOnce_eq_some : ∀ {zs xs ys : List α}, splitOnce c zs = some (xs, ys) →
    zs = xs ++ c :: ys
  | [], _, _, h => by cases h
  | z :: zs, xs, ys, h => by
    unfold splitOnce at h
    split at h
    · rename_i hz
      cases h
      rw [hz, List.nil_append]
    · obtain ⟨⟨xs', ys'⟩, h', heq⟩ := Option.map_eq_some_iff.mp h
      cases heq
      rw [splitOnce_eq_some h', List.cons_append]

theorem not_mem_of_splitOnce : ∀ {zs xs ys : List α}, splitOnce c zs = some (xs, ys) → c ∉ xs
  | [], _, _, h => by cases h
  | z :: zs, xs, ys, h => by
    unfold splitOnce at h
    split at h
    · cases h
      exact List.not_mem_nil
    · rename_i hz
      obtain ⟨⟨xs', ys'⟩, h', heq⟩ := Option.map_eq_some_iff.mp h
      cases heq
      exact List.not_mem_cons_of_ne_of_not_mem (Ne.symm hz) (not_mem_of_splitOnce h')

end StremioNzb.Lib

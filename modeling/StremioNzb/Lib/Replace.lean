import Mathlib.Data.List.Basic

/-!
# Replacing every match

`replaceAll matchAt f` goes through a list from the left and puts `f m` for each match `m`; what
`matchAt` finds is a prefix of what is left. An element that no match reaches across cuts the work
in two (`replaceAll_append_cons`).
-/

namespace StremioNzb.Lib

variable {α : Type*} (matchAt : List α → Option (List α)) (f : List α → List α)

/-- The number says how many elements of the last match are still to be passed. -/
def replaceFrom : Nat → List α → List α
  | _, [] => []
  | skip + 1, _ :: xs => replaceFrom skip xs
  | 0, x :: xs => match matchAt (x :: xs) with
    | some m => f m ++ replaceFrom (m.length - 1) xs
    | none => x :: replaceFrom 0 xs

def replaceAll (xs : List α) : List α := replaceFrom matchAt f 0 xs

/-- What is found is a prefix, and not empty. -/
def FindsPrefixes : Prop := ∀ xs m, matchAt xs = some m → m ≠ [] ∧ m <+: xs

/-- No match starts at `s` or reaches across it. -/
def Cuts (s : α) : Prop := ∀ xs ys, matchAt (xs ++ s :: ys) = matchAt xs

/-- Nothing matches anywhere in the list. -/
def Unmatched (xs : List α) : Prop := ∀ ys zs, xs = ys ++ zs → matchAt zs = none

variable {matchAt f} {xs ys m : List α} {x s : α}

theorem replaceFrom_eq_drop (n : Nat) (xs : List α) :
    replaceFrom matchAt f n xs = replaceAll matchAt f (xs.drop n) := by
  induction n generalizing xs with
  | zero => rfl
  | succ n ih =>
    cases xs with
    | nil => rfl
    | cons x xs => exact ih xs

@[simp] theorem replaceAll_nil : replaceAll matchAt f [] = [] := rfl

theorem replaceAll_of_none (h : matchAt (x :: xs) = none) :
    replaceAll matchAt f (x :: xs) = x :: replaceAll matchAt f xs := by
  rw [replaceAll, replaceFrom, h]
  rfl

theorem replaceAll_of_match (hm : m ≠ []) (h : matchAt (m ++ xs) = some m) :
    replaceAll matchAt f (m ++ xs) = f m ++ replaceAll matchAt f xs := by
  obtain ⟨y, m', rfl⟩ := List.exists_cons_of_ne_nil hm
  rw [List.cons_append] at h
  rw [List.cons_append, replaceAll, replaceFrom, h]
  refine congrArg (f (y :: m') ++ ·) ?_
  rw [replaceFrom_eq_drop, List.length_cons, Nat.add_sub_cancel, List.drop_left]

theorem replaceAll_of_whole (hm : m ≠ []) (h : matchAt m = some m) :
    replaceAll matchAt f m = f m := by
  have h' : matchAt (m ++ []) = some m := by
    rw [List.append_nil]
    exact h
  have hrep := replaceAll_of_match (f := f) hm h'
  rwa [List.append_nil, replaceAll_nil, List.append_nil] at hrep

theorem Unmatched.replaceAll (h : Unmatched matchAt xs) : replaceAll matchAt f xs = xs := by
  induction xs with
  | nil => rfl
  | cons x xs ih =>
    have hrest : Unmatched matchAt xs := fun ys zs heq => h (x :: ys) zs (congrArg (x :: ·) heq)
    rw [replaceAll_of_none (h [] _ rfl), ih hrest]

theorem FindsPrefixes.nil (h : FindsPrefixes matchAt) : matchAt [] = none := by
  cases hm : matchAt [] with
  | none => rfl
  | some m =>
    obtain ⟨hne, hpre⟩ := h [] m hm
    exact absurd (List.prefix_nil.mp hpre) hne

/-- No match starts in `ys` when `zs` follows. -/
def Clear (matchAt : List α → Option (List α)) (ys zs : List α) : Prop :=
  ∀ as bs, ys = as ++ bs → bs ≠ [] → matchAt (bs ++ zs) = none

theorem Clear.replaceAll (h : Clear matchAt xs ys) :
    replaceAll matchAt f (xs ++ ys) = xs ++ replaceAll matchAt f ys := by
  induction xs with
  | nil => rfl
  | cons x xs ih =>
    have hx : matchAt (x :: (xs ++ ys)) = none := h [] (x :: xs) rfl (List.cons_ne_nil _ _)
    have hrest : Clear matchAt xs ys := fun as bs heq => h (x :: as) bs (by rw [heq]; rfl)
    rw [List.cons_append, replaceAll_of_none hx, ih hrest, List.cons_append]

/-- Either nothing matches, or there is a first match. -/
theorem unmatched_or_first (h : FindsPrefixes matchAt) (xs : List α) :
    Unmatched matchAt xs ∨ ∃ before m after, xs = before ++ (m ++ after) ∧ m ≠ [] ∧
      Clear matchAt before (m ++ after) ∧ matchAt (m ++ after) = some m := by
  induction xs with
  | nil =>
    refine .inl fun ys zs heq => ?_
    rw [(List.append_eq_nil_iff.mp heq.symm).2]
    exact h.nil
  | cons x xs ih =>
    cases hx : matchAt (x :: xs) with
    | some m =>
      obtain ⟨hne, after, heq⟩ := h _ _ hx
      have hclear : Clear matchAt [] (m ++ after) := fun as bs hnil hbs =>
        absurd (List.append_eq_nil_iff.mp hnil.symm).2 hbs
      exact .inr ⟨[], m, after, heq.symm, hne, hclear, heq.symm ▸ hx⟩
    | none =>
      rcases ih with hun | ⟨before, m, after, heq, hne, hclear, hm⟩
      · refine .inl fun ys zs heq => ?_
        cases ys with
        | nil =>
          rw [List.nil_append] at heq
          rw [← heq]
          exact hx
        | cons y ys => exact hun ys zs (List.cons.inj heq).2
      · refine .inr ⟨x :: before, m, after, by rw [heq, List.cons_append], hne, ?_, hm⟩
        intro as bs has hbs
        cases as with
        | nil =>
          rw [List.nil_append] at has
          rw [← has, List.cons_append, ← heq]
          exact hx
        | cons a as => exact hclear as bs (List.cons.inj has).2 hbs

/-- What stands on the two sides of a cut is replaced apart. -/
theorem replaceAll_append_cons (h : FindsPrefixes matchAt) (hs : Cuts matchAt s) (xs ys : List α) :
    replaceAll matchAt f (xs ++ s :: ys) =
      replaceAll matchAt f xs ++ s :: replaceAll matchAt f ys := by
  induction hlen : xs.length using Nat.strongRecOn generalizing xs with
  | _ n ih =>
    subst hlen
    cases xs with
    | nil => exact replaceAll_of_none ((hs [] ys).trans h.nil)
    | cons x xs =>
      have hcut := hs (x :: xs) ys
      cases hx : matchAt (x :: xs) with
      | none =>
        rw [hx] at hcut
        rw [List.cons_append] at hcut ⊢
        rw [replaceAll_of_none hcut, replaceAll_of_none hx, List.cons_append,
          ih xs.length (by simp) xs rfl]
      | some m =>
        obtain ⟨hne, after, heq⟩ := h _ _ hx
        have hshort : after.length < (x :: xs).length := by
          have hpos := List.length_pos_iff.mpr hne
          have hsum := congrArg List.length heq
          rw [List.length_append] at hsum
          omega
        rw [hx, ← heq, List.append_assoc] at hcut
        rw [← heq] at hx
        rw [← heq, List.append_assoc, replaceAll_of_match hne hcut, replaceAll_of_match hne hx,
          ih after.length hshort after rfl, List.append_assoc]

/-- An element that cuts is still there. -/
theorem mem_replaceAll_of_cuts (h : FindsPrefixes matchAt) (hs : Cuts matchAt s) (hmem : s ∈ xs) :
    s ∈ replaceAll matchAt f xs := by
  obtain ⟨ys, zs, rfl⟩ := List.append_of_mem hmem
  rw [replaceAll_append_cons h hs]
  exact List.mem_append_right _ List.mem_cons_self

/-- What holds of all elements holds of those that are put for them. -/
theorem forall_mem_replaceAll {p : α → Prop} (h : FindsPrefixes matchAt)
    (hf : ∀ m, (∀ x ∈ m, p x) → ∀ x ∈ f m, p x) (hxs : ∀ x ∈ xs, p x) :
    ∀ x ∈ replaceAll matchAt f xs, p x := by
  induction hlen : xs.length using Nat.strongRecOn generalizing xs with
  | _ n ih =>
    subst hlen
    rcases unmatched_or_first h xs with hun | ⟨before, m, after, rfl, hne, hclear, hm⟩
    · rwa [hun.replaceAll]
    · rw [hclear.replaceAll, replaceAll_of_match hne hm]
      have hshort : after.length < (before ++ (m ++ after)).length := by
        have hpos := List.length_pos_iff.mpr hne
        simp only [List.length_append]
        omega
      simp only [List.mem_append] at hxs ⊢
      rintro x (hx | hx | hx)
      · exact hxs x (.inl hx)
      · exact hf m (fun y hy => hxs y (.inr (.inl hy))) x hx
      · exact ih _ hshort (fun y hy => hxs y (.inr (.inr hy))) rfl x hx

end StremioNzb.Lib

import Mathlib.Data.List.Forall2

/-!
# Words in a text

A pattern is a list of letter tests. `restOf ps xs` is the rest of `xs` behind a match of `ps` at
its start, and `findWord` looks from left to right for a pattern of a list that matches between
two word boundaries. `findWord_iff` says where it finds one.
-/

namespace StremioNzb.Lib

variable {α : Type*}

/-- `ps` matches at the start; the rest is what follows the match. -/
def restOf : List (α → Bool) → List α → Option (List α)
  | [], xs => some xs
  | _ :: _, [] => none
  | p :: ps, x :: xs => if p x then restOf ps xs else none

theorem restOf_eq_some : ∀ {ps : List (α → Bool)} {xs rest : List α},
    restOf ps xs = some rest ↔ ∃ mid, xs = mid ++ rest ∧ List.Forall₂ (fun p x => p x) ps mid
  | [], xs, rest => by
    simp only [restOf, Option.some.injEq, List.forall₂_nil_left_iff, exists_eq_right,
      List.nil_append]
  | p :: ps, [], rest => by
    refine ⟨fun h => (by cases h), ?_⟩
    rintro ⟨mid, happ, hmid⟩
    cases hmid
    cases happ
  | p :: ps, x :: xs, rest => by
    unfold restOf
    split
    · rename_i hp
      rw [restOf_eq_some]
      refine ⟨?_, ?_⟩
      · rintro ⟨mid, rfl, hmid⟩
        exact ⟨x :: mid, rfl, .cons hp hmid⟩
      rintro ⟨mid, happ, hmid⟩
      cases hmid with
      | @cons _ y _ mid hy hmid =>
        obtain ⟨rfl, rfl⟩ := List.cons.inj happ
        exact ⟨mid, rfl, hmid⟩
    · rename_i hp
      refine ⟨fun h => (by cases h), ?_⟩
      rintro ⟨mid, happ, hmid⟩
      cases hmid with
      | cons hy hmid =>
        obtain ⟨rfl, -⟩ := List.cons.inj happ
        exact absurd hy hp

/-! ## Whole words -/

section
variable (word : α → Bool)

/-- A boundary between two neighbours, `none` where the text ends. -/
def wordBoundary (before after : Option α) : Bool := before.any word != after.any word

/-- One of the patterns matches here as a whole word; `before` is the element in front. -/
def wordAt (pats : List (List (α → Bool))) (before : Option α) (xs : List α) : Bool :=
  wordBoundary word before xs.head? && pats.any fun ps => (restOf ps xs).any fun rest =>
    wordBoundary word ((xs.take ps.length).getLast?.or before) rest.head?

def findWord (pats : List (List (α → Bool))) : Option α → List α → Bool
  | before, [] => wordAt word pats before []
  | before, x :: xs => wordAt word pats before (x :: xs) || findWord pats (some x) xs

/-- The pattern matches somewhere in the text, between two boundaries. -/
def StandsIn (ps : List (α → Bool)) (text : List α) : Prop :=
  ∃ pre mid post, text = pre ++ mid ++ post ∧ List.Forall₂ (fun p x => p x) ps mid ∧
    wordBoundary word pre.getLast? (mid ++ post).head? ∧
    wordBoundary word (pre ++ mid).getLast? post.head?

end

variable {word : α → Bool} {pats : List (List (α → Bool))} {pre xs : List α}

theorem wordAt_iff : wordAt word pats pre.getLast? xs ↔
    ∃ ps ∈ pats, ∃ mid post, xs = mid ++ post ∧ List.Forall₂ (fun p x => p x) ps mid ∧
      wordBoundary word pre.getLast? xs.head? ∧
      wordBoundary word (pre ++ mid).getLast? post.head? := by
  simp only [wordAt, Bool.and_eq_true, List.any_eq_true, Option.any_eq_true, restOf_eq_some]
  -- the element in front of the rest is the last of the match, or of what is before it
  have hlast : ∀ {ps : List (α → Bool)} {mid post : List α},
      List.Forall₂ (fun p x => p x) ps mid →
      ((mid ++ post).take ps.length).getLast?.or pre.getLast? = (pre ++ mid).getLast? := by
    intro ps mid post hmid
    rw [hmid.length_eq, List.take_left, List.getLast?_append]
  refine ⟨?_, ?_⟩
  · rintro ⟨hb, ps, hps, post, ⟨mid, rfl, hmid⟩, hb'⟩
    rw [hlast hmid] at hb'
    exact ⟨ps, hps, mid, post, rfl, hmid, hb, hb'⟩
  · rintro ⟨ps, hps, mid, post, rfl, hmid, hb, hb'⟩
    refine ⟨hb, ps, hps, post, ⟨mid, rfl, hmid⟩, ?_⟩
    rwa [hlast hmid]

/-- The text from `xs` on, behind `pre`. -/
theorem findWord_from : findWord word pats pre.getLast? xs ↔
    ∃ ps ∈ pats, ∃ pre' mid post, xs = pre' ++ mid ++ post ∧
      List.Forall₂ (fun p x => p x) ps mid ∧
      wordBoundary word (pre ++ pre').getLast? (mid ++ post).head? ∧
      wordBoundary word (pre ++ pre' ++ mid).getLast? post.head? := by
  induction xs generalizing pre with
  | nil =>
    unfold findWord
    rw [wordAt_iff]
    refine ⟨?_, ?_⟩
    · rintro ⟨ps, hps, mid, post, happ, hmid, hb, hb'⟩
      refine ⟨ps, hps, [], mid, post, by simpa using happ, hmid, ?_, by simpa using hb'⟩
      rw [← happ, List.append_nil]
      exact hb
    · rintro ⟨ps, hps, pre', mid, post, happ, hmid, hb, hb'⟩
      obtain ⟨hpre, rfl⟩ := List.append_eq_nil_iff.mp happ.symm
      obtain ⟨rfl, rfl⟩ := List.append_eq_nil_iff.mp hpre
      exact ⟨ps, hps, [], [], rfl, hmid, by simpa using hb, by simpa using hb'⟩
  | cons x xs ih =>
    unfold findWord
    have hx : some x = (pre ++ [x]).getLast? := List.getLast?_concat.symm
    rw [Bool.or_eq_true, wordAt_iff, hx, ih]
    refine ⟨?_, ?_⟩
    · rintro (⟨ps, hps, mid, post, happ, hmid, hb, hb'⟩ |
        ⟨ps, hps, pre', mid, post, rfl, hmid, hb, hb'⟩)
      · refine ⟨ps, hps, [], mid, post, by simpa using happ, hmid, ?_, by simpa using hb'⟩
        rw [← happ, List.append_nil]
        exact hb
      · exact ⟨ps, hps, x :: pre', mid, post, rfl, hmid, by simpa using hb, by simpa using hb'⟩
    · rintro ⟨ps, hps, pre', mid, post, happ, hmid, hb, hb'⟩
      cases pre' with
      | nil =>
        rw [List.append_nil] at hb hb'
        rw [List.nil_append] at happ
        exact .inl ⟨ps, hps, mid, post, happ, hmid, happ ▸ hb, hb'⟩
      | cons y pre' =>
        obtain ⟨rfl, rfl⟩ := List.cons.inj happ
        exact .inr ⟨ps, hps, pre', mid, post, rfl, hmid, by simpa using hb, by simpa using hb'⟩

/-- **A pattern is found exactly where it stands as a whole word.** -/
theorem findWord_iff : findWord word pats none xs ↔ ∃ ps ∈ pats, StandsIn word ps xs := by
  have h := @findWord_from α word pats [] xs
  rw [List.getLast?_nil] at h
  simpa only [List.nil_append, StandsIn] using h

/-! ## The leftmost match -/

section
variable {β : Type*}

/-- `b` is what `P` says at the leftmost place where it says something. -/
def Leftmost (P : List α → β → Prop) (xs : List α) (b : β) : Prop :=
  ∃ pre rest, xs = pre ++ rest ∧ P rest b ∧
    ∀ pre' rest', xs = pre' ++ rest' → pre'.length < pre.length → ∀ b', ¬ P rest' b'

variable {P : List α → β → Prop} {x : α} {b : β}

theorem leftmost_here (h : P xs b) : Leftmost P xs b :=
  ⟨[], xs, rfl, h, fun _ _ _ hlt => absurd hlt (Nat.not_lt_zero _)⟩

/-- Where nothing is said here the leftmost place is further on. -/
theorem leftmost_cons (h : ∀ b', ¬ P (x :: xs) b') : Leftmost P (x :: xs) b ↔ Leftmost P xs b := by
  refine ⟨?_, ?_⟩
  · rintro ⟨pre, rest, happ, hb, hfirst⟩
    cases pre with
    | nil =>
      rw [List.nil_append] at happ
      subst happ
      exact absurd hb (h b)
    | cons y pre =>
      obtain ⟨rfl, rfl⟩ := List.cons.inj happ
      refine ⟨pre, rest, rfl, hb, fun pre' rest' happ' hlt => ?_⟩
      exact hfirst (x :: pre') rest' (by rw [List.cons_append, ← happ'])
        (by simpa only [List.length_cons] using Nat.succ_lt_succ hlt)
  · rintro ⟨pre, rest, rfl, hb, hfirst⟩
    refine ⟨x :: pre, rest, rfl, hb, fun pre' rest' happ' hlt => ?_⟩
    cases pre' with
    | nil =>
      rw [List.nil_append] at happ'
      exact happ' ▸ h
    | cons y pre' =>
      obtain ⟨rfl, hrest⟩ := List.cons.inj happ'
      exact hfirst pre' rest' hrest (Nat.lt_of_succ_lt_succ hlt)

theorem leftmost_nil : Leftmost P [] b ↔ P [] b := by
  refine ⟨?_, leftmost_here⟩
  rintro ⟨pre, rest, happ, hb, -⟩
  obtain ⟨rfl, rfl⟩ := List.append_eq_nil_iff.mp happ.symm
  exact hb

/-- Where something is said here this is the leftmost place. -/
theorem leftmost_of_here {b₀ : β} (h : P xs b₀) : Leftmost P xs b ↔ P xs b := by
  refine ⟨?_, leftmost_here⟩
  rintro ⟨pre, rest, happ, hb, hfirst⟩
  cases pre with
  | nil => exact happ ▸ hb
  | cons y pre => exact absurd h (hfirst [] xs rfl (Nat.succ_pos _) b₀)

end

end StremioNzb.Lib

/-!
# Byte streams

How a stream may arrive (`Cutting`), and its lines. `findCrlf` finds the first line end of a
buffer. `Lines.push` takes a stream byte by byte, so the lines of a stream do not depend on how it
is cut; `push_of_findCrlf` says that looking for line ends in a growing buffer gives them.
-/

namespace StremioNzb.Lib

/-! ## Cuttings -/

/-- The stream in pieces of one to `most` bytes. -/
structure Cutting {α : Type _} (most : Nat) (xs : List α) (pieces : List (List α)) : Prop where
  flatten : pieces.flatten = xs
  ne_nil : ∀ piece ∈ pieces, piece ≠ []
  length_le : ∀ piece ∈ pieces, piece.length ≤ most

section
variable {α : Type _} {most : Nat} {xs ys : List α} {pieces pieces' : List (List α)}

theorem Cutting.append (h : Cutting most xs pieces) (h' : Cutting most ys pieces') :
    Cutting most (xs ++ ys) (pieces ++ pieces') := by
  refine ⟨by rw [List.flatten_append, h.flatten, h'.flatten], fun piece hp => ?_,
    fun piece hp => ?_⟩
  · exact (List.mem_append.mp hp).elim (h.ne_nil piece) (h'.ne_nil piece)
  · exact (List.mem_append.mp hp).elim (h.length_le piece) (h'.length_le piece)

theorem cutting_singleton (hne : xs ≠ []) (hle : xs.length ≤ most) : Cutting most xs [xs] := by
  refine ⟨List.append_nil xs, fun piece hp => ?_, fun piece hp => ?_⟩
  · rwa [List.mem_singleton.mp hp]
  · rwa [List.mem_singleton.mp hp]

/-- Byte by byte. -/
theorem exists_cutting {most : Nat} (h : 0 < most) (xs : List α) :
    ∃ pieces, Cutting most xs pieces := by
  induction xs with
  | nil => exact ⟨[], rfl, by simp, by simp⟩
  | cons x xs ih =>
    obtain ⟨pieces, hp⟩ := ih
    exact ⟨[x] :: pieces, (cutting_singleton (List.cons_ne_nil x []) h).append hp⟩

theorem Cutting.tail {piece : List α} (h : Cutting most xs (piece :: pieces)) :
    Cutting most (xs.drop piece.length) pieces := by
  have hflat := h.flatten
  rw [List.flatten_cons] at hflat
  refine ⟨by rw [← hflat, List.drop_left], fun p hp => h.ne_nil p (List.mem_cons_of_mem _ hp),
    fun p hp => h.length_le p (List.mem_cons_of_mem _ hp)⟩

end

/-! ## Lines -/

def crlf : List UInt8 := [13, 10]

/-- The line before the first CRLF, and what follows it. -/
def findCrlf : List UInt8 → Option (List UInt8 × List UInt8)
  | [] => none
  | b :: bs =>
    if b = 13 ∧ bs.head? = some 10 then some ([], bs.tail)
    else (findCrlf bs).map fun (line, rest) => (b :: line, rest)

/-- The complete lines of a stream, and the bytes after them. -/
structure Lines where
  complete : List (List UInt8)
  partial_ : List UInt8

namespace Lines

def push (s : Lines) (b : UInt8) : Lines :=
  if b = 10 ∧ s.partial_.getLast? = some 13 then ⟨s.complete ++ [s.partial_.dropLast], []⟩
  else ⟨s.complete, s.partial_ ++ [b]⟩

def pushAll (s : Lines) (bs : List UInt8) : Lines := bs.foldl push s

theorem pushAll_cons (s : Lines) (b : UInt8) (bs : List UInt8) :
    s.pushAll (b :: bs) = (s.push b).pushAll bs := rfl

end Lines

def linesOf (bs : List UInt8) : Lines := Lines.pushAll ⟨[], []⟩ bs

theorem linesOf_append (as bs : List UInt8) : linesOf (as ++ bs) = (linesOf as).pushAll bs :=
  List.foldl_append

/-! ### Line ends in a buffer -/

section
variable {t u bs : List UInt8} {b : UInt8}

theorem findCrlf_cons_eq_none : findCrlf (b :: bs) = none ↔
    ¬ (b = 13 ∧ bs.head? = some 10) ∧ findCrlf bs = none := by
  rw [findCrlf]
  split
  · next h => exact iff_of_false (by simp) fun hn => hn.1 h
  · next h => simp [h]

/-- A CR at the end of a buffer without line ends, and an LF. -/
theorem findCrlf_append_crlf (h : findCrlf (u ++ [13]) = none) :
    findCrlf (u ++ 13 :: 10 :: bs) = some (u, bs) := by
  induction u with
  | nil => simp [findCrlf]
  | cons x u ih =>
    rw [List.cons_append, findCrlf_cons_eq_none] at h
    have hhead : (u ++ 13 :: 10 :: bs).head? = (u ++ [13]).head? := by cases u <;> rfl
    rw [List.cons_append, findCrlf, hhead, if_neg h.1, ih h.2]
    rfl

theorem findCrlf_concat (h : findCrlf t = none) (hb : ¬ (b = 10 ∧ t.getLast? = some 13)) :
    findCrlf (t ++ [b]) = none := by
  induction t with
  | nil => simp [findCrlf]
  | cons x t ih =>
    rw [findCrlf_cons_eq_none] at h
    rw [List.cons_append, findCrlf_cons_eq_none]
    cases t with
    | nil =>
      refine ⟨fun hx => hb ?_, by simp [findCrlf]⟩
      simpa [and_comm] using hx
    | cons y t =>
      rw [List.getLast?_cons_cons] at hb
      exact ⟨h.1, ih h.2 hb⟩

/-- **Looking for line ends in the buffer gives the lines of the stream.** -/
theorem push_of_findCrlf (ls : List (List UInt8)) (ht : findCrlf t = none) :
    Lines.pushAll ⟨ls, t⟩ bs = match findCrlf (t ++ bs) with
      | none => ⟨ls, t ++ bs⟩
      | some (line, rest) => Lines.pushAll ⟨ls ++ [line], []⟩ rest := by
  induction bs generalizing t with
  | nil =>
    rw [List.append_nil, ht]
    rfl
  | cons b bs ih =>
    rw [Lines.pushAll_cons, Lines.push]
    by_cases hb : b = 10 ∧ t.getLast? = some 13
    · obtain ⟨rfl, hlast⟩ := hb
      obtain ⟨u, rfl⟩ := List.getLast?_eq_some_iff.mp hlast
      rw [if_pos ⟨rfl, hlast⟩, List.append_assoc, List.singleton_append, findCrlf_append_crlf ht,
        List.dropLast_concat]
    · rw [if_neg hb, ih (findCrlf_concat ht hb), List.append_assoc, List.singleton_append]

/-- What follows the complete lines has no line end. -/
theorem findCrlf_partial (s : Lines) (h : findCrlf s.partial_ = none) (bs : List UInt8) :
    findCrlf (s.pushAll bs).partial_ = none := by
  induction bs generalizing s with
  | nil => exact h
  | cons b bs ih =>
    rw [Lines.pushAll_cons]
    refine ih _ ?_
    unfold Lines.push
    split
    · rfl
    · next hb => exact findCrlf_concat h hb

theorem findCrlf_linesOf (bs : List UInt8) : findCrlf (linesOf bs).partial_ = none :=
  findCrlf_partial ⟨[], []⟩ rfl bs

/-- More bytes do not move the first line end. -/
theorem findCrlf_append {line rest : List UInt8} (h : findCrlf bs = some (line, rest))
    (more : List UInt8) : findCrlf (bs ++ more) = some (line, rest ++ more) := by
  induction bs generalizing line with
  | nil => cases h
  | cons b bs ih =>
    rw [findCrlf] at h
    rw [List.cons_append, findCrlf]
    split at h
    · next hb =>
      cases h
      obtain ⟨rfl, hhead⟩ := hb
      obtain ⟨tail, rfl⟩ := List.head?_eq_some_iff.mp hhead
      rfl
    · next hb =>
      obtain ⟨⟨line', rest'⟩, hf, he⟩ := Option.map_eq_some_iff.mp h
      cases he
      have hhead : (bs ++ more).head? = bs.head? := by
        cases bs with
        | nil => cases hf
        | cons x xs => rfl
      rw [hhead, if_neg hb, ih hf]
      rfl

/-- The first line end of a line and what follows it. -/
theorem findCrlf_line {line : List UInt8} (h : findCrlf line = none) (bs : List UInt8) :
    findCrlf (line ++ crlf ++ bs) = some (line, bs) := by
  rw [List.append_assoc]
  exact findCrlf_append_crlf (findCrlf_concat h fun hb => absurd hb.1 (by decide))

/-- The bytes after a line end are fewer. -/
theorem length_of_findCrlf {line rest : List UInt8} (h : findCrlf bs = some (line, rest)) :
    rest.length < bs.length := by
  induction bs generalizing line with
  | nil => cases h
  | cons b bs ih =>
    rw [findCrlf] at h
    split at h
    · cases h
      have htail : bs.tail.length = bs.length - 1 := List.length_tail
      rw [htail]
      exact Nat.lt_succ_of_le (Nat.sub_le _ _)
    · obtain ⟨⟨line', rest'⟩, hf, he⟩ := Option.map_eq_some_iff.mp h
      cases he
      exact Nat.lt_succ_of_lt (ih hf)

end

/-! ### Lines in order -/

/-- The lines so far do not bear on the next ones. -/
theorem pushAll_eq (ls : List (List UInt8)) (t bs : List UInt8) :
    Lines.pushAll ⟨ls, t⟩ bs = ⟨ls ++ (Lines.pushAll ⟨[], t⟩ bs).complete,
      (Lines.pushAll ⟨[], t⟩ bs).partial_⟩ := by
  induction bs generalizing ls t with
  | nil => simp [Lines.pushAll]
  | cons b bs ih =>
    simp only [Lines.pushAll_cons, Lines.push]
    by_cases hb : b = 10 ∧ t.getLast? = some 13
    · simp only [if_pos hb, List.nil_append]
      rw [ih (ls ++ [t.dropLast]), ih [t.dropLast], List.append_assoc]
    · simp only [if_neg hb]
      exact ih ls _

/-- More bytes add lines at the end. -/
theorem linesOf_append_eq (as bs : List UInt8) :
    linesOf (as ++ bs) =
      ⟨(linesOf as).complete ++ (Lines.pushAll ⟨[], (linesOf as).partial_⟩ bs).complete,
        (Lines.pushAll ⟨[], (linesOf as).partial_⟩ bs).partial_⟩ := by
  rw [linesOf_append]
  exact pushAll_eq _ _ bs

end StremioNzb.Lib

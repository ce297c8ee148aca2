import StremioNzb.Lib.StableSort
import StremioNzb.Lib.Text
import StremioNzb.Streaming.Preflight

/-!
# The volumes of a RAR set

`find_rar_volumes` against what the names of an NZB say: every volume once, in the order of the
set (`VolumesFound`). The search knows the endings `.rar` and `.rNN` only and reads numbers as
`u32`, so the volumes that follow `.r99` are lost (`extended_set_lost`); `VolumesNamed` is what the
names must be like for it to be right (`volumesFound_iff`), in terms of the marks `.rNN` in them.
-/

namespace StremioNzb.Streaming

open StremioNzb.Lib

/-! ## What the names say -/

def decimal (digits : List Char) : Nat :=
  digits.foldl (fun n c => 10 * n + (c.toNat - '0'.toNat)) 0

theorem isDigit_iff {c : Char} : c.isDigit = true ↔ 48 ≤ c.toNat ∧ c.toNat ≤ 57 := by
  simp only [Char.isDigit, Bool.and_eq_true, decide_eq_true_eq, ge_iff_le, UInt32.le_iff_toNat_le]
  rfl

/-- The place of an old-style volume in its set, by the ending of its name: `.rar`, `.r00` to
`.r99`, `.s00` to `.s99` and so on to `.v99`. -/
def endingPlace (name : String) : Option Nat :=
  if name.toLower.endsWith ".rar" then some 0
  else match name.toLower.toList.reverse with
    | d₁ :: d₀ :: series :: '.' :: _ =>
      if d₀.isDigit && d₁.isDigit then
        (['r', 's', 't', 'u', 'v'].idxOf? series).map fun i => 100 * i + decimal [d₀, d₁] + 1
      else none
    | _ => none

def NzbFile.volumePlace (f : NzbFile) : Option Nat :=
  if f.isPar2 then none else f.name.bind endingPlace

/-- The files that have a place, by their places; those of one place stay as listed. -/
def inPlaces (place : NzbFile → Option Nat) (files : List NzbFile) : List NzbFile :=
  sortByKey (fun f => (place f).getD 0) (files.filter fun f => (place f).isSome)

/-- Two numberings of files order a file and a later one alike. -/
def OrderAlike (number place : NzbFile → Option Nat) (f g : NzbFile) : Prop :=
  (number f).getD 0 ≤ (number g).getD 0 ↔ (place f).getD 0 ≤ (place g).getD 0

/-- The numbers know every file that has a place, and order these files as the places do. -/
structure Numbered (number place : NzbFile → Option Nat) (files : List NzbFile) : Prop where
  known : ∀ f ∈ files, (place f).isSome → (number f).isSome
  ordered : (files.filter fun f => (place f).isSome).Pairwise (OrderAlike number place)

variable {number place : NzbFile → Option Nat} {files : List NzbFile}

theorem sortByKey_eq_iff {α : Type} {key key' : α → Nat} {xs : List α} :
    sortByKey key xs = sortByKey key' xs ↔
      xs.Pairwise fun x y => key x ≤ key y ↔ key' x ≤ key' y := by
  have := total_key key
  have := isTrans_key key
  have := total_key key'
  have := isTrans_key key'
  exact insertionSort_eq_iff

theorem mem_inPlaces {f : NzbFile} : f ∈ inPlaces place files ↔ f ∈ files ∧ (place f).isSome := by
  rw [inPlaces, (sortByKey_perm _ _).mem_iff, List.mem_filter]

theorem filter_known (h : ∀ f ∈ files, (place f).isSome → (number f).isSome) :
    (files.filter fun f => (place f).isSome).filter (fun f => (number f).isSome) =
      files.filter fun f => (place f).isSome :=
  List.filter_eq_self.mpr fun f hf => h f (List.mem_filter.mp hf).1 (List.mem_filter.mp hf).2

/-- Among the files that have a place, the numbered ones come in the places exactly if the numbers
know and order them. -/
theorem filter_inPlaces_eq_iff :
    (inPlaces number files).filter (fun f => (place f).isSome) = inPlaces place files ↔
      Numbered number place files := by
  have hcomm : (inPlaces number files).filter (fun f => (place f).isSome) =
      sortByKey (fun f => (number f).getD 0)
        ((files.filter fun f => (place f).isSome).filter fun f => (number f).isSome) := by
    rw [inPlaces, filter_sortByKey_comm, List.filter_filter, List.filter_filter]
    simp only [Bool.and_comm]
  rw [hcomm]
  refine ⟨fun h => ?_, fun h => ?_⟩
  · have hknown : ∀ f ∈ files, (place f).isSome → (number f).isSome := by
      intro f hf hp
      have hmem : f ∈ inPlaces place files := mem_inPlaces.mpr ⟨hf, hp⟩
      rw [← h, (sortByKey_perm _ _).mem_iff] at hmem
      exact (List.mem_filter.mp hmem).2
    rw [filter_known hknown] at h
    exact ⟨hknown, sortByKey_eq_iff.mp h⟩
  · rw [filter_known h.known]
    exact sortByKey_eq_iff.mpr h.ordered

/-- All numbered files come in the places exactly if they are those that have one as well. -/
theorem inPlaces_eq_iff :
    inPlaces number files = inPlaces place files ↔
      Numbered number place files ∧ ∀ f ∈ files, (number f).isSome → (place f).isSome := by
  refine ⟨fun h => ?_, fun ⟨h, hplaced⟩ => ?_⟩
  · have hplaced : ∀ f ∈ files, (number f).isSome → (place f).isSome := fun f hf hn =>
      (mem_inPlaces.mp (h ▸ mem_inPlaces.mpr ⟨hf, hn⟩)).2
    refine ⟨filter_inPlaces_eq_iff.mp ?_, hplaced⟩
    rw [h]
    exact List.filter_eq_self.mpr fun f hf => (mem_inPlaces.mp hf).2
  · rw [← filter_inPlaces_eq_iff.mpr h]
    refine (List.filter_eq_self.mpr fun f hf => ?_).symm
    exact hplaced f (mem_inPlaces.mp hf).1 (mem_inPlaces.mp hf).2

namespace CharClasses
variable (cls : CharClasses)

/-- The `NN` of a `.partNN.rar` file. -/
def partPlace (f : NzbFile) : Option Nat :=
  f.name.bind fun name => (firstMatch cls.partAt name.toList).bind fun digits =>
    if digits.all (·.isDigit) then some (decimal digits) else none

/-- **What a search for the volumes is to find**: without `.partNN.rar` files every old-style
volume once and in its place, else exactly the `.partNN.rar` files by their numbers. -/
structure VolumesFound (nzb : Nzb) : Prop where
  old : (∀ f ∈ nzb.files, cls.partPlace f = none) →
    (cls.findRarVolumes nzb).filter (fun f => f.volumePlace.isSome) =
      inPlaces NzbFile.volumePlace nzb.files
  parts : (∃ f ∈ nzb.files, (cls.partPlace f).isSome) →
    cls.findRarVolumes nzb = inPlaces cls.partPlace nzb.files

/-! ## What the search finds -/

def partNumber (f : NzbFile) : Option Nat := f.name.bind cls.partVolumeNumber

/-- The number of an old-style volume, by the ending `.rar` or the first `.rNN` of its name. -/
def oldNumber (f : NzbFile) : Option Nat :=
  if f.isPar2 then none
  else f.name.bind fun name =>
    if name.toLower.endsWith ".rar" then some 1 else (cls.oldStyleVolumeNumber name).map (· + 1)

/-- The files that are numbered, by their numbers. -/
theorem numbered_files (number : NzbFile → Option Nat) (files : List NzbFile) :
    (sortByKey (·.1) (files.filterMap fun f => (number f).map fun n => (n, f))).map (·.2) =
      inPlaces number files := by
  let pair : NzbFile → Nat × NzbFile := fun f => ((number f).getD 0, f)
  have hpairs : files.filterMap (fun f => (number f).map fun n => (n, f)) =
      (files.filter fun f => (number f).isSome).map pair := by
    induction files with
    | nil => rfl
    | cons f files ih => cases hf : number f <;> simp [hf, ih, pair]
  rw [hpairs, sortByKey, ← List.map_insertionSort (fun f g => (number f).getD 0 ≤ (number g).getD 0)
    _ pair _ fun _ _ _ _ => Iff.rfl, List.map_map]
  exact List.map_id' _

theorem oldVolume_eq (f : NzbFile) : cls.oldVolume f = (cls.oldNumber f).map fun n => (n, f) := by
  unfold oldVolume oldNumber
  cases f.isPar2 with
  | true => rfl
  | false =>
    cases f.name with
    | none => rfl
    | some name =>
      simp only [Option.bind_some, Bool.false_eq_true, ↓reduceIte]
      split
      · rfl
      · rw [Option.map_map]
        rfl

theorem findRarVolumes_eq (nzb : Nzb) : cls.findRarVolumes nzb =
    inPlaces (if nzb.files.any (fun f => (cls.partNumber f).isSome) then cls.partNumber
      else cls.oldNumber) nzb.files := by
  have hmodern : (nzb.files.filterMap fun f =>
      f.name.bind fun n => (cls.partVolumeNumber n).map fun p => (p, f)) =
      nzb.files.filterMap fun f => (cls.partNumber f).map fun p => (p, f) := by
    simp only [partNumber, Option.map_bind]
    rfl
  have hempty : (nzb.files.filterMap fun f => (cls.partNumber f).map fun p => (p, f)) ≠ [] ↔
      nzb.files.any (fun f => (cls.partNumber f).isSome) = true := by
    simp [List.filterMap_eq_nil_iff, Option.isSome_iff_ne_none]
  rw [findRarVolumes, hmodern]
  simp only [oldVolume_eq]
  split
  · rename_i h
    rw [numbered_files, if_pos (hempty.mp h)]
  · rename_i h
    rw [numbered_files, if_neg fun h' => h (hempty.mpr h')]

/-- The part numbers of the search are those that fit a `u32`. -/
theorem partNumber_eq (f : NzbFile) :
    cls.partNumber f = (cls.partPlace f).filter fun n => n < 2 ^ 32 := by
  unfold partNumber partVolumeNumber partPlace
  cases f.name with
  | none => rfl
  | some name =>
    simp only [Option.bind_some]
    cases firstMatch cls.partAt name.toList with
    | none => rfl
    | some digits =>
      simp only [Option.bind_some, parseU32]
      split
      · change (if decimal digits < 2 ^ 32 then some (decimal digits) else none) = _
        simp only [Option.filter_some, decide_eq_true_eq]
      · rfl

/-! ## Marks -/

/-- A mark `.rNN` or `.rNNN` at the front, in either case: two or three digits, and behind them the
end or a character that is no dot, no digit and no part of a word. -/
structure MarkAt (cs digits : List Char) : Prop where
  front : ∃ r rest, cs = '.' :: r :: (digits ++ rest) ∧ r.toLower = 'r' ∧
    ∀ c ∈ rest.head?, c ≠ '.' ∧ cls.digit c = false ∧ cls.word c = false
  allDigits : ∀ d ∈ digits, cls.digit d = true
  length : digits.length = 2 ∨ digits.length = 3

/-- The first mark in a name. -/
def FirstMark (name : String) (digits : List Char) : Prop :=
  ∃ pre suf, name.toList = pre ++ suf ∧ cls.MarkAt suf digits ∧
    ∀ a b, name.toList = a ++ b → a.length < pre.length → ∀ ds, ¬ cls.MarkAt b ds

/-- The number that the name of an old-style volume bears: 0 for `.rar`, or else one more than that
of its first mark, in the digits 0 to 9. -/
def Marked (f : NzbFile) (n : Nat) : Prop :=
  f.isPar2 = false ∧ ∃ name, f.name = some name ∧
    if name.toLower.endsWith ".rar" then n = 0
    else ∃ digits, cls.FirstMark name digits ∧ (∀ d ∈ digits, d.isDigit = true) ∧
      n = decimal digits + 1

/-- Every file that has a place bears a number, and the numbers order these files as the places
do. -/
structure MarkedAs (place : NzbFile → Option Nat) (files : List NzbFile) : Prop where
  known : ∀ f ∈ files, (place f).isSome → ∃ n, cls.Marked f n
  ordered : (files.filter fun f => (place f).isSome).Pairwise fun f g =>
    ∀ m n, cls.Marked f m → cls.Marked g n → (m ≤ n ↔ (place f).getD 0 ≤ (place g).getD 0)

section
variable {cls}

theorem dropLiteral_mark {cs rest : List Char} : dropLiteral ".r".toList cs = some rest ↔
    ∃ r, cs = '.' :: r :: rest ∧ r.toLower = 'r' := by
  have hlit : ".r".toList = ['.', 'r'] := rfl
  have hdots : '.'.toLower = '.' := rfl
  rw [hlit]
  constructor
  · intro h
    match cs with
    | [] | [_] => simp [dropLiteral] at h
    | dot :: r :: cs =>
      simp only [dropLiteral] at h
      split at h
      · next hdot =>
        split at h
        · next hr =>
          cases h
          have hself : dot.toLower = dot := toLower_eq_self (by rw [hdot]; decide)
          exact ⟨r, by rw [← hself, hdot], hr⟩
        · cases h
      · cases h
  · rintro ⟨r, rfl, hr⟩
    simp [dropLiteral, hdots, hr]

theorem boundary_iff {cs : List Char} :
    cls.boundary cs = true ↔ ∀ c ∈ cs.head?, c ≠ '.' ∧ cls.word c = false := by
  cases cs <;> simp [boundary]

/-- **The expression finds the marks.** -/
theorem oldStyleAt_eq_some {cs digits : List Char} :
    cls.oldStyleAt cs = some digits ↔ cls.MarkAt cs digits := by
  constructor
  · intro h
    obtain ⟨rest, hrest, hd⟩ := Option.bind_eq_some_iff.mp h
    obtain ⟨r, rfl, hr⟩ := dropLiteral_mark.mp hrest
    simp only at hd
    split at hd
    · next hok =>
      cases hd
      simp only [Bool.and_eq_true, Bool.or_eq_true, decide_eq_true_eq] at hok
      have hdrop : rest.drop (rest.takeWhile cls.digit).length = rest.dropWhile cls.digit :=
        (congrArg (List.drop _) List.takeWhile_append_dropWhile.symm).trans List.drop_left
      refine ⟨⟨r, rest.dropWhile cls.digit, by rw [List.takeWhile_append_dropWhile], hr,
        fun c hc => ?_⟩, fun d hd => List.mem_takeWhile_imp hd, hok.1⟩
      have hb := boundary_iff.mp (hdrop ▸ hok.2) c hc
      refine ⟨hb.1, ?_, hb.2⟩
      have hnot := List.head?_dropWhile_not cls.digit rest
      rw [Option.mem_def.mp hc] at hnot
      exact hnot
    · cases hd
  · rintro ⟨⟨r, rest, rfl, hr, hrest⟩, hdigits, hlen⟩
    rw [oldStyleAt, dropLiteral_mark.mpr ⟨r, rfl, hr⟩, Option.bind_some]
    have htake : (digits ++ rest).takeWhile cls.digit = digits := by
      rw [List.takeWhile_append_of_pos hdigits]
      cases rest with
      | nil => simp
      | cons c rest => simp [(hrest c rfl).2.1]
    have hdrop : (digits ++ rest).drop digits.length = rest := List.drop_left
    simp only [htake, hdrop]
    rw [if_pos]
    rw [Bool.and_eq_true, boundary_iff]
    exact ⟨by simpa using hlen, fun c hc => ⟨(hrest c hc).1, (hrest c hc).2.2⟩⟩

/-- **The leftmost match.** -/
theorem firstMatch_eq_some {α : Type} {matchAt : List Char → Option α} {x : α} :
    ∀ {cs : List Char}, firstMatch matchAt cs = some x ↔ ∃ pre suf, cs = pre ++ suf ∧
      matchAt suf = some x ∧ ∀ a b, cs = a ++ b → a.length < pre.length → matchAt b = none
  | [] => by
    constructor
    · exact fun h => ⟨[], [], rfl, h, fun _ _ _ hlt => absurd hlt (Nat.not_lt_zero _)⟩
    · rintro ⟨pre, suf, hcs, h, -⟩
      obtain ⟨-, rfl⟩ := List.append_eq_nil_iff.mp hcs.symm
      exact h
  | c :: cs => by
    rw [firstMatch, Option.or_eq_some_iff, firstMatch_eq_some]
    constructor
    · rintro (h | ⟨hnone, pre, suf, rfl, h, hfirst⟩)
      · exact ⟨[], c :: cs, rfl, h, fun _ _ _ hlt => absurd hlt (Nat.not_lt_zero _)⟩
      · refine ⟨c :: pre, suf, rfl, h, fun a b hab hlt => ?_⟩
        cases a with
        | nil =>
          rw [← show c :: (pre ++ suf) = b from hab]
          exact hnone
        | cons d a =>
          injection hab with _ hab
          exact hfirst a b hab (Nat.lt_of_succ_lt_succ hlt)
    · rintro ⟨pre, suf, hcs, h, hfirst⟩
      cases pre with
      | nil => exact .inl (hcs ▸ h)
      | cons d pre =>
        injection hcs with hd hcs
        refine .inr ⟨hfirst [] _ rfl (Nat.succ_pos _), pre, suf, hcs, h, fun a b hab hlt => ?_⟩
        exact hfirst (c :: a) b (by rw [hab]; rfl) (Nat.succ_lt_succ hlt)

theorem firstMatch_oldStyle {name : String} {digits : List Char} :
    firstMatch cls.oldStyleAt name.toList = some digits ↔ cls.FirstMark name digits := by
  simp only [firstMatch_eq_some, FirstMark, oldStyleAt_eq_some, Option.eq_none_iff_forall_ne_some,
    ne_eq]

theorem decimal_lt_of_length {digits : List Char} (h : ∀ d ∈ digits, d.isDigit = true) :
    decimal digits < 10 ^ digits.length := by
  induction digits using List.reverseRecOn with
  | nil => decide
  | append_singleton ds d ih =>
    have hd := isDigit_iff.mp (h d (by simp))
    have hds := ih fun e he => h e (List.mem_append_left _ he)
    have hzero : '0'.toNat = 48 := rfl
    rw [decimal, List.foldl_append, List.length_append, List.length_singleton, Nat.pow_succ]
    change 10 * decimal ds + (d.toNat - '0'.toNat) < _
    omega

/-- The digits of a mark are few. -/
theorem parseU32_mark {cs digits : List Char} {n : Nat} (h : cls.MarkAt cs digits) :
    parseU32 digits = some n ↔ (∀ d ∈ digits, d.isDigit = true) ∧ n = decimal digits := by
  unfold parseU32
  split
  · next hall =>
    have hall : ∀ d ∈ digits, d.isDigit = true := List.all_eq_true.mp hall
    have hlt : decimal digits < 2 ^ 32 := by
      refine (decimal_lt_of_length hall).trans_le ?_
      rcases h.length with hl | hl <;> rw [hl] <;> decide
    change (if decimal digits < 2 ^ 32 then some (decimal digits) else none) = some n ↔ _
    rw [if_pos hlt]
    exact ⟨fun he => ⟨hall, (Option.some.inj he).symm⟩, fun he => congrArg some he.2.symm⟩
  · next hall => exact ⟨fun he => (by cases he), fun he => absurd (List.all_eq_true.mpr he.1) hall⟩

/-- **The search numbers the files as their names are marked**, from 1 on. -/
theorem oldNumber_eq_some {f : NzbFile} {k : Nat} :
    cls.oldNumber f = some k ↔ ∃ n, cls.Marked f n ∧ k = n + 1 := by
  unfold oldNumber Marked
  cases f.isPar2 with
  | true => simp
  | false =>
    cases f.name with
    | none => simp
    | some name =>
      by_cases hrar : name.toLower.endsWith ".rar" = true
      · simpa [hrar] using eq_comm
      · have hold : ∀ j, cls.oldStyleVolumeNumber name = some j ↔ ∃ digits,
            cls.FirstMark name digits ∧ (∀ d ∈ digits, d.isDigit = true) ∧
              j = decimal digits + 1 := by
          intro j
          rw [oldStyleVolumeNumber, Option.map_eq_some_iff]
          constructor
          · rintro ⟨n, hn, rfl⟩
            obtain ⟨digits, hd, hparse⟩ := Option.bind_eq_some_iff.mp hn
            have hmark := firstMatch_oldStyle.mp hd
            obtain ⟨-, suf, -, hat, -⟩ := hmark
            obtain ⟨hall, rfl⟩ := (parseU32_mark hat).mp hparse
            exact ⟨digits, firstMatch_oldStyle.mp hd, hall, rfl⟩
          · rintro ⟨digits, hmark, hall, rfl⟩
            have hd := firstMatch_oldStyle.mpr hmark
            obtain ⟨-, suf, -, hat, -⟩ := hmark
            exact ⟨decimal digits, Option.bind_eq_some_iff.mpr
              ⟨digits, hd, (parseU32_mark hat).mpr ⟨hall, rfl⟩⟩, rfl⟩
        simp only [Bool.false_eq_true, if_false, Option.bind_some, hrar, Option.map_eq_some_iff,
          hold, Option.some.injEq, true_and, exists_eq_left']
        constructor
        · rintro ⟨j, hj, rfl⟩
          exact ⟨j, hj, rfl⟩
        · rintro ⟨j, hj, rfl⟩
          exact ⟨j, hj, rfl⟩

theorem oldNumber_isSome {f : NzbFile} : (cls.oldNumber f).isSome ↔ ∃ n, cls.Marked f n := by
  rw [Option.isSome_iff_exists]
  constructor
  · rintro ⟨k, hk⟩
    obtain ⟨n, hn, -⟩ := oldNumber_eq_some.mp hk
    exact ⟨n, hn⟩
  · rintro ⟨n, hn⟩
    exact ⟨n + 1, oldNumber_eq_some.mpr ⟨n, hn, rfl⟩⟩

/-- The search numbers the files as it should if and only if their names do. -/
theorem numbered_iff_markedAs {place : NzbFile → Option Nat} {files : List NzbFile} :
    Numbered cls.oldNumber place files ↔ cls.MarkedAs place files := by
  have horder : ∀ f g, (cls.oldNumber f).isSome → (cls.oldNumber g).isSome →
      (OrderAlike cls.oldNumber place f g ↔ ∀ m n, cls.Marked f m → cls.Marked g n →
        (m ≤ n ↔ (place f).getD 0 ≤ (place g).getD 0)) := by
    intro f g hf hg
    obtain ⟨m, hm⟩ := oldNumber_isSome.mp hf
    obtain ⟨n, hn⟩ := oldNumber_isSome.mp hg
    have hfm : ∀ {h : NzbFile} {i j : Nat}, cls.Marked h i → cls.Marked h j → i = j := by
      intro h i j hi hj
      have := (oldNumber_eq_some.mpr ⟨i, hi, rfl⟩).symm.trans (oldNumber_eq_some.mpr ⟨j, hj, rfl⟩)
      exact Nat.succ.inj (Option.some.inj this)
    rw [OrderAlike, oldNumber_eq_some.mpr ⟨m, hm, rfl⟩, oldNumber_eq_some.mpr ⟨n, hn, rfl⟩]
    simp only [Option.getD_some, Nat.add_le_add_iff_right]
    refine ⟨fun h m' n' hm' hn' => ?_, fun h => h m n hm hn⟩
    rw [hfm hm' hm, hfm hn' hn]
    exact h
  have hmem : ∀ (known : ∀ f ∈ files, (place f).isSome → (cls.oldNumber f).isSome) {f : NzbFile},
      f ∈ files.filter (fun f => (place f).isSome) → (cls.oldNumber f).isSome := by
    intro known f hf
    exact known f (List.mem_filter.mp hf).1 (List.mem_filter.mp hf).2
  constructor
  · rintro ⟨known, ordered⟩
    refine ⟨fun f hf hp => oldNumber_isSome.mp (known f hf hp), ?_⟩
    exact ordered.imp_of_mem fun hf hg => (horder _ _ (hmem known hf) (hmem known hg)).mp
  · rintro ⟨known, ordered⟩
    have known' : ∀ f ∈ files, (place f).isSome → (cls.oldNumber f).isSome := fun f hf hp =>
      oldNumber_isSome.mpr (known f hf hp)
    refine ⟨known', ?_⟩
    exact ordered.imp_of_mem fun hf hg => (horder _ _ (hmem known' hf) (hmem known' hg)).mpr

end

/-! ## When it finds them -/

/-- **What the names must be like**: every old-style volume bears a number, and the numbers order
the volumes as their endings do; the part numbers are below `2^32`, or all of them past it while the
old-style names happen to single out the same files in the same order. -/
structure VolumesNamed (nzb : Nzb) : Prop where
  old : (∀ f ∈ nzb.files, cls.partPlace f = none) →
    cls.MarkedAs NzbFile.volumePlace nzb.files
  parts : (∃ f ∈ nzb.files, (cls.partPlace f).isSome) →
    (∀ f ∈ nzb.files, ∀ n, cls.partPlace f = some n → n < 2 ^ 32) ∨
    (∀ f ∈ nzb.files, ∀ n, cls.partPlace f = some n → 2 ^ 32 ≤ n) ∧
      cls.MarkedAs cls.partPlace nzb.files ∧
      ∀ f ∈ nzb.files, ∀ n, cls.Marked f n → (cls.partPlace f).isSome

variable {cls} {nzb : Nzb}

theorem partNumber_eq_of_lt {f : NzbFile} (h : ∀ n, cls.partPlace f = some n → n < 2 ^ 32) :
    cls.partNumber f = cls.partPlace f := by
  rw [partNumber_eq]
  cases hf : cls.partPlace f with
  | none => rfl
  | some n => rw [Option.filter_some, if_pos (decide_eq_true (h n hf))]

theorem partNumber_eq_none {f : NzbFile} (h : ∀ n, cls.partPlace f = some n → 2 ^ 32 ≤ n) :
    cls.partNumber f = none := by
  rw [partNumber_eq]
  cases hf : cls.partPlace f with
  | none => rfl
  | some n =>
    have hn := h n hf
    rw [Option.filter_some, if_neg (by simpa using hn)]

/-- Where no part number fits, the search is the old-style one. -/
theorem findRarVolumes_of_past
    (h : ∀ f ∈ nzb.files, ∀ n, cls.partPlace f = some n → 2 ^ 32 ≤ n) :
    cls.findRarVolumes nzb = inPlaces cls.oldNumber nzb.files := by
  rw [findRarVolumes_eq, if_neg]
  simp only [List.any_eq_true, not_exists, not_and]
  intro f hf
  rw [partNumber_eq_none (h f hf)]
  simp

/-- Where a part number fits, the search is the one for parts. -/
theorem findRarVolumes_of_lt {f : NzbFile} {n : Nat} (hf : f ∈ nzb.files)
    (hn : cls.partPlace f = some n) (hlt : n < 2 ^ 32) :
    cls.findRarVolumes nzb = inPlaces cls.partNumber nzb.files := by
  rw [findRarVolumes_eq, if_pos]
  refine List.any_eq_true.mpr ⟨f, hf, ?_⟩
  rw [partNumber_eq, hn]
  simpa using hlt

theorem inPlaces_congr {number place : NzbFile → Option Nat} {files : List NzbFile}
    (h : ∀ f ∈ files, number f = place f) : inPlaces number files = inPlaces place files := by
  refine inPlaces_eq_iff.mpr ⟨⟨fun f hf => by rw [h f hf]; exact id, ?_⟩,
    fun f hf => by rw [h f hf]; exact id⟩
  refine List.pairwise_of_forall_mem_list fun f hf g hg => ?_
  rw [OrderAlike, h f (List.mem_filter.mp hf).1, h g (List.mem_filter.mp hg).1]

/-- **The search finds the volumes if and only if they are so named.** -/
theorem volumesFound_iff_named : cls.VolumesFound nzb ↔ cls.VolumesNamed nzb := by
  have hold : (∀ f ∈ nzb.files, cls.partPlace f = none) →
      cls.findRarVolumes nzb = inPlaces cls.oldNumber nzb.files := fun h =>
    findRarVolumes_of_past fun f hf n hn => by rw [h f hf] at hn; cases hn
  refine ⟨fun h => ⟨fun hnone => ?_, fun hsome => ?_⟩, fun h => ⟨fun hnone => ?_, fun hsome => ?_⟩⟩
  · exact numbered_iff_markedAs.mp (filter_inPlaces_eq_iff.mp (hold hnone ▸ h.old hnone))
  · have hfound := h.parts hsome
    by_cases hpast : ∀ f ∈ nzb.files, ∀ n, cls.partPlace f = some n → 2 ^ 32 ≤ n
    · rw [findRarVolumes_of_past hpast] at hfound
      obtain ⟨hnum, hplaced⟩ := inPlaces_eq_iff.mp hfound
      exact .inr ⟨hpast, numbered_iff_markedAs.mp hnum, fun f hf n hn =>
        hplaced f hf (oldNumber_isSome.mpr ⟨n, hn⟩)⟩
    · push Not at hpast
      obtain ⟨f, hf, n, hn, hlt⟩ := hpast
      rw [findRarVolumes_of_lt hf hn hlt] at hfound
      refine .inl fun g hg m hm => ?_
      -- a part that has a place is among the numbered ones
      have hnum := (inPlaces_eq_iff.mp hfound).1.known g hg (by rw [hm]; rfl)
      rw [partNumber_eq, hm] at hnum
      simpa [Option.filter] using hnum
  · rw [hold hnone]
    exact filter_inPlaces_eq_iff.mpr (numbered_iff_markedAs.mpr (h.old hnone))
  · obtain ⟨f, hf, hn⟩ := hsome
    obtain ⟨n, hn⟩ := Option.isSome_iff_exists.mp hn
    rcases h.parts ⟨f, hf, by rw [hn]; rfl⟩ with hlt | ⟨hpast, hnum, hplaced⟩
    · rw [findRarVolumes_of_lt hf hn (hlt f hf n hn)]
      exact inPlaces_congr fun g hg => partNumber_eq_of_lt (hlt g hg)
    · rw [findRarVolumes_of_past hpast]
      exact inPlaces_eq_iff.mpr ⟨numbered_iff_markedAs.mpr hnum, fun f hf hn =>
        let ⟨n, hn⟩ := oldNumber_isSome.mp hn
        hplaced f hf n hn⟩

end CharClasses

/-! ## Plain names -/

theorem not_dot_of_isDigit {c : Char} (h : c.isDigit) : c.toLower ≠ '.' := by
  intro hdot
  have hself : c.toLower = c := toLower_eq_self (by rw [hdot]; decide)
  rw [hself] at hdot
  subst hdot
  cases h

theorem decimal_lt {d₀ d₁ : Char} (h₀ : d₀.isDigit) (h₁ : d₁.isDigit) : decimal [d₀, d₁] < 100 :=
  CharClasses.decimal_lt_of_length (by simp [h₀, h₁])

/-- A name with a place past 0 ends in the letter of its series and two digits. -/
theorem endingPlace_pos {name : String} {k : Nat} (h : endingPlace name = some k)
    (hrar : name.toLower.endsWith ".rar" = false) :
    ∃ pre c d₀ d₁ i, name.toList = pre ++ ['.', c, d₀, d₁] ∧ d₀.isDigit ∧ d₁.isDigit ∧
      ['r', 's', 't', 'u', 'v'][i]? = some c.toLower ∧ k = 100 * i + decimal [d₀, d₁] + 1 := by
  rw [endingPlace, hrar, if_neg (by simp)] at h
  split at h
  · rename_i d₁ d₀ series rest hrev
    split at h
    · rename_i hd
      rw [Bool.and_eq_true] at hd
      obtain ⟨i, hi, hk⟩ := Option.map_eq_some_iff.mp h
      have hlower : name.toList.map Char.toLower = rest.reverse ++ ['.', series, d₀, d₁] := by
        rw [← toList_toLower, ← List.reverse_inj, hrev]
        simp
      obtain ⟨pre, tail, hname, -, htail⟩ := List.map_eq_append_iff.mp hlower
      obtain ⟨dot, tail₁, rfl, hdot, htail₁⟩ := List.map_eq_cons_iff.mp htail
      obtain ⟨c, tail₂, rfl, rfl, htail₂⟩ := List.map_eq_cons_iff.mp htail₁
      obtain ⟨e₀, tail₃, rfl, rfl, htail₃⟩ := List.map_eq_cons_iff.mp htail₂
      obtain ⟨e₁, tail₄, rfl, rfl, htail₄⟩ := List.map_eq_cons_iff.mp htail₃
      obtain rfl := List.map_eq_nil_iff.mp htail₄
      have h₀ : e₀.toLower = e₀ := toLower_eq_self (by have := isDigit_iff.mp hd.1; omega)
      have h₁ : e₁.toLower = e₁ := toLower_eq_self (by have := isDigit_iff.mp hd.2; omega)
      have hdot' : dot.toLower = dot := toLower_eq_self (by rw [hdot]; decide)
      rw [h₀, h₁] at hd hk
      rw [← hdot', hdot] at hname
      obtain ⟨hlt, heq, -⟩ := List.findIdx?_eq_some_iff_getElem.mp hi
      refine ⟨pre, c, e₀, e₁, i, hname, hd.1, hd.2, ?_, hk.symm⟩
      rw [List.getElem?_eq_getElem hlt, beq_iff_eq.mp heq]
    · cases h
  · cases h

theorem firstMatch_append {α : Type} {matchAt : List Char → Option α} {cs : List Char} :
    ∀ {pre : List Char}, (∀ a b, pre ++ cs = a ++ b → cs.length < b.length → matchAt b = none) →
      firstMatch matchAt (pre ++ cs) = firstMatch matchAt cs
  | [], _ => rfl
  | c :: pre, h => by
    have hlen : cs.length < (c :: (pre ++ cs)).length := by
      rw [List.length_cons, List.length_append]
      omega
    rw [List.cons_append, firstMatch, h [] (c :: (pre ++ cs)) rfl hlen, Option.none_or]
    exact firstMatch_append fun a b hab hlen =>
      h (c :: a) b (by rw [List.cons_append, hab, List.cons_append]) hlen

namespace CharClasses
variable {cls : CharClasses}

/-- There is no mark before the ending of the name. -/
def Plain (cls : CharClasses) (name : String) : Prop :=
  ∀ a b, name.toList = a ++ b → 4 < b.length → ∀ digits, ¬ cls.MarkAt b digits

theorem oldStyleVolumeNumber_of_plain (hdigit : ∀ c, c.isDigit → cls.digit c) {name : String}
    {pre : List Char} {c d₀ d₁ : Char} (hplain : cls.Plain name)
    (hname : name.toList = pre ++ ['.', c, d₀, d₁]) (hc : c.toLower ≠ '.') (h₀ : d₀.isDigit)
    (h₁ : d₁.isDigit) : cls.oldStyleVolumeNumber name =
      if c.toLower = 'r' then some (decimal [d₀, d₁] + 1) else none := by
  have hfirst : firstMatch cls.oldStyleAt name.toList =
      if c.toLower = 'r' then some [d₀, d₁] else none := by
    rw [hname, firstMatch_append fun a b hab hlen => Option.eq_none_iff_forall_ne_some.mpr
      fun digits hd => hplain a b (hname.trans hab) hlen digits (oldStyleAt_eq_some.mp hd)]
    have hdot₀ : d₀.toLower ≠ '.' := not_dot_of_isDigit h₀
    have hdot₁ : d₁.toLower ≠ '.' := not_dot_of_isDigit h₁
    have hlit : ".r".toList = ['.', 'r'] := rfl
    have hdots : '.'.toLower = '.' := rfl
    by_cases hr : c.toLower = 'r'
    · simp [firstMatch, oldStyleAt, hlit, dropLiteral, hdots, hr, hdigit d₀ h₀, hdigit d₁ h₁,
        boundary]
    · simp [firstMatch, oldStyleAt, hlit, dropLiteral, hdots, hr, hc, hdot₀, hdot₁]
  have hparse : parseU32 [d₀, d₁] = some (decimal [d₀, d₁]) := by
    have := decimal_lt h₀ h₁
    have hall : [d₀, d₁].all (·.isDigit) = true := by simp [h₀, h₁]
    rw [parseU32, if_pos hall]
    exact if_pos (by unfold decimal at this; omega)
  rw [oldStyleVolumeNumber, hfirst]
  split
  · rw [Option.bind_some, hparse]
    rfl
  · rfl

/-- Of plainly named volumes the search knows the first hundred and one. -/
theorem oldNumber_of_plain (hdigit : ∀ c, c.isDigit → cls.digit c) {f : NzbFile} {k : Nat}
    (hplain : ∀ name, f.name = some name → cls.Plain name) (hk : f.volumePlace = some k) :
    cls.oldNumber f = if k ≤ 100 then some (k + 1) else none := by
  unfold NzbFile.volumePlace at hk
  unfold oldNumber
  split at hk
  · cases hk
  · obtain ⟨name, hname, hplace⟩ := Option.bind_eq_some_iff.mp hk
    rw [if_neg ‹_›, hname, Option.bind_some]
    cases hrar : name.toLower.endsWith ".rar" with
    | true =>
      rw [endingPlace, if_pos hrar] at hplace
      cases hplace
      rfl
    | false =>
      obtain ⟨pre, c, d₀, d₁, i, hchars, h₀, h₁, hi, rfl⟩ := endingPlace_pos hplace hrar
      have hc : c.toLower ≠ '.' := fun hdot => by
        have := List.mem_of_getElem? hi
        rw [hdot] at this
        revert this
        decide
      have hlt := decimal_lt h₀ h₁
      rw [if_neg (by simp),
        oldStyleVolumeNumber_of_plain hdigit (hplain name hname) hchars hc h₀ h₁]
      cases i with
      | zero =>
        have hr : c.toLower = 'r' := by simpa using hi.symm
        rw [if_pos hr, if_pos (by omega)]
        simp
      | succ i =>
        have hr : c.toLower ≠ 'r' := fun hr => by
          rw [hr] at hi
          have := List.mem_of_getElem? (l := ['s', 't', 'u', 'v']) hi
          revert this
          decide
        rw [if_neg hr, if_neg (by omega)]
        rfl

theorem marked_of_plain (hdigit : ∀ c, c.isDigit → cls.digit c) {f : NzbFile} {k n : Nat}
    (hplain : ∀ name, f.name = some name → cls.Plain name) (hk : f.volumePlace = some k) :
    cls.Marked f n ↔ k ≤ 100 ∧ n = k := by
  have hmarked : cls.Marked f n ↔ cls.oldNumber f = some (n + 1) := by
    rw [oldNumber_eq_some]
    exact ⟨fun h => ⟨n, h, rfl⟩, fun ⟨m, hm, he⟩ => Nat.succ.inj he ▸ hm⟩
  rw [hmarked, oldNumber_of_plain hdigit hplain hk]
  split
  · simp [*, eq_comm]
  · simp [*]

/-- Without part files and with plain names the set has to end by `.r99`. -/
theorem volumesNamed_plain_iff {nzb : Nzb} (hdigit : ∀ c, c.isDigit → cls.digit c)
    (hparts : ∀ f ∈ nzb.files, cls.partPlace f = none)
    (hplain : ∀ f ∈ nzb.files, ∀ name, f.name = some name → cls.Plain name) :
    cls.VolumesNamed nzb ↔ ∀ f ∈ nzb.files, ∀ k, f.volumePlace = some k → k ≤ 100 := by
  refine ⟨fun h f hf k hk => ?_, fun h => ⟨fun _ => ⟨fun f hf hp => ?_, ?_⟩, fun hp => ?_⟩⟩
  · obtain ⟨n, hn⟩ := (h.old hparts).known f hf (by rw [hk]; rfl)
    exact ((marked_of_plain hdigit (hplain f hf) hk).mp hn).1
  · obtain ⟨k, hk⟩ := Option.isSome_iff_exists.mp hp
    exact ⟨k, (marked_of_plain hdigit (hplain f hf) hk).mpr ⟨h f hf k hk, rfl⟩⟩
  · have hplace : ∀ f ∈ nzb.files.filter (fun f => f.volumePlace.isSome), ∀ n, cls.Marked f n →
        n = f.volumePlace.getD 0 := by
      intro f hf n hn
      obtain ⟨hf, hp⟩ := List.mem_filter.mp hf
      obtain ⟨k, hk⟩ := Option.isSome_iff_exists.mp hp
      rw [hk]
      exact ((marked_of_plain hdigit (hplain f hf) hk).mp hn).2
    refine List.pairwise_of_forall_mem_list fun f hf g hg m n hm hn => ?_
    rw [hplace f hf m hm, hplace g hg n hn]
  · obtain ⟨f, hf, hp⟩ := hp
    rw [hparts f hf] at hp
    cases hp

/-- **The search finds the volumes if and only if they are so named**: without part files, and with
no mark before the ending of a name, if no volume is behind `.r99`. -/
theorem volumesFound_iff (cls : CharClasses) (nzb : Nzb) :
    (cls.VolumesFound nzb ↔ cls.VolumesNamed nzb) ∧
      ((∀ c, c.isDigit → cls.digit c) → (∀ f ∈ nzb.files, cls.partPlace f = none) →
        (∀ f ∈ nzb.files, ∀ name, f.name = some name → cls.Plain name) →
          (cls.VolumesFound nzb ↔
            ∀ f ∈ nzb.files, ∀ k, f.volumePlace = some k → k ≤ 100)) :=
  ⟨volumesFound_iff_named, fun hdigit hparts hplain =>
    volumesFound_iff_named.trans (volumesNamed_plain_iff hdigit hparts hplain)⟩

/-- The volumes after `.r99` are lost. -/
theorem extended_set_lost : ¬ (⟨Char.isDigit, Char.isAlphanum⟩ : CharClasses).VolumesFound
    ⟨[⟨some "Show.rar", true, false, 1, []⟩, ⟨some "Show.r00", true, false, 1, []⟩,
      ⟨some "Show.s00", true, false, 1, []⟩], []⟩ := by
  intro h
  have := h.old (by decide +kernel)
  revert this
  decide +kernel

end CharClasses
end StremioNzb.Streaming

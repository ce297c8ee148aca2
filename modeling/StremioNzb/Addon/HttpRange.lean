import Mathlib.Algebra.Ring.Nat
import StremioNzb.Addon.Candidates
import StremioNzb.Lib.Text

/-!
# The `Range` header

`http_range.rs`: which bytes a request asks for. `Spells` says how a header writes a range and
`RangeSpec.Requests` which bytes the range asks for; `ParsesRight` says that `parseRange` answers
a header so. It does except where a bound is written with a plus sign, which the integer parser
takes, or has no 64-bit value, which it does not take (`parsesRight_iff`).
-/

namespace StremioNzb.Addon

open StremioNzb.Lib

/-! ## The code -/

inductive ParsedRange where
  | full
  | partialRange (start stop : Nat)
  deriving DecidableEq, Repr

inductive RangeError where
  | malformed
  | multiRange
  | notSatisfiable
  deriving DecidableEq, Repr

/-- One plus sign may stand before the digits of an integer, not for them. -/
def stripSign : List Char → List Char
  | '+' :: c :: cs => c :: cs
  | cs => cs

/-- `str::parse::<u64>`. -/
def parseU64 (s : List Char) : Option Nat :=
  let digits := stripSign s
  if digits ≠ [] ∧ digits.all (·.isDigit) then
    let n := Nat.ofDigitChars 10 digits 0
    if n < 2 ^ 64 then some n else none
  else none

def trimmed (s : List Char) : List Char := trimBy isWhiteSpace s

def orMalformed {α : Type} : Option α → Except RangeError α
  | some a => .ok a
  | none => .error .malformed

@[simp] theorem orMalformed_some {α : Type} (a : α) : orMalformed (some a) = .ok a := rfl
@[simp] theorem orMalformed_none {α : Type} :
    orMalformed (none : Option α) = .error .malformed := rfl

/-- The range between the two trimmed sides of the dash. -/
def parseBounds (startS endS : List Char) (total : Nat) : Except RangeError ParsedRange :=
  match startS.isEmpty, endS.isEmpty with
  | true, true => .error .malformed
  | true, false => do
    let n ← orMalformed (parseU64 endS)
    if n = 0 then .error .notSatisfiable
    else
      let n := min n total
      .ok (.partialRange (total - n) (total - 1))
  | false, true => do
    let s ← orMalformed (parseU64 startS)
    if total ≤ s then .error .notSatisfiable else .ok (.partialRange s (total - 1))
  | false, false => do
    let s ← orMalformed (parseU64 startS)
    let e ← orMalformed (parseU64 endS)
    if e < s then .error .notSatisfiable
    else if total ≤ s then .error .notSatisfiable
    else .ok (.partialRange s (min e (total - 1)))

def parseRange (header : Option String) (total : Nat) : Except RangeError ParsedRange :=
  match header with
  | none => .ok .full
  | some raw => do
    let raw := trimmed raw.toList
    let spec ← orMalformed (raw.dropPrefix? "bytes=".toList)
    let spec := trimmed spec
    if ',' ∈ spec then .error .multiRange
    else if total = 0 then .error .notSatisfiable
    else do
      let (startS, endS) ← orMalformed (splitOnce '-' spec)
      parseBounds (trimmed startS) (trimmed endS) total

def contentRangeHeader (start stop total : Nat) : String := s!"bytes {start}-{stop}/{total}"

/-- `end - start + 1` of `video_route`, `none` where it underflows. -/
def contentLength (start stop : Nat) : Option Nat :=
  if start ≤ stop then some (stop - start + 1) else none

/-! ## What a header asks for -/

inductive RangeSpec where
  | span (first last : Nat)
  | onwards (first : Nat)
  | suffix (n : Nat)

/-- The bytes asked for, of those there are. -/
def RangeSpec.Requests (total : Nat) : RangeSpec → Nat → Prop
  | span first last, i => i < total ∧ first ≤ i ∧ i ≤ last
  | onwards first, i => i < total ∧ first ≤ i
  | suffix n, i => i < total ∧ total ≤ i + n

/-- A string of digits. -/
def Numeral (s : List Char) : Prop := s ≠ [] ∧ ∀ c ∈ s, c.isDigit

def numeralValue (s : List Char) : Nat := Nat.ofDigitChars 10 s 0

def Blank (s : List Char) : Prop := ∀ c ∈ s, isWhiteSpace c

/-- The header is `bytes=a-b` up to the whitespace that is trimmed. -/
def Form (h a b : List Char) : Prop :=
  ∃ w₁ w₂ w₃ w₄ w₅, Blank w₁ ∧ Blank w₂ ∧ Blank w₃ ∧ Blank w₄ ∧ Blank w₅ ∧
    h = w₁ ++ "bytes=".toList ++ w₂ ++ a ++ w₃ ++ '-' :: (w₄ ++ b ++ w₅)

/-- How two bounds write a range. -/
inductive Reads : List Char → List Char → RangeSpec → Prop
  | span {a b} : Numeral a → Numeral b → Reads a b (.span (numeralValue a) (numeralValue b))
  | onwards {a} : Numeral a → Reads a [] (.onwards (numeralValue a))
  | suffix {n} : Numeral n → Reads [] n (.suffix (numeralValue n))

/-- How a header writes a range. -/
def Spells (h : List Char) (r : RangeSpec) : Prop := ∃ a b, Form h a b ∧ Reads a b r

/-- A comma stands in what follows `bytes=`. -/
def Lists (h : List Char) : Prop :=
  ∃ w rest, Blank w ∧ h = w ++ "bytes=".toList ++ rest ∧ ',' ∈ rest

/-- The header is answered with the bytes it asks for. -/
structure ParsesRight (h : String) (total : Nat) : Prop where
  served : ∀ s e, parseRange (some h) total = .ok (.partialRange s e) ↔
    s ≤ e ∧ ∃ r, Spells h.toList r ∧ ∀ i, s ≤ i ∧ i ≤ e ↔ r.Requests total i
  unsatisfiable : ∀ r, Spells h.toList r → (∀ i, ¬ r.Requests total i) →
    parseRange (some h) total = .error .notSatisfiable
  multiple : Lists h.toList → parseRange (some h) total = .error .multiRange
  malformed : (∀ r, ¬ Spells h.toList r) → ¬ Lists h.toList →
    parseRange (some h) total = .error .malformed

/-! ## When the parser differs -/

/-- Digits behind a plus sign. -/
def Signed (s : List Char) : Prop := ∃ d, s = '+' :: d ∧ Numeral d

/-- The value of the digits, behind a sign or not. -/
def boundValue : List Char → Nat
  | '+' :: cs => numeralValue cs
  | cs => numeralValue cs

/-- Bounds of digits up to a plus sign that are signed where all values have 64 bits, and
unsigned where some value has more. -/
structure MisreadBounds (a b : List Char) : Prop where
  given : a ++ b ≠ []
  digits : ∀ s ∈ [a, b], s = [] ∨ Numeral s ∨ Signed s
  misread : (∃ s ∈ [a, b], Signed s) ∧ (∀ s ∈ [a, b], boundValue s < 2 ^ 64) ∨
    (∀ s ∈ [a, b], ¬ Signed s) ∧ ∃ s ∈ [a, b], 2 ^ 64 ≤ boundValue s

def Misread (h : List Char) : Prop := ∃ a b, Form h a b ∧ MisreadBounds a b

/-! ## Reading the parts off the header -/

/-- The two sides of the dash, where there is no comma. -/
def pieces (h : List Char) : Option (List Char × List Char) := do
  let rest ← (trimmed h).dropPrefix? "bytes=".toList
  if ',' ∈ trimmed rest then none
  else (splitOnce '-' (trimmed rest)).map fun p => (trimmed p.1, trimmed p.2)

/-- What may stand in a bound. -/
def Plain (s : List Char) : Prop := ∀ c ∈ s, isWhiteSpace c = false ∧ c ≠ '-' ∧ c ≠ ','

theorem Plain.nil : Plain [] := fun _ h => absurd h List.not_mem_nil

theorem plain_of_isDigit {c : Char} (h : c.isDigit) :
    isWhiteSpace c = false ∧ c ≠ '-' ∧ c ≠ ',' := by
  have hn : 48 ≤ c.toNat ∧ c.toNat ≤ 57 := Char.isDigit_iff_toNat.mp h
  refine ⟨?_, ?_, ?_⟩
  · simp only [isWhiteSpace, List.contains_cons, List.contains_nil, Bool.or_false,
      Bool.or_eq_false_iff, Bool.and_eq_false_iff, decide_eq_false_iff_not, beq_eq_false_iff_ne]
    omega
  · rintro rfl
    exact absurd hn (by decide)
  · rintro rfl
    exact absurd hn (by decide)

theorem Numeral.plain {s : List Char} (h : Numeral s) : Plain s := fun c hc =>
  plain_of_isDigit (h.2 c hc)

theorem Signed.plain {s : List Char} : Signed s → Plain s := by
  rintro ⟨d, rfl, hd⟩ c hc
  rcases List.mem_cons.mp hc with rfl | hc
  · decide
  · exact hd.plain c hc

theorem dropPrefix_eq_some {h k rest : List Char} :
    h.dropPrefix? k = some rest ↔ h = k ++ rest := by
  rw [List.dropPrefix?_eq_some_iff]
  constructor
  · rintro ⟨k', rfl, hk⟩
    rw [eq_of_beq hk]
  · rintro rfl
    exact ⟨k, rfl, beq_self_eq_true k⟩

theorem blank_append {s t : List Char} (hs : Blank s) (ht : Blank t) : Blank (s ++ t) :=
  List.forall_mem_append.mpr ⟨hs, ht⟩

section
variable {h a b : List Char}

theorem blank_dash : isWhiteSpace '-' = false := by decide

/-- Trimming leaves what stands behind `bytes=`, without the whitespace at its end. -/
theorem trimmed_keyword {w : List Char} (hw : Blank w) (rest : List Char) :
    trimmed (w ++ "bytes=".toList ++ rest) = "bytes=".toList ++ rest.rdropWhile isWhiteSpace := by
  have hkey : "bytes=".toList = 'b' :: "ytes".toList ++ ['='] := by decide
  rw [trimmed, trimBy, List.append_assoc, List.dropWhile_append_of_pos hw, hkey, List.append_assoc,
    List.cons_append, List.dropWhile_cons_of_neg (by decide), List.singleton_append,
    ← List.cons_append, rdropWhile_append_cons (by decide), List.append_assoc,
    List.singleton_append]

theorem not_mem_padded {c : Char} (hc : isWhiteSpace c = false) {w w' : List Char} (hw : Blank w)
    (hw' : Blank w') (ha : c ∉ a) : c ∉ w ++ a ++ w' := by
  have hblank : ∀ w : List Char, Blank w → c ∉ w := by
    intro w hw hmem
    have h := hw c hmem
    rw [hc] at h
    cases h
  simp only [List.mem_append, not_or]
  exact ⟨⟨hblank w hw, ha⟩, hblank w' hw'⟩

/-- The side before the dash. -/
theorem trimmed_start {w w' : List Char} (hw : Blank w) (hw' : Blank w') (ha : Plain a) :
    trimmed ((w ++ a ++ w').dropWhile isWhiteSpace) = a := by
  have h := trimBy_pad hw hw' fun c hc => (ha c hc).1
  rwa [trimBy, ← List.dropWhile_idempotent] at h

/-- The side behind the dash. -/
theorem trimmed_stop {w w' : List Char} (hw : Blank w) (hw' : Blank w') (hb : Plain b) :
    trimmed ((w ++ b ++ w').rdropWhile isWhiteSpace) = b := by
  rw [rdropWhile_append_of_all hw']
  by_cases hnil : b = []
  · rw [hnil, List.append_nil, List.rdropWhile_eq_nil_iff.mpr hw]
    rfl
  · have hself : (w ++ b).rdropWhile isWhiteSpace = w ++ b := by
      rw [List.rdropWhile_eq_self_iff]
      intro hne
      rw [List.getLast_append_of_ne_nil _ hnil]
      simpa using (hb _ (List.getLast_mem hnil)).1
    have hempty : Blank [] := fun c hc => absurd hc List.not_mem_nil
    have hpad := trimBy_pad hw hempty fun c hc => (hb c hc).1
    rw [List.append_nil] at hpad
    rw [hself, trimmed, hpad]

theorem pieces_of_form (hf : Form h a b) (ha : Plain a) (hb : Plain b) :
    pieces h = some (a, b) := by
  obtain ⟨w₁, w₂, w₃, w₄, w₅, h₁, h₂, h₃, h₄, h₅, rfl⟩ := hf
  have hraw : (trimmed (w₁ ++ "bytes=".toList ++ w₂ ++ a ++ w₃ ++
      '-' :: (w₄ ++ b ++ w₅))).dropPrefix? "bytes=".toList =
      some (w₂ ++ a ++ w₃ ++ '-' :: (w₄ ++ b ++ w₅).rdropWhile isWhiteSpace) := by
    rw [dropPrefix_eq_some, ← rdropWhile_append_cons blank_dash, ← trimmed_keyword h₁]
    simp only [List.append_assoc]
  have hspec : trimmed (w₂ ++ a ++ w₃ ++ '-' :: (w₄ ++ b ++ w₅).rdropWhile isWhiteSpace) =
      (w₂ ++ a ++ w₃).dropWhile isWhiteSpace ++
        '-' :: (w₄ ++ b ++ w₅).rdropWhile isWhiteSpace := by
    rw [trimmed, trimBy, dropWhile_append_cons blank_dash, rdropWhile_append_cons blank_dash,
      List.rdropWhile_idempotent]
  -- what is not whitespace is not in the sides where it is not in the bounds
  have hl : ∀ c, isWhiteSpace c = false → c ∉ a →
      c ∉ (w₂ ++ a ++ w₃).dropWhile isWhiteSpace := fun c hc hca hmem =>
    not_mem_padded hc h₂ h₃ hca ((List.dropWhile_suffix _).subset hmem)
  have hr : ∀ c, isWhiteSpace c = false → c ∉ b →
      c ∉ (w₄ ++ b ++ w₅).rdropWhile isWhiteSpace := fun c hc hcb hmem =>
    not_mem_padded hc h₄ h₅ hcb ((List.rdropWhile_prefix _ _).subset hmem)
  have hcomma : ',' ∉ (w₂ ++ a ++ w₃).dropWhile isWhiteSpace ++
      '-' :: (w₄ ++ b ++ w₅).rdropWhile isWhiteSpace := by
    simp only [List.mem_append, List.mem_cons, not_or]
    exact ⟨hl _ (by decide) fun h => (ha _ h).2.2 rfl, by decide,
      hr _ (by decide) fun h => (hb _ h).2.2 rfl⟩
  have hdash : '-' ∉ (w₂ ++ a ++ w₃).dropWhile isWhiteSpace :=
    hl _ blank_dash fun h => (ha _ h).2.1 rfl
  unfold pieces
  simp only [hraw, Option.bind_eq_bind, Option.bind_some, hspec, if_neg hcomma,
    splitOnce_append hdash, Option.map_some, trimmed_start h₂ h₃ ha, trimmed_stop h₄ h₅ hb]

theorem form_of_pieces (hp : pieces h = some (a, b)) : Form h a b := by
  unfold pieces at hp
  obtain ⟨rest, hrest, hp⟩ := Option.bind_eq_some_iff.mp hp
  split at hp
  · cases hp
  · obtain ⟨⟨l, r⟩, hsplit, heq⟩ := Option.map_eq_some_iff.mp hp
    cases heq
    obtain ⟨w₁, w₅, h₁, h₅, hh⟩ := exists_pad isWhiteSpace h
    obtain ⟨v, v', hv, hv', hspec⟩ := exists_pad isWhiteSpace rest
    obtain ⟨x, w₃, hx, h₃, hl⟩ := exists_pad isWhiteSpace l
    obtain ⟨w₄, y, h₄, hy, hr⟩ := exists_pad isWhiteSpace r
    refine ⟨w₁, v ++ x, w₃, w₄, y ++ v' ++ w₅, h₁, blank_append hv hx, h₃, h₄,
      blank_append (blank_append hy hv') h₅, ?_⟩
    have hside : l ++ '-' :: r = x ++ trimmed l ++ w₃ ++ '-' :: (w₄ ++ trimmed r ++ y) :=
      congrArg₂ (fun s t => s ++ '-' :: t) hl hr
    have hrest' : rest = v ++ (l ++ '-' :: r) ++ v' :=
      hspec.trans (by rw [← trimmed, splitOnce_eq_some hsplit])
    have hh' : h = w₁ ++ ("bytes=".toList ++ rest) ++ w₅ :=
      hh.trans (by rw [← trimmed, dropPrefix_eq_some.mp hrest])
    rw [hh', hrest', hside]
    simp only [List.append_assoc, List.cons_append]

theorem lists_iff : Lists h ↔
    ∃ rest, (trimmed h).dropPrefix? "bytes=".toList = some rest ∧ ',' ∈ trimmed rest := by
  have hcomma : isWhiteSpace ',' = false := by decide
  constructor
  · rintro ⟨w, rest, hw, rfl, hmem⟩
    refine ⟨_, dropPrefix_eq_some.mpr (trimmed_keyword hw rest), ?_⟩
    obtain ⟨l, r, rfl⟩ := List.append_of_mem hmem
    rw [trimmed, mem_trimBy hcomma, rdropWhile_append_cons hcomma]
    simp
  · rintro ⟨rest, hrest, hmem⟩
    obtain ⟨w, w', hw, -, heq⟩ := exists_pad isWhiteSpace h
    rw [← trimmed, dropPrefix_eq_some.mp hrest] at heq
    refine ⟨w, rest ++ w', hw, by rw [heq]; simp only [List.append_assoc], ?_⟩
    exact List.mem_append_left _ ((mem_trimBy hcomma).mp hmem)

theorem not_lists_of_pieces (hp : pieces h = some (a, b)) : ¬ Lists h := by
  intro hl
  obtain ⟨rest, hrest, hmem⟩ := lists_iff.mp hl
  unfold pieces at hp
  simp only [hrest, Option.bind_eq_bind, Option.bind_some, if_pos hmem] at hp
  cases hp

end

/-! ## What the code answers -/

section
variable {h : String} {total : Nat} {a b : List Char}

theorem parseRange_of_lists (hl : Lists h.toList) :
    parseRange (some h) total = .error .multiRange := by
  obtain ⟨rest, hrest, hmem⟩ := lists_iff.mp hl
  unfold parseRange
  simp only [hrest, orMalformed_some, Except.bind, bind, if_pos hmem]

theorem parseRange_of_pieces (htotal : 0 < total) (hp : pieces h.toList = some (a, b)) :
    parseRange (some h) total = parseBounds a b total := by
  unfold pieces at hp
  obtain ⟨rest, hrest, hp⟩ := Option.bind_eq_some_iff.mp hp
  split at hp
  · cases hp
  · rename_i hcomma
    obtain ⟨⟨l, r⟩, hsplit, heq⟩ := Option.map_eq_some_iff.mp hp
    cases heq
    unfold parseRange
    simp only [hrest, orMalformed_some, Except.bind, bind, if_neg hcomma, hsplit,
      if_neg (Nat.pos_iff_ne_zero.mp htotal)]

theorem parseRange_of_none (htotal : 0 < total) (hl : ¬ Lists h.toList)
    (hp : pieces h.toList = none) : parseRange (some h) total = .error .malformed := by
  rw [lists_iff] at hl
  unfold parseRange
  unfold pieces at hp
  cases hrest : (trimmed h.toList).dropPrefix? "bytes=".toList with
  | none => simp only [hrest, orMalformed_none, Except.bind, bind]
  | some rest =>
    have hcomma : ',' ∉ trimmed rest := fun hmem => hl ⟨rest, hrest, hmem⟩
    simp only [hrest, Option.bind_eq_bind, Option.bind_some, if_neg hcomma,
      Option.map_eq_none_iff] at hp
    simp only [hrest, orMalformed_some, orMalformed_none, Except.bind, bind, if_neg hcomma, hp,
      if_neg (Nat.pos_iff_ne_zero.mp htotal)]

theorem numeral_iff {s : List Char} :
    Numeral s ↔ (!s.isEmpty && s.all (·.isDigit)) = true := by
  cases s with
  | nil => exact iff_of_false (fun h => h.1 rfl) (by simp)
  | cons c s => simp [Numeral]

theorem not_numeral_plus (d : List Char) : ¬ Numeral ('+' :: d) := fun h =>
  absurd (h.2 '+' List.mem_cons_self) (by decide)

theorem signed_plus {d : List Char} : Signed ('+' :: d) ↔ Numeral d := by
  constructor
  · rintro ⟨d', heq, hd⟩
    cases heq
    exact hd
  · exact fun hd => ⟨d, rfl, hd⟩

/-- The integer parser takes digits behind a sign or none. -/
theorem numeral_stripSign (s : List Char) : Numeral (stripSign s) ↔ Numeral s ∨ Signed s := by
  unfold stripSign
  split
  · rw [signed_plus]
    exact ⟨.inr, fun h => h.resolve_left (not_numeral_plus _)⟩
  · rename_i cs hcs
    refine ⟨.inl, fun h => h.resolve_right ?_⟩
    rintro ⟨d, rfl, hd⟩
    cases d with
    | nil => exact hd.1 rfl
    | cons c d => exact hcs c d rfl

theorem numeralValue_stripSign {s : List Char} (hs : Numeral s ∨ Signed s) :
    numeralValue (stripSign s) = boundValue s := by
  rcases hs with hs | ⟨d, rfl, hd⟩
  · cases s with
    | nil => rfl
    | cons c s =>
      have hc : c ≠ '+' := fun h => not_numeral_plus s (h ▸ hs)
      rw [stripSign, boundValue]
      · intro cs heq
        exact hc (List.cons.inj heq).1
      · intro c' cs heq
        exact hc (List.cons.inj heq).1
  · cases d with
    | nil => exact absurd rfl hd.1
    | cons c d => rfl

theorem parseU64_eq_some {s : List Char} {n : Nat} :
    parseU64 s = some n ↔ (Numeral s ∨ Signed s) ∧ boundValue s = n ∧ n < 2 ^ 64 := by
  have hdigits : (stripSign s ≠ [] ∧ (stripSign s).all (·.isDigit)) ↔ Numeral s ∨ Signed s := by
    rw [← numeral_stripSign, Numeral, List.all_eq_true]
  unfold parseU64
  simp only
  by_cases hs : Numeral s ∨ Signed s
  · have hval : Nat.ofDigitChars 10 (stripSign s) 0 = boundValue s := numeralValue_stripSign hs
    rw [if_pos (hdigits.mpr hs), hval]
    split
    · simp only [Option.some.injEq, hs, true_and]
      omega
    · simp only [hs, true_and, reduceCtorEq, false_iff]
      omega
  · rw [if_neg fun h => hs (hdigits.mp h)]
    simp [hs]

theorem parseU64_of_lt {s : List Char} (hs : Numeral s ∨ Signed s) (hlt : boundValue s < 2 ^ 64) :
    parseU64 s = some (boundValue s) :=
  parseU64_eq_some.mpr ⟨hs, rfl, hlt⟩

theorem parseU64_eq_none {s : List Char} :
    parseU64 s = none ↔ ¬ (Numeral s ∨ Signed s) ∨ 2 ^ 64 ≤ boundValue s := by
  rw [Option.eq_none_iff_forall_ne_some]
  constructor
  · intro h
    by_cases hs : Numeral s ∨ Signed s
    · exact .inr (Nat.le_of_not_lt fun hlt => h _ (parseU64_of_lt hs hlt))
    · exact .inl hs
  · rintro h n hn
    obtain ⟨hs, hval, hlt⟩ := parseU64_eq_some.mp hn
    rcases h with h | h
    · exact h hs
    · omega

/-- What the code answers a range it has read. -/
def RangeSpec.answer (total : Nat) : RangeSpec → Except RangeError ParsedRange
  | span first last =>
    if last < first ∨ total ≤ first then .error .notSatisfiable
    else .ok (.partialRange first (min last (total - 1)))
  | onwards first =>
    if total ≤ first then .error .notSatisfiable else .ok (.partialRange first (total - 1))
  | suffix n =>
    if n = 0 then .error .notSatisfiable
    else .ok (.partialRange (total - min n total) (total - 1))

theorem parseBounds_span (ha : a ≠ []) (hb : b ≠ []) : parseBounds a b total =
    (parseU64 a).elim (.error .malformed) fun s =>
      (parseU64 b).elim (.error .malformed) fun e => (RangeSpec.span s e).answer total := by
  simp only [parseBounds, List.isEmpty_eq_false_iff.mpr ha, List.isEmpty_eq_false_iff.mpr hb]
  cases parseU64 a with
  | none => rfl
  | some s =>
    cases parseU64 b with
    | none => rfl
    | some e =>
      simp only [orMalformed_some, bind, Except.bind, Option.elim_some, RangeSpec.answer]
      by_cases h : e < s <;> simp [h]

theorem parseBounds_onwards (ha : a ≠ []) : parseBounds a [] total =
    (parseU64 a).elim (.error .malformed) fun s => (RangeSpec.onwards s).answer total := by
  simp only [parseBounds, List.isEmpty_eq_false_iff.mpr ha, List.isEmpty_nil]
  cases parseU64 a <;> rfl

theorem parseBounds_suffix (hb : b ≠ []) : parseBounds [] b total =
    (parseU64 b).elim (.error .malformed) fun n => (RangeSpec.suffix n).answer total := by
  simp only [parseBounds, List.isEmpty_eq_false_iff.mpr hb, List.isEmpty_nil]
  cases parseU64 b <;> rfl

/-- The answer is the bytes the range asks for, or that there are none. -/
theorem answer_cases (htotal : 0 < total) (r : RangeSpec) :
    (∃ s e, r.answer total = .ok (.partialRange s e) ∧ s ≤ e ∧
      ∀ i, s ≤ i ∧ i ≤ e ↔ r.Requests total i) ∨
    r.answer total = .error .notSatisfiable ∧ ∀ i, ¬ r.Requests total i := by
  cases r with
  | span first last =>
    simp only [RangeSpec.answer, RangeSpec.Requests]
    split
    · exact .inr ⟨rfl, fun i => by omega⟩
    · exact .inl ⟨_, _, rfl, by omega, fun i => by omega⟩
  | onwards first =>
    simp only [RangeSpec.answer, RangeSpec.Requests]
    split
    · exact .inr ⟨rfl, fun i => by omega⟩
    · exact .inl ⟨_, _, rfl, by omega, fun i => by omega⟩
  | suffix n =>
    simp only [RangeSpec.answer, RangeSpec.Requests]
    split
    · exact .inr ⟨rfl, fun i => by omega⟩
    · exact .inl ⟨_, _, rfl, by omega, fun i => by omega⟩

theorem answer_ne_malformed (htotal : 0 < total) (r : RangeSpec) :
    r.answer total ≠ .error .malformed := by
  rcases answer_cases htotal r with ⟨s, e, h, -⟩ | ⟨h, -⟩ <;> rw [h] <;> exact fun h => nomatch h

/-- The bounds are malformed exactly when there is none, or one is no 64-bit integer. -/
theorem parseBounds_malformed (htotal : 0 < total) :
    parseBounds a b total = .error .malformed ↔
      a ++ b = [] ∨ ∃ s ∈ [a, b], s ≠ [] ∧ parseU64 s = none := by
  by_cases ha : a = []
  · by_cases hb : b = []
    · simp [ha, hb, parseBounds]
    · rw [ha, parseBounds_suffix hb]
      cases hn : parseU64 b with
      | none => simp [hb, hn]
      | some n => simp [hb, hn, answer_ne_malformed htotal]
  · by_cases hb : b = []
    · rw [hb, parseBounds_onwards ha]
      cases hs : parseU64 a with
      | none => simp [ha, hs]
      | some s => simp [ha, hs, answer_ne_malformed htotal]
    · rw [parseBounds_span ha hb]
      cases hs : parseU64 a with
      | none => simp [ha, hs]
      | some s =>
        cases he : parseU64 b with
        | none => simp [ha, hb, hs, he]
        | some e => simp [ha, hb, hs, he, answer_ne_malformed htotal]

/-! ## When the header is answered right -/

theorem Numeral.ne_nil {s : List Char} (h : Numeral s) : s ≠ [] := h.1

theorem Numeral.boundValue {s : List Char} (h : Numeral s) : boundValue s = numeralValue s := by
  rw [← numeralValue_stripSign (.inl h)]
  cases s with
  | nil => rfl
  | cons c s =>
    have hc : c ≠ '+' := fun heq => not_numeral_plus s (heq ▸ h)
    rw [stripSign]
    intro c' cs heq
    exact hc (List.cons.inj heq).1

theorem Numeral.not_signed {s : List Char} (h : Numeral s) : ¬ Signed s := by
  rintro ⟨d, rfl, -⟩
  exact not_numeral_plus d h

theorem not_signed_nil : ¬ Signed [] := by
  rintro ⟨d, heq, -⟩
  cases heq

theorem Reads.plain {r : RangeSpec} (h : Reads a b r) : Plain a ∧ Plain b := by
  cases h with
  | span ha hb => exact ⟨ha.plain, hb.plain⟩
  | onwards ha => exact ⟨ha.plain, .nil⟩
  | suffix hb => exact ⟨.nil, hb.plain⟩

theorem Reads.not_signed {r : RangeSpec} (h : Reads a b r) : ∀ s ∈ [a, b], ¬ Signed s := by
  cases h with
  | span ha hb => simpa using ⟨ha.not_signed, hb.not_signed⟩
  | onwards ha => simpa using ⟨ha.not_signed, not_signed_nil⟩
  | suffix hb => simpa using ⟨not_signed_nil, hb.not_signed⟩

theorem reads_unique {r r' : RangeSpec} (h : Reads a b r) (h' : Reads a b r') : r = r' := by
  cases h with
  | span ha hb =>
    cases h' with
    | span => rfl
    | onwards => exact absurd rfl hb.ne_nil
    | suffix => exact absurd rfl ha.ne_nil
  | onwards ha =>
    cases h' with
    | span _ hb => exact absurd rfl hb.ne_nil
    | onwards => rfl
    | suffix => exact absurd rfl ha.ne_nil
  | suffix hb =>
    cases h' with
    | span ha => exact absurd rfl ha.ne_nil
    | onwards => exact absurd rfl hb.ne_nil
    | suffix => rfl

/-- Unsigned digits on one side of the dash or both write a range. -/
theorem exists_reads (hne : a ++ b ≠ []) (hd : ∀ s ∈ [a, b], s = [] ∨ Numeral s) :
    ∃ r, Reads a b r := by
  simp only [List.forall_mem_cons, List.not_mem_nil, false_implies, implies_true, and_true] at hd
  rcases hd with ⟨rfl | ha, rfl | hb⟩
  · exact absurd rfl hne
  · exact ⟨_, .suffix hb⟩
  · exact ⟨_, .onwards ha⟩
  · exact ⟨_, .span ha hb⟩

/-- Bounds of 64 bits are read as they are written. -/
theorem Reads.parseBounds_eq {r : RangeSpec} (h : Reads a b r)
    (hlt : ∀ s ∈ [a, b], boundValue s < 2 ^ 64) : parseBounds a b total = r.answer total := by
  simp only [List.forall_mem_cons, List.not_mem_nil, false_implies, implies_true, and_true] at hlt
  obtain ⟨hlta, hltb⟩ := hlt
  cases h with
  | span ha hb =>
    rw [parseBounds_span ha.ne_nil hb.ne_nil, parseU64_of_lt (.inl ha) hlta,
      parseU64_of_lt (.inl hb) hltb, ha.boundValue, hb.boundValue]
    rfl
  | onwards ha =>
    rw [parseBounds_onwards ha.ne_nil, parseU64_of_lt (.inl ha) hlta, ha.boundValue]
    rfl
  | suffix hb =>
    rw [parseBounds_suffix hb.ne_nil, parseU64_of_lt (.inl hb) hltb, hb.boundValue]
    rfl

theorem spells_iff_of_pieces (hp : pieces h.toList = some (a, b)) {r : RangeSpec} :
    Spells h.toList r ↔ Reads a b r := by
  constructor
  · rintro ⟨a', b', hf, hr⟩
    cases hp.symm.trans (pieces_of_form hf hr.plain.1 hr.plain.2)
    exact hr
  · exact fun hr => ⟨a, b, form_of_pieces hp, hr⟩

/-- A header that writes a range is answered right exactly when that is the answer. -/
theorem parsesRight_iff_of_spells (htotal : 0 < total) {r : RangeSpec}
    (hl : ¬ Lists h.toList) (hr : Spells h.toList r)
    (hu : ∀ r', Spells h.toList r' → r' = r) :
    ParsesRight h total ↔ parseRange (some h) total = r.answer total := by
  constructor
  · intro hright
    rcases answer_cases htotal r with ⟨s, e, heq, hle, hreq⟩ | ⟨heq, hnone⟩
    · rw [heq]
      exact (hright.served s e).mpr ⟨hle, r, hr, hreq⟩
    · rw [heq]
      exact hright.unsatisfiable r hr hnone
  · intro heq
    refine ⟨fun s e => ?_, fun r' hr' hnone => ?_, fun h => absurd h hl,
      fun h => absurd hr (h r)⟩
    · rw [heq]
      rcases answer_cases htotal r with ⟨s', e', h', hle, hreq⟩ | ⟨h', hnone⟩
      · rw [h']
        constructor
        · intro h
          cases h
          exact ⟨hle, r, hr, hreq⟩
        · rintro ⟨hse, r', hr', hreq'⟩
          obtain rfl := hu r' hr'
          -- one interval has one pair of ends
          have hs := (hreq s).mpr ((hreq' s).mp ⟨Nat.le_refl s, hse⟩)
          have he := (hreq e).mpr ((hreq' e).mp ⟨hse, Nat.le_refl e⟩)
          have hs' := (hreq' s').mpr ((hreq s').mp ⟨Nat.le_refl s', hle⟩)
          have he' := (hreq' e').mpr ((hreq e').mp ⟨hle, Nat.le_refl e'⟩)
          rw [show s' = s by omega, show e' = e by omega]
      · rw [h']
        constructor
        · intro h
          cases h
        · rintro ⟨hse, r', hr', hreq'⟩
          obtain rfl := hu r' hr'
          exact absurd ((hreq' s).mp ⟨Nat.le_refl s, hse⟩) (hnone s)
    · obtain rfl := hu r' hr'
      rcases answer_cases htotal r' with ⟨s, e, -, hle, hreq⟩ | ⟨h', -⟩
      · exact absurd ((hreq s).mp ⟨Nat.le_refl s, hle⟩) (hnone s)
      · rw [heq, h']

/-- A header that writes none is answered right exactly when it is malformed. -/
theorem parsesRight_iff_of_not_spells (hl : ¬ Lists h.toList) (hr : ∀ r, ¬ Spells h.toList r) :
    ParsesRight h total ↔ parseRange (some h) total = .error .malformed := by
  constructor
  · exact fun hright => hright.malformed hr hl
  · intro heq
    refine ⟨fun s e => ?_, fun r h' => absurd h' (hr r), fun h => absurd h hl, fun _ _ => heq⟩
    rw [heq]
    constructor
    · intro h
      cases h
    · rintro ⟨-, r, h', -⟩
      exact absurd h' (hr r)

theorem MisreadBounds.plain (hm : MisreadBounds a b) : Plain a ∧ Plain b := by
  have hall : ∀ s ∈ [a, b], Plain s := by
    intro s hs
    rcases hm.digits s hs with rfl | h | h
    · exact .nil
    · exact h.plain
    · exact h.plain
  exact ⟨hall a (by simp), hall b (by simp)⟩

theorem Reads.digits {r : RangeSpec} (hr : Reads a b r) :
    ∀ s ∈ [a, b], s = [] ∨ Numeral s ∨ Signed s := by
  cases hr with
  | span ha hb => simpa using ⟨.inr (.inl ha), .inr (.inl hb)⟩
  | onwards ha => simpa using .inr (.inl ha)
  | suffix hb => simpa using .inr (.inl hb)

/-- Digits are no 64-bit integer exactly when their value is too large. -/
theorem exists_parseU64_none (hd : ∀ s ∈ [a, b], s = [] ∨ Numeral s ∨ Signed s) :
    (∃ s ∈ [a, b], s ≠ [] ∧ parseU64 s = none) ↔ ∃ s ∈ [a, b], 2 ^ 64 ≤ boundValue s := by
  constructor
  · rintro ⟨s, hs, hne, hnone⟩
    refine ⟨s, hs, (parseU64_eq_none.mp hnone).resolve_left fun h => h ?_⟩
    exact (hd s hs).resolve_left hne
  · rintro ⟨s, hs, hlarge⟩
    refine ⟨s, hs, ?_, parseU64_eq_none.mpr (.inr hlarge)⟩
    rintro rfl
    exact absurd hlarge (by decide)

section
variable (htotal : 0 < total) (hp : pieces h.toList = some (a, b))
include htotal hp

/-- Bounds that write no range are to be malformed. -/
theorem parsesRight_iff_of_not_reads (hr : ∀ r, ¬ Reads a b r) :
    ParsesRight h total ↔ a ++ b = [] ∨ ∃ s ∈ [a, b], s ≠ [] ∧ parseU64 s = none := by
  rw [parsesRight_iff_of_not_spells (not_lists_of_pieces hp) fun r hs =>
    hr r ((spells_iff_of_pieces hp).mp hs), parseRange_of_pieces htotal hp,
    parseBounds_malformed htotal]

/-- A signed bound is found malformed only where some value has more than 64 bits. -/
theorem parsesRight_iff_of_signed (hne : a ++ b ≠ [])
    (hd : ∀ s ∈ [a, b], s = [] ∨ Numeral s ∨ Signed s) (hs : ∃ s ∈ [a, b], Signed s) :
    ParsesRight h total ↔ ¬ MisreadBounds a b := by
  have hr : ∀ r, ¬ Reads a b r := fun r hr => by
    obtain ⟨s, hs, hsig⟩ := hs
    exact hr.not_signed s hs hsig
  rw [parsesRight_iff_of_not_reads htotal hp hr, or_iff_right hne, exists_parseU64_none hd]
  constructor
  · rintro ⟨s, hmem, hlarge⟩ hm
    rcases hm.misread with ⟨-, hlt⟩ | ⟨hun, -⟩
    · exact absurd (hlt s hmem) (Nat.not_lt_of_le hlarge)
    · obtain ⟨s, hs, hsig⟩ := hs
      exact hun s hs hsig
  · intro hm
    by_contra hsmall
    refine hm ⟨hne, hd, .inl ⟨hs, fun s hmem => ?_⟩⟩
    exact Nat.lt_of_not_le fun hlarge => hsmall ⟨s, hmem, hlarge⟩

/-- A range of unsigned bounds is read where all values have 64 bits. -/
theorem parsesRight_iff_of_unsigned (hne : a ++ b ≠ []) (hd : ∀ s ∈ [a, b], s = [] ∨ Numeral s)
    (hun : ∀ s ∈ [a, b], ¬ Signed s) : ParsesRight h total ↔ ¬ MisreadBounds a b := by
  have hd' : ∀ s ∈ [a, b], s = [] ∨ Numeral s ∨ Signed s := fun s hmem =>
    (hd s hmem).imp_right .inl
  have hspells := @spells_iff_of_pieces h a b hp
  obtain ⟨r, hr⟩ := exists_reads hne hd
  rw [parsesRight_iff_of_spells htotal (not_lists_of_pieces hp) (hspells.mpr hr) fun r' hr' =>
    reads_unique (hspells.mp hr') hr, parseRange_of_pieces htotal hp]
  by_cases hlarge : ∃ s ∈ [a, b], 2 ^ 64 ≤ boundValue s
  · have hmal : parseBounds a b total = .error .malformed :=
      (parseBounds_malformed htotal).mpr (.inr ((exists_parseU64_none hd').mpr hlarge))
    rw [hmal]
    exact iff_of_false (answer_ne_malformed htotal r).symm
      fun hm => hm ⟨hne, hd', .inr ⟨hun, hlarge⟩⟩
  · have hlt : ∀ s ∈ [a, b], boundValue s < 2 ^ 64 := fun s hmem =>
      Nat.lt_of_not_le fun h => hlarge ⟨s, hmem, h⟩
    refine iff_of_true (hr.parseBounds_eq hlt) fun hm => ?_
    rcases hm.misread with ⟨⟨s, hmem, hsig⟩, -⟩ | ⟨-, h⟩
    · exact hun s hmem hsig
    · exact hlarge h

theorem parsesRight_iff_of_pieces : ParsesRight h total ↔ ¬ MisreadBounds a b := by
  by_cases hne : a ++ b = []
  · have hr : ∀ r, ¬ Reads a b r := by
      obtain ⟨rfl, rfl⟩ := List.append_eq_nil_iff.mp hne
      intro r hr
      cases hr with
      | span hd => exact hd.ne_nil rfl
      | onwards hd => exact hd.ne_nil rfl
      | suffix hd => exact hd.ne_nil rfl
    exact iff_of_true ((parsesRight_iff_of_not_reads htotal hp hr).mpr (.inl hne))
      fun hm => hm.given hne
  by_cases hd : ∀ s ∈ [a, b], s = [] ∨ Numeral s ∨ Signed s
  · by_cases hs : ∃ s ∈ [a, b], Signed s
    · exact parsesRight_iff_of_signed htotal hp hne hd hs
    · have hun : ∀ s ∈ [a, b], ¬ Signed s := fun s hmem hsig => hs ⟨s, hmem, hsig⟩
      refine parsesRight_iff_of_unsigned htotal hp hne (fun s hmem => ?_) hun
      exact (hd s hmem).imp_right fun h => h.resolve_right (hun s hmem)
  · -- something else than digits stands in a bound
    have hr : ∀ r, ¬ Reads a b r := fun r hr => hd hr.digits
    refine iff_of_true ((parsesRight_iff_of_not_reads htotal hp hr).mpr (.inr ?_))
      fun hm => hd hm.digits
    by_contra hall
    refine hd fun s hmem => ?_
    by_contra hs
    rw [not_or] at hs
    exact hall ⟨s, hmem, hs.1, parseU64_eq_none.mpr (.inl hs.2)⟩

end

/-- **A header is answered right exactly when its bounds are not misread.** -/
theorem parsesRight_iff (h : String) (htotal : 0 < total) :
    ParsesRight h total ↔ ¬ Misread h.toList := by
  cases hp : pieces h.toList with
  | some p =>
    obtain ⟨a, b⟩ := p
    rw [parsesRight_iff_of_pieces htotal hp]
    refine not_congr ⟨fun hm => ⟨a, b, form_of_pieces hp, hm⟩, ?_⟩
    rintro ⟨a', b', hf, hm⟩
    cases hp.symm.trans (pieces_of_form hf hm.plain.1 hm.plain.2)
    exact hm
  | none =>
    have hform : ∀ a b, Plain a → Plain b → ¬ Form h.toList a b := by
      intro a b ha hb hf
      rw [pieces_of_form hf ha hb] at hp
      cases hp
    have hr : ∀ r, ¬ Spells h.toList r := by
      rintro r ⟨a, b, hf, hr⟩
      exact hform a b hr.plain.1 hr.plain.2 hf
    refine iff_of_true ?_ ?_
    · by_cases hl : Lists h.toList
      · have hcode := @parseRange_of_lists h total hl
        refine ⟨fun s e => ?_, fun r hs => absurd hs (hr r), fun _ => hcode,
          fun _ hnl => absurd hl hnl⟩
        rw [hcode]
        constructor
        · intro heq
          cases heq
        · rintro ⟨-, r, hs, -⟩
          exact absurd hs (hr r)
      · exact (parsesRight_iff_of_not_spells hl hr).mpr (parseRange_of_none htotal hl hp)
    · rintro ⟨a, b, hf, hm⟩
      exact hform a b hm.plain.1 hm.plain.2 hf

end

/-! ## The headers sent back -/

/-- What is served is the answer to some range. -/
theorem exists_answer {a b : List Char} {s e total : Nat}
    (hse : parseBounds a b total = .ok (.partialRange s e)) :
    ∃ r : RangeSpec, r.answer total = .ok (.partialRange s e) := by
  by_cases ha : a = []
  · by_cases hb : b = []
    · rw [ha, hb] at hse
      cases hse
    · rw [ha, parseBounds_suffix hb] at hse
      cases hn : parseU64 b with
      | none => rw [hn] at hse; cases hse
      | some n => exact ⟨.suffix n, by rw [hn] at hse; exact hse⟩
  · by_cases hb : b = []
    · rw [hb, parseBounds_onwards ha] at hse
      cases hs : parseU64 a with
      | none => rw [hs] at hse; cases hse
      | some n => exact ⟨.onwards n, by rw [hs] at hse; exact hse⟩
    · rw [parseBounds_span ha hb] at hse
      cases hs : parseU64 a with
      | none => rw [hs] at hse; cases hse
      | some n =>
        cases he : parseU64 b with
        | none => rw [hs, he] at hse; cases hse
        | some m => exact ⟨.span n m, by rw [hs, he] at hse; exact hse⟩

/-- The bytes served are in the file. -/
theorem parseRange_bounds {h : String} {s e total : Nat} (htotal : 0 < total)
    (hse : parseRange (some h) total = .ok (.partialRange s e)) : s ≤ e ∧ e < total := by
  cases hp : pieces h.toList with
  | none =>
    by_cases hl : Lists h.toList
    · rw [parseRange_of_lists hl] at hse
      cases hse
    · rw [parseRange_of_none htotal hl hp] at hse
      cases hse
  | some p =>
    rw [parseRange_of_pieces htotal hp] at hse
    obtain ⟨r, hr⟩ := exists_answer hse
    rcases answer_cases htotal r with ⟨s', e', heq, hle, hreq⟩ | ⟨heq, -⟩
    · rw [heq] at hr
      cases hr
      have hreq' := (hreq e).mp ⟨hle, Nat.le_refl e⟩
      exact ⟨hle, by cases r <;> exact hreq'.1⟩
    · rw [heq] at hr
      cases hr

theorem numeral_toDigits (n : Nat) : Numeral (Nat.toDigits 10 n) :=
  ⟨Nat.toDigits_ne_nil, fun _ hc => Nat.isDigit_of_mem_toDigits (by decide) (by decide) hc⟩

theorem numeralValue_toDigits (n : Nat) : numeralValue (Nat.toDigits 10 n) = n :=
  Nat.ofDigitChars_ten_toDigits

/-- A range of 64-bit numbers, written and parsed. -/
theorem parseRange_span {s e total : Nat} (hs : s < 2 ^ 64) (he : e < 2 ^ 64) (htotal : 0 < total) :
    parseRange (some ("bytes=" ++ s!"{s}-{e}")) total = (RangeSpec.span s e).answer total := by
  have hchars : ("bytes=" ++ s!"{s}-{e}").toList =
      [] ++ "bytes=".toList ++ [] ++ Nat.toDigits 10 s ++ [] ++
        '-' :: ([] ++ Nat.toDigits 10 e ++ []) := by
    simp [toString]
  have hempty : Blank [] := fun c hc => absurd hc List.not_mem_nil
  have hform : Form ("bytes=" ++ s!"{s}-{e}").toList (Nat.toDigits 10 s) (Nat.toDigits 10 e) :=
    ⟨_, _, _, _, _, hempty, hempty, hempty, hempty, hempty, hchars⟩
  have hreads := Reads.span (numeral_toDigits s) (numeral_toDigits e)
  rw [parseRange_of_pieces htotal (pieces_of_form hform hreads.plain.1 hreads.plain.2),
    hreads.parseBounds_eq, numeralValue_toDigits, numeralValue_toDigits]
  simp only [List.forall_mem_cons, List.not_mem_nil, false_implies, implies_true, and_true,
    (numeral_toDigits s).boundValue, (numeral_toDigits e).boundValue, numeralValue_toDigits]
  exact ⟨hs, he⟩

theorem contentRangeHeader_eq (s e total : Nat) :
    contentRangeHeader s e total = "bytes " ++ s!"{s}-{e}" ++ "/" ++ toString total := by
  simp [contentRangeHeader, toString, String.append_assoc]

/-- **The `Range` header.** It is answered right exactly when its bounds are not misread; the
bytes served lie in the file, so that their number does not underflow; and the range of a
`Content-Range` header is parsed as that range. -/
theorem parseRange_right (h : String) (total : Nat) (htotal : 0 < total) :
    (ParsesRight h total ↔ ¬ Misread h.toList) ∧
    (∀ s e, parseRange (some h) total = .ok (.partialRange s e) →
      e < total ∧ contentLength s e = some (e - s + 1)) ∧
    (total < 2 ^ 64 → ∀ s e, s ≤ e → e < total → ∃ spec,
      contentRangeHeader s e total = "bytes " ++ spec ++ "/" ++ toString total ∧
        parseRange (some ("bytes=" ++ spec)) total = .ok (.partialRange s e)) := by
  refine ⟨parsesRight_iff h htotal, fun s e hse => ?_, fun hword s e hle hlt => ?_⟩
  · obtain ⟨hle, hlt⟩ := parseRange_bounds htotal hse
    exact ⟨hlt, if_pos hle⟩
  · refine ⟨s!"{s}-{e}", contentRangeHeader_eq s e total, ?_⟩
    rw [parseRange_span (by omega) (by omega) htotal, RangeSpec.answer, if_neg (by omega),
      Nat.min_eq_left (by omega)]

theorem parseRange_right_first_kilobyte : 0 < 2000 ∧
    (ParsesRight "bytes=0-1023" 2000 ↔ ¬ Misread "bytes=0-1023".toList) ∧
    (∀ s e, parseRange (some "bytes=0-1023") 2000 = .ok (.partialRange s e) →
      e < 2000 ∧ contentLength s e = some (e - s + 1)) ∧
    (2000 < 2 ^ 64 → ∀ s e, s ≤ e → e < 2000 → ∃ spec,
      contentRangeHeader s e 2000 = "bytes " ++ spec ++ "/" ++ toString 2000 ∧
        parseRange (some ("bytes=" ++ spec)) 2000 = .ok (.partialRange s e)) :=
  ⟨by decide, parseRange_right "bytes=0-1023" 2000 (by decide)⟩

/-- The last byte is `2^64`: more than there are, and not clamped. -/
theorem oversized_bound_not_parsesRight : ¬ ParsesRight "bytes=0-18446744073709551616" 100 := by
  intro h
  have hform : Form "bytes=0-18446744073709551616".toList "0".toList
      "18446744073709551616".toList := by
    have hempty : Blank [] := fun c hc => absurd hc List.not_mem_nil
    exact ⟨_, _, _, _, _, hempty, hempty, hempty, hempty, hempty, by decide⟩
  have hval : numeralValue "18446744073709551616".toList = 18446744073709551616 := by decide
  have hspells : Spells "bytes=0-18446744073709551616".toList
      (.span (numeralValue "0".toList) (numeralValue "18446744073709551616".toList)) :=
    ⟨_, _, hform, .span (numeral_iff.mpr rfl) (numeral_iff.mpr rfl)⟩
  have hzero : numeralValue "0".toList = 0 := by decide
  rw [hval, hzero] at hspells
  have hserved := (h.served 0 99).mpr ⟨by decide, _, hspells, fun i => by
    simp only [RangeSpec.Requests]
    omega⟩
  revert hserved
  decide +kernel

end StremioNzb.Addon

import StremioNzb.Lib.Gaps
import StremioNzb.Streaming.Ranges

/-!
# The first gap of a window

`PopulatedRanges::first_gap` walks the intervals before the end of a window with a cursor. What
it returns is the leftmost gap of the populated bytes (`PopulatedRanges.firstGap_eq_some`), and it
returns nothing exactly where `containsRange` says yes. So inserting the gap found, over and over,
fills the window (`PopulatedRanges.firstGap_leftmost`).
-/

namespace StremioNzb.Streaming

open StremioNzb.Lib

/-- The loop of `first_gap` over the intervals left. -/
def gapLoop (stop : Nat) : List (Nat × Nat) → Nat → Option (Nat × Nat)
  | [], cursor => if cursor < stop then some (cursor, stop) else none
  | (istart, iend) :: rest, cursor =>
    if iend ≤ cursor then gapLoop stop rest cursor
    else if istart > cursor then some (cursor, min istart stop)
    else if iend ≥ stop then none -- the cursor moved to `iend`
    else gapLoop stop rest iend

/-- What the loop relies on: the intervals left hold the elements of `X` that the cursor has yet
to pass, and nothing but elements of `X`. -/
structure Ahead (X : Set Nat) (stop : Nat) (rest : List (Nat × Nat)) (cursor : Nat) : Prop where
  sep : rest.Pairwise fun p q => p.2 < q.1
  pos : ∀ p ∈ rest, p.1 < p.2 ∧ p.1 < stop
  sub : ∀ p ∈ rest, Filled X p.1 p.2
  cover : ∀ x ∈ X, cursor ≤ x → x < stop → ∃ p ∈ rest, p.1 ≤ x ∧ x < p.2

namespace Ahead

variable {X : Set Nat} {stop cursor c : Nat} {p : Nat × Nat} {rest : List (Nat × Nat)}

/-- Once the cursor is past the first interval, the others are ahead of it. -/
theorem tail (h : Ahead X stop (p :: rest) cursor) (hp : p.2 ≤ c) (hc : cursor ≤ c) :
    Ahead X stop rest c := by
  refine ⟨h.sep.of_cons, fun q hq => h.pos q (List.mem_cons_of_mem _ hq),
    fun q hq => h.sub q (List.mem_cons_of_mem _ hq), fun x hx h1 h2 => ?_⟩
  obtain ⟨q, hq, h3, h4⟩ := h.cover x hx (hc.trans h1) h2
  rcases List.mem_cons.mp hq with rfl | hq
  · omega
  · exact ⟨q, hq, h3, h4⟩

/-- No element lies between the cursor and the first interval. -/
theorem free_before (h : Ahead X stop (p :: rest) cursor) :
    ∀ x, cursor ≤ x → x < p.1 → x ∉ X := by
  intro x h1 h2 hx
  have hp := h.pos p List.mem_cons_self
  obtain ⟨q, hq, h3, -⟩ := h.cover x hx h1 (h2.trans hp.2)
  rcases List.mem_cons.mp hq with rfl | hq
  · omega
  · have := (List.pairwise_cons.mp h.sep).1 q hq
    omega

end Ahead

/-- **The loop answers for the window**, given that it is filled up to the cursor. -/
theorem gapLoop_spec {X : Set Nat} {start stop : Nat} :
    ∀ {rest : List (Nat × Nat)} {cursor : Nat}, start ≤ cursor → cursor < stop →
      Filled X start cursor → Ahead X stop rest cursor →
      (gapLoop stop rest cursor = none ∧ Filled X start stop) ∨
        ∃ a b, gapLoop stop rest cursor = some (a, b) ∧ LeftmostGap X start stop a b
  | [], cursor, hs, hlt, hf, ha => by
    have hfree : ∀ x, cursor ≤ x → x < stop → x ∉ X := fun x h1 h2 hx => by
      obtain ⟨p, hp, -⟩ := ha.cover x hx h1 h2
      exact absurd hp List.not_mem_nil
    exact .inr ⟨cursor, stop, if_pos hlt, hs, hlt, le_rfl, hf, hfree, .inl rfl⟩
  | (istart, iend) :: rest, cursor, hs, hlt, hf, ha => by
    have hpos := ha.pos (istart, iend) List.mem_cons_self
    have hsub := ha.sub (istart, iend) List.mem_cons_self
    simp only at hpos hsub
    rw [gapLoop]
    split_ifs with hskip hgap hend
    · exact gapLoop_spec hs hlt hf (ha.tail hskip le_rfl)
    · -- the interval starts past the cursor, so the gap runs up to it
      have hmin : min istart stop = istart := min_eq_left hpos.2.le
      refine .inr ⟨cursor, istart, by rw [hmin], hs, hgap, hpos.2.le, hf, ha.free_before, .inr ?_⟩
      exact hsub istart le_rfl hpos.1
    · -- the interval holds the cursor and reaches the end of the window
      refine .inl ⟨rfl, hf.append fun x h1 h2 => hsub x ?_ ?_⟩ <;> omega
    · have hf' : Filled X start iend := hf.append fun x h1 h2 => hsub x (by omega) h2
      exact gapLoop_spec (by omega) (by omega) hf' (ha.tail le_rfl (by omega))

namespace PopulatedRanges

/-- The first gap within `[start, stop)`, if there is one. -/
def firstGap (r : PopulatedRanges) (start stop : Nat) : Option (Nat × Nat) :=
  if start ≥ stop then none
  else gapLoop stop (r.intervals.entries.filter fun p => p.1 < stop) start

/-- Before the first round every interval that starts before the end of the window is ahead. -/
theorem ahead (r : PopulatedRanges) (start stop : Nat) :
    Ahead r.bytes stop (r.intervals.entries.filter fun p => p.1 < stop) start := by
  have hmem : ∀ p, p ∈ r.intervals.entries.filter (fun p => p.1 < stop) ↔
      p ∈ r.intervals ∧ p.1 < stop := fun p => by
    rw [List.mem_filter, decide_eq_true_eq, SortedMap.mem_def]
  constructor
  · refine (r.intervals.sorted.filter _).imp_of_mem fun {p q} hp hq hlt => ?_
    exact r.canonical.sep p ((hmem p).mp hp).1 q ((hmem q).mp hq).1 hlt
  · exact fun p hp => ⟨r.canonical.pos p ((hmem p).mp hp).1, ((hmem p).mp hp).2⟩
  · exact fun p hp x h1 h2 => ⟨p, ((hmem p).mp hp).1, h1, h2⟩
  · rintro x ⟨p, hp, h1, h2⟩ - hlt
    exact ⟨p, (hmem p).mpr ⟨hp, h1.trans_lt hlt⟩, h1, h2⟩

theorem firstGap_cases (r : PopulatedRanges) (start stop : Nat) :
    (r.firstGap start stop = none ∧ Filled r.bytes start stop) ∨
      ∃ a b, r.firstGap start stop = some (a, b) ∧ LeftmostGap r.bytes start stop a b := by
  unfold firstGap
  split_ifs with h
  · exact .inl ⟨rfl, .of_le h⟩
  · exact gapLoop_spec le_rfl (not_le.mp h) (.of_le le_rfl) (r.ahead start stop)

theorem firstGap_eq_some {r : PopulatedRanges} {start stop a b : Nat} :
    r.firstGap start stop = some (a, b) ↔ LeftmostGap r.bytes start stop a b := by
  rcases r.firstGap_cases start stop with ⟨h, hf⟩ | ⟨a', b', h, hg⟩
  · exact iff_of_false (by simp [h]) fun hg => hg.not_filled hf
  · rw [h, Option.some_inj, Prod.mk.injEq]
    refine ⟨fun ⟨ha, hb⟩ => ha ▸ hb ▸ hg, fun hg' => ?_⟩
    exact hg.unique hg'

theorem firstGap_eq_none {r : PopulatedRanges} {start stop : Nat} :
    r.firstGap start stop = none ↔ Filled r.bytes start stop := by
  rcases r.firstGap_cases start stop with ⟨h, hf⟩ | ⟨a, b, h, hg⟩
  · exact iff_of_true h hf
  · exact iff_of_false (by simp [h]) hg.not_filled

/-! ## Filling the window -/

/-- Insert the first gap, if there is one. -/
def fillStep (start stop : Nat) (r : PopulatedRanges) : PopulatedRanges :=
  match r.firstGap start stop with
  | some (a, b) => r.insert a b
  | none => r

theorem bytes_fillStep_of_some {r : PopulatedRanges} {start stop a b : Nat}
    (h : r.firstGap start stop = some (a, b)) :
    (r.fillStep start stop).bytes = r.bytes ∪ {x | a ≤ x ∧ x < b} := by
  ext x
  simp only [fillStep, h, mem_bytes_insert]
  rfl

/-- A round fills at least one byte more from the start of the window on. -/
theorem filled_fillStep {r : PopulatedRanges} {start stop c : Nat}
    (hf : Filled r.bytes start (min c stop)) :
    Filled (r.fillStep start stop).bytes start (min (c + 1) stop) := by
  cases h : r.firstGap start stop with
  | none =>
    rw [fillStep, h]
    exact (firstGap_eq_none.mp h).mono (min_le_right _ _) subset_rfl
  | some g =>
    have hg := firstGap_eq_some.mp h
    have hle := hg.le_of_filled hf
    have hlt := hg.lt
    rw [bytes_fillStep_of_some h]
    exact hg.filled_union.mono (by omega) subset_rfl

/-- What a round adds lies in the window. -/
theorem mem_bytes_fillStep {r : PopulatedRanges} {start stop x : Nat} :
    (x ∈ r.bytes → x ∈ (r.fillStep start stop).bytes) ∧
      (x ∈ (r.fillStep start stop).bytes → x ∈ r.bytes ∨ start ≤ x ∧ x < stop) := by
  cases h : r.firstGap start stop with
  | none =>
    rw [fillStep, h]
    exact ⟨id, .inl⟩
  | some g =>
    have hg := firstGap_eq_some.mp h
    have hs := hg.start_le
    have he := hg.le_stop
    rw [bytes_fillStep_of_some h]
    refine ⟨.inl, fun hx => hx.imp_right fun ⟨h1, h2⟩ => ⟨?_, ?_⟩⟩ <;> omega

/-- After `n` rounds the window is filled for `n` bytes at least. -/
theorem filled_iterate (r : PopulatedRanges) (start stop : Nat) : ∀ n,
    Filled ((fillStep start stop)^[n] r).bytes start (min (start + n) stop)
  | 0 => .of_le (min_le_left _ _)
  | n + 1 => by
    rw [Function.iterate_succ_apply']
    exact filled_fillStep (filled_iterate r start stop n)

theorem mem_bytes_iterate (r : PopulatedRanges) (start stop x : Nat) : ∀ n,
    (x ∈ r.bytes → x ∈ ((fillStep start stop)^[n] r).bytes) ∧
      (x ∈ ((fillStep start stop)^[n] r).bytes → x ∈ r.bytes ∨ start ≤ x ∧ x < stop)
  | 0 => ⟨id, .inl⟩
  | n + 1 => by
    rw [Function.iterate_succ_apply']
    have ih := mem_bytes_iterate r start stop x n
    have hstep := @mem_bytes_fillStep ((fillStep start stop)^[n] r) start stop x
    exact ⟨fun hx => hstep.1 (ih.1 hx), fun hx => (hstep.2 hx).elim ih.2 .inr⟩

/-- `stop - start` rounds leave the bytes there were and the window. -/
theorem bytes_filled (r : PopulatedRanges) (start stop : Nat) :
    ((fillStep start stop)^[stop - start] r).bytes = r.bytes ∪ {x | start ≤ x ∧ x < stop} := by
  have hf := filled_iterate r start stop (stop - start)
  ext x
  have hmem := mem_bytes_iterate r start stop x (stop - start)
  refine ⟨hmem.2, fun hx => hx.elim hmem.1 fun ⟨h1, h2⟩ => hf x h1 ?_⟩
  omega

/-- **The first gap is the leftmost maximal one**: there is none exactly where the window is
populated, and inserting what is found fills the window, never over a populated byte. -/
theorem firstGap_leftmost (ops : List RangeOp) (start stop : Nat) :
    ((run ops).firstGap start stop = none ↔ (run ops).containsRange start stop = true) ∧
    (∀ a b, (run ops).firstGap start stop = some (a, b) →
      LeftmostGap (populatedBytes ops) start stop a b) ∧
    (∃ n ≤ stop - start,
      ((fillStep start stop)^[n] (run ops)).firstGap start stop = none ∧
      ((fillStep start stop)^[n] (run ops)).bytes =
        populatedBytes ops ∪ {x | start ≤ x ∧ x < stop}) ∧
    ∀ k a b, ((fillStep start stop)^[k] (run ops)).firstGap start stop = some (a, b) →
      ∀ x, a ≤ x → x < b → x ∉ ((fillStep start stop)^[k] (run ops)).bytes := by
  rw [← bytes_run]
  refine ⟨?_, fun a b h => firstGap_eq_some.mp h, ⟨stop - start, le_rfl, ?_, bytes_filled _ _ _⟩,
    fun k a b h => (firstGap_eq_some.mp h).free⟩
  · rw [firstGap_eq_none, containsRange_iff]
    rfl
  · rw [firstGap_eq_none, bytes_filled]
    exact fun x h1 h2 => .inr ⟨h1, h2⟩

end PopulatedRanges

end StremioNzb.Streaming

import Mathlib.Order.MinMax
import StremioNzb.Lib.Intervals

/-!
# Populated ranges

`ranges.rs`: which byte ranges of the sparse cache file hold data. The map of `[start, stop)`
intervals is carried with the proof that it is canonical, so `containsRange`, which looks at
one interval only, decides whether every byte of a range is populated
(`PopulatedRanges.containsRange_iff`).

`u64` values are natural numbers throughout the model, and sums are exact.
-/

namespace StremioNzb.Streaming

open StremioNzb.Lib

abbrev IntervalMap := SortedMap Nat Nat

/-! ## Insertion -/

/-- One round of the merge loop: drop the interval at `istart` and grow the new one over it. -/
def mergeStep (acc : IntervalMap × Nat × Nat) (istart : Nat) : IntervalMap × Nat × Nat :=
  match acc.1.get? istart with
  | some iend => (acc.1.remove istart, min acc.2.1 istart, max acc.2.2 iend)
  | none => acc -- the `expect` of the source: the start was just collected

/-- Starts of the intervals that overlap or touch `[start, stop)`. -/
def toMerge (m : IntervalMap) (start stop : Nat) : List Nat :=
  (m.entries.filter fun p => p.1 ≤ stop ∧ start ≤ p.2).map Prod.fst

def insertInterval (m : IntervalMap) (start stop : Nat) : IntervalMap :=
  if start ≥ stop then m
  else
    let acc := (toMerge m start stop).foldl mergeStep (m, start, stop)
    acc.1.insert acc.2.1 acc.2.2

/-- What the merge loop leaves after the starts `keys`. -/
structure Merged (keys : List Nat) (acc acc' : IntervalMap × Nat × Nat) : Prop where
  mem : ∀ p, p ∈ acc'.1 ↔ p ∈ acc.1 ∧ p.1 ∉ keys
  start_le : acc'.2.1 ≤ acc.2.1 ∧ ∀ p ∈ acc.1, p.1 ∈ keys → acc'.2.1 ≤ p.1
  le_stop : acc.2.2 ≤ acc'.2.2 ∧ ∀ p ∈ acc.1, p.1 ∈ keys → p.2 ≤ acc'.2.2
  start_eq : acc'.2.1 = acc.2.1 ∨ ∃ p ∈ acc.1, p.1 ∈ keys ∧ acc'.2.1 = p.1
  stop_eq : acc'.2.2 = acc.2.2 ∨ ∃ p ∈ acc.1, p.1 ∈ keys ∧ acc'.2.2 = p.2

theorem merged_foldl : ∀ (keys : List Nat) (acc : IntervalMap × Nat × Nat), keys.Nodup →
    (∀ k ∈ keys, ∃ v, (k, v) ∈ acc.1) → Merged keys acc (keys.foldl mergeStep acc)
  | [], acc, _, _ => ⟨by simp, by simp, by simp, .inl rfl, .inl rfl⟩
  | k :: keys, acc, hnd, hk => by
    obtain ⟨hkn, hnd⟩ := List.nodup_cons.mp hnd
    obtain ⟨v, hv⟩ := hk k List.mem_cons_self
    have hstep : mergeStep acc k = (acc.1.remove k, min acc.2.1 k, max acc.2.2 v) := by
      simp only [mergeStep, SortedMap.get?_eq_some.mpr hv]
    have ih := merged_foldl keys (mergeStep acc k) hnd fun k' hk' => by
      obtain ⟨v', hv'⟩ := hk k' (List.mem_cons_of_mem _ hk')
      refine ⟨v', ?_⟩
      rw [hstep, SortedMap.mem_remove]
      exact ⟨hv', fun h => hkn (h ▸ hk')⟩
    simp only [List.foldl_cons]
    rw [hstep] at ih ⊢
    -- an entry of the old map with key `k` is the one dropped
    have hkv : ∀ p ∈ acc.1, p.1 = k → p = (k, v) := fun p hp h => SortedMap.eq_of_key hp hv h
    have hold : ∀ p ∈ acc.1, p.1 ≠ k → p ∈ acc.1.remove k := fun p hp h =>
      SortedMap.mem_remove.mpr ⟨hp, h⟩
    constructor
    · intro p
      rw [ih.mem, SortedMap.mem_remove, List.mem_cons, not_or, and_assoc]
    · refine ⟨ih.start_le.1.trans (min_le_left _ _), fun p hp hpk => ?_⟩
      by_cases h : p.1 = k
      · exact h ▸ ih.start_le.1.trans (min_le_right _ _)
      · exact ih.start_le.2 p (hold p hp h) ((List.mem_cons.mp hpk).resolve_left h)
    · refine ⟨(le_max_left _ _).trans ih.le_stop.1, fun p hp hpk => ?_⟩
      by_cases h : p.1 = k
      · rw [hkv p hp h]
        exact (le_max_right _ _).trans ih.le_stop.1
      · exact ih.le_stop.2 p (hold p hp h) ((List.mem_cons.mp hpk).resolve_left h)
    · rcases ih.start_eq with h | ⟨p, hp, hpk, h⟩
      · rcases min_choice acc.2.1 k with hm | hm
        · exact .inl (h.trans hm)
        · exact .inr ⟨(k, v), hv, List.mem_cons_self, h.trans hm⟩
      · exact .inr ⟨p, (SortedMap.mem_remove.mp hp).1, List.mem_cons_of_mem _ hpk, h⟩
    · rcases ih.stop_eq with h | ⟨p, hp, hpk, h⟩
      · rcases max_choice acc.2.2 v with hm | hm
        · exact .inl (h.trans hm)
        · exact .inr ⟨(k, v), hv, List.mem_cons_self, h.trans hm⟩
      · exact .inr ⟨p, (SortedMap.mem_remove.mp hp).1, List.mem_cons_of_mem _ hpk, h⟩

theorem mem_toMerge {m : IntervalMap} {start stop : Nat} {p : Nat × Nat} (hp : p ∈ m) :
    p.1 ∈ toMerge m start stop ↔ Touches start stop p := by
  simp only [toMerge, List.mem_map, List.mem_filter, decide_eq_true_eq]
  constructor
  · rintro ⟨q, ⟨hq, ht⟩, h⟩
    exact SortedMap.eq_of_key hq hp h ▸ ht
  · exact fun ht => ⟨p, ⟨hp, ht⟩, rfl⟩

/-- The starts of a key-sorted map's entries are distinct. -/
theorem nodup_starts (m : IntervalMap) (f : Nat × Nat → Bool) :
    ((m.entries.filter f).map Prod.fst).Nodup :=
  List.Pairwise.map _ (fun _ _ h => ne_of_lt h) (m.sorted.filter f)

theorem isMerge_insertInterval {m : IntervalMap} (hc : m.Canonical) {start stop : Nat}
    (h : start < stop) :
    ∃ s' e', IsMerge m start stop s' e' (insertInterval m start stop) := by
  have hm := merged_foldl (toMerge m start stop) (m, start, stop) (nodup_starts m _) fun k hk => by
      obtain ⟨p, hp, rfl⟩ := List.mem_map.mp hk
      exact ⟨p.2, (List.mem_filter.mp hp).1⟩
  unfold insertInterval
  rw [if_neg (not_le.mpr h)]
  generalize (toMerge m start stop).foldl mergeStep (m, start, stop) = acc at hm ⊢
  refine ⟨acc.2.1, acc.2.2, ⟨fun p => ?_, ⟨hm.start_le.1, fun p hp ht => ?_⟩,
    ⟨hm.le_stop.1, fun p hp ht => ?_⟩, ?_, ?_⟩⟩
  · rw [SortedMap.mem_insert, hm.mem]
    constructor
    · rintro (rfl | ⟨⟨hp, hn⟩, -⟩)
      · exact .inl rfl
      · exact .inr ⟨hp, fun ht => hn ((mem_toMerge hp).mpr ht)⟩
    · rintro (rfl | ⟨hp, hn⟩)
      · exact .inl rfl
      · refine .inr ⟨⟨hp, fun hk => hn ((mem_toMerge hp).mp hk)⟩, fun hk => ?_⟩
        -- a kept interval does not start where the merged one does
        rcases hm.start_eq with hs | ⟨q, hq, hqk, hs⟩
        · have hpos := hc.pos p hp
          simp only at hs hk
          exact hn ⟨by omega, by omega⟩
        · exact hn (SortedMap.eq_of_key hp hq (hk.trans hs) ▸ (mem_toMerge hq).mp hqk)
  · exact hm.start_le.2 p hp ((mem_toMerge hp).mpr ht)
  · exact hm.le_stop.2 p hp ((mem_toMerge hp).mpr ht)
  · exact hm.start_eq.imp_right fun ⟨p, hp, hk, hs⟩ => ⟨p, hp, (mem_toMerge hp).mp hk, hs⟩
  · exact hm.stop_eq.imp_right fun ⟨p, hp, hk, hs⟩ => ⟨p, hp, (mem_toMerge hp).mp hk, hs⟩

/-! ## Removal -/

/-- One round of the removal loop: drop the interval at `istart`, put back what lies outside
`[start, stop)` and count the bytes that went. -/
def removeStep (start stop : Nat) (acc : IntervalMap × Nat) (istart : Nat) : IntervalMap × Nat :=
  match acc.1.get? istart with
  | some iend =>
    let ovStart := max istart start
    let ovEnd := min iend stop
    let m := acc.1.remove istart
    let m := if istart < start then m.insert istart start else m
    let m := if iend > stop then m.insert stop iend else m
    (m, acc.2 + (ovEnd - ovStart))
  | none => acc -- the `expect` of the source: the start was just collected

/-- Starts of the intervals that share a byte with `[start, stop)`. -/
def toCut (m : IntervalMap) (start stop : Nat) : List Nat :=
  (m.entries.filter fun p => p.1 < stop ∧ start < p.2).map Prod.fst

def removeInterval (m : IntervalMap) (start stop : Nat) : IntervalMap × Nat :=
  if start ≥ stop then (m, 0) else (toCut m start stop).foldl (removeStep start stop) (m, 0)

theorem mem_toCut {m : IntervalMap} {start stop : Nat} {p : Nat × Nat} (hp : p ∈ m) :
    p.1 ∈ toCut m start stop ↔ Meets start stop p := by
  simp only [toCut, List.mem_map, List.mem_filter, decide_eq_true_eq]
  constructor
  · rintro ⟨q, ⟨hq, ht⟩, h⟩
    exact SortedMap.eq_of_key hq hp h ▸ ht
  · exact fun ht => ⟨p, ⟨hp, ht⟩, rfl⟩

/-- The parts of `q` outside `[start, stop)`. -/
def Rest (start stop : Nat) (q p : Nat × Nat) : Prop :=
  q.1 < start ∧ p = (q.1, start) ∨ stop < q.2 ∧ p = (stop, q.2)

/-- An interval that starts before `stop` and runs past it is the only one at `stop`. -/
def TailFree (m : IntervalMap) (keys : List Nat) (stop : Nat) : Prop :=
  ∀ q ∈ m, q.1 ∈ keys → stop < q.2 → ∀ p ∈ m, p.1 = stop ∨ p.1 ∈ keys ∧ stop < p.2 → p = q

theorem mem_removeStep {m : IntervalMap} {stop k v : Nat} (start n : Nat) (hv : (k, v) ∈ m)
    (hk : k < stop) (hfree : stop < v → ∀ p ∈ m, p.1 ≠ stop) (p : Nat × Nat) :
    p ∈ (removeStep start stop (m, n) k).1 ↔ p ∈ m ∧ p.1 ≠ k ∨ Rest start stop (k, v) p := by
  simp only [removeStep, SortedMap.get?_eq_some.mpr hv, Rest]
  split <;> split <;> simp only [SortedMap.mem_insert, SortedMap.mem_remove] <;> grind

theorem mem_foldl_removeStep (start stop : Nat) : ∀ (keys : List Nat) (m : IntervalMap) (n : Nat),
    keys.Nodup → (∀ k ∈ keys, k < stop ∧ ∃ v, (k, v) ∈ m) → TailFree m keys stop → ∀ p,
      (p ∈ (keys.foldl (removeStep start stop) (m, n)).1 ↔
        p ∈ m ∧ p.1 ∉ keys ∨ ∃ q ∈ m, q.1 ∈ keys ∧ Rest start stop q p)
  | [], m, n, _, _, _, p => by simp
  | k :: keys, m, n, hnd, hkeys, hfree, p => by
    obtain ⟨hkn, hnd⟩ := List.nodup_cons.mp hnd
    obtain ⟨hk, v, hv⟩ := hkeys k List.mem_cons_self
    have hstop : stop ∉ keys := fun h => lt_irrefl _ (hkeys stop (List.mem_cons_of_mem _ h)).1
    have hstep := mem_removeStep start n hv hk fun hlt p hp h => by
      obtain rfl := hfree (k, v) hv List.mem_cons_self hlt p hp (.inl h)
      exact absurd h hk.ne
    rw [List.foldl_cons]
    generalize removeStep start stop (m, n) k = acc at hstep
    -- what the rest of the loop drops was there before this round
    have hold : ∀ q ∈ acc.1, q.1 ∈ keys → q ∈ m := by
      intro q hq hqk
      rcases (hstep q).mp hq with ⟨hq, -⟩ | ⟨-, rfl⟩ | ⟨-, rfl⟩
      · exact hq
      · exact absurd hqk hkn
      · exact absurd hqk hstop
    have hnew : ∀ q ∈ m, q.1 ∈ keys → q ∈ acc.1 := fun q hq hqk =>
      (hstep q).mpr (.inl ⟨hq, fun h => hkn (h ▸ hqk)⟩)
    have hfree' : TailFree acc.1 keys stop := by
      intro q hq hqk hlt p hp hps
      have hqm := hold q hq hqk
      rcases (hstep p).mp hp with ⟨hp, -⟩ | ⟨-, rfl⟩ | ⟨hv', rfl⟩
      · exact hfree q hqm (List.mem_cons_of_mem _ hqk) hlt p hp
          (hps.imp_right fun h => ⟨List.mem_cons_of_mem _ h.1, h.2⟩)
      · rcases hps with h | h
        · exact absurd h hk.ne
        · exact absurd h.1 hkn
      · obtain rfl := hfree (k, v) hv List.mem_cons_self hv' q hqm
          (.inr ⟨List.mem_cons_of_mem _ hqk, hlt⟩)
        exact absurd hqk hkn
    have ih := mem_foldl_removeStep start stop keys acc.1 acc.2 hnd (fun k' hk' => by
      obtain ⟨hlt, v', hv'⟩ := hkeys k' (List.mem_cons_of_mem _ hk')
      exact ⟨hlt, v', hnew _ hv' hk'⟩) hfree' p
    rw [ih]
    constructor
    · rintro (⟨hp, hpk⟩ | ⟨q, hq, hqk, hr⟩)
      · rcases (hstep p).mp hp with ⟨hp, hne⟩ | hr
        · exact .inl ⟨hp, fun h => (List.mem_cons.mp h).elim hne hpk⟩
        · exact .inr ⟨(k, v), hv, List.mem_cons_self, hr⟩
      · exact .inr ⟨q, hold q hq hqk, List.mem_cons_of_mem _ hqk, hr⟩
    · rintro (⟨hp, hpk⟩ | ⟨q, hq, hqk, hr⟩)
      · obtain ⟨hne, hpk⟩ := not_or.mp (mt List.mem_cons.mpr hpk)
        exact .inl ⟨(hstep p).mpr (.inl ⟨hp, hne⟩), hpk⟩
      · rcases List.mem_cons.mp hqk with h | hqk
        · obtain rfl := SortedMap.eq_of_key hq hv h
          refine .inl ⟨(hstep p).mpr (.inr hr), ?_⟩
          rcases hr with ⟨-, rfl⟩ | ⟨-, rfl⟩
          · exact hkn
          · exact hstop
        · exact .inr ⟨q, hnew q hq hqk, hqk, hr⟩

theorem isCut_removeInterval {m : IntervalMap} (hc : m.Canonical) {start stop : Nat}
    (h : start < stop) : IsCut m start stop (removeInterval m start stop).1 := by
  have hkeys : ∀ k ∈ toCut m start stop, k < stop ∧ ∃ v, (k, v) ∈ m := by
    intro k hk
    obtain ⟨p, hp, rfl⟩ := List.mem_map.mp hk
    obtain ⟨hp, ht⟩ := List.mem_filter.mp hp
    exact ⟨(of_decide_eq_true ht).1, p.2, hp⟩
  have hfree : TailFree m (toCut m start stop) stop := by
    intro q hq hqk hlt p hp hps
    have ht := (mem_toCut hq).mp hqk
    -- both intervals hold the byte `stop`
    have hps' : p.1 ≤ stop ∧ stop < p.2 := by
      rcases hps with h | ⟨hk, h⟩
      · exact ⟨h.le, h ▸ hc.pos p hp⟩
      · exact ⟨((mem_toCut hp).mp hk).1.le, h⟩
    exact hc.eq_of_point hp hq hps'.1 hps'.2 ht.1.le hlt
  constructor
  intro p
  rw [removeInterval, if_neg (not_le.mpr h),
    mem_foldl_removeStep start stop (toCut m start stop) m 0 (nodup_starts m _) hkeys hfree]
  constructor
  · rintro (⟨hp, hn⟩ | ⟨q, hq, hqk, hr⟩)
    · exact .inl ⟨hp, fun ht => hn ((mem_toCut hp).mpr ht)⟩
    · exact .inr ⟨q, hq, (mem_toCut hq).mp hqk, hr⟩
  · rintro (⟨hp, hn⟩ | ⟨q, hq, ht, hr⟩)
    · exact .inl ⟨hp, fun hk => hn ((mem_toCut hp).mp hk)⟩
    · exact .inr ⟨q, hq, (mem_toCut hq).mpr ht, hr⟩

/-! ## The tracker -/

structure PopulatedRanges where
  intervals : IntervalMap
  canonical : intervals.Canonical

namespace PopulatedRanges

def new : PopulatedRanges := ⟨SortedMap.empty, canonical_empty⟩

/-- Insert `[start, stop)`, merging with the intervals it overlaps or touches. -/
def insert (r : PopulatedRanges) (start stop : Nat) : PopulatedRanges where
  intervals := insertInterval r.intervals start stop
  canonical := by
    by_cases h : start < stop
    · obtain ⟨s', e', hm⟩ := isMerge_insertInterval r.canonical h
      exact hm.canonical r.canonical h
    · rw [insertInterval, if_pos (not_lt.mp h)]
      exact r.canonical

/-- Remove `[start, stop)`; also the number of bytes removed. -/
def removeRange (r : PopulatedRanges) (start stop : Nat) : PopulatedRanges × Nat :=
  (⟨(removeInterval r.intervals start stop).1, by
    by_cases h : start < stop
    · exact (isCut_removeInterval r.canonical h).canonical r.canonical h
    · rw [removeInterval, if_pos (not_lt.mp h)]
      exact r.canonical⟩,
   (removeInterval r.intervals start stop).2)

/-- Whether `[start, stop)` is fully populated. -/
def containsRange (r : PopulatedRanges) (start stop : Nat) : Bool :=
  if start ≥ stop then true
  else
    match r.intervals.lastUpTo start with
    | some (_, iend) => iend ≥ stop
    | none => false

/-- The populated bytes. -/
def bytes (r : PopulatedRanges) : Set Nat := r.intervals.points

@[simp] theorem not_mem_bytes_new (b : Nat) : b ∉ new.bytes := by
  rw [bytes, new, points_empty]
  exact Set.notMem_empty b

@[simp] theorem mem_bytes_insert {r : PopulatedRanges} {start stop b : Nat} :
    b ∈ (r.insert start stop).bytes ↔ b ∈ r.bytes ∨ start ≤ b ∧ b < stop := by
  by_cases h : start < stop
  · obtain ⟨s', e', hm⟩ := isMerge_insertInterval r.canonical h
    rw [bytes, insert, hm.points_eq h]
    rfl
  · have hr : r.insert start stop = r := by simp [insert, insertInterval, not_lt.mp h]
    rw [hr]
    exact ⟨.inl, fun hb => hb.elim id fun hb => absurd (hb.1.trans_lt hb.2) h⟩

@[simp] theorem mem_bytes_removeRange {r : PopulatedRanges} {start stop b : Nat} :
    b ∈ (r.removeRange start stop).1.bytes ↔ b ∈ r.bytes ∧ ¬ (start ≤ b ∧ b < stop) := by
  by_cases h : start < stop
  · rw [bytes, removeRange, (isCut_removeInterval r.canonical h).points_eq]
    rfl
  · have hr : (r.removeRange start stop).1 = r := by
      simp [removeRange, removeInterval, not_lt.mp h]
    rw [hr]
    exact ⟨fun hb => ⟨hb, fun hb => absurd (hb.1.trans_lt hb.2) h⟩, And.left⟩

/-- The one interval looked at decides for every byte of the range. -/
theorem containsRange_iff (r : PopulatedRanges) (start stop : Nat) :
    r.containsRange start stop = true ↔ ∀ b, start ≤ b → b < stop → b ∈ r.bytes := by
  unfold containsRange
  split
  · simp only [true_iff]; omega
  rename_i h
  refine Iff.trans ?_ (r.canonical.covers_iff (not_le.mp h))
  cases hl : r.intervals.lastUpTo start with
  | none =>
    have := SortedMap.lastUpTo_eq_none.mp hl
    simp only [Bool.false_eq_true, false_iff]
    rintro ⟨p, hp, h1, -⟩
    exact absurd (this p hp) (not_lt.mpr h1)
  | some p =>
    obtain ⟨hp, hle, hmax⟩ := SortedMap.lastUpTo_eq_some hl
    simp only [ge_iff_le, decide_eq_true_eq]
    refine ⟨fun h => ⟨p, hp, hle, h⟩, fun ⟨q, hq, h1, h2⟩ => ?_⟩
    -- `q` holds `start`; the last interval up to `start` is no earlier, so it is `q`
    rcases (hmax q hq h1).lt_or_eq with hlt | heq
    · have := r.canonical.sep q hq p hp hlt
      omega
    · rwa [SortedMap.eq_of_key hq hp heq] at h2

theorem eq_of_bytes_eq {r r' : PopulatedRanges} (h : r.bytes = r'.bytes) : r = r' := by
  have hi := r.canonical.eq_of_points_eq r'.canonical h
  cases r
  cases r'
  exact (PopulatedRanges.mk.injEq ..).mpr hi

end PopulatedRanges

/-! ## Sequences of calls -/

/-- A mutating call. -/
inductive RangeOp where
  | insert (start stop : Nat)
  | removeRange (start stop : Nat)
  deriving DecidableEq

/-- What a call does to the set of populated bytes. -/
def RangeOp.onBytes (bs : Set Nat) : RangeOp → Set Nat
  | insert start stop => bs ∪ {b | start ≤ b ∧ b < stop}
  | removeRange start stop => bs \ {b | start ≤ b ∧ b < stop}

/-- The bytes populated after the calls. -/
def populatedBytes (ops : List RangeOp) : Set Nat := ops.foldl RangeOp.onBytes ∅

namespace PopulatedRanges

def apply (r : PopulatedRanges) : RangeOp → PopulatedRanges
  | .insert start stop => r.insert start stop
  | .removeRange start stop => (r.removeRange start stop).1

/-- The tracker after the calls. -/
def run (ops : List RangeOp) : PopulatedRanges := ops.foldl apply new

theorem bytes_apply (r : PopulatedRanges) (op : RangeOp) :
    (r.apply op).bytes = op.onBytes r.bytes := by
  ext b
  cases op with
  | insert start stop => exact mem_bytes_insert
  | removeRange start stop => exact mem_bytes_removeRange

theorem bytes_foldl_apply : ∀ (ops : List RangeOp) (r : PopulatedRanges),
    (ops.foldl apply r).bytes = ops.foldl RangeOp.onBytes r.bytes
  | [], _ => rfl
  | op :: ops, r => by
    rw [List.foldl_cons, List.foldl_cons, ← bytes_apply]
    exact bytes_foldl_apply ops (r.apply op)

theorem bytes_run (ops : List RangeOp) : (run ops).bytes = populatedBytes ops := by
  have h0 : new.bytes = ∅ := Set.eq_empty_of_forall_notMem not_mem_bytes_new
  rw [run, bytes_foldl_apply, h0, populatedBytes]

/-- **The tracker is the set of bytes it denotes**: canonical after any calls, holding what the
calls say, deciding ranges exactly, and determined by the set. -/
theorem run_refines_bytes :
    (∀ ops, (run ops).intervals.Canonical ∧ (run ops).bytes = populatedBytes ops ∧
      ∀ start stop, (run ops).containsRange start stop = true ↔
        ∀ b, start ≤ b → b < stop → b ∈ populatedBytes ops) ∧
    (∀ ops ops', populatedBytes ops = populatedBytes ops' →
      (run ops).intervals.entries = (run ops').intervals.entries) := by
  refine ⟨fun ops => ⟨(run ops).canonical, bytes_run ops, fun start stop => ?_⟩, ?_⟩
  · rw [containsRange_iff, bytes_run]
  · intro ops ops' h
    rw [eq_of_bytes_eq ((bytes_run ops).trans (h.trans (bytes_run ops').symm))]

end PopulatedRanges

end StremioNzb.Streaming

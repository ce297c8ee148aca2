import StremioNzb.Lib.Checked
import StremioNzb.Lib.IntervalCount
import StremioNzb.Streaming.Ranges

/-!
# Byte accounting

`PopulatedRanges::total_bytes` and the count that `remove_range` returns. The intervals are
disjoint, so their lengths add up to the number of populated bytes
(`PopulatedRanges.totalBytes_eq`), and the overlaps that a removal sums up are the populated bytes
of its range (`PopulatedRanges.removed_eq`). The total is a checked sum: `none` would be a wrap.
-/

namespace StremioNzb.Streaming

open StremioNzb.Lib

/-- The part of an interval inside `[start, stop)`. -/
def overlap (start stop : Nat) (p : Nat × Nat) : Nat × Nat := (max p.1 start, min p.2 stop)

theorem mapM_checkedSub : ∀ {l : List (Nat × Nat)}, (∀ p ∈ l, p.1 ≤ p.2) →
    l.mapM (fun p => checkedSub p.2 p.1) = some (l.map fun p => p.2 - p.1)
  | [], _ => rfl
  | p :: l, h => by
    have hp := h p List.mem_cons_self
    have ih := mapM_checkedSub fun q hq => h q (List.mem_cons_of_mem p hq)
    rw [List.mapM_cons, checkedSub_of_le hp, ih]
    rfl

/-- A round of the removal loop leaves the other intervals that start before `stop`. -/
theorem mem_removeStep_of_ne {m : IntervalMap} {p : Nat × Nat} {stop k : Nat} (start n : Nat)
    (hp : p ∈ m) (hlt : p.1 < stop) (hne : p.1 ≠ k) : p ∈ (removeStep start stop (m, n) k).1 := by
  have hstop : p.1 ≠ stop := ne_of_lt hlt
  unfold removeStep
  split
  · simp only
    split <;> split <;> simp only [SortedMap.mem_insert, SortedMap.mem_remove] <;> grind
  · exact hp

/-- The loop counts the overlap of each interval it visits. -/
theorem count_foldl_removeStep (start stop : Nat) : ∀ (l : List (Nat × Nat)) (m : IntervalMap)
    (n : Nat), (l.map Prod.fst).Nodup → (∀ p ∈ l, p ∈ m ∧ p.1 < stop) →
      ((l.map Prod.fst).foldl (removeStep start stop) (m, n)).2 =
        n + (l.map fun p => (overlap start stop p).2 - (overlap start stop p).1).sum
  | [], _, _, _, _ => rfl
  | p :: l, m, n, hnd, hl => by
    rw [List.map_cons] at hnd
    obtain ⟨hpl, hnd⟩ := List.nodup_cons.mp hnd
    have hp := (hl p List.mem_cons_self).1
    have hcount : (removeStep start stop (m, n) p.1).2 =
        n + ((overlap start stop p).2 - (overlap start stop p).1) := by
      simp only [removeStep, SortedMap.get?_eq_some.mpr hp, overlap]
    have hrest : ∀ q ∈ l, q ∈ (removeStep start stop (m, n) p.1).1 ∧ q.1 < stop := by
      intro q hq
      obtain ⟨hqm, hlt⟩ := hl q (List.mem_cons_of_mem p hq)
      have hne : q.1 ≠ p.1 := fun h => hpl (List.mem_map.mpr ⟨q, hq, h⟩)
      exact ⟨mem_removeStep_of_ne start n hqm hlt hne, hlt⟩
    have ih := count_foldl_removeStep start stop l _ (removeStep start stop (m, n) p.1).2 hnd hrest
    rw [List.map_cons, List.foldl_cons, ih, hcount, List.map_cons, List.sum_cons, Nat.add_assoc]

namespace PopulatedRanges

/-- The lengths of the intervals, summed in a word. -/
def totalBytes (r : PopulatedRanges) : Option Nat :=
  (r.intervals.entries.mapM fun p => checkedSub p.2 p.1).bind (checkedSum 64 0)

theorem bytes_eq_held (r : PopulatedRanges) : r.bytes = held r.intervals.entries := rfl

theorem finite_bytes (r : PopulatedRanges) : r.bytes.Finite := finite_held _

/-- Each interval ends before the next starts. -/
theorem pairwise_entries (r : PopulatedRanges) :
    r.intervals.entries.Pairwise fun p q => p.2 ≤ q.1 :=
  r.intervals.sorted.imp_of_mem fun {p q} hp hq hlt => (r.canonical.sep p hp q hq hlt).le

/-- **The total is the number of populated bytes**, where that number fits. -/
theorem totalBytes_eq (r : PopulatedRanges) (h : r.bytes.ncard < 2 ^ 64) :
    r.totalBytes = some r.bytes.ncard := by
  rw [bytes_eq_held, ncard_held r.pairwise_entries] at h ⊢
  rw [totalBytes, mapM_checkedSub fun p hp => (r.canonical.pos p hp).le, Option.bind_some,
    checkedSum_of_lt (by omega), Nat.zero_add]

/-- **What a removal counts is the number of populated bytes in its range.** -/
theorem removed_eq (r : PopulatedRanges) (start stop : Nat) :
    (r.removeRange start stop).2 = (r.bytes ∩ Set.Ico start stop).ncard := by
  rw [removeRange]
  simp only
  unfold removeInterval
  split_ifs with h
  · rw [Set.Ico_eq_empty (not_lt.mpr h), Set.inter_empty, Set.ncard_empty]
  let cut := r.intervals.entries.filter fun p => p.1 < stop ∧ start < p.2
  have hcut : ∀ p, p ∈ cut ↔ p ∈ r.intervals ∧ p.1 < stop ∧ start < p.2 := fun p => by
    rw [List.mem_filter, decide_eq_true_eq, SortedMap.mem_def]
  have hcount := count_foldl_removeStep start stop cut r.intervals 0
    (nodup_starts r.intervals _) fun p hp => ⟨((hcut p).mp hp).1, ((hcut p).mp hp).2.1⟩
  have hsep : (cut.map (overlap start stop)).Pairwise fun p q => p.2 ≤ q.1 := by
    refine List.pairwise_map.mpr ((r.pairwise_entries.filter _).imp fun {p q} hpq => ?_)
    simp only [overlap]
    omega
  have hheld : held (cut.map (overlap start stop)) = r.bytes ∩ Set.Ico start stop := by
    ext x
    constructor
    · rintro ⟨q, hq, h1, h2⟩
      obtain ⟨p, hp, rfl⟩ := List.mem_map.mp hq
      simp only [overlap] at h1 h2
      exact ⟨⟨p, ((hcut p).mp hp).1, by omega, by omega⟩, by omega, by omega⟩
    · rintro ⟨⟨p, hp, h1, h2⟩, h3, h4⟩
      have hpc : p ∈ cut := (hcut p).mpr ⟨hp, h1.trans_lt h4, h3.trans_lt h2⟩
      refine ⟨_, List.mem_map_of_mem hpc, ?_, ?_⟩ <;> simp only [overlap] <;> omega
  rw [← hheld, ncard_held hsep, List.map_map]
  refine hcount.trans ?_
  rw [Nat.zero_add]
  rfl

/-- No overlap that a removal sums up ends before it starts. -/
theorem overlap_le (r : PopulatedRanges) {start stop : Nat} (h : start < stop) {p : Nat × Nat}
    (hp : p ∈ r.intervals) (hm : Meets start stop p) :
    (overlap start stop p).1 ≤ (overlap start stop p).2 := by
  have hpos := r.canonical.pos p hp
  have h1 := hm.1
  have h2 := hm.2
  simp only [overlap]
  omega

theorem bytes_insert (r : PopulatedRanges) (start stop : Nat) :
    (r.insert start stop).bytes = r.bytes ∪ Set.Ico start stop := by
  ext b; exact mem_bytes_insert

theorem bytes_removeRange (r : PopulatedRanges) (start stop : Nat) :
    (r.removeRange start stop).1.bytes = r.bytes \ Set.Ico start stop := by
  ext b; exact mem_bytes_removeRange

/-- An insertion adds the bytes of its range that were missing. -/
theorem ncard_bytes_insert (r : PopulatedRanges) (start stop : Nat) :
    (r.insert start stop).bytes.ncard =
      r.bytes.ncard + (Set.Ico start stop \ r.bytes).ncard := by
  rw [bytes_insert, ← Set.union_sdiff_self]
  exact Set.ncard_union_eq Set.disjoint_sdiff_right r.finite_bytes (Set.finite_Ico _ _).sdiff

/-- A removal takes away the bytes of its range that were there. -/
theorem ncard_bytes_removeRange (r : PopulatedRanges) (start stop : Nat) :
    (r.removeRange start stop).1.bytes.ncard + (r.bytes ∩ Set.Ico start stop).ncard =
      r.bytes.ncard := by
  rw [bytes_removeRange, Nat.add_comm]
  exact Set.ncard_inter_add_ncard_sdiff_eq_ncard _ _ r.finite_bytes

end PopulatedRanges

/-! ## Calls with words -/

/-- The arguments are words. -/
def RangeOp.Word : RangeOp → Prop
  | insert start stop => start < 2 ^ 64 ∧ stop < 2 ^ 64
  | removeRange start stop => start < 2 ^ 64 ∧ stop < 2 ^ 64

instance : DecidablePred RangeOp.Word := fun op => by cases op <;> exact instDecidableAnd

/-- A call with words populates no byte at or past the greatest word. -/
theorem RangeOp.Word.onBytes_subset {op : RangeOp} (h : op.Word) {bs : Set Nat}
    (hbs : bs ⊆ Set.Iio (2 ^ 64 - 1)) : op.onBytes bs ⊆ Set.Iio (2 ^ 64 - 1) := by
  cases op with
  | insert start stop =>
    rintro b (hb | ⟨-, hb⟩)
    · exact hbs hb
    · have := h.2
      exact Set.mem_Iio.mpr (by omega)
  | removeRange start stop => exact fun b hb => hbs hb.1

theorem populatedBytes_subset {ops : List RangeOp} (h : ∀ op ∈ ops, op.Word) :
    populatedBytes ops ⊆ Set.Iio (2 ^ 64 - 1) := by
  have hgo : ∀ (ops : List RangeOp) (bs : Set Nat), (∀ op ∈ ops, op.Word) →
      bs ⊆ Set.Iio (2 ^ 64 - 1) → ops.foldl RangeOp.onBytes bs ⊆ Set.Iio (2 ^ 64 - 1) := by
    intro ops
    induction ops with
    | nil => exact fun _ _ hbs => hbs
    | cons op ops ih =>
      intro bs h hbs
      exact ih _ (fun o ho => h o (List.mem_cons_of_mem op ho))
        ((h op List.mem_cons_self).onBytes_subset hbs)
  exact hgo ops ∅ h (Set.empty_subset _)

theorem ncard_populatedBytes_lt {ops : List RangeOp} (h : ∀ op ∈ ops, op.Word) :
    (populatedBytes ops).ncard < 2 ^ 64 := by
  have hle := Set.ncard_le_ncard (populatedBytes_subset h) (Set.finite_Iio _)
  have hcard : (Set.Iio (2 ^ 64 - 1)).ncard = 2 ^ 64 - 1 := by
    rw [← Finset.coe_Iio, Set.ncard_coe_finset, Nat.card_Iio]
  omega

namespace PopulatedRanges

/-- After calls with words the total fits. -/
theorem totalBytes_run {ops : List RangeOp} (h : ∀ op ∈ ops, op.Word) :
    (run ops).totalBytes = some (populatedBytes ops).ncard := by
  have hlt := ncard_populatedBytes_lt h
  rw [← bytes_run] at hlt ⊢
  exact totalBytes_eq _ hlt

theorem run_append (ops : List RangeOp) (op : RangeOp) : run (ops ++ [op]) = (run ops).apply op :=
  List.foldl_append

/-- **The byte accounting is exact**: the total is the number of populated bytes, an insertion
raises it by the missing bytes of its range, and a removal lowers it by what it returns, the
populated bytes of its range. -/
theorem accounting_exact (ops : List RangeOp) (h : ∀ op ∈ ops, op.Word) (start stop : Nat)
    (hs : start < 2 ^ 64) (he : stop < 2 ^ 64) :
    ((populatedBytes ops).Finite ∧ (populatedBytes ops).ncard < 2 ^ 64 ∧
      (run ops).totalBytes = some (populatedBytes ops).ncard) ∧
    ((run ops).insert start stop).totalBytes =
      some ((populatedBytes ops).ncard + (Set.Ico start stop \ populatedBytes ops).ncard) ∧
    (((run ops).removeRange start stop).2 = (populatedBytes ops ∩ Set.Ico start stop).ncard ∧
      (∀ p ∈ (run ops).intervals, start < stop → Meets start stop p →
        (overlap start stop p).1 ≤ (overlap start stop p).2) ∧
      ((run ops).removeRange start stop).2 ≤ (populatedBytes ops).ncard ∧
      ((run ops).removeRange start stop).1.totalBytes =
        some ((populatedBytes ops).ncard - ((run ops).removeRange start stop).2)) := by
  have hword : ∀ op : RangeOp, op.Word → ∀ o ∈ ops ++ [op], o.Word := fun op hop o ho =>
    (List.mem_append.mp ho).elim (h o) fun ho => List.mem_singleton.mp ho ▸ hop
  have hremoved := (run ops).removed_eq start stop
  have hcut := (run ops).ncard_bytes_removeRange start stop
  rw [← hremoved] at hcut
  rw [bytes_run] at hremoved hcut
  refine ⟨⟨?_, ncard_populatedBytes_lt h, totalBytes_run h⟩, ?_, hremoved,
    fun p hp hlt hm => overlap_le _ hlt hp hm, by omega, ?_⟩
  · rw [← bytes_run]
    exact (run ops).finite_bytes
  · have htotal := totalBytes_run (hword (.insert start stop) ⟨hs, he⟩)
    rw [← bytes_run, run_append] at htotal
    rw [← bytes_run, ← ncard_bytes_insert]
    exact htotal
  · have htotal := totalBytes_run (hword (.removeRange start stop) ⟨hs, he⟩)
    rw [← bytes_run, run_append] at htotal
    have hsub : (populatedBytes ops).ncard - ((run ops).removeRange start stop).2 =
        ((run ops).removeRange start stop).1.bytes.ncard := by omega
    rw [hsub]
    exact htotal

/-- Two intervals, then a window over the gap between them. -/
theorem accounting_exact_two :
    ((run [.insert 0 10, .insert 20 30]).insert 5 25).totalBytes =
      some ((populatedBytes [.insert 0 10, .insert 20 30]).ncard +
        (Set.Ico 5 25 \ populatedBytes [.insert 0 10, .insert 20 30]).ncard) :=
  (accounting_exact [.insert 0 10, .insert 20 30] (by decide) 5 25 (by decide) (by decide)).2.1

end PopulatedRanges

end StremioNzb.Streaming

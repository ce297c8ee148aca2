import StremioNzb.Streaming.Laid

/-!
# The segment lookup on what the builders produce

`find_segment_for_byte` with the sums of a release build, on every list the builders return,
whatever the sizes declared. The lookup is exact on a list exactly where nothing wraps and no empty
segment lies before the end (`lookup_exact_iff`): of several segments that start at one byte the
binary search may return any, the empty ones too.
-/

namespace StremioNzb.Streaming

open StremioNzb.Lib

/-- `find_segment_for_byte`, its sum in a word. -/
def findSegmentForByte64 (bs : SegmentSearch) (segments : List SegmentRef) (byte : Nat) :
    Option Nat :=
  let idx := match bs.run segments byte with
    | .ok i => some i
    | .error 0 => none
    | .error (i + 1) => some i
  idx.bind fun idx => segments[idx]?.bind fun seg =>
    if byte < add64 seg.offsetInStream seg.bytes then some idx else none

/-- End of the last segment. -/
def lastStop (segments : List SegmentRef) : Nat := (segments.getLast?.map (·.stop)).getD 0

/-- The lookup finds the segment that holds the byte below the end of the last segment, and none
from there on. -/
structure LookupExact (bs : SegmentSearch) (segments : List SegmentRef) (byte : Nat) : Prop where
  found : byte < lastStop segments → ∃ i s, findSegmentForByte64 bs segments byte = some i ∧
    segments[i]? = some s ∧ s.offsetInStream ≤ byte ∧ byte < s.stop
  missed : lastStop segments ≤ byte → findSegmentForByte64 bs segments byte = none

/-! ## Where the lookup is exact -/

variable {bs : SegmentSearch} {segs : List SegmentRef} {b i : Nat}

theorem findSegmentForByte64_eq (h : ∀ s ∈ segs, s.stop < 2 ^ 64) :
    findSegmentForByte64 bs segs b = findSegmentForByte bs segs b := by
  unfold findSegmentForByte64 findSegmentForByte
  simp only
  congr 1
  funext idx
  refine Option.bind_congr fun s hs => ?_
  rw [add64_eq (h s (List.mem_of_getElem? hs))]

/-- The check the code makes on what it returns. -/
theorem findSegmentForByte64_eq_some (h : findSegmentForByte64 bs segs b = some i) :
    ∃ s, segs[i]? = some s ∧ b < add64 s.offsetInStream s.bytes := by
  unfold findSegmentForByte64 at h
  obtain ⟨j, -, h⟩ := Option.bind_eq_some_iff.mp h
  obtain ⟨s, hs, h⟩ := Option.bind_eq_some_iff.mp h
  obtain ⟨hlt, h⟩ := Option.ite_none_right_eq_some.mp h
  cases h
  exact ⟨s, hs, hlt⟩

theorem lastStop_eq (h : Contiguous segs) : lastStop segs = assembledEnd segs :=
  h.assembledSize (l := ⟨segs, []⟩)

/-- **Byte by byte**: where the sizes fit, the lookup is exact unless an empty segment starts at
the byte, below the end. -/
theorem lookup_exact_at (h : LaidFrom64 0 segs) (hfit : assembledEnd segs < 2 ^ 64) :
    (∀ bs, LookupExact bs segs b) ↔
      ∀ z ∈ segs, z.bytes = 0 → z.offsetInStream = b → assembledEnd segs ≤ b := by
  have hc : Contiguous segs := contiguous_iff.mpr (h.laidFrom (by omega))
  have hstop : ∀ s ∈ segs, s.stop < 2 ^ 64 := fun s hs => by
    obtain ⟨j, hj⟩ := List.mem_iff_getElem?.mp hs
    exact (hc.stop_le_end hj).trans_lt hfit
  constructor
  · intro hall z hz h0 hb
    by_contra hlt
    obtain ⟨j, s, hf, -⟩ := (hall (.leftmost _)).found (lastStop_eq hc ▸ not_le.mp hlt)
    rw [findSegmentForByte64_eq hstop, findSegmentForByte_leftmost_empty hc hz h0 hb] at hf
    exact absurd hf (Option.some_ne_none _).symm
  · intro hz bs
    constructor
    · intro hb
      rw [lastStop_eq hc] at hb
      obtain ⟨j, s, hj, h1, h2⟩ := exists_block hb
      rw [← hc j s hj] at h1 h2
      refine ⟨j, s, ?_, hj, h1, h2⟩
      rw [findSegmentForByte64_eq hstop]
      refine findSegmentForByte_eq_some hc hj h1 h2 fun z hm he => Nat.pos_of_ne_zero fun h0 => ?_
      exact absurd (hz z hm h0 he) (not_le.mpr hb)
    · intro hb
      rw [findSegmentForByte64_eq hstop]
      exact findSegmentForByte_eq_none hc (lastStop_eq hc ▸ hb)

/-- Where the sizes do not fit, some search makes the lookup wrong at some byte. -/
theorem exists_lookup_wrong (h : LaidFrom64 0 segs) (hge : 2 ^ 64 ≤ assembledEnd segs) :
    ∃ (bs : SegmentSearch) (byte : Nat), byte < 2 ^ 64 ∧ ¬ LookupExact bs segs byte := by
  by_contra hall
  push Not at hall
  rcases h.wraps (by decide) (by omega) with hn | ⟨hl, s, hs, ho, hpos, hwrap⟩
  · -- the list is not sorted, so the search may answer anything: first that it is before all
    have hnone := hall (.unsorted _ (.error 0)) 0 (by decide)
    have hrun : ∀ r, (BinarySearch.unsorted SegmentRef.offsetInStream r).run segs 0 = r :=
      fun r => if_neg hn
    have hlast : lastStop segs = 0 := by
      by_contra hpos
      obtain ⟨j, t, hf, -⟩ := hnone.found (Nat.pos_of_ne_zero hpos)
      simp [findSegmentForByte64, hrun] at hf
    -- then that it is the first segment with a byte
    obtain ⟨j, t, hj, ht, hpos, hlt⟩ := h.exists_pos (by decide) (by omega)
    have hmiss := (hall (.unsorted _ (.ok j)) 0 (by decide)).missed hlast.le
    have hadd : 0 < add64 t.offsetInStream t.bytes := by rw [ht, add64_eq (by omega)]; omega
    simp [findSegmentForByte64, hrun, hj, hadd] at hmiss
  · -- the end of the last segment wraps, and its first byte is not found
    have hlt : s.offsetInStream < lastStop segs := by
      rwa [lastStop, hs, Option.map_some, Option.getD_some]
    obtain ⟨j, t, hf, hj, h1, h2⟩ := (hall (.leftmost _) _ ho).found hlt
    obtain ⟨u, hu, hlast⟩ := findSegmentForByte64_eq_some hf
    obtain rfl : t = u := Option.some_injective _ (hj.symm.trans hu)
    have hc : Contiguous segs := contiguous_iff.mpr hl
    rw [List.getLast?_eq_getElem?] at hs
    have hjs : j = segs.length - 1 := by
      refine @block_unique _ SegmentRef.bytes _ _ _ _ _ s.offsetInStream hj hs ?_ ?_ ?_ ?_
      · rwa [← hc j t hj]
      · rwa [← hc j t hj]
      · exact (hc _ s hs).ge
      · rwa [← hc _ s hs]
    obtain rfl : t = s := Option.some_injective _ (hj.symm.trans (hjs ▸ hs))
    exact absurd hlast (not_lt.mpr hwrap.le)

/-- **The lookup is exact on a list that the builders return** exactly where the sizes add up in a
word and every empty segment starts at the end; byte by byte, an empty segment hurts the byte it
starts at. -/
theorem lookup_exact_iff {segs : List SegmentRef} (h : BuiltSegments segs) :
    ((∀ (bs : SegmentSearch) (byte : Nat), byte < 2 ^ 64 → LookupExact bs segs byte) ↔
      assembledEnd segs < 2 ^ 64 ∧
        ∀ z ∈ segs, z.bytes = 0 → z.offsetInStream = assembledEnd segs) ∧
    (assembledEnd segs < 2 ^ 64 → ∀ byte, (∀ bs : SegmentSearch, LookupExact bs segs byte) ↔
      ∀ z ∈ segs, z.bytes = 0 → z.offsetInStream = byte → assembledEnd segs ≤ byte) := by
  have hl := h.laidFrom64
  refine ⟨⟨fun hall => ?_, fun ⟨hfit, hz⟩ bs byte _ => ?_⟩,
    fun hfit byte => lookup_exact_at hl hfit⟩
  · have hfit : assembledEnd segs < 2 ^ 64 := by
      by_contra hge
      obtain ⟨bs, byte, hb, hwrong⟩ := exists_lookup_wrong hl (not_lt.mp hge)
      exact hwrong (hall bs byte hb)
    refine ⟨hfit, fun z hz h0 => ?_⟩
    obtain ⟨j, hj⟩ := List.mem_iff_getElem?.mp hz
    have hc : Contiguous segs := contiguous_iff.mpr (hl.laidFrom (by omega))
    have hle := hc.stop_le_end hj
    rw [SegmentRef.stop, h0] at hle
    have hat := (lookup_exact_at hl hfit).mp fun bs => hall bs z.offsetInStream (by omega)
    exact le_antisymm hle (hat z hz h0 rfl)
  · exact (lookup_exact_at hl hfit).mpr (fun z hm h0 hb => hb ▸ (hz z hm h0).ge) bs

/-- An empty article last in the list. -/
theorem lookup_exact_iff_last_empty :
    assembledEnd (buildSegmentRefs64 [⟨5, 1, "a"⟩, ⟨0, 2, "b"⟩] 0) = 5 ∧
      ∀ (bs : SegmentSearch) (byte : Nat), byte < 2 ^ 64 →
        LookupExact bs (buildSegmentRefs64 [⟨5, 1, "a"⟩, ⟨0, 2, "b"⟩] 0) byte :=
  ⟨by decide, (lookup_exact_iff (.refs [⟨5, 1, "a"⟩, ⟨0, 2, "b"⟩] 0 (by decide))).1.mpr (by decide)⟩

/-- An empty article between two others: a search may return it at the first byte of the next one,
which is then not found. -/
theorem lookup_misses_after_empty :
    ¬ ∀ (segs : List SegmentRef), BuiltSegments segs →
      ∀ (bs : SegmentSearch) (byte : Nat), byte < 2 ^ 64 → LookupExact bs segs byte := by
  intro hall
  let refs := buildSegmentRefs64 [⟨5, 1, "a"⟩, ⟨0, 2, "b"⟩, ⟨7, 3, "c"⟩] 0
  have hbuilt : BuiltSegments (rebuildForDecodedStride64 refs 5 none).1 :=
    .rebuilt (.refs _ 0 (by decide)) (by decide) none
  have hmiss : findSegmentForByte64 (.leftmost _) (rebuildForDecodedStride64 refs 5 none).1 5 =
      none := by decide
  obtain ⟨i, s, hf, -⟩ := (hall _ hbuilt (.leftmost _) 5 (by decide)).found (by decide)
  exact absurd (hmiss.symm.trans hf) (Option.some_ne_none i).symm

end StremioNzb.Streaming

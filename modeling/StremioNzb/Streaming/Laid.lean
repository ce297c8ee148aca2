import StremioNzb.Streaming.CheckedLayout
import StremioNzb.Streaming.Words

/-!
# What preflight builds

The segment lists and layouts that the builders of a release build return (`BuiltSegments`,
`FileLayout.Built`), whatever the sizes declared. In words every segment starts where the one before
it ends (`LaidFrom64`). Where the sums fit that is end to end in the assembled stream
(`FileLayout.Built.contiguous`); where they do not, a segment start wraps below the one before it,
or the end of the last segment does (`LaidFrom64.wraps`).
-/

namespace StremioNzb.Streaming

open StremioNzb.Lib

/-- The segment lists the builders return, of sizes and strides that are words. -/
inductive BuiltSegments : List SegmentRef → Prop where
  | refs (segments : List Segment) (serverIndex : Nat) (h : ∀ s ∈ segments, s.size < 2 ^ 64) :
      BuiltSegments (buildSegmentRefs64 segments serverIndex)
  | rebuilt {segments : List SegmentRef} (h : BuiltSegments segments) {actualStride : Nat}
      (hs : actualStride < 2 ^ 64) (totalFileSize : Option Nat) :
      BuiltSegments (rebuildForDecodedStride64 segments actualStride totalFileSize).1
  | rar (volumes : List RarVolumeGeom) (h : ∀ v ∈ volumes, v.decodedStride < 2 ^ 64 ∧
      ∀ fs, v.decodedFileSize = some fs → fs < 2 ^ 64) :
      BuiltSegments (buildRarLayout64 volumes).1

/-- What the headers of a volume hold are words. -/
structure RarVolumeGeom.InWords (v : RarVolumeGeom) : Prop where
  stride : v.decodedStride < 2 ^ 64
  fileSize : ∀ fs, v.decodedFileSize = some fs → fs < 2 ^ 64
  dataStart : v.dataStart < 2 ^ 64
  dataSize : v.dataSize < 2 ^ 64

/-- The layouts that preflight builds, of sizes, strides and header fields that are words. -/
inductive FileLayout.Built : FileLayout → Prop where
  | flat (segments : List Segment) (serverIndex stride : Nat) (fileSize : Option Nat)
      (h : ∀ s ∈ segments, s.size < 2 ^ 64) (hs : stride < 2 ^ 64)
      (hf : ∀ fs, fileSize = some fs → fs < 2 ^ 64) : Built (flatLayout
        (rebuildForDecodedStride64 (buildSegmentRefs64 segments serverIndex) stride fileSize).1
        (rebuildForDecodedStride64 (buildSegmentRefs64 segments serverIndex) stride fileSize).2)
  | rar (volumes : List RarVolumeGeom) (h : ∀ v ∈ volumes, v.InWords) :
      Built ⟨(buildRarLayout64 volumes).1, (buildRarLayout64 volumes).2.1⟩

/-! ## Laid in words -/

/-- Each segment starts where the one before it ends, counted in words, the first at `o`. -/
def LaidFrom64 : Nat → List SegmentRef → Prop
  | _, [] => True
  | o, s :: segs => s.offsetInStream = o ∧ s.bytes < 2 ^ 64 ∧ LaidFrom64 (add64 o s.bytes) segs

/-- A sum that wraps is less than either summand. -/
theorem add64_lt_left {a b : Nat} (ha : a < 2 ^ 64) (hb : b < 2 ^ 64) (h : 2 ^ 64 ≤ a + b) :
    add64 a b < a := by
  rw [add64, Nat.mod_eq_sub_mod h, Nat.mod_eq_of_lt (by omega)]
  omega

theorem assembledEnd_cons (s : SegmentRef) (segs : List SegmentRef) :
    assembledEnd (s :: segs) = s.bytes + assembledEnd segs := rfl

variable {segs : List SegmentRef} {o b : Nat}

/-- Where the sizes fit, the segments lie end to end. -/
theorem LaidFrom64.laidFrom : ∀ {segs : List SegmentRef} {o : Nat}, LaidFrom64 o segs →
    o + assembledEnd segs < 2 ^ 64 →
      LaidFrom SegmentRef.offsetInStream SegmentRef.bytes o segs
  | [], _, _, _ => laidFrom_nil
  | s :: segs, o, ⟨ho, _, h⟩, hlt => by
    rw [assembledEnd_cons] at hlt
    rw [add64_eq (by omega)] at h
    exact .cons ho (h.laidFrom (by omega))

/-- Where the sizes do not fit, a segment starts before its predecessor, or the segments lie end
to end and the last one ends past the greatest word. -/
theorem LaidFrom64.wraps : ∀ {segs : List SegmentRef} {o : Nat}, LaidFrom64 o segs → o < 2 ^ 64 →
    2 ^ 64 ≤ o + assembledEnd segs → ¬ SortedBy SegmentRef.offsetInStream segs ∨
      LaidFrom SegmentRef.offsetInStream SegmentRef.bytes o segs ∧
        ∃ s, segs.getLast? = some s ∧ s.offsetInStream < 2 ^ 64 ∧ s.offsetInStream < s.stop ∧
          add64 s.offsetInStream s.bytes < s.offsetInStream
  | [], o, _, ho, hge => absurd hge (not_le.mpr ho)
  | s :: segs, o, ⟨hs, hb, h⟩, ho, hge => by
    rw [assembledEnd_cons] at hge
    by_cases hlt : o + s.bytes < 2 ^ 64
    · rw [add64_eq hlt] at h
      rcases h.wraps hlt (by omega) with hn | ⟨hl, t, ht, hstop⟩
      · exact .inl fun hsort => hn hsort.of_cons
      · refine .inr ⟨.cons hs hl, t, ?_, hstop⟩
        rw [List.getLast?_cons, ht]
        rfl
    · have hwrap := add64_lt_left ho hb (not_lt.mp hlt)
      cases segs with
      | nil =>
        rw [← hs] at ho hlt hwrap
        exact .inr ⟨.cons hs laidFrom_nil, s, rfl, ho, by rw [SegmentRef.stop]; omega, hwrap⟩
      | cons t segs =>
        refine .inl fun hsort => ?_
        have hle := (List.pairwise_cons.mp hsort).1 t List.mem_cons_self
        have ht := h.1
        omega

/-- Where the sizes do not fit, the end of some segment wraps below its start. -/
theorem LaidFrom64.exists_wrapped : ∀ {segs : List SegmentRef} {o : Nat}, LaidFrom64 o segs →
    o < 2 ^ 64 → 2 ^ 64 ≤ o + assembledEnd segs → ∃ (k : Nat) (s : SegmentRef),
      segs[k]? = some s ∧ 0 < s.bytes ∧ add64 s.offsetInStream s.bytes < s.offsetInStream
  | [], _, _, ho, hge => absurd hge (not_le.mpr ho)
  | s :: segs, o, ⟨hs, hb, h⟩, ho, hge => by
    rw [assembledEnd_cons] at hge
    by_cases hlt : o + s.bytes < 2 ^ 64
    · rw [add64_eq hlt] at h
      obtain ⟨k, t, hk, hwrap⟩ := h.exists_wrapped hlt (by omega)
      exact ⟨k + 1, t, hk, hwrap⟩
    · exact ⟨0, s, rfl, by omega, hs ▸ add64_lt_left ho hb (not_lt.mp hlt)⟩

/-- The first segment that is not empty starts at `o`. -/
theorem LaidFrom64.exists_pos : ∀ {segs : List SegmentRef} {o : Nat}, LaidFrom64 o segs →
    o < 2 ^ 64 → 0 < assembledEnd segs →
      ∃ (j : Nat) (s : SegmentRef), segs[j]? = some s ∧ s.offsetInStream = o ∧ 0 < s.bytes ∧
        s.bytes < 2 ^ 64
  | [], _, _, _, hpos => absurd hpos (lt_irrefl 0)
  | s :: segs, o, ⟨hs, hb, h⟩, ho, hpos => by
    by_cases h0 : s.bytes = 0
    · rw [h0, add64_eq (by omega)] at h
      rw [assembledEnd_cons, h0] at hpos
      obtain ⟨j, t, ht, hrest⟩ := h.exists_pos (by omega) (by omega)
      exact ⟨j + 1, t, ht, hrest⟩
    · exact ⟨0, s, rfl, hs, Nat.pos_of_ne_zero h0, hb⟩

theorem laidFrom64_refs (srv : Nat) : ∀ {segs : List Segment} (o : Nat),
    (∀ s ∈ segs, s.size < 2 ^ 64) → LaidFrom64 o (buildSegmentRefs64.go srv segs o)
  | [], _, _ => trivial
  | seg :: _, _, h => ⟨rfl, h seg List.mem_cons_self,
      laidFrom64_refs srv _ fun s hs => h s (List.mem_cons_of_mem seg hs)⟩

theorem add64_mul64 (i stride : Nat) : add64 (mul64 i stride) stride = mul64 (i + 1) stride := by
  rw [add64, mul64, Nat.mod_add_mod, ← Nat.succ_mul]
  rfl

/-- Blocks at the multiples of a stride, all but the last as long as it. -/
theorem laidFrom64_stride {stride : Nat} (hs : stride < 2 ^ 64) : ∀ {segs : List SegmentRef}
    {i : Nat}, (∀ j s, segs[j]? = some s → s.offsetInStream = mul64 (i + j) stride ∧
      s.bytes ≤ stride ∧ (j + 1 < segs.length → s.bytes = stride)) →
        LaidFrom64 (mul64 i stride) segs
  | [], _, _ => trivial
  | [s], _, h => ⟨(h 0 s rfl).1, (h 0 s rfl).2.1.trans_lt hs, trivial⟩
  | s :: t :: segs, i, h => by
    have hfull := (h 0 s rfl).2.2 (by simp)
    refine ⟨(h 0 s rfl).1, hfull.trans_lt hs, ?_⟩
    rw [hfull, add64_mul64]
    refine laidFrom64_stride hs fun j u hu => ?_
    have hj := h (j + 1) u hu
    rw [Nat.add_right_comm, Nat.add_assoc i j 1]
    exact ⟨hj.1, hj.2.1, fun hlt => hj.2.2 (Nat.succ_lt_succ hlt)⟩

theorem LaidFrom64.rebuilt {segs : List SegmentRef} {stride : Nat} (h : LaidFrom64 0 segs)
    (hs : stride < 2 ^ 64) (fs : Option Nat) :
    LaidFrom64 0 (rebuildForDecodedStride64 segs stride fs).1 := by
  unfold rebuildForDecodedStride64
  cases segs with
  | nil => exact trivial
  | cons first rest =>
    simp only
    split_ifs
    · exact h
    · have h0 : mul64 0 stride = 0 := by rw [mul64, Nat.zero_mul, Nat.zero_mod]
      refine Eq.subst (motive := fun o => LaidFrom64 o _) h0 ?_
      refine laidFrom64_stride hs fun j s hj => ?_
      rw [List.getElem?_mapIdx, Option.map_eq_some_iff] at hj
      obtain ⟨t, -, rfl⟩ := hj
      rw [List.length_mapIdx, Nat.zero_add]
      refine ⟨rfl, ?_, fun hlt => if_pos (by omega)⟩
      simp only
      split_ifs
      · exact le_rfl
      · exact min_le_right _ _

theorem RarVolumeGeom.partBytes64_lt {v : RarVolumeGeom} (hs : v.decodedStride < 2 ^ 64)
    (hf : ∀ fs, v.decodedFileSize = some fs → fs < 2 ^ 64) (i : Nat) :
    v.partBytes64 i < 2 ^ 64 := by
  have htotal : v.volTotal64 < 2 ^ 64 := by
    unfold volTotal64
    simp only
    split
    · split_ifs
      · exact hf _ ‹_›
      · exact Nat.mod_lt _ (by decide)
    · exact Nat.mod_lt _ (by decide)
  simp only [partBytes64]
  split_ifs <;> omega

/-- The parts of a volume, with whatever follows where they end. -/
theorem laidFrom64_parts {v : RarVolumeGeom} (hb : ∀ i, v.partBytes64 i < 2 ^ 64) :
    ∀ (msgs : List String) (i o : Nat), LaidFrom64 (v.segmentsFrom64 msgs i o).2 segs →
      LaidFrom64 o ((v.segmentsFrom64 msgs i o).1 ++ segs)
  | [], _, _, h => h
  | _ :: msgs, i, _, h => ⟨rfl, hb i, laidFrom64_parts hb msgs (i + 1) _ h⟩

theorem laidFrom64_rar : ∀ {vs : List RarVolumeGeom} (o w : Nat),
    (∀ v ∈ vs, v.decodedStride < 2 ^ 64 ∧ ∀ fs, v.decodedFileSize = some fs → fs < 2 ^ 64) →
      LaidFrom64 o (buildRarLayout64.go vs o w).1
  | [], _, _, _ => trivial
  | v :: _, _, _, h => by
    obtain ⟨hs, hf⟩ := h v List.mem_cons_self
    exact laidFrom64_parts (RarVolumeGeom.partBytes64_lt hs hf) _ 0 _
      (laidFrom64_rar _ _ fun u hu => h u (List.mem_cons_of_mem v hu))

theorem BuiltSegments.laidFrom64 (h : BuiltSegments segs) : LaidFrom64 0 segs := by
  induction h with
  | refs segments srv h =>
    refine laidFrom64_refs srv 0 fun s hs => h s ?_
    exact (List.perm_insertionSort _ segments).mem_iff.mp hs
  | rebuilt _ hs fs ih => exact ih.rebuilt hs fs
  | rar volumes h => exact laidFrom64_rar 0 0 h

/-! ## Layouts whose sums fit -/

/-- Segments that end in words lie end to end. -/
theorem LaidFrom64.laidFrom_of_stop : ∀ {segs : List SegmentRef} {o : Nat}, LaidFrom64 o segs →
    (∀ s ∈ segs, s.stop < 2 ^ 64) → LaidFrom SegmentRef.offsetInStream SegmentRef.bytes o segs
  | [], _, _, _ => laidFrom_nil
  | s :: segs, o, ⟨ho, _, h⟩, hstop => by
    have hs := hstop s List.mem_cons_self
    rw [SegmentRef.stop, ho] at hs
    rw [add64_eq hs] at h
    exact .cons ho (h.laidFrom_of_stop fun t ht => hstop t (List.mem_cons_of_mem s ht))

/-- Chunks that end in words lie end to end. -/
theorem laidFrom_rarChunks : ∀ {vs : List RarVolumeGeom} {a w : Nat},
    (∀ c ∈ (buildRarLayout64.go vs a w).2.1, c.videoStart + c.length < 2 ^ 64) →
      LaidFrom DataChunk.videoStart DataChunk.length w (buildRarLayout64.go vs a w).2.1
  | [], _, _, _ => laidFrom_nil
  | v :: vs, a, w, h => by
    rw [buildRarLayout64.go] at h ⊢
    have hv : w + v.dataSize < 2 ^ 64 := h _ List.mem_cons_self
    rw [add64_eq hv] at h ⊢
    exact .cons rfl (laidFrom_rarChunks fun c hc => h c (List.mem_cons_of_mem _ hc))

namespace FileLayout.Built

variable {l : FileLayout}

theorem segments (h : l.Built) : BuiltSegments l.segments := by
  cases h with
  | flat segs srv stride fs h hs => exact .rebuilt (.refs segs srv h) hs fs
  | rar vs h => exact .rar vs fun v hv => ⟨(h v hv).stride, (h v hv).fileSize⟩

/-- **The segments of a layout whose sums fit lie end to end in the assembled stream.** -/
theorem contiguous (h : l.Built) (hw : l.InWords) : Contiguous l.segments :=
  contiguous_iff.mpr (h.segments.laidFrom64.laidFrom_of_stop hw.segments)

/-- **The chunks of a layout whose sums fit lie end to end in the video.** -/
theorem chunksContiguous (h : l.Built) (hw : l.InWords) : ChunksContiguous l.chunks := by
  cases h with
  | flat => exact chunksContiguous_flatLayout
  | rar vs => exact chunksContiguous_iff.mpr (laidFrom_rarChunks hw.chunks)

end FileLayout.Built

end StremioNzb.Streaming

import Mathlib.Data.List.Sort
import StremioNzb.Streaming.Session

/-!
# Building layouts

The builders of `preflight.rs`. `buildSegmentRefs` and `rebuildForDecodedStride` lay out the
segments of a single video file, `buildRarLayout` those of a set of RAR volumes, each with the
chunk of video it carries. Whatever the sizes declared, the segments lie end to end in the assembled
stream and the chunks in the video.

Sums are exact here. The code adds modulo `2^64`: `Words` has the builders as a release build runs
them, and says where they are these.
-/

namespace StremioNzb.Streaming

open StremioNzb.Lib

/-- A segment as the NZB declares it. -/
structure Segment where
  size : Nat
  number : Nat
  messageId : String
  deriving DecidableEq, Repr

/-- `sort_by_key(|s| s.number)`, a stable sort. -/
def sortByNumber (segments : List Segment) : List Segment :=
  segments.insertionSort fun s t => s.number ≤ t.number

/-! ## Flat files -/

/-- The segments by number, each after the one before it. -/
def buildSegmentRefs (segments : List Segment) (serverIndex : Nat) : List SegmentRef :=
  go (sortByNumber segments) 0
where
  go : List Segment → Nat → List SegmentRef
    | [], _ => []
    | seg :: rest, offset =>
      ⟨serverIndex, seg.messageId, seg.size, offset⟩ :: go rest (offset + seg.size)

/-- The video size of `n` segments: the `=ybegin size=` where it is plausible. -/
def computedTotal (n actualStride : Nat) (totalFileSize : Option Nat) : Nat :=
  match totalFileSize with
  | some t => if t > 0 ∧ t ≥ (n - 1) * actualStride then t else n * actualStride
  | none => n * actualStride

/-- Respace the segments by the decoded size of the first one, unless that is what the NZB
declares. The second component is the video size. -/
def rebuildForDecodedStride (segments : List SegmentRef) (actualStride : Nat)
    (totalFileSize : Option Nat) : List SegmentRef × Nat :=
  match segments with
  | [] => ([], 0)
  | first :: _ =>
    if first.bytes = actualStride then (segments, (segments.map (·.bytes)).sum)
    else
      let n := segments.length
      let total := computedTotal n actualStride totalFileSize
      (segments.mapIdx fun i seg =>
        { seg with
          offsetInStream := i * actualStride
          bytes := if i < n - 1 then actualStride
            else min (total - i * actualStride) actualStride }, total)

/-- The layout of a single file: one chunk, the identity. -/
def flatLayout (segments : List SegmentRef) (totalSize : Nat) : FileLayout :=
  ⟨segments, [⟨0, totalSize, 0⟩]⟩

/-! ## RAR volumes -/

/-- Decoded geometry of a volume. -/
structure RarVolumeGeom where
  messageIds : List String
  /-- Decoded size of the first part. -/
  decodedStride : Nat
  /-- The `=ybegin size=` of the volume. -/
  decodedFileSize : Option Nat
  dataStart : Nat
  dataSize : Nat
  deriving DecidableEq, Repr

namespace RarVolumeGeom

/-- Decoded size of the volume. -/
def volTotal (v : RarVolumeGeom) : Nat :=
  let n := v.messageIds.length
  match v.decodedFileSize with
  | some fs =>
    if fs > 0 ∧ fs ≥ (n - 1) * v.decodedStride then fs else n * v.decodedStride
  | none => n * v.decodedStride

def partBytes (v : RarVolumeGeom) (i : Nat) : Nat :=
  let n := v.messageIds.length
  if i + 1 < n then v.decodedStride else v.volTotal - (n - 1) * v.decodedStride

/-- The parts from part `i` on, laid from `assembled`, and where they end. -/
def segmentsFrom (v : RarVolumeGeom) : List String → Nat → Nat → List SegmentRef × Nat
  | [], _, assembled => ([], assembled)
  | msg :: msgs, i, assembled =>
    let bytes := v.partBytes i
    let (rest, stop) := v.segmentsFrom msgs (i + 1) (assembled + bytes)
    (⟨0, msg, bytes, assembled⟩ :: rest, stop)

end RarVolumeGeom

/-- Segments, chunks and video size of the volumes in order. -/
def buildRarLayout (volumes : List RarVolumeGeom) : List SegmentRef × List DataChunk × Nat :=
  go volumes 0 0
where
  go : List RarVolumeGeom → Nat → Nat → List SegmentRef × List DataChunk × Nat
    | [], _, video => ([], [], video)
    | v :: vs, assembled, video =>
      let (segs, stop) := v.segmentsFrom v.messageIds 0 assembled
      let (segments, chunks, total) := go vs stop (video + v.dataSize)
      (segs ++ segments, ⟨video, v.dataSize, assembled + v.dataStart⟩ :: chunks, total)

def rarLayout (volumes : List RarVolumeGeom) : FileLayout :=
  ⟨(buildRarLayout volumes).1, (buildRarLayout volumes).2.1⟩

/-! ## The segments lie end to end -/

theorem contiguous_iff {segs : List SegmentRef} :
    Contiguous segs ↔ LaidFrom SegmentRef.offsetInStream SegmentRef.bytes 0 segs := by
  unfold Contiguous LaidFrom
  simp only [Nat.zero_add]

theorem chunksContiguous_iff {chunks : List DataChunk} :
    ChunksContiguous chunks ↔ LaidFrom DataChunk.videoStart DataChunk.length 0 chunks := by
  unfold ChunksContiguous LaidFrom
  simp only [Nat.zero_add]

theorem laidFrom_buildSegmentRefs_go (srv : Nat) : ∀ (segs : List Segment) (o : Nat),
    LaidFrom SegmentRef.offsetInStream SegmentRef.bytes o (buildSegmentRefs.go srv segs o)
  | [], _ => laidFrom_nil
  | seg :: segs, o => .cons rfl (laidFrom_buildSegmentRefs_go srv segs (o + seg.size))

theorem contiguous_buildSegmentRefs (segs : List Segment) (srv : Nat) :
    Contiguous (buildSegmentRefs segs srv) :=
  contiguous_iff.mpr (laidFrom_buildSegmentRefs_go srv _ 0)

theorem chunksContiguous_flatLayout {segs : List SegmentRef} {total : Nat} :
    ChunksContiguous (flatLayout segs total).chunks :=
  chunksContiguous_iff.mpr (.cons rfl laidFrom_nil)

/-- A segment of the rebuilt list. -/
def restride (n stride : Nat) (fs : Option Nat) (i : Nat) (seg : SegmentRef) : SegmentRef :=
  { seg with
    offsetInStream := i * stride
    bytes := if i < n - 1 then stride else min (computedTotal n stride fs - i * stride) stride }

variable {segs : List SegmentRef} {stride : Nat} {fs : Option Nat} {first : SegmentRef}

theorem rebuild_of_eq (h0 : segs[0]? = some first) (he : first.bytes = stride) :
    rebuildForDecodedStride segs stride fs = (segs, assembledEnd segs) := by
  cases segs with
  | nil => cases h0
  | cons s segs =>
    cases h0
    exact if_pos he

theorem rebuild_of_ne (h0 : segs[0]? = some first) (hne : first.bytes ≠ stride) :
    rebuildForDecodedStride segs stride fs =
      (segs.mapIdx (restride segs.length stride fs), computedTotal segs.length stride fs) := by
  cases segs with
  | nil => cases h0
  | cons s segs =>
    cases h0
    exact if_neg hne

/-- Blocks of one stride but for the last start at its multiples. -/
theorem blockStart_uniform (stride : Nat)
    (h : ∀ i s, segs[i]? = some s → i + 1 < segs.length → s.bytes = stride) {i : Nat}
    (hi : i < segs.length) : blockStart SegmentRef.bytes segs i = i * stride := by
  rw [blockStart, blockTotal_uniform, List.length_take_of_le hi.le]
  intro s hs
  obtain ⟨j, hj⟩ := List.mem_iff_getElem?.mp hs
  have hlt : j < i := by
    have := (List.getElem?_eq_some_iff.mp hj).1
    rw [List.length_take] at this
    omega
  rw [List.getElem?_take_of_lt hlt] at hj
  exact h j s hj (by omega)

theorem contiguous_rebuild (h : Contiguous segs) :
    Contiguous (rebuildForDecodedStride segs stride fs).1 := by
  cases h0 : segs[0]? with
  | none =>
    obtain rfl : segs = [] := by simpa using h0
    exact h
  | some first =>
    by_cases he : first.bytes = stride
    · rwa [rebuild_of_eq h0 he]
    · rw [rebuild_of_ne h0 he]
      intro i s hi
      have hlt : i < segs.length := by simpa using (List.getElem?_eq_some_iff.mp hi).1
      rw [blockStart_uniform stride _ (by simpa using hlt)]
      · rw [List.getElem?_mapIdx, Option.map_eq_some_iff] at hi
        obtain ⟨t, -, rfl⟩ := hi
        rfl
      · intro j t hj hj'
        rw [List.getElem?_mapIdx, Option.map_eq_some_iff] at hj
        obtain ⟨t, -, rfl⟩ := hj
        rw [List.length_mapIdx] at hj'
        exact if_pos (by omega)

/-! ## RAR volumes lie end to end -/

namespace RarVolumeGeom
variable (v : RarVolumeGeom)

/-- Sizes of the parts. -/
def partSizes : List Nat := v.messageIds.mapIdx fun i _ => v.partBytes i

/-- Size of the volume in the assembled stream. -/
def size : Nat := v.partSizes.sum

theorem segmentsFrom_laid : ∀ (msgs : List String) (i a : Nat),
    LaidFrom SegmentRef.offsetInStream SegmentRef.bytes a (v.segmentsFrom msgs i a).1
  | [], _, _ => laidFrom_nil
  | _ :: msgs, i, a => .cons rfl (segmentsFrom_laid msgs (i + 1) (a + v.partBytes i))

theorem segmentsFrom_messageId : ∀ (msgs : List String) (i a : Nat),
    (v.segmentsFrom msgs i a).1.map (·.messageId) = msgs
  | [], _, _ => rfl
  | msg :: msgs, i, _ => congrArg (msg :: ·) (segmentsFrom_messageId msgs (i + 1) _)

theorem segmentsFrom_bytes : ∀ (msgs : List String) (i a : Nat),
    (v.segmentsFrom msgs i a).1.map (·.bytes) = msgs.mapIdx fun j _ => v.partBytes (i + j)
  | [], _, _ => rfl
  | _ :: msgs, i, _ => by
    rw [List.mapIdx_cons]
    refine congrArg (v.partBytes i :: ·) ((segmentsFrom_bytes msgs (i + 1) _).trans ?_)
    simp only [Nat.add_assoc, Nat.add_comm 1]

theorem segmentsFrom_stop : ∀ (msgs : List String) (i a : Nat),
    (v.segmentsFrom msgs i a).2 = a + blockTotal SegmentRef.bytes (v.segmentsFrom msgs i a).1
  | [], _, _ => rfl
  | _ :: msgs, i, a => by
    show (v.segmentsFrom msgs (i + 1) (a + v.partBytes i)).2 = _
    rw [segmentsFrom_stop msgs (i + 1) (a + v.partBytes i), Nat.add_assoc]
    rfl

/-- The parts of the volume, laid from `a`. -/
abbrev parts (a : Nat) : List SegmentRef := (v.segmentsFrom v.messageIds 0 a).1

theorem parts_total (a : Nat) : blockTotal SegmentRef.bytes (v.parts a) = v.size := by
  rw [blockTotal, segmentsFrom_bytes]
  simp only [Nat.zero_add, size, partSizes]

end RarVolumeGeom

section
variable (vs : List RarVolumeGeom) (a w : Nat)

theorem buildRarLayout_go_cons (v : RarVolumeGeom) :
    buildRarLayout.go (v :: vs) a w =
      (v.parts a ++ (buildRarLayout.go vs (a + v.size) (w + v.dataSize)).1,
        ⟨w, v.dataSize, a + v.dataStart⟩ ::
          (buildRarLayout.go vs (a + v.size) (w + v.dataSize)).2.1,
        (buildRarLayout.go vs (a + v.size) (w + v.dataSize)).2.2) := by
  have h : (v.segmentsFrom v.messageIds 0 a).2 = a + v.size := by
    rw [v.segmentsFrom_stop, v.parts_total]
  rw [← h]
  rfl

theorem buildRarLayout_go_segments :
    LaidFrom SegmentRef.offsetInStream SegmentRef.bytes a (buildRarLayout.go vs a w).1 := by
  induction vs generalizing a w with
  | nil => exact laidFrom_nil
  | cons v vs ih =>
    rw [buildRarLayout_go_cons]
    apply (v.segmentsFrom_laid _ 0 a).append
    rw [v.parts_total]
    exact ih _ _

theorem buildRarLayout_go_messageId :
    (buildRarLayout.go vs a w).1.map (·.messageId) = vs.flatMap (·.messageIds) := by
  induction vs generalizing a w with
  | nil => rfl
  | cons v vs ih =>
    rw [buildRarLayout_go_cons, List.map_append, v.segmentsFrom_messageId, ih, List.flatMap_cons]

theorem buildRarLayout_go_bytes :
    (buildRarLayout.go vs a w).1.map (·.bytes) = vs.flatMap (·.partSizes) := by
  induction vs generalizing a w with
  | nil => rfl
  | cons v vs ih =>
    rw [buildRarLayout_go_cons, List.map_append, v.segmentsFrom_bytes, ih, List.flatMap_cons]
    simp only [Nat.zero_add, RarVolumeGeom.partSizes]

/-- The chunk of each volume. -/
theorem buildRarLayout_go_chunk (k : Nat) :
    (buildRarLayout.go vs a w).2.1[k]? = vs[k]?.map fun v =>
      ⟨w + blockStart RarVolumeGeom.dataSize vs k, v.dataSize,
        a + blockStart RarVolumeGeom.size vs k + v.dataStart⟩ := by
  induction vs generalizing a w k with
  | nil => simp [buildRarLayout.go]
  | cons v vs ih =>
    rw [buildRarLayout_go_cons]
    cases k with
    | zero => simp
    | succ k => simp [ih, Nat.add_assoc]

theorem buildRarLayout_go_total :
    (buildRarLayout.go vs a w).2.2 = w + blockTotal RarVolumeGeom.dataSize vs := by
  induction vs generalizing a w with
  | nil => rfl
  | cons v vs ih => rw [buildRarLayout_go_cons, ih, blockTotal_cons, Nat.add_assoc]

end

variable {vs : List RarVolumeGeom} {v : RarVolumeGeom} {k : Nat}

theorem contiguous_rarLayout : Contiguous (rarLayout vs).segments :=
  contiguous_iff.mpr (buildRarLayout_go_segments vs 0 0)

/-- **The chunk of volume `k`** starts after the data of the volumes before it in the video, and
after these volumes and its own header in the assembled stream. -/
theorem rarLayout_chunk (hv : vs[k]? = some v) :
    (rarLayout vs).chunks[k]? = some ⟨blockStart RarVolumeGeom.dataSize vs k, v.dataSize,
      blockStart RarVolumeGeom.size vs k + v.dataStart⟩ := by
  refine (buildRarLayout_go_chunk vs 0 0 k).trans ?_
  rw [hv]
  simp

theorem rarLayout_chunk_inv {c : DataChunk} (hc : (rarLayout vs).chunks[k]? = some c) :
    ∃ v, vs[k]? = some v ∧ c = ⟨blockStart RarVolumeGeom.dataSize vs k, v.dataSize,
      blockStart RarVolumeGeom.size vs k + v.dataStart⟩ := by
  have h := (buildRarLayout_go_chunk vs 0 0 k).symm.trans hc
  obtain ⟨v, hv, rfl⟩ := Option.map_eq_some_iff.mp h
  exact ⟨v, hv, by simp⟩

theorem rarLayout_lengths : (rarLayout vs).chunks.map (·.length) = vs.map (·.dataSize) := by
  refine List.ext_getElem? fun k => ?_
  rw [List.getElem?_map, List.getElem?_map]
  refine (congrArg _ (buildRarLayout_go_chunk vs 0 0 k)).trans ?_
  cases vs[k]? <;> rfl

theorem blockStart_rarLayout :
    blockStart DataChunk.length (rarLayout vs).chunks k =
      blockStart RarVolumeGeom.dataSize vs k := by
  rw [blockStart, blockTotal, List.map_take, rarLayout_lengths, ← List.map_take]
  rfl

theorem chunksContiguous_rarLayout : ChunksContiguous (rarLayout vs).chunks := by
  intro k c hc
  obtain ⟨v, -, rfl⟩ := rarLayout_chunk_inv hc
  exact blockStart_rarLayout.symm

theorem buildRarLayout_total : (buildRarLayout vs).2.2 = blockTotal RarVolumeGeom.dataSize vs :=
  (buildRarLayout_go_total vs 0 0).trans (Nat.zero_add _)

theorem videoEnd_rarLayout :
    videoEnd (rarLayout vs).chunks = blockTotal RarVolumeGeom.dataSize vs := by
  rw [videoEnd, blockTotal, rarLayout_lengths, blockTotal]

theorem assembledEnd_rarLayout :
    assembledEnd (rarLayout vs).segments = blockTotal RarVolumeGeom.size vs := by
  have h : (rarLayout vs).segments.map (·.bytes) = _ := buildRarLayout_go_bytes vs 0 0
  rw [assembledEnd, blockTotal, h, List.flatMap_def, List.sum_flatten, List.map_map]
  rfl

end StremioNzb.Streaming

import StremioNzb.Streaming.Playable
import StremioNzb.Streaming.Preflight

/-!
# What preflight commits

The size of a committed stream, its chunks and its segments come from different parts of the
post. `Post.Reconciled` says when they agree, and then (`FileLayout.Mappable`) every video byte
below the size has its chunk and its segment.
-/

namespace StremioNzb.Streaming

open StremioNzb.Lib

/-- Every video byte below `total` is mapped, and its segment found by every search that the
contract of `binary_search_by` allows: of several segments that start at one byte it may return
any. -/
def FileLayout.Mappable (l : FileLayout) (total : Nat) : Prop :=
  ∀ (search : SegmentSearch), ∀ v < total, ∃ a i, l.videoToAssembled v = some a ∧
    0 < l.chunkRemaining v ∧ findSegmentForByte search l.segments a = some i

/-- Bytes of a chunk below `total`. -/
def DataChunk.within (c : DataChunk) (total : Nat) : Nat := min c.length (total - c.videoStart)

/-- The chunks cover the video, the image of each lies in the assembled stream, and no empty
segment starts in it. -/
structure FileLayout.Covering (l : FileLayout) (total : Nat) : Prop where
  chunks : total ≤ videoEnd l.chunks
  image : ∀ c ∈ l.chunks, 0 < c.within total →
    c.assembledStart + c.within total ≤ assembledEnd l.segments
  filled : ∀ c ∈ l.chunks, ∀ z ∈ l.segments, z.bytes = 0 → c.assembledStart ≤ z.offsetInStream →
    c.assembledStart + c.within total ≤ z.offsetInStream

variable {l : FileLayout} {total : Nat} {c : DataChunk}

/-- A byte of a chunk maps into its image. -/
theorem FileLayout.map_chunk (h : ChunksContiguous l.chunks) (hc : c ∈ l.chunks) {o : Nat}
    (ho : o < c.length) : l.videoToAssembled (c.videoStart + o) = some (c.assembledStart + o) := by
  obtain ⟨k, hk⟩ := List.mem_iff_getElem?.mp hc
  rw [videoToAssembled, FileLayout.find_chunk h hk (by omega) (by omega), Option.map_some,
    Nat.add_sub_cancel_left]

theorem FileLayout.Mappable.covering (hs : Contiguous l.segments) (hc : ChunksContiguous l.chunks)
    (h : l.Mappable total) : l.Covering total := by
  have hmap : ∀ c ∈ l.chunks, ∀ o < c.within total, ∀ search : SegmentSearch,
      ∃ i, findSegmentForByte search l.segments (c.assembledStart + o) = some i := by
    intro c hmem o ho search
    unfold DataChunk.within at ho
    obtain ⟨a, i, ha, -, hi⟩ := h search (c.videoStart + o) (by omega)
    rw [FileLayout.map_chunk hc hmem (by omega)] at ha
    cases ha
    exact ⟨i, hi⟩
  refine ⟨?_, fun c hmem hpos => ?_, fun c hmem z hz h0 hle => ?_⟩
  · apply le_of_not_gt
    intro hlt
    obtain ⟨a, i, ha, -⟩ := h (.leftmost _) (videoEnd l.chunks) hlt
    rw [FileLayout.videoToAssembled_eq_none hc le_rfl] at ha
    cases ha
  · obtain ⟨i, hi⟩ := hmap c hmem (c.within total - 1) (by omega) (.leftmost _)
    apply le_of_not_gt
    intro hlt
    rw [findSegmentForByte_eq_none hs (by omega)] at hi
    cases hi
  · apply le_of_not_gt
    intro hlt
    obtain ⟨i, hi⟩ := hmap c hmem (z.offsetInStream - c.assembledStart) (by omega) (.leftmost _)
    rw [Nat.add_sub_cancel' hle, findSegmentForByte_leftmost_empty hs hz h0 rfl] at hi
    cases hi

theorem FileLayout.Covering.mappable (hs : Contiguous l.segments)
    (hc : ChunksContiguous l.chunks) (h : l.Covering total) : l.Mappable total := by
  intro search v hv
  obtain ⟨k, c, hk, h1, h2, ha, hr⟩ := FileLayout.chunk_at hc (hv.trans_le h.chunks)
  have hmem := List.mem_of_getElem? hk
  have hlt : v - c.videoStart < c.within total := by
    unfold DataChunk.within
    omega
  have himage := h.image c hmem (by omega)
  have hend : c.assembledStart + (v - c.videoStart) < assembledEnd l.segments :=
    lt_of_lt_of_le (Nat.add_lt_add_left hlt _) himage
  obtain ⟨i, seg, hi, h3, h4⟩ := exists_block hend
  rw [← hs i seg hi] at h3 h4
  refine ⟨_, i, ha, by omega, findSegmentForByte_eq_some hs hi h3 h4 fun z hz hzb => ?_⟩
  apply Nat.pos_of_ne_zero
  intro h0
  have := h.filled c hmem z hz h0 (by omega)
  omega

/-- **A well laid layout maps the video exactly where it covers it.** -/
theorem FileLayout.mappable_iff (hs : Contiguous l.segments) (hc : ChunksContiguous l.chunks) :
    l.Mappable total ↔ l.Covering total :=
  ⟨fun h => h.covering hs hc, fun h => h.mappable hs hc⟩

/-! ## Flat files -/

/-- The last decoded part does not end before the declared size; where the decoded size of the
first part is the declared one, the declared sizes are taken, and an empty part must not come
before another. -/
def FlatReconciled (segments : List Segment) (stride : Nat) (fileSize : Option Nat) : Prop :=
  match sortByNumber segments with
  | [] => True
  | first :: rest =>
    if first.size = stride then
      (first :: rest).Pairwise fun s t => s.size = 0 → t.size = 0
    else ∀ t, fileSize = some t → t ≤ (first :: rest).length * stride

section Flat
variable {segs : List SegmentRef} {stride : Nat} {fs : Option Nat} {first : SegmentRef}

theorem flatLayout_covering :
    (flatLayout segs total).Covering total ↔
      total ≤ assembledEnd segs ∧ ∀ z ∈ segs, z.bytes = 0 → total ≤ z.offsetInStream := by
  have hwithin : DataChunk.within ⟨0, total, 0⟩ total = total := by
    simp [DataChunk.within]
  constructor
  · intro h
    refine ⟨?_, fun z hz h0 => ?_⟩
    · by_cases ht : total = 0
      · omega
      · have := h.image ⟨0, total, 0⟩ List.mem_cons_self (by omega)
        rw [hwithin, Nat.zero_add] at this
        exact this
    · have := h.filled ⟨0, total, 0⟩ List.mem_cons_self z hz h0 (Nat.zero_le _)
      rwa [hwithin, Nat.zero_add] at this
  · rintro ⟨h1, h2⟩
    refine ⟨?_, fun c hc _ => ?_, fun c hc z hz h0 _ => ?_⟩
    · simp [flatLayout, videoEnd]
    · obtain rfl : c = ⟨0, total, 0⟩ := by simpa [flatLayout] using hc
      rw [hwithin, Nat.zero_add]
      exact h1
    · obtain rfl : c = ⟨0, total, 0⟩ := by simpa [flatLayout] using hc
      rw [hwithin, Nat.zero_add]
      exact h2 z hz h0

/-- Nothing comes after an empty segment that starts at the end. -/
theorem empty_at_end_iff (hs : Contiguous segs) :
    (∀ z ∈ segs, z.bytes = 0 → assembledEnd segs ≤ z.offsetInStream) ↔
      segs.Pairwise fun s t => s.bytes = 0 → t.bytes = 0 := by
  rw [List.pairwise_iff_getElem]
  constructor
  · intro h i j hi hj hij h0
    have hend := h _ (List.getElem_mem hi) h0
    rw [hs i _ (List.getElem?_eq_getElem hi)] at hend
    have h1 : blockStart SegmentRef.bytes segs i ≤ blockStart SegmentRef.bytes segs j :=
      blockStart_mono hij.le
    have h2 : blockStart SegmentRef.bytes segs j + segs[j].bytes ≤ assembledEnd segs :=
      blockStart_add_le_total (List.getElem?_eq_getElem hj)
    omega
  · intro h z hz h0
    obtain ⟨i, hi⟩ := List.mem_iff_getElem?.mp hz
    obtain ⟨hlt, rfl⟩ := List.getElem?_eq_some_iff.mp hi
    rw [hs i _ hi]
    have hsplit : assembledEnd segs = blockStart SegmentRef.bytes segs i +
        blockTotal SegmentRef.bytes (segs.drop i) := by
      rw [blockStart, ← blockTotal_append, List.take_append_drop]
    have hzero : blockTotal SegmentRef.bytes (segs.drop i) = (segs.drop i).length * 0 := by
      refine blockTotal_uniform fun s hs => ?_
      obtain ⟨j, hj⟩ := List.mem_iff_getElem?.mp hs
      rw [List.getElem?_drop] at hj
      obtain ⟨hlt', rfl⟩ := List.getElem?_eq_some_iff.mp hj
      cases j with
      | zero => exact h0
      | succ j => exact h i (i + (j + 1)) hlt hlt' (by omega) h0
    omega

theorem computedTotal_ge (n stride : Nat) (fs : Option Nat) :
    (n - 1) * stride ≤ computedTotal n stride fs := by
  have hle : (n - 1) * stride ≤ n * stride := Nat.mul_le_mul_right stride (Nat.sub_le n 1)
  unfold computedTotal
  split
  · split
    · omega
    · exact hle
  · exact hle

/-- The total is that of full strides, or less, unless the header declares more. -/
theorem computedTotal_le_iff (n stride : Nat) (fs : Option Nat) :
    computedTotal n stride fs ≤ n * stride ↔ ∀ t, fs = some t → t ≤ n * stride := by
  have hle : (n - 1) * stride ≤ n * stride := Nat.mul_le_mul_right stride (Nat.sub_le n 1)
  unfold computedTotal
  cases fs with
  | none => simp
  | some t =>
    simp only [Option.some.injEq, forall_eq']
    split <;> omega

section
variable {m : Nat}

/-- The last segment of a rebuilt list. -/
theorem restride_last (stride : Nat) (fs : Option Nat) (hn : segs.length = m + 1) :
    ∃ s, (segs.mapIdx (restride segs.length stride fs))[m]? =
      some (restride segs.length stride fs m s) := by
  refine ⟨segs.get ⟨m, by omega⟩, ?_⟩
  rw [List.getElem?_mapIdx, List.getElem?_eq_getElem (by omega)]
  rfl

theorem restride_bytes_of_lt {i : Nat} {s : SegmentRef}
    (hi : (segs.mapIdx (restride segs.length stride fs))[i]? = some s)
    (hlt : i + 1 < segs.length) : s.bytes = stride := by
  rw [List.getElem?_mapIdx, Option.map_eq_some_iff] at hi
  obtain ⟨t, -, rfl⟩ := hi
  exact if_pos (by omega)

/-- The segments of a rebuilt list end at the total, or after full strides. -/
theorem assembledEnd_restride (hn : segs.length = m + 1) :
    assembledEnd (segs.mapIdx (restride segs.length stride fs)) =
      min (computedTotal segs.length stride fs) (segs.length * stride) := by
  obtain ⟨s, hlast⟩ := restride_last stride fs hn
  have hstart : blockStart SegmentRef.bytes (segs.mapIdx (restride segs.length stride fs)) m =
      m * stride := by
    refine blockStart_uniform stride (fun i s hi hlt => ?_) (by simp [hn])
    exact restride_bytes_of_lt hi (by simpa using hlt)
  have hge := computedTotal_ge segs.length stride fs
  rw [assembledEnd, ← blockStart_of_length_le (i := m + 1) (by simp [hn]), blockStart_succ hlast,
    hstart]
  simp only [restride]
  rw [if_neg (by omega), hn, Nat.succ_mul]
  rw [hn, Nat.add_sub_cancel] at hge
  omega

/-- An empty segment of a rebuilt list starts at the total, if there is one before the end. -/
theorem restride_empty {z : SegmentRef} (hn : segs.length = m + 1)
    (hle : computedTotal segs.length stride fs ≤ segs.length * stride)
    (hz : z ∈ segs.mapIdx (restride segs.length stride fs)) (h0 : z.bytes = 0) :
    computedTotal segs.length stride fs ≤ z.offsetInStream := by
  obtain ⟨i, hi⟩ := List.mem_iff_getElem?.mp hz
  have hlt : i < segs.length := by simpa using (List.getElem?_eq_some_iff.mp hi).1
  by_cases hlast : i + 1 < segs.length
  · -- then the stride is zero, and so is the total
    obtain rfl : stride = 0 := (restride_bytes_of_lt hi hlast).symm.trans h0
    rw [Nat.mul_zero] at hle
    omega
  · rw [List.getElem?_mapIdx, Option.map_eq_some_iff] at hi
    obtain ⟨t, -, rfl⟩ := hi
    simp only [restride] at h0 ⊢
    rw [if_neg (by omega)] at h0
    rcases Nat.eq_zero_or_pos stride with rfl | hpos
    · rw [Nat.mul_zero] at hle
      omega
    · omega

end

/-- **A flat file is covered where its sizes agree.** -/
theorem flat_covering_iff (segments : List Segment) (stride : Nat) (fs : Option Nat) :
    (flatLayout (rebuildForDecodedStride (buildSegmentRefs segments 0) stride fs).1
      (rebuildForDecodedStride (buildSegmentRefs segments 0) stride fs).2).Covering
        (rebuildForDecodedStride (buildSegmentRefs segments 0) stride fs).2 ↔
      FlatReconciled segments stride fs := by
  have hbytes := bytes_buildSegmentRefs segments 0
  have hlaid := contiguous_buildSegmentRefs segments 0
  unfold FlatReconciled
  rw [flatLayout_covering]
  cases hsort : sortByNumber segments with
  | nil =>
    have hnil : buildSegmentRefs segments 0 = [] := by simpa [hsort] using hbytes
    simp [hnil, rebuildForDecodedStride]
  | cons first rest =>
    rw [hsort] at hbytes
    have h0 : (buildSegmentRefs segments 0)[0]? = some ⟨0, first.messageId, first.size, 0⟩ := by
      rw [buildSegmentRefs, hsort]
      rfl
    have hlen : (buildSegmentRefs segments 0).length = rest.length + 1 := by
      simpa using congrArg List.length hbytes
    by_cases he : first.size = stride
    · have hpair : (buildSegmentRefs segments 0).Pairwise (fun s t => s.bytes = 0 → t.bytes = 0) ↔
          (first :: rest).Pairwise fun s t => s.size = 0 → t.size = 0 := by
        have h := congrArg (List.Pairwise fun s t : Nat => s = 0 → t = 0) hbytes
        rwa [List.pairwise_map, List.pairwise_map, eq_iff_iff] at h
      rw [rebuild_of_eq h0 he]
      simp only [if_pos he, le_refl, true_and]
      rw [empty_at_end_iff hlaid, hpair]
    · rw [rebuild_of_ne h0 he]
      simp only [if_neg he]
      rw [assembledEnd_restride hlen, List.length_cons, ← hlen, ← computedTotal_le_iff]
      constructor
      · rintro ⟨hle, -⟩
        omega
      · exact fun hle => ⟨by omega, fun z hz h0 => restride_empty hlen hle hz h0⟩

end Flat

/-! ## RAR volumes -/

namespace RarVolumeGeom
variable (v : RarVolumeGeom)

/-- What preflight reads of a volume: it has parts, and the first one is not empty. -/
structure Read : Prop where
  parts : v.messageIds ≠ []
  stride : 0 < v.decodedStride

/-- The volume ends after full strides, one part early. -/
def LastEmpty : Prop := v.volTotal = (v.messageIds.length - 1) * v.decodedStride

instance : Decidable v.LastEmpty := inferInstanceAs (Decidable (_ = _))

theorem volTotal_eq :
    v.volTotal = computedTotal v.messageIds.length v.decodedStride v.decodedFileSize := by
  unfold volTotal computedTotal
  cases v.decodedFileSize <;> rfl

variable {v}

theorem Read.length_eq (h : v.Read) : ∃ m, v.messageIds.length = m + 1 :=
  ⟨v.messageIds.length - 1, by have := List.length_pos_of_ne_nil h.parts; omega⟩

/-- A volume is as long as its header and its parts say. -/
theorem Read.size_eq (h : v.Read) : v.size = v.volTotal := by
  obtain ⟨m, hm⟩ := h.length_eq
  have hparts : v.partSizes = (List.range (m + 1)).map v.partBytes := by
    refine List.ext_getElem (by simp [partSizes, hm]) fun i h1 h2 => ?_
    simp [partSizes]
  have hfull : ((List.range m).map v.partBytes).sum = m * v.decodedStride := by
    have huniform : blockTotal v.partBytes (List.range m) =
        (List.range m).length * v.decodedStride :=
      blockTotal_uniform fun i hi => if_pos (by have := List.mem_range.mp hi; omega)
    rwa [List.length_range] at huniform
  have hlast : v.partBytes m = v.volTotal - m * v.decodedStride := by
    unfold partBytes
    simp only [hm]
    exact if_neg (by omega)
  have hge := computedTotal_ge v.messageIds.length v.decodedStride v.decodedFileSize
  rw [← v.volTotal_eq, hm, Nat.add_sub_cancel] at hge
  rw [size, hparts, List.range_succ, List.map_append, List.sum_append, hfull, List.map_singleton,
    List.sum_singleton, hlast]
  omega

/-- A part with its size and where it ends. -/
theorem part_spec {a i : Nat} {z : SegmentRef} (hz : (v.parts a)[i]? = some z) :
    i < v.messageIds.length ∧ z.bytes = v.partBytes i ∧
      z.stop = a + blockStart SegmentRef.bytes (v.parts a) (i + 1) := by
  have hlen : (v.parts a).length = v.messageIds.length := by
    simpa using congrArg List.length (v.segmentsFrom_messageId v.messageIds 0 a)
  have hlt := (List.getElem?_eq_some_iff.mp hz).1
  refine ⟨hlen ▸ hlt, ?_, ?_⟩
  · have h := congrArg (·[i]?) (v.segmentsFrom_bytes v.messageIds 0 a)
    simp only [List.getElem?_map, hz, List.getElem?_mapIdx, Nat.zero_add] at h
    obtain ⟨msg, -, he⟩ := Option.map_eq_some_iff.mp h.symm
    exact he.symm
  · rw [SegmentRef.stop, v.segmentsFrom_laid v.messageIds 0 a i z hz, blockStart_succ hz,
      Nat.add_assoc]

/-- An empty part is the last one, and starts where the volume ends. -/
theorem Read.exists_empty_iff (h : v.Read) {a b : Nat} :
    (∃ z ∈ v.parts a, z.bytes = 0 ∧ z.offsetInStream = b) ↔ v.LastEmpty ∧ a + v.volTotal = b := by
  obtain ⟨m, hm⟩ := h.length_eq
  have hlen : (v.parts a).length = m + 1 := by
    simpa [hm] using congrArg List.length (v.segmentsFrom_messageId v.messageIds 0 a)
  have hend : blockStart SegmentRef.bytes (v.parts a) (m + 1) = v.volTotal := by
    rw [blockStart_of_length_le hlen.le, v.parts_total, h.size_eq]
  have hlast : v.partBytes m = v.volTotal - m * v.decodedStride := by
    unfold partBytes
    simp only [hm]
    exact if_neg (by omega)
  have hge := computedTotal_ge v.messageIds.length v.decodedStride v.decodedFileSize
  rw [← v.volTotal_eq, hm, Nat.add_sub_cancel] at hge
  unfold LastEmpty
  rw [hm, Nat.add_sub_cancel]
  constructor
  · rintro ⟨z, hz, h0, rfl⟩
    obtain ⟨i, hi⟩ := List.mem_iff_getElem?.mp hz
    obtain ⟨hlt, hbytes, hstop⟩ := part_spec hi
    by_cases him : i + 1 < v.messageIds.length
    · have : v.partBytes i = v.decodedStride := if_pos him
      have := h.stride
      omega
    · obtain rfl : i = m := by omega
      rw [hend, SegmentRef.stop] at hstop
      omega
  · rintro ⟨h0, rfl⟩
    have hi : (v.parts a)[m]? = some (v.parts a)[m] := List.getElem?_eq_getElem (by omega)
    obtain ⟨-, hbytes, hstop⟩ := part_spec hi
    rw [hend, SegmentRef.stop] at hstop
    exact ⟨_, List.mem_of_getElem? hi, by omega, by omega⟩

end RarVolumeGeom

theorem mem_buildRarLayout_go {vs : List RarVolumeGeom} {a w : Nat} {z : SegmentRef} :
    z ∈ (buildRarLayout.go vs a w).1 ↔
      ∃ (j : Nat) (u : RarVolumeGeom), vs[j]? = some u ∧
        z ∈ u.parts (a + blockStart RarVolumeGeom.size vs j) := by
  induction vs generalizing a w with
  | nil => simp [buildRarLayout.go]
  | cons v vs ih =>
    rw [buildRarLayout_go_cons, List.mem_append, ih]
    constructor
    · rintro (hz | ⟨j, u, hu, hz⟩)
      · exact ⟨0, v, rfl, hz⟩
      · refine ⟨j + 1, u, hu, ?_⟩
        rwa [blockStart_cons_succ, ← Nat.add_assoc]
    · rintro ⟨j, u, hu, hz⟩
      cases j with
      | zero =>
        obtain rfl : v = u := by simpa using hu
        exact .inl hz
      | succ j =>
        rw [blockStart_cons_succ, ← Nat.add_assoc] at hz
        exact .inr ⟨j, u, hu, hz⟩

/-- Bytes of the volume `k` that lie below the size of the file. -/
def rarWithin (volumes : List RarVolumeGeom) (total k : Nat) (v : RarVolumeGeom) : Nat :=
  min v.dataSize (total - blockStart RarVolumeGeom.dataSize volumes k)

/-- **The condition on the headers**: the sizes of the volumes and those of their data add up in
words, each data region starts in a word, and the part of it that the stream plays ends by
`2^64`. -/
structure HeadersFit (volumes : List RarVolumeGeom) (totalSize : Nat) : Prop where
  strides : ∀ v ∈ volumes, v.StridesFit
  sizes : blockTotal RarVolumeGeom.size volumes < 2 ^ 64
  data : blockTotal RarVolumeGeom.dataSize volumes < 2 ^ 64
  regions : ∀ k v, volumes[k]? = some v → blockStart RarVolumeGeom.size volumes k + v.dataStart +
    max 1 (rarWithin volumes totalSize k v) ≤ 2 ^ 64

theorem HeadersFit.build {vs : List RarVolumeGeom} (h : HeadersFit vs total) :
    BuildFits vs 0 0 := by
  have hsizes := h.sizes
  have hdata := h.data
  refine ⟨h.strides, by omega, by omega, fun k v hv => ?_⟩
  have := h.regions k v hv
  omega

/-- The volumes carry as much data as the file is long, the data of each lies in the volumes, and
no volume that ends one part early ends within it. -/
structure RarReconciled (volumes : List RarVolumeGeom) (total : Nat) : Prop where
  total_le : total ≤ blockTotal RarVolumeGeom.dataSize volumes
  region : ∀ k v, volumes[k]? = some v → 0 < rarWithin volumes total k v →
    blockStart RarVolumeGeom.volTotal volumes k + v.dataStart + rarWithin volumes total k v ≤
      blockTotal RarVolumeGeom.volTotal volumes
  filled : ∀ k v j u, volumes[k]? = some v → volumes[j]? = some u → u.LastEmpty →
    blockStart RarVolumeGeom.volTotal volumes k + v.dataStart ≤
      blockStart RarVolumeGeom.volTotal volumes (j + 1) →
    blockStart RarVolumeGeom.volTotal volumes k + v.dataStart + rarWithin volumes total k v ≤
      blockStart RarVolumeGeom.volTotal volumes (j + 1)

/-- **RAR volumes are covered where their sizes agree.** -/
theorem rar_covering_iff {vs : List RarVolumeGeom} (hvs : ∀ v ∈ vs, v.Read) :
    (rarLayout vs).Covering total ↔ RarReconciled vs total := by
  have hmap : vs.map RarVolumeGeom.size = vs.map RarVolumeGeom.volTotal :=
    List.map_congr_left fun v hv => (hvs v hv).size_eq
  have hstart := blockStart_congr hmap
  have hend : assembledEnd (rarLayout vs).segments = blockTotal RarVolumeGeom.volTotal vs := by
    rw [assembledEnd_rarLayout, blockTotal, hmap]
    rfl
  have hempty : ∀ b, (∃ z ∈ (rarLayout vs).segments, z.bytes = 0 ∧ z.offsetInStream = b) ↔
      ∃ j u, vs[j]? = some u ∧ u.LastEmpty ∧ blockStart RarVolumeGeom.volTotal vs (j + 1) = b := by
    intro b
    constructor
    · rintro ⟨z, hz, h0, hb⟩
      obtain ⟨j, u, hu, hz⟩ := mem_buildRarLayout_go.mp hz
      rw [Nat.zero_add, hstart] at hz
      obtain ⟨h1, h2⟩ := ((hvs u (List.mem_of_getElem? hu)).exists_empty_iff).mp ⟨z, hz, h0, hb⟩
      exact ⟨j, u, hu, h1, by rw [blockStart_succ hu, h2]⟩
    · rintro ⟨j, u, hu, h1, hb⟩
      rw [blockStart_succ hu] at hb
      obtain ⟨z, hz, h0, hb⟩ := ((hvs u (List.mem_of_getElem? hu)).exists_empty_iff).mpr ⟨h1, hb⟩
      refine ⟨z, mem_buildRarLayout_go.mpr ⟨j, u, hu, ?_⟩, h0, hb⟩
      rwa [Nat.zero_add, hstart]
  constructor
  · intro h
    have hchunk : ∀ k v, vs[k]? = some v → _ ∈ (rarLayout vs).chunks := fun k v hv =>
      List.mem_of_getElem? (rarLayout_chunk hv)
    refine ⟨videoEnd_rarLayout ▸ h.chunks, fun k v hv hpos => ?_, fun k v j u hv hu h0 hle => ?_⟩
    · have := h.image _ (hchunk k v hv) hpos
      rwa [hend, hstart] at this
    · obtain ⟨z, hz, hz0, hb⟩ := (hempty _).mpr ⟨j, u, hu, h0, rfl⟩
      have := h.filled _ (hchunk k v hv) z hz hz0
      rw [hstart, hb] at this
      exact this hle
  · intro h
    refine ⟨videoEnd_rarLayout ▸ h.total_le, fun c hc hpos => ?_, fun c hc z hz h0 hle => ?_⟩
    · obtain ⟨k, hk⟩ := List.mem_iff_getElem?.mp hc
      obtain ⟨v, hv, rfl⟩ := rarLayout_chunk_inv hk
      rw [hend]
      simp only
      rw [hstart]
      exact h.region k v hv hpos
    · obtain ⟨k, hk⟩ := List.mem_iff_getElem?.mp hc
      obtain ⟨v, hv, rfl⟩ := rarLayout_chunk_inv hk
      obtain ⟨j, u, hu, hu0, hb⟩ := (hempty _).mp ⟨z, hz, h0, rfl⟩
      simp only at hle ⊢
      rw [hstart, ← hb] at hle ⊢
      exact h.filled k v j u hv hu hu0 hle

/-! ## What preflight reads -/

namespace Net
variable {net : Net} {nzb : Nzb} {post : Post} {contentType nzbUrl token : String}

theorem firstArticle_data {serverIndex : Nat} {messageId : String} {decoded : Decoded}
    (h : net.firstArticle serverIndex messageId = .ok decoded) : decoded.data ≠ [] := by
  obtain ⟨⟨idx, raw⟩, -, h⟩ := bind_eq_ok.mp h
  obtain ⟨d, -, h⟩ := bind_eq_ok.mp h
  split at h
  · cases h
  · next hne =>
    cases h
    simpa using hne

theorem volumeFirst_ok {idx : Nat} {v : NzbFile} {first : Decoded}
    (h : net.volumeFirst idx v = .ok first) : v.segments ≠ [] ∧ first.data ≠ [] := by
  unfold volumeFirst at h
  split at h
  · cases h
  · next seg hseg =>
    refine ⟨fun hnil => ?_, firstArticle_data h⟩
    rw [hnil] at hseg
    cases hseg

theorem volumeGeom_read {idx : Nat} {v : NzbFile} {first : Decoded} {fh : FileHeader}
    (h : net.volumeFirst idx v = .ok first) : (volumeGeom v first fh).Read := by
  obtain ⟨hsegs, hdata⟩ := volumeFirst_ok h
  refine ⟨fun hnil => hsegs ?_, List.length_pos_of_ne_nil hdata⟩
  have hlen := congrArg List.length hnil
  simpa [volumeGeom, sortByNumber] using hlen

/-- Each volume that is read has its first article beside it. -/
theorem volumeFirst_of_mem {volumes : List NzbFile} {volFirst : List Decoded} {v : NzbFile}
    {vf : Decoded} {i : Nat}
    (h : List.Forall₂ (fun p d => net.volumeFirst p.2 p.1 = .ok d) volumes.zipIdx volFirst)
    (hmem : ((v, vf), i) ∈ (volumes.zip volFirst).zipIdx) : net.volumeFirst i v = .ok vf := by
  obtain ⟨hlen, hall⟩ := List.forall₂_iff_zip.mp h
  have hi := List.mem_zipIdx_iff_getElem?.mp hmem
  obtain ⟨hv, hvf⟩ := List.getElem?_zip_eq_some.mp hi
  refine hall (a := (v, i)) (List.mem_of_getElem? (i := i) ?_)
  exact List.getElem?_zip_eq_some.mpr ⟨by simp [List.getElem?_zipIdx, hv], hvf⟩

theorem readRar_ok (h : net.readRar nzb = .ok (post, contentType)) :
    ∃ geom total, post = .rar geom total ∧ ∀ v ∈ geom, v.Read := by
  unfold readRar at h
  simp only at h
  split at h
  · cases h
  · obtain ⟨volFirst, hfirst, h⟩ := bind_eq_ok.mp h
    obtain ⟨files, -, h⟩ := bind_eq_ok.mp h
    obtain ⟨main, -, h⟩ := bind_eq_ok.mp h
    split at h
    · cases h
    · cases h
      refine ⟨_, _, rfl, fun geom hgeom => ?_⟩
      obtain ⟨⟨⟨v, vf⟩, i⟩, hmem, hfh⟩ := List.mem_filterMap.mp hgeom
      obtain ⟨⟨_, fh⟩, -, rfl⟩ := Option.map_eq_some_iff.mp hfh
      exact volumeGeom_read (volumeFirst_of_mem (mapM_eq_ok hfirst) hmem)

end Net

namespace Post

/-- The `u64` sums and products that the builders compute, and then the lookups for the bytes below
the size, do not wrap. -/
def Fits : Post → Prop
  | flat segments stride fileSize => FlatFits segments stride fileSize
  | rar volumes uncompressedSize => HeadersFit volumes uncompressedSize

/-- The sizes declared, decoded and read from headers agree as far as playback needs. -/
def Reconciled : Post → Prop
  | flat segments stride fileSize => FlatReconciled segments stride fileSize
  | rar volumes uncompressedSize => RarReconciled volumes uncompressedSize

/-- The volumes are as preflight reads them. -/
def Read : Post → Prop
  | flat .. => True
  | rar volumes _ => ∀ v ∈ volumes, v.Read

/-- **A post that fits is laid out by the exact builders.** -/
theorem Fits.layout_eq {post : Post} (h : post.Fits) : post.layout = match post with
    | flat segments stride fileSize => flatLayout
        (rebuildForDecodedStride (buildSegmentRefs segments 0) stride fileSize).1
        (rebuildForDecodedStride (buildSegmentRefs segments 0) stride fileSize).2
    | rar volumes _ => rarLayout volumes := by
  cases post with
  | flat segments stride fs =>
    simp only
    rw [← flat64_eq h]
    rfl
  | rar volumes total =>
    simp only [rarLayout]
    rw [← buildRarLayout64_eq h.build]
    rfl

theorem Fits.contiguous {post : Post} (h : post.Fits) : Contiguous post.layout.segments := by
  rw [h.layout_eq]
  cases post with
  | flat segments => exact contiguous_rebuild (contiguous_buildSegmentRefs segments 0)
  | rar => exact contiguous_rarLayout

theorem Fits.chunksContiguous {post : Post} (h : post.Fits) :
    ChunksContiguous post.layout.chunks := by
  rw [h.layout_eq]
  cases post with
  | flat => exact chunksContiguous_flatLayout
  | rar => exact chunksContiguous_rarLayout

/-- The stream of a post that fits ends in a word. -/
theorem Fits.assembledEnd_lt {post : Post} (h : post.Fits) :
    assembledEnd post.layout.segments < 2 ^ 64 := by
  rw [h.layout_eq]
  cases post with
  | flat segments stride fs =>
    obtain ⟨hfs, hdeclared, hstrides⟩ : FlatFits segments stride fs := h
    have hbytes := bytes_buildSegmentRefs segments 0
    show assembledEnd (rebuildForDecodedStride (buildSegmentRefs segments 0) stride fs).1 < 2 ^ 64
    cases h0 : (buildSegmentRefs segments 0)[0]? with
    | none =>
      rw [List.getElem?_eq_none_iff, Nat.le_zero, List.length_eq_zero_iff] at h0
      rw [h0]
      exact Nat.two_pow_pos 64
    | some first =>
      have hlen : (buildSegmentRefs segments 0).length = segments.length - 1 + 1 := by
        have := (List.getElem?_eq_some_iff.mp h0).1
        have := length_buildSegmentRefs segments 0
        omega
      by_cases he : first.bytes = stride
      · rw [rebuild_of_eq h0 he]
        show blockTotal SegmentRef.bytes (buildSegmentRefs segments 0) < 2 ^ 64
        rw [blockTotal, hbytes]
        exact hdeclared
      · rw [rebuild_of_ne h0 he, assembledEnd_restride hlen, length_buildSegmentRefs]
        refine (Nat.min_le_left _ _).trans_lt (StridesFit.computedTotal_lt (hstrides ?_) hfs)
        intro s hs hsize
        have hhead := congrArg List.head? hbytes
        rw [List.head?_map, List.head?_map, hs, List.head?_eq_getElem?, h0] at hhead
        exact he ((Option.some.inj hhead).trans hsize)
  | rar volumes total =>
    show assembledEnd (rarLayout volumes).segments < 2 ^ 64
    rw [assembledEnd_rarLayout]
    exact h.sizes

theorem Fits.covering_iff {post : Post} (h : post.Fits) (hread : post.Read) :
    post.layout.Covering post.totalSize ↔ post.Reconciled := by
  cases post with
  | flat segments stride fs =>
    show _ ↔ FlatReconciled segments stride fs
    rw [← flat_covering_iff, ← flat64_eq h]
    rfl
  | rar volumes total =>
    show _ ↔ RarReconciled volumes total
    rw [← rar_covering_iff hread, h.layout_eq]
    rfl

end Post

theorem Net.readPost_read {net : Net} {post : Post} {contentType nzbUrl : String}
    (h : net.readPost nzbUrl = .ok (post, contentType)) : post.Read := by
  unfold readPost at h
  split at h
  · cases h
  · obtain ⟨nzb, -, h⟩ := bind_eq_ok.mp h
    obtain ⟨detected, -, h⟩ := bind_eq_ok.mp h
    cases detected with
    | rar =>
      obtain ⟨geom, total, rfl, hgeom⟩ := readRar_ok h
      exact hgeom
    | flat main =>
      have h : net.readFlat main = .ok (post, contentType) := h
      unfold readFlat at h
      split at h
      · cases h
      · obtain ⟨_, ⟨⟩, h⟩ := bind_eq_ok.mp h
        obtain ⟨decoded, -, h⟩ := bind_eq_ok.mp h
        cases h
        trivial

/-- **Preflight commits a stream that can be played to its end, whatever the search, exactly where
the sizes of the post agree**, as long as the sums that are computed fit. -/
theorem preflight_mappable_iff {net : Net} {nzbUrl token : String} {active : ActiveStream}
    (h : net.probeCandidateInner nzbUrl token = .ok active) :
    ∃ post contentType, net.readPost nzbUrl = .ok (post, contentType) ∧
      (post.Fits → (active.fileLayout.Mappable active.totalSize ↔ post.Reconciled)) := by
  obtain ⟨⟨post, contentType⟩, hread, h⟩ := bind_eq_ok.mp h
  obtain ⟨cacheFile, -, h⟩ := bind_eq_ok.mp h
  cases h
  refine ⟨post, contentType, hread, fun hfits => ?_⟩
  rw [FileLayout.mappable_iff hfits.contiguous hfits.chunksContiguous,
    hfits.covering_iff (Net.readPost_read hread)]

/-! ## A size that the header declares -/

/-- A post of one article that decodes to four bytes, declared as `declared` bytes by the NZB and
as `fileSize` by its header. -/
def onePost (declared fileSize : Nat) : Net where
  serverCount := 1
  fetchNzbXml _ := .ok ""
  parseNzb _ := .ok ⟨[⟨none, false, false, declared, [⟨declared, 1, "a"⟩]⟩], []⟩
  fetchArticle _ _ := .ok []
  redactLog := id
  decodeYenc _ := .ok ⟨[1, 2, 3, 4], some fileSize⟩
  parseAllHeaders _ _ := .ok []
  classes := ⟨Char.isDigit, Char.isAlphanum⟩
  root := "cache"
  openFile _ := .ok fun _ => 0

/-- **Preflight commits a stream whose last bytes no segment holds**: the header declares eight
bytes, and the one segment is cut to the four decoded. -/
theorem unmapped_committed :
    ∃ active, (onePost 10 8).probeCandidateInner "url" "token" = .ok active ∧
      ¬ active.fileLayout.Mappable active.totalSize := by
  refine ⟨_, rfl, fun h => ?_⟩
  obtain ⟨a, i, ha, -, hi⟩ := h (.leftmost _) 4 (by decide)
  cases ha
  cases hi

/-! ## Two volumes -/

/-- A post of two volumes of two articles, listed in reverse. Every first article decodes to four
bytes of a volume of seven, of which five from the second on are data. -/
def twoVolumes : Net where
  serverCount := 1
  fetchNzbXml _ := .ok ""
  parseNzb _ := .ok ⟨[⟨some "a.part02.rar", true, false, 8, [⟨4, 1, "c"⟩, ⟨4, 2, "d"⟩]⟩,
    ⟨some "a.part01.rar", true, false, 8, [⟨4, 1, "a"⟩, ⟨4, 2, "b"⟩]⟩], []⟩
  fetchArticle _ _ := .ok []
  redactLog := id
  decodeYenc _ := .ok ⟨[1, 2, 3, 4], some 7⟩
  parseAllHeaders _ _ := .ok [.file ⟨"a.mkv", false, 0, 10, 1, 5⟩]
  classes := ⟨Char.isDigit, Char.isAlphanum⟩
  root := "cache"
  openFile _ := .ok fun _ => 0

/-- What preflight reads of them. -/
def twoVolumesGeom : List RarVolumeGeom :=
  [⟨["a", "b"], 4, some 7, 1, 5⟩, ⟨["c", "d"], 4, some 7, 1, 5⟩]

theorem twoVolumes_found : (⟨Char.isDigit, Char.isAlphanum⟩ : CharClasses).findRarVolumes
    ⟨[⟨some "a.part02.rar", true, false, 8, [⟨4, 1, "c"⟩, ⟨4, 2, "d"⟩]⟩,
      ⟨some "a.part01.rar", true, false, 8, [⟨4, 1, "a"⟩, ⟨4, 2, "b"⟩]⟩], []⟩ =
      [⟨some "a.part01.rar", true, false, 8, [⟨4, 1, "a"⟩, ⟨4, 2, "b"⟩]⟩,
        ⟨some "a.part02.rar", true, false, 8, [⟨4, 1, "c"⟩, ⟨4, 2, "d"⟩]⟩] := by decide +kernel

theorem twoVolumes_read (nzbUrl : String) : twoVolumes.readPost nzbUrl =
    .ok (.rar twoVolumesGeom 10, guessContentType "a.mkv") := by
  have hrar : twoVolumes.readRar ⟨[⟨some "a.part02.rar", true, false, 8,
      [⟨4, 1, "c"⟩, ⟨4, 2, "d"⟩]⟩, ⟨some "a.part01.rar", true, false, 8,
      [⟨4, 1, "a"⟩, ⟨4, 2, "b"⟩]⟩], []⟩ =
      .ok (.rar twoVolumesGeom 10, guessContentType "a.mkv") := by
    unfold Net.readRar
    rw [show twoVolumes.classes.findRarVolumes _ = _ from twoVolumes_found]
    rfl
  exact hrar

theorem twoVolumes_committed : ∃ active,
    twoVolumes.probeCandidateInner "url" "token" = .ok active ∧ active.totalSize = 10 :=
  ⟨_, bind_eq_ok.mpr ⟨_, twoVolumes_read _, bind_eq_ok.mpr ⟨_, rfl, rfl⟩⟩, rfl⟩

/-- One of the two. -/
theorem twoVolumes_cases {k : Nat} {v : RarVolumeGeom} (h : twoVolumesGeom[k]? = some v) :
    k = 0 ∧ v = ⟨["a", "b"], 4, some 7, 1, 5⟩ ∨ k = 1 ∧ v = ⟨["c", "d"], 4, some 7, 1, 5⟩ := by
  match k with
  | 0 => exact .inl ⟨rfl, (Option.some.inj h).symm⟩
  | 1 => exact .inr ⟨rfl, (Option.some.inj h).symm⟩
  | k + 2 => cases h

theorem twoVolumes_fit : HeadersFit twoVolumesGeom 10 := by
  refine ⟨fun v hv => ?_, by decide, by decide, fun k v hv => ?_⟩
  · obtain ⟨k, hk⟩ := List.mem_iff_getElem?.mp hv
    rcases twoVolumes_cases hk with ⟨-, rfl⟩ | ⟨-, rfl⟩ <;> exact stridesFit_of_lt (by decide)
  · rcases twoVolumes_cases hv with ⟨rfl, rfl⟩ | ⟨rfl, rfl⟩ <;> decide

theorem twoVolumes_reconciled : RarReconciled twoVolumesGeom 10 := by
  refine ⟨by decide, fun k v hv _ => ?_, fun k v j u _ hu hlast _ => ?_⟩
  · rcases twoVolumes_cases hv with ⟨rfl, rfl⟩ | ⟨rfl, rfl⟩ <;> decide
  · -- neither volume ends one part early
    rcases twoVolumes_cases hu with ⟨-, rfl⟩ | ⟨-, rfl⟩ <;> exact absurd hlast (by decide)

/-- Data of five bytes in each of the two volumes is mapped to its end. -/
theorem two_volumes_mapped :
    ∃ active, twoVolumes.probeCandidateInner "url" "token" = .ok active ∧
      active.totalSize = 10 ∧ active.fileLayout.Mappable active.totalSize := by
  obtain ⟨active, hok, hsize⟩ := twoVolumes_committed
  obtain ⟨post, contentType, hread, h⟩ := preflight_mappable_iff hok
  have hpost : post = .rar twoVolumesGeom 10 := by
    have := hread.symm.trans (twoVolumes_read _)
    cases this
    rfl
  subst hpost
  exact ⟨active, hok, hsize, (h twoVolumes_fit).mpr twoVolumes_reconciled⟩

end StremioNzb.Streaming

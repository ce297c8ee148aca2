import StremioNzb.Streaming.Layout

/-!
# Layouts in machine words

The builders of `preflight.rs` as a release build runs them: sums and products of `u64` wrap.
Where the sums and products that are computed fit (`FlatFits`, `BuildFits`) these are the exact
builders.
-/

namespace StremioNzb.Streaming

open StremioNzb.Lib

def add64 (a b : Nat) : Nat := (a + b) % 2 ^ 64

def mul64 (a b : Nat) : Nat := (a * b) % 2 ^ 64

theorem add64_eq {a b : Nat} (h : a + b < 2 ^ 64) : add64 a b = a + b := Nat.mod_eq_of_lt h

theorem mul64_eq {a b : Nat} (h : a * b < 2 ^ 64) : mul64 a b = a * b := Nat.mod_eq_of_lt h

/-- The products of the part count and the stride that are computed fit: that of the full parts, and
that of all parts where the declared size is missing or too small. -/
structure StridesFit (n stride : Nat) (fileSize : Option Nat) : Prop where
  full : (n - 1) * stride < 2 ^ 64
  fallback : (∀ fs, fileSize = some fs → 0 < fs → fs < (n - 1) * stride) → n * stride < 2 ^ 64

/-- Counts and strides bounded by what was fetched fit. -/
theorem stridesFit_of_lt {n stride : Nat} {fs : Option Nat} (h : n * stride < 2 ^ 64) :
    StridesFit n stride fs :=
  ⟨lt_of_le_of_lt (Nat.mul_le_mul_right _ (Nat.sub_le _ 1)) h, fun _ => h⟩

/-- `assembled_size` -/
def FileLayout.assembledSize64 (l : FileLayout) : Nat :=
  (l.segments.getLast?.map fun s => add64 s.offsetInStream s.bytes).getD 0

theorem FileLayout.assembledSize64_eq {l : FileLayout} (hc : Contiguous l.segments)
    (h : assembledEnd l.segments < 2 ^ 64) : l.assembledSize64 = assembledEnd l.segments := by
  rw [← hc.assembledSize]
  refine congrArg (·.getD 0) (Option.map_congr fun s hs => add64_eq ?_)
  obtain ⟨i, hi⟩ := List.mem_iff_getElem?.mp (List.mem_of_getLast? hs)
  exact (hc.stop_le_end hi).trans_lt h

/-! ## Flat files -/

def buildSegmentRefs64 (segments : List Segment) (serverIndex : Nat) : List SegmentRef :=
  go (sortByNumber segments) 0
where
  go : List Segment → Nat → List SegmentRef
    | [], _ => []
    | seg :: rest, offset =>
      ⟨serverIndex, seg.messageId, seg.size, offset⟩ :: go rest (add64 offset seg.size)

def computedTotal64 (n actualStride : Nat) (totalFileSize : Option Nat) : Nat :=
  match totalFileSize with
  | some t => if t > 0 ∧ t ≥ mul64 (n - 1) actualStride then t else mul64 n actualStride
  | none => mul64 n actualStride

def rebuildForDecodedStride64 (segments : List SegmentRef) (actualStride : Nat)
    (totalFileSize : Option Nat) : List SegmentRef × Nat :=
  match segments with
  | [] => ([], 0)
  | first :: _ =>
    if first.bytes = actualStride then (segments, (segments.map (·.bytes)).foldl add64 0)
    else
      let n := segments.length
      let total := computedTotal64 n actualStride totalFileSize
      (segments.mapIdx fun i seg =>
        { seg with
          offsetInStream := mul64 i actualStride
          bytes := if i < n - 1 then actualStride
            else min (total - mul64 i actualStride) actualStride }, total)

/-- The size in the header is a word, the declared sizes add up in a word and, where they are not
kept, the multiples of the stride are words. -/
structure FlatFits (segments : List Segment) (stride : Nat) (fileSize : Option Nat) : Prop where
  header : ∀ t, fileSize = some t → t < 2 ^ 64
  declared : blockTotal Segment.size (sortByNumber segments) < 2 ^ 64
  strides : (∀ first, (sortByNumber segments).head? = some first → first.size ≠ stride) →
    StridesFit segments.length stride fileSize

theorem buildSegmentRefs64_go_eq (srv : Nat) : ∀ (segs : List Segment) (o : Nat),
    o + blockTotal Segment.size segs < 2 ^ 64 →
      buildSegmentRefs64.go srv segs o = buildSegmentRefs.go srv segs o
  | [], _, _ => rfl
  | seg :: segs, _, h => by
    rw [blockTotal_cons] at h
    rw [buildSegmentRefs64.go, buildSegmentRefs.go, add64_eq (by omega),
      buildSegmentRefs64_go_eq srv segs _ (by omega)]

/-- The declared sizes, in order. -/
theorem bytes_buildSegmentRefs_go (srv : Nat) : ∀ (segs : List Segment) (o : Nat),
    (buildSegmentRefs.go srv segs o).map (·.bytes) = segs.map (·.size)
  | [], _ => rfl
  | seg :: segs, _ => congrArg (seg.size :: ·) (bytes_buildSegmentRefs_go srv segs _)

theorem bytes_buildSegmentRefs (segs : List Segment) (srv : Nat) :
    (buildSegmentRefs segs srv).map (·.bytes) = (sortByNumber segs).map (·.size) :=
  bytes_buildSegmentRefs_go srv _ 0

theorem length_buildSegmentRefs (segs : List Segment) (srv : Nat) :
    (buildSegmentRefs segs srv).length = segs.length := by
  have := congrArg List.length (bytes_buildSegmentRefs segs srv)
  rw [List.length_map, List.length_map] at this
  exact this.trans (List.length_insertionSort _ segs)

theorem foldl_add64_eq : ∀ (ns : List Nat) (n : Nat), n + ns.sum < 2 ^ 64 →
    ns.foldl add64 n = n + ns.sum
  | [], _, _ => rfl
  | m :: ns, n, h => by
    rw [List.sum_cons] at h
    rw [List.foldl_cons, add64_eq (by omega), foldl_add64_eq ns _ (by omega), List.sum_cons,
      Nat.add_assoc]

theorem computedTotal64_eq {n stride : Nat} {fs : Option Nat} (h : StridesFit n stride fs) :
    computedTotal64 n stride fs = computedTotal n stride fs := by
  cases fs with
  | none => exact mul64_eq (h.fallback fun _ hn => nomatch hn)
  | some t =>
    simp only [computedTotal64, computedTotal, mul64_eq h.full]
    split
    · rfl
    · next hshort =>
      refine mul64_eq (h.fallback fun fs hfs hpos => ?_)
      cases hfs
      exact not_le.mp fun hge => hshort ⟨hpos, hge⟩

theorem StridesFit.computedTotal_lt {n stride : Nat} {fs : Option Nat} (h : StridesFit n stride fs)
    (hfs : ∀ t, fs = some t → t < 2 ^ 64) : computedTotal n stride fs < 2 ^ 64 := by
  cases fs with
  | none => exact h.fallback fun _ hn => nomatch hn
  | some t =>
    rw [computedTotal]
    split
    · exact hfs t rfl
    · next hshort =>
      refine h.fallback fun fs hfs hpos => ?_
      cases hfs
      exact not_le.mp fun hge => hshort ⟨hpos, hge⟩

theorem rebuildForDecodedStride64_eq {segs : List SegmentRef} {stride : Nat} {fs : Option Nat}
    (hs : (segs.map (·.bytes)).sum < 2 ^ 64)
    (h : (∀ first, segs.head? = some first → first.bytes ≠ stride) →
      StridesFit segs.length stride fs) :
    rebuildForDecodedStride64 segs stride fs = rebuildForDecodedStride segs stride fs := by
  unfold rebuildForDecodedStride64 rebuildForDecodedStride
  cases segs with
  | nil => rfl
  | cons first rest =>
    simp only
    rw [foldl_add64_eq _ 0 (by omega), Nat.zero_add]
    by_cases he : first.bytes = stride
    · rw [if_pos he, if_pos he]
    · have hfit := h fun f hf => by
        cases hf
        exact he
      rw [if_neg he, if_neg he, computedTotal64_eq hfit]
      refine Prod.ext ?_ rfl
      apply List.mapIdx_eq_mapIdx_iff.mpr
      intro i hi
      have hle : i * stride ≤ ((first :: rest).length - 1) * stride :=
        Nat.mul_le_mul_right stride (by omega)
      rw [mul64_eq (hle.trans_lt hfit.full)]

/-- **A flat file that fits is laid out exactly.** -/
theorem flat64_eq {segments : List Segment} {stride : Nat} {fs : Option Nat}
    (h : FlatFits segments stride fs) (srv : Nat) :
    rebuildForDecodedStride64 (buildSegmentRefs64 segments srv) stride fs =
      rebuildForDecodedStride (buildSegmentRefs segments srv) stride fs := by
  have hb : buildSegmentRefs64 segments srv = buildSegmentRefs segments srv :=
    buildSegmentRefs64_go_eq srv _ 0 (by have := h.declared; omega)
  have hbytes := bytes_buildSegmentRefs segments srv
  rw [hb]
  refine rebuildForDecodedStride64_eq ?_ fun hne => ?_
  · rw [hbytes]
    exact h.declared
  · rw [length_buildSegmentRefs]
    refine h.strides fun first hfirst => ?_
    have hhead := congrArg List.head? hbytes
    rw [List.head?_map, List.head?_map, hfirst] at hhead
    obtain ⟨ref, href, hsize⟩ := Option.map_eq_some_iff.mp hhead
    exact fun he => hne ref href (hsize.trans he)

/-! ## RAR volumes -/

namespace RarVolumeGeom

def volTotal64 (v : RarVolumeGeom) : Nat :=
  let n := v.messageIds.length
  match v.decodedFileSize with
  | some fs =>
    if fs > 0 ∧ fs ≥ mul64 (n - 1) v.decodedStride then fs else mul64 n v.decodedStride
  | none => mul64 n v.decodedStride

def partBytes64 (v : RarVolumeGeom) (i : Nat) : Nat :=
  let n := v.messageIds.length
  if i + 1 < n then v.decodedStride else v.volTotal64 - mul64 (n - 1) v.decodedStride

def segmentsFrom64 (v : RarVolumeGeom) : List String → Nat → Nat → List SegmentRef × Nat
  | [], _, assembled => ([], assembled)
  | msg :: msgs, i, assembled =>
    let bytes := v.partBytes64 i
    let (rest, stop) := v.segmentsFrom64 msgs (i + 1) (add64 assembled bytes)
    (⟨0, msg, bytes, assembled⟩ :: rest, stop)

/-- The products computed for the volume fit. -/
abbrev StridesFit (v : RarVolumeGeom) : Prop :=
  Streaming.StridesFit v.messageIds.length v.decodedStride v.decodedFileSize

end RarVolumeGeom

def buildRarLayout64 (volumes : List RarVolumeGeom) : List SegmentRef × List DataChunk × Nat :=
  go volumes 0 0
where
  go : List RarVolumeGeom → Nat → Nat → List SegmentRef × List DataChunk × Nat
    | [], _, video => ([], [], video)
    | v :: vs, assembled, video =>
      let (segs, stop) := v.segmentsFrom64 v.messageIds 0 assembled
      let (segments, chunks, total) := go vs stop (add64 video v.dataSize)
      (segs ++ segments, ⟨video, v.dataSize, add64 assembled v.dataStart⟩ :: chunks, total)

/-- What the builder adds up for the volumes, from `assembled` and `video` on, fits. -/
structure BuildFits (volumes : List RarVolumeGeom) (assembled video : Nat) : Prop where
  strides : ∀ v ∈ volumes, v.StridesFit
  sizes : assembled + blockTotal RarVolumeGeom.size volumes < 2 ^ 64
  data : video + blockTotal RarVolumeGeom.dataSize volumes < 2 ^ 64
  starts : ∀ k v, volumes[k]? = some v →
    assembled + blockStart RarVolumeGeom.size volumes k + v.dataStart < 2 ^ 64

variable {v : RarVolumeGeom} {vs : List RarVolumeGeom} {a w : Nat}

theorem RarVolumeGeom.volTotal64_eq (h : v.StridesFit) : v.volTotal64 = v.volTotal := by
  have htotal : v.volTotal64 =
      computedTotal64 v.messageIds.length v.decodedStride v.decodedFileSize := by
    unfold volTotal64 computedTotal64
    cases v.decodedFileSize <;> rfl
  rw [htotal, computedTotal64_eq h]
  unfold volTotal computedTotal
  cases v.decodedFileSize <;> rfl

theorem RarVolumeGeom.partBytes64_eq (h : v.StridesFit) (i : Nat) :
    v.partBytes64 i = v.partBytes i := by
  simp only [partBytes64, partBytes, volTotal64_eq h, mul64_eq h.full]

theorem RarVolumeGeom.segmentsFrom64_eq (h : v.StridesFit) :
    ∀ (msgs : List String) (i a : Nat), (v.segmentsFrom msgs i a).2 < 2 ^ 64 →
      v.segmentsFrom64 msgs i a = v.segmentsFrom msgs i a
  | [], _, _, _ => rfl
  | msg :: msgs, i, a, hlt => by
    have hrest : (v.segmentsFrom msgs (i + 1) (a + v.partBytes i)).2 < 2 ^ 64 := hlt
    have hstop := v.segmentsFrom_stop msgs (i + 1) (a + v.partBytes i)
    rw [segmentsFrom64, segmentsFrom, partBytes64_eq h, add64_eq (by omega),
      segmentsFrom64_eq h msgs _ _ hrest]

theorem buildFits_nil (ha : a < 2 ^ 64) (hw : w < 2 ^ 64) : BuildFits [] a w :=
  ⟨fun _ h => absurd h List.not_mem_nil, ha, hw, fun k v h => by simp at h⟩

theorem buildFits_cons : BuildFits (v :: vs) a w ↔ v.StridesFit ∧ a + v.dataStart < 2 ^ 64 ∧
    BuildFits vs (a + v.size) (w + v.dataSize) := by
  constructor
  · intro h
    have hsizes := h.sizes
    have hdata := h.data
    have hstart := h.starts 0 v rfl
    rw [blockTotal_cons, ← Nat.add_assoc] at hsizes hdata
    refine ⟨h.strides v List.mem_cons_self, hstart,
      fun u hu => h.strides u (List.mem_cons_of_mem v hu), hsizes, hdata, fun k u hu => ?_⟩
    have := h.starts (k + 1) u hu
    rwa [blockStart_cons_succ, ← Nat.add_assoc] at this
  · rintro ⟨hs, hstart, h⟩
    refine ⟨fun u hu => ?_, ?_, ?_, fun k u hu => ?_⟩
    · rcases List.mem_cons.mp hu with rfl | hu
      · exact hs
      · exact h.strides u hu
    · rw [blockTotal_cons, ← Nat.add_assoc]
      exact h.sizes
    · rw [blockTotal_cons, ← Nat.add_assoc]
      exact h.data
    · cases k with
      | zero =>
        obtain rfl : v = u := by simpa using hu
        exact hstart
      | succ k =>
        rw [blockStart_cons_succ, ← Nat.add_assoc]
        exact h.starts k u hu

theorem buildRarLayout64_go_eq (h : BuildFits vs a w) :
    buildRarLayout64.go vs a w = buildRarLayout.go vs a w := by
  induction vs generalizing a w with
  | nil => rfl
  | cons v vs ih =>
    obtain ⟨hs, hstart, hrest⟩ := buildFits_cons.mp h
    have hstop : (v.segmentsFrom v.messageIds 0 a).2 = a + v.size := by
      rw [v.segmentsFrom_stop, v.parts_total]
    have hsizes := hrest.sizes
    have hdata := hrest.data
    rw [buildRarLayout64.go, buildRarLayout.go, v.segmentsFrom64_eq hs _ _ _ (by omega),
      add64_eq (a := w) (by omega), add64_eq hstart]
    simp only [hstop]
    rw [ih hrest]

/-- **RAR volumes that fit are laid out exactly.** -/
theorem buildRarLayout64_eq (h : BuildFits vs 0 0) : buildRarLayout64 vs = buildRarLayout vs :=
  buildRarLayout64_go_eq h

end StremioNzb.Streaming

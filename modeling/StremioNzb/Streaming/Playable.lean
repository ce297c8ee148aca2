import StremioNzb.Streaming.Walk

/-!
# Playable layouts

The layouts of a single file and of RAR volumes whose data regions lie inside them
(`Posted`). The mapping of such a layout ascends (`Posted.ascending`). Every video byte below the
total of RAR volumes lies in a segment; of a single file only those below the end of the last
segment do, since the total may be the size in the `=ybegin` header (`Posted.covered`).
-/

namespace StremioNzb.Streaming

open StremioNzb.Lib

inductive Posted where
  | flat (segments : List Segment) (serverIndex stride : Nat) (fileSize : Option Nat)
  | rar (volumes : List RarVolumeGeom)
      (data_le : ∀ v ∈ volumes, v.dataStart + v.dataSize ≤ v.size)

namespace Posted

def layout : Posted → FileLayout
  | flat segments srv stride fs =>
    flatLayout (rebuildForDecodedStride (buildSegmentRefs segments srv) stride fs).1
      (rebuildForDecodedStride (buildSegmentRefs segments srv) stride fs).2
  | rar volumes _ => rarLayout volumes

/-- The video size. -/
def total : Posted → Nat
  | flat segments srv stride fs =>
    (rebuildForDecodedStride (buildSegmentRefs segments srv) stride fs).2
  | rar volumes _ => (buildRarLayout volumes).2.2

/-- The range up to `stop` lies in the segments. -/
def Covers (p : Posted) (stop : Nat) : Prop :=
  match p with
  | flat .. => stop < p.layout.assembledSize
  | rar .. => True

theorem contiguous (p : Posted) : Contiguous p.layout.segments := by
  cases p with
  | flat segments srv => exact contiguous_rebuild (contiguous_buildSegmentRefs segments srv)
  | rar => exact contiguous_rarLayout

theorem chunksContiguous (p : Posted) : ChunksContiguous p.layout.chunks := by
  cases p with
  | flat => exact chunksContiguous_flatLayout
  | rar => exact chunksContiguous_rarLayout

end Posted

/-- The mapping of the layout ascends. -/
def FileLayout.Ascending (l : FileLayout) : Prop :=
  ∀ v v' a a', v < v' → l.videoToAssembled v = some a → l.videoToAssembled v' = some a' → a < a'

theorem flatLayout_map {segs : List SegmentRef} {total v a : Nat} :
    (flatLayout segs total).videoToAssembled v = some a ↔ v < total ∧ a = v := by
  unfold flatLayout FileLayout.videoToAssembled
  by_cases hv : v < total <;> simp [DataChunk.holds, hv, eq_comm]

/-- A mapped byte of RAR volumes lies in the data region of its volume. -/
theorem rarLayout_map {vs : List RarVolumeGeom} {v a : Nat}
    (ha : (rarLayout vs).videoToAssembled v = some a) :
    ∃ k vol, vs[k]? = some vol ∧ blockStart RarVolumeGeom.dataSize vs k ≤ v ∧
      v < blockStart RarVolumeGeom.dataSize vs k + vol.dataSize ∧
      a = blockStart RarVolumeGeom.size vs k + vol.dataStart +
        (v - blockStart RarVolumeGeom.dataSize vs k) := by
  rw [FileLayout.videoToAssembled, Option.map_eq_some_iff] at ha
  obtain ⟨c, hf, rfl⟩ := ha
  obtain ⟨k, hk⟩ := List.mem_iff_getElem?.mp (List.mem_of_find?_eq_some hf)
  have hv := List.find?_some hf
  simp only [DataChunk.holds, decide_eq_true_eq] at hv
  obtain ⟨vol, hvol, rfl⟩ := rarLayout_chunk_inv hk
  exact ⟨k, vol, hvol, hv.1, hv.2, rfl⟩

theorem rarLayout_ascending {vs : List RarVolumeGeom}
    (hdata : ∀ v ∈ vs, v.dataStart + v.dataSize ≤ v.size) : (rarLayout vs).Ascending := by
  intro v v' a a' hlt ha ha'
  obtain ⟨k, vol, hk, h1, h2, rfl⟩ := rarLayout_map ha
  obtain ⟨k', vol', hk', h1', h2', rfl⟩ := rarLayout_map ha'
  have hvol := hdata vol (List.mem_of_getElem? hk)
  rcases Nat.lt_trichotomy k k' with hkk | rfl | hkk
  · have : blockStart RarVolumeGeom.size vs k + vol.size ≤ blockStart RarVolumeGeom.size vs k' :=
      blockStart_add_le hk hkk
    omega
  · obtain rfl : vol = vol' := Option.some.inj (hk.symm.trans hk')
    omega
  · have : blockStart RarVolumeGeom.dataSize vs k' + vol'.dataSize ≤
        blockStart RarVolumeGeom.dataSize vs k := blockStart_add_le hk' hkk
    omega

theorem Posted.ascending (p : Posted) : p.layout.Ascending := by
  cases p with
  | flat segments srv stride fs =>
    intro v v' a a' hlt ha ha'
    obtain ⟨-, rfl⟩ := flatLayout_map.mp ha
    obtain ⟨-, rfl⟩ := flatLayout_map.mp ha'
    exact hlt
  | rar volumes hdata => exact rarLayout_ascending hdata

theorem Posted.assembledSize_eq (p : Posted) :
    p.layout.assembledSize = assembledEnd p.layout.segments := p.contiguous.assembledSize

/-- **Each byte of a covered range lies in the assembled stream.** -/
theorem Posted.covered (p : Posted) {stop v : Nat} (hstop : stop < p.total) (hc : p.Covers stop)
    (hv : v ≤ stop) :
    ∃ a, p.layout.videoToAssembled v = some a ∧ a < assembledEnd p.layout.segments := by
  cases p with
  | flat segments srv stride fs =>
    rw [← assembledSize_eq]
    refine ⟨v, flatLayout_map.mpr ⟨?_, rfl⟩, hv.trans_lt hc⟩
    exact hv.trans_lt hstop
  | rar vs hdata =>
    have hlt : v < videoEnd (rarLayout vs).chunks := by
      rw [videoEnd_rarLayout, ← buildRarLayout_total]
      exact hv.trans_lt hstop
    obtain ⟨_, _, -, -, -, ha, -⟩ := FileLayout.chunk_at chunksContiguous_rarLayout hlt
    refine ⟨_, ha, ?_⟩
    obtain ⟨k, vol, hk, h1, h2, he⟩ := rarLayout_map ha
    have hvol := hdata vol (List.mem_of_getElem? hk)
    have : blockStart RarVolumeGeom.size vs k + vol.size ≤ blockTotal RarVolumeGeom.size vs :=
      blockStart_add_le_total hk
    show _ < assembledEnd (rarLayout vs).segments
    rw [he, assembledEnd_rarLayout]
    omega

/-- The range is covered where its last byte lies in the assembled stream. -/
theorem Posted.covers_of_last (p : Posted) {stop a : Nat}
    (ha : p.layout.videoToAssembled stop = some a) (hlt : a < assembledEnd p.layout.segments) :
    p.Covers stop := by
  cases p with
  | flat segments srv stride fs =>
    obtain ⟨-, rfl⟩ := flatLayout_map.mp ha
    show a < (flat segments srv stride fs).layout.assembledSize
    rwa [assembledSize_eq]
  | rar => trivial

end StremioNzb.Streaming

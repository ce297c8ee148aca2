import StremioNzb.Streaming.Layout

/-!
# RAR byte mapping

A RAR volume posted in parts of one size, the last one no larger, with the data region of the
embedded file inside it. Through the layout that `buildRarLayout` builds from such volumes every
video byte is read from the article and the place where it was posted (`readByte_data`), so the
video is the concatenation of the data regions (`rar_mapping_exact`).
-/

namespace StremioNzb.Streaming

open StremioNzb.Lib

/-- A posted article with its decoded payload. -/
structure PostedArticle where
  messageId : String
  payload : List UInt8
  deriving DecidableEq, Repr

abbrev PostedArticle.size (a : PostedArticle) : Nat := a.payload.length

/-- A volume posted in parts of `stride` bytes but for the last, which is no larger. -/
structure PostedVolume where
  stride : Nat
  /-- The parts before the last. -/
  full : List PostedArticle
  last : PostedArticle
  dataStart : Nat
  dataSize : Nat
  full_size : ∀ a ∈ full, a.size = stride
  last_pos : 0 < last.size
  last_le : last.size ≤ stride
  data_le : dataStart + dataSize ≤ full.length * stride + last.size

namespace PostedVolume
variable (v : PostedVolume)

def parts : List PostedArticle := v.full ++ [v.last]

/-- The bytes of the volume. -/
def content : List UInt8 := v.parts.flatMap (·.payload)

/-- The part of the embedded file that the volume carries. -/
def dataRegion : List UInt8 := (v.content.drop v.dataStart).take v.dataSize

/-- What preflight learns of the volume from its first part: the stride, which may be that of the
only part, and the size in its header. -/
def geom : RarVolumeGeom where
  messageIds := v.parts.map (·.messageId)
  decodedStride := v.stride
  decodedFileSize := some v.content.length
  dataStart := v.dataStart
  dataSize := v.dataSize

theorem content_eq_total : v.content.length = blockTotal PostedArticle.size v.parts :=
  length_flatMap_block fun _ _ => rfl

theorem content_length : v.content.length = v.full.length * v.stride + v.last.size := by
  rw [content_eq_total, parts, blockTotal_append, blockTotal_uniform v.full_size]
  rfl

theorem geom_length : v.geom.messageIds.length = v.full.length + 1 := by
  simp [geom, parts]

theorem volTotal_geom : v.geom.volTotal = v.content.length := by
  have hlen := v.content_length
  have hpos := v.last_pos
  unfold RarVolumeGeom.volTotal
  rw [v.geom_length]
  show (if v.content.length > 0 ∧ v.content.length ≥ (v.full.length + 1 - 1) * v.stride
    then _ else _) = _
  rw [Nat.add_sub_cancel, if_pos (by omega)]

/-- **The parts are given their posted sizes.** -/
theorem partSizes_geom : v.geom.partSizes = v.parts.map PostedArticle.size := by
  have hlen := v.content_length
  refine List.ext_getElem (by simp [RarVolumeGeom.partSizes, geom]) fun i h1 h2 => ?_
  have hi : i < v.full.length + 1 := by simpa [parts] using h2
  simp only [RarVolumeGeom.partSizes, List.getElem_mapIdx, List.getElem_map]
  unfold RarVolumeGeom.partBytes
  rw [v.geom_length, v.volTotal_geom]
  by_cases hf : i < v.full.length
  · show (if i + 1 < v.full.length + 1 then v.stride else _) = _
    rw [if_pos (by omega)]
    simp only [parts, List.getElem_append_left hf]
    exact (v.full_size _ (List.getElem_mem hf)).symm
  · obtain rfl : i = v.full.length := by omega
    show (if v.full.length + 1 < v.full.length + 1 then _
      else _ - (v.full.length + 1 - 1) * v.stride) = _
    rw [if_neg (by omega), Nat.add_sub_cancel]
    simp only [parts, List.getElem_concat_length]
    omega

theorem size_geom : v.geom.size = v.content.length := by
  rw [RarVolumeGeom.size, v.partSizes_geom, content_eq_total, blockTotal]

theorem parts_pos : ∀ a ∈ v.parts, 0 < a.size := by
  have h1 := v.last_pos
  have h2 := v.last_le
  intro a ha
  rcases List.mem_append.mp ha with ha | ha
  · rw [v.full_size a ha]
    omega
  · obtain rfl : a = v.last := by simpa using ha
    exact h1

theorem dataRegion_length : v.dataRegion.length = v.dataSize := by
  have := v.data_le
  have := v.content_length
  simp only [dataRegion, List.length_take, List.length_drop]
  omega

theorem dataRegion_getElem? {o : Nat} (h : o < v.dataSize) :
    v.dataRegion[o]? = v.content[v.dataStart + o]? := by
  rw [dataRegion, List.getElem?_take_of_lt h, List.getElem?_drop]

end PostedVolume

/-- Byte `v` of the video, from the articles of the segments. -/
def readByte (bs : SegmentSearch) (l : FileLayout) (articles : List PostedArticle) (v : Nat) :
    Option UInt8 := do
  let a ← l.videoToAssembled v
  let i ← findSegmentForByte bs l.segments a
  let seg ← l.segments[i]?
  let article ← articles[i]?
  article.payload[a - seg.offsetInStream]?

section
variable (vs : List PostedVolume)

abbrev postedArticles : List PostedArticle := vs.flatMap (·.parts)

abbrev postedLayout : FileLayout := rarLayout (vs.map (·.geom))

theorem postedLayout_sizes :
    (postedLayout vs).segments.map (·.bytes) = (postedArticles vs).map PostedArticle.size := by
  apply (buildRarLayout_go_bytes _ 0 0).trans
  rw [List.flatMap_map, List.map_flatMap]
  exact List.flatMap_congr fun v _ => v.partSizes_geom

theorem postedLayout_ids :
    (postedLayout vs).segments.map (·.messageId) = (postedArticles vs).map (·.messageId) := by
  apply (buildRarLayout_go_messageId _ 0 0).trans
  rw [List.flatMap_map, List.map_flatMap]
  rfl

/-- What was posted, volume after volume. -/
abbrev postedBytes : List UInt8 := vs.flatMap (·.content)

theorem postedArticles_payload : (postedArticles vs).flatMap (·.payload) = postedBytes vs :=
  List.flatMap_assoc

theorem assembledEnd_posted :
    assembledEnd (postedLayout vs).segments = blockTotal (·.content.length) vs := by
  rw [assembledEnd_rarLayout, blockTotal, blockTotal, List.map_map]
  exact congrArg List.sum (List.map_congr_left fun v _ => v.size_geom)

end

variable (bs : SegmentSearch) {vs : List PostedVolume} {vol : PostedVolume} {a k v : Nat}

theorem postedArticles_getElem? {i o : Nat} {article : PostedArticle}
    (h : (postedArticles vs)[i]? = some article) (ho : o < article.size) :
    (postedBytes vs)[blockStart PostedArticle.size (postedArticles vs) i + o]? =
      article.payload[o]? := by
  rw [← postedArticles_payload]
  exact getElem?_flatMap_block (fun _ _ => rfl) h ho

/-- The assembled bytes of a volume are its content. -/
theorem postedBytes_getElem? (hv : vs[k]? = some vol) {o : Nat} (ho : o < vol.content.length) :
    (postedBytes vs)[blockStart (·.content.length) vs k + o]? = vol.content[o]? :=
  getElem?_flatMap_block (fun _ _ => rfl) hv ho

/-- **Every assembled byte is in the article of its segment**, at its offset there. -/
theorem lookup_posted (ha : a < assembledEnd (postedLayout vs).segments) :
    ∃ (i : Nat) (seg : SegmentRef) (article : PostedArticle),
      findSegmentForByte bs (postedLayout vs).segments a = some i ∧
      (postedLayout vs).segments[i]? = some seg ∧ (postedArticles vs)[i]? = some article ∧
      seg.messageId = article.messageId ∧ seg.offsetInStream ≤ a ∧
      article.payload[a - seg.offsetInStream]? = (postedBytes vs)[a]? := by
  have hlaid : Contiguous (postedLayout vs).segments := contiguous_rarLayout
  obtain ⟨i, seg, hi, h1, h2⟩ := exists_block ha
  have hsize := congrArg (·[i]?) (postedLayout_sizes vs)
  have hid := congrArg (·[i]?) (postedLayout_ids vs)
  simp only [List.getElem?_map, hi, Option.map_some] at hsize hid
  obtain ⟨article, hart, hsize⟩ := Option.map_eq_some_iff.mp hsize.symm
  rw [hart, Option.map_some, Option.some.injEq] at hid
  have hpos : ∀ z ∈ (postedLayout vs).segments, z.offsetInStream = a → 0 < z.bytes := by
    intro z hz _
    have hz : z.bytes ∈ (postedArticles vs).map PostedArticle.size :=
      postedLayout_sizes vs ▸ List.mem_map_of_mem hz
    obtain ⟨b, hb, hzb⟩ := List.mem_map.mp hz
    obtain ⟨w, -, hw⟩ := List.mem_flatMap.mp hb
    exact hzb ▸ w.parts_pos b hw
  rw [← hlaid i seg hi] at h1 h2
  refine ⟨i, seg, article, findSegmentForByte_eq_some hlaid hi h1 h2 hpos, hi, hart, hid, h1, ?_⟩
  have ho : a - seg.offsetInStream < article.size := by
    rw [hsize]
    omega
  rw [← postedArticles_getElem? hart ho, ← blockStart_congr (postedLayout_sizes vs),
    ← hlaid i seg hi, Nat.add_sub_cancel' h1]

/-- **A video byte is read where its volume posted it.** -/
theorem readByte_data (hv : vs[k]? = some vol) {o : Nat} (ho : o < vol.dataSize) :
    ∃ (i : Nat) (seg : SegmentRef) (article : PostedArticle) (a : Nat),
      (postedLayout vs).videoToAssembled (blockStart PostedVolume.dataSize vs k + o) = some a ∧
      findSegmentForByte bs (postedLayout vs).segments a = some i ∧
      (postedLayout vs).segments[i]? = some seg ∧ (postedArticles vs)[i]? = some article ∧
      seg.messageId = article.messageId ∧ seg.offsetInStream ≤ a ∧
      article.payload[a - seg.offsetInStream]? = vol.content[vol.dataStart + o]? := by
  have hdata := vol.data_le
  rw [← vol.content_length] at hdata
  have hgeom : (vs.map (·.geom))[k]? = some vol.geom := by rw [List.getElem?_map, hv]; rfl
  have hvideo : blockStart RarVolumeGeom.dataSize (vs.map (·.geom)) k =
      blockStart PostedVolume.dataSize vs k := blockStart_congr (by rw [List.map_map]; rfl) k
  have hstart : blockStart RarVolumeGeom.size (vs.map (·.geom)) k =
      blockStart (·.content.length) vs k := by
    refine blockStart_congr ?_ k
    rw [List.map_map]
    exact List.map_congr_left fun v _ => v.size_geom
  have hchunk := rarLayout_chunk hgeom
  rw [hvideo, hstart] at hchunk
  have ha : blockStart (·.content.length) vs k + vol.dataStart + o <
      assembledEnd (postedLayout vs).segments := by
    have : blockStart (·.content.length) vs k + vol.content.length ≤ _ := blockStart_add_le_total hv
    rw [assembledEnd_posted]
    omega
  obtain ⟨i, seg, article, h1, h2, h3, h4, h5, h6⟩ := lookup_posted bs ha
  refine ⟨i, seg, article, _, ?_, h1, h2, h3, h4, h5, ?_⟩
  · rw [FileLayout.videoToAssembled, FileLayout.find_chunk chunksContiguous_rarLayout hchunk
      (Nat.le_add_right _ _) (Nat.add_lt_add_left ho _), Option.map_some, Nat.add_sub_cancel_left]
    rfl
  · rw [h6, Nat.add_assoc, postedBytes_getElem? hv (by omega)]

theorem readByte_eq (hv : vs[k]? = some vol) {o : Nat} (ho : o < vol.dataSize) :
    readByte bs (postedLayout vs) (postedArticles vs) (blockStart PostedVolume.dataSize vs k + o) =
      vol.dataRegion[o]? := by
  obtain ⟨i, seg, article, a, h1, h2, h3, h4, -, -, h5⟩ := readByte_data bs hv ho
  unfold readByte
  simp only [h1, h2, h3, h4, Option.bind_eq_bind, Option.bind_some]
  rw [h5, vol.dataRegion_getElem? ho]

theorem videoTotal_posted :
    (buildRarLayout (vs.map (·.geom))).2.2 = blockTotal PostedVolume.dataSize vs := by
  rw [buildRarLayout_total, blockTotal, List.map_map]
  rfl

theorem dataRegions_getElem? (hv : vs[k]? = some vol) {o : Nat} (ho : o < vol.dataSize) :
    (vs.flatMap (·.dataRegion))[blockStart PostedVolume.dataSize vs k + o]? =
      vol.dataRegion[o]? :=
  getElem?_flatMap_block (fun v _ => v.dataRegion_length) hv ho

/-- The video, read byte by byte, is the concatenation of the data regions. -/
theorem readAll_posted :
    (List.range (buildRarLayout (vs.map (·.geom))).2.2).map
      (readByte bs (postedLayout vs) (postedArticles vs)) =
        (vs.flatMap (·.dataRegion)).map some := by
  have hlen : (vs.flatMap (·.dataRegion)).length = blockTotal PostedVolume.dataSize vs :=
    length_flatMap_block fun v _ => v.dataRegion_length
  refine List.ext_getElem? fun v => ?_
  rw [videoTotal_posted, List.getElem?_map, List.getElem?_map]
  by_cases hv : v < blockTotal PostedVolume.dataSize vs
  · obtain ⟨k, vol, hk, h1, h2⟩ := exists_block hv
    obtain ⟨o, rfl⟩ : ∃ o, v = blockStart PostedVolume.dataSize vs k + o :=
      ⟨v - blockStart PostedVolume.dataSize vs k, by omega⟩
    have ho : o < vol.dataSize := by omega
    have hsome : o < vol.dataRegion.length := vol.dataRegion_length ▸ ho
    rw [List.getElem?_range hv, Option.map_some, readByte_eq bs hk ho, dataRegions_getElem? hk ho,
      List.getElem?_eq_getElem hsome, Option.map_some]
  · rw [List.getElem?_eq_none (by simpa using hv), List.getElem?_eq_none (by omega)]
    rfl

/-- **RAR byte mapping is exact.** Every video byte is found in the article of one volume, at
the place of byte `dataStart + (v - video start)` of that volume; the bytes in order are the
data regions of the volumes in order; the assembled stream is as long as the volumes. -/
theorem rar_mapping_exact (vs : List PostedVolume) :
    (∀ v < (buildRarLayout (vs.map (·.geom))).2.2,
      ∃ (k : Nat) (vol : PostedVolume) (i : Nat) (seg : SegmentRef) (article : PostedArticle)
        (a : Nat) (byte : UInt8),
        vs[k]? = some vol ∧ blockStart PostedVolume.dataSize vs k ≤ v ∧
        v < blockStart PostedVolume.dataSize vs k + vol.dataSize ∧
        (postedLayout vs).videoToAssembled v = some a ∧
        findSegmentForByte bs (postedLayout vs).segments a = some i ∧
        (postedLayout vs).segments[i]? = some seg ∧ (postedArticles vs)[i]? = some article ∧
        seg.messageId = article.messageId ∧ seg.offsetInStream ≤ a ∧
        article.payload[a - seg.offsetInStream]? = some byte ∧
        vol.content[vol.dataStart + (v - blockStart PostedVolume.dataSize vs k)]? = some byte) ∧
      (List.range (buildRarLayout (vs.map (·.geom))).2.2).map
          (readByte bs (postedLayout vs) (postedArticles vs)) =
        (vs.flatMap (·.dataRegion)).map some ∧
      (postedLayout vs).assembledSize = (vs.map (·.content.length)).sum := by
  refine ⟨fun v hv => ?_, readAll_posted bs, ?_⟩
  · rw [videoTotal_posted] at hv
    obtain ⟨k, vol, hk, h1, h2⟩ := exists_block hv
    have ho : v - blockStart PostedVolume.dataSize vs k < vol.dataSize := by omega
    obtain ⟨i, seg, article, a, h3, h4, h5, h6, h7, h8, h9⟩ := readByte_data bs hk ho
    rw [Nat.add_sub_cancel' h1] at h3
    have hlt : vol.dataStart + (v - blockStart PostedVolume.dataSize vs k) <
        vol.content.length := by
      have := vol.data_le
      have := vol.content_length
      omega
    have hbyte := List.getElem?_eq_getElem hlt
    exact ⟨k, vol, i, seg, article, a, _, hk, h1, h2, h3, h4, h5, h6, h7, h8, h9.trans hbyte, hbyte⟩
  · rw [Contiguous.assembledSize contiguous_rarLayout]
    exact assembledEnd_posted vs

/-- Two volumes of two and one parts, a header byte before the data of each. -/
example : (buildRarLayout ([⟨2, [⟨"a", [1, 2]⟩], ⟨"b", [3]⟩, 1, 2, by decide, by decide, by decide,
    by decide⟩, ⟨2, [], ⟨"c", [4, 5]⟩, 1, 1, by decide, by decide, by decide, by decide⟩].map
    PostedVolume.geom)).2.1 = [⟨0, 2, 1⟩, ⟨2, 1, 4⟩] := by decide

end StremioNzb.Streaming

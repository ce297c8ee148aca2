import StremioNzb.Streaming.CheckedLayout
import StremioNzb.Streaming.Mappable

/-!
# Header fields that wrap

`build_rar_layout` and the lookups on what it builds, with every `u64` sum and product checked. The
fields come from the headers of a post, and the only thing preflight does with the total of the
`data_size` fields is to log a mismatch, so nothing rejects a post whose sums wrap
(`wrapping_post_committed`). `HeadersFit` is the exact condition on the headers under which every
result is the mathematical one (`unwrapped_iff`).
-/

namespace StremioNzb.Streaming

open StremioNzb.Lib

/-! ## The builder, checked -/

namespace RarVolumeGeom

def volTotalChecked (v : RarVolumeGeom) : Option Nat :=
  let n := v.messageIds.length
  match v.decodedFileSize with
  | some fs =>
    if fs > 0 then do
      let least ← checkedMul 64 (n - 1) v.decodedStride
      if fs ≥ least then return fs else checkedMul 64 n v.decodedStride
    else checkedMul 64 n v.decodedStride
  | none => checkedMul 64 n v.decodedStride

def partBytesChecked (v : RarVolumeGeom) (volTotal i : Nat) : Option Nat :=
  let n := v.messageIds.length
  if i + 1 < n then some v.decodedStride
  else (checkedMul 64 (n - 1) v.decodedStride).map fun before => volTotal - before

def segmentsFromChecked (v : RarVolumeGeom) (volTotal : Nat) : List String → Nat → Nat →
    Option (List SegmentRef × Nat)
  | [], _, assembled => some ([], assembled)
  | msg :: msgs, i, assembled => do
    let bytes ← v.partBytesChecked volTotal i
    let next ← checkedAdd 64 assembled bytes
    let (rest, stop) ← v.segmentsFromChecked volTotal msgs (i + 1) next
    return (⟨0, msg, bytes, assembled⟩ :: rest, stop)

end RarVolumeGeom

def buildRarLayoutChecked (volumes : List RarVolumeGeom) :
    Option (List SegmentRef × List DataChunk × Nat) :=
  go volumes 0 0
where
  go : List RarVolumeGeom → Nat → Nat → Option (List SegmentRef × List DataChunk × Nat)
    | [], _, video => some ([], [], video)
    | v :: vs, assembled, video => do
      let volTotal ← v.volTotalChecked
      let (segs, stop) ← v.segmentsFromChecked volTotal v.messageIds 0 assembled
      let assembledStart ← checkedAdd 64 assembled v.dataStart
      let next ← checkedAdd 64 video v.dataSize
      let (segments, chunks, total) ← go vs stop next
      return (segs ++ segments, ⟨video, v.dataSize, assembledStart⟩ :: chunks, total)

/-- Everything computed for the volumes, and then for the bytes of the stream, is exact: the layout,
the total of the data sizes, the size of the cache file and both lookups of each byte. -/
structure Unwrapped (volumes : List RarVolumeGeom) (totalSize : Nat) : Prop where
  layout : buildRarLayoutChecked volumes = some (buildRarLayout volumes)
  summed : checkedSum 64 0 (volumes.map (·.dataSize)) =
    some (blockTotal RarVolumeGeom.dataSize volumes)
  assembledSize : (rarLayout volumes).assembledSizeChecked = some (rarLayout volumes).assembledSize
  lookups : ∀ v < totalSize,
    (rarLayout volumes).videoToAssembledChecked v = some ((rarLayout volumes).videoToAssembled v) ∧
    (rarLayout volumes).chunkRemainingChecked v = some ((rarLayout volumes).chunkRemaining v)

/-! ## Where the builder is exact -/

namespace RarVolumeGeom

variable {v : RarVolumeGeom} {volTotal a i : Nat} {msgs : List String}

/-- Where the product of the full parts fits, the size of the volume is exact if and only if the
other product fits, when it is computed. -/
theorem volTotalChecked_eq (hfull : (v.messageIds.length - 1) * v.decodedStride < 2 ^ 64) :
    (v.volTotalChecked = some volTotal ↔ v.StridesFit ∧ volTotal = v.volTotal) := by
  have hmul := checkedMul_of_lt hfull
  unfold volTotalChecked RarVolumeGeom.volTotal
  simp only
  cases hf : v.decodedFileSize with
  | none =>
    rw [checkedMul_eq_some]
    exact ⟨fun h => ⟨stridesFit_of_lt h.1, h.2.symm⟩,
      fun h => ⟨h.1.fallback (by simp [hf]), h.2.symm⟩⟩
  | some fs =>
    simp only [hmul, Option.bind_eq_bind, Option.bind_some]
    by_cases h : fs > 0 ∧ fs ≥ (v.messageIds.length - 1) * v.decodedStride
    · rw [if_pos h, if_pos h.1, if_pos h.2]
      have hfit : v.StridesFit := ⟨hfull, fun hn => absurd (hn fs hf h.1) (not_lt.mpr h.2)⟩
      exact ⟨fun he => ⟨hfit, (Option.some.inj he).symm⟩, fun he => congrArg some he.2.symm⟩
    · have hshort := h
      have hwhole : (v.messageIds.length * v.decodedStride < 2 ^ 64 ∧
          v.messageIds.length * v.decodedStride = volTotal) ↔
          v.StridesFit ∧ volTotal = v.messageIds.length * v.decodedStride := by
        refine ⟨fun h => ⟨stridesFit_of_lt h.1, h.2.symm⟩, fun h => ⟨?_, h.2.symm⟩⟩
        refine h.1.fallback fun t ht hpos => ?_
        rw [hf] at ht
        cases ht
        exact not_le.mp fun hge => hshort ⟨hpos, hge⟩
      rw [if_neg hshort, ← hwhole, ← checkedMul_eq_some]
      split
      · next hpos => rw [if_neg fun hge => hshort ⟨hpos, hge⟩]
      · exact Iff.rfl

theorem partBytesChecked_eq (h : v.StridesFit) (i : Nat) :
    v.partBytesChecked v.volTotal i = some (v.partBytes i) := by
  simp only [partBytesChecked, partBytes, checkedMul_of_lt h.full]
  split <;> rfl

/-- The parts are exact if and only if they end in a word. -/
theorem segmentsFromChecked_eq (h : v.StridesFit) {r : List SegmentRef × Nat} :
    ∀ {msgs : List String} {i a : Nat}, a < 2 ^ 64 →
      (v.segmentsFromChecked v.volTotal msgs i a = some r ↔
        (v.segmentsFrom msgs i a).2 < 2 ^ 64 ∧ r = v.segmentsFrom msgs i a)
  | [], _, _, ha => by
    simp only [segmentsFromChecked, segmentsFrom, Option.some.injEq]
    exact ⟨fun hr => ⟨ha, hr.symm⟩, fun hr => hr.2.symm⟩
  | msg :: msgs, i, a, ha => by
    have hstop := v.segmentsFrom_stop msgs (i + 1) (a + v.partBytes i)
    rw [segmentsFromChecked, partBytesChecked_eq h]
    simp only [Option.bind_eq_bind, Option.bind_some, segmentsFrom]
    by_cases hlt : a + v.partBytes i < 2 ^ 64
    · rw [checkedAdd_of_lt hlt, Option.bind_some, Option.bind_eq_some_iff]
      constructor
      · rintro ⟨r', hr', he⟩
        obtain ⟨hlt', rfl⟩ := (segmentsFromChecked_eq h hlt).mp hr'
        exact ⟨hlt', (Option.some.inj he).symm⟩
      · rintro ⟨hlt', rfl⟩
        exact ⟨_, (segmentsFromChecked_eq h hlt).mpr ⟨hlt', rfl⟩, rfl⟩
    · rw [checkedAdd, if_neg hlt, Option.bind_none]
      exact iff_of_false (Option.some_ne_none _).symm fun hr => by have := hr.1; omega

/-- The last part of a volume takes the product of the full ones. -/
theorem full_of_segmentsFromChecked {r : List SegmentRef × Nat} :
    ∀ {msgs : List String} {i a : Nat}, i + msgs.length = v.messageIds.length → msgs ≠ [] →
      v.segmentsFromChecked volTotal msgs i a = some r →
        (v.messageIds.length - 1) * v.decodedStride < 2 ^ 64
  | [], _, _, _, hne, _ => absurd rfl hne
  | msg :: msgs, i, a, hlen, _, hr => by
    rw [segmentsFromChecked] at hr
    obtain ⟨bytes, hb, hr⟩ := Option.bind_eq_some_iff.mp hr
    obtain ⟨next, -, hr⟩ := Option.bind_eq_some_iff.mp hr
    obtain ⟨r', hr', -⟩ := Option.bind_eq_some_iff.mp hr
    rw [List.length_cons] at hlen
    by_cases hlast : i + 1 < v.messageIds.length
    · refine full_of_segmentsFromChecked (by omega) (fun h0 => ?_) hr'
      rw [h0, List.length_nil] at hlen
      omega
    · simp only [partBytesChecked, if_neg hlast] at hb
      obtain ⟨before, hbefore, -⟩ := Option.map_eq_some_iff.mp hb
      exact (checkedMul_eq_some.mp hbefore).1

end RarVolumeGeom

variable {v : RarVolumeGeom} {vs : List RarVolumeGeom} {a w : Nat}

/-- **The builder is exact if and only if its sums fit.** -/
theorem buildRarLayoutChecked_go_eq {r : List SegmentRef × List DataChunk × Nat} :
    ∀ {vs : List RarVolumeGeom} {a w : Nat}, a < 2 ^ 64 → w < 2 ^ 64 →
      (buildRarLayoutChecked.go vs a w = some r ↔
        BuildFits vs a w ∧ r = buildRarLayout.go vs a w)
  | [], a, w, ha, hw => by
    simp only [buildRarLayoutChecked.go, buildRarLayout.go, Option.some.injEq]
    exact ⟨fun hr => ⟨buildFits_nil ha hw, hr.symm⟩, fun hr => hr.2.symm⟩
  | v :: vs, a, w, ha, hw => by
    have hstop : (v.segmentsFrom v.messageIds 0 a).2 = a + v.size := by
      rw [v.segmentsFrom_stop, v.parts_total]
    rw [buildRarLayout_go_cons, buildFits_cons, buildRarLayoutChecked.go]
    constructor
    · intro hr
      obtain ⟨volTotal, ht, hr⟩ := Option.bind_eq_some_iff.mp hr
      obtain ⟨⟨segs, stop⟩, hsegs, hr⟩ := Option.bind_eq_some_iff.mp hr
      obtain ⟨start, hst, hr⟩ := Option.bind_eq_some_iff.mp hr
      obtain ⟨next, hnext, hr⟩ := Option.bind_eq_some_iff.mp hr
      obtain ⟨rest, hrest, hr⟩ := Option.bind_eq_some_iff.mp hr
      have hfull : (v.messageIds.length - 1) * v.decodedStride < 2 ^ 64 := by
        by_cases h0 : v.messageIds = []
        · simp [h0]
        · exact RarVolumeGeom.full_of_segmentsFromChecked (Nat.zero_add _) h0 hsegs
      obtain ⟨hs, rfl⟩ := (RarVolumeGeom.volTotalChecked_eq hfull).mp ht
      obtain ⟨hlt, heq⟩ := (RarVolumeGeom.segmentsFromChecked_eq hs ha).mp hsegs
      obtain ⟨hdata, rfl⟩ := checkedAdd_eq_some.mp hnext
      obtain ⟨hstart, rfl⟩ := checkedAdd_eq_some.mp hst
      obtain rfl : segs = v.parts a := congrArg Prod.fst heq
      obtain rfl : stop = a + v.size := (congrArg Prod.snd heq).trans hstop
      obtain ⟨hfit, rfl⟩ := (buildRarLayoutChecked_go_eq (hstop ▸ hlt) hdata).mp hrest
      exact ⟨⟨hs, hstart, hfit⟩, (Option.some.inj hr).symm⟩
    · rintro ⟨⟨hs, hstart, hfit⟩, rfl⟩
      have hsizes := hfit.sizes
      have hdata := hfit.data
      have ht := (RarVolumeGeom.volTotalChecked_eq hs.full).mpr ⟨hs, rfl⟩
      have hsegs := (RarVolumeGeom.segmentsFromChecked_eq hs ha).mpr
        ⟨by rw [hstop]; omega, rfl⟩
      have hrest : buildRarLayoutChecked.go vs (a + v.size) (w + v.dataSize) =
          some (buildRarLayout.go vs (a + v.size) (w + v.dataSize)) :=
        (buildRarLayoutChecked_go_eq (by omega) (by omega)).mpr ⟨hfit, rfl⟩
      simp only [ht, hsegs, Option.bind_eq_bind, Option.bind_some, hstop, checkedAdd_of_lt hstart,
        checkedAdd_of_lt (show w + v.dataSize < 2 ^ 64 by omega), hrest]
      rfl

/-! ## Where the lookups are exact -/

/-- A lookup that does not wrap has not wrapped in the chunk it found. -/
theorem image_lt_of_checked {cs : List DataChunk} {c : DataChunk} {x : Nat} {r : Option Nat}
    (hr : FileLayout.videoToAssembledChecked.go x cs = some r)
    (hf : cs.find? (·.holds x) = some c) : c.assembledStart + (x - c.videoStart) < 2 ^ 64 := by
  induction cs with
  | nil => simp at hf
  | cons d cs ih =>
    rw [FileLayout.videoToAssembledChecked.go] at hr
    rw [List.find?_cons] at hf
    cases hh : d.holds x with
    | true =>
      obtain rfl : d = c := by simpa [hh] using hf
      obtain ⟨h1, h2⟩ := DataChunk.holds_iff.mp hh
      rw [if_pos h1] at hr
      obtain ⟨stop, hstop, hr⟩ := Option.bind_eq_some_iff.mp hr
      obtain ⟨-, rfl⟩ := checkedAdd_eq_some.mp hstop
      rw [if_pos h2] at hr
      obtain ⟨offset, ho, hr⟩ := Option.bind_eq_some_iff.mp hr
      obtain ⟨-, rfl⟩ := checkedSub_eq_some.mp ho
      obtain ⟨assembled, ha, -⟩ := Option.bind_eq_some_iff.mp hr
      exact (checkedAdd_eq_some.mp ha).1
    | false =>
      have hn : ¬ (d.videoStart ≤ x ∧ x < d.videoStart + d.length) := fun hn => by
        rw [DataChunk.holds_iff.mpr hn] at hh
        exact absurd hh (by decide)
      refine ih ?_ (by simpa [hh] using hf)
      split at hr
      · next hge =>
        obtain ⟨stop, hstop, hr⟩ := Option.bind_eq_some_iff.mp hr
        obtain ⟨-, rfl⟩ := checkedAdd_eq_some.mp hstop
        rwa [if_neg fun hlt => hn ⟨hge, hlt⟩] at hr
      · exact hr

variable {totalSize : Nat}

theorem buildFits_of_layout
    (h : buildRarLayoutChecked vs = some (buildRarLayout vs)) : BuildFits vs 0 0 :=
  ((buildRarLayoutChecked_go_eq (by decide) (by decide)).mp h).1

/-- A chunk of the volumes ends in a word. -/
theorem BuildFits.chunk_lt (h : BuildFits vs 0 0) :
    ∀ c ∈ (rarLayout vs).chunks, c.videoStart + c.length < 2 ^ 64 := by
  intro c hc
  obtain ⟨k, hk⟩ := List.mem_iff_getElem?.mp hc
  have hle := chunksContiguous_rarLayout.stop_le_end hk
  have hdata := h.data
  rw [videoEnd_rarLayout] at hle
  omega

/-- Where the builder is exact, the lookups are so if and only if the images of the bytes of the
stream are words. -/
theorem BuildFits.lookups_iff (h : BuildFits vs 0 0) :
    (∀ x < totalSize,
      (rarLayout vs).videoToAssembledChecked x = some ((rarLayout vs).videoToAssembled x) ∧
      (rarLayout vs).chunkRemainingChecked x = some ((rarLayout vs).chunkRemaining x)) ↔
    ∀ k v, vs[k]? = some v → blockStart RarVolumeGeom.size vs k + v.dataStart +
      max 1 (rarWithin vs totalSize k v) ≤ 2 ^ 64 := by
  constructor
  · intro hall k v hv
    have hstart := h.starts k v hv
    by_cases h0 : rarWithin vs totalSize k v = 0
    · omega
    · -- the last byte of the chunk that the stream plays
      have hc := rarLayout_chunk hv
      have hw : rarWithin vs totalSize k v =
        min v.dataSize (totalSize - blockStart RarVolumeGeom.dataSize vs k) := rfl
      have hlast := hall (blockStart RarVolumeGeom.dataSize vs k +
        (rarWithin vs totalSize k v - 1)) (by omega)
      have hf := FileLayout.find_chunk chunksContiguous_rarLayout hc
        (v := blockStart RarVolumeGeom.dataSize vs k + (rarWithin vs totalSize k v - 1))
        (Nat.le_add_right _ _) (by simp only; omega)
      have himage := image_lt_of_checked hlast.1 hf
      simp only at himage
      omega
  · intro hall x hx
    refine ⟨FileLayout.videoToAssembledChecked_go_eq h.chunk_lt fun c hc => ?_,
      FileLayout.chunkRemainingChecked_go_eq h.chunk_lt⟩
    obtain ⟨k, hk⟩ := List.mem_iff_getElem?.mp (List.mem_of_find?_eq_some hc)
    obtain ⟨v, hv, rfl⟩ := rarLayout_chunk_inv hk
    have hhold := List.find?_some hc
    obtain ⟨h1, h2⟩ := DataChunk.holds_iff.mp hhold
    have hregion := hall k v hv
    simp only [rarWithin] at h1 h2 hregion ⊢
    omega

/-- **Nothing wraps if and only if the headers fit.** -/
theorem unwrapped_iff_headersFit : Unwrapped vs totalSize ↔ HeadersFit vs totalSize := by
  constructor
  · intro h
    have hfit := buildFits_of_layout h.layout
    exact ⟨hfit.strides, by have := hfit.sizes; omega, by have := hfit.data; omega,
      hfit.lookups_iff.mp h.lookups⟩
  · intro h
    have hsizes := h.sizes
    have hfit := h.build
    refine ⟨(buildRarLayoutChecked_go_eq (by decide) (by decide)).mpr ⟨hfit, rfl⟩, ?_, ?_,
      hfit.lookups_iff.mpr h.regions⟩
    · refine (checkedSum_eq_some (by decide)).mpr ⟨?_, Nat.zero_add _⟩
      rw [Nat.zero_add]
      exact h.data
    · have hend := contiguous_rarLayout.assembledSize (l := rarLayout vs)
      rw [assembledEnd_rarLayout] at hend
      unfold FileLayout.assembledSizeChecked FileLayout.assembledSize at *
      cases hl : (rarLayout vs).segments.getLast? with
      | none => rfl
      | some s =>
        rw [hl] at hend
        simp only [Option.map_some, Option.getD_some, SegmentRef.stop] at hend ⊢
        exact checkedAdd_of_lt (by omega)

/-! ## What is committed -/

namespace RarVolumeGeom

theorem volTotal64_of_checked {t : Nat} (h : v.volTotalChecked = some t) : v.volTotal64 = t := by
  unfold volTotalChecked at h
  unfold volTotal64
  simp only at h ⊢
  cases hf : v.decodedFileSize with
  | none =>
    rw [hf] at h
    obtain ⟨hlt, rfl⟩ := checkedMul_eq_some.mp h
    exact mul64_eq hlt
  | some fs =>
    rw [hf] at h
    simp only at h ⊢
    split at h
    · next hpos =>
      obtain ⟨least, hl, h⟩ := Option.bind_eq_some_iff.mp h
      obtain ⟨hlt, rfl⟩ := checkedMul_eq_some.mp hl
      rw [mul64_eq hlt]
      split at h
      · next hge =>
        rw [if_pos ⟨hpos, hge⟩]
        exact Option.some.inj h
      · next hge =>
        rw [if_neg fun hh => hge hh.2]
        obtain ⟨hlt, rfl⟩ := checkedMul_eq_some.mp h
        exact mul64_eq hlt
    · next hpos =>
      rw [if_neg fun hh => hpos hh.1]
      obtain ⟨hlt, rfl⟩ := checkedMul_eq_some.mp h
      exact mul64_eq hlt

theorem partBytes64_of_checked {i b : Nat} (h : v.partBytesChecked v.volTotal64 i = some b) :
    v.partBytes64 i = b := by
  simp only [partBytesChecked] at h
  simp only [partBytes64]
  split_ifs at h ⊢ with hlt
  · exact Option.some.inj h
  · obtain ⟨before, hbefore, rfl⟩ := Option.map_eq_some_iff.mp h
    obtain ⟨hfull, rfl⟩ := checkedMul_eq_some.mp hbefore
    rw [mul64_eq hfull]

theorem segmentsFrom64_of_checked : ∀ {msgs : List String} {i a : Nat}
    {r : List SegmentRef × Nat}, v.segmentsFromChecked v.volTotal64 msgs i a = some r →
      v.segmentsFrom64 msgs i a = r
  | [], _, _, _, h => Option.some.inj h
  | msg :: msgs, i, a, r, h => by
    obtain ⟨bytes, hb, hnext⟩ := Option.bind_eq_some_iff.mp h
    obtain ⟨next, hn, hrest⟩ := Option.bind_eq_some_iff.mp hnext
    obtain ⟨rest, hr, hres⟩ := Option.bind_eq_some_iff.mp hrest
    obtain ⟨hlt, rfl⟩ := checkedAdd_eq_some.mp hn
    rw [segmentsFrom64, partBytes64_of_checked hb, add64_eq hlt, segmentsFrom64_of_checked hr]
    exact Option.some.inj hres

end RarVolumeGeom

/-- **Where the checked builder gives a layout, a release build gives it too.** -/
theorem buildRarLayout64_of_checked : ∀ {vs : List RarVolumeGeom} {a w : Nat}
    {r : List SegmentRef × List DataChunk × Nat}, buildRarLayoutChecked.go vs a w = some r →
      buildRarLayout64.go vs a w = r
  | [], _, _, _, h => Option.some.inj h
  | v :: vs, a, w, r, h => by
    obtain ⟨volTotal, ht, h1⟩ := Option.bind_eq_some_iff.mp h
    obtain ⟨⟨segs, stop⟩, hsegs, h2⟩ := Option.bind_eq_some_iff.mp h1
    obtain ⟨start, hst, h3⟩ := Option.bind_eq_some_iff.mp h2
    obtain ⟨next, hnext, h4⟩ := Option.bind_eq_some_iff.mp h3
    obtain ⟨rest, hrest, hres⟩ := Option.bind_eq_some_iff.mp h4
    obtain ⟨hstart, rfl⟩ := checkedAdd_eq_some.mp hst
    obtain ⟨hdata, rfl⟩ := checkedAdd_eq_some.mp hnext
    obtain rfl := RarVolumeGeom.volTotal64_of_checked ht
    rw [buildRarLayout64.go, RarVolumeGeom.segmentsFrom64_of_checked hsegs, add64_eq hdata,
      add64_eq hstart]
    simp only [buildRarLayout64_of_checked hrest]
    exact Option.some.inj hres

/-- **The layout arithmetic of a committed RAR post is exact** exactly where the headers fit; then
the stream has the layout that exact sums give. -/
theorem unwrapped_iff {net : Net} {nzbUrl token contentType : String} {active : ActiveStream}
    {volumes : List RarVolumeGeom} {totalSize : Nat}
    (h : net.probeCandidateInner nzbUrl token = .ok active)
    (hread : net.readPost nzbUrl = .ok (.rar volumes totalSize, contentType)) :
    (Unwrapped volumes active.totalSize ↔ HeadersFit volumes active.totalSize) ∧
    (HeadersFit volumes active.totalSize → active.fileLayout = rarLayout volumes) := by
  refine ⟨unwrapped_iff_headersFit, fun hfit => ?_⟩
  have hlayout := (unwrapped_iff_headersFit.mpr hfit).layout
  obtain ⟨⟨post, ct⟩, hpost, h⟩ := bind_eq_ok.mp h
  obtain ⟨cacheFile, -, h⟩ := bind_eq_ok.mp h
  rw [hread] at hpost
  cases hpost
  cases h
  have h64 : buildRarLayout64 volumes = buildRarLayout volumes :=
    buildRarLayout64_of_checked hlayout
  simp only [Post.layout, h64]
  rfl

/-! ## A post whose data starts at the end of the words -/

/-- A post of one volume, of one article that decodes to four bytes, whose header declares two data
bytes from `dataStart` on. -/
def oneVolume (dataStart : Nat) : Net where
  serverCount := 1
  fetchNzbXml _ := .ok ""
  parseNzb _ := .ok ⟨[⟨some "a.rar", true, false, 4, [⟨4, 1, "a"⟩]⟩], []⟩
  fetchArticle _ _ := .ok []
  redactLog := id
  decodeYenc _ := .ok ⟨[1, 2, 3, 4], some 4⟩
  parseAllHeaders _ _ := .ok [.file ⟨"a.mkv", false, 0, 2, dataStart, 2⟩]
  classes := ⟨Char.isDigit, Char.isAlphanum⟩
  root := "cache"
  openFile _ := .ok fun _ => 0

theorem oneVolume_volumes : (⟨Char.isDigit, Char.isAlphanum⟩ : CharClasses).findRarVolumes
    ⟨[⟨some "a.rar", true, false, 4, [⟨4, 1, "a"⟩]⟩], []⟩ =
      [⟨some "a.rar", true, false, 4, [⟨4, 1, "a"⟩]⟩] := by decide +kernel

theorem oneVolume_read (dataStart : Nat) : (oneVolume dataStart).readPost "url" =
    .ok (.rar [⟨["a"], 4, some 4, dataStart, 2⟩] 2, guessContentType "a.mkv") := by
  have hrar : (oneVolume dataStart).readRar ⟨[⟨some "a.rar", true, false, 4, [⟨4, 1, "a"⟩]⟩], []⟩ =
      .ok (.rar [⟨["a"], 4, some 4, dataStart, 2⟩] 2, guessContentType "a.mkv") := by
    unfold Net.readRar
    rw [show (oneVolume dataStart).classes.findRarVolumes _ = _ from oneVolume_volumes]
    rfl
  exact hrar

theorem oneVolume_committed (dataStart : Nat) : ∃ active,
    (oneVolume dataStart).probeCandidateInner "url" "token" = .ok active ∧ active.totalSize = 2 :=
  ⟨_, bind_eq_ok.mpr ⟨_, oneVolume_read dataStart, bind_eq_ok.mpr ⟨_, rfl, rfl⟩⟩, rfl⟩

/-- **Preflight commits a stream whose second byte it maps past `2^64`**: the header says that the
data starts at the greatest word. -/
theorem wrapping_post_committed : ∃ (net : Net) (active : ActiveStream)
    (volumes : List RarVolumeGeom) (contentType : String),
    net.probeCandidateInner "url" "token" = .ok active ∧
    net.readPost "url" = .ok (.rar volumes active.totalSize, contentType) ∧
    ¬ Unwrapped volumes active.totalSize := by
  obtain ⟨active, hok, hsize⟩ := oneVolume_committed (2 ^ 64 - 1)
  refine ⟨_, active, [⟨["a"], 4, some 4, 2 ^ 64 - 1, 2⟩], guessContentType "a.mkv", hok, ?_,
    fun h => ?_⟩
  · rw [hsize]
    exact oneVolume_read (2 ^ 64 - 1)
  have hwrap : (rarLayout [⟨["a"], 4, some 4, 2 ^ 64 - 1, 2⟩]).videoToAssembledChecked 1 = none :=
    by decide
  have hbyte : 1 < active.totalSize := by omega
  exact Option.some_ne_none _ ((h.lookups 1 hbyte).1.symm.trans hwrap)

/-- Two volumes of two articles, whose data starts behind a header each. -/
theorem unwrapped_iff_twoVolumes : ∃ active : ActiveStream, active.totalSize = 10 ∧
    Unwrapped twoVolumesGeom active.totalSize ∧
    active.fileLayout = rarLayout twoVolumesGeom := by
  obtain ⟨active, hok, hsize⟩ := twoVolumes_committed
  have hfit : HeadersFit twoVolumesGeom active.totalSize := hsize ▸ twoVolumes_fit
  obtain ⟨hiff, hlayout⟩ := unwrapped_iff hok (twoVolumes_read _)
  exact ⟨active, hsize, hiff.mpr hfit, hlayout hfit⟩

end StremioNzb.Streaming

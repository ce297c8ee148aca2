import StremioNzb.Lib.BinarySearch
import StremioNzb.Lib.Blocks

/-!
# File layouts

`session.rs` and the segment lookup of `pipeline.rs`: how a video byte finds its place in the
assembled stream (`FileLayout.videoToAssembled`) and the segment that holds it
(`findSegmentForByte`). In a layout whose segments lie end to end the lookup is exact wherever
no empty segment starts (`findSegmentForByte_eq_some`); in one whose chunks lie end to end in
the video each video byte has one chunk (`FileLayout.chunk_at`).
-/

namespace StremioNzb.Streaming

open StremioNzb.Lib

structure SegmentRef where
  /-- Index into the list of NNTP servers. -/
  serverIndex : Nat
  messageId : String
  bytes : Nat
  /-- Offset of the first byte in the assembled stream. -/
  offsetInStream : Nat
  deriving DecidableEq, Repr

structure DataChunk where
  videoStart : Nat
  length : Nat
  assembledStart : Nat
  deriving DecidableEq, Repr

/-- Video bytes of one chunk map continuously into the assembled stream of the segments. -/
structure FileLayout where
  segments : List SegmentRef
  chunks : List DataChunk
  deriving DecidableEq, Repr

abbrev SegmentRef.stop (s : SegmentRef) : Nat := s.offsetInStream + s.bytes

/-- Whether the chunk holds the video byte. -/
def DataChunk.holds (c : DataChunk) (v : Nat) : Bool :=
  v ≥ c.videoStart ∧ v < c.videoStart + c.length

namespace FileLayout

def videoToAssembled (l : FileLayout) (v : Nat) : Option Nat :=
  (l.chunks.find? (·.holds v)).map fun c => c.assembledStart + (v - c.videoStart)

/-- Video bytes from `v` to the end of its chunk, `0` past the last chunk. -/
def chunkRemaining (l : FileLayout) (v : Nat) : Nat :=
  go l.chunks
where
  go : List DataChunk → Nat
    | [] => 0
    | c :: cs => if c.holds v then c.videoStart + c.length - v else go cs

/-- End of the last segment. -/
def assembledSize (l : FileLayout) : Nat := (l.segments.getLast?.map (·.stop)).getD 0

/-- The remaining length and the assembled position come from one chunk. -/
theorem chunkRemaining_eq (l : FileLayout) (v : Nat) :
    l.chunkRemaining v =
      ((l.chunks.find? (·.holds v)).map fun c => c.videoStart + c.length - v).getD 0 := by
  unfold chunkRemaining
  induction l.chunks with
  | nil => rfl
  | cons c cs ih =>
    rw [chunkRemaining.go, List.find?_cons]
    cases c.holds v <;> simp [ih]

/-- Both lookups succeed together. -/
theorem chunkRemaining_pos {l : FileLayout} {v : Nat} :
    0 < l.chunkRemaining v ↔ (l.videoToAssembled v).isSome := by
  rw [chunkRemaining_eq, videoToAssembled]
  cases h : l.chunks.find? (·.holds v) with
  | none => simp
  | some c =>
    have := List.find?_some h
    simp [DataChunk.holds] at this
    simp; omega

end FileLayout

/-! ## The segment of an assembled byte -/

/-- `slice::binary_search_by` on the segment offsets. -/
abbrev SegmentSearch := BinarySearch SegmentRef.offsetInStream

def findSegmentForByte (bs : SegmentSearch) (segments : List SegmentRef) (byte : Nat) :
    Option Nat :=
  let idx := match bs.run segments byte with
    | .ok i => some i
    | .error 0 => none
    | .error (i + 1) => some i
  idx.bind fun idx => segments[idx]?.bind fun seg =>
    if byte < seg.offsetInStream + seg.bytes then some idx else none

/-- The segments lie end to end from offset `0`. -/
def Contiguous (segments : List SegmentRef) : Prop :=
  ∀ i s, segments[i]? = some s → s.offsetInStream = blockStart SegmentRef.bytes segments i

/-- Where the last segment ends. -/
abbrev assembledEnd (segments : List SegmentRef) : Nat := blockTotal SegmentRef.bytes segments

variable {bs : SegmentSearch} {segs : List SegmentRef} {b i : Nat} {s : SegmentRef}

theorem Contiguous.sorted (h : Contiguous segs) : SortedBy SegmentRef.offsetInStream segs := by
  rw [SortedBy, List.pairwise_iff_getElem]
  intro i j hi hj hij
  rw [h i _ (List.getElem?_eq_getElem hi), h j _ (List.getElem?_eq_getElem hj)]
  exact blockStart_mono hij.le

theorem Contiguous.stop_eq (h : Contiguous segs) (hi : segs[i]? = some s) :
    s.stop = blockStart SegmentRef.bytes segs (i + 1) := by
  rw [SegmentRef.stop, h i s hi, blockStart_succ hi]

theorem Contiguous.stop_le_end (h : Contiguous segs) (hi : segs[i]? = some s) :
    s.stop ≤ assembledEnd segs := h.stop_eq hi ▸ blockStart_le_total

theorem Contiguous.stop_le (h : Contiguous segs) {j : Nat} {t : SegmentRef}
    (hi : segs[i]? = some s) (hj : segs[j]? = some t) (hij : i < j) :
    s.stop ≤ t.offsetInStream := by
  rw [h.stop_eq hi, h j t hj]
  exact blockStart_mono hij

theorem Contiguous.assembledSize {l : FileLayout} (h : Contiguous l.segments) :
    l.assembledSize = assembledEnd l.segments := by
  unfold FileLayout.assembledSize
  cases hl : l.segments.getLast? with
  | none => rw [List.getLast?_eq_none_iff.mp hl]; rfl
  | some s =>
    have hs : l.segments[l.segments.length - 1]? = some s := by
      rw [← hl, List.getLast?_eq_getElem?]
    have hpos : l.segments.length - 1 + 1 = l.segments.length := by
      have := (List.getElem?_eq_some_iff.mp hs).1
      omega
    simp only [Option.map_some, Option.getD_some]
    rw [h.stop_eq hs, hpos, blockStart_of_length_le le_rfl]

/-- What the lookup returns holds the byte. -/
theorem findSegmentForByte_sound (hs : SortedBy SegmentRef.offsetInStream segs)
    (h : findSegmentForByte bs segs b = some i) :
    ∃ s, segs[i]? = some s ∧ s.offsetInStream ≤ b ∧ b < s.stop := by
  unfold findSegmentForByte at h
  cases hr : bs.run segs b with
  | ok j =>
    obtain ⟨s, hj, hk⟩ := bs.ok_spec hs hr
    simp only [hr, Option.bind_some, hj, Option.ite_none_right_eq_some, Option.some.injEq] at h
    obtain ⟨hlt, rfl⟩ := h
    exact ⟨s, hj, hk.le, hlt⟩
  | error j =>
    cases j with
    | zero => simp [hr] at h
    | succ j =>
      obtain ⟨hle, h1, -⟩ := bs.error_spec hs hr
      cases hj : segs[j]? with
      | none => simp [hr, hj] at h
      | some s =>
        simp only [hr, Option.bind_some, hj, Option.ite_none_right_eq_some,
          Option.some.injEq] at h
        obtain ⟨hlt, rfl⟩ := h
        refine ⟨s, hj, (h1 s ?_).le, hlt⟩
        exact List.mem_of_getElem? (i := j) (by rw [List.getElem?_take_of_lt (by omega), hj])

theorem findSegmentForByte_eq_none (h : Contiguous segs) (hb : assembledEnd segs ≤ b) :
    findSegmentForByte bs segs b = none := by
  cases hf : findSegmentForByte bs segs b with
  | none => rfl
  | some i =>
    obtain ⟨s, hi, h1, h2⟩ := findSegmentForByte_sound h.sorted hf
    exact absurd (h2.trans_le (h.stop_le_end hi)) (not_lt.mpr hb)

/-- **The lookup is exact** at a byte where no empty segment starts. -/
theorem findSegmentForByte_eq_some (h : Contiguous segs) (hi : segs[i]? = some s)
    (h1 : s.offsetInStream ≤ b) (h2 : b < s.stop)
    (hz : ∀ z ∈ segs, z.offsetInStream = b → 0 < z.bytes) :
    findSegmentForByte bs segs b = some i := by
  suffices hf : ∃ j, findSegmentForByte bs segs b = some j by
    obtain ⟨j, hj⟩ := hf
    obtain ⟨t, ht, h3, h4⟩ := findSegmentForByte_sound h.sorted hj
    simp only [SegmentRef.stop, h i s hi] at h1 h2
    simp only [SegmentRef.stop, h j t ht] at h3 h4
    rw [hj, block_unique ht hi h3 h4 h1 h2]
  unfold findSegmentForByte
  cases hr : bs.run segs b with
  | ok j =>
    obtain ⟨t, ht, hk⟩ := bs.ok_spec h.sorted hr
    have := hz t (List.mem_of_getElem? ht) hk
    exact ⟨j, by simp only [Option.bind_some, ht]; rw [if_pos (by omega)]⟩
  | error j =>
    obtain ⟨hle, -, hgt⟩ := bs.error_spec h.sorted hr
    have hij : i < j := by
      apply lt_of_not_ge
      intro hji
      have := hgt s (List.mem_of_getElem? (i := i - j) (by
        rw [List.getElem?_drop, show j + (i - j) = i by omega, hi]))
      omega
    obtain ⟨j, rfl⟩ : ∃ k, j = k + 1 := ⟨j - 1, by omega⟩
    obtain ⟨t, ht⟩ : ∃ t, segs[j]? = some t := ⟨segs[j], List.getElem?_eq_getElem hle⟩
    have hb : b < t.stop := by
      rw [h.stop_eq ht]
      cases hn : segs[j + 1]? with
      | none =>
        rw [blockStart_of_length_le (List.getElem?_eq_none_iff.mp hn)]
        exact h2.trans_le (h.stop_le_end hi)
      | some u =>
        rw [← h _ u hn]
        exact hgt u (List.mem_of_getElem? (i := 0) (by rw [List.getElem?_drop]; simpa using hn))
    exact ⟨j, by simp only [Option.bind_some, ht]; rw [if_pos hb]⟩

/-- A search may return an empty segment that starts at the byte, and the lookup then fails. -/
theorem findSegmentForByte_leftmost_empty (h : Contiguous segs) (hs : s ∈ segs)
    (h0 : s.bytes = 0) (hb : s.offsetInStream = b) :
    findSegmentForByte (.leftmost _) segs b = none := by
  obtain ⟨i, hi⟩ := List.mem_iff_getElem?.mp hs
  unfold findSegmentForByte
  show Option.bind (match scan SegmentRef.offsetInStream segs b with
    | .ok i => some i
    | .error 0 => none
    | .error (i + 1) => some i) _ = none
  cases hr : scan SegmentRef.offsetInStream segs b with
  | ok j =>
    obtain ⟨⟨t, ht, hk⟩, hlt⟩ := scan_ok hr
    have hji : j ≤ i := by
      apply le_of_not_gt
      intro hij
      have := hlt s (List.mem_of_getElem? (i := i) (by rw [List.getElem?_take_of_lt hij, hi]))
      omega
    have ht0 : t.bytes = 0 := by
      rcases hji.eq_or_lt with rfl | hlt
      · obtain rfl : t = s := by simpa [ht] using hi
        exact h0
      · have := h.stop_le ht hi hlt
        rw [SegmentRef.stop] at this
        omega
    simp only [Option.bind_some, ht]
    rw [if_neg (by omega)]
  | error j =>
    obtain ⟨-, h1, h2⟩ := scan_error h.sorted hr
    have : s ∈ segs.take j ++ segs.drop j := by rwa [List.take_append_drop]
    rcases List.mem_append.mp this with hm | hm
    · exact absurd (h1 s hm) (by omega)
    · exact absurd (h2 s hm) (by omega)

/-! ## The chunk of a video byte -/

/-- The chunks lie end to end in the video. -/
def ChunksContiguous (chunks : List DataChunk) : Prop :=
  ∀ k c, chunks[k]? = some c → c.videoStart = blockStart DataChunk.length chunks k

abbrev videoEnd (chunks : List DataChunk) : Nat := blockTotal DataChunk.length chunks

variable {l : FileLayout} {v k : Nat} {c : DataChunk}

theorem ChunksContiguous.stop_le_end (h : ChunksContiguous l.chunks) (hc : l.chunks[k]? = some c) :
    c.videoStart + c.length ≤ videoEnd l.chunks := by
  rw [h k c hc]
  exact blockStart_add_le_total hc

theorem FileLayout.find_chunk (h : ChunksContiguous l.chunks) (hc : l.chunks[k]? = some c)
    (h1 : c.videoStart ≤ v) (h2 : v < c.videoStart + c.length) :
    l.chunks.find? (·.holds v) = some c := by
  cases hf : l.chunks.find? (·.holds v) with
  | none =>
    have := List.find?_eq_none.mp hf c (List.mem_of_getElem? hc)
    simp [DataChunk.holds] at this
    omega
  | some d =>
    obtain ⟨j, hd⟩ := List.mem_iff_getElem?.mp (List.mem_of_find?_eq_some hf)
    have hv := List.find?_some hf
    simp only [DataChunk.holds, decide_eq_true_eq] at hv
    rw [h k c hc] at h1 h2
    rw [h j d hd] at hv
    obtain rfl := block_unique hd hc hv.1 hv.2 h1 h2
    rw [← hd, hc]

/-- A video byte below the end of the chunks has its chunk. -/
theorem FileLayout.chunk_at (h : ChunksContiguous l.chunks) (hv : v < videoEnd l.chunks) :
    ∃ (k : Nat) (c : DataChunk), l.chunks[k]? = some c ∧ c.videoStart ≤ v ∧
      v < c.videoStart + c.length ∧
      l.videoToAssembled v = some (c.assembledStart + (v - c.videoStart)) ∧
      l.chunkRemaining v = c.videoStart + c.length - v := by
  obtain ⟨k, c, hc, h1, h2⟩ := exists_block hv
  rw [← h k c hc] at h1 h2
  have hf := FileLayout.find_chunk h hc h1 h2
  exact ⟨k, c, hc, h1, h2, by rw [videoToAssembled, hf]; rfl, by rw [chunkRemaining_eq, hf]; rfl⟩

/-- **Within a chunk the mapping is a shift.** -/
theorem FileLayout.videoToAssembled_add (h : ChunksContiguous l.chunks) {a o : Nat}
    (ha : l.videoToAssembled v = some a) (ho : o < l.chunkRemaining v) :
    l.videoToAssembled (v + o) = some (a + o) := by
  rw [videoToAssembled, Option.map_eq_some_iff] at ha
  obtain ⟨c, hf, rfl⟩ := ha
  obtain ⟨k, hk⟩ := List.mem_iff_getElem?.mp (List.mem_of_find?_eq_some hf)
  have hv := List.find?_some hf
  simp only [DataChunk.holds, decide_eq_true_eq] at hv
  rw [chunkRemaining_eq, hf, Option.map_some, Option.getD_some] at ho
  rw [videoToAssembled, FileLayout.find_chunk h hk (by omega) (by omega), Option.map_some]
  congr 1
  omega

theorem FileLayout.videoToAssembled_eq_none (h : ChunksContiguous l.chunks)
    (hv : videoEnd l.chunks ≤ v) : l.videoToAssembled v = none := by
  rw [videoToAssembled, Option.map_eq_none_iff, List.find?_eq_none]
  intro c hc
  obtain ⟨k, hk⟩ := List.mem_iff_getElem?.mp hc
  have := h.stop_le_end hk
  simp only [DataChunk.holds, decide_eq_true_eq]
  omega

end StremioNzb.Streaming

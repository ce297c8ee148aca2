import StremioNzb.Streaming.Layout
import StremioNzb.Streaming.Steps

/-!
# Where the foreground loop stands

The three loops of `serve_range_stream` (chunks, segments, reads) keep one position: the video
byte to yield next, which is the start of the range and what has been yielded since.
`Body.Walk` says how the loop variables follow it, whatever the cache and the servers do;
`Body.Served` that each byte yielded so far is the byte of its video position.
-/

namespace StremioNzb.Streaming

open StremioNzb.Lib

/-- The layout is one whose segments and chunks lie end to end. -/
structure Setup.WellLaid (S : Setup) : Prop where
  segments : Contiguous S.segments
  chunks : ChunksContiguous S.layout.chunks

/-- Where the last segment ends. -/
abbrev Setup.assembledEnd (S : Setup) : Nat := Streaming.assembledEnd S.segments

/-- The video byte that the body yields next. -/
def Body.position (req : Request) (b : Body) : Nat := req.start + b.yielded.flatten.length

/-- The rest of the piece of chunk maps to the assembled bytes from `aPos` on. -/
structure Drain.Aligned (S : Setup) (req : Request) (d : Drain) (v : Nat) : Prop where
  rest : v + (d.assembledEnd + 1 - d.aPos) = d.videoEnd + 1
  aPos_le : d.aPos ≤ d.assembledEnd + 1
  videoEnd_le : d.videoEnd ≤ req.stop
  maps : ∀ o, v + o ≤ d.videoEnd → S.layout.videoToAssembled (v + o) = some (d.aPos + o)
  last : S.layout.videoToAssembled d.videoEnd = some d.assembledEnd

/-- The segment holds the assembled byte to serve next. -/
structure Drain.In (S : Setup) (d : Drain) (seg : SegmentRef) : Prop where
  mem : seg ∈ S.segments
  aPos_le : d.aPos ≤ d.assembledEnd
  start_le : seg.offsetInStream ≤ d.aPos
  lt_stop : d.aPos < seg.stop

theorem Drain.In.le_readEnd {S : Setup} {d : Drain} {seg : SegmentRef} (h : d.In S seg) :
    d.aPos ≤ d.readEnd seg := by
  have h1 := h.aPos_le
  have h2 := h.lt_stop
  unfold readEnd
  omega

/-- The loop variables agree with the position. -/
def Body.Walk (S : Setup) (req : Request) (b : Body) : Prop :=
  match b.fg with
  | .begin => b.yielded = []
  | .outer cursor => cursor = b.position req ∧ cursor ≤ req.stop + 1
  | .drain d => d.Aligned S req (b.position req)
  | .ensuring d seg _ => d.Aligned S req (b.position req) ∧ d.In S seg
  | .reading d readEnd readPos =>
    { d with aPos := readPos }.Aligned S req (b.position req) ∧ readPos ≤ readEnd + 1 ∧
      readEnd ≤ d.assembledEnd ∧ readEnd < S.assembledEnd
  | .evicting d _ _ => d.Aligned S req (b.position req)
  | .ended (.ok ()) =>
    req.stop < b.position req ∧ (b.position req ≤ req.stop + 1 ∨ b.yielded = [])
  | .ended (.error _) => True

variable {S : Setup} {req : Request} {c c' : CachedFile} {inp : Input} {k : Nat} {b b' : Body}

/-- The last byte to read of a segment is in the assembled stream. -/
theorem Drain.In.readEnd_lt (hl : S.WellLaid) {d : Drain} {seg : SegmentRef} (h : d.In S seg) :
    d.readEnd seg < S.assembledEnd := by
  obtain ⟨i, hi⟩ := List.mem_iff_getElem?.mp h.mem
  have h1 : seg.stop ≤ S.assembledEnd := hl.segments.stop_le_end hi
  have h2 := h.lt_stop
  unfold readEnd
  omega

theorem Drain.in_of_find (hl : S.WellLaid) {d : Drain} {i : Nat} {seg : SegmentRef}
    (hle : d.aPos ≤ d.assembledEnd)
    (hi : findSegmentForByte S.search S.segments d.aPos = some i)
    (hseg : S.segments[i]? = some seg) : d.In S seg := by
  obtain ⟨t, ht, h1, h2⟩ := findSegmentForByte_sound hl.segments.sorted hi
  obtain rfl : seg = t := Option.some.inj (hseg.symm.trans ht)
  exact ⟨List.mem_of_getElem? hseg, hle, h1, h2⟩

theorem Drain.Aligned.advance {d : Drain} {v n : Nat}
    (h : d.Aligned S req v) (hn : d.aPos + n ≤ d.assembledEnd + 1) :
    { d with aPos := d.aPos + n }.Aligned S req (v + n) := by
  obtain ⟨h1, h2, h3, h4, h5⟩ := h
  refine ⟨?_, hn, h3, fun o ho => ?_, h5⟩
  · show v + n + (d.assembledEnd + 1 - (d.aPos + n)) = d.videoEnd + 1
    omega
  · rw [Nat.add_assoc, h4 (n + o) (by rw [← Nat.add_assoc]; exact ho), Nat.add_assoc]

theorem Body.position_emit {d : Drain} {readEnd readPos : Nat} {bytes : List UInt8} :
    (b.emit d readEnd readPos bytes).position req = b.position req + bytes.length := by
  simp [position, emit, Nat.add_assoc]

theorem Body.Walk.await (hl : S.WellLaid) {d : Drain} {seg : SegmentRef} {e : Ensure}
    (h : d.Aligned S req (b.position req)) (hin : d.In S seg) {i : Option Nat} :
    Body.Walk S req { b with fg := .await d seg e, serving := i } := by
  cases e with
  | returned r =>
    cases r with
    | error m => trivial
    | ok u =>
      have := hin.le_readEnd
      exact ⟨h, by omega, Nat.min_le_right _ _, hin.readEnd_lt hl⟩
  | fetching | writing | marking => exact ⟨h, hin⟩

/-- The first piece of a chunk. -/
theorem Drain.aligned_chunk (hl : S.WellLaid) {cursor a : Nat} (hle : cursor ≤ req.stop)
    (ha : S.layout.videoToAssembled cursor = some a) (hpos : 0 < S.layout.chunkRemaining cursor) :
    Drain.Aligned S req ⟨min (cursor + S.layout.chunkRemaining cursor - 1) req.stop,
      a + (min (cursor + S.layout.chunkRemaining cursor - 1) req.stop - cursor), a⟩ cursor := by
  refine ⟨?_, ?_, Nat.min_le_right _ _, fun o ho => ?_, ?_⟩
  · simp only
    omega
  · simp only
    omega
  · simp only at ho
    exact FileLayout.videoToAssembled_add hl.chunks ha (by omega)
  · have h : cursor + (min (cursor + S.layout.chunkRemaining cursor - 1) req.stop - cursor) =
        min (cursor + S.layout.chunkRemaining cursor - 1) req.stop := by omega
    simp only
    rw [← FileLayout.videoToAssembled_add hl.chunks ha (by omega), h]

/-- **A step of the foreground loop keeps the position.** -/
theorem Body.Walk.fg (hl : S.WellLaid) (h : b.Walk S req) (he : Fg.Effect S req c inp b c' b') :
    b'.Walk S req := by
  unfold Walk at h
  cases he with
  | empty hf hlt =>
    rw [hf] at h
    refine ⟨?_, .inr h⟩
    show req.stop < b.position req
    simpa [position, show b.yielded = [] from h] using hlt
  | began hf hle hn =>
    rw [hf] at h
    refine ⟨?_, by omega⟩
    simp [position, show b.yielded = [] from h]
  | finished cursor hf hlt =>
    rw [hf] at h
    show req.stop < b.position req ∧ (b.position req ≤ req.stop + 1 ∨ b.yielded = [])
    omega
  | chunk cursor a hf hle ha hpos =>
    rw [hf] at h
    show Drain.Aligned S req _ (b.position req)
    rw [← h.1]
    exact Drain.aligned_chunk hl hle ha hpos
  | drained d hf hlt =>
    rw [hf] at h
    obtain ⟨h1, h2, h3, -⟩ := h
    show d.videoEnd + 1 = b.position req ∧ d.videoEnd + 1 ≤ req.stop + 1
    omega
  | cached d i seg hf hle hi hseg hr =>
    rw [hf] at h
    have hin := Drain.in_of_find hl hle hi hseg
    have := hin.le_readEnd
    exact ⟨h, by omega, Nat.min_le_right _ _, hin.readEnd_lt hl⟩
  | missing d i seg hf hle hi hseg hr =>
    rw [hf] at h
    exact .await hl h (Drain.in_of_find hl hle hi hseg)
  | ensured d seg e e' _ hf he =>
    rw [hf] at h
    exact .await hl h.1 h.2
  | read d readEnd readPos hf hle =>
    rw [hf] at h
    obtain ⟨h1, h2, h3⟩ := h
    show Drain.Aligned S req { d with aPos := readPos + (c.readChunk readEnd readPos).length }
      (position req (b.emit d readEnd readPos _)) ∧
      readPos + (c.readChunk readEnd readPos).length ≤ readEnd + 1 ∧ _
    rw [position_emit, CachedFile.readBytes_length]
    exact ⟨h1.advance (by simp only; omega), by omega, h3⟩
  | served d readEnd readPos hf hlt hn =>
    rw [hf] at h
    obtain ⟨h1, h2, h3⟩ := h
    obtain rfl : readPos = readEnd + 1 := by omega
    exact h1
  | called d readEnd readPos p hf hlt hp =>
    rw [hf] at h
    obtain ⟨h1, h2, h3⟩ := h
    obtain rfl : readPos = readEnd + 1 := by omega
    exact h1
  | evicted d p e e' _ hf he =>
    rw [hf] at h
    exact h
  | resumed d p hf =>
    rw [hf] at h
    exact h
  | serverless | unmapped | segmentless | unread => trivial

theorem Body.Walk.prefetch (h : b.Walk S req) (he : b.PrefetchEffect S c inp k c' b') :
    b'.Walk S req := by
  unfold Walk position at h ⊢
  rwa [he.fg, he.yielded]

theorem walk_step {ι : Type} [DecidableEq ι] {req : ι → Request} (hl : S.WellLaid)
    {s s' : World ι} {a : Act ι} (h : ∀ i, (s.bodies i).Walk S (req i))
    (hs : s.step S req a = some s') (j : ι) : (s'.bodies j).Walk S (req j) := by
  cases World.step_effect hs with
  | fg i inp c b he =>
    by_cases hj : j = i
    · subst hj
      simpa using (h j).fg hl he
    · simpa [hj] using h j
  | spawn i b he | task i k inp c b he =>
    by_cases hj : j = i
    · subst hj
      simpa using (h j).prefetch he
    · simpa [hj] using h j

theorem walk_fresh : Body.fresh.Walk S req := rfl

end StremioNzb.Streaming

import StremioNzb.Lib.Checked
import StremioNzb.Streaming.Session

/-!
# Layout lookups, checked

The lookups of `session.rs` and `pipeline.rs` with every sum and difference they compute checked:
the outer `none` is a step that leaves the words. Where the sums of the layout fit
(`FileLayout.InWords`) no step does, and the lookups are the exact ones.
-/

namespace StremioNzb.Streaming

open StremioNzb.Lib

namespace FileLayout

def videoToAssembledChecked (l : FileLayout) (v : Nat) : Option (Option Nat) :=
  go l.chunks
where
  go : List DataChunk → Option (Option Nat)
    | [] => some none
    | c :: cs =>
      if v ≥ c.videoStart then do
        let stop ← checkedAdd 64 c.videoStart c.length
        if v < stop then
          let offset ← checkedSub v c.videoStart
          let assembled ← checkedAdd 64 c.assembledStart offset
          return some assembled
        else go cs
      else go cs

def chunkRemainingChecked (l : FileLayout) (v : Nat) : Option Nat :=
  go l.chunks
where
  go : List DataChunk → Option Nat
    | [] => some 0
    | c :: cs => do
      let chunkEnd ← checkedAdd 64 c.videoStart c.length
      if v ≥ c.videoStart ∧ v < chunkEnd then checkedSub chunkEnd v else go cs

def assembledSizeChecked (l : FileLayout) : Option Nat :=
  match l.segments.getLast? with
  | some s => checkedAdd 64 s.offsetInStream s.bytes
  | none => some 0

/-- The sums of the layout fit: where its chunks and segments end, and where the bytes of its
chunks lie in the assembled stream. -/
structure InWords (l : FileLayout) : Prop where
  chunks : ∀ c ∈ l.chunks, c.videoStart + c.length < 2 ^ 64
  images : ∀ c ∈ l.chunks, ∀ v, c.holds v → c.assembledStart + (v - c.videoStart) < 2 ^ 64
  segments : ∀ s ∈ l.segments, s.stop < 2 ^ 64

end FileLayout

/-- The segment that the search came to, where it holds the byte. -/
def segmentHoldingChecked (segments : List SegmentRef) (byte idx : Nat) : Option (Option Nat) :=
  match segments[idx]? with
  | none => some none
  | some seg => (checkedAdd 64 seg.offsetInStream seg.bytes).map fun stop =>
      if byte < stop then some idx else none

def findSegmentForByteChecked (bs : SegmentSearch) (segments : List SegmentRef) (byte : Nat) :
    Option (Option Nat) :=
  match bs.run segments byte with
  | .ok i => segmentHoldingChecked segments byte i
  | .error 0 => some none
  | .error (i + 1) => segmentHoldingChecked segments byte i

variable {l : FileLayout} {v : Nat} {c : DataChunk} {cs : List DataChunk}

theorem DataChunk.holds_iff : c.holds v = true ↔ c.videoStart ≤ v ∧ v < c.videoStart + c.length :=
  decide_eq_true_iff

namespace FileLayout

/-- Where chunks and their images end in words, the bytes do. -/
theorem inWords_of_lt (hc : ∀ c ∈ l.chunks, c.videoStart + c.length < 2 ^ 64)
    (hi : ∀ c ∈ l.chunks, c.assembledStart + c.length < 2 ^ 64)
    (hs : ∀ s ∈ l.segments, s.stop < 2 ^ 64) : l.InWords := by
  refine ⟨hc, fun c hmem v hv => ?_, hs⟩
  obtain ⟨-, hlt⟩ := DataChunk.holds_iff.mp hv
  have := hi c hmem
  omega

/-- The chunks before the one that holds the byte fit, and so does the byte's image. -/
theorem videoToAssembledChecked_go_eq (h : ∀ c ∈ cs, c.videoStart + c.length < 2 ^ 64)
    (hv : ∀ c, cs.find? (·.holds v) = some c → c.assembledStart + (v - c.videoStart) < 2 ^ 64) :
    videoToAssembledChecked.go v cs =
      some ((cs.find? (·.holds v)).map fun c => c.assembledStart + (v - c.videoStart)) := by
  induction cs with
  | nil => rfl
  | cons c cs ih =>
    have hc := h c List.mem_cons_self
    rw [List.find?_cons] at hv ⊢
    rw [videoToAssembledChecked.go]
    cases hh : c.holds v with
    | true =>
      have hv := hv c (by rw [hh])
      obtain ⟨h1, h2⟩ := DataChunk.holds_iff.mp hh
      simp [h1, h2, checkedAdd_of_lt hc, checkedSub_of_le h1, checkedAdd_of_lt hv]
    | false =>
      have hn : ¬ (c.videoStart ≤ v ∧ v < c.videoStart + c.length) := fun hn => by
        rw [DataChunk.holds_iff.mpr hn] at hh
        exact absurd hh (by decide)
      have hrest := ih (fun d hd => h d (List.mem_cons_of_mem c hd)) (by simpa [hh] using hv)
      split
      · next hge =>
        simp only [checkedAdd_of_lt hc, Option.bind_eq_bind, Option.bind_some]
        rw [if_neg fun hlt => hn ⟨hge, hlt⟩, hrest]
      · exact hrest

theorem chunkRemainingChecked_go_eq (h : ∀ c ∈ cs, c.videoStart + c.length < 2 ^ 64) :
    chunkRemainingChecked.go v cs = some (chunkRemaining.go v cs) := by
  induction cs with
  | nil => rfl
  | cons c cs ih =>
    have hc := h c List.mem_cons_self
    rw [chunkRemainingChecked.go, chunkRemaining.go, checkedAdd_of_lt hc]
    simp only [Option.bind_eq_bind, Option.bind_some]
    split
    · next hh =>
      rw [if_pos (DataChunk.holds_iff.mpr hh), checkedSub_of_le hh.2.le]
    · next hn =>
      rw [if_neg fun hh => hn (DataChunk.holds_iff.mp hh)]
      exact ih fun d hd => h d (List.mem_cons_of_mem c hd)

theorem InWords.videoToAssembledChecked_eq (h : l.InWords) (v : Nat) :
    l.videoToAssembledChecked v = some (l.videoToAssembled v) :=
  videoToAssembledChecked_go_eq h.chunks fun c hc => by
    have hv := List.find?_some hc
    exact h.images c (List.mem_of_find?_eq_some hc) v hv

theorem InWords.chunkRemainingChecked_eq (h : l.InWords) (v : Nat) :
    l.chunkRemainingChecked v = some (l.chunkRemaining v) :=
  chunkRemainingChecked_go_eq h.chunks

end FileLayout

theorem segmentHoldingChecked_eq {segs : List SegmentRef} (h : ∀ s ∈ segs, s.stop < 2 ^ 64)
    (b i : Nat) : segmentHoldingChecked segs b i = some (segs[i]?.bind fun seg =>
      if b < seg.offsetInStream + seg.bytes then some i else none) := by
  unfold segmentHoldingChecked
  cases hs : segs[i]? with
  | none => rfl
  | some s =>
    have hstop := h s (List.mem_of_getElem? hs)
    simp only [checkedAdd_of_lt hstop, Option.map_some, Option.bind_some]

theorem findSegmentForByteChecked_eq {bs : SegmentSearch} {segs : List SegmentRef}
    (h : ∀ s ∈ segs, s.stop < 2 ^ 64) (b : Nat) :
    findSegmentForByteChecked bs segs b = some (findSegmentForByte bs segs b) := by
  unfold findSegmentForByteChecked findSegmentForByte
  cases bs.run segs b with
  | ok i => exact segmentHoldingChecked_eq h b i
  | error i =>
    cases i with
    | zero => rfl
    | succ i => exact segmentHoldingChecked_eq h b i

end StremioNzb.Streaming

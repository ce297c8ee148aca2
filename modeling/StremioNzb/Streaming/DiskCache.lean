import Mathlib.Algebra.Ring.Nat
import StremioNzb.Streaming.Ranges

/-!
# The cache file

`disk_cache.rs`: one sparse file per session with its populated ranges and eviction watermark.
`write_at` and `evict_range` each take the file lock and then the populated lock, so each is
given as its two halves (`writeFile`, `markPopulated`; `punchHole`, `clearPopulated`) with the
checks made before the first.
-/

namespace StremioNzb.Streaming

structure CachedFile where
  totalSize : Nat
  /-- The bytes of the file; a hole reads as zero. -/
  file : Nat → UInt8
  populated : PopulatedRanges
  /-- Highest assembled offset evicted so far. -/
  lastEvictedTo : Nat

namespace CachedFile

/-- Existing content is treated as cold. -/
def openOrCreate (content : Nat → UInt8) (totalSize : Nat) : CachedFile :=
  ⟨totalSize, content, .new, 0⟩

def hasRange (c : CachedFile) (start stop : Nat) : Bool := c.populated.containsRange start stop

/-- The byte is populated. -/
abbrev Has (c : CachedFile) (b : Nat) : Prop := b ∈ c.populated.bytes

theorem hasRange_iff {c : CachedFile} {start stop : Nat} :
    c.hasRange start stop = true ↔ ∀ b, start ≤ b → b < stop → c.Has b :=
  c.populated.containsRange_iff start stop

theorem hasRange_byte {c : CachedFile} {b : Nat} : c.hasRange b (b + 1) = true ↔ c.Has b := by
  rw [hasRange_iff]
  exact ⟨fun h => h b (by omega) (by omega), fun h b' h1 h2 => by rwa [show b' = b by omega]⟩

/-! ## `write_at` -/

/-- The checks of `write_at`: the end of the write, where there is something to write. -/
def checkWrite (c : CachedFile) (offset : Nat) (bytes : List UInt8) :
    Except String (Option Nat) :=
  if bytes.isEmpty then .ok none
  else
    let stop := offset + bytes.length
    if stop > c.totalSize then
      .error (if stop ≥ 2 ^ 64 then "write offset+len overflow"
        else
          s!"write past end of cache file: offset {offset} len {bytes.length} total {c.totalSize}")
    else .ok (some stop)

/-- First half, under the file lock. -/
def writeFile (c : CachedFile) (offset : Nat) (bytes : List UInt8) : CachedFile :=
  { c with file := fun b =>
      if offset ≤ b ∧ b < offset + bytes.length then bytes.getD (b - offset) 0 else c.file b }

/-- Second half, under the populated lock. -/
def markPopulated (c : CachedFile) (start stop : Nat) : CachedFile :=
  { c with populated := c.populated.insert start stop }

/-! ## `read_at` -/

def checkRead (c : CachedFile) (offset len : Nat) : Except String Unit :=
  let stop := offset + len
  if stop > c.totalSize then
    .error (if stop ≥ 2 ^ 64 then "read offset+len overflow"
      else s!"read past end of cache file: offset {offset} len {len} total {c.totalSize}")
  else .ok ()

def readBytes (c : CachedFile) (offset len : Nat) : List UInt8 :=
  (List.range' offset len).map c.file

def readAt (c : CachedFile) (offset len : Nat) : Except String (List UInt8) :=
  if len = 0 then .ok [] else (c.checkRead offset len).map fun _ => c.readBytes offset len

/-! ## `evict_range` -/

/-- The checks of `evict_range`: whether there is anything to evict. -/
def checkEvict (c : CachedFile) (start stop : Nat) : Except String Bool :=
  if start ≥ stop then .ok false
  else if stop > c.totalSize then
    .error s!"evict past end of cache file: end {stop} > total {c.totalSize}"
  else .ok true

/-- First half, under the file lock. -/
def punchHole (c : CachedFile) (start stop : Nat) : CachedFile :=
  { c with file := fun b => if start ≤ b ∧ b < stop then 0 else c.file b }

/-- Second half, under the populated lock. -/
def clearPopulated (c : CachedFile) (start stop : Nat) : CachedFile :=
  { c with populated := (c.populated.removeRange start stop).1 }

/-! ## `maybe_evict_behind` -/

/-- The window to evict at a playhead, `none` where it is narrower than `step`. Bytes below
`headerPin` are never in it. -/
def evictWindow (lastEvictedTo playhead headerPin backbuffer step : Nat) : Option (Nat × Nat) :=
  let keepFloor := playhead - backbuffer
  let evictTo := max keepFloor headerPin
  let evictFrom := max lastEvictedTo headerPin
  if evictTo ≤ evictFrom then none
  else if evictTo - evictFrom < step then none
  else some (evictFrom, evictTo)

def storeWatermark (c : CachedFile) (evictTo : Nat) : CachedFile :=
  { c with lastEvictedTo := evictTo }

/-- A window starts at the watermark or the pin, and ends at the playhead less the backbuffer. -/
theorem evictWindow_eq_some {last p pin back step s e : Nat}
    (h : evictWindow last p pin back step = some (s, e)) :
    s = max last pin ∧ e = p - back ∧ s < e ∧ step ≤ e - s := by
  unfold evictWindow at h
  simp only at h
  split at h
  · cases h
  · split at h
    · cases h
    · cases h
      omega

theorem evictWindow_eq_none {last p pin back step : Nat}
    (h : evictWindow last p pin back step = none) :
    p - back ≤ max last pin ∨ p - back - max last pin < step := by
  unfold evictWindow at h
  simp only at h
  split at h
  · omega
  · split at h
    · omega
    · cases h

/-! ## What each half changes -/

variable {c : CachedFile} {start stop b : Nat} {bytes : List UInt8}

@[simp] theorem clearPopulated_lastEvictedTo :
    (c.clearPopulated start stop).lastEvictedTo = c.lastEvictedTo := rfl

theorem writeFile_in (h1 : start ≤ b) (h2 : b < start + bytes.length) :
    (c.writeFile start bytes).file b = bytes.getD (b - start) 0 := if_pos ⟨h1, h2⟩

theorem writeFile_out (h : ¬ (start ≤ b ∧ b < start + bytes.length)) :
    (c.writeFile start bytes).file b = c.file b := if_neg h

theorem punchHole_out (h : ¬ (start ≤ b ∧ b < stop)) :
    (c.punchHole start stop).file b = c.file b := if_neg h

theorem checkWrite_error {e : String}
    (h : c.checkWrite start bytes = .error e) : c.totalSize  < start + bytes.length := by
  unfold checkWrite at h
  split at h
  · cases h
  · simp only at h
    split at h
    · next hlt => exact hlt
    · cases h

theorem checkWrite_none
    (h : c.checkWrite start bytes = .ok none) : bytes = [] := by
  unfold checkWrite at h
  split at h
  · next he => exact List.isEmpty_iff.mp he
  · simp only at h
    split at h <;> cases h

theorem checkWrite_some
    (h : c.checkWrite start bytes = .ok (some stop)) :
    bytes ≠ [] ∧ start + bytes.length ≤ c.totalSize := by
  unfold checkWrite at h
  split at h
  · cases h
  · next he =>
    simp only at h
    split at h
    · cases h
    · exact ⟨fun e => he (List.isEmpty_iff.mpr e), by omega⟩

theorem checkWrite_stop
    (h : c.checkWrite start bytes = .ok (some stop)) : stop = start + bytes.length := by
  unfold checkWrite at h
  split at h
  · cases h
  · simp only at h
    split at h
    · cases h
    · cases h
      rfl

/-- A byte of the part that is written is the byte of the whole. -/
theorem getD_take {bytes : List UInt8} {offset written b : Nat} (h1 : offset ≤ b)
    (h2 : b < offset + (bytes.take written).length) :
    (bytes.take written).getD (b - offset) 0 = bytes.getD (b - offset) 0 := by
  rw [List.length_take] at h2
  rw [List.getD_eq_getElem?_getD, List.getD_eq_getElem?_getD, List.getElem?_take_of_lt (by omega)]

@[simp] theorem markPopulated_has :
    (c.markPopulated start stop).Has b ↔ c.Has b ∨ start ≤ b ∧ b < stop :=
  PopulatedRanges.mem_bytes_insert

@[simp] theorem clearPopulated_has :
    (c.clearPopulated start stop).Has b ↔ c.Has b ∧ ¬ (start ≤ b ∧ b < stop) :=
  PopulatedRanges.mem_bytes_removeRange

end CachedFile

end StremioNzb.Streaming

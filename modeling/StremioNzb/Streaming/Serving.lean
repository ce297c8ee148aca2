import StremioNzb.Lib.Runs
import StremioNzb.Streaming.CheckedLayout
import StremioNzb.Streaming.Pipeline

/-!
# The serving loops end

The three loops of `serve_range_stream` and that of `segment_indices_in_range` on any layout whose
segments are sorted, in checked words: a step whose arithmetic leaves the words panics. What the
cache and the servers answer is up to the environment (`Answers`). No step panics, each one lowers
`Loop.work`, and what is yielded and what is left never exceed the range (`Serving.step_spec`), so
every body ends (`serving_ends`).
-/

namespace StremioNzb.Streaming

open StremioNzb.Lib

/-! ## The piece of a chunk -/

/-- What a round of the outer loop finds at its cursor. -/
inductive Piece where
  | pastLast
  | unmapped
  | found (d : Drain)
  deriving DecidableEq, Repr

namespace Setup
variable (S : Setup)

/-- The arithmetic common to the planning and the serving loop. -/
def pieceChecked (stop cursor : Nat) : Option Piece := do
  let chunkRemaining ← S.layout.chunkRemainingChecked cursor
  if chunkRemaining = 0 then return .pastLast
  let next ← checkedAdd 64 cursor chunkRemaining
  let chunkVideoEnd ← checkedSub next 1
  let videoEnd := min chunkVideoEnd stop
  match ← S.layout.videoToAssembledChecked cursor with
  | none => return .unmapped
  | some assembled =>
    let length ← checkedSub videoEnd cursor
    let assembledEnd ← checkedAdd 64 assembled length
    return .found ⟨videoEnd, assembledEnd, assembled⟩

end Setup

/-! ## Planning -/

/-- The loop of `segment_indices_in_range`: its cursor and the indices collected. -/
inductive Planning where
  | at (cursor : Nat) (indices : List Nat)
  | done (indices : List Nat)
  | panicked
  deriving DecidableEq, Repr

namespace Setup
variable (S : Setup)

def planRound (stop cursor : Nat) (indices : List Nat) : Option Planning :=
  if cursor ≤ stop then do
    match ← S.pieceChecked stop cursor with
    | .pastLast | .unmapped => return .done indices
    | .found d =>
      let lo ← findSegmentForByteChecked S.search S.segments d.aPos
      let hi ← findSegmentForByteChecked S.search S.segments d.assembledEnd
      let next ← checkedAdd 64 d.videoEnd 1
      let found := match lo, hi with
        | some lo, some hi => List.range' lo (hi + 1 - lo)
        | _, _ => []
      return .at next (indices ++ found)
  else return .done indices

def planStep (stop : Nat) : Planning → Planning
  | .at cursor indices => (S.planRound stop cursor indices).getD .panicked
  | p => p

end Setup

/-! ## Serving -/

/-- How the cache and the servers answer the calls of one step. A read returns no more than it is
asked for. -/
structure Answers where
  hasRange : SegmentRef → Bool
  ensured : SegmentRef → Except String Unit
  readAt : Nat → Nat → Except String (List UInt8)
  readAt_le : ∀ {pos want bytes}, readAt pos want = .ok bytes → bytes.length ≤ want

inductive Loop where
  | outer (cursor : Nat)
  | drain (d : Drain)
  | reading (d : Drain) (readEnd readPos : Nat)
  | ended (r : Except String Unit)
  | panicked

/-- A body: where its loops stand and what it has yielded. -/
structure Serving where
  loop : Loop
  yielded : List (List UInt8)

namespace Setup
variable (S : Setup)

def outerRound (stop cursor : Nat) : Option Loop :=
  if cursor ≤ stop then do
    match ← S.pieceChecked stop cursor with
    | .pastLast => return .ended (.error s!"cursor {cursor} past last chunk")
    | .unmapped => return .ended (.error s!"video byte {cursor} not mappable")
    | .found d => return .drain d
  else return .ended (.ok ())

def drainRound (ans : Answers) (d : Drain) : Option Loop :=
  if d.aPos ≤ d.assembledEnd then do
    match ← findSegmentForByteChecked S.search S.segments d.aPos with
    | none => return .ended (.error s!"assembled byte {d.aPos} past last segment")
    | some i =>
      let seg ← S.segments[i]? -- out of bounds, the index panics
      let segEndExclusive ← checkedAdd 64 seg.offsetInStream seg.bytes
      let segLast ← checkedSub segEndExclusive 1
      let readEnd := min segLast d.assembledEnd
      if ans.hasRange seg then return .reading d readEnd d.aPos
      match ans.ensured seg with
      | .error e => return .ended (.error e)
      | .ok () => return .reading d readEnd d.aPos
  else (checkedAdd 64 d.videoEnd 1).map .outer

end Setup

/-- A round of the innermost loop: where it goes, and the bytes yielded. -/
def readRound (ans : Answers) (d : Drain) (readEnd readPos : Nat) :
    Option (Loop × List (List UInt8)) :=
  if readPos ≤ readEnd then do
    let left ← checkedSub readEnd readPos
    let want ← checkedAdd 64 left 1
    match ans.readAt readPos (min want chunkSize) with
    | .error e => return (.ended (.error e), [])
    | .ok bytes =>
      if bytes.length = 0 then
        return (.ended (.error s!"zero-length cache read at {readPos}"), [])
      let next ← checkedAdd 64 readPos bytes.length
      return (.reading d readEnd next, [bytes])
  else do
    let aPos ← checkedAdd 64 readEnd 1
    return (.drain { d with aPos }, [])

namespace Serving

def begin (S : Setup) (req : Request) : Serving :=
  if req.start > req.stop then ⟨.ended (.ok ()), []⟩
  else if S.serverCount = 0 then ⟨.ended (.error "no NNTP servers configured"), []⟩
  else ⟨.outer req.start, []⟩

def step (S : Setup) (req : Request) (s : Serving) (ans : Answers) : Option Serving :=
  match s.loop with
  | .outer cursor => some { s with loop := (S.outerRound req.stop cursor).getD .panicked }
  | .drain d => some { s with loop := (S.drainRound ans d).getD .panicked }
  | .reading d readEnd readPos =>
    let (loop, yielded) := (readRound ans d readEnd readPos).getD (.panicked, [])
    some ⟨loop, s.yielded ++ yielded⟩
  | .ended _ | .panicked => none

variable {S : Setup} {req : Request} {s : Serving} {ans : Answers} {l : Loop}

theorem step_outer {cursor : Nat} (hl : s.loop = .outer cursor)
    (hr : S.outerRound req.stop cursor = some l) : s.step S req ans = some ⟨l, s.yielded⟩ := by
  simp only [step, hl, hr, Option.getD_some]

theorem step_drain {d : Drain} (hl : s.loop = .drain d) (hr : S.drainRound ans d = some l) :
    s.step S req ans = some ⟨l, s.yielded⟩ := by
  simp only [step, hl, hr, Option.getD_some]

theorem step_reading {d : Drain} {readEnd readPos : Nat} {yielded : List (List UInt8)}
    (hl : s.loop = .reading d readEnd readPos)
    (hr : readRound ans d readEnd readPos = some (l, yielded)) :
    s.step S req ans = some ⟨l, s.yielded ++ yielded⟩ := by
  simp only [step, hl, hr, Option.getD_some]

end Serving

/-! ## What a round does -/

variable {S : Setup} {req : Request} {stop cursor : Nat}

/-- The sums of the layout and its order are all that the loops rely on. -/
structure Setup.Servable (S : Setup) : Prop where
  sorted : SortedBy SegmentRef.offsetInStream S.segments
  words : S.layout.InWords

/-- The piece at the cursor: part of one chunk, up to the end of the chunk or of the range. -/
structure Piece.Spec (S : Setup) (stop cursor : Nat) (d : Drain) : Prop where
  videoEnd : d.videoEnd = min (cursor + S.layout.chunkRemaining cursor - 1) stop
  maps : S.layout.videoToAssembled cursor = some d.aPos
  cursor_le : cursor ≤ d.videoEnd
  assembledEnd : d.assembledEnd = d.aPos + (d.videoEnd - cursor)
  word : d.assembledEnd < 2 ^ 64

theorem Setup.pieceChecked_spec (h : S.layout.InWords) (hle : cursor ≤ stop) :
    (S.pieceChecked stop cursor = some .pastLast ∧ S.layout.chunkRemaining cursor = 0) ∨
      ∃ d, S.pieceChecked stop cursor = some (.found d) ∧
        0 < S.layout.chunkRemaining cursor ∧ Piece.Spec S stop cursor d := by
  unfold pieceChecked
  rw [h.chunkRemainingChecked_eq, h.videoToAssembledChecked_eq]
  simp only [Option.bind_eq_bind, Option.bind_some]
  by_cases h0 : S.layout.chunkRemaining cursor = 0
  · exact .inl ⟨if_pos h0, h0⟩
  obtain ⟨c, hf, hr, ha⟩ : ∃ c, S.layout.chunks.find? (·.holds cursor) = some c ∧
      S.layout.chunkRemaining cursor = c.videoStart + c.length - cursor ∧
      S.layout.videoToAssembled cursor = some (c.assembledStart + (cursor - c.videoStart)) := by
    rw [FileLayout.chunkRemaining_eq] at h0 ⊢
    unfold FileLayout.videoToAssembled
    cases hf : S.layout.chunks.find? (·.holds cursor) with
    | none => simp [hf] at h0
    | some c => exact ⟨c, rfl, rfl, rfl⟩
  have hc := List.mem_of_find?_eq_some hf
  have hhold := List.find?_some hf
  obtain ⟨h1, h2⟩ := DataChunk.holds_iff.mp hhold
  have hstop := h.chunks c hc
  -- the last byte of the piece lies in the chunk, so its image is a word
  have hlast : c.holds (min (cursor + S.layout.chunkRemaining cursor - 1) stop) = true :=
    DataChunk.holds_iff.mpr ⟨by omega, by omega⟩
  have himage := h.images c hc _ hlast
  refine .inr ⟨⟨min (cursor + S.layout.chunkRemaining cursor - 1) stop,
    c.assembledStart + (cursor - c.videoStart) +
      (min (cursor + S.layout.chunkRemaining cursor - 1) stop - cursor),
    c.assembledStart + (cursor - c.videoStart)⟩, ?_, by omega, rfl, ha, ?_, rfl, ?_⟩
  · rw [if_neg h0, checkedAdd_of_lt (by omega), Option.bind_some, checkedSub_of_le (by omega),
      Option.bind_some]
    simp only [ha]
    rw [checkedSub_of_le (by omega), Option.bind_some, checkedAdd_of_lt (by omega)]
    rfl
  · simp only
    omega
  · simp only
    omega

/-! ## The planning loop ends -/

/-- A round collects the segments of a piece and moves the cursor past it, or it is the last. -/
theorem Setup.planStep_at (h : S.Servable) (hstop : stop < 2 ^ 64 - 1) (cursor : Nat)
    (indices : List Nat) :
    (S.planStep stop (.at cursor indices) = .done indices ∧
      (cursor ≤ stop → S.chunkIndices stop cursor = none)) ∨
    ∃ found next, S.planStep stop (.at cursor indices) = .at next (indices ++ found) ∧
      cursor < next ∧ next ≤ stop + 1 ∧ S.chunkIndices stop cursor = some (found, next) := by
  have hround : S.planStep stop (.at cursor indices) =
      (S.planRound stop cursor indices).getD .panicked := rfl
  rw [hround, planRound]
  by_cases hle : cursor ≤ stop
  · rw [if_pos hle]
    rcases pieceChecked_spec h.words hle with ⟨hp, h0⟩ | ⟨d, hp, hpos, hd⟩
    · simp only [hp, Option.bind_eq_bind, Option.bind_some]
      exact .inl ⟨rfl, fun _ => if_pos h0⟩
    · have hend : d.videoEnd ≤ stop := hd.videoEnd ▸ Nat.min_le_right _ _
      have hle' := hd.cursor_le
      have hfind := @findSegmentForByteChecked_eq S.search S.segments h.words.segments
      have hchunk : S.chunkIndices stop cursor = some
          (match findSegmentForByte S.search S.segments d.aPos,
              findSegmentForByte S.search S.segments d.assembledEnd with
            | some lo, some hi => List.range' lo (hi + 1 - lo)
            | _, _ => [], d.videoEnd + 1) := by
        unfold chunkIndices
        simp only
        rw [if_neg (by omega), hd.maps, ← hd.videoEnd, hd.assembledEnd]
        rfl
      simp only [hp, hfind, Option.bind_eq_bind, Option.bind_some,
        checkedAdd_of_lt (show d.videoEnd + 1 < 2 ^ 64 by omega)]
      exact .inr ⟨_, _, rfl, by omega, by omega, hchunk⟩
  · rw [if_neg hle]
    exact .inl ⟨rfl, fun hle' => absurd hle' hle⟩

/-- **The planning loop ends** after at most one round for each byte left, with what the fuelled
loop collects. -/
theorem Setup.plan_ends (h : S.Servable) (hstop : stop < 2 ^ 64 - 1) :
    ∀ (fuel cursor : Nat) (indices : List Nat), stop + 1 - cursor ≤ fuel →
      ∃ n ≤ fuel + 1, (S.planStep stop)^[n] (.at cursor indices) =
        .done (indices ++ S.indicesFrom stop fuel cursor)
  | 0, cursor, indices, hf => by
    rcases Setup.planStep_at h hstop cursor indices with ⟨hp, -⟩ | ⟨_, next, -, hlt, hn, -⟩
    · exact ⟨1, le_rfl, by rw [Function.iterate_one, hp, indicesFrom, List.append_nil]⟩
    · omega
  | fuel + 1, cursor, indices, hf => by
    rcases Setup.planStep_at h hstop cursor indices with
      ⟨hp, hnone⟩ | ⟨found, next, hp, hlt, hn, hsome⟩
    · refine ⟨1, by omega, ?_⟩
      rw [Function.iterate_one, hp, indicesFrom]
      split
      · next hle => rw [hnone hle, List.append_nil]
      · rw [List.append_nil]
    · obtain ⟨n, hle, hrun⟩ := Setup.plan_ends h hstop fuel next (indices ++ found) (by omega)
      refine ⟨n + 1, by omega, ?_⟩
      rw [Function.iterate_succ_apply, hp, hrun, indicesFrom, if_pos (by omega), hsome]
      simp only [List.append_assoc]

/-! ## The serving loops end -/

namespace Loop

/-- Where the loop variables may stand: within the range, each loop at most one past its end. -/
def Within (stop : Nat) : Loop → Prop
  | .outer cursor => cursor ≤ stop + 1
  | .drain d => d.videoEnd ≤ stop ∧ d.aPos ≤ d.assembledEnd + 1 ∧ d.assembledEnd < 2 ^ 64
  | .reading d readEnd readPos => d.videoEnd ≤ stop ∧ d.aPos ≤ readEnd ∧
      readEnd ≤ d.assembledEnd ∧ d.assembledEnd < 2 ^ 64 ∧ readPos ≤ readEnd + 1 ∧
      readEnd + 1 < 2 ^ 64
  | .ended _ => True
  | .panicked => False

/-- Bytes of the range that may still be yielded. -/
def left (stop : Nat) : Loop → Nat
  | .outer cursor => stop + 1 - cursor
  | .drain d => (stop - d.videoEnd) + (d.assembledEnd + 1 - d.aPos)
  | .reading d _ readPos => (stop - d.videoEnd) + (d.assembledEnd + 1 - readPos)
  | .ended _ | .panicked => 0

/-- Steps to the next byte yielded, at most. -/
def rank : Loop → Nat
  | .outer _ => 3
  | .drain d => if d.aPos ≤ d.assembledEnd then 2 else 4
  | .reading _ readEnd readPos => if readPos ≤ readEnd then 1 else 5
  | .ended _ | .panicked => 0

/-- A bound on the steps left: six for each byte. -/
def work (stop : Nat) (l : Loop) : Nat := 6 * l.left stop + l.rank

end Loop

/-- What a step comes to, whatever the answers: nothing has panicked, the work is less, and bytes
are yielded only out of those left. -/
structure Serving.Step (stop : Nat) (s s' : Serving) : Prop where
  within : s'.loop.Within stop
  work : s'.loop.work stop < s.loop.work stop
  yielded : s'.yielded.flatten.length + s'.loop.left stop ≤
    s.yielded.flatten.length + s.loop.left stop

theorem Setup.outerRound_spec (h : S.Servable) (stop cursor : Nat) :
    ∃ l, S.outerRound stop cursor = some l ∧ l.Within stop ∧
      l.work stop < (Loop.outer cursor).work stop ∧ l.left stop ≤ stop + 1 - cursor := by
  unfold outerRound
  by_cases hle : cursor ≤ stop
  · rw [if_pos hle]
    rcases pieceChecked_spec h.words hle with ⟨hp, -⟩ | ⟨d, hp, -, hd⟩
    · simp only [hp, Option.bind_eq_bind, Option.bind_some]
      exact ⟨_, rfl, trivial, by simp only [Loop.work, Loop.left, Loop.rank]; omega, by
        simp only [Loop.left]; omega⟩
    · have hend : d.videoEnd ≤ stop := hd.videoEnd ▸ Nat.min_le_right _ _
      have hle' := hd.cursor_le
      have hae := hd.assembledEnd
      simp only [hp, Option.bind_eq_bind, Option.bind_some]
      refine ⟨_, rfl, ⟨hend, by omega, hd.word⟩, ?_, ?_⟩
      · simp only [Loop.work, Loop.left, Loop.rank]
        rw [if_pos (by omega)]
        omega
      · simp only [Loop.left]
        omega
  · rw [if_neg hle]
    exact ⟨_, rfl, trivial, by simp only [Loop.work, Loop.left, Loop.rank]; omega, by
      simp only [Loop.left]; omega⟩

section
variable {d : Drain} {seg : SegmentRef} {i : Nat} {ans : Answers}

/-- A round of the middle loop that finds a segment; the position is in it. -/
theorem Setup.drainRound_found (h : S.Servable) (hle : d.aPos ≤ d.assembledEnd)
    (hi : findSegmentForByte S.search S.segments d.aPos = some i) (hseg : S.segments[i]? = some seg)
    (ans : Answers) : S.drainRound ans d = some (if ans.hasRange seg then
      .reading d (d.readEnd seg) d.aPos else match ans.ensured seg with
        | .error e => .ended (.error e)
        | .ok () => .reading d (d.readEnd seg) d.aPos) := by
  obtain ⟨t, ht, h1, h2⟩ := findSegmentForByte_sound h.sorted hi
  obtain rfl : seg = t := Option.some.inj (hseg.symm.trans ht)
  have hword := h.words.segments seg (List.mem_of_getElem? hseg)
  rw [SegmentRef.stop] at h2 hword
  unfold drainRound
  rw [if_pos hle, findSegmentForByteChecked_eq h.words.segments, hi]
  simp only [Option.bind_eq_bind, Option.bind_some, hseg, checkedAdd_of_lt hword,
    checkedSub_of_le (show 1 ≤ seg.offsetInStream + seg.bytes by omega)]
  cases ans.hasRange seg with
  | true => rfl
  | false =>
    cases ans.ensured seg with
    | error e => rfl
    | ok u => rfl

/-- A round of the middle loop that finds none. -/
theorem Setup.drainRound_missed (h : S.Servable) (hle : d.aPos ≤ d.assembledEnd)
    (hn : findSegmentForByte S.search S.segments d.aPos = none) : S.drainRound ans d =
      some (.ended (.error s!"assembled byte {d.aPos} past last segment")) := by
  rw [drainRound, if_pos hle, findSegmentForByteChecked_eq h.words.segments, hn]
  rfl

/-- Past the end of the piece the middle loop goes back to the outer one. -/
theorem Setup.drainRound_of_lt (hlt : d.assembledEnd < d.aPos) (hword : d.videoEnd + 1 < 2 ^ 64) :
    S.drainRound ans d = some (.outer (d.videoEnd + 1)) := by
  rw [drainRound, if_neg (not_le.mpr hlt), checkedAdd_of_lt hword]
  rfl

end

theorem Setup.drainRound_spec (h : S.Servable) (hstop : stop < 2 ^ 64 - 1) {d : Drain}
    (hw : Loop.Within stop (.drain d)) (ans : Answers) :
    ∃ l, S.drainRound ans d = some l ∧ l.Within stop ∧
      l.work stop < (Loop.drain d).work stop ∧ l.left stop ≤ (Loop.drain d).left stop := by
  obtain ⟨h1, h2, h3⟩ := hw
  have hpos : 0 < (Loop.drain d).work stop := by
    simp only [Loop.work, Loop.rank]
    split <;> omega
  have hended : ∀ r, ∃ l, some (Loop.ended r) = some l ∧ l.Within stop ∧
      l.work stop < (Loop.drain d).work stop ∧ l.left stop ≤ (Loop.drain d).left stop :=
    fun r => ⟨_, rfl, trivial, hpos, Nat.zero_le _⟩
  by_cases hle : d.aPos ≤ d.assembledEnd
  · cases hf : findSegmentForByte S.search S.segments d.aPos with
    | none =>
      rw [drainRound_missed h hle hf]
      exact hended _
    | some i =>
      -- the segment found holds the position, so there is a byte to read
      obtain ⟨seg, hi, h4, h5⟩ := findSegmentForByte_sound h.sorted hf
      have hseg := h.words.segments seg (List.mem_of_getElem? hi)
      rw [SegmentRef.stop] at h5 hseg
      rw [drainRound_found h hle hf hi]
      have hread : ∃ l, some (Loop.reading d (d.readEnd seg) d.aPos) = some l ∧
          l.Within stop ∧ l.work stop < (Loop.drain d).work stop ∧
          l.left stop ≤ (Loop.drain d).left stop := by
        rw [Drain.readEnd, SegmentRef.stop]
        refine ⟨_, rfl, ⟨h1, ?_, Nat.min_le_right _ _, h3, ?_, ?_⟩, ?_, le_rfl⟩
        · omega
        · omega
        · omega
        · simp only [Loop.work, Loop.left, Loop.rank]
          rw [if_pos (by omega), if_pos hle]
          omega
      split
      · exact hread
      · split
        · exact hended _
        · exact hread
  · rw [drainRound_of_lt (not_le.mp hle) (by omega)]
    refine ⟨_, rfl, by simp only [Loop.Within]; omega, ?_, ?_⟩
    · simp only [Loop.work, Loop.left, Loop.rank]
      rw [if_neg hle]
      omega
    · simp only [Loop.left]
      omega

section
variable {d : Drain} {readEnd readPos : Nat} {ans : Answers}

/-- Past its end the read goes back to the middle loop. -/
theorem readRound_of_lt (hlt : readEnd < readPos) (hword : readEnd + 1 < 2 ^ 64) :
    readRound ans d readEnd readPos = some (.drain { d with aPos := readEnd + 1 }, []) := by
  rw [readRound, if_neg (not_le.mpr hlt), checkedAdd_of_lt hword]
  rfl

/-- Within its end the read asks for what is left, a chunk at most. -/
theorem readRound_of_le (hle : readPos ≤ readEnd) (hword : readEnd + 1 < 2 ^ 64) :
    readRound ans d readEnd readPos =
      match ans.readAt readPos (min (readEnd - readPos + 1) chunkSize) with
      | .error e => some (.ended (.error e), [])
      | .ok bytes =>
        if bytes.length = 0 then
          some (.ended (.error s!"zero-length cache read at {readPos}"), [])
        else some (.reading d readEnd (readPos + bytes.length), [bytes]) := by
  rw [readRound, if_pos hle, checkedSub_of_le hle]
  simp only [Option.bind_eq_bind, Option.bind_some,
    checkedAdd_of_lt (show readEnd - readPos + 1 < 2 ^ 64 by omega)]
  cases hr : ans.readAt readPos (min (readEnd - readPos + 1) chunkSize) with
  | error e => rfl
  | ok bytes =>
    have hlen := ans.readAt_le hr
    simp only
    by_cases h0 : bytes.length = 0
    · rw [if_pos h0, if_pos h0]
      rfl
    · rw [if_neg h0, if_neg h0, checkedAdd_of_lt (show readPos + bytes.length < 2 ^ 64 by omega)]
      rfl

end

theorem readRound_spec {d : Drain} {readEnd readPos : Nat}
    (hw : Loop.Within stop (.reading d readEnd readPos)) (ans : Answers) :
    ∃ l yielded, readRound ans d readEnd readPos = some (l, yielded) ∧ l.Within stop ∧
      l.work stop < (Loop.reading d readEnd readPos).work stop ∧
      yielded.flatten.length + l.left stop ≤ (Loop.reading d readEnd readPos).left stop := by
  obtain ⟨h1, h2, h3, h4, h5, h6⟩ := hw
  have hpos : 0 < (Loop.reading d readEnd readPos).work stop := by
    simp only [Loop.work, Loop.rank]
    split <;> omega
  by_cases hle : readPos ≤ readEnd
  · rw [readRound_of_le hle h6]
    cases hr : ans.readAt readPos (min (readEnd - readPos + 1) chunkSize) with
    | error e => exact ⟨_, _, rfl, trivial, hpos, Nat.zero_le _⟩
    | ok bytes =>
      have hlen := ans.readAt_le hr
      simp only
      by_cases h0 : bytes.length = 0
      · rw [if_pos h0]
        exact ⟨_, _, rfl, trivial, hpos, Nat.zero_le _⟩
      · rw [if_neg h0]
        refine ⟨_, _, rfl, ⟨h1, h2, h3, h4, by omega, h6⟩, ?_, ?_⟩
        · simp only [Loop.work, Loop.left, Loop.rank]
          rw [if_pos hle]
          split <;> omega
        · simp only [Loop.left, List.flatten_cons, List.flatten_nil, List.append_nil]
          omega
  · rw [readRound_of_lt (not_le.mp hle) h6]
    refine ⟨_, _, rfl, ⟨h1, by simp only; omega, h4⟩, ?_, ?_⟩
    · simp only [Loop.work, Loop.left, Loop.rank]
      rw [if_neg hle]
      split <;> omega
    · simp only [Loop.left, List.flatten_nil, List.length_nil]
      omega

namespace Serving

variable {s s' : Serving} {ans : Answers}

/-- **A step of a body**, whatever the cache and the servers answer. -/
theorem step_spec (h : S.Servable) (hstop : req.stop < 2 ^ 64 - 1)
    (hw : s.loop.Within req.stop) (hs : s.step S req ans = some s') : Step req.stop s s' := by
  cases hl : s.loop with
  | outer cursor =>
    obtain ⟨l, hr, hl1, hl2, hl3⟩ := Setup.outerRound_spec h req.stop cursor
    rw [step_outer hl hr] at hs
    cases hs
    exact ⟨hl1, by rw [hl]; exact hl2, by rw [hl]; exact Nat.add_le_add_left hl3 _⟩
  | drain d =>
    rw [hl] at hw
    obtain ⟨l, hr, hl1, hl2, hl3⟩ := Setup.drainRound_spec h hstop hw ans
    rw [step_drain hl hr] at hs
    cases hs
    exact ⟨hl1, by rw [hl]; exact hl2, by rw [hl]; exact Nat.add_le_add_left hl3 _⟩
  | reading d readEnd readPos =>
    rw [hl] at hw
    obtain ⟨l, yielded, hr, hl1, hl2, hl3⟩ := readRound_spec hw ans
    rw [step_reading hl hr] at hs
    cases hs
    refine ⟨hl1, by rw [hl]; exact hl2, ?_⟩
    rw [hl]
    simp only [List.flatten_append, List.length_append]
    omega
  | ended r => simp [step, hl] at hs
  | panicked => simp [step, hl] at hs

/-- A body that has not ended takes a step. -/
theorem exists_step (hw : s.loop.Within req.stop) :
    (∃ r, s.loop = .ended r) ∨ ∀ ans, ∃ s', s.step S req ans = some s' := by
  unfold step
  cases hl : s.loop with
  | ended r => exact .inl ⟨r, rfl⟩
  | panicked =>
    rw [hl] at hw
    exact hw.elim
  | outer | drain | reading => exact .inr fun _ => ⟨_, rfl⟩

/-- What holds of a body at every point of its run. -/
structure Inv (S : Setup) (req : Request) (s : Serving) : Prop where
  within : s.loop.Within req.stop
  yielded : s.yielded.flatten.length + s.loop.left req.stop ≤ req.stop + 1 - req.start

theorem inv_begin (S : Setup) (req : Request) : (begin S req).Inv S req := by
  unfold begin
  split
  · exact ⟨trivial, Nat.zero_le _⟩
  · split
    · exact ⟨trivial, Nat.zero_le _⟩
    · exact ⟨by simp only [Loop.Within]; omega, by simp [Loop.left]⟩

theorem Inv.step (h : S.Servable) (hstop : req.stop < 2 ^ 64 - 1) (hi : s.Inv S req)
    (hs : s.step S req ans = some s') : s'.Inv S req := by
  have hstep := step_spec h hstop hi.within hs
  exact ⟨hstep.within, hstep.yielded.trans hi.yielded⟩

/-- Each step of a run takes work. -/
theorem length_add_work_le (h : S.Servable) (hstop : req.stop < 2 ^ 64 - 1) {as : List Answers}
    (hr : Run (step S req) (fun _ _ => True) s as s') (hi : s.Inv S req) :
    as.length + s'.loop.work req.stop ≤ s.loop.work req.stop := by
  have hle := hr.countP_le (p := fun _ => true) (μ := fun s => s.loop.work req.stop) hi
    (fun t a u ht _ hs => ht.step h hstop hs)
    fun t a u ht _ hs => (if_pos rfl).mpr (step_spec h hstop ht.within hs).work
  rwa [List.countP_true] at hle

/-- From a head of one of the three loops to a later head of the same loop: the cursor of the outer
one, the position in the piece of the middle one and that in the segment of the innermost have
moved on. -/
structure MovesOn (s s' : Serving) : Prop where
  chunks : ∀ c c', s.loop = .outer c → s'.loop = .outer c' → c < c'
  segments : ∀ d d', s.loop = .drain d → s'.loop = .drain d' → d'.videoEnd = d.videoEnd →
    d'.assembledEnd = d.assembledEnd → d.aPos < d'.aPos
  reads : ∀ d readEnd p p', s.loop = .reading d readEnd p → s'.loop = .reading d readEnd p' →
    p < p'

/-- Less work is left at a later head only because its position is greater. -/
theorem movesOn_of_work (hw : s.loop.Within req.stop) (hw' : s'.loop.Within req.stop)
    (hlt : s'.loop.work req.stop < s.loop.work req.stop) : MovesOn s s' := by
  constructor
  · intro c c' hc hc'
    rw [hc, hc'] at hlt
    simp only [Loop.work, Loop.left, Loop.rank] at hlt
    omega
  · intro d d' hd hd' h1 h2
    rw [hd] at hw hlt
    rw [hd'] at hw' hlt
    obtain ⟨-, hle, -⟩ := hw
    obtain ⟨-, hle', -⟩ := hw'
    simp only [Loop.work, Loop.left, Loop.rank, h1, h2] at hlt hle'
    split at hlt <;> split at hlt <;> omega
  · intro d readEnd p p' hp hp'
    rw [hp] at hw hlt
    rw [hp'] at hw' hlt
    obtain ⟨-, -, hle, -, hpe, -⟩ := hw
    obtain ⟨-, -, -, -, hpe', -⟩ := hw'
    simp only [Loop.work, Loop.left, Loop.rank] at hlt
    split at hlt <;> split at hlt <;> omega

end Serving

/-- **Serving and planning end on any layout** whose segments are sorted and whose sums are words,
whatever the cache and the servers answer: nothing panics, every round moves on, and no more is
yielded than the range has bytes. -/
theorem serving_ends (S : Setup) (req : Request)
    (hsorted : SortedBy SegmentRef.offsetInStream S.segments) (hwords : S.layout.InWords)
    (hstop : req.stop < 2 ^ 64 - 1) :
    ((∃ n ≤ req.stop + 1 - req.start + 1, (S.planStep req.stop)^[n] (.at req.start []) =
        .done (S.indicesFrom req.stop (req.stop + 1 - req.start) req.start)) ∧
      ∀ cursor indices, S.planStep req.stop (.at cursor indices) = .done indices ∨
        ∃ found next, S.planStep req.stop (.at cursor indices) = .at next (indices ++ found) ∧
          cursor < next) ∧
    ∀ as s, Run (Serving.step S req) (fun _ _ => True) (.begin S req) as s →
      as.length ≤ 6 * (req.stop + 1 - req.start) + 3 ∧
      s.yielded.flatten.length ≤ req.stop + 1 - req.start ∧
      s.loop ≠ .panicked ∧
      ((∃ r, s.loop = .ended r) ∨ ∀ ans, ∃ s', s.step S req ans = some s') ∧
      ∀ as' s', as' ≠ [] → Run (Serving.step S req) (fun _ _ => True) s as' s' → s.MovesOn s' := by
  have h : S.Servable := ⟨hsorted, hwords⟩
  refine ⟨⟨?_, fun cursor indices => ?_⟩, fun as s hr => ?_⟩
  · obtain ⟨n, hle, hrun⟩ := Setup.plan_ends h hstop _ req.start [] le_rfl
    exact ⟨n, hle, hrun⟩
  · rcases Setup.planStep_at h hstop cursor indices with
      ⟨hp, -⟩ | ⟨found, next, hp, hlt, -⟩
    · exact .inl hp
    · exact .inr ⟨found, next, hp, hlt⟩
  · have hinv : ∀ {as s s'}, s.Inv S req → Run (Serving.step S req) (fun _ _ => True) s as s' →
        s'.Inv S req := fun hi hr => hr.inv hi fun _ _ _ ht _ hs => ht.step h hstop hs
    have hi := hinv (Serving.inv_begin S req) hr
    have hlen := Serving.length_add_work_le h hstop hr (Serving.inv_begin S req)
    have hwork : (Serving.begin S req).loop.work req.stop ≤
        6 * (req.stop + 1 - req.start) + 3 := by
      unfold Serving.begin
      split
      · exact Nat.zero_le _
      · split
        · exact Nat.zero_le _
        · exact le_rfl
    refine ⟨by omega, by have := hi.yielded; omega, fun hp => ?_, Serving.exists_step hi.within,
      fun as' s' hne hr' => ?_⟩
    · have hw := hi.within
      rw [hp] at hw
      exact hw
    · have hlen' := Serving.length_add_work_le h hstop hr' hi
      have hpos : 0 < as'.length := List.length_pos_iff.mpr hne
      exact Serving.movesOn_of_work hi.within (hinv hi hr').within (by omega)

/-- Chunks that overlap, out of order and empty, over segments with a duplicate, an overlap and a
gap. -/
def tangled : Setup where
  layout := ⟨[⟨0, "a", 0, 0⟩, ⟨0, "b", 4, 0⟩, ⟨0, "c", 4, 2⟩, ⟨0, "d", 4, 10⟩],
    [⟨5, 5, 8⟩, ⟨0, 7, 0⟩, ⟨3, 0, 99⟩]⟩
  search := .leftmost _
  serverCount := 1

theorem tangled_inWords : tangled.layout.InWords :=
  FileLayout.inWords_of_lt (by decide) (by decide) (by decide)

/-- A tangled layout, served and planned with read-ahead. -/
theorem serving_ends_tangled : tangled.layout.InWords ∧ ∀ as s,
    Run (Serving.step tangled ⟨0, 9, 2, none⟩) (fun _ _ => True) (.begin tangled ⟨0, 9, 2, none⟩)
      as s → as.length ≤ 63 ∧ s.yielded.flatten.length ≤ 10 ∧ s.loop ≠ .panicked := by
  refine ⟨tangled_inWords, fun as s hr => ?_⟩
  have h := (serving_ends tangled ⟨0, 9, 2, none⟩ (by decide) tangled_inWords (by decide)).2 as s hr
  exact ⟨h.1, h.2.1, h.2.2.1⟩

end StremioNzb.Streaming

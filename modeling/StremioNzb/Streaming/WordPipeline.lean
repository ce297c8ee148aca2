import Mathlib.Data.List.Find
import StremioNzb.Streaming.Following
import StremioNzb.Streaming.Lookup

/-!
# The pipeline in machine words

The loops of `pipeline.rs` and the lookups they rest on as a release build runs them, where sums and
differences of positions and lengths wrap. A fetch and an eviction compute no position that the
cache file does not check, so `Ensure.step` and `Evict.next` are theirs already.

On segments in order and sums that fit (`Setup.Servable`) every body stays within its range
(`World.Followed`), so no step wraps and each is the exact one (`World.step64_eq`): a run in words
is a run of `World.step` (`World.reaches_of_words`).
-/

namespace StremioNzb.Streaming

open StremioNzb.Lib

def sub64 (a b : Nat) : Nat := (a + (2 ^ 64 - b)) % 2 ^ 64

theorem sub64_eq {a b : Nat} (ha : a < 2 ^ 64) (h : b ≤ a) : sub64 a b = a - b := by
  rw [sub64, show a + (2 ^ 64 - b) = a - b + 2 ^ 64 by omega, Nat.add_mod_right]
  exact Nat.mod_eq_of_lt (by omega)

/-! ## The lookups -/

namespace FileLayout

def videoToAssembled64 (l : FileLayout) (v : Nat) : Option Nat :=
  (l.chunks.find? fun c => v ≥ c.videoStart ∧ v < add64 c.videoStart c.length).map fun c =>
    add64 c.assembledStart (v - c.videoStart)

def chunkRemaining64 (l : FileLayout) (v : Nat) : Nat :=
  go l.chunks
where
  go : List DataChunk → Nat
    | [] => 0
    | c :: cs =>
      let chunkEnd := add64 c.videoStart c.length
      if v ≥ c.videoStart ∧ v < chunkEnd then chunkEnd - v else go cs

end FileLayout

/-! ## `segment_indices_in_range` -/

namespace Setup
variable (S : Setup)

def chunkIndices64 (stop cursor : Nat) : Option (List Nat × Nat) :=
  let chunkRemaining := S.layout.chunkRemaining64 cursor
  if chunkRemaining = 0 then none
  else
    let chunkVideoEnd := min (sub64 (add64 cursor chunkRemaining) 1) stop
    (S.layout.videoToAssembled64 cursor).map fun assembledStart =>
      let assembledEnd := add64 assembledStart (sub64 chunkVideoEnd cursor)
      (match findSegmentForByte64 S.search S.segments assembledStart,
          findSegmentForByte64 S.search S.segments assembledEnd with
        | some lo, some hi => List.range' lo (hi + 1 - lo)
        | _, _ => [], add64 chunkVideoEnd 1)

def indicesFrom64 (stop : Nat) : Nat → Nat → List Nat
  | 0, _ => []
  | fuel + 1, cursor =>
    if cursor ≤ stop then
      match S.chunkIndices64 stop cursor with
      | none => []
      | some (indices, next) => indices ++ indicesFrom64 stop fuel next
    else []

def segmentIndicesInRange64 (start stop : Nat) : List Nat :=
  let collected := S.indicesFrom64 stop (stop + 1 - start) start
  (List.range S.segments.length).filter (· ∈ collected)

end Setup

/-! ## The bodies -/

abbrev Drain.readEnd64 (d : Drain) (seg : SegmentRef) : Nat :=
  min (sub64 (add64 seg.offsetInStream seg.bytes) 1) d.assembledEnd

def Fg.await64 (d : Drain) (seg : SegmentRef) : Ensure → Fg
  | .returned (.ok ()) => .reading d (d.readEnd64 seg) d.aPos
  | .returned (.error e) => .ended (.error e)
  | e => .ensuring d seg e

namespace Body

def emit64 (b : Body) (d : Drain) (readEnd readPos : Nat) (bytes : List UInt8) : Body :=
  { b with fg := .reading d readEnd (add64 readPos bytes.length), yielded := b.yielded ++ [bytes] }

def fgStep64 (S : Setup) (req : Request) (c : CachedFile) (inp : Input) (b : Body) :
    Option (CachedFile × Body) :=
  match b.fg with
  | .begin =>
    if req.start > req.stop then some (c, b.goto (.ended (.ok ())))
    else if S.serverCount = 0 then
      some (c, b.goto (.ended (.error "no NNTP servers configured")))
    else
      let indices :=
        if req.readAhead ≥ 2 then S.segmentIndicesInRange64 req.start req.stop else []
      some (c, { b with fg := .outer req.start, queue := indices })
  | .outer cursor =>
    if cursor ≤ req.stop then
      let chunkRemaining := S.layout.chunkRemaining64 cursor
      if chunkRemaining = 0 then
        some (c, b.goto (.ended (.error s!"cursor {cursor} past last chunk")))
      else
        let videoEnd := min (sub64 (add64 cursor chunkRemaining) 1) req.stop
        match S.layout.videoToAssembled64 cursor with
        | none => some (c, b.goto (.ended (.error s!"video byte {cursor} not mappable")))
        | some a => some (c, b.goto (.drain ⟨videoEnd, add64 a (sub64 videoEnd cursor), a⟩))
    else some (c, b.goto (.ended (.ok ())))
  | .drain d =>
    if d.aPos ≤ d.assembledEnd then
      match findSegmentForByte64 S.search S.segments d.aPos with
      | none => some (c, b.goto (.ended (.error s!"assembled byte {d.aPos} past last segment")))
      | some i =>
        S.segments[i]?.map fun seg =>
          if c.hasRange seg.offsetInStream (add64 seg.offsetInStream seg.bytes) then
            (c, { b with fg := .reading d (d.readEnd64 seg) d.aPos, serving := some i })
          else (c, { b with fg := .await64 d seg (.begin S.serverCount seg), serving := some i })
    else some (c, b.goto (.outer (add64 d.videoEnd 1)))
  | .ensuring d seg e =>
    (e.step seg c inp.answer).map fun (c', e') => (c', b.goto (.await64 d seg e'))
  | .reading d readEnd readPos =>
    if readPos ≤ readEnd then
      match c.readAt readPos (min (add64 (sub64 readEnd readPos) 1) chunkSize) with
      | .error e => some (c, b.goto (.ended (.error e)))
      | .ok bytes =>
        if bytes.length = 0 then
          some (c, b.goto (.ended (.error s!"zero-length cache read at {readPos}")))
        else some (c, b.emit64 d readEnd readPos bytes)
    else
      let d := { d with aPos := add64 readEnd 1 }
      match req.evict with
      | none => some (c, b.goto (.drain d))
      | some p => some (c, b.goto (.evicting d p .loading))
  | .evicting d _ .returned => some (c, b.goto (.drain d))
  | .evicting d p e =>
    (e.next p d.aPos c inp.punched).map fun (c', e') => (c', b.goto (.evicting d p e'))
  | .ended _ => none

def taskStep64 (S : Setup) (c : CachedFile) (inp : Input) (k : Nat) (b : Body) :
    Option (CachedFile × Body) :=
  b.tasks[k]?.bind fun (i, t) =>
    S.segments[i]?.bind fun seg =>
      match t with
      | .checking =>
        if c.hasRange seg.offsetInStream (add64 seg.offsetInStream seg.bytes) then
          some (c, b.setTask k i none)
        else
          some (c, { b with started := i :: b.started }.setTask k i
            (Task.await (.begin S.serverCount seg)))
      | .ensuring e =>
        (e.step seg c inp.answer).map fun (c', e') => (c', b.setTask k i (Task.await e'))

end Body

def World.step64 {ι : Type} [DecidableEq ι] (S : Setup) (req : ι → Request) (s : World ι) :
    Act ι → Option (World ι)
  | .fg i inp =>
    ((s.bodies i).fgStep64 S (req i) s.cache inp).map fun (c, b) => s.set i c b
  | .spawn i => ((s.bodies i).spawn (req i)).map fun b => s.set i s.cache b
  | .task i k inp => ((s.bodies i).taskStep64 S s.cache inp k).map fun (c, b) => s.set i c b

/-! ## Where nothing wraps -/

namespace FileLayout
variable {l : FileLayout} {cs : List DataChunk} {v : Nat}

theorem InWords.videoToAssembled64_eq (h : l.InWords) (v : Nat) :
    l.videoToAssembled64 v = l.videoToAssembled v := by
  have hfind : (l.chunks.find? fun c => v ≥ c.videoStart ∧ v < add64 c.videoStart c.length) =
      l.chunks.find? (·.holds v) := by
    refine List.find?_congr fun c hc => ?_
    rw [DataChunk.holds, add64_eq (h.chunks c hc)]
  rw [videoToAssembled64, videoToAssembled, hfind]
  refine Option.map_congr fun c hc => add64_eq ?_
  have hv := List.find?_some hc
  exact h.images c (List.mem_of_find?_eq_some hc) v hv

theorem chunkRemaining64_go_eq : ∀ {cs : List DataChunk},
    (∀ c ∈ cs, c.videoStart + c.length < 2 ^ 64) → chunkRemaining64.go v cs = chunkRemaining.go v cs
  | [], _ => rfl
  | c :: cs, h => by
    rw [chunkRemaining64.go, chunkRemaining.go, add64_eq (h c List.mem_cons_self),
      chunkRemaining64_go_eq fun d hd => h d (List.mem_cons_of_mem c hd)]
    simp only [DataChunk.holds_iff, ge_iff_le]

theorem InWords.chunkRemaining64_eq (h : l.InWords) (v : Nat) :
    l.chunkRemaining64 v = l.chunkRemaining v := chunkRemaining64_go_eq h.chunks

/-- The end of a chunk is a word. -/
theorem InWords.add_chunkRemaining_lt (h : l.InWords) (h0 : l.chunkRemaining v ≠ 0) :
    v + l.chunkRemaining v < 2 ^ 64 := by
  rw [chunkRemaining_eq] at h0 ⊢
  cases hf : l.chunks.find? (·.holds v) with
  | none => simp [hf] at h0
  | some c =>
    have hhold := List.find?_some hf
    obtain ⟨h1, h2⟩ := DataChunk.holds_iff.mp hhold
    have hstop := h.chunks c (List.mem_of_find?_eq_some hf)
    simp only [Option.map_some, Option.getD_some]
    omega

end FileLayout

variable {S : Setup} {req : Request} {c : CachedFile} {inp : Input} {b : Body} {s : Serving}
  {d : Drain} {seg : SegmentRef} {stop cursor : Nat}

/-- The piece at a cursor, in words. -/
theorem Setup.Servable.piece (h : S.Servable) (hle : cursor ≤ stop)
    (h0 : S.layout.chunkRemaining cursor ≠ 0) {a : Nat}
    (ha : S.layout.videoToAssembled cursor = some a) :
    min (sub64 (add64 cursor (S.layout.chunkRemaining cursor)) 1) stop =
        min (cursor + S.layout.chunkRemaining cursor - 1) stop ∧
      add64 a (sub64 (min (cursor + S.layout.chunkRemaining cursor - 1) stop) cursor) =
        a + (min (cursor + S.layout.chunkRemaining cursor - 1) stop - cursor) := by
  have hend := h.words.add_chunkRemaining_lt h0
  obtain ⟨-, hz⟩ | ⟨d, -, -, hd⟩ := Setup.pieceChecked_spec h.words hle
  · exact absurd hz h0
  obtain rfl : d.aPos = a := Option.some.inj (hd.maps.symm.trans ha)
  have hword := hd.word
  have hle' := hd.cursor_le
  rw [hd.assembledEnd, hd.videoEnd] at hword
  rw [hd.videoEnd] at hle'
  rw [add64_eq hend, sub64_eq hend (by omega), sub64_eq (by omega) hle', add64_eq hword]
  exact ⟨rfl, rfl⟩

theorem Setup.Servable.chunkIndices64_eq (h : S.Servable) (hstop : stop < 2 ^ 64 - 1)
    (hle : cursor ≤ stop) : S.chunkIndices64 stop cursor = S.chunkIndices stop cursor := by
  unfold Setup.chunkIndices64 Setup.chunkIndices
  rw [h.words.chunkRemaining64_eq, h.words.videoToAssembled64_eq]
  simp only
  split
  · rfl
  · next h0 =>
    refine Option.map_congr fun a ha => ?_
    obtain ⟨h1, h2⟩ := h.piece hle h0 ha
    rw [h1, h2, findSegmentForByte64_eq h.words.segments, findSegmentForByte64_eq h.words.segments]
    exact Prod.ext rfl (add64_eq (by omega))

theorem Setup.Servable.indicesFrom64_eq (h : S.Servable) (hstop : stop < 2 ^ 64 - 1) :
    ∀ fuel cursor : Nat, S.indicesFrom64 stop fuel cursor = S.indicesFrom stop fuel cursor
  | 0, _ => rfl
  | fuel + 1, cursor => by
    rw [Setup.indicesFrom64, Setup.indicesFrom]
    split
    · next hle =>
      rw [h.chunkIndices64_eq hstop hle]
      cases S.chunkIndices stop cursor with
      | none => rfl
      | some found => exact congrArg (found.1 ++ ·) (h.indicesFrom64_eq hstop fuel found.2)
    · rfl

theorem Setup.Servable.segmentIndicesInRange64_eq (h : S.Servable) (hstop : stop < 2 ^ 64 - 1)
    (start : Nat) : S.segmentIndicesInRange64 start stop = S.segmentIndicesInRange start stop := by
  unfold Setup.segmentIndicesInRange64 Setup.segmentIndicesInRange
  rw [h.indicesFrom64_eq hstop]

/-- The last byte to read of a segment that holds a byte. -/
theorem Drain.readEnd64_eq (hstop : seg.stop < 2 ^ 64) (hpos : 0 < seg.stop) :
    d.readEnd64 seg = d.readEnd seg := by
  have hend : add64 seg.offsetInStream seg.bytes = seg.stop := add64_eq hstop
  rw [Drain.readEnd64, Drain.readEnd, hend, sub64_eq hstop hpos]

theorem Fg.await64_eq (hstop : seg.stop < 2 ^ 64) (hpos : 0 < seg.stop) (e : Ensure) :
    Fg.await64 d seg e = Fg.await d seg e := by
  rcases e with _ | _ | _ | (_ | _)
  case returned.ok => simp only [Fg.await64, Fg.await, Drain.readEnd64_eq hstop hpos]
  all_goals rfl

/-- A segment that is found ends in a word, and holds a byte. -/
theorem Setup.Servable.found (h : S.Servable) {i byte : Nat}
    (hi : findSegmentForByte S.search S.segments byte = some i) (hseg : S.segments[i]? = some seg) :
    seg.stop < 2 ^ 64 ∧ 0 < seg.stop := by
  obtain ⟨t, ht, -, hlt⟩ := findSegmentForByte_sound h.sorted hi
  obtain rfl : seg = t := Option.some.inj (hseg.symm.trans ht)
  exact ⟨h.words.segments seg (List.mem_of_getElem? hseg), by omega⟩

/-- **A step of the foreground loop in words is the exact one**, where the body follows the serving
loops. -/
theorem Body.Follows.fgStep64_eq (h : S.Servable) (hstop : req.stop < 2 ^ 64 - 1)
    (hw : s.Inv S req) (hf : b.Follows S req s) :
    b.fgStep64 S req c inp = b.fgStep S req c inp := by
  have hat := hf.at_fg
  have hin := hw.within
  unfold Body.fgStep64 Body.fgStep
  cases hfg : b.fg with
  | begin => simp only [h.segmentIndicesInRange64_eq hstop]
  | outer cursor =>
    simp only [h.words.chunkRemaining64_eq, h.words.videoToAssembled64_eq]
    split
    · next hle =>
      split
      · rfl
      · next h0 =>
        cases ha : S.layout.videoToAssembled cursor with
        | none => rfl
        | some a =>
          obtain ⟨h1, h2⟩ := h.piece hle h0 ha
          simp only [h1, h2]
    · rfl
  | drain d =>
    rw [hfg] at hat
    rw [show s.loop = .drain d from hat] at hin
    obtain ⟨hle, -⟩ := hin
    simp only [findSegmentForByte64_eq h.words.segments,
      add64_eq (show d.videoEnd + 1 < 2 ^ 64 by omega)]
    split
    · cases hi : findSegmentForByte S.search S.segments d.aPos with
      | none => rfl
      | some i =>
        simp only
        refine Option.map_congr fun seg hseg => ?_
        obtain ⟨hend, hpos⟩ := h.found hi hseg
        rw [Drain.readEnd64_eq hend hpos, Fg.await64_eq hend hpos, add64_eq hend]
    · rfl
  | ensuring d seg e =>
    rw [hfg] at hat
    obtain ⟨-, -, i, hi, hseg⟩ := hat
    obtain ⟨hend, hpos⟩ := h.found hi hseg
    simp only [Fg.await64_eq hend hpos]
  | reading d readEnd readPos =>
    rw [hfg] at hat
    rw [show s.loop = .reading d readEnd readPos from hat] at hin
    obtain ⟨-, -, -, -, -, hword⟩ := hin
    simp only [add64_eq hword]
    split
    · next hle =>
      have hwant : add64 (sub64 readEnd readPos) 1 = readEnd - readPos + 1 := by
        rw [sub64_eq (by omega) hle, add64_eq (by omega)]
      rw [hwant]
      rcases CachedFile.readAt_chunk (c := c) with ⟨-, hr⟩ | ⟨-, m, hr⟩
      · have hlen : (c.readChunk readEnd readPos).length ≤ readEnd - readPos + 1 := by
          rw [CachedFile.readBytes_length]
          exact Nat.min_le_left _ _
        rw [hr]
        simp only [Body.emit64, Body.emit,
          add64_eq (show readPos + (c.readChunk readEnd readPos).length < 2 ^ 64 by omega)]
      · rw [hr]
    · rfl
  | evicting d p e => cases e <;> rfl
  | ended r => rfl

/-- A step of a prefetch adds up the end of its segment, and nothing else. -/
theorem Body.taskStep64_eq (h : ∀ seg ∈ S.segments, seg.stop < 2 ^ 64) (k : Nat) :
    b.taskStep64 S c inp k = b.taskStep S c inp k := by
  unfold Body.taskStep64 Body.taskStep
  refine Option.bind_congr fun (i, t) hk => Option.bind_congr fun seg hseg => ?_
  have hend : add64 seg.offsetInStream seg.bytes = seg.stop :=
    add64_eq (h seg (List.mem_of_getElem? hseg))
  cases t with
  | checking => simp only [hend]
  | ensuring e => rfl

/-! ## Runs -/

variable {ι : Type} [DecidableEq ι] {reqs : ι → Request} {w : World ι}

theorem World.Followed.step64_eq (h : S.Servable) (hstop : ∀ i, (reqs i).stop < 2 ^ 64 - 1)
    (hw : w.Followed S reqs) (a : Act ι) : w.step64 S reqs a = w.step S reqs a := by
  cases a with
  | fg i inp =>
    obtain ⟨s, hs, hf⟩ := hw i
    rw [World.step64, World.step, hf.fgStep64_eq h (hstop i) hs]
  | spawn i => rfl
  | task i k inp => rw [World.step64, World.step, Body.taskStep64_eq h.words.segments]

omit [DecidableEq ι] in
theorem World.followed_init : (World.init c : World ι).Followed S reqs := fun j =>
  ⟨.begin S (reqs j), Serving.inv_begin S (reqs j), Body.follows_fresh⟩

/-- **A run in words is an exact run**, on segments in order and sums that fit. -/
theorem World.reaches_of_words {ok : World ι → Act ι → Prop} (h : S.Servable)
    (hstop : ∀ i, (reqs i).stop < 2 ^ 64 - 1)
    (hr : Reaches (World.step64 S reqs) ok (.init c) w) :
    Reaches (World.step S reqs) ok (.init c) w := by
  have hexact : ∀ t a u, World.Followed S reqs t → t.step64 S reqs a = some u →
      t.step S reqs a = some u := fun t a u ht hs => ht.step64_eq h hstop a ▸ hs
  show Reaches (World.step S reqs) ok (id (World.init c)) (id w)
  refine hr.simulated World.followed_init
    (fun t a u ht _ hs => ht.step h hstop (hexact t a u ht hs)) fun t a u ht hok hs => ?_
  exact (Reaches.refl t).snoc hok (hexact t a u ht hs)

end StremioNzb.Streaming

import StremioNzb.Lib.Runs
import StremioNzb.Streaming.DiskCache
import StremioNzb.Streaming.Session

/-!
# The streaming pipeline

`pipeline.rs`: the response bodies of `serve_range_stream` that share one cache file, each a
foreground loop with its prefetcher. A step is one lock-protected access to the file, the
populated ranges or the watermark, or one answer of a server, with the local code around it.
Which body moves, which of its prefetches, what a server answers and whether a hole punch
succeeds is left to the environment (`Act`, `Input`).

A body whose client has gone takes no more steps; its prefetches, aborted at some await, are
runs in which they take no more either.

Sums are exact here; `WordPipeline` has the loops as a release build runs them, and says where the
two agree.
-/

namespace StremioNzb.Streaming

open StremioNzb.Lib

/-- Most bytes yielded at once. -/
def chunkSize : Nat := 256 * 1024

structure EvictPolicy where
  /-- Bytes at the start of the file that are never evicted. -/
  headerPin : Nat
  /-- Bytes behind the playhead to keep. -/
  backbuffer : Nat
  /-- Least size of a punch. -/
  step : Nat
  deriving DecidableEq, Repr

/-- Arguments of `serve_range_stream`: the range is inclusive. -/
structure Request where
  start : Nat
  stop : Nat
  readAhead : Nat
  evict : Option EvictPolicy
  deriving DecidableEq, Repr

/-- What the bodies share apart from the cache file. -/
structure Setup where
  layout : FileLayout
  search : SegmentSearch
  serverCount : Nat

abbrev Setup.segments (S : Setup) : List SegmentRef := S.layout.segments

/-! ## `segment_indices_in_range` -/

/-- The segments of the piece of chunk from `cursor` on, and where the next piece begins. -/
def Setup.chunkIndices (S : Setup) (stop cursor : Nat) : Option (List Nat × Nat) :=
  let chunkRemaining := S.layout.chunkRemaining cursor
  if chunkRemaining = 0 then none
  else
    let chunkVideoEnd := min (cursor + chunkRemaining - 1) stop
    (S.layout.videoToAssembled cursor).map fun assembledStart =>
      let assembledEnd := assembledStart + (chunkVideoEnd - cursor)
      (match findSegmentForByte S.search S.segments assembledStart,
          findSegmentForByte S.search S.segments assembledEnd with
        | some lo, some hi => List.range' lo (hi + 1 - lo)
        | _, _ => [], chunkVideoEnd + 1)

/-- The loop, with as much fuel as there are bytes left. -/
def Setup.indicesFrom (S : Setup) (stop : Nat) : Nat → Nat → List Nat
  | 0, _ => []
  | fuel + 1, cursor =>
    if cursor ≤ stop then
      match S.chunkIndices stop cursor with
      | none => []
      | some (indices, next) => indices ++ S.indicesFrom stop fuel next
    else []

/-- The indices collected, in ascending order. -/
def Setup.segmentIndicesInRange (S : Setup) (start stop : Nat) : List Nat :=
  let collected := S.indicesFrom stop (stop + 1 - start) start
  (List.range S.segments.length).filter (· ∈ collected)

/-! ## `ensure_segment_cached` -/

/-- What comes of asking a server for an article. -/
inductive Answer where
  | fetchError (e : String)
  | decodeError (e : String)
  | decoded (data : List UInt8)
  deriving DecidableEq, Repr

/-- The choices of the environment in a step. -/
structure Input where
  answer : Answer := .fetchError ""
  /-- The hole punch succeeds. -/
  punched : Bool := true

/-- The preferred server, clamped to the list, changes places with the first. -/
def serverOrder (serverCount serverIndex : Nat) : List Nat :=
  let preferred := min serverIndex (serverCount - 1)
  ((List.range serverCount).set 0 preferred).set preferred 0

inductive Ensure where
  | fetching (order : List Nat) (lastErr : Option String)
  /-- A payload is decoded, to be written at the segment's offset. -/
  | writing (bytes : List UInt8)
  /-- The bytes are in the file, the insertion is to come. -/
  | marking (start stop : Nat)
  | returned (r : Except String Unit)

namespace Ensure

def begin (serverCount : Nat) (seg : SegmentRef) : Ensure :=
  if serverCount = 0 then .returned (.error "no NNTP servers configured")
  else .fetching (serverOrder serverCount seg.serverIndex) none

def step (seg : SegmentRef) (c : CachedFile) (answer : Answer) :
    Ensure → Option (CachedFile × Ensure)
  | .fetching [] lastErr =>
    some (c, .returned (.error (lastErr.getD s!"no NNTP servers available for {seg.messageId}")))
  | .fetching (_ :: rest) _ =>
    match answer with
    | .fetchError e => some (c, .fetching rest (some e))
    | .decodeError e => some (c, .fetching rest (some s!"yEnc decode failed: {e}"))
    | .decoded data =>
      if data.isEmpty then
        some (c, .fetching rest (some s!"decoded segment {seg.messageId} empty"))
      else
        let toWrite := if data.length > seg.bytes then data.take seg.bytes else data
        match c.checkWrite seg.offsetInStream toWrite with
        | .error e => some (c, .returned (.error e))
        | .ok none => some (c, .returned (.ok ()))
        | .ok (some _) => some (c, .writing toWrite)
  | .writing bytes =>
    some (c.writeFile seg.offsetInStream bytes,
      .marking seg.offsetInStream (seg.offsetInStream + bytes.length))
  | .marking start stop => some (c.markPopulated start stop, .returned (.ok ()))
  | .returned _ => none

end Ensure

/-! ## `maybe_evict_behind` -/

inductive Evict where
  | loading
  | punching (start stop : Nat)
  | clearing (start stop : Nat)
  | storing (evictTo : Nat)
  | returned
  deriving DecidableEq, Repr

def Evict.next (p : EvictPolicy) (playhead : Nat) (c : CachedFile) (punched : Bool) :
    Evict → Option (CachedFile × Evict)
  | .loading =>
    match CachedFile.evictWindow c.lastEvictedTo playhead p.headerPin p.backbuffer p.step with
    | none => some (c, .returned)
    | some (start, stop) =>
      match c.checkEvict start stop with
      | .error _ => some (c, .returned)
      | .ok false => some (c, .storing stop)
      | .ok true => some (c, .punching start stop)
  | .punching start stop =>
    if punched then some (c.punchHole start stop, .clearing start stop) else some (c, .returned)
  | .clearing start stop => some (c.clearPopulated start stop, .storing stop)
  | .storing evictTo => some (c.storeWatermark evictTo, .returned)
  | .returned => none

/-! ## The foreground loop -/

/-- The piece of a chunk being drained: its last video byte and its last assembled byte, and the
assembled byte to serve next. -/
structure Drain where
  videoEnd : Nat
  assembledEnd : Nat
  aPos : Nat
  deriving DecidableEq, Repr

inductive Fg where
  | begin
  | outer (cursor : Nat)
  | drain (d : Drain)
  | ensuring (d : Drain) (seg : SegmentRef) (e : Ensure)
  | reading (d : Drain) (readEnd readPos : Nat)
  | evicting (d : Drain) (p : EvictPolicy) (e : Evict)
  | ended (r : Except String Unit)

/-- Last byte to read from the segment. -/
abbrev Drain.readEnd (d : Drain) (seg : SegmentRef) : Nat := min (seg.stop - 1) d.assembledEnd

/-- On to what follows `ensure_segment_cached` where it has returned. -/
def Fg.await (d : Drain) (seg : SegmentRef) : Ensure → Fg
  | .returned (.ok ()) => .reading d (d.readEnd seg) d.aPos
  | .returned (.error e) => .ended (.error e)
  | e => .ensuring d seg e

inductive Task where
  | checking
  | ensuring (e : Ensure)

/-- A prefetch is over when `ensure_segment_cached` has returned. -/
def Task.await : Ensure → Option Task
  | .returned _ => none
  | e => some (.ensuring e)

structure Body where
  fg : Fg
  yielded : List (List UInt8)
  /-- The segment being served. -/
  serving : Option Nat
  /-- Segments that the prefetcher has yet to look at, and those in flight. -/
  queue : List Nat
  tasks : List (Nat × Task)
  /-- Segments whose fetch the prefetcher has started. -/
  started : List Nat

namespace Body

def fresh : Body := ⟨.begin, [], none, [], [], []⟩

def goto (b : Body) (fg : Fg) : Body := { b with fg }

/-- Yield `bytes`, read at `readPos`. -/
def emit (b : Body) (d : Drain) (readEnd readPos : Nat) (bytes : List UInt8) : Body :=
  { b with fg := .reading d readEnd (readPos + bytes.length), yielded := b.yielded ++ [bytes] }

def fgStep (S : Setup) (req : Request) (c : CachedFile) (inp : Input) (b : Body) :
    Option (CachedFile × Body) :=
  match b.fg with
  | .begin =>
    if req.start > req.stop then some (c, b.goto (.ended (.ok ())))
    else if S.serverCount = 0 then
      some (c, b.goto (.ended (.error "no NNTP servers configured")))
    else
      let indices :=
        if req.readAhead ≥ 2 then S.segmentIndicesInRange req.start req.stop else []
      some (c, { b with fg := .outer req.start, queue := indices })
  | .outer cursor =>
    if cursor ≤ req.stop then
      let chunkRemaining := S.layout.chunkRemaining cursor
      if chunkRemaining = 0 then
        some (c, b.goto (.ended (.error s!"cursor {cursor} past last chunk")))
      else
        let videoEnd := min (cursor + chunkRemaining - 1) req.stop
        match S.layout.videoToAssembled cursor with
        | none => some (c, b.goto (.ended (.error s!"video byte {cursor} not mappable")))
        | some a => some (c, b.goto (.drain ⟨videoEnd, a + (videoEnd - cursor), a⟩))
    else some (c, b.goto (.ended (.ok ())))
  | .drain d =>
    if d.aPos ≤ d.assembledEnd then
      match findSegmentForByte S.search S.segments d.aPos with
      | none => some (c, b.goto (.ended (.error s!"assembled byte {d.aPos} past last segment")))
      | some i =>
        S.segments[i]?.map fun seg =>
          if c.hasRange seg.offsetInStream seg.stop then
            (c, { b with fg := .reading d (d.readEnd seg) d.aPos, serving := some i })
          else (c, { b with fg := .await d seg (.begin S.serverCount seg), serving := some i })
    else some (c, b.goto (.outer (d.videoEnd + 1)))
  | .ensuring d seg e =>
    (e.step seg c inp.answer).map fun (c', e') => (c', b.goto (.await d seg e'))
  | .reading d readEnd readPos =>
    if readPos ≤ readEnd then
      match c.readAt readPos (min (readEnd - readPos + 1) chunkSize) with
      | .error e => some (c, b.goto (.ended (.error e)))
      | .ok bytes =>
        if bytes.length = 0 then
          some (c, b.goto (.ended (.error s!"zero-length cache read at {readPos}")))
        else some (c, b.emit d readEnd readPos bytes)
    else
      let d := { d with aPos := readEnd + 1 }
      match req.evict with
      | none => some (c, b.goto (.drain d))
      | some p => some (c, b.goto (.evicting d p .loading))
  | .evicting d _ .returned => some (c, b.goto (.drain d))
  | .evicting d p e =>
    (e.next p d.aPos c inp.punched).map fun (c', e') => (c', b.goto (.evicting d p e'))
  | .ended _ => none

/-! ## The prefetcher -/

/-- `buffer_unordered`: take the next segment where fewer than `readAhead` are in flight. -/
def spawn (req : Request) (b : Body) : Option Body :=
  match b.queue with
  | [] => none
  | i :: rest =>
    if b.tasks.length < req.readAhead then
      some { b with queue := rest, tasks := b.tasks ++ [(i, .checking)] }
    else none

def setTask (b : Body) (k i : Nat) : Option Task → Body
  | none => { b with tasks := b.tasks.eraseIdx k }
  | some t => { b with tasks := b.tasks.set k (i, t) }

def taskStep (S : Setup) (c : CachedFile) (inp : Input) (k : Nat) (b : Body) :
    Option (CachedFile × Body) :=
  b.tasks[k]?.bind fun (i, t) =>
    S.segments[i]?.bind fun seg =>
      match t with
      | .checking =>
        if c.hasRange seg.offsetInStream seg.stop then some (c, b.setTask k i none)
        else
          some (c, { b with started := i :: b.started }.setTask k i
            (Task.await (.begin S.serverCount seg)))
      | .ensuring e =>
        (e.step seg c inp.answer).map fun (c', e') => (c', b.setTask k i (Task.await e'))

end Body

/-! ## The bodies together -/

structure World (ι : Type) where
  cache : CachedFile
  bodies : ι → Body

inductive Act (ι : Type) where
  | fg (i : ι) (inp : Input)
  | spawn (i : ι)
  | task (i : ι) (k : Nat) (inp : Input)

namespace World
variable {ι : Type} [DecidableEq ι]

def set (s : World ι) (i : ι) (c : CachedFile) (b : Body) : World ι :=
  ⟨c, fun j => if j = i then b else s.bodies j⟩

def step (S : Setup) (req : ι → Request) (s : World ι) : Act ι → Option (World ι)
  | .fg i inp =>
    ((s.bodies i).fgStep S (req i) s.cache inp).map fun (c, b) => s.set i c b
  | .spawn i => ((s.bodies i).spawn (req i)).map fun b => s.set i s.cache b
  | .task i k inp => ((s.bodies i).taskStep S s.cache inp k).map fun (c, b) => s.set i c b

/-- Bodies about to start on a cache file. -/
def init (c : CachedFile) : World ι := ⟨c, fun _ => .fresh⟩

end World

end StremioNzb.Streaming

import StremioNzb.Addon.Candidates
import StremioNzb.Addon.HttpRange
import StremioNzb.Lib.OnceCell
import StremioNzb.Streaming.Preflight

/-!
# `video_route`

`video_route` of `main.rs` on the sessions of `register_group`. The first request for a session
walks its candidates (`walk`), the others wait for it at the cell of the active stream. A step of
a request is what it does between two awaits; what the network answers to an attempt is a `Net`,
another one at every attempt.
-/

namespace StremioNzb.Addon

open StremioNzb.Lib StremioNzb.Streaming

/-! ## The walk over the candidates -/

structure Walk where
  idx : Nat
  lastErr : Option PreflightError
  committed : Option ActiveStream

/-- The closure of `get_or_try_init`; an act is one `probe_candidate`. -/
def walk (candidates : List NzbCandidate) (startIdx : Nat) (token : String) :
    Initialiser Net Walk PreflightError ActiveStream where
  start := ⟨startIdx, none, none⟩
  work w net := match candidates[w.idx]? with
    | none => w
    | some candidate => match net.probeCandidateInner candidate.nzbUrl token with
      | .ok active => { w with committed := some { active with candidateIdx := w.idx } }
      | .error e => { w with idx := w.idx + 1, lastErr := some e }
  result w := match w.committed with
    | some active => some (.ok active)
    | none =>
      if w.idx < candidates.length then none
      else some (.error (w.lastErr.getD .noPlayableFile))

/-! ## Responses -/

inductive ResponseBody where
  | text (m : String)
  | stream (active : ActiveStream) (req : Request)

/-- The status, the headers that the route sets, and the body. -/
structure Response where
  status : Nat
  contentType : Option String
  acceptRanges : Option String
  contentLength : Option Nat
  contentRange : Option String
  body : ResponseBody

def Response.ofText (status : Nat) (m : String) : Response :=
  ⟨status, none, none, none, none, .text m⟩

def contentRangeUnsatisfied (total : Nat) : String := s!"bytes */{total}"

def RangeError.display : RangeError → String
  | malformed => "malformed Range header"
  | multiRange => "multi-range requests are not supported"
  | notSatisfiable => "range not satisfiable"

/-- `read_ahead_segments` and `evict_policy` of the state. -/
structure StreamConfig where
  readAheadSegments : Nat
  evictPolicy : Option EvictPolicy

namespace StreamConfig
variable (cfg : StreamConfig)

/-- The response that streams the bytes from `start` to `stop`. -/
def serve (active : ActiveStream) (status start stop : Nat) : Response where
  status := status
  contentType := some active.contentType
  acceptRanges := some "bytes"
  contentLength := Addon.contentLength start stop
  contentRange :=
    if status = 206 then some (contentRangeHeader start stop active.totalSize) else none
  body := .stream active ⟨start, stop, cfg.readAheadSegments, cfg.evictPolicy⟩

/-- What follows the preflight. -/
def respond (token : String) (range : Option String) (active : ActiveStream) : Response :=
  match parseRange range active.totalSize with
  | .error .notSatisfiable =>
    { Response.ofText 416 s!"range not satisfiable for {token}" with
      contentRange := some (contentRangeUnsatisfied active.totalSize) }
  | .error e => .ofText 400 s!"range error: {e.display}"
  | .ok .full => cfg.serve active 200 0 (active.totalSize - 1)
  | .ok (.partialRange start stop) => cfg.serve active 206 start stop

end StreamConfig

/-! ## Requests and sessions -/

def stripSuffix (tail s : String) : Option String :=
  if tail.toList.isSuffixOf s.toList then
    some (String.ofList (s.toList.take (s.length - tail.length)))
  else none

/-- The token of the path. -/
def pathToken (tokenWithExt : String) : String :=
  ((stripSuffix ".mkv" tokenWithExt).or (stripSuffix ".mp4" tokenWithExt)).getD tokenWithExt

/-- The session of a group, with its candidates and its cell. -/
structure GroupSession (ι : Type) where
  candidates : List NzbCandidate
  startIdx : Nat
  active : OnceCell ι Net Walk PreflightError ActiveStream

namespace GroupSession
variable {ι : Type} (session : GroupSession ι)

abbrev walk (token : String) : Initialiser Net Walk PreflightError ActiveStream :=
  Addon.walk session.candidates session.startIdx token

end GroupSession

inductive Route where
  | coming
  /-- The session is there, to ask for the servers next. -/
  | found (token : String) (range : Option String)
  /-- In `get_or_try_init`. -/
  | calling (token : String) (range : Option String)
  | responded (token : String) (range : Option String) (r : Response)
  /-- The client has gone. -/
  | gone

structure Videos (ι : Type) where
  /-- The sessions ever registered; a request keeps the one that it has found. -/
  sessions : String → Option (GroupSession ι)
  registry : List String
  routes : ι → Route

inductive VideosAct (ι : Type) where
  | registerGroup (token : String) (candidates : List NzbCandidate)
  /-- A session is removed by the collector. -/
  | remove (token : String)
  | get (i : ι) (tokenWithExt : String) (range : Option String)
  /-- The pool of servers is read; there is one (`servers`) or not. -/
  | readPool (i : ι) (servers : Bool)
  | enter (i : ι)
  | probe (i : ι) (net : Net)
  | respond (i : ι)
  | close (i : ι)

namespace Videos
variable {ι : Type} [DecidableEq ι] (s : Videos ι)

def init : Videos ι := ⟨fun _ => none, [], fun _ => .coming⟩

def goto (i : ι) (r : Route) : Videos ι := { s with routes := Function.update s.routes i r }

def setSession (token : String) (session : GroupSession ι) : Videos ι :=
  { s with sessions := Function.update s.sessions token (some session) }

/-- A step of the request at the cell of its session. -/
def atCell (i : ι) (a : OnceCell.Act ι Net) : Option (Videos ι) :=
  match s.routes i with
  | .calling token _ => (s.sessions token).bind fun session =>
    (session.active.step (session.walk token) a).map fun active =>
      s.setSession token { session with active }
  | _ => none

/-- The response to what the preflight came to. -/
def outcome (cfg : StreamConfig) (token : String) (range : Option String) :
    Caller Walk PreflightError ActiveStream → Option Response
  | .got active => some (cfg.respond token range active)
  | .failed e => some (.ofText 502 s!"preflight failed: {e.display}")
  | _ => none

def get (i : ι) (tokenWithExt : String) (range : Option String) : Videos ι :=
  let token := pathToken tokenWithExt
  s.goto i (if token ∈ s.registry then .found token range
    else .responded token range (.ofText 404 s!"unknown token: {token}"))

def readPool (i : ι) (servers : Bool) : Option (Videos ι) :=
  match s.routes i with
  | .found token range =>
    if servers then
      (s.goto i (.calling token range)).atCell i (.call i)
    else some (s.goto i (.responded token range (.ofText 503 "no NNTP servers configured")))
  | _ => none

def respond (cfg : StreamConfig) (i : ι) : Option (Videos ι) :=
  match s.routes i with
  | .calling token range => (s.sessions token).bind fun session =>
    (outcome cfg token range (session.active.callers i)).map fun r =>
      s.goto i (.responded token range r)
  | _ => none

def close (i : ι) : Option (Videos ι) :=
  match s.routes i with
  | .calling _ _ => some (((s.atCell i (.cancel i)).getD s).goto i .gone)
  | .found _ _ | .responded _ _ _ => some (s.goto i .gone)
  | _ => none

def step (cfg : StreamConfig) (s : Videos ι) : VideosAct ι → Option (Videos ι)
  | .registerGroup token candidates =>
    if s.sessions token = none then
      some { s.setSession token ⟨candidates, 0, .empty⟩ with registry := token :: s.registry }
    else none
  | .remove token => some { s with registry := s.registry.filter (· ≠ token) }
  | .get i tokenWithExt range => match s.routes i with
    | .coming => some (s.get i tokenWithExt range)
    | _ => none
  | .readPool i servers => s.readPool i servers
  | .enter i => s.atCell i (.enter i)
  | .probe i net => s.atCell i (.work i net)
  | .respond i => s.respond cfg i
  | .close i => s.close i

variable {s} in
/-- A step at a cell is one of the cell that the request is at. -/
theorem atCell_eq_some {i : ι} {a : OnceCell.Act ι Net} {s' : Videos ι}
    (h : s.atCell i a = some s') : ∃ token range session active,
      s.routes i = .calling token range ∧ s.sessions token = some session ∧
      session.active.step (session.walk token) a = some active ∧
      s' = s.setSession token { session with active } := by
  unfold atCell at h
  split at h
  · next token range hi =>
    obtain ⟨session, hs, h⟩ := Option.bind_eq_some_iff.mp h
    obtain ⟨active, ha, rfl⟩ := Option.map_eq_some_iff.mp h
    exact ⟨token, range, session, active, hi, hs, ha, rfl⟩
  · cases h

end Videos

end StremioNzb.Addon

import StremioNzb.Addon.Canaries
import StremioNzb.Addon.NzbFetch

/-!
# The availability probe

`nzb_availability.rs`: one request for the NZB, then a `BODY` of every canary on every server,
one after the other until one is not there.
-/

namespace StremioNzb.Addon

open StremioNzb.Lib StremioNzb.Streaming

structure AvailabilityResult where
  ok : Bool
  reason : Option String
  deriving DecidableEq, Repr

/-- The log filters, the NZB parser and the hash. -/
structure ProbeEnv where
  redactLog : String → String
  redactUrl : String → String
  parseNzb : String → Except String Nzb
  classes : CharClasses
  sha1Short : String → String

/-- What the `n`-th `BODY` probe finds, of an article on a server. -/
abbrev BodyAnswers := Nat → String → String → Except String Bool

namespace ProbeEnv
variable (env : ProbeEnv)

/-- The text of the NZB. -/
def fetchText : Upstream → Except ProbeFailure String
  | .sendFailed err => .error (.fetchFailed (env.redactLog err))
  | .response status contentLength text =>
    if !isSuccess status then .error (.httpStatus status)
    else match contentLength.filter (· > maxNzbSize) with
      | some cl => .error (.tooLarge cl)
      | none => match text with
        | .error err => .error (.readFailed (env.redactLog err))
        | .ok xml =>
          if xml.utf8ByteSize > maxNzbSize then .error (.tooLarge xml.utf8ByteSize) else .ok xml

/-- The articles that are to be probed. -/
def canariesOf (xml : String) : Except ProbeFailure (List String) := do
  let nzb ← (env.parseNzb xml).mapError fun err => .parseFailed (env.redactLog err)
  canaries env.classes nzb

/-- The probes, in their order. -/
def probeOrder (servers ids : List String) : List (String × String) :=
  servers.flatMap fun server => ids.map fun id => (server, id)

/-- Probe until an article is missing or a probe fails. -/
def probeAll (answers : BodyAnswers) : Nat → List (String × String) → Except ProbeFailure Unit
  | _, [] => .ok ()
  | n, (server, id) :: rest => match answers n server id with
    | .ok true => probeAll answers (n + 1) rest
    | .ok false => .error (.missingOnServer (env.redactUrl server))
    | .error err => .error (.probeError (env.redactUrl server) (env.redactLog err))

def probe (servers : List String) (upstream : Upstream) (answers : BodyAnswers) :
    Except ProbeFailure Unit := do
  let xml ← env.fetchText upstream
  let ids ← env.canariesOf xml
  env.probeAll answers 0 (probeOrder servers ids)

/-- `cache_key_for`: the same for every order of the servers. -/
def availKey (nzbUrl : String) (serverUrls : List String) : String :=
  let sorted := serverUrls.insertionSort (· ≤ ·)
  "nzb-avail:" ++ env.sha1Short (nzbUrl ++ "|" ++ ",".intercalate sorted)

end ProbeEnv

def availabilityVerdict : Except ProbeFailure Unit → AvailabilityResult
  | .ok () => ⟨true, none⟩
  | .error failure => ⟨false, some failure.reason⟩

end StremioNzb.Addon

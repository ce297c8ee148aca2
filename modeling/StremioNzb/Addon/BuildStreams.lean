import StremioNzb.Addon.Availability
import StremioNzb.Addon.Config
import StremioNzb.Addon.HttpRange
import StremioNzb.Addon.Languages
import StremioNzb.Addon.Streams
import StremioNzb.Addon.VideoRoute

/-!
# `build_streams`

The search of `stream.rs` from the request to the streams that it offers: what the indexers find,
the filters of `quality.rs` and `content_filter.rs`, the cap, the two validations and the groups,
each with a session of its own. What the addon asks of others in a search is `SearchAnswers`.
-/

namespace StremioNzb.Addon

open StremioNzb.Lib StremioNzb.Streaming

/-- The title parser, the regular expressions (a pattern, whether case counts not), the hosts of
URLs and the formatting of a size, which is in floating point. -/
structure StreamEnv where
  cls : CharClasses
  metadata : String → Option Metadata
  regex : String → Bool → Option (String → Bool)
  host : String → Option String
  humanSize : Nat → String

abbrev StreamEnv.tp (env : StreamEnv) : TitleParser := titleParser env.cls env.metadata

/-- What is answered in one search: by the `k`-th indexer, by TVDB and Cinemeta, and by the two
validations to the `k`-th of their items. -/
structure SearchAnswers where
  channel : Nat → NzbWebApi → Search → Except String (Option (List Hit))
  imdbToTvdb : String → Option String
  originalLanguages : String → String → List String
  sanity : Nat → String → SanityResult
  availability : Nat → List String → String → AvailabilityResult

/-! ## The search -/

/-- `trim_start_matches("tt")` -/
def trimStartTt : List Char → List Char
  | 't' :: 't' :: cs => trimStartTt cs
  | cs => cs

/-- The first part and the rest, nothing where there is no colon. -/
def atColon (cs : List Char) : List Char × List Char := (splitOnce ':' cs).getD (cs, [])

/-- `imdb:season:episode`; the episode takes what follows. -/
def seriesParts (id : String) : String × String × String :=
  let imdb := atColon id.toList
  let season := atColon imdb.2
  (String.ofList imdb.1, String.ofList season.1, String.ofList season.2)

/-- The items of a channel, nothing of a call that fails. -/
def channelItems : Except String (Option (List Hit)) → List Hit
  | .ok (some items) => items
  | .ok none | .error _ => []

namespace SearchAnswers
variable (answers : SearchAnswers)

/-- What the indexers are asked for, if anything. -/
def searchFor (type_ id : String) : Option Search :=
  if type_ = "movie" then some (.movie (String.ofList (trimStartTt id.toList)))
  else if type_ = "series" then
    let parts := seriesParts id
    (answers.imdbToTvdb parts.1).map fun tvdb => .series tvdb parts.2.1 parts.2.2
  else none

/-- The items of the calls that succeed, in the order of the indexers. -/
def fanout (apis : List NzbWebApi) (search : Search) : List Hit :=
  apis.zipIdx.flatMap fun p => channelItems (answers.channel p.2 p.1 search)

def found (user : UserConfig) (type_ id : String) : List Hit :=
  ((answers.searchFor type_ id).map
    (answers.fanout (user.indexers.map fun i => ⟨i.url, i.apiKey⟩))).getD []

/-- `imdb_id`: the title that Cinemeta is asked about, nothing where it is not asked. -/
def imdbId (type_ id : String) : String :=
  if type_ = "movie" then "tt" ++ String.ofList (trimStartTt id.toList)
  else if type_ = "series" then (seriesParts id).1 else ""

def originals (type_ id : String) : List String :=
  if (imdbId type_ id).isEmpty then [] else answers.originalLanguages type_ (imdbId type_ id)

end SearchAnswers

/-! ## The quality window -/

/-- The value of an attribute that is a number. -/
def attrU64 (item : Hit) (name : String) : Option Nat :=
  (itemAttr item name).bind fun v => parseU64 v.toList

def itemSize (item : Hit) : Nat := (attrU64 item "size").getD 0

def calculateBandwidth (sizeBytes durationMinutes : Nat) : Float :=
  if durationMinutes = 0 || sizeBytes = 0 then 0.0
  else
    let gbits := sizeBytes.toUInt64.toFloat * 8.0 / 1073741824.0
    gbits / durationMinutes.toUInt64.toFloat * 60.0

def itemDuration (item : Hit) (mediaKind : String) : Nat :=
  ((attrU64 item "runtime").filter (0 < ·)).getD <|
    ((attrU64 item "duration").filter (0 < ·)).getD <| if mediaKind = "movie" then 120 else 45

def itemBandwidth (mediaKind : String) (item : Hit) : Float :=
  calculateBandwidth (itemSize item) (itemDuration item mediaKind)

/-- `bw > 0.0 && bw >= lo && bw <= hi` -/
def inWindow (minGbit maxGbit : Option Float) (bw : Float) : Bool :=
  bw > 0.0 && bw ≥ minGbit.getD 0.0 && bw ≤ maxGbit.getD (1.0 / 0.0)

def filterByQuality (items : List Hit) (minGbit maxGbit : Option Float) (mediaKind : String) :
    List Hit :=
  if minGbit.isNone && maxGbit.isNone then items
  else
    let scored := (items.map fun item => (itemBandwidth mediaKind item, item)).filter fun p =>
      inWindow minGbit maxGbit p.1
    (scored.mergeSort fun a b => !decide (b.1 < a.1)).map (·.2)

/-! ## Excluded titles -/

/-- `^/(.+)/([gimsuy]*)$`: no flag is a slash, so the last one ends the pattern. -/
def literalForm (cs : List Char) : Option (List Char × List Char) :=
  match cs with
  | '/' :: rest => match splitOnce '/' rest.reverse with
    | some (flags, pattern) =>
      if pattern ≠ [] && pattern.all (· ≠ '\n') && flags.all ("gimsuy".toList.contains ·) then
        some (pattern.reverse, flags.reverse)
      else none
    | none => none
  | _ => none

namespace StreamEnv
variable (env : StreamEnv)

/-- What `is_match` says of a title, `none` where there is no expression or none that compiles. -/
def compileExcludeRegex (input : Option String) : Option (String → Bool) :=
  input.bind fun s =>
    let trimmed := trim s
    if trimmed.isEmpty then none
    else match literalForm trimmed.toList with
      | some (pattern, flags) => env.regex (String.ofList pattern) (flags.contains 'i')
      | none => env.regex trimmed true

def filterByTitleRegex (items : List Hit) (excludeRegex : Option String) : List Hit :=
  match env.compileExcludeRegex excludeRegex with
  | none => items
  | some isMatch => items.filter fun item => !isMatch item.title

/-! ## Groups of hits -/

/-- `sort_by_resolution` -/
def sortHits (items : List Hit) : List Hit :=
  sortByKey (fun item => resolutionIndex ((env.tp.parse item.title).resolution.getD "")) items

/-- `group_candidates` of the candidates of the hits. -/
def groupHits (items : List Hit) : List (List Hit) :=
  groupOn (fun item => env.tp.signature item.toItem) items

/-- `limit_groups_per_resolution` -/
def limitHits (groups : List (List Hit)) (perRes : UInt32) : List (List Hit) :=
  if perRes = 0 then groups
  else limitPer perRes.toNat
    (fun group => group.head?.map fun item => (env.tp.signature item.toItem).bucket) groups

/-- `cap_items_per_resolution` -/
def capHits (items : List Hit) (capPerBucket : UInt32) : List Hit :=
  if capPerBucket = 0 || items.isEmpty then items
  else (env.limitHits (env.groupHits (env.sortHits items)) capPerBucket).flatten

/-- What `register_group` is given. -/
def candidates (group : List Hit) : List NzbCandidate :=
  group.map fun item => env.tp.candidateFromItem item.toItem

/-! ## The stages -/

variable (answers : SearchAnswers) (user : UserConfig) (type_ id : String)

/-- The hits that the preferences of the user leave. -/
def preferred : List Hit :=
  let items := answers.found user type_ id
  let items :=
    if (user.minGbitPerHour.isSome || user.maxGbitPerHour.isSome) &&
        (type_ = "movie" || type_ = "series") then
      filterByQuality items user.minGbitPerHour user.maxGbitPerHour type_
    else items
  let items := env.filterByTitleRegex items user.excludeRegex
  filterByLanguage env.tp items
    (effectiveLanguages user.preferredLanguages (answers.originals type_ id))

/-- `streams_per_resolution` -/
def perRes : UInt32 := UInt32.ofNat (user.streamsPerResolution.getD 1)

def capped : List Hit :=
  env.capHits (env.preferred answers user type_ id) (preValidationCap (perRes user))

/-- The items with a verdict that lets them through, asked for all of them at once. -/
def passing (ok : Nat → String → Bool) (items : List Hit) : List Hit :=
  (items.zipIdx.filter fun p => ok p.2 (itemNzbUrl p.1.toItem)).map (·.1)

/-- `filter_by_nzb_sanity`, where it is asked for. -/
def checked : List Hit :=
  let items := env.capped answers user type_ id
  if user.validateNzbStructure.getD false && !items.isEmpty then
    passing (fun k url => (answers.sanity k url).ok) items
  else items

/-- `filter_by_nzb_availability`, where it is asked for. -/
def validated : List Hit :=
  let items := env.checked answers user type_ id
  let servers := user.nntpServers.map (·.server)
  if user.validateNzbAvailability.getD false && !items.isEmpty && !servers.isEmpty then
    passing (fun k url => (answers.availability k servers url).ok) items
  else items

/-- The groups that are offered. -/
def offered : List (List Hit) :=
  env.limitHits (env.groupHits (env.sortHits (env.validated answers user type_ id))) (perRes user)

end StreamEnv

/-! ## Streams -/

structure StreamBehaviorHints where
  filename : String
  videoSize : Option Nat
  bingeGroup : String
  notWebReady : Bool
  deriving DecidableEq, Repr

structure Stream where
  name : String
  description : String
  url : String
  behaviorHints : StreamBehaviorHints
  deriving DecidableEq, Repr

def addonId : String := "io.sladg.tabellarius"

def addonName : String := "Tabellarius"

/-- `parse::<u8>` succeeds. -/
def isU8 (cs : List Char) : Bool := (parseU64 cs).any (· < 256)

/-- The host without the scheme, the path and a port. -/
def hostOf (baseUrl : String) : List Char :=
  let afterScheme :=
    ((stripPrefix "https://" baseUrl).or (stripPrefix "http://" baseUrl)).getD baseUrl
  let hostWithPort := afterScheme.toList.takeWhile (· ≠ '/')
  if hostWithPort.head? = some '[' then
    ((splitOnce ']' hostWithPort).map fun p => p.1 ++ [']']).getD hostWithPort
  else match splitOnce ':' hostWithPort.reverse with
    | some (port, host) => if port ≠ [] && port.all (·.isDigit) then host.reverse else hostWithPort
    | none => hostWithPort

def hostLabel (baseUrl : String) : String :=
  let host := hostOf baseUrl
  if (host.splitOn '.').all isU8 then String.ofList host
  else String.ofList (host.takeWhile (· ≠ '.'))

def capitalize (s : String) : String :=
  match s.toList with
  | c :: cs => String.ofList (c.toUpper :: cs)
  | [] => ""

/-- A field with content. -/
def nonEmpty (s : Option String) : Option String := s.filter (· ≠ "")

/-- `host.strip_prefix("www.").or_else(strip_prefix("api.")).unwrap_or(host)` -/
def indexerLabel (host : String) : String :=
  ((stripPrefix "www." host).or (stripPrefix "api." host)).getD host

namespace StreamEnv
variable (env : StreamEnv)

/-- The language of the release, else those of the title. -/
def langLine (parsed : Parsed) (originalLangs : List String) : Option String :=
  match nonEmpty parsed.language with
  | some l => some (capitalize l)
  | none =>
    if originalLangs.isEmpty then none
    else some (" / ".intercalate (originalLangs.map capitalize))

/-- The lines of the description. -/
def descLines (item : Hit) (originalLangs : List String) : List String :=
  let parsed := env.tp.parse item.title
  let mediaInfo := [parsed.source, parsed.codec, parsed.group].filterMap nonEmpty
  [some parsed.title,
    if mediaInfo.isEmpty then none else some ("Source: " ++ " / ".intercalate mediaInfo),
    if 0 < itemSize item then some ("Size: " ++ env.humanSize (itemSize item)) else none,
    (nonEmpty parsed.audio).map fun a => "Audio: " ++ a,
    (langLine parsed originalLangs).map fun line => "Lang: " ++ line,
    ((nonEmpty item.comments).bind env.host).map fun host => "Indexer: " ++ indexerLabel host
    ].reduceOption

def itemToStream (item : Hit) (name manifestId url : String) (originalLangs : List String) :
    Stream :=
  let parsed := env.tp.parse item.title
  { name := match nonEmpty parsed.resolution with
      | some res => name ++ " " ++ res
      | none => name
    description := "\n".intercalate (env.descLines item originalLangs)
    url := url
    behaviorHints :=
      { filename := item.title
        videoSize := if 0 < itemSize item then some (itemSize item) else none
        bingeGroup := "|".intercalate <| [some manifestId, parsed.resolution, parsed.source,
          parsed.codec, parsed.group, parsed.audio, parsed.language].filterMap nonEmpty
        notWebReady := true } }

variable (answers : SearchAnswers) (user : UserConfig) (type_ id baseUrl : String)

/-- The streams, the `k`-th under the `k`-th token drawn; groups are never empty. -/
def buildStreams (token : Nat → String) : List Stream :=
  (env.offered answers user type_ id).zipIdx.filterMap fun p => p.1.head?.map fun item =>
    env.itemToStream item s!"{addonName} ({hostLabel baseUrl})" addonId
      (baseUrl ++ "/v/" ++ token p.2 ++ ".mkv") (answers.originals type_ id)

/-- What `build_streams` does to the sessions. -/
def registrations {ι : Type} (token : Nat → String) : List (VideosAct ι) :=
  (env.offered answers user type_ id).zipIdx.map fun p =>
    .registerGroup (token p.2) (env.candidates p.1)

end StreamEnv

end StremioNzb.Addon

/-!
# The indexer API

`nzb_api.rs`: what an indexer is asked in a search, what it answers, and the key under which
`cache.rs` files the answer.
-/

namespace StremioNzb.Addon

/-- A search hit, with the fields the addon reads. -/
structure Item where
  title : String
  link : Option String
  /-- The `url` attribute of the enclosure. -/
  enclosure : Option String
  deriving DecidableEq, Repr

/-- A search hit with the fields that only the streams are made of. -/
structure Hit extends Item where
  comments : Option String
  attr : Option (List (String × String))
  deriving DecidableEq, Repr

/-- A newznab attribute of that name. -/
def itemAttr (item : Hit) (name : String) : Option String :=
  item.attr.bind fun attrs => (attrs.find? fun a => a.1 = name).map (·.2)

/-- `replacen(c, d, 1)` -/
def replaceFirst (c d : Char) : List Char → List Char
  | [] => []
  | x :: xs => if x = c then d :: xs else x :: replaceFirst c d xs

/-- Some indexers start the query of a link with `&`. -/
def itemNzbUrl (item : Item) : String :=
  let raw := ((item.link.map fun s => s.replace "&amp;" "&").or item.enclosure).getD ""
  if raw.contains '&' && !raw.contains '?' then String.ofList (replaceFirst '&' '?' raw.toList)
  else raw

/-! ## Answers -/

structure RssChannel where
  item : Option (List Item)
  deriving DecidableEq, Repr

/-- The items are at the root or in the channel. -/
structure RssRoot where
  item : Option (List Item)
  channel : Option RssChannel

/-- The channel of `cached_call`. -/
def RssRoot.toChannel (root : RssRoot) : RssChannel :=
  if root.item.isSome then ⟨root.item⟩ else root.channel.getD ⟨none⟩

/-! ## Requests -/

structure NzbWebApi where
  baseUrl : String
  apiKey : String
  deriving DecidableEq, Repr

inductive Search where
  | movie (imdbId : String)
  | series (tvdbId season episode : String)
  deriving DecidableEq, Repr

/-- The parameters of the request. -/
def Search.query (apiKey : String) : Search → List (String × String)
  | movie imdbId =>
    [("apikey", apiKey), ("t", "movie"), ("o", "json"), ("imdbid", imdbId), ("extended", "1")]
  | series tvdbId season episode =>
    [("apikey", apiKey), ("t", "tvsearch"), ("o", "json"), ("tvdbid", tvdbId),
      ("season", season), ("ep", episode), ("extended", "1")]

theorem Search.query_inj {apiKey apiKey' : String} {search search' : Search} :
    search.query apiKey = search'.query apiKey' ↔ apiKey = apiKey' ∧ search = search' := by
  cases search <;> cases search' <;> simp [Search.query]

/-- A request to `/api` of an indexer. -/
structure SearchRequest where
  url : String
  query : List (String × String)

/-! ## Cache keys -/

def stripPrefix (lead s : String) : Option String :=
  if lead.toList.isPrefixOf s.toList then some (String.ofList (s.toList.drop lead.length)) else none

def trimEndMatches (c : Char) (s : String) : String :=
  String.ofList (s.toList.reverse.dropWhile (· = c)).reverse

def buildCacheKey (indexerUrl kind id : String) : String :=
  let sanitized := trimEndMatches '/' <|
    ((stripPrefix "https://" indexerUrl).or (stripPrefix "http://" indexerUrl)).getD indexerUrl
  s!"nzb:{sanitized}:{kind}:{id}"

/-- The key of a search: that of every client of the URL. -/
def NzbWebApi.cacheKey (api : NzbWebApi) : Search → String
  | .movie imdbId => buildCacheKey api.baseUrl "movie" imdbId
  | .series tvdbId season episode =>
    buildCacheKey api.baseUrl "series" s!"{tvdbId}:{season}:{episode}"

example : buildCacheKey "https://api.example.com/" "movie" "tt0133093" =
    "nzb:api.example.com:movie:tt0133093" := by decide

end StremioNzb.Addon

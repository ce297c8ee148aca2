import Mathlib.Data.List.Nodup

/-!
# The configuration

`config.rs`: the operator's defaults, the overrides of the users, what the addon refuses to
start with (`AddonConfig.validate`) and what holds for a request (`AddonConfig.resolve`).
-/

namespace StremioNzb.Addon

structure Indexer where
  url : String
  apiKey : String
  deriving DecidableEq, Repr

structure NntpServer where
  server : String
  deriving DecidableEq, Repr

structure UserConfig where
  key : String := ""
  indexers : List Indexer := []
  nntpServers : List NntpServer := []
  minGbitPerHour : Option Float := none
  maxGbitPerHour : Option Float := none
  excludeRegex : Option String := none
  validateNzbStructure : Option Bool := none
  validateNzbAvailability : Option Bool := none
  streamsPerResolution : Option Nat := none
  preferredLanguages : List String := []

/-- What an override sets wins; a list is replaced as a whole. -/
def UserConfig.mergedWith (base override : UserConfig) : UserConfig where
  key := base.key
  indexers := if override.indexers.isEmpty then base.indexers else override.indexers
  nntpServers := if override.nntpServers.isEmpty then base.nntpServers else override.nntpServers
  minGbitPerHour := override.minGbitPerHour.or base.minGbitPerHour
  maxGbitPerHour := override.maxGbitPerHour.or base.maxGbitPerHour
  excludeRegex := override.excludeRegex.or base.excludeRegex
  validateNzbStructure := override.validateNzbStructure.or base.validateNzbStructure
  validateNzbAvailability := override.validateNzbAvailability.or base.validateNzbAvailability
  streamsPerResolution := override.streamsPerResolution.or base.streamsPerResolution
  preferredLanguages :=
    if override.preferredLanguages.isEmpty then base.preferredLanguages
    else override.preferredLanguages

/-- The overrides by the names of the users, in the order in which the map iterates. -/
structure Users where
  entries : List (String × UserConfig)
  nodup : (entries.map Prod.fst).Nodup

def Users.get (users : Users) (name : String) : Option UserConfig := users.entries.lookup name

structure AddonConfig where
  requireAuth : Bool := false
  defaults : UserConfig := {}
  users : Users := ⟨[], List.nodup_nil⟩

/-- The first user whose key an earlier one has; `seen` are the keys so far, with their users. -/
def sharedKey : List (String × String) → List (String × UserConfig) → Option (String × String)
  | _, [] => none
  | seen, (name, user) :: rest => match seen.lookup user.key with
    | some prev => some (name, prev)
    | none => sharedKey ((user.key, name) :: seen) rest

namespace AddonConfig

def validate (cfg : AddonConfig) : Except String Unit :=
  if cfg.defaults.indexers.isEmpty then
    .error "[defaults] needs at least one indexer (url + apiKey)"
  else if cfg.defaults.nntpServers.isEmpty then
    .error "[defaults] needs at least one NNTP server"
  else if cfg.requireAuth && cfg.users.entries.isEmpty then
    .error ("requireAuth = true but [users] is empty — add at least one [users.<name>] with " ++
      "`key = \"...\"` or unset requireAuth")
  else match cfg.users.entries.find? fun (_, user) => user.key.isEmpty with
    | some (name, _) =>
      .error (s!"[users.{name}] is missing a `key` (the URL secret). " ++
        "Set `key = \"<random>\"` or remove the user.")
    | none => match sharedKey [] cfg.users.entries with
      | some (name, prev) =>
        .error s!"[users.{name}] and [users.{prev}] share the same `key`; tokens must be unique"
      | none => .ok ()

/-- The configuration of a request: that of the user of that name, else the defaults. -/
def resolve (cfg : AddonConfig) (name : Option String) : UserConfig :=
  match name.bind cfg.users.get with
  | some override => cfg.defaults.mergedWith override
  | none => cfg.defaults

end AddonConfig

end StremioNzb.Addon

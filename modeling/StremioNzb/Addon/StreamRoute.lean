import StremioNzb.Addon.Gate
import StremioNzb.Addon.Offered

/-!
# `stream_route`

From the request that the gate admits to the search: `request_base_url` and `stream_route` of
`main.rs`. The search is made with the configuration of the user whose token is in the path
(`stream_for_user`).
-/

namespace StremioNzb.Addon

open StremioNzb.Lib

/-! ## The code -/

def requestBaseUrl (header : String → Option String) (trustProxy : Bool) : String :=
  let host := (header "host").getD "localhost"
  let scheme :=
    if trustProxy then
      (((header "x-forwarded-proto").map fun s =>
        trim (String.ofList (s.toList.takeWhile (· ≠ ',')))).filter fun s =>
          s = "http" || s = "https").getD "http"
    else "http"
  scheme ++ "://" ++ host

structure StreamsResponse where
  streams : List Stream
  cacheMaxAge : Nat
  deriving DecidableEq, Repr

def stripJsonSuffix (s : String) : String := (stripSuffix ".json" s).getD s

namespace GateEnv
variable {ι : Type} (gate : GateEnv ι) (env : StreamEnv) (answers : SearchAnswers)

/-- `user` is the name that the gate has found. -/
def streamRoute (r : HttpRequest ι) (user : Option String) (type_ id : String)
    (tokens : Nat → String) : StreamsResponse where
  streams := env.buildStreams answers (gate.cfg.resolve user) type_ (stripJsonSuffix id)
    (requestBaseUrl r.header gate.trustProxyHeaders) tokens
  cacheMaxAge := 3600

/-! ## Whose search it is -/

/-- Without users the configuration of a search is that of the operator; with users it is that
with the overrides of the one user whose token is in the path. -/
inductive Searcher (r : HttpRequest ι) (type_ id : String) : UserConfig → Prop where
  | operator : gate.cfg.requiresAuth = false → r.path = ["stream", type_, id] →
      Searcher r type_ id gate.cfg.defaults
  | user (token name : String) (override : UserConfig) :
      r.path = [token, "stream", type_, id] → (name, override) ∈ gate.cfg.users.entries →
      override.key = token →
      (∀ other ∈ gate.cfg.users.entries, other.2.key = token → other = (name, override)) →
      Searcher r type_ id (gate.cfg.defaults.mergedWith override)

/-- A stream of the response, and the hits behind it. -/
structure Streams (r : HttpRequest ι) (c : UserConfig) (type_ id token : String)
    (stream : Stream) (group : List Hit) : Prop where
  mem : group ∈ env.offered answers c type_ id
  url : stream.url = requestBaseUrl r.header gate.trustProxyHeaders ++ "/v/" ++ token ++ ".mkv"
  passes : ∀ item ∈ group, env.Passes answers c type_ id item ∧ StreamEnv.Validated answers c item
  filename : ∃ first, group.head? = some first ∧ stream.behaviorHints.filename = first.title

variable {gate env answers} {κ : Type} [DecidableEq ι] [DecidableEq κ] {req : κ → HttpRequest ι}
  {acts : List (GateAct κ)} {s : Gate ι κ} {k : κ} {user userToken : Option String}
  {type_ id : String} {tokens : Nat → String}

omit [DecidableEq ι] in
/-- Where an addon route for streams leads from. -/
theorem path_of_stream {r : HttpRequest ι}
    (h : gate.endpoint r = some (.addon userToken (.stream type_ id))) :
    gate.cfg.requiresAuth = false ∧ r.path = ["stream", type_, id] ∨
      ∃ token, userToken = some token ∧ gate.cfg.requiresAuth = true ∧
        r.path = [token, "stream", type_, id] := by
  unfold endpoint matchRoute at h
  split at h
  · cases h
  · split at h <;> simp_all

omit [DecidableEq ι] in
theorem searcher_of_entitled {r : HttpRequest ι} (hvalid : gate.cfg.Valid)
    (h : Entitled gate r user (.addon userToken (.stream type_ id))) :
    gate.Searcher r type_ id (gate.cfg.resolve user) := by
  obtain ⟨he, hauth⟩ := h
  rcases path_of_stream he with ⟨hno, hpath⟩ | ⟨token, rfl, hyes, hpath⟩
  · -- there are no overrides to find
    have hnil : gate.cfg.users.entries = [] := by
      rw [AddonConfig.requiresAuth, Bool.or_eq_false_iff, Bool.not_eq_false',
        List.isEmpty_iff] at hno
      exact hno.2
    have hresolve : gate.cfg.resolve user = gate.cfg.defaults := by
      cases user with
      | none => rfl
      | some name => simp [AddonConfig.resolve, Users.get, hnil]
    rw [hresolve]
    exact .operator hno hpath
  · obtain ⟨_, name, heq, rfl, hname⟩ := hauth _ _ rfl hyes
    cases heq
    obtain ⟨override, hget, hkey⟩ := hvalid.userForKey_eq_some.mp hname
    have hresolve : gate.cfg.resolve (some name) = gate.cfg.defaults.mergedWith override := by
      simp only [AddonConfig.resolve, Option.bind_some, hget]
    rw [hresolve]
    refine .user token name override hpath (AddonConfig.get_eq_some.mp hget) hkey ?_
    rintro ⟨other, c⟩ hmem hother
    have hc := AddonConfig.get_eq_some.mpr hmem
    obtain rfl := hvalid.distinct other c name override hc hget (hother.trans hkey.symm)
    rw [hget] at hc
    cases hc
    rfl

/-- **A search is made for the user whose token is in the path.** Whatever the other requests do,
the streams of a request that the gate admits are hits found with the indexers and the preferences
of that user, under the host that the request asked. -/
theorem stream_for_user (hvalid : gate.cfg.validate = .ok ())
    (h : Run (gate.step req) (fun _ _ => True) .init acts s)
    (hk : s.phases k = .admitted user (.addon userToken (.stream type_ id))) :
    ∃ c, gate.Searcher (req k) type_ id c ∧ ∀ (j : Nat) (stream : Stream),
      (gate.streamRoute env answers (req k) user type_ id tokens).streams[j]? = some stream →
      ∃ group, gate.Streams env answers (req k) c type_ (stripJsonSuffix id) (tokens j) stream
        group := by
  have hentitled := (safe_of_run h).admitted k user _ hk
  refine ⟨gate.cfg.resolve user,
    searcher_of_entitled (AddonConfig.validate_eq_ok.mp hvalid) hentitled, fun j stream hj => ?_⟩
  obtain ⟨group, first, hgroup, hfirst, rfl⟩ := StreamEnv.getElem?_buildStreams hj
  have hmem := List.mem_of_getElem? hgroup
  exact ⟨group, hmem, rfl, fun item => StreamEnv.passes_of_offered hmem, first, hfirst, rfl⟩

/-! ### Alice asks for a film -/

/-- The user has nothing but the defaults. -/
def aliceOnly : GateEnv Nat :=
  { oneStrike with
    cfg :=
      { oneStrike.cfg with
        defaults :=
          { indexers := [⟨"http://indexer", "key"⟩], nntpServers := [⟨"nntps://news"⟩] } } }

theorem alice_offered : plainTitles.offered oneAnswer (aliceOnly.cfg.resolve (some "alice")) "movie"
    (stripJsonSuffix "tt0133093.json") = [[filmHit]] := by
  decide +kernel

theorem stream_for_user_alice :
    ∃ (s : Gate Nat Nat) (c : _) (stream : _) (group : _),
      Run (aliceOnly.step guessed) (fun _ _ => True) .init
        [.limit 1 7, .authorize 1 101, .arrive 1 100] s ∧
      aliceOnly.Searcher (guessed 1) "movie" "tt0133093.json" c ∧
      aliceOnly.Streams plainTitles oneAnswer (guessed 1) c "movie"
        (stripJsonSuffix "tt0133093.json") "t" stream group := by
  have hrun : Run (aliceOnly.step guessed) (fun _ _ => True) .init
      [.limit 1 7, .authorize 1 101, .arrive 1 100] _ :=
    ((Run.nil.snoc trivial rfl).snoc trivial rfl).snoc trivial rfl
  have hall : ∃ c, aliceOnly.Searcher (guessed 1) "movie" "tt0133093.json" c ∧
      ∀ (j : Nat) (stream : Stream),
        (aliceOnly.streamRoute plainTitles oneAnswer (guessed 1) (some "alice") "movie"
          "tt0133093.json" fun _ => "t").streams[j]? = some stream →
        ∃ group, aliceOnly.Streams plainTitles oneAnswer (guessed 1) c "movie"
          (stripJsonSuffix "tt0133093.json") "t" stream group :=
    stream_for_user (k := 1) (by decide +kernel) hrun rfl
  obtain ⟨c, hsearcher, hstreams⟩ := hall
  obtain ⟨stream, hstream⟩ : ∃ stream, (aliceOnly.streamRoute plainTitles oneAnswer (guessed 1)
      (some "alice") "movie" "tt0133093.json" fun _ => "t").streams[0]? = some stream := by
    rw [streamRoute, StreamEnv.buildStreams, alice_offered]
    exact ⟨_, rfl⟩
  obtain ⟨group, hgroup⟩ := hstreams 0 stream hstream
  exact ⟨_, c, stream, group, hrun, hsearcher, hgroup⟩

end GateEnv

end StremioNzb.Addon

import StremioNzb.Addon.Offered
import StremioNzb.Addon.Search
import StremioNzb.Addon.TitleLookups
import StremioNzb.Addon.Verdicts

/-!
# Where the streams come from

The calls of a search (at the indexers, TVDB and Cinemeta, and for the two validations) go
through caches that all searches share. `offered_sourced` follows every hit that is offered back
to what was answered: the item of an indexer's answer, the NZB that was fetched, the probe of the
servers.
-/

namespace StremioNzb.Addon

open StremioNzb.Lib

/-! ## Searches at the indexers -/

/-- The channel was read from an answer to a request for a search with this cache key. -/
abbrev Filed (env : SearchEnv) (log : List (SearchRequest × Upstream)) (key : String)
    (result : Answered) : Prop :=
  FiledUnder env Set.univ Set.univ log key result

/-- What holds of every run, whichever keys the searches have. -/
structure FiledInv (env : SearchEnv) (s : Searches) : Prop where
  cache : s.cache.All (Filed env s.answered)
  asks : ∀ i api search request, s.calls i = .searching api search request →
    env.request api search = .ok request
  done : ∀ i api search result, s.calls i = .done api search (.ok result) →
    Filed env s.answered (api.cacheKey search) result

variable {env : SearchEnv} {s t : Searches} {i : Nat} {api : NzbWebApi} {search : Search}
  {request : SearchRequest} {answer : Upstream} {now : Nat}

theorem filedInv_init : FiledInv env .init :=
  ⟨TtlCache.all_empty, fun _ _ _ _ h => (by cases h), fun _ _ _ _ h => (by cases h)⟩

theorem FiledInv.goto (h : FiledInv env s) {call : SearchCall}
    (hasks : ∀ api search request, call = .searching api search request →
      env.request api search = .ok request)
    (hdone : ∀ api search result, call = .done api search (.ok result) →
      Filed env s.answered (api.cacheKey search) result) : FiledInv env (s.goto i call) := by
  refine ⟨h.cache, fun j api search request hj => ?_, fun j api search result hj => ?_⟩
  · rcases eq_of_update hj with hj | hj
    · exact hasks api search request hj
    · exact h.asks j api search request hj
  · rcases eq_of_update hj with hj | hj
    · exact hdone api search result hj
    · exact h.done j api search result hj

theorem FiledInv.begin (h : FiledInv env s) : FiledInv env (s.begin env i api search now) := by
  unfold Searches.begin
  split
  · next hit hh =>
    refine h.goto (fun _ _ _ hc => by cases hc) fun _ _ _ hc => ?_
    cases hc
    exact h.cache.get hh
  · split
    · exact h.goto (fun _ _ _ hc => by cases hc) fun _ _ _ hc => by cases hc
    · next request hrequest =>
      refine h.goto (fun _ _ _ hc => ?_) fun _ _ _ hc => by cases hc
      cases hc
      exact hrequest

theorem FiledInv.record (h : FiledInv env s) (e : SearchRequest × Upstream) :
    FiledInv env { s with answered := e :: s.answered } :=
  ⟨h.cache.imp fun _ _ hf => hf.mono (List.subset_cons_self e _), h.asks,
    fun j api search result hj => (h.done j api search result hj).mono (List.subset_cons_self e _)⟩

theorem FiledInv.finish (h : FiledInv env s) (hi : s.calls i = .searching api search request) :
    FiledInv env (s.finish env i api search request answer now) := by
  have hrecord := h.record (request, answer)
  unfold Searches.finish
  simp only
  split
  · exact hrecord.goto (fun _ _ _ hc => by cases hc) fun _ _ _ hc => by cases hc
  · next root hroot =>
    have hfiled : Filed env ((request, answer) :: s.answered) (api.cacheKey search)
        ⟨root.toChannel, request, answer⟩ :=
      ⟨List.mem_cons_self, trivial, ⟨root, hroot, rfl⟩, api, search, trivial,
        h.asks i api search request hi, rfl⟩
    have hgoto : FiledInv env (Searches.goto
        { s with answered := (request, answer) :: s.answered } i
        (.done api search (.ok ⟨root.toChannel, request, answer⟩))) := by
      refine hrecord.goto (fun _ _ _ hc => by cases hc) fun _ _ _ hc => ?_
      cases hc
      exact hfiled
    exact ⟨TtlCache.All.insert hgoto.cache hfiled, hgoto.asks, hgoto.done⟩

theorem FiledInv.step (h : FiledInv env s) {a : SearchAct} (ht : searchStep env s a = some t) :
    FiledInv env t := by
  cases a with
  | begin i api search now =>
    simp only [searchStep] at ht
    split at ht
    · cases ht
      exact h.begin
    · cases ht
  | end_ i answer now =>
    simp only [searchStep] at ht
    split at ht
    · next hi =>
      cases ht
      exact h.finish hi
    · cases ht
  | drop key =>
    cases ht
    exact ⟨TtlCache.All.invalidate h.cache, h.asks, h.done⟩

theorem filedInv_of_run {acts : List SearchAct} {ok : Searches → SearchAct → Prop}
    (h : Run (searchStep env) ok .init acts s) : FiledInv env s :=
  h.inv filedInv_init fun _ _ _ hi _ ht => hi.step ht

/-! ## A search and its calls -/

/-- The answers that a search goes by are those of calls that are done. -/
structure Answers {ι : Type} (searches : Searches) (checks : Checks ι) (titles : TitleLookups)
    (answers : SearchAnswers) (user : UserConfig) (type_ id : String) : Prop
    extends Told titles answers type_ id where
  channel : ∀ k indexer search hits, user.indexers[k]? = some indexer →
    answers.searchFor type_ id = some search →
    answers.channel k ⟨indexer.url, indexer.apiKey⟩ search = .ok (some hits) → ∃ i result,
      searches.calls i = .done ⟨indexer.url, indexer.apiKey⟩ search (.ok result) ∧
        result.channel.item = some (hits.map Hit.toItem)
  sanity : ∀ k, ∀ hit ∈ answers.found user type_ id, user.validateNzbStructure.getD false →
    (answers.sanity k (itemNzbUrl hit.toItem)).ok → ∃ i,
      checks.calls i = .sanity (itemNzbUrl hit.toItem) (answers.sanity k (itemNzbUrl hit.toItem))
  availability : ∀ k, ∀ hit ∈ answers.found user type_ id,
    user.validateNzbAvailability.getD false →
    (answers.availability k (user.nntpServers.map (·.server)) (itemNzbUrl hit.toItem)).ok → ∃ i,
      checks.calls i = .availability (user.nntpServers.map (·.server)) (itemNzbUrl hit.toItem)
        (answers.availability k (user.nntpServers.map (·.server)) (itemNzbUrl hit.toItem))

/-- The hit is an item of an answer to a request filed under the key that this search has at one of
the indexers of the user; a search at another URL may have the same key. -/
def FromIndexer (env : SearchEnv) (searches : Searches) (user : UserConfig)
    (answers : SearchAnswers) (type_ id : String) (hit : Hit) : Prop :=
  ∃ search, answers.searchFor type_ id = some search ∧ ∃ indexer ∈ user.indexers, ∃ result items,
    Filed env searches.answered (NzbWebApi.cacheKey ⟨indexer.url, indexer.apiKey⟩ search) result ∧
      result.channel.item = some items ∧ hit.toItem ∈ items

/-- An NZB fetched from a URL with the hash of the hit's is structurally sound. -/
def SoundNzb {ι : Type} (env : CheckEnv) (checks : Checks ι) (hit : Hit) : Prop :=
  ∃ url xml, env.fetch.sha1Short url = env.fetch.sha1Short (itemNzbUrl hit.toItem) ∧
    (url, xml) ∈ checks.fetch.fetched ∧ (structuralVerdict env.probe.classes xml).ok

/-- A probe under the key of the hit and of the servers found every canary. -/
def OnServers {ι : Type} (env : CheckEnv) (checks : Checks ι) (servers : List String)
    (hit : Hit) : Prop :=
  ∃ servers' url, env.probe.availKey url servers' =
      env.probe.availKey (itemNzbUrl hit.toItem) servers ∧
    .availability servers' url (.ok ()) ⟨true, none⟩ ∈ checks.log

structure ComesFrom {ι : Type} (env : SearchEnv) (cenv : CheckEnv) (searches : Searches)
    (checks : Checks ι) (user : UserConfig) (answers : SearchAnswers) (type_ id : String)
    (hit : Hit) : Prop where
  indexer : FromIndexer env searches user answers type_ id hit
  sound : user.validateNzbStructure.getD false → SoundNzb cenv checks hit
  available : user.validateNzbAvailability.getD false → user.nntpServers ≠ [] →
    OnServers cenv checks (user.nntpServers.map (·.server)) hit

section
variable {ι : Type} [DecidableEq ι] {cenv : CheckEnv} {searches : Searches} {checks : Checks ι}
  {titles : TitleLookups} {answers : SearchAnswers} {user : UserConfig} {type_ id url : String}
  {hit : Hit} {result : SanityResult} {servers : List String}

omit [DecidableEq ι] in
/-- A verdict lets a hit through only on an NZB that was fetched. -/
theorem sound_of_logged (h : CheckInv cenv checks)
    (hlogged : SanityLogged cenv checks.log (cenv.sanityKey (itemNzbUrl hit.toItem)) result)
    (hok : result.ok) : SoundNzb cenv checks hit := by
  obtain ⟨url, source, hkey, hmem⟩ := hlogged
  obtain ⟨rfl, hsource⟩ := h.sourced _ hmem
  cases source with
  | error err => cases err <;> cases hok
  | ok xml =>
    obtain ⟨url', hurl', hfetched⟩ := hsource xml rfl
    have hurl : cenv.fetch.sha1Short url = cenv.fetch.sha1Short (itemNzbUrl hit.toItem) :=
      (String.append_right_inj _).mp hkey
    exact ⟨url', xml, hurl'.trans hurl, hfetched, hok⟩

omit [DecidableEq ι] in
theorem onServers_of_logged (h : CheckInv cenv checks) {result : AvailabilityResult}
    (hlogged : AvailabilityLogged cenv checks.log
      (cenv.probe.availKey (itemNzbUrl hit.toItem) servers) result)
    (hok : result.ok) : OnServers cenv checks servers hit := by
  obtain ⟨servers', url, source, hkey, hmem⟩ := hlogged
  have hresult : result = availabilityVerdict source := h.sourced _ hmem
  subst hresult
  cases source with
  | error failure => cases hok
  | ok u => exact ⟨servers', url, hkey, hmem⟩

omit [DecidableEq ι] in
theorem fromIndexer_of_passes {senv : StreamEnv} (h : FiledInv env searches)
    (ha : Answers searches checks titles answers user type_ id)
    (hpasses : senv.Passes answers user type_ id hit) :
    FromIndexer env searches user answers type_ id hit := by
  obtain ⟨search, hsearch, k, indexer, hits, hk, hchannel, hhit⟩ := hpasses.found
  obtain ⟨i, result, hi, hitems⟩ := ha.channel k indexer search hits hk hsearch hchannel
  exact ⟨search, hsearch, indexer, List.mem_of_getElem? hk, result, _, h.done i _ search result hi,
    hitems, List.mem_map_of_mem hhit⟩

/-- **Every hit that is offered comes from what was answered**, whatever searches, checks and
lookups go on at the same time. -/
theorem offered_sourced {senv : StreamEnv} {sacts : List SearchAct} {cacts : List (CheckAct ι)}
    {tacts : List TitleAct} (hlt : senv.cls.digit '<' = false)
    (hs : Run (searchStep env) (fun _ _ => True) .init sacts searches)
    (hc : Run (checkStep cenv) (fun _ _ => True) .init cacts checks)
    (ht : Run (titleStep senv.cls) (fun _ _ => True) .init tacts titles)
    (ha : Answers searches checks titles answers user type_ id) :
    Sourced senv.cls titles answers type_ id ∧
      ∀ group ∈ senv.offered answers user type_ id, ∀ hit ∈ group,
        ComesFrom env cenv searches checks user answers type_ id hit := by
  obtain ⟨tvdb, htvdb⟩ := tvdb_of_run ht
  obtain ⟨cinemeta, hcinemeta⟩ := cinemeta_of_run ht
  have hchecks := run_checkInv hc
  refine ⟨⟨series_of_told hlt (Memo.inv_of_run htvdb) ha.toTold,
    languages_of_told (Memo.inv_of_run hcinemeta) ha.toTold⟩, fun group hgroup hit hhit => ?_⟩
  obtain ⟨hpasses, hvalidated⟩ := StreamEnv.passes_of_offered hgroup hhit
  have hfound := StreamEnv.mem_found.mpr hpasses.found
  refine ⟨fromIndexer_of_passes (filedInv_of_run hs) ha hpasses, fun hstructure => ?_,
    fun havailable hservers => ?_⟩
  · obtain ⟨k, hok⟩ := hvalidated.structurally hstructure
    obtain ⟨i, hi⟩ := ha.sanity k hit hfound hstructure hok
    have hlogged := hchecks.calls i
    rw [hi] at hlogged
    exact sound_of_logged hchecks hlogged hok
  · obtain ⟨k, hok⟩ := hvalidated.available havailable hservers
    obtain ⟨i, hi⟩ := ha.availability k hit hfound havailable hok
    have hlogged := hchecks.calls i
    rw [hi] at hlogged
    exact onServers_of_logged hchecks hlogged hok

end

/-! ### A film that is checked -/

def filmIndexed : SearchEnv :=
  ⟨fun _ => .ok "http://indexer/api", fun _ => .ok ⟨some [filmHit.toItem], none⟩⟩

/-- Every NZB is of one file of one article. -/
def filmChecked : CheckEnv :=
  ⟨exampleEnv, ⟨id, id, fun _ => .ok ⟨[⟨some "a.mkv", false, false, 4, [⟨4, 1, "a"⟩]⟩], []⟩,
    asciiClasses, id⟩⟩

/-- The user has the structure and the availability of the releases checked. -/
def checkedUser : UserConfig :=
  { indexers := [⟨"http://indexer", "key"⟩], nntpServers := [⟨"nntps://news"⟩],
    validateNzbStructure := some true, validateNzbAvailability := some true }

theorem film_checked_offered :
    plainTitles.offered oneAnswer checkedUser "movie" "tt1" = [[filmHit]] := by
  decide +kernel

/-- The text of the NZB. -/
def filmXml : String := "subject=\"a.mkv \""

/-- The NZB is fetched, and its article is on the server. -/
theorem exists_filmChecks : ∃ checks : Checks Bool,
    Run (checkStep filmChecked) (fun _ _ => True) .init
      [.endAvailability true (.response 200 none (.ok filmXml)) (fun _ _ _ => .ok true) 0,
        .beginAvailability true ["nntps://news"] (itemNzbUrl filmHit.toItem) 0,
        .endSanity false (fun _ => .response 200 none (.ok filmXml)) 0,
        .beginSanity false (itemNzbUrl filmHit.toItem) 0] checks ∧
    checks.calls false = .sanity (itemNzbUrl filmHit.toItem) ⟨true, none⟩ ∧
    checks.calls true =
      .availability ["nntps://news"] (itemNzbUrl filmHit.toItem) ⟨true, none⟩ := by
  have hverdict : structuralVerdict asciiClasses filmXml = ⟨true, none⟩ := by decide +kernel
  have hprobe : filmChecked.probe.probe ["nntps://news"] (.response 200 none (.ok filmXml))
      (fun _ _ _ => .ok true) = .ok () := by rfl
  refine ⟨_, (((Run.nil.snoc trivial rfl).snoc trivial rfl).snoc trivial rfl).snoc trivial rfl,
    congrArg (CheckCall.sanity _) hverdict, ?_⟩
  exact congrArg (CheckCall.availability _ _) (congrArg availabilityVerdict hprobe)

/-- The indexer is asked, Cinemeta is not there, the NZB is fetched and its article probed. -/
theorem offered_sourced_film :
    ∃ (searches : Searches) (checks : Checks Bool),
      ComesFrom filmIndexed filmChecked searches checks checkedUser oneAnswer "movie" "tt1"
        filmHit := by
  obtain ⟨searches, hs, result, hsearched, hitems⟩ : ∃ searches,
      Run (searchStep filmIndexed) (fun _ _ => True) .init
        [.end_ 0 (.response 200 none (.ok "")) 0, .begin 0 ⟨"http://indexer", "key"⟩ (.movie "1") 0]
        searches ∧
      ∃ result, searches.calls 0 = .done ⟨"http://indexer", "key"⟩ (.movie "1") (.ok result) ∧
        result.channel.item = some [filmHit.toItem] :=
    ⟨_, (Run.nil.snoc trivial rfl).snoc trivial rfl, _, rfl, rfl⟩
  obtain ⟨checks, hc, hsound, havailable⟩ := exists_filmChecks
  obtain ⟨titles, ht, htold⟩ : ∃ titles,
      Run (titleStep plainTitles.cls) (fun _ _ => True) .init
        [.cinemeta (.answer 0 none), .cinemeta (.begin 0 ("movie", "tt1"))] titles ∧
      titles.cinemeta.calls 0 = .done ("movie", "tt1") [] :=
    ⟨_, (Run.nil.snoc trivial rfl).snoc trivial rfl, rfl⟩
  have hfound : oneAnswer.found checkedUser "movie" "tt1" = [filmHit] := by decide +kernel
  have hsearch : oneAnswer.searchFor "movie" "tt1" = some (.movie "1") := by decide +kernel
  have hid : SearchAnswers.imdbId "movie" "tt1" = "tt1" := by decide +kernel
  have ha : Answers searches checks titles oneAnswer checkedUser "movie" "tt1" := by
    refine ⟨⟨fun h => absurd h (by decide), fun _ => ⟨0, hid ▸ htold⟩⟩,
      fun k indexer search hits hk hsearch' hhits => ?_, fun k hit hhit _ _ => ?_,
      fun k hit hhit _ _ => ?_⟩
    · rw [hsearch] at hsearch'
      cases hsearch'
      cases hhits
      cases k with
      | zero =>
        cases hk
        exact ⟨0, result, hsearched, hitems⟩
      | succ k => cases hk
    · rw [hfound, List.mem_singleton] at hhit
      subst hhit
      exact ⟨false, hsound⟩
    · rw [hfound, List.mem_singleton] at hhit
      subst hhit
      exact ⟨true, havailable⟩
  obtain ⟨-, hall⟩ := offered_sourced (by decide) hs hc ht ha
  exact ⟨searches, checks, hall [filmHit] (film_checked_offered ▸ List.mem_singleton_self _) filmHit
    (List.mem_singleton_self _)⟩

end StremioNzb.Addon

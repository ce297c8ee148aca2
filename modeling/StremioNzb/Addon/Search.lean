import StremioNzb.Addon.NzbApi
import StremioNzb.Addon.NzbFetch

/-!
# Searches through the shared result cache

`cached_call` of `nzb_api.rs` over `RSS_CACHE`, which all clients of the process share. A call
is a `begin` and an `end_` step of `searchStep`, with any steps of the others between. What is
cached carries the request it answers and the answer.
-/

namespace StremioNzb.Addon

open StremioNzb.Lib

def rssTtl : Nat := secs (12 * 3600)

/-- `url.set_path("/api")` without the query, and the JSON decoder. -/
structure SearchEnv where
  apiUrl : String → Except String String
  parseRoot : String → Except String RssRoot

/-- `search_movie` and `search_series` as requests. -/
def SearchEnv.request (env : SearchEnv) (api : NzbWebApi) (search : Search) :
    Except String SearchRequest :=
  (env.apiUrl api.baseUrl).map fun url => ⟨url, search.query api.apiKey⟩

/-- `resp.json()`, for any status. -/
def SearchEnv.json (env : SearchEnv) : Upstream → Except String RssRoot
  | .sendFailed err => .error err
  | .response _ _ text => text.bind env.parseRoot

def Upstream.isSuccess : Upstream → Bool
  | sendFailed _ => false
  | response status _ _ => Addon.isSuccess status

/-- A channel, and what it was read from. -/
structure Answered where
  channel : RssChannel
  request : SearchRequest
  answer : Upstream

/-! ## Calls -/

inductive SearchCall where
  | idle
  | searching (api : NzbWebApi) (search : Search) (request : SearchRequest)
  | done (api : NzbWebApi) (search : Search) (result : Except String Answered)

structure Searches where
  cache : TtlCache String Answered
  calls : Nat → SearchCall
  /-- The requests answered so far. -/
  answered : List (SearchRequest × Upstream)

inductive SearchAct where
  | begin (i : Nat) (api : NzbWebApi) (search : Search) (now : Nat)
  | end_ (i : Nat) (answer : Upstream) (now : Nat)
  /-- An entry is evicted. -/
  | drop (key : String)

namespace Searches

def init : Searches := ⟨TtlCache.empty, fun _ => .idle, []⟩

def goto (s : Searches) (i : Nat) (call : SearchCall) : Searches :=
  { s with calls := Function.update s.calls i call }

def begin (env : SearchEnv) (s : Searches) (i : Nat) (api : NzbWebApi) (search : Search)
    (now : Nat) : Searches :=
  match s.cache.get rssTtl now (api.cacheKey search) with
  | some hit => s.goto i (.done api search (.ok hit))
  | none => match env.request api search with
    | .error err => s.goto i (.done api search (.error err))
    | .ok request => s.goto i (.searching api search request)

def finish (env : SearchEnv) (s : Searches) (i : Nat) (api : NzbWebApi) (search : Search)
    (request : SearchRequest) (answer : Upstream) (now : Nat) : Searches :=
  let s := { s with answered := (request, answer) :: s.answered }
  match env.json answer with
  | .error err => s.goto i (.done api search (.error err))
  | .ok root =>
    let channel : Answered := ⟨root.toChannel, request, answer⟩
    { s.goto i (.done api search (.ok channel)) with
      cache := s.cache.insert now (api.cacheKey search) channel }

end Searches

def searchStep (env : SearchEnv) (s : Searches) : SearchAct → Option Searches
  | .begin i api search now => match s.calls i with
    | .idle => some (s.begin env i api search now)
    | _ => none
  | .end_ i answer now => match s.calls i with
    | .searching api search request => some (s.finish env i api search request answer now)
    | _ => none
  | .drop key => some { s with cache := s.cache.invalidate key }

/-- The searches are these, and so are the answers. -/
def SearchAct.Among (searches : Set (NzbWebApi × Search)) (answers : Set Upstream) :
    SearchAct → Prop
  | .begin _ api search _ => (api, search) ∈ searches
  | .end_ _ answer _ => answer ∈ answers
  | .drop _ => True

/-! ## Isolation -/

/-- The channel is the body of a successful answer to a request with these parameters. -/
structure Own (env : SearchEnv) (log : List (SearchRequest × Upstream)) (api : NzbWebApi)
    (search : Search) (result : Answered) : Prop where
  answered : (result.request, result.answer) ∈ log
  query : result.request.query = search.query api.apiKey
  success : result.answer.isSuccess = true
  body : (env.json result.answer).map RssRoot.toChannel = .ok result.channel

def Searches.Isolated (env : SearchEnv) (s : Searches) : Prop :=
  ∀ i api search result, s.calls i = .done api search (.ok result) →
    Own env s.answered api search result

/-- Where a search can make a request and an answer can be decoded, the answer is a success and
the key of the search is that of no search with another API key or other parameters. -/
def Separated (env : SearchEnv) (searches : Set (NzbWebApi × Search)) (answers : Set Upstream) :
    Prop :=
  ∀ api search request answer root, (api, search) ∈ searches → answer ∈ answers →
    env.request api search = .ok request → env.json answer = .ok root →
    answer.isSuccess = true ∧ ∀ api' search', (api', search') ∈ searches →
      api'.cacheKey search' = api.cacheKey search → api'.apiKey = api.apiKey ∧ search' = search

/-- The entry answers one of the searches of its key. -/
structure FiledUnder (env : SearchEnv) (searches : Set (NzbWebApi × Search))
    (answers : Set Upstream) (log : List (SearchRequest × Upstream)) (key : String)
    (entry : Answered) : Prop where
  answered : (entry.request, entry.answer) ∈ log
  answer_mem : entry.answer ∈ answers
  body : ∃ root, env.json entry.answer = .ok root ∧ entry.channel = root.toChannel
  owner : ∃ api search, (api, search) ∈ searches ∧ env.request api search = .ok entry.request ∧
    key = api.cacheKey search

structure SearchInv (env : SearchEnv) (searches : Set (NzbWebApi × Search))
    (answers : Set Upstream) (s : Searches) : Prop where
  cache : s.cache.All (FiledUnder env searches answers s.answered)
  asks : ∀ i api search request, s.calls i = .searching api search request →
    (api, search) ∈ searches ∧ env.request api search = .ok request
  isolated : s.Isolated env

section
variable {env : SearchEnv} {searches : Set (NzbWebApi × Search)} {answers : Set Upstream}
  {s t : Searches} {i : Nat} {api : NzbWebApi} {search : Search} {request : SearchRequest}
  {answer : Upstream} {now : Nat} {result : Answered} {log log' : List (SearchRequest × Upstream)}

theorem query_of_request (h : env.request api search = .ok request) :
    request.query = search.query api.apiKey := by
  unfold SearchEnv.request at h
  cases hu : env.apiUrl api.baseUrl with
  | error err =>
    rw [hu] at h
    cases h
  | ok url =>
    rw [hu] at h
    cases h
    rfl

/-- What is filed under the key of a search is its own. -/
theorem FiledUnder.own (hsep : Separated env searches answers)
    (h : FiledUnder env searches answers log (api.cacheKey search) result)
    (hmem : (api, search) ∈ searches) : Own env log api search result := by
  obtain ⟨root, hroot, hch⟩ := h.body
  obtain ⟨api', search', hmem', hreq, hkey⟩ := h.owner
  obtain ⟨hsucc, hown⟩ := hsep _ _ _ _ _ hmem' h.answer_mem hreq hroot
  obtain ⟨hapi, rfl⟩ := hown api search hmem hkey
  refine ⟨h.answered, ?_, hsucc, by rw [hroot, hch]; rfl⟩
  rw [query_of_request hreq, hapi]

theorem Own.mono (h : Own env log api search result) (hs : log ⊆ log') :
    Own env log' api search result := ⟨hs h.answered, h.query, h.success, h.body⟩

theorem FiledUnder.mono {key : String} (h : FiledUnder env searches answers log key result)
    (hs : log ⊆ log') : FiledUnder env searches answers log' key result :=
  ⟨hs h.answered, h.answer_mem, h.body, h.owner⟩

/-- A call moves, with what its new state must have. -/
theorem SearchInv.goto (h : SearchInv env searches answers s) {call : SearchCall}
    (hasks : ∀ api search request, call = .searching api search request →
      (api, search) ∈ searches ∧ env.request api search = .ok request)
    (hown : ∀ api search result, call = .done api search (.ok result) →
      Own env s.answered api search result) : SearchInv env searches answers (s.goto i call) := by
  refine ⟨h.cache, fun j api search request hj => ?_, fun j api search result hj => ?_⟩
  · rcases eq_of_update hj with hj | hj
    · exact hasks api search request hj
    · exact h.asks j api search request hj
  · rcases eq_of_update hj with hj | hj
    · exact hown api search result hj
    · exact h.isolated j api search result hj

theorem SearchInv.begin (hsep : Separated env searches answers)
    (h : SearchInv env searches answers s) (hmem : (api, search) ∈ searches) :
    SearchInv env searches answers (s.begin env i api search now) := by
  unfold Searches.begin
  split
  · next hit hh =>
    refine h.goto (fun _ _ _ hc => by cases hc) fun _ _ _ hc => ?_
    cases hc
    exact (h.cache.get hh).own hsep hmem
  · split
    · exact h.goto (fun _ _ _ hc => by cases hc) fun _ _ _ hc => by cases hc
    · next req hreq =>
      refine h.goto (fun _ _ _ hc => ?_) fun _ _ _ hc => by cases hc
      cases hc
      exact ⟨hmem, hreq⟩

theorem SearchInv.record (h : SearchInv env searches answers s) (e : SearchRequest × Upstream) :
    SearchInv env searches answers { s with answered := e :: s.answered } :=
  ⟨h.cache.imp fun _ _ hf => hf.mono (List.subset_cons_self e _), h.asks,
    fun j api search result hj =>
      (h.isolated j api search result hj).mono (List.subset_cons_self e _)⟩

theorem SearchInv.finish (hsep : Separated env searches answers)
    (h : SearchInv env searches answers s) (hi : s.calls i = .searching api search request)
    (ha : answer ∈ answers) :
    SearchInv env searches answers (s.finish env i api search request answer now) := by
  obtain ⟨hmem, hreq⟩ := h.asks i api search request hi
  unfold Searches.finish
  simp only
  split
  · exact (h.record _).goto (fun _ _ _ hc => by cases hc) fun _ _ _ hc => by cases hc
  · next root hroot =>
    have hfiled : FiledUnder env searches answers ((request, answer) :: s.answered)
        (api.cacheKey search) ⟨root.toChannel, request, answer⟩ :=
      ⟨List.mem_cons_self, ha, ⟨root, hroot, rfl⟩, api, search, hmem, hreq, rfl⟩
    have hgoto : SearchInv env searches answers
        (Searches.goto { s with answered := (request, answer) :: s.answered } i
          (.done api search (.ok ⟨root.toChannel, request, answer⟩))) := by
      refine (h.record (request, answer)).goto (fun _ _ _ hc => by cases hc) fun _ _ _ hc => ?_
      cases hc
      exact hfiled.own hsep hmem
    exact ⟨TtlCache.All.insert hgoto.cache hfiled, hgoto.asks, hgoto.isolated⟩

theorem SearchInv.step (hsep : Separated env searches answers)
    (h : SearchInv env searches answers s) {a : SearchAct} (ha : a.Among searches answers)
    (ht : searchStep env s a = some t) : SearchInv env searches answers t := by
  cases a with
  | begin i api search now =>
    simp only [searchStep] at ht
    split at ht
    · cases ht
      exact h.begin hsep ha
    · cases ht
  | end_ i answer now =>
    simp only [searchStep] at ht
    split at ht
    · next hi =>
      cases ht
      exact h.finish hsep hi ha
    · cases ht
  | drop key =>
    cases ht
    exact ⟨TtlCache.All.invalidate h.cache, h.asks, h.isolated⟩

theorem searchInv_init : SearchInv env searches answers .init :=
  ⟨TtlCache.all_empty, fun _ _ _ _ h => (by cases h), fun _ _ _ _ h => (by cases h)⟩

/-! ### A search, and another one with the same key -/

/-- A search that is answered leaves its channel to the next search with the same key. -/
theorem exists_handed_over (hmem : (api, search) ∈ searches) (ha : answer ∈ answers)
    (hreq : env.request api search = .ok request) {root : RssRoot}
    (hroot : env.json answer = .ok root) {api' : NzbWebApi} {search' : Search}
    (hmem' : (api', search') ∈ searches) (hkey : api'.cacheKey search' = api.cacheKey search) :
    ∃ s, Reaches (searchStep env) (fun _ a => a.Among searches answers) .init s ∧
      s.calls 0 = .done api search (.ok ⟨root.toChannel, request, answer⟩) ∧
      s.calls 1 = .done api' search' (.ok ⟨root.toChannel, request, answer⟩) := by
  let s1 := Searches.init.goto 0 (.searching api search request)
  let s2 := s1.finish env 0 api search request answer 0
  have h1 : searchStep env .init (.begin 0 api search 0) = some s1 := by
    simp [searchStep, Searches.init, Searches.begin, TtlCache.get_empty, hreq, s1]
  have h2 : searchStep env s1 (.end_ 0 answer 0) = some s2 := by
    simp [searchStep, Searches.goto, s1, s2]
  have hhit : s2.cache.get rssTtl 0 (api'.cacheKey search') =
      some ⟨root.toChannel, request, answer⟩ := by
    rw [hkey]
    simp only [s2, Searches.finish, hroot]
    exact TtlCache.get_insert_self (by decide)
  have h3 : searchStep env s2 (.begin 1 api' search' 0) =
      some (s2.goto 1 (.done api' search' (.ok ⟨root.toChannel, request, answer⟩))) := by
    simp only [searchStep, Searches.begin, hhit]
    simp [s2, s1, Searches.finish, hroot, Searches.goto, Searches.init]
  have ha1 : SearchAct.Among searches answers (.begin 0 api search 0) := hmem
  have ha2 : SearchAct.Among searches answers (.end_ 0 answer 0) := ha
  have ha3 : SearchAct.Among searches answers (.begin 1 api' search' 0) := hmem'
  have hr1 : Reaches (searchStep env) (fun _ a => a.Among searches answers) .init s1 :=
    .snoc (.refl _) ha1 h1
  have hr2 : Reaches (searchStep env) (fun _ a => a.Among searches answers) .init s2 :=
    .snoc hr1 ha2 h2
  refine ⟨_, .snoc hr2 ha3 h3, ?_, ?_⟩
  · simp [s2, s1, Searches.goto, Searches.finish, hroot]
  · simp [Searches.goto]

end

/-- **The searches of a process are isolated, in every run, exactly when every search has a cache
key of its own** and no answer but a successful one can be decoded. -/
theorem searches_isolated_iff (env : SearchEnv) (searches : Set (NzbWebApi × Search))
    (answers : Set Upstream) :
    (∀ s, Reaches (searchStep env) (fun _ a => a.Among searches answers) .init s →
      s.Isolated env) ↔ Separated env searches answers := by
  constructor
  · intro h api search request answer root hmem ha hreq hroot
    refine ⟨?_, fun api' search' hmem' hkey => ?_⟩
    · obtain ⟨s, hs, h0, -⟩ := exists_handed_over hmem ha hreq hroot hmem rfl
      exact (h s hs 0 api search _ h0).success
    · obtain ⟨s, hs, -, h1⟩ := exists_handed_over hmem ha hreq hroot hmem' hkey
      have hquery := (h s hs 1 api' search' _ h1).query
      rw [query_of_request hreq] at hquery
      obtain ⟨hkey', hsearch⟩ := Search.query_inj.mp hquery
      exact ⟨hkey'.symm, hsearch.symm⟩
  · intro hsep s hs
    exact (hs.inv searchInv_init fun _ _ _ h ha ht => h.step hsep ha ht).isolated

/-- A wrong API key and a right one of the same indexer; the JSON of an error has no items. -/
def exampleSearch : SearchEnv :=
  ⟨fun _ => .ok "https://api.example.com/api", fun _ => .ok ⟨none, none⟩⟩

def exampleApi (apiKey : String) : NzbWebApi := ⟨"https://api.example.com", apiKey⟩

/-- The search of one client is answered 401, and a client with another API key gets that answer
as a result without items. -/
theorem unauthorized_handed_over : ∃ s : Searches,
    Reaches (searchStep exampleSearch) (fun _ _ => True) .init s ∧ ¬ s.Isolated exampleSearch := by
  have hreq : exampleSearch.request (exampleApi "expired") (.movie "0133093") =
      .ok ⟨"https://api.example.com/api", (Search.movie "0133093").query "expired"⟩ := rfl
  have hroot : exampleSearch.json (.response 401 none (.ok "\x7b\x7d")) =
      .ok ⟨none, none⟩ := rfl
  have hkey : (exampleApi "valid").cacheKey (.movie "0133093") =
      (exampleApi "expired").cacheKey (.movie "0133093") := rfl
  obtain ⟨s, hs, -, h1⟩ := exists_handed_over (Set.mem_univ _) (Set.mem_univ _) hreq hroot
    (Set.mem_univ _) hkey
  refine ⟨s, hs.mono fun _ _ _ => trivial, fun h => ?_⟩
  exact absurd (h 1 _ _ _ h1).success (by decide)

end StremioNzb.Addon

import Mathlib.Data.List.Sort
import StremioNzb.Addon.Config
import StremioNzb.Addon.Verdicts

/-!
# Stale availability verdicts

The availability checks of the searches against the invalidation by `probe_candidate`. A search
checks the servers of the user's configuration, preflight runs on the pool of the defaults, and
both derive the key of `AVAILABILITY_CACHE` from their servers. The state counts its steps, and
every verdict in the cache carries the step at which it was asked for.
-/

namespace StremioNzb.Addon

open StremioNzb.Lib StremioNzb.Streaming

/-! ## Servers -/

/-- What the key says of the servers. -/
def serverList (servers : List String) : String :=
  ",".intercalate (servers.insertionSort (· ≤ ·))

def keyText (url : String) (servers : List String) : String := url ++ "|" ++ serverList servers

theorem serverList_perm {servers servers' : List String} (h : servers.Perm servers') :
    serverList servers = serverList servers' := by
  have hs : servers.insertionSort (· ≤ ·) = servers'.insertionSort (· ≤ ·) :=
    List.Perm.eq_of_pairwise' (List.pairwise_insertionSort _ servers)
      (List.pairwise_insertionSort _ servers')
      ((List.perm_insertionSort _ servers).trans
        (h.trans (List.perm_insertionSort _ servers').symm))
  rw [serverList, hs, ← serverList]

theorem availKey_eq (env : ProbeEnv) (url : String) (servers : List String) :
    env.availKey url servers = "nzb-avail:" ++ env.sha1Short (keyText url servers) := rfl

structure NntpPool where
  serverUrls : List String

/-- `parseServerUrl` says which URLs `parse_server_url` accepts. -/
def buildNntpPool (parseServerUrl : String → Bool) (cfg : AddonConfig) : Option NntpPool :=
  if cfg.defaults.nntpServers.isEmpty then none
  else
    let urls := cfg.defaults.nntpServers.map (·.server)
    if urls.all parseServerUrl then some ⟨urls⟩ else none

/-- The servers that `build_streams` checks. -/
def searchServers (cfg : AddonConfig) (user : Option String) : List String :=
  (cfg.resolve user).nntpServers.map (·.server)

/-- `build_streams` checks its items. -/
def checksAvailability (cfg : AddonConfig) (user : Option String) : Bool :=
  (cfg.resolve user).validateNzbAvailability.getD false && !(searchServers cfg user).isEmpty

/-! ## Checks and preflights -/

/-- `probe_candidate` on the cache, after what `probe_candidate_inner` returned. -/
def probeCandidate {ν : Type} (env : ProbeEnv) (pool : NntpPool)
    (cache : TtlCache String ν) (url : String) : Except PreflightError ActiveStream →
      TtlCache String ν
  | .error (.nntpFetch _) => cache.invalidate (env.availKey url pool.serverUrls)
  | _ => cache

/-- The key under which a search of the user looks for a verdict on the URL. -/
def searchKey (env : ProbeEnv) (cfg : AddonConfig) (user : Option String) (url : String) : String :=
  env.availKey url (searchServers cfg user)

/-- A verdict, and the step at which upstream was asked for it. -/
structure Dated where
  result : AvailabilityResult
  asked : Nat

/-- A check of a search, with the step that began it. -/
inductive SearchCheck where
  | idle
  | hit (user : Option String) (url : String) (verdict : Dated) (began : Nat)
  | probing (user : Option String) (url : String) (began : Nat)
  | probed (user : Option String) (url : String) (verdict : Dated)

namespace SearchCheck

/-- The user, the URL and the beginning of the check. -/
def began? : SearchCheck → Option (Option String × String × Nat)
  | idle => none
  | hit user url _ began | probing user url began => some (user, url, began)
  | probed user url verdict => some (user, url, verdict.asked)

/-- Upstream is asked. -/
def Asks : SearchCheck → Prop
  | probing .. | probed .. => True
  | idle | hit .. => False

end SearchCheck

structure Preflights where
  steps : Nat
  cache : TtlCache String Dated
  calls : Nat → SearchCheck
  /-- The URLs whose preflight failed on the servers, with the step. -/
  failed : List (String × Nat)

inductive PreflightAct where
  | begin (i : Nat) (user : Option String) (url : String) (now : Nat)
  | end_ (i : Nat) (upstream : Upstream) (answers : BodyAnswers) (now : Nat)
  | preflight (net : Net) (url token : String)
  /-- An entry is evicted. -/
  | drop (key : String)

namespace Preflights

def init : Preflights := ⟨0, TtlCache.empty, fun _ => .idle, []⟩

def goto (s : Preflights) (i : Nat) (call : SearchCheck) : Preflights :=
  { s with steps := s.steps + 1, calls := Function.update s.calls i call }

def begin (env : ProbeEnv) (cfg : AddonConfig) (s : Preflights) (i : Nat) (user : Option String)
    (url : String) (now : Nat) : Preflights :=
  match s.cache.get availabilityTtl now (searchKey env cfg user url) with
  | some hit => s.goto i (.hit user url hit s.steps)
  | none => s.goto i (.probing user url s.steps)

def finish (env : ProbeEnv) (cfg : AddonConfig) (s : Preflights) (i : Nat) (user : Option String)
    (url : String) (began : Nat) (upstream : Upstream) (answers : BodyAnswers) (now : Nat) :
    Preflights :=
  let probe := env.probe (searchServers cfg user) upstream answers
  let verdict : Dated := ⟨availabilityVerdict probe, began⟩
  { s.goto i (.probed user url verdict) with
    cache := s.cache.insert now (searchKey env cfg user url) verdict }

def preflight (env : ProbeEnv) (pool : NntpPool) (s : Preflights) (net : Net)
    (url token : String) : Preflights :=
  let result := net.probeCandidateInner url token
  { s with
    steps := s.steps + 1
    cache := probeCandidate env pool s.cache url result
    failed := match result with
      | .error (.nntpFetch _) => (url, s.steps) :: s.failed
      | _ => s.failed }

end Preflights

def preflightStep (env : ProbeEnv) (cfg : AddonConfig) (pool : NntpPool) (s : Preflights) :
    PreflightAct → Option Preflights
  | .begin i user url now => match s.calls i with
    | .idle => if checksAvailability cfg user then some (s.begin env cfg i user url now) else none
    | _ => none
  | .end_ i upstream answers now => match s.calls i with
    | .probing user url began => some (s.finish env cfg i user url began upstream answers now)
    | _ => none
  | .preflight net url token => some (s.preflight env pool net url token)
  | .drop key => some { s with steps := s.steps + 1, cache := s.cache.invalidate key }

/-- A preflight asks the servers of the pool. -/
def PreflightAct.On (pool : NntpPool) : PreflightAct → Prop
  | .preflight net _ _ => net.serverCount = pool.serverUrls.length
  | _ => True

/-- Where a preflight invalidates a key, no check of the key is under way. -/
def PreflightAct.Alone (env : ProbeEnv) (cfg : AddonConfig) (pool : NntpPool) (s : Preflights) :
    PreflightAct → Prop
  | .preflight net url token =>
    (∃ m, net.probeCandidateInner url token = .error (.nntpFetch m)) →
      ∀ i user url' began, s.calls i = .probing user url' began →
        searchKey env cfg user url' ≠ env.availKey url pool.serverUrls
  | _ => True

/-- After a preflight of the URL that failed on the servers, no check of that user and URL returns
a verdict that was asked for before, and the next check of their key asks upstream. -/
structure Preflights.Reprobes (env : ProbeEnv) (cfg : AddonConfig) (s : Preflights)
    (user : Option String) (url : String) : Prop where
  fresh : ∀ i verdict began, s.calls i = .hit user url verdict began →
    ∀ failure, (url, failure) ∈ s.failed → failure < began → failure < verdict.asked
  next : ∀ i began, (s.calls i).began? = some (user, url, began) →
    ∀ failure, (url, failure) ∈ s.failed → failure < began →
      (∀ j user' url' b, (s.calls j).began? = some (user', url', b) →
        searchKey env cfg user' url' = searchKey env cfg user url → failure < b → began ≤ b) →
      (s.calls i).Asks

/-- The servers that the user's override sets, if any, are those of the defaults. -/
def OverrideAgrees (cfg : AddonConfig) (user : Option String) : Prop :=
  ∀ override, user.bind cfg.users.get = some override → override.nntpServers ≠ [] →
    serverList (override.nntpServers.map (·.server)) =
      serverList (cfg.defaults.nntpServers.map (·.server))

/-- A check of the key has asked for the verdict. -/
def Preflights.Asked (env : ProbeEnv) (cfg : AddonConfig) (s : Preflights) (key : String)
    (verdict : Dated) : Prop :=
  ∃ i user url, s.calls i = .probed user url verdict ∧ searchKey env cfg user url = key

/-- The verdicts on the URL under the key of the pool were asked for after its failures. -/
structure PreflightInv (env : ProbeEnv) (cfg : AddonConfig) (key : String) (user : Option String)
    (url : String) (s : Preflights) : Prop where
  past : ∀ failure, (url, failure) ∈ s.failed → failure < s.steps
  began : ∀ i user' url' b, (s.calls i).began? = some (user', url', b) → b < s.steps
  cache : s.cache.All fun k verdict => k = key → s.Asked env cfg key verdict ∧
    ∀ failure, (url, failure) ∈ s.failed → failure < verdict.asked
  probing : ∀ i user' url' b, s.calls i = .probing user' url' b →
    searchKey env cfg user' url' = key → ∀ failure, (url, failure) ∈ s.failed → failure < b
  hits : ∀ i verdict b, s.calls i = .hit user url verdict b →
    s.Asked env cfg key verdict ∧ verdict.asked < b ∧
      ∀ failure, (url, failure) ∈ s.failed → failure < b → failure < verdict.asked

section
variable {env : ProbeEnv} {cfg : AddonConfig} {pool : NntpPool} {key : String}
  {user : Option String} {url : String} {s t : Preflights} {i : Nat} {call : SearchCheck}
  {verdict : Dated} {began : Nat}

/-- A search checks the servers that the user's override sets, or else the defaults. -/
theorem searchServers_cases :
    (∃ override, user.bind cfg.users.get = some override ∧ override.nntpServers ≠ [] ∧
      searchServers cfg user = override.nntpServers.map (·.server)) ∨
    (∀ override, user.bind cfg.users.get = some override → override.nntpServers = []) ∧
      searchServers cfg user = cfg.defaults.nntpServers.map (·.server) := by
  unfold searchServers AddonConfig.resolve
  cases ho : user.bind cfg.users.get with
  | none => exact .inr ⟨fun _ h => (by cases h), rfl⟩
  | some override =>
    by_cases hne : override.nntpServers = []
    · refine .inr ⟨fun _ h => Option.some.inj h ▸ hne, ?_⟩
      simp [UserConfig.mergedWith, hne]
    · refine .inl ⟨override, rfl, hne, ?_⟩
      simp [UserConfig.mergedWith, hne]

theorem overrideAgrees_iff : OverrideAgrees cfg user ↔
    serverList (searchServers cfg user) =
      serverList (cfg.defaults.nntpServers.map (·.server)) := by
  obtain ⟨override, ho, hne, hs⟩ | ⟨hnone, hs⟩ := @searchServers_cases cfg user
  · rw [hs]
    refine ⟨fun h => h override ho hne, fun h override' ho' _ => ?_⟩
    obtain rfl := Option.some.inj (ho.symm.trans ho')
    exact h
  · rw [hs]
    exact iff_of_true (fun override ho hne => absurd (hnone override ho) hne) rfl

/-- An override that only lists the defaults in another order agrees with them. -/
theorem overrideAgrees_of_perm (h : ∀ override, user.bind cfg.users.get = some override →
    (override.nntpServers.map (·.server)).Perm (cfg.defaults.nntpServers.map (·.server))) :
    OverrideAgrees cfg user :=
  fun override ho _ => serverList_perm (h override ho)

theorem serverUrls_of_pool {parse : String → Bool} (h : buildNntpPool parse cfg = some pool) :
    cfg.defaults.nntpServers ≠ [] ∧
      pool.serverUrls = cfg.defaults.nntpServers.map (·.server) := by
  unfold buildNntpPool at h
  split at h
  · cases h
  · next hne =>
    simp only at h
    split at h
    · cases h
      exact ⟨fun he => hne (by rw [he]; rfl), rfl⟩
    · cases h

/-- With a pool there are servers to check. -/
theorem checksAvailability_iff (hne : cfg.defaults.nntpServers ≠ []) :
    checksAvailability cfg user = true ↔
      (cfg.resolve user).validateNzbAvailability = some true := by
  have hs : searchServers cfg user ≠ [] := by
    obtain ⟨_, _, hne', hs⟩ | ⟨_, hs⟩ := @searchServers_cases cfg user
    · rw [hs]
      simpa using hne'
    · rw [hs]
      simpa using hne
  unfold checksAvailability
  cases (cfg.resolve user).validateNzbAvailability with
  | none => simp
  | some b => simp [hs]

/-! ### Every run, where the keys agree -/

theorem Preflights.Asked.lt (h : s.Asked env cfg key verdict)
    (hb : ∀ i user' url' b, (s.calls i).began? = some (user', url', b) → b < s.steps) :
    verdict.asked < s.steps := by
  obtain ⟨i, user', url', hi, -⟩ := h
  exact hb i user' url' _ (by rw [hi]; rfl)

/-- A check that has asked is there for good. -/
theorem Preflights.Asked.goto (h : s.Asked env cfg key verdict)
    (hi : ∀ user' url' v, s.calls i ≠ .probed user' url' v) :
    (s.goto i call).Asked env cfg key verdict := by
  obtain ⟨j, user', url', hj, hkey⟩ := h
  have hji : j ≠ i := fun he => hi user' url' verdict (he ▸ hj)
  exact ⟨j, user', url', (Function.update_of_ne hji _ _).trans hj, hkey⟩

/-- A call moves on. -/
theorem PreflightInv.goto (h : PreflightInv env cfg key user url s)
    (hi : ∀ user' url' v, s.calls i ≠ .probed user' url' v)
    (hbegan : ∀ user' url' b, call.began? = some (user', url', b) → b ≤ s.steps)
    (hprobing : ∀ user' url' b, call = .probing user' url' b → b = s.steps)
    (hhit : ∀ v b, call = .hit user url v b → b = s.steps ∧ s.Asked env cfg key v ∧
      ∀ failure, (url, failure) ∈ s.failed → failure < v.asked) :
    PreflightInv env cfg key user url (s.goto i call) := by
  refine ⟨fun f hf => Nat.lt_succ_of_lt (h.past f hf), fun j user' url' b hj => ?_,
    h.cache.imp fun k v hv hk => ⟨(hv hk).1.goto hi, (hv hk).2⟩,
    fun j user' url' b hj hk f hf => ?_, fun j v b hj => ?_⟩
  · by_cases hji : j = i
    · subst hji
      simp only [Preflights.goto, Function.update_self] at hj
      exact Nat.lt_succ_of_le (hbegan user' url' b hj)
    · simp only [Preflights.goto, Function.update_of_ne hji] at hj
      exact Nat.lt_succ_of_lt (h.began j user' url' b hj)
  · rcases eq_of_update hj with hc | hj
    · exact hprobing user' url' b hc ▸ h.past f hf
    · exact h.probing j user' url' b hj hk f hf
  · rcases eq_of_update hj with hc | hj
    · obtain ⟨rfl, hv, hfresh⟩ := hhit v b hc
      exact ⟨hv.goto hi, hv.lt h.began, fun f hf _ => hfresh f hf⟩
    · obtain ⟨hv, hlt, hfresh⟩ := h.hits j v b hj
      exact ⟨hv.goto hi, hlt, hfresh⟩

/-- A step that adds no failure and moves no call keeps the invariant if it does of the cache. -/
theorem PreflightInv.tick (h : PreflightInv env cfg key user url s) {cache : TtlCache String Dated}
    (hc : cache.All fun k verdict => k = key → s.Asked env cfg key verdict ∧
      ∀ failure, (url, failure) ∈ s.failed → failure < verdict.asked) :
    PreflightInv env cfg key user url { s with steps := s.steps + 1, cache := cache } :=
  ⟨fun f hf => Nat.lt_succ_of_lt (h.past f hf),
    fun j user' url' b hj => Nat.lt_succ_of_lt (h.began j user' url' b hj), hc, h.probing, h.hits⟩

theorem preflight_of_nntpFetch {net : Net} {url token m : String}
    (h : net.probeCandidateInner url token = .error (.nntpFetch m)) :
    s.preflight env pool net url token = { s with
      steps := s.steps + 1
      cache := s.cache.invalidate (env.availKey url pool.serverUrls)
      failed := (url, s.steps) :: s.failed } := by
  rw [Preflights.preflight, h]
  rfl

theorem preflight_of_ne {net : Net} {url token : String}
    (h : ∀ m, net.probeCandidateInner url token ≠ .error (.nntpFetch m)) :
    s.preflight env pool net url token = { s with steps := s.steps + 1 } := by
  have hcache : probeCandidate env pool s.cache url (net.probeCandidateInner url token) =
      s.cache := by
    unfold probeCandidate
    split
    · next m hr => exact absurd hr (h m)
    · rfl
  have hfailed : (match net.probeCandidateInner url token with
      | .error (.nntpFetch _) => (url, s.steps) :: s.failed
      | _ => s.failed) = s.failed := by
    split
    · next m hr => exact absurd hr (h m)
    · rfl
  rw [Preflights.preflight, hcache, hfailed]

theorem PreflightInv.preflight
    (h : PreflightInv env cfg (env.availKey url pool.serverUrls) user url s) {net : Net}
    {url' token : String} (hok : PreflightAct.Alone env cfg pool s (.preflight net url' token)) :
    PreflightInv env cfg (env.availKey url pool.serverUrls) user url
      (s.preflight env pool net url' token) := by
  by_cases hn : ∃ m, net.probeCandidateInner url' token = .error (.nntpFetch m)
  · have halone := hok hn
    obtain ⟨m, hm⟩ := hn
    rw [preflight_of_nntpFetch hm]
    refine ⟨fun f hf => ?_, fun j user' u b hj => Nat.lt_succ_of_lt (h.began j user' u b hj),
      h.cache.invalidate_imp fun k v hk hv heq => ⟨(hv heq).1, fun f hf => ?_⟩,
      fun j user' u b hj hkey f hf => ?_, fun j v b hj => ?_⟩
    · rcases List.mem_cons.mp hf with he | hf
      · cases he
        exact Nat.lt_succ_self _
      · exact Nat.lt_succ_of_lt (h.past f hf)
    · -- a failure of this URL has dropped the entry, one of another leaves the old failures
      rcases List.mem_cons.mp hf with he | hf
      · cases he
        exact absurd heq hk
      · exact (hv heq).2 f hf
    · -- a check under way has another key, if the failure is of this URL
      rcases List.mem_cons.mp hf with he | hf
      · cases he
        exact absurd hkey (halone j user' u b hj)
      · exact h.probing j user' u b hj hkey f hf
    · obtain ⟨hv, hlt, hfresh⟩ := h.hits j v b hj
      refine ⟨hv, hlt, fun f hf hfb => ?_⟩
      rcases List.mem_cons.mp hf with he | hf
      · cases he
        exact absurd (h.began j user url b (by rw [hj]; rfl)) (Nat.lt_asymm hfb)
      · exact hfresh f hf hfb
  · rw [preflight_of_ne fun m hm => hn ⟨m, hm⟩]
    exact h.tick h.cache

/-- The verdict that a check brings was asked for when the check began. -/
theorem PreflightInv.finish (h : PreflightInv env cfg key user url s) {user' : Option String}
    {url' : String} (hi : s.calls i = .probing user' url' began) (upstream : Upstream)
    (answers : BodyAnswers) (now : Nat) : PreflightInv env cfg key user url
      (s.finish env cfg i user' url' began upstream answers now) := by
  let verdict : Dated :=
    ⟨availabilityVerdict (env.probe (searchServers cfg user') upstream answers), began⟩
  have hgo : PreflightInv env cfg key user url (s.goto i (.probed user' url' verdict)) := h.goto
    (fun _ _ _ hp => by rw [hi] at hp; cases hp)
    (fun _ _ b hb => by
      cases hb
      exact (h.began i user' url' _ (by rw [hi]; rfl)).le)
    (fun _ _ _ hp => by cases hp) (fun _ _ hp => by cases hp)
  refine ⟨hgo.past, hgo.began, TtlCache.All.insert hgo.cache fun hkey => ⟨?_, ?_⟩, hgo.probing,
    hgo.hits⟩
  · exact ⟨i, user', url', Function.update_self _ _ _, hkey⟩
  · exact h.probing i user' url' _ hi hkey

theorem PreflightInv.step (hkey : checksAvailability cfg user = true →
      searchKey env cfg user url = env.availKey url pool.serverUrls)
    (h : PreflightInv env cfg (env.availKey url pool.serverUrls) user url s) {a : PreflightAct}
    (hok : a.Alone env cfg pool s) (ht : preflightStep env cfg pool s a = some t) :
    PreflightInv env cfg (env.availKey url pool.serverUrls) user url t := by
  cases a with
  | begin i user' url' now =>
    simp only [preflightStep] at ht
    split at ht
    · next hidle =>
      have hi : ∀ u w v, s.calls i ≠ .probed u w v := fun _ _ _ hp => by
        rw [hidle] at hp
        cases hp
      split at ht
      · next hchecks =>
        cases ht
        unfold Preflights.begin
        split
        · next hit hh =>
          refine h.goto hi (fun _ _ b hb => ?_) (fun _ _ _ hp => by cases hp) fun v b hc => ?_
          · cases hb
            exact le_rfl
          · cases hc
            exact ⟨rfl, h.cache.get hh (hkey hchecks)⟩
        · refine h.goto hi (fun _ _ b hb => ?_) (fun _ _ _ hp => ?_) fun v b hc => by cases hc
          · cases hb
            exact le_rfl
          · cases hp
            rfl
      · cases ht
    · cases ht
  | end_ i upstream answers now =>
    simp only [preflightStep] at ht
    split at ht
    · next user' url' began hi =>
      cases ht
      exact h.finish hi upstream answers now
    · cases ht
  | preflight net url' token =>
    cases ht
    exact h.preflight hok
  | drop k =>
    cases ht
    exact h.tick (TtlCache.All.invalidate h.cache)

theorem preflightInv_init : PreflightInv env cfg key user url .init :=
  ⟨fun _ h => (by cases h), fun _ _ _ _ h => (by cases h), TtlCache.all_empty,
    fun _ _ _ _ h => (by cases h), fun _ _ _ h => (by cases h)⟩

/-- **The next check of the key asks upstream**: a verdict from the cache would be one that an
earlier check asked for. -/
theorem PreflightInv.reprobes (h : PreflightInv env cfg key user url s)
    (hkey : ∀ i b, (s.calls i).began? = some (user, url, b) → searchKey env cfg user url = key) :
    s.Reprobes env cfg user url := by
  refine ⟨fun i v b hi => (h.hits i v b hi).2.2, fun i b hi f hf hfb hnext => ?_⟩
  cases hcall : s.calls i with
  | idle => rw [hcall] at hi; cases hi
  | probing => trivial
  | probed => trivial
  | hit user' url' v b' =>
    have hcase : SearchCheck.hit user' url' v b' = .hit user url v b := by
      rw [hcall] at hi
      cases hi
      rfl
    obtain ⟨⟨j, u, w, hj, hjkey⟩, hlt, hfresh⟩ := h.hits i v b (hcall.trans hcase)
    refine absurd (hnext j u w v.asked (by rw [hj]; rfl) ?_ (hfresh f hf hfb))
      (Nat.not_le_of_lt hlt)
    rw [hjkey, hkey i b hi]

/-! ### A run, where they do not -/

/-- A post whose only article is on none of the `n` servers. -/
def deadNet (n : Nat) : Net where
  serverCount := n
  fetchNzbXml _ := .ok ""
  parseNzb _ := .ok ⟨[⟨none, false, false, 4, [⟨4, 1, "a"⟩]⟩], []⟩
  fetchArticle _ _ := .error "430 no such article"
  redactLog := id
  decodeYenc _ := .error "no yEnc header"
  parseAllHeaders _ _ := .ok []
  classes := asciiClasses
  root := "cache"
  openFile _ := .ok fun _ => 0

theorem deadNet_fails {n : Nat} (hn : n ≠ 0) (url token : String) :
    ∃ m, (deadNet n).probeCandidateInner url token = .error (.nntpFetch m) :=
  probeCandidateInner_of_missing hn rfl (s := ⟨4, 1, "a"⟩) rfl fun _ => ⟨_, rfl⟩

theorem preflightStep_hit {v : Dated} {now : Nat} (hchecks : checksAvailability cfg user = true)
    (hi : s.calls i = .idle)
    (hv : s.cache.get availabilityTtl now (searchKey env cfg user url) = some v) :
    preflightStep env cfg pool s (.begin i user url now) =
      some (s.goto i (.hit user url v s.steps)) := by
  simp [preflightStep, Preflights.begin, hi, hv, hchecks]

/-- A check whose key is not that of the pool: its verdict outlives the preflight that fails. -/
theorem exists_stale (hchecks : checksAvailability cfg user = true)
    (hpool : pool.serverUrls ≠ [])
    (hne : searchKey env cfg user url ≠ env.availKey url pool.serverUrls)
    (upstream : Upstream) (answers : BodyAnswers) :
    ∃ s, Reaches (preflightStep env cfg pool) (fun s a => a.On pool ∧ a.Alone env cfg pool s)
        .init s ∧ (url, 2) ∈ s.failed ∧ s.calls 1 = .hit user url
          ⟨availabilityVerdict (env.probe (searchServers cfg user) upstream answers), 0⟩ 3 := by
  have hcount : pool.serverUrls.length ≠ 0 := fun h => hpool (List.length_eq_zero_iff.mp h)
  obtain ⟨m, hm⟩ := deadNet_fails hcount url "token"
  let verdict : Dated :=
    ⟨availabilityVerdict (env.probe (searchServers cfg user) upstream answers), 0⟩
  let s1 := Preflights.init.goto 0 (.probing user url 0)
  let s2 := s1.finish env cfg 0 user url 0 upstream answers 0
  let s3 := s2.preflight env pool (deadNet pool.serverUrls.length) url "token"
  have h1 : preflightStep env cfg pool .init (.begin 0 user url 0) = some s1 := by
    simp [preflightStep, Preflights.init, hchecks, Preflights.begin, TtlCache.get_empty, s1]
  have h2 : preflightStep env cfg pool s1 (.end_ 0 upstream answers 0) = some s2 := by
    simp [preflightStep, s1, s2, Preflights.goto]
  have hhit : s3.cache.get availabilityTtl 0 (searchKey env cfg user url) = some verdict := by
    simp only [s3, preflight_of_nntpFetch hm]
    rw [TtlCache.get_invalidate_of_ne hne]
    exact TtlCache.get_insert_self (by decide)
  have hat : s3.calls 1 = .idle ∧ s3.steps = 3 := by
    simp [s3, s2, s1, preflight_of_nntpFetch hm, Preflights.finish, Preflights.goto,
      Preflights.init]
  have h4 : preflightStep env cfg pool s3 (.begin 1 user url 0) =
      some (s3.goto 1 (.hit user url verdict 3)) :=
    hat.2 ▸ preflightStep_hit hchecks hat.1 hhit
  have halone : PreflightAct.Alone env cfg pool s2
      (.preflight (deadNet pool.serverUrls.length) url "token") := by
    rintro - i user' url' b hi
    rcases eq_of_update hi with hc | hc
    · cases hc
    · rcases eq_of_update hc with hc | hc
      · cases hc
        exact hne
      · cases hc
  have hon (a : PreflightAct) (ha : ∀ net u w, a ≠ .preflight net u w) (s : Preflights) :
      a.On pool ∧ a.Alone env cfg pool s := by
    cases a with
    | preflight net u w => exact absurd rfl (ha net u w)
    | begin | end_ | drop => exact ⟨trivial, trivial⟩
  have hr2 : Reaches (preflightStep env cfg pool) (fun s a => a.On pool ∧ a.Alone env cfg pool s)
      .init s2 := .snoc (.snoc (.refl _) (hon _ (by simp) _) h1) (hon _ (by simp) _) h2
  have hr3 : Reaches (preflightStep env cfg pool) (fun s a => a.On pool ∧ a.Alone env cfg pool s)
      .init s3 := hr2.snoc ⟨show PreflightAct.On pool (.preflight (deadNet _) url "token") from rfl,
        halone⟩ rfl
  refine ⟨_, hr3.snoc (hon _ (by simp) _) h4, ?_, by simp [Preflights.goto, verdict]⟩
  simp only [s3, preflight_of_nntpFetch hm, Preflights.goto]
  exact List.mem_cons_self

/-- A check of the key of the pool that is under way while the preflight fails: its verdict comes
after the invalidation. -/
theorem exists_stale_inFlight (hchecks : checksAvailability cfg user = true)
    (hpool : pool.serverUrls ≠ []) (upstream : Upstream) (answers : BodyAnswers) :
    ∃ s, Reaches (preflightStep env cfg pool) (fun _ a => a.On pool) .init s ∧
      (url, 1) ∈ s.failed ∧ s.calls 1 = .hit user url
        ⟨availabilityVerdict (env.probe (searchServers cfg user) upstream answers), 0⟩ 3 := by
  have hcount : pool.serverUrls.length ≠ 0 := fun h => hpool (List.length_eq_zero_iff.mp h)
  obtain ⟨m, hm⟩ := deadNet_fails hcount url "token"
  let verdict : Dated :=
    ⟨availabilityVerdict (env.probe (searchServers cfg user) upstream answers), 0⟩
  let s1 := Preflights.init.goto 0 (.probing user url 0)
  let s2 := s1.preflight env pool (deadNet pool.serverUrls.length) url "token"
  let s3 := s2.finish env cfg 0 user url 0 upstream answers 0
  have h1 : preflightStep env cfg pool .init (.begin 0 user url 0) = some s1 := by
    simp [preflightStep, Preflights.init, hchecks, Preflights.begin, TtlCache.get_empty, s1]
  have h3 : preflightStep env cfg pool s2 (.end_ 0 upstream answers 0) = some s3 := by
    simp [preflightStep, s1, s2, s3, preflight_of_nntpFetch hm, Preflights.goto]
  have hhit : s3.cache.get availabilityTtl 0 (searchKey env cfg user url) = some verdict :=
    TtlCache.get_insert_self (by decide)
  have hat : s3.calls 1 = .idle ∧ s3.steps = 3 := by
    simp [s3, s2, s1, preflight_of_nntpFetch hm, Preflights.finish, Preflights.goto,
      Preflights.init]
  have h4 : preflightStep env cfg pool s3 (.begin 1 user url 0) =
      some (s3.goto 1 (.hit user url verdict 3)) :=
    hat.2 ▸ preflightStep_hit hchecks hat.1 hhit
  have hon (i : Nat) : PreflightAct.On pool (.begin i user url 0) := trivial
  have hon' : PreflightAct.On pool (.end_ 0 upstream answers 0) := trivial
  have hr2 : Reaches (preflightStep env cfg pool) (fun _ a => a.On pool) .init s2 :=
    .snoc (.snoc (.refl _) (hon 0) h1)
      (show PreflightAct.On pool (.preflight (deadNet _) url "token") from rfl) rfl
  refine ⟨_, .snoc (hr2.snoc hon' h3) (hon 1) h4, ?_, by simp [Preflights.goto, verdict]⟩
  simp only [s3, s2, preflight_of_nntpFetch hm, Preflights.finish, Preflights.goto]
  exact List.mem_cons_self

theorem not_reprobes_of_stale {failure : Nat} (hf : (url, failure) ∈ s.failed) (hlt : failure < 3)
    (h : ∃ result, s.calls 1 = .hit user url ⟨result, 0⟩ 3) : ¬ s.Reprobes env cfg user url := by
  obtain ⟨result, h⟩ := h
  exact fun hr => Nat.not_lt_zero _ (hr.fresh 1 _ 3 h failure hf hlt)

/-- Checks are of users whose availability is validated. -/
def Preflights.Checked (cfg : AddonConfig) (s : Preflights) : Prop :=
  ∀ i user url b, (s.calls i).began? = some (user, url, b) → checksAvailability cfg user = true

theorem Preflights.Checked.goto (h : s.Checked cfg)
    (hc : ∀ user url b, call.began? = some (user, url, b) → checksAvailability cfg user = true) :
    (s.goto i call).Checked cfg := by
  intro j user url b hj
  by_cases hji : j = i
  · subst hji
    simp only [Preflights.goto, Function.update_self] at hj
    exact hc user url b hj
  · simp only [Preflights.goto, Function.update_of_ne hji] at hj
    exact h j user url b hj

theorem Preflights.Checked.step (h : s.Checked cfg) {a : PreflightAct}
    (ht : preflightStep env cfg pool s a = some t) : t.Checked cfg := by
  cases a with
  | begin i user url now =>
    simp only [preflightStep] at ht
    split at ht
    · split at ht
      · next hchecks =>
        cases ht
        unfold Preflights.begin
        split
        · exact h.goto fun _ _ _ hb => by
            cases hb
            exact hchecks
        · exact h.goto fun _ _ _ hb => by
            cases hb
            exact hchecks
      · cases ht
    · cases ht
  | end_ i upstream answers now =>
    simp only [preflightStep] at ht
    split at ht
    · next user url began hi =>
      cases ht
      exact h.goto fun _ _ _ hb => by
        cases hb
        exact h i user url began (by rw [hi]; rfl)
    · cases ht
  | preflight | drop =>
    cases ht
    exact h

end

/-- **After a preflight that fails on the servers every search of a user asks them again**, in
every run in which no check of a key is under way while it is invalidated, **exactly when** the
user's searches do not check availability or the user's override of the servers, if any, is the
defaults' list but for the order. -/
theorem preflight_invalidates_iff (env : ProbeEnv) (parseServerUrl : String → Bool)
    (cfg : AddonConfig) (pool : NntpPool) (user : Option String) (url : String)
    (hpool : buildNntpPool parseServerUrl cfg = some pool)
    (hsha : Set.InjOn env.sha1Short
      {keyText url (searchServers cfg user), keyText url pool.serverUrls}) :
    (∀ s, Reaches (preflightStep env cfg pool) (fun s a => a.On pool ∧ a.Alone env cfg pool s)
      .init s → s.Reprobes env cfg user url) ↔
      ((cfg.resolve user).validateNzbAvailability = some true → OverrideAgrees cfg user) := by
  obtain ⟨hne, hurls⟩ := serverUrls_of_pool hpool
  rw [← checksAvailability_iff hne, overrideAgrees_iff, ← hurls]
  constructor
  · intro h hchecks
    have hkeys : searchKey env cfg user url = env.availKey url pool.serverUrls := by
      by_contra hdiff
      obtain ⟨s, hs, hf, hc⟩ := exists_stale hchecks (by simpa [hurls] using hne) hdiff
        (.sendFailed "") fun _ _ _ => .ok true
      exact not_reprobes_of_stale hf (by decide) ⟨_, hc⟩ (h s hs)
    rw [searchKey, availKey_eq, availKey_eq] at hkeys
    have htext := hsha (.inl rfl) (.inr rfl) ((String.append_right_inj _).mp hkeys)
    exact (String.append_right_inj _).mp htext
  · intro h s hs
    have hkey : checksAvailability cfg user = true →
        searchKey env cfg user url = env.availKey url pool.serverUrls := by
      intro hchecks
      rw [searchKey, availKey_eq, availKey_eq, keyText, keyText, h hchecks]
    have hchecked : s.Checked cfg :=
      hs.inv (fun _ _ _ _ hi => by cases hi) fun _ _ _ h _ ht => h.step ht
    have hinv := hs.inv preflightInv_init fun _ _ _ h hok ht => h.step hkey hok.2 ht
    exact hinv.reprobes fun i b hi => hkey (hchecked i user url b hi)

/-! ## Three users -/

def exampleDefaults : UserConfig where
  indexers := [⟨"https://api.example.com", "k"⟩]
  nntpServers := [⟨"nntps://u:p@news.example.com/4"⟩, ⟨"nntps://u:p@fill.example.com/2"⟩]
  validateNzbAvailability := some true

/-- `alice` has a server of her own, `bob` the servers of the defaults in another order. -/
def exampleConfig : AddonConfig where
  defaults := exampleDefaults
  users :=
    { entries := [
        ("alice", { key := "a", nntpServers := [⟨"nntps://alice:pw@block.example.com/8"⟩] }),
        ("bob", { key := "b", nntpServers := exampleDefaults.nntpServers.reverse })]
      nodup := by decide }

/-- The hashes of the servers of `alice` and of the defaults, and an NZB of one article. -/
def exampleProbe : ProbeEnv where
  redactLog := id
  redactUrl := id
  parseNzb _ := .ok ⟨[⟨none, false, false, 4, [⟨4, 1, "a"⟩]⟩], []⟩
  classes := asciiClasses
  sha1Short text := if text = keyText exampleUrl ["nntps://alice:pw@block.example.com/8"] then
    "d5b5385d2be6d298" else "a2aba47369835501"

def examplePool : NntpPool :=
  ⟨["nntps://u:p@news.example.com/4", "nntps://u:p@fill.example.com/2"]⟩

theorem bob_agrees : OverrideAgrees exampleConfig (some "bob") :=
  overrideAgrees_of_perm fun override ho => by
    have hbob : (some "bob").bind exampleConfig.users.get =
        some { key := "b", nntpServers := exampleDefaults.nntpServers.reverse } := rfl
    obtain rfl := Option.some.inj (hbob.symm.trans ho)
    exact (List.reverse_perm _).map _

/-- The searches of a user who lists the servers in another order. -/
theorem preflight_invalidates_bob :
    checksAvailability exampleConfig (some "bob") = true ∧
      ∀ s, Reaches (preflightStep exampleProbe exampleConfig examplePool)
        (fun s a => a.On examplePool ∧ a.Alone exampleProbe exampleConfig examplePool s) .init s →
          s.Reprobes exampleProbe exampleConfig (some "bob") exampleUrl :=
  ⟨by decide, (preflight_invalidates_iff exampleProbe (fun _ => true) exampleConfig examplePool
    (some "bob") exampleUrl rfl (by
      have hs : keyText exampleUrl (searchServers exampleConfig (some "bob")) =
          keyText exampleUrl examplePool.serverUrls :=
        congrArg (exampleUrl ++ "|" ++ ·) (overrideAgrees_iff.mp bob_agrees)
      rw [hs, Set.pair_eq_singleton]
      exact Set.injOn_singleton _ _)).mpr fun _ => bob_agrees⟩

/-- `alice` gets the verdict from before the preflight that found the article nowhere, and so does
`bob`, whose check was under way. -/
theorem alice_gets_stale : exampleConfig.validate.isOk = true ∧
    (∃ s, Reaches (preflightStep exampleProbe exampleConfig examplePool)
        (fun s a => a.On examplePool ∧ a.Alone exampleProbe exampleConfig examplePool s) .init s ∧
      s.calls 1 = .hit (some "alice") exampleUrl ⟨⟨true, none⟩, 0⟩ 3 ∧
      ¬ s.Reprobes exampleProbe exampleConfig (some "alice") exampleUrl) ∧
    ∃ s, Reaches (preflightStep exampleProbe exampleConfig examplePool)
        (fun _ a => a.On examplePool) .init s ∧
      s.calls 1 = .hit (some "bob") exampleUrl ⟨⟨true, none⟩, 0⟩ 3 ∧
      ¬ s.Reprobes exampleProbe exampleConfig (some "bob") exampleUrl := by
  refine ⟨by decide, ?_, ?_⟩
  · have hne : searchKey exampleProbe exampleConfig (some "alice") exampleUrl ≠
        exampleProbe.availKey exampleUrl examplePool.serverUrls := by decide
    obtain ⟨s, hs, hf, hc⟩ := exists_stale (by decide) (by decide) hne
      (.response 200 none (.ok "<nzb/>")) fun _ _ _ => .ok true
    exact ⟨s, hs, hc.trans rfl, not_reprobes_of_stale hf (by decide) ⟨_, hc⟩⟩
  · have hchecks : checksAvailability exampleConfig (some "bob") = true := by decide
    have hpool : examplePool.serverUrls ≠ [] := by decide
    obtain ⟨s, hs, hf, hc⟩ := exists_stale_inFlight hchecks hpool
      (.response 200 none (.ok "<nzb/>")) fun _ _ _ => .ok true
    exact ⟨s, hs, hc.trans rfl, not_reprobes_of_stale hf (by decide) ⟨_, hc⟩⟩

end StremioNzb.Addon

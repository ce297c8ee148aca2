import StremioNzb.Addon.Candidates
import StremioNzb.Addon.IpBan
import StremioNzb.Addon.Tokens
import StremioNzb.Lib.Unwinding

/-!
# The gate

`client_ip`, `ban_check_middleware` and `build_router` of `main.rs` with `require_access_token` of
`auth.rs`: what stands between a GET request and its handler. A request is checked against the ban
list when it arrives; on an addon route its token is looked up and the rate limiter asked after
that, with any steps of others between. What the limiter answers is a parameter.
`GateEnv.due` says, from the history alone, where a request must stand; `gate_decides` that it
does, `gate_isolated` that it depends only on the requests that share its address or its peer, and
`gate_safe` what holds whatever the clock does.
-/

namespace StremioNzb.Addon

open StremioNzb.Lib

/-! ## Requests -/

structure HttpRequest (ι : Type) where
  peer : ι
  /-- The first value of a header, where it is text. -/
  header : String → Option String
  path : List String

/-- `IpAddr::from_str` is a parameter. -/
def clientIp {ι : Type} (parseIp : String → Option ι) (header : String → Option String)
    (connectInfo : Option ι) (trustProxy : Bool) : Option ι :=
  let forwarded :=
    if trustProxy then
      ((header "x-forwarded-for").bind fun xff =>
        parseIp (trim (String.ofList (xff.toList.takeWhile (· ≠ ','))))).or
        ((header "x-real-ip").bind fun xri => parseIp (trim xri))
    else none
  forwarded.or connectInfo

inductive AddonRoute where
  | manifest
  | stream (type id : String)
  deriving DecidableEq

inductive Endpoint where
  | video (tokenWithExt : String)
  | health
  | logo
  | addon (userToken : Option String) (route : AddonRoute)
  deriving DecidableEq

/-- The table of `build_router`; a parameter is not empty, and fixed segments go first. -/
def matchRoute (requiresAuth : Bool) (path : List String) : Option Endpoint :=
  if path.any (· = "") then none
  else match requiresAuth, path with
    | _, ["v", token] => some (.video token)
    | _, ["health"] => some .health
    | _, ["logo.svg"] => some .logo
    | false, ["manifest.json"] => some (.addon none .manifest)
    | false, ["stream", type, id] => some (.addon none (.stream type id))
    | true, [userToken, "manifest.json"] => some (.addon (some userToken) .manifest)
    | true, [userToken, "stream", type, id] => some (.addon (some userToken) (.stream type id))
    | _, _ => none

def AddonConfig.requiresAuth (cfg : AddonConfig) : Bool :=
  cfg.requireAuth || !cfg.users.entries.isEmpty

/-! ## The middlewares -/

/-- Where a request stands; `user` is the name that its handler is given. -/
inductive GatePhase where
  | coming
  | forbidden
  | notFound
  | authorizing (userToken : String) (route : AddonRoute)
  /-- On an addon route, before the rate limiter. -/
  | limiting (user userToken : Option String) (route : AddonRoute)
  | tooMany
  | admitted (user : Option String) (endpoint : Endpoint)
  deriving DecidableEq

structure GateEnv (ι : Type) where
  parseIp : String → Option ι
  trustProxyHeaders : Bool
  ban : BanConfig
  /-- `RATE_LIMIT_PER_MINUTE` and `RATE_LIMIT_BURST`. -/
  ratePerMinute : Nat
  burst : Nat
  /-- Whether the limiter of a period in milliseconds and a burst lets a peer pass that comes to it
  at these times, newest first. -/
  governor : Nat → Nat → List Nat → Bool
  cfg : AddonConfig

structure Gate (ι κ : Type) where
  bans : BanState ι
  /-- When a peer came to the limiter, newest first. -/
  checks : ι → List Nat
  phases : κ → GatePhase

/-- `instant` is read from the clock of the limiter. -/
inductive GateAct (κ : Type) where
  | arrive (k : κ) (now : Nat)
  | authorize (k : κ) (now : Nat)
  | limit (k : κ) (instant : Nat)

/-- The request that acts. -/
def GateAct.request {κ : Type} : GateAct κ → κ
  | arrive k _ | authorize k _ | limit k _ => k

namespace GateEnv
variable {ι κ : Type} (env : GateEnv ι)

def ipOf (r : HttpRequest ι) : ι :=
  (clientIp env.parseIp r.header (some r.peer) env.trustProxyHeaders).getD r.peer

def endpoint (r : HttpRequest ι) : Option Endpoint := matchRoute env.cfg.requiresAuth r.path

/-- Where a request stands that is not banned. -/
def routed (r : HttpRequest ι) : GatePhase :=
  match env.endpoint r with
  | none => .notFound
  | some (.addon (some userToken) route) => .authorizing userToken route
  | some (.addon none route) => .limiting none none route
  | some e => .admitted none e

/-- Where it stands when its token was looked up. -/
def authorized (userToken : String) (route : AddonRoute) : GatePhase :=
  match env.cfg.userForKey userToken with
  | some name => .limiting (some name) (some userToken) route
  | none => .notFound

/-- The rate limiter of `build_router`, where there is one. -/
def limiter : Option (List Nat → Bool) :=
  if 0 < env.ratePerMinute then
    some (env.governor (max (60000 / env.ratePerMinute) 1) env.burst)
  else none

/-- Where it stands when its peer came to the limiter. -/
def limited (times : List Nat) (user userToken : Option String) (route : AddonRoute) : GatePhase :=
  if env.limiter.all (· times) then .admitted user (.addon userToken route) else .tooMany

variable [DecidableEq ι] [DecidableEq κ] (req : κ → HttpRequest ι)

/-- `ban_check_middleware`, and the router. -/
def arrive (s : Gate ι κ) (k : κ) (now : Nat) : Gate ι κ :=
  let answer := s.bans.list.isBanned env.ban now (env.ipOf (req k))
  ⟨⟨answer.2, now⟩, s.checks,
    Function.update s.phases k (if answer.1 then .forbidden else env.routed (req k))⟩

/-- `require_access_token` -/
def authorize (s : Gate ι κ) (k : κ) (now : Nat) (userToken : String) (route : AddonRoute) :
    Gate ι κ :=
  ⟨match env.cfg.userForKey userToken with
    | some _ => s.bans
    | none => ⟨(s.bans.list.recordFailure env.ban now (env.ipOf (req k))).2, now⟩,
    s.checks, Function.update s.phases k (env.authorized userToken route)⟩

/-- `GovernorLayer`, keyed on the peer. -/
def limit (s : Gate ι κ) (k : κ) (instant : Nat) (user userToken : Option String)
    (route : AddonRoute) : Gate ι κ :=
  let times := instant :: s.checks (req k).peer
  ⟨s.bans, Function.update s.checks (req k).peer times,
    Function.update s.phases k (env.limited times user userToken route)⟩

def step (s : Gate ι κ) : GateAct κ → Option (Gate ι κ)
  | .arrive k now => match s.phases k with
    | .coming => some (env.arrive req s k now)
    | _ => none
  | .authorize k now => match s.phases k with
    | .authorizing userToken route => some (env.authorize req s k now userToken route)
    | _ => none
  | .limit k instant => match s.phases k with
    | .limiting user userToken route => some (env.limit req s k instant user userToken route)
    | _ => none

end GateEnv

def Gate.init {ι κ : Type} : Gate ι κ := ⟨.new, fun _ => [], fun _ => .coming⟩

/-! ## What is due -/

namespace GateEnv
variable {ι κ : Type} (env : GateEnv ι)

/-- The request carries a token that is nobody's. -/
def badToken (r : HttpRequest ι) : Bool :=
  match env.endpoint r with
  | some (.addon (some userToken) _) => (env.cfg.userForKey userToken).isNone
  | _ => false

/-- Where a request stands whose token was looked up. -/
def decided (r : HttpRequest ι) : GatePhase :=
  match env.endpoint r with
  | some (.addon (some userToken) route) => env.authorized userToken route
  | _ => .notFound

/-- Where a request stands whose peer came to the limiter at these times. -/
def cleared (times : List Nat) (r : HttpRequest ι) : GatePhase :=
  match env.endpoint r with
  | some (.addon userToken route) =>
    env.limited times (userToken.bind env.cfg.userForKey) userToken route
  | _ => .notFound

variable [DecidableEq ι] [DecidableEq κ] (req : κ → HttpRequest ι)

/-- When requests of `ip` with a bad token were turned away, newest first. -/
def turnedAway (ip : ι) (acts : List (GateAct κ)) : List Nat :=
  acts.filterMap fun
    | .arrive _ _ | .limit _ _ => none
    | .authorize k now =>
      if env.badToken (req k) ∧ env.ipOf (req k) = ip then some now else none

omit [DecidableEq κ] in
/-- When the peer came to the limiter, newest first. -/
def limiterTimes (peer : ι) (acts : List (GateAct κ)) : List Nat :=
  acts.filterMap fun
    | .arrive _ _ | .authorize _ _ => none
    | .limit k instant => if (req k).peer = peer then some instant else none

/-- Where the request must stand after the acts, newest first: refused where its address was
banned for its bad tokens when it came, and admitted with a token of a user only, where the
limiter lets its peer pass. -/
def due : List (GateAct κ) → κ → GatePhase
  | [], _ => .coming
  | .arrive k now :: acts, j =>
    if j = k then
      if (tally env.ban (env.turnedAway req (env.ipOf (req k)) acts)).banned env.ban now then
        .forbidden
      else env.routed (req k)
    else due acts j
  | .authorize k _ :: acts, j => if j = k then env.decided (req k) else due acts j
  | .limit k instant :: acts, j =>
    if j = k then env.cleared (instant :: limiterTimes req (req k).peer acts) (req k)
    else due acts j

end GateEnv

namespace GateEnv
variable {ι κ : Type} [DecidableEq ι] [DecidableEq κ] (env : GateEnv ι)
  (req : κ → HttpRequest ι)

/-- The calls of the ban list are on time, and throw no counted failure away. -/
def Sparing (s : Gate ι κ) : GateAct κ → Prop
  | .arrive k now => Addon.Sparing env.ban s.bans (now, .isBanned (env.ipOf (req k)))
  | .authorize k now => env.badToken (req k) = true →
    Addon.Sparing env.ban s.bans (now, .recordFailure (env.ipOf (req k)))
  | .limit _ _ => True

/-- The calls of the ban list. -/
def banCalls (acts : List (GateAct κ)) : List (Nat × BanCall ι) :=
  acts.filterMap fun
    | .arrive k now => some (now, .isBanned (env.ipOf (req k)))
    | .authorize k now =>
      if env.badToken (req k) then some (now, .recordFailure (env.ipOf (req k))) else none
    | .limit _ _ => none

omit [DecidableEq ι] [DecidableEq κ] in
theorem banCalls_authorize {k : κ} (now : Nat) (acts : List (GateAct κ)) :
    env.banCalls req (.authorize k now :: acts) =
      if env.badToken (req k) then
        (now, .recordFailure (env.ipOf (req k))) :: env.banCalls req acts
      else env.banCalls req acts := by
  cases hb : env.badToken (req k) <;> simp [banCalls, hb]

omit [DecidableEq κ] in
theorem limiterTimes_limit (k : κ) (instant : Nat) (peer : ι) (acts : List (GateAct κ)) :
    limiterTimes req peer (.limit k instant :: acts) =
      if (req k).peer = peer then instant :: limiterTimes req peer acts
      else limiterTimes req peer acts := by
  by_cases hp : (req k).peer = peer <;> simp [limiterTimes, hp]

variable {env : GateEnv ι} {req : κ → HttpRequest ι} {s t : Gate ι κ} {k : κ} {now : Nat}
  {acts : List (GateAct κ)} {a : GateAct κ} {userToken : String} {user token : Option String}
  {route : AddonRoute} {ip : ι} {times : List Nat}

omit [DecidableEq κ] in
theorem failuresOf_banCalls (ip : ι) :
    failuresOf ip (env.banCalls req acts) = env.turnedAway req ip acts := by
  unfold failuresOf banCalls turnedAway
  rw [List.filterMap_filterMap]
  congr 1
  funext a
  cases a with
  | arrive k now | limit k instant => rfl
  | authorize k now =>
    by_cases hb : env.badToken (req k) = true
    · simp [hb]
    · simp [hb]

/-! ## What a step does -/

/-- The possible effects of a step. -/
inductive Effect (env : GateEnv ι) (req : κ → HttpRequest ι) (s : Gate ι κ) :
    GateAct κ → Gate ι κ → Prop where
  | arrived (k : κ) (now : Nat) : s.phases k = .coming →
      Effect env req s (.arrive k now) (env.arrive req s k now)
  | known (k : κ) (now : Nat) (userToken : String) (route : AddonRoute) :
      s.phases k = .authorizing userToken route → (env.cfg.userForKey userToken).isNone = false →
      Effect env req s (.authorize k now)
        ⟨s.bans, s.checks, Function.update s.phases k (env.authorized userToken route)⟩
  | unknown (k : κ) (now : Nat) (userToken : String) (route : AddonRoute) :
      s.phases k = .authorizing userToken route → (env.cfg.userForKey userToken).isNone = true →
      Effect env req s (.authorize k now)
        ⟨⟨(s.bans.list.recordFailure env.ban now (env.ipOf (req k))).2, now⟩, s.checks,
          Function.update s.phases k (env.authorized userToken route)⟩
  | limited (k : κ) (instant : Nat) (user userToken : Option String) (route : AddonRoute) :
      s.phases k = .limiting user userToken route →
      Effect env req s (.limit k instant) (env.limit req s k instant user userToken route)

theorem step_effect (h : env.step req s a = some t) : Effect env req s a t := by
  cases a with
  | arrive k now =>
    simp only [step] at h
    split at h
    · next hk =>
      cases h
      exact .arrived k now hk
    · cases h
  | authorize k now =>
    simp only [step] at h
    split at h
    · next userToken route hk =>
      cases h
      unfold authorize
      cases hu : env.cfg.userForKey userToken with
      | some name => exact .known k now userToken route hk (by rw [hu]; rfl)
      | none => exact .unknown k now userToken route hk (by rw [hu]; rfl)
    · cases h
  | limit k instant =>
    simp only [step] at h
    split at h
    · next user token route hk =>
      cases h
      exact .limited k instant user token route hk
    · cases h

theorem arrive_phases (j : κ) : (env.arrive req s k now).phases j =
    if j = k then
      if (s.bans.list.isBanned env.ban now (env.ipOf (req k))).1 then .forbidden
      else env.routed (req k)
    else s.phases j :=
  Function.update_apply ..

/-- Whose token is looked up, that request is for an addon route with the token; and who comes to
the limiter does so under the name that the token has. -/
def Looks (env : GateEnv ι) (r : HttpRequest ι) : GatePhase → Prop
  | .authorizing userToken route => env.endpoint r = some (.addon (some userToken) route)
  | .limiting user userToken route => env.endpoint r = some (.addon userToken route) ∧
    user = userToken.bind env.cfg.userForKey ∧ user.isSome = userToken.isSome
  | _ => True

def Looking (env : GateEnv ι) (req : κ → HttpRequest ι) (s : Gate ι κ) : Prop :=
  ∀ k, Looks env (req k) (s.phases k)

omit [DecidableEq ι] in
theorem looks_routed {r : HttpRequest ι} : Looks env r (env.routed r) := by
  unfold routed
  split
  · trivial
  · next he => exact he
  · next he => exact ⟨he, rfl, rfl⟩
  · trivial

omit [DecidableEq ι] in
theorem looks_authorized {r : HttpRequest ι}
    (he : env.endpoint r = some (.addon (some userToken) route)) :
    Looks env r (env.authorized userToken route) := by
  unfold authorized
  split
  · next name hname => exact ⟨he, hname.symm, rfl⟩
  · trivial

omit [DecidableEq ι] in
/-- The limiter admits a request or, where there is one, turns it away. -/
theorem limited_cases (env : GateEnv ι) (times : List Nat) (user token : Option String)
    (route : AddonRoute) :
    env.limited times user token route = .admitted user (.addon token route) ∨
      env.limited times user token route = .tooMany ∧ env.limiter.isSome := by
  unfold limited
  split
  · exact .inl rfl
  · next h =>
    refine .inr ⟨rfl, ?_⟩
    cases hl : env.limiter with
    | none => simp [hl] at h
    | some allows => rfl

omit [DecidableEq ι] in
theorem looks_limited {r : HttpRequest ι} :
    Looks env r (env.limited times user token route) := by
  rcases limited_cases env times user token route with h | ⟨h, -⟩ <;> rw [h] <;> trivial

omit [DecidableEq ι] in
theorem Looking.update (h : Looking env req s) {p : GatePhase} (hp : Looks env (req k) p) (j : κ) :
    Looks env (req j) (Function.update s.phases k p j) := by
  by_cases hj : j = k
  · subst hj
    rwa [Function.update_self]
  · rw [Function.update_of_ne hj]
    exact h j

omit [DecidableEq ι] [DecidableEq κ] in
theorem Looking.authorizing (h : Looking env req s)
    (hk : s.phases k = .authorizing userToken route) :
    env.endpoint (req k) = some (.addon (some userToken) route) := by
  have := h k
  rwa [hk] at this

omit [DecidableEq ι] [DecidableEq κ] in
theorem Looking.limiting (h : Looking env req s) (hk : s.phases k = .limiting user token route) :
    env.endpoint (req k) = some (.addon token route) ∧
      user = token.bind env.cfg.userForKey ∧ user.isSome = token.isSome := by
  have := h k
  rwa [hk] at this

omit [DecidableEq ι] [DecidableEq κ] in
theorem looking_init : Looking env req (.init : Gate ι κ) := fun _ => trivial

theorem Effect.looking (he : Effect env req s a t) (h : Looking env req s) :
    Looking env req t := by
  cases he with
  | arrived k now hk =>
    refine h.update ?_
    split
    · trivial
    · exact looks_routed
  | known k now userToken route hk | unknown k now userToken route hk =>
    exact h.update (looks_authorized (h.authorizing hk))
  | limited k instant user token route hk => exact h.update looks_limited

omit [DecidableEq ι] [DecidableEq κ] in
theorem badToken_eq (he : env.endpoint (req k) = some (.addon (some userToken) route)) :
    env.badToken (req k) = (env.cfg.userForKey userToken).isNone := by
  rw [badToken, he]

omit [DecidableEq ι] [DecidableEq κ] in
theorem decided_eq (he : env.endpoint (req k) = some (.addon (some userToken) route)) :
    env.decided (req k) = env.authorized userToken route := by
  rw [decided, he]

omit [DecidableEq ι] [DecidableEq κ] in
theorem cleared_eq (h : Looking env req s) (hk : s.phases k = .limiting user token route) :
    env.cleared times (req k) = env.limited times user token route := by
  obtain ⟨he, rfl, -⟩ := h.limiting hk
  rw [cleared, he]

/-! ## A bad token -/

/-- One bad token bans for ten seconds, and a peer may come once in a second; the key of the one
user is `one`. -/
def oneStrike : GateEnv Nat where
  parseIp _ := none
  trustProxyHeaders := false
  ban := ⟨1, 100, 10⟩
  ratePerMinute := 60
  burst := 1
  -- no period goes by in the runs below, so that nobody is let by more often than the burst
  governor _ burst times := times.length ≤ burst
  cfg := { users := ⟨[("alice", { key := "one" })], by decide⟩ }

/-- Requests of the addresses 0 and 1, the first with a bad token. -/
def guessed : Nat → HttpRequest Nat
  | 0 => ⟨0, fun _ => none, ["two", "manifest.json"]⟩
  | 1 => ⟨1, fun _ => none, ["one", "stream", "movie", "tt0133093.json"]⟩
  | 2 => ⟨0, fun _ => none, ["v", "t.mkv"]⟩
  | _ => ⟨1, fun _ => none, ["one", "manifest.json"]⟩

def guesses : List (GateAct Nat) :=
  [.limit 3 9, .limit 1 7, .authorize 3 105, .arrive 3 104, .authorize 1 103, .arrive 2 102,
    .authorize 0 101, .arrive 1 100, .arrive 0 100]

/-- What is asked is on time, and finds no expired ban. -/
def sparingB (s : Gate Nat Nat) : GateAct Nat → Bool
  | .arrive k now => s.bans.clock ≤ now && 100 ≤ now &&
    !((s.bans.list (oneStrike.ipOf (guessed k))).bind (·.bannedUntil)).any (· ≤ now)
  | .authorize _ now => s.bans.clock ≤ now && 100 ≤ now
  | .limit _ _ => true

theorem sparing_of_b {s : Gate Nat Nat} {a : GateAct Nat} (h : sparingB s a = true) :
    oneStrike.Sparing guessed s a := by
  cases a with
  | arrive k now =>
    simp only [sparingB, Bool.and_eq_true, decide_eq_true_eq, Bool.not_eq_true'] at h
    refine ⟨⟨h.1.1, h.1.2⟩, fun ip entry until_ hip he hu hle => ?_⟩
    cases hip
    rw [he] at h
    simp [hu, hle] at h
  | authorize k now =>
    simp only [sparingB, Bool.and_eq_true, decide_eq_true_eq] at h
    exact fun _ => ⟨h, fun ip entry until_ hip => by cases hip⟩
  | limit k instant => trivial

theorem guesses_run :
    ∃ s, Run (oneStrike.step guessed) (oneStrike.Sparing guessed) .init guesses s := by
  have hsome : (exec (oneStrike.step guessed) sparingB .init guesses.reverse).isSome := by
    decide +kernel
  obtain ⟨s, hs⟩ := Option.isSome_iff_exists.mp hsome
  have hrun := run_of_exec (fun _ _ => sparing_of_b) hs
  rw [List.reverse_reverse] at hrun
  exact ⟨s, hrun⟩

/-! ## The gate decides as is due -/

/-- The phases are as due, the ban list holds the tallies of the bad tokens, and the limiter counts
the requests that came to it. -/
structure Due (env : GateEnv ι) (req : κ → HttpRequest ι) (acts : List (GateAct κ))
    (s : Gate ι κ) : Prop where
  phases : ∀ k, s.phases k = env.due req acts k
  bans : Tallied env.ban s.bans (env.banCalls req acts)
  checks : ∀ peer, s.checks peer = limiterTimes req peer acts

theorem Due.arrive (hen : 0 < env.ban.failureThreshold.toNat) (h : Due env req acts s)
    (ha : env.Sparing req s (.arrive k now)) :
    Due env req (.arrive k now :: acts) (env.arrive req s k now) := by
  have hanswer : (s.bans.list.isBanned env.ban now (env.ipOf (req k))).1 =
      (tally env.ban (env.turnedAway req (env.ipOf (req k)) acts)).banned env.ban now := by
    rw [← failuresOf_banCalls]
    exact h.bans.answer hen ha.1
  refine ⟨fun j => ?_, h.bans.step hen ha.1 ha.2, h.checks⟩
  rw [arrive_phases, hanswer, h.phases]
  rfl

theorem Due.authorize (hen : 0 < env.ban.failureThreshold.toNat) (h : Due env req acts s)
    (hl : Looking env req s) (ha : env.Sparing req s (.authorize k now))
    (he : Effect env req s (.authorize k now) t) : Due env req (.authorize k now :: acts) t := by
  have hphases : ∀ {userToken route}, s.phases k = .authorizing userToken route → ∀ j,
      Function.update s.phases k (env.authorized userToken route) j =
        env.due req (.authorize k now :: acts) j := by
    intro userToken route hk j
    show _ = if j = k then _ else env.due req acts j
    rw [Function.update_apply, decided_eq (hl.authorizing hk), h.phases]
  cases he with
  | known _ _ userToken route hk hu =>
    refine ⟨hphases hk, ?_, h.checks⟩
    rw [banCalls_authorize, badToken_eq (hl.authorizing hk), hu]
    exact h.bans
  | unknown _ _ userToken route hk hu =>
    refine ⟨hphases hk, ?_, h.checks⟩
    have hbad := badToken_eq (hl.authorizing hk)
    rw [hu] at hbad
    rw [banCalls_authorize, if_pos hbad]
    exact h.bans.step hen (ha hbad).1 (ha hbad).2

theorem Due.limit {instant : Nat} (h : Due env req acts s) (hl : Looking env req s)
    (hk : s.phases k = .limiting user token route) : Due env req (.limit k instant :: acts)
      (env.limit req s k instant user token route) := by
  refine ⟨fun j => ?_, h.bans, fun peer => ?_⟩
  · show Function.update s.phases k _ j = if j = k then _ else env.due req acts j
    rw [Function.update_apply, cleared_eq hl hk, h.checks, h.phases]
  · show Function.update s.checks _ _ peer = _
    rw [Function.update_apply, limiterTimes_limit]
    by_cases hp : peer = (req k).peer
    · subst hp
      rw [if_pos rfl, if_pos rfl, h.checks]
    · rw [if_neg hp, if_neg (Ne.symm hp), h.checks]

section
variable (cfg : BanConfig) (now : Nat) {list list' : BanList ι}

theorem isBanned_congr (h : list ip = list' ip) :
    (list.isBanned cfg now ip).1 = (list'.isBanned cfg now ip).1 ∧
      (list.isBanned cfg now ip).2 ip = (list'.isBanned cfg now ip).2 ip := by
  unfold BanList.isBanned
  rw [h]
  split
  · exact ⟨rfl, h⟩
  · split
    · exact ⟨rfl, h⟩
    · split
      · split
        · exact ⟨rfl, h⟩
        · exact ⟨rfl, by simp only [Function.update_self]⟩
      · exact ⟨rfl, h⟩

theorem recordFailure_congr (h : list ip = list' ip) :
    (list.recordFailure cfg now ip).2 ip = (list'.recordFailure cfg now ip).2 ip := by
  unfold BanList.recordFailure
  simp only [h]
  generalize (if cfg.window ≤ now then now - cfg.window else now) = cutoff
  split
  · exact h
  · split
    · simp only [Function.update_self]
    · split <;> simp only [Function.update_self]

end

/-- No other request has the address of one of these, or the peer where there is a limiter. -/
structure Apart (env : GateEnv ι) (req : κ → HttpRequest ι) (own : κ → Bool) : Prop where
  address : ∀ k j, own k = true → own j = false → env.ipOf (req k) ≠ env.ipOf (req j)
  peer : env.limiter.isSome → ∀ k j, own k = true → own j = false → (req k).peer ≠ (req j).peer

omit [DecidableEq κ] in
/-- Where no header of a proxy is believed, the address is the peer. -/
theorem apart_of_untrusted (h : env.trustProxyHeaders = false) (req : κ → HttpRequest ι) (ip : ι) :
    Apart env req fun k => env.ipOf (req k) = ip := by
  have hip : ∀ r, env.ipOf r = r.peer := by
    intro r
    simp [ipOf, clientIp, h]
  have hne : ∀ k j, decide (env.ipOf (req k) = ip) = true → decide (env.ipOf (req j) = ip) = false →
      env.ipOf (req k) ≠ env.ipOf (req j) :=
    fun k j hk hj heq => of_decide_eq_false hj (heq ▸ of_decide_eq_true hk)
  refine ⟨hne, fun _ k j hk hj => ?_⟩
  rw [← hip, ← hip]
  exact hne k j hk hj

/-- The states agree on the requests, their addresses and, where there is a limiter, peers. -/
structure AgreeOn (env : GateEnv ι) (req : κ → HttpRequest ι) (own : κ → Bool) (s s' : Gate ι κ) :
    Prop where
  list : ∀ k, own k = true → s.bans.list (env.ipOf (req k)) = s'.bans.list (env.ipOf (req k))
  checks : env.limiter.isSome → ∀ k, own k = true → s.checks (req k).peer = s'.checks (req k).peer
  phases : ∀ k, own k = true → s.phases k = s'.phases k

variable {s' : Gate ι κ} {own : κ → Bool}

omit [DecidableEq ι] in
/-- The same request moves in both. -/
theorem AgreeOn.update_phases (h : AgreeOn env req own s s') {p p' : GatePhase} (hp : p = p')
    (j : κ) (hj : own j = true) :
    Function.update s.phases k p j = Function.update s'.phases k p' j := by
  rw [Function.update_apply, Function.update_apply, hp, h.phases j hj]

omit [DecidableEq κ] in
/-- What both do to the entry of one address leaves the others as they are. -/
theorem AgreeOn.update_list (h : AgreeOn env req own s s') {f : BanList ι → BanList ι} {ip : ι}
    (hself : f s.bans.list ip = f s'.bans.list ip)
    (hne : ∀ list ip', ip' ≠ ip → f list ip' = list ip') (j : κ) (hj : own j = true) :
    f s.bans.list (env.ipOf (req j)) = f s'.bans.list (env.ipOf (req j)) := by
  by_cases hip : env.ipOf (req j) = ip
  · rw [hip]
    exact hself
  · rw [hne _ _ hip, hne _ _ hip]
    exact h.list j hj

omit [DecidableEq ι] in
theorem limited_congr {times' : List Nat} (h : env.limiter.isSome → times = times') :
    env.limited times user token route = env.limited times' user token route := by
  unfold limited
  cases hl : env.limiter with
  | none => rfl
  | some allows => rw [h (by rw [hl]; rfl)]

/-- A step of one of the requests is taken alike in both. -/
theorem AgreeOn.step (h : AgreeOn env req own s s') (hown : own a.request = true)
    (hs : env.step req s a = some t) :
    ∃ t', env.step req s' a = some t' ∧ AgreeOn env req own t t' := by
  cases a with
  | arrive k now =>
    have hk := h.phases k hown
    have hlist : s.bans.list (env.ipOf (req k)) = s'.bans.list (env.ipOf (req k)) := h.list k hown
    obtain ⟨hanswer, hafter⟩ := isBanned_congr env.ban now hlist
    simp only [GateEnv.step] at hs ⊢
    rw [← hk]
    split at hs
    · next hcoming =>
      cases hs
      exact ⟨_, rfl, h.update_list hafter fun list _ => isBanned_of_ne env.ban list now, h.checks,
        h.update_phases (by rw [hanswer])⟩
    · cases hs
  | authorize k now =>
    have hk := h.phases k hown
    simp only [GateEnv.step] at hs ⊢
    rw [← hk]
    split at hs
    · next userToken route hp =>
      cases hs
      refine ⟨_, rfl, fun j hj => ?_, h.checks, h.update_phases rfl⟩
      unfold authorize
      split
      · exact h.list j hj
      · exact h.update_list (recordFailure_congr env.ban now (h.list k hown))
          (fun list _ => recordFailure_of_ne env.ban list now) j hj
    · cases hs
  | limit k instant =>
    have hk := h.phases k hown
    simp only [GateEnv.step] at hs ⊢
    rw [← hk]
    split at hs
    · next user token route hp =>
      cases hs
      refine ⟨_, rfl, h.list, fun hl j hj => ?_, h.update_phases
        (limited_congr fun hl => by rw [h.checks hl k hown])⟩
      show Function.update s.checks _ _ _ = Function.update s'.checks _ _ _
      rw [Function.update_apply, Function.update_apply, h.checks hl k hown, h.checks hl j hj]
    · cases hs

/-- A step of another request is not seen. -/
theorem AgreeOn.other (h : AgreeOn env req own s s') (hapart : Apart env req own)
    (hown : own a.request = false) (hs : env.step req s a = some t) :
    AgreeOn env req own t s' := by
  have hphases : ∀ (p : GatePhase) j, own j = true →
      Function.update s.phases a.request p j = s'.phases j := by
    intro p j hj
    have hne : j ≠ a.request := by
      rintro rfl
      rw [hj] at hown
      cases hown
    rw [Function.update_of_ne hne]
    exact h.phases j hj
  cases step_effect hs with
  | arrived k now hk =>
    refine ⟨fun j hj => ?_, h.checks, hphases _⟩
    exact (isBanned_of_ne env.ban s.bans.list now (hapart.address j k hj hown)).trans (h.list j hj)
  | known k now userToken route hk hu => exact ⟨h.list, h.checks, hphases _⟩
  | unknown k now userToken route hk hu =>
    refine ⟨fun j hj => ?_, h.checks, hphases _⟩
    exact (recordFailure_of_ne env.ban s.bans.list now (hapart.address j k hj hown)).trans
      (h.list j hj)
  | limited k instant user userToken route hk =>
    refine ⟨h.list, fun hl j hj => ?_, hphases _⟩
    show Function.update s.checks _ _ _ = _
    rw [Function.update_of_ne (hapart.peer hl j k hj hown)]
    exact h.checks hl j hj

/-- **Requests that share neither their address nor, where there is a limiter, their peer with the
others do not interfere with them**: on their own they are a run, and stand where they stand in the
whole run. -/
theorem gate_isolated (hapart : Apart env req own)
    (h : Run (env.step req) (fun _ _ => True) .init acts s) :
    ∃ t, Run (env.step req) (fun _ _ => True) .init (acts.filter fun a => own a.request) t ∧
      ∀ k, own k = true → t.phases k = s.phases k ∧
        t.bans.list (env.ipOf (req k)) = s.bans.list (env.ipOf (req k)) := by
  obtain ⟨t, hrun, hagree⟩ := h.filter (AgreeOn env req own) (fun a => own a.request)
    ⟨fun _ _ => rfl, fun _ _ _ => rfl, fun _ _ => rfl⟩
    (fun t t₀ a u hR hk _ hs => ⟨trivial, hR.step hk hs⟩)
    (fun t t₀ a u hR hk _ hs => hR.other hapart hk hs)
  exact ⟨t, hrun, fun k hk => ⟨(hagree.phases k hk).symm, (hagree.list k hk).symm⟩⟩

theorem gate_isolated_guessed :
    ∃ s t, Run (oneStrike.step guessed) (fun _ _ => True) .init guesses s ∧
      Run (oneStrike.step guessed) (fun _ _ => True) .init
        (guesses.filter fun a => oneStrike.ipOf (guessed a.request) = 1) t ∧
      ∀ k, decide (oneStrike.ipOf (guessed k) = 1) = true → t.phases k = s.phases k ∧
        t.bans.list (oneStrike.ipOf (guessed k)) = s.bans.list (oneStrike.ipOf (guessed k)) := by
  obtain ⟨s, hrun⟩ := guesses_run
  have hrun := hrun.mono fun _ _ _ => trivial
  obtain ⟨t, ht⟩ := gate_isolated (apart_of_untrusted rfl guessed 1) hrun
  exact ⟨s, t, hrun, ht⟩

/-! ## Whatever the clock does -/

/-- The endpoint is the one asked for, and where users are configured an addon route is entered
under the name of the user whose token it has. -/
def Entitled (env : GateEnv ι) (r : HttpRequest ι) (user : Option String) (e : Endpoint) : Prop :=
  env.endpoint r = some e ∧
    ∀ userToken route, e = .addon userToken route → env.cfg.requiresAuth = true →
      ∃ token name, userToken = some token ∧ user = some name ∧
        env.cfg.userForKey token = some name

/-- Who is admitted is entitled, an address without bad tokens is not forbidden, and the limiter
turns nobody away but on an addon route. -/
structure Safe (env : GateEnv ι) (req : κ → HttpRequest ι) (s : Gate ι κ) : Prop where
  admitted : ∀ k user e, s.phases k = .admitted user e → Entitled env (req k) user e
  spared : ∀ ip, (∀ k, env.ipOf (req k) = ip → env.badToken (req k) = false) →
    s.bans.list ip = none ∧ ∀ k, env.ipOf (req k) = ip → s.phases k ≠ .forbidden
  limited : ∀ k, s.phases k = .tooMany → env.limiter.isSome ∧
    ∃ userToken route, env.endpoint (req k) = some (.addon userToken route)

omit [DecidableEq κ] in
/-- Where users are configured an addon route has a token. -/
theorem addon_token {requiresAuth : Bool} {path : List String} {userToken : Option String}
    (h : matchRoute requiresAuth path = some (.addon userToken route))
    (hauth : requiresAuth = true) : ∃ token, userToken = some token := by
  subst hauth
  unfold matchRoute at h
  split at h
  · cases h
  · split at h <;> simp_all
    · exact ⟨_, h.1.symm⟩
    · exact ⟨_, h.1.symm⟩

omit [DecidableEq ι] [DecidableEq κ] in
theorem Safe.init : Safe env req (.init : Gate ι κ) where
  admitted k user e hk := by cases hk
  spared ip _ := ⟨rfl, fun k _ hk => by cases hk⟩
  limited k hk := by cases hk

/-- A phase that a request may be in whose address presents no bad token. -/
def Sound (env : GateEnv ι) (r : HttpRequest ι) : GatePhase → Prop
  | .admitted user e => Entitled env r user e
  | .tooMany => env.limiter.isSome ∧ ∃ userToken route,
    env.endpoint r = some (.addon userToken route)
  | .forbidden => False
  | _ => True

omit [DecidableEq ι] in
/-- What is admitted without a token is no addon route. -/
theorem sound_routed {r : HttpRequest ι} : Sound env r (env.routed r) := by
  unfold routed
  split
  · trivial
  · trivial
  · trivial
  · next e hsome hnone he =>
    refine ⟨he, fun u route hur => ?_⟩
    subst hur
    cases u with
    | none => exact absurd rfl (hnone route)
    | some token => exact absurd rfl (hsome token route)

omit [DecidableEq ι] in
theorem sound_authorized {r : HttpRequest ι} : Sound env r (env.authorized userToken route) := by
  unfold authorized
  split <;> trivial

omit [DecidableEq ι] in
/-- What comes of the limiter; the token has been looked up. -/
theorem sound_limited {r : HttpRequest ι} (h : Looks env r (.limiting user token route)) :
    Sound env r (env.limited times user token route) := by
  obtain ⟨he, hu, hsome⟩ := h
  rcases limited_cases env times user token route with heq | ⟨heq, hl⟩
  · rw [heq]
    refine ⟨he, fun u route' hur hauth => ?_⟩
    cases hur
    obtain ⟨key, rfl⟩ := addon_token he hauth
    obtain ⟨name, rfl⟩ := Option.isSome_iff_exists.mp hsome
    exact ⟨key, name, rfl, rfl, hu.symm⟩
  · rw [heq]
    exact ⟨hl, token, route, he⟩

omit [DecidableEq ι] in
/-- The step takes one request to a sound phase, or to be forbidden where its address is banned. -/
theorem Safe.update (h : Safe env req s) {bans : BanState ι} {checks : ι → List Nat}
    {p : GatePhase} (hp : p = .forbidden ∨ Sound env (req k) p)
    (hspared : ∀ ip, (∀ k, env.ipOf (req k) = ip → env.badToken (req k) = false) →
      bans.list ip = none ∧ (env.ipOf (req k) = ip → p ≠ .forbidden)) :
    Safe env req ⟨bans, checks, Function.update s.phases k p⟩ := by
  refine ⟨fun j user e hj => ?_, fun ip hgood => ⟨(hspared ip hgood).1, fun j hj hf => ?_⟩,
    fun j hj => ?_⟩
  · rcases update_cases hj with ⟨rfl, rfl⟩ | hj
    · exact hp.resolve_left GatePhase.noConfusion
    · exact h.admitted j user e hj
  · rcases update_cases hf with ⟨rfl, rfl⟩ | hf
    · exact (hspared ip hgood).2 hj rfl
    · exact (h.spared ip hgood).2 j hj hf
  · rcases update_cases hj with ⟨rfl, rfl⟩ | hj
    · exact hp.resolve_left GatePhase.noConfusion
    · exact h.limited j hj

theorem Effect.safe (he : Effect env req s a t) (hl : Looking env req s) (h : Safe env req s) :
    Safe env req t := by
  cases he with
  | arrived k now hk =>
    refine h.update ?_ fun ip hgood => ?_
    · split
      · exact .inl rfl
      · exact .inr sound_routed
    · have hlist := (h.spared ip hgood).1
      have hnone : ((s.bans.list ip).getD .default).bannedUntil = none := by
        rw [hlist]
        rfl
      by_cases hip : env.ipOf (req k) = ip
      · subst hip
        rw [isBanned_of_none hnone]
        refine ⟨hlist, fun _ => ?_⟩
        rw [if_neg Bool.false_ne_true]
        exact fun hf => (hf ▸ sound_routed : Sound env (req k) .forbidden)
      · exact ⟨(isBanned_of_ne env.ban s.bans.list now (Ne.symm hip)).trans hlist,
          fun heq => absurd heq hip⟩
  | known k now userToken route hk hu =>
    exact h.update (.inr sound_authorized) fun ip hgood => ⟨(h.spared ip hgood).1, fun _ hf =>
      (hf ▸ sound_authorized : Sound env (req k) .forbidden)⟩
  | unknown k now userToken route hk hu =>
    refine h.update (.inr sound_authorized) fun ip hgood => ?_
    -- a bad token is not one of this address
    have hip : env.ipOf (req k) ≠ ip := by
      intro hip
      have := hgood k hip
      rw [badToken_eq (hl.authorizing hk), hu] at this
      cases this
    exact ⟨(recordFailure_of_ne env.ban s.bans.list now (Ne.symm hip)).trans (h.spared ip hgood).1,
      fun heq => absurd heq hip⟩
  | limited k instant user token route hk =>
    have hsound : ∀ times, Sound env (req k) (env.limited times user token route) :=
      fun times => sound_limited (hl.limiting hk)
    exact h.update (.inr (hsound _)) fun ip hgood => ⟨(h.spared ip hgood).1, fun _ hf =>
      (hf ▸ hsound _ : Sound env (req k) .forbidden)⟩

theorem safe_of_run (h : Run (env.step req) (fun _ _ => True) .init acts s) : Safe env req s := by
  have hboth : Looking env req s ∧ Safe env req s :=
    h.inv (I := fun t => Looking env req t ∧ Safe env req t) ⟨looking_init, Safe.init⟩
      fun t a u ht _ hs => ⟨(step_effect hs).looking ht.1, (step_effect hs).safe ht.1 ht.2⟩
  exact hboth.2

/-- **Nobody is admitted to an addon route who has no user's token, and nobody is forbidden whose
address presents no bad token**, in whatever order and however late the checks come. -/
theorem gate_safe (h : Run (env.step req) (fun _ _ => True) .init acts s) : Safe env req s :=
  safe_of_run h

theorem gate_safe_guessed :
    ∃ s, Run (oneStrike.step guessed) (fun _ _ => True) .init guesses s ∧
      Safe oneStrike guessed s := by
  obtain ⟨s, hrun⟩ := guesses_run
  exact ⟨s, hrun.mono fun _ _ _ => trivial, gate_safe (hrun.mono fun _ _ _ => trivial)⟩

end GateEnv

end StremioNzb.Addon

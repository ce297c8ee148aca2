import StremioNzb.Addon.VideoRoute
import StremioNzb.Streaming.Mappable

/-!
# What a session commits to

The turns of the requests at the cell of a session, in any interleaving. One request at a time
walks the candidates; a walk that comes to no stream has failed on each candidate in order, or was
broken off. The session commits to the stream of the first attempt that succeeds
(`committed_first`), for good; a request is refused after a walk of its own over all the candidates
(`refused_after_all`); every other response is for the committed stream, and announces its size
(`responses_agree`).
-/

namespace StremioNzb.Addon

open StremioNzb.Lib StremioNzb.Streaming

/-! ## One walk -/

section Walk
variable (candidates : List NzbCandidate) (startIdx : Nat) (token : String)

/-- The attempts, each on its net, fail on the candidates from `startIdx` on; the last error. -/
inductive Fails : List Net → Option PreflightError → Prop where
  | nil : Fails [] none
  | snoc {nets : List Net} {lastErr : Option PreflightError} {net : Net} {candidate : NzbCandidate}
      {e : PreflightError} : Fails nets lastErr →
      candidates[startIdx + nets.length]? = some candidate →
      net.probeCandidateInner candidate.nzbUrl token = .error e →
      Fails (nets ++ [net]) (some e)

/-- They fail up to the last one, which yields the stream. -/
inductive Succeeds : List Net → ActiveStream → Prop where
  | snoc {nets : List Net} {lastErr : Option PreflightError} {net : Net} {candidate : NzbCandidate}
      {active : ActiveStream} : Fails candidates startIdx token nets lastErr →
      candidates[startIdx + nets.length]? = some candidate →
      net.probeCandidateInner candidate.nzbUrl token = .ok active →
      Succeeds (nets ++ [net]) { active with candidateIdx := startIdx + nets.length }

/-- Turns of requests that failed on every candidate they tried. -/
inductive Futile {ι : Type} : List (ι × Net) → Prop where
  | nil : Futile []
  | turn {log : List (ι × Net)} {i : ι} {nets : List Net} {lastErr : Option PreflightError} :
      Futile log → Fails candidates startIdx token nets lastErr →
      Futile (log ++ nets.map (i, ·))

end Walk

section
variable {candidates : List NzbCandidate} {startIdx : Nat} {token : String} {nets : List Net}
  {lastErr : Option PreflightError} {active : ActiveStream} {e : PreflightError}

/-- No walk tries more candidates than there are. -/
theorem Fails.length_le (h : Fails candidates startIdx token nets lastErr) :
    nets.length ≤ candidates.length - startIdx := by
  cases h with
  | nil => exact Nat.zero_le _
  | snoc _ hc _ =>
    have := (List.getElem?_eq_some_iff.mp hc).1
    rw [List.length_append, List.length_singleton]
    omega

/-- Where a walk stands after its attempts. -/
def Walk.Stands (candidates : List NzbCandidate) (startIdx : Nat) (token : String)
    (nets : List Net) (w : Walk) : Prop :=
  match w.committed with
  | none => w.idx = startIdx + nets.length ∧ Fails candidates startIdx token nets w.lastErr
  | some active => Succeeds candidates startIdx token nets active

theorem walk_stands (h : (walk candidates startIdx token).Open nets) :
    ((walk candidates startIdx token).after nets).Stands candidates startIdx token nets := by
  refine h.inv (P := Walk.Stands candidates startIdx token) ⟨rfl, .nil⟩ fun bs net w hr hw => ?_
  unfold Walk.Stands at hw
  simp only [walk] at hr
  split at hr
  · cases hr
  · next hnone =>
    rw [hnone] at hw
    obtain ⟨hidx, hfails⟩ := hw
    split at hr
    · next hlt =>
      obtain ⟨candidate, hc⟩ : ∃ candidate, candidates[w.idx]? = some candidate :=
        ⟨_, List.getElem?_eq_getElem hlt⟩
      have hc' : candidates[startIdx + bs.length]? = some candidate := hidx ▸ hc
      simp only [walk, hc]
      cases hp : net.probeCandidateInner candidate.nzbUrl token with
      | ok active =>
        show Succeeds _ _ _ _ _
        rw [hidx]
        exact .snoc hfails hc' hp
      | error e =>
        show Walk.Stands _ _ _ _ _
        rw [Walk.Stands, hnone]
        refine ⟨?_, .snoc hfails hc' hp⟩
        rw [hidx, List.length_append, List.length_singleton, Nat.add_assoc]
    · cases hr

theorem succeeds_of_result (h : (walk candidates startIdx token).Open nets)
    (hr : (walk candidates startIdx token).result ((walk candidates startIdx token).after nets) =
      some (.ok active)) : Succeeds candidates startIdx token nets active := by
  have hs := walk_stands h
  unfold Walk.Stands at hs
  simp only [walk] at hr hs
  split at hr
  · next a ha =>
    rw [ha] at hs
    cases hr
    exact hs
  · split at hr <;> cases hr

theorem fails_of_result (h : (walk candidates startIdx token).Open nets)
    (hr : ∀ active, (walk candidates startIdx token).result
      ((walk candidates startIdx token).after nets) ≠ some (.ok active)) :
    ∃ lastErr, Fails candidates startIdx token nets lastErr := by
  have hs := walk_stands h
  unfold Walk.Stands at hs
  split at hs
  · exact ⟨_, hs.2⟩
  · next a ha => exact absurd (by simp only [walk] at ha ⊢; rw [ha]) (hr a)

/-- The walk has tried all the candidates where it comes to an error. -/
theorem exhausted_of_result (h : (walk candidates startIdx token).Open nets)
    (hr : (walk candidates startIdx token).result ((walk candidates startIdx token).after nets) =
      some (.error e)) :
    ∃ lastErr, Fails candidates startIdx token nets lastErr ∧
      nets.length = candidates.length - startIdx ∧ e = lastErr.getD .noPlayableFile := by
  have hs := walk_stands h
  unfold Walk.Stands at hs
  simp only [walk] at hr hs
  split at hr
  · cases hr
  · next hnone =>
    rw [hnone] at hs
    obtain ⟨hidx, hfails⟩ := hs
    split at hr
    · cases hr
    · next hge =>
      cases hr
      have := hfails.length_le
      exact ⟨_, hfails, by omega, rfl⟩

theorem futile_of_fruitless {ι : Type} {log : List (ι × Net)}
    (h : OnceCell.Fruitless (walk candidates startIdx token) log) :
    Futile candidates startIdx token log := by
  induction h with
  | nil => exact .nil
  | turn _ hopen hr ih =>
    obtain ⟨lastErr, hfails⟩ := fails_of_result hopen hr
    exact ih.turn hfails

end

/-! ## Every run -/

namespace Videos
variable {ι : Type}

/-- What the response to a request rests on. -/
inductive Answered (cfg : StreamConfig) (s : Videos ι) (i : ι) (token : String)
    (range : Option String) : Response → Prop where
  | unknown : Answered cfg s i token range (.ofText 404 s!"unknown token: {token}")
  | serverless : Answered cfg s i token range (.ofText 503 "no NNTP servers configured")
  | refused {session : GroupSession ι} {log : List (ι × Net)} {nets : List Net}
      {e : PreflightError} : s.sessions token = some session → log <+: session.active.log →
      OnceCell.EndsIn (session.walk token) log i nets →
      (session.walk token).result ((session.walk token).after nets) = some (.error e) →
      Answered cfg s i token range (.ofText 502 s!"preflight failed: {e.display}")
  | served {session : GroupSession ι} {active : ActiveStream} : s.sessions token = some session →
      session.active.value = some active →
      Answered cfg s i token range (cfg.respond token range active)

structure Kept (cfg : StreamConfig) (s : Videos ι) : Prop where
  cells : ∀ token session, s.sessions token = some session →
    session.active.Kept (session.walk token)
  routes : ∀ i token range r, s.routes i = .responded token range r →
    s.Answered cfg i token range r

/-- No session is forgotten, changes its candidates or its stream, or forgets an attempt. -/
def Grows (s s' : Videos ι) : Prop :=
  ∀ token session, s.sessions token = some session → ∃ active,
    s'.sessions token = some { session with active } ∧
    (∀ a, session.active.value = some a →
      active.value = some a ∧ active.log = session.active.log) ∧
    session.active.log <+: active.log

variable {cfg : StreamConfig} {s s' : Videos ι} {i : ι} {token : String} {range : Option String}
  {r : Response}

theorem Grows.refl (s : Videos ι) : s.Grows s :=
  fun _ session h => ⟨session.active, h, fun _ ha => ⟨ha, rfl⟩, List.prefix_rfl⟩

theorem Grows.trans {s'' : Videos ι} (h : s.Grows s') (h' : s'.Grows s'') : s.Grows s'' := by
  intro token session hs
  obtain ⟨active, hs1, hv1, hl1⟩ := h token session hs
  obtain ⟨active', hs2, hv2, hl2⟩ := h' token _ hs1
  refine ⟨active', hs2, fun a ha => ?_, hl1.trans hl2⟩
  obtain ⟨ha1, he1⟩ := hv1 a ha
  obtain ⟨ha2, he2⟩ := hv2 a ha1
  exact ⟨ha2, he2.trans he1⟩

theorem Answered.grows (h : s.Answered cfg i token range r) (hg : s.Grows s') :
    s'.Answered cfg i token range r := by
  cases h with
  | unknown => exact .unknown
  | serverless => exact .serverless
  | refused hs hlog hend hr =>
    obtain ⟨active, hs', -, hl⟩ := hg _ _ hs
    exact .refused hs' (hlog.trans hl) hend hr
  | served hs ha =>
    obtain ⟨active, hs', hv, -⟩ := hg _ _ hs
    exact .served hs' (hv _ ha).1

variable [DecidableEq ι]

/-- What a step does: requests move, a session is registered, or a cell takes a step. -/
inductive Effect (cfg : StreamConfig) (s : Videos ι) : Videos ι → Prop where
  | moved (registry : List String) (routes : ι → Route) :
      (∀ i token range r, routes i = .responded token range r →
        s.routes i = .responded token range r ∨ s.Answered cfg i token range r) →
      Effect cfg s { s with registry, routes }
  | registered (token : String) (candidates : List NzbCandidate) : s.sessions token = none →
      Effect cfg s
        { s.setSession token ⟨candidates, 0, .empty⟩ with registry := token :: s.registry }
  | stepped (token : String) (session : GroupSession ι) (a : OnceCell.Act ι Net)
      (active : OnceCell ι Net Walk PreflightError ActiveStream) (routes : ι → Route) :
      s.sessions token = some session →
      session.active.step (session.walk token) a = some active →
      (∀ i token range r, routes i = .responded token range r →
        s.routes i = .responded token range r) →
      Effect cfg s { s.setSession token { session with active } with routes }

/-- The response of a request that moves is justified where its new one is. -/
theorem responded_update {i : ι} {route : Route} {P : ι → String → Option String → Response → Prop}
    (h : ∀ token range r, route = .responded token range r → P i token range r) :
    ∀ j token range r, Function.update s.routes i route j = .responded token range r →
      s.routes j = .responded token range r ∨ P j token range r := by
  intro j token range r hj
  by_cases hji : j = i
  · subst hji
    rw [Function.update_self] at hj
    exact .inr (h token range r hj)
  · rw [Function.update_of_ne hji] at hj
    exact .inl hj

theorem goto_effect {route : Route} (h : ∀ token range r, route = .responded token range r →
    s.Answered cfg i token range r) : Effect cfg s (s.goto i route) :=
  .moved s.registry _ (responded_update h)

/-- A step at a cell, by a request that comes to no response by it. -/
theorem atCell_effect (route : Route) {a : OnceCell.Act ι Net} {t : Videos ι}
    (h : t.atCell i a = some s') (hsessions : t.sessions = s.sessions)
    (hregistry : t.registry = s.registry)
    (hroutes : ∀ i token range r, t.routes i = .responded token range r →
      s.routes i = .responded token range r)
    (hroute : ∀ token range r, route ≠ .responded token range r) :
    Effect cfg s s' ∧ Effect cfg s (s'.goto i route) := by
  unfold atCell at h
  split at h
  · next token range hi =>
    obtain ⟨session, hs, h⟩ := Option.bind_eq_some_iff.mp h
    obtain ⟨active, ha, rfl⟩ := Option.map_eq_some_iff.mp h
    rw [hsessions] at hs
    have hlift : ∀ routes, (∀ i token range r, routes i = .responded token range r →
        s.routes i = .responded token range r) →
        Effect cfg s { t.setSession token { session with active } with routes } := by
      intro routes hr
      have hstep : Effect cfg s { s.setSession token { session with active } with routes } :=
        .stepped token session a active routes hs ha hr
      unfold setSession at hstep ⊢
      rwa [hsessions, hregistry]
    refine ⟨hlift t.routes hroutes, hlift _ fun j token range r hj => ?_⟩
    rcases eq_of_update hj with hj | hj
    · exact absurd hj (hroute _ _ _)
    · exact hroutes j token range r hj
  · cases h

omit [DecidableEq ι] in
/-- A response to what the preflight has come to. -/
theorem answered_of_outcome (hk : s.Kept cfg) {session : GroupSession ι}
    (hs : s.sessions token = some session)
    (h : outcome cfg token range (session.active.callers i) = some r) :
    s.Answered cfg i token range r := by
  have hfit := (hk.cells token session hs).callers i
  unfold outcome at h
  split at h
  · next active hc =>
    cases h
    rw [hc] at hfit
    exact .served hs hfit.2
  · next e hc =>
    cases h
    rw [hc] at hfit
    obtain ⟨-, nets, log, hlog, hend, hr⟩ := hfit
    exact .refused hs hlog hend hr
  · cases h

theorem step_effect {a : VideosAct ι} (hk : s.Kept cfg) (h : s.step cfg a = some s') :
    Effect cfg s s' := by
  cases a with
  | registerGroup token candidates =>
    obtain ⟨hn, h⟩ := Option.ite_none_right_eq_some.mp h
    cases h
    exact .registered token candidates hn
  | remove token =>
    cases h
    exact .moved _ s.routes fun i token range r hi => .inl hi
  | get i tokenWithExt range =>
    simp only [step] at h
    split at h
    · cases h
      refine goto_effect fun token range' r hr => ?_
      split at hr
      · cases hr
      · cases hr
        exact .unknown
    · cases h
  | readPool i servers =>
    simp only [step, readPool] at h
    split at h
    · next token range hi =>
      split at h
      · refine (atCell_effect (s := s) .gone h rfl rfl (fun j token range r hj => ?_)
          fun _ _ _ => Route.noConfusion).1
        rcases eq_of_update hj with hj | hj
        · cases hj
        · exact hj
      · cases h
        refine goto_effect fun token range' r hr => ?_
        cases hr
        exact .serverless
    · cases h
  | enter i =>
    exact (atCell_effect .gone h rfl rfl (fun _ _ _ _ hj => hj)
      fun _ _ _ => Route.noConfusion).1
  | probe i net =>
    exact (atCell_effect .gone h rfl rfl (fun _ _ _ _ hj => hj)
      fun _ _ _ => Route.noConfusion).1
  | respond i =>
    simp only [step, respond] at h
    split at h
    · next token range hi =>
      obtain ⟨session, hs, h⟩ := Option.bind_eq_some_iff.mp h
      obtain ⟨r, hr, rfl⟩ := Option.map_eq_some_iff.mp h
      refine goto_effect fun token' range' r' hr' => ?_
      cases hr'
      exact answered_of_outcome hk hs hr
    · cases h
  | close i =>
    simp only [step, close] at h
    split at h
    · cases h
      cases hc : s.atCell i (.cancel i) with
      | none => exact goto_effect fun _ _ _ => Route.noConfusion
      | some t =>
        exact (atCell_effect .gone hc rfl rfl (fun _ _ _ _ hj => hj)
          fun _ _ _ => Route.noConfusion).2
    · cases h
      exact goto_effect fun _ _ _ => Route.noConfusion
    · cases h
      exact goto_effect fun _ _ _ => Route.noConfusion
    · cases h

omit [DecidableEq ι] in
theorem kept_init : (init : Videos ι).Kept cfg where
  cells _ _ h := by cases h
  routes _ _ _ _ h := by cases h

theorem Effect.grows (he : Effect cfg s s') (hk : s.Kept cfg) : s.Grows s' := by
  cases he with
  | moved registry routes _ => exact Grows.refl s
  | registered token candidates hn =>
    intro token' session hs
    have hne : token' ≠ token := fun he => by rw [he, hn] at hs; cases hs
    refine ⟨session.active, ?_, fun _ ha => ⟨ha, rfl⟩, List.prefix_rfl⟩
    show Function.update s.sessions token _ token' = _
    rw [Function.update_of_ne hne, hs]
  | stepped token session a active routes hs ha _ =>
    intro token' session' hs'
    by_cases hne : token' = token
    · subst hne
      rw [hs] at hs'
      cases hs'
      refine ⟨active, Function.update_self .., fun v hv => ?_,
        (OnceCell.step_effect ha).log_initial⟩
      exact (hk.cells token' session hs).stays ha hv
    · refine ⟨session'.active, ?_, fun _ ha => ⟨ha, rfl⟩, List.prefix_rfl⟩
      show Function.update s.sessions token _ token' = _
      rw [Function.update_of_ne hne, hs']

omit [DecidableEq ι] in
/-- A session changes, and its cell with it. -/
theorem Kept.update (hk : s.Kept cfg) {session : GroupSession ι}
    (hc : session.active.Kept (session.walk token)) :
    ∀ token' session', Function.update s.sessions token (some session) token' = some session' →
      session'.active.Kept (session'.walk token') := by
  intro token' session' hs
  by_cases hne : token' = token
  · subst hne
    rw [Function.update_self] at hs
    cases hs
    exact hc
  · rw [Function.update_of_ne hne] at hs
    exact hk.cells token' session' hs

theorem Effect.kept (he : Effect cfg s s') (hk : s.Kept cfg) : s'.Kept cfg := by
  have hg := he.grows hk
  have hstays : ∀ {i token range r}, s.routes i = .responded token range r →
      s'.Answered cfg i token range r := fun hi => (hk.routes _ _ _ _ hi).grows hg
  cases he with
  | moved registry routes hr =>
    refine ⟨hk.cells, fun i token range r hi => ?_⟩
    exact (hr i token range r hi).elim hstays fun ha => ha.grows hg
  | registered token candidates hn =>
    exact ⟨hk.update OnceCell.kept_empty, fun i token range r hi => hstays hi⟩
  | stepped token session a active routes hs ha hr =>
    exact ⟨hk.update ((hk.cells token session hs).step ha),
      fun i token range r hi => hstays (hr i token range r hi)⟩

abbrev Reaches (cfg : StreamConfig) : Videos ι → Videos ι → Prop :=
  Lib.Reaches (step cfg) fun _ _ => True

theorem kept_reaches (h : Reaches cfg init s) : s.Kept cfg :=
  h.inv kept_init fun _ _ _ hk _ hs => (step_effect hk hs).kept hk

theorem grows_reaches (hk : s.Kept cfg) (h : Reaches cfg s s') : s.Grows s' := by
  have hboth : s'.Kept cfg ∧ s.Grows s' :=
    h.inv (I := fun t => t.Kept cfg ∧ s.Grows t) ⟨hk, Grows.refl s⟩ fun t _ u ht _ hs =>
      ⟨(step_effect ht.1 hs).kept ht.1, ht.2.trans ((step_effect ht.1 hs).grows ht.1)⟩
  exact hboth.2

end Videos

/-! ## Two uploads -/

def upload (nzbUrl : String) : NzbCandidate :=
  ⟨nzbUrl, ⟨"", none, none⟩, ⟨none, none, none, none, none⟩⟩

/-- A net on which the cache file cannot be opened. -/
def fullDisk : Net := { onePost 10 4 with openFile := fun _ => .error "no space left" }

def noReadAhead : StreamConfig := ⟨0, none⟩

/-- A session of two uploads and two requests for it; the preflight of the first upload fails. -/
def firstFails : List (VideosAct Nat) :=
  [.registerGroup "t" [upload "a", upload "b"], .get 0 "t.mkv" none,
    .get 1 "t.mp4" (some "bytes=2-"), .readPool 0 true, .readPool 1 true, .enter 0,
    .probe 0 fullDisk]

/-- The second upload is committed, and both requests are answered. -/
def secondCommitted : List (VideosAct Nat) :=
  firstFails ++ [.probe 0 (onePost 10 4), .enter 1, .respond 0, .respond 1]

theorem exists_videos (acts : List (VideosAct Nat)) (p : Videos Nat → Bool)
    (h : (exec (Videos.step noReadAhead) (fun _ _ => true) .init acts).any p = true) :
    ∃ s, Videos.Reaches noReadAhead .init s ∧ p s = true :=
  exists_of_exec_free (Videos.step noReadAhead) .init acts p h

/-- The response has the status. -/
def Route.answers (status : Nat) : Route → Bool
  | .responded "t" _ r => r.status = status
  | _ => false

theorem Route.responded_of_answers {status : Nat} {route : Route}
    (h : route.answers status = true) :
    ∃ range r, route = .responded "t" range r ∧ r.status = status := by
  unfold answers at h
  split at h
  · next range r => exact ⟨range, r, rfl, of_decide_eq_true h⟩
  · cases h

/-! ## The first candidate that succeeds -/

namespace GroupSession
variable {ι : Type} (session : GroupSession ι) (token : String)

abbrev Fails : List Net → Option PreflightError → Prop :=
  Addon.Fails session.candidates session.startIdx token

abbrev Succeeds : List Net → ActiveStream → Prop :=
  Addon.Succeeds session.candidates session.startIdx token

abbrev Futile : List (ι × Net) → Prop :=
  Addon.Futile session.candidates session.startIdx token

/-- One request at a time is in a preflight. The attempts before the first success are failures
in the order of the candidates; a success commits the session, and ends all preflights. -/
structure CommitsFirst : Prop where
  single : ∀ i j p q, session.active.callers i = .working p →
    session.active.callers j = .working q → i = j
  futile : session.active.value = none → session.Futile token session.active.log
  committed : ∀ active, session.active.value = some active →
    (∀ i p, session.active.callers i ≠ .working p) ∧
    ∃ old i nets, session.active.log = old ++ nets.map (i, ·) ∧ session.Futile token old ∧
      session.Succeeds token nets active

variable {session : GroupSession ι} {token : String}

theorem commitsFirst_of_kept (h : session.active.Kept (session.walk token)) :
    session.CommitsFirst token where
  single _ _ _ _ hi hj := h.single hi hj
  futile hv := by
    cases hh : session.active.holder with
    | none => exact futile_of_fruitless (h.idle hv hh)
    | some i =>
      -- the turn under way has failed so far
      obtain ⟨p, hp⟩ := h.holder_iff.mp hh
      have hfit := h.callers i
      rw [hp] at hfit
      obtain ⟨-, hr, nets, ⟨old, hlog, hold, hopen⟩, rfl⟩ := hfit
      rw [hlog]
      refine futile_of_fruitless (hold.turn hopen fun active hok => ?_)
      rw [hr] at hok
      cases hok
  committed active hv := by
    obtain ⟨i, nets, ⟨old, hlog, hold, hopen⟩, hr⟩ := h.full active hv
    exact ⟨fun _ _ => h.no_work hv, old, i, nets, hlog, futile_of_fruitless hold,
      succeeds_of_result hopen hr⟩

end GroupSession

section
variable {ι : Type} [DecidableEq ι] {cfg : StreamConfig} {s s' : Videos ι} {i j : ι}
  {token : String} {range range' : Option String} {r r' : Response}

/-- **A session commits to the stream of the first attempt that succeeds**, and once it has, no
request is in a preflight for it and none will be, and the stream stays what it is. -/
theorem committed_first (h : Videos.Reaches cfg .init s) :
    ∀ token session, s.sessions token = some session → session.CommitsFirst token ∧
      ∀ active, session.active.value = some active → ∀ s', Videos.Reaches cfg s s' →
        ∃ cell, s'.sessions token = some { session with active := cell } ∧
          cell.value = some active ∧ cell.log = session.active.log := by
  intro token session hs
  have hk := Videos.kept_reaches h
  refine ⟨GroupSession.commitsFirst_of_kept (hk.cells token session hs), fun active hv s' h' => ?_⟩
  obtain ⟨cell, hs', hstays, -⟩ := Videos.grows_reaches hk h' token session hs
  exact ⟨cell, hs', hstays active hv⟩

theorem committed_first_second_upload :
    ∃ (s : Videos Nat) (session : _) (active : _), Videos.Reaches noReadAhead .init s ∧
      s.sessions "t" = some session ∧ session.active.value = some active ∧
      active.candidateIdx = 1 ∧ session.CommitsFirst "t" ∧
      ∀ s', Videos.Reaches noReadAhead s s' →
        ∃ cell, s'.sessions "t" = some { session with active := cell } ∧
          cell.value = some active ∧ cell.log = session.active.log := by
  obtain ⟨s, h, hp⟩ := exists_videos secondCommitted
    (fun s => (s.sessions "t").any fun session =>
      session.active.value.any fun active => active.candidateIdx = 1) rfl
  obtain ⟨session, hs, hp⟩ := (Option.any_eq_true _ _).mp hp
  obtain ⟨active, hv, hidx⟩ := (Option.any_eq_true _ _).mp hp
  obtain ⟨hfirst, hstays⟩ := committed_first h "t" session hs
  exact ⟨s, session, active, h, hs, hv, of_decide_eq_true hidx, hfirst, hstays active hv⟩

/-! ## What the responses announce -/

/-- The response to a request with `range` as its header is the one that `parseRange` makes of that
header, and the bytes it streams are those that its headers announce. -/
inductive Response.Announces (cfg : StreamConfig) (range : Option String) (active : ActiveStream) :
    Response → Prop where
  | full (r : Response) : range = none → r.status = 200 → r.contentRange = none →
      r.contentLength = some (max active.totalSize 1) →
      r.body = .stream active
        ⟨0, active.totalSize - 1, cfg.readAheadSegments, cfg.evictPolicy⟩ →
      Announces cfg range active r
  | part (r : Response) (start stop : Nat) :
      parseRange range active.totalSize = .ok (.partialRange start stop) →
      start ≤ stop → stop < active.totalSize →
      r.status = 206 → r.contentRange = some (contentRangeHeader start stop active.totalSize) →
      r.contentLength = some (stop - start + 1) →
      r.body = .stream active ⟨start, stop, cfg.readAheadSegments, cfg.evictPolicy⟩ →
      Announces cfg range active r
  | unsatisfiable (r : Response) : parseRange range active.totalSize = .error .notSatisfiable →
      r.status = 416 → r.contentRange = some (contentRangeUnsatisfied active.totalSize) →
      r.contentLength = none → Announces cfg range active r
  | bad (r : Response) (e : RangeError) : parseRange range active.totalSize = .error e →
      e ≠ .notSatisfiable → r = .ofText 400 s!"range error: {e.display}" →
      Announces cfg range active r

theorem RangeSpec.answer_ok (spec : RangeSpec) {total : Nat} {parsed : ParsedRange}
    (htotal : 0 < total) (h : spec.answer total = .ok parsed) :
    ∃ start stop, parsed = .partialRange start stop ∧ start ≤ stop ∧ stop < total := by
  rcases answer_cases htotal spec with ⟨start, stop, heq, hle, hreq⟩ | ⟨heq, -⟩
  · rw [heq] at h
    cases h
    have hstop := (hreq stop).mp ⟨hle, Nat.le_refl stop⟩
    exact ⟨start, stop, rfl, hle, by cases spec <;> exact hstop.1⟩
  · rw [heq] at h
    cases h

theorem parseBounds_ok {a b : List Char} {total : Nat} {parsed : ParsedRange} (htotal : 0 < total)
    (h : parseBounds a b total = .ok parsed) :
    ∃ start stop, parsed = .partialRange start stop ∧ start ≤ stop ∧ stop < total := by
  by_cases ha : a = []
  · by_cases hb : b = []
    · rw [ha, hb] at h
      cases h
    · rw [ha, parseBounds_suffix hb] at h
      cases hn : parseU64 b with
      | none => rw [hn] at h; cases h
      | some n =>
        rw [hn] at h
        exact RangeSpec.answer_ok (.suffix n) htotal h
  · by_cases hb : b = []
    · rw [hb, parseBounds_onwards ha] at h
      cases hn : parseU64 a with
      | none => rw [hn] at h; cases h
      | some n =>
        rw [hn] at h
        exact RangeSpec.answer_ok (.onwards n) htotal h
    · rw [parseBounds_span ha hb] at h
      cases hn : parseU64 a with
      | none => rw [hn] at h; cases h
      | some n =>
        cases hm : parseU64 b with
        | none => rw [hn, hm] at h; cases h
        | some m =>
          rw [hn, hm] at h
          exact RangeSpec.answer_ok (.span n m) htotal h

/-- A header that is answered with bytes is answered with a part of them. -/
theorem parseRange_ok {header : String} {total : Nat} {parsed : ParsedRange}
    (h : parseRange (some header) total = .ok parsed) :
    ∃ start stop, parsed = .partialRange start stop ∧ start ≤ stop ∧ stop < total := by
  have hpos : 0 < total := by
    refine Nat.pos_of_ne_zero fun h0 => ?_
    simp only [parseRange, h0] at h
    obtain ⟨rest, -, h⟩ := Lib.bind_eq_ok.mp h
    split at h <;> cases h
  cases hp : pieces header.toList with
  | none =>
    by_cases hl : Lists header.toList
    · rw [parseRange_of_lists hl] at h
      cases h
    · rw [parseRange_of_none hpos hl hp] at h
      cases h
  | some p =>
    rw [parseRange_of_pieces hpos hp] at h
    exact parseBounds_ok hpos h

theorem StreamConfig.announces (cfg : StreamConfig) (token : String) (range : Option String)
    (active : ActiveStream) : (cfg.respond token range active).Announces cfg range active := by
  unfold StreamConfig.respond
  cases range with
  | none =>
    refine .full _ rfl rfl rfl ?_ rfl
    show contentLength 0 (active.totalSize - 1) = _
    rw [contentLength, if_pos (Nat.zero_le _)]
    congr 1
    omega
  | some header =>
    cases hp : parseRange (some header) active.totalSize with
    | error e =>
      cases e with
      | notSatisfiable => exact .unsatisfiable _ hp rfl rfl rfl
      | malformed | multiRange => exact .bad _ _ hp RangeError.noConfusion rfl
    | ok parsed =>
      obtain ⟨start, stop, rfl, hle, hlt⟩ := parseRange_ok hp
      exact .part _ start stop hp hle hlt rfl rfl (if_pos hle) rfl

theorem Response.Announces.status {active : ActiveStream} (h : r.Announces cfg range active) :
    r.status ∈ [200, 206, 400, 416] := by
  cases h with
  | full _ hs => rw [hs]; simp
  | part _ _ _ _ _ hs => rw [hs]; simp
  | unsatisfiable _ hs _ _ => rw [hs]; simp
  | bad _ _ _ hr => rw [hr]; simp [ofText]

/-- **A request is refused after a walk of its own over all the candidates**, each of which failed,
with the last error. -/
theorem refused_after_all (h : Videos.Reaches cfg .init s)
    (hi : s.routes i = .responded token range r) (hr : r.status = 502) :
    ∃ session nets lastErr, s.sessions token = some session ∧
      session.Fails token nets lastErr ∧
      nets.length = session.candidates.length - session.startIdx ∧
      nets.map (i, ·) <:+: session.active.log ∧
      r = .ofText 502
        s!"preflight failed: {(lastErr.getD PreflightError.noPlayableFile).display}" := by
  cases (Videos.kept_reaches h).routes i token range r hi with
  | unknown => cases hr
  | serverless => cases hr
  | @refused session log nets e hs hlog hend hres =>
    obtain ⟨old, rfl, -, hopen⟩ := hend
    obtain ⟨lastErr, hfails, hlen, rfl⟩ := exhausted_of_result hopen hres
    obtain ⟨new, hnew⟩ := hlog
    exact ⟨session, nets, lastErr, hs, hfails, hlen, ⟨old, new, hnew⟩, rfl⟩
  | @served session active hs ha =>
    have hstatus := (cfg.announces token range active).status
    rw [hr] at hstatus
    simp at hstatus

theorem refused_after_all_full_disk :
    ∃ (s : Videos Nat) (range : _) (r : _), Videos.Reaches noReadAhead .init s ∧
      s.routes 0 = .responded "t" range r ∧ r.status = 502 ∧
      ∃ session nets lastErr, s.sessions "t" = some session ∧ session.Fails "t" nets lastErr ∧
        nets.length = session.candidates.length - session.startIdx ∧
        nets.map (0, ·) <:+: session.active.log ∧
        r = .ofText 502
          s!"preflight failed: {(lastErr.getD PreflightError.noPlayableFile).display}" := by
  obtain ⟨s, h, hp⟩ := exists_videos (firstFails ++ [.probe 0 fullDisk, .respond 0])
    (fun s => (s.routes 0).answers 502) rfl
  obtain ⟨range, r, hi, hr⟩ := Route.responded_of_answers hp
  exact ⟨s, range, r, h, hi, hr, refused_after_all h hi hr⟩

/-- **The responses of a session agree**: those that were not refused, at any two moments of a
run, announce and stream the same committed stream. -/
theorem responses_agree (h : Videos.Reaches cfg .init s) (h' : Videos.Reaches cfg s s')
    (hi : s.routes i = .responded token range r) (hj : s'.routes j = .responded token range' r')
    (hr : r.status ∉ [404, 502, 503]) (hr' : r'.status ∉ [404, 502, 503]) :
    ∃ session active, s'.sessions token = some session ∧ session.active.value = some active ∧
      r.Announces cfg range active ∧ r'.Announces cfg range' active := by
  have hk := Videos.kept_reaches h
  have hi := (hk.routes i token range r hi).grows (Videos.grows_reaches hk h')
  have hk' : s'.Kept cfg := h'.inv hk fun _ _ _ hk _ hs => (Videos.step_effect hk hs).kept hk
  have hj := hk'.routes j token range' r' hj
  cases hi with
  | unknown | serverless | refused => simp [Response.ofText] at hr
  | @served session active hs ha =>
    cases hj with
    | unknown | serverless | refused => simp [Response.ofText] at hr'
    | @served session' active' hs' ha' =>
      rw [hs] at hs'
      cases hs'
      rw [ha] at ha'
      cases ha'
      exact ⟨session, active, hs, ha, cfg.announces token range active,
        cfg.announces token range' active⟩

theorem responses_agree_whole_and_part :
    ∃ (s : Videos Nat) (range range' : _) (r r' : _), Videos.Reaches noReadAhead .init s ∧
      s.routes 0 = .responded "t" range r ∧ s.routes 1 = .responded "t" range' r' ∧
      r.status = 200 ∧ r'.status = 206 ∧
      ∃ session active, s.sessions "t" = some session ∧ session.active.value = some active ∧
        r.Announces noReadAhead range active ∧ r'.Announces noReadAhead range' active := by
  obtain ⟨s, h, hp⟩ := exists_videos secondCommitted
    (fun s => (s.routes 0).answers 200 && (s.routes 1).answers 206) rfl
  rw [Bool.and_eq_true] at hp
  obtain ⟨range, r, hi, hr⟩ := Route.responded_of_answers hp.1
  obtain ⟨range', r', hj, hr'⟩ := Route.responded_of_answers hp.2
  exact ⟨s, range, range', r, r', h, hi, hj, hr, hr',
    responses_agree h (.refl s) hi hj (by rw [hr]; decide) (by rw [hr']; decide)⟩

end

end StremioNzb.Addon

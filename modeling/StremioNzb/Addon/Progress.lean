import Mathlib.Data.Set.Card
import StremioNzb.Addon.Committed

/-!
# The preflight comes to an end

Of the requests in the preflight of a session one can always take its next step, whatever the
network answers to it, and each takes at most two steps more than there are candidates, whatever
the others do meanwhile (`preflight_ends`). Where they all go on, they are all answered
(`all_answered`).
-/

namespace StremioNzb.Addon

open StremioNzb.Lib StremioNzb.Streaming

/-! ## What is left of a walk -/

/-- The candidates that a walk has still before it. -/
def Walk.rank (candidates : List NzbCandidate) (w : Walk) : Nat :=
  if w.committed.isSome then 0 else candidates.length - w.idx

theorem walk_ranked (candidates : List NzbCandidate) (startIdx : Nat) (token : String) :
    (walk candidates startIdx token).Ranked (Walk.rank candidates) := by
  intro w net hr
  simp only [walk] at hr
  split at hr
  · cases hr
  · next hnone =>
    split at hr
    · next hlt =>
      obtain ⟨candidate, hc⟩ : ∃ candidate, candidates[w.idx]? = some candidate :=
        ⟨_, List.getElem?_eq_getElem hlt⟩
      simp only [walk, hc]
      cases net.probeCandidateInner candidate.nzbUrl token with
      | ok active =>
        simp [Walk.rank, hnone]
        omega
      | error e =>
        simp [Walk.rank, hnone]
        omega
    · cases hr

/-! ## Who moves -/

namespace VideosAct
variable {ι : Type}

/-- The request whose step it is. -/
def request : VideosAct ι → Option ι
  | .registerGroup _ _ | .remove _ => none
  | .get i _ _ | .readPool i _ | .enter i | .probe i _ | .respond i | .close i => some i

/-- It is a step of the request in a preflight. -/
def preflightOf [DecidableEq ι] (i : ι) : VideosAct ι → Bool
  | .enter j | .probe j _ | .respond j => j = i
  | _ => false

end VideosAct

namespace Videos
variable {ι : Type}

/-- Where the request stands at the cell of a session. -/
def caller (s : Videos ι) (token : String) (i : ι) : Caller Walk PreflightError ActiveStream :=
  match s.sessions token with
  | some session => session.active.callers i
  | none => .away

variable [DecidableEq ι] {cfg : StreamConfig} {s s' : Videos ι} {i j : ι} {token : String}
  {range : Option String} {session : GroupSession ι}

/-- The request can take its next step, whatever the network answers. -/
def Ready (cfg : StreamConfig) (s : Videos ι) (i : ι) : Prop :=
  (s.step cfg (.enter i)).isSome ∨ (∀ net, (s.step cfg (.probe i net)).isSome) ∨
    (s.step cfg (.respond i)).isSome

omit [DecidableEq ι] in
theorem caller_eq (hs : s.sessions token = some session) :
    s.caller token i = session.active.callers i := by
  simp only [caller, hs]

omit [DecidableEq ι] in
theorem caller_setSession {active : OnceCell ι Net Walk PreflightError ActiveStream} {u : String} :
    (s.setSession token { session with active }).caller u j =
      if u = token then active.callers j else s.caller u j := by
  unfold caller setSession
  by_cases hu : u = token
  · subst hu
    simp
  · simp [hu]

/-- A step at a cell leaves the others where they are. -/
theorem atCell_others {a : OnceCell.Act ι Net} (h : s.atCell i a = some s') (ha : a.caller = i)
    (hj : j ≠ i) : s'.routes j = s.routes j ∧ ∀ u, s'.caller u j = s.caller u j := by
  obtain ⟨token, range, session, active, hi, hs, hstep, rfl⟩ := atCell_eq_some h
  refine ⟨rfl, fun u => ?_⟩
  rw [caller_setSession]
  split
  · next hu =>
    rw [hu, caller_eq hs]
    exact OnceCell.step_callers hstep (ha ▸ hj)
  · rfl

theorem goto_others {r : Route} (hj : j ≠ i) :
    (s.goto i r).routes j = s.routes j ∧ ∀ u, (s.goto i r).caller u j = s.caller u j :=
  ⟨Function.update_of_ne hj _ _, fun _ => rfl⟩

/-- **A step moves one request at most.** -/
theorem step_others {a : VideosAct ι} (h : s.step cfg a = some s') (hj : a.request ≠ some j) :
    s'.routes j = s.routes j ∧ ∀ u, s'.caller u j = s.caller u j := by
  have hne : ∀ i, a.request = some i → j ≠ i := by
    intro i hi hji
    rw [hi, hji] at hj
    exact hj rfl
  cases a with
  | registerGroup token candidates =>
    obtain ⟨hn, h⟩ := Option.ite_none_right_eq_some.mp h
    cases h
    refine ⟨rfl, fun u => ?_⟩
    show (s.setSession token { (⟨candidates, 0, .empty⟩ : GroupSession ι) with
      active := .empty }).caller u j = _
    rw [caller_setSession]
    split
    · next hu =>
      rw [hu, caller, hn]
      rfl
    · rfl
  | remove token =>
    cases h
    exact ⟨rfl, fun _ => rfl⟩
  | get i tokenWithExt range =>
    simp only [step] at h
    split at h
    · cases h
      exact goto_others (hne i rfl)
    · cases h
  | readPool i servers =>
    simp only [step, readPool] at h
    split at h
    · next token range hi =>
      split at h
      · obtain ⟨hr, hc⟩ := atCell_others h rfl (hne i rfl)
        obtain ⟨hr', hc'⟩ := goto_others (s := s) (r := .calling token range) (hne i rfl)
        exact ⟨hr.trans hr', fun u => (hc u).trans (hc' u)⟩
      · cases h
        exact goto_others (hne i rfl)
    · cases h
  | enter i => exact atCell_others h rfl (hne i rfl)
  | probe i net => exact atCell_others h rfl (hne i rfl)
  | respond i =>
    simp only [step, respond] at h
    split at h
    · obtain ⟨session, -, h⟩ := Option.bind_eq_some_iff.mp h
      obtain ⟨r, -, rfl⟩ := Option.map_eq_some_iff.mp h
      exact goto_others (hne i rfl)
    · cases h
  | close i =>
    simp only [step, close] at h
    split at h
    · cases h
      cases hc : s.atCell i (.cancel i) with
      | none => exact goto_others (hne i rfl)
      | some t =>
        obtain ⟨hr, hcell⟩ := atCell_others hc rfl (hne i rfl)
        obtain ⟨hr', hcell'⟩ := goto_others (s := t) (r := .gone) (hne i rfl)
        exact ⟨hr'.trans hr, fun u => (hcell' u).trans (hcell u)⟩
    · cases h
      exact goto_others (hne i rfl)
    · cases h
      exact goto_others (hne i rfl)
    · cases h

/-! ## What a request does by its step -/

end Videos

/-- How far a request is. -/
def Route.stage : Route → Nat
  | .coming => 0
  | .found _ _ => 1
  | .calling _ _ => 2
  | .responded _ _ _ => 3
  | .gone => 4

namespace Videos
variable {ι : Type} [DecidableEq ι] {cfg : StreamConfig} {s s' : Videos ι} {i j : ι}
  {token : String} {range : Option String} {session : GroupSession ι}

/-- What a request does by a step of its own, in a preflight (`true`) or outside. -/
inductive Moves (cfg : StreamConfig) (s s' : Videos ι) (i : ι) : Bool → Prop where
  | outside : (∀ token range, s.routes i ≠ .calling token range) →
      (∀ token range, s'.routes i ≠ .calling token range) →
      (s.routes i).stage < (s'.routes i).stage → (∀ u, s'.caller u i = s.caller u i) →
      Moves cfg s s' i false
  | called (token : String) (range : Option String) : s.routes i = .found token range →
      s'.routes i = .calling token range →
      (∀ u, s'.caller u i = if u = token then .waiting else s.caller u i) →
      Moves cfg s s' i false
  | worked (token : String) (range : Option String) (session : GroupSession ι)
      (x : Caller Walk PreflightError ActiveStream) : s.routes i = .calling token range →
      s'.routes i = .calling token range → s.sessions token = some session → x.Inside →
      x.ahead (session.walk token) (Walk.rank session.candidates) <
        (s.caller token i).ahead (session.walk token) (Walk.rank session.candidates) →
      (∀ u, s'.caller u i = if u = token then x else s.caller u i) → Moves cfg s s' i true
  | answered (token : String) (range : Option String) (r : Response) :
      s.routes i = .calling token range → s'.routes i = .responded token range r →
      outcome cfg token range (s.caller token i) = some r →
      (∀ u, s'.caller u i = s.caller u i) → Moves cfg s s' i true
  | left (token : String) (range : Option String) (x : Caller Walk PreflightError ActiveStream) :
      s.routes i = .calling token range → s'.routes i = .gone → (∀ p, x ≠ .working p) →
      (∀ u, s'.caller u i = if u = token then x else s.caller u i) → Moves cfg s s' i false

/-- A request goes on from one place outside the preflight to another. -/
theorem goto_moves {r : Route} (h : ∀ token range, s.routes i ≠ .calling token range)
    (hr : ∀ token range, r ≠ .calling token range) (hlt : (s.routes i).stage < r.stage) :
    Moves cfg s (s.goto i r) i false := by
  have hi : (s.goto i r).routes i = r := Function.update_self ..
  refine .outside h ?_ ?_ fun _ => rfl
  · rwa [hi]
  · rwa [hi]

/-- A step at the cell by a request in it. -/
theorem atCell_moves {a : OnceCell.Act ι Net} (hk : s.Kept cfg) (h : s.atCell i a = some s')
    (ha : a.caller = i) (hcancel : ∀ i, a ≠ .cancel i) : Moves cfg s s' i true := by
  obtain ⟨token, range, session, active, hi, hs, hstep, rfl⟩ := atCell_eq_some h
  subst ha
  refine .worked token range session (active.callers a.caller) hi hi hs
    (OnceCell.step_inside hstep hcancel) ?_ fun u => caller_setSession
  rw [caller_eq hs]
  exact (hk.cells token session hs).step_ahead (walk_ranked _ _ _) hstep

/-- A request calls, and waits at the cell, or has its response. -/
theorem readPool_moves {servers : Bool} (h : s.readPool i servers = some s') :
    Moves cfg s s' i false := by
  simp only [readPool] at h
  split at h
  · next token range hi =>
    split at h
    · obtain ⟨token', range', session, active, hi', hs, hstep, rfl⟩ := atCell_eq_some h
      have hroute : Route.calling token range = .calling token' range' :=
        (Function.update_self ..).symm.trans hi'
      cases hroute
      refine .called token range hi hi' fun u => ?_
      rw [caller_setSession]
      simp only [OnceCell.step] at hstep
      split at hstep
      · cases hstep
        simp only [OnceCell.move, Function.update_self]
        rfl
      · cases hstep
    · cases h
      exact goto_moves (by simp [hi]) (by simp) (by simp [hi, Route.stage])
  · cases h

theorem respond_moves (h : s.respond cfg i = some s') : Moves cfg s s' i true := by
  simp only [respond] at h
  split at h
  · next token range hi =>
    obtain ⟨session, hs, h⟩ := Option.bind_eq_some_iff.mp h
    obtain ⟨r, hr, rfl⟩ := Option.map_eq_some_iff.mp h
    rw [← caller_eq hs] at hr
    exact .answered token range r hi (Function.update_self ..) hr fun _ => rfl
  · cases h

/-- A client that goes leaves no one at work in its place. -/
theorem close_moves (h : s.close i = some s') : Moves cfg s s' i false := by
  simp only [close] at h
  split at h
  · next token range hi =>
    cases h
    cases hc : s.atCell i (.cancel i) with
    | none =>
      refine .left token range (s.caller token i) hi (Function.update_self ..) (fun p hp => ?_)
        fun u => ?_
      · unfold caller at hp
        split at hp
        · next session hs =>
          simp only [atCell, hi, hs, Option.bind_some, Option.map_eq_none_iff] at hc
          exact OnceCell.not_working_of_cancel hc hp
        · cases hp
      · split
        · next hu =>
          rw [hu]
          rfl
        · rfl
    | some t =>
      obtain ⟨token', range', session, active, hi', hs, hstep, rfl⟩ := atCell_eq_some hc
      rw [hi] at hi'
      cases hi'
      refine .left token range .gone hi (Function.update_self ..) (by simp) fun u => ?_
      rw [← OnceCell.step_cancel hstep]
      exact caller_setSession
  · next hi =>
    cases h
    exact goto_moves (by simp [hi]) (by simp) (by simp [hi, Route.stage])
  · next hi =>
    cases h
    exact goto_moves (by simp [hi]) (by simp) (by simp [hi, Route.stage])
  · cases h

theorem step_moves {a : VideosAct ι} (hk : s.Kept cfg) (h : s.step cfg a = some s')
    (ha : a.request = some i) : Moves cfg s s' i (a.preflightOf i) := by
  cases a with
  | registerGroup token candidates => cases ha
  | remove token => cases ha
  | get j tokenWithExt range =>
    cases ha
    simp only [step] at h
    split at h
    · next hi =>
      cases h
      refine goto_moves (by simp [hi]) (fun token range => ?_) ?_
      · split <;> simp
      · rw [hi]
        split <;> simp [Route.stage]
    · cases h
  | readPool j servers =>
    cases ha
    exact readPool_moves h
  | enter j =>
    cases ha
    have hmoves := atCell_moves hk h rfl (by simp)
    simpa [VideosAct.preflightOf] using hmoves
  | probe j net =>
    cases ha
    have hmoves := atCell_moves hk h rfl (by simp)
    simpa [VideosAct.preflightOf] using hmoves
  | respond j =>
    cases ha
    simpa [VideosAct.preflightOf] using respond_moves h
  | close j =>
    cases ha
    exact close_moves h

/-! ## Who is in a preflight is at its cell -/

structure Present (s : Videos ι) : Prop where
  inside : ∀ i token range, s.routes i = .calling token range → (s.caller token i).Inside
  calling : ∀ i token p, s.caller token i = .working p → ∃ range, s.routes i = .calling token range

omit [DecidableEq ι] in
theorem present_init : (init : Videos ι).Present where
  inside _ _ _ h := by cases h
  calling _ _ _ h := by cases h

omit [DecidableEq ι] in
/-- One that works at a cell is in no other preflight. -/
theorem Present.not_working (h : s.Present) (hi : ∀ range, s.routes i ≠ .calling token range)
    (p : Walk) : s.caller token i ≠ .working p := by
  intro hp
  obtain ⟨range, hr⟩ := h.calling i token p hp
  exact hi range hr

omit [DecidableEq ι] in
theorem Moves.present {b : Bool} (h : s.Present) (hm : Moves cfg s s' i b) :
    (∀ token range, s'.routes i = .calling token range → (s'.caller token i).Inside) ∧
      ∀ token p, s'.caller token i = .working p → ∃ range, s'.routes i = .calling token range := by
  cases hm with
  | outside hi hi' _ hsame =>
    refine ⟨fun token range hr => absurd hr (hi' token range), fun token p hp => ?_⟩
    rw [hsame] at hp
    exact absurd hp (h.not_working (hi token) p)
  | called token range hi hi' hsame =>
    refine ⟨fun token' range' hr => ?_, fun token' p hp => ?_⟩
    · rw [hi'] at hr
      cases hr
      rw [hsame, if_pos rfl]
      trivial
    · rw [hsame] at hp
      split at hp
      · cases hp
      · exact absurd hp (h.not_working (by simp [hi]) p)
  | worked token range session x hi hi' _ hx _ hsame =>
    refine ⟨fun token' range' hr => ?_, fun token' p hp => ?_⟩
    · rw [hi'] at hr
      cases hr
      rwa [hsame, if_pos rfl]
    · rw [hsame] at hp
      split at hp
      · next hu => exact ⟨range, hu ▸ hi'⟩
      · next hu => exact absurd hp (h.not_working (by simp [hi, Ne.symm hu]) p)
  | answered token range r hi hi' hr hsame =>
    refine ⟨fun token' range' hr => ?_, fun token' p hp => ?_⟩
    · rw [hi'] at hr
      cases hr
    · rw [hsame] at hp
      obtain ⟨range', hi''⟩ := h.calling i token' p hp
      rw [hi] at hi''
      cases hi''
      rw [hp] at hr
      cases hr
  | left token range x hi hi' hx hsame =>
    refine ⟨fun token' range' hr => ?_, fun token' p hp => ?_⟩
    · rw [hi'] at hr
      cases hr
    · rw [hsame] at hp
      split at hp
      · exact absurd hp (hx p)
      · next hu => exact absurd hp (h.not_working (by simp [hi, Ne.symm hu]) p)

theorem Present.step {a : VideosAct ι} (h : s.Present) (hk : s.Kept cfg)
    (hs : s.step cfg a = some s') : s'.Present := by
  have hown : ∀ i, (∀ token range, s'.routes i = .calling token range →
      (s'.caller token i).Inside) ∧
      ∀ token p, s'.caller token i = .working p → ∃ range, s'.routes i = .calling token range := by
    intro i
    by_cases ha : a.request = some i
    · exact (step_moves hk hs ha).present h
    · obtain ⟨hr, hc⟩ := step_others hs ha
      simp only [hr, hc]
      exact ⟨h.inside i, h.calling i⟩
  exact ⟨fun i => (hown i).1, fun i => (hown i).2⟩

theorem present_reaches (h : Reaches cfg init s) : s.Kept cfg ∧ s.Present :=
  h.inv (I := fun s => s.Kept cfg ∧ s.Present) ⟨kept_init, present_init⟩ fun _ _ _ ht _ hs =>
    ⟨(step_effect ht.1 hs).kept ht.1, ht.2.step ht.1 hs⟩

/-! ## The next step -/

theorem atCell_isSome {a : OnceCell.Act ι Net} (hi : s.routes i = .calling token range)
    (hs : s.sessions token = some session)
    (ha : (session.active.step (session.walk token) a).isSome) : (s.atCell i a).isSome := by
  simpa [atCell, hi, hs] using ha

omit [DecidableEq ι] in
theorem exists_session (hi : (s.caller token i).Inside) :
    ∃ session, s.sessions token = some session := by
  unfold caller at hi
  split at hi
  · next session hs => exact ⟨session, hs⟩
  · cases hi

/-- **One of those in a preflight can take its next step.** -/
theorem exists_ready (hk : s.Kept cfg) (hp : s.Present) (hi : s.routes i = .calling token range) :
    ∃ j range', s.routes j = .calling token range' ∧ s.Ready cfg j := by
  have hin := hp.inside i token range hi
  obtain ⟨session, hs⟩ := exists_session hin
  have hcell := hk.cells token session hs
  rw [caller_eq hs] at hin
  -- the one at work probes its next candidate
  have hworking : ∀ j p, session.active.callers j = .working p →
      ∃ j range', s.routes j = .calling token range' ∧ s.Ready cfg j := by
    intro j p hj
    obtain ⟨range', hj'⟩ := hp.calling j token p ((caller_eq hs).trans hj)
    exact ⟨j, range', hj', .inr (.inl fun net => atCell_isSome hj' hs (OnceCell.work_isSome hj))⟩
  have hrespond : ∀ r, outcome cfg token range (session.active.callers i) = some r →
      s.Ready cfg i := by
    intro r hr
    refine .inr (.inr ?_)
    simp [step, respond, hi, hs, hr]
  cases hc : session.active.callers i with
  | away => simp [hc, Caller.Inside] at hin
  | gone => simp [hc, Caller.Inside] at hin
  | working p => exact hworking i p hc
  | got active => exact ⟨i, range, hi, hrespond _ (by rw [hc]; rfl)⟩
  | failed e => exact ⟨i, range, hi, hrespond _ (by rw [hc]; rfl)⟩
  | waiting =>
    rcases hcell.enter_or_working hc with he | ⟨j, p, hj⟩
    · exact ⟨i, range, hi, .inl (atCell_isSome hi hs he)⟩
    · exact hworking j p hj

/-! ## How many steps there are -/

/-- The steps that a request has still before it in the preflight of the session. -/
def ahead (session : GroupSession ι) (token : String) (s : Videos ι) (i : ι) : Nat :=
  match s.routes i with
  | .calling _ _ => (s.caller token i).ahead (session.walk token) (Walk.rank session.candidates)
  | _ => 0

/-- The request is in the preflight of the session, or past it. -/
def Past (s : Videos ι) (token : String) (range : Option String) (i : ι) : Prop :=
  s.routes i = .calling token range ∨ 2 < (s.routes i).stage

omit [DecidableEq ι] in
theorem Past.calling {token' : String} {range' : Option String} (h : s.Past token range i)
    (hi : s.routes i = .calling token' range') : token' = token ∧ range' = range := by
  rcases h with h | h
  · rw [hi] at h
    cases h
    exact ⟨rfl, rfl⟩
  · simp [hi, Route.stage] at h

omit [DecidableEq ι] in
theorem Past.not_found {token' : String} {range' : Option String} (h : s.Past token range i) :
    s.routes i ≠ .found token' range' := by
  intro hi
  rcases h with h | h <;> simp [hi, Route.stage] at h

omit [DecidableEq ι] in
theorem Moves.past {b : Bool} (h : s.Past token range i) (hm : Moves cfg s s' i b) :
    s'.Past token range i := by
  cases hm with
  | outside hi _ hlt _ =>
    refine .inr ?_
    rcases h with h | h
    · exact absurd h (hi token range)
    · exact h.trans hlt
  | called token' range' hi => exact absurd hi h.not_found
  | worked token' range' session x hi hi' =>
    obtain ⟨rfl, rfl⟩ := h.calling hi
    exact .inl hi'
  | answered token' range' r _ hi' => exact .inr (by simp [hi', Route.stage])
  | left token' range' x _ hi' => exact .inr (by simp [hi', Route.stage])

omit [DecidableEq ι] in
theorem ahead_calling (hi : s.routes i = .calling token range) {u : String} :
    s.ahead session u i =
      (s.caller u i).ahead (session.walk u) (Walk.rank session.candidates) := by
  simp only [ahead, hi]

omit [DecidableEq ι] in
theorem ahead_outside (hi : ∀ token range, s.routes i ≠ .calling token range) {u : String} :
    s.ahead session u i = 0 := by
  unfold ahead
  split
  · next hr => exact absurd hr (hi _ _)
  · rfl

omit [DecidableEq ι] in
/-- **A step of a preflight is one less before the request**, and none of its own is one more. -/
theorem Moves.ahead {b : Bool} {active : OnceCell ι Net Walk PreflightError ActiveStream}
    (h : s.Past token range i) (hs : s.sessions token = some { session with active })
    (hm : Moves cfg s s' i b) :
    if b then s'.ahead session token i < s.ahead session token i
    else s'.ahead session token i ≤ s.ahead session token i := by
  cases hm with
  | outside _ hi' =>
    rw [ahead_outside hi']
    exact Nat.zero_le _
  | called token' range' hi => exact absurd hi h.not_found
  | worked token' range' session' x hi hi' hs' _ hlt hsame =>
    obtain ⟨rfl, rfl⟩ := h.calling hi
    rw [hs] at hs'
    cases hs'
    rw [if_pos rfl, ahead_calling hi, ahead_calling hi', hsame, if_pos rfl]
    exact hlt
  | answered token' range' r hi hi' hr =>
    obtain ⟨rfl, rfl⟩ := h.calling hi
    rw [if_pos rfl, ahead_calling hi, ahead_outside (by simp [hi'])]
    unfold outcome at hr
    split at hr
    · next active hc =>
      rw [hc]
      exact Nat.zero_lt_one
    · next e hc =>
      rw [hc]
      exact Nat.zero_lt_one
    · cases hr
  | left token' range' x _ hi' =>
    rw [ahead_outside (by simp [hi'])]
    exact Nat.zero_le _

theorem preflightOf_request {a : VideosAct ι} (h : a.preflightOf i = true) :
    a.request = some i := by
  cases a <;> simp_all [VideosAct.preflightOf, VideosAct.request]

/-- **In every run** a request that is in a preflight takes so many steps at most. -/
theorem preflights_le (hk : s.Kept cfg) (hp : s.Present) (hi : s.routes i = .calling token range)
    (hs : s.sessions token = some session) {ok : Videos ι → VideosAct ι → Prop}
    {as : List (VideosAct ι)} {t : Videos ι} (h : Run (step cfg) ok s as t) :
    as.countP (VideosAct.preflightOf i) ≤ session.candidates.length - session.startIdx + 2 := by
  have hcount : as.countP (VideosAct.preflightOf i) + t.ahead session token i ≤
      s.ahead session token i := by
    refine h.countP_le (I := fun t => t.Kept cfg ∧ s.Grows t ∧ t.Past token range i)
      (μ := fun t => t.ahead session token i) ⟨hk, .refl s, .inl hi⟩
      (fun t a u ht _ hu => ?_) fun t a u ht _ hu => ?_
    · obtain ⟨htk, hg, hpast⟩ := ht
      have heff := step_effect htk hu
      refine ⟨heff.kept htk, hg.trans (heff.grows htk), ?_⟩
      by_cases ha : a.request = some i
      · exact (step_moves htk hu ha).past hpast
      · rw [Past, (step_others hu ha).1]
        exact hpast
    · obtain ⟨htk, hg, hpast⟩ := ht
      obtain ⟨active, hs', -, -⟩ := hg token session hs
      by_cases ha : a.request = some i
      · exact (step_moves htk hu ha).ahead hpast hs'
      · obtain ⟨hr, hc⟩ := step_others hu ha
        rw [if_neg fun hb => ha (preflightOf_request hb)]
        simp only [ahead, hr, hc, Nat.le_refl]
  have hin := hp.inside i token range hi
  have hle : s.ahead session token i ≤ session.candidates.length - session.startIdx + 2 := by
    rw [ahead_calling hi, caller_eq hs]
    rw [caller_eq hs] at hin
    exact (hk.cells token session hs).ahead_le (walk_ranked _ _ _)
      fun haway => by simp [haway, Caller.Inside] at hin
  omega

/-! ## Where they all go on -/

/-- The requests in the preflight of the session. -/
def inPreflight (s : Videos ι) (token : String) : Set ι :=
  {i | ∃ range, s.routes i = .calling token range}

/-- The act is a step of one of them. -/
def GoesOn (token : String) (s : Videos ι) (a : VideosAct ι) : Prop :=
  ∃ i ∈ s.inPreflight token, a.preflightOf i = true

theorem finite_come {a : VideosAct ι} (h : {i | s.routes i ≠ .coming}.Finite)
    (hs : s.step cfg a = some s') : {i | s'.routes i ≠ .coming}.Finite := by
  have hone : {i | a.request = some i}.Finite :=
    Set.Subsingleton.finite fun i hi j hj => Option.some.inj (hi.symm.trans hj)
  refine (h.union hone).subset fun i hi => ?_
  by_cases ha : a.request = some i
  · exact .inr ha
  · refine .inl ?_
    rwa [Set.mem_ofPred_eq, (step_others hs ha).1] at hi

/-- Only so many requests are in a preflight. -/
theorem finite_inPreflight (h : Reaches cfg init s) : (s.inPreflight token).Finite := by
  have hfin : {i | s.routes i ≠ .coming}.Finite := by
    refine h.inv (I := fun s => {i | s.routes i ≠ .coming}.Finite) ?_ fun _ _ _ ht _ hs =>
      finite_come ht hs
    simp [init]
  refine hfin.subset fun i hi => ?_
  obtain ⟨range, hr⟩ := hi
  simp [hr]

/-- Where only they take steps, who is in the preflight or has its response stays so. -/
theorem goesOn_routes {a : VideosAct ι} (hk : s.Kept cfg) (hs : s.step cfg a = some s')
    (ha : GoesOn token s a)
    (hi : s.routes i = .calling token range ∨ ∃ r, s.routes i = .responded token range r) :
    s'.routes i = .calling token range ∨ ∃ r, s'.routes i = .responded token range r := by
  by_cases hai : a.request = some i
  · obtain ⟨j, ⟨range', hj⟩, hpre⟩ := ha
    obtain rfl : j = i := Option.some.inj ((preflightOf_request hpre).symm.trans hai)
    have hm := step_moves hk hs hai
    rw [hpre] at hm
    rcases hi with hi | ⟨r, hi⟩
    · cases hm with
      | worked token' range' session x hi' hi'' =>
        rw [hi] at hi'
        cases hi'
        exact .inl hi''
      | answered token' range' r hi' hi'' =>
        rw [hi] at hi'
        cases hi'
        exact .inr ⟨r, hi''⟩
    · rw [hi] at hj
      cases hj
  · rw [(step_others hs hai).1]
    exact hi

/-- No one comes to the preflight by these steps. -/
theorem goesOn_subset {a : VideosAct ι} (hs : s.step cfg a = some s') (ha : GoesOn token s a) :
    s'.inPreflight token ⊆ s.inPreflight token := by
  intro i hi
  obtain ⟨range, hr⟩ := hi
  by_cases hai : a.request = some i
  · obtain ⟨j, hj, hpre⟩ := ha
    rwa [Option.some.inj (hai.symm.trans (preflightOf_request hpre))]
  · rw [(step_others hs hai).1] at hr
    exact ⟨range, hr⟩

/-- The steps of such a run are those of requests that were in the preflight at its start. -/
theorem goesOn_run {as : List (VideosAct ι)} {t : Videos ι}
    (h : Run (step cfg) (GoesOn token) s as t) :
    t.inPreflight token ⊆ s.inPreflight token ∧
      ∀ a ∈ as, ∃ i ∈ s.inPreflight token, a.preflightOf i = true := by
  induction h with
  | nil => exact ⟨subset_rfl, by simp⟩
  | @snoc as t u a _ ha hs ih =>
    obtain ⟨hsub, hall⟩ := ih
    refine ⟨(goesOn_subset hs ha).trans hsub, fun b hb => ?_⟩
    rcases List.mem_cons.mp hb with rfl | hb
    · obtain ⟨i, hi, hpre⟩ := ha
      exact ⟨i, hsub hi, hpre⟩
    · exact hall b hb

/-- Who can take its next step takes one. -/
theorem Ready.exists_step (h : s.Ready cfg i) :
    ∃ a s', a.preflightOf i = true ∧ s.step cfg a = some s' := by
  rcases h with h | h | h
  · obtain ⟨s', hs⟩ := Option.isSome_iff_exists.mp h
    exact ⟨.enter i, s', by simp [VideosAct.preflightOf], hs⟩
  · obtain ⟨s', hs⟩ := Option.isSome_iff_exists.mp (h (onePost 10 4))
    exact ⟨.probe i _, s', by simp [VideosAct.preflightOf], hs⟩
  · obtain ⟨s', hs⟩ := Option.isSome_iff_exists.mp h
    exact ⟨.respond i, s', by simp [VideosAct.preflightOf], hs⟩

end Videos

section
variable {ι : Type} [DecidableEq ι] {cfg : StreamConfig} {s : Videos ι} {i : ι}
  {token : String} {range : Option String} {session : GroupSession ι}

/-- The request is in the preflight of the session `t`. -/
def Route.waits : Route → Bool
  | .calling "t" _ => true
  | _ => false

/-- One of two requests has failed on the first of two uploads, and the other one waits. -/
theorem exists_waiting : ∃ (s : Videos Nat) (range : _) (session : GroupSession Nat),
    Videos.Reaches noReadAhead .init s ∧ s.routes 1 = .calling "t" range ∧
      s.sessions "t" = some session ∧ session.candidates.length = 2 := by
  obtain ⟨s, h, hp⟩ := exists_videos firstFails
    (fun s => (s.routes 1).waits && (s.sessions "t").any (·.candidates.length = 2)) rfl
  rw [Bool.and_eq_true] at hp
  obtain ⟨hroute, hp⟩ := hp
  obtain ⟨session, hs, hlen⟩ := (Option.any_eq_true _ _).mp hp
  unfold Route.waits at hroute
  split at hroute
  · next range hi => exact ⟨s, range, session, h, hi, hs, of_decide_eq_true hlen⟩
  · cases hroute

/-- **No preflight stands still, and none goes on for ever.** While a request is in the preflight
of a session, one that is can take its next step, whatever the network answers; and in every run
from there the request takes at most two steps more than there are candidates. -/
theorem preflight_ends (h : Videos.Reaches cfg .init s)
    (hi : s.routes i = .calling token range) :
    ∃ session, s.sessions token = some session ∧
      (∃ j ∈ s.inPreflight token, s.Ready cfg j) ∧
      ∀ as t, Run (Videos.step cfg) (fun _ _ => True) s as t →
        as.countP (VideosAct.preflightOf i) ≤
          session.candidates.length - session.startIdx + 2 := by
  obtain ⟨hk, hp⟩ := Videos.present_reaches h
  obtain ⟨session, hs⟩ := Videos.exists_session (hp.inside i token range hi)
  obtain ⟨j, range', hj, hready⟩ := Videos.exists_ready hk hp hi
  exact ⟨session, hs, ⟨j, ⟨range', hj⟩, hready⟩, fun as t hr => Videos.preflights_le hk hp hi hs hr⟩

theorem preflight_ends_waiting :
    ∃ (s : Videos Nat) (range : _), s.routes 1 = .calling "t" range ∧
      ∃ session, s.sessions "t" = some session ∧
        (∃ j ∈ s.inPreflight "t", s.Ready noReadAhead j) ∧
        ∀ as t, Run (Videos.step noReadAhead) (fun _ _ => True) s as t →
          as.countP (VideosAct.preflightOf 1) ≤
            session.candidates.length - session.startIdx + 2 := by
  obtain ⟨s, range, -, h, hi, -⟩ := exists_waiting
  exact ⟨s, range, hi, preflight_ends h hi⟩

/-- **Where the requests of a preflight go on, each of them is answered**: they take so many steps
at most, in any order and whatever the network answers, and when none of them can take one more,
all have their responses. -/
theorem all_answered (h : Videos.Reaches cfg .init s) (hs : s.sessions token = some session) :
    (∀ as t, Run (Videos.step cfg) (Videos.GoesOn token) s as t → as.length ≤
        (s.inPreflight token).ncard * (session.candidates.length - session.startIdx + 2)) ∧
      ∀ t, Lib.Reaches (Videos.step cfg) (Videos.GoesOn token) s t →
        (∀ a u, Videos.GoesOn token t a → t.step cfg a ≠ some u) →
        ∀ i range, s.routes i = .calling token range →
          ∃ r, t.routes i = .responded token range r := by
  obtain ⟨hk, hp⟩ := Videos.present_reaches h
  constructor
  · intro as t hr
    have hfin : (s.inPreflight token).Finite := Videos.finite_inPreflight h
    rw [Set.ncard_eq_toFinset_card _ hfin, ← Finset.length_toList]
    refine length_le_mul (p := VideosAct.preflightOf) (fun a ha => ?_) fun i hi => ?_
    · simpa using (Videos.goesOn_run hr).2 a ha
    · obtain ⟨range, hi⟩ := hfin.mem_toFinset.mp (Finset.mem_toList.mp hi)
      exact Videos.preflights_le hk hp hi hs hr
  · intro t hr hstuck i range hi
    have ht := Videos.present_reaches (h.trans (hr.mono fun _ _ _ => trivial))
    have hin : t.Kept cfg ∧
        (t.routes i = .calling token range ∨ ∃ r, t.routes i = .responded token range r) :=
      hr.inv (I := fun t => t.Kept cfg ∧ (t.routes i = .calling token range ∨
          ∃ r, t.routes i = .responded token range r)) ⟨hk, .inl hi⟩ fun t a u hu ha hs =>
        ⟨(Videos.step_effect hu.1 hs).kept hu.1, Videos.goesOn_routes hu.1 hs ha hu.2⟩
    rcases hin.2 with hcalling | hr
    · -- one of them could go on
      obtain ⟨j, range', hj, hready⟩ := Videos.exists_ready ht.1 ht.2 hcalling
      obtain ⟨a, u, hpre, hs⟩ := hready.exists_step
      exact absurd hs (hstuck a u ⟨j, ⟨range', hj⟩, hpre⟩)
    · exact hr

theorem all_answered_waiting :
    ∃ (s : Videos Nat) (session : GroupSession Nat), 1 ∈ s.inPreflight "t" ∧
      session.candidates.length = 2 ∧
      (∀ as t, Run (Videos.step noReadAhead) (Videos.GoesOn "t") s as t → as.length ≤
        (s.inPreflight "t").ncard * (session.candidates.length - session.startIdx + 2)) ∧
      ∀ t, Lib.Reaches (Videos.step noReadAhead) (Videos.GoesOn "t") s t →
        (∀ a u, Videos.GoesOn "t" t a → t.step noReadAhead a ≠ some u) →
        ∀ i range, s.routes i = .calling "t" range →
          ∃ r, t.routes i = .responded "t" range r := by
  obtain ⟨s, range, session, h, hi, hs, hlen⟩ := exists_waiting
  exact ⟨s, session, ⟨range, hi⟩, hlen, all_answered h hs⟩

end

end StremioNzb.Addon

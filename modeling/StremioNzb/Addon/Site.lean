import StremioNzb.Addon.Committed
import StremioNzb.Streaming.Retained

/-!
# Requests and the collector on one registry

`video_route` with its candidates, its cells and its responses (`Videos`), beside the passes of
`run_once` on the sessions and the cache files that it uses. `Site.view` is all that the collector
sees of this. Every run of the site is one of `video_route` (`videos_reaches`) and, in that view,
one of the requests and passes of `gc.rs` (`view_reaches`), so what is proved of either holds of
the two together.
-/

namespace StremioNzb.Streaming.Server

variable {τ ι : Type} [DecidableEq τ] {s : Server τ ι} {t : τ}

theorem setCell_setCell {x y : Cell} : (s.setCell t x).setCell t y = s.setCell t y := by
  refine congrArg (fun sessions => ({ s with sessions } : Server τ ι)) (funext fun u => ?_)
  simp only [setCell, setSession]
  split
  · rw [Option.map_map]
    rfl
  · rfl

theorem setCell_self {x : StreamSession} (h : s.sessions t = some x) :
    s.setCell t x.active = s := by
  refine congrArg (fun sessions => ({ s with sessions } : Server τ ι)) (funext fun u => ?_)
  split
  · next hu => rw [hu, h]; rfl
  · rfl

section
variable [DecidableEq ι] {i : ι} {r r' : VideoRoute τ}

theorem setCell_setRequest {x : Cell} :
    (s.setRequest i r).setCell t x = (s.setCell t x).setRequest i r := rfl

omit [DecidableEq τ] in
theorem setRequest_setRequest : (s.setRequest i r).setRequest i r' = s.setRequest i r' := by
  refine congrArg (fun requests => ({ s with requests } : Server τ ι)) (funext fun j => ?_)
  simp only [setRequest]
  split <;> rfl

omit [DecidableEq τ] in
theorem setRequest_self (h : s.requests i = r) : s.setRequest i r = s := by
  refine congrArg (fun requests => ({ s with requests } : Server τ ι)) (funext fun j => ?_)
  split
  · next hj => rw [hj, h]
  · rfl

end

end StremioNzb.Streaming.Server

namespace StremioNzb.Addon

open StremioNzb.Lib StremioNzb.Streaming

/-- When the preflight of a request has opened the cache file: in an attempt that is over, or in the
one under way. -/
inductive FileOpening where
  | never
  | before
  | now
  deriving DecidableEq

namespace FileOpening

/-- It has opened it. -/
def done : FileOpening → Bool
  | never => false
  | before | now => true

/-- When the attempt is over. -/
def past : FileOpening → FileOpening
  | never => never
  | before | now => before

@[simp] theorem done_past (o : FileOpening) : o.past.done = o.done := by cases o <;> rfl

end FileOpening

structure Site (ι : Type) where
  videos : Videos ι
  clock : Nat
  lastAccess : String → Nat
  /-- The request has touched the session that it found. -/
  touched : ι → Bool
  opening : ι → FileOpening
  /-- The cache files with their real bytes, and the bytes of other files beside them. -/
  files : List (String × Nat)
  otherBytes : Nat
  pass : Pass String

/-- Acts of the requests, of their bodies and of the collector. -/
inductive SiteAct (ι : Type) where
  | advance (ms : Nat)
  | registerGroup (token : String) (candidates : List NzbCandidate)
  | get (i : ι) (tokenWithExt : String) (range : Option String)
  | touch (i : ι)
  | readPool (i : ι) (servers : Bool)
  | enter (i : ι)
  | openFile (i : ι)
  | probe (i : ι) (net : Net)
  | respond (i : ι)
  | write (i : ι) (bytes : Nat)
  | close (i : ι)
  | runOnce (order : List String)

/-! ## What the collector sees -/

abbrev ActiveCell (ι : Type) := OnceCell ι Net Walk PreflightError ActiveStream

def cellOf {ι : Type} (c : ActiveCell ι) : Cell :=
  if c.value.isSome then .filled else if c.holder.isSome then .busy else .empty

/-- Where a caller of the cell stands. -/
def callerOf (token : String) (opened : Bool) :
    Caller Walk PreflightError ActiveStream → VideoRoute String
  | .waiting => .touched token
  | .working _ => if opened then .opened token else .probing token
  | .got _ => .ready token
  | .away | .failed _ | .gone => .ended

namespace Site
variable {ι : Type} (s : Site ι)

def routeOf (i : ι) : Route → VideoRoute String
  | .coming => .coming
  | .found token _ => if s.touched i then .touched token else .found token
  | .calling token _ => match s.videos.sessions token with
    | some session => callerOf token (s.opening i).done (session.active.callers i)
    | none => .ended
  | .responded token _ r => match r.body with
    | .stream _ _ => .streaming token
    | .text _ => .ended
  | .gone => .ended

def view : Streaming.Server String ι where
  clock := s.clock
  sessions token :=
    (s.videos.sessions token).map fun session => ⟨cellOf session.active, s.lastAccess token⟩
  registry := s.videos.registry
  files := s.files
  otherBytes := s.otherBytes
  requests i := s.routeOf i (s.videos.routes i)
  pass := s.pass

/-! ## All together -/

variable [DecidableEq ι]

def markTouched (i : ι) (b : Bool) : Site ι :=
  { s with touched := Function.update s.touched i b }

def markOpening (i : ι) (o : FileOpening) : Site ι :=
  { s with opening := Function.update s.opening i o }

omit [DecidableEq ι] in
def accessed (token : String) : Site ι :=
  { s with lastAccess := Function.update s.lastAccess token s.clock }

def createFile (token : String) : Site ι := { s with files := (s.view.createFile token).files }

/-- After an attempt; one that succeeds has opened the file, which may be deleted since. -/
def settled (i : ι) : Site ι := match s.view.requests i with
  | .ready token => if s.opening i = .now then s else s.createFile token
  | _ => s.markOpening i (s.opening i).past

omit [DecidableEq ι] in
def withVideos (videos : Videos ι) : Site ι := { s with videos }

/-- A step of `video_route`. -/
def request (cfg : StreamConfig) (a : VideosAct ι) : Option (Site ι) :=
  (s.videos.step cfg a).map s.withVideos

/-- After a step of the collector. -/
def swept (t : Streaming.Server String ι) : Site ι :=
  { s with videos := { s.videos with registry := t.registry }, files := t.files, pass := t.pass }

def step (cfg : StreamConfig) (gc : GcConfig) (s : Site ι) : SiteAct ι → Option (Site ι)
  | .advance ms => some { s with clock := s.clock + ms }
  | .registerGroup token candidates =>
    (s.request cfg (.registerGroup token candidates)).map (·.accessed token)
  | .get i tokenWithExt range =>
    (s.request cfg (.get i tokenWithExt range)).map (·.markTouched i false)
  | .touch i => match s.view.requests i with
    | .found token => some ((s.accessed token).markTouched i true)
    | _ => none
  | .readPool i servers => if s.touched i then s.request cfg (.readPool i servers) else none
  | .enter i => (s.request cfg (.enter i)).map (·.markOpening i .never)
  | .openFile i => match s.view.requests i with
    | .probing token | .opened token => some ((s.createFile token).markOpening i .now)
    | _ => none
  | .probe i net => (s.request cfg (.probe i net)).map (·.settled i)
  | .respond i => s.request cfg (.respond i)
  | .write i bytes => match s.view.requests i with
    | .streaming token => some { s with files := (s.view.resizeFile token bytes).files }
    | _ => none
  | .close i => s.request cfg (.close i)
  | .runOnce order => (s.view.runOnce gc order).map s.swept

omit [DecidableEq ι] in
def init (clock otherBytes : Nat) : Site ι where
  videos := .init
  clock := clock
  lastAccess _ := 0
  touched _ := false
  opening _ := .never
  files := []
  otherBytes := otherBytes
  pass := .resting

abbrev Reaches (cfg : StreamConfig) (gc : GcConfig) : Site ι → Site ι → Prop :=
  Lib.Reaches (step cfg gc) fun _ _ => True

/-! ## A run of `video_route` -/

variable {cfg : StreamConfig} {gc : GcConfig} {s s' : Site ι} {i : ι} {token : String}
  {range : Option String} {session : GroupSession ι} {active : ActiveCell ι}

theorem request_eq_some {a : VideosAct ι} (h : s.request cfg a = some s') :
    ∃ videos, s.videos.step cfg a = some videos ∧ s' = s.withVideos videos := by
  obtain ⟨videos, hv, rfl⟩ := Option.map_eq_some_iff.mp h
  exact ⟨videos, hv, rfl⟩

theorem videos_of_request {a : VideosAct ι} (h : s.request cfg a = some s') :
    Videos.Reaches cfg s.videos s'.videos := by
  obtain ⟨videos, hv, rfl⟩ := request_eq_some h
  exact (Reaches.refl s.videos).snoc trivial hv

theorem videos_step {a : SiteAct ι} (h : s.step cfg gc a = some s') :
    Videos.Reaches cfg s.videos s'.videos := by
  cases a with
  | advance ms =>
    cases h
    exact .refl _
  | registerGroup | get | enter =>
    obtain ⟨t, ht, rfl⟩ := Option.map_eq_some_iff.mp h
    have hv := videos_of_request ht
    exact hv
  | probe i net =>
    obtain ⟨t, ht, rfl⟩ := Option.map_eq_some_iff.mp h
    have hv := videos_of_request ht
    unfold settled
    split
    · split <;> exact hv
    · exact hv
  | touch | openFile | write =>
    simp only [step] at h
    split at h <;> cases h <;> exact .refl _
  | readPool i servers => exact videos_of_request (Option.ite_none_right_eq_some.mp h).2
  | respond | close => exact videos_of_request h
  | runOnce order =>
    obtain ⟨t, ht, rfl⟩ := Option.map_eq_some_iff.mp h
    obtain ⟨p, rfl | ⟨u, rfl | ⟨-, rfl⟩⟩⟩ := Streaming.Server.runOnce_shape ht
    · exact .refl _
    · exact (Reaches.refl s.videos).snoc (a := .remove u) trivial rfl
    · exact .refl _

/-- **Every run of the site is one of `video_route`**, whose sessions are removed at any time. -/
theorem videos_reaches {t : Site ι} (h : Site.Reaches cfg gc s t) :
    Videos.Reaches cfg s.videos t.videos :=
  h.simulated (I := fun _ => True) trivial (fun _ _ _ _ _ _ => trivial)
    fun _ _ _ _ _ hs => videos_step hs

/-! ## The view of a step of `video_route` -/

open Streaming.Server (setCell_self setCell_setCell setCell_setRequest setRequest_self
  setRequest_setRequest)

theorem view_goto {r : Route} :
    (s.withVideos (s.videos.goto i r)).view = s.view.setRequest i (s.routeOf i r) := by
  refine congrArg (fun requests => ({ s.view with requests } : Streaming.Server String ι))
    (funext fun j => ?_)
  show s.routeOf j (Function.update s.videos.routes i r j) = _
  split
  · next hj => rw [hj, Function.update_self]
  · next hj => rw [Function.update_of_ne hj]; rfl

omit [DecidableEq ι] in
theorem routeOf_calling (hs : s.videos.sessions token = some session) :
    s.routeOf i (.calling token range) =
      callerOf token (s.opening i).done (session.active.callers i) := by
  simp only [routeOf, hs]

omit [DecidableEq ι] in
theorem sessions_view (hs : s.videos.sessions token = some session) :
    s.view.sessions token = some ⟨cellOf session.active, s.lastAccess token⟩ := by
  simp only [view, hs, Option.map_some]

/-- A request takes a step at the cell of its session. -/
theorem view_setSession (hi : s.videos.routes i = .calling token range)
    (hs : s.videos.sessions token = some session)
    (hj : ∀ j, j ≠ i → active.callers j = session.active.callers j) :
    (s.withVideos (s.videos.setSession token { session with active })).view =
      (s.view.setCell token (cellOf active)).setRequest i
        (callerOf token (s.opening i).done (active.callers i)) := by
  have hsessions : (s.withVideos
      (s.videos.setSession token { session with active })).view.sessions =
        (s.view.setCell token (cellOf active)).sessions := by
    unfold Streaming.Server.setCell Streaming.Server.setSession
    funext u
    by_cases hu : u = token
    · subst hu
      simp [withVideos, view, Videos.setSession, hs]
    · simp [withVideos, view, Videos.setSession, hu]
  refine congrArg₂ (fun sessions requests =>
    ({ s.view with sessions, requests } : Streaming.Server String ι)) hsessions (funext fun j => ?_)
  by_cases hji : j = i
  · subst hji
    simp [withVideos, Videos.setSession, hi, routeOf]
  · rw [if_neg hji]
    show routeOf _ j (s.videos.routes j) = s.routeOf j (s.videos.routes j)
    cases s.videos.routes j with
    | calling token' range' =>
      simp only [routeOf, withVideos, Videos.setSession, Function.update_apply]
      by_cases ht : token' = token
      · subst ht
        simp [hs, hj j hji]
      · simp [ht]
    | _ => rfl

/-- Only the marks of one request change. -/
theorem view_marks {touched : ι → Bool} {opening : ι → FileOpening}
    (hj : ∀ j, j ≠ i → touched j = s.touched j ∧ opening j = s.opening j) :
    ({ s with touched, opening } : Site ι).view = s.view.setRequest i
      (({ s with touched, opening } : Site ι).routeOf i (s.videos.routes i)) := by
  refine congrArg (fun requests => ({ s.view with requests } : Streaming.Server String ι))
    (funext fun j => ?_)
  split
  · next hji => rw [hji]
  · next hji =>
    obtain ⟨ht, ho⟩ := hj j hji
    show routeOf _ j (s.videos.routes j) = s.routeOf j (s.videos.routes j)
    cases s.videos.routes j with
    | found | calling => simp only [routeOf, ht, ho]
    | _ => rfl

theorem view_touched {b : Bool} (hi : s.videos.routes i = .coming) :
    (s.markTouched i b).view = s.view := by
  rw [markTouched, view_marks (i := i) fun j hji => ⟨Function.update_of_ne hji _ _, rfl⟩]
  refine setRequest_self ?_
  simp only [view, hi, routeOf]

theorem view_opening {o : FileOpening} (hi : s.videos.routes i = .calling token range)
    (hs : s.videos.sessions token = some session) :
    (s.markOpening i o).view =
      s.view.setRequest i (callerOf token o.done (session.active.callers i)) := by
  rw [markOpening, view_marks (i := i) fun j hji => ⟨rfl, Function.update_of_ne hji _ _⟩, hi]
  simp only [routeOf, hs, Function.update_self]

theorem view_move {x : Caller Walk PreflightError ActiveStream}
    (hi : s.videos.routes i = .calling token range)
    (hs : s.videos.sessions token = some session) :
    (s.withVideos (s.videos.setSession token
      { session with active := session.active.move i x })).view =
      s.view.setRequest i (callerOf token (s.opening i).done x) := by
  rw [view_setSession hi hs fun j hji => Function.update_of_ne hji _ _]
  have hcell : s.view.setCell token (cellOf (session.active.move i x)) = s.view :=
    setCell_self (sessions_view hs)
  rw [hcell]
  simp only [OnceCell.move, Function.update_self]

/-- The cell and the request that has worked at it, after what the walk has come to. -/
def settledAs (token : String) (opened : Bool) :
    Option (Except PreflightError ActiveStream) → Cell × VideoRoute String
  | none => (.busy, if opened then .opened token else .probing token)
  | some (.ok _) => (.filled, .ready token)
  | some (.error _) => (.empty, .ended)

theorem view_settle {c : ActiveCell ι} {p : Walk} (hi : s.videos.routes i = .calling token range)
    (hs : s.videos.sessions token = some session) (hv : c.value = none)
    (hc : c.callers = session.active.callers) :
    (s.withVideos (s.videos.setSession token
      { session with active := c.settle (session.walk token) i p })).view =
      (s.view.setCell token
        (settledAs token (s.opening i).done ((session.walk token).result p)).1).setRequest i
        (settledAs token (s.opening i).done ((session.walk token).result p)).2 := by
  rw [view_setSession hi hs fun j hji => by rw [OnceCell.settle_callers hji, hc]]
  unfold OnceCell.settle
  split <;> next hr => simp [hr, settledAs, cellOf, callerOf, OnceCell.move, hv]

/-! ## The run that the collector sees -/

abbrev Seen (gc : GcConfig) : Streaming.Server String ι → Streaming.Server String ι → Prop :=
  Lib.Reaches (Streaming.Server.step gc) fun _ _ => True

theorem seen_step {v v' : Streaming.Server String ι} {a : Streaming.Server.Act String ι}
    (h : v.step gc a = some v') : Seen gc v v' := (Reaches.refl v).snoc trivial h

theorem seen_get {tokenWithExt : String}
    (h : s.request cfg (.get i tokenWithExt range) = some s') :
    Seen gc s.view (s'.markTouched i false).view := by
  obtain ⟨videos, hv, rfl⟩ := request_eq_some h
  simp only [Videos.step] at hv
  split at hv
  · next hi =>
    cases hv
    have ht : (s.markTouched i false).view = s.view := view_touched hi
    refine seen_step (a := .lookup i (pathToken tokenWithExt)) ?_
    have hreq : s.view.requests i = .coming := by simp only [view, hi, routeOf]
    simp only [Streaming.Server.step, hreq]
    refine congrArg some (Eq.symm ?_)
    rw [← ht]
    refine (view_goto (s := s.markTouched i false)).trans (congrArg _ ?_)
    split
    · next hmem =>
      refine Eq.trans ?_ (if_pos hmem).symm
      simp only [routeOf, markTouched, Function.update_self, Bool.false_eq_true, if_false]
    · next hmem => exact (if_neg hmem).symm
  · cases hv

/-- A request that holds a session and not its permit goes. -/
theorem seen_close_of {v : Streaming.Server String ι} {r : VideoRoute String}
    (h : v.requests i = r) (hr : r = .found token ∨ r = .touched token ∨ r = .ready token ∨
      r = .streaming token) : Seen gc v (v.setRequest i .ended) := by
  refine seen_step (a := .close i) ?_
  rcases hr with rfl | rfl | rfl | rfl <;> simp only [Streaming.Server.step, h]

/-- One at work goes, and the cell is free again. -/
theorem seen_release {v : Streaming.Server String ι} {b : Bool}
    (h : v.requests i = if b then .opened token else .probing token) :
    Seen gc v ((v.setCell token .empty).setRequest i .ended) := by
  refine seen_step (a := .close i) ?_
  cases b with
  | false => simp only [Streaming.Server.step, h, Bool.false_eq_true, if_false]
  | true => simp only [Streaming.Server.step, h, if_true]

/-- One at work that has opened the file fills the cell. -/
theorem seen_commit {v : Streaming.Server String ι} (h : v.requests i = .opened token) :
    Seen gc v ((v.setCell token .filled).setRequest i (.ready token)) :=
  seen_step (a := .commit i) (by simp only [Streaming.Server.step, h])

/-- One at work opens the file and fills the cell. -/
theorem seen_commit_open {v : Streaming.Server String ι} {b : Bool}
    (h : v.requests i = if b then .opened token else .probing token) :
    Seen gc v (((v.setCell token .filled).setRequest i (.ready token)).createFile token) := by
  have hopen : v.step gc (.openFile i) =
      some ((v.createFile token).setRequest i (.opened token)) := by
    cases b with
    | false => simp only [Streaming.Server.step, h, Bool.false_eq_true, if_false]
    | true => simp only [Streaming.Server.step, h, if_true]
  have hcommit : Seen gc ((v.createFile token).setRequest i (.opened token)) _ :=
    seen_commit (if_pos rfl)
  rw [setCell_setRequest, setRequest_setRequest] at hcommit
  exact (seen_step hopen).trans hcommit

theorem seen_readPool {servers : Bool} (ht : s.touched i = true)
    (h : s.request cfg (.readPool i servers) = some s') : Seen gc s.view s'.view := by
  obtain ⟨videos, hv, rfl⟩ := request_eq_some h
  simp only [Videos.step, Videos.readPool] at hv
  split at hv
  · next token range hi =>
    have hreq : s.view.requests i = .touched token := by simp only [view, hi, routeOf, ht, if_true]
    split at hv
    · obtain ⟨token', range', session, active, hi', hs, ha, rfl⟩ := Videos.atCell_eq_some hv
      have hroute : Route.calling token range = .calling token' range' :=
        (Function.update_self ..).symm.trans hi'
      cases hroute
      simp only [OnceCell.step] at ha
      split at ha
      · cases ha
        have hview := view_move (s := s.withVideos (s.videos.goto i (.calling token range)))
          (x := .waiting) hi' hs
        rw [view_goto, setRequest_setRequest, callerOf,
          setRequest_self hreq] at hview
        exact hview ▸ .refl _
      · cases ha
    · cases hv
      rw [view_goto]
      exact seen_close_of hreq (.inr (.inl rfl))
  · cases hv

omit [DecidableEq ι] in
theorem requests_of_calling (hi : s.videos.routes i = .calling token range)
    (hs : s.videos.sessions token = some session) :
    s.view.requests i = callerOf token (s.opening i).done (session.active.callers i) := by
  simp only [view, hi, routeOf, hs]

theorem seen_respond (h : s.request cfg (.respond i) = some s') : Seen gc s.view s'.view := by
  obtain ⟨videos, hv, rfl⟩ := request_eq_some h
  simp only [Videos.step, Videos.respond] at hv
  split at hv
  · next token range hi =>
    obtain ⟨session, hs, hv⟩ := Option.bind_eq_some_iff.mp hv
    obtain ⟨r, hr, rfl⟩ := Option.map_eq_some_iff.mp hv
    have hreq := requests_of_calling hi hs
    rw [view_goto]
    unfold Videos.outcome at hr
    split at hr
    · next active hc =>
      rw [hc] at hreq
      simp only [routeOf]
      split
      · refine seen_step (a := .respond i) ?_
        simp only [Streaming.Server.step, hreq, callerOf]
      · exact seen_close_of hreq (.inr (.inr (.inl rfl)))
    · next e hc =>
      cases hr
      rw [hc] at hreq
      exact (setRequest_self hreq).symm ▸ .refl _
    · cases hr
  · cases hv

/-- A request that is at the cell goes. -/
theorem seen_cancel (hk : s.videos.Kept cfg) (hi : s.videos.routes i = .calling token range)
    (hs : s.videos.sessions token = some session) : Seen gc s.view
      (s.withVideos (((s.videos.atCell i (.cancel i)).getD s.videos).goto i .gone)).view := by
  have hreq := requests_of_calling hi hs
  have hcell : s.videos.atCell i (.cancel i) =
      (session.active.step (session.walk token) (.cancel i)).map fun active =>
        s.videos.setSession token { session with active } := by
    simp only [Videos.atCell, hi, hs, Option.bind_some]
  rw [hcell]
  have hgone : ∀ active : ActiveCell ι,
      (s.withVideos ((s.videos.setSession token { session with active }).goto i .gone)).view =
        (s.withVideos (s.videos.setSession token { session with active })).view.setRequest i
          .ended := fun active => view_goto
    (s := s.withVideos (s.videos.setSession token { session with active }))
  cases hc : session.active.callers i with
  | waiting =>
    have hstep : session.active.step (session.walk token) (.cancel i) =
        some (session.active.move i .gone) := by simp only [OnceCell.step, hc]
    rw [hc] at hreq
    rw [hstep, Option.map_some, Option.getD_some, hgone, view_move hi hs,
      setRequest_setRequest]
    exact seen_close_of hreq (.inr (.inl rfl))
  | working p =>
    have hstep : session.active.step (session.walk token) (.cancel i) =
        some (session.active.release.move i .gone) := by simp only [OnceCell.step, hc]
    have hv := (hk.cells token session hs).value_of_working hc
    have hempty : cellOf (session.active.release.move i .gone) = .empty := by
      simp [cellOf, OnceCell.release, OnceCell.move, hv]
    rw [hc] at hreq
    rw [hstep, Option.map_some, Option.getD_some, hgone,
      view_setSession hi hs fun j hji => Function.update_of_ne hji _ _, hempty,
      setRequest_setRequest]
    exact seen_release hreq
  | got active =>
    have hstep : session.active.step (session.walk token) (.cancel i) = none := by
      simp only [OnceCell.step, hc]
    rw [hc] at hreq
    rw [hstep, Option.map_none, Option.getD_none, view_goto]
    exact seen_close_of hreq (.inr (.inr (.inl rfl)))
  | away | failed | gone =>
    have hstep : session.active.step (session.walk token) (.cancel i) = none := by
      simp only [OnceCell.step, hc]
    rw [hc] at hreq
    rw [hstep, Option.map_none, Option.getD_none, view_goto]
    exact (setRequest_self hreq).symm ▸ .refl _

theorem seen_close (hk : s.videos.Kept cfg) (h : s.request cfg (.close i) = some s') :
    Seen gc s.view s'.view := by
  obtain ⟨videos, hv, rfl⟩ := request_eq_some h
  simp only [Videos.step, Videos.close] at hv
  split at hv
  · next token range hi =>
    cases hv
    cases hs : s.videos.sessions token with
    | none =>
      have hcell : s.videos.atCell i (.cancel i) = none := by
        simp only [Videos.atCell, hi, hs, Option.bind_none]
      have hreq : s.view.requests i = .ended := by simp only [view, hi, routeOf, hs]
      rw [hcell, Option.getD_none, view_goto]
      exact (setRequest_self hreq).symm ▸ .refl _
    | some session => exact seen_cancel hk hi hs
  · next token range hi =>
    cases hv
    rw [view_goto]
    have hreq : s.view.requests i = if s.touched i then .touched token else .found token := by
      simp only [view, hi, routeOf]
    split at hreq
    · exact seen_close_of hreq (.inr (.inl rfl))
    · exact seen_close_of hreq (.inl rfl)
  · next token range r hi =>
    cases hv
    rw [view_goto]
    cases hb : r.body with
    | stream active req =>
      have hreq : s.view.requests i = .streaming token := by simp only [view, hi, routeOf, hb]
      exact seen_close_of hreq (.inr (.inr (.inr rfl)))
    | text m =>
      have hreq : s.view.requests i = .ended := by simp only [view, hi, routeOf, hb]
      exact (setRequest_self hreq).symm ▸ .refl _
  · cases hv

theorem seen_enter (h : s.request cfg (.enter i) = some s') :
    Seen gc s.view (s'.markOpening i .never).view := by
  obtain ⟨videos, hv, rfl⟩ := request_eq_some h
  obtain ⟨token, range, session, active, hi, hs, ha, rfl⟩ := Videos.atCell_eq_some hv
  have hreq := requests_of_calling hi hs
  have hopened := view_opening (o := .never) hi hs
  simp only [OnceCell.step] at ha
  split at ha
  · next hw =>
    rw [hw] at hreq hopened
    have hview : (s.markOpening i .never).view = s.view :=
      hopened.trans (setRequest_self hreq)
    have hses := sessions_view hs
    split at ha
    · next active hval =>
      cases ha
      have hmove := view_move (s := s.markOpening i .never) (x := .got active) hi hs
      rw [hview] at hmove
      refine hmove ▸ seen_step (a := .enter i) ?_
      simp [Streaming.Server.step, hreq, callerOf, hses, cellOf, hval]
    · next hval =>
      obtain ⟨hfree, ha⟩ := Option.ite_none_right_eq_some.mp ha
      cases ha
      have hsettle := view_settle (s := s.markOpening i .never) (p := (session.walk token).start)
        hi hs hval rfl
      rw [hview] at hsettle
      have henter : s.view.step gc (.enter i) =
          some ((s.view.setCell token .busy).setRequest i (.probing token)) := by
        simp [Streaming.Server.step, hreq, callerOf, hses, cellOf, hval,
          Option.isNone_iff_eq_none.mp hfree]
      refine hsettle ▸ (seen_step henter).trans ?_
      have hmark : (s.markOpening i .never).opening i = .never := Function.update_self ..
      rw [hmark]
      cases hr : (session.walk token).result (session.walk token).start with
      | none => exact .refl _
      | some result =>
        cases result with
        | error e =>
          -- no candidates: the walk is over as it starts
          have hrelease : Seen gc ((s.view.setCell token .busy).setRequest i (.probing token)) _ :=
            seen_release (b := false) (if_pos rfl)
          rwa [setCell_setRequest, setCell_setCell, setRequest_setRequest] at hrelease
        | ok active => simp [GroupSession.walk, walk] at hr
  · cases ha

theorem view_past : (s.markOpening i (s.opening i).past).view = s.view := by
  refine congrArg (fun requests => ({ s.view with requests } : Streaming.Server String ι))
    (funext fun j => ?_)
  have hdone : (Function.update s.opening i (s.opening i).past j).done = (s.opening j).done := by
    rw [Function.update_apply]
    split
    · next hj => rw [hj, FileOpening.done_past]
    · rfl
  show routeOf _ j (s.videos.routes j) = s.routeOf j (s.videos.routes j)
  cases s.videos.routes j with
  | calling token range => simp only [routeOf, markOpening, hdone]
  | _ => rfl

theorem view_settled_of_ne (h : ∀ token, s.view.requests i ≠ .ready token) :
    (s.settled i).view = s.view := by
  unfold settled
  split
  · next token hr => exact absurd hr (h token)
  · exact view_past

theorem view_settled (h : s.view.requests i = .ready token) :
    (s.settled i).view = if s.opening i = .now then s.view else s.view.createFile token := by
  unfold settled
  rw [h]
  show (if s.opening i = .now then s else s.createFile token).view = _
  split <;> rfl

theorem seen_probe {net : Net} (hk : s.videos.Kept cfg)
    (h : s.request cfg (.probe i net) = some s') : Seen gc s.view (s'.settled i).view := by
  obtain ⟨videos, hv, rfl⟩ := request_eq_some h
  obtain ⟨token, range, session, active, hi, hs, ha, rfl⟩ := Videos.atCell_eq_some hv
  have hreq := requests_of_calling hi hs
  simp only [OnceCell.step] at ha
  split at ha
  · next p hp =>
    cases ha
    have hkept := hk.cells token session hs
    have hval := hkept.value_of_working hp
    have hbusy : cellOf session.active = .busy := by
      simp [cellOf, hval, hkept.holder_iff.mpr ⟨p, hp⟩]
    have hview := view_settle (c := session.active.record i net)
      (p := (session.walk token).work p net) hi hs hval rfl
    have hnext := congrArg (·.requests i) hview
    simp only [Streaming.Server.setRequest, if_true] at hnext
    rw [hp, callerOf] at hreq
    cases hr : (session.walk token).result ((session.walk token).work p net) with
    | none =>
      have hself := setCell_self (sessions_view hs)
      rw [hbusy] at hself
      rw [hr, settledAs] at hview hnext
      rw [view_settled_of_ne fun token' => ?_, hview, hself, setRequest_self hreq]
      · exact .refl _
      · rw [hnext]
        split <;> rintro ⟨⟩
    | some result =>
      cases result with
      | error e =>
        rw [hr, settledAs] at hview hnext
        rw [view_settled_of_ne fun token' => by rw [hnext]; rintro ⟨⟩, hview]
        exact seen_release hreq
      | ok active =>
        rw [hr, settledAs] at hview hnext
        rw [view_settled hnext, hview]
        split
        · next hnow =>
          rw [show s.opening i = .now from hnow] at hreq
          exact seen_commit hreq
        · exact seen_commit_open hreq
  · cases ha

omit [DecidableEq ι] in
/-- A request in the preflight is at work at the cell of its session. -/
theorem working_of_requests (h : s.view.requests i = .probing token ∨
    s.view.requests i = .opened token) : ∃ range session p,
      s.videos.routes i = .calling token range ∧ s.videos.sessions token = some session ∧
      session.active.callers i = .working p := by
  simp only [view] at h
  cases hi : s.videos.routes i with
  | coming | gone => simp [hi, routeOf] at h
  | found token' range =>
    simp only [hi, routeOf] at h
    split at h <;> simp at h
  | responded token' range r =>
    simp only [hi, routeOf] at h
    split at h <;> simp at h
  | calling token' range =>
    cases hs : s.videos.sessions token' with
    | none => simp [hi, routeOf, hs] at h
    | some session =>
      rw [hi, routeOf_calling hs] at h
      cases hc : session.active.callers i with
      | working p =>
        rw [hc, callerOf] at h
        have ht : token' = token := by split at h <;> simpa using h
        exact ⟨range, session, p, ht ▸ rfl, ht ▸ hs, hc⟩
      | away | waiting | got | failed | gone => simp [hc, callerOf] at h

theorem seen_openFile (h : s.view.requests i = .probing token ∨
    s.view.requests i = .opened token) :
    Seen gc s.view ((s.createFile token).markOpening i .now).view := by
  obtain ⟨range, session, p, hi, hs, hp⟩ := working_of_requests h
  have hview := view_opening (s := s.createFile token) (o := .now) hi hs
  rw [hp, callerOf, FileOpening.done, if_pos rfl] at hview
  refine hview ▸ seen_step (a := .openFile i) ?_
  rcases h with h | h
  · simp only [Streaming.Server.step, h]
    rfl
  · simp only [Streaming.Server.step, h]
    rfl

theorem seen_registerGroup {candidates : List NzbCandidate}
    (h : s.request cfg (.registerGroup token candidates) = some s') :
    Seen gc s.view (s'.accessed token).view := by
  obtain ⟨videos, hv, rfl⟩ := request_eq_some h
  obtain ⟨hn, hv⟩ := Option.ite_none_right_eq_some.mp hv
  cases hv
  have hnone : s.view.sessions token = none := by simp only [view, hn, Option.map_none]
  refine seen_step (a := .registerGroup token) ((if_pos hnone).trans (congrArg some (Eq.symm ?_)))
  refine congrArg₂ (fun sessions requests => ({ s.view.registerGroup token with
    sessions, requests } : Streaming.Server String ι)) (funext fun u => ?_) (funext fun j => ?_)
  · by_cases hu : u = token
    · subst hu
      simp [withVideos, accessed, Videos.setSession, cellOf, OnceCell.empty]
      rfl
    · simp [withVideos, accessed, Videos.setSession, view, hu]
  · show routeOf _ j (s.videos.routes j) = s.routeOf j (s.videos.routes j)
    cases s.videos.routes j with
    | calling token' range =>
      simp only [routeOf, withVideos, accessed, Videos.setSession, Function.update_apply]
      by_cases ht : token' = token
      · subst ht
        simp [hn, OnceCell.empty, callerOf]
      · simp [ht]
    | _ => rfl

omit [DecidableEq ι] in
theorem callerOf_ne_found (b : Bool) (x : Caller Walk PreflightError ActiveStream) {u : String} :
    callerOf u b x ≠ .found token := by
  cases x with
  | working p =>
    rw [callerOf]
    split <;> rintro ⟨⟩
  | away | waiting | got | failed | gone => rintro ⟨⟩

omit [DecidableEq ι] in
theorem view_accessed : (s.accessed token).view =
    s.view.setSession token ({ · with lastAccess := s.clock }) := by
  refine congrArg (fun sessions => ({ s.view with sessions } : Streaming.Server String ι))
    (funext fun u => ?_)
  by_cases hu : u = token
  · subst hu
    simp only [view, accessed, Function.update_self, if_true, Option.map_map]
    rfl
  · simp [view, accessed, hu]

theorem seen_touch (h : s.view.requests i = .found token) :
    Seen gc s.view ((s.accessed token).markTouched i true).view := by
  have hroute : ∃ range, s.videos.routes i = .found token range := by
    simp only [view] at h
    cases hi : s.videos.routes i with
    | coming | gone => simp [hi, routeOf] at h
    | found token' range =>
      simp only [hi, routeOf] at h
      split at h
      · cases h
      · cases h
        exact ⟨range, rfl⟩
    | responded token' range r =>
      simp only [hi, routeOf] at h
      split at h <;> simp at h
    | calling token' range =>
      simp only [hi, routeOf] at h
      split at h
      · exact absurd h (callerOf_ne_found _ _)
      · cases h
  obtain ⟨range, hi⟩ := hroute
  have hview : ((s.accessed token).markTouched i true).view =
      (s.view.setSession token ({ · with lastAccess := s.clock })).setRequest i
        (.touched token) := by
    rw [markTouched, view_marks (i := i) fun j hji => ⟨Function.update_of_ne hji _ _, rfl⟩,
      view_accessed]
    refine congrArg _ ?_
    show routeOf _ i (s.videos.routes i) = _
    simp only [hi, routeOf, Function.update_self, if_true]
  refine hview ▸ seen_step (a := .touch i) ?_
  simp only [Streaming.Server.step, h]
  rfl

theorem seen_of_step {a : SiteAct ι} (hk : s.videos.Kept cfg) (h : s.step cfg gc a = some s') :
    Seen gc s.view s'.view := by
  cases a with
  | advance ms =>
    cases h
    exact seen_step (a := .advance ms) rfl
  | registerGroup token candidates =>
    obtain ⟨t, ht, rfl⟩ := Option.map_eq_some_iff.mp h
    exact seen_registerGroup ht
  | get i tokenWithExt range =>
    obtain ⟨t, ht, rfl⟩ := Option.map_eq_some_iff.mp h
    exact seen_get ht
  | touch i =>
    simp only [step] at h
    split at h
    · next token hreq =>
      cases h
      exact seen_touch hreq
    · cases h
  | readPool i servers =>
    obtain ⟨ht, h⟩ := Option.ite_none_right_eq_some.mp h
    exact seen_readPool ht h
  | enter i =>
    obtain ⟨t, ht, rfl⟩ := Option.map_eq_some_iff.mp h
    exact seen_enter ht
  | openFile i =>
    simp only [step] at h
    split at h
    · next token hreq =>
      cases h
      exact seen_openFile (.inl hreq)
    · next token hreq =>
      cases h
      exact seen_openFile (.inr hreq)
    · cases h
  | probe i net =>
    obtain ⟨t, ht, rfl⟩ := Option.map_eq_some_iff.mp h
    exact seen_probe hk ht
  | respond i => exact seen_respond h
  | write i bytes =>
    simp only [step] at h
    split at h
    · next token hreq =>
      cases h
      refine seen_step (a := .write i bytes) ?_
      simp only [Streaming.Server.step, hreq]
      rfl
    · cases h
  | close i => exact seen_close hk h
  | runOnce order =>
    obtain ⟨t, ht, rfl⟩ := Option.map_eq_some_iff.mp h
    have hview : (s.swept t).view = t := by
      obtain ⟨p, rfl | ⟨u, rfl | ⟨-, rfl⟩⟩⟩ := Streaming.Server.runOnce_shape ht <;> rfl
    exact hview.symm ▸ seen_step (a := .runOnce order) ht

/-- **Every run of the site is, as the collector sees it, a run of the requests and passes of
`gc.rs`.** -/
theorem view_reaches {t : Site ι} (hk : s.videos.Kept cfg) (h : Site.Reaches cfg gc s t) :
    Seen gc s.view t.view := by
  have hkept : ∀ (t : Site ι) a u, Videos.Kept cfg t.videos → True → step cfg gc t a = some u →
      Videos.Kept cfg u.videos := by
    intro t a u hk _ hs
    refine (videos_step hs).inv (I := fun v => Videos.Kept cfg v) hk fun v b w hv _ hw => ?_
    exact (Videos.step_effect hv hw).kept hv
  exact h.simulated (I := fun t => t.videos.Kept cfg) hk hkept
    fun t _ u hk _ hs => seen_of_step hk hs

/-! ## Both at once -/

/-- One upload, one request, and its response. -/
abbrev played : List (SiteAct Nat) :=
  [.registerGroup "t" [upload "a"], .get 0 "t.mkv" none, .touch 0, .readPool 0 true, .enter 0,
    .openFile 0, .probe 0 (onePost 10 4), .respond 0]

theorem exists_played : ∃ s : Site Nat, ∃ range r,
    Site.Reaches noReadAhead ⟨10, 1000, 5⟩ (.init 0 0) s ∧
      s.videos.routes 0 = .responded "t" range r ∧ r.status = 200 := by
  obtain ⟨s, h, hp⟩ := exists_of_exec_free (Site.step noReadAhead ⟨10, 1000, 5⟩) (.init 0 0) played
    (fun s => (s.videos.routes 0).answers 200) rfl
  obtain ⟨range, r, hi, hr⟩ := Route.responded_of_answers hp
  exact ⟨s, range, r, h, hi, hr⟩

section
variable {clock otherBytes : Nat} {r : Response}

/-- **The site refines both models**: of the requests with their candidates and responses, and of
the sessions with their files and the collector. -/
theorem site_refines (h : Site.Reaches cfg gc (.init clock otherBytes) s) :
    Videos.Reaches cfg .init s.videos ∧ Seen gc (.init clock otherBytes) s.view :=
  ⟨videos_reaches h, view_reaches Videos.kept_init h⟩

theorem site_refines_played : ∃ s : Site Nat,
    (∃ range r, s.videos.routes 0 = .responded "t" range r ∧ r.status = 200) ∧
      Videos.Reaches noReadAhead .init s.videos ∧ Seen ⟨10, 1000, 5⟩ (.init 0 0) s.view := by
  obtain ⟨s, range, r, h, hi, hr⟩ := exists_played
  exact ⟨s, ⟨range, r, hi, hr⟩, site_refines h⟩

/-- **A stream that was served has its file, or its session is removed for good.** -/
theorem served_from_file (h : Site.Reaches cfg gc (.init clock otherBytes) s)
    (hi : s.videos.routes i = .responded token range r) (hr : r.status ∈ [200, 206])
    (h' : Site.Reaches cfg gc s s') :
    ∃ session active, s.videos.sessions token = some session ∧
      session.active.value = some active ∧ r.Announces cfg range active ∧
      (∃ later, s'.videos.sessions token = some { session with active := later } ∧
        later.value = some active) ∧
      (token ∈ s'.videos.registry ∧ token ∈ s'.files.map (·.1) ∨
        ∀ t, Site.Reaches cfg gc s' t → token ∉ t.videos.registry) := by
  have hk : s.videos.Kept cfg := Videos.kept_reaches (videos_reaches h)
  have hk' : s'.videos.Kept cfg := Videos.kept_reaches (videos_reaches (h.trans h'))
  cases hk.routes i token range r hi with
  | unknown | serverless | refused => simp [Response.ofText] at hr
  | @served session active hs hv =>
    obtain ⟨later, hs', hstays, -⟩ := Videos.grows_reaches hk (videos_reaches h') token session hs
    have hlater := (hstays active hv).1
    have hses := sessions_view hs'
    refine ⟨session, active, hs, hv, cfg.announces token range active, ⟨later, hs', hlater⟩, ?_⟩
    by_cases hreg : token ∈ s'.videos.registry
    · have hretained : s'.view.Retained :=
        Streaming.Server.retained_of_reaches (view_reaches Videos.kept_init (h.trans h'))
      exact .inl ⟨hreg, hretained token hreg (.inl ⟨_, hses, by simp [cellOf, hlater]⟩)⟩
    · refine .inr fun t ht => ?_
      have hremoved : s'.view.Removed token := ⟨by rw [hses]; rintro ⟨⟩, hreg⟩
      exact ((view_reaches hk' ht).inv (I := (Streaming.Server.Removed · token)) hremoved
        fun _ _ _ hv _ hs => hv.step hs).2

theorem served_from_file_played : ∃ s : Site Nat, ∃ range r session active,
    s.videos.routes 0 = .responded "t" range r ∧ r.status = 200 ∧
      s.videos.sessions "t" = some session ∧ session.active.value = some active ∧
      r.Announces noReadAhead range active ∧
      (∃ later, s.videos.sessions "t" = some { session with active := later } ∧
        later.value = some active) ∧
      ("t" ∈ s.videos.registry ∧ "t" ∈ s.files.map (·.1) ∨
        ∀ t, Site.Reaches noReadAhead ⟨10, 1000, 5⟩ s t → "t" ∉ t.videos.registry) := by
  obtain ⟨s, range, r, h, hi, hr⟩ := exists_played
  obtain ⟨session, active, hp⟩ := served_from_file h hi (by rw [hr]; decide) (.refl s)
  exact ⟨s, range, r, session, active, hi, hr, hp⟩

end

end Site

end StremioNzb.Addon

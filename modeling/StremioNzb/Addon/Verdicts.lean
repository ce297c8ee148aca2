import StremioNzb.Addon.Availability
import StremioNzb.Addon.Sanity
import StremioNzb.Lib.Except

/-!
# Cached verdicts

`check_nzb_sanity` and `check_nzb_availability` over their caches, with the fetch caches below
the first. Checks overlap, and entries may be dropped at any time. The log keeps every verdict
that was ever cached, with what it came from.
-/

namespace StremioNzb.Addon

open StremioNzb.Lib StremioNzb.Streaming

structure CheckEnv where
  fetch : FetchEnv
  probe : ProbeEnv

def sanityTtl : Nat := secs (7 * 86400)

def availabilityTtl : Nat := secs 86400

def CheckEnv.sanityKey (env : CheckEnv) (url : String) : String :=
  "nzb-sanity:" ++ env.fetch.sha1Short url

/-! ## Checks -/

inductive CheckCall where
  | idle
  | fetchingSanity (url : String)
  | sanity (url : String) (result : SanityResult)
  | probing (servers : List String) (url : String)
  | availability (servers : List String) (url : String) (result : AvailabilityResult)
  deriving DecidableEq

/-- A verdict that was cached, and what it came from. -/
inductive Inserted where
  | sanity (url : String) (source : Except NzbFetchError String) (result : SanityResult)
  | availability (servers : List String) (url : String) (source : Except ProbeFailure Unit)
      (result : AvailabilityResult)

structure Checks (ι : Type) where
  fetch : FetchCaches
  sanity : TtlCache String SanityResult
  availability : TtlCache String AvailabilityResult
  calls : ι → CheckCall
  log : List Inserted

def Checks.init {ι : Type} : Checks ι :=
  ⟨.empty, TtlCache.empty, TtlCache.empty, fun _ => .idle, []⟩

inductive CheckAct (ι : Type) where
  | beginSanity (i : ι) (url : String) (now : Nat)
  | endSanity (i : ι) (answers : Nat → Upstream) (now : Nat)
  | beginAvailability (i : ι) (servers : List String) (url : String) (now : Nat)
  | endAvailability (i : ι) (upstream : Upstream) (answers : BodyAnswers) (now : Nat)
  /-- An entry is evicted or invalidated. -/
  | drop (key : String)

variable {ι : Type} [DecidableEq ι]

namespace Checks

def goto (s : Checks ι) (i : ι) (call : CheckCall) : Checks ι :=
  { s with calls := Function.update s.calls i call }

/-- Cache the verdict on what was fetched and return it. -/
def cacheSanity (env : CheckEnv) (s : Checks ι) (i : ι) (url : String) (now : Nat)
    (source : Except NzbFetchError String) : Checks ι :=
  let result := sanityVerdict env.probe.classes source
  { s.goto i (.sanity url result) with
    sanity := s.sanity.insert now (env.sanityKey url) result
    log := .sanity url source result :: s.log }

def cacheAvailability (env : CheckEnv) (s : Checks ι) (i : ι) (servers : List String)
    (url : String) (now : Nat) (source : Except ProbeFailure Unit) : Checks ι :=
  let result := availabilityVerdict source
  { s.goto i (.availability servers url result) with
    availability := s.availability.insert now (env.probe.availKey url servers) result
    log := .availability servers url source result :: s.log }

def beginSanity (env : CheckEnv) (s : Checks ι) (i : ι) (url : String) (now : Nat) : Checks ι :=
  match s.sanity.get sanityTtl now (env.sanityKey url) with
  | some hit => s.goto i (.sanity url hit)
  | none => match s.fetch.lookup env.fetch now url with
    | some source => s.cacheSanity env i url now source
    | none => s.goto i (.fetchingSanity url)

def endSanity (env : CheckEnv) (s : Checks ι) (i : ι) (url : String)
    (answers : Nat → Upstream) (now : Nat) : Checks ι :=
  let source := (env.fetch.fetchWithRetry answers).1
  { s with fetch := s.fetch.settle env.fetch now url source }.cacheSanity env i url now source

def beginAvailability (env : CheckEnv) (s : Checks ι) (i : ι) (servers : List String)
    (url : String) (now : Nat) : Checks ι :=
  match s.availability.get availabilityTtl now (env.probe.availKey url servers) with
  | some hit => s.goto i (.availability servers url hit)
  | none => s.goto i (.probing servers url)

def endAvailability (env : CheckEnv) (s : Checks ι) (i : ι) (servers : List String)
    (url : String) (upstream : Upstream) (answers : BodyAnswers) (now : Nat) : Checks ι :=
  s.cacheAvailability env i servers url now (env.probe.probe servers upstream answers)

end Checks

def checkStep (env : CheckEnv) (s : Checks ι) : CheckAct ι → Option (Checks ι)
  | .beginSanity i url now => match s.calls i with
    | .idle => some (s.beginSanity env i url now)
    | _ => none
  | .endSanity i answers now => match s.calls i with
    | .fetchingSanity url => some (s.endSanity env i url answers now)
    | _ => none
  | .beginAvailability i servers url now => match s.calls i with
    | .idle => some (s.beginAvailability env i servers url now)
    | _ => none
  | .endAvailability i upstream answers now => match s.calls i with
    | .probing servers url => some (s.endAvailability env i servers url upstream answers now)
    | _ => none
  | .drop key => some { s with
      sanity := s.sanity.invalidate key
      availability := s.availability.invalidate key
      fetch := { s.fetch with
        bytes := s.fetch.bytes.invalidate key
        throttle := s.fetch.throttle.invalidate key } }

/-! ## Verdicts that may be cached -/

/-- A 4xx status, or too large. -/
def Rejection : NzbFetchError → Prop
  | .httpStatus code => 400 ≤ code ∧ code < 500
  | .tooLarge _ => True
  | .network _ => False
  | .indexerThrottled => False

/-- A rejection, a fault of the NZB that was fetched, or an article that is missing. -/
def ProbeFailure.Definite : ProbeFailure → Prop
  | httpStatus code => 400 ≤ code ∧ code < 500
  | tooLarge _ | parseFailed _ | noFiles | noSegments | missingOnServer _ => True
  | fetchFailed _ | readFailed _ | probeError _ _ => False

/-- The structural verdict on a body that was fetched, or a rejection; no verdict of
unavailability but a definite one. -/
def Inserted.Lasting (env : CheckEnv) (c : FetchCaches) : Inserted → Prop
  | sanity url source result =>
    (∃ xml url', source = .ok xml ∧ env.fetch.sha1Short url' = env.fetch.sha1Short url ∧
      (url', xml) ∈ c.fetched ∧ result = structuralVerdict env.probe.classes xml) ∨
    ∃ err, source = .error err ∧ Rejection err ∧ result = failureVerdict err
  | availability _ _ source result =>
    result.ok = false → ∃ failure, source = .error failure ∧ failure.Definite

/-! ## Steps that cache lasting verdicts -/

/-- Every probe made is answered. -/
def ProbesAnswered (answers : BodyAnswers) (order : List (String × String)) : Prop :=
  ∀ n server id err, order[n]? = some (server, id) → answers n server id = .error err →
    ∃ m server' id', m < n ∧ order[m]? = some (server', id') ∧ answers m server' id' ≠ .ok true

/-- What upstream and the servers answer in this step decides. -/
def Decided (env : CheckEnv) (s : Checks ι) : CheckAct ι → Prop
  | .beginSanity _ url now => s.sanity.get sanityTtl now (env.sanityKey url) = none →
    s.fetch.hit env.fetch now url = none → s.fetch.cooling env.fetch now url = false
  | .endSanity _ answers _ => ∀ n, LastAttempt env.fetch answers n → (answers n).Settled
  | .beginAvailability _ _ _ _ => True
  | .endAvailability i upstream answers _ => ∀ servers url, s.calls i = .probing servers url →
    upstream.Settled ∧ ∀ xml ids, env.probe.fetchText upstream = .ok xml →
      env.probe.canariesOf xml = .ok ids → ProbesAnswered answers (ProbeEnv.probeOrder servers ids)
  | .drop _ => True

/-- What a verdict came from decides. -/
def Inserted.Conclusive : Inserted → Prop
  | sanity _ source _ => ∀ err, source = .error err → Rejection err
  | availability _ _ source _ => ∀ failure, source = .error failure → failure.Definite

theorem not_isSuccess_of_4xx {status : Nat} (h : 400 ≤ status) : isSuccess status = false := by
  rw [isSuccess, decide_eq_false (p := status ≤ 299) (by omega), Bool.and_false]

theorem settled_of_declared {status cl : Nat} {contentLength : Option Nat}
    {text : Except String String} (hs : isSuccess status = true)
    (hcl : contentLength.filter (· > maxNzbSize) = some cl) :
    (Upstream.response status contentLength text).Settled := by
  obtain ⟨hcl, hbig⟩ := Option.filter_eq_some_iff.mp hcl
  exact .inr ⟨hs, .inl ⟨cl, hcl, of_decide_eq_true hbig⟩⟩

theorem not_settled_of_unread {status : Nat} {err : String} {contentLength : Option Nat}
    (hs : isSuccess status = true) (hcl : contentLength.filter (· > maxNzbSize) = none) :
    ¬ (Upstream.response status contentLength (.error err)).Settled := by
  rintro (⟨h, -⟩ | ⟨-, ⟨cl, rfl, hbig⟩ | ⟨xml, h⟩⟩)
  · rw [not_isSuccess_of_4xx h] at hs
    cases hs
  · rw [Option.filter_some, if_pos (decide_eq_true hbig)] at hcl
    cases hcl
  · cases h

theorem settled_of_not_success {status : Nat} {contentLength : Option Nat}
    {text : Except String String} (hs : isSuccess status = false) :
    (Upstream.response status contentLength text).Settled ↔ 400 ≤ status ∧ status < 500 := by
  simp [Upstream.Settled, hs]

theorem settled_of_ok {status : Nat} {contentLength : Option Nat} {xml : String}
    (hs : isSuccess status = true) : (Upstream.response status contentLength (.ok xml)).Settled :=
  .inr ⟨hs, .inr ⟨xml, rfl⟩⟩

theorem rejection_iff (env : FetchEnv) (u : Upstream) :
    (∀ err, env.tryOnce u = .error err → Rejection err) ↔ u.Settled := by
  cases u using Upstream.readCases with
  | sendFailed err => simp [FetchEnv.tryOnce, Upstream.Settled, Rejection]
  | refused status contentLength text hs =>
    simp [FetchEnv.tryOnce, hs, settled_of_not_success hs, Rejection]
  | declared status contentLength text cl hs hcl =>
    simp [FetchEnv.tryOnce, hs, hcl, settled_of_declared hs hcl, Rejection]
  | unread status contentLength err hs hcl =>
    simp [FetchEnv.tryOnce, hs, hcl, not_settled_of_unread hs hcl, Rejection]
  | tooLong status contentLength xml hs hcl hx =>
    simp [FetchEnv.tryOnce, hs, hcl, hx, settled_of_ok hs, Rejection]
  | body status contentLength xml hs hcl hx =>
    simp [FetchEnv.tryOnce, hs, hcl, hx, settled_of_ok hs]

theorem fetchText_definite_iff (env : ProbeEnv) (u : Upstream) :
    (∀ failure, env.fetchText u = .error failure → failure.Definite) ↔ u.Settled := by
  cases u using Upstream.readCases with
  | sendFailed err => simp [ProbeEnv.fetchText, Upstream.Settled, ProbeFailure.Definite]
  | refused status contentLength text hs =>
    simp [ProbeEnv.fetchText, hs, settled_of_not_success hs, ProbeFailure.Definite]
  | declared status contentLength text cl hs hcl =>
    simp [ProbeEnv.fetchText, hs, hcl, settled_of_declared hs hcl, ProbeFailure.Definite]
  | unread status contentLength err hs hcl =>
    simp [ProbeEnv.fetchText, hs, hcl, not_settled_of_unread hs hcl, ProbeFailure.Definite]
  | tooLong status contentLength xml hs hcl hx =>
    simp [ProbeEnv.fetchText, hs, hcl, hx, settled_of_ok hs, ProbeFailure.Definite]
  | body status contentLength xml hs hcl hx =>
    simp [ProbeEnv.fetchText, hs, hcl, hx, settled_of_ok hs]

/-! ### The probes -/

theorem probesAnswered_nil {answers : BodyAnswers} : ProbesAnswered answers [] :=
  fun n _ _ _ h => by simp at h

theorem probesAnswered_cons {answers : BodyAnswers} {server id : String}
    {rest : List (String × String)} : ProbesAnswered answers ((server, id) :: rest) ↔
      (∀ err, answers 0 server id ≠ .error err) ∧
      (answers 0 server id = .ok true → ProbesAnswered (fun n => answers (n + 1)) rest) := by
  constructor
  · intro h
    refine ⟨fun err he => ?_, fun ht n server' id' err hn he => ?_⟩
    · obtain ⟨m, _, _, hm, -⟩ := h 0 server id err rfl he
      exact absurd hm (Nat.not_lt_zero m)
    · obtain ⟨m, server'', id'', hm, hget, hne⟩ := h (n + 1) server' id' err hn he
      cases m with
      | zero =>
        cases hget
        exact absurd ht hne
      | succ m => exact ⟨m, server'', id'', Nat.lt_of_succ_lt_succ hm, hget, hne⟩
  · rintro ⟨h0, hrest⟩ n server' id' err hn he
    by_cases ht : answers 0 server id = .ok true
    · cases n with
      | zero =>
        cases hn
        exact absurd he (h0 err)
      | succ n =>
        obtain ⟨m, server'', id'', hm, hget, hne⟩ := hrest ht n server' id' err hn he
        exact ⟨m + 1, server'', id'', Nat.succ_lt_succ hm, hget, hne⟩
    · cases n with
      | zero =>
        cases hn
        exact absurd he (h0 err)
      | succ n => exact ⟨0, server, id, Nat.succ_pos n, rfl, ht⟩

/-- The failures of the probes from the `k`-th on are definite exactly when each is answered. -/
theorem probeAll_definite_iff (env : ProbeEnv) (answers : BodyAnswers) :
    ∀ (order : List (String × String)) (k : Nat),
      (∀ failure, env.probeAll answers k order = .error failure → failure.Definite) ↔
        ProbesAnswered (fun n => answers (k + n)) order
  | [], k => by simp [ProbeEnv.probeAll, probesAnswered_nil]
  | (server, id) :: rest, k => by
    have ih := probeAll_definite_iff env answers rest (k + 1)
    have hshift : (fun n => answers (k + (n + 1))) = fun n => answers (k + 1 + n) :=
      funext fun n => by rw [Nat.add_right_comm, Nat.add_assoc]
    rw [ProbeEnv.probeAll, probesAnswered_cons, hshift, ← ih, Nat.add_zero]
    cases ha : answers k server id with
    | error err => simp [ProbeFailure.Definite]
    | ok found =>
      cases found with
      | true => simp
      | false => simp [ProbeFailure.Definite]

theorem canaries_error {cls : CharClasses} {nzb : Nzb} {failure : ProbeFailure}
    (h : canaries cls nzb = .error failure) : failure.Definite := by
  unfold canaries fallbackCanaries at h
  split at h
  · cases h
  · split at h
    · cases h
      exact trivial
    · split at h
      · cases h
        exact trivial
      · cases h

theorem canariesOf_error {env : ProbeEnv} {xml : String} {failure : ProbeFailure}
    (h : env.canariesOf xml = .error failure) : failure.Definite := by
  unfold ProbeEnv.canariesOf at h
  cases hp : env.parseNzb xml with
  | error err =>
    rw [hp] at h
    cases h
    exact trivial
  | ok nzb =>
    rw [hp] at h
    exact canaries_error h

theorem probe_definite_iff (env : ProbeEnv) (servers : List String) (u : Upstream)
    (answers : BodyAnswers) :
    (∀ failure, env.probe servers u answers = .error failure → failure.Definite) ↔
      u.Settled ∧ ∀ xml ids, env.fetchText u = .ok xml → env.canariesOf xml = .ok ids →
        ProbesAnswered answers (ProbeEnv.probeOrder servers ids) := by
  have hall : ∀ ids, (∀ failure,
      env.probeAll answers 0 (ProbeEnv.probeOrder servers ids) = .error failure →
        failure.Definite) ↔ ProbesAnswered answers (ProbeEnv.probeOrder servers ids) := by
    intro ids
    simpa only [Nat.zero_add] using
      probeAll_definite_iff env answers (ProbeEnv.probeOrder servers ids) 0
  rw [ProbeEnv.probe, forall_bind_error, fetchText_definite_iff]
  refine and_congr_right fun _ => ?_
  constructor
  · intro h xml ids hx hids
    exact (hall ids).mp ((forall_bind_error.mp (h xml hx)).2 ids hids)
  · intro h xml hx
    -- what goes wrong before the probes is definite
    exact forall_bind_error.mpr ⟨fun _ hc => canariesOf_error hc,
      fun ids hids => (hall ids).mpr (h xml ids hx hids)⟩

/-! ## What every run keeps -/

/-- A verdict is that on what it came from, and the body it came from was fetched. -/
def Inserted.Sourced (env : CheckEnv) (c : FetchCaches) : Inserted → Prop
  | sanity url source result => result = sanityVerdict env.probe.classes source ∧
    ∀ xml, source = .ok xml → ∃ url', env.fetch.sha1Short url' = env.fetch.sha1Short url ∧
      (url', xml) ∈ c.fetched
  | availability _ _ source result => result = availabilityVerdict source

/-- A check of a URL of that key cached that verdict. -/
def SanityLogged (env : CheckEnv) (log : List Inserted) (key : String) (result : SanityResult) :
    Prop := ∃ url source, env.sanityKey url = key ∧ .sanity url source result ∈ log

def AvailabilityLogged (env : CheckEnv) (log : List Inserted) (key : String)
    (result : AvailabilityResult) : Prop :=
  ∃ servers url source, env.probe.availKey url servers = key ∧
    .availability servers url source result ∈ log

/-- What a call returned was cached, by itself or by an earlier one. -/
def CheckCall.Logged (env : CheckEnv) (log : List Inserted) : CheckCall → Prop
  | sanity url result => SanityLogged env log (env.sanityKey url) result
  | availability servers url result =>
    AvailabilityLogged env log (env.probe.availKey url servers) result
  | _ => True

structure CheckInv (env : CheckEnv) (s : Checks ι) : Prop where
  bytes : BytesFetched env.fetch Set.univ s.fetch
  sourced : ∀ e ∈ s.log, e.Sourced env s.fetch
  sanity : s.sanity.All (SanityLogged env s.log)
  availability : s.availability.All (AvailabilityLogged env s.log)
  calls : ∀ i, (s.calls i).Logged env s.log

section
variable {env : CheckEnv} {s : Checks ι} {i : ι} {url : String} {now : Nat}

theorem lasting_iff {c : FetchCaches} {e : Inserted} (h : e.Sourced env c) :
    e.Lasting env c ↔ e.Conclusive := by
  cases e with
  | sanity url source result =>
    obtain ⟨rfl, hsrc⟩ := h
    cases source with
    | ok xml =>
      obtain ⟨url', hkey, hmem⟩ := hsrc xml rfl
      refine iff_of_true (.inl ⟨xml, url', rfl, hkey, hmem, rfl⟩) fun err herr => ?_
      cases herr
    | error err => simp [Inserted.Lasting, Inserted.Conclusive, sanityVerdict]
  | availability servers url source result =>
    obtain rfl := h
    cases source with
    | ok u => simp [Inserted.Lasting, Inserted.Conclusive, availabilityVerdict]
    | error failure => simp [Inserted.Lasting, Inserted.Conclusive, availabilityVerdict]

/-- A longer log, and more bodies fetched, keep what is known of the entries. -/
theorem SanityLogged.cons {log : List Inserted} {key : String} {result : SanityResult}
    (h : SanityLogged env log key result) (e : Inserted) :
    SanityLogged env (e :: log) key result := by
  obtain ⟨url, source, hk, hm⟩ := h
  exact ⟨url, source, hk, List.mem_cons_of_mem e hm⟩

theorem AvailabilityLogged.cons {log : List Inserted} {key : String}
    {result : AvailabilityResult} (h : AvailabilityLogged env log key result) (e : Inserted) :
    AvailabilityLogged env (e :: log) key result := by
  obtain ⟨servers, url, source, hk, hm⟩ := h
  exact ⟨servers, url, source, hk, List.mem_cons_of_mem e hm⟩

theorem CheckCall.Logged.cons {log : List Inserted} {call : CheckCall}
    (h : call.Logged env log) (e : Inserted) : call.Logged env (e :: log) := by
  cases call with
  | sanity url result => exact SanityLogged.cons h e
  | availability servers url result => exact AvailabilityLogged.cons h e
  | _ => trivial

/-- Where every call was logged before and the one that moves is now, every call is. -/
theorem logged_update {log : List Inserted} {calls : ι → CheckCall} {call : CheckCall}
    (h : ∀ j, (calls j).Logged env log) (hc : call.Logged env log) (j : ι) :
    (Function.update calls i call j).Logged env log := by
  rcases eq_of_update (Eq.refl (Function.update calls i call j)) with hj | hj
  · exact hj ▸ hc
  · exact hj ▸ h j

theorem CheckInv.goto (h : CheckInv env s) {call : CheckCall} (hc : call.Logged env s.log) :
    CheckInv env (s.goto i call) :=
  ⟨h.bytes, h.sourced, h.sanity, h.availability, logged_update h.calls hc⟩

theorem CheckInv.cacheSanity (h : CheckInv env s) {source : Except NzbFetchError String}
    (hsrc : ∀ xml, source = .ok xml → ∃ url', env.fetch.sha1Short url' = env.fetch.sha1Short url ∧
      (url', xml) ∈ s.fetch.fetched) : CheckInv env (s.cacheSanity env i url now source) := by
  have hnew : SanityLogged env ((s.cacheSanity env i url now source).log) (env.sanityKey url)
      (sanityVerdict env.probe.classes source) := ⟨url, source, rfl, List.mem_cons_self⟩
  refine ⟨h.bytes, fun e he => ?_, ?_, h.availability.imp fun _ _ h => h.cons _,
    logged_update (fun j => (h.calls j).cons _) hnew⟩
  · rcases List.mem_cons.mp he with rfl | he
    · exact ⟨rfl, hsrc⟩
    · exact h.sourced e he
  · exact (h.sanity.imp fun _ _ h => h.cons _).insert hnew

theorem CheckInv.cacheAvailability (h : CheckInv env s) {servers : List String}
    {source : Except ProbeFailure Unit} :
    CheckInv env (s.cacheAvailability env i servers url now source) := by
  have hnew : AvailabilityLogged env (s.cacheAvailability env i servers url now source).log
      (env.probe.availKey url servers) (availabilityVerdict source) :=
    ⟨servers, url, source, rfl, List.mem_cons_self⟩
  refine ⟨h.bytes, fun e he => ?_, h.sanity.imp fun _ _ h => h.cons _, ?_,
    logged_update (fun j => (h.calls j).cons _) hnew⟩
  · rcases List.mem_cons.mp he with rfl | he
    · exact rfl
    · exact h.sourced e he
  · exact (h.availability.imp fun _ _ h => h.cons _).insert hnew

theorem Inserted.Sourced.mono {c c' : FetchCaches} {e : Inserted} (h : e.Sourced env c)
    (hc : c.fetched ⊆ c'.fetched) : e.Sourced env c' := by
  cases e with
  | sanity url source result =>
    refine ⟨h.1, fun xml hx => ?_⟩
    obtain ⟨url', hk, hm⟩ := h.2 xml hx
    exact ⟨url', hk, hc hm⟩
  | availability servers url source result => exact h

theorem fetched_subset_settle (c : FetchCaches) (source : Except NzbFetchError String) :
    c.fetched ⊆ (c.settle env.fetch now url source).fetched := by
  unfold FetchCaches.settle
  split
  · exact List.subset_cons_self _ _
  · split
    · exact List.Subset.refl _
    · exact List.Subset.refl _
  · exact List.Subset.refl _

omit [DecidableEq ι] in
theorem CheckInv.settle (h : CheckInv env s) (source : Except NzbFetchError String) :
    CheckInv env { s with fetch := s.fetch.settle env.fetch now url source } :=
  ⟨bytesFetched_settle h.bytes (Set.mem_univ url) now source,
    fun e he => (h.sourced e he).mono (fetched_subset_settle s.fetch source),
    h.sanity, h.availability, h.calls⟩

omit [DecidableEq ι] in
/-- A body that a call gets without a request was fetched from a URL of that key. -/
theorem fetched_of_lookup (h : CheckInv env s) {xml : String}
    (hl : s.fetch.lookup env.fetch now url = some (.ok xml)) :
    ∃ url', env.fetch.sha1Short url' = env.fetch.sha1Short url ∧ (url', xml) ∈ s.fetch.fetched := by
  unfold FetchCaches.lookup at hl
  split at hl
  · next xml' hhit =>
    cases hl
    obtain ⟨url', -, hk, hm⟩ := h.bytes.get hhit
    exact ⟨url', (String.append_right_inj _).mp hk, hm⟩
  · split at hl
    · cases hl
    · cases hl

theorem CheckInv.drop (h : CheckInv env s) (key : String) {t : Checks ι}
    (ht : checkStep env s (.drop key) = some t) : CheckInv env t := by
  cases ht
  refine ⟨?_, h.sourced, h.sanity.invalidate, h.availability.invalidate, h.calls⟩
  exact TtlCache.All.invalidate h.bytes

/-- What a step adds to the log. -/
inductive Adds (env : CheckEnv) (s : Checks ι) (a : CheckAct ι) (t : Checks ι) : Prop where
  | nothing : t.log = s.log → Decided env s a → Adds env s a t
  | verdict (e : Inserted) : t.log = e :: s.log → (e.Conclusive ↔ Decided env s a) →
    Adds env s a t

omit [DecidableEq ι] in
/-- Without a request a body of the byte cache is conclusive, and a cooldown is not. -/
theorem conclusive_of_lookup {source : Except NzbFetchError String} {result : SanityResult}
    (hmiss : s.sanity.get sanityTtl now (env.sanityKey url) = none)
    (hl : s.fetch.lookup env.fetch now url = some source) :
    (Inserted.sanity url source result).Conclusive ↔ Decided env s (.beginSanity i url now) := by
  unfold FetchCaches.lookup at hl
  split at hl
  · next xml hhit =>
    cases hl
    refine iff_of_true (fun err herr => by cases herr) fun _ hn => ?_
    rw [hhit] at hn
    cases hn
  · next hnone =>
    split at hl
    · next hcool =>
      cases hl
      refine iff_of_false (fun hc => hc _ rfl) fun hd => ?_
      rw [hd hmiss hnone] at hcool
      cases hcool
    · cases hl

theorem CheckInv.beginSanity (h : CheckInv env s) :
    CheckInv env (s.beginSanity env i url now) ∧
      Adds env s (.beginSanity i url now) (s.beginSanity env i url now) := by
  unfold Checks.beginSanity
  split
  · next hit hh =>
    refine ⟨h.goto (h.sanity.get hh), .nothing rfl fun hn => ?_⟩
    rw [hh] at hn
    cases hn
  · next hmiss =>
    split
    · next source hl =>
      exact ⟨h.cacheSanity fun xml hx => fetched_of_lookup h (hx ▸ hl),
        .verdict _ rfl (conclusive_of_lookup hmiss hl)⟩
    · next hl =>
      refine ⟨h.goto trivial, .nothing rfl fun _ hnone => ?_⟩
      by_contra hcool
      simp [FetchCaches.lookup, hnone, hcool] at hl

theorem CheckInv.endSanity (h : CheckInv env s) (answers : Nat → Upstream) :
    CheckInv env (s.endSanity env i url answers now) ∧
      Adds env s (.endSanity i answers now) (s.endSanity env i url answers now) := by
  obtain ⟨n, hn⟩ := exists_lastAttempt env.fetch answers
  have hsource : (env.fetch.fetchWithRetry answers).1 = env.fetch.tryOnce (answers n) := by
    rw [fetchWithRetry_eq hn]
  unfold Checks.endSanity
  rw [hsource]
  refine ⟨(h.settle _).cacheSanity fun xml hx => ?_, .verdict _ rfl ?_⟩
  · simp only
    rw [hx]
    exact ⟨url, rfl, List.mem_cons_self⟩
  · refine (rejection_iff env.fetch (answers n)).trans ?_
    exact ⟨fun hs m hm => hn.unique hm ▸ hs, fun hs => hs n hn⟩

theorem CheckInv.beginAvailability (h : CheckInv env s) (servers : List String) :
    CheckInv env (s.beginAvailability env i servers url now) ∧
      Adds env s (.beginAvailability i servers url now)
        (s.beginAvailability env i servers url now) := by
  unfold Checks.beginAvailability
  split
  · next hit hh => exact ⟨h.goto (h.availability.get hh), .nothing rfl trivial⟩
  · exact ⟨h.goto trivial, .nothing rfl trivial⟩

theorem CheckInv.endAvailability (h : CheckInv env s) {servers : List String}
    (hi : s.calls i = .probing servers url) (upstream : Upstream) (answers : BodyAnswers) :
    CheckInv env (s.endAvailability env i servers url upstream answers now) ∧
      Adds env s (.endAvailability i upstream answers now)
        (s.endAvailability env i servers url upstream answers now) := by
  refine ⟨h.cacheAvailability, .verdict _ rfl ?_⟩
  refine (probe_definite_iff env.probe servers upstream answers).trans ?_
  constructor
  · intro hd servers' url' hi'
    obtain ⟨rfl, rfl⟩ := CheckCall.probing.inj (hi.symm.trans hi')
    exact hd
  · exact fun hd => hd servers url hi

/-- **A step keeps the invariant, and what it caches is conclusive exactly when it is decided.** -/
theorem CheckInv.step (h : CheckInv env s) {a : CheckAct ι} {t : Checks ι}
    (ht : checkStep env s a = some t) : CheckInv env t ∧ Adds env s a t := by
  cases a with
  | beginSanity i url now =>
    simp only [checkStep] at ht
    split at ht
    · cases ht
      exact h.beginSanity
    · cases ht
  | endSanity i answers now =>
    simp only [checkStep] at ht
    split at ht
    · cases ht
      exact h.endSanity answers
    · cases ht
  | beginAvailability i servers url now =>
    simp only [checkStep] at ht
    split at ht
    · cases ht
      exact h.beginAvailability servers
    · cases ht
  | endAvailability i upstream answers now =>
    simp only [checkStep] at ht
    split at ht
    · next servers url hi =>
      cases ht
      exact h.endAvailability hi upstream answers
    · cases ht
  | drop key => exact ⟨h.drop key ht, .nothing (by cases ht; rfl) trivial⟩

omit [DecidableEq ι] in
theorem checkInv_init : CheckInv env (.init : Checks ι) :=
  ⟨TtlCache.all_empty, by simp [Checks.init], TtlCache.all_empty, TtlCache.all_empty,
    fun _ => trivial⟩

end

/-! ## Runs -/

theorem run_checkInv {env : CheckEnv} {s : Checks ι} {as : List (CheckAct ι)}
    (h : Run (checkStep env) (fun _ _ => True) .init as s) : CheckInv env s :=
  h.inv checkInv_init fun _ _ _ h _ hs => (h.step hs).1

/-- What a run cached is conclusive exactly when each of its steps was decided. -/
theorem run_conclusive_iff {env : CheckEnv} {s : Checks ι} {as : List (CheckAct ι)}
    (h : Run (checkStep env) (fun _ _ => True) .init as s) :
    (∀ e ∈ s.log, e.Conclusive) ↔ Run (checkStep env) (Decided env) .init as s := by
  induction h with
  | nil => exact iff_of_true (by simp [Checks.init]) .nil
  | snoc hr _ hs ih =>
    rw [hr.snoc_iff hs]
    cases ((run_checkInv hr).step hs).2 with
    | nothing hlog hd =>
      rw [hlog]
      exact ⟨fun hall => ⟨ih.mp hall, hd⟩, fun hrun => ih.mpr hrun.1⟩
    | verdict e hlog hd =>
      rw [hlog, List.forall_mem_cons]
      exact ⟨fun hall => ⟨ih.mp hall.2, hd.mp hall.1⟩, fun hrun => ⟨hd.mpr hrun.2, ih.mpr hrun.1⟩⟩

/-- **Every verdict ever cached lasts exactly when every step of the run was decided**, and what
a check returns was cached as a verdict on that key. -/
theorem cached_verdicts_last_iff (env : CheckEnv) (as : List (CheckAct ι)) (s : Checks ι)
    (h : Run (checkStep env) (fun _ _ => True) .init as s) :
    ((∀ e ∈ s.log, e.Lasting env s.fetch) ↔ Run (checkStep env) (Decided env) .init as s) ∧
      ∀ i, (s.calls i).Logged env s.log := by
  have hinv := run_checkInv h
  refine ⟨?_, hinv.calls⟩
  rw [← run_conclusive_iff h]
  exact forall₂_congr fun e he => lasting_iff (hinv.sourced e he)

/-- The hash of that URL as the checks use it; nothing is parsed. -/
def exampleChecks : CheckEnv :=
  ⟨exampleEnv, ⟨id, id, fun _ => .error "not an NZB", asciiClasses, fun _ => "58b52b4152c7a150"⟩⟩

/-- A check of a URL that the indexer answers 404. -/
theorem cached_verdicts_last_notFound : ∃ (as : List (CheckAct Unit)) (s : Checks Unit),
    Run (checkStep exampleChecks) (fun _ _ => True) .init as s ∧
      s.calls () = .sanity exampleUrl ⟨false, some "http-404"⟩ ∧
      ((∀ e ∈ s.log, e.Lasting exampleChecks s.fetch) ↔
        Run (checkStep exampleChecks) (Decided exampleChecks) .init as s) := by
  obtain ⟨s, ⟨as, hr⟩, hp⟩ := exists_of_exec_free (checkStep exampleChecks) .init
    [.beginSanity () exampleUrl 0, .endSanity () (fun _ => .response 404 none (.ok "")) 0]
    (fun s => s.calls () = .sanity exampleUrl ⟨false, some "http-404"⟩) (by decide +kernel)
  exact ⟨as, s, hr, of_decide_eq_true hp, (cached_verdicts_last_iff exampleChecks as s hr).1⟩

/-- The verdict came from a lost connection. -/
def Inserted.fromOutage : Inserted → Bool
  | sanity _ (.error (.network _)) _ => true
  | _ => false

/-- A lost connection is a verdict, and what the next check returns, an hour later. -/
theorem outage_is_cached : ∃ s : Checks Bool,
    Reaches (checkStep exampleChecks) (fun _ _ => True) .init s ∧
      (∃ e ∈ s.log, ¬ e.Lasting exampleChecks s.fetch) ∧
      s.calls true = .sanity exampleUrl ⟨false, some "connection reset"⟩ := by
  obtain ⟨s, hs, hp⟩ := exists_of_exec_free (checkStep exampleChecks) .init
    [.beginSanity false exampleUrl 0,
      .endSanity false (fun _ => .sendFailed "connection reset") 0,
      .beginSanity true exampleUrl (secs 3600)]
    (fun s => s.log.any Inserted.fromOutage ∧
      s.calls true = .sanity exampleUrl ⟨false, some "connection reset"⟩) (by decide +kernel)
  obtain ⟨hlog, hcall⟩ := of_decide_eq_true hp
  obtain ⟨e, he, hout⟩ := List.any_eq_true.mp hlog
  refine ⟨s, hs, ⟨e, he, fun hl => ?_⟩, hcall⟩
  unfold Inserted.fromOutage at hout
  split at hout
  · obtain ⟨_, _, h, -⟩ | ⟨_, h, hr, -⟩ := hl
    · cases h
    · cases h
      exact hr
  · cases hout

end StremioNzb.Addon

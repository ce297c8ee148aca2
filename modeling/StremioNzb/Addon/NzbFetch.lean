import StremioNzb.Lib.Runs
import StremioNzb.Lib.TtlCache
import StremioNzb.Streaming.Preflight

/-!
# Fetching NZBs

`nzb_fetch.rs`: a call looks its URL up in the byte cache and the host of the URL in the
throttle cache (`FetchCaches.lookup`), goes through the retry loop where neither answers
(`fetchWithRetry`), and files the result (`FetchCaches.settle`). Calls overlap: each is a
`begin` and an `end_` step of `fetchStep`, with any steps of the others between.

Times are in nanoseconds.
-/

namespace StremioNzb.Addon

open StremioNzb.Lib StremioNzb.Streaming

def secs (n : Nat) : Nat := n * 1000000000

def maxNzbSize : Nat := 5 * 1024 * 1024

def retryAttempts : Nat := 3

def nzbBytesTtl : Nat := secs (7 * 86400)

def throttleDuration : Nat := secs 300

/-- The hash, the URL parser and the log filter. -/
structure FetchEnv where
  sha1Short : String → String
  hostOf : String → String
  redactLog : String → String

/-! ## One attempt -/

/-- How upstream answers a request for an NZB. -/
inductive Upstream where
  | sendFailed (err : String)
  | response (status : Nat) (contentLength : Option Nat) (text : Except String String)

def isSuccess (status : Nat) : Bool := 200 ≤ status && status ≤ 299

/-- Whether the answer has a status of a server error. -/
def Upstream.is5xx : Upstream → Bool
  | sendFailed _ => false
  | response status _ _ => 500 ≤ status

/-- An answer that decides: a body, one that is too large, or a 4xx status. -/
def Upstream.Settled : Upstream → Prop
  | sendFailed _ => False
  | response status contentLength text => 400 ≤ status ∧ status < 500 ∨
    isSuccess status = true ∧
      ((∃ cl, contentLength = some cl ∧ cl > maxNzbSize) ∨ ∃ xml, text = .ok xml)

/-- The branches in which an answer is read, as `tryOnce` and the availability check share them. -/
@[elab_as_elim]
theorem Upstream.readCases {motive : Upstream → Prop} (u : Upstream)
    (sendFailed : ∀ err, motive (.sendFailed err))
    (refused : ∀ status contentLength text, isSuccess status = false →
      motive (.response status contentLength text))
    (declared : ∀ status contentLength text cl, isSuccess status = true →
      contentLength.filter (· > maxNzbSize) = some cl →
      motive (.response status contentLength text))
    (unread : ∀ status contentLength err, isSuccess status = true →
      contentLength.filter (· > maxNzbSize) = none →
      motive (.response status contentLength (.error err)))
    (tooLong : ∀ status contentLength xml, isSuccess status = true →
      contentLength.filter (· > maxNzbSize) = none → xml.utf8ByteSize > maxNzbSize →
      motive (.response status contentLength (.ok xml)))
    (body : ∀ status contentLength xml, isSuccess status = true →
      contentLength.filter (· > maxNzbSize) = none → ¬ xml.utf8ByteSize > maxNzbSize →
      motive (.response status contentLength (.ok xml))) : motive u := by
  cases u with
  | sendFailed err => exact sendFailed err
  | response status contentLength text =>
    cases hs : isSuccess status with
    | false => exact refused status contentLength text hs
    | true =>
      cases hcl : contentLength.filter (· > maxNzbSize) with
      | some cl => exact declared status contentLength text cl hs hcl
      | none =>
        cases text with
        | error err => exact unread status contentLength err hs hcl
        | ok xml =>
          by_cases hx : xml.utf8ByteSize > maxNzbSize
          · exact tooLong status contentLength xml hs hcl hx
          · exact body status contentLength xml hs hcl hx

def isRetryable : NzbFetchError → Bool
  | .network _ => true
  | .httpStatus code => code ≥ 500
  | .tooLarge _ => false
  | .indexerThrottled => false

namespace FetchEnv
variable (env : FetchEnv)

def tryOnce : Upstream → Except NzbFetchError String
  | .sendFailed err => .error (.network (env.redactLog err))
  | .response status contentLength text =>
    if !isSuccess status then .error (.httpStatus status)
    else match contentLength.filter (· > maxNzbSize) with
      | some cl => .error (.tooLarge cl)
      | none => match text with
        | .error err => .error (.network (env.redactLog err))
        | .ok xml =>
          if xml.utf8ByteSize > maxNzbSize then .error (.tooLarge xml.utf8ByteSize) else .ok xml

/-! ## The retry loop -/

/-- The result, and the number of requests made. -/
def retryLoop (answers : Nat → Upstream) : Nat → Nat → Option NzbFetchError →
    Except NzbFetchError String × Nat
  | 0, attempt, lastErr =>
    (.error (lastErr.getD (.network "retry loop without attempts")), attempt)
  | left + 1, attempt, _ => match env.tryOnce (answers attempt) with
    | .ok xml => (.ok xml, attempt + 1)
    | .error err =>
      if !isRetryable err then (.error err, attempt + 1)
      else retryLoop answers left (attempt + 1) (some err)

def fetchWithRetry (answers : Nat → Upstream) : Except NzbFetchError String × Nat :=
  env.retryLoop answers retryAttempts 0 none

def cacheKey (url : String) : String := "nzb-bytes:" ++ env.sha1Short url

end FetchEnv

/-! ## The caches -/

structure FetchCaches where
  bytes : TtlCache String String
  throttle : TtlCache String Nat
  /-- The bodies fetched so far, with their URLs. -/
  fetched : List (String × String)
  /-- The cooldowns started so far: the host and the end. -/
  cooldowns : List (String × Nat)

namespace FetchCaches

def empty : FetchCaches := ⟨TtlCache.empty, TtlCache.empty, [], []⟩

variable (env : FetchEnv) (c : FetchCaches) (now : Nat) (url : String)

def hit : Option String := c.bytes.get nzbBytesTtl now (env.cacheKey url)

/-- The host of the URL is in a cooldown. -/
def cooling : Bool := (c.throttle.get throttleDuration now (env.hostOf url)).any (· > now)

/-- What a call returns without a request, if anything. -/
def lookup : Option (Except NzbFetchError String) :=
  match c.hit env now url with
  | some xml => some (.ok xml)
  | none => if c.cooling env now url then some (.error .indexerThrottled) else none

/-- File the result of the retry loop. -/
def settle : Except NzbFetchError String → FetchCaches
  | .ok xml =>
    { c with
      bytes := c.bytes.insert now (env.cacheKey url) xml
      fetched := (url, xml) :: c.fetched }
  | .error (.httpStatus code) =>
    if code ≥ 500 then
      { c with
        throttle := c.throttle.insert now (env.hostOf url) (now + throttleDuration)
        cooldowns := (env.hostOf url, now + throttleDuration) :: c.cooldowns }
    else c
  | .error _ => c

end FetchCaches

/-! ## Calls -/

inductive FetchCall where
  | idle
  | fetching (url : String)
  | done (result : Except NzbFetchError String)

structure FetchWorld (ι : Type) where
  caches : FetchCaches
  calls : ι → FetchCall

inductive FetchAct (ι : Type) where
  | begin (i : ι) (url : String) (now : Nat)
  | end_ (i : ι) (answers : Nat → Upstream) (now : Nat)

variable {ι : Type} [DecidableEq ι]

def FetchWorld.init : FetchWorld ι := ⟨.empty, fun _ => .idle⟩

def fetchStep (env : FetchEnv) (s : FetchWorld ι) : FetchAct ι → Option (FetchWorld ι)
  | .begin i url now => match s.calls i with
    | .idle =>
      let call := match s.caches.lookup env now url with
        | some result => .done result
        | none => .fetching url
      some { s with calls := Function.update s.calls i call }
    | _ => none
  | .end_ i answers now => match s.calls i with
    | .fetching url =>
      let result := (env.fetchWithRetry answers).1
      some ⟨s.caches.settle env now url result, Function.update s.calls i (.done result)⟩
    | _ => none

/-- The calls are for these URLs. -/
def FetchAct.For (urls : Set String) : FetchAct ι → Prop
  | .begin _ url _ => url ∈ urls
  | .end_ _ _ _ => True

/-! ## The protocol -/

/-- The attempt is followed by another one, if there are any left. -/
def FetchEnv.retries (env : FetchEnv) (u : Upstream) : Bool :=
  match env.tryOnce u with
  | .ok _ => false
  | .error err => isRetryable err

/-- The retry loop stops after attempt `n`. -/
structure LastAttempt (env : FetchEnv) (answers : Nat → Upstream) (n : Nat) : Prop where
  lt : n < retryAttempts
  retried : ∀ j < n, env.retries (answers j) = true
  last : n + 1 = retryAttempts ∨ env.retries (answers n) = false

/-- What a call owes to the caches when it begins. -/
structure BeginsWell (env : FetchEnv) (c : FetchCaches) (now : Nat) (url : String) : Prop where
  hit : ∀ xml, c.hit env now url = some xml →
    c.lookup env now url = some (.ok xml) ∧ (url, xml) ∈ c.fetched
  cooling : c.hit env now url = none → c.cooling env now url = true →
    c.lookup env now url = some (.error .indexerThrottled)
  requests : c.hit env now url = none → c.cooling env now url = false →
    c.lookup env now url = none

/-- What a call that makes requests owes to upstream and to the caches. -/
structure EndsWell (env : FetchEnv) (c : FetchCaches) (now : Nat) (url : String)
    (answers : Nat → Upstream) : Prop where
  attempts : ∃ n, LastAttempt env answers n ∧
    env.fetchWithRetry answers = (env.tryOnce (answers n), n + 1)
  keeps : ∀ err, (env.fetchWithRetry answers).1 = .error err →
    (c.settle env now url (.error err)).bytes = c.bytes
  cools : ∀ err, (env.fetchWithRetry answers).1 = .error err →
    ((c.settle env now url (.error err)).throttle,
      (c.settle env now url (.error err)).cooldowns) =
    if ∃ j < (env.fetchWithRetry answers).2, (answers j).is5xx = true then
      (c.throttle.insert now (env.hostOf url) (now + throttleDuration),
        (env.hostOf url, now + throttleDuration) :: c.cooldowns)
    else (c.throttle, c.cooldowns)

/-- A call that fails after a 5xx fails with a 5xx. -/
def EndsOn5xx (env : FetchEnv) (answers : Nat → Upstream) : Prop :=
  ∀ n err, LastAttempt env answers n → env.tryOnce (answers n) = .error err →
    (∃ j < n, (answers j).is5xx = true) → (answers n).is5xx = true

section
variable {env : FetchEnv} {answers : Nat → Upstream} {n m : Nat} {c : FetchCaches} {now : Nat}
  {url : String} {u : Upstream}

theorem LastAttempt.unique (h : LastAttempt env answers n) (h' : LastAttempt env answers m) :
    n = m := by
  have hlt := h.lt
  have hlt' := h'.lt
  rcases Nat.lt_trichotomy n m with hnm | rfl | hnm
  · rcases h.last with hl | hl
    · omega
    · exact absurd (h'.retried n hnm) (by simp [hl])
  · rfl
  · rcases h'.last with hl | hl
    · omega
    · exact absurd (h.retried m hnm) (by simp [hl])

/-- The loop from attempt `i` on stops after the last attempt. -/
theorem retryLoop_eq (h : LastAttempt env answers n) : ∀ (left i : Nat)
    (lastErr : Option NzbFetchError), i ≤ n → i + left = retryAttempts →
      env.retryLoop answers left i lastErr = (env.tryOnce (answers n), n + 1)
  | 0, i, lastErr, hi, hleft => absurd h.lt (by omega)
  | left + 1, i, lastErr, hi, hleft => by
    have hlt := h.lt
    rw [FetchEnv.retryLoop]
    rcases Nat.lt_or_eq_of_le hi with hlt' | rfl
    · have hr := h.retried i hlt'
      unfold FetchEnv.retries at hr
      cases ht : env.tryOnce (answers i) with
      | ok xml => simp [ht] at hr
      | error err =>
        simp only [ht] at hr
        simp only [hr, Bool.not_true, Bool.false_eq_true, if_false]
        exact retryLoop_eq h left (i + 1) (some err) hlt' (by omega)
    · cases ht : env.tryOnce (answers i) with
      | ok xml => rfl
      | error err =>
        simp only
        rcases h.last with hl | hl
        · -- no attempt is left, so the loop ends with this error
          obtain rfl : left = 0 := by omega
          cases hr : isRetryable err <;> simp [FetchEnv.retryLoop]
        · have hr : isRetryable err = false := by simpa [FetchEnv.retries, ht] using hl
          simp [hr]

theorem exists_lastAttempt (env : FetchEnv) (answers : Nat → Upstream) :
    ∃ n, LastAttempt env answers n := by
  by_cases h0 : env.retries (answers 0) = true
  · by_cases h1 : env.retries (answers 1) = true
    · refine ⟨2, by decide, fun j hj => ?_, .inl rfl⟩
      obtain rfl | rfl : j = 0 ∨ j = 1 := by omega
      · exact h0
      · exact h1
    · refine ⟨1, by decide, fun j hj => ?_, .inr (by simpa using h1)⟩
      obtain rfl : j = 0 := by omega
      exact h0
  · exact ⟨0, by decide, fun j hj => absurd hj (Nat.not_lt_zero j), .inr (by simpa using h0)⟩

theorem fetchWithRetry_eq (h : LastAttempt env answers n) :
    env.fetchWithRetry answers = (env.tryOnce (answers n), n + 1) :=
  retryLoop_eq h retryAttempts 0 none (Nat.zero_le n) (Nat.zero_add _)

/-- A 5xx is an answer that `tryOnce` reports by its status. -/
theorem is5xx_iff : u.is5xx = true ↔
    ∃ code, 500 ≤ code ∧ env.tryOnce u = .error (.httpStatus code) := by
  have hsuccess : ∀ {status : Nat}, isSuccess status = true → ¬ 500 ≤ status := by
    intro status hs h
    rw [isSuccess, decide_eq_false (p := status ≤ 299) (by omega), Bool.and_false] at hs
    cases hs
  cases u using Upstream.readCases with
  | sendFailed err => simp [Upstream.is5xx, FetchEnv.tryOnce]
  | refused status contentLength text hs => simp [Upstream.is5xx, FetchEnv.tryOnce, hs]
  | declared status contentLength text cl hs hcl =>
    simp [Upstream.is5xx, FetchEnv.tryOnce, hs, hcl, hsuccess hs]
  | unread status contentLength err hs hcl =>
    simp [Upstream.is5xx, FetchEnv.tryOnce, hs, hcl, hsuccess hs]
  | tooLong status contentLength xml hs hcl hx =>
    simp [Upstream.is5xx, FetchEnv.tryOnce, hs, hcl, hx, hsuccess hs]
  | body status contentLength xml hs hcl hx =>
    simp [Upstream.is5xx, FetchEnv.tryOnce, hs, hcl, hx, hsuccess hs]

theorem settle_bytes_of_error (err : NzbFetchError) :
    (c.settle env now url (.error err)).bytes = c.bytes := by
  unfold FetchCaches.settle
  cases err with
  | httpStatus code =>
    simp only
    split
    · rfl
    · rfl
  | _ => rfl

/-- A failed call starts a cooldown exactly when its last attempt was a 5xx. -/
theorem settle_cooldown {err : NzbFetchError} (h : env.tryOnce u = .error err) :
    ((c.settle env now url (.error err)).throttle,
      (c.settle env now url (.error err)).cooldowns) =
    if u.is5xx = true then
      (c.throttle.insert now (env.hostOf url) (now + throttleDuration),
        (env.hostOf url, now + throttleDuration) :: c.cooldowns)
    else (c.throttle, c.cooldowns) := by
  by_cases hu : u.is5xx = true
  · obtain ⟨code, hcode, hc⟩ : ∃ code, 500 ≤ code ∧ env.tryOnce u = .error (.httpStatus code) :=
      is5xx_iff.mp hu
    obtain rfl := Except.error.inj (h.symm.trans hc)
    simp [FetchCaches.settle, hcode, hu]
  · rw [if_neg hu]
    unfold FetchCaches.settle
    cases err with
    | httpStatus code =>
      have hcode : ¬ code ≥ 500 := fun hcode => hu (is5xx_iff.mpr ⟨code, hcode, h⟩)
      simp [hcode]
    | _ => rfl

/-- **A call ends well exactly when a failure after a 5xx is a 5xx.** -/
theorem endsWell_iff : EndsWell env c now url answers ↔ EndsOn5xx env answers := by
  obtain ⟨n, hn⟩ := exists_lastAttempt env answers
  have hf := fetchWithRetry_eq hn
  constructor
  · intro h n' err hn' herr hj
    obtain rfl := hn.unique hn'
    by_contra hu
    have hc := h.cools err (by rw [hf, herr])
    rw [settle_cooldown herr, if_neg hu, hf, if_pos] at hc
    · have := congrArg (fun p => p.2.length) hc
      simp at this
    · obtain ⟨j, hj, h5⟩ := hj
      exact ⟨j, Nat.lt_succ_of_lt hj, h5⟩
  · intro h
    refine ⟨⟨n, hn, hf⟩, fun err _ => settle_bytes_of_error err, fun err herr => ?_⟩
    rw [hf] at herr ⊢
    rw [settle_cooldown herr]
    congr 1
    refine propext ⟨fun hu => ⟨n, Nat.lt_succ_self n, hu⟩, fun ⟨j, hj, h5⟩ => ?_⟩
    rcases Nat.lt_or_eq_of_le (Nat.le_of_lt_succ hj) with hlt | rfl
    · exact h n err hn herr ⟨j, hlt, h5⟩
    · exact h5

end

/-! ## Runs -/

/-- What the byte cache holds was fetched from a URL of that key. -/
def BytesFetched (env : FetchEnv) (urls : Set String) (c : FetchCaches) : Prop :=
  c.bytes.All fun k xml => ∃ url ∈ urls, env.cacheKey url = k ∧ (url, xml) ∈ c.fetched

theorem bytesFetched_settle {env : FetchEnv} {urls : Set String} {c : FetchCaches} {url : String}
    (h : BytesFetched env urls c) (hurl : url ∈ urls) (now : Nat) :
    ∀ result, BytesFetched env urls (c.settle env now url result)
  | .ok xml => by
    have hmore : c.bytes.All fun k x =>
        ∃ u ∈ urls, env.cacheKey u = k ∧ (u, x) ∈ (url, xml) :: c.fetched :=
      h.imp fun k x ⟨u, hu, hk, hx⟩ => ⟨u, hu, hk, List.mem_cons_of_mem _ hx⟩
    exact hmore.insert ⟨url, hurl, rfl, List.mem_cons_self⟩
  | .error (.httpStatus code) => by
    simp only [FetchCaches.settle]
    split
    · exact h
    · exact h
  | .error (.network _) => h
  | .error (.tooLarge _) => h
  | .error .indexerThrottled => h

/-- What every reachable state keeps. -/
structure FetchInv (env : FetchEnv) (urls : Set String) (s : FetchWorld ι) : Prop where
  bytes : BytesFetched env urls s.caches
  asks : ∀ i url, s.calls i = .fetching url → url ∈ urls

theorem fetchInv_step {env : FetchEnv} {urls : Set String} {s t : FetchWorld ι} {a : FetchAct ι}
    (h : FetchInv env urls s) (ha : a.For urls) (hs : fetchStep env s a = some t) :
    FetchInv env urls t := by
  have hcall : ∀ {i : ι} {call : FetchCall}, (∀ url, call = .fetching url → url ∈ urls) →
      ∀ j url, Function.update s.calls i call j = .fetching url → url ∈ urls := by
    intro i call hc j url hj
    rcases eq_of_update hj with hj | hj
    · exact hc url hj
    · exact h.asks j url hj
  cases a with
  | begin i url now =>
    simp only [fetchStep] at hs
    split at hs
    · cases hs
      refine ⟨h.bytes, hcall fun u hu => ?_⟩
      split at hu
      · cases hu
      · cases hu
        exact ha
    · cases hs
  | end_ i answers now =>
    simp only [fetchStep] at hs
    split at hs
    · next url hi =>
      cases hs
      exact ⟨bytesFetched_settle h.bytes (h.asks i url hi) now _, hcall fun u hu => by cases hu⟩
    · cases hs

theorem cacheKey_injOn {env : FetchEnv} {urls : Set String}
    (hinj : Set.InjOn env.sha1Short urls) : Set.InjOn env.cacheKey urls :=
  fun _ hu _ hv h => hinj hu hv ((String.append_right_inj _).mp h)

/-- **The throttle and the byte cache keep their protocol** at every call of every run, but for
the cooldowns, which a call owes exactly where a failure after a 5xx is itself a 5xx. -/
theorem fetch_protocol (env : FetchEnv) (urls : Set String)
    (hinj : Set.InjOn env.sha1Short urls) (s : FetchWorld ι)
    (h : Reaches (fetchStep env) (fun _ a => a.For urls) .init s) :
    (∀ now, ∀ url ∈ urls, BeginsWell env s.caches now url) ∧
    (∀ i url, s.calls i = .fetching url → ∀ answers now,
      EndsWell env s.caches now url answers ↔ EndsOn5xx env answers) := by
  have hinv : FetchInv env urls s := h.inv ⟨TtlCache.all_empty, fun _ _ h => by cases h⟩
    fun _ _ _ h ha hs => fetchInv_step h ha hs
  refine ⟨fun now url hurl => ⟨fun xml hx => ⟨?_, ?_⟩, fun hx hc => ?_, fun hx hc => ?_⟩,
    fun _ _ _ _ _ => endsWell_iff⟩
  · simp [FetchCaches.lookup, hx]
  · obtain ⟨url', hurl', hk, hf⟩ := hinv.bytes.get hx
    rwa [cacheKey_injOn hinj hurl' hurl hk] at hf
  · simp [FetchCaches.lookup, hx, hc]
  · simp [FetchCaches.lookup, hx, hc]

def exampleUrl : String := "https://api.example.com/getnzb/a.nzb"

/-- The hash and the host of that URL. -/
def exampleEnv : FetchEnv := ⟨fun _ => "58b52b4152c7a150", fun _ => "api.example.com", id⟩

/-- The act asks for one of the URLs. -/
def FetchAct.asks {ι : Type} (urls : List String) : FetchAct ι → Bool
  | .begin _ url _ => urls.contains url
  | .end_ _ _ _ => true

theorem for_of_asks {ι : Type} {urls : List String} {a : FetchAct ι} (h : a.asks urls = true) :
    a.For {url | url ∈ urls} := by
  cases a with
  | begin i url now => exact List.contains_iff_mem.mp h
  | end_ i answers now => exact trivial

def otherUrl : String := "https://api.example.com/getnzb/b.nzb"

/-- Two URLs of one host. -/
def twoUrls : FetchEnv := ⟨id, fun _ => "api.example.com", id⟩

/-- Of two calls to one host the first has met 503 three times: a minute later its URL is not asked
for, and the second call, when it meets the same, starts the cooldown anew. -/
theorem fetch_protocol_cooling : ∃ s : FetchWorld Bool,
    s.caches.lookup twoUrls (secs 60) exampleUrl = some (.error .indexerThrottled) ∧
      s.calls true = .fetching otherUrl ∧
      EndsWell twoUrls s.caches (secs 60) otherUrl fun _ => .response 503 none (.ok "") := by
  obtain ⟨s, hs, hp⟩ := exists_of_exec (fetchStep twoUrls)
    (fun _ a => a.asks [exampleUrl, otherUrl]) (fun _ _ => for_of_asks) .init
    [.begin false exampleUrl 0, .begin true otherUrl 0,
      .end_ false (fun _ => .response 503 none (.ok "")) 0]
    (fun s => s.caches.hit twoUrls (secs 60) exampleUrl = none &&
      s.caches.cooling twoUrls (secs 60) exampleUrl && match s.calls true with
        | .fetching url => url = otherUrl
        | _ => false) (by decide +kernel)
  simp only [Bool.and_eq_true, decide_eq_true_eq] at hp
  obtain ⟨⟨hhit, hcooling⟩, hcall⟩ := hp
  have hcall : s.calls true = .fetching otherUrl := by
    split at hcall
    · next url hc => rw [hc, of_decide_eq_true hcall]
    · cases hcall
  obtain ⟨hbegin, hend⟩ := fetch_protocol twoUrls {url | url ∈ [exampleUrl, otherUrl]}
    (Set.injOn_id _) s hs
  exact ⟨s, (hbegin (secs 60) exampleUrl List.mem_cons_self).cooling hhit hcooling, hcall,
    (hend true otherUrl hcall _ _).mpr fun _ _ _ _ _ => rfl⟩

/-- Two answers 503, then a lost connection. -/
def capped : Nat → Upstream
  | 0 | 1 => .response 503 none (.ok "")
  | _ => .sendFailed "connection reset"

/-- A call that meets two 503 and then a lost connection starts no cooldown. -/
theorem fails_after_5xx_without_cooldown : ∃ s : FetchWorld Unit,
    Reaches (fetchStep exampleEnv) (fun _ a => a.For {exampleUrl}) .init s ∧
      s.calls () = .fetching exampleUrl ∧ ¬ EndsWell exampleEnv s.caches 0 exampleUrl capped := by
  obtain ⟨s, hs, hp⟩ := exists_of_exec (fetchStep exampleEnv) (fun _ a => a.asks [exampleUrl])
    (fun _ _ h => by simpa using for_of_asks h) .init [.begin () exampleUrl 0]
    (fun s => match s.calls () with
      | .fetching url => url = exampleUrl
      | _ => false) (by decide)
  refine ⟨s, hs, ?_, fun h => ?_⟩
  · split at hp
    · next url hc => rw [hc, of_decide_eq_true hp]
    · cases hp
  · have hend := endsWell_iff.mp h 2 (.network "connection reset")
      ⟨by decide, by decide, .inl rfl⟩ rfl ⟨0, by decide, by decide⟩
    exact absurd hend (by decide)

end StremioNzb.Addon

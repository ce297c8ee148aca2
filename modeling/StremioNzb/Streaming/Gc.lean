import Mathlib.Algebra.Ring.Nat
import Mathlib.Data.List.Perm.Basic
import Mathlib.Data.List.Sort
import StremioNzb.Lib.Runs

/-!
# Sessions and their collection

`gc.rs` beside `video_route` of `main.rs`: the registry of sessions, the requests that play them
and the passes of `run_once`, in any interleaving. A step of the collector is a scan, or one
half of an eviction; a step of a request is what it does between two awaits.

Tokens are never drawn twice and deletions succeed. A pass may start at any time.
-/

namespace StremioNzb.Streaming

open StremioNzb.Lib

/-- Durations in milliseconds. -/
structure GcConfig where
  idleTimeout : Nat
  maxBytes : Nat
  protectWindow : Nat
  deriving DecidableEq, Repr

namespace GcConfig
variable (cfg : GcConfig)

/-- `as_millis() as u64` keeps the low 64 bits. -/
def idleMs : Nat := cfg.idleTimeout % 2 ^ 64

def protectMs : Nat := cfg.protectWindow % 2 ^ 64

/-- The windows that a pass goes by. -/
def truncated : GcConfig := ⟨cfg.idleMs, cfg.maxBytes, cfg.protectMs⟩

@[simp] theorem maxBytes_truncated : cfg.truncated.maxBytes = cfg.maxBytes := rfl

theorem protectMs_le : cfg.protectMs ≤ cfg.protectWindow := Nat.mod_le _ _

theorem idleMs_lt : cfg.idleMs < 2 ^ 64 := Nat.mod_lt _ (Nat.two_pow_pos 64)

theorem protectMs_lt : cfg.protectMs < 2 ^ 64 := Nat.mod_lt _ (Nat.two_pow_pos 64)

end GcConfig

/-- The `OnceCell` of the active stream; `busy` while a request runs the preflight. -/
inductive Cell where
  | empty
  | busy
  | filled
  deriving DecidableEq, Repr

structure StreamSession where
  active : Cell
  lastAccess : Nat
  deriving DecidableEq, Repr

/-- Where a run of `video_route` stands, its body included. -/
inductive VideoRoute (τ : Type) where
  | coming
  /-- The session is looked up, to be touched next. -/
  | found (token : τ)
  /-- Touched, and about to enter the cell. -/
  | touched (token : τ)
  /-- In the preflight, which has opened the cache file (`opened`) or not. -/
  | probing (token : τ)
  | opened (token : τ)
  /-- With the active stream. -/
  | ready (token : τ)
  /-- The body streams. -/
  | streaming (token : τ)
  | ended
  deriving DecidableEq, Repr

/-- Where `run_once` stands. -/
inductive Pass (τ : Type) where
  | resting
  | started (now : Nat)
  | idleEvict (now : Nat) (todo : List τ)
  /-- The session is removed, its file to be deleted. -/
  | idleDelete (now : Nat) (token : τ) (todo : List τ)
  | measure (now : Nat)
  | collect (now : Nat) (overBytes : Nat)
  | capEvict (todo : List τ) (overBytes : Nat)
  | capRemove (token : τ) (bytes : Nat) (todo : List τ) (overBytes : Nat)
  | capDelete (token : τ) (bytes : Nat) (todo : List τ) (overBytes : Nat)
  deriving DecidableEq, Repr

structure Server (τ ι : Type) where
  clock : Nat
  /-- The sessions ever registered. -/
  sessions : τ → Option StreamSession
  registry : List τ
  /-- The cache files with their real bytes, and the bytes of other files beside them. -/
  files : List (τ × Nat)
  otherBytes : Nat
  requests : ι → VideoRoute τ
  pass : Pass τ

inductive Server.Act (τ ι : Type) where
  | advance (ms : Nat)
  | registerGroup (token : τ)
  | lookup (i : ι) (token : τ)
  | touch (i : ι)
  | enter (i : ι)
  | openFile (i : ι)
  | commit (i : ι)
  | respond (i : ι)
  | write (i : ι) (bytes : Nat)
  /-- The request ends: an error, a client that goes, a body at its end. -/
  | close (i : ι)
  /-- A step of the collector; `order` is the order in which a scan meets the sessions. -/
  | runOnce (order : List τ)

namespace Server
variable {τ ι : Type} [DecidableEq τ] [DecidableEq ι] (s : Server τ ι)

/-! ## `video_route` -/

def setRequest (i : ι) (r : VideoRoute τ) : Server τ ι :=
  { s with requests := fun j => if j = i then r else s.requests j }

def setSession (token : τ) (f : StreamSession → StreamSession) : Server τ ι :=
  { s with sessions := fun u => if u = token then (s.sessions u).map f else s.sessions u }

def setCell (token : τ) (active : Cell) : Server τ ι := s.setSession token ({ · with active })

/-- `OpenOptions::create`, which leaves a file that exists. -/
def createFile (token : τ) : Server τ ι :=
  { s with files := if token ∈ s.files.map (·.1) then s.files else (token, 0) :: s.files }

def resizeFile (token : τ) (bytes : Nat) : Server τ ι :=
  { s with files := s.files.map fun f => if f.1 = token then (token, bytes) else f }

def registerGroup (token : τ) : Server τ ι :=
  { s with
    sessions := fun u => if u = token then some ⟨.empty, s.clock⟩ else s.sessions u
    registry := token :: s.registry }

/-! ## `run_once` -/

def lastAccess (token : τ) : Nat := ((s.sessions token).map (·.lastAccess)).getD 0

def fileBytes (token : τ) : Nat := (s.files.lookup token).getD 0

def totalDiskBytes : Nat := (s.files.map (·.2)).sum + s.otherBytes

def idleSessions (cfg : GcConfig) (now : Nat) (order : List τ) : List τ :=
  order.filter fun t => now - s.lastAccess t ≥ cfg.idleMs

def candidates (cfg : GcConfig) (now : Nat) (order : List τ) : List τ :=
  (order.filter fun t => ¬ now - s.lastAccess t < cfg.protectMs).insertionSort
    fun t u => s.lastAccess t ≤ s.lastAccess u

def goto (pass : Pass τ) : Server τ ι := { s with pass }

/-- `registry.remove`, the first half of `evict_session`. -/
def removeSession (token : τ) : Server τ ι := { s with registry := s.registry.filter (· ≠ token) }

/-- `remove_file`, the second half. -/
def removeFile (token : τ) : Server τ ι := { s with files := s.files.filter (·.1 ≠ token) }

def runOnce (cfg : GcConfig) (order : List τ) : Option (Server τ ι) :=
  match s.pass with
  | .resting => some (s.goto (.started s.clock))
  | .started now =>
    if order.Perm s.registry then
      some (s.goto (.idleEvict now (s.idleSessions cfg now order)))
    else none
  | .idleEvict now [] => some (s.goto (.measure now))
  | .idleEvict now (token :: rest) =>
    some ((s.removeSession token).goto (.idleDelete now token rest))
  | .idleDelete now token rest => some ((s.removeFile token).goto (.idleEvict now rest))
  | .measure now =>
    if s.totalDiskBytes ≤ cfg.maxBytes then some (s.goto .resting)
    else some (s.goto (.collect now (s.totalDiskBytes - cfg.maxBytes)))
  | .collect now overBytes =>
    if order.Perm s.registry then some (s.goto (.capEvict (s.candidates cfg now order) overBytes))
    else none
  | .capEvict [] _ => some (s.goto .resting)
  | .capEvict (token :: rest) overBytes =>
    if overBytes = 0 then some (s.goto .resting)
    else some (s.goto (.capRemove token (s.fileBytes token) rest overBytes))
  | .capRemove token bytes rest overBytes =>
    some ((s.removeSession token).goto (.capDelete token bytes rest overBytes))
  | .capDelete token bytes rest overBytes =>
    some ((s.removeFile token).goto (.capEvict rest (overBytes - bytes)))

/-! ## All together -/

def step (cfg : GcConfig) (s : Server τ ι) : Act τ ι → Option (Server τ ι)
  | .advance ms => some { s with clock := s.clock + ms }
  | .registerGroup token => if s.sessions token = none then some (s.registerGroup token) else none
  | .lookup i token => match s.requests i with
    | .coming => some (s.setRequest i (if token ∈ s.registry then .found token else .ended))
    | _ => none
  | .touch i => match s.requests i with
    | .found token => some
        ((s.setSession token ({ · with lastAccess := s.clock })).setRequest i (.touched token))
    | _ => none
  | .enter i => match s.requests i with
    | .touched token => match (s.sessions token).map StreamSession.active with
      | some .filled => some (s.setRequest i (.ready token))
      | some .empty => some ((s.setCell token .busy).setRequest i (.probing token))
      | _ => none
    | _ => none
  | .openFile i => match s.requests i with
    | .probing token | .opened token => some ((s.createFile token).setRequest i (.opened token))
    | _ => none
  | .commit i => match s.requests i with
    | .opened token => some ((s.setCell token .filled).setRequest i (.ready token))
    | _ => none
  | .respond i => match s.requests i with
    | .ready token => some (s.setRequest i (.streaming token))
    | _ => none
  | .write i bytes => match s.requests i with
    | .streaming token => some (s.resizeFile token bytes)
    | _ => none
  | .close i => match s.requests i with
    | .coming | .ended => none
    | .probing token | .opened token => some ((s.setCell token .empty).setRequest i .ended)
    | _ => some (s.setRequest i .ended)
  | .runOnce order => s.runOnce cfg order

/-- The cache directory is cleared when the server starts. -/
def init (clock otherBytes : Nat) : Server τ ι where
  clock := clock
  sessions _ := none
  registry := []
  files := []
  otherBytes := otherBytes
  requests _ := .coming
  pass := .resting

end Server

/-! ## Requests in flight and sessions selected -/

/-- The session that the request holds. -/
def VideoRoute.token? {τ : Type} : VideoRoute τ → Option τ
  | coming | ended => none
  | found token | touched token | probing token | opened token | ready token | streaming token =>
    some token

namespace Pass
variable {τ : Type}

/-- The time that the pass has taken. -/
def now? : Pass τ → Option Nat
  | started now | idleEvict now _ | idleDelete now _ _ | measure now | collect now _ => some now
  | _ => none

/-- Sessions selected for eviction and still in the registry. -/
def todo : Pass τ → List τ
  | idleEvict _ todo | idleDelete _ _ todo | capEvict todo _ | capDelete _ _ todo _ => todo
  | capRemove token _ todo _ => token :: todo
  | _ => []

/-- The session that is removed, and whose file is not deleted yet. -/
def deleting : Pass τ → Option τ
  | idleDelete _ token _ | capDelete token _ _ _ => some token
  | _ => none

/-- The session that the next step removes, or whose file it deletes. -/
def target : Pass τ → Option τ
  | idleEvict _ (token :: _) | capRemove token _ _ _ => some token
  | p => p.deleting

end Pass

/-! ## What a step does -/

/-- The possible effects of a step. -/
inductive Server.Effect {τ ι : Type} [DecidableEq τ] [DecidableEq ι] (cfg : GcConfig)
    (s : Server τ ι) : Act τ ι → Server τ ι → Prop where
  | advanced (ms : Nat) : Effect cfg s (.advance ms) { s with clock := s.clock + ms }
  | registered (t : τ) : s.sessions t = none → Effect cfg s (.registerGroup t) (s.registerGroup t)
  | found (i : ι) (t : τ) : s.requests i = .coming → t ∈ s.registry →
      Effect cfg s (.lookup i t) (s.setRequest i (.found t))
  | unknown (i : ι) (t : τ) : s.requests i = .coming → t ∉ s.registry →
      Effect cfg s (.lookup i t) (s.setRequest i .ended)
  | touched (i : ι) (t : τ) : s.requests i = .found t → Effect cfg s (.touch i)
      ((s.setSession t ({ · with lastAccess := s.clock })).setRequest i (.touched t))
  /-- The request goes on or ends; the cell of its session may change. -/
  | moved (a : Act τ ι) (i : ι) (t : τ) (r : VideoRoute τ) (active : StreamSession → Cell) :
      (s.requests i).token? = some t → (r.token? = some t ∨ r.token? = none) →
      Effect cfg s a
        ((s.setSession t fun x => { x with active := active x }).setRequest i r)
  | opened (i : ι) (t : τ) : s.requests i = .probing t ∨ s.requests i = .opened t →
      Effect cfg s (.openFile i) ((s.createFile t).setRequest i (.opened t))
  | wrote (i : ι) (t : τ) (bytes : Nat) : s.requests i = .streaming t →
      Effect cfg s (.write i bytes) (s.resizeFile t bytes)
  | began (order : List τ) : s.pass = .resting →
      Effect cfg s (.runOnce order) (s.goto (.started s.clock))
  | scanned (order : List τ) (now : Nat) : s.pass = .started now → order.Perm s.registry →
      Effect cfg s (.runOnce order) (s.goto (.idleEvict now (s.idleSessions cfg now order)))
  | collected (order : List τ) (now overBytes : Nat) : s.pass = .collect now overBytes →
      order.Perm s.registry →
      Effect cfg s (.runOnce order) (s.goto (.capEvict (s.candidates cfg now order) overBytes))
  /-- Nothing is removed, and nothing more is selected. -/
  | turned (order : List τ) (p : Pass τ) : s.pass.deleting = none → p.deleting = none →
      p.todo.Sublist s.pass.todo → (∀ n, p.now? = some n → s.pass.now? = some n) →
      Effect cfg s (.runOnce order) (s.goto p)
  | removed (order : List τ) (t : τ) (p : Pass τ) : s.pass.deleting = none →
      p.deleting = some t → s.pass.todo = t :: p.todo →
      (∀ n, p.now? = some n → s.pass.now? = some n) →
      Effect cfg s (.runOnce order) ((s.removeSession t).goto p)
  | deleted (order : List τ) (t : τ) (p : Pass τ) : s.pass.deleting = some t →
      p.deleting = none → p.todo = s.pass.todo → (∀ n, p.now? = some n → s.pass.now? = some n) →
      Effect cfg s (.runOnce order) ((s.removeFile t).goto p)

namespace Server
variable {τ ι : Type} [DecidableEq τ] [DecidableEq ι] {cfg : GcConfig} {s s' : Server τ ι}
  {a : Act τ ι} {order : List τ}

section
variable {p p' : Pass τ} {t : τ}

theorem turned_of (hp : s.pass = p) (hd : p.deleting = none) (hd' : p'.deleting = none)
    (htodo : p'.todo.Sublist p.todo) (hnow : ∀ n, p'.now? = some n → p.now? = some n) :
    Effect cfg s (.runOnce order) (s.goto p') := by
  subst hp
  exact .turned order p' hd hd' htodo hnow

theorem removed_of (hp : s.pass = p) (hd : p.deleting = none) (hd' : p'.deleting = some t)
    (htodo : p.todo = t :: p'.todo) (hnow : ∀ n, p'.now? = some n → p.now? = some n) :
    Effect cfg s (.runOnce order) ((s.removeSession t).goto p') := by
  subst hp
  exact .removed order t p' hd hd' htodo hnow

theorem deleted_of (hp : s.pass = p) (hd : p.deleting = some t) (hd' : p'.deleting = none)
    (htodo : p'.todo = p.todo) (hnow : ∀ n, p'.now? = some n → p.now? = some n) :
    Effect cfg s (.runOnce order) ((s.removeFile t).goto p') := by
  subst hp
  exact .deleted order t p' hd hd' htodo hnow

end

theorem runOnce_effect (h : s.runOnce cfg order = some s') :
    Effect cfg s (.runOnce order) s' := by
  unfold runOnce at h
  split at h
  · next hp =>
    cases h
    exact .began order hp
  · next now hp =>
    split at h
    · next hperm =>
      cases h
      exact .scanned order now hp hperm
    · cases h
  · next now hp =>
    cases h
    exact turned_of hp rfl rfl (List.nil_sublist _) fun n hn => hn
  · next now t rest hp =>
    cases h
    exact removed_of hp rfl rfl rfl fun n hn => hn
  · next now t rest hp =>
    cases h
    exact deleted_of hp rfl rfl rfl fun n hn => hn
  · next now hp =>
    split at h
    · cases h
      exact turned_of hp rfl rfl (List.nil_sublist _) fun n hn => by cases hn
    · cases h
      exact turned_of hp rfl rfl (List.nil_sublist _) fun n hn => hn
  · next now overBytes hp =>
    split at h
    · next hperm =>
      cases h
      exact .collected order now overBytes hp hperm
    · cases h
  · next overBytes hp =>
    cases h
    exact turned_of hp rfl rfl (List.nil_sublist _) fun n hn => by cases hn
  · next t rest overBytes hp =>
    split at h
    · cases h
      exact turned_of hp rfl rfl (List.nil_sublist _) fun n hn => by cases hn
    · cases h
      exact turned_of hp rfl rfl (List.Sublist.refl _) fun n hn => by cases hn
  · next t bytes rest overBytes hp =>
    cases h
    exact removed_of hp rfl rfl rfl fun n hn => by cases hn
  · next t bytes rest overBytes hp =>
    cases h
    exact deleted_of hp rfl rfl rfl fun n hn => by cases hn

/-- A request that goes on leaves the cell as it is. -/
theorem moved_request {i : ι} {t : τ} {r : VideoRoute τ} (ht : (s.requests i).token? = some t)
    (hr : r.token? = some t ∨ r.token? = none) : Effect cfg s a (s.setRequest i r) := by
  have h : Effect cfg s a
      ((s.setSession t fun x => { x with active := x.active }).setRequest i r) :=
    .moved a i t r (·.active) ht hr
  have hid : s.setSession t (fun x => { x with active := x.active }) = s := by
    unfold setSession
    have : (fun u => if u = t then (s.sessions u).map (fun x => { x with active := x.active })
        else s.sessions u) = s.sessions := by
      funext u
      split
      · exact Option.map_id'
      · rfl
    rw [this]
  rwa [hid] at h

theorem step_effect (h : s.step cfg a = some s') : Effect cfg s a s' := by
  cases a with
  | advance ms =>
    cases h
    exact .advanced ms
  | registerGroup t =>
    obtain ⟨hn, h⟩ := Option.ite_none_right_eq_some.mp h
    cases h
    exact .registered t hn
  | lookup i t =>
    simp only [step] at h
    split at h
    · next hi =>
      cases h
      split
      · next ht => exact .found i t hi ht
      · next ht => exact .unknown i t hi ht
    · cases h
  | touch i =>
    simp only [step] at h
    split at h
    · next t hi =>
      cases h
      exact .touched i t hi
    · cases h
  | enter i =>
    simp only [step] at h
    split at h
    · next t hi =>
      split at h
      · cases h
        exact moved_request (by rw [hi]; rfl) (.inl rfl)
      · cases h
        exact .moved _ i t _ (fun _ => .busy) (by rw [hi]; rfl) (.inl rfl)
      · cases h
    · cases h
  | openFile i =>
    simp only [step] at h
    split at h
    · next t hi =>
      cases h
      exact .opened i t (.inl hi)
    · next t hi =>
      cases h
      exact .opened i t (.inr hi)
    · cases h
  | commit i =>
    simp only [step] at h
    split at h
    · next t hi =>
      cases h
      exact .moved _ i t _ (fun _ => .filled) (by rw [hi]; rfl) (.inl rfl)
    · cases h
  | respond i =>
    simp only [step] at h
    split at h
    · next t hi =>
      cases h
      exact moved_request (by rw [hi]; rfl) (.inl rfl)
    · cases h
  | write i bytes =>
    simp only [step] at h
    split at h
    · next t hi =>
      cases h
      exact .wrote i t bytes hi
    · cases h
  | close i =>
    simp only [step] at h
    split at h
    · cases h
    · cases h
    · next t hi =>
      cases h
      exact .moved _ i t _ (fun _ => .empty) (by rw [hi]; rfl) (.inr rfl)
    · next t hi =>
      cases h
      exact .moved _ i t _ (fun _ => .empty) (by rw [hi]; rfl) (.inr rfl)
    · next hne1 hne2 hne3 hne4 =>
      cases h
      cases hi : s.requests i with
      | coming => exact absurd hi hne1
      | ended => exact absurd hi hne2
      | probing t => exact absurd hi (hne3 t)
      | opened t => exact absurd hi (hne4 t)
      | found t | touched t | ready t | streaming t =>
        exact moved_request (by rw [hi]; rfl) (.inr rfl)
  | runOnce order => exact runOnce_effect h

omit [DecidableEq τ] [DecidableEq ι] in
@[simp] theorem goto_pass {p : Pass τ} : (s.goto p).pass = p := rfl

/-! ## Registry and pass agree -/

omit [DecidableEq τ] [DecidableEq ι] in
theorem token_of_probing {i : ι} {t : τ}
    (h : s.requests i = .probing t ∨ s.requests i = .opened t) :
    (s.requests i).token? = some t := by
  rcases h with h | h
  · rw [h]
    rfl
  · rw [h]
    rfl

/-- A session once registered is never forgotten. -/
theorem Effect.known (he : Effect cfg s a s') {u : τ} (h : s.sessions u ≠ none) :
    s'.sessions u ≠ none := by
  cases he with
  | registered t hn =>
    show (if u = t then some _ else s.sessions u) ≠ none
    split
    · exact Option.some_ne_none _
    · exact h
  | touched | moved =>
    show (if u = _ then (s.sessions u).map _ else s.sessions u) ≠ none
    split
    · simpa using h
    · exact h
  | _ => exact h

/-- The sessions selected are registered, the one being deleted no longer. -/
structure Kept (s : Server τ ι) : Prop where
  known : ∀ t ∈ s.registry, s.sessions t ≠ none
  registry : s.registry.Nodup
  selected : ∀ t ∈ s.pass.todo, t ∈ s.registry
  todo : s.pass.todo.Nodup
  removed : ∀ t, s.pass.deleting = some t → t ∉ s.registry ∧ s.sessions t ≠ none
  held : ∀ i t, (s.requests i).token? = some t → s.sessions t ≠ none

omit [DecidableEq τ] [DecidableEq ι] in
theorem kept_init {clock otherBytes : Nat} : (init clock otherBytes : Server τ ι).Kept := by
  refine ⟨?_, List.nodup_nil, ?_, List.nodup_nil, ?_, ?_⟩
  · intro t ht
    cases ht
  · intro t ht
    cases ht
  · intro t ht
    cases ht
  · intro i t ht
    cases ht

omit [DecidableEq τ] [DecidableEq ι] in
/-- A scan selects among the registered sessions, each once. -/
theorem Kept.scan (h : s.Kept) {p : Pass τ} {p' : τ → Bool} (hperm : order.Perm s.registry)
    (hp : p.todo.Perm (order.filter p')) (hd : p.deleting = none) : (s.goto p).Kept := by
  refine ⟨h.known, h.registry, fun t ht => ?_, ?_, ?_, h.held⟩
  · exact hperm.mem_iff.mp (List.mem_of_mem_filter (hp.mem_iff.mp ht))
  · exact hp.nodup_iff.mpr ((hperm.nodup_iff.mpr h.registry).filter _)
  · intro t ht
    rw [goto_pass, hd] at ht
    cases ht

/-- A request moves, to a session that it holds already or that is registered. -/
theorem Kept.request (h : s.Kept) (he : Effect cfg s a s') {i : ι} {r : VideoRoute τ}
    (hreq : s'.requests = fun j => if j = i then r else s.requests j)
    (hreg : s'.registry = s.registry) (hpass : s'.pass = s.pass)
    (hr : ∀ t, r.token? = some t → s.sessions t ≠ none) : s'.Kept := by
  refine ⟨fun t ht => he.known (h.known t (hreg ▸ ht)), hreg ▸ h.registry, ?_, hpass ▸ h.todo,
    ?_, fun j t ht => ?_⟩
  · rw [hpass, hreg]
    exact h.selected
  · rw [hpass, hreg]
    exact fun t ht => (h.removed t ht).imp_right he.known
  · rw [hreq] at ht
    simp only at ht
    split at ht
    · exact he.known (hr t ht)
    · exact he.known (h.held j t ht)

/-- A session is registered that was not known. -/
theorem Kept.registered (h : s.Kept) {t : τ} (he : Effect cfg s a (s.registerGroup t))
    (hn : s.sessions t = none) : (s.registerGroup t).Kept := by
  have hne : ∀ {u}, s.sessions u ≠ none → u ≠ t := fun hu htu => hu (htu ▸ hn)
  refine ⟨fun u hu => ?_, ?_, fun u hu => ?_, h.todo, fun u hu => ?_, fun i u hu => ?_⟩
  · rcases List.mem_cons.mp hu with rfl | hu
    · simp [registerGroup]
    · exact he.known (h.known u hu)
  · exact List.nodup_cons.mpr ⟨fun ht => h.known t ht hn, h.registry⟩
  · exact List.mem_cons_of_mem t (h.selected u hu)
  · obtain ⟨h1, h2⟩ := h.removed u hu
    exact ⟨List.not_mem_cons_of_ne_of_not_mem (hne h2) h1, he.known h2⟩
  · exact he.known (h.held i u hu)

omit [DecidableEq ι] in
/-- The first of the sessions selected is removed. -/
theorem Kept.removeSession (h : s.Kept) {t : τ} {p : Pass τ} (hd : p.deleting = some t)
    (htodo : s.pass.todo = t :: p.todo) : ((s.removeSession t).goto p).Kept := by
  have hnodup := h.todo
  rw [htodo, List.nodup_cons] at hnodup
  refine ⟨fun u hu => h.known u (List.mem_of_mem_filter hu), h.registry.filter _, fun u hu => ?_,
    hnodup.2, fun u hu => ?_, h.held⟩
  · refine List.mem_filter.mpr ⟨h.selected u (htodo ▸ List.mem_cons_of_mem t hu), ?_⟩
    exact decide_eq_true fun hut => hnodup.1 (hut ▸ hu)
  · rw [goto_pass, hd] at hu
    cases hu
    refine ⟨fun hmem => ?_, h.known t (h.selected t (htodo ▸ List.mem_cons_self))⟩
    simpa using (List.mem_filter.mp hmem).2

theorem kept_step (h : s.Kept) (hs : s.step cfg a = some s') : s'.Kept := by
  have he := step_effect hs
  have hcase := he
  cases hcase with
  | advanced ms => exact ⟨h.known, h.registry, h.selected, h.todo, h.removed, h.held⟩
  | wrote i t bytes hi => exact ⟨h.known, h.registry, h.selected, h.todo, h.removed, h.held⟩
  | registered t hn => exact h.registered he hn
  | found i t hi ht =>
    refine h.request he rfl rfl rfl fun u hu => ?_
    cases hu
    exact h.known t ht
  | unknown i t hi ht => exact h.request he rfl rfl rfl fun u hu => by cases hu
  | touched i t hi =>
    refine h.request he rfl rfl rfl fun u hu => ?_
    cases hu
    exact h.held i t (by rw [hi]; rfl)
  | moved a i t r active ht hr =>
    refine h.request he rfl rfl rfl fun u hu => ?_
    rcases hr with hr | hr
    · rw [hr] at hu
      cases hu
      exact h.held i t ht
    · rw [hr] at hu
      cases hu
  | opened i t hi =>
    refine h.request he rfl rfl rfl fun u hu => ?_
    cases hu
    exact h.held i t (token_of_probing hi)
  | began order hp =>
    refine ⟨h.known, h.registry, ?_, List.nodup_nil, ?_, h.held⟩
    · intro t ht
      cases ht
    · intro t ht
      cases ht
  | scanned order now hp hperm => exact h.scan hperm (List.Perm.refl _) rfl
  | collected order now overBytes hp hperm =>
    exact h.scan hperm (List.perm_insertionSort _ _) rfl
  | turned order p hd hd' htodo hnow =>
    refine ⟨h.known, h.registry, fun t ht => h.selected t (htodo.subset ht),
      htodo.nodup h.todo, fun t ht => ?_, h.held⟩
    rw [goto_pass, hd'] at ht
    cases ht
  | removed order t p hd hd' htodo hnow => exact h.removeSession hd' htodo
  | deleted order t p hd hd' htodo hnow =>
    have hp : ((s.removeFile t).goto p).pass.todo = s.pass.todo := htodo
    refine ⟨h.known, h.registry, fun u hu => h.selected u (hp ▸ hu), hp ▸ h.todo, fun u hu => ?_,
      h.held⟩
    rw [goto_pass, hd'] at hu
    cases hu

end Server

end StremioNzb.Streaming

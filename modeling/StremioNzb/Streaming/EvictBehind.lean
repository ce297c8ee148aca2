import StremioNzb.Streaming.Steps

/-!
# Evicting behind the playhead

Calls of `maybe_evict_behind` one after another on one cache file, under one policy, with
`write_at` calls at any time, also inside a call: each goes in its halves. `Evictor.Kept` is what
the calls keep, whatever their playheads: they punch from the watermark on, each below its own
playhead less the backbuffer and none below the pin, and where a call has returned there is
nothing left for another at its playhead.
-/

namespace StremioNzb.Streaming

open StremioNzb.Lib

/-- A hole punched by the call at a playhead. -/
structure Punch where
  playhead : Nat
  start : Nat
  stop : Nat
  deriving DecidableEq, Repr

structure Evictor where
  cache : CachedFile
  /-- The call that runs: its playhead and how far it is. -/
  call : Option (Nat × Evict)
  /-- Writes that are in the file and not yet marked. -/
  writing : List (Nat × Nat)
  /-- The holes punched so far, newest first. -/
  punches : List Punch
  /-- The playheads of the calls that have returned, but for those whose punch failed. -/
  settled : List Nat

namespace Evictor

def start (c : CachedFile) : Evictor := ⟨c, none, [], [], []⟩

inductive Act where
  | enter (playhead : Nat)
  | advance (punched : Bool)
  | write (offset : Nat) (bytes : List UInt8)
  | mark (start stop : Nat)

/-- The punch of a call where it succeeds. -/
def punchOf (playhead : Nat) (punched : Bool) : Evict → List Punch
  | .punching start stop => if punched then [⟨playhead, start, stop⟩] else []
  | _ => []

/-- The playhead of a call that returns, unless that is because its punch fails. -/
def settledBy (playhead : Nat) (e e' : Evict) : List Nat :=
  match e, e' with
  | .punching _ _, _ => []
  | _, .returned => [playhead]
  | _, _ => []

def step (p : EvictPolicy) (s : Evictor) : Act → Option Evictor
  | .enter playhead =>
    if s.call.isSome then none else some { s with call := some (playhead, .loading) }
  | .advance punched =>
    s.call.bind fun (playhead, e) =>
      (e.next p playhead s.cache punched).map fun (cache, e') =>
        { s with
          cache
          call := if e' = .returned then none else some (playhead, e')
          punches := punchOf playhead punched e ++ s.punches
          settled := settledBy playhead e e' ++ s.settled }
  | .write offset bytes =>
    match s.cache.checkWrite offset bytes with
    | .error _ => none
    | .ok none => some s
    | .ok (some stop) =>
      some { s with
        cache := s.cache.writeFile offset bytes
        writing := (offset, stop) :: s.writing }
  | .mark start stop =>
    if (start, stop) ∈ s.writing then
      some { s with
        cache := s.cache.markPopulated start stop
        writing := s.writing.erase (start, stop) }
    else none

/-- The playheads do not lie behind the end of the file. -/
def Within (s : Evictor) : Act → Prop
  | .enter playhead => playhead ≤ s.cache.totalSize
  | _ => True

/-! ## What the calls keep -/

/-- How far the call is, against the watermark. -/
def Under (p : EvictPolicy) (c : CachedFile) (punches : List Punch) : Option (Nat × Evict) → Prop
  | none => ∀ q ∈ punches, q.stop ≤ c.lastEvictedTo
  | some (playhead, e) => playhead ≤ c.totalSize ∧
    match e with
    | .loading => ∀ q ∈ punches, q.stop ≤ c.lastEvictedTo
    | .punching start stop =>
      start = max c.lastEvictedTo p.headerPin ∧ stop = playhead - p.backbuffer ∧ start < stop ∧
        ∀ q ∈ punches, q.stop ≤ c.lastEvictedTo
    | .clearing start stop =>
      c.lastEvictedTo ≤ start ∧ p.headerPin ≤ start ∧ stop = playhead - p.backbuffer ∧
        start < stop ∧ ∀ q ∈ punches, q.stop ≤ stop
    | .storing evictTo =>
      c.lastEvictedTo ≤ evictTo ∧ evictTo = playhead - p.backbuffer ∧
        ∀ q ∈ punches, q.stop ≤ evictTo
    | .returned => False

structure Kept (p : EvictPolicy) (s : Evictor) : Prop where
  under : Under p s.cache s.punches s.call
  /-- Each punch lies in the window of its call. -/
  window : ∀ q ∈ s.punches, p.headerPin ≤ q.start ∧ q.start < q.stop ∧
    q.stop = q.playhead - p.backbuffer
  /-- A punch begins where the ones before it end. -/
  apart : s.punches.Pairwise fun q r => r.stop ≤ q.start
  /-- A call that has returned has left nothing to do at its playhead. -/
  settled : ∀ playhead ∈ s.settled,
    CachedFile.evictWindow s.cache.lastEvictedTo playhead p.headerPin p.backbuffer p.step = none

variable {p : EvictPolicy} {s s' : Evictor} {a : Act}

theorem kept_start (p : EvictPolicy) (c : CachedFile) : Kept p (start c) :=
  ⟨fun _ h => absurd h List.not_mem_nil, fun _ h => absurd h List.not_mem_nil, .nil,
    fun _ h => absurd h List.not_mem_nil⟩

/-- Where there is nothing to evict there is nothing from a later watermark on. -/
theorem evictWindow_none_mono {last last' playhead pin back step : Nat} (hle : last ≤ last')
    (h : CachedFile.evictWindow last playhead pin back step = none) :
    CachedFile.evictWindow last' playhead pin back step = none := by
  have := CachedFile.evictWindow_eq_none h
  unfold CachedFile.evictWindow
  simp only
  split
  · rfl
  · rw [if_pos (by omega)]

/-- The invariant reads two fields of the cache file. -/
theorem Kept.write (h : Kept p s) (w : List (Nat × Nat)) {c : CachedFile}
    (hl : c.lastEvictedTo = s.cache.lastEvictedTo) (ht : c.totalSize = s.cache.totalSize) :
    Kept p { s with cache := c, writing := w } := by
  refine ⟨?_, h.window, h.apart, fun playhead hmem => ?_⟩
  · have hu := h.under
    show Under p c s.punches s.call
    cases hc : s.call with
    | none =>
      rw [hc] at hu
      intro q hq
      rw [hl]
      exact hu q hq
    | some call =>
      obtain ⟨playhead, e⟩ := call
      rw [hc] at hu
      cases e <;> simpa only [Under, hl, ht] using hu
  · show CachedFile.evictWindow c.lastEvictedTo _ _ _ _ = none
    rw [hl]
    exact h.settled playhead hmem

/-- One step of the call that runs. -/
theorem Kept.advance {playhead : Nat} {punched : Bool} {e e' : Evict} {c : CachedFile}
    (h : Kept p s) (hc : s.call = some (playhead, e))
    (he : Evict.Effect p playhead s.cache punched e c e') :
    Kept p { s with
      cache := c
      call := if e' = .returned then none else some (playhead, e')
      punches := punchOf playhead punched e ++ s.punches
      settled := settledBy playhead e e' ++ s.settled } := by
  have hu := h.under
  rw [hc] at hu
  cases he with
  | idle hw => exact ⟨hu.2, h.window, h.apart, List.forall_mem_cons.mpr ⟨hw, h.settled⟩⟩
  | refused start stop hlt hle =>
    have := hu.1
    omega
  | window start stop h1 h2 h3 h4 =>
    exact ⟨⟨hu.1, h1, h2, h3, hu.2⟩, h.window, h.apart, h.settled⟩
  | punched start stop hp =>
    obtain ⟨hle, h1, h2, h3, hold⟩ := hu
    subst hp
    refine ⟨⟨hle, ?_, ?_, h2, h3, ?_⟩, ?_, ?_, h.settled⟩
    · show s.cache.lastEvictedTo ≤ start
      omega
    · omega
    · exact List.forall_mem_cons.mpr ⟨Nat.le_refl _, fun q hq => by have := hold q hq; omega⟩
    · exact List.forall_mem_cons.mpr ⟨⟨by show p.headerPin ≤ start; omega, h3, h2⟩, h.window⟩
    · refine List.pairwise_cons.mpr ⟨fun q hq => ?_, h.apart⟩
      show q.stop ≤ start
      have := hold q hq
      omega
  | failed start stop hp =>
    obtain ⟨hle, h1, h2, h3, hold⟩ := hu
    subst hp
    exact ⟨hold, h.window, h.apart, h.settled⟩
  | cleared start stop =>
    obtain ⟨hle, h1, h2, h3, h4, hold⟩ := hu
    refine ⟨⟨hle, ?_, h3, hold⟩, h.window, h.apart, h.settled⟩
    show s.cache.lastEvictedTo ≤ stop
    omega
  | stored evictTo =>
    obtain ⟨hle, h1, h2, hold⟩ := hu
    refine ⟨hold, h.window, h.apart, List.forall_mem_cons.mpr ⟨?_, fun playhead' hmem =>
      evictWindow_none_mono h1 (h.settled playhead' hmem)⟩⟩
    -- the watermark is the backbuffer of the playhead
    show CachedFile.evictWindow evictTo playhead p.headerPin p.backbuffer p.step = none
    unfold CachedFile.evictWindow
    exact if_pos (by omega)

theorem Kept.step (h : Kept p s) (ha : Within s a) (hs : s.step p a = some s') : Kept p s' := by
  cases a with
  | enter playhead =>
    simp only [Evictor.step] at hs
    split at hs
    · cases hs
    · next hnone =>
      cases hs
      have hc : s.call = none := by simpa using hnone
      have hu := h.under
      rw [hc] at hu
      exact ⟨⟨ha, hu⟩, h.window, h.apart, h.settled⟩
  | advance punched =>
    obtain ⟨⟨playhead, e⟩, hc, hs⟩ := Option.bind_eq_some_iff.mp hs
    obtain ⟨⟨c, e'⟩, hnext, heq⟩ := Option.map_eq_some_iff.mp hs
    cases heq
    exact h.advance hc (Evict.next_effect hnext)
  | write offset bytes =>
    simp only [Evictor.step] at hs
    split at hs
    · cases hs
    · cases hs
      exact h
    · cases hs
      exact h.write _ rfl rfl
  | mark start stop =>
    simp only [Evictor.step] at hs
    split at hs
    · cases hs
      exact h.write _ rfl rfl
    · cases hs

/-! ## What a step changes -/

/-- A step of a call leaves all but its window, and does not lower the watermark. -/
theorem Kept.frame {playhead : Nat} {punched : Bool} {e e' : Evict} {c : CachedFile}
    (h : Kept p s) (hc : s.call = some (playhead, e))
    (he : Evict.Effect p playhead s.cache punched e c e') :
    s.cache.lastEvictedTo ≤ c.lastEvictedTo ∧
      ∀ b, ¬ (p.headerPin ≤ b ∧ b < playhead - p.backbuffer) →
        c.file b = s.cache.file b ∧ (c.Has b ↔ s.cache.Has b) := by
  have hu := h.under
  rw [hc] at hu
  cases he with
  | idle | refused | window | failed => exact ⟨Nat.le_refl _, fun b _ => ⟨rfl, Iff.rfl⟩⟩
  | punched start stop =>
    obtain ⟨-, h1, h2, -⟩ := hu
    refine ⟨Nat.le_refl _, fun b hb => ⟨CachedFile.punchHole_out ?_, Iff.rfl⟩⟩
    omega
  | cleared start stop =>
    obtain ⟨-, h1, h2, h3, -⟩ := hu
    refine ⟨Nat.le_refl _, fun b hb => ⟨rfl, ?_⟩⟩
    rw [CachedFile.clearPopulated_has]
    exact and_iff_left (by omega)
  | stored evictTo => exact ⟨hu.2.1, fun b _ => ⟨rfl, Iff.rfl⟩⟩

theorem Kept.watermark (h : Kept p s) (hs : s.step p a = some s') :
    s.cache.lastEvictedTo ≤ s'.cache.lastEvictedTo := by
  cases a with
  | enter playhead =>
    simp only [Evictor.step] at hs
    split at hs
    · cases hs
    · cases hs
      exact Nat.le_refl _
  | advance punched =>
    obtain ⟨⟨playhead, e⟩, hc, hs⟩ := Option.bind_eq_some_iff.mp hs
    obtain ⟨⟨c, e'⟩, hnext, heq⟩ := Option.map_eq_some_iff.mp hs
    cases heq
    exact (h.frame hc (Evict.next_effect hnext)).1
  | write offset bytes =>
    simp only [Evictor.step] at hs
    split at hs
    · cases hs
    · cases hs
      exact Nat.le_refl _
    · cases hs
      exact Nat.le_refl _
  | mark start stop =>
    simp only [Evictor.step] at hs
    split at hs
    · cases hs
      exact Nat.le_refl _
    · cases hs

/-- **Evicting behind the playhead is safe and never repeats work**, whatever the playheads up to
the end of the file and whatever is written meanwhile. -/
theorem evict_behind (p : EvictPolicy) (c : CachedFile) {s : Evictor}
    (h : Reaches (step p) Within (start c) s) :
    -- no call fails because its window ends behind the file
    (∀ playhead start stop, s.call = some (playhead, .loading) →
      CachedFile.evictWindow s.cache.lastEvictedTo playhead p.headerPin p.backbuffer p.step =
        some (start, stop) → s.cache.checkEvict start stop = .ok true) ∧
    -- a call leaves the bytes outside its window, and a failed punch leaves all
    (∀ playhead e punched s', s.call = some (playhead, e) →
      s.step p (.advance punched) = some s' →
        (∀ b, ¬ (p.headerPin ≤ b ∧ b < playhead - p.backbuffer) →
          s'.cache.file b = s.cache.file b ∧ (s'.cache.Has b ↔ s.cache.Has b)) ∧
        (e = .loading → s'.cache = s.cache) ∧
        ((∃ start stop, e = .punching start stop) → punched = false →
          s'.cache = s.cache ∧ s'.call = none)) ∧
    -- the watermark never decreases
    (∀ a s', s.step p a = some s' → s.cache.lastEvictedTo ≤ s'.cache.lastEvictedTo) ∧
    -- the holes lie in the windows of their calls and are disjoint
    (∀ q ∈ s.punches, p.headerPin ≤ q.start ∧ q.stop ≤ q.playhead - p.backbuffer) ∧
    (s.punches.Pairwise fun q r => q.stop ≤ r.start ∨ r.stop ≤ q.start) ∧
    -- a call at a playhead where one has returned changes nothing
    (∀ playhead ∈ s.settled, s.call = some (playhead, .loading) → ∀ punched, ∃ s',
      s.step p (.advance punched) = some s' ∧ s'.cache = s.cache ∧ s'.call = none) := by
  have hk : Kept p s := h.inv (kept_start p c) fun _ _ _ hk ha hs => hk.step ha hs
  refine ⟨fun playhead start stop hc hw => ?_, fun playhead e punched s' hc hs => ?_,
    fun a s' hs => hk.watermark hs, fun q hq => ?_, hk.apart.imp fun h => .inr h,
    fun playhead hmem hc punched => ?_⟩
  · have hu := hk.under
    rw [hc] at hu
    obtain ⟨-, rfl, hlt, -⟩ := CachedFile.evictWindow_eq_some hw
    have hle := hu.1
    rw [CachedFile.checkEvict, if_neg (by omega), if_neg (by omega)]
  · have hs' := hs
    rw [step, hc, Option.bind_some] at hs'
    obtain ⟨⟨c', e'⟩, hnext, heq⟩ := Option.map_eq_some_iff.mp hs'
    cases heq
    have he := Evict.next_effect hnext
    refine ⟨(hk.frame hc he).2, ?_, ?_⟩
    · rintro rfl
      cases he <;> rfl
    · rintro ⟨start, stop, rfl⟩ rfl
      cases he with
      | punched _ _ hp => cases hp
      | failed => exact ⟨rfl, rfl⟩
  · have := hk.window q hq
    exact ⟨this.1, by omega⟩
  · have hw := hk.settled playhead hmem
    refine ⟨{ s with call := none, settled := playhead :: s.settled }, ?_, rfl, rfl⟩
    rw [step, hc, Option.bind_some]
    simp only [Evict.next, hw, Option.map_some]
    rfl

instance (s : Evictor) (a : Act) : Decidable (Within s a) :=
  match a with
  | .enter playhead => inferInstanceAs (Decidable (playhead ≤ s.cache.totalSize))
  | .advance _ | .write _ _ | .mark _ _ => .isTrue trivial

/-- Ten bytes are written, the call at the ninth evicts two, and the next one finds nothing. -/
theorem evict_behind_ten_bytes :
    ∃ s : Evictor, Reaches (step ⟨1, 5, 2⟩) Within (start (.openOrCreate (fun _ => 7) 10)) s ∧
      s.punches = [⟨8, 1, 3⟩] ∧ s.settled = [8] ∧ s.call = some (8, .loading) ∧
      ∀ punched, ∃ s', s.step ⟨1, 5, 2⟩ (.advance punched) = some s' ∧ s'.cache = s.cache ∧
        s'.call = none := by
  obtain ⟨s, hs, hp⟩ := exists_of_exec (step ⟨1, 5, 2⟩) (fun s a => decide (Within s a))
    (fun _ _ => of_decide_eq_true) (start (.openOrCreate (fun _ => 7) 10))
    [.write 0 [1, 2, 3, 4, 5, 6, 7, 8, 9, 10], .mark 0 10, .enter 8, .advance true, .advance true,
      .advance true, .advance true, .enter 8]
    (fun s => s.punches = [⟨8, 1, 3⟩] ∧ s.settled = [8] ∧ s.call = some (8, .loading)) rfl
  obtain ⟨h1, h2, h3⟩ := of_decide_eq_true hp
  refine ⟨s, hs, h1, h2, h3, ?_⟩
  exact (evict_behind ⟨1, 5, 2⟩ _ hs).2.2.2.2.2 8 (by rw [h2]; exact List.mem_cons_self) h3

end Evictor

end StremioNzb.Streaming

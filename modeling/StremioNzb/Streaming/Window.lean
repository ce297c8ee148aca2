import StremioNzb.Streaming.Sharing

/-!
# The window behind the playhead

What `maybe_evict_behind` keeps over a session: bodies served one after another on one cache
file, under one policy and with no prefetcher. Each call leaves fewer than `step` populated bytes
between the watermark and the backbuffer. Below the watermark nothing is ever evicted again, so
what a seek fetches there stays.
-/

namespace StremioNzb.Streaming

open StremioNzb.Lib

/-! ## Bytes populated in an interval -/

/-- How many bytes of `[start, stop)` are populated. -/
def CachedFile.populatedIn (c : CachedFile) (start stop : Nat) : Nat :=
  (List.range' start (stop - start)).countP fun x => c.hasRange x (x + 1)

variable {c c' : CachedFile} {start stop mid x : Nat}

theorem CachedFile.populatedIn_le : c.populatedIn start stop ≤ stop - start := by
  unfold populatedIn
  apply List.countP_le_length.trans
  rw [List.length_range']

theorem CachedFile.populatedIn_eq_zero (h : ∀ x, start ≤ x → x < stop → ¬ c.Has x) :
    c.populatedIn start stop = 0 := by
  unfold populatedIn
  apply List.countP_eq_zero.mpr
  intro x hx
  obtain ⟨h1, h2⟩ := List.mem_range'_1.mp hx
  rw [hasRange_byte]
  exact h x h1 (by omega)

/-- Nothing is counted where nothing is populated. -/
theorem CachedFile.populatedIn_le_of_clear (hle : start ≤ mid)
    (h : ∀ x, start ≤ x → x < mid → ¬ c.Has x) :
    c.populatedIn start stop ≤ c.populatedIn mid stop := by
  by_cases hs : stop ≤ mid
  · rw [populatedIn_eq_zero fun x h1 h2 => h x h1 (by omega)]
    exact Nat.zero_le _
  · have hsplit : c.populatedIn start stop = c.populatedIn start mid + c.populatedIn mid stop := by
      unfold populatedIn
      rw [← List.countP_append, show stop - start = (mid - start) + (stop - mid) by omega,
        ← List.range'_append_1, show start + (mid - start) = mid by omega]
    rw [hsplit, populatedIn_eq_zero h, Nat.zero_add]

/-! ## One call -/

variable {p : EvictPolicy} {playhead : Nat} {punched : Bool} {e e' : Evict}

/-- How far a call at the playhead has come: it works on the bytes from the watermark on. -/
def Evict.Swept (p : EvictPolicy) (playhead : Nat) (c : CachedFile) : Evict → Prop
  | .loading => playhead ≤ c.totalSize
  | .punching start stop | .clearing start stop =>
    start = max c.lastEvictedTo p.headerPin ∧ stop = playhead - p.backbuffer ∧ start < stop
  | .storing evictTo =>
    c.lastEvictedTo < evictTo ∧ evictTo = playhead - p.backbuffer ∧
      ∀ x, max c.lastEvictedTo p.headerPin ≤ x → x < evictTo → ¬ c.Has x
  | .returned =>
    c.populatedIn (max c.lastEvictedTo p.headerPin) (playhead - p.backbuffer) < p.step

/-- **What a call leaves** from the watermark to the backbuffer is less than `step`. -/
theorem Evict.Swept.step (hstep : 0 < p.step) (h : e.Swept p playhead c)
    (he : Effect p playhead c true e c' e') : e'.Swept p playhead c' := by
  cases he with
  | idle hw =>
    have hle : c.populatedIn (max c.lastEvictedTo p.headerPin) (playhead - p.backbuffer) ≤
        playhead - p.backbuffer - max c.lastEvictedTo p.headerPin := CachedFile.populatedIn_le
    show c.populatedIn _ _ < p.step
    have := CachedFile.evictWindow_eq_none hw
    omega
  | refused start stop hlt hle =>
    have : playhead ≤ c.totalSize := h
    omega
  | window start stop h1 h2 h3 h4 => exact ⟨h1, h2, h3⟩
  | punched start stop => exact h
  | failed start stop hp => cases hp
  | cleared start stop =>
    obtain ⟨rfl, rfl, hlt⟩ := h
    refine ⟨?_, rfl, fun x h1 h2 hx => ?_⟩
    · rw [CachedFile.clearPopulated_lastEvictedTo]
      omega
    · exact (CachedFile.clearPopulated_has.mp hx).2 ⟨h1, h2⟩
  | stored evictTo =>
    obtain ⟨-, rfl, -⟩ := h
    have hle : (c.storeWatermark (playhead - p.backbuffer)).populatedIn
        (max (playhead - p.backbuffer) p.headerPin) (playhead - p.backbuffer) ≤
        playhead - p.backbuffer - max (playhead - p.backbuffer) p.headerPin :=
      CachedFile.populatedIn_le
    show CachedFile.populatedIn _ (max (playhead - p.backbuffer) p.headerPin) _ < p.step
    omega

/-! ## Bodies one after another -/

/-- The body that moves. -/
def Act.mover {ι : Type} : Act ι → ι
  | .fg i _ | .spawn i | .task i _ _ => i

section
variable {ι : Type} [LinearOrder ι]

/-- No later body has begun. -/
def World.Turn (s : World ι) (i : ι) : Prop := ∀ j, i < j → (s.bodies j).fg = .begin

/-- A body moves only until a later one begins, and its punches succeed. -/
def World.InTurn (s : World ι) (a : Act ι) : Prop :=
  s.Turn a.mover ∧ ∀ i inp, a = .fg i inp → inp.punched = true

/-- A byte below the watermark, and not pinned, is populated again. -/
def World.Refills (p : EvictPolicy) (s : World ι) (a : Act ι) : Prop :=
  ∃ i inp d seg start stop x, a = .fg i inp ∧
    (s.bodies i).fg = .ensuring d seg (.marking start stop) ∧ start ≤ x ∧ x < stop ∧
    p.headerPin ≤ x ∧ x < s.cache.lastEvictedTo

/-- Where an eviction call has just returned, fewer than `step` bytes from the pin to the
backbuffer are populated. -/
def World.Bounded (p : EvictPolicy) (s : World ι) : Prop :=
  ∀ i d, s.Turn i → (s.bodies i).fg = .evicting d p .returned →
    s.cache.populatedIn p.headerPin (d.aPos - p.backbuffer) < p.step

end

variable {ι : Type} [LinearOrder ι] {S : Setup} {req : ι → Request} {s s' : World ι} {a : Act ι}
  {inp : Input} {b b' : Body} {r : Request}

theorem Fg.Effect.not_begin (he : Fg.Effect S r c inp b c' b') : b'.fg ≠ .begin := by
  intro hb
  cases he with
  | missing | ensured => exact Fg.await_ne_begin hb
  | _ => cases hb

/-- No prefetches: none queued and none in flight. -/
def Body.Alone (b : Body) : Prop := b.queue = [] ∧ b.tasks = []

theorem Body.Alone.fg (hr : r.readAhead < 2) (h : b.Alone)
    (he : Fg.Effect S r c inp b c' b') : b'.Alone := by
  cases he with
  | began hf hle hpos => exact ⟨if_neg (by omega), h.2⟩
  | _ => exact h

theorem Body.Alone.not_prefetch {k : Nat} (h : b.Alone)
    (he : b.PrefetchEffect S c inp k c' b') : False := by
  obtain ⟨hq, ht⟩ := h
  cases he with
  | spawned i rest hq' =>
    rw [hq] at hq'
    cases hq'
  | cached i seg hk | missing i seg hk | ensured i seg e e' _ hk =>
    rw [ht] at hk
    cases hk

/-- The segment that is found holds the byte to serve next. -/
theorem Drain.le_readEnd {d : Drain} {i : Nat} {seg : SegmentRef} (hle : d.aPos ≤ d.assembledEnd)
    (hi : findSegmentForByte S.search S.segments d.aPos = some i)
    (hseg : S.segments[i]? = some seg) : d.aPos ≤ d.readEnd seg := by
  unfold findSegmentForByte at hi
  obtain ⟨j, -, hi⟩ := Option.bind_eq_some_iff.mp hi
  obtain ⟨t, ht, hi⟩ := Option.bind_eq_some_iff.mp hi
  obtain ⟨hlt, hi⟩ := Option.ite_none_right_eq_some.mp hi
  cases hi
  obtain rfl : seg = t := Option.some.inj (hseg.symm.trans ht)
  simp only [readEnd, SegmentRef.stop]
  omega

/-- What has been read up to its end lies in the file. -/
def Body.InFile (size : Nat) (b : Body) : Prop :=
  match b.fg with
  | .ensuring d seg _ => d.aPos ≤ d.readEnd seg
  | .reading _ readEnd readPos => readPos ≤ readEnd ∨ readPos = readEnd + 1 ∧ readEnd < size
  | _ => True

theorem Body.InFile.await {d : Drain} {seg : SegmentRef} {size : Nat} (h : d.aPos ≤ d.readEnd seg)
    (e : Ensure) : Body.InFile size (b.goto (.await d seg e)) := by
  cases e with
  | returned r =>
    cases r with
    | error m => trivial
    | ok u => exact .inl h
  | fetching | writing | marking => exact h

theorem Body.InFile.fg (h : b.InFile c.totalSize) (he : Fg.Effect S r c inp b c' b') :
    b'.InFile c.totalSize := by
  unfold InFile at h
  cases he with
  | cached d i seg hf hle hi hseg => exact .inl (Drain.le_readEnd hle hi hseg)
  | missing d i seg hf hle hi hseg => exact .await (b := b) (Drain.le_readEnd hle hi hseg) _
  | ensured d seg e e' _ hf =>
    rw [hf] at h
    exact .await h e'
  | read d readEnd readPos hf hle hfits =>
    show readPos + (c.readChunk readEnd readPos).length ≤ readEnd ∨ _
    rw [CachedFile.readBytes_length]
    omega
  | _ => trivial

/-- What holds of a session throughout. -/
structure World.Sliding (req : ι → Request) (p : EvictPolicy) (s : World ι) : Prop where
  inside : ∀ i, (s.bodies i).InFile s.cache.totalSize
  alone : ∀ i, (s.bodies i).Alone
  swept : ∀ i, s.Turn i → ∀ d q e, (s.bodies i).fg = .evicting d q e →
    q = p ∧ e.Swept p d.aPos s.cache

theorem Body.InFile.swept (hr : r.evict = some p) (hstep : 0 < p.step)
    (hw : b.InFile c.totalSize) (hp : inp.punched = true)
    (h : ∀ d q e, b.fg = .evicting d q e → q = p ∧ e.Swept p d.aPos c)
    (he : Fg.Effect S r c inp b c' b') {d : Drain} {q : EvictPolicy} {e : Evict}
    (hf' : b'.fg = .evicting d q e) : q = p ∧ e.Swept p d.aPos c' := by
  cases he with
  | called d' readEnd readPos q' hf hlt hq =>
    cases hf'
    unfold InFile at hw
    rw [hf] at hw
    rw [hr] at hq
    cases hq
    refine ⟨rfl, ?_⟩
    show readEnd + 1 ≤ c.totalSize
    omega
  | evicted d' q' e₀ e₁ _ hf hv =>
    cases hf'
    obtain ⟨rfl, hs⟩ := h _ _ _ hf
    rw [hp] at hv
    exact ⟨rfl, hs.step hstep hv⟩
  | missing | ensured => exact (Fg.evicting_await hf').elim
  | _ => cases hf'

theorem sliding_step (hreq : ∀ i, (req i).evict = some p ∧ (req i).readAhead < 2)
    (hstep : 0 < p.step) (h : s.Sliding req p) (hok : s.InTurn a)
    (hs : s.step S req a = some s') : s'.Sliding req p := by
  cases World.step_effect hs with
  | fg i inp c b he =>
    refine ⟨fun j => ?_, fun j => ?_, fun j hj d q e hf => ?_⟩
    · rw [World.set_cache, he.totalSize]
      by_cases hji : j = i
      · subst hji
        simpa using (h.inside j).fg he
      · simpa [hji] using h.inside j
    · by_cases hji : j = i
      · subst hji
        simpa using (h.alone j).fg (hreq j).2 he
      · simpa [hji] using h.alone j
    · rcases lt_trichotomy j i with hlt | rfl | hgt
      · -- a body whose turn is over: the one that moves has begun
        have := hj i hlt
        rw [World.set_bodies, if_pos rfl] at this
        exact absurd this he.not_begin
      · rw [World.set_bodies, if_pos rfl] at hf
        exact (h.inside j).swept (hreq j).1 hstep (hok.2 j inp rfl) (h.swept j hok.1) he hf
      · rw [World.set_bodies, if_neg hgt.ne', hok.1 j hgt] at hf
        cases hf
  | spawn i b he | task i k inp c b he => exact ((h.alone i).not_prefetch he).elim

theorem sliding_init {content : Nat → UInt8} {size : Nat} :
    (World.init (.openOrCreate content size)).Sliding req p :=
  ⟨fun _ => trivial, fun _ => ⟨rfl, rfl⟩, fun i _ d q e hf => by cases hf⟩

/-! ## Below the watermark -/

/-- No byte is populated from the pin to the watermark. -/
def CachedFile.Clean (p : EvictPolicy) (c : CachedFile) : Prop :=
  ∀ x, p.headerPin ≤ x → x < c.lastEvictedTo → ¬ c.Has x

theorem clean_step (h : s.Sliding req p) (hc : s.cache.Clean p) (hok : s.InTurn a)
    (hr : ¬ s.Refills p a) (hs : s.step S req a = some s') : s'.cache.Clean p := by
  cases World.step_effect hs with
  | fg i inp c b he =>
    cases he with
    | ensured d seg e e' _ hf he =>
      cases he with
      | marked start stop =>
        intro x h1 h2 hx
        rcases CachedFile.markPopulated_has.mp hx with hx | ⟨h3, h4⟩
        · exact hc x h1 h2 hx
        · exact hr ⟨i, inp, d, seg, start, stop, x, rfl, hf, h3, h4, h1, h2⟩
      | _ => exact hc
    | evicted d q e e' _ hf he =>
      cases he with
      | cleared start stop =>
        exact fun x h1 h2 hx => hc x h1 h2 (CachedFile.clearPopulated_has.mp hx).1
      | stored evictTo =>
        intro x h1 h2 hx
        obtain ⟨rfl, -, -, hclear⟩ := h.swept i hok.1 _ _ _ hf
        by_cases hw : x < s.cache.lastEvictedTo
        · exact hc x h1 hw hx
        · exact hclear x (by omega) h2 hx
      | _ => exact hc
    | _ => exact hc
  | spawn i b he | task i k inp c b he => exact ((h.alone i).not_prefetch he).elim

theorem World.Sliding.bounded (h : s.Sliding req p) (hc : s.cache.Clean p) : s.Bounded p := by
  intro i d hi hf
  obtain ⟨-, hs⟩ := h.swept i hi _ _ _ hf
  refine lt_of_le_of_lt (CachedFile.populatedIn_le_of_clear (Nat.le_max_right _ _) ?_) hs
  exact fun x h1 h2 => hc x h1 (by omega)

/-- **A byte populated below the watermark stays**: the watermark only moves forward, and no call
reaches behind it. -/
theorem kept_step (h : s.Sliding req p) (hok : s.InTurn a) (hs : s.step S req a = some s')
    (hp : p.headerPin ≤ x) (hx : x < s.cache.lastEvictedTo ∧ s.cache.Has x) :
    x < s'.cache.lastEvictedTo ∧ s'.cache.Has x := by
  cases World.step_effect hs with
  | fg i inp c b he =>
    cases he with
    | ensured d seg e e' _ hf he =>
      refine ⟨?_, he.has hx.2⟩
      cases he <;> exact hx.1
    | evicted d q e e' _ hf he =>
      obtain ⟨rfl, hsw⟩ := h.swept i hok.1 _ _ _ hf
      cases he with
      | cleared start stop =>
        obtain ⟨hstart, -⟩ := hsw
        exact ⟨hx.1, CachedFile.clearPopulated_has.mpr ⟨hx.2, by omega⟩⟩
      | stored evictTo =>
        obtain ⟨hlt, -⟩ := hsw
        exact ⟨hx.1.trans hlt, hx.2⟩
      | _ => exact hx
    | _ => exact hx
  | spawn i b he | task i k inp c b he => exact ((h.alone i).not_prefetch he).elim

/-! ## Over a session -/

/-- **Eviction bounds what is kept behind the playhead** in a session whose bodies fetch no byte
again below the watermark; a byte fetched there stays for the rest of the session. The layout and
the size of the file are any. -/
theorem window_bounded (S : Setup) (req : ι → Request) (p : EvictPolicy)
    (content : Nat → UInt8) (size : Nat)
    (hreq : ∀ i, (req i).evict = some p ∧ (req i).readAhead < 2) (hstep : 0 < p.step) :
    (∀ s, Reaches (World.step S req) (fun s a => s.InTurn a ∧ ¬ s.Refills p a)
      (.init (.openOrCreate content size)) s → s.Bounded p) ∧
    ∀ s s' x, Reaches (World.step S req) World.InTurn
      (.init (.openOrCreate content size)) s →
      Reaches (World.step S req) World.InTurn s s' → p.headerPin ≤ x →
      x < s.cache.lastEvictedTo → s.cache.Has x → s'.cache.Has x := by
  refine ⟨fun s hs => ?_, fun s s' x hs hs' hp hlt hx => ?_⟩
  · have hclean : (CachedFile.openOrCreate content size).Clean p :=
      fun x _ hx => absurd hx (Nat.not_lt_zero x)
    have h : s.Sliding req p ∧ s.cache.Clean p :=
      hs.inv (I := fun t => t.Sliding req p ∧ t.cache.Clean p) ⟨sliding_init, hclean⟩
        fun _ _ _ hi hok hst => ⟨sliding_step hreq hstep hi.1 hok.1 hst,
          clean_step hi.1 hi.2 hok.1 hok.2 hst⟩
    exact h.1.bounded h.2
  · have h0 : s.Sliding req p := hs.inv sliding_init fun _ _ _ hi hok hst =>
      sliding_step hreq hstep hi hok hst
    have h : s'.Sliding req p ∧ x < s'.cache.lastEvictedTo ∧ s'.cache.Has x :=
      hs'.inv (I := fun t => t.Sliding req p ∧ x < t.cache.lastEvictedTo ∧ t.cache.Has x)
        ⟨h0, hlt, hx⟩ fun _ _ _ hi hok hst =>
          ⟨sliding_step hreq hstep hi.1 hok hst, kept_step hi.1 hok hst hp hi.2⟩
    exact h.2.2

/-- The last byte and then the whole file, with one byte kept behind the playhead. -/
def tailFirst : Fin 2 → Request
  | 0 => ⟨1, 1, 0, some ⟨0, 1, 1⟩⟩
  | 1 => ⟨0, 1, 0, some ⟨0, 1, 1⟩⟩

/-- The body `i` from the start, or from the check of a segment, to the end of its read. -/
def readOne (i : Fin 2) (data : List UInt8) : List (Act (Fin 2)) :=
  [.fg i {}, .fg i { answer := .decoded data }, .fg i {}, .fg i {}, .fg i {}]

/-- The tail is read, and its eviction call returns. -/
def readTail : List (Act (Fin 2)) :=
  [.fg 0 {}, .fg 0 {}] ++ readOne 0 [8] ++
    [.fg 0 {}, .fg 0 {}, .fg 0 {}, .fg 0 {}, .fg 0 {}]

def Fg.isBegin : Fg → Bool
  | .begin => true
  | _ => false

/-- The playhead and the policy of an eviction call that has returned. -/
def Fg.returnedAt : Fg → Option (Nat × EvictPolicy)
  | .evicting d p .returned => some (d.aPos, p)
  | _ => none

/-- A decidable form of `World.InTurn`. -/
def inTurnB (s : World (Fin 2)) : Act (Fin 2) → Bool
  | .fg 0 inp => inp.punched && (s.bodies 1).fg.isBegin
  | .fg 1 inp => inp.punched
  | _ => false

theorem inTurn_of_b {s : World (Fin 2)} {a : Act (Fin 2)} (h : inTurnB s a = true) :
    s.InTurn a := by
  unfold inTurnB at h
  split at h
  · obtain ⟨hp, hb⟩ := Bool.and_eq_true_iff.mp h
    refine ⟨fun j hj => ?_, fun i inp ha => by cases ha; exact hp⟩
    obtain rfl : j = 1 := by
      have : (0 : Fin 2) < j := hj
      omega
    unfold Fg.isBegin at hb
    split at hb
    · assumption
    · cases hb
  · refine ⟨fun j hj => ?_, fun i inp ha => by cases ha; exact h⟩
    have : (1 : Fin 2) < j := hj
    omega
  · cases h

/-- A decidable form of what no step may do: nothing is marked once a byte is evicted. -/
def refillsB (s : World (Fin 2)) : Act (Fin 2) → Bool
  | .fg i _ => match (s.bodies i).fg with
    | .ensuring _ _ (.marking _ _) => s.cache.lastEvictedTo ≠ 0
    | _ => false
  | _ => false

theorem not_refills_of_b {s : World (Fin 2)} {a : Act (Fin 2)} (h : refillsB s a = false) :
    ¬ s.Refills p a := by
  rintro ⟨i, inp, d, seg, start, stop, x, rfl, hf, -, -, -, hx⟩
  unfold refillsB at h
  simp only [hf] at h
  have : s.cache.lastEvictedTo = 0 := by simpa using h
  omega

/-- Played in order, the file keeps its last byte: the first is evicted. -/
theorem played_in_order :
    ∃ s, Reaches (World.step twoArticles tailFirst)
      (fun s a => s.InTurn a ∧ ¬ s.Refills ⟨0, 1, 1⟩ a)
      (.init (.openOrCreate (fun _ => 0) twoArticles.assembledEnd)) s ∧
      (s.bodies 1).fg.returnedAt = some (2, ⟨0, 1, 1⟩) ∧ s.cache.lastEvictedTo = 1 ∧
      s.Bounded ⟨0, 1, 1⟩ := by
  obtain ⟨s, hs, hp⟩ := exists_of_exec (World.step twoArticles tailFirst)
    (fun s a => inTurnB s a && !refillsB s a)
    (fun _ _ h => (Bool.and_eq_true_iff.mp h).imp inTurn_of_b fun h =>
      not_refills_of_b (by simpa using h))
    (.init (.openOrCreate (fun _ => 0) twoArticles.assembledEnd))
    ([.fg 1 {}, .fg 1 {}] ++ readOne 1 [7] ++ [.fg 1 {}, .fg 1 {}, .fg 1 {}] ++ readOne 1 [8] ++
      [.fg 1 {}, .fg 1 {}, .fg 1 {}, .fg 1 {}, .fg 1 {}])
    (fun s => (s.bodies 1).fg.returnedAt = some (2, ⟨0, 1, 1⟩) ∧ s.cache.lastEvictedTo = 1) rfl
  obtain ⟨hf, hw⟩ := of_decide_eq_true hp
  exact ⟨s, hs, hf, hw, (window_bounded twoArticles tailFirst ⟨0, 1, 1⟩ (fun _ => 0)
    _ (by decide) (by decide)).1 s hs⟩

/-- **A read of the tail first leaves the whole file behind the playhead**: it moves the
watermark, and the bytes played afterwards lie below. -/
theorem played_bytes_kept :
    ∃ s, Reaches (World.step twoArticles tailFirst) World.InTurn
      (.init (.openOrCreate (fun _ => 0) twoArticles.assembledEnd)) s ∧ ¬ s.Bounded ⟨0, 1, 1⟩ := by
  obtain ⟨s, hs, hp⟩ := exists_of_exec (World.step twoArticles tailFirst) inTurnB
    (fun _ _ => inTurn_of_b) (.init (.openOrCreate (fun _ => 0) twoArticles.assembledEnd))
    (readTail ++ [.fg 1 {}, .fg 1 {}] ++ readOne 1 [7] ++
      [.fg 1 {}, .fg 1 {}, .fg 1 {}, .fg 1 {}, .fg 1 {}, .fg 1 {}, .fg 1 {}])
    (fun s => (s.bodies 1).fg.returnedAt = some (2, ⟨0, 1, 1⟩) ∧ s.cache.populatedIn 0 1 = 1) rfl
  obtain ⟨hf, hcount⟩ := of_decide_eq_true hp
  refine ⟨s, hs, fun h => ?_⟩
  unfold Fg.returnedAt at hf
  split at hf
  · next d p hd =>
    obtain ⟨hpos, rfl⟩ : d.aPos = 2 ∧ p = ⟨0, 1, 1⟩ := by simpa using hf
    have hlt : s.cache.populatedIn 0 (d.aPos - 1) < 1 := h 1 d (fun j hj => by omega) hd
    rw [hpos, hcount] at hlt
    exact absurd hlt (Nat.lt_irrefl 1)
  · cases hf

end StremioNzb.Streaming

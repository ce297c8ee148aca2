import StremioNzb.Streaming.Playable
import StremioNzb.Streaming.Sharing

/-!
# One body

Read-ahead and eviction are transparent for one body. Its prefetches write true bytes, and its
evictions punch behind its playhead, so the bytes still to be yielded (`Body.ahead`) stay true
whatever the order of the steps; the loop ends after boundedly many of its own steps, since each
read yields and there are boundedly many steps between two reads (`Body.work`). So the body
yields the video bytes of its range, in chunks of at most `chunkSize` (`Transparent`), if and
only if the range lies in the segments (`transparent_iff`).
-/

namespace StremioNzb.Streaming

open StremioNzb.Lib

/-- Servers that hold the payloads: each segment is held by one of them, and the others fail on
it or decode to the same. -/
structure Source {S : Setup} (P : Payloads S) where
  serves : Nat → String → Answer → Prop
  answers : ∀ idx id, ∃ a, serves idx id a
  decodes : ∀ idx, ∀ seg ∈ S.segments, ∀ data, serves idx seg.messageId (.decoded data) →
    data = [] ∨ data = P.payload seg.messageId
  held : ∀ seg ∈ S.segments, ∃ idx < S.serverCount, ∀ a, serves idx seg.messageId a →
    a = .decoded (P.payload seg.messageId)

/-- A server that is asked answers as it does. -/
def Source.Answers {S : Setup} {P : Payloads S} (Q : Source P) (s : World Unit) (a : Act Unit) :
    Prop :=
  ∀ idx seg ans, s.asked S a = some (idx, seg, ans) → Q.serves idx seg.messageId ans

def Act.isFg {ι : Type} : Act ι → Bool
  | .fg _ _ => true
  | _ => false

section
variable {S : Setup} {P : Payloads S} (Q : Source P) (req : Request) (c : CachedFile)

abbrev Source.Reaches (s : World Unit) : Prop :=
  Lib.Reaches (World.step S fun _ => req) Q.Answers (.init c) s

/-- The body yields the video bytes of its range, in chunks, and ends. -/
structure Transparent : Prop where
  chunks : ∀ s, Q.Reaches req c s → ∀ chunk ∈ (s.bodies ()).yielded,
    chunk ≠ [] ∧ chunk.length ≤ chunkSize
  served : ∀ s, Q.Reaches req c s → (s.bodies ()).Served P req
  whole : ∀ s r, Q.Reaches req c s → (s.bodies ()).fg = .ended r → r = .ok () ∧
    (s.bodies ()).yielded.flatten.map some =
      (List.range' req.start (req.stop + 1 - req.start)).map P.videoByte
  progress : ∀ s, Q.Reaches req c s → (∃ r, (s.bodies ()).fg = .ended r) ∨
    ∃ inp s', Q.Answers s (.fg () inp) ∧ s.step S (fun _ => req) (.fg () inp) = some s'
  bounded : ∃ n, ∀ as s, Run (World.step S fun _ => req) Q.Answers (.init c) as s →
    as.countP Act.isFg ≤ n

end

/-- A layout all of whose video bytes up to `stop` lie in its segments, in order. -/
structure Setup.Playable (S : Setup) (stop : Nat) : Prop where
  laid : S.WellLaid
  pos : ∀ seg ∈ S.segments, 0 < seg.bytes
  ascending : S.layout.Ascending
  covered : ∀ v ≤ stop, ∃ a, S.layout.videoToAssembled v = some a ∧ a < S.assembledEnd

/-- A layout all of whose video bytes up to `stop` lie in its segments, in any order. -/
structure Setup.Covered (S : Setup) (stop : Nat) : Prop where
  laid : S.WellLaid
  pos : ∀ seg ∈ S.segments, 0 < seg.bytes
  mapped : ∀ v ≤ stop, ∃ a, S.layout.videoToAssembled v = some a ∧ a < S.assembledEnd

theorem Setup.Playable.covering {S : Setup} {stop : Nat} (h : S.Playable stop) :
    S.Covered stop := ⟨h.laid, h.pos, h.covered⟩

variable {S : Setup} {P : Payloads S} {Q : Source P} {req : Request} {c c' : CachedFile}
  {inp : Input} {k : Nat} {b b' : Body} {s s' : World Unit} {a : Act Unit}

/-! ## The bytes still to be yielded -/

/-- The assembled bytes that the body has yet to yield. -/
def Body.ahead (S : Setup) (req : Request) (b : Body) : Set Nat :=
  {x | ∃ v, b.position req ≤ v ∧ v ≤ req.stop ∧ S.layout.videoToAssembled v = some x}

/-- They are not behind the loop. -/
theorem Drain.Aligned.le_ahead (hasc : S.layout.Ascending) {d : Drain}
    (h : d.Aligned S req (b.position req)) {x : Nat} (hx : x ∈ b.ahead S req) : d.aPos ≤ x := by
  obtain ⟨v, hv, -, hmap⟩ := hx
  by_cases hle : v ≤ d.videoEnd
  · have := h.maps (v - b.position req) (by omega)
    rw [Nat.add_sub_cancel' hv, hmap] at this
    cases this
    omega
  · have := hasc _ _ _ _ (Nat.lt_of_not_le hle) h.last hmap
    have := h.aPos_le
    omega

/-- What is left to read of a segment is ahead. -/
theorem Drain.Aligned.mem_ahead {d : Drain} (h : d.Aligned S req (b.position req)) {x : Nat}
    (h1 : d.aPos ≤ x) (h2 : x ≤ d.assembledEnd) : x ∈ b.ahead S req := by
  have hrest := h.rest
  have hle : b.position req + (x - d.aPos) ≤ d.videoEnd := by omega
  refine ⟨_, Nat.le_add_right _ _, hle.trans h.videoEnd_le, ?_⟩
  rw [h.maps _ hle, Nat.add_sub_cancel' h1]

theorem Body.ahead_anti (h : b.position req ≤ b'.position req) :
    b'.ahead S req ⊆ b.ahead S req :=
  fun _ ⟨v, h1, h2, h3⟩ => ⟨v, h.trans h1, h2, h3⟩

theorem Fg.Effect.position_le (he : Fg.Effect S req c inp b c' b') :
    b.position req ≤ b'.position req := by
  cases he with
  | read => rw [Body.position_emit]; omega
  | _ => exact le_rfl

theorem World.Sound.anti {ι : Type} {s : World ι} {U V : Set Nat} (h : s.Sound P U) (hV : V ⊆ U) :
    s.Sound P V := by
  have hens : ∀ {e : Ensure} {seg}, e.Sound P U s.cache seg → e.Sound P V s.cache seg := by
    intro e seg he
    cases e with
    | marking start stop => exact ⟨he.1, he.2.1, fun x hx => he.2.2 x (hV hx)⟩
    | fetching | writing | returned => exact he
  refine ⟨fun x hx => h.populated x (hV hx), fun i => ⟨?_, fun j e seg hj hseg =>
    hens ((h.bodies i).tasks j e seg hj hseg)⟩⟩
  have hf := (h.bodies i).fg
  cases hfg : (s.bodies i).fg with
  | ensuring d seg e =>
    rw [hfg] at hf
    exact hens hf
  | reading d readEnd readPos =>
    rw [hfg] at hf
    exact fun x hx => hf x (hV hx)
  | begin | outer | drain | evicting | ended => trivial

/-! ## Evictions stay behind -/

/-- A window being evicted ends at the playhead at the latest. -/
def Fg.Behind : Fg → Prop
  | .evicting d _ (.punching _ stop) | .evicting d _ (.clearing _ stop) => stop ≤ d.aPos
  | _ => True

theorem Fg.behind_await {d : Drain} {seg : SegmentRef} {e : Ensure} :
    (Fg.await d seg e).Behind := by
  cases e with
  | returned r => cases r <;> trivial
  | fetching | writing | marking => trivial

theorem Fg.Behind.fg (h : b.fg.Behind) (he : Fg.Effect S req c inp b c' b') : b'.fg.Behind := by
  cases he with
  | evicted d p e e' _ hf he =>
    rw [hf] at h
    cases he with
    | window start stop h1 h2 h3 h4 =>
      show stop ≤ d.aPos
      omega
    | punched => exact h
    | idle | refused | failed | cleared | stored => trivial
  | missing | ensured => exact Fg.behind_await
  | _ => trivial

/-- **The evictions of a body do not disturb what it has yet to yield.** -/
theorem undisturbing_ahead (hasc : S.layout.Ascending) (hb : (s.bodies ()).fg.Behind)
    (hw : (s.bodies ()).Walk S req) :
    s.Undisturbing S ((s.bodies ()).ahead S req) a := by
  unfold Body.Walk at hw
  refine ⟨fun i inp d p start stop _ hf _ j x hx _ h2 => ?_,
    fun i inp d k seg _ hf _ _ _ x _ _ _ hcl => ?_⟩
  · rw [hf] at hb hw
    have := hw.le_ahead hasc hx
    exact absurd (h2.trans_le hb) (not_lt.mpr this)
  · obtain ⟨j, start, stop, hj, -⟩ := hcl
    rw [hf] at hj
    cases hj

/-! ## The body does not fail -/

/-- No failure: a server that holds the segment is yet to be asked, or the segment is there. -/
def Fg.Live (Q : Source P) : Fg → Prop
  | .ensuring _ seg (.fetching order _) =>
    ∃ idx ∈ order, ∀ a, Q.serves idx seg.messageId a → a = .decoded (P.payload seg.messageId)
  | .ensuring _ _ (.returned _) => False
  | .ended (.error _) => False
  | _ => True

/-- A step of `ensure_segment_cached` leads on. -/
theorem Fg.Live.await {d : Drain} {seg : SegmentRef} {e e' : Ensure}
    (hp : S.Covered req.stop) (hsize : c.totalSize = S.assembledEnd) (hseg : seg ∈ S.segments)
    (h : (Fg.ensuring d seg e).Live Q) (he : Ensure.Effect seg c inp.answer e c' e')
    (hok : ∀ idx rest lastErr, e = .fetching (idx :: rest) lastErr →
      Q.serves idx seg.messageId inp.answer) : (Fg.await d seg e').Live Q := by
  have hpos := hp.pos seg hseg
  have hlen := P.length_eq seg hseg
  cases he with
  | exhausted lastErr m =>
    obtain ⟨idx, hidx, -⟩ := h
    cases hidx
  | failedOver idx rest lastErr m hm =>
    obtain ⟨good, hgood, hserves⟩ := h
    rcases List.mem_cons.mp hgood with rfl | hgood
    · -- the server that holds the segment does not fail
      have := hm _ (hserves _ (hok good rest lastErr rfl))
      rw [this] at hlen
      exact absurd hlen (Nat.ne_of_lt hpos)
    · exact ⟨good, hgood, hserves⟩
  | refused idx rest lastErr data m ha hne hlt =>
    obtain ⟨i, hi⟩ := List.mem_iff_getElem?.mp hseg
    have hstop : seg.offsetInStream + seg.bytes ≤ S.assembledEnd :=
      hp.laid.segments.stop_le_end hi
    have := List.length_take_le seg.bytes data
    omega
  | nothing idx rest lastErr data ha hne h0 => exact absurd h0 (Nat.ne_of_gt hpos)
  | fetched | wrote | marked => trivial

theorem Source.serverCount_pos (hp : S.Covered req.stop) (Q : Source P) : 0 < S.serverCount := by
  obtain ⟨a, -, ha⟩ := hp.mapped req.stop le_rfl
  obtain ⟨i, seg, hi, -⟩ := exists_block ha
  obtain ⟨idx, hidx, -⟩ := Q.held seg (List.mem_of_getElem? hi)
  omega

/-- **A step of the foreground loop does not fail.** -/
theorem Fg.Live.fg (hp : S.Covered req.stop) (hsize : c.totalSize = S.assembledEnd)
    (hw : b.Walk S req) (h : b.fg.Live Q) (he : Fg.Effect S req c inp b c' b')
    (hok : ∀ d seg idx rest lastErr, b.fg = .ensuring d seg (.fetching (idx :: rest) lastErr) →
      Q.serves idx seg.messageId inp.answer) : b'.fg.Live Q := by
  unfold Body.Walk at hw
  cases he with
  | serverless m hf h0 => exact absurd h0 (Nat.ne_of_gt (Q.serverCount_pos hp))
  | unmapped cursor m hf hle hn =>
    obtain ⟨a, ha, -⟩ := hp.mapped cursor hle
    rw [hn] at ha
    cases ha
  | segmentless d m hf hle hn =>
    rw [hf] at hw
    have hrest := hw.rest
    have hmap := hw.maps 0 (by omega)
    obtain ⟨a, ha, hlt⟩ := hp.mapped _ ((by omega : b.position req + 0 ≤ d.videoEnd).trans
      hw.videoEnd_le)
    rw [hmap] at ha
    cases ha
    obtain ⟨i, seg, hi, h1, h2⟩ := exists_block hlt
    rw [← hp.laid.segments i seg hi] at h1 h2
    have hfind : findSegmentForByte S.search S.segments d.aPos = some i :=
      findSegmentForByte_eq_some hp.laid.segments hi h1 h2 fun z hz _ => hp.pos z hz
    rw [hn] at hfind
    cases hfind
  | missing d i seg hf hle hi hseg hr =>
    obtain ⟨idx, hidx, hserves⟩ := Q.held seg (List.mem_of_getElem? hseg)
    unfold Ensure.begin
    rw [if_neg (Nat.ne_of_gt (Q.serverCount_pos hp))]
    exact ⟨idx, mem_serverOrder hidx, hserves⟩
  | ensured d seg e e' _ hf he =>
    rw [hf] at hw h
    apply Fg.Live.await hp hsize hw.2.mem h he
    rintro idx rest lastErr rfl
    exact hok d seg idx rest lastErr hf
  | unread d readEnd readPos m hf hle hlt =>
    rw [hf] at hw
    have := hw.2.2.2
    omega
  | _ => trivial

/-! ## What holds along a run -/

def Body.ChunksFit (b : Body) : Prop :=
  ∀ chunk ∈ b.yielded, chunk ≠ [] ∧ chunk.length ≤ chunkSize

theorem Body.ChunksFit.fg (h : b.ChunksFit) (he : Fg.Effect S req c inp b c' b') :
    b'.ChunksFit := by
  cases he with
  | read d readEnd readPos hf hle =>
    intro chunk hchunk
    rcases List.mem_append.mp hchunk with hc | hc
    · exact h chunk hc
    · obtain rfl : chunk = c.readChunk readEnd readPos := by simpa using hc
      refine ⟨fun h0 => ?_, ?_⟩
      · exact CachedFile.readChunk_ne_nil (List.length_eq_zero_iff.mpr h0)
      · rw [CachedFile.readBytes_length]
        exact Nat.min_le_right _ _
  | _ => exact h

/-- The last byte yielded lies in the assembled stream. -/
def Body.Inside (S : Setup) (req : Request) (b : Body) : Prop :=
  b.yielded.flatten = [] ∨ ∃ v a, b.position req = v + 1 ∧
    S.layout.videoToAssembled v = some a ∧ a < S.assembledEnd

theorem Body.Inside.fg (h : b.Inside S req) (hw : b.Walk S req)
    (he : Fg.Effect S req c inp b c' b') : b'.Inside S req := by
  unfold Body.Walk at hw
  cases he with
  | read d readEnd readPos hf hle =>
    rw [hf] at hw
    obtain ⟨ha, -, hend, hlt⟩ := hw
    have hrest : b.position req + (d.assembledEnd + 1 - readPos) = d.videoEnd + 1 := ha.rest
    have hn : 0 < min (readEnd - readPos + 1) chunkSize := by
      unfold chunkSize
      omega
    refine .inr ⟨_, _, ?_, ha.maps (min (readEnd - readPos + 1) chunkSize - 1) ?_, ?_⟩
    · rw [Body.position_emit, CachedFile.readBytes_length]
      omega
    · show _ ≤ d.videoEnd
      omega
    · show readPos + _ < _
      omega
  | _ => exact h

/-- What holds of one body in every run. -/
structure World.Steady (S : Setup) (req : Request) (s : World Unit) : Prop where
  walk : (s.bodies ()).Walk S req
  chunks : (s.bodies ()).ChunksFit
  inside : (s.bodies ()).Inside S req
  behind : (s.bodies ()).fg.Behind
  size : s.cache.totalSize = S.assembledEnd

theorem steady_step (hl : S.WellLaid) (h : s.Steady S req)
    (hs : s.step S (fun _ => req) a = some s') : s'.Steady S req := by
  cases World.step_effect hs with
  | fg i inp c b he =>
    exact ⟨h.walk.fg hl he, h.chunks.fg he, h.inside.fg h.walk he, h.behind.fg he,
      he.totalSize.trans h.size⟩
  | spawn i b he | task i k inp c b he =>
    refine ⟨h.walk.prefetch he, ?_, ?_, ?_, he.totalSize.trans h.size⟩
    · have := h.chunks
      unfold Body.ChunksFit at this ⊢
      exact he.yielded ▸ this
    · have := h.inside
      unfold Body.Inside Body.position at this ⊢
      exact he.yielded ▸ this
    · exact he.fg ▸ h.behind

/-- What holds besides where the range lies in the segments. -/
structure World.Playing (Q : Source P) (req : Request) (s : World Unit) : Prop where
  steady : s.Steady S req
  sound : s.Sound P ((s.bodies ()).ahead S req)
  served : (s.bodies ()).Served P req
  live : (s.bodies ()).fg.Live Q

/-- The servers asked by a body answer with the payload of the segment or not at all. -/
theorem Source.serves_of_answers (hw : (s.bodies ()).Walk S req) (h : Q.Answers s a) :
    P.Serves s a := by
  intro idx seg data ha
  refine Q.decodes idx seg ?_ data (h idx seg _ ha)
  cases a with
  | fg i inp =>
    simp only [World.asked] at ha
    split at ha
    · next d seg' idx' rest lastErr hf =>
      obtain ⟨-, rfl, -⟩ : idx' = idx ∧ seg' = seg ∧ _ := by simpa using ha
      unfold Body.Walk at hw
      rw [hf] at hw
      exact hw.2.mem
    · cases ha
  | spawn i => cases ha
  | task i k inp =>
    simp only [World.asked] at ha
    split at ha
    · next j idx' rest lastErr hk =>
      obtain ⟨seg', hseg, he⟩ := Option.map_eq_some_iff.mp ha
      obtain ⟨-, rfl, -⟩ : idx' = idx ∧ seg' = seg ∧ _ := by simpa using he
      exact List.mem_of_getElem? hseg
    · cases ha

/-- What the loop is about to read is ahead. -/
theorem Body.Walk.reading_ahead (hw : b.Walk S req) {d : Drain} {readEnd readPos x : Nat}
    (hf : b.fg = .reading d readEnd readPos) (h1 : readPos ≤ x) (h2 : x ≤ readEnd) :
    x ∈ b.ahead S req := by
  unfold Walk at hw
  rw [hf] at hw
  exact hw.1.mem_ahead h1 (h2.trans hw.2.2.1)

theorem ahead_step (hs : s.step S (fun _ => req) a = some s') :
    (s'.bodies ()).ahead S req ⊆ (s.bodies ()).ahead S req := by
  cases World.step_effect hs with
  | fg i inp c b he => exact Body.ahead_anti he.position_le
  | spawn i b he | task i k inp c b he =>
    refine Body.ahead_anti (le_of_eq ?_)
    unfold Body.position
    simp [he.yielded]

theorem playing_step (hp : S.Playable req.stop) (h : s.Playing Q req) (hok : Q.Answers s a)
    (hs : s.step S (fun _ => req) a = some s') : s'.Playing Q req where
  steady := steady_step hp.laid h.steady hs
  sound := by
    have hundisturbed := undisturbing_ahead (a := a) hp.ascending h.steady.behind h.steady.walk
    exact (sound_step hp.laid h.sound (fun _ => h.steady.walk)
      (Q.serves_of_answers h.steady.walk hok) hundisturbed hs).anti (ahead_step hs)
  served := served_step (fun _ => h.served) (fun _ => h.steady.walk) h.sound
    (fun _ _ _ _ _ hf h1 h2 => h.steady.walk.reading_ahead hf h1 h2) hs ()
  live := by
    cases World.step_effect hs with
    | fg i inp c b he =>
      refine h.live.fg hp.covering h.steady.size h.steady.walk he
        fun d seg idx rest lastErr hf => ?_
      exact hok idx seg inp.answer (by simp only [World.asked, hf])
    | spawn i b he | task i k inp c b he => exact he.fg ▸ h.live

theorem steady_init (hc : c.totalSize = S.assembledEnd) : (World.init c).Steady S req :=
  ⟨walk_fresh, fun _ h => by simp [World.init, Body.fresh] at h, .inl rfl, trivial, hc⟩

theorem playing_init (hc : c.totalSize = S.assembledEnd) (htrue : ∀ x, c.Has x → P.TrueAt c x) :
    (World.init c).Playing Q req :=
  ⟨steady_init hc, World.sound_init fun x _ => htrue x, Body.served_fresh, trivial⟩

theorem steady_reaches (hl : S.WellLaid) (hc : c.totalSize = S.assembledEnd)
    (h : Q.Reaches req c s) : s.Steady S req :=
  h.inv (steady_init hc) fun _ _ _ hi _ hs => steady_step hl hi hs

theorem playing_reaches (hp : S.Playable req.stop) (hc : c.totalSize = S.assembledEnd)
    (htrue : ∀ x, c.Has x → P.TrueAt c x) (h : Q.Reaches req c s) : s.Playing Q req :=
  h.inv (playing_init hc htrue) fun _ _ _ hi hok hs => playing_step hp hi hok hs

/-! ## Steps left -/

/-- Steps left of `ensure_segment_cached`. -/
def Ensure.work : Ensure → Nat
  | .fetching order _ => order.length + 3
  | .writing _ => 2
  | .marking _ _ => 1
  | .returned _ => 0

def Evict.work : Evict → Nat
  | .loading => 4
  | .punching _ _ => 3
  | .clearing _ _ => 2
  | .storing _ => 1
  | .returned => 0

/-- Steps of the loop before its next read, with `n` servers. -/
def Fg.work (n : Nat) : Fg → Nat
  | .begin => n + 7
  | .outer _ => n + 6
  | .drain d => if d.aPos ≤ d.assembledEnd then n + 5 else n + 7
  | .ensuring _ _ e => e.work + 1
  | .reading _ readEnd readPos => if readPos ≤ readEnd then 1 else n + 13
  | .evicting _ _ e => n + 8 + e.work
  | .ended _ => 0

/-- Steps left of the body: before the next read, and for each byte left. -/
def Body.work (S : Setup) (req : Request) (b : Body) : Nat :=
  (req.stop + 1 - b.position req) * (S.serverCount + 14) + b.fg.work S.serverCount

theorem Ensure.Effect.work_lt {seg : SegmentRef} {answer : Answer} {e e' : Ensure}
    (he : Effect seg c answer e c' e') : e'.work < e.work := by
  cases he <;> simp [work]

theorem Evict.Effect.work_lt {p : EvictPolicy} {playhead : Nat} {punched : Bool} {e e' : Evict}
    (he : Effect p playhead c punched e c' e') : e'.work < e.work := by
  cases he <;> simp [work]

theorem Fg.work_await {n : Nat} {d : Drain} {seg : SegmentRef} {e : Ensure} (hin : d.In S seg) :
    (Fg.await d seg e).work n ≤ e.work + 1 := by
  cases e with
  | returned r =>
    cases r with
    | error m => exact Nat.zero_le _
    | ok u =>
      show (if d.aPos ≤ d.readEnd seg then 1 else n + 13) ≤ 1
      rw [if_pos hin.le_readEnd]
  | fetching | writing | marking => exact le_rfl

theorem Ensure.work_begin {n : Nat} {seg : SegmentRef} : (begin n seg).work ≤ n + 3 := by
  unfold begin
  split
  · exact Nat.zero_le _
  · simp [work, serverOrder]

theorem Fg.work_le {n : Nat} {fg : Fg} (h : ∀ d seg e, fg ≠ .ensuring d seg e) :
    fg.work n ≤ n + 13 := by
  cases fg with
  | ensuring d seg e => exact absurd rfl (h d seg e)
  | evicting d p e => cases e <;> simp [work, Evict.work]
  | drain | reading =>
    simp only [work]
    split <;> omega
  | begin | outer | ended =>
    simp only [work]
    omega

theorem Body.work_lt_of_fg (hpos : b'.position req = b.position req)
    (h : b'.fg.work S.serverCount < b.fg.work S.serverCount) : b'.work S req < b.work S req := by
  unfold work
  rw [hpos]
  exact Nat.add_lt_add_left h _

/-- **Each step of the loop leaves fewer**: a read is paid for by the bytes it yields. -/
theorem Body.work_fg (hl : S.WellLaid) (hw : b.Walk S req) (he : Fg.Effect S req c inp b c' b') :
    b'.work S req < b.work S req := by
  unfold Walk at hw
  cases he with
  | empty hf | serverless m hf | began hf | finished cursor hf | unmapped cursor m hf =>
    refine work_lt_of_fg rfl ?_
    simp [goto, hf, Fg.work]
  | chunk cursor a hf hle ha hpos =>
    refine work_lt_of_fg rfl ?_
    simp [goto, hf, Fg.work]
  | drained d hf hlt =>
    refine work_lt_of_fg rfl ?_
    simp [goto, hf, Fg.work, Nat.not_le.mpr hlt]
  | segmentless d m hf hle hn =>
    refine work_lt_of_fg rfl ?_
    simp [goto, hf, Fg.work, hle]
  | cached d i seg hf hle hi hseg hr =>
    refine work_lt_of_fg rfl ?_
    simp [hf, Fg.work, hle, (Drain.in_of_find hl hle hi hseg).le_readEnd]
  | missing d i seg hf hle hi hseg hr =>
    refine work_lt_of_fg rfl (lt_of_le_of_lt
      ((Fg.work_await (Drain.in_of_find hl hle hi hseg)).trans
        (Nat.succ_le_succ Ensure.work_begin)) ?_)
    simp [hf, Fg.work, hle]
  | ensured d seg e e' _ hf he =>
    rw [hf] at hw
    refine work_lt_of_fg rfl (lt_of_le_of_lt (Fg.work_await hw.2) ?_)
    rw [hf]
    exact Nat.succ_lt_succ he.work_lt
  | unread d readEnd readPos m hf hle hlt =>
    refine work_lt_of_fg rfl ?_
    simp [goto, hf, Fg.work, hle]
  | read d readEnd readPos hf hle =>
    rw [hf] at hw
    have hrest : b.position req + (d.assembledEnd + 1 - readPos) = d.videoEnd + 1 := hw.1.rest
    have hend : d.videoEnd ≤ req.stop := hw.1.videoEnd_le
    have hn : 1 ≤ (c.readChunk readEnd readPos).length :=
      Nat.pos_of_ne_zero CachedFile.readChunk_ne_nil
    have hleft : req.stop + 1 - (b.position req + (c.readChunk readEnd readPos).length) + 1 ≤
        req.stop + 1 - b.position req := by omega
    have hw' : (b.emit d readEnd readPos (c.readChunk readEnd readPos)).fg.work S.serverCount ≤
        S.serverCount + 13 := Fg.work_le fun _ _ _ => by simp [emit]
    have hmul := Nat.mul_le_mul_right (S.serverCount + 14) hleft
    rw [Nat.succ_mul] at hmul
    unfold work
    rw [position_emit]
    omega
  | served d readEnd readPos hf hlt hn =>
    refine work_lt_of_fg rfl ?_
    have : (Fg.drain { d with aPos := readEnd + 1 }).work S.serverCount ≤ S.serverCount + 7 := by
      simp only [Fg.work]
      split <;> omega
    simp only [goto, hf, Fg.work, if_neg (Nat.not_le.mpr hlt)] at this ⊢
    omega
  | called d readEnd readPos p hf hlt hp =>
    refine work_lt_of_fg rfl ?_
    simp [goto, hf, Fg.work, Evict.work, Nat.not_le.mpr hlt]
  | evicted d p e e' _ hf he =>
    refine work_lt_of_fg rfl ?_
    rw [hf]
    exact Nat.add_lt_add_left he.work_lt _
  | resumed d p hf =>
    refine work_lt_of_fg rfl ?_
    simp only [goto, hf, Fg.work, Evict.work]
    split <;> omega

theorem bounded_work (hl : S.WellLaid) {as : List (Act Unit)} {ok : World Unit → Act Unit → Prop}
    (h : Run (World.step S fun _ => req) ok (.init c) as s) :
    as.countP Act.isFg ≤ Body.fresh.work S req := by
  have hstep : ∀ t a u, (t.bodies ()).Walk S req → ok t a →
      World.step S (fun _ => req) t a = some u → (u.bodies ()).Walk S req :=
    fun t a u hw _ hs => walk_step hl (fun _ => hw) hs ()
  have := h.countP_le (I := fun s => (s.bodies ()).Walk S req)
    (μ := fun s => (s.bodies ()).work S req) (p := Act.isFg) walk_fresh hstep ?_
  · exact (Nat.le_add_right _ _).trans this
  · intro t a u hw _ hs
    cases World.step_effect hs with
    | fg i inp c b he => exact Body.work_fg hl hw he
    | spawn i b he | task i k inp c b he =>
      show Body.work S req b ≤ Body.work S req (t.bodies ())
      unfold Body.work Body.position
      rw [he.fg, he.yielded]

theorem Ensure.exists_step {seg : SegmentRef} {answer : Answer} {e : Ensure}
    (h : ∀ r, e ≠ .returned r) : ∃ r, e.step seg c answer = some r := by
  cases e with
  | fetching order lastErr =>
    cases order with
    | nil => exact ⟨_, rfl⟩
    | cons idx rest =>
      simp only [step]
      split
      · exact ⟨_, rfl⟩
      · exact ⟨_, rfl⟩
      · split
        · exact ⟨_, rfl⟩
        · split <;> exact ⟨_, rfl⟩
  | writing | marking => exact ⟨_, rfl⟩
  | returned r => exact absurd rfl (h r)

theorem Evict.exists_next {p : EvictPolicy} {playhead : Nat} {punched : Bool} {e : Evict}
    (h : e ≠ .returned) : ∃ r, e.next p playhead c punched = some r := by
  cases e with
  | loading =>
    simp only [next]
    split
    · exact ⟨_, rfl⟩
    · split <;> exact ⟨_, rfl⟩
  | punching start stop =>
    simp only [next]
    split <;> exact ⟨_, rfl⟩
  | clearing | storing => exact ⟨_, rfl⟩
  | returned => exact absurd rfl h

/-- A loop that has not ended can step, whatever the environment chooses. -/
theorem Body.exists_fgStep (hl : S.WellLaid) (h : b.fg.Live Q) :
    (∃ r, b.fg = .ended r) ∨ ∀ inp, ∃ r, b.fgStep S req c inp = some r := by
  cases hf : b.fg with
  | ended r => exact .inl ⟨r, rfl⟩
  | begin =>
    refine .inr fun inp => ?_
    simp only [fgStep, hf]
    split
    · exact ⟨_, rfl⟩
    · split <;> exact ⟨_, rfl⟩
  | outer cursor =>
    refine .inr fun inp => ?_
    simp only [fgStep, hf]
    split
    · split
      · exact ⟨_, rfl⟩
      · split <;> exact ⟨_, rfl⟩
    · exact ⟨_, rfl⟩
  | drain d =>
    refine .inr fun inp => ?_
    simp only [fgStep, hf]
    split
    · split
      · exact ⟨_, rfl⟩
      · next i hi =>
        obtain ⟨seg, hseg, -⟩ := findSegmentForByte_sound hl.segments.sorted hi
        rw [hseg]
        exact ⟨_, rfl⟩
    · exact ⟨_, rfl⟩
  | ensuring d seg e =>
    refine .inr fun inp => ?_
    rw [hf] at h
    have hne : ∀ r, e ≠ .returned r := by
      rintro r rfl
      exact h
    obtain ⟨⟨c', e'⟩, hs⟩ : ∃ r, e.step seg c inp.answer = some r := Ensure.exists_step hne
    simp only [fgStep, hf, hs]
    exact ⟨_, rfl⟩
  | reading d readEnd readPos =>
    refine .inr fun inp => ?_
    simp only [fgStep, hf]
    split
    · split
      · exact ⟨_, rfl⟩
      · split <;> exact ⟨_, rfl⟩
    · split <;> exact ⟨_, rfl⟩
  | evicting d p e =>
    refine .inr fun inp => ?_
    by_cases he : e = .returned
    · simp only [fgStep, hf, he]
      exact ⟨_, rfl⟩
    · obtain ⟨⟨c', e'⟩, hs⟩ : ∃ r, e.next p d.aPos c inp.punched = some r :=
        Evict.exists_next he
      simp only [fgStep, hf, hs]
      exact ⟨_, rfl⟩

/-- The environment has a choice that the servers agree with. -/
theorem Source.exists_input (Q : Source P) (s : World Unit) :
    ∃ inp, Q.Answers s (.fg () inp) := by
  cases ha : s.asked S (.fg () {}) with
  | none =>
    refine ⟨{}, fun idx seg ans h => ?_⟩
    rw [ha] at h
    cases h
  | some r =>
    obtain ⟨idx, seg, _⟩ := r
    obtain ⟨ans, hans⟩ := Q.answers idx seg.messageId
    refine ⟨{ answer := ans }, fun idx' seg' ans' h => ?_⟩
    simp only [World.asked] at ha h
    split at ha
    · next hf =>
      rw [hf] at h
      simp only [Option.some.injEq, Prod.mk.injEq] at ha h
      obtain ⟨rfl, rfl, -⟩ := ha
      obtain ⟨rfl, rfl, rfl⟩ := h
      exact hans
    · cases ha

theorem exists_step (hl : S.WellLaid) (h : (s.bodies ()).fg.Live Q) :
    (∃ r, (s.bodies ()).fg = .ended r) ∨
      ∃ inp s', Q.Answers s (.fg () inp) ∧ s.step S (fun _ => req) (.fg () inp) = some s' := by
  have hex : _ ∨ ∀ inp, ∃ r, (s.bodies ()).fgStep S req s.cache inp = some r :=
    Body.exists_fgStep hl h
  refine hex.imp_right fun hstep => ?_
  obtain ⟨inp, hinp⟩ := Q.exists_input s
  obtain ⟨⟨c', b'⟩, hb⟩ := hstep inp
  exact ⟨inp, _, hinp, by rw [World.step, hb]; rfl⟩

/-! ## Transparency -/

/-- A body that has ended without error has yielded its range. -/
theorem World.Playing.whole (h : s.Playing Q req) (hle : req.start ≤ req.stop)
    {r : Except String Unit} (hr : (s.bodies ()).fg = .ended r) :
    r = .ok () ∧ (s.bodies ()).yielded.flatten.map some =
      (List.range' req.start (req.stop + 1 - req.start)).map P.videoByte := by
  have hw := h.steady.walk
  have hlive := h.live
  unfold Body.Walk at hw
  rw [hr] at hw hlive
  cases r with
  | error m => exact hlive.elim
  | ok u =>
    have hpos : (s.bodies ()).position req =
        req.start + (s.bodies ()).yielded.flatten.length := rfl
    have hlen : (s.bodies ()).yielded.flatten.length = req.stop + 1 - req.start := by
      rcases hw with ⟨hlt, hend | hnil⟩
      · omega
      · rw [hpos, hnil] at hlt
        simp at hlt
        omega
    refine ⟨rfl, List.ext_getElem? fun k => ?_⟩
    rw [List.getElem?_map, List.getElem?_map]
    by_cases hk : k < req.stop + 1 - req.start
    · have hbyte := List.getElem?_eq_getElem (hlen ▸ hk)
      rw [List.getElem?_range' hk, hbyte, Option.map_some, Option.map_some, Nat.one_mul,
        h.served k _ hbyte]
    · rw [List.getElem?_eq_none (by omega), List.getElem?_eq_none (by simpa using hk)]
      rfl

theorem Posted.playable (p : Posted) {search : SegmentSearch} {n stop : Nat}
    (hpos : ∀ seg ∈ p.layout.segments, 0 < seg.bytes) (htotal : stop < p.total)
    (hc : p.Covers stop) : Setup.Playable ⟨p.layout, search, n⟩ stop :=
  ⟨⟨p.contiguous, p.chunksContiguous⟩, hpos, p.ascending, fun _ hv => p.covered htotal hc hv⟩

theorem transparent_of_playable (hp : S.Playable req.stop) (hle : req.start ≤ req.stop)
    (hsize : c.totalSize = S.assembledEnd) (htrue : ∀ x, c.Has x → P.TrueAt c x) :
    Transparent Q req c where
  chunks _ hs := (steady_reaches hp.laid hsize hs).chunks
  served _ hs := (playing_reaches hp hsize htrue hs).served
  whole _ _ hs hr := (playing_reaches hp hsize htrue hs).whole hle hr
  progress _ hs := exists_step hp.laid (playing_reaches hp hsize htrue hs).live
  bounded := ⟨_, fun _ _ hrun => bounded_work hp.laid hrun⟩

/-- A transparent body has read the last byte of its range from the assembled stream. -/
theorem Transparent.last_inside (h : Transparent Q req c) (hl : S.WellLaid)
    (hle : req.start ≤ req.stop) (hsize : c.totalSize = S.assembledEnd) :
    ∃ a, S.layout.videoToAssembled req.stop = some a ∧ a < S.assembledEnd := by
  obtain ⟨n, hn⟩ := h.bounded
  obtain ⟨s, hs, r, hr⟩ := exists_halted hn fun t ht =>
    (h.progress t ht).imp_right fun ⟨inp, u, hok, hu⟩ => ⟨.fg () inp, u, rfl, hok, hu⟩
  obtain ⟨-, hwhole⟩ := h.whole s r hs hr
  have hlen : (s.bodies ()).yielded.flatten.length = req.stop + 1 - req.start := by
    have := congrArg List.length hwhole
    rwa [List.length_map, List.length_map, List.length_range'] at this
  rcases (steady_reaches hl hsize hs).inside with hnil | ⟨v, a, hv, hmap, ha⟩
  · rw [hnil] at hlen
    simp at hlen
    omega
  · rw [Body.position] at hv
    obtain rfl : v = req.stop := by omega
    exact ⟨a, hmap, ha⟩

/-- **Read-ahead and eviction are transparent for one body if and only if its range lies in the
segments**: always for RAR volumes, and for a single file where the range ends before the last
segment does. -/
theorem transparent_iff (p : Posted) (search : SegmentSearch) (n : Nat)
    (P : Payloads ⟨p.layout, search, n⟩) (Q : Source P) (req : Request) (c : CachedFile)
    (hpos : ∀ seg ∈ p.layout.segments, 0 < seg.bytes) (hle : req.start ≤ req.stop)
    (htotal : req.stop < p.total) (hsize : c.totalSize = p.layout.assembledSize)
    (htrue : ∀ x, c.Has x → P.TrueAt c x) :
    Transparent Q req c ↔ p.Covers req.stop := by
  rw [p.assembledSize_eq] at hsize
  refine ⟨fun h => ?_, fun h => ?_⟩
  · obtain ⟨a, hmap, ha⟩ := h.last_inside (⟨p.contiguous, p.chunksContiguous⟩) hle hsize
    exact p.covers_of_last hmap ha
  · exact transparent_of_playable (p.playable hpos htotal h) hle hsize htrue

/-! ## A header that promises more than was posted -/

/-- Every server holds every payload. -/
def Source.honest {S : Setup} (P : Payloads S) (h : 0 < S.serverCount) : Source P where
  serves _ id a := a = .decoded (P.payload id)
  answers _ _ := ⟨_, rfl⟩
  decodes _ _ _ _ ha := .inr (Answer.decoded.inj ha)
  held _ _ := ⟨0, h, fun _ ha => ha⟩

/-- A file of one article of four bytes, declared as ten, with the size in its header. -/
def oneArticle (headerSize : Nat) : Posted := .flat [⟨10, 1, "a"⟩] 0 4 (some headerSize)

abbrev oneArticleSetup (headerSize : Nat) : Setup :=
  ⟨(oneArticle headerSize).layout, .leftmost _, 1⟩

def shortPayloads : Payloads (oneArticleSetup 8) := ⟨fun _ => [1, 2, 3, 4], by decide⟩

abbrev shortStep : World Unit → Act Unit → Option (World Unit) :=
  World.step (oneArticleSetup 8) fun _ => ⟨0, 7, 0, none⟩

def answersB (s : World Unit) (a : Act Unit) : Bool :=
  match s.asked (oneArticleSetup 8) a with
  | some (_, _, ans) => ans = .decoded [1, 2, 3, 4]
  | none => true

theorem answers_of_b {s : World Unit} {a : Act Unit} (h : answersB s a = true) :
    (Source.honest shortPayloads Nat.one_pos).Answers s a := by
  intro idx seg ans ha
  rw [answersB, ha] at h
  have he : ans = .decoded [1, 2, 3, 4] := of_decide_eq_true h
  exact he

/-- **The body of such a file fails** after the four bytes: the total is that of the header. -/
theorem short_file_fails :
    (oneArticle 8).total = 8 ∧ ¬ Transparent (Source.honest shortPayloads Nat.one_pos)
      ⟨0, 7, 0, none⟩ (.openOrCreate (fun _ => 0) 4) := by
  refine ⟨by decide, fun h => ?_⟩
  obtain ⟨s, hs, hp⟩ := exists_of_exec shortStep answersB (fun _ _ => answers_of_b)
    (.init (.openOrCreate (fun _ => 0) 4))
    [.fg () {}, .fg () {}, .fg () {}, .fg () { answer := .decoded [1, 2, 3, 4] }, .fg () {},
      .fg () {}, .fg () {}, .fg () {}, .fg () {}]
    (fun s => (s.bodies ()).fg.result =
      some (.error "assembled byte 4 past last segment")) rfl
  cases (h.whole s _ hs (Fg.eq_ended (of_decide_eq_true hp))).1

/-! ## Two volumes -/

/-- Two volumes of two articles; of the seven bytes of each the last six are data. -/
def twoRars : Posted :=
  .rar [⟨["a", "b"], 4, some 7, 1, 6⟩, ⟨["c", "d"], 4, some 7, 1, 6⟩] (by decide)

abbrev twoRarsSetup : Setup := ⟨twoRars.layout, .leftmost _, 2⟩

def twoRarsPayloads : Payloads twoRarsSetup :=
  ⟨fun id => if id = "a" ∨ id = "c" then [1, 2, 3, 4] else [5, 6, 7], by decide⟩

/-- The second server alone holds the payloads. -/
def Source.onSecond {S : Setup} (P : Payloads S) (h : 1 < S.serverCount) : Source P where
  serves i id a := a = if i = 1 then .decoded (P.payload id) else .fetchError "430"
  answers _ _ := ⟨_, rfl⟩
  decodes i _ _ _ ha := by
    split at ha
    · exact .inr (Answer.decoded.inj ha)
    · cases ha
  held _ _ := ⟨1, h, fun _ ha => ha⟩

/-- The body of both is transparent across their border, with read-ahead and with eviction. -/
theorem two_volumes_transparent :
    Transparent (Source.onSecond twoRarsPayloads (by decide)) ⟨1, 11, 2, some ⟨2, 1, 1⟩⟩
      (.openOrCreate (fun _ => 0) 14) :=
  (transparent_iff twoRars _ 2 twoRarsPayloads _ ⟨1, 11, 2, some ⟨2, 1, 1⟩⟩
    (.openOrCreate (fun _ => 0) 14) (by decide) (by decide) (by decide) rfl
    (fun x hx => absurd hx (PopulatedRanges.not_mem_bytes_new x))).mpr trivial

end StremioNzb.Streaming

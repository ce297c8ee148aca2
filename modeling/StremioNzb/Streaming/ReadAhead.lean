import StremioNzb.Streaming.Transparent

/-!
# Read-ahead

`buffer_unordered` bounds the fetches in flight, not how far they are ahead of the segment being
served: while the foreground loop stands still the prefetcher fetches the whole range. It stays
within `readAhead` segments only where the segments further on are cached from the start.
-/

namespace StremioNzb.Streaming

open StremioNzb.Lib

section
variable (S : Setup) (req : Request)

/-- The segments of the range, in the order of the prefetcher. -/
abbrev Setup.planned : List Nat := S.segmentIndicesInRange req.start req.stop

/-- Position of a segment in that order: how many come before it. -/
def Setup.rank (j : Nat) : Nat := ((S.planned req).filter (· < j)).length

/-- Position of the segment being served, `0` before the first. -/
def Body.servingRank (b : Body) : Nat := (b.serving.map (S.rank req)).getD 0

/-- Every fetch that the prefetcher has started is at most `readAhead` segments after the one
being served. -/
def World.WithinReach (s : World Unit) : Prop :=
  ∀ j ∈ (s.bodies ()).started, S.rank req j ≤ (s.bodies ()).servingRank S req + req.readAhead

/-- It stays so in every run from the cache file `c`. -/
def ReadAheadBounded (c : CachedFile) : Prop :=
  ∀ s, Reaches (World.step S fun _ => req) (fun _ _ => True) (.init c) s → s.WithinReach S req

/-- The segment is populated. -/
def Setup.Cached (c : CachedFile) (j : Nat) : Prop :=
  ∀ seg, S.segments[j]? = some seg → c.hasRange seg.offsetInStream seg.stop = true

/-- Every segment more than `readAhead` after the first one is populated, or nothing is fetched
at all. -/
def FarCached (c : CachedFile) : Prop :=
  S.serverCount = 0 ∨ ∀ j ∈ S.planned req, req.readAhead < S.rank req j → S.Cached c j

/-- The body evicts nothing, or serves its segments in order. -/
def Orderly : Prop := req.evict = none ∨ S.WellLaid ∧ S.layout.Ascending

/-- No eviction removes a byte of a segment more than `readAhead` after the first. -/
def World.SparesFar (s : World Unit) : Act Unit → Prop
  | .fg _ _ => ∀ d p start stop, (s.bodies ()).fg = .evicting d p (.clearing start stop) →
      ∀ j ∈ S.planned req, req.readAhead < S.rank req j → ∀ seg, S.segments[j]? = some seg →
        stop ≤ seg.offsetInStream ∨ seg.stop ≤ start
  | _ => True

end

variable {S : Setup} {req : Request} {c c' : CachedFile} {inp : Input} {k i j : Nat}
  {b b' : Body} {s s' : World Unit} {a : Act Unit}

theorem Setup.rank_mono (h : i ≤ j) : S.rank req i ≤ S.rank req j := by
  unfold rank
  rw [← List.countP_eq_length_filter, ← List.countP_eq_length_filter]
  apply List.countP_mono_left
  intro x _ hx
  simp only [decide_eq_true_eq] at hx ⊢
  omega

theorem Setup.Cached.mono (h : S.Cached c j) (hc : ∀ x, c.Has x → c'.Has x) : S.Cached c' j :=
  fun seg hseg => CachedFile.hasRange_iff.mpr fun x h1 h2 =>
    hc x (CachedFile.hasRange_iff.mp (h seg hseg) x h1 h2)

/-! ## The segment being served -/

/-- The segment being served holds what is read, and is not left before it is read. -/
def Body.AtSegment (S : Setup) (b : Body) : Prop :=
  match b.fg with
  | .ensuring _ seg _ => ∃ i, b.serving = some i ∧ S.segments[i]? = some seg
  | .reading _ readEnd _ =>
    ∃ i seg, b.serving = some i ∧ S.segments[i]? = some seg ∧ readEnd < seg.stop
  | .evicting d _ _ => ∃ i seg, b.serving = some i ∧ S.segments[i]? = some seg ∧ d.aPos ≤ seg.stop
  | _ => True

/-- The body serves its segments in order, and evicts behind. -/
structure Body.InOrder (S : Setup) (req : Request) (b : Body) : Prop where
  walk : b.Walk S req
  behind : b.fg.Behind
  atSegment : b.AtSegment S
  front : ∀ i, b.serving = some i →
    ∃ seg, S.segments[i]? = some seg ∧ ∀ x ∈ b.ahead S req, seg.offsetInStream ≤ x

theorem Body.AtSegment.await {d : Drain} {seg : SegmentRef} {e : Ensure} (hin : d.In S seg)
    (hseg : S.segments[i]? = some seg) (hb : b.fg = .await d seg e) (hi : b.serving = some i) :
    b.AtSegment S := by
  have hlt : d.readEnd seg < seg.stop := by
    have := hin.lt_stop
    unfold Drain.readEnd
    omega
  unfold AtSegment
  rw [hb]
  cases e with
  | returned r =>
    cases r with
    | error m => trivial
    | ok u => exact ⟨i, seg, hi, hseg, hlt⟩
  | fetching | writing | marking => exact ⟨i, hi, hseg⟩

theorem Body.AtSegment.fg (hl : S.WellLaid) (hw : b.Walk S req) (h : b.AtSegment S)
    (he : Fg.Effect S req c inp b c' b') : b'.AtSegment S := by
  unfold Walk at hw
  unfold AtSegment at h
  cases he with
  | cached d i seg hf hle hi hseg hr =>
    have hin := Drain.in_of_find hl hle hi hseg
    have := hin.lt_stop
    exact ⟨i, seg, rfl, hseg, by simp only [Drain.readEnd]; omega⟩
  | missing d i seg hf hle hi hseg hr => exact .await (Drain.in_of_find hl hle hi hseg) hseg rfl rfl
  | ensured d seg e e' _ hf he =>
    rw [hf] at hw h
    obtain ⟨i, hi, hseg⟩ := h
    exact .await hw.2 hseg rfl hi
  | read d readEnd readPos hf hle =>
    rw [hf] at h
    exact h
  | called d readEnd readPos p hf hlt hp =>
    rw [hf] at h
    obtain ⟨i, seg, hi, hseg, hend⟩ := h
    exact ⟨i, seg, hi, hseg, hend⟩
  | evicted d p e e' _ hf he =>
    rw [hf] at h
    exact h
  | _ => trivial

/-- What a body serves next does not come before what it is serving. -/
theorem Body.InOrder.serving_le (hl : S.WellLaid) (h : b.InOrder S req) {d : Drain} {i' : Nat}
    (hf : b.fg = .drain d) (hle : d.aPos ≤ d.assembledEnd)
    (hi : findSegmentForByte S.search S.segments d.aPos = some i') (hs : b.serving = some i) :
    i ≤ i' := by
  obtain ⟨seg, hseg, hfront⟩ := h.front i hs
  obtain ⟨seg', hseg', h1, h2⟩ := findSegmentForByte_sound hl.segments.sorted hi
  have hw := h.walk
  unfold Walk at hw
  rw [hf] at hw
  have hge := hfront _ (hw.mem_ahead le_rfl hle)
  apply le_of_not_gt
  intro hlt
  have := hl.segments.stop_le hseg' hseg hlt
  omega

theorem Body.InOrder.fg (hl : S.WellLaid) (hasc : S.layout.Ascending) (h : b.InOrder S req)
    (he : Fg.Effect S req c inp b c' b') : b'.InOrder S req := by
  refine ⟨h.walk.fg hl he, h.behind.fg he, h.atSegment.fg hl h.walk he, fun i hi => ?_⟩
  have hsub := Body.ahead_anti (S := S) he.position_le
  have hnew : ∀ d i seg, b.fg = .drain d → d.aPos ≤ d.assembledEnd →
      findSegmentForByte S.search S.segments d.aPos = some i → S.segments[i]? = some seg →
      ∀ x ∈ b.ahead S req, seg.offsetInStream ≤ x := by
    intro d i seg hf hle hi hseg x hx
    have hw := h.walk
    unfold Walk at hw
    rw [hf] at hw
    exact (Drain.in_of_find hl hle hi hseg).start_le.trans (hw.le_ahead hasc hx)
  cases he with
  | cached d i' seg hf hle hi' hseg hr | missing d i' seg hf hle hi' hseg hr =>
    obtain rfl : i' = i := Option.some.inj hi
    exact ⟨seg, hseg, hnew d i' seg hf hle hi' hseg⟩
  | _ =>
    obtain ⟨seg, hseg, hfront⟩ := h.front i hi
    exact ⟨seg, hseg, fun x hx => hfront x (hsub hx)⟩

theorem Body.InOrder.prefetch (h : b.InOrder S req) (he : b.PrefetchEffect S c inp k c' b') :
    b'.InOrder S req := by
  have hsub : b'.ahead S req ⊆ b.ahead S req := by
    refine Body.ahead_anti (le_of_eq ?_)
    unfold position
    rw [he.yielded]
  refine ⟨h.walk.prefetch he, he.fg ▸ h.behind, ?_, fun i hi => ?_⟩
  · have := h.atSegment
    unfold AtSegment at this ⊢
    rwa [he.fg, he.serving]
  · obtain ⟨seg, hseg, hfront⟩ := h.front i (he.serving ▸ hi)
    exact ⟨seg, hseg, fun x hx => hfront x (hsub hx)⟩

/-! ## What is fetched stays within reach -/

/-- The segment is not after the one being served by a body that evicts. -/
def Body.Passed (req : Request) (b : Body) (j : Nat) : Prop :=
  req.evict ≠ none ∧ ∃ i, b.serving = some i ∧ j ≤ i

/-- The segments far ahead are cached unless `P` says otherwise, and only the others are
fetched. -/
structure Body.Near (S : Setup) (req : Request) (P : Body → Nat → Prop) (c : CachedFile)
    (b : Body) : Prop where
  queue : ∀ j ∈ b.queue, j ∈ S.planned req
  tasks : ∀ j t, (j, t) ∈ b.tasks → j ∈ S.planned req
  evicts : ∀ d p e, b.fg = .evicting d p e → req.evict = some p
  far : ∀ j ∈ S.planned req, req.readAhead < S.rank req j → S.Cached c j ∨ P b j
  started : ∀ j ∈ b.started, S.rank req j ≤ req.readAhead ∨ P b j

/-- The body evicts nothing, or serves its segments in order so far. -/
def Body.Ordered (S : Setup) (req : Request) (b : Body) : Prop :=
  req.evict = none ∨ S.WellLaid ∧ S.layout.Ascending ∧ b.InOrder S req

theorem Fg.Effect.evicts (he : Fg.Effect S req c inp b c' b')
    (h : ∀ d p e, b.fg = .evicting d p e → req.evict = some p) :
    ∀ d p e, b'.fg = .evicting d p e → req.evict = some p := by
  intro d p e hf'
  cases he with
  | called d' readEnd readPos p' hf hlt hp =>
    cases hf'
    exact hp
  | evicted d' p' v v' _ hf hv =>
    cases hf'
    exact h d p v hf
  | missing | ensured => exact (Fg.evicting_await hf').elim
  | _ => cases hf'

/-- A populated byte is still populated, or an eviction has just cleared it. -/
theorem Fg.Effect.has (he : Fg.Effect S req c inp b c' b') {x : Nat} (hx : c.Has x) :
    c'.Has x ∨
      ∃ d p start stop, b.fg = .evicting d p (.clearing start stop) ∧ start ≤ x ∧ x < stop := by
  cases he with
  | ensured d seg e e' _ hf he => exact .inl (he.has hx)
  | evicted d p e e' _ hf he =>
    cases he with
    | cleared start stop =>
      by_cases hr : start ≤ x ∧ x < stop
      · exact .inr ⟨d, p, start, stop, hf, hr⟩
      · exact .inl (CachedFile.clearPopulated_has.mpr ⟨hx, hr⟩)
    | idle | refused | window | punched | failed | stored => exact .inl hx
  | _ => exact .inl hx

theorem Body.Passed.fg (ho : b.Ordered S req) (h : b.Passed req j)
    (he : Fg.Effect S req c inp b c' b') : b'.Passed req j := by
  obtain ⟨hev, i, hi, hji⟩ := h
  rcases ho with hn | ⟨hl, hasc, ho⟩
  · exact absurd hn hev
  · cases he with
    | cached d i' seg hf hle hi' hseg hr | missing d i' seg hf hle hi' hseg hr =>
      exact ⟨hev, i', rfl, hji.trans (ho.serving_le hl hf hle hi' hi)⟩
    | _ => exact ⟨hev, i, hi, hji⟩

theorem Body.Passed.prefetch (h : b.Passed req j) (he : b.PrefetchEffect S c inp k c' b') :
    b'.Passed req j := by
  unfold Passed at h ⊢
  rwa [he.serving]

/-- **An eviction leaves the segments after the one being served alone.** -/
theorem Body.Ordered.cached (ho : b.Ordered S req)
    (hev : ∀ d p e, b.fg = .evicting d p e → req.evict = some p)
    (he : Fg.Effect S req c inp b c' b') (hj : S.Cached c j) :
    S.Cached c' j ∨ b.Passed req j := by
  by_cases hp : b.Passed req j
  · exact .inr hp
  · refine .inl fun seg hseg => CachedFile.hasRange_iff.mpr fun x h1 h2 => ?_
    apply (he.has (CachedFile.hasRange_iff.mp (hj seg hseg) x h1 h2)).resolve_right
    rintro ⟨d, p, start, stop, hf, -, hlt⟩
    have hev := hev d p _ hf
    rcases ho with hn | ⟨hl, hasc, ho⟩
    · rw [hn] at hev
      cases hev
    · have hat := ho.atSegment
      have hb : stop ≤ d.aPos := by
        have := ho.behind
        rwa [hf] at this
      unfold AtSegment at hat
      rw [hf] at hat
      obtain ⟨i, seg', hi, hseg', hend⟩ := hat
      have hij : i < j := by
        refine lt_of_not_ge fun hji => hp ⟨?_, i, hi, hji⟩
        rw [hev]
        exact Option.some_ne_none p
      have := hl.segments.stop_le hseg' hseg hij
      omega

/-- An eviction that spares the segments far ahead leaves them cached. -/
theorem Fg.Effect.spared (he : Fg.Effect S req c inp b c' b') (hj : S.Cached c j)
    (hok : ∀ d p start stop, b.fg = .evicting d p (.clearing start stop) →
      ∀ seg, S.segments[j]? = some seg → stop ≤ seg.offsetInStream ∨ seg.stop ≤ start) :
    S.Cached c' j := by
  refine fun seg hseg => CachedFile.hasRange_iff.mpr fun x h1 h2 => ?_
  apply (he.has (CachedFile.hasRange_iff.mp (hj seg hseg) x h1 h2)).resolve_right
  rintro ⟨d, p, start, stop, hf, hle, hlt⟩
  have := hok d p start stop hf seg hseg
  omega

variable {P : Body → Nat → Prop}

theorem Body.Near.fg (hP : ∀ j, P b j → P b' j)
    (hc : ∀ j ∈ S.planned req, req.readAhead < S.rank req j → S.Cached c j →
      S.Cached c' j ∨ P b j)
    (h : b.Near S req P c) (he : Fg.Effect S req c inp b c' b') : b'.Near S req P c' := by
  have hfar : ∀ j ∈ S.planned req, req.readAhead < S.rank req j → S.Cached c' j ∨ P b' j :=
    fun j hj hr => (h.far j hj hr).elim (fun hjc => (hc j hj hr hjc).imp_right (hP j))
      fun hp => .inr (hP j hp)
  have hstarted : ∀ j ∈ b.started, S.rank req j ≤ req.readAhead ∨ P b' j :=
    fun j hj => (h.started j hj).imp_right (hP j)
  have hevicts := he.evicts h.evicts
  cases he with
  | began hf hle hpos =>
    refine ⟨fun j hj => ?_, h.tasks, hevicts, hfar, hstarted⟩
    simp only at hj
    split at hj
    · exact hj
    · cases hj
  | _ => exact ⟨h.queue, h.tasks, hevicts, hfar, hstarted⟩

theorem Body.Near.prefetch (hP : ∀ j, P b j → P b' j) (h : b.Near S req P c)
    (he : b.PrefetchEffect S c inp k c' b') : b'.Near S req P c' := by
  have hfar : ∀ j ∈ S.planned req, req.readAhead < S.rank req j → S.Cached c' j ∨ P b' j :=
    fun j hj hr => (h.far j hj hr).imp (·.mono fun _ => he.has) (hP j)
  have hevicts : ∀ d p e, b'.fg = .evicting d p e → req.evict = some p := by
    rw [he.fg]
    exact h.evicts
  have hold : ∀ j ∈ b.started, S.rank req j ≤ req.readAhead ∨ P b' j :=
    fun j hj => (h.started j hj).imp_right (hP j)
  have htask : ∀ {i j : Nat} {u : Task} {p : Prop}, i ∈ S.planned req →
      (j, u) ∈ b.tasks ∨ j = i ∧ p → j ∈ S.planned req := by
    rintro i j u p hi (hj | ⟨rfl, -⟩)
    · exact h.tasks j u hj
    · exact hi
  cases he with
  | spawned i rest hq =>
    refine ⟨fun j hj => h.queue j (hq ▸ List.mem_cons_of_mem i hj), fun j t hj => ?_, hevicts,
      hfar, hold⟩
    rcases List.mem_append.mp hj with hj | hj
    · exact h.tasks j t hj
    · obtain ⟨rfl, -⟩ : j = i ∧ t = .checking := by simpa using hj
      exact h.queue j (hq ▸ List.mem_cons_self)
  | cached i seg hk hseg hr =>
    have hi := h.tasks i _ (List.mem_of_getElem? hk)
    exact ⟨by simpa using h.queue, fun j t hj => htask hi (Body.mem_setTask hj), hevicts, hfar,
      by simpa using hold⟩
  | missing i seg hk hseg hr =>
    have hi := h.tasks i _ (List.mem_of_getElem? hk)
    refine ⟨by simpa using h.queue, fun j t hj => ?_, hevicts, hfar, fun j hj => ?_⟩
    · have hm := Body.mem_setTask hj
      exact htask hi hm
    rw [Body.setTask_started] at hj
    rcases List.mem_cons.mp hj with rfl | hj
    · by_cases hle : S.rank req j ≤ req.readAhead
      · exact .inl hle
      · -- a segment far ahead is not fetched while it is cached
        refine .inr ((h.far j hi (by omega)).elim (fun hc => ?_) (hP j))
        rw [hc seg hseg] at hr
        cases hr
    · exact hold j hj
  | ensured i seg e e' _ hk hseg he =>
    have hi := h.tasks i _ (List.mem_of_getElem? hk)
    exact ⟨by simpa using h.queue, fun j t hj => htask hi (Body.mem_setTask hj), hevicts, hfar,
      by simpa using hold⟩

theorem Body.Near.fresh
    (hc : ∀ j ∈ S.planned req, req.readAhead < S.rank req j → S.Cached c j) :
    Body.fresh.Near S req P c := by
  refine ⟨?_, ?_, ?_, fun j hj hr => .inl (hc j hj hr), ?_⟩
  · intro j hj
    cases hj
  · intro j t hj
    cases hj
  · intro d p e hf
    cases hf
  · intro j hj
    cases hj

/-- What holds in every run of a body that evicts nothing or serves its segments in order. -/
structure World.Ahead (S : Setup) (req : Request) (s : World Unit) : Prop where
  near : (s.bodies ()).Near S req (Body.Passed req) s.cache
  ordered : (s.bodies ()).Ordered S req

theorem ahead_reads (h : s.Ahead S req) (hs : s.step S (fun _ => req) a = some s') :
    s'.Ahead S req := by
  cases World.step_effect hs with
  | fg i inp c b he =>
    refine ⟨h.near.fg (fun j hp => hp.fg h.ordered he)
      (fun j _ _ hj => h.ordered.cached h.near.evicts he hj) he, ?_⟩
    exact h.ordered.imp_right fun ⟨hl, hasc, ho⟩ => ⟨hl, hasc, ho.fg hl hasc he⟩
  | spawn i b he | task i k inp c b he =>
    refine ⟨h.near.prefetch (fun j hp => hp.prefetch he) he, ?_⟩
    exact h.ordered.imp_right fun ⟨hl, hasc, ho⟩ => ⟨hl, hasc, ho.prefetch he⟩

theorem ahead_init (ho : Orderly S req)
    (hc : ∀ j ∈ S.planned req, req.readAhead < S.rank req j → S.Cached c j) :
    (World.init c).Ahead S req := by
  refine ⟨.fresh hc, ho.imp_right fun ⟨hl, hasc⟩ => ⟨hl, hasc, walk_fresh, trivial, trivial, ?_⟩⟩
  intro i hi
  cases hi

/-- Where the evictions spare the segments far ahead these stay cached. -/
theorem near_spares (h : (s.bodies ()).Near S req (fun _ _ => False) s.cache)
    (hok : s.SparesFar S req a) (hs : s.step S (fun _ => req) a = some s') :
    (s'.bodies ()).Near S req (fun _ _ => False) s'.cache := by
  cases World.step_effect hs with
  | fg i inp c b he =>
    refine h.fg (fun _ => id) (fun j hj hr hc => .inl (he.spared hc ?_)) he
    exact fun d p start stop hf => hok d p start stop hf j hj hr
  | spawn i b he | task i k inp c b he => exact h.prefetch (fun _ => id) he

theorem Body.Near.withinReach (h : (s.bodies ()).Near S req P c)
    (hP : ∀ j, P (s.bodies ()) j → ∃ i, (s.bodies ()).serving = some i ∧ j ≤ i) :
    s.WithinReach S req := by
  intro j hj
  rcases h.started j hj with hle | hp
  · omega
  · obtain ⟨i, hi, hji⟩ := hP j hp
    have hrank : S.rank req j ≤ S.rank req i := Setup.rank_mono hji
    unfold Body.servingRank
    rw [hi]
    exact hrank.trans (Nat.le_add_right _ _)

/-- Without servers nothing is ever queued. -/
theorem no_prefetch (h0 : S.serverCount = 0) (h : (s.bodies ()).started = [] ∧
      (s.bodies ()).queue = [] ∧ (s.bodies ()).tasks = [])
    (hs : s.step S (fun _ => req) a = some s') : (s'.bodies ()).started = [] ∧
      (s'.bodies ()).queue = [] ∧ (s'.bodies ()).tasks = [] := by
  cases World.step_effect hs with
  | fg i inp c b he =>
    show b.started = [] ∧ b.queue = [] ∧ b.tasks = []
    cases he with
    | began hf hle hpos => omega
    | _ => exact h
  | spawn i b he | task i k inp c b he =>
    obtain ⟨-, hq, ht⟩ := h
    cases he with
    | spawned i rest hq' =>
      rw [hq] at hq'
      cases hq'
    | cached i seg hk | missing i seg hk | ensured i seg e e' _ hk =>
      rw [ht] at hk
      cases hk

theorem withinReach_of_no_servers {ok : World Unit → Act Unit → Prop} (h0 : S.serverCount = 0)
    (hs : Reaches (World.step S fun _ => req) ok (.init c) s) : s.WithinReach S req := by
  have h := hs.inv (I := fun s => (s.bodies ()).started = [] ∧ (s.bodies ()).queue = [] ∧
    (s.bodies ()).tasks = []) ⟨rfl, rfl, rfl⟩ fun _ _ _ hi _ hst => no_prefetch h0 hi hst
  intro j hj
  rw [h.1] at hj
  cases hj

/-- Where the segments far ahead are cached the read-ahead is bounded. -/
theorem readAheadBounded_of_cached (ho : Orderly S req) (hc : FarCached S req c) :
    ReadAheadBounded S req c := by
  intro s hs
  rcases hc with h0 | hc
  · exact withinReach_of_no_servers h0 hs
  · have h : s.Ahead S req := hs.inv (ahead_init ho hc) fun _ _ _ hi _ hst => ahead_reads hi hst
    exact h.near.withinReach fun j hp => hp.2

theorem withinReach_of_spared (hc : FarCached S req c)
    (hs : Reaches (World.step S fun _ => req) (World.SparesFar S req) (.init c) s) :
    s.WithinReach S req := by
  rcases hc with h0 | hc
  · exact withinReach_of_no_servers h0 hs
  · have h := hs.inv (I := fun s => (s.bodies ()).Near S req (fun _ _ => False) s.cache)
      (.fresh hc) fun _ _ _ hi hok hst => near_spares hi hok hst
    exact h.withinReach fun _ hp => hp.elim

/-! ## A foreground loop that stands still -/

/-- A run in which nothing is served yet, the prefetcher stands as given and the cache file is as
it was. -/
structure Stalled (S : Setup) (req : Request) (c : CachedFile) (queue : List Nat)
    (tasks : List (Nat × Task)) (s : World Unit) : Prop where
  reaches : Reaches (World.step S fun _ => req) (fun _ _ => True) (.init c) s
  cache : s.cache = c
  queue : (s.bodies ()).queue = queue
  tasks : (s.bodies ()).tasks = tasks
  serving : (s.bodies ()).serving = none

variable {queue : List Nat} {tasks : List (Nat × Task)} {seg : SegmentRef}

theorem Stalled.snoc (h : Stalled S req c queue tasks s)
    (hs : s.step S (fun _ => req) a = some (s.set () c b)) (hb : b.serving = none) :
    Stalled S req c b.queue b.tasks (s.set () c b) :=
  ⟨h.reaches.snoc trivial hs, rfl, rfl, rfl, hb⟩

theorem Setup.start_le_of_planned (hj : j ∈ S.planned req) : req.start ≤ req.stop := by
  apply le_of_not_gt
  intro hlt
  unfold planned segmentIndicesInRange at hj
  rw [show req.stop + 1 - req.start = 0 by omega] at hj
  simp [indicesFrom] at hj

theorem Setup.planned_segment (hj : j ∈ S.planned req) : ∃ seg, S.segments[j]? = some seg := by
  unfold planned segmentIndicesInRange at hj
  exact ⟨_, List.getElem?_eq_getElem (List.mem_range.mp (List.mem_filter.mp hj).1)⟩

/-- The body has started. -/
theorem exists_stalled (c : CachedFile) (hR : 2 ≤ req.readAhead) (hn : S.serverCount ≠ 0)
    (hle : req.start ≤ req.stop) : ∃ s, Stalled S req c (S.planned req) [] s := by
  have h0 : Stalled S req c [] [] (.init c) := ⟨.refl _, rfl, rfl, rfl, rfl⟩
  have hs : Body.fresh.fgStep S req c {} =
      some (c, { Body.fresh with fg := .outer req.start, queue := S.planned req }) := by
    unfold Body.fgStep
    simp only [Body.fresh]
    rw [if_neg (by omega), if_neg hn, if_pos hR]
  exact ⟨_, h0.snoc (a := .fg () {}) (by rw [World.step, World.init, hs]; rfl) rfl⟩

/-- A prefetch is taken up. -/
theorem Stalled.spawn (hR : 2 ≤ req.readAhead) (h : Stalled S req c (i :: queue) [] s) :
    ∃ s', Stalled S req c queue [(i, .checking)] s' := by
  let b' : Body := { s.bodies () with queue := queue, tasks := [(i, .checking)] }
  have hs : (s.bodies ()).spawn req = some b' := by
    unfold Body.spawn
    rw [h.queue, h.tasks]
    simp only
    rw [if_pos (by rw [List.length_nil]; omega)]
    rfl
  have hstep : s.step S (fun _ => req) (.spawn ()) = some (s.set () c b') := by
    rw [World.step, hs, h.cache]
    rfl
  exact ⟨_, h.snoc hstep h.serving⟩

/-- The only prefetch takes a step. -/
theorem Stalled.task {t : Task} {tasks : List (Nat × Task)}
    (h : Stalled S req c queue [(i, t)] s)
    (hs : (s.bodies ()).taskStep S c inp 0 = some (c, b)) (hb : b.serving = (s.bodies ()).serving)
    (hq : b.queue = (s.bodies ()).queue) (ht : b.tasks = tasks) :
    Stalled S req c queue tasks (s.set () c b) := by
  have hstep : s.step S (fun _ => req) (.task () 0 inp) = some (s.set () c b) := by
    rw [World.step, h.cache, hs]
    rfl
  have h' := h.snoc hstep (hb.trans h.serving)
  rwa [hq, h.queue, ht] at h'

/-- It is over. -/
theorem Stalled.finished {t : Task} (h : Stalled S req c queue [(i, t)] s)
    (hs : (s.bodies ()).taskStep S c inp 0 = some (c, (s.bodies ()).setTask 0 i none)) :
    ∃ s', Stalled S req c queue [] s' :=
  ⟨_, h.task hs (by simp) (by simp) (by simp [Body.setTask, h.tasks])⟩

/-- A prefetch that finds its segment missing starts to fetch it. -/
theorem Stalled.check_missing (hn : S.serverCount ≠ 0)
    (h : Stalled S req c queue [(i, .checking)] s) (hseg : S.segments[i]? = some seg)
    (hr : c.hasRange seg.offsetInStream seg.stop = false) :
    ∃ s' order, Stalled S req c queue [(i, .ensuring (.fetching order none))] s' ∧
      i ∈ (s'.bodies ()).started := by
  have hs : (s.bodies ()).taskStep S c {} 0 =
      some (c, { s.bodies () with started := i :: (s.bodies ()).started }.setTask 0 i
        (some (.ensuring (.fetching (serverOrder S.serverCount seg.serverIndex) none)))) := by
    simp [Body.taskStep, h.tasks, hseg, hr, Ensure.begin, hn, Task.await]
  refine ⟨_, serverOrder S.serverCount seg.serverIndex, h.task hs (by simp) (by simp) ?_,
    List.mem_cons_self⟩
  simp only [Body.setTask, h.tasks, List.set_cons_zero]

/-- No server may have the segment. -/
theorem Stalled.fail {order : List Nat} {lastErr : Option String}
    (h : Stalled S req c queue [(i, .ensuring (.fetching order lastErr))] s)
    (hseg : S.segments[i]? = some seg) : ∃ s', Stalled S req c queue [] s' := by
  induction order generalizing s lastErr with
  | nil =>
    have hs : (s.bodies ()).taskStep S c {} 0 = some (c, (s.bodies ()).setTask 0 i none) := by
      simp [Body.taskStep, h.tasks, hseg, Ensure.step, Task.await]
    exact h.finished hs
  | cons idx order ih =>
    have hs : (s.bodies ()).taskStep S c {} 0 =
        some (c, (s.bodies ()).setTask 0 i (some (.ensuring (.fetching order (some ""))))) := by
      simp [Body.taskStep, h.tasks, hseg, Ensure.step, Task.await]
    have h' : Stalled S req c queue [(i, .ensuring (.fetching order (some "")))] _ :=
      h.task hs (by simp) (by simp) (by simp [Body.setTask, h.tasks])
    exact ih h'

/-- The prefetcher gets past a segment. -/
theorem Stalled.skip (hR : 2 ≤ req.readAhead) (hn : S.serverCount ≠ 0)
    (h : Stalled S req c (i :: queue) [] s) (hseg : S.segments[i]? = some seg) :
    ∃ s', Stalled S req c queue [] s' := by
  obtain ⟨s₁, h₁⟩ := h.spawn hR
  cases hr : c.hasRange seg.offsetInStream seg.stop with
  | true =>
    have hs : (s₁.bodies ()).taskStep S c {} 0 =
        some (c, (s₁.bodies ()).setTask 0 i none) := by
      simp [Body.taskStep, h₁.tasks, hseg, hr]
    exact h₁.finished hs
  | false =>
    obtain ⟨s₂, order, h₂, -⟩ := h₁.check_missing hn hseg hr
    exact h₂.fail hseg

theorem Stalled.skip_all (hR : 2 ≤ req.readAhead) (hn : S.serverCount ≠ 0) {front : List Nat}
    (h : Stalled S req c (front ++ queue) [] s)
    (hseg : ∀ i ∈ front, ∃ seg, S.segments[i]? = some seg) :
    ∃ s', Stalled S req c queue [] s' := by
  induction front generalizing s with
  | nil => exact ⟨s, h⟩
  | cons i front ih =>
    obtain ⟨seg, hi⟩ := hseg i List.mem_cons_self
    obtain ⟨s', h'⟩ := h.skip hR hn hi
    exact ih h' fun j hj => hseg j (List.mem_cons_of_mem i hj)

/-- **Nothing holds the prefetcher back**: it starts to fetch any segment of the range that is
not cached, before anything is served. -/
theorem exists_started (hR : 2 ≤ req.readAhead) (hn : S.serverCount ≠ 0)
    (hj : j ∈ S.planned req) (hc : ¬ S.Cached c j) :
    ∃ s, Reaches (World.step S fun _ => req) (fun _ _ => True) (.init c) s ∧
      (s.bodies ()).serving = none ∧ j ∈ (s.bodies ()).started := by
  obtain ⟨front, queue, hsplit⟩ := List.append_of_mem hj
  obtain ⟨s, h⟩ := exists_stalled c hR hn (Setup.start_le_of_planned hj)
  rw [hsplit] at h
  obtain ⟨s₁, h₁⟩ := h.skip_all hR hn fun i hi => Setup.planned_segment
    (hsplit ▸ List.mem_append_left _ hi)
  obtain ⟨s₂, h₂⟩ := h₁.spawn hR
  obtain ⟨seg, hseg⟩ := Setup.planned_segment hj
  have hr : c.hasRange seg.offsetInStream seg.stop = false := by
    by_contra hr
    refine hc fun seg' hseg' => ?_
    obtain rfl : seg = seg' := Option.some.inj (hseg.symm.trans hseg')
    simpa using hr
  obtain ⟨s₃, order, h₃, hmem⟩ := h₂.check_missing hn hseg hr
  exact ⟨s₃, h₃.reaches, h₃.serving, hmem⟩

/-- A bounded read-ahead has the segments far ahead cached. -/
theorem farCached_of_bounded (hR : 2 ≤ req.readAhead) (h : ReadAheadBounded S req c) :
    FarCached S req c := by
  by_cases hn : S.serverCount = 0
  · exact .inl hn
  · refine .inr fun j hj hfar => ?_
    by_contra hc
    obtain ⟨s, hs, hserving, hstarted⟩ := exists_started hR hn hj hc
    have := h s hs j hstarted
    rw [Body.servingRank, hserving] at this
    simp only [Option.map_none, Option.getD_none] at this
    omega

/-- **The read-ahead of a body is bounded only where the segments more than `readAhead` after
the first are cached from the start.** It then is for a body that evicts nothing or serves its
segments in order, and for any other as long as its evictions spare these segments. -/
theorem readAhead_bounded (S : Setup) (req : Request) (c : CachedFile) (hR : 2 ≤ req.readAhead) :
    (ReadAheadBounded S req c → FarCached S req c) ∧
      (Orderly S req → FarCached S req c → ReadAheadBounded S req c) ∧
      ∀ s, FarCached S req c →
        Reaches (World.step S fun _ => req) (World.SparesFar S req) (.init c) s →
        s.WithinReach S req :=
  ⟨farCached_of_bounded hR, readAheadBounded_of_cached, fun _ => withinReach_of_spared⟩

/-- A file posted as four articles of one byte. -/
def fourArticles : Setup where
  layout := flatLayout [⟨0, "a", 1, 0⟩, ⟨0, "b", 1, 1⟩, ⟨0, "c", 1, 2⟩, ⟨0, "d", 1, 3⟩] 4
  search := .leftmost _
  serverCount := 1

/-- Up to `stop`, two segments ahead, with nothing evicted. -/
def twoAhead (stop : Nat) : Request := ⟨0, stop, 2, none⟩

/-- The prefetcher takes up a segment, and downloads it. -/
def takeUp : List (Act Unit) := [.spawn (), .task () 0 {}]

def download (byte : UInt8) : List (Act Unit) :=
  [.task () 0 { answer := .decoded [byte] }, .task () 0 {}, .task () 0 {}]

/-- Two segments ahead of the first, any segment is near where there are only three. -/
theorem threeArticles_bounded :
    ReadAheadBounded fourArticles (twoAhead 2) (.openOrCreate (fun _ => 0) 4) := by
  have hfar : ∀ j ∈ fourArticles.planned (twoAhead 2), fourArticles.rank (twoAhead 2) j ≤ 2 := by
    decide
  refine (readAhead_bounded fourArticles (twoAhead 2) _ le_rfl).2.1 (.inl rfl)
    (.inr fun j hj hlt => ?_)
  exact absurd (hfar j hj) (not_le_of_gt hlt)

/-- **The fourth segment is fetched before the first is served**, two segments being the
read-ahead: the prefetcher downloads the first three while the foreground loop stands still. -/
theorem fourth_fetched :
    ¬ ReadAheadBounded fourArticles (twoAhead 3) (.openOrCreate (fun _ => 0) 4) := by
  intro h
  obtain ⟨s, hs, hp⟩ := exists_of_exec_free (World.step fourArticles fun _ => twoAhead 3)
    (.init (.openOrCreate (fun _ => 0) 4))
    ([.fg () {}] ++ (takeUp ++ download 7) ++ (takeUp ++ download 8) ++ (takeUp ++ download 9) ++
      takeUp)
    (fun s => 3 ∈ (s.bodies ()).started ∧ (s.bodies ()).serving = none) rfl
  obtain ⟨hstarted, hserving⟩ := of_decide_eq_true hp
  have hle := h s hs 3 hstarted
  rw [Body.servingRank, hserving] at hle
  revert hle
  decide

end StremioNzb.Streaming

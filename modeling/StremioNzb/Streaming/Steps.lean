import StremioNzb.Streaming.Pipeline

/-!
# What a step of the pipeline does

The possible effects of each step function, one constructor a branch with what the branch has
checked. Invariants of the pipeline are proved by cases on these.
-/

namespace StremioNzb.Streaming

/-! ## `ensure_segment_cached` -/

/-- What stands at each place after the swap. -/
theorem getElem?_serverOrder {n serverIndex j : Nat} (hj : j < n) :
    (serverOrder n serverIndex)[j]? =
      some (if j = min serverIndex (n - 1) then 0
        else if j = 0 then min serverIndex (n - 1) else j) := by
  unfold serverOrder
  rw [List.getElem?_set]
  by_cases hp : j = min serverIndex (n - 1)
  · rw [if_pos hp, if_pos hp.symm, if_pos (by rw [List.length_set, List.length_range]; omega)]
  rw [if_neg hp, if_neg (Ne.symm hp), List.getElem?_set]
  by_cases h0 : j = 0
  · rw [if_pos h0, if_pos h0.symm, if_pos (by rw [List.length_range]; omega)]
  · rw [if_neg h0, if_neg (Ne.symm h0), List.getElem?_range hj]

theorem mem_serverOrder {n serverIndex idx : Nat} (h : idx < n) :
    idx ∈ serverOrder n serverIndex := by
  by_cases h1 : idx = min serverIndex (n - 1)
  · refine List.mem_of_getElem? (i := 0) ?_
    rw [getElem?_serverOrder (by omega), if_pos rfl, Option.some_inj]
    split <;> omega
  by_cases h0 : idx = 0
  · refine List.mem_of_getElem? (i := min serverIndex (n - 1)) ?_
    rw [getElem?_serverOrder (by omega), if_pos rfl, h0]
  · refine List.mem_of_getElem? (i := idx) ?_
    rw [getElem?_serverOrder h, if_neg h1, if_neg h0]

theorem lt_of_mem_serverOrder {n serverIndex idx : Nat} (h : idx ∈ serverOrder n serverIndex) :
    idx < n := by
  obtain ⟨j, hj⟩ := List.mem_iff_getElem?.mp h
  have hlt : j < n := by
    have := (List.getElem?_eq_some_iff.mp hj).1
    rwa [serverOrder, List.length_set, List.length_set, List.length_range] at this
  rw [getElem?_serverOrder hlt, Option.some_inj] at hj
  split at hj
  · omega
  · split at hj <;> omega

/-- The steps of `ensure_segment_cached`. -/
inductive Ensure.Effect (seg : SegmentRef) (c : CachedFile) (answer : Answer) :
    Ensure → CachedFile → Ensure → Prop where
  | exhausted (lastErr : Option String) (m : String) :
      Effect seg c answer (.fetching [] lastErr) c (.returned (.error m))
  | failedOver (idx : Nat) (rest : List Nat) (lastErr : Option String) (m : String) :
      (∀ data, answer = .decoded data → data = []) →
      Effect seg c answer (.fetching (idx :: rest) lastErr) c (.fetching rest (some m))
  | refused (idx : Nat) (rest : List Nat) (lastErr : Option String) (data : List UInt8)
      (m : String) : answer = .decoded data → data ≠ [] →
      c.totalSize < seg.offsetInStream + (data.take seg.bytes).length →
      Effect seg c answer (.fetching (idx :: rest) lastErr) c (.returned (.error m))
  | nothing (idx : Nat) (rest : List Nat) (lastErr : Option String) (data : List UInt8) :
      answer = .decoded data → data ≠ [] → seg.bytes = 0 →
      Effect seg c answer (.fetching (idx :: rest) lastErr) c (.returned (.ok ()))
  | fetched (idx : Nat) (rest : List Nat) (lastErr : Option String) (data : List UInt8) :
      answer = .decoded data → data ≠ [] → 0 < seg.bytes →
      seg.offsetInStream + (data.take seg.bytes).length ≤ c.totalSize →
      Effect seg c answer (.fetching (idx :: rest) lastErr) c (.writing (data.take seg.bytes))
  | wrote (bytes : List UInt8) :
      Effect seg c answer (.writing bytes) (c.writeFile seg.offsetInStream bytes)
        (.marking seg.offsetInStream (seg.offsetInStream + bytes.length))
  | marked (start stop : Nat) :
      Effect seg c answer (.marking start stop) (c.markPopulated start stop) (.returned (.ok ()))

theorem Ensure.step_effect {seg : SegmentRef} {c c' : CachedFile} {answer : Answer}
    {e e' : Ensure} (h : e.step seg c answer = some (c', e')) :
    Effect seg c answer e c' e' := by
  cases e with
  | fetching order lastErr =>
    cases order with
    | nil =>
      cases h
      exact .exhausted _ _
    | cons idx rest =>
      cases answer with
      | fetchError m =>
        cases h
        exact .failedOver _ _ _ _ (by rintro _ ⟨⟩)
      | decodeError m =>
        cases h
        exact .failedOver _ _ _ _ (by rintro _ ⟨⟩)
      | decoded data =>
        simp only [step] at h
        have htake : (if data.length > seg.bytes then data.take seg.bytes else data) =
            data.take seg.bytes := by
          split
          · rfl
          · exact (List.take_of_length_le (by omega)).symm
        rw [htake] at h
        split at h
        · next he =>
          cases h
          exact .failedOver _ _ _ _ (by rintro _ ⟨⟩; exact List.isEmpty_iff.mp he)
        · next he =>
          have hne : data ≠ [] := fun e => he (List.isEmpty_iff.mpr e)
          split at h
          · next hw =>
            cases h
            exact .refused _ _ _ _ _ rfl hne (CachedFile.checkWrite_error hw)
          · next hw =>
            cases h
            refine .nothing _ _ _ _ rfl hne ?_
            simpa [hne] using List.take_eq_nil_iff.mp (CachedFile.checkWrite_none hw)
          · next hw =>
            cases h
            obtain ⟨h1, h2⟩ := CachedFile.checkWrite_some hw
            refine .fetched _ _ _ _ rfl hne ?_ h2
            exact Nat.pos_of_ne_zero fun h0 => h1 (by rw [h0, List.take_zero])
  | writing bytes =>
    cases h
    exact .wrote _
  | marking start stop =>
    cases h
    exact .marked _ _
  | returned r => cases h

/-- Populated bytes stay so. -/
theorem Ensure.Effect.has {seg : SegmentRef} {c c' : CachedFile} {answer : Answer}
    {e e' : Ensure} (h : Effect seg c answer e c' e') {x : Nat} (hx : c.Has x) : c'.Has x := by
  cases h with
  | marked start stop => exact CachedFile.markPopulated_has.mpr (.inl hx)
  | _ => exact hx

theorem Ensure.Effect.totalSize {seg : SegmentRef} {c c' : CachedFile} {answer : Answer}
    {e e' : Ensure} (h : Effect seg c answer e c' e') : c'.totalSize = c.totalSize := by
  cases h <;> rfl

/-! ## `maybe_evict_behind` -/

theorem CachedFile.checkEvict_ok {c : CachedFile} {start stop : Nat} {r : Bool}
    (h : c.checkEvict start stop = .ok r) (hlt : start < stop) : r = true ∧ stop ≤ c.totalSize := by
  unfold checkEvict at h
  rw [if_neg (by omega)] at h
  split at h
  · cases h
  · cases h
    exact ⟨rfl, by omega⟩

/-- The steps of `maybe_evict_behind` at a playhead. -/
inductive Evict.Effect (p : EvictPolicy) (playhead : Nat) (c : CachedFile) (punched : Bool) :
    Evict → CachedFile → Evict → Prop where
  | idle : CachedFile.evictWindow c.lastEvictedTo playhead p.headerPin p.backbuffer p.step = none →
      Effect p playhead c punched .loading c .returned
  | refused (start stop : Nat) : c.totalSize < stop → stop ≤ playhead →
      Effect p playhead c punched .loading c .returned
  | window (start stop : Nat) : start = max c.lastEvictedTo p.headerPin →
      stop = playhead - p.backbuffer → start < stop → stop ≤ c.totalSize →
      Effect p playhead c punched .loading c (.punching start stop)
  | punched (start stop : Nat) : punched = true →
      Effect p playhead c punched (.punching start stop) (c.punchHole start stop)
        (.clearing start stop)
  | failed (start stop : Nat) : punched = false →
      Effect p playhead c punched (.punching start stop) c .returned
  | cleared (start stop : Nat) :
      Effect p playhead c punched (.clearing start stop) (c.clearPopulated start stop)
        (.storing stop)
  | stored (evictTo : Nat) :
      Effect p playhead c punched (.storing evictTo) (c.storeWatermark evictTo) .returned

theorem Evict.next_effect {p : EvictPolicy} {playhead : Nat} {c c' : CachedFile} {punched : Bool}
    {e e' : Evict} (h : e.next p playhead c punched = some (c', e')) :
    Effect p playhead c punched e c' e' := by
  cases e with
  | loading =>
    simp only [next] at h
    split at h
    · next hw =>
      cases h
      exact .idle hw
    · next start stop hw =>
      obtain ⟨h1, h2, h3, -⟩ := CachedFile.evictWindow_eq_some hw
      split at h
      · next m hc =>
        cases h
        refine .refused start stop ?_ (by omega)
        unfold CachedFile.checkEvict at hc
        rw [if_neg (by omega)] at hc
        split at hc
        · next hlt => exact hlt
        · cases hc
      · next hc => cases (CachedFile.checkEvict_ok hc h3).1
      · next hc =>
        cases h
        exact .window start stop h1 h2 h3 (CachedFile.checkEvict_ok hc h3).2
  | punching start stop =>
    simp only [next] at h
    split at h
    · next hp =>
      cases h
      exact .punched _ _ hp
    · next hp =>
      cases h
      exact .failed _ _ (by simpa using hp)
  | clearing start stop =>
    cases h
    exact .cleared _ _
  | storing evictTo =>
    cases h
    exact .stored _
  | returned => cases h

/-! ## The foreground loop -/

/-- The bytes that a read at `readPos` yields. -/
abbrev CachedFile.readChunk (c : CachedFile) (readEnd readPos : Nat) : List UInt8 :=
  c.readBytes readPos (min (readEnd - readPos + 1) chunkSize)

@[simp] theorem CachedFile.readBytes_length {c : CachedFile} {o n : Nat} :
    (c.readBytes o n).length = n := by
  simp [readBytes]

/-- What the loop ended with. -/
def Fg.result : Fg → Option (Except String Unit)
  | .ended r => some r
  | _ => none

theorem Fg.eq_ended {fg : Fg} {r : Except String Unit} (h : fg.result = some r) :
    fg = .ended r := by
  cases fg <;> cases h
  rfl

/-- The steps of the foreground loop. -/
inductive Fg.Effect (S : Setup) (req : Request) (c : CachedFile) (inp : Input) (b : Body) :
    CachedFile → Body → Prop where
  | empty : b.fg = .begin → req.stop < req.start → Effect S req c inp b c (b.goto (.ended (.ok ())))
  | serverless (m : String) : b.fg = .begin → S.serverCount = 0 →
      Effect S req c inp b c (b.goto (.ended (.error m)))
  | began : b.fg = .begin → req.start ≤ req.stop → 0 < S.serverCount →
      Effect S req c inp b c { b with
        fg := .outer req.start
        queue := if req.readAhead ≥ 2 then S.segmentIndicesInRange req.start req.stop else [] }
  | finished (cursor : Nat) : b.fg = .outer cursor → req.stop < cursor →
      Effect S req c inp b c (b.goto (.ended (.ok ())))
  | unmapped (cursor : Nat) (m : String) : b.fg = .outer cursor → cursor ≤ req.stop →
      S.layout.videoToAssembled cursor = none →
      Effect S req c inp b c (b.goto (.ended (.error m)))
  | chunk (cursor a : Nat) : b.fg = .outer cursor → cursor ≤ req.stop →
      S.layout.videoToAssembled cursor = some a → 0 < S.layout.chunkRemaining cursor →
      Effect S req c inp b c (b.goto (.drain
        ⟨min (cursor + S.layout.chunkRemaining cursor - 1) req.stop,
          a + (min (cursor + S.layout.chunkRemaining cursor - 1) req.stop - cursor), a⟩))
  | drained (d : Drain) : b.fg = .drain d → d.assembledEnd < d.aPos →
      Effect S req c inp b c (b.goto (.outer (d.videoEnd + 1)))
  | segmentless (d : Drain) (m : String) : b.fg = .drain d → d.aPos ≤ d.assembledEnd →
      findSegmentForByte S.search S.segments d.aPos = none →
      Effect S req c inp b c (b.goto (.ended (.error m)))
  | cached (d : Drain) (i : Nat) (seg : SegmentRef) : b.fg = .drain d → d.aPos ≤ d.assembledEnd →
      findSegmentForByte S.search S.segments d.aPos = some i → S.segments[i]? = some seg →
      c.hasRange seg.offsetInStream seg.stop = true →
      Effect S req c inp b c { b with
        fg := .reading d (d.readEnd seg) d.aPos, serving := some i }
  | missing (d : Drain) (i : Nat) (seg : SegmentRef) : b.fg = .drain d → d.aPos ≤ d.assembledEnd →
      findSegmentForByte S.search S.segments d.aPos = some i → S.segments[i]? = some seg →
      c.hasRange seg.offsetInStream seg.stop = false →
      Effect S req c inp b c { b with
        fg := .await d seg (.begin S.serverCount seg), serving := some i }
  | ensured (d : Drain) (seg : SegmentRef) (e e' : Ensure) (c' : CachedFile) :
      b.fg = .ensuring d seg e → Ensure.Effect seg c inp.answer e c' e' →
      Effect S req c inp b c' (b.goto (.await d seg e'))
  | unread (d : Drain) (readEnd readPos : Nat) (m : String) : b.fg = .reading d readEnd readPos →
      readPos ≤ readEnd → c.totalSize < readPos + min (readEnd - readPos + 1) chunkSize →
      Effect S req c inp b c (b.goto (.ended (.error m)))
  | read (d : Drain) (readEnd readPos : Nat) : b.fg = .reading d readEnd readPos →
      readPos ≤ readEnd → readPos + min (readEnd - readPos + 1) chunkSize ≤ c.totalSize →
      Effect S req c inp b c (b.emit d readEnd readPos (c.readChunk readEnd readPos))
  | served (d : Drain) (readEnd readPos : Nat) : b.fg = .reading d readEnd readPos →
      readEnd < readPos → req.evict = none →
      Effect S req c inp b c (b.goto (.drain { d with aPos := readEnd + 1 }))
  | called (d : Drain) (readEnd readPos : Nat) (p : EvictPolicy) :
      b.fg = .reading d readEnd readPos → readEnd < readPos → req.evict = some p →
      Effect S req c inp b c (b.goto (.evicting { d with aPos := readEnd + 1 } p .loading))
  | evicted (d : Drain) (p : EvictPolicy) (e e' : Evict) (c' : CachedFile) :
      b.fg = .evicting d p e → Evict.Effect p d.aPos c inp.punched e c' e' →
      Effect S req c inp b c' (b.goto (.evicting d p e'))
  | resumed (d : Drain) (p : EvictPolicy) : b.fg = .evicting d p .returned →
      Effect S req c inp b c (b.goto (.drain d))

theorem Fg.await_ne_begin {d : Drain} {seg : SegmentRef} {e : Ensure} :
    Fg.await d seg e ≠ .begin := by
  intro h
  cases e with
  | returned r => cases r <;> cases h
  | fetching | writing | marking => cases h

theorem Fg.evicting_await {d d' : Drain} {seg : SegmentRef} {e : Ensure} {p : EvictPolicy}
    {v : Evict} (h : Fg.await d seg e = .evicting d' p v) : False := by
  cases e with
  | returned r => cases r <;> cases h
  | fetching | writing | marking => cases h

theorem CachedFile.readAt_chunk {c : CachedFile} {readEnd readPos : Nat} :
    (readPos + min (readEnd - readPos + 1) chunkSize ≤ c.totalSize ∧
      c.readAt readPos (min (readEnd - readPos + 1) chunkSize) =
        .ok (c.readChunk readEnd readPos)) ∨
    c.totalSize < readPos + min (readEnd - readPos + 1) chunkSize ∧
      ∃ m, c.readAt readPos (min (readEnd - readPos + 1) chunkSize) = .error m := by
  have hpos : min (readEnd - readPos + 1) chunkSize ≠ 0 := by
    unfold chunkSize
    omega
  unfold readAt checkRead
  simp only [if_neg hpos]
  split
  · next hlt => exact .inr ⟨hlt, _, rfl⟩
  · next hle => exact .inl ⟨not_lt.mp hle, rfl⟩

theorem CachedFile.readChunk_ne_nil {c : CachedFile} {readEnd readPos : Nat} :
    (c.readChunk readEnd readPos).length ≠ 0 := by
  rw [readBytes_length]
  unfold chunkSize
  omega

theorem Body.fgStep_effect {S : Setup} {req : Request} {c c' : CachedFile} {inp : Input}
    {b b' : Body} (h : b.fgStep S req c inp = some (c', b')) : Fg.Effect S req c inp b c' b' := by
  unfold fgStep at h
  split at h
  · next hf =>
    split at h
    · next hlt =>
      cases h
      exact .empty hf hlt
    · next hle =>
      split at h
      · next h0 =>
        cases h
        exact .serverless _ hf h0
      · next h0 =>
        cases h
        exact .began hf (by omega) (by omega)
  · next cursor hf =>
    split at h
    · next hle =>
      simp only at h
      split at h
      · next h0 =>
        cases h
        refine .unmapped cursor _ hf hle ?_
        have := mt FileLayout.chunkRemaining_pos.mpr (Nat.not_lt.mpr h0.le)
        simpa using this
      · next h0 =>
        split at h
        · next hn =>
          cases h
          exact .unmapped cursor _ hf hle hn
        · next a ha =>
          cases h
          exact .chunk cursor a hf hle ha (by omega)
    · next hgt =>
      cases h
      exact .finished cursor hf (by omega)
  · next d hf =>
    split at h
    · next hle =>
      split at h
      · next hn =>
        cases h
        exact .segmentless d _ hf hle hn
      · next i hi =>
        obtain ⟨seg, hseg, h⟩ := Option.map_eq_some_iff.mp h
        split at h
        · next hr =>
          cases h
          exact .cached d i seg hf hle hi hseg hr
        · next hr =>
          cases h
          exact .missing d i seg hf hle hi hseg (by simpa using hr)
    · next hgt =>
      cases h
      exact .drained d hf (by omega)
  · next d seg e hf =>
    obtain ⟨⟨c₁, e'⟩, he, h⟩ := Option.map_eq_some_iff.mp h
    cases h
    exact .ensured d seg e e' _ hf (Ensure.step_effect he)
  · next d readEnd readPos hf =>
    split at h
    · next hle =>
      rcases CachedFile.readAt_chunk (c := c) with ⟨hfits, hr⟩ | ⟨hlt, m, hr⟩
      · rw [hr] at h
        simp only at h
        rw [if_neg CachedFile.readChunk_ne_nil] at h
        cases h
        exact .read d readEnd readPos hf hle hfits
      · rw [hr] at h
        cases h
        exact .unread d readEnd readPos m hf hle hlt
    · next hgt =>
      split at h
      · next he =>
        cases h
        exact .served d readEnd readPos hf (by omega) he
      · next p he =>
        cases h
        exact .called d readEnd readPos p hf (by omega) he
  · next d p hf =>
    cases h
    exact .resumed d p hf
  · next d p e _ hf =>
    obtain ⟨⟨c₁, e'⟩, he, h⟩ := Option.map_eq_some_iff.mp h
    cases h
    exact .evicted d p e e' _ hf (Evict.next_effect he)
  · cases h

/-! ## The prefetcher -/

/-- The steps of the prefetcher. -/
inductive Body.PrefetchEffect (S : Setup) (c : CachedFile) (inp : Input) (k : Nat) (b : Body) :
    CachedFile → Body → Prop where
  | spawned (i : Nat) (rest : List Nat) : b.queue = i :: rest →
      PrefetchEffect S c inp k b c { b with queue := rest, tasks := b.tasks ++ [(i, .checking)] }
  | cached (i : Nat) (seg : SegmentRef) : b.tasks[k]? = some (i, .checking) →
      S.segments[i]? = some seg → c.hasRange seg.offsetInStream seg.stop = true →
      PrefetchEffect S c inp k b c (b.setTask k i none)
  | missing (i : Nat) (seg : SegmentRef) : b.tasks[k]? = some (i, .checking) →
      S.segments[i]? = some seg → c.hasRange seg.offsetInStream seg.stop = false →
      PrefetchEffect S c inp k b c ({ b with started := i :: b.started }.setTask k i
        (Task.await (.begin S.serverCount seg)))
  | ensured (i : Nat) (seg : SegmentRef) (e e' : Ensure) (c' : CachedFile) :
      b.tasks[k]? = some (i, .ensuring e) → S.segments[i]? = some seg →
      Ensure.Effect seg c inp.answer e c' e' →
      PrefetchEffect S c inp k b c' (b.setTask k i (Task.await e'))

namespace Body
variable {S : Setup} {c c' : CachedFile} {inp : Input} {k : Nat} {b b' : Body}

@[simp] theorem setTask_fg {i : Nat} {t : Option Task} : (b.setTask k i t).fg = b.fg := by
  cases t <;> rfl

@[simp] theorem setTask_yielded {i : Nat} {t : Option Task} :
    (b.setTask k i t).yielded = b.yielded := by
  cases t <;> rfl

@[simp] theorem setTask_serving {i : Nat} {t : Option Task} :
    (b.setTask k i t).serving = b.serving := by
  cases t <;> rfl

@[simp] theorem setTask_started {i : Nat} {t : Option Task} :
    (b.setTask k i t).started = b.started := by
  cases t <;> rfl

@[simp] theorem setTask_queue {i : Nat} {t : Option Task} :
    (b.setTask k i t).queue = b.queue := by
  cases t <;> rfl

/-- The foreground loop is where it was. -/
theorem PrefetchEffect.fg (h : b.PrefetchEffect S c inp k c' b') : b'.fg = b.fg := by
  cases h <;> simp

theorem PrefetchEffect.yielded (h : b.PrefetchEffect S c inp k c' b') :
    b'.yielded = b.yielded := by
  cases h <;> simp

theorem PrefetchEffect.serving (h : b.PrefetchEffect S c inp k c' b') :
    b'.serving = b.serving := by
  cases h <;> simp

/-- A prefetch populates bytes and evicts none. -/
theorem PrefetchEffect.has (h : b.PrefetchEffect S c inp k c' b') {x : Nat} (hx : c.Has x) :
    c'.Has x := by
  cases h with
  | ensured i seg e e' _ hk hseg he => exact he.has hx
  | _ => exact hx

end Body

theorem Body.spawn_eq {req : Request} {b b' : Body} (h : b.spawn req = some b') :
    ∃ i rest, b.queue = i :: rest ∧
      b' = { b with queue := rest, tasks := b.tasks ++ [(i, .checking)] } := by
  unfold spawn at h
  split at h
  · cases h
  · next i rest hq =>
    split at h
    · cases h
      exact ⟨i, rest, hq, rfl⟩
    · cases h

theorem Body.spawn_effect {S : Setup} {req : Request} {c : CachedFile} {inp : Input} {k : Nat}
    {b b' : Body} (h : b.spawn req = some b') : b.PrefetchEffect S c inp k c b' := by
  obtain ⟨i, rest, hq, rfl⟩ := spawn_eq h
  exact .spawned i rest hq

theorem Body.taskStep_effect {S : Setup} {c c' : CachedFile} {inp : Input} {k : Nat}
    {b b' : Body} (h : b.taskStep S c inp k = some (c', b')) :
    b.PrefetchEffect S c inp k c' b' := by
  unfold taskStep at h
  obtain ⟨⟨i, t⟩, hk, h⟩ := Option.bind_eq_some_iff.mp h
  obtain ⟨seg, hseg, h⟩ := Option.bind_eq_some_iff.mp h
  cases t with
  | checking =>
    simp only at h
    split at h
    · next hr =>
      cases h
      exact .cached i seg hk hseg hr
    · next hr =>
      cases h
      exact .missing i seg hk hseg (by simpa using hr)
  | ensuring e =>
    obtain ⟨⟨c₁, e'⟩, he, h⟩ := Option.map_eq_some_iff.mp h
    cases h
    exact .ensured i seg e e' _ hk hseg (Ensure.step_effect he)

/-- The size of the file never changes. -/
theorem Evict.Effect.totalSize {p : EvictPolicy} {playhead : Nat} {c c' : CachedFile}
    {punched : Bool} {e e' : Evict} (h : Effect p playhead c punched e c' e') :
    c'.totalSize = c.totalSize := by
  cases h <;> rfl

theorem Fg.Effect.totalSize {S : Setup} {req : Request} {c c' : CachedFile} {inp : Input}
    {b b' : Body} (h : Effect S req c inp b c' b') : c'.totalSize = c.totalSize := by
  cases h with
  | ensured d seg e e' _ hf he => exact he.totalSize
  | evicted d p e e' _ hf he => exact he.totalSize
  | _ => rfl

theorem Body.PrefetchEffect.totalSize {S : Setup} {c c' : CachedFile} {inp : Input} {k : Nat}
    {b b' : Body} (h : b.PrefetchEffect S c inp k c' b') : c'.totalSize = c.totalSize := by
  cases h with
  | ensured i seg e e' _ hk hseg he => exact he.totalSize
  | _ => rfl

/-! ## One body of several -/

/-- A step of the world is a step of one body, the others as they were. -/
inductive World.Effect {ι : Type} [DecidableEq ι] (S : Setup) (req : ι → Request)
    (s : World ι) : Act ι → World ι → Prop where
  | fg (i : ι) (inp : Input) (c : CachedFile) (b : Body) :
      Fg.Effect S (req i) s.cache inp (s.bodies i) c b → Effect S req s (.fg i inp) (s.set i c b)
  | spawn (i : ι) (b : Body) : (s.bodies i).PrefetchEffect S s.cache {} 0 s.cache b →
      Effect S req s (.spawn i) (s.set i s.cache b)
  | task (i : ι) (k : Nat) (inp : Input) (c : CachedFile) (b : Body) :
      (s.bodies i).PrefetchEffect S s.cache inp k c b → Effect S req s (.task i k inp) (s.set i c b)

theorem World.step_effect {ι : Type} [DecidableEq ι] {S : Setup} {req : ι → Request}
    {s s' : World ι} {a : Act ι} (h : s.step S req a = some s') : World.Effect S req s a s' := by
  cases a with
  | fg i inp =>
    obtain ⟨⟨c, b⟩, hb, rfl⟩ := Option.map_eq_some_iff.mp h
    exact .fg i inp c b (Body.fgStep_effect hb)
  | spawn i =>
    obtain ⟨b, hb, rfl⟩ := Option.map_eq_some_iff.mp h
    exact .spawn i b (Body.spawn_effect hb)
  | task i k inp =>
    obtain ⟨⟨c, b⟩, hb, rfl⟩ := Option.map_eq_some_iff.mp h
    exact .task i k inp c b (Body.taskStep_effect hb)

@[simp] theorem World.set_bodies {ι : Type} [DecidableEq ι] {s : World ι} {i j : ι}
    {c : CachedFile} {b : Body} : (s.set i c b).bodies j = if j = i then b else s.bodies j := rfl

@[simp] theorem World.set_cache {ι : Type} [DecidableEq ι] {s : World ι} {i : ι}
    {c : CachedFile} {b : Body} : (s.set i c b).cache = c := rfl

end StremioNzb.Streaming

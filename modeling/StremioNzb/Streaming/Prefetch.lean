import Mathlib.Data.List.Perm.Basic
import StremioNzb.Streaming.Transparent
import StremioNzb.Streaming.WordPipeline

/-!
# A prefetch by itself

`prefetch_segments` on a cache file that nobody else uses. Segments whose sizes add up in a word
have their own slots of the file, so their writes do not meet: whatever the order of the steps and
the concurrency, the payloads asked for are in the file at the end and all else is as it was.
Where the sizes do not fit, the slots overlap, and it depends on the order which payload is in the
file (`wrapped_slots_overlap`); so the condition on the sizes is exact (`prefetch_confined_iff`).
-/

namespace StremioNzb.Streaming

open StremioNzb.Lib

/-! ## The run of `prefetch_segments` -/

/-- What the servers have of each segment. -/
structure Outcomes (S : Setup) where
  /-- The decoded payload, `none` where the segment fails on all servers. -/
  payload : SegmentRef → Option (List UInt8)
  ne_nil : ∀ seg data, payload seg = some data → data ≠ []
  serves : Nat → SegmentRef → Answer → Prop
  answers : ∀ idx seg, ∃ a, serves idx seg a
  decodes : ∀ idx seg data, serves idx seg (.decoded data) → data = [] ∨ payload seg = some data
  held : ∀ seg ∈ S.segments, ∀ data, payload seg = some data →
    ∃ idx < S.serverCount, ∀ a, serves idx seg a → a = .decoded data

/-- Only the prefetcher moves, and the servers that it asks answer as they do. -/
def Outcomes.Allows {S : Setup} (U : Outcomes S) (s : World Unit) (a : Act Unit) : Prop :=
  a.isFg = false ∧ ∀ idx seg ans, s.asked S a = some (idx, seg, ans) → U.serves idx seg ans

/-- The prefetcher about to start on `indices`. -/
def prefetchSegments (c : CachedFile) (indices : List Nat) : World Unit :=
  ⟨c, fun _ => { Body.fresh with queue := indices }⟩

/-- `concurrency.max(1)` segments at once. -/
def prefetchRequest (concurrency : Nat) : Request := ⟨0, 0, max concurrency 1, none⟩

/-- The runs of the release build. -/
abbrev Outcomes.Reaches64 {S : Setup} (U : Outcomes S) (c : CachedFile) (indices : List Nat)
    (concurrency : Nat) (s : World Unit) : Prop :=
  Lib.Reaches (World.step64 S fun _ => prefetchRequest concurrency) U.Allows
    (prefetchSegments c indices) s

/-- The runs with exact sums. -/
abbrev Outcomes.Reaches {S : Setup} (U : Outcomes S) (c : CachedFile) (indices : List Nat)
    (concurrency : Nat) (s : World Unit) : Prop :=
  Lib.Reaches (World.step S fun _ => prefetchRequest concurrency) U.Allows
    (prefetchSegments c indices) s

/-- Nothing is waiting or in flight. -/
def World.PrefetchEnded (s : World Unit) : Prop :=
  (s.bodies ()).queue = [] ∧ (s.bodies ()).tasks = []

/-- `write_at` refuses the payload that the act brings. -/
def World.RejectsWrite (S : Setup) (s : World Unit) (a : Act Unit) : Prop :=
  ∃ idx seg data e, s.asked S a = some (idx, seg, .decoded data) ∧
    s.cache.checkWrite seg.offsetInStream (data.take seg.bytes) = .error e

/-! ## What it leaves -/

/-- The byte of the slot is covered by the payload, truncated to the slot. -/
def SegmentRef.Takes (seg : SegmentRef) (data : List UInt8) (x : Nat) : Prop :=
  seg.offsetInStream ≤ x ∧ x < seg.offsetInStream + (data.take seg.bytes).length

instance (seg : SegmentRef) (data : List UInt8) (x : Nat) : Decidable (seg.Takes data x) :=
  inferInstanceAs (Decidable (_ ∧ _))

/-- The payload is in the file. -/
def CachedFile.Written (c : CachedFile) (seg : SegmentRef) (data : List UInt8) : Prop :=
  ∀ x, seg.Takes data x → c.file x = data.getD (x - seg.offsetInStream) 0

section
variable {S : Setup} (U : Outcomes S) (c₀ : CachedFile) (indices : List Nat)

/-- A segment that is requested, not cached at first, and does not fail. -/
structure Outcomes.Fetches (i : Nat) (seg : SegmentRef) (data : List UInt8) : Prop where
  requested : i ∈ indices
  segment : S.segments[i]? = some seg
  missing : c₀.hasRange seg.offsetInStream seg.stop = false
  payload : U.payload seg = some data

/-- The cache file `c` that prefetching leaves of `c₀`. -/
structure Outcomes.Prefetched (c : CachedFile) : Prop where
  populated : ∀ x, c.Has x ↔
    c₀.Has x ∨ ∃ i seg data, U.Fetches c₀ indices i seg data ∧ seg.Takes data x
  written : ∀ i seg data, U.Fetches c₀ indices i seg data → c.Written seg data
  outside : ∀ x, (∀ i seg data, U.Fetches c₀ indices i seg data → ¬ seg.Takes data x) →
    c.file x = c₀.file x
  /-- Segments that fail, are not requested or were cached already. -/
  untouched : ∀ j seg, S.segments[j]? = some seg →
    U.payload seg = none ∨ j ∉ indices ∨ c₀.hasRange seg.offsetInStream seg.stop = true →
    ∀ x, seg.offsetInStream ≤ x → x < seg.stop →
      c.file x = c₀.file x ∧ (c.Has x ↔ c₀.Has x)
  rest : c.totalSize = c₀.totalSize ∧ c.lastEvictedTo = c₀.lastEvictedTo

end

/-- No write is refused, what is left at the end is as it should be and the same for all orders and
any concurrency, and there is an end. -/
structure Outcomes.Confined {S : Setup} (U : Outcomes S) (c₀ : CachedFile) (indices : List Nat)
    (concurrency : Nat) : Prop where
  unrejected : ∀ s a, U.Reaches64 c₀ indices concurrency s → U.Allows s a → ¬ s.RejectsWrite S a
  leaves : ∀ s, U.Reaches64 c₀ indices concurrency s → s.PrefetchEnded →
    U.Prefetched c₀ indices s.cache
  agrees : ∀ m s t, U.Reaches64 c₀ indices concurrency s → s.PrefetchEnded →
    U.Reaches64 c₀ indices m t → t.PrefetchEnded → s.cache = t.cache
  ends : (∀ i ∈ indices, i < S.segments.length) →
    ∃ s, U.Reaches64 c₀ indices concurrency s ∧ s.PrefetchEnded

/-! ## What holds along the way -/

/-- The payload is in the file and marked. -/
def CachedFile.Done (c : CachedFile) (seg : SegmentRef) (data : List UInt8) : Prop :=
  c.Written seg data ∧ ∀ x, seg.Takes data x → c.Has x

section
variable {S : Setup} (U : Outcomes S) (c₀ : CachedFile) (indices : List Nat)

/-- Where a fetch stands: a server that holds the segment is yet to be asked, or the payload is
there. -/
def Outcomes.Sound (c : CachedFile) (seg : SegmentRef) : Ensure → Prop
  | .fetching order _ => ∀ data, U.payload seg = some data →
      ∃ idx ∈ order, ∀ a, U.serves idx seg a → a = .decoded data
  | .writing bytes => ∃ data, U.payload seg = some data ∧ bytes = data.take seg.bytes
  | .marking start stop => ∃ data, U.payload seg = some data ∧ start = seg.offsetInStream ∧
      stop = seg.offsetInStream + (data.take seg.bytes).length ∧ c.Written seg data
  | .returned _ => False

/-- A change of the file that only adds payloads. -/
structure Outcomes.Adds (c c' : CachedFile) : Prop where
  totalSize : c'.totalSize = c.totalSize
  lastEvictedTo : c'.lastEvictedTo = c.lastEvictedTo
  has : ∀ x, c.Has x → c'.Has x
  added : ∀ x, c'.Has x → c.Has x ∨
    ∃ i seg data, U.Fetches c₀ indices i seg data ∧ seg.Takes data x ∧ c'.Done seg data
  written : ∀ i seg data, U.Fetches c₀ indices i seg data → c.Written seg data →
    c'.Written seg data
  file : ∀ x, c'.file x = c.file x ∨
    ∃ i seg data, U.Fetches c₀ indices i seg data ∧ seg.Takes data x

/-- A task has a segment that was not cached, and stands where it should. -/
def Outcomes.TaskSound (c : CachedFile) (i : Nat) : Task → Prop
  | .checking => True
  | .ensuring e => ∃ seg, S.segments[i]? = some seg ∧
      c₀.hasRange seg.offsetInStream seg.stop = false ∧ U.Sound c seg e

/-- Only payloads have been added to the file, and each segment to be fetched is done, in flight
or waiting. -/
structure Outcomes.Prefetching (c : CachedFile) (b : Body) : Prop where
  adds : U.Adds c₀ indices c₀ c
  queue : ∀ i ∈ b.queue, i ∈ indices
  tasks : ∀ i t, (i, t) ∈ b.tasks → i ∈ indices ∧ U.TaskSound c₀ c i t
  pending : ∀ i seg data, U.Fetches c₀ indices i seg data →
    c.Done seg data ∨ i ∈ b.queue ∨ ∃ t, (i, t) ∈ b.tasks

end

/-! ## What is added to the file -/

section
variable {S : Setup} {U : Outcomes S} {c₀ c c' c'' : CachedFile} {indices : List Nat}
  {i j x : Nat} {seg seg' : SegmentRef} {data data' : List UInt8}

theorem SegmentRef.Takes.lt_stop (h : seg.Takes data x) : x < seg.stop := by
  have := h.2
  rw [List.length_take] at this
  show x < seg.offsetInStream + seg.bytes
  omega

/-- Slots do not meet. -/
theorem Contiguous.slot_unique {segs : List SegmentRef} (h : Contiguous segs)
    (hi : segs[i]? = some seg) (hj : segs[j]? = some seg')
    (h1 : seg.offsetInStream ≤ x) (h2 : x < seg.stop)
    (h3 : seg'.offsetInStream ≤ x) (h4 : x < seg'.stop) : i = j ∧ seg = seg' := by
  have hij : i = j := by
    rcases Nat.lt_trichotomy i j with hlt | heq | hgt
    · have := h.stop_le hi hj hlt
      omega
    · exact heq
    · have := h.stop_le hj hi hgt
      omega
  subst hij
  exact ⟨rfl, Option.some.inj (hi.symm.trans hj)⟩

/-- A byte is taken by one payload only. -/
theorem Outcomes.Fetches.unique (hl : Contiguous S.segments) (h : U.Fetches c₀ indices i seg data)
    (h' : U.Fetches c₀ indices j seg' data') (hx : seg.Takes data x) (hx' : seg'.Takes data' x) :
    seg = seg' ∧ data = data' := by
  obtain ⟨-, rfl⟩ := hl.slot_unique h.segment h'.segment hx.1 hx.lt_stop hx'.1 hx'.lt_stop
  exact ⟨rfl, Option.some.inj (h.payload.symm.trans h'.payload)⟩

namespace Outcomes.Adds

theorem refl : U.Adds c₀ indices c c :=
  ⟨rfl, rfl, fun _ h => h, fun _ h => .inl h, fun _ _ _ _ h => h, fun _ => .inl rfl⟩

theorem done (h : U.Adds c₀ indices c c') (hf : U.Fetches c₀ indices i seg data)
    (hd : c.Done seg data) : c'.Done seg data :=
  ⟨h.written i seg data hf hd.1, fun x hx => h.has x (hd.2 x hx)⟩

theorem trans (h : U.Adds c₀ indices c c') (h' : U.Adds c₀ indices c' c'') :
    U.Adds c₀ indices c c'' := by
  refine ⟨h'.totalSize.trans h.totalSize, h'.lastEvictedTo.trans h.lastEvictedTo,
    fun x hx => h'.has x (h.has x hx), fun x hx => ?_,
    fun i seg data hf hw => h'.written i seg data hf (h.written i seg data hf hw), fun x => ?_⟩
  · rcases h'.added x hx with hx | hnew
    · rcases h.added x hx with hx | ⟨i, seg, data, hf, hx, hd⟩
      · exact .inl hx
      · exact .inr ⟨i, seg, data, hf, hx, h'.done hf hd⟩
    · exact .inr hnew
  · rcases h'.file x with hx | hnew
    · exact (h.file x).imp_left hx.trans
    · exact .inr hnew

/-- The payload is written at its slot. -/
theorem write (hl : Contiguous S.segments) (hf : U.Fetches c₀ indices i seg data) :
    U.Adds c₀ indices c (c.writeFile seg.offsetInStream (data.take seg.bytes)) ∧
      (c.writeFile seg.offsetInStream (data.take seg.bytes)).Written seg data := by
  have hnew : (c.writeFile seg.offsetInStream (data.take seg.bytes)).Written seg data :=
    fun x hx => by rw [CachedFile.writeFile_in hx.1 hx.2, CachedFile.getD_take hx.1 hx.2]
  refine ⟨⟨rfl, rfl, fun _ h => h, fun _ h => .inl h, fun j seg' data' hf' hw x hx => ?_,
    fun x => ?_⟩, hnew⟩
  · by_cases hmeet : seg.Takes data x
    · obtain ⟨rfl, rfl⟩ := hf.unique hl hf' hmeet hx
      exact hnew x hx
    · rw [CachedFile.writeFile_out hmeet, hw x hx]
  · by_cases hmeet : seg.Takes data x
    · exact .inr ⟨i, seg, data, hf, hmeet⟩
    · exact .inl (CachedFile.writeFile_out hmeet)

/-- A payload in the file is marked. -/
theorem mark (hf : U.Fetches c₀ indices i seg data) (hw : c.Written seg data) :
    U.Adds c₀ indices c
        (c.markPopulated seg.offsetInStream (seg.offsetInStream + (data.take seg.bytes).length)) ∧
      (c.markPopulated seg.offsetInStream
        (seg.offsetInStream + (data.take seg.bytes).length)).Done seg data := by
  have hnew : (c.markPopulated seg.offsetInStream
      (seg.offsetInStream + (data.take seg.bytes).length)).Done seg data :=
    ⟨hw, fun x hx => CachedFile.markPopulated_has.mpr (.inr hx)⟩
  refine ⟨⟨rfl, rfl, fun x hx => CachedFile.markPopulated_has.mpr (.inl hx), fun x hx => ?_,
    fun _ _ _ _ h => h, fun _ => .inl rfl⟩, hnew⟩
  exact (CachedFile.markPopulated_has.mp hx).imp_right fun hx => ⟨i, seg, data, hf, hx, hnew⟩

/-- A segment that is cached now and was not is done. -/
theorem done_of_cached (hl : Contiguous S.segments) (h : U.Adds c₀ indices c₀ c)
    (hf : U.Fetches c₀ indices i seg data)
    (hc : c.hasRange seg.offsetInStream seg.stop = true) : c.Done seg data := by
  have hmissing : ¬ ∀ x, seg.offsetInStream ≤ x → x < seg.stop → c₀.Has x := by
    rw [← CachedFile.hasRange_iff, hf.missing]
    exact Bool.false_ne_true
  push Not at hmissing
  obtain ⟨x, h1, h2, hx⟩ := hmissing
  rcases h.added x (CachedFile.hasRange_iff.mp hc x h1 h2) with hx' | ⟨j, seg', data', hf', hx', hd⟩
  · exact absurd hx' hx
  · obtain ⟨-, rfl⟩ := hl.slot_unique hf.segment hf'.segment h1 h2 hx'.1 hx'.lt_stop
    obtain rfl : data = data' := Option.some.inj (hf.payload.symm.trans hf'.payload)
    exact hd

end Outcomes.Adds

/-! ## A step goes on -/

theorem Outcomes.Sound.adds {e : Ensure} (h : U.Sound c seg e) (hadds : U.Adds c₀ indices c c')
    (hi : i ∈ indices) (hseg : S.segments[i]? = some seg)
    (hmissing : c₀.hasRange seg.offsetInStream seg.stop = false) : U.Sound c' seg e := by
  cases e with
  | marking start stop =>
    obtain ⟨data, hp, h1, h2, hw⟩ := h
    exact ⟨data, hp, h1, h2, hadds.written i seg data ⟨hi, hseg, hmissing, hp⟩ hw⟩
  | fetching | writing | returned => exact h

theorem Outcomes.TaskSound.adds {t : Task} (h : U.TaskSound c₀ c i t)
    (hadds : U.Adds c₀ indices c c') (hi : i ∈ indices) : U.TaskSound c₀ c' i t := by
  cases t with
  | checking => trivial
  | ensuring e =>
    obtain ⟨seg, hseg, hmissing, he⟩ := h
    exact ⟨seg, hseg, hmissing, he.adds hadds hi hseg hmissing⟩

/-- A write at a slot is never past the end. -/
theorem Contiguous.take_le {segs : List SegmentRef} (h : Contiguous segs)
    (hi : segs[i]? = some seg) (data : List UInt8) :
    seg.offsetInStream + (data.take seg.bytes).length ≤ assembledEnd segs := by
  have hstop : seg.offsetInStream + seg.bytes ≤ assembledEnd segs := h.stop_le_end hi
  have := List.length_take_le seg.bytes data
  omega

/-- **A step of a fetch** goes on with it, or returns with the payload in the file. -/
theorem Outcomes.Sound.step {answer : Answer} {e e' : Ensure} (hl : Contiguous S.segments)
    (hsize : c.totalSize = assembledEnd S.segments) (h : U.Sound c seg e) (hi : i ∈ indices)
    (hseg : S.segments[i]? = some seg)
    (hmissing : c₀.hasRange seg.offsetInStream seg.stop = false)
    (he : Ensure.Effect seg c answer e c' e')
    (hans : ∀ idx rest lastErr, e = .fetching (idx :: rest) lastErr → U.serves idx seg answer) :
    U.Adds c₀ indices c c' ∧ (U.Sound c' seg e' ∨
      (∃ r, e' = .returned r) ∧ ∀ data, U.payload seg = some data → c'.Done seg data) := by
  cases he with
  | exhausted lastErr m =>
    refine ⟨.refl, .inr ⟨⟨_, rfl⟩, fun data hp => ?_⟩⟩
    obtain ⟨idx, hidx, -⟩ := h data hp
    cases hidx
  | failedOver idx rest lastErr m hm =>
    refine ⟨.refl, .inl fun data hp => ?_⟩
    obtain ⟨good, hgood, hserves⟩ := h data hp
    rcases List.mem_cons.mp hgood with rfl | hgood
    · -- the server that holds the segment does not fail
      exact absurd (hm data (hserves _ (hans good rest lastErr rfl))) (U.ne_nil seg data hp)
    · exact ⟨good, hgood, hserves⟩
  | refused idx rest lastErr data m ha hne hlt =>
    have := hl.take_le hseg data
    omega
  | nothing idx rest lastErr data ha hne h0 =>
    -- an empty slot counts as cached
    have hcached : c₀.hasRange seg.offsetInStream seg.stop = true :=
      CachedFile.hasRange_iff.mpr fun x h1 h2 => by
        have : seg.stop = seg.offsetInStream + seg.bytes := rfl
        omega
    rw [hmissing] at hcached
    cases hcached
  | fetched idx rest lastErr data ha hne hpos hle =>
    have hserved := hans idx rest lastErr rfl
    rw [ha] at hserved
    exact ⟨.refl, .inl ⟨data, (U.decodes idx seg data hserved).resolve_left hne, rfl⟩⟩
  | wrote bytes =>
    obtain ⟨data, hp, rfl⟩ := h
    obtain ⟨hadds, hw⟩ := Adds.write (c := c) hl (⟨hi, hseg, hmissing, hp⟩ : U.Fetches _ _ i _ _)
    exact ⟨hadds, .inl ⟨data, hp, rfl, rfl, hw⟩⟩
  | marked start stop =>
    obtain ⟨data, hp, rfl, rfl, hw⟩ := h
    obtain ⟨hadds, hd⟩ := Adds.mark (⟨hi, hseg, hmissing, hp⟩ : U.Fetches _ _ i _ _) hw
    refine ⟨hadds, .inr ⟨⟨_, rfl⟩, fun data' hp' => ?_⟩⟩
    obtain rfl : data = data' := Option.some.inj (hp.symm.trans hp')
    exact hd

end

/-! ## The prefetcher -/

namespace Body
variable {b : Body} {k i j : Nat} {t t₀ : Task} {u : Option Task}

/-- A step changes the task of its segment only. -/
theorem mem_setTask_of_mem (hk : b.tasks[k]? = some (i, t₀)) (h : (j, t) ∈ b.tasks) :
    (j, t) ∈ (b.setTask k i u).tasks ∨ j = i := by
  obtain ⟨k', hk'⟩ := List.mem_iff_getElem?.mp h
  by_cases hkk : k' = k
  · subst hkk
    rw [hk] at hk'
    cases hk'
    exact .inr rfl
  · refine .inl ?_
    cases u with
    | none => exact List.mem_eraseIdx_iff_getElem?.mpr ⟨k', hkk, hk'⟩
    | some t' =>
      refine List.mem_of_getElem? (i := k') ?_
      show (b.tasks.set k (i, t'))[k']? = _
      rw [List.getElem?_set_ne (Ne.symm hkk), hk']

theorem mem_setTask_self (hk : b.tasks[k]? = some (i, t₀)) :
    (i, t) ∈ (b.setTask k i (some t)).tasks :=
  List.mem_set (List.getElem?_eq_some_iff.mp hk).1 _

end Body

section
variable {S : Setup} {U : Outcomes S} {c₀ c c' : CachedFile} {indices : List Nat} {b b' : Body}
  {k i : Nat} {inp : Input}

/-- The task of a segment moves on, or ends with the segment done where it has a payload. -/
theorem Outcomes.Prefetching.setTask {t₀ : Task} {u : Option Task}
    (h : U.Prefetching c₀ indices c b) (hk : b.tasks[k]? = some (i, t₀))
    (hadds : U.Adds c₀ indices c c') (hu : ∀ t, u = some t → U.TaskSound c₀ c' i t)
    (hdone : u = none → ∀ seg data, U.Fetches c₀ indices i seg data → c'.Done seg data) :
    U.Prefetching c₀ indices c' (b.setTask k i u) := by
  have hi := (h.tasks i t₀ (List.mem_of_getElem? hk)).1
  refine ⟨h.adds.trans hadds, ?_, fun j t hj => ?_, fun j seg data hf => ?_⟩
  · rw [Body.setTask_queue]
    exact h.queue
  · rcases Body.mem_setTask hj with hj | ⟨rfl, ht⟩
    · obtain ⟨hj', ht⟩ := h.tasks j t hj
      exact ⟨hj', ht.adds hadds hj'⟩
    · exact ⟨hi, hu t ht⟩
  · rw [Body.setTask_queue]
    rcases h.pending j seg data hf with hd | hq | ⟨t, ht⟩
    · exact .inl (hadds.done hf hd)
    · exact .inr (.inl hq)
    · rcases Body.mem_setTask_of_mem hk ht with ht | rfl
      · exact .inr (.inr ⟨t, ht⟩)
      · cases u with
        | none => exact .inl (hdone rfl seg data hf)
        | some t' => exact .inr (.inr ⟨t', Body.mem_setTask_self hk⟩)

theorem Task.await_eq_none {e : Ensure} : Task.await e = none ↔ ∃ r, e = .returned r := by
  cases e with
  | returned r => exact ⟨fun _ => ⟨r, rfl⟩, fun _ => rfl⟩
  | fetching | writing | marking =>
    refine ⟨?_, ?_⟩
    · intro h
      cases h
    · rintro ⟨r, hr⟩
      cases hr

/-- A fetch that starts has a server to ask where the segment has a payload. -/
theorem Outcomes.sound_begin (U : Outcomes S) {seg : SegmentRef} (hseg : S.segments[i]? = some seg)
    (h0 : S.serverCount ≠ 0) : U.Sound c seg (.begin S.serverCount seg) := by
  unfold Ensure.begin
  rw [if_neg h0]
  intro data hp
  obtain ⟨idx, hidx, hserves⟩ := U.held seg (List.mem_of_getElem? hseg) data hp
  exact ⟨idx, mem_serverOrder hidx, hserves⟩

/-- The next segment is taken up. -/
theorem Outcomes.Prefetching.spawned {rest : List Nat} (h : U.Prefetching c₀ indices c b)
    (hq : b.queue = i :: rest) : U.Prefetching c₀ indices c
      { b with queue := rest, tasks := b.tasks ++ [(i, .checking)] } := by
  have hqueue : ∀ j ∈ rest, j ∈ b.queue := fun j hj => hq ▸ List.mem_cons_of_mem i hj
  refine ⟨h.adds, fun j hj => h.queue j (hqueue j hj), fun j t hj => ?_,
    fun j seg data hf => ?_⟩
  · rcases List.mem_append.mp hj with hj | hj
    · exact h.tasks j t hj
    · cases List.mem_singleton.mp hj
      exact ⟨h.queue i (hq ▸ List.mem_cons_self), trivial⟩
  · rcases h.pending j seg data hf with hd | hj | ⟨t, ht⟩
    · exact .inl hd
    · rcases List.mem_cons.mp (hq ▸ hj) with rfl | hj
      · exact .inr (.inr ⟨.checking, List.mem_append_right _ List.mem_cons_self⟩)
      · exact .inr (.inl hj)
    · exact .inr (.inr ⟨t, List.mem_append_left _ ht⟩)

/-- The fetch of a segment that is not cached begins. -/
theorem Outcomes.Prefetching.begun {seg : SegmentRef} (h : U.Prefetching c₀ indices c b)
    (hk : b.tasks[k]? = some (i, .checking)) (hseg : S.segments[i]? = some seg)
    (hr : c.hasRange seg.offsetInStream seg.stop = false) :
    U.Prefetching c₀ indices c ({ b with started := i :: b.started }.setTask k i
      (Task.await (.begin S.serverCount seg))) := by
  have hmissing : c₀.hasRange seg.offsetInStream seg.stop = false := by
    refine Bool.eq_false_iff.mpr fun hcached => Bool.eq_false_iff.mp hr ?_
    exact CachedFile.hasRange_iff.mpr fun x h1 h2 =>
      h.adds.has x (CachedFile.hasRange_iff.mp hcached x h1 h2)
  have h' : U.Prefetching c₀ indices c { b with started := i :: b.started } :=
    ⟨h.adds, h.queue, h.tasks, h.pending⟩
  refine h'.setTask hk .refl (fun t ht => ?_) fun hnone seg' data hf => ?_
  · by_cases h0 : S.serverCount = 0
    · unfold Ensure.begin at ht
      rw [if_pos h0] at ht
      cases ht
    · cases t with
      | checking => trivial
      | ensuring e =>
        obtain rfl := Task.await_eq_some ht
        exact ⟨seg, hseg, hmissing, U.sound_begin hseg h0⟩
  · obtain ⟨idx, hidx, -⟩ := U.held seg' (List.mem_of_getElem? hf.segment) data hf.payload
    unfold Ensure.begin at hnone
    rw [if_neg (by omega)] at hnone
    cases hnone

/-- The fetch of a segment goes on. -/
theorem Outcomes.Prefetching.ensured {seg : SegmentRef} {e e' : Ensure} (hl : Contiguous S.segments)
    (hsize : c.totalSize = assembledEnd S.segments) (h : U.Prefetching c₀ indices c b)
    (hk : b.tasks[k]? = some (i, .ensuring e)) (hseg : S.segments[i]? = some seg)
    (he : Ensure.Effect seg c inp.answer e c' e')
    (hans : ∀ idx rest lastErr, e = .fetching (idx :: rest) lastErr →
      U.serves idx seg inp.answer) :
    U.Prefetching c₀ indices c' (b.setTask k i (Task.await e')) := by
  obtain ⟨hi, seg', hseg', hmissing, hsound⟩ := h.tasks i _ (List.mem_of_getElem? hk)
  obtain rfl : seg = seg' := Option.some.inj (hseg.symm.trans hseg')
  obtain ⟨hadds, hnext⟩ := hsound.step hl hsize hi hseg hmissing he hans
  refine h.setTask hk hadds (fun t ht => ?_) fun hnone seg' data hf => ?_
  · cases t with
    | checking => trivial
    | ensuring e'' =>
      obtain rfl := Task.await_eq_some ht
      rcases hnext with hsound | ⟨⟨r, rfl⟩, -⟩
      · exact ⟨seg, hseg, hmissing, hsound⟩
      · cases ht
  · obtain rfl : seg = seg' := Option.some.inj (hseg.symm.trans hf.segment)
    obtain ⟨r, rfl⟩ := Task.await_eq_none.mp hnone
    rcases hnext with hsound | ⟨-, hd⟩
    · exact hsound.elim
    · exact hd data hf.payload

/-- **A step of the prefetcher** keeps the invariant. -/
theorem Outcomes.Prefetching.step (hl : Contiguous S.segments)
    (hsize : c.totalSize = assembledEnd S.segments) (h : U.Prefetching c₀ indices c b)
    (he : b.PrefetchEffect S c inp k c' b')
    (hans : ∀ i seg idx rest lastErr,
      b.tasks[k]? = some (i, .ensuring (.fetching (idx :: rest) lastErr)) →
      S.segments[i]? = some seg → U.serves idx seg inp.answer) :
    U.Prefetching c₀ indices c' b' := by
  cases he with
  | spawned i rest hq => exact h.spawned hq
  | cached i seg hk hseg hr =>
    refine h.setTask hk .refl (fun t ht => by cases ht) fun _ seg' data hf => ?_
    obtain rfl : seg = seg' := Option.some.inj (hseg.symm.trans hf.segment)
    exact h.adds.done_of_cached hl hf hr
  | missing i seg hk hseg hr => exact h.begun hk hseg hr
  | ensured i seg e e' _ hk hseg he =>
    exact h.ensured hl hsize hk hseg he fun idx rest lastErr heq =>
      hans i seg idx rest lastErr (heq ▸ hk) hseg

end

/-! ## The whole run -/

section
variable {S : Setup} {U : Outcomes S} {c₀ : CachedFile} {indices : List Nat}
  {concurrency : Nat} {s t : World Unit}

theorem prefetching_reaches (hl : Contiguous S.segments)
    (hsize : c₀.totalSize = assembledEnd S.segments)
    (h : U.Reaches c₀ indices concurrency s) :
    U.Prefetching c₀ indices s.cache (s.bodies ()) := by
  refine Reaches.inv (I := fun s => U.Prefetching c₀ indices s.cache (s.bodies ())) h ?_
    fun t a u ht hok hs => ?_
  · refine ⟨.refl, fun i hi => hi, fun i t hi => ?_, fun i seg data hf => .inr (.inl hf.requested)⟩
    cases hi
  · obtain ⟨hfg, hans⟩ := hok
    have htotal := ht.adds.totalSize.trans hsize
    cases a with
    | fg i inp => cases hfg
    | spawn i =>
      obtain ⟨b, hb, rfl⟩ := Option.map_eq_some_iff.mp hs
      obtain ⟨i, rest, hq, rfl⟩ := Body.spawn_eq hb
      exact ht.spawned hq
    | task i k inp =>
      obtain ⟨⟨c, b⟩, hb, rfl⟩ := Option.map_eq_some_iff.mp hs
      refine ht.step hl htotal (Body.taskStep_effect hb) fun j seg idx rest lastErr hk hseg => ?_
      refine hans idx seg inp.answer ?_
      simp only [World.asked, hk, hseg, Option.map_some]

theorem Outcomes.Prefetching.prefetched (hl : Contiguous S.segments)
    (h : U.Prefetching c₀ indices s.cache (s.bodies ())) (hend : s.PrefetchEnded) :
    U.Prefetched c₀ indices s.cache := by
  obtain ⟨hqueue, htasks⟩ := hend
  have hdone : ∀ i seg data, U.Fetches c₀ indices i seg data → s.cache.Done seg data := by
    intro i seg data hf
    rcases h.pending i seg data hf with hd | hq | ⟨t, ht⟩
    · exact hd
    · rw [hqueue] at hq
      cases hq
    · rw [htasks] at ht
      cases ht
  have hpop : ∀ x, s.cache.Has x ↔
      c₀.Has x ∨ ∃ i seg data, U.Fetches c₀ indices i seg data ∧ seg.Takes data x := by
    refine fun x => ⟨fun hx => ?_, fun hx => ?_⟩
    · refine (h.adds.added x hx).imp_right ?_
      rintro ⟨i, seg, data, hf, hx, -⟩
      exact ⟨i, seg, data, hf, hx⟩
    · rcases hx with hx | ⟨i, seg, data, hf, hx⟩
      · exact h.adds.has x hx
      · exact (hdone i seg data hf).2 x hx
  have houtside : ∀ x, (∀ i seg data, U.Fetches c₀ indices i seg data → ¬ seg.Takes data x) →
      s.cache.file x = c₀.file x := by
    refine fun x hx => (h.adds.file x).resolve_right ?_
    rintro ⟨i, seg, data, hf, htakes⟩
    exact hx i seg data hf htakes
  refine ⟨hpop, fun i seg data hf => (hdone i seg data hf).1, houtside,
    fun j seg hseg hcase x h1 h2 => ?_, h.adds.totalSize, h.adds.lastEvictedTo⟩
  have hnone : ∀ i seg data, U.Fetches c₀ indices i seg data → ¬ seg.Takes data x := by
    intro i seg' data hf htakes
    obtain ⟨rfl, rfl⟩ := hl.slot_unique hf.segment hseg htakes.1 htakes.lt_stop h1 h2
    rcases hcase with hp | hj | hc
    · rw [hf.payload] at hp
      cases hp
    · exact hj hf.requested
    · rw [hf.missing] at hc
      cases hc
  refine ⟨houtside x hnone, (hpop x).trans (or_iff_left ?_)⟩
  rintro ⟨i, seg', data, hf, htakes⟩
  exact hnone i seg' data hf htakes

/-- What prefetching leaves is determined by what it finds. -/
theorem Outcomes.Prefetched.unique {c c' : CachedFile} (h : U.Prefetched c₀ indices c)
    (h' : U.Prefetched c₀ indices c') : c = c' := by
  have hfile : c.file = c'.file := by
    funext x
    by_cases hx : ∃ i seg data, U.Fetches c₀ indices i seg data ∧ seg.Takes data x
    · obtain ⟨i, seg, data, hf, hx⟩ := hx
      rw [h.written i seg data hf x hx, h'.written i seg data hf x hx]
    · have hnone : ∀ i seg data, U.Fetches c₀ indices i seg data → ¬ seg.Takes data x :=
        fun i seg data hf hx' => hx ⟨i, seg, data, hf, hx'⟩
      rw [h.outside x hnone, h'.outside x hnone]
  have hpop : c.populated = c'.populated :=
    PopulatedRanges.eq_of_bytes_eq (Set.ext fun x => (h.populated x).trans (h'.populated x).symm)
  have htotal := h.rest.1.trans h'.rest.1.symm
  have hlast := h.rest.2.trans h'.rest.2.symm
  cases c
  cases c'
  subst hfile hpop htotal hlast
  rfl

/-! ## A run ends -/

/-- Steps left of a prefetch, with `n` servers. -/
def Task.work (n : Nat) : Task → Nat
  | .checking => n + 4
  | .ensuring e => e.work

def Body.prefetchWork (n : Nat) (b : Body) : Nat :=
  b.queue.length * (n + 5) + (b.tasks.map fun p => p.2.work n).sum

theorem Body.prefetchWork_setTask {b : Body} {k i n : Nat} {t₀ : Task} {u : Option Task}
    (hk : b.tasks[k]? = some (i, t₀)) :
    (b.setTask k i u).prefetchWork n + t₀.work n =
      b.prefetchWork n + (u.map (Task.work n)).getD 0 := by
  obtain ⟨hlt, hget⟩ := List.getElem?_eq_some_iff.mp hk
  let sum : List (Nat × Task) → Nat := fun ts => (ts.map fun p => p.2.work n).sum
  have herase : t₀.work n + sum (b.tasks.eraseIdx k) = sum b.tasks := by
    have hperm := (List.getElem_cons_eraseIdx_perm hlt).map fun p => p.2.work n
    rw [hget] at hperm
    exact hperm.sum_nat
  cases u with
  | none =>
    show b.queue.length * (n + 5) + sum (b.tasks.eraseIdx k) + t₀.work n =
      b.queue.length * (n + 5) + sum b.tasks + 0
    omega
  | some t =>
    have hset : sum (b.tasks.set k (i, t)) = t.work n + sum (b.tasks.eraseIdx k) :=
      ((List.set_perm_cons_eraseIdx hlt (i, t)).map fun p => p.2.work n).sum_nat
    show b.queue.length * (n + 5) + sum (b.tasks.set k (i, t)) + t₀.work n =
      b.queue.length * (n + 5) + sum b.tasks + t.work n
    omega

theorem Task.work_await {n : Nat} {e : Ensure} :
    ((Task.await e).map (work n)).getD 0 ≤ e.work := by
  cases e with
  | returned r => exact Nat.zero_le _
  | fetching | writing | marking => exact le_rfl

/-- **A step leaves less to do.** -/
theorem Body.PrefetchEffect.prefetchWork_lt {b b' : Body} {c c' : CachedFile} {inp : Input}
    {k : Nat} (he : b.PrefetchEffect S c inp k c' b') :
    b'.prefetchWork S.serverCount < b.prefetchWork S.serverCount := by
  cases he with
  | spawned i rest hq =>
    show rest.length * (S.serverCount + 5) +
        ((b.tasks ++ [(i, Task.checking)]).map fun p => p.2.work S.serverCount).sum <
      b.queue.length * (S.serverCount + 5) + _
    rw [hq, List.map_append, List.sum_append, List.length_cons, Nat.succ_mul]
    show _ + (_ + (S.serverCount + 4 + 0)) < _
    omega
  | cached i seg hk hseg hr =>
    have hsum := prefetchWork_setTask (n := S.serverCount) (u := none) hk
    have hwork : Task.checking.work S.serverCount = S.serverCount + 4 := rfl
    simp only [Option.map_none, Option.getD_none] at hsum
    omega
  | missing i seg hk hseg hr =>
    have hsum := prefetchWork_setTask (b := { b with started := i :: b.started })
      (n := S.serverCount) (u := Task.await (.begin S.serverCount seg)) hk
    have hwork : Task.checking.work S.serverCount = S.serverCount + 4 := rfl
    have hle := Task.work_await (n := S.serverCount) (e := .begin S.serverCount seg)
    have hbegin : (Ensure.begin S.serverCount seg).work ≤ S.serverCount + 3 := Ensure.work_begin
    have hsame : ({ b with started := i :: b.started } : Body).prefetchWork S.serverCount =
        b.prefetchWork S.serverCount := rfl
    omega
  | ensured i seg e e' _ hk hseg he =>
    have hsum := prefetchWork_setTask (n := S.serverCount) (u := Task.await e') hk
    have hwork : (Task.ensuring e).work S.serverCount = e.work := rfl
    have hle := Task.work_await (n := S.serverCount) (e := e')
    have hlt := he.work_lt
    omega

/-- The servers have an answer to whatever is asked. -/
theorem Outcomes.exists_input (U : Outcomes S) (s : World Unit) (k : Nat) :
    ∃ inp, U.Allows s (.task () k inp) := by
  cases ha : s.asked S (.task () k {}) with
  | none =>
    refine ⟨{}, rfl, fun idx seg ans h => ?_⟩
    rw [ha] at h
    cases h
  | some r =>
    obtain ⟨idx, seg, _⟩ := r
    obtain ⟨ans, hans⟩ := U.answers idx seg
    refine ⟨{ answer := ans }, rfl, fun idx' seg' ans' h => ?_⟩
    simp only [World.asked] at ha h
    split at ha
    · next j idx₀ rest lastErr hk =>
      rw [hk] at h
      obtain ⟨seg₁, hseg₁, heq₁⟩ := Option.map_eq_some_iff.mp ha
      obtain ⟨seg₂, hseg₂, heq₂⟩ := Option.map_eq_some_iff.mp h
      cases heq₁
      cases heq₂
      cases hseg₁.symm.trans hseg₂
      exact hans
    · cases ha

theorem Body.exists_spawn {b : Body} {i : Nat} {rest : List Nat} (hqueue : b.queue = i :: rest)
    (htasks : b.tasks = []) : ∃ b', b.spawn (prefetchRequest concurrency) = some b' := by
  unfold spawn
  rw [hqueue, htasks]
  exact ⟨_, if_pos (Nat.lt_of_lt_of_le Nat.one_pos (Nat.le_max_right _ _))⟩

theorem Outcomes.TaskSound.exists_taskStep {b : Body} {c : CachedFile} {inp : Input} {k i : Nat}
    {t : Task} {seg : SegmentRef} (ht : U.TaskSound c₀ c i t) (hk : b.tasks[k]? = some (i, t))
    (hseg : S.segments[i]? = some seg) : ∃ r, b.taskStep S c inp k = some r := by
  unfold Body.taskStep
  rw [hk, Option.bind_some]
  simp only [hseg, Option.bind_some]
  cases t with
  | checking =>
    simp only
    split <;> exact ⟨_, rfl⟩
  | ensuring e =>
    obtain ⟨seg', hseg', -, hsound⟩ := ht
    obtain rfl : seg = seg' := Option.some.inj (hseg.symm.trans hseg')
    have hne : ∀ r, e ≠ .returned r := by
      rintro r rfl
      exact hsound
    obtain ⟨r, hr⟩ : ∃ r, e.step seg c inp.answer = some r := Ensure.exists_step hne
    simp only [hr, Option.map_some]
    exact ⟨_, rfl⟩

/-- Until it has ended, the prefetcher can go on. -/
theorem Outcomes.Prefetching.exists_step (hvalid : ∀ i ∈ indices, i < S.segments.length)
    (h : U.Prefetching c₀ indices s.cache (s.bodies ())) (concurrency : Nat) :
    s.PrefetchEnded ∨ ∃ a t, U.Allows s a ∧
      World.step S (fun _ => prefetchRequest concurrency) s a = some t := by
  cases htasks : (s.bodies ()).tasks with
  | nil =>
    cases hqueue : (s.bodies ()).queue with
    | nil => exact .inl ⟨hqueue, htasks⟩
    | cons i rest =>
      obtain ⟨b, hb⟩ : ∃ b, (s.bodies ()).spawn (prefetchRequest concurrency) = some b :=
        Body.exists_spawn hqueue htasks
      have hallowed : U.Allows s (.spawn ()) := ⟨rfl, fun idx seg ans ha => by cases ha⟩
      exact .inr ⟨.spawn (), s.set () s.cache b, hallowed, by rw [World.step, hb]; rfl⟩
  | cons it rest =>
    obtain ⟨i, t⟩ := it
    have hk : (s.bodies ()).tasks[0]? = some (i, t) := by
      rw [htasks]
      rfl
    obtain ⟨hi, ht⟩ := h.tasks i t (List.mem_of_getElem? hk)
    obtain ⟨seg, hseg⟩ : ∃ seg, S.segments[i]? = some seg :=
      ⟨_, List.getElem?_eq_getElem (hvalid i hi)⟩
    obtain ⟨inp, hinp⟩ := U.exists_input s 0
    obtain ⟨⟨c, b⟩, hb⟩ : ∃ r, (s.bodies ()).taskStep S s.cache inp 0 = some r :=
      ht.exists_taskStep hk hseg
    exact .inr ⟨.task () 0 inp, s.set () c b, hinp, by rw [World.step, hb]; rfl⟩

theorem exists_prefetchEnded (U : Outcomes S) (hl : Contiguous S.segments)
    (hsize : c₀.totalSize = assembledEnd S.segments) (concurrency : Nat)
    (hvalid : ∀ i ∈ indices, i < S.segments.length) :
    ∃ s, U.Reaches c₀ indices concurrency s ∧ s.PrefetchEnded := by
  have hbound : ∀ as t, Run (World.step S fun _ => prefetchRequest concurrency) U.Allows
      (prefetchSegments c₀ indices) as t →
      as.countP (fun _ => true) ≤
        ((prefetchSegments c₀ indices).bodies ()).prefetchWork S.serverCount := fun as t hr => by
    have := hr.countP_le (I := fun _ => True)
      (μ := fun s => (s.bodies ()).prefetchWork S.serverCount) (p := fun _ => true) trivial
      (fun _ _ _ _ _ _ => trivial) fun u a v _ hok hs => by
        cases World.step_effect hs with
        | fg i inp c b he => cases hok.1
        | spawn i b he | task i k inp c b he => exact he.prefetchWork_lt
    omega
  refine exists_halted hbound fun t ht => ?_
  refine ((prefetching_reaches hl hsize ht).exists_step hvalid concurrency).imp_right ?_
  rintro ⟨a, u, hok, hu⟩
  exact ⟨a, u, rfl, hok, hu⟩

/-- No payload that the prefetcher gets is refused by the cache file. -/
theorem not_rejectsWrite (hl : Contiguous S.segments)
    (hsize : c₀.totalSize = assembledEnd S.segments) (h : U.Reaches c₀ indices concurrency s)
    {a : Act Unit} (ha : U.Allows s a) : ¬ s.RejectsWrite S a := by
  rintro ⟨idx, seg, data, e, hasked, hcheck⟩
  have hseg : ∃ i : Nat, S.segments[i]? = some seg := by
    cases a with
    | fg i inp => cases ha.1
    | spawn i => cases hasked
    | task i k inp =>
      simp only [World.asked] at hasked
      split at hasked
      · next j _ _ _ _ =>
        obtain ⟨seg', hseg', heq⟩ := Option.map_eq_some_iff.mp hasked
        obtain ⟨-, rfl, -⟩ : _ ∧ seg' = seg ∧ _ := by simpa using heq
        exact ⟨j, hseg'⟩
      · cases hasked
  obtain ⟨i, hi⟩ := hseg
  have hlt := CachedFile.checkWrite_error hcheck
  have hle := hl.take_le hi data
  have htotal := (prefetching_reaches hl hsize h).adds.totalSize
  omega

/-- Where the segments lie end to end, prefetching is confined to the slots of those requested and
its order does not matter. -/
theorem confined_of_contiguous (hl : Contiguous S.segments)
    (hfit : assembledEnd S.segments < 2 ^ 64) (U : Outcomes S)
    (hsize : c₀.totalSize = S.layout.assembledSize64) (indices : List Nat) (concurrency : Nat) :
    U.Confined c₀ indices concurrency := by
  have hstop : ∀ seg ∈ S.segments, seg.stop < 2 ^ 64 := fun seg hseg => by
    obtain ⟨k, hk⟩ := List.mem_iff_getElem?.mp hseg
    exact (hl.stop_le_end hk).trans_lt hfit
  rw [FileLayout.assembledSize64_eq hl hfit] at hsize
  have hexact : ∀ {n s}, U.Reaches64 c₀ indices n s ↔ U.Reaches c₀ indices n s :=
    Reaches.congr fun t a ha => by
      cases a with
      | fg i inp => cases ha.1
      | spawn i => rfl
      | task i k inp => rw [World.step64, World.step, Body.taskStep64_eq hstop]
  have hleft : ∀ n s, U.Reaches64 c₀ indices n s → s.PrefetchEnded →
      U.Prefetched c₀ indices s.cache := fun n s hs hend =>
    (prefetching_reaches hl hsize (hexact.mp hs)).prefetched hl hend
  refine ⟨fun s a hs ha => not_rejectsWrite hl hsize (hexact.mp hs) ha, hleft concurrency,
    fun m s t hs hs' ht ht' => (hleft concurrency s hs hs').unique (hleft m t ht ht'),
    fun hvalid => ?_⟩
  obtain ⟨s, hs, hend⟩ := exists_prefetchEnded U hl hsize concurrency hvalid
  exact ⟨s, hexact.mpr hs, hend⟩

end

/-! ## A slot that wraps -/

/-- All servers agree on every segment. -/
def Outcomes.agreed {S : Setup} (payload : SegmentRef → Option (List UInt8))
    (ne_nil : ∀ seg data, payload seg = some data → data ≠ []) (h0 : 0 < S.serverCount) :
    Outcomes S where
  payload := payload
  ne_nil := ne_nil
  serves _ seg a := a = match payload seg with
    | some data => .decoded data
    | none => .fetchError "430 no such article"
  answers _ _ := ⟨_, rfl⟩
  decodes _ seg data h := by
    right
    cases hp : payload seg with
    | none =>
      rw [hp] at h
      cases h
    | some data' =>
      rw [hp] at h
      cases h
      rfl
  held seg _ data hp := ⟨0, h0, fun a ha => by rw [ha, hp]⟩

section
variable {S : Setup} {U : Outcomes S} {c₀ : CachedFile} {k concurrency : Nat} {seg : SegmentRef}
  {s : World Unit}

/-- A segment whose end wraps below its start counts as cached, and is never fetched. -/
theorem cache_eq_of_wrapped (hk : S.segments[k]? = some seg)
    (hwrap : add64 seg.offsetInStream seg.bytes < seg.offsetInStream)
    (h : U.Reaches64 c₀ [k] concurrency s) : s.cache = c₀ := by
  let idle (b : Body) : Prop := (∀ i ∈ b.queue, i = k) ∧ ∀ it ∈ b.tasks, it = (k, Task.checking)
  have hcached : ∀ c : CachedFile,
      c.hasRange seg.offsetInStream (add64 seg.offsetInStream seg.bytes) = true := fun c =>
    CachedFile.hasRange_iff.mpr fun x h1 h2 => by omega
  refine (Reaches.inv (I := fun s => s.cache = c₀ ∧ idle (s.bodies ())) h ?_
    fun t a u ht hok hs => ?_).1
  · exact ⟨rfl, fun i hi => List.mem_singleton.mp hi, fun it hit => by cases hit⟩
  · obtain ⟨hc, hqueue, htasks⟩ := ht
    cases a with
    | fg i inp => cases hok.1
    | spawn i =>
      obtain ⟨b, hb, rfl⟩ := Option.map_eq_some_iff.mp hs
      obtain ⟨i, rest, hq, rfl⟩ := Body.spawn_eq hb
      refine ⟨hc, fun j hj => hqueue j (hq ▸ List.mem_cons_of_mem i hj), fun it hit => ?_⟩
      rcases List.mem_append.mp hit with hit | hit
      · exact htasks it hit
      · rw [List.mem_singleton.mp hit, hqueue i (hq ▸ List.mem_cons_self)]
    | task i j inp =>
      obtain ⟨⟨c, b⟩, hb, rfl⟩ := Option.map_eq_some_iff.mp hs
      obtain ⟨it, hj, hb⟩ := Option.bind_eq_some_iff.mp hb
      obtain rfl := htasks it (List.mem_of_getElem? hj)
      obtain ⟨seg', hseg', hb⟩ := Option.bind_eq_some_iff.mp hb
      obtain rfl : seg = seg' := Option.some.inj (hk.symm.trans hseg')
      simp only [hcached, if_true, Option.some.injEq, Prod.mk.injEq] at hb
      obtain ⟨rfl, rfl⟩ := hb
      exact ⟨hc, hqueue, fun it hit => htasks it (List.mem_of_mem_eraseIdx hit)⟩

/-- So prefetching it does not leave what it should. -/
theorem not_confined_of_wrapped (h0 : 0 < S.serverCount) (hk : S.segments[k]? = some seg)
    (hpos : 0 < seg.bytes) (hwrap : add64 seg.offsetInStream seg.bytes < seg.offsetInStream)
    (size : Nat) : ¬ (Outcomes.agreed (S := S) (fun _ => some [1]) (fun _ _ h => by cases h; simp)
      h0).Confined (.openOrCreate (fun _ => 0) size) [k] 1 := by
  intro hconf
  have hlt := (List.getElem?_eq_some_iff.mp hk).1
  obtain ⟨s, hs, hend⟩ := hconf.ends fun i hi => List.mem_singleton.mp hi ▸ hlt
  have hempty := fun x : Nat => PopulatedRanges.not_mem_bytes_new x
  have hmissing : (CachedFile.openOrCreate (fun _ => 0) size).hasRange seg.offsetInStream seg.stop =
      false := by
    refine Bool.eq_false_iff.mpr fun hc => hempty seg.offsetInStream ?_
    exact CachedFile.hasRange_iff.mp hc _ le_rfl (by rw [SegmentRef.stop]; omega)
  have htakes : seg.Takes [1] seg.offsetInStream := by
    refine ⟨le_rfl, ?_⟩
    rw [List.length_take, List.length_singleton]
    omega
  have hhas := ((hconf.leaves s hs hend).populated seg.offsetInStream).mpr
    (.inr ⟨k, seg, [1], ⟨List.mem_singleton_self k, hk, hmissing, rfl⟩, htakes⟩)
  rw [cache_eq_of_wrapped hk hwrap hs] at hhas
  exact hempty _ hhas

end

/-- **Prefetching is confined to the slots of the segments requested, and its order does not
matter**, on a layout of the builders exactly where the sizes of its segments add up in a word. -/
theorem prefetch_confined_iff {l : FileLayout} (hb : l.Built) :
    (∀ (search : SegmentSearch) (n : Nat) (U : Outcomes ⟨l, search, n⟩) (c₀ : CachedFile),
      c₀.totalSize = l.assembledSize64 →
        ∀ indices concurrency, U.Confined c₀ indices concurrency) ↔
      assembledEnd l.segments < 2 ^ 64 := by
  have hlaid := hb.segments.laidFrom64
  constructor
  · intro hall
    by_contra hge
    obtain ⟨k, seg, hk, hpos, hwrap⟩ := hlaid.exists_wrapped (by decide) (by omega)
    exact not_confined_of_wrapped (S := ⟨l, .leftmost _, 1⟩) Nat.one_pos hk hpos hwrap _
      (hall _ _ _ _ rfl _ _)
  · intro hfit search n U c₀ hsize indices concurrency
    have hc : Contiguous l.segments := contiguous_iff.mpr (hlaid.laidFrom (by omega))
    exact confined_of_contiguous (S := ⟨l, search, n⟩) hc hfit U hsize indices concurrency

/-- Three volumes of one article each, of which the second declares `2 ^ 64 - 2` bytes. -/
def wrappedVolumes : List RarVolumeGeom :=
  [⟨["a"], 2, some 2, 0, 2⟩, ⟨["b"], 2, some (2 ^ 64 - 2), 0, 2⟩, ⟨["c"], 2, some 2, 0, 2⟩]

/-- The first slot is the third one, too. -/
def wrappedSlots : Setup where
  layout := ⟨(buildRarLayout64 wrappedVolumes).1, (buildRarLayout64 wrappedVolumes).2.1⟩
  search := .leftmost _
  serverCount := 1

theorem wrappedSlots_built : wrappedSlots.layout.Built := by
  refine .rar _ fun v hv => ?_
  have hall : ∀ v ∈ wrappedVolumes, v.decodedStride < 2 ^ 64 ∧
      (∀ fs ∈ v.decodedFileSize, fs < 2 ^ 64) ∧ v.dataStart < 2 ^ 64 ∧ v.dataSize < 2 ^ 64 := by
    decide
  obtain ⟨h1, h2, h3, h4⟩ := hall v hv
  exact ⟨h1, h2, h3, h4⟩

/-- The articles of the first and of the third volume are there. -/
def wrappedOutcomes : Outcomes wrappedSlots :=
  .agreed (fun seg => if seg.messageId = "a" then some [1, 1]
      else if seg.messageId = "c" then some [3, 3] else none)
    (fun seg data h => by
      split at h
      · cases h
        exact List.cons_ne_nil _ _
      · split at h
        · cases h
          exact List.cons_ne_nil _ _
        · cases h)
    Nat.one_pos

/-- A decidable form of `Outcomes.Allows`. -/
def wrappedAllowsB (s : World Unit) (a : Act Unit) : Bool :=
  !a.isFg && match s.asked wrappedSlots a with
    | some (_, seg, ans) => ans = if seg.messageId = "a" then .decoded [1, 1]
      else if seg.messageId = "c" then .decoded [3, 3] else .fetchError "430 no such article"
    | none => true

theorem allows_of_b {s : World Unit} {a : Act Unit} (h : wrappedAllowsB s a = true) :
    wrappedOutcomes.Allows s a := by
  obtain ⟨hfg, hans⟩ := Bool.and_eq_true_iff.mp h
  refine ⟨by simpa using hfg, fun idx seg ans ha => ?_⟩
  rw [ha] at hans
  have hans := of_decide_eq_true hans
  show ans = match wrappedOutcomes.payload seg with
    | some data => .decoded data
    | none => .fetchError "430 no such article"
  rw [hans]
  show _ = match (if seg.messageId = "a" then some [1, 1]
    else if seg.messageId = "c" then some [3, 3] else none : Option (List UInt8)) with
    | some data => Answer.decoded data
    | none => .fetchError "430 no such article"
  split_ifs <;> rfl

/-- One segment after the other: the first one is fetched, the other one is found cached. -/
def fetchOneOf (data : List UInt8) : List (Act Unit) :=
  [.task () 0 {}, .task () 0 { answer := .decoded data }, .task () 0 {}, .task () 0 {}]

/-- **On slots that overlap the order of completion decides what is in the file.** -/
theorem wrapped_slots_overlap :
    ∃ s t, wrappedSlots.layout.Built ∧
      wrappedOutcomes.Reaches64 (.openOrCreate (fun _ => 0) 2) [0, 2] 2 s ∧ s.PrefetchEnded ∧
      wrappedOutcomes.Reaches64 (.openOrCreate (fun _ => 0) 2) [0, 2] 2 t ∧ t.PrefetchEnded ∧
      s.cache.file 0 = 1 ∧ t.cache.file 0 = 3 ∧
      ¬ ∀ (search : SegmentSearch) (n : Nat) (U : Outcomes ⟨wrappedSlots.layout, search, n⟩)
        (c₀ : CachedFile), c₀.totalSize = wrappedSlots.layout.assembledSize64 →
          ∀ indices concurrency, U.Confined c₀ indices concurrency := by
  have hended : ∀ {s : World Unit} {n : UInt8}, ((s.bodies ()).queue.isEmpty &&
      (s.bodies ()).tasks.isEmpty && (s.cache.file 0 == n)) = true →
      s.PrefetchEnded ∧ s.cache.file 0 = n := by
    intro s n h
    obtain ⟨h12, h3⟩ := Bool.and_eq_true_iff.mp h
    obtain ⟨h1, h2⟩ := Bool.and_eq_true_iff.mp h12
    exact ⟨⟨List.isEmpty_iff.mp h1, List.isEmpty_iff.mp h2⟩, eq_of_beq h3⟩
  obtain ⟨s, hs, hp⟩ := exists_of_exec
    (World.step64 wrappedSlots fun _ => prefetchRequest 2) wrappedAllowsB
    (fun _ _ => allows_of_b) (prefetchSegments (.openOrCreate (fun _ => 0) 2) [0, 2])
    ([.spawn (), .spawn ()] ++ fetchOneOf [1, 1] ++ [.task () 0 {}])
    (fun s => (s.bodies ()).queue.isEmpty && (s.bodies ()).tasks.isEmpty &&
      (s.cache.file 0 == 1)) rfl
  obtain ⟨t, ht, hq⟩ := exists_of_exec
    (World.step64 wrappedSlots fun _ => prefetchRequest 2) wrappedAllowsB
    (fun _ _ => allows_of_b) (prefetchSegments (.openOrCreate (fun _ => 0) 2) [0, 2])
    ([.spawn (), .spawn (), .task () 1 {}, .task () 1 { answer := .decoded [3, 3] },
      .task () 1 {}, .task () 1 {}, .task () 0 {}])
    (fun s => (s.bodies ()).queue.isEmpty && (s.bodies ()).tasks.isEmpty &&
      (s.cache.file 0 == 3)) rfl
  obtain ⟨hs', hf⟩ := hended hp
  obtain ⟨ht', hg⟩ := hended hq
  refine ⟨s, t, wrappedSlots_built, hs, hs', ht, ht', hf, hg, fun hall => ?_⟩
  have hsame := (hall _ _ wrappedOutcomes (.openOrCreate (fun _ => 0) 2) (by decide) [0, 2]
    2).agrees 2 s t hs hs' ht ht'
  rw [hsame, hg] at hf
  cases hf

/-! ## A long payload, a failure and a short payload -/

/-- Three articles of two bytes. -/
def threeSlots : Setup where
  layout := flatLayout [⟨0, "a", 2, 0⟩, ⟨0, "b", 2, 2⟩, ⟨0, "c", 2, 4⟩] 6
  search := .leftmost _
  serverCount := 1

theorem threeSlots_built : threeSlots.layout.Built :=
  .flat [⟨2, 1, "a"⟩, ⟨2, 2, "b"⟩, ⟨2, 3, "c"⟩] 0 2 (some 6) (by decide) (by decide)
    (by rintro _ ⟨⟩; decide)

/-- The first is a byte too long, the second fails, the third is a byte short. -/
def threeOutcomes : Outcomes threeSlots :=
  .agreed (fun seg =>
    if seg.messageId = "a" then some [1, 2, 3] else if seg.messageId = "c" then some [9] else none)
    (fun seg data h => by
      split at h
      · cases h
        exact List.cons_ne_nil _ _
      · split at h
        · cases h
          exact List.cons_ne_nil _ _
        · cases h)
    Nat.one_pos

/-- Two at a time: the first payload is cut to its slot, the others leave what they do not
cover. -/
theorem prefetch_confined_threeSlots :
    ∃ s, threeOutcomes.Reaches64 (.openOrCreate (fun _ => 0) 6) [2, 0, 1, 0] 2 s ∧
      s.PrefetchEnded ∧ (s.cache.file 0 = 1 ∧ s.cache.file 1 = 2 ∧ s.cache.file 4 = 9) ∧
      ∀ x, s.cache.Has x ↔ x = 0 ∨ x = 1 ∨ x = 4 := by
  obtain ⟨-, hleft, -, hend⟩ := (prefetch_confined_iff threeSlots_built).mpr (by decide) _ _
    threeOutcomes (.openOrCreate (fun _ => 0) 6) (by decide) [2, 0, 1, 0] 2
  obtain ⟨s, hs, hend⟩ := hend (by decide)
  obtain ⟨hpop, hwritten, -⟩ := hleft s hs hend
  have ha : threeOutcomes.Fetches (.openOrCreate (fun _ => 0) 6) [2, 0, 1, 0] 0
      ⟨0, "a", 2, 0⟩ [1, 2, 3] := ⟨by decide, rfl, rfl, rfl⟩
  have hc : threeOutcomes.Fetches (.openOrCreate (fun _ => 0) 6) [2, 0, 1, 0] 2
      ⟨0, "c", 2, 4⟩ [9] := ⟨by decide, rfl, rfl, rfl⟩
  refine ⟨s, hs, hend, ⟨?_, ?_, ?_⟩, fun x => (hpop x).trans ⟨?_, ?_⟩⟩
  · exact hwritten 0 _ _ ha 0 (by decide)
  · exact hwritten 0 _ _ ha 1 (by decide)
  · exact hwritten 2 _ _ hc 4 (by decide)
  · rintro (hx | ⟨i, seg, data, hf, h1, h2⟩)
    · exact absurd hx (PopulatedRanges.not_mem_bytes_new x)
    · have hi : i = 2 ∨ i = 0 ∨ i = 1 ∨ i = 0 := by simpa using hf.requested
      replace hi : i = 2 ∨ i = 0 ∨ i = 1 := by omega
      rcases hi with rfl | rfl | rfl
      · cases hf.segment
        cases hf.payload
        have h1 : 4 ≤ x := h1
        have h2 : x < 5 := h2
        omega
      · cases hf.segment
        cases hf.payload
        have h2 : x < 2 := h2
        omega
      · cases hf.segment
        cases hf.payload
  · rintro (rfl | rfl | rfl)
    · exact .inr ⟨0, _, _, ha, by decide⟩
    · exact .inr ⟨0, _, _, ha, by decide⟩
    · exact .inr ⟨2, _, _, hc, by decide⟩

end StremioNzb.Streaming

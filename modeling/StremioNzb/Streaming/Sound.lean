import StremioNzb.Streaming.Walk

/-!
# True bytes in a shared file

The servers hold one payload for each message id; the assembled stream is the payloads of the
segments in order (`Setup.truth`). `World.Sound U` is the invariant of the bodies that share a
file, for the bytes of a set `U`: a populated byte of `U` has its true value or is about to be
cleared by the eviction that punched it, and a byte that a body has checked or written and is
yet to read or mark has its true value. A step keeps it if it is `Undisturbing`: no hole is
punched over such a byte, and no check finds a byte populated that is about to be cleared
(`sound_step`).
-/

namespace StremioNzb.Streaming

open StremioNzb.Lib

/-- The payloads of the articles, each as long as its segment. -/
structure Payloads (S : Setup) where
  payload : String → List UInt8
  length_eq : ∀ seg ∈ S.segments, (payload seg.messageId).length = seg.bytes

/-- The bytes of the assembled stream. -/
def Payloads.truth {S : Setup} (P : Payloads S) (a : Nat) : UInt8 :=
  (S.segments.flatMap fun seg => P.payload seg.messageId).getD a 0

/-- The byte of the video at a position that the layout maps. -/
def Payloads.videoByte {S : Setup} (P : Payloads S) (v : Nat) : Option UInt8 :=
  (S.layout.videoToAssembled v).map P.truth

/-- A payload lies in the assembled stream at its segment. -/
theorem Payloads.truth_eq {S : Setup} (P : Payloads S) (hl : S.WellLaid) {seg : SegmentRef}
    (hseg : seg ∈ S.segments) {x : Nat} (h1 : seg.offsetInStream ≤ x) (h2 : x < seg.stop) :
    (P.payload seg.messageId).getD (x - seg.offsetInStream) 0 = P.truth x := by
  obtain ⟨i, hi⟩ := List.mem_iff_getElem?.mp hseg
  have hx : x = blockStart SegmentRef.bytes S.segments i + (x - seg.offsetInStream) := by
    rw [← hl.segments i seg hi]
    omega
  have ho : x - seg.offsetInStream < seg.bytes := by
    rw [SegmentRef.stop] at h2
    omega
  unfold truth
  rw [List.getD_eq_getElem?_getD, List.getD_eq_getElem?_getD]
  conv => rhs; rw [hx]
  rw [getElem?_flatMap_block P.length_eq hi ho]

/-- The server that an act asks, the segment and the answer. -/
def World.asked {ι : Type} (S : Setup) (s : World ι) : Act ι → Option (Nat × SegmentRef × Answer)
  | .fg i inp =>
    match (s.bodies i).fg with
    | .ensuring _ seg (.fetching (idx :: _) _) => some (idx, seg, inp.answer)
    | _ => none
  | .spawn _ => none
  | .task i k inp =>
    match (s.bodies i).tasks[k]? with
    | some (j, .ensuring (.fetching (idx :: _) _)) =>
      S.segments[j]?.map fun seg => (idx, seg, inp.answer)
    | _ => none

/-- No server answers with anything but the payload. -/
def Payloads.Serves {S : Setup} (P : Payloads S) {ι : Type} (s : World ι) (a : Act ι) : Prop :=
  ∀ idx seg data, s.asked S a = some (idx, seg, .decoded data) →
    data = [] ∨ data = P.payload seg.messageId

/-! ## The invariant -/

/-- The range that an eviction has punched and is about to clear. -/
def Fg.clears : Fg → Option (Nat × Nat)
  | .evicting _ _ (.clearing start stop) => some (start, stop)
  | _ => none

/-- Some eviction is about to clear the byte. -/
def World.Clearing {ι : Type} (s : World ι) (x : Nat) : Prop :=
  ∃ i start stop, (s.bodies i).fg.clears = some (start, stop) ∧ start ≤ x ∧ x < stop

def Ensure.Marks (x : Nat) : Ensure → Prop
  | .marking start stop => start ≤ x ∧ x < stop
  | _ => False

/-- The body has checked or written the byte, and is yet to read or mark it. -/
def Body.Holds (b : Body) (x : Nat) : Prop :=
  (∃ d readEnd readPos, b.fg = .reading d readEnd readPos ∧ readPos ≤ x ∧ x ≤ readEnd) ∨
    (∃ d seg e, b.fg = .ensuring d seg e ∧ e.Marks x) ∨
    ∃ i e, (i, Task.ensuring e) ∈ b.tasks ∧ e.Marks x

section
variable {S : Setup} (P : Payloads S) (U : Set Nat)

/-- The file has the true value. -/
abbrev Payloads.TrueAt (c : CachedFile) (x : Nat) : Prop := c.file x = P.truth x

def Ensure.Sound (c : CachedFile) (seg : SegmentRef) : Ensure → Prop
  | .writing bytes => bytes = P.payload seg.messageId
  | .marking start stop => start = seg.offsetInStream ∧ stop = seg.stop ∧
      ∀ x ∈ U, start ≤ x → x < stop → P.TrueAt c x
  | _ => True

def Fg.Sound (c : CachedFile) : Fg → Prop
  | .ensuring _ seg e => e.Sound P U c seg
  | .reading _ readEnd readPos => ∀ x ∈ U, readPos ≤ x → x ≤ readEnd → P.TrueAt c x
  | _ => True

structure Body.Sound (c : CachedFile) (b : Body) : Prop where
  fg : b.fg.Sound P U c
  tasks : ∀ i e seg, (i, Task.ensuring e) ∈ b.tasks → S.segments[i]? = some seg →
    e.Sound P U c seg

structure World.Sound {ι : Type} (s : World ι) : Prop where
  populated : ∀ x ∈ U, s.cache.Has x → P.TrueAt s.cache x ∨ s.Clearing x
  bodies : ∀ i, (s.bodies i).Sound P U s.cache

/-- No hole is punched over a byte of `U` that a body holds, and no check of the foreground loop
finds a byte populated that is about to be cleared. -/
structure World.Undisturbing {ι : Type} (S : Setup) (U : Set Nat) (s : World ι) (a : Act ι) :
    Prop where
  punch : ∀ i inp d p start stop, a = .fg i inp →
    (s.bodies i).fg = .evicting d p (.punching start stop) →
    inp.punched = true → ∀ j, ∀ x ∈ U, start ≤ x → x < stop → ¬ (s.bodies j).Holds x
  check : ∀ i inp d k seg, a = .fg i inp → (s.bodies i).fg = .drain d →
    findSegmentForByte S.search S.segments d.aPos = some k → S.segments[k]? = some seg →
    s.cache.hasRange seg.offsetInStream seg.stop = true →
    ∀ x ∈ U, d.aPos ≤ x → x ≤ d.readEnd seg → ¬ s.Clearing x

end

variable {S : Setup} {P : Payloads S} {U : Set Nat} {req : Request} {c c' : CachedFile}
  {inp inp' : Input} {k : Nat} {b b' : Body}

theorem Ensure.Sound.frame {seg : SegmentRef} {e : Ensure} (h : e.Sound P U c seg)
    (hc : ∀ x ∈ U, e.Marks x → P.TrueAt c x → P.TrueAt c' x) : e.Sound P U c' seg := by
  cases e with
  | marking start stop =>
    exact ⟨h.1, h.2.1, fun x hx h1 h2 => hc x hx ⟨h1, h2⟩ (h.2.2 x hx h1 h2)⟩
  | fetching | writing | returned => exact h

/-- What a body holds stays true. -/
theorem Body.Sound.frame (h : b.Sound P U c)
    (hc : ∀ x ∈ U, b.Holds x → P.TrueAt c x → P.TrueAt c' x) : b.Sound P U c' := by
  obtain ⟨hf, ht⟩ := h
  refine ⟨?_, fun i e seg hi hseg => (ht i e seg hi hseg).frame fun x hx hm =>
    hc x hx (.inr (.inr ⟨i, e, hi, hm⟩))⟩
  cases hfg : b.fg with
  | ensuring d seg e =>
    rw [hfg] at hf
    exact hf.frame fun x hx hm => hc x hx (.inr (.inl ⟨d, seg, e, hfg, hm⟩))
  | reading d readEnd readPos =>
    rw [hfg] at hf
    exact fun x hx h1 h2 => hc x hx (.inl ⟨d, readEnd, readPos, hfg, h1, h2⟩) (hf x hx h1 h2)
  | begin | outer | drain | evicting | ended => trivial

/-! ## Fetches -/

/-- A fetch writes only true bytes. -/
theorem Ensure.Effect.trueAt (hl : S.WellLaid) {seg : SegmentRef} {answer : Answer} {e e' : Ensure}
    (he : Effect seg c answer e c' e') (h : e.Sound P U c seg) (hseg : seg ∈ S.segments) {x : Nat}
    (hx : P.TrueAt c x) : P.TrueAt c' x := by
  cases he with
  | wrote bytes =>
    obtain rfl : bytes = P.payload seg.messageId := h
    have hlen := P.length_eq seg hseg
    by_cases hr : seg.offsetInStream ≤ x ∧ x < seg.offsetInStream + (P.payload seg.messageId).length
    · show CachedFile.file _ x = _
      rw [CachedFile.writeFile_in hr.1 hr.2]
      exact P.truth_eq hl hseg hr.1 (by unfold SegmentRef.stop; omega)
    · exact (CachedFile.writeFile_out hr).trans hx
  | _ => exact hx

/-- **A fetch stays sound.** -/
theorem Ensure.Effect.sound (hl : S.WellLaid) {seg : SegmentRef} {answer : Answer} {e e' : Ensure}
    (he : Effect seg c answer e c' e') (h : e.Sound P U c seg) (hseg : seg ∈ S.segments)
    (hok : ∀ idx rest lastErr data, e = .fetching (idx :: rest) lastErr →
      answer = .decoded data → data = [] ∨ data = P.payload seg.messageId) :
    e'.Sound P U c' seg := by
  cases he with
  | fetched idx rest lastErr data ha hne hpos hle =>
    rcases hok idx rest lastErr data rfl ha with rfl | rfl
    · exact absurd rfl hne
    · exact List.take_of_length_le (P.length_eq seg hseg).le
  | wrote bytes =>
    obtain rfl : bytes = P.payload seg.messageId := h
    have hlen := P.length_eq seg hseg
    refine ⟨rfl, by rw [hlen], fun x _ h1 h2 => ?_⟩
    show CachedFile.file _ x = _
    rw [CachedFile.writeFile_in h1 h2]
    exact P.truth_eq hl hseg h1 (by unfold SegmentRef.stop; omega)
  | exhausted | failedOver | refused | nothing | marked => trivial

/-! ## The cache after a step -/

/-- What a step of a body does to the cache, as far as true bytes go. -/
inductive Change (P : Payloads S) (U : Set Nat) (inp : Input) (c : CachedFile) (b : Body) :
    CachedFile → Body → Prop where
  | quiet (c' : CachedFile) (b' : Body) : c'.populated = c.populated →
      (∀ x, P.TrueAt c x → P.TrueAt c' x) → (b.fg.clears = none ∨ b'.fg.clears = b.fg.clears) →
      Change P U inp c b c' b'
  | marked (b' : Body) (start stop : Nat) :
      (∀ x ∈ U, start ≤ x → x < stop → P.TrueAt c x) →
      (b.fg.clears = none ∨ b'.fg.clears = b.fg.clears) →
      Change P U inp c b (c.markPopulated start stop) b'
  | punched (b' : Body) (start stop : Nat) (d : Drain) (p : EvictPolicy) : inp.punched = true →
      b.fg = .evicting d p (.punching start stop) → b'.fg.clears = some (start, stop) →
      Change P U inp c b (c.punchHole start stop) b'
  | cleared (b' : Body) (start stop : Nat) : b.fg.clears = some (start, stop) →
      Change P U inp c b (c.clearPopulated start stop) b'

theorem Change.of_ensure (hl : S.WellLaid) {seg : SegmentRef} {answer : Answer} {e e' : Ensure}
    (he : Ensure.Effect seg c answer e c' e') (h : e.Sound P U c seg) (hseg : seg ∈ S.segments)
    (hb : b.fg.clears = none ∨ b'.fg.clears = b.fg.clears) : Change P U inp c b c' b' := by
  have htrue := fun x => he.trueAt hl h hseg (x := x)
  cases he with
  | marked start stop => exact .marked b' start stop h.2.2 hb
  | exhausted | failedOver | refused | nothing | fetched | wrote => exact .quiet _ _ rfl htrue hb

theorem Change.of_fg (hl : S.WellLaid) (h : b.Sound P U c) (hw : b.Walk S req)
    (he : Fg.Effect S req c inp b c' b') : Change P U inp c b c' b' := by
  cases he with
  | ensured d seg e e' _ hf he =>
    have hs := h.fg
    have hw := hw
    rw [hf] at hs
    unfold Body.Walk at hw
    rw [hf] at hw
    exact .of_ensure hl he hs hw.2.mem (.inl (by rw [hf]; rfl))
  | evicted d p e e' _ hf he =>
    cases he with
    | punched start stop hp => exact .punched _ start stop d p hp hf rfl
    | cleared start stop => exact .cleared _ start stop (by rw [hf]; rfl)
    | idle | refused | window | failed | stored =>
      exact .quiet _ _ rfl (fun _ hx => hx) (.inl (by rw [hf]; rfl))
  | empty hf | serverless m hf | began hf | finished cursor hf | unmapped cursor m hf
  | chunk cursor a hf | drained d hf | segmentless d m hf | cached d i seg hf | missing d i seg hf
  | unread d readEnd readPos m hf | read d readEnd readPos hf | served d readEnd readPos hf
  | called d readEnd readPos p hf | resumed d p hf =>
    exact .quiet _ _ rfl (fun _ hx => hx) (.inl (by rw [hf]; rfl))

theorem Change.of_prefetch (hl : S.WellLaid) (h : b.Sound P U c)
    (he : b.PrefetchEffect S c inp k c' b') : Change P U inp' c b c' b' := by
  have hfg : b'.fg.clears = b.fg.clears := by rw [he.fg]
  cases he with
  | ensured i seg e e' _ hk hseg he =>
    exact .of_ensure hl he (h.tasks i e seg (List.mem_of_getElem? hk) hseg)
      (List.mem_of_getElem? hseg) (.inr hfg)
  | spawned | cached | missing => exact .quiet _ _ rfl (fun _ hx => hx) (.inr hfg)

/-! ## A step keeps the invariant -/

theorem Fg.Sound.await {d : Drain} {seg : SegmentRef} {answer : Answer} {e e' : Ensure}
    (he : Ensure.Effect seg c answer e c' e') (h : e.Sound P U c seg) (h' : e'.Sound P U c' seg)
    (hin : d.In S seg) : (Fg.await d seg e').Sound P U c' := by
  cases he with
  | exhausted | refused => trivial
  | nothing idx rest lastErr data ha hne h0 =>
    have := hin.start_le
    have := hin.lt_stop
    simp only [SegmentRef.stop] at this
    omega
  | marked start stop =>
    obtain ⟨rfl, rfl, h⟩ := h
    intro x hx h1 h2
    have := hin.start_le
    have := hin.lt_stop
    exact h x hx (by omega) (by simp only [Drain.readEnd] at h2; omega)
  | failedOver | fetched | wrote => exact h'

/-- A fetch that begins has written nothing. -/
theorem Ensure.sound_begin {seg seg' : SegmentRef} {n : Nat} :
    (Ensure.begin n seg').Sound P U c seg := by
  unfold Ensure.begin
  split <;> trivial

theorem Fg.sound_begin {d : Drain} {seg : SegmentRef} {n : Nat} :
    (Fg.await d seg (.begin n seg)).Sound P U c := by
  unfold Ensure.begin
  split <;> trivial

/-- The tasks keep what they hold while the file changes under them. -/
theorem Body.Sound.of_fg (h : b.Sound P U c) (htasks : b'.tasks = b.tasks)
    (hc : ∀ x ∈ U, b.Holds x → P.TrueAt c x → P.TrueAt c' x) (hf : b'.fg.Sound P U c') :
    b'.Sound P U c' :=
  ⟨hf, fun i e seg hi hseg => (h.frame hc).tasks i e seg (htasks ▸ hi) hseg⟩

theorem Body.Sound.fg_step (hl : S.WellLaid) (h : b.Sound P U c) (hw : b.Walk S req)
    (he : Fg.Effect S req c inp b c' b')
    (hserve : ∀ d seg idx rest lastErr data,
      b.fg = .ensuring d seg (.fetching (idx :: rest) lastErr) →
      inp.answer = .decoded data → data = [] ∨ data = P.payload seg.messageId)
    (hcheck : ∀ d k seg, b.fg = .drain d → findSegmentForByte S.search S.segments d.aPos = some k →
      S.segments[k]? = some seg → c.hasRange seg.offsetInStream seg.stop = true →
      ∀ x ∈ U, d.aPos ≤ x → x ≤ d.readEnd seg → P.TrueAt c x)
    (hc : ∀ x ∈ U, b.Holds x → P.TrueAt c x → P.TrueAt c' x) : b'.Sound P U c' := by
  unfold Walk at hw
  cases he with
  | cached d k seg hf hle hk hseg hr =>
    exact h.of_fg rfl hc fun x hx h1 h2 => hcheck d k seg hf hk hseg hr x hx h1 h2
  | missing => exact h.of_fg rfl hc Fg.sound_begin
  | ensured d seg e e' _ hf he =>
    rw [hf] at hw
    have hs := h.fg
    rw [hf] at hs
    refine h.of_fg rfl hc (.await he hs (he.sound hl hs hw.2.mem ?_) hw.2)
    intro idx rest lastErr data hi
    exact hserve d seg idx rest lastErr data (hi ▸ hf)
  | read d readEnd readPos hf hle =>
    refine h.of_fg rfl hc fun x hx h1 h2 => ?_
    have hs := h.fg
    rw [hf] at hs
    exact hs x hx (by omega) h2
  | evicted => exact h.of_fg rfl hc trivial
  | empty | serverless | began | finished | unmapped | chunk | drained | segmentless | unread
  | served | called | resumed => exact h.of_fg rfl hc trivial

theorem Body.mem_setTask {k i : Nat} {t : Option Task} {j : Nat} {u : Task}
    (h : (j, u) ∈ (b.setTask k i t).tasks) : (j, u) ∈ b.tasks ∨ j = i ∧ t = some u := by
  cases t with
  | none => exact .inl (List.mem_of_mem_eraseIdx h)
  | some t =>
    rcases List.mem_or_eq_of_mem_set h with h | h
    · exact .inl h
    · cases h
      exact .inr ⟨rfl, rfl⟩

theorem Task.await_eq_some {e e' : Ensure} (h : Task.await e = some (.ensuring e')) : e' = e := by
  cases e with
  | returned r => cases h
  | fetching | writing | marking =>
    cases h
    rfl

theorem Body.Sound.prefetch_step (hl : S.WellLaid) (h : b.Sound P U c)
    (he : b.PrefetchEffect S c inp k c' b')
    (hserve : ∀ i seg idx rest lastErr data,
      b.tasks[k]? = some (i, .ensuring (.fetching (idx :: rest) lastErr)) →
      S.segments[i]? = some seg → inp.answer = .decoded data →
      data = [] ∨ data = P.payload seg.messageId)
    (hc : ∀ x ∈ U, b.Holds x → P.TrueAt c x → P.TrueAt c' x) : b'.Sound P U c' := by
  have hframe := h.frame hc
  refine ⟨he.fg ▸ hframe.fg, fun j f seg hj hseg => ?_⟩
  cases he with
  | spawned i rest hq =>
    rcases List.mem_append.mp hj with hj | hj
    · exact hframe.tasks j f seg hj hseg
    · simp at hj
  | cached i seg' hk hseg' hr =>
    rcases Body.mem_setTask hj with hj | ⟨-, hj⟩
    · exact hframe.tasks j f seg hj hseg
    · cases hj
  | missing i seg' hk hseg' hr =>
    rcases Body.mem_setTask hj with hj | ⟨-, hj⟩
    · exact hframe.tasks j f seg hj hseg
    · rw [Task.await_eq_some hj]
      exact Ensure.sound_begin
  | ensured i seg' e e' _ hk hseg' he =>
    rcases Body.mem_setTask hj with hj | ⟨hji, hf⟩
    · exact hframe.tasks j f seg hj hseg
    · subst hji
      obtain rfl : seg' = seg := Option.some.inj (hseg'.symm.trans hseg)
      rw [Task.await_eq_some hf]
      refine he.sound hl (h.tasks j e seg' (List.mem_of_getElem? hk) hseg')
        (List.mem_of_getElem? hseg') ?_
      rintro idx rest lastErr data rfl
      exact hserve j seg' idx rest lastErr data hk hseg'

section World
variable {ι : Type} [DecidableEq ι] {s s' : World ι} {i : ι} {x : Nat}

/-- A removal that is pending in another body stays so. -/
theorem World.Clearing.of_set (h : s.Clearing x)
    (hb : ∀ start stop, (s.bodies i).fg.clears = some (start, stop) → start ≤ x → x < stop →
      b.fg.clears = some (start, stop)) : (s.set i c b).Clearing x := by
  obtain ⟨j, start, stop, hj, h1, h2⟩ := h
  by_cases hji : j = i
  · subst hji
    exact ⟨j, start, stop, by simpa using hb start stop hj h1 h2, h1, h2⟩
  · exact ⟨j, start, stop, by simpa [hji] using hj, h1, h2⟩

/-- **The populated bytes after a change.** -/
theorem Change.populated (h : ∀ x ∈ U, s.cache.Has x → P.TrueAt s.cache x ∨ s.Clearing x)
    (hc : Change P U inp s.cache (s.bodies i) c b) :
    ∀ x ∈ U, c.Has x → P.TrueAt c x ∨ (s.set i c b).Clearing x := by
  intro x hx hhas
  cases hc with
  | quiet _ _ hp htrue hcl =>
    have hhas : s.cache.Has x := by rwa [CachedFile.Has, ← hp]
    refine (h x hx hhas).imp (htrue x) (.of_set · fun start stop hb _ _ => ?_)
    rcases hcl with hcl | hcl
    · rw [hcl] at hb
      cases hb
    · rw [hcl, hb]
  | marked _ start stop htrue hcl =>
    rcases CachedFile.markPopulated_has.mp hhas with hhas | hr
    · refine (h x hx hhas).imp id (.of_set · fun start stop hb _ _ => ?_)
      rcases hcl with hcl | hcl
      · rw [hcl] at hb
        cases hb
      · rw [hcl, hb]
    · exact .inl (htrue x hx hr.1 hr.2)
  | punched _ start stop d p hp hf hcl =>
    by_cases hr : start ≤ x ∧ x < stop
    · exact .inr ⟨i, start, stop, by simpa using hcl, hr⟩
    · refine (h x hx hhas).imp (fun ht => (CachedFile.punchHole_out hr).trans ht)
        (.of_set · fun start stop hb _ _ => ?_)
      rw [hf] at hb
      cases hb
  | cleared _ start stop hcl =>
    obtain ⟨hhas, hout⟩ := CachedFile.clearPopulated_has.mp hhas
    refine (h x hx hhas).imp id (.of_set · fun start' stop' hb h1 h2 => ?_)
    rw [hcl] at hb
    cases hb
    exact absurd ⟨h1, h2⟩ hout

omit [DecidableEq ι] in
/-- What a body holds is still true after an undisturbing change. -/
theorem Change.holds (hc : Change P U inp s.cache (s.bodies i) c b) {j : ι}
    (hp : ∀ d p start stop, (s.bodies i).fg = .evicting d p (.punching start stop) →
      inp.punched = true → ∀ x ∈ U, start ≤ x → x < stop → ¬ (s.bodies j).Holds x) :
    ∀ x ∈ U, (s.bodies j).Holds x → P.TrueAt s.cache x → P.TrueAt c x := by
  intro x hx hh ht
  cases hc with
  | quiet _ _ _ htrue => exact htrue x ht
  | marked | cleared => exact ht
  | punched _ start stop d p hpun hf =>
    refine (CachedFile.punchHole_out fun hr => ?_).trans ht
    exact hp d p start stop hf hpun x hx hr.1 hr.2 hh

/-- The invariant after a step of body `i`, from what the step does to the cache and what holds
of the body itself. -/
theorem World.Sound.of_change (h : s.Sound P U) (hc : Change P U inp s.cache (s.bodies i) c b)
    (hb : b.Sound P U c)
    (hp : ∀ d p start stop, (s.bodies i).fg = .evicting d p (.punching start stop) →
      inp.punched = true → ∀ j, ∀ x ∈ U, start ≤ x → x < stop → ¬ (s.bodies j).Holds x) :
    (s.set i c b).Sound P U := by
  refine ⟨hc.populated h.populated, fun j => ?_⟩
  by_cases hji : j = i
  · simpa [hji] using hb
  · have := (h.bodies j).frame (hc.holds fun d p start stop hf hpun => hp d p start stop hf hpun j)
    simpa [hji] using this

theorem World.Sound.prefetch (hl : S.WellLaid) (h : s.Sound P U)
    (he : (s.bodies i).PrefetchEffect S s.cache inp k c b)
    (hserve : ∀ j seg idx rest lastErr data,
      (s.bodies i).tasks[k]? = some (j, .ensuring (.fetching (idx :: rest) lastErr)) →
      S.segments[j]? = some seg → inp.answer = .decoded data →
      data = [] ∨ data = P.payload seg.messageId) : (s.set i c b).Sound P U := by
  -- a prefetch punches no hole
  have hc : Change P U { punched := false } s.cache (s.bodies i) c b :=
    Change.of_prefetch hl (h.bodies i) he
  refine h.of_change hc ((h.bodies i).prefetch_step hl he hserve (hc.holds ?_)) ?_ <;>
  · intro _ _ _ _ _ hpun
    cases hpun

/-- **An undisturbing step keeps the bytes true.** -/
theorem sound_step {req : ι → Request} (hl : S.WellLaid) {a : Act ι} (h : s.Sound P U)
    (hw : ∀ i, (s.bodies i).Walk S (req i)) (hserve : P.Serves s a)
    (hok : s.Undisturbing S U a) (hs : s.step S req a = some s') : s'.Sound P U := by
  cases World.step_effect hs with
  | fg i inp c b he =>
    have hc := Change.of_fg hl (h.bodies i) (hw i) he
    have hp := fun d p start stop hf hpun => hok.punch i inp d p start stop rfl hf hpun
    refine h.of_change hc ((h.bodies i).fg_step hl (hw i) he ?_ ?_ ?_) hp
    · intro d seg idx rest lastErr data hf ha
      exact hserve idx seg data (by simp only [World.asked, hf, ha])
    · intro d k seg hf hk hseg hr x hx h1 h2
      obtain ⟨t, ht, h3, h4⟩ := findSegmentForByte_sound hl.segments.sorted hk
      obtain rfl : seg = t := Option.some.inj (hseg.symm.trans ht)
      have hhas := CachedFile.hasRange_iff.mp hr x (by omega)
        (by simp only [Drain.readEnd] at h2; omega)
      exact (h.populated x hx hhas).resolve_right
        (hok.check i inp d k seg rfl hf hk hseg hr x hx h1 h2)
    · exact hc.holds fun d p start stop hf hpun => hp d p start stop hf hpun i
  | spawn i b he =>
    apply h.prefetch hl he
    intro _ _ _ _ _ _ _ _ ha
    cases ha
  | task i k inp c b he =>
    apply h.prefetch hl he
    intro j seg idx rest lastErr data hk hseg ha
    exact hserve idx seg data (by simp only [World.asked, hk, hseg, ha, Option.map_some])

end World

end StremioNzb.Streaming

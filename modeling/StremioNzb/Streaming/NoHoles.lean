import StremioNzb.Streaming.Laid
import StremioNzb.Streaming.Steps

/-!
# Holes

`disk_cache.rs` opens with "we never read holes". One body reads a segment after it has found it
populated or has fetched it, and `ensure_segment_cached` returns `Ok` for a payload shorter than
the segment: the tail of the segment is then read as zeros (`short_payload_read`).
That is all that can go wrong with one body. Where every payload that the foreground loop fetches
reaches the last byte it will read of the segment, or the rest is populated already
(`FetchesEnough`), whatever it reads is populated at that moment (`reads_populated`).
-/

namespace StremioNzb.Streaming

open StremioNzb.Lib

/-- What the foreground loop is about to read is populated. -/
def World.ReadsPopulated (s : World Unit) : Prop :=
  ∀ d readEnd readPos, (s.bodies ()).fg = .reading d readEnd readPos →
    ∀ x, readPos ≤ x → x ≤ readEnd → s.cache.Has x

/-- A payload fetched by the foreground loop reaches the last byte to read of the segment, or
the bytes past it are populated. -/
def FetchesEnough (s : World Unit) (a : Act Unit) : Prop :=
  ∀ inp d seg idx rest lastErr data, a = .fg () inp →
    (s.bodies ()).fg = .ensuring d seg (.fetching (idx :: rest) lastErr) →
    inp.answer = .decoded data → data ≠ [] →
    ∀ x, d.aPos ≤ x → x ≤ d.readEnd seg → x < seg.offsetInStream + data.length ∨ s.cache.Has x

/-- The bytes to read of the segment are populated, or about to be. -/
def Fg.Filled (c : CachedFile) : Fg → Prop
  | .ensuring d seg e =>
    d.aPos < seg.stop ∧
    match e with
    | .writing bytes =>
      ∀ x, d.aPos ≤ x → x ≤ d.readEnd seg → seg.offsetInStream ≤ x ∧
        x < seg.offsetInStream + bytes.length ∨ c.Has x
    | .marking start stop =>
      ∀ x, d.aPos ≤ x → x ≤ d.readEnd seg → start ≤ x ∧ x < stop ∨ c.Has x
    | _ => seg.offsetInStream ≤ d.aPos
  | .reading _ readEnd readPos => ∀ x, readPos ≤ x → x ≤ readEnd → c.Has x
  | _ => True

variable {S : Setup} {req : Request} {c c' : CachedFile}

theorem Fg.Filled.mono {fg : Fg} (h : fg.Filled c) (hc : ∀ x, c.Has x → c'.Has x) :
    fg.Filled c' := by
  cases fg with
  | ensuring d seg e =>
    refine ⟨h.1, ?_⟩
    cases e with
    | writing bytes => exact fun x h1 h2 => (h.2 x h1 h2).imp_right (hc x)
    | marking start stop => exact fun x h1 h2 => (h.2 x h1 h2).imp_right (hc x)
    | fetching order lastErr => exact h.2
    | returned r => exact h.2
  | reading d readEnd readPos => exact fun x h1 h2 => hc x (h x h1 h2)
  | begin | outer | drain | evicting | ended => trivial

/-- A step of `ensure_segment_cached` that the foreground loop waits for. -/
theorem Fg.Filled.await {d : Drain} {seg : SegmentRef} {e e' : Ensure} {answer : Answer}
    (h : (Fg.ensuring d seg e).Filled c) (he : Ensure.Effect seg c answer e c' e')
    (hok : ∀ idx rest lastErr data, e = .fetching (idx :: rest) lastErr →
      answer = .decoded data → data ≠ [] → ∀ x, d.aPos ≤ x → x ≤ d.readEnd seg →
        x < seg.offsetInStream + data.length ∨ c.Has x) :
    (Fg.await d seg e').Filled c' := by
  obtain ⟨hlt, h⟩ := h
  cases he with
  | exhausted | refused => trivial
  | failedOver idx rest lastErr m hm => exact ⟨hlt, h⟩
  | nothing idx rest lastErr data ha hne h0 =>
    -- an empty segment holds no byte to serve
    simp only [SegmentRef.stop, h0] at hlt h
    omega
  | fetched idx rest lastErr data ha hne hpos hle =>
    refine ⟨hlt, fun x h1 h2 => ?_⟩
    refine (hok idx rest lastErr data rfl ha hne x h1 h2).imp_left fun hx => ?_
    simp only [Drain.readEnd, SegmentRef.stop] at h2 hlt h
    rw [List.length_take]
    omega
  | wrote bytes => exact ⟨hlt, h⟩
  | marked start stop =>
    exact fun x h1 h2 => CachedFile.markPopulated_has.mpr (h x h1 h2).symm

theorem filled_fgStep (hs : SortedBy SegmentRef.offsetInStream S.segments) {inp : Input}
    {b b' : Body} (h : b.fg.Filled c) (he : Fg.Effect S req c inp b c' b')
    (hok : ∀ d seg idx rest lastErr data, b.fg = .ensuring d seg (.fetching (idx :: rest) lastErr) →
      inp.answer = .decoded data → data ≠ [] → ∀ x, d.aPos ≤ x → x ≤ d.readEnd seg →
        x < seg.offsetInStream + data.length ∨ c.Has x) : b'.fg.Filled c' := by
  cases he with
  | cached d i seg hf hle hi hseg hr =>
    obtain ⟨t, ht, h1, h2⟩ := findSegmentForByte_sound hs hi
    obtain rfl : seg = t := Option.some.inj (hseg.symm.trans ht)
    intro x hx1 hx2
    apply CachedFile.hasRange_iff.mp hr x (h1.trans hx1)
    simp only [Drain.readEnd] at hx2
    omega
  | missing d i seg hf hle hi hseg hr =>
    obtain ⟨t, ht, h1, h2⟩ := findSegmentForByte_sound hs hi
    obtain rfl : seg = t := Option.some.inj (hseg.symm.trans ht)
    unfold Ensure.begin
    split
    · trivial
    · exact ⟨h2, h1⟩
  | ensured d seg e e' _ hf he =>
    rw [hf] at h
    exact h.await he fun idx rest lastErr data hi => hok d seg idx rest lastErr data (hi ▸ hf)
  | read d readEnd readPos hf hle =>
    rw [hf] at h
    exact fun x h1 h2 => h x (by omega) h2
  | _ => trivial

theorem filled_step (hs : SortedBy SegmentRef.offsetInStream S.segments) {s s' : World Unit}
    {a : Act Unit} (h : (s.bodies ()).fg.Filled s.cache) (hok : FetchesEnough s a)
    (hstep : s.step S (fun _ => req) a = some s') : (s'.bodies ()).fg.Filled s'.cache := by
  cases World.step_effect hstep with
  | fg i inp c b he =>
    exact filled_fgStep hs h he fun d seg idx rest lastErr data =>
      hok inp d seg idx rest lastErr data rfl
  | spawn i b he =>
    show b.fg.Filled _
    rw [he.fg]
    exact h
  | task i k inp c b he =>
    show b.fg.Filled _
    rw [he.fg]
    exact h.mono fun x => he.has

/-- **One body reads no hole** in a run whose foreground fetches are long enough, on segments that
are in order, as a binary search on them asks. -/
theorem reads_populated (hsorted : SortedBy SegmentRef.offsetInStream S.segments) {s : World Unit}
    (h : Reaches (World.step S fun _ => req) FetchesEnough (.init c) s) : s.ReadsPopulated := by
  have hf : (s.bodies ()).fg.Filled s.cache :=
    h.inv (I := fun s => (s.bodies ()).fg.Filled s.cache) trivial
      fun _ _ _ hi hok hs => filled_step hsorted hi hok hs
  intro d readEnd readPos hr
  rw [hr] at hf
  exact hf

/-! ## An article of one byte where two are declared -/

/-- A file posted as one article of two bytes. -/
def twoBytes : Setup where
  layout := flatLayout [⟨0, "a", 2, 0⟩] 2
  search := .leftmost _
  serverCount := 1

theorem twoBytes_built : twoBytes.layout.Built :=
  .flat [⟨2, 1, "a"⟩] 0 2 (some 2) (by decide) (by decide) (by rintro _ ⟨⟩; decide)

/-- A body for the whole file. -/
abbrev twoBytesStep : World Unit → Act Unit → Option (World Unit) :=
  World.step twoBytes fun _ => ⟨0, 1, 0, none⟩

/-- The body up to its first read, the server answering with `data`. -/
def fetchOnce (data : List UInt8) : List (Act Unit) :=
  [.fg () {}, .fg () {}, .fg () {}, .fg () { answer := .decoded data }, .fg () {}, .fg () {}]

/-- The body is about to read both bytes, and byte `1` is populated or not. -/
def readsBoth (populated : Bool) (s : World Unit) : Bool :=
  match (s.bodies ()).fg with
  | .reading _ 1 0 => s.cache.hasRange 1 2 == populated
  | _ => false

theorem readsBoth_fg {populated : Bool} {s : World Unit} (h : readsBoth populated s = true) :
    (∃ d, (s.bodies ()).fg = .reading d 1 0) ∧ s.cache.hasRange 1 2 = populated := by
  unfold readsBoth at h
  split at h
  · next d hf => exact ⟨⟨d, hf⟩, by simpa using h⟩
  · cases h

/-- **A hole is served**: the second byte of the segment is yielded as zero. -/
theorem short_payload_read :
    ∃ s s', twoBytes.layout.Built ∧
      Reaches twoBytesStep (fun _ _ => True) (.init (.openOrCreate (fun _ => 0) 2)) s ∧
      ¬ s.ReadsPopulated ∧ twoBytesStep s (.fg () {}) = some s' ∧
      (s'.bodies ()).yielded = [[7, 0]] := by
  obtain ⟨s, hs, hp⟩ := exists_of_exec_free twoBytesStep (.init (.openOrCreate (fun _ => 0) 2))
    (fetchOnce [7])
    (fun s => readsBoth false s &&
      (twoBytesStep s (.fg () {})).any fun s' => (s'.bodies ()).yielded = [[7, 0]]) rfl
  obtain ⟨hr, hy⟩ := Bool.and_eq_true_iff.mp hp
  obtain ⟨s', hs', hy⟩ := (Option.any_eq_true _ _).mp hy
  obtain ⟨⟨d, hf⟩, h1⟩ := readsBoth_fg hr
  refine ⟨s, s', twoBytes_built, hs, fun h => ?_, hs', of_decide_eq_true hy⟩
  have := CachedFile.hasRange_byte.mpr (h d 1 0 hf 1 (by decide) (by decide))
  rw [h1] at this
  cases this

/-- A decidable condition that is enough for `FetchesEnough`. -/
def fetchesEnoughB (s : World Unit) : Act Unit → Bool
  | .fg () inp =>
    match (s.bodies ()).fg, inp.answer with
    | .ensuring d seg (.fetching (_ :: _) _), .decoded data =>
      d.readEnd seg < seg.offsetInStream + data.length
    | _, _ => true
  | _ => true

theorem fetchesEnough_of_b {s : World Unit} {a : Act Unit} (h : fetchesEnoughB s a = true) :
    FetchesEnough s a := by
  intro inp d seg idx rest lastErr data ha hf hi _ x _ hx
  subst ha
  simp only [fetchesEnoughB, hf, hi, decide_eq_true_eq] at h
  exact .inl (hx.trans_lt h)

/-- With both bytes in the article both are populated when they are read. -/
theorem reads_both_populated :
    ∃ s d, Reaches twoBytesStep FetchesEnough (.init (.openOrCreate (fun _ => 0) 2)) s ∧
      (s.bodies ()).fg = .reading d 1 0 ∧ s.ReadsPopulated := by
  obtain ⟨s, hs, hp⟩ := exists_of_exec twoBytesStep fetchesEnoughB
    (fun _ _ => fetchesEnough_of_b) (.init (.openOrCreate (fun _ => 0) 2)) (fetchOnce [7, 8])
    (readsBoth true) rfl
  obtain ⟨⟨d, hf⟩, -⟩ := readsBoth_fg hp
  exact ⟨s, d, hs, hf, reads_populated (by decide) hs⟩

end StremioNzb.Streaming

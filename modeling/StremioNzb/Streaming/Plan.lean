import StremioNzb.Streaming.ReadAhead

/-!
# The plan of the prefetcher

`segment_indices_in_range` goes by the ends of each piece of a chunk, the foreground loop from
segment to segment. In a layout whose chunks lie in the assembled stream both come to the
segments that carry a byte of the range (`Setup.Carries`), in whatever order the chunks lie.
-/

namespace StremioNzb.Streaming

open StremioNzb.Lib

/-- The segments and chunks lie end to end, no segment is empty, and the image of each chunk lies
in the assembled stream. -/
structure Setup.Imaged (S : Setup) : Prop where
  laid : S.WellLaid
  pos : ∀ seg ∈ S.segments, 0 < seg.bytes
  image : ∀ ch ∈ S.layout.chunks, 0 < ch.length →
    ch.assembledStart + ch.length ≤ S.assembledEnd

/-- The segment holds the assembled byte. -/
def Setup.Holds (S : Setup) (j a : Nat) : Prop :=
  ∃ seg, S.segments[j]? = some seg ∧ seg.offsetInStream ≤ a ∧ a < seg.stop

/-- The segment carries a video byte of the range. -/
def Setup.Carries (S : Setup) (start stop j : Nat) : Prop :=
  ∃ v a, start ≤ v ∧ v ≤ stop ∧ S.layout.videoToAssembled v = some a ∧ S.Holds j a

/-- The body has served the segment in the run. -/
def Visits {ι : Type} [DecidableEq ι] (S : Setup) (req : ι → Request) (c : CachedFile) (i : ι)
    (as : List (Act ι)) (j : Nat) : Prop :=
  ∃ bs t, bs <:+ as ∧ Run (World.step S req) (fun _ _ => True) (.init c) bs t ∧
    (t.bodies i).serving = some j

variable {S : Setup} {start stop cursor a b i j lo hi : Nat}

/-! ## What the plan holds -/

theorem Setup.Holds.unique (hl : S.WellLaid) (hi : S.Holds i a) (hj : S.Holds j a) : i = j := by
  obtain ⟨x, hx, h1, h2⟩ := hi
  obtain ⟨y, hy, h3, h4⟩ := hj
  rw [SegmentRef.stop] at h2 h4
  rw [hl.segments i x hx] at h1 h2
  rw [hl.segments j y hy] at h3 h4
  exact block_unique hx hy h1 h2 h3 h4

theorem Setup.Imaged.find (h : S.Imaged) (ha : a < S.assembledEnd) :
    ∃ i, findSegmentForByte S.search S.segments a = some i ∧ S.Holds i a := by
  obtain ⟨i, seg, hi, h1, h2⟩ := exists_block ha
  rw [← h.laid.segments i seg hi] at h1 h2
  exact ⟨i, findSegmentForByte_eq_some h.laid.segments hi h1 h2 fun z hz _ => h.pos z hz,
    seg, hi, h1, h2⟩

theorem Setup.Holds.mono (h : S.Imaged) (hi : S.Holds i a) (hj : S.Holds j b) (hab : a ≤ b) :
    i ≤ j := by
  obtain ⟨x, hx, h1, h2⟩ := hi
  obtain ⟨y, hy, h3, h4⟩ := hj
  apply le_of_not_gt
  intro hlt
  have := h.laid.segments.stop_le hy hx hlt
  omega

/-- Between the segments of two bytes are the segments of the bytes between. -/
theorem Setup.Imaged.mem_range' (h : S.Imaged) (hab : a ≤ b) (hlo : S.Holds lo a)
    (hhi : S.Holds hi b) :
    j ∈ List.range' lo (hi + 1 - lo) ↔ ∃ x, a ≤ x ∧ x ≤ b ∧ S.Holds j x := by
  rw [List.mem_range'_1]
  constructor
  · rintro ⟨hle, hlt⟩
    obtain ⟨x, hx, h1, h2⟩ := hlo
    obtain ⟨y, hy, h3, h4⟩ := hhi
    have hlen := (List.getElem?_eq_some_iff.mp hy).1
    obtain ⟨z, hz⟩ : ∃ z, S.segments[j]? = some z :=
      ⟨_, List.getElem?_eq_getElem (by omega)⟩
    have hpos := h.pos z (List.mem_of_getElem? hz)
    have hstop : z.stop = z.offsetInStream + z.bytes := rfl
    have hbefore : a < z.stop := by
      rcases hle.eq_or_lt with rfl | hlt
      · obtain rfl : x = z := Option.some.inj (hx.symm.trans hz)
        exact h2
      · have := h.laid.segments.stop_le hx hz hlt
        omega
    have hafter : z.offsetInStream ≤ b := by
      rcases (show j ≤ hi by omega).eq_or_lt with rfl | hlt
      · obtain rfl : y = z := Option.some.inj (hy.symm.trans hz)
        exact h3
      · have := h.laid.segments.stop_le hz hy hlt
        omega
    exact ⟨max a z.offsetInStream, by omega, by omega, z, hz, by omega, by omega⟩
  · rintro ⟨x, hax, hxb, hx⟩
    have := hlo.mono h hx hax
    have := hx.mono h hhi hxb
    omega

/-- Each video byte has its chunk, and its image lies in the assembled stream. -/
theorem Setup.Imaged.mapped (h : S.Imaged) (hv : cursor < videoEnd S.layout.chunks) :
    ∃ a, S.layout.videoToAssembled cursor = some a ∧ 0 < S.layout.chunkRemaining cursor ∧
      a + S.layout.chunkRemaining cursor ≤ S.assembledEnd := by
  obtain ⟨k, ch, hk, h1, h2, hmap, hrest⟩ := FileLayout.chunk_at h.laid.chunks hv
  have := h.image ch (List.mem_of_getElem? hk) (by omega)
  exact ⟨_, hmap, by omega, by omega⟩

/-- **A piece of chunk adds the segments that carry it.** -/
theorem Setup.Imaged.chunkIndices (h : S.Imaged) (hle : cursor ≤ stop)
    (hstop : stop < videoEnd S.layout.chunks) :
    ∃ indices e, S.chunkIndices stop cursor = some (indices, e + 1) ∧ cursor ≤ e ∧ e ≤ stop ∧
      ∀ j, j ∈ indices ↔ S.Carries cursor e j := by
  obtain ⟨a, ha, hrest, himage⟩ := h.mapped (lt_of_le_of_lt hle hstop)
  let e := min (cursor + S.layout.chunkRemaining cursor - 1) stop
  have he : cursor ≤ e ∧ e ≤ stop ∧ e - cursor < S.layout.chunkRemaining cursor := by omega
  obtain ⟨lo, hlo, hlo'⟩ := h.find (a := a) (by omega)
  obtain ⟨hi, hhi, hhi'⟩ := h.find (a := a + (e - cursor)) (by omega)
  refine ⟨List.range' lo (hi + 1 - lo), e, ?_, he.1, he.2.1, fun j => ?_⟩
  · unfold Setup.chunkIndices
    simp only [ha, Option.map_some]
    have hhi : findSegmentForByte S.search S.segments (a +
        (min (cursor + S.layout.chunkRemaining cursor - 1) stop - cursor)) = some hi := hhi
    rw [if_neg (by omega), hlo, hhi]
  · rw [h.mem_range' (by omega) hlo' hhi']
    constructor
    · rintro ⟨x, hax, hxe, hx⟩
      have hmap := FileLayout.videoToAssembled_add h.laid.chunks ha (o := x - a) (by omega)
      rw [Nat.add_sub_cancel' hax] at hmap
      exact ⟨cursor + (x - a), x, by omega, by omega, hmap, hx⟩
    · rintro ⟨v, x, hv, hve, hmap, hx⟩
      have hmap' := FileLayout.videoToAssembled_add h.laid.chunks ha (o := v - cursor) (by omega)
      rw [Nat.add_sub_cancel' hv, hmap] at hmap'
      cases hmap'
      exact ⟨_, by omega, by omega, hx⟩

/-- A range splits in two. -/
theorem Setup.carries_split {e : Nat} (h1 : start ≤ e) (h2 : e ≤ stop) :
    S.Carries start stop j ↔ S.Carries start e j ∨ S.Carries (e + 1) stop j := by
  constructor
  · rintro ⟨v, a, hv, hvs, h⟩
    rcases Nat.lt_or_ge e v with hlt | hle
    · exact .inr ⟨v, a, hlt, hvs, h⟩
    · exact .inl ⟨v, a, hv, hle, h⟩
  · rintro (⟨v, a, hv, hve, h⟩ | ⟨v, a, hv, hvs, h⟩)
    · exact ⟨v, a, hv, hve.trans h2, h⟩
    · exact ⟨v, a, by omega, hvs, h⟩

theorem Setup.not_carries (h : stop < start) : ¬ S.Carries start stop j := by
  rintro ⟨v, a, hv, hvs, -⟩
  omega

theorem Setup.Imaged.mem_indicesFrom (h : S.Imaged) (hstop : stop < videoEnd S.layout.chunks)
    {fuel : Nat} (hfuel : stop + 1 - cursor ≤ fuel) :
    j ∈ S.indicesFrom stop fuel cursor ↔ S.Carries cursor stop j := by
  have hempty : ∀ {cursor}, stop < cursor → (j ∈ [] ↔ S.Carries cursor stop j) := fun hlt =>
    iff_of_false List.not_mem_nil (not_carries hlt)
  induction fuel generalizing cursor with
  | zero => exact hempty (by omega)
  | succ fuel ih =>
    rw [indicesFrom]
    split
    · next hle =>
      obtain ⟨indices, e, hpiece, hce, hes, hmem⟩ := h.chunkIndices hle hstop
      have hnext : j ∈ S.indicesFrom stop fuel (e + 1) ↔ S.Carries (e + 1) stop j :=
        ih (by omega)
      rw [hpiece]
      show j ∈ indices ++ S.indicesFrom stop fuel (e + 1) ↔ _
      rw [List.mem_append, hmem, hnext, carries_split hce hes]
    · next hgt => exact hempty (by omega)

theorem Setup.Carries.lt_length (h : S.Carries start stop j) : j < S.segments.length := by
  obtain ⟨-, -, -, -, -, seg, hseg, -⟩ := h
  exact (List.getElem?_eq_some_iff.mp hseg).1

/-- **The plan holds the segments that carry the range.** -/
theorem Setup.Imaged.mem_segmentIndicesInRange (h : S.Imaged)
    (hstop : stop < videoEnd S.layout.chunks) :
    j ∈ S.segmentIndicesInRange start stop ↔ S.Carries start stop j := by
  rw [segmentIndicesInRange, List.mem_filter, List.mem_range, decide_eq_true_iff,
    h.mem_indicesFrom hstop le_rfl]
  exact ⟨fun hj => hj.2, fun hj => ⟨hj.lt_length, hj⟩⟩

theorem Setup.segmentIndicesInRange_sorted (S : Setup) (start stop : Nat) :
    (S.segmentIndicesInRange start stop).Pairwise (· < ·) :=
  List.pairwise_lt_range.filter _

/-! ## What the loop visits -/

/-- The segments `V` have been served: they carry bytes of the range, and all that is yielded. -/
structure Body.Tour (S : Setup) (req : Request) (V : Nat → Prop) (b : Body) : Prop where
  walk : b.Walk S req
  atSegment : b.AtSegment S
  /-- What is read is not before the segment being served. -/
  inside : ∀ d readEnd readPos, b.fg = .reading d readEnd readPos → ∀ i seg,
    b.serving = some i → S.segments[i]? = some seg → seg.offsetInStream ≤ readPos
  serving : ∀ i, b.serving = some i → V i
  carries : ∀ j, V j → S.Carries req.start req.stop j
  covered : ∀ v, req.start ≤ v → v < b.position req →
    ∃ a j, S.layout.videoToAssembled v = some a ∧ S.Holds j a ∧ V j

theorem Fg.reading_await {d d' : Drain} {seg : SegmentRef} {e : Ensure} {readEnd readPos : Nat}
    (h : Fg.await d seg e = .reading d' readEnd readPos) : readPos = d.aPos := by
  cases e with
  | returned r =>
    cases r with
    | error m => cases h
    | ok u =>
      cases h
      rfl
  | fetching | writing | marking => cases h

namespace Body
variable {req : Request} {c c' : CachedFile} {inp : Input} {k : Nat} {b b' : Body}
  {V : Nat → Prop}

theorem tour_fresh : fresh.Tour S req fun _ => False := by
  refine ⟨walk_fresh, trivial, ?_, ?_, fun _ h => h.elim, fun v hv hlt => ?_⟩
  · intro d readEnd readPos hf
    cases hf
  · intro i hi
    cases hi
  · have : fresh.position req = req.start := rfl
    omega

/-- The byte to serve next is in the range. -/
theorem Tour.next_carries (h : b.Tour S req V) {d : Drain} {seg : SegmentRef}
    (hf : b.fg = .drain d) (hle : d.aPos ≤ d.assembledEnd) (hseg : S.segments[i]? = some seg)
    (hin : d.In S seg) : S.Carries req.start req.stop i := by
  have hw := h.walk
  unfold Walk at hw
  rw [hf] at hw
  have hrest := hw.rest
  have hend := hw.videoEnd_le
  have hmap := hw.maps 0 (by omega)
  exact ⟨b.position req, d.aPos, Nat.le_add_right _ _, by omega, hmap, seg, hseg, hin.start_le,
    hin.lt_stop⟩

/-- What a step reads is held by the segment being served. -/
theorem Tour.read_covered (h : b.Tour S req V) {d : Drain} {readEnd readPos n : Nat}
    (hf : b.fg = .reading d readEnd readPos) (hn : readPos + n ≤ readEnd + 1) {v : Nat}
    (h1 : b.position req ≤ v) (h2 : v < b.position req + n) :
    ∃ a j, S.layout.videoToAssembled v = some a ∧ S.Holds j a ∧ V j := by
  have hw := h.walk
  have hat := h.atSegment
  unfold Walk at hw
  unfold AtSegment at hat
  rw [hf] at hw hat
  obtain ⟨halign, -, hend, -⟩ := hw
  obtain ⟨i, seg, hi, hseg, hstop⟩ := hat
  have hstart := h.inside d readEnd readPos hf i seg hi hseg
  have hrest := halign.rest
  simp only at hrest
  have hmap := halign.maps (v - b.position req) (by simp only; omega)
  rw [Nat.add_sub_cancel' h1] at hmap
  exact ⟨_, i, hmap, ⟨seg, hseg, by simp only; omega, by simp only; omega⟩, h.serving i hi⟩

/-- The segment served next is the one that the loop has looked up, or the same as before. -/
theorem Tour.serving_carries (hl : S.WellLaid) (h : b.Tour S req V)
    (he : Fg.Effect S req c inp b c' b') (hj : b'.serving = some j) :
    S.Carries req.start req.stop j := by
  cases he with
  | cached d i seg hf hle hi hseg hr | missing d i seg hf hle hi hseg hr =>
    cases hj
    exact h.next_carries hf hle hseg (Drain.in_of_find hl hle hi hseg)
  | _ => exact h.carries j (h.serving j hj)

/-- Reading starts in the segment being served. -/
theorem Tour.fg_inside (hl : S.WellLaid) (h : b.Tour S req V)
    (he : Fg.Effect S req c inp b c' b') {d : Drain} {readEnd readPos : Nat} {seg : SegmentRef}
    (hf' : b'.fg = .reading d readEnd readPos) (hi' : b'.serving = some i)
    (hseg' : S.segments[i]? = some seg) : seg.offsetInStream ≤ readPos := by
  cases he with
  | cached d i seg hf hle hi hseg hr =>
    cases hf'
    cases hi'
    cases hseg.symm.trans hseg'
    exact (Drain.in_of_find hl hle hi hseg).start_le
  | missing d i seg hf hle hi hseg hr =>
    cases hi'
    cases hseg.symm.trans hseg'
    rw [Fg.reading_await hf']
    exact (Drain.in_of_find hl hle hi hseg).start_le
  | ensured d seg e e' _ hf he =>
    have hat := h.atSegment
    have hw := h.walk
    unfold AtSegment at hat
    unfold Walk at hw
    rw [hf] at hat hw
    obtain ⟨i, hi, hseg⟩ := hat
    cases hi.symm.trans hi'
    cases hseg.symm.trans hseg'
    rw [Fg.reading_await hf']
    exact hw.2.start_le
  | read d readEnd readPos hf hle =>
    cases hf'
    exact (h.inside d readEnd readPos hf i seg hi' hseg').trans (Nat.le_add_right _ _)
  | _ => cases hf'

/-- **A step of the loop goes on with the tour.** -/
theorem Tour.fg (hl : S.WellLaid) (h : b.Tour S req V) (he : Fg.Effect S req c inp b c' b') :
    b'.Tour S req fun j => V j ∨ b'.serving = some j := by
  refine ⟨h.walk.fg hl he, h.atSegment.fg hl h.walk he, fun d readEnd readPos hf i seg hi hseg =>
    h.fg_inside hl he hf hi hseg, fun i hi => .inr hi, ?_, fun v hv hlt => ?_⟩
  · rintro j (hj | hj)
    · exact h.carries j hj
    · exact h.serving_carries hl he hj
  · suffices hold : ∃ a j, S.layout.videoToAssembled v = some a ∧ S.Holds j a ∧ V j by
      obtain ⟨a, j, ha, hj, hV⟩ := hold
      exact ⟨a, j, ha, hj, .inl hV⟩
    by_cases hpos : v < b.position req
    · exact h.covered v hv hpos
    · cases he with
      | read d readEnd readPos hf hle =>
        rw [position_emit, CachedFile.readBytes_length] at hlt
        exact h.read_covered hf (by omega) (Nat.le_of_not_lt hpos) hlt
      | _ => exact absurd hlt hpos

theorem Tour.same (h : b.Tour S req V) : b.Tour S req fun j => V j ∨ b.serving = some j := by
  refine ⟨h.walk, h.atSegment, h.inside, fun i hi => .inr hi, ?_, fun v hv hlt => ?_⟩
  · rintro j (hj | hj)
    · exact h.carries j hj
    · exact h.carries j (h.serving j hj)
  · obtain ⟨a, j, ha, hj, hV⟩ := h.covered v hv hlt
    exact ⟨a, j, ha, hj, .inl hV⟩

theorem Tour.prefetch (h : b.Tour S req V) (he : b.PrefetchEffect S c inp k c' b') :
    b'.Tour S req fun j => V j ∨ b'.serving = some j := by
  have hpos : b'.position req = b.position req := by
    unfold position
    rw [he.yielded]
  refine ⟨h.walk.prefetch he, ?_, ?_, fun i hi => .inr hi, ?_, fun v hv hlt => ?_⟩
  · have := h.atSegment
    unfold AtSegment at this ⊢
    rwa [he.fg, he.serving]
  · rw [he.fg, he.serving]
    exact h.inside
  · rintro j (hj | hj)
    · exact h.carries j hj
    · exact h.carries j (h.serving j (he.serving ▸ hj))
  · obtain ⟨a, j, ha, hj, hV⟩ := h.covered v hv (hpos ▸ hlt)
    exact ⟨a, j, ha, hj, .inl hV⟩

/-- **A tour that ends has been to every segment of the range.** -/
theorem Tour.whole (hl : S.WellLaid) (h : b.Tour S req V) (hend : b.fg = .ended (.ok ()))
    (hj : S.Carries req.start req.stop j) : V j := by
  have hw := h.walk
  unfold Walk at hw
  rw [hend] at hw
  obtain ⟨v, a, hv, hvs, ha, hja⟩ := hj
  obtain ⟨a', j', ha', hja', hV⟩ := h.covered v hv (by omega)
  rw [ha] at ha'
  cases ha'
  rwa [hja.unique hl hja']

end Body

section
variable {ι : Type} [DecidableEq ι] {req : ι → Request} {c : CachedFile} {s t : World ι}
  {as : List (Act ι)} {x : Act ι} {n : ι}

/-- What a step adds to the segments visited. -/
theorem visits_snoc (h : Run (World.step S req) (fun _ _ => True) (.init c) (x :: as) t) :
    Visits S req c n (x :: as) j ↔ Visits S req c n as j ∨ (t.bodies n).serving = some j := by
  constructor
  · rintro ⟨bs, u, hbs, hu, hj⟩
    rcases List.suffix_cons_iff.mp hbs with rfl | hbs
    · exact .inr (hu.unique h ▸ hj)
    · exact .inl ⟨bs, u, hbs, hu, hj⟩
  · rintro (⟨bs, u, hbs, hu, hj⟩ | hj)
    · exact ⟨bs, u, hbs.trans (List.suffix_cons x as), hu, hj⟩
    · exact ⟨_, t, List.suffix_refl _, h, hj⟩

theorem tour_of_run (hl : S.WellLaid)
    (h : Run (World.step S req) (fun _ _ => True) (.init c) as s) :
    (s.bodies n).Tour S (req n) (Visits S req c n as) := by
  induction h with
  | nil =>
    have hV : Visits S req c n [] = fun _ => False := by
      funext j
      refine eq_false ?_
      rintro ⟨bs, t, hbs, ht, hj⟩
      obtain rfl := List.suffix_nil.mp hbs
      cases ht
      cases hj
    rw [hV]
    exact Body.tour_fresh
  | @snoc as t u x hr ha hs ih =>
    have hV : Visits S req c n (x :: as) = fun j =>
        Visits S req c n as j ∨ (u.bodies n).serving = some j :=
      funext fun j => propext (visits_snoc (hr.snoc ha hs))
    rw [hV]
    cases World.step_effect hs with
    | fg i inp c' b he =>
      rw [World.set_bodies]
      split
      · next hn =>
        subst hn
        exact ih.fg hl he
      · exact ih.same
    | spawn i b he | task i k inp c' b he =>
      rw [World.set_bodies]
      split
      · next hn =>
        subst hn
        exact ih.prefetch he
      · exact ih.same

end

/-! ## A body that comes to its end -/

section
variable {req : Request} {c : CachedFile} {P : Payloads S} {Q : Source P} {s : World Unit}

theorem Setup.Imaged.covering (h : S.Imaged) (hstop : stop < videoEnd S.layout.chunks) :
    S.Covered stop := by
  refine ⟨h.laid, h.pos, fun v hv => ?_⟩
  obtain ⟨a, ha, hrest, himage⟩ := h.mapped (lt_of_le_of_lt hv hstop)
  exact ⟨a, ha, by omega⟩

/-- Whatever the order of the chunks, the loop does not fail where the servers hold the
segments. -/
theorem live_reaches (hp : S.Covered req.stop) (hc : c.totalSize = S.assembledEnd)
    (h : Q.Reaches req c s) : (s.bodies ()).fg.Live Q := by
  refine (Reaches.inv (I := fun s => (s.bodies ()).Walk S req ∧
    s.cache.totalSize = S.assembledEnd ∧ (s.bodies ()).fg.Live Q) h ⟨walk_fresh, hc, trivial⟩
    fun t x u ht hok hs => ?_).2.2
  obtain ⟨hw, hsize, hlive⟩ := ht
  refine ⟨walk_step hp.laid (fun _ => hw) hs (), ?_⟩
  cases World.step_effect hs with
  | fg i inp c b he =>
    refine ⟨he.totalSize.trans hsize, hlive.fg hp hsize hw he fun d seg idx rest lastErr hf => ?_⟩
    exact hok idx seg inp.answer (by simp only [World.asked, hf])
  | spawn i b he | task i k inp c b he =>
    exact ⟨he.totalSize.trans hsize, he.fg ▸ hlive⟩

/-- **Where the servers hold the segments, some run visits the whole plan.** -/
theorem exists_whole_visit (h : S.Imaged) (hstop : req.stop < videoEnd S.layout.chunks)
    (Q : Source P) (hc : c.totalSize = S.assembledEnd) :
    ∃ as s, Run (World.step S fun _ => req) Q.Answers (.init c) as s ∧
      (s.bodies ()).fg = .ended (.ok ()) ∧
      ∀ j, Visits S (fun _ => req) c () as j ↔ j ∈ S.segmentIndicesInRange req.start req.stop := by
  have hp := h.covering hstop
  have hbound : ∀ as t, Run (World.step S fun _ => req) Q.Answers (.init c) as t →
      as.countP Act.isFg ≤ Body.fresh.work S req := fun as t ht => bounded_work hp.laid ht
  obtain ⟨s, hs, r, hr⟩ := exists_halted hbound fun t ht =>
    (exists_step hp.laid (live_reaches hp hc ht)).imp_right fun ⟨inp, u, hok, hu⟩ =>
      ⟨.fg () inp, u, rfl, hok, hu⟩
  have hlive := live_reaches hp hc hs
  rw [hr] at hlive
  cases r with
  | error m => exact hlive.elim
  | ok u =>
    obtain ⟨as, hrun⟩ := hs
    have htour := tour_of_run (n := ()) hp.laid (hrun.mono fun _ _ _ => trivial)
    refine ⟨as, s, hrun, hr, fun j => ⟨fun hj => ?_, fun hj => ?_⟩⟩
    · exact (h.mem_segmentIndicesInRange hstop).mpr (htour.carries j hj)
    · exact htour.whole hp.laid hr ((h.mem_segmentIndicesInRange hstop).mp hj)

end

/-! ## The plan -/

/-- **The plan is what playback needs**: it is in order, every segment that the loop of a body
visits in any run is in it, and a body that comes to its end has visited all of it, as one that
the servers hold the segments for can. -/
theorem plan_is_visited {ι : Type} [DecidableEq ι] {req : ι → Request} (h : S.Imaged) (i : ι)
    (hstop : (req i).stop < videoEnd S.layout.chunks) :
    (S.segmentIndicesInRange (req i).start (req i).stop).Pairwise (· < ·) ∧
    (∀ c as s, Run (World.step S req) (fun _ _ => True) (.init c) as s →
      (∀ j, Visits S req c i as j → j ∈ S.segmentIndicesInRange (req i).start (req i).stop) ∧
      ((s.bodies i).fg = .ended (.ok ()) →
        ∀ j ∈ S.segmentIndicesInRange (req i).start (req i).stop, Visits S req c i as j)) ∧
    ∀ (P : Payloads S) (Q : Source P) (c : CachedFile), c.totalSize = S.assembledEnd →
      ∃ as s, Run (World.step S fun _ : Unit => req i) Q.Answers (.init c) as s ∧
        (s.bodies ()).fg = .ended (.ok ()) ∧ ∀ j, Visits S (fun _ => req i) c () as j ↔
          j ∈ S.segmentIndicesInRange (req i).start (req i).stop := by
  refine ⟨S.segmentIndicesInRange_sorted _ _, fun c as s hr => ⟨fun j hj => ?_,
    fun hend j hj => ?_⟩, fun P Q c hc => exists_whole_visit h hstop Q hc⟩
  · exact (h.mem_segmentIndicesInRange hstop).mpr ((tour_of_run h.laid hr).carries j hj)
  · exact (tour_of_run h.laid hr).whole h.laid hend ((h.mem_segmentIndicesInRange hstop).mp hj)

/-! ## A volume header between two chunks -/

/-- Two chunks in five segments, the third of which holds no video byte. -/
def headerBetween : Setup where
  layout := ⟨[⟨0, "a", 1, 0⟩, ⟨0, "b", 1, 1⟩, ⟨0, "h", 2, 2⟩, ⟨0, "c", 1, 4⟩, ⟨0, "d", 1, 5⟩],
    [⟨0, 2, 0⟩, ⟨2, 2, 4⟩]⟩
  search := .leftmost _
  serverCount := 1

theorem headerBetween_imaged : headerBetween.Imaged := by
  refine ⟨⟨?_, ?_⟩, by decide, by decide⟩
  · intro i seg hi
    match i with
    | 0 | 1 | 2 | 3 | 4 =>
      cases hi
      rfl
  · intro k ch hk
    match k with
    | 0 | 1 =>
      cases hk
      rfl

/-- Its whole video, with nothing evicted. -/
def wholeVideo : Request := ⟨0, 3, 2, none⟩

/-- The header is not planned, and a body that plays the video does not visit it. -/
theorem plan_is_visited_headerBetween :
    headerBetween.segmentIndicesInRange 0 3 = [0, 1, 3, 4] ∧
    ∃ c as s, Run (World.step headerBetween fun _ : Unit => wholeVideo) (fun _ _ => True)
      (.init c) as s ∧ (s.bodies ()).fg = .ended (.ok ()) ∧
      ∀ j, Visits headerBetween (fun _ => wholeVideo) c () as j ↔ j ∈ [0, 1, 3, 4] := by
  refine ⟨by decide, (CachedFile.openOrCreate (fun _ => 0) 6).markPopulated 0 6, ?_⟩
  obtain ⟨s, ⟨as, hs⟩, hp⟩ := exists_of_exec_free
    (World.step headerBetween fun _ : Unit => wholeVideo)
    (.init ((CachedFile.openOrCreate (fun _ => 0) 6).markPopulated 0 6))
    (List.replicate 18 (.fg () {}))
    (fun s => (s.bodies ()).fg.result = some (.ok ())) rfl
  have hend : (s.bodies ()).fg = .ended (.ok ()) := Fg.eq_ended (of_decide_eq_true hp)
  obtain ⟨hvisited, hwhole⟩ := (plan_is_visited headerBetween_imaged () (by decide)).2.1 _ as s hs
  exact ⟨as, s, hs, hend, fun j => ⟨hvisited j, hwhole hend j⟩⟩

end StremioNzb.Streaming

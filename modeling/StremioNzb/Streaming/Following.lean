import StremioNzb.Streaming.Serving
import StremioNzb.Streaming.Walk

/-!
# Bodies follow the serving loops

A body of the pipeline, with its accesses to the shared cache file step by step, does what the
checked loops of `Serving` do with some answers (`Body.Follows.fg`): fetching a segment and
evicting behind the playhead are waits inside one round. So the loop variables of every body on a
shared cache stay within its range, whatever the other bodies, the prefetches and the servers do
(`World.Followed.step`).
-/

namespace StremioNzb.Streaming

open StremioNzb.Lib

/-- The loops stand where the foreground of the body stands. -/
def Fg.At (S : Setup) (req : Request) (s : Serving) : Fg → Prop
  | .begin => s = .begin S req
  | .outer cursor => s.loop = .outer cursor
  | .drain d | .evicting d _ _ => s.loop = .drain d
  | .ensuring d seg _ => s.loop = .drain d ∧ d.aPos ≤ d.assembledEnd ∧
      ∃ i : Nat, findSegmentForByte S.search S.segments d.aPos = some i ∧ S.segments[i]? = some seg
  | .reading d readEnd readPos => s.loop = .reading d readEnd readPos
  | .ended _ => ∃ r, s.loop = .ended r

/-- The loops stand where the body stands, and have yielded the same. -/
structure Body.Follows (S : Setup) (req : Request) (b : Body) (s : Serving) : Prop where
  at_fg : b.fg.At S req s
  yielded : s.yielded = b.yielded

/-- The segment is missing, and fetching it comes to `r`. -/
def Answers.fetching (r : Except String Unit) : Answers where
  hasRange _ := false
  ensured _ := r
  readAt _ _ := .error ""
  readAt_le h := nomatch h

/-- The segment is there, and a read returns what the cache file holds. -/
def Answers.cached (c : CachedFile) : Answers where
  hasRange _ := true
  ensured _ := .ok ()
  readAt pos want := .ok (c.readBytes pos want)
  readAt_le h := by
    cases h
    rw [CachedFile.readBytes_length]

variable {S : Setup} {req : Request} {c c' : CachedFile} {inp : Input} {b b' : Body}
  {s : Serving} {d : Drain} {seg : SegmentRef} {i : Nat}

/-- The loops take a step or wait. -/
def Serving.Next (S : Setup) (req : Request) (s s' : Serving) : Prop :=
  s' = s ∨ ∃ ans, s.step S req ans = some s'

/-- What follows `ensure_segment_cached` in a round. -/
theorem Fg.At.await (h : S.Servable) {e : Ensure} (hs : s.loop = .drain d)
    (hle : d.aPos ≤ d.assembledEnd)
    (hi : findSegmentForByte S.search S.segments d.aPos = some i)
    (hseg : S.segments[i]? = some seg) :
    ∃ s', s.Next S req s' ∧ s'.yielded = s.yielded ∧ Fg.At S req s' (.await d seg e) := by
  have hround := fun r => Setup.drainRound_found h hle hi hseg (.fetching r)
  cases e with
  | returned r =>
    refine ⟨_, .inr ⟨_, Serving.step_drain hs (hround r)⟩, rfl, ?_⟩
    cases r with
    | error e => exact ⟨_, rfl⟩
    | ok u => exact rfl
  | fetching | writing | marking => exact ⟨s, .inl rfl, rfl, hs, hle, i, hi, hseg⟩

/-- **A step of the foreground loop is a step of the serving loops, or a wait.** -/
theorem Body.Follows.fg (h : S.Servable) (hstop : req.stop < 2 ^ 64 - 1) (hw : s.Inv S req)
    (hf : b.Follows S req s) (he : Fg.Effect S req c inp b c' b') :
    ∃ s', s.Next S req s' ∧ b'.Follows S req s' := by
  obtain ⟨hat, hy⟩ := hf
  -- a step of the loops that goes on where the body does
  have hgoes : ∀ ans {s'}, s.step S req ans = some s' → b'.fg.At S req s' →
      s'.yielded = b'.yielded → ∃ s', s.Next S req s' ∧ b'.Follows S req s' :=
    fun ans _ hs hat' hy' => ⟨_, .inr ⟨ans, hs⟩, hat', hy'⟩
  have hwaits : b'.fg.At S req s → s.yielded = b'.yielded →
      ∃ s', s.Next S req s' ∧ b'.Follows S req s' := fun hat' hy' => ⟨s, .inl rfl, hat', hy'⟩
  let fail := Answers.fetching (.ok ())
  have hin := hw.within
  cases he with
  | empty hfg hlt =>
    rw [hfg] at hat
    refine hwaits ⟨.ok (), ?_⟩ hy
    rw [hat, Serving.begin, if_pos hlt]
  | serverless m hfg hn =>
    rw [hfg] at hat
    by_cases hlt : req.start > req.stop
    · refine hwaits ⟨.ok (), ?_⟩ hy
      rw [hat, Serving.begin, if_pos hlt]
    · refine hwaits ⟨.error "no NNTP servers configured", ?_⟩ hy
      rw [hat, Serving.begin, if_neg hlt, if_pos hn]
  | began hfg hle hn =>
    rw [hfg] at hat
    refine hwaits ?_ hy
    show s.loop = .outer req.start
    rw [hat, Serving.begin, if_neg (not_lt.mpr hle), if_neg hn.ne']
  | finished cursor hfg hlt =>
    rw [hfg] at hat
    exact hgoes fail (Serving.step_outer hat (if_neg (not_le.mpr hlt))) ⟨_, rfl⟩ hy
  | unmapped cursor m hfg hle hn =>
    rw [hfg] at hat
    rcases Setup.pieceChecked_spec h.words hle with ⟨hp, -⟩ | ⟨d, hp, -, hd⟩
    · have hr : S.outerRound req.stop cursor =
          some (.ended (.error s!"cursor {cursor} past last chunk")) := by
        rw [Setup.outerRound, if_pos hle, hp]
        rfl
      exact hgoes fail (Serving.step_outer hat hr) ⟨_, rfl⟩ hy
    · rw [hd.maps] at hn
      exact absurd hn (Option.some_ne_none _)
  | chunk cursor a hfg hle ha hpos =>
    rw [hfg] at hat
    rcases Setup.pieceChecked_spec h.words hle with ⟨-, h0⟩ | ⟨d, hp, -, hd⟩
    · omega
    · have hr : S.outerRound req.stop cursor = some (.drain d) := by
        rw [Setup.outerRound, if_pos hle, hp]
        rfl
      refine hgoes fail (Serving.step_outer hat hr) ?_ hy
      obtain rfl : d.aPos = a := Option.some.inj (hd.maps.symm.trans ha)
      show Loop.drain d = .drain _
      rw [← hd.videoEnd, ← hd.assembledEnd]
  | drained d hfg hlt =>
    rw [hfg] at hat
    rw [show s.loop = .drain d from hat] at hin
    obtain ⟨h1, -⟩ := hin
    have hword : d.videoEnd + 1 < 2 ^ 64 := by omega
    exact hgoes fail (Serving.step_drain hat (Setup.drainRound_of_lt hlt hword)) rfl hy
  | segmentless d m hfg hle hn =>
    rw [hfg] at hat
    exact hgoes fail (Serving.step_drain hat (Setup.drainRound_missed h hle hn)) ⟨_, rfl⟩ hy
  | cached d i seg hfg hle hi hseg hr =>
    rw [hfg] at hat
    exact hgoes _ (Serving.step_drain hat (Setup.drainRound_found h hle hi hseg (.cached c))) rfl hy
  | missing d i seg hfg hle hi hseg hr =>
    rw [hfg] at hat
    obtain ⟨s', hn, hy', hat'⟩ := Fg.At.await h hat hle hi hseg
    exact ⟨s', hn, hat', hy'.trans hy⟩
  | ensured d seg e e' c' hfg he =>
    rw [hfg] at hat
    obtain ⟨hs, hle, i, hi, hseg⟩ := hat
    obtain ⟨s', hn, hy', hat'⟩ := Fg.At.await h hs hle hi hseg
    exact ⟨s', hn, hat', hy'.trans hy⟩
  | unread d readEnd readPos m hfg hle hlt =>
    rw [hfg] at hat
    rw [show s.loop = .reading d readEnd readPos from hat] at hin
    obtain ⟨-, -, -, -, -, hword⟩ := hin
    have hr : readRound fail d readEnd readPos = some (.ended (.error ""), []) :=
      readRound_of_le hle hword
    refine hgoes _ (Serving.step_reading hat hr) ⟨_, rfl⟩ ?_
    rw [List.append_nil]
    exact hy
  | read d readEnd readPos hfg hle =>
    rw [hfg] at hat
    rw [show s.loop = .reading d readEnd readPos from hat] at hin
    obtain ⟨-, -, -, -, -, hword⟩ := hin
    have hr : readRound (.cached c) d readEnd readPos = _ := readRound_of_le hle hword
    simp only [Answers.cached] at hr
    rw [if_neg CachedFile.readChunk_ne_nil] at hr
    refine hgoes _ (Serving.step_reading hat hr) rfl ?_
    rw [hy]
    rfl
  | served d readEnd readPos hfg hlt hev | called d readEnd readPos p hfg hlt hev =>
    rw [hfg] at hat
    rw [show s.loop = .reading d readEnd readPos from hat] at hin
    obtain ⟨-, -, -, -, -, hword⟩ := hin
    refine hgoes fail (Serving.step_reading hat (readRound_of_lt hlt hword)) rfl ?_
    rw [List.append_nil]
    exact hy
  | evicted d p e e' c' hfg he =>
    rw [hfg] at hat
    exact hwaits hat hy
  | resumed d p hfg =>
    rw [hfg] at hat
    exact hwaits hat hy

theorem Body.follows_fresh : Body.fresh.Follows S req (.begin S req) := by
  refine ⟨rfl, ?_⟩
  unfold Serving.begin
  split
  · rfl
  · split <;> rfl

/-! ## Runs -/

variable {ι : Type} [DecidableEq ι] {reqs : ι → Request} {w w' : World ι} {a : Act ι}

/-- Each body stands where some run of its serving loops does. -/
def World.Followed (S : Setup) (reqs : ι → Request) (w : World ι) : Prop :=
  ∀ i, ∃ s : Serving, s.Inv S (reqs i) ∧ (w.bodies i).Follows S (reqs i) s

theorem World.Followed.step (h : S.Servable) (hstop : ∀ i, (reqs i).stop < 2 ^ 64 - 1)
    (hw : w.Followed S reqs) (hs : w.step S reqs a = some w') : w'.Followed S reqs := by
  intro j
  obtain ⟨s, hi, hf⟩ := hw j
  cases World.step_effect hs with
  | fg i inp c b he =>
    by_cases hj : j = i
    · subst hj
      obtain ⟨s', hn, hf'⟩ := hf.fg h (hstop j) hi he
      have hi' : s'.Inv S (reqs j) := by
        rcases hn with rfl | ⟨ans, hans⟩
        · exact hi
        · exact hi.step h (hstop j) hans
      exact ⟨s', hi', by simpa using hf'⟩
    · exact ⟨s, hi, by simpa [hj] using hf⟩
  | spawn i b he | task i k inp c b he =>
    by_cases hj : j = i
    · subst hj
      refine ⟨s, hi, ?_⟩
      rw [World.set_bodies, if_pos rfl]
      exact ⟨he.fg ▸ hf.at_fg, hf.yielded.trans he.yielded.symm⟩
    · exact ⟨s, hi, by simpa [hj] using hf⟩

end StremioNzb.Streaming

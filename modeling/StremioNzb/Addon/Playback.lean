import StremioNzb.Addon.Committed
import StremioNzb.Streaming.Transparent

/-!
# From the candidates to the bytes

What a response of `video_route` streams. Where the sizes of the committed post agree
(`Post.Whole`), its layout is playable to the last byte, and the body of every response that
streams yields exactly the bytes that its headers announce, of the file that was posted
(`response_played`).
-/

namespace StremioNzb.Streaming

/-- The sizes declared, decoded and read from the headers agree, no part is empty, and the data
of each volume lies in it. -/
structure Post.Whole (post : Post) : Prop where
  fits : post.Fits
  reconciled : post.Reconciled
  pos : ∀ seg ∈ post.layout.segments, 0 < seg.bytes
  inside : ∀ volumes total, post = .rar volumes total →
    ∀ v ∈ volumes, v.dataStart + v.dataSize ≤ v.size

/-- A file of one part of four bytes. -/
example : Post.Whole (.flat [⟨10, 1, "a"⟩] 4 (some 4)) where
  fits := show FlatFits _ _ _ from
    ⟨fun t h => by cases h; decide, by decide, fun _ => stridesFit_of_lt (by decide)⟩
  reconciled := show ∀ t, some 4 = some t → t ≤ 1 * 4 by simp
  pos := by decide
  inside volumes total h := by cases h

namespace Post
variable {post : Post}

theorem Whole.ascending (h : post.Whole) : post.layout.Ascending := by
  cases post with
  | flat segments stride fileSize =>
    intro v v' a a' hlt ha ha'
    obtain ⟨-, rfl⟩ := flatLayout_map.mp ha
    obtain ⟨-, rfl⟩ := flatLayout_map.mp ha'
    exact hlt
  | rar volumes total =>
    have hl : (rar volumes total).layout = rarLayout volumes := by
      rw [h.fits.layout_eq]
    rw [hl]
    exact rarLayout_ascending (h.inside volumes total rfl)

/-- **A whole post is playable up to every byte of its size.** -/
theorem Whole.playable (h : post.Whole) (hread : post.Read) (search : SegmentSearch) (n : Nat)
    {stop : Nat} (hstop : stop < post.totalSize) :
    Setup.Playable ⟨post.layout, search, n⟩ stop where
  laid := ⟨h.fits.contiguous, h.fits.chunksContiguous⟩
  pos := h.pos
  ascending := h.ascending
  covered v hv := by
    have hmap : post.layout.Mappable post.totalSize :=
      (FileLayout.mappable_iff h.fits.contiguous h.fits.chunksContiguous).mpr
        ((h.fits.covering_iff hread).mpr h.reconciled)
    obtain ⟨a, i, ha, -, hi⟩ := hmap search v (hv.trans_lt hstop)
    refine ⟨a, ha, lt_of_not_ge fun hge => ?_⟩
    rw [findSegmentForByte_eq_none h.fits.contiguous hge] at hi
    cases hi

end Post

/-- What preflight commits is the layout of the post it has read, with an empty cache file. -/
theorem Net.probeCandidateInner_ok {net : Net} {nzbUrl token : String} {active : ActiveStream}
    (h : net.probeCandidateInner nzbUrl token = .ok active) :
    ∃ post contentType content, net.readPost nzbUrl = .ok (post, contentType) ∧
      active.fileLayout = post.layout ∧ active.totalSize = post.totalSize ∧
      active.contentType = contentType ∧
      active.cacheFile = .openOrCreate content post.layout.assembledSize64 := by
  obtain ⟨⟨post, contentType⟩, hread, h⟩ := Lib.bind_eq_ok.mp h
  obtain ⟨cacheFile, hc, h⟩ := Lib.bind_eq_ok.mp h
  have hc := Lib.mapError_eq_ok.mp hc
  unfold openCache at hc
  cases hopen : net.openFile s!"{net.root}/{token}.bin" with
  | error e =>
    rw [hopen] at hc
    cases hc
  | ok content =>
    rw [hopen] at hc
    cases hc
    cases h
    exact ⟨post, contentType, content, hread, rfl, rfl, rfl, rfl⟩

end StremioNzb.Streaming

namespace StremioNzb.Addon

open StremioNzb.Lib StremioNzb.Streaming

/-- On a cache file of true bytes the body yields as many bytes as the response announces, the
video bytes from the start of its range on. -/
def Response.Plays (r : Response) (active : ActiveStream) : Prop :=
  ∃ req len, r.body = .stream active req ∧ r.contentLength = some len ∧
    ∀ search n (P : Payloads ⟨active.fileLayout, search, n⟩) (Q : Source P) (c : CachedFile),
      c.totalSize = active.cacheFile.totalSize → (∀ x, c.Has x → P.TrueAt c x) →
        Transparent Q req c ∧ ∀ t res, Q.Reaches req c t → (t.bodies ()).fg = .ended res →
          res = .ok () ∧ (t.bodies ()).yielded.flatten.map some =
            (List.range' req.start len).map P.videoByte

theorem plays_of_whole {post : Post} {active : ActiveStream} {req : Request}
    (hwhole : post.Whole) (hread : post.Read) (hlayout : active.fileLayout = post.layout)
    (hsize : active.cacheFile.totalSize = post.layout.assembledSize64) (hle : req.start ≤ req.stop)
    (hstop : req.stop < post.totalSize) (search : SegmentSearch) (n : Nat)
    (P : Payloads ⟨active.fileLayout, search, n⟩) (Q : Source P) (c : CachedFile)
    (hc : c.totalSize = active.cacheFile.totalSize) (htrue : ∀ x, c.Has x → P.TrueAt c x) :
    Transparent Q req c := by
  have hp : Setup.Playable ⟨active.fileLayout, search, n⟩ req.stop := by
    rw [hlayout]
    exact hwhole.playable hread search n hstop
  refine transparent_of_playable hp hle ?_ htrue
  rw [hc, hsize, FileLayout.assembledSize64_eq hwhole.fits.contiguous hwhole.fits.assembledEnd_lt,
    ← hlayout]

section
variable {ι : Type} [DecidableEq ι] {cfg : StreamConfig} {s : Videos ι} {i : ι} {token : String}
  {range : Option String} {r : Response}

/-- The bytes that a response streams are those of its headers. -/
theorem Response.Announces.streamed {active : ActiveStream} (h : r.Announces cfg range active)
    (hr : r.status ∈ [200, 206]) (hpos : 0 < active.totalSize) :
    ∃ req : Request, r.body = .stream active req ∧
      r.contentLength = some (req.stop + 1 - req.start) ∧ req.start ≤ req.stop ∧
      req.stop < active.totalSize := by
  cases h with
  | full _ _ _ hlen hbody =>
    refine ⟨_, hbody, ?_, Nat.zero_le _, Nat.sub_one_lt_of_lt hpos⟩
    rw [hlen]
    congr 1
    show max active.totalSize 1 = active.totalSize - 1 + 1 - 0
    omega
  | part start stop _ hle hlt _ _ hlen hbody =>
    refine ⟨_, hbody, ?_, hle, hlt⟩
    rw [hlen]
    congr 1
    show stop - start + 1 = stop + 1 - start
    omega
  | unsatisfiable _ hs =>
    rw [hs] at hr
    simp at hr
  | bad _ _ _ heq =>
    rw [heq] at hr
    simp [ofText] at hr

/-- The stream is that of the post which the last attempt of the session has read for its
candidate, on a cache file with no byte in it. -/
structure GroupSession.Streams (session : GroupSession ι) (active : ActiveStream) (post : Post) :
    Prop where
  committed : session.active.value = some active
  attempt : ∃ j net candidate, session.active.log.getLast? = some (j, net) ∧
    session.candidates[active.candidateIdx]? = some candidate ∧
    net.readPost candidate.nzbUrl = .ok (post, active.contentType)
  layout : active.fileLayout = post.layout
  size : active.totalSize = post.totalSize
  cacheSize : active.cacheFile.totalSize = post.layout.assembledSize64
  empty : ∀ x, ¬ active.cacheFile.Has x

omit [DecidableEq ι] in
/-- A session that has committed streams the post of its last attempt. -/
theorem GroupSession.streams_of_committed {session : GroupSession ι} {active : ActiveStream}
    (h : session.CommitsFirst token) (hv : session.active.value = some active) :
    ∃ post : Post, post.Read ∧ session.Streams active post := by
  obtain ⟨-, old, j, nets, hlog, -, hsucc⟩ := h.committed active hv
  cases hsucc with
  | @snoc nets lastErr net candidate active hfails hc hnet =>
    obtain ⟨post, contentType, content, hread, hlayout, htotal, rfl, hcache⟩ :=
      Net.probeCandidateInner_ok hnet
    refine ⟨post, Net.readPost_read hread, hv, ⟨j, net, candidate, ?_, hc, hread⟩, hlayout, htotal,
      by rw [hcache]; rfl, fun x hx => ?_⟩
    · rw [hlog, List.map_append, List.map_singleton, ← List.append_assoc, List.getLast?_concat]
    · rw [hcache] at hx
      exact PopulatedRanges.not_mem_bytes_new x hx

/-- **Every response that streams is for the post of the committed candidate**, and where the
sizes of that post agree its body yields exactly the bytes announced. -/
theorem response_played (h : Videos.Reaches cfg .init s)
    (hi : s.routes i = .responded token range r) (hr : r.status ∈ [200, 206]) :
    ∃ session active post, s.sessions token = some session ∧ session.Streams active post ∧
      r.Announces cfg range active ∧ (post.Whole → 0 < post.totalSize → r.Plays active) := by
  have hk := Videos.kept_reaches h
  cases hk.routes i token range r hi with
  | unknown | serverless | refused => simp [Response.ofText] at hr
  | @served session active hs hv =>
    obtain ⟨post, hread, hstreams⟩ := GroupSession.streams_of_committed
      (GroupSession.commitsFirst_of_kept (hk.cells token session hs)) hv
    have hann := cfg.announces token range active
    refine ⟨session, active, post, hs, hstreams, hann, fun hwhole hpos => ?_⟩
    obtain ⟨req, hbody, hlen, hle, hlt⟩ := hann.streamed hr (hstreams.size ▸ hpos)
    refine ⟨req, _, hbody, hlen, fun search n P Q c hc htrue => ?_⟩
    have ht : Transparent Q req c := plays_of_whole hwhole hread hstreams.layout
      hstreams.cacheSize hle (hstreams.size ▸ hlt) search n P Q c hc htrue
    exact ⟨ht, fun t res hreach hend => ht.whole t res hreach hend⟩

/-! ### The second upload is of two volumes -/

theorem twoVolumes_whole : Post.Whole (.rar twoVolumesGeom 10) where
  fits := twoVolumes_fit
  reconciled := twoVolumes_reconciled
  pos := by decide +kernel
  inside volumes total h := by
    cases h
    decide

/-- The last attempt has read the two volumes of the second upload. -/
def readsTwoVolumes (session : GroupSession Nat) : Bool :=
  session.active.log.getLast?.any fun (_, net) =>
    (net.readPost "b").toOption = some (.rar twoVolumesGeom 10, guessContentType "a.mkv")

def twoVolumesCommitted : List (VideosAct Nat) :=
  firstFails ++ [.probe 0 twoVolumes, .enter 1, .respond 0, .respond 1]

/-- Data of two volumes is played from the third byte on. -/
theorem response_played_second_upload :
    ∃ (s : Videos Nat) (range : _) (r : _), Videos.Reaches noReadAhead .init s ∧
      s.routes 1 = .responded "t" range r ∧ r.status = 206 ∧
      ∃ session active, s.sessions "t" = some session ∧
        session.Streams active (.rar twoVolumesGeom 10) ∧ r.Announces noReadAhead range active ∧
        r.Plays active := by
  obtain ⟨s, h, hp⟩ := exists_videos twoVolumesCommitted
    (fun s => (s.routes 1).answers 206 && (s.sessions "t").any fun session =>
      session.candidates = [upload "a", upload "b"] && readsTwoVolumes session &&
        session.active.value.any fun active => active.candidateIdx = 1) (by decide +kernel)
  simp only [Bool.and_eq_true, Option.any_eq_true, decide_eq_true_eq] at hp
  obtain ⟨hi, session, hs, ⟨hc, hreads⟩, active, hv, hidx⟩ := hp
  obtain ⟨range, r, hi, hr⟩ := Route.responded_of_answers hi
  obtain ⟨session', active', post, hs', hstreams, hann, hplays⟩ :=
    response_played h hi (by rw [hr]; decide)
  cases hs.symm.trans hs'
  cases hv.symm.trans hstreams.committed
  obtain rfl : post = .rar twoVolumesGeom 10 := by
    obtain ⟨j, net, candidate, hlog, hcand, hread⟩ := hstreams.attempt
    rw [hc, hidx] at hcand
    cases hcand
    unfold readsTwoVolumes at hreads
    rw [hlog] at hreads
    have hread' : (net.readPost "b").toOption = some _ := of_decide_eq_true hreads
    rw [show net.readPost "b" = _ from hread] at hread'
    exact (Prod.mk.inj (Option.some.inj hread')).1
  exact ⟨s, range, r, h, hi, hr, session, active, hs, hstreams, hann,
    hplays twoVolumes_whole (by decide)⟩

end

end StremioNzb.Addon

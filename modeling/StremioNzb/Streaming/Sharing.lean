import StremioNzb.Streaming.Sound
import StremioNzb.Streaming.WordPipeline

/-!
# Range requests that share a file

Any number of bodies stream from one cache file, each with its own range, read-ahead and
eviction. A body that has found a segment populated, or has fetched it, reads it later, and in
between another body may punch it out: zeros are yielded (`punched_byte_yielded`). In a run
without such a punch, on a layout whose `u64` sums fit, every byte that a body yields is the byte of
its video position (`bodies_served`).
-/

namespace StremioNzb.Streaming

open StremioNzb.Lib

/-- Every byte yielded so far is the byte of its video position. -/
def Body.Served {S : Setup} (P : Payloads S) (req : Request) (b : Body) : Prop :=
  ∀ k byte, b.yielded.flatten[k]? = some byte → P.videoByte (req.start + k) = some byte

variable {S : Setup} {P : Payloads S} {U : Set Nat} {req : Request} {c c' : CachedFile}
  {inp : Input} {b b' : Body}

theorem Body.served_fresh : Body.fresh.Served P req := fun k byte h => by simp [fresh] at h

/-- A chunk of true bytes is served. -/
theorem Body.Served.emit {d : Drain} {readEnd readPos : Nat} (h : b.Served P req)
    (ha : { d with aPos := readPos }.Aligned S req (b.position req)) (hle : readPos ≤ readEnd)
    (hend : readEnd ≤ d.assembledEnd)
    (htrue : ∀ x, readPos ≤ x → x ≤ readEnd → P.TrueAt c x) :
    (b.emit d readEnd readPos (c.readChunk readEnd readPos)).Served P req := by
  intro k byte hk
  have hflat : (b.emit d readEnd readPos (c.readChunk readEnd readPos)).yielded.flatten =
      b.yielded.flatten ++ c.readChunk readEnd readPos := by simp [Body.emit]
  rw [hflat] at hk
  by_cases hold : k < b.yielded.flatten.length
  · rw [List.getElem?_append_left hold] at hk
    exact h k byte hk
  · obtain ⟨o, rfl⟩ : ∃ o, k = b.yielded.flatten.length + o :=
      ⟨k - b.yielded.flatten.length, by omega⟩
    rw [List.getElem?_append_right (by omega), Nat.add_sub_cancel_left] at hk
    have ho : o < min (readEnd - readPos + 1) chunkSize := by
      have := (List.getElem?_eq_some_iff.mp hk).1
      rwa [CachedFile.readBytes_length] at this
    rw [CachedFile.readChunk, CachedFile.readBytes, List.getElem?_map,
      List.getElem?_range' ho, Option.map_some, Nat.one_mul, Option.some.injEq] at hk
    have hrest : b.position req + (d.assembledEnd + 1 - readPos) = d.videoEnd + 1 := ha.rest
    have hmap := ha.maps o (show b.position req + o ≤ d.videoEnd by omega)
    rw [← Nat.add_assoc]
    rw [Payloads.videoByte, show req.start + b.yielded.flatten.length = b.position req from rfl,
      hmap, Option.map_some, ← htrue (readPos + o) (by omega) (by omega), hk]

/-- **A step of the foreground loop serves true bytes** where what it reads is true. -/
theorem Body.Served.fg (h : b.Served P req) (hw : b.Walk S req) (hs : b.Sound P U c)
    (hU : ∀ d readEnd readPos x, b.fg = .reading d readEnd readPos → readPos ≤ x → x ≤ readEnd →
      x ∈ U) (he : Fg.Effect S req c inp b c' b') : b'.Served P req := by
  unfold Body.Walk at hw
  cases he with
  | read d readEnd readPos hf hle =>
    rw [hf] at hw
    have hs := hs.fg
    rw [hf] at hs
    exact h.emit hw.1 hle hw.2.2.1 fun x h1 h2 => hs x (hU d readEnd readPos x hf h1 h2) h1 h2
  | _ => exact h

theorem served_step {ι : Type} [DecidableEq ι] {req : ι → Request} {s s' : World ι} {a : Act ι}
    (h : ∀ i, (s.bodies i).Served P (req i)) (hw : ∀ i, (s.bodies i).Walk S (req i))
    (hs : s.Sound P U)
    (hU : ∀ i d readEnd readPos x, (s.bodies i).fg = .reading d readEnd readPos →
      readPos ≤ x → x ≤ readEnd → x ∈ U)
    (hstep : s.step S req a = some s') (j : ι) : (s'.bodies j).Served P (req j) := by
  cases World.step_effect hstep with
  | fg i inp c b he =>
    by_cases hj : j = i
    · subst hj
      simpa using (h j).fg (hw j) (hs.bodies j) (hU j) he
    · simpa [hj] using h j
  | spawn i b he | task i k inp c b he =>
    by_cases hj : j = i
    · subst hj
      have := h j
      unfold Body.Served at this ⊢
      simpa [he.yielded] using this
    · simpa [hj] using h j

theorem World.sound_init {ι : Type} (hc : ∀ x ∈ U, c.Has x → P.TrueAt c x) :
    (World.init c : World ι).Sound P U :=
  ⟨fun x hx hh => .inl (hc x hx hh),
    fun _ => ⟨trivial, fun _ _ _ h => by simp [init, Body.fresh] at h⟩⟩

/-- What holds of the bodies of a run without disturbance. -/
structure World.Shared {ι : Type} {S : Setup} (P : Payloads S) (req : ι → Request)
    (s : World ι) : Prop where
  walk : ∀ i, (s.bodies i).Walk S (req i)
  sound : s.Sound P Set.univ
  served : ∀ i, (s.bodies i).Served P (req i)

theorem shared_step {ι : Type} [DecidableEq ι] {req : ι → Request} (hl : S.WellLaid)
    {s s' : World ι} {a : Act ι} (h : s.Shared P req)
    (hok : P.Serves s a ∧ s.Undisturbing S Set.univ a) (hs : s.step S req a = some s') :
    s'.Shared P req where
  walk := walk_step hl h.walk hs
  sound := sound_step hl h.sound h.walk hok.1 hok.2 hs
  served := served_step h.served h.walk h.sound (fun _ _ _ _ _ _ _ _ => trivial) hs

/-- **Concurrent bodies yield the bytes of the video** in every run of the release build in which no
hole is punched over what a body has checked or written and is yet to read or mark, and no check
falls between the halves of an eviction of what it finds; as long as the sums of the layout fit. -/
theorem bodies_served {ι : Type} [DecidableEq ι] {req : ι → Request} {s : World ι}
    (hb : S.layout.Built) (hw : S.layout.InWords) (hstop : ∀ i, (req i).stop < 2 ^ 64 - 1)
    (hc : ∀ x, c.Has x → P.TrueAt c x)
    (h : Reaches (World.step64 S req) (fun s a => P.Serves s a ∧ s.Undisturbing S Set.univ a)
      (.init c) s) (i : ι) : (s.bodies i).Served P (req i) := by
  have hl : S.WellLaid := ⟨hb.contiguous hw, hb.chunksContiguous hw⟩
  have hexact := World.reaches_of_words ⟨hl.segments.sorted, hw⟩ hstop h
  have h0 : (World.init c : World ι).Shared P req :=
    ⟨fun _ => walk_fresh, World.sound_init fun x _ => hc x, fun _ => Body.served_fresh⟩
  exact (hexact.inv h0 fun _ _ _ hi hok hs => shared_step hl hi hok hs).served i

/-! ## A punch between the check and the read -/

/-- A file posted as two articles of one byte. -/
def twoArticles : Setup where
  layout := flatLayout [⟨0, "a", 1, 0⟩, ⟨0, "b", 1, 1⟩] 2
  search := .leftmost _
  serverCount := 1

theorem twoArticles_built : twoArticles.layout.Built :=
  .flat [⟨1, 1, "a"⟩, ⟨1, 2, "b"⟩] 0 1 (some 2) (by decide) (by decide) (by rintro _ ⟨⟩; decide)

theorem twoArticles_inWords : twoArticles.layout.InWords :=
  FileLayout.inWords_of_lt (by decide) (by decide) (by decide)

def twoPayloads : Payloads twoArticles where
  payload id := if id = "a" then [7] else [8]
  length_eq := by decide

/-- A request for the first byte and one for both, with one byte kept behind the playhead. -/
def twoRequests : Bool → Request
  | false => ⟨0, 0, 0, some ⟨0, 1, 1⟩⟩
  | true => ⟨0, 1, 0, some ⟨0, 1, 1⟩⟩

abbrev twoBodies : World Bool → Act Bool → Option (World Bool) :=
  World.step64 twoArticles twoRequests

/-- The second body from the start, or from the check of a segment, to the end of its read. -/
def serveOne (data : List UInt8) : List (Act Bool) :=
  [.fg true {}, .fg true { answer := .decoded data }, .fg true {}, .fg true {}, .fg true {}]

/-- The second body serves the first byte and looks whether to evict. -/
def serveFirst : List (Act Bool) :=
  [.fg true {}, .fg true {}] ++ serveOne [7] ++ [.fg true {}, .fg true {}, .fg true {}]

/-- It serves the second byte and is about to punch out the first. -/
def serveBoth : List (Act Bool) :=
  serveFirst ++ serveOne [8] ++ [.fg true {}, .fg true {}]

/-- A decidable form of `Payloads.Serves`. -/
def servesB {ι : Type} (s : World ι) (a : Act ι) : Bool :=
  match s.asked twoArticles a with
  | some (_, seg, .decoded data) => data = [] ∨ data = twoPayloads.payload seg.messageId
  | _ => true

theorem serves_of_b {ι : Type} {s : World ι} {a : Act ι} (h : servesB s a = true) :
    twoPayloads.Serves s a := by
  intro idx seg data ha
  rw [servesB, ha] at h
  exact of_decide_eq_true h

/-- **A punched byte is yielded**: the first body checks the first byte, the second body punches
it out, and the first body reads it. -/
theorem punched_byte_yielded :
    ∃ s, twoArticles.layout.Built ∧ twoArticles.layout.InWords ∧
      Reaches twoBodies (fun s a => twoPayloads.Serves s a)
        (.init (.openOrCreate (fun _ => 0) 2)) s ∧
      (s.bodies false).yielded = [[0]] ∧
      ¬ (s.bodies false).Served twoPayloads (twoRequests false) := by
  obtain ⟨s, hs, hp⟩ := exists_of_exec twoBodies servesB (fun _ _ => serves_of_b)
    (.init (.openOrCreate (fun _ => 0) 2))
    (serveBoth ++ [.fg false {}, .fg false {}, .fg false {}, .fg true {}, .fg false {}])
    (fun s => (s.bodies false).yielded = [[0]]) rfl
  have hy : (s.bodies false).yielded = [[0]] := of_decide_eq_true hp
  refine ⟨s, twoArticles_built, twoArticles_inWords, hs, hy, fun h => ?_⟩
  have h0 := h 0 0 (by rw [hy]; rfl)
  have h7 : twoPayloads.videoByte 0 = some 7 := by decide
  rw [show (twoRequests false).start + 0 = 0 from rfl, h7] at h0
  cases h0

/-- The body is between two reads, and prefetches nothing. -/
def Body.restsB (b : Body) : Bool :=
  (match b.fg with
    | .ensuring _ _ _ | .reading _ _ _ => false
    | _ => true) && b.tasks.isEmpty

/-- A decidable condition that is enough for `World.Undisturbing`: both bodies rest when one
punches, and neither is about to clear when one checks. -/
def undisturbingB (s : World Bool) : Act Bool → Bool
  | .fg i _ => match (s.bodies i).fg with
    | .evicting _ _ (.punching _ _) => [false, true].all fun j => (s.bodies j).restsB
    | .drain _ => [false, true].all fun j => (s.bodies j).fg.clears = none
    | _ => true
  | _ => true

theorem Body.not_holds_of_restsB {x : Nat} (h : b.restsB = true) : ¬ b.Holds x := by
  obtain ⟨hf, ht⟩ := Bool.and_eq_true_iff.mp h
  rintro (⟨d, readEnd, readPos, hr, -⟩ | ⟨d, seg, e, he, -⟩ | ⟨i, e, hi, -⟩)
  · simp [hr] at hf
  · simp [he] at hf
  · rw [List.isEmpty_iff.mp ht] at hi
    cases hi

theorem undisturbing_of_b {s : World Bool} {a : Act Bool} (h : undisturbingB s a = true) :
    s.Undisturbing twoArticles Set.univ a := by
  have hall : ∀ {p : Bool → Bool}, [false, true].all p = true → ∀ j, p j = true :=
    fun hp j => List.all_eq_true.mp hp j (by cases j <;> decide)
  refine ⟨fun i inp d p start stop ha hf _ j x _ _ _ => ?_,
    fun i inp d k seg ha hf _ _ _ x _ _ _ hx => ?_⟩
  · subst ha
    simp only [undisturbingB, hf] at h
    exact Body.not_holds_of_restsB (hall h j)
  · subst ha
    simp only [undisturbingB, hf] at h
    obtain ⟨j, start, stop, hj, -⟩ := hx
    have := of_decide_eq_true (hall h j)
    rw [hj] at this
    cases this

/-- The first body from its start to its end, its byte cached. -/
def serveCached : List (Act Bool) :=
  List.replicate 9 (.fg false {})

/-- **A punch that disturbs nobody**: the first body has ended when the second one punches out the
byte they both have read, and every byte yielded is true. -/
theorem both_served_around_punch :
    ∃ s, (s.bodies true).yielded = [[7], [8]] ∧ (s.bodies false).yielded = [[7]] ∧
      s.cache.file 0 = 0 ∧ s.cache.hasRange 0 1 = false ∧ s.cache.lastEvictedTo = 1 ∧
      Reaches twoBodies (fun s a => twoPayloads.Serves s a ∧ s.Undisturbing twoArticles Set.univ a)
        (.init (.openOrCreate (fun _ => 0) 2)) s ∧
      ∀ i, (s.bodies i).Served twoPayloads (twoRequests i) := by
  obtain ⟨s, hs, hp⟩ := exists_of_exec twoBodies (fun s a => servesB s a && undisturbingB s a)
    (fun _ _ h => (Bool.and_eq_true_iff.mp h).imp serves_of_b undisturbing_of_b)
    (.init (.openOrCreate (fun _ => 0) 2))
    (serveFirst ++ serveCached ++ serveOne [8] ++ List.replicate 8 (.fg true {}))
    (fun s => (s.bodies true).yielded = [[7], [8]] ∧ (s.bodies false).yielded = [[7]] ∧
      s.cache.file 0 = 0 ∧ s.cache.hasRange 0 1 = false ∧ s.cache.lastEvictedTo = 1) rfl
  obtain ⟨h1, h2, h3, h4, h5⟩ := of_decide_eq_true hp
  exact ⟨s, h1, h2, h3, h4, h5, hs, bodies_served twoArticles_built twoArticles_inWords
    (by decide) (fun x hx => absurd hx (PopulatedRanges.not_mem_bytes_new x)) hs⟩

end StremioNzb.Streaming

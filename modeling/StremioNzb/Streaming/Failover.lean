import StremioNzb.Lib.Asking
import StremioNzb.Lib.Runs
import StremioNzb.Streaming.Preflight
import StremioNzb.Streaming.Steps

/-!
# Failover between servers

`ensure_segment_cached` as one call (`ensureSegmentCached`), over what each server answers and
what becomes of the write; with nothing in between it is a run of the pipeline's `Ensure`
(`ensure_reaches`). The servers are documented to be asked in index order behind the preferred
one (`indexOrder`). The code swaps the preferred one with the first, and this is the index order
up to the second server only (`failsOver_iff`).
-/

namespace StremioNzb.Streaming

open StremioNzb.Lib

/-! ## The code -/

/-- What the file system makes of a write. -/
inductive WriteOutcome where
  | done
  /-- It fails with that many bytes written. -/
  | failed (error : String) (written : Nat)
  deriving DecidableEq, Repr

/-- `write_at`, with nothing in between. -/
def CachedFile.writeAt (c : CachedFile) (offset : Nat) (bytes : List UInt8) (io : WriteOutcome) :
    CachedFile × Except String Unit :=
  match c.checkWrite offset bytes with
  | .error e => (c, .error e)
  | .ok none => (c, .ok ())
  | .ok (some stop) =>
    match io with
    | .done => ((c.writeFile offset bytes).markPopulated offset stop, .ok ())
    | .failed e written => (c.writeFile offset (bytes.take written), .error e)

/-- A call of `ensure_segment_cached`: the servers it has asked, the cache file it leaves and
what it returns. -/
structure EnsureCall where
  asked : List Nat
  cache : CachedFile
  result : Except String Unit

def EnsureCall.ask (call : EnsureCall) (idx : Nat) : EnsureCall :=
  { call with asked := idx :: call.asked }

def ensureSegmentCached (serverCount : Nat) (seg : SegmentRef) (answers : Nat → Answer)
    (io : WriteOutcome) (c : CachedFile) : EnsureCall :=
  if serverCount = 0 then ⟨[], c, .error "no NNTP servers configured"⟩
  else go (serverOrder serverCount seg.serverIndex) none
where
  go : List Nat → Option String → EnsureCall
    | [], lastErr =>
      ⟨[], c, .error (lastErr.getD s!"no NNTP servers available for {seg.messageId}")⟩
    | idx :: rest, _ =>
      match answers idx with
      | .fetchError e => (go rest (some e)).ask idx
      | .decodeError e => (go rest (some s!"yEnc decode failed: {e}")).ask idx
      | .decoded data =>
        if data.isEmpty then (go rest (some s!"decoded segment {seg.messageId} empty")).ask idx
        else
          let toWrite := if data.length > seg.bytes then data.take seg.bytes else data
          let (c', r) := c.writeAt seg.offsetInStream toWrite io
          ⟨[idx], c', r⟩

/-- `fetch_with_failover` with the servers it asks. -/
def askedWithFailover {α : Type} (serverCount : Nat) (fetchArticle : Nat → Except String α)
    (preferred : Nat) : List Nat × Except String (Nat × α) :=
  if serverCount = 0 then ([], .error "no NNTP servers configured")
  else go (serverOrder serverCount preferred) none
where
  go : List Nat → Option String → List Nat × Except String (Nat × α)
    | [], lastErr => ([], .error (lastErr.getD "all servers failed"))
    | idx :: rest, _ => match fetchArticle idx with
      | .ok bytes => ([idx], .ok (idx, bytes))
      | .error e => (idx :: (go rest (some e)).1, (go rest (some e)).2)

/-! ## What is documented -/

/-- The payload of an answer, where it is a good one. -/
def Answer.payload : Answer → Option (List UInt8)
  | .decoded data => if data.isEmpty then none else some data
  | _ => none

/-- The server has sent the article. -/
def Answer.fetched : Answer → Except String Unit
  | .fetchError e => .error e
  | _ => .ok ()

/-- The preferred server, clamped to the list, and the others in index order. -/
def indexOrder (serverCount serverIndex : Nat) : List Nat :=
  let preferred := min serverIndex (serverCount - 1)
  preferred :: (List.range serverCount).filter (· ≠ preferred)

section
variable (serverCount : Nat) (seg : SegmentRef) (answers : Nat → Answer) (io : WriteOutcome)
  (c : CachedFile)

/-- The first good payload in the documented order. -/
def firstPayload : Option (List UInt8) :=
  (indexOrder serverCount seg.serverIndex).findSome? fun idx => (answers idx).payload

/-- The call does what is documented. -/
structure FailsOver : Prop where
  asked : (ensureSegmentCached serverCount seg answers io c).asked =
    askUntil (fun idx => (answers idx).payload.isSome) (indexOrder serverCount seg.serverIndex)
  once : (ensureSegmentCached serverCount seg answers io c).asked.Nodup
  cached : ∀ data, firstPayload serverCount seg answers = some data →
    ((ensureSegmentCached serverCount seg answers io c).cache,
      (ensureSegmentCached serverCount seg answers io c).result) =
        c.writeAt seg.offsetInStream (data.take seg.bytes) io
  error_iff : (∃ e, (ensureSegmentCached serverCount seg answers io c).result = .error e) ↔
    (∀ idx < serverCount, (answers idx).payload = none) ∨
      ∃ data, firstPayload serverCount seg answers = some data ∧
        ∃ e, (c.writeAt seg.offsetInStream (data.take seg.bytes) io).2 = .error e
  unchanged : ∀ e, (ensureSegmentCached serverCount seg answers io c).result = .error e →
    (ensureSegmentCached serverCount seg answers io c).cache.file = c.file ∧
      (ensureSegmentCached serverCount seg answers io c).cache.populated = c.populated
  failover : (askedWithFailover serverCount (fun idx => (answers idx).fetched)
      seg.serverIndex).1 =
    askUntil (fun idx => (answers idx).fetched.toBool) (indexOrder serverCount seg.serverIndex)

/-- The write of the first good payload fails after a byte of the file has changed. -/
def Torn : Prop :=
  ∃ data e written b, firstPayload serverCount seg answers = some data ∧
    io = .failed e written ∧ data.take seg.bytes ≠ [] ∧
    seg.offsetInStream + (data.take seg.bytes).length ≤ c.totalSize ∧
    seg.offsetInStream ≤ b ∧
    b < seg.offsetInStream + ((data.take seg.bytes).take written).length ∧
    (data.take seg.bytes).getD (b - seg.offsetInStream) 0 ≠ c.file b

end

/-! ## The two orders -/

/-- The indices behind the first two. -/
theorem range_add_two (m : Nat) :
    List.range (m + 2) = 0 :: 1 :: (List.range m).map (· + 2) := by
  rw [List.range_succ_eq_map, List.range_succ_eq_map, List.map_cons, List.map_map]
  rfl

/-- The swap gives the index order where the preferred server is one of the first two. -/
theorem serverOrder_eq {n s : Nat} (hn : 0 < n) (h : min s (n - 1) ≤ 1) :
    serverOrder n s = indexOrder n s := by
  have hlt : min s (n - 1) < n := by omega
  unfold serverOrder indexOrder
  generalize min s (n - 1) = p at h hlt
  match n, hn with
  | 1, _ =>
    obtain rfl : p = 0 := by omega
    rfl
  | m + 2, _ =>
    have hrest : ∀ q ≤ 1, ((List.range m).map (· + 2)).filter (· ≠ q) =
        (List.range m).map (· + 2) := by
      intro q hq
      refine List.filter_eq_self.mpr fun x hx => ?_
      obtain ⟨y, -, rfl⟩ := List.mem_map.mp hx
      simp only [decide_eq_true_eq]
      omega
    have hp : p = 0 ∨ p = 1 := by omega
    simp only [range_add_two]
    rcases hp with rfl | rfl
    · rw [List.filter_cons_of_neg (by decide), List.filter_cons_of_pos (by decide),
        hrest 0 (by omega)]
      rfl
    · rw [List.filter_cons_of_pos (by decide), List.filter_cons_of_neg (by decide),
        hrest 1 (by omega)]
      rfl

/-- Another preferred server changes places with server 0, and server 1 comes second. -/
theorem orders_of_two_le {n s : Nat} (h : 2 ≤ min s (n - 1)) :
    ∃ rest rest', serverOrder n s = min s (n - 1) :: 1 :: rest ∧
      indexOrder n s = min s (n - 1) :: 0 :: rest' := by
  unfold serverOrder indexOrder
  generalize hp : min s (n - 1) = p at h
  obtain ⟨m, rfl⟩ : ∃ m, n = m + 2 := ⟨n - 2, by omega⟩
  obtain ⟨q, rfl⟩ : ∃ q, p = q + 2 := ⟨p - 2, by omega⟩
  simp only [range_add_two]
  rw [List.filter_cons_of_pos (by simp)]
  exact ⟨_, _, rfl, rfl⟩

theorem mem_indexOrder {n s idx : Nat} (hn : 0 < n) : idx ∈ indexOrder n s ↔ idx < n := by
  simp only [indexOrder, List.mem_cons, List.mem_filter, List.mem_range, decide_eq_true_eq]
  omega

theorem nodup_indexOrder (n s : Nat) : (indexOrder n s).Nodup := by
  refine List.nodup_cons.mpr ⟨fun h => ?_, List.nodup_range.filter _⟩
  simpa using (List.mem_filter.mp h).2

/-! ## The two walks -/

section
variable {seg : SegmentRef} {answers : Nat → Answer} {io : WriteOutcome} {c : CachedFile}

theorem askedWithFailover_go {α : Type} (fetchArticle : Nat → Except String α) :
    ∀ (order : List Nat) (lastErr : Option String),
      (askedWithFailover.go fetchArticle order lastErr).1 =
        askUntil (fun idx => (fetchArticle idx).toBool) order ∧
      (askedWithFailover.go fetchArticle order lastErr).2 =
        fetchWithFailover.go fetchArticle order lastErr
  | [], _ => ⟨rfl, rfl⟩
  | idx :: rest, _ => by
    unfold askedWithFailover.go fetchWithFailover.go askUntil
    cases h : fetchArticle idx with
    | ok bytes => exact ⟨rfl, rfl⟩
    | error e =>
      obtain ⟨h1, h2⟩ := askedWithFailover_go fetchArticle rest (some e)
      exact ⟨congrArg (idx :: ·) h1, h2⟩

/-- The servers asked are those of `fetch_with_failover`. -/
theorem askedWithFailover_result {α : Type} (n : Nat) (fetchArticle : Nat → Except String α)
    (s : Nat) : (askedWithFailover n fetchArticle s).2 = fetchWithFailover n fetchArticle s := by
  unfold askedWithFailover fetchWithFailover
  split
  · rfl
  · exact (askedWithFailover_go fetchArticle _ _).2

theorem ensure_go_of_none {idx : Nat} {rest : List Nat} (h : (answers idx).payload = none)
    (lastErr : Option String) :
    ∃ err, ensureSegmentCached.go seg answers io c (idx :: rest) lastErr =
      (ensureSegmentCached.go seg answers io c rest err).ask idx := by
  cases ha : answers idx with
  | fetchError e =>
    refine ⟨some e, ?_⟩
    rw [ensureSegmentCached.go, ha]
  | decodeError e =>
    refine ⟨some s!"yEnc decode failed: {e}", ?_⟩
    rw [ensureSegmentCached.go, ha]
  | decoded data =>
    rw [ha, Answer.payload] at h
    split at h
    · next he =>
      refine ⟨some s!"decoded segment {seg.messageId} empty", ?_⟩
      rw [ensureSegmentCached.go, ha]
      exact if_pos he
    · cases h

theorem ensure_go_of_some {idx : Nat} {rest : List Nat} {data : List UInt8}
    (h : (answers idx).payload = some data) (lastErr : Option String) :
    ensureSegmentCached.go seg answers io c (idx :: rest) lastErr =
      ⟨[idx], (c.writeAt seg.offsetInStream (data.take seg.bytes) io).1,
        (c.writeAt seg.offsetInStream (data.take seg.bytes) io).2⟩ := by
  unfold ensureSegmentCached.go
  cases ha : answers idx with
  | fetchError e =>
    rw [ha] at h
    cases h
  | decodeError e =>
    rw [ha] at h
    cases h
  | decoded data' =>
    rw [ha, Answer.payload] at h
    split at h
    · cases h
    · next he =>
      cases h
      have htake : (if data.length > seg.bytes then data.take seg.bytes else data) =
          data.take seg.bytes := by
        split
        · rfl
        · exact (List.take_of_length_le (by omega)).symm
      simp only
      rw [if_neg he, htake]

/-- The loop asks until a good payload comes and writes that one. -/
theorem ensure_go (seg : SegmentRef) (answers : Nat → Answer) (io : WriteOutcome)
    (c : CachedFile) : ∀ (order : List Nat) (lastErr : Option String),
      (ensureSegmentCached.go seg answers io c order lastErr).asked =
        askUntil (fun idx => (answers idx).payload.isSome) order ∧
      (order.findSome? (fun idx => (answers idx).payload) = none →
        (ensureSegmentCached.go seg answers io c order lastErr).cache = c ∧
          ∃ e, (ensureSegmentCached.go seg answers io c order lastErr).result = .error e) ∧
      ∀ data, order.findSome? (fun idx => (answers idx).payload) = some data →
        ((ensureSegmentCached.go seg answers io c order lastErr).cache,
          (ensureSegmentCached.go seg answers io c order lastErr).result) =
            c.writeAt seg.offsetInStream (data.take seg.bytes) io
  | [], _ => ⟨rfl, fun _ => ⟨rfl, _, rfl⟩, fun _ h => nomatch h⟩
  | idx :: rest, lastErr => by
    rw [List.findSome?_cons]
    cases hp : (answers idx).payload with
    | none =>
      obtain ⟨err, heq⟩ := @ensure_go_of_none seg answers io c idx rest hp lastErr
      obtain ⟨h1, h2⟩ := ensure_go seg answers io c rest err
      rw [heq, askUntil_cons_of_neg (by simp [hp])]
      exact ⟨congrArg (idx :: ·) h1, h2⟩
    | some data =>
      rw [ensure_go_of_some hp, askUntil_cons_of_pos (by simp [hp])]
      refine ⟨rfl, fun h => ?_, fun data' h => ?_⟩
      · cases h
      · cases h
        rfl

theorem writeAt_error {offset : Nat} {bytes : List UInt8} {e : String}
    (h : (c.writeAt offset bytes io).2 = .error e) :
    (c.writeAt offset bytes io).1 = c ∨ ∃ e written, io = .failed e written ∧ bytes ≠ [] ∧
      offset + bytes.length ≤ c.totalSize ∧
      (c.writeAt offset bytes io).1 = c.writeFile offset (bytes.take written) := by
  unfold CachedFile.writeAt at h ⊢
  cases hw : c.checkWrite offset bytes with
  | error m => exact .inl rfl
  | ok r =>
    cases r with
    | none => exact .inl rfl
    | some stop =>
      rw [hw] at h
      obtain ⟨hne, hle⟩ := CachedFile.checkWrite_some hw
      cases io with
      | done => cases h
      | failed m written => exact .inr ⟨m, written, rfl, hne, hle, rfl⟩

theorem writeAt_failed {offset : Nat} {bytes : List UInt8} {e : String} {written : Nat}
    (hne : bytes ≠ []) (hle : offset + bytes.length ≤ c.totalSize) :
    c.writeAt offset bytes (.failed e written) =
      (c.writeFile offset (bytes.take written), .error e) := by
  have hcheck : c.checkWrite offset bytes = .ok (some (offset + bytes.length)) := by
    unfold CachedFile.checkWrite
    rw [if_neg (by simpa using hne)]
    exact if_neg (by omega)
  rw [CachedFile.writeAt, hcheck]

end

section
variable {n : Nat} {seg : SegmentRef} {answers : Nat → Answer} {io : WriteOutcome} {c : CachedFile}

theorem ensureSegmentCached_eq (hn : 0 < n) :
    ensureSegmentCached n seg answers io c =
      ensureSegmentCached.go seg answers io c (serverOrder n seg.serverIndex) none :=
  if_neg (by omega)

/-- There is a first payload unless no server has one. -/
theorem firstPayload_eq_none (hn : 0 < n) :
    firstPayload n seg answers = none ↔ ∀ idx < n, (answers idx).payload = none := by
  rw [firstPayload, List.findSome?_eq_none_iff]
  exact forall_congr' fun idx => imp_congr_left (mem_indexOrder hn)

section
variable (hn : 0 < n)
  (hfirst : (serverOrder n seg.serverIndex).findSome? (fun idx => (answers idx).payload) =
    firstPayload n seg answers)
include hn hfirst

/-- Without a payload the call fails and leaves the cache file. -/
theorem ensure_of_none (hp : firstPayload n seg answers = none) :
    (ensureSegmentCached n seg answers io c).cache = c ∧
      ∃ e, (ensureSegmentCached n seg answers io c).result = .error e := by
  rw [ensureSegmentCached_eq hn]
  exact (ensure_go seg answers io c _ none).2.1 (hfirst.trans hp)

/-- The call writes the first payload. -/
theorem ensure_of_some {data : List UInt8} (hp : firstPayload n seg answers = some data) :
    ((ensureSegmentCached n seg answers io c).cache,
      (ensureSegmentCached n seg answers io c).result) =
        c.writeAt seg.offsetInStream (data.take seg.bytes) io := by
  rw [ensureSegmentCached_eq hn]
  exact (ensure_go seg answers io c _ none).2.2 data (hfirst.trans hp)

theorem ensure_error_iff : (∃ e, (ensureSegmentCached n seg answers io c).result = .error e) ↔
    (∀ idx < n, (answers idx).payload = none) ∨
      ∃ data, firstPayload n seg answers = some data ∧
        ∃ e, (c.writeAt seg.offsetInStream (data.take seg.bytes) io).2 = .error e := by
  rw [← firstPayload_eq_none hn]
  cases hp : firstPayload n seg answers with
  | none => exact iff_of_true (ensure_of_none hn hfirst hp).2 (.inl rfl)
  | some data =>
    have hres : (ensureSegmentCached n seg answers io c).result =
        (c.writeAt seg.offsetInStream (data.take seg.bytes) io).2 :=
      congrArg Prod.snd (ensure_of_some hn hfirst hp)
    rw [hres]
    constructor
    · exact fun he => .inr ⟨data, rfl, he⟩
    · rintro (hnone | ⟨_, heq, he⟩)
      · cases hnone
      · cases heq
        exact he

theorem ensure_unchanged (htorn : ¬ Torn n seg answers io c) {e : String}
    (he : (ensureSegmentCached n seg answers io c).result = .error e) :
    (ensureSegmentCached n seg answers io c).cache.file = c.file ∧
      (ensureSegmentCached n seg answers io c).cache.populated = c.populated := by
  cases hp : firstPayload n seg answers with
  | none =>
    rw [(ensure_of_none hn hfirst hp).1]
    exact ⟨rfl, rfl⟩
  | some data =>
    have hpair := @ensure_of_some n seg answers io c hn hfirst data hp
    have hcache := congrArg Prod.fst hpair
    have hres := congrArg Prod.snd hpair
    simp only at hcache hres
    rw [hcache]
    rw [hres] at he
    rcases writeAt_error he with hsame | ⟨m, written, hio, hne, hle, hwrote⟩
    · rw [hsame]
      exact ⟨rfl, rfl⟩
    · rw [hwrote]
      refine ⟨funext fun b => ?_, rfl⟩
      by_cases hb : seg.offsetInStream ≤ b ∧
          b < seg.offsetInStream + ((data.take seg.bytes).take written).length
      · -- what was written is what stood there
        rw [CachedFile.writeFile_in hb.1 hb.2, CachedFile.getD_take hb.1 hb.2]
        refine Classical.byContradiction fun hdiff => htorn ?_
        exact ⟨data, m, written, b, hp, hio, hne, hle, hb.1, hb.2, hdiff⟩
      · exact CachedFile.writeFile_out hb

/-- Where both orders ask the same servers and come to the same payload, the call does what is
documented. -/
theorem failsOver_of_orders
    (hasked : askUntil (fun idx => (answers idx).payload.isSome) (serverOrder n seg.serverIndex) =
      askUntil (fun idx => (answers idx).payload.isSome) (indexOrder n seg.serverIndex))
    (hfetched : askUntil (fun idx => (answers idx).fetched.toBool) (serverOrder n seg.serverIndex) =
      askUntil (fun idx => (answers idx).fetched.toBool) (indexOrder n seg.serverIndex))
    (htorn : ¬ Torn n seg answers io c) : FailsOver n seg answers io c := by
  have hwalk : (ensureSegmentCached n seg answers io c).asked =
      askUntil (fun idx => (answers idx).payload.isSome) (indexOrder n seg.serverIndex) := by
    rw [ensureSegmentCached_eq hn, (ensure_go seg answers io c _ none).1, hasked]
  have hgo := (askedWithFailover_go (fun idx => (answers idx).fetched)
    (serverOrder n seg.serverIndex) none).1
  refine ⟨hwalk, ?_, fun data hp => ensure_of_some hn hfirst hp, ensure_error_iff hn hfirst,
    fun e he => ensure_unchanged hn hfirst htorn he, ?_⟩
  · rw [hwalk]
    exact (nodup_indexOrder n _).sublist (askUntil_initial _ _).sublist
  · rw [askedWithFailover, if_neg (by omega), hgo, hfetched]

end

/-- **Failover is as documented exactly when** the preferred server is one of the first two or
has a good payload, and no write fails halfway. -/
theorem failsOver_iff (n : Nat) (seg : SegmentRef) (answers : Nat → Answer) (io : WriteOutcome)
    (c : CachedFile) (hn : 0 < n) : FailsOver n seg answers io c ↔
      (min seg.serverIndex (n - 1) ≤ 1 ∨
        (answers (min seg.serverIndex (n - 1))).payload.isSome) ∧
      ¬ Torn n seg answers io c := by
  constructor
  · intro h
    constructor
    · by_cases hp : min seg.serverIndex (n - 1) ≤ 1
      · exact .inl hp
      · obtain ⟨rest, rest', horder, hindex⟩ :=
          @orders_of_two_le n seg.serverIndex (by omega)
        have hasked := h.asked
        rw [ensureSegmentCached, if_neg (by omega), (ensure_go seg answers io c _ _).1, horder,
          hindex] at hasked
        exact .inr ((askUntil_eq_iff (p := fun idx => (answers idx).payload.isSome)
          Nat.one_ne_zero).mp hasked)
    · rintro ⟨data, e, written, b, hp, rfl, hne, hle, hb1, hb2, hdiff⟩
      have hpair := h.cached data hp
      rw [writeAt_failed hne hle] at hpair
      have hcache := congrArg Prod.fst hpair
      simp only at hcache
      have hfile := (h.unchanged e (congrArg Prod.snd hpair)).1
      rw [hcache] at hfile
      have hbyte := congrFun hfile b
      rw [CachedFile.writeFile_in hb1 hb2, CachedFile.getD_take hb1 hb2] at hbyte
      exact hdiff hbyte
  · rintro ⟨hp, htorn⟩
    by_cases hle : min seg.serverIndex (n - 1) ≤ 1
    · have horder := serverOrder_eq hn hle
      exact failsOver_of_orders hn (by rw [horder]; rfl) (by rw [horder]) (by rw [horder]) htorn
    · -- the preferred server comes first in both orders
      have hgood := hp.resolve_left hle
      obtain ⟨rest, rest', horder, hindex⟩ := @orders_of_two_le n seg.serverIndex (by omega)
      have hfetched :
          (answers (min seg.serverIndex (n - 1))).fetched.toBool := by
        cases ha : answers (min seg.serverIndex (n - 1)) with
        | fetchError e =>
          rw [ha] at hgood
          cases hgood
        | decodeError e => rfl
        | decoded data => rfl
      obtain ⟨data, hdata⟩ := Option.isSome_iff_exists.mp hgood
      refine failsOver_of_orders hn ?_ ?_ ?_ htorn
      · simp only [firstPayload, horder, hindex, List.findSome?_cons, hdata]
      · rw [horder, hindex]
        exact (askUntil_eq_iff Nat.one_ne_zero).mpr hgood
      · rw [horder, hindex]
        exact (askUntil_eq_iff Nat.one_ne_zero).mpr hfetched

end

/-- A segment of one byte that prefers that server. -/
def oneByteFrom (serverIndex : Nat) : SegmentRef := ⟨serverIndex, "a@b", 1, 0⟩

/-- The last of three servers has nothing. -/
def lastFails : Nat → Answer
  | 0 => .decoded [7]
  | 1 => .decoded [8]
  | _ => .fetchError "430"

theorem failsOver_iff_first_server :
    FailsOver 3 (oneByteFrom 0) lastFails .done (.openOrCreate (fun _ => 0) 1) ↔
      (min 0 (3 - 1) ≤ 1 ∨ (lastFails (min 0 (3 - 1))).payload.isSome) ∧
        ¬ Torn 3 (oneByteFrom 0) lastFails .done (.openOrCreate (fun _ => 0) 1) :=
  failsOver_iff 3 (oneByteFrom 0) lastFails .done _ (by decide)

/-- Where the last of three servers fails, server 1 is asked before server 0. -/
theorem last_server_skips_first :
    ¬ FailsOver 3 (oneByteFrom 2) lastFails .done (.openOrCreate (fun _ => 0) 1) := by
  intro h
  have hasked := h.asked
  revert hasked
  decide

/-! ## The call and the pipeline -/

/-- The call in the pipeline, with nothing in between and the servers answering so. -/
def Ensure.alone (seg : SegmentRef) (answers : Nat → Answer) (s : CachedFile × Ensure) (_ : Unit) :
    Option (CachedFile × Ensure) :=
  s.2.step seg s.1 (match s.2 with
    | .fetching (idx :: _) _ => answers idx
    | _ => .fetchError "")

theorem ensure_reaches_go {seg : SegmentRef} {answers : Nat → Answer} {c : CachedFile}
    {s : CachedFile × Ensure} : ∀ (order : List Nat) (lastErr : Option String),
      Reaches (Ensure.alone seg answers) (fun _ _ => True) s (c, .fetching order lastErr) →
      Reaches (Ensure.alone seg answers) (fun _ _ => True) s
        ((ensureSegmentCached.go seg answers .done c order lastErr).cache,
          .returned (ensureSegmentCached.go seg answers .done c order lastErr).result)
  | [], lastErr, h => h.snoc (a := ()) trivial rfl
  | idx :: rest, lastErr, h => by
    rw [ensureSegmentCached.go]
    cases ha : answers idx with
    | fetchError e =>
      apply ensure_reaches_go rest (some e)
      exact h.snoc (a := ()) trivial (by simp [Ensure.alone, Ensure.step, ha])
    | decodeError e =>
      apply ensure_reaches_go rest (some s!"yEnc decode failed: {e}")
      exact h.snoc (a := ()) trivial (by simp [Ensure.alone, Ensure.step, ha])
    | decoded data =>
      by_cases hd : data.isEmpty
      · simp only [if_pos hd]
        apply ensure_reaches_go rest (some s!"decoded segment {seg.messageId} empty")
        exact h.snoc (a := ()) trivial (by simp [Ensure.alone, Ensure.step, ha, hd])
      · simp only [if_neg hd, CachedFile.writeAt]
        generalize hw : (if data.length > seg.bytes then data.take seg.bytes else data) = toWrite
        cases hc : c.checkWrite seg.offsetInStream toWrite with
        | error m =>
          exact h.snoc (a := ()) trivial (by simp [Ensure.alone, Ensure.step, ha, hd, hw, hc])
        | ok r =>
          cases r with
          | none =>
            exact h.snoc (a := ()) trivial (by simp [Ensure.alone, Ensure.step, ha, hd, hw, hc])
          | some stop =>
            -- the write goes in its halves
            have hwriting := h.snoc (a := ()) (u := (c, .writing toWrite)) trivial
              (by simp [Ensure.alone, Ensure.step, ha, hd, hw, hc])
            have hmarking := hwriting.snoc (a := ()) trivial rfl
            obtain rfl := CachedFile.checkWrite_stop hc
            exact hmarking.snoc (a := ()) trivial rfl

/-- **A call that nothing interrupts** ends as the pipeline's does. -/
theorem ensure_reaches (n : Nat) (seg : SegmentRef) (answers : Nat → Answer) (c : CachedFile) :
    Reaches (Ensure.alone seg answers) (fun _ _ => True) (c, .begin n seg)
      ((ensureSegmentCached n seg answers .done c).cache,
        .returned (ensureSegmentCached n seg answers .done c).result) := by
  unfold Ensure.begin ensureSegmentCached
  split
  · exact .refl _
  · exact ensure_reaches_go _ _ (.refl _)

/-! ## The smoke fetch of preflight -/

namespace Net
variable (net : Net)

/-- What playback makes of what a server sends. -/
def answer (messageId : String) (idx : Nat) : Answer :=
  match net.fetchArticle idx messageId with
  | .error e => .fetchError e
  | .ok raw =>
    match net.decodeYenc raw with
    | .error e => .decodeError e
    | .ok decoded => .decoded decoded.data

/-- What playback does with the article of a segment. -/
def play (seg : SegmentRef) (io : WriteOutcome) (c : CachedFile) : EnsureCall :=
  ensureSegmentCached net.serverCount seg (net.answer seg.messageId) io c

/-- The smoke fetch of a segment's article accepts it exactly when playback finds a good payload,
and that is the one playback writes, of the server playback asks last. -/
structure SmokeAgrees (seg : SegmentRef) (smoke : Except PreflightError Decoded) : Prop where
  accepts_iff : ∀ io c, (∃ decoded, smoke = .ok decoded) ↔
    ∃ idx ∈ (net.play seg io c).asked, (net.answer seg.messageId idx).payload.isSome
  same : ∀ io c decoded, smoke = .ok decoded → ∃ idx raw,
    fetchWithFailover net.serverCount (net.fetchArticle · seg.messageId) seg.serverIndex =
        .ok (idx, raw) ∧
      net.decodeYenc raw = .ok decoded ∧
      (net.play seg io c).asked.getLast? = some idx ∧
      ((net.play seg io c).cache, (net.play seg io c).result) =
        c.writeAt seg.offsetInStream (decoded.data.take seg.bytes) io

/-- No server has a good payload, or the first one that sends the article has. -/
def FirstSentIsGood (seg : SegmentRef) : Prop :=
  (∀ idx < net.serverCount, (net.answer seg.messageId idx).payload = none) ∨
    ∃ idx, (serverOrder net.serverCount seg.serverIndex).find?
        (fun idx => (net.fetchArticle idx seg.messageId).toBool) = some idx ∧
      (net.answer seg.messageId idx).payload.isSome

variable {net} {seg : SegmentRef}

theorem fetchWithFailover_go_ok {α : Type} {fetchArticle : Nat → Except String α} {r : Nat × α} :
    ∀ {order : List Nat} {lastErr : Option String},
      fetchWithFailover.go fetchArticle order lastErr = .ok r ↔
        order.find? (fun idx => (fetchArticle idx).toBool) = some r.1 ∧ fetchArticle r.1 = .ok r.2
  | [], _ => by
    constructor
    · intro h
      cases h
    · rintro ⟨h, -⟩
      cases h
  | idx :: rest, _ => by
    rw [fetchWithFailover.go, List.find?_cons]
    cases h : fetchArticle idx with
    | ok bytes =>
      constructor
      · intro heq
        cases heq
        exact ⟨rfl, h⟩
      · rintro ⟨heq, hr⟩
        obtain rfl : idx = r.1 := Option.some.inj heq
        rw [h] at hr
        rw [Except.ok.inj hr]
    | error e => exact fetchWithFailover_go_ok

theorem firstArticle_ok {serverIndex : Nat} {messageId : String} {decoded : Decoded} :
    net.firstArticle serverIndex messageId = .ok decoded ↔ ∃ idx raw,
      fetchWithFailover net.serverCount (net.fetchArticle · messageId) serverIndex =
        .ok (idx, raw) ∧ net.decodeYenc raw = .ok decoded ∧ decoded.data ≠ [] := by
  constructor
  · intro h
    obtain ⟨⟨idx, raw⟩, hraw, h⟩ := bind_eq_ok.mp h
    obtain ⟨d, hd, h⟩ := bind_eq_ok.mp h
    refine ⟨idx, raw, mapError_eq_ok.mp hraw, ?_⟩
    split at h
    · cases h
    · next hne =>
      cases h
      exact ⟨mapError_eq_ok.mp hd, by simpa using hne⟩
  · rintro ⟨idx, raw, hraw, hd, hne⟩
    refine bind_eq_ok.mpr ⟨(idx, raw), mapError_eq_ok.mpr hraw, ?_⟩
    refine bind_eq_ok.mpr ⟨decoded, mapError_eq_ok.mpr hd, ?_⟩
    rw [if_neg (by simpa using hne)]
    rfl

theorem payload_answer {messageId : String} {idx : Nat} {data : List UInt8} :
    (net.answer messageId idx).payload = some data ↔ ∃ raw decoded,
      net.fetchArticle idx messageId = .ok raw ∧ net.decodeYenc raw = .ok decoded ∧
        decoded.data = data ∧ data ≠ [] := by
  unfold answer
  cases hraw : net.fetchArticle idx messageId with
  | error e => simp [Answer.payload]
  | ok raw =>
    cases hd : net.decodeYenc raw with
    | error e => simp [Answer.payload, hd]
    | ok decoded =>
      simp only [Answer.payload, Except.ok.injEq, exists_and_left, exists_eq_left', hd]
      split
      · next he =>
        constructor
        · intro h
          cases h
        · rintro ⟨rfl, hne⟩
          exact absurd (List.isEmpty_iff.mp he) hne
      · next he =>
        constructor
        · intro h
          cases h
          exact ⟨rfl, fun h => he (List.isEmpty_iff.mpr h)⟩
        · rintro ⟨rfl, -⟩
          rfl

theorem asked_play (hn : 0 < net.serverCount) (io : WriteOutcome) (c : CachedFile) :
    (net.play seg io c).asked = askUntil
      (fun idx => (net.answer seg.messageId idx).payload.isSome)
      (serverOrder net.serverCount seg.serverIndex) := by
  rw [play, ensureSegmentCached, if_neg (by omega)]
  exact (ensure_go seg _ io c _ none).1

/-- What the smoke fetch accepts is a good payload of the first server that sends the article. -/
theorem firstArticle_sent {decoded : Decoded}
    (h : net.firstArticle seg.serverIndex seg.messageId = .ok decoded) :
    ∃ idx, (serverOrder net.serverCount seg.serverIndex).find?
        (fun idx => (net.fetchArticle idx seg.messageId).toBool) = some idx ∧
      (net.answer seg.messageId idx).payload.isSome := by
  obtain ⟨idx, raw, hfetch, hd, hne⟩ := firstArticle_ok.mp h
  unfold fetchWithFailover at hfetch
  split at hfetch
  · cases hfetch
  · obtain ⟨hfind, hraw⟩ := fetchWithFailover_go_ok.mp hfetch
    refine ⟨idx, hfind, ?_⟩
    rw [payload_answer.mpr ⟨raw, decoded, hraw, hd, rfl, hne⟩]
    rfl

/-- Where that one's payload is good, playback gets to it and to no other. -/
theorem smokeAgrees_of_sent {idx : Nat} (hfind : (serverOrder net.serverCount seg.serverIndex).find?
      (fun idx => (net.fetchArticle idx seg.messageId).toBool) = some idx)
    (hgood : (net.answer seg.messageId idx).payload.isSome) :
    net.SmokeAgrees seg (net.firstArticle seg.serverIndex seg.messageId) := by
  obtain ⟨data, hdata⟩ := Option.isSome_iff_exists.mp hgood
  obtain ⟨raw, decoded, hraw, hd, rfl, hne⟩ := payload_answer.mp hdata
  obtain ⟨-, before, after, horder, hbefore⟩ := List.find?_eq_some_iff_append.mp hfind
  have hn : 0 < net.serverCount :=
    Nat.zero_lt_of_lt (lt_of_mem_serverOrder (List.mem_of_find?_eq_some hfind))
  -- who has not sent the article has no good payload
  have hnone : ∀ k ∈ before, (net.answer seg.messageId k).payload = none := by
    intro k hk
    refine Option.eq_none_iff_forall_ne_some.mpr fun data' h => ?_
    obtain ⟨raw', -, hraw', -⟩ := payload_answer.mp h
    have := hbefore k hk
    rw [hraw'] at this
    cases this
  have hasked : ∀ io c, (net.play seg io c).asked = before ++ [idx] := by
    intro io c
    rw [asked_play hn, horder]
    exact askUntil_append (fun k hk => by rw [hnone k hk]; decide) hgood
  have hfetch : fetchWithFailover net.serverCount (net.fetchArticle · seg.messageId)
      seg.serverIndex = .ok (idx, raw) := by
    rw [fetchWithFailover, if_neg (by omega)]
    exact fetchWithFailover_go_ok.mpr ⟨hfind, hraw⟩
  have hsmoke : net.firstArticle seg.serverIndex seg.messageId = .ok decoded :=
    firstArticle_ok.mpr ⟨idx, raw, hfetch, hd, hne⟩
  refine ⟨fun io c => iff_of_true ⟨decoded, hsmoke⟩ ⟨idx, ?_, hgood⟩, fun io c d hok => ?_⟩
  · rw [hasked]
    simp
  · obtain rfl : decoded = d := Except.ok.inj (hsmoke.symm.trans hok)
    refine ⟨idx, raw, hfetch, hd, by rw [hasked]; simp, ?_⟩
    have hfirst : (serverOrder net.serverCount seg.serverIndex).findSome?
        (fun k => (net.answer seg.messageId k).payload) = some decoded.data := by
      rw [horder, List.findSome?_append, List.findSome?_eq_none_iff.mpr hnone, List.findSome?_cons,
        hdata]
      rfl
    have hgo := (ensure_go seg (net.answer seg.messageId) io c
      (serverOrder net.serverCount seg.serverIndex) none).2.2 decoded.data hfirst
    rwa [← show net.play seg io c = _ from if_neg (by omega)] at hgo

/-- **The smoke fetch agrees with playback exactly when** no server has a good payload or the
first one that sends the article has. -/
theorem firstArticle_agrees_iff (net : Net) (seg : SegmentRef) :
    net.SmokeAgrees seg (net.firstArticle seg.serverIndex seg.messageId) ↔
      net.FirstSentIsGood seg := by
  constructor
  · intro h
    by_cases hall : ∀ idx < net.serverCount, (net.answer seg.messageId idx).payload = none
    · exact .inl hall
    · obtain ⟨idx, hidx⟩ := Classical.not_forall.mp hall
      obtain ⟨hlt, hgood⟩ := Classical.not_imp.mp hidx
      have hasked : ∃ idx ∈ (net.play seg .done (.openOrCreate (fun _ => 0) 0)).asked,
          (net.answer seg.messageId idx).payload.isSome := by
        rw [asked_play (by omega)]
        exact exists_mem_askUntil ⟨idx, mem_serverOrder hlt, Option.isSome_iff_ne_none.mpr hgood⟩
      obtain ⟨decoded, hok⟩ := (h.accepts_iff _ _).mpr hasked
      exact .inr (firstArticle_sent hok)
  · rintro (hall | ⟨idx, hfind, hgood⟩)
    · have hno : ∀ decoded, net.firstArticle seg.serverIndex seg.messageId ≠ .ok decoded := by
        intro decoded hok
        obtain ⟨idx, hfind, hgood⟩ := firstArticle_sent hok
        rw [hall idx (lt_of_mem_serverOrder (List.mem_of_find?_eq_some hfind))] at hgood
        cases hgood
      refine ⟨fun io c => iff_of_false ?_ ?_, fun io c d hok => absurd hok (hno d)⟩
      · rintro ⟨decoded, hok⟩
        exact hno decoded hok
      · rintro ⟨idx, hmem, hgood⟩
        have hn : 0 < net.serverCount := by
          rw [play, ensureSegmentCached] at hmem
          split at hmem
          · cases hmem
          · omega
        rw [asked_play hn] at hmem
        rw [hall idx (lt_of_mem_serverOrder ((askUntil_initial _ _).subset hmem))] at hgood
        cases hgood
    · exact smokeAgrees_of_sent hfind hgood

/-- **Preflight accepts an article as playback would exactly when** no server has a good payload
or the first one that sends the article has: for the first segment of a flat file, and for the
first article of a volume. -/
theorem smoke_agrees_iff (net : Net) (seg : SegmentRef) :
    (net.SmokeAgrees seg (net.firstArticle seg.serverIndex seg.messageId) ↔
      net.FirstSentIsGood seg) ∧
    ∀ volIdx v first, minByKey (·.number) v.segments = some first →
      seg.messageId = first.messageId → seg.serverIndex = 0 →
        (net.SmokeAgrees seg (net.volumeFirst volIdx v) ↔ net.FirstSentIsGood seg) := by
  refine ⟨firstArticle_agrees_iff net seg, fun volIdx v first hfirst hid hidx => ?_⟩
  rw [volumeFirst, hfirst]
  simp only
  rw [← hid, ← hidx]
  exact firstArticle_agrees_iff net seg


/-- The first of two servers sends a copy that does not decode. -/
def badFirstCopy : Net where
  serverCount := 2
  fetchNzbXml _ := .ok ""
  parseNzb _ := .ok ⟨[⟨none, false, false, 1, [⟨1, 1, "a@b"⟩]⟩], []⟩
  fetchArticle idx _ := .ok (if idx = 0 then [0] else [1])
  redactLog := id
  decodeYenc raw := if raw = [0] then .error "CRC mismatch" else .ok ⟨[7], some 1⟩
  parseAllHeaders _ _ := .ok []
  classes := ⟨Char.isDigit, Char.isAlphanum⟩
  root := "cache"
  openFile _ := .ok fun _ => 0

/-- **One bad copy rejects a candidate** that playback would have fetched from the other server. -/
theorem bad_copy_rejects :
    ¬ badFirstCopy.SmokeAgrees (oneByteFrom 0) (badFirstCopy.firstArticle 0 "a@b") ∧
      (badFirstCopy.probeCandidateInner "url" "token").map (fun _ => ()) =
        .error (.decode "CRC mismatch") := by
  refine ⟨fun h => ?_, rfl⟩
  have hfinds : ∃ idx ∈
      (badFirstCopy.play (oneByteFrom 0) .done (.openOrCreate (fun _ => 0) 1)).asked,
      (badFirstCopy.answer "a@b" idx).payload.isSome := ⟨1, by decide, by decide⟩
  obtain ⟨decoded, hok⟩ := (h.accepts_iff .done (.openOrCreate (fun _ => 0) 1)).mpr hfinds
  cases hok

end Net

end StremioNzb.Streaming

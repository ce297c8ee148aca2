import StremioNzb.Lib.Runs
import StremioNzb.Streaming.DiskCache

/-!
# Concurrent calls on one cache file

Any number of `write_at` and `evict_range` calls on one `CachedFile`, each stopped between its
two halves while others go on. `log` records what happened to the file, newest first, so
`lastEvent` is the last write or punch of a byte.

The bookkeeping is coherent when every byte reported populated was written last, not punched
(`Coherent`). An eviction that punches a byte and clears its bookkeeping between the two halves
of a write of that byte leaves a hole marked as populated (`hole_marked_populated`). Nothing
else does: if no write marks a byte that a finished eviction has punched since, the bookkeeping
is coherent whenever no call is in progress (`coherent_of_settled`).
-/

namespace StremioNzb.Streaming

open StremioNzb.Lib

inductive FileEvent where
  | wrote (offset : Nat) (bytes : List UInt8)
  | punched (start stop : Nat)
  deriving DecidableEq, Repr

namespace FileEvent

def covers (b : Nat) : FileEvent → Bool
  | wrote offset bytes => offset ≤ b ∧ b < offset + bytes.length
  | punched start stop => start ≤ b ∧ b < stop

/-- What the event left at byte `b`. -/
def value (b : Nat) : FileEvent → UInt8
  | wrote offset bytes => bytes.getD (b - offset) 0
  | punched _ _ => 0

def isWrite : FileEvent → Bool
  | wrote _ _ => true
  | punched _ _ => false

variable {b offset start stop : Nat} {bytes : List UInt8}

@[simp] theorem covers_wrote :
    (wrote offset bytes).covers b = true ↔ offset ≤ b ∧ b < offset + bytes.length :=
  decide_eq_true_iff

@[simp] theorem covers_punched : (punched start stop).covers b = true ↔ start ≤ b ∧ b < stop :=
  decide_eq_true_iff

end FileEvent

/-- A call to make. -/
inductive Op where
  | write (offset : Nat) (bytes : List UInt8)
  | evict (start stop : Nat)

/-- Where a call stands. -/
inductive Call where
  | todo (op : Op)
  /-- The bytes are in the file, the insertion is to come. -/
  | marking (start stop : Nat)
  /-- The hole is punched, the removal is to come. -/
  | clearing (start stop : Nat)
  | returned (result : Except String Unit)

def Call.midway : Call → Bool
  | marking _ _ | clearing _ _ => true
  | _ => false

structure CallState (ι : Type) where
  cache : CachedFile
  calls : ι → Call
  log : List FileEvent

namespace CallState

variable {ι : Type} [DecidableEq ι]

def setCall (s : CallState ι) (i : ι) (c : Call) : CallState ι :=
  { s with calls := fun j => if j = i then c else s.calls j }

def writeHalf (s : CallState ι) (i : ι) (offset : Nat) (bytes : List UInt8) (stop : Nat) :
    CallState ι :=
  { s.setCall i (.marking offset stop) with
    cache := s.cache.writeFile offset bytes, log := .wrote offset bytes :: s.log }

def markHalf (s : CallState ι) (i : ι) (start stop : Nat) : CallState ι :=
  { s.setCall i (.returned (.ok ())) with cache := s.cache.markPopulated start stop }

def punchHalf (s : CallState ι) (i : ι) (start stop : Nat) : CallState ι :=
  { s.setCall i (.clearing start stop) with
    cache := s.cache.punchHole start stop, log := .punched start stop :: s.log }

def clearHalf (s : CallState ι) (i : ι) (start stop : Nat) : CallState ι :=
  { s.setCall i (.returned (.ok ())) with cache := s.cache.clearPopulated start stop }

/-- Call `i` takes its next lock; `punched` is whether a hole punch succeeds. -/
def step (s : CallState ι) : ι × Bool → Option (CallState ι)
  | (i, punched) =>
    match s.calls i with
    | .todo (.write offset bytes) =>
      match s.cache.checkWrite offset bytes with
      | .error e => some (s.setCall i (.returned (.error e)))
      | .ok none => some (s.setCall i (.returned (.ok ())))
      | .ok (some stop) => some (s.writeHalf i offset bytes stop)
    | .marking start stop => some (s.markHalf i start stop)
    | .todo (.evict start stop) =>
      match s.cache.checkEvict start stop with
      | .error e => some (s.setCall i (.returned (.error e)))
      | .ok false => some (s.setCall i (.returned (.ok ())))
      | .ok true =>
        if punched then some (s.punchHalf i start stop)
        else some (s.setCall i (.returned (.error "fallocate PUNCH_HOLE")))
    | .clearing start stop => some (s.clearHalf i start stop)
    | .returned _ => none

/-- The calls `todo` on a freshly opened file. -/
def init (content : Nat → UInt8) (totalSize : Nat) (todo : ι → Op) : CallState ι :=
  ⟨.openOrCreate content totalSize, fun i => .todo (todo i), []⟩

/-- The last write or punch of a byte. -/
def lastEvent (s : CallState ι) (b : Nat) : Option FileEvent := s.log.find? (·.covers b)

/-- The byte was written, and not punched since. -/
def Written (s : CallState ι) (b : Nat) : Prop := ∃ e, s.lastEvent b = some e ∧ e.isWrite = true

/-- An eviction has punched the byte and has yet to clear its bookkeeping. -/
def Clearing (s : CallState ι) (b : Nat) : Prop :=
  ∃ i start stop, s.calls i = .clearing start stop ∧ start ≤ b ∧ b < stop

def Quiet (s : CallState ι) : Prop := ∀ i, (s.calls i).midway = false

/-- Every byte reported populated holds the value of its last write, with no punch since. -/
def Coherent (s : CallState ι) : Prop :=
  ∀ b start stop, start ≤ b → b < stop → s.cache.hasRange start stop = true →
    ∃ e, s.lastEvent b = some e ∧ e.isWrite = true ∧ s.cache.file b = e.value b

/-- No write marks a byte that a finished eviction has punched since it was written. -/
def Settled (s : CallState ι) (a : ι × Bool) : Prop :=
  ∀ start stop, s.calls a.1 = .marking start stop →
    ∀ b, start ≤ b → b < stop → s.Written b ∨ s.Clearing b

/-! ## What a step does -/

/-- The possible effects of a step of call `i`. -/
inductive Effect (s : CallState ι) (i : ι) : CallState ι → Prop where
  | returned (r : Except String Unit) : (s.calls i).midway = false →
      Effect s i (s.setCall i (.returned r))
  | wrote (offset : Nat) (bytes : List UInt8) (stop : Nat) : (s.calls i).midway = false →
      Effect s i (s.writeHalf i offset bytes stop)
  | marked (start stop : Nat) : s.calls i = .marking start stop →
      Effect s i (s.markHalf i start stop)
  | punched (start stop : Nat) : (s.calls i).midway = false →
      Effect s i (s.punchHalf i start stop)
  | cleared (start stop : Nat) : s.calls i = .clearing start stop →
      Effect s i (s.clearHalf i start stop)

variable {s s' : CallState ι} {i j : ι} {b : Nat} {p : Bool}

theorem step_effect (h : s.step (i, p) = some s') : Effect s i s' := by
  simp only [step] at h
  split at h
  · next hc =>
    have hm : (s.calls i).midway = false := by rw [hc]; rfl
    split at h <;> cases h
    · exact .returned _ hm
    · exact .returned _ hm
    · exact .wrote _ _ _ hm
  · next hc =>
    cases h
    exact .marked _ _ hc
  · next hc =>
    have hm : (s.calls i).midway = false := by rw [hc]; rfl
    split at h
    · cases h
      exact .returned _ hm
    · cases h
      exact .returned _ hm
    · split at h <;> cases h
      · exact .punched _ _ hm
      · exact .returned _ hm
  · next hc =>
    cases h
    exact .cleared _ _ hc
  · cases h

@[simp] theorem setCall_calls (c : Call) :
    (s.setCall i c).calls j = if j = i then c else s.calls j := rfl

omit [DecidableEq ι] in
theorem lastEvent_cons {e : FileEvent} (h : s'.log = e :: s.log) :
    s'.lastEvent b = if e.covers b then some e else s.lastEvent b := by
  rw [lastEvent, h, List.find?_cons]
  cases e.covers b <;> rfl

omit [DecidableEq ι] in
/-- A write keeps the written bytes written. -/
theorem Written.of_wrote {offset : Nat} {bytes : List UInt8}
    (h : s'.log = .wrote offset bytes :: s.log) (hb : s.Written b) : s'.Written b := by
  unfold Written
  rw [lastEvent_cons h]
  split
  · exact ⟨_, rfl, rfl⟩
  · exact hb

/-- A removal that call `i` does not have pending stays pending. -/
theorem Clearing.of_setCall {c : Call} (hi : ∀ start stop, s.calls i ≠ .clearing start stop)
    (h : s.Clearing b) : (s.setCall i c).Clearing b := by
  obtain ⟨j, start, stop, hj, hb⟩ := h
  have hne : j ≠ i := fun e => hi start stop (e ▸ hj)
  exact ⟨j, start, stop, by simp [hne, hj], hb⟩

omit [DecidableEq ι] in
theorem not_clearing_of_midway (h : (s.calls i).midway = false) (start stop : Nat) :
    s.calls i ≠ .clearing start stop := fun e => by rw [e] at h; cases h

/-! ## The invariant -/

structure Inv (s : CallState ι) : Prop where
  value : ∀ b e, s.lastEvent b = some e → s.cache.file b = e.value b
  populated : ∀ b, s.cache.Has b → s.Written b ∨ s.Clearing b

omit [DecidableEq ι] in
theorem inv_init (content : Nat → UInt8) (totalSize : Nat) (todo : ι → Op) :
    Inv (init content totalSize todo) :=
  ⟨fun _ _ h => by simp [init, lastEvent] at h,
   fun b h => absurd h (PopulatedRanges.not_mem_bytes_new b)⟩

theorem inv_writeHalf {offset stop : Nat} {bytes : List UInt8} (h : Inv s)
    (hm : (s.calls i).midway = false) : Inv (s.writeHalf i offset bytes stop) := by
  have hlog : (s.writeHalf i offset bytes stop).log = .wrote offset bytes :: s.log := rfl
  refine ⟨fun b e he => ?_, fun b hb => ?_⟩
  · rw [lastEvent_cons hlog] at he
    split at he
    · next hc =>
      cases he
      obtain ⟨h1, h2⟩ := FileEvent.covers_wrote.mp hc
      exact CachedFile.writeFile_in h1 h2
    · next hc =>
      exact (CachedFile.writeFile_out (mt FileEvent.covers_wrote.mpr hc)).trans (h.value b e he)
  · exact (h.populated b hb).imp (.of_wrote hlog) (.of_setCall (not_clearing_of_midway hm))

theorem inv_markHalf {start stop : Nat} (h : Inv s) (hc : s.calls i = .marking start stop)
    (hok : ∀ b, start ≤ b → b < stop → s.Written b ∨ s.Clearing b) :
    Inv (s.markHalf i start stop) := by
  refine ⟨h.value, fun b hb => ?_⟩
  have hw : s.Written b ∨ s.Clearing b :=
    (CachedFile.markPopulated_has.mp hb).elim (h.populated b) fun hb => hok b hb.1 hb.2
  exact hw.imp_right (.of_setCall fun start' stop' e => by rw [hc] at e; cases e)

theorem inv_punchHalf {start stop : Nat} (h : Inv s) (hm : (s.calls i).midway = false) :
    Inv (s.punchHalf i start stop) := by
  have hlog : (s.punchHalf i start stop).log = .punched start stop :: s.log := rfl
  refine ⟨fun b e he => ?_, fun b hb => ?_⟩
  · rw [lastEvent_cons hlog] at he
    split at he
    · next hc =>
      cases he
      exact if_pos (FileEvent.covers_punched.mp hc)
    · next hc =>
      exact (CachedFile.punchHole_out (mt FileEvent.covers_punched.mpr hc)).trans (h.value b e he)
  · by_cases hr : start ≤ b ∧ b < stop
    · -- the eviction that punched the byte has its removal pending
      exact .inr ⟨i, start, stop, by simp [punchHalf], hr⟩
    · refine (h.populated b hb).imp (fun hw => ?_) (.of_setCall (not_clearing_of_midway hm))
      unfold Written
      rw [lastEvent_cons hlog, if_neg (mt FileEvent.covers_punched.mp hr)]
      exact hw

theorem inv_clearHalf {start stop : Nat} (h : Inv s) (hc : s.calls i = .clearing start stop) :
    Inv (s.clearHalf i start stop) := by
  refine ⟨h.value, fun b hb => ?_⟩
  obtain ⟨hb, hout⟩ := CachedFile.clearPopulated_has.mp hb
  refine (h.populated b hb).imp_right fun ⟨j, start', stop', hj, hr⟩ => ?_
  have hne : j ≠ i := by
    rintro rfl
    obtain ⟨rfl, rfl⟩ : start = start' ∧ stop = stop' := by simpa [hc] using hj
    exact hout hr
  exact ⟨j, start', stop', by simp [clearHalf, hne, hj], hr⟩

theorem inv_step (h : Inv s) (hok : s.Settled (i, p)) (hs : s.step (i, p) = some s') : Inv s' := by
  cases step_effect hs with
  | returned r hm =>
    exact ⟨h.value, fun b hb =>
      (h.populated b hb).imp_right (.of_setCall (not_clearing_of_midway hm))⟩
  | wrote offset bytes stop hm => exact inv_writeHalf h hm
  | marked start stop hc => exact inv_markHalf h hc (hok start stop hc)
  | punched start stop hm => exact inv_punchHalf h hm
  | cleared start stop hc => exact inv_clearHalf h hc

theorem inv_reaches {content : Nat → UInt8} {totalSize : Nat} {todo : ι → Op}
    (h : Reaches step Settled (init content totalSize todo) s) : Inv s :=
  h.inv (inv_init content totalSize todo) fun _ _ _ hi hok hs => inv_step hi hok hs

omit [DecidableEq ι] in
/-- With no removal pending every populated byte was written last. -/
theorem Inv.coherent (h : Inv s) (hq : s.Quiet) : s.Coherent := by
  intro b start stop h1 h2 hr
  rcases h.populated b (CachedFile.hasRange_iff.mp hr b h1 h2) with ⟨e, he, hw⟩ | ⟨i, _, _, hi, -⟩
  · exact ⟨e, he, hw, h.value b e he⟩
  · exact absurd hi (not_clearing_of_midway (hq i) _ _)

/-- **The bookkeeping is coherent between calls** in every run in which no write marks a byte
that a finished eviction has punched since it was written. -/
theorem coherent_of_settled {content : Nat → UInt8} {totalSize : Nat} {todo : ι → Op}
    (h : Reaches step Settled (init content totalSize todo) s) (hq : s.Quiet) : s.Coherent :=
  (inv_reaches h).coherent hq

/-! ## A write and an eviction of one byte -/

/-- A write and an eviction of byte `0`. -/
def raced : Bool → Op
  | false => .write 0 [7]
  | true => .evict 0 1

/-- **A hole marked as populated**: the eviction runs between the two halves of the write. -/
theorem hole_marked_populated :
    ∃ s, Reaches step (fun _ _ => True) (init (fun _ => 0) 1 raced) s ∧ s.Quiet ∧
      ¬ s.Coherent := by
  refine ⟨_, reaches_of_exec (fun _ _ _ => trivial)
    (rfl : exec step (fun _ _ => true) (init (fun _ => 0) 1 raced)
      [(false, true), (true, true), (true, true), (false, true)] = some _), ?_, ?_⟩
  · intro i
    cases i <;> rfl
  · intro h
    obtain ⟨e, he, hw, -⟩ := h 0 0 1 (by decide) (by decide) (by decide)
    cases he
    cases hw

/-- A write of two bytes and an eviction of the first. -/
def overlapped : Bool → Op
  | false => .write 0 [7, 8]
  | true => .evict 0 1

/-- The eviction punches between the two halves of the write, which ends before it does: the byte
that is kept holds what was written. -/
theorem coherent_overlapped :
    ∃ s, Reaches step Settled (init (fun _ => 0) 2 overlapped) s ∧
      s.cache.hasRange 0 1 = false ∧ s.cache.hasRange 1 2 = true ∧ s.Coherent := by
  have h1 : Reaches step Settled (init (fun _ => 0) 2 overlapped) _ :=
    .snoc (.refl _) (a := (false, true)) (by intro start stop h; cases h) rfl
  have h2 := h1.snoc (a := (true, true)) (by intro start stop h; cases h) rfl
  have h3 := h2.snoc (a := (false, true)) (by
    intro start stop h b hb1 hb2
    cases h
    have hb : b < 2 := hb2
    obtain rfl | rfl : b = 0 ∨ b = 1 := by omega
    · exact .inr ⟨true, 0, 1, rfl, by decide⟩
    · exact .inl ⟨_, rfl, rfl⟩) rfl
  have h4 := h3.snoc (a := (true, true)) (by intro start stop h; cases h) rfl
  exact ⟨_, h4, by decide, by decide, coherent_of_settled h4 fun i => by cases i <;> rfl⟩

end CallState

end StremioNzb.Streaming

import Mathlib.Algebra.Ring.Nat
import Mathlib.Logic.Function.Basic
import Mathlib.Order.Lattice
import StremioNzb.Lib.Runs

/-!
# The ban list

`ip_ban.rs`: too many failures of one address within a window start a ban. `Tally` is what the
calls are for, a function of the times of that address's failures alone; `Tracks` says how far
the lazily pruned state of the code agrees with it, and `run_tracks` that it does after every
run in which no `is_banned` call throws counted failures away.
-/

namespace StremioNzb.Addon

open StremioNzb.Lib

structure BanConfig where
  failureThreshold : UInt32
  window : Nat
  banDuration : Nat

def BanConfig.enabled (cfg : BanConfig) : Bool := cfg.failureThreshold > 0

structure IpState where
  failures : List Nat
  bannedUntil : Option Nat
  deriving DecidableEq, Repr

def IpState.default : IpState := ⟨[], none⟩

variable {ι : Type} [DecidableEq ι]

/-- The map of the ban list. -/
abbrev BanList (ι : Type) := ι → Option IpState

inductive BanCall (ι : Type) where
  | isBanned (ip : ι)
  | recordFailure (ip : ι)

namespace BanList

/-- The answer, and the list afterwards. -/
def isBanned (cfg : BanConfig) (list : BanList ι) (now : Nat) (ip : ι) : Bool × BanList ι :=
  if !cfg.enabled then (false, list)
  else match list ip with
    | none => (false, list)
    | some entry => match entry.bannedUntil with
      | some until_ =>
        if now < until_ then (true, list)
        else (false, Function.update list ip (some ⟨[], none⟩))
      | none => (false, list)

/-- Whether this call started a ban, and the list afterwards. -/
def recordFailure (cfg : BanConfig) (list : BanList ι) (now : Nat) (ip : ι) : Bool × BanList ι :=
  if !cfg.enabled then (false, list)
  else
    let cutoff := if cfg.window ≤ now then now - cfg.window else now
    let entry := (list ip).getD .default
    if entry.bannedUntil.any (now < ·) then (false, Function.update list ip (some entry))
    else
      let failures := entry.failures.filter (cutoff ≤ ·) ++ [now]
      if failures.length % 2 ^ 32 ≥ cfg.failureThreshold.toNat then
        (true, Function.update list ip (some ⟨[], some (now + cfg.banDuration)⟩))
      else (false, Function.update list ip (some ⟨failures, entry.bannedUntil⟩))

def call (cfg : BanConfig) (list : BanList ι) (now : Nat) : BanCall ι → Bool × BanList ι
  | .isBanned ip => list.isBanned cfg now ip
  | .recordFailure ip => list.recordFailure cfg now ip

end BanList

/-! ## What the calls are for -/

/-- What the failures of one address come to: the start of its last ban, and the failures
since, those during a ban left out. -/
structure Tally where
  lastBan : Option Nat
  counted : List Nat

namespace Tally

def banned (cfg : BanConfig) (y : Tally) (now : Nat) : Bool :=
  y.lastBan.any fun start => now < start + cfg.banDuration

/-- Whether a failure now is the one too many. -/
def startsBan (cfg : BanConfig) (y : Tally) (now : Nat) : Bool :=
  !y.banned cfg now &&
    cfg.failureThreshold.toNat ≤
      (y.counted.filter fun x => now - cfg.window ≤ x ∧ x ≤ now).length + 1

def record (cfg : BanConfig) (y : Tally) (now : Nat) : Tally :=
  if y.banned cfg now then y
  else if y.startsBan cfg now then ⟨some now, []⟩
  else ⟨y.lastBan, now :: y.counted⟩

end Tally

/-- The tally of failures at these times, newest first. -/
def tally (cfg : BanConfig) : List Nat → Tally
  | [] => ⟨none, []⟩
  | now :: earlier => (tally cfg earlier).record cfg now

/-- The times of the failures of `ip`. -/
def failuresOf (ip : ι) (calls : List (Nat × BanCall ι)) : List Nat :=
  calls.filterMap fun
    | (now, .recordFailure ip') => if ip' = ip then some now else none
    | (_, .isBanned _) => none

@[simp] theorem failuresOf_recordFailure (ip : ι) (now : Nat) (calls : List (Nat × BanCall ι)) :
    failuresOf ip ((now, .recordFailure ip) :: calls) = now :: failuresOf ip calls := by
  simp [failuresOf]

theorem failuresOf_of_ne {ip ip' : ι} (h : ip' ≠ ip) (now : Nat)
    (calls : List (Nat × BanCall ι)) :
    failuresOf ip' ((now, .recordFailure ip) :: calls) = failuresOf ip' calls := by
  simp [failuresOf, Ne.symm h]

/-- The answer that is due after the calls, newest first. -/
def dueAnswer (cfg : BanConfig) (calls : List (Nat × BanCall ι)) (now : Nat) : BanCall ι → Bool
  | .isBanned ip => (tally cfg (failuresOf ip calls)).banned cfg now
  | .recordFailure ip => (tally cfg (failuresOf ip calls)).startsBan cfg now

/-! ## Runs -/

structure BanState (ι : Type) where
  list : BanList ι
  /-- The time of the last call. -/
  clock : Nat

def BanState.new : BanState ι := ⟨fun _ => none, 0⟩

/-- The clock does not run backwards, and the start of the window can be represented. -/
def OnTime (cfg : BanConfig) (s : BanState ι) (a : Nat × BanCall ι) : Prop :=
  s.clock ≤ a.1 ∧ cfg.window ≤ a.1

/-- An `is_banned` call that finds an expired ban finds no failure since that is still in the
window. -/
def Spares (cfg : BanConfig) (s : BanState ι) (a : Nat × BanCall ι) : Prop :=
  ∀ ip entry until_, a.2 = .isBanned ip → s.list ip = some entry →
    entry.bannedUntil = some until_ → until_ ≤ a.1 → ∀ x ∈ entry.failures, x < a.1 - cfg.window

/-! ## The state against the tally -/

/-- The entry of an address holds its tally, up to failures that no later window reaches. -/
structure Tracks (cfg : BanConfig) (clock : Nat) (entry : IpState) (y : Tally) : Prop where
  banned : ∀ t, clock ≤ t → entry.bannedUntil.any (t < ·) = y.banned cfg t
  counted : ∀ lo, clock - cfg.window ≤ lo →
    (entry.failures.filter (lo ≤ ·)).length = (y.counted.filter (lo ≤ ·)).length
  recent : ∀ x ∈ y.counted, x ≤ clock
  few : entry.failures.length < cfg.failureThreshold.toNat

section
variable {cfg : BanConfig} {clock now : Nat} {entry : IpState} {y : Tally}

theorem enabled_iff : cfg.enabled = true ↔ 0 < cfg.failureThreshold.toNat := by
  simp [BanConfig.enabled, UInt32.lt_iff_toNat_lt]

theorem Tracks.new (h : 0 < cfg.failureThreshold.toNat) :
    Tracks cfg 0 .default (tally cfg []) :=
  ⟨fun _ _ => rfl, fun _ _ => rfl, by simp [tally], h⟩

theorem Tracks.mono (h : Tracks cfg clock entry y) (hle : clock ≤ now) :
    Tracks cfg now entry y :=
  ⟨fun t ht => h.banned t (hle.trans ht), fun lo hlo => h.counted lo (by omega),
    fun x hx => (h.recent x hx).trans hle, h.few⟩

/-- The window of the tally is what the code retains. -/
theorem Tracks.window_length (h : Tracks cfg now entry y) :
    (y.counted.filter fun x => now - cfg.window ≤ x ∧ x ≤ now).length =
      (entry.failures.filter (now - cfg.window ≤ ·)).length := by
  rw [h.counted _ le_rfl]
  congr 1
  apply List.filter_congr
  intro x hx
  simp [h.recent x hx]

theorem Tracks.startsBan (h : Tracks cfg now entry y) (hban : y.banned cfg now = false) :
    y.startsBan cfg now = decide (cfg.failureThreshold.toNat ≤
      (entry.failures.filter (now - cfg.window ≤ ·)).length + 1) := by
  rw [Tally.startsBan, hban, h.window_length]
  rfl

/-- The list is shorter than the threshold, so with one failure more its length fits a `u32`. -/
theorem Tracks.length_mod (h : Tracks cfg now entry y) :
    (entry.failures.filter (now - cfg.window ≤ ·) ++ [now]).length % 2 ^ 32 =
      (entry.failures.filter (now - cfg.window ≤ ·)).length + 1 := by
  have hle := List.length_filter_le (fun x => decide (now - cfg.window ≤ x)) entry.failures
  have hfew := h.few
  have hth := cfg.failureThreshold.toNat_lt
  rw [List.length_append, List.length_singleton]
  exact Nat.mod_eq_of_lt (by omega)

/-- A ban that starts now. -/
theorem Tracks.ban (hen : 0 < cfg.failureThreshold.toNat) :
    Tracks cfg now ⟨[], some (now + cfg.banDuration)⟩ ⟨some now, []⟩ :=
  ⟨fun _ _ => rfl, fun _ _ => rfl, by simp, hen⟩

/-- A failure that starts no ban. -/
theorem Tracks.count (h : Tracks cfg now entry y)
    (hs : ¬ cfg.failureThreshold.toNat ≤
      (entry.failures.filter (now - cfg.window ≤ ·)).length + 1) :
    Tracks cfg now
      ⟨entry.failures.filter (now - cfg.window ≤ ·) ++ [now], entry.bannedUntil⟩
      ⟨y.lastBan, now :: y.counted⟩ := by
  refine ⟨h.banned, fun lo hlo => ?_, fun x hx => ?_, ?_⟩
  · -- the retained failures hold every later window
    have hret : (entry.failures.filter (now - cfg.window ≤ ·)).filter (lo ≤ ·) =
        entry.failures.filter (lo ≤ ·) := by
      rw [List.filter_filter]
      apply List.filter_congr
      intro x _
      by_cases hx : lo ≤ x
      · simp [hx, hlo.trans hx]
      · simp [hx]
    rw [List.filter_append, hret, List.length_append, h.counted lo hlo, List.filter_cons,
      List.filter_cons]
    split <;> simp
  · rcases List.mem_cons.mp hx with rfl | hx
    · exact le_rfl
    · exact h.recent x hx
  · rw [List.length_append, List.length_singleton]
    exact not_le.mp hs

/-- The state of an address after a failure, and whether it started a ban. -/
theorem Tracks.recordFailure {list : BanList ι} {ip : ι} (hen : 0 < cfg.failureThreshold.toNat)
    (h : Tracks cfg now ((list ip).getD .default) y) (hw : cfg.window ≤ now) :
    (list.recordFailure cfg now ip).1 = y.startsBan cfg now ∧
      Tracks cfg now (((list.recordFailure cfg now ip).2 ip).getD .default)
        (y.record cfg now) := by
  have hb := h.banned now le_rfl
  unfold BanList.recordFailure
  rw [if_neg (by simp [enabled_iff.mpr hen])]
  simp only [if_pos hw]
  generalize (list ip).getD .default = entry at *
  by_cases hban : y.banned cfg now
  · rw [hban] at hb
    rw [if_pos hb]
    simp only [Function.update_self, Option.getD_some]
    refine ⟨by simp [Tally.startsBan, hban], ?_⟩
    rwa [Tally.record, if_pos hban]
  · simp only [Bool.not_eq_true] at hban
    rw [hban] at hb
    have hstart := h.startsBan hban
    rw [if_neg (by simp [hb]), h.length_mod]
    by_cases hs : cfg.failureThreshold.toNat ≤
        (entry.failures.filter (now - cfg.window ≤ ·)).length + 1
    · replace hstart := hstart.trans (decide_eq_true hs)
      rw [if_pos hs, Tally.record, if_neg (by simp [hban]), if_pos hstart]
      simp only [Function.update_self, Option.getD_some]
      exact ⟨hstart.symm, .ban hen⟩
    · replace hstart := hstart.trans (decide_eq_false hs)
      rw [if_neg hs, Tally.record, if_neg (by simp [hban]), if_neg (by simp [hstart])]
      simp only [Function.update_self, Option.getD_some]
      exact ⟨hstart.symm, h.count hs⟩

theorem isBanned_of_some {list : BanList ι} {ip : ι} {until_ : Nat}
    (hen : 0 < cfg.failureThreshold.toNat) (he : list ip = some entry)
    (hu : entry.bannedUntil = some until_) : list.isBanned cfg now ip =
      if now < until_ then (true, list)
      else (false, Function.update list ip (some ⟨[], none⟩)) := by
  simp [BanList.isBanned, enabled_iff.mpr hen, he, hu]

theorem isBanned_of_none {list : BanList ι} {ip : ι}
    (h : ((list ip).getD .default).bannedUntil = none) :
    list.isBanned cfg now ip = (false, list) := by
  unfold BanList.isBanned
  cases he : list ip with
  | none => simp
  | some entry =>
    rw [he, Option.getD_some] at h
    simp [h]

omit [DecidableEq ι] in
/-- An address that has a ban, expired or not. -/
theorem exists_bannedUntil {list : BanList ι} {ip : ι} {until_ : Nat}
    (h : ((list ip).getD .default).bannedUntil = some until_) :
    ∃ entry, list ip = some entry ∧ entry.bannedUntil = some until_ := by
  cases he : list ip with
  | none => simp [he, IpState.default] at h
  | some entry => exact ⟨entry, rfl, by rwa [he] at h⟩

theorem Tracks.isBanned_answer {list : BanList ι} {ip : ι}
    (hen : 0 < cfg.failureThreshold.toNat) (h : Tracks cfg now ((list ip).getD .default) y) :
    (list.isBanned cfg now ip).1 = y.banned cfg now := by
  have hb := h.banned now le_rfl
  cases hu : ((list ip).getD .default).bannedUntil with
  | none =>
    rw [isBanned_of_none hu]
    rwa [hu] at hb
  | some until_ =>
    obtain ⟨entry, he, hu'⟩ := exists_bannedUntil hu
    rw [isBanned_of_some hen he hu']
    rw [hu, Option.any_some] at hb
    by_cases hlt : now < until_
    · simpa [hlt] using hb
    · simpa [hlt] using hb

/-- The state of an address after `is_banned` was asked of it. -/
theorem Tracks.isBanned {list : BanList ι} {ip : ι} (hen : 0 < cfg.failureThreshold.toNat)
    (h : Tracks cfg now ((list ip).getD .default) y)
    (hs : ∀ entry until_, list ip = some entry → entry.bannedUntil = some until_ →
      until_ ≤ now → ∀ x ∈ entry.failures, x < now - cfg.window) :
    Tracks cfg now (((list.isBanned cfg now ip).2 ip).getD .default) y := by
  cases hu : ((list ip).getD .default).bannedUntil with
  | none => rwa [isBanned_of_none hu]
  | some until_ =>
    obtain ⟨entry, he, hu'⟩ := exists_bannedUntil hu
    rw [isBanned_of_some hen he hu']
    by_cases hlt : now < until_
    · rwa [if_pos hlt]
    · rw [if_neg hlt]
      simp only [Function.update_self, Option.getD_some]
      rw [he, Option.getD_some] at h
      refine ⟨fun t ht => ?_, fun lo hlo => ?_, h.recent, hen⟩
      · rw [← h.banned t ht, hu']
        simp only [Option.any_none, Option.any_some]
        exact (decide_eq_false (by omega)).symm
      · -- what is thrown away lies before every later window
        have hnil : entry.failures.filter (lo ≤ ·) = [] := by
          refine List.filter_eq_nil_iff.mpr fun x hx => ?_
          have := hs entry until_ he hu' (not_lt.mp hlt) x hx
          simp only [decide_eq_true_eq]
          omega
        rw [← h.counted lo hlo, hnil]
        rfl

end

/-! ## Other addresses -/

theorem recordFailure_of_ne (cfg : BanConfig) (list : BanList ι) (now : Nat) {ip ip' : ι}
    (h : ip' ≠ ip) : (list.recordFailure cfg now ip).2 ip' = list ip' := by
  unfold BanList.recordFailure
  simp only
  generalize (if cfg.window ≤ now then now - cfg.window else now) = cutoff
  split
  · rfl
  · split
    · exact Function.update_of_ne h _ _
    · split
      · exact Function.update_of_ne h _ _
      · exact Function.update_of_ne h _ _

theorem isBanned_of_ne (cfg : BanConfig) (list : BanList ι) (now : Nat) {ip ip' : ι}
    (h : ip' ≠ ip) : (list.isBanned cfg now ip).2 ip' = list ip' := by
  unfold BanList.isBanned
  split
  · rfl
  · split
    · rfl
    · split
      · split
        · rfl
        · exact Function.update_of_ne h _ _
      · rfl

/-! ## Runs keep the tally -/

/-- Every address holds its tally. -/
def Tallied (cfg : BanConfig) (s : BanState ι) (calls : List (Nat × BanCall ι)) : Prop :=
  ∀ ip, Tracks cfg s.clock ((s.list ip).getD .default) (tally cfg (failuresOf ip calls))

section
variable {cfg : BanConfig} {s t : BanState ι} {calls : List (Nat × BanCall ι)}
  {a : Nat × BanCall ι}

theorem Tallied.answer (hen : 0 < cfg.failureThreshold.toNat) (h : Tallied cfg s calls)
    (ht : OnTime cfg s a) : (s.list.call cfg a.1 a.2).1 = dueAnswer cfg calls a.1 a.2 := by
  obtain ⟨now, c⟩ := a
  cases c with
  | isBanned ip => exact ((h ip).mono ht.1).isBanned_answer hen
  | recordFailure ip => exact (((h ip).mono ht.1).recordFailure hen ht.2).1

/-- A call that spares the counted failures keeps the tallies. -/
theorem Tallied.step (hen : 0 < cfg.failureThreshold.toNat) (h : Tallied cfg s calls)
    (ht : OnTime cfg s a) (hs : Spares cfg s a) :
    Tallied cfg ⟨(s.list.call cfg a.1 a.2).2, a.1⟩ (a :: calls) := by
  obtain ⟨now, c⟩ := a
  have hnow := fun ip => (h ip).mono ht.1
  intro ip'
  cases c with
  | isBanned ip =>
    by_cases hne : ip' = ip
    · subst hne
      exact (hnow ip').isBanned hen fun entry until_ => hs ip' entry until_ rfl
    · have hkeep := isBanned_of_ne cfg s.list now hne
      simp only [BanList.call, hkeep]
      exact hnow ip'
  | recordFailure ip =>
    by_cases hne : ip' = ip
    · subst hne
      rw [failuresOf_recordFailure]
      exact ((hnow ip').recordFailure hen ht.2).2
    · have hkeep := recordFailure_of_ne cfg s.list now hne
      simp only [BanList.call, hkeep, failuresOf_of_ne hne]
      exact hnow ip'

/-- The calls of a run are on time and throw no counted failure away. -/
def Sparing (cfg : BanConfig) (s : BanState ι) (a : Nat × BanCall ι) : Prop :=
  OnTime cfg s a ∧ Spares cfg s a

/-- The failures of `ip` that the tally still counts at `now`. -/
def pending (cfg : BanConfig) (calls : List (Nat × BanCall ι)) (now : Nat) (ip : ι) : Nat :=
  ((tally cfg (failuresOf ip calls)).counted.filter fun x =>
    now - cfg.window ≤ x ∧ x ≤ now).length

end

end StremioNzb.Addon

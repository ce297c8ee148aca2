import Mathlib.Algebra.Order.BigOperators.Group.List
import Mathlib.Algebra.Order.Group.Nat
import StremioNzb.Lib.Collect
import StremioNzb.Streaming.Gc

/-!
# One pass of the collector

`run_once` with nothing in between: the steps of the collector from one rest to the next
(`IsPass`). It removes the idle sessions and then, in the order of their last access, sessions
that are not protected, as many as the cap asks for (`Collected`), by the windows cut to 64 bits.
That these are the windows configured asks for windows below 2^64 ms, or for a protect window
that no pass goes by (`gc_pass_iff`).
-/

namespace StremioNzb.Streaming

open StremioNzb.Lib

namespace Server
variable {τ ι : Type} [DecidableEq τ]

/-- Only the collector moves, and it does not begin another pass. -/
def Uninterrupted (s : Server τ ι) (a : Act τ ι) : Prop :=
  s.pass ≠ .resting ∧ ∃ order, a = .runOnce order

/-- A pass takes the state `s` to `t`. -/
def IsPass [DecidableEq ι] (cfg : GcConfig) (s t : Server τ ι) : Prop :=
  s.pass = .resting ∧ ∃ order u, s.runOnce cfg order = some u ∧
    Reaches (step cfg) Uninterrupted u t ∧ t.pass = .resting

/-! ## What a pass is for -/

section
variable (cfg : GcConfig) (s : Server τ ι)

/-- The session is idle when the pass starts. -/
def IdleLong (token : τ) : Prop := cfg.idleTimeout ≤ s.clock - s.lastAccess token

/-- The session was used just before the pass starts. -/
def Protected (token : τ) : Prop := s.clock - s.lastAccess token < cfg.protectWindow

/-- The pass has removed the idle sessions and `C`, the sessions evicted for the cap, in their
order. -/
structure Collected (C : List τ) (t : Server τ ι) : Prop where
  removed : ∀ x, x ∈ t.registry ↔ x ∈ s.registry ∧ ¬ s.IdleLong cfg x ∧ x ∉ C
  nodup : C.Nodup
  others : ∀ c ∈ C, c ∈ s.registry ∧ ¬ s.IdleLong cfg c
  unprotected : ∀ c ∈ C, ¬ s.Protected cfg c
  oldest : ∀ c ∈ C, ∀ u ∈ t.registry, ¬ s.Protected cfg u → s.lastAccess c ≤ s.lastAccess u
  enough : t.totalDiskBytes ≤ cfg.maxBytes ∨ ∀ u ∈ t.registry, s.Protected cfg u
  needed : ∀ C' c, C = C' ++ [c] → cfg.maxBytes < t.totalDiskBytes + s.fileBytes c
  files : t.files = s.files.filter fun f => f.1 ∉ s.registry ∨ f.1 ∈ t.registry
  rest : t.otherBytes = s.otherBytes ∧ t.sessions = s.sessions ∧ t.clock = s.clock

end

/-! ## How far a pass is -/

section
variable (cfg : GcConfig) (s₀ : Server τ ι)

/-- The sessions `R` have been removed and the files of `F` deleted. -/
structure Evicted (R F : List τ) (s : Server τ ι) : Prop where
  registry : s.registry = s₀.registry.filter (· ∉ R)
  files : s.files = s₀.files.filter (·.1 ∉ F)
  rest : s.otherBytes = s₀.otherBytes ∧ s.sessions = s₀.sessions ∧ s.clock = s₀.clock

/-- The idle sessions. -/
def Selected (E : List τ) : Prop := ∀ x, x ∈ E ↔ x ∈ s₀.registry ∧ s₀.IdleLong cfg x

/-- The sessions that may be evicted for the cap, the oldest first. -/
structure Candidates (E L : List τ) : Prop where
  mem : ∀ x, x ∈ L ↔ x ∈ s₀.registry ∧ x ∉ E ∧ ¬ s₀.Protected cfg x
  sorted : L.Pairwise fun x y => s₀.lastAccess x ≤ s₀.lastAccess y
  nodup : L.Nodup

/-- Disk usage without the files of `F`. -/
def usage (F : List τ) : Nat :=
  ((s₀.files.filter (·.1 ∉ F)).map (·.2)).sum + s₀.otherBytes

/-- Up to the last eviction the cap was exceeded. -/
def Needed (E C : List τ) : Prop := ∀ C' c, C = C' ++ [c] → cfg.maxBytes < s₀.usage (E ++ C')

/-- What holds while a pass runs. -/
def InPass (s : Server τ ι) : Prop :=
  match s.pass with
  | .resting => ∃ E C, Selected cfg s₀ E ∧ Evicted s₀ (E ++ C) (E ++ C) s ∧ Needed cfg s₀ E C ∧
      (C = [] ∧ s₀.usage (E ++ C) ≤ cfg.maxBytes ∨ ∃ todo, Candidates cfg s₀ E (C ++ todo) ∧
        (s₀.usage (E ++ C) ≤ cfg.maxBytes ∨ todo = []))
  | .started now => now = s₀.clock ∧ Evicted s₀ [] [] s
  | .idleEvict now todo => now = s₀.clock ∧
      ∃ done, Selected cfg s₀ (done ++ todo) ∧ Evicted s₀ done done s
  | .idleDelete now token todo => now = s₀.clock ∧
      ∃ done, Selected cfg s₀ (done ++ token :: todo) ∧ Evicted s₀ (done ++ [token]) done s
  | .measure now => now = s₀.clock ∧ ∃ E, Selected cfg s₀ E ∧ Evicted s₀ E E s
  | .collect now overBytes => now = s₀.clock ∧ ∃ E, Selected cfg s₀ E ∧ Evicted s₀ E E s ∧
      overBytes = s₀.usage E - cfg.maxBytes
  | .capEvict todo overBytes => ∃ E C, Selected cfg s₀ E ∧ Candidates cfg s₀ E (C ++ todo) ∧
      Evicted s₀ (E ++ C) (E ++ C) s ∧ Needed cfg s₀ E C ∧
      overBytes = s₀.usage (E ++ C) - cfg.maxBytes
  | .capRemove token bytes todo overBytes => ∃ E C, Selected cfg s₀ E ∧
      Candidates cfg s₀ E (C ++ token :: todo) ∧ Evicted s₀ (E ++ C) (E ++ C) s ∧
      bytes = s.fileBytes token ∧ overBytes = s₀.usage (E ++ C) - cfg.maxBytes ∧ 0 < overBytes
  | .capDelete token bytes todo overBytes => ∃ E C, Selected cfg s₀ E ∧
      Candidates cfg s₀ E (C ++ token :: todo) ∧ Evicted s₀ (E ++ C ++ [token]) (E ++ C) s ∧
      bytes = s.fileBytes token ∧ overBytes = s₀.usage (E ++ C) - cfg.maxBytes ∧ 0 < overBytes

end

/-! ## The steps of a pass -/

/-- The steps of a pass under way. -/
inductive Move (cfg : GcConfig) (s : Server τ ι) : Server τ ι → Prop where
  | scanned (now : Nat) (order : List τ) : s.pass = .started now → order.Perm s.registry →
      Move cfg s (s.goto (.idleEvict now (s.idleSessions cfg now order)))
  | idleDone (now : Nat) : s.pass = .idleEvict now [] → Move cfg s (s.goto (.measure now))
  | idleRemoved (now : Nat) (t : τ) (rest : List τ) : s.pass = .idleEvict now (t :: rest) →
      Move cfg s ((s.removeSession t).goto (.idleDelete now t rest))
  | idleDeleted (now : Nat) (t : τ) (rest : List τ) : s.pass = .idleDelete now t rest →
      Move cfg s ((s.removeFile t).goto (.idleEvict now rest))
  | below (now : Nat) : s.pass = .measure now → s.totalDiskBytes ≤ cfg.maxBytes →
      Move cfg s (s.goto .resting)
  | above (now : Nat) : s.pass = .measure now → cfg.maxBytes < s.totalDiskBytes →
      Move cfg s (s.goto (.collect now (s.totalDiskBytes - cfg.maxBytes)))
  | collected (now overBytes : Nat) (order : List τ) : s.pass = .collect now overBytes →
      order.Perm s.registry →
      Move cfg s (s.goto (.capEvict (s.candidates cfg now order) overBytes))
  | exhausted (overBytes : Nat) : s.pass = .capEvict [] overBytes → Move cfg s (s.goto .resting)
  | freed (t : τ) (rest : List τ) : s.pass = .capEvict (t :: rest) 0 →
      Move cfg s (s.goto .resting)
  | chosen (t : τ) (rest : List τ) (overBytes : Nat) : s.pass = .capEvict (t :: rest) overBytes →
      0 < overBytes → Move cfg s (s.goto (.capRemove t (s.fileBytes t) rest overBytes))
  | capRemoved (t : τ) (bytes : Nat) (rest : List τ) (overBytes : Nat) :
      s.pass = .capRemove t bytes rest overBytes →
      Move cfg s ((s.removeSession t).goto (.capDelete t bytes rest overBytes))
  | capDeleted (t : τ) (bytes : Nat) (rest : List τ) (overBytes : Nat) :
      s.pass = .capDelete t bytes rest overBytes →
      Move cfg s ((s.removeFile t).goto (.capEvict rest (overBytes - bytes)))

theorem runOnce_move {cfg : GcConfig} {s s' : Server τ ι} {order : List τ}
    (hne : s.pass ≠ .resting) (hs : s.runOnce cfg order = some s') : Move cfg s s' := by
  unfold runOnce at hs
  split at hs
  · next hp => exact absurd hp hne
  · next now hp =>
    split at hs
    · next hperm =>
      cases hs
      exact .scanned now order hp hperm
    · cases hs
  · next now hp =>
    cases hs
    exact .idleDone now hp
  · next now t rest hp =>
    cases hs
    exact .idleRemoved now t rest hp
  · next now t rest hp =>
    cases hs
    exact .idleDeleted now t rest hp
  · next now hp =>
    split at hs
    · next hle =>
      cases hs
      exact .below now hp hle
    · next hlt =>
      cases hs
      exact .above now hp (Nat.lt_of_not_le hlt)
  · next now overBytes hp =>
    split at hs
    · next hperm =>
      cases hs
      exact .collected now overBytes order hp hperm
    · cases hs
  · next overBytes hp =>
    cases hs
    exact .exhausted overBytes hp
  · next t rest overBytes hp =>
    split at hs
    · next hzero =>
      cases hs
      exact .freed t rest (hzero ▸ hp)
    · next hpos =>
      cases hs
      exact .chosen t rest overBytes hp (Nat.pos_of_ne_zero hpos)
  · next t bytes rest overBytes hp =>
    cases hs
    exact .capRemoved t bytes rest overBytes hp
  · next t bytes rest overBytes hp =>
    cases hs
    exact .capDeleted t bytes rest overBytes hp

/-! ## Sums of files -/

section
variable {cfg : GcConfig} {s s₀ s' : Server τ ι} {t : τ} {E C F R todo order : List τ}
  {p : Pass τ}

/-- What deleting a file frees. -/
theorem totalDiskBytes_removeFile (h : (s.files.map (·.1)).Nodup) (t : τ) :
    s.totalDiskBytes = (s.removeFile t).totalDiskBytes + s.fileBytes t := by
  suffices hl : ∀ l : List (τ × Nat), (l.map (·.1)).Nodup →
      (l.map (·.2)).sum = ((l.filter (·.1 ≠ t)).map (·.2)).sum + (l.lookup t).getD 0 by
    have := hl s.files h
    show _ + s.otherBytes = (_ + s.otherBytes) + _
    rw [this]
    show _ = ((s.files.filter (·.1 ≠ t)).map (·.2)).sum + _ + (s.files.lookup t).getD 0
    omega
  intro l hl
  induction l with
  | nil => rfl
  | cons f l ih =>
    obtain ⟨u, n⟩ := f
    rw [List.map_cons, List.nodup_cons] at hl
    rw [List.map_cons, List.sum_cons, ih hl.2]
    by_cases hu : u = t
    · subst hu
      have hnone : l.lookup u = none := List.lookup_eq_none_iff.mpr fun f hf => by
        refine bne_iff_ne.mpr fun he => hl.1 ?_
        exact List.mem_map.mpr ⟨f, hf, he.symm⟩
      rw [hnone, List.lookup_cons_self, List.filter_cons_of_neg (by simp)]
      show n + (_ + 0) = _ + n
      omega
    · have hne : (t == u) = false := beq_eq_false_iff_ne.mpr fun h => hu h.symm
      rw [List.lookup_cons, hne, List.filter_cons_of_pos (by simpa using hu), List.map_cons,
        List.sum_cons]
      show n + (_ + _) = (n + _) + (l.lookup t).getD 0
      omega

namespace Evicted

theorem begin : Evicted s₀ [] [] (s₀.goto p) :=
  ⟨by simp [goto], by simp [goto], rfl, rfl, rfl⟩

theorem goto (h : Evicted s₀ R F s) : Evicted s₀ R F (s.goto p) := ⟨h.registry, h.files, h.rest⟩

theorem remove (h : Evicted s₀ R F s) : Evicted s₀ (R ++ [t]) F (s.removeSession t) := by
  refine ⟨?_, h.files, h.rest⟩
  show s.registry.filter _ = _
  rw [h.registry, List.filter_filter]
  refine List.filter_congr fun x _ => ?_
  simp [and_comm]

theorem delete (h : Evicted s₀ R F s) : Evicted s₀ R (F ++ [t]) (s.removeFile t) := by
  refine ⟨h.registry, ?_, h.rest⟩
  show s.files.filter _ = _
  rw [h.files, List.filter_filter]
  refine List.filter_congr fun x _ => ?_
  simp [and_comm]

theorem mem_registry (h : Evicted s₀ R F s) (x : τ) :
    x ∈ s.registry ↔ x ∈ s₀.registry ∧ x ∉ R := by
  rw [h.registry, List.mem_filter, decide_eq_true_iff]

theorem lastAccess (h : Evicted s₀ R F s) (x : τ) : s.lastAccess x = s₀.lastAccess x := by
  unfold Server.lastAccess
  rw [h.rest.2.1]

theorem totalDiskBytes (h : Evicted s₀ R F s) : s.totalDiskBytes = s₀.usage F := by
  unfold Server.totalDiskBytes usage
  rw [h.files, h.rest.1]

/-- The next file to be deleted frees its bytes. -/
theorem usage_snoc (h : Evicted s₀ R F s) (hfiles : (s₀.files.map (·.1)).Nodup) (t : τ) :
    s₀.usage F = s₀.usage (F ++ [t]) + s.fileBytes t := by
  have hnodup : (s.files.map (·.1)).Nodup := by
    rw [h.files]
    exact hfiles.sublist (List.filter_sublist.map _)
  rw [← h.totalDiskBytes, ← h.delete.totalDiskBytes]
  exact totalDiskBytes_removeFile hnodup t

/-- The first scan selects the idle sessions. -/
theorem selected (h : Evicted s₀ [] F s) (hperm : order.Perm s.registry) :
    Selected cfg.truncated s₀ (s.idleSessions cfg s₀.clock order) := by
  intro x
  rw [idleSessions, List.mem_filter, hperm.mem_iff, h.mem_registry, decide_eq_true_iff,
    h.lastAccess]
  simp [IdleLong, GcConfig.truncated]

/-- The second scan sorts the unprotected sessions by their last access. -/
theorem candidates (h : Evicted s₀ E F s) (hreg : s₀.registry.Nodup)
    (hperm : order.Perm s.registry) :
    Candidates cfg.truncated s₀ E (s.candidates cfg s₀.clock order) := by
  have hnodup : order.Nodup := hperm.nodup_iff.mpr (h.registry ▸ hreg.filter _)
  have : Std.Total fun t u => s.lastAccess t ≤ s.lastAccess u :=
    ⟨fun t u => Nat.le_total _ _⟩
  have : IsTrans τ fun t u => s.lastAccess t ≤ s.lastAccess u :=
    ⟨fun t u v => Nat.le_trans⟩
  refine ⟨fun x => ?_, ?_, ?_⟩
  · rw [Server.candidates, List.mem_insertionSort, List.mem_filter, hperm.mem_iff, h.mem_registry,
      decide_eq_true_iff, h.lastAccess, and_assoc]
    rfl
  · refine (List.pairwise_insertionSort _ _).imp fun {x y} hxy => ?_
    rwa [h.lastAccess, h.lastAccess] at hxy
  · exact (List.perm_insertionSort _ _).nodup_iff.mpr (hnodup.filter _)

end Evicted

end

/-! ## A pass keeps the invariant -/

section
variable {cfg : GcConfig} {s s₀ s' t : Server τ ι} {E C : List τ} {order : List τ} {a : Act τ ι}

theorem needed_nil : Needed cfg s₀ E [] := fun C' c h => by
  have := congrArg List.length h
  simp at this

/-- An eviction above the cap is needed. -/
theorem needed_snoc {c : τ} (h : cfg.maxBytes < s₀.usage (E ++ C)) :
    Needed cfg s₀ E (C ++ [c]) := by
  intro C' c' he
  rwa [← (List.append_inj' he rfl).1]

theorem Move.inPass (hreg : s₀.registry.Nodup) (hfiles : (s₀.files.map (·.1)).Nodup)
    (hm : Move cfg s s') (h : InPass cfg.truncated s₀ s) : InPass cfg.truncated s₀ s' := by
  unfold InPass at h
  cases hm with
  | scanned now order hp hperm =>
    rw [hp] at h
    obtain ⟨rfl, hev⟩ := h
    exact ⟨rfl, [], hev.selected hperm, hev.goto⟩
  | idleDone now hp =>
    rw [hp] at h
    obtain ⟨rfl, E, hsel, hev⟩ := h
    exact ⟨rfl, E, by simpa using hsel, hev.goto⟩
  | idleRemoved now t rest hp =>
    rw [hp] at h
    obtain ⟨rfl, E, hsel, hev⟩ := h
    exact ⟨rfl, E, hsel, hev.remove.goto⟩
  | idleDeleted now t rest hp =>
    rw [hp] at h
    obtain ⟨rfl, E, hsel, hev⟩ := h
    exact ⟨rfl, E ++ [t], by simpa using hsel, hev.delete.goto⟩
  | below now hp hle =>
    rw [hp] at h
    obtain ⟨rfl, E, hsel, hev⟩ := h
    rw [hev.totalDiskBytes] at hle
    have hev' : Evicted s₀ (E ++ []) (E ++ []) (s.goto .resting) := by simpa using hev.goto
    exact ⟨E, [], hsel, hev', needed_nil, .inl ⟨rfl, by simpa using hle⟩⟩
  | above now hp hlt =>
    rw [hp] at h
    obtain ⟨rfl, E, hsel, hev⟩ := h
    exact ⟨rfl, E, hsel, hev.goto, congrArg (· - cfg.maxBytes) hev.totalDiskBytes⟩
  | collected now overBytes order hp hperm =>
    rw [hp] at h
    obtain ⟨rfl, E, hsel, hev, hover⟩ := h
    have hcand : Candidates cfg.truncated s₀ E ([] ++ s.candidates cfg s₀.clock order) :=
      hev.candidates hreg hperm
    have hev' : Evicted s₀ (E ++ []) (E ++ []) s := by simpa using hev
    exact ⟨E, [], hsel, hcand, hev'.goto, needed_nil, by simpa using hover⟩
  | exhausted overBytes hp =>
    rw [hp] at h
    obtain ⟨E, C, hsel, hcand, hev, hneed, hover⟩ := h
    exact ⟨E, C, hsel, hev.goto, hneed, .inr ⟨[], hcand, .inr rfl⟩⟩
  | freed t rest hp =>
    rw [hp] at h
    obtain ⟨E, C, hsel, hcand, hev, hneed, hover⟩ := h
    exact ⟨E, C, hsel, hev.goto, hneed, .inr ⟨t :: rest, hcand, .inl (by omega)⟩⟩
  | chosen t rest overBytes hp hpos =>
    rw [hp] at h
    obtain ⟨E, C, hsel, hcand, hev, hneed, hover⟩ := h
    exact ⟨E, C, hsel, hcand, hev.goto, rfl, hover, hpos⟩
  | capRemoved t bytes rest overBytes hp =>
    rw [hp] at h
    obtain ⟨E, C, hsel, hcand, hev, hbytes, hover, hpos⟩ := h
    exact ⟨E, C, hsel, hcand, hev.remove.goto, hbytes, hover, hpos⟩
  | capDeleted t bytes rest overBytes hp =>
    rw [hp] at h
    obtain ⟨E, C, hsel, hcand, hev, hbytes, hover, hpos⟩ := h
    have hfreed := hev.usage_snoc hfiles t
    rw [List.append_assoc] at hfreed
    refine ⟨E, C ++ [t], hsel, by simpa using hcand, ?_, needed_snoc (by omega), by omega⟩
    rw [← List.append_assoc]
    exact hev.delete.goto

theorem runOnce_resting (h : s.pass = .resting) :
    s.runOnce cfg order = some (s.goto (.started s.clock)) := by
  unfold runOnce
  rw [h]

theorem inPass_of_isPass [DecidableEq ι] (hreg : s.registry.Nodup)
    (hfiles : (s.files.map (·.1)).Nodup) (h : IsPass cfg s t) : InPass cfg.truncated s t := by
  obtain ⟨hrest, order, u, hu, hr, -⟩ := h
  rw [runOnce_resting hrest] at hu
  cases hu
  refine hr.inv ⟨rfl, .begin⟩ fun u a v hu hok hs => ?_
  obtain ⟨hne, order, rfl⟩ := hok
  exact (runOnce_move hne hs).inPass hreg hfiles hu

/-! ## A pass ends -/

/-- Bounds the steps left of a pass. -/
def passWork (s : Server τ ι) : Nat :=
  match s.pass with
  | .resting => 0
  | .started _ => 5 * s.registry.length + 5
  | .idleEvict _ todo => 3 * s.registry.length + 2 * todo.length + 4
  | .idleDelete _ _ todo => 3 * s.registry.length + 2 * todo.length + 5
  | .measure _ => 3 * s.registry.length + 3
  | .collect _ _ => 3 * s.registry.length + 2
  | .capEvict todo _ => 3 * todo.length + 1
  | .capRemove _ _ todo _ => 3 * todo.length + 3
  | .capDelete _ _ todo _ => 3 * todo.length + 2

omit [DecidableEq τ] in
theorem length_idleSessions_le {now : Nat} (h : order.Perm s.registry) :
    (s.idleSessions cfg now order).length ≤ s.registry.length :=
  (List.length_filter_le _ _).trans_eq h.length_eq

omit [DecidableEq τ] in
theorem length_candidates_le {now : Nat} (h : order.Perm s.registry) :
    (s.candidates cfg now order).length ≤ s.registry.length := by
  rw [candidates, List.length_insertionSort]
  exact (List.length_filter_le _ _).trans_eq h.length_eq

theorem length_removeSession_le {t : τ} :
    (s.removeSession t).registry.length ≤ s.registry.length := List.length_filter_le _ _

theorem Move.passWork_lt (hm : Move cfg s s') : s'.passWork < s.passWork := by
  unfold passWork
  cases hm with
  | scanned now order hp hperm =>
    rw [hp]
    have hle : (s.idleSessions cfg now order).length ≤ s.registry.length :=
      length_idleSessions_le hperm
    show 3 * s.registry.length + 2 * _ + 4 < 5 * s.registry.length + 5
    omega
  | idleDone now hp =>
    rw [hp]
    show 3 * s.registry.length + 3 < 3 * s.registry.length + 2 * 0 + 4
    omega
  | idleRemoved now t rest hp =>
    rw [hp]
    have hle := length_removeSession_le (s := s) (t := t)
    show 3 * (s.removeSession t).registry.length + 2 * rest.length + 5 <
      3 * s.registry.length + 2 * (rest.length + 1) + 4
    omega
  | idleDeleted now t rest hp =>
    rw [hp]
    show 3 * s.registry.length + 2 * rest.length + 4 < 3 * s.registry.length + 2 * rest.length + 5
    omega
  | below now hp hle =>
    rw [hp]
    exact Nat.succ_pos _
  | above now hp hlt =>
    rw [hp]
    exact Nat.lt_succ_self _
  | collected now overBytes order hp hperm =>
    rw [hp]
    have hle : (s.candidates cfg now order).length ≤ s.registry.length :=
      length_candidates_le hperm
    show 3 * (s.candidates cfg now order).length + 1 < 3 * s.registry.length + 2
    omega
  | exhausted overBytes hp | freed t rest hp =>
    rw [hp]
    exact Nat.succ_pos _
  | chosen t rest overBytes hp hpos =>
    rw [hp]
    show 3 * rest.length + 3 < 3 * (rest.length + 1) + 1
    omega
  | capRemoved t bytes rest overBytes hp | capDeleted t bytes rest overBytes hp =>
    rw [hp]
    exact Nat.lt_succ_self _

/-- A step of the collector is always possible. -/
theorem exists_runOnce (s : Server τ ι) (cfg : GcConfig) :
    ∃ order u, s.runOnce cfg order = some u := by
  refine ⟨s.registry, ?_⟩
  unfold runOnce
  split
  case h_2 | h_7 => exact ⟨_, if_pos (List.Perm.refl _)⟩
  all_goals first | exact ⟨_, rfl⟩ | (split <;> exact ⟨_, rfl⟩)

theorem exists_isPass [DecidableEq ι] (cfg : GcConfig) (h : s.pass = .resting) :
    ∃ t, IsPass cfg s t := by
  have hbound : ∀ as t, Run (step cfg) Uninterrupted (s.goto (.started s.clock)) as t →
      as.countP (fun _ => true) ≤ (s.goto (.started s.clock)).passWork := fun as t hr => by
    have := hr.countP_le (I := fun _ => True) (μ := passWork) (p := fun _ => true) trivial
      (fun _ _ _ _ _ _ => trivial) fun u a v _ hok hs => by
        obtain ⟨hne, order, rfl⟩ := hok
        exact (runOnce_move hne hs).passWork_lt
    omega
  have hprogress : ∀ t, Reaches (step cfg) Uninterrupted (s.goto (.started s.clock)) t →
      t.pass = .resting ∨
        ∃ a u, (fun _ => true) a = true ∧ Uninterrupted t a ∧ step cfg t a = some u :=
    fun t hr => Classical.or_iff_not_imp_left.mpr fun hne => by
      obtain ⟨order, u, hu⟩ := t.exists_runOnce cfg
      exact ⟨.runOnce order, u, rfl, ⟨hne, order, rfl⟩, hu⟩
  obtain ⟨t, hr, ht⟩ := exists_halted hbound hprogress
  exact ⟨t, h, [], _, runOnce_resting h, hr, ht⟩

/-! ## What a pass has done -/

/-- Files that stay keep their bytes. -/
theorem Evicted.fileBytes {R F : List τ} {x : τ} (h : Evicted s₀ R F s) (hx : x ∉ F) :
    s.fileBytes x = s₀.fileBytes x := by
  unfold Server.fileBytes
  rw [h.files]
  exact congrArg (Option.getD · 0) (lookup_filter_key (q := fun t => t ∉ F) (by simpa using hx))

/-- Usage before the last eviction. -/
theorem usage_append_cons {c : τ} (hfiles : (s₀.files.map (·.1)).Nodup) (hc : c ∉ E ++ C) :
    s₀.usage (E ++ C) = s₀.usage (E ++ (C ++ [c])) + s₀.fileBytes c := by
  let s : Server τ ι := { s₀ with
    registry := s₀.registry.filter (· ∉ E ++ C)
    files := s₀.files.filter (·.1 ∉ E ++ C) }
  have hev : Evicted s₀ (E ++ C) (E ++ C) s := ⟨rfl, rfl, rfl, rfl, rfl⟩
  rw [hev.usage_snoc hfiles c, hev.fileBytes hc, List.append_assoc]

/-- The sessions `C` come first among those that may be evicted for the cap. -/
def Chosen (cfg : GcConfig) (s₀ : Server τ ι) (E C : List τ) : Prop :=
  C = [] ∨ ∃ todo, Candidates cfg s₀ E (C ++ todo)

namespace Chosen
omit [DecidableEq τ]

theorem mem (h : Chosen cfg s₀ E C) {c : τ} (hc : c ∈ C) :
    c ∈ s₀.registry ∧ c ∉ E ∧ ¬ s₀.Protected cfg c := by
  rcases h with rfl | ⟨todo, hcand⟩
  · cases hc
  · exact (hcand.mem c).mp (List.mem_append_left todo hc)

theorem nodup (h : Chosen cfg s₀ E C) : C.Nodup := by
  rcases h with rfl | ⟨todo, hcand⟩
  · exact List.nodup_nil
  · exact (List.nodup_append.mp hcand.nodup).1

theorem oldest (h : Chosen cfg s₀ E C) {c u : τ} (hc : c ∈ C) (hu : u ∈ s₀.registry)
    (huE : u ∉ E) (huC : u ∉ C) (hp : ¬ s₀.Protected cfg u) :
    s₀.lastAccess c ≤ s₀.lastAccess u := by
  rcases h with rfl | ⟨todo, hcand⟩
  · cases hc
  · have huL : u ∈ C ++ todo := (hcand.mem u).mpr ⟨hu, huE, hp⟩
    exact (List.pairwise_append.mp hcand.sorted).2.2 c hc u
      ((List.mem_append.mp huL).resolve_left huC)

theorem last_not_mem (h : Chosen cfg s₀ E C) {C' : List τ} {c : τ} (he : C = C' ++ [c]) :
    c ∉ E ++ C' := by
  have hnodup := h.nodup
  have hc : c ∈ C := he ▸ List.mem_append_right C' List.mem_cons_self
  rw [he] at hnodup
  rw [List.mem_append, not_or]
  refine ⟨(h.mem hc).2.1, fun hc' => ?_⟩
  exact (List.nodup_append.mp hnodup).2.2 c hc' c List.mem_cons_self rfl

end Chosen

theorem collected_of_inPass (hfiles : (s₀.files.map (·.1)).Nodup) (h : InPass cfg s₀ t)
    (ht : t.pass = .resting) : ∃ C, Collected cfg s₀ C t := by
  unfold InPass at h
  rw [ht] at h
  obtain ⟨E, C, hsel, hev, hneed, hend⟩ := h
  have hchosen : Chosen cfg s₀ E C :=
    hend.imp (fun h => h.1) fun ⟨todo, hcand, _⟩ => ⟨todo, hcand⟩
  have hmem : ∀ x, x ∈ t.registry ↔ x ∈ s₀.registry ∧ x ∉ E ∧ x ∉ C := fun x => by
    rw [hev.mem_registry, List.mem_append, not_or]
  have hidle : ∀ x ∈ s₀.registry, x ∉ E ↔ ¬ s₀.IdleLong cfg x := fun x hx => by
    rw [hsel x, not_and]
    exact ⟨fun h => h hx, fun h _ => h⟩
  refine ⟨C, ⟨fun x => ?_, hchosen.nodup, fun c hc => ?_, fun c hc => (hchosen.mem hc).2.2,
    fun c hc u hu hp => ?_, ?_, fun C' c he => ?_, ?_, hev.rest⟩⟩
  · rw [hmem]
    exact and_congr_right fun hx => and_congr_left fun _ => hidle x hx
  · obtain ⟨hc, hcE, -⟩ := hchosen.mem hc
    exact ⟨hc, (hidle c hc).mp hcE⟩
  · obtain ⟨hu, huE, huC⟩ := (hmem u).mp hu
    exact hchosen.oldest hc hu huE huC hp
  · rw [hev.totalDiskBytes]
    rcases hend with ⟨-, hle⟩ | ⟨todo, hcand, hle | rfl⟩
    · exact .inl hle
    · exact .inl hle
    · refine .inr fun u hu => Classical.byContradiction fun hp => ?_
      obtain ⟨hu, huE, huC⟩ := (hmem u).mp hu
      exact huC (by simpa using (hcand.mem u).mpr ⟨hu, huE, hp⟩)
  · have hlt := hneed C' c he
    rw [usage_append_cons hfiles (hchosen.last_not_mem he), ← he] at hlt
    rwa [hev.totalDiskBytes]
  · rw [hev.files]
    refine List.filter_congr fun f _ => decide_eq_decide.mpr ?_
    rw [hmem, List.mem_append, not_or]
    by_cases hf : f.1 ∈ s₀.registry
    · exact ⟨fun h => .inr ⟨hf, h⟩, fun h => (h.resolve_left (not_not_intro hf)).2⟩
    · refine ⟨fun _ => .inl hf, fun _ => ⟨fun hE => hf ?_, fun hC => hf (hchosen.mem hC).1⟩⟩
      exact ((hsel f.1).mp hE).1

/-- **A pass is a minimal eviction, least recently used first**, by the windows cut to 64 bits. -/
theorem collected_of_isPass [DecidableEq ι] (hreg : s₀.registry.Nodup)
    (hfiles : (s₀.files.map (·.1)).Nodup) (h : IsPass cfg s₀ t) :
    ∃ C, Collected cfg.truncated s₀ C t := by
  have hin := inPass_of_isPass hreg hfiles h
  obtain ⟨-, -, -, -, -, hrest⟩ := h
  exact collected_of_inPass hfiles hin hrest

/-! ## The windows configured -/

namespace Collected

/-- An eviction for the cap frees what the session held on disk. -/
theorem usage_le (h : Collected cfg s₀ C t) (hfiles : (s₀.files.map (·.1)).Nodup) {c : τ}
    (hc : c ∈ C) : t.totalDiskBytes + s₀.fileBytes c ≤ s₀.totalDiskBytes := by
  have hsub : t.files.Sublist (s₀.removeFile c).files := by
    rw [h.files]
    refine List.monotone_filter_right _ fun f hf => ?_
    have hf : f.1 ∉ s₀.registry ∨ f.1 ∈ t.registry := of_decide_eq_true hf
    refine decide_eq_true fun he => ?_
    rw [he] at hf
    rcases hf with hf | hf
    · exact hf (h.others c hc).1
    · exact ((h.removed c).mp hf).2.2 hc
  have hle : (t.files.map (·.2)).sum ≤ ((s₀.removeFile c).files.map (·.2)).sum :=
    (hsub.map _).sum_le_sum fun _ _ => Nat.zero_le _
  have hfreed := totalDiskBytes_removeFile hfiles c
  have hother := h.rest.1
  have hother' : (s₀.removeFile c).otherBytes = s₀.otherBytes := rfl
  unfold Server.totalDiskBytes at *
  omega

/-- Only where the cap is exceeded are sessions evicted for it. -/
theorem eq_nil (h : Collected cfg s₀ C t) (hfiles : (s₀.files.map (·.1)).Nodup)
    (hle : s₀.totalDiskBytes ≤ cfg.maxBytes) : C = [] := by
  rcases C.eq_nil_or_concat with rfl | ⟨C', c, rfl⟩
  · rfl
  · have hneed := h.needed C' c List.concat_eq_append
    have hfree := h.usage_le hfiles (c := c) (by simp)
    omega

end Collected

end

/-- No pass runs, nothing is there twice, and what is on disk adds up in a word. -/
structure AtRest (s : Server τ ι) : Prop where
  resting : s.pass = .resting
  registry : s.registry.Nodup
  files : (s.files.map (·.1)).Nodup
  bytes : s.totalDiskBytes < 2 ^ 64

/-- Passes over the state come to their end, and each is a minimal eviction. -/
def EvictsLru [DecidableEq ι] (cfg : GcConfig) (s : Server τ ι) : Prop :=
  (∃ t, IsPass cfg s t) ∧ ∀ t, IsPass cfg s t → ∃ C, Collected cfg s C t

end Server

/-- The idle timeout fits into 64 bits, and so does the protect window, if passes go by it at all:
it protects every session that is not idle even when it is cut, or the cap is the highest. -/
structure GcConfig.WindowsFit (cfg : GcConfig) : Prop where
  idle : cfg.idleTimeout < 2 ^ 64
  protect : cfg.protectWindow < 2 ^ 64 ∨ cfg.idleTimeout ≤ cfg.protectMs ∨
    2 ^ 64 - 1 ≤ cfg.maxBytes

namespace Server
variable {τ ι : Type} [DecidableEq τ] {cfg : GcConfig} {s t : Server τ ι} {C : List τ}

theorem Collected.of_truncated (h : Collected cfg.truncated s C t) (hw : cfg.WindowsFit)
    (hs : s.AtRest) : Collected cfg s C t := by
  have hidle : ∀ x, s.IdleLong cfg.truncated x ↔ s.IdleLong cfg x := fun x => by
    show cfg.idleTimeout % 2 ^ 64 ≤ _ ↔ _
    rw [Nat.mod_eq_of_lt hw.idle]
    exact Iff.rfl
  have hprot : ∀ x, s.Protected cfg.truncated x → s.Protected cfg x := fun x hx =>
    lt_of_lt_of_le hx cfg.protectMs_le
  refine ⟨fun x => ?_, h.nodup, fun c hc => ?_, fun c hc => ?_, fun c hc u hu hp => ?_, ?_,
    h.needed, h.files, h.rest⟩
  · rw [← hidle]
    exact h.removed x
  · rw [← hidle]
    exact h.others c hc
  · have hold := h.unprotected c hc
    have hbusy : ¬ cfg.idleTimeout ≤ s.clock - s.lastAccess c := fun hle =>
      (h.others c hc).2 ((hidle c).mpr hle)
    have hpast : cfg.protectMs ≤ s.clock - s.lastAccess c := Nat.le_of_not_lt hold
    rcases hw.protect with hlt | hle | hmax
    · rw [GcConfig.protectMs, Nat.mod_eq_of_lt hlt] at hpast
      exact Nat.not_lt_of_le hpast
    · omega
    · have hnil := h.eq_nil hs.files (Nat.le_of_lt_succ (hs.bytes.trans_le (by
        simp only [GcConfig.maxBytes_truncated]
        omega)))
      rw [hnil] at hc
      cases hc
  · exact h.oldest c hc u hu fun hpu => hp (hprot u hpu)
  · exact h.enough.imp_right fun hall u hu => hprot u (hall u hu)

/-! ### A session that is younger than the windows -/

/-- One session, touched at time zero, with its cache file. -/
def oneAt (token : τ) (clock bytes : Nat) : Server τ ι where
  clock := clock
  sessions _ := some ⟨.filled, 0⟩
  registry := [token]
  files := [(token, bytes)]
  otherBytes := 0
  requests _ := .coming
  pass := .resting

omit [DecidableEq τ] in
theorem atRest_oneAt {token : τ} {clock bytes : Nat} (h : bytes < 2 ^ 64) :
    (oneAt token clock bytes : Server τ ι).AtRest :=
  ⟨rfl, List.nodup_singleton _, List.nodup_singleton _, h⟩

variable {token : τ} {clock bytes : Nat}

/-- An idle timeout that is cut: a session is removed although it is not idle. -/
theorem not_evictsLru_of_idle [DecidableEq ι] (token : τ) (h : 2 ^ 64 ≤ cfg.idleTimeout) :
    ¬ (oneAt token cfg.idleMs 0 : Server τ ι).EvictsLru cfg := by
  have hs : (oneAt token cfg.idleMs 0 : Server τ ι).AtRest := atRest_oneAt (Nat.two_pow_pos 64)
  rintro ⟨⟨t, ht⟩, hall⟩
  obtain ⟨C, hC⟩ := hall t ht
  obtain ⟨C', hC'⟩ := collected_of_isPass hs.registry hs.files ht
  have hgone : token ∉ t.registry := fun hmem => by
    refine ((hC'.removed token).mp hmem).2.1 ?_
    exact le_of_eq rfl
  have hbusy : ¬ (oneAt token cfg.idleMs 0 : Server τ ι).IdleLong cfg token := fun hle =>
    absurd (h.trans hle) (Nat.not_le_of_lt cfg.idleMs_lt)
  have hnil : C = [] := hC.eq_nil hs.files (Nat.zero_le _)
  subst hnil
  exact hgone ((hC.removed token).mpr ⟨List.mem_singleton_self _, hbusy, List.not_mem_nil⟩)

/-- A protect window that is cut: a session is evicted for the cap although it is protected. -/
theorem not_evictsLru_of_protect [DecidableEq ι] (token : τ) (h : 2 ^ 64 ≤ cfg.protectWindow)
    (hlt : cfg.protectMs < cfg.idleTimeout) (hmax : cfg.maxBytes + 1 < 2 ^ 64) :
    ¬ (oneAt token cfg.protectMs (cfg.maxBytes + 1) : Server τ ι).EvictsLru cfg := by
  have hs : (oneAt token cfg.protectMs (cfg.maxBytes + 1) : Server τ ι).AtRest :=
    atRest_oneAt hmax
  rintro ⟨⟨t, ht⟩, hall⟩
  obtain ⟨C, hC⟩ := hall t ht
  obtain ⟨C', hC'⟩ := collected_of_isPass hs.registry hs.files ht
  have hgone : token ∉ t.registry := fun hmem => by
    rcases hC'.enough with hle | hprot
    · have hfiles : t.files = [(token, cfg.maxBytes + 1)] := by
        rw [hC'.files]
        exact List.filter_cons_of_pos (decide_eq_true (.inr hmem))
      rw [totalDiskBytes, hfiles] at hle
      have : cfg.maxBytes + 1 + t.otherBytes ≤ cfg.maxBytes := hle
      omega
    · exact (Nat.lt_irrefl _ (hprot token hmem)).elim
  have hbusy : ¬ (oneAt token cfg.protectMs (cfg.maxBytes + 1) : Server τ ι).IdleLong cfg token :=
    Nat.not_le_of_lt hlt
  have hmem : token ∈ C := Classical.byContradiction fun hC₀ =>
    hgone ((hC.removed token).mpr ⟨List.mem_singleton_self _, hbusy, hC₀⟩)
  exact hC.unprotected token hmem (lt_of_lt_of_le cfg.protectMs_lt h)

/-- **Every pass is a minimal eviction, least recently used first, just where the windows fit into
64 bits** as far as passes go by them. -/
theorem gc_pass_iff [DecidableEq ι] [Inhabited τ] (cfg : GcConfig) :
    (∀ s : Server τ ι, s.AtRest → s.EvictsLru cfg) ↔ cfg.WindowsFit := by
  refine ⟨fun h => ?_, fun hw s hs => ⟨exists_isPass cfg hs.resting, fun t ht => ?_⟩⟩
  · have hidle : cfg.idleTimeout < 2 ^ 64 := not_le.mp fun hge =>
      not_evictsLru_of_idle default hge (h _ (atRest_oneAt (Nat.two_pow_pos 64)))
    refine ⟨hidle, Classical.byContradiction fun hne => ?_⟩
    simp only [not_or, not_lt, not_le] at hne
    obtain ⟨hge, hlt, hmax⟩ := hne
    have hmax : cfg.maxBytes + 1 < 2 ^ 64 := by omega
    exact not_evictsLru_of_protect default hge hlt hmax (h _ (atRest_oneAt hmax))
  · obtain ⟨C, hC⟩ := collected_of_isPass hs.registry hs.files ht
    exact ⟨C, hC.of_truncated hw hs⟩

/-- 2^63 seconds of idle timeout. -/
def longIdle : GcConfig := ⟨2 ^ 63 * 1000, 2 ^ 30, 300000⟩

/-- A pass removes a session that was touched at the very time it starts. -/
theorem touched_session_removed : ∃ s : Server Unit Unit, s.AtRest ∧ s.registry = [()] ∧
    s.clock = s.lastAccess () ∧ (∃ t, IsPass longIdle s t ∧ t.registry = []) ∧
    ¬ s.EvictsLru longIdle := by
  have hs : (oneAt () 0 0 : Server Unit Unit).AtRest := atRest_oneAt (Nat.two_pow_pos 64)
  obtain ⟨t, ht⟩ := exists_isPass longIdle hs.resting
  obtain ⟨C, hC⟩ := collected_of_isPass hs.registry hs.files ht
  refine ⟨oneAt () 0 0, hs, rfl, rfl, ⟨t, ht, List.eq_nil_iff_forall_not_mem.mpr fun x hx => ?_⟩,
    not_evictsLru_of_idle () (by decide)⟩
  exact ((hC.removed x).mp hx).2.1 (Nat.zero_le _)

/-- Four sessions and a foreign file: one idle, one just used. -/
def fullCache : Server (Fin 5) Unit where
  clock := 4000
  sessions t := some ⟨.filled, [100, 3000, 2000, 3950, 0].getD t 0⟩
  registry := [0, 1, 2, 3]
  files := [(0, 500), (1, 400), (2, 300), (3, 200), (4, 100)]
  otherBytes := 50
  requests _ := .coming
  pass := .resting

/-- 1050 bytes without the idle session, of which 700 may stay: session 2 has to go, and then
session 1. -/
theorem gc_pass_fullCache : ∃ t, IsPass ⟨3600, 700, 300⟩ fullCache t ∧
    ∃ C, Collected ⟨3600, 700, 300⟩ fullCache C t := by
  have hw : GcConfig.WindowsFit ⟨3600, 700, 300⟩ := ⟨by decide, by decide⟩
  obtain ⟨⟨t, ht⟩, h⟩ := (gc_pass_iff ⟨3600, 700, 300⟩).mpr hw fullCache
    ⟨rfl, by decide, by decide, by decide⟩
  exact ⟨t, ht, h t ht⟩

end Server

end StremioNzb.Streaming

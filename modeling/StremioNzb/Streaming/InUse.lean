import Mathlib.Data.Fintype.Basic
import StremioNzb.Streaming.Gc

/-!
# Sessions in use and the collector

A pass decides on the `lastAccess` that its scan reads, and acts later; `lastAccess` is written
only when a request starts, and the windows are cut to 64 bits. The collector leaves sessions in
use alone where this takes nothing off the smaller window, the scans find every session with a
request in flight touched within the window, and no request looks up a session that is selected
already.
-/

namespace StremioNzb.Streaming

open StremioNzb.Lib

/-- The smaller of the windows is what it was before they were cut to 64 bits. -/
def GcConfig.KeepsMin (cfg : GcConfig) : Prop :=
  min cfg.idleTimeout cfg.protectWindow = min cfg.idleMs cfg.protectMs

instance (cfg : GcConfig) : Decidable cfg.KeepsMin :=
  inferInstanceAs (Decidable (_ = _))

theorem GcConfig.keepsMin_of_lt {cfg : GcConfig} (hi : cfg.idleTimeout < 2 ^ 64)
    (hp : cfg.protectWindow < 2 ^ 64) : cfg.KeepsMin := by
  rw [KeepsMin, idleMs, protectMs, Nat.mod_eq_of_lt hi, Nat.mod_eq_of_lt hp]

namespace Server
variable {τ ι : Type}

/-- A request holds the session, or its body. -/
def InFlight (s : Server τ ι) (t : τ) : Prop := ∃ i, (s.requests i).token? = some t

/-- A body streams the session, or it was touched within both windows. -/
def InUse (cfg : GcConfig) (s : Server τ ι) (t : τ) : Prop :=
  (∃ i, s.requests i = .streaming t) ∨
    ∃ x, s.sessions t = some x ∧ s.clock < x.lastAccess + min cfg.idleTimeout cfg.protectWindow

/-- The session that the collector is about to remove, or whose file it is about to delete, is
not in use. -/
def Spares (cfg : GcConfig) (s : Server τ ι) : Prop :=
  ∀ t, s.pass.target = some t → ¬ s.InUse cfg t

/-- A scan finds the sessions with a request in flight touched within its window, and no request
looks up a session that is selected. -/
def Careful (cfg : GcConfig) (s : Server τ ι) : Act τ ι → Prop
  | .runOnce _ => match s.pass with
    | .started now =>
      ∀ t ∈ s.registry, s.InFlight t → now - s.lastAccess t < cfg.idleMs
    | .collect now _ =>
      ∀ t ∈ s.registry, s.InFlight t → now - s.lastAccess t < cfg.protectMs
    | _ => True
  | .lookup _ t => t ∉ s.pass.todo
  | _ => True

end Server

/-- The session is selected, and its file is still there. -/
def Pass.Selected {τ : Type} (p : Pass τ) (t : τ) : Prop := t ∈ p.todo ∨ p.deleting = some t

theorem Pass.selected_of_target {τ : Type} {p : Pass τ} {t : τ} (h : p.target = some t) :
    p.Selected t := by
  cases p with
  | idleEvict now todo =>
    cases todo with
    | nil => cases h
    | cons u rest =>
      cases h
      exact .inl List.mem_cons_self
  | capRemove u bytes rest overBytes =>
    cases h
    exact .inl List.mem_cons_self
  | idleDelete | capDelete => exact .inr h
  | resting | started | measure | collect | capEvict => cases h

namespace Server
variable {τ ι : Type} {cfg : GcConfig} {s s' : Server τ ι} {a : Act τ ι} {t u : τ}

theorem lastAccess_eq {x : StreamSession} (h : s.sessions t = some x) :
    s.lastAccess t = x.lastAccess := by
  rw [lastAccess, h]
  rfl

/-- The session has no request in flight, and was touched before the windows. -/
structure Idle (cfg : GcConfig) (s : Server τ ι) (t : τ) : Prop where
  unheld : ¬ s.InFlight t
  stale : ∀ x, s.sessions t = some x →
    x.lastAccess + min cfg.idleMs cfg.protectMs ≤ s.clock

theorem Idle.not_inUse (h : s.Idle cfg t) (hw : cfg.KeepsMin) : ¬ s.InUse cfg t := by
  rintro (⟨i, hi⟩ | ⟨x, hx, hlt⟩)
  · exact h.unheld ⟨i, by rw [hi]; rfl⟩
  · have := h.stale x hx
    rw [hw] at hlt
    omega

/-- What is selected is idle. -/
structure Resting (cfg : GcConfig) (s : Server τ ι) : Prop where
  kept : s.Kept
  touched : ∀ t x, s.sessions t = some x → x.lastAccess ≤ s.clock
  now : ∀ n, s.pass.now? = some n → n ≤ s.clock
  idle : ∀ t, s.pass.Selected t → s.Idle cfg t

theorem Kept.sessions_of_selected (h : s.Kept) (ht : s.pass.Selected t) :
    s.sessions t ≠ none := by
  rcases ht with ht | ht
  · exact h.known t (h.selected t ht)
  · exact (h.removed t ht).2

/-- **A scan selects idle sessions.** -/
theorem Resting.idle_of_scan (h : s.Resting cfg) {now window : Nat}
    (hnow : s.pass.now? = some now) (hw : min cfg.idleMs cfg.protectMs ≤ window)
    (hok : ∀ t ∈ s.registry, s.InFlight t → now - s.lastAccess t < window)
    (ht : t ∈ s.registry) (hold : window ≤ now - s.lastAccess t) : s.Idle cfg t := by
  refine ⟨fun hf => ?_, fun x hx => ?_⟩
  · have := hok t ht hf
    omega
  · have h1 := h.now now hnow
    have h2 := h.touched t x hx
    rw [lastAccess_eq hx] at hold
    omega

/-- Sessions stay idle while no request reaches them. -/
theorem Resting.request (h : s.Resting cfg) (hk : s'.Kept) (hclock : s'.clock = s.clock)
    (hpass : s'.pass = s.pass) (hf : ∀ u, s.pass.Selected u → s'.InFlight u → s.InFlight u)
    (hacc : ∀ u x', s'.sessions u = some x' → (∃ x, s.sessions u = some x ∧
      x'.lastAccess = x.lastAccess) ∨ x'.lastAccess = s.clock ∧ ¬ s.pass.Selected u) :
    s'.Resting cfg := by
  refine ⟨hk, fun u x' hx => ?_, fun n hn => ?_, fun u hu => ⟨fun hu' => ?_, fun x' hx => ?_⟩⟩
  · rw [hclock]
    rcases hacc u x' hx with ⟨x, hx, he⟩ | ⟨he, -⟩
    · exact he ▸ h.touched u x hx
    · omega
  · rw [hpass] at hn
    exact hclock ▸ h.now n hn
  · rw [hpass] at hu
    exact (h.idle u hu).unheld (hf u hu hu')
  · rw [hpass] at hu
    rw [hclock]
    rcases hacc u x' hx with ⟨x, hx, he⟩ | ⟨-, hnot⟩
    · exact he ▸ (h.idle u hu).stale x hx
    · exact absurd hu hnot

/-- The pass goes on with what it has selected. -/
theorem Resting.pass (h : s.Resting cfg) (hk : s'.Kept) (hclock : s'.clock = s.clock)
    (hses : s'.sessions = s.sessions) (hreq : s'.requests = s.requests)
    (hnow : ∀ n, s'.pass.now? = some n → n ≤ s.clock)
    (hsel : ∀ u, s'.pass.Selected u → s.Idle cfg u) : s'.Resting cfg := by
  refine ⟨hk, ?_, fun n hn => hclock ▸ hnow n hn, fun u hu => ⟨?_, ?_⟩⟩
  · rw [hses, hclock]
    exact h.touched
  · unfold InFlight
    rw [hreq]
    exact (hsel u hu).unheld
  · rw [hses, hclock]
    exact (hsel u hu).stale

theorem resting_init {clock otherBytes : Nat} :
    (init clock otherBytes : Server τ ι).Resting cfg := by
  refine ⟨kept_init, ?_, ?_, ?_⟩
  · intro t x hx
    cases hx
  · intro n hn
    cases hn
  · rintro t (ht | ht) <;> cases ht

variable [DecidableEq τ] [DecidableEq ι]

omit [DecidableEq τ] in
theorem inFlight_setRequest {i : ι} {r : VideoRoute τ} (h : (s.setRequest i r).InFlight u) :
    r.token? = some u ∨ s.InFlight u := by
  obtain ⟨j, hj⟩ := h
  simp only [setRequest] at hj
  split at hj
  · exact .inl hj
  · exact .inr ⟨j, hj⟩

omit [DecidableEq τ] in
/-- A request that goes on or ends holds no session but the one it held. -/
theorem inFlight_of_moved {i : ι} {r : VideoRoute τ} (ht : (s.requests i).token? = some t)
    (hr : r.token? = some t ∨ r.token? = none) (h : (s.setRequest i r).InFlight u) :
    s.InFlight u := by
  rcases inFlight_setRequest h with hu | hu
  · rcases hr with hr | hr
    · exact ⟨i, ht.trans (hr.symm.trans hu)⟩
    · rw [hr] at hu
      cases hu
  · exact hu

omit [DecidableEq ι] in
theorem setSession_eq_some {f : StreamSession → StreamSession} {x' : StreamSession}
    (h : (s.setSession t f).sessions u = some x') :
    (u = t ∧ ∃ x, s.sessions u = some x ∧ f x = x') ∨ s.sessions u = some x' := by
  simp only [setSession] at h
  split at h
  · next hut => exact .inl ⟨hut, Option.map_eq_some_iff.mp h⟩
  · exact .inr h

theorem resting_step (h : s.Resting cfg) (hok : s.Careful cfg a)
    (hs : s.step cfg a = some s') : s'.Resting cfg := by
  have hk := kept_step h.kept hs
  cases step_effect hs with
  | advanced ms =>
    refine ⟨hk, fun t x hx => ?_, fun n hn => ?_,
      fun t ht => ⟨(h.idle t ht).unheld, fun x hx => ?_⟩⟩
    · exact (h.touched t x hx).trans (Nat.le_add_right _ _)
    · exact (h.now n hn).trans (Nat.le_add_right _ _)
    · exact ((h.idle t ht).stale x hx).trans (Nat.le_add_right _ _)
  | wrote i t bytes hi =>
    exact ⟨hk, h.touched, h.now, fun u hu => ⟨(h.idle u hu).unheld, (h.idle u hu).stale⟩⟩
  | registered t hn =>
    refine h.request hk rfl rfl (fun u _ hu => hu) fun u x' hx => ?_
    by_cases hut : u = t
    · subst hut
      refine .inr ⟨?_, fun hsel => h.kept.sessions_of_selected hsel hn⟩
      have : some (⟨.empty, s.clock⟩ : StreamSession) = some x' := by
        rw [← hx]
        exact (if_pos rfl).symm
      cases this
      rfl
    · refine .inl ⟨x', ?_, rfl⟩
      rw [← hx]
      exact (if_neg hut).symm
  | found i t hi ht =>
    refine h.request hk rfl rfl (fun u hsel hu => ?_) fun u x' hx => .inl ⟨x', hx, rfl⟩
    rcases inFlight_setRequest hu with hu | hu
    · cases hu
      -- the session looked up is in the registry, and not selected
      exact (hsel.elim hok fun hd => (h.kept.removed t hd).1 ht).elim
    · exact hu
  | unknown i t hi ht =>
    refine h.request hk rfl rfl (fun u hsel hu => ?_) fun u x' hx => .inl ⟨x', hx, rfl⟩
    exact (inFlight_setRequest hu).resolve_left (by rintro ⟨⟩)
  | touched i t hi =>
    have ht : (s.requests i).token? = some t := by rw [hi]; rfl
    refine h.request hk rfl rfl (fun u _ hu => inFlight_of_moved ht (.inl rfl) hu) fun u x' hx => ?_
    rcases setSession_eq_some hx with ⟨rfl, x, -, rfl⟩ | hx
    · exact .inr ⟨rfl, fun hsel => (h.idle u hsel).unheld ⟨i, ht⟩⟩
    · exact .inl ⟨x', hx, rfl⟩
  | moved a i t r active ht hr =>
    refine h.request hk rfl rfl (fun u _ hu => inFlight_of_moved ht hr hu) fun u x' hx => ?_
    rcases setSession_eq_some hx with ⟨rfl, x, hx₀, rfl⟩ | hx
    · exact .inl ⟨x, hx₀, rfl⟩
    · exact .inl ⟨x', hx, rfl⟩
  | opened i t hi =>
    exact h.request hk rfl rfl
      (fun u _ hu => inFlight_of_moved (token_of_probing hi) (.inl rfl) hu)
      fun u x' hx => .inl ⟨x', hx, rfl⟩
  | began order hp =>
    refine h.pass hk rfl rfl rfl (fun n hn => ?_) fun u hu => ?_
    · cases hn
      exact le_rfl
    · rcases hu with hu | hu <;> cases hu
  | scanned order now hp hperm =>
    have hnow : s.pass.now? = some now := by rw [hp]; rfl
    refine h.pass hk rfl rfl rfl (fun n hn => ?_) fun u hu => ?_
    · cases hn
      exact h.now now hnow
    · rcases hu with hu | hu
      · obtain ⟨hmem, hidle⟩ := List.mem_filter.mp hu
        simp only [Careful, hp] at hok
        exact h.idle_of_scan hnow (Nat.min_le_left _ _) hok (hperm.mem_iff.mp hmem)
          (by simpa using hidle)
      · cases hu
  | collected order now overBytes hp hperm =>
    have hnow : s.pass.now? = some now := by rw [hp]; rfl
    refine h.pass hk rfl rfl rfl (fun n hn => by cases hn) fun u hu => ?_
    rcases hu with hu | hu
    · obtain ⟨hmem, hidle⟩ := List.mem_filter.mp ((List.perm_insertionSort _ _).mem_iff.mp hu)
      simp only [Careful, hp] at hok
      exact h.idle_of_scan hnow (Nat.min_le_right _ _) hok (hperm.mem_iff.mp hmem)
        (by simpa using hidle)
    · cases hu
  | turned order p hd hd' htodo hnow =>
    refine h.pass hk rfl rfl rfl (fun n hn => h.now n (hnow n hn)) fun u hu => h.idle u ?_
    rcases hu with hu | hu
    · exact .inl (htodo.subset hu)
    · rw [goto_pass, hd'] at hu
      cases hu
  | removed order t p hd hd' htodo hnow =>
    refine h.pass hk rfl rfl rfl (fun n hn => h.now n (hnow n hn)) fun u hu => h.idle u (.inl ?_)
    rw [htodo]
    rcases hu with hu | hu
    · exact List.mem_cons_of_mem t hu
    · rw [goto_pass, hd'] at hu
      cases hu
      exact List.mem_cons_self
  | deleted order t p hd hd' htodo hnow =>
    refine h.pass hk rfl rfl rfl (fun n hn => h.now n (hnow n hn)) fun u hu => h.idle u ?_
    rcases hu with hu | hu
    · exact .inl (htodo ▸ hu)
    · rw [goto_pass, hd'] at hu
      cases hu

/-- **The collector evicts no session in use** in a run whose scans find the sessions with a
request in flight touched within the window, and in which no request looks up a session that is
selected. -/
theorem inUse_spared {clock otherBytes : Nat} (hw : cfg.KeepsMin)
    (h : Reaches (step cfg) (Careful cfg) (init clock otherBytes) s) : s.Spares cfg := by
  have hr : s.Resting cfg := h.inv resting_init fun _ _ _ hi hok hst => resting_step hi hok hst
  exact fun t ht => (hr.idle t (Pass.selected_of_target ht)).not_inUse hw

instance [Fintype ι] : Decidable (s.InFlight t) := inferInstanceAs (Decidable (∃ _, _))

instance [Fintype ι] : Decidable (s.Careful cfg a) :=
  match a with
  | .runOnce _ => match hp : s.pass with
    | .started now =>
      decidable_of_iff (∀ t ∈ s.registry, s.InFlight t → now - s.lastAccess t < cfg.idleMs)
        (by simp only [Careful, hp])
    | .collect now _ =>
      decidable_of_iff (∀ t ∈ s.registry, s.InFlight t → now - s.lastAccess t < cfg.protectMs)
        (by simp only [Careful, hp])
    | .resting | .idleEvict .. | .idleDelete .. | .measure .. | .capEvict .. | .capRemove ..
    | .capDelete .. => isTrue (by simp only [Careful, hp])
  | .lookup _ t => inferInstanceAs (Decidable (t ∉ s.pass.todo))
  | .advance _ | .registerGroup _ | .touch _ | .enter _ | .openFile _ | .commit _ | .respond _
  | .write .. | .close _ => isTrue trivial

/-- Ten milliseconds idle, five protected, no byte too many. -/
def tenMillis : GcConfig := ⟨10, 0, 5⟩

/-- A session that is played, and one that nobody asks for. -/
abbrev playOne : List (Act Bool Unit) :=
  [.registerGroup false, .advance 7, .registerGroup true, .lookup () true, .touch (), .enter (),
    .openFile (), .commit (), .respond (), .write () 4, .advance 3]

/-- A pass up to its first eviction, and the rest of it. -/
abbrev selectIdle : List (Act Bool Unit) := [.runOnce [], .runOnce [true, false]]

abbrev finish : List (Act Bool Unit) :=
  [.runOnce [], .runOnce [], .runOnce [], .runOnce [], .runOnce [true], .runOnce []]

/-- A pass over a cache that is too full evicts the session that nobody asks for, and leaves the
one that is played. -/
theorem played_session_spared :
    ∃ s s' : Server Bool Unit, Reaches (step tenMillis) (Careful tenMillis) (init 0 0) s ∧
      s.pass.target = some false ∧ s.requests () = .streaming true ∧ s.Spares tenMillis ∧
      Reaches (step tenMillis) (Careful tenMillis) s s' ∧ s'.pass = .resting ∧
      s'.requests () = .streaming true ∧ s'.registry = [true] ∧ s'.files = [(true, 4)] := by
  have hok : ∀ (s : Server Bool Unit) a, decide (s.Careful tenMillis a) = true →
      s.Careful tenMillis a := fun _ _ => of_decide_eq_true
  obtain ⟨s, hs, hp⟩ := exists_of_exec (step tenMillis)
    (fun s a => decide (Careful tenMillis s a)) hok (init 0 0) (playOne ++ selectIdle)
    (fun s => s.pass.target = some false ∧ s.requests () = .streaming true ∧
      (exec (step tenMillis) (fun s a => decide (Careful tenMillis s a)) s finish).any fun s =>
        s.pass = .resting ∧ s.requests () = .streaming true ∧ s.registry = [true] ∧
          s.files = [(true, 4)]) rfl
  obtain ⟨h1, h2, h3⟩ := of_decide_eq_true hp
  obtain ⟨s', hs', hp'⟩ := exists_of_exec _ _ hok s finish _ h3
  obtain ⟨h4, h5, h6, h7⟩ := of_decide_eq_true hp'
  exact ⟨s, s', hs, h1, h2, inUse_spared (GcConfig.keepsMin_of_lt (by decide) (by decide)) hs,
    hs', h4, h5, h6, h7⟩

/-! ## A body that outlives the timeout -/

/-- The session that is played has streamed for the idle timeout. -/
theorem streaming_session_evicted :
    ∃ s : Server Bool Unit, Reaches (step tenMillis) (fun _ _ => True) (init 0 0) s ∧
      s.pass.target = some true ∧ s.requests () = .streaming true ∧ ¬ s.Spares tenMillis := by
  obtain ⟨s, hs, hp⟩ := exists_of_exec_free (step tenMillis) (init 0 0)
    (playOne ++ [.advance 7] ++ selectIdle)
    (fun s => s.pass.target = some true ∧ s.requests () = .streaming true) rfl
  obtain ⟨h1, h2⟩ := of_decide_eq_true hp
  exact ⟨s, hs, h1, h2, fun h => h true h1 (.inl ⟨(), h2⟩)⟩

end Server

end StremioNzb.Streaming

import StremioNzb.Streaming.Gc

/-!
# Cache files without a session

A request keeps its session after the collector has removed it, and its preflight may open the
cache file only then. Every cache file has its session exactly where no request opens the file of
a session that is evicted: such a file is never deleted.
-/

namespace StremioNzb.Streaming

open StremioNzb.Lib

namespace Server
variable {τ ι : Type}

/-- The cache file of the token exists. -/
def HasFile (s : Server τ ι) (t : τ) : Prop := t ∈ s.files.map (·.1)

/-- Every cache file belongs to a registered session. -/
def Orphanless (s : Server τ ι) : Prop := ∀ t, s.HasFile t → t ∈ s.registry

/-- No request is in flight. -/
def Quiet (s : Server τ ι) : Prop := ∀ i, (s.requests i).token? = none

/-- The request is in the preflight of the session. -/
def Probing (s : Server τ ι) (i : ι) (t : τ) : Prop :=
  s.requests i = .probing t ∨ s.requests i = .opened t

/-- The session is registered, or the pass is about to delete its file. -/
def Reclaimable (s : Server τ ι) (t : τ) : Prop := t ∈ s.registry ∨ s.pass.deleting = some t

/-- A preflight opens the cache file of a session that is not evicted yet. -/
def OpensInTime (s : Server τ ι) : Act τ ι → Prop
  | .openFile i => ∀ t, s.Probing i t → s.Reclaimable t
  | _ => True

variable [DecidableEq τ] {cfg : GcConfig} {s s' : Server τ ι} {t u : τ} {bytes : Nat}

omit [DecidableEq τ] in
theorem hasFile_iff : s.HasFile t ↔ ∃ n, (t, n) ∈ s.files := by
  simp [HasFile]

theorem hasFile_createFile : (s.createFile t).HasFile u ↔ u = t ∨ s.HasFile u := by
  unfold HasFile createFile
  simp only
  split
  · next ht => exact ⟨.inr, fun h => h.elim (fun hu => hu ▸ ht) id⟩
  · simp

theorem hasFile_resizeFile : (s.resizeFile t bytes).HasFile u ↔ s.HasFile u := by
  have hkeys : (s.files.map fun f => if f.1 = t then (t, bytes) else f).map (·.1) =
      s.files.map (·.1) := by
    rw [List.map_map]
    apply List.map_congr_left
    intro f _
    simp only [Function.comp_apply]
    split
    · next h => exact h.symm
    · rfl
  unfold HasFile resizeFile
  rw [hkeys]

theorem hasFile_removeFile : (s.removeFile t).HasFile u ↔ s.HasFile u ∧ u ≠ t := by
  simp [hasFile_iff, removeFile]

omit [DecidableEq τ] in
theorem Reclaimable.registered (h : s.Reclaimable t) (hd : s.pass.deleting = none) :
    t ∈ s.registry := by
  refine h.resolve_right fun hdt => ?_
  rw [hd] at hdt
  cases hdt

variable [DecidableEq ι] {a : Act τ ι} {i : ι}

/-- Files, and the registry with the session being deleted: what a step changes of them. -/
theorem reclaimable_step (h : ∀ u, s.HasFile u → s.Reclaimable u) (hok : s.OpensInTime a)
    (hs : s.step cfg a = some s') : ∀ u, s'.HasFile u → s'.Reclaimable u := by
  intro u hu
  cases step_effect hs with
  | registered t hn => exact (h u hu).imp_left (List.mem_cons_of_mem t)
  | opened i t hi =>
    rcases hasFile_createFile.mp hu with rfl | hu
    · exact hok u hi
    · exact h u hu
  | wrote i t bytes hi => exact h u (hasFile_resizeFile.mp hu)
  | began order hp => exact .inl ((h u hu).registered (by rw [hp]; rfl))
  | scanned order now hp hperm => exact .inl ((h u hu).registered (by rw [hp]; rfl))
  | collected order now overBytes hp hperm => exact .inl ((h u hu).registered (by rw [hp]; rfl))
  | turned order p hd hd' htodo hnow => exact .inl ((h u hu).registered hd)
  | removed order t p hd hd' htodo hnow =>
    have hreg := (h u hu).registered hd
    by_cases hut : u = t
    · exact .inr (hut ▸ hd')
    · exact .inl (List.mem_filter.mpr ⟨hreg, decide_eq_true hut⟩)
  | deleted order t p hd hd' htodo hnow =>
    obtain ⟨hu, hut⟩ := hasFile_removeFile.mp hu
    refine .inl ((h u hu).resolve_right fun hdu => ?_)
    rw [hd] at hdu
    exact hut (Option.some.inj hdu).symm
  | _ => exact h u hu

/-- The session is evicted, and its file is there. -/
structure Orphan (s : Server τ ι) (t : τ) : Prop where
  kept : s.Kept
  registered : s.sessions t ≠ none
  evicted : ¬ s.Reclaimable t
  file : s.HasFile t

/-- **An orphan stays**: its token is never drawn again, and only registered sessions are
selected. -/
theorem orphan_step (h : s.Orphan t) (hs : s.step cfg a = some s') : s'.Orphan t := by
  have he := step_effect hs
  refine ⟨kept_step h.kept hs, he.known h.registered, ?_, ?_⟩
  · rintro hrec
    apply h.evicted
    cases he with
    | registered u hn =>
      rcases hrec with hreg | hd
      · rcases List.mem_cons.mp hreg with rfl | hreg
        · exact absurd hn h.registered
        · exact .inl hreg
      · exact .inr hd
    | turned order p hd hd' htodo hnow =>
      refine hrec.imp_right fun hdt => ?_
      rw [goto_pass, hd'] at hdt
      cases hdt
    | removed order u p hd hd' htodo hnow =>
      rcases hrec with hreg | hdt
      · exact .inl (List.mem_of_mem_filter hreg)
      · rw [goto_pass, hd'] at hdt
        cases hdt
        exact .inl (h.kept.selected t (htodo ▸ List.mem_cons_self))
    | deleted order u p hd hd' htodo hnow =>
      refine hrec.imp_right fun hdt => ?_
      rw [goto_pass, hd'] at hdt
      cases hdt
    | began | scanned | collected => exact hrec.imp_right fun hdt => by cases hdt
    | _ => exact hrec
  · cases he with
    | opened i u hi => exact hasFile_createFile.mpr (.inr h.file)
    | wrote i u bytes hi => exact hasFile_resizeFile.mpr h.file
    | deleted order u p hd hd' htodo hnow =>
      refine hasFile_removeFile.mpr ⟨h.file, ?_⟩
      rintro rfl
      exact h.evicted (.inr hd)
    | _ => exact h.file

theorem kept_reaches {clock otherBytes : Nat} {ok : Server τ ι → Act τ ι → Prop}
    (h : Reaches (step cfg) ok (init clock otherBytes) s) : s.Kept :=
  h.inv kept_init fun _ _ _ hi _ hst => kept_step hi hst

/-- A file opened for an evicted session is an orphan. -/
theorem orphan_of_open (h : s.Kept) (hp : s.Probing i t) (hrec : ¬ s.Reclaimable t)
    (hs : s.step cfg (.openFile i) = some s') : s'.Orphan t := by
  have he := step_effect hs
  have hses : s.sessions t ≠ none := h.held i t (token_of_probing hp)
  refine ⟨kept_step h hs, he.known hses, ?_, ?_⟩
  all_goals
    have hcreate : s' = (s.createFile t).setRequest i (.opened t) := by
      rcases hp with hp | hp <;> simpa [step, hp] using hs.symm
    subst hcreate
  · exact hrec
  · exact hasFile_createFile.mpr (.inl rfl)

theorem reclaimable_reaches {clock otherBytes : Nat}
    (h : Reaches (step cfg) OpensInTime (init clock otherBytes) s) :
    ∀ t, s.HasFile t → s.Reclaimable t :=
  h.inv (I := fun s => ∀ t, s.HasFile t → s.Reclaimable t) (fun t ht => by cases ht)
    fun _ _ _ hi hok hst => reclaimable_step hi hok hst

/-- **Every cache file has its session** in a run whose preflights open the files of sessions
that are not evicted yet, unless the pass has removed a session and deletes its file next. A file
opened for an evicted session stays for ever, and its session is never registered again. -/
theorem orphanless_of_opensInTime (cfg : GcConfig) (clock otherBytes : Nat) :
    (∀ s : Server τ ι, Reaches (step cfg) OpensInTime (init clock otherBytes) s →
      (s.Orphanless ↔ ∀ t, s.pass.deleting = some t → ¬ s.HasFile t)) ∧
    ∀ (s s' s'' : Server τ ι) (i : ι) (t : τ),
      Reaches (step cfg) (fun _ _ => True) (init clock otherBytes) s → s.Probing i t →
      ¬ s.Reclaimable t → s.step cfg (.openFile i) = some s' →
      Reaches (step cfg) (fun _ _ => True) s' s'' → s''.HasFile t ∧ t ∉ s''.registry := by
  refine ⟨fun s hs => ⟨fun h t hd ht => ?_, fun h t ht => ?_⟩,
    fun s s' s'' i t hs hp hrec hst hs' => ?_⟩
  · have hk : s.Kept := kept_reaches (hs.mono fun _ _ _ => trivial)
    exact (hk.removed t hd).1 (h t ht)
  · exact (reclaimable_reaches hs t ht).resolve_right fun hd => h t hd ht
  · have h : s''.Orphan t := hs'.inv (I := fun s => s.Orphan t)
      (orphan_of_open (kept_reaches hs) hp hrec hst) fun _ _ _ hi _ hst => orphan_step hi hst
    exact ⟨h.file, fun hreg => h.evicted (.inl hreg)⟩

/-! ## A preflight that outlives its session -/

/-- Ten milliseconds idle, and no cap. -/
def shortIdle : GcConfig := ⟨10, 1000, 5⟩

/-- A session is registered, and idle for ten milliseconds. -/
abbrev idleFor10 : List (Act Unit Unit) := [.registerGroup (), .advance 10]

/-- A request for it comes, up to its preflight. -/
abbrev request : List (Act Unit Unit) := [.lookup () (), .touch (), .enter ()]

/-- The preflight opens the file, and the request is served to its end. -/
abbrev serve : List (Act Unit Unit) := [.openFile (), .commit (), .respond (), .close ()]

/-- The session is there when a preflight opens its file. -/
def registeredB (s : Server Unit Unit) : Act Unit Unit → Bool
  | .openFile _ => () ∈ s.registry
  | _ => true

theorem opensInTime_of_registered {s : Server Unit Unit} {a : Act Unit Unit}
    (h : registeredB s a = true) : s.OpensInTime a := by
  cases a with
  | openFile i => exact fun t _ => .inl (of_decide_eq_true h)
  | _ => trivial

/-- A session that is served in time has its file, and is registered. -/
theorem served_has_session :
    ∃ s : Server Unit Unit, Reaches (step shortIdle) OpensInTime (init 0 0) s ∧
      s.HasFile () ∧ s.Quiet ∧ s.Orphanless := by
  obtain ⟨s, hs, hp⟩ := exists_of_exec (step shortIdle) registeredB
    (fun _ _ => opensInTime_of_registered) (init 0 0) (idleFor10 ++ request ++ serve)
    (fun s => s.files = [((), 0)] ∧ s.requests () = .ended ∧ s.pass = .resting) rfl
  obtain ⟨hf, hr, hpass⟩ := of_decide_eq_true hp
  refine ⟨s, hs, ?_, fun i => ?_, ((orphanless_of_opensInTime shortIdle 0 0).1 s hs).mpr ?_⟩
  · rw [HasFile, hf]
    exact List.mem_cons_self
  · rw [hr]
    rfl
  · intro t ht
    rw [hpass] at ht
    cases ht

/-- **A cache file without a session**: the request comes after the scan has selected the idle
session, the pass removes the session and finds no file, and then the preflight opens it. -/
theorem orphan_left :
    ∃ s : Server Unit Unit, Reaches (step shortIdle) (fun _ _ => True) (init 0 0) s ∧
      s.Quiet ∧ s.pass = .resting ∧ s.HasFile () ∧ ¬ s.Orphanless := by
  obtain ⟨s, hs, hp⟩ := exists_of_exec_free (step shortIdle) (init 0 0)
    (idleFor10 ++ [.runOnce [], .runOnce [()]] ++ request ++
      [.runOnce [], .runOnce [], .runOnce [], .runOnce []] ++ serve)
    (fun s => s.files = [((), 0)] ∧ s.registry = [] ∧ s.requests () = .ended ∧
      s.pass = .resting) rfl
  obtain ⟨hf, hreg, hr, hpass⟩ := of_decide_eq_true hp
  have hfile : s.HasFile () := by
    rw [HasFile, hf]
    exact List.mem_cons_self
  refine ⟨s, hs, fun i => ?_, hpass, hfile, fun h => ?_⟩
  · rw [hr]
    rfl
  · have := h () hfile
    rw [hreg] at this
    cases this

end Server

end StremioNzb.Streaming

import StremioNzb.Streaming.GcPass
import StremioNzb.Streaming.InUse

/-!
# A pass amid requests

What `run_once` leaves when requests go on between its steps: sessions are registered, looked up
and touched, files are opened and written. The bytes that requests add in the meantime are
counted (`metered`). `pass_amid` says which sessions are left at the end of a pass, and how full
the cache is, by the windows as the pass cuts them to 64 bits.
-/

namespace StremioNzb.Streaming

open StremioNzb.Lib

/-! ## Passes -/

namespace Pass
variable {τ : Type}

/-- The idle eviction has still to come to the session. -/
def IdleLeft : Pass τ → τ → Prop
  | started _, _ => True
  | idleEvict _ todo, t | idleDelete _ _ todo, t => t ∈ todo
  | _, _ => False

/-- The cap eviction has still to come to the session. -/
def CapLeft : Pass τ → τ → Prop
  | resting, _ => False
  | capEvict todo _, t | capDelete _ _ todo _, t => t ∈ todo
  | capRemove u _ todo _, t => t = u ∨ t ∈ todo
  | _, _ => True

end Pass

namespace Server
variable {τ ι : Type} [DecidableEq τ] [DecidableEq ι]

/-- The session was accessed within the window before `now`, or since. -/
def Recent (s : Server τ ι) (now window : Nat) (t : τ) : Prop :=
  now - s.lastAccess t < window ∨ now ≤ s.lastAccess t

/-- The bytes that a step of a request adds. -/
def growth (s t : Server τ ι) : Act τ ι → Nat
  | .runOnce _ => 0
  | _ => t.totalDiskBytes - s.totalDiskBytes

/-- A step, and the bytes that requests have added. -/
def metered (cfg : GcConfig) (s : Server τ ι × Nat) (a : Act τ ι) : Option (Server τ ι × Nat) :=
  (s.1.step cfg a).map fun t => (t, s.2 + growth s.1 t a)

/-- No pass begins. -/
def NoneBegins (s : Server τ ι × Nat) (a : Act τ ι) : Prop :=
  s.1.pass = .resting → ∀ order, a ≠ .runOnce order

/-- The usage without the file of the session. -/
def usageWithout (s : Server τ ι) (t : τ) : Nat := (s.removeFile t).totalDiskBytes

/-! ## What holds of every run -/

/-- No session was touched, and no pass began, in the future; no file is there twice. -/
structure Sane (s : Server τ ι) : Prop where
  kept : s.Kept
  touched : ∀ t x, s.sessions t = some x → x.lastAccess ≤ s.clock
  now : ∀ n, s.pass.now? = some n → n ≤ s.clock
  files : (s.files.map (·.1)).Nodup

variable {cfg : GcConfig} {s s' : Server τ ι} {a : Act τ ι} {t u : τ} {order : List τ}

theorem clock_le_step (hs : s.step cfg a = some s') : s.clock ≤ s'.clock := by
  cases step_effect hs with
  | advanced ms => exact Nat.le_add_right _ _
  | _ => exact le_rfl

/-- A step leaves the last access of a session, or sets it to the time. -/
theorem accessed_step (hs : s.step cfg a = some s') {x' : StreamSession}
    (hx : s'.sessions u = some x') :
    (∃ x, s.sessions u = some x ∧ x'.lastAccess = x.lastAccess) ∨ x'.lastAccess = s.clock := by
  cases step_effect hs with
  | registered t hn =>
    simp only [registerGroup] at hx
    split at hx
    · cases hx
      exact .inr rfl
    · exact .inl ⟨x', hx, rfl⟩
  | touched i t hi =>
    rcases setSession_eq_some hx with ⟨rfl, x, -, rfl⟩ | hx
    · exact .inr rfl
    · exact .inl ⟨x', hx, rfl⟩
  | moved a i t r active ht hr =>
    rcases setSession_eq_some hx with ⟨rfl, x, hx₀, rfl⟩ | hx
    · exact .inl ⟨x, hx₀, rfl⟩
    · exact .inl ⟨x', hx, rfl⟩
  | _ => exact .inl ⟨x', hx, rfl⟩

omit [DecidableEq ι] in
theorem nodup_createFile (h : (s.files.map (·.1)).Nodup) :
    ((s.createFile t).files.map (·.1)).Nodup := by
  simp only [createFile]
  split
  · exact h
  · next ht => exact List.nodup_cons.mpr ⟨ht, h⟩

omit [DecidableEq ι] in
theorem keys_resizeFile {bytes : Nat} :
    (s.resizeFile t bytes).files.map (·.1) = s.files.map (·.1) := by
  simp only [resizeFile, List.map_map]
  refine List.map_congr_left fun f _ => ?_
  simp only [Function.comp_apply]
  split
  · next hf => exact hf.symm
  · rfl

theorem nodup_step (h : (s.files.map (·.1)).Nodup) (hs : s.step cfg a = some s') :
    (s'.files.map (·.1)).Nodup := by
  cases step_effect hs with
  | opened i t hi => exact nodup_createFile h
  | wrote i t bytes hi => exact (keys_resizeFile (s := s)).symm ▸ h
  | deleted order t p hd hd' htodo hnow =>
    exact h.sublist (List.filter_sublist.map _)
  | _ => exact h

theorem now_step (h : ∀ n, s.pass.now? = some n → n ≤ s.clock) (hs : s.step cfg a = some s') :
    ∀ n, s'.pass.now? = some n → n ≤ s'.clock := by
  intro n hn
  refine le_trans ?_ (clock_le_step hs)
  cases step_effect hs with
  | began order hp =>
    cases hn
    exact le_rfl
  | scanned order now hp hperm =>
    cases hn
    exact h _ (by rw [hp]; rfl)
  | collected => cases hn
  | turned order p hd hd' htodo hnow => exact h n (hnow n hn)
  | removed order t p hd hd' htodo hnow => exact h n (hnow n hn)
  | deleted order t p hd hd' htodo hnow => exact h n (hnow n hn)
  | _ => exact h n hn

theorem sane_step (h : s.Sane) (hs : s.step cfg a = some s') : s'.Sane := by
  refine ⟨kept_step h.kept hs, fun t x' hx => ?_, now_step h.now hs, nodup_step h.files hs⟩
  refine le_trans ?_ (clock_le_step hs)
  rcases accessed_step hs hx with ⟨x, hx, he⟩ | he
  · exact he ▸ h.touched t x hx
  · exact he.le

omit [DecidableEq τ] [DecidableEq ι] in
theorem sane_init {clock otherBytes : Nat} : (init clock otherBytes : Server τ ι).Sane := by
  refine ⟨kept_init, ?_, ?_, List.nodup_nil⟩
  · intro t x hx
    cases hx
  · intro n hn
    cases hn

/-- The last access never goes back. -/
theorem lastAccess_le_step (h : s.Sane) (hs : s.step cfg a = some s')
    (ht : s.sessions t ≠ none) : s.lastAccess t ≤ s'.lastAccess t := by
  obtain ⟨x, hx⟩ := Option.ne_none_iff_exists'.mp ht
  obtain ⟨x', hx'⟩ := Option.ne_none_iff_exists'.mp ((step_effect hs).known ht)
  rw [lastAccess_eq hx, lastAccess_eq hx']
  rcases accessed_step hs hx' with ⟨x₀, hx₀, he⟩ | he
  · rw [hx] at hx₀
    cases hx₀
    exact he.ge
  · rw [he]
    exact h.touched t x hx

/-! ## What a request changes -/

omit [DecidableEq τ] [DecidableEq ι] in
theorem lastAccess_of_recent {now window : Nat} (h : s.Recent now window t)
    (hle : s.lastAccess t ≤ s'.lastAccess t) : s'.Recent now window t := by
  rcases h with h | h
  · exact .inl (by omega)
  · exact .inr (h.trans hle)

omit [DecidableEq ι] in
theorem usage_eq (h : (s.files.map (·.1)).Nodup) (t : τ) :
    s.totalDiskBytes = s.usageWithout t + s.fileBytes t := totalDiskBytes_removeFile h t

omit [DecidableEq ι] in
theorem fileBytes_resizeFile {bytes : Nat} (h : t ≠ u) :
    (s.resizeFile u bytes).fileBytes t = s.fileBytes t := by
  suffices hl : (s.resizeFile u bytes).files.lookup t = s.files.lookup t by
    rw [fileBytes, fileBytes, hl]
  simp only [resizeFile]
  induction s.files with
  | nil => rfl
  | cons f files ih =>
    rw [List.map_cons, List.lookup_cons, List.lookup_cons, ih]
    by_cases hf : f.1 = u
    · rw [if_pos hf]
      have hu : (t == u) = false := beq_eq_false_iff_ne.mpr h
      rw [hf, hu]
    · rw [if_neg hf]

omit [DecidableEq ι] in
theorem removeFile_resizeFile {bytes : Nat} :
    (s.resizeFile t bytes).removeFile t = s.removeFile t := by
  have hfiles : (s.resizeFile t bytes).files.filter (·.1 ≠ t) = s.files.filter (·.1 ≠ t) := by
    simp only [resizeFile]
    induction s.files with
    | nil => rfl
    | cons f files ih =>
      by_cases hf : f.1 = t
      · simpa [hf] using ih
      · simpa [hf] using ih
  simp only [removeFile, hfiles]
  rfl

/-- A request adds at most its growth to the other files. -/
theorem usageWithout_le (h : s.Sane) (ha : ∀ order, a ≠ .runOnce order)
    (hs : s.step cfg a = some s') (t : τ) :
    s'.usageWithout t ≤ s.usageWithout t + (s'.totalDiskBytes - s.totalDiskBytes) := by
  have hn' := nodup_step h.files hs
  cases step_effect hs with
  | opened i u hi =>
    have hsum : (((s.createFile u).files.filter (·.1 ≠ t)).map (·.2)).sum =
        ((s.files.filter (·.1 ≠ t)).map (·.2)).sum := by
      simp only [createFile]
      split
      · rfl
      · by_cases hu : u = t <;> simp [hu]
    refine le_trans (le_of_eq ?_) (Nat.le_add_right _ _)
    show _ + _ = _ + _
    exact congrArg (· + s.otherBytes) hsum
  | wrote i u bytes hi =>
    by_cases hu : t = u
    · subst hu
      rw [usageWithout, removeFile_resizeFile]
      exact Nat.le_add_right _ _
    · have h1 := usage_eq h.files t
      have h2 := usage_eq hn' t
      rw [fileBytes_resizeFile hu] at h2
      omega
  | began order | scanned order | collected order | turned order | removed order | deleted order =>
    exact absurd rfl (ha order)
  | _ => exact Nat.le_add_right _ _

/-- A session that is registered was before, or is touched now. -/
theorem mem_registry_of_request (ha : ∀ order, a ≠ .runOnce order) (hs : s.step cfg a = some s')
    (ht : t ∈ s'.registry) : t ∈ s.registry ∨ s'.lastAccess t = s.clock := by
  cases step_effect hs with
  | registered u hn =>
    rcases List.mem_cons.mp ht with rfl | ht
    · refine .inr ?_
      simp [lastAccess, registerGroup]
    · exact .inl ht
  | began order | scanned order | collected order | turned order | removed order | deleted order =>
    exact absurd rfl (ha order)
  | _ => exact .inl ht

theorem pass_of_request (ha : ∀ order, a ≠ .runOnce order) (hs : s.step cfg a = some s') :
    s'.pass = s.pass := by
  cases step_effect hs with
  | began order | scanned order | collected order | turned order | removed order | deleted order =>
    exact absurd rfl (ha order)
  | _ => rfl

omit [DecidableEq τ] [DecidableEq ι] in
theorem growth_of_request (ha : ∀ order, a ≠ .runOnce order) :
    growth s s' a = s'.totalDiskBytes - s.totalDiskBytes := by
  cases a with
  | runOnce order => exact absurd rfl (ha order)
  | _ => rfl

/-! ## The pass -/

/-- What the cap eviction takes the cache to have too much is what it has too much, up to what
was added. -/
def Budget (cfg : GcConfig) (s : Server τ ι) (added : Nat) : Prop :=
  match s.pass with
  | .collect _ overBytes | .capEvict _ overBytes =>
    s.totalDiskBytes ≤ cfg.maxBytes + overBytes + added
  | .capRemove t bytes _ overBytes | .capDelete t bytes _ overBytes =>
    s.usageWithout t + bytes ≤ cfg.maxBytes + overBytes + added
  | _ => True

/-- A pass that began at `now`: each session has been accessed, or the pass has still to come to
it. -/
structure PassInv (cfg : GcConfig) (now : Nat) (s : Server τ ι) (added : Nat) : Prop where
  sane : s.Sane
  past : now ≤ s.clock
  began : ∀ n, s.pass.now? = some n → n = now
  idle : ∀ t ∈ s.registry, s.Recent now cfg.idleMs t ∨ s.pass.IdleLeft t
  cap : (s.pass = .resting ∧ s.totalDiskBytes ≤ cfg.maxBytes + added) ∨
    ∀ t ∈ s.registry, s.Recent now cfg.protectMs t ∨ s.pass.CapLeft t
  budget : Budget cfg s added

variable {now added : Nat}

/-- A session that is not left is as recent after a request. -/
theorem recent_of_request {window : Nat} {Left : τ → Prop} (hsane : s.Sane) (hpast : now ≤ s.clock)
    (ha : ∀ order, a ≠ .runOnce order) (hs : s.step cfg a = some s')
    (h : ∀ t ∈ s.registry, s.Recent now window t ∨ Left t) (ht : t ∈ s'.registry) :
    s'.Recent now window t ∨ Left t := by
  rcases mem_registry_of_request ha hs ht with ht | hnow
  · exact (h t ht).imp_left fun hr =>
      lastAccess_of_recent hr (lastAccess_le_step hsane hs (hsane.kept.known t ht))
  · exact .inl (.inr (hnow ▸ hpast))

theorem Budget.request (hsane : s.Sane) (ha : ∀ order, a ≠ .runOnce order)
    (hs : s.step cfg a = some s') (h : Budget cfg s added) :
    Budget cfg s' (added + (s'.totalDiskBytes - s.totalDiskBytes)) := by
  have hpass := pass_of_request ha hs
  unfold Budget at h ⊢
  rw [hpass]
  cases hp : s.pass with
  | collect n overBytes | capEvict todo overBytes =>
    simp only [hp] at h ⊢
    omega
  | capRemove t bytes todo overBytes | capDelete t bytes todo overBytes =>
    simp only [hp] at h ⊢
    have := usageWithout_le hsane ha hs t
    omega
  | _ => trivial

theorem PassInv.request (h : PassInv cfg now s added) (ha : ∀ order, a ≠ .runOnce order)
    (hs : s.step cfg a = some s') : PassInv cfg now s' (added + growth s s' a) := by
  have hpass := pass_of_request ha hs
  rw [growth_of_request ha]
  refine ⟨sane_step h.sane hs, h.past.trans (clock_le_step hs), hpass ▸ h.began, fun t ht => ?_,
    ?_, h.budget.request h.sane ha hs⟩
  · rw [hpass]
    exact recent_of_request h.sane h.past ha hs h.idle ht
  · rw [hpass]
    rcases h.cap with ⟨hp, hle⟩ | hcap
    · exact .inl ⟨hp, by omega⟩
    · exact .inr fun t ht => recent_of_request h.sane h.past ha hs hcap ht

omit [DecidableEq ι] in
/-- The registered sessions but one, and nothing is left to do with that one. -/
theorem left_of_removeSession {P Left Left' : τ → Prop} (h : ∀ u ∈ s.registry, P u ∨ Left u)
    (hleft : ∀ u, Left u → u = t ∨ Left' u) :
    ∀ u ∈ (s.removeSession t).registry, P u ∨ Left' u := by
  intro u hu
  obtain ⟨hmem, hne⟩ := List.mem_filter.mp hu
  refine (h u hmem).imp_right fun hl => (hleft u hl).resolve_left ?_
  simpa using hne

/-- **A step of the collector.** -/
theorem PassInv.collector (h : PassInv cfg now s added) (hs : s.step cfg (.runOnce order) = some s')
    (hm : Move cfg s s') : PassInv cfg now s' added := by
  have hsane := sane_step h.sane hs
  have hpast := h.past.trans (clock_le_step hs)
  have hcap : s.pass ≠ .resting →
      ∀ t ∈ s.registry, s.Recent now cfg.protectMs t ∨ s.pass.CapLeft t :=
    fun hne => h.cap.resolve_left fun hp => hne hp.1
  have hidle := h.idle
  have hbudget := h.budget
  cases hm with
  | scanned now' order hp hperm =>
    have hnow : now' = now := h.began now' (by rw [hp]; rfl)
    refine ⟨hsane, hpast, fun n hn => ?_, fun t ht => ?_, .inr fun _ _ => .inr trivial, trivial⟩
    · cases hn
      exact hnow
    · by_cases hlong : cfg.idleMs ≤ now - s.lastAccess t
      · refine .inr (List.mem_filter.mpr ⟨hperm.mem_iff.mpr ht, ?_⟩)
        rw [hnow]
        exact decide_eq_true hlong
      · exact .inl (.inl (Nat.lt_of_not_le hlong))
  | idleDone now' hp =>
    rw [hp] at hidle
    refine ⟨hsane, hpast, fun n hn => ?_, fun t ht => ?_, .inr fun _ _ => .inr trivial, trivial⟩
    · cases hn
      exact h.began now' (by rw [hp]; rfl)
    · exact (hidle t ht).imp_right fun hl => by cases hl
  | idleRemoved now' t rest hp =>
    rw [hp] at hidle
    refine ⟨hsane, hpast, fun n hn => ?_, ?_, .inr fun _ _ => .inr trivial, trivial⟩
    · cases hn
      exact h.began now' (by rw [hp]; rfl)
    · exact left_of_removeSession hidle fun u hu => List.mem_cons.mp hu
  | idleDeleted now' t rest hp =>
    rw [hp] at hidle
    refine ⟨hsane, hpast, fun n hn => ?_, hidle, .inr fun _ _ => .inr trivial, trivial⟩
    cases hn
    exact h.began now' (by rw [hp]; rfl)
  | below now' hp hle =>
    rw [hp] at hidle
    exact ⟨hsane, hpast, fun n hn => (by cases hn), hidle,
      .inl ⟨rfl, hle.trans (Nat.le_add_right _ _)⟩, trivial⟩
  | above now' hp hlt =>
    rw [hp] at hidle
    refine ⟨hsane, hpast, fun n hn => ?_, hidle, .inr fun _ _ => .inr trivial, ?_⟩
    · cases hn
      exact h.began now' (by rw [hp]; rfl)
    · show s.totalDiskBytes ≤ cfg.maxBytes + (s.totalDiskBytes - cfg.maxBytes) + added
      omega
  | collected now' overBytes order hp hperm =>
    have hnow : now' = now := h.began now' (by rw [hp]; rfl)
    rw [hp] at hidle
    rw [Budget, hp] at hbudget
    refine ⟨hsane, hpast, fun n hn => (by cases hn), hidle, .inr fun t ht => ?_, hbudget⟩
    by_cases hrecent : now - s.lastAccess t < cfg.protectMs
    · exact .inl (.inl hrecent)
    · refine .inr ((List.perm_insertionSort _ _).mem_iff.mpr (List.mem_filter.mpr
        ⟨hperm.mem_iff.mpr ht, ?_⟩))
      rw [hnow]
      exact decide_eq_true hrecent
  | exhausted overBytes hp =>
    have hleft := hcap (by rw [hp]; simp)
    rw [hp] at hidle hleft
    refine ⟨hsane, hpast, fun n hn => (by cases hn), hidle, .inr fun t ht => ?_, trivial⟩
    rcases hleft t ht with hr | hl
    · exact .inl hr
    · cases hl
  | freed t rest hp =>
    rw [hp] at hidle
    rw [Budget, hp] at hbudget
    exact ⟨hsane, hpast, fun n hn => (by cases hn), hidle, .inl ⟨rfl, hbudget⟩, trivial⟩
  | chosen t rest overBytes hp hpos =>
    have hleft := hcap (by rw [hp]; simp)
    rw [hp] at hidle hleft
    rw [Budget, hp] at hbudget
    refine ⟨hsane, hpast, fun n hn => (by cases hn), hidle,
      .inr fun u hu => (hleft u hu).imp_right List.mem_cons.mp, ?_⟩
    rw [usage_eq h.sane.files t] at hbudget
    exact hbudget
  | capRemoved t bytes rest overBytes hp =>
    have hleft := hcap (by rw [hp]; simp)
    rw [hp] at hidle hleft
    rw [Budget, hp] at hbudget
    refine ⟨hsane, hpast, fun n hn => (by cases hn), ?_, .inr ?_, hbudget⟩
    · exact left_of_removeSession hidle fun u hu => .inr hu
    · exact left_of_removeSession hleft fun u hu => hu
  | capDeleted t bytes rest overBytes hp =>
    have hleft := hcap (by rw [hp]; simp)
    rw [hp] at hidle hleft
    rw [Budget, hp] at hbudget
    refine ⟨hsane, hpast, fun n hn => (by cases hn), hidle, .inr hleft, ?_⟩
    show s.usageWithout t ≤ cfg.maxBytes + (overBytes - bytes) + added
    omega

theorem PassInv.step {s t : Server τ ι × Nat} (h : PassInv cfg now s.1 s.2) (hok : NoneBegins s a)
    (hs : metered cfg s a = some t) : PassInv cfg now t.1 t.2 := by
  obtain ⟨s', hs', rfl⟩ := Option.map_eq_some_iff.mp hs
  by_cases ha : ∃ order, a = .runOnce order
  · obtain ⟨order, rfl⟩ := ha
    exact h.collector hs' (runOnce_move (fun hp => hok hp order rfl) hs')
  · exact h.request (fun order he => ha ⟨order, he⟩) hs'

/-! ## Who is spared, and who is gone -/

/-- The session was accessed within both windows, and is not selected. -/
structure Spared (cfg : GcConfig) (now : Nat) (t : τ) (s : Server τ ι) : Prop where
  sane : s.Sane
  began : ∀ n, s.pass.now? = some n → n = now
  registered : t ∈ s.registry
  unselected : t ∉ s.pass.todo
  recent : now - s.lastAccess t < min cfg.idleMs cfg.protectMs

theorem Spared.step (h : Spared cfg now t s) (hok : s.pass = .resting → ∀ order, a ≠ .runOnce order)
    (hs : s.step cfg a = some s') : Spared cfg now t s' := by
  have hsane := sane_step h.sane hs
  have hrecent : now - s'.lastAccess t < min cfg.idleMs cfg.protectMs := by
    have hle := lastAccess_le_step h.sane hs (h.sane.kept.known t h.registered)
    have := h.recent
    omega
  cases step_effect hs with
  | registered u hn =>
    exact ⟨hsane, h.began, List.mem_cons_of_mem u h.registered, h.unselected, hrecent⟩
  | began order hp => exact absurd rfl (hok hp order)
  | scanned order now' hp hperm =>
    have hnow : now' = now := h.began now' (by rw [hp]; rfl)
    refine ⟨hsane, fun n hn => ?_, h.registered, fun ht => ?_, hrecent⟩
    · cases hn
      exact hnow
    · have hlong : cfg.idleMs ≤ now' - s.lastAccess t :=
        of_decide_eq_true (List.mem_filter.mp ht).2
      have := h.recent
      omega
  | collected order now' overBytes hp hperm =>
    have hnow : now' = now := h.began now' (by rw [hp]; rfl)
    refine ⟨hsane, fun n hn => (by cases hn), h.registered, fun ht => ?_, hrecent⟩
    have hlong : ¬ now' - s.lastAccess t < cfg.protectMs :=
      of_decide_eq_true (List.mem_filter.mp ((List.perm_insertionSort _ _).mem_iff.mp ht)).2
    have := h.recent
    omega
  | turned order p hd hd' htodo hnow =>
    exact ⟨hsane, fun n hn => h.began n (hnow n hn), h.registered,
      fun ht => h.unselected (htodo.subset ht), hrecent⟩
  | removed order u p hd hd' htodo hnow =>
    have hne : t ≠ u := fun he => h.unselected (htodo ▸ he ▸ List.mem_cons_self)
    exact ⟨hsane, fun n hn => h.began n (hnow n hn),
      List.mem_filter.mpr ⟨h.registered, decide_eq_true hne⟩,
      fun ht => h.unselected (htodo ▸ List.mem_cons_of_mem u ht), hrecent⟩
  | deleted order u p hd hd' htodo hnow =>
    exact ⟨hsane, fun n hn => h.began n (hnow n hn), h.registered,
      fun ht => h.unselected (htodo ▸ ht), hrecent⟩
  | _ => exact ⟨hsane, h.began, h.registered, h.unselected, hrecent⟩

/-- The session is evicted, and these requests do not hold it. -/
structure Gone (t : τ) (requests : Set ι) (s : Server τ ι) : Prop where
  known : s.sessions t ≠ none
  unregistered : t ∉ s.registry
  unheld : ∀ i ∈ requests, (s.requests i).token? ≠ some t

omit [DecidableEq τ] in
theorem unheld_setRequest {i j : ι} {r : VideoRoute τ} (h : (s.requests j).token? ≠ some t)
    (hr : j = i → r.token? ≠ some t) : ((s.setRequest i r).requests j).token? ≠ some t := by
  simp only [setRequest]
  split
  · next hj => exact hr hj
  · exact h

theorem Gone.step {requests : Set ι} (h : Gone t requests s) (hs : s.step cfg a = some s') :
    Gone t requests s' := by
  have he := step_effect hs
  have hknown := he.known h.known
  cases he with
  | registered u hn =>
    refine ⟨hknown, ?_, h.unheld⟩
    refine List.not_mem_cons_of_ne_of_not_mem (fun htu => ?_) h.unregistered
    exact h.known (htu ▸ hn)
  | found i u hi hu =>
    refine ⟨hknown, h.unregistered, fun j hj => unheld_setRequest (h.unheld j hj) fun _ hr => ?_⟩
    cases hr
    exact h.unregistered hu
  | unknown i u hi hu =>
    exact ⟨hknown, h.unregistered, fun j hj => unheld_setRequest (h.unheld j hj) fun _ hr => by
      cases hr⟩
  | touched i u hi =>
    refine ⟨hknown, h.unregistered, fun j hj => unheld_setRequest (h.unheld j hj) fun hji hr => ?_⟩
    subst hji
    exact h.unheld j hj (by rw [hi]; exact hr)
  | moved a i u r active hu hr =>
    refine ⟨hknown, h.unregistered, fun j hj => unheld_setRequest (h.unheld j hj) fun hji ht => ?_⟩
    subst hji
    rcases hr with hr | hr
    · exact h.unheld j hj (hu.trans (hr.symm.trans ht))
    · rw [hr] at ht
      cases ht
  | opened i u hi =>
    refine ⟨hknown, h.unregistered, fun j hj => unheld_setRequest (h.unheld j hj) fun hji hr => ?_⟩
    subst hji
    exact h.unheld j hj ((token_of_probing hi).trans hr)
  | removed order u p hd hd' htodo hnow =>
    exact ⟨hknown, fun ht => h.unregistered (List.mem_of_mem_filter ht), h.unheld⟩
  | _ => exact ⟨hknown, h.unregistered, h.unheld⟩

/-! ## The end of a pass -/

/-- What a pass that began at `now` in `s` has left in `t`, with what requests have added. -/
structure Passed (cfg : GcConfig) (now : Nat) (s t : Server τ ι) (added : Nat) : Prop where
  idle : ∀ u ∈ t.registry, t.Recent now cfg.idleMs u
  cap : t.totalDiskBytes ≤ cfg.maxBytes + added ∨
    ∀ u ∈ t.registry, t.Recent now cfg.protectMs u
  spared : ∀ u ∈ s.registry,
    now - s.lastAccess u < min cfg.idleMs cfg.protectMs → u ∈ t.registry
  gone : ∀ u ∈ s.registry, u ∉ t.registry → ∀ acts v, Run (step cfg) (fun _ _ => True) t acts v →
    u ∉ v.registry ∧ ∀ i, t.requests i = .coming → (v.requests i).token? ≠ some u

variable {clock otherBytes : Nat} {ok : Server τ ι → Act τ ι → Prop} {acts : List (Act τ ι)}

theorem run_of_metered {ok : Server τ ι × Nat → Act τ ι → Prop} {s t : Server τ ι × Nat}
    (h : Run (metered cfg) ok s acts t) : Run (step cfg) (fun _ _ => True) s.1 acts t.1 := by
  induction h with
  | nil => exact .nil
  | snoc _ _ hs ih =>
    obtain ⟨s', hs', rfl⟩ := Option.map_eq_some_iff.mp hs
    exact ih.snoc trivial hs'

/-- **The end of a pass, whatever requests do meanwhile.** Every session left was accessed within
the idle timeout; the cache is within its bound, but for what was added, or every session left
was accessed within the protect window; the sessions that were are left, and those evicted are
gone for good. -/
theorem pass_amid {t : Server τ ι} (h : Reaches (step cfg) ok (init clock otherBytes) s)
    (hp : s.pass = .started now) (hrun : Run (metered cfg) NoneBegins (s, 0) acts (t, added))
    (hrest : t.pass = .resting) : Passed cfg now s t added := by
  have hsane : s.Sane := h.inv sane_init fun _ _ _ hi _ hst => sane_step hi hst
  have hnow : ∀ n, s.pass.now? = some n → n = now := fun n hn => by
    rw [hp] at hn
    exact (Option.some.inj hn).symm
  have hinv : PassInv cfg now t added := by
    have h0 : PassInv cfg now s 0 := by
      refine ⟨hsane, hsane.now now (by rw [hp]; rfl), hnow, fun u _ => ?_, .inr fun u _ => ?_, ?_⟩
      · rw [hp]
        exact .inr trivial
      · rw [hp]
        exact .inr trivial
      · rw [Budget, hp]
        trivial
    exact hrun.inv (I := fun s => PassInv cfg now s.1 s.2) h0 fun _ _ _ hi hok hst =>
      hi.step hok hst
  refine ⟨fun u hu => ?_, ?_, fun u hu hrecent => ?_, fun u hu hu' acts' v hv => ?_⟩
  · have hidle := hinv.idle u hu
    rw [hrest] at hidle
    exact hidle.resolve_right id
  · rcases hinv.cap with ⟨-, hle⟩ | hcap
    · exact .inl hle
    · rw [hrest] at hcap
      exact .inr fun u hu => (hcap u hu).resolve_right id
  · have h0 : Spared cfg now u s := ⟨hsane, hnow, hu, by rw [hp]; exact List.not_mem_nil, hrecent⟩
    have hspared : Spared cfg now u t :=
      hrun.inv (I := fun s => Spared cfg now u s.1) h0 fun s a t hi hok hst => by
        obtain ⟨s', hs, rfl⟩ := Option.map_eq_some_iff.mp hst
        exact hi.step hok hs
    exact hspared.registered
  · have hknown : t.sessions u ≠ none :=
      (run_of_metered hrun).inv (I := fun s => s.sessions u ≠ none) (hsane.kept.known u hu)
        fun _ _ _ hi _ hst => (step_effect hst).known hi
    have h0 : Gone u {i | t.requests i = .coming} t := by
      refine ⟨hknown, hu', fun i hi => ?_⟩
      rw [show t.requests i = .coming from hi]
      exact fun hc => by cases hc
    have hgone : Gone u {i | t.requests i = .coming} v :=
      hv.inv h0 fun _ _ _ hi _ hst => hi.step hst
    exact ⟨hgone.unregistered, fun i hi => hgone.unheld i hi⟩

/-! ### An old session that grows while it is evicted -/

/-- Ten milliseconds idle, five protected, three bytes. -/
def threeBytes : GcConfig := ⟨10, 3, 5⟩

/-- A session with four bytes, six milliseconds old when the pass begins. -/
def fourBytes : List (Act Bool Unit) :=
  [.registerGroup false, .lookup () false, .touch (), .enter (), .openFile (), .commit (),
    .respond (), .write () 4, .advance 6, .runOnce []]

def passBegun : Server Bool Unit :=
  (exec (step threeBytes) (fun _ _ => true) (init 0 0) fourBytes).getD (init 0 0)

/-- A session is registered before the collection, and the old one grows before it is chosen. -/
def grows : List (Act Bool Unit) :=
  [.runOnce [false], .runOnce [], .runOnce [], .registerGroup true, .runOnce [true, false],
    .write () 7, .runOnce [], .runOnce [], .runOnce [], .runOnce []]

def noneBeginsB (s : Server Bool Unit × Nat) : Act Bool Unit → Bool
  | .runOnce _ => s.1.pass ≠ .resting
  | _ => true

theorem noneBegins_of_b {s : Server Bool Unit × Nat} {a : Act Bool Unit}
    (h : noneBeginsB s a = true) : NoneBegins s a := by
  rintro hp order rfl
  exact of_decide_eq_true h hp

theorem pass_amid_grows :
    ∃ s t : Server Bool Unit, Reaches (step threeBytes) (fun _ _ => True) (init 0 0) s ∧
      s.registry = [false] ∧ t.registry = [true] ∧ Passed threeBytes 6 s t 3 := by
  have hexec : exec (step threeBytes) (fun _ _ => true) (init 0 0) fourBytes = some passBegun := rfl
  have hs := reaches_of_exec (fun _ _ _ => trivial) hexec
  obtain ⟨⟨t, added⟩, ⟨acts, hrun⟩, ht⟩ := exists_of_exec (metered threeBytes) noneBeginsB
    (fun _ _ => noneBegins_of_b) (passBegun, 0) grows
    (fun u => u.1.pass = .resting && u.1.registry = [true] && u.2 = 3) rfl
  simp only [Bool.and_eq_true, decide_eq_true_eq] at ht
  obtain ⟨⟨hrest, hreg⟩, rfl⟩ := ht
  exact ⟨_, t, hs, rfl, hreg, pass_amid hs rfl hrun hrest⟩

end Server

end StremioNzb.Streaming

import StremioNzb.Streaming.GcPass
import StremioNzb.Streaming.Orphans

/-!
# Sessions and their files

The other half of what `Orphans` is about. A registered session that has its active stream has
its cache file, whatever requests and passes have done (`retained_of_reaches`); a session that was
removed is never registered again.
-/

namespace StremioNzb.Streaming

open StremioNzb.Lib

namespace Server
variable {τ ι : Type}

/-- The session has its active stream, or a preflight has opened the file for it. -/
def Opened (s : Server τ ι) (t : τ) : Prop :=
  (∃ x, s.sessions t = some x ∧ x.active = .filled) ∨ ∃ i, s.requests i = .opened t

def Retained (s : Server τ ι) : Prop := ∀ t ∈ s.registry, s.Opened t → s.HasFile t

/-- The session is known, and registered no longer. -/
def Removed (s : Server τ ι) (t : τ) : Prop := s.sessions t ≠ none ∧ t ∉ s.registry

variable [DecidableEq τ] {cfg : GcConfig} {s s' : Server τ ι} {t u : τ} {i : ι}

/-- A step of a pass removes a session, deletes the file of one that it has removed, or neither. -/
theorem runOnce_shape {order : List τ} (h : s.runOnce cfg order = some s') : ∃ p, s' = s.goto p ∨
    ∃ t, s' = (s.removeSession t).goto p ∨
      s.pass.deleting = some t ∧ s' = (s.removeFile t).goto p := by
  by_cases hp : s.pass = .resting
  · rw [runOnce, hp] at h
    cases h
    exact ⟨_, .inl rfl⟩
  · cases runOnce_move hp h with
    | idleRemoved | capRemoved => exact ⟨_, .inr ⟨_, .inl rfl⟩⟩
    | idleDeleted _ _ _ hd | capDeleted _ _ _ _ hd =>
      exact ⟨_, .inr ⟨_, .inr ⟨by rw [hd]; rfl, rfl⟩⟩⟩
    | _ => exact ⟨_, .inl rfl⟩

theorem Opened.of_setSession {f : StreamSession → StreamSession}
    (h : (s.setSession t f).Opened u) :
    (u = t ∧ ∃ x, s.sessions t = some x ∧ (f x).active = .filled) ∨ s.Opened u := by
  rcases h with ⟨x', hx, hf⟩ | hi
  · simp only [setSession] at hx
    split at hx
    · next hut =>
      obtain ⟨x, hx₀, rfl⟩ := Option.map_eq_some_iff.mp hx
      exact .inl ⟨hut, x, hut ▸ hx₀, hf⟩
    · exact .inr (.inl ⟨x', hx, hf⟩)
  · exact .inr (.inr hi)

/-- The cell of a session whose file is open changes, or the cell is not filled. -/
theorem Retained.setCell (h : s.Retained) {x : Cell} (hx : x = .filled → s.Opened t) :
    (s.setCell t x).Retained := by
  intro u hu ho
  refine h u hu ?_
  rcases ho.of_setSession with ⟨rfl, y, -, hf⟩ | ho
  · exact hx hf
  · exact ho

theorem Retained.registerGroup (hk : s.Kept) (h : s.Retained) (hn : s.sessions t = none) :
    (s.registerGroup t).Retained := by
  intro u hu ho
  by_cases hut : u = t
  · subst hut
    rcases ho with ⟨x, hx, hf⟩ | ⟨i, hi⟩
    · have hnew : (⟨.empty, s.clock⟩ : StreamSession) = x :=
        Option.some.inj ((if_pos rfl).symm.trans hx)
      subst hnew
      cases hf
    · have hi : s.requests i = .opened u := hi
      exact absurd hn (hk.held i u (by rw [hi]; rfl))
  · refine h u ((List.mem_cons.mp hu).resolve_left hut) ?_
    rcases ho with ⟨x, hx, hf⟩ | hi
    · exact .inl ⟨x, (if_neg hut).symm.trans hx, hf⟩
    · exact .inr hi

theorem Retained.runOnce {order : List τ} (hk : s.Kept) (h : s.Retained)
    (hs : s.runOnce cfg order = some s') : s'.Retained := by
  obtain ⟨p, rfl | ⟨t, rfl | ⟨hd, rfl⟩⟩⟩ := runOnce_shape hs
  · exact h
  · exact fun u hu ho => h u (List.mem_of_mem_filter hu) ho
  · intro u hu ho
    refine hasFile_removeFile.mpr ⟨h u hu ho, ?_⟩
    rintro rfl
    exact (hk.removed u hd).1 hu

variable [DecidableEq ι] {r : VideoRoute τ}

omit [DecidableEq τ] in
theorem Opened.of_setRequest (h : (s.setRequest i r).Opened u) : r = .opened u ∨ s.Opened u := by
  rcases h with hx | ⟨j, hj⟩
  · exact .inr (.inl hx)
  · simp only [setRequest] at hj
    split at hj
    · exact .inl hj
    · exact .inr (.inr ⟨j, hj⟩)

omit [DecidableEq τ] in
/-- A request moves on without opening a file. -/
theorem Retained.setRequest (h : s.Retained) (hr : ∀ u, r ≠ .opened u) :
    (s.setRequest i r).Retained :=
  fun u hu ho => h u hu (ho.of_setRequest.resolve_left (hr u))

theorem Retained.step {a : Act τ ι} (hk : s.Kept) (h : s.Retained)
    (hs : s.step cfg a = some s') : s'.Retained := by
  cases a with
  | advance ms =>
    cases hs
    exact h
  | registerGroup t =>
    obtain ⟨hn, hs⟩ := Option.ite_none_right_eq_some.mp hs
    cases hs
    exact h.registerGroup hk hn
  | lookup i t =>
    simp only [Server.step] at hs
    split at hs
    · cases hs
      refine h.setRequest fun u => ?_
      split <;> rintro ⟨⟩
    · cases hs
  | touch i =>
    simp only [Server.step] at hs
    split at hs
    · next t hi =>
      cases hs
      refine Retained.setRequest (fun u hu ho => h u hu ?_) (by rintro u ⟨⟩)
      rcases ho.of_setSession with ⟨rfl, x, hx, hf⟩ | ho
      · exact .inl ⟨x, hx, hf⟩
      · exact ho
    · cases hs
  | enter i =>
    simp only [Server.step] at hs
    split at hs
    · split at hs
      · cases hs
        exact h.setRequest (by rintro u ⟨⟩)
      · cases hs
        exact (h.setCell (by rintro ⟨⟩)).setRequest (by rintro u ⟨⟩)
      · cases hs
    · cases hs
  | openFile i =>
    have hopen : ∀ t, ((s.createFile t).setRequest i (.opened t)).Retained := by
      intro t u hu ho
      refine hasFile_createFile.mpr ?_
      rcases ho.of_setRequest with heq | ho
      · exact .inl (VideoRoute.opened.inj heq).symm
      · exact .inr (h u hu ho)
    simp only [Server.step] at hs
    split at hs
    · cases hs
      exact hopen _
    · cases hs
      exact hopen _
    · cases hs
  | commit i =>
    simp only [Server.step] at hs
    split at hs
    · next t hi =>
      cases hs
      exact (h.setCell fun _ => .inr ⟨i, hi⟩).setRequest (by rintro u ⟨⟩)
    · cases hs
  | respond i =>
    simp only [Server.step] at hs
    split at hs
    · cases hs
      exact h.setRequest (by rintro u ⟨⟩)
    · cases hs
  | write i bytes =>
    simp only [Server.step] at hs
    split at hs
    · cases hs
      exact fun u hu ho => hasFile_resizeFile.mpr (h u hu ho)
    · cases hs
  | close i =>
    simp only [Server.step] at hs
    split at hs
    · cases hs
    · cases hs
    · cases hs
      exact (h.setCell (by rintro ⟨⟩)).setRequest (by rintro u ⟨⟩)
    · cases hs
      exact (h.setCell (by rintro ⟨⟩)).setRequest (by rintro u ⟨⟩)
    · cases hs
      exact h.setRequest (by rintro u ⟨⟩)
  | runOnce order => exact h.runOnce hk hs

/-- **A registered session that has its active stream has its file**, in every run. -/
theorem retained_of_reaches {clock otherBytes : Nat}
    (h : Reaches (Server.step cfg) (fun _ _ => True) (init clock otherBytes) s) :
    s.Retained :=
  (h.inv (I := fun s => s.Kept ∧ s.Retained) ⟨kept_init, fun t ht => by cases ht⟩
    fun _ _ _ hi _ hs => ⟨kept_step hi.1 hs, hi.2.step hi.1 hs⟩).2

/-- A session that was removed stays so. -/
theorem Removed.step {a : Act τ ι} (h : s.Removed t) (hs : s.step cfg a = some s') :
    s'.Removed t := by
  have he := step_effect hs
  refine ⟨he.known h.1, fun ht => h.2 ?_⟩
  cases he with
  | registered u hn =>
    rcases List.mem_cons.mp ht with rfl | ht
    · exact absurd hn h.1
    · exact ht
  | removed order u p => exact List.mem_of_mem_filter ht
  | _ => exact ht

end Server

end StremioNzb.Streaming

import Mathlib.Logic.Function.Basic

/-!
# Runs of a labelled step function

`step s a` is the state after the act `a`, `none` where the act is not possible in `s`. A
`Run` lists the acts taken, newest first; `ok` says which acts the environment may choose in a
state. `Run.inv` is the invariant rule, `Reaches.simulated` the simulation rule, `Run.countP_le`
bounds the acts that make progress and `exists_halted` draws an end from such a bound,
and `run_of_exec` turns an evaluated schedule into a run. Where the state holds one value for
each of several parties, `update_cases` says what a move of one of them changes.
-/

namespace StremioNzb.Lib

variable {σ α : Type _}

/-- `t` is reached from `s` by the acts of the list, newest first, each allowed by `ok`. -/
inductive Run (step : σ → α → Option σ) (ok : σ → α → Prop) (s : σ) : List α → σ → Prop where
  | nil : Run step ok s [] s
  | snoc {as : List α} {t u : σ} {a : α} : Run step ok s as t → ok t a → step t a = some u →
      Run step ok s (a :: as) u

/-- `t` is reached from `s`. -/
def Reaches (step : σ → α → Option σ) (ok : σ → α → Prop) (s t : σ) : Prop :=
  ∃ as, Run step ok s as t

variable {step : σ → α → Option σ} {ok ok' : σ → α → Prop} {s t u : σ} {as : List α}

theorem Reaches.refl (s : σ) : Reaches step ok s s := ⟨[], .nil⟩

theorem Reaches.snoc {a : α} (h : Reaches step ok s t) (ha : ok t a) (hs : step t a = some u) :
    Reaches step ok s u := by
  obtain ⟨as, h⟩ := h
  exact ⟨a :: as, .snoc h ha hs⟩

/-- **The invariant rule.** -/
theorem Run.inv {I : σ → Prop} (h : Run step ok s as t) (h0 : I s)
    (hstep : ∀ t a u, I t → ok t a → step t a = some u → I u) : I t := by
  induction h with
  | nil => exact h0
  | snoc _ ha hs ih => exact hstep _ _ _ ih ha hs

theorem Reaches.inv {I : σ → Prop} (h : Reaches step ok s t) (h0 : I s)
    (hstep : ∀ t a u, I t → ok t a → step t a = some u → I u) : I t := by
  obtain ⟨as, h⟩ := h
  exact h.inv h0 hstep

theorem Run.mono (h : Run step ok s as t) (hok : ∀ t a, ok t a → ok' t a) :
    Run step ok' s as t := by
  induction h with
  | nil => exact .nil
  | snoc _ ha hs ih => exact .snoc ih (hok _ _ ha) hs

theorem Reaches.mono (h : Reaches step ok s t) (hok : ∀ t a, ok t a → ok' t a) :
    Reaches step ok' s t := by
  obtain ⟨as, h⟩ := h
  exact ⟨as, h.mono hok⟩

theorem Reaches.trans (h : Reaches step ok s t) (h' : Reaches step ok t u) :
    Reaches step ok s u := by
  obtain ⟨as, h'⟩ := h'
  induction h' with
  | nil => exact h
  | snoc _ ha hs ih => exact ih.snoc ha hs

/-- **The simulation rule**: where each step of a system, from the states of an invariant, is
matched by a run of another one, so is every run. -/
theorem Reaches.simulated {τ β : Type _} {step' : τ → β → Option τ} {ok' : τ → β → Prop}
    {view : σ → τ} {I : σ → Prop} (h : Reaches step ok s t) (h0 : I s)
    (hI : ∀ t a u, I t → ok t a → step t a = some u → I u)
    (hstep : ∀ t a u, I t → ok t a → step t a = some u → Reaches step' ok' (view t) (view u)) :
    Reaches step' ok' (view s) (view t) := by
  obtain ⟨as, h⟩ := h
  induction h with
  | nil => exact .refl _
  | snoc hr ha hs ih => exact ih.trans (hstep _ _ _ (hr.inv h0 hI) ha hs)

/-- Two systems that take the same allowed steps have the same runs. -/
theorem Reaches.congr {step' : σ → α → Option σ} (hstep : ∀ t a, ok t a → step t a = step' t a) :
    Reaches step ok s t ↔ Reaches step' ok s t := by
  constructor <;>
  · rintro ⟨as, h⟩
    refine ⟨as, ?_⟩
    induction h with
    | nil => exact .nil
    | snoc _ ha hs ih => exact .snoc ih ha (by rw [← hs, hstep _ _ ha])

/-- The acts determine where a run ends. -/
theorem Run.unique {t' : σ} (h : Run step ok s as t) (h' : Run step ok' s as t') : t = t' := by
  induction h generalizing t' with
  | nil =>
    cases h'
    rfl
  | snoc _ _ hs ih =>
    cases h' with
    | snoc h' _ hs' =>
      rw [ih h', hs'] at hs
      exact (Option.some.inj hs).symm

/-- A run is allowed throughout where its last act and the run before it are. -/
theorem Run.snoc_iff {a : α} (h : Run step ok s as t) (hs : step t a = some u) :
    Run step ok' s (a :: as) u ↔ Run step ok' s as t ∧ ok' t a := by
  constructor
  · intro hr
    cases hr with
    | snoc hr ha _ =>
      obtain rfl := h.unique hr
      exact ⟨hr, ha⟩
  · exact fun hr => hr.1.snoc hr.2 hs

/-- Acts marked by `p` decrease the measure and no act increases it, so a run has at most as
many marked acts as the measure allows. -/
theorem Run.countP_le {I : σ → Prop} {μ : σ → Nat} {p : α → Bool} (h : Run step ok s as t)
    (h0 : I s) (hstep : ∀ t a u, I t → ok t a → step t a = some u → I u)
    (hμ : ∀ t a u, I t → ok t a → step t a = some u →
      if p a then μ u < μ t else μ u ≤ μ t) : as.countP p + μ t ≤ μ s := by
  induction h with
  | nil => simp
  | @snoc as t u a hr ha hs ih =>
    have := hμ t a u (hr.inv h0 hstep) ha hs
    rw [List.countP_cons]
    split at this <;> simp_all <;> omega

/-- Where each act is one of the parties of the list, and none of them acts more than `n` times, so
many acts there are at most. -/
theorem length_le_mul {ι : Type _} {p : ι → α → Bool} {n : Nat} {is : List ι} {as : List α}
    (h : ∀ a ∈ as, ∃ i ∈ is, p i a = true) (hn : ∀ i ∈ is, as.countP (p i) ≤ n) :
    as.length ≤ is.length * n := by
  induction is generalizing as with
  | nil =>
    cases as with
    | nil => simp
    | cons a as =>
      obtain ⟨i, hi, -⟩ := h a List.mem_cons_self
      cases hi
  | cons i is ih =>
    have hrest : (as.filter fun a => ¬ p i a = true).length ≤ is.length * n := by
      refine ih (fun a ha => ?_) fun j hj => ?_
      · obtain ⟨ha, hp⟩ := List.mem_filter.mp ha
        obtain ⟨j, hj, hpj⟩ := h a ha
        rcases List.mem_cons.mp hj with rfl | hj
        · simp [hpj] at hp
        · exact ⟨j, hj, hpj⟩
      · exact Nat.le_trans (List.filter_sublist.countP_le) (hn j (List.mem_cons_of_mem _ hj))
    have hi := hn i List.mem_cons_self
    have hsum := List.length_eq_countP_add_countP (p i) (l := as)
    rw [← List.countP_eq_length_filter] at hrest
    have hmul : (i :: is).length * n = is.length * n + n := Nat.succ_mul _ _
    omega

/-- **Progress and a bound give an end**: where a marked act is possible until the system halts,
and no run has more than `n` of them, some run halts. -/
theorem exists_halted {p : α → Bool} {halted : σ → Prop} {n : Nat}
    (hb : ∀ as t, Run step ok s as t → as.countP p ≤ n)
    (hp : ∀ t, Reaches step ok s t → halted t ∨ ∃ a u, p a = true ∧ ok t a ∧ step t a = some u) :
    ∃ t, Reaches step ok s t ∧ halted t := by
  refine Classical.byContradiction fun hno => ?_
  have hrun : ∀ m, ∃ as t, Run step ok s as t ∧ as.countP p = m := by
    intro m
    induction m with
    | zero => exact ⟨[], s, .nil, rfl⟩
    | succ m ih =>
      obtain ⟨as, t, hr, hm⟩ := ih
      rcases hp t ⟨as, hr⟩ with hh | ⟨a, u, ha, hok, hs⟩
      · exact absurd ⟨t, ⟨as, hr⟩, hh⟩ hno
      · exact ⟨a :: as, u, .snoc hr hok hs, by rw [List.countP_cons, hm, if_pos ha]⟩
  obtain ⟨as, t, hr, hm⟩ := hrun (n + 1)
  have := hb as t hr
  omega

/-- When one party moves, each is the one that moved or where it was. -/
theorem update_cases {ι τ : Type _} [DecidableEq ι] {f : ι → τ} {i j : ι} {v w : τ}
    (h : Function.update f i v j = w) : (j = i ∧ v = w) ∨ f j = w := by
  rw [Function.update_apply] at h
  split at h
  · next hj => exact .inl ⟨hj, h⟩
  · exact .inr h

theorem eq_of_update {ι τ : Type _} [DecidableEq ι] {f : ι → τ} {i j : ι} {v w : τ}
    (h : Function.update f i v j = w) : v = w ∨ f j = w :=
  (update_cases h).imp_left And.right

/-- Take the acts of a schedule in order, where `okb` allows them. -/
def exec (step : σ → α → Option σ) (okb : σ → α → Bool) : σ → List α → Option σ
  | s, [] => some s
  | s, a :: as => if okb s a then (step s a).bind fun t => exec step okb t as else none

/-- **An evaluated schedule is a run**, whose acts are listed newest first. -/
theorem run_of_exec {okb : σ → α → Bool} (hok : ∀ s a, okb s a = true → ok s a) {as : List α}
    {s t : σ} (he : exec step okb s as = some t) : Run step ok s as.reverse t := by
  suffices h : ∀ (as bs : List α) (s₀ s t : σ), Run step ok s₀ bs s →
      exec step okb s as = some t → Run step ok s₀ (as.reverse ++ bs) t by
    simpa using h as [] s s t .nil he
  intro as
  induction as with
  | nil =>
    intro bs s₀ s t hr he
    cases he
    exact hr
  | cons a as ih =>
    intro bs s₀ s t hr he
    rw [exec] at he
    split at he
    · next ha =>
      obtain ⟨u, hu, he⟩ := Option.bind_eq_some_iff.mp he
      rw [List.reverse_cons, List.append_assoc]
      exact ih (a :: bs) s₀ u t (hr.snoc (hok s a ha) hu) he
    · cases he

theorem reaches_of_exec {okb : σ → α → Bool} (hok : ∀ s a, okb s a = true → ok s a) {as : List α}
    {s t : σ} (he : exec step okb s as = some t) : Reaches step ok s t :=
  ⟨_, run_of_exec hok he⟩

/-- A schedule evaluated to a state with a decidable property. -/
theorem exists_of_exec (step : σ → α → Option σ) (okb : σ → α → Bool)
    (hok : ∀ s a, okb s a = true → ok s a) (s : σ) (as : List α) (p : σ → Bool)
    (h : (exec step okb s as).any p = true) :
    ∃ t, Reaches step ok s t ∧ p t = true := by
  cases he : exec step okb s as with
  | none => simp [he] at h
  | some t => exact ⟨t, reaches_of_exec hok he, by simpa [he] using h⟩

/-- The same where the environment may choose any act. -/
theorem exists_of_exec_free (step : σ → α → Option σ) (s : σ) (as : List α) (p : σ → Bool)
    (h : (exec step (fun _ _ => true) s as).any p = true) :
    ∃ t, Reaches step (fun _ _ => True) s t ∧ p t = true :=
  exists_of_exec step _ (fun _ _ _ => trivial) s as p h

end StremioNzb.Lib

import StremioNzb.Lib.Runs

/-!
# Purged runs

A relation `R` between states that the acts to keep carry along, and that the others do not touch
on its left side, carries a whole run over to the run without the others.
-/

namespace StremioNzb.Lib

variable {σ α : Type _} {step : σ → α → Option σ} {ok : σ → α → Prop} {s s₀ t : σ} {as : List α}

/-- **Unwinding**: what is kept of a run is a run of its own. -/
theorem Run.filter (R : σ → σ → Prop) (keep : α → Bool) (h : Run step ok s as t) (h0 : R s s₀)
    (hkeep : ∀ t t₀ a u, R t t₀ → keep a = true → ok t a → step t a = some u →
      ok t₀ a ∧ ∃ u₀, step t₀ a = some u₀ ∧ R u u₀)
    (hdrop : ∀ t t₀ a u, R t t₀ → keep a = false → ok t a → step t a = some u → R u t₀) :
    ∃ t₀, Run step ok s₀ (as.filter keep) t₀ ∧ R t t₀ := by
  induction h with
  | nil => exact ⟨s₀, .nil, h0⟩
  | @snoc as t u a _ ha hs ih =>
    obtain ⟨t₀, hrun, hR⟩ := ih
    cases hk : keep a with
    | true =>
      obtain ⟨ha₀, u₀, hs₀, hR'⟩ := hkeep t t₀ a u hR hk ha hs
      rw [List.filter_cons_of_pos hk]
      exact ⟨u₀, hrun.snoc ha₀ hs₀, hR'⟩
    | false =>
      rw [List.filter_cons_of_neg (by rw [hk]; exact Bool.false_ne_true)]
      exact ⟨t₀, hrun, hdrop t t₀ a u hR hk ha hs⟩

end StremioNzb.Lib

import Mathlib.Logic.Function.Basic

/-!
# Caches whose entries expire

An entry is a value with the time it was inserted; `get` sees it while it is younger than the
time to live. `All P` says that every entry, expired or not, satisfies `P`.
-/

namespace StremioNzb.Lib

abbrev TtlCache (κ ν : Type*) := κ → Option (ν × Nat)

namespace TtlCache

variable {κ ν : Type*}

def empty : TtlCache κ ν := fun _ => none

def get (c : TtlCache κ ν) (ttl now : Nat) (k : κ) : Option ν :=
  match c k with
  | some (v, born) => if now < born + ttl then some v else none
  | none => none

def insert [DecidableEq κ] (c : TtlCache κ ν) (now : Nat) (k : κ) (v : ν) : TtlCache κ ν :=
  Function.update c k (some (v, now))

def invalidate [DecidableEq κ] (c : TtlCache κ ν) (k : κ) : TtlCache κ ν :=
  Function.update c k none

/-- Every entry satisfies `P`. -/
def All (P : κ → ν → Prop) (c : TtlCache κ ν) : Prop := ∀ k v born, c k = some (v, born) → P k v

variable {P Q : κ → ν → Prop} {c : TtlCache κ ν} {ttl now : Nat} {k k' : κ} {v : ν}

theorem all_empty : All P (empty : TtlCache κ ν) := by
  intro k v born h
  cases h

theorem All.imp (h : All P c) (hPQ : ∀ k v, P k v → Q k v) : All Q c :=
  fun k v born hk => hPQ k v (h k v born hk)

theorem exists_of_get (h : c.get ttl now k = some v) : ∃ born, c k = some (v, born) := by
  unfold get at h
  split at h
  · next v' born hk =>
    split at h
    · exact ⟨born, by rw [hk, Option.some.inj h]⟩
    · cases h
  · cases h

/-- What a cache answers satisfies `P`. -/
theorem All.get (h : All P c) (hg : c.get ttl now k = some v) : P k v := by
  obtain ⟨born, hk⟩ := exists_of_get hg
  exact h k v born hk

theorem All.insert [DecidableEq κ] (h : All P c) (hp : P k v) : All P (c.insert now k v) := by
  intro k' v' born hk
  by_cases hkk : k' = k
  · subst hkk
    rw [TtlCache.insert, Function.update_self] at hk
    cases hk
    exact hp
  · rw [TtlCache.insert, Function.update_of_ne hkk] at hk
    exact h k' v' born hk

/-- What is left after an invalidation has other keys. -/
theorem All.invalidate_imp [DecidableEq κ] (h : All P c) (hPQ : ∀ k' v, k' ≠ k → P k' v → Q k' v) :
    All Q (c.invalidate k) := by
  intro k' v' born hk
  by_cases hkk : k' = k
  · subst hkk
    rw [TtlCache.invalidate, Function.update_self] at hk
    cases hk
  · rw [TtlCache.invalidate, Function.update_of_ne hkk] at hk
    exact hPQ k' v' hkk (h k' v' born hk)

theorem All.invalidate [DecidableEq κ] (h : All P c) : All P (c.invalidate k) :=
  h.invalidate_imp fun _ _ _ hp => hp

theorem get_empty : (empty : TtlCache κ ν).get ttl now k = none := rfl

theorem get_insert_self [DecidableEq κ] (h : 0 < ttl) :
    (c.insert now k v).get ttl now k = some v := by
  simp [insert, get, h]

theorem get_invalidate_of_ne [DecidableEq κ] (h : k ≠ k') :
    (c.invalidate k').get ttl now k = c.get ttl now k := by
  simp [invalidate, get, h]

end TtlCache

end StremioNzb.Lib

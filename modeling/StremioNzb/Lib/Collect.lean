import Mathlib.Data.List.Induction
import Mathlib.Data.List.Nodup
import Mathlib.Data.List.Perm.Basic

/-!
# Maps collected from pairs

A finite map as the list of its entries, of which no two have one key. `collect` puts pairs into a
map one after the other, so that the last value of a key stays (`lookup_collect`).
-/

namespace StremioNzb.Lib

variable {κ α : Type*} [DecidableEq κ] {m m' xs ys : List (κ × α)} {e : κ × α} {k : κ} {v : α}

/-- The entry replaces the one of its key. -/
def insertEntry (m : List (κ × α)) (e : κ × α) : List (κ × α) := e :: m.filter (·.1 ≠ e.1)

def collect (xs : List (κ × α)) : List (κ × α) := xs.foldl insertEntry []

/-! ## Entries -/

theorem mem_iff_lookup (h : (m.map Prod.fst).Nodup) : (k, v) ∈ m ↔ m.lookup k = some v := by
  induction m with
  | nil => simp
  | cons e m ih =>
    obtain ⟨hnot, hnd⟩ := List.nodup_cons.mp h
    rw [List.mem_cons, List.lookup_cons, ih hnd]
    by_cases hk : k = e.1
    · subst hk
      have hnone : m.lookup e.1 ≠ some v := fun hv =>
        hnot (List.mem_map.mpr ⟨_, (ih hnd).mpr hv, rfl⟩)
      simp [hnone, Prod.ext_iff, eq_comm]
    · have hne : (k == e.1) = false := by simpa using hk
      simp [hne, Prod.ext_iff, hk]

theorem lookup_perm (hp : m.Perm m') (h : (m.map Prod.fst).Nodup) : m.lookup k = m'.lookup k := by
  ext v
  have h' : (m'.map Prod.fst).Nodup := (hp.map _).nodup_iff.mp h
  rw [← mem_iff_lookup h, ← mem_iff_lookup h', hp.mem_iff]

theorem perm_of_lookup (h : (m.map Prod.fst).Nodup) (h' : (m'.map Prod.fst).Nodup)
    (heq : ∀ k, m.lookup k = m'.lookup k) : m.Perm m' :=
  (List.perm_ext_iff_of_nodup h.of_map h'.of_map).mpr fun ⟨k, v⟩ => by
    rw [mem_iff_lookup h, mem_iff_lookup h', heq k]

/-! ## Inserting -/

theorem nodup_insertEntry (h : (m.map Prod.fst).Nodup) :
    ((insertEntry m e).map Prod.fst).Nodup := by
  rw [insertEntry, List.map_cons, List.nodup_cons]
  refine ⟨fun hmem => ?_, (List.filter_sublist.map _).nodup h⟩
  obtain ⟨e', he', hkey⟩ := List.mem_map.mp hmem
  have hne : e'.1 ≠ e.1 := by simpa using (List.mem_filter.mp he').2
  exact hne hkey

/-- Leaving out other keys does not change what is found. -/
theorem lookup_filter_key {q : κ → Bool} (hq : q k = true) :
    (m.filter fun e => q e.1).lookup k = m.lookup k := by
  induction m with
  | nil => rfl
  | cons e m ih =>
    by_cases he : q e.1
    · rw [List.filter_cons, if_pos he, List.lookup_cons, List.lookup_cons, ih]
    · have hne : (k == e.1) = false := beq_eq_false_iff_ne.mpr fun hk => he (hk ▸ hq)
      rw [List.filter_cons, if_neg he, List.lookup_cons, hne, ih]

theorem lookup_insertEntry :
    (insertEntry m e).lookup k = if k = e.1 then some e.2 else m.lookup k := by
  rw [insertEntry, List.lookup_cons]
  by_cases hk : k = e.1
  · simp [hk]
  · have hne : (k == e.1) = false := by simpa using hk
    rw [hne, if_neg hk]
    exact lookup_filter_key (q := fun k => k ≠ e.1) (by simpa using hk)

theorem nodup_foldl_insertEntry (h : (m.map Prod.fst).Nodup) :
    ((xs.foldl insertEntry m).map Prod.fst).Nodup := by
  induction xs generalizing m with
  | nil => exact h
  | cons e xs ih => exact ih (nodup_insertEntry h)

theorem nodup_collect (xs : List (κ × α)) : ((collect xs).map Prod.fst).Nodup :=
  nodup_foldl_insertEntry List.nodup_nil

/-- The last value of a key stays. -/
theorem lookup_collect (xs : List (κ × α)) (k : κ) :
    (collect xs).lookup k = xs.reverse.lookup k := by
  induction xs using List.reverseRec with
  | nil => rfl
  | append_singleton xs e ih =>
    rw [collect, List.foldl_append, List.foldl_cons, List.foldl_nil, lookup_insertEntry,
      List.reverse_append, List.reverse_singleton, List.singleton_append, List.lookup_cons]
    by_cases hk : k = e.1
    · simp [hk]
    · have hne : (k == e.1) = false := by simpa using hk
      rw [if_neg hk, hne]
      exact ih

theorem mem_of_lookup_collect (h : (collect xs).lookup k = some v) : (k, v) ∈ xs := by
  rw [lookup_collect] at h
  obtain ⟨l₁, l₂, heq, -⟩ := List.lookup_eq_some_iff.mp h
  refine List.mem_reverse.mp ?_
  rw [heq]
  exact List.mem_append_right _ List.mem_cons_self

theorem lookup_collect_isSome (h : (k, v) ∈ xs) : ((collect xs).lookup k).isSome := by
  rw [lookup_collect, List.lookup_isSome_iff]
  exact ⟨(k, v), List.mem_reverse.mpr h, by simp⟩

theorem lookup_collect_append_singleton (xs : List (κ × α)) (k : κ) (v : α) :
    (collect (xs ++ [(k, v)])).lookup k = some v := by
  rw [lookup_collect, List.reverse_append, List.reverse_singleton, List.singleton_append,
    List.lookup_cons_self]

end StremioNzb.Lib

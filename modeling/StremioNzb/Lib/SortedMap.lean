import Mathlib.Order.Lattice
import Mathlib.Tactic.Tauto
import Mathlib.Data.List.Pairwise

/-!
# Key-sorted maps

A finite map as the list of its entries in strictly increasing key order: what an ordered
tree map shows to its callers. `mem_insert` and `mem_remove` say what an update does to the
entries, `lastUpTo_eq_some` and `lastUpTo_eq_none` what a backwards search from a key finds.
-/

namespace StremioNzb.Lib

/-- A finite map, its entries in strictly increasing key order. -/
structure SortedMap (κ ν : Type*) [LinearOrder κ] where
  entries : List (κ × ν)
  sorted : entries.Pairwise fun p q => p.1 < q.1

namespace SortedMap

variable {κ ν : Type*} [LinearOrder κ] {m : SortedMap κ ν} {p q : κ × ν} {k : κ} {v : ν}

instance : Membership (κ × ν) (SortedMap κ ν) := ⟨fun m p => p ∈ m.entries⟩

theorem mem_def : p ∈ m ↔ p ∈ m.entries := Iff.rfl

/-- A key has one value. -/
theorem eq_of_key (hp : p ∈ m) (hq : q ∈ m) (h : p.1 = q.1) : p = q := by
  have : Std.Symm fun p q : κ × ν => p.1 ≠ q.1 := ⟨fun _ _ => Ne.symm⟩
  by_contra hne
  exact (m.sorted.imp ne_of_lt).forall hp hq hne h

/-- A map is determined by its entries. -/
theorem ext_mem {m m' : SortedMap κ ν} (h : ∀ p, p ∈ m ↔ p ∈ m') : m = m' := by
  have hnd : ∀ l : SortedMap κ ν, l.entries.Nodup := fun l =>
    l.sorted.imp fun hlt heq => hlt.ne (congrArg Prod.fst heq)
  have hp : m.entries.Perm m'.entries := (List.perm_ext_iff_of_nodup (hnd m) (hnd m')).mpr h
  have he : m.entries = m'.entries :=
    hp.eq_of_pairwise (fun _ _ _ _ h1 h2 => absurd (h1.trans h2) (lt_irrefl _)) m.sorted m'.sorted
  cases m
  cases m'
  exact (SortedMap.mk.injEq ..).mpr he

def empty : SortedMap κ ν := ⟨[], .nil⟩

@[simp] theorem not_mem_empty : p ∉ (empty : SortedMap κ ν) := List.not_mem_nil

/-- Keep the entries whose key satisfies `f`. -/
def filterKeys (m : SortedMap κ ν) (f : κ → Bool) : SortedMap κ ν :=
  ⟨m.entries.filter fun p => f p.1, m.sorted.filter _⟩

def remove (m : SortedMap κ ν) (k : κ) : SortedMap κ ν := m.filterKeys fun k' => k' ≠ k

def get? (m : SortedMap κ ν) (k : κ) : Option ν :=
  (m.entries.find? fun p => p.1 = k).map Prod.snd

def insert (m : SortedMap κ ν) (k : κ) (v : ν) : SortedMap κ ν where
  entries := m.entries.filter (fun p => p.1 < k) ++ (k, v) :: m.entries.filter (fun p => k < p.1)
  sorted := by
    simp only [List.pairwise_append, List.pairwise_cons, List.mem_filter, List.mem_cons,
      decide_eq_true_eq]
    refine ⟨m.sorted.filter _, ⟨fun q hq => hq.2, m.sorted.filter _⟩, ?_⟩
    rintro p ⟨-, hp⟩ q (rfl | ⟨-, hq⟩)
    · exact hp
    · exact lt_trans hp hq

/-- The entry with the largest key up to `k`. -/
def lastUpTo (m : SortedMap κ ν) (k : κ) : Option (κ × ν) :=
  (m.entries.filter fun p => p.1 ≤ k).getLast?

theorem mem_filterKeys {f : κ → Bool} : p ∈ m.filterKeys f ↔ p ∈ m ∧ f p.1 = true :=
  List.mem_filter

@[simp] theorem mem_remove : p ∈ m.remove k ↔ p ∈ m ∧ p.1 ≠ k := by
  rw [remove, mem_filterKeys, decide_eq_true_eq]

@[simp] theorem mem_insert : p ∈ m.insert k v ↔ p = (k, v) ∨ p ∈ m ∧ p.1 ≠ k := by
  simp only [mem_def, insert, List.mem_append, List.mem_filter, List.mem_cons, decide_eq_true_eq]
  rw [ne_iff_lt_or_gt]
  tauto

theorem get?_eq_some : m.get? k = some v ↔ (k, v) ∈ m := by
  unfold get?
  constructor
  · intro h
    obtain ⟨p, hp, rfl⟩ := Option.map_eq_some_iff.mp h
    have hk : p.1 = k := by simpa using List.find?_some hp
    exact hk ▸ List.mem_of_find?_eq_some hp
  · intro h
    cases hf : m.entries.find? fun p => p.1 = k with
    | none => simpa using List.find?_eq_none.mp hf _ h
    | some p =>
      have hk : p.1 = k := by simpa using List.find?_some hf
      rw [eq_of_key (List.mem_of_find?_eq_some hf) h hk]
      rfl

theorem lastUpTo_eq_none : m.lastUpTo k = none ↔ ∀ p ∈ m, k < p.1 := by
  simp [lastUpTo, mem_def]

/-- The entry found is the greatest one up to the key. -/
theorem lastUpTo_eq_some (h : m.lastUpTo k = some p) :
    p ∈ m ∧ p.1 ≤ k ∧ ∀ q ∈ m, q.1 ≤ k → q.1 ≤ p.1 := by
  obtain ⟨init, hl⟩ := List.getLast?_eq_some_iff.mp h
  have hp : p ∈ m.entries.filter fun p => p.1 ≤ k := by rw [hl]; simp
  have hp' := List.mem_filter.mp hp
  refine ⟨hp'.1, by simpa using hp'.2, fun q hq hk => ?_⟩
  have hs := m.sorted.filter fun p => p.1 ≤ k
  have hq' : q ∈ m.entries.filter fun p => p.1 ≤ k := List.mem_filter.mpr ⟨hq, by simpa using hk⟩
  rw [hl] at hs hq'
  rcases List.mem_append.mp hq' with hi | hi
  · exact le_of_lt ((List.pairwise_append.mp hs).2.2 q hi p (by simp))
  · rw [List.mem_singleton.mp hi]

end SortedMap

end StremioNzb.Lib

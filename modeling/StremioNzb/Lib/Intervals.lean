import Mathlib.Order.Lattice
import Mathlib.Data.Set.Basic
import StremioNzb.Lib.SortedMap

/-!
# Interval maps

A key-sorted map read as a set of half-open intervals: the entry `(s, e)` is `[s, e)`.
`Canonical` maps have non-empty intervals that neither overlap nor touch, so a range lies in
the set exactly when one interval holds it (`Canonical.covers_iff`). `canonical_of_merge` and
`canonical_of_cut` say which maps arise from adding and from deleting a range, and `points`
says which set they denote.
-/

namespace StremioNzb.Lib

variable {α : Type*} [LinearOrder α]

namespace SortedMap

/-- The elements the intervals hold. -/
def points (m : SortedMap α α) : Set α := {x | ∃ p ∈ m, p.1 ≤ x ∧ x < p.2}

/-- Non-empty intervals, in order, none touching the next. -/
structure Canonical (m : SortedMap α α) : Prop where
  pos : ∀ p ∈ m, p.1 < p.2
  sep : ∀ p ∈ m, ∀ q ∈ m, p.1 < q.1 → p.2 < q.1

/-- One interval holds all of `[s, e)`. -/
def Covers (m : SortedMap α α) (s e : α) : Prop := ∃ p ∈ m, p.1 ≤ s ∧ e ≤ p.2

end SortedMap

open SortedMap

variable {m m' : SortedMap α α} {s e x : α}

theorem canonical_empty : Canonical (empty : SortedMap α α) :=
  ⟨fun _ h => absurd h not_mem_empty, fun _ h => absurd h not_mem_empty⟩

@[simp] theorem points_empty : points (empty : SortedMap α α) = ∅ := by
  ext x; simp [points]

namespace SortedMap.Canonical

/-- Two intervals of a canonical map that share an element are one. -/
theorem eq_of_point (h : Canonical m) {p q : α × α} (hp : p ∈ m) (hq : q ∈ m)
    (h1 : p.1 ≤ x) (h2 : x < p.2) (h3 : q.1 ≤ x) (h4 : x < q.2) : p = q := by
  rcases lt_trichotomy p.1 q.1 with hlt | heq | hgt
  · exact absurd (h2.trans (h.sep p hp q hq hlt)) (not_lt.mpr h3)
  · exact eq_of_key hp hq heq
  · exact absurd (h4.trans (h.sep q hq p hp hgt)) (not_lt.mpr h1)

/-- A range lies in the set exactly when one interval holds it. -/
theorem covers_iff (h : Canonical m) (hse : s < e) :
    Covers m s e ↔ ∀ x, s ≤ x → x < e → x ∈ points m := by
  constructor
  · rintro ⟨p, hp, h1, h2⟩ x hs he
    exact ⟨p, hp, h1.trans hs, he.trans_le h2⟩
  · intro hall
    obtain ⟨p, hp, h1, h2⟩ := hall s le_rfl hse
    refine ⟨p, hp, h1, ?_⟩
    by_contra hlt
    -- the end of `p` lies in the range, so a second interval would have to touch `p`
    obtain ⟨q, hq, h3, h4⟩ := hall p.2 h2.le (not_le.mp hlt)
    rcases lt_trichotomy p.1 q.1 with hpq | heq | hqp
    · exact absurd (h.sep p hp q hq hpq) (not_lt.mpr h3)
    · rw [eq_of_key hp hq heq] at h4
      exact lt_irrefl _ h4
    · exact absurd ((h.pos p hp).trans (h4.trans (h.sep q hq p hp hqp))) (lt_irrefl _)

/-- An interval of one map is an interval of any canonical map of the same set. -/
theorem mem_of_points_eq (h : Canonical m) (h' : Canonical m') (hp : points m = points m')
    {p : α × α} (hm : p ∈ m) : p ∈ m' := by
  obtain ⟨q, hq, h1, h2⟩ := (h'.covers_iff (h.pos p hm)).mpr fun x hs he => hp ▸ ⟨p, hm, hs, he⟩
  -- `q` spans `p`, and what spans `q` in turn can only be `p`
  obtain ⟨r, hr, h3, h4⟩ := (h.covers_iff (h'.pos q hq)).mpr fun x hs he => hp ▸ ⟨q, hq, hs, he⟩
  have hlt := h.pos p hm
  obtain rfl : p = r := h.eq_of_point hm hr le_rfl hlt (h3.trans h1) (hlt.trans_le (h2.trans h4))
  have heq : p = q := Prod.ext (le_antisymm h3 h1) (le_antisymm h2 h4)
  exact heq ▸ hq

/-- **A canonical map is determined by the set it denotes.** -/
theorem eq_of_points_eq (h : Canonical m) (h' : Canonical m') (hp : points m = points m') :
    m = m' :=
  ext_mem fun _ => ⟨h.mem_of_points_eq h' hp, h'.mem_of_points_eq h hp.symm⟩

end SortedMap.Canonical

/-- The intervals that overlap or touch `[s, e]`. -/
def Touches (s e : α) (p : α × α) : Prop := p.1 ≤ e ∧ s ≤ p.2

/-- `m'` is `m` with every interval touching `[s, e]` replaced by one that spans them all. -/
structure IsMerge (m : SortedMap α α) (s e s' e' : α) (m' : SortedMap α α) : Prop where
  mem : ∀ p, p ∈ m' ↔ p = (s', e') ∨ p ∈ m ∧ ¬ Touches s e p
  start_le : s' ≤ s ∧ ∀ p ∈ m, Touches s e p → s' ≤ p.1
  le_stop : e ≤ e' ∧ ∀ p ∈ m, Touches s e p → p.2 ≤ e'
  start_eq : s' = s ∨ ∃ p ∈ m, Touches s e p ∧ s' = p.1
  stop_eq : e' = e ∨ ∃ p ∈ m, Touches s e p ∧ e' = p.2

namespace IsMerge

variable {s' e' : α} (h : IsMerge m s e s' e' m') (hm : Canonical m) (hse : s < e)
include h hm

/-- An interval that is kept lies off the merged one, with a gap. -/
theorem apart {p : α × α} (hp : p ∈ m) (hn : ¬ Touches s e p) : p.2 < s' ∨ e' < p.1 := by
  rcases lt_or_ge e p.1 with he | he
  · right
    rcases h.stop_eq with rfl | ⟨q, hq, ht, rfl⟩
    · exact he
    · exact hm.sep q hq p hp (ht.1.trans_lt he)
  · left
    have hs : p.2 < s := not_le.mp fun hs => hn ⟨he, hs⟩
    rcases h.start_eq with rfl | ⟨q, hq, ht, rfl⟩
    · exact hs
    · have hlt : p.2 < q.2 := hs.trans_le ht.2
      refine hm.sep p hp q hq (lt_of_not_ge fun hle => ?_)
      rcases hle.lt_or_eq with hlt' | heq
      · exact lt_irrefl _ (hlt.trans ((hm.sep q hq p hp hlt').trans (hm.pos p hp)))
      · rw [eq_of_key hq hp heq] at hlt
        exact lt_irrefl _ hlt

include hse in
theorem canonical : Canonical m' := by
  have hpos : s' < e' := h.start_le.1.trans_lt (hse.trans_le h.le_stop.1)
  constructor
  · intro p hp
    rcases (h.mem p).mp hp with rfl | ⟨hp, -⟩
    · exact hpos
    · exact hm.pos p hp
  · intro p hp q hq hlt
    rcases (h.mem p).mp hp with rfl | ⟨hp, hnp⟩ <;> rcases (h.mem q).mp hq with rfl | ⟨hq, hnq⟩
    · exact absurd hlt (lt_irrefl _)
    · rcases h.apart hm hq hnq with ha | ha
      · exact absurd ((hm.pos q hq).trans (ha.trans hlt)) (lt_irrefl _)
      · exact ha
    · rcases h.apart hm hp hnp with ha | ha
      · exact ha
      · exact absurd (hlt.trans (hpos.trans ha)) (lt_irrefl _)
    · exact hm.sep p hp q hq hlt

omit hm in
include hse in
theorem points_eq : points m' = points m ∪ {x | s ≤ x ∧ x < e} := by
  ext x
  simp only [points, Set.mem_union, Set.mem_ofPred_eq]
  constructor
  · rintro ⟨p, hp, h1, h2⟩
    rcases (h.mem p).mp hp with rfl | ⟨hp, -⟩
    · rcases lt_or_ge x s with hx | hx
      · obtain rfl | ⟨q, hq, ht, rfl⟩ := h.start_eq
        · exact absurd hx (not_lt.mpr h1)
        · exact .inl ⟨q, hq, h1, hx.trans_le ht.2⟩
      · rcases lt_or_ge x e with hxe | hxe
        · exact .inr ⟨hx, hxe⟩
        · obtain rfl | ⟨q, hq, ht, rfl⟩ := h.stop_eq
          · exact absurd h2 (not_lt.mpr hxe)
          · exact .inl ⟨q, hq, ht.1.trans hxe, h2⟩
    · exact .inl ⟨p, hp, h1, h2⟩
  · rintro (⟨p, hp, h1, h2⟩ | ⟨h1, h2⟩)
    · by_cases ht : Touches s e p
      · exact ⟨(s', e'), (h.mem _).mpr (.inl rfl), (h.start_le.2 p hp ht).trans h1,
          h2.trans_le (h.le_stop.2 p hp ht)⟩
      · exact ⟨p, (h.mem p).mpr (.inr ⟨hp, ht⟩), h1, h2⟩
    · exact ⟨(s', e'), (h.mem _).mpr (.inl rfl), h.start_le.1.trans h1, h2.trans_le h.le_stop.1⟩

end IsMerge

/-- The intervals that share an element with `[s, e)`. -/
def Meets (s e : α) (p : α × α) : Prop := p.1 < e ∧ s < p.2

/-- `m'` is `m` with `[s, e)` cut out of every interval that meets it. -/
structure IsCut (m : SortedMap α α) (s e : α) (m' : SortedMap α α) : Prop where
  mem : ∀ p, p ∈ m' ↔ p ∈ m ∧ ¬ Meets s e p ∨
    ∃ q ∈ m, Meets s e q ∧ (q.1 < s ∧ p = (q.1, s) ∨ e < q.2 ∧ p = (e, q.2))

namespace IsCut

variable (h : IsCut m s e m') (hm : Canonical m) (hse : s < e)
include h

/-- Where an interval of the cut map comes from: kept whole, or the part of an old interval
before or after the range. -/
theorem cases {p : α × α} (hp : p ∈ m') : ∃ q ∈ m, q.1 ≤ p.1 ∧ p.2 ≤ q.2 ∧
    (¬ Meets s e q ∧ p = q ∨ Meets s e q ∧ q.1 < s ∧ p = (q.1, s) ∨
      Meets s e q ∧ e < q.2 ∧ p = (e, q.2)) := by
  rcases (h.mem p).mp hp with ⟨hp, hn⟩ | ⟨q, hq, ht, ⟨hlt, rfl⟩ | ⟨hlt, rfl⟩⟩
  · exact ⟨p, hp, le_rfl, le_rfl, .inl ⟨hn, rfl⟩⟩
  · exact ⟨q, hq, le_rfl, ht.2.le, .inr (.inl ⟨ht, hlt, rfl⟩)⟩
  · exact ⟨q, hq, ht.1.le, le_rfl, .inr (.inr ⟨ht, hlt, rfl⟩)⟩

include hm hse in
theorem canonical : Canonical m' := by
  have hpos : ∀ p ∈ m', p.1 < p.2 := by
    intro p hp
    obtain ⟨q, hq, -, -, ⟨-, rfl⟩ | ⟨-, hlt, rfl⟩ | ⟨-, hlt, rfl⟩⟩ := h.cases hp
    · exact hm.pos p hq
    · exact hlt
    · exact hlt
  refine ⟨hpos, fun p hp p' hp' hlt => ?_⟩
  obtain ⟨q, hq, h1, h2, hpq⟩ := h.cases hp
  obtain ⟨q', hq', h3, h4, hpq'⟩ := h.cases hp'
  rcases lt_trichotomy q.1 q'.1 with hqq | hqq | hqq
  · exact h2.trans_lt ((hm.sep q hq q' hq' hqq).trans_le h3)
  · -- both come from one interval, so they are its two parts
    obtain rfl := eq_of_key hq hq' hqq
    obtain ⟨hn, rfl⟩ | ⟨ht, -, rfl⟩ | ⟨ht, -, rfl⟩ := hpq
    · obtain ⟨-, rfl⟩ | ⟨ht, -, rfl⟩ | ⟨ht, -, rfl⟩ := hpq'
      · exact absurd hlt (lt_irrefl _)
      · exact absurd ht hn
      · exact absurd ht hn
    · obtain ⟨hn, rfl⟩ | ⟨-, -, rfl⟩ | ⟨-, -, rfl⟩ := hpq'
      · exact absurd hlt (lt_irrefl _)
      · exact absurd hlt (lt_irrefl _)
      · exact hse
    · exact absurd (hlt.trans_le' ht.1.le) (not_lt.mpr (by
        obtain ⟨hn, rfl⟩ | ⟨-, -, rfl⟩ | ⟨-, -, rfl⟩ := hpq'
        · exact absurd ht hn
        · exact le_rfl
        · exact absurd hlt (lt_irrefl _)))
  · have := hm.sep q' hq' q hq hqq
    exact absurd ((hpos p' hp').trans_le h4 |>.trans (this.trans_le h1)) (not_lt.mpr hlt.le)

omit hm hse in
theorem points_eq : points m' = points m \ {x | s ≤ x ∧ x < e} := by
  ext x
  simp only [points, Set.mem_sdiff, Set.mem_ofPred_eq]
  constructor
  · rintro ⟨p, hp, h1, h2⟩
    obtain ⟨q, hq, h3, h4, hpq⟩ := h.cases hp
    refine ⟨⟨q, hq, h3.trans h1, h2.trans_le h4⟩, fun ⟨hs, he⟩ => ?_⟩
    obtain ⟨hn, rfl⟩ | ⟨-, -, rfl⟩ | ⟨-, -, rfl⟩ := hpq
    · exact hn ⟨h1.trans_lt he, hs.trans_lt h2⟩
    · exact absurd h2 (not_lt.mpr hs)
    · exact absurd he (not_lt.mpr h1)
  · rintro ⟨⟨q, hq, h1, h2⟩, hn⟩
    by_cases ht : Meets s e q
    · rcases lt_or_ge x s with hx | hx
      · exact ⟨(q.1, s), (h.mem _).mpr (.inr ⟨q, hq, ht, .inl ⟨h1.trans_lt hx, rfl⟩⟩), h1, hx⟩
      · have he : e ≤ x := not_lt.mp fun he => hn ⟨hx, he⟩
        exact ⟨(e, q.2), (h.mem _).mpr (.inr ⟨q, hq, ht, .inr ⟨he.trans_lt h2, rfl⟩⟩), he, h2⟩
    · exact ⟨q, (h.mem _).mpr (.inl ⟨hq, ht⟩), h1, h2⟩

end IsCut

end StremioNzb.Lib

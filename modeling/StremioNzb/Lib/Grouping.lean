import Mathlib.Logic.Function.Basic
import Mathlib.Order.Lattice
import Mathlib.Data.List.Basic
import Mathlib.Data.List.Pairwise
import Mathlib.Data.List.Induction

/-!
# Grouping and limiting

`groupOn key xs` splits a list by key, the groups in the order their keys first appear.
`IsGrouping` says what a list of groups looks like, and `groupOn_flatten` that grouping undoes
the flattening of one. `limitPer n bucket xs` keeps the first `n` elements of every bucket;
`limitPer_limitPer` and `limitPer_eq_self` say when the limit shows.
-/

namespace StremioNzb.Lib

variable {α κ β : Type*} [DecidableEq κ] [DecidableEq β]

/-! ## Groups -/

/-- The list split by key. -/
def groupOn (key : α → κ) (xs : List α) : List (List α) :=
  (xs.map key).eraseDups.map fun k => xs.filter fun x => key x = k

/-- Non-empty groups of one key each, no key in two groups. -/
structure IsGrouping (key : α → κ) (gs : List (List α)) : Prop where
  nonempty : ∀ g ∈ gs, g ≠ []
  same : ∀ g ∈ gs, ∀ x ∈ g, ∀ y ∈ g, key x = key y
  apart : gs.Pairwise fun g h => ∀ x ∈ g, ∀ y ∈ h, key x ≠ key y

variable {key : α → κ} {gs gs' : List (List α)}

omit [DecidableEq κ] in
theorem IsGrouping.sublist (h : IsGrouping key gs) (hs : gs'.Sublist gs) : IsGrouping key gs' :=
  ⟨fun g hg => h.nonempty g (hs.subset hg), fun g hg => h.same g (hs.subset hg),
    h.apart.sublist hs⟩

theorem groupOn_cons (key : α → κ) (x : α) (xs : List α) :
    groupOn key (x :: xs) = (x :: xs.filter fun y => key y = key x) ::
      groupOn key (xs.filter fun y => key y ≠ key x) := by
  unfold groupOn
  rw [List.map_cons, List.eraseDups_cons, List.map_cons]
  have hmap : ((xs.map key).filter fun k => !k == key x) =
      (xs.filter fun y => key y ≠ key x).map key := by
    rw [List.filter_map]
    congr 1
    apply List.filter_congr
    intro y _
    simp [beq_eq_decide]
  rw [hmap]
  congr 1
  · simp
  · apply List.map_congr_left
    intro k hk
    -- the keys that are left differ from that of `x`
    obtain ⟨y, hy, rfl⟩ := List.mem_map.mp (List.mem_eraseDups.mp hk)
    have hne : key y ≠ key x := by simpa using (List.mem_filter.mp hy).2
    rw [List.filter_cons_of_neg (by simpa using hne.symm), List.filter_filter]
    apply List.filter_congr
    intro z _
    by_cases hz : key z = key y
    · simp [hz, hne]
    · simp [hz]

/-- Induction along the groups: what holds without the first element's group holds with it. -/
theorem groupOn_induction (key : α → κ) {P : List α → Prop} (nil : P [])
    (cons : ∀ x xs, P (xs.filter fun y => key y ≠ key x) → P (x :: xs)) : ∀ xs, P xs
  | [] => nil
  | x :: xs => cons x xs (groupOn_induction key nil cons _)
  termination_by xs => xs.length
  decreasing_by exact Nat.lt_succ_of_le (List.length_filter_le _ _)

theorem subset_of_mem_groupOn {xs g : List α} (h : g ∈ groupOn key xs) : g ⊆ xs := by
  obtain ⟨k, -, rfl⟩ := List.mem_map.mp h
  exact fun x hx => (List.mem_filter.mp hx).1

theorem isGrouping_groupOn (key : α → κ) (xs : List α) : IsGrouping key (groupOn key xs) := by
  induction xs using groupOn_induction key with
  | nil => exact ⟨by simp [groupOn], by simp [groupOn], .nil⟩
  | cons x xs ih =>
    rw [groupOn_cons]
    refine ⟨?_, ?_, ?_⟩
    · intro g hg
      rcases List.mem_cons.mp hg with rfl | hg
      · exact List.cons_ne_nil _ _
      · exact ih.nonempty g hg
    · intro g hg
      rcases List.mem_cons.mp hg with rfl | hg
      · have hx : ∀ y ∈ x :: xs.filter (fun y => key y = key x), key y = key x := by simp
        exact fun y hy z hz => (hx y hy).trans (hx z hz).symm
      · exact ih.same g hg
    · refine List.pairwise_cons.mpr ⟨fun g hg y hy z hz h => ?_, ih.apart⟩
      have hy : key y = key x := by
        rcases List.mem_cons.mp hy with rfl | hy
        · rfl
        · simpa using (List.mem_filter.mp hy).2
      have hz : key z ≠ key x := by
        simpa using (List.mem_filter.mp (subset_of_mem_groupOn hg hz)).2
      exact hz (h.symm.trans hy)

/-- **Grouping undoes flattening.** -/
theorem groupOn_flatten : ∀ {gs : List (List α)}, IsGrouping key gs → groupOn key gs.flatten = gs
  | [], _ => rfl
  | [] :: _, h => absurd rfl (h.nonempty [] List.mem_cons_self)
  | (x :: g) :: gs, h => by
    have hg : ∀ y ∈ g, key y = key x := fun y hy =>
      h.same _ List.mem_cons_self y (List.mem_cons_of_mem _ hy) x List.mem_cons_self
    have hgs : ∀ y ∈ gs.flatten, key y ≠ key x := by
      intro y hy
      obtain ⟨g', hg', hy⟩ := List.mem_flatten.mp hy
      exact ((List.pairwise_cons.mp h.apart).1 g' hg' x List.mem_cons_self y hy).symm
    have ih := groupOn_flatten (h.sublist (List.sublist_cons_self _ gs))
    rw [List.flatten_cons, List.cons_append, groupOn_cons, List.filter_append, List.filter_append,
      List.filter_eq_self.mpr (by simpa using hg), List.filter_eq_nil_iff.mpr (by simpa using hgs),
      List.filter_eq_nil_iff.mpr (by simpa using hg), List.filter_eq_self.mpr (by simpa using hgs),
      List.append_nil, List.nil_append, ih]

/-- Grouping a list sorted by a rank of the keys leaves the groups sorted. -/
theorem pairwise_flatten_groupOn {ρ : Type*} [LinearOrder ρ] (rank : κ → ρ) {xs : List α}
    (h : xs.Pairwise fun x y => rank (key x) ≤ rank (key y)) :
    (groupOn key xs).flatten.Pairwise fun x y => rank (key x) ≤ rank (key y) := by
  induction xs using groupOn_induction key with
  | nil => exact .nil
  | cons x xs ih =>
    obtain ⟨hx, h⟩ := List.pairwise_cons.mp h
    rw [groupOn_cons, List.flatten_cons]
    have hkey : ∀ y ∈ x :: xs.filter (fun y => key y = key x), key y = key x := by simp
    refine List.pairwise_append.mpr ⟨?_, ih (h.sublist List.filter_sublist), ?_⟩
    · refine List.pairwise_of_forall_mem_list fun y hy z hz => ?_
      rw [hkey y hy, hkey z hz]
    · intro y hy z hz
      obtain ⟨g, hg, hz⟩ := List.mem_flatten.mp hz
      rw [hkey y hy]
      exact hx z (List.mem_filter.mp (subset_of_mem_groupOn hg hz)).1

/-- Every key has a group, and its first element carries the key. -/
theorem exists_cons_of_mem_keys (key : α → κ) (xs : List α) : ∀ k ∈ (xs.map key).eraseDups,
    ∃ x g, xs.filter (fun y => key y = k) = x :: g ∧ key x = k := by
  intro k hk
  obtain ⟨y, hy, hyk⟩ := List.mem_map.mp (List.mem_eraseDups.mp hk)
  cases hg : xs.filter fun y => key y = k with
  | nil => exact absurd hyk (by simpa using List.filter_eq_nil_iff.mp hg y hy)
  | cons x g =>
    have hx : x ∈ xs.filter fun y => key y = k := hg ▸ List.mem_cons_self
    exact ⟨x, g, rfl, by simpa using (List.mem_filter.mp hx).2⟩

/-- Counting groups by their first element is counting keys. -/
theorem countP_groupOn {f : List α → Bool} {p : κ → Bool} (h : ∀ x g, f (x :: g) = p (key x))
    (xs : List α) : (groupOn key xs).countP f = (xs.map key).eraseDups.countP p := by
  rw [groupOn, List.countP_map]
  apply List.countP_congr
  intro k hk
  obtain ⟨x, g, hg, rfl⟩ := exists_cons_of_mem_keys key xs k hk
  rw [Function.comp_apply, hg, h]

/-- Nothing is lost or repeated. -/
theorem flatten_groupOn_perm (key : α → κ) (xs : List α) : (groupOn key xs).flatten.Perm xs := by
  induction xs using groupOn_induction key with
  | nil => exact .refl _
  | cons x xs ih =>
    rw [groupOn_cons, List.flatten_cons, List.cons_append]
    refine .cons x ((ih.append_left _).trans ?_)
    have h := xs.filter_append_perm fun y => key y = key x
    simpa using h

/-- The elements of one key keep their order. -/
theorem filter_flatten_groupOn (k : κ) (xs : List α) :
    (groupOn key xs).flatten.filter (key · = k) = xs.filter (key · = k) := by
  induction xs using groupOn_induction key with
  | nil => rfl
  | cons x xs ih =>
    rw [groupOn_cons, List.flatten_cons, List.filter_append, ih, List.filter_filter]
    by_cases hx : key x = k
    · subst hx
      have hsame : (x :: xs.filter fun y => key y = key x).filter (key · = key x) =
          x :: xs.filter fun y => key y = key x := List.filter_eq_self.mpr (by simp)
      have hother : (xs.filter fun y => decide (key y = key x) && decide (key y ≠ key x)) = [] :=
        List.filter_eq_nil_iff.mpr (by simp)
      rw [hsame, hother, List.append_nil, List.filter_cons_of_pos (by simp)]
    · have hnone : (x :: xs.filter fun y => key y = key x).filter (key · = k) = [] :=
        List.filter_eq_nil_iff.mpr (by simp +contextual [hx])
      rw [hnone, List.nil_append, List.filter_cons_of_neg (by simpa using hx)]
      refine List.filter_congr fun y _ => ?_
      by_cases hy : key y = k <;> simp [hy, Ne.symm hx]

/-- The groups of the keys that satisfy `p`. -/
theorem filter_groupOn {p : κ → Bool} {f : List α → Bool} (hf : ∀ x g, f (x :: g) = p (key x))
    (xs : List α) :
    (groupOn key xs).filter f = groupOn key (xs.filter fun x => p (key x)) := by
  induction xs using groupOn_induction key with
  | nil => rfl
  | cons x xs ih =>
    rw [groupOn_cons, List.filter_cons, hf, ih]
    have hcomm : (xs.filter fun y => p (key y)).filter (fun y => key y ≠ key x) =
        (xs.filter fun y => key y ≠ key x).filter fun y => p (key y) := by
      rw [List.filter_filter, List.filter_filter]
      simp only [Bool.and_comm]
    cases hp : p (key x) with
    | true =>
      rw [List.filter_cons_of_pos (by simpa using hp), groupOn_cons, hcomm, if_pos rfl]
      congr 2
      rw [List.filter_filter]
      refine List.filter_congr fun y _ => ?_
      by_cases hy : key y = key x
      · simp [hy, hp]
      · simp [hy]
    | false =>
      rw [List.filter_cons_of_neg (by simpa using hp), if_neg (by simp), ← hcomm]
      congr 1
      refine List.filter_eq_self.mpr fun y hy => ?_
      have hy := (List.mem_filter.mp hy).2
      simpa using fun h : key y = key x => by rw [h, hp] at hy; cases hy

theorem nodup_eraseDups : ∀ ks : List κ, ks.eraseDups.Nodup
  | [] => .nil
  | k :: ks => by
    rw [List.eraseDups_cons]
    refine List.nodup_cons.mpr ⟨fun h => ?_, nodup_eraseDups _⟩
    simpa using (List.mem_filter.mp (List.mem_eraseDups.mp h)).2
  termination_by ks => ks.length
  decreasing_by exact Nat.lt_succ_of_le (List.length_filter_le _ _)

/-- The keys that are left stand in the order of their first appearance. -/
theorem pairwise_idxOf_eraseDups (ks : List κ) :
    ks.eraseDups.Pairwise fun k l => ks.idxOf k < ks.idxOf l := by
  induction ks using List.reverseRecOn with
  | nil => exact .nil
  | append_singleton ks k ih =>
    have hold : ∀ l ∈ ks.eraseDups, (ks ++ [k]).idxOf l = ks.idxOf l := fun l hl =>
      List.idxOf_append_of_mem (List.mem_eraseDups.mp hl)
    have hks : ks.eraseDups.Pairwise fun l l' => (ks ++ [k]).idxOf l < (ks ++ [k]).idxOf l' := by
      refine ih.imp_of_mem fun {l l'} hl hl' h => ?_
      rw [hold l hl, hold l' hl']
      exact h
    rw [List.eraseDups_append]
    by_cases hk : k ∈ ks
    · simpa [List.removeAll, hk] using hks
    · have hnew : ([k].removeAll ks).eraseDups = [k] := by
        simp [List.removeAll, hk, List.eraseDups_cons]
      rw [hnew]
      refine List.pairwise_append.mpr ⟨hks, List.pairwise_singleton _ _, fun l hl l' hl' => ?_⟩
      obtain rfl := List.mem_singleton.mp hl'
      rw [hold l hl, List.idxOf_append_of_notMem hk]
      have := List.idxOf_lt_length_of_mem (List.mem_eraseDups.mp hl)
      omega

theorem perm_eraseDups {ks ks' : List κ} (h : ks.Perm ks') : ks.eraseDups.Perm ks'.eraseDups := by
  refine (List.perm_ext_iff_of_nodup (nodup_eraseDups ks) (nodup_eraseDups ks')).mpr fun k => ?_
  rw [List.mem_eraseDups, List.mem_eraseDups, h.mem_iff]

/-! ## Limits -/

/-- `limitPer` where `counts` elements of each bucket were kept before. -/
def limitFrom (n : Nat) (bucket : α → β) : (β → Nat) → List α → List α
  | _, [] => []
  | counts, x :: xs =>
    let c := counts (bucket x)
    if c < n then x :: limitFrom n bucket (Function.update counts (bucket x) (c + 1)) xs
    else limitFrom n bucket counts xs

/-- The first `n` elements of every bucket. -/
def limitPer (n : Nat) (bucket : α → β) (xs : List α) : List α := limitFrom n bucket (fun _ => 0) xs

variable {n m : Nat} {bucket : α → β}

theorem limitFrom_sublist (n : Nat) (bucket : α → β) : ∀ (xs : List α) (counts : β → Nat),
    (limitFrom n bucket counts xs).Sublist xs
  | [], _ => .slnil
  | x :: xs, counts => by
    unfold limitFrom
    simp only
    split
    · exact (limitFrom_sublist n bucket xs _).cons_cons x
    · exact (limitFrom_sublist n bucket xs _).cons x

theorem limitPer_sublist (n : Nat) (bucket : α → β) (xs : List α) :
    (limitPer n bucket xs).Sublist xs :=
  limitFrom_sublist n bucket xs _

theorem countP_limitFrom (b : β) : ∀ (xs : List α) (counts : β → Nat), counts b ≤ n →
    (limitFrom n bucket counts xs).countP (bucket · = b) + counts b =
      min n (xs.countP (bucket · = b) + counts b)
  | [], counts, h => by simp [limitFrom, h]
  | x :: xs, counts, h => by
    unfold limitFrom
    simp only
    by_cases hx : bucket x = b
    · subst hx
      split
      · have ih := countP_limitFrom (bucket x) xs
          (Function.update counts (bucket x) (counts (bucket x) + 1)) (by simpa)
        simp only [Function.update_self] at ih
        simp only [List.countP_cons, decide_true, if_true]
        omega
      · have ih := countP_limitFrom (bucket x) xs counts h
        simp only [List.countP_cons, decide_true, if_true]
        omega
    · split
      · have ih := countP_limitFrom b xs
          (Function.update counts (bucket x) (counts (bucket x) + 1))
          (by rwa [Function.update_of_ne (Ne.symm hx)])
        rw [Function.update_of_ne (Ne.symm hx)] at ih
        simpa [List.countP_cons, hx] using ih
      · simpa [List.countP_cons, hx] using countP_limitFrom b xs counts h

/-- A bucket keeps what it holds, up to the limit. -/
theorem countP_limitPer (b : β) (xs : List α) :
    (limitPer n bucket xs).countP (bucket · = b) = min n (xs.countP (bucket · = b)) :=
  countP_limitFrom b xs (fun _ => 0) (Nat.zero_le n)

theorem limitFrom_eq_self : ∀ (xs : List α) (counts : β → Nat),
    (∀ b, xs.countP (bucket · = b) + counts b ≤ n) → limitFrom n bucket counts xs = xs
  | [], _, _ => rfl
  | x :: xs, counts, h => by
    have hx := h (bucket x)
    simp only [List.countP_cons, decide_true, if_true] at hx
    unfold limitFrom
    rw [if_pos (by omega), limitFrom_eq_self xs]
    intro b
    have hb := h b
    by_cases hxb : bucket x = b
    · subst hxb
      rw [Function.update_self]
      omega
    · rw [Function.update_of_ne (Ne.symm hxb)]
      simpa [List.countP_cons, hxb] using hb

/-- The limit drops nothing exactly when no bucket holds more. -/
theorem limitPer_eq_self {xs : List α} :
    limitPer n bucket xs = xs ↔ ∀ b, xs.countP (bucket · = b) ≤ n := by
  constructor
  · intro h b
    have hb : (limitPer n bucket xs).countP (bucket · = b) = min n (xs.countP (bucket · = b)) :=
      countP_limitPer b xs
    rw [h] at hb
    omega
  · exact limitFrom_eq_self xs (fun _ => 0)

theorem limitFrom_limitFrom (hnm : n ≤ m) : ∀ (xs : List α) (cn cm : β → Nat),
    (∀ b, cn b = min n (cm b)) →
      limitFrom n bucket cn (limitFrom m bucket cm xs) = limitFrom n bucket cn xs
  | [], _, _, _ => rfl
  | x :: xs, cn, cm, h => by
    have hx := h (bucket x)
    rw [limitFrom.eq_2 m, limitFrom.eq_2 n _ cn x xs]
    by_cases hm : cm (bucket x) < m
    · rw [if_pos hm, limitFrom.eq_2]
      split
      · rw [limitFrom_limitFrom hnm xs]
        intro b
        by_cases hb : b = bucket x
        · subst hb
          simp only [Function.update_self]
          omega
        · rw [Function.update_of_ne hb, Function.update_of_ne hb, h b]
      · apply limitFrom_limitFrom hnm xs
        intro b
        by_cases hb : b = bucket x
        · subst hb
          simp only [Function.update_self]
          omega
        · rw [Function.update_of_ne hb, h b]
    · -- the larger limit is reached, so the smaller one is
      rw [if_neg hm, if_neg (by omega)]
      exact limitFrom_limitFrom hnm xs cn cm h

/-- A limit up to the one already applied does not see it. -/
theorem limitPer_limitPer (hnm : n ≤ m) (xs : List α) :
    limitPer n bucket (limitPer m bucket xs) = limitPer n bucket xs :=
  limitFrom_limitFrom hnm xs (fun _ => 0) (fun _ => 0) fun _ => (Nat.min_zero n).symm

/-- A limit from the one already applied on drops nothing more. -/
theorem limitPer_limitPer_of_ge (hnm : m ≤ n) (xs : List α) :
    limitPer n bucket (limitPer m bucket xs) = limitPer m bucket xs := by
  refine limitPer_eq_self.mpr fun b => ?_
  rw [countP_limitPer]
  omega

/-- `limitFrom` where the counts come from elements before the list. -/
theorem limitFrom_eq_filter : ∀ (xs done : List α) (counts : β → Nat),
    (∀ b, counts b = min n (done.countP (bucket · = b))) →
      limitFrom n bucket counts xs = ((xs.zipIdx done.length).filter fun p =>
        ((done ++ xs).take p.2).countP (bucket · = bucket p.1) < n).map (·.1)
  | [], _, _, _ => rfl
  | x :: xs, done, counts, h => by
    have hx := h (bucket x)
    have hpre : (done ++ x :: xs).take done.length = done := List.take_left
    have hlen : (done ++ [x]).length = done.length + 1 := List.length_append
    have ih := limitFrom_eq_filter xs (done ++ [x])
    rw [hlen, List.append_assoc, List.singleton_append] at ih
    unfold limitFrom
    rw [List.zipIdx_cons, List.filter_cons]
    simp only [hpre]
    by_cases hlt : counts (bucket x) < n
    · rw [if_pos hlt, if_pos (by simpa using by omega), List.map_cons, ih]
      intro b
      rw [List.countP_append, List.countP_singleton]
      by_cases hb : b = bucket x
      · subst hb
        rw [Function.update_self]
        simp only [decide_true, if_true]
        omega
      · rw [Function.update_of_ne hb, h b]
        simp [Ne.symm hb]
    · -- the bucket is full, and stays so
      rw [if_neg hlt, if_neg (by simpa using by omega), ih]
      intro b
      rw [List.countP_append, List.countP_singleton]
      by_cases hb : b = bucket x
      · subst hb
        simp only [decide_true, if_true]
        omega
      · rw [h b]
        simp [Ne.symm hb]

/-- **The limit keeps an element exactly when fewer than `n` before it share its bucket.** -/
theorem limitPer_eq_filter (n : Nat) (bucket : α → β) (xs : List α) :
    limitPer n bucket xs = (xs.zipIdx.filter fun p =>
      (xs.take p.2).countP (bucket · = bucket p.1) < n).map (·.1) :=
  limitFrom_eq_filter xs [] (fun _ => 0) fun b => by simp

theorem filter_limitFrom (b : β) : ∀ (xs : List α) (counts : β → Nat),
    (limitFrom n bucket counts xs).filter (bucket · = b) =
      (xs.filter (bucket · = b)).take (n - counts b)
  | [], _ => by simp [limitFrom]
  | x :: xs, counts => by
    unfold limitFrom
    simp only
    by_cases hx : bucket x = b
    · subst hx
      rw [List.filter_cons_of_pos (by simp)]
      split
      · rw [List.filter_cons_of_pos (by simp), filter_limitFrom _ xs, Function.update_self,
          show n - counts (bucket x) = n - (counts (bucket x) + 1) + 1 by omega,
          List.take_succ_cons]
      · rw [filter_limitFrom _ xs, show n - counts (bucket x) = 0 by omega, List.take_zero,
          List.take_zero]
    · rw [List.filter_cons_of_neg (by simpa using hx)]
      split
      · rw [List.filter_cons_of_neg (by simpa using hx), filter_limitFrom b xs,
          Function.update_of_ne (Ne.symm hx)]
      · exact filter_limitFrom b xs counts

/-- A bucket keeps its first elements. -/
theorem filter_limitPer (b : β) (xs : List α) : (limitPer n bucket xs).filter (bucket · = b) =
    (xs.filter (bucket · = b)).take n :=
  filter_limitFrom b xs fun _ => 0

/-- Nothing of a bucket that has room is dropped. -/
theorem mem_limitPer_of_countP_le {xs : List α} {x : α} (hx : x ∈ xs)
    (h : xs.countP (bucket · = bucket x) ≤ n) : x ∈ limitPer n bucket xs := by
  rw [List.countP_eq_length_filter] at h
  have hmem : x ∈ (limitPer n bucket xs).filter (bucket · = bucket x) := by
    rw [filter_limitPer, List.take_of_length_le h]
    exact List.mem_filter.mpr ⟨hx, by simp⟩
  exact (List.mem_filter.mp hmem).1

/-! ## Other elements of the same keys -/

section
variable {γ : Type*}

omit [DecidableEq β] in
theorem groupOn_map (f : γ → α) (key : α → κ) (xs : List γ) :
    groupOn key (xs.map f) = (groupOn (fun x => key (f x)) xs).map (List.map f) := by
  unfold groupOn
  rw [List.map_map, List.map_map]
  refine List.map_congr_left fun k _ => ?_
  exact List.filter_map

theorem limitFrom_map (f : γ → α) : ∀ (xs : List γ) (counts : β → Nat),
    limitFrom n bucket counts (xs.map f) =
      (limitFrom n (fun x => bucket (f x)) counts xs).map f
  | [], _ => rfl
  | x :: xs, counts => by
    rw [List.map_cons]
    unfold limitFrom
    simp only
    split
    · rw [List.map_cons, limitFrom_map f xs]
    · exact limitFrom_map f xs counts

theorem limitPer_map (f : γ → α) (xs : List γ) :
    limitPer n bucket (xs.map f) = (limitPer n (fun x => bucket (f x)) xs).map f :=
  limitFrom_map f xs _

end

omit [DecidableEq κ] [DecidableEq β] in
/-- Non-empty groups are no more than their elements, and as many where each has one. -/
theorem length_flatten_le : ∀ {gs : List (List α)}, (∀ g ∈ gs, g ≠ []) →
    gs.length ≤ gs.flatten.length ∧
      (gs.flatten.length ≤ gs.length ↔ ∀ g ∈ gs, g.length = 1)
  | [], _ => by simp
  | g :: gs, h => by
    obtain ⟨hle, hiff⟩ := length_flatten_le fun g' hg' => h g' (List.mem_cons_of_mem g hg')
    have hpos := List.length_pos_iff.mpr (h g List.mem_cons_self)
    rw [List.flatten_cons, List.length_append, List.length_cons, List.forall_mem_cons, ← hiff]
    omega

omit [DecidableEq κ] [DecidableEq β] in
/-- The first `n` of some non-empty groups hold no more than `n` elements exactly when all
groups together do, or there are `n` groups and the first `n` have one element each. -/
theorem length_flatten_take_le (n : Nat) {gs : List (List α)} (h : ∀ g ∈ gs, g ≠ []) :
    (gs.take n).flatten.length ≤ n ↔
      gs.flatten.length ≤ n ∨ n ≤ gs.length ∧ ∀ g ∈ gs.take n, g.length = 1 := by
  obtain ⟨hle, hone⟩ := length_flatten_le h
  have hne : ∀ g ∈ gs.take n, g ≠ [] := fun g hg => h g (List.mem_of_mem_take hg)
  have htake := (length_flatten_le hne).2
  by_cases hn : n ≤ gs.length
  · rw [List.length_take_of_le hn] at htake
    rw [htake]
    constructor
    · exact fun hall => .inr ⟨hn, hall⟩
    · rintro (hflat | ⟨-, hall⟩)
      · exact fun g hg => hone.mp (by omega) g (List.mem_of_mem_take hg)
      · exact hall
  · rw [List.take_of_length_le (by omega)]
    exact ⟨.inl, fun h => h.resolve_right fun h => hn h.1⟩

end StremioNzb.Lib

import StremioNzb.Streaming.Words

/-!
# Reconciling declared and decoded sizes

`build_segment_refs` lays a flat file out by the sizes its NZB declares, and
`rebuild_for_decoded_stride` corrects them by the decoded size of the first part and the file
size in its header. A `FlatPost` is a file as it was posted; `reconciled` says that what comes
out is where its parts lie (`FlatPost.trueSegments`), in whatever order the NZB lists them.
-/

namespace StremioNzb.Streaming

open StremioNzb.Lib

/-- A file posted in parts of one decoded size, but for the last. -/
structure FlatPost where
  /-- The parts as the NZB declares them, by number. -/
  parts : List Segment
  /-- Their decoded sizes. -/
  decoded : List Nat
  partSize : Nat
  ascending : parts.Pairwise fun p q => p.number < q.number
  length_eq : decoded.length = parts.length
  ne_nil : decoded ≠ []
  uniform : ∀ i d, decoded[i]? = some d → i + 1 < decoded.length → d = partSize
  last_le : ∀ i d, decoded[i]? = some d → i + 1 = decoded.length → 1 ≤ d ∧ d ≤ partSize
  fits : decoded.sum < 2 ^ 64

namespace FlatPost

/-- The decoded size of the first part. -/
def stride (p : FlatPost) : Nat := p.decoded.headD 0

def fileSize (p : FlatPost) : Nat := p.decoded.sum

/-- The declared sizes are the decoded ones, or the first is not the size of the parts. -/
def Declares (p : FlatPost) : Prop :=
  p.parts.map (·.size) = p.decoded ∨ p.parts.head?.map (·.size) ≠ some p.partSize

/-- Where the parts lie in the file. -/
def trueSegments (p : FlatPost) (serverIndex : Nat) : List SegmentRef :=
  p.parts.mapIdx fun i part =>
    ⟨serverIndex, part.messageId, p.decoded.getD i 0, (p.decoded.take i).sum⟩

/-! ## The listing -/

/-- Sorting finds the order of the parts. -/
theorem sortByNumber_listing (p : FlatPost) {listing : List Segment}
    (hperm : listing.Perm p.parts) : sortByNumber listing = p.parts := by
  have hsort : (sortByNumber listing).Perm listing := listing.perm_insertionSort _
  have htotal : Std.Total fun s t : Segment => s.number ≤ t.number := ⟨fun _ _ => Nat.le_total _ _⟩
  have htrans : IsTrans Segment fun s t => s.number ≤ t.number := ⟨fun _ _ _ => Nat.le_trans⟩
  have hnodup : (p.parts.map (·.number)).Nodup :=
    List.pairwise_map.mpr (p.ascending.imp Nat.ne_of_lt)
  have hsorted : (sortByNumber listing).Pairwise fun s t => s.number ≤ t.number :=
    listing.pairwise_insertionSort _
  have hsame : ∀ a b, a ∈ sortByNumber listing → b ∈ p.parts → a.number ≤ b.number →
      b.number ≤ a.number → a = b := fun a b ha hb hab hba =>
    List.inj_on_of_nodup_map hnodup ((hsort.trans hperm).mem_iff.mp ha) hb
      (Nat.le_antisymm hab hba)
  exact List.Perm.eq_of_pairwise hsame hsorted (p.ascending.imp Nat.le_of_lt)
    (hsort.trans hperm)

/-! ## The decoded sizes -/

section
variable (p : FlatPost) {i d : Nat}

theorem decoded_pos : 0 < p.decoded.length := List.length_pos_iff.mpr p.ne_nil

theorem decoded_zero : p.decoded[0]? = some p.stride := by
  unfold stride
  cases hd : p.decoded with
  | nil => exact absurd hd p.ne_nil
  | cons d ds => rfl

/-- All parts but the last have the size of the first. -/
theorem eq_stride (hd : p.decoded[i]? = some d) (hi : i + 1 < p.decoded.length) : d = p.stride := by
  rw [p.uniform i d hd hi, p.uniform 0 p.stride p.decoded_zero (by omega)]

/-- The last one is no larger. -/
theorem le_stride (hd : p.decoded[i]? = some d) (hi : i + 1 = p.decoded.length) :
    1 ≤ d ∧ d ≤ p.stride := by
  obtain ⟨hpos, hle⟩ := p.last_le i d hd hi
  refine ⟨hpos, ?_⟩
  by_cases hone : i = 0
  · subst hone
    have := hd.symm.trans p.decoded_zero
    simp only [Option.some.injEq] at this
    omega
  · rwa [p.uniform 0 p.stride p.decoded_zero (by omega)]

/-- A part starts at a multiple of the stride. -/
theorem sum_take (hi : i < p.decoded.length) : (p.decoded.take i).sum = i * p.stride := by
  have h := @blockTotal_uniform Nat id (p.decoded.take i) p.stride
  rw [blockTotal, List.map_id, List.length_take_of_le hi.le] at h
  apply h
  intro d hd
  obtain ⟨j, hj⟩ := List.mem_iff_getElem?.mp hd
  have hlt : j < i := by
    have := (List.getElem?_eq_some_iff.mp hj).1
    rw [List.length_take] at this
    omega
  rw [List.getElem?_take_of_lt hlt] at hj
  exact p.eq_stride hj (by omega)

/-- The file ends with the last part. -/
theorem fileSize_eq (hd : p.decoded[i]? = some d) (hi : i + 1 = p.decoded.length) :
    p.fileSize = i * p.stride + d := by
  have htake : p.decoded = p.decoded.take i ++ [d] := by
    have h := List.take_add_one (l := p.decoded) (i := i)
    rw [hi, List.take_length, hd] at h
    exact h
  rw [fileSize, ← p.sum_take (by omega)]
  conv_lhs => rw [htake]
  rw [List.sum_append, List.sum_singleton]

end

/-! ## The segments -/

theorem getElem?_go (srv : Nat) : ∀ (segs : List Segment) (o i : Nat),
    (buildSegmentRefs.go srv segs o)[i]? = segs[i]?.map fun seg =>
      ⟨srv, seg.messageId, seg.size, o + blockStart Segment.size segs i⟩
  | [], _, _ => rfl
  | seg :: segs, o, 0 => rfl
  | seg :: segs, o, i + 1 => by
    rw [buildSegmentRefs.go, List.getElem?_cons_succ, List.getElem?_cons_succ, getElem?_go srv segs,
      blockStart_cons_succ]
    simp only [Nat.add_assoc]

/-- All but the offsets is that of the parts, whether or not the declared sizes fit. -/
theorem getElem?_go64 (srv : Nat) : ∀ (segs : List Segment) (o i : Nat), ∃ offset,
    (buildSegmentRefs64.go srv segs o)[i]? = segs[i]?.map fun seg =>
      ⟨srv, seg.messageId, seg.size, offset⟩
  | [], _, _ => ⟨0, rfl⟩
  | seg :: segs, o, 0 => ⟨o, rfl⟩
  | seg :: segs, o, i + 1 => by
    obtain ⟨offset, h⟩ := getElem?_go64 srv segs (add64 o seg.size) i
    exact ⟨offset, by rwa [buildSegmentRefs64.go, List.getElem?_cons_succ, List.getElem?_cons_succ]⟩

theorem length_go64 (srv : Nat) : ∀ (segs : List Segment) (o : Nat),
    (buildSegmentRefs64.go srv segs o).length = segs.length
  | [], _ => rfl
  | _ :: segs, _ => congrArg (· + 1) (length_go64 srv segs _)

theorem rebuild64_of_eq {segs : List SegmentRef} {first : SegmentRef} {stride : Nat}
    {fs : Option Nat} (h0 : segs[0]? = some first) (he : first.bytes = stride) :
    rebuildForDecodedStride64 segs stride fs = (segs, (segs.map (·.bytes)).foldl add64 0) := by
  cases segs with
  | nil => cases h0
  | cons s segs =>
    cases h0
    exact if_pos he

theorem rebuild64_of_ne {segs : List SegmentRef} {first : SegmentRef} {stride : Nat}
    {fs : Option Nat} (h0 : segs[0]? = some first) (hne : first.bytes ≠ stride) :
    rebuildForDecodedStride64 segs stride fs =
      (segs.mapIdx fun i seg =>
        { seg with
          offsetInStream := mul64 i stride
          bytes := if i < segs.length - 1 then stride
            else min (computedTotal64 segs.length stride fs - mul64 i stride) stride },
        computedTotal64 segs.length stride fs) := by
  cases segs with
  | nil => cases h0
  | cons s segs =>
    cases h0
    exact if_neg hne

section
variable (p : FlatPost) (srv : Nat)

theorem exists_first : ∃ part, p.parts[0]? = some part := by
  have hpos : 0 < p.parts.length := p.length_eq ▸ p.decoded_pos
  exact ⟨_, List.getElem?_eq_getElem hpos⟩

theorem exists_decoded {i : Nat} {part : Segment} (hi : p.parts[i]? = some part) :
    ∃ d, p.decoded[i]? = some d := by
  have hlt : i < p.decoded.length := p.length_eq ▸ (List.getElem?_eq_some_iff.mp hi).1
  exact ⟨_, List.getElem?_eq_getElem hlt⟩

theorem getElem?_trueSegments (i : Nat) : (p.trueSegments srv)[i]? = p.parts[i]?.map fun part =>
    ⟨srv, part.messageId, p.decoded.getD i 0, (p.decoded.take i).sum⟩ :=
  List.getElem?_mapIdx

/-- The declared sizes are right: nothing is changed. -/
theorem rebuild_of_declared (h : p.parts.map (·.size) = p.decoded) :
    rebuildForDecodedStride64 (buildSegmentRefs64.go srv p.parts 0) p.stride (some p.fileSize) =
      (p.trueSegments srv, p.fileSize) := by
  have htotal : blockTotal Segment.size p.parts = p.fileSize := congrArg List.sum h
  have hfits := p.fits
  have hgo := buildSegmentRefs64_go_eq srv p.parts 0 (by rw [htotal, Nat.zero_add]; exact hfits)
  have hsegs : buildSegmentRefs.go srv p.parts 0 = p.trueSegments srv := by
    refine List.ext_getElem? fun i => ?_
    rw [getElem?_go, p.getElem?_trueSegments, Nat.zero_add]
    cases hi : p.parts[i]? with
    | none => rfl
    | some part =>
      have hsize : p.decoded[i]? = some part.size := by
        rw [← h, List.getElem?_map, hi]
        rfl
      have hstart : blockStart Segment.size p.parts i = (p.decoded.take i).sum := by
        rw [← h, ← List.map_take]
        rfl
      simp [hstart, hsize]
  obtain ⟨part, hpart⟩ := p.exists_first
  have hfirst : (buildSegmentRefs64.go srv p.parts 0)[0]? =
      some ⟨srv, part.messageId, part.size, 0⟩ := by
    rw [hgo, getElem?_go, hpart]
    rfl
  have hstride : part.size = p.stride := by
    have hzero := p.decoded_zero
    rw [← h, List.getElem?_map, hpart] at hzero
    exact Option.some.inj hzero
  have hbytes : ((buildSegmentRefs64.go srv p.parts 0).map (·.bytes)).foldl add64 0 =
      p.fileSize := by
    rw [hgo, bytes_buildSegmentRefs_go, h, foldl_add64_eq _ _ (by rw [Nat.zero_add]; exact hfits),
      Nat.zero_add, fileSize]
  rw [rebuild64_of_eq hfirst hstride, hbytes, hgo, hsegs]

/-- Where a part starts does not wrap. -/
theorem mul64_stride {i : Nat} (hi : i < p.decoded.length) : mul64 i p.stride = i * p.stride := by
  obtain ⟨d, hd⟩ : ∃ d, p.decoded[p.decoded.length - 1]? = some d :=
    ⟨_, List.getElem?_eq_getElem (by omega)⟩
  have hsize := p.fileSize_eq hd (by omega)
  have hle : i * p.stride ≤ (p.decoded.length - 1) * p.stride := Nat.mul_le_mul_right _ (by omega)
  have hfits : p.fileSize < 2 ^ 64 := p.fits
  exact mul64_eq (by omega)

/-- The size of the file is plausible for parts of that stride. -/
theorem computedTotal64_eq :
    computedTotal64 p.decoded.length p.stride (some p.fileSize) = p.fileSize := by
  have hpos := p.decoded_pos
  obtain ⟨d, hd⟩ : ∃ d, p.decoded[p.decoded.length - 1]? = some d :=
    ⟨_, List.getElem?_eq_getElem (by omega)⟩
  have hlast := p.le_stride hd (by omega)
  have hsize := p.fileSize_eq hd (by omega)
  simp only [computedTotal64]
  rw [p.mul64_stride (by omega), if_pos (by omega)]

/-- The stride, or what is left of the file, is the size of the part. -/
theorem rebuilt_bytes {i d : Nat} (hd : p.decoded[i]? = some d) :
    (if i < p.decoded.length - 1 then p.stride else min (p.fileSize - i * p.stride) p.stride) =
      d := by
  have hlt : i < p.decoded.length := (List.getElem?_eq_some_iff.mp hd).1
  split
  · exact (p.eq_stride hd (by omega)).symm
  · have hlast := p.le_stride hd (by omega)
    have hsize := p.fileSize_eq hd (by omega)
    omega

/-- The first declared size is wrong: all are replaced. -/
theorem rebuild_of_wrong (h : p.parts.head?.map (·.size) ≠ some p.stride) :
    rebuildForDecodedStride64 (buildSegmentRefs64.go srv p.parts 0) p.stride (some p.fileSize) =
      (p.trueSegments srv, p.fileSize) := by
  obtain ⟨part, hpart⟩ := p.exists_first
  obtain ⟨offset, hfirst⟩ := getElem?_go64 srv p.parts 0 0
  rw [hpart, Option.map_some] at hfirst
  have hne : part.size ≠ p.stride := by
    rw [List.head?_eq_getElem?, hpart] at h
    exact fun heq => h (congrArg some heq)
  have hlen : (buildSegmentRefs64.go srv p.parts 0).length = p.decoded.length := by
    rw [length_go64, p.length_eq]
  rw [rebuild64_of_ne hfirst hne, hlen, p.computedTotal64_eq]
  refine Prod.ext (List.ext_getElem? fun i => ?_) rfl
  obtain ⟨offset, hi⟩ := getElem?_go64 srv p.parts 0 i
  rw [List.getElem?_mapIdx, hi, p.getElem?_trueSegments]
  cases hpart : p.parts[i]? with
  | none => rfl
  | some part =>
    obtain ⟨d, hd⟩ := p.exists_decoded hpart
    have hlt : i < p.decoded.length := (List.getElem?_eq_some_iff.mp hd).1
    have hget : p.decoded.getD i 0 = d := by rw [List.getD_eq_getElem?_getD, hd, Option.getD_some]
    simp only [Option.map_some, p.mul64_stride hlt, p.rebuilt_bytes hd, hget, p.sum_take hlt]

/-- **Flat layouts are reconciled exactly.** -/
theorem reconciled (listing : List Segment) (hperm : listing.Perm p.parts) (hdecl : p.Declares) :
    rebuildForDecodedStride64 (buildSegmentRefs64 listing srv) p.stride (some p.fileSize) =
        (p.trueSegments srv, p.fileSize) ∧
      ∃ last, (p.trueSegments srv).getLast? = some last ∧
        last.offsetInStream + last.bytes = p.fileSize := by
  have hpos := p.decoded_pos
  constructor
  · rw [buildSegmentRefs64, p.sortByNumber_listing hperm]
    by_cases hw : p.parts.head?.map (·.size) = some p.stride
    · apply p.rebuild_of_declared
      rcases hdecl with h | h
      · exact h
      · -- a first size other than that of the parts can only be right where there is one part
        have hone : p.decoded.length = 1 := by
          by_contra hne
          have hstride := p.uniform 0 p.stride p.decoded_zero (by omega)
          exact h (hstride ▸ hw)
        have hparts : p.parts.length = 1 := p.length_eq ▸ hone
        obtain ⟨part, hp⟩ := List.length_eq_one_iff.mp hparts
        obtain ⟨d, hd⟩ := List.length_eq_one_iff.mp hone
        have hzero := p.decoded_zero
        rw [hd] at hzero
        rw [hp] at hw
        have hsize : part.size = p.stride := Option.some.inj hw
        have hd' : d = p.stride := Option.some.inj hzero
        rw [hp, hd, List.map_singleton, hsize, hd']
    · exact p.rebuild_of_wrong srv hw
  · obtain ⟨d, hd⟩ : ∃ d, p.decoded[p.decoded.length - 1]? = some d :=
      ⟨_, List.getElem?_eq_getElem (by omega)⟩
    obtain ⟨part, hpart⟩ : ∃ part, p.parts[p.decoded.length - 1]? = some part :=
      ⟨_, List.getElem?_eq_getElem (by rw [← p.length_eq]; omega)⟩
    refine ⟨⟨srv, part.messageId, d, (p.decoded.take (p.decoded.length - 1)).sum⟩, ?_, ?_⟩
    · have hlen : (p.trueSegments srv).length = p.decoded.length := by
        rw [trueSegments, List.length_mapIdx, p.length_eq]
      rw [List.getLast?_eq_getElem?, hlen, p.getElem?_trueSegments, hpart, Option.map_some,
        List.getD_eq_getElem?_getD, hd, Option.getD_some]
    · rw [p.sum_take (by omega), p.fileSize_eq hd (by omega)]

end

/-- Three parts of ten, ten and four bytes, declared larger. -/
def threeParts : FlatPost where
  parts := [⟨12, 1, "a"⟩, ⟨12, 2, "b"⟩, ⟨5, 3, "c"⟩]
  decoded := [10, 10, 4]
  partSize := 10
  ascending := by decide
  length_eq := rfl
  ne_nil := by decide
  uniform := by
    intro i d hd hi
    match i, hd, hi with
    | 0, hd, _ => exact (Option.some.inj hd).symm
    | 1, hd, _ => exact (Option.some.inj hd).symm
  last_le := by
    intro i d hd hi
    obtain rfl : i = 2 := Nat.succ.inj hi
    cases hd
    decide
  fits := by decide

theorem reconciled_threeParts :
    [(⟨5, 3, "c"⟩ : Segment), ⟨12, 1, "a"⟩, ⟨12, 2, "b"⟩].Perm threeParts.parts ∧
    threeParts.Declares ∧
    rebuildForDecodedStride64 (buildSegmentRefs64 [⟨5, 3, "c"⟩, ⟨12, 1, "a"⟩, ⟨12, 2, "b"⟩] 0)
        threeParts.stride (some threeParts.fileSize) =
        (threeParts.trueSegments 0, threeParts.fileSize) ∧
      ∃ last, (threeParts.trueSegments 0).getLast? = some last ∧
        last.offsetInStream + last.bytes = threeParts.fileSize := by
  have hperm : [(⟨5, 3, "c"⟩ : Segment), ⟨12, 1, "a"⟩, ⟨12, 2, "b"⟩].Perm threeParts.parts := by
    decide
  have hdecl : threeParts.Declares := .inr (by decide)
  exact ⟨hperm, hdecl, threeParts.reconciled 0 _ hperm hdecl⟩

end FlatPost

end StremioNzb.Streaming

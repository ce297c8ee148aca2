import Mathlib.Data.List.Induction
import StremioNzb.Streaming.Preflight

/-!
# Canary articles

The articles of an NZB that `nzb_availability.rs` asks the servers for, against the first
article that preflight fetches. The two choose their files apart: one by part number with the
largest file as a fallback, the other by `is_rar`, volume order and video names.
-/

namespace StremioNzb.Addon

open StremioNzb.Lib StremioNzb.Streaming

/-! ## The least element, two ways -/

section
variable {α β : Type} {key : α → Nat}

/-- The first of the least, seen from the front. -/
theorem minByKey_cons (x : α) (xs : List α) : minByKey key (x :: xs) =
    match minByKey key xs with
    | none => some x
    | some b => if key x ≤ key b then some x else some b := by
  induction xs generalizing x with
  | nil => rfl
  | cons y ys ih =>
    have hstep : minByKey key (x :: y :: ys) =
        minByKey key ((if key y < key x then y else x) :: ys) := by
      simp only [minByKey, List.foldl_cons]
      split <;> rfl
    rw [hstep, ih, ih y]
    cases minByKey key ys with
    | none => grind
    | some b => grind

theorem minByKey_map (f : β → α) (xs : List β) :
    minByKey key (xs.map f) = (minByKey (fun x => key (f x)) xs).map f := by
  induction xs with
  | nil => rfl
  | cons x xs ih =>
    rw [List.map_cons, minByKey_cons, ih, minByKey_cons]
    cases minByKey (fun x => key (f x)) xs with
    | none => rfl
    | some b =>
      simp only [Option.map_some]
      split
      · rfl
      · rfl

theorem maxByKey_map (f : β → α) (xs : List β) :
    maxByKey key (xs.map f) = (maxByKey (fun x => key (f x)) xs).map f := by
  suffices h : ∀ (xs : List β) (best : Option β),
      (xs.map f).foldl (fun best x => match best with
        | none => some x
        | some b => if key b ≤ key x then some x else some b) (best.map f) =
      (xs.foldl (fun best x => match best with
        | none => some x
        | some b => if key (f b) ≤ key (f x) then some x else some b) best).map f from h xs none
  intro xs
  induction xs with
  | nil => intro best; rfl
  | cons x xs ih =>
    intro best
    rw [List.map_cons, List.foldl_cons, List.foldl_cons, ← ih]
    congr 1
    cases best with
    | none => rfl
    | some b =>
      simp only [Option.map_some]
      split
      · rfl
      · rfl

/-- A choice that goes from one element to the next ends on one of them. -/
theorem mem_of_foldl_choose (better : α → α → Prop) [DecidableRel better] {r : α} :
    ∀ (xs : List α) (best : Option α),
      xs.foldl (fun best x => match best with
        | none => some x
        | some b => if better b x then some x else some b) best = some r → best = some r ∨ r ∈ xs
  | [], best, h => .inl h
  | x :: xs, best, h => by
    rw [List.foldl_cons] at h
    rcases mem_of_foldl_choose better xs _ h with hb | hr
    · cases best with
      | none =>
        cases hb
        exact .inr List.mem_cons_self
      | some b =>
        simp only at hb
        split at hb
        · cases hb
          exact .inr List.mem_cons_self
        · exact .inl hb
    · exact .inr (List.mem_cons_of_mem _ hr)

theorem maxByKey_concat (xs : List α) (x : α) : maxByKey key (xs ++ [x]) =
    match maxByKey key xs with
    | none => some x
    | some b => if key b ≤ key x then some x else some b := by
  rw [maxByKey, List.foldl_append]
  rfl

theorem eq_nil_of_maxByKey {xs : List α} (h : maxByKey key xs = none) : xs = [] := by
  rcases xs.eq_nil_or_concat with rfl | ⟨xs, x, rfl⟩
  · rfl
  · rw [List.concat_eq_append, maxByKey_concat] at h
    split at h
    · cases h
    · split at h <;> cases h

theorem le_of_maxByKey {b : α} {xs : List α} (h : maxByKey key xs = some b) :
    ∀ x ∈ xs, key x ≤ key b := by
  induction xs using List.reverseRecOn generalizing b with
  | nil => cases h
  | append_singleton xs y ih =>
    rw [maxByKey_concat] at h
    intro x hx
    rw [List.mem_append, List.mem_singleton] at hx
    cases hm : maxByKey key xs with
    | none =>
      obtain rfl := eq_nil_of_maxByKey hm
      rw [hm] at h
      cases h
      rcases hx with hx | rfl
      · cases hx
      · exact le_rfl
    | some c =>
      have hc := ih hm
      simp only [hm] at h
      split at h
      · next hle =>
        cases h
        rcases hx with hx | rfl
        · exact (hc x hx).trans hle
        · exact le_rfl
      · next hlt =>
        cases h
        rcases hx with hx | rfl
        · exact hc x hx
        · exact (Nat.lt_of_not_le hlt).le

/-- Leaving others out, the last of the greatest stays the last of the greatest. -/
theorem maxByKey_filter {p : α → Bool} {b : α} {xs : List α} (h : maxByKey key xs = some b)
    (hb : p b = true) : maxByKey key (xs.filter p) = some b := by
  induction xs using List.reverseRecOn generalizing b with
  | nil => cases h
  | append_singleton xs y ih =>
    have hall := le_of_maxByKey h
    rw [maxByKey_concat] at h
    rw [List.filter_append]
    have hlast : y = b → maxByKey key (xs.filter p ++ [y].filter p) = some b := by
      rintro rfl
      rw [List.filter_cons_of_pos hb, List.filter_nil, maxByKey_concat]
      cases hm : maxByKey key (xs.filter p) with
      | none => rfl
      | some c =>
        have hc := List.mem_of_mem_filter (mem_of_foldl_choose _ _ none hm |>.resolve_left nofun)
        exact if_pos (hall c (List.mem_append_left _ hc))
    cases hm : maxByKey key xs with
    | none =>
      rw [hm] at h
      exact hlast (Option.some.inj h)
    | some c =>
      simp only [hm] at h
      split at h
      · exact hlast (Option.some.inj h)
      · next hlt =>
        cases h
        by_cases hy : p y
        · rw [List.filter_cons_of_pos hy, List.filter_nil, maxByKey_concat, ih hm hb]
          exact if_neg hlt
        · rw [List.filter_cons_of_neg hy, List.filter_nil, List.append_nil]
          exact ih hm hb

theorem mem_of_minByKey {x : α} {xs : List α} (h : minByKey key xs = some x) : x ∈ xs :=
  (mem_of_foldl_choose (fun b x => key x < key b) xs none h).resolve_left nofun

theorem mem_of_maxByKey {x : α} {xs : List α} (h : maxByKey key xs = some x) : x ∈ xs :=
  (mem_of_foldl_choose (fun b x => key b ≤ key x) xs none h).resolve_left nofun

/-- **A stable sort puts the first of the least in front.** -/
theorem head?_sortByKey (key : α → Nat) (xs : List α) :
    (sortByKey key xs).head? = minByKey key xs := by
  induction xs with
  | nil => rfl
  | cons x xs ih =>
    rw [minByKey_cons, ← ih]
    change (List.orderedInsert _ x (sortByKey key xs)).head? = _
    cases sortByKey key xs with
    | nil => rfl
    | cons b rest =>
      simp only [List.orderedInsert_cons, List.head?_cons]
      split
      · rfl
      · rfl

end

/-! ## The articles that are probed -/

/-- Why a release is not available. -/
inductive ProbeFailure where
  | fetchFailed (err : String)
  | httpStatus (code : Nat)
  | tooLarge (size : Nat)
  | readFailed (err : String)
  | parseFailed (err : String)
  | noFiles
  | noSegments
  | missingOnServer (server : String)
  | probeError (server err : String)
  deriving DecidableEq, Repr

def ProbeFailure.reason : ProbeFailure → String
  | fetchFailed err => s!"fetch-failed: {err}"
  | httpStatus code => s!"http-{code}"
  | tooLarge size => s!"nzb-too-large-{size}"
  | readFailed err => s!"read-failed: {err}"
  | parseFailed err => s!"parse-failed: {err}"
  | noFiles => "no-files"
  | noSegments => "no-segments"
  | missingOnServer server => s!"missing-on-server: {server}"
  | probeError server err => s!"probe-error on {server}: {err}"

/-- The number in `.partNN.rar`; the expression is that of preflight. -/
def partNumber (cls : CharClasses) (fileName : String) : Option Nat :=
  (firstMatch cls.partAt fileName.toList).bind CharClasses.parseU32

def partFiles (cls : CharClasses) (nzb : Nzb) : List (Nat × NzbFile) :=
  nzb.files.filterMap fun f => f.name.bind fun n => (partNumber cls n).map fun p => (p, f)

def sortedSegments (file : NzbFile) : List Segment := sortByKey (·.number) file.segments

/-- First and last article of the lowest part, last one of the highest. -/
def pickCanaries (cls : CharClasses) (nzb : Nzb) : Option (List String) := do
  let parts := (partFiles cls nzb).zipIdx
  let part01 ← minByKey (·.1.1) parts
  let highest ← maxByKey (·.1.1) parts
  let part01First ← (sortedSegments part01.1.2).head?
  let part01Last ← (sortedSegments part01.1.2).getLast?
  let highestLast ← (sortedSegments highest.1.2).getLast?
  let canaries := [part01First.messageId, part01Last.messageId]
  -- the `ptr::eq` of the source: both are one file of the list
  return if part01.2 = highest.2 then canaries else canaries ++ [highestLast.messageId]

def largestFile (nzb : Nzb) : Option NzbFile :=
  maxByKey (·.size) (nzb.files.filter (!·.isPar2))

/-- First and last listed article of the largest file. -/
def fallbackCanaries (nzb : Nzb) : Except ProbeFailure (List String) :=
  match largestFile nzb with
  | none => .error .noFiles
  | some f => match f.segments.head? with
    | none => .error .noSegments
    | some first =>
      let last := f.segments.getLast?.map (·.messageId)
      .ok (first.messageId :: (last.filter (· ≠ first.messageId)).toList)

def canaries (cls : CharClasses) (nzb : Nzb) : Except ProbeFailure (List String) :=
  match pickCanaries cls nzb with
  | some c => .ok c
  | none => fallbackCanaries nzb

/-! ## The article that preflight fetches first -/

/-- The file preflight reads first. -/
def preflightFile (cls : CharClasses) (nzb : Nzb) : Option NzbFile :=
  match pickMainFile nzb with
  | .ok .rar => (cls.findRarVolumes nzb).head?
  | .ok (.flat f) => some f
  | .error _ => none

/-- The segment with the lowest number of that file. -/
def preflightSegment (cls : CharClasses) (nzb : Nzb) : Option Segment :=
  (preflightFile cls nzb).bind fun f => minByKey (·.number) f.segments

/-! ## Where the two agree -/

/-- The lowest and the highest part both list articles. -/
def PartsUsable (cls : CharClasses) (nzb : Nzb) : Prop :=
  (∃ p, minByKey (·.1) (partFiles cls nzb) = some p ∧ p.2.segments ≠ []) ∧
    ∃ q, maxByKey (·.1) (partFiles cls nzb) = some q ∧ q.2.segments ≠ []

/-- A file lists that article first or last. -/
def ListedAtEnd (segments : List Segment) (id : String) : Prop :=
  ∃ t, (segments.head? = some t ∨ segments.getLast? = some t) ∧ t.messageId = id

def largestVideo (nzb : Nzb) : Option NzbFile :=
  maxByKey (·.size) ((nzb.files.filter (!·.isPar2)).filter (·.hasVideoName))

/-- The file to play of a post without RAR files. -/
def mainFile (nzb : Nzb) : Option NzbFile := (largestVideo nzb).or (largestFile nzb)

/-- The volume of the lowest number, by the parts or else by the endings of the names. -/
def firstVolume (cls : CharClasses) (nzb : Nzb) : Option NzbFile :=
  (minByKey (·.1) (if partFiles cls nzb ≠ [] then partFiles cls nzb
    else nzb.files.filterMap cls.oldVolume)).map (·.2)

/-- **Where both look at the same file**: RAR volumes are named as parts; or parts are not RAR
files, and the file to play is the lowest part, or the highest one and has a single article; or,
without parts, the largest file is the one to play and lists its first article at an end. -/
inductive Aligned (cls : CharClasses) (nzb : Nzb) : Prop where
  | volumes : PartsUsable cls nzb → nzb.files.any (·.isRar) = true → Aligned cls nzb
  | lowestPart (n : Nat) (f : NzbFile) : PartsUsable cls nzb → nzb.files.any (·.isRar) = false →
      mainFile nzb = some f → minByKey (·.1) (partFiles cls nzb) = some (n, f) → Aligned cls nzb
  | highestPart (n : Nat) (f : NzbFile) : PartsUsable cls nzb → nzb.files.any (·.isRar) = false →
      mainFile nzb = some f → maxByKey (·.1) (partFiles cls nzb) = some (n, f) →
      f.segments.length = 1 → Aligned cls nzb
  | largest (f : NzbFile) : ¬ PartsUsable cls nzb → largestFile nzb = some f →
      (if nzb.files.any (·.isRar) then firstVolume cls nzb = some f
        else f.hasVideoName = true ∨ largestVideo nzb = none) →
      (minByKey (·.number) f.segments = f.segments.head? ∨
        minByKey (·.number) f.segments = f.segments.getLast?) → Aligned cls nzb

/-- No article is listed twice. -/
def DistinctIds (nzb : Nzb) : Prop := ((nzb.files.flatMap (·.segments)).map (·.messageId)).Nodup

section
variable {cls : CharClasses} {nzb : Nzb} {id : String}

theorem minByKey_parts : minByKey (·.1) (partFiles cls nzb) =
    (minByKey (·.1.1) (partFiles cls nzb).zipIdx).map (·.1) := by
  have h : minByKey (·.1) ((partFiles cls nzb).zipIdx.map Prod.fst) = _ := minByKey_map Prod.fst _
  rwa [List.zipIdx_map_fst] at h

theorem maxByKey_parts : maxByKey (·.1) (partFiles cls nzb) =
    (maxByKey (·.1.1) (partFiles cls nzb).zipIdx).map (·.1) := by
  have h : maxByKey (·.1) ((partFiles cls nzb).zipIdx.map Prod.fst) = _ := maxByKey_map Prod.fst _
  rwa [List.zipIdx_map_fst] at h

theorem sortedSegments_ne_nil {f : NzbFile} : sortedSegments f ≠ [] ↔ f.segments ≠ [] := by
  rw [← List.length_pos_iff, ← List.length_pos_iff, sortedSegments, (sortByKey_perm _ _).length_eq]

theorem pickCanaries_usable (h : PartsUsable cls nzb) : ∃ ids p q,
    pickCanaries cls nzb = some ids ∧ minByKey (·.1) (partFiles cls nzb) = some p ∧
    maxByKey (·.1) (partFiles cls nzb) = some q ∧
    ∀ id, id ∈ ids ↔ ListedAtEnd (sortedSegments p.2) id ∨
      ∃ t, (sortedSegments q.2).getLast? = some t ∧ t.messageId = id := by
  obtain ⟨⟨p, hp, hpne⟩, q, hq, hqne⟩ := h
  obtain ⟨⟨p, i⟩, hp', rfl⟩ := Option.map_eq_some_iff.mp (minByKey_parts.symm.trans hp)
  obtain ⟨⟨q, j⟩, hq', rfl⟩ := Option.map_eq_some_iff.mp (maxByKey_parts.symm.trans hq)
  obtain ⟨a, as, ha⟩ := List.exists_cons_of_ne_nil (sortedSegments_ne_nil.mpr hpne)
  obtain ⟨b, hb⟩ := Option.isSome_iff_exists.mp
    (List.getLast?_isSome.mpr (sortedSegments_ne_nil.mpr hpne))
  obtain ⟨c, hc⟩ := Option.isSome_iff_exists.mp
    (List.getLast?_isSome.mpr (sortedSegments_ne_nil.mpr hqne))
  have ha' : (sortedSegments p.2).head? = some a := by rw [ha]; rfl
  refine ⟨if i = j then [a.messageId, b.messageId] else [a.messageId, b.messageId, c.messageId],
    p, q, by simp [pickCanaries, hp', hq', ha', hb, hc], hp, hq, fun id => ?_⟩
  have hends : ListedAtEnd (sortedSegments p.2) id ↔ a.messageId = id ∨ b.messageId = id := by
    simp [ListedAtEnd, ha', hb, or_and_right, exists_or]
  rw [hends]
  simp only [hc, Option.some.injEq, exists_eq_left']
  split
  · next hij =>
    -- one file: its last article stands for the highest part's
    have hpi := List.mem_zipIdx_iff_getElem?.mp (mem_of_minByKey hp')
    have hqj := List.mem_zipIdx_iff_getElem?.mp (mem_of_maxByKey hq')
    simp only at hpi hqj hij
    rw [hij, hqj] at hpi
    obtain rfl := Option.some.inj hpi
    obtain rfl := Option.some.inj (hb.symm.trans hc)
    simp [eq_comm]
  · simp [eq_comm, or_assoc]

theorem pickCanaries_of_not_usable (h : ¬ PartsUsable cls nzb) : pickCanaries cls nzb = none := by
  by_contra hne
  obtain ⟨ids, hids⟩ := Option.ne_none_iff_exists'.mp hne
  simp only [pickCanaries, Option.bind_eq_bind, Option.bind_eq_some_iff] at hids
  obtain ⟨p, hp, q, hq, a, ha, b, hb, c, hc, -⟩ := hids
  refine h ⟨⟨p.1, by rw [minByKey_parts, hp]; rfl, ?_⟩, ⟨q.1, by rw [maxByKey_parts, hq]; rfl, ?_⟩⟩
  · exact sortedSegments_ne_nil.mp (List.ne_nil_of_mem (List.mem_of_mem_head? ha))
  · exact sortedSegments_ne_nil.mp (List.ne_nil_of_mem (List.mem_of_getLast? hc))

theorem mem_fallbackCanaries : (∃ ids, fallbackCanaries nzb = .ok ids ∧ id ∈ ids) ↔
    ∃ f, largestFile nzb = some f ∧ ListedAtEnd f.segments id := by
  unfold fallbackCanaries
  cases largestFile nzb with
  | none => simp
  | some f =>
    simp only [Option.some.injEq, exists_eq_left', ListedAtEnd]
    cases hs : f.segments with
    | nil => simp
    | cons a as =>
      obtain ⟨b, hb⟩ : ∃ b, (a :: as).getLast? = some b := ⟨_, List.getLast?_cons⟩
      simp only [List.head?_cons, hb, Option.map_some, Except.ok.injEq, exists_eq_left',
        Option.some.injEq, or_and_right, exists_or, List.mem_cons]
      by_cases hba : b.messageId = a.messageId
      · simp [Option.filter, hba, eq_comm]
      · simp [Option.filter, hba, eq_comm]

/-- Preflight reads the volume of the lowest number. -/
theorem preflightFile_of_rar (h : nzb.files.any (·.isRar) = true) :
    preflightFile cls nzb = firstVolume cls nzb := by
  have hvol : cls.findRarVolumes nzb =
      (sortByKey (·.1) (if partFiles cls nzb ≠ [] then partFiles cls nzb
        else nzb.files.filterMap cls.oldVolume)).map (·.2) := by
    by_cases hne : partFiles cls nzb ≠ []
    · rw [if_pos hne]
      exact if_pos hne
    · rw [if_neg hne]
      exact if_neg hne
  rw [preflightFile, pickMainFile, if_pos h]
  simp only
  rw [hvol, List.head?_map, head?_sortByKey, firstVolume]

theorem preflightFile_of_flat (h : nzb.files.any (·.isRar) = false) :
    preflightFile cls nzb = mainFile nzb := by
  simp only [preflightFile, pickMainFile, h, Bool.false_eq_true, if_false, mainFile, largestVideo,
    largestFile]
  cases maxByKey (·.size) ((nzb.files.filter (!·.isPar2)).filter (·.hasVideoName)) with
  | some f => rfl
  | none => cases maxByKey (·.size) (nzb.files.filter (!·.isPar2)) <;> rfl

theorem firstVolume_of_parts {p : Nat × NzbFile}
    (hp : minByKey (·.1) (partFiles cls nzb) = some p) : firstVolume cls nzb = some p.2 := by
  rw [firstVolume, if_pos (List.ne_nil_of_mem (mem_of_minByKey hp)), hp]
  rfl

/-- The largest file is the one to play exactly if it has a video name, or no file has. -/
theorem mainFile_eq_largest_iff {f : NzbFile} (hf : largestFile nzb = some f) :
    mainFile nzb = some f ↔ f.hasVideoName = true ∨ largestVideo nzb = none := by
  refine ⟨fun h => ?_, ?_⟩
  · cases hv : largestVideo nzb with
    | none => exact .inr rfl
    | some g =>
      rw [mainFile, hv] at h
      cases h
      exact .inl (List.of_mem_filter (mem_of_maxByKey hv))
  · rintro (hname | hnone)
    · rw [mainFile, largestVideo, maxByKey_filter hf hname]
      rfl
    · rw [mainFile, hnone, hf]
      rfl

/-- The file that the canaries are taken from. -/
theorem mem_files_of_parts {p : Nat × NzbFile} (h : p ∈ partFiles cls nzb) : p.2 ∈ nzb.files := by
  obtain ⟨f, hf, hp⟩ := List.mem_filterMap.mp h
  obtain ⟨n, -, hp⟩ := Option.bind_eq_some_iff.mp hp
  obtain ⟨k, -, rfl⟩ := Option.map_eq_some_iff.mp hp
  exact hf

theorem mem_files_of_oldVolume {f : NzbFile} {v : Nat × NzbFile} (hf : f ∈ nzb.files)
    (h : cls.oldVolume f = some v) : v.2 ∈ nzb.files := by
  unfold CharClasses.oldVolume at h
  split at h
  · cases h
  · obtain ⟨name, -, h⟩ := Option.bind_eq_some_iff.mp h
    split at h
    · cases h
      exact hf
    · obtain ⟨n, -, rfl⟩ := Option.map_eq_some_iff.mp h
      exact hf

theorem mem_files_of_largest {f : NzbFile} (h : largestFile nzb = some f) : f ∈ nzb.files :=
  List.mem_of_mem_filter (mem_of_maxByKey h)

theorem mem_files_of_preflight {f : NzbFile} (h : preflightFile cls nzb = some f) :
    f ∈ nzb.files := by
  cases hrar : nzb.files.any (·.isRar) with
  | true =>
    rw [preflightFile_of_rar hrar] at h
    obtain ⟨v, hv, rfl⟩ := Option.map_eq_some_iff.mp h
    have hmem := mem_of_minByKey hv
    split at hmem
    · exact mem_files_of_parts hmem
    · obtain ⟨f, hf, hv⟩ := List.mem_filterMap.mp hmem
      exact mem_files_of_oldVolume hf hv
  | false =>
    rw [preflightFile_of_flat hrar] at h
    rcases Option.or_eq_some_iff.mp h with hv | ⟨-, hl⟩
    · exact List.mem_of_mem_filter (List.mem_of_mem_filter (mem_of_maxByKey hv))
    · exact mem_files_of_largest hl

/-- One article, one file. -/
theorem DistinctIds.eq (h : DistinctIds nzb) {f g : NzbFile} (hf : f ∈ nzb.files)
    (hg : g ∈ nzb.files) {s t : Segment} (hs : s ∈ f.segments) (ht : t ∈ g.segments)
    (hid : s.messageId = t.messageId) : f = g ∧ s = t := by
  have hst : s = t := List.inj_on_of_nodup_map h (List.mem_flatMap.mpr ⟨f, hf, hs⟩)
    (List.mem_flatMap.mpr ⟨g, hg, ht⟩) hid
  refine ⟨Classical.byContradiction fun hne => ?_, hst⟩
  have hsymm : Std.Symm (Function.onFun List.Disjoint NzbFile.segments) := 
    ⟨fun _ _ hd _ ha hb => hd hb ha⟩
  have hpair := (List.nodup_flatMap.mp (List.Nodup.of_map _ h)).2
  exact hpair.forall hf hg hne hs (hst ▸ ht)

/-! ## Preflight needs that article -/

theorem fetchWithFailover_go_error {fetch : Nat → Except String (List UInt8)} :
    ∀ (order : List Nat) (lastErr : Option String), (∀ i, ∃ e, fetch i = .error e) →
      ∃ e, fetchWithFailover.go fetch order lastErr = .error e
  | [], lastErr, _ => ⟨_, rfl⟩
  | i :: order, lastErr, h => by
    obtain ⟨e, he⟩ := h i
    rw [fetchWithFailover.go, he]
    exact fetchWithFailover_go_error order (some e) h

theorem firstArticle_of_missing {net : Net} {id : String} (server : Nat)
    (h : ∀ i, ∃ e, net.fetchArticle i id = .error e) :
    ∃ m, net.firstArticle server id = .error (.nntpFetch m) := by
  have hfail : ∃ e, fetchWithFailover net.serverCount (net.fetchArticle · id) server =
      .error e := by
    unfold fetchWithFailover
    split
    · exact ⟨_, rfl⟩
    · exact fetchWithFailover_go_error _ none h
  obtain ⟨e, he⟩ := hfail
  exact ⟨net.redactLog e, by rw [Net.firstArticle, he]; rfl⟩

theorem readFlat_of_missing {net : Net} {f : NzbFile} {s : Segment}
    (hs : minByKey (·.number) f.segments = some s)
    (h : ∀ i, ∃ e, net.fetchArticle i s.messageId = .error e) :
    ∃ m, net.readFlat f = .error (.nntpFetch m) := by
  obtain ⟨m, hm⟩ := firstArticle_of_missing 0 h
  have hhead : (sortByNumber f.segments).head? = some s := (head?_sortByKey _ _).trans hs
  cases hsort : sortByNumber f.segments with
  | nil => simp [hsort] at hhead
  | cons a as =>
    rw [hsort] at hhead
    obtain rfl := Option.some.inj hhead
    refine ⟨m, ?_⟩
    simp only [Net.readFlat, buildSegmentRefs64, hsort, buildSegmentRefs64.go]
    change (net.firstArticle 0 a.messageId >>= _) = _
    rw [hm]
    rfl

theorem readRar_of_missing {net : Net} {v : NzbFile} {s : Segment}
    (hv : (net.classes.findRarVolumes nzb).head? = some v)
    (hs : minByKey (·.number) v.segments = some s)
    (h : ∀ i, ∃ e, net.fetchArticle i s.messageId = .error e) :
    ∃ m, net.readRar nzb = .error (.nntpFetch m) := by
  obtain ⟨m, hm⟩ := firstArticle_of_missing 0 h
  cases hvol : net.classes.findRarVolumes nzb with
  | nil => simp [hvol] at hv
  | cons w vs =>
    rw [hvol] at hv
    obtain rfl := Option.some.inj hv
    have hfirst : net.volumeFirst 0 w = .error (.nntpFetch m) := by
      rw [Net.volumeFirst, hs]
      exact hm
    refine ⟨m, ?_⟩
    unfold Net.readRar
    simp only [hvol, List.isEmpty_cons, List.zipIdx_cons, List.mapM_cons, hfirst]
    rfl

/-- **Preflight fails where no server has the article.** -/
theorem probeCandidateInner_of_missing {net : Net} {nzbUrl token : String} {s : Segment}
    (hsrv : net.serverCount ≠ 0) (hnzb : net.fetchAndParse nzbUrl = .ok nzb)
    (hs : preflightSegment net.classes nzb = some s)
    (h : ∀ i, ∃ e, net.fetchArticle i s.messageId = .error e) :
    ∃ m, net.probeCandidateInner nzbUrl token = .error (.nntpFetch m) := by
  suffices hpost : ∃ m, net.readPost nzbUrl = .error (.nntpFetch m) by
    obtain ⟨m, hm⟩ := hpost
    exact ⟨m, by rw [Net.probeCandidateInner, hm]; rfl⟩
  obtain ⟨f, hf, hs⟩ := Option.bind_eq_some_iff.mp hs
  unfold Net.readPost
  rw [if_neg hsrv, hnzb]
  change ∃ m, (pickMainFile nzb >>= _) = _
  unfold preflightFile at hf
  cases hpick : pickMainFile nzb with
  | error e => simp [hpick] at hf
  | ok layout =>
    cases layout with
    | flat g =>
      rw [hpick] at hf
      obtain rfl := Option.some.inj hf
      obtain ⟨m, hm⟩ := readFlat_of_missing hs h
      exact ⟨m, hm⟩
    | rar =>
      rw [hpick] at hf
      obtain ⟨m, hm⟩ := readRar_of_missing hf hs h
      exact ⟨m, hm⟩

/-! ## The agreement -/

/-- The article is among the canaries. -/
def Probed (cls : CharClasses) (nzb : Nzb) (id : String) : Prop :=
  ∃ ids, canaries cls nzb = .ok ids ∧ id ∈ ids

/-- Where the parts are usable, the canaries are the ends of the lowest and the end of the highest
part. -/
theorem probed_of_parts {p q : Nat × NzbFile} (hu : PartsUsable cls nzb)
    (hp : minByKey (·.1) (partFiles cls nzb) = some p)
    (hq : maxByKey (·.1) (partFiles cls nzb) = some q) :
    Probed cls nzb id ↔ ListedAtEnd (sortedSegments p.2) id ∨
      ∃ t, (sortedSegments q.2).getLast? = some t ∧ t.messageId = id := by
  obtain ⟨ids, p', q', hids, hp', hq', hmem⟩ := pickCanaries_usable hu
  obtain rfl := Option.some.inj (hp.symm.trans hp')
  obtain rfl := Option.some.inj (hq.symm.trans hq')
  rw [Probed, canaries, hids, ← hmem]
  simp

theorem probed_of_fallback (hu : ¬ PartsUsable cls nzb) :
    Probed cls nzb id ↔ ∃ f, largestFile nzb = some f ∧ ListedAtEnd f.segments id := by
  rw [Probed, canaries, pickCanaries_of_not_usable hu, ← mem_fallbackCanaries]

section
variable {s : Segment} {f : NzbFile}

/-- The article is the first one of its file by number. -/
theorem sortedSegments_head (hs : minByKey (·.number) f.segments = some s) :
    (sortedSegments f).head? = some s := (head?_sortByKey _ _).trans hs

/-- **Preflight's first article is probed where both look at the same file.** -/
theorem Aligned.probed (h : Aligned cls nzb) (hs : preflightSegment cls nzb = some s) :
    Probed cls nzb s.messageId := by
  obtain ⟨f, hf, hs⟩ := Option.bind_eq_some_iff.mp hs
  cases h with
  | volumes hu hrar =>
    obtain ⟨p, hp, -⟩ := hu.1
    obtain ⟨q, hq, -⟩ := hu.2
    rw [preflightFile_of_rar hrar, firstVolume_of_parts hp] at hf
    cases hf
    exact (probed_of_parts hu hp hq).mpr (.inl ⟨s, .inl (sortedSegments_head hs), rfl⟩)
  | lowestPart n g hu hrar hmain hp =>
    obtain ⟨q, hq, -⟩ := hu.2
    rw [preflightFile_of_flat hrar, hmain] at hf
    cases hf
    exact (probed_of_parts hu hp hq).mpr (.inl ⟨s, .inl (sortedSegments_head hs), rfl⟩)
  | highestPart n g hu hrar hmain hq hone =>
    obtain ⟨p, hp, -⟩ := hu.1
    rw [preflightFile_of_flat hrar, hmain] at hf
    cases hf
    refine (probed_of_parts hu hp hq).mpr (.inr ⟨s, ?_, rfl⟩)
    obtain ⟨t, ht⟩ := List.length_eq_one_iff.mp hone
    rw [ht] at hs
    cases hs
    rw [sortedSegments, ht]
    rfl
  | largest g hu hg hsame hend =>
    have hfg : f = g := by
      cases hrar : nzb.files.any (·.isRar) with
      | true =>
        rw [if_pos hrar] at hsame
        rw [preflightFile_of_rar hrar, hsame] at hf
        exact (Option.some.inj hf).symm
      | false =>
        rw [hrar, if_neg Bool.false_ne_true] at hsame
        rw [preflightFile_of_flat hrar, (mainFile_eq_largest_iff hg).mpr hsame] at hf
        exact (Option.some.inj hf).symm
    subst hfg
    rw [hs] at hend
    exact (probed_of_fallback hu).mpr ⟨f, hg, s, hend.imp Eq.symm Eq.symm, rfl⟩

/-- A file lists the article at an end, and no other file lists it. -/
theorem DistinctIds.of_listedAtEnd (h : DistinctIds nzb) {g : NzbFile} {segments : List Segment}
    (hf : f ∈ nzb.files) (hg : g ∈ nzb.files) (hs : s ∈ f.segments)
    (hsub : ∀ t ∈ segments, t ∈ g.segments) (hend : ListedAtEnd segments s.messageId) :
    f = g ∧ (segments.head? = some s ∨ segments.getLast? = some s) := by
  obtain ⟨t, ht, hid⟩ := hend
  have hmem : t ∈ segments := ht.elim List.mem_of_mem_head? List.mem_of_getLast?
  obtain ⟨hfg, rfl⟩ := h.eq hf hg hs (hsub t hmem) hid.symm
  exact ⟨hfg, ht⟩

/-- The first article by number is the last one where there is but one. -/
theorem DistinctIds.length_eq_one (h : DistinctIds nzb) (hf : f ∈ nzb.files)
    (hhead : (sortedSegments f).head? = some s) (hlast : (sortedSegments f).getLast? = some s) :
    f.segments.length = 1 := by
  have hperm : (sortedSegments f).Perm f.segments := sortByKey_perm _ _
  have hnodup : (sortedSegments f).Nodup :=
    hperm.nodup_iff.mpr ((List.nodup_flatMap.mp (List.Nodup.of_map _ h)).1 f hf)
  rw [← hperm.length_eq]
  cases hsort : sortedSegments f with
  | nil => simp [hsort] at hhead
  | cons a as =>
    rw [hsort] at hhead hlast hnodup
    cases hhead
    cases as with
    | nil => rfl
    | cons b bs =>
      rw [List.getLast?_cons_cons] at hlast
      exact absurd (List.mem_of_getLast? hlast) (List.nodup_cons.mp hnodup).1

/-- **Nowhere else is it probed**, where no article is listed twice. -/
theorem Aligned.of_probed (hd : DistinctIds nzb) (hs : preflightSegment cls nzb = some s)
    (h : Probed cls nzb s.messageId) : Aligned cls nzb := by
  obtain ⟨f, hf, hs⟩ := Option.bind_eq_some_iff.mp hs
  have hfile := mem_files_of_preflight hf
  have hmem : s ∈ f.segments := mem_of_minByKey hs
  have hsorted : ∀ g : NzbFile, ∀ t ∈ sortedSegments g, t ∈ g.segments := fun g t ht =>
    (sortByKey_perm _ _).mem_iff.mp ht
  by_cases hu : PartsUsable cls nzb
  · cases hrar : nzb.files.any (·.isRar) with
    | true => exact .volumes hu hrar
    | false =>
      obtain ⟨⟨n, p⟩, hp, -⟩ := hu.1
      obtain ⟨⟨m, q⟩, hq, -⟩ := hu.2
      rw [preflightFile_of_flat hrar] at hf
      rcases (probed_of_parts hu hp hq).mp h with hend | ⟨t, ht, hid⟩
      · obtain ⟨rfl, -⟩ := hd.of_listedAtEnd hfile (mem_files_of_parts (mem_of_minByKey hp)) hmem
          (hsorted p) hend
        exact .lowestPart n f hu hrar hf hp
      · obtain ⟨rfl, rfl⟩ := hd.eq hfile (mem_files_of_parts (mem_of_maxByKey hq)) hmem
          (hsorted q t (List.mem_of_getLast? ht)) hid.symm
        exact .highestPart m f hu hrar hf hq (hd.length_eq_one hfile (sortedSegments_head hs) ht)
  · obtain ⟨g, hg, hend⟩ := (probed_of_fallback hu).mp h
    obtain ⟨rfl, hend⟩ := hd.of_listedAtEnd hfile (mem_files_of_largest hg) hmem (fun _ ht => ht)
      hend
    refine .largest f hu hg ?_ (hend.imp (hs.trans ·.symm) (hs.trans ·.symm))
    cases hrar : nzb.files.any (·.isRar) with
    | true =>
      rw [preflightFile_of_rar hrar] at hf
      rwa [if_pos rfl]
    | false =>
      rw [preflightFile_of_flat hrar] at hf
      rw [if_neg Bool.false_ne_true]
      exact (mainFile_eq_largest_iff hg).mp hf

end

/-- **The first article of preflight is a canary where both look at the same file**, and there
only if no article is listed twice. -/
theorem preflightSegment_probed (cls : CharClasses) (nzb : Nzb) (s : Segment)
    (h : preflightSegment cls nzb = some s) :
    (Aligned cls nzb → Probed cls nzb s.messageId) ∧
      (DistinctIds nzb → Probed cls nzb s.messageId → Aligned cls nzb) :=
  ⟨fun ha => ha.probed h, fun hd hp => .of_probed hd h hp⟩

end

/-- The ASCII part of the character classes. -/
def asciiClasses : CharClasses := ⟨Char.isDigit, fun c => c.isAlphanum || c = '_'⟩

/-- Two RAR parts, the second listed first. -/
def twoParts : Nzb where
  files := [⟨some "m.part2.rar", true, false, 2, [⟨2, 1, "c"⟩]⟩,
    ⟨some "m.part1.rar", true, false, 4, [⟨2, 1, "a"⟩, ⟨2, 2, "b"⟩]⟩]
  passwords := []

/-- A film, and a larger file beside it. -/
def filmAndMore : Nzb where
  files := [⟨some "movie.mkv", false, false, 4, [⟨4, 1, "a"⟩]⟩,
    ⟨some "zzz.bin", false, false, 400, [⟨400, 1, "b"⟩]⟩]
  passwords := []

/-- The parts are looked at by both; the larger file only for the canaries. -/
theorem preflightSegment_probed_twoParts :
    Probed asciiClasses twoParts "a" ∧ ¬ Aligned asciiClasses filmAndMore := by
  have hlow : minByKey (·.1) (partFiles asciiClasses twoParts) =
      some (1, ⟨some "m.part1.rar", true, false, 4, [⟨2, 1, "a"⟩, ⟨2, 2, "b"⟩]⟩) := by
    decide +kernel
  have hhigh : maxByKey (·.1) (partFiles asciiClasses twoParts) =
      some (2, ⟨some "m.part2.rar", true, false, 2, [⟨2, 1, "c"⟩]⟩) := by
    decide +kernel
  refine ⟨(preflightSegment_probed asciiClasses twoParts ⟨2, 1, "a"⟩ (by decide +kernel)).1
    (.volumes ⟨⟨_, hlow, nofun⟩, _, hhigh, nofun⟩ rfl), fun h => ?_⟩
  obtain ⟨ids, hids, hmem⟩ :=
    (preflightSegment_probed asciiClasses filmAndMore ⟨4, 1, "a"⟩ (by decide +kernel)).1 h
  have hcan : canaries asciiClasses filmAndMore = .ok ["b"] := by decide +kernel
  rw [hcan] at hids
  cases hids
  revert hmem
  decide

/-- The article preflight begins with is not probed. -/
theorem film_not_probed : ∃ s ids,
    preflightSegment asciiClasses filmAndMore = some s ∧
      canaries asciiClasses filmAndMore = .ok ids ∧ s.messageId ∉ ids :=
  ⟨⟨4, 1, "a"⟩, ["b"], by decide +kernel, by decide +kernel, by decide⟩

end StremioNzb.Addon

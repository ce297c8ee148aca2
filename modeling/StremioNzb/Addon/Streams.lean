import Mathlib.Data.List.Flatten
import StremioNzb.Addon.Candidates
import StremioNzb.Streaming.Preflight

/-!
# Building the streams

`stream.rs`: hits are sorted by resolution, grouped by release and limited per resolution and
language. `capItemsPerResolution` does this once before the hits are validated, to validate
fewer of them, and `finalGroups` once after.
-/

namespace StremioNzb.Addon

open StremioNzb.Lib StremioNzb.Streaming

/-! ## Resolutions -/

def resolutionOrder : List (List String) :=
  [["2160p", "4k"], ["1440p"], ["1080p"], ["720p"], ["480p"], ["360p"]]

def eqIgnoreAsciiCase (s t : String) : Bool := s.toLower = t.toLower

/-- The first group with that resolution, their number where there is none. -/
def resolutionIndex (res : String) : Nat :=
  let lower := res.toLower
  resolutionOrder.findIdx fun group => group.any fun g => eqIgnoreAsciiCase g lower

def sortByResolution (tp : TitleParser) (items : List Item) : List Item :=
  sortByKey (fun item => resolutionIndex ((tp.parse item.title).resolution.getD "")) items

/-! ## Limits -/

/-- What a quota is for: a resolution and a language. -/
abbrev Bucket := Nat × Option String

def GroupSignature.bucket (sig : GroupSignature) : Bucket :=
  (resolutionIndex (sig.resolution.getD ""), sig.language)

/-- The bucket of `group[0]`; groups are never empty. -/
def groupBucket (group : List NzbCandidate) : Option Bucket :=
  group.head?.map fun c => c.signature.bucket

def limitGroupsPerResolution (groups : List (List NzbCandidate)) (perRes : UInt32) :
    List (List NzbCandidate) :=
  if perRes = 0 then groups else limitPer perRes.toNat groupBucket groups

def capItemsPerResolution (tp : TitleParser) (items : List Item) (capPerBucket : UInt32) :
    List Item :=
  if capPerBucket = 0 || items.isEmpty then items
  else
    let sorted := sortByResolution tp items
    let candidates := sorted.map tp.candidateFromItem
    let groups := groupCandidates candidates
    let limited := limitGroupsPerResolution groups capPerBucket
    limited.flatten.map (·.item)

/-- The cap before validation; the release build wraps. -/
def preValidationCap (perRes : UInt32) : UInt32 := max (perRes * 2) 4

/-- What `build_streams` makes of the hits that are left. -/
def finalGroups (tp : TitleParser) (items : List Item) (perRes : UInt32) :
    List (List NzbCandidate) :=
  let sorted := sortByResolution tp items
  let candidates := sorted.map tp.candidateFromItem
  let groups := groupCandidates candidates
  limitGroupsPerResolution groups perRes

/-! ## The groups of a list of hits -/

/-- All releases among the hits. -/
def releases (tp : TitleParser) (items : List Item) : List (List NzbCandidate) :=
  groupOn (·.signature) ((sortByResolution tp items).map tp.candidateFromItem)

/-- The rank of a signature among the resolutions. -/
def GroupSignature.rank (sig : GroupSignature) : Nat := sig.bucket.1

section
variable {tp : TitleParser} {items : List Item} {groups : List (List NzbCandidate)}

theorem eq_candidateFromItem {g : List NzbCandidate} (hg : g ∈ releases tp items)
    {c : NzbCandidate} (hc : c ∈ g) : c = tp.candidateFromItem c.item := by
  obtain ⟨item, -, rfl⟩ := List.mem_map.mp (subset_of_mem_groupOn hg hc)
  rfl

theorem releases_sorted (tp : TitleParser) (items : List Item) :
    (releases tp items).flatten.Pairwise fun c d => c.signature.rank ≤ d.signature.rank := by
  apply pairwise_flatten_groupOn GroupSignature.rank
  exact List.pairwise_map.mpr (pairwise_sortByKey _ items)

theorem finalGroups_eq (perRes : UInt32) : finalGroups tp items perRes =
    limitGroupsPerResolution (releases tp items) perRes := by
  simp only [finalGroups, groupCandidates_eq]
  rfl

theorem limitGroups_sublist (groups : List (List NzbCandidate)) (perRes : UInt32) :
    (limitGroupsPerResolution groups perRes).Sublist groups := by
  unfold limitGroupsPerResolution
  split
  · exact .refl _
  · exact limitPer_sublist _ _ _

/-- The groups of hits that come from some of the releases are those releases: their hits are
still sorted, and grouping undoes the flattening. -/
theorem releases_of_sublist (h : groups.Sublist (releases tp items)) :
    releases tp (groups.flatten.map (·.item)) = groups := by
  have hmap : (groups.flatten.map (·.item)).map tp.candidateFromItem = groups.flatten := by
    rw [List.map_map]
    refine (List.map_congr_left fun c hc => ?_).trans (List.map_id _)
    obtain ⟨g, hg, hc⟩ := List.mem_flatten.mp hc
    exact (eq_candidateFromItem (h.subset hg) hc).symm
  have hsorted : (groups.flatten.map (·.item)).Pairwise fun x y =>
      (tp.signature x).rank ≤ (tp.signature y).rank := by
    have := (releases_sorted tp items).sublist h.flatten
    rwa [← hmap, List.pairwise_map] at this
  have hsort : sortByResolution tp (groups.flatten.map (·.item)) = groups.flatten.map (·.item) :=
    sortByKey_of_pairwise hsorted
  rw [releases, hsort, hmap]
  exact groupOn_flatten ((isGrouping_groupOn _ _).sublist h)

theorem capItems_eq {cap : UInt32} (hcap : cap ≠ 0) : capItemsPerResolution tp items cap =
    (limitGroupsPerResolution (releases tp items) cap).flatten.map (·.item) := by
  unfold capItemsPerResolution
  by_cases hi : items.isEmpty
  · rw [if_pos (by simp [hi])]
    cases items with
    | nil => simp [releases, sortByResolution, sortByKey, groupOn, limitGroupsPerResolution,
        limitPer, limitFrom]
    | cons item items => cases hi
  · rw [if_neg (by simp [hi, hcap])]
    simp only [groupCandidates_eq]
    rfl

/-- **The hits the cap leaves make the releases the cap leaves.** -/
theorem finalGroups_capItems {cap : UInt32} (hcap : cap ≠ 0) (perRes : UInt32) :
    finalGroups tp (capItemsPerResolution tp items cap) perRes =
      limitGroupsPerResolution (limitGroupsPerResolution (releases tp items) cap) perRes := by
  rw [finalGroups_eq, capItems_eq hcap, releases_of_sublist (limitGroups_sublist _ _)]

/-- How many releases of that bucket are among the hits. -/
def releaseCount (tp : TitleParser) (items : List Item) (b : Bucket) : Nat :=
  (items.map tp.signature).eraseDups.countP fun sig => sig.bucket = b

theorem countP_releases (b : Option Bucket) : (releases tp items).countP (groupBucket · = b) =
    b.elim 0 (releaseCount tp items) := by
  have hsigs : ((sortByResolution tp items).map tp.candidateFromItem).map (·.signature) =
      (sortByResolution tp items).map tp.signature := by
    rw [List.map_map]
    rfl
  have hperm : ((sortByResolution tp items).map tp.signature).eraseDups.Perm
      (items.map tp.signature).eraseDups := perm_eraseDups ((sortByKey_perm _ items).map _)
  rw [releases, countP_groupOn (p := fun sig => some sig.bucket = b) (fun _ _ => rfl), hsigs,
    hperm.countP_eq]
  cases b with
  | none => simp
  | some b => simp [releaseCount]

/-- A cap drops no release exactly when no bucket has more. -/
theorem limitPer_releases_eq_self {n : Nat} :
    limitPer n groupBucket (releases tp items) = releases tp items ↔
      ∀ b, releaseCount tp items b ≤ n := by
  rw [limitPer_eq_self]
  constructor
  · intro h b
    simpa [countP_releases] using h (some b)
  · intro h b
    rw [countP_releases]
    cases b with
    | none => exact Nat.zero_le n
    | some b => exact h b

end

/-! ## What the groups and the limit keep -/

/-- **Grouping and limiting lose nothing they should keep.** The groups are those of the
signatures in the order of their first appearance, each with all its candidates in their order,
and the limit keeps a group exactly when fewer than `perRes` groups before it share its bucket. -/
theorem groups_and_limit (cs : List NzbCandidate) :
    (∃ sigs : List GroupSignature, sigs.Nodup ∧ (∀ sig, sig ∈ sigs ↔ ∃ c ∈ cs, c.signature = sig) ∧
      sigs.Pairwise (fun s t =>
        (cs.map (·.signature)).idxOf s < (cs.map (·.signature)).idxOf t) ∧
      groupCandidates cs = sigs.map fun sig => cs.filter fun c => c.signature = sig) ∧
    (∀ g ∈ groupCandidates cs, g ≠ []) ∧
    (groupCandidates cs).flatten.Perm cs ∧
    drainGroups (collectBuckets cs).order (collectBuckets cs).groups =
      some (groupCandidates cs) ∧
    (∀ g ∈ groupCandidates cs, (groupBucket g).isSome) ∧
    ∀ perRes : UInt32, 0 < perRes →
      limitGroupsPerResolution (groupCandidates cs) perRes =
        ((groupCandidates cs).zipIdx.filter fun p =>
          ((groupCandidates cs).take p.2).countP (groupBucket · = groupBucket p.1) <
            perRes.toNat).map (·.1) := by
  have hne : ∀ g ∈ groupCandidates cs, g ≠ [] := by
    rw [groupCandidates_eq]
    exact (isGrouping_groupOn _ cs).nonempty
  refine ⟨⟨(cs.map NzbCandidate.signature).eraseDups, nodup_eraseDups _, fun sig => ?_,
    pairwise_idxOf_eraseDups _, groupCandidates_eq cs⟩, hne, ?_, drainGroups_collectBuckets cs,
    fun g hg => ?_, fun perRes hpos => ?_⟩
  · rw [List.mem_eraseDups, List.mem_map]
  · rw [groupCandidates_eq]
    exact flatten_groupOn_perm _ cs
  · cases g with
    | nil => exact absurd rfl (hne [] hg)
    | cons c g => rfl
  · have hpos : perRes ≠ 0 := fun h => absurd hpos (by rw [h]; decide)
    rw [limitGroupsPerResolution, if_neg hpos]
    exact limitPer_eq_filter _ _ _

/-- The signatures of a bucket among the hits, in the order of their first appearance. -/
def bucketSignatures (tp : TitleParser) (items : List Item) (b : Bucket) : List GroupSignature :=
  ((items.map tp.signature).filter fun sig => sig.bucket = b).eraseDups

section
variable (tp : TitleParser) (items : List Item)

/-- The hits of a bucket. -/
def bucketItems (b : Bucket) : List Item := items.filter fun item => (tp.signature item).bucket = b

theorem signatures_bucketItems (b : Bucket) :
    ((bucketItems tp items b).map tp.candidateFromItem).map (·.signature) =
      (items.map tp.signature).filter fun sig => sig.bucket = b := by
  rw [List.map_map, List.filter_map]
  rfl

theorem count_signatures {sig : GroupSignature} {b : Bucket} (hb : sig.bucket = b) :
    (items.map tp.signature).count sig =
      ((bucketItems tp items b).map tp.candidateFromItem).countP (·.signature = sig) := by
  have hcount := List.countP_map (p := fun s : GroupSignature => decide (s = sig))
    (f := fun c : NzbCandidate => c.signature)
    (l := (bucketItems tp items b).map tp.candidateFromItem)
  rw [signatures_bucketItems, List.countP_filter] at hcount
  refine Eq.trans ?_ hcount
  rw [List.count_eq_countP]
  refine List.countP_congr fun s _ => ?_
  by_cases hs : s = sig
  · simp [hs, hb]
  · simp [hs]

/-- The releases of a bucket are the groups of its hits, which the sort leaves in order. -/
theorem filter_releases (b : Bucket) : (releases tp items).filter (groupBucket · = some b) =
    groupOn (·.signature) ((bucketItems tp items b).map tp.candidateFromItem) := by
  have hfilter : ((sortByResolution tp items).map tp.candidateFromItem).filter
      (fun c => c.signature.bucket = b) = (bucketItems tp items b).map tp.candidateFromItem := by
    rw [List.filter_map, bucketItems]
    congr 1
    -- the hits of a bucket have one rank
    refine filter_sortByKey (fun x y hx hy => ?_) items
    have hx : (tp.signature x).bucket = b := of_decide_eq_true hx
    have hy : (tp.signature y).bucket = b := of_decide_eq_true hy
    exact congrArg Prod.fst (hx.trans hy.symm)
  rw [releases, ← hfilter]
  have hhead : ∀ (c : NzbCandidate) (g : List NzbCandidate),
      decide (groupBucket (c :: g) = some b) = decide (c.signature.bucket = b) := by
    intro c g
    simp [groupBucket]
  exact filter_groupOn (p := fun sig : GroupSignature => decide (sig.bucket = b)) hhead _

/-- The hits of a bucket that the cap leaves are those of its first releases. -/
theorem countP_capItems {cap : UInt32} (hcap : cap ≠ 0) (b : Bucket) :
    (capItemsPerResolution tp items cap).countP (fun item => (tp.signature item).bucket = b) =
      ((groupOn (·.signature) ((bucketItems tp items b).map tp.candidateFromItem)).take
        cap.toNat).flatten.length := by
  have huniform : ∀ gs : List (List NzbCandidate), (∀ g ∈ gs, g ∈ releases tp items) →
      gs.flatten.countP (fun c => (tp.signature c.item).bucket = b) =
        (gs.filter (groupBucket · = some b)).flatten.length := by
    intro gs
    induction gs with
    | nil => exact fun _ => rfl
    | cons g gs ih =>
      intro h
      obtain ⟨hg, hgs⟩ := List.forall_mem_cons.mp h
      rw [List.flatten_cons, List.countP_append, ih hgs]
      have hgroup := isGrouping_groupOn (·.signature)
        ((sortByResolution tp items).map tp.candidateFromItem)
      cases g with
      | nil => exact absurd rfl (hgroup.nonempty [] hg)
      | cons c g =>
        have hsig : ∀ d ∈ c :: g, (tp.signature d.item).bucket = c.signature.bucket := by
          intro d hd
          have hd' : d.signature = tp.signature d.item :=
            congrArg NzbCandidate.signature (eq_candidateFromItem hg hd)
          rw [← hd', hgroup.same _ hg d hd c List.mem_cons_self]
        by_cases hb : c.signature.bucket = b
        · rw [List.filter_cons_of_pos (by simp [groupBucket, hb]), List.flatten_cons,
            List.length_append, List.countP_eq_length.mpr]
          intro d hd
          simpa using (hsig d hd).trans hb
        · rw [List.filter_cons_of_neg (by simp [groupBucket, hb]), List.countP_eq_zero.mpr,
            Nat.zero_add]
          intro d hd
          simpa using fun h => hb ((hsig d hd).symm.trans h)
  rw [capItems_eq hcap, List.countP_map, limitGroupsPerResolution, if_neg hcap]
  refine (huniform _ fun g hg => (limitPer_sublist _ _ _).subset hg).trans ?_
  rw [filter_limitPer, filter_releases]

/-- **The cap bounds the hits of each bucket exactly when** the bucket holds no more, or its
first releases up to the cap have one upload each and there are that many. -/
theorem capItems_countP_le_iff (cap : UInt32) (hcap : 0 < cap) :
    (∀ b, (capItemsPerResolution tp items cap).countP
        (fun item => (tp.signature item).bucket = b) ≤ cap.toNat) ↔
      ∀ b, items.countP (fun item => (tp.signature item).bucket = b) ≤ cap.toNat ∨
        cap.toNat ≤ (bucketSignatures tp items b).length ∧
          ∀ sig ∈ (bucketSignatures tp items b).take cap.toNat,
            (items.map tp.signature).count sig = 1 := by
  have hne : cap ≠ 0 := fun h => absurd hcap (by rw [h]; decide)
  refine forall_congr' fun b => ?_
  rw [countP_capItems tp items hne, length_flatten_take_le _ (isGrouping_groupOn _ _).nonempty,
    (flatten_groupOn_perm _ _).length_eq, List.length_map, bucketItems,
    ← List.countP_eq_length_filter, ← bucketItems, groupOn, signatures_bucketItems,
    List.length_map, ← bucketSignatures, ← List.map_take, List.forall_mem_map]
  refine or_congr_right (and_congr_right fun _ => forall₂_congr fun sig hsig => ?_)
  -- all uploads of the release are in the bucket
  have hb : sig.bucket = b := by
    have h := List.mem_eraseDups.mp (List.mem_of_mem_take hsig)
    exact of_decide_eq_true (List.mem_filter.mp h).2
  rw [← List.countP_eq_length_filter, ← count_signatures tp items hb]

end

/-- A title parser that finds the release group after the last dash. -/
def dashParser : TitleParser where
  metadata t := some ⟨"Movie", some "1080p", some "WEB-DL", some "x265", none,
    some (String.ofList (t.toList.reverse.takeWhile (· ≠ '-')).reverse)⟩
  detectLanguage _ := none

/-- Uploads of five release groups. -/
def fiveReleases : List Item :=
  ["Movie.2024.1080p.WEB-DL.x265-RARBG", "Movie.2024.1080p.WEB-DL.x265-EVO",
    "Movie.2024.1080p.WEB-DL.x265-NTb", "Movie.2024.1080p.WEB-DL.x265-FLUX",
    "Movie.2024.1080p.WEB-DL.x265-CMRG"].map fun title => ⟨title, none, none⟩

/-- One release, uploaded six times. -/
def sixUploads : List Item := List.replicate 6 ⟨"Movie.2024.1080p.WEB-DL.x265-EVO", none, none⟩

theorem capItems_countP_le_fiveReleases : 0 < (4 : UInt32) ∧
    ((∀ b, (capItemsPerResolution dashParser fiveReleases 4).countP
        (fun item => (dashParser.signature item).bucket = b) ≤ 4) ↔
      ∀ b, fiveReleases.countP (fun item => (dashParser.signature item).bucket = b) ≤ 4 ∨
        4 ≤ (bucketSignatures dashParser fiveReleases b).length ∧
          ∀ sig ∈ (bucketSignatures dashParser fiveReleases b).take 4,
            (fiveReleases.map dashParser.signature).count sig = 1) :=
  ⟨by decide, capItems_countP_le_iff dashParser fiveReleases 4 (by decide)⟩

/-- Six uploads of one release pass a cap of four. -/
theorem six_uploads_pass_cap : ¬ ∀ b, (capItemsPerResolution dashParser sixUploads 4).countP
    (fun item => (dashParser.signature item).bucket = b) ≤ 4 := by
  intro h
  have hb := h (2, none)
  revert hb
  decide +kernel

/-! ## The cap before validation -/

theorem preValidationCap_toNat (perRes : UInt32) :
    (preValidationCap perRes).toNat = max (2 * perRes.toNat % 2 ^ 32) 4 := by
  have hmul : (perRes * 2).toNat = 2 * perRes.toNat % 2 ^ 32 := by
    rw [UInt32.toNat_mul, Nat.mul_comm]
    rfl
  rw [preValidationCap, UInt32.toNat_max, hmul]
  rfl

/-- **The cap before validation shows in the result exactly when it drops a release**, and it
drops none where the limit lies in `[1, 2^31)` or no bucket holds more releases than it. -/
theorem finalGroups_capItems_eq_iff (tp : TitleParser) (items : List Item) (perRes : UInt32) :
    finalGroups tp (capItemsPerResolution tp items (preValidationCap perRes)) perRes =
        finalGroups tp items perRes ↔
      1 ≤ perRes.toNat ∧ perRes.toNat < 2 ^ 31 ∨
        ∀ b, releaseCount tp items b ≤ (preValidationCap perRes).toNat := by
  have hcap := preValidationCap_toNat perRes
  have hlt := perRes.toNat_lt
  have hne : preValidationCap perRes ≠ 0 := by
    intro h
    rw [h] at hcap
    simp only [UInt32.toNat_zero] at hcap
    omega
  rw [finalGroups_capItems hne, finalGroups_eq]
  generalize preValidationCap perRes = cap at *
  simp only [limitGroupsPerResolution, if_neg hne]
  by_cases hp : perRes = 0
  · -- no limit: the cap has to be none either
    subst hp
    have hzero : (0 : UInt32).toNat = 0 := rfl
    rw [if_pos rfl, if_pos rfl, limitPer_releases_eq_self, hzero]
    exact ⟨.inr, fun h => h.resolve_left fun h => absurd h.1 (by omega)⟩
  · have hpos : 0 < perRes.toNat := by
      rw [Nat.pos_iff_ne_zero]
      exact fun h => hp (UInt32.toNat_inj.mp h)
    rw [if_neg hp, if_neg hp]
    by_cases hle : perRes.toNat < 2 ^ 31
    · -- twice the limit does not wrap, so the cap is no smaller than the limit
      have hge : perRes.toNat ≤ cap.toNat := by omega
      rw [limitPer_limitPer hge]
      exact iff_of_true rfl (.inl ⟨hpos, hle⟩)
    · have hge : cap.toNat ≤ perRes.toNat := by omega
      have hlt : cap.toNat < perRes.toNat := by omega
      rw [limitPer_limitPer_of_ge hge]
      constructor
      · intro h
        refine .inr fun b => ?_
        have hb := congrArg (List.countP (groupBucket · = some b)) h
        rw [countP_limitPer, countP_limitPer, countP_releases] at hb
        simp only [Option.elim_some] at hb
        omega
      · rintro (⟨-, h⟩ | h)
        · exact absurd h hle
        · have hself := limitPer_releases_eq_self.mpr h
          have hself' := limitPer_releases_eq_self.mpr fun b => (h b).trans hge
          rw [hself, hself']

/-- No limit asked for, and the cap before validation still drops the fifth release. -/
theorem cap_shows_without_limit :
    finalGroups dashParser (capItemsPerResolution dashParser fiveReleases (preValidationCap 0)) 0 ≠
      finalGroups dashParser fiveReleases 0 := by
  intro h
  have hl := congrArg List.length h
  revert hl
  decide +kernel

end StremioNzb.Addon

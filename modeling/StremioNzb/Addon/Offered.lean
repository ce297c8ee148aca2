import StremioNzb.Addon.BuildStreams
import StremioNzb.Addon.Committed

/-!
# What a search offers

`build_streams` on hits is the pipeline of `Addon/Streams` on their items (`offered_candidates`).
A hit is offered only if it was found, passed the filters of the user and the validations
(`offered_right`), and one that does is offered where the quota of its bucket has room. The URL of
a stream leads to the session of its group, which streams one of these hits (`offered_streamed`).
-/

namespace StremioNzb.Addon

open StremioNzb.Lib StremioNzb.Streaming

namespace StreamEnv
variable {env : StreamEnv} {answers : SearchAnswers} {user : UserConfig} {type_ id : String}
  {items : List Hit} {item : Hit}

/-! ## The hits and their items -/

theorem sortHits_items : (env.sortHits items).map Hit.toItem =
    sortByResolution env.tp (items.map Hit.toItem) :=
  items.map_insertionSort _ _ Hit.toItem fun _ _ _ _ => Iff.rfl

theorem groupHits_candidates :
    groupCandidates (env.candidates items) = (env.groupHits items).map env.candidates := by
  rw [groupCandidates_eq]
  exact groupOn_map _ _ items

theorem limitHits_candidates (groups : List (List Hit)) (perRes : UInt32) :
    limitGroupsPerResolution (groups.map env.candidates) perRes =
      (env.limitHits groups perRes).map env.candidates := by
  have hbucket : ∀ group, groupBucket (env.candidates group) =
      group.head?.map fun item => (env.tp.signature item.toItem).bucket := by
    intro group
    cases group <;> rfl
  unfold limitGroupsPerResolution limitHits
  split
  · rfl
  · rw [limitPer_map]
    simp only [hbucket]

/-- What is offered is what `finalGroups` makes of the items that are left. -/
theorem offered_candidates : (env.offered answers user type_ id).map env.candidates =
    finalGroups env.tp ((env.validated answers user type_ id).map Hit.toItem) (perRes user) := by
  unfold offered finalGroups
  simp only
  rw [← limitHits_candidates, ← groupHits_candidates, ← sortHits_items]
  simp only [candidates, List.map_map, Function.comp_def]

/-- The cap on hits is the cap on their items. -/
theorem capHits_items (cap : UInt32) : (env.capHits items cap).map Hit.toItem =
    capItemsPerResolution env.tp (items.map Hit.toItem) cap := by
  have hitem : ∀ groups : List (List Hit), groups.flatten.map Hit.toItem =
      (groups.map env.candidates).flatten.map (·.item) := by
    intro groups
    rw [List.map_flatten, List.map_flatten, List.map_map]
    congr 1
    refine List.map_congr_left fun group _ => ?_
    simp only [Function.comp_def, candidates, List.map_map, TitleParser.candidateFromItem]
  unfold capHits capItemsPerResolution
  rw [List.isEmpty_map]
  split
  · rfl
  · simp only
    rw [hitem, ← limitHits_candidates, ← groupHits_candidates, ← sortHits_items]
    simp only [candidates, List.map_map, Function.comp_def]

/-! ## The filters -/

theorem mem_filterByQuality {minGbit maxGbit : Option Float} {mediaKind : String} :
    item ∈ filterByQuality items minGbit maxGbit mediaKind ↔ item ∈ items ∧
      (minGbit.isSome ∨ maxGbit.isSome →
        inWindow minGbit maxGbit (itemBandwidth mediaKind item)) := by
  unfold filterByQuality
  split
  · rename_i h
    rw [Bool.and_eq_true, Option.isNone_iff_eq_none, Option.isNone_iff_eq_none] at h
    simp [h.1, h.2]
  · rename_i h
    have hset : minGbit.isSome ∨ maxGbit.isSome := by
      rw [Bool.and_eq_true, Option.isNone_iff_eq_none, Option.isNone_iff_eq_none] at h
      rw [Option.isSome_iff_ne_none, Option.isSome_iff_ne_none]
      tauto
    simp only [List.mem_map, List.mem_mergeSort, List.mem_filter, hset, true_imp_iff]
    refine ⟨?_, ?_⟩
    · rintro ⟨_, ⟨⟨item, hitem, rfl⟩, hw⟩, rfl⟩
      exact ⟨hitem, hw⟩
    · rintro ⟨hitem, hw⟩
      exact ⟨(_, item), ⟨⟨item, hitem, rfl⟩, hw⟩, rfl⟩

theorem mem_filterByTitleRegex {excludeRegex : Option String} :
    item ∈ env.filterByTitleRegex items excludeRegex ↔ item ∈ items ∧
      ∀ isMatch, env.compileExcludeRegex excludeRegex = some isMatch →
        isMatch item.title = false := by
  unfold filterByTitleRegex
  split
  · next h => simp [h]
  · next isMatch h => simp [h, List.mem_filter]

theorem mem_filterByLanguage {tp : TitleParser} {preferred : List String} :
    item ∈ filterByLanguage tp items preferred ↔ item ∈ items ∧
      (preferred = [] ∨ keepsLanguage tp preferred item.title) := by
  unfold filterByLanguage
  split
  · rename_i h
    simp [List.isEmpty_iff.mp h]
  · rename_i h
    have hne : preferred ≠ [] := fun he => h (by simp [he])
    simp [List.mem_filter, hne]

theorem mem_channelItems {r : Except String (Option (List Hit))} :
    item ∈ channelItems r ↔ ∃ items, r = .ok (some items) ∧ item ∈ items := by
  unfold channelItems
  split <;> simp_all

theorem mem_found : item ∈ answers.found user type_ id ↔
    ∃ search, answers.searchFor type_ id = some search ∧
      ∃ k indexer items, user.indexers[k]? = some indexer ∧
        answers.channel k ⟨indexer.url, indexer.apiKey⟩ search = .ok (some items) ∧
        item ∈ items := by
  unfold SearchAnswers.found SearchAnswers.fanout
  cases hs : answers.searchFor type_ id with
  | none => simp
  | some search =>
    simp only [Option.map_some, Option.getD_some, List.mem_flatMap, mem_channelItems,
      Option.some.injEq, exists_eq_left', Prod.exists, List.mem_zipIdx_iff_getElem?,
      List.getElem?_map, Option.map_eq_some_iff]
    refine ⟨?_, ?_⟩
    · rintro ⟨_, k, ⟨indexer, hk, rfl⟩, items, hitems, hitem⟩
      exact ⟨k, indexer, items, hk, hitems, hitem⟩
    · rintro ⟨k, indexer, items, hk, hitems, hitem⟩
      exact ⟨_, k, ⟨indexer, hk, rfl⟩, items, hitems, hitem⟩

variable (env answers user type_ id) in
/-- The hit was found for the user, and the preferences of the user let it through. -/
structure Passes (item : Hit) : Prop where
  found : ∃ search, answers.searchFor type_ id = some search ∧
    ∃ k indexer items, user.indexers[k]? = some indexer ∧
      answers.channel k ⟨indexer.url, indexer.apiKey⟩ search = .ok (some items) ∧ item ∈ items
  window : user.minGbitPerHour.isSome ∨ user.maxGbitPerHour.isSome →
    inWindow user.minGbitPerHour user.maxGbitPerHour (itemBandwidth type_ item)
  title : ∀ isMatch, env.compileExcludeRegex user.excludeRegex = some isMatch →
    isMatch item.title = false
  language : effectiveLanguages user.preferredLanguages (answers.originals type_ id) = [] ∨
    keepsLanguage env.tp
      (effectiveLanguages user.preferredLanguages (answers.originals type_ id)) item.title

/-- Only films and series are searched for. -/
theorem type_of_searchFor {search : Search} (h : answers.searchFor type_ id = some search) :
    type_ = "movie" ∨ type_ = "series" := by
  unfold SearchAnswers.searchFor at h
  split at h
  · exact .inl ‹_›
  · split at h
    · exact .inr ‹_›
    · cases h

theorem mem_preferred :
    item ∈ env.preferred answers user type_ id ↔ env.Passes answers user type_ id item := by
  unfold preferred
  simp only
  rw [mem_filterByLanguage, mem_filterByTitleRegex]
  have hwindow : ∀ items : List Hit, (item ∈ items → type_ = "movie" ∨ type_ = "series") →
      ((item ∈ if (user.minGbitPerHour.isSome || user.maxGbitPerHour.isSome) &&
          (type_ = "movie" || type_ = "series") then
          filterByQuality items user.minGbitPerHour user.maxGbitPerHour type_ else items) ↔
        item ∈ items ∧ (user.minGbitPerHour.isSome ∨ user.maxGbitPerHour.isSome →
          inWindow user.minGbitPerHour user.maxGbitPerHour (itemBandwidth type_ item))) := by
    intro items htype
    split
    · exact mem_filterByQuality
    · rename_i h
      simp only [Bool.and_eq_true, Bool.or_eq_true, decide_eq_true_eq, not_and] at h
      exact ⟨fun hitem => ⟨hitem, fun hset => absurd (htype hitem) (h hset)⟩, And.left⟩
  rw [hwindow _ fun h => type_of_searchFor (mem_found.mp h).choose_spec.1, mem_found]
  refine ⟨?_, ?_⟩
  · rintro ⟨⟨⟨hf, hw⟩, ht⟩, hl⟩
    exact ⟨hf, hw, ht, hl⟩
  · rintro ⟨hf, hw, ht, hl⟩
    exact ⟨⟨⟨hf, hw⟩, ht⟩, hl⟩

/-! ## The validations -/

theorem mem_limitHits {groups : List (List Hit)} {perRes : UInt32} {group : List Hit}
    (h : group ∈ env.limitHits groups perRes) : group ∈ groups := by
  unfold limitHits at h
  split at h
  · exact h
  · exact (limitPer_sublist _ _ _).subset h

theorem mem_of_mem_groups {group : List Hit} {perRes : UInt32}
    (h : group ∈ env.limitHits (env.groupHits (env.sortHits items)) perRes)
    (hitem : item ∈ group) : item ∈ items :=
  (sortByKey_perm _ items).mem_iff.mp (subset_of_mem_groupOn (mem_limitHits h) hitem)

theorem mem_of_mem_capHits {cap : UInt32} (h : item ∈ env.capHits items cap) : item ∈ items := by
  unfold capHits at h
  split at h
  · exact h
  · obtain ⟨group, hgroup, hitem⟩ := List.mem_flatten.mp h
    exact mem_of_mem_groups hgroup hitem

theorem mem_passing {ok : Nat → String → Bool} : item ∈ passing ok items ↔
    ∃ k, items[k]? = some item ∧ ok k (itemNzbUrl item.toItem) := by
  unfold passing
  simp only [List.mem_map, List.mem_filter, Prod.exists, List.mem_zipIdx_iff_getElem?]
  refine ⟨?_, ?_⟩
  · rintro ⟨_, k, ⟨hk, hok⟩, rfl⟩
    exact ⟨k, hk, hok⟩
  · rintro ⟨k, hk, hok⟩
    exact ⟨item, k, ⟨hk, hok⟩, rfl⟩

variable (answers user) in
/-- The validations that the user asks for came out well for the hit. -/
structure Validated (item : Hit) : Prop where
  structurally : user.validateNzbStructure.getD false →
    ∃ k, (answers.sanity k (itemNzbUrl item.toItem)).ok
  available : user.validateNzbAvailability.getD false → user.nntpServers ≠ [] →
    ∃ k, (answers.availability k (user.nntpServers.map (·.server)) (itemNzbUrl item.toItem)).ok

theorem mem_checked (h : item ∈ env.checked answers user type_ id) :
    item ∈ env.capped answers user type_ id ∧ (user.validateNzbStructure.getD false →
      ∃ k, (answers.sanity k (itemNzbUrl item.toItem)).ok) := by
  unfold checked at h
  simp only at h
  split at h
  · obtain ⟨k, hk, hok⟩ := mem_passing.mp h
    exact ⟨List.mem_of_getElem? hk, fun _ => ⟨k, hok⟩⟩
  · rename_i hno
    refine ⟨h, fun hv => absurd ?_ hno⟩
    rw [Bool.and_eq_true, Bool.not_eq_true', List.isEmpty_eq_false_iff]
    exact ⟨hv, List.ne_nil_of_mem h⟩

theorem mem_validated (h : item ∈ env.validated answers user type_ id) :
    item ∈ env.capped answers user type_ id ∧ Validated answers user item := by
  unfold validated at h
  simp only at h
  split at h
  · obtain ⟨k, hk, hok⟩ := mem_passing.mp h
    obtain ⟨hcapped, hs⟩ := mem_checked (List.mem_of_getElem? hk)
    exact ⟨hcapped, hs, fun _ _ => ⟨k, hok⟩⟩
  · rename_i hno
    obtain ⟨hcapped, hs⟩ := mem_checked h
    refine ⟨hcapped, hs, fun hv hservers => absurd ?_ hno⟩
    simp only [Bool.and_eq_true, Bool.not_eq_true', List.isEmpty_eq_false_iff, List.map_eq_nil_iff,
      Ne]
    exact ⟨⟨hv, List.ne_nil_of_mem h⟩, hservers⟩

/-! ## The releases of a bucket -/

section
variable {groups : List (List Hit)} {cap perRes : UInt32} {b : Bucket} {items' : List Hit}

/-- The bucket of a hit. -/
abbrev bucket (env : StreamEnv) (item : Hit) : Bucket := (env.tp.signature item.toItem).bucket

/-- How many releases of that bucket are among the hits. -/
abbrev releasesIn (env : StreamEnv) (items : List Hit) (b : Bucket) : Nat :=
  releaseCount env.tp (items.map Hit.toItem) b

/-- How many groups of that bucket there are. -/
abbrev groupsIn (env : StreamEnv) (groups : List (List Hit)) (b : Bucket) : Nat :=
  groups.countP fun group => group.head?.map env.bucket = some b

theorem groupsIn_groupHits : env.groupsIn (env.groupHits (env.sortHits items)) b =
    env.releasesIn items b := by
  have hsigs : ((env.sortHits items).map fun item => env.tp.signature item.toItem).Perm
      ((items.map Hit.toItem).map env.tp.signature) := by
    rw [List.map_map]
    exact (sortByKey_perm _ items).map _
  unfold groupsIn groupHits releasesIn releaseCount
  rw [countP_groupOn (p := fun sig : GroupSignature => decide (sig.bucket = b))
    (fun item group => by simp [bucket])]
  exact (perm_eraseDups hsigs).countP_eq _

theorem limitHits_sublist (groups : List (List Hit)) (perRes : UInt32) :
    (env.limitHits groups perRes).Sublist groups := by
  unfold limitHits
  split
  · exact .refl _
  · exact limitPer_sublist _ _ _

theorem groupsIn_limitHits (h : perRes ≠ 0) :
    env.groupsIn (env.limitHits groups perRes) b ≤ perRes.toNat := by
  unfold groupsIn limitHits
  rw [if_neg h]
  exact (countP_limitPer (some b) groups).trans_le (Nat.min_le_left _ _)

/-- Fewer hits, fewer releases. -/
theorem releasesIn_mono (h : items' ⊆ items) :
    env.releasesIn items' b ≤ env.releasesIn items b := by
  have hsub : ((items'.map Hit.toItem).map env.tp.signature).eraseDups ⊆
      ((items.map Hit.toItem).map env.tp.signature).eraseDups := by
    intro sig hsig
    rw [List.mem_eraseDups] at hsig ⊢
    exact List.map_subset _ (List.map_subset _ h) hsig
  exact (List.subperm_of_subset (nodup_eraseDups _) hsub).countP_le _

/-- The cap leaves no more releases of a bucket than it says. -/
theorem releasesIn_capHits (hcap : cap ≠ 0) :
    env.releasesIn (env.capHits items cap) b ≤ cap.toNat := by
  have hcount : (releases env.tp ((env.capHits items cap).map Hit.toItem)).countP
      (groupBucket · = some b) = env.releasesIn (env.capHits items cap) b :=
    countP_releases (some b)
  rw [← hcount, capHits_items, capItems_eq hcap, releases_of_sublist (limitGroups_sublist _ _),
    limitGroupsPerResolution, if_neg hcap, countP_limitPer]
  exact Nat.min_le_left _ _

/-- A hit is in the group of its release, which stays where its bucket has room. -/
theorem exists_group (hitem : item ∈ items)
    (hroom : perRes = 0 ∨ env.releasesIn items (env.bucket item) ≤ perRes.toNat) :
    ∃ group ∈ env.limitHits (env.groupHits (env.sortHits items)) perRes, item ∈ group := by
  obtain ⟨group, hgroup, hmem⟩ : ∃ group ∈ env.groupHits (env.sortHits items), item ∈ group := by
    rw [← List.mem_flatten]
    exact (flatten_groupOn_perm _ _).mem_iff.mpr ((sortByKey_perm _ items).mem_iff.mpr hitem)
  refine ⟨group, ?_, hmem⟩
  unfold limitHits
  split
  · exact hgroup
  · rename_i h0
    have hroom := hroom.resolve_left h0
    refine mem_limitPer_of_countP_le hgroup ?_
    -- the group is of the bucket of each of its hits
    have hhead : group.head?.map env.bucket = some (env.bucket item) := by
      have hsame := (isGrouping_groupOn _ _).same group hgroup item hmem
      cases group with
      | nil => cases hmem
      | cons first rest =>
        simp only [List.head?_cons, Option.map_some, bucket]
        rw [hsame first List.mem_cons_self]
    refine Nat.le_trans (le_of_eq ?_) hroom
    rw [← groupsIn_groupHits, groupsIn, ← hhead]

/-- The cap drops no hit of a bucket with room. -/
theorem mem_capHits (hitem : item ∈ items)
    (hroom : env.releasesIn items (env.bucket item) ≤ cap.toNat) :
    item ∈ env.capHits items cap := by
  unfold capHits
  split
  · exact hitem
  · obtain ⟨group, hgroup, hmem⟩ := exists_group hitem (.inr hroom)
    exact List.mem_flatten.mpr ⟨group, hgroup, hmem⟩

end

/-! ## The order of the uploads -/

section
variable {groups : List (List Hit)} {cap : UInt32} {sig : GroupSignature}

/-- The hits of one release. -/
abbrev uploads (env : StreamEnv) (items : List Hit) (sig : GroupSignature) : List Hit :=
  items.filter fun item => env.tp.signature item.toItem = sig

theorem uploads_sortHits {items : List Hit} :
    env.uploads (env.sortHits items) sig = env.uploads items sig := by
  refine filter_sortByKey (fun item other hitem hother => ?_) items
  have hsame : env.tp.signature item.toItem = env.tp.signature other.toItem :=
    (of_decide_eq_true hitem).trans (of_decide_eq_true hother).symm
  exact congrArg (fun sig : GroupSignature => resolutionIndex (sig.resolution.getD "")) hsame

theorem uploads_capHits (items : List Hit) : (env.uploads (env.capHits items cap) sig).Sublist
    (env.uploads items sig) := by
  unfold capHits
  split
  · exact .refl _
  · have hgroups : env.uploads (env.groupHits (env.sortHits items)).flatten sig =
        env.uploads items sig := (filter_flatten_groupOn _ _).trans uploads_sortHits
    rw [← hgroups]
    exact (limitHits_sublist _ cap).flatten.filter _

theorem passing_sublist (ok : Nat → String → Bool) (items : List Hit) :
    (passing ok items).Sublist items := by
  have h := (List.filter_sublist (p := fun p => ok p.2 (itemNzbUrl p.1.toItem))
    (l := items.zipIdx)).map Prod.fst
  rwa [List.zipIdx_map_fst] at h

theorem validated_sublist :
    (env.validated answers user type_ id).Sublist (env.capped answers user type_ id) := by
  have hchecked :
      (env.checked answers user type_ id).Sublist (env.capped answers user type_ id) := by
    unfold checked
    simp only
    split
    · exact passing_sublist _ _
    · exact .refl _
  refine List.Sublist.trans ?_ hchecked
  unfold validated
  simp only
  split
  · exact passing_sublist _ _
  · exact .refl _

/-- A group is what is left of the uploads of its release, in the order of the filters. -/
theorem sublist_of_offered {group : List Hit} (h : group ∈ env.offered answers user type_ id) :
    group.Sublist (env.preferred answers user type_ id) := by
  obtain ⟨sig, -, rfl⟩ := List.mem_map.mp (mem_limitHits h)
  show (env.uploads (env.sortHits (env.validated answers user type_ id)) sig).Sublist _
  rw [uploads_sortHits]
  exact (validated_sublist.filter _).trans ((uploads_capHits _).trans List.filter_sublist)

end

/-! ## The offer -/

variable (answers user) in
/-- No validation that the user asks for can reject the hit. -/
structure Unobjectionable (item : Hit) : Prop where
  structurally : user.validateNzbStructure.getD false →
    ∀ k, (answers.sanity k (itemNzbUrl item.toItem)).ok
  available : user.validateNzbAvailability.getD false →
    ∀ k, (answers.availability k (user.nntpServers.map (·.server)) (itemNzbUrl item.toItem)).ok

variable (env answers user type_ id) in
/-- What the user is promised of the groups. -/
structure Offers (groups : List (List Hit)) : Prop where
  right : ∀ group ∈ groups, ∀ item ∈ group,
    env.Passes answers user type_ id item ∧ Validated answers user item
  /-- No group is empty; each holds the uploads of one release, no release has two. -/
  grouping : IsGrouping (fun item => env.tp.signature item.toItem) groups
  /-- The uploads of a release are tried in the order that the filters left them in. -/
  order : ∀ group ∈ groups, group.Sublist (env.preferred answers user type_ id)
  sorted : groups.flatten.Pairwise fun item other =>
    (env.tp.signature item.toItem).rank ≤ (env.tp.signature other.toItem).rank
  quota : ∀ b, env.groupsIn groups b ≤ (preValidationCap (perRes user)).toNat ∧
    (perRes user ≠ 0 → env.groupsIn groups b ≤ (perRes user).toNat)
  shown : ∀ item, env.Passes answers user type_ id item → Unobjectionable answers user item →
    env.releasesIn (env.preferred answers user type_ id) (env.bucket item) ≤
      (preValidationCap (perRes user)).toNat →
    (perRes user = 0 ∨ env.releasesIn (env.preferred answers user type_ id) (env.bucket item) ≤
      (perRes user).toNat) → ∃ group ∈ groups, item ∈ group

theorem mem_passing_of_forall {ok : Nat → String → Bool} (hitem : item ∈ items)
    (hok : ∀ k, ok k (itemNzbUrl item.toItem)) : item ∈ passing ok items := by
  obtain ⟨k, hk⟩ := List.mem_iff_getElem?.mp hitem
  exact mem_passing.mpr ⟨k, hk, hok k⟩

/-- What cannot be rejected is left. -/
theorem mem_validated_of_unobjectionable (hitem : item ∈ env.capped answers user type_ id)
    (h : Unobjectionable answers user item) : item ∈ env.validated answers user type_ id := by
  have hchecked : item ∈ env.checked answers user type_ id := by
    unfold checked
    simp only
    split
    · rename_i hv
      rw [Bool.and_eq_true] at hv
      exact mem_passing_of_forall hitem (h.structurally hv.1)
    · exact hitem
  unfold validated
  simp only
  split
  · rename_i hv
    rw [Bool.and_eq_true, Bool.and_eq_true] at hv
    exact mem_passing_of_forall hchecked (h.available hv.1.1)
  · exact hchecked

theorem preValidationCap_ne_zero (perRes : UInt32) : preValidationCap perRes ≠ 0 := by
  intro h
  have hnat := preValidationCap_toNat perRes
  rw [h, UInt32.toNat_zero] at hnat
  omega

theorem offered_grouping : IsGrouping (fun item => env.tp.signature item.toItem)
    (env.offered answers user type_ id) :=
  (isGrouping_groupOn _ _).sublist (limitHits_sublist _ _)

theorem passes_of_offered {group : List Hit} (hgroup : group ∈ env.offered answers user type_ id)
    (hitem : item ∈ group) :
    env.Passes answers user type_ id item ∧ Validated answers user item := by
  obtain ⟨hcapped, hvalid⟩ := mem_validated (mem_of_mem_groups hgroup hitem)
  exact ⟨mem_preferred.mp (mem_of_mem_capHits hcapped), hvalid⟩

/-- **A search offers what it should**: only hits that the indexers found and the filters and
validations let through, one group for each release, in the order of the resolutions and within
the quota; and each such hit, where its bucket has room for all the releases found. -/
theorem offered_right (env : StreamEnv) (answers : SearchAnswers) (user : UserConfig)
    (type_ id : String) :
    env.Offers answers user type_ id (env.offered answers user type_ id) := by
  have hsub : env.validated answers user type_ id ⊆ env.capped answers user type_ id :=
    validated_sublist.subset
  have hcap := preValidationCap_ne_zero (perRes user)
  refine ⟨fun group hgroup item hitem => passes_of_offered hgroup hitem, offered_grouping,
    fun group => sublist_of_offered, ?_, fun b => ⟨?_, groupsIn_limitHits⟩,
    fun item hpass hok hfits hroom => ?_⟩
  · refine List.Pairwise.sublist (limitHits_sublist _ _).flatten ?_
    exact pairwise_flatten_groupOn GroupSignature.rank (pairwise_sortByKey _ _)
  · calc env.groupsIn (env.offered answers user type_ id) b
        ≤ env.releasesIn (env.validated answers user type_ id) b :=
          (limitHits_sublist _ _).countP_le.trans_eq groupsIn_groupHits
      _ ≤ env.releasesIn (env.capped answers user type_ id) b := releasesIn_mono hsub
      _ ≤ (preValidationCap (perRes user)).toNat := releasesIn_capHits hcap
  · have hcapped : item ∈ env.capped answers user type_ id :=
      mem_capHits (mem_preferred.mpr hpass) hfits
    have hpref : env.validated answers user type_ id ⊆ env.preferred answers user type_ id :=
      fun item h => mem_of_mem_capHits (hsub h)
    exact exists_group (mem_validated_of_unobjectionable hcapped hok)
      (hroom.imp_right fun h => (releasesIn_mono hpref).trans h)

/-! ## From the stream to its group -/

/-- Where `f` drops nothing, positions stay. -/
theorem getElem?_filterMap {α β : Type} {f : α → Option β} : ∀ {xs : List α} {k : Nat},
    (∀ x ∈ xs, (f x).isSome) → (xs.filterMap f)[k]? = xs[k]?.bind f
  | [], _, _ => rfl
  | x :: xs, k, h => by
    obtain ⟨y, hy⟩ := Option.isSome_iff_exists.mp (h x List.mem_cons_self)
    rw [List.filterMap_cons_some hy]
    cases k with
    | zero => simp [hy]
    | succ k =>
      rw [List.getElem?_cons_succ, List.getElem?_cons_succ]
      exact getElem?_filterMap fun x hx => h x (List.mem_cons_of_mem _ hx)

/-- The `k`-th stream shows the first hit of the `k`-th group under the `k`-th token. -/
theorem getElem?_buildStreams {baseUrl : String} {token : Nat → String} {k : Nat} {stream : Stream}
    (h : (env.buildStreams answers user type_ id baseUrl token)[k]? = some stream) :
    ∃ group first, (env.offered answers user type_ id)[k]? = some group ∧
      group.head? = some first ∧
      stream = env.itemToStream first s!"{addonName} ({hostLabel baseUrl})" addonId
        (baseUrl ++ "/v/" ++ token k ++ ".mkv") (answers.originals type_ id) := by
  unfold buildStreams at h
  rw [getElem?_filterMap, List.getElem?_zipIdx] at h
  · obtain ⟨p, hp, h⟩ := Option.bind_eq_some_iff.mp h
    obtain ⟨group, hgroup, rfl⟩ := Option.map_eq_some_iff.mp hp
    obtain ⟨first, hfirst, rfl⟩ := Option.map_eq_some_iff.mp h
    exact ⟨group, first, hgroup, hfirst, by rw [Nat.zero_add]⟩
  · intro p hp
    have hgroup := List.mem_of_getElem? (List.mem_zipIdx_iff_getElem?.mp hp)
    obtain ⟨first, rest, heq⟩ :=
      List.exists_cons_of_ne_nil (offered_grouping.nonempty p.1 hgroup)
    simp [heq]

end StreamEnv

theorem stripSuffix_append (s tail : String) : stripSuffix tail (s ++ tail) = some s := by
  unfold stripSuffix
  rw [if_pos, String.length_append, Nat.add_sub_cancel, String.toList_append,
    ← String.length_toList, List.take_left, String.ofList_toList]
  rw [List.isSuffixOf_iff_suffix, String.toList_append]
  exact List.suffix_append _ _

theorem pathToken_mkv (token : String) : pathToken (token ++ ".mkv") = token := by
  unfold pathToken
  rw [stripSuffix_append]
  rfl

/-! ## From the session to the hit -/

section
variable {ι : Type} [DecidableEq ι] {cfg : StreamConfig} {s t u : Videos ι} {i : ι}
  {tokenWithExt token : String} {range : Option String} {r : Response}

namespace Videos

/-- A token stays known until its session is removed. -/
theorem mem_registry_of_run {acts : List (VideosAct ι)}
    (h : Run (step cfg) (fun _ a => a ≠ .remove token) t acts u) (ht : token ∈ t.registry) :
    token ∈ u.registry := by
  refine h.inv (I := fun v => token ∈ v.registry) ht fun v a w hv ha hs => ?_
  have hcell : ∀ (v' : Videos ι) {i : ι} {a : OnceCell.Act ι Net} {w' : Videos ι},
      v'.registry = v.registry → v'.atCell i a = some w' → w'.registry = v.registry := by
    intro v' i a w' hv' hw
    unfold atCell at hw
    split at hw
    · obtain ⟨session, -, hw⟩ := Option.bind_eq_some_iff.mp hw
      obtain ⟨active, -, rfl⟩ := Option.map_eq_some_iff.mp hw
      exact hv'
    · cases hw
  have hkeep : w.registry = v.registry → token ∈ w.registry := fun heq => heq ▸ hv
  cases a with
  | registerGroup other candidates =>
    simp only [step] at hs
    split at hs
    · cases hs
      exact List.mem_cons_of_mem _ hv
    · cases hs
  | remove other =>
    cases hs
    refine List.mem_filter.mpr ⟨hv, ?_⟩
    simpa using fun heq : token = other => ha (heq ▸ rfl)
  | get i other range =>
    simp only [step] at hs
    split at hs
    · cases hs
      exact hv
    · cases hs
  | readPool i servers =>
    simp only [step, readPool] at hs
    split at hs
    · split at hs
      · exact hkeep (hcell _ (by rfl) hs)
      · cases hs
        exact hv
    · cases hs
  | enter i => exact hkeep (hcell v rfl hs)
  | probe i net => exact hkeep (hcell v rfl hs)
  | respond i =>
    simp only [step, respond] at hs
    split at hs
    · obtain ⟨session, -, hs⟩ := Option.bind_eq_some_iff.mp hs
      obtain ⟨r, -, rfl⟩ := Option.map_eq_some_iff.mp hs
      exact hv
    · cases hs
  | close i =>
    simp only [step, close] at hs
    split at hs
    · cases hs
      cases hc : v.atCell i (.cancel i) with
      | none => exact hv
      | some w' => exact (hcell v rfl hc).symm ▸ hv
    · cases hs
      exact hv
    · cases hs
      exact hv
    · cases hs

/-- A registered session has its group and an empty cell. -/
theorem registered {candidates : List NzbCandidate}
    (h : s.step cfg (.registerGroup token candidates) = some t) :
    t.sessions token = some ⟨candidates, 0, .empty⟩ ∧ token ∈ t.registry := by
  simp only [step] at h
  split at h
  · cases h
    exact ⟨Function.update_self .., List.mem_cons_self⟩
  · cases h

end Videos

/-- **What a stream plays was found for the user.** The URL of the `k`-th stream of a search leads
to a session of the `k`-th group, known until it is removed; whatever the requests for it do, each
response with bytes streams the first hit of that group that could be opened, and this is a hit
that passed the filters and the validations of the user. -/
theorem offered_streamed {env : StreamEnv} {answers : SearchAnswers} {user : UserConfig}
    {type_ id baseUrl : String} {tokens : Nat → String} {k : Nat} {stream : Stream}
    {act : VideosAct ι} (h : Videos.Reaches cfg .init s)
    (hstream : (env.buildStreams answers user type_ id baseUrl tokens)[k]? = some stream)
    (hact : (env.registrations answers user type_ id tokens)[k]? = some act)
    (hs : s.step cfg act = some t) (hurl : stream.url = baseUrl ++ "/v/" ++ tokenWithExt) :
    ∃ group, (env.offered answers user type_ id)[k]? = some group ∧
      (∀ acts u i range,
        Run (Videos.step cfg) (fun _ a => a ≠ .remove (pathToken tokenWithExt)) t acts u →
        u.routes i = .coming → u.step cfg (.get i tokenWithExt range) =
          some (u.goto i (.found (pathToken tokenWithExt) range))) ∧
      ∀ u j range r, Videos.Reaches cfg t u →
        u.routes j = .responded (pathToken tokenWithExt) range r → r.status ∈ [200, 206] →
        ∃ session active item, u.sessions (pathToken tokenWithExt) = some session ∧
          session.candidates = env.candidates group ∧
          session.CommitsFirst (pathToken tokenWithExt) ∧
          session.active.value = some active ∧ group[active.candidateIdx]? = some item ∧
          env.Passes answers user type_ id item ∧
          StreamEnv.Validated answers user item ∧ r.Announces cfg range active := by
  obtain ⟨group, first, hgroup, -, rfl⟩ := StreamEnv.getElem?_buildStreams hstream
  -- the token of the path is that of the registration
  have htoken : pathToken tokenWithExt = tokens k := by
    have happ : tokens k ++ ".mkv" = tokenWithExt := by
      simpa [StreamEnv.itemToStream, String.append_assoc] using hurl
    rw [← happ, pathToken_mkv]
  rw [htoken]
  have hact : act = .registerGroup (tokens k) (env.candidates group) := by
    rw [StreamEnv.registrations, List.getElem?_map, List.getElem?_zipIdx, hgroup] at hact
    simpa using hact.symm
  rw [hact] at hs
  obtain ⟨hsession, hknown⟩ := Videos.registered hs
  have ht : Videos.Reaches cfg .init t := h.snoc trivial hs
  refine ⟨group, hgroup, fun acts u i range hrun hcoming => ?_, fun u j range r h' hj hr => ?_⟩
  · have hmem := Videos.mem_registry_of_run hrun hknown
    simp only [Videos.step, hcoming, Videos.get, htoken, if_pos hmem]
  · have hk := Videos.kept_reaches ht
    have hk' : u.Kept cfg := h'.inv hk fun _ _ _ hk _ hs => (Videos.step_effect hk hs).kept hk
    obtain ⟨cell, hcell, -, -⟩ := Videos.grows_reaches hk h' _ _ hsession
    cases hk'.routes j (tokens k) range r hj with
    | unknown | serverless | refused => simp [Response.ofText] at hr
    | @served session active hs' hv =>
      rw [hcell] at hs'
      cases hs'
      have hcommits := GroupSession.commitsFirst_of_kept (hk'.cells _ _ hcell)
      obtain ⟨-, old, i, nets, -, -, hsucc⟩ := hcommits.committed active hv
      cases hsucc with
      | @snoc nets lastErr net candidate active hfails hc hnet =>
        obtain ⟨item, hitem, -⟩ : ∃ item, group[0 + nets.length]? = some item ∧
            env.tp.candidateFromItem item.toItem = candidate := by
          rw [StreamEnv.candidates, List.getElem?_map] at hc
          exact Option.map_eq_some_iff.mp hc
        obtain ⟨hpass, hvalid⟩ := StreamEnv.passes_of_offered
          (List.mem_of_getElem? hgroup) (List.mem_of_getElem? hitem)
        exact ⟨_, _, item, hcell, rfl, hcommits, hv, hitem, hpass, hvalid,
          cfg.announces _ range _⟩

/-! ### A film with two uploads -/

def plainTitles : StreamEnv :=
  ⟨⟨Char.isDigit, Char.isAlphanum⟩, fun _ => none, fun _ _ => none, fun _ => none, fun _ => ""⟩

def filmHit : Hit := ⟨⟨"Film", some "http://nzb", none⟩, none, none⟩

def oneAnswer : SearchAnswers where
  channel _ _ _ := .ok (some [filmHit])
  imdbToTvdb _ := none
  originalLanguages _ _ := []
  sanity _ _ := ⟨true, none⟩
  availability _ _ _ := ⟨true, none⟩

/-- The film was uploaded again. -/
def secondHit : Hit := ⟨⟨"Film", some "http://other", none⟩, none, none⟩

def twoUploads : SearchAnswers :=
  { oneAnswer with channel _ _ _ := .ok (some [filmHit, secondHit]) }

def oneIndexer : UserConfig := { indexers := [⟨"http://indexer", "key"⟩] }

/-- The film's session. -/
def filmRegistered : Videos Nat :=
  { Videos.init.setSession "t" ⟨plainTitles.candidates [filmHit, secondHit], 0, .empty⟩ with
    registry := ["t"] }

theorem film_offered :
    plainTitles.offered twoUploads oneIndexer "movie" "tt1" = [[filmHit, secondHit]] := by
  decide +kernel

/-- The first upload cannot be opened; the second is streamed. -/
theorem offered_streamed_film :
    ∃ (stream : Stream) (u : Videos Nat) (range : _) (r : _),
      (plainTitles.buildStreams twoUploads oneIndexer "movie" "tt1" "http://addon"
        fun _ => "t")[0]? = some stream ∧
      stream.url = "http://addon" ++ "/v/" ++ "t.mkv" ∧
      Videos.Reaches noReadAhead filmRegistered u ∧
      u.routes 0 = .responded "t" range r ∧ r.status = 200 ∧
      ∃ session active, u.sessions "t" = some session ∧
        session.candidates = plainTitles.candidates [filmHit, secondHit] ∧
        session.CommitsFirst "t" ∧ session.active.value = some active ∧ active.candidateIdx = 1 ∧
        plainTitles.Passes twoUploads oneIndexer "movie" "tt1" secondHit ∧
        StreamEnv.Validated twoUploads oneIndexer secondHit ∧
        r.Announces noReadAhead range active := by
  obtain ⟨stream, hstream, hurl⟩ : ∃ stream, (plainTitles.buildStreams twoUploads oneIndexer
      "movie" "tt1" "http://addon" fun _ => "t")[0]? = some stream ∧
      stream.url = "http://addon" ++ "/v/" ++ "t.mkv" := by
    rw [StreamEnv.buildStreams, film_offered]
    exact ⟨_, rfl, rfl⟩
  have hact : (plainTitles.registrations twoUploads oneIndexer "movie" "tt1" fun _ => "t")[0]? =
      some (.registerGroup "t" (plainTitles.candidates [filmHit, secondHit]) : VideosAct Nat) := by
    rw [StreamEnv.registrations, film_offered]
    rfl
  have hs : (Videos.init : Videos Nat).step noReadAhead
      (.registerGroup "t" (plainTitles.candidates [filmHit, secondHit])) =
        some filmRegistered := rfl
  obtain ⟨u, hu, hp⟩ := exists_of_exec_free (Videos.step noReadAhead) filmRegistered
    [.get 0 "t.mkv" none, .readPool 0 true, .enter 0, .probe 0 fullDisk, .probe 0 (onePost 10 4),
      .respond 0]
    (fun s => (s.routes 0).answers 200 && (s.sessions "t").any fun session =>
      session.active.value.any fun active => active.candidateIdx = 1) rfl
  simp only [Bool.and_eq_true, Option.any_eq_true, decide_eq_true_eq] at hp
  obtain ⟨hi, session, hsession, active, hactive, hidx⟩ := hp
  obtain ⟨range, r, hi, hr⟩ := Route.responded_of_answers hi
  obtain ⟨group, hgroup, -, hplays⟩ := offered_streamed (.refl _) hstream hact hs hurl
  rw [film_offered] at hgroup
  cases hgroup
  obtain ⟨session', active', item, hsession', hcands, hcommits, hactive', hitem, hpasses, hvalid,
    hann⟩ := hplays u 0 range r hu hi (by rw [hr]; decide)
  cases hsession.symm.trans hsession'
  cases hactive.symm.trans hactive'
  rw [hidx] at hitem
  cases hitem
  exact ⟨stream, u, range, r, hstream, hurl, hu, hi, hr, session, active, hsession, hcands,
    hcommits, hactive, hidx, hpasses, hvalid, hann⟩

end

end StremioNzb.Addon

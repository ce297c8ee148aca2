import StremioNzb.Addon.Candidates
import StremioNzb.Addon.Config
import StremioNzb.Lib.Collect
import StremioNzb.Lib.Text

/-!
# Normalising the configuration

`normalize` of `config.rs`: values are trimmed, rows without content dropped, languages mapped to
their names and listed once, and the users collected again under their trimmed names. The map of
the users iterates in any order (`NormalizesTo`), so of two users whose names differ in whitespace
the one that comes last stays and the other is lost with its key (`bob_is_lost`).
-/

namespace StremioNzb.Addon

open StremioNzb.Lib

/-! ## The code -/

/-- The strings with content that are not in `seen`, each where it first stands. -/
def firstSeen : List String → List String → List String
  | _, [] => []
  | seen, s :: rest =>
    if s.isEmpty || s ∈ seen then firstSeen seen rest else s :: firstSeen (s :: seen) rest

def UserConfig.normalize (c : UserConfig) : UserConfig :=
  { c with
    key := trim c.key
    indexers := (c.indexers.map fun ix => ⟨trim ix.url, trim ix.apiKey⟩).filter fun ix =>
      !ix.url.isEmpty && !ix.apiKey.isEmpty
    nntpServers := (c.nntpServers.map fun s => ⟨trim s.server⟩).filter fun s => !s.server.isEmpty
    excludeRegex := (c.excludeRegex.map trim).filter (· ≠ "")
    preferredLanguages := firstSeen [] (c.preferredLanguages.map normalizeLanguage) }

/-- A user under the trimmed name, dropped where nothing is left of the name. -/
def trimName : String × UserConfig → Option (String × UserConfig)
  | (name, user) => if (trim name).isEmpty then none else some (trim name, user)

def AddonConfig.normalize (cfg : AddonConfig) : AddonConfig :=
  let users := cfg.users.entries.map fun (name, user) => (name, user.normalize)
  { cfg with
    defaults := cfg.defaults.normalize
    users := ⟨collect (users.filterMap trimName), nodup_collect _⟩ }

/-- One configuration, its users iterated in another order. -/
structure AddonConfig.Same (c c' : AddonConfig) : Prop where
  requireAuth : c.requireAuth = c'.requireAuth
  defaults : c.defaults = c'.defaults
  users : c.users.entries.Perm c'.users.entries

/-- What `normalize` makes of a configuration, in whatever orders the maps iterate. -/
def AddonConfig.NormalizesTo (c c' : AddonConfig) : Prop :=
  ∃ iterated, c.Same iterated ∧ iterated.normalize.Same c'

/-! ## Strings -/

theorem trim_eq (s : String) : trim s = String.ofList (trimBy isWhiteSpace s.toList) := rfl

@[simp] theorem trim_trim (s : String) : trim (trim s) = trim s := by
  rw [trim_eq, trim_eq, String.toList_ofList, trimBy_trimBy]

theorem isWhiteSpace_toLower (c : Char) : isWhiteSpace c.toLower = isWhiteSpace c := by
  rcases toLower_cases c with ⟨heq, -⟩ | ⟨hlo, hhi, hsum⟩
  · rw [heq]
  · have hno : ∀ n, 65 ≤ n → n ≤ 122 → ∀ d : Char, d.toNat = n → isWhiteSpace d = false := by
      intro n hlo hhi d hd
      simp [isWhiteSpace, hd]
      omega
    rw [hno _ hlo (by omega) c rfl, hno _ (by omega) (by omega) c.toLower hsum]

theorem toLower_toLower_string (s : String) : s.toLower.toLower = s.toLower := by
  refine String.toList_inj.mp ?_
  simp only [toList_toLower, List.map_map, Function.comp_def, toLower_toLower]

theorem trim_toLower (s : String) : trim s.toLower = (trim s).toLower := by
  refine String.toList_inj.mp ?_
  rw [trim_eq, trim_eq, String.toList_ofList, toList_toLower, toList_toLower, String.toList_ofList,
    trimBy_map isWhiteSpace_toLower]

/-- A language that is no alias stands for itself. -/
theorem normalizeLanguage_of_find {s : String} (htrim : trim s = s) (hlower : s.toLower = s)
    (hfind : languageAliases.find? (fun p => s = p.1) = none) : normalizeLanguage s = s := by
  unfold normalizeLanguage
  rw [htrim, hlower]
  simp only [hfind]

@[simp] theorem normalizeLanguage_normalizeLanguage (s : String) :
    normalizeLanguage (normalizeLanguage s) = normalizeLanguage s := by
  have hnames : ∀ p ∈ languageAliases, normalizeLanguage p.2 = p.2 := by decide +kernel
  cases hfind : languageAliases.find? fun p => (trim s).toLower = p.1 with
  | some p =>
    have heq : normalizeLanguage s = p.2 := by
      unfold normalizeLanguage
      simp only [hfind]
    rw [heq]
    exact hnames p (List.mem_of_find?_eq_some hfind)
  | none =>
    have heq : normalizeLanguage s = (trim s).toLower := by
      unfold normalizeLanguage
      simp only [hfind]
    rw [heq]
    refine normalizeLanguage_of_find ?_ (toLower_toLower_string _) hfind
    rw [trim_toLower, trim_trim]

/-! ## One user -/

theorem mem_firstSeen {x : String} {seen xs : List String} :
    x ∈ firstSeen seen xs ↔ x ∈ xs ∧ x ≠ "" ∧ x ∉ seen := by
  induction xs generalizing seen with
  | nil => simp [firstSeen]
  | cons s rest ih =>
    unfold firstSeen
    split
    · rename_i h
      rw [ih, List.mem_cons]
      rw [Bool.or_eq_true, String.isEmpty_iff, decide_eq_true_eq] at h
      grind
    · rename_i h
      rw [List.mem_cons, ih, List.mem_cons, List.mem_cons]
      rw [Bool.or_eq_true, String.isEmpty_iff, decide_eq_true_eq] at h
      grind

theorem nodup_firstSeen (seen xs : List String) : (firstSeen seen xs).Nodup := by
  induction xs generalizing seen with
  | nil => exact List.nodup_nil
  | cons s rest ih =>
    unfold firstSeen
    split
    · exact ih seen
    · refine List.nodup_cons.mpr ⟨fun hmem => ?_, ih _⟩
      exact (mem_firstSeen.mp hmem).2.2 List.mem_cons_self

/-- Distinct strings with content stay as they are. -/
theorem firstSeen_eq_self {seen xs : List String} (hnd : xs.Nodup)
    (h : ∀ x ∈ xs, x ≠ "" ∧ x ∉ seen) : firstSeen seen xs = xs := by
  induction xs generalizing seen with
  | nil => rfl
  | cons s rest ih =>
    obtain ⟨hnot, hrest⟩ := List.nodup_cons.mp hnd
    obtain ⟨hne, hs⟩ := h s List.mem_cons_self
    unfold firstSeen
    rw [if_neg (by simp [hne, hs])]
    refine congrArg (s :: ·) (ih hrest fun x hx => ⟨(h x (.tail _ hx)).1, ?_⟩)
    rw [List.mem_cons, not_or]
    exact ⟨fun heq => hnot (heq ▸ hx), (h x (.tail _ hx)).2⟩

/-- Rows that were mapped and kept are mapped to themselves and kept. -/
theorem filter_map_idem {α : Type} {f : α → α} {p : α → Bool} (hf : ∀ x, f (f x) = f x)
    (xs : List α) : (((xs.map f).filter p).map f).filter p = (xs.map f).filter p := by
  have hfix : ∀ y ∈ (xs.map f).filter p, f y = y := by
    intro y hy
    obtain ⟨x, -, rfl⟩ := List.mem_map.mp (List.mem_filter.mp hy).1
    exact hf x
  rw [(List.map_congr_left hfix).trans (List.map_id' _), List.filter_filter]
  simp only [Bool.and_self]

attribute [ext] UserConfig

namespace UserConfig

theorem nodup_normalize_languages (c : UserConfig) : c.normalize.preferredLanguages.Nodup :=
  nodup_firstSeen [] _

theorem normalize_languages_ne_empty (c : UserConfig) : "" ∉ c.normalize.preferredLanguages :=
  fun h => (mem_firstSeen.mp h).2.1 rfl

theorem normalize_normalize (c : UserConfig) : c.normalize.normalize = c.normalize := by
  have hindexers : c.normalize.normalize.indexers = c.normalize.indexers :=
    filter_map_idem (fun ix => by simp only [trim_trim]) c.indexers
  have hservers : c.normalize.normalize.nntpServers = c.normalize.nntpServers :=
    filter_map_idem (fun s => by simp only [trim_trim]) c.nntpServers
  have hregex : c.normalize.normalize.excludeRegex = c.normalize.excludeRegex := by
    show ((((c.excludeRegex.map trim).filter _).map trim).filter _) =
      (c.excludeRegex.map trim).filter _
    cases c.excludeRegex with
    | none => rfl
    | some r => by_cases hr : trim r = "" <;> simp [Option.filter, hr]
  have hlanguages : c.normalize.normalize.preferredLanguages = c.normalize.preferredLanguages := by
    have hfix : ∀ s ∈ c.normalize.preferredLanguages, normalizeLanguage s = s := by
      intro s hs
      obtain ⟨x, -, rfl⟩ := List.mem_map.mp (mem_firstSeen.mp hs).1
      exact normalizeLanguage_normalizeLanguage x
    show firstSeen [] (c.normalize.preferredLanguages.map normalizeLanguage) = _
    rw [(List.map_congr_left hfix).trans (List.map_id' _)]
    refine firstSeen_eq_self c.nodup_normalize_languages fun s hs => ⟨?_, List.not_mem_nil⟩
    exact fun he => c.normalize_languages_ne_empty (he ▸ hs)
  exact UserConfig.ext (trim_trim _) hindexers hservers rfl rfl hregex rfl rfl rfl hlanguages

end UserConfig

/-! ## All users -/

namespace AddonConfig

theorem Same.refl (c : AddonConfig) : c.Same c := ⟨rfl, rfl, .refl _⟩

theorem Same.get {c c' : AddonConfig} (h : c.Same c') (name : String) :
    c.users.get name = c'.users.get name :=
  lookup_perm h.users c.users.nodup

variable {c c' c'' : AddonConfig} {name : String} {user : UserConfig}

theorem get_eq_some : c.users.get name = some user ↔ (name, user) ∈ c.users.entries :=
  (mem_iff_lookup c.users.nodup).symm

/-- The pairs that are collected. -/
def named (c : AddonConfig) : List (String × UserConfig) :=
  (c.users.entries.map fun (name, user) => (name, user.normalize)).filterMap trimName

theorem mem_named : (name, user) ∈ c.named ↔ name ≠ "" ∧
    ∃ n u, c.users.get n = some u ∧ trim n = name ∧ u.normalize = user := by
  simp only [named, List.mem_filterMap, List.mem_map, get_eq_some, trimName]
  constructor
  · rintro ⟨-, ⟨⟨n, u⟩, hmem, rfl⟩, h⟩
    simp only at h
    split at h
    · cases h
    · rename_i hne
      cases h
      exact ⟨by simpa using hne, n, u, hmem, rfl, rfl⟩
  · rintro ⟨hne, n, u, hmem, rfl, rfl⟩
    refine ⟨(n, u.normalize), ⟨(n, u), hmem, rfl⟩, ?_⟩
    simp only
    rw [if_neg (by simpa using hne)]

theorem get_normalize (c : AddonConfig) (name : String) :
    c.normalize.users.get name = (collect c.named).lookup name := rfl

/-- A user of the result is one that was given, under its trimmed name. -/
theorem get_of_normalizesTo (h : c.NormalizesTo c') (hg : c'.users.get name = some user) :
    name ≠ "" ∧ ∃ n u, c.users.get n = some u ∧ trim n = name ∧ u.normalize = user := by
  obtain ⟨d, hsame, hd⟩ := h
  rw [← hd.get, get_normalize] at hg
  obtain ⟨hne, n, u, hu, hrest⟩ := mem_named.mp (mem_of_lookup_collect hg)
  exact ⟨hne, n, u, (hsame.get n).trans hu, hrest⟩

/-- Whoever has a name with content leaves someone under the trimmed name. -/
theorem get_isSome_of_normalizesTo (h : c.NormalizesTo c') (hg : c.users.get name = some user)
    (hne : trim name ≠ "") : (c'.users.get (trim name)).isSome := by
  obtain ⟨d, hsame, hd⟩ := h
  rw [← hd.get, get_normalize]
  exact lookup_collect_isSome (mem_named.mpr ⟨hne, name, user, (hsame.get name).symm.trans hg,
    rfl, rfl⟩)

/-- **What normalising is for**: doing it again changes nothing, the orders of iteration do not
matter, every user with a name is there with its settings or the addon does not start, and the
languages are distinct. -/
structure NormalizesWell (c : AddonConfig) : Prop where
  idempotent : ∀ c' c'', c.NormalizesTo c' → c'.NormalizesTo c'' → c'.Same c''
  deterministic : ∀ c' c'', c.NormalizesTo c' → c.NormalizesTo c'' → c'.Same c''
  present : ∀ c', c.NormalizesTo c' → c'.validate = .ok () → ∀ name user,
    c.users.get name = some user → trim name ≠ "" →
      c'.users.get (trim name) = some user.normalize
  languages : ∀ c', c.NormalizesTo c' → ∀ user,
    user = c'.defaults ∨ (∃ name, c'.users.get name = some user) →
      user.preferredLanguages.Nodup ∧ "" ∉ user.preferredLanguages

/-- Users whose names differ in the whitespace around them only have the same settings. -/
def NamesApart (c : AddonConfig) : Prop :=
  ∀ n u n' u', c.users.get n = some u → c.users.get n' = some u' → trim n = trim n' →
    trim n ≠ "" → u.normalize = u'.normalize

theorem NormalizesTo.requireAuth (h : c.NormalizesTo c') : c'.requireAuth = c.requireAuth := by
  obtain ⟨d, hsame, hd⟩ := h
  exact hd.requireAuth.symm.trans hsame.requireAuth.symm

theorem NormalizesTo.defaults (h : c.NormalizesTo c') : c'.defaults = c.defaults.normalize := by
  obtain ⟨d, hsame, hd⟩ := h
  rw [← hd.defaults, hsame.defaults]
  rfl

/-- Without clashes the result is the given users under their trimmed names. -/
theorem NamesApart.get (hc : c.NamesApart) (h : c.NormalizesTo c') :
    c'.users.get name = some user ↔ name ≠ "" ∧
      ∃ n u, c.users.get n = some u ∧ trim n = name ∧ u.normalize = user := by
  refine ⟨get_of_normalizesTo h, fun ⟨hne, n, u, hu, hn, huser⟩ => ?_⟩
  subst hn huser
  obtain ⟨w, hw⟩ := Option.isSome_iff_exists.mp (get_isSome_of_normalizesTo h hu hne)
  obtain ⟨-, n', u', hu', hn', rfl⟩ := get_of_normalizesTo h hw
  rw [hw, hc n' u' n u hu' hu hn' (hn' ▸ hne)]

theorem same_of_get (hauth : c.requireAuth = c'.requireAuth) (hdef : c.defaults = c'.defaults)
    (h : ∀ name user, c.users.get name = some user ↔ c'.users.get name = some user) :
    c.Same c' :=
  ⟨hauth, hdef, perm_of_lookup c.users.nodup c'.users.nodup fun name => Option.ext (h name)⟩

/-- In a result the names are trimmed, and the settings normalised. -/
theorem NormalizesTo.fixed (h : c.NormalizesTo c') (hg : c'.users.get name = some user) :
    name ≠ "" ∧ trim name = name ∧ user.normalize = user := by
  obtain ⟨hne, n, u, -, rfl, rfl⟩ := get_of_normalizesTo h hg
  exact ⟨hne, trim_trim n, u.normalize_normalize⟩

theorem NormalizesTo.namesApart (h : c.NormalizesTo c') : c'.NamesApart := by
  intro n u n' u' hu hu' hn _
  rw [(h.fixed hu).2.1, (h.fixed hu').2.1] at hn
  subst hn
  rw [Option.some.inj (hu.symm.trans hu')]

theorem NormalizesTo.idempotent (h : c.NormalizesTo c') (h' : c'.NormalizesTo c'') :
    c'.Same c'' := by
  refine same_of_get h'.requireAuth.symm ?_ fun name user => ?_
  · rw [h'.defaults, h.defaults, UserConfig.normalize_normalize]
  · rw [h.namesApart.get h']
    refine ⟨fun hg => ?_, fun ⟨_, n, u, hu, hn, huser⟩ => ?_⟩
    · obtain ⟨hne, htrim, hnorm⟩ := h.fixed hg
      exact ⟨hne, name, user, hg, htrim, hnorm⟩
    · obtain ⟨-, htrim, hnorm⟩ := h.fixed hu
      rw [← hn, ← huser, htrim, hnorm]
      exact hu

theorem NormalizesTo.languages (h : c.NormalizesTo c')
    (hu : user = c'.defaults ∨ ∃ name, c'.users.get name = some user) :
    user.preferredLanguages.Nodup ∧ "" ∉ user.preferredLanguages := by
  have hnorm : user.normalize = user := by
    rcases hu with rfl | ⟨name, hg⟩
    · rw [h.defaults, UserConfig.normalize_normalize]
    · exact (h.fixed hg).2.2
  rw [← hnorm]
  exact ⟨user.nodup_normalize_languages, user.normalize_languages_ne_empty⟩

/-- Whoever is iterated last stays. -/
theorem exists_stays (hu : c.users.get name = some user) (hne : trim name ≠ "") :
    ∃ c', c.NormalizesTo c' ∧ c'.users.get (trim name) = some user.normalize := by
  obtain ⟨front, back, heq⟩ := List.append_of_mem (get_eq_some.mp hu)
  have hperm : c.users.entries.Perm (front ++ back ++ [(name, user)]) := by
    rw [heq]
    exact List.perm_middle.trans (List.perm_append_singleton _ _).symm
  let d : AddonConfig :=
    { c with users := ⟨front ++ back ++ [(name, user)], (hperm.map _).nodup_iff.mp c.users.nodup⟩ }
  refine ⟨d.normalize, ⟨d, ⟨rfl, rfl, hperm⟩, Same.refl _⟩, ?_⟩
  have hname : trimName (name, user.normalize) = some (trim name, user.normalize) :=
    if_neg (by simpa using hne)
  have hlast : d.named = ((front ++ back).map fun (name, user) =>
      (name, user.normalize)).filterMap trimName ++ [(trim name, user.normalize)] := by
    show (List.map _ (front ++ back ++ [(name, user)])).filterMap trimName = _
    rw [List.map_append, List.filterMap_append, List.map_singleton, List.filterMap_cons_some hname]
    rfl
  rw [get_normalize, hlast]
  exact lookup_collect_append_singleton _ _ _

/-- **Normalising works if and only if no two users with different settings have one trimmed
name.** -/
theorem normalizesWell_iff : c.NormalizesWell ↔ c.NamesApart := by
  refine ⟨fun h n u n' u' hu hu' hn hne => ?_, fun h => ?_⟩
  · obtain ⟨d, hd, hg⟩ := exists_stays hu hne
    obtain ⟨d', hd', hg'⟩ := exists_stays hu' (hn ▸ hne)
    -- either of the two can be the one that stays
    have heq := (h.deterministic d d' hd hd').get (trim n)
    rw [hg, hn, hg'] at heq
    exact Option.some.inj heq
  · refine ⟨fun _ _ => NormalizesTo.idempotent, fun c' c'' h' h'' => ?_,
      fun c' h' _ name user hg hne => ?_, fun c' h' user => h'.languages⟩
    · refine same_of_get (h'.requireAuth.trans h''.requireAuth.symm)
        (h'.defaults.trans h''.defaults.symm) fun name user => ?_
      rw [h.get h', h.get h'']
    · exact (h.get h').mpr ⟨hne, name, user, hg, rfl, rfl⟩

/-- Two users whose names differ in a blank, with a key each. -/
def twoBobs : AddonConfig where
  defaults := { indexers := [⟨"https://x", "k"⟩], nntpServers := [⟨"nntps://x"⟩] }
  users := ⟨[("bob", { key := "one" }), (" bob", { key := "two" })], by decide⟩

/-- The addon starts without the first one's key. -/
theorem bob_is_lost : ¬ twoBobs.NormalizesWell := by
  intro h
  have hvalid : twoBobs.normalize.validate = .ok () := by decide +kernel
  have hget := h.present _ ⟨twoBobs, .refl _, .refl _⟩ hvalid "bob" { key := "one" } rfl
    (by decide +kernel)
  have hkey := congrArg (Option.map (·.key)) hget
  revert hkey
  decide +kernel

end AddonConfig

end StremioNzb.Addon

import StremioNzb.Addon.Normalize
import StremioNzb.Addon.Sanity
import StremioNzb.Lib.Words

/-!
# Languages

The language of a release and what the user wants to hear: `detect_language` of `util.rs`,
`cinemeta.rs` from the countries of a title to its languages, and `filter_by_language` of
`content_filter.rs` with the preferences that `normalize` leaves and `expand_original` fills in.
-/

namespace StremioNzb.Addon

open StremioNzb.Lib StremioNzb.Streaming

/-! ## The language of a release -/

/-- `PATTERNS`: the words of each expression `(?i)\b(?:…)\b`, and the name it stands for. -/
def languagePatterns : List (List String × String) :=
  [(["multi.sub", "multisub", "multilingual", "multi", "dual"], "multi"),
    (["spanish", "castellano", "latino"], "spanish"),
    (["truefrench", "vff", "french"], "french"),
    (["german", "deutsch"], "german"),
    (["italian"], "italian"),
    (["japanese", "jpn"], "japanese"),
    (["korean"], "korean"),
    (["russian"], "russian"),
    (["portuguese", "portugues"], "portuguese"),
    (["mandarin", "cantonese", "chinese"], "chinese"),
    (["hindi"], "hindi"),
    (["arabic"], "arabic"),
    (["turkish"], "turkish"),
    (["polish"], "polish"),
    (["dutch"], "dutch"),
    (["swedish"], "swedish"),
    (["norwegian"], "norwegian"),
    (["danish"], "danish"),
    (["finnish"], "finnish"),
    (["czech"], "czech"),
    (["slovak"], "slovak"),
    (["hungarian"], "hungarian"),
    (["romanian"], "romanian"),
    (["greek"], "greek"),
    (["ukrainian"], "ukrainian"),
    (["vietnamese"], "vietnamese"),
    (["thai"], "thai"),
    (["indonesian"], "indonesian"),
    (["hebrew"], "hebrew"),
    (["english"], "english")]

/-- A word as a pattern, in either case. -/
def letters (w : String) : List (Char → Bool) := w.toList.map Matcher.sameLetter

/-- One of the words is in the title. -/
def hasWord (cls : CharClasses) (words : List String) (title : String) : Bool :=
  findWord cls.word (words.map letters) none title.toList

def detectLanguage (cls : CharClasses) (title : String) : Option String :=
  (languagePatterns.find? fun p => hasWord cls p.1 title).map (·.2)

def isMultiLanguageTag (s : String) : Bool :=
  ["multi", "multi.sub", "multisub", "dual", "multilingual"].contains s

/-! ## The languages of a title -/

/-- The arms of `country_to_language`. -/
def countryLanguages : List (List String × String) :=
  [(["United States", "United Kingdom", "Canada", "Australia", "New Zealand", "Ireland",
      "South Africa"], "english"),
    (["Spain", "Mexico", "Argentina", "Colombia", "Chile", "Peru", "Venezuela", "Cuba",
      "Uruguay"], "spanish"),
    (["France", "Belgium", "Luxembourg", "Senegal", "Ivory Coast"], "french"),
    (["Germany", "Austria", "Switzerland"], "german"),
    (["Italy"], "italian"),
    (["Portugal", "Brazil"], "portuguese"),
    (["Russia"], "russian"),
    (["China", "Hong Kong", "Taiwan", "Singapore"], "chinese"),
    (["Japan"], "japanese"),
    (["South Korea", "North Korea"], "korean"),
    (["Netherlands"], "dutch"),
    (["Sweden"], "swedish"),
    (["Norway"], "norwegian"),
    (["Denmark"], "danish"),
    (["Finland"], "finnish"),
    (["Poland"], "polish"),
    (["Czech Republic", "Czechia"], "czech"),
    (["Slovakia"], "slovak"),
    (["Hungary"], "hungarian"),
    (["Romania"], "romanian"),
    (["Greece"], "greek"),
    (["Turkey"], "turkish"),
    (["Israel"], "hebrew"),
    (["India"], "hindi"),
    (["Thailand"], "thai"),
    (["Vietnam"], "vietnamese"),
    (["Indonesia"], "indonesian"),
    (["Ukraine"], "ukrainian"),
    (["Saudi Arabia", "Egypt", "United Arab Emirates", "Morocco", "Tunisia"], "arabic")]

def countryToLanguage (country : String) : Option String :=
  (countryLanguages.find? fun p => p.1.contains country).map (·.2)

/-- `out` with what is not in it yet. -/
def pushNew (out : List String) (x : String) : List String :=
  if out.contains x then out else out ++ [x]

def countriesToLanguages (blob : String) : List String :=
  (blob.toList.splitOn ',').foldl (fun out raw =>
    match countryToLanguage (trim (String.ofList raw)) with
    | some lang => pushNew out (normalizeLanguage lang)
    | none => out) []

/-! ## Preferences -/

def wantsOriginal (preferred : List String) : Bool :=
  preferred.any fun s => s.toLower = "original"

def expandOriginal (preferred originals : List String) : List String :=
  preferred.foldl (fun out entry =>
    if entry.toLower = "original" then originals.foldl pushNew out else pushNew out entry) []

/-- What `original_languages` returns; `country` is `none` where it finds no such field. -/
def originalLanguages (country : Option String) : List String :=
  (country.map countriesToLanguages).getD []

/-- `effective_languages` of `build_streams`. -/
def effectiveLanguages (preferred originals : List String) : List String :=
  if wantsOriginal preferred then expandOriginal preferred originals else preferred

/-- Whether the filter keeps a title. -/
def keepsLanguage (tp : TitleParser) (preferred : List String) (title : String) : Bool :=
  match (tp.parse title).language with
  | none => true
  | some raw => isMultiLanguageTag (normalizeLanguage raw) ||
    preferred.any (· = normalizeLanguage raw)

def filterByLanguage (tp : TitleParser) (items : List Hit) (preferred : List String) : List Hit :=
  if preferred.isEmpty then items
  else items.filter fun item => keepsLanguage tp preferred item.title

/-! ## What stands in a title -/

section
variable {cls : CharClasses} {title name s : String}

/-- The word stands in the title on its own, in either case. -/
def Says (cls : CharClasses) (title w : String) : Prop :=
  StandsIn cls.word (letters w) title.toList

/-- The first row of the table with a word in the title has that name. -/
def Tagged (cls : CharClasses) (title name : String) : Prop :=
  ∃ earlier words later, languagePatterns = earlier ++ (words, name) :: later ∧
    (∃ w ∈ words, Says cls title w) ∧ ∀ p ∈ earlier, ∀ w ∈ p.1, ¬ Says cls title w

theorem hasWord_iff {words : List String} :
    hasWord cls words title ↔ ∃ w ∈ words, Says cls title w := by
  simp only [hasWord, findWord_iff, List.mem_map, Says]
  grind

theorem detectLanguage_eq_some : detectLanguage cls title = some name ↔ Tagged cls title name := by
  unfold detectLanguage Tagged
  simp only [Option.map_eq_some_iff, List.find?_eq_some_iff_append, hasWord_iff, Bool.not_eq_true']
  refine ⟨?_, ?_⟩
  · rintro ⟨⟨words, name⟩, ⟨hstands, earlier, later, htable, hno⟩, rfl⟩
    refine ⟨earlier, words, later, htable, hstands, fun p hp w hw h => ?_⟩
    have := hno p hp
    rw [hasWord_iff.mpr ⟨w, hw, h⟩] at this
    cases this
  · rintro ⟨earlier, words, later, htable, hstands, hno⟩
    refine ⟨(words, name), ⟨hstands, earlier, later, htable, fun p hp => ?_⟩, rfl⟩
    rw [← Bool.not_eq_true, hasWord_iff]
    rintro ⟨w, hw, h⟩
    exact hno p hp w hw h

/-- The names of the table are what `normalize_language` leaves as it is, and only the first is a
tag of a pack. -/
theorem languagePatterns_names : ∀ p ∈ languagePatterns, normalizeLanguage p.2 = p.2 ∧
    (isMultiLanguageTag p.2 ↔ p.2 = "multi") := by
  decide +kernel

theorem Tagged.canonical (h : Tagged cls title name) : normalizeLanguage name = name ∧
    (isMultiLanguageTag name ↔ name = "multi") := by
  obtain ⟨earlier, words, later, htable, -⟩ := h
  exact languagePatterns_names (words, name) (by rw [htable]; simp)

/-! ## What the user wants to hear -/

@[simp] theorem toLower_normalizeLanguage (s : String) :
    (normalizeLanguage s).toLower = normalizeLanguage s := by
  have hnames : ∀ p ∈ languageAliases, p.2.toLower = p.2 := by decide +kernel
  unfold normalizeLanguage
  simp only
  split
  · next hfind => exact hnames _ (List.mem_of_find?_eq_some hfind)
  · exact toLower_toLower_string _

theorem mem_pushNew {out : List String} {x : String} : s ∈ pushNew out x ↔ s ∈ out ∨ s = x := by
  unfold pushNew
  split
  · rename_i h
    rw [List.contains_iff_mem] at h
    exact ⟨.inl, fun hs => hs.elim id fun heq => heq ▸ h⟩
  · simp

theorem mem_foldl_pushNew {xs out : List String} : s ∈ xs.foldl pushNew out ↔ s ∈ out ∨ s ∈ xs := by
  induction xs generalizing out with
  | nil => simp
  | cons x xs ih =>
    rw [List.foldl_cons, ih, mem_pushNew, List.mem_cons]
    tauto

theorem mem_expandOriginal {preferred originals : List String} :
    s ∈ expandOriginal preferred originals ↔ ∃ entry ∈ preferred,
      if entry.toLower = "original" then s ∈ originals else s = entry := by
  have hfrom : ∀ out, s ∈ preferred.foldl (fun out entry =>
      if entry.toLower = "original" then originals.foldl pushNew out else pushNew out entry) out ↔
      s ∈ out ∨ ∃ entry ∈ preferred,
        if entry.toLower = "original" then s ∈ originals else s = entry := by
    induction preferred with
    | nil => simp
    | cons x preferred ih =>
      intro out
      rw [List.foldl_cons, ih]
      by_cases hx : x.toLower = "original"
      · simp only [if_pos hx, mem_foldl_pushNew, List.exists_mem_cons_iff, or_assoc]
      · simp only [if_neg hx, mem_pushNew, List.exists_mem_cons_iff, or_assoc]
  unfold expandOriginal
  rw [hfrom]
  simp

theorem countryLanguages_names : ∀ p ∈ countryLanguages, normalizeLanguage p.2 = p.2 := by
  decide +kernel

theorem normalizeLanguage_of_country {country : String} (h : countryToLanguage country = some s) :
    normalizeLanguage s = s := by
  obtain ⟨p, hp, rfl⟩ := Option.map_eq_some_iff.mp h
  exact countryLanguages_names p (List.mem_of_find?_eq_some hp)

/-- The countries of a blob. -/
def countries (blob : String) : List String := (blob.toList.splitOn ',').map fun raw =>
  trim (String.ofList raw)

theorem mem_countriesToLanguages {blob : String} : s ∈ countriesToLanguages blob ↔
    ∃ country ∈ countries blob, countryToLanguage country = some s := by
  have hfrom : ∀ (raws : List (List Char)) (out : List String), s ∈ raws.foldl (fun out raw =>
      match countryToLanguage (trim (String.ofList raw)) with
      | some lang => pushNew out (normalizeLanguage lang)
      | none => out) out ↔
      s ∈ out ∨ ∃ raw ∈ raws, countryToLanguage (trim (String.ofList raw)) = some s := by
    intro raws
    induction raws with
    | nil => simp
    | cons raw raws ih =>
      intro out
      rw [List.foldl_cons, ih, List.exists_mem_cons_iff]
      cases hc : countryToLanguage (trim (String.ofList raw)) with
      | none => simp
      | some lang =>
        simp only [mem_pushNew, normalizeLanguage_of_country hc, Option.some.injEq, or_assoc,
          eq_comm (a := lang)]
  unfold countriesToLanguages countries
  rw [hfrom]
  simp

theorem mem_originalLanguages {country : Option String} : s ∈ originalLanguages country ↔
    ∃ blob ∈ country, ∃ one ∈ countries blob, countryToLanguage one = some s := by
  cases country <;> simp [originalLanguages, mem_countriesToLanguages]

/-- The languages the user wants to hear of a title with that `country` field: what is listed, and
the title's own ones where `original` is. -/
def UserConfig.Wants (c : UserConfig) (country : Option String) (name : String) : Prop :=
  ∃ listed ∈ c.preferredLanguages, normalizeLanguage listed ≠ "" ∧
    if normalizeLanguage listed = "original" then
      ∃ blob ∈ country, ∃ one ∈ countries blob, countryToLanguage one = some name
    else name = normalizeLanguage listed

theorem mem_effectiveLanguages {c : UserConfig} {country : Option String} :
    name ∈ effectiveLanguages c.normalize.preferredLanguages (originalLanguages country) ↔
      c.Wants country name := by
  have hmem : ∀ entry, entry ∈ c.normalize.preferredLanguages ↔
      ∃ listed ∈ c.preferredLanguages, normalizeLanguage listed ≠ "" ∧
        entry = normalizeLanguage listed := by
    intro entry
    refine mem_firstSeen.trans ?_
    simp only [List.mem_map]
    grind
  have hlower : ∀ entry ∈ c.normalize.preferredLanguages, entry.toLower = entry := by
    intro entry h
    obtain ⟨listed, -, -, rfl⟩ := (hmem entry).mp h
    exact toLower_normalizeLanguage listed
  have hiff : name ∈ effectiveLanguages c.normalize.preferredLanguages (originalLanguages country) ↔
      ∃ entry ∈ c.normalize.preferredLanguages,
        if entry = "original" then name ∈ originalLanguages country else name = entry := by
    unfold effectiveLanguages
    split
    · rw [mem_expandOriginal]
      exact exists_congr fun entry => and_congr_right fun h => by rw [hlower entry h]
    · rename_i hno
      rw [wantsOriginal, List.any_eq_true] at hno
      -- no entry is the sentinel
      refine ⟨fun h => ⟨name, h, ?_⟩, ?_⟩
      · rw [if_neg]
        rintro rfl
        exact hno ⟨"original", h, decide_eq_true (hlower "original" h)⟩
      · rintro ⟨entry, h, hname⟩
        rw [if_neg] at hname
        · exact hname ▸ h
        · rintro rfl
          exact hno ⟨"original", h, decide_eq_true (hlower "original" h)⟩
  rw [hiff]
  unfold UserConfig.Wants
  simp only [hmem, mem_originalLanguages]
  grind

/-! ## The filter -/

/-- The parser of titles with the addon's own detector. -/
def titleParser (cls : CharClasses) (metadata : String → Option Metadata) : TitleParser :=
  ⟨metadata, detectLanguage cls⟩

theorem parse_language (cls : CharClasses) (metadata : String → Option Metadata) (title : String) :
    ((titleParser cls metadata).parse title).language = detectLanguage cls title := by
  unfold TitleParser.parse
  split <;> rfl

theorem keepsLanguage_iff {metadata : String → Option Metadata} {preferred : List String} :
    keepsLanguage (titleParser cls metadata) preferred title ↔
      ∀ name, Tagged cls title name → name = "multi" ∨ name ∈ preferred := by
  unfold keepsLanguage
  rw [parse_language]
  cases hd : detectLanguage cls title with
  | none =>
    simp only [true_iff]
    intro name h
    rw [← detectLanguage_eq_some, hd] at h
    cases h
  | some raw =>
    obtain ⟨hcanon, hmulti⟩ := (detectLanguage_eq_some.mp hd).canonical
    simp only [hcanon, Bool.or_eq_true, hmulti, List.any_eq_true, decide_eq_true_eq,
      exists_eq_right]
    simp only [← detectLanguage_eq_some, hd, Option.some.injEq, forall_eq']

/-- **The language filter keeps what the user can listen to**: with what `normalize` makes of the
preferences and what is known of the country, it drops a hit only where there is a preference
and the title is tagged with one language that is not among those wanted. -/
theorem languages_kept (cls : CharClasses) (metadata : String → Option Metadata) (c : UserConfig)
    (country : Option String) (items : List Hit) :
    ∃ keep : String → Bool,
      filterByLanguage (titleParser cls metadata) items
        (effectiveLanguages c.normalize.preferredLanguages (originalLanguages country)) =
        items.filter (fun item => keep item.title) ∧
      ∀ title, keep title ↔ (∀ name, ¬ c.Wants country name) ∨
        ∀ name, Tagged cls title name → name = "multi" ∨ c.Wants country name := by
  generalize hp : effectiveLanguages c.normalize.preferredLanguages
    (originalLanguages country) = preferred
  have hwants : ∀ name, name ∈ preferred ↔ c.Wants country name := by
    intro name
    rw [← hp]
    exact mem_effectiveLanguages
  refine ⟨fun title => preferred.isEmpty ||
    keepsLanguage (titleParser cls metadata) preferred title, ?_, fun title => ?_⟩
  · unfold filterByLanguage
    split
    · rename_i h
      simp [h]
    · rename_i h
      simp [h]
  · rw [Bool.or_eq_true, keepsLanguage_iff, List.isEmpty_iff, List.eq_nil_iff_forall_not_mem]
    simp only [hwants]

end

end StremioNzb.Addon

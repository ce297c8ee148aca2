import Mathlib.Data.List.Infix
import StremioNzb.Addon.BuildStreams
import StremioNzb.Lib.Memo

/-!
# Lookups at TVDB and Cinemeta

`imdb_to_tvdb` of `tvdb.rs` and `original_languages` of `cinemeta.rs`, with the caches that all
searches of the process share. Whatever lookups go on at the same time, a search is told what
TVDB and Cinemeta answered about its own title (`lookups_right`).
-/

namespace StremioNzb.Addon

open StremioNzb.Lib StremioNzb.Streaming

/-! ## The expressions -/

/-- `SERIESID_RE` at the start of a text. -/
def seriesIdAt (cls : CharClasses) (cs : List Char) : Option String :=
  (cs.dropPrefix? "<seriesid>".toList).bind fun cs =>
    let digits := cs.takeWhile cls.digit
    if digits.isEmpty || !"</seriesid>".toList.isPrefixOf (cs.drop digits.length) then none
    else some (String.ofList digits)

/-- `COUNTRY_RE` at the start of a text. -/
def countryAt (cs : List Char) : Option String :=
  (cs.dropPrefix? "\"country\"".toList).bind fun cs =>
    ((cs.dropWhile isWhiteSpace).dropPrefix? [':']).bind fun cs =>
      ((cs.dropWhile isWhiteSpace).dropPrefix? ['\"']).bind fun cs =>
        (splitOnce '\"' cs).bind fun p => if p.1.isEmpty then none else some (String.ofList p.1)

def seriesIdIn (cls : CharClasses) (body : String) : Option String :=
  firstMatch (seriesIdAt cls) body.toList

def countryBlob (body : String) : Option String := firstMatch countryAt body.toList

/-! ## The lookups -/

/-- The body, `none` where the request fails or the body cannot be read. -/
abbrev Reply := Option String

/-- `imdb_to_tvdb` -/
def tvdbLookup (cls : CharClasses) : Memo String String Reply (Option String) where
  key imdbId := imdbId
  asks _ := true
  unasked := none
  read reply := reply.bind (seriesIdIn cls)
  keeps reply := (reply.bind (seriesIdIn cls)).isSome

/-- `original_languages` of a type and an IMDb id. -/
def cinemetaLookup : Memo (String × String) String Reply (List String) where
  key title := title.1 ++ ":" ++ title.2
  asks title := title.1 = "movie" || title.1 = "series"
  unasked := []
  read reply := originalLanguages (reply.bind countryBlob)
  keeps reply := reply.isSome

structure TitleLookups where
  tvdb : Lookups String String Reply (Option String)
  cinemeta : Lookups (String × String) String Reply (List String)

def TitleLookups.init : TitleLookups := ⟨.init, .init⟩

inductive TitleAct where
  | tvdb (a : LookupAct String Reply)
  | cinemeta (a : LookupAct (String × String) Reply)

def titleStep (cls : CharClasses) (s : TitleLookups) : TitleAct → Option TitleLookups
  | .tvdb a => ((tvdbLookup cls).step s.tvdb a).map fun t => { s with tvdb := t }
  | .cinemeta a => (cinemetaLookup.step s.cinemeta a).map fun t => { s with cinemeta := t }

/-! ## What the expressions find -/

/-- A series id stands at the start of the text. -/
def SeriesIdHere (cls : CharClasses) (cs : List Char) (tvdb : String) : Prop :=
  tvdb.toList ≠ [] ∧ (∀ c ∈ tvdb.toList, cls.digit c) ∧
    ∃ post, cs = "<seriesid>".toList ++ (tvdb.toList ++ ("</seriesid>".toList ++ post))

/-- The field `country`, with this value, stands at the start of the text. -/
def CountryHere (cs : List Char) (value : String) : Prop :=
  value.toList ≠ [] ∧ '\"' ∉ value.toList ∧ ∃ ws ws' post, (∀ c ∈ ws, isWhiteSpace c) ∧
    (∀ c ∈ ws', isWhiteSpace c) ∧
    cs = "\"country\"".toList ++ (ws ++ ':' :: (ws' ++ '\"' :: (value.toList ++ '\"' :: post)))

/-- `firstMatch` is the leftmost match of what `matchAt` captures. -/
theorem firstMatch_eq_some {α : Type} {matchAt : List Char → Option α} {P : List Char → α → Prop}
    (h : ∀ cs a, matchAt cs = some a ↔ P cs a) {cs : List Char} {a : α} :
    firstMatch matchAt cs = some a ↔ Leftmost P cs a := by
  induction cs with
  | nil => rw [firstMatch, h, leftmost_nil]
  | cons c cs ih =>
    rw [firstMatch]
    cases hc : matchAt (c :: cs) with
    | none =>
      have hnone : ∀ a', ¬ P (c :: cs) a' := fun a' ha' => by
        rw [(h _ _).mpr ha'] at hc
        cases hc
      rw [Option.none_or, ih, leftmost_cons hnone]
    | some a₀ => rw [Option.some_or, ← hc, h, leftmost_of_here ((h _ _).mp hc)]

variable {cls : CharClasses} {cs ws rest : List Char} {value : String} {c : Char}

/-- A run of `p` is skipped up to a character that is not of it. -/
theorem dropWhile_dropPrefix {p : Char → Bool} (hc : p c = false) :
    (cs.dropWhile p).dropPrefix? [c] = some rest ↔
      ∃ ws, (∀ x ∈ ws, p x) ∧ cs = ws ++ c :: rest := by
  rw [dropPrefix_eq_some, List.singleton_append]
  refine ⟨fun h => ⟨cs.takeWhile p, fun x hx => List.mem_takeWhile_imp hx, ?_⟩, ?_⟩
  · rw [← h, List.takeWhile_append_dropWhile]
  · rintro ⟨ws, hws, rfl⟩
    rw [List.dropWhile_append_of_pos hws, List.dropWhile_cons_of_neg (by simp [hc])]

theorem countryAt_eq_some : countryAt cs = some value ↔ CountryHere cs value := by
  simp only [countryAt, Option.bind_eq_some_iff, dropPrefix_eq_some,
    dropWhile_dropPrefix (c := ':') (p := isWhiteSpace) (by decide),
    dropWhile_dropPrefix (c := '\"') (p := isWhiteSpace) (by decide)]
  refine ⟨?_, ?_⟩
  · rintro ⟨_, rfl, _, ⟨ws, hws, rfl⟩, rest, ⟨ws', hws', rfl⟩, p, hp, hvalue⟩
    have hrest : rest = p.1 ++ '\"' :: p.2 := splitOnce_eq_some hp
    split at hvalue
    · cases hvalue
    · next hne =>
      cases hvalue
      rw [CountryHere, String.toList_ofList, hrest]
      exact ⟨by simpa using hne, not_mem_of_splitOnce hp, ws, ws', p.2, hws, hws', rfl⟩
  · rintro ⟨hne, hquote, ws, ws', post, hws, hws', rfl⟩
    refine ⟨_, rfl, _, ⟨ws, hws, rfl⟩, _, ⟨ws', hws', rfl⟩, _, splitOnce_append hquote _, ?_⟩
    rw [if_neg (by simpa using hne), String.ofList_toList]

theorem seriesIdAt_eq_some (hlt : cls.digit '<' = false) :
    seriesIdAt cls cs = some value ↔ SeriesIdHere cls cs value := by
  simp only [seriesIdAt, Option.bind_eq_some_iff, dropPrefix_eq_some]
  refine ⟨?_, ?_⟩
  · rintro ⟨rest, rfl, hvalue⟩
    split at hvalue
    · cases hvalue
    · next hne =>
      cases hvalue
      rw [Bool.or_eq_true, Bool.not_eq_true', not_or, Bool.not_eq_false, List.isPrefixOf_iff_prefix]
        at hne
      obtain ⟨hdigits, post, hpost⟩ := hne
      rw [SeriesIdHere, String.toList_ofList]
      refine ⟨by simpa using hdigits, fun c hc => List.mem_takeWhile_imp hc, post, ?_⟩
      rw [hpost, List.prefix_iff_eq_append.mp (List.takeWhile_prefix _)]
  · rintro ⟨hne, hdigits, post, rfl⟩
    have htake : (value.toList ++ ("</seriesid>".toList ++ post)).takeWhile cls.digit =
        value.toList := by
      rw [List.takeWhile_append_of_pos hdigits]
      simp [hlt]
    refine ⟨_, rfl, ?_⟩
    rw [htake, List.drop_left, if_neg, String.ofList_toList]
    simp [hne]

theorem countryBlob_eq_some {body : String} :
    countryBlob body = some value ↔ Leftmost CountryHere body.toList value :=
  firstMatch_eq_some fun _ _ => countryAt_eq_some

theorem seriesIdIn_eq_some (hlt : cls.digit '<' = false) {body : String} :
    seriesIdIn cls body = some value ↔ Leftmost (SeriesIdHere cls) body.toList value :=
  firstMatch_eq_some fun _ _ => seriesIdAt_eq_some hlt

/-! ## What a search is told -/

/-- The answers of the search are those of lookups that are done. -/
structure Told (s : TitleLookups) (answers : SearchAnswers) (type_ id : String) : Prop where
  tvdb : type_ = "series" → ∃ i, s.tvdb.calls i =
    .done (seriesParts id).1 (answers.imdbToTvdb (seriesParts id).1)
  cinemeta : SearchAnswers.imdbId type_ id ≠ "" → ∃ i, s.cinemeta.calls i =
    .done (type_, SearchAnswers.imdbId type_ id)
      (answers.originalLanguages type_ (SearchAnswers.imdbId type_ id))

/-- TVDB's answer names the series. -/
def NamesSeries (cls : CharClasses) (reply : Reply) (tvdb : String) : Prop :=
  ∃ body, reply = some body ∧ Leftmost (SeriesIdHere cls) body.toList tvdb

/-- Cinemeta's answer names the countries. -/
def NamesCountries (reply : Reply) (value : String) : Prop :=
  ∃ body, reply = some body ∧ Leftmost CountryHere body.toList value

/-- What is searched for, and the languages of the title, are as answered for this title. -/
structure Sourced (cls : CharClasses) (s : TitleLookups) (answers : SearchAnswers)
    (type_ id : String) : Prop where
  series : type_ = "series" → ∃ reply, ((seriesParts id).1, reply) ∈ s.tvdb.answered ∧
    ∀ search, answers.searchFor type_ id = some search ↔ ∃ tvdb, NamesSeries cls reply tvdb ∧
      search = .series tvdb (seriesParts id).2.1 (seriesParts id).2.2
  languages : answers.originals type_ id ≠ [] → ∃ reply value,
    ((type_, SearchAnswers.imdbId type_ id), reply) ∈ s.cinemeta.answered ∧
      NamesCountries reply value ∧ answers.originals type_ id = countriesToLanguages value

/-- What is kept, and for how long: `t` is a later state. -/
structure Keeps (cls : CharClasses) (s t : TitleLookups) : Prop where
  tvdb : ∀ imdb reply tvdb, (imdb, reply) ∈ s.tvdb.answered → NamesSeries cls reply tvdb →
    ∀ i, t.tvdb.calls i = .asking imdb → s.tvdb.calls i = .asking imdb
  cinemeta : ∀ title body, (title, some body) ∈ s.cinemeta.answered →
    ∀ i, t.cinemeta.calls i = .asking title → s.cinemeta.calls i = .asking title
  failed : ∀ imdb, (∀ reply tvdb, (imdb, reply) ∈ s.tvdb.answered → ¬ NamesSeries cls reply tvdb) →
    s.tvdb.kept imdb = none
  unreached : ∀ title, cinemetaLookup.asks title →
    (∀ body, (title, some body) ∉ s.cinemeta.answered) →
    s.cinemeta.kept (cinemetaLookup.key title) = none

variable {ok : TitleLookups → TitleAct → Prop} {acts : List TitleAct} {s t : TitleLookups}

theorem tvdb_of_run (h : Run (titleStep cls) ok s acts t) :
    ∃ as, Run (tvdbLookup cls).step (fun _ _ => True) s.tvdb as t.tvdb := by
  induction h with
  | nil => exact ⟨[], .nil⟩
  | @snoc _ _ _ a _ _ ht ih =>
    obtain ⟨as, ih⟩ := ih
    cases a with
    | tvdb a =>
      obtain ⟨u, hu, rfl⟩ := Option.map_eq_some_iff.mp ht
      exact ⟨a :: as, ih.snoc trivial hu⟩
    | cinemeta a =>
      obtain ⟨u, -, rfl⟩ := Option.map_eq_some_iff.mp ht
      exact ⟨as, ih⟩

theorem cinemeta_of_run (h : Run (titleStep cls) ok s acts t) :
    ∃ as, Run cinemetaLookup.step (fun _ _ => True) s.cinemeta as t.cinemeta := by
  induction h with
  | nil => exact ⟨[], .nil⟩
  | @snoc _ _ _ a _ _ ht ih =>
    obtain ⟨as, ih⟩ := ih
    cases a with
    | tvdb a =>
      obtain ⟨u, -, rfl⟩ := Option.map_eq_some_iff.mp ht
      exact ⟨as, ih⟩
    | cinemeta a =>
      obtain ⟨u, hu, rfl⟩ := Option.map_eq_some_iff.mp ht
      exact ⟨a :: as, ih.snoc trivial hu⟩

theorem cinemeta_key_inj {title title' : String × String} (h : cinemetaLookup.asks title)
    (h' : cinemetaLookup.asks title')
    (hkey : cinemetaLookup.key title' = cinemetaLookup.key title) :
    title' = title := by
  obtain ⟨type_, id⟩ := title
  obtain ⟨type', id'⟩ := title'
  simp only [cinemetaLookup, Bool.or_eq_true, decide_eq_true_eq] at h h' hkey
  have hlist := congrArg String.toList hkey
  rcases h with rfl | rfl <;> rcases h' with rfl | rfl <;>
    simp [String.toList_append, ← String.toList_inj] at hlist ⊢ <;> exact hlist

theorem asks_of_imdbId {type_ id : String} (h : SearchAnswers.imdbId type_ id ≠ "") :
    cinemetaLookup.asks (type_, SearchAnswers.imdbId type_ id) := by
  unfold SearchAnswers.imdbId at h
  simp only [cinemetaLookup, Bool.or_eq_true, decide_eq_true_eq]
  split at h
  · next hm => exact .inl hm
  · split at h
    · next hs => exact .inr hs
    · exact absurd rfl h

theorem read_tvdb (hlt : cls.digit '<' = false) {reply : Reply} {tvdb : String} :
    (tvdbLookup cls).read reply = some tvdb ↔ NamesSeries cls reply tvdb := by
  simp only [tvdbLookup, Option.bind_eq_some_iff, seriesIdIn_eq_some hlt, NamesSeries]

theorem keeps_tvdb (hlt : cls.digit '<' = false) {reply : Reply} :
    (tvdbLookup cls).keeps reply ↔ ∃ tvdb, NamesSeries cls reply tvdb := by
  simp only [← read_tvdb hlt]
  exact Option.isSome_iff_exists

/-- An answer without countries is read as no languages. -/
theorem read_cinemeta {reply : Reply} (h : cinemetaLookup.read reply ≠ []) :
    ∃ value, NamesCountries reply value ∧
      cinemetaLookup.read reply = countriesToLanguages value := by
  simp only [cinemetaLookup] at h ⊢
  cases hc : reply.bind countryBlob with
  | none =>
    rw [hc] at h
    exact absurd rfl h
  | some value =>
    obtain ⟨body, rfl, hbody⟩ := Option.bind_eq_some_iff.mp hc
    exact ⟨value, ⟨body, rfl, countryBlob_eq_some.mp hbody⟩, rfl⟩

variable {answers : SearchAnswers} {type_ id : String}

theorem series_of_told (hlt : cls.digit '<' = false) (hs : (tvdbLookup cls).Inv s.tvdb)
    (h : Told s answers type_ id) (htype : type_ = "series") :
    ∃ reply, ((seriesParts id).1, reply) ∈ s.tvdb.answered ∧
      ∀ search, answers.searchFor type_ id = some search ↔ ∃ tvdb, NamesSeries cls reply tvdb ∧
        search = .series tvdb (seriesParts id).2.1 (seriesParts id).2.2 := by
  obtain ⟨i, hi⟩ := h.tvdb htype
  obtain ⟨reply, hmem, hread⟩ := (hs.given i _ _ hi).exists_own rfl fun _ _ hkey => hkey
  refine ⟨reply, hmem, fun search => ?_⟩
  subst htype
  simp only [SearchAnswers.searchFor, if_neg (show ¬ "series" = "movie" by decide), if_true,
    Option.map_eq_some_iff, hread, read_tvdb hlt, eq_comm (a := search)]

theorem languages_of_told (hs : cinemetaLookup.Inv s.cinemeta) (h : Told s answers type_ id)
    (hne : answers.originals type_ id ≠ []) :
    ∃ reply value, ((type_, SearchAnswers.imdbId type_ id), reply) ∈ s.cinemeta.answered ∧
      NamesCountries reply value ∧ answers.originals type_ id = countriesToLanguages value := by
  unfold SearchAnswers.originals at hne ⊢
  split at hne
  · exact absurd rfl hne
  · next hid =>
    rw [if_neg hid]
    have hid' : SearchAnswers.imdbId type_ id ≠ "" := by simpa [String.isEmpty_iff] using hid
    obtain ⟨i, hi⟩ := h.cinemeta hid'
    have hasks := asks_of_imdbId hid'
    obtain ⟨reply, hmem, hread⟩ := (hs.given i _ _ hi).exists_own hasks fun _ h' hkey =>
      cinemeta_key_inj hasks h' hkey
    rw [hread] at hne ⊢
    obtain ⟨value, hvalue, hlangs⟩ := read_cinemeta hne
    exact ⟨reply, value, hmem, hvalue, hlangs⟩

theorem keeps_of_run (hlt : cls.digit '<' = false) (htvdb : (tvdbLookup cls).Inv s.tvdb)
    (hcinemeta : cinemetaLookup.Inv s.cinemeta) (h : Run (titleStep cls) ok s acts t) :
    Keeps cls s t where
  tvdb imdb reply tvdb hmem hnames i hi := by
    obtain ⟨as, hrun⟩ := tvdb_of_run h
    have hkept : s.tvdb.kept imdb ≠ none := by
      rw [htvdb.kept, ne_eq, Option.map_eq_none_iff, Memo.latest_eq_none]
      intro hnone
      have hkeeps := (keeps_tvdb hlt).mpr ⟨tvdb, hnames⟩
      rw [hnone _ hmem rfl] at hkeeps
      cases hkeeps
    obtain ⟨imdb', hi', hkey⟩ := Memo.asking_of_run hrun hkept hi
    exact (show imdb' = imdb from hkey) ▸ hi'
  cinemeta title body hmem i hi := by
    obtain ⟨as, hrun⟩ := cinemeta_of_run h
    have hkept : s.cinemeta.kept (cinemetaLookup.key title) ≠ none := by
      rw [hcinemeta.kept, ne_eq, Option.map_eq_none_iff, Memo.latest_eq_none]
      intro hnone
      cases hnone _ hmem rfl
    obtain ⟨title', hi', hkey⟩ := Memo.asking_of_run hrun hkept hi
    have htitle : title' = title :=
      cinemeta_key_inj (hcinemeta.asked _ hmem) (hcinemeta.asking i _ hi') hkey
    exact htitle ▸ hi'
  failed imdb hnone := by
    rw [htvdb.kept, Option.map_eq_none_iff, Memo.latest_eq_none]
    rintro ⟨imdb', reply⟩ hmem rfl
    rw [← Bool.not_eq_true, keeps_tvdb hlt]
    rintro ⟨tvdb, hnames⟩
    exact hnone reply tvdb hmem hnames
  unreached title hasks hnone := by
    rw [hcinemeta.kept, Option.map_eq_none_iff, Memo.latest_eq_none]
    rintro ⟨title', reply⟩ hmem hkey
    obtain rfl := cinemeta_key_inj hasks (hcinemeta.asked _ hmem) hkey
    cases reply with
    | none => rfl
    | some body => exact absurd hmem (hnone body)

/-- **A search is told what was answered about its title**, whatever lookups go on meanwhile, and
what is kept is not asked for again. -/
theorem lookups_right (hlt : cls.digit '<' = false) (h : Run (titleStep cls) ok .init acts s) :
    (∀ answers type_ id, Told s answers type_ id → Sourced cls s answers type_ id) ∧
      ∀ later t, Run (titleStep cls) ok s later t → Keeps cls s t := by
  obtain ⟨as, htvdb⟩ := tvdb_of_run h
  obtain ⟨as', hcinemeta⟩ := cinemeta_of_run h
  have htvdb := Memo.inv_of_run htvdb
  have hcinemeta := Memo.inv_of_run hcinemeta
  exact ⟨fun _ _ _ ht => ⟨series_of_told hlt htvdb ht, languages_of_told hcinemeta ht⟩,
    fun _ _ hrun => keeps_of_run hlt htvdb hcinemeta hrun⟩

/-! ### Two episodes of a Korean series -/

/-- Two searches at once; the second is told what the first was. -/
def episodes : List TitleAct :=
  [.cinemeta (.answer 0 (some "\"country\" : \"South Korea, Atlantis\"")), .tvdb (.begin 1 "tt1"),
    .tvdb (.answer 0 (some "<seriesid/><seriesid>38</seriesid>")),
    .cinemeta (.begin 0 ("series", "tt1")), .tvdb (.begin 0 "tt1")]

def toldKorean : SearchAnswers where
  channel _ _ _ := .ok none
  imdbToTvdb _ := some "38"
  originalLanguages _ _ := ["korean"]
  sanity _ _ := ⟨true, none⟩
  availability _ _ _ := ⟨true, none⟩

theorem lookups_right_episodes :
    ∃ s, Run (titleStep asciiClasses) (fun _ _ => True) .init episodes s ∧
      Sourced asciiClasses s toldKorean "series" "tt1:1:2" ∧
      ∀ later t, Run (titleStep asciiClasses) (fun _ _ => True) s later t →
        Keeps asciiClasses s t := by
  have hrun : Run (titleStep asciiClasses) (fun _ _ => True) .init episodes _ :=
    ((((Run.nil.snoc trivial rfl).snoc trivial rfl).snoc trivial rfl).snoc trivial rfl).snoc
      trivial rfl
  obtain ⟨hsourced, hkeeps⟩ := lookups_right (by decide) hrun
  refine ⟨_, hrun, hsourced toldKorean "series" "tt1:1:2" ⟨fun _ => ⟨1, ?_⟩, fun _ => ⟨0, ?_⟩⟩,
    hkeeps⟩
  · decide +kernel
  · decide +kernel

end StremioNzb.Addon

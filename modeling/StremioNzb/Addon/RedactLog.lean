import Mathlib.Data.List.Infix
import Mathlib.Data.List.TakeWhile
import StremioNzb.Addon.Candidates
import StremioNzb.Lib.Replace

/-!
# Redacting URLs in messages

`redact_url` and `redact_log` of `util.rs`. The expression of `redact_log` ends a URL at a
parenthesis or an angle bracket, which a URL may contain, and knows lower-case schemes only. Of the
other URLs nothing survives (`Message.Clean`); of these something does unless `redact_url` leaves
it as well (`redactLog_of_clean`).
-/

namespace StremioNzb.Addon

open StremioNzb.Lib

/-! ## The code -/

/-- What `redact_url` asks of the `url` crate; a setter that fails leaves the URL as it is. -/
structure UrlCrate where
  Url : Type
  parse : String → Option Url
  scheme : Url → String
  setPassword : Option String → Url → Url
  setUsername : String → Url → Url
  setQuery : Option String → Url → Url
  setFragment : Option String → Url → Url
  display : Url → String

def schemes : List String := ["https", "http", "nntps", "nntp"]

/-- `[\s)>]` -/
def isStop (c : Char) : Bool := isWhiteSpace c || c = ')' || c = '>'

/-- `scheme://[^\s)>]+` -/
def schemeAt (scheme : String) (cs : List Char) : Option (List Char) :=
  let lead := (scheme ++ "://").toList
  let run := (cs.drop lead.length).takeWhile fun c => !isStop c
  if lead.isPrefixOf cs && !run.isEmpty then some (lead ++ run) else none

/-- `https?://[^\s)>]+|nntps?://[^\s)>]+` -/
def urlAt (cs : List Char) : Option (List Char) := schemes.findSome? fun s => schemeAt s cs

namespace UrlCrate
variable (crate : UrlCrate)

def strip (url : crate.Url) : crate.Url :=
  crate.setFragment none (crate.setQuery none (crate.setUsername "" (crate.setPassword none url)))

def redactUrl (input : String) : String :=
  match crate.parse input with
  | none => "<invalid-url>"
  | some url => crate.display (crate.strip url)

def redactChars (m : List Char) : List Char := (crate.redactUrl (String.ofList m)).toList

def redactLog (msg : String) : String :=
  String.ofList (replaceAll urlAt crate.redactChars msg.toList)

end UrlCrate

/-! ## What the expression finds -/

theorem isStop_of_isWhiteSpace {c : Char} (h : isWhiteSpace c = true) : isStop c = true := by
  simp [isStop, h]

theorem none_of_all {p : Char → Bool} {cs : List Char} (h : (cs.all fun c => !p c) = true) :
    ∀ c ∈ cs, p c = false := fun c hc => by simpa using List.all_eq_true.mp h c hc

theorem lead_not_stop (s : String) (hs : s ∈ schemes) : ∀ c ∈ (s ++ "://").toList,
    isStop c = false := by
  have hall : ∀ s ∈ schemes, ((s ++ "://").toList.all fun c => !isStop c) = true := by
    decide +kernel
  exact none_of_all (hall s hs)

theorem takeWhile_append_stop {c : Char} (hc : isStop c = true) (xs ys : List Char) :
    (xs ++ c :: ys).takeWhile (fun c => !isStop c) = xs.takeWhile fun c => !isStop c := by
  induction xs with
  | nil => simp [hc]
  | cons x xs ih => simp only [List.cons_append, List.takeWhile_cons, ih]

/-- What a scheme finds is all up to the next stop. -/
theorem schemeAt_eq_some {s : String} (hs : s ∈ schemes) {cs m : List Char}
    (h : schemeAt s cs = some m) :
    (s ++ "://").toList <+: m ∧ m = cs.takeWhile fun c => !isStop c := by
  unfold schemeAt at h
  simp only at h
  split at h
  · rename_i hif
    rw [Bool.and_eq_true, List.isPrefixOf_iff_prefix] at hif
    obtain ⟨rest, rfl⟩ := hif.1
    cases h
    refine ⟨List.prefix_append _ _, ?_⟩
    rw [List.drop_left, List.takeWhile_append_of_pos]
    intro c hc
    simp [lead_not_stop s hs c hc]
  · cases h

theorem urlAt_eq_some {cs m : List Char} (h : urlAt cs = some m) :
    ∃ s ∈ schemes, (s ++ "://").toList <+: m ∧ m = cs.takeWhile fun c => !isStop c := by
  obtain ⟨s, hs, hm⟩ := List.exists_of_findSome?_eq_some h
  exact ⟨s, hs, schemeAt_eq_some hs hm⟩

theorem findsPrefixes_urlAt : FindsPrefixes urlAt := by
  intro cs m h
  obtain ⟨s, hs, hlead, rfl⟩ := urlAt_eq_some h
  refine ⟨fun hnil => ?_, List.takeWhile_prefix _⟩
  rw [hnil, List.prefix_nil] at hlead
  exact absurd hlead (by simp)

/-- A scheme and something behind it, without a stop, is found as a whole. -/
theorem urlAt_whole {s : String} (hs : s ∈ schemes) {rest : List Char} (hne : rest ≠ [])
    (hrest : ∀ c ∈ rest, isStop c = false) :
    urlAt ((s ++ "://").toList ++ rest) = some ((s ++ "://").toList ++ rest) := by
  have hrun : rest.takeWhile (fun c => !isStop c) = rest :=
    List.takeWhile_eq_self_iff.mpr fun c hc => by simp [hrest c hc]
  have hfound : schemeAt s ((s ++ "://").toList ++ rest) = some ((s ++ "://").toList ++ rest) := by
    unfold schemeAt
    simp only [List.drop_left, hrun]
    rw [if_pos]
    rw [Bool.and_eq_true, List.isPrefixOf_iff_prefix]
    exact ⟨List.prefix_append _ _, by simpa using hne⟩
  cases hu : urlAt ((s ++ "://").toList ++ rest) with
  | none =>
    have := List.findSome?_eq_none_iff.mp hu s hs
    rw [hfound] at this
    cases this
  | some m =>
    obtain ⟨s', -, -, hm⟩ := urlAt_eq_some hu
    rw [List.takeWhile_append_of_pos, hrun] at hm
    · rw [hm]
    · intro c hc
      simp [lead_not_stop s hs c hc]

theorem schemeAt_append_stop {s : String} (hs : s ∈ schemes) {c : Char} (hc : isStop c = true)
    (xs ys : List Char) : schemeAt s (xs ++ c :: ys) = schemeAt s xs := by
  unfold schemeAt
  by_cases hlead : (s ++ "://").toList <+: xs
  · obtain ⟨rest, rfl⟩ := hlead
    simp only [List.append_assoc, List.drop_left, takeWhile_append_stop hc]
    simp [List.isPrefixOf_iff_prefix]
  · have hno : ¬ (s ++ "://").toList <+: xs ++ c :: ys := by
      rintro ⟨rest, heq⟩
      rcases List.append_eq_append_iff.mp heq with ⟨a, hxs, -⟩ | ⟨a, hl, hys⟩
      · exact hlead ⟨a, hxs.symm⟩
      · cases a with
        | nil =>
          rw [List.append_nil] at hl
          exact hlead (hl ▸ List.prefix_rfl)
        | cons d a =>
          -- the stop would stand in the scheme
          have hd : c = d := (List.cons.inj hys).1
          have hin := lead_not_stop s hs c (by rw [hl, hd]; simp)
          rw [hc] at hin
          cases hin
    have hfalse : ∀ zs : List Char, ¬ (s ++ "://").toList <+: zs →
        (s ++ "://").toList.isPrefixOf zs = false := fun zs h => by
      rw [← Bool.not_eq_true, List.isPrefixOf_iff_prefix]
      exact h
    simp only [hfalse _ hno, hfalse _ hlead, Bool.false_and, Bool.false_eq_true, ↓reduceIte]

theorem cuts_of_isStop {c : Char} (hc : isStop c = true) : Cuts urlAt c := by
  intro xs ys
  have hall : ∀ l : List String, (∀ s ∈ l, s ∈ schemes) →
      (l.findSome? fun s => schemeAt s (xs ++ c :: ys)) = l.findSome? fun s => schemeAt s xs := by
    intro l
    induction l with
    | nil => exact fun _ => rfl
    | cons s l ih =>
      intro h
      rw [List.findSome?_cons, List.findSome?_cons, ih fun s hs => h s (.tail _ hs),
        schemeAt_append_stop (h s List.mem_cons_self) hc]
  exact hall schemes fun _ h => h

/-! ## Messages -/

/-- Text and URLs in turn. -/
inductive Message where
  | last (text : String)
  | url (text url : String) (more : Message)

/-- The message with `f` of each URL for the URL. -/
def Message.spelled (f : String → String) : Message → String
  | last text => text
  | url text u more => text ++ f u ++ more.spelled f

def startsBlank (s : String) : Prop := ∃ c ∈ s.toList.head?, isWhiteSpace c = true

def endsBlank (s : String) : Prop := ∃ c ∈ s.toList.getLast?, isWhiteSpace c = true

/-- The text after a URL starts with whitespace, or there is none. -/
def Message.Follows : Message → Prop
  | last text => text = "" ∨ startsBlank text
  | url text _ _ => startsBlank text

namespace UrlCrate
variable (crate : UrlCrate)

/-- A run of other characters than whitespace that the crate takes for a URL of the schemes. -/
structure IsUrl (s : String) : Prop where
  run : s ≠ "" ∧ ∀ c ∈ s.toList, isWhiteSpace c = false
  accepted : ∃ url, crate.parse s = some url ∧ crate.scheme url ∈ schemes

/-- The text contains no URL. -/
def Plain (text : String) : Prop := ∀ s : String, s.toList <:+: text.toList → ¬ crate.IsUrl s

/-- **The messages**: plain text and URLs in turn, with whitespace between them. -/
def Composed : Message → Prop
  | .last text => crate.Plain text
  | .url text u more => crate.Plain text ∧ (text = "" ∨ endsBlank text) ∧ crate.IsUrl u ∧
      more.Follows ∧ Composed more

/-- What is documented of the crate: a URL is displayed without whitespace, and its scheme is what
stands before the colon. -/
structure Documented : Prop where
  display : ∀ s url, crate.parse s = some url → (∀ c ∈ s.toList, isWhiteSpace c = false) →
    ∀ c ∈ (crate.display (crate.strip url)).toList, isWhiteSpace c = false
  scheme : ∀ s ∈ schemes, ∀ rest url, crate.parse (s ++ "://" ++ rest) = some url →
    crate.scheme url = s

/-- The text of a URL begins with a lower-case scheme and has no parenthesis or angle bracket. -/
def Whole (u : String) : Prop := ∃ s ∈ schemes, ∃ rest, rest ≠ [] ∧
  (∀ c ∈ rest, isStop c = false) ∧ u.toList = (s ++ "://").toList ++ rest

/-- **What the messages are to be like**: no text looks like a URL, and the URLs are of that
form. -/
def Clean : Message → Prop
  | .last text => Unmatched urlAt text.toList
  | .url text u more => Unmatched urlAt text.toList ∧ Whole u ∧ Clean more

/-- No text looks like a URL; and redaction leaves of the URLs what the expression ends them at, and
the whole of one that the expression does not find. -/
def Kept : Message → Prop
  | .last text => Unmatched urlAt text.toList
  | .url text u more => Unmatched urlAt text.toList ∧
      (∀ c ∈ u.toList, isStop c = true → c ∈ (crate.redactUrl u).toList) ∧
      (Unmatched urlAt u.toList → crate.redactUrl u = u) ∧ Kept more

variable {crate} {cs m : List Char}

/-- A lower-case URL without a parenthesis or an angle bracket is redacted as a whole. -/
theorem replaceAll_whole {u : String} (h : Whole u) :
    replaceAll urlAt crate.redactChars u.toList = (crate.redactUrl u).toList := by
  obtain ⟨s, hs, rest, hne, hrest, hu⟩ := h
  have hm := urlAt_whole hs hne hrest
  rw [← hu] at hm
  rw [replaceAll_of_whole (findsPrefixes_urlAt _ _ hm).1 hm, redactChars, String.ofList_toList]

/-! ## Messages in pieces -/

/-- Nothing, or whitespace first. -/
def BlankFirst (cs : List Char) : Prop := cs = [] ∨ ∃ c ∈ cs.head?, isWhiteSpace c = true

/-- What stands before whitespace is determined. -/
theorem append_inj_of_blank {a a' b b' : List Char} (ha : ∀ c ∈ a, isWhiteSpace c = false)
    (ha' : ∀ c ∈ a', isWhiteSpace c = false) (hb : BlankFirst b) (hb' : BlankFirst b')
    (heq : a ++ b = a' ++ b') : a = a' ∧ b = b' := by
  have hword : ∀ x y : List Char, (∀ c ∈ x, isWhiteSpace c = false) → BlankFirst y →
      (x ++ y).takeWhile (fun c => !isWhiteSpace c) = x := by
    intro x y hx hy
    rw [List.takeWhile_append_of_pos fun c hc => by simp [hx c hc]]
    rcases hy with rfl | ⟨c, hc, hblank⟩
    · exact List.append_nil x
    · obtain ⟨ys, rfl⟩ := List.head?_eq_some_iff.mp hc
      rw [List.takeWhile_cons_of_neg (by simp [hblank]), List.append_nil]
  have hfirst : a = a' := by rw [← hword a b ha hb, heq, hword a' b' ha' hb']
  subst hfirst
  exact ⟨rfl, List.append_cancel_left heq⟩

theorem replace_append_blankFirst {a b : List Char} (hb : BlankFirst b) :
    replaceAll urlAt crate.redactChars (a ++ b) =
      replaceAll urlAt crate.redactChars a ++ replaceAll urlAt crate.redactChars b := by
  rcases hb with rfl | ⟨c, hc, hblank⟩
  · rw [List.append_nil, replaceAll_nil, List.append_nil]
  · obtain ⟨b, rfl⟩ := List.head?_eq_some_iff.mp hc
    have hcut := cuts_of_isStop (isStop_of_isWhiteSpace hblank)
    have hb := replaceAll_append_cons (f := crate.redactChars) findsPrefixes_urlAt hcut [] b
    rw [List.nil_append, replaceAll_nil, List.nil_append] at hb
    rw [replaceAll_append_cons findsPrefixes_urlAt hcut, hb]

theorem replace_blankFirst {b : List Char} (hb : BlankFirst b) :
    BlankFirst (replaceAll urlAt crate.redactChars b) := by
  rcases hb with rfl | ⟨c, hc, hblank⟩
  · exact .inl rfl
  · obtain ⟨b, rfl⟩ := List.head?_eq_some_iff.mp hc
    have hcut := cuts_of_isStop (isStop_of_isWhiteSpace hblank)
    have hb := replaceAll_append_cons (f := crate.redactChars) findsPrefixes_urlAt hcut [] b
    rw [List.nil_append, replaceAll_nil, List.nil_append] at hb
    rw [hb]
    exact .inr ⟨c, rfl, hblank⟩

theorem replace_append_endsBlank {text : String} (h : text = "" ∨ endsBlank text)
    (b : List Char) : replaceAll urlAt crate.redactChars (text.toList ++ b) =
      replaceAll urlAt crate.redactChars text.toList ++ replaceAll urlAt crate.redactChars b := by
  rcases h with rfl | ⟨c, hc, hblank⟩
  · rfl
  · obtain ⟨front, heq⟩ := List.getLast?_eq_some_iff.mp hc
    have hcut := cuts_of_isStop (isStop_of_isWhiteSpace hblank)
    rw [heq, List.append_assoc, List.singleton_append,
      replaceAll_append_cons findsPrefixes_urlAt hcut,
      replaceAll_append_cons findsPrefixes_urlAt hcut, replaceAll_nil, List.append_assoc,
      List.singleton_append]

theorem follows_blankFirst {m : Message} (h : m.Follows) (f : String → String) :
    BlankFirst (m.spelled f).toList := by
  cases m with
  | last text =>
    rcases h with rfl | h
    · exact .inl rfl
    · exact .inr h
  | url text u more =>
    obtain ⟨c, hc, hblank⟩ := h
    refine .inr ⟨c, ?_, hblank⟩
    obtain ⟨rest, heq⟩ := List.head?_eq_some_iff.mp hc
    simp [Message.spelled, heq]

/-! ## When nothing survives -/

theorem redactChars_spaceless (hdoc : crate.Documented) (h : ∀ c ∈ m, isWhiteSpace c = false) :
    ∀ c ∈ crate.redactChars m, isWhiteSpace c = false := by
  unfold redactChars redactUrl
  cases hp : crate.parse (String.ofList m) with
  | none => exact none_of_all (by decide +kernel : ("<invalid-url>".toList.all _) = true)
  | some url => exact hdoc.display _ url hp (by rwa [String.toList_ofList])

/-- A plain text that looks like a URL reads otherwise from there on. -/
theorem unmatched_of_plain (hdoc : crate.Documented) {text : String} (h : crate.Plain text)
    {b b' : List Char}
    (heq : replaceAll urlAt crate.redactChars text.toList ++ b = text.toList ++ b') :
    Unmatched urlAt text.toList := by
  rcases unmatched_or_first findsPrefixes_urlAt text.toList with
    hun | ⟨before, m, after, htext, hne, hclear, hm⟩
  · exact hun
  · exfalso
    obtain ⟨s, hs, ⟨run, hrun⟩, htake⟩ := urlAt_eq_some hm
    have hinvalid : crate.parse (String.ofList m) = none := by
      cases hp : crate.parse (String.ofList m) with
      | none => rfl
      | some url =>
        -- what is found and parses is a URL of the schemes
        have hscheme : crate.scheme url = s := by
          refine hdoc.scheme s hs (String.ofList run) url ?_
          rw [← hp, ← hrun, String.ofList_append, String.ofList_toList]
        have hspaceless : ∀ c ∈ m, isWhiteSpace c = false := by
          intro c hc
          rw [htake] at hc
          have hclean := List.mem_takeWhile_imp hc
          cases hblank : isWhiteSpace c with
          | false => rfl
          | true => simp [isStop_of_isWhiteSpace hblank] at hclean
        have hurl : crate.IsUrl (String.ofList m) := by
          refine ⟨⟨fun hempty => hne ?_, ?_⟩, url, hp, hscheme ▸ hs⟩
          · rw [← String.toList_ofList (l := m), hempty]
            rfl
          · rwa [String.toList_ofList]
        refine absurd hurl (h _ ⟨before, after, ?_⟩)
        rw [String.toList_ofList, htext, List.append_assoc]
    have hmarker : crate.redactChars m = "<invalid-url>".toList := by
      rw [redactChars, redactUrl, hinvalid]
    rw [htext, hclear.replaceAll, replaceAll_of_match hne hm, hmarker] at heq
    simp only [List.append_assoc, List.append_cancel_left_eq] at heq
    have hhead : ∀ s ∈ schemes, (s ++ "://").toList.head? ≠ some '<' ∧
        (s ++ "://").toList ≠ [] := by decide +kernel
    obtain ⟨hnot, hlead⟩ := hhead s hs
    obtain ⟨c, lead, hcons⟩ := List.exists_cons_of_ne_nil hlead
    rw [← hrun, hcons] at heq
    rw [hcons] at hnot
    exact hnot (congrArg some (List.cons.inj heq).1.symm)

/-- The text and the URL in front are redacted apart from what follows. -/
theorem replaceAll_url {text u : String} {more : Message}
    (hm : crate.Composed (.url text u more)) :
    replaceAll urlAt crate.redactChars ((Message.url text u more).spelled id).toList =
      replaceAll urlAt crate.redactChars text.toList ++
        (replaceAll urlAt crate.redactChars u.toList ++
          replaceAll urlAt crate.redactChars (more.spelled id).toList) := by
  obtain ⟨-, hends, -, hfollows, -⟩ := hm
  rw [← replace_append_blankFirst (follows_blankFirst hfollows id),
    ← replace_append_endsBlank hends]
  simp [Message.spelled]

theorem spelled_url {text u : String} {more : Message} :
    ((Message.url text u more).spelled crate.redactUrl).toList =
      text.toList ++ ((crate.redactUrl u).toList ++ (more.spelled crate.redactUrl).toList) := by
  simp [Message.spelled]

theorem replaceAll_of_clean {m : Message} (hm : crate.Composed m) (h : Clean m) :
    replaceAll urlAt crate.redactChars (m.spelled id).toList =
      (m.spelled crate.redactUrl).toList := by
  induction m with
  | last text => exact Unmatched.replaceAll h
  | url text u more ih =>
    obtain ⟨htext, hu, hmore⟩ := h
    rw [replaceAll_url hm, spelled_url, htext.replaceAll, replaceAll_whole hu,
      ih hm.2.2.2.2 hmore]

theorem kept_of_replaceAll (hdoc : crate.Documented) {m : Message} (hm : crate.Composed m)
    (h : replaceAll urlAt crate.redactChars (m.spelled id).toList =
      (m.spelled crate.redactUrl).toList) : crate.Kept m := by
  induction m with
  | last text =>
    have happ : replaceAll urlAt crate.redactChars text.toList ++ [] = text.toList ++ [] :=
      congrArg (· ++ []) h
    exact unmatched_of_plain hdoc hm happ
  | url text u more ih =>
    rw [replaceAll_url hm, spelled_url] at h
    obtain ⟨hplain, -, hurl, hfollows, hmore⟩ := hm
    have htext := unmatched_of_plain hdoc hplain h
    rw [htext.replaceAll, List.append_cancel_left_eq] at h
    have hu : ∀ c ∈ replaceAll urlAt crate.redactChars u.toList, isWhiteSpace c = false :=
      forall_mem_replaceAll findsPrefixes_urlAt (fun _ => redactChars_spaceless hdoc) hurl.run.2
    have hred : ∀ c ∈ (crate.redactUrl u).toList, isWhiteSpace c = false := by
      have := redactChars_spaceless hdoc hurl.run.2
      rwa [redactChars, String.ofList_toList] at this
    -- the redacted URL ends where the whitespace of the text behind it begins
    obtain ⟨hone, hrest⟩ := append_inj_of_blank hu hred
      (replace_blankFirst (follows_blankFirst hfollows id))
      (follows_blankFirst hfollows crate.redactUrl) h
    refine ⟨htext, fun c hc hstop => ?_, fun hun => ?_, ih hmore hrest⟩
    · rw [← hone]
      exact mem_replaceAll_of_cuts findsPrefixes_urlAt (cuts_of_isStop hstop) hc
    · rw [hun.replaceAll] at hone
      exact (String.toList_inj.mp hone).symm

/-- **Nothing of a URL survives, and text stays as it is, where the message is clean**; and only
where redaction leaves of each URL what the expression ends it at, and the whole of one that the
expression does not find. -/
theorem redactLog_of_clean {m : Message} (hm : crate.Composed m) :
    (Clean m → crate.redactLog (m.spelled id) = m.spelled crate.redactUrl) ∧
      (crate.Documented → crate.redactLog (m.spelled id) = m.spelled crate.redactUrl →
        crate.Kept m) := by
  rw [redactLog, ← String.toList_inj, String.toList_ofList]
  exact ⟨replaceAll_of_clean hm, fun hdoc => kept_of_replaceAll hdoc hm⟩

end UrlCrate

/-! ## A password with a parenthesis -/

structure ExampleUrl where
  scheme : String
  username : String
  password : Option String
  host : String
  path : String
  query : Option String
  deriving DecidableEq

def ExampleUrl.userinfo (url : ExampleUrl) : String :=
  if url.username.isEmpty && url.password.isNone then ""
  else url.username ++ (url.password.map (":" ++ ·)).getD "" ++ "@"

/-- The crate on two URLs; it refuses what the expression makes of the second one. -/
def exampleCrate : UrlCrate where
  Url := ExampleUrl
  parse s :=
    if s = "https://u:pw@h/x?k=1" then some ⟨"https", "u", some "pw", "h", "/x", some "k=1"⟩
    else if s = "https://u:p)w@h/x?k=1" then
      some ⟨"https", "u", some "p)w", "h", "/x", some "k=1"⟩
    else none
  scheme url := url.scheme
  setPassword password url := { url with password }
  setUsername username url := { url with username }
  setQuery query url := { url with query }
  setFragment _ url := url
  display url :=
    url.scheme ++ "://" ++ url.userinfo ++ url.host ++ url.path ++
      (url.query.map ("?" ++ ·)).getD ""

theorem exampleCrate_parse {s : String} {url : ExampleUrl}
    (h : exampleCrate.parse s = some url) :
    (s = "https://u:pw@h/x?k=1" ∨ s = "https://u:p)w@h/x?k=1") ∧ url.scheme = "https" ∧
      exampleCrate.display (exampleCrate.strip url) = "https://h/x" := by
  simp only [exampleCrate] at h
  split at h
  · cases h
    exact ⟨.inl ‹_›, rfl, by decide +kernel⟩
  · split at h
    · cases h
      exact ⟨.inr ‹_›, rfl, by decide +kernel⟩
    · cases h

theorem documented_exampleCrate : exampleCrate.Documented where
  display s url h _ := by
    rw [(exampleCrate_parse h).2.2]
    exact none_of_all (by decide +kernel)
  scheme s hs rest url h := by
    obtain ⟨hinput, hscheme, -⟩ := exampleCrate_parse h
    refine hscheme.trans ?_
    have hlead : ∀ s ∈ schemes, s ≠ "https" →
        ¬ (s ++ "://").toList <+: "https://u:pw@h/x?k=1".toList ∧
        ¬ (s ++ "://").toList <+: "https://u:p)w@h/x?k=1".toList := by decide +kernel
    by_contra hne
    obtain ⟨h₁, h₂⟩ := hlead s hs (Ne.symm hne)
    have hpre : (s ++ "://").toList <+: (s ++ "://" ++ rest).toList := by simp
    rcases hinput with hinput | hinput
    · exact h₁ (hinput ▸ hpre)
    · exact h₂ (hinput ▸ hpre)

/-- A short text holds none of the URLs. -/
theorem plain_example {text : String} (h : text.toList.length < 20) : exampleCrate.Plain text := by
  rintro s hin ⟨-, url, hparse, -⟩
  have hlen := hin.length_le
  rcases (exampleCrate_parse hparse).1 with rfl | rfl
  · exact absurd hlen (Nat.not_le.mpr h)
  · exact absurd (Nat.le_trans (by decide +kernel) hlen) (Nat.not_le.mpr h)

def exampleMessage (u : String) : Message := .url "see " u (.last " now")

theorem composed_example {u : String}
    (hu : u = "https://u:pw@h/x?k=1" ∨ u = "https://u:p)w@h/x?k=1") :
    exampleCrate.Composed (exampleMessage u) := by
  have hurl : exampleCrate.IsUrl u := by
    rcases hu with rfl | rfl
    · exact ⟨⟨by decide, none_of_all (by decide +kernel)⟩, _, rfl, by decide +kernel⟩
    · exact ⟨⟨by decide, none_of_all (by decide +kernel)⟩, _, rfl, by decide +kernel⟩
  exact ⟨plain_example (by decide), .inr ⟨' ', rfl, by decide⟩, hurl, .inr ⟨' ', rfl, by decide⟩,
    plain_example (by decide)⟩

theorem unmatched_of_tails {cs : List Char} (h : ∀ zs ∈ cs.tails, urlAt zs = none) :
    Unmatched urlAt cs := fun ys zs heq => h zs ((List.mem_tails _ _).mpr ⟨ys, heq.symm⟩)

/-- One URL is redacted as a whole; of the other one the parenthesis is not left. -/
theorem redactLog_of_clean_example :
    exampleCrate.redactLog "see https://u:pw@h/x?k=1 now" = "see https://h/x now" ∧
      exampleCrate.redactLog ((exampleMessage "https://u:p)w@h/x?k=1").spelled id) ≠
        (exampleMessage "https://u:p)w@h/x?k=1").spelled exampleCrate.redactUrl := by
  have hclean : UrlCrate.Clean (exampleMessage "https://u:pw@h/x?k=1") := by
    refine ⟨unmatched_of_tails (by decide +kernel), ⟨"https", by decide, "u:pw@h/x?k=1".toList,
      by decide, none_of_all (by decide +kernel), by decide +kernel⟩,
      unmatched_of_tails (by decide +kernel)⟩
  have hspelled : (exampleMessage "https://u:pw@h/x?k=1").spelled exampleCrate.redactUrl =
      "see https://h/x now" := by decide +kernel
  refine ⟨?_, fun h => ?_⟩
  · rw [← hspelled]
    exact (UrlCrate.redactLog_of_clean (composed_example (.inl rfl))).1 hclean
  · obtain ⟨-, hstops, -⟩ :=
      (UrlCrate.redactLog_of_clean (composed_example (.inr rfl))).2 documented_exampleCrate h
    have := hstops ')' (by decide) (by decide)
    revert this
    decide +kernel

/-- The rest of the password and the query survive. -/
theorem password_survives : exampleCrate.Documented ∧
    exampleCrate.Composed (exampleMessage "https://u:p)w@h/x?k=1") ∧
    exampleCrate.redactLog ((exampleMessage "https://u:p)w@h/x?k=1").spelled id) =
      "see <invalid-url>)w@h/x?k=1 now" ∧
    (exampleMessage "https://u:p)w@h/x?k=1").spelled exampleCrate.redactUrl =
      "see https://h/x now" ∧
    exampleCrate.redactLog ((exampleMessage "https://u:p)w@h/x?k=1").spelled id) ≠
      (exampleMessage "https://u:p)w@h/x?k=1").spelled exampleCrate.redactUrl :=
  ⟨documented_exampleCrate, composed_example (.inr rfl), by decide +kernel, by decide +kernel,
    by decide +kernel⟩

end StremioNzb.Addon

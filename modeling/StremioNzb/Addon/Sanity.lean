import StremioNzb.Addon.NzbFetch

/-!
# The structure check

`nzb_sanity.rs`: the verdict on the text of an NZB, from the file names in its subjects, and on
the errors of fetching it. A `Matcher` gives what can be left of a text after a match, which is
all that the regular expressions of the check are asked for.
-/

namespace StremioNzb.Addon

open StremioNzb.Lib StremioNzb.Streaming

/-! ## Expressions -/

/-- The rests after a match at the start. -/
abbrev Matcher := List Char → List (List Char)

namespace Matcher

/-- A letter of a literal in either case; `ſ` and the Kelvin sign fold to ASCII letters. -/
def sameLetter (l c : Char) : Bool :=
  c.toLower = l || l = 's' && c.toNat = 0x17F || l = 'k' && c.toNat = 0x212A

def lit : List Char → Matcher
  | [], cs => [cs]
  | _ :: _, [] => []
  | l :: ls, c :: cs => if sameLetter l c then lit ls cs else []

/-- Between `least` and `most` characters of a class. -/
def repeats (p : Char → Bool) (least most : Nat) : Matcher := fun cs =>
  ((List.range (most + 1)).filter fun n =>
    least ≤ n && n ≤ cs.length && (cs.take n).all p).map fun n => cs.drop n

def seq (m m' : Matcher) : Matcher := fun cs => (m cs).flatMap m'

def alt (ms : List Matcher) : Matcher := fun cs => ms.flatMap fun m => m cs

/-- `[^.\w]|$` -/
def boundary (cls : CharClasses) : Matcher
  | [] => [[]]
  | c :: cs => if c ≠ '.' && !cls.word c then [cs] else []

def isMatch (m : Matcher) (s : String) : Bool := s.toList.tails.any fun cs => !(m cs).isEmpty

end Matcher

open Matcher in
/-- `RAR_ANY_RE` -/
def rarAny (cls : CharClasses) : Matcher :=
  let digits (least most : Nat) : Matcher := repeats cls.digit least most
  let dot := lit ['.']
  -- `\d+` can take no more digits than there are characters
  let some_ : Matcher := fun cs => digits 1 cs.length cs
  seq dot (seq (alt [seq (lit "part".toList) (seq some_ (lit ".rar".toList)), lit "rar".toList,
    seq (lit "r".toList) (digits 2 3), seq (lit "s".toList) (digits 2 3),
    seq (lit "t".toList) (digits 2 3), seq (lit "u".toList) (digits 2 3),
    seq (lit "v".toList) (digits 2 3), seq (lit "7z.".toList) (digits 3 3),
    seq (lit "zip.".toList) (digits 3 3), digits 3 3]) (boundary cls))

open Matcher in
/-- `VIDEO_ANY_RE` -/
def videoAny (cls : CharClasses) : Matcher :=
  seq (lit ['.']) (seq (alt (["mkv", "mp4", "m4v", "avi", "webm", "mov", "ts", "wmv"].map fun e =>
    lit e.toList)) (boundary cls))

def quote : Char := Char.ofNat 0x22

/-- The captures of `subject="([^"]+)"`, from the left; every round drops a character. -/
def subjectsFrom : Nat → List Char → List String
  | 0, _ => []
  | fuel + 1, cs => match cs with
    | [] => []
    | _ :: rest => match Matcher.lit "subject=\"".toList cs with
      | after :: _ =>
        let name := after.takeWhile (· ≠ quote)
        if name = [] || name.length = after.length then subjectsFrom fuel rest
        else String.ofList name :: subjectsFrom fuel (after.drop (name.length + 1))
      | [] => subjectsFrom fuel rest

def subjects (xml : String) : List String := subjectsFrom xml.toList.length xml.toList

/-! ## Verdicts -/

structure SanityResult where
  ok : Bool
  reason : Option String
  deriving DecidableEq, Repr

/-- The verdict on the text of an NZB. -/
def structuralVerdict (cls : CharClasses) (xml : String) : SanityResult :=
  if (subjects xml).isEmpty then ⟨false, some "no-subjects"⟩
  else
    let hasRar := (subjects xml).any (rarAny cls).isMatch
    let hasVideo := (subjects xml).any (videoAny cls).isMatch
    if !hasRar && !hasVideo then ⟨false, some "no-video-or-rar"⟩ else ⟨true, none⟩

/-- The verdict on a failed fetch. -/
def failureVerdict : NzbFetchError → SanityResult
  | .httpStatus code => ⟨false, some s!"http-{code}"⟩
  | .network msg => ⟨false, some msg⟩
  | .tooLarge n => ⟨false, some s!"nzb-too-large-{n}"⟩
  | .indexerThrottled => ⟨false, some "indexer-throttled"⟩

/-- `probe_nzb`, after the fetch. -/
def sanityVerdict (cls : CharClasses) : Except NzbFetchError String → SanityResult
  | .ok xml => structuralVerdict cls xml
  | .error err => failureVerdict err

example : structuralVerdict ⟨Char.isDigit, Char.isAlphanum⟩
    "<file subject=\"a &quot;x.part01.rar&quot; yEnc\">" = ⟨true, none⟩ := by decide +kernel

end StremioNzb.Addon

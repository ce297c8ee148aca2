import Mathlib.Data.List.Induction
import StremioNzb.Addon.NzbApi
import StremioNzb.Lib.Grouping

/-!
# Candidates and their groups

`candidate.rs` and `parse_title.rs`: a search hit with the signature of its parsed title, and
the hits with one signature as one group. `groupCandidates` walks the list once with a map of
groups and the order of their signatures; `groupCandidates_eq` says that this is
`groupOn signature`.
-/

namespace StremioNzb.Addon

open StremioNzb.Lib

/-! ## Titles -/

/-- What `torrent-name-parser` reads off a title. -/
structure Metadata where
  title : String
  resolution : Option String
  quality : Option String
  codec : Option String
  audio : Option String
  group : Option String

structure Parsed where
  title : String
  resolution : Option String
  source : Option String
  codec : Option String
  audio : Option String
  group : Option String
  language : Option String

/-- The two title parsers; `metadata` is `none` where the first one fails. -/
structure TitleParser where
  metadata : String → Option Metadata
  detectLanguage : String → Option String

def TitleParser.parse (tp : TitleParser) (title : String) : Parsed :=
  let language := tp.detectLanguage title
  match tp.metadata title with
  | some m => ⟨m.title, m.resolution, m.quality, m.codec, m.audio, m.group, language⟩
  | none => ⟨title, none, none, none, none, none, language⟩

/-- The `White_Space` characters of Unicode. -/
def isWhiteSpace (c : Char) : Bool :=
  let n := c.toNat
  9 ≤ n && n ≤ 13 || 0x2000 ≤ n && n ≤ 0x200A ||
    [0x20, 0x85, 0xA0, 0x1680, 0x2028, 0x2029, 0x202F, 0x205F, 0x3000].contains n

def trim (s : String) : String :=
  String.ofList ((s.toList.dropWhile isWhiteSpace).reverse.dropWhile isWhiteSpace).reverse

def languageAliases : List (String × String) :=
  [("en", "english"), ("es", "spanish"), ("ja", "japanese"), ("fr", "french"), ("de", "german"),
    ("it", "italian"), ("pt", "portuguese"), ("ru", "russian"), ("zh", "chinese"),
    ("ko", "korean"), ("nl", "dutch"), ("pl", "polish"), ("cs", "czech"), ("sk", "slovak"),
    ("sv", "swedish"), ("no", "norwegian"), ("da", "danish"), ("fi", "finnish"),
    ("hu", "hungarian"), ("tr", "turkish"), ("ar", "arabic"), ("he", "hebrew"), ("hi", "hindi")]

def normalizeLanguage (input : String) : String :=
  let lower := (trim input).toLower
  match languageAliases.find? fun p => lower = p.1 with
  | some (_, name) => name
  | none => lower

/-! ## Candidates -/

/-- What two uploads of one release agree in. -/
structure GroupSignature where
  resolution : Option String
  source : Option String
  codec : Option String
  group : Option String
  language : Option String
  deriving DecidableEq, Repr

structure NzbCandidate where
  nzbUrl : String
  item : Item
  signature : GroupSignature
  deriving DecidableEq, Repr

namespace TitleParser
variable (tp : TitleParser)

def signature (item : Item) : GroupSignature :=
  let parsed := tp.parse item.title
  ⟨parsed.resolution, parsed.source, parsed.codec, parsed.group,
    parsed.language.map normalizeLanguage⟩

def candidateFromItem (item : Item) : NzbCandidate := ⟨itemNzbUrl item, item, tp.signature item⟩

end TitleParser

/-! ## Groups -/

/-- The signatures seen, in order, and the candidates of each. -/
structure Buckets where
  order : List GroupSignature
  groups : GroupSignature → Option (List NzbCandidate)

def Buckets.push (b : Buckets) (c : NzbCandidate) : Buckets :=
  let sig := c.signature
  { order := if (b.groups sig).isNone then b.order ++ [sig] else b.order
    groups := Function.update b.groups sig (some ((b.groups sig).getD [] ++ [c])) }

def collectBuckets (candidates : List NzbCandidate) : Buckets :=
  candidates.foldl Buckets.push ⟨[], fun _ => none⟩

def groupCandidates (candidates : List NzbCandidate) : List (List NzbCandidate) :=
  let b := collectBuckets candidates
  -- the signatures of the order are distinct, so the `remove` of the source finds each group
  b.order.map fun sig => (b.groups sig).getD []

/-- The drain of the groups along the order, `none` where `expect` finds no group. -/
def drainGroups : List GroupSignature → (GroupSignature → Option (List NzbCandidate)) →
    Option (List (List NzbCandidate))
  | [], _ => some []
  | sig :: order, groups => do
    let group ← groups sig
    let rest ← drainGroups order (Function.update groups sig none)
    some (group :: rest)

/-- What the walk knows of the candidates seen. -/
theorem collectBuckets_spec (cs : List NzbCandidate) :
    (collectBuckets cs).order = (cs.map (·.signature)).eraseDups ∧
    ∀ sig, (collectBuckets cs).groups sig =
      if sig ∈ cs.map (·.signature) then some (cs.filter (·.signature = sig)) else none := by
  induction cs using List.reverseRecOn with
  | nil => exact ⟨rfl, fun sig => by simp [collectBuckets]⟩
  | append_singleton cs c ih =>
    obtain ⟨hord, hgr⟩ := ih
    have hfold : collectBuckets (cs ++ [c]) = (collectBuckets cs).push c := by
      simp [collectBuckets, List.foldl_append]
    rw [hfold]
    constructor
    · rw [List.map_append, List.eraseDups_append, Buckets.push, hord, hgr]
      simp only [List.map_cons, List.map_nil]
      generalize cs.map (·.signature) = sigs
      by_cases hc : c.signature ∈ sigs
      · simp [hc, List.removeAll]
      · simp [hc, List.removeAll, List.eraseDups_cons]
    · intro sig
      simp only [Buckets.push, Function.update_apply, hgr, List.map_append, List.mem_append,
        List.filter_append]
      by_cases hs : sig = c.signature
      · subst hs
        by_cases hc : c.signature ∈ cs.map (·.signature)
        · simp [hc]
        · have hnil : cs.filter (·.signature = c.signature) = [] := by
            refine List.filter_eq_nil_iff.mpr fun x hx => ?_
            simpa using fun h => hc (List.mem_map.mpr ⟨x, hx, h⟩)
          simp [hc, hnil]
      · simp [hs, Ne.symm hs]

/-- **The walk groups by signature.** -/
theorem groupCandidates_eq (cs : List NzbCandidate) :
    groupCandidates cs = groupOn (·.signature) cs := by
  obtain ⟨hord, hgr⟩ := collectBuckets_spec cs
  unfold groupCandidates groupOn
  simp only
  rw [hord]
  apply List.map_congr_left
  intro sig hsig
  rw [hgr, if_pos (List.mem_eraseDups.mp hsig)]
  rfl

theorem drainGroups_eq : ∀ {order : List GroupSignature}
    {groups : GroupSignature → Option (List NzbCandidate)}, order.Nodup →
      (∀ sig ∈ order, (groups sig).isSome) →
        drainGroups order groups = some (order.map fun sig => (groups sig).getD [])
  | [], _, _, _ => rfl
  | sig :: order, groups, hnd, h => by
    obtain ⟨hsig, hnd⟩ := List.nodup_cons.mp hnd
    obtain ⟨group, hg⟩ := Option.isSome_iff_exists.mp (h sig List.mem_cons_self)
    -- what is removed is not asked for again
    have hkeep : ∀ s ∈ order, Function.update groups sig none s = groups s := by
      intro s hs
      have hne : s ≠ sig := fun heq => hsig (heq ▸ hs)
      exact Function.update_of_ne hne _ _
    have ih : drainGroups order (Function.update groups sig none) =
        some (order.map fun s => (Function.update groups sig none s).getD []) := by
      refine drainGroups_eq hnd fun s hs => ?_
      rw [hkeep s hs]
      exact h s (List.mem_cons_of_mem sig hs)
    unfold drainGroups
    rw [hg, ih, List.map_cons, hg]
    simp only [Option.bind_eq_bind, Option.bind_some, Option.getD_some, Option.some.injEq,
      List.cons.injEq, true_and]
    exact List.map_congr_left fun s hs => by rw [hkeep s hs]

/-- The `expect` finds every group. -/
theorem drainGroups_collectBuckets (cs : List NzbCandidate) :
    drainGroups (collectBuckets cs).order (collectBuckets cs).groups =
      some (groupCandidates cs) := by
  obtain ⟨hord, hgr⟩ := collectBuckets_spec cs
  refine drainGroups_eq (hord ▸ nodup_eraseDups _) fun sig hsig => ?_
  rw [hgr, if_pos (List.mem_eraseDups.mp (hord ▸ hsig))]
  rfl

end StremioNzb.Addon

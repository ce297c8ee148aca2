import StremioNzb.Lib.Except
import StremioNzb.Lib.StableSort
import StremioNzb.Streaming.DiskCache
import StremioNzb.Streaming.Pipeline
import StremioNzb.Streaming.Words

/-!
# Preflight

`preflight.rs`: from the URL of an NZB to an `ActiveStream`. What the network, the parsers and
the file system answer is a `Net`; the code reads the post (`Net.readPost`), lays it out and
opens its cache file (`Net.probeCandidateInner`).
-/

namespace StremioNzb.Streaming

open StremioNzb.Lib

inductive PreflightError where
  | httpFetch (m : String)
  | httpStatus (code : Nat)
  | nzbTooLarge (size : Nat)
  | nzbParse (m : String)
  | noPlayableFile
  | nntpFetch (m : String)
  | decode (m : String)
  | emptyPayload
  | noNntpServers
  | rarEncrypted
  | rarCompressed (method : Nat)
  | rarHeaderParse (volume : Nat) (reason : String)
  | rarNoVideoFile
  | rarHeaderOverflow (volume : Nat)
  | internal (m : String)
  deriving DecidableEq, Repr

def PreflightError.display : PreflightError → String
  | httpFetch m => s!"HTTP fetch failed: {m}"
  | httpStatus code => s!"HTTP {code}"
  | nzbTooLarge size => s!"NZB too large: {size} bytes"
  | nzbParse m => s!"NZB parse failed: {m}"
  | noPlayableFile => "no playable file found in NZB"
  | nntpFetch m => s!"NNTP fetch failed: {m}"
  | decode m => s!"yEnc decode failed: {m}"
  | emptyPayload => "decoded payload empty"
  | noNntpServers => "no NNTP servers configured"
  | rarEncrypted => "RAR archive is encrypted (password protected)"
  | rarCompressed method => s!"RAR uses non-store compression: method {method}"
  | rarHeaderParse volume reason => s!"RAR header parse failed for volume {volume}: {reason}"
  | rarNoVideoFile => "RAR archive contains no playable file"
  | rarHeaderOverflow volume =>
    s!"RAR header overflow: not enough data in first segment for volume {volume}"
  | internal m => s!"internal error: {m}"

/-! ## What is read -/

/-- A file of an NZB with what the parser says of it. -/
structure NzbFile where
  name : Option String
  isRar : Bool
  isPar2 : Bool
  size : Nat
  segments : List Segment
  deriving DecidableEq, Repr

structure Nzb where
  files : List NzbFile
  passwords : List String
  deriving DecidableEq, Repr

/-- A decoded article. -/
structure Decoded where
  data : List UInt8
  /-- The `=ybegin size=`. -/
  fileSize : Option Nat
  deriving DecidableEq, Repr

structure FileHeader where
  filename : String
  isEncrypted : Bool
  compressionMethod : Nat
  uncompressedSize : Nat
  dataStartPosition : Nat
  dataSize : Nat
  deriving DecidableEq, Repr

inductive RarHeader where
  | file (fh : FileHeader)
  | archive
  | service
  | endArchive

inductive RarError where
  | encryptedHeaders
  | incorrectPassword
  | other (debug : String)

def RarError.debug : RarError → String
  | encryptedHeaders => "EncryptedHeaders"
  | incorrectPassword => "IncorrectPassword"
  | other debug => debug

inductive NzbFetchError where
  | httpStatus (code : Nat)
  | network (m : String)
  | tooLarge (size : Nat)
  | indexerThrottled

/-- The classes `\d` and `\w` of the regular expressions. -/
structure CharClasses where
  digit : Char → Bool
  word : Char → Bool

/-- What is outside: the network, the parsers, the file system. -/
structure Net where
  serverCount : Nat
  fetchNzbXml : String → Except NzbFetchError String
  parseNzb : String → Except String Nzb
  fetchArticle : Nat → String → Except String (List UInt8)
  redactLog : String → String
  decodeYenc : List UInt8 → Except String Decoded
  parseAllHeaders : List UInt8 → Option String → Except RarError (List RarHeader)
  classes : CharClasses
  root : String
  /-- The content of the cache file of that path, created where there is none. -/
  openFile : String → Except String (Nat → UInt8)

/-! ## Choosing files -/

/-- `min_by_key`: the first of the least. -/
def minByKey {α : Type} (key : α → Nat) : List α → Option α :=
  List.foldl (fun best x => match best with
    | none => some x
    | some b => if key x < key b then some x else some b) none

/-- `max_by_key`: the last of the greatest. -/
def maxByKey {α : Type} (key : α → Nat) : List α → Option α :=
  List.foldl (fun best x => match best with
    | none => some x
    | some b => if key b ≤ key x then some x else some b) none

def sortByKey {α : Type} (key : α → Nat) (xs : List α) : List α :=
  xs.insertionSort fun x y => key x ≤ key y

section SortByKey
variable {α : Type} {key : α → Nat} {xs : List α}

theorem total_key (key : α → Nat) : Std.Total fun x y : α => key x ≤ key y :=
  ⟨fun _ _ => Nat.le_total _ _⟩

theorem isTrans_key (key : α → Nat) : IsTrans α fun x y => key x ≤ key y :=
  ⟨fun _ _ _ => Nat.le_trans⟩

theorem sortByKey_perm (key : α → Nat) (xs : List α) : (sortByKey key xs).Perm xs :=
  xs.perm_insertionSort _

theorem pairwise_sortByKey (key : α → Nat) (xs : List α) :
    (sortByKey key xs).Pairwise fun x y => key x ≤ key y := by
  have := total_key key
  have := isTrans_key key
  exact xs.pairwise_insertionSort _

theorem sortByKey_of_pairwise (h : xs.Pairwise fun x y => key x ≤ key y) :
    sortByKey key xs = xs :=
  h.insertionSort_eq

theorem filter_sortByKey_comm (key : α → Nat) (p : α → Bool) (xs : List α) :
    (sortByKey key xs).filter p = sortByKey key (xs.filter p) := by
  have := total_key key
  have := isTrans_key key
  exact filter_insertionSort p xs

/-- The sort leaves elements of one key in their order. -/
theorem filter_sortByKey {p : α → Bool} (hp : ∀ x y, p x → p y → key x = key y) (xs : List α) :
    (sortByKey key xs).filter p = xs.filter p := by
  have hsame : (xs.filter p).Pairwise fun x y => key x ≤ key y :=
    List.pairwise_of_forall_mem_list fun x hx y hy =>
      (hp x y (List.mem_filter.mp hx).2 (List.mem_filter.mp hy).2).le
  rw [filter_sortByKey_comm, sortByKey_of_pairwise hsame]

end SortByKey

def guessContentType (fileName : String) : String :=
  let lower := fileName.toLower
  if lower.endsWith ".mkv" then "video/x-matroska"
  else if lower.endsWith ".mp4" || lower.endsWith ".m4v" then "video/mp4"
  else if lower.endsWith ".avi" then "video/x-msvideo"
  else if lower.endsWith ".webm" then "video/webm"
  else if lower.endsWith ".ts" then "video/mp2t"
  else "application/octet-stream"

inductive DetectedLayout where
  | flat (file : NzbFile)
  | rar

def NzbFile.hasVideoName (f : NzbFile) : Bool :=
  (f.name.map fun n =>
    let l := n.toLower
    [".mkv", ".mp4", ".m4v", ".avi", ".webm", ".ts"].any fun ext => l.endsWith ext).getD false

def pickMainFile (nzb : Nzb) : Except PreflightError DetectedLayout :=
  if nzb.files.any (·.isRar) then .ok .rar
  else
    let files := nzb.files.filter (!·.isPar2)
    match maxByKey (·.size) (files.filter (·.hasVideoName)) with
    | some f => .ok (.flat f)
    | none => match maxByKey (·.size) files with
      | some f => .ok (.flat f)
      | none => .error .noPlayableFile

/-! ## Finding RAR volumes -/

/-- What follows a literal, in either case. -/
def dropLiteral : List Char → List Char → Option (List Char)
  | [], cs => some cs
  | _ :: _, [] => none
  | l :: ls, c :: cs => if c.toLower = l then dropLiteral ls cs else none

/-- The first match at or after the start. -/
def firstMatch {α : Type} (matchAt : List Char → Option α) : List Char → Option α
  | [] => matchAt []
  | c :: cs => (matchAt (c :: cs)).or (firstMatch matchAt cs)

namespace CharClasses
variable (cls : CharClasses)

/-- `(?:[^.\w]|$)` -/
def boundary : List Char → Bool
  | [] => true
  | c :: _ => c ≠ '.' && !cls.word c

/-- `\.part(\d+)\.rar(?:[^.\w]|$)` -/
def partAt (cs : List Char) : Option (List Char) :=
  (dropLiteral ".part".toList cs).bind fun cs =>
    let digits := cs.takeWhile cls.digit
    (dropLiteral ".rar".toList (cs.drop digits.length)).bind fun rest =>
      if digits ≠ [] && cls.boundary rest then some digits else none

/-- `\.r(\d{2,3})(?:[^.\w]|$)`: a digit is no boundary, so all the digits are taken. -/
def oldStyleAt (cs : List Char) : Option (List Char) :=
  (dropLiteral ".r".toList cs).bind fun cs =>
    let digits := cs.takeWhile cls.digit
    if (digits.length = 2 || digits.length = 3) && cls.boundary (cs.drop digits.length) then
      some digits
    else none

/-- `parse::<u32>` of digits: only those of ASCII. -/
def parseU32 (digits : List Char) : Option Nat :=
  if digits.all (·.isDigit) then
    let n := digits.foldl (fun n c => 10 * n + (c.toNat - '0'.toNat)) 0
    if n < 2 ^ 32 then some n else none
  else none

def oldStyleVolumeNumber (name : String) : Option Nat :=
  ((firstMatch cls.oldStyleAt name.toList).bind parseU32).map (· + 1)

def partVolumeNumber (name : String) : Option Nat :=
  (firstMatch cls.partAt name.toList).bind parseU32

/-- The number of an old-style volume, `none` for a file that is not one. -/
def oldVolume (f : NzbFile) : Option (Nat × NzbFile) :=
  if f.isPar2 then none
  else f.name.bind fun name =>
    if name.toLower.endsWith ".rar" then some (1, f)
    else (cls.oldStyleVolumeNumber name).map fun n => (n + 1, f)

def findRarVolumes (nzb : Nzb) : List NzbFile :=
  let modern := nzb.files.filterMap fun f =>
    f.name.bind fun n => (cls.partVolumeNumber n).map fun p => (p, f)
  if modern ≠ [] then (sortByKey (·.1) modern).map (·.2)
  else (sortByKey (·.1) (nzb.files.filterMap cls.oldVolume)).map (·.2)

end CharClasses

/-! ## Articles and headers -/

/-- The preferred server first, then the others. -/
def fetchWithFailover {α : Type} (serverCount : Nat) (fetchArticle : Nat → Except String α)
    (preferred : Nat) : Except String (Nat × α) :=
  if serverCount = 0 then .error "no NNTP servers configured"
  else go (serverOrder serverCount preferred) none
where
  go : List Nat → Option String → Except String (Nat × α)
    | [], lastErr => .error (lastErr.getD "all servers failed")
    | idx :: rest, _ => match fetchArticle idx with
      | .ok bytes => .ok (idx, bytes)
      | .error e => go rest (some e)

namespace Net
variable (net : Net)

/-- The smoke fetch of an article, decoded. -/
def firstArticle (serverIndex : Nat) (messageId : String) : Except PreflightError Decoded := do
  let (_, raw) ← (fetchWithFailover net.serverCount (net.fetchArticle · messageId)
    serverIndex).mapError fun e => .nntpFetch (net.redactLog e)
  let decoded ← (net.decodeYenc raw).mapError .decode
  if decoded.data.isEmpty then throw .emptyPayload
  return decoded

def parseVolumeHeaders (buf : List UInt8) (passwords : List String) :
    Except RarError (List RarHeader) :=
  match net.parseAllHeaders buf none with
  | .ok headers => .ok headers
  | .error .encryptedHeaders => tryPasswords passwords
  | .error other => .error other
where
  tryPasswords : List String → Except RarError (List RarHeader)
    | [] => .error .encryptedHeaders
    | pw :: rest => match net.parseAllHeaders buf (some pw) with
      | .ok headers => .ok headers
      | .error .incorrectPassword => tryPasswords rest
      | .error other => .error other

def fetchAndParse (nzbUrl : String) : Except PreflightError Nzb := do
  let xml ← (net.fetchNzbXml nzbUrl).mapError fun
    | .httpStatus code => .httpStatus code
    | .network m => .httpFetch m
    | .tooLarge n => .nzbTooLarge n
    | .indexerThrottled => .httpStatus 503
  -- the parse error ends up below the context "parsing NZB" of an internal error
  (net.parseNzb xml).mapError fun _ => .internal "parsing NZB"

end Net

/-- The stored files among the headers of a volume. -/
def storedFiles (idx : Nat) : List RarHeader → Except PreflightError (List (Nat × FileHeader))
  | [] => .ok []
  | .file fh :: rest =>
    if fh.isEncrypted then .error .rarEncrypted
    else if fh.compressionMethod ≠ 0 then .error (.rarCompressed fh.compressionMethod)
    else (storedFiles idx rest).map fun more =>
      if fh.uncompressedSize = 0 then more else (idx, fh) :: more
  | _ :: rest => storedFiles idx rest

/-! ## The post -/

/-- What preflight has read of a post: the file that is played, as declared and as its first
article decodes, or the volumes that carry it and its size. -/
inductive Post where
  | flat (segments : List Segment) (stride : Nat) (fileSize : Option Nat)
  | rar (volumes : List RarVolumeGeom) (uncompressedSize : Nat)
  deriving DecidableEq

namespace Post

def layout : Post → FileLayout
  | flat segments stride fileSize =>
    let (segs, total) := rebuildForDecodedStride64 (buildSegmentRefs64 segments 0) stride fileSize
    ⟨segs, [⟨0, total, 0⟩]⟩
  | rar volumes _ =>
    let (segments, chunks, _) := buildRarLayout64 volumes
    ⟨segments, chunks⟩

def totalSize : Post → Nat
  | flat segments stride fileSize =>
    (rebuildForDecodedStride64 (buildSegmentRefs64 segments 0) stride fileSize).2
  | rar _ uncompressedSize => uncompressedSize

end Post

structure ActiveStream where
  candidateIdx : Nat
  totalSize : Nat
  contentType : String
  fileLayout : FileLayout
  cachePath : String
  cacheFile : CachedFile

namespace Net
variable (net : Net)

def readFlat (main : NzbFile) : Except PreflightError (Post × String) := do
  let first ← match buildSegmentRefs64 main.segments 0 with
    | [] => throw PreflightError.noPlayableFile
    | first :: _ => pure first
  let decoded ← net.firstArticle first.serverIndex first.messageId
  return (.flat main.segments decoded.data.length decoded.fileSize,
    (main.name.map guessContentType).getD "application/octet-stream")

/-- The first article of a volume. -/
def volumeFirst (idx : Nat) (v : NzbFile) : Except PreflightError Decoded :=
  match minByKey (·.number) v.segments with
  | none => .error (.rarHeaderOverflow idx)
  | some seg => net.firstArticle 0 seg.messageId

/-- The stored files of a volume. -/
def volumeFiles (passwords : List String) (idx : Nat) (first : Decoded) :
    Except PreflightError (List (Nat × FileHeader)) := do
  let headers ← (net.parseVolumeHeaders first.data passwords).mapError fun e =>
    .rarHeaderParse idx e.debug
  storedFiles idx headers

end Net

/-- The largest stored file. -/
def mainFile (allFileHeaders : List (Nat × FileHeader)) : Except PreflightError FileHeader :=
  match maxByKey (·.2.uncompressedSize) allFileHeaders with
  | none => .error .rarNoVideoFile
  | some (_, fh) => if fh.uncompressedSize = 0 then .error .rarNoVideoFile else .ok fh

def volumeGeom (v : NzbFile) (first : Decoded) (fh : FileHeader) : RarVolumeGeom where
  messageIds := (sortByNumber v.segments).map (·.messageId)
  decodedStride := first.data.length
  decodedFileSize := first.fileSize
  dataStart := fh.dataStartPosition
  dataSize := fh.dataSize

/-- Geometry of the volumes that carry the file; the others are skipped. -/
def rarGeom (volumes : List NzbFile) (volFirst : List Decoded)
    (allFileHeaders : List (Nat × FileHeader)) (targetFilename : String) : List RarVolumeGeom :=
  (volumes.zip volFirst).zipIdx.filterMap fun ((v, vf), idx) =>
    (allFileHeaders.find? fun (vi, fh) => vi = idx && fh.filename = targetFilename).map
      fun (_, fh) => volumeGeom v vf fh

namespace Net
variable (net : Net)

/-- Of several failing fetches the one that fails first ends the request; here the first in the
order of the volumes. -/
def readRar (nzb : Nzb) : Except PreflightError (Post × String) := do
  let volumes := net.classes.findRarVolumes nzb
  if volumes.isEmpty then throw .noPlayableFile
  let volFirst ← volumes.zipIdx.mapM fun (v, idx) => net.volumeFirst idx v
  let files ← volFirst.zipIdx.mapM fun (vf, idx) => net.volumeFiles nzb.passwords idx vf
  let main ← mainFile files.flatten
  let geom := rarGeom volumes volFirst files.flatten main.filename
  if geom.isEmpty then throw .rarNoVideoFile
  return (.rar geom main.uncompressedSize, guessContentType main.filename)

def readPost (nzbUrl : String) : Except PreflightError (Post × String) := do
  if net.serverCount = 0 then throw .noNntpServers
  let nzb ← net.fetchAndParse nzbUrl
  match ← pickMainFile nzb with
  | .rar => net.readRar nzb
  | .flat main => net.readFlat main

/-- `DiskCache::open` -/
def openCache (token : String) (totalSize : Nat) : Except String CachedFile :=
  (net.openFile s!"{net.root}/{token}.bin").map fun content => .openOrCreate content totalSize

/-- `probe_candidate_inner`, with `probe_rar_inner` for RAR volumes. -/
def probeCandidateInner (nzbUrl token : String) : Except PreflightError ActiveStream := do
  let (post, contentType) ← net.readPost nzbUrl
  let cacheFile ← (net.openCache token post.layout.assembledSize64).mapError fun e =>
    .internal s!"cache open: {e}"
  return {
    candidateIdx := 0
    totalSize := post.totalSize
    contentType := contentType
    fileLayout := post.layout
    cachePath := s!"{net.root}/{token}.bin"
    cacheFile := cacheFile }

end Net

end StremioNzb.Streaming

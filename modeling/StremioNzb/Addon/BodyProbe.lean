import Mathlib.Tactic.ByContra
import StremioNzb.Lib.ByteStream
import StremioNzb.Lib.Utf8

/-!
# The `BODY` probe

`run_body_probe` of `nzb_availability.rs`: what it sends and returns for what it reads. A read
that gives no bytes is the end of the stream; after the last read the probe waits.
-/

namespace StremioNzb.Addon

open StremioNzb.Lib

/-- The size of the read buffer. -/
def readSize : Nat := 1024

inductive Command where
  | authUser (username : String)
  | authPass (password : String)
  | body (messageId : String)
  deriving DecidableEq, Repr

def Command.text : Command → String
  | authUser username => s!"AUTHINFO USER {username}\r\n"
  | authPass password => s!"AUTHINFO PASS {password}\r\n"
  | body messageId => s!"BODY <{messageId}>\r\n"

/-- Why a probe fails; `utf8` is without the position in the read. -/
inductive ProbeError where
  | closed
  | utf8
  | auth (line : List UInt8)
  | server (line : List UInt8)
  deriving DecidableEq, Repr

/-- The credentials, and the article that is asked for. -/
structure Prober where
  username : String
  password : String
  messageId : String

/-- A conversation so far. -/
structure Talk where
  authenticated : Bool
  sent : List Command
  verdict : Option (Except ProbeError Bool)

def Talk.say (talk : Talk) (command : Command) : Talk :=
  { talk with sent := talk.sent ++ [command] }

def Talk.decide (talk : Talk) (verdict : Except ProbeError Bool) : Talk :=
  { talk with verdict := some verdict }

/-! ## Lines -/

def digitValue (b : UInt8) : Option Nat :=
  if 48 ≤ b ∧ b ≤ 57 then some (b.toNat - 48) else none

/-- `parse::<u16>` of at most three bytes, too few to overflow; one `+` may come first. -/
def parseCode (bs : List UInt8) : Option Nat :=
  let digits := if bs.head? = some 43 then bs.tail else bs
  if digits = [] then none
  else (digits.mapM digitValue).map fun ds => ds.foldl (fun n d => 10 * n + d) 0

/-- `line.get(..3)`: there are three bytes, and no character goes on after them. -/
def leadingThree (line : List UInt8) : Option (List UInt8) :=
  if line.length < 3 then none
  else match line.drop 3 with
    | b :: _ => if 128 ≤ b ∧ b < 192 then none else some (line.take 3)
    | [] => some (line.take 3)

/-- The status code of a line, `0` where it has none. -/
def lineCode (line : List UInt8) : Nat := ((leadingThree line).bind parseCode).getD 0

/-- What a line of that code makes the probe return, if anything. -/
def outcomeOf (code : Nat) (line : List UInt8) : Option (Except ProbeError Bool) :=
  if 480 ≤ code ∧ code < 490 then some (.error (.auth line))
  else if code = 222 then some (.ok true)
  else if code = 430 ∨ code = 423 then some (.ok false)
  else if 500 ≤ code then some (.error (.server line))
  else none

/-- The line ends the conversation. -/
def decisive (line : List UInt8) : Bool := (outcomeOf (lineCode line) line).isSome

/-- A client, authenticated or not, answers the line with a command. -/
def speaks (authenticated : Bool) (line : List UInt8) : Bool :=
  lineCode line = 381 || lineCode line = 281 ||
    (lineCode line = 200 || lineCode line = 201) && !authenticated

namespace Prober
variable (p : Prober)

def start : Talk where
  authenticated := p.username = "" && p.password = ""
  sent := []
  verdict := none

/-- The body of the inner loop, for a line of that code. -/
def react (talk : Talk) (code : Nat) (line : List UInt8) : Talk :=
  if (code = 200 ∨ code = 201) ∧ talk.authenticated = false then
    if p.username ≠ "" ∧ p.password ≠ "" then talk.say (.authUser p.username)
    else { talk with authenticated := true }.say (.body p.messageId)
  else if code = 381 then talk.say (.authPass p.password)
  else if code = 281 then { talk with authenticated := true }.say (.body p.messageId)
  else if 480 ≤ code ∧ code < 490 then talk.decide (.error (.auth line))
  else if code = 222 then talk.decide (.ok true)
  else if code = 430 ∨ code = 423 then talk.decide (.ok false)
  else if 500 ≤ code then talk.decide (.error (.server line))
  else talk

/-- A line, unless the probe has returned. -/
def hear (talk : Talk) (line : List UInt8) : Talk :=
  if talk.verdict.isSome then talk else p.react talk (lineCode line) line

/-! ## Reads -/

/-- The inner loop: the complete lines of the buffer, until one decides. -/
def drainLines : Nat → Talk → List UInt8 → Talk × List UInt8
  | 0, talk, buf => (talk, buf)
  | fuel + 1, talk, buf => match findCrlf buf with
    | none => (talk, buf)
    | some (line, rest) =>
      let talk := p.hear talk line
      if talk.verdict.isSome then (talk, rest) else drainLines fuel talk rest

/-- One turn of the outer loop, on what was read. -/
def readOnce (talk : Talk) (buf chunk : List UInt8) : Talk × List UInt8 :=
  if chunk = [] then (talk.decide (.error .closed), buf)
  else if IsUtf8 chunk then p.drainLines (buf ++ chunk).length talk (buf ++ chunk)
  else (talk.decide (.error .utf8), buf)

def readLoop : Talk → List UInt8 → List (List UInt8) → Talk
  | talk, _, [] => talk
  | talk, buf, chunk :: rest =>
    let (talk, buf) := p.readOnce talk buf chunk
    if talk.verdict.isSome then talk else readLoop talk buf rest

def runBodyProbe (chunks : List (List UInt8)) : Talk := p.readLoop p.start [] chunks

/-! ## What the lines say -/

/-- The conversation after these lines. -/
def hearAll (talk : Talk) (lines : List (List UInt8)) : Talk := lines.foldl p.hear talk

/-- The conversation after the complete lines among these bytes. -/
def heard (bytes : List UInt8) : Talk := p.hearAll p.start (linesOf bytes).complete

/-- The line authenticates the client: a 281, or a greeting where a credential is empty. -/
def grants (line : List UInt8) : Bool :=
  lineCode line = 281 ||
    (lineCode line = 200 || lineCode line = 201) && (p.username = "" || p.password = "")

/-- The line is answered with a command when it comes after these. -/
def replies (before : List (List UInt8)) (line : List UInt8) : Bool :=
  speaks (p.start.authenticated || before.any p.grants) line

end Prober

section
variable {p : Prober} {talk : Talk} {line : List UInt8} {lines : List (List UInt8)}

theorem hear_of_none (h : talk.verdict = none) :
    p.hear talk line = p.react talk (lineCode line) line := by
  rw [Prober.hear, h]
  rfl

theorem hear_of_verdict (h : talk.verdict ≠ none) : p.hear talk line = talk := by
  rw [Prober.hear, if_pos (Option.isSome_iff_ne_none.mpr h)]

theorem hearAll_of_verdict (h : talk.verdict ≠ none) : p.hearAll talk lines = talk := by
  induction lines with
  | nil => rfl
  | cons line lines ih =>
    rw [Prober.hearAll, List.foldl_cons, hear_of_verdict h]
    exact ih

theorem hearAll_append (talk : Talk) (lines lines' : List (List UInt8)) :
    p.hearAll talk (lines ++ lines') = p.hearAll (p.hearAll talk lines) lines' :=
  List.foldl_append

theorem react_verdict (code : Nat) : (p.react talk code line).verdict =
    (outcomeOf code line).or talk.verdict := by
  unfold Prober.react
  split
  · next h =>
    have hcode : outcomeOf code line = none := by rcases h.1 with rfl | rfl <;> rfl
    rw [hcode]
    split <;> rfl
  · split
    · next h =>
      subst h
      rfl
    · split
      · next h =>
        subst h
        rfl
      · unfold outcomeOf
        split
        · rfl
        · split
          · rfl
          · split
            · rfl
            · split <;> rfl

/-- **The first decisive line is the verdict.** -/
theorem hearAll_verdict (hv : talk.verdict = none) : (p.hearAll talk lines).verdict =
    (lines.find? decisive).bind fun line => outcomeOf (lineCode line) line := by
  induction lines generalizing talk with
  | nil => exact hv
  | cons line lines ih =>
    have hstep : (p.hear talk line).verdict = outcomeOf (lineCode line) line := by
      rw [hear_of_none hv, react_verdict, hv, Option.or_none]
    change (p.hearAll (p.hear talk line) lines).verdict = _
    rw [List.find?_cons]
    cases hd : decisive line with
    | false =>
      refine ih (hstep.trans ?_)
      simpa [decisive] using hd
    | true =>
      have hne : (p.hear talk line).verdict ≠ none := by
        rw [hstep]
        exact Option.isSome_iff_ne_none.mp hd
      rw [hearAll_of_verdict hne]
      exact hstep

theorem hear_sent : talk.sent <+: (p.hear talk line).sent := by
  unfold Prober.hear Prober.react Talk.say Talk.decide
  repeat' split
  all_goals simp

theorem hearAll_sent : talk.sent <+: (p.hearAll talk lines).sent := by
  induction lines generalizing talk with
  | nil => exact List.prefix_refl _
  | cons line lines ih => exact hear_sent.trans ih

/-! ### The lines that are answered -/

theorem hear_authenticated (hv : talk.verdict = none) :
    (p.hear talk line).authenticated = (talk.authenticated || p.grants line) := by
  rw [hear_of_none hv]
  unfold Prober.react Prober.grants
  grind [Talk.say, Talk.decide]

theorem hear_sent_eq_iff (hv : talk.verdict = none) :
    (p.hear talk line).sent = talk.sent ↔ speaks talk.authenticated line = false := by
  have hsay : ∀ (talk' : Talk) (c : Command), talk'.sent = talk.sent →
      ((talk'.say c).sent = talk.sent ↔ False) := by
    intro talk' c h
    simp [Talk.say, h]
  have hdecide : ∀ verdict, (talk.decide verdict).sent = talk.sent := fun _ => rfl
  rw [hear_of_none hv]
  unfold Prober.react speaks
  grind

theorem hear_undecided (hv : talk.verdict = none) (h : decisive line = false) :
    (p.hear talk line).verdict = none := by
  rw [hear_of_none hv, react_verdict, hv, Option.or_none]
  simpa [decisive] using h

theorem hearAll_authenticated (hv : talk.verdict = none)
    (h : ∀ line ∈ lines, decisive line = false) :
    (p.hearAll talk lines).authenticated = (talk.authenticated || lines.any p.grants) := by
  induction lines generalizing talk with
  | nil => simp [Prober.hearAll]
  | cons line lines ih =>
    obtain ⟨hl, h⟩ := List.forall_mem_cons.mp h
    change (p.hearAll (p.hear talk line) lines).authenticated = _
    rw [ih (hear_undecided hv hl) h, hear_authenticated hv, List.any_cons, Bool.or_assoc]

/-- **No command is sent for the lines exactly when none of them is answered.** -/
theorem hearAll_sent_eq_iff (hv : talk.verdict = none)
    (h : ∀ line ∈ lines, decisive line = false) :
    (p.hearAll talk lines).sent = talk.sent ↔
      ∀ before line after, lines = before ++ line :: after →
        speaks (talk.authenticated || before.any p.grants) line = false := by
  induction lines generalizing talk with
  | nil => simp [Prober.hearAll]
  | cons l lines ih =>
    obtain ⟨hl, h⟩ := List.forall_mem_cons.mp h
    have ih := ih (hear_undecided (p := p) hv hl) h
    rw [hear_authenticated hv] at ih
    change (p.hearAll (p.hear talk l) lines).sent = _ ↔ _
    constructor
    · intro heq before line after hsplit
      -- what is sent only grows, so nothing is sent for the first line either
      have hfirst : (p.hear talk l).sent = talk.sent := by
        have hle : (p.hear talk l).sent.length ≤ (p.hearAll (p.hear talk l) lines).sent.length :=
          hearAll_sent.length_le
        rw [heq] at hle
        exact ((hear_sent (p := p)).eq_of_length_le hle).symm
      rw [← hfirst] at heq
      cases before with
      | nil =>
        cases hsplit
        simpa using (hear_sent_eq_iff hv).mp hfirst
      | cons b before =>
        cases hsplit
        rw [List.any_cons, ← Bool.or_assoc]
        exact ih.mp heq before line after rfl
    · intro hall
      have hfirst := (hear_sent_eq_iff (p := p) hv).mpr (by simpa using hall [] l lines rfl)
      rw [← hfirst]
      refine ih.mpr fun before line after hsplit => ?_
      have := hall (l :: before) line after (by rw [hsplit, List.cons_append])
      rwa [List.any_cons, ← Bool.or_assoc] at this

/-! ### The conversation on a stream -/

theorem heard_append_eq (bs cs : List UInt8) : p.heard (bs ++ cs) =
    p.hearAll (p.heard bs) (Lines.pushAll ⟨[], (linesOf bs).partial_⟩ cs).complete := by
  rw [Prober.heard, linesOf_append_eq, hearAll_append]
  rfl

/-- After the verdict the rest of the stream does not matter. -/
theorem heard_append_of_verdict {bs : List UInt8} (h : (p.heard bs).verdict ≠ none)
    (cs : List UInt8) : p.heard (bs ++ cs) = p.heard bs := by
  rw [heard_append_eq, hearAll_of_verdict h]

theorem heard_sent_append (bs cs : List UInt8) :
    (p.heard bs).sent <+: (p.heard (bs ++ cs)).sent := by
  rw [heard_append_eq]
  exact hearAll_sent

theorem heard_verdict (bs : List UInt8) : (p.heard bs).verdict =
    ((linesOf bs).complete.find? decisive).bind fun line => outcomeOf (lineCode line) line :=
  hearAll_verdict rfl

/-- There is no verdict as long as no line decides. -/
theorem heard_undecided_iff (bs : List UInt8) : (p.heard bs).verdict = none ↔
    ∀ line ∈ (linesOf bs).complete, decisive line = false := by
  rw [heard_verdict, Option.bind_eq_none_iff]
  constructor
  · intro h line hl
    by_contra hd
    cases hf : (linesOf bs).complete.find? decisive with
    | none => exact hd (by simpa using List.find?_eq_none.mp hf line hl)
    | some first =>
      have hsome := List.find?_some hf
      rw [decisive, h first hf] at hsome
      cases hsome
  · intro h line hf
    have hd := List.find?_some hf
    rw [h line (List.mem_of_find?_eq_some hf)] at hd
    cases hd

/-- **The inner loop hears the lines that the read completes.** -/
theorem drainLines_eq (fuel : Nat) (talk : Talk) (t bs : List UInt8) (ht : findCrlf t = none)
    (hfuel : (t ++ bs).length ≤ fuel) (hv : talk.verdict = none) :
    (p.drainLines fuel talk (t ++ bs)).1 =
        p.hearAll talk (Lines.pushAll ⟨[], t⟩ bs).complete ∧
      ((p.drainLines fuel talk (t ++ bs)).1.verdict = none →
        (p.drainLines fuel talk (t ++ bs)).2 = (Lines.pushAll ⟨[], t⟩ bs).partial_) := by
  induction fuel generalizing talk t bs with
  | zero =>
    obtain ⟨rfl, rfl⟩ := List.append_eq_nil_iff.mp (List.length_eq_zero_iff.mp
      (Nat.le_zero.mp hfuel))
    exact ⟨rfl, fun _ => rfl⟩
  | succ fuel ih =>
    rw [push_of_findCrlf [] ht, Prober.drainLines]
    cases hf : findCrlf (t ++ bs) with
    | none => exact ⟨rfl, fun _ => rfl⟩
    | some found =>
      obtain ⟨line, rest⟩ := found
      have hlen := length_of_findCrlf hf
      simp only [List.nil_append]
      rw [pushAll_eq, hearAll_append]
      change _ = p.hearAll (p.hear talk line) _ ∧ _
      by_cases hd : (p.hear talk line).verdict = none
      · simp only [hd, Option.isSome_none, Bool.false_eq_true, if_false]
        obtain ⟨h1, h2⟩ := ih (p.hear talk line) [] rest rfl (by
          rw [List.nil_append]
          omega) hd
        rw [List.nil_append] at h1 h2
        exact ⟨h1, h2⟩
      · simp only [Option.isSome_iff_ne_none.mpr hd, if_true]
        rw [hearAll_of_verdict hd]
        exact ⟨rfl, fun hn => absurd hn hd⟩

/-- **A read that is text takes the conversation on the bytes before it to that on the bytes
with it.** -/
theorem readLoop_cons {bs chunk : List UInt8} {rest : List (List UInt8)} (hne : chunk ≠ [])
    (hv : (p.heard bs).verdict = none) :
    p.readLoop (p.heard bs) (linesOf bs).partial_ (chunk :: rest) =
      if IsUtf8 chunk then
        if (p.heard (bs ++ chunk)).verdict = none then
          p.readLoop (p.heard (bs ++ chunk)) (linesOf (bs ++ chunk)).partial_ rest
        else p.heard (bs ++ chunk)
      else (p.heard bs).decide (.error .utf8) := by
  obtain ⟨h1, h2⟩ := drainLines_eq _ (p.heard bs) _ chunk (findCrlf_linesOf bs) (Nat.le_refl _) hv
  rw [← heard_append_eq] at h1
  rw [h1] at h2
  rw [Prober.readLoop, Prober.readOnce, if_neg hne]
  by_cases hu : IsUtf8 chunk
  · simp only [if_pos hu, h1]
    by_cases hd : (p.heard (bs ++ chunk)).verdict = none
    · rw [h2 hd, linesOf_append_eq]
      simp [hd]
    · simp [hd, Option.isSome_iff_ne_none]
  · simp [hu, Talk.decide]

end

end StremioNzb.Addon

import StremioNzb.Addon.BodyProbe
import StremioNzb.Lib.Runs

/-!
# The probe and a server

`run_body_probe` against a server that keeps to the protocol: it greets, answers the commands in
their order, and may send lines for information in between. What it sends is read in pieces of
any size, so a step of one party may come between any two steps of the other.
-/

namespace StremioNzb.Addon

open StremioNzb.Lib

/-- `granted`: it has accepted the credentials; `article`: the code it answered to `BODY`. -/
structure Server where
  greeted : Bool
  answered : Nat
  granted : Bool
  article : Option Nat
  deriving DecidableEq

structure Dialogue where
  /-- Sent by the server, not read yet. -/
  wire : List UInt8
  buf : List UInt8
  talk : Talk
  server : Server

def Dialogue.init (p : Prober) : Dialogue := ⟨[], [], p.start, ⟨false, 0, false, none⟩⟩

inductive DialogueAct where
  | greet (line : List UInt8)
  | inform (line : List UInt8)
  | answer (line : List UInt8)
  /-- Bytes of the article. -/
  | article (bytes : List UInt8)
  | read (n : Nat)

/-- The codes that mean something to the client. -/
def significant (code : Nat) : Bool :=
  400 ≤ code || code = 200 || code = 201 || code = 222 || code = 281 || code = 381

/-- The codes that answer a command. -/
def Command.answers : Command → List Nat
  | authUser _ => [381, 281]
  | authPass _ => [281]
  | body _ => [222, 430, 423]

def Command.isBody : Command → Bool
  | body _ => true
  | _ => false

def Dialogue.put (s : Dialogue) (line : List UInt8) : Dialogue :=
  { s with wire := s.wire ++ (line ++ crlf) }

/-- The server after an answer of that code to that command. -/
def Server.answer (server : Server) (command : Command) (code : Nat) : Server where
  greeted := server.greeted
  answered := server.answered + 1
  granted := server.granted || code = 281
  article := if command.isBody then some code else server.article

def dialogueStep (p : Prober) (s : Dialogue) : DialogueAct → Option Dialogue
  | .greet line =>
    if findCrlf line = none ∧ s.server.greeted = false ∧
        (lineCode line = 200 ∨ lineCode line = 201) then
      some { s.put line with server := { s.server with greeted := true } }
    else none
  | .inform line =>
    if findCrlf line = none ∧ significant (lineCode line) = false then some (s.put line) else none
  | .answer line => match s.talk.sent[s.server.answered]? with
    | some command =>
      if findCrlf line = none ∧ lineCode line ∈ command.answers then
        some { s.put line with server := s.server.answer command (lineCode line) }
      else none
    | none => none
  | .article bytes =>
    if s.server.article = some 222 then some { s with wire := s.wire ++ bytes } else none
  | .read n =>
    if s.talk.verdict = none ∧ 0 < n ∧ n ≤ readSize ∧ n ≤ s.wire.length then
      let (talk, buf) := p.readOnce s.talk s.buf (s.wire.take n)
      some { s with wire := s.wire.drop n, buf := buf, talk := talk }
    else none

/-- What is read is text. -/
def DialogueAct.Decodes (s : Dialogue) : DialogueAct → Prop
  | .read n => IsUtf8 (s.wire.take n)
  | _ => True

/-- The server has something to say, or has said something that is not read. -/
def Dialogue.Pending (s : Dialogue) : Prop :=
  s.server.greeted = false ∨ s.wire ≠ [] ∨ s.server.answered < s.talk.sent.length

/-- `BODY` is sent for the article once, after the server accepted the credentials if there are
both, and the probe returns what the server answered to it; until it returns there is something
to wait for. -/
structure Right (p : Prober) (s : Dialogue) : Prop where
  body_only : ∀ c ∈ s.talk.sent, c.isBody = true → c = .body p.messageId
  body_le : s.talk.sent.countP Command.isBody ≤ 1
  body_once : s.talk.verdict ≠ none → s.talk.sent.countP Command.isBody = 1
  authenticated : p.username ≠ "" → p.password ≠ "" → .body p.messageId ∈ s.talk.sent →
    s.server.granted = true
  verdict : ∀ result, s.talk.verdict = some result →
    ∃ code, s.server.article = some code ∧ result = .ok (code = 222)
  waits : s.talk.verdict = none → s.Pending

/-! ## The phases of a dialogue -/

def Prober.both (p : Prober) : Prop := p.username ≠ "" ∧ p.password ≠ ""

/-- The commands before `BODY`, and whether the server has accepted credentials then. -/
inductive Opening (p : Prober) : List Command → Bool → Prop where
  | direct : ¬ p.both → Opening p [] false
  | user : p.both → Opening p [.authUser p.username] true
  | pass : p.both → Opening p [.authUser p.username, .authPass p.password] true

/-- Where both parties are before the verdict, with the codes that the client has not heard. -/
inductive Phase (p : Prober) : Talk → Server → List Nat → Prop where
  | connecting : Phase p ⟨false, [], none⟩ ⟨false, 0, false, none⟩ []
  | greeting {code : Nat} : code = 200 ∨ code = 201 →
      Phase p ⟨false, [], none⟩ ⟨true, 0, false, none⟩ [code]
  | user : p.both → Phase p ⟨false, [.authUser p.username], none⟩ ⟨true, 0, false, none⟩ []
  | passWanted : p.both →
      Phase p ⟨false, [.authUser p.username], none⟩ ⟨true, 1, false, none⟩ [381]
  | pass : p.both → Phase p ⟨false, [.authUser p.username, .authPass p.password], none⟩
      ⟨true, 1, false, none⟩ []
  | accepted {sent : List Command} : Opening p sent true →
      Phase p ⟨false, sent, none⟩ ⟨true, sent.length, true, none⟩ [281]
  | body {sent : List Command} {granted : Bool} : Opening p sent granted →
      Phase p ⟨true, sent ++ [.body p.messageId], none⟩ ⟨true, sent.length, granted, none⟩ []
  | article {sent : List Command} {granted : Bool} {code : Nat} : Opening p sent granted →
      code = 222 ∨ code = 430 ∨ code = 423 →
      Phase p ⟨true, sent ++ [.body p.messageId], none⟩
        ⟨true, sent.length + 1, granted, some code⟩ [code]

/-- Where both are after it. -/
inductive Returned (p : Prober) : Talk → Server → Prop where
  | intro {sent : List Command} {granted : Bool} {code : Nat} : Opening p sent granted →
      code = 222 ∨ code = 430 ∨ code = 423 →
      Returned p ⟨true, sent ++ [.body p.messageId], some (.ok (code = 222))⟩
        ⟨true, sent.length + 1, granted, some code⟩

/-- The codes among lines that mean something. -/
def codes (lines : List (List UInt8)) : List Nat := (lines.map lineCode).filter significant

def encodeLines (lines : List (List UInt8)) : List UInt8 := (lines.map (· ++ crlf)).flatten

/-- The bytes in the buffer and on the wire are the lines not heard, and what there is of the
article. -/
structure InFlight (p : Prober) (buf wire : List UInt8) (talk : Talk) (server : Server)
    (lines : List (List UInt8)) (extra : List UInt8) : Prop where
  bytes : buf ++ wire = encodeLines lines ++ extra
  whole : ∀ line ∈ lines, findCrlf line = none
  extra : extra ≠ [] → server.article = some 222
  phase : Phase p talk server (codes lines)

inductive DialogueInv (p : Prober) (s : Dialogue) : Prop where
  | talking {lines : List (List UInt8)} {extra : List UInt8} : findCrlf s.buf = none →
      InFlight p s.buf s.wire s.talk s.server lines extra → DialogueInv p s
  | returned : Returned p s.talk s.server → DialogueInv p s

section
variable {p : Prober} {s t : Dialogue} {talk : Talk} {server : Server} {line : List UInt8}
  {lines : List (List UInt8)} {extra buf wire : List UInt8}

/-! ### The client hears a line -/

theorem hear_insignificant (h : significant (lineCode line) = false) :
    p.hear talk line = talk := by
  unfold Prober.hear
  split
  · rfl
  · simp only [significant, Bool.or_eq_false_iff, decide_eq_false_iff_not] at h
    unfold Prober.react
    rw [if_neg (by omega), if_neg (by omega), if_neg (by omega), if_neg (by omega),
      if_neg (by omega), if_neg (by omega), if_neg (by omega)]

/-- **A line that means something moves the client to the next phase.** -/
theorem Phase.hear {code : Nat} {rest : List Nat} (h : Phase p talk server (code :: rest))
    (hc : lineCode line = code) :
    (p.hear talk line).verdict = none ∧ Phase p (p.hear talk line) server rest ∨
      Returned p (p.hear talk line) server := by
  cases h with
  | greeting hcode =>
    refine .inl ?_
    rw [hear_of_none rfl, hc, Prober.react, if_pos ⟨hcode, rfl⟩]
    by_cases hb : p.username ≠ "" ∧ p.password ≠ ""
    · rw [if_pos hb]
      exact ⟨rfl, .user hb⟩
    · rw [if_neg hb]
      exact ⟨rfl, .body (.direct hb)⟩
  | passWanted hb =>
    refine .inl ?_
    rw [hear_of_none rfl, hc]
    exact ⟨rfl, .pass hb⟩
  | accepted hop =>
    refine .inl ?_
    rw [hear_of_none rfl, hc]
    exact ⟨rfl, .body hop⟩
  | article hop hcode =>
    refine .inr ?_
    rw [hear_of_none rfl, hc]
    rcases hcode with rfl | rfl | rfl
    · exact .intro hop (.inl rfl)
    · exact .intro hop (.inr (.inl rfl))
    · exact .intro hop (.inr (.inr rfl))

/-- With the answer to `BODY` there is a line not heard, as long as there is no verdict. -/
theorem Phase.article_eq_none (h : Phase p talk server []) : server.article = none := by
  cases h <;> rfl

theorem Phase.verdict {rest : List Nat} (h : Phase p talk server rest) : talk.verdict = none := by
  cases h <;> rfl

theorem Returned.verdict (h : Returned p talk server) : talk.verdict.isSome = true := by
  cases h
  rfl

theorem Phase.hearLine (h : Phase p talk server (codes (line :: lines))) :
    (p.hear talk line).verdict = none ∧ Phase p (p.hear talk line) server (codes lines) ∨
      Returned p (p.hear talk line) server := by
  cases hs : significant (lineCode line) with
  | false =>
    rw [codes, List.map_cons, List.filter_cons_of_neg (by simp [hs])] at h
    rw [hear_insignificant hs]
    exact .inl ⟨h.verdict, h⟩
  | true =>
    rw [codes, List.map_cons, List.filter_cons_of_pos hs] at h
    exact h.hear rfl

theorem findCrlf_encodeLines (h : findCrlf line = none) :
    findCrlf (encodeLines (line :: lines) ++ extra) =
      some (line, encodeLines lines ++ extra) := by
  have henc : encodeLines (line :: lines) ++ extra =
      line ++ crlf ++ (encodeLines lines ++ extra) := by
    simp [encodeLines]
  rw [henc, findCrlf_line h]

/-- A line in the buffer is the first in flight. -/
theorem InFlight.first {rest : List UInt8} (h : InFlight p buf wire talk server lines extra)
    (hf : findCrlf buf = some (line, rest)) :
    ∃ lines', lines = line :: lines' ∧ rest ++ wire = encodeLines lines' ++ extra := by
  have hfirst := findCrlf_append hf wire
  rw [h.bytes] at hfirst
  cases lines with
  | nil =>
    -- a line end in the article, after its status line was heard
    have hne : extra ≠ [] := fun he => by
      subst he
      cases hfirst
    have hart := h.extra hne
    rw [h.phase.article_eq_none] at hart
    cases hart
  | cons l lines' =>
    rw [findCrlf_encodeLines (h.whole l List.mem_cons_self)] at hfirst
    obtain ⟨rfl, hrest⟩ := Prod.mk.inj (Option.some.inj hfirst)
    exact ⟨lines', rfl, hrest.symm⟩

/-- **The inner loop hears the lines in flight, one after the other.** -/
theorem InFlight.drainLines (fuel : Nat) (hfuel : buf.length ≤ fuel)
    (h : InFlight p buf wire talk server lines extra) :
    Returned p (p.drainLines fuel talk buf).1 server ∨
      ∃ lines', findCrlf (p.drainLines fuel talk buf).2 = none ∧
        InFlight p (p.drainLines fuel talk buf).2 wire (p.drainLines fuel talk buf).1 server
          lines' extra := by
  induction fuel generalizing talk buf lines with
  | zero =>
    obtain rfl := List.length_eq_zero_iff.mp (Nat.le_zero.mp hfuel)
    exact .inr ⟨lines, rfl, h⟩
  | succ fuel ih =>
    rw [Prober.drainLines]
    cases hf : findCrlf buf with
    | none => exact .inr ⟨lines, hf, h⟩
    | some found =>
      obtain ⟨line, rest⟩ := found
      have hlen := length_of_findCrlf hf
      obtain ⟨lines', rfl, hrest⟩ := h.first hf
      simp only
      rcases h.phase.hearLine with ⟨hv, hphase⟩ | hr
      · rw [hv]
        exact ih (by omega) ⟨hrest, fun l hl => h.whole l (List.mem_cons_of_mem _ hl),
          h.extra, hphase⟩
      · rw [if_pos hr.verdict]
        exact .inl hr

/-! ### A step of either party -/

theorem codes_concat_of_false (hs : significant (lineCode line) = false) :
    codes (lines ++ [line]) = codes lines := by
  simp [codes, hs]

theorem codes_concat_of_true (hs : significant (lineCode line) = true) :
    codes (lines ++ [line]) = codes lines ++ [lineCode line] := by
  simp [codes, hs]

/-- The server sends a line, behind which the phase is another. -/
theorem InFlight.put (h : InFlight p buf wire talk server lines extra)
    (hline : findCrlf line = none) (hextra : extra = []) {server' : Server}
    (hphase : Phase p talk server' (codes (lines ++ [line]))) :
    InFlight p buf (wire ++ (line ++ crlf)) talk server' (lines ++ [line]) [] := by
  subst hextra
  refine ⟨?_, fun l hl => ?_, fun hne => absurd rfl hne, hphase⟩
  · rw [← List.append_assoc, h.bytes]
    simp [encodeLines]
  · rcases List.mem_append.mp hl with hl | hl
    · exact h.whole l hl
    · rwa [List.mem_singleton.mp hl]

/-- The server sends more of the article, or a line behind it. -/
theorem InFlight.more (h : InFlight p buf wire talk server lines extra)
    (hart : server.article = some 222) (bytes : List UInt8) :
    InFlight p buf (wire ++ bytes) talk server lines (extra ++ bytes) :=
  ⟨by rw [← List.append_assoc, h.bytes, List.append_assoc], h.whole, fun _ => hart, h.phase⟩

theorem extra_eq_nil (h : InFlight p buf wire talk server lines extra)
    (hart : server.article = none) : extra = [] := by
  by_contra hne
  rw [h.extra hne] at hart
  cases hart

theorem mem_answers_user {username : String} {code : Nat} :
    code ∈ (Command.authUser username).answers ↔ code = 381 ∨ code = 281 := by
  simp [Command.answers]

theorem mem_answers_body {messageId : String} {code : Nat} :
    code ∈ (Command.body messageId).answers ↔ code = 222 ∨ code = 430 ∨ code = 423 := by
  simp [Command.answers]

/-- **An answer to the next command puts it where the client waits for it.** -/
theorem Phase.answer {rest : List Nat} {command : Command} {code : Nat}
    (h : Phase p talk server rest) (hnext : talk.sent[server.answered]? = some command)
    (hcode : code ∈ command.answers) :
    server.article = none ∧ Phase p talk (server.answer command code) (rest ++ [code]) := by
  cases h with
  | connecting => cases hnext
  | greeting hc => cases hnext
  | user hb =>
    cases hnext
    rcases mem_answers_user.mp hcode with rfl | rfl
    · exact ⟨rfl, .passWanted hb⟩
    · exact ⟨rfl, .accepted (.user hb)⟩
  | passWanted hb => cases hnext
  | pass hb =>
    cases hnext
    rw [List.mem_singleton.mp hcode]
    exact ⟨rfl, .accepted (.pass hb)⟩
  | accepted hop => simp at hnext
  | @body sent granted hop =>
    rw [List.getElem?_concat_length] at hnext
    cases hnext
    have hc := mem_answers_body.mp hcode
    have hgranted : (granted || decide (code = 281)) = granted := by
      have hne : code ≠ 281 := by omega
      simp [hne]
    unfold Server.answer
    rw [hgranted]
    exact ⟨rfl, .article hop hc⟩
  | article hop hc => simp at hnext

theorem significant_of_answer {command : Command} {code : Nat} (h : code ∈ command.answers) :
    significant code = true := by
  cases command with
  | authUser username => rcases mem_answers_user.mp h with rfl | rfl <;> rfl
  | authPass password =>
    rw [List.mem_singleton.mp h]
    rfl
  | body messageId => rcases mem_answers_body.mp h with rfl | rfl | rfl <;> rfl

theorem Phase.greet {rest : List Nat} (h : Phase p talk server rest)
    (hg : server.greeted = false) {code : Nat} (hc : code = 200 ∨ code = 201) :
    server.article = none ∧
      Phase p talk { server with greeted := true } (rest ++ [code]) := by
  cases h with
  | connecting => exact ⟨rfl, .greeting hc⟩
  | _ => cases hg

/-- Nothing is left to answer after the answer to `BODY`. -/
theorem Returned.answered (h : Returned p talk server) :
    talk.sent[server.answered]? = none ∧ server.greeted = true := by
  cases h
  simp

theorem dialogueStep_read {n : Nat}
    (h : s.talk.verdict = none ∧ 0 < n ∧ n ≤ readSize ∧ n ≤ s.wire.length) :
    dialogueStep p s (.read n) = some { s with
      wire := s.wire.drop n
      buf := (p.readOnce s.talk s.buf (s.wire.take n)).2
      talk := (p.readOnce s.talk s.buf (s.wire.take n)).1 } := by
  rw [dialogueStep, if_pos h]

theorem DialogueInv.read (h : DialogueInv p s) {n : Nat} (hv : s.talk.verdict = none) (hn : 0 < n)
    (hle : n ≤ s.wire.length) (htext : IsUtf8 (s.wire.take n)) :
    DialogueInv p { s with
      wire := s.wire.drop n
      buf := (p.readOnce s.talk s.buf (s.wire.take n)).2
      talk := (p.readOnce s.talk s.buf (s.wire.take n)).1 } := by
  cases h with
  | returned hr =>
    have hsome := hr.verdict
    rw [hv] at hsome
    cases hsome
  | @talking lines extra hbuf hin =>
    have hne : s.wire.take n ≠ [] := by
      intro hnil
      have := congrArg List.length hnil
      rw [List.length_take_of_le hle] at this
      simp at this
      omega
    have hin' : InFlight p (s.buf ++ s.wire.take n) (s.wire.drop n) s.talk s.server lines extra :=
      ⟨by rw [List.append_assoc, List.take_append_drop, hin.bytes], hin.whole, hin.extra, hin.phase⟩
    rw [Prober.readOnce, if_neg hne, if_pos htext]
    rcases hin'.drainLines _ (Nat.le_refl _) with hr | ⟨lines', hbuf', hin'⟩
    · exact .returned hr
    · exact .talking hbuf' hin'

theorem DialogueInv.greet (h : DialogueInv p s) (hline : findCrlf line = none)
    (hg : s.server.greeted = false) (hcode : lineCode line = 200 ∨ lineCode line = 201) :
    DialogueInv p { s.put line with server := { s.server with greeted := true } } := by
  cases h with
  | returned hr =>
    rw [hr.answered.2] at hg
    cases hg
  | talking hbuf hin =>
    obtain ⟨hart, hphase⟩ := hin.phase.greet hg hcode
    refine .talking hbuf (hin.put hline (extra_eq_nil hin hart) ?_)
    rwa [codes_concat_of_true (by rcases hcode with h | h <;> rw [h] <;> rfl)]

theorem DialogueInv.inform (h : DialogueInv p s) (hline : findCrlf line = none)
    (hsig : significant (lineCode line) = false) : DialogueInv p (s.put line) := by
  cases h with
  | returned hr => exact .returned hr
  | @talking lines extra hbuf hin =>
    by_cases hextra : extra = []
    · refine .talking hbuf (hin.put hline hextra ?_)
      rw [codes_concat_of_false hsig]
      exact hin.phase
    · exact .talking hbuf (hin.more (hin.extra hextra) _)

theorem DialogueInv.answer (h : DialogueInv p s) {command : Command}
    (hnext : s.talk.sent[s.server.answered]? = some command) (hline : findCrlf line = none)
    (hcode : lineCode line ∈ command.answers) :
    DialogueInv p { s.put line with server := s.server.answer command (lineCode line) } := by
  cases h with
  | returned hr =>
    rw [hr.answered.1] at hnext
    cases hnext
  | talking hbuf hin =>
    obtain ⟨hart, hphase⟩ := hin.phase.answer hnext hcode
    refine .talking hbuf (hin.put hline (extra_eq_nil hin hart) ?_)
    rwa [codes_concat_of_true (significant_of_answer hcode)]

theorem DialogueInv.article (h : DialogueInv p s) (hart : s.server.article = some 222)
    (bytes : List UInt8) : DialogueInv p { s with wire := s.wire ++ bytes } := by
  cases h with
  | returned hr => exact .returned hr
  | talking hbuf hin => exact .talking hbuf (hin.more hart bytes)

theorem DialogueInv.step (h : DialogueInv p s) {a : DialogueAct} (ha : a.Decodes s)
    (ht : dialogueStep p s a = some t) : DialogueInv p t := by
  cases a with
  | greet line =>
    simp only [dialogueStep] at ht
    split at ht
    · next hcond =>
      obtain ⟨hline, hg, hcode⟩ := hcond
      cases ht
      exact h.greet hline hg hcode
    · cases ht
  | inform line =>
    simp only [dialogueStep] at ht
    split at ht
    · next hcond =>
      cases ht
      exact h.inform hcond.1 hcond.2
    · cases ht
  | answer line =>
    simp only [dialogueStep] at ht
    split at ht
    · next command hnext =>
      split at ht
      · next hcond =>
        cases ht
        exact h.answer hnext hcond.1 hcond.2
      · cases ht
    · cases ht
  | article bytes =>
    simp only [dialogueStep] at ht
    split at ht
    · next hart =>
      cases ht
      exact h.article hart bytes
    · cases ht
  | read n =>
    simp only [dialogueStep] at ht
    split at ht
    · next hcond =>
      obtain ⟨hv, hn, -, hle⟩ := hcond
      cases ht
      exact h.read hv hn hle ha
    · cases ht

theorem dialogueInv_init (h : ¬ (p.username = "" ∧ p.password = "")) :
    DialogueInv p (.init p) := by
  have hstart : p.start = ⟨false, [], none⟩ := by
    simp only [Prober.start, Talk.mk.injEq, and_true, Bool.and_eq_false_iff,
      decide_eq_false_iff_not]
    exact not_and_or.mp h
  have hin : InFlight p [] [] ⟨false, [], none⟩ ⟨false, 0, false, none⟩ [] [] :=
    ⟨rfl, fun _ hl => (by cases hl), fun hne => absurd rfl hne, .connecting⟩
  unfold Dialogue.init
  rw [hstart]
  exact .talking rfl hin

/-! ### What the phases say -/

theorem Opening.no_body {sent : List Command} {granted : Bool} (h : Opening p sent granted) :
    (∀ c ∈ sent, c.isBody = false) ∧ (p.both → granted = true) := by
  cases h with
  | direct hb => exact ⟨fun c hc => (by cases hc), fun hb' => absurd hb' hb⟩
  | user hb => simp [Command.isBody]
  | pass hb => simp [Command.isBody]

/-- `BODY` is not sent yet, or last. -/
theorem Phase.sent {rest : List Nat} (h : Phase p talk server rest) :
    (∀ c ∈ talk.sent, c.isBody = false) ∨ ∃ sent,
      Opening p sent server.granted ∧ talk.sent = sent ++ [.body p.messageId] := by
  cases h with
  | connecting => exact .inl fun c hc => by cases hc
  | greeting hc => exact .inl fun c hc => by cases hc
  | user hb => exact .inl (Opening.user hb).no_body.1
  | passWanted hb => exact .inl (Opening.user hb).no_body.1
  | pass hb => exact .inl (Opening.pass hb).no_body.1
  | accepted hop => exact .inl hop.no_body.1
  | body hop => exact .inr ⟨_, hop, rfl⟩
  | article hop hc => exact .inr ⟨_, hop, rfl⟩

theorem Phase.waits {rest : List Nat} (h : Phase p talk server rest) :
    server.greeted = false ∨ rest ≠ [] ∨ server.answered < talk.sent.length := by
  cases h <;> simp

theorem wire_ne_nil (h : InFlight p buf wire talk server lines extra) (hbuf : findCrlf buf = none)
    (hlines : lines ≠ []) : wire ≠ [] := by
  rintro rfl
  obtain ⟨line, lines', rfl⟩ := List.exists_cons_of_ne_nil hlines
  have hbytes := h.bytes
  rw [List.append_nil] at hbytes
  rw [hbytes, findCrlf_encodeLines (h.whole line List.mem_cons_self)] at hbuf
  cases hbuf

/-- What holds of the commands when `BODY` comes last. -/
theorem body_last {sent : List Command} {granted : Bool} (h : Opening p sent granted) :
    (∀ c ∈ sent ++ [Command.body p.messageId], c.isBody = true → c = .body p.messageId) ∧
      (sent ++ [Command.body p.messageId]).countP Command.isBody = 1 := by
  have hno := h.no_body.1
  refine ⟨fun c hc hbody => ?_, ?_⟩
  · rcases List.mem_append.mp hc with hc | hc
    · rw [hno c hc] at hbody
      cases hbody
    · exact List.mem_singleton.mp hc
  · have hzero : sent.countP Command.isBody = 0 :=
      List.countP_eq_zero.mpr fun c hc => by simp [hno c hc]
    rw [List.countP_append, hzero]
    rfl

theorem Returned.right (h : Returned p s.talk s.server) : Right p s := by
  obtain ⟨wire, buf, talk, server⟩ := s
  cases h with
  | @intro sent granted code hop hc =>
    obtain ⟨hbody, hcount⟩ := body_last hop
    exact {
      body_only := hbody
      body_le := Nat.le_of_eq hcount
      body_once := fun _ => hcount
      authenticated := fun hu hp _ => hop.no_body.2 ⟨hu, hp⟩
      verdict := fun result hres => ⟨code, rfl, (Option.some.inj hres).symm⟩
      waits := fun hv => by cases hv }

/-- Without a verdict only the commands and the waiting are to be looked at. -/
theorem right_of_no_verdict (hv : s.talk.verdict = none)
    (hbody : ∀ c ∈ s.talk.sent, c.isBody = true → c = .body p.messageId)
    (hle : s.talk.sent.countP Command.isBody ≤ 1)
    (hauth : p.both → .body p.messageId ∈ s.talk.sent → s.server.granted = true)
    (hwaits : s.Pending) : Right p s where
  body_only := hbody
  body_le := hle
  body_once := fun hne => absurd hv hne
  authenticated := fun hu hp hmem => hauth ⟨hu, hp⟩ hmem
  verdict := fun result hres => by
    rw [hv] at hres
    cases hres
  waits := fun _ => hwaits

theorem InFlight.pending (h : InFlight p s.buf s.wire s.talk s.server lines extra)
    (hbuf : findCrlf s.buf = none) : s.Pending := by
  rcases h.phase.waits with hg | hrest | hans
  · exact .inl hg
  · refine .inr (.inl (wire_ne_nil h hbuf fun hnil => hrest ?_))
    rw [hnil]
    rfl
  · exact .inr (.inr hans)

theorem DialogueInv.right (h : DialogueInv p s) : Right p s := by
  cases h with
  | returned hr => exact hr.right
  | talking hbuf hin =>
    rcases hin.phase.sent with hno | ⟨sent, hop, hsent⟩
    · have hnot : .body p.messageId ∉ s.talk.sent := fun hmem => by cases hno _ hmem
      have hzero : s.talk.sent.countP Command.isBody = 0 :=
        List.countP_eq_zero.mpr fun c hc => by simp [hno c hc]
      refine right_of_no_verdict hin.phase.verdict (fun c hc hbody => ?_)
        (hzero ▸ Nat.zero_le 1) (fun _ hmem => absurd hmem hnot) (hin.pending hbuf)
      rw [hno c hc] at hbody
      cases hbody
    · obtain ⟨hbody, hcount⟩ := body_last hop
      rw [← hsent] at hbody hcount
      exact right_of_no_verdict hin.phase.verdict hbody (Nat.le_of_eq hcount)
        (fun hb _ => hop.no_body.2 hb) (hin.pending hbuf)

/-! ### Without credentials -/

def greeting : List UInt8 := [50, 48, 48]

/-- Without credentials the greeting starts nothing, and both parties wait. -/
theorem exists_stuck (h : p.username = "" ∧ p.password = "") :
    ∃ s, Reaches (dialogueStep p) (fun s a => a.Decodes s) (.init p) s ∧
      s.talk.verdict = none ∧ ¬ s.Pending := by
  obtain ⟨username, password, messageId⟩ := p
  obtain ⟨rfl, rfl⟩ := h
  let s1 : Dialogue := ⟨greeting ++ crlf, [], ⟨true, [], none⟩, ⟨true, 0, false, none⟩⟩
  let s2 : Dialogue := ⟨[], [], ⟨true, [], none⟩, ⟨true, 0, false, none⟩⟩
  have h1 : dialogueStep ⟨"", "", messageId⟩ (.init ⟨"", "", messageId⟩) (.greet greeting) =
      some s1 := rfl
  have htext : IsUtf8 (greeting ++ crlf) := by decide
  have hread : (⟨"", "", messageId⟩ : Prober).readOnce ⟨true, [], none⟩ [] (greeting ++ crlf) =
      (⟨true, [], none⟩, []) := by
    rw [Prober.readOnce, if_neg (by decide), if_pos htext]
    rfl
  have h2 : dialogueStep ⟨"", "", messageId⟩ s1 (.read 5) = some s2 := by
    rw [dialogueStep_read ⟨rfl, by decide, by decide, by decide⟩]
    change some (Dialogue.mk _ (Prober.readOnce _ _ _ (greeting ++ crlf)).2
      (Prober.readOnce _ _ _ (greeting ++ crlf)).1 _) = _
    rw [hread]
    rfl
  have hr1 : Reaches (dialogueStep ⟨"", "", messageId⟩) (fun s a => a.Decodes s)
      (.init ⟨"", "", messageId⟩) s1 :=
    .snoc (.refl _) (show DialogueAct.Decodes _ (.greet greeting) from trivial) h1
  have hdec : DialogueAct.Decodes s1 (.read 5) := htext
  refine ⟨s2, .snoc hr1 hdec h2, rfl, ?_⟩
  rintro (hg | hw | ha)
  · cases hg
  · exact hw rfl
  · exact absurd ha (Nat.lt_irrefl 0)

end

/-- **The dialogue goes right, in every run, exactly when the credentials are not both empty.** -/
theorem dialogue_right_iff (p : Prober) :
    (∀ s, Reaches (dialogueStep p) (fun s a => a.Decodes s) (.init p) s → Right p s) ↔
      ¬ (p.username = "" ∧ p.password = "") := by
  constructor
  · intro h hempty
    obtain ⟨s, hs, hv, hp⟩ := exists_stuck hempty
    exact hp ((h s hs).waits hv)
  · intro hne s hs
    exact (hs.inv (dialogueInv_init hne) fun _ _ _ h ha ht => h.step ha ht).right

/-- Without credentials a probe of an article is stuck after the greeting. -/
theorem no_credentials_stuck : ∃ s,
    Reaches (dialogueStep ⟨"", "", "a@b"⟩) (fun s a => a.Decodes s) (.init ⟨"", "", "a@b"⟩) s ∧
      ¬ Right ⟨"", "", "a@b"⟩ s := by
  obtain ⟨s, hs, hv, hp⟩ := exists_stuck (p := ⟨"", "", "a@b"⟩) ⟨rfl, rfl⟩
  exact ⟨s, hs, fun hr => hp (hr.waits hv)⟩

end StremioNzb.Addon

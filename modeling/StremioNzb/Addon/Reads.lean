import Mathlib.Data.Nat.Find
import StremioNzb.Addon.BodyProbe

/-!
# The probe and the cutting of the stream

`run_body_probe` checks every read for UTF-8 on its own. What the probe returns for a cutting of
the stream is either what the lines of the stream say (`ReadsAll`) or the failure of a read that is
no text (`Stops`), and the stream says which of these some cutting gives.
-/

namespace StremioNzb.Addon

open StremioNzb.Lib

theorem readSize_pos : 0 < readSize := by decide

section
variable (p : Prober) (stream : List UInt8)

/-- The conversation after the first `n` bytes. -/
def heardAt (n : Nat) : Talk := p.heard (stream.take n)

/-- The probe with these reads to come, after the first `n` bytes. -/
def loopAt (n : Nat) (pieces : List (List UInt8)) : Talk :=
  p.readLoop (heardAt p stream n) (linesOf (stream.take n)).partial_ pieces

/-- No line among the first `n` bytes decides. -/
def Undecided (n : Nat) : Prop := ∀ line ∈ (linesOf (stream.take n)).complete, decisive line = false

instance (n : Nat) : Decidable (Undecided stream n) :=
  inferInstanceAs (Decidable (∀ line ∈ (linesOf (stream.take n)).complete, decisive line = false))

/-- A read from `s` to `t` that is no text, after reads that are. -/
structure Stops (s t : Nat) : Prop where
  lt : s < t
  size : t ≤ s + readSize
  le : t ≤ stream.length
  undecided : Undecided stream s
  before : IsUtf8 (stream.take s)
  bad : ¬ IsUtf8 ((stream.take t).drop s)

/-- Reads up to `n` that are text, and no more are made. -/
structure ReadsAll (n : Nat) : Prop where
  le : n ≤ stream.length
  text : IsUtf8 (stream.take n)
  last : ¬ Undecided stream n ∨ n = stream.length

end

section
variable {p : Prober} {stream : List UInt8} {n m : Nat}

theorem undecided_iff (p : Prober) : Undecided stream n ↔ (heardAt p stream n).verdict = none :=
  (heard_undecided_iff _).symm

theorem heardAt_of_decided (h : ¬ Undecided stream n) (hnm : n ≤ m) :
    heardAt p stream m = heardAt p stream n := by
  obtain ⟨k, rfl⟩ := Nat.exists_eq_add_of_le hnm
  rw [undecided_iff p] at h
  rw [heardAt, List.take_add]
  exact heard_append_of_verdict h _

theorem Undecided.mono (h : Undecided stream m) (hnm : n ≤ m) : Undecided stream n := by
  obtain ⟨k, rfl⟩ := Nat.exists_eq_add_of_le hnm
  intro line hl
  refine h line ?_
  rw [List.take_add, linesOf_append_eq]
  exact List.mem_append_left _ hl

theorem heardAt_sent (hnm : n ≤ m) :
    (heardAt p stream n).sent <+: (heardAt p stream m).sent := by
  obtain ⟨k, rfl⟩ := Nat.exists_eq_add_of_le hnm
  rw [heardAt, heardAt, List.take_add]
  exact heard_sent_append _ _

/-- **Between two places of the stream no command is sent exactly when no line that ends between
them is answered.** -/
theorem heardAt_sent_eq_iff (hnm : n ≤ m) (hm : Undecided stream m) :
    (heardAt p stream m).sent = (heardAt p stream n).sent ↔
      ∀ before line after, (linesOf (stream.take m)).complete = before ++ line :: after →
        (linesOf (stream.take n)).complete.length ≤ before.length →
          p.replies before line = false := by
  have hn := hm.mono hnm
  obtain ⟨k, rfl⟩ := Nat.exists_eq_add_of_le hnm
  have hcomplete : (linesOf (stream.take (n + k))).complete = (linesOf (stream.take n)).complete ++
      (Lines.pushAll ⟨[], (linesOf (stream.take n)).partial_⟩
        ((stream.drop n).take k)).complete := by
    rw [List.take_add, linesOf_append_eq]
  have hauth : (heardAt p stream n).authenticated = (p.start.authenticated ||
      (linesOf (stream.take n)).complete.any p.grants) := hearAll_authenticated rfl hn
  have hnew := fun line hl => hm line (hcomplete ▸ List.mem_append_right _ hl)
  have hsent := hearAll_sent_eq_iff (p := p) ((undecided_iff p).mp hn) hnew
  rw [hauth] at hsent
  have hlate : heardAt p stream (n + k) = p.hearAll (heardAt p stream n)
      (Lines.pushAll ⟨[], (linesOf (stream.take n)).partial_⟩
        ((stream.drop n).take k)).complete := by
    rw [heardAt, List.take_add, heard_append_eq]
    rfl
  rw [hlate, hcomplete]
  refine hsent.trans ?_
  constructor
  · intro h before line after hsplit hle
    obtain ⟨before', rfl⟩ := List.prefix_of_prefix_length_le (List.prefix_append _ _)
      (hsplit ▸ List.prefix_append before (line :: after)) hle
    rw [List.append_assoc] at hsplit
    have := h before' line after (List.append_cancel_left hsplit)
    rwa [Prober.replies, List.any_append, ← Bool.or_assoc]
  · intro h before line after hsplit
    have := h (_ ++ before) line after (by rw [hsplit, List.append_assoc])
      (by rw [List.length_append]; exact Nat.le_add_right _ _)
    rwa [Prober.replies, List.any_append, ← Bool.or_assoc] at this

/-! ## Reads -/

variable {chunk after : List UInt8} {pieces rest : List (List UInt8)}

theorem take_add_of_drop (h : stream.drop n = chunk ++ after) :
    stream.take (n + chunk.length) = stream.take n ++ chunk := by
  rw [List.take_add, h, List.take_left]

theorem loopAt_cons (hne : chunk ≠ []) (hv : Undecided stream n)
    (h : stream.drop n = chunk ++ after) : loopAt p stream n (chunk :: rest) =
      if IsUtf8 chunk then
        if Undecided stream (n + chunk.length) then loopAt p stream (n + chunk.length) rest
        else heardAt p stream (n + chunk.length)
      else (heardAt p stream n).decide (.error .utf8) := by
  unfold loopAt heardAt
  rw [readLoop_cons hne ((undecided_iff p).mp hv)]
  simp only [undecided_iff p, heardAt, take_add_of_drop h]

/-- **Every cutting stops at a read that is no text, or reads all.** -/
theorem loopAt_cases (hn : n ≤ stream.length) (ht : IsUtf8 (stream.take n))
    (hv : Undecided stream n) (hcut : Cutting readSize (stream.drop n) pieces) :
    (∃ s t, Stops stream s t ∧
      loopAt p stream n pieces = (heardAt p stream s).decide (.error .utf8)) ∨
    ∃ m, ReadsAll stream m ∧ loopAt p stream n pieces = heardAt p stream stream.length := by
  induction pieces generalizing n with
  | nil =>
    have hlen : n = stream.length := by
      have := congrArg List.length hcut.flatten
      simp only [List.flatten_nil, List.length_nil, List.length_drop] at this
      omega
    subst hlen
    exact .inr ⟨_, ⟨hn, ht, .inr rfl⟩, rfl⟩
  | cons chunk rest ih =>
    have hdrop : stream.drop n = chunk ++ rest.flatten := hcut.flatten.symm
    have hne := hcut.ne_nil chunk List.mem_cons_self
    have hsize := hcut.length_le chunk List.mem_cons_self
    have hpos := List.length_pos_iff.mpr hne
    have hle : n + chunk.length ≤ stream.length := by
      have := congrArg List.length hdrop
      simp only [List.length_drop, List.length_append] at this
      omega
    rw [loopAt_cons hne hv hdrop]
    by_cases hu : IsUtf8 chunk
    · have ht' : IsUtf8 (stream.take (n + chunk.length)) := by
        rw [take_add_of_drop hdrop]
        exact ht.append hu
      rw [if_pos hu]
      by_cases hd : Undecided stream (n + chunk.length)
      · rw [if_pos hd]
        refine ih hle ht' hd ?_
        have := hcut.tail
        rwa [List.drop_drop] at this
      · rw [if_neg hd]
        exact .inr ⟨_, ⟨hle, ht', .inl hd⟩, (heardAt_of_decided hd hle).symm⟩
    · rw [if_neg hu]
      refine .inl ⟨n, n + chunk.length, ⟨by omega, by omega, hle, hv, ht, ?_⟩, rfl⟩
      rwa [take_add_of_drop hdrop, List.drop_left' (List.length_take_of_le hn)]

theorem loopAt_texts (p : Prober) {texts : List (List UInt8)} (rest : List (List UInt8))
    (htexts : ∀ piece ∈ texts, IsUtf8 piece ∧ piece ≠ []) (hv : Undecided stream n)
    (h : stream.drop n = texts.flatten ++ after) :
    loopAt p stream n (texts ++ rest) =
      if Undecided stream (n + texts.flatten.length) then
        loopAt p stream (n + texts.flatten.length) rest
      else heardAt p stream (n + texts.flatten.length) := by
  induction texts generalizing n with
  | nil => simp [hv]
  | cons chunk texts ih =>
    obtain ⟨hu, hne⟩ := htexts chunk List.mem_cons_self
    rw [List.flatten_cons, List.append_assoc] at h
    have hdrop : stream.drop (n + chunk.length) = texts.flatten ++ after := by
      rw [← List.drop_drop, h, List.drop_left]
    have hlen : n + (chunk :: texts).flatten.length = n + chunk.length + texts.flatten.length := by
      rw [List.flatten_cons, List.length_append, Nat.add_assoc]
    rw [List.cons_append, loopAt_cons hne hv h, if_pos hu, hlen]
    by_cases hd : Undecided stream (n + chunk.length)
    · rw [if_pos hd, ih (fun piece hp => htexts piece (List.mem_cons_of_mem _ hp)) hd hdrop]
    · rw [if_neg hd, if_neg fun hd' => hd (hd'.mono (Nat.le_add_right _ _)),
        heardAt_of_decided hd (Nat.le_add_right _ _)]

theorem undecided_zero : Undecided stream 0 := fun _ h => by cases h

/-- Text in reads of whole characters. -/
theorem exists_texts {bs : List UInt8} (h : IsUtf8 bs) : ∃ texts : List (List UInt8),
    Cutting readSize bs texts ∧ ∀ piece ∈ texts, IsUtf8 piece ∧ piece ≠ [] := by
  obtain ⟨texts, hflat, htexts⟩ := h.exists_pieces
  refine ⟨texts, ⟨hflat, fun piece hp => (htexts piece hp).2.1, fun piece hp => ?_⟩,
    fun piece hp => ⟨(htexts piece hp).1, (htexts piece hp).2.1⟩⟩
  exact Nat.le_trans (htexts piece hp).2.2 (by decide)

/-- **Wherever the probe may stop, some cutting stops it.** -/
theorem exists_stop {s t : Nat} (h : Stops stream s t) : ∃ pieces,
    Cutting readSize stream pieces ∧
      p.runBodyProbe pieces = (heardAt p stream s).decide (.error .utf8) := by
  obtain ⟨texts, hcut, htexts⟩ := exists_texts h.before
  obtain ⟨rest, hrest⟩ := exists_cutting readSize_pos (stream.drop t)
  have hlt := h.lt
  have hle := h.le
  have hchunk : ((stream.take t).drop s).length = t - s := by
    rw [List.length_drop, List.length_take_of_le hle]
  have hne : (stream.take t).drop s ≠ [] :=
    List.ne_nil_of_length_pos (by omega)
  have hdrop : stream.drop s = (stream.take t).drop s ++ stream.drop t := by
    have hlen : s ≤ (stream.take t).length := by
      rw [List.length_take_of_le hle]
      exact Nat.le_of_lt hlt
    rw [← List.drop_append_of_le_length hlen, List.take_append_drop]
  have hstream : stream = stream.take s ++ ((stream.take t).drop s ++ stream.drop t) := by
    rw [← hdrop, List.take_append_drop]
  refine ⟨texts ++ ((stream.take t).drop s :: rest), ?_, ?_⟩
  · have hc := hcut.append ((cutting_singleton hne (by have := h.size; omega)).append hrest)
    rwa [← hstream] at hc
  · have hs : 0 + texts.flatten.length = s := by
      rw [hcut.flatten, List.length_take_of_le (by omega), Nat.zero_add]
    have hafter : stream.drop 0 =
        texts.flatten ++ ((stream.take t).drop s ++ stream.drop t) := by
      rw [List.drop_zero, hcut.flatten]
      exact hstream
    have hrun := loopAt_texts p ((stream.take t).drop s :: rest) htexts undecided_zero hafter
    rw [hs, if_pos h.undecided, loopAt_cons hne h.undecided hdrop, if_neg h.bad] at hrun
    exact hrun

/-- **Where the probe may read all, some cutting lets it.** -/
theorem exists_readsAll (h : ReadsAll stream n) : ∃ pieces,
    Cutting readSize stream pieces ∧ p.runBodyProbe pieces = heardAt p stream stream.length := by
  obtain ⟨texts, hcut, htexts⟩ := exists_texts h.text
  obtain ⟨rest, hrest⟩ := exists_cutting readSize_pos (stream.drop n)
  have hn : 0 + texts.flatten.length = n := by
    rw [hcut.flatten, List.length_take_of_le h.le, Nat.zero_add]
  refine ⟨texts ++ rest, ?_, ?_⟩
  · have hc := hcut.append hrest
    rwa [List.take_append_drop] at hc
  · have hafter : stream.drop 0 = texts.flatten ++ stream.drop n := by
      rw [List.drop_zero, hcut.flatten, List.take_append_drop]
    have hrun := loopAt_texts p rest htexts undecided_zero hafter
    rw [hn] at hrun
    refine Eq.trans hrun ?_
    by_cases hd : Undecided stream n
    · obtain rfl : n = stream.length := h.last.resolve_left (not_not_intro hd)
      have hnil : rest = [] := by
        rw [List.drop_length] at hrest
        cases rest with
        | nil => rfl
        | cons piece rest =>
          have hflat := hrest.flatten
          rw [List.flatten_cons] at hflat
          exact absurd (List.append_eq_nil_iff.mp hflat).1 (hrest.ne_nil piece List.mem_cons_self)
      rw [if_pos hd, hnil]
      rfl
    · rw [if_neg hd]
      exact (heardAt_of_decided hd h.le).symm

end

/-! ## Cutting does not matter -/

/-- The bytes before the first that is not ASCII. -/
def asciiLength (stream : List UInt8) : Nat := stream.findIdx (128 ≤ ·)

/-- The bytes of the longest text at the start. -/
def validUpTo (stream : List UInt8) : Nat :=
  Nat.findGreatest (fun n => IsUtf8 (stream.take n)) stream.length

section
variable (p : Prober) (stream : List UInt8)

/-- What a read before the verdict can reach is ASCII. -/
def AsciiInReach : Prop := ∀ s j (h : j < stream.length), Undecided stream s → s ≤ j →
  j < s + readSize → stream[j] < 128

/-- The stream is no text before the verdict, no line is answered that the first read that can
fail might not reach, and the verdict would not be that the article is there. -/
structure FailsAlike : Prop where
  lt : validUpTo stream < stream.length
  undecided : Undecided stream (validUpTo stream)
  silent : ∀ before line after,
    (linesOf (stream.take (validUpTo stream))).complete = before ++ line :: after →
    (linesOf (stream.take (asciiLength stream + 1 - readSize))).complete.length ≤ before.length →
      p.replies before line = false
  notFound : ∀ line, (linesOf stream).complete.find? decisive = some line → lineCode line ≠ 222

/-- Every cutting gives the same verdict and the same commands, and where the first decisive
line is a 222 the article is there. -/
structure CutFree : Prop where
  same : ∀ pieces pieces', Cutting readSize stream pieces → Cutting readSize stream pieces' →
    (p.runBodyProbe pieces).verdict = (p.runBodyProbe pieces').verdict ∧
      (p.runBodyProbe pieces).sent = (p.runBodyProbe pieces').sent
  found : ∀ line, (linesOf stream).complete.find? decisive = some line → lineCode line = 222 →
    ∀ pieces, Cutting readSize stream pieces → (p.runBodyProbe pieces).verdict = some (.ok true)

end

section
variable {p : Prober} {stream : List UInt8} {n s t : Nat}

theorem text_validUpTo : IsUtf8 (stream.take (validUpTo stream)) :=
  Nat.findGreatest_spec (P := fun n => IsUtf8 (stream.take n)) (Nat.zero_le _) isUtf8_nil

theorem le_validUpTo (hn : n ≤ stream.length) (ht : IsUtf8 (stream.take n)) :
    n ≤ validUpTo stream := Nat.le_findGreatest hn ht

theorem validUpTo_le : validUpTo stream ≤ stream.length := Nat.findGreatest_le _

theorem ascii_of_lt (h : n < asciiLength stream) (hn : n < stream.length) : stream[n] < 128 := by
  have := List.not_of_lt_findIdx h
  simpa using this

theorem not_ascii (h : asciiLength stream < stream.length) :
    ¬ stream[asciiLength stream] < 128 := by
  have hge := List.findIdx_getElem (w := h)
  exact UInt8.not_lt.mpr (of_decide_eq_true hge)

theorem asciiLength_le_of_not {j : Nat} (hj : j < stream.length) (h : ¬ stream[j] < 128) :
    asciiLength stream ≤ j := by
  by_contra hlt
  exact h (ascii_of_lt (Nat.lt_of_not_le hlt) hj)

theorem ascii_take (hn : n ≤ asciiLength stream) : ∀ b ∈ stream.take n, b < 128 := by
  intro b hb
  obtain ⟨j, hj, rfl⟩ := List.mem_iff_getElem.mp hb
  rw [List.length_take] at hj
  rw [List.getElem_take]
  exact ascii_of_lt (by omega) _

theorem asciiLength_le_validUpTo : asciiLength stream ≤ validUpTo stream :=
  le_validUpTo List.findIdx_le_length (isUtf8_of_ascii (ascii_take le_rfl))

theorem firstRead_le : asciiLength stream + 1 - readSize ≤ asciiLength stream := by
  have := readSize_pos
  omega

/-- A read may end after the first byte that is not ASCII. -/
theorem stops_at_ascii (hlt : asciiLength stream < stream.length) (hs : s ≤ asciiLength stream)
    (hsize : asciiLength stream < s + readSize) (hv : Undecided stream s) :
    Stops stream s (asciiLength stream + 1) := by
  refine ⟨by omega, hsize, hlt, hv, isUtf8_of_ascii (ascii_take hs), ?_⟩
  have hdrop : (stream.take (asciiLength stream + 1)).drop s =
      (stream.take (asciiLength stream)).drop s ++ [stream[asciiLength stream]] := by
    rw [List.take_succ_eq_append_getElem hlt, List.drop_append_of_le_length]
    rw [List.length_take_of_le (Nat.le_of_lt hlt)]
    exact hs
  rw [hdrop]
  exact not_isUtf8_concat (fun b hb => ascii_take le_rfl b (List.mem_of_mem_drop hb))
    (not_ascii hlt)

/-- A read may start after the longest text. -/
theorem stops_at_validUpTo (hlt : validUpTo stream < stream.length)
    (hv : Undecided stream (validUpTo stream)) :
    Stops stream (validUpTo stream) (validUpTo stream + 1) := by
  refine ⟨by omega, by have := readSize_pos; omega, hlt, hv, text_validUpTo, fun hbad => ?_⟩
  have htext : IsUtf8 (stream.take (validUpTo stream + 1)) := by
    rw [← List.take_append_drop (validUpTo stream) (stream.take (validUpTo stream + 1)),
      List.take_take, Nat.min_eq_left (Nat.le_succ _)]
    exact text_validUpTo.append hbad
  exact absurd (le_validUpTo hlt htext) (Nat.not_succ_le_self _)

/-- What a read that stops the probe contains, and where it starts. -/
theorem Stops.reaches (h : Stops stream s t) :
    asciiLength stream < t ∧ s ≤ validUpTo stream := by
  refine ⟨?_, le_validUpTo (by have := h.lt; have := h.le; omega) h.before⟩
  by_contra hle
  exact h.bad (isUtf8_of_ascii fun b hb =>
    ascii_take (Nat.le_of_not_lt hle) b (List.mem_of_mem_drop hb))

/-- No cutting reads all exactly when the longest text is not the whole stream and no line of it
decides. -/
theorem not_readsAll_iff : (∀ m, ¬ ReadsAll stream m) ↔
    validUpTo stream < stream.length ∧ Undecided stream (validUpTo stream) := by
  constructor
  · intro h
    refine ⟨Nat.lt_of_le_of_ne validUpTo_le fun heq => ?_, ?_⟩
    · exact h _ ⟨validUpTo_le, text_validUpTo, .inr heq⟩
    · by_contra hd
      exact h _ ⟨validUpTo_le, text_validUpTo, .inl hd⟩
  · rintro ⟨hlt, hund⟩ m hm
    have hle := le_validUpTo hm.le hm.text
    rcases hm.last with hd | rfl
    · exact hd (hund.mono hle)
    · exact absurd hlt (Nat.not_lt_of_le hle)

theorem run_cases {pieces : List (List UInt8)} (hcut : Cutting readSize stream pieces) :
    (∃ s t, Stops stream s t ∧
      p.runBodyProbe pieces = (heardAt p stream s).decide (.error .utf8)) ∨
    ∃ m, ReadsAll stream m ∧ p.runBodyProbe pieces = heardAt p stream stream.length :=
  loopAt_cases (Nat.zero_le _) isUtf8_nil undecided_zero hcut

theorem heardAt_length : (heardAt p stream stream.length).verdict =
    ((linesOf stream).complete.find? decisive).bind fun line => outcomeOf (lineCode line) line := by
  rw [heardAt, List.take_length, heard_verdict]

theorem heardAt_ne_utf8 : (heardAt p stream n).verdict ≠ some (.error .utf8) := by
  rw [heardAt, heard_verdict]
  intro h
  obtain ⟨line, -, h⟩ := Option.bind_eq_some_iff.mp h
  unfold outcomeOf at h
  repeat' split at h
  all_goals cases h

theorem found_of_line {line : List UInt8}
    (hf : (linesOf stream).complete.find? decisive = some line) (hc : lineCode line = 222) :
    (heardAt p stream stream.length).verdict = some (.ok true) := by
  rw [heardAt_length, hf, Option.bind_some, hc]
  rfl

/-- ASCII can be cut anywhere. -/
theorem cutFree_of_ascii (h : AsciiInReach stream) : CutFree p stream := by
  have hno : ∀ s t, ¬ Stops stream s t := by
    refine fun s t hs => hs.bad (isUtf8_of_ascii fun b hb => ?_)
    obtain ⟨j, hj, rfl⟩ := List.mem_iff_getElem.mp hb
    have hle := hs.le
    have hsize := hs.size
    rw [List.length_drop, List.length_take_of_le hle] at hj
    rw [List.getElem_drop, List.getElem_take]
    exact h s (s + j) _ hs.undecided (Nat.le_add_right s j) (by omega)
  have hrun : ∀ pieces, Cutting readSize stream pieces →
      p.runBodyProbe pieces = heardAt p stream stream.length := by
    intro pieces hcut
    rcases run_cases hcut with ⟨s, t, hs, -⟩ | ⟨-, -, hr⟩
    · exact absurd hs (hno s t)
    · exact hr
  refine ⟨fun pieces pieces' hcut hcut' => ?_, fun line hf hc pieces hcut => ?_⟩
  · rw [hrun pieces hcut, hrun pieces' hcut']
    exact ⟨rfl, rfl⟩
  · rw [hrun pieces hcut]
    exact found_of_line hf hc

/-- Where no cutting is read to the verdict, and none sends a command more. -/
theorem cutFree_of_failsAlike (h : FailsAlike p stream) : CutFree p stream := by
  have hno := not_readsAll_iff.mpr ⟨h.lt, h.undecided⟩
  have hrun : ∀ pieces, Cutting readSize stream pieces →
      (p.runBodyProbe pieces).verdict = some (.error .utf8) ∧
        (p.runBodyProbe pieces).sent = (heardAt p stream (validUpTo stream)).sent := by
    intro pieces hcut
    rcases run_cases hcut with ⟨s, t, hs, hr⟩ | ⟨m, hm, -⟩
    · rw [hr]
      refine ⟨rfl, ?_⟩
      -- between the two the commands sent are the same
      obtain ⟨hascii, hvalid⟩ := hs.reaches
      have hsize := hs.size
      have hlow : (heardAt p stream (validUpTo stream)).sent <+: (heardAt p stream s).sent := by
        rw [(heardAt_sent_eq_iff (Nat.le_trans firstRead_le asciiLength_le_validUpTo)
          h.undecided).mpr h.silent]
        exact heardAt_sent (by omega)
      have hhigh : (heardAt p stream s).sent <+: (heardAt p stream (validUpTo stream)).sent :=
        heardAt_sent hvalid
      exact hhigh.eq_of_length (Nat.le_antisymm hhigh.length_le hlow.length_le)
    · exact absurd hm (hno m)
  refine ⟨fun pieces pieces' hcut hcut' => ?_, fun line hf hc => absurd hc (h.notFound line hf)⟩
  obtain ⟨hv, hs⟩ := hrun pieces hcut
  obtain ⟨hv', hs'⟩ := hrun pieces' hcut'
  exact ⟨hv.trans hv'.symm, hs.trans hs'.symm⟩

/-- Where the first and the last read that can fail both do, the same commands were sent. -/
theorem CutFree.sent_eq (h : CutFree p stream) (hlt : asciiLength stream < stream.length)
    (hvalid : validUpTo stream < stream.length) (hund : Undecided stream (validUpTo stream)) :
    (heardAt p stream (validUpTo stream)).sent =
      (heardAt p stream (asciiLength stream + 1 - readSize)).sent := by
  have hpos := readSize_pos
  have hle := @firstRead_le stream
  obtain ⟨late, hlate, hrunLate⟩ := exists_stop (stops_at_validUpTo hvalid hund)
  obtain ⟨early, hearly, hrunEarly⟩ := exists_stop (stops_at_ascii hlt hle (by omega)
    (hund.mono (Nat.le_trans hle asciiLength_le_validUpTo)))
  have hsent := (h.same late early hlate hearly).2
  rw [hrunLate, hrunEarly] at hsent
  simpa only [Talk.decide] using hsent

/-- A byte in reach that is not ASCII stops some cutting, so none may read all. -/
theorem failsAlike_of_cutFree (h : CutFree p stream) (hn : ¬ AsciiInReach stream) :
    FailsAlike p stream := by
  unfold AsciiInReach at hn
  push Not at hn
  obtain ⟨s, j, hj, hv, hsj, hsize, hascii⟩ := hn
  have hq := asciiLength_le_of_not hj hascii
  have hlt : asciiLength stream < stream.length := by omega
  -- the read up to that byte
  have hstop : Stops stream (min s (asciiLength stream)) (asciiLength stream + 1) :=
    stops_at_ascii hlt (Nat.min_le_right _ _) (by have := readSize_pos; omega)
      (hv.mono (Nat.min_le_left _ _))
  obtain ⟨pieces, hcut, hrun⟩ := exists_stop hstop
  have hfails : ∀ pieces', Cutting readSize stream pieces' →
      (p.runBodyProbe pieces').verdict = some (.error .utf8) := by
    intro pieces' hcut'
    rw [(h.same pieces' pieces hcut' hcut).1, hrun]
    rfl
  have hno : ∀ m, ¬ ReadsAll stream m := by
    intro m hm
    obtain ⟨pieces', hcut', hrun'⟩ := exists_readsAll hm
    have hutf8 := hfails pieces' hcut'
    rw [hrun'] at hutf8
    exact heardAt_ne_utf8 hutf8
  obtain ⟨hvalid, hund⟩ := not_readsAll_iff.mp hno
  have hsilent := (heardAt_sent_eq_iff (Nat.le_trans firstRead_le asciiLength_le_validUpTo)
    hund).mp (h.sent_eq hlt hvalid hund)
  refine ⟨hvalid, hund, hsilent, fun line hf hc => ?_⟩
  have hfound := h.found line hf hc pieces hcut
  rw [hfails pieces hcut] at hfound
  cases hfound

end

/-- **Cutting does not matter exactly when** what a read before the verdict can reach is ASCII, or
every cutting fails at a read that is no text, with the same commands sent and an article that
is not there. -/
theorem cutFree_iff (p : Prober) (stream : List UInt8) :
    CutFree p stream ↔ AsciiInReach stream ∨ FailsAlike p stream := by
  constructor
  · intro h
    by_cases hn : AsciiInReach stream
    · exact .inl hn
    · exact .inr (failsAlike_of_cutFree h hn)
  · rintro (h | h)
    · exact cutFree_of_ascii h
    · exact cutFree_of_failsAlike h

def ascii (s : String) : List UInt8 := s.toList.map fun c => c.toNat.toUInt8

def exampleProber : Prober := ⟨"user", "secret", "a@b"⟩

/-- A dialogue up to the status line of the article, and its first bytes. -/
def exampleStream : List UInt8 :=
  ascii "200 ready\r\n281 welcome\r\n222 0 <a@b>\r\n" ++ [0x9E, 0x6B]

/-- The article is there, and a read with its first bytes behind the status line fails. -/
theorem body_in_same_read_fails : ¬ CutFree exampleProber exampleStream := by
  intro h
  have hcut : Cutting readSize exampleStream [exampleStream] :=
    cutting_singleton (by decide) (by decide)
  have hfound := h.found (ascii "222 0 <a@b>") (by decide) (by decide) _ hcut
  have hutf8 : (exampleProber.runBodyProbe [exampleStream]).verdict =
      some (.error .utf8) := by
    rw [Prober.runBodyProbe, Prober.readLoop, Prober.readOnce, if_neg (by decide),
      if_neg (by decide : ¬ IsUtf8 exampleStream)]
    rfl
  rw [hutf8] at hfound
  cases hfound

end StremioNzb.Addon

import Mathlib.Data.List.Basic
import StremioNzb.Lib.Runs

/-!
# Lookups that keep what they are answered

A lookup takes what is kept under the key of its question. Where nothing is kept it asks, and
other lookups go on until it is answered. Some answers are kept, for good. What is kept is the
latest answer worth it (`Lookups.Inv`).
-/

namespace StremioNzb.Lib

/-- Questions `χ`, kept under keys `κ`; an answer `ρ` is read as a value `ν`. -/
structure Memo (χ κ ρ ν : Type*) where
  key : χ → κ
  /-- Whether anyone is asked. -/
  asks : χ → Bool
  /-- The value where no one is. -/
  unasked : ν
  read : ρ → ν
  keeps : ρ → Bool

inductive LookupCall (χ ν : Type*) where
  | idle
  | asking (q : χ)
  | done (q : χ) (v : ν)
  deriving DecidableEq

structure Lookups (χ κ ρ ν : Type*) where
  kept : κ → Option ν
  calls : Nat → LookupCall χ ν
  /-- The answers so far, newest first. -/
  answered : List (χ × ρ)

inductive LookupAct (χ ρ : Type*) where
  | begin (i : Nat) (q : χ)
  | answer (i : Nat) (r : ρ)

variable {χ κ ρ ν : Type*}

namespace Lookups

def init : Lookups χ κ ρ ν := ⟨fun _ => none, fun _ => .idle, []⟩

def goto (s : Lookups χ κ ρ ν) (i : Nat) (call : LookupCall χ ν) : Lookups χ κ ρ ν :=
  { s with calls := Function.update s.calls i call }

end Lookups

namespace Memo
variable (m : Memo χ κ ρ ν)

def begin (s : Lookups χ κ ρ ν) (i : Nat) (q : χ) : Lookups χ κ ρ ν :=
  match s.kept (m.key q) with
  | some v => s.goto i (.done q v)
  | none => s.goto i (if m.asks q then .asking q else .done q m.unasked)

/-- The values that an answer leaves. -/
def keep [DecidableEq κ] (kept : κ → Option ν) (q : χ) (r : ρ) : κ → Option ν :=
  if m.keeps r then Function.update kept (m.key q) (some (m.read r)) else kept

variable [DecidableEq κ]

def step (s : Lookups χ κ ρ ν) : LookupAct χ ρ → Option (Lookups χ κ ρ ν)
  | .begin i q => match s.calls i with
    | .idle => some (m.begin s i q)
    | _ => none
  | .answer i r => match s.calls i with
    | .asking q => some
      { s.goto i (.done q (m.read r)) with
        kept := m.keep s.kept q r
        answered := (q, r) :: s.answered }
    | _ => none

/-! ## What is kept -/

/-- The latest answer under a key that is worth keeping. -/
def latest (log : List (χ × ρ)) (k : κ) : Option (χ × ρ) :=
  log.find? fun p => decide (m.key p.1 = k) && m.keeps p.2

/-- Where a value comes from: no one is asked, or the question is answered, or one with its
key is, with an answer worth keeping. -/
inductive Given (log : List (χ × ρ)) (q : χ) : ν → Prop where
  | unasked : m.asks q = false → Given log q m.unasked
  | own (r : ρ) : m.asks q → (q, r) ∈ log → Given log q (m.read r)
  | kept (q' : χ) (r : ρ) : (q', r) ∈ log → m.asks q' → m.key q' = m.key q → m.keeps r →
      Given log q (m.read r)

structure Inv (s : Lookups χ κ ρ ν) : Prop where
  kept : ∀ k, s.kept k = (m.latest s.answered k).map fun p => m.read p.2
  asking : ∀ i q, s.calls i = .asking q → m.asks q
  asked : ∀ p ∈ s.answered, m.asks p.1
  given : ∀ i q v, s.calls i = .done q v → m.Given s.answered q v

variable {m} {s t : Lookups χ κ ρ ν} {i : Nat} {q : χ} {r : ρ} {v : ν} {k : κ}
  {log log' : List (χ × ρ)} {acts : List (LookupAct χ ρ)}
  {ok : Lookups χ κ ρ ν → LookupAct χ ρ → Prop}

omit [DecidableEq κ] in
theorem Given.mono (h : m.Given log q v) (hs : log ⊆ log') : m.Given log' q v := by
  cases h with
  | unasked hq => exact .unasked hq
  | own r hq hmem => exact .own r hq (hs hmem)
  | kept q' r hmem hq hkey hk => exact .kept q' r (hs hmem) hq hkey hk

omit [DecidableEq κ] in
/-- Where no other question that is asked has the key, the value is one of its own answers. -/
theorem Given.exists_own (h : m.Given log q v) (hq : m.asks q)
    (hinj : ∀ q', m.asks q' → m.key q' = m.key q → q' = q) : ∃ r, (q, r) ∈ log ∧ v = m.read r := by
  cases h with
  | unasked hno => exact absurd hq (by simp [hno])
  | own r _ hmem => exact ⟨r, hmem, rfl⟩
  | kept q' r hmem hq' hkey _ => exact ⟨r, hinj q' hq' hkey ▸ hmem, rfl⟩

theorem latest_eq_some {p : χ × ρ} (h : m.latest log k = some p) :
    p ∈ log ∧ m.key p.1 = k ∧ m.keeps p.2 := by
  have hp := List.find?_some h
  rw [Bool.and_eq_true, decide_eq_true_eq] at hp
  exact ⟨List.mem_of_find?_eq_some h, hp⟩

/-- Nothing is kept under a key until an answer under it is worth it. -/
theorem latest_eq_none :
    m.latest log k = none ↔ ∀ p ∈ log, m.key p.1 = k → m.keeps p.2 = false := by
  simp only [latest, List.find?_eq_none, Bool.and_eq_true, decide_eq_true_eq, not_and,
    Bool.not_eq_true]

theorem inv_init (m : Memo χ κ ρ ν) : m.Inv .init where
  kept _ := rfl
  asking _ _ h := by cases h
  asked _ h := by cases h
  given _ _ _ h := by cases h

/-- A call moves, with what its new state must have. -/
theorem Inv.goto (h : m.Inv s) {call : LookupCall χ ν}
    (hasking : ∀ q, call = .asking q → m.asks q)
    (hgiven : ∀ q v, call = .done q v → m.Given s.answered q v) : m.Inv (s.goto i call) := by
  refine ⟨h.kept, fun j q hj => ?_, h.asked, fun j q v hj => ?_⟩
  · rcases eq_of_update hj with hj | hj
    · exact hasking q hj
    · exact h.asking j q hj
  · rcases eq_of_update hj with hj | hj
    · exact hgiven q v hj
    · exact h.given j q v hj

theorem Inv.given_of_kept (h : m.Inv s) (hk : s.kept (m.key q) = some v) :
    m.Given s.answered q v := by
  rw [h.kept, Option.map_eq_some_iff] at hk
  obtain ⟨p, hp, rfl⟩ := hk
  obtain ⟨hmem, hkey, hkeeps⟩ := latest_eq_some hp
  exact .kept p.1 p.2 hmem (h.asked p hmem) hkey hkeeps

theorem Inv.begin (h : m.Inv s) : m.Inv (m.begin s i q) := by
  unfold Memo.begin
  split
  · next v hv =>
    refine h.goto (fun _ hc => by cases hc) fun q' v' hc => ?_
    cases hc
    exact h.given_of_kept hv
  · refine h.goto (fun q' hc => ?_) fun q' v' hc => ?_
    · split at hc
      · next hq =>
        cases hc
        exact hq
      · cases hc
    · split at hc
      · cases hc
      · next hq =>
        cases hc
        exact .unasked (by simpa using hq)

theorem keep_eq (hk : ∀ k, s.kept k = (m.latest s.answered k).map fun p => m.read p.2) (q : χ)
    (r : ρ) (k : κ) : m.keep s.kept q r k =
      (m.latest ((q, r) :: s.answered) k).map fun p => m.read p.2 := by
  unfold keep
  split
  · next hr =>
    by_cases hkk : k = m.key q
    · subst hkk
      simp [latest, hr]
    · rw [Function.update_of_ne hkk, hk]
      simp [latest, Ne.symm hkk]
  · next hr => rw [hk]; simp [latest, hr]

theorem Inv.step (h : m.Inv s) {a : LookupAct χ ρ} (ht : m.step s a = some t) : m.Inv t := by
  cases a with
  | begin i q =>
    simp only [Memo.step] at ht
    split at ht
    · cases ht
      exact h.begin
    · cases ht
  | answer i r =>
    simp only [Memo.step] at ht
    split at ht
    · next q hi =>
      cases ht
      have hq := h.asking i q hi
      refine ⟨keep_eq h.kept q r, fun j q' hj => ?_, fun p hp => ?_, fun j q' v hj => ?_⟩
      · rcases eq_of_update hj with hj | hj
        · cases hj
        · exact h.asking j q' hj
      · rcases List.mem_cons.mp hp with rfl | hp
        · exact hq
        · exact h.asked p hp
      · rcases eq_of_update hj with hj | hj
        · cases hj
          exact .own r hq List.mem_cons_self
        · exact (h.given j q' v hj).mono (List.subset_cons_self _ _)
    · cases ht

theorem inv_of_run (h : Run m.step ok .init acts s) : m.Inv s :=
  h.inv (inv_init m) fun _ _ _ hi _ ht => hi.step ht

/-! ## What is kept is not asked for -/

/-- A call under the key that has not begun asking does not ask. -/
structure Spared (m : Memo χ κ ρ ν) (k : κ) (busy : Nat → Prop) (s : Lookups χ κ ρ ν) : Prop where
  kept : s.kept k ≠ none
  asking : ∀ i q, s.calls i = .asking q → m.key q = k → busy i

theorem keep_ne_none {kept : κ → Option ν} (h : kept k ≠ none) : m.keep kept q r k ≠ none := by
  unfold keep
  split
  · rw [Function.update_apply]
    split
    · exact Option.some_ne_none _
    · exact h
  · exact h

theorem Spared.step {busy : Nat → Prop} (h : m.Spared k busy s) {a : LookupAct χ ρ}
    (ht : m.step s a = some t) : m.Spared k busy t := by
  cases a with
  | begin i q =>
    simp only [Memo.step] at ht
    split at ht
    · cases ht
      unfold Memo.begin
      split
      · refine ⟨h.kept, fun j q' hj hkey => ?_⟩
        rcases eq_of_update hj with hj | hj
        · cases hj
        · exact h.asking j q' hj hkey
      · next hnone =>
        refine ⟨h.kept, fun j q' hj hkey => ?_⟩
        rcases eq_of_update hj with hj | hj
        · split at hj
          · -- the question that asks has nothing kept under its key
            cases hj
            exact absurd (hkey ▸ hnone) h.kept
          · cases hj
        · exact h.asking j q' hj hkey
    · cases ht
  | answer i r =>
    simp only [Memo.step] at ht
    split at ht
    · cases ht
      refine ⟨keep_ne_none h.kept, fun j q' hj hkey => ?_⟩
      rcases eq_of_update hj with hj | hj
      · cases hj
      · exact h.asking j q' hj hkey
    · cases ht

/-- **Once an answer is kept no later lookup asks**: those under its key that ask were asking. -/
theorem asking_of_run (h : Run m.step ok s acts t) (hk : s.kept (m.key q) ≠ none)
    (hj : t.calls i = .asking q) : ∃ q', s.calls i = .asking q' ∧ m.key q' = m.key q := by
  have hspared : m.Spared (m.key q)
      (fun j => ∃ q', s.calls j = .asking q' ∧ m.key q' = m.key q) t :=
    h.inv ⟨hk, fun _ q' hi hkey => ⟨q', hi, hkey⟩⟩ fun _ _ _ hi _ ht => hi.step ht
  exact hspared.asking i q hj rfl

end Memo

end StremioNzb.Lib

import Mathlib.Data.List.Induction
import StremioNzb.Lib.Runs

/-!
# A cell that is filled once

Callers ask a cell for its value. While it has none, one caller at a time takes a turn at its
initialiser; the others wait, and the next one takes a turn when the first has failed or has gone.
`OnceCell.Kept` is the invariant: turns do not overlap, all of them but the one that fills the
cell come to nothing (`Fruitless`), and every caller that is given a value is given the same.
Where the work of a turn lowers a rank, no caller has more than so many acts before it
(`Kept.ahead_le`, `Kept.step_ahead`), and the cell never stands still while one waits
(`Kept.enter_or_working`).
-/

namespace StremioNzb.Lib

variable {ι α π ε ν : Type _}

/-- An initialiser that makes progress by acts, until it has a result. -/
structure Initialiser (α π ε ν : Type _) where
  start : π
  work : π → α → π
  result : π → Option (Except ε ν)

namespace Initialiser

/-- The progress after the acts of one turn. -/
def after (I : Initialiser α π ε ν) (as : List α) : π := as.foldl I.work I.start

/-- No act follows a result. -/
def Open (I : Initialiser α π ε ν) (as : List α) : Prop :=
  ∀ bs a cs, as = bs ++ a :: cs → I.result (I.after bs) = none

variable {I : Initialiser α π ε ν} {as : List α} {a : α}

theorem after_snoc : I.after (as ++ [a]) = I.work (I.after as) a := by
  rw [after, List.foldl_append]
  rfl

theorem open_nil : I.Open [] := by
  intro bs a cs h
  simp at h

theorem Open.snoc (h : I.Open as) (hr : I.result (I.after as) = none) : I.Open (as ++ [a]) := by
  intro bs b cs heq
  rcases List.eq_nil_or_concat cs with rfl | ⟨ds, d, rfl⟩
  · rw [(List.append_inj_left' heq rfl).symm]
    exact hr
  · rw [List.concat_eq_append, ← List.cons_append, ← List.append_assoc] at heq
    exact h bs b ds (List.append_inj_left' heq rfl)

/-- What holds of the start and is kept by work holds after every open turn. -/
theorem Open.inv {P : List α → π → Prop} (h : I.Open as) (h0 : P [] I.start)
    (hwork : ∀ bs a p, I.result p = none → P bs p → P (bs ++ [a]) (I.work p a)) :
    P as (I.after as) := by
  suffices hs : ∀ bs cs, as = bs ++ cs → P bs (I.after bs) from hs as [] (List.append_nil _).symm
  intro bs
  induction bs using List.reverseRecOn with
  | nil => exact fun _ _ => h0
  | append_singleton bs b ih =>
    intro cs heq
    rw [List.append_assoc] at heq
    rw [after_snoc]
    exact hwork bs b _ (h bs b cs heq) (ih _ heq)

end Initialiser

/-- Where a caller stands. -/
inductive Caller (π ε ν : Type _) where
  | away
  | waiting
  | working (p : π)
  | got (v : ν)
  | failed (e : ε)
  | gone

/-- The cell, the caller that holds its permit, and all that was done, oldest first. -/
structure OnceCell (ι α π ε ν : Type _) where
  value : Option ν
  holder : Option ι
  callers : ι → Caller π ε ν
  log : List (ι × α)

namespace OnceCell

inductive Act (ι α : Type _) where
  | call (i : ι)
  | enter (i : ι)
  | work (i : ι) (a : α)
  | cancel (i : ι)

def empty : OnceCell ι α π ε ν := ⟨none, none, fun _ => .away, []⟩

variable [DecidableEq ι] (I : Initialiser α π ε ν) (c : OnceCell ι α π ε ν)

def move (i : ι) (caller : Caller π ε ν) : OnceCell ι α π ε ν :=
  { c with callers := Function.update c.callers i caller }

/-- The caller goes on working, or its result is there. -/
def settle (i : ι) (p : π) : OnceCell ι α π ε ν :=
  match I.result p with
  | none => { c.move i (.working p) with holder := some i }
  | some (.ok v) => { c.move i (.got v) with value := some v, holder := none }
  | some (.error e) => { c.move i (.failed e) with holder := none }

def record (i : ι) (a : α) : OnceCell ι α π ε ν := { c with log := c.log ++ [(i, a)] }

def release : OnceCell ι α π ε ν := { c with holder := none }

def step (c : OnceCell ι α π ε ν) : Act ι α → Option (OnceCell ι α π ε ν)
  | .call i => match c.callers i with
    | .away => some (c.move i .waiting)
    | _ => none
  | .enter i => match c.callers i with
    | .waiting => match c.value with
      | some v => some (c.move i (.got v))
      | none => if c.holder.isNone then some (c.settle I i I.start) else none
    | _ => none
  | .work i a => match c.callers i with
    | .working p => some ((c.record i a).settle I i (I.work p a))
    | _ => none
  | .cancel i => match c.callers i with
    | .waiting => some (c.move i .gone)
    | .working _ => some (c.release.move i .gone)
    | _ => none

/-! ## What a step does -/

inductive Effect (c : OnceCell ι α π ε ν) : OnceCell ι α π ε ν → Prop where
  | called (i : ι) : c.callers i = .away → Effect c (c.move i .waiting)
  | got (i : ι) (v : ν) : c.callers i = .waiting → c.value = some v → Effect c (c.move i (.got v))
  | entered (i : ι) : c.callers i = .waiting → c.value = none → c.holder = none →
      Effect c (c.settle I i I.start)
  | worked (i : ι) (a : α) (p : π) : c.callers i = .working p →
      Effect c ((c.record i a).settle I i (I.work p a))
  | left (i : ι) : c.callers i = .waiting → Effect c (c.move i .gone)
  | dropped (i : ι) (p : π) : c.callers i = .working p → Effect c (c.release.move i .gone)

variable {I : Initialiser α π ε ν} {c c' : OnceCell ι α π ε ν} {i j : ι} {p : π} {v : ν} {e : ε}

theorem step_effect {a : Act ι α} (h : c.step I a = some c') : Effect I c c' := by
  cases a with
  | call i =>
    simp only [step] at h
    split at h
    · next hi =>
      cases h
      exact .called i hi
    · cases h
  | enter i =>
    simp only [step] at h
    split at h
    · next hi =>
      split at h
      · next v hv =>
        cases h
        exact .got i v hi hv
      · next hv =>
        obtain ⟨hn, h⟩ := Option.ite_none_right_eq_some.mp h
        cases h
        exact .entered i hi hv (Option.isNone_iff_eq_none.mp hn)
    · cases h
  | work i a =>
    simp only [step] at h
    split at h
    · next p hi =>
      cases h
      exact .worked i a p hi
    · cases h
  | cancel i =>
    simp only [step] at h
    split at h
    · next hi =>
      cases h
      exact .left i hi
    · next p hi =>
      cases h
      exact .dropped i p hi
    · cases h

@[simp] theorem settle_log : (c.settle I i p).log = c.log := by
  unfold settle
  split <;> rfl

/-- The others stay where they are. -/
theorem settle_callers (hj : j ≠ i) : (c.settle I i p).callers j = c.callers j := by
  unfold settle
  split <;> exact Function.update_of_ne hj _ _

theorem Effect.log_initial (he : Effect I c c') : c.log <+: c'.log := by
  cases he with
  | entered i => simp only [settle_log, List.prefix_rfl]
  | worked i a p =>
    rw [settle_log]
    exact List.prefix_append _ _
  | called | got | left | dropped => exact List.prefix_rfl

/-! ## The invariant -/

/-- Turns that came to no value: each of one caller, failed or broken off. -/
inductive Fruitless (I : Initialiser α π ε ν) : List (ι × α) → Prop where
  | nil : Fruitless I []
  | turn {log : List (ι × α)} {i : ι} {as : List α} : Fruitless I log → I.Open as →
      (∀ v, I.result (I.after as) ≠ some (.ok v)) → Fruitless I (log ++ as.map (i, ·))

/-- The log ends in a turn of `i`, after turns that came to no value. -/
def EndsIn (I : Initialiser α π ε ν) (log : List (ι × α)) (i : ι) (as : List α) : Prop :=
  ∃ old, log = old ++ as.map (i, ·) ∧ Fruitless I old ∧ I.Open as

/-- What is known of a caller. -/
def Fits (I : Initialiser α π ε ν) (c : OnceCell ι α π ε ν) (i : ι) : Caller π ε ν → Prop
  | .away | .waiting | .gone => c.holder ≠ some i
  | .working p => c.holder = some i ∧ I.result p = none ∧ ∃ as, EndsIn I c.log i as ∧ p = I.after as
  | .got v => c.holder ≠ some i ∧ c.value = some v
  | .failed e => c.holder ≠ some i ∧ ∃ as log, log <+: c.log ∧ EndsIn I log i as ∧
    I.result (I.after as) = some (.error e)

structure Kept (I : Initialiser α π ε ν) (c : OnceCell ι α π ε ν) : Prop where
  callers : ∀ i, Fits I c i (c.callers i)
  shut : ∀ v, c.value = some v → c.holder = none
  idle : c.value = none → c.holder = none → Fruitless I c.log
  full : ∀ v, c.value = some v → ∃ i as, EndsIn I c.log i as ∧ I.result (I.after as) = some (.ok v)

section
omit [DecidableEq ι]

theorem kept_empty : (empty : OnceCell ι α π ε ν).Kept I where
  callers i := fun h => by cases h
  shut v h := by cases h
  idle _ _ := .nil
  full v h := by cases h

theorem Fits.holder {x : Caller π ε ν} (h : Fits I c i x) (hx : ∀ p, x ≠ .working p) :
    c.holder ≠ some i := by
  cases x with
  | working p => exact absurd rfl (hx p)
  | away | waiting | gone => exact h
  | got v => exact h.1
  | failed e => exact h.1

/-- Who is at work holds the permit, and the one who holds it is at work. -/
theorem Kept.holder_iff (h : c.Kept I) : c.holder = some i ↔ ∃ p, c.callers i = .working p := by
  have hi := h.callers i
  refine ⟨fun hh => ?_, fun ⟨p, hp⟩ => ?_⟩
  · refine Classical.byContradiction fun hno => ?_
    exact hi.holder (fun p hp => hno ⟨p, hp⟩) hh
  · rw [hp] at hi
    exact hi.1

/-- **One at a time.** -/
theorem Kept.single (h : c.Kept I) {p q : π} (hi : c.callers i = .working p)
    (hj : c.callers j = .working q) : i = j := by
  have h1 := h.holder_iff.mpr ⟨p, hi⟩
  have h2 := h.holder_iff.mpr ⟨q, hj⟩
  exact Option.some.inj (h1.symm.trans h2)

/-- With a value there is no one at work. -/
theorem Kept.no_work (h : c.Kept I) (hv : c.value = some v) : c.callers i ≠ .working p := by
  intro hi
  have := h.holder_iff.mpr ⟨p, hi⟩
  rw [h.shut v hv] at this
  cases this

theorem Kept.value_of_working (h : c.Kept I) (hi : c.callers i = .working p) : c.value = none := by
  cases hv : c.value with
  | none => rfl
  | some v => exact absurd hi (h.no_work hv)

/-- What is known of a caller that does not hold the permit stays known. -/
theorem Fits.mono {x : Caller π ε ν} (h : Fits I c j x) (hj : c.holder ≠ some j)
    (hj' : c'.holder ≠ some j) (hval : ∀ v, c.value = some v → c'.value = some v)
    (hlog : c.log <+: c'.log) : Fits I c' j x := by
  cases x with
  | away | waiting | gone => exact hj'
  | working p => exact absurd h.1 hj
  | got v => exact ⟨hj', hval v h.2⟩
  | failed e =>
    obtain ⟨-, as, log, hpre, hrest⟩ := h
    exact ⟨hj', as, log, hpre.trans hlog, hrest⟩

end

/-- A caller moves to where it fits, and the others stay. -/
theorem fits_update {callers : ι → Caller π ε ν} {x : Caller π ε ν} (hi : Fits I c i x)
    (hj : ∀ j, j ≠ i → Fits I c j (callers j)) (j : ι) :
    Fits I c j (Function.update callers i x j) := by
  by_cases hji : j = i
  · subst hji
    rwa [Function.update_self]
  · rw [Function.update_of_ne hji]
    exact hj j hji

theorem Kept.move (h : c.Kept I) {x : Caller π ε ν} (hi : Fits I c i x) : (c.move i x).Kept I where
  callers := fits_update hi fun j _ => h.callers j
  shut := h.shut
  idle := h.idle
  full := h.full

/-- The one who may work has done so, as the log says. -/
theorem Kept.settle (h : c.Kept I) {log : List (ι × α)} {as : List α} (hv : c.value = none)
    (hfree : c.holder = none ∨ c.holder = some i) (hlog : c.log <+: log)
    (hend : EndsIn I log i as) : ({ c with log := log }.settle I i (I.after as)).Kept I := by
  have hne : ∀ j, j ≠ i → c.holder ≠ some j := by
    intro j hji hj
    rcases hfree with hn | hn
    · rw [hn] at hj
      cases hj
    · rw [hn] at hj
      exact hji (Option.some.inj hj).symm
  obtain ⟨old, hold, hfruit, hopen⟩ := hend
  unfold OnceCell.settle
  split
  · next hr =>
    refine ⟨?_, fun v hv' => ?_, fun _ hh => ?_, fun v hv' => ?_⟩
    · refine fits_update ⟨rfl, hr, as, ⟨old, hold, hfruit, hopen⟩, rfl⟩ fun j hji => ?_
      exact (h.callers j).mono (hne j hji) (fun he => hji (Option.some.inj he).symm)
        (fun _ hw => hw) hlog
    · exact absurd (hv.symm.trans hv') (by simp)
    · cases hh
    · exact absurd (hv.symm.trans hv') (by simp)
  · next v hr =>
    refine ⟨?_, fun _ _ => rfl, fun hn _ => (by cases hn), fun w hw => ?_⟩
    · refine fits_update ⟨(Option.some_ne_none i).symm, rfl⟩ fun j hji => ?_
      refine (h.callers j).mono (hne j hji) (Option.some_ne_none j).symm (fun w hw => ?_) hlog
      exact absurd (hv.symm.trans hw) (by simp)
    · cases hw
      exact ⟨i, as, ⟨old, hold, hfruit, hopen⟩, hr⟩
  · next e hr =>
    refine ⟨?_, fun _ _ => rfl, fun _ _ => ?_, fun v hv' => ?_⟩
    · refine fits_update ⟨(Option.some_ne_none i).symm, as, log, List.prefix_rfl,
        ⟨old, hold, hfruit, hopen⟩, hr⟩ fun j hji => ?_
      exact (h.callers j).mono (hne j hji) (Option.some_ne_none j).symm (fun _ hw => hw) hlog
    · show Fruitless I log
      rw [hold]
      exact hfruit.turn hopen fun v hok => by rw [hr] at hok; cases hok
    · exact absurd (hv.symm.trans hv') (by simp)

/-- The one at work goes; its turn comes to nothing. -/
theorem Kept.dropped (h : c.Kept I) (hi : c.callers i = .working p) :
    (c.release.move i .gone).Kept I := by
  have hfit := h.callers i
  rw [hi] at hfit
  obtain ⟨hh, hr, as, ⟨old, hold, hfruit, hopen⟩, rfl⟩ := hfit
  refine ⟨?_, fun _ _ => rfl, fun _ _ => ?_, h.full⟩
  · refine fits_update (Option.some_ne_none i).symm fun j hji => ?_
    refine (h.callers j).mono (fun hj => ?_) (Option.some_ne_none j).symm (fun _ hw => hw)
      List.prefix_rfl
    rw [hh] at hj
    exact hji (Option.some.inj hj).symm
  · show Fruitless I c.log
    rw [hold]
    exact hfruit.turn hopen fun v hok => by rw [hr] at hok; cases hok

/-- **The invariant is kept.** -/
theorem Kept.step (h : c.Kept I) {a : Act ι α} (hs : c.step I a = some c') : c'.Kept I := by
  cases step_effect hs with
  | called i hi =>
    have hfit := h.callers i
    rw [hi] at hfit
    exact h.move hfit
  | left i hi =>
    have hfit := h.callers i
    rw [hi] at hfit
    exact h.move hfit
  | got i v hi hv =>
    have hfit := h.callers i
    rw [hi] at hfit
    exact h.move ⟨hfit, hv⟩
  | entered i hi hv hh =>
    exact h.settle hv (.inl hh) List.prefix_rfl
      ⟨c.log, (List.append_nil _).symm, h.idle hv hh, Initialiser.open_nil⟩
  | worked i a p hi =>
    have hfit := h.callers i
    rw [hi] at hfit
    obtain ⟨hh, hr, as, ⟨old, hold, hfruit, hopen⟩, rfl⟩ := hfit
    rw [← Initialiser.after_snoc]
    refine h.settle (h.value_of_working hi) (.inr hh) (List.prefix_append _ _)
      ⟨old, ?_, hfruit, hopen.snoc hr⟩
    rw [hold, List.append_assoc, List.map_append]
    rfl
  | dropped i p hi => exact h.dropped hi

/-- **A value is there for good**, and no one works for it again. -/
theorem Kept.stays (h : c.Kept I) {a : Act ι α} (hs : c.step I a = some c')
    (hv : c.value = some v) : c'.value = some v ∧ c'.log = c.log := by
  cases step_effect hs with
  | called i hi => exact ⟨hv, rfl⟩
  | left i hi => exact ⟨hv, rfl⟩
  | got i w hi hw => exact ⟨hv, rfl⟩
  | entered i hi hn hh =>
    rw [hn] at hv
    cases hv
  | worked i a p hi => exact absurd hi (h.no_work hv)
  | dropped i p hi => exact absurd hi (h.no_work hv)

/-! ## Progress -/

end OnceCell

/-- A rank that work lowers as long as it has no result. -/
def Initialiser.Ranked (I : Initialiser α π ε ν) (rank : π → Nat) : Prop :=
  ∀ p a, I.result p = none → rank (I.work p a) < rank p

/-- The acts that a caller has still before it, at most: to call, to enter, to work, and to take
its result. -/
def Caller.ahead (I : Initialiser α π ε ν) (rank : π → Nat) : Caller π ε ν → Nat
  | .away => rank I.start + 3
  | .waiting => rank I.start + 2
  | .working p => rank p + 1
  | .got _ | .failed _ => 1
  | .gone => 0

/-- The caller has called and has not gone. -/
def Caller.Inside : Caller π ε ν → Prop
  | .away | .gone => False
  | .waiting | .working _ | .got _ | .failed _ => True

namespace Initialiser
variable {I : Initialiser α π ε ν} {p : π} {rank : π → Nat}

/-- Where a caller is by the progress of its turn. -/
def settled (I : Initialiser α π ε ν) (p : π) : Caller π ε ν :=
  match I.result p with
  | none => .working p
  | some (.ok v) => .got v
  | some (.error e) => .failed e

theorem settled_inside : (I.settled p).Inside := by
  unfold settled
  split <;> trivial

theorem settled_ahead_le : (I.settled p).ahead I rank ≤ rank p + 1 := by
  unfold settled
  split <;> simp [Caller.ahead]

end Initialiser

namespace OnceCell

def Act.caller : Act ι α → ι
  | .call i | .enter i | .work i _ | .cancel i => i

/-- Where an act takes its caller. -/
inductive Goes (I : Initialiser α π ε ν) (c : OnceCell ι α π ε ν) :
    Act ι α → Caller π ε ν → Prop where
  | called (i : ι) : c.callers i = .away → Goes I c (.call i) .waiting
  | got (i : ι) (v : ν) : c.callers i = .waiting → Goes I c (.enter i) (.got v)
  | entered (i : ι) : c.callers i = .waiting → Goes I c (.enter i) (I.settled I.start)
  | worked (i : ι) (a : α) (p : π) : c.callers i = .working p →
      Goes I c (.work i a) (I.settled (I.work p a))
  | left (i : ι) : (c.callers i = .waiting ∨ ∃ p, c.callers i = .working p) →
      Goes I c (.cancel i) .gone

variable [DecidableEq ι] {I : Initialiser α π ε ν} {c c' : OnceCell ι α π ε ν} {i j : ι} {p : π}
  {rank : π → Nat}

omit [DecidableEq ι] in
/-- No turn rises above its start. -/
theorem Kept.ahead_le (h : c.Kept I) (hr : I.Ranked rank) (hi : c.callers i ≠ .away) :
    (c.callers i).ahead I rank ≤ rank I.start + 2 := by
  have hfit := h.callers i
  cases hc : c.callers i with
  | away => exact absurd hc hi
  | working p =>
    rw [hc] at hfit
    obtain ⟨-, -, as, ⟨-, -, -, hopen⟩, rfl⟩ := hfit
    have hle : rank (I.after as) ≤ rank I.start :=
      hopen.inv (P := fun _ p => rank p ≤ rank I.start) (Nat.le_refl _) fun _ a p hn hp =>
        Nat.le_trans (Nat.le_of_lt (hr p a hn)) hp
    show rank _ + 1 ≤ _
    omega
  | waiting => exact Nat.le_refl _
  | got | failed | gone => simp [Caller.ahead]

theorem settle_eq : (c.settle I i p).callers = Function.update c.callers i (I.settled p) := by
  unfold settle Initialiser.settled
  split <;> rfl

/-- **An act moves its caller only**, and this is where to. -/
theorem step_goes {a : Act ι α} (h : c.step I a = some c') :
    ∃ x, Goes I c a x ∧ c'.callers = Function.update c.callers a.caller x := by
  cases a with
  | call i =>
    simp only [step] at h
    split at h
    · next hi =>
      cases h
      exact ⟨_, .called i hi, rfl⟩
    · cases h
  | enter i =>
    simp only [step] at h
    split at h
    · next hi =>
      split at h
      · next v _ =>
        cases h
        exact ⟨_, .got i v hi, rfl⟩
      · obtain ⟨-, h⟩ := Option.ite_none_right_eq_some.mp h
        cases h
        exact ⟨_, .entered i hi, settle_eq⟩
    · cases h
  | work i a =>
    simp only [step] at h
    split at h
    · next p hi =>
      cases h
      exact ⟨_, .worked i a p hi, settle_eq⟩
    · cases h
  | cancel i =>
    simp only [step] at h
    split at h
    · next hi =>
      cases h
      exact ⟨_, .left i (.inl hi), rfl⟩
    · next p hi =>
      cases h
      exact ⟨_, .left i (.inr ⟨p, hi⟩), rfl⟩
    · cases h

theorem step_callers {a : Act ι α} (h : c.step I a = some c') (hj : j ≠ a.caller) :
    c'.callers j = c.callers j := by
  obtain ⟨x, -, hx⟩ := step_goes h
  rw [hx, Function.update_of_ne hj]

/-- Who acts is in the cell until it cancels. -/
theorem step_inside {a : Act ι α} (h : c.step I a = some c') (ha : ∀ i, a ≠ .cancel i) :
    (c'.callers a.caller).Inside := by
  obtain ⟨x, hgoes, hx⟩ := step_goes h
  rw [hx, Function.update_self]
  cases hgoes with
  | called | got => trivial
  | entered | worked => exact Initialiser.settled_inside
  | left i => exact absurd rfl (ha i)

theorem step_cancel (h : c.step I (.cancel i) = some c') : c'.callers i = .gone := by
  obtain ⟨x, hgoes, hx⟩ := step_goes h
  cases hgoes
  rw [hx]
  exact Function.update_self ..

theorem not_working_of_cancel (h : c.step I (.cancel i) = none) : c.callers i ≠ .working p := by
  intro hi
  simp [step, hi] at h

/-- **Each act of a caller is one less before it.** -/
theorem Kept.step_ahead (h : c.Kept I) (hr : I.Ranked rank) {a : Act ι α}
    (hs : c.step I a = some c') :
    (c'.callers a.caller).ahead I rank < (c.callers a.caller).ahead I rank := by
  obtain ⟨x, hgoes, hx⟩ := step_goes hs
  rw [hx, Function.update_self]
  cases hgoes with
  | called i hi =>
    rw [Act.caller, hi]
    exact Nat.lt_succ_self _
  | got i v hi =>
    rw [Act.caller, hi]
    exact Nat.succ_lt_succ (Nat.succ_pos _)
  | entered i hi =>
    rw [Act.caller, hi]
    exact Nat.lt_succ_of_le Initialiser.settled_ahead_le
  | worked i a p hi =>
    have hfit := h.callers i
    rw [hi] at hfit
    rw [Act.caller, hi]
    exact Nat.lt_of_le_of_lt Initialiser.settled_ahead_le (Nat.succ_lt_succ (hr p a hfit.2.1))
  | left i hi =>
    rcases hi with hi | ⟨p, hi⟩ <;> rw [Act.caller, hi] <;> exact Nat.succ_pos _

/-- **Who waits may enter**, or someone is at work. -/
theorem Kept.enter_or_working (h : c.Kept I) (hi : c.callers i = .waiting) :
    (c.step I (.enter i)).isSome ∨ ∃ j p, c.callers j = .working p := by
  simp only [OnceCell.step, hi]
  cases hv : c.value with
  | some v => exact .inl rfl
  | none =>
    cases hh : c.holder with
    | none => exact .inl rfl
    | some j =>
      obtain ⟨p, hp⟩ := h.holder_iff.mp hh
      exact .inr ⟨j, p, hp⟩

/-- Who is at work goes on, whatever comes of it. -/
theorem work_isSome {a : α} (hi : c.callers i = .working p) :
    (c.step I (.work i a)).isSome := by
  simp only [step, hi]
  rfl

end OnceCell

end StremioNzb.Lib

import Mathlib.Data.List.Basic
import Mathlib.Tactic

/-!
# Runs of a step function

A system is a partial step function: `step s a = none` means that the action `a`
is not enabled in `s`. The choice of the action carries all nondeterminism, so an
interleaving of several parties is just a list of actions. A guard restricts the
steps of a run by the state each of them is taken in.
-/

namespace Kiomq.Foundations

variable {σ α : Type*} (step : σ → α → Option σ)

/-- The state after performing the actions in order, if all of them are enabled. -/
def run : σ → List α → Option σ
  | s, [] => some s
  | s, a :: as => (step s a).bind fun t => run t as

/-- Every step that the run takes satisfies `guard` in the state before the step. -/
def Guarded (guard : σ → α → Prop) : σ → List α → Prop
  | _, [] => True
  | s, a :: as => guard s a ∧ ∀ t, step s a = some t → Guarded guard t as

/-- `P` holds in every state that the run passes through, both ends included. -/
def Always (P : σ → Prop) : σ → List α → Prop
  | s, [] => P s
  | s, a :: as => P s ∧ ∀ t, step s a = some t → Always P t as

variable {step}

/-- A concrete run can be checked against a decidable guard. -/
instance decidableGuarded (guard : σ → α → Prop) [∀ s a, Decidable (guard s a)] :
    ∀ (s : σ) (as : List α), Decidable (Guarded step guard s as)
  | _, [] => isTrue trivial
  | s, a :: as =>
    match h : step s a with
    | none => decidable_of_iff (guard s a) ⟨fun hg => ⟨hg, by simp [h]⟩, And.left⟩
    | some t =>
      have := decidableGuarded guard t as
      decidable_of_iff (guard s a ∧ Guarded step guard t as)
        ⟨fun hg => ⟨hg.1, fun u hu => by
          obtain rfl := Option.some.inj (h.symm.trans hu)
          exact hg.2⟩, fun hg => ⟨hg.1, hg.2 t h⟩⟩

theorem run_cons {s u : σ} {a : α} {as : List α} :
    run step s (a :: as) = some u ↔ ∃ t, step s a = some t ∧ run step t as = some u :=
  Option.bind_eq_some_iff

theorem guarded_true (s : σ) (as : List α) : Guarded step (fun _ _ => True) s as := by
  induction as generalizing s with
  | nil => trivial
  | cons a as ih => exact ⟨trivial, fun t _ => ih t⟩

/-- The run rule: what every guarded step preserves, every guarded run preserves. -/
theorem run_invariant {guard : σ → α → Prop} {Inv : σ → Prop}
    (hstep : ∀ s a t, Inv s → guard s a → step s a = some t → Inv t)
    {s t : σ} {as : List α} (hs : Inv s) (hg : Guarded step guard s as)
    (hrun : run step s as = some t) : Inv t := by
  induction as generalizing s with
  | nil =>
    obtain rfl := Option.some.inj hrun
    exact hs
  | cons a as ih =>
    obtain ⟨u, hu, hrun⟩ := run_cons.mp hrun
    exact ih (hstep s a u hs hg.1 hu) (hg.2 u hu) hrun

theorem run_invariant_all {Inv : σ → Prop}
    (hstep : ∀ s a t, Inv s → step s a = some t → Inv t)
    {s t : σ} {as : List α} (hs : Inv s) (hrun : run step s as = some t) : Inv t :=
  run_invariant (fun s a t hs _ => hstep s a t hs) hs (guarded_true s as) hrun

/-- What an invariant of guarded steps implies of a guarded step holds of every step of a guarded
run. -/
theorem guarded_of_guarded {first guard : σ → α → Prop} {Inv : σ → Prop}
    (hstep : ∀ s a t, Inv s → first s a → step s a = some t → Inv t)
    (himp : ∀ s a, Inv s → first s a → guard s a) {s : σ} {as : List α} (hs : Inv s)
    (hg : Guarded step first s as) : Guarded step guard s as := by
  induction as generalizing s with
  | nil => trivial
  | cons a as ih =>
    exact ⟨himp s a hs hg.1, fun t ht => ih (hstep s a t hs hg.1 ht) (hg.2 t ht)⟩

theorem guarded_of_invariant {guard : σ → α → Prop} {Inv : σ → Prop}
    (hstep : ∀ s a t, Inv s → step s a = some t → Inv t) (himp : ∀ s a, Inv s → guard s a)
    {s : σ} (hs : Inv s) (as : List α) : Guarded step guard s as :=
  guarded_of_guarded (fun s a t hs _ => hstep s a t hs) (fun s a hs _ => himp s a hs) hs
    (guarded_true s as)

/-- Two guards that agree as long as an invariant holds are met by the same runs. -/
theorem guarded_congr {guard guard' : σ → α → Prop} {Inv : σ → Prop}
    (hstep : ∀ s a t, Inv s → step s a = some t → Inv t)
    (hiff : ∀ s a, Inv s → (guard s a ↔ guard' s a)) {s : σ} (hs : Inv s) (as : List α) :
    Guarded step guard s as ↔ Guarded step guard' s as := by
  induction as generalizing s with
  | nil => exact Iff.rfl
  | cons a as ih =>
    refine and_congr (hiff s a hs) (forall₂_congr fun t ht => ?_)
    exact ih (hstep s a t hs ht)

theorem guarded_and_congr {first guard guard' : σ → α → Prop} {Inv : σ → Prop}
    (hstep : ∀ s a t, Inv s → first s a → step s a = some t → Inv t)
    (hiff : ∀ s a, Inv s → (guard s a ↔ guard' s a)) {s : σ} (hs : Inv s) (as : List α) :
    Guarded step first s as ∧ Guarded step guard s as ↔
      Guarded step (fun s a => first s a ∧ guard' s a) s as := by
  induction as generalizing s with
  | nil => exact and_self_iff
  | cons a as ih =>
    constructor
    · rintro ⟨⟨hfirst, hfirsts⟩, hguard, hguards⟩
      refine ⟨⟨hfirst, (hiff s a hs).mp hguard⟩, fun t ht => ?_⟩
      exact (ih (hstep s a t hs hfirst ht)).mp ⟨hfirsts t ht, hguards t ht⟩
    · rintro ⟨⟨hfirst, hguard⟩, hrest⟩
      have hboth := fun t ht => (ih (hstep s a t hs hfirst ht)).mpr (hrest t ht)
      exact ⟨⟨hfirst, fun t ht => (hboth t ht).1⟩, (hiff s a hs).mpr hguard,
        fun t ht => (hboth t ht).2⟩

/-- An invariant of guarded steps holds in every state of a guarded run. -/
theorem always_of_invariant {guard : σ → α → Prop} {Inv P : σ → Prop}
    (hstep : ∀ s a t, Inv s → guard s a → step s a = some t → Inv t)
    (himp : ∀ s, Inv s → P s) {s : σ} {as : List α} (hs : Inv s)
    (hg : Guarded step guard s as) : Always step P s as := by
  induction as generalizing s with
  | nil => exact himp s hs
  | cons a as ih => exact ⟨himp s hs, fun t ht => ih (hstep s a t hs hg.1 ht) (hg.2 t ht)⟩

theorem always_of_invariant_all {Inv P : σ → Prop}
    (hstep : ∀ s a t, Inv s → step s a = some t → Inv t) (himp : ∀ s, Inv s → P s)
    {s : σ} (hs : Inv s) (as : List α) : Always step P s as :=
  always_of_invariant (fun s a t hs _ => hstep s a t hs) himp hs (guarded_true s as)

/-- The exact form of the rule: if in addition every step against the guard leads at once
to a state without `P`, then `P` holds throughout a run just if the run is guarded. The
property `J` is what all steps into `P` preserve, guarded or not. -/
theorem always_iff_guarded_into {guard : σ → α → Prop} {I J P : σ → Prop}
    (hJ : ∀ s a t, J s → step s a = some t → P t → J t)
    (hI : ∀ s a t, I s → guard s a → step s a = some t → I t) (himp : ∀ s, I s → P s)
    (hneed : ∀ s a, J s → ¬ guard s a → ∃ t, step s a = some t ∧ ¬ P t)
    {s : σ} (hs : I s) (hs' : J s) (as : List α) :
    Always step P s as ↔ Guarded step guard s as := by
  constructor
  · intro h
    clear hs
    induction as generalizing s with
    | nil => trivial
    | cons a as ih =>
      have hnext : ∀ t, step s a = some t → P t := by
        intro t ht
        cases as with
        | nil => exact h.2 t ht
        | cons b bs => exact (h.2 t ht).1
      refine ⟨?_, fun t ht => ih (hJ s a t hs' ht (hnext t ht)) (h.2 t ht)⟩
      by_contra hg
      obtain ⟨t, ht, hnot⟩ := hneed s a hs' hg
      exact hnot (hnext t ht)
  · exact fun h => always_of_invariant hI himp hs h

theorem always_iff_guarded {guard : σ → α → Prop} {I J P : σ → Prop}
    (hJ : ∀ s a t, J s → step s a = some t → J t)
    (hI : ∀ s a t, I s → guard s a → step s a = some t → I t) (himp : ∀ s, I s → P s)
    (hneed : ∀ s a, J s → ¬ guard s a → ∃ t, step s a = some t ∧ ¬ P t)
    {s : σ} (hs : I s) (hs' : J s) (as : List α) :
    Always step P s as ↔ Guarded step guard s as :=
  always_iff_guarded_into (fun s a t hs ht _ => hJ s a t hs ht) hI himp hneed hs hs' as

theorem Always.of_run {P : σ → Prop} {s t : σ} {as : List α} (h : Always step P s as)
    (hrun : run step s as = some t) : P t := by
  induction as generalizing s with
  | nil =>
    obtain rfl := Option.some.inj hrun
    exact h
  | cons a as ih =>
    obtain ⟨u, hu, hrun⟩ := run_cons.mp hrun
    exact ih (h.2 u hu) hrun

theorem not_always_of_run {P : σ → Prop} (bad : σ → Bool) (hbad : ∀ t, bad t = true → ¬ P t)
    {s : σ} {as : List α} (h : (run step s as).any bad = true) : ¬ Always step P s as := by
  intro halways
  cases hrun : run step s as with
  | none => simp [hrun] at h
  | some t =>
    rw [hrun, Option.any_some] at h
    exact hbad t h (halways.of_run hrun)

end Kiomq.Foundations

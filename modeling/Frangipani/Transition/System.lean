/-
Labelled transition systems with a partial step function.

Every scheduling choice, every message outcome and every value read from the
environment is a part of the label, so a step is a partial function of the
state and the label and a run is a list of labels.  A step that is not enabled
returns `none`.

`ReachableWhile ok` is reachability by runs whose every step satisfies `ok` in
the state it starts from.  A safety property that holds of a program only as
long as some step condition is met is a statement about those states.
-/
import Mathlib.Tactic.ByContra

universe u v

namespace Frangipani
namespace Transition

structure System (σ : Type u) (α : Type v) where
  init : σ → Prop
  step : σ → α → Option σ

namespace System

variable {σ : Type u} {α : Type v} (S : System σ α)

/-- Take the labels in order.  The result is `none` as soon as one of them is
not enabled. -/
def run : σ → List α → Option σ
  | s, [] => some s
  | s, a :: as => (S.step s a).bind fun t => run t as

/-- The last state of a run. -/
def final (s : σ) (as : List α) : σ := (S.run s as).getD s

/-- The states of runs whose every step satisfies `ok` in its own pre-state. -/
inductive ReachableWhile (ok : σ → α → Prop) : σ → Prop
  | init {s : σ} : S.init s → ReachableWhile ok s
  | step {s t : σ} {a : α} :
      ReachableWhile ok s → ok s a → S.step s a = some t → ReachableWhile ok t

def Reachable : σ → Prop := S.ReachableWhile fun _ _ => True

/-- `P` holds in every state of the run, the first and the last included. -/
def AlongRun (P : σ → Prop) : σ → List α → Prop
  | s, [] => P s
  | s, a :: as => P s ∧ ∀ t, S.step s a = some t → AlongRun P t as

/-- Every step the run takes satisfies `ok` in the state before it. -/
def StepsMeet (ok : σ → α → Prop) : σ → List α → Prop
  | _, [] => True
  | s, a :: as => ∀ t, S.step s a = some t → ok s a ∧ StepsMeet ok t as

/-- A run on concrete labels can be checked step by step. -/
instance decidableStepsMeet {ok : σ → α → Prop} [∀ s a, Decidable (ok s a)] :
    ∀ (s : σ) (as : List α), Decidable (S.StepsMeet ok s as)
  | _, [] => isTrue trivial
  | s, a :: as =>
    match h : S.step s a with
    | none => isTrue fun t ht => by rw [h] at ht; cases ht
    | some m =>
      have : Decidable (S.StepsMeet ok m as) := decidableStepsMeet m as
      decidable_of_iff (ok s a ∧ S.StepsMeet ok m as)
        ⟨fun hm t ht => by rw [h] at ht; cases ht; exact hm, fun hm => hm m h⟩

variable {S}

theorem run_cons_eq_some {s t : σ} {a : α} {as : List α}
    (h : S.run s (a :: as) = some t) : ∃ m, S.step s a = some m ∧ S.run m as = some t := by
  simpa [run, Option.bind_eq_some_iff] using h

theorem run_eq_some_final {s : σ} {as : List α} (h : (S.run s as).isSome = true) :
    S.run s as = some (S.final s as) := by
  obtain ⟨t, ht⟩ := Option.isSome_iff_exists.mp h
  rw [System.final, ht]
  rfl

/-- The invariant rule.  `P` holds initially and every step that satisfies `ok`
keeps it. -/
theorem ReachableWhile.invariant {ok : σ → α → Prop} {P : σ → Prop}
    (hinit : ∀ s, S.init s → P s)
    (hstep : ∀ s a t, P s → ok s a → S.step s a = some t → P t)
    {s : σ} (h : S.ReachableWhile ok s) : P s := by
  induction h with
  | init h => exact hinit _ h
  | step _ hok hs ih => exact hstep _ _ _ ih hok hs

theorem Reachable.invariant {P : σ → Prop} (hinit : ∀ s, S.init s → P s)
    (hstep : ∀ s a t, P s → S.step s a = some t → P t)
    {s : σ} (h : S.Reachable s) : P s :=
  ReachableWhile.invariant hinit (fun s a t hP _ hs => hstep s a t hP hs) h

theorem ReachableWhile.run {ok : σ → α → Prop} (as : List α) :
    ∀ {s t : σ}, S.ReachableWhile ok s → S.StepsMeet ok s as → S.run s as = some t →
      S.ReachableWhile ok t := by
  induction as with
  | nil =>
    intro s t hs _ hrun
    cases hrun
    exact hs
  | cons a as ih =>
    intro s t hs hmeet hrun
    obtain ⟨m, hm, hrest⟩ := run_cons_eq_some hrun
    obtain ⟨hok, hmeet⟩ := hmeet m hm
    exact ih (.step hs hok hm) hmeet hrest

theorem ReachableWhile.final {ok : σ → α → Prop} (as : List α) {s : σ}
    (hs : S.ReachableWhile ok s) (hmeet : S.StepsMeet ok s as)
    (hrun : (S.run s as).isSome = true) : S.ReachableWhile ok (S.final s as) := by
  obtain ⟨t, ht⟩ := Option.isSome_iff_exists.mp hrun
  unfold System.final
  rw [ht]
  exact hs.run as hmeet ht

theorem stepsMeet_of_forall {ok : σ → α → Prop} (h : ∀ s a, ok s a) (s : σ) (as : List α) :
    S.StepsMeet ok s as := by
  induction as generalizing s with
  | nil => trivial
  | cons a as ih => exact fun t _ => ⟨h s a, ih t⟩

theorem Reachable.final (as : List α) {s : σ} (hs : S.Reachable s)
    (hrun : (S.run s as).isSome = true) : S.Reachable (S.final s as) :=
  ReachableWhile.final as hs (stepsMeet_of_forall (fun _ _ => trivial) s as) hrun

theorem AlongRun.run {P : σ → Prop} {as : List α} :
    ∀ {s t : σ}, S.AlongRun P s as → S.run s as = some t → P t := by
  induction as with
  | nil =>
    intro s t h hrun
    cases hrun
    exact h
  | cons a as ih =>
    intro s t h hrun
    obtain ⟨m, hm, hrest⟩ := run_cons_eq_some hrun
    exact ih (h.2 m hm) hrest

theorem AlongRun.final {P : σ → Prop} {s : σ} {as : List α} (h : S.AlongRun P s as)
    (hrun : (S.run s as).isSome = true) : P (S.final s as) := by
  obtain ⟨t, ht⟩ := Option.isSome_iff_exists.mp hrun
  unfold System.final
  rw [ht]
  exact h.run ht

theorem AlongRun.mono {P Q : σ → Prop} (hPQ : ∀ s, P s → Q s) {as : List α} :
    ∀ {s : σ}, S.AlongRun P s as → S.AlongRun Q s as := by
  induction as with
  | nil => exact fun h => hPQ _ h
  | cons a as ih => exact fun h => ⟨hPQ _ h.1, fun t ht => ih (h.2 t ht)⟩

theorem AlongRun.and {P Q : σ → Prop} {as : List α} :
    ∀ {s : σ}, S.AlongRun P s as → S.AlongRun Q s as → S.AlongRun (fun s => P s ∧ Q s) s as := by
  induction as with
  | nil => exact fun hP hQ => ⟨hP, hQ⟩
  | cons a as ih => exact fun hP hQ => ⟨⟨hP.1, hQ.1⟩, fun t ht => ih (hP.2 t ht) (hQ.2 t ht)⟩

theorem StepsMeet.alongRun {ok : σ → α → Prop} {P : σ → Prop}
    (hstep : ∀ s a t, P s → ok s a → S.step s a = some t → P t) {as : List α} :
    ∀ {s : σ}, P s → S.StepsMeet ok s as → S.AlongRun P s as := by
  induction as with
  | nil => exact fun hs _ => hs
  | cons a as ih =>
    intro s hs hmeet
    refine ⟨hs, fun t ht => ?_⟩
    obtain ⟨hok, hmeet⟩ := hmeet t ht
    exact ih (hstep s a t hs hok ht) hmeet

theorem AlongRun.stepsMeet {ok : σ → α → Prop} {P : σ → Prop}
    (hok : ∀ s a t, P s → S.step s a = some t → ok s a) {as : List α} :
    ∀ {s : σ}, S.AlongRun P s as → S.StepsMeet ok s as := by
  induction as with
  | nil => exact fun _ => trivial
  | cons a as ih => exact fun h t ht => ⟨hok _ a t h.1 ht, ih (h.2 t ht)⟩

/-- A run has no more steps of a kind than a measure that these steps lower and no step raises. -/
theorem StepsMeet.countP_add_le {ok : σ → α → Prop} {J : σ → Prop} {μ : σ → Nat} {p : α → Bool}
    (hstep : ∀ s a t, J s → ok s a → S.step s a = some t → J t ∧ μ t + (if p a then 1 else 0) ≤ μ s)
    {as : List α} :
    ∀ {s t : σ}, J s → S.StepsMeet ok s as → S.run s as = some t → as.countP p + μ t ≤ μ s := by
  induction as with
  | nil =>
    intro s t _ _ hrun
    cases hrun
    exact Nat.le_of_eq (Nat.zero_add _)
  | cons a as ih =>
    intro s t hs hmeet hrun
    obtain ⟨m, hm, hrest⟩ := run_cons_eq_some hrun
    obtain ⟨hok, hmeet⟩ := hmeet m hm
    obtain ⟨hJ, hle⟩ := hstep s a m hs hok hm
    have := ih hJ hmeet hrest
    rw [List.countP_cons]
    omega

/-- A run is no longer than a measure that each of its steps lowers. -/
theorem StepsMeet.length_add_le {ok : σ → α → Prop} {J : σ → Prop} {μ : σ → Nat}
    (hstep : ∀ s a t, J s → ok s a → S.step s a = some t → J t ∧ μ t < μ s) {as : List α}
    {s t : σ} (hs : J s) (hmeet : S.StepsMeet ok s as) (hrun : S.run s as = some t) :
    as.length + μ t ≤ μ s := by
  have := hmeet.countP_add_le (p := fun _ => true) hstep hs hrun
  rwa [List.countP_true] at this

/-- When `ok` is exactly what keeps `P` from failing in the next state, a run
keeps `P` throughout if and only if each of its steps meets `ok`.  The
invariant `J` may say more than `P`. -/
theorem alongRun_iff_stepsMeet {ok : σ → α → Prop} {P J : σ → Prop}
    (hP : ∀ s, J s → P s)
    (hgood : ∀ s a t, J s → ok s a → S.step s a = some t → J t)
    (hbad : ∀ s a t, J s → ¬ ok s a → S.step s a = some t → ¬ P t)
    {as : List α} : ∀ {s : σ}, J s → (S.AlongRun P s as ↔ S.StepsMeet ok s as) := by
  induction as with
  | nil => exact fun hs => ⟨fun _ => trivial, fun _ => hP _ hs⟩
  | cons a as ih =>
    intro s hs
    constructor
    · rintro ⟨-, hrest⟩ t ht
      have hok : ok s a := by
        by_contra hno
        refine hbad s a t hs hno ht ?_
        have := hrest t ht
        cases as with
        | nil => exact this
        | cons b bs => exact this.1
      exact ⟨hok, (ih (hgood s a t hs hok ht)).mp (hrest t ht)⟩
    · intro hmeet
      refine ⟨hP s hs, fun t ht => ?_⟩
      obtain ⟨hok, hmeet⟩ := hmeet t ht
      exact (ih (hgood s a t hs hok ht)).mpr hmeet

end System
end Transition
end Frangipani

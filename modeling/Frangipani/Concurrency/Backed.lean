/-
Operations on a store that is kept in some other way.

The operations of `Locking` work on one store.  Here there is a memory in its place, of which
nothing is known but how it answers the calls: copies of the values at several places, say,
that are passed on from one thread to another.  `view` says what store the memory stands for,
and `shown` what an answer tells besides the value.  The memory can also do something of its
own with a location whose lock is free.

If the memory answers as the store that it stands for, the threads on the memory take the
steps of the threads on this store.  What those steps keep is kept then.
-/
import Frangipani.Concurrency.Locking
import Frangipani.Transition.System

namespace Frangipani
namespace Concurrency

open Transition Program

/-- A memory `μ` for the calls of the threads `T`. -/
structure Backing (C : Type) (A : C → Type) (L V I μ T : Type) where
  /-- A thread takes a lock that is free, or waits for the memory. -/
  acquire : μ → T → L → Option μ
  access : μ → T → (c : C) → A c × μ
  /-- What the memory does with a location on its own. -/
  settle : μ → L → Option μ
  view : μ → L → V
  shown : (c : C) → A c → I

/-- The threads on a memory.  The history is that of `Interleaved`. -/
structure Backed (C : Type) (A : C → Type) (L I Op α μ T : Type) where
  mem : μ
  owner : L → Option T
  task : T → Option (Task C A L I Op α)
  order : List (T × Op × List I)
  returned : List (T × α)

inductive BackedStep (L Op T : Type)
  | start (t : T) (op : Op)
  | go (t : T)
  | finish (t : T)
  | settle (l : L)
  deriving DecidableEq, Repr

namespace Backing

variable {C : Type} {A : C → Type} {L V I Op α μ T : Type} [DecidableEq L] [DecidableEq T]
variable (B : Backing C A L V I μ T) (M : Locking C A L V I Op α)

/-! ## Steps -/

def call (s : Backed C A L I Op α μ T) (t : T) (τ : Task C A L I Op α) :
    Option (Backed C A L I Op α μ T) :=
  match τ.rest with
  | .done _ => none
  | .call c k =>
    match M.use c with
    | .acquire l =>
      match s.owner l with
      | none => (B.acquire s.mem t l).map fun mem =>
        { s with
          mem
          owner := Function.update s.owner l (some t)
          task := Function.update s.task t (some (τ.take l (k (M.granted c)))) }
      | some _ => none
    | .release l => some
      { s with
        owner := Function.update s.owner l none
        task := Function.update s.task t (some (τ.drop l (k (M.granted c))))
        order := τ.commit t s.order }
    | .access l =>
      let r := B.access s.mem t c
      some
        { s with
          mem := r.2
          task := Function.update s.task t (some (τ.got l c (B.shown c r.1) r.1 (k r.1))) }

def finish (s : Backed C A L I Op α μ T) (t : T) (τ : Task C A L I Op α) :
    Option (Backed C A L I Op α μ T) :=
  match τ.rest with
  | .done a => some
    { s with
      task := Function.update s.task t none
      order := τ.commit t s.order
      returned := s.returned ++ [(t, a)] }
  | .call .. => none

def step (s : Backed C A L I Op α μ T) : BackedStep L Op T → Option (Backed C A L I Op α μ T)
  | .start t op =>
    match s.task t with
    | none => some { s with task := Function.update s.task t (some (M.newTask op)) }
    | some _ => none
  | .go t => (s.task t).bind fun τ => B.call M s t τ
  | .finish t => (s.task t).bind fun τ => finish s t τ
  | .settle l =>
    match s.owner l with
    | none => (B.settle s.mem l).map ({ s with mem := · })
    | some _ => none

variable {B M}
variable {s s' : Backed C A L I Op α μ T} {t : T} {τ : Task C A L I Op α}

theorem call_cases (hs : B.call M s t τ = some s') : ∃ c k l, τ.rest = .call c k ∧
      ((M.use c = .acquire l ∧ s.owner l = none ∧ ∃ mem, B.acquire s.mem t l = some mem ∧
          s' = { s with
            mem
            owner := Function.update s.owner l (some t)
            task := Function.update s.task t (some (τ.take l (k (M.granted c)))) }) ∨
        (M.use c = .release l ∧ s' = { s with
            owner := Function.update s.owner l none
            task := Function.update s.task t (some (τ.drop l (k (M.granted c))))
            order := τ.commit t s.order }) ∨
        (M.use c = .access l ∧ s' = { s with
            mem := (B.access s.mem t c).2
            task := Function.update s.task t (some (τ.got l c
              (B.shown c (B.access s.mem t c).1) (B.access s.mem t c).1
              (k (B.access s.mem t c).1))) })) := by
  rw [call] at hs
  cases hrest : τ.rest with
  | done a =>
    rw [hrest] at hs
    cases hs
  | call c k =>
    simp only [hrest] at hs
    refine ⟨c, k, ?_⟩
    cases huse : M.use c with
    | acquire l =>
      simp only [huse] at hs
      split at hs
      · rename_i hfree
        obtain ⟨mem, hmem, rfl⟩ := Option.map_eq_some_iff.mp hs
        exact ⟨l, rfl, .inl ⟨rfl, hfree, mem, hmem, rfl⟩⟩
      · cases hs
    | release l =>
      simp only [huse] at hs
      exact ⟨l, rfl, .inr (.inl ⟨rfl, (Option.some.inj hs).symm⟩)⟩
    | access l =>
      simp only [huse] at hs
      exact ⟨l, rfl, .inr (.inr ⟨rfl, (Option.some.inj hs).symm⟩)⟩

theorem settle_eq_some {l : L} (hs : B.step M s (.settle l) = some s') :
    s.owner l = none ∧ ∃ mem, B.settle s.mem l = some mem ∧ s' = { s with mem } := by
  simp only [step] at hs
  split at hs
  · rename_i hfree
    obtain ⟨mem, hmem, rfl⟩ := Option.map_eq_some_iff.mp hs
    exact ⟨hfree, mem, hmem, rfl⟩
  · cases hs

variable (B M)

/-! ## The store that the memory stands for -/

/-- The threads on the store. -/
def viewed (s : Backed C A L I Op α μ T) : Interleaved C A L V I Op α T where
  store := B.view s.mem
  owner := s.owner
  task := s.task
  order := s.order
  returned := s.returned

def input (s : Backed C A L I Op α μ T) (t : T) : I :=
  match s.task t with
  | some { rest := .call c _, .. } => B.shown c (B.access s.mem t c).1
  | _ => M.blank

/-- No operation is under way at first, whatever the memory is. -/
def system : System (Backed C A L I Op α μ T) (BackedStep L Op T) where
  init s := Locking.Fresh (B.viewed s)
  step := B.step M

/-- The step of the threads on the store.  They do nothing when the memory does something of its
own. -/
def label (s : Backed C A L I Op α μ T) : BackedStep L Op T → Option (ThreadStep I Op T)
  | .start t op => some (.start t op)
  | .go t => some (.go t (B.input M s t))
  | .finish t => some (.finish t)
  | .settle _ => none

/-- The memory gives the answer of the store, and changes as the store does. -/
structure Answers (mem : μ) (t : T) (c : C) (l : L) : Prop where
  answer : (M.answer c (B.shown c (B.access mem t c).1) (B.view mem l)).1 = (B.access mem t c).1
  view : B.view (B.access mem t c).2 = Function.update (B.view mem) l
    (M.answer c (B.shown c (B.access mem t c).1) (B.view mem l)).2

def ServesCall (mem : μ) (t : T) (c : C) : Prop :=
  match M.use c with
  | .acquire l => ∀ mem' ∈ B.acquire mem t l, B.view mem' = B.view mem
  | .access l => B.Answers M mem t c l
  | .release _ => True

/-- What the memory does in a step is what the store does. -/
def Serves (s : Backed C A L I Op α μ T) : BackedStep L Op T → Prop
  | .start .. | .finish _ => True
  | .go t => ∀ τ ∈ s.task t, ∀ c k, τ.rest = .call c k → B.ServesCall M s.mem t c
  | .settle l => ∀ mem ∈ B.settle s.mem l, B.view mem = B.view s.mem

variable {B M}

omit [DecidableEq L] [DecidableEq T] in
theorem input_of_call (hτ : s.task t = some τ) {c : C} {k : A c → Prog C A α}
    (hrest : τ.rest = .call c k) :
    B.input M s t = B.shown c (B.access s.mem t c).1 := by
  obtain ⟨op, inputs, rest, locks, peeks, released⟩ := τ
  cases hrest
  rw [input, hτ]

theorem call_refines (hτ : s.task t = some τ) (hserves : B.Serves M s (.go t))
    (hs : B.call M s t τ = some s') :
    M.call (B.viewed s) t τ (B.input M s t) = some (B.viewed s') := by
  obtain ⟨c, k, l, hrest, hcases⟩ := call_cases hs
  have hcall := hserves τ hτ c k hrest
  rw [ServesCall] at hcall
  rw [Locking.call, input_of_call hτ hrest]
  obtain ⟨huse, hfree, mem, hmem, rfl⟩ | ⟨huse, rfl⟩ | ⟨huse, rfl⟩ := hcases
  · simp only [huse] at hcall
    simp only [hrest, huse, Locking.acquire, viewed, hfree, hcall mem hmem]
  · simp only [hrest, huse, Locking.release, viewed]
  · simp only [huse] at hcall
    simp only [hrest, huse, Locking.access, viewed, hcall.answer, hcall.view]

/-- A step on the memory is one on the store, or leaves the store as it is. -/
theorem step_refines {a : BackedStep L Op T} (hserves : B.Serves M s a)
    (hs : B.step M s a = some s') :
    (B.label M s a = none ∧ B.viewed s' = B.viewed s) ∨
      ∃ b, B.label M s a = some b ∧ M.step (B.viewed s) b = some (B.viewed s') := by
  cases a with
  | start t op =>
    refine .inr ⟨_, rfl, ?_⟩
    simp only [step] at hs
    split at hs <;> cases hs
    rename_i hnone
    show M.start (B.viewed s) t op = _
    rw [Locking.start, show (B.viewed s).task t = none from hnone]
    rfl
  | go t =>
    refine .inr ⟨_, rfl, ?_⟩
    obtain ⟨τ, hτ, hs⟩ := Option.bind_eq_some_iff.mp hs
    exact Option.bind_eq_some_iff.mpr ⟨τ, hτ, call_refines hτ hserves hs⟩
  | finish t =>
    refine .inr ⟨_, rfl, ?_⟩
    obtain ⟨τ, hτ, hfinish⟩ := Option.bind_eq_some_iff.mp hs
    refine Option.bind_eq_some_iff.mpr ⟨τ, hτ, ?_⟩
    rw [finish] at hfinish
    rw [Locking.finish]
    cases hrest : τ.rest with
    | call c k =>
      rw [hrest] at hfinish
      cases hfinish
    | done a =>
      rw [hrest] at hfinish
      cases hfinish
      rfl
  | settle l =>
    obtain ⟨_, mem, hmem, rfl⟩ := settle_eq_some hs
    refine .inl ⟨rfl, ?_⟩
    simp only [viewed, hserves mem hmem]

theorem keeps_of_refines {P : Interleaved C A L V I Op α T → Prop}
    {ok : Interleaved C A L V I Op α T → ThreadStep I Op T → Prop}
    (hP : ∀ x b x', P x → ok x b → M.step x b = some x' → P x') {a : BackedStep L Op T}
    (h : P (B.viewed s)) (hok : ∀ b ∈ B.label M s a, ok (B.viewed s) b) (hserves : B.Serves M s a)
    (hs : B.step M s a = some s') : P (B.viewed s') := by
  obtain ⟨-, hsame⟩ | ⟨b, hb, hstep⟩ := step_refines hserves hs
  · exact hsame ▸ h
  · exact hP _ b _ h (hok b hb) hstep

/-! ## Waiting for the memory -/

variable (B M)

/-- A lock that is free can be had, if not at once then when the memory has settled it. -/
def Yields : Prop :=
  ∀ mem t l, (B.acquire mem t l).isSome = true ∨
    ∃ mem' ∈ B.settle mem l, (B.acquire mem' t l).isSome = true

/-- The thread can take a step, if not at once then when the memory has settled something. -/
def Goes (s : Backed C A L I Op α μ T) (t : T) : Prop :=
  (B.step M s (.go t)).isSome = true ∨ (B.step M s (.finish t)).isSome = true ∨
    ∃ l, ∃ s' ∈ B.step M s (.settle l), (B.step M s' (.go t)).isSome = true

variable {B M}

theorem call_isSome {c : C} {k : A c → Prog C A α} (hrest : τ.rest = .call c k)
    (hfree : ∀ l, M.use c = .acquire l →
      s.owner l = none ∧ (B.acquire s.mem t l).isSome = true) :
    (B.call M s t τ).isSome = true := by
  simp only [call, hrest]
  cases huse : M.use c with
  | acquire l =>
    obtain ⟨hnone, hgrant⟩ := hfree l huse
    simp only [hnone, Option.isSome_map, hgrant]
  | release l => rfl
  | access l => rfl

theorem goes_of_free (hB : B.Yields) (hτ : s.task t = some τ)
    (hfree : ∀ l, M.wanted τ.rest = some l → s.owner l = none) : B.Goes M s t := by
  have hgo : ∀ s' : Backed C A L I Op α μ T, s'.task t = some τ →
      B.step M s' (.go t) = B.call M s' t τ := by
    intro s' hτ'
    rw [step, hτ']
    rfl
  cases hrest : τ.rest with
  | done a =>
    refine .inr (.inl ?_)
    rw [step, hτ, Option.bind_some, finish, hrest]
    rfl
  | call c k =>
    cases huse : M.use c with
    | acquire l =>
      have hnone : s.owner l = none := hfree l (by rw [hrest, Locking.wanted, huse]; rfl)
      have hcall : ∀ mem, (B.acquire mem t l).isSome = true →
          (B.step M { s with mem } (.go t)).isSome = true := by
        intro mem hmem
        rw [hgo { s with mem } hτ]
        refine call_isSome hrest fun l' hl' => ?_
        cases huse.symm.trans hl'
        exact ⟨hnone, hmem⟩
      obtain hgrant | ⟨mem, hmem, hgrant⟩ := hB s.mem t l
      · exact .inl (hcall s.mem hgrant)
      · refine .inr (.inr ⟨l, { s with mem }, ?_, hcall mem hgrant⟩)
        simp only [step, hnone]
        exact Option.map_eq_some_iff.mpr ⟨mem, hmem, rfl⟩
    | release l | access l =>
      refine .inl ?_
      rw [hgo s hτ]
      exact call_isSome hrest fun l' hl' => by cases huse.symm.trans hl'

end Backing
end Concurrency
end Frangipani

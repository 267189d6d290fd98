/-
Operations that run at the same time and lock what they work on.

Each location of a store has a lock.  An operation is a program whose calls take a lock,
free one, or work on the value of one location, and the threads take their calls in any
order.  A lock is given when it is free, and a release frees it, whoever has it.

`order` and `returned` are the history of a run.  The first has the operations in the order
of their first releases, and the reads of a task without a lock stay with it as `peeks`.
-/
import Mathlib.Data.Finset.Max
import Mathlib.Data.Fintype.Basic
import Frangipani.Program.Effect

namespace Frangipani
namespace Concurrency

open Program

/-- What a call does. -/
inductive LockUse (L : Type)
  | acquire (l : L)
  | release (l : L)
  | access (l : L)
  deriving DecidableEq

namespace LockUse

variable {L : Type}

/-- The lock that a call frees. -/
def freed : LockUse L → Option L
  | .release l => some l
  | .acquire _ | .access _ => none

/-- The lock that a call waits for. -/
def wanted : LockUse L → Option L
  | .acquire l => some l
  | .release _ | .access _ => none

end LockUse

/-- Operations on a store with a lock for each location. -/
structure Locking (C : Type) (A : C → Type) (L V I Op α : Type) where
  use : C → LockUse L
  /-- The answer to an access and the value after it.  The input is what the value does not
  decide. -/
  answer : (c : C) → I → V → A c × V
  /-- The input of an access that is given none. -/
  blank : I
  /-- The answer to a call on a lock. -/
  granted : (c : C) → A c
  program : Op → Prog C A α

/-- An access without the lock: the call, its input and its answer. -/
structure Peek (C : Type) (A : C → Type) (I : Type) where
  call : C
  input : I
  answer : A call

/-- An operation under way. -/
structure Task (C : Type) (A : C → Type) (L I Op α : Type) where
  op : Op
  /-- The inputs of its accesses so far. -/
  inputs : List I
  /-- What is left of the program. -/
  rest : Prog C A α
  locks : List L
  peeks : List (Peek C A I)
  /-- It has released a lock. -/
  released : Bool

structure Interleaved (C : Type) (A : C → Type) (L V I Op α T : Type) where
  store : L → V
  owner : L → Option T
  task : T → Option (Task C A L I Op α)
  /-- The operations in the order of their first releases. -/
  order : List (T × Op × List I)
  /-- The results in the order of the returns. -/
  returned : List (T × α)

/-- A thread starts an operation, makes its next call, or returns.  The input of a call counts when
it is an access. -/
inductive ThreadStep (I Op T : Type)
  | start (t : T) (op : Op)
  | go (t : T) (i : I)
  | finish (t : T)

namespace Task

variable {C : Type} {A : C → Type} {L I Op α T : Type} [DecidableEq L]

/-- The task after it has taken a lock, with what is left of its program then. -/
def take (τ : Task C A L I Op α) (l : L) (rest : Prog C A α) : Task C A L I Op α :=
  { τ with rest, locks := l :: τ.locks }

def drop (τ : Task C A L I Op α) (l : L) (rest : Prog C A α) : Task C A L I Op α :=
  { τ with
    rest
    locks := τ.locks.filter fun l' => l' ≠ l
    released := true }

/-- The task after an access with the input `i` and the answer `x`. -/
def got (τ : Task C A L I Op α) (l : L) (c : C) (i : I) (x : A c) (rest : Prog C A α) :
    Task C A L I Op α :=
  { τ with
    inputs := τ.inputs ++ [i]
    rest
    peeks := if l ∈ τ.locks then τ.peeks else ⟨c, i, x⟩ :: τ.peeks }

omit [DecidableEq L] in
/-- The order after the first release of a task, which may have been before. -/
def commit (τ : Task C A L I Op α) (t : T) (order : List (T × Op × List I)) :
    List (T × Op × List I) :=
  if τ.released then order else order ++ [(t, τ.op, τ.inputs)]

end Task

namespace Locking

variable {C : Type} {A : C → Type} {L V I Op α T : Type} [DecidableEq L] [DecidableEq T]
variable (M : Locking C A L V I Op α)

def newTask (op : Op) : Task C A L I Op α where
  op := op
  inputs := []
  rest := M.program op
  locks := []
  peeks := []
  released := false

/-! ## Steps -/

/-- The thread waits while the lock is taken. -/
def acquire (s : Interleaved C A L V I Op α T) (t : T) (τ : Task C A L I Op α) (l : L)
    (rest : Prog C A α) : Option (Interleaved C A L V I Op α T) :=
  match s.owner l with
  | none => some
    { s with
      owner := Function.update s.owner l (some t)
      task := Function.update s.task t (some (τ.take l rest)) }
  | some _ => none

def release (s : Interleaved C A L V I Op α T) (t : T) (τ : Task C A L I Op α) (l : L)
    (rest : Prog C A α) : Interleaved C A L V I Op α T :=
  { s with
    owner := Function.update s.owner l none
    task := Function.update s.task t (some (τ.drop l rest))
    order := τ.commit t s.order }

def access (s : Interleaved C A L V I Op α T) (t : T) (τ : Task C A L I Op α) (l : L) (c : C)
    (i : I) (k : A c → Prog C A α) : Interleaved C A L V I Op α T :=
  let r := M.answer c i (s.store l)
  { s with
    store := Function.update s.store l r.2
    task := Function.update s.task t (some (τ.got l c i r.1 (k r.1))) }

/-- The next call of a task. -/
def call (s : Interleaved C A L V I Op α T) (t : T) (τ : Task C A L I Op α) (i : I) :
    Option (Interleaved C A L V I Op α T) :=
  match τ.rest with
  | .done _ => none
  | .call c k =>
    match M.use c with
    | .acquire l => acquire s t τ l (k (M.granted c))
    | .release l => some (release s t τ l (k (M.granted c)))
    | .access l => some (M.access s t τ l c i k)

def finish (s : Interleaved C A L V I Op α T) (t : T) (τ : Task C A L I Op α) :
    Option (Interleaved C A L V I Op α T) :=
  match τ.rest with
  | .done a => some
    { s with
      task := Function.update s.task t none
      order := τ.commit t s.order
      returned := s.returned ++ [(t, a)] }
  | .call .. => none

def start (s : Interleaved C A L V I Op α T) (t : T) (op : Op) :
    Option (Interleaved C A L V I Op α T) :=
  match s.task t with
  | none => some { s with task := Function.update s.task t (some (M.newTask op)) }
  | some _ => none

def step (s : Interleaved C A L V I Op α T) :
    ThreadStep I Op T → Option (Interleaved C A L V I Op α T)
  | .start t op => M.start s t op
  | .go t i => (s.task t).bind fun τ => M.call s t τ i
  | .finish t => (s.task t).bind fun τ => finish s t τ

/-- No operation is under way. -/
def Fresh (s : Interleaved C A L V I Op α T) : Prop :=
  (∀ l, s.owner l = none) ∧ (∀ t, s.task t = none) ∧ s.order = [] ∧ s.returned = []

variable {M}
variable {s s' : Interleaved C A L V I Op α T} {t : T} {τ : Task C A L I Op α}

omit [DecidableEq L] in
theorem start_eq_some {op : Op} (hs : M.start s t op = some s') : s.task t = none ∧
      s' = { s with task := Function.update s.task t (some (M.newTask op)) } := by
  rw [start] at hs
  split at hs
  · rename_i hnone
    exact ⟨hnone, (Option.some.inj hs).symm⟩
  · cases hs

theorem acquire_eq_some {l : L} {rest : Prog C A α} (hs : acquire s t τ l rest = some s') :
    s.owner l = none ∧
      s' = { s with
        owner := Function.update s.owner l (some t)
        task := Function.update s.task t (some (τ.take l rest)) } := by
  rw [acquire] at hs
  split at hs
  · rename_i hnone
    exact ⟨hnone, (Option.some.inj hs).symm⟩
  · cases hs

omit [DecidableEq L] in
theorem finish_eq_some (hs : finish s t τ = some s') : ∃ a, τ.rest = .done a ∧
      s' = { s with
        task := Function.update s.task t none
        order := τ.commit t s.order
        returned := s.returned ++ [(t, a)] } := by
  rw [finish] at hs
  split at hs
  · rename_i a hrest
    exact ⟨a, hrest, (Option.some.inj hs).symm⟩
  · cases hs

theorem call_cases {i : I} (hs : M.call s t τ i = some s') : ∃ c k l, τ.rest = .call c k ∧
      ((M.use c = .acquire l ∧ acquire s t τ l (k (M.granted c)) = some s') ∨
        (M.use c = .release l ∧ s' = release s t τ l (k (M.granted c))) ∨
        (M.use c = .access l ∧ s' = M.access s t τ l c i k)) := by
  rw [call] at hs
  cases hrest : τ.rest with
  | done a =>
    rw [hrest] at hs
    cases hs
  | call c k =>
    simp only [hrest] at hs
    refine ⟨c, k, ?_⟩
    cases huse : M.use c with
    | acquire l =>
      simp only [huse] at hs
      exact ⟨l, rfl, .inl ⟨rfl, hs⟩⟩
    | release l =>
      simp only [huse] at hs
      exact ⟨l, rfl, .inr (.inl ⟨rfl, (Option.some.inj hs).symm⟩)⟩
    | access l =>
      simp only [huse] at hs
      exact ⟨l, rfl, .inr (.inr ⟨rfl, (Option.some.inj hs).symm⟩)⟩

/-! ## Who has a lock -/

variable (M)

/-- A task releases what it has, all of it before it returns. -/
def OwnRest (τ : Task C A L I Op α) : Prog C A α → Prop
  | .done _ => τ.locks = []
  | .call c _ => ∀ l ∈ (M.use c).freed, l ∈ τ.locks

def Own (s : Interleaved C A L V I Op α T) : ThreadStep I Op T → Prop
  | .start .. => True
  | .go t _ | .finish t => ∀ τ ∈ s.task t, M.OwnRest τ τ.rest

instance (τ : Task C A L I Op α) : (p : Prog C A α) → Decidable (M.OwnRest τ p)
  | .done _ => inferInstanceAs (Decidable (τ.locks = []))
  | .call c _ => inferInstanceAs (Decidable (∀ l ∈ (M.use c).freed, l ∈ τ.locks))

/-- The owners of the locks are the tasks that have taken them. -/
def Owned (s : Interleaved C A L V I Op α T) : Prop :=
  ∀ l t, s.owner l = some t ↔ ∃ τ, s.task t = some τ ∧ l ∈ τ.locks

variable {M}

omit [DecidableEq L] [DecidableEq T] in
theorem Owned.mem_locks_iff (h : Owned s) (hτ : s.task t = some τ) {l : L} :
    l ∈ τ.locks ↔ s.owner l = some t := by
  rw [h l t, hτ]
  simp

omit [DecidableEq L] [DecidableEq T] in
theorem Owned.not_mem_of_ne (h : Owned s) {t u : T} {τ σ : Task C A L I Op α}
    (hτ : s.task t = some τ) (hσ : s.task u = some σ) (hut : u ≠ t) {l : L} (hl : l ∈ σ.locks) :
    l ∉ τ.locks := fun hmem =>
  hut (Option.some.inj (((h.mem_locks_iff hσ).mp hl).symm.trans ((h.mem_locks_iff hτ).mp hmem)))

omit [DecidableEq L] [DecidableEq T] in
theorem Owned.not_mem_of_free (h : Owned s) (hτ : s.task t = some τ) {l : L}
    (hl : s.owner l = none) :
    l ∉ τ.locks := by
  rw [h.mem_locks_iff hτ, hl]
  exact fun heq => by cases heq

omit [DecidableEq L] in
/-- One thread has taken a step, and the locks of the others are the same. -/
theorem Owned.update (h : Owned s) {x : Option (Task C A L I Op α)}
    (htask : s'.task = Function.update s.task t x)
    (hmine : ∀ l, s'.owner l = some t ↔ ∃ τ, x = some τ ∧ l ∈ τ.locks)
    (hothers : ∀ l u, u ≠ t → (s'.owner l = some u ↔ s.owner l = some u)) : Owned s' := by
  intro l u
  rw [htask]
  by_cases hut : u = t
  · subst hut
    rw [Function.update_self]
    exact hmine l
  · rw [Function.update_of_ne hut, hothers l u hut]
    exact h l u

theorem Owned.acquire (h : Owned s) (hτ : s.task t = some τ) {l : L} {rest : Prog C A α}
    (hs : acquire s t τ l rest = some s') : Owned s' := by
  obtain ⟨hfree, rfl⟩ := acquire_eq_some hs
  refine h.update rfl (fun l' => ?_) fun l' u hut => ?_
  · show Function.update s.owner l (some t) l' = some t ↔ _
    by_cases hll : l' = l
    · subst hll
      simp [Task.take]
    · rw [Function.update_of_ne hll, ← h.mem_locks_iff hτ]
      simp [Task.take, hll]
  · show Function.update s.owner l (some t) l' = some u ↔ _
    by_cases hll : l' = l
    · subst hll
      simp [hfree, Ne.symm hut]
    · rw [Function.update_of_ne hll]

theorem Owned.release (h : Owned s) (hτ : s.task t = some τ) {l : L} (hl : l ∈ τ.locks)
    (rest : Prog C A α) : Owned (release s t τ l rest) := by
  have howner := (h.mem_locks_iff hτ).mp hl
  refine h.update rfl (fun l' => ?_) fun l' u hut => ?_
  · show Function.update s.owner l none l' = some t ↔ _
    by_cases hll : l' = l
    · subst hll
      simp [Task.drop]
    · rw [Function.update_of_ne hll, ← h.mem_locks_iff hτ]
      simp [Task.drop, hll]
  · show Function.update s.owner l none l' = some u ↔ _
    by_cases hll : l' = l
    · subst hll
      simp [howner, Ne.symm hut]
    · rw [Function.update_of_ne hll]

theorem Owned.step (h : Owned s) {a : ThreadStep I Op T} (hok : M.Own s a)
    (hs : M.step s a = some s') : Owned s' := by
  cases a with
  | start t op =>
    obtain ⟨hnone, rfl⟩ := start_eq_some hs
    refine h.update rfl (fun l => ?_) fun _ _ _ => Iff.rfl
    show s.owner l = some t ↔ _
    rw [h l t, hnone]
    simp [newTask]
  | go t i =>
    obtain ⟨τ, hτ, hs⟩ := Option.bind_eq_some_iff.mp hs
    have hown := hok τ hτ
    obtain ⟨c, k, l, hrest, ⟨_, hs⟩ | ⟨huse, rfl⟩ | ⟨_, rfl⟩⟩ := call_cases hs
    · exact h.acquire hτ hs
    · rw [hrest] at hown
      exact h.release hτ (hown l (by rw [huse]; rfl)) _
    · refine h.update rfl (fun l' => ?_) fun _ _ _ => Iff.rfl
      show s.owner l' = some t ↔ _
      rw [← h.mem_locks_iff hτ]
      simp [Task.got]
  | finish t =>
    obtain ⟨τ, hτ, hs⟩ := Option.bind_eq_some_iff.mp hs
    have hown := hok τ hτ
    obtain ⟨a, hrest, rfl⟩ := finish_eq_some hs
    rw [hrest] at hown
    refine h.update rfl (fun l => ?_) fun _ _ _ => Iff.rfl
    show s.owner l = some t ↔ _
    rw [← h.mem_locks_iff hτ, show τ.locks = [] from hown]
    simp

omit [DecidableEq L] [DecidableEq T] in
theorem Owned.of_fresh (h : Fresh s) : Owned s := by
  intro l t
  rw [h.1 l, h.2.1 t]
  simp

/-! ## Waiting -/

variable (M)

/-- The lock that a program asks for next. -/
def wanted : Prog C A α → Option L
  | .done _ => none
  | .call c _ => (M.use c).wanted

/-- The threads of `D` wait for one another: each wants a lock that one of them has. -/
def Deadlocked (s : Interleaved C A L V I Op α T) (D : Finset T) : Prop :=
  ∀ t ∈ D, ∃ τ ∈ s.task t, ∃ l, M.wanted τ.rest = some l ∧ ∃ u ∈ D, s.owner l = some u

variable {M}

omit [DecidableEq L] [DecidableEq T] in
/-- No threads wait for one another when one that has a lock comes before the one it waits for.
The last of them that has a lock would wait for a later one. -/
theorem Owned.eq_empty_of_deadlocked (h : Owned s) (rank : T → Nat)
    (hrank : ∀ t u, ∀ τ ∈ s.task t, ∀ σ ∈ s.task u, ∀ l, τ.locks ≠ [] →
      M.wanted τ.rest = some l → l ∈ σ.locks → (M.wanted σ.rest).isSome = true →
      rank t < rank u) {D : Finset T} (hD : M.Deadlocked s D) : D = ∅ := by
  classical
  let holders : Finset T := D.filter fun t => ∃ τ ∈ s.task t, τ.locks ≠ []
  -- The owner of what a thread waits for has a lock, and it waits as well.
  have hnext : ∀ t ∈ D, ∀ τ ∈ s.task t, ∃ u ∈ holders, ∃ σ ∈ s.task u, ∃ l,
      M.wanted τ.rest = some l ∧ l ∈ σ.locks ∧ (M.wanted σ.rest).isSome = true := by
    intro t ht τ hτ
    obtain ⟨τ', hτ', l, hl, u, hu, howner⟩ := hD t ht
    obtain rfl : τ' = τ := Option.some.inj (hτ'.symm.trans hτ)
    obtain ⟨σ, hσ, hmem⟩ := (h l u).mp howner
    obtain ⟨σ', hσ', l', hl', _⟩ := hD u hu
    obtain rfl : σ' = σ := Option.some.inj (hσ'.symm.trans hσ)
    refine ⟨u, Finset.mem_filter.mpr ⟨hu, σ', hσ, List.ne_nil_of_mem hmem⟩, σ', hσ, l, hl, hmem, ?_⟩
    rw [hl']
    rfl
  by_contra hne
  obtain ⟨t₀, ht₀⟩ := Finset.nonempty_iff_ne_empty.mpr hne
  obtain ⟨τ₀, hτ₀, _⟩ := hD t₀ ht₀
  obtain ⟨u₀, hu₀, _⟩ := hnext t₀ ht₀ τ₀ hτ₀
  obtain ⟨t, ht, hmax⟩ := holders.exists_max_image rank ⟨u₀, hu₀⟩
  obtain ⟨htD, τ, hτ, hlocks⟩ := Finset.mem_filter.mp ht
  obtain ⟨u, hu, σ, hσ, l, hwanted, hl, hwaits⟩ := hnext t htD τ hτ
  have hlt := hrank t u τ hτ σ hσ l hlocks hwanted hl hwaits
  have hle := hmax u hu
  omega

omit [DecidableEq L] [DecidableEq T] in
theorem Owned.exists_of_not_deadlocked [Fintype T] (h : Owned s)
    (hnone : ∀ D, M.Deadlocked s D → D = ∅) (hwork : ∃ t, (s.task t).isSome = true) :
    ∃ t τ, s.task t = some τ ∧ ∀ l, M.wanted τ.rest = some l → s.owner l = none := by
  classical
  by_contra! hall
  let D : Finset T := Finset.univ.filter fun t => (s.task t).isSome = true
  have hD : M.Deadlocked s D := by
    intro t ht
    obtain ⟨τ, hτ⟩ := Option.isSome_iff_exists.mp (Finset.mem_filter.mp ht).2
    obtain ⟨l, hwanted, howner⟩ := hall t τ hτ
    obtain ⟨u, hu⟩ := Option.ne_none_iff_exists'.mp howner
    obtain ⟨σ, hσ, _⟩ := (h l u).mp hu
    refine ⟨τ, hτ, l, hwanted, u, Finset.mem_filter.mpr ⟨Finset.mem_univ u, ?_⟩, hu⟩
    rw [hσ]
    rfl
  obtain ⟨t, ht⟩ := hwork
  exact Finset.notMem_empty t (hnone D hD ▸ Finset.mem_filter.mpr ⟨Finset.mem_univ t, ht⟩)

end Locking
end Concurrency
end Frangipani

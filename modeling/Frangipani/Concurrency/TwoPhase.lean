/-
Operations with two phases are as good as one step each.

A program has two phases if it makes no call but releases once it has released a lock, and
changes only the values whose locks it holds.  Such an operation is as good as one step, at
its first release.  `serial` runs the operations one after another in the order of these
steps, and `AsSerial` says that the threads see nothing else.

`Grows` connects a task that has released nothing with its operation: on every store with
the same values in what it has locked, the whole operation does what the rest of it does
now.  A program may also read a location whose lock it does not hold.  These reads have to
hold at the first release, where the operation is taken to be.
-/
import Frangipani.Concurrency.Locking

namespace Frangipani
namespace Concurrency

open Program

namespace Locking

variable {C : Type} {A : C → Type} {L V I Op α T : Type} [DecidableEq L] [DecidableEq T]
variable (M : Locking C A L V I Op α)

/-! ## One operation on its own -/

def answerIn (S : L → V) (i : I) (c : C) : A c × (L → V) :=
  match M.use c with
  | .access l => ((M.answer c i (S l)).1, Function.update S l (M.answer c i (S l)).2)
  | .acquire _ | .release _ => (M.granted c, S)

/-- The machine that answers an operation with no other at work.  An access takes the next
input. -/
def alone (s : (L → V) × List I) (c : C) : A c × ((L → V) × List I) :=
  let r := M.answerIn s.1 (s.2.headD M.blank) c
  match M.use c with
  | .access _ => (r.1, r.2, s.2.tail)
  | .acquire _ | .release _ => (r.1, r.2, s.2)

/-- One operation after another: their results, and the store they leave. -/
def serial (S : L → V) (order : List (T × Op × List I)) : List (T × α) × (L → V) :=
  order.foldl
    (fun s e =>
      let r := (M.program e.2.1).exec M.alone (s.2, e.2.2)
      (s.1 ++ [(e.1, r.1)], r.2.1))
    ([], S)

/-- The call leaves the value as it is. -/
def ReadOnly (c : C) : Prop := ∀ i v, (M.answer c i v).2 = v

/-- The second phase. -/
def Releasing {β : Type} : Prog C A β → Prop
  | .done _ => True
  | .call c k => (∃ l, M.use c = .release l) ∧ ∀ x, Releasing (k x)

/-- Both phases, with the locks held so far. -/
def TwoPhase {β : Type} : List L → Prog C A β → Prop
  | _, .done _ => True
  | locks, .call c k =>
    match M.use c with
    | .acquire l => ∀ x, TwoPhase (l :: locks) (k x)
    | .access l => (l ∈ locks ∨ M.ReadOnly c) ∧ ∀ x, TwoPhase locks (k x)
    | .release _ => ∀ x, M.Releasing (k x)

end Locking

/-- The read gives the same answer in `S`. -/
def Peek.Holds {C : Type} {A : C → Type} {L V I Op α : Type} [DecidableEq L]
    (M : Locking C A L V I Op α) (S : L → V) (p : Peek C A I) : Prop :=
  (M.answerIn S p.input p.call).1 = p.answer

namespace Locking

variable {C : Type} {A : C → Type} {L V I Op α T : Type} [DecidableEq L] [DecidableEq T]
variable (M : Locking C A L V I Op α)

/-- What was read without a lock holds when the task releases its first lock. -/
def Fixed (S : L → V) (τ : Task C A L I Op α) : Prop :=
  τ.released = true ∨ ∀ p ∈ τ.peeks, p.Holds M S

def FixedRest (S : L → V) (τ : Task C A L I Op α) : Prog C A α → Prop
  | .done _ => M.Fixed S τ
  | .call c _ => (M.use c).freed.isSome = true → M.Fixed S τ

/-- A task releases what it has, and its reads hold at the first release. -/
def Proper (S : L → V) (s : Interleaved C A L V I Op α T) : ThreadStep I Op T → Prop
  | .start .. => True
  | .go t _ | .finish t => ∀ τ ∈ s.task t,
    M.OwnRest τ τ.rest ∧ M.FixedRest (M.serial S s.order).2 τ τ.rest

section

variable [∀ c, DecidableEq (A c)]

instance (S : L → V) (p : Peek C A I) : Decidable (p.Holds M S) :=
  inferInstanceAs (Decidable (_ = _))

instance (S : L → V) (τ : Task C A L I Op α) : Decidable (M.Fixed S τ) :=
  inferInstanceAs (Decidable (_ ∨ _))

instance (S : L → V) (τ : Task C A L I Op α) : (p : Prog C A α) → Decidable (M.FixedRest S τ p)
  | .done _ => inferInstanceAs (Decidable (M.Fixed S τ))
  | .call _ _ => inferInstanceAs (Decidable (_ → _))

instance (S : L → V) (s : Interleaved C A L V I Op α T) :
    (a : ThreadStep I Op T) → Decidable (M.Proper S s a)
  | .start .. => isTrue trivial
  | .go t _ | .finish t => inferInstanceAs (Decidable (∀ τ ∈ s.task t,
      M.OwnRest τ τ.rest ∧ M.FixedRest (M.serial S s.order).2 τ τ.rest))

end

variable {M}
variable {S : L → V} {s s' : Interleaved C A L V I Op α T} {t : T} {τ : Task C A L I Op α}

omit [DecidableEq T] in
theorem Proper.own {a : ThreadStep I Op T} (h : M.Proper S s a) : M.Own s a := by
  cases a with
  | start t op => trivial
  | go t i => exact fun τ hτ => (h τ hτ).1
  | finish t => exact fun τ hτ => (h τ hτ).1

theorem answerIn_access {i : I} {c : C} {l : L} (h : M.use c = .access l) :
    M.answerIn S i c = ((M.answer c i (S l)).1, Function.update S l (M.answer c i (S l)).2) := by
  rw [answerIn, h]

theorem alone_access {i : I} {inputs : List I} {c : C} {l : L} (h : M.use c = .access l) :
    M.alone (S, i :: inputs) c =
      ((M.answer c i (S l)).1, Function.update S l (M.answer c i (S l)).2, inputs) := by
  simp only [alone, answerIn_access h, h]
  rfl

theorem alone_acquire {s : (L → V) × List I} {c : C} {l : L} (h : M.use c = .acquire l) :
    M.alone s c = (M.granted c, s) := by
  simp only [alone, answerIn, h]

theorem alone_release {s : (L → V) × List I} {c : C} {l : L} (h : M.use c = .release l) :
    M.alone s c = (M.granted c, s) := by
  simp only [alone, answerIn, h]

omit [DecidableEq T] in
theorem serial_concat (S : L → V) (order : List (T × Op × List I)) (t : T) (op : Op)
    (inputs : List I) :
    M.serial S (order ++ [(t, op, inputs)]) =
      ((M.serial S order).1 ++
        [(t, ((M.program op).exec M.alone ((M.serial S order).2, inputs)).1)],
        ((M.program op).exec M.alone ((M.serial S order).2, inputs)).2.1) := by
  rw [serial, List.foldl_append]
  rfl

omit [DecidableEq L] in
theorem Releasing.map {β γ : Type} {p : Prog C A β} (h : M.Releasing p) (f : β → γ) :
    M.Releasing (p >>= fun b => .done (f b)) := by
  induction p with
  | done b => trivial
  | call c k ih => exact ⟨h.1, fun x => ih x (h.2 x)⟩

omit [DecidableEq L] in
/-- What is made of the result does not matter for the phases. -/
theorem TwoPhase.map {β γ : Type} {p : Prog C A β} (f : β → γ) : ∀ {locks : List L},
    M.TwoPhase locks p → M.TwoPhase locks (p >>= fun b => .done (f b)) := by
  induction p with
  | done b => exact fun h => h
  | call c k ih =>
    intro locks h
    rw [TwoPhase] at h
    rw [Prog.call_bind, TwoPhase]
    cases huse : M.use c with
    | acquire l =>
      rw [huse] at h
      exact fun x => ih x (h x)
    | access l =>
      rw [huse] at h
      exact ⟨h.1, fun x => ih x (h.2 x)⟩
    | release l =>
      rw [huse] at h
      exact fun x => (h x).map f

/-- The second phase has one result on every store, and leaves the store. -/
theorem Releasing.exec {p : Prog C A α} (h : M.Releasing p) :
    ∃ a, ∀ s, p.exec M.alone s = (a, s) := by
  induction p with
  | done a => exact ⟨a, fun _ => rfl⟩
  | call c k ih =>
    obtain ⟨⟨l, hl⟩, hk⟩ := h
    obtain ⟨a, ha⟩ := ih (M.granted c) (hk _)
    refine ⟨a, fun s => ?_⟩
    rw [Prog.exec_call, alone_release hl]
    exact ha s

/-! ## The phases of the tasks -/

variable (M)

structure PhasedTask (τ : Task C A L I Op α) : Prop where
  grows : τ.released = false → M.TwoPhase τ.locks τ.rest
  shrinks : τ.released = true → M.Releasing τ.rest

def Phased (s : Interleaved C A L V I Op α T) : Prop := ∀ t, ∀ τ ∈ s.task t, M.PhasedTask τ

variable {M}

omit [DecidableEq L] in
/-- A task that makes a call other than a release has released nothing. -/
theorem PhasedTask.unreleased (h : M.PhasedTask τ) {c : C} {k : A c → Prog C A α}
    (hrest : τ.rest = .call c k) (huse : (M.use c).freed = none) :
    τ.released = false := by
  by_contra hrel
  have hphase := h.shrinks (by simpa using hrel)
  rw [hrest, Releasing] at hphase
  obtain ⟨⟨l, hl⟩, _⟩ := hphase
  rw [hl] at huse
  cases huse

omit [DecidableEq L] in
theorem PhasedTask.acquire (h : M.PhasedTask τ) {c : C} {k : A c → Prog C A α} {l : L}
    (hrest : τ.rest = .call c k) (huse : M.use c = .acquire l) :
    τ.released = false ∧ ∀ x, M.TwoPhase (l :: τ.locks) (k x) := by
  have hrel := h.unreleased hrest (by rw [huse]; rfl)
  have hphase := h.grows hrel
  rw [hrest, TwoPhase, huse] at hphase
  exact ⟨hrel, hphase⟩

omit [DecidableEq L] in
theorem PhasedTask.access (h : M.PhasedTask τ) {c : C} {k : A c → Prog C A α} {l : L}
    (hrest : τ.rest = .call c k) (huse : M.use c = .access l) :
    τ.released = false ∧ (l ∈ τ.locks ∨ M.ReadOnly c) ∧ ∀ x, M.TwoPhase τ.locks (k x) := by
  have hrel := h.unreleased hrest (by rw [huse]; rfl)
  have hphase := h.grows hrel
  rw [hrest, TwoPhase, huse] at hphase
  exact ⟨hrel, hphase⟩

omit [DecidableEq L] in
theorem PhasedTask.release (h : M.PhasedTask τ) {c : C} {k : A c → Prog C A α} {l : L}
    (hrest : τ.rest = .call c k) (huse : M.use c = .release l) :
    ∀ x, M.Releasing (k x) := by
  cases hrel : τ.released with
  | true =>
    have hphase := h.shrinks hrel
    rw [hrest] at hphase
    exact hphase.2
  | false =>
    have hphase := h.grows hrel
    rw [hrest, TwoPhase, huse] at hphase
    exact hphase

theorem PhasedTask.access_store (h : M.PhasedTask τ) {c : C} {k : A c → Prog C A α} {l : L}
    (hrest : τ.rest = .call c k) (huse : M.use c = .access l) (s : Interleaved C A L V I Op α T)
    (t : T) (i : I) {l' : L} (hl' : l' ∉ τ.locks) :
    (M.access s t τ l c i k).store l' = s.store l' := by
  show Function.update s.store l _ l' = _
  by_cases hll : l' = l
  · subst hll
    rw [(h.access hrest huse).2.1.resolve_left hl', Function.update_self]
  · exact Function.update_of_ne hll ..

omit [DecidableEq L] in
theorem Phased.update (h : M.Phased s) {x : Option (Task C A L I Op α)}
    (htask : s'.task = Function.update s.task t x) (hx : ∀ τ ∈ x, M.PhasedTask τ) :
    M.Phased s' := by
  intro u τ hτ
  rw [htask, Function.update_apply] at hτ
  split at hτ
  · exact hx τ hτ
  · exact h u τ hτ

theorem Phased.step (h : M.Phased s) (hphase : ∀ op, M.TwoPhase [] (M.program op))
    {a : ThreadStep I Op T} (hs : M.step s a = some s') : M.Phased s' := by
  cases a with
  | start t op =>
    obtain ⟨_, rfl⟩ := start_eq_some hs
    refine h.update rfl fun τ hτ => ?_
    cases hτ
    exact ⟨fun _ => hphase op, fun heq => by cases heq⟩
  | go t i =>
    obtain ⟨τ, hτ, hs⟩ := Option.bind_eq_some_iff.mp hs
    have htask := h t τ hτ
    obtain ⟨c, k, l, hrest, ⟨huse, hs⟩ | ⟨huse, rfl⟩ | ⟨huse, rfl⟩⟩ := call_cases hs
    · obtain ⟨_, rfl⟩ := acquire_eq_some hs
      obtain ⟨hrel, hk⟩ := htask.acquire hrest huse
      refine h.update rfl fun σ hσ => ?_
      cases hσ
      exact ⟨fun _ => hk _, fun heq => absurd (hrel.symm.trans heq) Bool.false_ne_true⟩
    · refine h.update rfl fun σ hσ => ?_
      cases hσ
      exact ⟨fun heq => (by cases heq), fun _ => htask.release hrest huse _⟩
    · obtain ⟨hrel, _, hk⟩ := htask.access hrest huse
      refine h.update rfl fun σ hσ => ?_
      cases hσ
      exact ⟨fun _ => hk _, fun heq => absurd (hrel.symm.trans heq) Bool.false_ne_true⟩
  | finish t =>
    obtain ⟨τ, hτ, hs⟩ := Option.bind_eq_some_iff.mp hs
    obtain ⟨a, _, rfl⟩ := finish_eq_some hs
    exact h.update rfl fun σ hσ => by cases hσ

omit [DecidableEq L] [DecidableEq T] in
theorem Phased.of_fresh (h : Fresh s) : M.Phased s := by
  intro t τ hτ
  rw [h.2.1 t] at hτ
  cases hτ

/-! ## The invariant -/

/-- The values of `S` in what is locked, and those of `B` elsewhere. -/
def overlay (locks : List L) (S B : L → V) : L → V := fun l => if l ∈ locks then S l else B l

variable (M)

/-- A task that has released nothing.  On every store with the values of `S` in its locks and
with its reads, and with any inputs from now on, the whole operation does what the rest does from
here. -/
def Grows (store S : L → V) (τ : Task C A L I Op α) : Prop :=
  ∀ B : L → V, (∀ l ∈ τ.locks, B l = S l) → (∀ p ∈ τ.peeks, p.Holds M B) → ∀ later : List I,
    (M.program τ.op).exec M.alone (B, τ.inputs ++ later) =
      τ.rest.exec M.alone (overlay τ.locks store B, later)

/-- The results of one thread. -/
def ofThread (t : T) (results : List (T × α)) : List (T × α) := results.filter fun r => r.1 = t

/-- The operation has returned as often as it has been done. -/
def Answered (S : L → V) (s : Interleaved C A L V I Op α T) (t : T) : Prop :=
  ofThread t (M.serial S s.order).1 = ofThread t s.returned

/-- A task that has released a lock.  Its result is still to be returned. -/
def Shrinks (S : L → V) (s : Interleaved C A L V I Op α T) (t : T) (τ : Task C A L I Op α) : Prop :=
  ∃ a, (∀ r, (τ.rest.exec M.alone r).1 = a) ∧
    ofThread t (M.serial S s.order).1 = ofThread t s.returned ++ [(t, a)]

structure TaskInv (S : L → V) (s : Interleaved C A L V I Op α T) (t : T)
    (τ : Task C A L I Op α) : Prop where
  grows : τ.released = false → M.Grows s.store (M.serial S s.order).2 τ ∧ M.Answered S s t
  shrinks : τ.released = true → M.Shrinks S s t τ

structure Inv (S : L → V) (s : Interleaved C A L V I Op α T) : Prop where
  owned : Owned s
  phased : M.Phased s
  tasks : ∀ t τ, s.task t = some τ → M.TaskInv S s t τ
  idle : ∀ t, s.task t = none → M.Answered S s t
  /-- What no unreleased operation has locked is as the operations before have left it. -/
  settled : ∀ l, (∀ t τ, s.task t = some τ → l ∈ τ.locks → τ.released = true) →
    s.store l = (M.serial S s.order).2 l

/-- Nothing that a thread with these locks sees differs. -/
structure SameFor (S : L → V) (s s' : Interleaved C A L V I Op α T) (t : T) (locks : List L) :
    Prop where
  store : ∀ l ∈ locks, s'.store l = s.store l
  serial : ∀ l ∈ locks, (M.serial S s'.order).2 l = (M.serial S s.order).2 l
  results : ofThread t (M.serial S s'.order).1 = ofThread t (M.serial S s.order).1
  returned : ofThread t s'.returned = ofThread t s.returned

variable {M}

theorem SameFor.refl (S : L → V) (s : Interleaved C A L V I Op α T) (t : T) (locks : List L) :
    M.SameFor S s s t locks :=
  ⟨fun _ _ => rfl, fun _ _ => rfl, rfl, rfl⟩

theorem Grows.congr {store store' S S' : L → V} (h : M.Grows store S τ)
    (hstore : ∀ l ∈ τ.locks, store' l = store l) (hS : ∀ l ∈ τ.locks, S' l = S l) :
    M.Grows store' S' τ := by
  intro B hB hp later
  have hover : overlay τ.locks store' B = overlay τ.locks store B := by
    funext l
    by_cases hl : l ∈ τ.locks
    · simp [overlay, hl, hstore l hl]
    · simp [overlay, hl]
  rw [hover]
  exact h B (fun l hl => (hB l hl).trans (hS l hl)) hp later

theorem Grows.new (store S : L → V) (op : Op) : M.Grows store S (M.newTask op) := by
  intro B _ _ later
  have hover : overlay [] store B = B := by
    funext l
    simp [overlay]
  show _ = (M.program op).exec M.alone (overlay [] store B, later)
  rw [hover]
  rfl

theorem Grows.take {store S : L → V} (h : M.Grows store S τ) {c : C} {k : A c → Prog C A α} {l : L}
    (hrest : τ.rest = .call c k) (huse : M.use c = .acquire l) (hl : store l = S l) :
    M.Grows store S (τ.take l (k (M.granted c))) := by
  intro B hB hp later
  have hover : overlay (l :: τ.locks) store B = overlay τ.locks store B := by
    funext l'
    by_cases hl' : l' ∈ τ.locks
    · simp [overlay, hl']
    · by_cases hll : l' = l
      · subst hll
        rw [overlay, if_pos List.mem_cons_self, overlay, if_neg hl', hl]
        exact (hB l' List.mem_cons_self).symm
      · simp [overlay, hl', hll]
  have hsim := h B (fun l' hl' => hB l' (List.mem_cons_of_mem l hl')) hp later
  rw [hrest, Prog.exec_call, alone_acquire huse] at hsim
  show _ = (k (M.granted c)).exec M.alone (overlay (l :: τ.locks) store B, later)
  rw [hover]
  exact hsim

theorem overlay_update {locks : List L} {l : L} (hl : l ∈ locks) (S B : L → V) (v : V) :
    overlay locks (Function.update S l v) B = Function.update (overlay locks S B) l v := by
  funext l'
  by_cases hll : l' = l
  · subst hll
    simp [overlay, hl]
  · simp [overlay, hll]

theorem overlay_update_of_not_mem {locks : List L} {l : L} (hl : l ∉ locks) (S B : L → V) (v : V) :
    overlay locks (Function.update S l v) B = overlay locks S B := by
  funext l'
  by_cases hll : l' = l
  · subst hll
    simp [overlay, hl]
  · simp [overlay, hll]

theorem Grows.access {store S : L → V} (h : M.Grows store S τ) {c : C} {k : A c → Prog C A α}
    {l : L} (hrest : τ.rest = .call c k) (huse : M.use c = .access l)
    (hread : l ∈ τ.locks ∨ M.ReadOnly c) (i : I) :
    M.Grows (Function.update store l (M.answer c i (store l)).2) S
      (τ.got l c i (M.answer c i (store l)).1 (k (M.answer c i (store l)).1)) := by
  intro B hB hp later
  generalize hr : M.answer c i (store l) = r at hp ⊢
  have hsim : (∀ p ∈ τ.peeks, p.Holds M B) → _ := fun hp => h B hB hp (i :: later)
  rw [hrest, Prog.exec_call, alone_access huse] at hsim
  show (M.program τ.op).exec M.alone (B, τ.inputs ++ [i] ++ later) =
    (k r.1).exec M.alone (overlay τ.locks (Function.update store l r.2) B, later)
  rw [List.append_assoc, List.singleton_append]
  by_cases hl : l ∈ τ.locks
  · -- The value is the one of the store.
    have hpeeks : (τ.got l c i r.1 (k r.1)).peeks = τ.peeks := if_pos hl
    have hval : overlay τ.locks store B l = store l := if_pos hl
    rw [hpeeks] at hp
    simp only [hval, hr] at hsim
    rw [overlay_update hl]
    exact hsim hp
  · -- The value is the one of `B`, and the access is a read with the answer of the store.
    have hpeeks : (τ.got l c i r.1 (k r.1)).peeks = ⟨c, i, r.1⟩ :: τ.peeks := if_neg hl
    have hval : overlay τ.locks store B l = B l := if_neg hl
    rw [hpeeks] at hp
    obtain ⟨hpeek, hp⟩ := List.forall_mem_cons.mp hp
    rw [Peek.Holds, answerIn_access huse] at hpeek
    replace hpeek : (M.answer c i (B l)).1 = r.1 := hpeek
    have hsame : Function.update (overlay τ.locks store B) l (B l) = overlay τ.locks store B := by
      rw [← hval, Function.update_eq_self]
    have hkeep : (M.answer c i (B l)).2 = B l := hread.resolve_left hl _ _
    simp only [hval, hpeek, hkeep, hsame] at hsim
    rw [overlay_update_of_not_mem hl]
    exact hsim hp

theorem TaskInv.congr (h : M.TaskInv S s t τ) (same : M.SameFor S s s' t τ.locks) :
    M.TaskInv S s' t τ where
  grows hrel := by
    obtain ⟨hgrows, hanswered⟩ := h.grows hrel
    refine ⟨hgrows.congr same.store same.serial, ?_⟩
    exact same.results.trans (hanswered.trans same.returned.symm)
  shrinks hrel := by
    obtain ⟨a, ha, howing⟩ := h.shrinks hrel
    refine ⟨a, ha, ?_⟩
    rw [same.results, same.returned]
    exact howing

theorem Inv.of_others (h : M.Inv S s) (howned : Owned s') (hphased : M.Phased s')
    {x : Option (Task C A L I Op α)} (htask : s'.task = Function.update s.task t x)
    (hothers : ∀ u, u ≠ t → ∀ τ, s.task u = some τ → M.SameFor S s s' u τ.locks)
    (hidle : ∀ u, u ≠ t → s.task u = none → M.Answered S s' u)
    (hnone : x = none → M.Answered S s' t) (hsome : ∀ τ, x = some τ → M.TaskInv S s' t τ)
    (hsettled : ∀ l, (∀ u, u ≠ t → ∀ τ, s.task u = some τ → l ∈ τ.locks → τ.released = true) →
      (∀ τ, x = some τ → l ∈ τ.locks → τ.released = true) →
      s'.store l = (M.serial S s'.order).2 l) : M.Inv S s' where
  owned := howned
  phased := hphased
  tasks u τ hτ := by
    rw [htask, Function.update_apply] at hτ
    split at hτ
    · rename_i hu
      subst hu
      exact hsome τ hτ
    · rename_i hu
      exact (h.tasks u τ hτ).congr (hothers u hu τ hτ)
  idle u hu := by
    rw [htask, Function.update_apply] at hu
    split at hu
    · rename_i hut
      subst hut
      exact hnone hu
    · rename_i hut
      exact hidle u hut hu
  settled l hl := by
    rw [htask] at hl
    refine hsettled l (fun u hu τ hτ => hl u τ ?_) fun τ hτ => hl t τ ?_
    · rw [Function.update_of_ne hu]
      exact hτ
    · rw [Function.update_self]
      exact hτ

theorem Inv.settled_of (h : M.Inv S s) (hτ : s.task t = some τ) {l : L}
    (hothers : ∀ u, u ≠ t → ∀ σ, s.task u = some σ → l ∈ σ.locks → σ.released = true)
    (hmine : l ∈ τ.locks → τ.released = true) : s.store l = (M.serial S s.order).2 l := by
  refine h.settled l fun u σ hσ hmem => ?_
  by_cases hu : u = t
  · subst hu
    rw [hτ] at hσ
    cases hσ
    exact hmine hmem
  · exact hothers u hu σ hσ hmem

/-! ## The first release -/

/-- What the order of a task that is in its second phase stands for. -/
structure Committed (S : L → V) (s : Interleaved C A L V I Op α T) (t : T)
    (τ : Task C A L I Op α) (a : α) : Prop where
  result : ∀ r, (τ.rest.exec M.alone r).1 = a
  results : ofThread t (M.serial S (τ.commit t s.order)).1 = ofThread t s.returned ++ [(t, a)]
  others : ∀ u, u ≠ t →
    ofThread u (M.serial S (τ.commit t s.order)).1 = ofThread u (M.serial S s.order).1
  locked : ∀ l ∈ τ.locks, (M.serial S (τ.commit t s.order)).2 l = s.store l
  rest : ∀ l, l ∉ τ.locks → (M.serial S (τ.commit t s.order)).2 l = (M.serial S s.order).2 l

theorem Inv.committed (h : M.Inv S s) (hτ : s.task t = some τ) (hphase : M.Releasing τ.rest)
    (hfixed : M.Fixed (M.serial S s.order).2 τ) : ∃ a, Committed (M := M) S s t τ a := by
  have htask := h.tasks t τ hτ
  cases hrel : τ.released with
  | true =>
    obtain ⟨a, ha, howing⟩ := htask.shrinks hrel
    have hcommit : τ.commit t s.order = s.order := by rw [Task.commit, if_pos hrel]
    refine ⟨a, ha, ?_, fun u _ => ?_, fun l hl => ?_, fun l _ => ?_⟩
    · rw [hcommit]
      exact howing
    · rw [hcommit]
    · rw [hcommit]
      exact (h.settled_of hτ (fun u hu σ hσ hmem => absurd hl (h.owned.not_mem_of_ne hτ hσ hu hmem))
        fun _ => hrel).symm
    · rw [hcommit]
  | false =>
    obtain ⟨hgrows, hanswered⟩ := htask.grows hrel
    obtain ⟨a, ha⟩ := hphase.exec
    have hcommit : τ.commit t s.order = s.order ++ [(t, τ.op, τ.inputs)] := by
      rw [Task.commit, if_neg (by simp [hrel])]
    have hpeeks : ∀ p ∈ τ.peeks, p.Holds M (M.serial S s.order).2 :=
      hfixed.resolve_left (by simp [hrel])
    have hwhole := hgrows (M.serial S s.order).2 (fun _ _ => rfl) hpeeks []
    rw [List.append_nil, ha] at hwhole
    have hserial : M.serial S (τ.commit t s.order) =
        ((M.serial S s.order).1 ++ [(t, a)], overlay τ.locks s.store (M.serial S s.order).2) := by
      rw [hcommit, serial_concat, hwhole]
    refine ⟨a, fun r => congrArg Prod.fst (ha r), ?_, fun u hu => ?_, fun l hl => ?_,
      fun l hl => ?_⟩
    · rw [hserial, ← hanswered]
      simp [ofThread]
    · rw [hserial]
      simp [ofThread, Ne.symm hu]
    · rw [hserial]
      exact if_pos hl
    · rw [hserial]
      exact if_neg hl

/-! ## The steps -/

theorem Inv.start (h : M.Inv S s) (howned : Owned s') (hphased : M.Phased s') {op : Op}
    (hs : M.start s t op = some s') : M.Inv S s' := by
  obtain ⟨hnone, rfl⟩ := start_eq_some hs
  refine h.of_others howned hphased rfl
    (fun u _ τ _ => { SameFor.refl (M := M) S s u τ.locks with })
    (fun u _ hu => h.idle u hu) (fun heq => by cases heq) (fun τ hτ => ?_) fun l hl _ => ?_
  · cases hτ
    exact ⟨fun _ => ⟨Grows.new _ _ op, h.idle t hnone⟩, fun heq => by cases heq⟩
  · refine h.settled l fun u τ hτ => hl u (fun hut => ?_) τ hτ
    rw [hut, hnone] at hτ
    cases hτ

theorem Inv.acquire (h : M.Inv S s) (howned : Owned s') (hphased : M.Phased s')
    (hτ : s.task t = some τ) {c : C} {k : A c → Prog C A α} {l : L} (hrest : τ.rest = .call c k)
    (huse : M.use c = .acquire l) (hs : Locking.acquire s t τ l (k (M.granted c)) = some s') :
    M.Inv S s' := by
  obtain ⟨hrel, _⟩ := (h.phased t τ hτ).acquire hrest huse
  obtain ⟨hgrows, hanswered⟩ := (h.tasks t τ hτ).grows hrel
  obtain ⟨hfree, rfl⟩ := acquire_eq_some hs
  have hstore : s.store l = (M.serial S s.order).2 l :=
    h.settled l fun u σ hσ hmem => absurd hmem (h.owned.not_mem_of_free hσ hfree)
  refine h.of_others howned hphased rfl
    (fun u _ σ _ => { SameFor.refl (M := M) S s u σ.locks with })
    (fun u _ hu => h.idle u hu) (fun heq => by cases heq) (fun σ hσ => ?_)
    fun l' hl' hx => h.settled_of hτ hl' fun hmem =>
      hx (τ.take l (k (M.granted c))) rfl (List.mem_cons_of_mem l hmem)
  cases hσ
  exact ⟨fun _ => ⟨hgrows.take hrest huse hstore, hanswered⟩,
    fun heq => absurd (hrel.symm.trans heq) Bool.false_ne_true⟩

theorem Inv.access (h : M.Inv S s) (hτ : s.task t = some τ) {c : C} {i : I} {k : A c → Prog C A α}
    {l : L} (howned : Owned (M.access s t τ l c i k)) (hphased : M.Phased (M.access s t τ l c i k))
    (hrest : τ.rest = .call c k) (huse : M.use c = .access l) :
    M.Inv S (M.access s t τ l c i k) := by
  have hkeep : ∀ l', l' ∉ τ.locks → (M.access s t τ l c i k).store l' = s.store l' :=
    fun _ hl' => (h.phased t τ hτ).access_store hrest huse s t i hl'
  obtain ⟨hrel, hread, _⟩ := (h.phased t τ hτ).access hrest huse
  obtain ⟨hgrows, hanswered⟩ := (h.tasks t τ hτ).grows hrel
  refine h.of_others howned hphased rfl (fun u hut σ hσ => ?_) (fun u _ hu => h.idle u hu)
    (fun heq => by cases heq) (fun σ hσ => ?_) fun l' hl' hx => ?_
  · exact { SameFor.refl (M := M) S s u σ.locks with
      store := fun l' hl' => hkeep l' (h.owned.not_mem_of_ne hτ hσ hut hl') }
  · cases hσ
    exact ⟨fun _ => ⟨hgrows.access hrest huse hread i, hanswered⟩,
      fun heq => absurd (hrel.symm.trans heq) Bool.false_ne_true⟩
  · have hmem : l' ∉ τ.locks := fun hmem =>
      absurd (hrel.symm.trans (hx (τ.got l c i _ _) rfl hmem)) Bool.false_ne_true
    rw [hkeep l' hmem]
    exact h.settled_of hτ hl' fun hl => absurd hl hmem

theorem Inv.release (h : M.Inv S s) (hτ : s.task t = some τ) {c : C} {k : A c → Prog C A α} {l : L}
    (howned : Owned (release s t τ l (k (M.granted c))))
    (hphased : M.Phased (release s t τ l (k (M.granted c)))) (hrest : τ.rest = .call c k)
    (huse : M.use c = .release l) (hfixed : M.Fixed (M.serial S s.order).2 τ) :
    M.Inv S (release s t τ l (k (M.granted c))) := by
  have hphase := (h.phased t τ hτ).release hrest huse
  obtain ⟨a, hc⟩ := h.committed hτ (by rw [hrest]; exact ⟨⟨l, huse⟩, hphase⟩) hfixed
  refine h.of_others howned hphased rfl (fun u hut σ hσ => ?_)
    (fun u hut hu => (hc.others u hut).trans (h.idle u hu)) (fun heq => by cases heq)
    (fun σ hσ => ?_) fun l' hl' _ => ?_
  · exact ⟨fun _ _ => rfl, fun l' hl' => hc.rest l' (h.owned.not_mem_of_ne hτ hσ hut hl'),
      hc.others u hut, rfl⟩
  · cases hσ
    refine ⟨fun heq => (by cases heq), fun _ => ?_⟩
    obtain ⟨b, hb⟩ := (hphase (M.granted c)).exec
    -- The result is the one before the call.
    have hba : b = a := by
      rw [← hc.result (S, []), hrest, Prog.exec_call, alone_release huse, hb]
    exact ⟨a, fun r => hba ▸ congrArg Prod.fst (hb r), hc.results⟩
  · by_cases hmem : l' ∈ τ.locks
    · exact (hc.locked l' hmem).symm
    · exact (h.settled_of hτ hl' fun hmem' => absurd hmem' hmem).trans (hc.rest l' hmem).symm

theorem Inv.finish (h : M.Inv S s) (howned : Owned s') (hphased : M.Phased s')
    (hτ : s.task t = some τ) (hown : M.OwnRest τ τ.rest)
    (hfixed : M.FixedRest (M.serial S s.order).2 τ τ.rest) (hs : Locking.finish s t τ = some s') :
    M.Inv S s' := by
  obtain ⟨b, hrest, rfl⟩ := finish_eq_some hs
  rw [hrest] at hown hfixed
  obtain ⟨a, hc⟩ := h.committed hτ (by rw [hrest]; trivial) hfixed
  obtain rfl : b = a := by
    rw [← hc.result (S, []), hrest]
    rfl
  have hothers : ∀ u, u ≠ t → ofThread u (s.returned ++ [(t, b)]) = ofThread u s.returned :=
    fun u hu => by simp [ofThread, Ne.symm hu]
  have hmem : ∀ l, l ∉ τ.locks := fun l => by
    rw [show τ.locks = [] from hown]
    exact List.not_mem_nil
  refine h.of_others howned hphased rfl (fun u hut σ hσ => ?_) (fun u hut hu => ?_) (fun _ => ?_)
    (fun σ hσ => by cases hσ) fun l hl _ => ?_
  · exact ⟨fun _ _ => rfl, fun l _ => hc.rest l (hmem l), hc.others u hut, hothers u hut⟩
  · exact (hc.others u hut).trans ((h.idle u hu).trans (hothers u hut).symm)
  · refine hc.results.trans ?_
    simp [ofThread]
  · exact (h.settled_of hτ hl fun hl' => absurd hl' (hmem l)).trans (hc.rest l (hmem l)).symm

theorem Inv.step (h : M.Inv S s) (hphase : ∀ op, M.TwoPhase [] (M.program op))
    {a : ThreadStep I Op T} (hok : M.Proper S s a) (hs : M.step s a = some s') : M.Inv S s' := by
  have howned := h.owned.step hok.own hs
  have hphased := h.phased.step hphase hs
  cases a with
  | start t op => exact h.start howned hphased hs
  | go t i =>
    obtain ⟨τ, hτ, hs⟩ := Option.bind_eq_some_iff.mp hs
    obtain ⟨_, hfixed⟩ := hok τ hτ
    obtain ⟨c, k, l, hrest, ⟨huse, hs⟩ | ⟨huse, rfl⟩ | ⟨huse, rfl⟩⟩ := call_cases hs
    · exact h.acquire howned hphased hτ hrest huse hs
    · rw [hrest] at hfixed
      exact h.release hτ howned hphased hrest huse (hfixed (by rw [huse]; rfl))
    · exact h.access hτ howned hphased hrest huse
  | finish t =>
    obtain ⟨τ, hτ, hs⟩ := Option.bind_eq_some_iff.mp hs
    obtain ⟨hown, hfixed⟩ := hok τ hτ
    exact h.finish howned hphased hτ hown hfixed hs

theorem Inv.of_fresh (h : Fresh s) : M.Inv s.store s := by
  have ⟨_, htask, horder, hreturned⟩ := h
  refine ⟨.of_fresh h, .of_fresh h, fun t τ hτ => ?_, fun t _ => ?_, fun l _ => ?_⟩
  · rw [htask t] at hτ
    cases hτ
  · rw [Answered, horder, hreturned]
    rfl
  · rw [horder]
    rfl

/-! ## One after another -/

variable (M)

/-- What runs at the same time is as the operations one after another are: in the values whose
locks are free, in what an idle thread has returned, and in what a thread at work has returned
so far. -/
structure AsSerial (S : L → V) (s : Interleaved C A L V I Op α T) : Prop where
  store : ∀ l, s.owner l = none → s.store l = (M.serial S s.order).2 l
  idle : ∀ t, s.task t = none → ofThread t s.returned = ofThread t (M.serial S s.order).1
  results : ∀ t, ofThread t s.returned <+: ofThread t (M.serial S s.order).1

variable {M}

theorem Inv.asSerial (h : M.Inv S s) :
    M.AsSerial S s where
  store l hl := h.settled l fun t τ hτ hmem => absurd hmem (h.owned.not_mem_of_free hτ hl)
  idle t ht := (h.idle t ht).symm
  results t := by
    cases hτ : s.task t with
    | none => exact (h.idle t hτ).symm ▸ List.prefix_rfl
    | some τ =>
      cases hrel : τ.released with
      | false => exact ((h.tasks t τ hτ).grows hrel).2.symm ▸ List.prefix_rfl
      | true =>
        obtain ⟨a, _, howing⟩ := (h.tasks t τ hτ).shrinks hrel
        rw [howing]
        exact List.prefix_append ..

end Locking
end Concurrency
end Frangipani

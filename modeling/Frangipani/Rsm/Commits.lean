/-
The threads of a node that commit a view.

`commit_wo` is written for a caller that has `pxs_mutex`.  It releases the mutex for the upcall
and takes it again afterwards.  `commit`, which the proposer calls when a reply to its prepare
request has an old instance, takes the mutex before and releases it afterwards.  `decidereq` does
neither.  When it commits, it releases a mutex that it has not taken, and it returns with the mutex
taken.

So after a decide request there is nobody to release the mutex.  The proposer waits in `commit`,
and while it waits `stable` is false and the node makes no other proposal.  It waits until another
decide request commits, which releases the mutex for its own upcall.

The upcall need not return.  When the node is not a member of the new view, `commit_change` calls
`recovery`, which has no end.

The mutexes of `proposer`, `config` and `rsm` are only held for single steps here.  A mutex has no
owner: to release it makes it free, whoever has taken it.
-/
import Mathlib.Data.Fintype.Basic
import Frangipani.Rsm.Cluster

namespace Frangipani
namespace Rsm

open Paxos Transition

/-- Where a thread is: in none of this, in `run` before a reply has an old instance, in `commit`
before and after it takes the mutex, in the upcall before `paxos_commit`, before `commit_change`
and in `recovery`, after the upcall, before the end of `commit`, and before the end of `run`.  The
upcall is made for `run` or for `decidereq`. -/
inductive Place
  | out
  | running (inst : UInt32)
  | committing (inst : UInt32) (v : String)
  | holding (inst : UInt32) (v : String)
  | telling (forRun : Bool) (inst : UInt32) (v : String)
  | changing (forRun : Bool)
  | recovering (forRun : Bool)
  | relocking (forRun : Bool)
  | unlocking
  | leaving
  deriving DecidableEq

namespace Place

/-- Between the two assignments to `stable`. -/
def InRun : Place → Prop
  | .out => False
  | .telling forRun _ _ | .changing forRun | .recovering forRun | .relocking forRun => forRun = true
  | _ => True

/-- Between the two calls of `commit` for the mutex, with the mutex. -/
def Inside : Place → Prop
  | .holding _ _ | .unlocking => True
  | _ => False

/-- Before a call for the mutex. -/
def Waiting : Place → Prop
  | .committing _ _ | .relocking _ => True
  | _ => False

def Telling : Place → Prop
  | .telling _ _ _ => True
  | _ => False

instance : DecidablePred Inside
  | .holding _ _ | .unlocking => .isTrue trivial
  | .out | .running _ | .committing _ _ | .telling _ _ _ | .changing _ | .recovering _
  | .relocking _ | .leaving => .isFalse id

theorem Inside.inRun : ∀ {p : Place}, p.Inside → p.InRun
  | .holding _ _, _ | .unlocking, _ => trivial

end Place

structure Commits (T : Type) where
  config : Config
  pxsMutex : Bool
  stable : Bool
  place : T → Place

inductive CommitsAction (T : Type)
  | preparereq (arg : PrepareArg)
  | acceptreq (arg : AcceptArg)
  | decidereq (t : T) (arg : DecideArg)
  | run (t : T) (inst : UInt32)
  | oldinstance (t : T) (v : String)
  | commit (t : T)
  | commitWo (t : T)
  | paxosCommit (t : T)
  | commitChange (t : T)
  | relock (t : T)
  | unlock (t : T)
  | finish (t : T)
  | restore (log : List Char)

namespace Commits

variable {T : Type}

def new (acc : Acceptor) : Commits T where
  config := .create acc
  pxsMutex := false
  stable := true
  place _ := .out

abbrev acc (s : Commits T) : Acceptor := s.config.acc

def setAcc (s : Commits T) (acc : Acceptor) : Commits T :=
  { s with config := { s.config with acc := acc } }

variable [DecidableEq T]

def move (s : Commits T) (t : T) (p : Place) : Commits T :=
  { s with place := Function.update s.place t p }

/-- `commit_wo` for a new instance, up to the upcall. -/
def commitWo (s : Commits T) (t : T) (forRun : Bool) (inst : UInt32) (v : String) : Commits T :=
  { s.setAcc (s.acc.commitWo inst v) with pxsMutex := false }.move t (.telling forRun inst v)

def step (s : Commits T) : CommitsAction T → Option (Commits T)
  | .preparereq arg => some (s.setAcc (s.acc.preparereq arg).2)
  | .acceptreq arg => some (s.setAcc (s.acc.acceptreq arg).2)
  | .decidereq t arg =>
    match s.place t with
    | .out =>
      if arg.inst ≤ s.acc.instanceH then some s else some (s.commitWo t false arg.inst arg.v)
    | _ => none
  | .run t inst =>
    match s.place t with
    | .out => if s.stable then some ({ s with stable := false }.move t (.running inst)) else some s
    | _ => none
  | .oldinstance t v =>
    match s.place t with
    | .running inst => some (s.move t (.committing inst v))
    | _ => none
  | .commit t =>
    match s.place t with
    | .committing inst v =>
      if s.pxsMutex then none else some ({ s with pxsMutex := true }.move t (.holding inst v))
    | _ => none
  | .commitWo t =>
    match s.place t with
    | .holding inst v =>
      if inst > s.acc.instanceH then some (s.commitWo t true inst v)
      else some (s.move t .unlocking)
    | _ => none
  | .paxosCommit t =>
    match s.place t with
    | .telling forRun inst v =>
      some ({ s with config := s.config.paxosCommit inst v }.move t (.changing forRun))
    | _ => none
  | .commitChange t =>
    match s.place t with
    | .changing forRun =>
      if isamember s.acc.me s.config.mems then some (s.move t (.relocking forRun))
      else some (s.move t (.recovering forRun))
    | _ => none
  | .relock t =>
    match s.place t with
    | .relocking forRun =>
      if s.pxsMutex then none
      else some ({ s with pxsMutex := true }.move t (if forRun then .unlocking else .out))
    | _ => none
  | .unlock t =>
    match s.place t with
    | .unlocking => some ({ s with pxsMutex := false }.move t .leaving)
    | _ => none
  | .finish t =>
    match s.place t with
    | .running _ | .leaving => some ({ s with stable := true }.move t .out)
    | _ => none
  | .restore log => (s.config.restore log).map fun config => { s with config := config }

def system : System (Commits T) (CommitsAction T) where
  init s := ∃ acc, s = new acc
  step := step

/-- No decide request is for a new instance. -/
def NoDecide (s : Commits T) : CommitsAction T → Prop
  | .decidereq _ arg => arg.inst ≤ s.acc.instanceH
  | _ => True

/-- A decide request commits only while no thread has the mutex in `commit`. -/
def DecidesApart (s : Commits T) : CommitsAction T → Prop
  | .decidereq _ arg => s.acc.instanceH < arg.inst → ∀ u, ¬ (s.place u).Inside
  | _ => True

end Commits

/-! ## What a step does -/

/-- The steps of one thread, with the mutex and `stable` before and after it.  Only some steps are
those of a decide request. -/
inductive Place.Step (decides : Prop) : Place → Bool → Bool → Place → Bool → Bool → Prop
  | decidereq {m b : Bool} (h : decides) (inst : UInt32) (v : String) :
      Step decides .out m b (.telling false inst v) false b
  | run {m : Bool} (inst : UInt32) : Step decides .out m true (.running inst) m false
  | oldinstance {m b : Bool} (inst : UInt32) (v : String) :
      Step decides (.running inst) m b (.committing inst v) m b
  | commit {b : Bool} (inst : UInt32) (v : String) :
      Step decides (.committing inst v) false b (.holding inst v) true b
  | commitWo {m b : Bool} (inst : UInt32) (v : String) :
      Step decides (.holding inst v) m b (.telling true inst v) false b
  | known {m b : Bool} (inst : UInt32) (v : String) :
      Step decides (.holding inst v) m b .unlocking m b
  | paxosCommit {m b : Bool} (forRun : Bool) (inst : UInt32) (v : String) :
      Step decides (.telling forRun inst v) m b (.changing forRun) m b
  | commitChange {m b : Bool} (forRun : Bool) :
      Step decides (.changing forRun) m b (.relocking forRun) m b
  | removed {m b : Bool} (forRun : Bool) :
      Step decides (.changing forRun) m b (.recovering forRun) m b
  | relock {b : Bool} : Step decides (.relocking true) false b .unlocking true b
  | decided {b : Bool} : Step decides (.relocking false) false b .out true b
  | unlock {m b : Bool} : Step decides .unlocking m b .leaving false b
  | stop {m b : Bool} (inst : UInt32) : Step decides (.running inst) m b .out m true
  | finish {m b : Bool} : Step decides .leaving m b .out m true

namespace Place.Step

variable {decides : Prop} {p q : Place} {m b m' b' : Bool}

theorem inRun (h : Step decides p m b q m' b') (hq : q.InRun) :
    p.InRun ∧ b' = b ∨ b = true ∧ b' = false := by
  cases h with
  | decidereq | decided => cases hq
  | run => exact .inr ⟨rfl, rfl⟩
  | stop | finish => exact hq.elim
  | relock => exact .inl ⟨rfl, rfl⟩
  | paxosCommit | commitChange | removed => exact .inl ⟨hq, rfl⟩
  | oldinstance | commit | commitWo | known | unlock => exact .inl ⟨trivial, rfl⟩

theorem stable_eq (h : Step decides p m b q m' b') : b' = b ∨ b = true ∨ p.InRun := by
  cases h with
  | run => exact .inr (.inl rfl)
  | stop | finish => exact .inr (.inr trivial)
  | _ => exact .inl rfl

theorem mutex_eq (h : Step decides p m b q m' b') : m' = true ∨ m' = m ∨ p.Inside ∨ decides := by
  cases h with
  | decidereq h => exact .inr (.inr (.inr h))
  | commit | relock | decided => exact .inl rfl
  | commitWo | unlock => exact .inr (.inr (.inl trivial))
  | _ => exact .inr (.inl rfl)

theorem inside (h : Step decides p m b q m' b') (hp : p.Inside → m = true) (hq : q.Inside) :
    m' = true := by
  cases h with
  | commit | relock => rfl
  | known => exact hp trivial
  | _ => exact hq.elim

/-- With the mutex taken, and no decide request, a thread that has not taken it in `commit` does
not get it, does not release it and tells nothing. -/
theorem of_locked (h : Step decides p true b q m' b') (hno : ¬ decides) (hp : ¬ p.Inside) :
    m' = true ∧ ¬ q.Inside ∧ ¬ p.Waiting ∧ ¬ q.Telling := by
  cases h with
  | decidereq h => exact absurd h hno
  | commitWo | known | unlock => exact absurd trivial hp
  | run | oldinstance | paxosCommit | commitChange | removed | stop | finish =>
    exact ⟨rfl, id, id, id⟩

end Place.Step

namespace Commits

variable {T : Type} [DecidableEq T] {s s' : Commits T} {a : CommitsAction T}

/-- A step is one of a single thread, or the threads do not notice it. -/
def Steps (s : Commits T) (decides : Prop) (s' : Commits T) : Prop :=
  (s'.place = s.place ∧ s'.pxsMutex = s.pxsMutex ∧ s'.stable = s.stable) ∨
    ∃ t, Place.Step decides (s.place t) s.pxsMutex s.stable (s'.place t) s'.pxsMutex s'.stable ∧
      ∀ u, u ≠ t → s'.place u = s.place u

theorem steps_move {decides : Prop} {m b : Bool} {config : Config} {t : T} {p q : Place}
    (ht : s.place t = p) (h : Place.Step decides p s.pxsMutex s.stable q m b) :
    s.Steps decides
      (move { config := config, pxsMutex := m, stable := b, place := s.place } t q) := by
  refine .inr ⟨t, ?_, fun u hu => ?_⟩
  · rw [ht]
    show Place.Step _ _ _ _ (Function.update s.place t q t) _ _
    rw [Function.update_self]
    exact h
  · show Function.update s.place t q u = s.place u
    exact Function.update_of_ne hu q s.place

theorem steps (hs : s.step a = some s') : s.Steps (¬ s.NoDecide a) s' := by
  cases a with
  | preparereq arg => cases hs; exact .inl ⟨rfl, rfl, rfl⟩
  | acceptreq arg => cases hs; exact .inl ⟨rfl, rfl, rfl⟩
  | restore log =>
    obtain ⟨config, -, rfl⟩ := Option.map_eq_some_iff.mp hs
    exact .inl ⟨rfl, rfl, rfl⟩
  | decidereq t arg =>
    cases ht : s.place t with
    | out =>
      simp only [step, ht] at hs
      split at hs
      · cases hs; exact .inl ⟨rfl, rfl, rfl⟩
      · rename_i hinst
        cases hs
        exact steps_move ht (.decidereq hinst _ _)
    | _ => simp [step, ht] at hs
  | run t inst =>
    cases ht : s.place t with
    | out =>
      simp only [step, ht] at hs
      split at hs
      · rename_i hstable
        cases hs
        refine steps_move ht ?_
        rw [hstable]
        exact .run inst
      · cases hs; exact .inl ⟨rfl, rfl, rfl⟩
    | _ => simp [step, ht] at hs
  | oldinstance t v =>
    cases ht : s.place t with
    | running inst =>
      simp only [step, ht] at hs
      cases hs
      exact steps_move ht (.oldinstance _ _)
    | _ => simp [step, ht] at hs
  | commit t =>
    cases ht : s.place t with
    | committing inst v =>
      simp only [step, ht] at hs
      obtain ⟨hfree, heq⟩ := Option.ite_none_left_eq_some.mp hs
      cases heq
      refine steps_move ht ?_
      rw [Bool.eq_false_iff.mpr hfree]
      exact .commit inst v
    | _ => simp [step, ht] at hs
  | commitWo t =>
    cases ht : s.place t with
    | holding inst v =>
      simp only [step, ht] at hs
      split at hs
      · cases hs; exact steps_move ht (.commitWo _ _)
      · cases hs; exact steps_move ht (.known _ _)
    | _ => simp [step, ht] at hs
  | paxosCommit t =>
    cases ht : s.place t with
    | telling forRun inst v =>
      simp only [step, ht] at hs
      cases hs
      exact steps_move ht (.paxosCommit _ _ _)
    | _ => simp [step, ht] at hs
  | commitChange t =>
    cases ht : s.place t with
    | changing forRun =>
      simp only [step, ht] at hs
      split at hs
      · cases hs; exact steps_move ht (.commitChange _)
      · cases hs; exact steps_move ht (.removed _)
    | _ => simp [step, ht] at hs
  | relock t =>
    cases ht : s.place t with
    | relocking forRun =>
      simp only [step, ht] at hs
      obtain ⟨hfree, heq⟩ := Option.ite_none_left_eq_some.mp hs
      cases heq
      refine steps_move ht ?_
      rw [Bool.eq_false_iff.mpr hfree]
      cases forRun with
      | true => exact .relock
      | false => exact .decided
    | _ => simp [step, ht] at hs
  | unlock t =>
    cases ht : s.place t with
    | unlocking =>
      simp only [step, ht] at hs
      cases hs
      exact steps_move ht (.unlock)
    | _ => simp [step, ht] at hs
  | finish t =>
    cases ht : s.place t with
    | running inst =>
      simp only [step, ht] at hs
      cases hs
      exact steps_move ht (.stop _)
    | leaving =>
      simp only [step, ht] at hs
      cases hs
      exact steps_move ht (.finish)
    | _ => simp [step, ht] at hs

/-! ## One run at a time -/

/-- `stable` is false during a run, so that there is only one. -/
structure Single (s : Commits T) : Prop where
  unstable : ∀ t, (s.place t).InRun → s.stable = false
  one : ∀ t u, (s.place t).InRun → (s.place u).InRun → t = u

omit [DecidableEq T] in
theorem single_new (acc : Acceptor) : (new acc : Commits T).Single :=
  ⟨fun _ h => h.elim, fun _ _ h => h.elim⟩

theorem Single.step (h : s.Single) (hs : s.step a = some s') : s'.Single := by
  rcases steps hs with ⟨hplace, -, hstable⟩ | ⟨t, ht, hother⟩
  · constructor
    · intro t ht
      rw [hplace] at ht
      exact hstable.trans (h.unstable t ht)
    · intro t u ht hu
      rw [hplace] at ht hu
      exact h.one t u ht hu
  · have hnew : ∀ u, u ≠ t → (s'.place u).InRun → ¬ (s'.place t).InRun := by
      intro u hu hrun hnew
      rw [hother u hu] at hrun
      rcases ht.inRun hnew with ⟨hp, -⟩ | ⟨hb, -⟩
      · exact hu (h.one u t hrun hp)
      · rw [h.unstable u hrun] at hb
        cases hb
    constructor
    · intro u hrun
      by_cases hu : u = t
      · subst hu
        rcases ht.inRun hrun with ⟨hp, hb⟩ | ⟨-, hb⟩
        · exact hb.trans (h.unstable u hp)
        · exact hb
      · rw [hother u hu] at hrun
        have hfalse := h.unstable u hrun
        rcases ht.stable_eq with hb | hb | hp
        · exact hb.trans hfalse
        · rw [hfalse] at hb
          cases hb
        · exact absurd (h.one u t hrun hp) hu
    · intro u w hu hw
      by_cases hut : u = t
      · subst hut
        exact not_not.mp fun hne => hnew w (Ne.symm hne) hw hu
      · by_cases hwt : w = t
        · subst hwt
          exact absurd hw (hnew u hut hu)
        · rw [hother u hut] at hu
          rw [hother w hwt] at hw
          exact h.one u w hu hw

/-! ## The mutex -/

/-- A thread in `commit` has the mutex. -/
def Guarded (s : Commits T) : Prop := ∀ t, (s.place t).Inside → s.pxsMutex = true

theorem Guarded.step (h : s.Guarded) (hsingle : s.Single) (hok : s.DecidesApart a)
    (hs : s.step a = some s') : s'.Guarded := by
  rcases steps hs with ⟨hplace, hmutex, -⟩ | ⟨t, ht, hother⟩
  · intro t ht
    rw [hplace] at ht
    exact hmutex.trans (h t ht)
  · intro u hu
    by_cases hut : u = t
    · subst hut
      exact ht.inside (h u) hu
    · rw [hother u hut] at hu
      rcases ht.mutex_eq with hm | hm | hp | hdecides
      · exact hm
      · exact hm.trans (h u hu)
      · exact absurd (hsingle.one u t hu.inRun hp.inRun) hut
      · cases a with
        | decidereq _ arg => exact absurd hu (hok (UInt32.not_le.mp hdecides) u)
        | _ => exact absurd trivial hdecides

/-- The mutex is taken, and no thread has it. -/
structure Abandoned (s : Commits T) : Prop where
  locked : s.pxsMutex = true
  nobody : ∀ t, ¬ (s.place t).Inside

theorem Guarded.abandoned (h : s.Guarded) {t : T} (ht : s.place t = .relocking false)
    (hs : s.step (.relock t) = some s') : s'.Abandoned := by
  simp only [Commits.step, ht] at hs
  obtain ⟨hfree, heq⟩ := Option.ite_none_left_eq_some.mp hs
  cases heq
  refine ⟨rfl, fun u hu => ?_⟩
  replace hu : (Function.update s.place t Place.out u).Inside := hu
  by_cases hut : u = t
  · subst hut
    rw [Function.update_self] at hu
    exact hu
  · rw [Function.update_of_ne hut] at hu
    exact hfree (h u hu)

/-- Since `s₀`: the threads that waited for the mutex still do, and no thread has come to tell the
configuration of a view.  While one waits in `commit`, there is no other run. -/
structure Stranded (s₀ s : Commits T) : Prop where
  locked : s.pxsMutex = true
  waiting : ∀ t, (s₀.place t).Waiting → s.place t = s₀.place t
  untold : ∀ t, (s.place t).Telling → s.place t = s₀.place t
  unproposed : ∀ t inst v, s.place t = .committing inst v →
    s.stable = false ∧ ∀ u, (s.place u).InRun → u = t

theorem Abandoned.step (h : s.Abandoned) (hok : s.NoDecide a) (hs : s.step a = some s') :
    s'.Abandoned ∧ ∀ t, ((s.place t).Waiting ∨ (s'.place t).Telling) → s'.place t = s.place t := by
  rcases steps hs with ⟨hplace, hmutex, -⟩ | ⟨t, ht, hother⟩
  · exact ⟨⟨hmutex.trans h.locked, hplace ▸ h.nobody⟩, fun t _ => congrFun hplace t⟩
  · rw [h.locked] at ht
    obtain ⟨hm, hinside, hwaiting, htelling⟩ := ht.of_locked (not_not.mpr hok) (h.nobody t)
    refine ⟨⟨hm, fun u hu => ?_⟩, fun u hu => ?_⟩
    · by_cases hut : u = t
      · subst hut
        exact hinside hu
      · rw [hother u hut] at hu
        exact h.nobody u hu
    · by_cases hut : u = t
      · subst hut
        exact absurd hu (not_or.mpr ⟨hwaiting, htelling⟩)
      · exact hother u hut

/-- What holds of the states after `s₀`. -/
structure After (s₀ s : Commits T) : Prop where
  single : s.Single
  abandoned : s.Abandoned
  waiting : ∀ t, (s₀.place t).Waiting → s.place t = s₀.place t
  untold : ∀ t, (s.place t).Telling → s.place t = s₀.place t

theorem After.step {s₀ : Commits T} (h : After s₀ s) (hok : s.NoDecide a)
    (hs : s.step a = some s') : After s₀ s' := by
  obtain ⟨habandoned, hsame⟩ := h.abandoned.step hok hs
  refine ⟨h.single.step hs, habandoned, fun t ht => ?_, fun t ht => ?_⟩
  · have hold := h.waiting t ht
    rw [← hold] at ht ⊢
    exact hsame t (.inl ht)
  · have hold := hsame t (.inr ht)
    rw [hold] at ht ⊢
    exact h.untold t ht

omit [DecidableEq T] in
theorem After.stranded {s₀ : Commits T} (h : After s₀ s) : Stranded s₀ s where
  locked := h.abandoned.locked
  waiting := h.waiting
  untold := h.untold
  unproposed t inst v ht := by
    have hrun : (s.place t).InRun := by rw [ht]; trivial
    exact ⟨h.single.unstable t hrun, fun u hu => h.single.one u t hu hrun⟩

/-- After a decide request has returned, and until one commits again: the mutex stays taken, no
thread gets it, the configuration is told of no other view, and once the proposer wants to
commit what it has learned, the node never proposes anything again. -/
theorem decide_strands {acc : Acceptor} {as as' as'' : List (CommitsAction T)}
    {s s' s'' : Commits T} {t : T} (hrun : system.run (new acc) as = some s)
    (hapart : system.StepsMeet DecidesApart (new acc) as) (ht : s.place t = .relocking false)
    (hs : system.step s (.relock t) = some s') (hrun' : system.run s' as' = some s'')
    (hno' : system.StepsMeet NoDecide s' as') (hno'' : system.StepsMeet NoDecide s'' as'') :
    system.AlongRun (Stranded s'') s'' as'' := by
  replace hs : s.step (.relock t) = some s' := hs
  have hinv : s.Single ∧ s.Guarded :=
    (hapart.alongRun (P := fun s => s.Single ∧ s.Guarded)
      (fun _ _ _ h hok hs => ⟨h.1.step hs, h.2.step h.1 hok hs⟩)
      ⟨single_new acc, fun _ h => h.elim⟩).run hrun
  have hafter : s''.Single ∧ s''.Abandoned :=
    (hno'.alongRun (P := fun s => s.Single ∧ s.Abandoned)
      (fun _ _ _ h hok hs => ⟨h.1.step hs, (h.2.step hok hs).1⟩)
      ⟨hinv.1.step hs, hinv.2.abandoned ht hs⟩).run hrun'
  exact (hno''.alongRun (P := After s'') (fun _ _ _ h hok hs => h.step hok hs)
    ⟨hafter.1, hafter.2, fun _ _ => rfl, fun _ _ => rfl⟩).mono fun _ h => h.stranded

instance (s : Commits T) : DecidablePred s.NoDecide
  | .decidereq _ arg => inferInstanceAs (Decidable (arg.inst ≤ s.acc.instanceH))
  | .preparereq _ | .acceptreq _ | .run _ _ | .oldinstance _ _ | .commit _ | .commitWo _
  | .paxosCommit _ | .commitChange _ | .relock _ | .unlock _ | .finish _ | .restore _ =>
    inferInstanceAs (Decidable True)

instance [Fintype T] (s : Commits T) : DecidablePred s.DecidesApart
  | .decidereq _ arg =>
    inferInstanceAs (Decidable (s.acc.instanceH < arg.inst → ∀ u, ¬ (s.place u).Inside))
  | .preparereq _ | .acceptreq _ | .run _ _ | .oldinstance _ _ | .commit _ | .commitWo _
  | .paxosCommit _ | .commitChange _ | .relock _ | .unlock _ | .finish _ | .restore _ =>
    inferInstanceAs (Decidable True)

/-- Node 3002 is told of the second view. -/
def decideSecond : List (CommitsAction Bool) :=
  [.decidereq false ⟨2, "3001 3002 "⟩, .paxosCommit false, .commitChange false]

/-- It misses the third view, and learns of it from a prepare reply. -/
def learnThird : List (CommitsAction Bool) := [.run true 3, .oldinstance true "3001 3002 3003 "]

/-- From then on nothing is proposed. -/
theorem decide_strands_third :
    let s := system.final (new (.blank "3002" [])) decideSecond
    let s' := system.final s [.relock false]
    let s'' := system.final s' learnThird
    s''.place true = .committing 3 "3001 3002 3003 " ∧
      system.AlongRun (Stranded s'') s'' [.run false 4, .decidereq false ⟨2, "3001 3002 "⟩] := by
  intro s s' s''
  have hrun : system.run (new (.blank "3002" [])) decideSecond = some s :=
    System.run_eq_some_final (by decide +kernel)
  have hrelock : system.run s [.relock false] = some s' :=
    System.run_eq_some_final (by decide +kernel)
  have hlearn : system.run s' learnThird = some s'' := System.run_eq_some_final (by decide +kernel)
  obtain ⟨_, hs, hnil⟩ := System.run_cons_eq_some hrelock
  cases hnil
  refine ⟨by decide +kernel, ?_⟩
  exact decide_strands (t := false) hrun (by decide +kernel) (by decide +kernel) hs hlearn
    (by decide +kernel) (by decide +kernel)

/-- A node whose own proposer has learned that it is removed never proposes anything again. -/
theorem removed_run_silent {acc : Acceptor} {as : List (CommitsAction T)} {s : Commits T} {t : T}
    (hrun : system.run (new acc) as = some s) (ht : s.place t = .recovering true)
    (as' : List (CommitsAction T)) :
    system.AlongRun (fun s' => s'.stable = false ∧ ∀ u, (s'.place u).InRun → u = t) s as' := by
  have hall : ∀ (s : Commits T) as, system.StepsMeet (fun _ _ => True) s as :=
    System.stepsMeet_of_forall fun _ _ => trivial
  have hsingle : s.Single := ((hall _ as).alongRun (P := Single) (fun _ _ _ h _ hs => h.step hs)
    (single_new acc)).run hrun
  have hstep : ∀ (s : Commits T) a s', s.Single ∧ s.place t = .recovering true → True →
      s.step a = some s' → s'.Single ∧ s'.place t = .recovering true := by
    intro s a s' h _ hs
    refine ⟨h.1.step hs, ?_⟩
    rcases steps hs with ⟨hplace, -⟩ | ⟨u, hu, hother⟩
    · rw [hplace]
      exact h.2
    · by_cases hut : t = u
      · subst hut
        rw [h.2] at hu
        cases hu
      · rw [hother t hut]
        exact h.2
  refine ((hall s as').alongRun (P := fun s => s.Single ∧ s.place t = .recovering true) hstep
    ⟨hsingle, ht⟩).mono fun s' h => ?_
  have hrun : (s'.place t).InRun := by rw [h.2]; rfl
  exact ⟨h.1.unstable t hrun, fun u hu => h.1.one u t hu hrun⟩

/-- Node 3002 learns from a prepare reply that it is not in the third view. -/
def learnRemoval : List (CommitsAction Bool) :=
  [.run true 3, .oldinstance true "3001 ", .commit true, .commitWo true, .paxosCommit true,
    .commitChange true]

theorem removed_run_silent_third :
    (system.final (new (.blank "3002" [])) learnRemoval).place true = .recovering true ∧
      system.AlongRun (fun s' => s'.stable = false ∧ ∀ u, (s'.place u).InRun → u = true)
        (system.final (new (.blank "3002" [])) learnRemoval) [.run false 4] :=
  have hplace : (system.final (new (.blank "3002" [])) learnRemoval).place true =
    .recovering true := by decide +kernel
  ⟨hplace, removed_run_silent (System.run_eq_some_final (by decide +kernel)) hplace _⟩

end Commits
end Rsm
end Frangipani

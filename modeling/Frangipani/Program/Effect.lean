/-
Programs that make calls.

A program is a tree.  A leaf is a result, and an inner node is a call with one subtree
for each answer.  The type of the answer depends on the call.

A program has two meanings.  `Runs p calls a` says that the program makes these calls,
gets these answers and returns `a`, with nothing assumed of the answers; `All` is what
holds of every run, and `all_bind` takes it through a sequence.  `exec` answers the
calls by a machine with a state.
-/
import Mathlib.Tactic.TypeStar

namespace Frangipani
namespace Program

inductive Prog (C : Type) (A : C → Type) (α : Type)
  | done (a : α)
  | call (c : C) (k : A c → Prog C A α)

namespace Prog

variable {C : Type} {A : C → Type} {α β σ : Type}

def bind (p : Prog C A α) (f : α → Prog C A β) : Prog C A β :=
  match p with
  | .done a => f a
  | .call c k => .call c fun x => (k x).bind f

instance : Monad (Prog C A) where
  pure := .done
  bind := bind

/-- The program that makes one call and returns the answer. -/
def perform (c : C) : Prog C A (A c) := .call c .done

@[simp] theorem pure_eq (a : α) : (pure a : Prog C A α) = .done a := rfl

@[simp] theorem done_bind (a : α) (f : α → Prog C A β) : (done a >>= f) = f a := rfl

@[simp] theorem call_bind (c : C) (k : A c → Prog C A α) (f : α → Prog C A β) :
    (call c k >>= f) = .call c fun x => k x >>= f := rfl

@[simp] theorem perform_bind (c : C) (f : A c → Prog C A β) : (perform c >>= f) = .call c f := rfl

/-! ## Runs with any answers -/

/-- The calls of a run, each with its answer. -/
abbrev Calls (C : Type) (A : C → Type) := List ((c : C) × A c)

inductive Runs : Prog C A α → Calls C A → α → Prop
  | done (a : α) : Runs (.done a) [] a
  | call {c : C} {k : A c → Prog C A α} {calls : Calls C A} {a : α} (x : A c)
      (h : Runs (k x) calls a) : Runs (.call c k) (⟨c, x⟩ :: calls) a

theorem Runs.bind {p : Prog C A α} {f : α → Prog C A β} {calls calls' : Calls C A} {a : α} {b : β}
    (hp : p.Runs calls a) (hf : (f a).Runs calls' b) : (p >>= f).Runs (calls ++ calls') b := by
  induction hp with
  | done a => exact hf
  | call x _ ih => exact .call x (ih hf)

/-- `Q` holds of every run. -/
def All (Q : Calls C A → α → Prop) : Prog C A α → Prop
  | .done a => Q [] a
  | .call c k => ∀ x, (k x).All fun calls a => Q (⟨c, x⟩ :: calls) a

theorem All.mono {p : Prog C A α} : ∀ {Q R : Calls C A → α → Prop},
    (∀ calls a, Q calls a → R calls a) → p.All Q → p.All R := by
  induction p with
  | done a => exact fun h hall => h [] a hall
  | call c k ih => exact fun h hall x => ih x (fun calls a => h (⟨c, x⟩ :: calls) a) (hall x)

theorem All.and {p : Prog C A α} : ∀ {Q R : Calls C A → α → Prop},
    p.All Q → p.All R → p.All fun calls a => Q calls a ∧ R calls a := by
  induction p with
  | done a => exact fun hQ hR => ⟨hQ, hR⟩
  | call c k ih => exact fun hQ hR x => ih x (hQ x) (hR x)

theorem all_bind (p : Prog C A α) (f : α → Prog C A β) : ∀ {Q : Calls C A → β → Prop},
    (p >>= f).All Q ↔ p.All fun calls a => (f a).All fun calls' b => Q (calls ++ calls') b := by
  induction p with
  | done a => exact Iff.rfl
  | call c k ih => exact forall_congr' fun x => ih x

theorem All.of_runs {p : Prog C A α} {calls : Calls C A} {a : α} (hrun : p.Runs calls a) :
    ∀ {Q : Calls C A → α → Prop}, p.All Q → Q calls a := by
  induction hrun with
  | done a => exact fun h => h
  | call x _ ih => exact fun h => ih (h x)

/-! ## Runs on a machine -/

/-- Run a program with a machine that answers its calls. -/
def exec (answer : σ → (c : C) → A c × σ) : Prog C A α → σ → α × σ
  | .done a, s => (a, s)
  | .call c k, s => (k (answer s c).1).exec answer (answer s c).2

@[simp] theorem exec_done (answer : σ → (c : C) → A c × σ) (a : α) (s : σ) :
    (done a).exec answer s = (a, s) := rfl

@[simp] theorem exec_call (answer : σ → (c : C) → A c × σ) (c : C) (k : A c → Prog C A α) (s : σ) :
    (call c k).exec answer s = (k (answer s c).1).exec answer (answer s c).2 := rfl

theorem exec_bind (answer : σ → (c : C) → A c × σ) (p : Prog C A α) (f : α → Prog C A β) :
    ∀ s : σ, (p >>= f).exec answer s =
      (f (p.exec answer s).1).exec answer (p.exec answer s).2 := by
  induction p with
  | done a => exact fun _ => rfl
  | call c k ih => exact fun s => ih (answer s c).1 (answer s c).2

end Prog
end Program
end Frangipani

/-
The acceptor.

The three handlers run to completion.  `acceptor` keeps one promised ballot `n_h`,
one accepted ballot `n_a` and one accepted value `v_a`, whatever instance is being
agreed on, and a map of the values decided so far.  Every change that has to
survive a crash is followed by a record appended to the log file, whose text is
part of the state here.

`values` is read with the subscript operator, which enters an empty string for an
instance that is missing.  The upcall `paxos_commit` after a commit is left out:
it tells the layer above and returns nothing to the acceptor.
-/
import Frangipani.Data.Map
import Frangipani.Paxos.Ballot
import Frangipani.Text.Stream

namespace Frangipani
namespace Paxos

open Text

/-- `paxos_protocol::preparearg`. -/
structure PrepareArg where
  inst : UInt32
  n : PropT
  v : String
  deriving DecidableEq, Repr

/-- `paxos_protocol::prepareres`. -/
structure PrepareRes where
  oldinstance : Bool
  accept : Bool
  nA : PropT
  vA : String
  deriving DecidableEq, Repr

/-- `paxos_protocol::acceptarg`. -/
structure AcceptArg where
  inst : UInt32
  n : PropT
  v : String
  deriving DecidableEq, Repr

/-- `paxos_protocol::decidearg`. -/
structure DecideArg where
  inst : UInt32
  v : String
  deriving DecidableEq, Repr

/-- `acceptor`, with the text of its log file. -/
structure Acceptor where
  me : String
  nH : PropT
  nA : PropT
  vA : String
  instanceH : UInt32
  values : Map UInt32 String
  log : List Char

namespace Acceptor

/-! ## The records of the log -/

def doneText (inst : UInt32) (v : String) : List Char :=
  ['d', 'o', 'n', 'e'] ++ [' '] ++ decimal inst ++ [' '] ++ v.toList ++ ['\n']

def highText (n : PropT) : List Char :=
  ['h', 'i', 'g', 'h'] ++ [' '] ++ decimal n.n ++ [' '] ++ n.m.toList ++ ['\n']

def propText (n : PropT) (v : String) : List Char :=
  ['p', 'r', 'o', 'p'] ++ [' '] ++ decimal n.n ++ [' '] ++ n.m.toList ++ [' '] ++ v.toList ++ ['\n']

/-- `log::loginstance`. -/
def loginstance (a : Acceptor) (inst : UInt32) (v : String) : Acceptor :=
  { a with log := a.log ++ doneText inst v }

/-- `log::loghigh`. -/
def loghigh (a : Acceptor) (n : PropT) : Acceptor :=
  { a with log := a.log ++ highText n }

/-- `log::logprop`. -/
def logprop (a : Acceptor) (n : PropT) (v : String) : Acceptor :=
  { a with log := a.log ++ propText n v }

/-! ## The handlers -/

/-- `value`: the value decided for an instance, which the subscript enters as
empty when it is missing. -/
def value (a : Acceptor) (inst : UInt32) : String × Acceptor :=
  let (v, values) := a.values.index inst ""
  (v, { a with values := values })

def preparereq (a : Acceptor) (arg : PrepareArg) : PrepareRes × Acceptor :=
  if arg.inst ≤ a.instanceH then
    let (v, a') := a.value arg.inst
    ({ oldinstance := true, accept := false, nA := a.nA, vA := v }, a')
  else if arg.n.gt a.nH then
    ({ oldinstance := false, accept := true, nA := a.nA, vA := a.vA },
      { a with nH := arg.n }.loghigh arg.n)
  else ({ oldinstance := false, accept := false, nA := a.nA, vA := a.vA }, a)

def acceptreq (a : Acceptor) (arg : AcceptArg) : Bool × Acceptor :=
  if arg.inst ≤ a.instanceH then (false, a)
  else if arg.n.ge a.nH then
    (true, { a with nH := arg.n, nA := arg.n, vA := arg.v }.logprop arg.n arg.v)
  else (false, a)

def commitWo (a : Acceptor) (inst : UInt32) (v : String) : Acceptor :=
  if inst > a.instanceH then
    let a := { a with values := a.values.insert inst v }.loginstance inst v
    { a with
      instanceH := inst, nH := { n := 0, m := a.me }, nA := { n := 0, m := a.me }, vA := "" }
  else a

def decidereq (a : Acceptor) (arg : DecideArg) : Bool × Acceptor :=
  if arg.inst ≤ a.instanceH then (false, a) else (true, a.commitWo arg.inst arg.v)

def commit (a : Acceptor) (inst : UInt32) (v : String) : Acceptor := a.commitWo inst v

/-- A call of a handler, or the commit of a proposer that has learned an old
value, with any arguments. -/
inductive Op
  | preparereq (arg : PrepareArg)
  | acceptreq (arg : AcceptArg)
  | decidereq (arg : DecideArg)
  | commit (inst : UInt32) (v : String)
  deriving DecidableEq, Repr

/-- Serve a call. -/
def serveOp (a : Acceptor) : Op → Acceptor
  | .preparereq arg => (a.preparereq arg).2
  | .acceptreq arg => (a.acceptreq arg).2
  | .decidereq arg => (a.decidereq arg).2
  | .commit inst v => a.commit inst v

/-- The instance and the value that serving a call commits, if it commits one. -/
def commits (a : Acceptor) : Op → List (UInt32 × String)
  | .decidereq arg => if a.instanceH < arg.inst then [(arg.inst, arg.v)] else []
  | .commit inst v => if a.instanceH < inst then [(inst, v)] else []
  | _ => []

/-- The fields before the log is read. -/
def blank (me : String) (log : List Char) : Acceptor where
  me := me
  nH := { n := 0, m := me }
  nA := { n := 0, m := me }
  vA := ""
  instanceH := 0
  values := .empty
  log := log

/-! ## What the handlers do -/

theorem value_of_find {a : Acceptor} {inst : UInt32} {v : String}
    (h : a.values.find inst = some v) : a.value inst = (v, a) := by
  simp only [value, Map.index, h]

theorem preparereq_old {a : Acceptor} {arg : PrepareArg} (hinst : arg.inst ≤ a.instanceH) :
    a.preparereq arg =
      ({ oldinstance := true, accept := false, nA := a.nA, vA := (a.value arg.inst).1 },
        (a.value arg.inst).2) := by
  simp only [preparereq, hinst, if_true]

theorem preparereq_decided {a : Acceptor} {arg : PrepareArg} {v : String}
    (hinst : arg.inst ≤ a.instanceH) (hv : a.values.find arg.inst = some v) :
    a.preparereq arg = ({ oldinstance := true, accept := false, nA := a.nA, vA := v }, a) := by
  rw [preparereq_old hinst, value_of_find hv]

theorem preparereq_promised {a : Acceptor} {arg : PrepareArg} (hinst : a.instanceH < arg.inst)
    (hgt : arg.n.gt a.nH = true) :
    a.preparereq arg = ({ oldinstance := false, accept := true, nA := a.nA, vA := a.vA },
      { a with nH := arg.n, log := a.log ++ highText arg.n }) := by
  have hnot : ¬ arg.inst ≤ a.instanceH := UInt32.not_le.mpr hinst
  simp only [preparereq, hnot, if_false, hgt, if_true, loghigh]

theorem preparereq_refused {a : Acceptor} {arg : PrepareArg} (hinst : a.instanceH < arg.inst)
    (hgt : arg.n.gt a.nH = false) :
    a.preparereq arg = ({ oldinstance := false, accept := false, nA := a.nA, vA := a.vA }, a) := by
  have hnot : ¬ arg.inst ≤ a.instanceH := UInt32.not_le.mpr hinst
  simp only [preparereq, hnot, if_false, hgt, Bool.false_eq_true]

theorem preparereq_snd (a : Acceptor) (arg : PrepareArg) :
    (a.preparereq arg).2 = (a.value arg.inst).2 ∨
      (a.preparereq arg).2 = { a with nH := arg.n, log := a.log ++ highText arg.n } ∨
      (a.preparereq arg).2 = a := by
  by_cases hold : arg.inst ≤ a.instanceH
  · exact Or.inl (congrArg Prod.snd (preparereq_old hold))
  · have hnew := UInt32.not_le.mp hold
    cases hgt : arg.n.gt a.nH with
    | true => exact Or.inr (Or.inl (congrArg Prod.snd (preparereq_promised hnew hgt)))
    | false => exact Or.inr (Or.inr (congrArg Prod.snd (preparereq_refused hnew hgt)))

/-- An acceptance is logged as `prop`, whatever it does to the promise. -/
theorem acceptreq_accepted {a : Acceptor} {arg : AcceptArg} (hinst : a.instanceH < arg.inst)
    (hge : arg.n.ge a.nH = true) :
    a.acceptreq arg = (true, { a with
      nH := arg.n, nA := arg.n, vA := arg.v, log := a.log ++ propText arg.n arg.v }) := by
  have hnot : ¬ arg.inst ≤ a.instanceH := UInt32.not_le.mpr hinst
  simp only [acceptreq, hnot, if_false, hge, if_true, logprop]

theorem acceptreq_refused {a : Acceptor} {arg : AcceptArg}
    (h : ¬ (a.instanceH < arg.inst ∧ arg.n.ge a.nH = true)) : a.acceptreq arg = (false, a) := by
  unfold acceptreq
  split
  · rfl
  · rename_i hinst
    split
    · rename_i hge
      exact absurd ⟨UInt32.not_le.mp hinst, hge⟩ h
    · rfl

theorem commitWo_new {a : Acceptor} {inst : UInt32} (v : String) (h : a.instanceH < inst) :
    a.commitWo inst v = { a with
      values := a.values.insert inst v, log := a.log ++ doneText inst v, instanceH := inst,
      nH := { n := 0, m := a.me }, nA := { n := 0, m := a.me }, vA := "" } := by
  have hgt : inst > a.instanceH := h
  simp only [commitWo, hgt, if_true, loginstance]

theorem commitWo_old {a : Acceptor} {inst : UInt32} (v : String) (h : inst ≤ a.instanceH) :
    a.commitWo inst v = a := by
  have hnot : ¬ inst > a.instanceH := UInt32.not_lt.mpr h
  simp only [commitWo, hnot, if_false]

theorem decidereq_snd (a : Acceptor) (arg : DecideArg) :
    (a.decidereq arg).2 = a.commitWo arg.inst arg.v := by
  unfold decidereq
  split
  · rename_i hinst
    exact (commitWo_old arg.v hinst).symm
  · rfl

theorem value_eq (a : Acceptor) (inst : UInt32) :
    (a.value inst).1 = (a.values.find inst).getD "" := by
  unfold value Map.index
  cases a.values.find inst <;> rfl

theorem value_value (a : Acceptor) (inst i : UInt32) :
    ((a.value inst).2.value i).1 = (a.value i).1 := by
  rw [value_eq, value_eq]
  show (((a.values.index inst "").2).find i).getD "" = _
  unfold Map.index
  cases hfind : a.values.find inst with
  | some v => rfl
  | none =>
    by_cases hi : i = inst
    · subst hi
      rw [Map.find_insert_self, hfind]
      rfl
    · rw [Map.find_insert_ne _ _ hi]

end Acceptor
end Paxos
end Frangipani

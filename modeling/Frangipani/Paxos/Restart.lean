/-
Restarting an acceptor.

A node may crash at any time and build a new acceptor from its log file.  The
handlers and `logread` are two implementations of one state machine: a handler
changes the state and appends a record, and `logread` changes the state for each
record it reads.

They differ in one place.  An acceptance can raise the promised ballot `n_h`, but
`acceptreq` logs it as `prop`, and reading `prop` sets only `n_a` and `v_a`.  An
acceptor can be restarted in every state of a run, and be the same, exactly as
long as no acceptance raises the promised ballot.
-/
import Frangipani.Paxos.Log
import Frangipani.Transition.System

namespace Frangipani
namespace Paxos

open Transition

/-- The arguments that a node gives to the constructor of its acceptor. -/
structure Node where
  first : Bool
  me : NodeName
  value : LineValue

/-- The calls an acceptor serves, and a crash with a restart from the log. -/
inductive Call
  | preparereq (inst n : UInt32) (m : NodeName) (v : LineValue)
  | acceptreq (inst n : UInt32) (m : NodeName) (v : LineValue)
  | decidereq (inst : UInt32) (v : LineValue)
  | commit (inst : UInt32) (v : LineValue)
  | restart

namespace Node

def boot (node : Node) (log : List Char) : Option Acceptor :=
  Acceptor.create node.first node.me.name node.value.text log

def step (node : Node) (a : Acceptor) : Call → Option Acceptor
  | .preparereq inst n m v =>
    some (a.preparereq { inst := inst, n := { n := n, m := m.name }, v := v.text }).2
  | .acceptreq inst n m v =>
    some (a.acceptreq { inst := inst, n := { n := n, m := m.name }, v := v.text }).2
  | .decidereq inst v => some (a.decidereq { inst := inst, v := v.text }).2
  | .commit inst v => some (a.commit inst v.text)
  | .restart => node.boot a.log

/-- The acceptor of a node that starts with an empty log file. -/
def start (node : Node) : Acceptor := .fresh node.first node.me.name node.value.text

def system (node : Node) : System Acceptor Call where
  init a := a = node.start
  step := node.step

end Node

namespace Acceptor

/-- The two acceptors agree on everything that is meant to be durable. -/
structure SameState (a b : Acceptor) : Prop where
  instanceH : a.instanceH = b.instanceH
  values : ∀ inst, (a.value inst).1 = (b.value inst).1
  nH : a.nH.Same b.nH
  nA : a.nA.Same b.nA
  vA : a.vA = b.vA

/-- A new acceptor for the node, built from the log file, is the same. -/
def SurvivesRestart (node : Node) (a : Acceptor) : Prop :=
  ∃ b, node.boot a.log = some b ∧ a.SameState b

/-- An acceptance does not raise the promised ballot. -/
def NoRaise (a : Acceptor) : Call → Prop
  | .acceptreq inst n m _ =>
    a.instanceH < inst → ({ n := n, m := m.name } : PropT).ge a.nH = true →
      ({ n := n, m := m.name } : PropT).Same a.nH
  | _ => True

theorem SameState.refl (a : Acceptor) : a.SameState a :=
  ⟨rfl, fun _ => rfl, .refl _, .refl _, rfl⟩

theorem SameState.trans {a b c : Acceptor} (hab : a.SameState b) (hbc : b.SameState c) :
    a.SameState c :=
  ⟨hab.instanceH.trans hbc.instanceH, fun i => (hab.values i).trans (hbc.values i),
    hab.nH.trans hbc.nH, hab.nA.trans hbc.nA, hab.vA.trans hbc.vA⟩

theorem value_sameState (a : Acceptor) (inst : UInt32) : (a.value inst).2.SameState a :=
  ⟨rfl, value_value a inst, .refl _, .refl _, rfl⟩

/-! ## The log describes the acceptor -/

/-- The log is a list of records, and what they describe is the acceptor. -/
structure Logged (node : Node) (rs : List Record) (a : Acceptor) : Prop where
  log : a.log = logText rs
  me : a.me = node.me.name
  same : a.SameState (replay node.me.name rs)
  first : node.first = true → a.instanceH ≠ 0

def Inv (node : Node) (a : Acceptor) : Prop := ∃ rs, Logged node rs a

theorem replay_me (me : String) (rs : List Record) : (replay me rs).me = me := by
  have h : ∀ (rs : List Record) (a : Acceptor), (rs.foldl Record.apply a).me = a.me := by
    intro rs
    induction rs with
    | nil => exact fun _ => rfl
    | cons r rs ih =>
      intro a
      rw [List.foldl_cons, ih]
      cases r <;> rfl
  exact h rs (blank me [])

/-- Building an acceptor from a log that is not empty of `done` records, or on a
node that is not the first, appends nothing. -/
theorem boot_logText {node : Node} {rs : List Record}
    (hfirst : node.first = true → (replay node.me.name rs).instanceH ≠ 0) :
    node.boot (logText rs) = some { replay node.me.name rs with log := logText rs } := by
  unfold Node.boot create
  rw [logread_logText, Option.map_some]
  refine congrArg some (if_neg ?_)
  rintro ⟨hzero, hf⟩
  exact hfirst hf hzero

theorem Logged.boot {node : Node} {rs : List Record} {a : Acceptor} (h : Logged node rs a) :
    node.boot a.log = some { replay node.me.name rs with log := logText rs } := by
  rw [h.log]
  exact boot_logText fun hf => h.same.instanceH ▸ h.first hf

/-- What a restart builds is described by the log it was built from. -/
theorem Logged.restarted {node : Node} {rs : List Record} {a : Acceptor} (h : Logged node rs a) :
    Logged node rs { replay node.me.name rs with log := logText rs } where
  log := rfl
  me := replay_me node.me.name rs
  same := ⟨rfl, fun _ => rfl, .refl _, .refl _, rfl⟩
  first := fun hf => h.same.instanceH ▸ h.first hf

theorem Inv.survivesRestart {node : Node} {a : Acceptor} (h : Inv node a) :
    a.SurvivesRestart node := by
  obtain ⟨rs, hrs⟩ := h
  exact ⟨_, hrs.boot, hrs.same.instanceH, hrs.same.values, hrs.same.nH, hrs.same.nA, hrs.same.vA⟩

theorem Logged.of_same {node : Node} {rs : List Record} {a b : Acceptor} (h : Logged node rs a)
    (hlog : b.log = a.log) (hme : b.me = a.me) (hsame : b.SameState a) : Logged node rs b where
  log := hlog.trans h.log
  me := hme.trans h.me
  same := hsame.trans h.same
  first := fun hf => hsame.instanceH ▸ h.first hf

theorem Logged.append {node : Node} {rs : List Record} {a b : Acceptor} (h : Logged node rs a)
    (r : Record) (hlog : b.log = a.log ++ r.text) (hme : b.me = a.me)
    (hsame : b.SameState (r.apply (replay node.me.name rs)))
    (hfirst : node.first = true → b.instanceH ≠ 0) : Logged node (rs ++ [r]) b where
  log := by rw [hlog, h.log, logText_append]
  me := hme.trans h.me
  same := by rw [replay_append]; exact hsame
  first := hfirst

theorem Logged.commitWo_new {node : Node} {rs : List Record} {a : Acceptor} (h : Logged node rs a)
    {inst : UInt32} (v : LineValue) (hinst : a.instanceH < inst) :
    Logged node (rs ++ [.done inst v]) (a.commitWo inst v.text) := by
  rw [Acceptor.commitWo_new v.text hinst]
  refine h.append (.done inst v) rfl rfl ⟨rfl, fun i => ?_, ?_, ?_, rfl⟩ fun _ => ?_
  · rw [value_eq, value_eq]
    by_cases hi : i = inst
    · subst hi
      exact congrArg (Option.getD · "")
        ((Map.find_insert_self ..).trans (Map.find_insert_self ..).symm)
    · have hvalue := h.same.values i
      rw [value_eq, value_eq] at hvalue
      refine (congrArg (Option.getD · "") (Map.find_insert_ne _ _ hi)).trans
        (hvalue.trans (congrArg (Option.getD · "") (Map.find_insert_ne _ _ hi).symm))
  · exact ⟨rfl, Or.inl rfl⟩
  · exact ⟨rfl, Or.inl rfl⟩
  · show inst ≠ 0
    rintro rfl
    exact absurd hinst (by simp)

theorem Logged.commitWo {node : Node} {rs : List Record} {a : Acceptor} (h : Logged node rs a)
    (inst : UInt32) (v : LineValue) : Inv node (a.commitWo inst v.text) := by
  by_cases hinst : a.instanceH < inst
  · exact ⟨_, h.commitWo_new v hinst⟩
  · rw [commitWo_old v.text (UInt32.not_lt.mp hinst)]
    exact ⟨rs, h⟩

theorem Logged.preparereq {node : Node} {rs : List Record} {a : Acceptor} (h : Logged node rs a)
    (inst n : UInt32) (m : NodeName) (v : LineValue) :
    Inv node (a.preparereq { inst := inst, n := { n := n, m := m.name }, v := v.text }).2 := by
  unfold Acceptor.preparereq
  split
  · exact ⟨rs, h.of_same rfl rfl (value_sameState a inst)⟩
  · split
    · refine ⟨_, h.append (.high n m) rfl rfl ?_ h.first⟩
      exact ⟨h.same.instanceH, h.same.values, .refl _, h.same.nA, h.same.vA⟩
    · exact ⟨rs, h⟩

theorem Logged.acceptreq {node : Node} {rs : List Record} {a : Acceptor} (h : Logged node rs a)
    {inst n : UInt32} {m : NodeName} {v : LineValue} (hok : a.NoRaise (.acceptreq inst n m v)) :
    Inv node (a.acceptreq { inst := inst, n := { n := n, m := m.name }, v := v.text }).2 := by
  by_cases hacc : a.instanceH < inst ∧ ({ n := n, m := m.name } : PropT).ge a.nH = true
  · rw [acceptreq_accepted hacc.1 hacc.2]
    refine ⟨_, h.append (.prop n m v) rfl rfl ?_ h.first⟩
    exact ⟨h.same.instanceH, h.same.values, (hok hacc.1 hacc.2).trans h.same.nH, .refl _, rfl⟩
  · rw [acceptreq_refused hacc]
    exact ⟨rs, h⟩

theorem Inv.step {node : Node} {a b : Acceptor} {c : Call} (h : Inv node a) (hok : a.NoRaise c)
    (hs : node.step a c = some b) : Inv node b := by
  obtain ⟨rs, hrs⟩ := h
  cases c with
  | preparereq inst n m v =>
    cases hs
    exact hrs.preparereq inst n m v
  | acceptreq inst n m v =>
    cases hs
    exact hrs.acceptreq hok
  | decidereq inst v =>
    cases hs
    unfold Acceptor.decidereq
    split
    · exact ⟨rs, hrs⟩
    · exact hrs.commitWo inst v
  | commit inst v =>
    cases hs
    exact hrs.commitWo inst v
  | restart =>
    have hboot := hrs.boot
    rw [Node.step] at hs
    rw [hs] at hboot
    cases hboot
    exact ⟨rs, hrs.restarted⟩

/-- After an acceptance that raised the promise, a restart forgets the raise:
the log still describes the promise before it. -/
theorem not_survivesRestart_of_raise {node : Node} {a b : Acceptor} {c : Call} (h : Inv node a)
    (hbad : ¬ a.NoRaise c) (hs : node.step a c = some b) : ¬ b.SurvivesRestart node := by
  cases c with
  | acceptreq inst n m v =>
    rintro ⟨d, hd, hsame⟩
    refine hbad fun hinst hge => ?_
    cases hs
    obtain ⟨rs, hrs⟩ := h
    rw [acceptreq_accepted hinst hge] at hd hsame
    have hlog : a.log ++ propText { n := n, m := m.name } v.text =
        logText (rs ++ [.prop n m v]) := by
      rw [hrs.log, logText_append]
      rfl
    have hfirst : node.first = true →
        (replay node.me.name (rs ++ [.prop n m v])).instanceH ≠ 0 := by
      intro hf
      rw [replay_append]
      exact fun hzero => hrs.first hf (hrs.same.instanceH.trans hzero)
    rw [hlog, boot_logText hfirst, replay_append] at hd
    cases hd
    exact hsame.nH.trans hrs.same.nH.symm
  | preparereq | decidereq | commit | restart => exact absurd trivial hbad

theorem inv_start (node : Node) : Inv node node.start := by
  unfold Node.start fresh
  split
  · have hlog : logText [.done 1 node.value] = doneText 1 node.value.text := by
      rw [logText, List.flatMap_singleton]
      rfl
    exact ⟨[.done 1 node.value], hlog.symm, rfl, ⟨rfl, fun _ => rfl, .refl _, .refl _, rfl⟩,
      fun _ => show (1 : UInt32) ≠ 0 by decide⟩
  · rename_i hfirst
    exact ⟨[], rfl, rfl, .refl _, fun hf => absurd hf hfirst⟩

end Acceptor

namespace Node

/-- In every run of an acceptor, restarts included, the acceptor can be restarted
in every state and be the same, if and only if no acceptance along the run raises
the promised ballot. -/
theorem survivesRestart_iff (node : Node) (calls : List Call) :
    node.system.AlongRun (Acceptor.SurvivesRestart node) node.start calls ↔
      node.system.StepsMeet Acceptor.NoRaise node.start calls :=
  System.alongRun_iff_stepsMeet (fun _ h => h.survivesRestart)
    (fun _ _ _ h hok hs => h.step hok hs)
    (fun _ _ _ h hbad hs => Acceptor.not_survivesRestart_of_raise h hbad hs)
    (Acceptor.inv_start node)

/-- A node that is not the first of its group. -/
def second : Node where
  first := false
  me := ⟨"3002", by decide, Text.noSpace_of_all (by decide)⟩
  value := ⟨"", by decide⟩

/-- An accept request reaches an acceptor that missed the prepare. -/
def lostPrepare : List Call :=
  [.acceptreq 1 5 ⟨"3001", by decide, Text.noSpace_of_all (by decide)⟩ ⟨"v", by decide⟩]

theorem lostPrepare_not_survivesRestart :
    (second.system.run second.start lostPrepare).map (fun a => a.nH) =
      some { n := 5, m := "3001" } ∧
    ((second.system.run second.start lostPrepare).bind fun a => second.boot a.log).map
      (fun b => b.nH) = some { n := 0, m := "3002" } ∧
    ¬ second.system.AlongRun (Acceptor.SurvivesRestart second) second.start lostPrepare := by
  have hlive : (second.system.run second.start lostPrepare).map (fun a => a.nH) =
      some { n := 5, m := "3001" } := by decide
  have hboot : ((second.system.run second.start lostPrepare).bind fun a => second.boot a.log).map
      (fun b => b.nH) = some { n := 0, m := "3002" } := by decide +kernel
  refine ⟨hlive, hboot, ?_⟩
  intro h
  obtain ⟨b, hb, hsame⟩ : Acceptor.SurvivesRestart second _ := h.2 _ rfl
  change (second.boot _).map _ = _ at hboot
  rw [hb] at hboot
  have hn : b.nH.n = 0 := congrArg PropT.n (Option.some.inj hboot)
  exact absurd (hsame.nH.1.trans hn) (by decide)

end Node
end Paxos
end Frangipani

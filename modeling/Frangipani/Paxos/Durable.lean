/-
What restarts cannot undo.

A decided value is never replaced, because a commit is ignored unless its
instance is above all committed ones, and a restart rebuilds the same values from
the `done` records.  This needs less than a log that describes the whole
acceptor: only the promised ballot is not what the log says, and no decided value
depends on it.

It does need a log that can be read back.  The log is made of words and lines,
so a node name that is not one word, which a prepare or accept request may carry,
changes what the records after it mean.
-/
import Frangipani.Paxos.History
import Frangipani.Paxos.Restart

namespace Frangipani
namespace Paxos

open Text Transition

/-- A call with any arguments, or a crash with a restart from the log. -/
inductive Event
  | serve (op : Acceptor.Op)
  | restart
  deriving DecidableEq, Repr

def NodeName.ofIsWord {name : String} (h : IsWord name) : NodeName :=
  { name := name, nonempty := h.1, noSpace := h.noSpace }

namespace Event

/-- The value of the call has no line end. -/
def OneLine : Event → Prop
  | .serve (.preparereq arg) => '\n' ∉ arg.v.toList
  | .serve (.acceptreq arg) => '\n' ∉ arg.v.toList
  | .serve (.decidereq arg) => '\n' ∉ arg.v.toList
  | .serve (.commit _ v) => '\n' ∉ v.toList
  | .restart => True

instance : DecidablePred OneLine
  | .serve (.preparereq _) => inferInstanceAs (Decidable (_ ∉ _))
  | .serve (.acceptreq _) => inferInstanceAs (Decidable (_ ∉ _))
  | .serve (.decidereq _) => inferInstanceAs (Decidable (_ ∉ _))
  | .serve (.commit _ _) => inferInstanceAs (Decidable (_ ∉ _))
  | .restart => inferInstanceAs (Decidable True)

/-- The node name in the ballot of the call is one word. -/
def WordName : Event → Prop
  | .serve (.preparereq arg) => IsWord arg.n.m
  | .serve (.acceptreq arg) => IsWord arg.n.m
  | _ => True

instance : DecidablePred WordName
  | .serve (.preparereq _) => inferInstanceAs (Decidable (IsWord _))
  | .serve (.acceptreq _) => inferInstanceAs (Decidable (IsWord _))
  | .serve (.decidereq _) => inferInstanceAs (Decidable True)
  | .serve (.commit _ _) => inferInstanceAs (Decidable True)
  | .restart => inferInstanceAs (Decidable True)

end Event

namespace Node

def live (node : Node) (a : Acceptor) : Event → Option Acceptor
  | .serve op => some (a.serveOp op)
  | .restart => node.boot a.log

def life (node : Node) : System Acceptor Event where
  init a := a = node.start
  step := node.live

end Node

namespace Acceptor

/-! ## The log describes all but the promise -/

/-- Up to the promised ballot, the acceptor is what the records of its log
describe. -/
def DescribedBy (node : Node) (rs : List Record) (a : Acceptor) : Prop :=
  ∃ nH, Logged node rs { a with nH := nH }

def Described (node : Node) (a : Acceptor) : Prop := ∃ rs, DescribedBy node rs a

theorem described_start (node : Node) : Described node node.start := by
  obtain ⟨rs, hrs⟩ := inv_start node
  exact ⟨rs, _, hrs⟩

/-- A call appends records, among them one for what it commits. -/
structure Appends (node : Node) (rs : List Record) (committed : List (UInt32 × String))
    (new : List Record) (b : Acceptor) : Prop where
  described : DescribedBy node (rs ++ new) b
  done : ∀ p ∈ committed, ∃ v, .done p.1 v ∈ new

theorem DescribedBy.unchanged {node : Node} {rs : List Record} {a : Acceptor}
    (h : DescribedBy node rs a) : Appends node rs [] [] a where
  described := by rw [List.append_nil]; exact h
  done := fun _ hp => absurd hp List.not_mem_nil

theorem DescribedBy.commitWo {node : Node} {rs : List Record} {a : Acceptor}
    (h : DescribedBy node rs a) (inst : UInt32) (v : LineValue) :
    ∃ new, Appends node rs (if a.instanceH < inst then [(inst, v.text)] else []) new
      (a.commitWo inst v.text) := by
  by_cases hnew : a.instanceH < inst
  · obtain ⟨nH, hrs⟩ := h
    rw [if_pos hnew]
    refine ⟨[.done inst v], ⟨{ n := 0, m := a.me }, ?_⟩, ?_⟩
    · have hcommit :=
        hrs.commitWo_new v (show Acceptor.instanceH { a with nH := nH } < inst from hnew)
      rw [commitWo_new v.text (show Acceptor.instanceH { a with nH := nH } < inst from hnew)]
        at hcommit
      rw [commitWo_new v.text hnew]
      exact hcommit
    · intro p hp
      cases List.mem_singleton.mp hp
      exact ⟨v, List.mem_singleton.mpr rfl⟩
  · rw [if_neg hnew, commitWo_old v.text (UInt32.not_lt.mp hnew)]
    exact ⟨[], h.unchanged⟩

theorem DescribedBy.preparereq {node : Node} {rs : List Record} {a : Acceptor}
    (h : DescribedBy node rs a) (arg : PrepareArg) (hword : IsWord arg.n.m) :
    ∃ new, Appends node rs [] new (a.preparereq arg).2 := by
  obtain ⟨nH, hrs⟩ := h
  rcases preparereq_snd a arg with hreq | hreq | hreq <;> rw [hreq]
  · exact ⟨[], DescribedBy.unchanged
      ⟨nH, hrs.of_same rfl rfl (value_sameState { a with nH := nH } arg.inst)⟩⟩
  · refine ⟨[.high arg.n.n (.ofIsWord hword)], ⟨arg.n, hrs.append _ rfl rfl ?_ hrs.first⟩, ?_⟩
    · exact ⟨hrs.same.instanceH, hrs.same.values, .refl _, hrs.same.nA, hrs.same.vA⟩
    · exact fun _ hp => absurd hp List.not_mem_nil
  · exact ⟨[], DescribedBy.unchanged ⟨nH, hrs⟩⟩

/-- An acceptance may raise the promise, which is the one thing it does not log. -/
theorem DescribedBy.acceptreq {node : Node} {rs : List Record} {a : Acceptor}
    (h : DescribedBy node rs a) (arg : AcceptArg) (hword : IsWord arg.n.m)
    (hline : '\n' ∉ arg.v.toList) : ∃ new, Appends node rs [] new (a.acceptreq arg).2 := by
  by_cases hacc : a.instanceH < arg.inst ∧ arg.n.ge a.nH = true
  · obtain ⟨nH, hrs⟩ := h
    rw [acceptreq_accepted hacc.1 hacc.2]
    refine ⟨[.prop arg.n.n (.ofIsWord hword) ⟨arg.v, hline⟩],
      ⟨nH, hrs.append _ rfl rfl ?_ hrs.first⟩, ?_⟩
    · exact ⟨hrs.same.instanceH, hrs.same.values, hrs.same.nH, .refl _, rfl⟩
    · exact fun _ hp => absurd hp List.not_mem_nil
  · rw [acceptreq_refused hacc]
    exact ⟨[], h.unchanged⟩

theorem DescribedBy.serveOp {node : Node} {rs : List Record} {a : Acceptor}
    (h : DescribedBy node rs a) {op : Op} (hline : (Event.serve op).OneLine)
    (hword : (Event.serve op).WordName) :
    ∃ new, Appends node rs (a.commits op) new (a.serveOp op) := by
  cases op with
  | preparereq arg => exact h.preparereq arg hword
  | acceptreq arg => exact h.acceptreq arg hword hline
  | decidereq arg =>
    show ∃ new, Appends node rs _ new (a.decidereq arg).2
    rw [decidereq_snd]
    exact h.commitWo arg.inst ⟨arg.v, hline⟩
  | commit inst v => exact h.commitWo inst ⟨v, hline⟩

theorem DescribedBy.restart {node : Node} {rs : List Record} {a : Acceptor}
    (h : DescribedBy node rs a) :
    ∃ b, node.boot a.log = some b ∧ DescribedBy node rs b ∧ a.Extends b := by
  obtain ⟨nH, hrs⟩ := h
  refine ⟨_, hrs.boot, ⟨_, hrs.restarted⟩, ?_, fun i _ => ?_⟩
  · exact UInt32.le_of_eq hrs.same.instanceH
  · exact (hrs.same.values i).symm

theorem Described.step {node : Node} {a : Acceptor} (h : Described node a) {e : Event}
    (hline : e.OneLine) (hword : e.WordName) :
    ∃ b, node.live a e = some b ∧ Described node b ∧ a.Extends b := by
  obtain ⟨rs, hrs⟩ := h
  cases e with
  | serve op =>
    obtain ⟨new, happ⟩ := hrs.serveOp hline hword
    exact ⟨_, rfl, ⟨_, happ.described⟩, serveOp_extends a op⟩
  | restart =>
    obtain ⟨b, hb, hdesc, hext⟩ := hrs.restart
    exact ⟨b, hb, ⟨rs, hdesc⟩, hext⟩

theorem Described.run {node : Node} (es : List Event) :
    ∀ {a : Acceptor}, Described node a → (∀ e ∈ es, e.OneLine) → (∀ e ∈ es, e.WordName) →
      ∃ b, node.life.run a es = some b ∧ Described node b ∧ a.Extends b := by
  induction es with
  | nil => exact fun {a} h _ _ => ⟨a, rfl, h, .refl a⟩
  | cons e es ih =>
    intro a h hline hword
    obtain ⟨m, hm, hdesc, hext⟩ :=
      h.step (hline e List.mem_cons_self) (hword e List.mem_cons_self)
    obtain ⟨b, hb, hdesc', hext'⟩ :=
      ih hdesc (fun e he => hline e (List.mem_cons_of_mem _ he))
        fun e he => hword e (List.mem_cons_of_mem _ he)
    refine ⟨b, ?_, hdesc', hext.trans hext'⟩
    show (node.live a e).bind _ = some b
    rw [hm]
    exact hb

end Acceptor

namespace Node

/-- The run `es` and then `fs` goes through, and no decision made in the first
part is undone in the second. -/
def DecisionsStable (node : Node) (es fs : List Event) : Prop :=
  ∃ a b, node.life.run node.start es = some a ∧ node.life.run a fs = some b ∧
    a.instanceH ≤ b.instanceH ∧ ∀ i, i ≤ a.instanceH → (b.value i).1 = (a.value i).1

/-- In every run of an acceptor, restarts included, in which the values are lines
and the node names are words, every restart succeeds and no decision made up to
some point of the run is undone after it. -/
theorem decisionsStable_of_words (node : Node) (es fs : List Event)
    (hline : ∀ e ∈ es ++ fs, e.OneLine) (hword : ∀ e ∈ es ++ fs, e.WordName) :
    node.DecisionsStable es fs := by
  obtain ⟨a, ha, hdesc, -⟩ := (Acceptor.described_start node).run es
    (fun e he => hline e (List.mem_append_left _ he))
    fun e he => hword e (List.mem_append_left _ he)
  obtain ⟨b, hb, -, hext⟩ := hdesc.run fs (fun e he => hline e (List.mem_append_right _ he))
    fun e he => hword e (List.mem_append_right _ he)
  exact ⟨a, b, ha, hb, hext.instanceH, hext.values⟩

theorem founder_isWord : IsWord "3001" := by decide

theorem founder_oneLine : '\n' ∉ "3001".toList := by decide

/-- The first node of a group. -/
def founder : Node where
  first := true
  me := .ofIsWord founder_isWord
  value := ⟨"3001", founder_oneLine⟩

theorem decisionsStable_founder :
    founder.DecisionsStable
      [.serve (.decidereq { inst := 2, v := "3001 3002" }),
        .serve (.acceptreq { inst := 3, n := { n := 5, m := "3002" }, v := "3001" })]
      [.restart, .serve (.commit 3 "3002"), .restart] :=
  decisionsStable_of_words founder _ _ (by decide) (by decide)

/-- The node name of a prepare request holds a line end, and after it what reads
as a record. -/
def forgedRecord : List Event :=
  [.serve (.decidereq { inst := 2, v := "3001 3002" }),
    .serve (.preparereq { inst := 3, n := { n := 5, m := "3003\ndone 1 3009" }, v := "" })]

/-- The restart then takes instance 2 back and replaces the value of instance 1. -/
theorem forgedRecord_not_decisionsStable :
    (∀ e ∈ forgedRecord ++ [.restart], e.OneLine) ∧
    (founder.life.run founder.start forgedRecord).map
      (fun a => (a.instanceH, (a.value 1).1)) = some (2, "3001") ∧
    (founder.life.run founder.start (forgedRecord ++ [.restart])).map
      (fun a => (a.instanceH, (a.value 1).1)) = some (1, "3009") ∧
    ¬ founder.DecisionsStable forgedRecord [.restart] := by
  have hbefore : (founder.life.run founder.start forgedRecord).map
      (fun a => (a.instanceH, (a.value 1).1)) = some (2, "3001") := by decide +kernel
  have hafter : ((founder.life.run founder.start forgedRecord).bind
      fun a => founder.life.run a [.restart]).map (fun a => (a.instanceH, (a.value 1).1)) =
      some (1, "3009") := by decide +kernel
  refine ⟨by decide, hbefore, by decide +kernel, ?_⟩
  rintro ⟨a, b, ha, hb, hle, -⟩
  rw [ha] at hbefore hafter
  rw [Option.bind_some, hb] at hafter
  have hina : a.instanceH = 2 := congrArg Prod.fst (Option.some.inj hbefore)
  have hinb : b.instanceH = 1 := congrArg Prod.fst (Option.some.inj hafter)
  rw [hina, hinb] at hle
  exact absurd hle (by decide)

end Node
end Paxos
end Frangipani

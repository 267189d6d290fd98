/-
Where committed values come from.

An acceptor keeps one accepted value, whatever instance it was accepted for, and
reports it to every prepare request for an undecided instance.  An acceptor that
has not heard of the decision of an instance reports the value it accepted there
to a prepare for a later one, and the proposer takes it over.  An acceptor that
never got the decision of an instance below its latest one reports an empty value
as decided.

As long as every prepare reaches an acceptor whose accepted value is for the
instance asked about, or that has the decided value at hand, every committed
value was passed to `run` for its instance, or is the bootstrap value.
-/
import Frangipani.Paxos.Network

namespace Frangipani
namespace Paxos

open Transition

namespace World

/-- Every node has a new acceptor, the first ones with the bootstrap value, no
proposer is running and no message is under way. -/
structure Boots (boot : String) (w : World) : Prop where
  acceptor : ∀ p, ∃ first, Acceptor.create first p boot [] = some (w.acceptor p)
  run : ∀ p, (w.proposer p).run = none
  requests : w.requests = []
  replies : w.replies = []
  commits : w.commits = []

def system (boot : String) : System World Action where
  init := Boots boot
  step := step

/-- The value is the bootstrap value of instance 1, or it was passed to `run` for
the instance. -/
def Proposed (boot : String) (calls : List (UInt32 × String)) (inst : UInt32) (v : String) : Prop :=
  (inst = 1 ∧ v = boot) ∨ (inst, v) ∈ calls

def Validity (boot : String) (w : World) : Prop :=
  ∀ p inst v, (p, inst, v) ∈ w.commits → Proposed boot w.calls inst v

/-- A prepare for a decided instance finds its value, and an accepted prepare for
an undecided one finds no value that was accepted for another. -/
def FindsOwn (a : Acceptor) (acceptedFor : UInt32) (arg : PrepareArg) : Prop :=
  (arg.inst ≤ a.instanceH → (a.values.find arg.inst).isSome = true) ∧
    (a.instanceH < arg.inst → arg.n.gt a.nH = true → a.vA = "" ∨ acceptedFor = arg.inst)

instance (a : Acceptor) (acceptedFor : UInt32) (arg : PrepareArg) :
    Decidable (FindsOwn a acceptedFor arg) :=
  inferInstanceAs (Decidable (_ ∧ _))

def prepareArg : Body → Option PrepareArg
  | .prepare arg => some arg
  | _ => none

/-- Every prepare that is delivered finds what belongs to its instance. -/
def Isolated (w : World) : Action → Prop
  | .deliver k =>
    ∀ req ∈ w.requests[k]?, ∀ arg ∈ prepareArg req.body,
      FindsOwn (w.acceptor req.dst) (w.acceptedFor req.dst) arg
  | _ => True

instance (w : World) : ∀ a, Decidable (w.Isolated a)
  | .deliver k => inferInstanceAs (Decidable (∀ req ∈ w.requests[k]?, ∀ arg ∈ prepareArg req.body,
      FindsOwn (w.acceptor req.dst) (w.acceptedFor req.dst) arg))
  | .start .. | .send _ | .skip _ | .giveUp _ | .receive .. | .finish _ => isTrue trivial

/-! ## What the parts may hold -/

/-- What a request may carry. -/
def BodyValid (boot : String) (calls : List (UInt32 × String)) : Body → Prop
  | .prepare _ => True
  | .accept arg => Proposed boot calls arg.inst arg.v
  | .decide arg => Proposed boot calls arg.inst arg.v

/-- What an answer to a request may report. -/
def AnswerValid (boot : String) (calls : List (UInt32 × String)) (body : Body) : Answer → Prop
  | .prepared res => ∃ arg, body = .prepare arg ∧
      (res.oldinstance = true → Proposed boot calls arg.inst res.vA) ∧
      (res.accept = true → res.vA ≠ "" → Proposed boot calls arg.inst res.vA)
  | _ => True

/-- A run proposes a value for its own instance, and asks about that. -/
structure RunValid (boot : String) (calls : List (UInt32 × String)) (r : Run) : Prop where
  cV : Proposed boot calls r.inst r.cV
  v : Proposed boot calls r.inst r.v
  asks : ∀ req arg, r.outstanding = some req → req.body = .prepare arg → arg.inst = r.inst

structure AcceptorValid (boot : String) (calls : List (UInt32 × String)) (a : Acceptor)
    (acceptedFor : UInt32) : Prop where
  values : ∀ inst v, a.values.find inst = some v → Proposed boot calls inst v
  accepted : a.vA ≠ "" → Proposed boot calls acceptedFor a.vA

structure Valid (boot : String) (w : World) : Prop where
  acceptor : ∀ p, AcceptorValid boot w.calls (w.acceptor p) (w.acceptedFor p)
  request : ∀ req ∈ w.requests, BodyValid boot w.calls req.body
  reply : ∀ reply ∈ w.replies, AnswerValid boot w.calls reply.request.body reply.answer
  run : ∀ p r, (w.proposer p).run = some r → RunValid boot w.calls r
  commits : w.Validity boot

section
variable {boot : String} {calls : List (UInt32 × String)}

theorem Proposed.cons {inst : UInt32} {v : String} (call : UInt32 × String)
    (h : Proposed boot calls inst v) : Proposed boot (call :: calls) inst v :=
  h.imp_right (List.mem_cons_of_mem call)

theorem Valid.cons {w : World} (h : w.Valid boot) (call : UInt32 × String) :
    Valid boot { w with calls := call :: w.calls } where
  acceptor := fun p =>
    ⟨fun inst v hv => ((h.acceptor p).values inst v hv).cons call,
      fun hv => ((h.acceptor p).accepted hv).cons call⟩
  request := by
    intro req hreq
    have hbody := h.request req hreq
    cases hb : req.body with
    | prepare arg => trivial
    | accept arg =>
      rw [hb] at hbody
      exact Proposed.cons call hbody
    | decide arg =>
      rw [hb] at hbody
      exact Proposed.cons call hbody
  reply := by
    intro reply hreply
    have hanswer := h.reply reply hreply
    cases ha : reply.answer with
    | prepared res =>
      rw [ha] at hanswer
      obtain ⟨arg, hbody, hold, hacc⟩ := hanswer
      exact ⟨arg, hbody, fun ho => (hold ho).cons call, fun hc hv => (hacc hc hv).cons call⟩
    | accepted ok => trivial
    | decided ok => trivial
  run := fun p r hr =>
    ⟨(h.run p r hr).cV.cons call, (h.run p r hr).v.cons call, (h.run p r hr).asks⟩
  commits := fun p inst v hv => (h.commits p inst v hv).cons call

/-! ## An acceptor serves a request -/

theorem AcceptorValid.commitWo {a : Acceptor} {j : UInt32} (h : AcceptorValid boot calls a j)
    {inst : UInt32} {v : String} (hv : Proposed boot calls inst v) :
    AcceptorValid boot calls (a.commitWo inst v) j := by
  unfold Acceptor.commitWo
  split
  · refine ⟨fun i u hu => ?_, fun hne => absurd rfl hne⟩
    rcases Map.find_insert_eq_some.mp hu with ⟨rfl, rfl⟩ | ⟨-, hu⟩
    · exact hv
    · exact h.values i u hu
  · exact h

theorem AcceptorValid.preparereq {a : Acceptor} {j : UInt32} (h : AcceptorValid boot calls a j)
    {arg : PrepareArg} (hfinds : FindsOwn a j arg) :
    AcceptorValid boot calls (a.preparereq arg).2 j ∧
      AnswerValid boot calls (.prepare arg) (.prepared (a.preparereq arg).1) := by
  unfold Acceptor.preparereq
  split
  · rename_i hinst
    obtain ⟨v, hv⟩ := Option.isSome_iff_exists.mp (hfinds.1 hinst)
    rw [Acceptor.value_of_find hv]
    exact ⟨h, arg, rfl, fun _ => h.values arg.inst v hv, fun hc => absurd hc Bool.false_ne_true⟩
  · rename_i hinst
    split
    · rename_i hgt
      refine ⟨⟨h.values, h.accepted⟩, arg, rfl, fun hc => absurd hc Bool.false_ne_true,
        fun _ hne => ?_⟩
      rcases hfinds.2 (UInt32.not_le.mp hinst) hgt with hempty | hsame
      · exact absurd hempty hne
      · exact hsame ▸ h.accepted hne
    · exact ⟨h, arg, rfl, fun hc => absurd hc Bool.false_ne_true,
        fun hc => absurd hc Bool.false_ne_true⟩

theorem AcceptorValid.acceptreq {a : Acceptor} {j : UInt32} (h : AcceptorValid boot calls a j)
    {arg : AcceptArg} (harg : Proposed boot calls arg.inst arg.v) :
    AcceptorValid boot calls (a.acceptreq arg).2 (if (a.acceptreq arg).1 then arg.inst else j) := by
  unfold Acceptor.acceptreq
  split
  · exact h
  · split
    · exact ⟨h.values, fun _ => harg⟩
    · exact h

theorem AcceptorValid.decidereq {a : Acceptor} {j : UInt32} (h : AcceptorValid boot calls a j)
    {arg : DecideArg} (harg : Proposed boot calls arg.inst arg.v) :
    AcceptorValid boot calls (a.decidereq arg).2 j := by
  unfold Acceptor.decidereq
  split
  · exact h
  · exact h.commitWo harg

end

/-! ## One step -/

theorem Valid.of_run {boot : String} {w t : World} (h : w.Valid boot) {p : String}
    (hacceptor : t.acceptor = w.acceptor) (hfor : t.acceptedFor = w.acceptedFor)
    (hcalls : t.calls = w.calls) (hcommits : t.commits = w.commits)
    (hrequests : ∀ req ∈ t.requests, BodyValid boot w.calls req.body)
    (hreplies : ∀ reply ∈ t.replies, reply ∈ w.replies)
    (hproposer : ∀ q, q ≠ p → t.proposer q = w.proposer q)
    (hrun : ∀ r, (t.proposer p).run = some r → RunValid boot w.calls r) : t.Valid boot where
  acceptor := fun q => by rw [hacceptor, hfor, hcalls]; exact h.acceptor q
  request := fun req hreq => by rw [hcalls]; exact hrequests req hreq
  reply := fun reply hreply => by rw [hcalls]; exact h.reply reply (hreplies reply hreply)
  run := by
    intro q r hr
    rw [hcalls]
    by_cases hq : q = p
    · subst hq
      exact hrun r hr
    · rw [hproposer q hq] at hr
      exact h.run q r hr
  commits := fun q inst v hv => by
    rw [hcalls]
    exact h.commits q inst v (hcommits ▸ hv)

theorem Valid.setRun {boot : String} {w : World} (h : w.Valid boot) (p : String)
    {run : Option Run} (hrun : ∀ r, run = some r → RunValid boot w.calls r) :
    (w.setRun p run).Valid boot := by
  refine h.of_run (p := p) rfl rfl rfl rfl h.request (fun _ hr => hr)
    (fun q hq => setRun_proposer_ne w run hq) ?_
  rw [setRun_run_self]
  exact hrun

theorem Valid.dropReply {boot : String} {w : World} (h : w.Valid boot) (k : Nat) :
    Valid boot { w with replies := w.replies.eraseIdx k } :=
  h.of_run (p := "") rfl rfl rfl rfl h.request (fun _ hr => List.mem_of_mem_eraseIdx hr)
    (fun _ _ => rfl) (h.run "")

theorem RunValid.advance {boot : String} {calls : List (UInt32 × String)} {r : Run}
    (h : RunValid boot calls r) : RunValid boot calls r.advance :=
  ⟨h.cV, h.v, fun _ _ hreq => by cases hreq⟩

theorem Valid.start {boot : String} {w : World} (h : w.Valid boot) (p : String) (inst : UInt32)
    (nodes : List String) (v : String) (hrun : (w.proposer p).run = none) :
    (w.start p inst nodes v).Valid boot := by
  have hcons := h.cons (inst, v)
  have hv : Proposed boot ((inst, v) :: w.calls) inst v := Or.inr List.mem_cons_self
  simp only [World.start, hrun]
  refine hcons.of_run (p := p) rfl rfl rfl rfl hcons.request (fun _ hr => hr)
    (fun q hq => by simp [hq]) ?_
  intro r hr
  simp only [Function.update_self, Option.some.injEq] at hr
  subst hr
  exact ⟨hv, hv, fun _ _ hreq => by cases hreq⟩

theorem RunValid.body {boot : String} {calls : List (UInt32 × String)} {r : Run}
    (h : RunValid boot calls r) (myN : PropT) : BodyValid boot calls (r.body myN) := by
  unfold Run.body
  cases r.phase with
  | prepare => trivial
  | accept => exact h.v
  | decide => exact h.v

theorem Valid.sent {boot : String} {w : World} (h : w.Valid boot) {p : String} {r : Run}
    (hr : (w.proposer p).run = some r) (dst : String) : (w.sent p r dst).Valid boot := by
  have hvalid := h.run p r hr
  refine h.of_run (p := p) rfl rfl rfl rfl ?_ (fun _ hr => hr)
    (fun q hq => setRun_proposer_ne w _ hq) ?_
  · intro req hreq
    rcases List.mem_append.mp hreq with hreq | hreq
    · exact h.request req hreq
    · rw [List.mem_singleton.mp hreq]
      exact hvalid.body _
  · intro r' hr'
    change ((w.setRun p _).proposer p).run = some r' at hr'
    rw [setRun_run_self] at hr'
    cases hr'
    refine ⟨hvalid.cV, hvalid.v, fun req arg hreq harg => ?_⟩
    cases hreq
    simp only [Run.body] at harg
    split at harg
    · cases harg
      rfl
    · cases harg
    · cases harg

theorem RunValid.finish {boot : String} {calls : List (UInt32 × String)} {r r' : Run}
    (h : RunValid boot calls r) (hout : ∀ req, r.outstanding ≠ some req)
    (hr : r.finish = some r') : RunValid boot calls r' := by
  unfold Run.finish at hr
  split at hr
  · split at hr
    · cases hr
      refine ⟨h.cV, ?_, fun req _ hreq => absurd hreq (hout req)⟩
      show Proposed boot calls r.inst (if r.v = "" then r.cV else r.v)
      split
      · exact h.cV
      · exact h.v
    · cases hr
  · split at hr
    · cases hr
      exact ⟨h.cV, h.v, fun req _ hreq => absurd hreq (hout req)⟩
    · cases hr
  · cases hr

theorem RunValid.promised {boot : String} {calls : List (UInt32 × String)} {r : Run}
    (h : RunValid boot calls r) (node : String) {res : PrepareRes}
    (hres : res.vA ≠ "" → Proposed boot calls r.inst res.vA) :
    RunValid boot calls (r.promised node res) := by
  unfold Run.promised
  dsimp only
  split
  · exact ⟨h.cV, h.v, fun _ _ hreq => by cases hreq⟩
  · rename_i hne
    split
    · exact ⟨h.cV, hres hne, fun _ _ hreq => by cases hreq⟩
    · exact ⟨h.cV, h.v, fun _ _ hreq => by cases hreq⟩

theorem AcceptorValid.serve {boot : String} {calls : List (UInt32 × String)} {a : Acceptor}
    {j : UInt32} (h : AcceptorValid boot calls a j) {body : Body}
    (hbody : BodyValid boot calls body) (hfinds : ∀ arg, body = .prepare arg → FindsOwn a j arg) :
    AnswerValid boot calls body (a.serve body).1 ∧
      AcceptorValid boot calls (a.serve body).2 (acceptedInst j body (a.serve body).1) := by
  cases body with
  | prepare arg =>
    obtain ⟨hacc, hans⟩ := h.preparereq (hfinds arg rfl)
    exact ⟨hans, hacc⟩
  | accept arg =>
    have hacc := h.acceptreq hbody
    refine ⟨trivial, ?_⟩
    simp only [Acceptor.serve]
    cases hr : (a.acceptreq arg).1 with
    | true =>
      rw [hr] at hacc
      exact hacc
    | false =>
      rw [hr] at hacc
      exact hacc
  | decide arg => exact ⟨trivial, h.decidereq hbody⟩

theorem Valid.delivered {boot : String} {w : World} (h : w.Valid boot) {k : Nat} {req : Request}
    (hreq : w.requests[k]? = some req)
    (hfinds : ∀ arg, req.body = .prepare arg →
      FindsOwn (w.acceptor req.dst) (w.acceptedFor req.dst) arg) :
    (w.delivered k req).Valid boot := by
  have hbody := h.request req (List.mem_of_getElem? hreq)
  obtain ⟨hanswer, hacc⟩ := (h.acceptor req.dst).serve hbody hfinds
  refine ⟨fun p => ?_, fun req' hreq' => ?_, fun reply hreply => ?_, h.run, fun p inst v hv => ?_⟩
  · by_cases hp : p = req.dst
    · subst hp
      simp only [World.delivered, setAcceptor, Function.update_self]
      exact hacc
    · simp only [World.delivered, setAcceptor, Function.update_of_ne hp]
      exact h.acceptor p
  · exact h.request req' (List.mem_of_mem_eraseIdx hreq')
  · rcases List.mem_append.mp hreply with hreply | hreply
    · exact h.reply reply hreply
    · rw [List.mem_singleton.mp hreply]
      exact hanswer
  · rcases List.mem_append.mp hv with hv | hv
    · obtain ⟨arg, hdecide, _, _, rfl, rfl⟩ := mem_committedBy hv
      rw [hdecide] at hbody
      exact hbody
    · exact h.commits p inst v hv

theorem Valid.commit {boot : String} {w : World} (h : w.Valid boot) (p : String) {inst : UInt32}
    {v : String} (hv : Proposed boot w.calls inst v) : (w.commit p inst v).Valid boot := by
  refine ⟨fun q => ?_, h.request, h.reply, h.run, fun q i u hu => ?_⟩
  · by_cases hq : q = p
    · subst hq
      simp only [World.commit, setAcceptor, Function.update_self]
      exact (h.acceptor q).commitWo hv
    · simp only [World.commit, setAcceptor, Function.update_of_ne hq]
      exact h.acceptor q
  · simp only [World.commit] at hu
    split at hu
    · rcases List.mem_cons.mp hu with hu | hu
      · cases hu
        exact hv
      · exact h.commits q i u hu
    · exact h.commits q i u hu

theorem Valid.answered {boot : String} {w : World} (h : w.Valid boot) {p : String} {r : Run}
    (hr : (w.proposer p).run = some r) {req : Request} (hout : r.outstanding = some req)
    {answer : Answer} (hanswer : AnswerValid boot w.calls req.body answer) :
    (w.answered p r req answer).Valid boot := by
  have hvalid := h.run p r hr
  cases answer with
  | prepared res =>
    obtain ⟨arg, harg, hold, hacc⟩ := hanswer
    rw [hvalid.asks req arg hout harg] at hold hacc
    simp only [World.answered]
    split
    · rename_i ho
      exact (h.commit p (hold ho)).setRun p fun _ hr => by cases hr
    · split
      · rename_i ha
        refine h.setRun p fun _ hr => ?_
        cases hr
        exact hvalid.promised req.dst (hacc ha)
      · exact h.setRun p fun _ hr => by cases hr
  | accepted ok =>
    refine h.setRun p fun _ hr => ?_
    cases hr
    cases ok with
    | true => exact ⟨hvalid.cV, hvalid.v, fun _ _ hreq => by cases hreq⟩
    | false => exact hvalid.advance
  | decided ok =>
    refine h.setRun p fun _ hr => ?_
    cases hr
    exact hvalid.advance

theorem Valid.step {boot : String} {w t : World} {a : Action} (h : w.Valid boot)
    (hok : w.Isolated a) (ht : w.step a = some t) : t.Valid boot := by
  cases step_cases ht with
  | busy => exact h
  | start p inst nodes v hrun => exact h.start p inst nodes v hrun
  | send p r dst rest hr => exact h.sent hr dst
  | advance a p r hr =>
    refine h.setRun p fun _ hr' => ?_
    cases hr'
    exact (h.run p r hr).advance
  | deliver k req hreq =>
    exact h.delivered hreq fun arg harg => hok req hreq arg (by rw [harg]; rfl)
  | receive p k r reply hr hreply hout =>
    exact (h.dropReply k).answered hr hout (h.reply reply (List.mem_of_getElem? hreply))
  | finish p r hr hout =>
    exact h.setRun p fun _ hr' => (h.run p r hr).finish (by simp [hout]) hr'

theorem Boots.valid {boot : String} {w : World} (h : w.Boots boot) : w.Valid boot where
  acceptor := by
    intro p
    obtain ⟨first, hcreate⟩ := h.acceptor p
    rw [Acceptor.create_nil] at hcreate
    rw [← Option.some.inj hcreate, Acceptor.fresh]
    split
    · refine ⟨fun inst v hv => ?_, fun hne => absurd rfl hne⟩
      rcases Map.find_insert_eq_some.mp hv with ⟨rfl, rfl⟩ | ⟨-, hv⟩
      · exact Or.inl ⟨rfl, rfl⟩
      · cases hv
    · exact ⟨fun _ _ hv => (by cases hv), fun hne => absurd rfl hne⟩
  request := fun req hreq => by rw [h.requests] at hreq; cases hreq
  reply := fun reply hreply => by rw [h.replies] at hreply; cases hreply
  run := fun p r hr => by rw [h.run p] at hr; cases hr
  commits := fun p inst v hv => by rw [h.commits] at hv; cases hv

/-- In every state of a run in which every prepare finds what belongs to its
instance, every committed value was passed to `run` for its instance, or is the
bootstrap value of instance 1. -/
theorem validity {boot : String} {w : World} (h : (system boot).ReachableWhile Isolated w) :
    w.Validity boot :=
  (h.invariant (fun _ hs => Boots.valid hs) fun _ _ _ hs hok ht => hs.step hok ht).commits

theorem boots_booted : (booted "boot").Boots "boot" where
  acceptor := fun p => ⟨true, Acceptor.create_nil true p "boot"⟩
  run := fun _ => rfl
  requests := rfl
  replies := rfl
  commits := rfl

/-- One node agrees with itself on instance 2. -/
def oneNode : List Action :=
  [.start "a" 2 ["a"] "x", .send "a", .deliver 0, .receive "a" 0, .finish "a", .send "a",
    .deliver 0, .receive "a" 0, .finish "a", .send "a", .deliver 0]

theorem validity_oneNode :
    ∃ w, (system "boot").ReachableWhile Isolated w ∧ w.commits = [("a", 2, "x")] ∧
      w.Validity "boot" := by
  have hreach : (system "boot").ReachableWhile Isolated
      ((system "boot").final (booted "boot") oneNode) :=
    System.ReachableWhile.final oneNode (.init boots_booted) (by decide +kernel) (by decide +kernel)
  refine ⟨_, hreach, ?_, validity hreach⟩
  decide +kernel

/-- The decision of instance 2 does not reach the third node.  Its acceptor
reports the value of instance 2 to the prepare for instance 3. -/
def laggingAcceptor : List Action :=
  .flatten [[.start "a" 2 ["a", "b", "c"] "x"], roundTrip "a" 0, roundTrip "a" 0,
    roundTrip "a" 0, [.finish "a"], roundTrip "a" 0, roundTrip "a" 0, roundTrip "a" 0,
    [.finish "a"], roundTrip "a" 0, roundTrip "a" 0, [.send "a", .giveUp "a", .finish "a"],
    [.start "a" 3 ["a", "b", "c"] "y"], roundTrip "a" 1, roundTrip "a" 1, roundTrip "a" 1,
    [.finish "a"], roundTrip "a" 1, roundTrip "a" 1, roundTrip "a" 1,
    [.finish "a", .send "a", .deliver 1]]

theorem laggingAcceptor_not_validity :
    ∃ w, (system "boot").Reachable w ∧ ("a", 3, "x") ∈ w.commits ∧
      w.calls = [(3, "y"), (2, "x")] ∧ ¬ w.Validity "boot" := by
  have hreach : (system "boot").Reachable
      ((system "boot").final (booted "boot") laggingAcceptor) :=
    System.Reachable.final laggingAcceptor (.init boots_booted) (by decide +kernel)
  have hcommit : ("a", 3, "x") ∈
      ((system "boot").final (booted "boot") laggingAcceptor).commits := by decide +kernel
  have hcalls : ((system "boot").final (booted "boot") laggingAcceptor).calls =
      [(3, "y"), (2, "x")] := by decide +kernel
  generalize (system "boot").final (booted "boot") laggingAcceptor = w at hreach hcommit hcalls
  refine ⟨w, hreach, hcommit, hcalls, fun h => ?_⟩
  have hbad := h "a" 3 "x" hcommit
  rw [hcalls] at hbad
  exact absurd hbad (by unfold Proposed; decide)

end World
end Paxos
end Frangipani

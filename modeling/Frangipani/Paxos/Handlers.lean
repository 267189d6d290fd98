/-
The handlers of an acceptor, statement by statement.

`preparereq`, `acceptreq` and `decidereq` take no lock and run on the threads of the RPC
server, so several of them can be at work in one acceptor, with a `commit` of the node's own
proposer among them.  A handler is a program here whose calls are the statements that read or
write a field of the acceptor or append to its log, and the threads take their statements in
any order.  `setn` reads the promised ballot at any moment.

A handler that is alone in its acceptor from its first statement to its last does what the
handler in one piece does.  So the votes behind a state are those of a world in which every
handler at work is done already, and all acceptors commit the same value.  With two handlers
in one acceptor they need not.
-/
import Frangipani.Paxos.Agreement
import Frangipani.Program.Effect

namespace Frangipani
namespace Paxos

open Transition Program

/-! ## Statements -/

/-- What a statement of a handler does with the acceptor. -/
inductive Access
  | readNH
  | readNA
  | readVA
  | readInstanceH
  | readValue (inst : UInt32)
  | writeNH (n : PropT)
  | writeNA (n : PropT)
  | writeVA (v : String)
  | loghigh
  | logprop
  | writeValue (inst : UInt32) (v : String)
  | loginstance (inst : UInt32) (v : String)
  | writeInstanceH (inst : UInt32)
  | zeroNH
  | ownNH
  | zeroNA
  | ownNA
  deriving DecidableEq, Repr

namespace Access

/-- The type of what is read. -/
abbrev Result : Access → Type
  | .readNH | .readNA => PropT
  | .readVA | .readValue _ => String
  | .readInstanceH => UInt32
  | .writeNH _ | .writeNA _ | .writeVA _ | .loghigh | .logprop | .writeValue _ _
  | .loginstance _ _ | .writeInstanceH _ | .zeroNH | .ownNH | .zeroNA | .ownNA => Unit

/-- The instance and the value that a statement enters as decided. -/
def commits : Access → List (UInt32 × String)
  | .writeValue inst v => [(inst, v)]
  | _ => []

end Access

namespace Acceptor

/-- One statement.  A record of the log has what the fields are when it is written. -/
def access (a : Acceptor) : (c : Access) → c.Result × Acceptor
  | .readNH => (a.nH, a)
  | .readNA => (a.nA, a)
  | .readVA => (a.vA, a)
  | .readInstanceH => (a.instanceH, a)
  | .readValue inst => a.value inst
  | .writeNH n => ((), { a with nH := n })
  | .writeNA n => ((), { a with nA := n })
  | .writeVA v => ((), { a with vA := v })
  | .loghigh => ((), a.loghigh a.nH)
  | .logprop => ((), a.logprop a.nA a.vA)
  | .writeValue inst v => ((), { a with values := a.values.insert inst v })
  | .loginstance inst v => ((), a.loginstance inst v)
  | .writeInstanceH inst => ((), { a with instanceH := inst })
  | .zeroNH => ((), { a with nH := { a.nH with n := 0 } })
  | .ownNH => ((), { a with nH := { a.nH with m := a.me } })
  | .zeroNA => ((), { a with nA := { a.nA with n := 0 } })
  | .ownNA => ((), { a with nA := { a.nA with m := a.me } })

/-- The acceptor, and what has been entered as decided so far. -/
def perform (s : Acceptor × List (UInt32 × String)) (c : Access) :
    c.Result × (Acceptor × List (UInt32 × String)) :=
  ((s.1.access c).1, ((s.1.access c).2, c.commits ++ s.2))

end Acceptor

/-- A handler, or what is left of it. -/
abbrev Handler := Prog Access Access.Result

namespace Handler

abbrev stmt (c : Access) : Handler c.Result := Prog.perform c

def preparereq (arg : PrepareArg) : Handler Answer := do
  let nA ← stmt .readNA
  let vA ← stmt .readVA
  let instanceH ← stmt .readInstanceH
  if arg.inst ≤ instanceH then
    let v ← stmt (.readValue arg.inst)
    pure (.prepared { oldinstance := true, accept := false, nA := nA, vA := v })
  else
    let nH ← stmt .readNH
    if arg.n.gt nH then
      stmt (.writeNH arg.n)
      stmt .loghigh
      pure (.prepared { oldinstance := false, accept := true, nA := nA, vA := vA })
    else pure (.prepared { oldinstance := false, accept := false, nA := nA, vA := vA })

def acceptreq (arg : AcceptArg) : Handler Answer := do
  let instanceH ← stmt .readInstanceH
  if arg.inst ≤ instanceH then pure (.accepted false)
  else
    let nH ← stmt .readNH
    if arg.n.ge nH then
      stmt (.writeNH arg.n)
      stmt (.writeNA arg.n)
      stmt (.writeVA arg.v)
      stmt .logprop
      pure (.accepted true)
    else pure (.accepted false)

def commitWo (inst : UInt32) (v : String) : Handler Unit := do
  let instanceH ← stmt .readInstanceH
  if inst > instanceH then
    stmt (.writeValue inst v)
    stmt (.loginstance inst v)
    stmt (.writeInstanceH inst)
    stmt .zeroNH
    stmt .ownNH
    stmt .zeroNA
    stmt .ownNA
    stmt (.writeVA "")
  else pure ()

def decidereq (arg : DecideArg) : Handler Answer := do
  let instanceH ← stmt .readInstanceH
  if arg.inst ≤ instanceH then pure (.decided false)
  else
    commitWo arg.inst arg.v
    pure (.decided true)

/-- The handler that a request is for. -/
def of : Body → Handler Answer
  | .prepare arg => preparereq arg
  | .accept arg => acceptreq arg
  | .decide arg => decidereq arg

/-! ## A handler in one piece -/

theorem exec_perform {α : Type} (h : Handler α) : ∀ (a : Acceptor) (l : List (UInt32 × String)),
    h.exec Acceptor.perform (a, l) =
      ((h.exec Acceptor.perform (a, [])).1, (h.exec Acceptor.perform (a, [])).2.1,
        (h.exec Acceptor.perform (a, [])).2.2 ++ l) := by
  induction h with
  | done x => exact fun _ _ => rfl
  | call c k ih =>
    intro a l
    rw [Prog.exec_call, Prog.exec_call]
    show (k (a.access c).1).exec Acceptor.perform ((a.access c).2, c.commits ++ l) = _
    rw [ih, show Acceptor.perform (a, []) c = ((a.access c).1, (a.access c).2, c.commits ++ []) from
      rfl, ih _ _ (c.commits ++ []), List.append_nil, List.append_assoc]

theorem exec_preparereq (a : Acceptor) (arg : PrepareArg) :
    (preparereq arg).exec Acceptor.perform (a, []) =
      (.prepared (a.preparereq arg).1, (a.preparereq arg).2, []) := by
  by_cases hold : arg.inst ≤ a.instanceH
  · simp [preparereq, Acceptor.perform, Acceptor.access, Access.commits, Acceptor.preparereq, hold]
  · cases hgt : arg.n.gt a.nH <;>
      simp [preparereq, Acceptor.perform, Acceptor.access, Access.commits, Acceptor.preparereq,
        hold, hgt]

theorem exec_acceptreq (a : Acceptor) (arg : AcceptArg) :
    (acceptreq arg).exec Acceptor.perform (a, []) =
      (.accepted (a.acceptreq arg).1, (a.acceptreq arg).2, []) := by
  by_cases hold : arg.inst ≤ a.instanceH
  · simp [acceptreq, Acceptor.perform, Acceptor.access, Access.commits, Acceptor.acceptreq, hold]
  · cases hge : arg.n.ge a.nH <;>
      simp [acceptreq, Acceptor.perform, Acceptor.access, Access.commits, Acceptor.acceptreq,
        hold, hge]

theorem exec_commitWo (a : Acceptor) (inst : UInt32) (v : String) :
    (commitWo inst v).exec Acceptor.perform (a, []) =
      ((), a.commitWo inst v, if inst > a.instanceH then [(inst, v)] else []) := by
  by_cases hnew : inst > a.instanceH <;>
    simp [commitWo, Prog.perform, Acceptor.perform, Acceptor.access, Access.commits,
      Acceptor.commitWo, Acceptor.loginstance, hnew]

theorem exec_decidereq (a : Acceptor) (arg : DecideArg) :
    (decidereq arg).exec Acceptor.perform (a, []) =
      (.decided (a.decidereq arg).1, (a.decidereq arg).2,
        if arg.inst ≤ a.instanceH then [] else [(arg.inst, arg.v)]) := by
  have hread : Acceptor.perform (a, []) .readInstanceH = (a.instanceH, a, []) := rfl
  rw [decidereq, Prog.perform_bind, Prog.exec_call, hread]
  by_cases hold : arg.inst ≤ a.instanceH
  · simp [Acceptor.decidereq, hold]
  · have hnew : arg.inst > a.instanceH := UInt32.not_le.mp hold
    simp [Acceptor.decidereq, hold, Prog.exec_bind, exec_commitWo, hnew]

/-- Alone in its acceptor, a handler does what it does in one piece. -/
theorem exec_of (a : Acceptor) (dst : String) (body : Body) :
    ∃ l, (Handler.of body).exec Acceptor.perform (a, []) =
        ((a.serve body).1, (a.serve body).2, l) ∧
      ∀ x ∈ l, (dst, x.1, x.2) ∈ World.committedBy dst body (a.serve body).1 := by
  cases body with
  | prepare arg => exact ⟨[], exec_preparereq a arg, fun _ hx => absurd hx List.not_mem_nil⟩
  | accept arg => exact ⟨[], exec_acceptreq a arg, fun _ hx => absurd hx List.not_mem_nil⟩
  | decide arg =>
    refine ⟨_, exec_decidereq a arg, fun x hx => ?_⟩
    split at hx
    · exact absurd hx List.not_mem_nil
    · rename_i hnew
      rw [List.mem_singleton.mp hx]
      simp [Acceptor.serve, Acceptor.decidereq, hnew, World.committedBy]

end Handler

/-! ## Threads -/

/-- The world with the threads inside its acceptors: the handlers at work in each of them, and
the `commit` of a proposer that has been told of a decided instance. -/
structure Threads where
  world : World
  handlers : String → List (Request × Handler Answer)
  committing : String → Option (Handler Unit)

/-- A step of a proposer, the start of the handler for the request at index `k`, the next statement
and the return of a handler, and those of a `commit`. -/
inductive ThreadAction
  | run (a : Action)
  | begin (k : Nat)
  | access (p : String) (j : Nat)
  | reply (p : String) (j : Nat)
  | commitAccess (p : String)
  | committed (p : String)
  deriving DecidableEq, Repr

namespace Threads

/-- A statement in the acceptor of `p`. -/
def perform (s : Threads) (p : String) (c : Access) : World :=
  { s.world.setAcceptor p ((s.world.acceptor p).access c).2 with
    commits := (c.commits.map fun x => (p, x.1, x.2)) ++ s.world.commits }

/-- The value in a reply that says that the instance is decided. -/
def oldValue : Answer → Option String
  | .prepared res => if res.oldinstance then some res.vA else none
  | _ => none

/-- A reply arrives.  If the instance is decided, the proposer goes into `commit`. -/
def receive (s : Threads) (p : String) (k : Nat) : Option Threads :=
  match (s.world.proposer p).run, s.world.replies[k]? with
  | some r, some reply =>
    if r.outstanding = some reply.request then
      let world := { s.world with replies := s.world.replies.eraseIdx k }
      match oldValue reply.answer with
      | some v => some
        { s with
          world := world
          committing := Function.update s.committing p (some (Handler.commitWo r.inst v)) }
      | none => some { s with world := world.answered p r reply.request reply.answer }
    else none
  | _, _ => none

/-- A step of a proposer, which does nothing else while it is in `commit`.  A call of `run` returns
at once then. -/
def propose (s : Threads) : Action → Option Threads
  | .start p inst nodes v => some { s with world := s.world.start p inst nodes v }
  | .send p =>
    if (s.committing p).isSome then none else (s.world.send p).map ({ s with world := · })
  | .skip p =>
    if (s.committing p).isSome then none else (s.world.skip p).map ({ s with world := · })
  | .giveUp p =>
    if (s.committing p).isSome then none else (s.world.giveUp p).map ({ s with world := · })
  | .finish p =>
    if (s.committing p).isSome then none else (s.world.finish p).map ({ s with world := · })
  | .receive p k => if (s.committing p).isSome then none else s.receive p k
  | .deliver _ => none

def step (s : Threads) : ThreadAction → Option Threads
  | .run a => s.propose a
  | .begin k =>
    s.world.requests[k]?.map fun req =>
      { s with
        world := { s.world with requests := s.world.requests.eraseIdx k }
        handlers := Function.update s.handlers req.dst
          (s.handlers req.dst ++ [(req, Handler.of req.body)]) }
  | .access p j =>
    match (s.handlers p)[j]? with
    | some (req, .call c k) => some
      { s with
        world := s.perform p c
        handlers := Function.update s.handlers p
          ((s.handlers p).set j (req, k ((s.world.acceptor p).access c).1)) }
    | _ => none
  | .reply p j =>
    match (s.handlers p)[j]? with
    | some (req, .done answer) => some
      { s with
        world := { s.world with
          replies := s.world.replies ++ [{ request := req, answer := answer }] }
        handlers := Function.update s.handlers p ((s.handlers p).eraseIdx j) }
    | _ => none
  | .commitAccess p =>
    match s.committing p with
    | some (.call c k) => some
      { s with
        world := s.perform p c
        committing := Function.update s.committing p
          (some (k ((s.world.acceptor p).access c).1)) }
    | _ => none
  | .committed p =>
    match s.committing p with
    | some (.done ()) => some
      { s with
        world := s.world.setRun p none
        committing := Function.update s.committing p none }
    | _ => none

/-- `run` is called for the instance and the nodes only. -/
def ForInstance (inst : UInt32) (nodes : List String) : ThreadAction → Prop
  | .run (.start _ i l _) => i = inst ∧ l = nodes
  | _ => True

instance (inst : UInt32) (nodes : List String) : DecidablePred (ForInstance inst nodes)
  | .run (.start _ i l _) => inferInstanceAs (Decidable (i = inst ∧ l = nodes))
  | .run (.send _) | .run (.skip _) | .run (.giveUp _) | .run (.deliver _) | .run (.receive _ _)
  | .run (.finish _) | .begin _ | .access _ _ | .reply _ _ | .commitAccess _ | .committed _ =>
    isTrue trivial

/-- No thread is inside an acceptor. -/
structure Starts (inst : UInt32) (s : Threads) : Prop where
  world : s.world.Starts inst
  handlers : ∀ p, s.handlers p = []
  committing : ∀ p, s.committing p = none

def system (inst : UInt32) (nodes : List String) : System Threads ThreadAction where
  init := Starts inst
  step s a := if ForInstance inst nodes a then s.step a else none

/-! ## The condition -/

/-- No thread is inside the acceptor of `p`. -/
def Free (s : Threads) (p : String) : Prop :=
  (s.handlers p).isEmpty = true ∧ (s.committing p).isNone = true

instance (s : Threads) (p : String) : Decidable (s.Free p) := inferInstanceAs (Decidable (_ ∧ _))

/-- What goes into an acceptor finds nobody in it. -/
def Alone (s : Threads) : ThreadAction → Prop
  | .run (.receive p k) =>
    ∀ reply ∈ s.world.replies[k]?, (oldValue reply.answer).isSome = true → s.Free p
  | .begin k => ∀ req ∈ s.world.requests[k]?, s.Free req.dst
  | _ => True

instance (s : Threads) : DecidablePred s.Alone
  | .run (.receive p k) => inferInstanceAs (Decidable
      (∀ reply ∈ s.world.replies[k]?, (oldValue reply.answer).isSome = true → s.Free p))
  | .begin k => inferInstanceAs (Decidable (∀ req ∈ s.world.requests[k]?, s.Free req.dst))
  | .run (.start _ _ _ _) | .run (.send _) | .run (.skip _) | .run (.giveUp _) | .run (.deliver _)
  | .run (.finish _) | .access _ _ | .reply _ _ | .commitAccess _ | .committed _ => isTrue trivial

/-- The values that are proposed are not empty, ballots do not wrap around, and no proposer drops a
value for a smaller ballot of the same number. -/
def Proposes (s : Threads) : ThreadAction → Prop
  | .run a => s.world.Regular a
  | _ => True

instance (s : Threads) : DecidablePred s.Proposes
  | .run a => inferInstanceAs (Decidable (s.world.Regular a))
  | .begin _ | .access _ _ | .reply _ _ | .commitAccess _ | .committed _ => isTrue trivial

def Regular (s : Threads) (a : ThreadAction) : Prop := s.Proposes a ∧ s.Alone a

instance (s : Threads) : DecidablePred s.Regular := fun _ => inferInstanceAs (Decidable (_ ∧ _))

/-! ## The world in which all threads are done -/

/-- The acceptor of `p` is as the thread inside it leaves it, if there is one, and the reply and the
decisions are there that the rest of the thread gives. -/
def Ahead (s : Threads) (w : World) (p : String) : Prop :=
  match s.handlers p, s.committing p with
  | [], none => w.acceptor p = s.world.acceptor p
  | [(req, h)], none => ∃ answer l,
    h.exec Acceptor.perform (s.world.acceptor p, []) = (answer, w.acceptor p, l) ∧
      { request := req, answer := answer } ∈ w.replies ∧ ∀ x ∈ l, (p, x.1, x.2) ∈ w.commits
  | [], some h => ∃ l,
    h.exec Acceptor.perform (s.world.acceptor p, []) = ((), w.acceptor p, l) ∧
      ∀ x ∈ l, (p, x.1, x.2) ∈ w.commits
  | _, _ => False

/-- In `w` every thread of `s` is done. -/
structure Done (s : Threads) (w : World) : Prop where
  requests : ∀ req ∈ s.world.requests, req ∈ w.requests
  replies : ∀ reply ∈ s.world.replies, reply ∈ w.replies
  commits : ∀ x ∈ s.world.commits, x ∈ w.commits
  nextId : w.nextId = s.world.nextId
  proposer : ∀ p, s.committing p = none → w.proposer p = s.world.proposer p
  stopped : ∀ p, (s.committing p).isSome = true → (s.world.proposer p).run.isSome = true ∧
    w.proposer p = { s.world.proposer p with run := none }
  acceptor : ∀ p, s.Ahead w p

variable {s t : Threads} {w w' : World} {p : String}

theorem Ahead.mono (h : s.Ahead w p) (hhandlers : t.handlers p = s.handlers p)
    (hcommitting : t.committing p = s.committing p)
    (hs : t.world.acceptor p = s.world.acceptor p) (hw : w'.acceptor p = w.acceptor p)
    (hreplies : ∀ reply ∈ w.replies, reply ∈ w'.replies)
    (hcommits : ∀ x ∈ w.commits, x ∈ w'.commits) : t.Ahead w' p := by
  unfold Ahead at h ⊢
  rw [hhandlers, hcommitting, hs, hw]
  split at h
  · exact h
  · obtain ⟨answer, l, hexec, hreply, hl⟩ := h
    exact ⟨answer, l, hexec, hreplies _ hreply, fun x hx => hcommits _ (hl x hx)⟩
  · obtain ⟨l, hexec, hl⟩ := h
    exact ⟨l, hexec, fun x hx => hcommits _ (hl x hx)⟩
  · exact h

theorem Ahead.of_getElem (h : s.Ahead w p) {j : Nat} {x : Request × Handler Answer}
    (hx : (s.handlers p)[j]? = some x) :
    s.handlers p = [x] ∧ j = 0 ∧ s.committing p = none := by
  unfold Ahead at h
  split at h
  · rename_i hnil _
    rw [hnil] at hx
    cases hx
  · rename_i req f hone hnone
    rw [hone] at hx
    cases j with
    | zero => exact ⟨hone.trans (congrArg (fun y => [y]) (Option.some.inj hx)), rfl, hnone⟩
    | succ j => cases hx
  · rename_i hnil _
    rw [hnil] at hx
    cases hx
  · exact h.elim

theorem ahead_of_free (hhandlers : s.handlers p = []) (hcommitting : s.committing p = none) :
    s.Ahead w p ↔ w.acceptor p = s.world.acceptor p := by
  unfold Ahead
  rw [hhandlers, hcommitting]

theorem ahead_of_handler (req : Request) (h : Handler Answer)
    (hhandlers : s.handlers p = [(req, h)]) (hcommitting : s.committing p = none) :
    s.Ahead w p ↔ ∃ answer l,
      h.exec Acceptor.perform (s.world.acceptor p, []) = (answer, w.acceptor p, l) ∧
        { request := req, answer := answer } ∈ w.replies ∧
        ∀ x ∈ l, (p, x.1, x.2) ∈ w.commits := by
  unfold Ahead
  rw [hhandlers, hcommitting]

theorem ahead_of_commit {h : Handler Unit} (hcommitting : s.committing p = some h) :
    s.Ahead w p ↔ s.handlers p = [] ∧ ∃ l,
      h.exec Acceptor.perform (s.world.acceptor p, []) = ((), w.acceptor p, l) ∧
        ∀ x ∈ l, (p, x.1, x.2) ∈ w.commits := by
  unfold Ahead
  rw [hcommitting]
  cases s.handlers p <;> simp

theorem Free.handlers_eq (h : s.Free p) : s.handlers p = [] := List.isEmpty_iff.mp h.1

theorem Free.committing_eq (h : s.Free p) : s.committing p = none :=
  Option.isNone_iff_eq_none.mp h.2

/-! ## Proposers -/

section

variable {inst : UInt32} {nodes : List String} {g : Ghost}

/-- Nothing has changed at node `q`. -/
structure Same (s t : Threads) (w w' : World) (q : String) : Prop where
  handlers : t.handlers q = s.handlers q
  committing : t.committing q = s.committing q
  acceptor : t.world.acceptor q = s.world.acceptor q
  proposer : t.world.proposer q = s.world.proposer q
  acceptor' : w'.acceptor q = w.acceptor q
  proposer' : w'.proposer q = w.proposer q

theorem Done.of_node (h : Done s w) (p : String) (hothers : ∀ q, q ≠ p → Same s t w w' q)
    (hkept : ∀ reply ∈ w.replies, reply ∈ w'.replies) (hkept' : ∀ x ∈ w.commits, x ∈ w'.commits)
    (hrequests : ∀ req ∈ t.world.requests, req ∈ w'.requests)
    (hreplies : ∀ reply ∈ t.world.replies, reply ∈ w'.replies)
    (hcommits : ∀ x ∈ t.world.commits, x ∈ w'.commits) (hid : w'.nextId = t.world.nextId)
    (hproposer : t.committing p = none → w'.proposer p = t.world.proposer p)
    (hstopped : (t.committing p).isSome = true → (t.world.proposer p).run.isSome = true ∧
      w'.proposer p = { t.world.proposer p with run := none })
    (hacceptor : t.Ahead w' p) : Done t w' where
  requests := hrequests
  replies := hreplies
  commits := hcommits
  nextId := hid
  proposer q hq := by
    by_cases hqp : q = p
    · exact hqp ▸ hproposer (hqp ▸ hq)
    · have hsame := hothers q hqp
      rw [hsame.proposer', hsame.proposer]
      exact h.proposer q (hsame.committing ▸ hq)
  stopped q hq := by
    by_cases hqp : q = p
    · exact hqp ▸ hstopped (hqp ▸ hq)
    · have hsame := hothers q hqp
      rw [hsame.proposer', hsame.proposer]
      exact h.stopped q (hsame.committing ▸ hq)
  acceptor q := by
    by_cases hqp : q = p
    · exact hqp ▸ hacceptor
    · have hsame := hothers q hqp
      exact (h.acceptor q).mono hsame.handlers hsame.committing hsame.acceptor hsame.acceptor' hkept
        hkept'

/-- A step of a proposer that is not in `commit`, in both worlds. -/
theorem Done.propose (h : Done s w) (hp : s.committing p = none) {v : World}
    (hv : v.acceptor = s.world.acceptor) (hw : w'.acceptor = w.acceptor)
    (hothers : ∀ q, q ≠ p → v.proposer q = s.world.proposer q ∧ w'.proposer q = w.proposer q)
    (hsame : w'.proposer p = v.proposer p)
    (hrequests : ∀ req ∈ v.requests, req ∈ w'.requests)
    (hreplies : v.replies = s.world.replies) (hkept : w'.replies = w.replies)
    (hcommits : v.commits = s.world.commits) (hkept' : w'.commits = w.commits)
    (hid : w'.nextId = v.nextId) : Done { s with world := v } w' := by
  refine h.of_node p (fun q hq => ⟨rfl, rfl, congrFun hv q, (hothers q hq).1, congrFun hw q,
    (hothers q hq).2⟩) (fun _ hr => hkept ▸ hr) (fun _ hx => hkept' ▸ hx) hrequests
    (fun reply hr => ?_) (fun x hx => ?_) hid (fun _ => hsame) (fun hsome => ?_) ?_
  · exact hkept ▸ h.replies reply (hreplies ▸ hr)
  · exact hkept' ▸ h.commits x (hcommits ▸ hx)
  · rw [show s.committing p = none from hp] at hsome
    cases hsome
  · exact (h.acceptor p).mono rfl rfl (congrFun hv p) (congrFun hw p) (fun _ hr => hkept ▸ hr)
      fun _ hx => hkept' ▸ hx

theorem Done.setRun (h : Done s w) (hp : s.committing p = none) (run : Option Run) :
    Done { s with world := s.world.setRun p run } (w.setRun p run) := by
  refine h.propose hp rfl rfl (fun q hq => ?_) ?_ h.requests rfl rfl rfl rfl h.nextId
  · exact ⟨s.world.setRun_proposer_ne run hq, w.setRun_proposer_ne run hq⟩
  · show Function.update w.proposer p _ p = Function.update s.world.proposer p _ p
    rw [Function.update_self, Function.update_self, h.proposer p hp]

theorem Done.sent (h : Done s w) (hp : s.committing p = none) (r : Run) (dst : String) :
    Done { s with world := s.world.sent p r dst } (w.sent p r dst) := by
  refine h.propose hp rfl rfl (fun q hq => ?_) ?_ (fun req hmem => ?_) rfl rfl rfl rfl
    (congrArg (· + 1) h.nextId)
  · exact ⟨s.world.setRun_proposer_ne _ hq, w.setRun_proposer_ne _ hq⟩
  · simp only [World.sent, World.setRun, Function.update_self, h.nextId, h.proposer p hp]
  · simp only [World.sent, h.nextId, h.proposer p hp, List.mem_append] at hmem ⊢
    exact hmem.imp_left (h.requests req)

theorem Done.start (h : Done s w) (hinv : Inv inst nodes w g) {v : String}
    (hok : s.world.Regular (.start p inst nodes v)) :
    ∃ w', Done { s with world := s.world.start p inst nodes v } w' ∧ Inv inst nodes w' g := by
  cases hrun : (s.world.proposer p).run with
  | some r =>
    have hsame : s.world.start p inst nodes v = s.world := by simp only [World.start, hrun]
    rw [hsame]
    exact ⟨w, h, hinv⟩
  | none =>
    have hp : s.committing p = none := by
      rw [← Option.not_isSome_iff_eq_none]
      intro hsome
      have hstopped := (h.stopped p hsome).1
      rw [hrun] at hstopped
      cases hstopped
    obtain ⟨hv, hwrap⟩ := hok hrun
    -- The number comes from the acceptor as it is, not from the one in which all is done.
    have hgt := setn_gt (s.world.acceptor p).nH.n hwrap
    generalize hn : setn (s.world.acceptor p).nH.n (s.world.proposer p).myN.n = n at hgt
    have hstart : s.world.start p inst nodes v = { s.world with
        proposer := Function.update s.world.proposer p
          { myN := { n := n, m := p }, run := some (.start inst nodes v) }
        calls := (inst, v) :: s.world.calls } := by
      simp only [World.start, hrun, hn]
    rw [hstart]
    let proposer : Proposer := { myN := { n := n, m := p }, run := some (.start inst nodes v) }
    refine ⟨{ w with proposer := Function.update w.proposer p proposer }, ?_, ?_⟩
    · refine h.propose hp rfl rfl (fun q hq => ?_) ?_ h.requests rfl rfl rfl rfl h.nextId
      · exact ⟨Function.update_of_ne hq _ _, Function.update_of_ne hq _ _⟩
      · show Function.update w.proposer p _ p = Function.update s.world.proposer p _ p
        rw [Function.update_self, Function.update_self]
    · rw [← h.proposer p hp] at hgt
      exact hinv.start hv hgt rfl rfl rfl rfl rfl

theorem Done.answered (h : Done s w) (hp : s.committing p = none) (k : Nat) (r : Run)
    (req : Request) {answer : Answer} (hnew : oldValue answer = none) :
    Done { s with
      world := { s.world with replies := s.world.replies.eraseIdx k }.answered p r req answer }
      (w.answered p r req answer) := by
  have hdrop : Done { s with world := { s.world with replies := s.world.replies.eraseIdx k } } w :=
    { h with replies := fun reply hr => h.replies reply (List.mem_of_mem_eraseIdx hr) }
  cases answer with
  | prepared res =>
    have hold : ¬ res.oldinstance = true := fun hold => by
      rw [oldValue, if_pos hold] at hnew
      cases hnew
    simp only [World.answered, if_neg hold]
    split
    · exact hdrop.setRun hp _
    · exact hdrop.setRun hp _
  | accepted ok => exact hdrop.setRun hp _
  | decided ok => exact hdrop.setRun hp _

theorem oldValue_eq_some {answer : Answer} {v : String} (h : oldValue answer = some v) :
    ∃ res, answer = .prepared res ∧ res.oldinstance = true ∧ res.vA = v := by
  unfold oldValue at h
  split at h
  · rename_i res
    obtain ⟨hold, hv⟩ := Option.ite_none_right_eq_some.mp h
    exact ⟨res, rfl, hold, Option.some.inj hv⟩
  · cases h

theorem Done.commit (h : Done s w) (hfree : s.Free p) (k : Nat) {r : Run}
    (hrun : (s.world.proposer p).run = some r) (v : String) :
    Done { s with
      world := { s.world with replies := s.world.replies.eraseIdx k }
      committing := Function.update s.committing p (some (Handler.commitWo r.inst v)) }
      ((w.commit p r.inst v).setRun p none) := by
  have hp := hfree.committing_eq
  have hacc := (ahead_of_free hfree.handlers_eq hp).mp (h.acceptor p)
  have hcommits : ∀ x ∈ w.commits, x ∈ (w.commit p r.inst v).commits := by
    intro x hx
    show x ∈ if _ then _ else _
    split
    · exact List.mem_cons_of_mem _ hx
    · exact hx
  refine h.of_node p (fun q hq => ⟨rfl, Function.update_of_ne hq _ _, rfl, rfl,
    Function.update_of_ne hq _ _, World.setRun_proposer_ne _ _ hq⟩) (fun _ hr => hr) hcommits
    h.requests (fun reply hr => h.replies reply (List.mem_of_mem_eraseIdx hr))
    (fun x hx => hcommits x (h.commits x hx)) h.nextId (fun hnone => ?_) (fun _ => ⟨?_, ?_⟩) ?_
  · replace hnone : Function.update s.committing p (some _) p = none := hnone
    rw [Function.update_self] at hnone
    cases hnone
  · show (s.world.proposer p).run.isSome = true
    rw [hrun]
    rfl
  · show Function.update w.proposer p { w.proposer p with run := none } p = _
    rw [Function.update_self, h.proposer p hp]
  · refine (ahead_of_commit (Function.update_self ..)).mpr ⟨hfree.handlers_eq,
      if r.inst > (s.world.acceptor p).instanceH then [(r.inst, v)] else [], ?_, fun x hx => ?_⟩
    · show (Handler.commitWo r.inst v).exec Acceptor.perform (s.world.acceptor p, []) =
        ((), Function.update w.acceptor p ((w.acceptor p).commitWo r.inst v) p, _)
      rw [Function.update_self, hacc]
      exact Handler.exec_commitWo _ _ _
    · show _ ∈ if r.inst > (w.acceptor p).instanceH then _ else _
      rw [hacc]
      split at hx
      · rename_i hnew
        rw [if_pos hnew, List.mem_singleton.mp hx]
        exact List.mem_cons_self
      · exact absurd hx List.not_mem_nil

theorem Done.receive (h : Done s w) (hinv : Inv inst nodes w g) {k : Nat}
    (hp : s.committing p = none) (hok : s.Regular (.run (.receive p k)))
    (hs : s.receive p k = some t) : ∃ w', Done t w' ∧ Inv inst nodes w' g := by
  unfold Threads.receive at hs
  split at hs
  · rename_i r reply hrun hreply
    obtain ⟨hout, hs⟩ := Option.ite_none_right_eq_some.mp hs
    have hrun' : (w.proposer p).run = some r := by rw [h.proposer p hp, hrun]
    have hanswer := hinv.answered hrun' ((hinv.run p r hrun').outstanding _ hout)
      (hinv.reply reply (h.replies reply (List.mem_of_getElem? hreply))) fun res hres =>
        hok.1 r hrun reply hreply res hres
    cases hold : oldValue reply.answer with
    | none =>
      simp only [hold] at hs
      cases hs
      exact ⟨_, h.answered hp k r reply.request hold, hanswer⟩
    | some v =>
      simp only [hold] at hs
      cases hs
      obtain ⟨res, hprepared, holdinst, rfl⟩ := oldValue_eq_some hold
      refine ⟨_, h.commit (hok.2 reply hreply (by rw [hold]; rfl)) k hrun res.vA, ?_⟩
      rw [hprepared] at hanswer
      simpa only [World.answered, if_pos holdinst] using hanswer
  · cases hs

theorem send_eq_some {w v : World} (h : w.send p = some v) : ∃ r dst,
    (w.proposer p).run = some r ∧ v = w.sent p r dst := by
  unfold World.send at h
  split at h
  · rename_i r hr
    split at h
    · cases h
      exact ⟨r, _, hr, rfl⟩
    · cases h
  · cases h

theorem skip_eq_some {w v : World} (h : w.skip p = some v) : ∃ r,
    (w.proposer p).run = some r ∧ v = w.setRun p (some r.advance) := by
  unfold World.skip at h
  split at h
  · rename_i r hr
    split at h
    · cases h
      exact ⟨r, hr, rfl⟩
    · cases h
  · cases h

theorem giveUp_eq_some {w v : World} (h : w.giveUp p = some v) : ∃ r,
    (w.proposer p).run = some r ∧ v = w.setRun p (some r.advance) := by
  unfold World.giveUp at h
  split at h
  · rename_i r hr
    obtain ⟨-, ⟨⟩⟩ := Option.ite_none_right_eq_some.mp h
    exact ⟨r, hr, rfl⟩
  · cases h

theorem finish_eq_some {w v : World} (h : w.finish p = some v) : ∃ r,
    (w.proposer p).run = some r ∧ r.outstanding = none ∧ v = w.setRun p r.finish := by
  unfold World.finish at h
  split at h
  · rename_i r hr
    split at h
    · rename_i hout _
      cases h
      exact ⟨r, hr, hout, rfl⟩
    · cases h
  · cases h

/-- A step that is not taken in `commit`. -/
theorem guarded_eq_some {x : Option World}
    (hs : (if (s.committing p).isSome then none else x.map ({ s with world := · })) = some t) :
    s.committing p = none ∧ ∃ v, x = some v ∧ t = { s with world := v } := by
  obtain ⟨hp, hs⟩ := Option.ite_none_left_eq_some.mp hs
  obtain ⟨v, hv, rfl⟩ := Option.map_eq_some_iff.mp hs
  exact ⟨Option.not_isSome_iff_eq_none.mp hp, v, hv, rfl⟩

theorem Done.run (h : Done s w) (hinv : Inv inst nodes w g) {a : Action}
    (hfor : ForInstance inst nodes (.run a)) (hok : s.Regular (.run a))
    (hs : s.propose a = some t) : ∃ w' g', Done t w' ∧ Inv inst nodes w' g' := by
  have hrun : ∀ {p : String} {r : Run}, s.committing p = none →
      (s.world.proposer p).run = some r → (w.proposer p).run = some r := by
    intro p r hp hr
    rw [h.proposer p hp, hr]
  cases a with
  | start p i l v =>
    cases hs
    obtain ⟨rfl, rfl⟩ := hfor
    obtain ⟨w', hdone, hinv'⟩ := h.start hinv hok.1
    exact ⟨w', g, hdone, hinv'⟩
  | send p =>
    obtain ⟨hp, v, hv, rfl⟩ := guarded_eq_some hs
    obtain ⟨r, dst, hr, rfl⟩ := send_eq_some hv
    exact ⟨_, g, h.sent hp r dst, hinv.sent (hrun hp hr) dst⟩
  | skip p =>
    obtain ⟨hp, v, hv, rfl⟩ := guarded_eq_some hs
    obtain ⟨r, hr, rfl⟩ := skip_eq_some hv
    exact ⟨_, g, h.setRun hp _, hinv.advance (hrun hp hr)⟩
  | giveUp p =>
    obtain ⟨hp, v, hv, rfl⟩ := guarded_eq_some hs
    obtain ⟨r, hr, rfl⟩ := giveUp_eq_some hv
    exact ⟨_, g, h.setRun hp _, hinv.advance (hrun hp hr)⟩
  | finish p =>
    obtain ⟨hp, v, hv, rfl⟩ := guarded_eq_some hs
    obtain ⟨r, hr, hout, rfl⟩ := finish_eq_some hv
    obtain ⟨g', hinv'⟩ := hinv.finish (hrun hp hr) hout
    exact ⟨_, g', h.setRun hp _, hinv'⟩
  | receive p k =>
    obtain ⟨hp, hs⟩ := Option.ite_none_left_eq_some.mp hs
    obtain ⟨w', hdone, hinv'⟩ := h.receive hinv (Option.not_isSome_iff_eq_none.mp hp) hok hs
    exact ⟨w', g, hdone, hinv'⟩
  | deliver k => cases hs

/-! ## Threads in an acceptor -/

theorem Done.begin (h : Done s w) (hinv : Inv inst nodes w g) {k : Nat}
    (hok : s.Regular (.begin k)) (hs : s.step (.begin k) = some t) :
    ∃ w' g', Done t w' ∧ Inv inst nodes w' g' := by
  obtain ⟨req, hreq, ht⟩ := Option.map_eq_some_iff.mp hs
  have hfree := hok.2 req hreq
  have hp := hfree.committing_eq
  have hacc := (ahead_of_free hfree.handlers_eq hp).mp (h.acceptor req.dst)
  have hone : t.handlers req.dst = [(req, Handler.of req.body)] := by
    rw [← ht]
    show Function.update s.handlers req.dst _ req.dst = _
    rw [Function.update_self, hfree.handlers_eq]
    rfl
  subst ht
  -- The request stays in the other world, whose requests end before this index.
  obtain ⟨g', hinv'⟩ := hinv.delivered w.requests.length
    (h.requests req (List.mem_of_getElem? hreq))
  refine ⟨w.delivered w.requests.length req, g', ?_, hinv'⟩
  refine h.of_node req.dst (fun q hq => ⟨Function.update_of_ne hq _ _, rfl, rfl, rfl,
    Function.update_of_ne hq _ _, rfl⟩) (fun _ hr => List.mem_append_left _ hr)
    (fun _ hx => List.mem_append_right _ hx) (fun req' hr => ?_)
    (fun reply hr => List.mem_append_left _ (h.replies reply hr))
    (fun x hx => List.mem_append_right _ (h.commits x hx)) h.nextId
    (fun _ => h.proposer req.dst hp) (fun hsome => ?_) ?_
  · show req' ∈ w.requests.eraseIdx w.requests.length
    rw [List.eraseIdx_of_length_le (Nat.le_refl _)]
    exact h.requests req' (List.mem_of_mem_eraseIdx hr)
  · rw [show s.committing req.dst = none from hp] at hsome
    cases hsome
  · obtain ⟨l, hexec, hl⟩ := Handler.exec_of (s.world.acceptor req.dst) req.dst req.body
    refine (ahead_of_handler _ _ hone hp).mpr
      ⟨((s.world.acceptor req.dst).serve req.body).1, l, ?_, ?_, fun x hx => ?_⟩
    · show (Handler.of req.body).exec Acceptor.perform (s.world.acceptor req.dst, []) =
        (_, Function.update w.acceptor req.dst ((w.acceptor req.dst).serve req.body).2 req.dst, l)
      rw [Function.update_self, hacc]
      exact hexec
    · refine List.mem_append_right _ (List.mem_singleton.mpr ?_)
      rw [hacc]
      rfl
    · refine List.mem_append_left _ ?_
      rw [hacc]
      exact hl x hx

theorem exec_call_eq {α : Type} {a b : Acceptor} {c : Access} {k : c.Result → Handler α} {x : α}
    {l : List (UInt32 × String)}
    (h : (Prog.call c k).exec Acceptor.perform (a, []) = (x, b, l)) :
    ∃ l', (k (a.access c).1).exec Acceptor.perform ((a.access c).2, []) = (x, b, l') ∧
      l = l' ++ c.commits := by
  rw [Prog.exec_call] at h
  replace h : (k (a.access c).1).exec Acceptor.perform ((a.access c).2, c.commits ++ []) =
    (x, b, l) := h
  rw [List.append_nil, Handler.exec_perform] at h
  obtain ⟨hx, hb, hl⟩ : _ ∧ _ ∧ _ := by simpa only [Prod.mk.injEq] using h
  exact ⟨_, Prod.ext hx (Prod.ext hb rfl), hl.symm⟩

/-- A thread takes its next statement.  In the other world it has been taken. -/
theorem Done.perform (h : Done s w) {c : Access} (hworld : t.world = s.perform p c)
    (hothers : ∀ q, q ≠ p → t.handlers q = s.handlers q ∧ t.committing q = s.committing q)
    (hsome : (t.committing p).isSome = (s.committing p).isSome)
    (hcommits : ∀ x ∈ c.commits, (p, x.1, x.2) ∈ w.commits) (hacceptor : t.Ahead w p) :
    Done t w := by
  obtain ⟨_, handlers, committing⟩ := t
  cases hworld
  refine h.of_node p (fun q hq => ⟨(hothers q hq).1, (hothers q hq).2,
    Function.update_of_ne hq _ _, rfl, rfl, rfl⟩) (fun _ hr => hr) (fun _ hx => hx) h.requests
    h.replies (fun x hx => ?_) h.nextId (fun hnone => ?_) (fun hisSome => ?_) hacceptor
  · rcases List.mem_append.mp hx with hnew | hold
    · obtain ⟨y, hy, rfl⟩ := List.mem_map.mp hnew
      exact hcommits y hy
    · exact h.commits x hold
  · refine h.proposer p (Option.not_isSome_iff_eq_none.mp ?_)
    rw [← hsome, hnone]
    exact Bool.false_ne_true
  · exact h.stopped p (hsome ▸ hisSome)

theorem Done.access (h : Done s w) {j : Nat} (hs : s.step (.access p j) = some t) : Done t w := by
  simp only [Threads.step] at hs
  split at hs <;> cases hs
  rename_i req c k hj
  obtain ⟨hone, rfl, hp⟩ := (h.acceptor p).of_getElem hj
  obtain ⟨answer, l, hexec, hreply, hl⟩ := (ahead_of_handler _ _ hone hp).mp (h.acceptor p)
  obtain ⟨l', hexec', rfl⟩ := exec_call_eq hexec
  refine h.perform rfl (fun q hq => ⟨Function.update_of_ne hq _ _, rfl⟩) rfl
    (fun x hx => hl x (List.mem_append_right _ hx)) ?_
  refine (ahead_of_handler req (k ((s.world.acceptor p).access c).1) ?_ ?_).mpr
    ⟨answer, l', ?_, hreply, fun x hx => hl x (List.mem_append_left _ hx)⟩
  · show Function.update s.handlers p _ p = _
    rw [Function.update_self, hone]
    rfl
  · exact hp
  · show (k ((s.world.acceptor p).access c).1).exec Acceptor.perform
      (Function.update s.world.acceptor p _ p, []) = _
    rw [Function.update_self]
    exact hexec'

theorem Done.commitAccess (h : Done s w) (hs : s.step (.commitAccess p) = some t) : Done t w := by
  simp only [Threads.step] at hs
  split at hs <;> cases hs
  rename_i c k hp
  obtain ⟨hnil, l, hexec, hl⟩ := (ahead_of_commit hp).mp (h.acceptor p)
  obtain ⟨l', hexec', rfl⟩ := exec_call_eq hexec
  refine h.perform rfl (fun q hq => ⟨rfl, Function.update_of_ne hq _ _⟩) ?_
    (fun x hx => hl x (List.mem_append_right _ hx)) ?_
  · show (Function.update s.committing p _ p).isSome = _
    rw [Function.update_self, hp]
    rfl
  · refine (ahead_of_commit (Function.update_self ..)).mpr
      ⟨hnil, l', ?_, fun x hx => hl x (List.mem_append_left _ hx)⟩
    show (k ((s.world.acceptor p).access c).1).exec Acceptor.perform
      (Function.update s.world.acceptor p _ p, []) = _
    rw [Function.update_self]
    exact hexec'

/-- A handler returns.  Its reply is in the other world since it began. -/
theorem Done.reply (h : Done s w) {j : Nat} (hs : s.step (.reply p j) = some t) : Done t w := by
  simp only [Threads.step] at hs
  split at hs <;> cases hs
  rename_i req answer hj
  obtain ⟨hone, rfl, hp⟩ := (h.acceptor p).of_getElem hj
  obtain ⟨answer', l, hexec, hreply, hl⟩ := (ahead_of_handler _ _ hone hp).mp (h.acceptor p)
  obtain ⟨rfl, hacc, -⟩ : answer = answer' ∧ s.world.acceptor p = w.acceptor p ∧ [] = l := by
    simpa only [Prog.exec_done, Prod.mk.injEq] using hexec
  refine h.of_node p (fun q hq => ⟨Function.update_of_ne hq _ _, rfl, rfl, rfl, rfl, rfl⟩)
    (fun _ hr => hr) (fun _ hx => hx) h.requests (fun reply hr => ?_) h.commits h.nextId
    (fun _ => h.proposer p hp) (h.stopped p) ((ahead_of_free ?_ ?_).mpr hacc.symm)
  · rcases List.mem_append.mp hr with hold | hnew
    · exact h.replies reply hold
    · exact List.mem_singleton.mp hnew ▸ hreply
  · show Function.update s.handlers p _ p = _
    rw [Function.update_self, hone]
    rfl
  · exact hp

theorem Done.committed (h : Done s w) (hs : s.step (.committed p) = some t) : Done t w := by
  simp only [Threads.step] at hs
  split at hs <;> cases hs
  rename_i hp
  obtain ⟨hnil, l, hexec, hl⟩ := (ahead_of_commit hp).mp (h.acceptor p)
  obtain ⟨-, hacc, -⟩ : () = () ∧ s.world.acceptor p = w.acceptor p ∧ [] = l := by
    simpa only [Prog.exec_done, Prod.mk.injEq] using hexec
  refine h.of_node p (fun q hq => ⟨rfl, Function.update_of_ne hq _ _, rfl,
    s.world.setRun_proposer_ne _ hq, rfl, rfl⟩) (fun _ hr => hr) (fun _ hx => hx) h.requests
    h.replies h.commits h.nextId (fun _ => ?_) (fun hsome => ?_)
    ((ahead_of_free ?_ ?_).mpr hacc.symm)
  · show _ = Function.update s.world.proposer p _ p
    rw [Function.update_self]
    exact (h.stopped p (by rw [hp]; rfl)).2
  · replace hsome : (Function.update s.committing p none p).isSome = true := hsome
    rw [Function.update_self] at hsome
    cases hsome
  · exact hnil
  · exact Function.update_self ..

theorem Done.of_starts (h : s.Starts inst) : Done s s.world where
  requests := fun _ hr => hr
  replies := fun _ hr => hr
  commits := fun _ hx => hx
  nextId := rfl
  proposer := fun _ _ => rfl
  stopped p hp := by
    rw [h.committing p] at hp
    cases hp
  acceptor p := (ahead_of_free (h.handlers p) (h.committing p)).mpr rfl

theorem Done.step (h : Done s w) (hinv : Inv inst nodes w g) {a : ThreadAction}
    (hfor : ForInstance inst nodes a) (hok : s.Regular a) (hs : s.step a = some t) :
    ∃ w' g', Done t w' ∧ Inv inst nodes w' g' := by
  cases a with
  | run a => exact h.run hinv hfor hok hs
  | begin k => exact h.begin hinv hok hs
  | access p j => exact ⟨w, g, h.access hs, hinv⟩
  | reply p j => exact ⟨w, g, h.reply hs, hinv⟩
  | commitAccess p => exact ⟨w, g, h.commitAccess hs, hinv⟩
  | committed p => exact ⟨w, g, h.committed hs, hinv⟩

end

/-! ## Agreement -/

/-- All that commit the instance commit the same value, in every run in which each thread is alone
in its acceptor, no proposer drops a value for one of a smaller ballot, no ballot is used twice and
no empty value is proposed. -/
theorem agreement {inst : UInt32} {nodes : List String}
    (h : (system inst nodes).ReachableWhile Regular s) : s.world.Agreement inst := by
  obtain ⟨w, g, hdone, hinv⟩ : ∃ w g, Done s w ∧ Inv inst nodes w g := by
    refine h.invariant (P := fun s => ∃ w g, Done s w ∧ Inv inst nodes w g) (fun s hs => ?_) ?_
    · exact ⟨s.world, _, .of_starts hs, .of_starts hs.world⟩
    · intro s a t ⟨w, g, hdone, hinv⟩ hok hs
      obtain ⟨hfor, hs⟩ := Option.ite_none_right_eq_some.mp hs
      exact hdone.step hinv hfor hok hs
  intro p q v u hv hu
  obtain ⟨b, hb⟩ := hinv.commits p v (hdone.commits _ hv)
  obtain ⟨c, hc⟩ := hinv.commits q u (hdone.commits _ hu)
  exact hb.agree (fun _ _ hQ hR => hQ.meet hR) hinv.ghost.vote hinv.ghost.safe hc

/-- Every node has booted, and no thread is at work. -/
def booted (boot : String) : Threads where
  world := World.booted boot
  handlers := fun _ => []
  committing := fun _ => none

theorem starts_booted (boot : String) : (booted boot).Starts 2 where
  world := ⟨fun _ => ⟨rfl, by decide, rfl, rfl, rfl⟩, fun _ => rfl, rfl, rfl, rfl⟩
  handlers := fun _ => rfl
  committing := fun _ => rfl

/-- A call of `p` at `dst`, whose handler takes `n` statements. -/
def roundTrip (p dst : String) (n : Nat) : List ThreadAction :=
  [.run (.send p), .begin 0] ++ .replicate n (.access dst 0) ++
    [.reply dst 0, .run (.receive p 0)]

/-- The first proposer gets its value accepted at its own node only.  The second one finds it there,
takes it over and decides it. -/
def takenOver : List ThreadAction :=
  .flatten [[.run (.start "a" 2 ["a", "b", "c"] "x")], roundTrip "a" "a" 6, roundTrip "a" "b" 6,
    [.run (.skip "a"), .run (.finish "a")], roundTrip "a" "a" 6,
    [.run (.skip "a"), .run (.finish "a")], [.run (.start "b" 2 ["a", "b", "c"] "y")],
    roundTrip "b" "a" 6, roundTrip "b" "b" 6, [.run (.skip "b"), .run (.finish "b")],
    roundTrip "b" "a" 6, roundTrip "b" "b" 6, [.run (.finish "b")], roundTrip "b" "a" 10,
    roundTrip "b" "b" 10]

theorem agreement_takenOver :
    ∃ s, (system 2 ["a", "b", "c"]).ReachableWhile Regular s ∧
      s.world.commits = [("b", 2, "x"), ("a", 2, "x")] ∧ s.world.Agreement 2 := by
  have hreach : (system 2 ["a", "b", "c"]).ReachableWhile Regular
      ((system 2 ["a", "b", "c"]).final (booted "boot") takenOver) :=
    System.ReachableWhile.final takenOver (.init (starts_booted "boot")) (by decide +kernel)
      (by decide +kernel)
  refine ⟨_, hreach, ?_, agreement hreach⟩
  decide +kernel

theorem not_agreement {w : World} (h : w.commits = [("a", 2, "x"), ("c", 2, "y")]) :
    ¬ w.Agreement 2 := by
  intro hagree
  have hsame : "x" = "y" := by
    refine hagree "a" "c" "x" "y" ?_ ?_
    · rw [h]
      exact List.mem_cons_self
    · rw [h]
      exact List.mem_cons_of_mem _ List.mem_cons_self
  exact absurd hsame (by decide)

/-- Two proposers choose ballots of the same number.  The value of the larger ballot is decided at
`c`.  The first proposer then sees both values and keeps the one of the smaller ballot, because it
saw it first. -/
def sameNumber : List ThreadAction :=
  .flatten [[.run (.start "a" 2 ["a", "b", "c"] "x"), .run (.start "b" 2 ["a", "b", "c"] "y")],
    roundTrip "a" "a" 6, roundTrip "a" "b" 6, [.run (.skip "a"), .run (.finish "a")],
    roundTrip "a" "a" 6, [.run (.skip "a"), .run (.finish "a")], [.run (.skip "b")],
    roundTrip "b" "b" 6, roundTrip "b" "c" 6, [.run (.finish "b")], roundTrip "b" "b" 6,
    roundTrip "b" "c" 6, [.run (.finish "b"), .run (.skip "b")], roundTrip "b" "c" 10,
    [.run (.finish "b"), .run (.start "a" 2 ["a", "b", "c"] "x")], roundTrip "a" "a" 6,
    roundTrip "a" "b" 6, [.run (.skip "a"), .run (.finish "a")], roundTrip "a" "a" 6,
    roundTrip "a" "b" 6, [.run (.finish "a")], roundTrip "a" "a" 10]

theorem sameNumber_not_agreement :
    ∃ s, (system 2 ["a", "b", "c"]).ReachableWhile Alone s ∧
      s.world.commits = [("a", 2, "x"), ("c", 2, "y")] ∧ ¬ s.world.Agreement 2 := by
  have hreach : (system 2 ["a", "b", "c"]).ReachableWhile Alone
      ((system 2 ["a", "b", "c"]).final (booted "boot") sameNumber) :=
    System.ReachableWhile.final sameNumber (.init (starts_booted "boot")) (by decide +kernel)
      (by decide +kernel)
  have hcommits : ((system 2 ["a", "b", "c"]).final (booted "boot") sameNumber).world.commits =
      [("a", 2, "x"), ("c", 2, "y")] := by decide +kernel
  exact ⟨_, hreach, hcommits, not_agreement hcommits⟩

/-- The handler for the first proposer's value is held up at `b` after it has compared the ballots.
Meanwhile the second proposer gets its value accepted at `b` and `c` and decides it.  The first
handler goes on, and its reply is the first proposer's majority. -/
def overlap : List ThreadAction :=
  .flatten [[.run (.start "a" 2 ["a", "b", "c"] "x")], roundTrip "a" "a" 6, roundTrip "a" "b" 6,
    [.run (.skip "a"), .run (.finish "a")], roundTrip "a" "a" 6,
    [.run (.send "a"), .begin 0, .access "b" 0, .access "b" 0],
    [.run (.start "b" 2 ["a", "b", "c"] "y"), .run (.skip "b")],
    behind "b" 6, roundTrip "b" "c" 6, [.run (.finish "b")], behind "b" 6, roundTrip "b" "c" 6,
    [.run (.finish "b"), .run (.skip "b")], roundTrip "b" "c" 10, .replicate 4 (.access "b" 0),
    [.reply "b" 0, .run (.receive "a" 0), .run (.finish "a")], roundTrip "a" "a" 10]
where
  /-- A call of `p` at its own node, where another handler is at work. -/
  behind (p : String) (n : Nat) : List ThreadAction :=
    [.run (.send p), .begin 0] ++ .replicate n (.access p 1) ++ [.reply p 1, .run (.receive p 0)]

/-- What `overlap` does not meet is that the handlers are alone. -/
example : (system 2 ["a", "b", "c"]).StepsMeet Proposes (booted "boot") overlap ∧
    ((system 2 ["a", "b", "c"]).final (booted "boot") overlap).world.commits =
      [("a", 2, "x"), ("c", 2, "y")] := by
  decide +kernel

end Threads

end Paxos
end Frangipani

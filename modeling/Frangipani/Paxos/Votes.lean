/-
The votes behind a state of the protocol.

All calls of `run` are for one instance and one list of nodes.  The acceptors'
handlers are then a voting protocol: an accepted prepare is a promise, an accepted
accept is a vote, and the value that a proposer sends out in its accept phase is
the proposal of its ballot.

The invariant says what the acceptors, the messages and the proposers know about
votes and proposals.  The votes only grow, so that what is known stays true.  The
second half shows that an acceptor that serves a request keeps the invariant.
-/
import Mathlib.Data.List.Count
import Frangipani.Consensus.Voting
import Frangipani.Paxos.Network

namespace Frangipani
namespace Paxos

open Consensus

/-! ## Majorities -/

/-- The sets of nodes that contain a majority of the list. -/
def IsQuorum (nodes : List String) (Q : String → Prop) : Prop :=
  ∃ l, majority nodes l = true ∧ ∀ x ∈ nodes, x ∈ l → Q x

theorem countP_add_le {l : List String} (p q : String → Bool) :
    l.countP p + l.countP q ≤ l.length + l.countP fun x => p x && q x := by
  induction l with
  | nil => exact Nat.le_refl 0
  | cons x l ih =>
    simp only [List.countP_cons, List.length_cons]
    cases p x <;> cases q x <;> simp <;> omega

/-- Two majorities of a list have a position in common, whose node may stand at others too. -/
theorem countP_both_pos {nodes l k : List String} (hl : majority nodes l = true)
    (hk : majority nodes k = true) :
    0 < nodes.countP fun x => decide (x ∈ l) && decide (x ∈ k) := by
  have hcount := countP_add_le (l := nodes) (fun x => decide (x ∈ l)) fun x => decide (x ∈ k)
  simp only [majority, ge_iff_le, decide_eq_true_eq] at hl hk
  omega

/-- If `majority` holds of two lists of nodes for the same members, with a node listed twice or not,
then some member is in both. -/
theorem exists_mem_of_majority {l1 a b : List String} (ha : majority l1 a = true)
    (hb : majority l1 b = true) : ∃ x ∈ l1, x ∈ a ∧ x ∈ b := by
  obtain ⟨x, hx, hboth⟩ := List.countP_pos_iff.mp (countP_both_pos ha hb)
  simp only [Bool.and_eq_true, decide_eq_true_eq] at hboth
  exact ⟨x, hx, hboth⟩

/-- Node 3001 has been added twice. -/
theorem exists_mem_of_majority_twice :
    ∃ x ∈ ["3001", "3002", "3001", "3003"], x ∈ ["3001", "3003"] ∧ x ∈ ["3002", "3001"] :=
  exists_mem_of_majority (by decide) (by decide)

theorem IsQuorum.meet {nodes : List String} {Q R : String → Prop} (hQ : IsQuorum nodes Q)
    (hR : IsQuorum nodes R) : ∃ x, Q x ∧ R x := by
  obtain ⟨l, hl, hlQ⟩ := hQ
  obtain ⟨k, hk, hkR⟩ := hR
  obtain ⟨x, hx, hboth⟩ := List.countP_pos_iff.mp (countP_both_pos hl hk)
  simp only [Bool.and_eq_true, decide_eq_true_eq] at hboth
  exact ⟨x, hlQ x hx hboth.1, hkR x hx hboth.2⟩

theorem isQuorum_of_majority {nodes l : List String} (h : majority nodes l = true) :
    IsQuorum nodes fun x => x ∈ l :=
  ⟨l, h, fun _ _ hx => hx⟩

/-! ## The votes behind a state -/

/-- The votes that the acceptors have cast and the proposals of the ballots. -/
structure Ghost where
  vote : String → PropT → Option String
  proposal : PropT → Option String

section
variable (inst : UInt32) (nodes : List String)

/-- An acceptor that has decided the instance votes no more, and any other does
not vote below its promised ballot. -/
def votes (acceptor : String → Acceptor) (g : Ghost) : Votes String PropT String where
  vote := g.vote
  promised p b := inst ≤ (acceptor p).instanceH ∨ b ≤ (acceptor p).nH

abbrev Voting := Votes String PropT String

/-- The value is chosen in some ballot. -/
def IsChosen (S : Voting) (v : String) : Prop := ∃ b, S.Chosen (IsQuorum nodes) b v

/-- What a request may ask for. -/
def BodyOk (S : Voting) (g : Ghost) : Body → Prop
  | .prepare arg => arg.inst = inst
  | .accept arg => arg.inst = inst ∧ g.proposal arg.n = some arg.v
  | .decide arg => arg.inst = inst ∧ IsChosen nodes S arg.v

/-- A node has promised the ballot and reported its last vote below it. -/
structure Promise (S : Voting) (node : String) (b : PropT) (res : PrepareRes) : Prop where
  promised : S.promised node b
  last : ∀ c v, c < b → S.vote node c = some v → res.vA ≠ "" ∧ c ≤ res.nA
  voted : res.vA ≠ "" → S.vote node res.nA = some res.vA ∧ res.nA < b

/-- What an answer to a request may say. -/
def AnswerOk (S : Voting) (req : Request) : Answer → Prop
  | .prepared res => ∃ arg, req.body = .prepare arg ∧
      (res.oldinstance = true → IsChosen nodes S res.vA) ∧
      (res.oldinstance = false → res.accept = true → Promise S req.dst arg.n res)
  | .accepted ok => ∃ arg, req.body = .accept arg ∧
      (ok = true → S.vote req.dst arg.n = some arg.v)
  | .decided _ => True

/-- The largest ballot with a value that has been reported, and the value kept for
it. -/
def PickOk (g : Ghost) (r : Run) : Prop :=
  (r.pick = none → r.v = r.cV ∧ r.highestN = 0) ∧
    ∀ k, r.pick = some k → g.proposal k = some r.v ∧ r.highestN = k.n

/-- What a proposer with ballot `b` knows in a phase of its run. -/
def PhaseOk (S : Voting) (g : Ghost) (b : PropT) (r : Run) : Prop :=
  match r.phase with
  | .prepare =>
    (∀ t ∈ r.accepts, S.promised t b ∧
      ∀ c v, c < b → S.vote t c = some v → ∃ k, r.pick = some k ∧ c ≤ k) ∧ PickOk g r
  | .accept => g.proposal b = some r.v ∧ ∀ t ∈ r.accepts, S.vote t b = some r.v
  | .decide => IsChosen nodes S r.v

structure RunOk (S : Voting) (g : Ghost) (p : String) (b : PropT) (r : Run) : Prop where
  inst : r.inst = inst
  cNodes : r.cNodes = nodes
  cV : r.cV ≠ ""
  ballot : b.m = p ∧ 0 < b.n
  outstanding : ∀ req, r.outstanding = some req → req.body = r.body b
  phase : PhaseOk nodes S g b r

/-- The acceptor's record of its votes. -/
structure AcceptorOk (S : Voting) (g : Ghost) (p : String) (a : Acceptor) : Prop where
  last : a.instanceH < inst → ∀ c v, g.vote p c = some v → a.vA ≠ "" ∧ c ≤ a.nA
  voted : a.instanceH < inst → a.vA ≠ "" → g.vote p a.nA = some a.vA ∧ a.nA ≤ a.nH
  decided : inst ≤ a.instanceH → ∃ v, a.values.find inst = some v ∧ IsChosen nodes S v

/-- Every vote is for the proposal of its ballot, and every proposal is safe. -/
structure GhostOk (S : Voting) (g : Ghost) : Prop where
  vote : ∀ p b v, g.vote p b = some v → g.proposal b = some v
  safe : ∀ b v, g.proposal b = some v → S.Safe (IsQuorum nodes) b v
  nonempty : ∀ b v, g.proposal b = some v → v ≠ "" ∧ 0 < b.n

/-- The invariant of a state with the votes and proposals behind it. -/
structure Inv (w : World) (g : Ghost) : Prop where
  ghost : GhostOk nodes (votes inst w.acceptor g) g
  acceptor : ∀ p, AcceptorOk inst nodes (votes inst w.acceptor g) g p (w.acceptor p)
  request : ∀ req ∈ w.requests, BodyOk inst nodes (votes inst w.acceptor g) g req.body
  reply : ∀ reply ∈ w.replies,
    AnswerOk nodes (votes inst w.acceptor g) reply.request reply.answer
  run : ∀ p r, (w.proposer p).run = some r →
    RunOk inst nodes (votes inst w.acceptor g) g p (w.proposer p).myN r
  fresh : ∀ b v, g.proposal b = some v → b.n ≤ (w.proposer b.m).myN.n ∧
    ∀ r, (w.proposer b.m).run = some r → r.phase = .prepare → b.n < (w.proposer b.m).myN.n
  commits : ∀ p v, (p, inst, v) ∈ w.commits → IsChosen nodes (votes inst w.acceptor g) v

end

/-! ## Knowledge is kept as votes are added -/

section
variable {inst : UInt32} {nodes : List String} {S T : Voting} {g g' : Ghost}

/-- The votes and proposals have only grown. -/
structure Grows (S T : Voting) (g g' : Ghost) : Prop where
  votes : S.Extends T
  proposal : ∀ b v, g.proposal b = some v → g'.proposal b = some v

theorem IsChosen.grows (hST : S.Extends T) {v : String} (h : IsChosen nodes S v) :
    IsChosen nodes T v := by
  obtain ⟨b, hb⟩ := h
  exact ⟨b, hb.extends hST⟩

theorem BodyOk.grows (hG : Grows S T g g') {body : Body} (h : BodyOk inst nodes S g body) :
    BodyOk inst nodes T g' body := by
  cases body with
  | prepare arg => exact h
  | accept arg => exact ⟨h.1, hG.proposal _ _ h.2⟩
  | decide arg => exact ⟨h.1, h.2.grows hG.votes⟩

theorem Promise.grows (hST : S.Extends T) {node : String} {b : PropT} {res : PrepareRes}
    (h : Promise S node b res) : Promise T node b res where
  promised := hST.promised node b h.promised
  last := fun c v hc hv => h.last c v hc (hST.vote_of_promised h.promised hc hv)
  voted := fun hne => ⟨hST.vote _ _ _ (h.voted hne).1, (h.voted hne).2⟩

theorem AnswerOk.grows (hST : S.Extends T) {req : Request} {answer : Answer}
    (h : AnswerOk nodes S req answer) : AnswerOk nodes T req answer := by
  cases answer with
  | prepared res =>
    obtain ⟨arg, hbody, hold, hacc⟩ := h
    exact ⟨arg, hbody, fun ho => (hold ho).grows hST, fun ho ha => (hacc ho ha).grows hST⟩
  | accepted ok =>
    obtain ⟨arg, hbody, hvote⟩ := h
    exact ⟨arg, hbody, fun hok => hST.vote _ _ _ (hvote hok)⟩
  | decided ok => trivial

theorem PhaseOk.grows (hG : Grows S T g g') {b : PropT} {r : Run} (h : PhaseOk nodes S g b r) :
    PhaseOk nodes T g' b r := by
  unfold PhaseOk at h ⊢
  cases hphase : r.phase with
  | prepare =>
    simp only [hphase] at h ⊢
    obtain ⟨haccepts, hpick⟩ := h
    refine ⟨fun t ht => ?_, hpick.1,
      fun k hk => ⟨hG.proposal _ _ (hpick.2 k hk).1, (hpick.2 k hk).2⟩⟩
    obtain ⟨hp, hlast⟩ := haccepts t ht
    exact ⟨hG.votes.promised t b hp,
      fun c v hc hv => hlast c v hc (hG.votes.vote_of_promised hp hc hv)⟩
  | accept =>
    simp only [hphase] at h ⊢
    exact ⟨hG.proposal _ _ h.1, fun t ht => hG.votes.vote _ _ _ (h.2 t ht)⟩
  | decide =>
    simp only [hphase] at h ⊢
    exact h.grows hG.votes

theorem RunOk.grows (hG : Grows S T g g') {p : String} {b : PropT} {r : Run}
    (h : RunOk inst nodes S g p b r) : RunOk inst nodes T g' p b r :=
  ⟨h.inst, h.cNodes, h.cV, h.ballot, h.outstanding, h.phase.grows hG⟩

/-! ## An acceptor serves a request -/

theorem AcceptorOk.grows {p : String} {a : Acceptor} (hST : S.Extends T)
    (hvote : g'.vote p = g.vote p) (h : AcceptorOk inst nodes S g p a) :
    AcceptorOk inst nodes T g' p a where
  last := fun hi => by rw [hvote]; exact h.last hi
  voted := fun hi => by rw [hvote]; exact h.voted hi
  decided := fun hi => by
    obtain ⟨v, hv, hchosen⟩ := h.decided hi
    exact ⟨v, hv, hchosen.grows hST⟩

end

section
variable {inst : UInt32} {nodes : List String} {w t : World} {g g' : Ghost} {r : Run}

/-- A step in which one acceptor changes, votes and promises are added, and
answers and commits that go with them. -/
theorem Inv.of_acceptor (h : Inv inst nodes w g) {node : String} {a : Acceptor}
    (hacceptor : t.acceptor = Function.update w.acceptor node a)
    (hST : (votes inst w.acceptor g).Extends (votes inst t.acceptor g'))
    (hproposal : g'.proposal = g.proposal)
    (hvote : ∀ p b v, g'.vote p b = some v → g'.proposal b = some v)
    (hother : ∀ q, q ≠ node → g'.vote q = g.vote q)
    (ha : AcceptorOk inst nodes (votes inst t.acceptor g') g' node a)
    (hproposer : t.proposer = w.proposer) (hrequests : ∀ req ∈ t.requests, req ∈ w.requests)
    (hreplies : ∀ reply ∈ t.replies, reply ∈ w.replies ∨
      AnswerOk nodes (votes inst t.acceptor g') reply.request reply.answer)
    (hcommits : ∀ p v, (p, inst, v) ∈ t.commits → (p, inst, v) ∈ w.commits ∨
      IsChosen nodes (votes inst t.acceptor g') v) : Inv inst nodes t g' := by
  have hG : Grows (votes inst w.acceptor g) (votes inst t.acceptor g') g g' :=
    ⟨hST, fun b v hb => hproposal ▸ hb⟩
  refine ⟨⟨hvote, fun b v hb => ?_, fun b v hb => ?_⟩, fun p => ?_, fun req hreq => ?_,
    fun reply hreply => ?_, fun p r hr => ?_, fun b v hb => ?_, fun p v hv => ?_⟩
  · exact (h.ghost.safe b v (hproposal ▸ hb)).extends hST
  · exact h.ghost.nonempty b v (hproposal ▸ hb)
  · by_cases hp : p = node
    · subst hp
      have hsame : t.acceptor p = a := by rw [hacceptor, Function.update_self]
      rw [hsame]
      exact ha
    · have hsame : t.acceptor p = w.acceptor p := by rw [hacceptor, Function.update_of_ne hp]
      rw [hsame]
      exact (h.acceptor p).grows hST (hother p hp)
  · exact (h.request req (hrequests req hreq)).grows hG
  · rcases hreplies reply hreply with hold | hnew
    · exact (h.reply reply hold).grows hST
    · exact hnew
  · rw [hproposer] at hr ⊢
    exact (h.run p r hr).grows hG
  · rw [hproposer]
    exact h.fresh b v (hproposal ▸ hb)
  · rcases hcommits p v hv with hold | hnew
    · exact (h.commits p v hold).grows hST
    · exact hnew

theorem votes_extends_promise {acceptor : String → Acceptor} {node : String} {a : Acceptor}
    (hinst : (acceptor node).instanceH ≤ a.instanceH)
    (hnH : a.instanceH < inst → (acceptor node).nH ≤ a.nH) :
    (votes inst acceptor g).Extends (votes inst (Function.update acceptor node a) g) := by
  refine .of_promised rfl fun p b hp => ?_
  by_cases hpn : p = node
  · subst hpn
    show inst ≤ (Function.update acceptor p a p).instanceH ∨
      b ≤ (Function.update acceptor p a p).nH
    rw [Function.update_self]
    by_cases hdone : inst ≤ a.instanceH
    · exact Or.inl hdone
    · rcases hp with hp | hp
      · exact Or.inl (UInt32.le_trans hp hinst)
      · exact Or.inr (le_trans hp (hnH (UInt32.not_le.mp hdone)))
  · show inst ≤ (Function.update acceptor node a p).instanceH ∨
      b ≤ (Function.update acceptor node a p).nH
    rw [Function.update_of_ne hpn]
    exact hp

/-- The handler has run: what is left to show is about the acceptor and the
answer. -/
theorem Inv.of_served (h : Inv inst nodes w g) {k : Nat} {req : Request} {answer : Answer}
    {a : Acceptor} (hserve : (w.acceptor req.dst).serve req.body = (answer, a))
    (hST : (votes inst w.acceptor g).Extends
      (votes inst (Function.update w.acceptor req.dst a) g'))
    (hproposal : g'.proposal = g.proposal)
    (hvote : ∀ p b v, g'.vote p b = some v → g'.proposal b = some v)
    (hother : ∀ q, q ≠ req.dst → g'.vote q = g.vote q)
    (ha : AcceptorOk inst nodes (votes inst (Function.update w.acceptor req.dst a) g') g'
      req.dst a)
    (hanswer : AnswerOk nodes (votes inst (Function.update w.acceptor req.dst a) g') req answer)
    (hcommit : ∀ p v, (p, inst, v) ∈ World.committedBy req.dst req.body answer →
      IsChosen nodes (votes inst (Function.update w.acceptor req.dst a) g') v) :
    Inv inst nodes (w.delivered k req) g' := by
  unfold World.delivered
  rw [hserve]
  refine h.of_acceptor rfl hST hproposal hvote hother ha rfl
    (fun _ hmem => List.mem_of_mem_eraseIdx hmem) (fun reply hmem => ?_) fun p v hmem => ?_
  · rcases List.mem_append.mp hmem with hold | hnew
    · exact Or.inl hold
    · cases List.mem_singleton.mp hnew
      exact Or.inr hanswer
  · rcases List.mem_append.mp hmem with hnew | hold
    · exact Or.inr (hcommit p v hnew)
    · exact Or.inl hold

/-- The handler has run without a vote.  It leaves the acceptor's promise where it
was or raises it. -/
theorem Inv.of_served_promise (h : Inv inst nodes w g) {k : Nat} {req : Request}
    {answer : Answer} {a : Acceptor}
    (hserve : (w.acceptor req.dst).serve req.body = (answer, a))
    (hinst : (w.acceptor req.dst).instanceH ≤ a.instanceH)
    (hnH : a.instanceH < inst → (w.acceptor req.dst).nH ≤ a.nH)
    (ha : AcceptorOk inst nodes (votes inst (Function.update w.acceptor req.dst a) g) g
      req.dst a)
    (hanswer : AnswerOk nodes (votes inst (Function.update w.acceptor req.dst a) g) req answer)
    (hcommit : ∀ p v, (p, inst, v) ∈ World.committedBy req.dst req.body answer →
      IsChosen nodes (votes inst (Function.update w.acceptor req.dst a) g) v) :
    Inv inst nodes (w.delivered k req) g :=
  h.of_served hserve (votes_extends_promise hinst hnH) rfl h.ghost.vote (fun _ _ => rfl) ha
    hanswer hcommit

theorem Inv.of_served_same (h : Inv inst nodes w g) {k : Nat} {req : Request} {answer : Answer}
    (hserve : (w.acceptor req.dst).serve req.body = (answer, w.acceptor req.dst))
    (hanswer : AnswerOk nodes (votes inst w.acceptor g) req answer)
    (hcommit : ∀ p v, (p, inst, v) ∈ World.committedBy req.dst req.body answer →
      IsChosen nodes (votes inst w.acceptor g) v) : Inv inst nodes (w.delivered k req) g := by
  have hsame : Function.update w.acceptor req.dst (w.acceptor req.dst) = w.acceptor :=
    Function.update_eq_self req.dst w.acceptor
  refine h.of_served_promise hserve (UInt32.le_refl _) (fun _ => le_refl _) ?_ ?_ ?_
  · rw [hsame]
    exact h.acceptor req.dst
  · rw [hsame]
    exact hanswer
  · rw [hsame]
    exact hcommit

theorem Inv.prepare (h : Inv inst nodes w g) {k : Nat} {req : Request} {arg : PrepareArg}
    (hbody : req.body = .prepare arg) (hinst : arg.inst = inst) :
    Inv inst nodes (w.delivered k req) g := by
  subst hinst
  have hno : ∀ arg, req.body ≠ .decide arg := by
    rw [hbody]
    exact fun _ hdecide => by cases hdecide
  have ha := h.acceptor req.dst
  by_cases hold : arg.inst ≤ (w.acceptor req.dst).instanceH
  · obtain ⟨v, hv, hchosen⟩ := ha.decided hold
    have hserve := Acceptor.serve_prepare (Acceptor.preparereq_decided hold hv)
    rw [← hbody] at hserve
    refine h.of_served_same hserve ⟨arg, hbody, fun _ => hchosen, fun ho => ?_⟩
      fun p v hmem => absurd hmem (World.not_mem_committedBy hno _ _ _)
    cases ho
  · have hnew : (w.acceptor req.dst).instanceH < arg.inst := UInt32.not_le.mp hold
    cases hgt : arg.n.gt (w.acceptor req.dst).nH with
    | false =>
      have hserve := Acceptor.serve_prepare (Acceptor.preparereq_refused hnew hgt)
      rw [← hbody] at hserve
      refine h.of_served_same hserve ⟨arg, hbody, fun ho => ?_, fun _ hacc => ?_⟩
        fun p v hmem => absurd hmem (World.not_mem_committedBy hno _ _ _)
      · cases ho
      · cases hacc
    | true =>
      have hlt : (w.acceptor req.dst).nH < arg.n := PropT.gt_iff.mp hgt
      have hserve := Acceptor.serve_prepare (Acceptor.preparereq_promised hnew hgt)
      rw [← hbody] at hserve
      refine h.of_served_promise hserve (UInt32.le_refl _) (fun _ => hlt.le) ?_
        ⟨arg, hbody, fun ho => ?_, fun _ _ => ?_⟩
        fun p v hmem => absurd hmem (World.not_mem_committedBy hno _ _ _)
      · exact ⟨ha.last, fun hi hne => ⟨(ha.voted hi hne).1, ((ha.voted hi hne).2.trans hlt.le)⟩,
          fun hi => absurd hi hold⟩
      · cases ho
      · refine ⟨Or.inr ?_, fun c v _ hv => ha.last hnew c v hv, fun hne => ?_⟩
        · rw [Function.update_self]
        · exact ⟨(ha.voted hnew hne).1, lt_of_le_of_lt (ha.voted hnew hne).2 hlt⟩

/-- The votes after one more. -/
def Ghost.cast (g : Ghost) (node : String) (b : PropT) (v : String) : Ghost :=
  { g with vote := Function.update g.vote node (Function.update (g.vote node) b (some v)) }

theorem Ghost.cast_vote (g : Ghost) (node : String) (b : PropT) (v : String) (p : String)
    (c : PropT) : (g.cast node b v).vote p c = if p = node ∧ c = b then some v else g.vote p c := by
  by_cases hp : p = node
  · subst hp
    by_cases hc : c = b
    · subst hc
      simp [cast]
    · simp [cast, hc]
  · simp [cast, hp]

theorem votes_extends_cast (h : GhostOk nodes (votes inst w.acceptor g) g) {node : String}
    {b : PropT} {v : String} {a : Acceptor} (hproposal : g.proposal b = some v)
    (hnew : (w.acceptor node).instanceH < inst) (hle : (w.acceptor node).nH ≤ b)
    (hinst : (w.acceptor node).instanceH ≤ a.instanceH) (hnH : (w.acceptor node).nH ≤ a.nH) :
    (votes inst w.acceptor g).Extends
      (votes inst (Function.update w.acceptor node a) (g.cast node b v)) where
  vote := by
    intro p c u hu
    show (g.cast node b v).vote p c = some u
    rw [Ghost.cast_vote]
    split
    · rename_i hpc
      obtain ⟨rfl, rfl⟩ := hpc
      rw [← hproposal, h.vote p c u hu]
    · exact hu
  promised := (votes_extends_promise (g := g) hinst fun _ => hnH).promised
  new := by
    intro p c u hu hnone d hcd hd
    replace hu : (g.cast node b v).vote p c = some u := hu
    rw [Ghost.cast_vote] at hu
    split at hu
    · rename_i hpc
      obtain ⟨rfl, rfl⟩ := hpc
      rcases hd with hd | hd
      · exact absurd hd (UInt32.not_le.mpr hnew)
      · exact absurd (hd.trans hle) (not_le_of_gt hcd)
    · have hsome : g.vote p c = none := hnone
      rw [hsome] at hu
      cases hu

theorem Inv.accept (h : Inv inst nodes w g) {k : Nat} {req : Request} {arg : AcceptArg}
    (hbody : req.body = .accept arg) (hinst : arg.inst = inst)
    (hproposal : g.proposal arg.n = some arg.v) :
    ∃ g', Inv inst nodes (w.delivered k req) g' := by
  subst hinst
  have hno : ∀ arg, req.body ≠ .decide arg := by
    rw [hbody]
    exact fun _ hdecide => by cases hdecide
  have ha := h.acceptor req.dst
  by_cases hacc : (w.acceptor req.dst).instanceH < arg.inst ∧
      arg.n.ge (w.acceptor req.dst).nH = true
  · obtain ⟨hnew, hge⟩ := hacc
    have hle : (w.acceptor req.dst).nH ≤ arg.n := PropT.ge_iff.mp hge
    have hserve := Acceptor.serve_accept (Acceptor.acceptreq_accepted hnew hge)
    rw [← hbody] at hserve
    have hself : (g.cast req.dst arg.n arg.v).vote req.dst arg.n = some arg.v := by
      rw [Ghost.cast_vote, if_pos ⟨rfl, rfl⟩]
    refine ⟨g.cast req.dst arg.n arg.v, h.of_served hserve
      (votes_extends_cast h.ghost hproposal hnew hle (UInt32.le_refl _) hle) rfl ?_ ?_
      ⟨fun _ c v hv => ?_, fun _ _ => ⟨hself, le_refl _⟩, fun hi => ?_⟩
      ⟨arg, hbody, fun _ => hself⟩
      fun p v hmem => absurd hmem (World.not_mem_committedBy hno _ _ _)⟩
    · intro p b v hv
      rw [Ghost.cast_vote] at hv
      split at hv
      · rename_i hpb
        rw [← hv, hpb.2]
        exact hproposal
      · exact h.ghost.vote p b v hv
    · intro q hq
      exact Function.update_of_ne hq _ _
    · refine ⟨(h.ghost.nonempty _ _ hproposal).1, ?_⟩
      rw [Ghost.cast_vote] at hv
      split at hv
      · rename_i hpc
        exact le_of_eq hpc.2
      · -- An older vote is at most the last one, which the promise bounds.
        obtain ⟨hne, hc⟩ := ha.last hnew c v hv
        exact hc.trans ((ha.voted hnew hne).2.trans hle)
    · exact absurd hi (UInt32.not_le.mpr hnew)
  · have hserve := Acceptor.serve_accept (Acceptor.acceptreq_refused hacc)
    rw [← hbody] at hserve
    refine ⟨g, h.of_served_same hserve ⟨arg, hbody, fun hok => ?_⟩
      fun p v hmem => absurd hmem (World.not_mem_committedBy hno _ _ _)⟩
    cases hok

/-! ## A value is committed -/

theorem AcceptorOk.commitWo {S : Voting} {p : String} {a : Acceptor} {v : String}
    (h : AcceptorOk inst nodes S g p a) (hv : IsChosen nodes S v) :
    AcceptorOk inst nodes S g p (a.commitWo inst v) := by
  by_cases hnew : a.instanceH < inst
  · rw [Acceptor.commitWo_new v hnew]
    refine ⟨fun hi => absurd hi (UInt32.lt_irrefl inst),
      fun hi => absurd hi (UInt32.lt_irrefl inst), fun _ => ⟨v, Map.find_insert_self _ _ _, hv⟩⟩
  · rw [Acceptor.commitWo_old v (UInt32.not_lt.mp hnew)]
    exact h

theorem votes_extends_commitWo (inst : UInt32) (acceptor : String → Acceptor) (g : Ghost)
    (p : String) (v : String) :
    (votes inst acceptor g).Extends
      (votes inst (Function.update acceptor p ((acceptor p).commitWo inst v)) g) := by
  by_cases hnew : (acceptor p).instanceH < inst
  · rw [Acceptor.commitWo_new v hnew]
    exact votes_extends_promise (UInt32.le_of_lt hnew) fun hi => absurd hi (UInt32.lt_irrefl inst)
  · rw [Acceptor.commitWo_old v (UInt32.not_lt.mp hnew)]
    exact votes_extends_promise (UInt32.le_refl _) fun _ => le_refl _

theorem Inv.decide (h : Inv inst nodes w g) {k : Nat} {req : Request} {arg : DecideArg}
    (hbody : req.body = .decide arg) (hinst : arg.inst = inst)
    (hv : IsChosen nodes (votes inst w.acceptor g) arg.v) :
    Inv inst nodes (w.delivered k req) g := by
  subst hinst
  have hST := votes_extends_commitWo arg.inst w.acceptor g req.dst arg.v
  have hserve : (w.acceptor req.dst).serve req.body =
      (.decided (decide ((w.acceptor req.dst).instanceH < arg.inst)),
        (w.acceptor req.dst).commitWo arg.inst arg.v) := by
    rw [hbody]
    by_cases hnew : (w.acceptor req.dst).instanceH < arg.inst
    · simp [Acceptor.serve, Acceptor.decidereq, hnew, UInt32.not_le.mpr hnew]
    · have hold := UInt32.not_lt.mp hnew
      rw [Acceptor.commitWo_old _ hold]
      simp [Acceptor.serve, Acceptor.decidereq, hold]
  refine h.of_served hserve hST rfl h.ghost.vote (fun _ _ => rfl)
    (((h.acceptor req.dst).grows hST rfl).commitWo (hv.grows hST)) trivial fun p v hmem => ?_
  obtain ⟨arg', hdecide, _, _, _, rfl⟩ := World.mem_committedBy hmem
  rw [hbody] at hdecide
  cases hdecide
  exact hv.grows hST

theorem Inv.delivered (h : Inv inst nodes w g) (k : Nat) {req : Request}
    (hreq : req ∈ w.requests) : ∃ g', Inv inst nodes (w.delivered k req) g' := by
  have hok := h.request req hreq
  cases hbody : req.body with
  | prepare arg =>
    rw [hbody] at hok
    exact ⟨g, h.prepare hbody hok⟩
  | accept arg =>
    rw [hbody] at hok
    exact h.accept hbody hok.1 hok.2
  | decide arg =>
    rw [hbody] at hok
    exact ⟨g, h.decide hbody hok.1 hok.2⟩

theorem Inv.commit (h : Inv inst nodes w g) (p : String) {v : String}
    (hv : IsChosen nodes (votes inst w.acceptor g) v) : Inv inst nodes (w.commit p inst v) g := by
  have hST := votes_extends_commitWo inst w.acceptor g p v
  refine h.of_acceptor rfl hST rfl h.ghost.vote (fun _ _ => rfl)
    (((h.acceptor p).grows hST rfl).commitWo (hv.grows hST)) rfl (fun _ hreq => hreq)
    (fun _ hreply => Or.inl hreply) fun q u hmem => ?_
  simp only [World.commit] at hmem
  split at hmem
  · rcases List.mem_cons.mp hmem with heq | hold
    · cases heq
      exact Or.inr (hv.grows hST)
    · exact Or.inl hold
  · exact Or.inl hmem

end

end Paxos
end Frangipani

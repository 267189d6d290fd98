/-
Agreement on one instance.

The code departs from the voting protocol in three places.  When two nodes report
accepted values of the same ballot number, `prepare` keeps the one it saw first
and does not compare the node names.  It ignores an accepted value that is empty.
And `setn` may wrap around and reuse a ballot.  When none of this matters, the
invariant of the votes is kept by every step of a proposer.
-/
import Frangipani.Paxos.Votes

namespace Frangipani
namespace Paxos

open Transition Consensus

/-! ## The setting -/

/-- The acceptor has decided the instances below `inst` and nothing since. -/
structure Acceptor.Undecided (inst : UInt32) (a : Acceptor) : Prop where
  instanceH : a.instanceH + 1 = inst
  nonzero : inst ≠ 0
  nH : a.nH = { n := 0, m := a.me }
  nA : a.nA = { n := 0, m := a.me }
  vA : a.vA = ""

theorem Acceptor.Undecided.lt {inst : UInt32} {a : Acceptor} (h : a.Undecided inst) :
    a.instanceH < inst := by
  have hnonzero := h.nonzero
  rw [← h.instanceH] at hnonzero ⊢
  exact UInt32.lt_add_one fun hmax => hnonzero (by rw [hmax]; rfl)

namespace World

/-- Every acceptor is undecided, no proposer is running and no message is under
way. -/
structure Starts (inst : UInt32) (w : World) : Prop where
  acceptor : ∀ p, (w.acceptor p).Undecided inst
  run : ∀ p, (w.proposer p).run = none
  requests : w.requests = []
  replies : w.replies = []
  commits : w.commits = []

/-- No two acceptors have committed different values. -/
def Agreement (inst : UInt32) (w : World) : Prop :=
  ∀ p q v u, (p, inst, v) ∈ w.commits → (q, inst, u) ∈ w.commits → v = u

/-- A reported value that the proposer does not take over, although its ballot is
larger than the largest it has seen, is the value that it has. -/
def KeepsLargest (r : Run) (res : PrepareRes) : Prop :=
  res.accept = true → res.vA ≠ "" → res.nA.n = r.highestN →
    ∀ b ∈ r.pick, b < res.nA → res.vA = r.v

instance (r : Run) (res : PrepareRes) : Decidable (KeepsLargest r res) :=
  inferInstanceAs (Decidable (_ → _ → _ → _))

def prepareRes : Answer → Option PrepareRes
  | .prepared res => some res
  | _ => none

/-- The proposed values are not empty, ballots do not wrap around, and no proposer
drops a value for a smaller ballot of the same number. -/
def Regular (w : World) : Action → Prop
  | .start p _ _ v => (w.proposer p).run = none → v ≠ "" ∧ (w.proposer p).myN.n + 1 ≠ 0
  | .receive p k =>
    ∀ r ∈ (w.proposer p).run, ∀ reply ∈ w.replies[k]?, ∀ res ∈ prepareRes reply.answer,
      KeepsLargest r res
  | _ => True

instance (w : World) : ∀ a, Decidable (w.Regular a)
  | .start .. => inferInstanceAs (Decidable (_ → _ ∧ _))
  | .receive p k => inferInstanceAs (Decidable (∀ r ∈ (w.proposer p).run,
      ∀ reply ∈ w.replies[k]?, ∀ res ∈ prepareRes reply.answer, KeepsLargest r res))
  | .send _ | .skip _ | .giveUp _ | .deliver _ | .finish _ => isTrue trivial

end World

section
variable {inst : UInt32} {nodes : List String} {w t : World} {g g' : Ghost} {r : Run}

/-! ## A proposer goes on -/

/-- A step of the proposer `p` alone.  It may add proposals of its own ballots. -/
theorem Inv.of_run (h : Inv inst nodes w g) (p : String) (hacceptor : t.acceptor = w.acceptor)
    (hcommits : t.commits = w.commits) (hreplies : ∀ reply ∈ t.replies, reply ∈ w.replies)
    (hproposer : ∀ q, q ≠ p → t.proposer q = w.proposer q) (hvote : g'.vote = g.vote)
    (hkept : ∀ b v, g.proposal b = some v → g'.proposal b = some v)
    (hghost : GhostOk nodes (votes inst w.acceptor g) g')
    (hrequests : ∀ req ∈ t.requests, req ∈ w.requests ∨
      BodyOk inst nodes (votes inst w.acceptor g) g' req.body)
    (hrun : ∀ r, (t.proposer p).run = some r →
      RunOk inst nodes (votes inst w.acceptor g) g' p (t.proposer p).myN r)
    (hother : ∀ b v, b.m ≠ p → g'.proposal b = some v → g.proposal b = some v)
    (hfresh : ∀ b v, b.m = p → g'.proposal b = some v → b.n ≤ (t.proposer p).myN.n ∧
      ∀ r, (t.proposer p).run = some r → r.phase = .prepare → b.n < (t.proposer p).myN.n) :
    Inv inst nodes t g' := by
  have hsame : votes inst t.acceptor g' = votes inst w.acceptor g := by
    rw [hacceptor]
    unfold votes
    rw [hvote]
  have hST : (votes inst w.acceptor g).Extends (votes inst w.acceptor g) :=
    .of_promised rfl fun _ _ hp => hp
  have hG : Grows (votes inst w.acceptor g) (votes inst w.acceptor g) g g' := ⟨hST, hkept⟩
  refine ⟨hsame ▸ hghost, fun q => ?_, fun req hreq => ?_, fun reply hreply => ?_,
    fun q r hr => ?_, fun b v hb => ?_, fun q v hv => ?_⟩
  · rw [hsame, hacceptor]
    exact (h.acceptor q).grows hST (by rw [hvote])
  · rw [hsame]
    rcases hrequests req hreq with hold | hnew
    · exact (h.request req hold).grows hG
    · exact hnew
  · rw [hsame]
    exact h.reply reply (hreplies reply hreply)
  · rw [hsame]
    by_cases hq : q = p
    · subst hq
      exact hrun r hr
    · rw [hproposer q hq] at hr ⊢
      exact (h.run q r hr).grows hG
  · by_cases hb' : b.m = p
    · have hp := hfresh b v hb' hb
      rw [hb']
      exact hp
    · rw [hproposer b.m hb']
      exact h.fresh b v (hother b v hb' hb)
  · rw [hsame]
    exact h.commits q v (hcommits ▸ hv)

theorem Inv.setRun (h : Inv inst nodes w g) (p : String) {run : Option Run}
    (hrun : ∀ r, run = some r →
      RunOk inst nodes (votes inst w.acceptor g) g p (w.proposer p).myN r)
    (hphase : ∀ r, run = some r → r.phase = .prepare →
      ∃ r', (w.proposer p).run = some r' ∧ r'.phase = .prepare) :
    Inv inst nodes (w.setRun p run) g := by
  have hmyN : ((w.setRun p run).proposer p).myN = (w.proposer p).myN := by
    simp [World.setRun]
  refine h.of_run p rfl rfl (fun _ hr => hr) (fun q hq => w.setRun_proposer_ne run hq) rfl
    (fun _ _ hb => hb) h.ghost (fun _ hreq => Or.inl hreq) ?_ (fun _ _ _ hb => hb) ?_
  · rw [hmyN, w.setRun_run_self]
    exact hrun
  · intro b v hb hv
    rw [hmyN, w.setRun_run_self]
    subst hb
    refine ⟨(h.fresh b v hv).1, fun r hr hprep => ?_⟩
    obtain ⟨r', hr', hprep'⟩ := hphase r hr hprep
    exact (h.fresh b v hv).2 r' hr' hprep'

theorem setn_gt (nH : UInt32) {myN : UInt32} (h : myN + 1 ≠ 0) : myN < setn nH myN := by
  have hsucc : myN < myN + 1 := UInt32.lt_add_one fun hmax => h (by rw [hmax]; rfl)
  unfold setn
  split
  · rename_i hgt
    exact UInt32.lt_trans hsucc hgt
  · exact hsucc

theorem Inv.start (h : Inv inst nodes w g) {p v : String} {n : UInt32} (hv : v ≠ "")
    (hgt : (w.proposer p).myN.n < n)
    (hproposer : t.proposer = Function.update w.proposer p
      { myN := { n := n, m := p }, run := some (.start inst nodes v) })
    (hacceptor : t.acceptor = w.acceptor) (hrequests : t.requests = w.requests)
    (hreplies : t.replies = w.replies) (hcommits : t.commits = w.commits) :
    Inv inst nodes t g := by
  refine h.of_run p hacceptor hcommits (fun _ hr => hreplies ▸ hr) (fun q hq => ?_) rfl
    (fun _ _ hb => hb) h.ghost (fun _ hreq => Or.inl (hrequests ▸ hreq)) ?_ (fun _ _ _ hb => hb) ?_
  · rw [hproposer, Function.update_of_ne hq]
  · intro r hr
    rw [hproposer] at hr ⊢
    simp only [Function.update_self, Option.some.injEq] at hr ⊢
    subst hr
    refine ⟨rfl, rfl, hv, ⟨rfl, UInt32.lt_of_le_of_lt UInt32.zero_le hgt⟩, fun req hreq => ?_,
      fun t ht => ?_, fun _ => ⟨rfl, rfl⟩, fun k hk => ?_⟩
    · cases hreq
    · cases ht
    · cases hk
  · intro b u hb hu
    subst hb
    rw [hproposer]
    simp only [Function.update_self]
    have hlt : b.n < n := UInt32.lt_of_le_of_lt (h.fresh b u hu).1 hgt
    exact ⟨UInt32.le_of_lt hlt, fun _ _ _ => hlt⟩

theorem RunOk.body {S : Voting} {p : String} {b : PropT} {r : Run}
    (h : RunOk inst nodes S g p b r) : BodyOk inst nodes S g (r.body b) := by
  have hphase := h.phase
  unfold PhaseOk at hphase
  unfold Run.body
  cases hr : r.phase with
  | prepare => exact h.inst
  | accept =>
    simp only [hr] at hphase
    exact ⟨h.inst, hphase.1⟩
  | decide =>
    simp only [hr] at hphase
    exact ⟨h.inst, hphase⟩

theorem Inv.sent (h : Inv inst nodes w g) {p : String} {r : Run}
    (hr : (w.proposer p).run = some r) (dst : String) : Inv inst nodes (w.sent p r dst) g := by
  have hok := h.run p r hr
  let req : Request :=
    { id := w.nextId, src := p, dst := dst, body := r.body (w.proposer p).myN }
  have hset : Inv inst nodes (w.setRun p (some { r with outstanding := some req })) g := by
    refine h.setRun p (fun r' hr' => ?_) fun r' hr' hprep => ?_
    · cases hr'
      refine ⟨hok.inst, hok.cNodes, hok.cV, hok.ballot, fun req hreq => ?_, hok.phase⟩
      cases hreq
      rfl
    · cases hr'
      exact ⟨r, hr, hprep⟩
  refine hset.of_run p rfl rfl (fun _ hr => hr) (fun _ _ => rfl) rfl (fun _ _ hb => hb) hset.ghost
    (fun req hreq => ?_) (hset.run p) (fun _ _ _ hb => hb) fun b v hb hv => ?_
  · rcases List.mem_append.mp hreq with hold | hnew
    · exact Or.inl hold
    · cases List.mem_singleton.mp hnew
      exact Or.inr hok.body
  · subst hb
    exact hset.fresh b v hv

theorem RunOk.advance {S : Voting} {p : String} {b : PropT} {r : Run}
    (h : RunOk inst nodes S g p b r) : RunOk inst nodes S g p b r.advance :=
  ⟨h.inst, h.cNodes, h.cV, h.ballot, fun req hreq => absurd hreq.symm (Option.some_ne_none req),
    h.phase⟩

theorem Inv.advance (h : Inv inst nodes w g) {p : String} {r : Run}
    (hr : (w.proposer p).run = some r) : Inv inst nodes (w.setRun p (some r.advance)) g := by
  refine h.setRun p (fun r' hr' => ?_) fun r' hr' hprep => ?_
  · cases hr'
    exact (h.run p r hr).advance
  · cases hr'
    exact ⟨r, hr, hprep⟩

/-! ## A node has promised -/

theorem max_eq_right_of_n {a b : PropT} (h : a.n < b.n) : max a b = b :=
  max_eq_right (PropT.lt_iff.mpr (Or.inl h)).le

theorem max_eq_left_of_n {a b : PropT} (h : b.n < a.n) : max a b = a :=
  max_eq_left (PropT.lt_iff.mpr (Or.inl h)).le

section
variable {S : Voting} {b : PropT} {r : Run} {node : String} {res : PrepareRes}

theorem PickOk.promised (h : PickOk g r) (hkeeps : World.KeepsLargest r res)
    (hacc : res.accept = true)
    (hvoted : res.vA ≠ "" → g.proposal res.nA = some res.vA ∧ 0 < res.nA.n) :
    PickOk g (r.promised node res) := by
  by_cases hempty : res.vA = ""
  · simp only [Run.promised, Run.advance, hempty, if_true]
    exact ⟨h.1, h.2⟩
  obtain ⟨hproposal, hpos⟩ := hvoted hempty
  cases hpick : r.pick with
  | none =>
    have hgt : res.nA.n > r.highestN := by rw [(h.1 hpick).2]; exact hpos
    simp only [Run.promised, Run.advance, hempty, if_false, hpick, hgt, if_true]
    refine ⟨fun hn => ?_, fun k hk => ?_⟩
    · cases hn
    · cases hk
      exact ⟨hproposal, rfl⟩
  | some k =>
    obtain ⟨hv, hhigh⟩ := h.2 k hpick
    by_cases hgt : res.nA.n > r.highestN
    · simp only [Run.promised, Run.advance, hempty, if_false, hpick, hgt, if_true]
      refine ⟨fun hn => ?_, fun k' hk' => ?_⟩
      · cases hn
      · rw [max_eq_right_of_n (hhigh ▸ hgt)] at hk'
        cases hk'
        exact ⟨hproposal, rfl⟩
    · simp only [Run.promised, Run.advance, hempty, if_false, hpick, hgt]
      refine ⟨fun hn => ?_, fun k' hk' => ?_⟩
      · cases hn
      · cases hk'
        rw [gt_iff_lt, hhigh] at hgt
        rcases UInt32.lt_or_eq_of_le (UInt32.not_lt.mp hgt) with hlt | heq
        · rw [max_eq_left_of_n hlt]
          exact ⟨hv, hhigh⟩
        · -- A tie: the code keeps the value it has.
          rcases le_or_gt res.nA k with hle | hlt
          · rw [max_eq_left hle]
            exact ⟨hv, hhigh⟩
          · rw [max_eq_right hlt.le]
            have hkept := hkeeps hacc hempty (heq.trans hhigh.symm) k hpick hlt
            exact ⟨hkept ▸ hproposal, hhigh.trans heq.symm⟩

theorem Run.promised_accepts (r : Run) (node : String) (res : PrepareRes) :
    (r.promised node res).accepts = r.accepts ++ [node] := by
  unfold Run.promised
  dsimp only
  split
  · rfl
  · split <;> rfl

theorem Run.promised_pick (r : Run) (node : String) {res : PrepareRes} (h : res.vA ≠ "") :
    ∃ k, (r.promised node res).pick = some k ∧ res.nA ≤ k ∧ ∀ c, r.pick = some c → c ≤ k := by
  cases hpick : r.pick with
  | none =>
    refine ⟨res.nA, ?_, le_refl _, fun c hc => absurd hc.symm (Option.some_ne_none c)⟩
    unfold Run.promised Run.advance
    dsimp only
    rw [if_neg h, hpick]
    split <;> rfl
  | some k =>
    refine ⟨max k res.nA, ?_, le_max_right _ _, fun c hc => ?_⟩
    · unfold Run.promised Run.advance
      dsimp only
      rw [if_neg h, hpick]
      split <;> rfl
    · cases hc
      exact le_max_left _ _

theorem Run.promised_phase (r : Run) (node : String) (res : PrepareRes) :
    (r.promised node res).phase = r.phase := by
  unfold Run.promised
  dsimp only
  split
  · rfl
  · split <;> rfl

theorem PhaseOk.promised (hprep : r.phase = .prepare) (h : PhaseOk nodes S g b r)
    (hpromise : Promise S node b res) (hacc : res.accept = true)
    (hkeeps : World.KeepsLargest r res)
    (hvoted : res.vA ≠ "" → g.proposal res.nA = some res.vA ∧ 0 < res.nA.n) :
    PhaseOk nodes S g b (r.promised node res) := by
  simp only [PhaseOk, hprep] at h
  simp only [PhaseOk, r.promised_phase, hprep, r.promised_accepts]
  obtain ⟨haccepts, hpick⟩ := h
  refine ⟨fun t ht => ?_, hpick.promised hkeeps hacc hvoted⟩
  rcases List.mem_append.mp ht with hold | hnew
  · refine ⟨(haccepts t hold).1, fun c v hc hv => ?_⟩
    obtain ⟨k, hk, hck⟩ := (haccepts t hold).2 c v hc hv
    by_cases hempty : res.vA = ""
    · refine ⟨k, ?_, hck⟩
      simp only [Run.promised, Run.advance, hempty, if_true]
      exact hk
    · obtain ⟨k', hk', _, hle⟩ := r.promised_pick node hempty
      exact ⟨k', hk', hck.trans (hle k hk)⟩
  · rw [List.mem_singleton.mp hnew]
    refine ⟨hpromise.promised, fun c v hc hv => ?_⟩
    obtain ⟨hne, hle⟩ := hpromise.last c v hc hv
    obtain ⟨k, hk, hnA, _⟩ := r.promised_pick node hne
    exact ⟨k, hk, hle.trans hnA⟩

theorem RunOk.promised {p : String} (h : RunOk inst nodes S g p b r)
    (hphase : PhaseOk nodes S g b (r.promised node res)) :
    RunOk inst nodes S g p b (r.promised node res) := by
  have hrest : (r.promised node res).inst = r.inst ∧ (r.promised node res).cNodes = r.cNodes ∧
      (r.promised node res).cV = r.cV ∧ (r.promised node res).outstanding = none := by
    unfold Run.promised Run.advance
    dsimp only
    split
    · exact ⟨rfl, rfl, rfl, rfl⟩
    · split <;> exact ⟨rfl, rfl, rfl, rfl⟩
  obtain ⟨hinst, hcNodes, hcV, hout⟩ := hrest
  refine ⟨hinst.trans h.inst, hcNodes.trans h.cNodes, hcV ▸ h.cV, h.ballot, fun req hreq => ?_,
    hphase⟩
  rw [hout] at hreq
  cases hreq

end

/-! ## An answer arrives -/

/-- A prepare is only outstanding in the prepare phase, with the proposer's own
ballot. -/
theorem Run.body_prepare {r : Run} {b : PropT} {arg : PrepareArg} (h : r.body b = .prepare arg) :
    r.phase = .prepare ∧ arg.n = b := by
  unfold Run.body at h
  split at h
  · rename_i hprep
    cases h
    exact ⟨hprep, rfl⟩
  · cases h
  · cases h

theorem Run.body_accept {r : Run} {b : PropT} {arg : AcceptArg} (h : r.body b = .accept arg) :
    r.phase = .accept ∧ arg.n = b ∧ arg.v = r.v := by
  unfold Run.body at h
  split at h
  · cases h
  · rename_i hacc
    cases h
    exact ⟨hacc, rfl, rfl⟩
  · cases h

theorem Inv.prepared (h : Inv inst nodes w g) {p : String} {r : Run} {req : Request}
    {res : PrepareRes} (hr : (w.proposer p).run = some r)
    (hbody : req.body = r.body (w.proposer p).myN)
    (hanswer : AnswerOk nodes (votes inst w.acceptor g) req (.prepared res))
    (hkeeps : World.KeepsLargest r res) :
    Inv inst nodes (w.answered p r req (.prepared res)) g := by
  have hok := h.run p r hr
  obtain ⟨arg, harg, hold, hacc⟩ := hanswer
  obtain ⟨hprep, hn⟩ := Run.body_prepare (hbody.symm.trans harg)
  cases hoi : res.oldinstance with
  | true =>
    simp only [World.answered, hoi, if_true, hok.inst]
    exact (h.commit p (hold hoi)).setRun p (fun r' hr' => absurd hr'.symm (Option.some_ne_none r'))
      fun r' hr' => absurd hr'.symm (Option.some_ne_none r')
  | false =>
    cases hac : res.accept with
    | false =>
      simp only [World.answered, hoi, hac, Bool.false_eq_true, if_false]
      exact h.setRun p (fun r' hr' => absurd hr'.symm (Option.some_ne_none r'))
        fun r' hr' => absurd hr'.symm (Option.some_ne_none r')
    | true =>
      simp only [World.answered, hoi, hac, Bool.false_eq_true, if_false, if_true]
      have hpromise := hacc hoi hac
      rw [hn] at hpromise
      refine h.setRun p (fun r' hr' => ?_) fun r' hr' _ => ⟨r, hr, hprep⟩
      cases hr'
      refine hok.promised (hok.phase.promised hprep hpromise hac hkeeps fun hne => ?_)
      have hproposal := h.ghost.vote _ _ _ (hpromise.voted hne).1
      exact ⟨hproposal, (h.ghost.nonempty _ _ hproposal).2⟩

theorem Inv.accepted (h : Inv inst nodes w g) {p : String} {r : Run} {req : Request} {ok : Bool}
    (hr : (w.proposer p).run = some r) (hbody : req.body = r.body (w.proposer p).myN)
    (hanswer : AnswerOk nodes (votes inst w.acceptor g) req (.accepted ok)) :
    Inv inst nodes (w.answered p r req (.accepted ok)) g := by
  have hok := h.run p r hr
  obtain ⟨arg, harg, hvote⟩ := hanswer
  obtain ⟨hacc, hn, hv⟩ := Run.body_accept (hbody.symm.trans harg)
  cases ok with
  | false => exact h.advance hr
  | true =>
    refine h.setRun p (fun r' hr' => ?_) fun r' hr' hprep => ?_
    · cases hr'
      refine ⟨hok.inst, hok.cNodes, hok.cV, hok.ballot,
        fun req hreq => absurd hreq.symm (Option.some_ne_none req), ?_⟩
      have hphase := hok.phase
      simp only [PhaseOk, hacc] at hphase
      simp only [PhaseOk, if_true, Run.advance, hacc]
      refine ⟨hphase.1, fun t ht => ?_⟩
      rcases List.mem_append.mp ht with hold | hnew
      · exact hphase.2 t hold
      · rw [List.mem_singleton.mp hnew, ← hn, ← hv]
        exact hvote rfl
    · cases hr'
      exact ⟨r, hr, hprep⟩

theorem Inv.answered (h : Inv inst nodes w g) {p : String} {r : Run} {req : Request}
    {answer : Answer} (hr : (w.proposer p).run = some r)
    (hbody : req.body = r.body (w.proposer p).myN)
    (hanswer : AnswerOk nodes (votes inst w.acceptor g) req answer)
    (hkeeps : ∀ res, World.prepareRes answer = some res → World.KeepsLargest r res) :
    Inv inst nodes (w.answered p r req answer) g := by
  cases answer with
  | prepared res => exact h.prepared hr hbody hanswer (hkeeps res rfl)
  | accepted ok => exact h.accepted hr hbody hanswer
  | decided ok => exact h.advance hr

/-! ## A phase is over -/

/-- The proposal of a ballot. -/
def Ghost.propose (g : Ghost) (b : PropT) (v : String) : Ghost :=
  { g with proposal := Function.update g.proposal b (some v) }

theorem Ghost.propose_proposal (g : Ghost) (b : PropT) (v : String) (c : PropT) :
    (g.propose b v).proposal c = if c = b then some v else g.proposal c := by
  by_cases hc : c = b
  · subst hc
    simp [propose]
  · simp [propose, hc]

theorem PhaseOk.safe (h : GhostOk nodes (votes inst w.acceptor g) g) {b : PropT} {r : Run}
    (hphase : PhaseOk nodes (votes inst w.acceptor g) g b r) (hprep : r.phase = .prepare)
    (hmaj : majority nodes r.accepts = true) :
    (votes inst w.acceptor g).Safe (IsQuorum nodes) b r.v := by
  simp only [PhaseOk, hprep] at hphase
  obtain ⟨haccepts, hpick⟩ := hphase
  exact Votes.safe_of_promises (fun _ _ hQ hR => hQ.meet hR) h.vote h.safe
    (isQuorum_of_majority hmaj) (fun t ht => (haccepts t ht).1)
    (fun t ht => (haccepts t ht).2) fun k hk => (hpick.2 k hk).1

theorem GhostOk.propose (h : GhostOk nodes (votes inst w.acceptor g) g) {b : PropT} {v : String}
    (hnone : g.proposal b = none) (hv : v ≠ "") (hb : 0 < b.n)
    (hsafe : (votes inst w.acceptor g).Safe (IsQuorum nodes) b v) :
    GhostOk nodes (votes inst w.acceptor g) (g.propose b v) where
  vote := by
    intro p c u hu
    have hold := h.vote p c u hu
    rw [Ghost.propose_proposal]
    split
    · rename_i hc
      rw [hc, hnone] at hold
      cases hold
    · exact hold
  safe := by
    intro c u hu
    rw [Ghost.propose_proposal] at hu
    split at hu
    · rename_i hc
      cases hu
      exact hc ▸ hsafe
    · exact h.safe c u hu
  nonempty := by
    intro c u hu
    rw [Ghost.propose_proposal] at hu
    split at hu
    · rename_i hc
      cases hu
      exact ⟨hv, hc ▸ hb⟩
    · exact h.nonempty c u hu

theorem PickOk.v_ne (h : PickOk g r) (hcV : r.cV ≠ "")
    (hnonempty : ∀ b v, g.proposal b = some v → v ≠ "" ∧ 0 < b.n) : r.v ≠ "" := by
  cases hpick : r.pick with
  | none =>
    rw [(h.1 hpick).1]
    exact hcV
  | some k => exact (hnonempty k r.v (h.2 k hpick).1).1

theorem Inv.proposed (h : Inv inst nodes w g) {p : String} (hr : (w.proposer p).run = some r)
    (hout : r.outstanding = none) (hprep : r.phase = .prepare)
    (hmaj : majority nodes r.accepts = true) :
    Inv inst nodes (w.setRun p (some { r with
      phase := .accept, v := if r.v = "" then r.cV else r.v, todo := r.accepts, accepts := [] }))
      (g.propose (w.proposer p).myN r.v) := by
  have hok := h.run p r hr
  have hphase := hok.phase
  have hsafe := hphase.safe h.ghost hprep hmaj
  simp only [PhaseOk, hprep] at hphase
  have hv : r.v ≠ "" := hphase.2.v_ne hok.cV h.ghost.nonempty
  -- The proposer is in its prepare phase, so its ballot has no proposal yet.
  have hnone : g.proposal (w.proposer p).myN = none := by
    cases hprop : g.proposal (w.proposer p).myN with
    | none => rfl
    | some u =>
      have hfresh := (h.fresh _ u hprop).2 r
      rw [hok.ballot.1] at hfresh
      exact absurd (hfresh hr hprep) (UInt32.lt_irrefl _)
  have hmyN : ∀ run, ((w.setRun p run).proposer p).myN = (w.proposer p).myN := by
    intro run
    simp [World.setRun]
  refine h.of_run p rfl rfl (fun _ hrep => hrep) (fun q hq => w.setRun_proposer_ne _ hq) rfl ?_
    (h.ghost.propose hnone hv hok.ballot.2 hsafe) (fun _ hreq => Or.inl hreq) ?_ ?_ ?_
  · intro b v hb
    rw [Ghost.propose_proposal]
    split
    · rename_i heq
      rw [heq, hnone] at hb
      cases hb
    · exact hb
  · rw [hmyN, w.setRun_run_self]
    intro r' hr'
    cases hr'
    refine ⟨hok.inst, hok.cNodes, hok.cV, hok.ballot, fun req hreq => ?_, ?_, fun t ht => ?_⟩
    · rw [hout] at hreq
      cases hreq
    · rw [Ghost.propose_proposal, if_pos rfl, if_neg hv]
    · cases ht
  · intro b v hb hprop
    rw [Ghost.propose_proposal] at hprop
    split at hprop
    · rename_i heq
      rw [heq] at hb
      exact absurd hok.ballot.1 hb
    · exact hprop
  · rw [hmyN, w.setRun_run_self]
    intro b v hb hprop
    refine ⟨?_, fun r' hr' hprep' => ?_⟩
    · rw [Ghost.propose_proposal] at hprop
      split at hprop
      · rename_i heq
        rw [heq]
        exact UInt32.le_refl _
      · exact hb ▸ (h.fresh b v hprop).1
    · cases hr'
      cases hprep'

theorem Inv.chosen (h : Inv inst nodes w g) {p : String} (hr : (w.proposer p).run = some r)
    (hout : r.outstanding = none) (hacc : r.phase = .accept)
    (hmaj : majority nodes r.accepts = true) :
    Inv inst nodes (w.setRun p (some { r with phase := .decide, todo := r.accepts })) g := by
  have hok := h.run p r hr
  have hphase := hok.phase
  simp only [PhaseOk, hacc] at hphase
  refine h.setRun p (fun r' hr' => ?_) fun r' hr' hprep => ?_
  · cases hr'
    refine ⟨hok.inst, hok.cNodes, hok.cV, hok.ballot, fun req hreq => ?_,
      (w.proposer p).myN, fun x => x ∈ r.accepts, isQuorum_of_majority hmaj, hphase.2⟩
    rw [hout] at hreq
    cases hreq
  · cases hr'
    cases hprep

theorem Inv.finish (h : Inv inst nodes w g) {p : String} (hr : (w.proposer p).run = some r)
    (hout : r.outstanding = none) : ∃ g', Inv inst nodes (w.setRun p r.finish) g' := by
  have hcNodes := (h.run p r hr).cNodes
  have hstop : Inv inst nodes (w.setRun p none) g :=
    h.setRun p (fun r' hr' => absurd hr'.symm (Option.some_ne_none r'))
      fun r' hr' => absurd hr'.symm (Option.some_ne_none r')
  cases hphase : r.phase with
  | prepare =>
    simp only [Run.finish, hphase]
    split
    · rename_i hmaj
      exact ⟨_, h.proposed hr hout hphase (hcNodes ▸ hmaj)⟩
    · exact ⟨g, hstop⟩
  | accept =>
    simp only [Run.finish, hphase]
    split
    · rename_i hmaj
      exact ⟨g, h.chosen hr hout hphase (hcNodes ▸ hmaj)⟩
    · exact ⟨g, hstop⟩
  | decide =>
    simp only [Run.finish, hphase]
    exact ⟨g, hstop⟩

/-! ## The start -/

theorem Inv.of_starts (h : w.Starts inst) :
    Inv inst nodes w { vote := fun _ _ => none, proposal := fun _ => none } := by
  refine ⟨⟨?_, ?_, ?_⟩, fun p => ⟨?_, fun _ hne => ?_, fun hi => ?_⟩, ?_, ?_, fun p r hr => ?_, ?_,
    fun p v hv => ?_⟩
  · intro p b v hv
    cases hv
  · intro b v hv
    cases hv
  · intro b v hv
    cases hv
  · intro _ c v hv
    cases hv
  · exact absurd (h.acceptor p).vA hne
  · exact absurd hi (UInt32.not_le.mpr (h.acceptor p).lt)
  · intro req hreq
    rw [h.requests] at hreq
    cases hreq
  · intro reply hreply
    rw [h.replies] at hreply
    cases hreply
  · rw [h.run p] at hr
    cases hr
  · intro b v hv
    cases hv
  · rw [h.commits] at hv
    cases hv

end

end Paxos
end Frangipani

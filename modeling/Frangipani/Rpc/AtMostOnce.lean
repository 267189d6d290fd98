/-
Remote calls are run at most once.

A handler runs at most once for every call, whatever the network does.  But what a
call returns need not be what its handler returned.  A check that finds its
request in the list frees the acknowledged buffers and leaves the list as it was.
The next reply that is packed may reuse such a buffer, and a late duplicate of the
old request is then answered with it.  The same happens when a buffer is freed
between the time a worker stores or finds a reply and the time it sends it.

As long as no check frees a buffer that is still in use, a call that returns a
reply was run exactly once, on its own arguments, and returns what that run
produced.
-/
import Frangipani.Rpc.Stored

namespace Frangipani
namespace Rpc

open Transition

namespace World

/-! ## Where requests come from -/

/-- Every request comes from the client it names, and a number is used for one
request only. -/
structure Traffic (w : World) : Prop where
  nonce : ∀ n, (w.client n).cltNonce = n
  made : ∀ req ∈ w.made, req.xid ≠ 0 ∧ req.xid < (w.client req.cltNonce).xid
  unique : ∀ req ∈ w.made, ∀ req' ∈ w.made, req.key = req'.key → req = req'
  caller : ∀ n x ca, (w.client n).calls.find x = some ca → ca.req ∈ w.made ∧ ca.req.key = (n, x)
  requests : ∀ req ∈ w.requests, req ∈ w.made
  running : ∀ t req b, w.server.worker t = .running req b → req ∈ w.made
  executed : ∀ ex ∈ w.executions, ex.req ∈ w.made ∧ ex.rep.xid = ex.req.xid
  next : ∀ n, (w.client n).xid ≠ 0

namespace Traffic

variable {w v : World}

theorem of_client (h : w.Traffic) (n : Nonce) {c : Rpcc} (hnonce : c.cltNonce = n)
    (hxid : c.xid = (w.client n).xid)
    (hcalls : ∀ x ca, c.calls.find x = some ca → ∃ ca', (w.client n).calls.find x = some ca' ∧
      ca'.req = ca.req) : (w.setClient n c).Traffic := by
  have hsame : ∀ m, ((w.setClient n c).client m).xid = (w.client m).xid := by
    intro m
    rw [setClient_client]
    split
    · rename_i hm
      rw [hm, hxid]
    · rfl
  refine ⟨fun m => ?_, fun req hreq => ?_, h.unique, fun m x ca hca => ?_, h.requests, h.running,
    h.executed, fun m => ?_⟩
  · rw [setClient_client]
    split
    · rename_i hm
      exact hnonce.trans hm.symm
    · exact h.nonce m
  · rw [hsame]
    exact h.made req hreq
  · rw [setClient_client] at hca
    split at hca
    · rename_i hm
      obtain ⟨ca', hca', hreq⟩ := hcalls x ca hca
      rw [hm, ← hreq]
      exact h.caller n x ca' hca'
    · exact h.caller m x ca hca
  · rw [hsame]
    exact h.next m

theorem of_server (h : w.Traffic) (hclient : v.client = w.client) (hmade : v.made = w.made)
    (hrequests : ∀ req ∈ v.requests, req ∈ w.made)
    (hrunning : ∀ t req b, v.server.worker t = .running req b → req ∈ w.made)
    (hexecuted : ∀ ex ∈ v.executions, ex.req ∈ w.made ∧ ex.rep.xid = ex.req.xid) : v.Traffic where
  nonce := fun n => by rw [hclient]; exact h.nonce n
  made := fun req hreq => by rw [hclient]; exact h.made req (hmade ▸ hreq)
  unique := fun req hreq req' hreq' => h.unique req (hmade ▸ hreq) req' (hmade ▸ hreq')
  caller := fun n x ca hca => by
    rw [hmade]
    exact h.caller n x ca (hclient ▸ hca)
  requests := fun req hreq => hmade ▸ hrequests req hreq
  running := fun t req b ht => hmade ▸ hrunning t req b ht
  executed := fun ex hex => hmade ▸ hexecuted ex hex
  next := fun n => by rw [hclient]; exact h.next n

theorem request_key (h : w.Traffic) (n : Nonce) (proc : UInt32) (args : List UInt8) :
    ((w.client n).request proc args).key = (n, (w.client n).xid) := by
  show ((w.client n).cltNonce, (w.client n).xid) = _
  rw [h.nonce n]

/-- A new request has a larger number than the old ones of its client. -/
theorem request_fresh (h : w.Traffic) {n : Nonce} {proc : UInt32} {args : List UInt8}
    {req : Request} (hreq : req ∈ w.made) : req.key ≠ ((w.client n).request proc args).key := by
  intro heq
  rw [h.request_key] at heq
  obtain ⟨hn, hx⟩ := Prod.mk.inj heq
  have hlt := (h.made req hreq).2
  rw [hn, hx] at hlt
  exact UInt32.lt_irrefl _ hlt

theorem call (h : w.Traffic) {n : Nonce} {proc : UInt32} {args : List UInt8}
    (hwrap : (w.client n).xid + 1 ≠ 0) :
    Traffic { w.setClient n ((w.client n).called proc args) with
      made := (w.client n).request proc args :: w.made } := by
  have hsucc : (w.client n).xid < (w.client n).xid + 1 :=
    UInt32.lt_add_one fun hmax => hwrap (by rw [hmax]; rfl)
  refine ⟨fun m => ?_, fun req hreq => ?_, fun req hreq req' hreq' heq => ?_,
    fun m x ca hca => ?_, fun req hreq => List.mem_cons_of_mem _ (h.requests req hreq),
    fun t req b ht => List.mem_cons_of_mem _ (h.running t req b ht),
    fun ex hex => ⟨List.mem_cons_of_mem _ (h.executed ex hex).1, (h.executed ex hex).2⟩,
    fun m => ?_⟩
  · show ((w.setClient n _).client m).cltNonce = m
    rw [setClient_client]
    split
    · rename_i hm
      exact (h.nonce n).trans hm.symm
    · exact h.nonce m
  · show req.xid ≠ 0 ∧ req.xid < ((w.setClient n _).client req.cltNonce).xid
    rw [setClient_client]
    rcases List.mem_cons.mp hreq with rfl | hold
    · have hn : ((w.client n).request proc args).cltNonce = n := h.nonce n
      rw [if_pos hn]
      exact ⟨h.next n, hsucc⟩
    · refine ⟨(h.made req hold).1, ?_⟩
      split
      · rename_i hm
        exact UInt32.lt_trans (hm ▸ (h.made req hold).2) hsucc
      · exact (h.made req hold).2
  · rcases List.mem_cons.mp hreq with rfl | hold
    · rcases List.mem_cons.mp hreq' with rfl | hold'
      · rfl
      · exact absurd heq.symm (h.request_fresh hold')
    · rcases List.mem_cons.mp hreq' with rfl | hold'
      · exact absurd heq (h.request_fresh hold)
      · exact h.unique req hold req' hold' heq
  · replace hca :
        ((w.setClient n ((w.client n).called proc args)).client m).calls.find x = some ca := hca
    rw [setClient_client] at hca
    split at hca
    · rename_i hm
      rcases Rpcc.called_find hca with ⟨rfl, hreq, _⟩ | hold
      · rw [hreq, hm]
        exact ⟨List.mem_cons_self, h.request_key n proc args⟩
      · have hcaller := h.caller n x ca hold
        rw [hm]
        exact ⟨List.mem_cons_of_mem _ hcaller.1, hcaller.2⟩
    · have hcaller := h.caller m x ca hca
      exact ⟨List.mem_cons_of_mem _ hcaller.1, hcaller.2⟩
  · show ((w.setClient n _).client m).xid ≠ 0
    rw [setClient_client]
    split
    · exact hwrap
    · exact h.next m

theorem step {a : Action} (h : w.Traffic) (hstep : w.step a = some v) : v.Traffic := by
  cases step_cases hstep with
  | idle => exact h
  | call n proc args c hwrap hc =>
    cases Rpcc.call1_ok hc
    exact h.call hwrap
  | transmit n xid ca hca =>
    refine h.of_server rfl rfl (fun req hreq => ?_) h.running h.executed
    rcases List.mem_cons.mp hreq with rfl | hold
    · exact (h.caller n xid ca hca).1
    · exact h.requests req hold
  | gotPdu n k rep =>
    obtain ⟨hnonce, hxid, _⟩ := (w.client n).gotPdu_rest rep
    refine h.of_client n (hnonce.trans (h.nonce n)) hxid fun x ca hca => ?_
    rcases Rpcc.gotPdu_find hca with ⟨hold, _⟩ | ⟨_, old, hold, rfl⟩
    · exact ⟨ca, hold, rfl⟩
    · exact ⟨old, hold, rfl⟩
  | finish n xid =>
    have hfinish := h.of_client n (c := (w.client n).finish xid) (h.nonce n) rfl
      fun x ca hca => ⟨ca, (Rpcc.finish_find hca).2, rfl⟩
    exact hfinish.of_server rfl rfl hfinish.requests hfinish.running hfinish.executed
  | cancel n xid =>
    refine h.of_client n (h.nonce n) rfl fun x ca hca => ?_
    obtain ⟨old, hold, rfl⟩ := Rpcc.cancel_find hca
    exact ⟨old, hold, rfl⟩
  | bound n r => exact h.of_client n (h.nonce n) rfl fun x ca hca => ⟨ca, hca, rfl⟩
  | oldsrv t k b req => exact h.of_server rfl rfl h.requests h.running h.executed
  | new t k b req hreq =>
    refine h.of_server rfl rfl h.requests (fun u r d hu => ?_) h.executed
    rw [Rpcs.started_worker] at hu
    split at hu
    · cases hu
      exact h.requests req (List.mem_of_getElem? hreq)
    · exact h.running u r d hu
  | inprogress t k b req => exact h.of_server rfl rfl h.requests h.running h.executed
  | done t k b d req =>
    refine h.of_server rfl rfl h.requests (fun u r c hu => ?_) h.executed
    exact h.running u r c (Rpcs.worker_of_setWorker Worker.noConfusion hu).2
  | forgotten t k b req => exact h.of_server rfl rfl h.requests h.running h.executed
  | execute t req b rep hworker hxid =>
    refine h.of_server rfl rfl h.requests (fun u r d hu => ?_) fun ex hex => ?_
    · exact h.running u r d (Rpcs.worker_of_setWorker Worker.noConfusion hu).2
    · rcases List.mem_cons.mp hex with rfl | hold
      · exact ⟨h.running t req b hworker, hxid⟩
      · exact h.executed ex hold
  | addReply t req b l =>
    refine h.of_server rfl rfl h.requests (fun u r d hu => ?_) h.executed
    exact h.running u r d (Rpcs.worker_of_setWorker Worker.noConfusion hu).2
  | send t =>
    refine h.of_server rfl rfl h.requests (fun u r d hu => ?_) h.executed
    exact h.running u r d (Rpcs.worker_of_setWorker Worker.noConfusion hu).2

end Traffic

/-! ## Where replies come from -/

/-- A reply to the client is what a handler made for a call of the client, or a
failure of one of its calls. -/
def Origin (w : World) (n : Nonce) (rep : Reply) : Prop :=
  (rep.ret < 0 ∧ ∃ req ∈ w.made, req.key = (n, rep.xid)) ∨
    ∃ ex ∈ w.executions, ex.req.cltNonce = n ∧ ex.rep = rep

/-- What calls are given and return is what their handlers made. -/
structure Answers (w : World) : Prop where
  reply : ∀ n rep, (n, rep) ∈ w.replies → w.Origin n rep
  caller : ∀ n x ca, (w.client n).calls.find x = some ca → ca.done = true → 0 ≤ ca.intret →
    { req := ca.req, rep := { xid := x, ret := ca.intret, body := ca.rep } } ∈ w.executions
  returned : ∀ r ∈ w.returned, 0 ≤ r.ret →
    { req := r.req, rep := { xid := r.req.xid, ret := r.ret, body := r.body } } ∈ w.executions

theorem Origin.made {w : World} (htraffic : w.Traffic) {n : Nonce} {rep : Reply}
    (h : w.Origin n rep) : ∃ req ∈ w.made, req.key = (n, rep.xid) := by
  rcases h with ⟨_, hmade⟩ | ⟨ex, hex, rfl, rfl⟩
  · exact hmade
  · obtain ⟨hreq, hxid⟩ := htraffic.executed ex hex
    exact ⟨ex.req, hreq, by rw [hxid]; rfl⟩

theorem Origin.mono {w v : World} (hmade : ∀ req ∈ w.made, req ∈ v.made)
    (hexecutions : ∀ ex ∈ w.executions, ex ∈ v.executions) {n : Nonce} {rep : Reply}
    (h : w.Origin n rep) : v.Origin n rep := by
  rcases h with ⟨hret, req, hreq, hkey⟩ | ⟨ex, hex, hn⟩
  · exact Or.inl ⟨hret, req, hmade req hreq, hkey⟩
  · exact Or.inr ⟨ex, hexecutions ex hex, hn⟩

namespace Answers

variable {w v : World}

theorem of_server (h : w.Answers) (hclient : v.client = w.client) (hmade : v.made = w.made)
    (hreturned : v.returned = w.returned) (hexecutions : ∀ ex ∈ w.executions, ex ∈ v.executions)
    (hreplies : ∀ n rep, (n, rep) ∈ v.replies → (n, rep) ∈ w.replies ∨ v.Origin n rep) :
    v.Answers where
  reply := by
    intro n rep hrep
    rcases hreplies n rep hrep with hold | hnew
    · exact (h.reply n rep hold).mono (fun req hreq => hmade ▸ hreq) hexecutions
    · exact hnew
  caller := fun n x ca hca hdone hret =>
    hexecutions _ (h.caller n x ca (hclient ▸ hca) hdone hret)
  returned := fun r hr hret => hexecutions _ (h.returned r (hreturned ▸ hr) hret)

theorem of_client (h : w.Answers) (n : Nonce) {c : Rpcc}
    (hcalls : ∀ x ca, c.calls.find x = some ca → ca.done = true → 0 ≤ ca.intret →
      { req := ca.req, rep := { xid := x, ret := ca.intret, body := ca.rep } } ∈ w.executions) :
    (w.setClient n c).Answers where
  reply := h.reply
  caller := by
    intro m x ca hca
    by_cases hm : m = n
    · subst hm
      simp only [setClient, Function.update_self] at hca
      exact hcalls x ca hca
    · simp only [setClient, Function.update_of_ne hm] at hca
      exact h.caller m x ca hca
  returned := h.returned

theorem call (h : w.Answers) {n : Nonce} {proc : UInt32} {args : List UInt8} :
    Answers { w.setClient n ((w.client n).called proc args) with
      made := (w.client n).request proc args :: w.made } := by
  have hclient : (w.setClient n ((w.client n).called proc args)).Answers := by
    refine h.of_client n fun x ca hca hdone => ?_
    rcases Rpcc.called_find hca with ⟨_, _, hnot⟩ | hold
    · rw [hnot] at hdone
      cases hdone
    · exact h.caller n x ca hold hdone
  refine ⟨fun m rep hrep => ?_, hclient.caller, hclient.returned⟩
  refine Origin.mono ?_ ?_ (hclient.reply m rep hrep)
  · exact fun req hreq => List.mem_cons_of_mem _ hreq
  · exact fun ex hex => hex

theorem gotPdu (h : w.Answers) (htraffic : w.Traffic) {n : Nonce} {rep : Reply}
    (hrep : (n, rep) ∈ w.replies) : (w.setClient n ((w.client n).gotPdu rep)).Answers := by
  refine h.of_client n fun x ca hca hdone hret => ?_
  rcases Rpcc.gotPdu_find hca with ⟨hold, _⟩ | ⟨rfl, old, hold, rfl⟩
  · exact h.caller n x ca hold hdone hret
  · rcases h.reply n rep hrep with ⟨hneg, _⟩ | ⟨ex, hex, hn, hexrep⟩
    · exact absurd hret (Int.not_le.mpr hneg)
    · obtain ⟨hmade, hxid⟩ := htraffic.executed ex hex
      obtain ⟨hold_made, hold_key⟩ := htraffic.caller n rep.xid old hold
      have hsame : ex.req = old.req := by
        refine htraffic.unique _ hmade _ hold_made ?_
        rw [hold_key, ← hexrep, hxid, ← hn]
        rfl
      have hex' : ex = { req := old.req, rep := rep } := by rw [← hsame, ← hexrep]
      exact hex' ▸ hex

theorem finish (h : w.Answers) (htraffic : w.Traffic) {n : Nonce} {xid : UInt32} {ca : Caller}
    (hca : (w.client n).calls.find xid = some ca) :
    Answers { w.setClient n ((w.client n).finish xid) with
      returned := { req := ca.req, ret := ca.ret, body := ca.rep } :: w.returned } := by
  have hclient : (w.setClient n ((w.client n).finish xid)).Answers :=
    h.of_client n fun x d hd => h.caller n x d (Rpcc.finish_find hd).2
  refine ⟨hclient.reply, hclient.caller, fun r hr hret => ?_⟩
  rcases List.mem_cons.mp hr with rfl | hold
  · -- A call that timed out returns a negative number.
    have hdone : ca.done = true := by
      cases hd : ca.done with
      | true => rfl
      | false =>
        simp only [Caller.ret, hd, Bool.false_eq_true, if_false] at hret
        exact absurd hret (by decide)
    have hx : ca.req.xid = xid := (Prod.mk.inj (htraffic.caller n xid ca hca).2).2
    simp only [Caller.ret, hdone, if_true] at hret ⊢
    rw [hx]
    exact h.caller n xid ca hca hdone hret
  · exact h.returned r hold hret

theorem answered (h : w.Answers) (htraffic : w.Traffic) {req : Request} (hreq : req ∈ w.requests)
    {server : Rpcs} {ret : Int} (hret : ret < 0) : (w.answered req server ret).Answers := by
  refine h.of_server rfl rfl rfl (fun _ hex => hex) fun n rep hrep => ?_
  rcases List.mem_cons.mp hrep with heq | hold
  · cases heq
    exact Or.inr (Or.inl ⟨hret, req, htraffic.requests req hreq, rfl⟩)
  · exact Or.inl hold

theorem step {a : Action} (h : w.Answers) (htraffic : w.Traffic)
    (hstored : Stored w.server w.executions) (hstep : w.step a = some v) : v.Answers := by
  cases step_cases hstep with
  | idle => exact h
  | call n proc args c hwrap hc =>
    cases Rpcc.call1_ok hc
    exact h.call
  | transmit => exact ⟨h.reply, h.caller, h.returned⟩
  | gotPdu n k rep hrep => exact h.gotPdu htraffic (List.mem_of_getElem? hrep)
  | finish n xid ca hca => exact h.finish htraffic hca
  | cancel n xid =>
    refine h.of_client n fun x ca hca hdone hret => ?_
    obtain ⟨old, hold, rfl⟩ := Rpcc.cancel_find hca
    exact absurd hret (show ¬ (0 : Int) ≤ RpcConst.cancelFailure by decide)
  | bound n r => exact h.of_client n fun x ca hca => h.caller n x ca hca
  | oldsrv t k b req hreq =>
    exact h.answered htraffic (List.mem_of_getElem? hreq) (by decide)
  | new | inprogress | done =>
    exact h.of_server rfl rfl rfl (fun _ hex => hex) fun _ _ hrep => Or.inl hrep
  | forgotten t k b req hreq =>
    exact h.answered htraffic (List.mem_of_getElem? hreq) (by decide)
  | execute =>
    exact h.of_server rfl rfl rfl (fun _ hex => List.mem_cons_of_mem _ hex)
      fun _ _ hrep => Or.inl hrep
  | addReply => exact h.of_server rfl rfl rfl (fun _ hex => hex) fun _ _ hrep => Or.inl hrep
  | send t req b hworker =>
    refine h.of_server rfl rfl rfl (fun _ hex => hex) fun n rep hrep => ?_
    rcases List.mem_cons.mp hrep with heq | hold
    · cases heq
      obtain ⟨e, he, _, hb⟩ := hstored.sending t req b hworker
      obtain ⟨_, ex, hex, hkey, hcontent⟩ := hstored.entry _ e b he hb
      exact Or.inr (Or.inr ⟨ex, hex, (Prod.mk.inj hkey).1, hcontent.symm⟩)
    · exact Or.inl hold

end Answers

/-! ## The result -/

/-- All that is known of a state.  The buffers and replies are right as long as no
check has freed a buffer that was in use. -/
structure Inv (w : World) : Prop where
  traffic : w.Traffic
  once : Once w.server w.executions
  stored : Stored w.server w.executions
  answers : w.Answers

theorem new_traffic (nonce : UInt32) (procs : List UInt32) : (new nonce procs).Traffic where
  nonce := fun _ => rfl
  made := fun _ hreq => by cases hreq
  unique := fun _ hreq => by cases hreq
  caller := fun _ _ _ hca => by cases hca
  requests := fun _ hreq => by cases hreq
  running := fun _ _ _ ht => by cases ht
  executed := fun _ hex => by cases hex
  next := fun _ => by
    show (1 : UInt32) ≠ 0
    decide

theorem new_once (nonce : UInt32) (procs : List UInt32) :
    Once (new nonce procs).server (new nonce procs).executions where
  nodup := List.nodup_nil
  listed := fun _ hex => by cases hex
  running := fun _ _ _ ht => by cases ht
  unique := fun _ _ _ _ _ _ ht => by cases ht
  ran := fun _ _ _ ht => by cases ht

theorem new_stored (nonce : UInt32) (procs : List UInt32) :
    Stored (new nonce procs).server (new nonce procs).executions where
  entry := fun _ _ _ he => by cases he
  separate := fun _ _ _ _ _ he => by cases he
  owned := fun _ _ ht => by cases ht
  ran := fun _ _ _ ht => by cases ht
  sending := fun _ _ _ ht => by cases ht

theorem new_answers (nonce : UInt32) (procs : List UInt32) : (new nonce procs).Answers where
  reply := fun _ _ hrep => by cases hrep
  caller := fun _ _ _ hca => by cases hca
  returned := fun _ hr => by cases hr

theorem new_inv (nonce : UInt32) (procs : List UInt32) : (new nonce procs).Inv :=
  ⟨new_traffic nonce procs, new_once nonce procs, new_stored nonce procs, new_answers nonce procs⟩

theorem Inv.step {w v : World} {a : Action} (h : w.Inv) (hok : w.FreesUnused a)
    (hstep : w.step a = some v) : v.Inv where
  traffic := h.traffic.step hstep
  once := once_step h.once hstep
  stored := stored_step h.stored h.once hok hstep
  answers := h.answers.step h.traffic h.stored hstep

theorem inv_of_reachable {w : World} (h : system.ReachableWhile FreesUnused w) : w.Inv := by
  refine h.invariant (fun s hs => ?_) fun _ _ _ hs hok hstep => hs.step hok hstep
  obtain ⟨nonce, procs, rfl⟩ := hs
  exact new_inv nonce procs

/-- The runs of handlers for a call. -/
def runsOf (w : World) (n : Nonce) (xid : UInt32) : List Execution :=
  w.executions.filter fun ex => ex.req.key = (n, xid)

/-- A handler runs at most once for a call, and what a call returns is what the one
run of its handler on its request has produced. -/
structure AtMostOnce (w : World) : Prop where
  once : ∀ n xid, (w.runsOf n xid).length ≤ 1
  returned : ∀ r ∈ w.returned, 0 ≤ r.ret → w.runsOf r.req.cltNonce r.req.xid =
    [{ req := r.req, rep := { xid := r.req.xid, ret := r.ret, body := r.body } }]

theorem runsOf_length_le {w : World} (h : Once w.server w.executions) (n : Nonce) (xid : UInt32) :
    (w.runsOf n xid).length ≤ 1 := by
  have hcount := List.nodup_iff_count.mp h.nodup (n, xid)
  rw [List.count, List.countP_map, List.countP_eq_length_filter] at hcount
  refine Nat.le_trans (Nat.le_of_eq ?_) hcount
  unfold runsOf
  congr 1
  refine List.filter_congr fun ex _ => ?_
  show decide _ = (ex.req.key == (n, xid))
  rw [beq_eq_decide]

theorem runsOf_eq {w : World} (h : Once w.server w.executions) {ex : Execution}
    (hex : ex ∈ w.executions) : w.runsOf ex.req.cltNonce ex.req.xid = [ex] := by
  have hmem : ex ∈ w.runsOf ex.req.cltNonce ex.req.xid :=
    List.mem_filter.mpr ⟨hex, decide_eq_true rfl⟩
  have hlen := runsOf_length_le h ex.req.cltNonce ex.req.xid
  generalize w.runsOf ex.req.cltNonce ex.req.xid = l at hmem hlen ⊢
  match l, hmem, hlen with
  | [e], hmem, _ => rw [List.mem_singleton.mp hmem]

/-- Calls are run at most once, end to end, in every run in which no check frees a
buffer that is still in use. -/
theorem atMostOnce {w : World} (h : system.ReachableWhile FreesUnused w) : w.AtMostOnce := by
  have hinv := inv_of_reachable h
  refine ⟨runsOf_length_le hinv.once, fun r hr hret => ?_⟩
  exact runsOf_eq hinv.once (hinv.answers.returned r hr hret)

theorem runsOf_length_le_of_reachable {w : World} (h : system.Reachable w) (n : Nonce)
    (xid : UInt32) : (w.runsOf n xid).length ≤ 1 := by
  refine runsOf_length_le (h.invariant (P := fun w => Once w.server w.executions) ?_ ?_) n xid
  · rintro s ⟨nonce, procs, rfl⟩
    exact new_once nonce procs
  · exact fun _ _ _ hs hstep => once_step hs hstep

/-! ## Runs -/

def one : Nonce := ⟨1, by decide⟩

def two : Nonce := ⟨2, by decide⟩

/-- A call goes through without trouble.  The worker `t` serves it with the buffer
`b`, and the handler returns 0 and the body. -/
def roundTrip (n : Nonce) (xid proc : UInt32) (args : List UInt8) (t : Fin poolSize) (b : Nat)
    (body : List UInt8) : List Action :=
  [.call n proc args, .transmit n xid, .dispatch t 0 b, .execute t 0 body, .addReply t, .send t,
    .gotPdu n 0, .finish n xid]

/-- The first call of a client is `bind`. -/
def bindTo (n : Nonce) (t : Fin poolSize) (b : Nat) : List Action :=
  roundTrip n 1 RpcConst.bind [] t b [9] ++ [.bound n 9]

/-- The server that the runs below start with.  It has one procedure besides
`bind`. -/
def fresh : World := new 9 [RpcConst.bind, 2]

theorem fresh_init : system.init fresh := ⟨9, [RpcConst.bind, 2], rfl⟩

/-- The request arrives three times: as a new one, while its handler runs, and
after the reply is stored, which is then sent again. -/
def duplicates : List Action :=
  .flatten [bindTo one 0 0,
    [.call one 2 [20], .transmit one 2, .dispatch 0 0 1, .dispatch 1 0 2, .execute 0 0 [21],
      .addReply 0, .send 0, .dispatch 1 0 2, .send 1, .gotPdu one 0, .finish one 2]]

theorem atMostOnce_duplicates :
    ∃ w, system.ReachableWhile FreesUnused w ∧
      w.returned.map (fun r => (r.req.args, r.ret, r.body)) = [([20], 0, [21]), ([], 0, [9])] ∧
      w.AtMostOnce := by
  have hreach : system.ReachableWhile FreesUnused (system.final fresh duplicates) :=
    System.ReachableWhile.final duplicates (.init fresh_init) (by decide +kernel)
      (by decide +kernel)
  refine ⟨_, hreach, ?_, atMostOnce hreach⟩
  decide +kernel

/-- Client 1 gives up on its call 2 and makes call 3.  The handler of call 2 ends
and its reply is stored.  A duplicate of request 3 acknowledges call 2 and frees
the buffer, but the list still points to it. -/
def dangling : List Action :=
  .flatten [bindTo one 0 10,
    [.call one 2 [20], .transmit one 2, .dispatch 0 0 0, .finish one 2, .call one 2 [30],
      .transmit one 3, .dispatch 1 0 1, .execute 0 0 [21], .addReply 0, .send 0,
      .dispatch 2 0 2]]

/-- Call 3 of client 2 gets the freed buffer for its reply.  A late duplicate of
request 2 of client 1 is then answered with that reply, and client 1 takes it for
the reply to its own call 3, whose handler has not run. -/
def strayReply : List Action :=
  .flatten [dangling, bindTo two 2 11, roundTrip two 2 2 [40] 2 12 [41],
    [.call two 2 [50], .transmit two 3, .dispatch 2 0 0, .execute 2 0 [51], .dispatch 3 4 13,
      .send 3, .gotPdu one 0, .finish one 3]]

theorem strayReply_not_atMostOnce :
    ∃ w, system.Reachable w ∧ w.returned.head? = some
        { req := { xid := 3, proc := 2, cltNonce := one, srvNonce := 9, xidRep := 2, args := [30] }
          ret := 0
          body := [51] } ∧
      w.runsOf one 3 = [] ∧ ¬ w.AtMostOnce := by
  have hreach : system.Reachable (system.final fresh strayReply) :=
    System.Reachable.final strayReply (.init fresh_init) (by decide +kernel)
  have hhead : (system.final fresh strayReply).returned.head? = some
      { req := { xid := 3, proc := 2, cltNonce := one, srvNonce := 9, xidRep := 2, args := [30] }
        ret := 0
        body := [51] } := by decide +kernel
  have hruns : (system.final fresh strayReply).runsOf one 3 = [] := by decide +kernel
  generalize system.final fresh strayReply = w at hreach hhead hruns
  refine ⟨w, hreach, hhead, hruns, fun h => ?_⟩
  have hone := h.returned _ (List.mem_of_mem_head? hhead) (Int.le_refl 0)
  rw [hruns] at hone
  cases hone

end World

end Rpc
end Frangipani

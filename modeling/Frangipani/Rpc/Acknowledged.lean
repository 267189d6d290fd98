/-
A reply is kept while its call is pending.

Every request tells the server that the calls up to some number are over, and the
server drops their replies.  The client takes this number from the front of its
window, and a number gets into the window when its call returns or a reply to it
arrives.  When only replies to the client's own calls arrive, all numbers up to
the front belong to calls that are over.

A reply of another client, which the server sends when it has freed a buffer too
early, may carry a number that the client has not used yet.  The call that gets
this number later acknowledges itself.
-/
import Frangipani.Rpc.AtMostOnce

namespace Frangipani
namespace Rpc

open Transition

/-- The number belongs to a call that is over or has its reply. -/
def Over (c : Rpcc) (y : UInt32) : Prop :=
  y = 0 ∨ (y < c.xid ∧ ∀ ca, c.calls.find y = some ca → ca.done = true)

namespace World

/-- Every number that is acknowledged belongs to a call that is over. -/
structure Acknowledges (w : World) : Prop where
  window : ∀ n, Acked (Over (w.client n)) (w.client n).xidRepWindow.xids
  xidRep : ∀ req ∈ w.made, req.xidRep ≤ (w.client req.cltNonce).xidRepWindow.front

namespace Acknowledges

variable {w v : World}

theorem of_client (h : w.Acknowledges) (n : Nonce) {c : Rpcc}
    (hwindow : Acked (Over c) c.xidRepWindow.xids)
    (hfront : (w.client n).xidRepWindow.front ≤ c.xidRepWindow.front) :
    (w.setClient n c).Acknowledges := by
  refine ⟨fun m => ?_, fun req hreq => ?_⟩
  · by_cases hm : m = n
    · subst hm
      simp only [setClient, Function.update_self]
      exact hwindow
    · simp only [setClient, Function.update_of_ne hm]
      exact h.window m
  · by_cases hm : req.cltNonce = n
    · subst hm
      simp only [setClient, Function.update_self]
      exact UInt32.le_trans (h.xidRep req hreq) hfront
    · simp only [setClient, Function.update_of_ne hm]
      exact h.xidRep req hreq

theorem call (h : w.Acknowledges) (htraffic : w.Traffic) {n : Nonce} {proc : UInt32}
    {args : List UInt8} (hwrap : (w.client n).xid + 1 ≠ 0) :
    Acknowledges { w.setClient n ((w.client n).called proc args) with
      made := (w.client n).request proc args :: w.made } := by
  have hsucc : (w.client n).xid < (w.client n).xid + 1 :=
    UInt32.lt_add_one fun hmax => hwrap (by rw [hmax]; rfl)
  have hclient : (w.setClient n ((w.client n).called proc args)).Acknowledges := by
    refine h.of_client n ((h.window n).mono fun y hy => ?_) (UInt32.le_refl _)
    rcases hy with hzero | ⟨hlt, hdone⟩
    · exact Or.inl hzero
    · refine Or.inr ⟨UInt32.lt_trans hlt hsucc, fun ca hca => ?_⟩
      rcases Rpcc.called_find hca with ⟨hy, _⟩ | hold
      · exact absurd hlt (hy ▸ UInt32.lt_irrefl _)
      · exact hdone ca hold
  refine ⟨hclient.window, fun req hreq => ?_⟩
  rcases List.mem_cons.mp hreq with rfl | hold
  · have hn : ((w.client n).request proc args).cltNonce = n := htraffic.nonce n
    rw [hn]
    simp only [setClient, Function.update_self]
    exact UInt32.le_refl _
  · exact hclient.xidRep req hold

theorem gotPdu (h : w.Acknowledges) (htraffic : w.Traffic) {n : Nonce} {rep : Reply}
    (horigin : w.Origin n rep) : (w.setClient n ((w.client n).gotPdu rep)).Acknowledges := by
  obtain ⟨_, hxid, hwindow⟩ := (w.client n).gotPdu_rest rep
  obtain ⟨req, hreq, hkey⟩ := horigin.made htraffic
  obtain ⟨hn, hx⟩ := Prod.mk.inj hkey
  have hlt : rep.xid < (w.client n).xid := hn ▸ hx ▸ (htraffic.made req hreq).2
  have hmono : ∀ y, Over (w.client n) y → Over ((w.client n).gotPdu rep) y := by
    intro y hy
    rcases hy with hzero | ⟨hy, hdone⟩
    · exact Or.inl hzero
    · refine Or.inr ⟨hxid ▸ hy, fun ca hca => ?_⟩
      rcases Rpcc.gotPdu_find hca with ⟨hold, _⟩ | ⟨_, old, _, rfl⟩
      · exact hdone ca hold
      · rfl
  have hover : Over ((w.client n).gotPdu rep) rep.xid := by
    refine Or.inr ⟨hxid ▸ hlt, fun ca hca => ?_⟩
    rcases Rpcc.gotPdu_find hca with ⟨_, hdone⟩ | ⟨_, old, _, rfl⟩
    · exact hdone rfl
    · rfl
  refine h.of_client n ?_ ?_
  · rw [hwindow]
    exact Window.acked_updateXidRep ((h.window n).mono hmono) hover
  · rw [hwindow]
    exact Window.front_le_updateXidRep _ _

theorem finish (h : w.Acknowledges) (htraffic : w.Traffic) {n : Nonce} {xid : UInt32} {ca : Caller}
    (hca : (w.client n).calls.find xid = some ca) :
    (w.setClient n ((w.client n).finish xid)).Acknowledges := by
  obtain ⟨hmade, hkey⟩ := htraffic.caller n xid ca hca
  obtain ⟨hn, hx⟩ := Prod.mk.inj hkey
  have hlt : xid < (w.client n).xid := hn ▸ hx ▸ (htraffic.made ca.req hmade).2
  refine h.of_client n (Window.acked_updateXidRep ((h.window n).mono fun y hy => ?_) ?_)
    (Window.front_le_updateXidRep _ _)
  · rcases hy with hzero | ⟨hy, hdone⟩
    · exact Or.inl hzero
    · exact Or.inr ⟨hy, fun d hd => hdone d (Rpcc.finish_find hd).2⟩
  · exact Or.inr ⟨hlt, fun d hd => absurd rfl (Rpcc.finish_find hd).1⟩

theorem step {a : Action} (h : w.Acknowledges) (htraffic : w.Traffic) (hanswers : w.Answers)
    (hstep : w.step a = some v) : v.Acknowledges := by
  cases step_cases hstep with
  | idle => exact h
  | call n proc args c hwrap hc =>
    cases Rpcc.call1_ok hc
    exact h.call htraffic hwrap
  | transmit => exact ⟨h.window, h.xidRep⟩
  | gotPdu n k rep hrep =>
    exact h.gotPdu htraffic (hanswers.reply n rep (List.mem_of_getElem? hrep))
  | finish n xid ca hca =>
    have hfinish := h.finish htraffic hca
    exact ⟨hfinish.window, hfinish.xidRep⟩
  | cancel n xid =>
    refine h.of_client n ((h.window n).mono fun y hy => ?_) (UInt32.le_refl _)
    rcases hy with hzero | ⟨hlt, _⟩
    · exact Or.inl hzero
    · refine Or.inr ⟨hlt, fun ca hca => ?_⟩
      obtain ⟨old, _, rfl⟩ := Rpcc.cancel_find hca
      rfl
  | bound n r => exact h.of_client n (h.window n) (UInt32.le_refl _)
  | oldsrv | new | inprogress | done | forgotten | execute | addReply | send =>
    exact ⟨h.window, h.xidRep⟩

theorem xidRep_lt (h : w.Acknowledges) (htraffic : w.Traffic) {n : Nonce} {x : UInt32}
    {ca : Caller} (hca : (w.client n).calls.find x = some ca) (hpending : ca.done = false)
    {req : Request} (hreq : req ∈ w.made) (hn : req.cltNonce = n) : req.xidRep < x := by
  obtain ⟨hmade, hkey⟩ := htraffic.caller n x ca hca
  refine UInt32.not_le.mp fun hle => ?_
  have hfront : x ≤ (w.client n).xidRepWindow.front :=
    UInt32.le_trans hle (hn ▸ h.xidRep req hreq)
  rcases Window.acked_below (h.window n) hfront with hzero | ⟨_, hdone⟩
  · have hx : ca.req.xid = x := (Prod.mk.inj hkey).2
    exact (htraffic.made ca.req hmade).1 (hx.trans hzero)
  · rw [hdone ca hca] at hpending
    cases hpending

end Acknowledges

/-! ## The result -/

/-- No request acknowledges the call `x` of the client.  No request that is under
way makes the server drop its reply, and its own request, sent again, is new, in
progress, or answered with the reply that its handler made. -/
structure ReplyKept (w : World) (n : Nonce) (x : UInt32) : Prop where
  xidRep : ∀ req ∈ w.requests, req.cltNonce = n → req.xidRep < x
  kept : ∀ req ∈ w.requests, ∀ e ∈ w.server.replyWindow n, e.xid = x →
    e ∈ (w.server.checked req).replyWindow n ∧
      ∀ b, e.buf = some b → (w.server.checked req).heap.live b = true
  stat : ∀ req ∈ w.requests, req.key = (n, x) →
    w.server.stat req = .new ∨ w.server.stat req = .inprogress ∨
      ∃ b, w.server.stat req = .done b ∧ w.server.heap.live b = true ∧
        { req := req, rep := w.server.heap.content b } ∈ w.executions

/-- Every call that waits for its reply has it kept. -/
def RepliesKept (w : World) : Prop :=
  ∀ n x ca, (w.client n).calls.find x = some ca → ca.done = false → w.ReplyKept n x

/-- A request that does not acknowledge a call leaves its entry and buffer alone. -/
theorem Inv.entry_kept {w : World} (h : w.Inv) {req : Request} {n : Nonce} {e : ReplyT}
    (he : e ∈ w.server.replyWindow n) (hlt : req.cltNonce = n → req.xidRep < e.xid) :
    e ∈ (w.server.checked req).replyWindow n ∧
      ∀ b, e.buf = some b → (w.server.checked req).heap.live b = true := by
  refine ⟨?_, fun b hb => ?_⟩
  · by_cases hn : n = req.cltNonce
    · subst hn
      by_cases hnew : w.server.stat req = .new
      · rw [(Rpcs.stat_new hnew).2]
        exact List.mem_append_left _ (List.mem_map.mpr ⟨e, he, ReplyT.drop_of_lt (hlt rfl)⟩)
      · rw [Rpcs.checked_old hnew]
        exact he
    · rw [Rpcs.checked_replyWindow_ne hn]
      exact he
  · refine Memory.Heap.freeAll_live (h.stored.entry n e b he hb).1 fun hfreed => ?_
    obtain ⟨f, hf, hle, hfb⟩ := mem_freed.mp hfreed
    obtain ⟨hn, hxid⟩ := h.stored.separate n req.cltNonce e f b he hf hb hfb
    exact UInt32.not_le.mpr (hlt hn.symm) (hxid ▸ hle)

/-- A request that does not acknowledge its own call is not forgotten. -/
theorem Inv.stat_cases {w : World} (h : w.Inv) {req : Request} (hreq : req ∈ w.requests)
    (hlt : req.xidRep < req.xid) :
    w.server.stat req = .new ∨ w.server.stat req = .inprogress ∨
      ∃ b, w.server.stat req = .done b ∧ w.server.heap.live b = true ∧
        { req := req, rep := w.server.heap.content b } ∈ w.executions := by
  cases hstat : w.server.stat req with
  | new => exact Or.inl rfl
  | inprogress => exact Or.inr (Or.inl rfl)
  | done b =>
    obtain ⟨e, he, hxid, hb⟩ := Rpcs.stat_done hstat
    obtain ⟨hlive, ex, hex, hkey, hcontent⟩ := h.stored.entry _ e b he hb
    have hsame : ex.req = req := by
      refine h.traffic.unique _ (h.traffic.executed ex hex).1 _ (h.traffic.requests req hreq) ?_
      rw [hkey, hxid]
      rfl
    have hrun : ex = { req := req, rep := w.server.heap.content b } := by
      rw [hcontent, ← hsame]
    exact Or.inr (Or.inr ⟨b, rfl, hlive, hrun ▸ hex⟩)
  | forgotten => exact absurd (Rpcs.stat_forgotten hstat) (UInt32.not_le.mpr hlt)

/-- A reply is kept while its call is pending, in every run in which no check frees
a buffer that is still in use. -/
theorem repliesKept {w : World} (h : system.ReachableWhile FreesUnused w) : w.RepliesKept := by
  have hboth : w.Inv ∧ w.Acknowledges := by
    refine h.invariant (P := fun w => w.Inv ∧ w.Acknowledges) ?_ ?_
    · rintro s ⟨nonce, procs, rfl⟩
      refine ⟨new_inv nonce procs, fun n => ⟨fun y hy => ?_, fun f hf y hy => ?_⟩,
        fun req hreq => ?_⟩
      · exact Or.inl (List.mem_singleton.mp hy)
      · cases hf
        exact Or.inl (UInt32.le_zero_iff.mp hy)
      · cases hreq
    · rintro s a t ⟨hinv, hack⟩ hok hstep
      exact ⟨hinv.step hok hstep, hack.step hinv.traffic hinv.answers hstep⟩
  obtain ⟨hinv, hack⟩ := hboth
  intro n x ca hca hpending
  have hlt : ∀ req ∈ w.requests, req.cltNonce = n → req.xidRep < x := fun req hreq hn =>
    hack.xidRep_lt hinv.traffic hca hpending (hinv.traffic.requests req hreq) hn
  refine ⟨hlt, fun req hreq e he hx => ?_, fun req hreq hkey => ?_⟩
  · exact hinv.entry_kept he fun hn => hx ▸ hlt req hreq hn
  · obtain ⟨hn, hx⟩ := Prod.mk.inj hkey
    exact hinv.stat_cases hreq (hx ▸ hlt req hreq hn)

/-- The reply of call 2 is stored and on its way. -/
def replyStored : List Action :=
  .flatten [bindTo one 0 0,
    [.call one 2 [20], .transmit one 2, .dispatch 0 0 1, .execute 0 0 [21], .addReply 0, .send 0]]

theorem repliesKept_replyStored :
    ∃ w, system.ReachableWhile FreesUnused w ∧
      ((w.client one).calls.find 2).map (fun ca => ca.done) = some false ∧
      w.requests.head?.map w.server.stat = some (.done 1) ∧ w.RepliesKept := by
  have hreach : system.ReachableWhile FreesUnused (system.final fresh replyStored) :=
    System.ReachableWhile.final replyStored (.init fresh_init) (by decide +kernel)
      (by decide +kernel)
  refine ⟨_, hreach, ?_, ?_, repliesKept hreach⟩
  · decide +kernel
  · decide +kernel

/-- Call 4 of client 2 gets the freed buffer for its reply, and a late duplicate of
request 2 of client 1 is answered with that reply.  Client 1 enters the number 4
into its window.  When its call 3 returns, the front is 4, and call 4 acknowledges
itself. -/
def strayAck : List Action :=
  .flatten [dangling, bindTo two 2 11, roundTrip two 2 2 [40] 2 12 [41],
    roundTrip two 3 2 [50] 2 14 [51],
    [.call two 2 [60], .transmit two 4, .dispatch 2 0 0, .execute 2 0 [61], .dispatch 3 5 13,
      .send 3, .gotPdu one 0, .execute 1 0 [31], .addReply 1, .send 1, .gotPdu one 0,
      .finish one 3, .call one 2 [70], .transmit one 4, .dispatch 1 0 15]]

theorem strayAck_not_repliesKept :
    ∃ w, system.Reachable w ∧
      ((w.client one).calls.find 4).map (fun ca => ca.done) = some false ∧
      w.requests.head? = some
        { xid := 4, proc := 2, cltNonce := one, srvNonce := 9, xidRep := 4, args := [70] } ∧
      w.requests.head?.map w.server.stat = some .forgotten ∧ ¬ w.RepliesKept := by
  have hreach : system.Reachable (system.final fresh strayAck) :=
    System.Reachable.final strayAck (.init fresh_init) (by decide +kernel)
  have hpending : ((((system.final fresh strayAck).client one).calls.find 4).map
      fun ca => ca.done) = some false := by decide +kernel
  have hsent : (system.final fresh strayAck).requests.head? = some
      { xid := 4, proc := 2, cltNonce := one, srvNonce := 9, xidRep := 4, args := [70] } := by
    decide +kernel
  have hstat : (system.final fresh strayAck).requests.head?.map
      (system.final fresh strayAck).server.stat = some .forgotten := by decide +kernel
  generalize system.final fresh strayAck = w at hreach hpending hsent hstat
  refine ⟨w, hreach, hpending, hsent, hstat, fun h => ?_⟩
  obtain ⟨ca, hca, hdone⟩ := Option.map_eq_some_iff.mp hpending
  have hlt := (h one 4 ca hca hdone).xidRep _ (List.mem_of_mem_head? hsent) rfl
  exact UInt32.lt_irrefl 4 hlt

end World

end Rpc
end Frangipani

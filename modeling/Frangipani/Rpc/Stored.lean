/-
What the server runs and what it stores.

`Once` holds in every run: the calls whose handler has run are different, because
a call that was ever new stays in the list of its client.

`Stored` says that the buffers in the lists and those that workers hold are live,
different, and filled with the reply of the call they stand for.  A check keeps it
as long as it frees no buffer that is still in use: none that the stored list goes
on pointing to, and none that a worker has still to send.
-/
import Frangipani.Rpc.Network

namespace Frangipani
namespace Rpc

/-- A call is known by its client and its number. -/
def Request.key (req : Request) : Nonce × UInt32 := (req.cltNonce, req.xid)

/-- No handler runs twice for a call. -/
structure Once (s : Rpcs) (executions : List Execution) : Prop where
  nodup : (executions.map fun ex => ex.req.key).Nodup
  listed : ∀ ex ∈ executions, Listed (s.replyWindow ex.req.cltNonce) ex.req.xid
  running : ∀ t req b, s.worker t = .running req b →
    Listed (s.replyWindow req.cltNonce) req.xid ∧ req.key ∉ executions.map fun ex => ex.req.key
  unique : ∀ t u req req' b b', s.worker t = .running req b → s.worker u = .running req' b' →
    req.key = req'.key → t = u
  ran : ∀ t req b, s.worker t = .ran req b → Listed (s.replyWindow req.cltNonce) req.xid

namespace Once

variable {s s' : Rpcs} {executions : List Execution} {t : Fin poolSize} {req : Request} {b : Nat}

theorem frame (h : Once s executions)
    (hlisted : ∀ n x, Listed (s.replyWindow n) x → Listed (s'.replyWindow n) x)
    (hrunning : ∀ t req b, s'.worker t = .running req b → s.worker t = .running req b)
    (hran : ∀ t req b, s'.worker t = .ran req b → s.worker t = .ran req b) :
    Once s' executions where
  nodup := h.nodup
  listed := fun ex hex => hlisted _ _ (h.listed ex hex)
  running := fun t req b ht =>
    ⟨hlisted _ _ (h.running t req b (hrunning t req b ht)).1,
      (h.running t req b (hrunning t req b ht)).2⟩
  unique := fun t u req req' b b' ht hu =>
    h.unique t u req req' b b' (hrunning t req b ht) (hrunning u req' b' hu)
  ran := fun t req b ht => hlisted _ _ (h.ran t req b (hran t req b ht))

theorem setWorker (h : Once s executions) {wk : Worker}
    (hwk : wk = .idle ∨ ∃ r d, wk = .sending r d) : Once (s.setWorker t wk) executions := by
  refine h.frame (fun _ _ hx => hx) (fun u r d hu => ?_) fun u r d hu => ?_
  · refine (Rpcs.worker_of_setWorker ?_ hu).2
    rcases hwk with rfl | ⟨_, _, rfl⟩
    · exact Worker.noConfusion
    · exact Worker.noConfusion
  · refine (Rpcs.worker_of_setWorker ?_ hu).2
    rcases hwk with rfl | ⟨_, _, rfl⟩
    · exact Worker.noConfusion
    · exact Worker.noConfusion

theorem checked (h : Once s executions) (req : Request) : Once (s.checked req) executions :=
  h.frame (fun _ _ hx => Rpcs.listed_checked hx) (fun _ _ _ ht => ht) fun _ _ _ ht => ht

/-- A new call has not been run, since it is in no list. -/
theorem started (h : Once s executions) (hnew : s.stat req = .new) :
    Once (s.started t req b) executions := by
  obtain ⟨hnot, hlist⟩ := Rpcs.stat_new hnew
  have hfresh : req.key ∉ executions.map fun ex => ex.req.key := by
    intro hmem
    obtain ⟨ex, hex, hkey⟩ := List.mem_map.mp hmem
    obtain ⟨hn, hx⟩ := Prod.mk.inj hkey
    exact hnot (hn ▸ hx ▸ h.listed ex hex)
  have hother : ∀ u req' b', s.worker u = .running req' b' → req.key ≠ req'.key := by
    intro u req' b' hu hkey
    obtain ⟨hn, hx⟩ := Prod.mk.inj hkey
    exact hnot (hn ▸ hx ▸ (h.running u req' b' hu).1)
  refine ⟨h.nodup, fun ex hex => Rpcs.listed_checked (h.listed ex hex), fun u r d hu => ?_,
    fun u v r r' d d' hu hv hkey => ?_, fun u r d hu => ?_⟩
  · rw [Rpcs.started_worker] at hu
    split at hu
    · cases hu
      refine ⟨?_, hfresh⟩
      show Listed ((s.checked req).replyWindow req.cltNonce) req.xid
      rw [hlist]
      exact ⟨_, List.mem_append_right _ List.mem_cons_self, rfl⟩
    · exact ⟨Rpcs.listed_checked (h.running u r d hu).1, (h.running u r d hu).2⟩
  · rw [Rpcs.started_worker] at hu hv
    split at hu
    · rename_i hut
      split at hv
      · rename_i hvt
        exact hut.trans hvt.symm
      · cases hu
        exact absurd hkey (hother v r' d' hv)
    · split at hv
      · cases hv
        exact absurd hkey.symm (hother u r d hu)
      · exact h.unique u v r r' d d' hu hv hkey
  · rw [Rpcs.started_worker] at hu
    split at hu
    · cases hu
    · exact Rpcs.listed_checked (h.ran u r d hu)

theorem handled (h : Once s executions) (ht : s.worker t = .running req b) (rep : Reply) :
    Once (s.handled t req b rep) ({ req := req, rep := rep } :: executions) := by
  refine ⟨?_, fun ex hex => ?_, fun u r d hu => ?_, fun u v r r' d d' hu hv hkey => ?_,
    fun u r d hu => ?_⟩
  · rw [List.map_cons]
    exact List.nodup_cons.mpr ⟨(h.running t req b ht).2, h.nodup⟩
  · rcases List.mem_cons.mp hex with rfl | hex
    · exact (h.running t req b ht).1
    · exact h.listed ex hex
  · rw [Rpcs.handled_worker] at hu
    split at hu
    · cases hu
    · rename_i hut
      refine ⟨(h.running u r d hu).1, ?_⟩
      rw [List.map_cons]
      refine fun hmem => (List.mem_cons.mp hmem).elim (fun hkey => ?_) (h.running u r d hu).2
      exact hut (h.unique u t r req d b hu ht hkey)
  · rw [Rpcs.handled_worker] at hu hv
    split at hu
    · cases hu
    · split at hv
      · cases hv
      · exact h.unique u v r r' d d' hu hv hkey
  · rw [Rpcs.handled_worker] at hu
    split at hu
    · cases hu
      exact (h.running t req b ht).1
    · exact h.ran u r d hu

theorem replied (h : Once s executions) {l : List ReplyT}
    (hadded : Added req.xid b (s.replyWindow req.cltNonce) l) :
    Once (s.replied t req b l) executions := by
  refine (h.setWorker (t := t) (Or.inr ⟨req, b, rfl⟩)).frame (fun n x hx => ?_) (fun _ _ _ hu => hu)
    fun _ _ _ hu => hu
  by_cases hn : n = req.cltNonce
  · subst hn
    rw [Rpcs.replied_replyWindow_self]
    exact hadded.listed x hx
  · rw [Rpcs.replied_replyWindow_ne s t b l hn]
    exact hx

end Once

theorem World.once_step {w v : World} {a : Action} (h : Once w.server w.executions)
    (hstep : w.step a = some v) : Once v.server v.executions := by
  cases World.step_cases hstep with
  | idle | call | transmit | gotPdu | finish | cancel | bound | oldsrv => exact h
  | new t k b req _ _ _ _ hstat => exact h.started hstat
  | inprogress t k b req => exact h.checked req
  | done t k b d req => exact (h.checked req).setWorker (Or.inr ⟨req, d, rfl⟩)
  | forgotten t k b req => exact h.checked req
  | execute t req b rep hworker => exact h.handled hworker rep
  | addReply t req b l _ hl => exact h.replied (added_addReply hl)
  | send t => exact h.setWorker (Or.inl rfl)

/-! ## The buffers -/

/-- The check of the request frees no buffer that is in use afterwards.  The call
is not in the list, so that the list without the freed buffers is stored, or nothing
is freed, and no worker has yet to send what is freed. -/
def Rpcs.FreesUnused (s : Rpcs) (req : Request) : Prop :=
  (¬ Listed (s.replyWindow req.cltNonce) req.xid ∨
      freed (s.replyWindow req.cltNonce) req.xidRep = []) ∧
    ∀ t, ∀ b ∈ (s.worker t).sends, b ∉ freed (s.replyWindow req.cltNonce) req.xidRep

instance (s : Rpcs) (req : Request) : Decidable (s.FreesUnused req) :=
  inferInstanceAs (Decidable ((_ ∨ _) ∧ _))

/-- Every buffer is live and holds the reply of the call it stands for. -/
structure Stored (s : Rpcs) (executions : List Execution) : Prop where
  entry : ∀ n e b, e ∈ s.replyWindow n → e.buf = some b → s.heap.live b = true ∧
    ∃ ex ∈ executions, ex.req.key = (n, e.xid) ∧ s.heap.content b = ex.rep
  separate : ∀ n m e f b, e ∈ s.replyWindow n → f ∈ s.replyWindow m → e.buf = some b →
    f.buf = some b → n = m ∧ e.xid = f.xid
  owned : ∀ t b, (s.worker t).owns = some b → s.heap.live b = true ∧
    (∀ n e, e ∈ s.replyWindow n → e.buf ≠ some b) ∧ ∀ u, (s.worker u).owns = some b → u = t
  ran : ∀ t req b, s.worker t = .ran req b →
    ∃ ex ∈ executions, ex.req = req ∧ s.heap.content b = ex.rep
  sending : ∀ t req b, s.worker t = .sending req b →
    ∃ e ∈ s.replyWindow req.cltNonce, e.xid = req.xid ∧ e.buf = some b

namespace Stored

variable {s : Rpcs} {executions : List Execution} {t : Fin poolSize} {req : Request} {b : Nat}

/-- A buffer that the list still points to after the check is not freed. -/
theorem checked_entry (h : Stored s executions) (hok : s.FreesUnused req) {n : Nonce} {e : ReplyT}
    (he : e ∈ (s.checked req).replyWindow n) (hb : e.buf = some b) :
    e ∈ s.replyWindow n ∧ b ∉ freed (s.replyWindow req.cltNonce) req.xidRep := by
  by_cases hnew : s.stat req = .new
  · by_cases hn : n = req.cltNonce
    · subst hn
      rw [(Rpcs.stat_new hnew).2] at he
      rcases List.mem_append.mp he with hold | hlast
      · obtain ⟨d, hd, rfl⟩ := List.mem_map.mp hold
        obtain ⟨hdb, hlt⟩ := ReplyT.drop_buf hb
        rw [ReplyT.drop_of_lt hlt]
        refine ⟨hd, fun hfreed => ?_⟩
        obtain ⟨f, hf, hle, hfb⟩ := mem_freed.mp hfreed
        have hxid := (h.separate _ _ d f b hd hf hdb hfb).2
        exact absurd hlt (UInt32.not_lt.mpr (hxid ▸ hle))
      · cases List.mem_singleton.mp hlast
        cases hb
    · rw [Rpcs.checked_replyWindow_ne hn] at he
      refine ⟨he, fun hfreed => ?_⟩
      obtain ⟨f, hf, _, hfb⟩ := mem_freed.mp hfreed
      exact hn (h.separate _ _ e f b he hf hb hfb).1
  · rw [Rpcs.checked_old hnew] at he
    refine ⟨he, ?_⟩
    rw [hok.1.resolve_left fun hnot => hnew (Rpcs.stat_new_of_not_listed hnot)]
    exact List.not_mem_nil

/-- An entry whose buffer is not freed stays. -/
theorem mem_checked {n : Nonce} {e : ReplyT} (he : e ∈ s.replyWindow n) (hb : e.buf = some b)
    (hkept : b ∉ freed (s.replyWindow req.cltNonce) req.xidRep) :
    e ∈ (s.checked req).replyWindow n := by
  by_cases hnew : s.stat req = .new
  · by_cases hn : n = req.cltNonce
    · subst hn
      have hlt : req.xidRep < e.xid :=
        UInt32.not_le.mp fun hle => hkept (mem_freed.mpr ⟨e, he, hle, hb⟩)
      rw [(Rpcs.stat_new hnew).2]
      refine List.mem_append_left _ (List.mem_map.mpr ⟨e, he, ReplyT.drop_of_lt hlt⟩)
    · rw [Rpcs.checked_replyWindow_ne hn]
      exact he
  · rw [Rpcs.checked_old hnew]
    exact he

theorem checked (h : Stored s executions) (hok : s.FreesUnused req) :
    Stored (s.checked req) executions := by
  have hcontent : (s.checked req).heap.content = s.heap.content := Memory.Heap.freeAll_content _ _
  refine ⟨fun n e b he hb => ?_, fun n m e f b he hf hb hfb => ?_, fun t b ht => ?_,
    fun t r b ht => ?_, fun t r b ht => ?_⟩
  · obtain ⟨hold, hkept⟩ := h.checked_entry hok he hb
    obtain ⟨hlive, hex⟩ := h.entry n e b hold hb
    rw [hcontent]
    exact ⟨Memory.Heap.freeAll_live hlive hkept, hex⟩
  · exact h.separate n m e f b (h.checked_entry hok he hb).1 (h.checked_entry hok hf hfb).1 hb hfb
  · obtain ⟨hlive, hnone, hunique⟩ := h.owned t b ht
    refine ⟨Memory.Heap.freeAll_live hlive fun hfreed => ?_, fun n e he hb => ?_, hunique⟩
    · obtain ⟨f, hf, _, hfb⟩ := mem_freed.mp hfreed
      exact hnone _ f hf hfb
    · exact hnone n e (h.checked_entry hok he hb).1 hb
  · rw [hcontent]
    exact h.ran t r b ht
  · obtain ⟨e, he, hxid, hb⟩ := h.sending t r b ht
    have hkept := hok.2 t b (by rw [show s.worker t = .sending r b from ht]; rfl)
    exact ⟨e, mem_checked he hb hkept, hxid, hb⟩

/-- A worker gives up what it had, or is about to send a stored reply. -/
theorem setWorker (h : Stored s executions) (t : Fin poolSize) {wk : Worker}
    (howns : wk.owns = none)
    (hsends : ∀ r b, wk = .sending r b →
      ∃ e ∈ s.replyWindow r.cltNonce, e.xid = r.xid ∧ e.buf = some b) :
    Stored (s.setWorker t wk) executions := by
  have hother : ∀ u b, ((s.setWorker t wk).worker u).owns = some b →
      (s.worker u).owns = some b := by
    intro u b hu
    rw [Rpcs.setWorker_worker] at hu
    split at hu
    · rw [howns] at hu
      cases hu
    · exact hu
  refine ⟨h.entry, h.separate, fun u b hu => ?_, fun u r b hu => ?_, fun u r b hu => ?_⟩
  · obtain ⟨hlive, hnone, hunique⟩ := h.owned u b (hother u b hu)
    exact ⟨hlive, hnone, fun v hv => hunique v (hother v b hv)⟩
  · rw [Rpcs.setWorker_worker] at hu
    split at hu
    · rw [hu] at howns
      cases howns
    · exact h.ran u r b hu
  · rw [Rpcs.setWorker_worker] at hu
    split at hu
    · exact hsends r b hu
    · exact h.sending u r b hu

theorem started (h : Stored s executions) (hok : s.FreesUnused req)
    (hfree : s.heap.live b = false) : Stored (s.started t req b) executions := by
  have hc := h.checked hok
  have hb : (s.checked req).heap.live b = false := Memory.Heap.freeAll_not_live hfree
  have hne : ∀ d, (s.checked req).heap.live d = true → d ≠ b := by
    intro d hd heq
    rw [heq, hb] at hd
    cases hd
  refine ⟨fun n e d he hd => ?_, hc.separate, fun u d hu => ?_, fun u r d hu => ?_,
    fun u r d hu => ?_⟩
  · obtain ⟨hlive, hex⟩ := hc.entry n e d he hd
    exact ⟨Memory.Heap.alloc_live_of_live hlive, hex⟩
  · rw [Rpcs.started_worker] at hu
    split at hu
    · rename_i hut
      cases hu
      refine ⟨Memory.Heap.alloc_live_self _ b, fun n e he hd => ?_, fun v hv => ?_⟩
      · exact hne b (hc.entry n e b he hd).1 rfl
      · rw [Rpcs.started_worker] at hv
        split at hv
        · rename_i hvt
          exact hvt.trans hut.symm
        · exact absurd rfl (hne b (hc.owned v b hv).1)
    · obtain ⟨hlive, hnone, hunique⟩ := hc.owned u d hu
      refine ⟨Memory.Heap.alloc_live_of_live hlive, hnone, fun v hv => ?_⟩
      rw [Rpcs.started_worker] at hv
      split at hv
      · cases hv
        exact absurd rfl (hne b hlive)
      · exact hunique v hv
  · rw [Rpcs.started_worker] at hu
    split at hu
    · cases hu
    · exact hc.ran u r d hu
  · rw [Rpcs.started_worker] at hu
    split at hu
    · cases hu
    · exact hc.sending u r d hu

theorem handled (h : Stored s executions) (ht : s.worker t = .running req b) (rep : Reply) :
    Stored (s.handled t req b rep) ({ req := req, rep := rep } :: executions) := by
  have howns : (s.worker t).owns = some b := by rw [ht]; rfl
  obtain ⟨hlive, hnone, hunique⟩ := h.owned t b howns
  have hsame : ∀ u, ((s.handled t req b rep).worker u).owns = (s.worker u).owns := by
    intro u
    rw [Rpcs.handled_worker]
    split
    · rename_i hut
      rw [hut, howns]
      rfl
    · rfl
  have hcontent : ∀ d, d ≠ b → (s.handled t req b rep).heap.content d = s.heap.content d :=
    fun d hd => Memory.Heap.write_content_ne _ rep hd
  refine ⟨fun n e d he hd => ?_, h.separate, fun u d hu => ?_, fun u r d hu => ?_,
    fun u r d hu => ?_⟩
  · obtain ⟨hl, ex, hex, hkey, hc⟩ := h.entry n e d he hd
    have hdb : d ≠ b := fun heq => hnone n e he (heq ▸ hd)
    exact ⟨hl, ex, List.mem_cons_of_mem _ hex, hkey, (hcontent d hdb).trans hc⟩
  · rw [hsame] at hu
    obtain ⟨hl, hno, huniq⟩ := h.owned u d hu
    exact ⟨hl, hno, fun v hv => huniq v ((hsame v).symm.trans hv)⟩
  · rw [Rpcs.handled_worker] at hu
    split at hu
    · cases hu
      exact ⟨_, List.mem_cons_self, rfl, Memory.Heap.write_content_self _ b rep⟩
    · rename_i hut
      obtain ⟨ex, hex, hreq, hc⟩ := h.ran u r d hu
      have hdb : d ≠ b := fun heq => hut (hunique u (by rw [hu, heq]; rfl))
      exact ⟨ex, List.mem_cons_of_mem _ hex, hreq, (hcontent d hdb).trans hc⟩
  · rw [Rpcs.handled_worker] at hu
    split at hu
    · cases hu
    · exact h.sending u r d hu

/-- An entry with a buffer is an old one, or the one that was filled. -/
theorem of_mem_replied {l : List ReplyT} (hadded : Added req.xid b (s.replyWindow req.cltNonce) l)
    {n : Nonce} {e : ReplyT} (he : e ∈ (s.replied t req b l).replyWindow n) :
    e ∈ s.replyWindow n ∨ (n = req.cltNonce ∧ e = { xid := req.xid, buf := some b }) := by
  by_cases hn : n = req.cltNonce
  · subst hn
    rw [Rpcs.replied_replyWindow_self] at he
    exact (hadded.old e he).imp_right fun heq => ⟨rfl, heq⟩
  · rw [Rpcs.replied_replyWindow_ne s t b l hn] at he
    exact Or.inl he

theorem replied (h : Stored s executions) (ht : s.worker t = .ran req b) {l : List ReplyT}
    (hadded : Added req.xid b (s.replyWindow req.cltNonce) l)
    (hlisted : Listed (s.replyWindow req.cltNonce) req.xid) :
    Stored (s.replied t req b l) executions := by
  obtain ⟨hlive, hnone, hunique⟩ := h.owned t b (by rw [ht]; rfl)
  refine ⟨fun n e d he hd => ?_, fun n m e f d he hf hd hfd => ?_, fun u d hu => ?_,
    fun u r d hu => ?_, fun u r d hu => ?_⟩
  · rcases of_mem_replied hadded he with hold | ⟨rfl, rfl⟩
    · exact h.entry n e d hold hd
    · cases hd
      obtain ⟨ex, hex, hreq, hc⟩ := h.ran t req b ht
      exact ⟨hlive, ex, hex, by rw [hreq]; rfl, hc⟩
  · rcases of_mem_replied hadded he with hold | ⟨rfl, rfl⟩
    · rcases of_mem_replied hadded hf with hold' | ⟨rfl, rfl⟩
      · exact h.separate n m e f d hold hold' hd hfd
      · cases hfd
        exact absurd hd (hnone n e hold)
    · cases hd
      rcases of_mem_replied hadded hf with hold' | ⟨rfl, rfl⟩
      · exact absurd hfd (hnone m f hold')
      · exact ⟨rfl, rfl⟩
  · rw [Rpcs.replied_worker] at hu
    split at hu
    · cases hu
    · rename_i hut
      obtain ⟨hl, hno, huniq⟩ := h.owned u d hu
      refine ⟨hl, fun n e he hd => ?_, fun v hv => ?_⟩
      · rcases of_mem_replied hadded he with hold | ⟨rfl, rfl⟩
        · exact hno n e hold hd
        · cases hd
          exact hut (hunique u hu)
      · rw [Rpcs.replied_worker] at hv
        split at hv
        · cases hv
        · exact huniq v hv
  · rw [Rpcs.replied_worker] at hu
    split at hu
    · cases hu
    · exact h.ran u r d hu
  · rw [Rpcs.replied_worker] at hu
    split at hu
    · cases hu
      refine ⟨{ xid := req.xid, buf := some b }, ?_, rfl, rfl⟩
      rw [Rpcs.replied_replyWindow_self]
      exact hadded.new hlisted
    · obtain ⟨e, he, hxid, hd⟩ := h.sending u r d hu
      refine ⟨e, ?_, hxid, hd⟩
      by_cases hn : r.cltNonce = req.cltNonce
      · rw [hn, Rpcs.replied_replyWindow_self]
        rw [hn] at he
        exact hadded.kept e he (by rw [hd]; exact Option.some_ne_none d)
      · rw [Rpcs.replied_replyWindow_ne s t b l hn]
        exact he

end Stored

namespace World

/-- The request that reaches the server frees no buffer that is still in use. -/
def FreesUnused (w : World) : Action → Prop
  | .dispatch _ k _ => ∀ req ∈ w.requests[k]?, w.server.Serves req → w.server.FreesUnused req
  | _ => True

instance (s : Rpcs) (req : Request) : Decidable (s.Serves req) :=
  inferInstanceAs (Decidable ((_ ∨ _) ∧ _))

instance (w : World) : ∀ a, Decidable (w.FreesUnused a)
  | .dispatch _ k _ => inferInstanceAs (Decidable (∀ req ∈ w.requests[k]?,
      w.server.Serves req → w.server.FreesUnused req))
  | .call .. | .transmit .. | .gotPdu .. | .finish .. | .cancel .. | .bound .. | .execute ..
  | .addReply _ | .send _ => isTrue trivial

theorem stored_step {w v : World} {a : Action} (h : Stored w.server w.executions)
    (honce : Once w.server w.executions) (hok : w.FreesUnused a) (hstep : w.step a = some v) :
    Stored v.server v.executions := by
  cases step_cases hstep with
  | idle | call | transmit | gotPdu | finish | cancel | bound | oldsrv => exact h
  | new t k b req hreq hserves hlive => exact h.started (hok req hreq hserves) hlive
  | inprogress t k b req hreq hserves => exact h.checked (hok req hreq hserves)
  | done t k b d req hreq hserves _ hstat =>
    refine (h.checked (hok req hreq hserves)).setWorker t rfl fun r c heq => ?_
    cases heq
    rw [Rpcs.checked_old (by rw [hstat]; exact RpcState.noConfusion)]
    exact Rpcs.stat_done hstat
  | forgotten t k b req hreq hserves => exact h.checked (hok req hreq hserves)
  | execute t req b rep hworker => exact h.handled hworker rep
  | addReply t req b l hworker hl =>
    exact h.replied hworker (added_addReply hl) (honce.ran t req b hworker)
  | send t => exact h.setWorker t rfl fun r c heq => by cases heq

end World

end Rpc
end Frangipani

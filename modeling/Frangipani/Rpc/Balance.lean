/-
The balance of references over whole runs.

With the holders of `References`, every step of every thread keeps the counts, except for
two.  `got_pdu` deletes a job that is queued, and a worker goes on with a null pointer;
right after such a step something is used that is not there.  A request for another
instance is a holder that never gives its reference back, so the counts at the end tell
whether there was one.
-/
import Frangipani.Rpc.References

namespace Frangipani
namespace Rpc

open Memory Transition

namespace Serving

/-! ## A step -/

theorem refs_setWorker (s : Serving) (t : Fin poolSize) (d : Dispatch) (c : Nat) :
    (s.setWorker t d).refs c + one (s.worker t).conn c = s.refs c + one d.conn c := by
  have hupdate := inHand_update s.worker t d c
  simp only [refs, stored, setWorker]
  omega

section Step

variable {s : Serving} {t : Fin poolSize}

theorem Inv.balanced_of (h : s.Inv) {r : Nat → Nat} (hr : ∀ c, r c = s.refs c) :
    Balanced s.pool.Live s.pool.refno r := by
  rw [funext hr]
  exact h.balanced

theorem Inv.setWorker (h : s.Inv) {d : Dispatch} (hconn : d.conn = (s.worker t).conn)
    (hd : d.Ok s.conns) : (s.setWorker t d).Inv where
  sound := h.sound
  balanced := by
    refine h.balanced_of fun c => ?_
    have := refs_setWorker s t d c
    rw [hconn] at this
    omega
  listening := h.listening
  saved := h.saved.update t hd
  numbered := h.numbered

theorem Inv.replyWindow (h : s.Inv) (w : UInt32 → List ReplyT) : { s with replyWindow := w }.Inv :=
  ⟨h.sound, h.balanced, h.listening, h.saved, h.numbered⟩

theorem Inv.take (h : s.Inv) {j : Job} {queue : List Job} (hidle : s.worker t = .idle)
    (hqueue : s.queue = j :: queue) :
    ({ s with queue }.setWorker t (.entered j.conn j.req)).Inv where
  sound := h.sound
  balanced := by
    refine h.balanced_of fun c => ?_
    have hmove := inHand_update s.worker t (.entered j.conn j.req) c
    have hcons := countP_queue_cons j queue c
    have hnone : one (s.worker t).conn c = 0 := by rw [hidle]; rfl
    have hsome : one (Dispatch.entered j.conn j.req).conn c = one (some j.conn) c := rfl
    simp only [refs, stored, Serving.setWorker, hqueue]
    omega
  listening := h.listening
  saved := h.saved.update t trivial
  numbered := h.numbered

/-- A worker answers a request for another instance, and keeps the reference for good. -/
theorem Inv.answerStale (h : s.Inv) {c : Nat} (hstage : s.worker t = .stale c) :
    ({ s with stale := c :: s.stale }.setWorker t .idle).Inv where
  sound := h.sound
  balanced := by
    refine h.balanced_of fun d => ?_
    have hmove := inHand_idle (hstage ▸ rfl : (s.worker t).conn = some c) d
    have hcons := count_stale_cons c s.stale d
    simp only [refs, stored, Serving.setWorker]
    omega
  listening := h.listening
  saved := h.saved.update t trivial
  numbered := h.numbered

theorem Inv.leave (h : s.Inv) {c : Nat} (hstage : s.worker t = .leaving c) :
    ({ s with pool := s.pool.decref c }.setWorker t .idle).Inv where
  sound := h.sound.decref (h.live_worker ((hstage ▸ rfl : (s.worker t).conn = some c)))
  balanced := by
    refine balanced_decref h.balanced fun d => ?_
    have hmove := inHand_idle ((hstage ▸ rfl : (s.worker t).conn = some c)) d
    simp only [refs, stored, Serving.setWorker]
    omega
  listening := h.listening.of_fd (s.pool.fd_decref c)
  saved := h.saved.update t trivial
  numbered := h.numbered

theorem worker_save (s : Serving) (c n : Nat) : (s.save c n).worker = s.worker := by
  unfold save
  split
  · rfl
  · split <;> rfl

theorem find_save (s : Serving) (c n : Nat) : ((s.save c n).conns.find n).isSome = true := by
  unfold save
  split
  · exact congrArg Option.isSome (OrderedMap.find_assign_self _ _ _)
  · rename_i p hfind
    split
    · rw [hfind]
      rfl
    · exact congrArg Option.isSome (OrderedMap.find_assign_self _ _ _)

/-- The connection is stored for its client, in place of another one. -/
theorem Inv.save (h : s.Inv) {c n : Nat} (hn : n ≠ 0) (hc : s.pool.Live c) : (s.save c n).Inv := by
  have hassign := fun d => count_conns_assign s.conns n (some c) d
  unfold Serving.save
  cases hfind : s.conns.find n with
  | none =>
    refine ⟨h.sound.incref c, balanced_incref h.balanced hc fun d => ?_,
      h.listening.of_fd (s.pool.fd_incref c), h.saved.assign hn c, h.numbered⟩
    have := hassign d
    simp only [hfind, Option.join_none, one_none] at this
    simp only [refs, stored]
    omega
  | some p =>
    obtain ⟨e, rfl⟩ := Option.ne_none_iff_exists'.mp (h.saved.proper n p hfind).2
    simp only
    split
    · exact h
    · rename_i hne
      have hec : c ≠ e := fun hce => hne (by rw [hce])
      have hlive : (s.pool.decref e).Live c := (Conns.live_decref_ne hec).mpr hc
      -- The entry of the other connection goes, and then the new one comes.
      have hdrop : Balanced (s.pool.decref e).Live (s.pool.decref e).refno
          { s with conns := s.conns.erase n }.refs := by
        refine balanced_decref h.balanced fun d => ?_
        have herase := count_conns_erase hfind d
        simp only [refs, stored]
        omega
      refine ⟨(h.sound.decref (h.live_stored hfind)).incref c,
        balanced_incref hdrop hlive fun d => ?_, ?_, h.saved.assign hn c, h.numbered⟩
      · have herase := count_conns_erase hfind d
        have := hassign d
        simp only [hfind, Option.join_some] at this
        simp only [refs, stored]
        omega
      · refine h.listening.of_fd fun d => ?_
        simp only [Conns.decrefAt, Conns.fd_incref, Conns.fd_decref]

/-- The worker goes over to the connection that is stored for the client. -/
theorem Inv.switch (h : s.Inv) {c n : Nat} {q : ReqHeader} (hstage : s.worker t = .switching c q)
    (hn : n = q.cltNonce.toNat) (hregular : q.cltNonce = 0 → s.pool.dead c = false) :
    (s.switch t c n).Inv := by
  have hc : (s.worker t).conn = some c := by rw [hstage]; rfl
  have hgo : (s.setWorker t (.sending (some c))).Inv :=
    h.setWorker (by rw [hc]; rfl) (Option.some_ne_none c)
  unfold Serving.switch
  split
  · rename_i hdead
    have hne : q.cltNonce ≠ 0 := by
      intro hzero
      rw [hregular hzero] at hdead
      cases hdead
    have hstored : (s.conns.find n).isSome = true := by
      have hok := h.saved.stages t
      rw [hstage] at hok
      rw [hn]
      exact hok hne
    obtain ⟨p, hfind⟩ := Option.isSome_iff_exists.mp hstored
    obtain ⟨e, rfl⟩ := Option.ne_none_iff_exists'.mp (h.saved.proper n p hfind).2
    have hindex : s.conns.index n none = (some e, s.conns) := by
      simp only [OrderedMap.index, hfind]
    rw [hindex]
    simp only
    split
    · exact hgo
    · rename_i hec
      have hec : e ≠ c := fun hec' => hec (by rw [hec'])
      have hlive : (s.pool.decref c).Live e :=
        (Conns.live_decref_ne hec).mpr (h.live_stored hfind)
      -- The worker is without a connection for a moment.
      have hdrop : Balanced (s.pool.decref c).Live (s.pool.decref c).refno
          (s.setWorker t .idle).refs := by
        refine balanced_decref h.balanced fun d => ?_
        have hmove := refs_setWorker s t .idle d
        rw [hc, Dispatch.conn_idle, one_none] at hmove
        omega
      refine ⟨(h.sound.decref (h.live_worker hc)).incref e,
        balanced_incref hdrop hlive fun d => ?_, ?_, h.saved.update t (Option.some_ne_none e),
        h.numbered⟩
      · have hidle := refs_setWorker s t .idle d
        have hmove := refs_setWorker s t (.sending (some e)) d
        rw [Dispatch.conn_idle, one_none] at hidle
        rw [show (Dispatch.sending (some e)).conn = some e from rfl] at hmove
        show (s.setWorker t (.sending (some e))).refs d = _
        omega
      · exact h.listening.of_fd fun d =>
          (Conns.fd_incref _ e d).trans (Conns.fd_decref s.pool c d)
  · exact hgo

/-! The poll thread. -/

theorem Inv.gotPdu (h : s.Inv) {c : Nat} (hc : s.pool.Live c) (hidle : s.poll = .idle)
    (req : Option ReqHeader) : (s.gotPdu c req).Inv := by
  unfold Serving.gotPdu
  split
  · refine ⟨h.sound.incref c, balanced_incref h.balanced hc fun d => ?_,
      h.listening.of_fd (s.pool.fd_incref c), h.saved, ?_⟩
    · simp only [refs, stored, hidle, Poll.conn, one_none]
      omega
    · refine ⟨fun i hi => Nat.lt_succ_of_lt (h.numbered.made_queued i hi),
        fun i hi => Nat.lt_succ_of_lt (h.numbered.made_deleted i hi), h.numbered.once,
        Nat.lt_succ_self s.made, ?_, ?_⟩
      · exact fun hmem => Nat.lt_irrefl _ (h.numbered.made_queued _ hmem)
      · exact fun hmem => Nat.lt_irrefl _ (h.numbered.made_deleted _ hmem)
  · exact h

theorem Inv.queueJob (h : s.Inv) {j : Job} (hpoll : s.poll = .adding j) :
    { s with
      queue := s.queue ++ [j], poll := .added j true, queued := j.id :: s.queued }.Inv where
  sound := h.sound
  balanced := by
    refine h.balanced_of fun c => ?_
    have happend := countP_queue_append j s.queue c
    simp only [refs, stored, hpoll, Poll.conn, one_none]
    omega
  listening := h.listening
  saved := h.saved
  numbered := by
    have hjob := h.numbered.job
    rw [hpoll] at hjob
    obtain ⟨hmade, -, hnot⟩ := hjob
    exact ⟨List.forall_mem_cons.mpr ⟨hmade, h.numbered.made_queued⟩, h.numbered.made_deleted,
      List.forall_mem_cons.mpr ⟨hnot, h.numbered.once⟩, List.mem_cons_self⟩

theorem Inv.dropJob (h : s.Inv) {j : Job} (hpoll : s.poll = .added j false) :
    { s with
      pool := s.pool.decref j.conn, poll := .idle, deleted := j.id :: s.deleted }.Inv where
  sound := by
    refine h.sound.decref (h.balanced.dangling j.conn ?_)
    have : one s.poll.conn j.conn = 1 := by rw [hpoll]; exact one_self j.conn
    unfold refs
    omega
  balanced := by
    refine balanced_decref h.balanced fun c => ?_
    simp only [refs, stored, hpoll, Poll.conn, one_none]
    omega
  listening := h.listening.of_fd (s.pool.fd_decref j.conn)
  saved := h.saved
  numbered := by
    have hjob := h.numbered.job
    rw [hpoll] at hjob
    obtain ⟨hmade, hnot⟩ := hjob
    refine ⟨h.numbered.made_queued, List.forall_mem_cons.mpr ⟨hmade, h.numbered.made_deleted⟩,
      fun i hi hmem => ?_, trivial⟩
    rcases List.mem_cons.mp hmem with rfl | hmem
    · exact hnot hi
    · exact h.numbered.once i hi hmem

theorem Inv.setPoll (h : s.Inv) {p : Poll} (hconn : p.conn = s.poll.conn)
    (hok : p.Ok s.made s.queued s.deleted) : { s with poll := p }.Inv where
  sound := h.sound
  balanced := by
    refine h.balanced_of fun c => ?_
    simp only [refs, stored, hconn]
  listening := h.listening
  saved := h.saved
  numbered := { h.numbered with job := hok }

theorem Inv.polling (h : s.Inv) (hregular : s.Regular .polling) {s' : Serving}
    (hs : s.polling = some s') : s'.Inv := by
  unfold Serving.polling at hs
  have hjob := h.numbered.job
  cases hpoll : s.poll with
  | idle =>
    rw [hpoll] at hs
    cases hs
  | adding j =>
    rw [hpoll] at hs hjob
    simp only at hs
    split at hs
    · cases hs
      exact h.queueJob hpoll
    · cases hs
      exact h.setPoll (by rw [hpoll]; rfl) ⟨hjob.1, hjob.2.1⟩
  | added j succ =>
    rw [hpoll] at hs
    cases succ with
    | false =>
      cases hs
      exact h.dropJob hpoll
    | true =>
      have hreachable : s.reachable = true := by
        simpa only [Regular, hpoll] using hregular
      change (if (!true || !s.reachable) = true then _ else _) = _ at hs
      rw [if_neg (by simp [hreachable])] at hs
      cases hs
      exact h.setPoll (p := .idle) (by rw [hpoll]; rfl) trivial

/-! The accepting thread. -/

theorem Inv.setAcceptor (h : s.Inv) {a : Acceptor} (hconn : a.conn = s.acceptor.conn)
    (hpending : a.pending.Sublist s.acceptor.pending) : { s with acceptor := a }.Inv where
  sound := h.sound
  balanced := by
    refine h.balanced_of fun c => ?_
    simp only [refs, stored, hconn]
  listening :=
    { keyed := h.listening.keyed
      pending := hpending.trans h.listening.pending
      fresh := fun ch hch => h.listening.fresh ch (hconn ▸ hch) }
  saved := h.saved
  numbered := h.numbered

theorem Inv.keep (h : s.Inv) {ch : Nat} (ha : s.acceptor = .collecting ch []) :
    { s with acceptor := .idle, tcps := s.tcps.assign (s.pool.fd ch) ch }.Inv := by
  have hfresh := h.listening.fresh ch (by rw [ha]; rfl)
  refine ⟨h.sound, ?_, ⟨fun k c hc => ?_, List.nil_sublist _, fun _ hch => by cases hch⟩, h.saved,
    h.numbered⟩
  · refine h.balanced_of fun c => ?_
    have hassign := count_tcps_assign hfresh ch c
    simp only [refs, stored, ha, Acceptor.conn, one_none]
    omega
  · by_cases hk : k = s.pool.fd ch
    · have hc : (s.tcps.assign (s.pool.fd ch) ch).find k = some c := hc
      rw [hk, OrderedMap.find_assign_self] at hc
      rw [hk, Option.some.inj hc]
    · have hc : (s.tcps.assign (s.pool.fd ch) ch).find k = some c := hc
      rw [OrderedMap.find_assign_ne _ _ hk] at hc
      exact h.listening.keyed k c hc

/-- A connection is collected.  Whoever else has taken a reference by now is not harmed. -/
theorem Inv.collect (h : s.Inv) {ch : Nat} {e : Int × Nat} {rest : List (Int × Nat)}
    (ha : s.acceptor = .sole ch e rest) :
    { s with
      acceptor := .collecting ch rest, pool := s.pool.decref e.2
      tcps := s.tcps.erase e.1 }.Inv := by
  have hpending := h.listening.pending
  rw [ha] at hpending
  have hmem : s.tcps.find e.1 = some e.2 :=
    OrderedMap.find_eq_some.mpr (hpending.subset List.mem_cons_self)
  refine ⟨h.sound.decref (h.live_tcps hmem), balanced_decref h.balanced fun c => ?_,
    ⟨fun k c hc => ?_, ?_, fun c hc => ?_⟩, h.saved, h.numbered⟩
  · have herase := count_tcps_erase hmem c
    simp only [refs, stored, ha, Acceptor.conn]
    omega
  · rw [Conns.fd_decref]
    exact h.listening.keyed k c (OrderedMap.find_of_erase hc)
  · -- The entries behind `e` have other keys.
    have hlater := (List.pairwise_cons.mp (s.tcps.ascending.sublist hpending)).1
    have hkeep : (e :: rest).filter (fun f => f.1 ≠ e.1) = rest := by
      rw [List.filter_cons_of_neg (by simp)]
      exact List.filter_eq_self.mpr fun f hf => by simpa using (hlater f hf).ne'
    have hfilter := hpending.filter fun f => f.1 ≠ e.1
    rw [Acceptor.pending, hkeep] at hfilter
    exact hfilter
  · rw [Conns.fd_decref]
    have hfresh := h.listening.fresh c (by rw [ha]; exact hc)
    refine OrderedMap.find_eq_none.mpr fun v hv => ?_
    exact OrderedMap.find_eq_none.mp hfresh v (List.mem_filter.mp hv).1

theorem Inv.accepting (h : s.Inv) {s' : Serving} (hs : s.accepting = some s') : s'.Inv := by
  unfold Serving.accepting at hs
  cases ha : s.acceptor with
  | idle =>
    rw [ha] at hs
    cases hs
  | collecting ch rest =>
    rw [ha] at hs
    cases rest with
    | nil =>
      cases hs
      exact h.keep ha
    | cons e rest =>
      cases hs
      refine h.setAcceptor ?_ ?_ <;> rw [ha] <;> split
      · rfl
      · rfl
      · exact List.Sublist.refl _
      · exact List.sublist_cons_self e rest
  | dead ch e rest =>
    rw [ha] at hs
    cases hs
    refine h.setAcceptor ?_ ?_ <;> rw [ha] <;> split
    · rfl
    · rfl
    · exact List.Sublist.refl _
    · exact List.sublist_cons_self e rest
  | sole ch e rest =>
    rw [ha] at hs
    cases hs
    exact h.collect ha

/-- A connection is accepted at an address and with a descriptor that are free. -/
theorem Inv.accept (h : s.Inv) {c : Nat} {fd : Int} (hidle : s.acceptor = .idle)
    (hc : s.pool.heap.live c = false) (hfd : s.pool.fds fd = false) :
    { s with acceptor := .collecting c s.tcps.entries, pool := s.pool.create c fd }.Inv := by
  have hfree : ¬ s.pool.Live c := by
    intro hlive
    rw [Conns.Live, hc] at hlive
    cases hlive
  refine ⟨h.sound.create hfd, balanced_create h.balanced hfree fd fun d => ?_,
    ⟨fun k d hd => ?_, List.Sublist.refl _, fun d hd => ?_⟩, h.saved, h.numbered⟩
  · simp only [refs, stored, hidle, Acceptor.conn, one_none]
    omega
  · have hne : d ≠ c := by
      rintro rfl
      exact hfree (h.live_tcps hd)
    rw [Conns.fd_create_ne hne]
    exact h.listening.keyed k d hd
  · cases hd
    rw [Conns.fd_create_self]
    -- The descriptors of the entries are open.
    cases hfind : s.tcps.find fd with
    | none => rfl
    | some e =>
      have hopen := h.sound.fds e (h.live_tcps hfind)
      rw [h.listening.keyed fd e hfind, hfd] at hopen
      cases hopen

theorem Inv.die (h : s.Inv) (c : Nat) : { s with pool := s.pool.die c }.Inv where
  sound := h.sound.die c
  balanced := by
    have hrefno : (s.pool.die c).refno = s.pool.refno := funext (s.pool.refno_die c)
    show Balanced s.pool.Live (s.pool.die c).refno s.refs
    rw [hrefno]
    exact h.balanced
  listening := h.listening.of_fd (s.pool.fd_die c)
  saved := h.saved
  numbered := h.numbered

/-! The workers. -/

theorem Inv.enter (h : s.Inv) {c : Nat} {req : Option ReqHeader}
    (hstage : s.worker t = .entered c req) : (s.setWorker t (s.route c req)).Inv := by
  have hgo : ∀ {d : Dispatch}, d.pointer = some (some c) → d.Ok s.conns →
      (s.setWorker t d).Inv := by
    intro d hd hok
    refine h.setWorker ?_ hok
    rw [Dispatch.conn, hd, hstage]
    rfl
  unfold Serving.route
  cases req with
  | none => exact hgo rfl trivial
  | some q =>
    simp only
    split_ifs with hstale hproc hnonce
    · exact hgo rfl trivial
    · exact hgo rfl hnonce
    · exact hgo rfl fun hne => absurd hne hnonce
    · exact hgo rfl trivial

theorem Inv.check (h : s.Inv) {c : Nat} {q : ReqHeader} (hstage : s.worker t = .checking c q) :
    (s.check t c q).Inv := by
  unfold Serving.check
  have hok := h.saved.stages t
  rw [hstage] at hok
  refine (h.replyWindow _).setWorker ?_ ?_
  · show _ = (s.worker t).conn
    rw [hstage]
    split <;> rfl
  · split
    · exact hok
    · trivial
    · exact Option.some_ne_none c
    · exact Option.some_ne_none c

theorem Inv.dispatch (h : s.Inv) {b : Nat} (hregular : s.Regular (.dispatch t b)) {s' : Serving}
    (hs : s.dispatch t b = some s') : s'.Inv := by
  unfold Serving.dispatch at hs
  have hok := h.saved.stages t
  cases hstage : s.worker t with
  | idle =>
    rw [hstage] at hs
    cases hqueue : s.queue with
    | nil =>
      rw [hqueue] at hs
      cases hs
    | cons j queue =>
      rw [hqueue] at hs
      cases hs
      exact h.take hstage hqueue
  | entered c req =>
    rw [hstage] at hs
    cases hs
    exact h.enter hstage
  | stale c =>
    rw [hstage] at hs
    cases hs
    exact h.answerStale hstage
  | saving c q =>
    rw [hstage] at hs hok
    cases hs
    have hn : q.cltNonce.toNat ≠ 0 := fun hzero => hok (UInt32.toNat_inj.mp hzero)
    have hsaved := h.save hn (h.live_worker (t := t) (by rw [hstage]; rfl))
    refine hsaved.setWorker ?_ fun _ => find_save s c q.cltNonce.toNat
    rw [worker_save, hstage]
    rfl
  | checking c q =>
    rw [hstage] at hs
    cases hs
    exact h.check hstage
  | running c q =>
    rw [hstage] at hs hok
    simp only at hs
    split at hs
    · obtain ⟨l, -, rfl⟩ := Option.map_eq_some_iff.mp hs
      refine (h.replyWindow _).setWorker ?_ hok
      show _ = (s.worker t).conn
      rw [hstage]
      rfl
    · cases hs
      exact h.setWorker (by rw [hstage]; rfl) hok
  | switching c q =>
    rw [hstage] at hs
    cases hs
    exact h.switch hstage rfl (by simpa only [Regular, hstage] using hregular)
  | sending p =>
    rw [hstage] at hs
    cases p with
    | none => cases hs
    | some c =>
      cases hs
      exact h.setWorker (by rw [hstage]; rfl) trivial
  | leaving c =>
    rw [hstage] at hs
    cases hs
    exact h.leave hstage

theorem Inv.step (h : s.Inv) {a : ServingAction} (hregular : s.Regular a) {s' : Serving}
    (hs : s.step a = some s') : s'.Inv := by
  cases a with
  | accept c fd =>
    simp only [Serving.step] at hs
    split at hs
    · rename_i hfree
      cases hs
      exact h.accept hfree.1 hfree.2.1 hfree.2.2
    · cases hs
  | accepting => exact h.accepting hs
  | gotPdu c req =>
    simp only [Serving.step] at hs
    split at hs
    · rename_i halive
      cases hs
      exact h.gotPdu halive.2.1 halive.1 req
    · cases hs
  | polling => exact h.polling hregular hs
  | dispatch t b => exact h.dispatch hregular hs
  | die c =>
    simp only [Serving.step] at hs
    split at hs
    · cases hs
      exact h.die c
    · cases hs
  | setReachable r =>
    cases hs
    exact ⟨h.sound, h.balanced, h.listening, h.saved, h.numbered⟩

theorem Inv.not_safe_polling (h : s.Inv) (hregular : ¬ s.Regular .polling) {s' : Serving}
    (hs : s.polling = some s') : ¬ s'.Safe := by
  have hjob := h.numbered.job
  unfold Serving.polling at hs
  unfold Regular at hregular
  cases hpoll : s.poll with
  | idle => simp [hpoll] at hregular
  | adding j => simp [hpoll] at hregular
  | added j succ =>
    rw [hpoll] at hs hjob hregular
    cases succ with
    | false => exact absurd trivial hregular
    | true =>
      change (if (!true || !s.reachable) = true then _ else _) = _ at hs
      rw [if_pos (by simpa using hregular)] at hs
      cases hs
      exact fun hsafe => hsafe.jobs j.id hjob List.mem_cons_self

/-- The worker of a request with client nonce 0 goes on with a null pointer. -/
theorem Inv.not_safe_dispatch (h : s.Inv) {b : Nat} (hregular : ¬ s.Regular (.dispatch t b))
    {s' : Serving} (hs : s.dispatch t b = some s') : ¬ s'.Safe := by
  unfold Regular at hregular
  cases hstage : s.worker t with
  | switching c q =>
    simp only [hstage, Classical.not_imp, Bool.not_eq_false] at hregular
    obtain ⟨hzero, hdead⟩ := hregular
    have hnone : s.conns.find 0 = none := by
      by_contra hsome
      obtain ⟨p, hp⟩ := Option.ne_none_iff_exists'.mp hsome
      exact (h.saved.proper 0 p hp).1 rfl
    have hindex : (s.conns.index q.cltNonce.toNat none).1 = none := by
      rw [hzero]
      simp only [OrderedMap.index, UInt32.toNat_zero, hnone]
    have hs' : s' = s.switch t c q.cltNonce.toNat := by
      simp only [Serving.dispatch, hstage, Option.some.injEq] at hs
      exact hs.symm
    have hworker : s'.worker t = .sending none := by
      rw [hs', Serving.switch, if_pos hdead]
      simp only [hindex]
      exact Function.update_self ..
    intro hsafe
    obtain ⟨d, hd, -⟩ := hsafe.worker t none (by rw [hworker]; rfl)
    cases hd
  | _ => simp [hstage] at hregular

/-- What a step that is not regular leaves. -/
theorem Inv.not_safe (h : s.Inv) {a : ServingAction} (hregular : ¬ s.Regular a) {s' : Serving}
    (hs : s.step a = some s') : ¬ s'.Safe := by
  cases a with
  | polling => exact h.not_safe_polling hregular hs
  | dispatch t b => exact h.not_safe_dispatch hregular hs
  | _ => exact absurd trivial hregular

end Step

/-! ## When all jobs are finished -/

theorem Inv.held {s : Serving} (h : s.Inv) (c : Nat) :
    s.tcps.count (fun d => d = c) + one s.acceptor.conn c = if s.Held c then 1 else 0 := by
  -- An entry of `c` is at the descriptor of `c`.
  have hkey : ∀ k, (k, c) ∈ s.tcps.entries → k = s.pool.fd c := fun k hk =>
    (h.listening.keyed k c (OrderedMap.find_eq_some.mpr hk)).symm
  have hzero : ∀ es : List (Int × Nat), (∀ k, (k, c) ∉ es) → es.countP (fun e => e.2 = c) = 0 := by
    intro es hes
    refine List.countP_eq_zero.mpr fun e he hec => ?_
    simp only [decide_eq_true_eq] at hec
    exact hes e.1 (hec ▸ he)
  by_cases hentry : (s.pool.fd c, c) ∈ s.tcps.entries
  · have hfind := OrderedMap.find_eq_some.mpr hentry
    have hacceptor : one s.acceptor.conn c = 0 := by
      cases hconn : s.acceptor.conn with
      | none => rfl
      | some ch =>
        refine one_ne fun hch => ?_
        have hfresh := h.listening.fresh ch hconn
        rw [← hch, hfind] at hfresh
        cases hfresh
    have herase := count_tcps_erase hfind c
    have hrest : (s.tcps.erase (s.pool.fd c)).count (fun d => d = c) = 0 := by
      refine hzero _ fun k hk => ?_
      obtain ⟨hmem, hne⟩ := List.mem_filter.mp hk
      simp only [ne_eq, decide_eq_true_eq] at hne
      exact hne (hkey k hmem)
    have hheld : s.Held c := Or.inl ⟨_, hentry, rfl⟩
    rw [if_pos hheld, herase, hrest, hacceptor, one_self]
  · have hnone : s.tcps.count (fun d => d = c) = 0 :=
      hzero _ fun k hk => hentry (hkey k hk ▸ hk)
    rw [hnone, Nat.zero_add]
    by_cases hconn : s.acceptor.conn = some c
    · have hheld : s.Held c := Or.inr hconn
      rw [if_pos hheld, hconn, one_self]
    · have hnot : ¬ s.Held c := by
        rintro (⟨e, he, rfl⟩ | hsome)
        · exact hentry (hkey e.1 he ▸ he)
        · exact hconn hsome
      rw [if_neg hnot, one, decide_eq_false hconn]
      rfl

theorem Inv.refno_of_settled {s : Serving} (h : s.Inv) (hsettled : s.Settled) {c : Nat}
    (hc : s.pool.Live c) :
    s.pool.refno c = (if s.Held c then 1 else 0) + s.stored c + s.stale.count c := by
  obtain ⟨hqueue, hpoll, hidle⟩ := hsettled
  have hcount := h.balanced.counted c hc
  have hheld := h.held c
  have hhand : inHand s.worker c = 0 := Finset.sum_eq_zero fun t _ => by
    rw [hidle t, Dispatch.conn_idle, one_none]
  have hrefs : s.refs c = (if s.Held c then 1 else 0) + s.stored c + s.stale.count c := by
    unfold refs
    rw [hqueue, hpoll, hhand, hheld]
    rfl
  rw [hcount, hrefs]
  by_cases hH : s.Held c <;> simp [hH]

/-- The counts are right exactly when no request for another instance has been answered. -/
theorem Inv.counted_iff {s : Serving} (h : s.Inv) (hsettled : s.Settled) :
    s.Counted ↔ s.stale = [] := by
  constructor
  · intro hcounted
    refine List.eq_nil_iff_forall_not_mem.mpr fun c hc => ?_
    have hlive := h.live_stale hc
    have hpos : 0 < s.stale.count c := List.count_pos_iff.mpr hc
    have hrefno := h.refno_of_settled hsettled hlive
    have := hcounted c hlive
    omega
  · intro hnil c hc
    rw [h.refno_of_settled hsettled hc, hnil]
    simp

/-- References are balanced along a run exactly when its steps are regular and no request for
another instance has been answered by the time all jobs are finished. -/
theorem fine_iff_regular (nonce : UInt32) (procs : List Int32) (as : List ServingAction) :
    system.AlongRun Fine (new nonce procs) as ↔
      system.StepsMeet Regular (new nonce procs) as ∧
        system.AlongRun (fun s => s.Settled → s.stale = []) (new nonce procs) as := by
  have hsafe : system.AlongRun Safe (new nonce procs) as ↔
      system.StepsMeet Regular (new nonce procs) as :=
    System.alongRun_iff_stepsMeet (fun _ hs => hs.safe) (fun _ _ _ hs hok ht => hs.step hok ht)
      (fun _ _ _ hs hno ht => hs.not_safe hno ht) (new_inv nonce procs)
  have hinv : system.StepsMeet Regular (new nonce procs) as →
      system.AlongRun Inv (new nonce procs) as :=
    System.StepsMeet.alongRun (fun _ _ _ hs hok ht => hs.step hok ht) (new_inv nonce procs)
  constructor
  · intro hfine
    have hmeet := hsafe.mp (hfine.mono fun _ hs => hs.safe)
    refine ⟨hmeet, ((hinv hmeet).and hfine).mono fun s hs hsettled => ?_⟩
    exact (hs.1.counted_iff hsettled).mp (hs.2.counted hsettled)
  · rintro ⟨hmeet, hstale⟩
    refine ((hinv hmeet).and hstale).mono fun s hs => ⟨hs.1.safe, fun hsettled => ?_⟩
    exact (hs.1.counted_iff hsettled).mpr (hs.2 hsettled)

/-- A connection is accepted, and a PDU on it is queued. -/
def delivered (req : ReqHeader) : List ServingAction :=
  [.accept 0 5, .accepting, .gotPdu 0 (some req), .polling]

/-- A worker answers a request for instance 2 at a server that is instance 1. -/
def staleRun : List ServingAction :=
  delivered { xid := 1, proc := 7, cltNonce := 9, srvNonce := 2, xidRep := 0 } ++
    [.polling, .dispatch 0 0, .dispatch 0 0, .dispatch 0 0]

/-- All jobs are finished, `tcpsconn` has the connection and no client does, and it counts 2. -/
theorem staleRun_not_fine : ¬ system.AlongRun Fine (new 1 [7]) staleRun := by
  intro hfine
  have hfinal := hfine.final (by decide +kernel)
  have hsettled : (system.final (new 1 [7]) staleRun).Settled := by decide +kernel
  have hcount := hfinal.counted hsettled 0 (by unfold Conns.Live; decide +kernel)
  revert hcount
  decide +kernel

/-- The server becomes unreachable while a job is added, and the job is queued and deleted. -/
example :
    let s := system.final (new 1 [7])
      (delivered { xid := 1, proc := 7, cltNonce := 9, srvNonce := 1, xidRep := 0 } ++
        [.setReachable false, .polling])
    0 ∈ s.queued ∧ 0 ∈ s.deleted := by decide +kernel

/-- The connection of a request with client nonce 0 dies while its handler runs. -/
example :
    (system.final (new 1 [7])
      (delivered { xid := 1, proc := 7, cltNonce := 0, srvNonce := 1, xidRep := 0 } ++
        [.polling, .dispatch 0 0, .dispatch 0 0, .die 0, .dispatch 0 0, .dispatch 0 0])).worker 0 =
      .sending none := by decide +kernel

end Serving
end Rpc
end Frangipani

/-
The server end of a remote call, `rpcs`.

For every client the server keeps a list of the calls it has seen and of the
replies it has stored.  A worker thread that dispatches a request looks its number
up in the list, and drops the stored replies that the client has acknowledged.

`checkduplicate_and_update` works on a copy of the list.  It frees the buffers of
the acknowledged replies, but the copy goes back only when the request is new.
Otherwise the stored list still points to buffers that are freed.

A worker is split where it has no lock: after the check, after the handler, after
`add_reply` and after the send.  It holds the reply buffer in between.  The sizes
of the buffers are left out, as are connections and statistics.  `cb_present` is
set and cleared together with `buf`, so here it is whether there is a buffer.
-/
import Mathlib.Algebra.GroupWithZero.Nat
import Frangipani.Memory.Heap
import Frangipani.Rpc.Client

namespace Frangipani
namespace Rpc

open Memory

/-- `rpcs::reply_t`. -/
structure ReplyT where
  xid : UInt32
  buf : Option Nat
  deriving DecidableEq, Repr

/-- `rpcs::rpcstate_t`.  With `DONE` comes the stored buffer. -/
inductive RpcState
  | new
  | inprogress
  | done (b : Nat)
  | forgotten
  deriving DecidableEq, Repr

/-- The entry in the copy, with the reply dropped if it is acknowledged. -/
def ReplyT.drop (xidRep : UInt32) (e : ReplyT) : ReplyT :=
  if e.xid ≤ xidRep then { e with buf := none } else e

/-- The buffers that the check frees. -/
def freed (repList : List ReplyT) (xidRep : UInt32) : List Nat :=
  repList.filterMap fun e => if e.xid ≤ xidRep then e.buf else none

/-- How the check classifies the request, and the list it stores. -/
def checkduplicateAndUpdate (repList : List ReplyT) (xid xidRep : UInt32) :
    RpcState × List ReplyT :=
  let copy := repList.map (.drop xidRep)
  match copy.find? fun e => e.xid == xid with
  | none => (.new, copy ++ [{ xid := xid, buf := none }])
  | some e =>
    match e.buf with
    | some b => (.done b, repList)
    | none => (if xid > xidRep then .inprogress else .forgotten, repList)

/-- Store the reply at the first entry of the call.  It must not have one. -/
def addReply (xid : UInt32) (b : Nat) : List ReplyT → Option (List ReplyT)
  | [] => some []
  | e :: repList =>
    if e.xid = xid then
      if e.buf = none then some ({ e with buf := some b } :: repList) else none
    else (addReply xid b repList).map (e :: ·)

/-- What a worker of the dispatch pool is at: running a handler, with the reply
ready and not stored, or with a reply to send. -/
inductive Worker
  | idle
  | running (req : Request) (b : Nat)
  | ran (req : Request) (b : Nat)
  | sending (req : Request) (b : Nat)
  deriving DecidableEq

/-- The buffer that only the worker knows. -/
def Worker.owns : Worker → Option Nat
  | .running _ b | .ran _ b => some b
  | .idle | .sending .. => none

/-- The buffer that the worker is about to send. -/
def Worker.sends : Worker → Option Nat
  | .sending _ b => some b
  | .idle | .running .. | .ran .. => none

/-- The number of workers. -/
abbrev poolSize : Nat := 10

instance : NeZero poolSize := ⟨Nat.succ_ne_zero 9⟩

structure Rpcs where
  nonce : UInt32
  procs : List UInt32
  replyWindow : Nonce → List ReplyT
  heap : Heap Reply
  worker : Fin poolSize → Worker

namespace Rpcs

/-- No client is known and no buffer allocated. -/
def new (nonce : UInt32) (procs : List UInt32) : Rpcs where
  nonce := nonce
  procs := procs
  replyWindow := fun _ => []
  heap := { live := fun _ => false, content := fun _ => { xid := 0, ret := 0, body := [] } }
  worker := fun _ => .idle

def setWorker (s : Rpcs) (t : Fin poolSize) (wk : Worker) : Rpcs :=
  { s with worker := Function.update s.worker t wk }

/-- The list of the client after the check, and the heap. -/
def checked (s : Rpcs) (req : Request) : Rpcs :=
  { s with
    replyWindow := Function.update s.replyWindow req.cltNonce
      (checkduplicateAndUpdate (s.replyWindow req.cltNonce) req.xid req.xidRep).2
    heap := s.heap.freeAll (freed (s.replyWindow req.cltNonce) req.xidRep) }

/-- How the check classifies a request. -/
def stat (s : Rpcs) (req : Request) : RpcState :=
  (checkduplicateAndUpdate (s.replyWindow req.cltNonce) req.xid req.xidRep).1

/-- The request is new and its handler starts. -/
def started (s : Rpcs) (t : Fin poolSize) (req : Request) (b : Nat) : Rpcs :=
  { (s.checked req).setWorker t (.running req b) with heap := (s.checked req).heap.alloc b }

/-- The request is for this instance of the server and a procedure that it has. -/
def Serves (s : Rpcs) (req : Request) : Prop :=
  (req.srvNonce = 0 ∨ req.srvNonce = s.nonce) ∧ req.proc ∈ s.procs

/-- `dispatch` up to the handler or the send.  The buffer for the reply is
allocated at `b` before anything else, and given back unless the handler runs.
Failures are answered at once. -/
def dispatch (s : Rpcs) (t : Fin poolSize) (req : Request) (b : Nat) : Option Reply × Rpcs :=
  if req.srvNonce ≠ 0 ∧ req.srvNonce ≠ s.nonce then
    (some { xid := req.xid, ret := RpcConst.oldsrvFailure, body := [] }, s)
  else if req.proc ∉ s.procs then (none, s)
  else
    match s.stat req with
    | .new => (none, s.started t req b)
    | .inprogress => (none, s.checked req)
    | .done d => (none, (s.checked req).setWorker t (.sending req d))
    | .forgotten =>
      (some { xid := req.xid, ret := RpcConst.atmostonceFailure, body := [] }, s.checked req)

/-- The handler has returned and its reply is packed. -/
def handled (s : Rpcs) (t : Fin poolSize) (req : Request) (b : Nat) (rep : Reply) : Rpcs :=
  { s.setWorker t (.ran req b) with heap := s.heap.write b rep }

/-- The reply is stored. -/
def replied (s : Rpcs) (t : Fin poolSize) (req : Request) (b : Nat) (l : List ReplyT) : Rpcs :=
  { s.setWorker t (.sending req b) with
    replyWindow := Function.update s.replyWindow req.cltNonce l }

end Rpcs

/-! ## What the check does -/

theorem ReplyT.drop_xid (xidRep : UInt32) (e : ReplyT) : (e.drop xidRep).xid = e.xid := by
  unfold drop
  split <;> rfl

/-- A reply that survives is not acknowledged. -/
theorem ReplyT.drop_buf {xidRep : UInt32} {e : ReplyT} {b : Nat}
    (h : (e.drop xidRep).buf = some b) : e.buf = some b ∧ xidRep < e.xid := by
  unfold drop at h
  split at h
  · cases h
  · rename_i hle
    exact ⟨h, UInt32.not_le.mp hle⟩

theorem ReplyT.drop_of_lt {xidRep : UInt32} {e : ReplyT} (h : xidRep < e.xid) :
    e.drop xidRep = e := by
  unfold drop
  rw [if_neg (UInt32.not_le.mpr h)]

theorem mem_freed {repList : List ReplyT} {xidRep : UInt32} {b : Nat} :
    b ∈ freed repList xidRep ↔ ∃ e ∈ repList, e.xid ≤ xidRep ∧ e.buf = some b := by
  unfold freed
  rw [List.mem_filterMap]
  refine exists_congr fun e => and_congr_right fun _ => ?_
  split
  · rename_i hle
    exact ⟨fun h => ⟨hle, h⟩, fun h => h.2⟩
  · rename_i hle
    exact ⟨fun h => absurd h.symm (Option.some_ne_none b), fun h => absurd h.1 hle⟩

/-- The call is in the list of its client. -/
def Listed (repList : List ReplyT) (xid : UInt32) : Prop := ∃ e ∈ repList, e.xid = xid

instance (repList : List ReplyT) (xid : UInt32) : Decidable (Listed repList xid) :=
  inferInstanceAs (Decidable (∃ e ∈ repList, e.xid = xid))

/-- Every outcome of the check. -/
inductive Checked (repList : List ReplyT) (xid xidRep : UInt32) : RpcState × List ReplyT → Prop
  | new : ¬ Listed repList xid → Checked repList xid xidRep
      (.new, repList.map (.drop xidRep) ++ [{ xid := xid, buf := none }])
  | done (e : ReplyT) (b : Nat) : e ∈ repList → e.xid = xid → e.buf = some b → xidRep < xid →
      Checked repList xid xidRep (.done b, repList)
  | inprogress : Listed repList xid → xidRep < xid →
      Checked repList xid xidRep (.inprogress, repList)
  | forgotten : Listed repList xid → xid ≤ xidRep →
      Checked repList xid xidRep (.forgotten, repList)

theorem checked_check (repList : List ReplyT) (xid xidRep : UInt32) :
    Checked repList xid xidRep (checkduplicateAndUpdate repList xid xidRep) := by
  unfold checkduplicateAndUpdate
  dsimp only
  cases hfind : (repList.map (ReplyT.drop xidRep)).find? fun e => e.xid == xid with
  | none =>
    refine .new ?_
    rintro ⟨e, he, hxid⟩
    have hno := List.find?_eq_none.mp hfind (e.drop xidRep) (List.mem_map_of_mem he)
    rw [e.drop_xid, hxid] at hno
    exact hno (beq_self_eq_true xid)
  | some d =>
    obtain ⟨e, he, rfl⟩ := List.mem_map.mp (List.mem_of_find?_eq_some hfind)
    have hxid : e.xid = xid := by
      have heq := List.find?_some hfind
      rw [e.drop_xid] at heq
      exact eq_of_beq heq
    cases hbuf : (e.drop xidRep).buf with
    | some b =>
      obtain ⟨hb, hlt⟩ := ReplyT.drop_buf hbuf
      simp only [hbuf]
      exact .done e b he hxid hb (hxid ▸ hlt)
    | none =>
      simp only [hbuf]
      split
      · rename_i hgt
        exact .inprogress ⟨e, he, hxid⟩ hgt
      · rename_i hgt
        exact .forgotten ⟨e, he, hxid⟩ (UInt32.not_lt.mp hgt)

namespace Rpcs

variable {s : Rpcs} {req : Request}

theorem setWorker_worker (s : Rpcs) (t : Fin poolSize) (wk : Worker) (u : Fin poolSize) :
    (s.setWorker t wk).worker u = if u = t then wk else s.worker u :=
  Function.update_apply _ _ _ _

theorem started_worker (s : Rpcs) (t : Fin poolSize) (req : Request) (b : Nat)
    (u : Fin poolSize) :
    (s.started t req b).worker u = if u = t then .running req b else s.worker u :=
  (s.checked req).setWorker_worker t _ u

theorem handled_worker (s : Rpcs) (t : Fin poolSize) (req : Request) (b : Nat) (rep : Reply)
    (u : Fin poolSize) :
    (s.handled t req b rep).worker u = if u = t then .ran req b else s.worker u :=
  s.setWorker_worker t _ u

theorem replied_worker (s : Rpcs) (t : Fin poolSize) (req : Request) (b : Nat) (l : List ReplyT)
    (u : Fin poolSize) :
    (s.replied t req b l).worker u = if u = t then .sending req b else s.worker u :=
  s.setWorker_worker t _ u

theorem replied_replyWindow_self (s : Rpcs) (t : Fin poolSize) (req : Request) (b : Nat)
    (l : List ReplyT) : (s.replied t req b l).replyWindow req.cltNonce = l :=
  Function.update_self _ _ _

theorem replied_replyWindow_ne (s : Rpcs) (t : Fin poolSize) (b : Nat) (l : List ReplyT)
    {n : Nonce} (h : n ≠ req.cltNonce) :
    (s.replied t req b l).replyWindow n = s.replyWindow n :=
  Function.update_of_ne h _ _

/-- A worker that is not at `wk` after another one went there was not before. -/
theorem worker_of_setWorker {t u : Fin poolSize} {wk wk' : Worker} (hne : wk ≠ wk')
    (h : (s.setWorker t wk).worker u = wk') : u ≠ t ∧ s.worker u = wk' := by
  rw [setWorker_worker] at h
  split at h
  · exact absurd h hne
  · rename_i hu
    exact ⟨hu, h⟩

theorem stat_new_of_not_listed (h : ¬ Listed (s.replyWindow req.cltNonce) req.xid) :
    s.stat req = .new := by
  have hcheck := checked_check (s.replyWindow req.cltNonce) req.xid req.xidRep
  unfold stat
  generalize checkduplicateAndUpdate (s.replyWindow req.cltNonce) req.xid req.xidRep = c
    at hcheck ⊢
  cases hcheck with
  | new => rfl
  | done e b he hxid => exact absurd ⟨e, he, hxid⟩ h
  | inprogress hlisted | forgotten hlisted => exact absurd hlisted h

theorem stat_new (h : s.stat req = .new) :
    ¬ Listed (s.replyWindow req.cltNonce) req.xid ∧
      (s.checked req).replyWindow req.cltNonce =
        (s.replyWindow req.cltNonce).map (.drop req.xidRep) ++
          [{ xid := req.xid, buf := none }] := by
  have hcheck := checked_check (s.replyWindow req.cltNonce) req.xid req.xidRep
  unfold stat at h
  simp only [checked, Function.update_self]
  generalize checkduplicateAndUpdate (s.replyWindow req.cltNonce) req.xid req.xidRep = c
    at hcheck h ⊢
  cases hcheck with
  | new hnot => exact ⟨hnot, rfl⟩
  | done | inprogress | forgotten => cases h

theorem checked_old (h : s.stat req ≠ .new) : (s.checked req).replyWindow = s.replyWindow := by
  have hcheck := checked_check (s.replyWindow req.cltNonce) req.xid req.xidRep
  unfold stat at h
  unfold checked
  generalize checkduplicateAndUpdate (s.replyWindow req.cltNonce) req.xid req.xidRep = c
    at hcheck h ⊢
  cases hcheck with
  | new => exact absurd rfl h
  | done | inprogress | forgotten => exact Function.update_eq_self _ _

theorem stat_done {d : Nat} (h : s.stat req = .done d) :
    ∃ e ∈ s.replyWindow req.cltNonce, e.xid = req.xid ∧ e.buf = some d := by
  have hcheck := checked_check (s.replyWindow req.cltNonce) req.xid req.xidRep
  unfold stat at h
  generalize checkduplicateAndUpdate (s.replyWindow req.cltNonce) req.xid req.xidRep = c
    at hcheck h
  cases hcheck with
  | done e b he hxid hb =>
    cases h
    exact ⟨e, he, hxid, hb⟩
  | new | inprogress | forgotten => cases h

theorem stat_forgotten (h : s.stat req = .forgotten) : req.xid ≤ req.xidRep := by
  have hcheck := checked_check (s.replyWindow req.cltNonce) req.xid req.xidRep
  unfold stat at h
  generalize checkduplicateAndUpdate (s.replyWindow req.cltNonce) req.xid req.xidRep = c
    at hcheck h
  cases hcheck with
  | forgotten _ hle => exact hle
  | new | inprogress | done => cases h

theorem checked_replyWindow_ne {n : Nonce} (h : n ≠ req.cltNonce) :
    (s.checked req).replyWindow n = s.replyWindow n := by
  simp [checked, h]

theorem listed_checked {n : Nonce} {xid : UInt32} (h : Listed (s.replyWindow n) xid) :
    Listed ((s.checked req).replyWindow n) xid := by
  by_cases hn : n = req.cltNonce
  · subst hn
    by_cases hnew : s.stat req = .new
    · obtain ⟨e, he, hxid⟩ := h
      rw [(stat_new hnew).2]
      exact ⟨e.drop req.xidRep, List.mem_append_left _ (List.mem_map_of_mem he),
        (e.drop_xid req.xidRep).trans hxid⟩
    · rw [checked_old hnew]
      exact h
  · rw [checked_replyWindow_ne hn]
    exact h

end Rpcs

/-! ## What storing a reply does -/

/-- The list after a reply was stored: one entry has got the buffer. -/
structure Added (xid : UInt32) (b : Nat) (l l' : List ReplyT) : Prop where
  old : ∀ e ∈ l', e ∈ l ∨ e = { xid := xid, buf := some b }
  kept : ∀ e ∈ l, e.buf ≠ none → e ∈ l'
  listed : ∀ x, Listed l x → Listed l' x
  new : Listed l xid → { xid := xid, buf := some b } ∈ l'

theorem added_addReply {xid : UInt32} {b : Nat} {l l' : List ReplyT}
    (h : addReply xid b l = some l') : Added xid b l l' := by
  induction l generalizing l' with
  | nil =>
    cases h
    exact ⟨fun _ he => Or.inl he, fun _ he _ => he, fun _ hx => hx, fun ⟨_, he, _⟩ => by cases he⟩
  | cons e l ih =>
    unfold addReply at h
    split at h
    · rename_i hxid
      split at h
      · rename_i hbuf
        cases h
        have hnew : { e with buf := some b } = ({ xid := xid, buf := some b } : ReplyT) := by
          rw [← hxid]
        rw [hnew]
        refine ⟨fun f hf => ?_, fun f hf hne => ?_, fun x hx => ?_, fun _ => List.mem_cons_self⟩
        · rcases List.mem_cons.mp hf with rfl | hf
          · exact Or.inr rfl
          · exact Or.inl (List.mem_cons_of_mem _ hf)
        · rcases List.mem_cons.mp hf with rfl | hf
          · exact absurd hbuf hne
          · exact List.mem_cons_of_mem _ hf
        · obtain ⟨f, hf, hfx⟩ := hx
          rcases List.mem_cons.mp hf with rfl | hf
          · exact ⟨_, List.mem_cons_self, hxid.symm.trans hfx⟩
          · exact ⟨f, List.mem_cons_of_mem _ hf, hfx⟩
      · cases h
    · rename_i hxid
      obtain ⟨l₁, hl₁, rfl⟩ := Option.map_eq_some_iff.mp h
      have hadded := ih hl₁
      refine ⟨fun f hf => ?_, fun f hf hne => ?_, fun x hx => ?_, fun hx => ?_⟩
      · rcases List.mem_cons.mp hf with rfl | hf
        · exact Or.inl List.mem_cons_self
        · exact (hadded.old f hf).imp_left (List.mem_cons_of_mem _)
      · rcases List.mem_cons.mp hf with rfl | hf
        · exact List.mem_cons_self
        · exact List.mem_cons_of_mem _ (hadded.kept f hf hne)
      · obtain ⟨f, hf, hfx⟩ := hx
        rcases List.mem_cons.mp hf with rfl | hf
        · exact ⟨f, List.mem_cons_self, hfx⟩
        · obtain ⟨f', hf', hfx'⟩ := hadded.listed x ⟨f, hf, hfx⟩
          exact ⟨f', List.mem_cons_of_mem _ hf', hfx'⟩
      · obtain ⟨f, hf, hfx⟩ := hx
        rcases List.mem_cons.mp hf with rfl | hf
        · exact absurd hfx hxid
        · exact List.mem_cons_of_mem _ (hadded.new ⟨f, hf, hfx⟩)

end Rpc
end Frangipani

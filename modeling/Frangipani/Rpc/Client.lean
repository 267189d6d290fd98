/-
The client end of a remote call, `rpcc`.

`call1` gives the call a number and enters it into `calls_`, packs the request
once, sends it as often as it likes, and waits until a reply arrives or the time
is up.  `got_pdu` runs in another thread, for every reply that comes in.

The stretches between two waits are functions of the client's state.  The request
is kept with the caller, since it is sent again as it is.  Sending itself, the
connections and the clocks are left to the network, which may lose, delay or
repeat any message.
-/
import Frangipani.Data.Map
import Frangipani.Rpc.Window

namespace Frangipani
namespace Rpc

namespace RpcConst

/-- The procedure number that is reserved for `bind`. -/
def bind : UInt32 := 1
def timeoutFailure : Int := -1
def unmarshalArgsFailure : Int := -2
def atmostonceFailure : Int := -4
def oldsrvFailure : Int := -5
def bindFailure : Int := -6
def cancelFailure : Int := -7

end RpcConst

/-- A client nonce.  The nonce 0 is for clients that do without at-most-once
calls. -/
def Nonce := { n : UInt32 // n ≠ 0 }
  deriving DecidableEq

/-- A request: `req_header` and the marshalled arguments. -/
structure Request where
  xid : UInt32
  proc : UInt32
  cltNonce : Nonce
  srvNonce : UInt32
  xidRep : UInt32
  args : List UInt8
  deriving DecidableEq

/-- A reply: `reply_header` and the marshalled result. -/
structure Reply where
  xid : UInt32
  ret : Int
  body : List UInt8
  deriving DecidableEq, Repr

/-- `rpcc::caller`, with the request that it sends. -/
structure Caller where
  req : Request
  done : Bool
  intret : Int
  rep : List UInt8
  deriving DecidableEq

/-- What `call1` returns. -/
def Caller.ret (ca : Caller) : Int := if ca.done then ca.intret else RpcConst.timeoutFailure

structure Rpcc where
  cltNonce : Nonce
  srvNonce : UInt32
  bindDone : Bool
  xid : UInt32
  destroyWait : Bool
  calls : Map UInt32 Caller
  xidRepWindow : Window

namespace Rpcc

def new (cltNonce : Nonce) : Rpcc where
  cltNonce := cltNonce
  srvNonce := 0
  bindDone := false
  xid := 1
  destroyWait := false
  calls := .empty
  xidRepWindow := .new

/-- The request that `call1` packs. -/
def request (c : Rpcc) (proc : UInt32) (args : List UInt8) : Request where
  xid := c.xid
  proc := proc
  cltNonce := c.cltNonce
  srvNonce := c.srvNonce
  xidRep := c.xidRepWindow.front
  args := args

/-- The call is entered. -/
def called (c : Rpcc) (proc : UInt32) (args : List UInt8) : Rpcc :=
  { c with
    xid := c.xid + 1
    calls := c.calls.insert c.xid
      { req := c.request proc args, done := false, intret := 0, rep := [] } }

/-- The start of `call1`: it fails at once, or the call is entered. -/
def call1 (c : Rpcc) (proc : UInt32) (args : List UInt8) : Except Int Rpcc :=
  if (proc ≠ RpcConst.bind ∧ c.bindDone = false) ∨ (proc = RpcConst.bind ∧ c.bindDone = true) then
    .error RpcConst.bindFailure
  else if c.destroyWait then .error RpcConst.cancelFailure
  else .ok (c.called proc args)

/-- A reply arrives. -/
def gotPdu (c : Rpcc) (h : Reply) : Rpcc :=
  let c := { c with xidRepWindow := c.xidRepWindow.updateXidRep h.xid }
  match c.calls.find h.xid with
  | none => c
  | some ca =>
    if ca.done then c
    else
      { c with
        calls := c.calls.insert h.xid { ca with done := true, intret := h.ret, rep := h.body } }

/-- The end of `call1`. -/
def finish (c : Rpcc) (xid : UInt32) : Rpcc :=
  { c with calls := c.calls.erase xid, xidRepWindow := c.xidRepWindow.updateXidRep xid }

/-- `cancel`, when calls are outstanding. -/
def cancel (c : Rpcc) : Rpcc :=
  { c with
    calls := c.calls.map fun ca => { ca with done := true, intret := RpcConst.cancelFailure }
    destroyWait := true }

/-- The end of `bind`, whose call has returned the nonce `r` of the server. -/
def bound (c : Rpcc) (r : UInt32) : Rpcc := { c with bindDone := true, srvNonce := r }

/-! ## What happens to the calls -/

theorem call1_ok {c d : Rpcc} {proc : UInt32} {args : List UInt8}
    (h : c.call1 proc args = .ok d) : d = c.called proc args := by
  unfold call1 at h
  split at h
  · cases h
  · split at h
    · cases h
    · cases h
      rfl

theorem called_find {c : Rpcc} {proc : UInt32} {args : List UInt8} {x : UInt32} {ca : Caller}
    (h : (c.called proc args).calls.find x = some ca) :
    (x = c.xid ∧ ca.req = c.request proc args ∧ ca.done = false) ∨ c.calls.find x = some ca := by
  rcases Map.find_insert_eq_some.mp h with ⟨hx, rfl⟩ | ⟨-, h⟩
  · exact Or.inl ⟨hx, rfl, rfl⟩
  · exact Or.inr h

/-- A reply is handed to the call that waits for it, and to no other. -/
theorem gotPdu_find {c : Rpcc} {rep : Reply} {x : UInt32} {ca : Caller}
    (h : (c.gotPdu rep).calls.find x = some ca) :
    (c.calls.find x = some ca ∧ (x = rep.xid → ca.done = true)) ∨
      (x = rep.xid ∧ ∃ old, c.calls.find x = some old ∧
        ca = { old with done := true, intret := rep.ret, rep := rep.body }) := by
  unfold gotPdu at h
  dsimp only at h
  split at h
  · rename_i hnone
    refine Or.inl ⟨h, fun hx => ?_⟩
    rw [hx, hnone] at h
    cases h
  · rename_i old hold
    split at h
    · rename_i hdone
      refine Or.inl ⟨h, fun hx => ?_⟩
      rw [hx, hold] at h
      cases h
      exact hdone
    · rcases Map.find_insert_eq_some.mp h with ⟨rfl, rfl⟩ | ⟨hx, h⟩
      · exact Or.inr ⟨rfl, old, hold, rfl⟩
      · exact Or.inl ⟨h, fun heq => absurd heq hx⟩

theorem gotPdu_rest (c : Rpcc) (rep : Reply) :
    (c.gotPdu rep).cltNonce = c.cltNonce ∧ (c.gotPdu rep).xid = c.xid ∧
      (c.gotPdu rep).xidRepWindow = c.xidRepWindow.updateXidRep rep.xid := by
  unfold gotPdu
  dsimp only
  split
  · exact ⟨rfl, rfl, rfl⟩
  · split <;> exact ⟨rfl, rfl, rfl⟩

theorem finish_find {c : Rpcc} {xid x : UInt32} {ca : Caller}
    (h : (c.finish xid).calls.find x = some ca) : x ≠ xid ∧ c.calls.find x = some ca :=
  Map.find_erase_eq_some.mp h

theorem cancel_find {c : Rpcc} {x : UInt32} {ca : Caller}
    (h : c.cancel.calls.find x = some ca) : ∃ old, c.calls.find x = some old ∧
      ca = { old with done := true, intret := RpcConst.cancelFailure } := by
  simp only [cancel, Map.find_map] at h
  obtain ⟨old, hold, rfl⟩ := Option.map_eq_some_iff.mp h
  exact ⟨old, hold, rfl⟩

end Rpcc
end Rpc
end Frangipani

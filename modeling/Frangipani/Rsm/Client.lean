/-
What a client of the replicas knows about them.

`init_members` asks a replica for the members of its view.  The replica answers with the
members and, behind them, the primary.  The client reads the answer into `known_mems` and
takes the primary off the end again.

The operator that reads a vector pushes its elements behind what the vector holds, and
`known_mems` is a member that keeps what the calls before have left there.  So after a call
it holds the views of all calls, one after the other, and it is the view of the last call
only when it was empty before.  The primary is right after every call.

A call runs alone.  The RPC library may fail in any way, the view and the primary of the
answer are any, and so are the connection to a new primary and the number of calls of
`invoke` that use the old one.  A failed assertion ends the client.
-/
import Frangipani.Rpc.Pdu
import Frangipani.Text.Stream
import Frangipani.Transition.System

namespace Frangipani
namespace Rsm

open Rpc Transition

/-- A `std::string` that names a node. -/
abbrev Name := List UInt8

def nodeBytes (m : String) : Name := Text.bytes m.toList

/-- `rsm::client_members`, with the current view and the primary of the replica. -/
def clientMembers (view : List Name) (primary : Name) : List Name := view ++ [primary]

/-- `u >> v` on a vector of strings. -/
def getVector (v : List Name) (u : Unmarshall) : List Name × Unmarshall :=
  Codec.string.getEach (fun v z => v ++ [z]) (Codec.uint.get u).1.toNat v (Codec.uint.get u).2

/-- The number of `OK` in `rsm_protocol` and `rsm_client_protocol`. -/
abbrev OK : Int32 := 0

def unmarshalReplyFailure : Int32 := -3

/-- `rpcc::call_m` into a vector of strings, once `call1` has returned. -/
def callM (intret : Int32) (u : Unmarshall) (r : List Name) : Int32 × List Name :=
  if intret < 0 then (intret, r)
  else if (getVector r u).2.okdone then (intret, (getVector r u).1)
  else (unmarshalReplyFailure, (getVector r u).1)

/-- How the members call comes back: with a failure of the RPC library, or with the answer
of a replica.  The answer is written behind a header into a block that holds anything. -/
inductive MembersCall
  | failed (ret : Int32)
  | replied (xid : Int32) (buf : Nat → UInt8) (view : List Name) (primary : Name)

/-- The view and the primary that a replica has answered with. -/
def MembersCall.answer : MembersCall → Option (List Name × Name)
  | .failed _ => none
  | .replied _ _ view primary => some (view, primary)

/-- What a call of `init_members(true)` meets: the members call, `primary.nref` and the
status of the `bind` to a new primary. -/
structure InitCall where
  call : MembersCall
  nref : Int
  bind : Int

def membersValue (r : List Name) : Value := ⟨_, .vector .string, .vector .string, r⟩

/-- `created` is set when the constructor has returned. -/
structure RsmClient where
  knownMems : List Name
  primaryId : Name
  created : Bool
  deriving DecidableEq

namespace RsmClient

/-- The client that the constructor has bound to `dst`. -/
def start (dst : Name) : RsmClient where
  knownMems := []
  primaryId := dst
  created := false

/-- The status of the members call and what is in `known_mems` then.  There is none for an
answer that cannot be written. -/
def callMembers (c : RsmClient) : MembersCall → Option (Int32 × List Name)
  | .failed ret => if ret < 0 then some (ret, c.knownMems) else none
  | .replied xid buf view primary =>
    (Pdu.write buf (.reply ⟨xid, OK⟩) [membersValue (clientMembers view primary)]).map fun m =>
      callM OK ((Unmarshall.new m.buf m.ind).unpackHeader (.reply ⟨xid, OK⟩)).2 c.knownMems

/-- The rest of `init_members`, when `known_mems` has lost its last element. -/
def install (c : RsmClient) (mems : List Name) (newPrimary : Name) (nref bind : Int) :
    Option (Bool × RsmClient) :=
  if newPrimary = c.primaryId then some (true, { c with knownMems := mems })
  else if nref ≠ 0 then none
  else some (decide (0 ≤ bind), { c with knownMems := mems, primaryId := newPrimary })

/-- `init_members(true)`.  The result is `none` when an assertion fails. -/
def initMembers (c : RsmClient) (a : InitCall) : Option (Bool × RsmClient) :=
  (c.callMembers a.call).bind fun r =>
    if r.1 ≠ OK then some (false, { c with knownMems := r.2 })
    else r.2.getLast?.bind fun newPrimary => c.install r.2.dropLast newPrimary a.nref a.bind

/-- The constructor asserts that its call returns true. -/
def step (c : RsmClient) (a : InitCall) : Option RsmClient :=
  (c.initMembers a).bind fun r =>
    if r.1 || c.created then some { r.2 with created := true } else none

def system : System RsmClient InitCall where
  init c := ∃ dst, c = start dst
  step := step

/-- If the call returns true, the client knows the members and the primary that the replica
has answered with. -/
def KnowsMembers (c : RsmClient) (a : InitCall) : Prop :=
  ∀ d, c.initMembers a = some (true, d) → a.call.answer = some (d.knownMems, d.primaryId)

/-- A call that returns true starts without members. -/
def StartsEmpty (c : RsmClient) (a : InitCall) : Prop :=
  ∀ d, c.initMembers a = some (true, d) → c.knownMems = []

/-! ## One call -/

theorem getVector_of_holds (v : List Name) {r : List Name} {u : Unmarshall}
    (h : u.Holds ((Codec.vector .string).bytes r)) :
    getVector v u = (v ++ r, u.skip ((Codec.vector .string).bytes r).length) := by
  have hbytes : (Codec.vector .string).bytes r = _ := Codec.sized_bytes .string r
  rw [hbytes] at h ⊢
  have hget := Codec.getEach_of_size Codec.string_lawful (fun v z => v ++ [z]) v h
  rw [List.foldl_append_eq_append, ← List.flatMap_def, List.flatMap_singleton'] at hget
  exact hget

theorem callM_of_holds (v : List Name) {r : List Name} {u : Unmarshall}
    (h : u.Holds ((Codec.vector .string).bytes r))
    (hend : u.ind + ((Codec.vector .string).bytes r).length = u.sz) :
    callM OK u v = (OK, v ++ r) := by
  have hread := getVector_of_holds v h
  have hdone : (getVector v u).2.okdone = true := by
    rw [hread, Unmarshall.okdone, Unmarshall.skip, h.ok, Bool.true_and]
    exact beq_iff_eq.mpr hend
  rw [callM, if_neg (by decide), if_pos hdone, hread]

theorem membersValue_bytes (r : List Name) :
    bytesOf ([membersValue r].flatMap Value.put) = (Codec.vector .string).bytes r := by
  rw [List.flatMap_singleton]
  rfl

theorem callMembers_replied {c : RsmClient} {xid : Int32} {buf : Nat → UInt8} {view : List Name}
    {primary : Name} {r : Int32 × List Name}
    (h : c.callMembers (.replied xid buf view primary) = some r) :
    r = (OK, c.knownMems ++ view ++ [primary]) := by
  obtain ⟨m, hm, rfl⟩ := Option.map_eq_some_iff.mp h
  rw [Pdu.write_eq] at hm
  split at hm
  · rename_i hfits
    cases hm
    have hsize := Nat.lt_of_le_of_lt (Pdu.size_le_capaAfter _) hfits
    have hholds := Pdu.holds_values buf (.reply ⟨xid, OK⟩) hsize
    rw [membersValue_bytes] at hholds
    have hend := congrArg (fun bs => rpcHeaderSz + bs.length)
      (membersValue_bytes (clientMembers view primary))
    show callM OK (Unmarshall.unpackHeader (.new _ _) _).2 c.knownMems = _
    rw [Pdu.unpackHeader_written buf _ hsize, List.append_assoc]
    exact callM_of_holds c.knownMems hholds hend.symm
  · cases hm

/-- Whether it returns true or not, a call that was answered adds the view. -/
theorem initMembers_replied {c d : RsmClient} {a : InitCall} {ok : Bool} {view : List Name}
    {primary : Name} (hanswer : a.call.answer = some (view, primary))
    (h : c.initMembers a = some (ok, d)) :
    d.knownMems = c.knownMems ++ view ∧ d.primaryId = primary := by
  obtain ⟨r, hr, hrest⟩ := Option.bind_eq_some_iff.mp h
  have hread : r = (OK, c.knownMems ++ view ++ [primary]) := by
    cases hcall : a.call with
    | failed ret =>
      rw [hcall] at hanswer
      cases hanswer
    | replied xid buf view primary =>
      rw [hcall] at hanswer hr
      cases hanswer
      exact callMembers_replied hr
  subst hread
  rw [if_neg (not_not.mpr rfl), List.getLast?_concat, Option.bind_some, List.dropLast_concat,
    install] at hrest
  split_ifs at hrest with hsame hfree
  · cases hrest
    exact ⟨rfl, hsame.symm⟩
  · cases hrest
    exact ⟨rfl, rfl⟩

theorem answer_of_initMembers {c d : RsmClient} {a : InitCall}
    (h : c.initMembers a = some (true, d)) : ∃ view primary,
      a.call.answer = some (view, primary) := by
  cases hcall : a.call with
  | failed ret =>
    obtain ⟨r, hr, hrest⟩ := Option.bind_eq_some_iff.mp h
    rw [hcall, callMembers] at hr
    split_ifs at hr with hneg
    cases hr
    have hne : ret ≠ OK := by
      rintro rfl
      exact absurd hneg (by decide)
    rw [if_pos hne] at hrest
    cases hrest
  | replied xid buf view primary => exact ⟨view, primary, rfl⟩

theorem knowsMembers_iff (c : RsmClient) (a : InitCall) : c.KnowsMembers a ↔ c.StartsEmpty a := by
  refine forall_congr' fun d => imp_congr_right fun h => ?_
  obtain ⟨view, primary, hanswer⟩ := answer_of_initMembers h
  obtain ⟨hknown, hprimary⟩ := initMembers_replied hanswer h
  rw [hanswer, hknown, hprimary]
  constructor
  · intro heq
    have hview : view = c.knownMems ++ view := congrArg Prod.fst (Option.some.inj heq)
    exact List.self_eq_append_left.mp hview
  · intro hempty
    rw [hempty, List.nil_append]

/-! ## Runs -/

/-- For every sequence of calls of `init_members(true)`, whatever views and primaries they are
answered with: after each call that returns true the client knows exactly the members and the
primary of that answer, if and only if each of these calls starts without members. -/
theorem knowsMembers_iff_startsEmpty (dst : Name) (calls : List InitCall) :
    system.StepsMeet KnowsMembers (start dst) calls ↔
      system.StepsMeet StartsEmpty (start dst) calls := by
  have heq : KnowsMembers = StartsEmpty := by
    funext c a
    exact propext (knowsMembers_iff c a)
  rw [heq]

/-- A call that is answered with a view of two. -/
def answeredTwo : InitCall where
  call := .replied 1 (fun _ => 0) [nodeBytes "3001", nodeBytes "3002"] (nodeBytes "3001")
  nref := 0
  bind := 0

/-- The client after the first of these calls. -/
def knowsTwo : RsmClient where
  knownMems := [nodeBytes "3001", nodeBytes "3002"]
  primaryId := nodeBytes "3001"
  created := true

/-- The client after the second, which returns true as well. -/
def knowsTwice : RsmClient where
  knownMems := [nodeBytes "3001", nodeBytes "3002", nodeBytes "3001", nodeBytes "3002"]
  primaryId := nodeBytes "3001"
  created := true

theorem answered_twice_knows_twice :
    system.run (start (nodeBytes "3001")) [answeredTwo, answeredTwo] = some knowsTwice ∧
      ¬ system.StepsMeet KnowsMembers (start (nodeBytes "3001")) [answeredTwo, answeredTwo] := by
  have hfirst : (start (nodeBytes "3001")).step answeredTwo = some knowsTwo := by decide +kernel
  have hsecond : knowsTwo.initMembers answeredTwo = some (true, knowsTwice) := by decide +kernel
  refine ⟨by decide +kernel, fun hmeet => ?_⟩
  have hknows := ((hmeet knowsTwo hfirst).2 knowsTwice (by decide +kernel)).1
  exact absurd (hknows knowsTwice hsecond) (by decide +kernel)

end RsmClient
end Rsm
end Frangipani

/-
The numbers of new files and directories.

A call of `add_entry_to_filesystem` draws a number until `extent_client::get` does not
find an extent under it, and takes the lock of the number afterwards.  The read looks
in the cache of its own client and on the server.  It does not see what another client
has created and not flushed, nor what another call has chosen and not created yet.

Each call runs once, on the client of its request.  A call of the extent client holds
`extent_mutex` to the end and is one step, since nothing is taken off the server
between the two remote calls of a fetch.  A lock is with one client and is used by one
call of it at a time.  It goes back to the server with a flush of the id.

`seen` keeps the caches and the server as they were when a call chose its number.
-/
import Mathlib.Data.Fintype.Basic
import Mathlib.Data.Nat.Bitwise
import Frangipani.Extent.Client
import Frangipani.Transition.System
import Frangipani.Yfs.Directory

namespace Frangipani
namespace Yfs

open Extent Transition Text

/-- The arguments of a call of `add_entry_to_filesystem`, and the client that makes it. -/
structure NewEntry (Clt : Type) where
  client : Clt
  parent : Inum
  name : String
  isFile : Bool

/-- Where a call of `add_entry_to_filesystem` stands. -/
inductive EntryStage
  | waiting
  | locked
  | drawing (buf : Buffer)
  | chosen (buf : Buffer) (entryInum : Inum)
  | linking (buf : Buffer) (entryInum : Inum)
  | creating (entryInum : Inum)
  | releasing (ret : Extent.Status) (entryInum : Option Inum)
  | returned (ret : Extent.Status) (entryInum : Option Inum)
  deriving DecidableEq

namespace EntryStage

/-- The number that the call has chosen. -/
def inum : EntryStage → Option Inum
  | .waiting | .locked | .drawing _ => none
  | .chosen _ n | .linking _ n | .creating n => some n
  | .releasing _ n | .returned _ n => n

/-- The call has still to put the extent of its number. -/
def pending : EntryStage → Bool
  | .chosen .. | .linking .. | .creating _ => true
  | _ => false

end EntryStage

structure Creating (Clt Call : Type) where
  clients : Clt → ExtentClient
  server : ExtentServer
  /-- The client that has the lock of an id. -/
  holder : ExtentId → Option Clt
  /-- The call that uses it. -/
  user : ExtentId → Option Call
  stage : Call → EntryStage
  seen : Call → Option ((Clt → ExtentClient) × ExtentServer)

namespace Creating

variable {Clt Call : Type}

inductive Action (Clt Call : Type)
  | acquireParent (t : Call)
  | getParent (t : Call) (now : UInt32)
  | draw (t : Call) (d : Draw) (now : UInt32)
  | acquireEntry (t : Call)
  | putParent (t : Call) (mtime ctime atime : UInt32)
  | putEntry (t : Call) (mtime ctime atime : UInt32)
  | release (t : Call)
  | handOff (c : Clt) (eid : ExtentId)

def setExtents [DecidableEq Clt] (w : Creating Clt Call) (c : Clt) (ec : ExtentClient)
    (server : ExtentServer) : Creating Clt Call :=
  { w with clients := Function.update w.clients c ec, server }

theorem clients_setExtents_self [DecidableEq Clt] (w : Creating Clt Call) (c : Clt)
    (ec : ExtentClient) (server : ExtentServer) : (w.setExtents c ec server).clients c = ec :=
  Function.update_self ..

theorem clients_setExtents_ne [DecidableEq Clt] (w : Creating Clt Call) {c d : Clt} (h : d ≠ c)
    (ec : ExtentClient) (server : ExtentServer) :
    (w.setExtents c ec server).clients d = w.clients d :=
  Function.update_of_ne h ..

theorem setExtents_same [DecidableEq Clt] (w : Creating Clt Call) (c : Clt) :
    w.setExtents c (w.clients c) w.server = w := by
  rw [setExtents, Function.update_eq_self]

def setStage [DecidableEq Call] (w : Creating Clt Call) (t : Call) (stage : EntryStage) :
    Creating Clt Call :=
  { w with stage := Function.update w.stage t stage }

theorem stage_setStage_self [DecidableEq Call] (w : Creating Clt Call) (t : Call)
    (st : EntryStage) : (w.setStage t st).stage t = st :=
  Function.update_self ..

theorem stage_setStage_ne [DecidableEq Call] (w : Creating Clt Call) {t u : Call} (h : u ≠ t)
    (st : EntryStage) : (w.setStage t st).stage u = w.stage u :=
  Function.update_of_ne h ..

def setSeen [DecidableEq Call] (w : Creating Clt Call) (t : Call)
    (seen : (Clt → ExtentClient) × ExtentServer) : Creating Clt Call :=
  { w with seen := Function.update w.seen t (some seen) }

section Steps

variable [DecidableEq Clt] [DecidableEq Call]

/-- `lc->acquire(eid)`, when the lock is free or with the client and no call uses it. -/
def acquire (w : Creating Clt Call) (c : Clt) (eid : ExtentId) (t : Call) :
    Option (Creating Clt Call) :=
  if w.user eid = none ∧ (w.holder eid = none ∨ w.holder eid = some c) then
    some { w with
      holder := Function.update w.holder eid (some c)
      user := Function.update w.user eid (some t) }
  else none

/-- `lc->release(eid)`.  The lock stays with the client. -/
def unuse (w : Creating Clt Call) (eid : ExtentId) : Creating Clt Call :=
  { w with user := Function.update w.user eid none }

variable (req : Call → NewEntry Clt)

def step (w : Creating Clt Call) : Action Clt Call → Option (Creating Clt Call)
  | .acquireParent t =>
    match w.stage t with
    | .waiting => (w.acquire (req t).client (req t).parent t).map (·.setStage t .locked)
    | _ => none
  | .getParent t now =>
    match w.stage t with
    | .locked =>
      match (w.clients (req t).client).get w.server (req t).parent now with
      | ((.ok, some buf), ec, server) =>
        some ((w.setExtents (req t).client ec server).setStage t (.drawing buf))
      | ((ret, _), ec, server) =>
        some ((w.setExtents (req t).client ec server).setStage t (.releasing ret none))
    | _ => none
  | .draw t d now =>
    match w.stage t with
    | .drawing buf =>
      match (w.clients (req t).client).get w.server (d.inum (req t).isFile) now with
      | ((.ok, _), ec, server) => some (w.setExtents (req t).client ec server)
      | (_, ec, server) =>
        some (((w.setExtents (req t).client ec server).setStage t
          (.chosen buf (d.inum (req t).isFile))).setSeen t (w.clients, w.server))
    | _ => none
  | .acquireEntry t =>
    match w.stage t with
    | .chosen buf n => (w.acquire (req t).client n t).map (·.setStage t (.linking buf n))
    | _ => none
  | .putParent t mtime ctime atime =>
    match w.stage t with
    | .linking buf n =>
      match (w.clients (req t).client).put (req t).parent
          (buf ++ bytes (entryText (decimal64 n) (req t).name)) mtime ctime atime with
      | (.ok, ec) => some ((w.setExtents (req t).client ec w.server).setStage t (.creating n))
      | (ret, ec) =>
        some ((w.setExtents (req t).client ec w.server).setStage t (.releasing ret (some n)))
    | _ => none
  | .putEntry t mtime ctime atime =>
    match w.stage t with
    | .creating n =>
      let (ret, ec) := (w.clients (req t).client).put n [] mtime ctime atime
      some ((w.setExtents (req t).client ec w.server).setStage t (.releasing ret (some n)))
    | _ => none
  | .release t =>
    match w.stage t with
    | .releasing ret n =>
      -- A call that could not read the directory has only its lock.
      let w := n.elim w w.unuse
      some ((w.unuse (req t).parent).setStage t (.returned ret n))
    | _ => none
  | .handOff c eid =>
    if w.holder eid = some c ∧ w.user eid = none then
      let (ec, server) := (w.clients c).flush w.server eid
      some { w.setExtents c ec server with holder := Function.update w.holder eid none }
    else none

/-- No call has begun and no removal is pending.  The caches and the server have anything. -/
def system : System (Creating Clt Call) (Action Clt Call) where
  init w := (∀ t, w.stage t = .waiting) ∧ ∀ c, (w.clients c).removedExtents = []
  step := step req

end Steps

/-! ## What the calls should keep, and when they do -/

/-- The number of each call is that of no other call, was nowhere when it was chosen, and has bit
31 set if and only if it is one for a file. -/
structure Unique (req : Call → NewEntry Clt) (w : Creating Clt Call) : Prop where
  distinct : ∀ t u n, (w.stage t).inum = some n → (w.stage u).inum = some n → t = u
  absent : ∀ t n, (w.stage t).inum = some n → ∃ clients server,
    w.seen t = some (clients, server) ∧ server.extents.find n = none ∧
      ∀ c, (clients c).extents.find n = none
  kind : ∀ t n, (w.stage t).inum = some n → isfile n = (req t).isFile

/-- What a read of client `c` finds. -/
def Found (w : Creating Clt Call) (c : Clt) (n : Inum) : Prop :=
  (w.clients c).extents.find n ≠ none ∨ w.server.extents.find n ≠ none

/-- A number that the read does not find is in no other cache, and no other call has chosen it and
has still to put it. -/
def FreeElsewhere (req : Call → NewEntry Clt) (w : Creating Clt Call) : Action Clt Call → Prop
  | .draw t d _ => w.Found (req t).client (d.inum (req t).isFile) ∨
      (∀ c, (w.clients c).extents.find (d.inum (req t).isFile) = none) ∧
        ∀ u, (w.stage u).pending = true → (w.stage u).inum ≠ some (d.inum (req t).isFile)
  | _ => True

/-- The number is on the server or in a cache. -/
def Present (w : Creating Clt Call) (n : Inum) : Prop :=
  w.server.extents.find n ≠ none ∨ ∃ c, (w.clients c).extents.find n ≠ none

structure Inv (req : Call → NewEntry Clt) (w : Creating Clt Call) : Prop where
  unique : w.Unique req
  removed : ∀ c, (w.clients c).removedExtents = []
  created : ∀ t n, (w.stage t).inum = some n → (w.stage t).pending = true ∨ w.Present n

end Creating

/-! ## A call of the extent client -/

/-- Without removals, what is in the cache or on the server stays in one of the two. -/
structure Kept (ec : ExtentClient) (server : ExtentServer) (ec' : ExtentClient)
    (server' : ExtentServer) : Prop where
  removed : ec'.removedExtents = []
  found : ∀ n, ec.extents.find n ≠ none ∨ server.extents.find n ≠ none →
    ec'.extents.find n ≠ none ∨ server'.extents.find n ≠ none

section

variable {ec : ExtentClient} {server : ExtentServer} {eid : ExtentId}

theorem Kept.of_entered (h : ec.removedExtents = []) (buf : Buffer) (attr : Attr)
    {server' : ExtentServer} (hserver : server'.extents = server.extents) :
    Kept ec server
      ((ec.withLocal (ec.toExtentServer.put eid buf attr).2).addExtentToModifiedQueues eid)
      server' := by
  constructor
  case removed =>
    show ec.removedExtents.erase eid = []
    rw [h, List.erase_nil]
  case found =>
    intro n hn
    rw [hserver]
    show (ec.extents.insert eid buf).find n ≠ none ∨ _
    rw [Map.find_insert]
    split
    · exact .inl (Option.some_ne_none buf)
    · exact hn

theorem get_kept (h : ec.removedExtents = []) (server : ExtentServer) (eid : ExtentId)
    (now : UInt32) :
    Kept ec server (ec.get server eid now).2.1 (ec.get server eid now).2.2 := by
  cases hcached : ec.extents.find eid with
  | some buf =>
    rw [ExtentClient.get_cached server hcached now]
    refine ⟨h, fun n hn => ?_⟩
    show (ec.toExtentServer.get eid now).2.extents.find n ≠ none ∨ _
    rwa [ExtentServer.get_extents]
  | none =>
    cases hs : server.extents.find eid with
    | some buf =>
      obtain ⟨attr, hget⟩ := ExtentClient.get_fetched hcached hs now
      rw [hget]
      exact .of_entered h buf attr (ExtentServer.get_extents ..)
    | none =>
      rw [ExtentClient.get_missing hcached hs now]
      exact ⟨h, fun _ hn => hn⟩

theorem put_kept (h : ec.removedExtents = []) (server : ExtentServer) (eid : ExtentId)
    (buf : Buffer) (mtime ctime atime : UInt32) :
    Kept ec server (ec.put eid buf mtime ctime atime).2 server :=
  .of_entered h buf _ rfl

theorem flush_kept (h : ec.removedExtents = []) (server : ExtentServer) (eid : ExtentId) :
    Kept ec server (ec.flush server eid).1 (ec.flush server eid).2 := by
  have hremoved : (ec.flushModified server eid).1.removedExtents = [] := by
    unfold ExtentClient.flushModified
    split
    · exact h
    · exact h
  have hflush : ec.flush server eid = ec.flushModified server eid := by
    have hnot : eid ∉ (ec.flushModified server eid).1.removedExtents := by
      rw [hremoved]
      exact List.not_mem_nil
    exact ExtentClient.flushRemoved_of_not_mem hnot
  rw [hflush]
  refine ⟨hremoved, fun n hn => ?_⟩
  unfold ExtentClient.flushModified
  split
  · show (ec.extents.erase eid).find n ≠ none ∨ (server.extents.insert eid _).find n ≠ none
    rw [Map.find_erase, Map.find_insert]
    split
    · exact .inr (Option.some_ne_none _)
    · exact hn
  · exact hn

theorem get_ok_iff (ec : ExtentClient) (server : ExtentServer) (eid : ExtentId) (now : UInt32) :
    (ec.get server eid now).1.1 = .ok ↔
      ec.extents.find eid ≠ none ∨ server.extents.find eid ≠ none := by
  cases hcached : ec.extents.find eid with
  | some buf =>
    rw [ExtentClient.get_cached server hcached now]
    simp
  | none =>
    cases hs : server.extents.find eid with
    | some buf =>
      obtain ⟨attr, hget⟩ := ExtentClient.get_fetched hcached hs now
      rw [hget]
      simp
    | none =>
      rw [ExtentClient.get_missing hcached hs now]
      simp

end

theorem isfile_inum (d : Draw) (isFile : Bool) : isfile (d.inum isFile) = isFile := by
  have hand : (d.inum isFile &&& 0x80000000).toNat =
      ((d.inum isFile).toNat.testBit 31).toNat * 2 ^ 31 := by
    rw [UInt64.toNat_and]
    exact Nat.and_two_pow _ 31
  have hbit : (d.inum isFile).toNat.testBit 31 = isFile := by
    rw [Draw.inum, UInt32.toNat_toUInt64]
    cases isFile with
    | true =>
      show (0x80000000 ||| d.id).toNat.testBit 31 = true
      rw [UInt32.toNat_or, Nat.testBit_or]
      rfl
    | false =>
      have hlt : d.id.toNat ≤ 0x7FFFFFFF := UInt32.le_iff_toNat_le.mp d.high
      exact Nat.testBit_lt_two_pow (by omega : d.id.toNat < 2 ^ 31)
  rw [hbit] at hand
  cases isFile with
  | true =>
    refine bne_iff_ne.mpr fun hzero => ?_
    rw [hzero] at hand
    cases hand
  | false => exact bne_eq_false_iff_eq.mpr (UInt64.toNat_inj.mp hand)

namespace Creating

variable {Clt Call : Type}

/-! ## The steps keep the invariant -/

section

variable {req : Call → NewEntry Clt} {w : Creating Clt Call}

theorem Inv.locks (h : w.Inv req) (holder : ExtentId → Option Clt)
    (user : ExtentId → Option Call) : Inv req { w with holder, user } :=
  ⟨⟨h.unique.distinct, h.unique.absent, h.unique.kind⟩, h.removed, h.created⟩

theorem Inv.setStage [DecidableEq Call] (h : w.Inv req) {t : Call} {st : EntryStage}
    (hinum : st.inum = (w.stage t).inum)
    (hdone : ∀ n, st.inum = some n → st.pending = true ∨ w.Present n) :
    (w.setStage t st).Inv req := by
  have hkeep : ∀ u, ((w.setStage t st).stage u).inum = (w.stage u).inum := by
    intro u
    by_cases hu : u = t
    · rw [hu, stage_setStage_self, hinum]
    · rw [stage_setStage_ne _ hu]
  refine ⟨⟨fun u v n hu hv => ?_, fun u n hu => ?_, fun u n hu => ?_⟩, h.removed, fun u n hu => ?_⟩
  · rw [hkeep] at hu hv
    exact h.unique.distinct u v n hu hv
  · rw [hkeep] at hu
    exact h.unique.absent u n hu
  · rw [hkeep] at hu
    exact h.unique.kind u n hu
  · by_cases hut : u = t
    · rw [hut, stage_setStage_self] at hu ⊢
      exact hdone n hu
    · rw [stage_setStage_ne _ hut] at hu ⊢
      exact h.created u n hu

theorem Inv.choose [DecidableEq Call] (h : w.Inv req) {t : Call} {d : Draw} {buf : Buffer}
    (hstage : w.stage t = .drawing buf)
    (hfound : ¬ w.Found (req t).client (d.inum (req t).isFile))
    (hcaches : ∀ c, (w.clients c).extents.find (d.inum (req t).isFile) = none)
    (hcalls : ∀ u, (w.stage u).pending = true → (w.stage u).inum ≠ some (d.inum (req t).isFile)) :
    ((w.setStage t (.chosen buf (d.inum (req t).isFile))).setSeen t
      (w.clients, w.server)).Inv req := by
  have hserver : w.server.extents.find (d.inum (req t).isFile) = none :=
    not_not.mp (not_or.mp hfound).2
  -- What another call has put is present, and the number is not.
  have hother : ∀ u, (w.stage u).inum ≠ some (d.inum (req t).isFile) := by
    intro u hu
    rcases h.created u _ hu with hpending | hpresent | ⟨c, hc⟩
    · exact hcalls u hpending hu
    · exact hpresent hserver
    · exact hc (hcaches c)
  have hcases : ∀ {u n}, ((w.setStage t (.chosen buf (d.inum (req t).isFile))).stage u).inum =
      some n → u = t ∧ n = d.inum (req t).isFile ∨ u ≠ t ∧ (w.stage u).inum = some n := by
    intro u n hu
    by_cases hut : u = t
    · rw [hut, stage_setStage_self] at hu
      exact .inl ⟨hut, (Option.some.inj hu).symm⟩
    · rw [stage_setStage_ne _ hut] at hu
      exact .inr ⟨hut, hu⟩
  constructor
  case unique =>
    refine ⟨fun u v n hu hv => ?_, fun u n hu => ?_, fun u n hu => ?_⟩
    · rcases hcases hu with ⟨rfl, rfl⟩ | ⟨-, hold⟩
      · rcases hcases hv with ⟨rfl, -⟩ | ⟨-, hnew⟩
        · rfl
        · exact absurd hnew (hother v)
      · rcases hcases hv with ⟨rfl, rfl⟩ | ⟨-, hnew⟩
        · exact absurd hold (hother u)
        · exact h.unique.distinct u v n hold hnew
    · rcases hcases hu with ⟨rfl, rfl⟩ | ⟨hut, hu⟩
      · exact ⟨w.clients, w.server, Function.update_self .., hserver, hcaches⟩
      · obtain ⟨clients, server, hseen, habsent⟩ := h.unique.absent u n hu
        exact ⟨clients, server, (Function.update_of_ne hut ..).trans hseen, habsent⟩
    · rcases hcases hu with ⟨rfl, rfl⟩ | ⟨-, hu⟩
      · exact isfile_inum d (req u).isFile
      · exact h.unique.kind u n hu
  case removed => exact h.removed
  case created =>
    intro u n hu
    rcases hcases hu with ⟨rfl, rfl⟩ | ⟨hut, hu⟩
    · refine .inl ?_
      show ((w.setStage u (.chosen buf (d.inum (req u).isFile))).stage u).pending = true
      rw [stage_setStage_self]
      rfl
    · show ((w.setStage t (.chosen buf (d.inum (req t).isFile))).stage u).pending = true ∨ _
      rw [stage_setStage_ne _ hut]
      exact h.created u n hu

variable [DecidableEq Clt]

theorem Present.setExtents {n : Inum} (h : w.Present n) {c : Clt} {ec : ExtentClient}
    {server : ExtentServer} (hkept : Kept (w.clients c) w.server ec server) :
    (w.setExtents c ec server).Present n := by
  have hown : (w.clients c).extents.find n ≠ none ∨ w.server.extents.find n ≠ none →
      (w.setExtents c ec server).Present n := by
    intro hfound
    rcases hkept.found n hfound with hec | hserver
    · refine .inr ⟨c, ?_⟩
      rwa [clients_setExtents_self]
    · exact .inl hserver
  rcases h with hserver | ⟨d, hd⟩
  · exact hown (.inr hserver)
  · by_cases hdc : d = c
    · exact hown (.inl (hdc ▸ hd))
    · refine .inr ⟨d, ?_⟩
      rwa [clients_setExtents_ne _ hdc]

theorem Inv.setExtents (h : w.Inv req) {c : Clt} {ec : ExtentClient} {server : ExtentServer}
    (hkept : Kept (w.clients c) w.server ec server) : (w.setExtents c ec server).Inv req := by
  refine ⟨⟨h.unique.distinct, h.unique.absent, h.unique.kind⟩, fun d => ?_, fun t n hn => ?_⟩
  · by_cases hd : d = c
    · rw [hd, clients_setExtents_self]
      exact hkept.removed
    · rw [clients_setExtents_ne _ hd]
      exact h.removed d
  · exact (h.created t n hn).imp_right fun hp => hp.setExtents hkept

theorem acquire_eq_some {c : Clt} {eid : ExtentId} {t : Call} {w' : Creating Clt Call}
    (hs : w.acquire c eid t = some w') : ∃ holder user, w' = { w with holder, user } := by
  unfold acquire at hs
  split at hs
  · cases hs
    exact ⟨_, _, rfl⟩
  · cases hs

variable [DecidableEq Call]

/-- A draw that the read finds changes the cache at most.  Another one is chosen. -/
theorem Inv.step_draw (h : w.Inv req) {t : Call} {d : Draw} {now : UInt32} {w' : Creating Clt Call}
    (hs : step req w (.draw t d now) = some w') :
    ∃ buf, w.stage t = .drawing buf ∧
      (w.Found (req t).client (d.inum (req t).isFile) ∧
          (∃ ec server, Kept (w.clients (req t).client) w.server ec server ∧
            w' = w.setExtents (req t).client ec server) ∨
        ¬ w.Found (req t).client (d.inum (req t).isFile) ∧
          w' = (w.setStage t (.chosen buf (d.inum (req t).isFile))).setSeen t
            (w.clients, w.server)) := by
  simp only [step] at hs
  split at hs
  · rename_i buf hstage
    refine ⟨buf, hstage, ?_⟩
    by_cases hfound : w.Found (req t).client (d.inum (req t).isFile)
    · have hstatus := (get_ok_iff _ _ _ now).mpr hfound
      have hkept := get_kept (h.removed (req t).client) w.server (d.inum (req t).isFile) now
      split at hs
      · rename_i heq
        cases hs
        rw [heq] at hkept
        exact .inl ⟨hfound, _, _, hkept, rfl⟩
      · rename_i hno heq
        rw [heq] at hstatus
        exact (hno _ (Prod.ext hstatus rfl)).elim
    · obtain ⟨hcache, hserver⟩ := not_or.mp hfound
      rw [ExtentClient.get_missing (not_not.mp hcache) (not_not.mp hserver) now] at hs
      simp only [setExtents_same, Option.some.injEq] at hs
      exact .inr ⟨hfound, hs.symm⟩
  · cases hs

/-- A call that lets its locks go has created its entry, or has none. -/
theorem Inv.release (h : w.Inv req) {t : Call} {w' : Creating Clt Call}
    (hs : step req w (.release t) = some w') : w'.Inv req := by
  simp only [Creating.step] at hs
  split at hs
  · rename_i ret n hstage
    have huser : ∃ user, (n.elim w w.unuse).unuse (req t).parent = { w with user } := by
      cases n with
      | none => exact ⟨_, rfl⟩
      | some n => exact ⟨_, rfl⟩
    obtain ⟨user, huser⟩ := huser
    simp only [huser, Option.some.injEq] at hs
    subst hs
    refine (h.locks w.holder user).setStage (congrArg EntryStage.inum hstage).symm
      fun m hm => .inr ?_
    have hcreated := h.created t m (hstage ▸ hm)
    rw [hstage] at hcreated
    exact hcreated.resolve_left Bool.false_ne_true
  · cases hs

theorem Inv.step (h : w.Inv req) {a : Action Clt Call} {w' : Creating Clt Call}
    (hok : w.FreeElsewhere req a) (hs : step req w a = some w') : w'.Inv req := by
  cases a with
  | acquireParent t =>
    simp only [Creating.step] at hs
    split at hs
    · rename_i hstage
      obtain ⟨v, hv, rfl⟩ := Option.map_eq_some_iff.mp hs
      obtain ⟨holder, user, rfl⟩ := acquire_eq_some hv
      exact (h.locks holder user).setStage (by simp only [hstage]; rfl) nofun
    · cases hs
  | getParent t now =>
    simp only [Creating.step] at hs
    have hkept := get_kept (h.removed (req t).client) w.server (req t).parent now
    split at hs
    · rename_i hstage
      split at hs
      · rename_i heq
        rw [heq] at hkept
        cases hs
        exact (h.setExtents hkept).setStage (congrArg EntryStage.inum hstage).symm nofun
      · rename_i heq
        rw [heq] at hkept
        cases hs
        exact (h.setExtents hkept).setStage (congrArg EntryStage.inum hstage).symm nofun
    · cases hs
  | draw t d now =>
    obtain ⟨buf, hstage, ⟨-, ec, server, hkept, rfl⟩ | ⟨hfound, rfl⟩⟩ := h.step_draw hs
    · exact h.setExtents hkept
    · obtain ⟨hcaches, hcalls⟩ := hok.resolve_left hfound
      exact h.choose hstage hfound hcaches hcalls
  | acquireEntry t =>
    simp only [Creating.step] at hs
    split at hs
    · rename_i buf n hstage
      obtain ⟨v, hv, rfl⟩ := Option.map_eq_some_iff.mp hs
      obtain ⟨holder, user, rfl⟩ := acquire_eq_some hv
      exact (h.locks holder user).setStage (congrArg EntryStage.inum hstage).symm
        fun _ _ => .inl rfl
    · cases hs
  | putParent t mtime ctime atime =>
    simp only [Creating.step] at hs
    split at hs
    · rename_i buf n hstage
      cases hs
      exact (h.setExtents (put_kept (h.removed _) ..)).setStage
        (congrArg EntryStage.inum hstage).symm fun _ _ => .inl rfl
    · cases hs
  | putEntry t mtime ctime atime =>
    simp only [Creating.step] at hs
    split at hs
    · rename_i n hstage
      cases hs
      refine (h.setExtents (put_kept (h.removed _) ..)).setStage
        (congrArg EntryStage.inum hstage).symm fun m hm => .inr (.inr ⟨(req t).client, ?_⟩)
      cases hm
      rw [clients_setExtents_self]
      exact Option.ne_none_iff_exists'.mpr ⟨[], Map.find_insert_self ..⟩
    · cases hs
  | release t => exact h.release hs
  | handOff c eid =>
    simp only [Creating.step] at hs
    split at hs
    · cases hs
      exact (h.setExtents (flush_kept (h.removed c) w.server eid)).locks _ _
    · cases hs

theorem inv_of_init (h : (system req).init w) : w.Inv req := by
  obtain ⟨hstage, hremoved⟩ := h
  have hnone : ∀ {t n}, (w.stage t).inum ≠ some n := by
    intro t n hn
    rw [hstage] at hn
    cases hn
  exact ⟨⟨fun _ _ _ ht => absurd ht hnone, fun _ _ ht => absurd ht hnone,
    fun _ _ ht => absurd ht hnone⟩, hremoved, fun _ _ ht => absurd ht hnone⟩

/-- A number is chosen that another cache has, or that another call has chosen too. -/
theorem Inv.not_unique (h : w.Inv req) {a : Action Clt Call} {w' : Creating Clt Call}
    (hok : ¬ w.FreeElsewhere req a) (hs : Creating.step req w a = some w') :
    ¬ w'.Unique req := by
  intro hunique
  cases a with
  | draw t d now =>
    obtain ⟨hfound, hbusy⟩ := not_or.mp hok
    obtain ⟨buf, hstage, ⟨hno, -⟩ | ⟨-, rfl⟩⟩ := h.step_draw hs
    · exact hfound hno
    · have hself : ((w.setStage t (.chosen buf (d.inum (req t).isFile))).stage t).inum =
          some (d.inum (req t).isFile) := by
        rw [stage_setStage_self]
        rfl
      refine hbusy ⟨fun c => ?_, fun u hpending hu => ?_⟩
      · obtain ⟨clients, server, hseen, -, habsent⟩ := hunique.absent t _ hself
        cases (Function.update_self ..).symm.trans hseen
        exact habsent c
      · have hut : u ≠ t := by
          rintro rfl
          rw [hstage] at hpending
          cases hpending
        have hother : ((w.setStage t (.chosen buf (d.inum (req t).isFile))).stage u).inum =
            some (d.inum (req t).isFile) := by
          rw [stage_setStage_ne _ hut, hu]
        exact hut (hunique.distinct u t _ hother hself)
  | acquireParent | getParent | acquireEntry | putParent | putEntry | release | handOff =>
    exact hok trivial

/-- For any number of clients and calls, from any contents of the caches and the server: the
numbers of a run are unique throughout if and only if, whenever a number is drawn that the read
does not find, no other cache has it and no other call is about to create it. -/
theorem unique_iff_freeElsewhere (hw : (system req).init w) (as : List (Action Clt Call)) :
    (system req).AlongRun (Unique req) w as ↔ (system req).StepsMeet (FreeElsewhere req) w as :=
  System.alongRun_iff_stepsMeet (J := Inv req) (fun _ h => h.unique)
    (fun _ _ _ h hok hs => h.step hok hs) (fun _ _ _ h hok hs => h.not_unique hok hs)
    (inv_of_init hw)

end

/-! ## Two clients with a directory each -/

instance (w : Creating Clt Call) (c : Clt) (n : Inum) : Decidable (w.Found c n) :=
  inferInstanceAs (Decidable (_ ∨ _))

instance [Fintype Clt] [Fintype Call] (req : Call → NewEntry Clt) (w : Creating Clt Call) :
    DecidablePred (w.FreeElsewhere req)
  | .draw .. => inferInstanceAs (Decidable (_ ∨ _ ∧ _))
  | .acquireParent _ | .getParent .. | .acquireEntry _ | .putParent .. | .putEntry .. | .release _
  | .handOff .. => isTrue trivial

/-- Two directories on the server. -/
def twoDirs : Creating (Fin 2) (Fin 2) where
  clients _ := .new
  server := ((ExtentServer.new.put 1 [] default).2.put 2 [] default).2
  holder _ := none
  user _ := none
  stage _ := .waiting
  seen _ := none

/-- Each client creates a file in its own directory. -/
def oneFileEach (t : Fin 2) : NewEntry (Fin 2) where
  client := t
  parent := if t = 0 then 1 else 2
  name := "a"
  isFile := true

/-- The calls draw before either has created its file. -/
def drawThenCreate (d : Draw) : List (Action (Fin 2) (Fin 2)) :=
  [.acquireParent 0, .getParent 0 0, .draw 0 .five 0, .acquireParent 1, .getParent 1 0, .draw 1 d 0,
    .acquireEntry 0, .putParent 0 0 0 0, .putEntry 0 0 0 0, .release 0, .handOff 0 0x80000005,
    .acquireEntry 1, .putParent 1 0 0 0, .putEntry 1 0 0 0, .release 1]

theorem unique_iff_twoDraws :
    (system oneFileEach).AlongRun (Unique oneFileEach) twoDirs (drawThenCreate .six) ∧
      ((system oneFileEach).run twoDirs (drawThenCreate .six)).isSome := by
  refine ⟨(unique_iff_freeElsewhere ⟨fun _ => rfl, fun _ => rfl⟩ _).mpr ?_, ?_⟩
  · decide +kernel
  · decide +kernel

/-- With one draw both calls return `OK` and the same number. -/
theorem sameDraw_not_unique :
    (system oneFileEach).init twoDirs ∧
      ((system oneFileEach).final twoDirs (drawThenCreate .five)).stage 0 =
        .returned .ok (some 0x80000005) ∧
      ((system oneFileEach).final twoDirs (drawThenCreate .five)).stage 1 =
        .returned .ok (some 0x80000005) ∧
      ¬ (system oneFileEach).AlongRun (Unique oneFileEach) twoDirs (drawThenCreate .five) := by
  have hfirst : ((system oneFileEach).final twoDirs (drawThenCreate .five)).stage 0 =
      .returned .ok (some 0x80000005) := by decide +kernel
  have hsecond : ((system oneFileEach).final twoDirs (drawThenCreate .five)).stage 1 =
      .returned .ok (some 0x80000005) := by decide +kernel
  refine ⟨⟨fun _ => rfl, fun _ => rfl⟩, hfirst, hsecond, fun hrun => ?_⟩
  have hunique := hrun.final (by decide +kernel)
  have hsame := hunique.distinct 0 1 0x80000005 (by rw [hfirst]; rfl) (by rw [hsecond]; rfl)
  cases hsame

end Creating
end Yfs
end Frangipani

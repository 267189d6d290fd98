/-
The connections of a client.

`rpcc` has one connection at a time, its channel, and makes a new one when a call finds that
it is dead.  A call takes a reference to the channel that it sends on, and keeps it until it
sends on another or returns.  So there may be old channels, which are dead, next to the one
in use.

`get_refconn` has `chan_m_`, but its calls of `decref` and `incref` are steps of their own.
Other calls give back their references in between, and the poll thread finds connections
dead.  While it connects, `chan_` still has the address of the old channel, whose reference
is given back.  Nobody reads it then, and it is null here.

The destructor may run when no call is under way.
-/
import Frangipani.Concurrency.Threads
import Frangipani.Rpc.References

namespace Frangipani
namespace Rpc

open Memory Concurrency Transition

/-- A thread in `call1`, with the connection that it has a reference to: out of it, before
`get_refconn`, in `get_refconn` before it looks at the channel, while it connects, before it gives
back the old reference, and before it takes the new one, in `send`, waiting for the reply or a
deadline, and before the last `decref`. -/
inductive Calling
  | idle
  | transmitting (ch : Option Nat)
  | looking (ch : Option Nat)
  | connecting (ch : Option Nat)
  | swapping (ch : Option Nat)
  | taking
  | sending (ch : Nat)
  | waiting (ch : Option Nat)
  | leaving (ch : Option Nat)
  deriving DecidableEq

namespace Calling

def conn : Calling → Option Nat
  | .idle | .taking => none
  | .transmitting ch | .looking ch | .connecting ch | .swapping ch | .waiting ch | .leaving ch => ch
  | .sending ch => some ch

/-- The thread has `chan_m_`. -/
def HasChanM : Calling → Prop
  | .looking _ | .connecting _ | .swapping _ | .taking => True
  | .idle | .transmitting _ | .sending _ | .waiting _ | .leaving _ => False

end Calling

structure Channel (T : Type) where
  retrans : Bool
  reachable : Bool
  pool : Conns
  chan : Option Nat
  /-- The thread that has `chan_m_`. -/
  chanM : Option T
  call : T → Calling
  destroyed : Bool

/-- What the threads do next.  `connect` has the address and the descriptor of the new connection,
and `none` when it fails; `sent` is whether the write fails, and `finish` ends the wait with a reply
or the last deadline. -/
inductive ChannelAction (T : Type)
  | call (t : T)
  | lock (t : T)
  | look (t : T)
  | connect (t : T) (made : Option (Nat × Int))
  | swap (t : T)
  | take (t : T)
  | sent (t : T) (failed : Bool)
  | timeout (t : T)
  | finish (t : T)
  | leave (t : T)
  | die (c : Nat)
  | setReachable (r : Bool)
  | destroy

namespace Channel

variable {T : Type}

def new (retrans : Bool) : Channel T where
  retrans := retrans
  reachable := true
  pool := .new
  chan := none
  chanM := none
  call := fun _ => .idle
  destroyed := false

section

variable [DecidableEq T]

def setCall (s : Channel T) (t : T) (pc : Calling) : Channel T :=
  { s with call := Function.update s.call t pc }

/-- Look at the channel, and give it up when it is dead. -/
def look (s : Channel T) (t : T) (ch : Option Nat) : Channel T :=
  match s.chan with
  | none => s.setCall t (.connecting ch)
  | some c =>
    if s.pool.dead c then
      { s with chan := none, pool := s.pool.decref c }.setCall t (.connecting ch)
    else s.setCall t (.swapping ch)

/-- `connect_to_dst`.  Without a channel the call keeps what it has, and waits. -/
def connect (s : Channel T) (t : T) (ch : Option Nat) : Option (Nat × Int) → Channel T
  | none => { s with chanM := none }.setCall t (.waiting ch)
  | some (c, fd) => { s with chan := some c, pool := s.pool.create c fd }.setCall t (.swapping ch)

/-- Take the reference, and leave `get_refconn`. -/
def take (s : Channel T) (t : T) : Option (Channel T) :=
  match s.chan with
  | none => none
  | some c =>
    some ({ s with chanM := none, pool := s.pool.incref c }.setCall t
      (if s.reachable then .sending c else .waiting (some c)))

/-- The destructor. -/
def destroy (s : Channel T) : Channel T :=
  match s.chan with
  | none => { s with destroyed := true }
  | some c => { s with chan := none, pool := (s.pool.die c).decref c, destroyed := true }

/-- The connection is dead, or there is none. -/
def gone (s : Channel T) : Option Nat → Bool
  | none => true
  | some c => s.pool.dead c

/-- A new connection has an address and a descriptor that are not in use. -/
def step [Fintype T] (s : Channel T) : ChannelAction T → Option (Channel T)
  | .call t =>
    if s.call t = .idle ∧ s.destroyed = false then some (s.setCall t (.transmitting none)) else none
  | .lock t =>
    match s.call t with
    | .transmitting ch =>
      if s.chanM.isNone then some ({ s with chanM := some t }.setCall t (.looking ch)) else none
    | _ => none
  | .look t =>
    match s.call t with
    | .looking ch => some (s.look t ch)
    | _ => none
  | .connect t made =>
    match s.call t with
    | .connecting ch =>
      if made.all fun r => !s.pool.heap.live r.1 && !s.pool.fds r.2 then
        some (s.connect t ch made)
      else none
    | _ => none
  | .swap t =>
    match s.call t with
    | .swapping ch => some ({ s with pool := s.pool.decrefAt ch }.setCall t .taking)
    | _ => none
  | .take t =>
    match s.call t with
    | .taking => s.take t
    | _ => none
  | .sent t failed =>
    match s.call t with
    | .sending c =>
      some ({ s with pool := if failed then s.pool.die c else s.pool }.setCall t
        (.waiting (some c)))
    | _ => none
  | .timeout t =>
    match s.call t with
    | .waiting ch =>
      if s.retrans && s.gone ch then some (s.setCall t (.transmitting ch)) else some s
    | _ => none
  | .finish t =>
    match s.call t with
    | .waiting ch => some (s.setCall t (.leaving ch))
    | _ => none
  | .leave t =>
    match s.call t with
    | .leaving ch => some ({ s with pool := s.pool.decrefAt ch }.setCall t .idle)
    | _ => none
  | .die c => if s.pool.heap.live c = true then some { s with pool := s.pool.die c } else none
  | .setReachable r => some { s with reachable := r }
  | .destroy =>
    if s.destroyed = false ∧ ∀ t, s.call t = .idle then some s.destroy else none

def system [Fintype T] : System (Channel T) (ChannelAction T) where
  init s := ∃ retrans, s = new retrans
  step := step

end

/-! ## The references -/

variable [Fintype T]

/-- All references to a connection. -/
def refs (s : Channel T) (c : Nat) : Nat :=
  one s.chan c + total (fun pc : Calling => one pc.conn c) s.call

/-- The connections count their references.  All of them are used, and only the channel is not
dead. -/
structure Accounted (s : Channel T) : Prop where
  balanced : Balanced s.pool.Live s.pool.refno s.refs
  used : ∀ c, s.pool.Live c → 0 < s.refs c
  alive : ∀ c, s.pool.Live c → s.pool.dead c = false → s.chan = some c

/-- Where the threads may be. -/
structure Control (s : Channel T) : Prop where
  locked : ∀ t, (s.call t).HasChanM → s.chanM = some t
  connecting : ∀ t ch, s.call t = .connecting ch → s.chan = none
  destroyed : s.destroyed = true → s.chan = none ∧ ∀ t, s.call t = .idle

end Channel

namespace Conns

variable {p : Conns} {c d : Nat} {r r' : Nat → Nat}

@[simp] theorem dead_decref (p : Conns) (c d : Nat) : (p.decref c).dead d = p.dead d := by
  by_cases h : d = c <;> simp [dead, h]

@[simp] theorem dead_incref (p : Conns) (c d : Nat) : (p.incref c).dead d = p.dead d := by
  by_cases h : d = c <;> simp [incref, dead, Heap.write, h]

/-- A connection that is still there after its last reference is not dead. -/
theorem used_decref (h : Balanced p.Live p.refno r) (hused : ∀ d, p.Live d → 0 < r d)
    (hr : ∀ d, r d = r' d + one (some c) d) (hlive : (p.decref c).Live d) :
    0 < r' d ∨ (d = c ∧ p.dead c = false) := by
  by_cases hdc : d = c
  · subst hdc
    by_cases hlast : p.refno d - 1 = 0 ∧ p.dead d = true
    · rw [decref_last hlast] at hlive
      simp [Live, Heap.free] at hlive
    · have hcount := h.counted d (live_of_decref hlive)
      have hrd := hr d
      rw [one_self] at hrd
      by_cases hpos : 0 < r' d
      · exact .inl hpos
      · refine .inr ⟨rfl, ?_⟩
        by_contra hdead
        exact hlast ⟨by omega, by simpa using hdead⟩
  · have hrd := hr d
    rw [one_ne hdc, Nat.add_zero] at hrd
    rw [← hrd]
    exact .inl (hused d (live_of_decref hlive))

end Conns

namespace Channel

variable {T : Type} [Fintype T]

theorem accounted_new (retrans : Bool) : (new retrans : Channel T).Accounted where
  balanced := by
    refine ⟨fun c hc => (by cases hc), fun c hc => ?_⟩
    have hzero : (new retrans : Channel T).refs c = 0 := by
      rw [refs, show (new retrans : Channel T).chan = none from rfl, one_none]
      exact (Nat.zero_add _).trans (total_eq_zero fun t => one_none c)
    omega
  used c hc := by cases hc
  alive c hc := by cases hc

omit [Fintype T] in
theorem control_new (retrans : Bool) : (new retrans : Channel T).Control where
  locked t ht := ht.elim
  connecting t ch ht := by cases ht
  destroyed h := by cases h

section Control

omit [Fintype T]

variable [DecidableEq T] {s s' : Channel T} {t : T}

theorem control_of_update {pc : Calling} (hcall : s'.call = Function.update s.call t pc)
    (hdestroyed : s'.destroyed = false) (hlocked : pc.HasChanM → s'.chanM = some t)
    (hlocked' : ∀ u, u ≠ t → (s.call u).HasChanM → s'.chanM = some u)
    (hconnecting : ∀ ch, pc = .connecting ch → s'.chan = none)
    (hconnecting' : ∀ u ch, u ≠ t → s.call u = .connecting ch → s'.chan = none) : s'.Control where
  locked u hu := by
    rw [hcall] at hu
    by_cases hut : u = t
    · subst hut
      rw [Function.update_self] at hu
      exact hlocked hu
    · rw [Function.update_of_ne hut] at hu
      exact hlocked' u hut hu
  connecting u ch hu := by
    rw [hcall] at hu
    by_cases hut : u = t
    · subst hut
      rw [Function.update_self] at hu
      exact hconnecting ch hu
    · rw [Function.update_of_ne hut] at hu
      exact hconnecting' u ch hut hu
  destroyed hd := by
    rw [hdestroyed] at hd
    cases hd

omit [DecidableEq T] in
theorem Control.alive (h : s.Control) {pc : Calling} (ht : s.call t = pc) (hpc : pc ≠ .idle) :
    s.destroyed = false := by
  by_contra hd
  exact hpc (ht.symm.trans ((h.destroyed (by simpa using hd)).2 t))

omit [DecidableEq T] in
theorem Control.only (h : s.Control) (ht : (s.call t).HasChanM) {u : T}
    (hu : (s.call u).HasChanM) : u = t :=
  Option.some.inj ((h.locked u hu).symm.trans (h.locked t ht))

end Control

variable [DecidableEq T] {s s' : Channel T} {t : T}

theorem refs_setCall (s : Channel T) (t : T) (pc : Calling) (c : Nat) :
    (s.setCall t pc).refs c + one (s.call t).conn c = s.refs c + one pc.conn c := by
  have htotal := total_update (fun pc : Calling => one pc.conn c) s.call t pc
  show one s.chan c + total _ (Function.update s.call t pc) + _ = one s.chan c + total _ _ + _
  omega

theorem refs_setCall_same {pc : Calling} (h : pc.conn = (s.call t).conn) :
    (s.setCall t pc).refs = s.refs := by
  funext c
  have hrefs := s.refs_setCall t pc c
  rw [h] at hrefs
  omega

theorem Accounted.setCall (h : s.Accounted) {pc : Calling} (hpc : pc.conn = (s.call t).conn) :
    (s.setCall t pc).Accounted where
  balanced := by
    rw [refs_setCall_same hpc]
    exact h.balanced
  used := by
    rw [refs_setCall_same hpc]
    exact h.used
  alive := h.alive

/-- A thread gives back its reference.  If that was the last, the connection is not the channel,
and so it is dead. -/
theorem Accounted.drop (h : s.Accounted) {pc : Calling} (hpc : pc.conn = none) :
    ({ s with pool := s.pool.decrefAt (s.call t).conn }.setCall t pc).Accounted := by
  cases hconn : (s.call t).conn with
  | none => exact h.setCall (hpc.trans hconn.symm)
  | some c =>
    have hr : ∀ d, s.refs d = (s.setCall t pc).refs d + one (some c) d := by
      intro d
      have hrefs := s.refs_setCall t pc d
      rw [hconn, hpc, one_none] at hrefs
      omega
    have halive : ∀ d, (s.pool.decref c).Live d → (s.pool.decref c).dead d = false →
        s.chan = some d := by
      intro d hlive hdead
      rw [Conns.dead_decref] at hdead
      exact h.alive d (Conns.live_of_decref hlive) hdead
    refine ⟨balanced_decref h.balanced hr, fun d hlive => ?_, halive⟩
    rcases Conns.used_decref h.balanced h.used hr hlive with hpos | ⟨rfl, hdead⟩
    · exact hpos
    · have hchan := halive d hlive ((Conns.dead_decref ..).trans hdead)
      show 0 < one s.chan d + _
      rw [hchan, one_self]
      omega

omit [DecidableEq T] in
theorem Accounted.giveUp (h : s.Accounted) {c : Nat} (hchan : s.chan = some c)
    (hdead : s.pool.dead c = true) :
    { s with chan := none, pool := s.pool.decref c }.Accounted := by
  have hr : ∀ d, s.refs d = { s with chan := none }.refs d + one (some c) d := by
    intro d
    show one s.chan d + total _ s.call = one none d + total _ s.call + _
    rw [hchan, one_none]
    omega
  refine ⟨balanced_decref h.balanced hr, fun d hlive => ?_, fun d hlive hd => ?_⟩
  · rcases Conns.used_decref h.balanced h.used hr hlive with hpos | ⟨rfl, hno⟩
    · exact hpos
    · rw [hdead] at hno
      cases hno
  · rw [Conns.dead_decref] at hd
    have := h.alive d (Conns.live_of_decref hlive) hd
    rw [hchan] at this
    cases this
    rw [hdead] at hd
    cases hd

omit [DecidableEq T] in
theorem Accounted.die (h : s.Accounted) (c : Nat) : { s with pool := s.pool.die c }.Accounted where
  balanced := ⟨fun d hd => by rw [Conns.refno_die]; exact h.balanced.counted d hd,
    h.balanced.dangling⟩
  used := h.used
  alive d hlive hd := by
    refine h.alive d hlive ?_
    by_cases hdc : d = c
    · subst hdc
      simp [Conns.die, Conns.dead, Heap.write] at hd
    · simpa [Conns.die, Conns.dead, Heap.write, hdc] using hd

omit [DecidableEq T] in
theorem Accounted.create (h : s.Accounted) (hchan : s.chan = none) {c : Nat} {fd : Int}
    (hc : s.pool.heap.live c = false) :
    { s with chan := some c, pool := s.pool.create c fd }.Accounted := by
  have hnot : ¬ s.pool.Live c := by
    rw [Conns.Live, hc]
    exact Bool.false_ne_true
  have hr : ∀ d, { s with chan := some c }.refs d = s.refs d + one (some c) d := by
    intro d
    show one (some c) d + total _ s.call = one s.chan d + total _ s.call + _
    rw [hchan, one_none]
    omega
  have hlive : ∀ d, (s.pool.create c fd).Live d → d = c ∨ s.pool.Live d := fun d hd =>
    or_iff_not_imp_left.mpr fun hdc => (Conns.live_create_ne hdc fd).mp hd
  refine ⟨balanced_create h.balanced hnot fd hr, fun d hd => ?_, fun d hd hdead => ?_⟩
  · show 0 < { s with chan := some c }.refs d
    rw [hr]
    rcases hlive d hd with rfl | hd
    · rw [one_self]
      omega
    · have := h.used d hd
      omega
  · rcases hlive d hd with rfl | hd
    · rfl
    · by_cases hdc : d = c
      · rw [hdc]
      · -- Another connection that is not dead would be the channel.
        have hsame : (s.pool.create c fd).dead d = s.pool.dead d := by
          simp [Conns.create, Conns.dead, Heap.write, Heap.alloc, hdc]
        have := h.alive d hd (hsame ▸ hdead)
        rw [hchan] at this
        cases this

theorem Accounted.take (h : s.Accounted) {c : Nat} (hchan : s.chan = some c)
    (hcall : (s.call t).conn = none) {pc : Calling} (hpc : pc.conn = some c) :
    ({ s with pool := s.pool.incref c }.setCall t pc).Accounted := by
  have hc : s.pool.Live c := by
    refine h.balanced.dangling c ?_
    rw [refs, hchan, one_self]
    omega
  have hr : ∀ d, (s.setCall t pc).refs d = s.refs d + one (some c) d := by
    intro d
    have hrefs := s.refs_setCall t pc d
    rw [hcall, hpc, one_none] at hrefs
    omega
  refine ⟨balanced_incref h.balanced hc hr, fun d hd => ?_, fun d hd hdead => ?_⟩
  · show 0 < (s.setCall t pc).refs d
    rw [hr]
    have := h.used d hd
    omega
  · exact h.alive d hd ((Conns.dead_incref ..).symm.trans hdead)

/-! ## The steps -/

structure Inv (s : Channel T) : Prop where
  accounted : s.Accounted
  control : s.Control

theorem Inv.setCall (h : s.Inv) {pc : Calling} (hdestroyed : s.destroyed = false)
    (hconn : pc.conn = (s.call t).conn) (hlocked : pc.HasChanM → (s.call t).HasChanM)
    (hconnecting : ∀ ch, pc = .connecting ch → s.chan = none) : (s.setCall t pc).Inv :=
  ⟨h.accounted.setCall hconn, control_of_update rfl hdestroyed
    (fun hpc => h.control.locked t (hlocked hpc)) (fun u _ => h.control.locked u) hconnecting
    fun u ch _ => h.control.connecting u ch⟩

theorem Inv.look (h : s.Inv) {ch : Option Nat} (ht : s.call t = .looking ch) :
    (s.look t ch).Inv := by
  have hdestroyed := h.control.alive ht (by simp)
  have hlocked : (s.call t).HasChanM := by rw [ht]; trivial
  have hconn : (s.call t).conn = ch := by rw [ht]; rfl
  rw [Channel.look]
  split
  · rename_i hchan
    exact h.setCall hdestroyed hconn.symm (fun _ => hlocked) fun _ _ => hchan
  · rename_i c hchan
    split
    · rename_i hdead
      refine ⟨(h.accounted.giveUp hchan hdead).setCall hconn.symm, control_of_update rfl hdestroyed
        (fun _ => h.control.locked t hlocked) (fun u _ => h.control.locked u) (fun _ _ => rfl)
        fun _ _ _ _ => rfl⟩
    · exact h.setCall hdestroyed hconn.symm (fun _ => hlocked) fun _ heq => by cases heq

theorem Inv.connect (h : s.Inv) {ch : Option Nat} (ht : s.call t = .connecting ch)
    {made : Option (Nat × Int)}
    (hmade : (made.all fun r => !s.pool.heap.live r.1 && !s.pool.fds r.2) = true) :
    (s.connect t ch made).Inv := by
  have hdestroyed := h.control.alive ht (by simp)
  have hlocked : (s.call t).HasChanM := by rw [ht]; trivial
  have hconn : (s.call t).conn = ch := by rw [ht]; rfl
  cases made with
  | none =>
    refine ⟨?_, control_of_update rfl hdestroyed (fun hpc => hpc.elim)
      (fun u hut hu => absurd (h.control.only hlocked hu) hut) (fun _ heq => by cases heq)
      fun u ch' _ => h.control.connecting u ch'⟩
    exact (⟨h.accounted.balanced, h.accounted.used, h.accounted.alive⟩ :
      { s with chanM := none }.Accounted).setCall hconn.symm
  | some r =>
    obtain ⟨c, fd⟩ := r
    have hc : s.pool.heap.live c = false := by
      simpa using (Bool.and_eq_true_iff.mp hmade).1
    refine ⟨(h.accounted.create (h.control.connecting t ch ht) hc).setCall hconn.symm,
      control_of_update rfl hdestroyed (fun _ => h.control.locked t hlocked)
        (fun u _ => h.control.locked u) (fun _ heq => by cases heq) fun u ch' hut hu => ?_⟩
    exact absurd (h.control.only hlocked (by rw [hu]; trivial)) hut

theorem Inv.take (h : s.Inv) (ht : s.call t = .taking) (hs : s.take t = some s') : s'.Inv := by
  have hdestroyed := h.control.alive ht (by simp)
  have hlocked : (s.call t).HasChanM := by rw [ht]; trivial
  rw [Channel.take] at hs
  split at hs
  · cases hs
  · rename_i c hchan
    cases hs
    have hpc : (if s.reachable then Calling.sending c else .waiting (some c)).conn = some c := by
      split <;> rfl
    refine ⟨?_, control_of_update rfl hdestroyed (fun hpc => ?_)
      (fun u hut hu => absurd (h.control.only hlocked hu) hut) (fun ch heq => ?_)
      fun u ch _ => h.control.connecting u ch⟩
    · exact (⟨h.accounted.balanced, h.accounted.used, h.accounted.alive⟩ :
        { s with chanM := none }.Accounted).take hchan
          (by rw [show s.call t = .taking from ht]; rfl) hpc
    · split at hpc <;> exact hpc.elim
    · split at heq <;> cases heq

theorem Inv.drop (h : s.Inv) (ht : s.call t ≠ .idle) (pc : Calling) (hpc : pc.conn = none)
    (hlocked : pc.HasChanM → (s.call t).HasChanM) (hconnecting : ∀ ch, pc ≠ .connecting ch) :
    ({ s with pool := s.pool.decrefAt (s.call t).conn }.setCall t pc).Inv :=
  ⟨h.accounted.drop hpc, control_of_update rfl (h.control.alive rfl ht)
    (fun hpc => h.control.locked t (hlocked hpc)) (fun u _ => h.control.locked u)
    (fun ch heq => absurd heq (hconnecting ch)) fun u ch _ => h.control.connecting u ch⟩

omit [DecidableEq T] in
theorem Inv.die (h : s.Inv) (c : Nat) : { s with pool := s.pool.die c }.Inv :=
  ⟨h.accounted.die c, { h.control with }⟩

omit [DecidableEq T] in
theorem Inv.destroy (h : s.Inv) (hidle : ∀ t, s.call t = .idle) : s.destroy.Inv := by
  have hcontrol : ∀ s' : Channel T, s'.call = s.call → s'.chan = none → s'.Control := by
    intro s' hcall hchan
    refine ⟨fun t ht => ?_, fun t ch ht => ?_, fun _ => ⟨hchan, fun t => ?_⟩⟩
    · rw [hcall, hidle t] at ht
      exact ht.elim
    · rw [hcall, hidle t] at ht
      cases ht
    · rw [hcall, hidle t]
  rw [Channel.destroy]
  split
  · rename_i hchan
    exact ⟨{ h.accounted with }, hcontrol _ rfl hchan⟩
  · rename_i c hchan
    have hdead : (s.pool.die c).dead c = true := by simp [Conns.die, Conns.dead, Heap.write]
    exact ⟨{ (h.accounted.die c).giveUp hchan hdead with }, hcontrol _ rfl rfl⟩

theorem Inv.step (h : s.Inv) {a : ChannelAction T} (hs : s.step a = some s') : s'.Inv := by
  cases a with
  | call t =>
    obtain ⟨⟨hidle, hd⟩, heq⟩ := Option.ite_none_right_eq_some.mp hs
    cases heq
    exact h.setCall hd (by rw [hidle]; rfl) (fun hpc => hpc.elim) fun _ heq => by cases heq
  | lock t =>
    cases ht : s.call t with
    | transmitting ch =>
      simp only [Channel.step, ht] at hs
      obtain ⟨hfree, heq⟩ := Option.ite_none_right_eq_some.mp hs
      cases heq
      have hnone : ∀ u, ¬ (s.call u).HasChanM := fun u hu => by
        rw [h.control.locked u hu] at hfree
        cases hfree
      refine ⟨?_, control_of_update rfl (h.control.alive ht (by simp))
        (fun _ => rfl) (fun u _ hu => absurd hu (hnone u)) (fun _ heq => by cases heq)
        fun u ch _ => h.control.connecting u ch⟩
      exact ({ h.accounted with } : { s with chanM := some t }.Accounted).setCall
        (by rw [show s.call t = .transmitting ch from ht]; rfl)
    | _ => simp [Channel.step, ht] at hs
  | look t =>
    cases ht : s.call t with
    | looking ch =>
      simp only [Channel.step, ht] at hs
      cases hs
      exact h.look ht
    | _ => simp [Channel.step, ht] at hs
  | connect t made =>
    cases ht : s.call t with
    | connecting ch =>
      simp only [Channel.step, ht] at hs
      obtain ⟨hmade, heq⟩ := Option.ite_none_right_eq_some.mp hs
      cases heq
      exact h.connect ht hmade
    | _ => simp [Channel.step, ht] at hs
  | swap t =>
    cases ht : s.call t with
    | swapping ch =>
      simp only [Channel.step, ht] at hs
      cases hs
      have := h.drop (t := t) (by simp [ht]) .taking rfl
        (fun _ => by rw [ht]; trivial) (fun _ heq => by cases heq)
      rwa [ht] at this
    | _ => simp [Channel.step, ht] at hs
  | take t =>
    cases ht : s.call t with
    | taking =>
      simp only [Channel.step, ht] at hs
      exact h.take ht hs
    | _ => simp [Channel.step, ht] at hs
  | sent t failed =>
    cases ht : s.call t with
    | sending c =>
      simp only [Channel.step, ht] at hs
      cases hs
      have hpool : { s with pool := if failed then s.pool.die c else s.pool }.Inv := by
        cases failed with
        | false => exact h
        | true => exact h.die c
      exact hpool.setCall (h.control.alive ht (by simp))
        (by rw [show s.call t = .sending c from ht]; rfl) (fun hpc => hpc.elim)
        fun _ heq => by cases heq
    | _ => simp [Channel.step, ht] at hs
  | timeout t =>
    cases ht : s.call t with
    | waiting ch =>
      simp only [Channel.step, ht] at hs
      split at hs
      · cases hs
        exact h.setCall (h.control.alive ht (by simp))
          (by rw [ht]; rfl) (fun hpc => hpc.elim) fun _ heq => by cases heq
      · cases hs
        exact h
    | _ => simp [Channel.step, ht] at hs
  | finish t =>
    cases ht : s.call t with
    | waiting ch =>
      simp only [Channel.step, ht] at hs
      cases hs
      exact h.setCall (h.control.alive ht (by simp))
        (by rw [ht]; rfl) (fun hpc => hpc.elim) fun _ heq => by cases heq
    | _ => simp [Channel.step, ht] at hs
  | leave t =>
    cases ht : s.call t with
    | leaving ch =>
      simp only [Channel.step, ht] at hs
      cases hs
      have := h.drop (t := t) (by simp [ht]) .idle rfl
        (fun hpc => hpc.elim) (fun _ heq => by cases heq)
      rwa [ht] at this
    | _ => simp [Channel.step, ht] at hs
  | die c =>
    obtain ⟨_, heq⟩ := Option.ite_none_right_eq_some.mp hs
    cases heq
    exact h.die c
  | setReachable r =>
    cases hs
    exact ⟨{ h.accounted with }, { h.control with }⟩
  | destroy =>
    obtain ⟨⟨_, hidle⟩, heq⟩ := Option.ite_none_right_eq_some.mp hs
    cases heq
    exact h.destroy hidle

omit [DecidableEq T] in
theorem Inv.closed (h : s.Inv) (hd : s.destroyed = true) (c : Nat) : ¬ s.pool.Live c := by
  obtain ⟨hchan, hidle⟩ := h.control.destroyed hd
  have hzero : s.refs c = 0 := by
    rw [refs, hchan, one_none, total_eq_zero fun t => by rw [hidle t]; rfl]
  intro hc
  have := h.accounted.used c hc
  omega

end Channel
end Rpc
end Frangipani

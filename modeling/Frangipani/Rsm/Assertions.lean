/-
The assertions of view management.

`set_primary` asserts that the current view has a member, and, when the primary
has left it, that the view before has one and that one of its members is still
there.  `heartbeat` asserts, while the proposer runs, that the caller is at most
one view away.

None of this is ensured.  A node that is started before the first one has no view
when its join fails.  A node that has missed a decide message finds no view
before the one it is told of, and a peer that has missed two sends a heartbeat
that ends the node it is sent to.

The assertions hold in every run that keeps clear of these cases.  The values of
an acceptor then have no gap up to any view that the node refers to, and the log
that it sends to others has none either.  A node that waits with a new view until
the others, and the pings under way, are at most one view behind never gets a
heartbeat from further away.
-/
import Frangipani.Rsm.Cluster

namespace Frangipani
namespace Rsm

open Text Paxos Transition

/-! ## What was agreed on -/

/-- What was agreed on stays. -/
def Grows (d d' : Map UInt32 String) : Prop := ∀ i w, d.find i = some w → d'.find i = some w

theorem Grows.refl (d : Map UInt32 String) : Grows d d := fun _ _ h => h

/-- Every view after the first keeps a member of the one before. -/
structure Linked (d : Map UInt32 String) : Prop where
  oneLine : ∀ i w, d.find i = some w → '\n' ∉ w.toList
  follows : ∀ i w, 1 < i → d.find i = some w →
    ∃ w', d.find (i - 1) = some w' ∧ KeepsMember (members w') w

theorem Grows.insert {d : Map UInt32 String} {inst : UInt32} (hnone : d.find inst = none)
    (v : String) : Grows d (d.insert inst v) := by
  intro i w hw
  have hi : i ≠ inst := by
    rintro rfl
    exact absurd (hw.symm.trans hnone) nofun
  exact (Map.find_insert_ne _ _ hi).trans hw

theorem Linked.insert {d : Map UInt32 String} (h : Linked d) {inst : UInt32}
    (hnone : d.find inst = none) {v : String} (hline : '\n' ∉ v.toList) {w : String}
    (hw : d.find (inst - 1) = some w) (hkeeps : KeepsMember (members w) v) :
    Linked (d.insert inst v) := by
  have hgrows := Grows.insert hnone v
  have hcases : ∀ {i u}, (d.insert inst v).find i = some u →
      i = inst ∧ u = v ∨ d.find i = some u := by
    intro i u hu
    exact (Map.find_insert_eq_some.mp hu).imp_right And.right
  constructor
  · intro i u hu
    rcases hcases hu with ⟨-, rfl⟩ | hold
    · exact hline
    · exact h.oneLine i u hold
  · intro i u hi hu
    rcases hcases hu with ⟨rfl, rfl⟩ | hold
    · exact ⟨w, hgrows _ _ hw, hkeeps⟩
    · obtain ⟨w', hw', hkeeps'⟩ := h.follows i u hi hold
      exact ⟨w', hgrows _ _ hw', hkeeps'⟩

/-- A view of the agreed history. -/
def Shows (d : Map UInt32 String) (k : UInt32) (mems : List String) : Prop :=
  ∃ w, d.find k = some w ∧ mems = members w

theorem Shows.mono {d d' : Map UInt32 String} {k : UInt32} {mems : List String}
    (h : Shows d k mems) (hgrows : Grows d d') : Shows d' k mems := by
  obtain ⟨w, hw, hmems⟩ := h
  exact ⟨w, hgrows k w hw, hmems⟩

theorem ne_zero_of_lt {i k : UInt32} (h : i < k) : k ≠ 0 := by
  rintro rfl
  exact absurd h UInt32.not_lt_zero

theorem eq_next_of_lt {h inst : UInt32} (hnew : h < inst) (hle : inst.toNat ≤ h.toNat + 1) :
    inst = h + 1 := by
  rw [← UInt32.toNat_inj, Teller.toNat_next hnew]
  exact Nat.le_antisymm hle (UInt32.lt_iff_toNat_lt.mp hnew)

/-! ## The acceptor and its log -/

/-- The acceptor has the agreed value of every instance up to `k`. -/
def Full (d : Map UInt32 String) (a : Acceptor) (k : UInt32) : Prop :=
  ∀ i, i ≠ 0 → i ≤ k → ∃ w, d.find i = some w ∧ a.values.find i = some w

theorem Full.mono {d d' : Map UInt32 String} {a : Acceptor} {k : UInt32} (h : Full d a k)
    (hgrows : Grows d d') : Full d' a k := by
  intro i hi hik
  obtain ⟨w, hw, hfind⟩ := h i hi hik
  exact ⟨w, hgrows i w hw, hfind⟩

/-- The `done` records are those of the instances up to `h`, with the agreed values,
and `h` is the last one. -/
structure Records (d : Map UInt32 String) (h : UInt32) (rs : List Record) : Prop where
  agreed : ∀ i v, .done i v ∈ rs → i ≠ 0 ∧ d.find i = some v.text
  all : ∀ i, i ≠ 0 → i ≤ h → ∃ v, .done i v ∈ rs
  last : ∀ b : Acceptor, (rs.foldl Record.apply b).instanceH = if h = 0 then b.instanceH else h

def LogOf (d : Map UInt32 String) (h : UInt32) (log : List Char) : Prop :=
  ∃ rs, log = Acceptor.logText rs ∧ Records d h rs

theorem LogOf.mono {d d' : Map UInt32 String} {h : UInt32} {log : List Char}
    (hlog : LogOf d h log) (hgrows : Grows d d') : LogOf d' h log := by
  obtain ⟨rs, hrs, hrec⟩ := hlog
  refine ⟨rs, hrs, fun i v hv => ?_, hrec.all, hrec.last⟩
  exact ⟨(hrec.agreed i v hv).1, hgrows i _ (hrec.agreed i v hv).2⟩

theorem logOf_nil (d : Map UInt32 String) : LogOf d 0 [] :=
  ⟨[], rfl, fun _ _ hv => absurd hv List.not_mem_nil,
    fun _ hi hle => absurd (UInt32.le_zero_iff.mp hle) hi, fun _ => rfl⟩

theorem LogOf.append {d : Map UInt32 String} {h : UInt32} {log : List Char} (hlog : LogOf d h log)
    (r : Record) (hdone : ∀ i v, r ≠ .done i v)
    (hinst : ∀ a : Acceptor, (r.apply a).instanceH = a.instanceH) : LogOf d h (log ++ r.text) := by
  obtain ⟨rs, rfl, hrec⟩ := hlog
  refine ⟨rs ++ [r], (Acceptor.logText_append rs r).symm, fun i v hv => ?_, fun i hi hle => ?_,
    fun b => ?_⟩
  · rcases List.mem_append.mp hv with hv | hv
    · exact hrec.agreed i v hv
    · exact absurd (List.mem_singleton.mp hv).symm (hdone i v)
  · obtain ⟨v, hv⟩ := hrec.all i hi hle
    exact ⟨v, List.mem_append_left _ hv⟩
  · rw [List.foldl_append, List.foldl_cons, List.foldl_nil, hinst, hrec.last]

theorem LogOf.append_done {d : Map UInt32 String} {h inst : UInt32} {log : List Char}
    (hlog : LogOf d h log) {v : LineValue} (hagreed : d.find inst = some v.text)
    (hne : inst ≠ 0) (hnext : inst = h + 1) :
    LogOf d inst (log ++ Acceptor.doneText inst v.text) := by
  obtain ⟨rs, rfl, hrec⟩ := hlog
  have htext : Acceptor.logText rs ++ Acceptor.doneText inst v.text =
      Acceptor.logText (rs ++ [.done inst v]) := (Acceptor.logText_append rs (.done inst v)).symm
  refine ⟨_, htext, fun i w hw => ?_, fun i hi hle => ?_, fun b => ?_⟩
  · rcases List.mem_append.mp hw with hw | hw
    · exact hrec.agreed i w hw
    · cases List.mem_singleton.mp hw
      exact ⟨hne, hagreed⟩
  · by_cases heq : i = inst
    · exact ⟨v, heq ▸ List.mem_append_right _ (List.mem_singleton.mpr rfl)⟩
    · obtain ⟨w, hw⟩ := hrec.all i hi (Teller.le_of_le_next hnext hle heq)
      exact ⟨w, List.mem_append_left _ hw⟩
  · rw [List.foldl_append, List.foldl_cons, List.foldl_nil, if_neg hne]
    rfl

/-- Reading the records enters agreed values only, so an agreed value is there
afterwards when it was there before or has a record. -/
theorem find_foldl_apply {d : Map UInt32 String} {i : UInt32} {w : String}
    (hw : d.find i = some w) (rs : List Record) :
    ∀ b : Acceptor, (∀ j v, .done j v ∈ rs → d.find j = some v.text) →
      (b.values.find i = some w ∨ ∃ v, .done i v ∈ rs) →
      (rs.foldl Record.apply b).values.find i = some w := by
  induction rs with
  | nil =>
    rintro b - (hb | ⟨v, hv⟩)
    · exact hb
    · exact absurd hv List.not_mem_nil
  | cons r rs ih =>
    intro b hagreed hb
    refine ih (r.apply b) (fun j v hv => hagreed j v (List.mem_cons_of_mem _ hv)) ?_
    rcases hb with hb | ⟨v, hv⟩
    · refine Or.inl ?_
      cases r with
      | high | prop => exact hb
      | done j v =>
        by_cases hj : i = j
        · subst hj
          have hsame := hw.symm.trans (hagreed i v List.mem_cons_self)
          exact (Map.find_insert_self ..).trans hsame.symm
        · exact (Map.find_insert_ne _ _ hj).trans hb
    · rcases List.mem_cons.mp hv with rfl | hv
      · have hsame := hw.symm.trans (hagreed i v List.mem_cons_self)
        exact Or.inl ((Map.find_insert_self ..).trans hsame.symm)
      · exact Or.inr ⟨v, hv⟩

/-- The values and the log of the acceptor have no gap. -/
structure Backed (d : Map UInt32 String) (a : Acceptor) : Prop where
  full : Full d a a.instanceH
  log : LogOf d a.instanceH a.log

theorem Backed.mono {d d' : Map UInt32 String} {a : Acceptor} (h : Backed d a)
    (hgrows : Grows d d') : Backed d' a := ⟨h.full.mono hgrows, h.log.mono hgrows⟩

/-- What a step of the acceptor leaves. -/
structure Moves (d : Map UInt32 String) (a b : Acceptor) : Prop where
  keeps : ∀ i w, d.find i = some w → a.values.find i = some w → b.values.find i = some w
  instanceH : a.instanceH ≠ 0 → b.instanceH ≠ 0
  backed : Backed d b

theorem Full.moves {d : Map UInt32 String} {a b : Acceptor} {k : UInt32} (h : Full d a k)
    (hm : Moves d a b) : Full d b k := by
  intro i hi hik
  obtain ⟨w, hw, hfind⟩ := h i hi hik
  exact ⟨w, hw, hm.keeps i w hw hfind⟩

theorem Backed.moves_of_keeps {d : Map UInt32 String} {a b : Acceptor} (h : Backed d a)
    (hkeeps : ∀ i w, a.values.find i = some w → b.values.find i = some w)
    (hinst : b.instanceH = a.instanceH) (hlog : LogOf d a.instanceH b.log) : Moves d a b where
  keeps i w _ := hkeeps i w
  instanceH hne := hinst ▸ hne
  backed := by
    refine ⟨fun i hi hik => ?_, hinst ▸ hlog⟩
    rw [hinst] at hik
    obtain ⟨w, hw, hfind⟩ := h.full i hi hik
    exact ⟨w, hw, hkeeps i w hfind⟩

theorem Backed.value {d : Map UInt32 String} {a : Acceptor} (h : Backed d a) (inst : UInt32) :
    Moves d a (a.value inst).2 :=
  h.moves_of_keeps (fun _ _ hfind => History.find_value hfind) rfl h.log

theorem Backed.preparereq {d : Map UInt32 String} {a : Acceptor} (h : Backed d a)
    (arg : PrepareArg) (hword : IsWord arg.n.m) : Moves d a (a.preparereq arg).2 := by
  rcases Acceptor.preparereq_snd a arg with hreq | hreq | hreq <;> rw [hreq]
  · exact h.value arg.inst
  · refine h.moves_of_keeps (fun _ _ hfind => hfind) rfl ?_
    exact h.log.append (.high arg.n.n (.ofIsWord hword)) (fun _ _ => nofun) fun _ => rfl
  · exact h.moves_of_keeps (fun _ _ hfind => hfind) rfl h.log

theorem Backed.acceptreq {d : Map UInt32 String} {a : Acceptor} (h : Backed d a)
    (arg : AcceptArg) (hword : IsWord arg.n.m) (hline : '\n' ∉ arg.v.toList) :
    Moves d a (a.acceptreq arg).2 := by
  by_cases hacc : a.instanceH < arg.inst ∧ arg.n.ge a.nH = true
  · rw [Acceptor.acceptreq_accepted hacc.1 hacc.2]
    refine h.moves_of_keeps (fun _ _ hfind => hfind) rfl ?_
    exact h.log.append (.prop arg.n.n (.ofIsWord hword) ⟨arg.v, hline⟩) (fun _ _ => nofun)
      fun _ => rfl
  · rw [Acceptor.acceptreq_refused hacc]
    exact h.moves_of_keeps (fun _ _ hfind => hfind) rfl h.log

theorem Backed.commitWo {d : Map UInt32 String} {a : Acceptor} (h : Backed d a) {inst : UInt32}
    {v : String} (hagreed : d.find inst = some v) (hline : '\n' ∉ v.toList)
    (hnew : a.instanceH < inst) (hnext : inst = a.instanceH + 1) :
    Moves d a (a.commitWo inst v) := by
  have hne := ne_zero_of_lt hnew
  have hkeeps : ∀ i w, d.find i = some w → a.values.find i = some w →
      (a.values.insert inst v).find i = some w := by
    intro i w hw hfind
    by_cases hi : i = inst
    · subst hi
      exact (Map.find_insert_self ..).trans (hagreed.symm.trans hw)
    · exact (Map.find_insert_ne _ _ hi).trans hfind
  rw [Acceptor.commitWo_new v hnew]
  refine ⟨hkeeps, fun _ => hne, fun i hi hle => ?_, ?_⟩
  · by_cases heq : i = inst
    · subst heq
      exact ⟨v, hagreed, Map.find_insert_self ..⟩
    · obtain ⟨w, hw, hfind⟩ := h.full i hi (Teller.le_of_le_next hnext hle heq)
      exact ⟨w, hw, hkeeps i w hw hfind⟩
  · exact h.log.append_done (v := ⟨v, hline⟩) hagreed hne hnext

theorem Backed.dump {d : Map UInt32 String} {a : Acceptor} (h : Backed d a) :
    LogOf d a.instanceH a.dump := by
  obtain ⟨rs, hrs, hrec⟩ := h.log
  rw [Acceptor.dump_endsLine (hrs ▸ Acceptor.logText_endsLine rs)]
  exact ⟨rs, hrs, hrec⟩

/-- Reading a log without a gap.  What the acceptor had before stays where the log
has nothing. -/
theorem LogOf.restore {d : Map UInt32 String} {h : UInt32} {log : List Char}
    (hlog : LogOf d h log) (hne : h ≠ 0) (a : Acceptor) :
    ∃ b, a.restore log = some b ∧ b.instanceH = h ∧ Moves d a b := by
  obtain ⟨rs, rfl, hrec⟩ := hlog
  have hinst : (rs.foldl Record.apply a).instanceH = h := by
    rw [hrec.last, if_neg hne]
  have hfind := fun {i : UInt32} {w : String} (hw : d.find i = some w) =>
    find_foldl_apply hw rs a fun j v hv => (hrec.agreed j v hv).2
  refine ⟨_, Acceptor.restore_logText a rs, hinst, fun i w hw hb => hfind hw (Or.inl hb),
    fun _ => hinst ▸ hne, fun i hi hle => ?_, rs, rfl, ?_⟩
  · obtain ⟨v, hv⟩ := hrec.all i hi (hinst ▸ hle)
    have hw := (hrec.agreed i v hv).2
    exact ⟨v.text, hw, hfind hw (Or.inr ⟨v, hv⟩)⟩
  · exact hinst.symm ▸ hrec

/-! ## The replica -/

/-- A view that the acceptor has, with all before it. -/
structure Known (d : Map UInt32 String) (a : Acceptor) (k : UInt32) : Prop where
  nonzero : k ≠ 0
  full : Full d a k
  instanceH : a.instanceH ≠ 0

theorem Known.mono {d d' : Map UInt32 String} {a : Acceptor} {k : UInt32} (h : Known d a k)
    (hgrows : Grows d d') : Known d' a k := ⟨h.nonzero, h.full.mono hgrows, h.instanceH⟩

theorem Known.moves {d : Map UInt32 String} {a b : Acceptor} {k : UInt32} (h : Known d a k)
    (hm : Moves d a b) : Known d b k := ⟨h.nonzero, h.full.moves hm, hm.instanceH h.instanceH⟩

theorem Known.value {d : Map UInt32 String} {a : Acceptor} {k : UInt32} (h : Known d a k) :
    ∃ w, d.find k = some w ∧ (a.value k).1 = w := by
  obtain ⟨w, hw, hfind⟩ := h.full k h.nonzero (UInt32.le_refl k)
  exact ⟨w, hw, by rw [Acceptor.value_of_find hfind]⟩

structure Viewed (d : Map UInt32 String) (c : Config) : Prop where
  backed : Backed d c.acc
  blank : c.myvid = 0 → c.mems = []
  view : c.myvid ≠ 0 → Known d c.acc c.myvid ∧ Shows d c.myvid c.mems

theorem Viewed.mono {d d' : Map UInt32 String} {c : Config} (h : Viewed d c)
    (hgrows : Grows d d') : Viewed d' c where
  backed := h.backed.mono hgrows
  blank := h.blank
  view hne := ⟨(h.view hne).1.mono hgrows, (h.view hne).2.mono hgrows⟩

theorem Viewed.setAcc {d : Map UInt32 String} {c : Config} (h : Viewed d c) {acc : Acceptor}
    (hm : Moves d c.acc acc) : Viewed d { c with acc := acc } where
  backed := hm.backed
  blank := h.blank
  view hne := ⟨(h.view hne).1.moves hm, (h.view hne).2⟩

theorem Viewed.reconstruct {d : Map UInt32 String} {c : Config} (h : Viewed d c)
    (hne : c.acc.instanceH ≠ 0) :
    Viewed d c.reconstruct ∧ c.reconstruct.acc = c.acc ∧ c.reconstruct.myvid ≠ 0 := by
  have hknown : Known d c.acc c.acc.instanceH := ⟨hne, h.backed.full, hne⟩
  obtain ⟨w, hw, hfind⟩ := hknown.full _ hne (UInt32.le_refl _)
  have heq : c.reconstruct =
      { c with myvid := c.acc.instanceH, mems := members w } := by
    unfold Config.reconstruct Config.getView
    rw [if_pos (UInt32.pos_iff_ne_zero.mpr hne)]
    simp only [Acceptor.value_of_find hfind]
  rw [heq]
  exact ⟨⟨h.backed, fun hzero => absurd hzero hne, fun _ => ⟨hknown, w, hw, rfl⟩⟩, rfl, hne⟩

structure Sound (d : Map UInt32 String) (r : Replica) : Prop where
  config : Viewed d r.config
  pending : ∀ q ∈ r.pending, Known d r.config.acc q.1 ∧ d.find q.1 = some q.2
  curview : ∀ cur ∈ r.curview, r.config.myvid ≠ 0 ∧ Shows d cur.1 cur.2

theorem Sound.mono {d d' : Map UInt32 String} {r : Replica} (h : Sound d r)
    (hgrows : Grows d d') : Sound d' r where
  config := h.config.mono hgrows
  pending q hq := ⟨(h.pending q hq).1.mono hgrows, hgrows _ _ (h.pending q hq).2⟩
  curview cur hcur := ⟨(h.curview cur hcur).1, (h.curview cur hcur).2.mono hgrows⟩

theorem Sound.setConfig {d : Map UInt32 String} {r : Replica} (h : Sound d r) {c : Config}
    (hm : Moves d r.config.acc c.acc) (hc : Viewed d c)
    (hview : r.config.myvid ≠ 0 → c.myvid ≠ 0) : Sound d { r with config := c } where
  config := hc
  pending q hq := ⟨(h.pending q hq).1.moves hm, (h.pending q hq).2⟩
  curview cur hcur := ⟨hview (h.curview cur hcur).1, (h.curview cur hcur).2⟩

theorem Sound.decidereq {d : Map UInt32 String} {r : Replica} (h : Sound d r) (hd : Linked d)
    {q : UInt32 × String} (hq : q.1 ≠ 0 → d.find q.1 = some q.2)
    (hnext : q.1.toNat ≤ r.config.acc.instanceH.toNat + 1) :
    Sound d (r.decidereq (fun _ => q.2) q.1) := by
  unfold Replica.decidereq
  show Sound d { r with
    config := { r.config with acc := (r.config.acc.decidereq _).2 }
    pending := (if r.config.acc.instanceH < q.1 then [(q.1, q.2)] else []) ++ r.pending }
  rw [Acceptor.decidereq_snd]
  by_cases hnew : r.config.acc.instanceH < q.1
  · have hne := ne_zero_of_lt hnew
    have hagreed := hq hne
    have hm := h.config.backed.commitWo hagreed (hd.oneLine _ _ hagreed) hnew
      (eq_next_of_lt hnew hnext)
    have hset := h.setConfig (c := { r.config with acc := r.config.acc.commitWo q.1 q.2 }) hm
      (h.config.setAcc hm) id
    -- The new instance is the highest one of the acceptor now.
    have hfull := hm.backed.full
    have hinst : (r.config.acc.commitWo q.1 q.2).instanceH = q.1 := by
      rw [Acceptor.commitWo_new q.2 hnew]
    rw [hinst] at hfull
    refine ⟨hset.config, fun p hp => ?_, hset.curview⟩
    rw [if_pos hnew] at hp
    rcases List.mem_cons.mp hp with rfl | hp
    · exact ⟨⟨hne, hfull, fun hzero => hne (hinst.symm.trans hzero)⟩, hagreed⟩
    · exact hset.pending p hp
  · rw [if_neg hnew, Acceptor.commitWo_old q.2 (UInt32.not_lt.mp hnew)]
    exact h

theorem Sound.upcall {d : Map UInt32 String} {r : Replica} (h : Sound d r)
    {q : UInt32 × String} (hq : q ∈ r.pending) : Sound d (r.upcall q) := by
  obtain ⟨hknown, hagreed⟩ := h.pending q hq
  refine ⟨⟨h.config.backed, fun hzero => absurd hzero hknown.nonzero, fun _ => ?_⟩,
    fun p hp => h.pending p (List.mem_of_mem_erase hp), fun cur hcur => ?_⟩
  · exact ⟨hknown, q.2, hagreed, rfl⟩
  · exact ⟨hknown.nonzero, (h.curview cur hcur).2⟩

theorem Sound.readCurview {d : Map UInt32 String} {r : Replica} (h : Sound d r)
    (hview : r.config.myvid ≠ 0) : Sound d r.readCurview := by
  have hm := h.config.backed.value r.config.myvid
  have hset := h.setConfig (c := r.config.getCurview.2) hm (h.config.setAcc hm) id
  refine ⟨hset.config, hset.pending, ?_⟩
  rintro cur ⟨⟩
  obtain ⟨w, hw, hvalue⟩ := (h.config.view hview).1.value
  exact ⟨hview, w, hw, congrArg members hvalue⟩

/-! ## The choice of a primary -/

theorem setPrimary_isSome_of_keepsMember {p : List String} {w : String} (primary : String)
    (h : KeepsMember p w) : (setPrimary primary (members w) p).isSome = true := by
  obtain ⟨m, hm, hmw, hname⟩ := h
  exact setPrimary_isSome primary hm hmw hname

theorem Sound.getPrevview {d : Map UInt32 String} {r : Replica} (h : Sound d r)
    (hview : 1 < r.config.myvid) : ∃ w, d.find (r.config.myvid - 1) = some w ∧
      r.config.getPrevview.1 = members w := by
  have hknown := (h.config.view (ne_zero_of_lt hview)).1
  have hprev : r.config.myvid - 1 ≠ 0 := by
    intro hzero
    rw [← UInt32.sub_add_cancel r.config.myvid 1, hzero] at hview
    exact absurd hview (by decide)
  obtain ⟨w, hw, hfind⟩ := hknown.full _ hprev (Teller.pred_le hview (UInt32.le_refl _))
  refine ⟨w, hw, ?_⟩
  show members (r.config.acc.value (r.config.myvid - 1)).1 = members w
  rw [Acceptor.value_of_find hfind]

theorem Sound.readPrevview {d : Map UInt32 String} {r : Replica} (h : Sound d r) (hd : Linked d)
    {cur : UInt32 × List String} (hcur : r.curview = some cur)
    (hok : isamember r.primary cur.2 = true ∨ 1 < cur.1 ∧ r.config.myvid = cur.1) :
    ∃ t, r.readPrevview cur = some t ∧ Sound d t ∧ t.config.myvid ≠ 0 := by
  obtain ⟨hview, w, hw, hmems⟩ := h.curview cur hcur
  have hchoice : (setPrimary r.primary cur.2 r.config.getPrevview.1).isSome = true := by
    rcases hok with hmem | ⟨hlt, hsame⟩
    · rw [setPrimary_of_mem _ hmem]
      rfl
    · rw [← hsame] at hlt
      obtain ⟨w', hw', hprev⟩ := h.getPrevview hlt
      obtain ⟨w'', hw'', hkeeps⟩ := hd.follows _ _ hlt (hsame ▸ hw)
      cases hw'.symm.trans hw''
      rw [hprev, hmems]
      exact setPrimary_isSome_of_keepsMember _ hkeeps
  obtain ⟨q, hq⟩ := Option.isSome_iff_exists.mp hchoice
  have hm := h.config.backed.value (r.config.myvid - 1)
  have hset := h.setConfig (c := r.config.getPrevview.2) hm (h.config.setAcc hm) id
  refine ⟨{ r with
    config := r.config.getPrevview.2, curview := none, primary := q, named := cur.1 }, ?_,
    ⟨hset.config, hset.pending, fun _ hnone => by cases hnone⟩, hview⟩
  rw [Replica.readPrevview, hq, Option.map_some]

/-! ## The node -/

/-- The node is doing something that needs a view. -/
def Peer.Busy (p : Peer) : Prop :=
  p.replica.primary = p.me ∨ 0 < p.due ∨ p.adds ≠ [] ∨ p.call.isSome = true

structure Peer.Inv (d : Map UInt32 String) (p : Peer) : Prop where
  word : IsWord p.me
  replica : Sound d p.replica
  busy : p.Busy → p.config.myvid ≠ 0
  started : ∀ st ∈ p.started, '\n' ∉ st.v.toList
  call : ∀ c ∈ p.call, '\n' ∉ c.v.toList ∧
    ∃ w, d.find (c.inst - 1) = some w ∧ KeepsMember (members w) c.v

def Process.Inv (d : Map UInt32 String) : Process → Prop
  | .down log => ∃ h, LogOf d h log
  | .up p => p.Inv d
  | .aborted => False

theorem Peer.Inv.mono {d d' : Map UInt32 String} {p : Peer} (h : p.Inv d) (hgrows : Grows d d') :
    p.Inv d' := by
  refine ⟨h.word, h.replica.mono hgrows, h.busy, h.started, fun c hc => ?_⟩
  obtain ⟨hline, w, hw, hkeeps⟩ := h.call c hc
  exact ⟨hline, w, hgrows _ _ hw, hkeeps⟩

theorem Process.Inv.mono {d d' : Map UInt32 String} {x : Process} (h : x.Inv d)
    (hgrows : Grows d d') : x.Inv d' := by
  cases x with
  | down log =>
    obtain ⟨k, hlog⟩ := h
    exact ⟨k, hlog.mono hgrows⟩
  | up p => exact Peer.Inv.mono h hgrows
  | aborted => exact h

structure Net.Inv (net : Net) : Prop where
  linked : Linked net.decided
  said : ∀ q ∈ net.said, q.1 ≠ 0 → net.decided.find q.1 = some q.2
  asks : ∀ a ∈ net.asks, IsWord a.2
  logs : ∀ l ∈ net.logs, ∃ h, h ≠ 0 ∧ LogOf net.decided h l.2

/-- What a step leaves.  A new ping has the view of the node. -/
structure Keeps (net : Net) (r : Process × Net) : Prop where
  grows : Grows net.decided r.2.decided
  beats : ∀ b ∈ r.2.beats, b ∈ net.beats ∨ r.1.view = some b.2
  net : r.2.Inv
  node : r.1.Inv r.2.decided

theorem Net.Inv.up {net : Net} (hnet : net.Inv) {p : Peer} (h : p.Inv net.decided) :
    Keeps net (.up p, net) := ⟨.refl _, fun _ hb => .inl hb, hnet, h⟩

theorem Net.Inv.sendLog {net : Net} (hnet : net.Inv) (m : String) {h : UInt32} {log : List Char}
    (hne : h ≠ 0) (hlog : LogOf net.decided h log) : (net.sendLog m log).Inv := by
  refine ⟨hnet.linked, hnet.said, hnet.asks, fun l hl => ?_⟩
  rcases List.mem_cons.mp hl with rfl | hl
  · exact ⟨h, hne, hlog⟩
  · exact hnet.logs l hl

theorem Net.Inv.agree {net : Net} (hnet : net.Inv) {call : RunCall}
    (hline : '\n' ∉ call.v.toList) {w : String} (hw : net.decided.find (call.inst - 1) = some w)
    (hkeeps : KeepsMember (members w) call.v) :
    Grows net.decided (net.agree call).decided ∧ (net.agree call).Inv := by
  cases hfind : net.decided.find call.inst with
  | some v =>
    have hsame : net.decided.insert call.inst v = net.decided := by
      ext i
      by_cases hi : i = call.inst
      · rw [hi, Map.find_insert_self, hfind]
      · rw [Map.find_insert_ne _ _ hi]
    have heq : net.agree call = { net with said := (call.inst, v) :: net.said } := by
      unfold Net.agree
      simp only [hfind, Option.getD_some, hsame]
    rw [heq]
    refine ⟨.refl _, hnet.linked, fun q hq hne => ?_, hnet.asks, hnet.logs⟩
    rcases List.mem_cons.mp hq with rfl | hq
    · exact hfind
    · exact hnet.said q hq hne
  | none =>
    have heq : net.agree call = { net with
        decided := net.decided.insert call.inst call.v
        said := (call.inst, call.v) :: net.said } := by
      unfold Net.agree
      simp only [hfind, Option.getD_none]
    have hgrows := Grows.insert hfind call.v
    rw [heq]
    refine ⟨hgrows, hnet.linked.insert hfind hline hw hkeeps, fun q hq hne => ?_, hnet.asks,
      fun l hl => ?_⟩
    · rcases List.mem_cons.mp hq with rfl | hq
      · exact Map.find_insert_self ..
      · exact hgrows _ _ (hnet.said q hq hne)
    · obtain ⟨k, hk, hlog⟩ := hnet.logs l hl
      exact ⟨k, hk, hlog.mono hgrows⟩

/-! ## The steps of a node -/

namespace Peer

variable {net : Net} {p : Peer}

theorem Inv.setAcc (h : p.Inv net.decided) {acc : Acceptor} (hm : Moves net.decided p.acc acc) :
    (p.setAcc acc).Inv net.decided where
  word := h.word
  replica := h.replica.setConfig (c := { p.config with acc := acc }) hm
    (h.replica.config.setAcc hm) id
  busy := h.busy
  started := h.started
  call := h.call

/-- What the reply to a prepare request says of a decided instance was agreed on. -/
theorem Inv.tells (h : p.Inv net.decided) {arg : PrepareArg} {q : UInt32 × String}
    (hq : q ∈ Teller.tells p.acc (.preparereq arg)) (hne : q.1 ≠ 0) :
    net.decided.find q.1 = some q.2 := by
  rw [Teller.tells] at hq
  split at hq
  · rename_i hold
    cases List.mem_singleton.mp hq
    have hle : arg.inst ≤ p.acc.instanceH := by
      by_contra hgt
      unfold Acceptor.preparereq at hold
      rw [if_neg hgt] at hold
      split at hold <;> cases hold
    obtain ⟨w, hw, hfind⟩ := h.replica.config.backed.full arg.inst hne hle
    rw [Acceptor.preparereq_decided hle hfind]
    exact hw
  · exact absurd hq List.not_mem_nil

theorem Inv.preparereq (h : p.Inv net.decided) (hnet : net.Inv) (arg : PrepareArg)
    (hword : IsWord arg.n.m) :
    Keeps net (.up (p.setAcc (p.acc.preparereq arg).2),
      { net with said := Teller.tells p.acc (.preparereq arg) ++ net.said }) := by
  refine ⟨.refl _, fun _ hb => .inl hb, ⟨hnet.linked, fun q hq hne => ?_, hnet.asks, hnet.logs⟩, ?_⟩
  · rcases List.mem_append.mp hq with hq | hq
    · exact h.tells hq hne
    · exact hnet.said q hq hne
  · exact h.setAcc (h.replica.config.backed.preparereq arg hword)

theorem Inv.sendLog (h : p.Inv net.decided) (hnet : net.Inv) (hview : p.config.myvid ≠ 0)
    (m : String) : (net.sendLog m p.acc.dump).Inv :=
  hnet.sendLog m (h.replica.config.view hview).1.instanceH h.replica.config.backed.dump

theorem Inv.view_of_ismember (h : p.Inv net.decided) {m : String} (hm : p.ismember m = true) :
    p.config.myvid ≠ 0 := by
  intro hzero
  unfold ismember at hm
  rw [h.replica.config.blank hzero] at hm
  cases hm

theorem members_isWord_of_shows {d : Map UInt32 String} {k : UInt32} {mems : List String}
    (h : Shows d k mems) : ∀ m ∈ mems, IsWord m := by
  obtain ⟨w, -, rfl⟩ := h
  exact fun m hm => members_isWord hm

theorem Inv.mems_isWord (h : p.Inv net.decided) : ∀ m ∈ p.config.mems, IsWord m := by
  by_cases hzero : p.config.myvid = 0
  · rw [h.replica.config.blank hzero]
    exact fun m hm => absurd hm List.not_mem_nil
  · exact members_isWord_of_shows (h.replica.config.view hzero).2

theorem Inv.lock (h : p.Inv net.decided) {thread : Nat} {change : Change} {p' : Peer}
    (hs : p.lock thread change = some p') (hadd : ∀ m, change = .add m → IsWord m) :
    p'.Inv net.decided ∧ p'.config = p.config := by
  obtain ⟨-, rfl⟩ : _ ∧ _ = p' := by
    simpa only [Peer.lock, Option.ite_none_left_eq_some, Option.some.injEq] using hs
  refine ⟨⟨h.word, h.replica, h.busy, fun st hst => ?_, h.call⟩, rfl⟩
  rcases List.mem_cons.mp hst with rfl | hst
  · refine value_oneLine fun m hm => ?_
    cases change with
    | add newM =>
      rcases List.mem_append.mp hm with hm | hm
      · exact h.mems_isWord m hm
      · exact List.mem_singleton.mp hm ▸ hadd newM rfl
    | removeWo m' => exact h.mems_isWord m (List.mem_of_mem_filter hm)
  · exact h.started st hst

theorem Inv.run (h : p.Inv net.decided) {st : Started} (hst : st ∈ p.started)
    (hok : p.call.isNone = true → KeepsMember p.config.mems st.v) :
    (p.run st).Inv net.decided := by
  have hstarted : ∀ st' ∈ p.started.erase st, '\n' ∉ st'.v.toList :=
    fun st' hst' => h.started st' (List.mem_of_mem_erase hst')
  cases hcall : p.call.isSome with
  | true =>
    rw [p.run_of_running hcall]
    exact ⟨h.word, h.replica, h.busy, hstarted, h.call⟩
  | false =>
    rw [p.run_of_stable hcall]
    obtain ⟨m, hm, hmv, hname⟩ := hok (by rw [← Option.not_isSome, hcall]; rfl)
    have hview : p.config.myvid ≠ 0 := by
      intro hzero
      rw [h.replica.config.blank hzero] at hm
      exact absurd hm List.not_mem_nil
    obtain ⟨w, hw, hmems⟩ := (h.replica.config.view hview).2
    refine ⟨h.word, h.replica, fun _ => hview, hstarted, ?_⟩
    rintro c ⟨⟩
    refine ⟨h.started st hst, w, ?_, m, hmems ▸ hm, hmv, hname⟩
    rw [UInt32.add_sub_cancel]
    exact hw

theorem Inv.joined (h : p.Inv net.decided) {k : UInt32} {log : List Char} (hne : k ≠ 0)
    (hlog : LogOf net.decided k log) : ∃ c, p.config.restore log = some c ∧
      Sound net.decided { p.replica with config := c } ∧ c.myvid ≠ 0 := by
  obtain ⟨b, hb, hinst, hm⟩ := hlog.restore hne p.acc
  have hset := h.replica.config.setAcc hm
  obtain ⟨hviewed, hacc, hview⟩ := hset.reconstruct (hinst ▸ hne : b.instanceH ≠ 0)
  refine ⟨_, by rw [Config.restore, hb, Option.map_some], ?_, hview⟩
  refine h.replica.setConfig ?_ hviewed fun _ => hview
  rw [hacc]
  exact hm

theorem Inv.joinreq (h : p.Inv net.decided) (hnet : net.Inv) {m : String} {thread : Nat}
    {r : Process × Net} (hs : p.act net (.joinreq m thread) = some r) : Keeps net r := by
  obtain ⟨hask, hs⟩ := Option.ite_none_right_eq_some.mp hs
  split at hs
  · rename_i hmem
    cases hs
    exact ⟨.refl _, fun _ hb => .inl hb, h.sendLog hnet (h.view_of_ismember hmem) m, h⟩
  · split at hs
    · cases hs
      exact hnet.up h
    · -- Only the primary adds a node, and it has a view.
      rename_i hprimary
      obtain ⟨p', hlock, rfl⟩ := Option.map_eq_some_iff.mp hs
      have hview := h.busy (Or.inl (not_not.mp hprimary).symm)
      obtain ⟨h', hconfig⟩ := h.lock hlock fun m' hm' => by
        cases hm'
        exact hnet.asks _ hask
      exact hnet.up ⟨h'.word, h'.replica, fun _ => hconfig ▸ hview, h'.started, h'.call⟩

theorem heartbeat_isSome {vid : UInt32} (hnear : p.call.isSome = true → Near vid p.config.myvid) :
    (p.heartbeat vid).isSome = true := by
  unfold heartbeat
  split
  · rfl
  · rename_i hne
    split
    · rename_i hcall
      rw [if_pos ((hnear hcall).resolve_left hne)]
      rfl
    · rfl

theorem Inv.view_of_pinged (h : p.Inv net.decided) {m : String} (hm : m ∈ p.pinged) :
    p.config.myvid ≠ 0 := by
  unfold pinged at hm
  split at hm
  · rename_i hme
    exact h.view_of_ismember hme
  · exact absurd hm List.not_mem_nil

theorem Inv.act (h : p.Inv net.decided) (hnet : net.Inv)
    (hbeats : ∀ b ∈ net.beats, p.config.myvid ≠ 0 → Near b.2 p.config.myvid) {a : NodeAction}
    (hok : p.Orderly a) {r : Process × Net} (hs : p.act net a = some r) : Keeps net r := by
  cases a with
  | start | lost vid => cases hs
  | crash =>
    cases hs
    exact ⟨.refl _, fun _ hb => .inl hb, hnet, _, h.replica.config.backed.log⟩
  | preparereq arg =>
    obtain ⟨hword, ⟨⟩⟩ := Option.ite_none_right_eq_some.mp hs
    exact h.preparereq hnet arg hword
  | acceptreq arg =>
    obtain ⟨⟨hword, hline⟩, ⟨⟩⟩ := Option.ite_none_right_eq_some.mp hs
    exact hnet.up (h.setAcc (h.replica.config.backed.acceptreq arg hword hline))
  | decide q =>
    obtain ⟨hq, ⟨⟩⟩ := Option.ite_none_right_eq_some.mp hs
    have hreplica := h.replica.decidereq hnet.linked (hnet.said q hq) hok
    exact hnet.up ⟨h.word, hreplica, h.busy, h.started, h.call⟩
  | upcall q =>
    obtain ⟨hq, ⟨⟩⟩ := Option.ite_none_right_eq_some.mp hs
    refine hnet.up ⟨h.word, h.replica.upcall hq, fun _ => ?_, h.started, h.call⟩
    exact (h.replica.pending q hq).1.nonzero
  | readCurview =>
    obtain ⟨⟨hdue, -⟩, ⟨⟩⟩ := Option.ite_none_right_eq_some.mp hs
    have hview := h.busy (Or.inr (Or.inl hdue))
    exact hnet.up ⟨h.word, h.replica.readCurview hview, fun _ => hview, h.started, h.call⟩
  | readPrevview =>
    obtain ⟨cur, hcur, rfl⟩ := Option.map_eq_some_iff.mp hs
    obtain ⟨t, ht, hsound, hview⟩ := h.replica.readPrevview hnet.linked hcur (hok cur hcur)
    rw [ht]
    exact hnet.up ⟨h.word, hsound, fun _ => hview, h.started, h.call⟩
  | join =>
    obtain ⟨-, ⟨⟩⟩ := Option.ite_none_left_eq_some.mp hs
    refine ⟨.refl _, fun _ hb => .inl hb, ⟨hnet.linked, hnet.said, fun a ha => ?_, hnet.logs⟩,
      h.word, h.replica, h.busy, h.started, h.call⟩
    rcases List.mem_cons.mp ha with rfl | ha
    · exact h.word
    · exact hnet.asks a ha
  | joinFails =>
    obtain ⟨-, ⟨⟩⟩ := Option.ite_none_right_eq_some.mp hs
    exact hnet.up ⟨h.word, h.replica, fun _ => hok, h.started, h.call⟩
  | joined log =>
    obtain ⟨⟨-, hlog⟩, hs⟩ := Option.ite_none_right_eq_some.mp hs
    obtain ⟨k, hne, hof⟩ := hnet.logs _ hlog
    obtain ⟨c, hc, hsound, hview⟩ := h.joined hne hof
    rw [hc] at hs
    cases hs
    exact hnet.up ⟨h.word, hsound, fun _ => hview, h.started, h.call⟩
  | joinreq m thread => exact h.joinreq hnet hs
  | added m =>
    obtain ⟨hm, ⟨⟩⟩ := Option.ite_none_right_eq_some.mp hs
    have hview := h.busy (Or.inr (Or.inr (Or.inl (List.ne_nil_of_mem hm))))
    exact ⟨.refl _, fun _ hb => .inl hb, h.sendLog hnet hview m, h.word, h.replica, fun _ => hview,
      h.started, h.call⟩
  | removeWo m thread =>
    obtain ⟨-, hs⟩ := Option.ite_none_right_eq_some.mp hs
    obtain ⟨p', hlock, rfl⟩ := Option.map_eq_some_iff.mp hs
    exact hnet.up (h.lock hlock nofun).1
  | run thread =>
    obtain ⟨st, hfind, rfl⟩ := Option.map_eq_some_iff.mp hs
    exact hnet.up (h.run (List.mem_of_find?_eq_some hfind) fun hnone => hok hnone st hfind)
  | agree =>
    obtain ⟨call, hcall, rfl⟩ := Option.map_eq_some_iff.mp hs
    obtain ⟨hline, w, hw, hkeeps⟩ := h.call call hcall
    obtain ⟨hgrows, hagree⟩ := hnet.agree hline hw hkeeps
    exact ⟨hgrows, fun _ hb => .inl hb, hagree, h.mono hgrows⟩
  | stop =>
    obtain ⟨hcall, ⟨⟩⟩ := Option.ite_none_right_eq_some.mp hs
    have hview := h.busy (Or.inr (Or.inr (Or.inr hcall)))
    exact hnet.up ⟨h.word, h.replica, fun _ => hview, h.started, fun _ hnone => by cases hnone⟩
  | ping m =>
    obtain ⟨hm, ⟨⟩⟩ := Option.ite_none_right_eq_some.mp hs
    refine ⟨.refl _, fun b hb => ?_, ⟨hnet.linked, hnet.said, hnet.asks, hnet.logs⟩, h⟩
    rcases List.mem_cons.mp hb with rfl | hb
    · exact .inr (Process.view_up (h.view_of_pinged hm))
    · exact .inl hb
  | heartbeat vid =>
    obtain ⟨hvid, hs⟩ := Option.ite_none_right_eq_some.mp hs
    have hnear := fun hcall => hbeats _ hvid (h.busy (Or.inr (Or.inr (Or.inr hcall))))
    obtain ⟨reply, hreply⟩ := Option.isSome_iff_exists.mp (heartbeat_isSome hnear)
    rw [hreply] at hs
    cases hs
    exact hnet.up h

end Peer

/-! ## Starting a node -/

/-- The acceptor has the decisions of the log, and that of the first node has one in
any case. -/
theorem LogOf.create {d : Map UInt32 String} {h : UInt32} {log : List Char} (hlog : LogOf d h log)
    {first me : String} (hword : IsWord me) (hfirst : d.find 1 = some first) :
    ∃ a, Acceptor.create (me == first) me me log = some a ∧ Backed d a ∧
      (me = first → a.instanceH ≠ 0) := by
  obtain ⟨rs, rfl, hrec⟩ := hlog
  unfold Acceptor.create
  rw [Acceptor.logread_logText, Option.map_some]
  have hinst : (Acceptor.replay me rs).instanceH = h := by
    unfold Acceptor.replay
    rw [hrec.last]
    split
    · rename_i hzero
      exact hzero.symm
    · rfl
  generalize ha : { Acceptor.replay me rs with log := Acceptor.logText rs } = a
  have hbacked : Backed d a := by
    rw [← ha]
    refine ⟨fun i hi hle => ?_, rs, rfl, hinst.symm ▸ hrec⟩
    obtain ⟨v, hv⟩ := hrec.all i hi (hinst ▸ hle)
    have hw := (hrec.agreed i v hv).2
    exact ⟨v.text, hw, find_foldl_apply hw rs _ (fun j v hv => (hrec.agreed j v hv).2)
      (Or.inr ⟨v, hv⟩)⟩
  refine ⟨_, rfl, ?_⟩
  split
  · rename_i hnew
    obtain ⟨hzero, hme⟩ := hnew
    have hline : '\n' ∉ me.toList := fun hmem => absurd (hword.noSpace _ hmem) (by decide)
    -- What is entered for the first view is what a commit of it enters.
    have hagreed : d.find 1 = some me := eq_of_beq hme ▸ hfirst
    have hnew : a.instanceH < 1 := by
      rw [hzero]
      decide
    have hcommit := (hbacked.commitWo hagreed hline hnew (by rw [hzero]; rfl)).backed
    rw [Acceptor.commitWo_new me hnew] at hcommit
    exact ⟨⟨hcommit.full, hcommit.log⟩, fun _ => show (1 : UInt32) ≠ 0 by decide⟩
  · rename_i hold
    exact ⟨hbacked, fun hme hzero => hold ⟨hzero, beq_iff_eq.mpr hme⟩⟩

theorem boot_inv {d : Map UInt32 String} {first me : String} (hword : IsWord me)
    (hfirst : d.find 1 = some first) {h : UInt32} {log : List Char} (hlog : LogOf d h log) :
    (boot first me log).Inv d := by
  obtain ⟨a, ha, hbacked, hview⟩ := hlog.create hword hfirst
  have hblank : Viewed d { acc := a, myvid := 0, mems := [] } :=
    ⟨hbacked, fun _ => rfl, fun hne => absurd rfl hne⟩
  have hcreate : Viewed d (.create a) ∧ (me = first → (Config.create a).myvid ≠ 0) := by
    by_cases hzero : a.instanceH = 0
    · have hsame : Config.create a = { acc := a, myvid := 0, mems := [] } :=
        if_neg (hzero ▸ UInt32.lt_irrefl 0)
      rw [hsame]
      exact ⟨hblank, fun hme => absurd hzero (hview hme)⟩
    · obtain ⟨hviewed, -, hne⟩ := hblank.reconstruct hzero
      exact ⟨hviewed, fun _ => hne⟩
  unfold boot
  rw [ha]
  refine ⟨hword, ⟨hcreate.1, fun _ hq => absurd hq List.not_mem_nil, fun _ h => by cases h⟩,
    ?_, fun _ hst => absurd hst List.not_mem_nil, fun _ h => by cases h⟩
  rintro (hprimary | hdue | hadds | hcall)
  · exact hcreate.2 hprimary.symm
  · exact absurd hdue (Nat.lt_irrefl 0)
  · exact absurd rfl hadds
  · cases hcall

namespace Cluster

variable {first : NodeName} {names : List String} {s t : Cluster} {a : ClusterAction}

/-! ## How far apart the nodes are -/

/-- Any two nodes are at most one view apart, and so are a node and a ping. -/
structure Level (names : List String) (s : Cluster) : Prop where
  outside : ∀ me, me ∉ names → (s.nodes me).view = none
  views : ∀ me me' j k, (s.nodes me).view = some j → (s.nodes me').view = some k → Near j k
  beats : ∀ b ∈ s.net.beats, ∀ me k, (s.nodes me).view = some k → Near b.2 k

theorem Level.near (h : s.Level names) (hok : s.Paced first names a)
    (hs : (system first).step s a = some t) {k : UInt32} (hk : (t.nodes a.me).view = some k) :
    (∀ me, me ≠ a.me → ∀ j, (s.nodes me).view = some j → Near j k) ∧
      ∀ b ∈ s.net.beats, Near b.2 k := by
  by_cases hsame : (t.nodes a.me).view = (s.nodes a.me).view
  · rw [hk] at hsame
    exact ⟨fun me _ j hj => h.views me a.me j k hj hsame.symm,
      fun b hb => h.beats b hb a.me k hsame.symm⟩
  · have hentered : s.entered first a = some k := by
      rw [entered, hs, Option.bind_some, if_neg hsame, hk]
    obtain ⟨hviews, hbeats⟩ := hok k hentered
    refine ⟨fun me hme j hj => hviews me ?_ hme j hj, hbeats⟩
    by_contra hout
    exact absurd (hj.symm.trans (h.outside me hout)) nofun

theorem Level.step (h : s.Level names) (hok : s.Orderly first names a)
    (hs : (system first).step s a = some t)
    (hothers : ∀ me, me ≠ a.me → t.nodes me = s.nodes me)
    (hbeats : ∀ b ∈ t.net.beats, b ∈ s.net.beats ∨ (t.nodes a.me).view = some b.2) :
    t.Level names := by
  obtain ⟨hme, -, hpaced⟩ := hok
  have hviews : ∀ me me' j k, (t.nodes me).view = some j → (t.nodes me').view = some k →
      Near j k := by
    intro me me' j k hj hk
    by_cases hme : me = a.me
    · subst hme
      by_cases hme' : me' = a.me
      · subst hme'
        exact .inl (Option.some.inj (hj.symm.trans hk))
      · rw [hothers me' hme'] at hk
        exact ((h.near hpaced hs hj).1 me' hme' k hk).symm
    · rw [hothers me hme] at hj
      by_cases hme' : me' = a.me
      · subst hme'
        exact (h.near hpaced hs hk).1 me hme j hj
      · rw [hothers me' hme'] at hk
        exact h.views me me' j k hj hk
  refine ⟨fun me hout => ?_, hviews, fun b hb me k hk => ?_⟩
  · rw [hothers me fun heq => hout (heq ▸ hme)]
    exact h.outside me hout
  · rcases hbeats b hb with hold | hnew
    · by_cases hme : me = a.me
      · subst hme
        exact (h.near hpaced hs hk).2 b hold
      · rw [hothers me hme] at hk
        exact h.beats b hold me k hk
    · exact hviews a.me me b.2 k hnew hk

/-! ## The cluster -/

structure Inv (first : NodeName) (names : List String) (s : Cluster) : Prop where
  net : s.net.Inv
  first : s.net.decided.find 1 = some first.name
  nodes : ∀ me, (s.nodes me).Inv s.net.decided
  level : s.Level names

theorem inv_start (first : NodeName) (names : List String) : (start first).Inv first names := by
  have honly : ∀ i w, (start first).net.decided.find i = some w → i = 1 ∧ w = first.name := by
    intro i w hw
    rcases Map.find_insert_eq_some.mp hw with hi | ⟨-, hw⟩
    · exact hi
    · cases hw
  have hlinked : Linked (start first).net.decided := by
    constructor
    · intro i w hw hmem
      rw [(honly i w hw).2] at hmem
      exact absurd (first.noSpace _ hmem) (by decide)
    · intro i w hi hw
      rw [(honly i w hw).1] at hi
      exact absurd hi (UInt32.lt_irrefl 1)
  refine ⟨⟨hlinked, ?_, ?_, ?_⟩, Map.find_insert_self .., fun _ => ⟨0, logOf_nil _⟩,
    fun _ _ => rfl, fun _ _ _ _ hj => (nomatch hj), ?_⟩
  all_goals exact fun _ hmem => absurd hmem List.not_mem_nil

theorem Inv.keeps (h : s.Inv first names) (hok : s.Orderly first names a) {r : Process × Net}
    (hr : (s.nodes a.me).act first.name a.me s.net a.act = some r) : Keeps s.net r := by
  have hnode := h.nodes a.me
  rcases Process.act_cases hr with ⟨vid, rfl⟩ | ⟨log, hproc, hword, rfl⟩ | ⟨p, hproc, hact⟩
  · exact ⟨.refl _, fun _ hb => .inl (List.mem_of_mem_erase hb),
      ⟨h.net.linked, h.net.said, h.net.asks, h.net.logs⟩, hnode⟩
  · rw [hproc] at hnode
    obtain ⟨k, hlog⟩ := hnode
    exact ⟨.refl _, fun _ hb => .inl hb, h.net, boot_inv hword h.first hlog⟩
  · rw [hproc] at hnode
    refine hnode.act h.net (fun b hb hview => ?_) (hok.2.1 p (peer_of_up hproc)) hact
    exact h.level.beats b hb a.me _ (hproc ▸ Process.view_up hview)

theorem Inv.step (h : s.Inv first names) (hok : s.Orderly first names a)
    (hs : (system first).step s a = some t) : t.Inv first names := by
  obtain ⟨r, hr, ht⟩ := Option.map_eq_some_iff.mp hs
  have hkeeps := h.keeps hok hr
  have hself : t.nodes a.me = r.1 := ht ▸ nodes_setNode_self s a.me r
  have hothers : ∀ me, me ≠ a.me → t.nodes me = s.nodes me :=
    fun me hme => ht ▸ nodes_setNode_ne s r hme
  have hnet : t.net = r.2 := ht ▸ rfl
  refine ⟨hnet ▸ hkeeps.net, ?_, fun me => ?_, h.level.step hok hs hothers fun b hb => ?_⟩
  · rw [hnet]
    exact hkeeps.grows _ _ h.first
  · rw [hnet]
    by_cases hme : me = a.me
    · rw [hme, hself]
      exact hkeeps.node
    · rw [hothers me hme]
      exact (h.nodes me).mono hkeeps.grows
  · rw [hself]
    exact hkeeps.beats b (hnet ▸ hb)

/-- In every state of every run of a cluster, with any order of starts, crashes,
joins, removals, decide messages and heartbeats, no assertion has failed at any
node, if every step of the run is orderly. -/
theorem noneAborted_of_orderly (hs : (system first).ReachableWhile (Orderly first names) s) :
    s.NoneAborted := by
  have hinv : s.Inv first names :=
    hs.invariant (fun _ hinit => hinit ▸ inv_start first names)
      fun _ _ _ h hok hstep => h.step hok hstep
  intro me habort
  have hnode := hinv.nodes me
  rw [habort] at hnode
  exact hnode

/-! ## Runs -/

def node3001 : NodeName := .ofIsWord Node.founder_isWord

/-- A decide message is handled up to the end of `commit_change`. -/
def installs (me : String) (q : UInt32 × String) : List ClusterAction :=
  [⟨me, .decide q⟩, ⟨me, .upcall q⟩, ⟨me, .readCurview⟩, ⟨me, .readPrevview⟩]

/-- Node 3001 agrees with its peers on a view, and installs it. -/
def agrees (q : UInt32 × String) : List ClusterAction :=
  [⟨"3001", .run 0⟩, ⟨"3001", .agree⟩] ++ installs "3001" q ++ [⟨"3001", .stop⟩]

/-- Node 3001 adds a node with the given view, and the node takes over the log. -/
def joins (m : String) (q : UInt32 × String) (log : List Char) : List ClusterAction :=
  [⟨m, .start⟩, ⟨m, .join⟩, ⟨"3001", .joinreq m 0⟩] ++ agrees q ++
    [⟨"3001", .added m⟩, ⟨m, .joined log⟩]

def twoDone : List Char := Acceptor.doneText 1 "3001" ++ Acceptor.doneText 2 "3001 3002 "

def threeDone : List Char := twoDone ++ Acceptor.doneText 3 "3001 3002 3003 "

/-- Nodes 3001 and 3002 are in the second view. -/
def twoNodes : List ClusterAction :=
  ⟨"3001", .start⟩ :: joins "3002" (2, "3001 3002 ") twoDone

/-- Node 3002 pings node 3001 and is removed.  The ping gets to node 3001 in its next view, while
its proposer still runs.  Node 3002 cannot get back. -/
def removed : List ClusterAction :=
  twoNodes ++ [⟨"3002", .ping "3001"⟩, ⟨"3001", .removeWo "3002" 0⟩, ⟨"3001", .run 0⟩,
    ⟨"3001", .agree⟩] ++ installs "3001" (3, "3001 ") ++
    [⟨"3001", .heartbeat 2⟩, ⟨"3001", .lost 2⟩, ⟨"3001", .stop⟩] ++
    installs "3002" (3, "3001 ") ++
    [⟨"3002", .join⟩, ⟨"3002", .joinFails⟩, ⟨"3002", .readCurview⟩, ⟨"3002", .readPrevview⟩]

theorem noneAborted_removed : ((system node3001).final (start node3001) removed).NoneAborted := by
  have hreach : (system node3001).ReachableWhile (Orderly node3001 ["3001", "3002"])
      ((system node3001).final (start node3001) removed) :=
    System.ReachableWhile.final _ (.init rfl) (by decide +kernel) (by decide +kernel)
  exact noneAborted_of_orderly hreach

/-- Node 3002 is started before node 3001. -/
def earlyStart : List ClusterAction :=
  [⟨"3002", .start⟩, ⟨"3002", .join⟩, ⟨"3002", .joinFails⟩, ⟨"3002", .readCurview⟩,
    ⟨"3002", .readPrevview⟩]

/-- The decide message of the third view does not get to node 3002, and node 3001 is
gone in the fourth. -/
def lostDecide : List ClusterAction :=
  twoNodes ++ joins "3003" (3, "3001 3002 3003 ") threeDone ++
    [⟨"3001", .crash⟩, ⟨"3003", .removeWo "3001" 0⟩, ⟨"3003", .run 0⟩, ⟨"3003", .agree⟩] ++
    installs "3002" (4, "3002 3003 ")

/-- Node 3002 is two views behind when its heartbeat gets to node 3001, which is about
to add another node. -/
def farHeartbeat : List ClusterAction :=
  twoNodes ++ joins "3003" (3, "3001 3002 3003 ") threeDone ++
    [⟨"3004", .start⟩, ⟨"3004", .join⟩, ⟨"3001", .joinreq "3004" 0⟩] ++
    agrees (4, "3001 3002 3003 3004 ") ++
    [⟨"3005", .start⟩, ⟨"3005", .join⟩, ⟨"3001", .joinreq "3005" 0⟩, ⟨"3001", .run 0⟩,
      ⟨"3002", .ping "3001"⟩, ⟨"3001", .heartbeat 2⟩]

/-- In the first two runs an assertion of `set_primary` fails at node 3002, and in the
third that of `heartbeat` at node 3001. -/
theorem assertions_fail :
    ((system node3001).run (start node3001) earlyStart).map
      (fun s => (s.nodes "3002").isAborted) = some true ∧
    ((system node3001).run (start node3001) lostDecide).map
      (fun s => (s.nodes "3002").isAborted) = some true ∧
    ((system node3001).run (start node3001) farHeartbeat).map
      (fun s => (s.nodes "3001").isAborted) = some true ∧
    ∃ s, (system node3001).Reachable s ∧ ¬ s.NoneAborted := by
  refine ⟨by decide +kernel, by decide +kernel, by decide +kernel, _,
    System.Reachable.final earlyStart (.init rfl) (by decide +kernel), ?_⟩
  exact not_noneAborted "3002" (by decide +kernel)

end Cluster

end Rsm
end Frangipani

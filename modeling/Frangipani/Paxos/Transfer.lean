/-
State transfer to a joining node.

A joining node gets the text of the log of a member, writes it over its own log
and reads it back.  It reads it over the state it already has, so what the log
does not mention stays: old values of other instances, and a promised ballot.

A log that holds a `done` record sets everything else: the first one read resets
the accepted ballot and value, and the last one is the highest instance.
-/
import Frangipani.Paxos.Durable

namespace Frangipani
namespace Paxos

open Text Transition

namespace Acceptor

/-- The loop of `log::dump`, which reads the log line by line.  Every round but
the last takes a character off the text. -/
def dumpLoop : Nat → IStream → List Char → List Char
  | 0, _, res => res
  | fuel + 1, s, res =>
    let (v, s) := s.getLine ""
    if s.fail then res else dumpLoop fuel s (res ++ v.toList ++ ['\n'])

def dump (a : Acceptor) : List Char := dumpLoop (a.log.length + 1) (.ofChars a.log) []

def restore (b : Acceptor) (s : List Char) : Option Acceptor := { b with log := s }.logread

/-! ## Copying the text -/

/-- The text is empty or ends with a line end. -/
def EndsLine (text : List Char) : Prop := ∀ c, text.getLast? = some c → c = '\n'

theorem EndsLine.append {xs ys : List Char} (hx : EndsLine xs) (hy : EndsLine ys) :
    EndsLine (xs ++ ys) := by
  intro c hc
  rw [List.getLast?_append] at hc
  cases hlast : ys.getLast? with
  | none =>
    rw [hlast, Option.none_or] at hc
    exact hx c hc
  | some d =>
    rw [hlast, Option.some_or] at hc
    exact hy c (hlast.trans hc)

theorem EndsLine.after {line rest : List Char} (h : EndsLine (line ++ '\n' :: rest)) :
    EndsLine rest := by
  intro c hc
  refine h c ?_
  rw [List.getLast?_append, List.getLast?_cons, hc]
  rfl

/-- A text that is not empty and ends with a line end starts with a line. -/
theorem EndsLine.first_line {text : List Char} (h : EndsLine text) (hne : text ≠ []) :
    ∃ line rest, text = line ++ '\n' :: rest ∧ '\n' ∉ line ∧ EndsLine rest := by
  have hmem : '\n' ∈ text := by
    have hlast : text.getLast? = some (text.getLast hne) := List.getLast?_eq_some_getLast hne
    rw [← h _ hlast]
    exact List.getLast_mem hne
  obtain ⟨line, rest, rfl, hline⟩ := List.eq_append_cons_of_mem hmem
  exact ⟨line, rest, rfl, hline, h.after⟩

theorem dumpLoop_endsLine (fuel : Nat) :
    ∀ (text res : List Char), text.length < fuel → EndsLine text →
      dumpLoop fuel (.ofChars text) res = res ++ text := by
  induction fuel with
  | zero => exact fun _ _ hlen => absurd hlen (Nat.not_lt_zero _)
  | succ fuel ih =>
    intro text res hlen hends
    by_cases hne : text = []
    · subst hne
      rw [List.append_nil]
      rfl
    · obtain ⟨line, rest, rfl, hline, hrest⟩ := hends.first_line hne
      have hlt : rest.length < fuel := by
        rw [List.length_append, List.length_cons] at hlen
        omega
      rw [dumpLoop, IStream.getLine_ofChars "" line rest hline]
      simp only [IStream.ofChars_fail, Bool.false_eq_true, if_false, String.toList_ofList]
      rw [ih rest _ hlt hrest]
      simp only [List.append_assoc, List.singleton_append]

theorem dump_endsLine {a : Acceptor} (h : EndsLine a.log) : a.dump = a.log := by
  unfold dump
  rw [dumpLoop_endsLine _ _ _ (Nat.lt_succ_self _) h, List.nil_append]

theorem text_endsLine (r : Record) : EndsLine r.text := by
  intro c hc
  cases r with
  | done inst v =>
    rw [Record.text, doneText, List.getLast?_append] at hc
    exact (Option.some.inj hc).symm
  | high n m =>
    rw [Record.text, highText, List.getLast?_append] at hc
    exact (Option.some.inj hc).symm
  | prop n m v =>
    rw [Record.text, propText, List.getLast?_append] at hc
    exact (Option.some.inj hc).symm

theorem logText_endsLine (rs : List Record) : EndsLine (logText rs) := by
  induction rs with
  | nil => exact fun c hc => by cases hc
  | cons r rs ih =>
    have htext : logText (r :: rs) = r.text ++ logText rs := by simp [logText]
    rw [htext]
    exact (text_endsLine r).append ih

/-! ## Reading it over another state -/

/-- Two acceptors that read the same records come to agree, when the records keep
the agreement and one of them brings it about. -/
theorem foldl_apply_agree {R : Acceptor → Acceptor → Prop} {D : Record → Prop}
    (hkeep : ∀ (r : Record) (b c : Acceptor), R b c → R (r.apply b) (r.apply c))
    (hset : ∀ (r : Record) (b c : Acceptor), D r → R (r.apply b) (r.apply c)) (rs : List Record) :
    ∀ b c : Acceptor, (R b c ∨ ∃ r ∈ rs, D r) →
      R (rs.foldl Record.apply b) (rs.foldl Record.apply c) := by
  induction rs with
  | nil =>
    rintro b c (h | ⟨r, hr, -⟩)
    · exact h
    · exact absurd hr List.not_mem_nil
  | cons r rs ih =>
    rintro b c (h | ⟨r', hr', hD⟩)
    · exact ih _ _ (Or.inl (hkeep r b c h))
    · rcases List.mem_cons.mp hr' with rfl | hmem
      · exact ih _ _ (Or.inl (hset r' b c hD))
      · exact ih _ _ (Or.inr ⟨r', hmem, hD⟩)

/-- The highest instance and what was accepted for the next one. -/
structure SameProgress (b c : Acceptor) : Prop where
  instanceH : b.instanceH = c.instanceH
  nA : b.nA.Same c.nA
  vA : b.vA = c.vA

theorem sameProgress_of_done {rs : List Record} {inst : UInt32} {v : LineValue}
    (h : .done inst v ∈ rs) (b c : Acceptor) :
    SameProgress (rs.foldl Record.apply b) (rs.foldl Record.apply c) := by
  refine foldl_apply_agree (D := fun r => ∃ inst v, r = .done inst v) ?_ ?_ rs b c
    (Or.inr ⟨_, h, inst, v, rfl⟩)
  · intro r b c hsame
    cases r with
    | done inst v => exact ⟨rfl, ⟨rfl, Or.inl rfl⟩, rfl⟩
    | high n m => exact ⟨hsame.instanceH, hsame.nA, hsame.vA⟩
    | prop n m v => exact ⟨hsame.instanceH, .refl _, rfl⟩
  · rintro r b c ⟨inst, v, rfl⟩
    exact ⟨rfl, ⟨rfl, Or.inl rfl⟩, rfl⟩

theorem value_of_done {rs : List Record} {inst : UInt32} {v : LineValue}
    (h : .done inst v ∈ rs) (b c : Acceptor) :
    ((rs.foldl Record.apply b).value inst).1 = ((rs.foldl Record.apply c).value inst).1 := by
  rw [value_eq, value_eq]
  refine congrArg (Option.getD · "") ?_
  refine foldl_apply_agree (R := fun b c => b.values.find inst = c.values.find inst)
    (D := fun r => ∃ v, r = .done inst v) ?_ ?_ rs b c (Or.inr ⟨_, h, v, rfl⟩)
  · intro r b c hfind
    cases r with
    | done i w =>
      by_cases hi : inst = i
      · subst hi
        exact (Map.find_insert_self ..).trans (Map.find_insert_self ..).symm
      · exact (Map.find_insert_ne _ _ hi).trans (hfind.trans (Map.find_insert_ne _ _ hi).symm)
    | high n m => exact hfind
    | prop n m w => exact hfind
  · rintro r b c ⟨w, rfl⟩
    exact (Map.find_insert_self ..).trans (Map.find_insert_self ..).symm

theorem done_of_instanceH {rs : List Record} :
    ∀ {b : Acceptor}, (rs.foldl Record.apply b).instanceH ≠ b.instanceH →
      ∃ inst v, .done inst v ∈ rs := by
  induction rs with
  | nil => exact fun h => absurd rfl h
  | cons r rs ih =>
    intro b h
    cases r with
    | done inst v => exact ⟨inst, v, List.mem_cons_self⟩
    | high n m =>
      obtain ⟨inst, v, hmem⟩ := ih (b := (Record.high n m).apply b) h
      exact ⟨inst, v, List.mem_cons_of_mem _ hmem⟩
    | prop n m w =>
      obtain ⟨inst, v, hmem⟩ := ih (b := (Record.prop n m w).apply b) h
      exact ⟨inst, v, List.mem_cons_of_mem _ hmem⟩

theorem restore_logText (b : Acceptor) (rs : List Record) :
    b.restore (logText rs) = some { rs.foldl Record.apply b with log := logText rs } := by
  have hfuel : rs.length < (logText rs).length + 1 := Nat.lt_succ_of_le (length_le_logText rs)
  have hread := logreadLoop_logText rs ((logText rs).length + 1) 0 [] { b with log := logText rs }
    hfuel fun c hc => absurd hc List.not_mem_nil
  rw [List.nil_append, foldl_apply_log] at hread
  exact hread

end Acceptor

/-! ## The joining node -/

namespace Node

/-- A node's acceptor and its commits when it starts with an empty log.  The
first node commits its own value for instance 1. -/
def newHistory (node : Node) : History where
  acceptor := node.start
  committed := if node.first = true then [(1, node.value.text)] else []

/-- The life of a node's acceptor with its commits.  A restart commits nothing. -/
def history (node : Node) : System History Event where
  init h := h = node.newHistory
  step h
    | .serve op => some (h.serve op)
    | .restart => (node.boot h.acceptor.log).map fun a => { h with acceptor := a }

/-- The log describes the acceptor up to its promise, and every commit is in
it. -/
def Recorded (node : Node) (h : History) : Prop :=
  ∃ rs, Acceptor.DescribedBy node rs h.acceptor ∧ ∀ p ∈ h.committed, ∃ v, .done p.1 v ∈ rs

theorem recorded_newHistory (node : Node) : node.Recorded node.newHistory := by
  unfold newHistory Node.start Acceptor.fresh
  split
  · have hlog : Acceptor.logText [.done 1 node.value] = Acceptor.doneText 1 node.value.text := by
      rw [Acceptor.logText, List.flatMap_singleton]
      rfl
    refine ⟨[.done 1 node.value], ⟨_, hlog.symm, rfl, ⟨rfl, fun _ => rfl, .refl _, .refl _, rfl⟩,
      fun _ => show (1 : UInt32) ≠ 0 by decide⟩, ?_⟩
    intro p hp
    cases List.mem_singleton.mp hp
    exact ⟨node.value, List.mem_singleton.mpr rfl⟩
  · rename_i hfirst
    exact ⟨[], ⟨_, rfl, rfl, .refl _, fun hf => absurd hf hfirst⟩,
      fun p hp => absurd hp List.not_mem_nil⟩

theorem Recorded.step {node : Node} {h k : History} {e : Event} (hrec : node.Recorded h)
    (hline : e.OneLine) (hword : e.WordName) (hs : node.history.step h e = some k) :
    node.Recorded k := by
  obtain ⟨rs, hdesc, hdone⟩ := hrec
  cases e with
  | serve op =>
    cases hs
    obtain ⟨new, happ⟩ := hdesc.serveOp hline hword
    refine ⟨rs ++ new, happ.described, fun p hp => ?_⟩
    rcases List.mem_append.mp hp with hp | hp
    · obtain ⟨v, hv⟩ := happ.done p hp
      exact ⟨v, List.mem_append_right _ hv⟩
    · obtain ⟨v, hv⟩ := hdone p hp
      exact ⟨v, List.mem_append_left _ hv⟩
  | restart =>
    obtain ⟨b, hb, hdesc', -⟩ := hdesc.restart
    have hk : some { h with acceptor := b } = some k := by
      rw [← hs]
      show _ = (node.boot h.acceptor.log).map _
      rw [hb]
      rfl
    cases hk
    exact ⟨rs, hdesc', hdone⟩

theorem Recorded.run {node : Node} {es : List Event} :
    ∀ {h k : History}, node.Recorded h → (∀ e ∈ es, e.OneLine) → (∀ e ∈ es, e.WordName) →
      node.history.run h es = some k → node.Recorded k := by
  induction es with
  | nil =>
    intro h k hrec _ _ hrun
    cases hrun
    exact hrec
  | cons e es ih =>
    intro h k hrec hline hword hrun
    obtain ⟨m, hm, hrest⟩ := System.run_cons_eq_some hrun
    have hrec' := hrec.step (hline e List.mem_cons_self) (hword e List.mem_cons_self) hm
    exact ih hrec' (fun e he => hline e (List.mem_cons_of_mem _ he))
      (fun e he => hword e (List.mem_cons_of_mem _ he)) hrest

/-- Let a node's acceptor be in any state of any run in which the values are lines
and the node names are words, with at least one decided instance.  An acceptor in
any state that restores its dump has the same highest instance, the same value
for every instance committed on it, the same accepted ballot and value, and the
same log. -/
theorem restore_dump (node : Node) (es : List Event) (hline : ∀ e ∈ es, e.OneLine)
    (hword : ∀ e ∈ es, e.WordName) (h : History)
    (hrun : node.history.run node.newHistory es = some h) (hinst : 1 ≤ h.acceptor.instanceH)
    (b : Acceptor) :
    ∃ c, b.restore h.acceptor.dump = some c ∧
      c.instanceH = h.acceptor.instanceH ∧
      (∀ p ∈ h.committed, (c.value p.1).1 = (h.acceptor.value p.1).1) ∧
      c.nA.Same h.acceptor.nA ∧ c.vA = h.acceptor.vA ∧ c.log = h.acceptor.log := by
  obtain ⟨rs, ⟨nH, hrs⟩, hdone⟩ := (recorded_newHistory node).run hline hword hrun
  have hlog : h.acceptor.log = Acceptor.logText rs := hrs.log
  have hsame := hrs.same
  obtain ⟨inst, v, hmem⟩ : ∃ inst v, .done inst v ∈ rs := by
    refine Acceptor.done_of_instanceH (b := .blank node.me.name []) ?_
    rintro hzero
    have hzero' : h.acceptor.instanceH = 0 := hsame.instanceH.trans hzero
    rw [hzero'] at hinst
    exact absurd hinst (by decide)
  have hprogress := Acceptor.sameProgress_of_done hmem b (.blank node.me.name [])
  refine ⟨{ rs.foldl Record.apply b with log := Acceptor.logText rs }, ?_, ?_, ?_, ?_, ?_, ?_⟩
  · rw [Acceptor.dump_endsLine (hlog ▸ Acceptor.logText_endsLine rs), hlog]
    exact Acceptor.restore_logText b rs
  · exact hprogress.instanceH.trans hsame.instanceH.symm
  · intro p hp
    obtain ⟨w, hw⟩ := hdone p hp
    exact (Acceptor.value_of_done hw b (.blank node.me.name [])).trans (hsame.values p.1).symm
  · exact hprogress.nA.trans hsame.nA.symm
  · exact hprogress.vA.trans hsame.vA.symm
  · exact hlog.symm

/-- The second member of a group hands its state to a node that knows of none. -/
theorem restore_dump_founder :
    ∃ c, (Acceptor.blank "3003" []).restore
        (founder.history.final founder.newHistory
          [.serve (.decidereq { inst := 2, v := "3001 3002" }),
            .serve (.acceptreq
              { inst := 3, n := { n := 5, m := "3002" }, v := "3002" })]).acceptor.dump
        = some c ∧ c.instanceH = 2 := by
  obtain ⟨c, hc, hinst, -⟩ := restore_dump founder
    [.serve (.decidereq { inst := 2, v := "3001 3002" }),
      .serve (.acceptreq { inst := 3, n := { n := 5, m := "3002" }, v := "3002" })]
    (by decide) (by decide) _ rfl (by decide) (.blank "3003" [])
  exact ⟨c, hc, hinst.trans (by decide)⟩

end Node
end Paxos
end Frangipani

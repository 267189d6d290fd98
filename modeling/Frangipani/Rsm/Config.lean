/-
Views.

`config` keeps the number of the current view and its members.  A view is agreed
on as text: the member names with a blank after each.  It is taken apart again
with a string stream, so a list of names survives the way there and back when
every name is one word.

`get_view` reads the value of an instance from the acceptor, which enters an
empty value when it has none.  The text of a view is also what the log holds, on a
line of its own, and it comes back from there as well.  The remote handles that
`paxos_commit` drops for nodes that have left are not modelled.
-/
import Frangipani.Paxos.Log

namespace Frangipani
namespace Rsm

open Text Paxos

/-- The loop of `members`.  Every round takes a word off the text. -/
def membersLoop : Nat → IStream → List String → List String
  | 0, _, view => view
  | fuel + 1, s, view =>
    let (m, s) := s.getWord ""
    if s.fail then view else membersLoop fuel s (view ++ [m])

/-- `config::members`. -/
def members (value : String) : List String :=
  membersLoop (value.toList.length + 1) (.ofChars value.toList) []

def valueText (m : List String) : List Char := m.flatMap fun x => x.toList ++ [' ']

/-- `config::value`. -/
def value (m : List String) : String := String.ofList (valueText m)

/-- `isamember`. -/
def isamember (m : String) (nodes : List String) : Bool := nodes.contains m

/-- `config`, with the acceptor below it. -/
structure Config where
  acc : Acceptor
  myvid : UInt32
  mems : List String

namespace Config

def getView (c : Config) (inst : UInt32) : List String × Config :=
  let (v, acc) := c.acc.value inst
  (members v, { c with acc := acc })

def getCurview (c : Config) : List String × Config := c.getView c.myvid

def getPrevview (c : Config) : List String × Config := c.getView (c.myvid - 1)

def reconstruct (c : Config) : Config :=
  if c.acc.instanceH > 0 then
    let c := { c with myvid := c.acc.instanceH }
    let (view, c) := c.getView c.myvid
    { c with mems := view }
  else c

/-- The constructor of `config`, once the acceptor is there. -/
def create (acc : Acceptor) : Config := reconstruct { acc := acc, myvid := 0, mems := [] }

/-- `paxos_commit`, up to the call of `commit_change`. -/
def paxosCommit (c : Config) (inst : UInt32) (v : String) : Config :=
  { c with mems := members v, myvid := inst }

end Config

/-! ## The text of a view -/

theorem membersLoop_isWord (fuel : Nat) :
    ∀ (s : IStream) (view : List String), (∀ m ∈ view, IsWord m) →
      ∀ m ∈ membersLoop fuel s view, IsWord m := by
  induction fuel with
  | zero => exact fun _ _ h => h
  | succ fuel ih =>
    intro s view h
    rw [membersLoop]
    split
    rename_i m s' hget
    split
    · exact h
    · rename_i hfail
      refine ih s' _ fun x hx => ?_
      rcases List.mem_append.mp hx with hx | hx
      · exact h x hx
      · have hword := IStream.getWord_isWord s
          (hget.symm ▸ Bool.eq_false_iff.mpr hfail : (s.getWord "").2.fail = false)
        rw [hget] at hword
        rw [List.mem_singleton.mp hx]
        exact hword

theorem members_isWord {v m : String} (h : m ∈ members v) : IsWord m :=
  membersLoop_isWord _ _ [] (fun _ hm => absurd hm List.not_mem_nil) m h

theorem valueText_cons (m : String) (ms : List String) :
    valueText (m :: ms) = m.toList ++ ' ' :: valueText ms := by
  simp only [valueText, List.flatMap_cons, List.append_assoc, List.singleton_append]

theorem length_le_valueText (ms : List String) : ms.length ≤ (valueText ms).length := by
  induction ms with
  | nil => exact Nat.le_refl 0
  | cons m ms ih =>
    rw [valueText_cons, List.length_append, List.length_cons, List.length_cons]
    omega

/-- The loop reads the names back one by one.  The induction carries the blank
that the name before has left. -/
theorem membersLoop_valueText (ms : List String) :
    ∀ (fuel : Nat) (blanks : List Char) (view : List String), ms.length < fuel →
      (∀ b ∈ blanks, isSpace b = true) → (∀ m ∈ ms, IsWord m) →
      membersLoop fuel (.ofChars (blanks ++ valueText ms)) view = view ++ ms := by
  induction ms with
  | nil =>
    intro fuel blanks view hfuel hblanks _
    obtain ⟨fuel, rfl⟩ := Nat.exists_eq_add_one.mpr hfuel
    have hfail := IStream.getWord_blank "" blanks hblanks
    rw [valueText, List.flatMap_nil, List.append_nil, List.append_nil, membersLoop]
    simp only [hfail, if_true]
  | cons m ms ih =>
    intro fuel blanks view hfuel hblanks hwords
    obtain ⟨fuel, rfl⟩ := Nat.exists_eq_add_one.mpr (Nat.zero_lt_of_lt hfuel)
    have hm := hwords m List.mem_cons_self
    have hget := IStream.getWord_ofChars "" blanks m.toList ' ' (valueText ms) hblanks hm.1
      hm.noSpace rfl
    rw [List.append_assoc, ← valueText_cons] at hget
    have hrest := ih fuel [' '] (view ++ [m]) (Nat.lt_of_succ_lt_succ hfuel)
      (List.forall_mem_singleton.mpr rfl) fun x hx => hwords x (List.mem_cons_of_mem _ hx)
    rw [membersLoop, hget]
    simp only [IStream.ofChars_fail, Bool.false_eq_true, if_false, String.ofList_toList]
    rw [List.singleton_append] at hrest
    rw [hrest, List.append_assoc, List.singleton_append]

theorem members_value {ms : List String} (h : ∀ m ∈ ms, IsWord m) : members (value ms) = ms := by
  have hfuel : ms.length < (valueText ms).length + 1 := Nat.lt_succ_of_le (length_le_valueText ms)
  have hloop := membersLoop_valueText ms ((valueText ms).length + 1) [] [] hfuel
    (fun b hb => absurd hb List.not_mem_nil) h
  unfold members value
  rw [String.toList_ofList]
  exact hloop

theorem value_oneLine {ms : List String} (h : ∀ m ∈ ms, IsWord m) :
    '\n' ∉ (value ms).toList := by
  unfold value valueText
  rw [String.toList_ofList, List.mem_flatMap]
  rintro ⟨m, hm, hmem⟩
  rcases List.mem_append.mp hmem with hmem | hmem
  · exact absurd ((h m hm).noSpace _ hmem) (by decide)
  · exact absurd (List.mem_singleton.mp hmem) (by decide)

/-! ## Views in the log -/

/-- The acceptor has a value for the instance, and its text is that of the view. -/
def HasView (a : Acceptor) (inst : UInt32) (ms : List String) : Prop :=
  ∃ v, a.values.find inst = some v ∧ members v = ms

/-- A log of records to which `loginstance` has added a view. -/
def loggedView (me : String) (before : List Record) (inst : UInt32) (ms : List String) :
    List Char :=
  ((Acceptor.blank me (Acceptor.logText before)).loginstance inst (value ms)).log

/-- For every view, every instance and every log: the text of the view is taken apart into the
view.  When `loginstance` writes it behind any records, `logread` reads it back.  When any records
come behind it, they are read over that, and the view is still there unless another value of the
instance was read. -/
theorem logread_hasView {ms : List String} (h : ∀ m ∈ ms, IsWord m) (me : String)
    (before after : List Record) (inst : UInt32) :
    members (value ms) = ms ∧
      ∃ a, (Acceptor.blank me (loggedView me before inst ms)).logread = some a ∧
        HasView a inst ms ∧
        (Acceptor.blank me (loggedView me before inst ms ++ Acceptor.logText after)).logread =
          some { after.foldl Record.apply a with
            log := loggedView me before inst ms ++ Acceptor.logText after } ∧
        ((∀ v, .done inst v ∉ after) → HasView (after.foldl Record.apply a) inst ms) := by
  let r : Record := .done inst ⟨value ms, value_oneLine h⟩
  have hlog : loggedView me before inst ms = Acceptor.logText (before ++ [r]) :=
    (Acceptor.logText_append before r).symm
  have hlogs : loggedView me before inst ms ++ Acceptor.logText after =
      Acceptor.logText (before ++ [r] ++ after) := by
    rw [hlog, Acceptor.logText, Acceptor.logText, Acceptor.logText, ← List.flatMap_append]
  have hview : (r.apply (Acceptor.replay me before)).values.find inst = some (value ms) :=
    Map.find_insert_self ..
  rw [hlogs, hlog, Acceptor.logread_logText, Acceptor.logread_logText, Acceptor.replay_append]
  refine ⟨members_value h, _, rfl, ⟨value ms, hview, members_value h⟩, ?_, fun hlast => ?_⟩
  · rw [Acceptor.foldl_apply_log, ← Acceptor.replay_append, Acceptor.replay, Acceptor.replay,
      List.foldl_append]
  · refine ⟨value ms, ?_, members_value h⟩
    rw [Acceptor.find_foldl_apply_of_notMem hlast]
    exact hview

/-- A view of two nodes is logged between two others, and so is the empty view. -/
theorem logread_hasView_between :
    (∃ a, (Acceptor.blank "3001" (loggedView "3001" [.done 1 ⟨"3001 ", by decide⟩] 2
        ["3001", "3002"] ++ Acceptor.logText [.done 3 ⟨"3002 ", by decide⟩])).logread = some a ∧
      HasView a 2 ["3001", "3002"]) ∧
    ∃ a, (Acceptor.blank "3001" (loggedView "3001" [.done 1 ⟨"3001 ", by decide⟩] 2 [] ++
        Acceptor.logText [.done 3 ⟨"3002 ", by decide⟩])).logread = some a ∧ HasView a 2 [] := by
  constructor
  · obtain ⟨-, a, -, -, hread, hlast⟩ := @logread_hasView ["3001", "3002"] (by decide) "3001"
      [.done 1 ⟨"3001 ", by decide⟩] [.done 3 ⟨"3002 ", by decide⟩] 2
    refine ⟨_, hread, hlast fun v hv => ?_⟩
    cases List.mem_singleton.mp hv
  · obtain ⟨-, a, -, -, hread, hlast⟩ := @logread_hasView [] (by decide) "3001"
      [.done 1 ⟨"3001 ", by decide⟩] [.done 3 ⟨"3002 ", by decide⟩] 2
    refine ⟨_, hread, hlast fun v hv => ?_⟩
    cases List.mem_singleton.mp hv

end Rsm
end Frangipani

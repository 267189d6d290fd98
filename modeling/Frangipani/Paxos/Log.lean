/-
Reading the log back.

`logread` goes through the text of the log word by word.  Each record kind sets
the fields its writer is meant to save: `done` a decided value, which also resets
the ballots, `high` a promise and `prop` an acceptance.  An unknown word stops
the program.

What the three writers append is read back record by record: reading the text of
a list of records is applying them in order.
-/
import Frangipani.Paxos.Acceptor

namespace Frangipani
namespace Paxos

open Text

namespace Acceptor

/-- The `done` branch of `logread`.  `inst` is the local variable that the number
is read into, which keeps its value when the read fails. -/
def readDone (inst : UInt32) (s : IStream) (a : Acceptor) : UInt32 × IStream × Acceptor :=
  let (inst, s) := s.getUnsigned inst
  let s := s.getChar
  let (v, s) := s.getLine ""
  (inst, s,
    { a with
      values := a.values.insert inst v, instanceH := inst, vA := "",
      nH := { a.nH with n := 0 }, nA := { a.nA with n := 0 } })

/-- The `high` branch of `logread`. -/
def readHigh (s : IStream) (a : Acceptor) : IStream × Acceptor :=
  let (n, s) := s.getUnsigned a.nH.n
  let (m, s) := s.getWord a.nH.m
  (s, { a with nH := { n := n, m := m } })

/-- The `prop` branch of `logread`. -/
def readProp (s : IStream) (a : Acceptor) : IStream × Acceptor :=
  let (n, s) := s.getUnsigned a.nA.n
  let (m, s) := s.getWord a.nA.m
  let s := s.getChar
  let (v, s) := s.getLine ""
  (s, { a with nA := { n := n, m := m }, vA := v })

/-- The loop of `logread`.  Every round takes a word off the text, so the length
of the text bounds the rounds.  The result is `none` when the assertion on the
record kind fails. -/
def logreadLoop : Nat → UInt32 → IStream → Acceptor → Option Acceptor
  | 0, _, _, _ => none
  | fuel + 1, inst, s, a =>
    let (type, s) := s.getWord ""
    if s.fail then some a
    else if type = "done" then
      let (inst, s, a) := readDone inst s a
      logreadLoop fuel inst s a
    else if type = "high" then
      let (s, a) := readHigh s a
      logreadLoop fuel inst s a
    else if type = "prop" then
      let (s, a) := readProp s a
      logreadLoop fuel inst s a
    else none

def logread (a : Acceptor) : Option Acceptor :=
  logreadLoop (a.log.length + 1) 0 (.ofChars a.log) a

/-- The constructor of `acceptor`, on a log file with the given text. -/
def create (first : Bool) (me value : String) (log : List Char) : Option Acceptor :=
  (blank me log).logread.map fun a =>
    if a.instanceH = 0 ∧ first = true then
      { { a with values := a.values.insert 1 value }.loginstance 1 value with instanceH := 1 }
    else a

end Acceptor

/-! ## Reading what was written -/

/-- A node name as the log can hold it. -/
structure NodeName where
  name : String
  nonempty : name.toList ≠ []
  noSpace : ∀ c ∈ name.toList, isSpace c = false

/-- A value as the log can hold it. -/
structure LineValue where
  text : String
  oneLine : '\n' ∉ text.toList

inductive Record
  | done (inst : UInt32) (v : LineValue)
  | high (n : UInt32) (m : NodeName)
  | prop (n : UInt32) (m : NodeName) (v : LineValue)

namespace Record

/-- The text of a record, as its writer appends it. -/
def text : Record → List Char
  | .done inst v => Acceptor.doneText inst v.text
  | .high n m => Acceptor.highText { n := n, m := m.name }
  | .prop n m v => Acceptor.propText { n := n, m := m.name } v.text

/-- What a record does to the acceptor that reads it. -/
def apply (a : Acceptor) : Record → Acceptor
  | .done inst v =>
    { a with
      values := a.values.insert inst v.text, instanceH := inst, vA := "",
      nH := { a.nH with n := 0 }, nA := { a.nA with n := 0 } }
  | .high n m => { a with nH := { n := n, m := m.name } }
  | .prop n m v => { a with nA := { n := n, m := m.name }, vA := v.text }

end Record

namespace Acceptor

theorem space_isSpace : ∀ b ∈ [' '], isSpace b = true := List.forall_mem_singleton.mpr rfl

theorem newline_isSpace : ∀ b ∈ ['\n'], isSpace b = true := List.forall_mem_singleton.mpr rfl

theorem readDone_text (old inst : UInt32) (v : LineValue) (text : List Char) (a : Acceptor) :
    readDone old (.ofChars (' ' :: (decimal inst ++ ' ' :: (v.text.toList ++ '\n' :: text)))) a =
      (inst, .ofChars text, (Record.done inst v).apply a) := by
  have hnum := IStream.getUnsigned_ofChars old inst [' '] ' ' (v.text.toList ++ '\n' :: text)
    space_isSpace (by decide)
  have hline := IStream.getLine_ofChars "" v.text.toList text v.oneLine
  rw [List.append_assoc, List.singleton_append] at hnum
  simp only [readDone, hnum, IStream.getChar_ofChars, hline, String.ofList_toList, Record.apply]

theorem readHigh_text (n : UInt32) (m : NodeName) (text : List Char) (a : Acceptor) :
    readHigh (.ofChars (' ' :: (decimal n ++ ' ' :: (m.name.toList ++ '\n' :: text)))) a =
      (.ofChars ('\n' :: text), (Record.high n m).apply a) := by
  have hnum := IStream.getUnsigned_ofChars a.nH.n n [' '] ' ' (m.name.toList ++ '\n' :: text)
    space_isSpace (by decide)
  have hname := IStream.getWord_ofChars a.nH.m [' '] m.name.toList '\n' text space_isSpace
    m.nonempty m.noSpace (by decide)
  rw [List.append_assoc, List.singleton_append] at hnum hname
  simp only [readHigh, hnum, hname, String.ofList_toList, Record.apply]

theorem readProp_text (n : UInt32) (m : NodeName) (v : LineValue) (text : List Char)
    (a : Acceptor) :
    readProp (.ofChars (' ' :: (decimal n ++ ' ' ::
        (m.name.toList ++ ' ' :: (v.text.toList ++ '\n' :: text))))) a =
      (.ofChars text, (Record.prop n m v).apply a) := by
  have hnum := IStream.getUnsigned_ofChars a.nA.n n [' '] ' '
    (m.name.toList ++ ' ' :: (v.text.toList ++ '\n' :: text)) space_isSpace (by decide)
  have hname := IStream.getWord_ofChars a.nA.m [' '] m.name.toList ' '
    (v.text.toList ++ '\n' :: text) space_isSpace m.nonempty m.noSpace (by decide)
  have hline := IStream.getLine_ofChars "" v.text.toList text v.oneLine
  rw [List.append_assoc, List.singleton_append] at hnum hname
  simp only [readProp, hnum, hname, IStream.getChar_ofChars, hline, String.ofList_toList,
    Record.apply]

/-- The loop reads the kind of a record, after the line end that the record
before it may have left. -/
theorem getWord_kind (blanks : List Char) (hblanks : ∀ b ∈ blanks, isSpace b = true)
    (kind : List Char) (hne : kind ≠ []) (hkind : ∀ c ∈ kind, isSpace c = false)
    (text : List Char) :
    (IStream.ofChars (blanks ++ (kind ++ ' ' :: text))).getWord "" =
      (String.ofList kind, .ofChars (' ' :: text)) := by
  have hword := IStream.getWord_ofChars "" blanks kind ' ' text hblanks hne hkind (by decide)
  rw [List.append_assoc] at hword
  exact hword

theorem doneText_append (inst : UInt32) (v : String) (text : List Char) :
    doneText inst v ++ text =
      ['d', 'o', 'n', 'e'] ++ ' ' :: (decimal inst ++ ' ' :: (v.toList ++ '\n' :: text)) := by
  simp only [doneText, List.append_assoc, List.cons_append, List.nil_append]

theorem highText_append (n : PropT) (text : List Char) :
    highText n ++ text =
      ['h', 'i', 'g', 'h'] ++ ' ' :: (decimal n.n ++ ' ' :: (n.m.toList ++ '\n' :: text)) := by
  simp only [highText, List.append_assoc, List.cons_append, List.nil_append]

theorem propText_append (n : PropT) (v : String) (text : List Char) :
    propText n v ++ text = ['p', 'r', 'o', 'p'] ++ ' ' ::
      (decimal n.n ++ ' ' :: (n.m.toList ++ ' ' :: (v.toList ++ '\n' :: text))) := by
  simp only [propText, List.append_assoc, List.cons_append, List.nil_append]

/-- The loop at a record applies it, and may leave a line end behind. -/
theorem logreadLoop_record (fuel : Nat) (old : UInt32) (blanks : List Char)
    (hblanks : ∀ b ∈ blanks, isSpace b = true) (r : Record) (text : List Char) (a : Acceptor) :
    ∃ inst left, (∀ b ∈ left, isSpace b = true) ∧
      logreadLoop (fuel + 1) old (.ofChars (blanks ++ (r.text ++ text))) a =
        logreadLoop fuel inst (.ofChars (left ++ text)) (r.apply a) := by
  cases r with
  | done inst v =>
    refine ⟨inst, [], fun b hb => absurd hb List.not_mem_nil, ?_⟩
    have hkind : String.ofList ['d', 'o', 'n', 'e'] = "done" := by decide
    rw [Record.text, doneText_append, logreadLoop,
      getWord_kind blanks hblanks _ (by decide) (noSpace_of_all (by decide)), hkind]
    simp only [IStream.ofChars_fail, Bool.false_eq_true, if_false, if_true, readDone_text,
      List.nil_append]
  | high n m =>
    refine ⟨old, ['\n'], newline_isSpace, ?_⟩
    have hkind : String.ofList ['h', 'i', 'g', 'h'] = "high" := by decide
    have hdone : ("high" : String) ≠ "done" := by decide
    rw [Record.text, highText_append, logreadLoop,
      getWord_kind blanks hblanks _ (by decide) (noSpace_of_all (by decide)), hkind]
    simp only [IStream.ofChars_fail, Bool.false_eq_true, if_false, hdone, if_true, readHigh_text,
      List.singleton_append]
  | prop n m v =>
    refine ⟨old, [], fun b hb => absurd hb List.not_mem_nil, ?_⟩
    have hkind : String.ofList ['p', 'r', 'o', 'p'] = "prop" := by decide
    have hdone : ("prop" : String) ≠ "done" := by decide
    have hhigh : ("prop" : String) ≠ "high" := by decide
    rw [Record.text, propText_append, logreadLoop,
      getWord_kind blanks hblanks _ (by decide) (noSpace_of_all (by decide)), hkind]
    simp only [IStream.ofChars_fail, Bool.false_eq_true, if_false, hdone, hhigh, if_true,
      readProp_text, List.nil_append]

/-- The text of a log that holds the given records. -/
def logText (rs : List Record) : List Char := rs.flatMap Record.text

/-- The acceptor that a log with the given records describes. -/
def replay (me : String) (rs : List Record) : Acceptor :=
  rs.foldl Record.apply (blank me [])

theorem replay_append (me : String) (rs : List Record) (r : Record) :
    replay me (rs ++ [r]) = r.apply (replay me rs) := by
  simp only [replay, List.foldl_append, List.foldl_cons, List.foldl_nil]

theorem logText_append (rs : List Record) (r : Record) :
    logText (rs ++ [r]) = logText rs ++ r.text := by
  simp [logText]

/-- Reading the text of a list of records applies them in order.  The induction
carries the line end that the record before may have left. -/
theorem logreadLoop_logText (rs : List Record) :
    ∀ (fuel : Nat) (old : UInt32) (blanks : List Char) (a : Acceptor), rs.length < fuel →
      (∀ b ∈ blanks, isSpace b = true) →
      logreadLoop fuel old (.ofChars (blanks ++ logText rs)) a =
        some (rs.foldl Record.apply a) := by
  induction rs with
  | nil =>
    intro fuel old blanks a hfuel hblanks
    obtain ⟨fuel, rfl⟩ : ∃ f, fuel = f + 1 := ⟨fuel - 1, by simp at hfuel; omega⟩
    have hfail := IStream.getWord_blank "" blanks hblanks
    simp only [logText, List.flatMap_nil, List.append_nil, logreadLoop, hfail, if_true,
      List.foldl_nil]
  | cons r rs ih =>
    intro fuel old blanks a hfuel hblanks
    obtain ⟨fuel, rfl⟩ : ∃ f, fuel = f + 1 := ⟨fuel - 1, by simp at hfuel; omega⟩
    obtain ⟨inst, left, hleft, hstep⟩ :=
      logreadLoop_record fuel old blanks hblanks r (logText rs) a
    have htext : logText (r :: rs) = r.text ++ logText rs := by simp [logText]
    rw [htext, hstep, ih fuel inst left _ (by simp at hfuel; omega) hleft, List.foldl_cons]

theorem text_ne_nil (r : Record) : r.text ≠ [] := by
  cases r with
  | done inst v => exact List.append_ne_nil_of_right_ne_nil _ (List.cons_ne_nil _ _)
  | high n m => exact List.append_ne_nil_of_right_ne_nil _ (List.cons_ne_nil _ _)
  | prop n m v => exact List.append_ne_nil_of_right_ne_nil _ (List.cons_ne_nil _ _)

theorem length_le_logText (rs : List Record) : rs.length ≤ (logText rs).length := by
  induction rs with
  | nil => exact Nat.le_refl 0
  | cons r rs ih =>
    have hr : 0 < r.text.length := List.length_pos_of_ne_nil (text_ne_nil r)
    have htext : logText (r :: rs) = r.text ++ logText rs := by simp [logText]
    rw [htext, List.length_append, List.length_cons]
    omega

theorem foldl_apply_log (rs : List Record) (log : List Char) :
    ∀ a : Acceptor, rs.foldl Record.apply { a with log := log } =
      { rs.foldl Record.apply a with log := log } := by
  induction rs with
  | nil => exact fun _ => rfl
  | cons r rs ih =>
    intro a
    have hr : r.apply { a with log := log } = { r.apply a with log := log } := by
      cases r <;> rfl
    rw [List.foldl_cons, hr, ih, List.foldl_cons]

theorem find_foldl_apply_of_notMem {rs : List Record} {inst : UInt32} (h : ∀ v, .done inst v ∉ rs) :
    ∀ a : Acceptor, (rs.foldl Record.apply a).values.find inst = a.values.find inst := by
  induction rs with
  | nil => exact fun _ => rfl
  | cons r rs ih =>
    intro a
    rw [List.foldl_cons, ih fun v hv => h v (List.mem_cons_of_mem _ hv)]
    cases r with
    | done i w =>
      refine Map.find_insert_ne _ _ ?_
      rintro rfl
      exact h w List.mem_cons_self
    | high n m => rfl
    | prop n m w => rfl

theorem logread_logText (me : String) (rs : List Record) :
    (blank me (logText rs)).logread = some { replay me rs with log := logText rs } := by
  have hfuel : rs.length < (logText rs).length + 1 := by
    have := length_le_logText rs
    omega
  have hread := logreadLoop_logText rs ((logText rs).length + 1) 0 [] (blank me (logText rs)) hfuel
    fun b hb => absurd hb List.not_mem_nil
  rw [List.nil_append] at hread
  show logreadLoop ((logText rs).length + 1) 0 (.ofChars (logText rs)) (blank me (logText rs)) = _
  rw [hread]
  exact congrArg some (foldl_apply_log rs (logText rs) (blank me []))

/-- The acceptor that the constructor makes on an empty log file. -/
def fresh (first : Bool) (me value : String) : Acceptor :=
  if first = true then
    { { blank me [] with values := Map.empty.insert 1 value }.loginstance 1 value with
      instanceH := 1 }
  else blank me []

theorem create_nil (first : Bool) (me value : String) :
    create first me value [] = some (fresh first me value) := by
  have hread : (blank me []).logread = some (blank me []) := logread_logText me []
  unfold create fresh
  rw [hread, Option.map_some]
  refine congrArg some ?_
  by_cases hfirst : first = true
  · rw [if_pos ⟨rfl, hfirst⟩, if_pos hfirst]
    rfl
  · rw [if_neg fun hc => hfirst hc.2, if_neg hfirst]

end Acceptor
end Paxos
end Frangipani
